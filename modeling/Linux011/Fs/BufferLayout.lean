/-
  Where `buffer_init` puts the data of the buffers: the heads grow from the end of the kernel, the
  blocks come down from `buffer_end` and jump over the screen and the BIOS.
-/
import Linux011.Fs.QueueRuns

namespace Linux011.Fs

open Linux011.Lib

namespace Queues

/-- `if (b == (void *) 0x100000) b = (void *) 0xA0000` -/
def jump (b : ℕ) : ℕ := if b = 0x100000 then 0xA0000 else b

/-- `b_data` of head `h` and of the heads behind it. -/
def blockData (startBuffer : ℕ) : ℕ → ℕ → ℕ → List ℕ
  | 0, _, _ => []
  | n + 1, b, h =>
    let b := b - 1024
    if startBuffer + headSize * (h + 1) ≤ b then b :: blockData startBuffer n (jump b) (h + 1) else []

/-- Where the next block would begin. -/
def nextData (b : ℕ) (data : List ℕ) : ℕ := (data.getLast?.map jump).getD b - 1024

end Queues

open Queues

/-- `main`: the end of the buffers for this much memory above 1M. -/
def bufferMemoryEnd (extMemK : ℕ) : ℕ :=
  let memoryEnd := ((1 <<< 20) + extMemK <<< 10) / 4096 * 4096
  let memoryEnd := if 16 * 1024 * 1024 < memoryEnd then 16 * 1024 * 1024 else memoryEnd
  if 12 * 1024 * 1024 < memoryEnd then 4 * 1024 * 1024
  else if 6 * 1024 * 1024 < memoryEnd then 2 * 1024 * 1024
  else 1 * 1024 * 1024

variable {startBuffer n b h : ℕ}

/-- One block for each head. -/
theorem blockData_length (q : Queues) : h + (blockData startBuffer n b h).length = (q.initLoop startBuffer n b h).1 := by
  induction n generalizing b h q with
  | zero => rfl
  | succ n ih =>
    unfold blockData initLoop
    dsimp only
    by_cases hb : startBuffer + headSize * (h + 1) ≤ b - 1024
    · rw [if_pos hb, if_pos hb, ← ih (q.initHead h), List.length_cons]
      unfold jump
      omega
    · rw [if_neg hb, if_neg hb]
      rfl

theorem nextData_cons (b a : ℕ) (l : List ℕ) : nextData b (a :: l) = nextData (jump a) l := by
  unfold nextData
  cases l with
  | nil => rw [List.getLast?_singleton, Option.map_some, Option.getD_some, List.getLast?_nil, Option.map_none, Option.getD_none]
  | cons c l =>
    rw [List.getLast?_cons_cons, List.getLast?_eq_some_getLast (List.cons_ne_nil c l), Option.map_some, Option.getD_some,
      Option.getD_some]

/-- The loop at head `h`, with blocks below `b`: there is memory at `b`, and the heads for the blocks
    above 1M fit below the screen. -/
structure AtHead (startBuffer b h : ℕ) : Prop where
  block : b % 1024 = 0
  memory : b ≤ 0xA0000 ∨ 0x100000 < b
  heads : startBuffer + headSize * (h + (b - 0x100000) / 1024) ≤ 0xA0000

theorem AtHead.next (hp : AtHead startBuffer b h) (hb : startBuffer + headSize * (h + 1) ≤ b - 1024) :
    AtHead startBuffer (jump (b - 1024)) (h + 1) := by
  obtain ⟨h1, h2, h3⟩ := hp
  have hsize : headSize = 36 := rfl
  rw [hsize] at h3 hb
  unfold jump
  split_ifs
  · exact ⟨by decide, .inl le_rfl, by rw [hsize]; omega⟩
  · exact ⟨by omega, by omega, by rw [hsize]; omega⟩

/-- The blocks lie below `b` in this order, beside the hole and above the heads; and there is no room
    for one more. -/
theorem blockData_placed (hp : AtHead startBuffer b h) (hn : b < 1024 * n) :
    (∀ a ∈ blockData startBuffer n b h, a + 1024 ≤ b ∧ (a + 1024 ≤ 0xA0000 ∨ 0x100000 ≤ a) ∧
      startBuffer + headSize * (h + (blockData startBuffer n b h).length) ≤ a) ∧
    (blockData startBuffer n b h).Pairwise (fun a c => c + 1024 ≤ a) ∧
    nextData b (blockData startBuffer n b h) < startBuffer + headSize * (h + (blockData startBuffer n b h).length + 1) ∧
    startBuffer + headSize * (h + (blockData startBuffer n b h).length) ≤ 0xA0000 := by
  induction n generalizing b h with
  | zero => omega
  | succ n ih =>
    have hlow : startBuffer + headSize * h ≤ 0xA0000 := by
      have := hp.heads
      unfold headSize at *
      omega
    unfold blockData
    dsimp only
    by_cases hb : startBuffer + headSize * (h + 1) ≤ b - 1024
    · have hpos : 0 < startBuffer + headSize * (h + 1) := by
        unfold headSize
        omega
      have hjump : jump (b - 1024) ≤ b - 1024 := by
        unfold jump
        split_ifs <;> omega
      obtain ⟨hmem, hpair, hnext, hheads⟩ := ih (hp.next hb) (by omega)
      rw [if_pos hb, List.length_cons]
      generalize blockData startBuffer n (jump (b - 1024)) (h + 1) = l at hmem hpair hnext hheads
      have hlen : h + 1 + l.length = h + (l.length + 1) := by omega
      rw [hlen] at hmem hnext hheads
      have hfirst : startBuffer + headSize * (h + (l.length + 1)) ≤ b - 1024 := by
        cases l with
        | nil => exact hb
        | cons a l =>
          obtain ⟨ha, -, hle⟩ := hmem a List.mem_cons_self
          omega
      refine ⟨fun a ha => ?_, List.pairwise_cons.mpr ⟨fun a ha => (hmem a ha).1.trans hjump, hpair⟩, ?_, hheads⟩
      · obtain he | ha := List.mem_cons.mp ha
        · have hm := hp.memory
          have hb0 := hp.block
          rw [he]
          exact ⟨by omega, by omega, hfirst⟩
        · obtain ⟨h1, h2, h3⟩ := hmem a ha
          exact ⟨by omega, h2, h3⟩
      · rw [nextData_cons]
        exact hnext
    · rw [if_neg hb]
      refine ⟨fun a ha => absurd ha List.not_mem_nil, List.Pairwise.nil, ?_, hlow⟩
      exact Nat.not_le.mp hb

theorem bufferMemoryEnd_cases (extMemK : ℕ) : bufferMemoryEnd extMemK = 0x100000 ∨ bufferMemoryEnd extMemK = 0x200000 ∨
    bufferMemoryEnd extMemK = 0x400000 := by
  unfold bufferMemoryEnd
  dsimp only
  split_ifs <;> simp

/-- For every kernel that ends at 0x60000 or below and every memory size: the blocks of `buffer_init` are
    apart from each other, from the heads and from the hole, one for each head, there is at least one
    and no room for another, and the heads are in a ring. -/
theorem buffer_memory_layout (hend : startBuffer ≤ 0x60000) (extMemK : ℕ) (memory : ℕ → Buf) (q : Queues)
    (disk : ℕ → ℕ → ℕ → ℕ) (driver : ℕ → Bool) :
    let bufferEnd := bufferMemoryEnd extMemK
    let m := Heads.bufferInit startBuffer bufferEnd memory q disk driver
    let data := blockData startBuffer bufferEnd (Heads.blocksEnd bufferEnd) 0
    (data.length = m.n ∧ 0 < m.n) ∧ data.Pairwise (fun a c => c + 1024 ≤ a) ∧
    (∀ a ∈ data, a + 1024 ≤ bufferEnd ∧ (a + 1024 ≤ 0xA0000 ∨ 0x100000 ≤ a) ∧ startBuffer + headSize * m.n ≤ a) ∧
    startBuffer + headSize * m.n ≤ 0xA0000 ∧
    nextData (Heads.blocksEnd bufferEnd) data < startBuffer + headSize * (m.n + 1) ∧
    IsRing m.q.nextFree m.q.prevFree m.q.freeList (List.range m.n) := by
  intro bufferEnd m data
  have hsize : headSize = 36 := rfl
  obtain ⟨hle, hplaced, hroom, hfuel⟩ : Heads.blocksEnd bufferEnd ≤ bufferEnd ∧ AtHead startBuffer (Heads.blocksEnd bufferEnd) 0 ∧
      Heads.Room startBuffer bufferEnd ∧ Heads.blocksEnd bufferEnd < 1024 * bufferEnd := by
    have hblocks : Heads.blocksEnd bufferEnd = 0xA0000 ∧ bufferEnd = 0x100000 ∨
        Heads.blocksEnd bufferEnd = bufferEnd ∧ (bufferEnd = 0x200000 ∨ bufferEnd = 0x400000) := by
      obtain he | he | he := bufferMemoryEnd_cases extMemK <;> unfold bufferEnd <;> rw [he]
      · exact .inl ⟨by decide, rfl⟩
      · exact .inr ⟨by decide, .inl rfl⟩
      · exact .inr ⟨by decide, .inr rfl⟩
    refine ⟨by omega, ⟨by omega, by omega, ?_⟩, ?_, by omega⟩
    · rw [hsize]
      omega
    · unfold Heads.Room
      rw [hsize]
      omega
  have hn : data.length = m.n := (Nat.zero_add _).symm.trans (blockData_length q)
  obtain ⟨hmem, hpair, hnext, hheads⟩ := blockData_placed hplaced hfuel
  have hlen : 0 + data.length = m.n := (Nat.zero_add _).trans hn
  obtain ⟨hsound, hlists⟩ := bufferInit_sound hroom memory q disk driver
  have hring := hsound.tied.ring
  rw [hlists] at hring
  change startBuffer + headSize * (0 + data.length) ≤ _ at hheads
  rw [hlen] at hheads
  refine ⟨⟨hn, ?_⟩, hpair, fun a ha => ?_, hheads, ?_, hring⟩
  · have hpos := initLoop_pos (q := q) hroom
    exact hpos
  · obtain ⟨h1, h2, h3⟩ := hmem a ha
    change startBuffer + headSize * (0 + data.length) ≤ _ at h3
    rw [hlen] at h3
    exact ⟨h1.trans hle, h2, h3⟩
  · change nextData _ data < startBuffer + headSize * (0 + data.length + 1) at hnext
    rwa [hlen] at hnext

/-- The pointers before `buffer_init`. -/
def clearQueues : Queues := ⟨fun _ => none, fun _ => none, fun _ => none, fun _ => none, fun _ => none, none, 0⟩

/-- 16M of memory, and a kernel of 128K. -/
theorem buffer_memory_layout_16M :
    0 < (Heads.bufferInit 0x20000 (bufferMemoryEnd 0x3C00) (fun _ => emptyBuf) clearQueues (fun _ _ _ => 0) fun _ => true).n :=
  (buffer_memory_layout (show 0x20000 ≤ 0x60000 by decide) 0x3C00 (fun _ => emptyBuf) clearQueues (fun _ _ _ => 0)
    fun _ => true).1.2

end Linux011.Fs
