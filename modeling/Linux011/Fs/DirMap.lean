/-
  A directory as a finite map from names to inode numbers: what `find_entry` finds, and what a write
  into one entry does to the map. The entries are in the blocks of the tree of `Fs.Extend`.
-/
import Linux011.Lib.Slots
import Linux011.Fs.Bmap
import Linux011.Fs.TreeSpecs
import Linux011.Fs.ExclusiveRuns

namespace Linux011.Fs

open Linux011.Lib
open Linux011.Fs.Extend (Path target Vol Mem)

/-- How many blocks a file can have. -/
def maxBlocks : ℕ := 7 + 512 + 512 * 512

/-- Entry `k` of a block, if it is in use. -/
def blockSlot (b : Block) (k : ℕ) : Option (List UInt8 × ℕ) :=
  if b.word (8 * k) = 0 then none else some (entryName b k, b.word (8 * k))

/-- The entries of a directory. -/
def memSlots (m : Mem) : Slots (List UInt8) ℕ := fun k => blockSlot (m.block (m.zoneAt (target (k / 64)))) (k % 64)

/-- An inode with its device. -/
def Kern.mem (s : Kern) (dir : Fin 32) : Mem where
  zone k := (s.inode dir).zone k
  size := (s.inode dir).size
  dirt := (s.inode dir).dirt
  zmap := (s.disk (s.inode dir).dev).zmap
  block := (s.disk (s.inode dir).dev).block
  bcount := s.bcount (s.inode dir).dev

/-- A directory as a map from names to inode numbers. -/
def dirMap (s : Kern) (dir : Fin 32) : List UInt8 → Option ℕ := (memSlots (s.mem dir)).lookup ((s.inode dir).size / 16)

/-- The zones of the tree are data zones in use, each in one place; there are no holes, and the names
    of the entries in use are distinct. -/
structure Directory (v : Vol) (s : Kern) (dir : Fin 32) : Prop where
  dev : (s.inode dir).dev ≠ 0
  vol : ∀ k, (s.super k).dev = (s.inode dir).dev → (s.super k).toDSuper = v.toDSuper
  sound : (s.mem dir).Sound v
  mapped : ∀ k < (s.inode dir).size / 16, k / 64 < maxBlocks ∧ (s.mem dir).zoneAt (target (k / 64)) ≠ 0
  distinct : (memSlots (s.mem dir)).Distinct ((s.inode dir).size / 16)

/-- No user access faults, and no count of a buffer is about to run over. -/
structure Calm (s : Kern) : Prop where
  access : s.env.access = none
  bcount : ∀ d z, s.bcount d z ≠ 255

variable {v : Vol} {s s' : Kern} {dir : Fin 32} {name : List UInt8} {m m' : Mem} {n k j : ℕ} {b b' : Block}

/-! ## Blocks -/

theorem bmapZone_mem (hd : (s.inode dir).dev ≠ 0) (hn : n < maxBlocks) : bmapZone s dir n = (s.mem dir).zoneAt (target n) := by
  unfold maxBlocks at hn
  rw [bmapZone_eq n hd]
  unfold zoneBlock target
  dsimp only
  by_cases h7 : n < 7
  · rw [if_pos h7, dif_pos h7]
    rfl
  rw [if_neg h7, dif_neg h7]
  by_cases h8 : n - 7 < 512
  · rw [if_pos (show n < 7 + 512 by omega), dif_pos h8]
    rfl
  · have hmid : (n - 7 - 512) / 512 % 512 = (n - 7 - 512) / 512 := Nat.mod_eq_of_lt (by omega)
    rw [if_neg (show ¬ n < 7 + 512 by omega), dif_neg h8, show n - (7 + 512) = n - 7 - 512 by omega]
    change _ = Mem.entry _ (Mem.entry _ _ ⟨(n - 7 - 512) / 512 % 512, _⟩) ⟨(n - 7 - 512) % 512, _⟩
    unfold Mem.entry
    simp only [hmid]
    rfl

theorem blockSlot_eq_none : blockSlot b k = none ↔ b.word (8 * k) = 0 := by
  unfold blockSlot
  split_ifs with h
  · exact iff_of_true rfl h
  · exact iff_of_false nofun h

theorem blockSlot_eq_some {nr : ℕ} : blockSlot b k = some (name, nr) ↔ nr ≠ 0 ∧ b.word (8 * k) = nr ∧ entryName b k = name := by
  unfold blockSlot
  split_ifs with h
  · refine iff_of_false nofun fun h' => h'.1 (h'.2.1.symm.trans h)
  · rw [Option.some.injEq, Prod.mk.injEq]
    constructor
    · rintro ⟨hn, hw⟩
      exact ⟨hw ▸ h, hw, hn⟩
    · rintro ⟨-, hw, hn⟩
      exact ⟨hn, hw⟩

theorem blockSlot_congr (h : Exclusive.Agree b b' k) : blockSlot b' k = blockSlot b k := by
  have hn : entryName b' k = entryName b k := h.nameOf
  unfold blockSlot
  rw [h.word, hn]

/-- `match` finds the entry of a name. -/
theorem matchEntry_slot (h0 : 0 ∉ name) (hn : name.length ≤ 14) :
    matchEntry b k name = true ↔ ∃ nr, blockSlot b k = some (name, nr) := by
  rw [matchEntry_iff h0 hn]
  constructor
  · rintro ⟨hw, hname⟩
    exact ⟨_, blockSlot_eq_some.mpr ⟨hw, rfl, hname⟩⟩
  · rintro ⟨nr, h⟩
    obtain ⟨hnr, hw, hname⟩ := blockSlot_eq_some.mp h
    exact ⟨hw ▸ hnr, hname⟩

/-! ## find_entry -/

theorem access_run (h : s.env.access = none) : access s = .ok () s := by
  unfold access
  rw [h]

theorem isDotDot_run (h : s.env.access = none) (hn : name ≠ [dot, dot]) : isDotDot name s = .ok false s := by
  unfold isDotDot
  by_cases hl : name.length = 2
  · obtain ⟨a, b, rfl⟩ := List.length_eq_two.mp hl
    rw [if_neg (not_not.mpr hl), Prog.bind_run (access_run h)]
    change (if a ≠ dot then _ else _ : K Bool) s = _
    by_cases ha : a = dot
    · have hb : b ≠ dot := fun hb => hn (by rw [ha, hb])
      rw [if_neg (not_not.mpr ha), Prog.bind_run (access_run h)]
      exact congrArg (fun r => Out.ok r s) (decide_eq_false hb)
    · rw [if_pos ha]
      rfl
  · rw [if_pos hl]
    rfl

theorem crossMount_run (h : s.env.access = none) (hn : name ≠ [dot, dot]) : crossMount dir name s = .ok (dir, name) s :=
  Prog.bind_run (isDotDot_run h hn)

/-- The buffer that the loop holds at entry `i`. -/
def heldZone (s : Kern) (dir : Fin 32) (i : ℕ) : ℕ := bmapZone s dir ((i - 1) / 64)

/-- Entry `k` has the name. -/
def MatchAt (s : Kern) (dir : Fin 32) (name : List UInt8) (k : ℕ) : Prop :=
  matchEntry ((s.disk (s.inode dir).dev).block (bmapZone s dir (k / 64))) (k % 64) name = true

section

variable (hdev : (s.inode dir).dev ≠ 0) (hb : ∀ d z, s.bcount d z ≠ 255)
include hdev hb

theorem searchBuffer_run {i : ℕ} (hlim : i / 64 < maxBlocks) (hz : bmapZone s dir (i / 64) ≠ 0) :
    searchBuffer dir (s.inode dir).dev i (some (heldZone s dir i)) { s with bcount := hold s.bcount (s.inode dir).dev (heldZone s dir i) } =
      .ok (some (bmapZone s dir (i / 64))) { s with bcount := hold s.bcount (s.inode dir).dev (bmapZone s dir (i / 64)) } := by
  unfold searchBuffer
  by_cases hi : i % 64 = 0 ∧ i ≠ 0
  · rw [if_pos hi]
    refine (Prog.bind_run (brelse_run s (hb _ _))).trans ((Prog.bind_run (bmap_run s dir hlim hb)).trans ?_)
    rw [if_neg hz]
    exact Prog.bind_run (bread_run s _ hdev)
  · have hheld : heldZone s dir i = bmapZone s dir (i / 64) := by
      unfold heldZone
      rw [show (i - 1) / 64 = i / 64 by omega]
    rw [if_neg hi, hheld]
    rfl

theorem searchEntries_run (name : List UInt8) {entries : ℕ} (hm : ∀ k < entries, k / 64 < maxBlocks ∧ bmapZone s dir (k / 64) ≠ 0)
    (n i : ℕ) (hi : i ≤ entries) (hn : entries < n + i) :
    (∀ k < entries, i ≤ k → ¬ MatchAt s dir name k) ∧
      searchEntries dir (s.inode dir).dev entries name n i (some (heldZone s dir i))
        { s with bcount := hold s.bcount (s.inode dir).dev (heldZone s dir i) } = .ok none s ∨
    ∃ k < entries, i ≤ k ∧ MatchAt s dir name k ∧ (∀ j < k, i ≤ j → ¬ MatchAt s dir name j) ∧
      searchEntries dir (s.inode dir).dev entries name n i (some (heldZone s dir i))
          { s with bcount := hold s.bcount (s.inode dir).dev (heldZone s dir i) } =
        .ok (some ⟨bmapZone s dir (k / 64), k % 64⟩) { s with bcount := hold s.bcount (s.inode dir).dev (bmapZone s dir (k / 64)) } := by
  induction n generalizing i with
  | zero => omega
  | succ n ih =>
    rw [searchEntries]
    by_cases hend : entries ≤ i
    · refine Or.inl ⟨fun k hk hik => by omega, ?_⟩
      rw [if_pos hend]
      exact Prog.bind_run (brelse_run s (hb _ _))
    · obtain ⟨hlim, hz⟩ := hm i (by omega)
      rw [if_neg hend, Prog.bind_run (searchBuffer_run hdev hb hlim hz)]
      dsimp only
      rw [Prog.bind_run (Prog.get_run _)]
      dsimp only
      by_cases hmatch : matchEntry ((s.disk (s.inode dir).dev).block (bmapZone s dir (i / 64))) (i % 64) name = true
      · rw [if_pos hmatch]
        exact Or.inr ⟨i, by omega, le_rfl, hmatch, fun j hj hij => by omega, rfl⟩
      · rw [if_neg hmatch]
        have hskip : ∀ k, i ≤ k → ¬ (i + 1 ≤ k) → ¬ MatchAt s dir name k := fun k hik hk => by
          rw [show k = i by omega]
          exact hmatch
        refine (ih (i + 1) (by omega) (by omega)).imp (fun h => ⟨fun k hk hik => ?_, h.2⟩)
          fun ⟨k, hk, hik, hmk, hfirst, hrun⟩ => ⟨k, hk, by omega, hmk, fun j hj hij => ?_, hrun⟩
        · by_cases hk' : i + 1 ≤ k
          · exact h.1 k hk hk'
          · exact hskip k hik hk'
        · by_cases hj' : i + 1 ≤ j
          · exact hfirst j hj hj'
          · exact hskip j hij hj'

end

/-- Entry `k` in its buffer. -/
def Kern.entryAt (s : Kern) (dir : Fin 32) (k : ℕ) : DirEntry := ⟨(s.mem dir).zoneAt (target (k / 64)), k % 64⟩

/-- The state with the buffer of an entry taken. -/
def Kern.withBuffer (s : Kern) (dir : Fin 32) (e : DirEntry) : Kern := { s with bcount := hold s.bcount (s.inode dir).dev e.block }

theorem take_ne_dotdot (hn : name ≠ [dot, dot]) : name.take 14 ≠ [dot, dot] := by
  intro h
  have hlen := congrArg List.length h
  rw [List.length_take] at hlen
  rw [List.take_of_length_le (by simp at hlen; omega)] at h
  exact hn h

theorem Directory.matchAt_iff (hd : Directory v s dir) (hz : 0 ∉ name) (hk : k < (s.inode dir).size / 16) :
    MatchAt s dir (name.take 14) k ↔ ∃ nr, memSlots (s.mem dir) k = some (name.take 14, nr) := by
  unfold MatchAt
  rw [bmapZone_mem hd.dev (hd.mapped k hk).1]
  exact matchEntry_slot (fun h => hz (List.mem_of_mem_take h)) (List.length_take_le 14 name)

/-- `find_entry` finds just the names of the map. -/
theorem Directory.findEntry_run (hd : Directory v s dir) (hc : Calm s) (h0 : name ≠ []) (hz : 0 ∉ name) (hn : name ≠ [dot, dot]) :
    dirMap s dir (name.take 14) = none ∧ findEntry dir name s = .ok (dir, none) s ∨
    ∃ k < (s.inode dir).size / 16, ∃ nr, memSlots (s.mem dir) k = some (name.take 14, nr) ∧
      findEntry dir name s = .ok (dir, some (s.entryAt dir k)) (s.withBuffer dir (s.entryAt dir k)) := by
  have hmap : ∀ k < (s.inode dir).size / 16, k / 64 < maxBlocks ∧ bmapZone s dir (k / 64) ≠ 0 := fun k hk => by
    rw [bmapZone_mem hd.dev (hd.mapped k hk).1]
    exact hd.mapped k hk
  have hnone : (∀ k < (s.inode dir).size / 16, ¬ MatchAt s dir (name.take 14) k) → dirMap s dir (name.take 14) = none :=
    fun h => Slots.lookup_eq_none.mpr fun k hk nr hs => h k hk ((hd.matchAt_iff hz hk).mpr ⟨nr, hs⟩)
  have hstart : findEntry dir name s = (do
      if (s.inode dir).zone 0 = 0 then return (dir, none)
      else if ← bread (s.inode dir).dev ((s.inode dir).zone 0) then
        let e ← searchEntries dir (s.inode dir).dev ((s.inode dir).size / 16) (name.take 14) ((s.inode dir).size / 16 + 1) 0
          (some ((s.inode dir).zone 0))
        return (dir, e)
      else return (dir, none) : K (Fin 32 × Option DirEntry)) s := by
    unfold findEntry
    refine (Prog.bind_run (Prog.get_run s)).trans ?_
    rw [if_neg fun h => h0 (List.length_eq_zero_iff.mp h)]
    exact (Prog.bind_run (crossMount_run hc.access (take_ne_dotdot hn))).trans (Prog.bind_run (Prog.get_run s))
  rw [hstart]
  by_cases hzone : (s.inode dir).zone 0 = 0
  · -- a directory without a first block has no entries
    rw [if_pos hzone]
    exact Or.inl ⟨hnone fun k hk => absurd hzone (hmap 0 (by omega)).2, rfl⟩
  rw [if_neg hzone, Prog.bind_run (bread_run s _ hd.dev), if_pos rfl]
  obtain ⟨hno, hrun⟩ | ⟨k, hk, -, hmatch, -, hrun⟩ := searchEntries_run hd.dev hc.bcount (name.take 14) hmap
    ((s.inode dir).size / 16 + 1) 0 (Nat.zero_le _) (by omega)
  · exact Or.inl ⟨hnone fun k hk => hno k hk (Nat.zero_le _), Prog.bind_run hrun⟩
  · obtain ⟨nr, hs⟩ := (hd.matchAt_iff hz hk).mp hmatch
    rw [bmapZone_mem hd.dev (hd.mapped k hk).1] at hrun
    exact Or.inr ⟨k, hk, nr, hs, Prog.bind_run hrun⟩

/-! ## A write into an entry -/

theorem mem_setBlock (s : Kern) (dir : Fin 32) (z : ℕ) (x : Block) :
    (s.setBlock (s.inode dir).dev z x).mem dir = Exclusive.setBlock (s.mem dir) z x := by
  unfold Kern.mem Kern.setBlock Kern.setDisk Exclusive.setBlock
  simp only [Function.update_self]

theorem setEntry_run (d : ℕ) (e : DirEntry) (nr : ℕ) (s : Kern) :
    setEntry d e nr s = .ok () (s.setBlock d e.block (((s.disk d).block e.block).setWord (8 * e.place) nr)) := rfl

theorem slots_setBlock (hs : m.Sound v) (hk : k / 64 < maxBlocks) (h0 : m.zoneAt (target (k / 64)) ≠ 0) {x : Block}
    (hx : ∀ o, o / 16 ≠ k % 64 → x o = m.block (m.zoneAt (target (k / 64))) o) :
    memSlots (Exclusive.setBlock m (m.zoneAt (target (k / 64))) x) k = blockSlot x (k % 64) ∧
      ∀ j, j / 64 < maxBlocks → j ≠ k → memSlots (Exclusive.setBlock m (m.zoneAt (target (k / 64))) x) j = memSlots m j := by
  have hat : Exclusive.At m k (m.zoneAt (target (k / 64))) := ⟨h0, rfl⟩
  have hz := Exclusive.zoneAt_setBlock hs hat x
  constructor
  · unfold memSlots
    rw [hz]
    exact congrArg (blockSlot · (k % 64)) (Function.update_self ..)
  · intro j hj hjk
    have hagree := Exclusive.agree_setBlock hs hat hk hj hjk hx
    unfold memSlots
    rw [hz]
    exact blockSlot_congr hagree

namespace Directory

theorem withBuffer (hd : Directory v s dir) (e : DirEntry) : Directory v (s.withBuffer dir e) dir :=
  ⟨hd.dev, hd.vol, hd.sound.congr (fun _ => rfl) fun _ h => h, hd.mapped, hd.distinct⟩

/-- The tree stays, and so do the super blocks. -/
theorem setBlock (hd : Directory v s dir) (h0 : (s.mem dir).zoneAt (target (k / 64)) ≠ 0) (x : Block)
    (hdist : (memSlots ((s.setBlock (s.inode dir).dev (s.entryAt dir k).block x).mem dir)).Distinct ((s.inode dir).size / 16)) :
    Directory v (s.setBlock (s.inode dir).dev (s.entryAt dir k).block x) dir := by
  have hz := Exclusive.zoneAt_setBlock hd.sound (i := k) ⟨h0, rfl⟩ x
  refine ⟨hd.dev, hd.vol, ?_, fun j hj => ⟨(hd.mapped j hj).1, ?_⟩, hdist⟩
  · rw [mem_setBlock]
    exact hd.sound.congr hz fun _ h => h
  · rw [mem_setBlock]
    exact (hz _).trans_ne (hd.mapped j hj).2

/-- 0 in the inode number of an entry removes its name. -/
theorem remove (hd : Directory v s dir) (hk : k < (s.inode dir).size / 16) {nr : ℕ} (hs : memSlots (s.mem dir) k = some (name, nr))
    {e : DirEntry} (he : e = s.entryAt dir k) (hrun : setEntry (s.inode dir).dev e 0 s = .ok () s') :
    Directory v s' dir ∧ dirMap s' dir = Function.update (dirMap s dir) name none := by
  subst he
  cases hrun
  obtain ⟨hlim, h0⟩ := hd.mapped k hk
  obtain ⟨hself, hother⟩ := slots_setBlock hd.sound hlim h0
    (x := ((s.mem dir).block (s.entryAt dir k).block).setWord (8 * (k % 64)) 0)
    fun o ho => Exclusive.setWord_other _ _ (by omega)
  have hempty := hself.trans (blockSlot_eq_none.mpr ((Extend.Block.word_setWord _ _ _ _ (by decide)).trans (if_pos rfl)))
  obtain ⟨hdist, hmap⟩ := hd.distinct.clear hk hs hempty fun j hj => hother j (hd.mapped j hj).1
  rw [← mem_setBlock] at hdist hmap
  exact ⟨hd.setBlock h0 _ hdist, hmap⟩

end Directory

end Linux011.Fs
