/-
  `setup_paging` (boot/head.s): the page directory at 0 and the four tables behind it, which map the
  first 16 MB to themselves. This is the memory that the memory manager starts from.
-/
import Linux011.Lib.Bytes
import Linux011.Lib.Steps
import Linux011.Mm.Ops

namespace Linux011.Boot.Paging

open Linux011.Lib Linux011.Mm

def pg_dir : ℕ := 0
def pg0 : ℕ := 0x1000
def pg1 : ℕ := 0x2000
def pg2 : ℕ := 0x3000
def pg3 : ℕ := 0x4000

inductive Label where
  | setupPaging
  /-- `rep;stosl` -/
  | clear
  | tables
  /-- `1:` -/
  | fill
  | enable
  | ret
  deriving DecidableEq

structure Machine where
  label : Label
  eax : ℕ
  ecx : ℕ
  edi : ℕ
  /-- the direction flag -/
  down : Bool
  cr3 : ℕ
  /-- the PG bit of cr0 -/
  pg : Bool
  mem : Bytes

namespace Machine

def stosl (m : Machine) : Machine :=
  { m with mem := m.mem.store 4 m.edi m.eax, edi := (if m.down then m.edi + (4294967296 - 4) else m.edi + 4) % 4294967296 }

def step (m : Machine) : Machine :=
  match m.label with
  | .setupPaging => { m with ecx := 1024 * 5, eax := 0, edi := 0, down := false, label := .clear }
  | .clear => if m.ecx = 0 then { m with label := .tables } else { m.stosl with ecx := m.ecx - 1 }
  | .tables =>
    { m with
      mem := (((m.mem.store 4 pg_dir (pg0 + 7)).store 4 (pg_dir + 4) (pg1 + 7)).store 4 (pg_dir + 8) (pg2 + 7)).store 4
        (pg_dir + 12) (pg3 + 7)
      edi := pg3 + 4092, eax := 0xfff007, down := true, label := .fill }
  | .fill =>
    let m := m.stosl
    -- jge behind the subtraction: as signed words, eax was not below 0x1000
    { m with
      eax := (m.eax + (4294967296 - 0x1000)) % 4294967296
      label := if 0x1000 ≤ m.eax ∧ m.eax < 2147483648 then .fill else .enable }
  | .enable => { m with eax := 0, cr3 := 0, pg := true, label := .ret }
  | .ret => m

end Machine

/-- A word of a directory or a table. -/
def entryOf (w : ℕ) : Entry :=
  { frame := w / 4096, present := w.testBit 0, rw := w.testBit 1, user := w.testBit 2, dirty := w.testBit 6 }

/-- The pages of the memory. -/
def physical (mem : Bytes) : Mem where
  memMap _ := 0
  highMemory := 0
  mem f := { entry := fun i => entryOf (mem.load 4 (4096 * f + 4 * i)), byte := fun i => (mem (4096 * f + i)).toNat }

/-- What the processor makes of a linear address, with the right to write of both levels. -/
def walk (mem : Bytes) (cr3 addr : ℕ) : Option (ℕ × Bool) :=
  let dir := entryOf (mem.load 4 (cr3 + 4 * (addr / 4194304)))
  if dir.present then
    let pte := entryOf (mem.load 4 (dir.addr + 4 * (addr / 4096 % 1024)))
    if pte.present then some (pte.addr + addr % 4096, dir.rw && pte.rw) else none
  else none

/-- The five pages from 0 on, when the directory is filled up to `d` and the tables from `n` on. -/
structure Tables (mem₀ : Bytes) (n : ℕ) (mem : Bytes) : Prop where
  dir : ∀ d < 4, mem.load 4 (4 * d) = 4096 * (d + 1) + 7
  zero : ∀ d < 1024, 4 ≤ d → mem.load 4 (4 * d) = 0
  pte : ∀ j < 4096, n ≤ j → mem.load 4 (0x1000 + 4 * j) = 4096 * j + 7
  rest : ∀ a, 0x5000 ≤ a → mem a = mem₀ a

section

variable {mem₀ : Bytes} {m : Machine} {n : ℕ}

/-- `n` words are still to be cleared. -/
structure Clearing (mem₀ : Bytes) (n : ℕ) (m : Machine) : Prop where
  label : m.label = .clear
  eax : m.eax = 0
  ecx : m.ecx = n
  edi : m.edi = 4 * (5120 - n)
  down : m.down = false
  zero : ∀ j < 5120 - n, m.mem.load 4 (4 * j) = 0
  rest : ∀ a, 0x5000 ≤ a → m.mem a = mem₀ a

theorem Clearing.step (h : Clearing mem₀ (n + 1) m) (hn : n < 5120) : Clearing mem₀ n m.step := by
  have hstep : m.step = { m.stosl with ecx := n } := by
    unfold Machine.step
    rw [h.label]
    dsimp only
    rw [h.ecx, if_neg (Nat.succ_ne_zero n), Nat.add_sub_cancel]
  have hedi := h.edi
  rw [hstep]
  refine ⟨h.label, h.eax, rfl, ?_, h.down, fun j hj => ?_, fun a ha => ?_⟩
  · change (if m.down = true then _ else m.edi + 4) % 4294967296 = _
    rw [h.down, if_neg Bool.false_ne_true, hedi]
    omega
  · change (m.mem.store 4 m.edi m.eax).load 4 (4 * j) = 0
    obtain hlt | rfl : j < 5120 - (n + 1) ∨ j = 5120 - (n + 1) := by omega
    · rw [Bytes.load_store_other (by omega), h.zero j hlt]
    · rw [hedi, h.eax, Bytes.load_store_self, Nat.zero_mod]
  · change (m.mem.store 4 m.edi m.eax) a = _
    rw [Bytes.store_other (by omega), h.rest a ha]

/-- `n` entries of the tables are still to be filled. -/
structure Filling (mem₀ : Bytes) (n : ℕ) (m : Machine) : Prop where
  label : m.label = if n = 0 then .enable else .fill
  eax : m.eax = (4096 * n + 7 + (4294967296 - 4096)) % 4294967296
  edi : m.edi = 0xffc + 4 * n
  down : m.down = true
  tables : Tables mem₀ n m.mem

theorem Filling.step (h : Filling mem₀ (n + 1) m) (hn : n < 4096) : Filling mem₀ n m.step := by
  have heax : m.eax = 4096 * n + 7 := by
    rw [h.eax]
    omega
  have hedi := h.edi
  have hlabel : m.label = .fill := h.label
  have hstep : m.step =
      { m.stosl with
        eax := (4096 * n + 7 + (4294967296 - 4096)) % 4294967296
        label := if 0x1000 ≤ 4096 * n + 7 ∧ 4096 * n + 7 < 2147483648 then .fill else .enable } := by
    unfold Machine.step
    rw [hlabel, ← heax]
    rfl
  rw [hstep]
  refine ⟨?_, rfl, ?_, h.down, fun d hd => ?_, fun d hd h4 => ?_, fun j hj hnj => ?_, fun a ha => ?_⟩
  · by_cases h0 : n = 0
    · rw [if_pos h0]
      dsimp only
      rw [if_neg (by omega)]
    · rw [if_neg h0]
      dsimp only
      rw [if_pos (by omega)]
  · change (if m.down = true then m.edi + (4294967296 - 4) else _) % 4294967296 = _
    rw [h.down, if_pos rfl, hedi]
    omega
  · change (m.mem.store 4 m.edi m.eax).load 4 (4 * d) = _
    rw [Bytes.load_store_other (by omega), h.tables.dir d hd]
  · change (m.mem.store 4 m.edi m.eax).load 4 (4 * d) = _
    rw [Bytes.load_store_other (by omega), h.tables.zero d hd h4]
  · change (m.mem.store 4 m.edi m.eax).load 4 (0x1000 + 4 * j) = _
    obtain rfl | hlt := Nat.eq_or_lt_of_le hnj
    · rw [show 0x1000 + 4 * n = m.edi by omega, heax, Bytes.load_store_of_lt (by omega)]
    · rw [Bytes.load_store_other (by omega), h.tables.pte j hj hlt]
  · change (m.mem.store 4 m.edi m.eax) a = _
    rw [Bytes.store_other (by omega), h.tables.rest a ha]

/-- Behind the directory entries. -/
theorem Clearing.tables (h : Clearing mem₀ 0 m) : Filling mem₀ 4096 m.step.step := by
  have hstep : m.step = { m with label := .tables } := by
    unfold Machine.step
    rw [h.label]
    dsimp only
    rw [if_pos h.ecx]
  rw [hstep]
  have hzero := h.zero
  refine ⟨rfl, rfl, rfl, rfl, fun d hd => ?_, fun d hd h4 => ?_, fun j hj hnj => absurd hnj (by omega), fun a ha => ?_⟩
  · change ((((m.mem.store 4 0 0x1007).store 4 4 0x2007).store 4 8 0x3007).store 4 12 0x4007).load 4 (4 * d) = _
    obtain rfl | rfl | rfl | rfl : d = 0 ∨ d = 1 ∨ d = 2 ∨ d = 3 := by omega
    · rw [Bytes.load_store_other (by decide), Bytes.load_store_other (by decide), Bytes.load_store_other (by decide)]
      exact Bytes.load_store_of_lt (by decide)
    · rw [Bytes.load_store_other (by decide), Bytes.load_store_other (by decide)]
      exact Bytes.load_store_of_lt (by decide)
    · rw [Bytes.load_store_other (by decide)]
      exact Bytes.load_store_of_lt (by decide)
    · exact Bytes.load_store_of_lt (by decide)
  · change ((((m.mem.store 4 0 0x1007).store 4 4 0x2007).store 4 8 0x3007).store 4 12 0x4007).load 4 (4 * d) = 0
    rw [Bytes.load_store_other (by omega), Bytes.load_store_other (by omega), Bytes.load_store_other (by omega),
      Bytes.load_store_other (by omega), hzero d (by omega)]
  · change ((((m.mem.store 4 0 0x1007).store 4 4 0x2007).store 4 8 0x3007).store 4 12 0x4007) a = _
    rw [Bytes.store_other (by omega), Bytes.store_other (by omega), Bytes.store_other (by omega), Bytes.store_other (by omega),
      h.rest a ha]

/-- The whole routine. -/
theorem setup_leads (m : Machine) (h : m.label = .setupPaging) :
    ∃ m', LeadsTo Machine.step m m' ∧ m'.label = .ret ∧ m'.cr3 = 0 ∧ m'.pg = true ∧ Tables m.mem 0 m'.mem := by
  have hclear : ∀ k ≤ 5120, ∃ m', LeadsTo Machine.step m m' ∧ Clearing m.mem (5120 - k) m' := fun k hk => by
    induction k with
    | zero =>
      refine ⟨_, .one rfl, ?_⟩
      unfold Machine.step
      rw [h]
      exact ⟨rfl, rfl, rfl, rfl, rfl, fun j hj => absurd hj (Nat.not_lt_zero j), fun _ _ => rfl⟩
    | succ k ih =>
      obtain ⟨m', hto, hm⟩ := ih (Nat.le_of_succ_le hk)
      rw [show 5120 - k = 5120 - (k + 1) + 1 by omega] at hm
      exact ⟨_, hto.trans (.one rfl), hm.step (by omega)⟩
  obtain ⟨m₁, h1, hm1⟩ := hclear 5120 le_rfl
  have hfill : ∀ k ≤ 4096, ∃ m', LeadsTo Machine.step m₁ m' ∧ Filling m.mem (4096 - k) m' := fun k hk => by
    induction k with
    | zero => exact ⟨_, .head rfl (.one rfl), hm1.tables⟩
    | succ k ih =>
      obtain ⟨m', hto, hm⟩ := ih (Nat.le_of_succ_le hk)
      rw [show 4096 - k = 4096 - (k + 1) + 1 by omega] at hm
      exact ⟨_, hto.trans (.one rfl), hm.step (by omega)⟩
  obtain ⟨m₂, h2, hm2⟩ := hfill 4096 le_rfl
  have hlast : m₂.step = { m₂ with eax := 0, cr3 := 0, pg := true, label := .ret } := by
    have hl : m₂.label = .enable := hm2.label
    unfold Machine.step
    rw [hl]
  exact ⟨_, h1.trans (h2.trans (.one hlast)), rfl, rfl, rfl, hm2.tables⟩

end

variable {mem₀ mem : Bytes} {n k : ℕ}

/-- The word that head.s makes of a page is the one the memory manager makes. -/
theorem entryOf_seven (n : ℕ) : entryOf (4096 * n + 7) = Entry.seven n := by
  have hbit : ∀ i < 12, (4096 * n + 7).testBit i = (7).testBit i := fun i hi => by
    rw [Nat.testBit_two_pow_mul_add n (show 7 < 2 ^ 12 by decide), if_pos hi]
  unfold entryOf Entry.seven
  rw [hbit 0 (by decide), hbit 1 (by decide), hbit 2 (by decide), hbit 6 (by decide), show (4096 * n + 7) / 4096 = n by omega]
  rfl

theorem entryOf_zero : entryOf 0 = Entry.zero := by decide

/-- The first 16 MB are mapped to themselves, to be written, and nothing else is mapped. -/
theorem Tables.walk (h : Tables mem₀ 0 mem) {addr : ℕ} (ha : addr < 4294967296) :
    walk mem 0 addr = if addr < 0x1000000 then some (addr, true) else none := by
  unfold Paging.walk
  rw [Nat.zero_add]
  by_cases hlt : addr < 0x1000000
  · have hdir : entryOf (mem.load 4 (4 * (addr / 4194304))) = Entry.seven (addr / 4194304 + 1) := by
      rw [h.dir _ (by omega), entryOf_seven]
    have hpte : entryOf (mem.load 4 ((addr / 4194304 + 1) * 4096 + 4 * (addr / 4096 % 1024))) = Entry.seven (addr / 4096) := by
      rw [show (addr / 4194304 + 1) * 4096 + 4 * (addr / 4096 % 1024) = 0x1000 + 4 * (addr / 4096) by omega,
        h.pte _ (by omega) (Nat.zero_le _), entryOf_seven]
    have haddr : ∀ f, (Entry.seven f).addr = f * 4096 := fun _ => rfl
    dsimp only
    rw [if_pos hlt, hdir, if_pos (Entry.seven_present _), haddr, hpte, if_pos (Entry.seven_present _), haddr, Nat.div_add_mod']
    rfl
  · rw [if_neg hlt, h.zero _ (by omega) (by omega), entryOf_zero]
    rfl

/-- What head.s leaves is what `mem_init` counts on. -/
theorem Tables.boot (h : Tables mem₀ 0 mem) : Boot (physical mem) := by
  refine ⟨fun d hd => ?_, fun d hd hd' => ?_, fun d hd i hi => ?_⟩
  · change entryOf (mem.load 4 (4096 * 0 + 4 * d)) = _
    rw [Nat.mul_zero, Nat.zero_add, h.dir d hd, entryOf_seven]
  · change entryOf (mem.load 4 (4096 * 0 + 4 * d)) = _
    rw [Nat.mul_zero, Nat.zero_add, h.zero d hd' hd, entryOf_zero]
  · change entryOf (mem.load 4 (4096 * (d + 1) + 4 * i)) = _
    rw [show 4096 * (d + 1) + 4 * i = 0x1000 + 4 * (1024 * d + i) by omega, h.pte _ (by omega) (Nat.zero_le _), entryOf_seven]

/-- Whatever is in the memory: behind `setup_paging` the first 16 MB are mapped to themselves and
    nothing else is, the memory from 0x5000 on is as it was, and `mem_init` can start from there. -/
theorem setup_paging (m : Machine) (h : m.label = .setupPaging) :
    ∃ m', LeadsTo Machine.step m m' ∧ m'.label = .ret ∧ m'.pg = true ∧
      (∀ addr < 4294967296, walk m'.mem m'.cr3 addr = if addr < 0x1000000 then some (addr, true) else none) ∧
      (∀ a, 0x5000 ≤ a → m'.mem a = m.mem a) ∧
      ∀ lo hi, 256 ≤ lo → lo ≤ hi → hi ≤ 4096 → MemInv lo hi (memInit (physical m'.mem) (lo * 4096) (hi * 4096)) ∅ := by
  obtain ⟨m', hto, hret, hcr3, hpg, ht⟩ := setup_leads m h
  refine ⟨m', hto, hret, hpg, fun addr ha => ?_, ht.rest, fun lo hi h1 h2 h3 => memInit_inv h1 h2 h3 ht.boot⟩
  rw [hcr3]
  exact ht.walk ha

theorem setup_paging_zero : ∃ m', LeadsTo Machine.step ⟨.setupPaging, 0, 0, 0, true, 0, false, fun _ => 0xAA⟩ m' ∧
    walk m'.mem m'.cr3 0xB8000 = some (0xB8000, true) ∧ m'.mem 0x5000 = 0xAA := by
  obtain ⟨m', hto, -, -, hwalk, hrest, -⟩ := setup_paging ⟨.setupPaging, 0, 0, 0, true, 0, false, fun _ => 0xAA⟩ rfl
  exact ⟨m', hto, hwalk _ (by decide), hrest _ le_rfl⟩

end Linux011.Boot.Paging
