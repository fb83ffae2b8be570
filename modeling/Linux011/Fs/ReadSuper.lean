/-
  `read_super` and `put_super` of fs/super.c: the slots of `super_block` and the buffers that a
  slot keeps for the maps of its device. The two loops that read the maps store into arrays of
  eight, and their counts come from the disk. `read_super_checks` says for which super blocks
  this goes well.
-/
import Linux011.Fs.Ledger
import Mathlib.Data.List.ReduceOption
import Mathlib.Tactic.IntervalCases

namespace Linux011.Fs.ReadSuper

open Linux011.Lib Ledger

/-- All of `struct d_super_block`. -/
structure DiskSuper extends DSuper where
  logZoneSize : ℕ
  maxSize : ℕ

def DiskSuper.ofBlock (b : Block) : DiskSuper where
  ninodes := b.word 0
  nzones := b.word 1
  imapBlocks := b.word 2
  zmapBlocks := b.word 3
  firstdatazone := b.word 4
  logZoneSize := b.word 5
  maxSize := b.word 6 + 65536 * b.word 7
  magic := b.word 8

/-- `SUPER_MAGIC` -/
def superMagic : ℕ := 0x137F

/-- `struct super_block`; a map buffer is the block it holds. -/
structure Slot where
  head : DiskSuper
  imap : Fin 8 → Option ℕ
  zmap : Fin 8 → Option ℕ
  dev : ℕ
  isup : Option (Fin 32)
  imount : Option (Fin 32)
  time : ℕ
  lock : Bool
  rdOnly : Bool
  dirt : Bool

/-- `super_block`, and the buffers of one device. -/
structure Supers where
  slot : Fin 8 → Slot
  buf : Ledger
  rootDev : ℕ

inductive SuperStop
  | buffers (e : Halted)
  /-- a store into `s_imap[8]` or `s_zmap[8]` or beyond -/
  | outside
  /-- `s_imap[0]` or `s_zmap[0]` is NULL and is used -/
  | null
  deriving DecidableEq

abbrev P (α : Type) : Type := Prog Supers SuperStop α

def modSlot (k : Fin 8) (f : Slot → Slot) : P Unit :=
  Prog.modify fun s => { s with slot := Function.update s.slot k (f (s.slot k)) }

def onBuffers (m : L α) : P α := fun s =>
  match m s.buf with
  | .ok a b => .ok a { s with buf := b }
  | .fault b => .fault { s with buf := b }
  | .stop e => .stop (.buffers e)

def lockSuper (k : Fin 8) : P Unit := modSlot k fun x => { x with lock := true }

def freeSuper (k : Fin 8) : P Unit := modSlot k fun x => { x with lock := false }

/-- `get_super`; calls run one at a time, so no lock is waited for. -/
def getSuper (dev : ℕ) : P (Option (Fin 8)) := do
  let s ← Prog.get
  return if dev = 0 then none else (List.finRange 8).find? fun k => (s.slot k).dev = dev

/-- `brelse` of each buffer that is not NULL. -/
def releaseMap : List (Option ℕ) → L Unit
  | [] => pure ()
  | none :: l => releaseMap l
  | some z :: l => do
    releaseBlock z
    releaseMap l

/-- The two loops that release the maps of a slot. -/
def releaseMaps (k : Fin 8) : P Unit := do
  let s ← Prog.get
  onBuffers (releaseMap (List.ofFn (s.slot k).imap))
  onBuffers (releaseMap (List.ofFn (s.slot k).zmap))

def putSuper (dev : ℕ) : P Unit := do
  let s ← Prog.get
  if dev = s.rootDev then return ()
  else
    match ← getSuper dev with
    | none => return ()
    | some k =>
      let s ← Prog.get
      if (s.slot k).imount.isSome then return ()
      else
        lockSuper k
        modSlot k fun x => { x with dev := 0 }
        releaseMaps k
        freeSuper k

/-- `check_disk_change`; `changed` is what `floppy_change` says of a floppy. -/
def checkDiskChange (dev : ℕ) (changed : Bool) : P Unit :=
  if changed then
    Prog.each (fun k => do
      let s ← Prog.get
      if (s.slot k).dev = dev then putSuper dev else return ()) (List.finRange 8)
  else return ()

/-- One of the two loops that read the maps: `n` more buffers from `block` on, into the entries
    from `i` on that `put` sets. The result is `block` after the loop. -/
def readMap (medium : Medium) (k : Fin 8) (put : Fin 8 → Option ℕ → Slot → Slot) : ℕ → ℕ → ℕ → P ℕ
  | 0, _, block => return block
  | n + 1, i, block => do
    let bh ← onBuffers (readBlock medium block)
    if h : i < 8 then
      modSlot k (put ⟨i, h⟩ (bh.map fun _ => block))
      if bh.isSome then readMap medium k put n (i + 1) (block + 1) else return block
    else Prog.halt .outside

def putImap (i : Fin 8) (bh : Option ℕ) (x : Slot) : Slot := { x with imap := Function.update x.imap i bh }

def putZmap (i : Fin 8) (bh : Option ℕ) (x : Slot) : Slot := { x with zmap := Function.update x.zmap i bh }

/-- `read_super` from the copy of the super block on, in slot `k`. -/
def readMaps (medium : Medium) (k : Fin 8) (b : Block) : P (Option (Fin 8)) := do
  modSlot k fun x => { x with head := DiskSuper.ofBlock b }
  onBuffers (releaseBlock 1)
  if (DiskSuper.ofBlock b).magic ≠ superMagic then
    modSlot k fun x => { x with dev := 0 }
    freeSuper k
    return none
  else
    modSlot k fun x => { x with imap := fun _ => none, zmap := fun _ => none }
    let block ← readMap medium k putImap (DiskSuper.ofBlock b).imapBlocks 0 2
    let block ← readMap medium k putZmap (DiskSuper.ofBlock b).zmapBlocks 0 block
    if block ≠ 2 + (DiskSuper.ofBlock b).imapBlocks + (DiskSuper.ofBlock b).zmapBlocks then
      releaseMaps k
      modSlot k fun x => { x with dev := 0 }
      freeSuper k
      return none
    else
      -- the first bit of both maps is set
      let s ← Prog.get
      if (s.slot k).imap 0 = none ∨ (s.slot k).zmap 0 = none then Prog.halt .null
      else
        freeSuper k
        return some k

def readSuper (medium : Medium) (dev : ℕ) (changed : Bool) : P (Option (Fin 8)) := do
  if dev = 0 then return none
  else
    checkDiskChange dev changed
    match ← getSuper dev with
    | some k => return some k
    | none =>
      let s ← Prog.get
      match (List.finRange 8).find? fun k => (s.slot k).dev = 0 with
      | none => return none
      | some k =>
        modSlot k fun x =>
          { x with dev := dev, isup := none, imount := none, time := 0, rdOnly := false, dirt := false }
        lockSuper k
        match ← onBuffers (readBlock medium 1) with
        | none =>
          modSlot k fun x => { x with dev := 0 }
          freeSuper k
          return none
        | some b => readMaps medium k b

/-! ## The table -/

/-- The blocks of the map buffers of a slot. -/
def Slot.maps (x : Slot) : List ℕ := (List.ofFn x.imap).reduceOption ++ (List.ofFn x.zmap).reduceOption

/-- The first `n` entries are the blocks from `base` on. -/
def filled (base n : ℕ) : Fin 8 → Option ℕ := fun j => if j.val < n then some (base + j) else none

/-- A slot that was read well. -/
structure Slot.Loaded (x : Slot) : Prop where
  magic : x.head.magic = superMagic
  imapBlocks : 1 ≤ x.head.imapBlocks ∧ x.head.imapBlocks ≤ 8
  zmapBlocks : 1 ≤ x.head.zmapBlocks ∧ x.head.zmapBlocks ≤ 8
  imap : x.imap = filled 2 x.head.imapBlocks
  zmap : x.zmap = filled (2 + x.head.imapBlocks) x.head.zmapBlocks

namespace Supers

/-- Slot `k` is that of the device. -/
def InUse (s : Supers) (dev : ℕ) (k : Fin 8) : Prop := dev ≠ 0 ∧ (s.slot k).dev = dev

/-- No slot is locked, the slot of the device, if there is one, was read well, and the references
    that are held are those in its maps. -/
structure Tidy (s : Supers) (dev : ℕ) : Prop where
  unlocked : ∀ k, (s.slot k).lock = false
  unique : ∀ k k', s.InUse dev k → s.InUse dev k' → k = k'
  loaded : ∀ k, s.InUse dev k → (s.slot k).Loaded
  held : ∀ k, s.InUse dev k → ∀ z, s.buf.held z = (s.slot k).maps.count z
  none : (∀ k, ¬ s.InUse dev k) → ∀ z, s.buf.held z = 0
  counted : ∀ z, s.buf.held z ≤ s.buf.count z
  strays : s.buf.strays = 0

/-- What the check asks of a call of `read_super` that gives `r`. -/
structure Checked (s : Supers) (dev : ℕ) (r : Option (Fin 8)) (s' : Supers) : Prop where
  tidy : s'.Tidy dev
  slot : ∀ k, r = some k → s'.InUse dev k
  free : r = .none → ∀ k, ¬ s'.InUse dev k
  kept : ∀ k, r ≠ some k → (s'.slot k).dev = (s.slot k).dev ∨ (s'.slot k).dev = 0
  /-- the references of others -/
  others : ∀ z, s'.buf.count z + s.buf.held z = s.buf.count z + s'.buf.held z

/-- `check_disk_change` gives slot `k` up. -/
def Drops (s : Supers) (dev : ℕ) (changed : Bool) (k : Fin 8) : Prop :=
  (s.slot k).dev = dev ∧ changed = true ∧ dev ≠ s.rootDev ∧ (s.slot k).imount = .none

/-- `read_super` takes a slot for the device. -/
def Takes (s : Supers) (dev : ℕ) (changed : Bool) : Prop :=
  dev ≠ 0 ∧ (∀ k, (s.slot k).dev = dev → s.Drops dev changed k) ∧ ∃ k, (s.slot k).dev = 0 ∨ s.Drops dev changed k

end Supers

/-- The `n` blocks from `base` on can be read. -/
def Readable (medium : Medium) (base n : ℕ) : Prop := ∀ j < n, (medium (base + j)).isSome

/-- As far as the map blocks can be read, their counts are between 1 and 8. -/
def DiskSuper.Fits (h : DiskSuper) (medium : Medium) : Prop :=
  Readable medium 2 (min h.imapBlocks 8) → h.imapBlocks ≤ 8 ∧
    (Readable medium (2 + h.imapBlocks) (min h.zmapBlocks 8) → 1 ≤ h.imapBlocks ∧ 1 ≤ h.zmapBlocks ∧ h.zmapBlocks ≤ 8)

variable {s s' : Supers} {dev : ℕ} {k : Fin 8} {changed : Bool} {medium : Medium} {B : Ledger}

/-! ## Buffers -/

theorem onBuffers_ok {m : L α} {a : α} {b : Ledger} (h : m s.buf = .ok a b) : onBuffers m s = .ok a { s with buf := b } := by
  unfold onBuffers
  rw [h]

theorem releaseMap_run (l : List (Option ℕ)) (l' : List ℕ) :
    releaseMap l (B.plus (l.reduceOption ++ l')) = .ok () (B.plus l') := by
  induction l with
  | nil => rfl
  | cons o l ih =>
    cases o with
    | none => exact ih
    | some z => exact (Prog.bind_run releaseBlock_plus).trans ih

theorem releaseMaps_run (h : s.buf = B.plus (s.slot k).maps) : releaseMaps k s = .ok () { s with buf := B } := by
  have h1 : releaseMap (List.ofFn (s.slot k).imap) s.buf = .ok () (B.plus (List.ofFn (s.slot k).zmap).reduceOption) := by
    rw [h]
    exact releaseMap_run _ _
  have h2 : releaseMap (List.ofFn (s.slot k).zmap) (B.plus (List.ofFn (s.slot k).zmap).reduceOption) = .ok () B := by
    have := releaseMap_run (B := B) (List.ofFn (s.slot k).zmap) []
    rwa [List.append_nil, plus_nil] at this
  unfold releaseMaps
  rw [Prog.bind_run (Prog.get_run s), Prog.bind_run (onBuffers_ok h1)]
  exact onBuffers_ok h2

/-! ## Reading the maps -/

theorem filled_zero (base : ℕ) : filled base 0 = fun _ => none := rfl

theorem filled_succ (base : ℕ) (i : Fin 8) : Function.update (filled base i) i (some (base + i)) = filled base (i + 1) := by
  funext j
  by_cases hj : j = i
  · subst hj
    simp [filled]
  · have : j.val ≠ i.val := fun h => hj (Fin.ext h)
    rw [Function.update_of_ne hj]
    unfold filled
    simp only [show (j.val < i.val + 1) = (j.val < i.val) from by simp only [eq_iff_iff]; omega]

theorem filled_end (base : ℕ) (i : Fin 8) : Function.update (filled base i) i none = filled base i := by
  rw [Function.update_eq_self_iff]
  simp [filled]

theorem reduceOption_filled (base : ℕ) : ∀ n ≤ 8, (List.ofFn (filled base n)).reduceOption = List.range' base n := by
  intro n hn
  interval_cases n <;> rfl

/-- One of the loops, when it has filled `i` entries: it ends at the count or before a block that
    cannot be read, or it stores outside the array. -/
theorem readMap_run (medium : Medium) (put : Fin 8 → Option ℕ → Slot → Slot) {A : (Fin 8 → Option ℕ) → Slot}
    (hput : ∀ i bh arr, put i bh (A arr) = A (Function.update arr i bh)) (base : ℕ) (σ : ℕ → Supers) {l : List ℕ}
    (hσ : ∀ i, σ i = { s with slot := Function.update s.slot k (A (filled base i)), buf := B.plus (l ++ List.range' base i) })
    (n : ℕ) {i : ℕ} (hi : i ≤ 8) (hread : Readable medium base i) :
    (∃ m, i ≤ m ∧ m ≤ i + n ∧ m ≤ 8 ∧ Readable medium base m ∧ (m < i + n → m < 8 ∧ medium (base + m) = none) ∧
      readMap medium k put n i (base + i) (σ i) = .ok (base + m) (σ m)) ∨
    (8 < i + n ∧ Readable medium base 8 ∧ readMap medium k put n i (base + i) (σ i) = .stop .outside) := by
  induction n generalizing i with
  | zero => exact .inl ⟨i, le_rfl, le_rfl, hi, hread, fun h => absurd h (Nat.lt_irrefl i), rfl⟩
  | succ n ih =>
    have hmod : ∀ bh : Option ℕ, ∀ h : i < 8, ∀ b, modSlot k (put ⟨i, h⟩ bh) { σ i with buf := b } = .ok ()
        { s with slot := Function.update s.slot k (A (Function.update (filled base i) ⟨i, h⟩ bh)), buf := b } := by
      intro bh h b
      simp only [modSlot, Prog.modify, hσ, Function.update_self, Function.update_idem, hput]
    have hread1 : ∀ r b', readBlock medium (base + i) (σ i).buf = .ok r b' →
        onBuffers (readBlock medium (base + i)) (σ i) = .ok r { σ i with buf := b' } := fun r b' h => onBuffers_ok h
    unfold readMap
    cases hm : medium (base + i) with
    | none =>
      rw [Prog.bind_run (hread1 _ _ (readBlock_none hm))]
      by_cases h8 : i < 8
      · rw [dif_pos h8, Prog.bind_run (hmod _ h8 _)]
        refine .inl ⟨i, le_rfl, by omega, hi, hread, fun _ => ⟨h8, hm⟩, ?_⟩
        simp only [Option.map_none, filled_end base ⟨i, h8⟩, Option.isSome_none, Bool.false_eq_true, if_false]
        exact congrArg (Out.ok _) (by rw [hσ])
      · rw [dif_neg h8]
        exact .inr ⟨by omega, fun j hj => hread j (by omega), rfl⟩
    | some b =>
      have hread' : Readable medium base (i + 1) := fun j hj => by
        obtain rfl | hj := Nat.eq_or_lt_of_le (Nat.le_of_lt_succ hj)
        · rw [hm]
          rfl
        · exact hread j hj
      rw [Prog.bind_run (hread1 _ _ (readBlock_some hm))]
      by_cases h8 : i < 8
      · rw [dif_pos h8, Prog.bind_run (hmod _ h8 _)]
        have hnext : ({ s with
            slot := Function.update s.slot k (A (Function.update (filled base i) ⟨i, h8⟩ ((some b).map fun _ => base + i))),
            buf := (σ i).buf.take (base + i) } : Supers) = σ (i + 1) := by
          rw [hσ, hσ, Option.map_some, filled_succ base ⟨i, h8⟩]
          simp only [take_plus, List.append_assoc, List.range'_1_concat]
        rw [hnext]
        simp only [Option.isSome_some, if_true]
        obtain ⟨m, h1, h2, h3, h4, h5, h6⟩ | ⟨h1, h2, h3⟩ := ih h8 hread'
        · exact .inl ⟨m, by omega, by omega, h3, h4, fun h => h5 (by omega), h6⟩
        · exact .inr ⟨by omega, h2, h3⟩
      · rw [dif_neg h8]
        exact .inr ⟨by omega, fun j hj => hread j (by omega), rfl⟩

/-- How the part of `read_super` behind the first block ends: it gives everything back and frees
    the slot, or the slot is read well, or the kernel runs outside of the maps. -/
inductive Ended (s : Supers) (k : Fin 8) (B : Ledger) : Out Supers SuperStop (Option (Fin 8)) → Prop
  | freed (x : Slot) : x.dev = 0 → x.lock = false →
      Ended s k B (.ok none { s with slot := Function.update s.slot k x, buf := B })
  | loaded (x : Slot) : x.dev = (s.slot k).dev → x.lock = false → x.Loaded →
      Ended s k B (.ok (some k) { s with slot := Function.update s.slot k x, buf := B.plus x.maps })

section

variable {h : DiskSuper}

theorem modSlot_run (k : Fin 8) (f : Slot → Slot) (s : Supers) :
    modSlot k f s = .ok () { s with slot := Function.update s.slot k (f (s.slot k)) } := rfl

/-- The loops ended before a block that cannot be read. -/
theorem fits_of_unreadable {m : ℕ} (hle : m < h.imapBlocks) (h8 : m < 8) (hnone : medium (2 + m) = none) : h.Fits medium := by
  intro hread
  have := hread m (by omega)
  rw [hnone] at this
  cases this

theorem fits_of_unreadable' {m : ℕ} (himap : h.imapBlocks ≤ 8) (hle : m < h.zmapBlocks) (h8 : m < 8)
    (hnone : medium (2 + h.imapBlocks + m) = none) : h.Fits medium := by
  refine fun _ => ⟨himap, fun hread => ?_⟩
  have := hread m (by omega)
  rw [hnone] at this
  cases this

/-- The slot with so many map buffers. -/
def Slot.withMaps (x : Slot) (h : DiskSuper) (m m' : ℕ) : Slot :=
  { x with head := h, imap := filled 2 m, zmap := filled (2 + m) m' }

theorem withMaps_maps (x : Slot) (h : DiskSuper) {m m' : ℕ} (hm : m ≤ 8) (hm' : m' ≤ 8) :
    (x.withMaps h m m').maps = List.range' 2 m ++ List.range' (2 + m) m' := by
  unfold Slot.maps Slot.withMaps
  rw [reduceOption_filled 2 m hm, reduceOption_filled (2 + m) m' hm']

/-- The tail of `readMaps` behind the loops. -/
def finish (k : Fin 8) (h : DiskSuper) (block : ℕ) : P (Option (Fin 8)) := do
  if block ≠ 2 + h.imapBlocks + h.zmapBlocks then
    releaseMaps k
    modSlot k fun x => { x with dev := 0 }
    freeSuper k
    return none
  else
    let s ← Prog.get
    if (s.slot k).imap 0 = none ∨ (s.slot k).zmap 0 = none then Prog.halt .null
    else
      freeSuper k
      return some k

/-- The state behind the loops, which have read `m` and `m'` blocks. -/
def mapped (s : Supers) (k : Fin 8) (B : Ledger) (h : DiskSuper) (m m' : ℕ) : Supers :=
  { s with
    slot := Function.update s.slot k ((s.slot k).withMaps h m m')
    buf := B.plus (List.range' 2 m ++ List.range' (2 + m) m') }

theorem finish_short {m m' : ℕ} (hm : m ≤ 8) (hm' : m' ≤ 8) (hne : 2 + m + m' ≠ 2 + h.imapBlocks + h.zmapBlocks) :
    Ended s k B (finish k h (2 + m + m') (mapped s k B h m m')) := by
  have hbuf : (mapped s k B h m m').buf = B.plus ((mapped s k B h m m').slot k).maps := by
    simp only [mapped, Function.update_self, withMaps_maps _ _ hm hm']
  unfold finish
  rw [if_pos hne, Prog.bind_run (releaseMaps_run hbuf), Prog.bind_run (modSlot_run ..), freeSuper, Prog.bind_run (modSlot_run ..)]
  simp only [mapped, Function.update_self, Function.update_idem]
  exact .freed _ rfl rfl

theorem finish_all (hmagic : h.magic = superMagic) (hi : 1 ≤ h.imapBlocks ∧ h.imapBlocks ≤ 8)
    (hz : 1 ≤ h.zmapBlocks ∧ h.zmapBlocks ≤ 8) :
    Ended s k B (finish k h (2 + h.imapBlocks + h.zmapBlocks) (mapped s k B h h.imapBlocks h.zmapBlocks)) := by
  have hnot : ¬ (((mapped s k B h h.imapBlocks h.zmapBlocks).slot k).imap 0 = none ∨
      ((mapped s k B h h.imapBlocks h.zmapBlocks).slot k).zmap 0 = none) := by
    have hi' := hi.1
    have hz' := hz.1
    simp [mapped, Slot.withMaps, filled]
    omega
  unfold finish
  rw [if_neg (not_not.mpr rfl), Prog.bind_run (Prog.get_run _), if_neg hnot, freeSuper,
    Prog.bind_run (modSlot_run ..)]
  simp only [mapped, Function.update_self, Function.update_idem]
  have hload := Ended.loaded (s := s) (k := k) (B := B) { (s.slot k).withMaps h h.imapBlocks h.zmapBlocks with lock := false }
    rfl rfl ⟨hmagic, hi, hz, rfl, rfl⟩
  rwa [show Slot.maps { (s.slot k).withMaps h h.imapBlocks h.zmapBlocks with lock := false } =
    ((s.slot k).withMaps h h.imapBlocks h.zmapBlocks).maps from rfl, withMaps_maps _ _ hi.2 hz.2] at hload

theorem finish_null (hi : h.imapBlocks = 0 ∨ h.zmapBlocks = 0) :
    finish k h (2 + h.imapBlocks + h.zmapBlocks) (mapped s k B h h.imapBlocks h.zmapBlocks) = .stop .null := by
  have hnull : ((mapped s k B h h.imapBlocks h.zmapBlocks).slot k).imap 0 = none ∨
      ((mapped s k B h h.imapBlocks h.zmapBlocks).slot k).zmap 0 = none := by
    simp [mapped, Slot.withMaps, filled]
    omega
  unfold finish
  rw [if_neg (not_not.mpr rfl), Prog.bind_run (Prog.get_run _), if_pos hnull]
  rfl

end

theorem readMaps_run (medium : Medium) (b : Block) (hbuf : s.buf = B.plus [1]) :
    (((DiskSuper.ofBlock b).magic = superMagic → (DiskSuper.ofBlock b).Fits medium) ∧ Ended s k B (readMaps medium k b s)) ∨
    (¬ ((DiskSuper.ofBlock b).magic = superMagic → (DiskSuper.ofBlock b).Fits medium) ∧ ∃ e, readMaps medium k b s = .stop e) := by
  have hrel : ∀ x, releaseBlock 1 ({ s with slot := x } : Supers).buf = .ok () B := fun x => by
    dsimp only
    rw [hbuf]
    exact releaseBlock_plus
  unfold readMaps
  rw [Prog.bind_run (modSlot_run ..), Prog.bind_run (onBuffers_ok (hrel _))]
  generalize hh : DiskSuper.ofBlock b = h
  by_cases hmagic : h.magic = superMagic
  · rw [if_neg (not_not.mpr hmagic), Prog.bind_run (modSlot_run ..)]
    simp only [hmagic, true_imp_iff, Function.update_self, Function.update_idem]
    have hstart : ({ s with
        slot := Function.update s.slot k { s.slot k with head := h, imap := fun _ => none, zmap := fun _ => none },
        buf := B } : Supers) = mapped s k B h 0 0 := rfl
    rw [hstart]
    obtain ⟨m, -, hle, h8, hread, hnone, hrun⟩ | ⟨h8, hread, hrun⟩ := readMap_run medium putImap (s := s) (k := k) (B := B)
      (A := fun arr => { s.slot k with head := h, imap := arr, zmap := fun _ => none }) (l := [])
      (fun _ _ _ => rfl) 2 (fun m => mapped s k B h m 0) (fun m => by simp [mapped, Slot.withMaps, filled_zero]) h.imapBlocks
      (Nat.zero_le 8) (fun j hj => absurd hj (Nat.not_lt_zero j))
    · rw [Prog.bind_run hrun]
      obtain ⟨m', -, hle', h8', hread', hnone', hrun'⟩ | ⟨h8', hread', hrun'⟩ := readMap_run medium putZmap (s := s) (k := k) (B := B)
        (A := fun arr => { s.slot k with head := h, imap := filled 2 m, zmap := arr })
        (l := List.range' 2 m) (fun _ _ _ => rfl) (2 + m) (fun m' => mapped s k B h m m')
        (fun m' => by simp [mapped, Slot.withMaps]) h.zmapBlocks (Nat.zero_le 8) (fun j hj => absurd hj (Nat.not_lt_zero j))
      · rw [Nat.add_zero] at hrun'
        rw [Prog.bind_run hrun']
        change (_ ∧ Ended s k B (finish k h (2 + m + m') (mapped s k B h m m'))) ∨
          (_ ∧ ∃ e, finish k h (2 + m + m') (mapped s k B h m m') = .stop e)
        rw [Nat.zero_add] at hle hle' hnone hnone'
        by_cases hm : m < h.imapBlocks
        · have hm' : m' = 0 := by
            by_contra hne
            have := hread' 0 (by omega)
            rw [Nat.add_zero, (hnone hm).2] at this
            cases this
          exact .inl ⟨fits_of_unreadable hm (hnone hm).1 (hnone hm).2, finish_short h8 h8' (by omega)⟩
        obtain rfl : m = h.imapBlocks := by omega
        by_cases hmz : m' < h.zmapBlocks
        · exact .inl ⟨fits_of_unreadable' h8 hmz (hnone' hmz).1 (hnone' hmz).2, finish_short h8 h8' (by omega)⟩
        obtain rfl : m' = h.zmapBlocks := by omega
        by_cases hzero : h.imapBlocks = 0 ∨ h.zmapBlocks = 0
        · refine .inr ⟨fun hfits => ?_, _, finish_null hzero⟩
          have := (hfits (fun j hj => hread j (by omega))).2 fun j hj => hread' j (by omega)
          omega
        · exact .inl ⟨fun _ => ⟨h8, fun _ => by omega⟩, finish_all hmagic (by omega) (by omega)⟩
      · rw [Nat.add_zero] at hrun'
        rw [Prog.bind_stop hrun']
        refine .inr ⟨fun hfits => ?_, _, rfl⟩
        rw [Nat.zero_add] at hle h8' hnone
        by_cases hm : m < h.imapBlocks
        · have := hread' 0 (by decide)
          rw [Nat.add_zero, (hnone hm).2] at this
          cases this
        obtain rfl : m = h.imapBlocks := by omega
        have := (hfits fun j hj => hread j (by omega)).2 fun j hj => hread' j (by omega)
        omega
    · rw [Prog.bind_stop hrun]
      refine .inr ⟨fun hfits => ?_, _, rfl⟩
      rw [Nat.zero_add] at h8
      have := (hfits fun j hj => hread j (by omega)).1
      omega
  · rw [if_pos hmagic, Prog.bind_run (modSlot_run ..), freeSuper, Prog.bind_run (modSlot_run ..)]
    refine .inl ⟨fun hm => absurd hm hmagic, ?_⟩
    simp only [Function.update_self, Function.update_idem]
    exact .freed _ rfl rfl

/-- Each map block is in the maps once. -/
theorem Slot.Loaded.count_maps {x : Slot} (h : x.Loaded) (z : ℕ) :
    x.maps.count z = if 2 ≤ z ∧ z < 2 + x.head.imapBlocks + x.head.zmapBlocks then 1 else 0 := by
  unfold Slot.maps
  rw [h.imap, h.zmap, reduceOption_filled _ _ h.imapBlocks.2, reduceOption_filled _ _ h.zmapBlocks.2, List.range'_append_1,
    List.Nodup.count List.nodup_range']
  simp only [List.mem_range'_1, Nat.add_assoc]

/-! ## The slot of the device -/

namespace Supers

/-- The references in the maps of the slot of the device are all that is held. -/
theorem Tidy.split (h : s.Tidy dev) (hk : s.InUse dev k) :
    ∃ B : Ledger, s.buf = B.plus (s.slot k).maps ∧ B.Clean ∧ ∀ z, s.buf.count z = B.count z + s.buf.held z := by
  have hcount := fun z => h.held k hk z
  refine ⟨⟨fun z => s.buf.count z - s.buf.held z, fun _ => 0, s.buf.strays⟩, ?_, ⟨fun _ => rfl, h.strays⟩, fun z => ?_⟩
  · obtain ⟨slot, ⟨count, held, strays⟩, rootDev⟩ := s
    unfold Ledger.plus
    simp only [Ledger.mk.injEq, and_true]
    refine ⟨funext fun z => ?_, funext fun z => ?_⟩
    · have h1 := h.counted z
      have h2 := hcount z
      dsimp only at h1 h2
      omega
    · exact (hcount z).trans (Nat.zero_add _).symm
  · have := h.counted z
    dsimp only
    omega

/-- The table with another slot `k`. -/
def setSlot (s : Supers) (k : Fin 8) (x : Slot) (b : Ledger) : Supers := { s with slot := Function.update s.slot k x, buf := b }

variable {x : Slot}

theorem setSlot_self : (s.setSlot k x B).slot k = x := Function.update_self ..

theorem setSlot_of_ne {k' : Fin 8} (h : k' ≠ k) : (s.setSlot k x B).slot k' = s.slot k' := Function.update_of_ne h ..

/-- Nothing is held, and the only slot that was or could be that of the device is free. -/
theorem tidy_freed (h : s.Tidy dev) (hother : ∀ k', s.InUse dev k' → k' = k) (hB : B.Clean) (hx : x.dev = 0) (hlock : x.lock = false) :
    (s.setSlot k x B).Tidy dev ∧ ∀ k', ¬ (s.setSlot k x B).InUse dev k' := by
  have hnone : ∀ k', ¬ (s.setSlot k x B).InUse dev k' := by
    rintro k' ⟨hdev, hk'⟩
    by_cases hkk : k' = k
    · subst hkk
      rw [setSlot_self, hx] at hk'
      exact hdev hk'.symm
    · rw [setSlot_of_ne hkk] at hk'
      exact hkk (hother k' ⟨hdev, hk'⟩)
  refine ⟨⟨fun k' => ?_, fun k' _ hk' => absurd hk' (hnone k'), fun k' hk' => absurd hk' (hnone k'),
    fun k' hk' => absurd hk' (hnone k'), fun _ => hB.held, fun z => by rw [show (s.setSlot k x B).buf = B from rfl, hB.held]; omega,
    hB.strays⟩, hnone⟩
  by_cases hkk : k' = k
  · subst hkk
    rwa [setSlot_self]
  · rw [setSlot_of_ne hkk]
    exact h.unlocked k'

/-- The slot taken for the device was read well. -/
theorem tidy_loaded (h : s.Tidy dev) (hother : ∀ k', ¬ s.InUse dev k') (hB : B.Clean) (hdev : dev ≠ 0)
    (hx : x.Loaded) (hxdev : x.dev = dev) (hlock : x.lock = false) :
    (s.setSlot k x (B.plus x.maps)).Tidy dev ∧ (s.setSlot k x (B.plus x.maps)).InUse dev k := by
  have honly : ∀ k', (s.setSlot k x (B.plus x.maps)).InUse dev k' → k' = k := by
    intro k' hk'
    by_contra hkk
    have hdev' := hk'.2
    rw [setSlot_of_ne hkk] at hdev'
    exact hother k' ⟨hk'.1, hdev'⟩
  have huse : (s.setSlot k x (B.plus x.maps)).InUse dev k := ⟨hdev, by rw [setSlot_self, hxdev]⟩
  refine ⟨⟨fun k' => ?_, fun k₁ k₂ h₁ h₂ => (honly k₁ h₁).trans (honly k₂ h₂).symm, fun k' hk' => ?_, fun k' hk' z => ?_,
    fun hno => absurd huse (hno k), fun z => ?_, hB.strays⟩, huse⟩
  · by_cases hkk : k' = k
    · subst hkk
      rwa [setSlot_self]
    · rw [setSlot_of_ne hkk]
      exact h.unlocked k'
  · rw [honly k' hk', setSlot_self]
    exact hx
  · rw [honly k' hk', setSlot_self]
    exact (congrArg (· + _) (hB.held z)).trans (Nat.zero_add _)
  · change B.held z + _ ≤ B.count z + _
    rw [hB.held]
    omega

/-- What `check_disk_change` does: the slots it gives up are free, and nothing else changes. -/
structure Dropped (s : Supers) (dev : ℕ) (changed : Bool) (s' : Supers) : Prop where
  tidy : s'.Tidy dev
  drops : ∀ k, s.Drops dev changed k → (s'.slot k).dev = 0
  kept : ∀ k, ¬ s.Drops dev changed k → (s'.slot k).dev = (s.slot k).dev
  others : ∀ z, s'.buf.count z + s.buf.held z = s.buf.count z + s'.buf.held z

theorem Dropped.refl (h : s.Tidy dev) (hno : ∀ k, ¬ s.Drops dev changed k) : s.Dropped dev changed s :=
  ⟨h, fun k hk => absurd hk (hno k), fun _ _ => rfl, fun _ => rfl⟩

end Supers

theorem getSuper_none (hno : ∀ k, ¬ s.InUse dev k) : getSuper dev s = .ok none s := by
  unfold getSuper
  rw [Prog.bind_run (Prog.get_run s)]
  by_cases h0 : dev = 0
  · rw [if_pos h0]
    rfl
  · rw [if_neg h0, List.find?_eq_none.mpr fun k _ => by simpa using fun hk => hno k ⟨h0, hk⟩]
    rfl

theorem getSuper_some (h : s.Tidy dev) (hk : s.InUse dev k) : getSuper dev s = .ok (some k) s := by
  have hfind : ((List.finRange 8).find? fun k => (s.slot k).dev = dev) = some k := by
    cases he : (List.finRange 8).find? fun k => (s.slot k).dev = dev with
    | none =>
      have := List.find?_eq_none.mp he k (List.mem_finRange k)
      simp [hk.2] at this
    | some k' =>
      have hk' := List.find?_some he
      rw [h.unique k k' hk ⟨hk.1, by simpa using hk'⟩]
  unfold getSuper
  rw [Prog.bind_run (Prog.get_run s), if_neg hk.1, hfind]
  rfl

/-- `put_super` of the device of slot `k`. -/
theorem putSuper_run (h : s.Tidy dev) (hk : s.InUse dev k) :
    (s.Drops dev true k ∧ ∃ x B, putSuper dev s = .ok () (s.setSlot k x B) ∧ x.dev = 0 ∧ x.lock = false ∧ B.Clean ∧
      ∀ z, s.buf.count z = B.count z + s.buf.held z) ∨
    (¬ s.Drops dev true k ∧ putSuper dev s = .ok () s) := by
  unfold putSuper
  rw [Prog.bind_run (Prog.get_run s)]
  by_cases hroot : dev = s.rootDev
  · rw [if_pos hroot]
    exact .inr ⟨fun hd => hd.2.2.1 hroot, rfl⟩
  rw [if_neg hroot, Prog.bind_run (getSuper_some h hk)]
  dsimp only
  rw [Prog.bind_run (Prog.get_run s)]
  by_cases hmount : (s.slot k).imount.isSome
  · rw [if_pos hmount]
    exact .inr ⟨fun hd => (by rw [hd.2.2.2] at hmount; cases hmount), rfl⟩
  rw [if_neg hmount]
  obtain ⟨B, hbuf, hclean, hcount⟩ := h.split hk
  refine .inl ⟨⟨hk.2, rfl, hroot, by simpa using hmount⟩, { s.slot k with dev := 0, lock := false }, B, ?_, rfl, rfl, hclean, hcount⟩
  rw [lockSuper, Prog.bind_run (modSlot_run ..), Prog.bind_run (modSlot_run ..),
    Prog.bind_run (releaseMaps_run (B := B) (by simp only [Function.update_self]; exact hbuf)), freeSuper, modSlot_run]
  simp only [Function.update_self, Function.update_idem]
  rfl

theorem each_quiet {f : Fin 8 → P Unit} {l : List (Fin 8)} (h : ∀ k ∈ l, f k s = .ok () s) : Prog.each f l s = .ok () s := by
  induction l with
  | nil => rfl
  | cons k l ih => exact (Prog.bind_run (h k List.mem_cons_self)).trans (ih fun k' hk' => h k' (List.mem_cons_of_mem k hk'))

/-- A loop in which only one round does something, and nothing is left to do after it. -/
theorem each_once {f : Fin 8 → P Unit} {l : List (Fin 8)} (hk : k ∈ l) (hother : ∀ k' ≠ k, f k' s = .ok () s) (hself : f k s = .ok () s')
    (hdone : ∀ k', f k' s' = .ok () s') : Prog.each f l s = .ok () s' := by
  induction l with
  | nil => exact absurd hk List.not_mem_nil
  | cons k' l ih =>
    by_cases hkk : k' = k
    · subst hkk
      exact (Prog.bind_run hself).trans (each_quiet fun k' _ => hdone k')
    · exact (Prog.bind_run (hother k' hkk)).trans (ih ((List.mem_cons.mp hk).resolve_left (Ne.symm hkk)))

theorem checkDiskChange_run (h : s.Tidy dev) (hdev : dev ≠ 0) (changed : Bool) :
    ∃ s', checkDiskChange dev changed s = .ok () s' ∧ s.Dropped dev changed s' := by
  unfold checkDiskChange
  cases changed with
  | false => exact ⟨s, rfl, .refl h fun k hk => by cases hk.2.1⟩
  | true =>
    rw [if_pos rfl]
    have hskip : ∀ τ : Supers, ∀ k, (τ.slot k).dev ≠ dev → (do
        let s ← Prog.get
        if (s.slot k).dev = dev then putSuper dev else return () : P Unit) τ = .ok () τ := fun τ k hk => by
      rw [Prog.bind_run (Prog.get_run τ), if_neg hk]
      rfl
    have htake : ∀ k, (s.slot k).dev = dev → (do
        let s ← Prog.get
        if (s.slot k).dev = dev then putSuper dev else return () : P Unit) s = putSuper dev s := fun k hk => by
      rw [Prog.bind_run (Prog.get_run s), if_pos hk]
    by_cases hex : ∃ k, (s.slot k).dev = dev
    · obtain ⟨k, hk⟩ := hex
      have honly : ∀ k', s.InUse dev k' → k' = k := fun k' hk' => h.unique k' k hk' ⟨hdev, hk⟩
      have hother : ∀ k' ≠ k, (s.slot k').dev ≠ dev := fun k' hkk hk' => hkk (honly k' ⟨hdev, hk'⟩)
      obtain ⟨hdrop, x, B, hrun, hx, hlock, hclean, hcount⟩ | ⟨hdrop, hrun⟩ := putSuper_run h ⟨hdev, hk⟩
      · obtain ⟨htidy, hnone⟩ := Supers.tidy_freed h honly hclean hx hlock
        refine ⟨s.setSlot k x B, each_once (List.mem_finRange k) (fun k' hkk => hskip s k' (hother k' hkk)) ((htake k hk).trans hrun)
          fun k' => hskip _ k' fun hk' => hnone k' ⟨hdev, hk'⟩, htidy, fun k' hk' => ?_, fun k' hk' => ?_, fun z => ?_⟩
        · obtain rfl : k' = k := honly k' ⟨hdev, hk'.1⟩
          rw [Supers.setSlot_self, hx]
        · have hkk : k' ≠ k := fun hkk => hk' (hkk ▸ hdrop)
          rw [Supers.setSlot_of_ne hkk]
        · change B.count z + _ = _ + B.held z
          rw [hclean.held, hcount]
          omega
      · refine ⟨s, each_quiet fun k' _ => ?_, .refl h fun k' hk' => hdrop (honly k' ⟨hdev, hk'.1⟩ ▸ hk')⟩
        by_cases hkk : k' = k
        · rw [hkk]
          exact (htake k hk).trans hrun
        · exact hskip s k' (hother k' hkk)
    · exact ⟨s, each_quiet fun k _ => hskip s k fun hk => hex ⟨k, hk⟩, .refl h fun k hk => hex ⟨k, hk.1⟩⟩

/-! ## read_super -/

/-- The condition: where the call comes to the maps, they fit. -/
def Sound (s : Supers) (medium : Medium) (dev : ℕ) (changed : Bool) : Prop :=
  s.Takes dev changed → ∀ b, medium 1 = some b → (DiskSuper.ofBlock b).magic = superMagic → (DiskSuper.ofBlock b).Fits medium

/-- `read_super` behind `check_disk_change`. -/
def readSlot (medium : Medium) (dev : ℕ) : P (Option (Fin 8)) := do
  match ← getSuper dev with
  | some k => return some k
  | none =>
    let s ← Prog.get
    match (List.finRange 8).find? fun k => (s.slot k).dev = 0 with
    | none => return none
    | some k =>
      modSlot k fun x =>
        { x with dev := dev, isup := none, imount := none, time := 0, rdOnly := false, dirt := false }
      lockSuper k
      match ← onBuffers (readBlock medium 1) with
      | none =>
        modSlot k fun x => { x with dev := 0 }
        freeSuper k
        return none
      | some b => readMaps medium k b

theorem readSuper_eq (hdev : dev ≠ 0) (h : checkDiskChange dev changed s = .ok () s') :
    readSuper medium dev changed s = readSlot medium dev s' := by
  unfold readSuper
  rw [if_neg hdev, Prog.bind_run h]
  rfl

/-- The condition in the state behind `check_disk_change`. -/
def LoadsWell (s : Supers) (medium : Medium) (dev : ℕ) : Prop :=
  (∀ k, ¬ s.InUse dev k) → (∃ k, (s.slot k).dev = 0) → ∀ b, medium 1 = some b →
    (DiskSuper.ofBlock b).magic = superMagic → (DiskSuper.ofBlock b).Fits medium

theorem checked_freed (h : s.Tidy dev) (hno : ∀ k, ¬ s.InUse dev k) (hB : s.buf.Clean) {x : Slot} (hx : x.dev = 0) (hlock : x.lock = false) :
    s.Checked dev none (s.setSlot k x s.buf) := by
  obtain ⟨htidy, hnone⟩ := Supers.tidy_freed h (fun k' hk' => absurd hk' (hno k')) hB hx hlock
  refine ⟨htidy, nofun, fun _ => hnone, fun k' _ => ?_, fun _ => rfl⟩
  by_cases hkk : k' = k
  · subst hkk
    exact .inr (by rw [Supers.setSlot_self, hx])
  · exact .inl (by rw [Supers.setSlot_of_ne hkk])

theorem checked_loaded (h : s.Tidy dev) (hdev : dev ≠ 0) (hno : ∀ k, ¬ s.InUse dev k) (hB : s.buf.Clean) {x : Slot} (hx : x.Loaded)
    (hxdev : x.dev = dev) (hlock : x.lock = false) : s.Checked dev (some k) (s.setSlot k x (s.buf.plus x.maps)) := by
  obtain ⟨htidy, huse⟩ := Supers.tidy_loaded (k := k) h hno hB hdev hx hxdev hlock
  refine ⟨htidy, fun k' hk' => (Option.some.inj hk') ▸ huse, nofun, fun k' hk' => .inl ?_, fun z => ?_⟩
  · rw [Supers.setSlot_of_ne fun hkk => hk' (congrArg some hkk.symm)]
  · change s.buf.count z + _ + s.buf.held z = s.buf.count z + (s.buf.held z + _)
    omega

theorem readSlot_run (h : s.Tidy dev) (hdev : dev ≠ 0) (medium : Medium) :
    (LoadsWell s medium dev ∧ ∃ r s', readSlot medium dev s = .ok r s' ∧ s.Checked dev r s') ∨
    (¬ LoadsWell s medium dev ∧ ∃ e, readSlot medium dev s = .stop e) := by
  unfold readSlot
  by_cases huse : ∃ k, s.InUse dev k
  · obtain ⟨k, hk⟩ := huse
    rw [Prog.bind_run (getSuper_some h hk)]
    exact .inl ⟨fun hno => absurd hk (hno k), some k, s, rfl, h, fun k' hk' => (Option.some.inj hk') ▸ hk, nofun,
      fun _ _ => .inl rfl, fun _ => rfl⟩
  have hno : ∀ k, ¬ s.InUse dev k := fun k hk => huse ⟨k, hk⟩
  have hclean : s.buf.Clean := ⟨h.none hno, h.strays⟩
  rw [Prog.bind_run (getSuper_none hno)]
  dsimp only
  rw [Prog.bind_run (Prog.get_run s)]
  cases hfree : (List.finRange 8).find? fun k => (s.slot k).dev = 0 with
  | none =>
    have hfull : ∀ k, (s.slot k).dev ≠ 0 := fun k hk => by
      have := List.find?_eq_none.mp hfree k (List.mem_finRange k)
      simp [hk] at this
    exact .inl ⟨fun _ hex => absurd hex fun ⟨k, hk⟩ => hfull k hk, none, s, rfl, h, nofun, fun _ => hno,
      fun _ _ => .inl rfl, fun _ => rfl⟩
  | some k =>
    have hk0 : (s.slot k).dev = 0 := by simpa using List.find?_some hfree
    dsimp only
    rw [Prog.bind_run (modSlot_run ..), lockSuper, Prog.bind_run (modSlot_run ..)]
    simp only [Function.update_self, Function.update_idem]
    cases hb : medium 1 with
    | none =>
      rw [Prog.bind_run (onBuffers_ok (readBlock_none hb))]
      dsimp only
      rw [Prog.bind_run (modSlot_run ..), freeSuper, Prog.bind_run (modSlot_run ..)]
      simp only [Function.update_self, Function.update_idem]
      exact .inl ⟨fun _ _ b hb' => (by rw [hb] at hb'; cases hb'), none, _, rfl, checked_freed h hno hclean rfl rfl⟩
    | some b =>
      rw [Prog.bind_run (onBuffers_ok (readBlock_some hb))]
      dsimp only
      have hloads : LoadsWell s medium dev ↔ ((DiskSuper.ofBlock b).magic = superMagic → (DiskSuper.ofBlock b).Fits medium) :=
        ⟨fun hl => hl hno ⟨k, hk0⟩ b hb, fun hl _ _ b' hb' => by rw [hb] at hb'; cases hb'; exact hl⟩
      rw [hloads]
      obtain ⟨hfits, hend⟩ | ⟨hfits, hstop⟩ := readMaps_run medium (k := k) (B := s.buf) (s := { s with
          slot := Function.update s.slot k
            { s.slot k with dev := dev, isup := none, imount := none, time := 0, lock := true, rdOnly := false, dirt := false },
          buf := s.buf.take 1 }) b (take_plus (l := []))
      · refine .inl ⟨hfits, ?_⟩
        generalize readMaps medium k b _ = o at hend
        cases hend with
        | freed x hx hlock =>
          refine ⟨none, _, rfl, ?_⟩
          simp only [Function.update_idem]
          exact checked_freed h hno hclean hx hlock
        | loaded x hx hlock hload =>
          refine ⟨some k, _, rfl, ?_⟩
          simp only [Function.update_idem, Function.update_self] at hx ⊢
          exact checked_loaded h hdev hno hclean hload hx hlock
      · exact .inr ⟨hfits, hstop⟩

/-- For any block 1 and any blocks that cannot be read, `read_super` stores within the arrays, uses
    no map buffer that is NULL, and leaves a table in order, exactly if the counts of the maps are
    between 1 and 8 as far as the map blocks can be read. -/
theorem read_super_checks (h : s.Tidy dev) (medium : Medium) (changed : Bool) :
    (∃ r s', readSuper medium dev changed s = .ok r s' ∧ s.Checked dev r s') ↔ Sound s medium dev changed := by
  by_cases hdev : dev = 0
  · refine iff_of_true ⟨none, s, ?_, h, nofun, fun _ k hk => hk.1 hdev, fun _ _ => .inl rfl, fun _ => rfl⟩ fun ht => absurd hdev ht.1
    unfold readSuper
    rw [if_pos hdev]
    rfl
  obtain ⟨s₁, hrun, hdrop⟩ := checkDiskChange_run h hdev changed
  have hsound : Sound s medium dev changed ↔ LoadsWell s₁ medium dev := by
    have hin : (∀ k, ¬ s₁.InUse dev k) ↔ ∀ k, (s.slot k).dev = dev → s.Drops dev changed k := by
      refine forall_congr' fun k => ⟨fun hk hk' => ?_, fun hk hk' => ?_⟩
      · by_contra hd
        exact hk ⟨hdev, (hdrop.kept k hd).trans hk'⟩
      · by_cases hd : s.Drops dev changed k
        · exact hdev (hk'.2.symm.trans (hdrop.drops k hd))
        · exact hd (hk ((hdrop.kept k hd).symm.trans hk'.2))
    have hfree : (∃ k, (s₁.slot k).dev = 0) ↔ ∃ k, (s.slot k).dev = 0 ∨ s.Drops dev changed k := by
      refine exists_congr fun k => ⟨fun hk => ?_, fun hk => ?_⟩
      · by_cases hd : s.Drops dev changed k
        · exact .inr hd
        · exact .inl ((hdrop.kept k hd).symm.trans hk)
      · by_cases hd : s.Drops dev changed k
        · exact hdrop.drops k hd
        · exact (hdrop.kept k hd).trans (hk.resolve_right hd)
    unfold Sound LoadsWell Supers.Takes
    rw [hin, hfree]
    exact ⟨fun hs h1 h2 => hs ⟨hdev, h1, h2⟩, fun hs ht => hs ht.2.1 ht.2.2⟩
  rw [readSuper_eq hdev hrun, hsound]
  obtain ⟨hl, r, s', hrun', hcheck⟩ | ⟨hl, e, hrun'⟩ := readSlot_run hdrop.tidy hdev medium
  · refine iff_of_true ⟨r, s', hrun', hcheck.tidy, hcheck.slot, hcheck.free, fun k hk => ?_, fun z => ?_⟩ hl
    · obtain h1 | h1 := hcheck.kept k hk
      · by_cases hd : s.Drops dev changed k
        · exact .inr (h1.trans (hdrop.drops k hd))
        · exact .inl (h1.trans (hdrop.kept k hd))
      · exact .inr h1
    · have h1 := hcheck.others z
      have h2 := hdrop.others z
      omega
  · refine iff_of_false ?_ hl
    rintro ⟨r, s', hr, -⟩
    rw [hrun'] at hr
    cases hr

/-- A slot that is given back holds one reference on each of its map buffers, and no other. -/
theorem Supers.Checked.held_once (h : s.Checked dev (some k) s') (z : ℕ) : s'.buf.held z =
    if 2 ≤ z ∧ z < 2 + (s'.slot k).head.imapBlocks + (s'.slot k).head.zmapBlocks then 1 else 0 := by
  have huse := h.slot k rfl
  rw [h.tidy.held k huse, (h.tidy.loaded k huse).count_maps]

/-- `struct super_block` in the data segment at the start. -/
def emptySlot : Slot := ⟨⟨⟨0, 0, 0, 0, 0, 0⟩, 0, 0⟩, fun _ => none, fun _ => none, 0, none, none, 0, false, false, false⟩

def startTable : Supers := ⟨fun _ => emptySlot, ⟨fun _ => 0, fun _ => 0, 0⟩, 0x306⟩

theorem startTable_tidy (dev : ℕ) : startTable.Tidy dev where
  unlocked _ := rfl
  unique _ _ h := absurd h.2.symm h.1
  loaded _ h := absurd h.2.symm h.1
  held _ h := absurd h.2.symm h.1
  none _ _ := rfl
  counted _ := le_rfl
  strays := rfl

/-- A super block with so many map blocks. -/
def superWith (imapBlocks zmapBlocks : ℕ) : Block := ((Block.zero.setWord 2 imapBlocks).setWord 3 zmapBlocks).setWord 8 superMagic

theorem read_super_checks_floppy : ∃ r s', readSuper (fun _ => some (superWith 1 1)) 0x208 false startTable = .ok r s' ∧
    startTable.Checked 0x208 r s' := by
  refine (read_super_checks (startTable_tidy 0x208) _ false).mpr fun _ b hb _ => ?_
  cases hb
  exact fun _ => ⟨by decide, fun _ => by decide⟩

/-- Nine blocks of inode map: the ninth buffer is stored behind `s_imap`. -/
theorem nine_map_blocks : ¬ ∃ r s', readSuper (fun _ => some (superWith 9 1)) 0x208 false startTable = .ok r s' ∧
    startTable.Checked 0x208 r s' := by
  rintro ⟨r, s', hrun, -⟩
  have hstop : (readSuper (fun _ => some (superWith 9 1)) 0x208 false startTable).state?.isSome = false := by decide +kernel
  rw [hrun] at hstop
  cases hstop

end Linux011.Fs.ReadSuper
