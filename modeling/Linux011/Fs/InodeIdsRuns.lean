/-
  `inode_table` as a cache: in every run of `iget`, `iput`, `get_empty_inode` and `sync_inodes` no two
  entries hold one inode, an entry holds its inode as long as there is a reference to it, and `iget`
  returns what it was asked for (`inode_cache_identity`).

  The invariant is about stacks: an entry that `iget` has reserved has no device and one reference,
  its own, and a loop of `iget` that runs has met only other inodes so far. It does not sleep, so this
  still holds when it fills the reserved entry.
-/
import Linux011.Fs.InodeIds
import Mathlib.Algebra.Order.BigOperators.Group.Finset

namespace Linux011.Fs.Locks

open Linux011.Lib

variable {ι : Type} {t t' : Tables ι} {w : Option (ℕ × ℕ)} {i j : Fin 32} {q : Place} {s : Seg} {st : List Seg}

/-! ## Stacks -/

/-- The entry `iget` has reserved. -/
def Tables.Reserved (t : Tables ι) (i : Fin 32) : Prop := (t.inode i).dev = 0 ∧ (t.inode i).count = 1

/-- What was asked for leads to `x`. -/
def Asked (t : Tables ι) (w : Option (ℕ × ℕ)) (x : ℕ × ℕ) : Prop := ∃ y, w = some y ∧ t.Follows y x

def PlaceOk (t : Tables ι) (w : Option (ℕ × ℕ)) : Place → Prop
  | .iget dev nr => dev ≠ 0 ∧ w = some (dev, nr)
  | .igetLoop empty dev nr _ | .igetWait empty dev nr _ => t.Reserved empty ∧ dev ≠ 0 ∧ Asked t w (dev, nr)
  | .igetMounted empty k => t.Reserved empty ∧ ∃ i, (t.super k).imount = some i ∧ w = some (t.id i)
  | .igetEnd i => Asked t w (t.id i)
  | .freeInode _ => False
  | _ => True

/-- `iget`, where only `get_empty_inode` may stand on it, and its loop, where nothing may. -/
def Place.isIget : Place → Bool
  | .iget _ _ | .igetLoop _ _ _ _ => true
  | _ => false

/-- What a place may stand on. -/
def Above (t : Tables ι) (w : Option (ℕ × ℕ)) : Place → Place → Prop
  | .ret i, .iget _ _ => t.Reserved i
  | .ret i, .other => w ≠ none → Asked t w (t.id i)
  | .emptyScan, .other | .emptyWait _, .other => w = none
  | .emptyScan, .iget _ _ | .emptyWait _, .iget _ _ => True
  | .other, _ => False
  | _, q => q.isIget = false

def StackOk (t : Tables ι) (w : Option (ℕ × ℕ)) : List Seg → Prop
  | [] => True
  | s :: st => PlaceOk t w s.place ∧ (∀ r ∈ st.head?, Above t w s.place r.place) ∧ StackOk t w st

/-- A loop of `iget` on top has met other inodes only, and its process runs. -/
def Scanned (t : Tables ι) (running : Prop) : List Seg → Prop
  | ⟨_, .iget _ _⟩ :: _ => False
  | ⟨bufs, .igetLoop _ dev nr k⟩ :: _ => bufs = [] ∧ running ∧ ∀ j : Fin 32, j.val < k → t.id j ≠ (dev, nr)
  | _ => True

/-- The entry holds what it held, and stays reserved. -/
structure Steady (t t' : Tables ι) (j : Fin 32) : Prop where
  id : t'.id j = t.id j
  reserved : t.Reserved j → t'.Reserved j

theorem mounts_ne_zero {k : Fin 8} (h : (t.super k).imount = some i) : t.mounts i ≠ 0 := by
  have hle : (if (t.super k).imount = some i then 1 else 0) ≤ t.mounts i :=
    Finset.single_le_sum (f := fun k => if (t.super k).imount = some i then 1 else 0) (fun _ _ => Nat.zero_le _) (Finset.mem_univ k)
  rw [if_pos h] at hle
  omega

theorem Tables.Follows.steady (hs : t'.super = t.super) (hm : ∀ j, t.mounts j ≠ 0 → Steady t t' j) {y x : ℕ × ℕ}
    (h : t.Follows y x) : t'.Follows y x := by
  obtain rfl | ⟨k, i, hk, hy, hx⟩ := h
  · exact Or.inl rfl
  · refine Or.inr ⟨k, i, ?_, (hm i (mounts_ne_zero hk)).id.trans hy, ?_⟩
    · rw [hs]
      exact hk
    · rw [hs]
      exact hx

theorem Asked.steady (hs : t'.super = t.super) (hm : ∀ j, t.mounts j ≠ 0 → Steady t t' j) {x : ℕ × ℕ} (h : Asked t w x) :
    Asked t' w x := by
  obtain ⟨y, hw, hx⟩ := h
  exact ⟨y, hw, hx.steady hs hm⟩

theorem PlaceOk.steady (hs : t'.super = t.super) (hm : ∀ j, t.mounts j ≠ 0 → Steady t t' j)
    (hq : ∀ j, q.refs j ≠ 0 → Steady t t' j) (h : PlaceOk t w q) : PlaceOk t' w q := by
  cases q with
  | iget dev nr => exact h
  | igetLoop empty dev nr k => exact ⟨(hq empty (by simp [Place.refs])).reserved h.1, h.2.1, h.2.2.steady hs hm⟩
  | igetWait empty dev nr i => exact ⟨(hq empty (by simp [Place.refs])).reserved h.1, h.2.1, h.2.2.steady hs hm⟩
  | igetMounted empty k =>
    obtain ⟨hr, i, hk, hw⟩ := h
    refine ⟨(hq empty (by simp [Place.refs])).reserved hr, i, by rw [hs]; exact hk, ?_⟩
    rw [(hm i (mounts_ne_zero hk)).id]
    exact hw
  | igetEnd i =>
    change Asked t' w (t'.id i)
    rw [(hq i (by simp [Place.refs])).id]
    exact Asked.steady hs hm h
  | freeInode i => exact h
  | _ => trivial

theorem Above.steady {r : Place} (hs : t'.super = t.super) (hm : ∀ j, t.mounts j ≠ 0 → Steady t t' j)
    (hq : ∀ j, q.refs j ≠ 0 → Steady t t' j) (h : Above t w q r) : Above t' w q r := by
  cases q with
  | ret i =>
    have hi := hq i (by simp [Place.refs])
    cases r with
    | iget dev nr => exact hi.reserved h
    | other =>
      intro hw
      rw [hi.id]
      exact Asked.steady hs hm (h hw)
    | _ => exact h
  | _ => cases r <;> exact h

theorem StackOk.steady (hs : t'.super = t.super) (hm : ∀ j, t.mounts j ≠ 0 → Steady t t' j)
    (hst : ∀ j, stackRefs j st ≠ 0 → Steady t t' j) (h : StackOk t w st) : StackOk t' w st := by
  induction st with
  | nil => trivial
  | cons s st ih =>
    have hq : ∀ j, s.place.refs j ≠ 0 → Steady t t' j := fun j hj => hst j (by simp only [stackRefs]; omega)
    obtain ⟨h1, h2, h3⟩ := h
    exact ⟨h1.steady hs hm hq, fun r hr => (h2 r hr).steady hs hm hq,
      ih (fun j hj => hst j (by simp only [stackRefs]; omega)) h3⟩

theorem scanned_of_notIget {running : Prop} (h : ∀ r ∈ st.head?, r.place.isIget = false) : Scanned t running st := by
  cases st with
  | nil => trivial
  | cons s st =>
    obtain ⟨bufs, q⟩ := s
    have hq := h _ rfl
    cases q <;> trivial

/-- Places that may stand on anything but `iget`. -/
def Place.plain : Place → Bool
  | .ret _ | .emptyScan | .emptyWait _ | .other => false
  | _ => true

theorem above_plain {r : Place} (hq : q.plain = true) (hr : r.isIget = false) : Above t w q r := by
  cases q <;> first | exact hr | cases hq

theorem Above.notIget {r : Place} (h : Above t w q r) (hq : q.plain = true) : r.isIget = false := by
  cases q <;> first | exact h | cases hq

theorem StackOk.push (hst : StackOk t w st) (hnl : ∀ r ∈ st.head?, r.place.isIget = false) {b : List Frame}
    (hq : q.plain = true) (hok : PlaceOk t w q) : StackOk t w (⟨b, q⟩ :: st) :=
  ⟨hok, fun r hr => above_plain hq (hnl r hr), hst⟩

theorem Scanned.mono {running running' : Prop} (h : Scanned t running st) (hr : running → running')
    (hid : running → ∀ j, t'.id j = t.id j) : Scanned t' running' st := by
  cases st with
  | nil => trivial
  | cons s st =>
    obtain ⟨bufs, q⟩ := s
    cases q with
    | iget dev nr => exact h.elim
    | igetLoop empty dev nr k => exact ⟨h.1, hr h.2.1, fun j hj => by rw [hid h.2.1]; exact h.2.2 j hj⟩
    | _ => trivial

/-- `iget` does not wait for the buffer code. -/
theorem Scanned.top {running : Prop} {bufs : List Frame} (h : Scanned t running (⟨bufs, q⟩ :: st)) (hb : bufs ≠ []) :
    q.isIget = false := by
  cases q with
  | iget dev nr => exact h.elim
  | igetLoop empty dev nr k => exact absurd h.1 hb
  | _ => rfl

theorem scanned_of_top {running : Prop} {bufs : List Frame} (h : q.isIget = false) : Scanned t running (⟨bufs, q⟩ :: st) :=
  scanned_of_notIget fun r hr => by cases hr; exact h

/-! ## The invariant -/

variable [DecidableEq ι] [Fintype ι] {τ τ' : Tracked ι}

structure Inv (τ : Tracked ι) : Prop where
  counts : ∀ i, τ.refs i ≤ (τ.σ.t.inode i).count ∧ (τ.σ.t.inode i).count < 65536
  unique : τ.σ.t.Unique
  pipe : ∀ i, (τ.σ.t.inode i).pipe = false
  mounts : τ.σ.t.MountsOk
  stackOk : ∀ p, StackOk τ.σ.t (τ.want p) (τ.σ.stack p)
  scanned : ∀ p, Scanned τ.σ.t (p = τ.σ.cur) (τ.σ.stack p)

/-- The references to `i` that are not on the stack of the running process. -/
def Tracked.rest (τ : Tracked ι) (i : Fin 32) : ℕ :=
  ∑ p, (τ.held p i + stackRefs i (Function.update τ.σ.stack τ.σ.cur [] p)) + τ.σ.t.mounts i

theorem refs_eq_rest (τ : Tracked ι) (i : Fin 32) : τ.refs i = τ.rest i + stackRefs i (τ.σ.stack τ.σ.cur) := by
  have h := sum_update_at τ.σ.stack (g := fun p st => τ.held p i + stackRefs i st) (k := fun p st => τ.held p i + stackRefs i st)
    τ.σ.cur [] fun _ _ => rfl
  unfold Tracked.refs Tracked.rest
  simp only [stackRefs] at h
  omega

theorem mounts_le_rest (τ : Tracked ι) (i : Fin 32) : τ.σ.t.mounts i ≤ τ.rest i := Nat.le_add_left ..

theorem stackRefs_le_rest {p : ι} (hp : p ≠ τ.σ.cur) (i : Fin 32) : stackRefs i (τ.σ.stack p) ≤ τ.rest i := by
  have h := Finset.single_le_sum (f := fun p => τ.held p i + stackRefs i (Function.update τ.σ.stack τ.σ.cur [] p))
    (fun _ _ => Nat.zero_le _) (Finset.mem_univ p)
  rw [Function.update_of_ne hp] at h
  unfold Tracked.rest
  omega

/-- A step that changes the stack of the running process, and entries nobody else refers to. -/
theorem Inv.move (hi : Inv τ) (hcur : τ'.σ.cur = τ.σ.cur)
    (hother : ∀ p, p ≠ τ.σ.cur → τ'.σ.stack p = τ.σ.stack p ∧ τ'.want p = τ.want p)
    (hsuper : τ'.σ.t.super = τ.σ.t.super) (hsteady : ∀ j, τ.rest j ≠ 0 → Steady τ.σ.t τ'.σ.t j)
    (hcounts : ∀ j, τ'.refs j ≤ (τ'.σ.t.inode j).count ∧ (τ'.σ.t.inode j).count < 65536)
    (hunique : τ'.σ.t.Unique) (hpipe : ∀ j, (τ'.σ.t.inode j).pipe = false)
    (hstack : StackOk τ'.σ.t (τ'.want τ.σ.cur) (τ'.σ.stack τ.σ.cur))
    (hscan : Scanned τ'.σ.t True (τ'.σ.stack τ.σ.cur)) : Inv τ' := by
  have hm : ∀ j, τ.σ.t.mounts j ≠ 0 → Steady τ.σ.t τ'.σ.t j := fun j hj => hsteady j (by have := mounts_le_rest τ j; omega)
  refine ⟨hcounts, hunique, hpipe, fun k i hk => ?_, fun p => ?_, fun p => ?_⟩
  · rw [hsuper] at hk ⊢
    have hid := (hm i (mounts_ne_zero hk)).id
    obtain ⟨hd, hn, hk'⟩ := hi.mounts k i hk
    simp only [Tables.id, Prod.mk.injEq] at hid
    rw [hid.1, hid.2]
    exact ⟨hd, hn, hk'⟩
  · by_cases hp : p = τ.σ.cur
    · subst hp
      exact hstack
    · obtain ⟨hs, hw⟩ := hother p hp
      rw [hs, hw]
      exact (hi.stackOk p).steady hsuper hm fun j hj => hsteady j (by have := stackRefs_le_rest hp j; omega)
  · by_cases hp : p = τ.σ.cur
    · subst hp
      rw [hcur, eq_self]
      exact hscan
    · rw [(hother p hp).1]
      exact (hi.scanned p).mono (fun h => absurd h hp) fun h => absurd h hp

/-- What is on the stack of the running process and what is not. -/
theorem refs_move {st' : List Seg} (hs : τ'.σ.stack = Function.update τ.σ.stack τ.σ.cur st') (hcur : τ'.σ.cur = τ.σ.cur)
    (hheld : τ'.held = τ.held) (hsuper : τ'.σ.t.super = τ.σ.t.super) (i : Fin 32) : τ'.refs i = τ.rest i + stackRefs i st' := by
  rw [refs_eq_rest]
  unfold Tracked.rest Tables.mounts
  rw [hs, hcur, hheld, hsuper, Function.update_idem, Function.update_self]

theorem Tracked.Keeps.refl (x : Inode) : Tracked.Keeps x x := ⟨rfl, rfl, rfl, rfl⟩

/-- The entries stay what they are, and the running process gets no reference. -/
theorem Inv.stay (hi : Inv τ) {old st' : List Seg} (hold : τ.σ.stack τ.σ.cur = old) (hcur : τ'.σ.cur = τ.σ.cur)
    (hs : τ'.σ.stack = Function.update τ.σ.stack τ.σ.cur st') (hheld : τ'.held = τ.held) (hwant : τ'.want = τ.want)
    (hkeep : ∀ j, Tracked.Keeps (τ.σ.t.inode j) (τ'.σ.t.inode j)) (hsuper : τ'.σ.t.super = τ.σ.t.super)
    (hstack : StackOk τ.σ.t (τ.want τ.σ.cur) st') (hrefs : ∀ j, stackRefs j st' ≤ stackRefs j old)
    (hscan : Scanned τ.σ.t True st') : Inv τ' := by
  have hid : ∀ j, τ'.σ.t.id j = τ.σ.t.id j := fun j => Prod.ext (hkeep j).1 (hkeep j).2.1
  have hst : τ'.σ.stack τ.σ.cur = st' := by rw [hs, Function.update_self]
  have hsteady : ∀ j, Steady τ.σ.t τ'.σ.t j := fun j =>
    ⟨hid j, fun h => ⟨(hkeep j).1.trans h.1, (hkeep j).2.2.1.trans h.2⟩⟩
  refine hi.move hcur (fun p hp => ⟨by rw [hs, Function.update_of_ne hp], by rw [hwant]⟩) hsuper (fun j _ => hsteady j)
    (fun j => ?_) (fun i j h he => ?_) (fun j => (hkeep j).2.2.2.trans (hi.pipe j)) ?_ ?_
  · rw [refs_move hs hcur hheld hsuper, (hkeep j).2.2.1]
    have hc := hi.counts j
    have hr := hrefs j
    rw [refs_eq_rest, hold] at hc
    omega
  · rw [hid, hid] at he
    rw [(hkeep i).1] at h
    exact hi.unique i j h he
  · rw [hst, hwant]
    exact hstack.steady hsuper (fun j _ => hsteady j) fun j _ => hsteady j
  · rw [hst]
    exact hscan.mono (fun h => h) fun _ => hid

/-! ## The steps of inode.c -/

omit [Fintype ι] in
theorem heldAfter_place (hs : τ.σ.stack τ.σ.cur = ⟨[], q⟩ :: st)
    (hne : ∀ i bufs st₁, q = .ret i → st ≠ ⟨bufs, .other⟩ :: st₁) : τ.heldAfter .place = τ.held := by
  dsimp only [Tracked.heldAfter]
  rw [hs]
  split
  · rename_i h
    cases h
    exact absurd rfl (hne _ _ _ rfl)
  · rfl

omit [DecidableEq ι] [Fintype ι] in
theorem goOn_ret {p : ι} {bufs : List Frame} :
    goOn p t (⟨bufs, .other⟩ :: st) (.ret i) = some (t, ⟨bufs, .other⟩ :: st) := by
  cases bufs <;> rfl

/-- The running process takes its stack to `st'` and the tables to `t'`. -/
def Tracked.went (τ : Tracked ι) (t' : Tables ι) (st' : List Seg) : Tracked ι :=
  { τ with σ := { τ.σ.setTop st' with t := t' } }

theorem Inv.went (hi : Inv τ) {st' : List Seg} (hsuper : t'.super = τ.σ.t.super)
    (hsteady : ∀ j, τ.rest j ≠ 0 → Steady τ.σ.t t' j)
    (hcounts : ∀ j, τ.rest j + stackRefs j st' ≤ (t'.inode j).count ∧ (t'.inode j).count < 65536) (hunique : t'.Unique)
    (hpipe : ∀ j, (t'.inode j).pipe = false) (hstack : StackOk t' (τ.want τ.σ.cur) st') (hscan : Scanned t' True st') :
    Inv (τ.went t' st') := by
  have hst : (τ.went t' st').σ.stack τ.σ.cur = st' := Function.update_self ..
  refine hi.move rfl (fun p hp => ⟨Function.update_of_ne hp .., rfl⟩) hsuper hsteady (fun j => ?_) hunique hpipe ?_ ?_
  · rw [@refs_move _ _ _ τ (τ.went t' st') st' rfl rfl rfl hsuper j]
    exact hcounts j
  · rw [hst]
    exact hstack
  · rw [hst]
    exact hscan

theorem Inv.rest_le (hi : Inv τ) (hs : τ.σ.stack τ.σ.cur = st) (j : Fin 32) :
    τ.rest j + stackRefs j st ≤ (τ.σ.t.inode j).count := by
  have h := (hi.counts j).1
  rw [refs_eq_rest, hs] at h
  exact h

theorem Inv.mounts_steady (hsteady : ∀ j, τ.rest j ≠ 0 → Steady τ.σ.t t' j) (j : Fin 32) (hj : τ.σ.t.mounts j ≠ 0) :
    Steady τ.σ.t t' j := hsteady j (by have := mounts_le_rest τ j; omega)

omit [Fintype ι] [DecidableEq ι] in
theorem setInode_inode (t : Tables ι) (i : Fin 32) (x : Inode) (j : Fin 32) :
    (t.setInode i x).inode j = if j = i then x else t.inode j := Function.update_apply ..

omit [Fintype ι] [DecidableEq ι] in
/-- The other entries are what they were. -/
theorem steady_of_eq (h : t'.inode j = t.inode j) : Steady t t' j :=
  ⟨by unfold Tables.id; rw [h], fun hr => by unfold Tables.Reserved; rw [h]; exact hr⟩

omit [Fintype ι] [DecidableEq ι] in
/-- One entry gets an identity that no other has, or none. -/
theorem Tables.Unique.set (h : t.Unique) (hother : ∀ j, j ≠ i → t'.inode j = t.inode j)
    (hi : (t'.inode i).dev = 0 ∨ ∀ j, j ≠ i → t.id j ≠ t'.id i) : t'.Unique := by
  have hid : ∀ j, j ≠ i → t'.id j = t.id j := fun j hj => (steady_of_eq (hother j hj)).id
  have hne : ∀ j, j ≠ i → (t'.inode j).dev ≠ 0 → t'.id j ≠ t'.id i := fun j hj hd he => by
    obtain h0 | hall := hi
    · exact hd ((congrArg Prod.fst he).trans h0)
    · exact hall j hj ((hid j hj).symm.trans he)
  intro j k hj hk
  by_cases hji : j = i <;> by_cases hki : k = i
  · rw [hji, hki]
  · subst hji
    have hdk : (t'.inode k).dev ≠ 0 := fun h0 => hj ((congrArg Prod.fst hk).trans h0)
    exact absurd hk.symm (hne k hki hdk)
  · subst hki
    exact absurd hk (hne j hji hj)
  · rw [hother j hji] at hj
    exact h j k hj ((hid j hji).symm.trans (hk.trans (hid k hki)))

/-- `get_empty_inode` clears an entry nobody refers to. -/
theorem Inv.cleared (hi : Inv τ) (hs : τ.σ.stack τ.σ.cur = (Place.emptyWait i).seg :: st)
    (hcount : (τ.σ.t.inode i).count = 0) : Inv (τ.went (τ.σ.t.clear i 1) ((Place.ret i).seg :: st)) := by
  obtain ⟨-, hab, hst⟩ : StackOk τ.σ.t (τ.want τ.σ.cur) ((Place.emptyWait i).seg :: st) := hs ▸ hi.stackOk τ.σ.cur
  have hzero := hi.rest_le hs i
  rw [hcount] at hzero
  simp only [stackRefs, Place.seg, Place.refs, Nat.zero_add] at hzero
  have hinode : ∀ j, (τ.σ.t.clear i 1).inode j = if j = i then { Inode.zero with count := 1 } else τ.σ.t.inode j :=
    setInode_inode τ.σ.t i _
  have hother : ∀ j, j ≠ i → (τ.σ.t.clear i 1).inode j = τ.σ.t.inode j := fun j hj => by rw [hinode, if_neg hj]
  have hfresh : (τ.σ.t.clear i 1).Reserved i := by
    unfold Tables.Reserved
    rw [hinode, if_pos rfl]
    exact ⟨rfl, rfl⟩
  have hsteady : ∀ j, τ.rest j ≠ 0 → Steady τ.σ.t (τ.σ.t.clear i 1) j := fun j hj =>
    steady_of_eq (hother j (by rintro rfl; omega))
  refine hi.went rfl hsteady (fun j => ?_) (hi.unique.set hother (Or.inl hfresh.1)) (fun j => ?_) ?_ trivial
  · by_cases hj : j = i
    · subst hj
      rw [hfresh.2]
      simp only [stackRefs, Place.seg, Place.refs, if_pos]
      omega
    · rw [hother j hj]
      have hc := hi.rest_le hs j
      simp only [stackRefs, Place.seg, Place.refs] at hc ⊢
      rw [if_neg (Ne.symm hj)]
      exact ⟨hc, (hi.counts j).2⟩
  · rw [hinode]
    split_ifs
    · rfl
    · exact hi.pipe j
  · have hsuper : (τ.σ.t.clear i 1).super = τ.σ.t.super := rfl
    refine ⟨trivial, fun r hr => ?_, hst.steady hsuper (Inv.mounts_steady hsteady) fun j hj =>
      steady_of_eq (hother j (by rintro rfl; omega))⟩
    have hab' := hab r hr
    cases hq : r.place with
    | iget dev nr => exact hfresh
    | other =>
      rw [hq] at hab'
      exact fun hw => absurd hab' hw
    | _ =>
      rw [hq] at hab'
      exact hab'

/-- `iget` fills the entry it has reserved. The loop has met no entry with that inode. -/
theorem Inv.assigned (hi : Inv τ) {dev nr k : ℕ} (hs : τ.σ.stack τ.σ.cur = (Place.igetLoop i dev nr k).seg :: st) (hk : ¬k < 32) :
    Inv (τ.went (τ.σ.t.setInode i { τ.σ.t.inode i with dev := dev, num := nr })
      ((Place.lockInode false i).seg :: (Place.igetEnd i).seg :: st)) := by
  obtain ⟨⟨hres, -, hasked⟩, hab, hst⟩ : StackOk τ.σ.t (τ.want τ.σ.cur) ((Place.igetLoop i dev nr k).seg :: st) :=
    hs ▸ hi.stackOk τ.σ.cur
  have hsc := hi.scanned τ.σ.cur
  rw [hs] at hsc
  set t' := τ.σ.t.setInode i { τ.σ.t.inode i with dev := dev, num := nr } with ht'
  have hinode : ∀ j, t'.inode j = if j = i then { τ.σ.t.inode i with dev := dev, num := nr } else τ.σ.t.inode j :=
    setInode_inode τ.σ.t i _
  have hother : ∀ j, j ≠ i → t'.inode j = τ.σ.t.inode j := fun j hj => by rw [hinode, if_neg hj]
  have hid : t'.id i = (dev, nr) := by
    unfold Tables.id
    rw [hinode, if_pos rfl]
  -- the one reference is that of this call
  have hone := hi.rest_le hs i
  rw [hres.2] at hone
  simp only [stackRefs, Place.seg, Place.refs, if_pos] at hone
  have hsteady : ∀ j, τ.rest j ≠ 0 → Steady τ.σ.t t' j := fun j hj => steady_of_eq (hother j (by rintro rfl; omega))
  have hsuper : t'.super = τ.σ.t.super := rfl
  have hm := Inv.mounts_steady hsteady
  have hnl : ∀ r ∈ st.head?, r.place.isIget = false := fun r hr => (hab r hr).notIget rfl
  have hst' : StackOk t' (τ.want τ.σ.cur) st := hst.steady hsuper hm fun j hj => steady_of_eq (hother j (by rintro rfl; omega))
  refine hi.went hsuper hsteady (fun j => ?_) (hi.unique.set hother (Or.inr fun j hj => ?_)) (fun j => ?_) ?_ trivial
  · have hc := hi.rest_le hs j
    have hw := (hi.counts j).2
    have hcount : (t'.inode j).count = (τ.σ.t.inode j).count := by
      rw [hinode]
      split_ifs with hj
      · rw [hj]
      · rfl
    rw [hcount]
    simp only [stackRefs, Place.seg, Place.refs] at hc ⊢
    omega
  · rw [hid]
    exact hsc.2.2 j (by have := j.isLt; omega)
  · rw [hinode]
    split_ifs
    · exact hi.pipe i
    · exact hi.pipe j
  · have hend : PlaceOk t' (τ.want τ.σ.cur) (.igetEnd i) := by
      change Asked t' _ (t'.id i)
      rw [hid]
      exact hasked.steady hsuper hm
    have h1 : StackOk t' (τ.want τ.σ.cur) ((Place.igetEnd i).seg :: st) := hst'.push hnl rfl hend
    exact h1.push (fun r hr => by cases hr; rfl) rfl trivial

/-- `i_count--` of an inode the process gives up. -/
theorem Inv.dropped (hi : Inv τ) (hs : τ.σ.stack τ.σ.cur = q.seg :: st) (hq : q = .iput i ∨ q = .iputAgain i) :
    Inv (τ.went (τ.σ.t.decCount i) st) := by
  obtain ⟨-, hab, hst⟩ : StackOk τ.σ.t (τ.want τ.σ.cur) (q.seg :: st) := hs ▸ hi.stackOk τ.σ.cur
  have hnl : ∀ r ∈ st.head?, r.place.isIget = false := fun r hr => (hab r hr).notIget (by obtain rfl | rfl := hq <;> rfl)
  have hqrefs : ∀ j, q.refs j = if i = j then 1 else 0 := fun j => by
    obtain rfl | rfl := hq <;> rfl
  have hinode : ∀ j, (τ.σ.t.decCount i).inode j =
      if j = i then { τ.σ.t.inode i with count := ((τ.σ.t.inode i).count + 65535) % 65536 } else τ.σ.t.inode j :=
    setInode_inode τ.σ.t i _
  have hid : ∀ j, (τ.σ.t.decCount i).id j = τ.σ.t.id j := fun j => by
    unfold Tables.id
    rw [hinode]
    split_ifs with hj
    · rw [hj]
    · rfl
  have hold : ∀ j, τ.rest j + ((if i = j then 1 else 0) + stackRefs j st) ≤ (τ.σ.t.inode j).count := fun j => by
    have h := hi.rest_le hs j
    simp only [stackRefs, Place.seg, hqrefs] at h
    exact h
  -- somebody else holds it as well, so it is not reserved
  have hkeep : ∀ j, τ.rest j ≠ 0 ∨ stackRefs j st ≠ 0 → Steady τ.σ.t (τ.σ.t.decCount i) j := fun j hj =>
    ⟨hid j, fun hr => by
      have h := hold j
      have hji : j ≠ i := by
        rintro rfl
        rw [hr.2, if_pos rfl] at h
        omega
      unfold Tables.Reserved
      rw [hinode, if_neg hji]
      exact hr⟩
  have hsuper : (τ.σ.t.decCount i).super = τ.σ.t.super := rfl
  have hsteady : ∀ j, τ.rest j ≠ 0 → Steady τ.σ.t (τ.σ.t.decCount i) j := fun j hj => hkeep j (Or.inl hj)
  refine hi.went hsuper hsteady (fun j => ?_) (fun j k hj hk => ?_) (fun j => ?_) ?_ (scanned_of_notIget hnl)
  · have h := hold j
    have hw := (hi.counts j).2
    rw [hinode]
    by_cases hj : j = i
    · subst hj
      rw [if_pos rfl] at h ⊢
      dsimp only
      omega
    · rw [if_neg (Ne.symm hj)] at h
      rw [if_neg hj]
      omega
  · rw [hid, hid] at hk
    refine hi.unique j k (fun h0 => hj ?_) hk
    exact (congrArg Prod.fst (hid j)).trans h0
  · rw [hinode]
    split_ifs
    · exact hi.pipe i
    · exact hi.pipe j
  · exact hst.steady hsuper (Inv.mounts_steady hsteady) fun j hj => hkeep j (Or.inr hj)

/-- `iget` has found the inode: one more reference. A mount point is put back. -/
theorem Inv.found (hi : Inv τ) {empty : Fin 32} {dev nr : ℕ} (hs : τ.σ.stack τ.σ.cur = (Place.igetWait empty dev nr i).seg :: st)
    (hid : τ.σ.t.id i = (dev, nr)) (hfit : (τ.σ.t.inode i).count < 65535) :
    Inv (τ.went (igetFound τ.σ.t st empty i).1 (igetFound τ.σ.t st empty i).2) := by
  obtain ⟨⟨hres, hdev, hasked⟩, hab, hst⟩ : StackOk τ.σ.t (τ.want τ.σ.cur) ((Place.igetWait empty dev nr i).seg :: st) :=
    hs ▸ hi.stackOk τ.σ.cur
  have hnl : ∀ r ∈ st.head?, r.place.isIget = false := fun r hr => (hab r hr).notIget rfl
  set t' := τ.σ.t.setInode i { τ.σ.t.inode i with count := ((τ.σ.t.inode i).count + 1) % 65536 } with ht'
  have hinode : ∀ j, t'.inode j =
      if j = i then { τ.σ.t.inode i with count := ((τ.σ.t.inode i).count + 1) % 65536 } else τ.σ.t.inode j :=
    setInode_inode τ.σ.t i _
  have hid' : ∀ j, t'.id j = τ.σ.t.id j := fun j => by
    unfold Tables.id
    rw [hinode]
    split_ifs with hj
    · rw [hj]
    · rfl
  have hsteady : ∀ j, Steady τ.σ.t t' j := fun j => ⟨hid' j, fun hr => by
    have hji : j ≠ i := by
      rintro rfl
      exact hdev ((congrArg Prod.fst hid).symm.trans hr.1)
    unfold Tables.Reserved
    rw [hinode, if_neg hji]
    exact hr⟩
  have hsuper : t'.super = τ.σ.t.super := rfl
  have hm := Inv.mounts_steady (τ := τ) fun j _ => hsteady j
  have hst' : StackOk t' (τ.want τ.σ.cur) st := hst.steady hsuper hm fun j _ => hsteady j
  have hunique : t'.Unique := fun j k hj hk => by
    rw [hid', hid'] at hk
    exact hi.unique j k (fun h0 => hj ((congrArg Prod.fst (hid' j)).trans h0)) hk
  have hpipe : ∀ j, (t'.inode j).pipe = false := fun j => by
    rw [hinode]
    split_ifs
    · exact hi.pipe i
    · exact hi.pipe j
  have hcounts : ∀ j, τ.rest j + ((if empty = j then 1 else 0) + ((if i = j then 1 else 0) + stackRefs j st)) ≤
      (t'.inode j).count ∧ (t'.inode j).count < 65536 := fun j => by
    have h := hi.rest_le hs j
    have hw := (hi.counts j).2
    simp only [stackRefs, Place.seg, Place.refs] at h
    rw [hinode]
    by_cases hj : j = i
    · subst hj
      rw [if_pos (rfl : j = j), if_pos (rfl : j = j)]
      dsimp only
      omega
    · rw [if_neg hj, if_neg (Ne.symm hj)]
      omega
  have hmounted : (igetFound τ.σ.t st empty i = (t', (Place.iput empty).seg :: (Place.igetEnd i).seg :: st)) ∨
      ∃ k, (τ.σ.t.super k).imount = some i ∧
        igetFound τ.σ.t st empty i = (t', (Place.iput i).seg :: (Place.igetMounted empty k).seg :: st) := by
    unfold igetFound
    dsimp only
    split
    · exact Or.inl rfl
    · rename_i k hk
      split_ifs at hk
      have hp := List.find?_some hk
      exact Or.inr ⟨k, of_decide_eq_true hp, rfl⟩
  obtain he | ⟨k, hk, he⟩ := hmounted
  · rw [he]
    refine hi.went hsuper (fun j _ => hsteady j) hcounts hunique hpipe ?_ trivial
    have hend : PlaceOk t' (τ.want τ.σ.cur) (.igetEnd i) := by
      change Asked t' _ (t'.id i)
      rw [hid', hid]
      exact hasked.steady hsuper hm
    have h1 : StackOk t' (τ.want τ.σ.cur) ((Place.igetEnd i).seg :: st) := hst'.push hnl rfl hend
    exact h1.push (fun r hr => by cases hr; rfl) rfl trivial
  · rw [he]
    refine hi.went hsuper (fun j _ => hsteady j) (fun j => ?_) hunique hpipe ?_ trivial
    · have h := hcounts j
      simp only [stackRefs, Place.seg, Place.refs]
      omega
    -- a mount point is no root, so this is the first redirection
    have hw : τ.want τ.σ.cur = some (t'.id i) := by
      rw [hid', hid]
      obtain ⟨y, hy, rfl | ⟨k', i', hk', -, hx⟩⟩ := hasked
      · exact hy
      · have hn := (hi.mounts k i hk).2.1
        exact absurd ((congrArg Prod.snd hid).trans (congrArg Prod.snd hx)) hn
    have h1 : StackOk t' (τ.want τ.σ.cur) ((Place.igetMounted empty k).seg :: st) :=
      hst'.push hnl rfl ⟨(hsteady empty).reserved hres, i, hk, hw⟩
    exact h1.push (fun r hr => by cases hr; rfl) rfl trivial

/-- An inode is returned to the caller. -/
theorem Inv.returned (hi : Inv τ) {b : List Frame} {held : ι → Fin 32 → ℕ}
    (hs : τ.σ.stack τ.σ.cur = (Place.ret i).seg :: ⟨b, .other⟩ :: st) (hheld : held = τ.take i) :
    Inv { τ with σ := τ.σ.setTop (⟨b, .other⟩ :: st), held := held } := by
  obtain ⟨-, -, hst⟩ : StackOk τ.σ.t (τ.want τ.σ.cur) ((Place.ret i).seg :: ⟨b, .other⟩ :: st) := hs ▸ hi.stackOk τ.σ.cur
  have hnew : (τ.σ.setTop (⟨b, .other⟩ :: st)).stack τ.σ.cur = ⟨b, .other⟩ :: st := Function.update_self ..
  have hrefs : ∀ j, ({ τ with σ := τ.σ.setTop (⟨b, .other⟩ :: st), held := held } : Tracked ι).refs j = τ.refs j := fun j => by
    have h := sum_update_at τ.σ.stack (g := fun p s => τ.held p j + stackRefs j s) (k := fun p s => held p j + stackRefs j s)
      τ.σ.cur (⟨b, .other⟩ :: st) fun p hp => by
        funext s
        rw [hheld, Tracked.take, Function.update_of_ne hp]
    have hone : held τ.σ.cur j = τ.held τ.σ.cur j + if i = j then 1 else 0 := by
      rw [hheld, Tracked.take, Function.update_self, Function.update_apply]
      by_cases hj : j = i
      · subst hj
        rw [if_pos rfl, if_pos rfl]
      · rw [if_neg hj, if_neg (Ne.symm hj), Nat.add_zero]
    rw [hs] at h
    simp only [stackRefs, Place.seg, Place.refs, hone] at h
    unfold Tracked.refs
    change ∑ p, (held p j + stackRefs j (Function.update τ.σ.stack τ.σ.cur (⟨b, .other⟩ :: st) p)) + τ.σ.t.mounts j = _
    omega
  refine hi.move rfl (fun p hp => ⟨Function.update_of_ne hp .., rfl⟩) rfl (fun j _ => steady_of_eq rfl) (fun j => ?_) hi.unique
    hi.pipe ?_ ?_
  · rw [hrefs]
    exact hi.counts j
  · rw [show ({ τ with σ := τ.σ.setTop (⟨b, .other⟩ :: st), held := held } : Tracked ι).σ.stack τ.σ.cur = _ from hnew]
    exact hst
  · rw [show ({ τ with σ := τ.σ.setTop (⟨b, .other⟩ :: st), held := held } : Tracked ι).σ.stack τ.σ.cur = _ from hnew]
    trivial

/-- The process goes on elsewhere, and the entries are as before. -/
theorem Inv.moved (hi : Inv τ) {st' : List Seg} (hs : τ.σ.stack τ.σ.cur = q.seg :: st) (hinode : t'.inode = τ.σ.t.inode)
    (hsuper : t'.super = τ.σ.t.super) (hstack : StackOk τ.σ.t (τ.want τ.σ.cur) st')
    (hrefs : ∀ j, stackRefs j st' ≤ q.refs j + stackRefs j st) (hscan : Scanned τ.σ.t True st') : Inv (τ.went t' st') :=
  hi.stay hs rfl rfl rfl rfl (fun j => by
    change Tracked.Keeps (τ.σ.t.inode j) (t'.inode j)
    rw [hinode]
    exact .refl _) hsuper hstack hrefs hscan

theorem Inv.repeated (hi : Inv τ) (hs : τ.σ.stack τ.σ.cur = q.seg :: st) (hq : q = .iput i ∨ q = .iputAgain i)
    (hfit : 1 < (τ.σ.t.inode i).count ∨ (τ.σ.t.inode i).nlinks ≠ 0) :
    Inv (τ.went (iputRepeat τ.σ.t st i).1 (iputRepeat τ.σ.t st i).2) := by
  obtain ⟨-, hab, hst⟩ : StackOk τ.σ.t (τ.want τ.σ.cur) (q.seg :: st) := hs ▸ hi.stackOk τ.σ.cur
  have hnl : ∀ r ∈ st.head?, r.place.isIget = false := fun r hr => (hab r hr).notIget (by obtain rfl | rfl := hq <;> rfl)
  unfold iputRepeat
  by_cases h1 : 1 < (τ.σ.t.inode i).count
  · rw [if_pos h1]
    exact hi.dropped hs hq
  rw [if_neg h1, if_neg (hfit.resolve_left h1)]
  split_ifs with hd
  · have h2 : StackOk τ.σ.t (τ.want τ.σ.cur) ((Place.iputAgain i).seg :: st) := hst.push hnl rfl trivial
    refine hi.moved hs rfl rfl (h2.push (fun r hr => by cases hr; rfl) rfl trivial) (fun j => ?_) trivial
    obtain rfl | rfl := hq <;> simp [stackRefs, Place.seg, Place.refs]
  · exact hi.dropped hs hq

theorem Inv.place (hi : Inv τ) {st' : List Seg} (hs : τ.σ.stack τ.σ.cur = q.seg :: st) (hfit : Tracked.PlaceFits τ.σ.t q)
    (hg : goOn τ.σ.cur τ.σ.t st q = some (t', st')) (hne : ∀ i bufs st₁, q = .ret i → st ≠ ⟨bufs, .other⟩ :: st₁) :
    Inv (τ.went t' st') := by
  obtain ⟨hok, hab, hst⟩ : StackOk τ.σ.t (τ.want τ.σ.cur) (q.seg :: st) := hs ▸ hi.stackOk τ.σ.cur
  have hall : q.plain = true → ∀ r ∈ st.head?, r.place.isIget = false := fun hq r hr => (hab r hr).notIget hq
  cases q with
  | syncInodes k =>
    have hnext : StackOk τ.σ.t (τ.want τ.σ.cur) ((Place.syncInodes (k + 1)).seg :: st) := hst.push (hall rfl) rfl trivial
    dsimp only [goOn] at hg
    split_ifs at hg with hk
    · cases hg
      have h2 : StackOk τ.σ.t (τ.want τ.σ.cur) ((Place.lockInode true ⟨k, hk⟩).seg :: (Place.syncInodes (k + 1)).seg :: st) :=
        hnext.push (fun r hr => by cases hr; rfl) rfl trivial
      exact hi.moved hs rfl rfl h2 (fun j => by simp [stackRefs, Place.seg, Place.refs]) trivial
    · cases hg
      exact hi.moved hs rfl rfl hnext (fun j => by simp [stackRefs, Place.seg, Place.refs]) trivial
    · cases hg
      exact hi.moved hs rfl rfl hst (fun j => by simp [Place.refs]) (scanned_of_notIget (hall rfl))
  | lockInode write i =>
    dsimp only [goOn] at hg
    split_ifs at hg
    · cases hg
      exact hi.moved hs rfl rfl hst (fun j => by simp [Place.refs]) (scanned_of_notIget (hall rfl))
    · cases hg
      have h1 : StackOk τ.σ.t (τ.want τ.σ.cur) ((Place.getSuper write i).seg :: st) := hst.push (hall rfl) rfl trivial
      exact hi.moved hs rfl rfl h1 (fun j => by simp [stackRefs, Place.seg, Place.refs]) trivial
  | getSuper write i =>
    dsimp only [goOn] at hg
    cases hsup : τ.σ.t.getSuper (τ.σ.t.inode i).dev with
    | none =>
      rw [hsup] at hg
      cases hg
    | some s =>
      rw [hsup] at hg
      dsimp only at hg
      split_ifs at hg
      cases hg
      have h1 := hst.push (hall rfl) (b := callGetblk (τ.σ.t.inode i).dev (inodeBlock s (τ.σ.t.inode i).num) [.bread])
        (q := .bread write i) rfl trivial
      exact hi.moved hs rfl rfl h1 (fun j => by simp [stackRefs, Place.refs]) trivial
  | brelse i =>
    cases hg
    exact hi.moved hs rfl rfl hst (fun j => by simp [Place.refs]) (scanned_of_notIget (hall rfl))
  | emptyScan =>
    dsimp only [goOn] at hg
    split at hg
    · cases hg
    · cases hg
      refine hi.moved hs rfl rfl ⟨trivial, fun r hr => ?_, hst⟩ (fun j => by simp [stackRefs, Place.seg, Place.refs]) trivial
      have h := hab r hr
      cases hq : r.place <;> rw [hq] at h <;> exact h
  | emptyWait i =>
    dsimp only [goOn] at hg
    split_ifs at hg with hl hd hc
    · cases hg
      have h1 : StackOk τ.σ.t (τ.want τ.σ.cur) ((Place.emptyWait i).seg :: st) := ⟨trivial, hab, hst⟩
      exact hi.moved hs rfl rfl (h1.push (fun r hr => by cases hr; rfl) rfl trivial)
        (fun j => by simp [stackRefs, Place.seg, Place.refs]) trivial
    · cases hg
      refine hi.moved hs rfl rfl ⟨trivial, fun r hr => ?_, hst⟩ (fun j => by simp [stackRefs, Place.seg, Place.refs]) trivial
      have h := hab r hr
      cases hq : r.place <;> rw [hq] at h <;> exact h
    · cases hg
      exact hi.cleared hs (not_not.mp hc)
  | iget dev nr => cases hg
  | igetLoop empty dev nr k =>
    have hsc := hi.scanned τ.σ.cur
    rw [hs] at hsc
    dsimp only [goOn] at hg
    split_ifs at hg with hk hne'
    · cases hg
      have h1 : StackOk τ.σ.t (τ.want τ.σ.cur) ((Place.igetLoop empty dev nr (k + 1)).seg :: st) := hst.push (hall rfl) rfl hok
      refine hi.moved hs rfl rfl h1 (fun j => by simp [stackRefs, Place.seg, Place.refs]) ⟨rfl, trivial, fun j hj => ?_⟩
      by_cases hjk : j.val < k
      · exact hsc.2.2 j hjk
      · obtain rfl : j = ⟨k, hk⟩ := Fin.ext (by change j.val = k; omega)
        intro he
        exact hne'.elim (fun h => h (congrArg Prod.fst he)) fun h => h (congrArg Prod.snd he)
    · cases hg
      have h1 : StackOk τ.σ.t (τ.want τ.σ.cur) ((Place.igetWait empty dev nr ⟨k, hk⟩).seg :: st) := hst.push (hall rfl) rfl hok
      exact hi.moved hs rfl rfl h1 (fun j => by simp [stackRefs, Place.seg, Place.refs]) trivial
    · cases hg
      exact hi.assigned hs hk
  | igetWait empty dev nr i =>
    dsimp only [goOn] at hg
    split_ifs at hg with hl hne'
    · cases hg
      have h1 : StackOk τ.σ.t (τ.want τ.σ.cur) ((Place.igetLoop empty dev nr 0).seg :: st) := hst.push (hall rfl) rfl hok
      exact hi.moved hs rfl rfl h1 (fun j => by simp [stackRefs, Place.seg, Place.refs]) ⟨rfl, trivial, nofun⟩
    · push Not at hne'
      have hf := hi.found hs (Prod.ext hne'.1 hne'.2) hfit
      rw [Option.some.inj hg] at hf
      exact hf
  | igetMounted empty k =>
    cases hg
    obtain ⟨hres, i, hk, hw⟩ := hok
    have hasked : Asked τ.σ.t (τ.want τ.σ.cur) ((τ.σ.t.super k).dev, 1) := ⟨_, hw, Or.inr ⟨k, i, hk, rfl, rfl⟩⟩
    have h1 : StackOk τ.σ.t (τ.want τ.σ.cur) ((Place.igetLoop empty (τ.σ.t.super k).dev 1 0).seg :: st) :=
      hst.push (hall rfl) rfl ⟨hres, (hi.mounts k i hk).2.2, hasked⟩
    exact hi.moved hs rfl rfl h1 (fun j => by simp [stackRefs, Place.seg, Place.refs]) ⟨rfl, trivial, nofun⟩
  | igetEnd i =>
    cases hg
    refine hi.moved hs rfl rfl ⟨trivial, fun r hr => ?_, hst⟩ (fun j => by simp [stackRefs, Place.seg, Place.refs]) trivial
    have h := hab r hr
    cases hq : r.place with
    | other => exact fun _ => hok
    | iget dev nr =>
      rw [hq] at h
      cases h
    | _ =>
      rw [hq] at h
      exact h
  | ret i =>
    dsimp only [goOn] at hg
    split at hg
    · rename_i dev nr st₁
      cases hg
      obtain ⟨hget, hab₁, hst₁⟩ := hst
      have hres : τ.σ.t.Reserved i := hab _ rfl
      have hasked : Asked τ.σ.t (τ.want τ.σ.cur) (dev, nr) := ⟨_, hget.2, Or.inl rfl⟩
      have h1 : StackOk τ.σ.t (τ.want τ.σ.cur) ((Place.igetLoop i dev nr 0).seg :: st₁) :=
        hst₁.push (fun r hr => (hab₁ r hr).notIget rfl) rfl ⟨hres, hget.1, hasked⟩
      exact hi.moved hs rfl rfl h1 (fun j => by simp [stackRefs, Place.seg, Place.refs]) ⟨rfl, trivial, nofun⟩
    · exact absurd rfl (hne i _ _ rfl)
    · cases hg
  | iput i =>
    obtain ⟨hp, -, -⟩ | ⟨-, rfl, rfl⟩ | ⟨-, rfl, rfl⟩ | ⟨hd, hg⟩ := goOn_iput hg
    · exact absurd hp (by rw [hi.pipe]; decide)
    · exact hi.dropped hs (Or.inl rfl)
    · have h1 := hst.push (hall rfl) (b := [.syncDev (τ.σ.t.inode i).zone0 false 0]) (q := .iputAgain i) rfl trivial
      exact hi.moved hs rfl rfl h1 (fun j => by simp [stackRefs, Place.refs]) trivial
    · have hr := hi.repeated hs (Or.inl rfl) (hfit hd)
      rw [hg] at hr
      exact hr
  | iputAgain i =>
    dsimp only [goOn] at hg
    split_ifs at hg
    have hr := hi.repeated hs (Or.inr rfl) hfit
    rw [Option.some.inj hg] at hr
    exact hr
  | freeInode i => exact hok.elim
  | other => cases hg
  | bread write i => cases hg

/-! ## Every run -/

omit [DecidableEq ι] in
/-- Buffers do not matter. -/
theorem Inv.same (hi : Inv τ) {σ' : Sys ι} (ht : σ'.t = τ.σ.t) (hs : σ'.stack = τ.σ.stack) (hc : σ'.cur = τ.σ.cur) :
    Inv { τ with σ := σ' } := by
  obtain ⟨c, t, stack, cur⟩ := σ'
  dsimp only at ht hs hc
  subst ht hs hc
  exact ⟨hi.counts, hi.unique, hi.pipe, hi.mounts, hi.stackOk, hi.scanned⟩

omit [DecidableEq ι] [Fintype ι] in
theorem exec_ne_nil {c : Cache} {bufs bufs' : List Frame} {a : Act} {x : Action} (h : exec c bufs a = some (x, bufs')) : bufs ≠ [] := by
  rintro rfl
  cases a <;> cases h

theorem Inv.frames (hi : Inv τ) {bufs bufs' : List Frame} (hs : τ.σ.stack τ.σ.cur = ⟨bufs, q⟩ :: st) (hb : bufs ≠ []) (c : Cache) :
    Inv { τ with σ := { τ.σ.setTop (⟨bufs', q⟩ :: st) with c := c } } := by
  have hstack : StackOk τ.σ.t (τ.want τ.σ.cur) (⟨bufs, q⟩ :: st) := hs ▸ hi.stackOk τ.σ.cur
  have hsc : Scanned τ.σ.t (τ.σ.cur = τ.σ.cur) (⟨bufs, q⟩ :: st) := hs ▸ hi.scanned τ.σ.cur
  exact hi.stay hs rfl rfl rfl rfl (fun j => .refl _) rfl hstack (fun j => le_rfl) (scanned_of_top (hsc.top hb))

def Tracked.called (τ : Tracked ι) (k : Call) : Tracked ι where
  σ := τ.σ.setTop (k.segs ++ τ.σ.stack τ.σ.cur)
  held := τ.heldAfter (.call k)
  want := τ.wantAfter (.call k)

theorem Inv.called (hi : Inv τ) {k : Call} (ho : τ.σ.Outside) (hdev : ∀ nr, k ≠ .iget 0 nr) (hallow : τ.Allows (.call k)) :
    Inv (τ.called k) := by
  obtain ⟨wheld, bufs, st, hs, -⟩ := ho
  -- nothing is below the caller
  have hnil : st = [] := by
    have h := hi.stackOk τ.σ.cur
    rw [hs] at h
    cases st with
    | nil => rfl
    | cons r st => exact (h.2.1 r rfl).elim
  subst hnil
  set τ' : Tracked ι := τ.called k with hτ'
  have hnew : τ'.σ.stack τ.σ.cur = k.segs ++ [⟨.work wheld :: bufs, .other⟩] := by
    rw [← hs]
    exact Function.update_self ..
  have hheld : ∀ p, p ≠ τ.σ.cur → τ'.held p = τ.held p := fun p hp => by
    cases k with
    | iput i => exact Function.update_of_ne hp ..
    | _ => rfl
  have hwant : ∀ p, p ≠ τ.σ.cur → τ'.want p = τ.want p := fun p hp => by
    cases k <;> exact Function.update_of_ne hp ..
  have hown : ∀ j, τ'.held τ.σ.cur j + stackRefs j k.segs = τ.held τ.σ.cur j := fun j => by
    cases k with
    | iput i =>
      have h1 : τ'.held τ.σ.cur j = if j = i then τ.held τ.σ.cur i - 1 else τ.held τ.σ.cur j := by
        change τ.give i τ.σ.cur j = _
        rw [Tracked.give, Function.update_self, Function.update_apply]
      have h0 : τ.held τ.σ.cur i ≠ 0 := hallow
      rw [h1]
      simp only [Call.segs, stackRefs, Place.seg, Place.refs]
      by_cases hj : j = i
      · subst hj
        rw [if_pos rfl, if_pos rfl]
        omega
      · rw [if_neg hj, if_neg (Ne.symm hj)]
        rfl
    | _ => rfl
  have happend : ∀ j, stackRefs j (k.segs ++ [⟨.work wheld :: bufs, .other⟩]) = stackRefs j k.segs := fun j => by
    cases k <;> rfl
  have hrefs : ∀ j, τ'.refs j = τ.refs j := fun j => by
    have h := sum_update_at τ.σ.stack (g := fun p s => τ.held p j + stackRefs j s) (k := fun p s => τ'.held p j + stackRefs j s)
      τ.σ.cur (k.segs ++ τ.σ.stack τ.σ.cur) fun p hp => by
        funext s
        rw [hheld p hp]
    have h' := hown j
    rw [hs, happend] at h
    simp only [stackRefs, Place.refs] at h
    unfold Tracked.refs
    change ∑ p, (τ'.held p j + stackRefs j (Function.update τ.σ.stack τ.σ.cur (k.segs ++ τ.σ.stack τ.σ.cur) p)) +
      τ.σ.t.mounts j = _
    rw [hs]
    omega
  have hbase : ∀ w, StackOk τ.σ.t w [⟨.work wheld :: bufs, .other⟩] := fun w => ⟨trivial, nofun, trivial⟩
  refine hi.move rfl (fun p hp => ⟨Function.update_of_ne hp .., hwant p hp⟩) rfl (fun j _ => steady_of_eq rfl) (fun j => ?_)
    hi.unique hi.pipe ?_ ?_
  · rw [hrefs]
    exact hi.counts j
  · rw [hnew]
    change StackOk τ.σ.t _ _
    cases k with
    | syncInodes => exact (hbase _).push (fun r hr => by cases hr; rfl) rfl trivial
    | iput i => exact (hbase _).push (fun r hr => by cases hr; rfl) rfl trivial
    | emptyInode =>
      refine ⟨trivial, fun r hr => ?_, hbase _⟩
      cases hr
      exact Function.update_self ..
    | iget dev nr =>
      have hd : dev ≠ 0 := by
        rintro rfl
        exact hdev nr rfl
      have h1 : StackOk τ.σ.t (τ'.want τ.σ.cur) [(Place.iget dev nr).seg, ⟨.work wheld :: bufs, .other⟩] :=
        (hbase _).push (fun r hr => by cases hr; rfl) rfl ⟨hd, Function.update_self ..⟩
      exact ⟨trivial, fun r hr => by cases hr; trivial, h1⟩
  · rw [hnew]
    cases k <;> trivial

omit [DecidableEq ι] [Fintype ι] in
theorem gotBuffer_keeps {c : Cache} {r : Ref} {x : Action} {st' : List Seg} (h : gotBuffer c t st r q = some (x, t', st')) :
    t'.super = t.super ∧ (∀ j, Tracked.Keeps (t.inode j) (t'.inode j)) ∧ q.plain = true ∧ ∃ i,
      st' = ⟨[.brelse r], .brelse i⟩ :: st := by
  cases q with
  | bread write i =>
    cases write with
    | true =>
      cases h
      refine ⟨rfl, fun j => ?_, rfl, i, rfl⟩
      rw [setInode_inode]
      split_ifs with hj
      · rw [hj]
        exact ⟨rfl, rfl, rfl, rfl⟩
      · exact .refl _
    | false =>
      cases h
      refine ⟨rfl, fun j => ?_, rfl, i, rfl⟩
      rw [setInode_inode]
      split_ifs with hj
      · rw [hj]
        exact ⟨rfl, rfl, rfl, rfl⟩
      · exact .refl _
  | _ => cases h

omit [DecidableEq ι] [Fintype ι] in
theorem Seg.Sleeps.notIget {c : Cache} {bufs : List Frame} {running : Prop} (h : Seg.Sleeps c t ⟨bufs, q⟩)
    (hsc : Scanned t running (⟨bufs, q⟩ :: st)) : q.isIget = false := by
  by_cases hb : bufs = []
  · subst hb
    cases q with
    | iget dev nr => exact hsc.elim
    | igetLoop empty dev nr k =>
      obtain ⟨i, hw, -⟩ | ⟨i, hq, -⟩ := h
      · cases hw
      · obtain ⟨write, hq⟩ | hq := hq <;> cases hq
    | _ => rfl
  · exact hsc.top hb

theorem Inv.step {e : Event ι} (hi : Inv τ) (h : Tracked.Step τ e τ') : Inv τ' := by
  obtain ⟨hallow, hstep, hheld, hwant⟩ := h
  obtain ⟨σ', held', want'⟩ := τ'
  dsimp only at hstep hheld hwant
  subst hheld hwant
  cases hstep with
  | frames hs hsync he => exact hi.frames hs (exec_ne_nil he) _
  | @sync bufs bufs' q st hs hb =>
    have hne : bufs ≠ [] := by
      rintro rfl
      cases hb
    have hstack : StackOk τ.σ.t (τ.want τ.σ.cur) (⟨bufs', q⟩ :: st) := by
      have h := hi.stackOk τ.σ.cur
      rw [hs] at h
      exact h
    have hsc := hi.scanned τ.σ.cur
    rw [hs] at hsc
    have h1 : StackOk τ.σ.t (τ.want τ.σ.cur) ((Place.syncInodes 0).seg :: ⟨bufs', q⟩ :: st) :=
      hstack.push (fun r hr => by cases hr; exact hsc.top hne) rfl trivial
    exact hi.stay hs rfl rfl rfl rfl (fun j => .refl _) rfl h1 (fun j => by simp [stackRefs, Place.seg, Place.refs]) trivial
  | @place q st st' t' hs hg =>
    have hfit : Tracked.PlaceFits τ.σ.t q := hallow q st hs
    by_cases hret : ∃ i bufs st₁, q = .ret i ∧ st = ⟨bufs, .other⟩ :: st₁
    · obtain ⟨i, bufs, st₁, rfl, rfl⟩ := hret
      rw [goOn_ret] at hg
      cases hg
      refine hi.returned (b := bufs) hs ?_
      dsimp only [Tracked.heldAfter]
      rw [hs]
    · have hne : ∀ i bufs st₁, q = .ret i → st ≠ ⟨bufs, .other⟩ :: st₁ := fun i bufs st₁ hq hst =>
        hret ⟨i, bufs, st₁, hq, hst⟩
      rw [heldAfter_place hs hne]
      exact hi.place hs hfit hg hne
  | @value q st st' r x t' hs hg =>
    obtain ⟨hsuper, hkeep, hplain, i, rfl⟩ := gotBuffer_keeps hg
    obtain ⟨-, hab, hst⟩ : StackOk τ.σ.t (τ.want τ.σ.cur) _ := hs ▸ hi.stackOk τ.σ.cur
    have h1 := hst.push (fun r hr => (hab r hr).notIget hplain) (b := [.brelse r]) (q := .brelse i) rfl trivial
    refine hi.stay hs rfl rfl rfl rfl hkeep hsuper h1 (fun j => ?_) trivial
    simp [stackRefs, Place.refs]
  | call k ho hdev => exact hi.called ho hdev hallow
  | edit i x ho =>
    have hsame : τ.σ.stack = Function.update τ.σ.stack τ.σ.cur (τ.σ.stack τ.σ.cur) := (Function.update_eq_self ..).symm
    refine hi.stay rfl rfl hsame rfl rfl (fun j => ?_) rfl
      (hi.stackOk _) (fun j => le_rfl) ((hi.scanned _).mono (fun _ => trivial) fun _ _ => rfl)
    change Tracked.Keeps (τ.σ.t.inode j) ((τ.σ.t.setInode i x).inode j)
    rw [setInode_inode]
    split_ifs with hj
    · rw [hj]
      exact hallow.2
    · exact .refl _
  | editSuper k x ho => exact hallow.elim
  | map b data ho hn => exact hi.same rfl rfl rfl
  | back hs =>
    have h := hi.stackOk τ.σ.cur
    rw [hs] at h
    exact (h.2.1 _ rfl).elim
  | @switch p s st hs hz =>
    refine ⟨hi.counts, hi.unique, hi.pipe, hi.mounts, hi.stackOk, fun r => ?_⟩
    have hsc := hi.scanned r
    by_cases hr : r = τ.σ.cur
    · subst hr
      change Scanned τ.σ.t _ (τ.σ.stack τ.σ.cur)
      rw [hs] at hsc ⊢
      exact scanned_of_top (hz.notIget hsc)
    · exact hsc.mono (fun h => absurd h hr) fun h => absurd h hr
  | sector h => exact hi.same rfl rfl rfl
  | endRequest h => exact hi.same rfl rfl rfl

theorem Inv.reachable (h : (idSystem ι).Reachable τ) : Inv τ := by
  refine h.invariant (fun τ hτ => ?_) fun τ e τ' _ hi hs => hi.step hs
  refine ⟨hτ.counts, hτ.unique, hτ.pipe, hτ.mounts, fun p => ?_, fun p => ?_⟩
  · rw [hτ.stack p]
    exact ⟨trivial, nofun, trivial⟩
  · rw [hτ.stack p]
    trivial

/-! ## What a step does to the entries -/

omit [Fintype ι] [DecidableEq ι] in
theorem setInode_id {x : Inode} (h : x.dev = (t.inode i).dev ∧ x.num = (t.inode i).num) (j : Fin 32) :
    (t.setInode i x).id j = t.id j := by
  unfold Tables.id
  rw [setInode_inode]
  split_ifs with hj
  · rw [hj, h.1, h.2]
  · rfl

omit [Fintype ι] [DecidableEq ι] in
theorem decCount_id (t : Tables ι) (i j : Fin 32) : (t.decCount i).id j = t.id j := by
  have hset := setInode_id (t := t) (i := i)
    (x := { t.inode i with count := ((t.inode i).count + 65535) % 65536 }) ⟨rfl, rfl⟩ j
  exact hset

omit [Fintype ι] [DecidableEq ι] in
theorem iputRepeat_id (t : Tables ι) (st : List Seg) (i j : Fin 32) : (iputRepeat t st i).1.id j = t.id j := by
  unfold iputRepeat
  split_ifs
  · exact decCount_id t i j
  · rfl
  · rfl
  · exact decCount_id t i j

omit [Fintype ι] [DecidableEq ι] in
theorem igetFound_id (t : Tables ι) (st : List Seg) (empty i j : Fin 32) : (igetFound t st empty i).1.id j = t.id j := by
  have hset := setInode_id (t := t) (i := i)
    (x := { t.inode i with count := ((t.inode i).count + 1) % 65536 }) ⟨rfl, rfl⟩ j
  unfold igetFound
  dsimp only
  split <;> exact hset

omit [Fintype ι] [DecidableEq ι] in
/-- Only `get_empty_inode`, `free_inode` and the end of `iget` change which inode an entry holds. -/
theorem goOn_id {p : ι} {st' : List Seg} (h : goOn p t st q = some (t', st')) (hq : q ≠ .freeInode j) (hne : t'.id j ≠ t.id j) :
    (q = .emptyWait j ∧ (t.inode j).count = 0 ∧ (t.inode j).dirt = false ∧ t.lock j = none) ∨
      ∃ dev nr k, q = .igetLoop j dev nr k := by
  have hother : ∀ {k : Fin 32} {x : Inode}, j ≠ k → (t.setInode k x).id j = t.id j := fun hjk => by
    unfold Tables.id
    rw [setInode_inode, if_neg hjk]
  cases q with
  | emptyWait i =>
    dsimp only [goOn] at h
    split_ifs at h with hl hd hc
    · cases h
      exact absurd rfl hne
    · cases h
      exact absurd rfl hne
    · cases h
      by_cases hj : j = i
      · subst hj
        exact Or.inl ⟨rfl, not_not.mp hc, by simpa using hd, by simpa using hl⟩
      · exact absurd (hother hj) hne
  | igetLoop empty dev nr k =>
    dsimp only [goOn] at h
    split_ifs at h
    · cases h
      exact absurd rfl hne
    · cases h
      exact absurd rfl hne
    · cases h
      by_cases hj : j = empty
      · subst hj
        exact Or.inr ⟨dev, nr, k, rfl⟩
      · exact absurd (hother hj) hne
  | freeInode i =>
    have hj : j ≠ i := by
      rintro rfl
      exact hq rfl
    dsimp only [goOn] at h
    split_ifs at h
    · cases h
      exact absurd (hother hj) hne
    split at h
    · cases h
    split_ifs at h
    cases h
    exact absurd (hother hj) hne
  | iput i =>
    obtain ⟨-, rfl, -⟩ | ⟨-, rfl, -⟩ | ⟨-, rfl, -⟩ | ⟨-, h⟩ := goOn_iput h
    · have hset := setInode_id (t := t) (i := i) (x := { t.inode i with count := 0, dirt := false, pipe := false }) ⟨rfl, rfl⟩ j
      exact absurd hset hne
    · exact absurd (decCount_id t i j) hne
    · exact absurd rfl hne
    · have hid := iputRepeat_id t st i j
      rw [h] at hid
      exact absurd hid hne
  | iputAgain i =>
    dsimp only [goOn] at h
    split_ifs at h
    have hid := iputRepeat_id t st i j
    rw [Option.some.inj h] at hid
    exact absurd hid hne
  | igetWait empty dev nr i =>
    dsimp only [goOn] at h
    split_ifs at h
    · cases h
      exact absurd rfl hne
    · have hid := igetFound_id t st empty i j
      rw [Option.some.inj h] at hid
      exact absurd hid hne
  | syncInodes k =>
    dsimp only [goOn] at h
    split_ifs at h <;> cases h <;> exact absurd rfl hne
  | lockInode write i =>
    dsimp only [goOn] at h
    split_ifs at h <;> cases h <;> exact absurd rfl hne
  | getSuper write i =>
    dsimp only [goOn] at h
    split at h
    · cases h
    · split_ifs at h
      cases h
      exact absurd rfl hne
  | emptyScan =>
    dsimp only [goOn] at h
    split at h <;> cases h
    exact absurd rfl hne
  | ret i =>
    dsimp only [goOn] at h
    split at h <;> cases h <;> exact absurd rfl hne
  | brelse i | igetMounted empty k | igetEnd i =>
    cases h
    exact absurd rfl hne
  | iget dev nr | other | bread write i => cases h

/-- An entry that somebody refers to goes on holding its inode. -/
theorem Inv.id_stable {e : Event ι} (hi : Inv τ) (h : Tracked.Step τ e τ') (hrefs : τ.refs i ≠ 0)
    (hdev : (τ.σ.t.inode i).dev ≠ 0) : τ'.σ.t.id i = τ.σ.t.id i := by
  obtain ⟨hallow, hstep, -, -⟩ := h
  obtain ⟨σ', held', want'⟩ := τ'
  dsimp only at hstep ⊢
  cases hstep with
  | @place q st st' t' hs hg =>
    have hst : StackOk τ.σ.t (τ.want τ.σ.cur) (⟨[], q⟩ :: st) := hs ▸ hi.stackOk τ.σ.cur
    by_contra hne
    obtain ⟨-, hc, -, -⟩ | ⟨dev, nr, k, rfl⟩ := goOn_id hg (by rintro rfl; exact hst.1) hne
    · have hle := (hi.counts i).1
      omega
    · exact hdev hst.1.1.1
  | value hs hg => exact Prod.ext ((gotBuffer_keeps hg).2.1 i).1 ((gotBuffer_keeps hg).2.1 i).2.1
  | edit j x ho =>
    have hk : Tracked.Keeps (τ.σ.t.inode j) x := hallow.2
    exact setInode_id ⟨hk.1, hk.2.1⟩ i
  | editSuper k x ho => exact hallow.elim
  | _ => rfl

omit [DecidableEq ι] [Fintype ι] in
theorem goOn_clears {p : ι} (h : goOn p t st (.emptyWait i) = some (t', (Place.ret i).seg :: st)) :
    (t.inode i).count = 0 ∧ (t.inode i).dirt = false ∧ t.lock i = none := by
  dsimp only [goOn] at h
  split_ifs at h with hl hd hc
  · cases h
  · cases h
  · exact ⟨not_not.mp hc, by simpa using hd, by simpa using hl⟩

/-- In every run of `iget`, `iput`, `get_empty_inode` and `sync_inodes` by any number of processes: no
    two entries hold one inode; an entry that somebody refers to goes on holding its inode;
    `get_empty_inode` clears only an entry that is free, clean and unlocked; and `iget` returns an entry
    with the inode asked for, or with the root of the file system mounted on it. -/
theorem inode_cache_identity (h : (idSystem ι).Reachable τ) :
    τ.σ.t.Unique ∧
    (∀ e τ', Tracked.Step τ e τ' → ∀ i, τ.refs i ≠ 0 → (τ.σ.t.inode i).dev ≠ 0 → τ'.σ.t.id i = τ.σ.t.id i) ∧
    (∀ τ' i st, Tracked.Step τ .place τ' → τ.σ.stack τ.σ.cur = (Place.emptyWait i).seg :: st →
      τ'.σ.stack τ.σ.cur = (Place.ret i).seg :: st →
      (τ.σ.t.inode i).count = 0 ∧ (τ.σ.t.inode i).dirt = false ∧ τ.σ.t.lock i = none) ∧
    ∀ p i bufs st y, τ.σ.stack p = (Place.ret i).seg :: ⟨bufs, .other⟩ :: st → τ.want p = some y →
      τ.σ.t.Follows y (τ.σ.t.id i) := by
  have hi := Inv.reachable h
  refine ⟨hi.unique, fun e τ' hs i hrefs hdev => hi.id_stable hs hrefs hdev, fun τ' i st hstep hs hs' => ?_,
    fun p i bufs st y hs hw => ?_⟩
  · obtain ⟨-, hstep, -, -⟩ := hstep
    obtain ⟨σ', held', want'⟩ := τ'
    dsimp only at hstep hs'
    cases hstep with
    | place hs₁ hg =>
      cases hs.symm.trans hs₁
      rw [show ({ τ.σ.setTop _ with t := _ } : Sys ι).stack τ.σ.cur = _ from Function.update_self ..] at hs'
      rw [hs'] at hg
      exact goOn_clears hg
  · have hst := hi.stackOk p
    rw [hs, hw] at hst
    obtain ⟨y', hy, hf⟩ := hst.2.1 _ rfl nofun
    cases hy
    exact hf

/-- One process, which holds inode 5 of device 769. -/
def holder : Tracked Unit where
  σ := {
    c := bufferInit 1 (fun _ => ⟨0, 0, false, false, 0, false, fun _ => 0⟩) (fun _ _ _ => 0) fun _ => true
    t := ⟨Function.update (fun _ => Inode.zero) 0 ⟨fun _ => 1, 769, 5, 1, false, false, false⟩, fun _ => none,
      fun _ => ⟨0, 0, 0, 0, none, false⟩, 0⟩
    stack := fun _ => [⟨[.work []], .other⟩]
    cur := () }
  held _ i := if i = 0 then 1 else 0
  want _ := none

theorem holder_initial : holder.Initial where
  stack _ := rfl
  lock _ := rfl
  counts := by decide +kernel
  unique := by
    unfold Tables.Unique
    decide +kernel
  pipe := by decide +kernel
  mounts := nofun

omit [Fintype ι] in
theorem place_step {st' : List Seg} (hs : τ.σ.stack τ.σ.cur = ⟨[], q⟩ :: st) (hfit : Tracked.PlaceFits τ.σ.t q)
    (hg : goOn τ.σ.cur τ.σ.t st q = some (t', st')) :
    Tracked.Step τ .place { τ with σ := { τ.σ.setTop st' with t := t' }, held := τ.heldAfter .place } := by
  refine ⟨fun q' st₁ hs' => ?_, .place hs hg, rfl, rfl⟩
  cases hs.symm.trans hs'
  exact hfit

/-- The holder asks for the inode again. -/
theorem inode_cache_identity_of_holder : ∃ τ : Tracked Unit, τ.σ.stack () = [(Place.ret 0).seg, ⟨[.work []], .other⟩] ∧
    τ.want () = some (769, 5) ∧ τ.σ.t.Follows (769, 5) (τ.σ.t.id 0) ∧ τ.σ.t.Unique := by
  have hcall : Tracked.Step holder (.call (.iget 769 5)) (holder.called (.iget 769 5)) :=
    ⟨trivial, .call (.iget 769 5) ⟨[], [], [], rfl, rfl⟩ nofun, rfl, rfl⟩
  have h1 : (idSystem Unit).Reachable (holder.called (.iget 769 5)) := .step (.init holder_initial) hcall
  have h2 := h1.step (place_step rfl trivial rfl)
  have h3 := h2.step (place_step rfl trivial rfl)
  have h4 := h3.step (place_step rfl trivial rfl)
  have h5 := h4.step (place_step rfl trivial rfl)
  have h6 := h5.step (place_step rfl (show 1 < 65535 by decide) rfl)
  have h7 := h6.step (place_step rfl (fun h => absurd rfl h) rfl)
  have h8 := h7.step (place_step rfl trivial rfl)
  obtain ⟨hu, -, -, hr⟩ := inode_cache_identity h8
  exact ⟨_, rfl, rfl, hr () 0 [.work []] [] (769, 5) rfl rfl, hu⟩

end Linux011.Fs.Locks
