/-
  The reference graph of the page frames: who points to a frame, and how often.

  `View` keeps of the memory only what the accounting needs: the count of each frame, the page
  directory, the page-table entry of each slot `(d, i)` (directory slot, index in its table) and
  the set of frames some piece of kernel code holds. `RefInv` is the invariant: the count of
  every managed frame is the number of references to it, a page table or a kernel-held frame has
  exactly one reference, and a frame that is mapped writable is mapped once. Each lemma below is
  one elementary change of the graph; every function of memory.c is a sequence of them.
-/
import Mathlib.Order.Interval.Finset.Nat
import Linux011.Lib.Count
import Linux011.Mm.Memory

namespace Linux011.Mm

open Linux011.Lib

/-- Directory slots outside the four kernel identity tables. -/
def UserDir (d : Nat) : Prop := 4 ≤ d ∧ d < 1024

instance (d : Nat) : Decidable (UserDir d) := inferInstanceAs (Decidable (_ ∧ _))

def userDirs : Finset Nat := Finset.Ico 4 1024

theorem mem_userDirs {d : Nat} : d ∈ userDirs ↔ UserDir d := by
  simp [userDirs, UserDir]

/-- Entry slots of the tables outside the four kernel identity tables. -/
def userSlots : Finset (Nat × Nat) := Finset.Ico 4 1024 ×ˢ Finset.range 1024

theorem mem_userSlots {x : Nat × Nat} : x ∈ userSlots ↔ UserDir x.1 ∧ x.2 < 1024 := by
  simp [userSlots, UserDir]

-- otherwise `decide` and `rfl` try to list the slots
attribute [irreducible] userDirs userSlots

structure View where
  cnt : Nat → Nat
  dir : Nat → Entry
  pte : Nat × Nat → Entry
  own : Finset Nat

namespace View

/-- Slot `x` holds a present entry for frame `f`. -/
def Maps (V : View) (f : Nat) (x : Nat × Nat) : Prop :=
  (V.pte x).present = true ∧ (V.pte x).frame = f

instance (V : View) (f : Nat) : DecidablePred (V.Maps f) :=
  fun _ => inferInstanceAs (Decidable (_ ∧ _))

/-- Directory slot `d` holds a present entry whose table is frame `f`. -/
def Tables (V : View) (f d : Nat) : Prop := (V.dir d).present = true ∧ (V.dir d).frame = f

instance (V : View) (f : Nat) : DecidablePred (V.Tables f) :=
  fun _ => inferInstanceAs (Decidable (_ ∧ _))

/-- Present page-table entries for frame `f`. -/
def pteRefs (V : View) (f : Nat) : Nat := (userSlots.filter (V.Maps f)).card

/-- Present directory entries whose table is frame `f`. -/
def dirRefs (V : View) (f : Nat) : Nat := (userDirs.filter (V.Tables f)).card

/-- Kernel owners of frame `f`. -/
def ownRefs (V : View) (f : Nat) : Nat := if f ∈ V.own then 1 else 0

/-- All references to frame `f`. -/
def refs (V : View) (f : Nat) : Nat := V.pteRefs f + V.dirRefs f + V.ownRefs f

end View

/-- The invariant of the reference graph, for managed frames `lo ≤ f < hi`. -/
structure RefInv (lo hi : Nat) (V : View) : Prop where
  dirRange : ∀ d, UserDir d → (V.dir d).present → lo ≤ (V.dir d).frame ∧ (V.dir d).frame < hi
  dirInj : ∀ d d', UserDir d → UserDir d' → (V.dir d).present → (V.dir d').present →
    (V.dir d).frame = (V.dir d').frame → d = d'
  dirPte : ∀ d, UserDir d → (V.dir d).present → ∀ x ∈ userSlots, (V.pte x).present →
    (V.pte x).frame ≠ (V.dir d).frame
  dirOwn : ∀ d, UserDir d → (V.dir d).present → (V.dir d).frame ∉ V.own
  pteDir : ∀ x ∈ userSlots, (V.pte x).present → (V.dir x.1).present
  pteRange : ∀ x ∈ userSlots, (V.pte x).present →
    (lo ≤ (V.pte x).frame ∧ (V.pte x).frame < hi) ∨
      ((V.pte x).frame < 256 ∧ (V.pte x).rw = false)
  sameOff : ∀ x ∈ userSlots, ∀ y ∈ userSlots, (V.pte x).present → (V.pte y).present →
    (V.pte x).frame = (V.pte y).frame → 256 ≤ (V.pte x).frame → x.2 = y.2 ∧ x.1 % 16 = y.1 % 16
  cow : ∀ x ∈ userSlots, ∀ y ∈ userSlots, (V.pte x).present → (V.pte x).rw →
    256 ≤ (V.pte x).frame → (V.pte y).present → (V.pte y).frame = (V.pte x).frame → y = x
  ownRange : ∀ f ∈ V.own, lo ≤ f ∧ f < hi
  ownPte : ∀ f ∈ V.own, ∀ x ∈ userSlots, (V.pte x).present → (V.pte x).frame ≠ f
  acct : ∀ f, lo ≤ f → f < hi → V.cnt f = V.refs f
  usedOut : ∀ f, 256 ≤ f → f < 4096 → ¬ (lo ≤ f ∧ f < hi) → V.cnt f = used

/-! ## Counting -/

namespace View

variable (V : View)

/-- The graph with entry `e` in slot `x`. -/
def setPte (x : Nat × Nat) (e : Entry) : View := { V with pte := Function.update V.pte x e }

/-- The graph with entry `e` in directory slot `d`. -/
def setDir (d : Nat) (e : Entry) : View := { V with dir := Function.update V.dir d e }

/-- The graph with count `n` for frame `f`. -/
def setCnt (f n : Nat) : View := { V with cnt := Function.update V.cnt f n }

/-- The graph in which the kernel also holds frame `f`. -/
def take (f : Nat) : View := { V with own := insert f V.own }

/-- The graph in which the kernel no longer holds frame `f`. -/
def drop (f : Nat) : View := { V with own := V.own.erase f }

@[simp] theorem setPte_cnt (x e) : (V.setPte x e).cnt = V.cnt := rfl
@[simp] theorem setPte_dir (x e) : (V.setPte x e).dir = V.dir := rfl
@[simp] theorem setPte_own (x e) : (V.setPte x e).own = V.own := rfl
@[simp] theorem setDir_cnt (d e) : (V.setDir d e).cnt = V.cnt := rfl
@[simp] theorem setDir_pte (d e) : (V.setDir d e).pte = V.pte := rfl
@[simp] theorem setDir_own (d e) : (V.setDir d e).own = V.own := rfl
@[simp] theorem setCnt_dir (f n) : (V.setCnt f n).dir = V.dir := rfl
@[simp] theorem setCnt_pte (f n) : (V.setCnt f n).pte = V.pte := rfl
@[simp] theorem setCnt_own (f n) : (V.setCnt f n).own = V.own := rfl
@[simp] theorem take_cnt (f) : (V.take f).cnt = V.cnt := rfl
@[simp] theorem take_dir (f) : (V.take f).dir = V.dir := rfl
@[simp] theorem take_pte (f) : (V.take f).pte = V.pte := rfl
@[simp] theorem drop_cnt (f) : (V.drop f).cnt = V.cnt := rfl
@[simp] theorem drop_dir (f) : (V.drop f).dir = V.dir := rfl
@[simp] theorem drop_pte (f) : (V.drop f).pte = V.pte := rfl

theorem setPte_pte (x y e) : (V.setPte x e).pte y = if y = x then e else V.pte y := by
  simp [setPte, Function.update_apply]

theorem setDir_dir (d d' e) : (V.setDir d e).dir d' = if d' = d then e else V.dir d' := by
  simp [setDir, Function.update_apply]

theorem setCnt_cnt (f g n) : (V.setCnt f n).cnt g = if g = f then n else V.cnt g := by
  simp [setCnt, Function.update_apply]

theorem mem_take (f g) : g ∈ (V.take f).own ↔ g = f ∨ g ∈ V.own := by simp [take]

theorem mem_drop (f g) : g ∈ (V.drop f).own ↔ g ≠ f ∧ g ∈ V.own := by simp [drop]

@[simp] theorem refs_setCnt (f n g) : (V.setCnt f n).refs g = V.refs g := rfl

theorem refs_setPte {x : Nat × Nat} (hx : x ∈ userSlots) (e : Entry) (f : Nat) :
    (V.setPte x e).refs f + (if V.Maps f x then 1 else 0) =
      V.refs f + (if e.present = true ∧ e.frame = f then 1 else 0) := by
  have hagree : ∀ y ∈ userSlots, y ≠ x → (V.Maps f y ↔ (V.setPte x e).Maps f y) := by
    intro y _ hne
    simp [Maps, setPte_pte, hne]
  have hcard := card_filter_agree hx hagree
  have hat : (V.setPte x e).Maps f x ↔ e.present = true ∧ e.frame = f := by
    simp [Maps, setPte_pte]
  simp only [hat] at hcard
  have hpte : (V.setPte x e).pteRefs f + (if V.Maps f x then 1 else 0) =
      V.pteRefs f + (if e.present = true ∧ e.frame = f then 1 else 0) := hcard
  have hd : (V.setPte x e).dirRefs f = V.dirRefs f := rfl
  have ho : (V.setPte x e).ownRefs f = V.ownRefs f := rfl
  simp only [refs]
  omega

theorem refs_setDir {d : Nat} (hd : UserDir d) (e : Entry) (f : Nat) :
    (V.setDir d e).refs f + (if V.Tables f d then 1 else 0) =
      V.refs f + (if e.present = true ∧ e.frame = f then 1 else 0) := by
  have hmem : d ∈ userDirs := mem_userDirs.mpr hd
  have hagree : ∀ d' ∈ userDirs, d' ≠ d →
      (V.Tables f d' ↔ (V.setDir d e).Tables f d') := by
    intro d' _ hne
    simp [Tables, setDir_dir, hne]
  have hcard := card_filter_agree hmem hagree
  have hat : (V.setDir d e).Tables f d ↔ e.present = true ∧ e.frame = f := by
    simp [Tables, setDir_dir]
  simp only [hat] at hcard
  have hdir : (V.setDir d e).dirRefs f + (if V.Tables f d then 1 else 0) =
      V.dirRefs f + (if e.present = true ∧ e.frame = f then 1 else 0) := hcard
  have hp : (V.setDir d e).pteRefs f = V.pteRefs f := rfl
  have ho : (V.setDir d e).ownRefs f = V.ownRefs f := rfl
  simp only [refs]
  omega

theorem refs_take {f : Nat} (hf : f ∉ V.own) (g : Nat) :
    (V.take f).refs g = V.refs g + (if g = f then 1 else 0) := by
  have hp : (V.take f).pteRefs g = V.pteRefs g := rfl
  have hd : (V.take f).dirRefs g = V.dirRefs g := rfl
  have ho : (V.take f).ownRefs g = V.ownRefs g + (if g = f then 1 else 0) := by
    by_cases hg : g = f
    · subst hg; simp [ownRefs, mem_take, hf]
    · simp [ownRefs, mem_take, hg]
  simp only [refs]
  omega

theorem refs_drop {f : Nat} (hf : f ∈ V.own) (g : Nat) :
    (V.drop f).refs g + (if g = f then 1 else 0) = V.refs g := by
  have hp : (V.drop f).pteRefs g = V.pteRefs g := rfl
  have hd : (V.drop f).dirRefs g = V.dirRefs g := rfl
  have ho : (V.drop f).ownRefs g + (if g = f then 1 else 0) = V.ownRefs g := by
    by_cases hg : g = f
    · subst hg; simp [ownRefs, mem_drop, hf]
    · simp [ownRefs, mem_drop, hg]
  simp only [refs]
  omega

variable {V}

theorem refs_pos_of_pte {f : Nat} {x : Nat × Nat} (hx : x ∈ userSlots) (h : V.Maps f x) :
    0 < V.refs f := by
  have : 0 < V.pteRefs f := Finset.card_pos.mpr ⟨x, Finset.mem_filter.mpr ⟨hx, h⟩⟩
  simp only [refs]
  omega

theorem refs_pos_of_dir {f d : Nat} (hd : UserDir d) (h : V.Tables f d) : 0 < V.refs f := by
  have : 0 < V.dirRefs f :=
    Finset.card_pos.mpr ⟨d, Finset.mem_filter.mpr ⟨mem_userDirs.mpr hd, h⟩⟩
  simp only [refs]
  omega

theorem refs_pos_of_own {f : Nat} (h : f ∈ V.own) : 0 < V.refs f := by
  simp only [refs, ownRefs, h, if_true]
  omega

end View

/-! ## Consequences -/

namespace RefInv

variable {lo hi : Nat} {V : View}

/-- A managed frame with count 0 has no reference of any kind. -/
theorem free_refs (h : RefInv lo hi V) {f : Nat} (h1 : lo ≤ f) (h2 : f < hi)
    (h0 : V.cnt f = 0) :
    (∀ x ∈ userSlots, ¬ V.Maps f x) ∧ (∀ d, UserDir d → ¬ V.Tables f d) ∧ f ∉ V.own := by
  have hr : V.refs f = 0 := by rw [← h.acct f h1 h2, h0]
  refine ⟨fun x hx hm => ?_, fun d hd hm => ?_, fun hm => ?_⟩
  · have := V.refs_pos_of_pte hx hm; omega
  · have := V.refs_pos_of_dir hd hm; omega
  · have := V.refs_pos_of_own hm; omega

/-- The entries that map one frame sit at one offset of different tasks, so there are at most
    64 of them. -/
theorem pteRefs_le (h : RefInv lo hi V) {f : Nat} (hf : 256 ≤ f) : V.pteRefs f ≤ 64 := by
  apply card_filter_le_of_key (fun x => x.1 / 16)
  · intro x hx _
    have := (mem_userSlots.mp hx).1.2
    omega
  · intro x hx y hy hmx hmy hk
    have hoff := h.sameOff x hx y hy hmx.1 hmy.1 (hmx.2.trans hmy.2.symm) (hmx.2 ▸ hf)
    have h1 : x.1 = y.1 := by
      have := Nat.div_add_mod x.1 16
      have := Nat.div_add_mod y.1 16
      omega
    exact Prod.ext h1 hoff.1

theorem dirRefs_le (h : RefInv lo hi V) (f : Nat) : V.dirRefs f ≤ 1 := by
  apply card_filter_le_of_key (fun _ => 0)
  · intro _ _ _; omega
  · intro d hd d' hd' hm hm' _
    exact h.dirInj d d' (mem_userDirs.mp hd) (mem_userDirs.mp hd') hm.1 hm'.1
      (hm.2.trans hm'.2.symm)

/-- No frame has more than 66 references, so the `unsigned char` counter has room. -/
theorem refs_le (h : RefInv lo hi V) {f : Nat} (hf : 256 ≤ f) : V.refs f ≤ 66 := by
  have h1 := h.pteRefs_le hf
  have h2 := h.dirRefs_le f
  have h3 : V.ownRefs f ≤ 1 := by unfold View.ownRefs; split <;> omega
  simp only [View.refs]
  omega

/-- A mapped managed frame whose count is 1 is mapped by one slot only. -/
theorem unique_of_cnt_one (h : RefInv lo hi V) {x y : Nat × Nat} (hx : x ∈ userSlots)
    (hy : y ∈ userSlots) (hpx : (V.pte x).present) (hpy : (V.pte y).present)
    (heq : (V.pte y).frame = (V.pte x).frame) (hlo : lo ≤ (V.pte x).frame)
    (hhi : (V.pte x).frame < hi) (h1 : V.cnt (V.pte x).frame = 1) : y = x := by
  by_contra hne
  have hsub : ({x, y} : Finset (Nat × Nat)) ⊆ userSlots.filter (V.Maps (V.pte x).frame) := by
    intro z hz
    rcases Finset.mem_insert.mp hz with rfl | hz
    · exact Finset.mem_filter.mpr ⟨hx, hpx, rfl⟩
    · rw [Finset.mem_singleton.mp hz]
      exact Finset.mem_filter.mpr ⟨hy, hpy, heq⟩
  have hcard := Finset.card_le_card hsub
  rw [Finset.card_pair (Ne.symm hne)] at hcard
  have hacct := h.acct _ hlo hhi
  have : V.pteRefs (V.pte x).frame ≤ V.refs (V.pte x).frame := by simp only [View.refs]; omega
  have : 2 ≤ V.pteRefs (V.pte x).frame := hcard
  omega

/-! ## Elementary changes -/

/-- `get_free_page`: a frame with count 0 gets an owner. -/
theorem alloc (h : RefInv lo hi V) {f : Nat} (h1 : lo ≤ f) (h2 : f < hi) (h0 : V.cnt f = 0) :
    RefInv lo hi ((V.setCnt f 1).take f) := by
  obtain ⟨hpte, hdir, hown⟩ := h.free_refs h1 h2 h0
  refine { h with dirOwn := ?_, ownRange := ?_, ownPte := ?_, acct := ?_, usedOut := ?_ }
  · intro d hd hp hm
    rcases (View.mem_take _ _ _).mp hm with he | hm
    · exact hdir d hd ⟨hp, he⟩
    · exact h.dirOwn d hd hp hm
  · intro g hg
    rcases (View.mem_take _ _ _).mp hg with rfl | hg
    · exact ⟨h1, h2⟩
    · exact h.ownRange g hg
  · intro g hg x hx hp he
    rcases (View.mem_take _ _ _).mp hg with rfl | hg
    · exact hpte x hx ⟨hp, he⟩
    · exact h.ownPte g hg x hx hp he
  · intro g hg1 hg2
    have := h.acct g hg1 hg2
    rw [View.refs_take (V.setCnt f 1) hown, View.refs_setCnt, View.take_cnt, View.setCnt_cnt]
    split <;> simp_all
  · intro g hg1 hg2 hg3
    rw [View.take_cnt, View.setCnt_cnt, if_neg (by omega)]
    exact h.usedOut g hg1 hg2 hg3

/-- `free_page` by the owner. -/
theorem release (h : RefInv lo hi V) {f : Nat} (hf : f ∈ V.own) :
    RefInv lo hi ((V.setCnt f (V.cnt f - 1)).drop f) := by
  have hr := h.ownRange f hf
  have hsub : ∀ g, g ∈ ((V.setCnt f (V.cnt f - 1)).drop f).own → g ∈ V.own :=
    fun g hg => ((View.mem_drop _ _ _).mp hg).2
  refine { h with dirOwn := ?_, ownRange := ?_, ownPte := ?_, acct := ?_, usedOut := ?_ }
  · exact fun d hd hp hm => h.dirOwn d hd hp (hsub _ hm)
  · exact fun g hg => h.ownRange g (hsub g hg)
  · exact fun g hg => h.ownPte g (hsub g hg)
  · intro g hg1 hg2
    have hg := h.acct g hg1 hg2
    have hd := (V.setCnt f (V.cnt f - 1)).refs_drop hf g
    rw [View.refs_setCnt] at hd
    rw [View.drop_cnt, View.setCnt_cnt]
    by_cases he : g = f
    · subst he; simp only [if_true] at hd ⊢; omega
    · simp only [he, if_false] at hd ⊢; omega
  · intro g hg1 hg2 hg3
    rw [View.drop_cnt, View.setCnt_cnt, if_neg (by rintro rfl; exact hg3 hr)]
    exact h.usedOut g hg1 hg2 hg3

/-- An owned (cleared) page becomes the table of an empty directory slot. -/
theorem install (h : RefInv lo hi V) {d f : Nat} (hd : UserDir d) (hp : (V.dir d).present = false)
    (hf : f ∈ V.own) : RefInv lo hi ((V.setDir d (Entry.seven f)).drop f) := by
  have hdir : ∀ d', ((V.setDir d (Entry.seven f)).drop f).dir d' =
      if d' = d then Entry.seven f else V.dir d' := fun d' => V.setDir_dir d d' _
  have hown : ∀ g, g ∈ ((V.setDir d (Entry.seven f)).drop f).own ↔ g ≠ f ∧ g ∈ V.own :=
    fun g => View.mem_drop _ _ _
  refine { h with dirRange := ?_, dirInj := ?_, dirPte := ?_, dirOwn := ?_, pteDir := ?_,
                  ownRange := ?_, ownPte := ?_, acct := ?_ }
  · intro d' hd' hp'
    rw [hdir] at hp' ⊢
    split_ifs at hp' ⊢
    · exact h.ownRange f hf
    · exact h.dirRange d' hd' hp'
  · intro d1 d2 hd1 hd2 hp1 hp2 he
    rw [hdir] at hp1 hp2
    rw [hdir, hdir] at he
    split_ifs at hp1 hp2 he with e1 e2 e2
    · rw [e1, e2]
    · exact absurd (show (V.dir d2).frame ∈ V.own from he ▸ hf) (h.dirOwn d2 hd2 hp2)
    · exact absurd (show (V.dir d1).frame ∈ V.own from he ▸ hf) (h.dirOwn d1 hd1 hp1)
    · exact h.dirInj d1 d2 hd1 hd2 hp1 hp2 he
  · intro d' hd' hp' x hx hpx
    rw [hdir] at hp' ⊢
    split_ifs at hp' ⊢
    · exact h.ownPte f hf x hx hpx
    · exact h.dirPte d' hd' hp' x hx hpx
  · intro d' hd' hp' hm
    rw [hdir] at hp' hm
    have hm' := (hown _).mp hm
    split_ifs at hp' hm'
    · exact hm'.1 rfl
    · exact h.dirOwn d' hd' hp' hm'.2
  · intro x hx hpx
    rw [hdir]
    split_ifs
    · rfl
    · exact h.pteDir x hx hpx
  · exact fun g hg => h.ownRange g ((hown g).mp hg).2
  · exact fun g hg => h.ownPte g ((hown g).mp hg).2
  · intro g hg1 hg2
    have hg := h.acct g hg1 hg2
    have h1 := (V.setDir d (Entry.seven f)).refs_drop hf g
    have h2 := V.refs_setDir hd (Entry.seven f) g
    have h3 : ¬ V.Tables g d := by simp [View.Tables, hp]
    rw [if_neg h3] at h2
    rw [View.drop_cnt, View.setDir_cnt]
    by_cases he : g = f
    · subst he
      simp only [Entry.seven_present, Entry.seven_frame, and_self, if_true] at h1 h2
      omega
    · simp only [Entry.seven_present, Entry.seven_frame, true_and, he, Ne.symm he, if_false] at h1 h2
      omega

/-- A table without present entries is freed and its directory slot cleared. -/
theorem uninstall (h : RefInv lo hi V) {d : Nat} (hd : UserDir d) (hp : (V.dir d).present)
    (hempty : ∀ i < 1024, (V.pte (d, i)).present = false) :
    RefInv lo hi ((V.setCnt (V.dir d).frame (V.cnt (V.dir d).frame - 1)).setDir d Entry.zero) := by
  set W := V.setCnt (V.dir d).frame (V.cnt (V.dir d).frame - 1) with hW
  have hdir : ∀ d', (W.setDir d Entry.zero).dir d' = if d' = d then Entry.zero else V.dir d' :=
    fun d' => W.setDir_dir d d' _
  have hr := h.dirRange d hd hp
  refine { h with dirRange := ?_, dirInj := ?_, dirPte := ?_, dirOwn := ?_, pteDir := ?_,
                  acct := ?_, usedOut := ?_ }
  · intro d' hd' hp'
    rw [hdir] at hp' ⊢
    split_ifs at hp' ⊢
    · cases hp'
    · exact h.dirRange d' hd' hp'
  · intro d1 d2 hd1 hd2 hp1 hp2 he
    rw [hdir] at hp1 hp2
    rw [hdir, hdir] at he
    split_ifs at hp1 hp2 he
    · cases hp1
    · cases hp1
    · cases hp2
    · exact h.dirInj d1 d2 hd1 hd2 hp1 hp2 he
  · intro d' hd' hp' x hx hpx
    rw [hdir] at hp' ⊢
    split_ifs at hp' ⊢
    · cases hp'
    · exact h.dirPte d' hd' hp' x hx hpx
  · intro d' hd' hp'
    rw [hdir] at hp' ⊢
    split_ifs at hp' ⊢
    · cases hp'
    · exact h.dirOwn d' hd' hp'
  · intro x hx hpx
    rw [hdir]
    split_ifs with he
    · have hx2 := (mem_userSlots.mp hx).2
      have := hempty x.2 hx2
      rw [← he] at this
      have hpx' : (V.pte x).present = true := hpx
      rw [this] at hpx'
      cases hpx'
    · exact h.pteDir x hx hpx
  · intro g hg1 hg2
    have hg := h.acct g hg1 hg2
    have h1 := W.refs_setDir hd Entry.zero g
    have h2 : W.Tables g d ↔ (V.dir d).frame = g := by
      constructor
      · exact fun ht => ht.2
      · exact fun he => ⟨hp, he⟩
    simp only [h2, Entry.zero_present, Bool.false_eq_true, false_and, if_false, add_zero] at h1
    have h3 : W.refs g = V.refs g := rfl
    have h4 : (W.setDir d Entry.zero).cnt g =
        if g = (V.dir d).frame then V.cnt (V.dir d).frame - 1 else V.cnt g := V.setCnt_cnt _ _ _
    rw [h4]
    by_cases he : g = (V.dir d).frame
    · rw [if_pos he, ← he]
      rw [if_pos he.symm] at h1
      omega
    · rw [if_neg he]
      rw [if_neg (Ne.symm he)] at h1
      omega
  · intro g hg1 hg2 hg3
    have h4 : (W.setDir d Entry.zero).cnt g =
        if g = (V.dir d).frame then V.cnt (V.dir d).frame - 1 else V.cnt g := V.setCnt_cnt _ _ _
    rw [h4, if_neg (by rintro rfl; exact hg3 hr)]
    exact h.usedOut g hg1 hg2 hg3

/-- The invariant after slot `x` got entry `e`, from what a present `e` has to satisfy. -/
theorem changePte (h : RefInv lo hi V) {W : View} {x : Nat × Nat} {e : Entry}
    (hdir : W.dir = V.dir) (hpte : W.pte = Function.update V.pte x e)
    (hown : ∀ g ∈ W.own, g ∈ V.own)
    (hacct : ∀ f, lo ≤ f → f < hi → W.cnt f = W.refs f)
    (hused : ∀ f, 256 ≤ f → f < 4096 → ¬ (lo ≤ f ∧ f < hi) → W.cnt f = used)
    (htab : e.present → (V.dir x.1).present)
    (hrange : e.present → (lo ≤ e.frame ∧ e.frame < hi) ∨ (e.frame < 256 ∧ e.rw = false))
    (hexcl : e.present → e.frame ∉ W.own ∧
      ∀ d, UserDir d → (V.dir d).present → e.frame ≠ (V.dir d).frame)
    (hshare : e.present → 256 ≤ e.frame → ∀ y ∈ userSlots, y ≠ x → (V.pte y).present →
      (V.pte y).frame = e.frame →
        (x.2 = y.2 ∧ x.1 % 16 = y.1 % 16) ∧ e.rw = false ∧ (V.pte y).rw = false) :
    RefInv lo hi W := by
  have hat : ∀ y, W.pte y = if y = x then e else V.pte y := by
    intro y; rw [hpte, Function.update_apply]
  refine ⟨?_, ?_, ?_, ?_, ?_, ?_, ?_, ?_, ?_, ?_, hacct, hused⟩
  · rw [hdir]; exact h.dirRange
  · rw [hdir]; exact h.dirInj
  · intro d hd hp y hy hpy
    rw [hdir] at hp ⊢
    rw [hat] at hpy ⊢
    split_ifs at hpy ⊢
    · exact (hexcl hpy).2 d hd hp
    · exact h.dirPte d hd hp y hy hpy
  · intro d hd hp hm
    rw [hdir] at hp hm
    exact h.dirOwn d hd hp (hown _ hm)
  · intro y hy hpy
    rw [hdir]
    rw [hat] at hpy
    split_ifs at hpy with he
    · rw [he]; exact htab hpy
    · exact h.pteDir y hy hpy
  · intro y hy hpy
    rw [hat] at hpy ⊢
    split_ifs at hpy ⊢
    · exact hrange hpy
    · exact h.pteRange y hy hpy
  · intro y hy z hz hpy hpz he hf
    rw [hat] at hpy hpz hf
    rw [hat, hat] at he
    split_ifs at hpy hpz hf he with e1 e2 e2
    · rw [e1, e2]; exact ⟨rfl, rfl⟩
    · rw [e1]; exact (hshare hpy hf z hz e2 hpz he.symm).1
    · have hs := (hshare hpz (he ▸ hf) y hy e1 hpy he).1
      rw [e2]; exact ⟨hs.1.symm, hs.2.symm⟩
    · exact h.sameOff y hy z hz hpy hpz he hf
  · intro y hy z hz hpy hrw hf hpz he
    rw [hat] at hpy hrw hf hpz
    rw [hat, hat] at he
    split_ifs at hpy hrw hf hpz he with e1 e2 e2
    · rw [e1, e2]
    · have hs := (hshare hpy hf z hz e2 hpz he).2.1
      rw [hs] at hrw; cases hrw
    · have hs := (hshare hpz (he ▸ hf) y hy e1 hpy he.symm).2.2
      rw [hs] at hrw; cases hrw
    · exact h.cow y hy z hz hpy hrw hf hpz he
  · exact fun g hg => h.ownRange g (hown g hg)
  · intro g hg y hy hpy he
    rw [hat] at hpy he
    split_ifs at hpy he
    · exact (hexcl hpy).1 (he ▸ hg)
    · exact h.ownPte g (hown g hg) y hy hpy he

/-- `put_page`: an owned page is mapped in an empty slot of an existing table. -/
theorem map (h : RefInv lo hi V) {x : Nat × Nat} {f : Nat} (hx : x ∈ userSlots)
    (htab : (V.dir x.1).present) (hp : (V.pte x).present = false) (hf : f ∈ V.own) :
    RefInv lo hi ((V.setPte x (Entry.seven f)).drop f) := by
  have hr := h.ownRange f hf
  refine h.changePte (x := x) (e := Entry.seven f) rfl rfl ?_ ?_ h.usedOut (fun _ => htab)
    (fun _ => Or.inl hr) ?_ ?_
  · exact fun g hg => ((View.mem_drop _ _ _).mp hg).2
  · intro g hg1 hg2
    have hg := h.acct g hg1 hg2
    have h1 := (V.setPte x (Entry.seven f)).refs_drop hf g
    have h2 := V.refs_setPte hx (Entry.seven f) g
    rw [if_neg (by simp [View.Maps, hp] : ¬ V.Maps g x)] at h2
    simp only [Entry.seven_present, Entry.seven_frame, true_and] at h2
    rw [View.drop_cnt, View.setPte_cnt]
    by_cases he : g = f
    · subst he; simp only [if_true] at h1 h2; omega
    · simp only [he, Ne.symm he, if_false] at h1 h2; omega
  · intro _
    refine ⟨fun hm => ((View.mem_drop _ _ _).mp hm).1 rfl, fun d hd hpd he => ?_⟩
    exact h.dirOwn d hd hpd (he ▸ hf)
  · intro _ _ y hy _ hpy he
    exact absurd he (h.ownPte f hf y hy hpy)

/-- A present entry for a managed frame is cleared and the frame's count drops. -/
theorem unmap (h : RefInv lo hi V) {x : Nat × Nat} (hx : x ∈ userSlots)
    (hp : (V.pte x).present) (h1 : lo ≤ (V.pte x).frame) (h2 : (V.pte x).frame < hi) :
    RefInv lo hi
      ((V.setCnt (V.pte x).frame (V.cnt (V.pte x).frame - 1)).setPte x Entry.zero) := by
  set W := V.setCnt (V.pte x).frame (V.cnt (V.pte x).frame - 1)
  have hc : ∀ g, (W.setPte x Entry.zero).cnt g =
      if g = (V.pte x).frame then V.cnt (V.pte x).frame - 1 else V.cnt g :=
    fun g => V.setCnt_cnt _ _ _
  refine h.changePte (x := x) (e := Entry.zero) rfl rfl (fun _ hg => hg) ?_ ?_
    (fun hz => nomatch hz) (fun hz => nomatch hz) (fun hz => nomatch hz) (fun hz => nomatch hz)
  · intro g hg1 hg2
    have hg := h.acct g hg1 hg2
    have hs := W.refs_setPte hx Entry.zero g
    have hm : W.Maps g x ↔ (V.pte x).frame = g := ⟨fun hm => hm.2, fun he => ⟨hp, he⟩⟩
    have hw : W.refs g = V.refs g := rfl
    simp only [hm, Entry.zero_present, Bool.false_eq_true, false_and, if_false] at hs
    rw [hc]
    by_cases he : g = (V.pte x).frame
    · rw [if_pos he, ← he]; rw [if_pos he.symm] at hs; omega
    · rw [if_neg he]; rw [if_neg (Ne.symm he)] at hs; omega
  · intro g hg1 hg2 hg3
    rw [hc, if_neg (by rintro rfl; exact hg3 ⟨h1, h2⟩)]
    exact h.usedOut g hg1 hg2 hg3

/-- An entry that counts for no managed frame is replaced by another one. -/
theorem replaceLow (h : RefInv lo hi V) (hlo : 256 ≤ lo) {x : Nat × Nat} {e : Entry}
    (hx : x ∈ userSlots) (hold : (V.pte x).present → (V.pte x).frame < 256)
    (htab : e.present → (V.dir x.1).present)
    (hnew : e.present → e.frame < 256 ∧ e.rw = false) :
    RefInv lo hi (V.setPte x e) := by
  refine h.changePte (x := x) (e := e) rfl rfl (fun _ hg => hg) ?_ h.usedOut htab
    (fun hp => Or.inr (hnew hp)) ?_ ?_
  · intro g hg1 hg2
    have hg := h.acct g hg1 hg2
    have hs := V.refs_setPte hx e g
    have hm : ¬ V.Maps g x := fun hm => by have := hold hm.1; have := hm.2; omega
    have hn : ¬ (e.present = true ∧ e.frame = g) := fun hn => by have := hnew hn.1; omega
    rw [if_neg hm, if_neg hn] at hs
    rw [View.setPte_cnt]
    omega
  · intro hp
    have := (hnew hp).1
    refine ⟨fun hm => ?_, fun d hd hpd he => ?_⟩
    · have := h.ownRange _ hm; omega
    · have := h.dirRange d hd hpd; omega
  · intro hp hf
    have := (hnew hp).1
    omega

/-- Flags of a present entry change; R/W may be set only where the count is 1. -/
theorem retag (h : RefInv lo hi V) (hlo : 256 ≤ lo) {x : Nat × Nat} {e : Entry} (hx : x ∈ userSlots)
    (hp : (V.pte x).present) (hep : e.present = true) (hef : e.frame = (V.pte x).frame)
    (hrw : e.rw → (V.pte x).rw ∨
      (lo ≤ e.frame ∧ e.frame < hi ∧ V.cnt e.frame = 1)) :
    RefInv lo hi (V.setPte x e) := by
  refine h.changePte (x := x) (e := e) rfl rfl (fun _ hg => hg) ?_ h.usedOut
    (fun _ => h.pteDir x hx hp) ?_ ?_ ?_
  · intro g hg1 hg2
    have hg := h.acct g hg1 hg2
    have hs := V.refs_setPte hx e g
    have hm : V.Maps g x ↔ (e.present = true ∧ e.frame = g) := by
      simp [View.Maps, hp, hep, hef]
    simp only [hm] at hs
    rw [View.setPte_cnt]
    omega
  · intro _
    rcases h.pteRange x hx hp with hr | hr
    · exact Or.inl (hef ▸ hr)
    · refine Or.inr ⟨hef ▸ hr.1, ?_⟩
      cases hew : e.rw with
      | false => rfl
      | true =>
        rcases hrw hew with hw | hw
        · rw [hr.2] at hw; cases hw
        · have := hr.1
          omega
  · intro _
    refine ⟨fun hm => ?_, fun d hd hpd he => ?_⟩
    · exact h.ownPte _ hm x hx hp hef.symm
    · exact h.dirPte d hd hpd x hx hp (hef ▸ he)
  · intro _ hf y hy hne hpy he
    have hne' : ¬ (V.pte x).rw = true := fun hw =>
      hne (h.cow x hx y hy hp hw (hef ▸ hf) hpy (he.trans hef))
    refine ⟨h.sameOff x hx y hy hp hpy (hef ▸ he.symm) (hef ▸ hf), ?_, ?_⟩
    · cases hew : e.rw with
      | false => rfl
      | true =>
        rcases hrw hew with hw | hw
        · exact absurd hw hne'
        · exact absurd (h.unique_of_cnt_one hx hy hp hpy (he.trans hef) (hef ▸ hw.1)
            (hef ▸ hw.2.1) (hef ▸ hw.2.2)) hne
    · cases hyw : (V.pte y).rw with
      | false => rfl
      | true =>
        exact absurd (h.cow y hy x hx hpy hyw (he ▸ hf) hp (hef ▸ he.symm)) (Ne.symm hne)

/-- A write-protected entry is copied to the same offset of another task, and the count
    grows. -/
theorem share (h : RefInv lo hi V) {x y : Nat × Nat} {e : Entry}
    (hx : x ∈ userSlots) (hy : y ∈ userSlots) (hpx : (V.pte x).present)
    (hrx : (V.pte x).rw = false) (h1 : lo ≤ (V.pte x).frame) (h2 : (V.pte x).frame < hi)
    (htab : (V.dir y.1).present) (hpy : (V.pte y).present = false)
    (hoff : y.2 = x.2 ∧ y.1 % 16 = x.1 % 16) (hef : e.frame = (V.pte x).frame)
    (hep : e.present = true) (her : e.rw = false) :
    RefInv lo hi
      ((V.setCnt (V.pte x).frame (V.cnt (V.pte x).frame + 1)).setPte y e) := by
  set W := V.setCnt (V.pte x).frame (V.cnt (V.pte x).frame + 1)
  have hc : ∀ g, (W.setPte y e).cnt g =
      if g = (V.pte x).frame then V.cnt (V.pte x).frame + 1 else V.cnt g :=
    fun g => V.setCnt_cnt _ _ _
  refine h.changePte (x := y) (e := e) rfl rfl (fun _ hg => hg) ?_ ?_
    (fun _ => htab) (fun _ => Or.inl (hef ▸ ⟨h1, h2⟩)) ?_ ?_
  · intro g hg1 hg2
    have hg := h.acct g hg1 hg2
    have hs := W.refs_setPte hy e g
    have hm : ¬ W.Maps g y := fun hm => by
      have : (V.pte y).present = true := hm.1
      rw [hpy] at this; cases this
    have hw : W.refs g = V.refs g := rfl
    rw [if_neg hm] at hs
    simp only [hep, true_and, hef] at hs
    rw [hc]
    by_cases he : g = (V.pte x).frame
    · rw [if_pos he, ← he]; rw [if_pos he.symm] at hs; omega
    · rw [if_neg he]; rw [if_neg (Ne.symm he)] at hs; omega
  · intro g hg1 hg2 hg3
    rw [hc, if_neg (by rintro rfl; exact hg3 ⟨h1, h2⟩)]
    exact h.usedOut g hg1 hg2 hg3
  · intro _
    refine ⟨fun hm => ?_, fun d hd hpd he => ?_⟩
    · exact h.ownPte _ hm x hx hpx hef.symm
    · exact h.dirPte d hd hpd x hx hpx (hef ▸ he)
  · intro _ hf z hz hne hpz he
    have hxz := h.sameOff x hx z hz hpx hpz (hef ▸ he.symm) (by omega)
    refine ⟨⟨hoff.1.trans hxz.1, hoff.2.trans hxz.2⟩, her, ?_⟩
    cases hzw : (V.pte z).rw with
    | false => rfl
    | true =>
      have hzx := h.cow z hz x hx hpz hzw (he ▸ hf) hpx (hef ▸ he.symm)
      rw [← hzx, hrx] at hzw
      cases hzw

/-- The invariant looks at the counts of the map, the directory slots and the entry slots
    only. -/
theorem congr (h : RefInv lo hi V) {W : View} (hhi : hi ≤ 4096) (hlo : 256 ≤ lo)
    (hcnt : ∀ f, 256 ≤ f → f < 4096 → W.cnt f = V.cnt f)
    (hdir : ∀ d, UserDir d → W.dir d = V.dir d)
    (hpte : ∀ x ∈ userSlots, W.pte x = V.pte x) (hown : W.own = V.own) : RefInv lo hi W := by
  have hrefs : ∀ f, W.refs f = V.refs f := by
    intro f
    have h1 : W.pteRefs f = V.pteRefs f := by
      refine congrArg Finset.card (Finset.filter_congr ?_)
      intro x hx
      simp only [View.Maps, hpte x hx]
    have h2 : W.dirRefs f = V.dirRefs f := by
      refine congrArg Finset.card (Finset.filter_congr ?_)
      intro d hd
      simp only [View.Tables, hdir d (mem_userDirs.mp hd)]
    simp only [View.refs, h1, h2, View.ownRefs, hown]
  constructor
  · intro d hd; rw [hdir d hd]; exact h.dirRange d hd
  · intro d d' hd hd'; rw [hdir d hd, hdir d' hd']; exact h.dirInj d d' hd hd'
  · intro d hd hp x hx
    rw [hdir d hd] at hp ⊢
    rw [hpte x hx]
    exact h.dirPte d hd hp x hx
  · intro d hd; rw [hdir d hd, hown]; exact h.dirOwn d hd
  · intro x hx
    rw [hpte x hx, hdir x.1 (mem_userSlots.mp hx).1]
    exact h.pteDir x hx
  · intro x hx; rw [hpte x hx]; exact h.pteRange x hx
  · intro x hx y hy; rw [hpte x hx, hpte y hy]; exact h.sameOff x hx y hy
  · intro x hx y hy; rw [hpte x hx, hpte y hy]; exact h.cow x hx y hy
  · rw [hown]; exact h.ownRange
  · intro f hf x hx
    rw [hown] at hf
    rw [hpte x hx]
    exact h.ownPte f hf x hx
  · intro f h1 h2
    rw [hrefs, hcnt f (by omega) (by omega)]
    exact h.acct f h1 h2
  · intro f h1 h2
    rw [hcnt f h1 h2]
    exact h.usedOut f h1 h2

end RefInv

end Linux011.Mm
