/-
  One-way scans: lists of two strictly increasing runs, and the insertion that keeps them.
-/
import Linux011.Lib.Sizes
import Mathlib.Data.List.Pairwise
import Mathlib.Data.List.Perm.Basic
import Mathlib.Order.Defs.Unbundled
import Mathlib.Tactic.Common

namespace Linux011.Lib

variable {α : Type*} (r : α → α → Prop)

/-- At most two runs, each strictly increasing. -/
def TwoRuns (l : List α) : Prop := ∃ a b, l = a ++ b ∧ a.Pairwise r ∧ b.Pairwise r

section
variable {r} {l : List α}

namespace TwoRuns

theorem tail {a : α} (h : TwoRuns r (a :: l)) : TwoRuns r l := by
  obtain ⟨s, t, hl, hs, ht⟩ := h
  cases s with
  | nil =>
    cases t with
    | nil => cases hl
    | cons b t =>
      cases hl
      exact ⟨l, [], (List.append_nil l).symm, (List.pairwise_cons.mp ht).2, List.Pairwise.nil⟩
  | cons b s =>
    cases hl
    exact ⟨s, t, rfl, (List.pairwise_cons.mp hs).2, ht⟩

theorem imp {r' : α → α → Prop} (h : TwoRuns r l) (hr : ∀ a ∈ l, ∀ b ∈ l, r a b → r' a b) :
    TwoRuns r' l := by
  obtain ⟨s, t, rfl, hs, ht⟩ := h
  refine ⟨s, t, rfl, hs.imp_of_mem fun ha hb => ?_, ht.imp_of_mem fun ha hb => ?_⟩
  · exact hr _ (List.mem_append_left _ ha) _ (List.mem_append_left _ hb)
  · exact hr _ (List.mem_append_right _ ha) _ (List.mem_append_right _ hb)

/-- Where the order breaks, the second run starts. -/
theorem wrap {a b : α} (h : TwoRuns r (a :: b :: l)) (hab : ¬ r a b) : (b :: l).Pairwise r := by
  obtain ⟨s, t, hl, hs, ht⟩ := h
  cases s with
  | nil =>
    rw [List.nil_append] at hl
    rw [← hl] at ht
    exact absurd ((List.pairwise_cons.mp ht).1 b List.mem_cons_self) hab
  | cons c s =>
    cases s with
    | nil =>
      cases hl
      exact ht
    | cons d s =>
      cases hl
      exact absurd ((List.pairwise_cons.mp hs).1 b List.mem_cons_self) hab

variable [IsTrans α r]

theorem pairwise_cons_cons {a b : α} (hab : r a b) (h : (b :: l).Pairwise r) :
    (a :: b :: l).Pairwise r := by
  refine List.pairwise_cons.mpr ⟨fun c hc => ?_, h⟩
  rcases List.mem_cons.mp hc with rfl | hc
  · exact hab
  · exact Trans.trans hab ((List.pairwise_cons.mp h).1 c hc)

theorem cons {a b : α} (h : TwoRuns r (b :: l)) (hab : r a b) : TwoRuns r (a :: b :: l) := by
  obtain ⟨s, t, hl, hs, ht⟩ := h
  cases s with
  | nil =>
    rw [List.nil_append] at hl
    rw [← hl] at ht
    exact ⟨a :: b :: l, [], (List.append_nil _).symm, pairwise_cons_cons hab ht, List.Pairwise.nil⟩
  | cons c s =>
    cases hl
    exact ⟨a :: b :: s, t, rfl, pairwise_cons_cons hab hs, ht⟩

end TwoRuns

end

variable [DecidableRel r]

/-- The new element goes behind the first node from which on it is in order, or at the end; the
    first element stays in front. -/
def elevate (x : α) : List α → List α
  | [] => [x]
  | [a] => [a, x]
  | a :: b :: l => if (r a x ∨ ¬ r a b) ∧ r x b then a :: x :: b :: l else a :: elevate x (b :: l)

variable {r} {x : α} {l : List α}

theorem elevate_cons_cons (x a b : α) (l : List α) : elevate r x (a :: b :: l) =
    if (r a x ∨ ¬ r a b) ∧ r x b then a :: x :: b :: l else a :: elevate r x (b :: l) := rfl

/-- The old elements keep their order, and the first one its place. -/
theorem elevate_split (x : α) (l : List α) :
    ∃ s t, l = s ++ t ∧ elevate r x l = s ++ x :: t ∧ (l ≠ [] → s ≠ []) := by
  induction l with
  | nil => exact ⟨[], [], rfl, rfl, fun h => absurd rfl h⟩
  | cons a l ih =>
    cases l with
    | nil => exact ⟨[a], [], rfl, rfl, fun _ => List.cons_ne_nil _ _⟩
    | cons b l =>
      by_cases h : (r a x ∨ ¬ r a b) ∧ r x b
      · exact ⟨[a], b :: l, rfl, by rw [elevate_cons_cons, if_pos h]; rfl, fun _ => List.cons_ne_nil _ _⟩
      · obtain ⟨s, t, hs, ht, -⟩ := ih
        refine ⟨a :: s, t, by rw [hs]; rfl, ?_, fun _ => List.cons_ne_nil _ _⟩
        rw [elevate_cons_cons, if_neg h, ht]
        rfl

theorem elevate_congr {r' : α → α → Prop} [DecidableRel r'] (h : ∀ a b, r a b ↔ r' a b) :
    elevate r x l = elevate r' x l := by
  induction l with
  | nil => rfl
  | cons a l ih =>
    cases l with
    | nil => rfl
    | cons b l => simp only [elevate_cons_cons, h, ih]

theorem mem_elevate {a : α} : a ∈ elevate r x l ↔ a = x ∨ a ∈ l := by
  obtain ⟨s, t, hs, ht, -⟩ := elevate_split (r := r) x l
  rw [ht, hs]
  simp only [List.mem_append, List.mem_cons]
  tauto

/-- No early element stands behind a late one. -/
def EarlyFirst (late : α → Prop) (l : List α) : Prop := l.Pairwise fun a b => late a → late b

/-- The search for the place of `x` ends at the first late element behind the head, or in front
    of it. -/
def EndsEarly (r : α → α → Prop) (late : α → Prop) (x : α) : List α → Prop
  | a :: b :: l => (r a x ∨ ¬ r a b) ∧ r x b ∨ ¬ late b ∧ EndsEarly r late x (b :: l)
  | _ => True

omit [DecidableRel r] in
theorem endsEarly_cons_cons (late : α → Prop) (x a b : α) (l : List α) : EndsEarly r late x (a :: b :: l) ↔
    (r a x ∨ ¬ r a b) ∧ r x b ∨ ¬ late b ∧ EndsEarly r late x (b :: l) := Iff.rfl

/-- When all that is above a late element is late, an early element finds a place in front of the
    late ones exactly if its search ends before them. -/
theorem elevate_earlyFirst (late : α → Prop) (hup : ∀ a b, r a b → late a → late b) (a : α) (h : EarlyFirst late l) :
    EarlyFirst late (elevate r x (a :: l)).tail ↔ late x ∨ EndsEarly r late x (a :: l) := by
  induction l generalizing a with
  | nil => exact ⟨fun _ => .inr trivial, fun _ => List.pairwise_singleton _ _⟩
  | cons b l ih =>
    obtain ⟨hb, hl⟩ := List.pairwise_cons.mp h
    rw [elevate_cons_cons, endsEarly_cons_cons]
    split_ifs with hif
    · refine ⟨fun _ => .inr (.inl hif), fun _ => List.pairwise_cons.mpr ⟨fun c hc hx => ?_, h⟩⟩
      have hlate : late b := hup x b hif.2 hx
      rcases List.mem_cons.mp hc with rfl | hc
      · exact hlate
      · exact hb c hc hlate
    · obtain ⟨s, t, hst, hs, hne⟩ := elevate_split (r := r) x (b :: l)
      cases s with
      | nil => exact absurd rfl (hne (List.cons_ne_nil _ _))
      | cons c s =>
        obtain ⟨rfl, rfl⟩ := List.cons.inj hst
        have hrest := ih b hl
        rw [hs] at hrest
        rw [List.tail_cons, hs]
        refine ⟨fun he => ?_, fun hend => List.pairwise_cons.mpr ⟨fun c hc hlate => ?_, hrest.mpr ?_⟩⟩
        · obtain ⟨hbs, hes⟩ := List.pairwise_cons.mp he
          by_cases hx : late x
          · exact .inl hx
          · refine .inr (.inr ⟨fun hlate => hx ?_, (hrest.mp hes).resolve_left hx⟩)
            exact hbs x (List.mem_append_right _ List.mem_cons_self) hlate
        · obtain hx | hif' | ⟨hnot, -⟩ := hend
          · rcases List.mem_append.mp hc with hc | hc
            · exact hb c (List.mem_append_left _ hc) hlate
            · rcases List.mem_cons.mp hc with rfl | hc
              · exact hx
              · exact hb c (List.mem_append_right _ hc) hlate
          · exact absurd hif' hif
          · exact absurd hlate hnot
        · obtain hx | hif' | ⟨-, hend⟩ := hend
          · exact .inl hx
          · exact absurd hif' hif
          · exact .inr hend

variable [IsTrans α r]

/-- Without ties the search ends in time exactly if the head is below `x`, or the order breaks on
    the way from the head to the first late element `w`. -/
theorem endsEarly_iff (late : α → Prop) {s t : List α} {w : α} (hs : ∀ b ∈ s, ¬ late b) (hw : late w) (hxw : r x w)
    (hx : ∀ b ∈ s, r b x ∨ r x b) (a : α) :
    EndsEarly r late x (a :: (s ++ w :: t)) ↔ r a x ∨ ¬ (a :: (s ++ [w])).IsChain r := by
  induction s generalizing a with
  | nil =>
    rw [List.nil_append, endsEarly_cons_cons]
    simp [hw, hxw]
  | cons b s ih =>
    have hb := hs b List.mem_cons_self
    have hrest := ih (fun c hc => hs c (List.mem_cons_of_mem b hc)) (fun c hc => hx c (List.mem_cons_of_mem b hc)) b
    have htrans : r a b → r b x → r a x := fun h h' => Trans.trans h h'
    rw [List.cons_append, List.cons_append, endsEarly_cons_cons, hrest, List.isChain_cons_cons]
    constructor
    · rintro (⟨hax | hab, -⟩ | ⟨-, hbx | hc⟩)
      · exact .inl hax
      · exact .inr fun h => hab h.1
      · exact (em (r a b)).imp (htrans · hbx) fun hab h => hab h.1
      · exact .inr fun h => hc h.2
    · intro h
      obtain hbx | hxb := hx b List.mem_cons_self
      · exact .inr ⟨hb, .inl hbx⟩
      · by_cases hc : (b :: (s ++ [w])).IsChain r
        · exact .inl ⟨h.imp_right fun h0 hab => h0 ⟨hab, hc⟩, hxb⟩
        · exact .inr ⟨hb, .inr hc⟩

/-- Insertion into one run, above its first element. -/
theorem elevate_pairwise {a : α} (h : (a :: l).Pairwise r) (hax : r a x)
    (hx : ∀ b ∈ l, r b x ∨ r x b) : (elevate r x (a :: l)).Pairwise r := by
  induction l generalizing a with
  | nil => exact TwoRuns.pairwise_cons_cons hax (List.pairwise_singleton _ _)
  | cons b l ih =>
    have hl := (List.pairwise_cons.mp h).2
    have hab := (List.pairwise_cons.mp h).1 b List.mem_cons_self
    by_cases hxb : r x b
    · rw [elevate_cons_cons, if_pos ⟨Or.inl hax, hxb⟩]
      exact TwoRuns.pairwise_cons_cons hax (TwoRuns.pairwise_cons_cons hxb hl)
    · have hbx : r b x := (hx b List.mem_cons_self).resolve_right hxb
      have hrest := ih hl hbx fun c hc => hx c (List.mem_cons_of_mem _ hc)
      rw [elevate_cons_cons, if_neg fun hc => hxb hc.2]
      refine List.pairwise_cons.mpr ⟨fun c hc => ?_, hrest⟩
      rcases mem_elevate.mp hc with rfl | hc
      · exact hax
      · exact (List.pairwise_cons.mp h).1 c hc

/-- Insertion keeps two runs: into the first run, at the wrap point, into the second, or at the
    end. -/
theorem TwoRuns.elevate (h : TwoRuns r l) (hx : ∀ b ∈ l, r b x ∨ r x b) :
    TwoRuns r (elevate r x l) := by
  induction l with
  | nil => exact ⟨[x], [], rfl, List.pairwise_singleton _ _, List.Pairwise.nil⟩
  | cons a l ih =>
    cases l with
    | nil => exact ⟨[a], [x], rfl, List.pairwise_singleton _ _, List.pairwise_singleton _ _⟩
    | cons b l =>
      have hx' : ∀ c ∈ b :: l, r c x ∨ r x c := fun c hc => hx c (List.mem_cons_of_mem _ hc)
      rw [elevate_cons_cons]
      split_ifs with hif
      · obtain ⟨hax, hxb⟩ := hif
        by_cases hab : r a b
        · have hax : r a x := hax.resolve_right (not_not.mpr hab)
          exact (h.tail.cons hxb).cons hax
        · exact ⟨[a], x :: b :: l, rfl, List.pairwise_singleton _ _,
            pairwise_cons_cons hxb (h.wrap hab)⟩
      · by_cases hab : r a b
        · have hrest := ih h.tail hx'
          obtain ⟨s, t, hs, ht, hne⟩ := elevate_split (r := r) x (b :: l)
          cases s with
          | nil => exact absurd rfl (hne (List.cons_ne_nil _ _))
          | cons c s =>
            cases hs
            rw [ht] at hrest ⊢
            exact hrest.cons hab
        · have hbx : r b x :=
            (hx' b List.mem_cons_self).resolve_right fun hxb => hif ⟨Or.inr hab, hxb⟩
          exact ⟨[a], _, rfl, List.pairwise_singleton _ _, elevate_pairwise (h.wrap hab) hbx
            fun c hc => hx' c (List.mem_cons_of_mem _ hc)⟩

end Linux011.Lib
