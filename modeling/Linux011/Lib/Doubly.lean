/-
  Doubly linked nodes: a `next` and a `prev` pointer for every node. A list that ends with NULL
  on both sides and a ring are both chains of links; a node is unlinked from them, and put
  between two neighbours, by the same four stores.
-/
import Linux011.Lib.Linked
import Mathlib.Data.List.Chain
import Mathlib.Data.List.Nodup
import Mathlib.Data.Nat.Notation
import Mathlib.Logic.Function.Basic
import Mathlib.Tactic.Common

namespace Linux011.Lib

variable {α : Type*} [DecidableEq α] {next prev : α → Option α}

/-- `p->f = v`. Nothing is stored through NULL. -/
def setAt {β : Type*} (f : α → β) (p : Option α) (v : β) : α → β :=
  p.elim f fun a => Function.update f a v

theorem setAt_self {β : Type*} (f : α → β) (a : α) (v : β) : setAt f (some a) v a = v := Function.update_self ..

theorem setAt_of_ne {β : Type*} {f : α → β} {p : Option α} {v : β} {a : α} (h : p ≠ some a) : setAt f p v a = f a := by
  cases p with
  | none => rfl
  | some b => exact Function.update_of_ne (fun hab => h (congrArg some hab.symm)) ..

/-- `v` comes next to `u`: the pointers between the two, of those that are nodes. -/
structure Link (next prev : α → Option α) (u v : Option α) : Prop where
  next : ∀ a, u = some a → next a = v
  prev : ∀ a, v = some a → prev a = u

/-- A chain stays one if the relation stays between its members, the last one apart on the left and
    the first one on the right. -/
theorem isChain_imp {γ : Type*} {R S : γ → γ → Prop} {l : List γ}
    (h : ∀ a ∈ l.dropLast, ∀ b ∈ l.tail, R a b → S a b) (hl : l.IsChain R) : l.IsChain S := by
  refine List.isChain_iff_forall_rel_of_append_cons_cons.mpr fun a b s t hst => ?_
  refine h a ?_ b ?_ (List.isChain_iff_forall_rel_of_append_cons_cons.mp hl hst)
  · rw [hst, List.dropLast_append_of_ne_nil (List.cons_ne_nil _ _), List.dropLast_cons_of_ne_nil (List.cons_ne_nil _ _)]
    exact List.mem_append_right _ List.mem_cons_self
  · rw [hst]
    cases s with
    | nil => exact List.mem_cons_self
    | cons c s => exact List.mem_append_right _ (List.mem_cons_of_mem _ List.mem_cons_self)

/-- Stores to the `next` of `w` and the `prev` of `z` leave the other links. -/
theorem Link.setAt {u v w z : Option α} {x y : Option α} (h : Link next prev u v) (hu : u ≠ w) (hv : v ≠ z) :
    Link (setAt next w x) (setAt prev z y) u v where
  next a ha := (setAt_of_ne fun hw => hu (ha.trans hw.symm)).trans (h.next a ha)
  prev a ha := (setAt_of_ne fun hz => hv (ha.trans hz.symm)).trans (h.prev a ha)

/-- The links of a node that is not in the chain do not count. -/
theorem Link.update {u v : Option α} {x : α} {y z : Option α} (h : Link next prev u v) (hu : u ≠ some x) (hv : v ≠ some x) :
    Link (Function.update next x y) (Function.update prev x z) u v := h.setAt (w := some x) (z := some x) hu hv

/-- The two parts of a chain keep their links when only those between them change. -/
theorem isChain_parts {P Q : List (Option α)} {w z x y : Option α} (hP : P.IsChain (Link next prev)) (hQ : Q.IsChain (Link next prev))
    (hw : P.getLast? = some w) (hz : Q.head? = some z) (hd : (P ++ Q).dropLast.Nodup) (ht : (P ++ Q).tail.Nodup) :
    P.IsChain (Link (setAt next w x) (setAt prev z y)) ∧ Q.IsChain (Link (setAt next w x) (setAt prev z y)) := by
  obtain ⟨P, rfl⟩ := List.getLast?_eq_some_iff.mp hw
  obtain ⟨Q, rfl⟩ := List.head?_eq_some_iff.mp hz
  rw [List.dropLast_append_of_ne_nil (List.cons_ne_nil _ _), List.append_assoc] at hd
  rw [List.tail_append_of_ne_nil (List.append_ne_nil_of_right_ne_nil _ (List.cons_ne_nil _ _))] at ht
  obtain ⟨-, hd2, hd3⟩ := List.nodup_append.mp hd
  obtain ⟨-, ht2, ht3⟩ := List.nodup_append.mp ht
  constructor
  · refine isChain_imp (fun u hu v hv h => h.setAt ?_ (ht3 v hv z List.mem_cons_self)) hP
    rw [List.dropLast_concat] at hu
    exact hd3 u hu w (List.mem_append_left _ (List.mem_singleton_self w))
  · refine isChain_imp (fun u hu v hv h => h.setAt ?_ ?_) hQ
    · exact fun heq => (List.nodup_cons.mp hd2).1 (heq ▸ hu)
    · exact fun heq => (List.nodup_cons.mp ht2).1 (heq ▸ hv)

/-- `x->prev->next = x->next; x->next->prev = x->prev` takes `x` out of the chain. -/
theorem unlink {P Q : List (Option α)} {x : α} (h : (P ++ some x :: Q).IsChain (Link next prev)) (hP : P ≠ []) (hQ : Q ≠ [])
    (hd : (P ++ Q).dropLast.Nodup) (ht : (P ++ Q).tail.Nodup) :
    (P ++ Q).IsChain (Link (setAt next (prev x) (next x)) (setAt prev (next x) (prev x))) := by
  obtain ⟨w, hw⟩ := Option.isSome_iff_exists.mp (List.getLast?_isSome.mpr hP)
  obtain ⟨z, hz⟩ := Option.isSome_iff_exists.mp (List.isSome_head?.mpr hQ)
  obtain ⟨hPx, hxQ⟩ := List.isChain_split.mp h
  obtain ⟨hPc, -, hlast⟩ := List.isChain_append.mp hPx
  obtain ⟨hfirst, hQc⟩ := List.isChain_cons.mp hxQ
  have hprev : prev x = w := (hlast w hw (some x) rfl).prev x rfl
  have hnext : next x = z := (hfirst z hz).next x rfl
  rw [hprev, hnext]
  obtain ⟨hP', hQ'⟩ := isChain_parts (x := z) (y := w) hPc hQc hw hz hd ht
  refine List.isChain_append.mpr ⟨hP', hQ', fun u hu v hv => ?_⟩
  obtain rfl : w = u := Option.some.inj (hw.symm.trans hu)
  obtain rfl : z = v := Option.some.inj (hz.symm.trans hv)
  exact ⟨fun a ha => ha ▸ setAt_self .., fun a ha => ha ▸ setAt_self ..⟩

/-- `x->next = z; x->prev = w; w->next = x; z->prev = x` puts `x` between two neighbours. -/
theorem link {P Q : List (Option α)} {w z : Option α} {x : α} (h : (P ++ Q).IsChain (Link next prev)) (hw : P.getLast? = some w)
    (hz : Q.head? = some z) (hd : (P ++ Q).dropLast.Nodup) (ht : (P ++ Q).tail.Nodup) (hx : some x ∉ P ++ Q) :
    (P ++ some x :: Q).IsChain (Link (setAt (Function.update next x z) w (some x)) (setAt (Function.update prev x w) z (some x))) := by
  have hwP : w ∈ P := List.mem_of_getLast? hw
  have hzQ : z ∈ Q := List.mem_of_head? hz
  have hxw : w ≠ some x := fun he => hx (List.mem_append_left _ (he ▸ hwP))
  have hxz : z ≠ some x := fun he => hx (List.mem_append_right _ (he ▸ hzQ))
  obtain ⟨hPc, hQc, -⟩ := List.isChain_append.mp h
  have hfree : ∀ l : List (Option α), (∀ u ∈ l, u ∈ P ++ Q) → l.IsChain (Link next prev) →
      l.IsChain (Link (Function.update next x z) (Function.update prev x w)) := fun l hl hc =>
    hc.imp_of_mem_imp fun u v hu hv huv => huv.update (fun he => hx (he ▸ hl u hu)) fun he => hx (he ▸ hl v hv)
  obtain ⟨hP', hQ'⟩ := isChain_parts (x := some x) (y := some x) (hfree P (fun u => List.mem_append_left _) hPc)
    (hfree Q (fun u => List.mem_append_right _) hQc) hw hz hd ht
  refine List.isChain_append.mpr ⟨hP', List.isChain_cons.mpr ⟨fun v hv => ?_, hQ'⟩, fun u hu v hv => ?_⟩
  · obtain rfl : z = v := Option.some.inj (hz.symm.trans hv)
    exact ⟨fun a ha => Option.some.inj ha ▸ (setAt_of_ne hxw).trans (Function.update_self ..), fun a ha => ha ▸ setAt_self ..⟩
  · obtain rfl : w = u := Option.some.inj (hw.symm.trans hu)
    obtain rfl : some x = v := Option.some.inj hv
    exact ⟨fun a ha => ha ▸ setAt_self .., fun a ha => Option.some.inj ha ▸ (setAt_of_ne hxz).trans (Function.update_self ..)⟩



/-! ## Lists -/

/-- From `p` on the pointers lead through the nodes of the list, with NULL at both ends. -/
structure IsDoubly (next prev : α → Option α) (p : Option α) (l : List α) : Prop where
  head : l.head? = p
  links : (none :: (l.map some ++ [none])).IsChain (Link next prev)

omit [DecidableEq α] in
theorem isLinked_of_links {u : Option α} {l : List α} (h : (u :: (l.map some ++ [none])).IsChain (Link next prev)) :
    IsLinked next l.head? l := by
  induction l generalizing u with
  | nil => rfl
  | cons a l ih =>
    obtain ⟨-, h⟩ := List.isChain_cons_cons.mp h
    refine ⟨rfl, ?_⟩
    have hnext : next a = l.head? := by
      cases l with
      | nil => exact (List.isChain_cons_cons.mp h).1.next a rfl
      | cons b l => exact (List.isChain_cons_cons.mp h).1.next a rfl
    rw [hnext]
    exact ih h

namespace IsDoubly

variable {next' prev' : α → Option α} {p : Option α} {l : List α} {x : α}

omit [DecidableEq α] in
theorem isLinked (h : IsDoubly next prev p l) : IsLinked next p l := h.head ▸ isLinked_of_links h.links

omit [DecidableEq α] in
/-- Only the pointers of the nodes count. -/
theorem congr (h : IsDoubly next prev p l) (hn : ∀ a ∈ l, next' a = next a) (hp : ∀ a ∈ l, prev' a = prev a) :
    IsDoubly next' prev' p l := by
  refine ⟨h.head, h.links.imp_of_mem_imp fun u v hu hv huv => ?_⟩
  have hmem : ∀ a, some a ∈ (none :: (l.map some ++ [none])) → a ∈ l := fun a ha => by simpa using ha
  exact ⟨fun a ha => (hn a (hmem a (ha ▸ hu))).trans (huv.next a ha), fun a ha => (hp a (hmem a (ha ▸ hv))).trans (huv.prev a ha)⟩

omit [DecidableEq α] in
/-- The list around a node, and what its pointers lead to. -/
theorem around (h : IsDoubly next prev p l) (hx : x ∈ l) : ∃ s t, l = s ++ x :: t ∧ x ∉ s ∧ x ∉ t ∧
    ((none :: s.map some) ++ some x :: (t.map some ++ [none])).IsChain (Link next prev) ∧
    (∀ b, next x = some b → b ∈ t) ∧ ∀ b, prev x = some b → b ∈ s := by
  obtain ⟨s, t, rfl⟩ := List.append_of_mem hx
  obtain ⟨-, hxt, hst⟩ := List.nodup_append.mp h.isLinked.nodup
  have hlinks := h.links
  rw [List.map_append, List.map_cons, List.append_assoc, List.cons_append, ← List.cons_append] at hlinks
  obtain ⟨hs, ht⟩ := List.isChain_split.mp hlinks
  refine ⟨s, t, rfl, fun hm => hst x hm x List.mem_cons_self rfl, (List.nodup_cons.mp hxt).1, hlinks, fun b hb => ?_, fun b hb => ?_⟩
  · obtain ⟨v, hv⟩ := Option.isSome_iff_exists.mp
      (List.isSome_head?.mpr (List.append_ne_nil_of_right_ne_nil (t.map some) (List.cons_ne_nil none [])))
    have hbv : some b = v := hb.symm.trans (((List.isChain_cons.mp ht).1 v hv).next x rfl)
    have hmem := List.mem_of_head? hv
    rw [← hbv] at hmem
    simpa using hmem
  · obtain ⟨u, hu⟩ := Option.isSome_iff_exists.mp (List.getLast?_isSome.mpr (List.cons_ne_nil none (s.map some)))
    have hbu : some b = u := hb.symm.trans (((List.isChain_append.mp hs).2.2 u hu (some x) rfl).prev x rfl)
    have hmem := List.mem_of_getLast? hu
    rw [← hbu] at hmem
    simpa using hmem

/-- The neighbours of a node are other nodes. -/
theorem neighbours (h : IsDoubly next prev p l) (hx : x ∈ l) :
    (∀ b, next x = some b → b ∈ l.erase x) ∧ ∀ b, prev x = some b → b ∈ l.erase x := by
  obtain ⟨s, t, rfl, hxs, -, -, hn, hp⟩ := h.around hx
  rw [List.erase_append_right _ hxs, List.erase_cons_head]
  exact ⟨fun b hb => List.mem_append_right _ (hn b hb), fun b hb => List.mem_append_left _ (hp b hb)⟩

omit [DecidableEq α] in
/-- The nodes and the two ends, as sources and as targets of links. -/
theorem ends_nodup (h : l.Nodup) : (none :: (l.map some ++ [none])).dropLast.Nodup ∧ (none :: (l.map some ++ [none])).tail.Nodup := by
  have hmap : (l.map some).Nodup := h.map fun _ _ => Option.some.inj
  have hnone : none ∉ l.map some := fun hm => by simp at hm
  refine ⟨?_, ?_⟩
  · rw [← List.cons_append, List.dropLast_concat]
    exact List.nodup_cons.mpr ⟨hnone, hmap⟩
  · exact List.concat_eq_append ▸ hmap.concat hnone

/-- A node is taken out, with the head pointer. -/
theorem remove (h : IsDoubly next prev p l) (hx : x ∈ l) :
    IsDoubly (setAt next (prev x) (next x)) (setAt prev (next x) (prev x)) (if p = some x then next x else p) (l.erase x) := by
  have hl : l.Nodup := h.isLinked.nodup
  obtain ⟨hd, ht⟩ := ends_nodup (hl.erase x)
  obtain ⟨s, t, rfl, hxs, -, hlinks, -, -⟩ := h.around hx
  have hhead := h.head
  rw [List.erase_append_right _ hxs, List.erase_cons_head] at hd ht ⊢
  rw [List.map_append, List.append_assoc, ← List.cons_append] at hd ht
  refine ⟨?_, ?_⟩
  · cases s with
    | nil =>
      rw [if_pos (show p = some x from hhead.symm), List.nil_append]
      have hx := (List.isChain_cons_cons.mp hlinks).2
      cases t with
      | nil => exact ((List.isChain_cons_cons.mp hx).1.next x rfl).symm
      | cons b t => exact ((List.isChain_cons_cons.mp hx).1.next x rfl).symm
    | cons a s =>
      rw [if_neg fun he => hxs ?_]
      · exact hhead
      · exact Option.some.inj (hhead.trans he) ▸ List.mem_cons_self
  · rw [List.map_append, List.append_assoc, ← List.cons_append]
    exact unlink hlinks (List.cons_ne_nil _ _) (List.append_ne_nil_of_right_ne_nil _ (List.cons_ne_nil _ _)) hd ht

/-- A new node goes in front. -/
theorem push (h : IsDoubly next prev p l) (hx : x ∉ l) :
    IsDoubly (Function.update next x p) (setAt (Function.update prev x none) p (some x)) (some x) (x :: l) := by
  have hl : l.Nodup := h.isLinked.nodup
  obtain ⟨hd, ht⟩ := ends_nodup hl
  refine ⟨rfl, ?_⟩
  have hz : (l.map some ++ [none]).head? = some p := by
    rw [← h.head]
    cases l <;> rfl
  exact link (P := [none]) (w := none) h.links rfl hz hd ht fun hm => hx (by simpa using hm)

end IsDoubly

/-! ## Rings -/

/-- From `p` on the pointers lead through the nodes of the list and back. -/
def IsRing (next prev : α → Option α) (p : Option α) : List α → Prop
  | [] => False
  | a :: l => p = some a ∧ (some a :: (l.map some ++ [some a])).IsChain (Link next prev)

namespace IsRing

variable {p : Option α} {l : List α} {x a : α}

omit [DecidableEq α] in
theorem head (h : IsRing next prev p l) : l.head? = p := by
  cases l with
  | nil => exact h.elim
  | cons a l => exact h.1.symm

omit [DecidableEq α] in
/-- The same ring from its second node on. -/
theorem rotate (h : IsRing next prev p (a :: l)) (hl : l ≠ []) : IsRing next prev (next a) (l ++ [a]) := by
  cases l with
  | nil => exact absurd rfl hl
  | cons b l =>
    obtain ⟨-, h⟩ := h
    obtain ⟨hab, h⟩ := List.isChain_cons_cons.mp h
    refine ⟨hab.next a rfl, ?_⟩
    rw [List.append_eq, List.map_append, List.append_assoc]
    show ((some b :: l.map some) ++ some a :: some b :: []).IsChain _
    exact List.isChain_append_cons_cons.mpr ⟨h, hab, List.isChain_singleton _⟩

omit [DecidableEq α] in
/-- The nodes and the first one again, as sources and as targets of links. -/
theorem nodes_nodup (h : (a :: l).Nodup) :
    (some a :: (l.map some ++ [some a])).dropLast.Nodup ∧ (some a :: (l.map some ++ [some a])).tail.Nodup := by
  obtain ⟨ha, hl⟩ := List.nodup_cons.mp h
  have hmap : (l.map some).Nodup := hl.map fun _ _ => Option.some.inj
  have hsome : some a ∉ l.map some := fun hm => ha (by simpa using hm)
  refine ⟨?_, ?_⟩
  · rw [← List.cons_append, List.dropLast_concat]
    exact List.nodup_cons.mpr ⟨hsome, hmap⟩
  · exact List.concat_eq_append ▸ hmap.concat hsome

/-- A node other than the first one is taken out. -/
theorem remove_tail (h : IsRing next prev p (a :: l)) (hn : (a :: l).Nodup) (hx : x ∈ l) :
    IsRing (setAt next (prev x) (next x)) (setAt prev (next x) (prev x)) p (a :: l.erase x) := by
  obtain ⟨hp, h⟩ := h
  refine ⟨hp, ?_⟩
  obtain ⟨s, t, hst⟩ := List.append_of_mem hx
  have hl := (List.nodup_cons.mp hn).2
  have hxs : x ∉ s := fun hm => by
    rw [hst] at hl
    exact (List.nodup_append.mp hl).2.2 x hm x List.mem_cons_self rfl
  have herase : l.erase x = s ++ t := by rw [hst, List.erase_append_right _ hxs, List.erase_cons_head]
  obtain ⟨hd, ht⟩ := nodes_nodup (List.nodup_cons.mpr ⟨fun hm => (List.nodup_cons.mp hn).1 (List.mem_of_mem_erase hm), hl.erase x⟩)
  rw [herase, List.map_append, List.append_assoc, ← List.cons_append] at hd ht
  rw [hst, List.map_append, List.map_cons, List.append_assoc, List.cons_append, ← List.cons_append] at h
  rw [herase, List.map_append, List.append_assoc, ← List.cons_append]
  exact unlink h (List.cons_ne_nil _ _) (List.append_ne_nil_of_right_ne_nil _ (List.cons_ne_nil _ _)) hd ht

/-- A node is taken out of two or more, with the pointer to the first one. -/
theorem remove (h : IsRing next prev p l) (hn : l.Nodup) (hx : x ∈ l) (hl : 2 ≤ l.length) :
    IsRing (setAt next (prev x) (next x)) (setAt prev (next x) (prev x)) (if p = some x then next x else p) (l.erase x) := by
  cases l with
  | nil => exact h.elim
  | cons a l =>
    by_cases hxa : a = x
    · subst hxa
      have hne : l ≠ [] := fun he => by subst he; simp at hl
      have hrot := h.rotate hne
      rw [if_pos h.1, List.erase_cons_head]
      cases l with
      | nil => exact absurd rfl hne
      | cons b l =>
        have hperm : (b :: (l ++ [a])).Nodup := (List.perm_append_singleton a (b :: l)).nodup_iff.mpr hn
        have hrem := hrot.remove_tail (x := a) hperm (List.mem_append_right _ (List.mem_singleton_self a))
        have hal : a ∉ l := fun hm => (List.nodup_cons.mp hn).1 (List.mem_cons_of_mem _ hm)
        rwa [List.append_eq, List.erase_append_right _ hal, List.erase_cons_head, List.append_nil] at hrem
    · have hxl : x ∈ l := (List.mem_cons.mp hx).resolve_left fun he => hxa he.symm
      have hp : p ≠ some x := fun hp => hxa (Option.some.inj (h.1.symm.trans hp))
      rw [if_neg hp, List.erase_cons_tail (by simpa using hxa)]
      exact h.remove_tail hn hxl

/-- `x->next = p; x->prev = p->prev; p->prev->next = x; p->prev = x` puts a new node at the end. -/
theorem insert (h : IsRing next prev (some a) l) (hn : l.Nodup) (hx : x ∉ l) :
    IsRing (setAt (Function.update next x (some a)) (prev a) (some x))
      (Function.update (Function.update prev x (prev a)) a (some x)) (some a) (l ++ [x]) := by
  cases l with
  | nil => exact h.elim
  | cons b l =>
    obtain ⟨hab, h⟩ := h
    cases hab
    obtain ⟨hd, ht⟩ := nodes_nodup hn
    obtain ⟨w, hw⟩ := Option.isSome_iff_exists.mp (List.getLast?_isSome.mpr (List.cons_ne_nil (some a) (l.map some)))
    have hprev : prev a = w := by
      obtain ⟨-, -, hlast⟩ := List.isChain_append.mp (show ((some a :: l.map some) ++ [some a]).IsChain _ from h)
      exact (hlast w hw (some a) rfl).prev a rfl
    refine ⟨rfl, ?_⟩
    rw [List.append_eq, List.map_append, List.append_assoc, hprev]
    refine link (P := some a :: l.map some) (Q := [some a]) (z := some a) h hw rfl hd ht fun hm => hx ?_
    have hm : x = a ∨ x ∈ l ∨ x = a := by simpa using hm
    exact List.mem_cons.mpr (hm.elim Or.inl Or.symm)

omit [DecidableEq α] in
/-- Every pointer of a node leads to a node. -/
theorem neighbours (h : IsRing next prev p l) (hx : x ∈ l) : (∃ b ∈ l, next x = some b) ∧ ∃ b ∈ l, prev x = some b := by
  cases l with
  | nil => exact h.elim
  | cons a l =>
    obtain ⟨-, h⟩ := h
    have hmem : ∀ v, v ∈ (some a :: (l.map some ++ [some a])) → ∃ b ∈ a :: l, v = some b := fun v hv => by
      simp only [List.mem_cons, List.mem_append, List.mem_map, List.not_mem_nil, or_false] at hv
      obtain rfl | ⟨b, hb, rfl⟩ | rfl := hv
      · exact ⟨a, List.mem_cons_self, rfl⟩
      · exact ⟨b, List.mem_cons_of_mem _ hb, rfl⟩
      · exact ⟨a, List.mem_cons_self, rfl⟩
    obtain ⟨s, t, hst⟩ := List.append_of_mem (show some x ∈ some a :: l.map some by simpa using hx)
    rw [← List.cons_append, hst, List.append_assoc, List.cons_append] at h
    obtain ⟨hs, ht⟩ := List.isChain_split.mp h
    refine ⟨?_, ?_⟩
    · obtain ⟨v, hv⟩ := Option.isSome_iff_exists.mp (List.isSome_head?.mpr (List.append_ne_nil_of_right_ne_nil t (List.cons_ne_nil (some a) [])))
      have hnext : next x = v := ((List.isChain_cons.mp ht).1 v hv).next x rfl
      rw [hnext]
      refine hmem v ?_
      rw [← List.cons_append, hst, List.append_assoc, List.cons_append]
      exact List.mem_append_right _ (List.mem_cons_of_mem _ (List.mem_of_head? hv))
    · cases s with
      | nil =>
        -- the first node comes after the last one
        obtain ⟨w, hw⟩ := Option.isSome_iff_exists.mp (List.getLast?_isSome.mpr (List.cons_ne_nil (some x) t))
        obtain ⟨rfl, -⟩ : a = x ∧ l.map some = t := by simpa using hst
        have hlast := (List.isChain_append.mp (show ((some a :: t) ++ [some a]).IsChain _ from h)).2.2 w hw (some a) rfl
        rw [hlast.prev a rfl]
        refine hmem w ?_
        rw [← List.cons_append, hst, List.nil_append]
        exact List.mem_append_left _ (List.mem_of_getLast? hw)
      | cons y s =>
        obtain ⟨u, hu⟩ := Option.isSome_iff_exists.mp (List.getLast?_isSome.mpr (List.cons_ne_nil y s))
        rw [((List.isChain_append.mp hs).2.2 u hu (some x) rfl).prev x rfl]
        refine hmem u ?_
        rw [← List.cons_append, hst, List.append_assoc]
        exact List.mem_append_left _ (List.mem_of_getLast? hu)

/-- A node is taken out and put at the end, as one after the other. A ring of one node stays as it is. -/
theorem move (h : IsRing next prev p l) (hn : l.Nodup) (hx : x ∈ l) :
    ∃ f, (if p = some x then next x else p) = some f ∧ setAt prev (next x) (prev x) f ≠ none ∧
      IsRing (setAt (Function.update (setAt next (prev x) (next x)) x (some f)) (setAt prev (next x) (prev x) f) (some x))
        (Function.update (Function.update (setAt prev (next x) (prev x)) x (setAt prev (next x) (prev x) f)) f (some x))
        (some f) (l.erase x ++ [x]) := by
  by_cases hl : 2 ≤ l.length
  · have hrem := h.remove hn hx hl
    have hne : l.erase x ≠ [] := fun he => by
      have := List.length_erase_of_mem hx
      rw [he, List.length_nil] at this
      omega
    obtain ⟨f, hf⟩ := Option.isSome_iff_exists.mp (List.isSome_head?.mpr hne)
    have hp : (if p = some x then next x else p) = some f := hrem.head.symm.trans hf
    rw [hp] at hrem
    obtain ⟨b, -, hb⟩ := (hrem.neighbours (List.mem_of_head? hf)).2
    exact ⟨f, hp, fun he => (nomatch hb.symm.trans he), hrem.insert (hn.erase x) hn.not_mem_erase⟩
  · obtain ⟨a, rfl⟩ : ∃ a, l = [a] := by
      cases l with
      | nil => exact h.elim
      | cons a l =>
        cases l with
        | nil => exact ⟨a, rfl⟩
        | cons b l => exact absurd (by simp) hl
    obtain rfl := List.mem_singleton.mp hx
    obtain ⟨hp, hc⟩ := h
    have hlink : Link next prev (some x) (some x) := (List.isChain_cons_cons.mp hc).1
    have hnext := hlink.next x rfl
    have hprev := hlink.prev x rfl
    have hone : setAt prev (some x) (some x) x = some x := setAt_self ..
    rw [if_pos hp, hnext, hprev]
    refine ⟨x, rfl, by rw [hone]; nofun, ?_⟩
    rw [hone, List.erase_cons_head]
    refine ⟨rfl, List.isChain_pair.mpr ⟨fun a ha => ?_, fun a ha => ?_⟩⟩
    · exact Option.some.inj ha ▸ setAt_self ..
    · exact Option.some.inj ha ▸ Function.update_self ..

end IsRing

end Linux011.Lib
