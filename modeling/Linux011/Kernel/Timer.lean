/-
  The timer list of kernel/sched.c: `add_timer` and the timer part of `do_timer`. The 64 slots
  of `timer_list` form a linked list from `next_timer`; `add_timer` links a free slot in at the
  head and moves its contents (function and jiffies) back through the slots behind it.
  `add_timer_spec`: on a well-formed list, `add_timer` is `place` on the list of contents.
-/
import Linux011.Lib.Path
import Linux011.Lib.Long
import Linux011.Lib.Delta
import Linux011.Lib.Except
import Mathlib.Data.Fintype.Card

namespace Linux011.Kernel
open Linux011.Lib

/-- `TIME_REQUESTS` -/
abbrev timeRequests : ℕ := 64

/-- A pointer into `timer_list`. -/
abbrev Slot := Fin timeRequests

/-- `struct timer_list`; a null function pointer marks a free slot. -/
structure Timer (F : Type*) where
  jiffies : ℤ
  fn : Option F
  next : Option Slot

/-- `timer_list` and `next_timer`. -/
structure Timers (F : Type*) where
  slot : Slot → Timer F
  head : Option Slot

/-- What stops the kernel in `add_timer`: the panic "No more time requests free"; a walk of
    more steps than there are slots, which only a cyclic list can take. -/
inductive TimerStop
  | noMoreTimeRequests
  | cyclic
  deriving DecidableEq, Repr

variable {F : Type*}

namespace Timers

def set (t : Timers F) (p : Slot) (x : Timer F) : Timers F :=
  { t with slot := Function.update t.slot p x }

/-- The search of `add_timer` for a slot without a function. -/
def freeSlot (t : Timers F) : Option Slot :=
  (List.finRange timeRequests).find? fun p => (t.slot p).fn.isNone

/-- One round of the loop of `add_timer`: `p` takes the contents of `q`, and `q` those of `p`
    less the jiffies of `q`. -/
def exchange (t : Timers F) (p q : Slot) : Timers F :=
  let j := long ((t.slot p).jiffies - (t.slot q).jiffies)
  (t.set p { t.slot p with fn := (t.slot q).fn, jiffies := (t.slot q).jiffies }).set q
    { t.slot q with fn := (t.slot p).fn, jiffies := j }

/-- The loop of `add_timer`. -/
def bubble : ℕ → Slot → Timers F → Except TimerStop (Timers F)
  | 0, _, _ => .error .cyclic
  | k + 1, p, t =>
    match (t.slot p).next with
    | none => .ok t
    | some q =>
      if (t.slot q).jiffies < (t.slot p).jiffies then bubble k q (t.exchange p q) else .ok t

/-- The new request of `add_timer`, put at the head. -/
def link (t : Timers F) (p : Slot) (jiffies : ℤ) (fn : F) : Timers F :=
  { t.set p ⟨jiffies, some fn, t.head⟩ with head := some p }

/-- `add_timer`, with the function it calls at once, if any. -/
def addTimer (jiffies : ℤ) (fn : Option F) (t : Timers F) : Except TimerStop (Timers F × Option F) :=
  match fn with
  | none => .ok (t, none)
  | some fn =>
    if jiffies ≤ 0 then .ok (t, some fn)
    else match t.freeSlot with
      | none => .error .noMoreTimeRequests
      | some p => (bubble timeRequests p (t.link p jiffies fn)).bind fun t' => .ok (t', none)

/-- The start of the timer part of `do_timer`. -/
def countDown (t : Timers F) : Timers F :=
  match t.head with
  | none => t
  | some p => t.set p { t.slot p with jiffies := long ((t.slot p).jiffies - 1) }

/-- `do_timer` frees the head and goes on to the next one. -/
def unlink (t : Timers F) (p : Slot) : Timers F :=
  { t.set p { t.slot p with fn := none } with head := (t.slot p).next }

/-- One test of the loop of `do_timer`: the function of a head that is due, with the list it is
    taken off. -/
def expire (t : Timers F) : Option (Option F × Timers F) :=
  match t.head with
  | none => none
  | some p =>
    if (t.slot p).jiffies ≤ 0 then some ((t.slot p).fn, t.unlink p) else none

/-- The functions that wait in the slots. -/
def pending (t : Timers F) : List F :=
  (List.finRange timeRequests).filterMap fun p => (t.slot p).fn

/-- The lists of the boot: every slot free. -/
def start : Timers F := ⟨fun _ => ⟨0, none, none⟩, none⟩

/-! ## The list of contents -/

/-- `l` is the list of slots from `next_timer`, without repetition, the used slots are exactly
    its members, and `c` are the jiffies and functions along it. -/
structure Holds (t : Timers F) (l : List Slot) (c : List (ℤ × F)) : Prop where
  path : Path (fun p => (t.slot p).next) t.head l
  nodup : l.Nodup
  used : ∀ p, p ∈ l ↔ (t.slot p).fn ≠ none
  contents : l.map (fun p => ((t.slot p).jiffies, (t.slot p).fn)) = c.map fun e => (e.1, some e.2)

theorem set_same (t : Timers F) (p : Slot) (x : Timer F) : (t.set p x).slot p = x :=
  Function.update_self ..

theorem set_other {t : Timers F} {p q : Slot} (x : Timer F) (h : q ≠ p) :
    (t.set p x).slot q = t.slot q :=
  Function.update_of_ne h ..

theorem exchange_other {t : Timers F} {p q r : Slot} (hp : r ≠ p) (hq : r ≠ q) :
    (t.exchange p q).slot r = t.slot r := by
  unfold exchange
  rw [set_other _ hq, set_other _ hp]

theorem exchange_fst {t : Timers F} {p q : Slot} (h : p ≠ q) :
    (t.exchange p q).slot p = ⟨(t.slot q).jiffies, (t.slot q).fn, (t.slot p).next⟩ := by
  unfold exchange
  rw [set_other _ h, set_same]

theorem exchange_snd (t : Timers F) (p q : Slot) :
    (t.exchange p q).slot q =
      ⟨long ((t.slot p).jiffies - (t.slot q).jiffies), (t.slot p).fn, (t.slot q).next⟩ := by
  unfold exchange
  rw [set_same]

theorem exchange_next {t : Timers F} {p q : Slot} (h : p ≠ q) (r : Slot) :
    ((t.exchange p q).slot r).next = (t.slot r).next := by
  by_cases hq : r = q
  · rw [hq, exchange_snd]
  · by_cases hp : r = p
    · rw [hp, exchange_fst h]
    · rw [exchange_other hp hq]

/-- The loop of `add_timer` from slot `p` on: the links stay, and the contents of `p` are placed
    among those behind it. -/
theorem bubble_spec {k : ℕ} {t : Timers F} {p : Slot} {l : List Slot} {n : ℤ} {f : F}
    {c : List (ℤ × F)} (hpath : Path (fun r => (t.slot r).next) (t.slot p).next l)
    (hnd : (p :: l).Nodup) (hk : (p :: l).length ≤ k) (hj : (t.slot p).jiffies = n)
    (hf : (t.slot p).fn = some f)
    (hc : l.map (fun r => ((t.slot r).jiffies, (t.slot r).fn)) = c.map fun e => (e.1, some e.2))
    (hn : 0 < n ∧ n < 2147483648) (hb : ∀ e ∈ c, 0 ≤ e.1) :
    ∃ t', bubble k p t = .ok t' ∧ t'.head = t.head ∧
      (∀ r, (t'.slot r).next = (t.slot r).next) ∧ (∀ r, r ∉ p :: l → t'.slot r = t.slot r) ∧
      (p :: l).map (fun r => ((t'.slot r).jiffies, (t'.slot r).fn)) =
        (place n f c).map fun e => (e.1, some e.2) := by
  induction l generalizing k t p n c with
  | nil =>
    obtain ⟨k, rfl⟩ : ∃ k', k = k' + 1 := ⟨k - 1, by simp at hk; omega⟩
    obtain rfl : c = [] := by simpa using hc.symm
    have hnext : (t.slot p).next = none := hpath
    refine ⟨t, ?_, rfl, fun _ => rfl, fun _ _ => rfl, by simp [place, hj, hf]⟩
    rw [bubble, hnext]
  | cons q l ih =>
    obtain ⟨k, rfl⟩ : ∃ k', k = k' + 1 := ⟨k - 1, by simp at hk; omega⟩
    obtain ⟨⟨d, g⟩, c, rfl⟩ : ∃ e c', c = e :: c' := by
      cases c with
      | nil => simp at hc
      | cons e c => exact ⟨e, c, rfl⟩
    obtain ⟨hnext, hpath⟩ := hpath
    simp only [List.map_cons, List.cons.injEq, Prod.mk.injEq] at hc
    obtain ⟨⟨hqj, hqf⟩, hc⟩ := hc
    have hpq : p ≠ q := fun h => (List.nodup_cons.mp hnd).1 (h ▸ List.mem_cons_self)
    have hpl : p ∉ l := fun h => (List.nodup_cons.mp hnd).1 (List.mem_cons_of_mem q h)
    have hql := (List.nodup_cons.mp hnd).2
    have hd : 0 ≤ d := hb (d, g) List.mem_cons_self
    rw [bubble, hnext]
    simp only [hj, hqj, place]
    split_ifs with hlt
    · -- the contents change places and the walk goes on from `q`
      have hother : ∀ r ∈ l, (t.exchange p q).slot r = t.slot r := fun r hr =>
        exchange_other (fun h => hpl (h ▸ hr)) fun h => (List.nodup_cons.mp hql).1 (h ▸ hr)
      have hpath' : Path (fun r => ((t.exchange p q).slot r).next)
          ((t.exchange p q).slot q).next l := by
        rw [exchange_next hpq]
        exact hpath.congr fun r _ => exchange_next hpq r
      have hqj' : ((t.exchange p q).slot q).jiffies = n - d := by
        rw [exchange_snd, hj, hqj]
        exact long_of_isLong ⟨by omega, by omega⟩
      have hqf' : ((t.exchange p q).slot q).fn = some f := by rw [exchange_snd, hf]
      have hc' : l.map (fun r => (((t.exchange p q).slot r).jiffies, ((t.exchange p q).slot r).fn)) =
          c.map fun e => (e.1, some e.2) := by
        rw [← hc]
        exact List.map_congr_left fun r hr => by rw [hother r hr]
      obtain ⟨t', he, hhead, hnexts, hout, hmap⟩ := ih hpath' hql (by simp at hk ⊢; omega) hqj'
        hqf' hc' (by omega) fun e he => hb e (List.mem_cons_of_mem _ he)
      refine ⟨t', he, hhead, ?_, ?_, ?_⟩
      · intro r
        rw [hnexts, exchange_next hpq]
      · intro r hr
        rw [hout r fun h => hr (List.mem_cons_of_mem p h)]
        exact exchange_other (fun h => hr (h ▸ List.mem_cons_self))
          fun h => hr (h ▸ List.mem_cons_of_mem p List.mem_cons_self)
      · rw [List.map_cons, hmap, List.map_cons, hout p (List.nodup_cons.mp hnd).1,
          exchange_fst hpq, hqj, hqf]
    · refine ⟨t, rfl, rfl, fun _ => rfl, fun _ _ => rfl, ?_⟩
      simp only [List.map_cons, hj, hf, hqj, hqf, hc]

namespace Holds

variable {t : Timers F} {l : List Slot} {c : List (ℤ × F)}

theorem start : Holds (Timers.start : Timers F) [] [] :=
  ⟨rfl, List.nodup_nil, fun p => by simp [Timers.start], rfl⟩

theorem length_eq (h : Holds t l c) : l.length = c.length := by
  simpa using congrArg List.length h.contents

theorem filterMap_eq (h : Holds t l c) : l.filterMap (fun p => (t.slot p).fn) = c.map Prod.snd := by
  have hmap : l.map (fun p => (t.slot p).fn) = (c.map Prod.snd).map some := by
    simpa [Function.comp_def] using congrArg (List.map Prod.snd) h.contents
  calc l.filterMap (fun p => (t.slot p).fn)
      = (l.map fun p => (t.slot p).fn).filterMap id := by rw [List.filterMap_map]; rfl
    _ = c.map Prod.snd := by rw [hmap, List.filterMap_map]; simp

theorem perm_used (h : Holds t l c) :
    l.Perm ((List.finRange timeRequests).filter fun p => (t.slot p).fn.isSome) := by
  refine (List.perm_ext_iff_of_nodup h.nodup ((List.nodup_finRange _).filter _)).mpr fun p => ?_
  rw [List.mem_filter, h.used, Option.isSome_iff_ne_none]
  simp

/-- The functions in the slots are those of the list. -/
theorem pending_perm (h : Holds t l c) : t.pending.Perm (c.map Prod.snd) := by
  have hp : t.pending =
      ((List.finRange timeRequests).filter fun p => (t.slot p).fn.isSome).filterMap
        fun p => (t.slot p).fn := by
    rw [List.filterMap_filter]
    refine List.filterMap_congr fun p _ => ?_
    cases (t.slot p).fn <;> rfl
  rw [hp, ← h.filterMap_eq]
  exact (h.perm_used.filterMap _).symm

/-- Without a free slot there are 64 requests. -/
theorem length_of_freeSlot (h : Holds t l c) (hf : t.freeSlot = none) :
    c.length = timeRequests := by
  have hall : ∀ p, p ∈ l := by
    intro p
    rw [h.used]
    intro hp
    have := List.find?_eq_none.mp hf p (List.mem_finRange p)
    simp [hp] at this
  have hperm : l.Perm (List.finRange timeRequests) :=
    (List.perm_ext_iff_of_nodup h.nodup (List.nodup_finRange _)).mpr fun p => by simp [hall p]
  rw [← h.length_eq, hperm.length_eq, List.length_finRange]

theorem freeSlot_notMem (h : Holds t l c) {p : Slot} (hf : t.freeSlot = some p) : p ∉ l := by
  have hp := List.find?_some hf
  rw [h.used]
  simpa using hp

/-- `add_timer` in terms of the list: the request is placed, or there are 64 already. -/
theorem addTimer_spec (h : Holds t l c) {n : ℤ} (hn : 0 < n) (hl : IsLong n) (f : F)
    (hb : ∀ e ∈ c, 0 ≤ e.1) :
    (t.addTimer n (some f) = .error .noMoreTimeRequests ∧ c.length = timeRequests) ∨
      ∃ p t', t.addTimer n (some f) = .ok (t', none) ∧ Holds t' (p :: l) (place n f c) := by
  have hadd : t.addTimer n (some f) = match t.freeSlot with
      | none => .error .noMoreTimeRequests
      | some p => (bubble timeRequests p (t.link p n f)).bind fun t' => .ok (t', none) := by
    unfold addTimer
    simp only
    rw [if_neg (by omega)]
  cases hfree : t.freeSlot with
  | none =>
    rw [hfree] at hadd
    exact .inl ⟨hadd, h.length_of_freeSlot hfree⟩
  | some p =>
    rw [hfree] at hadd
    have hp := h.freeSlot_notMem hfree
    have hsame : (t.link p n f).slot p = ⟨n, some f, t.head⟩ := set_same t p _
    have hother : ∀ r, r ≠ p → (t.link p n f).slot r = t.slot r := fun r hr => set_other _ hr
    have hmem : ∀ r ∈ l, r ≠ p := fun r hr he => hp (he ▸ hr)
    have hnd : (p :: l).Nodup := List.nodup_cons.mpr ⟨hp, h.nodup⟩
    have hlen : (p :: l).length ≤ timeRequests := by
      simpa using List.Nodup.length_le_card hnd
    have hpath : Path (fun r => ((t.link p n f).slot r).next) ((t.link p n f).slot p).next l := by
      rw [hsame]
      exact h.path.congr fun r hr => by rw [hother r (hmem r hr)]
    have hc : l.map (fun r => (((t.link p n f).slot r).jiffies, ((t.link p n f).slot r).fn)) =
        c.map fun e => (e.1, some e.2) := by
      rw [← h.contents]
      exact List.map_congr_left fun r hr => by rw [hother r (hmem r hr)]
    obtain ⟨t', he, hhead, hnexts, hout, hmap⟩ := bubble_spec hpath hnd hlen (by rw [hsame])
      (by rw [hsame]) hc ⟨hn, hl.2⟩ hb
    refine .inr ⟨p, t', hadd.trans (bind_of_ok he _), ?_, hnd, ?_, hmap⟩
    · refine ⟨hhead, ?_⟩
      show Path (fun r => (t'.slot r).next) (t'.slot p).next l
      rw [hnexts]
      exact hpath.congr fun r _ => hnexts r
    · intro r
      by_cases hr : r ∈ p :: l
      · refine iff_of_true hr fun hnone => ?_
        have hin : ((t'.slot r).jiffies, (t'.slot r).fn) ∈
            (place n f c).map fun e => (e.1, some e.2) := by
          rw [← hmap]
          exact List.mem_map_of_mem hr
        obtain ⟨e, -, hee⟩ := List.mem_map.mp hin
        rw [hnone] at hee
        simp at hee
      · rw [hout r hr, hother r fun he => hr (he ▸ List.mem_cons_self), ← h.used]
        exact iff_of_false hr fun hm => hr (List.mem_cons_of_mem p hm)

/-- The count down of the head. -/
theorem countDown {d : ℤ} {f : F} (h : Holds t l ((d, f) :: c)) (hd : IsLong (d - 1)) :
    Holds t.countDown l ((d - 1, f) :: c) := by
  cases l with
  | nil => simpa using h.contents
  | cons p l =>
    have hhead : t.head = some p := h.path.1
    have hcont := h.contents
    simp only [List.map_cons, List.cons.injEq, Prod.mk.injEq] at hcont
    have hp := (List.nodup_cons.mp h.nodup).1
    have hslot : t.countDown = t.set p { t.slot p with jiffies := d - 1 } := by
      unfold Timers.countDown
      rw [hhead]
      simp only [hcont.1.1, long_of_isLong hd]
    have hsame := set_same t p { t.slot p with jiffies := d - 1 }
    have hother : ∀ r, r ≠ p → t.countDown.slot r = t.slot r := fun r hr => by
      rw [hslot, set_other _ hr]
    have hnext : ∀ r, (t.countDown.slot r).next = (t.slot r).next := fun r => by
      by_cases hr : r = p
      · rw [hr, hslot, hsame]
      · rw [hother r hr]
    refine ⟨?_, h.nodup, ?_, ?_⟩
    · rw [show t.countDown.head = t.head by rw [hslot]; rfl]
      exact h.path.congr fun r _ => hnext r
    · intro r
      rw [h.used]
      by_cases hr : r = p
      · rw [hr, hslot, hsame]
      · rw [hother r hr]
    · simp only [List.map_cons]
      congr 1
      · rw [hslot, hsame, hcont.1.2]
      · rw [← hcont.2]
        exact List.map_congr_left fun r hr => by rw [hother r fun he => hp (he ▸ hr)]

/-- The loop of `do_timer` takes the head off when it is due. -/
theorem expire {d : ℤ} {f : F} (h : Holds t l ((d, f) :: c)) :
    (0 < d ∧ t.expire = none) ∨
      (d ≤ 0 ∧ ∃ t', t.expire = some (some f, t') ∧ Holds t' l.tail c) := by
  cases l with
  | nil => simpa using h.contents
  | cons p l =>
    have hhead : t.head = some p := h.path.1
    have hcont := h.contents
    simp only [List.map_cons, List.cons.injEq, Prod.mk.injEq] at hcont
    have hp := List.nodup_cons.mp h.nodup
    have hexp : t.expire = if d ≤ 0 then some (some f, t.unlink p) else none := by
      unfold Timers.expire
      rw [hhead]
      simp only [hcont.1.1, hcont.1.2]
    by_cases hd : d ≤ 0
    · refine .inr ⟨hd, t.unlink p, by rw [hexp, if_pos hd], ?_⟩
      have hsame : (t.unlink p).slot p = { t.slot p with fn := none } := set_same ..
      have hother : ∀ r, r ≠ p → (t.unlink p).slot r = t.slot r := fun r hr => set_other _ hr
      refine ⟨?_, hp.2, ?_, ?_⟩
      · exact h.path.2.congr fun r hr => by rw [hother r fun he => hp.1 (he ▸ hr)]
      · intro r
        rw [List.tail_cons]
        by_cases hr : r = p
        · rw [hr, hsame]
          simpa using hp.1
        · rw [hother r hr, ← h.used]
          simp [hr]
      · rw [← hcont.2]
        exact List.map_congr_left fun r hr => by rw [hother r fun he => hp.1 (he ▸ hr)]
    · exact .inl ⟨by omega, by rw [hexp, if_neg hd]⟩

theorem expire_nil (h : Holds t l []) : t.expire = none := by
  obtain rfl : l = [] := by simpa using h.contents
  unfold Timers.expire
  rw [show t.head = none from h.path]

theorem countDown_nil (h : Holds t l []) : t.countDown = t := by
  obtain rfl : l = [] := by simpa using h.contents
  unfold Timers.countDown
  rw [show t.head = none from h.path]

end Holds

end Timers

end Linux011.Kernel
