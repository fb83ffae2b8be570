/-
  The request table under any interleaving of processes in `ll_rw_block` with the drivers'
  interrupts. `Sound` ties the queues, the slots in use and the locked buffers together: every
  lock has one holder, a process in `make_request` or a request. `queue_integrity` reads off what
  holds in every state reached.
-/
import Linux011.Blk.Elevator
import Linux011.Blk.MakeRequest

namespace Linux011.Blk
open Linux011.Lib Linux011.Fs

/-! ## Holders of locks -/

section
variable {α : Type*} {P P' : α → ℕ → Prop} {L L' : ℕ → Bool}

/-- What is locked has exactly one holder. -/
structure Owned (P : α → ℕ → Prop) (L : ℕ → Bool) : Prop where
  lock : ∀ i, L i = true ↔ ∃ a, P a i
  one : ∀ a a' i, P a i → P a' i → a = a'

theorem Owned.congr (h : Owned P L) (hP : ∀ a i, P' a i ↔ P a i) (hL : ∀ i, L' i = L i) :
    Owned P' L' where
  lock i := by simp only [hP, hL, h.lock]
  one a a' i ha ha' := h.one a a' i ((hP a i).mp ha) ((hP a' i).mp ha')

/-- `a` becomes the holder of `i`, and the only one. -/
theorem Owned.set (h : Owned P L) {a : α} {i : ℕ}
    (hP : ∀ b j, P' b j ↔ if j = i then b = a else P b j)
    (hL : ∀ j, L' j = if j = i then true else L j) : Owned P' L' where
  lock j := by
    simp only [hP, hL]
    by_cases hj : j = i
    · simp [hj]
    · simp only [if_neg hj]
      exact h.lock j
  one b b' j hb hb' := by
    rw [hP] at hb hb'
    by_cases hj : j = i
    · rw [if_pos hj] at hb hb'
      exact hb.trans hb'.symm
    · rw [if_neg hj] at hb hb'
      exact h.one b b' j hb hb'

/-- Nobody holds `i` any more. -/
theorem Owned.drop (h : Owned P L) {i : ℕ} (hP : ∀ b j, P' b j ↔ j ≠ i ∧ P b j)
    (hL : ∀ j, L' j = if j = i then false else L j) : Owned P' L' where
  lock j := by
    simp only [hP, hL]
    by_cases hj : j = i
    · simp [hj]
    · simp only [hj, if_false, ne_eq, not_false_eq_true, true_and]
      exact h.lock j
  one b b' j hb hb' := h.one b b' j ((hP b j).mp hb).2 ((hP b' j).mp hb').2

end

/-! ## The invariant -/

variable {ι : Type} {σ σ' : Sys ι} {q : ℕ → List Slot}

/-- The buffer a process has locked and not yet handed to a request. -/
def Place.holds : Place → Option ℕ
  | .locked _ _ _ i | .again _ _ _ i => some i
  | _ => none

/-- A process or a request holds the lock of buffer `i`. -/
def Holds (σ : Sys ι) : ι ⊕ Slot → ℕ → Prop
  | .inl p, i => (σ.place p).holds = some i
  | .inr k, i => 0 ≤ (σ.b.request k).dev ∧ (σ.b.request k).bh = i

/-- What a place says about the state. -/
def Fits (σ : Sys ι) (q : ℕ → List Slot) (p : ι) : Place → Prop
  | .other => True
  | .lock major _ _ held i => (σ.b.buf i).dev / 256 = major ∧
      (held = true ∨ (p = σ.cur ∧ (σ.b.buf i).lock = false))
  | .locked major _ _ i | .again major _ _ i => (σ.b.buf i).dev / 256 = major
  | .filled major k => p = σ.cur ∧ 0 ≤ (σ.b.request k).dev ∧
      (σ.b.request k).dev.toNat / 256 = major ∧ ∀ m, k ∉ q m

structure Sound (σ : Sys ι) (q : ℕ → List Slot) : Prop where
  queued : Queued σ.b q
  major : ∀ m, ∀ k ∈ q m, (σ.b.request k).dev.toNat / 256 = m
  slots : ∀ k, 0 ≤ (σ.b.request k).dev → (∃ m, k ∈ q m) ∨ ∃ m, σ.place σ.cur = .filled m k
  writes : ∀ k, 0 ≤ (σ.b.request k).dev → (σ.b.request k).write = true → k.val < 32 * 2 / 3
  fits : ∀ p, Fits σ q p (σ.place p)
  owned : Owned (Holds σ) fun i => (σ.b.buf i).lock
  counts : ∀ i, σ.b.locks i = σ.b.unlocks i + (σ.b.buf i).lock.toNat

/-- The lock of a process in `make_request`. -/
theorem Sound.locked (h : Sound σ q) {p : ι} {i : ℕ} (hp : (σ.place p).holds = some i) :
    (σ.b.buf i).lock = true := (h.owned.lock i).mpr ⟨.inl p, hp⟩

theorem findSlot_spec {b : Queues} {n : ℕ} {k : Slot} (h : b.findSlot n = some k) :
    k.val < n ∧ (b.request k).dev < 0 := by
  induction n with
  | zero => cases h
  | succ n ih =>
    rw [Queues.findSlot] at h
    split_ifs at h with hn hd
    · cases h
      exact ⟨Nat.lt_succ_self n, hd⟩
    · exact ⟨(ih h).1.trans (Nat.lt_succ_self n), (ih h).2⟩
    · exact ⟨(ih h).1.trans (Nat.lt_succ_self n), (ih h).2⟩

/-- A process that is not the current one sees only devices change. -/
theorem Fits.other {q' : ℕ → List Slot} {p : ι} {pl : Place} (h : Fits σ q p pl) (hp : p ≠ σ.cur)
    (hdev : ∀ i, (σ'.b.buf i).dev = (σ.b.buf i).dev) : Fits σ' q' p pl := by
  cases pl with
  | other => trivial
  | lock major write ahead held i =>
    exact ⟨by rw [hdev]; exact h.1, Or.inl (h.2.resolve_right fun hc => hp hc.1)⟩
  | locked major write ahead i =>
    show (σ'.b.buf i).dev / 256 = major
    rw [hdev]
    exact h
  | again major write ahead i =>
    show (σ'.b.buf i).dev / 256 = major
    rw [hdev]
    exact h
  | filled major k => exact absurd h.1 hp

theorem Queued.of_table {b b' : Queues} (h : Queued b q) (hr : b'.request = b.request)
    (hc : b'.current = b.current) : Queued b' q where
  linked m := by
    have hn : b'.next = b.next := by
      funext k
      simp only [Queues.next, hr]
    rw [hn, hc]
    exact h.linked m
  used m k hk := by rw [hr]; exact h.used m k hk
  apart := h.apart

variable [DecidableEq ι] {b : Queues} {pl : Place} {p : ι} {i j : ℕ}

@[simp] theorem after_b : (σ.after b pl).b = b := rfl

@[simp] theorem after_cur : (σ.after b pl).cur = σ.cur := rfl

@[simp] theorem after_place_cur : (σ.after b pl).place σ.cur = pl := Function.update_self ..

theorem after_place (hp : p ≠ σ.cur) : (σ.after b pl).place p = σ.place p :=
  Function.update_of_ne hp ..

theorem holds_cur : Holds (σ.after b pl) (.inl σ.cur) i ↔ pl.holds = some i := by
  rw [Holds, after_place_cur]

theorem holds_ne (hp : p ≠ σ.cur) : Holds (σ.after b pl) (.inl p) i ↔ Holds σ (.inl p) i := by
  rw [Holds, Holds, after_place hp]

/-- The places of all processes fit when the new one does and no buffer changes its device. -/
theorem Sound.fits_after {q' : ℕ → List Slot} (h : Sound σ q)
    (hdev : ∀ i, (b.buf i).dev = (σ.b.buf i).dev) (hf : Fits (σ.after b pl) q' σ.cur pl) (p : ι) :
    Fits (σ.after b pl) q' p ((σ.after b pl).place p) := by
  by_cases hp : p = σ.cur
  · subst hp
    rwa [after_place_cur]
  · rw [after_place hp]
    exact (h.fits p).other hp hdev

omit [DecidableEq ι] in
theorem Sound.slots_left (h : Sound σ q) (hn : ∀ m k, σ.place σ.cur ≠ .filled m k) {k : Slot}
    (hk : 0 ≤ (σ.b.request k).dev) : ∃ m, k ∈ q m :=
  (h.slots k hk).resolve_right fun ⟨m, hm⟩ => hn m k hm

omit [DecidableEq ι] in
/-- The current process is the only holder of what it holds. -/
theorem Sound.mine (h : Sound σ q) (hp : (σ.place σ.cur).holds = some i) {a : ι ⊕ Slot}
    (ha : Holds σ a i) : a = .inl σ.cur := h.owned.one a _ i ha hp

/-- The current process moves on and the table stays. -/
theorem Sound.move (h : Sound σ q) (hf : Fits σ q σ.cur pl)
    (hh : pl.holds = (σ.place σ.cur).holds) (hn : ∀ m k, σ.place σ.cur ≠ .filled m k) :
    Sound (σ.after σ.b pl) q where
  queued := h.queued
  major := h.major
  slots k hk := Or.inl (h.slots_left hn hk)
  writes := h.writes
  fits := h.fits_after (fun _ => rfl) (by cases pl <;> exact hf)
  owned := by
    refine h.owned.congr (fun a i => ?_) fun _ => rfl
    cases a with
    | inl p =>
      by_cases hp : p = σ.cur
      · subst hp
        rw [holds_cur, hh]
        rfl
      · exact holds_ne hp
    | inr k => rfl
  counts := h.counts

theorem lockBuffer_lock (b : Queues) (i j : ℕ) :
    ((b.lockBuffer i).buf j).lock = if j = i then true else (b.buf j).lock := by
  by_cases hj : j = i
  · subst hj; simp [Queues.lockBuffer, Queues.setBuf]
  · simp [Queues.lockBuffer, Queues.setBuf, hj]

theorem unlockBuffer_lock (b : Queues) (i j : ℕ) :
    ((b.unlockBuffer i).buf j).lock = if j = i then false else (b.buf j).lock := by
  by_cases hj : j = i
  · subst hj; simp [Queues.unlockBuffer, Queues.setBuf]
  · simp [Queues.unlockBuffer, Queues.setBuf, hj]

theorem lockBuffer_dev (b : Queues) (i j : ℕ) : ((b.lockBuffer i).buf j).dev = (b.buf j).dev := by
  by_cases hj : j = i
  · subst hj; simp [Queues.lockBuffer, Queues.setBuf]
  · simp [Queues.lockBuffer, Queues.setBuf, hj]

theorem unlockBuffer_dev (b : Queues) (i j : ℕ) :
    ((b.unlockBuffer i).buf j).dev = (b.buf j).dev := by
  by_cases hj : j = i
  · subst hj; simp [Queues.unlockBuffer, Queues.setBuf]
  · simp [Queues.unlockBuffer, Queues.setBuf, hj]

/-- `lock_buffer` on an unlocked buffer. -/
theorem Sound.lockBuffer (h : Sound σ q) {m : ℕ} {write ahead held : Bool}
    (hp : σ.place σ.cur = .lock m write ahead held i) (hl : (σ.b.buf i).lock = false) :
    Sound (σ.after (σ.b.lockBuffer i) (.locked m write ahead i)) q where
  queued := h.queued.of_table rfl rfl
  major := h.major
  slots k hk := Or.inl (h.slots_left (by simp [hp]) hk)
  writes := h.writes
  fits := by
    have hf := h.fits σ.cur
    rw [hp] at hf
    exact h.fits_after (lockBuffer_dev σ.b i) ((congrArg (· / 256) (lockBuffer_dev σ.b i i)).trans hf.1)
  owned := by
    have hno : ∀ a, ¬ Holds σ a i := fun a ha => by
      have := (h.owned.lock i).mpr ⟨a, ha⟩
      rw [hl] at this
      cases this
    refine h.owned.set (a := Sum.inl σ.cur) (i := i) (fun a j => ?_) (lockBuffer_lock σ.b i)
    cases a with
    | inl p =>
      by_cases hpc : p = σ.cur
      · subst hpc
        have hcur : ¬ Holds σ (.inl σ.cur) j := by simp [Holds, hp, Place.holds]
        rw [holds_cur]
        simp [Place.holds, hcur, eq_comm]
      · have hne : Sum.inl p ≠ (Sum.inl σ.cur : ι ⊕ Slot) := fun e => hpc (Sum.inl.inj e)
        rw [holds_ne hpc]
        split_ifs with hj
        · rw [hj]
          exact iff_of_false (hno _) hne
        · rfl
    | inr k =>
      split_ifs with hj
      · rw [hj]
        exact iff_of_false (hno (.inr k)) not_false
      · rfl
  counts j := by
    have hc := h.counts j
    rw [after_b, lockBuffer_lock]
    split_ifs with hj
    · rw [hj] at hc ⊢
      rw [hl] at hc
      simp [Queues.lockBuffer, Queues.setBuf, hc]
    · simpa [Queues.lockBuffer, Queues.setBuf, hj] using hc

/-- The current process unlocks the buffer it has locked, and is done. -/
theorem Sound.unlockBuffer (h : Sound σ q) (hp : (σ.place σ.cur).holds = some i) :
    Sound (σ.after (σ.b.unlockBuffer i) .other) q where
  queued := h.queued.of_table rfl rfl
  major := h.major
  slots k hk := Or.inl (h.slots_left (fun m k hm => by rw [hm] at hp; cases hp) hk)
  writes := h.writes
  fits := h.fits_after (unlockBuffer_dev σ.b i) trivial
  owned := by
    refine h.owned.drop (i := i) (fun a j => ?_) (unlockBuffer_lock σ.b i)
    have hn : ∀ a, a ≠ .inl σ.cur → Holds σ a j → j ≠ i := by
      rintro a hne ha rfl
      exact hne (h.mine hp ha)
    cases a with
    | inl p =>
      by_cases hpc : p = σ.cur
      · subst hpc
        rw [holds_cur]
        have hcur : Holds σ (.inl σ.cur) j → j = i := fun ha => Option.some.inj (ha.symm.trans hp)
        exact iff_of_false (by simp [Place.holds]) fun hc => hc.1 (hcur hc.2)
      · rw [holds_ne hpc]
        exact ⟨fun ha => ⟨hn _ (fun e => hpc (Sum.inl.inj e)) ha, ha⟩, And.right⟩
    | inr k => exact ⟨fun ha => ⟨hn (.inr k) Sum.inr_ne_inl ha, ha⟩, And.right⟩
  counts j := by
    have hc := h.counts j
    rw [after_b, unlockBuffer_lock]
    split_ifs with hj
    · rw [hj] at hc ⊢
      rw [h.locked hp] at hc
      simp [Queues.unlockBuffer, Queues.setBuf, hc]
    · simpa [Queues.unlockBuffer, Queues.setBuf, hj] using hc

/-- The request is filled up: the lock passes to it. -/
theorem Sound.fill (h : Sound σ q) {m : ℕ} {write ahead : Bool} {k : Slot}
    (hp : σ.place σ.cur = .again m write ahead i)
    (hk : σ.b.findSlot (slotLimit write) = some k) :
    Sound (σ.after (σ.b.fill k write i) (.filled m k)) q := by
  obtain ⟨hlt, hfree⟩ := findSlot_spec hk
  obtain ⟨hkq, hreq, hQ⟩ := h.queued.fill hfree write i
  have hself := fill_self σ.b k write i
  have hother : ∀ a, a ≠ k → (σ.b.fill k write i).request a = σ.b.request a :=
    fun a ha => Function.update_of_ne ha _ _
  have hholds : (σ.place σ.cur).holds = some i := by rw [hp]; rfl
  refine ⟨hQ, fun m' a ha => ?_, fun a ha => ?_, fun a ha hw => ?_, h.fits_after (fun _ => rfl) ?_,
    ?_, h.counts⟩
  · rw [after_b, hreq m' a ha]
    exact h.major m' a ha
  · rw [after_b] at ha
    by_cases hak : a = k
    · subst hak
      exact Or.inr ⟨m, after_place_cur⟩
    · rw [hother a hak] at ha
      exact Or.inl (h.slots_left (by simp [hp]) ha)
  · rw [after_b] at ha hw
    by_cases hak : a = k
    · subst hak
      rw [hself] at hw
      dsimp only at hw
      subst hw
      exact hlt
    · rw [hother a hak] at ha hw
      exact h.writes a ha hw
  · have hf := h.fits σ.cur
    rw [hp] at hf
    refine ⟨rfl, ?_, ?_, hkq⟩
    · rw [after_b, hself]; exact Int.natCast_nonneg _
    · rw [after_b, hself]; exact hf
  · refine h.owned.set (a := Sum.inr k) (i := i) (fun a j => ?_) fun j => ?_
    · cases a with
      | inl p =>
        by_cases hpc : p = σ.cur
        · subst hpc
          rw [holds_cur]
          split_ifs with hj
          · exact iff_of_false (by simp [Place.holds]) not_false
          · refine iff_of_false (by simp [Place.holds]) fun ha => ?_
            exact hj (Option.some.inj (ha.symm.trans hholds))
        · rw [holds_ne hpc]
          split_ifs with hj
          · subst hj
            exact iff_of_false (fun ha => hpc (Sum.inl.inj (h.mine hholds ha))) not_false
          · rfl
      | inr a =>
        by_cases hak : a = k
        · subst hak
          have hn : ¬ Holds σ (.inr a) j := fun ha => absurd ha.1 (by omega)
          split_ifs with hj
          · refine iff_of_true ⟨?_, ?_⟩ rfl
            · rw [after_b, hself]; exact Int.natCast_nonneg _
            · rw [after_b, hself, hj]
          · refine iff_of_false (fun ha => hj ?_) hn
            rw [← ha.2, after_b, hself]
        · have hne : Sum.inr a ≠ (Sum.inr k : ι ⊕ Slot) := fun e => hak (Sum.inr.inj e)
          have he : Holds (σ.after (σ.b.fill k write i) (.filled m k)) (.inr a) j ↔
              Holds σ (.inr a) j := by rw [Holds, Holds, after_b, hother a hak]
          rw [he]
          split_ifs with hj
          · subst hj
            exact iff_of_false (fun ha => by cases h.mine hholds ha) hne
          · rfl
    · show (σ.b.buf j).lock = _
      split_ifs with hj
      · subst hj; exact h.locked hholds
      · rfl

/-- `add_request`. -/
theorem Sound.addRequest (h : Sound σ q) {m : ℕ} {k : Slot} (hp : σ.place σ.cur = .filled m k) :
    ∃ q', Sound (σ.after (σ.b.addRequest m k) .other) q' := by
  have hf := h.fits σ.cur
  rw [hp] at hf
  obtain ⟨-, hdev, hmaj, hkq⟩ := hf
  obtain ⟨hQ, hL⟩ := addRequest_spec (m := m) h.queued hkq hdev
  have hbuf : ∀ j, ((σ.b.addRequest m k).buf j).dev = (σ.b.buf j).dev ∧
      ((σ.b.addRequest m k).buf j).lock = (σ.b.buf j).lock := fun j => by
    rw [hL.buf]
    by_cases hj : j = (σ.b.request k).bh
    · subst hj; simp
    · simp [hj]
  refine ⟨_, hQ, fun m' a ha => ?_, fun a ha => ?_, fun a ha hw => ?_,
    h.fits_after (fun j => (hbuf j).1) trivial, ?_, fun j => ?_⟩
  · rw [after_b, hL.dev]
    by_cases hm : m' = m
    · subst hm
      rw [Function.update_self] at ha
      rcases mem_elevate.mp ha with rfl | ha
      · exact hmaj
      · exact h.major m' a ha
    · rw [Function.update_of_ne hm] at ha
      exact h.major m' a ha
  · rw [after_b, hL.dev] at ha
    refine Or.inl ?_
    rcases h.slots a ha with ⟨m', hm'⟩ | ⟨m', hm'⟩
    · by_cases hm : m' = m
      · subst hm
        exact ⟨m', by rw [Function.update_self]; exact mem_elevate.mpr (Or.inr hm')⟩
      · exact ⟨m', by rwa [Function.update_of_ne hm]⟩
    · rw [hp] at hm'
      cases hm'
      exact ⟨m, by rw [Function.update_self]; exact mem_elevate.mpr (Or.inl rfl)⟩
  · rw [after_b] at ha hw
    rw [hL.dev] at ha
    rw [(hL.fields a).2.1] at hw
    exact h.writes a ha hw
  · refine h.owned.congr (fun a j => ?_) fun j => (hbuf j).2
    cases a with
    | inl p =>
      by_cases hpc : p = σ.cur
      · subst hpc
        rw [holds_cur, Holds, hp]
        rfl
      · exact holds_ne hpc
    | inr a => rw [Holds, Holds, after_b, hL.dev, (hL.fields a).2.2.2.2]
  · rw [after_b, hL.locks, hL.unlocks, (hbuf j).2]
    exact h.counts j

omit [DecidableEq ι] in
/-- The sectors of a request move on. -/
theorem Sound.setRequest (h : Sound σ q) (k : Slot) {f : Request → Request}
    (hnext : ∀ r, (f r).next = r.next) (hdev : ∀ r, (f r).dev = r.dev)
    (hwrite : ∀ r, (f r).write = r.write) (hbh : ∀ r, (f r).bh = r.bh) :
    Sound { σ with b := σ.b.setRequest k f } q := by
  have hr : ∀ a, ((σ.b.setRequest k f).request a).dev = (σ.b.request a).dev ∧
      ((σ.b.setRequest k f).request a).write = (σ.b.request a).write ∧
      ((σ.b.setRequest k f).request a).bh = (σ.b.request a).bh := fun a => by
    by_cases hak : a = k
    · subst hak; simp [Queues.setRequest, hdev, hwrite, hbh]
    · simp [Queues.setRequest, hak]
  refine ⟨h.queued.setRequest k hnext hdev, fun m a ha => ?_, fun a ha => ?_, fun a ha hw => ?_,
    fun p => ?_, h.owned.congr (fun a j => ?_) fun _ => rfl, h.counts⟩
  · dsimp only
    rw [(hr a).1]
    exact h.major m a ha
  · dsimp only at ha
    rw [(hr a).1] at ha
    exact h.slots a ha
  · dsimp only at ha hw
    rw [(hr a).1] at ha
    rw [(hr a).2.1] at hw
    exact h.writes a ha hw
  · have hf := h.fits p
    dsimp only
    cases hpl : σ.place p <;> rw [hpl] at hf
    case filled m k' => exact ⟨hf.1, by dsimp only; rw [(hr k').1]; exact hf.2.1,
      by dsimp only; rw [(hr k').1]; exact hf.2.2.1, hf.2.2.2⟩
    all_goals exact hf
  · cases a with
    | inl p => rfl
    | inr a => simp only [Holds, hr a]

omit [DecidableEq ι] in
/-- `end_request`: the buffer is unlocked and the slot free. -/
theorem Sound.endRequest (h : Sound σ q) {m : ℕ} {uptodate : Bool}
    (he : σ.b.endRequest m uptodate = some b) : ∃ q', Sound { σ with b := b } q' := by
  obtain ⟨k, l, hq, hQ, hE⟩ := endRequest_spec h.queued he
  have hk : k ∈ q m := by rw [hq]; exact List.mem_cons_self
  have hdevk : 0 ≤ (σ.b.request k).dev := h.queued.used m k hk
  have hreq : ∀ a, a ≠ k → b.request a = σ.b.request a := fun a ha => by
    rw [hE.request, Function.update_of_ne ha]
  have hself : (b.request k).dev = -1 := by rw [hE.request, Function.update_self]
  have hused : ∀ a, 0 ≤ (b.request a).dev → a ≠ k := by
    rintro a ha rfl
    rw [hself] at ha
    exact absurd ha (by decide)
  have hsub : ∀ m' a, a ∈ Function.update q m l m' → a ∈ q m' := fun m' a ha => by
    by_cases hm : m' = m
    · subst hm
      rw [Function.update_self] at ha
      rw [hq]
      exact List.mem_cons_of_mem _ ha
    · rwa [Function.update_of_ne hm] at ha
  have hdev : ∀ j, (b.buf j).dev = (σ.b.buf j).dev := fun j => by
    rw [hE.buf]
    by_cases hj : j = (σ.b.request k).bh
    · subst hj; simp
    · simp [hj]
  have hlock : ∀ j, (b.buf j).lock = if j = (σ.b.request k).bh then false else (σ.b.buf j).lock :=
    fun j => by
      rw [hE.buf]
      by_cases hj : j = (σ.b.request k).bh
      · subst hj; simp
      · simp [hj]
  have hlocked : (σ.b.buf (σ.b.request k).bh).lock = true :=
    (h.owned.lock _).mpr ⟨.inr k, hdevk, rfl⟩
  refine ⟨_, hQ, fun m' a ha => ?_, fun a ha => ?_, fun a ha hw => ?_, fun p => ?_,
    h.owned.drop (fun a j => ?_) hlock, fun j => ?_⟩
  · have hak := hused a (hQ.used m' a ha)
    dsimp only
    rw [hreq a hak]
    exact h.major m' a (hsub m' a ha)
  · have hak := hused a ha
    dsimp only at ha
    rw [hreq a hak] at ha
    refine (h.slots a ha).imp_left fun ⟨m', hm'⟩ => ⟨m', ?_⟩
    by_cases hm : m' = m
    · subst hm
      rw [Function.update_self]
      rw [hq] at hm'
      exact (List.mem_cons.mp hm').resolve_left hak
    · rwa [Function.update_of_ne hm]
  · have hak := hused a ha
    dsimp only at ha hw
    rw [hreq a hak] at ha hw
    exact h.writes a ha hw
  · have hf := h.fits p
    dsimp only
    cases hpl : σ.place p with
    | other => trivial
    | lock m' w a held i =>
      rw [hpl] at hf
      refine ⟨by dsimp only; rw [hdev]; exact hf.1, hf.2.imp_right fun hc => ⟨hc.1, ?_⟩⟩
      dsimp only
      rw [hlock]
      split_ifs
      · rfl
      · exact hc.2
    | locked m' w a i =>
      rw [hpl] at hf
      exact (congrArg (· / 256) (hdev i)).trans hf
    | again m' w a i =>
      rw [hpl] at hf
      exact (congrArg (· / 256) (hdev i)).trans hf
    | filled m' k' =>
      rw [hpl] at hf
      have hkk : k' ≠ k := fun e => hf.2.2.2 m (e ▸ hk)
      exact ⟨hf.1, by dsimp only; rw [hreq k' hkk]; exact hf.2.1,
        by dsimp only; rw [hreq k' hkk]; exact hf.2.2.1, fun m1 hm1 => hf.2.2.2 m1 (hsub m1 k' hm1)⟩
  · have hn : ∀ a, a ≠ .inr k → Holds σ a j → j ≠ (σ.b.request k).bh := by
      rintro a hne ha rfl
      exact hne (h.owned.one a (.inr k) _ ha ⟨hdevk, rfl⟩)
    cases a with
    | inl p => exact ⟨fun ha => ⟨hn (.inl p) Sum.inl_ne_inr ha, ha⟩, And.right⟩
    | inr a =>
      by_cases hak : a = k
      · subst hak
        refine iff_of_false (fun ha => ?_) fun hc => hc.1 hc.2.2.symm
        exact hused a ha.1 rfl
      · have he' : Holds { σ with b := b } (.inr a) j ↔ Holds σ (.inr a) j := by
          rw [Holds, Holds]
          dsimp only
          rw [hreq a hak]
        rw [he']
        exact ⟨fun ha => ⟨hn (.inr a) (fun e => hak (Sum.inr.inj e)) ha, ha⟩, And.right⟩
  · have hc := h.counts j
    dsimp only
    rw [hE.locks, hE.unlocks, hlock]
    by_cases hj : j = (σ.b.request k).bh
    · rw [hj] at hc ⊢
      rw [hlocked] at hc
      rw [Function.update_self, if_pos rfl, hc]
      rfl
    · rw [Function.update_of_ne hj, if_neg hj]
      exact hc

omit [DecidableEq ι] in
theorem Sound.readIntr (h : Sound σ q) {m : ℕ} (he : σ.b.readIntr m = some b) :
    ∃ q', Sound { σ with b := b } q' := by
  unfold Queues.readIntr at he
  split at he
  · cases he
  · rename_i k hcur
    dsimp only at he
    have h1 := h.setRequest k (f := fun r =>
      { r with
        sector := (r.sector + 1) % 4294967296
        nrSectors := (r.nrSectors + 4294967295) % 4294967296 })
      (fun _ => rfl) (fun _ => rfl) (fun _ => rfl) fun _ => rfl
    split_ifs at he
    · cases he
      exact ⟨q, h1⟩
    · exact h1.endRequest he

omit [DecidableEq ι] in
theorem Sound.writeIntr (h : Sound σ q) {m : ℕ} (he : σ.b.writeIntr m = some b) :
    ∃ q', Sound { σ with b := b } q' := by
  unfold Queues.writeIntr at he
  split at he
  · cases he
  · rename_i k hcur
    dsimp only at he
    have h1 := h.setRequest k
      (f := fun r => { r with nrSectors := (r.nrSectors + 4294967295) % 4294967296 })
      (fun _ => rfl) (fun _ => rfl) (fun _ => rfl) fun _ => rfl
    split_ifs at he
    · cases he
      exact ⟨q, h1.setRequest k (f := fun r => { r with sector := (r.sector + 1) % 4294967296 })
        (fun _ => rfl) (fun _ => rfl) (fun _ => rfl) fun _ => rfl⟩
    · exact h1.endRequest he

omit [DecidableEq ι] in
/-- Other code changes the buffers. -/
theorem Sound.change (h : Sound σ q) {buf : ℕ → Buf} (hp : σ.place σ.cur = .other)
    (hm : Minds σ buf) : Sound { σ with b := { σ.b with buf := buf } } q := by
  refine ⟨h.queued.of_table rfl rfl, h.major, h.slots, h.writes, fun p => ?_,
    h.owned.congr (fun a j => ?_) hm.lock, fun j => ?_⟩
  · have hf := h.fits p
    have hdev : ∀ i, (σ.place p).holds = some i → (buf i).dev = (σ.b.buf i).dev :=
      fun i hi => hm.dev i (Or.inl (h.locked hi))
    dsimp only
    cases hpl : σ.place p with
    | other => trivial
    | lock m w a held i =>
      rw [hpl] at hf
      rcases hf.2 with rfl | ⟨rfl, -⟩
      · refine ⟨?_, Or.inl rfl⟩
        dsimp only
        rw [hm.dev i (Or.inr ⟨p, m, w, a, hpl⟩)]
        exact hf.1
      · rw [hp] at hpl
        cases hpl
    | locked m w a i =>
      rw [hpl] at hf hdev
      exact (congrArg (· / 256) (hdev i rfl)).trans hf
    | again m w a i =>
      rw [hpl] at hf hdev
      exact (congrArg (· / 256) (hdev i rfl)).trans hf
    | filled m k =>
      rw [hpl] at hf
      exact hf
  · cases a <;> rfl
  · have hc := h.counts j
    dsimp only
    rw [hm.lock]
    exact hc

omit [DecidableEq ι] in
/-- Another process is scheduled: no slot is being filled, and who sleeps in `lock_buffer` has a
    reference. -/
theorem Sound.switch (h : Sound σ q) (hs : (σ.place σ.cur).Sleeps σ.b) (p : ι) :
    Sound { σ with cur := p } q := by
  have hno : ∀ m k, σ.place σ.cur ≠ .filled m k := fun m k hp => by
    rw [hp] at hs
    exact hs
  refine ⟨h.queued, h.major, fun k hk => Or.inl (h.slots_left hno hk), h.writes, fun p' => ?_,
    h.owned.congr (fun a j => ?_) fun _ => rfl, h.counts⟩
  · have hf := h.fits p'
    dsimp only
    cases hpl : σ.place p' with
    | lock m w a held i =>
      rw [hpl] at hf
      refine ⟨hf.1, Or.inl (hf.2.resolve_right ?_)⟩
      rintro ⟨rfl, hl⟩
      rw [hpl] at hs
      rw [hs] at hl
      cases hl
    | filled m k =>
      rw [hpl] at hf
      obtain ⟨rfl, -⟩ := hf
      exact absurd hpl (hno m k)
    | _ =>
      rw [hpl] at hf
      exact hf
  · cases a <;> rfl

theorem Sound.call (h : Sound σ q) {rw_ : Rw} {held : Bool} (hp : σ.place σ.cur = .other)
    (hl : held = true ∨ (σ.b.buf i).lock = false) :
    Sound (σ.after σ.b (llRwBlock σ.b rw_ i held)) q := by
  have hpl : llRwBlock σ.b rw_ i held = .other ∨ ∃ w a,
      llRwBlock σ.b rw_ i held = .lock ((σ.b.buf i).dev / 256) w a held i := by
    unfold llRwBlock
    dsimp only
    split_ifs
    · exact Or.inl rfl
    · exact Or.inl rfl
    · exact Or.inr ⟨_, _, rfl⟩
  rcases hpl with hpl | ⟨w, a, hpl⟩ <;> rw [hpl]
  · exact h.move trivial (by rw [hp]) (by simp [hp])
  · exact h.move ⟨rfl, hl.imp_right fun hl => ⟨rfl, hl⟩⟩ (by rw [hp]; rfl) (by simp [hp])

/-- The code of `make_request` goes on. -/
theorem Sound.go (h : Sound σ q) (hg : goOn σ.b (σ.place σ.cur) = some (b, pl)) :
    ∃ q', Sound (σ.after b pl) q' := by
  have hf := h.fits σ.cur
  cases hp : σ.place σ.cur with
  | other => rw [hp] at hg; cases hg
  | lock m w a held i =>
    simp only [hp, goOn] at hg
    split_ifs at hg with hl
    cases hg
    exact ⟨q, h.lockBuffer hp (by simpa using hl)⟩
  | locked m w a i =>
    simp only [hp, goOn] at hg
    split_ifs at hg
    · cases hg
      exact ⟨q, h.unlockBuffer (by rw [hp]; rfl)⟩
    · cases hg
      rw [hp] at hf
      exact ⟨q, h.move hf (by rw [hp]; rfl) (by simp [hp])⟩
  | again m w a i =>
    simp only [hp, goOn] at hg
    split at hg
    · rename_i k hk
      cases hg
      exact ⟨q, h.fill hp hk⟩
    · split_ifs at hg
      cases hg
      exact ⟨q, h.unlockBuffer (by rw [hp]; rfl)⟩
  | filled m k =>
    simp only [hp, goOn] at hg
    cases hg
    exact h.addRequest hp

theorem Sound.step {e : Event ι} (h : Sound σ q) (hs : Sys.Step σ e σ') : ∃ q', Sound σ' q' := by
  cases hs with
  | call hp hl => exact ⟨q, h.call hp hl⟩
  | go hg => exact h.go hg
  | change hp hm => exact ⟨q, h.change hp hm⟩
  | switch hs => exact ⟨q, h.switch hs _⟩
  | endRequest he => exact h.endRequest he
  | readIntr he => exact h.readIntr he
  | writeIntr he => exact h.writeIntr he

theorem sound (h : (requestSystem ι).Reachable σ) : ∃ q, Sound σ q := by
  refine h.invariant (I := fun σ => ∃ q, Sound σ q) ?_ fun σ e σ' _ ⟨q, hq⟩ hs => hq.step hs
  rintro σ ⟨⟨driver, buf, hb⟩, hl, hp⟩
  have hfree : ∀ k, (σ.b.request k).dev = -1 := fun k => by rw [hb]; rfl
  refine ⟨fun _ => [], ⟨⟨fun m => ?_, by simp, by simp⟩, by simp, fun k hk => ?_, fun k hk => ?_,
    fun p => ?_, ⟨fun i => ?_, fun a a' i ha _ => ?_⟩, fun i => ?_⟩⟩
  · rw [hb]; rfl
  · rw [hfree] at hk
    exact absurd hk (by decide)
  · rw [hfree] at hk
    exact absurd hk (by decide)
  · rw [hp p]; trivial
  · rw [hl]
    refine iff_of_false (by decide) ?_
    rintro ⟨a, ha⟩
    cases a with
    | inl p =>
      rw [Holds, hp p] at ha
      cases ha
    | inr k => exact absurd ha.1 (by rw [hfree]; decide)
  · cases a with
    | inl p =>
      rw [Holds, hp p] at ha
      cases ha
    | inr k => exact absurd ha.1 (by rw [hfree]; decide)
  · rw [hl, hb]; rfl

/-! ## What holds of the table -/

/-- The process is inside `make_request` with buffer `i` locked by it. -/
def Place.Inside (b : Queues) (i : ℕ) : Place → Prop
  | .locked _ _ _ j | .again _ _ _ j => j = i
  | .filled _ k => (b.request k).bh = i
  | _ => False

/-- The queues are lists, hold the slots in use but for one being filled by the running process,
    and each the requests of its major number; queued buffers are different and locked; a locked
    buffer is queued or locked by a process in `make_request`; writes keep to the first two
    thirds; and a buffer has been unlocked as often as it has been locked, or once less while it is
    locked. -/
structure Integrity (σ : Sys ι) (q : ℕ → List Slot) : Prop where
  linked : ∀ m, IsLinked σ.b.next (σ.b.current m) (q m)
  once : ∀ m, (q m).Nodup
  used : ∀ k, 0 ≤ (σ.b.request k).dev ↔
    (∃ m, k ∈ q m) ∨ ∃ m, σ.place σ.cur = .filled m k ∧ ∀ m', k ∉ q m'
  major : ∀ m, ∀ k ∈ q m, (σ.b.request k).dev.toNat / 256 = m
  different : ∀ m m' k k', k ∈ q m → k' ∈ q m' →
    (σ.b.request k).bh = (σ.b.request k').bh → k = k'
  locked : ∀ m, ∀ k ∈ q m, (σ.b.buf (σ.b.request k).bh).lock = true
  holder : ∀ i, (σ.b.buf i).lock = true →
    (∃ m, ∃ k ∈ q m, (σ.b.request k).bh = i) ∨ ∃ p, (σ.place p).Inside σ.b i
  writes : ∀ k, 0 ≤ (σ.b.request k).dev → (σ.b.request k).write = true → k.val < 32 * 2 / 3
  counts : ∀ i, σ.b.locks i = σ.b.unlocks i + (σ.b.buf i).lock.toNat

theorem queue_integrity (h : (requestSystem ι).Reachable σ) : ∃ q, Integrity σ q := by
  obtain ⟨q, hq⟩ := sound h
  have hdev : ∀ m, ∀ k ∈ q m, 0 ≤ (σ.b.request k).dev := hq.queued.used
  refine ⟨q, ⟨hq.queued.linked, fun m => (hq.queued.linked m).nodup, fun k => ⟨fun hk => ?_, ?_⟩,
    hq.major, fun m m' k k' hk hk' he => ?_, fun m k hk => ?_, fun i hi => ?_, hq.writes, hq.counts⟩⟩
  · refine (hq.slots k hk).imp_right fun ⟨m, hm⟩ => ⟨m, hm, ?_⟩
    have hf := hq.fits σ.cur
    rw [hm] at hf
    exact hf.2.2.2
  · rintro (⟨m, hm⟩ | ⟨m, hm, -⟩)
    · exact hdev m k hm
    · have hf := hq.fits σ.cur
      rw [hm] at hf
      exact hf.2.1
  · exact Sum.inr.inj (hq.owned.one (.inr k) (.inr k') _ ⟨hdev m k hk, he⟩ ⟨hdev m' k' hk', rfl⟩)
  · exact (hq.owned.lock _).mpr ⟨.inr k, hdev m k hk, rfl⟩
  · obtain ⟨a, ha⟩ := (hq.owned.lock i).mp hi
    cases a with
    | inl p =>
      refine Or.inr ⟨p, ?_⟩
      rw [Holds] at ha
      cases hp : σ.place p <;> rw [hp] at ha <;> cases ha <;> exact rfl
    | inr k =>
      rcases hq.slots k ha.1 with ⟨m, hm⟩ | ⟨m, hm⟩
      · exact Or.inl ⟨m, k, hm, ha.2⟩
      · exact Or.inr ⟨σ.cur, by rw [hm]; exact ha.2⟩

/-- One process, after `blk_dev_init`. -/
def idle : Sys Unit where
  b := Queues.init (fun _ => true) fun _ => ⟨769, 1, false, false, 1, false, fun _ => 0⟩
  place _ := .other
  cur := ()

/-- It reads buffer 0 and is about to queue the request. -/
def reading : Sys Unit where
  b := (idle.b.lockBuffer 0).fill 31 false 0
  place := Function.update idle.place () (.filled 3 31)
  cur := ()

theorem reading_reachable : (requestSystem Unit).Reachable reading := by
  have h0 : (requestSystem Unit).Reachable idle :=
    .init ⟨⟨_, _, rfl⟩, fun _ => rfl, fun _ => rfl⟩
  have hc : Sys.Step idle (.run (.llRwBlock .read 0 true)) _ := .call rfl (Or.inl rfl)
  have h1 := h0.step hc
  have h2 := h1.step (Sys.Step.go rfl)
  have h3 := h2.step (Sys.Step.go rfl)
  have h4 := h3.step (Sys.Step.go rfl)
  simp only [Sys.after, Function.update_idem] at h4
  exact h4

theorem queue_integrity_reading : ∃ q, Integrity reading q := queue_integrity reading_reachable

end Linux011.Blk
