/-
  Runs of a pipe. If calls are switched only in `sleep_on`, the bytes come out in the order they
  went in: `pipe_fifo`. If page faults switch them in the copy loops too, this still holds of every
  byte as long as a call claims only what is there: `pipe_exact`; without it, a reader delivers
  bytes that nobody has stored (`pipe_delivers_unstored`).
-/
import Linux011.Fs.PipeInv

namespace Linux011.Fs
open Linux011.Lib

variable {ι : Type*} [DecidableEq ι]

/-- The bytes of its claim that a call has not copied yet. -/
def PipePhase.held : PipePhase → ℕ
  | .copy _ n _ => n
  | .byte _ n _ _ => n + 1
  | _ => 0

/-- The result is the number of bytes copied; or -1, of a writer that copied none when no other
    end was open. -/
def PipeReturn.Honest (r : PipeReturn) : Prop :=
  r.value = r.copied ∨ (r.value = -1 ∧ r.writer = true ∧ r.copied = 0 ∧ r.alone = true)

namespace Pipe

variable {s s' : Pipe ι} {t u : ι} {c : PipeCall} {p : PipePhase} {life : ℕ → ByteLife ι}

/-- Everything the next piece of a call can do. -/
theorem go_cases (s : Pipe ι) (t : ι) (c : PipeCall) (p : PipePhase) :
    (∃ v, p = .test ∧ s.go t c p = s.ret t c v ∧ (v = c.total ∨
      (c.src.isSome = true ∧ c.total = 0 ∧ v = -1 ∧ s.iCount ≠ 2))) ∨
    (∃ q, (p = .test ∨ p = .wait ∨ ∃ a i, p = .copy a 0 i) ∧ (q = .test ∨ q = .wait) ∧
      s.go t c p = s.setCall t c q) ∨
    (∃ n, p = .test ∧ c.src = none ∧ n = chars s.tail c.count s.size ∧
      s.go t c p = { s.setCall t { c with count := c.count - n, total := c.total + n }
        (.copy s.tail n s.taken) with tail := advance s.tail n, taken := s.taken + n }) ∨
    (∃ n, p = .test ∧ c.src.isSome = true ∧ n = chars s.head c.count (4095 - s.size) ∧
      s.go t c p = { s.setCall t { c with count := c.count - n, total := c.total + n }
        (.copy s.head n s.given) with head := advance s.head n, given := s.given + n }) ∨
    (∃ size n idx, p = .copy size (n + 1) idx ∧ c.src = none ∧
      s.go t c p = s.setCall t c (.byte (size + 1) n idx (s.page size))) ∨
    (∃ size n idx b, p = .copy size (n + 1) idx ∧ c.src.isSome = true ∧
      s.go t c p = { s.setCall t { c with copied := c.copied + 1 } (.copy (size + 1) n (idx + 1)) with
        page := Function.update s.page size b, accepted := s.accepted ++ [(idx, b)] }) ∨
    ∃ size n idx b, p = .byte size n idx b ∧
      s.go t c p = { s.setCall t { c with copied := c.copied + 1 } (.copy size n (idx + 1)) with
        delivered := s.delivered ++ [(idx, b)] } := by
  have hsrc : c.src = none ∨ c.src.isSome = true := by cases c.src <;> simp
  cases p with
  | test =>
    obtain hc | hc := hsrc
    · have hgo : s.go t c .test = s.readTest t c := by simp only [go, hc]; rfl
      unfold readTest at hgo
      split_ifs at hgo with h1 h2 h3
      · exact .inl ⟨_, rfl, hgo, .inl rfl⟩
      · exact .inl ⟨_, rfl, hgo, .inl rfl⟩
      · exact .inr (.inl ⟨.wait, .inl rfl, .inr rfl, hgo⟩)
      · exact .inr (.inr (.inl ⟨_, rfl, hc, rfl, hgo⟩))
    · have hgo : s.go t c .test = s.writeTest t c := by simp only [go, hc, if_true]
      unfold writeTest at hgo
      split_ifs at hgo with h1 h2 h3 h4
      · exact .inl ⟨_, rfl, hgo, .inl rfl⟩
      · exact .inl ⟨_, rfl, hgo, .inr ⟨hc, h4, rfl, h3⟩⟩
      · exact .inl ⟨_, rfl, hgo, .inl rfl⟩
      · exact .inr (.inl ⟨.wait, .inl rfl, .inr rfl, hgo⟩)
      · exact .inr (.inr (.inr (.inl ⟨_, rfl, hc, rfl, hgo⟩)))
  | wait => exact .inr (.inl ⟨.test, .inr (.inl rfl), .inl rfl, rfl⟩)
  | copy size n idx =>
    cases n with
    | zero => exact .inr (.inl ⟨.test, .inr (.inr ⟨size, idx, rfl⟩), .inl rfl, rfl⟩)
    | succ n =>
      cases hc : c.src with
      | none =>
        have hgo : s.go t c (.copy size (n + 1) idx) =
            s.setCall t c (.byte (size + 1) n idx (s.page size)) := by simp only [go, hc]
        exact .inr (.inr (.inr (.inr (.inl ⟨size, n, idx, rfl, rfl, hgo⟩))))
      | some src =>
        refine .inr (.inr (.inr (.inr (.inr (.inl ⟨size, n, idx, src c.copied, rfl, rfl, ?_⟩)))))
        simp only [go, hc]
  | byte size n idx b =>
    exact .inr (.inr (.inr (.inr (.inr (.inr ⟨size, n, idx, b, rfl, rfl⟩)))))

theorem step_cases {e : PipeEvent ι} (h : s.step e = some s') :
    (∃ t src count, e = .call t src count ∧ s.call t = none ∧
      s' = s.setCall t ⟨src, count.toNat, 0, 0⟩ .test) ∨
    (∃ t c p, e = .go t ∧ s.call t = some (c, p) ∧ s' = s.go t c p) ∨
    ∃ n, e = .ends n ∧ s' = { s with iCount := n } := by
  cases e with
  | call t src count =>
    simp only [step] at h
    split_ifs at h with hc
    exact .inl ⟨t, src, count, rfl, not_not.mp hc, (Option.some.inj h).symm⟩
  | go t =>
    obtain ⟨⟨c, p⟩, hc, rfl⟩ := Option.map_eq_some_iff.mp h
    exact .inr (.inl ⟨t, c, p, rfl, hc, rfl⟩)
  | ends n => exact .inr (.inr ⟨n, rfl, (Option.some.inj h).symm⟩)

theorem chars_le (x count size : ℕ) :
    chars x count size ≤ 4096 - x ∧ chars x count size ≤ count ∧ chars x count size ≤ size := by
  unfold chars
  omega

theorem Inv.go (h : s.Inv life) (ht : s.call t = some (c, p)) (hclear : s.Clear (.go t)) :
    ∃ life', (s.go t c p).Inv life' := by
  have hhead : s.head < 4096 := by rw [h.head]; omega
  have htail : s.tail < 4096 := by rw [h.tail]; omega
  have hnone : p.unmoved = none → (∀ w j, ¬ s.Pend w t j) ∧ ∀ j b, ¬ s.Loaded t j b := by
    intro hp
    refine ⟨fun w j hpend => ?_, ?_⟩
    · obtain ⟨-, a, n, i, hun, -⟩ := (pend_of_call ht w j).mp hpend
      rw [hp] at hun
      cases hun
    · rintro j b ⟨c', a, n, hc⟩
      rw [ht] at hc
      cases hc
      cases hp
  obtain ⟨v, rfl, hgo, -⟩ | ⟨q, hp, hq, hgo⟩ | ⟨n, rfl, hc, hn, hgo⟩ | ⟨n, rfl, hc, hn, hgo⟩ |
    ⟨a, n, i, rfl, hc, hgo⟩ | ⟨a, n, i, b, rfl, hc, hgo⟩ | ⟨a, n, i, b, rfl, hgo⟩ := s.go_cases t c p
  · obtain ⟨h1, h2⟩ := hnone rfl
    exact ⟨life, hgo ▸ h.calm (fun c' p' he => by cases he) h1 h2 s.iCount _⟩
  · have h12 : (∀ w j, ¬ s.Pend w t j) ∧ ∀ j b, ¬ s.Loaded t j b := by
      obtain rfl | rfl | ⟨a, i, rfl⟩ := hp
      · exact hnone rfl
      · exact hnone rfl
      · refine ⟨fun w j hpend => ?_, not_loaded_copy ht⟩
        have := (pend_copy ht w j).mp hpend
        omega
    refine ⟨life, hgo ▸ h.calm (fun c' p' he => ?_) h12.1 h12.2 s.iCount s.returned⟩
    cases he
    obtain rfl | rfl := hq <;> rfl
  · obtain ⟨h1, h2⟩ := hnone rfl
    obtain ⟨b1, b2, b3⟩ := chars_le s.tail c.count s.size
    rw [hgo]
    refine h.claim_read hc (by omega) (by omega) h1 h2 fun u size m idx hcu i k hi hk => ?_
    have hcl := hclear c ht u size m idx (by rw [hc]; exact hcu) i k hi
    rw [hc] at hcl
    exact hcl (hn ▸ hk)
  · obtain ⟨h1, h2⟩ := hnone rfl
    obtain ⟨b1, b2, b3⟩ := chars_le s.head c.count (4095 - s.size)
    rw [hgo]
    refine h.claim_write hc (by omega) (by omega) h1 h2 fun u size m idx hcu i k hi hk => ?_
    have hcl := hclear c ht u size m idx (by rw [hc]; exact hcu) i k hi
    rw [hc] at hcl
    exact hcl (hn ▸ hk)
  · exact ⟨Function.update life i (.loaded t (s.page a)), by rw [hgo]; exact h.load hc ht⟩
  · exact ⟨Function.update life i (.ready b), by rw [hgo]; exact h.store b hc rfl ht⟩
  · exact ⟨Function.update life i (.done b), by rw [hgo]; exact h.deliver (c := c) rfl ht⟩

theorem Inv.step (h : s.Inv life) {e : PipeEvent ι} (hclear : s.Clear e)
    (hs : s.step e = some s') : ∃ life', s'.Inv life' := by
  obtain ⟨t, src, count, rfl, ht, rfl⟩ | ⟨t, c, p, rfl, ht, rfl⟩ | ⟨n, rfl, rfl⟩ := step_cases hs
  · refine ⟨life, h.calm (fun c' p' he => by cases he; rfl) (fun w j hp => ?_) (fun j b hl => ?_)
      s.iCount s.returned⟩
    · obtain ⟨a, n, i, ⟨c', p', he, -⟩, -⟩ := hp
      rw [ht] at he
      cases he
    · obtain ⟨c', a, n, he⟩ := hl
      rw [ht] at he
      cases he
  · exact h.go ht hclear
  · exact ⟨life, { h with }⟩

/-! ## What the calls return -/

/-- Each call has copied all it counts but what it still holds, and told the truth. -/
structure Counts (s : Pipe ι) : Prop where
  total : ∀ u c p, s.call u = some (c, p) → c.total = c.copied + p.held
  returned : ∀ r ∈ s.returned, r.Honest

omit [DecidableEq ι] in
theorem Counts.start (page : ℕ → UInt8) : (Pipe.start page : Pipe ι).Counts :=
  ⟨fun u c p h => (by cases h), fun r hr => absurd hr List.not_mem_nil⟩

theorem Counts.of_update (h : s.Counts) {o : Option (PipeCall × PipePhase)}
    (hcall : s'.call = Function.update s.call t o)
    (ho : ∀ c p, o = some (c, p) → c.total = c.copied + p.held)
    (hr : ∀ r ∈ s'.returned, r ∈ s.returned ∨ r.Honest) : s'.Counts := by
  refine ⟨fun u c p hu => ?_, fun r hr' => ?_⟩
  · rw [hcall] at hu
    by_cases hut : u = t
    · subst hut
      rw [Function.update_self] at hu
      exact ho c p hu
    · rw [Function.update_of_ne hut] at hu
      exact h.total u c p hu
  · exact (hr r hr').elim (h.returned r) id

theorem Counts.go (h : s.Counts) (ht : s.call t = some (c, p)) : (s.go t c p).Counts := by
  have htot := h.total t c p ht
  have hsame : ∀ r ∈ s.returned, r ∈ s.returned ∨ r.Honest := fun r hr => .inl hr
  obtain ⟨v, rfl, hgo, hv⟩ | ⟨q, hp, hq, hgo⟩ | ⟨n, rfl, hc, -, hgo⟩ | ⟨n, rfl, hc, -, hgo⟩ |
    ⟨a, n, i, rfl, hc, hgo⟩ | ⟨a, n, i, b, rfl, hc, hgo⟩ | ⟨a, n, i, b, rfl, hgo⟩ := s.go_cases t c p
  · rw [hgo]
    refine h.of_update (t := t) rfl (fun c' p' he => by cases he) fun r hr => ?_
    obtain rfl | hr := List.mem_cons.mp hr
    · right
      simp only [PipePhase.held] at htot
      obtain rfl | ⟨hw, hz, rfl, hi⟩ := hv
      · exact .inl (by show (c.total : ℤ) = c.copied; omega)
      · exact .inr ⟨rfl, hw, by show c.copied = 0; omega, by simpa using hi⟩
    · exact .inl hr
  · rw [hgo]
    refine h.of_update (t := t) rfl (fun c' p' he => ?_) hsame
    cases he
    have hp0 : p.held = 0 := by
      obtain rfl | rfl | ⟨a, i, rfl⟩ := hp <;> rfl
    have hq0 : q.held = 0 := by
      obtain rfl | rfl := hq <;> rfl
    omega
  · rw [hgo]
    refine h.of_update (t := t) rfl (fun c' p' he => ?_) hsame
    cases he
    simp only [PipePhase.held] at htot ⊢
    omega
  · rw [hgo]
    refine h.of_update (t := t) rfl (fun c' p' he => ?_) hsame
    cases he
    simp only [PipePhase.held] at htot ⊢
    omega
  · rw [hgo]
    refine h.of_update (t := t) rfl (fun c' p' he => ?_) hsame
    cases he
    simpa only [PipePhase.held] using htot
  · rw [hgo]
    refine h.of_update (t := t) rfl (fun c' p' he => ?_) hsame
    cases he
    simp only [PipePhase.held] at htot ⊢
    omega
  · rw [hgo]
    refine h.of_update (t := t) rfl (fun c' p' he => ?_) hsame
    cases he
    simp only [PipePhase.held] at htot ⊢
    omega

theorem Counts.step (h : s.Counts) {e : PipeEvent ι} (hs : s.step e = some s') : s'.Counts := by
  obtain ⟨t, src, count, rfl, ht, rfl⟩ | ⟨t, c, p, rfl, ht, rfl⟩ | ⟨n, rfl, rfl⟩ := step_cases hs
  · exact h.of_update (t := t) rfl (fun c' p' he => by cases he; rfl) fun r hr => .inl hr
  · exact h.go ht
  · exact ⟨h.total, h.returned⟩

/-! ## Order -/

/-- No other call is in a copy loop: processes switch only in `sleep_on`. -/
def Coop (s : Pipe ι) : PipeEvent ι → Prop
  | .go t => ∀ u, u ≠ t → ¬ s.Busy u
  | _ => True

omit [DecidableEq ι] in
theorem Coop.clear {e : PipeEvent ι} (h : s.Coop e) : s.Clear e := by
  cases e with
  | go t =>
    rintro c ht u size n idx ⟨c', p, hu, -, hun⟩
    have hut : u = t := by
      by_contra hne
      exact h u hne ⟨c', p, hu, by rw [hun]; exact nofun⟩
    subst hut
    rw [ht] at hu
    cases hu
    cases hun
  | call t src count => trivial
  | ends n => trivial

/-- The bytes are in the logs in the order of their numbers, and one call at most copies. -/
structure Ordered (s : Pipe ι) : Prop where
  accepted : s.accepted.map Prod.fst = List.range s.accepted.length
  delivered : s.delivered.map Prod.fst = List.range s.delivered.length
  single : ∀ u u', s.Busy u → s.Busy u' → u = u'

omit [DecidableEq ι] in
theorem Ordered.start (page : ℕ → UInt8) : (Pipe.start page : Pipe ι).Ordered :=
  ⟨rfl, rfl, fun u u' ⟨c, p, h, _⟩ => by cases h⟩

omit [DecidableEq ι] in
theorem Pend.busy {w : Bool} {j : ℕ} (h : s.Pend w u j) : s.Busy u := by
  obtain ⟨a, n, i, ⟨c, p, hu, -, hun⟩, -⟩ := h
  exact ⟨c, p, hu, by rw [hun]; exact nofun⟩

omit [DecidableEq ι] in
theorem Loaded.busy {j : ℕ} {b : UInt8} (h : s.Loaded u j b) : s.Busy u := by
  obtain ⟨c, a, n, hu⟩ := h
  exact ⟨c, _, hu, nofun⟩

omit [DecidableEq ι] in
/-- The numbers in a log without gaps. -/
theorem mem_log {l : List (ℕ × UInt8)} (h : l.map Prod.fst = List.range l.length) {j : ℕ} :
    (∃ b, (j, b) ∈ l) ↔ j < l.length := by
  rw [← List.mem_range, ← h]
  simp

theorem single_update (hs : ∀ v, v ≠ t → ¬ s.Busy v) {o : Option (PipeCall × PipePhase)}
    (hcall : s'.call = Function.update s.call t o) : ∀ u u', s'.Busy u → s'.Busy u' → u = u' := by
  have hall : ∀ u, s'.Busy u → u = t := by
    rintro u ⟨c, p, hu, hun⟩
    by_contra hne
    rw [hcall, Function.update_of_ne hne] at hu
    exact hs u hne ⟨c, p, hu, hun⟩
  exact fun u u' hu hu' => (hall u hu).trans (hall u' hu').symm

omit [DecidableEq ι] in
theorem range_log {l : List (ℕ × UInt8)} (h : l.map Prod.fst = List.range l.length) {j : ℕ}
    {b : UInt8} (hj : j = l.length) :
    (l ++ [(j, b)]).map Prod.fst = List.range (l ++ [(j, b)]).length := by
  rw [List.map_append, h, List.length_append, List.map_cons, List.map_nil, List.length_singleton,
    List.range_succ, hj]

omit [DecidableEq ι] in
/-- While nobody else copies, the next byte to store is the first that is not accepted. -/
theorem Ordered.next_store (ho : s.Ordered) (h : s.Inv life) (hcoop : ∀ u, u ≠ t → ¬ s.Busy u)
    {size n idx : ℕ} (hc : c.src.isSome = true) (ht : s.call t = some (c, .copy size (n + 1) idx)) :
    idx = s.accepted.length := by
  have hmine : life idx = .owed t := (h.owed t idx).mp ((pend_copy ht true idx).mpr ⟨hc, by omega, by omega⟩)
  refine Nat.le_antisymm ?_ ?_
  · -- every byte before it is stored
    by_contra hlt
    have hgap : ¬ ∃ b, (s.accepted.length, b) ∈ s.accepted := by
      rw [mem_log ho.accepted]
      omega
    have hlt' : s.accepted.length < s.given := by
      have := h.lt_given (j := idx) (by rw [hmine]; exact nofun)
      omega
    have hbyte : ∀ b, (life s.accepted.length).byte ≠ some b := fun b hb =>
      hgap ⟨b, (h.accepted _ b).mpr hb⟩
    cases hl : life s.accepted.length with
    | future => exact absurd ((h.future _).mp hl) (by omega)
    | owed u =>
      have hp := (h.owed u _).mpr hl
      have hut : u = t := by
        by_contra hne
        exact hcoop u hne hp.busy
      subst hut
      have := (pend_copy ht true _).mp hp
      omega
    | ready b => exact hbyte b (by rw [hl]; rfl)
    | claimed u b => exact hbyte b (by rw [hl]; rfl)
    | loaded u b => exact hbyte b (by rw [hl]; rfl)
    | done b => exact hbyte b (by rw [hl]; rfl)
  · by_contra hlt
    obtain ⟨b, hb⟩ := (mem_log ho.accepted).mpr (show idx < s.accepted.length by omega)
    rw [h.accepted, hmine] at hb
    cases hb

omit [DecidableEq ι] in
/-- While nobody else copies, the byte in hand is the first that is not delivered. -/
theorem Ordered.next_deliver (ho : s.Ordered) (h : s.Inv life) (hcoop : ∀ u, u ≠ t → ¬ s.Busy u)
    {size n idx : ℕ} {b : UInt8} (ht : s.call t = some (c, .byte size n idx b)) :
    idx = s.delivered.length := by
  have hmine : life idx = .loaded t b := (h.loaded t idx b).mp ⟨c, size, n, ht⟩
  refine Nat.le_antisymm ?_ ?_
  · by_contra hlt
    have hgap : ¬ ∃ b, (s.delivered.length, b) ∈ s.delivered := by
      rw [mem_log ho.delivered]
      omega
    have htaken : (life s.delivered.length).taken = true := by
      rw [h.taken]
      have := (h.taken idx).mp (by rw [hmine]; rfl)
      omega
    cases hl : life s.delivered.length with
    | future => rw [hl] at htaken; cases htaken
    | owed u => rw [hl] at htaken; cases htaken
    | ready b => rw [hl] at htaken; cases htaken
    | claimed u b' =>
      have hp := (h.claimed u _).mpr ⟨b', hl⟩
      have hut : u = t := by
        by_contra hne
        exact hcoop u hne hp.busy
      subst hut
      have := (pend_byte ht false _).mp hp
      omega
    | loaded u b' =>
      have hp := (h.loaded u _ _).mpr hl
      have hut : u = t := by
        by_contra hne
        exact hcoop u hne hp.busy
      subst hut
      have := (loaded_byte ht).mp hp
      omega
    | done b' => exact hgap ⟨b', (h.delivered _ b').mpr hl⟩
  · by_contra hlt
    obtain ⟨b', hb⟩ := (mem_log ho.delivered).mpr (show idx < s.delivered.length by omega)
    rw [h.delivered, hmine] at hb
    cases hb

theorem Ordered.go (ho : s.Ordered) (h : s.Inv life) (ht : s.call t = some (c, p))
    (hcoop : ∀ u, u ≠ t → ¬ s.Busy u) : (s.go t c p).Ordered := by
  obtain ⟨v, rfl, hgo, -⟩ | ⟨q, hp, hq, hgo⟩ | ⟨n, rfl, hc, -, hgo⟩ | ⟨n, rfl, hc, -, hgo⟩ |
    ⟨a, n, i, rfl, hc, hgo⟩ | ⟨a, n, i, b, rfl, hc, hgo⟩ | ⟨a, n, i, b, rfl, hgo⟩ := s.go_cases t c p
  · rw [hgo]
    exact ⟨ho.accepted, ho.delivered, single_update hcoop rfl⟩
  · rw [hgo]
    exact ⟨ho.accepted, ho.delivered, single_update hcoop rfl⟩
  · rw [hgo]
    exact ⟨ho.accepted, ho.delivered, single_update hcoop rfl⟩
  · rw [hgo]
    exact ⟨ho.accepted, ho.delivered, single_update hcoop rfl⟩
  · rw [hgo]
    exact ⟨ho.accepted, ho.delivered, single_update hcoop rfl⟩
  · rw [hgo]
    exact ⟨range_log ho.accepted (ho.next_store h hcoop hc ht), ho.delivered,
      single_update hcoop rfl⟩
  · rw [hgo]
    exact ⟨ho.accepted, range_log ho.delivered (ho.next_deliver h hcoop ht),
      single_update hcoop rfl⟩

theorem Ordered.step (ho : s.Ordered) (h : s.Inv life) {e : PipeEvent ι} (hcoop : s.Coop e)
    (hs : s.step e = some s') : s'.Ordered := by
  obtain ⟨t, src, count, rfl, ht, rfl⟩ | ⟨t, c, p, rfl, ht, rfl⟩ | ⟨n, rfl, rfl⟩ := step_cases hs
  · refine ⟨ho.accepted, ho.delivered, fun u u' hu hu' => ?_⟩
    have hall : ∀ v, (s.setCall t ⟨src, count.toNat, 0, 0⟩ .test).Busy v → s.Busy v := by
      rintro v ⟨c', p', hv, hun⟩
      by_cases hvt : v = t
      · subst hvt
        rw [show (s.setCall v ⟨src, count.toNat, 0, 0⟩ .test).call v = some (_, .test) from
          Function.update_self ..] at hv
        cases hv
        exact absurd rfl hun
      · rw [show (s.setCall t ⟨src, count.toNat, 0, 0⟩ .test).call v = s.call v from
          Function.update_of_ne hvt ..] at hv
        exact ⟨c', p', hv, hun⟩
    exact ho.single u u' (hall u hu) (hall u' hu')
  · exact ho.go h ht hcoop
  · exact ⟨ho.accepted, ho.delivered, ho.single⟩

omit [DecidableEq ι] in
/-- A log without gaps is read off the numbers. -/
theorem log_eq {l : List (ℕ × UInt8)} {n : ℕ} {f : ℕ → UInt8} (h : l.map Prod.fst = List.range n)
    (hf : ∀ j b, (j, b) ∈ l → b = f j) : l.map Prod.snd = (List.range n).map f := by
  rw [← h, List.map_map]
  exact List.map_congr_left fun x hx => hf x.1 x.2 hx

omit [DecidableEq ι] in
/-- When nobody copies: what came out, and what is in the ring, is what went in. -/
theorem Ordered.fifo (ho : s.Ordered) (h : s.Inv life) (hidle : ∀ u, ¬ s.Busy u) :
    s.delivered.map Prod.snd ++ s.contents = s.accepted.map Prod.snd := by
  have hbyte : ∀ j, j < s.given → ∃ b, (life j).byte = some b := by
    intro j hj
    cases hl : life j with
    | future => exact absurd ((h.future j).mp hl) (by omega)
    | owed u => exact absurd ((h.owed u j).mpr hl).busy (hidle u)
    | ready b => exact ⟨b, rfl⟩
    | claimed u b => exact ⟨b, rfl⟩
    | loaded u b => exact ⟨b, rfl⟩
    | done b => exact ⟨b, rfl⟩
  have hdone : ∀ j, j < s.taken → ∃ b, life j = .done b := by
    intro j hj
    have htaken := (h.taken j).mpr hj
    cases hl : life j with
    | future => rw [hl] at htaken; cases htaken
    | owed u => rw [hl] at htaken; cases htaken
    | ready b => rw [hl] at htaken; cases htaken
    | claimed u b => exact absurd ((h.claimed u j).mpr ⟨b, hl⟩).busy (hidle u)
    | loaded u b => exact absurd ((h.loaded u j b).mpr hl).busy (hidle u)
    | done b => exact ⟨b, rfl⟩
  have hglen : s.accepted.length = s.given := by
    refine Nat.le_antisymm ?_ ?_
    · by_contra hlt
      obtain ⟨b, hb⟩ := (mem_log ho.accepted).mpr (show s.given < s.accepted.length by omega)
      rw [h.accepted, (h.future s.given).mpr (Nat.le_refl _)] at hb
      cases hb
    · by_contra hlt
      obtain ⟨b, hb⟩ := hbyte s.accepted.length (by omega)
      exact absurd ((mem_log ho.accepted).mp ⟨b, (h.accepted _ b).mpr hb⟩) (by omega)
  have htlen : s.delivered.length = s.taken := by
    refine Nat.le_antisymm ?_ ?_
    · by_contra hlt
      obtain ⟨b, hb⟩ := (mem_log ho.delivered).mpr (show s.taken < s.delivered.length by omega)
      have := (h.taken s.taken).mp (by rw [(h.delivered _ b).mp hb]; rfl)
      omega
    · by_contra hlt
      obtain ⟨b, hb⟩ := hdone s.delivered.length (by omega)
      exact absurd ((mem_log ho.delivered).mp ⟨b, (h.delivered _ b).mpr hb⟩) (by omega)
  have hle := h.le
  -- all three lists are read off the numbers of their bytes
  have hacc : s.accepted.map Prod.snd = (List.range s.given).map fun j => (life j).byte.getD 0 := by
    refine log_eq (by rw [ho.accepted, hglen]) fun j b hb => ?_
    rw [(h.accepted j b).mp hb]
    rfl
  have hdel : s.delivered.map Prod.snd = (List.range s.taken).map fun j => (life j).byte.getD 0 := by
    refine log_eq (by rw [ho.delivered, htlen]) fun j b hb => ?_
    rw [(h.delivered j b).mp hb]
    rfl
  have hcont : s.contents =
      (List.range (s.given - s.taken)).map fun i => (life (s.taken + i)).byte.getD 0 := by
    unfold contents
    rw [h.size_eq]
    refine List.map_congr_left fun i hi => ?_
    have hi' := List.mem_range.mp hi
    obtain ⟨u, hu⟩ | ⟨b, hb⟩ := h.owed_or_ready (j := s.taken + i) (by omega) (by omega)
    · exact absurd ((h.owed u _).mpr hu).busy (hidle u)
    · rw [h.tail, Nat.mod_add_mod, h.page (s.taken + i) b (by rw [hb]; rfl), hb]
      rfl
  rw [hacc, hdel, hcont]
  conv_rhs => rw [show s.given = s.taken + (s.given - s.taken) by omega, List.range_add]
  rw [List.map_append, List.map_map]
  rfl

end Pipe

open Pipe

theorem pipe_inv {s : Pipe ι} (h : ((pipeSystem ι).restrict Clear).Reachable s) :
    ∃ life, s.Inv life := by
  refine Lts.Reachable.invariant (I := fun s => ∃ life, s.Inv life) h ?_ ?_
  · rintro s ⟨page, rfl⟩
    exact ⟨_, Inv.start page⟩
  · intro s e s' _ hi hs
    obtain ⟨life, hl⟩ := hi
    exact hl.step hs.1 hs.2

theorem pipe_counts {s : Pipe ι} (h : (pipeSystem ι).Reachable s) : s.Counts := by
  refine h.invariant ?_ fun s e s' _ hi hs => hi.step hs
  rintro s ⟨page, rfl⟩
  exact Counts.start page

theorem pipe_ordered {s : Pipe ι} (h : ((pipeSystem ι).restrict Coop).Reachable s) : s.Ordered := by
  refine h.invariant ?_ ?_
  · rintro s ⟨page, rfl⟩
    exact Ordered.start page
  · intro s e s' hr hi hs
    obtain ⟨life, hl⟩ := pipe_inv (hr.mono fun _ _ hc => hc.clear)
    exact hi.step hl hs.1 hs.2

/-- If processes switch only in `sleep_on`: the ring holds at most 4095 bytes; whenever no call is
    in a copy loop, the bytes delivered followed by those in the ring are the bytes accepted, in
    order; and every call returns the number of bytes it copied, or -1. -/
theorem pipe_fifo (ι : Type*) [DecidableEq ι] (s : Pipe ι)
    (h : ((pipeSystem ι).restrict Coop).Reachable s) :
    s.given ≤ s.taken + 4095 ∧ s.size = s.given - s.taken ∧
    ((∀ u, ¬ s.Busy u) → s.delivered.map Prod.snd ++ s.contents = s.accepted.map Prod.snd) ∧
    ∀ r ∈ s.returned, r.Honest := by
  obtain ⟨life, hl⟩ := pipe_inv (h.mono fun _ _ hc => hc.clear)
  exact ⟨hl.room, hl.size_eq, (pipe_ordered h).fifo hl, (pipe_counts h.of_restrict).returned⟩

/-- One process writes a byte and reads it back. -/
def writeThenRead : List (PipeEvent Unit) :=
  [.call () (some fun _ => 7) 1, .go (), .go (), .go (), .go (),
    .call () none 1, .go (), .go (), .go (), .go (), .go ()]

theorem pipe_fifo_one_byte :
    ∃ s, writeThenRead.foldlM Pipe.step (Pipe.start fun _ => 0) = some s ∧
      s.delivered = [(0, 7)] ∧
      s.delivered.map Prod.snd ++ s.contents = s.accepted.map Prod.snd := by
  have hreach : ∀ s, writeThenRead.foldlM Pipe.step (Pipe.start fun _ => 0) = some s →
      ((pipeSystem Unit).restrict Coop).Reachable s := by
    intro s hs
    refine Lts.Reachable.foldlM (.init ⟨_, rfl⟩) (fun τ e τ' he => ⟨e, ?_, he⟩) writeThenRead hs
    cases e with
    | go t => exact fun u hu => absurd rfl hu
    | call t src count => trivial
    | ends n => trivial
  refine ⟨_, rfl, rfl, (pipe_fifo Unit _ (hreach _ rfl)).2.2.1 ?_⟩
  rintro u ⟨c, p, hu, -⟩
  cases hu

/-! ## Switches in the copy loops -/

namespace Pipe

/-- Every byte delivered is the one accepted under its number, and none twice; the next byte a
    reader loads is stored, and the next store of a writer falls on no place that a reader has
    claimed and not loaded; and a byte that the tail has passed is delivered or in the hands of a
    reader. -/
structure Exact (s : Pipe ι) : Prop where
  delivered : ∀ x ∈ s.delivered, x ∈ s.accepted
  accepted_once : (s.accepted.map Prod.fst).Nodup
  delivered_once : (s.delivered.map Prod.fst).Nodup
  load : ∀ u c size n idx, s.call u = some (c, .copy size (n + 1) idx) → c.src = none →
    (idx, s.page size) ∈ s.accepted
  store : ∀ u c size n idx, s.call u = some (c, .copy size (n + 1) idx) → c.src.isSome = true →
    ∀ v a m i, s.Copies false v a m i → ∀ k, k < m → a + k ≠ size
  complete : ∀ j, j < s.taken → (∃ b, (j, b) ∈ s.delivered) ∨
    ∃ u, s.Pend false u j ∨ ∃ b, s.Loaded u j b

variable {s s' : Pipe ι} {t u : ι} {c : PipeCall} {p : PipePhase} {life : ℕ → ByteLife ι}

omit [DecidableEq ι] in
theorem Inv.exact (h : s.Inv life) : s.Exact where
  delivered x hx := by
    have := (h.delivered x.1 x.2).mp hx
    exact (h.accepted x.1 x.2).mpr (by rw [this]; rfl)
  accepted_once := h.accepted_nodup
  delivered_once := h.delivered_nodup
  load u c size n idx hu hc := by
    have hcop : s.Copies false u size (n + 1) idx := ⟨c, _, hu, by rw [hc]; rfl, rfl⟩
    obtain ⟨b, hb⟩ := (h.claimed u idx).mp ⟨size, n + 1, idx, hcop, Nat.le_refl _, by omega⟩
    rw [(h.place _ _ _ _ _ hcop (by omega)).1, h.page idx b (by rw [hb]; rfl), h.accepted, hb]
    rfl
  store u c size n idx hu hc v a m i hv k hk he := by
    have hcop : s.Copies true u size (n + 1) idx := ⟨c, _, hu, hc, rfl⟩
    have hown : life idx = .owed u :=
      (h.owed u idx).mp ⟨size, n + 1, idx, hcop, Nat.le_refl _, by omega⟩
    obtain ⟨b, hb⟩ := (h.claimed v (i + k)).mp ⟨a, m, i, hv, by omega, by omega⟩
    have h1 := h.place_mod hcop (Nat.le_refl idx) (by omega)
    have h2 := h.place_mod hv (show i ≤ i + k by omega) (by omega)
    have h3 := h.window v _ b hb
    have h4 := (h.taken (i + k)).mp (by rw [hb]; rfl)
    have h5 := h.lt_given (j := idx) (by rw [hown]; exact nofun)
    have h6 : ¬ idx < s.taken := fun hlt => by
      have := (h.taken idx).mpr hlt
      rw [hown] at this
      cases this
    omega
  complete j hj := by
    have htaken := (h.taken j).mpr hj
    cases hl : life j with
    | future => rw [hl] at htaken; cases htaken
    | owed u => rw [hl] at htaken; cases htaken
    | ready b => rw [hl] at htaken; cases htaken
    | claimed u b => exact .inr ⟨u, .inl ((h.claimed u j).mpr ⟨b, hl⟩)⟩
    | loaded u b => exact .inr ⟨u, .inr ⟨b, (h.loaded u j b).mpr hl⟩⟩
    | done b => exact .inl ⟨b, (h.delivered j b).mpr hl⟩

theorem step_go (ht : s.call t = some (c, p)) : s.step (.go t) = some (s.go t c p) := by
  simp only [step, ht, Option.map_some]

/-- A reader alone gets to any byte of its claim, and stores nothing on the way. -/
theorem reader_alone (k : ℕ) {s : Pipe ι} {c : PipeCall} {size n idx : ℕ} (hc : c.src = none)
    (ht : s.call t = some (c, .copy size (n + 1 + k) idx)) :
    ∃ m s' c', (List.replicate m (PipeEvent.go t)).foldlM Pipe.step s = some s' ∧
      c'.src = none ∧ s'.call t = some (c', .copy (size + k) (n + 1) (idx + k)) ∧
      s'.accepted = s.accepted := by
  induction k generalizing s c size idx with
  | zero => exact ⟨0, s, c, rfl, hc, ht, rfl⟩
  | succ k ih =>
    -- one byte: load, deliver
    have hgo : s.go t c (.copy size (n + 1 + (k + 1)) idx) =
        s.setCall t c (.byte (size + 1) (n + 1 + k) idx (s.page size)) := by
      rw [show n + 1 + (k + 1) = (n + 1 + k) + 1 by omega]
      simp only [go, hc]
    have h1 := step_go ht
    rw [hgo] at h1
    have ht1 : (s.setCall t c (.byte (size + 1) (n + 1 + k) idx (s.page size))).call t =
        some (c, .byte (size + 1) (n + 1 + k) idx (s.page size)) := Function.update_self ..
    have h2 := step_go ht1
    obtain ⟨m, s', c', hrun, hc', ht', hacc⟩ := ih (s := (s.setCall t c
        (.byte (size + 1) (n + 1 + k) idx (s.page size))).go t c
        (.byte (size + 1) (n + 1 + k) idx (s.page size)))
      (c := { c with copied := c.copied + 1 }) hc (Function.update_self ..)
    refine ⟨m + 2, s', c', ?_, hc', ?_, hacc⟩
    · rw [List.replicate_succ, List.foldlM_cons, h1, Option.bind_eq_bind, Option.bind_some,
        List.replicate_succ, List.foldlM_cons, h2, Option.bind_eq_bind, Option.bind_some]
      exact hrun
    · rw [ht', show size + 1 + k = size + (k + 1) by omega, show idx + 1 + k = idx + (k + 1) by omega]

/-- A writer alone gets to any place of its claim, and no other call goes on meanwhile. -/
theorem writer_alone (k : ℕ) {s : Pipe ι} {c : PipeCall} {size n idx : ℕ} (hc : c.src.isSome = true)
    (ht : s.call t = some (c, .copy size (n + 1 + k) idx)) :
    ∃ m s' c', (List.replicate m (PipeEvent.go t)).foldlM Pipe.step s = some s' ∧
      c'.src.isSome = true ∧ s'.call t = some (c', .copy (size + k) (n + 1) (idx + k)) ∧
      ∀ u, u ≠ t → s'.call u = s.call u := by
  induction k generalizing s c size idx with
  | zero => exact ⟨0, s, c, rfl, hc, ht, fun u _ => rfl⟩
  | succ k ih =>
    obtain ⟨src, hsrc⟩ := Option.isSome_iff_exists.mp hc
    have hgo : (s.go t c (.copy size (n + 1 + (k + 1)) idx)).call = Function.update s.call t
        (some ({ c with copied := c.copied + 1 }, .copy (size + 1) (n + 1 + k) (idx + 1))) := by
      rw [show n + 1 + (k + 1) = (n + 1 + k) + 1 by omega]
      simp only [go, hsrc]
      rfl
    have h1 := step_go ht
    obtain ⟨m, s', c', hrun, hc', ht', hother⟩ := ih
      (s := s.go t c (.copy size (n + 1 + (k + 1)) idx)) (c := { c with copied := c.copied + 1 }) hc
      (by rw [hgo, Function.update_self])
    refine ⟨m + 1, s', c', ?_, hc', ?_, fun u hu => ?_⟩
    · rw [List.replicate_succ, List.foldlM_cons, h1, Option.bind_eq_bind, Option.bind_some]
      exact hrun
    · rw [ht', show size + 1 + k = size + (k + 1) by omega, show idx + 1 + k = idx + (k + 1) by omega]
    · rw [hother u hu, hgo, Function.update_of_ne hu]

/-- A call that claims what is not there, left alone, goes wrong. -/
theorem Inv.unclear_breaks (h : s.Inv life) (hs : s.step (.go t) = some s')
    (hclear : ¬ s.Clear (.go t)) :
    ∃ m s'', (List.replicate m (PipeEvent.go t)).foldlM Pipe.step s' = some s'' ∧ ¬ s''.Exact := by
  simp only [Clear, not_forall, not_not] at hclear
  obtain ⟨c, ht, u, size, n, idx, hcu, i, k, hi, hk, hplace⟩ := hclear
  have hut : u ≠ t := by
    rintro rfl
    obtain ⟨c', p, hu, -, hun⟩ := hcu
    rw [ht] at hu
    cases hu
    cases hun
  rw [step_go ht, Option.some.injEq] at hs
  have hmod := h.place_mod hcu (show idx ≤ idx + i by omega) (by omega)
  have hsz := h.size_eq
  have hroom := h.room
  have hle := h.le
  obtain hc | hc : c.src = none ∨ c.src.isSome = true := by cases c.src <;> simp
  · rw [hc] at hcu hk hplace
    simp only [Option.isSome_none, Bool.not_false, Bool.false_eq_true, if_false] at hcu hk hplace
    obtain ⟨-, b2, b3⟩ := chars_le s.tail c.count s.size
    -- the byte that the writer still owes
    have howed : life (idx + i) = .owed u :=
      (h.owed u _).mp ⟨size, n, idx, hcu, by omega, by omega⟩
    have htail := h.tail
    have hlo : ¬ idx + i < s.taken := fun hlt => by
      have := (h.taken _).mpr hlt
      rw [howed] at this
      cases this
    have hhi := h.lt_given (j := idx + i) (by rw [howed]; exact nofun)
    have hnum : idx + i = s.taken + k := by omega
    have hgo : s' = s.readTest t c := by
      rw [← hs]
      show (if c.src.isSome then s.writeTest t c else s.readTest t c) = _
      rw [hc]
      rfl
    have hread : s.readTest t c = { s.setCall t { c with
        count := c.count - chars s.tail c.count s.size, total := c.total + chars s.tail c.count s.size }
        (.copy s.tail (chars s.tail c.count s.size) s.taken) with
        tail := advance s.tail (chars s.tail c.count s.size)
        taken := s.taken + chars s.tail c.count s.size } := by
      unfold readTest
      rw [if_neg (by omega), if_neg (by omega)]
    rw [hread] at hgo
    have ht' : s'.call t = some ({ c with
        count := c.count - chars s.tail c.count s.size, total := c.total + chars s.tail c.count s.size },
        .copy s.tail ((chars s.tail c.count s.size - k - 1) + 1 + k) s.taken) := by
      rw [hgo, show (chars s.tail c.count s.size - k - 1) + 1 + k = chars s.tail c.count s.size by omega]
      exact Function.update_self ..
    obtain ⟨m, s'', c', hrun, hc', ht'', hacc⟩ := reader_alone k (by exact hc) ht'
    refine ⟨m, s'', hrun, fun hex => ?_⟩
    have hin := hex.load t c' _ _ _ ht'' hc'
    rw [hacc, hgo, ← hnum] at hin
    have hbad := (h.accepted _ _).mp hin
    rw [howed] at hbad
    cases hbad
  · rw [hc] at hcu hk hplace
    simp only [Bool.not_true, if_true] at hcu hk hplace
    obtain ⟨-, b2, b3⟩ := chars_le s.head c.count (4095 - s.size)
    have hcall : s'.call = Function.update s.call t (some ({ c with
        count := c.count - chars s.head c.count (4095 - s.size)
        total := c.total + chars s.head c.count (4095 - s.size) },
        .copy s.head (chars s.head c.count (4095 - s.size)) s.given)) := by
      rw [← hs]
      show (if c.src.isSome then s.writeTest t c else s.readTest t c).call = _
      rw [if_pos hc]
      unfold writeTest
      rw [if_neg (by omega), if_neg (by omega)]
      rfl
    have ht' : s'.call t = some ({ c with
        count := c.count - chars s.head c.count (4095 - s.size)
        total := c.total + chars s.head c.count (4095 - s.size) },
        .copy s.head ((chars s.head c.count (4095 - s.size) - k - 1) + 1 + k) s.given) := by
      rw [hcall, Function.update_self, show (chars s.head c.count (4095 - s.size) - k - 1) + 1 + k =
        chars s.head c.count (4095 - s.size) by omega]
    obtain ⟨m, s'', c', hrun, hc', ht'', hother⟩ := writer_alone k (by exact hc) ht'
    refine ⟨m, s'', hrun, fun hex => ?_⟩
    have hcu' : s''.Copies false u size n idx := by
      obtain ⟨c0, p0, hu, hw, hun⟩ := hcu
      refine ⟨c0, p0, ?_, hw, hun⟩
      rw [hother u hut, hcall, Function.update_of_ne hut]
      exact hu
    exact hex.store t c' _ _ _ ht'' hc' u size n idx hcu' i hi hplace

end Pipe

/-- With switches in the copy loops as well: as long as every call claims only what is there,
    readers receive exactly the bytes accepted. A call that claims anything else gets, if it just
    goes on, to load a byte that is not stored or to store over one that is not loaded. -/
theorem pipe_exact (ι : Type*) [DecidableEq ι] (s : Pipe ι)
    (h : ((pipeSystem ι).restrict Clear).Reachable s) :
    s.Exact ∧ ∀ t s', s.step (.go t) = some s' → ¬ s.Clear (.go t) →
      ∃ m s'', (List.replicate m (PipeEvent.go t)).foldlM Pipe.step s' = some s'' ∧ ¬ s''.Exact := by
  obtain ⟨life, hl⟩ := pipe_inv h
  exact ⟨hl.exact, fun t s' hs hc => hl.unclear_breaks hs hc⟩

theorem pipe_exact_first_write :
    ∃ s, (Pipe.start fun _ => 0 : Pipe Unit).step (.call () (some fun _ => 7) 1) = some s ∧
      s.Exact := by
  have hr : ((pipeSystem Unit).restrict Clear).Reachable (Pipe.start fun _ => 0) := .init ⟨_, rfl⟩
  have hc : (Pipe.start fun _ => 0 : Pipe Unit).Clear (.call () (some fun _ => 7) 1) := trivial
  exact ⟨_, rfl, (pipe_exact Unit _ (hr.step ⟨hc, rfl⟩)).1⟩

/-- Process 1 writes the byte 7 and is suspended in `get_fs_byte`; process 2 reads one byte. -/
def faultInWrite : List (PipeEvent ℕ) :=
  [.call 1 (some fun _ => 7) 1, .go 1, .call 2 none 1, .go 2, .go 2, .go 2]

/-- The reader has delivered a byte that nobody wrote. -/
theorem pipe_delivers_unstored :
    ∃ s, (pipeSystem ℕ).Reachable s ∧ s.delivered = [(0, 0)] ∧ s.accepted = [] ∧ ¬ s.Exact := by
  have hreach : ∀ s, faultInWrite.foldlM Pipe.step (Pipe.start fun _ => 0) = some s →
      (pipeSystem ℕ).Reachable s := fun s hs =>
    Lts.Reachable.foldlM (.init ⟨_, rfl⟩) (fun _ e _ he => ⟨e, he⟩) faultInWrite hs
  refine ⟨_, hreach _ rfl, rfl, rfl, fun hex => ?_⟩
  exact absurd (hex.delivered (0, 0) (List.mem_singleton.mpr rfl)) List.not_mem_nil

end Linux011.Fs
