/-
  The invariant of a pipe. Bytes are numbered in the order in which the head and the tail are
  moved over them, and byte number `j` belongs in place `j % 4096` of the page. Each has a life:
  a writer owes it, it is ready, a reader has claimed it, has loaded it, has delivered it. Every
  step that claims only what is there takes bytes one stage further: `Pipe.Inv.step`.
-/
import Linux011.Fs.Pipe

namespace Linux011.Fs
open Linux011.Lib

variable {ι : Type*}

/-- The life of a byte. -/
inductive ByteLife (ι : Type*)
  | future
  | owed (u : ι)
  | ready (b : UInt8)
  | claimed (u : ι) (b : UInt8)
  | loaded (u : ι) (b : UInt8)
  | done (b : UInt8)

namespace ByteLife

/-- The byte, once a writer has stored it. -/
def byte : ByteLife ι → Option UInt8
  | .future | .owed _ => none
  | .ready b | .claimed _ b | .loaded _ b | .done b => some b

/-- The tail has been moved over it. -/
def taken : ByteLife ι → Bool
  | .future | .owed _ | .ready _ => false
  | .claimed _ _ | .loaded _ _ | .done _ => true

/-- No call but that of `t` has it. -/
def Mine (t : ι) : ByteLife ι → Prop
  | .owed u | .claimed u _ | .loaded u _ => u = t
  | _ => True

/-- It is in the page, and somebody will still load it. -/
def InPage : ByteLife ι → UInt8 → Prop
  | .ready b, b' => b = b'
  | .claimed _ b, b' => b = b'
  | _, _ => False

end ByteLife

namespace Pipe

/-- `life` says where every byte is. -/
structure Inv (s : Pipe ι) (life : ℕ → ByteLife ι) : Prop where
  le : s.taken ≤ s.given
  room : s.given ≤ s.taken + 4095
  head : s.head = s.given % 4096
  tail : s.tail = s.taken % 4096
  place : ∀ w u size n idx, s.Copies w u size n idx → 0 < n → size = idx % 4096 ∧ size + n ≤ 4096
  byte_reader : ∀ u c size n j b, s.call u = some (c, .byte size n j b) → c.src = none
  owed : ∀ u j, s.Pend true u j ↔ life j = .owed u
  claimed : ∀ u j, s.Pend false u j ↔ ∃ b, life j = .claimed u b
  loaded : ∀ u j b, s.Loaded u j b ↔ life j = .loaded u b
  future : ∀ j, life j = .future ↔ s.given ≤ j
  taken : ∀ j, (life j).taken = true ↔ j < s.taken
  window : ∀ u j b, life j = .claimed u b → s.given ≤ j + 4096
  page : ∀ j b, (life j).InPage b → s.page (j % 4096) = b
  accepted : ∀ j b, (j, b) ∈ s.accepted ↔ (life j).byte = some b
  accepted_nodup : (s.accepted.map Prod.fst).Nodup
  delivered : ∀ j b, (j, b) ∈ s.delivered ↔ life j = .done b
  delivered_nodup : (s.delivered.map Prod.fst).Nodup

theorem Inv.start (page : ℕ → UInt8) : (Pipe.start page : Pipe ι).Inv fun _ => .future := by
  have hcopy : ∀ w u size n idx, ¬ (Pipe.start page : Pipe ι).Copies w u size n idx := by
    rintro w u size n idx ⟨c, p, h, -⟩
    cases h
  have hpend : ∀ w u j, ¬ (Pipe.start page : Pipe ι).Pend w u j := by
    rintro w u j ⟨size, n, idx, h, -⟩
    exact hcopy _ _ _ _ _ h
  have hload : ∀ u j b, ¬ (Pipe.start page : Pipe ι).Loaded u j b := by
    rintro u j b ⟨c, size, n, h⟩
    cases h
  exact
    { le := Nat.le_refl _
      room := Nat.zero_le _
      head := rfl
      tail := rfl
      place := fun w u size n idx h => absurd h (hcopy _ _ _ _ _)
      byte_reader := fun u c size n j b h => by cases h
      owed := fun u j => iff_of_false (hpend _ _ _) nofun
      claimed := fun u j => iff_of_false (hpend _ _ _) nofun
      loaded := fun u j b => iff_of_false (hload _ _ _) nofun
      future := fun j => iff_of_true rfl (Nat.zero_le j)
      taken := fun j => iff_of_false nofun (Nat.not_lt_zero j)
      window := nofun
      page := fun j b h => h.elim
      accepted := fun j b => iff_of_false List.not_mem_nil nofun
      accepted_nodup := List.nodup_nil
      delivered := fun j b => iff_of_false List.not_mem_nil nofun
      delivered_nodup := List.nodup_nil }

/-! ## Arithmetic of the ring -/

section Ring

variable {s : Pipe ι} {life : ℕ → ByteLife ι} {u : ι}

theorem Inv.size_eq (h : s.Inv life) : s.size = s.given - s.taken := by
  have h1 := h.le
  have h2 := h.room
  unfold size
  rw [h.head, h.tail]
  omega

theorem advance_mod (x n : ℕ) : advance (x % 4096) n = (x + n) % 4096 := by
  unfold advance
  omega

theorem Inv.place_mod (h : s.Inv life) {w : Bool} {size n idx j : ℕ} (hc : s.Copies w u size n idx)
    (hj : idx ≤ j) (hj' : j < idx + n) : size + (j - idx) = j % 4096 := by
  obtain ⟨h1, h2⟩ := h.place w u size n idx hc (by omega)
  omega

/-- A byte that is not in the future and not taken: a writer owes it, or it is ready. -/
theorem Inv.owed_or_ready (h : s.Inv life) {j : ℕ} (h1 : s.taken ≤ j) (h2 : j < s.given) :
    (∃ u, life j = .owed u) ∨ ∃ b, life j = .ready b := by
  have hfut := h.future j
  have htak := h.taken j
  cases hl : life j with
  | future => exact absurd (hfut.mp hl) (by omega)
  | owed u => exact .inl ⟨u, rfl⟩
  | ready b => exact .inr ⟨b, rfl⟩
  | claimed u b => exact absurd (htak.mp (by rw [hl]; rfl)) (by omega)
  | loaded u b => exact absurd (htak.mp (by rw [hl]; rfl)) (by omega)
  | done b => exact absurd (htak.mp (by rw [hl]; rfl)) (by omega)

/-- The bytes that are in the page, or that a writer owes, have places of their own. -/
theorem Inv.lt_given (h : s.Inv life) {j : ℕ} (hl : life j ≠ .future) : j < s.given := by
  by_contra hge
  exact hl ((h.future j).mpr (by omega))

end Ring

variable [DecidableEq ι] {s s' : Pipe ι} {t u : ι} {o : Option (PipeCall × PipePhase)}
  {life : ℕ → ByteLife ι}

/-! ## One call changes -/

theorem copies_update (h : s'.call = Function.update s.call t o) {w : Bool} {size n idx : ℕ} :
    s'.Copies w u size n idx ↔
      (u = t ∧ ∃ c p, o = some (c, p) ∧ c.src.isSome = w ∧ p.unmoved = some (size, n, idx)) ∨
      (u ≠ t ∧ s.Copies w u size n idx) := by
  unfold Copies
  rw [h]
  by_cases hu : u = t
  · subst hu
    simp only [Function.update_self, true_and, ne_eq, not_true_eq_false, false_and, or_false]
  · simp only [Function.update_of_ne hu, hu, false_and, ne_eq, not_false_eq_true, true_and, false_or]

theorem pend_update_of_ne (h : s'.call = Function.update s.call t o) (hu : u ≠ t) (w : Bool)
    (j : ℕ) : s'.Pend w u j ↔ s.Pend w u j := by
  unfold Pend
  simp only [copies_update h, hu, false_and, ne_eq, not_false_eq_true, true_and, false_or]

theorem loaded_update_of_ne (h : s'.call = Function.update s.call t o) (hu : u ≠ t) (j : ℕ)
    (b : UInt8) : s'.Loaded u j b ↔ s.Loaded u j b := by
  unfold Loaded
  rw [h, Function.update_of_ne hu]

omit [DecidableEq ι] in
/-- The bytes of a call in a phase. -/
theorem pend_of_call {c : PipeCall} {p : PipePhase} (h : s.call u = some (c, p)) (w : Bool) (j : ℕ) :
    s.Pend w u j ↔ c.src.isSome = w ∧
      ∃ size n idx, p.unmoved = some (size, n, idx) ∧ idx ≤ j ∧ j < idx + n := by
  unfold Pend Copies
  rw [h]
  constructor
  · rintro ⟨size, n, idx, ⟨c', p', he, hw, hp⟩, hj⟩
    cases he
    exact ⟨hw, size, n, idx, hp, hj⟩
  · rintro ⟨hw, size, n, idx, hp, hj⟩
    exact ⟨size, n, idx, ⟨c, p, rfl, hw, hp⟩, hj⟩

omit [DecidableEq ι] in
theorem pend_copy {c : PipeCall} {size n idx : ℕ} (h : s.call u = some (c, .copy size n idx))
    (w : Bool) (j : ℕ) : s.Pend w u j ↔ c.src.isSome = w ∧ idx ≤ j ∧ j < idx + n := by
  rw [pend_of_call h]
  simp only [PipePhase.unmoved, Option.some.injEq, Prod.mk.injEq]
  constructor
  · rintro ⟨hw, a, m, i, ⟨rfl, rfl, rfl⟩, hj⟩
    exact ⟨hw, hj⟩
  · rintro ⟨hw, hj⟩
    exact ⟨hw, size, n, idx, ⟨rfl, rfl, rfl⟩, hj⟩

omit [DecidableEq ι] in
theorem pend_byte {c : PipeCall} {size n idx : ℕ} {b : UInt8}
    (h : s.call u = some (c, .byte size n idx b)) (w : Bool) (j : ℕ) :
    s.Pend w u j ↔ c.src.isSome = w ∧ idx + 1 ≤ j ∧ j < idx + 1 + n := by
  rw [pend_of_call h]
  simp only [PipePhase.unmoved, Option.some.injEq, Prod.mk.injEq]
  constructor
  · rintro ⟨hw, a, m, i, ⟨rfl, rfl, rfl⟩, hj⟩
    exact ⟨hw, hj⟩
  · rintro ⟨hw, hj⟩
    exact ⟨hw, size, n, idx + 1, ⟨rfl, rfl, rfl⟩, hj⟩

omit [DecidableEq ι] in
theorem not_loaded_copy {c : PipeCall} {size n idx : ℕ} (h : s.call u = some (c, .copy size n idx))
    (j : ℕ) (b : UInt8) : ¬ s.Loaded u j b := by
  rintro ⟨c', a, m, hc⟩
  rw [h] at hc
  cases hc

omit [DecidableEq ι] in
theorem loaded_byte {c : PipeCall} {size n idx j : ℕ} {b b' : UInt8}
    (h : s.call u = some (c, .byte size n idx b)) : s.Loaded u j b' ↔ j = idx ∧ b' = b := by
  unfold Loaded
  rw [h]
  constructor
  · rintro ⟨c', a, m, hc⟩
    cases hc
    exact ⟨rfl, rfl⟩
  · rintro ⟨rfl, rfl⟩
    exact ⟨c, size, n, rfl⟩

/-- When the call of `t` goes on and bytes change only between `t` and nobody, the other calls
    hold what they held. -/
theorem Inv.holdings (h : s.Inv life) (life' : ℕ → ByteLife ι)
    (hcall : s'.call = Function.update s.call t o)
    (hlife : ∀ j, life' j = life j ∨ ((life j).Mine t ∧ (life' j).Mine t))
    (howed : ∀ j, s'.Pend true t j ↔ life' j = .owed t)
    (hclaimed : ∀ j, s'.Pend false t j ↔ ∃ b, life' j = .claimed t b)
    (hloaded : ∀ j b, s'.Loaded t j b ↔ life' j = .loaded t b) :
    (∀ u j, s'.Pend true u j ↔ life' j = .owed u) ∧
    (∀ u j, s'.Pend false u j ↔ ∃ b, life' j = .claimed u b) ∧
    ∀ u j b, s'.Loaded u j b ↔ life' j = .loaded u b := by
  have hne : ∀ {x : ByteLife ι} {u : ι}, u ≠ t → x.Mine t →
      x ≠ .owed u ∧ (∀ b, x ≠ .claimed u b) ∧ ∀ b, x ≠ .loaded u b := by
    intro x u hu hx
    refine ⟨?_, ?_, ?_⟩
    · rintro rfl
      exact hu hx
    · rintro b rfl
      exact hu hx
    · rintro b rfl
      exact hu hx
  refine ⟨fun u j => ?_, fun u j => ?_, fun u j b => ?_⟩
  all_goals
    by_cases hu : u = t
    · subst hu
      first | exact howed j | exact hclaimed j | exact hloaded j b
  · rw [pend_update_of_ne hcall hu, h.owed]
    obtain he | ⟨h1, h2⟩ := hlife j
    · rw [he]
    · exact iff_of_false (hne hu h1).1 (hne hu h2).1
  · rw [pend_update_of_ne hcall hu, h.claimed]
    obtain he | ⟨h1, h2⟩ := hlife j
    · rw [he]
    · exact iff_of_false (fun ⟨b, hb⟩ => (hne hu h1).2.1 b hb) fun ⟨b, hb⟩ => (hne hu h2).2.1 b hb
  · rw [loaded_update_of_ne hcall hu, h.loaded]
    obtain he | ⟨h1, h2⟩ := hlife j
    · rw [he]
    · exact iff_of_false ((hne hu h1).2.2 b) ((hne hu h2).2.2 b)

/-- The phases of the other calls do not change. -/
theorem Inv.phases (h : s.Inv life) (hcall : s'.call = Function.update s.call t o)
    (hplace : ∀ c p size n idx, o = some (c, p) → p.unmoved = some (size, n, idx) → 0 < n →
      size = idx % 4096 ∧ size + n ≤ 4096)
    (hreader : ∀ c size n j b, o = some (c, .byte size n j b) → c.src = none) :
    (∀ w u size n idx, s'.Copies w u size n idx → 0 < n → size = idx % 4096 ∧ size + n ≤ 4096) ∧
    ∀ u c size n j b, s'.call u = some (c, .byte size n j b) → c.src = none := by
  refine ⟨fun w u size n idx hc hn => ?_, fun u c size n j b hc => ?_⟩
  · obtain ⟨-, c, p, ho, -, hp⟩ | ⟨-, hc⟩ := (copies_update hcall).mp hc
    · exact hplace c p size n idx ho hp hn
    · exact h.place w u size n idx hc hn
  · rw [hcall] at hc
    by_cases hu : u = t
    · subst hu
      rw [Function.update_self] at hc
      exact hreader c size n j b hc
    · rw [Function.update_of_ne hu] at hc
      exact h.byte_reader u c size n j b hc

/-- A call that holds nothing goes to a test, to sleep, or ends. -/
theorem Inv.calm (h : s.Inv life) (ho : ∀ c p, o = some (c, p) → p.unmoved = none)
    (hpend : ∀ w j, ¬ s.Pend w t j) (hload : ∀ j b, ¬ s.Loaded t j b) (n : ℕ)
    (r : List PipeReturn) :
    ({ s with call := Function.update s.call t o, iCount := n, returned := r } : Pipe ι).Inv life := by
  generalize hs' : ({ s with call := Function.update s.call t o, iCount := n, returned := r } :
    Pipe ι) = s'
  have hcall : s'.call = Function.update s.call t o := by rw [← hs']
  have hpend' : ∀ w j, ¬ s'.Pend w t j := by
    rintro w j ⟨size, n, idx, hc, -⟩
    obtain ⟨-, c, p, hp, -, hun⟩ | ⟨hne, -⟩ := (copies_update hcall).mp hc
    · rw [ho c p hp] at hun
      cases hun
    · exact hne rfl
  have hload' : ∀ j b, ¬ s'.Loaded t j b := by
    rintro j b ⟨c, size, n, hc⟩
    rw [hcall, Function.update_self] at hc
    have := ho _ _ hc
    cases this
  obtain ⟨howed, hclaimed, hloaded⟩ := h.holdings life hcall (fun j => .inl rfl)
    (fun j => iff_of_false (hpend' true j) fun he => hpend true j ((h.owed t j).mpr he))
    (fun j => iff_of_false (hpend' false j) fun he => hpend false j ((h.claimed t j).mpr he))
    (fun j b => iff_of_false (hload' j b) fun he => hload j b ((h.loaded t j b).mpr he))
  obtain ⟨hplace, hreader⟩ := h.phases hcall
    (fun c p size n idx he hp => by rw [ho c p he] at hp; cases hp)
    (fun c size n j b he => by have := ho _ _ he; cases this)
  subst hs'
  exact { h with
    place := hplace
    byte_reader := hreader
    owed := howed
    claimed := hclaimed
    loaded := hloaded }

/-- `read_pipe` moves the tail over bytes that are all ready. -/
theorem Inv.claim_read (h : s.Inv life) {c : PipeCall} {n : ℕ} (hc : c.src = none)
    (hpage : s.tail + n ≤ 4096) (hsize : n ≤ s.size) (hpend : ∀ w j, ¬ s.Pend w t j)
    (hload : ∀ j b, ¬ s.Loaded t j b)
    (hclear : ∀ u size m idx, s.Copies true u size m idx → ∀ i k, i < m → k < n →
      size + i ≠ s.tail + k) :
    ∃ life', ({ s.setCall t c (.copy s.tail n s.taken) with
      tail := advance s.tail n, taken := s.taken + n } : Pipe ι).Inv life' := by
  have hsz := h.size_eq
  have hle := h.le
  have hroom := h.room
  have htail := h.tail
  -- what is claimed is ready: the writers owe only bytes behind it
  have hready : ∀ j, s.taken ≤ j → j < s.taken + n → ∃ b, life j = .ready b := by
    intro j hj hj'
    obtain ⟨u, hu⟩ | hb := h.owed_or_ready hj (by omega)
    · obtain ⟨size, m, idx, hcu, h1, h2⟩ := (h.owed u j).mpr hu
      have hplace := h.place_mod hcu h1 h2
      exact absurd (show size + (j - idx) = s.tail + (j - s.taken) by omega)
        (hclear u size m idx hcu _ _ (by omega) (by omega))
    · exact hb
  refine ⟨fun j => if s.taken ≤ j ∧ j < s.taken + n then
    .claimed t (s.page (j % 4096)) else life j, ?_⟩
  generalize hlife : (fun j => if s.taken ≤ j ∧ j < s.taken + n then
    ByteLife.claimed t (s.page (j % 4096)) else life j) = life'
  have hin : ∀ j, s.taken ≤ j → j < s.taken + n →
      life' j = .claimed t (s.page (j % 4096)) ∧ life j = .ready (s.page (j % 4096)) := by
    intro j h1 h2
    obtain ⟨b, hb⟩ := hready j h1 h2
    have hpb : s.page (j % 4096) = b := h.page j b (by rw [hb]; rfl)
    exact ⟨by rw [← hlife]; exact if_pos ⟨h1, h2⟩, by rw [hb, hpb]⟩
  have hout : ∀ j, ¬ (s.taken ≤ j ∧ j < s.taken + n) → life' j = life j := by
    intro j hj
    rw [← hlife]
    exact if_neg hj
  generalize hs' : ({ s.setCall t c (.copy s.tail n s.taken) with
    tail := advance s.tail n, taken := s.taken + n } : Pipe ι) = s'
  have hcall : s'.call = Function.update s.call t (some (c, .copy s.tail n s.taken)) := by
    rw [← hs']
    rfl
  have ht : s'.call t = some (c, .copy s.tail n s.taken) := by rw [hcall, Function.update_self]
  have hmine : ∀ j, life' j = life j ∨ ((life j).Mine t ∧ (life' j).Mine t) := by
    intro j
    by_cases hj : s.taken ≤ j ∧ j < s.taken + n
    · rw [(hin j hj.1 hj.2).1, (hin j hj.1 hj.2).2]
      exact .inr ⟨trivial, rfl⟩
    · exact .inl (hout j hj)
  have howes : ∀ j, s'.Pend true t j ↔ life' j = .owed t := by
    intro j
    rw [pend_copy ht, hc]
    refine iff_of_false nofun fun he => ?_
    by_cases hj : s.taken ≤ j ∧ j < s.taken + n
    · rw [(hin j hj.1 hj.2).1] at he
      cases he
    · rw [hout j hj] at he
      exact hpend true j ((h.owed t j).mpr he)
  have hclaims : ∀ j, s'.Pend false t j ↔ ∃ b, life' j = .claimed t b := by
    intro j
    rw [pend_copy ht, hc]
    by_cases hj : s.taken ≤ j ∧ j < s.taken + n
    · exact iff_of_true ⟨rfl, hj⟩ ⟨_, (hin j hj.1 hj.2).1⟩
    · refine iff_of_false (fun he => hj he.2) fun he => ?_
      rw [hout j hj] at he
      exact hpend false j ((h.claimed t j).mpr he)
  have hloads : ∀ j b, s'.Loaded t j b ↔ life' j = .loaded t b := by
    intro j b
    refine iff_of_false (not_loaded_copy ht j b) fun he => ?_
    by_cases hj : s.taken ≤ j ∧ j < s.taken + n
    · rw [(hin j hj.1 hj.2).1] at he
      cases he
    · rw [hout j hj] at he
      exact hload j b ((h.loaded t j b).mpr he)
  obtain ⟨howed, hclaimed, hloaded⟩ := h.holdings life' hcall hmine howes hclaims hloads
  obtain ⟨hplace, hreader⟩ := h.phases hcall
    (fun c' p size m idx he hp _ => by cases he; cases hp; exact ⟨htail, hpage⟩)
    (fun c' size m j b he => by cases he)
  subst hs'
  refine ⟨by show s.taken + n ≤ s.given; omega, by show s.given ≤ s.taken + n + 4095; omega, h.head,
    ?_, hplace, hreader, howed, hclaimed, hloaded, ?_, ?_, ?_, ?_, ?_, h.accepted_nodup, ?_,
    h.delivered_nodup⟩
  · show advance s.tail n = (s.taken + n) % 4096
    rw [htail, advance_mod]
  · intro j
    by_cases hj : s.taken ≤ j ∧ j < s.taken + n
    · rw [(hin j hj.1 hj.2).1]
      exact iff_of_false nofun (by show ¬ s.given ≤ j; omega)
    · rw [hout j hj]
      exact h.future j
  · intro j
    show _ ↔ j < s.taken + n
    by_cases hj : s.taken ≤ j ∧ j < s.taken + n
    · rw [(hin j hj.1 hj.2).1]
      exact iff_of_true rfl hj.2
    · rw [hout j hj, h.taken]
      omega
  · intro u j b hu
    by_cases hj : s.taken ≤ j ∧ j < s.taken + n
    · show s.given ≤ j + 4096
      omega
    · exact h.window u j b ((hout j hj).symm.trans hu)
  · intro j b hb
    by_cases hj : s.taken ≤ j ∧ j < s.taken + n
    · rw [(hin j hj.1 hj.2).1] at hb
      exact hb
    · rw [hout j hj] at hb
      exact h.page j b hb
  · intro j b
    show (j, b) ∈ s.accepted ↔ _
    rw [h.accepted]
    by_cases hj : s.taken ≤ j ∧ j < s.taken + n
    · rw [(hin j hj.1 hj.2).1, (hin j hj.1 hj.2).2]
      rfl
    · rw [hout j hj]
  · intro j b
    show (j, b) ∈ s.delivered ↔ _
    rw [h.delivered]
    by_cases hj : s.taken ≤ j ∧ j < s.taken + n
    · rw [(hin j hj.1 hj.2).1, (hin j hj.1 hj.2).2]
      exact iff_of_false nofun nofun
    · rw [hout j hj]

/-- `write_pipe` moves the head over places that nobody has still to load. -/
theorem Inv.claim_write (h : s.Inv life) {c : PipeCall} {n : ℕ} (hc : c.src.isSome = true)
    (hpage : s.head + n ≤ 4096) (hsize : n ≤ 4095 - s.size) (hpend : ∀ w j, ¬ s.Pend w t j)
    (hload : ∀ j b, ¬ s.Loaded t j b)
    (hclear : ∀ u size m idx, s.Copies false u size m idx → ∀ i k, i < m → k < n →
      size + i ≠ s.head + k) :
    ∃ life', ({ s.setCall t c (.copy s.head n s.given) with
      head := advance s.head n, given := s.given + n } : Pipe ι).Inv life' := by
  have hsz := h.size_eq
  have hle := h.le
  have hroom := h.room
  have hhead := h.head
  refine ⟨fun j => if s.given ≤ j ∧ j < s.given + n then .owed t else life j, ?_⟩
  generalize hlife : (fun j => if s.given ≤ j ∧ j < s.given + n then ByteLife.owed t
    else life j) = life'
  have hin : ∀ j, s.given ≤ j → j < s.given + n → life' j = .owed t ∧ life j = .future :=
    fun j h1 h2 => ⟨by rw [← hlife]; exact if_pos ⟨h1, h2⟩, (h.future j).mpr h1⟩
  have hout : ∀ j, ¬ (s.given ≤ j ∧ j < s.given + n) → life' j = life j := by
    intro j hj
    rw [← hlife]
    exact if_neg hj
  generalize hs' : ({ s.setCall t c (.copy s.head n s.given) with
    head := advance s.head n, given := s.given + n } : Pipe ι) = s'
  have hcall : s'.call = Function.update s.call t (some (c, .copy s.head n s.given)) := by
    rw [← hs']
    rfl
  have ht : s'.call t = some (c, .copy s.head n s.given) := by rw [hcall, Function.update_self]
  have hmine : ∀ j, life' j = life j ∨ ((life j).Mine t ∧ (life' j).Mine t) := by
    intro j
    by_cases hj : s.given ≤ j ∧ j < s.given + n
    · rw [(hin j hj.1 hj.2).1, (hin j hj.1 hj.2).2]
      exact .inr ⟨trivial, rfl⟩
    · exact .inl (hout j hj)
  have howes : ∀ j, s'.Pend true t j ↔ life' j = .owed t := by
    intro j
    rw [pend_copy ht, hc]
    by_cases hj : s.given ≤ j ∧ j < s.given + n
    · exact iff_of_true ⟨rfl, hj⟩ (hin j hj.1 hj.2).1
    · refine iff_of_false (fun he => hj he.2) fun he => ?_
      rw [hout j hj] at he
      exact hpend true j ((h.owed t j).mpr he)
  have hclaims : ∀ j, s'.Pend false t j ↔ ∃ b, life' j = .claimed t b := by
    intro j
    rw [pend_copy ht, hc]
    refine iff_of_false nofun fun he => ?_
    by_cases hj : s.given ≤ j ∧ j < s.given + n
    · rw [(hin j hj.1 hj.2).1] at he
      obtain ⟨b, hb⟩ := he
      cases hb
    · rw [hout j hj] at he
      exact hpend false j ((h.claimed t j).mpr he)
  have hloads : ∀ j b, s'.Loaded t j b ↔ life' j = .loaded t b := by
    intro j b
    refine iff_of_false (not_loaded_copy ht j b) fun he => ?_
    by_cases hj : s.given ≤ j ∧ j < s.given + n
    · rw [(hin j hj.1 hj.2).1] at he
      cases he
    · rw [hout j hj] at he
      exact hload j b ((h.loaded t j b).mpr he)
  obtain ⟨howed, hclaimed, hloaded⟩ := h.holdings life' hcall hmine howes hclaims hloads
  obtain ⟨hplace, hreader⟩ := h.phases hcall
    (fun c' p size m idx he hp _ => by cases he; cases hp; exact ⟨hhead, hpage⟩)
    (fun c' size m j b he => by cases he)
  subst hs'
  refine ⟨by show s.taken ≤ s.given + n; omega, by show s.given + n ≤ s.taken + 4095; omega, ?_,
    h.tail, hplace, hreader, howed, hclaimed, hloaded, ?_, ?_, ?_, ?_, ?_, h.accepted_nodup, ?_,
    h.delivered_nodup⟩
  · show advance s.head n = (s.given + n) % 4096
    rw [hhead, advance_mod]
  · intro j
    show _ ↔ s.given + n ≤ j
    by_cases hj : s.given ≤ j ∧ j < s.given + n
    · rw [(hin j hj.1 hj.2).1]
      exact iff_of_false nofun (by omega)
    · rw [hout j hj, h.future]
      omega
  · intro j
    by_cases hj : s.given ≤ j ∧ j < s.given + n
    · rw [(hin j hj.1 hj.2).1]
      exact iff_of_false nofun (by show ¬ j < s.taken; omega)
    · rw [hout j hj]
      exact h.taken j
  · intro u j b hu
    show s.given + n ≤ j + 4096
    by_cases hj : s.given ≤ j ∧ j < s.given + n
    · omega
    · rw [hout j hj] at hu
      have hwin := h.window u j b hu
      by_contra hover
      -- the place of byte `j` would be among those claimed
      obtain ⟨size, m, idx, hcu, h1, h2⟩ := (h.claimed u j).mpr ⟨b, hu⟩
      have hplace := h.place_mod hcu h1 h2
      exact hclear u size m idx hcu (j - idx) (j + 4096 - s.given) (by omega) (by omega) (by omega)
  · intro j b hb
    by_cases hj : s.given ≤ j ∧ j < s.given + n
    · rw [(hin j hj.1 hj.2).1] at hb
      exact hb.elim
    · rw [hout j hj] at hb
      exact h.page j b hb
  · intro j b
    show (j, b) ∈ s.accepted ↔ _
    rw [h.accepted]
    by_cases hj : s.given ≤ j ∧ j < s.given + n
    · rw [(hin j hj.1 hj.2).1, (hin j hj.1 hj.2).2]
      rfl
    · rw [hout j hj]
  · intro j b
    show (j, b) ∈ s.delivered ↔ _
    rw [h.delivered]
    by_cases hj : s.given ≤ j ∧ j < s.given + n
    · rw [(hin j hj.1 hj.2).1, (hin j hj.1 hj.2).2]
      exact iff_of_false nofun nofun
    · rw [hout j hj]

/-! ## One byte moves -/

omit [DecidableEq ι] in
/-- A log that gets a byte it did not hold. -/
theorem nodup_log {l : List (ℕ × UInt8)} {j : ℕ} {b : UInt8} (h : (l.map Prod.fst).Nodup)
    (hj : ∀ b', (j, b') ∉ l) : ((l ++ [(j, b)]).map Prod.fst).Nodup := by
  rw [List.map_append, List.map_cons, List.map_nil]
  refine List.nodup_append.mpr ⟨h, List.nodup_singleton j, ?_⟩
  intro i hi k hk
  rw [List.mem_singleton.mp hk]
  rintro rfl
  obtain ⟨⟨i, b'⟩, hx, rfl⟩ := List.mem_map.mp hi
  exact hj b' hx

/-- One byte goes to its next stage, from `t` or to `t` or within it, and nothing is claimed. -/
theorem Inv.move (h : s.Inv life) {idx : ℕ} {x : ByteLife ι}
    (hcall : s'.call = Function.update s.call t o)
    (hring : s'.head = s.head ∧ s'.tail = s.tail ∧ s'.given = s.given ∧ s'.taken = s.taken)
    (hmine : (life idx).Mine t ∧ x.Mine t) (hfut : life idx ≠ .future ∧ x ≠ .future)
    (htaken : x.taken = (life idx).taken) (hclaim : ∀ u b, x ≠ .claimed u b)
    (howes : ∀ j, s'.Pend true t j ↔ Function.update life idx x j = .owed t)
    (hclaims : ∀ j, s'.Pend false t j ↔ ∃ b, Function.update life idx x j = .claimed t b)
    (hloads : ∀ j b, s'.Loaded t j b ↔ Function.update life idx x j = .loaded t b)
    (hplaces : ∀ c p size n i, o = some (c, p) → p.unmoved = some (size, n, i) → 0 < n →
      size = i % 4096 ∧ size + n ≤ 4096)
    (hreaders : ∀ c size n j b, o = some (c, .byte size n j b) → c.src = none)
    (hpage : ∀ j b, (Function.update life idx x j).InPage b → s'.page (j % 4096) = b)
    (haccepted : ∀ j b, (j, b) ∈ s'.accepted ↔ (Function.update life idx x j).byte = some b)
    (hnodup : (s'.accepted.map Prod.fst).Nodup)
    (hdelivered : ∀ j b, (j, b) ∈ s'.delivered ↔ Function.update life idx x j = .done b)
    (hnodup' : (s'.delivered.map Prod.fst).Nodup) : s'.Inv (Function.update life idx x) := by
  have hout : ∀ j, j ≠ idx → Function.update life idx x j = life j :=
    fun j hj => Function.update_of_ne hj ..
  have hin : Function.update life idx x idx = x := Function.update_self ..
  have hmoved : ∀ j, Function.update life idx x j = life j ∨
      ((life j).Mine t ∧ (Function.update life idx x j).Mine t) := by
    intro j
    by_cases hj : j = idx
    · subst hj
      rw [hin]
      exact .inr hmine
    · exact .inl (hout j hj)
  obtain ⟨howed, hclaimed, hloaded⟩ := h.holdings _ hcall hmoved howes hclaims hloads
  obtain ⟨hplace, hreader⟩ := h.phases hcall hplaces hreaders
  obtain ⟨hhead, htail, hgiven, htk⟩ := hring
  refine ⟨by rw [hgiven, htk]; exact h.le, by rw [hgiven, htk]; exact h.room,
    by rw [hgiven, hhead]; exact h.head, by rw [htail, htk]; exact h.tail, hplace, hreader, howed,
    hclaimed, hloaded, ?_, ?_, ?_, hpage, haccepted, hnodup, hdelivered, hnodup'⟩
  · intro j
    rw [hgiven, ← h.future]
    by_cases hj : j = idx
    · subst hj
      rw [hin]
      exact iff_of_false hfut.2 hfut.1
    · rw [hout j hj]
  · intro j
    rw [htk, ← h.taken]
    by_cases hj : j = idx
    · subst hj
      rw [hin, htaken]
    · rw [hout j hj]
  · intro u j b hu
    rw [hgiven]
    by_cases hj : j = idx
    · subst hj
      rw [hin] at hu
      exact absurd hu (hclaim u b)
    · exact h.window u j b ((hout j hj).symm.trans hu)

/-- `read_pipe` loads the next byte. -/
theorem Inv.load (h : s.Inv life) {c : PipeCall} {size n idx : ℕ} (hc : c.src = none)
    (ht : s.call t = some (c, .copy size (n + 1) idx)) :
    (s.setCall t c (.byte (size + 1) n idx (s.page size))).Inv
      (Function.update life idx (.loaded t (s.page size))) := by
  have hcop : s.Copies false t size (n + 1) idx := ⟨c, _, ht, by rw [hc]; rfl, rfl⟩
  obtain ⟨hsize, hfit⟩ := h.place _ _ _ _ _ hcop (by omega)
  obtain ⟨b, hb⟩ := (h.claimed t idx).mp ⟨size, n + 1, idx, hcop, Nat.le_refl _, by omega⟩
  have hpb : s.page size = b := by
    rw [hsize]
    exact h.page idx b (by rw [hb]; rfl)
  rw [hpb]
  have hout : ∀ j, j ≠ idx → Function.update life idx (.loaded t b) j = life j :=
    fun j hj => Function.update_of_ne hj ..
  have hin : Function.update life idx (.loaded t b) idx = .loaded t b := Function.update_self ..
  have ht' : (s.setCall t c (.byte (size + 1) n idx b)).call t =
      some (c, .byte (size + 1) n idx b) := Function.update_self ..
  refine h.move (t := t) rfl ⟨rfl, rfl, rfl, rfl⟩ ⟨by rw [hb]; rfl, rfl⟩ ⟨by rw [hb]; exact nofun, nofun⟩
    (by rw [hb]; rfl) nofun ?_ ?_ ?_ ?_ ?_ ?_ ?_ h.accepted_nodup ?_ h.delivered_nodup
  · intro j
    rw [pend_byte ht', hc]
    refine iff_of_false nofun fun he => ?_
    by_cases hj : j = idx
    · subst hj
      rw [hin] at he
      cases he
    · rw [hout j hj, ← h.owed, pend_copy ht, hc] at he
      cases he.1
  · intro j
    rw [pend_byte ht', hc]
    by_cases hj : j = idx
    · subst hj
      rw [hin]
      exact iff_of_false (fun he => by omega) fun ⟨b', he⟩ => by cases he
    · rw [hout j hj, ← h.claimed, pend_copy ht, hc]
      exact and_congr_right fun _ => by omega
  · intro j b'
    rw [loaded_byte ht']
    by_cases hj : j = idx
    · subst hj
      rw [hin]
      simp [eq_comm]
    · rw [hout j hj]
      exact iff_of_false (fun he => hj he.1) fun he =>
        not_loaded_copy ht j b' ((h.loaded t j b').mpr he)
  · intro c' p a m i he hp hm
    cases he
    cases hp
    omega
  · intro c' a m j b' he
    cases he
    exact hc
  · intro j b' hb'
    by_cases hj : j = idx
    · subst hj
      rw [hin] at hb'
      exact hb'.elim
    · rw [hout j hj] at hb'
      exact h.page j b' hb'
  · intro j b'
    show (j, b') ∈ s.accepted ↔ _
    rw [h.accepted]
    by_cases hj : j = idx
    · subst hj
      rw [hin, hb]
      rfl
    · rw [hout j hj]
  · intro j b'
    show (j, b') ∈ s.delivered ↔ _
    rw [h.delivered]
    by_cases hj : j = idx
    · subst hj
      rw [hin, hb]
      exact iff_of_false nofun nofun
    · rw [hout j hj]

/-- `put_fs_byte` delivers the byte. -/
theorem Inv.deliver (h : s.Inv life) {c c' : PipeCall} {size n idx : ℕ} {b : UInt8}
    (hsrc : c'.src = c.src) (ht : s.call t = some (c, .byte size n idx b)) :
    ({ s.setCall t c' (.copy size n (idx + 1)) with
      delivered := s.delivered ++ [(idx, b)] } : Pipe ι).Inv (Function.update life idx (.done b)) := by
  have hc := h.byte_reader _ _ _ _ _ _ ht
  have hc' : c'.src = none := hsrc.trans hc
  have hb : life idx = .loaded t b := (h.loaded t idx b).mp ⟨c, size, n, ht⟩
  have hcop : s.Copies false t size n (idx + 1) := ⟨c, _, ht, by rw [hc]; rfl, rfl⟩
  have hout : ∀ j, j ≠ idx → Function.update life idx (.done b) j = life j :=
    fun j hj => Function.update_of_ne hj ..
  have hin : Function.update life idx (.done b) idx = .done b := Function.update_self ..
  generalize hs' : ({ s.setCall t c' (.copy size n (idx + 1)) with
      delivered := s.delivered ++ [(idx, b)] } : Pipe ι) = s'
  have hcall : s'.call = Function.update s.call t (some (c', .copy size n (idx + 1))) := by
    rw [← hs']
    rfl
  have ht' : s'.call t = some (c', .copy size n (idx + 1)) := by rw [hcall, Function.update_self]
  have hnot : ∀ b', (idx, b') ∉ s.delivered := by
    intro b' hm
    rw [h.delivered, hb] at hm
    cases hm
  refine h.move (t := t) hcall (by subst hs'; exact ⟨rfl, rfl, rfl, rfl⟩) ⟨by rw [hb]; rfl, trivial⟩
    ⟨by rw [hb]; exact nofun, nofun⟩ (by rw [hb]; rfl) nofun ?_ ?_ ?_ ?_ ?_ ?_ ?_
    (by subst hs'; exact h.accepted_nodup) ?_ (by subst hs'; exact nodup_log h.delivered_nodup hnot)
  · intro j
    rw [pend_copy ht', hc']
    refine iff_of_false nofun fun he => ?_
    by_cases hj : j = idx
    · subst hj
      rw [hin] at he
      cases he
    · rw [hout j hj, ← h.owed, pend_byte ht, hc] at he
      cases he.1
  · intro j
    rw [pend_copy ht', hc']
    by_cases hj : j = idx
    · subst hj
      rw [hin]
      exact iff_of_false (fun he => by omega) fun ⟨b', he⟩ => by cases he
    · rw [hout j hj, ← h.claimed, pend_byte ht, hc]
  · intro j b'
    refine iff_of_false (not_loaded_copy ht' j b') fun he => ?_
    by_cases hj : j = idx
    · subst hj
      rw [hin] at he
      cases he
    · rw [hout j hj, ← h.loaded, loaded_byte ht] at he
      exact hj he.1
  · intro c'' p a m i he hp hm
    cases he
    cases hp
    exact h.place _ _ _ _ _ hcop hm
  · intro c'' a m j b' he
    cases he
  · intro j b' hb'
    subst hs'
    by_cases hj : j = idx
    · subst hj
      rw [hin] at hb'
      exact hb'.elim
    · rw [hout j hj] at hb'
      exact h.page j b' hb'
  · intro j b'
    subst hs'
    show (j, b') ∈ s.accepted ↔ _
    rw [h.accepted]
    by_cases hj : j = idx
    · subst hj
      rw [hin, hb]
      rfl
    · rw [hout j hj]
  · intro j b'
    subst hs'
    show (j, b') ∈ s.delivered ++ [(idx, b)] ↔ _
    rw [List.mem_append, h.delivered, List.mem_singleton]
    by_cases hj : j = idx
    · subst hj
      rw [hin, hb]
      simp [eq_comm]
    · rw [hout j hj]
      simp [hj]

/-- `write_pipe` stores the next byte. -/
theorem Inv.store (h : s.Inv life) {c c' : PipeCall} {size n idx : ℕ} (b : UInt8)
    (hc : c.src.isSome = true) (hsrc : c'.src = c.src)
    (ht : s.call t = some (c, .copy size (n + 1) idx)) :
    ({ s.setCall t c' (.copy (size + 1) n (idx + 1)) with
      page := Function.update s.page size b
      accepted := s.accepted ++ [(idx, b)] } : Pipe ι).Inv (Function.update life idx (.ready b)) := by
  have hc' : c'.src.isSome = true := by rw [hsrc, hc]
  have hcop : s.Copies true t size (n + 1) idx := ⟨c, _, ht, hc, rfl⟩
  obtain ⟨hsize, hfit⟩ := h.place _ _ _ _ _ hcop (by omega)
  have hb : life idx = .owed t := (h.owed t idx).mp ⟨size, n + 1, idx, hcop, Nat.le_refl _, by omega⟩
  have hout : ∀ j, j ≠ idx → Function.update life idx (.ready b) j = life j :=
    fun j hj => Function.update_of_ne hj ..
  have hin : Function.update life idx (.ready b) idx = .ready b := Function.update_self ..
  generalize hs' : ({ s.setCall t c' (.copy (size + 1) n (idx + 1)) with
      page := Function.update s.page size b
      accepted := s.accepted ++ [(idx, b)] } : Pipe ι) = s'
  have hcall : s'.call = Function.update s.call t (some (c', .copy (size + 1) n (idx + 1))) := by
    rw [← hs']
    rfl
  have ht' : s'.call t = some (c', .copy (size + 1) n (idx + 1)) := by
    rw [hcall, Function.update_self]
  have hnot : ∀ b', (idx, b') ∉ s.accepted := by
    intro b' hm
    rw [h.accepted, hb] at hm
    cases hm
  refine h.move (t := t) hcall (by subst hs'; exact ⟨rfl, rfl, rfl, rfl⟩) ⟨by rw [hb]; rfl, trivial⟩
    ⟨by rw [hb]; exact nofun, nofun⟩ (by rw [hb]; rfl) nofun ?_ ?_ ?_ ?_ ?_ ?_ ?_
    (by subst hs'; exact nodup_log h.accepted_nodup hnot) ?_ (by subst hs'; exact h.delivered_nodup)
  · intro j
    rw [pend_copy ht', hc']
    by_cases hj : j = idx
    · subst hj
      rw [hin]
      exact iff_of_false (fun he => by omega) nofun
    · rw [hout j hj, ← h.owed, pend_copy ht, hc]
      exact and_congr_right fun _ => by omega
  · intro j
    rw [pend_copy ht', hc']
    refine iff_of_false nofun fun he => ?_
    by_cases hj : j = idx
    · subst hj
      rw [hin] at he
      obtain ⟨b', hb'⟩ := he
      cases hb'
    · rw [hout j hj, ← h.claimed, pend_copy ht, hc] at he
      cases he.1
  · intro j b'
    refine iff_of_false (not_loaded_copy ht' j b') fun he => ?_
    by_cases hj : j = idx
    · subst hj
      rw [hin] at he
      cases he
    · rw [hout j hj] at he
      exact not_loaded_copy ht j b' ((h.loaded t j b').mpr he)
  · intro c'' p a m i he hp hm
    cases he
    cases hp
    omega
  · intro c'' a m j b' he
    cases he
  · intro j b' hb'
    subst hs'
    show Function.update s.page size b (j % 4096) = b'
    by_cases hj : j = idx
    · subst hj
      rw [hin] at hb'
      rw [hsize, Function.update_self]
      exact hb'
    · rw [hout j hj] at hb'
      -- the other bytes in the page are less than a page away
      have hne : j % 4096 ≠ size := by
        obtain ⟨h1, h2⟩ : s.taken ≤ idx ∧ idx < s.given := by
          refine ⟨?_, h.lt_given (by rw [hb]; exact nofun)⟩
          by_contra hlt
          have := (h.taken idx).mpr (by omega)
          rw [hb] at this
          cases this
        have hroom := h.room
        have hwin : (s.taken ≤ j ∧ j < s.given) ∨ (j < s.taken ∧ s.given ≤ j + 4096) := by
          cases hl : life j with
          | ready b0 =>
            refine .inl ⟨?_, h.lt_given (by rw [hl]; exact nofun)⟩
            by_contra hlt
            have := (h.taken j).mpr (by omega)
            rw [hl] at this
            cases this
          | claimed u b0 =>
            exact .inr ⟨(h.taken j).mp (by rw [hl]; rfl), h.window u j b0 hl⟩
          | future => rw [hl] at hb'; exact hb'.elim
          | owed u => rw [hl] at hb'; exact hb'.elim
          | loaded u b0 => rw [hl] at hb'; exact hb'.elim
          | done b0 => rw [hl] at hb'; exact hb'.elim
        omega
      rw [Function.update_of_ne hne]
      exact h.page j b' hb'
  · intro j b'
    subst hs'
    show (j, b') ∈ s.accepted ++ [(idx, b)] ↔ _
    rw [List.mem_append, h.accepted, List.mem_singleton]
    by_cases hj : j = idx
    · subst hj
      rw [hin, hb]
      simp [ByteLife.byte, eq_comm]
    · rw [hout j hj]
      simp [hj]
  · intro j b'
    subst hs'
    show (j, b') ∈ s.delivered ↔ _
    rw [h.delivered]
    by_cases hj : j = idx
    · subst hj
      rw [hin, hb]
      exact iff_of_false nofun nofun
    · rw [hout j hj]

end Pipe

end Linux011.Fs
