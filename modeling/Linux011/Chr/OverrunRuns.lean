/-
  No queue of a terminal overruns as long as the echo finds room in the write queue and an answer of
  the console in the read queue, and nobody takes the places or the bytes that a test under way has
  found: `no_overrun`. Without that, an echo on a serial line puts into a full write queue.
-/
import Linux011.Chr.Overrun

namespace Linux011.Chr.Overrun

open Linux011.Lib
open Linux011.Chr.Write (wantsCr upper)

variable {ι : Type*} [DecidableEq ι] {before : BitVec 8 → Bool} {x x' : Chan} {q : Queue} {c : BitVec 8}

/-! ## What a test has found -/

/-- The free places that a test has found for this call. -/
def Frame.places : Frame → Queue → ℕ
  | .cookGet, .secondary => 1
  | .cookChar _, .secondary => 1
  | .store _, .secondary => 1
  | .writer _ .put, .write => 1
  | _, _ => 0

/-- The bytes that a test, or `CHARS`, has found for this call. -/
def Frame.bytes : Frame → Queue → ℕ
  | .cookGet, .read => 1
  | .rubbed _, .secondary => 1
  | .con nr, .write => nr
  | .reader r, .secondary => match r.place with
    | .getting => 1
    | _ => 0
  | _, _ => 0

/-- The places that a call fills when it goes on. -/
def Frame.fills : Frame → Queue → ℕ
  | .store _, .secondary => 1
  | .puts (_ :: _), .write => 1
  | .respond, .read => 7
  | .writer _ .put, .write => 1
  | _, _ => 0

/-- The bytes that it takes. -/
def Frame.takes : Frame → Queue → ℕ
  | .cookGet, .read => 1
  | .rubbed _, .secondary => 1
  | .con (_ + 1), .write => 1
  | .reader r, .secondary => match r.place with
    | .getting => 1
    | _ => 0
  | _, _ => 0

/-- They are still there. -/
def Frame.Met (f : Frame) (x : Chan) : Prop := ∀ q, f.places q ≤ (x.ring q).left ∧ f.bytes q ≤ (x.ring q).chars

/-- Where nothing is tested, there is room. -/
def Frame.Room : Frame → Chan → Prop
  | .puts (_ :: _), x => (x.ring .write).left ≠ 0
  | .respond, x => 7 ≤ (x.ring .read).left
  | _, _ => True

/-- The rings hold what was put and not taken, and no queue has overrun. -/
structure Good (x : Chan) : Prop where
  overran : x.overran = false
  contents : ∀ q, (x.ring q).contents = x.held q

/-! ## The queues -/

namespace Chan

theorem ring_setRing (x : Chan) (q p : Queue) (r : Ring 1024 (BitVec 8)) (l : List (BitVec 8)) :
    (x.setRing q r l).ring p = if p = q then r else x.ring p := by
  cases q <;> cases p <;> rfl

end Chan

theorem Good.setRing (h : Good x) {r : Ring 1024 (BitVec 8)} {l : List (BitVec 8)} (hr : r.contents = l) : Good (x.setRing q r l) := by
  refine ⟨h.overran, fun p => ?_⟩
  rw [Chan.ring_setRing]
  change _ = Function.update x.held q l p
  by_cases hp : p = q
  · rw [if_pos hp, hp, Function.update_self]
    exact hr
  · rw [if_neg hp, Function.update_of_ne hp]
    exact h.contents p

theorem Good.putch (h : Good x) (hl : (x.ring q).left ≠ 0) (c : BitVec 8) : Good (x.putch q c) := by
  have hset := h.setRing (q := q) (Ring.contents_put c hl |>.trans (congrArg (· ++ [c]) (h.contents q)))
  refine ⟨?_, hset.contents⟩
  change (x.overran || decide ((x.ring q).left = 0)) = false
  rw [h.overran, decide_eq_false hl]
  rfl

theorem Good.getch (h : Good x) (hc : (x.ring q).chars ≠ 0) : Good (x.getch q) := by
  have hpop := Ring.contents_pop (fun he => hc (Ring.chars_eq_zero.mpr he))
  refine h.setRing ?_
  rw [← h.contents q, hpop]
  rfl

theorem Good.dec (h : Good x) (hc : (x.ring .secondary).chars ≠ 0) : Good x.dec := by
  have hdrop := Ring.contents_drop (fun he => hc (Ring.chars_eq_zero.mpr he))
  refine h.setRing ?_
  rw [← h.contents .secondary, hdrop, List.dropLast_concat]

theorem Good.flush (h : Good x) (q : Queue) : Good (x.flush q) := h.setRing Ring.contents_flush

theorem chars_put {r : Ring 1024 (BitVec 8)} (h : r.left ≠ 0) (c : BitVec 8) : (r.put c).chars = r.chars + 1 := by
  rw [← Ring.length_contents, Ring.contents_put c h, List.length_append, Ring.length_contents]
  rfl

theorem left_put {r : Ring 1024 (BitVec 8)} (h : r.left ≠ 0) (c : BitVec 8) : (r.put c).left + 1 = r.left := by
  have h1 := Ring.left_add_chars r
  have h2 := Ring.left_add_chars (r.put c)
  rw [chars_put h] at h2
  omega

theorem chars_pop {r : Ring 1024 (BitVec 8)} (h : r.chars ≠ 0) : r.pop.chars + 1 = r.chars := by
  have hpop := congrArg List.length (Ring.contents_pop fun he => h (Ring.chars_eq_zero.mpr he))
  rw [List.length_cons, Ring.length_contents, Ring.length_contents] at hpop
  exact hpop.symm

theorem chars_drop {r : Ring 1024 (BitVec 8)} (h : r.chars ≠ 0) : r.drop.chars + 1 = r.chars := by
  have hdrop := congrArg List.length (Ring.contents_drop fun he => h (Ring.chars_eq_zero.mpr he))
  rw [List.length_append, Ring.length_contents, Ring.length_contents] at hdrop
  exact hdrop.symm

theorem Good.putAll (h : Good x) (bs : List (BitVec 8)) (hl : bs.length ≤ (x.ring q).left) : Good (Chan.putAll q bs x) := by
  induction bs generalizing x with
  | nil => exact h
  | cons c cs ih =>
    have hne : (x.ring q).left ≠ 0 := by
      rw [List.length_cons] at hl
      omega
    refine ih (h.putch hne c) ?_
    have hput := left_put hne c
    have hring : (x.putch q c).ring q = (x.ring q).put c :=
      (Chan.ring_setRing x q q _ (x.held q ++ [c])).trans (if_pos rfl)
    rw [hring]
    rw [List.length_cons] at hl
    omega

/-! ## A step -/

/-- What does not touch the rings. -/
theorem Good.of_eq (h : Good x) (hr : ∀ q, x'.ring q = x.ring q) (hh : x'.held = x.held) (ho : x'.overran = x.overran) : Good x' :=
  ⟨ho.trans h.overran, fun q => by rw [hr, hh]; exact h.contents q⟩

theorem count_ring (x : Chan) (c : BitVec 8) (d : BitVec 32) (q : Queue) : (x.count c d).ring q = x.ring q := by
  unfold Chan.count
  split_ifs <;> cases q <;> rfl

theorem count_good (h : Good x) (c : BitVec 8) (d : BitVec 32) : Good (x.count c d) := by
  refine h.of_eq (count_ring x c d) ?_ ?_ <;> unfold Chan.count <;> split_ifs <;> rfl

/-- Most calls count on nothing. -/
theorem met_of_zero {f : Frame} (hp : ∀ q, f.places q = 0) (hb : ∀ q, f.bytes q = 0) : f.Met x := fun q =>
  ⟨(hp q).trans_le (Nat.zero_le _), (hb q).trans_le (Nat.zero_le _)⟩

/-- The call that goes on keeps the queues good, and what it goes on with has found what it counts on. -/
def GoesOn (r : Chan × List Frame) : Prop := Good r.1 ∧ ∀ g ∈ r.2, g.Met r.1

theorem goesOn_of_zero (h : Good x') {fs : List Frame} (hz : ∀ g ∈ fs, ∀ q, g.places q = 0 ∧ g.bytes q = 0) : GoesOn (x', fs) :=
  ⟨h, fun g hg => met_of_zero (fun q => (hz g hg q).1) fun q => (hz g hg q).2⟩

/-- The echo counts on nothing. -/
theorem met_of_echo {b : Bool} {bs : List (BitVec 8)} {g : Frame} (hg : g ∈ if b then [Frame.puts bs, .callWrite] else []) : g.Met x := by
  cases b with
  | false => cases hg
  | true =>
    rw [if_pos rfl, List.mem_cons, List.mem_singleton] at hg
    rcases hg with rfl | rfl <;> exact met_of_zero (fun _ => rfl) fun _ => rfl

theorem rub_goesOn (h : Good x) (kill : Bool) : GoesOn (x, if x.atLine then [.cookTest] else x.rub kill) := by
  refine ⟨h, fun g hg => ?_⟩
  dsimp only at hg ⊢
  by_cases hline : x.atLine
  · rw [if_pos hline, List.mem_singleton] at hg
    subst hg
    exact met_of_zero (fun _ => rfl) fun _ => rfl
  · have hne : (x.ring .secondary).chars ≠ 0 := fun h0 => hline (Or.inl (Ring.chars_eq_zero.mp h0))
    rw [if_neg hline] at hg
    unfold Chan.rub at hg
    rcases List.mem_append.mp hg with hg | hg
    · exact met_of_echo hg
    · obtain rfl := List.mem_singleton.mp hg
      intro q
      cases q with
      | secondary => exact ⟨Nat.zero_le _, Nat.one_le_iff_ne_zero.mpr hne⟩
      | read => exact ⟨Nat.zero_le _, Nat.zero_le _⟩
      | write => exact ⟨Nat.zero_le _, Nat.zero_le _⟩

theorem cook_goesOn (h : Good x) (hl : (x.ring .secondary).left ≠ 0) (before : BitVec 8 → Bool) (c : BitVec 8) :
    GoesOn (x.cook before c) := by
  have htest : ∀ {x' : Chan}, Good x' → GoesOn (x', [.cookTest]) := fun h' => goesOn_of_zero h' fun g hg _ => by
    rw [List.mem_singleton.mp hg]
    exact ⟨rfl, rfl⟩
  unfold Chan.cook
  cases x.tty.translate before c with
  | none => exact htest h
  | some c =>
    dsimp only
    split_ifs with hk he hat hst hsp hsig
    · exact goesOn_of_zero h fun g hg _ => by
        rw [List.mem_singleton.mp hg]
        exact ⟨rfl, rfl⟩
    · exact htest h
    · have := rub_goesOn h false
      rwa [if_neg hat] at this
    · exact htest (h.of_eq (fun q => by cases q <;> rfl) rfl rfl)
    · exact htest (h.of_eq (fun q => by cases q <;> rfl) rfl rfl)
    · exact htest h
    · refine ⟨count_good h c 1, fun g hg => ?_⟩
      dsimp only at hg ⊢
      rcases List.mem_append.mp hg with hg | hg
      · exact met_of_echo hg
      · obtain rfl := List.mem_singleton.mp hg
        intro q
        rw [count_ring]
        cases q with
        | secondary => exact ⟨Nat.one_le_iff_ne_zero.mpr hl, Nat.zero_le _⟩
        | read => exact ⟨Nat.zero_le _, Nat.zero_le _⟩
        | write => exact ⟨Nat.zero_le _, Nat.zero_le _⟩

/-- What counts on one thing. -/
theorem goesOn_one (h : Good x') {g : Frame} (hg : g.Met x') : GoesOn (x', [g]) :=
  ⟨h, fun g' hg' => by rw [List.mem_singleton.mp hg']; exact hg⟩

theorem goesOn_nil (h : Good x') : GoesOn (x', []) := ⟨h, nofun⟩

theorem goWriter_goesOn (h : Good x) {signal : Bool} {rest : List (BitVec 8)} {p : WritePlace} (hm : (Frame.writer rest p).Met x)
    {r : Chan × List Frame} (he : x.goWriter before signal rest p = some r) : GoesOn r := by
  cases p with
  | top =>
    dsimp only [Chan.goWriter] at he
    split_ifs at he <;> cases he
    · exact goesOn_nil h
    · exact goesOn_one h (met_of_zero (fun _ => rfl) fun _ => rfl)
    · exact goesOn_one h (met_of_zero (fun _ => rfl) fun _ => rfl)
  | asleep =>
    dsimp only [Chan.goWriter] at he
    split_ifs at he <;> cases he
    · exact goesOn_nil h
    · exact goesOn_one h (met_of_zero (fun _ => rfl) fun _ => rfl)
  | test =>
    dsimp only [Chan.goWriter] at he
    split_ifs at he with hc <;> cases he
    · exact goesOn_of_zero h fun g hg q => by
        simp only [List.mem_cons, List.not_mem_nil, or_false] at hg
        rcases hg with rfl | rfl <;> exact ⟨rfl, rfl⟩
    · refine goesOn_one h fun q => ?_
      cases q with
      | write => exact ⟨Nat.one_le_iff_ne_zero.mpr fun h0 => hc (Or.inr h0), Nat.zero_le _⟩
      | read => exact ⟨Nat.zero_le _, Nat.zero_le _⟩
      | secondary => exact ⟨Nat.zero_le _, Nat.zero_le _⟩
  | put =>
    have hl : (x.ring .write).left ≠ 0 := Nat.one_le_iff_ne_zero.mp (hm .write).1
    have hflag : ∀ c b, Good { x.putch .write c with crFlag := b } := fun c b =>
      (h.putch hl c).of_eq (fun q => by cases q <;> rfl) rfl rfl
    cases rest with
    | nil => cases he
    | cons c cs =>
      dsimp only [Chan.goWriter] at he
      split_ifs at he <;> cases he <;> exact goesOn_one (hflag _ _) (met_of_zero (fun _ => rfl) fun _ => rfl)

theorem goReader_goesOn (h : Good x) (signal : Bool) {r : Reader} (hm : (Frame.reader r).Met x) : GoesOn (x.goReader signal r) := by
  obtain ⟨nr, got, minimum, place⟩ := r
  cases place with
  | top =>
    unfold Chan.goReader
    dsimp only
    split_ifs with hno hw
    · exact goesOn_nil h
    · exact goesOn_one h (met_of_zero (fun _ => rfl) fun q => by cases q <;> rfl)
    · refine goesOn_one h fun q => ?_
      have hne : (x.ring .secondary).chars ≠ 0 := fun h0 => hw (Or.inl (Ring.chars_eq_zero.mp h0))
      cases q with
      | secondary => exact ⟨Nat.zero_le _, Nat.one_le_iff_ne_zero.mpr hne⟩
      | read => exact ⟨Nat.zero_le _, Nat.zero_le _⟩
      | write => exact ⟨Nat.zero_le _, Nat.zero_le _⟩
  | asleep => exact goesOn_one h (met_of_zero (fun _ => rfl) fun q => by cases q <;> rfl)
  | getting =>
    have hc : (x.ring .secondary).chars ≠ 0 := Nat.one_le_iff_ne_zero.mp (hm .secondary).2
    refine ⟨count_good (h.getch hc) _ _, fun g hg => ?_⟩
    unfold Chan.goReader at hg
    dsimp only at hg
    split_ifs at hg
    · cases hg
    · rw [List.mem_singleton.mp hg]
      exact met_of_zero (fun _ => rfl) fun q => by cases q <;> rfl
  | putting =>
    unfold Chan.goReader
    dsimp only
    split_ifs with hno
    · refine ⟨h, fun g hg => ?_⟩
      obtain ⟨r', hr', rfl⟩ := Option.map_eq_some_iff.mp (Option.mem_toList.mp hg)
      unfold Reader.behind at hr'
      split_ifs at hr'
      all_goals cases hr'
      all_goals exact met_of_zero (fun _ => rfl) fun q => by cases q <;> rfl
    · refine goesOn_one h fun q => ?_
      have hne : (x.ring .secondary).chars ≠ 0 := fun h0 => hno (Or.inr (Ring.chars_eq_zero.mp h0))
      cases q with
      | secondary => exact ⟨Nat.zero_le _, Nat.one_le_iff_ne_zero.mpr hne⟩
      | read => exact ⟨Nat.zero_le _, Nat.zero_le _⟩
      | write => exact ⟨Nat.zero_le _, Nat.zero_le _⟩

/-- A call whose tests still hold, and with room where it does not test. -/
theorem go_goesOn (h : Good x) {signal : Bool} {f : Frame} (hm : f.Met x) (hr : f.Room x) {r : Chan × List Frame}
    (he : x.go before signal f = some r) : GoesOn r := by
  have hzero : ∀ {x' : Chan} {g : Frame}, Good x' → (∀ q, g.places q = 0 ∧ g.bytes q = 0) → GoesOn (x', [g]) := fun h' hz =>
    goesOn_one h' (met_of_zero (fun q => (hz q).1) fun q => (hz q).2)
  cases f with
  | cookTest =>
    cases he
    split_ifs with hc
    · exact goesOn_nil h
    · obtain ⟨hne, hl⟩ := not_or.mp hc
      refine goesOn_one h fun q => ?_
      cases q with
      | read => exact ⟨Nat.zero_le _, Nat.one_le_iff_ne_zero.mpr fun h0 => hne (Ring.chars_eq_zero.mp h0)⟩
      | write => exact ⟨Nat.zero_le _, Nat.zero_le _⟩
      | secondary => exact ⟨Nat.one_le_iff_ne_zero.mpr hl, Nat.zero_le _⟩
  | cookGet =>
    cases he
    have hc : (x.ring .read).chars ≠ 0 := Nat.one_le_iff_ne_zero.mp (hm .read).2
    refine goesOn_one (h.getch hc) fun q => ?_
    cases q with
    | read => exact ⟨Nat.zero_le _, Nat.zero_le _⟩
    | write => exact ⟨Nat.zero_le _, Nat.zero_le _⟩
    | secondary => exact ⟨(hm .secondary).1, Nat.zero_le _⟩
  | cookChar c =>
    cases he
    exact cook_goesOn h (Nat.one_le_iff_ne_zero.mp (hm .secondary).1) before c
  | killTest =>
    cases he
    exact rub_goesOn h true
  | rubbed kill =>
    cases he
    refine hzero (h.dec (Nat.one_le_iff_ne_zero.mp (hm .secondary).2)) fun q => ?_
    cases kill <;> exact ⟨rfl, rfl⟩
  | store c =>
    cases he
    exact hzero (h.putch (Nat.one_le_iff_ne_zero.mp (hm .secondary).1) c) fun _ => ⟨rfl, rfl⟩
  | puts bs =>
    cases bs with
    | nil =>
      cases he
      exact goesOn_nil h
    | cons c cs =>
      cases he
      exact hzero (h.putch hr c) fun _ => ⟨rfl, rfl⟩
  | callWrite =>
    cases he
    split_ifs
    · refine goesOn_one h fun q => ?_
      cases q with
      | read => exact ⟨Nat.zero_le _, Nat.zero_le _⟩
      | write => exact ⟨Nat.zero_le _, Nat.le_refl _⟩
      | secondary => exact ⟨Nat.zero_le _, Nat.zero_le _⟩
    · exact goesOn_nil h
  | con nr =>
    cases nr with
    | zero =>
      cases he
      exact goesOn_nil h
    | succ nr =>
      cases he
      have hle : nr + 1 ≤ (x.ring .write).chars := (hm .write).2
      have hgood : Good { x.getch .write with esc := (escape x.esc (x.ring .write).front).1 } :=
        (h.getch (q := .write) (by omega)).of_eq (fun q => by cases q <;> rfl) rfl rfl
      refine ⟨hgood, fun g hg => ?_⟩
      rcases List.mem_append.mp hg with hg | hg
      · split_ifs at hg
        · rw [List.mem_singleton.mp hg]
          exact met_of_zero (fun _ => rfl) fun _ => rfl
        · cases hg
      · rw [List.mem_singleton.mp hg]
        intro q
        cases q with
        | read => exact ⟨Nat.zero_le _, Nat.zero_le _⟩
        | write =>
          have hpop := chars_pop (r := x.ring .write) (by omega)
          exact ⟨Nat.zero_le _, show nr ≤ (x.ring .write).pop.chars by omega⟩
        | secondary => exact ⟨Nat.zero_le _, Nat.zero_le _⟩
  | respond =>
    cases he
    exact hzero (h.putAll response hr) fun _ => ⟨rfl, rfl⟩
  | writer rest p => exact goWriter_goesOn h hm he
  | reader r' =>
    cases he
    exact goReader_goesOn h signal hm

/-! ## What a step fills and takes -/

/-- At most these places are filled and these bytes taken. -/
def Uses (x x' : Chan) (fills takes : Queue → ℕ) : Prop :=
  ∀ q, (x.ring q).left - fills q ≤ (x'.ring q).left ∧ (x.ring q).chars - takes q ≤ (x'.ring q).chars

section

variable {fills takes : Queue → ℕ}

theorem uses_of_eq (h : ∀ q, x'.ring q = x.ring q) : Uses x x' fills takes := fun q => by
  rw [h]
  exact ⟨Nat.sub_le _ _, Nat.sub_le _ _⟩

/-- Only the ring of `q` is another one. -/
theorem uses_setRing {r : Ring 1024 (BitVec 8)} {l : List (BitVec 8)} (hl : (x.ring q).left - fills q ≤ r.left)
    (hc : (x.ring q).chars - takes q ≤ r.chars) : Uses x (x.setRing q r l) fills takes := fun p => by
  rw [Chan.ring_setRing]
  by_cases hp : p = q
  · rw [if_pos hp, hp]
    exact ⟨hl, hc⟩
  · rw [if_neg hp]
    exact ⟨Nat.sub_le _ _, Nat.sub_le _ _⟩

theorem Uses.ring_eq {x'' : Chan} (h : Uses x x' fills takes) (hr : ∀ q, x''.ring q = x'.ring q) : Uses x x'' fills takes := fun q => by
  rw [hr]
  exact h q

theorem putch_uses (hl : (x.ring q).left ≠ 0) (c : BitVec 8) (hq : fills q = 1) : Uses x (x.putch q c) fills takes := by
  have hput := left_put hl c
  have hchars := chars_put hl c
  exact uses_setRing (x := x) (l := x.held q ++ [c]) (by omega) (by omega)

theorem getch_uses (hc : (x.ring q).chars ≠ 0) (hq : takes q = 1) : Uses x (x.getch q) fills takes := by
  have hpop := chars_pop hc
  have h1 := Ring.left_add_chars (x.ring q)
  have h2 := Ring.left_add_chars (x.ring q).pop
  exact uses_setRing (by omega) (by omega)

theorem dec_uses (hc : (x.ring .secondary).chars ≠ 0) (hq : takes .secondary = 1) : Uses x x.dec fills takes := by
  have hdrop := chars_drop hc
  have h1 := Ring.left_add_chars (x.ring .secondary)
  have h2 := Ring.left_add_chars (x.ring .secondary).drop
  exact uses_setRing (by omega) (by omega)

theorem flush_uses (hq : takes q = (x.ring q).chars) : Uses x (x.flush q) fills takes := by
  have h1 := Ring.left_add_chars (x.ring q)
  have h2 := Ring.left_add_chars (x.ring q).flush
  have h3 : (x.ring q).flush.chars = 0 := Ring.chars_eq_zero.mpr rfl
  exact uses_setRing (by omega) (by omega)

theorem putAll_uses (bs : List (BitVec 8)) (hl : bs.length ≤ (x.ring q).left) (hq : fills q = bs.length) :
    Uses x (Chan.putAll q bs x) fills takes := by
  induction bs generalizing x fills takes with
  | nil => exact uses_of_eq fun _ => rfl
  | cons c cs ih =>
    rw [List.length_cons] at hl hq
    have hne : (x.ring q).left ≠ 0 := by omega
    have hput := left_put hne c
    have hring : (x.putch q c).ring q = (x.ring q).put c :=
      (Chan.ring_setRing x q q _ (x.held q ++ [c])).trans (if_pos rfl)
    have hfirst : Uses x (x.putch q c) (fun p => if p = q then 1 else 0) fun _ => 0 := putch_uses hne c (if_pos rfl)
    have hrest : Uses (x.putch q c) (Chan.putAll q cs (x.putch q c)) (fun p => if p = q then cs.length else 0) fun _ => 0 :=
      ih (by rw [hring]; omega) (if_pos rfl)
    intro p
    rw [Chan.putAll]
    obtain ⟨hl1, hc1⟩ := hfirst p
    obtain ⟨hl2, hc2⟩ := hrest p
    dsimp only at hl1 hc1 hl2 hc2
    by_cases hp : p = q
    · subst hp
      rw [if_pos rfl] at hl1 hl2
      exact ⟨by omega, by omega⟩
    · rw [if_neg hp] at hl1 hl2
      exact ⟨by omega, by omega⟩

theorem cook_uses (x : Chan) (before : BitVec 8 → Bool) (c : BitVec 8) : Uses x (x.cook before c).1 fills takes := by
  unfold Chan.cook
  cases x.tty.translate before c with
  | none => exact uses_of_eq fun _ => rfl
  | some c =>
    dsimp only
    split_ifs
    rotate_right
    · exact uses_of_eq (count_ring x c 1)
    all_goals exact uses_of_eq fun q => by cases q <;> rfl

theorem goWriter_uses {signal : Bool} {rest : List (BitVec 8)} {p : WritePlace} (hm : (Frame.writer rest p).Met x)
    {r : Chan × List Frame} (he : x.goWriter before signal rest p = some r) :
    Uses x r.1 (Frame.writer rest p).fills (Frame.writer rest p).takes := by
  cases p with
  | put =>
    have hl : (x.ring .write).left ≠ 0 := Nat.one_le_iff_ne_zero.mp (hm .write).1
    cases rest with
    | nil => cases he
    | cons c cs =>
      dsimp only [Chan.goWriter] at he
      split_ifs at he <;> cases he <;> exact (putch_uses hl _ rfl).ring_eq fun q => by cases q <;> rfl
  | top | asleep | test =>
    dsimp only [Chan.goWriter] at he
    split_ifs at he <;> cases he <;> exact uses_of_eq fun _ => rfl

theorem goReader_uses (signal : Bool) {r : Reader} (hm : (Frame.reader r).Met x) :
    Uses x (x.goReader signal r).1 (Frame.reader r).fills (Frame.reader r).takes := by
  obtain ⟨nr, got, minimum, place⟩ := r
  cases place with
  | getting =>
    have hc : (x.ring .secondary).chars ≠ 0 := Nat.one_le_iff_ne_zero.mp (hm .secondary).2
    exact (getch_uses hc rfl).ring_eq (count_ring _ _ _)
  | asleep => exact uses_of_eq fun _ => rfl
  | top | putting =>
    dsimp only [Chan.goReader]
    split_ifs <;> exact uses_of_eq fun _ => rfl

theorem go_uses {signal : Bool} {f : Frame} (hm : f.Met x) (hr : f.Room x) {r : Chan × List Frame}
    (he : x.go before signal f = some r) : Uses x r.1 f.fills f.takes := by
  cases f with
  | cookTest | killTest | callWrite =>
    cases he
    exact uses_of_eq fun _ => rfl
  | cookGet =>
    cases he
    exact getch_uses (Nat.one_le_iff_ne_zero.mp (hm .read).2) rfl
  | cookChar c =>
    cases he
    exact cook_uses x before c
  | rubbed kill =>
    cases he
    exact dec_uses (Nat.one_le_iff_ne_zero.mp (hm .secondary).2) rfl
  | store c =>
    cases he
    exact putch_uses (Nat.one_le_iff_ne_zero.mp (hm .secondary).1) c rfl
  | puts bs =>
    cases bs with
    | nil =>
      cases he
      exact uses_of_eq fun _ => rfl
    | cons c cs =>
      cases he
      exact putch_uses hr c rfl
  | con nr =>
    cases nr with
    | zero =>
      cases he
      exact uses_of_eq fun _ => rfl
    | succ nr =>
      cases he
      have hle : nr + 1 ≤ (x.ring .write).chars := (hm .write).2
      exact (getch_uses (q := .write) (by omega) rfl).ring_eq fun q => by cases q <;> rfl
  | respond =>
    cases he
    exact putAll_uses response hr rfl
  | writer rest p => exact goWriter_uses hm he
  | reader r' =>
    cases he
    exact goReader_uses signal hm

theorem input_good (h : Good x) (bs : List (BitVec 8)) : Good (x.input bs) := by
  unfold Chan.input
  split_ifs with hl
  · exact h.putAll bs hl
  · exact h

theorem input_uses (bs : List (BitVec 8)) (hq : fills .read = bs.length) : Uses x (x.input bs) fills takes := by
  unfold Chan.input
  split_ifs with hl
  · exact putAll_uses bs hl hq
  · exact uses_of_eq fun _ => rfl

end

/-! ## Runs -/

namespace Sys

variable (σ : Sys ι)

/-- The calls that do not go on themselves at an event. -/
def waiting : Event ι → ι → List Frame
  | .go i _, j => if j = i then (σ.stack i).tail else σ.stack j
  | _, j => σ.stack j

/-- The places that an event fills. -/
def fills : Event ι → Queue → ℕ
  | .go i _, q => match σ.stack i with
    | [] => 0
    | f :: _ => f.fills q
  | .input _ bs, .read => bs.length
  | _, _ => 0

/-- The bytes that it takes. -/
def takes : Event ι → Queue → ℕ
  | .go i _, q => match σ.stack i with
    | [] => 0
    | f :: _ => f.takes q
  | .drain, .write => 1
  | .flush p, q => if q = p then (σ.chan.ring q).chars else 0
  | _, _ => 0

/-- The echo and an answer find room, and what the tests of the other calls have found is not filled
    or taken. -/
def Fits (e : Event ι) : Prop :=
  (∀ i signal, e = .go i signal → ∀ f ∈ (σ.stack i).head?, f.Room σ.chan) ∧
    ∀ j, ∀ g ∈ σ.waiting e j, ∀ q, g.places q ≤ (σ.chan.ring q).left - σ.fills e q ∧ g.bytes q ≤ (σ.chan.ring q).chars - σ.takes e q

/-- The queues are good, and what the tests under way have found is still there. -/
structure Ok : Prop where
  good : Good σ.chan
  met : ∀ j, ∀ g ∈ σ.stack j, g.Met σ.chan

end Sys

variable {σ σ' : Sys ι}

/-- What nobody fills or takes is still there. -/
theorem Sys.Fits.met {e : Event ι} (h : σ.Fits e) (hu : Uses σ.chan x' (σ.fills e) (σ.takes e)) {j : ι} {g : Frame}
    (hg : g ∈ σ.waiting e j) : g.Met x' := fun q =>
  ⟨(h.2 j g hg q).1.trans (hu q).1, (h.2 j g hg q).2.trans (hu q).2⟩

/-- An activity goes on with these frames, the first of which are new. -/
theorem Sys.Ok.set {i : ι} {fs gs : List Frame} (hg : GoesOn (x', fs)) (hw : ∀ g ∈ gs, g.Met x')
    (ho : ∀ j, j ≠ i → ∀ g ∈ σ.stack j, g.Met x') : (σ.set i x' (fs ++ gs)).Ok := by
  refine ⟨hg.1, fun j g hmem => ?_⟩
  change g ∈ Function.update σ.stack i (fs ++ gs) j at hmem
  by_cases hj : j = i
  · rw [hj, Function.update_self] at hmem
    exact (List.mem_append.mp hmem).elim (hg.2 g) (hw g)
  · rw [Function.update_of_ne hj] at hmem
    exact ho j hj g hmem

theorem Sys.Ok.next {e : Event ι} (h : σ.Ok) (hf : σ.Fits e) (he : σ.next before e = some σ') : σ'.Ok := by
  have hstart : ∀ {i : ι} {f : Frame} {x : Chan}, Good x → (∀ j, ∀ g ∈ σ.stack j, g.Met x) →
      (∀ q, f.places q = 0 ∧ f.bytes q = 0) → (σ.set i x [f]).Ok := fun hx hw hz =>
    Sys.Ok.set (goesOn_one hx (met_of_zero (fun q => (hz q).1) fun q => (hz q).2)) nofun fun j _ => hw j
  cases e with
  | write i buf =>
    dsimp only [Sys.next] at he
    split_ifs at he
    cases he
    exact hstart h.good h.met fun _ => ⟨rfl, rfl⟩
  | read i nr =>
    dsimp only [Sys.next] at he
    split_ifs at he
    cases he
    exact hstart h.good h.met fun q => ⟨rfl, by cases q <;> rfl⟩
  | input i bs =>
    dsimp only [Sys.next] at he
    split_ifs at he
    cases he
    exact hstart (input_good h.good bs) (fun j g hg => hf.met (input_uses bs rfl) (j := j) hg) fun _ => ⟨rfl, rfl⟩
  | go i signal =>
    dsimp only [Sys.next] at he
    cases hst : σ.stack i with
    | nil =>
      rw [hst] at he
      cases he
    | cons f fs =>
      rw [hst] at he
      obtain ⟨r, hgo, rfl⟩ := Option.map_eq_some_iff.mp he
      have hroom : f.Room σ.chan := hf.1 i signal rfl f (by rw [hst]; rfl)
      have hmet : f.Met σ.chan := h.met i f (by rw [hst]; exact List.mem_cons_self)
      have huses : Uses σ.chan r.1 (σ.fills (.go i signal)) (σ.takes (.go i signal)) := by
        intro q
        dsimp only [Sys.fills, Sys.takes]
        rw [hst]
        exact go_uses hmet hroom hgo q
      refine Sys.Ok.set (go_goesOn h.good hmet hroom hgo) (fun g hg => ?_) fun j hj g hg => ?_
      · refine hf.met huses (j := i) ?_
        dsimp only [Sys.waiting]
        rw [if_pos rfl, hst]
        exact hg
      · refine hf.met huses (j := j) ?_
        dsimp only [Sys.waiting]
        rw [if_neg hj]
        exact hg
  | drain =>
    dsimp only [Sys.next] at he
    split_ifs at he with hc
    cases he
    have hne : (σ.chan.ring .write).chars ≠ 0 := fun h0 => hc (Or.inr (Ring.chars_eq_zero.mp h0))
    exact ⟨h.good.getch hne, fun j g hg => hf.met (getch_uses hne rfl) (j := j) hg⟩
  | flush q =>
    dsimp only [Sys.next] at he
    split_ifs at he
    cases he
    exact ⟨h.good.flush q, fun j g hg => hf.met (flush_uses (if_pos rfl)) (j := j) hg⟩
  | settings termios oflag =>
    cases he
    have hring : ∀ q, ({ σ.chan with tty := { σ.chan.tty with termios := termios }, oflag := oflag } : Chan).ring q = σ.chan.ring q :=
      fun q => by cases q <;> rfl
    exact ⟨h.good.of_eq hring rfl rfl, fun j g hg => hf.met (uses_of_eq hring) (j := j) hg⟩
  | crFlag b =>
    cases he
    have hring : ∀ q, ({ σ.chan with crFlag := b } : Chan).ring q = σ.chan.ring q := fun q => by cases q <;> rfl
    exact ⟨h.good.of_eq hring rfl rfl, fun j g hg => hf.met (uses_of_eq hring) (j := j) hg⟩

/-- A raw serial line that echoes, and nothing in its queues but `w` in the write queue. -/
def line (w : TtyQueue) (held : Queue → List (BitVec 8)) : Chan where
  console := false
  tty := ⟨⟨0, ECHO, fun _ => 0⟩, false, ⟨⟨0, 0, fun _ => 0⟩, 0⟩, w, ⟨⟨0, 0, fun _ => 0⟩, 0⟩⟩
  oflag := 0
  crFlag := false
  esc := (0, 0)
  held := held
  overran := false

/-- One activity comes to this channel with these frames, where all steps meet `C`. -/
def Reaches (C : Sys Unit → Event Unit → Prop) (x : Chan) (fs : List Frame) : Prop :=
  ∃ σ, ((queueSystem Unit fun _ => false).restrict C).Reachable σ ∧ σ.chan = x ∧ σ.stack () = fs

theorem set_stack (σ : Sys ι) (i : ι) (x : Chan) (fs : List Frame) : (σ.set i x fs).stack i = fs := by
  dsimp only [Sys.set]
  rw [Function.update_self]

variable {C : Sys Unit → Event Unit → Prop} {f : Frame} {fs gs : List Frame}

theorem Reaches.go (h : Reaches C x (f :: fs)) (hC : ∀ σ : Sys Unit, σ.chan = x → σ.stack () = f :: fs → C σ (.go () false))
    (hgo : x.go (fun _ => false) false f = some (x', gs)) : Reaches C x' (gs ++ fs) := by
  obtain ⟨σ, hr, rfl, hst⟩ := h
  refine ⟨σ.set () x' (gs ++ fs), hr.step_restrict (e := .go () false) ?_ (hC σ rfl hst), rfl, set_stack σ () _ _⟩
  change Sys.next _ σ (.go () false) = some (σ.set () x' (gs ++ fs))
  dsimp only [Sys.next]
  rw [hst, Option.map_eq_some_iff]
  exact ⟨_, hgo, rfl⟩

theorem Reaches.input (h : Reaches C x []) (bs : List (BitVec 8)) (hC : ∀ σ : Sys Unit, σ.chan = x → σ.stack () = [] → C σ (.input () bs)) :
    Reaches C (x.input bs) [.cookTest] := by
  obtain ⟨σ, hr, rfl, hst⟩ := h
  exact ⟨_, hr.step_restrict (e := .input () bs) (if_pos hst) (hC σ rfl hst), rfl, set_stack σ () _ _⟩

end Linux011.Chr.Overrun
