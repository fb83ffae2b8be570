/-
  Saving and restoring the cursor. ESC 7 and ESC 8 are taken by the column of the cursor, not by the
  byte: at column 55 any other sequence of two bytes saves, at column 56 it restores.
-/
import Linux011.Chr.ConsoleRuns

namespace Linux011.Chr

open Lib

namespace Con

variable {v : Video} {c c' : Con} {erase ch : BitVec 8} {w : List (BitVec 8)}

def ESC : BitVec 8 := 27

def feed (erase : BitVec 8) (c : Con) (w : List (BitVec 8)) : Con := w.foldl (fun c ch => c.byte erase ch) c

/-- `P` holds of every byte and the state it comes to. -/
def Each (erase : BitVec 8) (P : Con → BitVec 8 → Prop) : Con → List (BitVec 8) → Prop
  | _, [] => True
  | c, ch :: w => P c ch ∧ Each erase P (c.byte erase ch) w

/-- The byte ends ESC 7, ESC 8, ESC Z, CSI s or CSI u. -/
def SavesOrAsks (c : Con) (ch : BitVec 8) : Prop :=
  c.state = 1 ∧ (ch = char '7' ∨ ch = char '8' ∨ ch = char 'Z') ∨ 1 < c.state ∧ (ch = char 's' ∨ ch = char 'u')

/-- The second byte of a sequence is looked at. -/
def Known (ch : BitVec 8) : Prop := ch = char '[' ∨ ch = char 'E' ∨ ch = char 'M' ∨ ch = char 'D' ∨ ch = char 'Z'

/-- The cursor is where the column stands for the byte. -/
def ColumnFits (c : Con) (ch : BitVec 8) : Prop :=
  c.state = 1 → ¬ Known ch → (c.x = (char '7').toNat ↔ ch = char '7') ∧ (c.x = (char '8').toNat ↔ ch = char '8')

def savedAt (c : Con) : ℕ × ℕ := (c.savedX, c.savedY)

instance (ch : BitVec 8) : Decidable (Known ch) := inferInstanceAs (Decidable (_ ∨ _))

instance (c : Con) (ch : BitVec 8) : Decidable (SavesOrAsks c ch) := inferInstanceAs (Decidable (_ ∨ _))

instance (c : Con) (ch : BitVec 8) : Decidable (ColumnFits c ch) := inferInstanceAs (Decidable (_ → _ → _ ∧ _))

instance decidableEach (erase : BitVec 8) {P : Con → BitVec 8 → Prop} [∀ c ch, Decidable (P c ch)] :
    ∀ c w, Decidable (Each erase P c w)
  | _, [] => inferInstanceAs (Decidable True)
  | c, ch :: w =>
    have : Decidable (Each erase P (c.byte erase ch) w) := decidableEach erase (c.byte erase ch) w
    inferInstanceAs (Decidable (P c ch ∧ Each erase P (c.byte erase ch) w))

/-! ## What leaves the saved position alone -/

@[simp] theorem poke_savedAt (c : Con) (n a x : ℕ) : (c.poke n a x).savedAt = c.savedAt := rfl
@[simp] theorem outCrtc_savedAt (c : Con) (reg x : ℕ) : (c.outCrtc reg x).savedAt = c.savedAt := rfl
@[simp] theorem setOrigin_savedAt (c : Con) : c.setOrigin.savedAt = c.savedAt := rfl
@[simp] theorem nextOrigin_savedAt (c : Con) : c.nextOrigin.savedAt = c.savedAt := rfl
@[simp] theorem cr_savedAt (c : Con) : c.cr.savedAt = c.savedAt := rfl
@[simp] theorem csim_savedAt (c : Con) : c.csim.savedAt = c.savedAt := rfl
@[simp] theorem setPar_savedAt (c : Con) (i x : ℕ) : (c.setPar i x).savedAt = c.savedAt := rfl

@[simp] theorem stosw_savedAt (d : ℤ) (n di : ℕ) (c : Con) : (stosw d n di c).savedAt = c.savedAt := by
  induction n generalizing di c with
  | zero => rfl
  | succ n ih => exact ih _ _

@[simp] theorem movsl_savedAt (d : ℤ) (n di si : ℕ) (c : Con) : (movsl d n di si c).1.savedAt = c.savedAt := by
  induction n generalizing di si c with
  | zero => rfl
  | succ n ih => exact ih _ _ _

@[simp] theorem shiftRight_savedAt (n p old : ℕ) (c : Con) : (shiftRight n p old c).savedAt = c.savedAt := by
  induction n generalizing p old c with
  | zero => rfl
  | succ n ih => exact ih _ _ _

@[simp] theorem shiftLeft_savedAt (n p : ℕ) (c : Con) : (shiftLeft n p c).1.savedAt = c.savedAt := by
  induction n generalizing p c with
  | zero => rfl
  | succ n ih => exact ih _ _

theorem ite_savedAt {P : Prop} [Decidable P] {a b : Con} {s : ℕ × ℕ} (ha : a.savedAt = s) (hb : b.savedAt = s) :
    (if P then a else b).savedAt = s := by
  split_ifs
  · exact ha
  · exact hb

@[simp] theorem gotoxy_savedAt (c : Con) (a b : ℕ) : (c.gotoxy a b).savedAt = c.savedAt := ite_savedAt rfl rfl

@[simp] theorem scrupRegion_savedAt (c : Con) : c.scrupRegion.savedAt = c.savedAt := (stosw_savedAt ..).trans (movsl_savedAt ..)

@[simp] theorem backToStart_savedAt (c : Con) : c.backToStart.savedAt = c.savedAt := (stosw_savedAt ..).trans (movsl_savedAt ..)

@[simp] theorem scrup_savedAt (c : Con) : c.scrup.savedAt = c.savedAt :=
  ite_savedAt (ite_savedAt (backToStart_savedAt _) (stosw_savedAt ..)) (scrupRegion_savedAt c)

@[simp] theorem scrdown_savedAt (c : Con) : c.scrdown.savedAt = c.savedAt := (stosw_savedAt ..).trans (movsl_savedAt ..)

@[simp] theorem lf_savedAt (c : Con) : c.lf.savedAt = c.savedAt := ite_savedAt rfl (scrup_savedAt c)

@[simp] theorem ri_savedAt (c : Con) : c.ri.savedAt = c.savedAt := ite_savedAt rfl (scrdown_savedAt c)

@[simp] theorem del_savedAt (c : Con) : c.del.savedAt = c.savedAt := ite_savedAt rfl rfl

@[simp] theorem wrap_savedAt (c : Con) : c.wrap.savedAt = c.savedAt := lf_savedAt _

@[simp] theorem putChar_savedAt (c : Con) (ch : BitVec 8) : (c.putChar ch).savedAt = c.savedAt := ite_savedAt (wrap_savedAt c) rfl

@[simp] theorem tab_savedAt (c : Con) : c.tab.savedAt = c.savedAt := ite_savedAt (wrap_savedAt _) rfl

@[simp] theorem csiJ_savedAt (c : Con) (par : ℕ) : (c.csiJ par).savedAt = c.savedAt := by
  unfold csiJ
  split <;> first | exact stosw_savedAt .. | rfl

@[simp] theorem csiK_savedAt (c : Con) (par : ℕ) : (c.csiK par).savedAt = c.savedAt := by
  unfold csiK
  split
  · exact ite_savedAt rfl (stosw_savedAt ..)
  · exact stosw_savedAt ..
  · exact stosw_savedAt ..
  · rfl

@[simp] theorem insertChar_savedAt (c : Con) : c.insertChar.savedAt = c.savedAt := shiftRight_savedAt ..

@[simp] theorem deleteChar_savedAt (c : Con) : c.deleteChar.savedAt = c.savedAt := ite_savedAt rfl (shiftLeft_savedAt ..)

@[simp] theorem insertLine_savedAt (c : Con) : c.insertLine.savedAt = c.savedAt :=
  scrdown_savedAt { c with top := c.y, bottom := c.video.numLines }

@[simp] theorem deleteLine_savedAt (c : Con) : c.deleteLine.savedAt = c.savedAt :=
  scrup_savedAt { c with top := c.y, bottom := c.video.numLines }

theorem iterate_savedAt {f : Con → Con} (hf : ∀ c, (f c).savedAt = c.savedAt) (n : ℕ) (c : Con) : (f^[n] c).savedAt = c.savedAt := by
  induction n generalizing c with
  | zero => rfl
  | succ n ih => exact (ih (f c)).trans (hf c)

@[simp] theorem parDown_savedAt (c : Con) (i : ℕ) : (c.parDown i).savedAt = c.savedAt := ite_savedAt rfl rfl

@[simp] theorem parOne_savedAt (c : Con) : c.parOne.savedAt = c.savedAt := ite_savedAt rfl rfl

@[simp] theorem setRegion_savedAt (c : Con) : c.setRegion.savedAt = c.savedAt := by
  have h : (if (c.parDown 0).par 1 = 0 then (c.parDown 0).setPar 1 (c.parDown 0).video.numLines else c.parDown 0).savedAt = c.savedAt :=
    ite_savedAt (parDown_savedAt c 0) (parDown_savedAt c 0)
  exact ite_savedAt h h

theorem plain_savedAt (c : Con) (erase ch : BitVec 8) : (c.plain erase ch).savedAt = c.savedAt :=
  ite_savedAt (putChar_savedAt c ch) (ite_savedAt rfl (ite_savedAt (lf_savedAt c) (ite_savedAt (cr_savedAt c) (ite_savedAt (del_savedAt c)
    (ite_savedAt (ite_savedAt rfl rfl) (ite_savedAt (tab_savedAt c) rfl))))))

theorem escape_known (c : Con) (h : Known ch) : (c.escape ch).savedAt = c.savedAt := by
  obtain rfl | rfl | rfl | rfl | rfl := h
  · rfl
  · exact gotoxy_savedAt { c with state := 0 } 0 (word (c.y + 1))
  · exact ri_savedAt { c with state := 0 }
  · exact lf_savedAt { c with state := 0 }
  · rfl

/-- The other bytes do not count: the column does. -/
theorem escape_other (c : Con) (h : ¬ Known ch) : c.escape ch =
    if c.x = (char '7').toNat then ({ c with state := 0 } : Con).saveCur
    else if c.x = (char '8').toNat then ({ c with state := 0 } : Con).restoreCur else { c with state := 0 } := by
  unfold Known at h
  push Not at h
  obtain ⟨h1, h2, h3, h4, h5⟩ := h
  unfold escape
  dsimp only
  rw [if_neg h1, if_neg h2, if_neg h3, if_neg h4, if_neg h5]

theorem final_savedAt (c : Con) (h : ch ≠ char 's') : (c.final ch).savedAt = c.savedAt := by
  unfold final
  dsimp only
  rw [if_neg h]
  refine ite_savedAt ((gotoxy_savedAt ..).trans (parDown_savedAt { c with state := 0 } 0)) ?_
  refine ite_savedAt ((gotoxy_savedAt ..).trans (parOne_savedAt { c with state := 0 })) ?_
  refine ite_savedAt ((gotoxy_savedAt ..).trans (parOne_savedAt { c with state := 0 })) ?_
  refine ite_savedAt ((gotoxy_savedAt ..).trans (parOne_savedAt { c with state := 0 })) ?_
  refine ite_savedAt ((gotoxy_savedAt ..).trans (parOne_savedAt { c with state := 0 })) ?_
  refine ite_savedAt ((gotoxy_savedAt ..).trans (parOne_savedAt { c with state := 0 })) ?_
  refine ite_savedAt ((gotoxy_savedAt ..).trans (parOne_savedAt { c with state := 0 })) ?_
  refine ite_savedAt ((gotoxy_savedAt ..).trans (parDown_savedAt { c with state := 0 } 0)) ?_
  refine ite_savedAt ((gotoxy_savedAt ..).trans ((parDown_savedAt _ 1).trans (parDown_savedAt { c with state := 0 } 0))) ?_
  refine ite_savedAt (csiJ_savedAt { c with state := 0 } _) ?_
  refine ite_savedAt (csiK_savedAt { c with state := 0 } _) ?_
  refine ite_savedAt (iterate_savedAt insertLine_savedAt _ { c with state := 0 }) ?_
  refine ite_savedAt (iterate_savedAt deleteLine_savedAt _ { c with state := 0 }) ?_
  refine ite_savedAt (iterate_savedAt deleteChar_savedAt _ { c with state := 0 }) ?_
  refine ite_savedAt (iterate_savedAt insertChar_savedAt _ { c with state := 0 }) ?_
  refine ite_savedAt (csim_savedAt { c with state := 0 }) ?_
  refine ite_savedAt (setRegion_savedAt { c with state := 0 }) ?_
  exact ite_savedAt (gotoxy_savedAt { c with state := 0 } _ _) rfl

theorem params_savedAt (c : Con) (h : ch ≠ char 's') : (c.params ch).savedAt = c.savedAt := by
  unfold params
  exact ite_savedAt rfl (ite_savedAt (setPar_savedAt c _ _) (final_savedAt { c with state := 4 } h))

theorem start_savedAt (c : Con) (h : ch ≠ char 's') : (c.start ch).savedAt = c.savedAt := by
  unfold start
  exact ite_savedAt rfl (params_savedAt _ h)

/-- A byte that saves nothing, where the columns fit. -/
theorem byte_savedAt (hown : ¬ SavesOrAsks c ch) (hfit : ColumnFits c ch) : (c.byte erase ch).savedAt = c.savedAt := by
  unfold byte
  split
  · exact plain_savedAt c erase ch
  · rename_i hs
    by_cases hk : Known ch
    · exact escape_known c hk
    · obtain ⟨h7, h8⟩ := hfit hs hk
      have hn7 : c.x ≠ (char '7').toNat := fun h => hown (.inl ⟨hs, .inl (h7.mp h)⟩)
      have hn8 : c.x ≠ (char '8').toNat := fun h => hown (.inl ⟨hs, .inr (.inl (h8.mp h))⟩)
      rw [escape_other c hk, if_neg hn7, if_neg hn8]
      rfl
  · rename_i hs
    exact start_savedAt c fun h => hown (.inr ⟨by omega, .inl h⟩)
  · rename_i hs
    exact params_savedAt c fun h => hown (.inr ⟨by omega, .inl h⟩)
  · rename_i hs
    exact final_savedAt c fun h => hown (.inr ⟨by omega, .inl h⟩)
  · rfl

theorem feed_savedAt (hown : Each erase (fun c ch => ¬ SavesOrAsks c ch) c w) (hfit : Each erase ColumnFits c w) :
    (c.feed erase w).savedAt = c.savedAt := by
  induction w generalizing c with
  | nil => rfl
  | cons ch w ih => exact (ih hown.2 hfit.2).trans (byte_savedAt hown.1 hfit.1)

theorem feed_onScreen (h : c.OnScreen v) (w : List (BitVec 8)) : (c.feed erase w).OnScreen v := by
  induction w generalizing c with
  | nil => exact h
  | cons ch w ih => exact ih (h.run (.byte erase ch))

theorem feed_append (c : Con) (w w' : List (BitVec 8)) : c.feed erase (w ++ w') = (c.feed erase w).feed erase w' := List.foldl_append ..

theorem each_append {P : Con → BitVec 8 → Prop} {w' : List (BitVec 8)} :
    Each erase P c (w ++ w') ↔ Each erase P c w ∧ Each erase P (c.feed erase w) w' := by
  induction w generalizing c with
  | nil => exact ⟨fun h => ⟨trivial, h⟩, fun h => h.2⟩
  | cons ch w ih =>
    exact ⟨fun h => ⟨⟨h.1, (ih.mp h.2).1⟩, (ih.mp h.2).2⟩, fun h => ⟨h.1.1, ih.mpr ⟨h.1.2, h.2⟩⟩⟩

theorem gotoxy_at (hv : c'.video = c.video) (hx : c'.x = c.x) (hy : c'.y = c.y) (a b : ℕ) :
    (c'.gotoxy a b).x = (c.gotoxy a b).x ∧ (c'.gotoxy a b).y = (c.gotoxy a b).y := by
  unfold gotoxy
  rw [hv]
  split_ifs
  · exact ⟨hx, hy⟩
  · exact ⟨rfl, rfl⟩

/-- Back to a position that was on the screen. -/
theorem restoreCur_at (h : c.OnScreen v) (h' : c'.OnScreen v) (hsaved : c'.savedAt = (c.x, c.y)) :
    c'.restoreCur.x = c.x ∧ c'.restoreCur.y = c.y := by
  obtain ⟨hx, hy⟩ := Prod.mk.inj hsaved
  have hv : c'.video = c.video := h'.video.trans h.video.symm
  unfold restoreCur gotoxy
  rw [hx, hy, hv, if_neg (by push Not; exact ⟨h.x, h.y⟩)]
  exact ⟨rfl, rfl⟩

/-- Between saving and restoring. -/
theorem restored {o : List (BitVec 8)} (h : c.OnScreen v) (ho : (c.feed erase o).savedAt = (c.x, c.y))
    (hown : Each erase (fun c ch => ¬ SavesOrAsks c ch) (c.feed erase o) w) (hfit : Each erase ColumnFits (c.feed erase o) w) :
    ((c.feed erase (o ++ w)).restoreCur.x = c.x ∧ (c.feed erase (o ++ w)).restoreCur.y = c.y) ∧ (c.feed erase (o ++ w)).OnScreen v := by
  have hon : (c.feed erase (o ++ w)).OnScreen v := feed_onScreen h _
  refine ⟨restoreCur_at h hon ?_, hon⟩
  rw [feed_append, feed_savedAt hown hfit, ho]

theorem byte_esc (h : c.state = 0) : c.byte erase ESC = { c with state := 1 } := by
  unfold byte
  rw [h]
  rfl

theorem feed_esc (h : c.state = 0) (ch : BitVec 8) : c.feed erase [ESC, ch] = ({ c with state := 1 } : Con).escape ch := by
  change (c.byte erase ESC).byte erase ch = _
  rw [byte_esc h]
  rfl

theorem feed_csi_s (h : c.state = 0) : (c.feed erase [ESC, char '[', char 's']).savedAt = (c.x, c.y) := by
  change (((c.byte erase ESC).byte erase (char '[')).byte erase (char 's')).savedAt = _
  rw [byte_esc h]
  rfl

theorem feed_csi_u (erase : BitVec 8) (h : c.state = 0) : (c.feed erase [ESC, char '[', char 'u']).x = c.restoreCur.x ∧
    (c.feed erase [ESC, char '[', char 'u']).y = c.restoreCur.y := by
  change (((c.byte erase ESC).byte erase (char '[')).byte erase (char 'u')).x = _ ∧
    (((c.byte erase ESC).byte erase (char '[')).byte erase (char 'u')).y = _
  rw [byte_esc h]
  obtain ⟨c₀, hc₀⟩ : ∃ c₀ : Con, { c with par := fun i => if i < NPAR then 0 else c.par i, npar := 0, state := 0, ques := false } = c₀ := ⟨_, rfl⟩
  have hu : (({ c with state := 1 } : Con).byte erase (char '[')).byte erase (char 'u') = c₀.gotoxy c.savedX c.savedY := by
    rw [← hc₀]
    rfl
  rw [hu]
  exact gotoxy_at (hc₀ ▸ rfl) (hc₀ ▸ rfl) (hc₀ ▸ rfl) c.savedX c.savedY

end Con

open Con

/-- Where every sequence of two bytes meets the column that stands for it, ESC 7 and ESC 8 restore the
    cursor, and CSI s and CSI u do, whatever is written between them. A sequence of two bytes leaves the
    saved position that its byte asks for if and only if it is one of those looked at, or the cursor is in
    column 55 just when the byte is a 7, or the cursor is at the saved position already. -/
theorem save_restore_by_column {c : Con} (h : console.Reachable c) (hidle : c.state = 0) (erase : BitVec 8) :
    (∀ w, (c.feed erase ([ESC, char '7'] ++ w)).state = 0 →
      Each erase (fun c ch => ¬ SavesOrAsks c ch) (c.feed erase [ESC, char '7']) w →
      Each erase ColumnFits c ([ESC, char '7'] ++ w ++ [ESC, char '8']) →
      (c.feed erase ([ESC, char '7'] ++ w ++ [ESC, char '8'])).x = c.x ∧
        (c.feed erase ([ESC, char '7'] ++ w ++ [ESC, char '8'])).y = c.y) ∧
    (∀ w, (c.feed erase ([ESC, char '[', char 's'] ++ w)).state = 0 →
      Each erase (fun c ch => ¬ SavesOrAsks c ch) (c.feed erase [ESC, char '[', char 's']) w →
      Each erase ColumnFits (c.feed erase [ESC, char '[', char 's']) w →
      (c.feed erase ([ESC, char '[', char 's'] ++ w ++ [ESC, char '[', char 'u'])).x = c.x ∧
        (c.feed erase ([ESC, char '[', char 's'] ++ w ++ [ESC, char '[', char 'u'])).y = c.y) ∧
    ∀ ch, (c.feed erase [ESC, ch]).savedAt = (if ch = char '7' then (c.x, c.y) else c.savedAt) ↔
      Known ch ∨ (c.x = (char '7').toNat ↔ ch = char '7') ∨ c.savedAt = (c.x, c.y) := by
  obtain ⟨s, -, hon⟩ := onScreen_of_reachable h
  refine ⟨fun w hw hown hfit => ?_, fun w hw hown hfit => ?_, fun ch => ?_⟩
  · obtain ⟨hfit₁, hfit₂⟩ := each_append.mp hfit
    obtain ⟨hfit₀, hfit₁⟩ := each_append.mp hfit₁
    have hk7 : ¬ Known (char '7') := by decide
    have hk8 : ¬ Known (char '8') := by decide
    -- saved at column 55
    have hx : c.x = (char '7').toNat := by
      have h7 := hfit₀.2.1
      rw [byte_esc hidle] at h7
      exact (h7 rfl hk7).1.mpr rfl
    have hsaved : (c.feed erase [ESC, char '7']).savedAt = (c.x, c.y) := by
      rw [feed_esc hidle, escape_other _ hk7]
      exact congrArg savedAt (if_pos hx)
    obtain ⟨hback, -⟩ := restored hon hsaved hown hfit₁
    generalize hc₁ : c.feed erase ([ESC, char '7'] ++ w) = c₁ at hw hback hfit₂
    -- restored from column 56
    have hx₁ : c₁.x = (char '8').toNat := by
      have h8 := hfit₂.2.1
      rw [byte_esc hw] at h8
      exact (h8 rfl hk8).2.mpr rfl
    have hne : c₁.x ≠ (char '7').toNat := by
      rw [hx₁]
      decide
    rw [feed_append, hc₁, feed_esc hw, escape_other _ hk8]
    dsimp only
    rw [if_neg hne, if_pos hx₁]
    have hv : ({ c₁ with state := 0 } : Con).video = c₁.video := rfl
    obtain ⟨hx', hy'⟩ := gotoxy_at hv rfl rfl c₁.savedX c₁.savedY
    exact ⟨hx'.trans hback.1, hy'.trans hback.2⟩
  · obtain ⟨hback, -⟩ := restored hon (feed_csi_s hidle) hown hfit
    obtain ⟨hx, hy⟩ := feed_csi_u erase hw
    rw [feed_append, hx, hy]
    exact hback
  · rw [feed_esc hidle]
    by_cases hk : Known ch
    · have h7 : ch ≠ char '7' := by
        rintro rfl
        exact absurd hk (by decide)
      rw [if_neg h7, escape_known _ hk]
      exact ⟨fun _ => .inl hk, fun _ => rfl⟩
    · have hother : (({ c with state := 1 } : Con).escape ch).savedAt = if c.x = (char '7').toNat then (c.x, c.y) else c.savedAt := by
        rw [escape_other _ hk]
        exact (apply_ite savedAt _ _ _).trans (if_congr Iff.rfl rfl (ite_savedAt (gotoxy_savedAt { c with state := 0 } _ _) rfl))
      rw [hother, or_iff_right hk]
      by_cases hx : c.x = (char '7').toNat <;> by_cases h7 : ch = char '7' <;> simp [hx, h7, eq_comm]

/-- The cursor in column 55. -/
def column55 : Setup := { ega80 with origX := 55 }

theorem save_restore_by_column_55 : (((column55.conInit (fun _ => 0) fun _ => 0).feed 127
    ([ESC, char '7'] ++ [char 'A'] ++ [ESC, char '8'])).x = 55) := by
  have h0 : console.Reachable (column55.conInit (fun _ => 0) fun _ => 0) := .init ⟨column55, by unfold Setup.Fits; decide, _, _, rfl⟩
  exact ((save_restore_by_column h0 rfl 127).1 [char 'A'] (by decide) (by decide) (by decide)).1

/-- ESC 7, a letter and ESC 8 at the left margin leave the cursor behind the letter. -/
theorem saved_column_lost : ¬ ∀ (c : Con) (erase : BitVec 8) (w : List (BitVec 8)), console.Reachable c → c.state = 0 →
    (c.feed erase ([ESC, char '7'] ++ w)).state = 0 → Each erase (fun c ch => ¬ SavesOrAsks c ch) (c.feed erase [ESC, char '7']) w →
    (c.feed erase ([ESC, char '7'] ++ w ++ [ESC, char '8'])).x = c.x := fun h => by
  have h0 : console.Reachable (ega80.conInit (fun _ => 0) fun _ => 0) := .init ⟨ega80, by unfold Setup.Fits; decide, _, _, rfl⟩
  have h1 := h _ 127 [char 'A'] h0 rfl (by decide) (by decide)
  exact absurd h1 (by decide)

end Linux011.Chr
