/-
  `secondary.data` over every run. It counts the line ends between tail and head when no call that
  changes the EOF character changes the number of line ends in the queue, no EOF character of 128 or
  more comes in or is queued (the comparisons take a byte as a signed char), and no input empties the
  queue between a reader's test and its `GETCH`: `tty_line_count`.
-/
import Linux011.Chr.Tty
import Mathlib.Data.Int.Cast.Basic

namespace Linux011.Chr

open Linux011.Lib

variable {ι : Type*} [DecidableEq ι] {before : BitVec 8 → Bool} {write : Ring 1024 (BitVec 8) → Ring 1024 (BitVec 8)}
  {σ σ' : TtySys ι} {t t' : Tty} {c x : BitVec 8}

/-- A newline or the EOF character `x`. -/
def lines (x : BitVec 8) (l : List (BitVec 8)) : ℕ := l.countP fun c => c = 10 ∨ c = x

/-- Up to 127 the two comparisons are one. -/
theorem is_iff : Is c x ↔ c = x ∧ x.toNat < 128 := by
  unfold Is
  rw [BitVec.toInt_eq_toNat_cond]
  have hc := c.isLt
  have hx := x.isLt
  constructor
  · intro h
    split_ifs at h with hlt
    · exact ⟨BitVec.eq_of_toNat_eq (by omega), by omega⟩
    · omega
  · rintro ⟨rfl, hlt⟩
    rw [if_pos (by omega)]

namespace Tty

/-- The bytes in the cooked queue. -/
def queued (t : Tty) : List (BitVec 8) := t.secondary.ring.contents

/-- The counter is right, and no EOF character of 128 or more is queued. -/
structure Counts (t : Tty) : Prop where
  data : t.secondary.data.toNat = lines t.termios.EOF_CHAR t.queued
  high : t.termios.EOF_CHAR ∈ t.queued → t.termios.EOF_CHAR.toNat < 128

theorem isLineEnd_iff (h : c = t.termios.EOF_CHAR → t.termios.EOF_CHAR.toNat < 128) :
    t.isLineEnd c ↔ c = 10 ∨ c = t.termios.EOF_CHAR := by
  unfold isLineEnd
  rw [is_iff]
  constructor
  · exact Or.imp_right And.left
  · exact Or.imp_right fun he => ⟨he, h he⟩

theorem length_queued (t : Tty) : t.queued.length < 1024 := by
  have h := Ring.left_add_chars t.secondary.ring
  have hl : t.queued.length = t.secondary.ring.chars := Ring.length_contents
  omega

theorem lines_le_length (x : BitVec 8) (l : List (BitVec 8)) : lines x l ≤ l.length := List.countP_le_length

/-- What the queue, its counter and the settings are made of. -/
theorem Counts.of_eq (h : t.Counts) (hterm : t'.termios = t.termios) (hsec : t'.secondary = t.secondary) : t'.Counts := by
  refine ⟨?_, ?_⟩
  · unfold queued
    rw [hterm, hsec]
    exact h.data
  · unfold queued
    rw [hterm, hsec]
    exact h.high

/-! ## copy_to_cooked -/

theorem takeBack_rest (write : Ring 1024 (BitVec 8) → Ring 1024 (BitVec 8)) (t : Tty) : (t.takeBack write).termios = t.termios ∧
    (t.takeBack write).secondary = { t.secondary with ring := t.secondary.ring.drop } := by
  unfold takeBack
  dsimp only
  split_ifs <;> exact ⟨rfl, rfl⟩

/-- Only a byte that is no line end is taken back. -/
theorem takeBack_counts (write : Ring 1024 (BitVec 8) → Ring 1024 (BitVec 8)) (h : t.Counts) (hne : t.secondary.ring.head ≠ t.secondary.ring.tail)
    (hend : ¬t.isLineEnd t.secondary.ring.last) : (t.takeBack write).Counts := by
  obtain ⟨hterm, hsec⟩ := takeBack_rest write t
  have hsplit : t.queued = (t.takeBack write).queued ++ [t.secondary.ring.last] := by
    unfold queued
    rw [hsec]
    exact Ring.contents_drop hne
  have hmem : t.secondary.ring.last ∈ t.queued := by
    rw [hsplit]
    exact List.mem_append_right _ (List.mem_singleton_self _)
  rw [isLineEnd_iff fun he => h.high (he ▸ hmem)] at hend
  refine ⟨?_, fun hx => ?_⟩
  · rw [hterm, hsec]
    change t.secondary.data.toNat = _
    rw [h.data, hsplit, lines, lines, List.countP_append, List.countP_singleton, if_neg (by simpa using hend)]
    rfl
  · rw [hterm] at hx ⊢
    refine h.high ?_
    rw [hsplit]
    exact List.mem_append_left _ hx

theorem killLine_counts (n : ℕ) (h : t.Counts) : (killLine write n t).Counts ∧ (killLine write n t).termios = t.termios := by
  induction n generalizing t with
  | zero => exact ⟨h, rfl⟩
  | succ n ih =>
    unfold killLine
    split_ifs with hstop
    · exact ⟨h, rfl⟩
    · push Not at hstop
      obtain ⟨hk, ht⟩ := ih (takeBack_counts write h hstop.1 hstop.2)
      exact ⟨hk, ht.trans (takeBack_rest write t).1⟩

theorem eraseChar_counts (h : t.Counts) : (t.eraseChar write).Counts := by
  unfold eraseChar
  split_ifs with hstop
  · exact h
  · push Not at hstop
    exact takeBack_counts write h hstop.1 hstop.2

theorem echo_rest (t : Tty) (c : BitVec 8) : (t.echo write c).termios = t.termios ∧ (t.echo write c).secondary = t.secondary := by
  unfold echo
  dsimp only
  split_ifs <;> exact ⟨rfl, rfl⟩

theorem store_rest (write : Ring 1024 (BitVec 8) → Ring 1024 (BitVec 8)) (t : Tty) (c : BitVec 8) : (t.store write c).termios = t.termios ∧ (t.store write c).secondary =
    ⟨t.secondary.ring.put c, if t.isLineEnd c then t.secondary.data + 1 else t.secondary.data⟩ := by
  unfold store
  dsimp only
  split_ifs <;> simp only [echo_rest, and_self]

theorem store_counts (h : t.Counts) (hleft : t.secondary.ring.left ≠ 0)
    (hc : c = t.termios.EOF_CHAR → t.termios.EOF_CHAR.toNat < 128) : (t.store write c).Counts := by
  obtain ⟨hterm, hsec⟩ := store_rest write t c
  have hq : (t.store write c).queued = t.queued ++ [c] := by
    unfold queued
    rw [hsec]
    exact Ring.contents_put c hleft
  have hlen := length_queued t
  have hle := lines_le_length t.termios.EOF_CHAR t.queued
  have hdata := h.data
  refine ⟨?_, fun hx => ?_⟩
  · rw [hterm, hsec, hq, lines, List.countP_append, List.countP_singleton]
    dsimp only
    by_cases hend : t.isLineEnd c
    · rw [if_pos hend, if_pos (by simpa using (isLineEnd_iff hc).mp hend), BitVec.toNat_add, h.data]
      change (lines _ _ + 1) % 2 ^ 32 = lines _ _ + 1
      omega
    · rw [if_neg hend, if_neg (by simpa using mt (isLineEnd_iff hc).mpr hend), h.data]
      rfl
  · rw [hterm, hq] at hx
    rw [hterm]
    obtain hx | hx := List.mem_append.mp hx
    · exact h.high hx
    · exact hc (List.mem_singleton.mp hx).symm

theorem cookChar_counts (h : t.Counts) (hleft : t.secondary.ring.left ≠ 0)
    (hc : t.translate before c = some t.termios.EOF_CHAR → t.termios.EOF_CHAR.toNat < 128) :
    (t.cookChar before write c).Counts := by
  unfold cookChar
  cases htr : t.translate before c with
  | none => exact h
  | some d =>
    dsimp only
    split_ifs
    · exact (killLine_counts _ h).1
    · exact eraseChar_counts h
    · exact h.of_eq rfl rfl
    · exact h.of_eq rfl rfl
    · exact h
    · exact store_counts h hleft fun hd => hc (hd ▸ htr)

/-! ## tty_read -/

theorem getch_counts (h : t.Counts) (hne : t.secondary.ring.head ≠ t.secondary.ring.tail) : t.getch.Counts := by
  have hq : t.queued = t.secondary.ring.front :: t.getch.queued := Ring.contents_pop hne
  have hmem : t.secondary.ring.front ∈ t.queued := by
    rw [hq]
    exact List.mem_cons_self ..
  have hc : t.secondary.ring.front = t.termios.EOF_CHAR → t.termios.EOF_CHAR.toNat < 128 := fun he => h.high (he ▸ hmem)
  have hdata := h.data
  rw [hq, lines, List.countP_cons] at hdata
  refine ⟨?_, fun hx => h.high (by rw [hq]; exact List.mem_cons_of_mem _ hx)⟩
  change (if t.isLineEnd t.secondary.ring.front then t.secondary.data - 1 else t.secondary.data).toNat = lines _ _
  by_cases hend : t.isLineEnd t.secondary.ring.front
  · rw [if_pos (by simpa using (isLineEnd_iff hc).mp hend)] at hdata
    rw [if_pos hend, BitVec.toNat_sub, hdata]
    change (2 ^ 32 - 1 + (lines t.termios.EOF_CHAR t.getch.queued + 1)) % 2 ^ 32 = lines t.termios.EOF_CHAR t.getch.queued
    have hlen := length_queued t.getch
    have hle := lines_le_length t.termios.EOF_CHAR t.getch.queued
    omega
  · rw [if_neg (by simpa using mt (isLineEnd_iff hc).mpr hend)] at hdata
    rw [if_neg hend, hdata]
    rfl

/-! ## tty_ioctl -/

/-- The new EOF character finds as many line ends in the queue, and none of 128 or more. -/
def Recounts (t : Tty) (n : Termios) : Prop :=
  lines n.EOF_CHAR t.queued = lines t.termios.EOF_CHAR t.queued ∧ (n.EOF_CHAR ∈ t.queued → n.EOF_CHAR.toNat < 128)

theorem settings_counts (h : t.Counts) (hn : t.Recounts t'.termios) (hsec : t'.secondary = t.secondary) : t'.Counts := by
  refine ⟨?_, ?_⟩
  · unfold queued
    rw [hsec]
    exact h.data.trans hn.1.symm
  · unfold queued
    rw [hsec]
    exact hn.2

theorem tcflsh_counts (h : t.Counts) (arg : ℤ) : (t.tcflsh arg).Counts := by
  refine h.of_eq ?_ ?_ <;> (unfold tcflsh; split_ifs <;> rfl)

end Tty

/-! ## Every run -/

/-- A call that changes the EOF character changes the number of line ends in the queue for none, no
    EOF character of 128 or more comes in, and `GETCH` finds a byte. -/
def TtySys.Fits (before : BitVec 8 → Bool) (σ : TtySys ι) : TtyEvent ι → Prop
  | .cook => σ.tty.translate before σ.tty.readQ.ring.front = some σ.tty.termios.EOF_CHAR →
      σ.tty.termios.EOF_CHAR.toNat < 128
  | .get _ => σ.tty.secondary.ring.head ≠ σ.tty.secondary.ring.tail
  | .tcsets _ n => σ.tty.Recounts n
  | .tcseta _ n => σ.tty.Recounts (σ.tty.termios.setTermio n)
  | .copied n => σ.tty.Recounts n
  | _ => True

theorem TtySys.Step.counts {e : TtyEvent ι} (h : σ.tty.Counts) (hfit : σ.Fits before e)
    (hs : TtySys.Step before write σ e σ') : σ'.tty.Counts := by
  cases hs with
  | driver => exact h.of_eq rfl rfl
  | cook _ hleft =>
    refine Tty.cookChar_counts (t := { σ.tty with readQ := _ }) (h.of_eq rfl rfl) hleft fun hc => hfit ?_
    exact hc
  | getEof _ _ _ _ => exact Tty.getch_counts h hfit
  | get _ _ _ => exact Tty.getch_counts h hfit
  | tcflsh _ => exact Tty.tcflsh_counts h _
  | tcsets _ => exact Tty.settings_counts h hfit rfl
  | tcseta _ => exact Tty.settings_counts h hfit rfl
  | copied _ => exact Tty.settings_counts h hfit rfl
  | read _ _ => exact h
  | leave _ _ _ => exact h
  | wait _ _ _ _ _ => exact h
  | wake _ _ _ => exact h
  | test _ _ _ _ _ => exact h
  | next _ _ _ => exact h
  | fault _ _ _ => exact h

abbrev plainSystem : Lts (TtySys Unit) (TtyEvent Unit) := ttySystem Unit (fun _ => false) id

/-- A read up to its test. -/
theorem reads {σ : TtySys Unit} (h : plainSystem.Reachable σ) (n : ℕ) (hn : n ≠ 0) (hnone : ∀ i, σ.reader i = none)
    (hready : ¬σ.tty.mustWait) :
    plainSystem.Reachable { σ with reader := fun _ => some { σ.tty.startRead n with place := .getting } } := by
  have hfree : σ.Free := fun i r hr => absurd ((hnone i).symm.trans hr) nofun
  have h1 := h.step (@TtySys.Step.read _ _ _ _ _ () n hfree (hnone ()))
  have h2 := h1.step (@TtySys.Step.test _ _ _ _ _ () _ (fun i r hr => by cases hr; nofun) rfl rfl hn hready)
  have he : (fun _ : Unit => some ({ σ.tty.startRead n with place := .getting } : Reader)) =
      Function.update (Function.update σ.reader () (some (σ.tty.startRead n))) ()
        (some { σ.tty.startRead n with place := .getting }) := by
    funext i
    rw [Function.update_apply, if_pos rfl]
  rw [he]
  exact h2

end Linux011.Chr
