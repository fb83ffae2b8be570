/-
  The console stays on its screen: cursor, region and origin fit together after every byte, and nothing
  is stored outside video memory.
-/
import Mathlib.Tactic.Linarith
import Linux011.Chr.Console

namespace Linux011.Chr

open Lib

namespace Con

variable {v : Video} {c c' c'' : Con} {lo hi lo' hi' n di si p old a w : ℕ}

theorem word_eq {z : ℤ} {k : ℕ} (h : z = k) (hk : k < 4294967296) : word z = k := by
  unfold word
  omega

/-- Nothing changes but memory, and every new store is between `lo` and `hi`. -/
structure Draws (lo hi : ℕ) (c c' : Con) : Prop where
  rest : ∃ m s, c' = { c with mem := m, stores := s }
  stores : ∀ a n, (a, n) ∈ c'.stores → (a, n) ∈ c.stores ∨ lo ≤ a ∧ a + n ≤ hi

namespace Draws

theorem refl (c : Con) : Draws lo hi c c := ⟨⟨_, _, rfl⟩, fun _ _ h => Or.inl h⟩

theorem trans (h : Draws lo hi c c') (h' : Draws lo hi c' c'') : Draws lo hi c c'' := by
  obtain ⟨⟨m, s, rfl⟩, hs⟩ := h
  obtain ⟨⟨m', s', rfl⟩, hs'⟩ := h'
  exact ⟨⟨m', s', rfl⟩, fun a n hm => (hs' a n hm).elim (hs a n) Or.inr⟩

theorem mono (h : Draws lo hi c c') (hlo : lo' ≤ lo) (hhi : hi ≤ hi') : Draws lo' hi' c c' :=
  ⟨h.rest, fun a n hm => (h.stores a n hm).imp_right fun hr => ⟨by omega, by omega⟩⟩

theorem poke {val : ℕ} (hlo : lo ≤ a) (hhi : a + n ≤ hi) : Draws lo hi c (c.poke n a val) :=
  ⟨⟨_, _, rfl⟩, fun b k hm => (List.mem_cons.mp hm).elim (fun he => Or.inr (by cases he; exact ⟨hlo, hhi⟩)) Or.inl⟩

theorem x (h : Draws lo hi c c') : c'.x = c.x := by
  obtain ⟨⟨m, s, rfl⟩, -⟩ := h
  rfl

end Draws

/-! ## String operations -/

theorem stosw_up (hlo : lo ≤ di) (hhi : di + 2 * n ≤ hi) (hmax : hi < 4294967296) : Draws lo hi c (stosw 1 n di c) := by
  induction n generalizing di c with
  | zero => exact Draws.refl c
  | succ n ih =>
    have hw : word (di + 2 * 1) = di + 2 := word_eq (by omega) (by omega)
    rw [stosw, hw]
    exact (Draws.poke hlo (by omega)).trans (ih (by omega) (by omega))

/-- Down from `di`, which is the last of the places. -/
theorem stosw_down (hlo : lo + 2 * n ≤ di + 2) (hhi : di + 2 ≤ hi) (hmax : hi < 4294967296) :
    Draws lo hi c (stosw (-1) n di c) := by
  induction n generalizing di c with
  | zero => exact Draws.refl c
  | succ n ih =>
    have h1 : Draws lo hi c (c.poke 2 di c.video.eraseChar) := Draws.poke (by omega) (by omega)
    rw [stosw]
    refine h1.trans ?_
    cases n with
    | zero => exact Draws.refl _
    | succ n =>
      have hw : word (di + 2 * -1) = di - 2 := word_eq (by omega) (by omega)
      rw [hw]
      exact ih (by omega) (by omega)

theorem movsl_up (hlo : lo ≤ di) (hhi : di + 4 * n ≤ hi) (hmax : hi < 4294967296) :
    Draws lo hi c (movsl 1 n di si c).1 ∧ (movsl 1 n di si c).2 = di + 4 * n := by
  induction n generalizing di si c with
  | zero => exact ⟨Draws.refl c, rfl⟩
  | succ n ih =>
    have hw : word (di + 4 * 1) = di + 4 := word_eq (by omega) (by omega)
    rw [movsl, hw]
    obtain ⟨h1, h2⟩ := @ih (c.poke 4 di (c.mem.load 4 si)) (di + 4) (word (si + 4 * 1)) (by omega) (by omega)
    exact ⟨(Draws.poke hlo (by omega)).trans h1, h2.trans (by omega)⟩

theorem movsl_down (hlo : lo + 4 * n ≤ di + 4) (hhi : di + 4 ≤ hi) (hpos : 4 * n ≤ di) (hmax : hi < 4294967296) :
    Draws lo hi c (movsl (-1) n di si c).1 ∧ (movsl (-1) n di si c).2 = di - 4 * n := by
  induction n generalizing di si c with
  | zero => exact ⟨Draws.refl c, rfl⟩
  | succ n ih =>
    have h1 : Draws lo hi c (c.poke 4 di (c.mem.load 4 si)) := Draws.poke (by omega) (by omega)
    have hw : word (di + 4 * -1) = di - 4 := word_eq (by omega) (by omega)
    rw [movsl, hw]
    cases n with
    | zero => exact ⟨h1, by rw [movsl]⟩
    | succ n =>
      obtain ⟨h2, h3⟩ := @ih (c.poke 4 di (c.mem.load 4 si)) (di - 4) (word (si + 4 * -1)) (by omega) (by omega) (by omega)
      exact ⟨h1.trans h2, h3.trans (by omega)⟩

theorem shiftRight_draws (hlo : lo ≤ p) (hhi : p + 2 * n ≤ hi) (hmax : hi < 4294967296) : Draws lo hi c (shiftRight n p old c) := by
  induction n generalizing p old c with
  | zero => exact Draws.refl c
  | succ n ih =>
    have h1 : Draws lo hi c (c.poke 2 p old) := Draws.poke (by omega) (by omega)
    have hw : word (p + 2) = p + 2 := word_eq (by omega) (by omega)
    rw [shiftRight, hw]
    exact h1.trans (ih (by omega) (by omega))

theorem shiftLeft_draws (hlo : lo ≤ p) (hhi : p + 2 * n ≤ hi) (hmax : hi < 4294967296) :
    Draws lo hi c (shiftLeft n p c).1 ∧ (shiftLeft n p c).2 = p + 2 * n := by
  induction n generalizing p c with
  | zero => exact ⟨Draws.refl c, rfl⟩
  | succ n ih =>
    have h1 : Draws lo hi c (c.poke 2 p (c.mem.load 2 (word (p + 2)))) := Draws.poke (by omega) (by omega)
    have hw : word (p + 2) = p + 2 := word_eq (by omega) (by omega)
    rw [shiftLeft, hw]
    rw [hw] at h1
    obtain ⟨h2, h3⟩ := ih (p := p + 2) (c := c.poke 2 p (c.mem.load 2 (p + 2))) (by omega) (by omega)
    exact ⟨h1.trans h2, h3.trans (by omega)⟩

/-! ## The screen -/

structure Geometry (v : Video) : Prop where
  columns : 8 ≤ v.numColumns
  row : v.sizeRow = 2 * v.numColumns
  lines : v.numLines = 25
  start : 4096 ≤ v.memStart
  fits : v.memStart + 25 * v.sizeRow ≤ v.memEnd
  max : v.memEnd < 16777216

/-- Cursor, scroll region, parameters and origin fit together, and all stores were into video memory;
    the screen may end one line behind it. -/
structure Placed (c : Con) (v : Video) : Prop where
  geometry : Geometry c.video
  video : c.video = v
  x : c.x ≤ c.video.numColumns
  y : c.y < c.video.numLines
  region : c.top < c.bottom ∧ c.bottom ≤ c.video.numLines
  npar : c.npar < NPAR
  scrEnd : c.scrEnd = c.origin + c.video.numLines * c.video.sizeRow
  origin : c.video.memStart ≤ c.origin
  low : c.scrEnd ≤ c.video.memEnd + c.video.sizeRow
  pos : c.pos = c.origin + c.y * c.video.sizeRow + 2 * c.x
  stores : ∀ a n, (a, n) ∈ c.stores → c.video.memStart ≤ a ∧ a + n ≤ c.video.memEnd

structure OnScreen (c : Con) (v : Video) : Prop extends Placed c v where
  inside : c.scrEnd ≤ c.video.memEnd

/-- Line `k` of 25 lines of `r` bytes. -/
theorem line_le {k r : ℕ} (hk : k < 25) : k * r + r ≤ 25 * r := by
  rw [← Nat.succ_mul]
  exact Nat.mul_le_mul_right _ hk

namespace Placed

/-- Where the screen and the cursor are, with the 25 lines put in. -/
theorem place (h : c.Placed v) : 4096 ≤ c.video.memStart ∧ c.video.memStart + 25 * c.video.sizeRow ≤ c.video.memEnd ∧
    c.video.memEnd < 16777216 ∧ c.video.sizeRow = 2 * c.video.numColumns ∧ 8 ≤ c.video.numColumns ∧ c.video.memStart ≤ c.origin ∧
    c.scrEnd = c.origin + 25 * c.video.sizeRow ∧ c.scrEnd ≤ c.video.memEnd + c.video.sizeRow ∧ c.x ≤ c.video.numColumns ∧
    c.y * c.video.sizeRow + c.video.sizeRow ≤ 25 * c.video.sizeRow ∧ c.pos = c.origin + c.y * c.video.sizeRow + 2 * c.x := by
  have hlines := h.geometry.lines
  have hend := h.scrEnd
  rw [hlines] at hend
  exact ⟨h.geometry.start, h.geometry.fits, h.geometry.max, h.geometry.row, h.geometry.columns, h.origin, hend, h.low, h.x,
    line_le (hlines ▸ h.y), h.pos⟩

theorem max (h : c.Placed v) : c.video.memEnd < 4294967296 := h.geometry.max.trans (by decide)

theorem draws (h : c.Placed v) (hd : Draws c.video.memStart c.video.memEnd c c') : c'.Placed v := by
  obtain ⟨⟨m, s, rfl⟩, hs⟩ := hd
  exact ⟨h.geometry, h.video, h.x, h.y, h.region, h.npar, h.scrEnd, h.origin, h.low, h.pos, fun a n hm => (hs a n hm).elim (h.stores a n) id⟩

theorem backToStart (h : c.Placed v) : c.backToStart.OnScreen v ∧ c.backToStart.x = c.x := by
  obtain ⟨hstart, hfits, hmax, hrow, hcols, hin, hend, hle, hx, hy, hpos⟩ := h.place
  have hlines := h.geometry.lines
  have hn : word ((c.video.numLines - 1 : ℤ) * c.video.numColumns) = 24 * c.video.numColumns :=
    word_eq (by rw [hlines]; push_cast; ring) (by omega)
  obtain ⟨h1, h2⟩ := @movsl_up c c.video.memStart c.video.memEnd (24 * c.video.numColumns / 2) c.video.memStart
    c.origin (by omega) (by omega) (by omega)
  unfold Con.backToStart
  rw [hn]
  dsimp only
  rw [h2]
  have hd := h1.trans (@stosw_up _ _ _ c.video.numColumns (c.video.memStart + 4 * (24 * c.video.numColumns / 2)) (by omega)
    (by omega) (by omega))
  have h3 := h.draws hd
  obtain ⟨⟨m, s, heq⟩, -⟩ := hd
  rw [heq] at h3 ⊢
  dsimp only
  have hend' : word (c.scrEnd - (c.origin - c.video.memStart : ℤ)) = c.video.memStart + c.video.numLines * c.video.sizeRow :=
    word_eq (by rw [hend, hlines]; push_cast; ring) (by rw [hlines]; omega)
  have hpos' : word (c.pos - (c.origin - c.video.memStart : ℤ)) = c.video.memStart + c.y * c.video.sizeRow + 2 * c.x :=
    word_eq (by rw [hpos]; push_cast; ring) (by omega)
  rw [hend', hpos']
  have hfit : c.video.memStart + c.video.numLines * c.video.sizeRow ≤ c.video.memEnd := by
    rw [hlines]
    exact hfits
  exact ⟨⟨⟨h3.geometry, h3.video, h3.x, h3.y, h3.region, h3.npar, rfl, le_rfl, Nat.le_add_right_of_le hfit, rfl, h3.stores⟩, hfit⟩, rfl⟩

end Placed

namespace OnScreen

theorem draws (h : c.OnScreen v) (hd : Draws c.video.memStart c.video.memEnd c c') : c'.OnScreen v := by
  have hp := h.toPlaced.draws hd
  obtain ⟨⟨m, s, rfl⟩, -⟩ := hd
  exact ⟨hp, h.inside⟩

/-- The rest of the state plays no part. -/
theorem congr (h : c.OnScreen v) (hv : c'.video = c.video) (hx : c'.x = c.x) (hy : c'.y = c.y) (ht : c'.top = c.top)
    (hb : c'.bottom = c.bottom) (hn : c'.npar = c.npar) (he : c'.scrEnd = c.scrEnd) (ho : c'.origin = c.origin)
    (hp : c'.pos = c.pos) (hs : c'.stores = c.stores) : c'.OnScreen v := by
  refine ⟨⟨hv ▸ h.geometry, hv.trans h.video, ?_, ?_, ?_, hn ▸ h.npar, ?_, ?_, ?_, ?_, ?_⟩, ?_⟩
  · rw [hx, hv]; exact h.x
  · rw [hy, hv]; exact h.y
  · rw [ht, hb, hv]; exact h.region
  · rw [he, ho, hv]; exact h.scrEnd
  · rw [ho, hv]; exact h.origin
  · rw [he, hv]; exact h.low
  · rw [hp, ho, hy, hx, hv]; exact h.pos
  · rw [hs, hv]; exact h.stores
  · rw [he, hv]; exact h.inside

/-- The cursor, its line and the screen around it. -/
theorem bounds (h : c.OnScreen v) : c.video.memStart ≤ c.origin ∧ c.origin + 2 * c.x ≤ c.pos ∧
    c.pos + 2 * (c.video.numColumns - c.x) ≤ c.scrEnd ∧ c.scrEnd ≤ c.video.memEnd ∧ c.x ≤ c.video.numColumns ∧
    c.video.memEnd < 16777216 := by
  obtain ⟨-, -, hmax, hrow, -, hin, hend, -, hx, hy, hpos⟩ := h.place
  exact ⟨hin, by omega, by omega, h.inside, hx, hmax⟩

theorem gotoxy (h : c.OnScreen v) (a b : ℕ) : (c.gotoxy a b).OnScreen v := by
  unfold Con.gotoxy
  split_ifs with hout
  · exact h
  · push Not at hout
    obtain ⟨hx, hy⟩ := hout
    have hline := line_le (r := c.video.sizeRow) (h.geometry.lines ▸ hy)
    obtain ⟨-, -, hmax, hrow, -, -, hend, hle, -, -, -⟩ := h.place
    refine ⟨⟨h.geometry, h.video, hx, hy, h.region, h.npar, h.scrEnd, h.origin, h.low, ?_, h.stores⟩, h.inside⟩
    dsimp only
    exact word_eq (by push_cast; ring) (by omega)

theorem regionLongs_eq (ht : c.top < c.bottom) (hb : c.bottom ≤ 25) (hc : c.video.numColumns < 16777216) :
    c.regionLongs = (c.bottom - c.top - 1) * c.video.numColumns / 2 := by
  have hle : (c.bottom - c.top - 1) * c.video.numColumns ≤ 25 * c.video.numColumns := Nat.mul_le_mul_right _ (by omega)
  unfold regionLongs
  rw [word_eq (k := (c.bottom - c.top - 1) * c.video.numColumns) ?_ (by omega)]
  rw [Nat.cast_mul, Nat.cast_sub (by omega), Nat.cast_sub (by omega)]
  rfl

/-- Lines `top` to `bottom` in bytes. -/
theorem region_bytes (hb : c.bottom ≤ 25) (ht : c.top < c.bottom) (hrow : c.video.sizeRow = 2 * c.video.numColumns) :
    c.video.sizeRow * c.top + 4 * ((c.bottom - c.top - 1) * c.video.numColumns / 2) + c.video.sizeRow ≤
      c.video.sizeRow * c.bottom ∧ c.video.sizeRow * c.bottom ≤ 25 * c.video.sizeRow := by
  obtain ⟨k, hk⟩ : ∃ k, c.bottom = c.top + k + 1 := ⟨c.bottom - c.top - 1, by omega⟩
  rw [show c.bottom - c.top - 1 = k by omega]
  constructor
  · have hmul : c.video.sizeRow * c.bottom = c.video.sizeRow * c.top + 2 * (k * c.video.numColumns) + c.video.sizeRow := by
      rw [hk, hrow]
      ring
    omega
  · rw [Nat.mul_comm]
    exact Nat.mul_le_mul_right _ hb

theorem scrupRegion_draws (h : c.OnScreen v) : Draws c.video.memStart c.video.memEnd c c.scrupRegion := by
  obtain ⟨hstart, hfits, hmax, hrow, hcols, hin, hend, -, hx, hy, hpos⟩ := h.place
  have hle := h.inside
  obtain ⟨ht, hb⟩ := h.region
  rw [h.geometry.lines] at hb
  obtain ⟨h1, h2⟩ := region_bytes hb ht hrow
  have hdi : word (c.origin + c.video.sizeRow * c.top) = c.origin + c.video.sizeRow * c.top := word_eq (by push_cast; ring) (by omega)
  unfold Con.scrupRegion
  rw [regionLongs_eq ht hb (by omega), hdi]
  obtain ⟨h3, h4⟩ := @movsl_up c c.origin c.scrEnd ((c.bottom - c.top - 1) * c.video.numColumns / 2)
    (c.origin + c.video.sizeRow * c.top) (word (c.origin + c.video.sizeRow * (c.top + 1))) (by omega) (by omega) (by omega)
  refine (Draws.trans h3 ?_).mono hin hle
  dsimp only
  rw [h4]
  exact stosw_up (by omega) (by omega) (by omega)

theorem setOrigin (h : c.OnScreen v) : c.setOrigin.OnScreen v := h.congr rfl rfl rfl rfl rfl rfl rfl rfl rfl rfl

theorem nextOrigin (h : c.OnScreen v) : c.nextOrigin.Placed v := by
  obtain ⟨-, hfits, hmax, -, -, hin, hend, -, -, -, -⟩ := h.place
  obtain ⟨-, -, hpos, hle, -, -⟩ := h.bounds
  have hrow : c.scrEnd + c.video.sizeRow < 4294967296 := by omega
  have ho : word (c.origin + c.video.sizeRow) = c.origin + c.video.sizeRow := word_eq rfl (by omega)
  have hp : word (c.pos + c.video.sizeRow) = c.pos + c.video.sizeRow := word_eq rfl (by omega)
  have he : word (c.scrEnd + c.video.sizeRow) = c.scrEnd + c.video.sizeRow := word_eq rfl hrow
  unfold Con.nextOrigin
  rw [ho, hp, he]
  refine ⟨h.geometry, h.video, h.x, h.y, h.region, h.npar, ?_, Nat.le_add_right_of_le hin, Nat.add_le_add_right hle _, ?_, h.stores⟩
  · change c.scrEnd + c.video.sizeRow = c.origin + c.video.sizeRow + c.video.numLines * c.video.sizeRow
    rw [h.scrEnd, Nat.add_right_comm]
  · change c.pos + c.video.sizeRow = c.origin + c.video.sizeRow + c.y * c.video.sizeRow + 2 * c.x
    rw [h.pos]
    ac_rfl

/-- The screen of an EGA moves on by a line, back to the start of video memory at its end. -/
theorem scrup (h : c.OnScreen v) : c.scrup.OnScreen v ∧ c.scrup.x = c.x := by
  unfold Con.scrup
  split_ifs with hmoves
  · have hm := h.nextOrigin
    have hx₁ : c.nextOrigin.x = c.x := rfl
    generalize c.nextOrigin = c₁ at hm hx₁ ⊢
    obtain ⟨hstart, hfits, hmax, hrow, hcols, hin, hend, hle, hx, hy, hpos⟩ := hm.place
    dsimp only
    split_ifs with hback
    · obtain ⟨h1, h2⟩ := hm.backToStart
      exact ⟨h1.setOrigin, h2.trans hx₁⟩
    · have hw : word (c₁.scrEnd - c₁.video.sizeRow : ℤ) = c₁.scrEnd - c₁.video.sizeRow := word_eq (by omega) (by omega)
      rw [hw]
      have h1 : c₁.OnScreen v := ⟨hm, by omega⟩
      have hd : Draws c₁.video.memStart c₁.video.memEnd c₁ (stosw 1 c₁.video.numColumns (c₁.scrEnd - c₁.video.sizeRow) c₁) :=
        stosw_up (by omega) (by omega) (by omega)
      exact ⟨(h1.draws hd).setOrigin, hd.x.trans hx₁⟩
  · have hd := h.scrupRegion_draws
    exact ⟨h.draws hd, hd.x⟩

theorem scrdown_draws (h : c.OnScreen v) : Draws c.video.memStart c.video.memEnd c c.scrdown := by
  obtain ⟨hstart, -, -, hrow, hcols, hin, hend, -, -, -, -⟩ := h.place
  have hle := h.inside
  obtain ⟨ht, hb⟩ := h.region
  rw [h.geometry.lines] at hb
  obtain ⟨h1, h2⟩ := region_bytes hb ht hrow
  have hlongs : c.regionLongs = (c.bottom - c.top - 1) * c.video.numColumns / 2 := by
    have := h.geometry.max
    exact regionLongs_eq ht hb (by omega)
  -- the end of the region, and the longs that are moved down below it
  generalize (c.bottom - c.top - 1) * c.video.numColumns / 2 = n at h1 hlongs
  obtain ⟨p, hp⟩ : ∃ p, c.origin + c.video.sizeRow * c.bottom = p := ⟨_, rfl⟩
  have hcast : (c.origin + c.video.sizeRow * c.bottom : ℤ) = p := by
    rw [← hp]
    push_cast
    rfl
  have hlow : c.origin + 4 * n + 2 * c.video.numColumns ≤ p := by omega
  have hhigh : p ≤ c.scrEnd := by omega
  have hfirst : 4 ≤ c.origin := by omega
  have hmax : c.scrEnd < 4294967296 := hle.trans_lt h.max
  clear hend hp h1 h2 hrow hstart hb ht
  have hdi : word (c.origin + c.video.sizeRow * c.bottom - 4 : ℤ) = p - 4 := word_eq (by rw [hcast]; omega) (by omega)
  unfold Con.scrdown
  rw [hlongs, hdi]
  obtain ⟨h3, h4⟩ := @movsl_down c c.origin c.scrEnd n (p - 4) (word (c.origin + c.video.sizeRow * (c.bottom - 1 : ℤ) - 4))
    (by omega) (by omega) (by omega) hmax
  have hw : word ((movsl (-1) n (p - 4) (word (c.origin + c.video.sizeRow * (c.bottom - 1 : ℤ) - 4)) c).2 + 2 : ℤ) = p - 2 - 4 * n := by
    rw [h4]
    exact word_eq (by omega) (by omega)
  refine (Draws.trans h3 ?_).mono hin hle
  dsimp only
  rw [hw]
  exact stosw_down (by omega) (by omega) hmax

theorem scrdown (h : c.OnScreen v) : c.scrdown.OnScreen v := h.draws h.scrdown_draws

/-- The cursor goes to another place of the screen. -/
theorem move (h : c.OnScreen v) {a b : ℕ} (ha : a ≤ c.video.numColumns) (hb : b < c.video.numLines)
    (hp : p = c.origin + b * c.video.sizeRow + 2 * a) : ({ c with x := a, y := b, pos := p } : Con).OnScreen v :=
  ⟨⟨h.geometry, h.video, ha, hb, h.region, h.npar, h.scrEnd, h.origin, h.low, hp, h.stores⟩, h.inside⟩

theorem lf (h : c.OnScreen v) : c.lf.OnScreen v ∧ c.lf.x = c.x := by
  obtain ⟨hstart, hfits, hmax, hrow, hcols, hin, hend, -, hx, hy, hpos⟩ := h.place
  have hlt := h.y
  have hle := h.inside
  have hlines := h.geometry.lines
  have hw : word (c.y + 1) = c.y + 1 := word_eq (by push_cast; ring) (by omega)
  have hp : word (c.pos + c.video.sizeRow) = c.pos + c.video.sizeRow := word_eq (by push_cast; ring) (by omega)
  unfold Con.lf
  rw [hw, hp]
  split_ifs with hnext
  · refine ⟨h.move h.x (lt_of_lt_of_le hnext h.region.2) ?_, rfl⟩
    rw [hpos, Nat.add_mul]
    omega
  · exact h.scrup

theorem ri (h : c.OnScreen v) : c.ri.OnScreen v := by
  obtain ⟨hstart, hfits, hmax, hrow, hcols, hin, hend, -, hx, hy, hpos⟩ := h.place
  have hlt := h.y
  have hle := h.inside
  have hlines := h.geometry.lines
  unfold Con.ri
  split_ifs with hup
  · obtain ⟨k, hk⟩ : ∃ k, c.y = k + 1 := ⟨c.y - 1, by omega⟩
    have hmul : (k + 1) * c.video.sizeRow = k * c.video.sizeRow + c.video.sizeRow := Nat.succ_mul ..
    rw [hk, hmul] at hpos hy
    have hw : word (c.y - 1 : ℤ) = k := word_eq (by omega) (by omega)
    have hp : word (c.pos - c.video.sizeRow : ℤ) = c.pos - c.video.sizeRow := word_eq (by omega) (by omega)
    rw [hw, hp]
    exact h.move h.x (by omega) (by omega)
  · exact h.scrdown

theorem cr (h : c.OnScreen v) : c.cr.OnScreen v := by
  obtain ⟨-, hge, hend, hle, -, hmax⟩ := h.bounds
  have hpos := h.pos
  have hp : word (c.pos - 2 * c.x : ℤ) = c.pos - 2 * c.x := word_eq (by omega) (by omega)
  unfold Con.cr
  rw [hp]
  exact h.move (Nat.zero_le _) h.y (by omega)

/-- One place to the left. -/
theorem left (h : c.OnScreen v) (h0 : c.x ≠ 0) : ({ c with pos := word (c.pos - 2 : ℤ), x := word (c.x - 1 : ℤ) } : Con).OnScreen v ∧
    word (c.pos - 2 : ℤ) = c.pos - 2 ∧ c.origin + 2 ≤ c.pos := by
  obtain ⟨-, hge, hend, hle, hx, hmax⟩ := h.bounds
  have hpos := h.pos
  have hge' : c.origin + 2 ≤ c.pos := by omega
  have hp : word (c.pos - 2 : ℤ) = c.pos - 2 := word_eq (by omega) (by omega)
  have hw : word (c.x - 1 : ℤ) = c.x - 1 := word_eq (by omega) (by omega)
  rw [hp, hw]
  exact ⟨h.move (Nat.sub_le_of_le_add (Nat.le_succ_of_le hx)) h.y (by omega), rfl, hge'⟩

theorem del (h : c.OnScreen v) : c.del.OnScreen v := by
  obtain ⟨hin, -, hend, hle, -, -⟩ := h.bounds
  unfold Con.del
  split_ifs with h0
  · obtain ⟨hl, hp, hge⟩ := h.left h0
    refine hl.draws (Draws.poke ?_ ?_)
    · change c.video.memStart ≤ word (c.pos - 2 : ℤ)
      omega
    · change word (c.pos - 2 : ℤ) + 2 ≤ c.video.memEnd
      omega
  · exact h

theorem csiJ (h : c.OnScreen v) (par : ℕ) : (c.csiJ par).OnScreen v := by
  obtain ⟨hin, hge, hend, hle, -, hmax⟩ := h.bounds
  unfold Con.csiJ
  split
  · rw [word_eq (k := c.scrEnd - c.pos) (by omega) (by omega)]
    exact h.draws (stosw_up (by omega) (by omega) h.max)
  · rw [word_eq (k := c.pos - c.origin) (by omega) (by omega)]
    exact h.draws (stosw_up hin (by omega) h.max)
  · obtain ⟨-, -, -, hrow, -, -, hscr, -, -, -, -⟩ := h.place
    rw [word_eq (k := c.video.numColumns * 25) (by rw [h.geometry.lines]; push_cast; ring) (by omega)]
    exact h.draws (stosw_up hin (by omega) h.max)
  · exact h

theorem csiK (h : c.OnScreen v) (par : ℕ) : (c.csiK par).OnScreen v := by
  obtain ⟨hin, hge, hend, hle, hx, hmax⟩ := h.bounds
  have hp : word (c.pos - 2 * c.x : ℤ) = c.pos - 2 * c.x := word_eq (by omega) (by omega)
  have hlo : c.video.memStart ≤ c.pos - 2 * c.x := by omega
  have hhi : c.pos - 2 * c.x + 2 * c.video.numColumns ≤ c.video.memEnd := by omega
  unfold Con.csiK
  split
  · split_ifs with hout
    · exact h
    · rw [word_eq (k := c.video.numColumns - c.x) (by omega) (by omega)]
      exact h.draws (stosw_up (by omega) (by omega) h.max)
  · rw [hp]
    have hn : (if c.x < c.video.numColumns then c.x else c.video.numColumns) ≤ c.video.numColumns := by
      split_ifs
      · exact hx
      · exact le_rfl
    exact h.draws (stosw_up hlo ((Nat.add_le_add_left (Nat.mul_le_mul_left 2 hn) _).trans hhi) h.max)
  · rw [hp]
    exact h.draws (stosw_up hlo hhi h.max)
  · exact h

theorem csim (h : c.OnScreen v) : c.csim.OnScreen v := h.congr rfl rfl rfl rfl rfl rfl rfl rfl rfl rfl

theorem insertChar (h : c.OnScreen v) : c.insertChar.OnScreen v := by
  obtain ⟨hin, hge, hend, hle, -, -⟩ := h.bounds
  exact h.draws (shiftRight_draws (by omega) (hend.trans hle) h.max)

theorem deleteChar (h : c.OnScreen v) : c.deleteChar.OnScreen v := by
  obtain ⟨hin, hge, hend, hle, -, -⟩ := h.bounds
  unfold Con.deleteChar
  split_ifs with hout
  · exact h
  · obtain ⟨h1, h2⟩ := @shiftLeft_draws c c.video.memStart c.video.memEnd (c.video.numColumns - (c.x + 1)) c.pos (by omega) (by omega) h.max
    dsimp only
    rw [h2]
    exact h.draws (h1.trans (Draws.poke (by omega) (by omega)))

/-- Another scroll region. -/
theorem withRegion (h : c.OnScreen v) {t b : ℕ} (ht : t < b) (hb : b ≤ c.video.numLines) :
    ({ c with top := t, bottom := b } : Con).OnScreen v :=
  ⟨⟨h.geometry, h.video, h.x, h.y, ⟨ht, hb⟩, h.npar, h.scrEnd, h.origin, h.low, h.pos, h.stores⟩, h.inside⟩

theorem insertLine (h : c.OnScreen v) : c.insertLine.OnScreen v := by
  have hr := h.withRegion h.y le_rfl
  refine hr.scrdown.withRegion h.region.1 ?_
  rw [hr.scrdown.geometry.lines, ← h.geometry.lines]
  exact h.region.2

theorem deleteLine (h : c.OnScreen v) : c.deleteLine.OnScreen v := by
  have hr := h.withRegion h.y le_rfl
  refine hr.scrup.1.withRegion h.region.1 ?_
  rw [hr.scrup.1.geometry.lines, ← h.geometry.lines]
  exact h.region.2

theorem iterate {f : Con → Con} (hf : ∀ c : Con, c.OnScreen v → (f c).OnScreen v) (h : c.OnScreen v) (n : ℕ) : (f^[n] c).OnScreen v := by
  induction n generalizing c with
  | zero => exact h
  | succ n ih =>
    rw [Function.iterate_succ_apply]
    exact ih (hf c h)

theorem csiAt (h : c.OnScreen v) (nr : ℕ) : (c.csiAt nr).OnScreen v := iterate (fun _ => insertChar) h _
theorem csiL (h : c.OnScreen v) (nr : ℕ) : (c.csiL nr).OnScreen v := iterate (fun _ => insertLine) h _
theorem csiP (h : c.OnScreen v) (nr : ℕ) : (c.csiP nr).OnScreen v := iterate (fun _ => deleteChar) h _
theorem csiM (h : c.OnScreen v) (nr : ℕ) : (c.csiM nr).OnScreen v := iterate (fun _ => deleteLine) h _

theorem saveCur (h : c.OnScreen v) : c.saveCur.OnScreen v := h.congr rfl rfl rfl rfl rfl rfl rfl rfl rfl rfl

theorem restoreCur (h : c.OnScreen v) : c.restoreCur.OnScreen v := h.gotoxy _ _

/-! ## Bytes -/

theorem ite {P : Prop} [Decidable P] (h : c.OnScreen v) (h' : c'.OnScreen v) : (if P then c else c').OnScreen v := by
  split_ifs
  · exact h
  · exact h'

/-- A column behind the last one, by a line at most, becomes one of the next line. -/
theorem wrap (h : c.OnScreen v) (hn : n ≤ c.video.numColumns) :
    let c' : Con := { c with x := c.video.numColumns + n, pos := c.origin + c.y * c.video.sizeRow + 2 * (c.video.numColumns + n) }
    c'.wrap.OnScreen v ∧ c'.wrap.x = n := by
  obtain ⟨hstart, hfits, hmax, hrow, hcols, hin, hend, -, hx, hy, hpos⟩ := h.place
  have hle := h.inside
  have hw : word ((c.video.numColumns + n : ℕ) - c.video.numColumns : ℤ) = n := word_eq (by push_cast; ring) (by omega)
  have hp : word ((c.origin + c.y * c.video.sizeRow + 2 * (c.video.numColumns + n) : ℕ) - c.video.sizeRow : ℤ) =
      c.origin + c.y * c.video.sizeRow + 2 * n := word_eq (by rw [hrow]; push_cast; ring) (by omega)
  unfold Con.wrap
  dsimp only
  rw [hw, hp]
  exact (h.move hn h.y rfl).lf

/-- A character goes where the cursor is, on the next line when that is behind the last column. -/
theorem putChar (h : c.OnScreen v) (ch : BitVec 8) : (c.putChar ch).OnScreen v := by
  have hput : ∀ c : Con, c.OnScreen v → c.x < c.video.numColumns → ({ c.poke 2 c.pos (256 * c.attr + ch.toNat) with
      pos := word (c.pos + 2), x := word (c.x + 1) } : Con).OnScreen v := fun c h hlt => by
    obtain ⟨hstart, hfits, hmax, hrow, hcols, hin, hend, -, hx, hy, hpos⟩ := h.place
    have hle := h.inside
    have hp : word (c.pos + 2) = c.pos + 2 := word_eq (by push_cast; ring) (by omega)
    have hw : word (c.x + 1) = c.x + 1 := word_eq (by push_cast; ring) (by omega)
    have hplace : c.pos + 2 = c.origin + c.y * c.video.sizeRow + 2 * (c.x + 1) := by omega
    rw [hp, hw]
    exact (h.draws (Draws.poke (by omega) (by omega))).move hlt h.y hplace
  unfold Con.putChar
  split_ifs with hout
  · have hxe : c.x = c.video.numColumns + 0 := Nat.le_antisymm h.x hout
    have hpos := h.pos
    obtain ⟨h1, h2⟩ := h.wrap (n := 0) (Nat.zero_le _)
    rw [← hxe, ← hpos] at h1 h2
    have hcols : 8 ≤ c.wrap.video.numColumns := h1.geometry.columns
    have hzero : c.wrap.x = 0 := h2
    exact hput _ h1 (show c.wrap.x < c.wrap.video.numColumns by omega)
  · exact hput c h (by omega)

theorem tab (h : c.OnScreen v) : c.tab.OnScreen v := by
  obtain ⟨hstart, hfits, hmax, hrow, hcols, hin, hend, -, hx, hy, hpos⟩ := h.place
  have hle := h.inside
  unfold Con.tab
  dsimp only
  rw [word_eq (k := c.x + (8 - c.x % 8)) (by omega) (by omega), word_eq (k := c.pos + 2 * (8 - c.x % 8)) (by omega) (by omega)]
  split_ifs with hout
  · obtain ⟨n, hn⟩ : ∃ n, c.x + (8 - c.x % 8) = c.video.numColumns + n := ⟨c.x + (8 - c.x % 8) - c.video.numColumns, by omega⟩
    have hp : c.pos + 2 * (8 - c.x % 8) = c.origin + c.y * c.video.sizeRow + 2 * (c.video.numColumns + n) := by omega
    rw [hn, hp]
    exact (h.wrap (by omega)).1
  · exact h.move (by omega) h.y (by omega)

theorem withState (h : c.OnScreen v) (n : ℕ) : ({ c with state := n } : Con).OnScreen v := h.congr rfl rfl rfl rfl rfl rfl rfl rfl rfl rfl

theorem plain (h : c.OnScreen v) (erase ch : BitVec 8) : (c.plain erase ch).OnScreen v := by
  have hleft : (if c.x ≠ 0 then { c with x := word (c.x - 1 : ℤ), pos := word (c.pos - 2 : ℤ) } else c : Con).OnScreen v := by
    split_ifs with h0
    · exact (h.left h0).1
    · exact h
  unfold Con.plain
  refine ite (h.putChar ch) ?_
  refine ite (h.withState 1) ?_
  refine ite h.lf.1 ?_
  refine ite h.cr ?_
  refine ite h.del ?_
  exact ite hleft (ite h.tab h)

theorem escape (h : c.OnScreen v) (ch : BitVec 8) : (c.escape ch).OnScreen v := by
  have h0 := h.withState 0
  unfold Con.escape
  refine ite (h.withState 2) ?_
  refine ite (h0.gotoxy _ _) ?_
  refine ite h0.ri ?_
  refine ite h0.lf.1 ?_
  refine ite h0 ?_
  exact ite h0.saveCur (ite h0.restoreCur h0)

theorem setPar (h : c.OnScreen v) (i k : ℕ) : (c.setPar i k).OnScreen v := h.congr rfl rfl rfl rfl rfl rfl rfl rfl rfl rfl

theorem parDown (h : c.OnScreen v) (i : ℕ) : (c.parDown i).OnScreen v := by
  unfold Con.parDown
  split_ifs
  · exact h.setPar _ _
  · exact h

theorem parOne (h : c.OnScreen v) : c.parOne.OnScreen v := by
  unfold Con.parOne
  split_ifs
  · exact h.setPar _ _
  · exact h

theorem setRegion (h : c.OnScreen v) : c.setRegion.OnScreen v := by
  have h1 : (if (c.parDown 0).par 1 = 0 then (c.parDown 0).setPar 1 (c.parDown 0).video.numLines else c.parDown 0).OnScreen v := by
    split_ifs
    · exact (h.parDown 0).setPar _ _
    · exact h.parDown 0
  unfold Con.setRegion
  dsimp only
  generalize (if (c.parDown 0).par 1 = 0 then (c.parDown 0).setPar 1 (c.parDown 0).video.numLines else c.parDown 0) = c₁ at h1 ⊢
  split_ifs with hin
  · exact h1.withRegion hin.1 hin.2
  · exact h1

theorem final (h : c.OnScreen v) (ch : BitVec 8) : (c.final ch).OnScreen v := by
  have h0 := h.withState 0
  unfold Con.final
  refine ite ((h0.parDown 0).gotoxy _ _) ?_
  refine ite (h0.parOne.gotoxy _ _) ?_
  refine ite (h0.parOne.gotoxy _ _) ?_
  refine ite (h0.parOne.gotoxy _ _) ?_
  refine ite (h0.parOne.gotoxy _ _) ?_
  refine ite (h0.parOne.gotoxy _ _) ?_
  refine ite (h0.parOne.gotoxy _ _) ?_
  refine ite ((h0.parDown 0).gotoxy _ _) ?_
  refine ite (((h0.parDown 0).parDown 1).gotoxy _ _) ?_
  refine ite (h0.csiJ _) ?_
  refine ite (h0.csiK _) ?_
  refine ite (h0.csiL _) ?_
  refine ite (h0.csiM _) ?_
  refine ite (h0.csiP _) ?_
  refine ite (h0.csiAt _) ?_
  refine ite h0.csim ?_
  refine ite h0.setRegion ?_
  refine ite h0.saveCur ?_
  exact ite h0.restoreCur h0

theorem withNpar (h : c.OnScreen v) (hn : n < NPAR) : ({ c with npar := n } : Con).OnScreen v :=
  ⟨⟨h.geometry, h.video, h.x, h.y, h.region, hn, h.scrEnd, h.origin, h.low, h.pos, h.stores⟩, h.inside⟩

theorem params (h : c.OnScreen v) (ch : BitVec 8) : (c.params ch).OnScreen v := by
  unfold Con.params
  split_ifs with hnext
  · exact h.withNpar (show c.npar + 1 < 16 by have := hnext.2; unfold NPAR at this; omega)
  · exact h.setPar _ _
  · exact (h.withState 4).final ch

theorem start (h : c.OnScreen v) (ch : BitVec 8) : (c.start ch).OnScreen v := by
  have h1 : ({ c with par := fun i => if i < NPAR then 0 else c.par i, npar := 0, state := 3, ques := ch = char '?' } : Con).OnScreen v :=
    (h.withNpar (show 0 < NPAR by decide)).congr rfl rfl rfl rfl rfl rfl rfl rfl rfl rfl
  unfold Con.start
  dsimp only
  split_ifs
  · exact h1
  · exact h1.params ch

theorem run (h : c.OnScreen v) (e : ConEvent) : (c.run e).OnScreen v := by
  cases e with
  | byte erase ch =>
    unfold Con.run Con.byte
    dsimp only
    split
    · exact h.plain erase ch
    · exact h.escape ch
    · exact h.start ch
    · exact h.params ch
    · exact h.final ch
    · exact h
  | done => exact h.congr rfl rfl rfl rfl rfl rfl rfl rfl rfl rfl

end OnScreen

theorem writeDesc_draws {l : List Char} (hlo : lo ≤ p) (hhi : p + 2 * l.length ≤ hi) : Draws lo hi c (Setup.writeDesc l p c) := by
  induction l generalizing p c with
  | nil => exact Draws.refl c
  | cons ch l ih =>
    rw [List.length_cons] at hhi
    have h1 : Draws lo hi c (c.poke 1 p ch.toNat) := Draws.poke (by omega) (by omega)
    exact h1.trans (ih (by omega) (by omega))

theorem geometry {s : Setup} (hs : s.Fits) : Geometry s.video := by
  obtain ⟨hcols, hfits, -, -⟩ := hs
  refine ⟨hcols, Nat.mul_comm _ _, rfl, ?_, hfits, ?_⟩
  · unfold Setup.video
    dsimp only
    split_ifs <;> decide
  · unfold Setup.video
    dsimp only
    split_ifs <;> decide

theorem conInit_onScreen {s : Setup} (hs : s.Fits) (mem : Bytes) (crtc : ℕ → ℕ) : (s.conInit mem crtc).OnScreen s.video := by
  have hg := geometry hs
  obtain ⟨hcols, hfits, hx, hy⟩ := hs
  have hstart := hg.start
  have hmax := hg.max
  have hrow := hg.row
  have hlines := hg.lines
  have hline := line_le (r := s.video.sizeRow) (hlines ▸ hy)
  unfold Setup.conInit
  dsimp only
  have hlen : s.displayDesc.length = 4 := by
    unfold Setup.displayDesc
    split_ifs <;> rfl
  have hd : Draws s.video.memStart s.video.memEnd (s.boot mem crtc)
      (Setup.writeDesc s.displayDesc (s.video.memStart + s.video.sizeRow - 8) (s.boot mem crtc)) :=
    writeDesc_draws (by omega) (by omega)
  obtain ⟨⟨m, st, heq⟩, hstores⟩ := hd
  rw [heq] at hstores ⊢
  have hend : word (s.video.memStart + s.video.numLines * s.video.sizeRow) = s.video.memStart + s.video.numLines * s.video.sizeRow :=
    word_eq (by push_cast; ring) (by rw [hlines]; omega)
  have hpos : word (s.video.memStart + s.origY.toNat * s.video.sizeRow + 2 * s.origX.toNat) =
      s.video.memStart + s.origY.toNat * s.video.sizeRow + 2 * s.origX.toNat := word_eq (by push_cast; ring) (by omega)
  have hin : s.video.memStart + s.video.numLines * s.video.sizeRow ≤ s.video.memEnd := by
    rw [hlines]
    exact hfits
  unfold Con.gotoxy
  rw [if_neg (by push Not; exact ⟨hx, hy⟩)]
  refine ⟨⟨hg, rfl, hx, hy, ⟨?_, le_rfl⟩, (by decide : 0 < NPAR), hend, le_rfl, ?_, ?_, fun a n hm => ?_⟩, ?_⟩
  · exact hlines ▸ (by decide : 0 < 25)
  · dsimp only
    rw [hend]
    exact Nat.le_add_right_of_le hin
  · exact hpos
  · exact (hstores a n hm).resolve_left List.not_mem_nil
  · dsimp only
    rw [hend]
    exact hin

end Con

theorem onScreen_of_reachable {c : Con} (h : console.Reachable c) : ∃ s : Setup, s.Fits ∧ c.OnScreen s.video := by
  refine h.invariant (I := fun c => ∃ s : Setup, s.Fits ∧ c.OnScreen s.video) ?_ ?_
  · rintro c ⟨s, hs, mem, crtc, rfl⟩
    exact ⟨s, hs, Con.conInit_onScreen hs mem crtc⟩
  · rintro c e c' - ⟨s, hs, hc⟩ rfl
    exact ⟨s, hs, hc.run e⟩

/-- With any bytes in any chunks, the console's cursor, region and origin stay in step and on the
    screen, and the bytes it stores are bytes of video memory. -/
theorem console_on_screen {c : Con} (h : console.Reachable c) : ∃ s : Setup, s.Fits ∧ c.video = s.video ∧
    c.x ≤ c.video.numColumns ∧ c.y < c.video.numLines ∧ c.top < c.bottom ∧ c.bottom ≤ c.video.numLines ∧ c.npar < NPAR ∧
    c.scrEnd = c.origin + c.video.numLines * c.video.sizeRow ∧ c.video.memStart ≤ c.origin ∧ c.scrEnd ≤ c.video.memEnd ∧
    c.pos = c.origin + c.y * c.video.sizeRow + 2 * c.x ∧
    ∀ a n, (a, n) ∈ c.stores → c.video.memStart ≤ a ∧ a + n ≤ c.video.memEnd := by
  obtain ⟨s, hs, hc⟩ := onScreen_of_reachable h
  exact ⟨s, hs, hc.video, hc.x, hc.y, hc.region.1, hc.region.2, hc.npar, hc.scrEnd, hc.origin, hc.inside, hc.pos, hc.stores⟩

/-- An EGA with 80 columns and the cursor in the last line. -/
def ega80 : Setup where
  origX := 0
  origY := 24
  videoMode := 3
  videoCols := 80
  egaBx := 0

/-- A line feed in the last line moves the origin. -/
theorem console_on_screen_of_line_feed : ∃ c : Con, console.Reachable c ∧ c.origin = 0xb8000 + 160 ∧ c.scrEnd ≤ c.video.memEnd := by
  have h0 : console.Reachable (ega80.conInit (fun _ => 0) fun _ => 0) := .init ⟨ega80, by unfold Setup.Fits; decide, _, _, rfl⟩
  have h1 : console.Reachable ((ega80.conInit (fun _ => 0) fun _ => 0).run (.byte 127 10)) := h0.step rfl
  obtain ⟨s, -, -, -, -, -, -, -, -, -, hend, -, -⟩ := console_on_screen h1
  exact ⟨_, h1, by decide, hend⟩

end Linux011.Chr
