/-
  The allocators of fs/bitmap.c take the smallest number whose bit is clear and change no other bit, and
  the releases undo it (`bitmap_allocators`), for numbers in any of the eight map blocks.

  `new_inode` compares the number with `s_ninodes` before it sets the bit, `new_block` with `s_nzones`
  after it: a clear bit behind the last zone is set although 0 is returned. And the buffer of the block
  may be in use: then `new_block` panics, and `free_block` leaves the bit as it is.
-/
import Linux011.Fs.Bitmap

namespace Linux011.Fs.Bitmap

open Linux011.Lib

/-! ## The bits of a map -/

/-- Bit `n` of the eight blocks of a map. Where no block is loaded there is no number to be had. -/
def bitAt (m : ℕ → Option MapBuf) (n : ℕ) : Bool := if n < 65536 then (m (n / 8192)).all fun b => b.word.bit (n % 8192) else true

/-- The block with bit `n` is loaded. -/
def Covered (m : ℕ → Option MapBuf) (n : ℕ) : Prop := n < 65536 ∧ (m (n / 8192)).isSome = true

/-- The first clear bit. -/
def FirstClear (m : ℕ → Option MapBuf) (n : ℕ) : Prop := bitAt m n = false ∧ ∀ k < n, bitAt m k = true

variable {m : ℕ → Option MapBuf} {i j k n : ℕ} {b : MapBuf} {v : Bool}

theorem FirstClear.unique (h : FirstClear m n) (h' : FirstClear m k) : n = k := by
  obtain hlt | heq | hlt := Nat.lt_trichotomy n k
  · exact absurd (h'.2 n hlt) (by rw [h.1]; exact Bool.false_ne_true)
  · exact heq
  · exact absurd (h.2 k hlt) (by rw [h'.1]; exact Bool.false_ne_true)

theorem bitAt_block (hi : i < 8) (hj : j < 8192) (hb : m i = some b) : bitAt m (8192 * i + j) = b.word.bit j := by
  have hdiv : (8192 * i + j) / 8192 = i := by omega
  have hmod : (8192 * i + j) % 8192 = j := by omega
  rw [bitAt, if_pos (by omega), hdiv, hmod, hb, Option.all_some]

/-- One bit of a map is stored. -/
theorem bitAt_put (hi : i < 8) (hj : j < 8192) (hb : m i = some b) (n : ℕ) :
    bitAt (Function.update m i (some (b.put j v))) n = if n = 8192 * i + j then v else bitAt m n := by
  unfold bitAt
  by_cases hn : n < 65536
  · rw [if_pos hn, if_pos hn]
    by_cases hblock : n / 8192 = i
    · rw [hblock, Function.update_self, hb, Option.all_some, Option.all_some, MapBuf.put, Words.put_bit (by decide)]
      have hiff : n % 8192 = j ↔ n = 8192 * i + j := by omega
      simp only [hiff]
    · rw [Function.update_of_ne hblock, if_neg (by omega)]
  · rw [if_neg hn, if_neg hn, if_neg (by omega)]

/-- `find_first_zero` finds the first clear bit of a block. -/
theorem findFirstZero_spec (b : MapBuf) : (∀ k < findFirstZero b, k < 8192 → b.word.bit k = true) ∧
    (findFirstZero b < 8192 → b.word.bit (findFirstZero b) = false) := by
  obtain ⟨-, -, hset, hclear⟩ := b.word.firstClear_spec 256 0
  exact ⟨fun k hk _ => hset k (by omega) hk, hclear⟩

theorem bitAt_of_block (hi : i < 8) (hb : ∀ b, m i = some b → ∀ j < 8192, b.word.bit j = true) (hn : n / 8192 = i) : bitAt m n = true := by
  rw [bitAt, if_pos (by omega), hn]
  cases hm : m i with
  | none => rfl
  | some b => exact hb b hm _ (Nat.mod_lt _ (by decide))

/-- The search finds the first clear bit of the blocks it comes by. -/
theorem searchMaps_spec (m : ℕ → Option MapBuf) (n i : ℕ) (hi : i + n = 8) : match searchMaps m n i with
    | none => ∀ k, 8192 * i ≤ k → bitAt m k = true
    | some (i', j) => i ≤ i' ∧ i' < 8 ∧ j < 8192 ∧ (∃ b, m i' = some b ∧ b.word.bit j = false) ∧
      ∀ k, 8192 * i ≤ k → k < 8192 * i' + j → bitAt m k = true := by
  induction n generalizing i with
  | zero =>
    intro k hk
    rw [bitAt, if_neg (by omega)]
  | succ n ih =>
    have hnext : (∀ b, m i = some b → ∀ j < 8192, b.word.bit j = true) → match searchMaps m n (i + 1) with
        | none => ∀ k, 8192 * i ≤ k → bitAt m k = true
        | some (i', j) => i ≤ i' ∧ i' < 8 ∧ j < 8192 ∧ (∃ b, m i' = some b ∧ b.word.bit j = false) ∧
          ∀ k, 8192 * i ≤ k → k < 8192 * i' + j → bitAt m k = true := by
      intro hfull
      have h := ih (i + 1) (by omega)
      have hhere : ∀ k, 8192 * i ≤ k → k < 8192 * (i + 1) → bitAt m k = true :=
        fun k h1 h2 => bitAt_of_block (by omega) hfull (by omega)
      cases hs : searchMaps m n (i + 1) with
      | none =>
        rw [hs] at h
        intro k hk
        by_cases hk' : k < 8192 * (i + 1)
        · exact hhere k hk hk'
        · exact h k (by omega)
      | some p =>
        rw [hs] at h
        obtain ⟨h1, h2, h3, h4, h5⟩ := h
        refine ⟨by omega, h2, h3, h4, fun k hk hlt => ?_⟩
        by_cases hk' : k < 8192 * (i + 1)
        · exact hhere k hk hk'
        · exact h5 k (by omega) hlt
    unfold searchMaps
    cases hm : m i with
    | none => exact hnext fun b hb => by rw [hm] at hb; cases hb
    | some b =>
      obtain ⟨hset, hclear⟩ := findFirstZero_spec b
      dsimp only
      split_ifs with hlt
      · refine ⟨le_refl i, by omega, hlt, ⟨b, hm, hclear hlt⟩, fun k h1 h2 => ?_⟩
        have hk : k = 8192 * i + (k - 8192 * i) := by omega
        rw [hk, bitAt_block (by omega) (by omega) hm]
        exact hset _ (by omega) (by omega)
      · refine hnext fun b' hb' j hj => ?_
        cases hm.symm.trans hb'
        exact hset j (by omega) hj

/-- What the search of all eight blocks comes to. -/
theorem searchMaps_cases (m : ℕ → Option MapBuf) : (searchMaps m 8 0 = none ∧ ∀ n, bitAt m n = true) ∨
    ∃ i j b, searchMaps m 8 0 = some (i, j) ∧ i < 8 ∧ j < 8192 ∧ m i = some b ∧ b.word.bit j = false ∧
      FirstClear m (8192 * i + j) := by
  have h := searchMaps_spec m 8 0 rfl
  cases hs : searchMaps m 8 0 with
  | none =>
    rw [hs] at h
    exact Or.inl ⟨rfl, fun n => h n (by omega)⟩
  | some p =>
    obtain ⟨i, j⟩ := p
    rw [hs] at h
    obtain ⟨-, hi, hj, ⟨b, hb, hbit⟩, hset⟩ := h
    exact Or.inr ⟨i, j, b, rfl, hi, hj, hb, hbit, (bitAt_block hi hj hb).trans hbit, fun k hk => hset k (by omega) hk⟩

/-! ## new_block -/

variable {s s' : Bits} {d z : ℕ} {sb : Fin 8} {victim : ℕ × ℕ}

/-- The super block of the device is loaded as entry `sb`. -/
def SuperOf (s : Bits) (d : ℕ) (sb : Fin 8) : Prop := getSuper d s.kern = .ok (some sb) s.kern

theorem SuperOf.run (h : SuperOf s d sb) : core (getSuper d) s = .ok (some sb) s := by
  unfold core
  rw [h]

/-- The bit of a zone. -/
def zoneBit (s : Bits) (sb : Fin 8) (z : ℕ) : ℕ := z + 1 - (s.kern.super sb).firstdatazone

/-- The zone may be handed out. -/
def ZoneClear (s : Bits) (sb : Fin 8) (z : ℕ) : Prop :=
  (s.kern.super sb).firstdatazone ≤ z ∧ z < (s.kern.super sb).nzones ∧ bitAt (s.maps sb).zmap (zoneBit s sb z) = false

/-- Bit `n` of one of the maps of `sb` has become `v`, and no other bit has changed. -/
structure ZmapPut (s : Bits) (sb : Fin 8) (n : ℕ) (v : Bool) (s' : Bits) : Prop where
  zmap : ∀ k, bitAt (s'.maps sb).zmap k = if k = n then v else bitAt (s.maps sb).zmap k
  imap : (s'.maps sb).imap = (s.maps sb).imap
  rest : ∀ t, t ≠ sb → s'.maps t = s.maps t

structure ImapPut (s : Bits) (sb : Fin 8) (n : ℕ) (v : Bool) (s' : Bits) : Prop where
  imap : ∀ k, bitAt (s'.maps sb).imap k = if k = n then v else bitAt (s.maps sb).imap k
  zmap : (s'.maps sb).zmap = (s.maps sb).zmap
  rest : ∀ t, t ≠ sb → s'.maps t = s.maps t

/-- The smallest free zone is taken, with a zeroed, dirty, up-to-date buffer that nobody uses; or 0 is
    returned, there is none, and the maps are as before. -/
def TakesZone (s : Bits) (d : ℕ) (sb : Fin 8) : Out Bits Halted ℕ → Prop
  | .ok 0 s' => (∀ z, ¬ ZoneClear s sb z) ∧ s'.maps = s.maps
  | .ok z s' => ZoneClear s sb z ∧ (∀ z' < z, ¬ ZoneClear s sb z') ∧ ZmapPut s sb (zoneBit s sb z) true s' ∧
      s'.head d z = some ⟨0, true, true, Block.zero⟩
  | _ => False

/-- `getblk` finds a buffer for the block that nobody uses: its own, or one it takes over. -/
def Unused (s : Bits) (victim : ℕ × ℕ) (d b : ℕ) : Prop := match s.head d b with
  | some h => h.count = 0
  | none => ∃ h, s.head victim.1 victim.2 = some h ∧ h.count = 0

theorem getblk_unused (h : Unused s victim d z) : ∃ h s', getblk victim d z s = .ok h s' ∧ h.count = 1 ∧ s'.maps = s.maps := by
  unfold getblk
  rw [Prog.bind_run (Prog.get_run s)]
  unfold Unused at h
  cases hz : s.head d z with
  | some x =>
    rw [hz] at h
    exact ⟨_, _, rfl, by rw [show x.count = 0 from h]; rfl, rfl⟩
  | none =>
    rw [hz] at h
    obtain ⟨x, hx, h0⟩ := h
    dsimp only
    rw [hx]
    dsimp only
    rw [if_pos h0]
    exact ⟨_, _, rfl, rfl, rfl⟩

theorem getblk_used (h : ¬ Unused s victim d z) : (∃ h s', getblk victim d z s = .ok h s' ∧ h.count ≠ 1) ∨
    ∃ e, getblk victim d z s = .stop e := by
  unfold getblk
  rw [Prog.bind_run (Prog.get_run s)]
  unfold Unused at h
  cases hz : s.head d z with
  | some x =>
    rw [hz] at h
    refine Or.inl ⟨_, _, rfl, fun h1 => h ?_⟩
    have h1 : x.count + 1 = 1 := h1
    show x.count = 0
    grind
  | none =>
    rw [hz] at h
    dsimp only
    cases hv : s.head victim.1 victim.2 with
    | none => exact Or.inr ⟨_, rfl⟩
    | some x =>
      dsimp only
      rw [if_neg fun h0 => h ⟨x, hv, h0⟩]
      exact Or.inr ⟨_, rfl⟩

/-- The map of zones after a store of a bit of block `i`. -/
theorem zmapPut (hi : i < 8) (hj : j < 8192) (hb : (s.maps sb).zmap i = some b)
    (hs : s'.maps = Function.update s.maps sb { s.maps sb with zmap := Function.update (s.maps sb).zmap i (some (b.put j v)) }) :
    ZmapPut s sb (8192 * i + j) v s' := by
  refine ⟨fun k => ?_, ?_, fun t ht => ?_⟩
  · rw [hs, Function.update_self]
    exact bitAt_put hi hj hb k
  · rw [hs, Function.update_self]
  · rw [hs, Function.update_of_ne ht]

/-- The end of `new_block`, with bit `j` of block `i` set. -/
theorem newBlock_found (hk : SuperOf s d sb) (hs : searchMaps (s.maps sb).zmap 8 0 = some (i, j))
    (hb : (s.maps sb).zmap i = some b) (hbit : b.word.bit j = false) :
    newBlock victim d s = (do
      let z := j + i * 8192 + (s.kern.super sb).firstdatazone - 1
      if (s.kern.super sb).nzones ≤ z then return 0
      else do
        let h ← getblk victim d z
        if h.count ≠ 1 then panic "new block: count is != 1"
        else do
          brelse d z { h with data := Block.zero, uptodate := true, dirt := true }
          return z : B ℕ) { s with maps := Function.update s.maps sb { s.maps sb with
            zmap := Function.update (s.maps sb).zmap i (some (b.put j true)) } } := by
  unfold newBlock
  rw [Prog.bind_run hk.run]
  dsimp only
  rw [Prog.bind_run (Prog.get_run s), hs]
  dsimp only
  rw [hb]
  dsimp only
  rw [hbit, if_neg Bool.false_ne_true]
  rfl

theorem ne_zero_of_clear (h0 : bitAt m 0 = true) (hn : bitAt m n = false) : n ≠ 0 := by
  rintro rfl
  rw [h0] at hn
  cases hn

/-- `new_block` does what it should if and only if the first clear bit is that of a zone, and `getblk` finds
    a buffer for it that nobody uses. -/
theorem newBlock_takes (hk : SuperOf s d sb) (h0 : bitAt (s.maps sb).zmap 0 = true) :
    TakesZone s d sb (newBlock victim d s) ↔ ∀ n, FirstClear (s.maps sb).zmap n →
      n + (s.kern.super sb).firstdatazone - 1 < (s.kern.super sb).nzones ∧ n + (s.kern.super sb).firstdatazone - 1 ≠ 0 ∧
      Unused s victim d (n + (s.kern.super sb).firstdatazone - 1) := by
  obtain ⟨hs, hall⟩ | ⟨i, j, b, hs, hi, hj, hb, hbit, hfirst⟩ := searchMaps_cases (s.maps sb).zmap
  · have hrun : newBlock victim d s = .ok 0 s := by
      unfold newBlock
      rw [Prog.bind_run hk.run]
      dsimp only
      rw [Prog.bind_run (Prog.get_run s), hs]
      rfl
    rw [hrun]
    refine iff_of_true ⟨fun z hz => ?_, rfl⟩ fun n hn => ?_
    · exact absurd hz.2.2 (by rw [hall]; exact Bool.true_eq_false.mp)
    · exact absurd hn.1 (by rw [hall]; exact Bool.true_eq_false.mp)
  · rw [newBlock_found hk hs hb hbit]
    set s₁ : Bits := { s with maps := Function.update s.maps sb { s.maps sb with
      zmap := Function.update (s.maps sb).zmap i (some (b.put j true)) } }
    have hput : ZmapPut s sb (8192 * i + j) true s₁ := zmapPut hi hj hb rfl
    have hbit0 : 8192 * i + j ≠ 0 := ne_zero_of_clear h0 hfirst.1
    obtain ⟨z, hz⟩ : ∃ z, z = j + i * 8192 + (s.kern.super sb).firstdatazone - 1 := ⟨_, rfl⟩
    have hz' : 8192 * i + j + (s.kern.super sb).firstdatazone - 1 = z := by omega
    have hcond : (∀ n, FirstClear (s.maps sb).zmap n → n + (s.kern.super sb).firstdatazone - 1 < (s.kern.super sb).nzones ∧
        n + (s.kern.super sb).firstdatazone - 1 ≠ 0 ∧ Unused s victim d (n + (s.kern.super sb).firstdatazone - 1)) ↔
        z < (s.kern.super sb).nzones ∧ z ≠ 0 ∧ Unused s victim d z := by
      rw [← hz']
      exact ⟨fun h => h _ hfirst, fun h n hn => by rwa [hn.unique hfirst]⟩
    have hchanged : s₁.maps ≠ s.maps := fun he => by
      have := hput.zmap (8192 * i + j)
      rw [he, if_pos rfl, hfirst.1] at this
      cases this
    rw [hcond, ← hz]
    dsimp only
    by_cases hrange : (s.kern.super sb).nzones ≤ z
    · rw [if_pos hrange]
      exact iff_of_false (fun h => hchanged h.2) fun h => absurd h.1 (Nat.not_lt.mpr hrange)
    · rw [if_neg hrange]
      by_cases hun : Unused s victim d z
      · obtain ⟨h, s₂, hget, hcount, hmaps⟩ := getblk_unused (s := s₁) hun
        rw [Prog.bind_run hget, if_neg (not_not.mpr hcount)]
        have hrel : (do
            brelse d z { h with data := Block.zero, uptodate := true, dirt := true }
            return z : B ℕ) s₂ = .ok z { s₂ with
              head := Function.update s₂.head d (Function.update (s₂.head d) z (some ⟨0, true, true, Block.zero⟩)) } := by
          unfold brelse
          dsimp only
          rw [hcount, if_neg (by decide)]
          rfl
        rw [hrel]
        cases z with
        | zero => exact iff_of_false (fun ht => hchanged (hmaps.symm.trans ht.2)) fun ht => ht.2.1 rfl
        | succ z =>
          have hzone : zoneBit s sb (z + 1) = 8192 * i + j := by
            unfold zoneBit
            omega
          refine iff_of_true ⟨⟨by omega, by omega, by rw [hzone]; exact hfirst.1⟩, fun y hy hc => ?_, ?_, ?_⟩
            ⟨by omega, Nat.succ_ne_zero z, hun⟩
          · have hlt : zoneBit s sb y < 8192 * i + j := by
              have := hc.1
              unfold zoneBit
              omega
            exact absurd hc.2.2 (by rw [hfirst.2 _ hlt]; exact Bool.true_eq_false.mp)
          · rw [hzone]
            exact ⟨by dsimp only; rw [hmaps]; exact hput.zmap, by dsimp only; rw [hmaps]; exact hput.imap,
              by dsimp only; rw [hmaps]; exact hput.rest⟩
          · simp
      · refine iff_of_false (fun ht => ?_) fun h => hun h.2.2
        obtain ⟨h, s₂, hget, hcount⟩ | ⟨e, hget⟩ := getblk_used (s := s₁) hun
        · rw [Prog.bind_run hget, if_pos hcount] at ht
          exact ht
        · rw [Prog.bind_stop hget] at ht
          exact ht

/-! ## free_block -/

/-- The bits of the map are those of `old`, but for the number that has been taken since. -/
def Taken (m : ℕ → Option MapBuf) (old : ℕ → Bool) (n : ℕ) : Prop :=
  old n = false ∧ ∀ k, bitAt m k = if k = n then true else old k

/-- `free_block` of an allocated block gives back the bits as they were, if and only if nobody uses the buffer
    of the block. -/
theorem freeBlock_restores (hk : SuperOf s d sb) {old : ℕ → Bool} (h1 : (s.kern.super sb).firstdatazone ≤ z)
    (h2 : z < (s.kern.super sb).nzones) (hcov : Covered (s.maps sb).zmap (zoneBit s sb z))
    (ht : Taken (s.maps sb).zmap old (zoneBit s sb z)) :
    (∃ s', freeBlock d z s = .ok () s' ∧ (∀ k, bitAt (s'.maps sb).zmap k = old k) ∧
      (s'.maps sb).imap = (s.maps sb).imap ∧ ∀ t, t ≠ sb → s'.maps t = s.maps t) ↔
    ∀ h, s.head d z = some h → h.count = 0 := by
  obtain ⟨n, hn⟩ : ∃ n, n = zoneBit s sb z := ⟨_, rfl⟩
  rw [← hn] at hcov ht
  obtain ⟨hlt, hsome⟩ := hcov
  obtain ⟨b, hb⟩ := Option.isSome_iff_exists.mp hsome
  have hnr : z + 1 - (s.kern.super sb).firstdatazone = n := hn.symm
  have hblock : 8192 * (n / 8192) + n % 8192 = n := by omega
  have hbit : b.word.bit (n % 8192) = true := by
    rw [← bitAt_block (by omega) (Nat.mod_lt _ (by decide)) hb, hblock, ht.2, if_pos rfl]
  unfold freeBlock
  rw [Prog.bind_run hk.run]
  dsimp only
  rw [Prog.bind_run (Prog.get_run s), if_neg (by omega), hnr, if_pos (by omega), hb]
  dsimp only
  rw [hbit, if_pos rfl]
  have hclear : ∀ s₁ : Bits, s₁.maps = s.maps → ∃ s', setZmap sb (n / 8192) (b.put (n % 8192) false) s₁ = .ok () s' ∧
      (∀ k, bitAt (s'.maps sb).zmap k = old k) ∧ (s'.maps sb).imap = (s.maps sb).imap ∧ ∀ t, t ≠ sb → s'.maps t = s.maps t := by
    intro s₁ hs₁
    have hput : ZmapPut s sb (8192 * (n / 8192) + n % 8192) false { s₁ with maps := Function.update s₁.maps sb { s₁.maps sb with
        zmap := Function.update (s₁.maps sb).zmap (n / 8192) (some (b.put (n % 8192) false)) } } :=
      zmapPut (by omega) (Nat.mod_lt _ (by decide)) hb (by dsimp only; rw [hs₁])
    refine ⟨_, rfl, fun k => ?_, hput.imap, hput.rest⟩
    rw [hput.zmap, hblock, ht.2]
    by_cases hkn : k = n
    · rw [if_pos hkn, hkn, ht.1]
    · rw [if_neg hkn, if_neg hkn]
  cases hhead : s.head d z with
  | none => exact iff_of_true (hclear s rfl) nofun
  | some h =>
    dsimp only
    by_cases hcount : h.count = 0
    · rw [if_neg (by rw [hcount]; decide)]
      obtain ⟨s₁, hrel, hmaps⟩ : ∃ s₁, brelse d z { h with count := h.count + 1, dirt := false, uptodate := false } s = .ok () s₁ ∧
          s₁.maps = s.maps := by
        unfold brelse
        dsimp only
        rw [hcount, if_neg (by decide)]
        exact ⟨_, rfl, rfl⟩
      rw [Prog.bind_run hrel]
      exact iff_of_true (hclear s₁ hmaps) fun h' hh => by cases hh; exact hcount
    · rw [if_pos (by grind)]
      refine iff_of_false (fun ⟨s', hs', hbits, _⟩ => ?_) fun hall => hcount (hall h rfl)
      cases hs'
      have hset := ht.2 n
      rw [if_pos rfl] at hset
      have hclr := hbits n
      dsimp only at hclr
      rw [ht.1, hset] at hclr
      cases hclr

/-! ## new_inode and free_inode -/

theorem imapPut (hi : i < 8) (hj : j < 8192) (hb : (s.maps sb).imap i = some b)
    (hs : s'.maps = Function.update s.maps sb { s.maps sb with imap := Function.update (s.maps sb).imap i (some (b.put j v)) }) :
    ImapPut s sb (8192 * i + j) v s' := by
  refine ⟨fun k => ?_, ?_, fun t ht => ?_⟩
  · rw [hs, Function.update_self]
    exact bitAt_put hi hj hb k
  · rw [hs, Function.update_self]
  · rw [hs, Function.update_of_ne ht]

/-- The inode may be handed out. -/
def InodeClear (s : Bits) (sb : Fin 8) (n : ℕ) : Prop :=
  1 ≤ n ∧ n ≤ (s.kern.super sb).ninodes ∧ bitAt (s.maps sb).imap n = false

/-- The smallest free inode is taken; or NULL is returned, there is none, and the maps are as before. -/
def TakesInode (s : Bits) (d : ℕ) (sb : Fin 8) : Out Bits Halted (Option (Fin 32)) → Prop
  | .ok none s' => (∀ n, ¬ InodeClear s sb n) ∧ s'.maps = s.maps
  | .ok (some i) s' => (s'.kern.inode i).dev = d ∧ InodeClear s sb (s'.kern.inode i).num ∧
      (∀ n < (s'.kern.inode i).num, ¬ InodeClear s sb n) ∧ ImapPut s sb (s'.kern.inode i).num true s'
  | _ => False

theorem writeInode_super {t t' : Kern} {i : Fin 32} (h : writeInode i t = .ok () t') : t'.super = t.super := by
  unfold writeInode at h
  rw [Prog.bind_run (Prog.get_run t)] at h
  dsimp only at h
  split_ifs at h
  · cases h; rfl
  · obtain ⟨r, t₁, hget, h⟩ := Prog.bind_ok h
    obtain ⟨r', hr⟩ : ∃ r', (.ok r' t : Out Kern Halted (Option (Fin 8))) = .ok r t₁ := ⟨_, hget⟩
    cases hr
    cases r with
    | none => cases h
    | some k => cases h; rfl

/-- The empty inode, and the super blocks as before. -/
theorem getEmptyInode_ok {t t' : Kern} {i : Fin 32} (h : getEmptyInode t = .ok i t') :
    t'.inode i = { MInode.zero with count := 1 } ∧ t'.super = t.super := by
  unfold getEmptyInode at h
  rw [Prog.bind_run (Prog.get_run t)] at h
  obtain ⟨_, t₁, hmod, h⟩ := Prog.bind_ok h
  cases hmod
  cases hr : (scanEmpty t 32 t.lastInode none).1 with
  | none => rw [hr] at h; cases h
  | some e =>
    rw [hr] at h
    obtain ⟨_, t₂, hwrite, h⟩ := Prog.bind_ok h
    rw [Prog.bind_run (Prog.get_run t₂)] at h
    split_ifs at h
    · cases h
    · obtain ⟨_, t₃, hmod, h⟩ := Prog.bind_ok h
      cases hmod
      cases h
      have hsuper := writeInode_super hwrite
      exact ⟨Function.update_self .., hsuper⟩

theorem getSuper_congr {t t' : Kern} (h : t'.super = t.super) {r : Option (Fin 8)} (hr : getSuper d t = .ok r t) :
    getSuper d t' = .ok r t' := by
  unfold getSuper at hr ⊢
  rw [Prog.bind_run (Prog.get_run t)] at hr
  rw [Prog.bind_run (Prog.get_run t'), h]
  cases hr
  rfl

/-- The inode that is given back is one without a device. -/
theorem iput_empty {t : Kern} {i : Fin 32} (h : t.inode i = { MInode.zero with count := 1 }) :
    ∃ t', iput (some i) t = .ok () t' := by
  unfold iput
  dsimp only
  rw [Prog.bind_run (Prog.get_run t), h]
  exact ⟨_, rfl⟩

/-- `new_inode` does what it should if and only if `get_empty_inode` finds an inode. -/
theorem newInode_takes (hk : SuperOf s d sb) (h0 : bitAt (s.maps sb).imap 0 = true) :
    TakesInode s d sb (newInode d s) ↔ ∃ i t, getEmptyInode s.kern = .ok i t := by
  unfold newInode
  cases hget : getEmptyInode s.kern with
  | fault t =>
    rw [Prog.bind_fault (show core getEmptyInode s = .fault { s with kern := t } by unfold core; rw [hget])]
    exact iff_of_false id nofun
  | stop e =>
    rw [Prog.bind_stop (show core getEmptyInode s = .stop e by unfold core; rw [hget])]
    exact iff_of_false id nofun
  | ok i t =>
    obtain ⟨hempty, hsuper⟩ := getEmptyInode_ok hget
    refine iff_of_true ?_ ⟨i, t, rfl⟩
    have hk' : SuperOf { s with kern := t } d sb := getSuper_congr hsuper hk
    rw [Prog.bind_run (show core getEmptyInode s = .ok i { s with kern := t } by unfold core; rw [hget]), Prog.bind_run hk'.run]
    dsimp only
    rw [Prog.bind_run (Prog.get_run _)]
    dsimp only
    obtain ⟨t', hput⟩ := iput_empty hempty
    have hback : (do
        core (iput (some i))
        return none : B (Option (Fin 32))) { s with kern := t } = .ok none { s with kern := t' } := by
      rw [Prog.bind_run (show core (iput (some i)) { s with kern := t } = .ok () { s with kern := t' } by unfold core; rw [hput])]
      rfl
    have hnone : ∀ n, InodeClear s sb n → n ≤ (t.super sb).ninodes ∧ bitAt (s.maps sb).imap n = false := fun n hn => by
      rw [hsuper]
      exact hn.2
    obtain ⟨hs, hall⟩ | ⟨n, j, b, hs, hi, hj, hb, hbit, hfirst⟩ := searchMaps_cases (s.maps sb).imap
    · rw [hs]
      dsimp only
      rw [hback]
      exact ⟨fun n hn => absurd hn.2.2 (by rw [hall]; exact Bool.true_eq_false.mp), rfl⟩
    · rw [hs]
      dsimp only
      have hbit0 : 8192 * n + j ≠ 0 := ne_zero_of_clear h0 hfirst.1
      have hnum : j + n * 8192 = 8192 * n + j := by omega
      split_ifs with hrange
      · rw [hback]
        refine ⟨fun k hk => ?_, rfl⟩
        have hle := (hnone k hk).1
        exact absurd hk.2.2 (by rw [hfirst.2 k (by omega)]; exact Bool.true_eq_false.mp)
      · rw [hb]
        dsimp only
        rw [hbit, if_neg Bool.false_ne_true, hnum]
        have hput : ImapPut s sb (8192 * n + j) true { s with maps := Function.update s.maps sb { s.maps sb with
            imap := Function.update (s.maps sb).imap n (some (b.put j true)) } } := imapPut hi hj hb rfl
        obtain ⟨s', hrun, hdev, hnum', hmaps⟩ : ∃ s', (do
            setImap sb n (b.put j true)
            core (modInode i fun x => { x with
              count := 1, nlinks := 1, dev := d, uid := t.cur.euid, gid := t.cur.egid, dirt := true, num := 8192 * n + j })
            return some i : B (Option (Fin 32))) { s with kern := t } = .ok (some i) s' ∧ (s'.kern.inode i).dev = d ∧
            (s'.kern.inode i).num = 8192 * n + j ∧ s'.maps = Function.update s.maps sb { s.maps sb with
              imap := Function.update (s.maps sb).imap n (some (b.put j true)) } :=
          ⟨_, rfl, by rw [t.setInode_self], by rw [t.setInode_self], rfl⟩
        rw [hrun]
        refine ⟨hdev, ?_, fun k hk hc => ?_, ?_⟩
        · rw [hnum', InodeClear, ← hsuper]
          exact ⟨by omega, by omega, hfirst.1⟩
        · exact absurd hc.2.2 (by rw [hfirst.2 k (by omega)]; exact Bool.true_eq_false.mp)
        · rw [hnum']
          exact imapPut hi hj hb hmaps

theorem SuperOf.dev_ne_zero (h : SuperOf s d sb) : d ≠ 0 := by
  rintro rfl
  unfold SuperOf getSuper at h
  rw [Prog.bind_run (Prog.get_run s.kern)] at h
  cases h

/-- `free_inode` of an allocated inode gives back the bits as they were. -/
theorem freeInode_restores {i : Fin 32} (hk : SuperOf s (s.kern.inode i).dev sb) {old : ℕ → Bool}
    (h1 : 1 ≤ (s.kern.inode i).num) (h2 : (s.kern.inode i).num ≤ (s.kern.super sb).ninodes) (hcount : (s.kern.inode i).count ≤ 1)
    (hlinks : (s.kern.inode i).nlinks = 0) (hcov : Covered (s.maps sb).imap (s.kern.inode i).num)
    (ht : Taken (s.maps sb).imap old (s.kern.inode i).num) :
    ∃ s', freeInode i s = .ok () s' ∧ (∀ k, bitAt (s'.maps sb).imap k = old k) ∧
      (s'.maps sb).zmap = (s.maps sb).zmap ∧ ∀ t, t ≠ sb → s'.maps t = s.maps t := by
  obtain ⟨n, hn⟩ : ∃ n, n = (s.kern.inode i).num := ⟨_, rfl⟩
  rw [← hn] at h1 h2 hcov ht
  obtain ⟨hlt, hsome⟩ := hcov
  obtain ⟨b, hb⟩ := Option.isSome_iff_exists.mp hsome
  have hblock : 8192 * (n / 8192) + n % 8192 = n := by omega
  have hput : ImapPut s sb (8192 * (n / 8192) + n % 8192) false { s with maps := Function.update s.maps sb { s.maps sb with
      imap := Function.update (s.maps sb).imap (n / 8192) (some (b.put (n % 8192) false)) } } :=
    imapPut (by omega) (Nat.mod_lt _ (by decide)) hb rfl
  unfold freeInode
  rw [Prog.bind_run (Prog.get_run s), if_neg hk.dev_ne_zero, if_neg (by omega), if_neg (not_not.mpr hlinks), Prog.bind_run hk.run]
  dsimp only
  rw [← hn, if_neg (by omega), if_pos (by omega), hb]
  refine ⟨_, rfl, fun k => ?_, hput.zmap, hput.rest⟩
  refine (hput.imap k).trans ?_
  rw [hblock, ht.2]
  by_cases hkn : k = n
  · rw [if_pos hkn, hkn, ht.1]
  · rw [if_neg hkn, if_neg hkn]

/-! ## The allocators -/

/-- A loaded super block: `read_super` has set bit 0 of both maps, and these cover all zones and inodes. -/
structure Loaded (s : Bits) (sb : Fin 8) : Prop where
  zmapZero : bitAt (s.maps sb).zmap 0 = true
  imapZero : bitAt (s.maps sb).imap 0 = true
  zones : ∀ z, (s.kern.super sb).firstdatazone ≤ z → z < (s.kern.super sb).nzones → Covered (s.maps sb).zmap (zoneBit s sb z)
  inodes : ∀ n, 1 ≤ n → n ≤ (s.kern.super sb).ninodes → Covered (s.maps sb).imap n

/-- With a super block loaded, whatever the maps hold: `new_block` takes the smallest free zone, or returns 0
    and leaves the maps, just if the first clear bit is that of a zone and its buffer is not in use.
    `new_inode` takes the smallest free inode, or returns NULL and leaves the maps, just if there is an
    empty inode. `free_block` of an allocated zone restores the bits just if its buffer is not in use, and
    `free_inode` of an allocated inode that is not in use always. -/
theorem bitmap_allocators (s : Bits) (d : ℕ) (sb : Fin 8) (hk : SuperOf s d sb) (hl : Loaded s sb) :
    (∀ victim, TakesZone s d sb (newBlock victim d s) ↔ ∀ n, FirstClear (s.maps sb).zmap n →
      n + (s.kern.super sb).firstdatazone - 1 < (s.kern.super sb).nzones ∧ n + (s.kern.super sb).firstdatazone - 1 ≠ 0 ∧
      Unused s victim d (n + (s.kern.super sb).firstdatazone - 1)) ∧
    (TakesInode s d sb (newInode d s) ↔ ∃ i t, getEmptyInode s.kern = .ok i t) ∧
    (∀ z old, (s.kern.super sb).firstdatazone ≤ z → z < (s.kern.super sb).nzones → Taken (s.maps sb).zmap old (zoneBit s sb z) →
      ((∃ s', freeBlock d z s = .ok () s' ∧ (∀ k, bitAt (s'.maps sb).zmap k = old k) ∧
        (s'.maps sb).imap = (s.maps sb).imap ∧ ∀ t, t ≠ sb → s'.maps t = s.maps t) ↔
      ∀ h, s.head d z = some h → h.count = 0)) ∧
    ∀ i old, (s.kern.inode i).dev = d → 1 ≤ (s.kern.inode i).num → (s.kern.inode i).num ≤ (s.kern.super sb).ninodes →
      (s.kern.inode i).count ≤ 1 → (s.kern.inode i).nlinks = 0 → Taken (s.maps sb).imap old (s.kern.inode i).num →
      ∃ s', freeInode i s = .ok () s' ∧ (∀ k, bitAt (s'.maps sb).imap k = old k) ∧
        (s'.maps sb).zmap = (s.maps sb).zmap ∧ ∀ t, t ≠ sb → s'.maps t = s.maps t := by
  refine ⟨fun victim => newBlock_takes hk hl.zmapZero, newInode_takes hk hl.imapZero,
    fun z old h1 h2 ht => freeBlock_restores hk h1 h2 (hl.zones z h1 h2) ht, fun i old hd h1 h2 hcount hlinks ht => ?_⟩
  exact freeInode_restores (hd.symm ▸ hk) h1 h2 hcount hlinks (hl.inodes _ h1 h2) ht

/-! ## A clear bit behind the last zone -/

/-- A map block with its first two bits set. -/
def twoBits : MapBuf := ⟨fun k => if k = 0 then 3#32 else 0#32, false⟩

/-- A device of `nzones` zones with data from zone 5 on and one block in each map: zone 5 and inode 1 are
    taken, and there is a spare buffer. -/
def oneBlockMaps (nzones : ℕ) : Bits where
  kern :=
    { inode := fun _ => MInode.zero
      lastInode := 0
      super := fun k => if k = 0 then ⟨⟨1, nzones, 1, 1, 5, 0x137F⟩, 769, none, none⟩ else ⟨⟨0, 0, 0, 0, 0, 0⟩, 0, none, none⟩
      file := fun _ => ⟨0, 0, 0, none, 0⟩
      task := fun _ => Task.none
      disk := fun _ => ⟨⟨1, nzones, 1, 1, 5, 0x137F⟩, fun _ => true, fun _ => true, fun _ => MInode.zero.toDInode, fun _ => Block.zero⟩
      bcount := fun _ _ => 0
      rootDev := 769
      current := 0
      env := ⟨none, false, true⟩ }
  maps _ := ⟨fun i => if i = 0 then some twoBits else none, fun i => if i = 0 then some twoBits else none⟩
  head d b := if d = 0 ∧ b = 0 then some ⟨0, false, false, Block.zero⟩ else none

theorem superOf_oneBlockMaps (nzones : ℕ) : SuperOf (oneBlockMaps nzones) 769 0 := by
  have hfind : ((List.finRange 8).find? fun k => ((oneBlockMaps nzones).kern.super k).dev = 769) = some 0 := by
    rw [List.finRange_succ, List.find?_cons_of_pos]
    rfl
  unfold SuperOf getSuper
  rw [Prog.bind_run (Prog.get_run _), hfind]
  rfl

theorem firstClear_twoBits : FirstClear (fun i => if i = 0 then some twoBits else none) 2 := by
  refine ⟨by decide, fun k hk => ?_⟩
  obtain rfl | rfl : k = 0 ∨ k = 1 := by omega
  · decide
  · decide

theorem loaded_oneBlockMaps {nzones : ℕ} (h : nzones < 8000) : Loaded (oneBlockMaps nzones) 0 := by
  have hcov : ∀ n < 8192, Covered (fun i => if i = 0 then some twoBits else none) n := fun n hn =>
    ⟨by omega, by rw [Nat.div_eq_of_lt hn]; rfl⟩
  refine ⟨firstClear_twoBits.2 0 (by decide), firstClear_twoBits.2 0 (by decide), fun z _ hz => hcov _ ?_,
    fun n _ hn => hcov n ?_⟩
  · have hz : z < nzones := hz
    have hle : zoneBit (oneBlockMaps nzones) 0 z ≤ z + 1 := Nat.sub_le ..
    omega
  · have hn : n ≤ 1 := hn
    omega

/-- Zone 6 is free, and is taken. -/
theorem bitmap_allocators_zone : TakesZone (oneBlockMaps 7) 769 0 (newBlock (0, 0) 769 (oneBlockMaps 7)) := by
  refine ((bitmap_allocators (oneBlockMaps 7) 769 0 (superOf_oneBlockMaps 7) (loaded_oneBlockMaps (by decide))).1 (0, 0)).mpr ?_
  intro n hn
  obtain rfl : n = 2 := hn.unique firstClear_twoBits
  exact ⟨by decide, by decide, ⟨0, false, false, Block.zero⟩, rfl, rfl⟩

/-- The only zone is taken. `new_block` returns 0, and has set bit 2. -/
theorem new_block_changes_full_map : SuperOf (oneBlockMaps 6) 769 0 ∧ Loaded (oneBlockMaps 6) 0 ∧
    (∀ z, ¬ ZoneClear (oneBlockMaps 6) 0 z) ∧ ∃ s', newBlock (0, 0) 769 (oneBlockMaps 6) = .ok 0 s' ∧
      bitAt ((oneBlockMaps 6).maps 0).zmap 2 = false ∧ bitAt (s'.maps 0).zmap 2 = true := by
  refine ⟨superOf_oneBlockMaps 6, loaded_oneBlockMaps (by decide), fun z hz => ?_, _, rfl, by decide, by decide⟩
  obtain ⟨h1, h2, h3⟩ := hz
  have h1 : 5 ≤ z := h1
  have h2 : z < 6 := h2
  obtain rfl : z = 5 := by omega
  exact absurd h3 (by decide)

end Linux011.Fs.Bitmap
