/-
  `strtok` (include/string.h). Between the calls only `___strtok` is kept. The delimiters may overlap
  the string: then they are its end.
-/
import Linux011.Kernel.StringOps
import Linux011.Lib.Segments
import Mathlib.Logic.Function.Basic
import Mathlib.Order.Basic

namespace Linux011.Kernel

open Linux011.Lib

namespace StringOps

/-- The loops at 2 and 3: on while the flag of the scan is `go`. The result is esi, and whether the NUL
    was read. -/
def scanLoop (mem : Bytes32) (ct edx : BitVec 32) (go : Bool) : ℕ → BitVec 32 → Option (BitVec 32 × Bool)
  | 0, _ => none
  | fuel + 1, esi => do
    let al ← mem esi
    let esi := esi + 1
    if al = 0 then some (esi, true)
    else do
      let (_, _, zf) ← repneScasb mem al edx.toNat ct false
      if zf = go then scanLoop mem ct edx go fuel esi else some (esi, false)

/-- Label 7: ebx and `___strtok` -/
def finish (ebx esi : BitVec 32) (mem : Bytes32) : BitVec 32 × BitVec 32 × Bytes32 := (ebx, if ebx ≠ 0 then esi else ebx, mem)

end StringOps

open StringOps

/-- The result, `___strtok` and the memory. -/
def strtok (mem : Bytes32) (saved s ct : BitVec 32) (fuel : ℕ) : Option (BitVec 32 × BitVec 32 × Bytes32) :=
  if s = 0 ∧ saved = 0 then some (saved, s, mem)
  else do
    let esi := if s ≠ 0 then s else saved
    let edx ← scanLength mem ct
    if edx = 0 then some (finish 0 esi mem)
    else do
      let (esi, nul) ← scanLoop mem ct edx true fuel esi
      if nul then some (finish 0 esi mem)
      else do
        let esi := esi - 1
        let b ← mem esi
        if b = 0 then some (finish 0 esi mem)
        else do
          let ebx := esi
          let (esi, nul) ← scanLoop mem ct edx false fuel esi
          let (esi, mem) ← (
            if nul then some (0, mem)
            else do
              let esi := esi - 1
              let b ← mem esi
              if b = 0 then some (0, mem) else some (esi + 1, Function.update mem esi (some 0)))
          let b ← mem ebx
          some (finish (if b ≠ 0 then ebx else 0) esi mem)

/-- Calls with `s` first and with NULL then: the results, `___strtok` and the memory. -/
def strtokCalls (ct : BitVec 32) (fuel : ℕ) : ℕ → Bytes32 → BitVec 32 → BitVec 32 → Option (List (BitVec 32) × BitVec 32 × Bytes32)
  | 0, mem, saved, _ => some ([], saved, mem)
  | calls + 1, mem, saved, s => do
    let (r, saved, mem) ← strtok mem saved s ct fuel
    let (rs, saved, mem) ← strtokCalls ct fuel calls mem saved 0
    some (r :: rs, saved, mem)

variable {mem : Bytes32} {s ct p : BitVec 32} {f g : ℕ → UInt8} {n m i k fuel : ℕ}

/-- The byte is one of the delimiters. -/
def IsDelim (g : ℕ → UInt8) (m : ℕ) (c : UInt8) : Prop := ∃ j < m, g j = c

instance (g : ℕ → UInt8) (m : ℕ) (c : UInt8) : Decidable (IsDelim g m c) := inferInstanceAs (Decidable (∃ j < m, g j = c))

/-! ## One call -/

theorem repneScasb_delims (hct : Str mem ct g m) (hm : 0 < m) (al : UInt8) (zf : Bool) :
    ∃ ecx edi, repneScasb mem al m ct zf = some (ecx, edi, decide (IsDelim g m al)) := by
  by_cases h : IsDelim g m al
  · obtain ⟨hlt, hal⟩ := Nat.find_spec h
    rw [decide_eq_true h]
    refine ⟨_, _, repneScasb_found (fun i hi => ⟨g i, hct.byte i (Nat.lt_trans hi hlt), fun he => ?_⟩) ?_ hlt⟩
    · exact Nat.find_min h hi ⟨Nat.lt_trans hi hlt, he⟩
    · rw [hct.byte _ hlt, hal]
  · rw [decide_eq_false h]
    exact ⟨_, _, repneScasb_none (fun i hi => ⟨g i, hct.byte i hi, fun he => h ⟨i, hi, he⟩⟩) hm⟩

theorem scanLoop_eq (hs : Str mem p f n) (hct : Str mem ct g m) (hm : 0 < m) (go : Bool) (hik : i ≤ k) (hk : k ≤ n)
    (hgo : ∀ j, i ≤ j → j < k → decide (IsDelim g m (f j)) = go) (hstop : k = n ∨ decide (IsDelim g m (f k)) ≠ go) (hfuel : n < fuel + i) :
    scanLoop mem ct (BitVec.ofNat 32 m) go fuel (p + BitVec.ofNat 32 i) = some (p + BitVec.ofNat 32 (k + 1), decide (k = n)) := by
  have hlen : (BitVec.ofNat 32 m).toNat = m := by
    have := hct.lt
    rw [BitVec.toNat_ofNat]
    exact Nat.mod_eq_of_lt (by omega)
  induction fuel generalizing i with
  | zero => omega
  | succ fuel ih =>
    have hstep : scanLoop mem ct (BitVec.ofNat 32 m) go (fuel + 1) (p + BitVec.ofNat 32 i) = (mem (p + BitVec.ofNat 32 i)).bind fun al =>
        if al = 0 then some (p + BitVec.ofNat 32 i + 1, true)
        else (repneScasb mem al (BitVec.ofNat 32 m).toNat ct false).bind fun x =>
          if x.2.2 = go then scanLoop mem ct (BitVec.ofNat 32 m) go fuel (p + BitVec.ofNat 32 i + 1)
          else some (p + BitVec.ofNat 32 i + 1, false) := rfl
    rw [hstep, hlen, ofNat_succ]
    obtain rfl | hlt := Nat.eq_or_lt_of_le hik
    · obtain rfl | hin := Nat.eq_or_lt_of_le hk
      · rw [hs.nul, decide_eq_true rfl]
        rfl
      · obtain ⟨ecx, edi, hscan⟩ := repneScasb_delims hct hm (f i) false
        rw [hs.byte i hin, Option.bind_some, if_neg (hs.pos i hin), hscan, Option.bind_some,
          if_neg (hstop.resolve_left (by omega)), decide_eq_false (by omega)]
    · have hin : i < n := by omega
      obtain ⟨ecx, edi, hscan⟩ := repneScasb_delims hct hm (f i) false
      rw [hs.byte i hin, Option.bind_some, if_neg (hs.pos i hin), hscan, Option.bind_some, if_pos (hgo i le_rfl hlt)]
      exact ih hlt (fun j hj => hgo j (by omega)) (by omega)

theorem add_ne (h : i ≠ k) (hi : i < 2 ^ 32) (hk : k < 2 ^ 32) : p + BitVec.ofNat 32 i ≠ p + BitVec.ofNat 32 k := fun he => by
  have heq := congrArg BitVec.toNat (BitVec.add_right_inj p |>.mp he)
  rw [BitVec.toNat_ofNat, BitVec.toNat_ofNat, Nat.mod_eq_of_lt hi, Nat.mod_eq_of_lt hk] at heq
  exact h heq

section

variable {saved : BitVec 32}

/-- Where the call begins to read. -/
structure Current (saved s p : BitVec 32) : Prop where
  eq : (if s ≠ 0 then s else saved) = p
  ne : p ≠ 0

theorem Current.not_null (h : Current saved s p) : ¬ (s = 0 ∧ saved = 0) := fun hn => by
  have heq := h.eq
  rw [hn.1, hn.2] at heq
  exact h.ne (heq.symm.trans (ite_self 0))

theorem Str.ne_zero (h : Str mem p f n) : p ≠ 0 := fun h0 => h.null 0 (Nat.zero_le n) (by rw [h0]; rfl)

/-- `ct` became empty. -/
theorem strtok_empty (hcur : Current saved s p) (hct : Str mem ct g 0) : strtok mem saved s ct fuel = some (0, 0, mem) := by
  unfold strtok
  rw [if_neg hcur.not_null, scanLength_eq hct]
  rfl

/-- The call up to label 2. -/
theorem strtok_start (hcur : Current saved s p) (hct : Str mem ct g m) (hm : 0 < m) : strtok mem saved s ct fuel =
    (scanLoop mem ct (BitVec.ofNat 32 m) true fuel p).bind fun x =>
      if x.2 = true then some (finish 0 x.1 mem)
      else (mem (x.1 - 1)).bind fun b =>
        if b = 0 then some (finish 0 (x.1 - 1) mem)
        else (scanLoop mem ct (BitVec.ofNat 32 m) false fuel (x.1 - 1)).bind fun y =>
          ((if y.2 = true then some (0, mem)
            else (mem (y.1 - 1)).bind fun b =>
              if b = 0 then some (0, mem) else some (y.1 - 1 + 1, Function.update mem (y.1 - 1) (some 0))) :
            Option (BitVec 32 × Bytes32)).bind fun z =>
            (z.2 (x.1 - 1)).bind fun b => some (finish (if b ≠ 0 then x.1 - 1 else 0) z.1 z.2) := by
  have hne : BitVec.ofNat 32 m ≠ 0 := fun h => by
    have h0 := congrArg BitVec.toNat h
    rw [BitVec.toNat_ofNat] at h0
    have hlt := hct.lt
    change m % 2 ^ 32 = 0 at h0
    omega
  unfold strtok
  rw [if_neg hcur.not_null, scanLength_eq hct]
  refine (if_neg hne).trans ?_
  rw [hcur.eq]
  rfl

/-- Delimiters only: NULL. -/
theorem strtok_none (hcur : Current saved s p) (hs : Str mem p f n) (hct : Str mem ct g m) (hm : 0 < m) (hfuel : n < fuel)
    (hq : ∀ j < n, IsDelim g m (f j)) : strtok mem saved s ct fuel = some (0, 0, mem) := by
  have hscan := scanLoop_eq hs hct hm true (Nat.zero_le n) le_rfl (fun j _ hj => decide_eq_true (hq j hj)) (.inl rfl) hfuel
  rw [BitVec.add_zero] at hscan
  rw [strtok_start hcur hct hm, hscan, Option.bind_some, decide_eq_true rfl]
  rfl

/-- A token from `k` to `l`. -/
theorem strtok_token (k l fuel : ℕ) (hcur : Current saved s p) (hs : Str mem p f n) (hct : Str mem ct g m) (hm : 0 < m) (hfuel : n < fuel)
    (hkl : k < l) (hl : l ≤ n) (hskip : ∀ j < k, IsDelim g m (f j)) (hrun : ∀ j, k ≤ j → j < l → ¬ IsDelim g m (f j))
    (hstop : l = n ∨ IsDelim g m (f l)) : strtok mem saved s ct fuel =
      some (if l = n then (p + BitVec.ofNat 32 k, 0, mem)
        else (p + BitVec.ofNat 32 k, p + BitVec.ofNat 32 (l + 1), Function.update mem (p + BitVec.ofNat 32 l) (some 0))) := by
  have hkn : k < n := by omega
  have hback : ∀ j, p + BitVec.ofNat 32 (j + 1) - 1 = p + BitVec.ofNat 32 j := fun j => by
    rw [← ofNat_succ, BitVec.add_sub_cancel]
  have hscan₁ := scanLoop_eq hs hct hm true (Nat.zero_le k) hkn.le (fun j _ hj => decide_eq_true (hskip j hj))
    (.inr fun h => hrun k le_rfl hkl (of_decide_eq_true h)) hfuel
  have hscan₂ := scanLoop_eq hs hct hm false hkl.le hl (fun j hj hjl => decide_eq_false (hrun j hj hjl))
    (hstop.imp_right fun h hf => of_decide_eq_false hf h) (show n < fuel + k by omega)
  have hbyte := hs.byte k hkn
  have hpos := hs.pos k hkn
  have hnull := hs.null k hkn.le
  have hlt := hs.lt
  rw [BitVec.add_zero] at hscan₁
  rw [strtok_start hcur hct hm, hscan₁, Option.bind_some, decide_eq_false hkn.ne, if_neg Bool.false_ne_true]
  dsimp only
  rw [hback, hbyte, Option.bind_some, if_neg hpos, hscan₂, Option.bind_some]
  dsimp only
  by_cases hend : l = n
  · rw [decide_eq_true hend, if_pos rfl, Option.bind_some, if_pos hend]
    dsimp only
    rw [hbyte, Option.bind_some, if_pos hpos]
    unfold finish
    rw [if_pos hnull]
  · have hln : l < n := by omega
    rw [decide_eq_false hend, if_neg Bool.false_ne_true, if_neg hend, hback, hs.byte l hln, Option.bind_some, if_neg (hs.pos l hln),
      Option.bind_some]
    dsimp only
    rw [Function.update_of_ne (add_ne hkl.ne (by omega) (by omega)), hbyte, Option.bind_some, if_pos hpos, ofNat_succ]
    unfold finish
    rw [if_pos hnull]

end

/-! ## One call after the other -/

theorem Str.congr {mem' : Bytes32} (h : Str mem p f n) (hmem : ∀ i ≤ n, mem' (p + BitVec.ofNat 32 i) = mem (p + BitVec.ofNat 32 i)) :
    Str mem' p f n :=
  ⟨fun i hi => (hmem i hi.le).trans (h.byte i hi), h.pos, (hmem n le_rfl).trans h.nul, h.null⟩

/-- `s` is the string of the first call; `e` bytes of it are done. -/
structure Unread (s ct : BitVec 32) (f : ℕ → UInt8) (n : ℕ) (g : ℕ → UInt8) (m e : ℕ) (mem : Bytes32) (saved s₁ : BitVec 32) : Prop where
  cur : Current saved s₁ (s + BitVec.ofNat 32 e)
  le : e ≤ n
  str : Str mem (s + BitVec.ofNat 32 e) (fun j => f (e + j)) (n - e)
  delims : Str mem ct g m ∨ Str mem ct g 0 ∧ ∀ j, e ≤ j → j < n → IsDelim g m (f j)
  before : e = 0 ∨ IsDelim g m (f (e - 1))

section

variable {e l : ℕ}

theorem add_add_ofNat (s : BitVec 32) (h : e ≤ k) : s + BitVec.ofNat 32 e + BitVec.ofNat 32 (k - e) = s + BitVec.ofNat 32 k := by
  rw [BitVec.add_assoc, ← BitVec.ofNat_add, Nat.add_sub_cancel' h]

/-- A delimiter in the string becomes the end of a token. If it belongs to the delimiters it is the first
    of them, and only delimiters follow. -/
theorem cut (hn : n < 2 ^ 32) (hs : Str mem (s + BitVec.ofNat 32 e) (fun j => f (e + j)) (n - e)) (hct : Str mem ct g m)
    (hek : e ≤ k) (hkl : k < l) (hl : l < n) (hrun : ∀ j, k ≤ j → j < l → ¬ IsDelim g m (f j)) :
    let mem' := Function.update mem (s + BitVec.ofNat 32 l) (some 0)
    Str mem' (s + BitVec.ofNat 32 (l + 1)) (fun j => f (l + 1 + j)) (n - (l + 1)) ∧
    Str mem' (s + BitVec.ofNat 32 k) (fun j => f (k + j)) (l - k) ∧
    (Str mem' ct g m ∨ Str mem' ct g 0 ∧ ∀ j, l + 1 ≤ j → j < n → IsDelim g m (f j)) := by
  intro mem'
  have hdrop : ∀ i, e ≤ i → i ≤ n → Str mem (s + BitVec.ofNat 32 i) (fun j => f (i + j)) (n - i) := fun i hei hin => by
    have h := hs.drop (show i - e ≤ n - e by omega)
    have hfun : (fun j => f (e + (i - e + j))) = fun j => f (i + j) := by
      funext j
      rw [← Nat.add_assoc, Nat.add_sub_cancel' hei]
    rwa [add_add_ofNat s hei, hfun, show n - e - (i - e) = n - i by omega] at h
  have hother : ∀ j, j ≤ n → j ≠ l → mem' (s + BitVec.ofNat 32 j) = mem (s + BitVec.ofNat 32 j) := fun j hj hne =>
    Function.update_of_ne (add_ne hne (by omega) (by omega)) _ _
  refine ⟨(hdrop (l + 1) (by omega) hl).congr fun i hi => ?_, ?_, ?_⟩
  · rw [BitVec.add_assoc, ← BitVec.ofNat_add]
    exact hother _ (by omega) (by omega)
  · have hk := hdrop k hek (by omega)
    have hadd : ∀ j, s + BitVec.ofNat 32 k + BitVec.ofNat 32 j = s + BitVec.ofNat 32 (k + j) := fun j => by
      rw [BitVec.add_assoc, BitVec.ofNat_add]
    refine ⟨fun i hi => ?_, fun i hi => hk.pos i (by omega), ?_, fun i hi => hk.null i (by omega)⟩
    · rw [← hk.byte i (by omega), hadd]
      exact hother _ (by omega) (by omega)
    · rw [add_add_ofNat s hkl.le]
      exact Function.update_self ..
  · by_cases hin : ∃ j ≤ m, s + BitVec.ofNat 32 l = ct + BitVec.ofNat 32 j
    · obtain ⟨j, hj, heq⟩ := hin
      have hbyte : mem (s + BitVec.ofNat 32 l) = some (f l) := by
        have := (hdrop l (by omega) hl.le).byte 0 (by omega)
        rwa [BitVec.add_zero] at this
      have hpos : f l ≠ 0 := (hdrop l (by omega) hl.le).pos 0 (by omega)
      obtain rfl | hjm := Nat.eq_or_lt_of_le hj
      · rw [heq, hct.nul] at hbyte
        exact absurd (Option.some.inj hbyte).symm hpos
      obtain rfl : j = 0 := by
        by_contra hj0
        -- the byte before it would be a delimiter, but it is in the token
        have hlast : s + BitVec.ofNat 32 (l - 1) = ct + BitVec.ofNat 32 (j - 1) := by
          have h1 : s + BitVec.ofNat 32 (l - 1) + 1 = ct + BitVec.ofNat 32 (j - 1) + 1 := by
            rw [ofNat_succ, ofNat_succ, Nat.sub_add_cancel (by omega), Nat.sub_add_cancel (by omega), heq]
          exact BitVec.add_left_inj 1 |>.mp h1
        have hb := (hdrop (l - 1) (by omega) (by omega)).byte 0 (by omega)
        rw [BitVec.add_zero, hlast, hct.byte (j - 1) (by omega)] at hb
        exact hrun (l - 1) (by omega) (by omega) ⟨j - 1, by omega, Option.some.inj hb⟩
      have hct0 : ct = s + BitVec.ofNat 32 l := by rw [heq, BitVec.add_zero]
      refine .inr ⟨⟨fun i hi => absurd hi (Nat.not_lt_zero i), fun i hi => absurd hi (Nat.not_lt_zero i), ?_, fun i hi =>
        hct.null i (by omega)⟩, fun j hj hjn => ?_⟩
      · rw [BitVec.add_zero, hct0]
        exact Function.update_self ..
      · -- two strings at one place
        have hsame : ∀ i, i < n - l → i < m ∧ f (l + i) = g i := fun i hi => by
          induction i using Nat.strongRecOn with | ind i ih =>
          have hle : i ≤ m := by
            by_contra hlt
            exact absurd (ih m (by omega) (by omega)).1 (lt_irrefl m)
          have hb := (hdrop l (by omega) hl.le).byte i hi
          have hp := (hdrop l (by omega) hl.le).pos i hi
          rw [← hct0] at hb
          obtain rfl | hlt := Nat.eq_or_lt_of_le hle
          · rw [hct.nul] at hb
            exact absurd (Option.some.inj hb).symm hp
          · rw [hct.byte i hlt] at hb
            exact ⟨hlt, (Option.some.inj hb).symm⟩
        obtain ⟨hlt, hg⟩ := hsame (j - l) (by omega)
        rw [Nat.add_sub_cancel' (by omega)] at hg
        exact ⟨j - l, hlt, hg.symm⟩
    · refine .inl (hct.congr fun i hi => Function.update_of_ne (fun heq => hin ⟨i, hi, heq.symm⟩) _ _)

theorem strtokCalls_last {saved s₁ r : BitVec 32} (h : strtok mem saved s₁ ct fuel = some (r, 0, mem)) (calls : ℕ) :
    strtokCalls ct fuel (calls + 1) mem saved s₁ = some (r :: List.replicate calls 0, 0, mem) := by
  have hnull : ∀ calls, strtokCalls ct fuel calls mem 0 0 = some (List.replicate calls 0, 0, mem) := fun calls => by
    induction calls with
    | zero => rfl
    | succ calls ih =>
      unfold strtokCalls
      rw [show strtok mem 0 0 ct fuel = some (0, 0, mem) from if_pos ⟨rfl, rfl⟩]
      change (strtokCalls ct fuel calls mem 0 0).bind _ = _
      rw [ih]
      rfl
  unfold strtokCalls
  rw [h]
  change (strtokCalls ct fuel calls mem 0 0).bind _ = _
  rw [hnull]
  rfl

/-- What the calls give from here on: the tokens `ps` behind `e`, each with its NUL, and then NULL; only
    delimiters are written. -/
structure Tokens (s ct : BitVec 32) (f : ℕ → UInt8) (n : ℕ) (g : ℕ → UInt8) (m fuel e : ℕ) (mem : Bytes32) (saved s₁ : BitVec 32)
    (ps : List (ℕ × ℕ)) : Prop where
  order : ps.Pairwise fun x y => x.1 < y.1
  mem_iff : ∀ i k, (i, k) ∈ ps ↔ IsSegment (fun j => IsDelim g m (f j)) n i k ∧ e ≤ i
  calls : ∀ calls, ∃ saved' mem', strtokCalls ct fuel calls mem saved s₁ =
      some ((ps.map (fun x : ℕ × ℕ => s + BitVec.ofNat 32 x.1) ++ List.replicate calls 0).take calls, saved', mem') ∧
    (∀ x ∈ ps.take calls, Str mem' (s + BitVec.ofNat 32 x.1) (fun j => f (x.1 + j)) x.2) ∧
    ∀ a, mem' a ≠ mem a → ∃ j, e ≤ j ∧ j < n ∧ IsDelim g m (f j) ∧ a = s + BitVec.ofNat 32 j

variable {saved s₁ : BitVec 32}

theorem take_append_replicate {α : Type} (l : List α) (a : α) (c : ℕ) :
    (l ++ List.replicate (c + 1) a).take c = (l ++ List.replicate c a).take c := by
  rw [List.replicate_succ', ← List.append_assoc, List.take_append_of_le_length]
  rw [List.length_append, List.length_replicate]
  exact Nat.le_add_left ..

/-- Nothing is left. -/
theorem Tokens.nil (h : strtok mem saved s₁ ct fuel = some (0, 0, mem)) (hq : ∀ j, e ≤ j → j < n → IsDelim g m (f j)) :
    Tokens s ct f n g m fuel e mem saved s₁ [] := by
  refine ⟨List.Pairwise.nil, fun i k => ⟨fun h => absurd h List.not_mem_nil, fun h => ?_⟩, fun calls => ?_⟩
  · have := h.1.lt_of_delimiters hq
    omega
  · cases calls with
    | zero => exact ⟨saved, mem, rfl, fun x hx => absurd hx List.not_mem_nil, fun a ha => absurd rfl ha⟩
    | succ calls =>
      refine ⟨0, mem, ?_, fun x hx => absurd hx List.not_mem_nil, fun a ha => absurd rfl ha⟩
      rw [strtokCalls_last h, List.map_nil, List.nil_append, List.take_of_length_le List.length_replicate.le]
      rfl

theorem Unread.tokens (hn : n < 2 ^ 32) (hm : 0 < m) (hfuel : n < fuel) (h : Unread s ct f n g m e mem saved s₁) :
    ∃ ps, Tokens s ct f n g m fuel e mem saved s₁ ps := by
  obtain ⟨d, hd⟩ : ∃ d, d = n - e := ⟨_, rfl⟩
  induction d using Nat.strongRecOn generalizing e mem saved s₁ with | ind d ih =>
  obtain hct | ⟨hct, hq⟩ := h.delims
  · obtain ⟨k, hek, hk, hskip, hstop⟩ := exists_stop (fun j => ¬ IsDelim g m (f j)) h.le
    replace hskip : ∀ j, e ≤ j → j < k → IsDelim g m (f j) := fun j hj hjk => not_not.mp (hskip j hj hjk)
    have hskip' : ∀ j < k - e, IsDelim g m (f (e + j)) := fun j hj => hskip _ (by omega) (by omega)
    obtain rfl | hkn := Nat.eq_or_lt_of_le hk
    · exact ⟨[], .nil (strtok_none h.cur h.str hct hm (by omega) hskip') hskip⟩
    replace hstop := hstop.resolve_left (by omega)
    obtain ⟨l, hkl, hl, hrun, hstop'⟩ := exists_stop (fun j => IsDelim g m (f j)) hk
    replace hkl : k < l := by
      obtain rfl | hlt := Nat.eq_or_lt_of_le hkl
      · exact absurd (hstop'.resolve_left (by omega)) hstop
      · exact hlt
    obtain ⟨hseg, hnext⟩ := isSegment_scan h.before hek hkl hl hskip hrun hstop'
    have htoken := strtok_token (k - e) (l - e) fuel h.cur h.str hct hm (by omega) (by omega) (by omega) hskip'
      (fun j hj hjl => hrun _ (by omega) (by omega))
      (hstop'.imp (fun hln => by rw [hln]) fun hq => by rwa [Nat.add_sub_cancel' (by omega)])
    rw [show l - e + 1 = l + 1 - e by omega, add_add_ofNat s hek, add_add_ofNat s (by omega), add_add_ofNat s (by omega)] at htoken
    by_cases hend : l = n
    · rw [if_pos (by rw [hend])] at htoken
      refine ⟨[(k, l - k)], List.pairwise_singleton .., fun i j => ?_, fun calls => ?_⟩
      · rw [List.mem_singleton, Prod.mk.injEq]
        refine ⟨fun he => by rw [he.1, he.2]; exact ⟨hseg, hek⟩, fun hi => (hnext hi.1 hi.2).resolve_right fun hlt => ?_⟩
        have h1 := hi.1.pos
        have h2 := hi.1.le
        omega
      · cases calls with
        | zero => exact ⟨saved, mem, rfl, fun x hx => absurd hx List.not_mem_nil, fun a ha => absurd rfl ha⟩
        | succ calls =>
          refine ⟨0, mem, ?_, fun x hx => ?_, fun a ha => absurd rfl ha⟩
          · rw [strtokCalls_last htoken, List.map_singleton, List.singleton_append, List.take_succ_cons,
              ← List.nil_append (List.replicate (calls + 1) 0), take_append_replicate, List.nil_append,
              List.take_of_length_le List.length_replicate.le]
          · obtain rfl := List.mem_singleton.mp (List.mem_of_mem_take hx)
            have hdrop := h.str.drop (show k - e ≤ n - e by omega)
            have hfun : (fun j => f (e + (k - e + j))) = fun j => f (k + j) := by
              funext j
              rw [← Nat.add_assoc, Nat.add_sub_cancel' hek]
            rwa [add_add_ofNat s hek, hfun, show n - e - (k - e) = l - k by omega] at hdrop
    · have hln : l < n := by omega
      have hql : IsDelim g m (f l) := hstop'.resolve_left hend
      obtain ⟨hrest, htok, hdelims⟩ := cut hn h.str hct hek hkl hln hrun
      rw [if_neg (by omega)] at htoken
      have hunread : Unread s ct f n g m (l + 1) (Function.update mem (s + BitVec.ofNat 32 l) (some 0)) (s + BitVec.ofNat 32 (l + 1)) 0 :=
        ⟨⟨if_neg (not_not.mpr rfl), hrest.ne_zero⟩, hln, hrest, hdelims, .inr hql⟩
      obtain ⟨ps, hps⟩ := ih (n - (l + 1)) (by omega) hunread rfl
      refine ⟨(k, l - k) :: ps, List.pairwise_cons.mpr ⟨fun x hx => ?_, hps.order⟩, fun i j => ?_, fun calls => ?_⟩
      · have := ((hps.mem_iff x.1 x.2).mp hx).2
        change k < x.1
        omega
      · rw [List.mem_cons, Prod.mk.injEq, hps.mem_iff]
        constructor
        · rintro (⟨rfl, rfl⟩ | ⟨hi, hle⟩)
          · exact ⟨hseg, hek⟩
          · exact ⟨hi, by omega⟩
        · rintro ⟨hi, hle⟩
          exact (hnext hi hle).imp id fun hlt => ⟨hi, hlt⟩
      · cases calls with
        | zero => exact ⟨saved, mem, rfl, fun x hx => absurd hx List.not_mem_nil, fun a ha => absurd rfl ha⟩
        | succ calls =>
          obtain ⟨saved', mem', hcalls, hstrs, hframe⟩ := hps.calls calls
          refine ⟨saved', mem', ?_, fun x hx => ?_, fun a ha => ?_⟩
          · unfold strtokCalls
            rw [htoken]
            change (strtokCalls ct fuel calls _ _ 0).bind _ = _
            rw [hcalls, List.map_cons, List.cons_append, List.take_succ_cons, take_append_replicate]
            rfl
          · obtain rfl | hx := List.mem_cons.mp hx
            · refine htok.congr fun i hi => ?_
              by_contra hne
              obtain ⟨j, hj, hjn, -, heq⟩ := hframe _ hne
              change i ≤ l - k at hi
              change s + BitVec.ofNat 32 k + BitVec.ofNat 32 i = _ at heq
              rw [BitVec.add_assoc, ← BitVec.ofNat_add] at heq
              exact add_ne (show k + i ≠ j by omega) (by omega) (by omega) heq
            · exact hstrs x hx
          · by_cases hmem : mem' a = Function.update mem (s + BitVec.ofNat 32 l) (some 0) a
            · refine ⟨l, by omega, hln, hql, ?_⟩
              by_contra hne
              rw [hmem, Function.update_of_ne hne] at ha
              exact ha rfl
            · obtain ⟨j, hj, hjn, hqj, heq⟩ := hframe a hmem
              exact ⟨j, by omega, hjn, hqj, heq⟩
  · exact ⟨[], .nil (strtok_empty h.cur hct) hq⟩

end

/-- The calls give the maximal runs of bytes that are no delimiters, in order, each one ended by a NUL in
    its place, and NULL from then on. Nothing but delimiters of the string is written, and in every memory
    that has the bytes of the two strings no other byte is missed. -/
theorem strtok_tokens {mem : Bytes32} {s ct : BitVec 32} {f g : ℕ → UInt8} {n m : ℕ} (hs : Str mem s f n) (hct : Str mem ct g m) (hm : 0 < m)
    (saved : BitVec 32) : ∃ ps : List (ℕ × ℕ), ps.Pairwise (fun x y => x.1 < y.1) ∧
      (∀ i k, (i, k) ∈ ps ↔ IsSegment (fun j => IsDelim g m (f j)) n i k) ∧
      ∀ calls, ∃ saved' mem', strtokCalls ct (n + 1) calls mem saved s =
          some ((ps.map (fun x : ℕ × ℕ => s + BitVec.ofNat 32 x.1) ++ List.replicate calls 0).take calls, saved', mem') ∧
        (∀ x ∈ ps.take calls, Str mem' (s + BitVec.ofNat 32 x.1) (fun j => f (x.1 + j)) x.2) ∧
        ∀ a, mem' a ≠ mem a → ∃ j < n, IsDelim g m (f j) ∧ a = s + BitVec.ofNat 32 j := by
  have hn := hs.lt
  have hfun : (fun j => f (0 + j)) = f := by
    funext j
    rw [Nat.zero_add]
  have hunread : Unread s ct f n g m 0 mem saved s :=
    ⟨⟨by rw [if_pos hs.ne_zero, BitVec.add_zero], by rw [BitVec.add_zero]; exact hs.ne_zero⟩, Nat.zero_le n,
      by rw [BitVec.add_zero, hfun]; exact hs, .inl hct, .inl rfl⟩
  obtain ⟨ps, hps⟩ := hunread.tokens (by omega) hm (Nat.lt_succ_self n)
  refine ⟨ps, hps.order, fun i k => (hps.mem_iff i k).trans ⟨fun h => h.1, fun h => ⟨h, Nat.zero_le i⟩⟩, fun calls => ?_⟩
  obtain ⟨saved', mem', hcalls, hstrs, hframe⟩ := hps.calls calls
  refine ⟨saved', mem', hcalls, hstrs, fun a ha => ?_⟩
  obtain ⟨j, -, hj, hq, heq⟩ := hframe a ha
  exact ⟨j, hj, hq, heq⟩

/-- "a,b" and ",", and nothing else. -/
def commaList : Bytes32 := fun a =>
  [((0x1000 : BitVec 32), (97 : UInt8)), (0x1001, 44), (0x1002, 98), (0x1003, 0), (0x2000, 44), (0x2001, 0)].lookup a

theorem strtok_tokens_list : ∃ ps : List (ℕ × ℕ), (0, 1) ∈ ps ∧ (2, 1) ∈ ps ∧ ∀ calls, ∃ saved' mem',
    strtokCalls 0x2000 4 calls commaList 0 0x1000 =
      some ((ps.map (fun x : ℕ × ℕ => 0x1000 + BitVec.ofNat 32 x.1) ++ List.replicate calls 0).take calls, saved', mem') := by
  have hs : Str commaList 0x1000 (fun i => [97, 44, 98].getD i 0) 3 := ⟨by decide, by decide, by decide, by decide⟩
  have hct : Str commaList 0x2000 (fun _ => 44) 1 := ⟨by decide, by decide, by decide, by decide⟩
  obtain ⟨ps, -, hmem, hcalls⟩ := strtok_tokens hs hct (by decide) 0
  refine ⟨ps, (hmem 0 1).mpr ⟨by decide, by decide, fun j _ hj => ?_, .inl rfl, .inr (by decide)⟩,
    (hmem 2 1).mpr ⟨by decide, by decide, fun j hj hlt => ?_, .inr (by decide), .inl rfl⟩, fun calls => ?_⟩
  · obtain rfl : j = 0 := by omega
    decide
  · obtain rfl : j = 2 := by omega
    decide
  · obtain ⟨saved', mem', h, -, -⟩ := hcalls calls
    exact ⟨saved', mem', h⟩

end Linux011.Kernel
