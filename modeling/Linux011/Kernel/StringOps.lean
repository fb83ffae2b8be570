/-
  The string instructions and `strstr` (include/string.h). Only the bytes of a program can be read:
  what is not there is `none`, and a result is `none` where a byte beside a string was looked at.
-/
import Linux011.Lib.Sizes
import Mathlib.Data.Nat.Find
import Mathlib.Tactic.Common

namespace Linux011.Kernel

abbrev Bytes32 : Type := BitVec 32 → Option UInt8

/-- A string of `n` bytes, and the NUL; nothing is at address 0. -/
structure Str (mem : Bytes32) (p : BitVec 32) (f : ℕ → UInt8) (n : ℕ) : Prop where
  byte : ∀ i < n, mem (p + BitVec.ofNat 32 i) = some (f i)
  pos : ∀ i < n, f i ≠ 0
  nul : mem (p + BitVec.ofNat 32 n) = some 0
  null : ∀ i ≤ n, p + BitVec.ofNat 32 i ≠ 0

namespace StringOps

/-- `repne scasb`: ecx, edi and the zero flag. -/
def repneScasb (mem : Bytes32) (al : UInt8) : ℕ → BitVec 32 → Bool → Option (ℕ × BitVec 32 × Bool)
  | 0, edi, zf => some (0, edi, zf)
  | ecx + 1, edi, _ => do
    let b ← mem edi
    if b = al then some (ecx, edi + 1, true) else repneScasb mem al ecx (edi + 1) false

/-- `repe cmpsb`: esi and the zero flag. -/
def repeCmpsb (mem : Bytes32) : ℕ → BitVec 32 → BitVec 32 → Bool → Option (BitVec 32 × Bool)
  | 0, esi, _, zf => some (esi, zf)
  | ecx + 1, esi, edi, _ => do
    let a ← mem esi
    let b ← mem edi
    if a = b then repeCmpsb mem ecx (esi + 1) (edi + 1) true else some (esi + 1, false)

/-- `repne scasb`, `notl %ecx`, `decl %ecx` with al = 0 and ecx = -1: the length of the string. -/
def scanLength (mem : Bytes32) (ct : BitVec 32) : Option (BitVec 32) := do
  let (ecx, _, _) ← repneScasb mem 0 0xffffffff ct false
  some (~~~ BitVec.ofNat 32 ecx - 1)

/-- From label 1 on, with the flags as they are there. -/
def strstrLoop (mem : Bytes32) (ct edx : BitVec 32) : ℕ → BitVec 32 → Bool → Option (BitVec 32)
  | 0, _, _ => none
  | fuel + 1, esi, zf => do
    let eax := esi
    let (esi, zf) ← repeCmpsb mem edx.toNat esi ct zf
    -- je 2f
    if zf then some eax
    else do
      let (eax, esi) := (esi, eax + 1)
      let b ← mem (eax - 1)
      if b ≠ 0 then strstrLoop mem ct edx fuel esi false else some 0

end StringOps

open StringOps

/-- The `decl` sets the zero flag for an empty `ct`. -/
def strstr (mem : Bytes32) (cs ct : BitVec 32) (fuel : ℕ) : Option (BitVec 32) := do
  let ecx ← scanLength mem ct
  strstrLoop mem ct ecx fuel cs (ecx == 0)

variable {mem : Bytes32} {p q : BitVec 32} {f g : ℕ → UInt8} {n m i k : ℕ}

theorem ofNat_succ (p : BitVec 32) (i : ℕ) : p + BitVec.ofNat 32 i + 1 = p + BitVec.ofNat 32 (i + 1) := by
  rw [BitVec.add_assoc, BitVec.ofNat_add]
  rfl

theorem succ_ofNat (p : BitVec 32) (i : ℕ) : p + 1 + BitVec.ofNat 32 i = p + BitVec.ofNat 32 (i + 1) := by
  rw [BitVec.add_assoc, BitVec.add_comm 1, ← BitVec.add_assoc, ofNat_succ]

/-- It is shorter than the memory. -/
theorem Str.lt (h : Str mem p f n) : n < 0xffffffff := by
  by_contra hn
  refine h.null ((2 ^ 32 - p.toNat) % 2 ^ 32) (by omega) ?_
  apply BitVec.eq_of_toNat_eq
  rw [BitVec.toNat_add, BitVec.toNat_ofNat]
  have hp := p.isLt
  change _ = 0
  omega

theorem Str.drop (h : Str mem p f n) (hi : i ≤ n) : Str mem (p + BitVec.ofNat 32 i) (fun j => f (i + j)) (n - i) := by
  have hadd : ∀ j, p + BitVec.ofNat 32 i + BitVec.ofNat 32 j = p + BitVec.ofNat 32 (i + j) := fun j => by
    rw [BitVec.add_assoc, BitVec.ofNat_add]
  refine ⟨fun j hj => ?_, fun j hj => h.pos _ (by omega), ?_, fun j hj => ?_⟩
  · rw [hadd]
    exact h.byte _ (by omega)
  · rw [hadd, Nat.add_sub_cancel' hi]
    exact h.nul
  · rw [hadd]
    exact h.null _ (by omega)

/-- The scan comes to the first `al`. -/
theorem repneScasb_found {al : UInt8} {ecx : ℕ} {zf : Bool} (hbyte : ∀ i < n, ∃ b, mem (p + BitVec.ofNat 32 i) = some b ∧ b ≠ al)
    (hal : mem (p + BitVec.ofNat 32 n) = some al) (hecx : n < ecx) :
    repneScasb mem al ecx p zf = some (ecx - (n + 1), p + BitVec.ofNat 32 (n + 1), true) := by
  induction n generalizing p ecx zf with
  | zero =>
    obtain ⟨ecx, rfl⟩ : ∃ k, ecx = k + 1 := ⟨ecx - 1, by omega⟩
    have hal' : mem p = some al := by
      rw [← hal]
      exact congrArg mem (BitVec.add_zero p).symm
    unfold repneScasb
    rw [hal']
    exact if_pos rfl
  | succ n ih =>
    obtain ⟨ecx, rfl⟩ : ∃ k, ecx = k + 1 := ⟨ecx - 1, by omega⟩
    obtain ⟨b, hb, hne⟩ := hbyte 0 (Nat.succ_pos n)
    have hb' : mem p = some b := by
      rw [← hb]
      exact congrArg mem (BitVec.add_zero p).symm
    unfold repneScasb
    rw [hb']
    change (if b = al then _ else _) = _
    rw [if_neg hne, ih (fun i hi => by rw [succ_ofNat]; exact hbyte (i + 1) (by omega)) (by rw [succ_ofNat]; exact hal) (by omega), succ_ofNat,
      Nat.add_sub_add_right]

/-- The scan ends without it. -/
theorem repneScasb_none {al : UInt8} {zf : Bool} (hbyte : ∀ i < n, ∃ b, mem (p + BitVec.ofNat 32 i) = some b ∧ b ≠ al) (hn : 0 < n) :
    repneScasb mem al n p zf = some (0, p + BitVec.ofNat 32 n, false) := by
  induction n generalizing p zf with
  | zero => omega
  | succ n ih =>
    obtain ⟨b, hb, hne⟩ := hbyte 0 (Nat.succ_pos n)
    have hb' : mem p = some b := by
      rw [← hb]
      exact congrArg mem (BitVec.add_zero p).symm
    unfold repneScasb
    rw [hb']
    change (if b = al then _ else _) = _
    rw [if_neg hne]
    cases n with
    | zero => rfl
    | succ n => rw [ih (fun i hi => by rw [succ_ofNat]; exact hbyte (i + 1) (by omega)) (Nat.succ_pos n), succ_ofNat]

theorem scanLength_eq (h : Str mem p f n) : scanLength mem p = some (BitVec.ofNat 32 n) := by
  have hn := h.lt
  unfold scanLength
  rw [repneScasb_found (fun i hi => ⟨f i, h.byte i hi, h.pos i hi⟩) h.nul hn]
  refine congrArg some (BitVec.eq_of_toNat_eq ?_)
  have h1 : (1 : BitVec 32).toNat = 1 := rfl
  rw [BitVec.toNat_sub, BitVec.toNat_not, BitVec.toNat_ofNat, BitVec.toNat_ofNat, h1]
  omega

theorem repeCmpsb_match {zf : Bool} (h : ∀ i < m, ∃ b, mem (p + BitVec.ofNat 32 i) = some b ∧ mem (q + BitVec.ofNat 32 i) = some b)
    (hz : m = 0 → zf = true) : repeCmpsb mem m p q zf = some (p + BitVec.ofNat 32 m, true) := by
  induction m generalizing p q zf with
  | zero =>
    rw [hz rfl, BitVec.add_zero]
    rfl
  | succ m ih =>
    obtain ⟨b, hp, hq⟩ := h 0 (Nat.succ_pos m)
    rw [BitVec.add_zero] at hp hq
    unfold repeCmpsb
    rw [hp, hq]
    refine (if_pos rfl).trans ?_
    rw [ih (fun i hi => by rw [succ_ofNat, succ_ofNat]; exact h (i + 1) (by omega)) fun _ => rfl, succ_ofNat]

theorem repeCmpsb_differ {a b : UInt8} {zf : Bool}
    (h : ∀ i < k, ∃ b, mem (p + BitVec.ofNat 32 i) = some b ∧ mem (q + BitVec.ofNat 32 i) = some b)
    (ha : mem (p + BitVec.ofNat 32 k) = some a) (hb : mem (q + BitVec.ofNat 32 k) = some b) (hab : a ≠ b) (hk : k < m) :
    repeCmpsb mem m p q zf = some (p + BitVec.ofNat 32 (k + 1), false) := by
  induction k generalizing p q m zf with
  | zero =>
    obtain ⟨m, rfl⟩ : ∃ m', m = m' + 1 := ⟨m - 1, by omega⟩
    rw [BitVec.add_zero] at ha hb
    unfold repeCmpsb
    rw [ha, hb]
    exact if_neg hab
  | succ k ih =>
    obtain ⟨m, rfl⟩ : ∃ m', m = m' + 1 := ⟨m - 1, by omega⟩
    obtain ⟨c, hp, hq⟩ := h 0 (Nat.succ_pos k)
    rw [BitVec.add_zero] at hp hq
    unfold repeCmpsb
    rw [hp, hq]
    refine (if_pos rfl).trans ?_
    rw [ih (fun i hi => by rw [succ_ofNat, succ_ofNat]; exact h (i + 1) (by omega)) (by rw [succ_ofNat]; exact ha)
      (by rw [succ_ofNat]; exact hb) (by omega), succ_ofNat]

/-! ## `strstr` -/

/-- The string `g` stands in `f` at `i`. -/
def Occurs (f : ℕ → UInt8) (n : ℕ) (g : ℕ → UInt8) (m i : ℕ) : Prop := i + m ≤ n ∧ ∀ j < m, f (i + j) = g j

/-- Without an occurrence here, there is a first byte that differs; it may be the NUL. -/
theorem differ_of_not_occurs (hi : i ≤ n) (h : ¬ Occurs f n g m i) :
    ∃ k < m, i + k ≤ n ∧ (∀ j < k, i + j < n ∧ f (i + j) = g j) ∧ (i + k = n ∨ f (i + k) ≠ g k) := by
  classical
  have hex : ∃ k, k < m ∧ (i + k = n ∨ f (i + k) ≠ g k) := by
    by_contra hno
    push Not at hno
    refine h ⟨?_, fun j hj => (hno j hj).2⟩
    by_contra hlt
    exact (hno (n - i) (by omega)).1 (by omega)
  obtain ⟨hk, hdiffer⟩ := Nat.find_spec hex
  have hmin : ∀ j < Nat.find hex, i + j ≠ n ∧ f (i + j) = g j := fun j hj => by
    have hj' := Nat.find_min hex hj
    push Not at hj'
    exact hj' (Nat.lt_trans hj hk)
  have hle : i + Nat.find hex ≤ n := by
    by_contra hlt
    exact (hmin (n - i) (by omega)).1 (by omega)
  exact ⟨_, hk, hle, fun j hj => ⟨by omega, (hmin j hj).2⟩, hdiffer⟩

section

variable {cs ct : BitVec 32}

/-- The first occurrence, or 0. -/
def IsFirst (cs : BitVec 32) (f : ℕ → UInt8) (n : ℕ) (g : ℕ → UInt8) (m : ℕ) (r : BitVec 32) : Prop :=
  (∃ i, Occurs f n g m i ∧ (∀ j < i, ¬ Occurs f n g m j) ∧ r = cs + BitVec.ofNat 32 i) ∨ r = 0 ∧ ∀ i, ¬ Occurs f n g m i

theorem strstrLoop_first (hcs : Str mem cs f n) (hct : Str mem ct g m) {fuel : ℕ} {zf : Bool} (hi : i ≤ n) (hfuel : n < fuel + i)
    (hz : m = 0 → zf = true) (hno : ∀ j < i, ¬ Occurs f n g m j) :
    ∃ r, strstrLoop mem ct (BitVec.ofNat 32 m) fuel (cs + BitVec.ofNat 32 i) zf = some r ∧ IsFirst cs f n g m r := by
  induction fuel generalizing i zf with
  | zero => omega
  | succ fuel ih =>
    have hm : (BitVec.ofNat 32 m).toNat = m := by
      have := hct.lt
      rw [BitVec.toNat_ofNat]
      exact Nat.mod_eq_of_lt (by omega)
    have hadd : ∀ j, cs + BitVec.ofNat 32 i + BitVec.ofNat 32 j = cs + BitVec.ofNat 32 (i + j) := fun j => by
      rw [BitVec.add_assoc, BitVec.ofNat_add]
    have hstep : strstrLoop mem ct (BitVec.ofNat 32 m) (fuel + 1) (cs + BitVec.ofNat 32 i) zf =
        (repeCmpsb mem (BitVec.ofNat 32 m).toNat (cs + BitVec.ofNat 32 i) ct zf).bind fun x =>
          if x.2 = true then some (cs + BitVec.ofNat 32 i)
          else (mem (x.1 - 1)).bind fun b =>
            if b ≠ 0 then strstrLoop mem ct (BitVec.ofNat 32 m) fuel (cs + BitVec.ofNat 32 i + 1) false else some 0 := rfl
    rw [hstep, hm]
    by_cases hocc : Occurs f n g m i
    · have heq := hocc.2
      have hle := hocc.1
      rw [repeCmpsb_match (fun j hj => ⟨g j, by rw [hadd, hcs.byte _ (by omega), heq j hj], hct.byte j hj⟩) hz]
      exact ⟨_, rfl, .inl ⟨i, hocc, hno, rfl⟩⟩
    · obtain ⟨k, hk, hle, hsame, hdiffer⟩ := differ_of_not_occurs hi hocc
      have hlast : cs + BitVec.ofNat 32 i + BitVec.ofNat 32 (k + 1) - 1 = cs + BitVec.ofNat 32 (i + k) := by
        rw [hadd, ← Nat.add_assoc, ← ofNat_succ, BitVec.add_sub_cancel]
      have hsame' : ∀ j < k, ∃ b, mem (cs + BitVec.ofNat 32 i + BitVec.ofNat 32 j) = some b ∧ mem (ct + BitVec.ofNat 32 j) = some b :=
        fun j hj => ⟨g j, by rw [hadd, hcs.byte _ (hsame j hj).1, (hsame j hj).2], hct.byte j (Nat.lt_trans hj hk)⟩
      by_cases hend : i + k = n
      · -- the end of `cs`
        have hbyte : mem (cs + BitVec.ofNat 32 (i + k)) = some 0 := by
          rw [hend]
          exact hcs.nul
        rw [repeCmpsb_differ hsame' (by rw [hadd]; exact hbyte) (hct.byte k hk) (hct.pos k hk).symm hk, Option.bind_some, hlast, hbyte]
        refine ⟨0, rfl, .inr ⟨rfl, fun j hj => ?_⟩⟩
        by_cases hji : j < i
        · exact hno j hji hj
        · have := hj.1
          omega
      · have hlt : i + k < n := by omega
        have hbyte := hcs.byte _ hlt
        rw [repeCmpsb_differ hsame' (by rw [hadd]; exact hbyte) (hct.byte k hk) (hdiffer.resolve_left hend) hk, Option.bind_some, hlast,
          hbyte]
        have hgo : (if f (i + k) ≠ 0 then strstrLoop mem ct (BitVec.ofNat 32 m) fuel (cs + BitVec.ofNat 32 i + 1) false else some 0) =
            strstrLoop mem ct (BitVec.ofNat 32 m) fuel (cs + BitVec.ofNat 32 (i + 1)) false := by
          rw [if_pos (hcs.pos _ hlt), ofNat_succ]
        obtain ⟨r, hr, hfirst⟩ := @ih (i + 1) false (by omega) (by omega) (by omega) fun j hj => by
          obtain hj | rfl := Nat.lt_succ_iff_lt_or_eq.mp hj
          · exact hno j hj
          · exact hocc
        exact ⟨r, hgo.trans hr, hfirst⟩

end

/-- `strstr` comes to an end and gives the first place of `ct` in `cs`, and NULL if and only if there is
    none, in every memory that has the bytes of the two strings. -/
theorem strstr_first {mem : Bytes32} {cs ct : BitVec 32} {f g : ℕ → UInt8} {n m : ℕ} (hcs : Str mem cs f n) (hct : Str mem ct g m) :
    ∃ r, strstr mem cs ct (n + 1) = some r ∧
      (∀ i, Occurs f n g m i → (∀ j < i, ¬ Occurs f n g m j) → r = cs + BitVec.ofNat 32 i) ∧ (m = 0 → r = cs) ∧
      (r = 0 ↔ ∀ i, ¬ Occurs f n g m i) := by
  have hz : m = 0 → (BitVec.ofNat 32 m == 0) = true := fun h => by
    rw [h]
    rfl
  obtain ⟨r, hr, hfirst⟩ := strstrLoop_first hcs hct (Nat.zero_le n) (show n < n + 1 + 0 by omega) hz fun j hj => absurd hj (Nat.not_lt_zero j)
  have hrun : strstr mem cs ct (n + 1) = some r := by
    unfold strstr
    rw [scanLength_eq hct, ← hr, BitVec.add_zero]
    rfl
  refine ⟨r, hrun, ?_⟩
  obtain ⟨i, hocc, hno, rfl⟩ | ⟨rfl, hnone⟩ := hfirst
  · have huniq : ∀ j, Occurs f n g m j → (∀ k < j, ¬ Occurs f n g m k) → i = j := fun j hj hjno => by
      by_contra hne
      obtain hlt | hlt := Nat.lt_or_gt_of_ne hne
      · exact hjno i hlt hocc
      · exact hno j hlt hj
    refine ⟨fun j hj hjno => by rw [huniq j hj hjno], fun hm => ?_, ⟨fun h0 => ?_, fun hnone => absurd hocc (hnone i)⟩⟩
    · rw [huniq 0 ⟨by omega, fun j hj => by omega⟩ fun k hk => absurd hk (Nat.not_lt_zero k), BitVec.add_zero]
    · have := hocc.1
      exact absurd h0 (hcs.null i (by omega))
  · refine ⟨fun j hj => absurd hj (hnone j), fun hm => absurd ⟨by omega, fun j hj => by omega⟩ (hnone 0), fun _ => hnone, fun _ => rfl⟩

/-- "aab" and "ab", and nothing else. -/
def twoStrings : Bytes32 := fun a =>
  [((0x1000 : BitVec 32), (97 : UInt8)), (0x1001, 97), (0x1002, 98), (0x1003, 0), (0x2000, 97), (0x2001, 98), (0x2002, 0)].lookup a

theorem strstr_first_aab : strstr twoStrings 0x1000 0x2000 4 = some 0x1001 := by
  have hcs : Str twoStrings 0x1000 (fun i => [97, 97, 98].getD i 0) 3 := ⟨by decide, by decide, by decide, by decide⟩
  have hct : Str twoStrings 0x2000 (fun i => [97, 98].getD i 0) 2 := ⟨by decide, by decide, by decide, by decide⟩
  obtain ⟨r, hr, hfirst, -, -⟩ := strstr_first hcs hct
  rw [hr]
  refine congrArg some (hfirst 1 ⟨by decide, by decide⟩ fun j hj => ?_)
  obtain rfl : j = 0 := by omega
  exact fun h => absurd (h.2 1 (by decide)) (by decide)

end Linux011.Kernel
