/-
  `number` (kernel/vsprintf.c): a number with its sign, prefix and padding.
-/
import Mathlib.Data.Nat.Digits.Lemmas
import Mathlib.Tactic.IntervalCases
import Linux011.Lib.Long

namespace Linux011.Kernel

open Linux011.Lib

namespace Vsprintf

def ZEROPAD : BitVec 32 := 1
def SIGN : BitVec 32 := 2
def PLUS : BitVec 32 := 4
def SPACE : BitVec 32 := 8
def LEFT : BitVec 32 := 16
def SPECIAL : BitVec 32 := 32
def SMALL : BitVec 32 := 64

def capitals : List Char :=
  ['0', '1', '2', '3', '4', '5', '6', '7', '8', '9', 'A', 'B', 'C', 'D', 'E', 'F', 'G', 'H', 'I', 'J', 'K', 'L', 'M', 'N', 'O',
    'P', 'Q', 'R', 'S', 'T', 'U', 'V', 'W', 'X', 'Y', 'Z']

def smalls : List Char :=
  ['0', '1', '2', '3', '4', '5', '6', '7', '8', '9', 'a', 'b', 'c', 'd', 'e', 'f', 'g', 'h', 'i', 'j', 'k', 'l', 'm', 'n', 'o',
    'p', 'q', 'r', 's', 't', 'u', 'v', 'w', 'x', 'y', 'z']

/-- `while (num!=0) tmp[i++]=digits[do_div(num,base)]`, with this much room in `tmp`. -/
def divLoop (digits : List Char) (base : BitVec 32) : ℕ → BitVec 32 → Option (List Char)
  | 0, num => if num = 0 then some [] else none
  | room + 1, num =>
    if num = 0 then some []
    else (divLoop digits base room (num / base)).map (digits.getD (num % base).toNat '0' :: ·)

/-- `while (low < n--) *str++ = c`. Only the last decrement can leave the range of an int. -/
def padLoop (low : ℤ) (c : Char) (n : ℤ) : ℤ × List Char :=
  if low < n then
    let (n, str) := padLoop low c (n - 1)
    (n, c :: str)
  else (long (n - 1), [])
  termination_by (n - low).toNat

/-- `while (i-->0) *str++ = tmp[i]` -/
def copyLoop (tmp : List Char) : ℕ → List Char
  | 0 => []
  | i + 1 => tmp.getD i '0' :: copyLoop tmp i

end Vsprintf

open Vsprintf

/-- What is written at `str`. -/
def number (num base : BitVec 32) (size precision : ℤ) (type : BitVec 32) : Option (List Char) :=
  let digits := if type &&& SMALL ≠ 0 then smalls else capitals
  let type := if type &&& LEFT ≠ 0 then type &&& ~~~ZEROPAD else type
  if base.toInt < 2 ∨ 36 < base.toInt then none
  else
    let c := if type &&& ZEROPAD ≠ 0 then '0' else ' '
    let negative := type &&& SIGN ≠ 0 ∧ num.toInt < 0
    let sign :=
      if negative then some '-' else if type &&& PLUS ≠ 0 then some '+' else if type &&& SPACE ≠ 0 then some ' ' else none
    let num := if negative then -num else num
    let size := if sign.isSome then long (size - 1) else size
    let size :=
      if type &&& SPECIAL ≠ 0 then if base = 16 then long (size - 2) else if base = 8 then long (size - 1) else size else size
    (if num = 0 then some ['0'] else divLoop digits base 36 num).map fun tmp =>
      let i : ℕ := tmp.length
      let precision := if precision < i then (i : ℤ) else precision
      let size := long (size - precision)
      let (size, spaces) := if type &&& (ZEROPAD + LEFT) = 0 then padLoop 0 ' ' size else (size, [])
      let special :=
        if type &&& SPECIAL ≠ 0 then if base = 8 then ['0'] else if base = 16 then ['0', digits.getD 33 '0'] else [] else []
      let (size, fill) := if type &&& LEFT = 0 then padLoop 0 c size else (size, [])
      let (_, zeros) := padLoop i '0' precision
      let (_, rest) := padLoop 0 ' ' size
      spaces ++ sign.toList ++ special ++ fill ++ zeros ++ copyLoop tmp i ++ rest

/-! ## What is to be written -/

section

variable (num : BitVec 32) (base : ℕ) (size precision : ℤ) (type : BitVec 32)

/-- The number to be shown, without its sign. -/
def magnitude : ℕ := if type &&& SIGN ≠ 0 then num.toInt.natAbs else num.toNat

def signPart : List Char :=
  if type &&& SIGN ≠ 0 ∧ num.toInt < 0 then ['-'] else if type &&& PLUS ≠ 0 then ['+'] else if type &&& SPACE ≠ 0 then [' '] else []

def prefixPart : List Char :=
  if type &&& SPECIAL = 0 then []
  else if base = 8 then ['0'] else if base = 16 then ['0', if type &&& SMALL ≠ 0 then 'x' else 'X'] else []

def digitChar (small : Bool) (d : ℕ) : Char := if d < 10 then Char.ofNat (48 + d) else Char.ofNat ((if small then 87 else 55) + d)

/-- The digits of `n`, the highest first; one zero for zero. -/
def digitsOf (n : ℕ) : List ℕ := if n = 0 then [0] else (Nat.digits base n).reverse

def digitPart : List Char := (digitsOf base (magnitude num type)).map (digitChar (type &&& SMALL ≠ 0))

/-- The zeros for the precision. -/
def zeroPart : List Char := List.replicate (precision.toNat - (digitPart num base type).length) '0'

def bodyLength : ℕ :=
  (signPart num type).length + (prefixPart base type).length + max precision.toNat (digitPart num base type).length

def formatted : List Char :=
  let pad := size.toNat - bodyLength num base precision type
  let digits := zeroPart num base precision type ++ digitPart num base type
  if type &&& LEFT ≠ 0 then signPart num type ++ prefixPart base type ++ digits ++ List.replicate pad ' '
  else if type &&& ZEROPAD ≠ 0 then signPart num type ++ prefixPart base type ++ List.replicate pad '0' ++ digits
  else List.replicate pad ' ' ++ signPart num type ++ prefixPart base type ++ digits

end

/-- The value of a digit, small or capital. -/
def digitValue (c : Char) : ℕ := if c.toNat < 58 then c.toNat - 48 else if c.toNat < 97 then c.toNat - 55 else c.toNat - 87

def readDigits (base : ℕ) (l : List Char) : ℕ := l.foldl (fun n c => n * base + digitValue c) 0

/-! ## The loops -/

theorem padLoop_eq (low : ℤ) (c : Char) (n : ℤ) :
    padLoop low c n = (long (min n low - 1), List.replicate (n - low).toNat c) := by
  fun_induction padLoop low c n with
  | case1 n h m str hm ih =>
    obtain ⟨rfl, rfl⟩ := Prod.mk.inj (hm.symm.trans ih)
    rw [min_eq_right h.le, min_eq_right (by omega), show (n - low).toNat = (n - 1 - low).toNat + 1 by omega, List.replicate_succ]
  | case2 n h =>
    rw [min_eq_left (Int.not_lt.mp h), show (n - low).toNat = 0 by omega, List.replicate_zero]

theorem padLoop_le {low n : ℤ} (c : Char) (h : n ≤ low) (hn : IsLong (n - 1)) : padLoop low c n = (n - 1, []) := by
  rw [padLoop_eq, min_eq_left h, long_of_isLong hn, show (n - low).toNat = 0 by omega, List.replicate_zero]

theorem divLoop_eq (digits : List Char) {base : BitVec 32} (hb : 2 ≤ base.toNat) {room : ℕ} {num : BitVec 32}
    (h : num.toNat < 2 ^ room) :
    divLoop digits base room num = some ((Nat.digits base.toNat num.toNat).map fun d => digits.getD d '0') := by
  have hzero : num = 0 ↔ num.toNat = 0 := BitVec.toNat_inj.symm
  induction room generalizing num with
  | zero =>
    have h0 : num.toNat = 0 := by omega
    unfold divLoop
    rw [if_pos (hzero.mpr h0), h0, Nat.digits_zero]
    rfl
  | succ room ih =>
    unfold divLoop
    by_cases h0 : num.toNat = 0
    · rw [if_pos (hzero.mpr h0), h0, Nat.digits_zero]
      rfl
    · have hlt : (num / base).toNat < 2 ^ room := by
        rw [BitVec.toNat_udiv]
        refine Nat.div_lt_of_lt_mul (lt_of_lt_of_le h ?_)
        rw [Nat.pow_succ, Nat.mul_comm]
        exact Nat.mul_le_mul_right _ hb
      rw [if_neg (mt hzero.mp h0), ih hlt BitVec.toNat_inj.symm, BitVec.toNat_udiv, BitVec.toNat_umod,
        Nat.digits_def' (by omega) (Nat.pos_of_ne_zero h0)]
      rfl

theorem copyLoop_eq (tmp : List Char) {i : ℕ} (h : i ≤ tmp.length) : copyLoop tmp i = (tmp.take i).reverse := by
  induction i with
  | zero => rfl
  | succ i ih =>
    unfold copyLoop
    rw [ih (by omega), List.take_add_one, List.reverse_append, List.getElem?_eq_getElem h, List.getD_eq_getElem?_getD,
      List.getElem?_eq_getElem h]
    rfl

/-! ## The parts -/

section

variable {num base : BitVec 32} {type : BitVec 32} {size precision : ℤ}

theorem digits_getD (small : Bool) {d : ℕ} (h : d < 36) : (if small = true then smalls else capitals).getD d '0' = digitChar small d := by
  interval_cases d <;> cases small <;> rfl

theorem magnitude_eq (num type : BitVec 32) :
    (if type &&& SIGN ≠ 0 ∧ num.toInt < 0 then -num else num).toNat = magnitude num type := by
  have hint := BitVec.toInt_eq_toNat_cond num
  have hlt := num.isLt
  unfold magnitude
  by_cases hs : type &&& SIGN ≠ 0
  · rw [if_pos hs]
    by_cases hn : num.toInt < 0
    · rw [if_pos ⟨hs, hn⟩, BitVec.toNat_neg]
      split_ifs at hint <;> omega
    · rw [if_neg fun h => hn h.2]
      split_ifs at hint <;> omega
  · rw [if_neg fun h => hs h.1, if_neg hs]

theorem magnitude_lt (num type : BitVec 32) : magnitude num type < 2 ^ 32 := magnitude_eq num type ▸ BitVec.isLt _

/-- What `tmp` holds, the lowest digit first. -/
theorem tmp_eq (hb : 2 ≤ base.toNat) (hb' : base.toNat ≤ 36) (small : Bool) (n : BitVec 32) :
    (if n = 0 then some ['0'] else divLoop (if small = true then smalls else capitals) base 36 n) =
      some ((digitsOf base.toNat n.toNat).map (digitChar small)).reverse := by
  have hzero : n = 0 ↔ n.toNat = 0 := BitVec.toNat_inj.symm
  unfold digitsOf
  by_cases h0 : n.toNat = 0
  · rw [if_pos (hzero.mpr h0), if_pos h0]
    cases small <;> rfl
  · rw [if_neg (mt hzero.mp h0), if_neg h0, divLoop_eq _ hb (by omega), ← List.map_reverse, List.reverse_reverse]
    refine congrArg some (List.map_congr_left fun d hd => digits_getD small ?_)
    exact (Nat.digits_lt_base (by omega) hd).trans_le hb'

theorem digitsOf_length (hb : 2 ≤ base.toNat) {n : ℕ} (h : n < 2 ^ 32) :
    0 < (digitsOf base.toNat n).length ∧ (digitsOf base.toNat n).length ≤ 32 := by
  unfold digitsOf
  by_cases h0 : n = 0
  · rw [if_pos h0]
    exact ⟨by decide, by decide⟩
  · rw [if_neg h0, List.length_reverse]
    refine ⟨List.length_pos_of_ne_nil (Nat.digits_ne_nil_iff_ne_zero.mpr h0), ?_⟩
    rw [Nat.digits_length_le_iff (by omega)]
    exact h.trans_le (Nat.pow_le_pow_left hb 32)

/-- Only ZEROPAD is taken away. -/
theorem leftType_and (type : BitVec 32) {flag : BitVec 32} (h : ~~~ZEROPAD &&& flag = flag) :
    (if type &&& LEFT ≠ 0 then type &&& ~~~ZEROPAD else type) &&& flag = type &&& flag := by
  split_ifs
  · rw [BitVec.and_assoc, h]
  · rfl

theorem leftType_zeropad (type : BitVec 32) :
    (if type &&& LEFT ≠ 0 then type &&& ~~~ZEROPAD else type) &&& ZEROPAD = if type &&& LEFT ≠ 0 then 0 else type &&& ZEROPAD := by
  split_ifs
  · rw [BitVec.and_assoc]
    exact BitVec.and_zero
  · rfl

theorem and_zeropad_left (t : BitVec 32) : t &&& (ZEROPAD + LEFT) = 0 ↔ t &&& ZEROPAD = 0 ∧ t &&& LEFT = 0 := by
  have h : ZEROPAD + LEFT = ZEROPAD ||| LEFT := by decide
  rw [h, BitVec.and_or_distrib_left]
  exact BitVec.or_eq_zero_iff

theorem signPart_eq (num type : BitVec 32) : signPart num type =
    (if type &&& SIGN ≠ 0 ∧ num.toInt < 0 then some '-'
      else if type &&& PLUS ≠ 0 then some '+' else if type &&& SPACE ≠ 0 then some ' ' else none).toList := by
  unfold signPart
  split_ifs <;> rfl

theorem digitPart_length (hb : 2 ≤ base.toNat) (num type : BitVec 32) :
    0 < (digitPart num base.toNat type).length ∧ (digitPart num base.toNat type).length ≤ 32 := by
  unfold digitPart
  rw [List.length_map]
  exact digitsOf_length hb (magnitude_lt num type)

theorem prefixPart_eq (hb : base = 8 ∨ base = 10 ∨ base = 16) (type : BitVec 32) : prefixPart base.toNat type =
    if type &&& SPECIAL ≠ 0 then if base = 8 then ['0']
      else if base = 16 then ['0', (if decide (type &&& SMALL ≠ 0) = true then smalls else capitals).getD 33 '0'] else []
    else [] := by
  have hx : (if type &&& SMALL ≠ 0 then 'x' else 'X') = digitChar (decide (type &&& SMALL ≠ 0)) 33 := by
    split_ifs with h
    · rw [decide_eq_true h]
      rfl
    · rw [decide_eq_false h]
      rfl
  unfold prefixPart
  rw [digits_getD _ (by decide), hx, ite_not]
  obtain rfl | rfl | rfl := hb <;> rfl

/-- What sign and prefix leave of the width. -/
theorem size_left (size : ℤ) (type : BitVec 32) (hb : base = 8 ∨ base = 10 ∨ base = 16) (sign : Option Char) (hs : -1 ≤ size ∧ size ≤ 2 ^ 30) :
    (if type &&& SPECIAL ≠ 0 then
      if base = 16 then long ((if sign.isSome = true then long (size - 1) else size) - 2)
      else if base = 8 then long ((if sign.isSome = true then long (size - 1) else size) - 1)
      else if sign.isSome = true then long (size - 1) else size
    else if sign.isSome = true then long (size - 1) else size) =
      size - sign.toList.length - (prefixPart base.toNat type).length ∧ sign.toList.length ≤ 1 ∧
        (prefixPart base.toNat type).length ≤ 2 := by
  have hsign : (if sign.isSome = true then long (size - 1) else size) = size - sign.toList.length ∧ sign.toList.length ≤ 1 := by
    cases sign with
    | none => exact ⟨(Int.sub_zero size).symm, by decide⟩
    | some c => exact ⟨long_of_isLong ⟨by omega, by omega⟩, le_rfl⟩
  obtain ⟨hsize, h1⟩ := hsign
  rw [hsize]
  generalize sign.toList.length = k at h1
  have hlong : ∀ n : ℤ, 0 ≤ n → n ≤ 2 → long (size - k - n) = size - k - n := fun n _ _ => long_of_isLong ⟨by omega, by omega⟩
  unfold prefixPart
  by_cases hsp : type &&& SPECIAL = 0
  · rw [if_neg (not_not.mpr hsp), if_pos hsp]
    exact ⟨(Int.sub_zero _).symm, h1, by decide⟩
  · rw [if_pos hsp, if_neg hsp]
    obtain rfl | rfl | rfl := hb
    · exact ⟨hlong 1 (by decide) (by decide), h1, Nat.le_succ 1⟩
    · exact ⟨(Int.sub_zero _).symm, h1, Nat.zero_le 2⟩
    · exact ⟨hlong 2 (by decide) (by decide), h1, le_rfl⟩

/-- What is left for the padding, behind digits and zeros. -/
theorem width_left {a b k : ℕ} (hs : -1 ≤ size ∧ size ≤ 2 ^ 30) (hp : precision ≤ 2 ^ 30) (ha : a ≤ 1) (hb : b ≤ 2) (hk : k ≤ 32) :
    ∃ z : ℤ, long (size - a - b - (if precision < k then (k : ℤ) else precision)) = z ∧ -2 ^ 31 + 10 ≤ z ∧
      size.toNat - (a + b + max precision.toNat k) = z.toNat ∧
      ((if precision < k then (k : ℤ) else precision) - k).toNat = precision.toNat - k := by
  refine ⟨_, long_of_isLong ⟨?_, ?_⟩, ?_, ?_, ?_⟩ <;> split_ifs <;> omega

/-- The width is used up by the first loop that runs. -/
theorem padLoop_used {z : ℤ} (c c' : Char) (hz : -2 ^ 31 + 10 ≤ z) :
    padLoop 0 c z = (min z 0 - 1, List.replicate z.toNat c) ∧ padLoop 0 c' (min z 0 - 1) = (min z 0 - 2, []) ∧
      (padLoop 0 ' ' (min z 0 - 2)).2 = [] := by
  refine ⟨?_, ?_, ?_⟩
  · rw [padLoop_eq, long_of_isLong ⟨by omega, by omega⟩, Int.sub_zero]
  · rw [padLoop_le c' (by omega) ⟨by omega, by omega⟩, Int.sub_sub]
    rfl
  · rw [padLoop_le ' ' (by omega) ⟨by omega, by omega⟩]

/-- Whatever the width, something is written. -/
theorem number_some (hb : base = 8 ∨ base = 10 ∨ base = 16) (num : BitVec 32) (size precision : ℤ) (type : BitVec 32) :
    ∃ l, number num base size precision type = some l := by
  obtain ⟨hb2, hb36, hbase⟩ : 2 ≤ base.toNat ∧ base.toNat ≤ 36 ∧ ¬ (base.toInt < 2 ∨ 36 < base.toInt) := by
    obtain rfl | rfl | rfl := hb <;> decide
  have hsmall : (if type &&& SMALL ≠ 0 then smalls else capitals) =
      if decide (type &&& SMALL ≠ 0) = true then smalls else capitals := by
    simp only [decide_eq_true_eq]
  unfold number
  dsimp only
  rw [if_neg hbase, hsmall, tmp_eq hb2 hb36]
  exact ⟨_, rfl⟩

theorem number_eq (hb : base = 8 ∨ base = 10 ∨ base = 16) (hs : -1 ≤ size ∧ size ≤ 2 ^ 30) (hp : -1 ≤ precision ∧ precision ≤ 2 ^ 30) :
    number num base size precision type = some (formatted num base.toNat size precision type) := by
  obtain ⟨hb2, hb36, hbase⟩ : 2 ≤ base.toNat ∧ base.toNat ≤ 36 ∧ ¬ (base.toInt < 2 ∨ 36 < base.toInt) := by
    obtain rfl | rfl | rfl := hb <;> decide
  have hsmall : (if type &&& SMALL ≠ 0 then smalls else capitals) =
      if decide (type &&& SMALL ≠ 0) = true then smalls else capitals := by
    simp only [decide_eq_true_eq]
  have hmag := magnitude_eq num type
  have hsign := signPart_eq num type
  have hlen := digitPart_length hb2 num type
  unfold number
  dsimp only
  rw [if_neg hbase, leftType_and type (show ~~~ZEROPAD &&& SIGN = SIGN by decide),
    leftType_and type (show ~~~ZEROPAD &&& PLUS = PLUS by decide), leftType_and type (show ~~~ZEROPAD &&& SPACE = SPACE by decide),
    leftType_and type (show ~~~ZEROPAD &&& SPECIAL = SPECIAL by decide), leftType_zeropad, hsmall]
  generalize (if type &&& SIGN ≠ 0 ∧ num.toInt < 0 then -num else num) = n at hmag ⊢
  generalize (if type &&& SIGN ≠ 0 ∧ num.toInt < 0 then some '-'
      else if type &&& PLUS ≠ 0 then some '+' else if type &&& SPACE ≠ 0 then some ' ' else none) = sign at hsign ⊢
  rw [tmp_eq hb2 hb36, hmag, Option.map_some, ← prefixPart_eq hb]
  refine congrArg some ?_
  have hdigits : (digitsOf base.toNat (magnitude num type)).map (digitChar (decide (type &&& SMALL ≠ 0))) =
    digitPart num base.toNat type := rfl
  obtain ⟨hsize, hsign1, hpre2⟩ := size_left size type hb sign hs
  rw [hdigits, hsize, List.length_reverse, copyLoop_eq _ (List.length_reverse).ge]
  unfold formatted zeroPart bodyLength
  dsimp only
  rw [hsign]
  generalize sign.toList = σ at *
  generalize prefixPart base.toNat type = pre at *
  generalize digitPart num base.toNat type = ds at *
  have htake : (ds.reverse.take ds.length).reverse = ds := by
    rw [List.take_of_length_le List.length_reverse.le, List.reverse_reverse]
  obtain ⟨z, hz, hlow, hpad, hprec⟩ := width_left hs hp.2 hsign1 hpre2 hlen.2
  have hzeros : (padLoop ds.length '0' (if precision < ds.length then (ds.length : ℤ) else precision)).2 =
      List.replicate (precision.toNat - ds.length) '0' := by
    rw [padLoop_eq]
    exact congrArg (List.replicate · '0') hprec
  rw [hz, htake, hzeros, hpad]
  by_cases hl : type &&& LEFT ≠ 0
  · have hleft : ∀ t : BitVec 32, t &&& LEFT = type &&& LEFT → ¬ t &&& (ZEROPAD + LEFT) = 0 := fun t ht h =>
      hl (ht.symm.trans ((and_zeropad_left t).mp h).2)
    have hand : (type &&& ~~~ZEROPAD) &&& LEFT = type &&& LEFT := by
      rw [BitVec.and_assoc]
      rfl
    simp only [if_pos hl, if_neg (hleft _ hand), hand, if_neg hl]
    rw [(padLoop_used ' ' ' ' hlow).1]
    simp only [List.nil_append, List.append_nil, List.append_assoc]
  · have hl0 : type &&& LEFT = 0 := not_not.mp hl
    by_cases hz : type &&& ZEROPAD ≠ 0
    · simp only [if_neg hl, if_pos hz, if_pos hl0, if_neg fun h => hz ((and_zeropad_left type).mp h).1]
      obtain ⟨h1, h2, -⟩ := padLoop_used '0' ' ' hlow
      rw [h1, h2]
      simp only [List.nil_append, List.append_nil, List.append_assoc]
    · have hz0 : type &&& ZEROPAD = 0 := not_not.mp hz
      simp only [if_neg hl, if_neg hz, if_pos hl0, if_pos ((and_zeropad_left type).mpr ⟨hz0, hl0⟩)]
      obtain ⟨h1, h2, h3⟩ := padLoop_used ' ' ' ' hlow
      simp only [h1, h2, h3]
      simp only [List.append_nil, List.append_assoc]

/-! ## Reading back -/

theorem digitValue_digitChar (small : Bool) {d : ℕ} (h : d < 16) : digitValue (digitChar small d) = d := by
  interval_cases d <;> cases small <;> rfl

theorem readDigits_zeros (b n : ℕ) (l : List Char) : readDigits b (List.replicate n '0' ++ l) = readDigits b l := by
  induction n with
  | zero => rfl
  | succ n ih =>
    rw [List.replicate_succ, List.cons_append, ← ih]
    unfold readDigits
    rw [List.foldl_cons, Nat.zero_mul]
    rfl

theorem readDigits_digitsOf {b : ℕ} (hb : 2 ≤ b) (hb' : b ≤ 16) (small : Bool) (n : ℕ) :
    readDigits b ((digitsOf b n).map (digitChar small)) = n := by
  unfold digitsOf
  by_cases h0 : n = 0
  · rw [if_pos h0, h0]
    change 0 * b + digitValue (digitChar small 0) = 0
    rw [Nat.zero_mul, digitValue_digitChar small (by decide)]
  · have hread : ∀ l : List ℕ, (∀ d ∈ l, d < b) →
        l.foldr (fun d v => v * b + digitValue (digitChar small d)) 0 = Nat.ofDigits b l := by
      intro l hl
      induction l with
      | nil => rfl
      | cons d l ih =>
        rw [List.foldr_cons, ih fun a ha => hl a (List.mem_cons_of_mem d ha), Nat.ofDigits_cons,
          digitValue_digitChar small ((hl d List.mem_cons_self).trans_le hb'), Nat.mul_comm, Nat.add_comm]
    unfold readDigits
    rw [if_neg h0, List.foldl_map, List.foldl_reverse, hread _ fun d hd => Nat.digits_lt_base hb hd, Nat.ofDigits_digits]

/-- No zero comes first, but for zero itself. -/
theorem digitsOf_head {b n : ℕ} (h : n ≠ 0) : (digitsOf b n).head? ≠ some 0 := by
  unfold digitsOf
  rw [if_neg h, List.head?_reverse, List.getLast?_eq_some_getLast (Nat.digits_ne_nil_iff_ne_zero.mpr h)]
  exact fun he => Nat.getLast_digit_ne_zero b h (Option.some.inj he)

theorem formatted_length (num : BitVec 32) (b : ℕ) (size precision : ℤ) (type : BitVec 32) :
    (formatted num b size precision type).length = max size.toNat (bodyLength num b precision type) := by
  have hbody : bodyLength num b precision type = (signPart num type).length + (prefixPart b type).length +
      ((precision.toNat - (digitPart num b type).length) + (digitPart num b type).length) := by
    unfold bodyLength
    omega
  unfold formatted zeroPart
  dsimp only
  split_ifs <;> simp only [List.length_append, List.length_replicate] <;> omega

end

/-- `number` writes spaces, sign, prefix, zeros, digits and spaces as the flags ask, as wide as they and
    the width need; the digits have no zero in front and read back as the number. -/
theorem number_format (num base type : BitVec 32) {size precision : ℤ} (hb : base = 8 ∨ base = 10 ∨ base = 16)
    (hs : -1 ≤ size ∧ size ≤ 2 ^ 30) (hp : -1 ≤ precision ∧ precision ≤ 2 ^ 30) :
    number num base size precision type = some (formatted num base.toNat size precision type) ∧
    (formatted num base.toNat size precision type).length = max size.toNat (bodyLength num base.toNat precision type) ∧
    (magnitude num type ≠ 0 → (digitsOf base.toNat (magnitude num type)).head? ≠ some 0) ∧
    ∀ zeros, (if type &&& SIGN ≠ 0 then num.toInt else num.toNat) =
      (if type &&& SIGN ≠ 0 ∧ num.toInt < 0 then -1 else 1) *
        (readDigits base.toNat (List.replicate zeros '0' ++ digitPart num base.toNat type) : ℤ) := by
  refine ⟨number_eq hb hs hp, formatted_length .., digitsOf_head, fun zeros => ?_⟩
  have hbase : 2 ≤ base.toNat ∧ base.toNat ≤ 16 := by
    obtain rfl | rfl | rfl := hb <;> decide
  have hread : readDigits base.toNat (digitPart num base.toNat type) = magnitude num type := readDigits_digitsOf hbase.1 hbase.2 _ _
  rw [readDigits_zeros, hread]
  unfold magnitude
  by_cases hsign : type &&& SIGN ≠ 0
  · rw [if_pos hsign, if_pos hsign]
    by_cases hneg : num.toInt < 0
    · rw [if_pos ⟨hsign, hneg⟩]
      omega
    · rw [if_neg fun h => hneg h.2]
      omega
  · rw [if_neg hsign, if_neg hsign, if_neg fun h => hsign h.1, Int.one_mul]

/-- `%08d` of the lowest number -/
theorem number_format_lowest :
    number 0x80000000 10 8 (-1) (ZEROPAD ||| SIGN) = some (formatted 0x80000000 10 8 (-1) (ZEROPAD ||| SIGN)) ∧
    (readDigits 10 (digitPart 0x80000000 10 (ZEROPAD ||| SIGN)) : ℤ) = 2147483648 := by
  obtain ⟨h, -, -, hread⟩ := number_format 0x80000000 10 (ZEROPAD ||| SIGN) (.inr (.inl rfl))
    (show (-1 : ℤ) ≤ 8 ∧ (8 : ℤ) ≤ 2 ^ 30 by decide) (show (-1 : ℤ) ≤ -1 ∧ (-1 : ℤ) ≤ 2 ^ 30 by decide)
  refine ⟨h, ?_⟩
  have hv := hread 0
  rw [if_pos (by decide), if_pos (by decide)] at hv
  exact (Int.neg_inj.mp (hv.trans (Int.neg_one_mul _))).symm

end Linux011.Kernel
