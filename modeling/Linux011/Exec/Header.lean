/-
  The header checks of `do_execve` (fs/exec.c) and the segments that `change_ldt` makes of the
  header. All sums are of unsigned longs and may wrap; a code segment of no pages at all gets the
  largest limit there is.
-/
import Linux011.Fs.TaskCalls

namespace Linux011.Exec

/-! ## The header -/

/-- `struct exec` -/
structure Header where
  aMagic : BitVec 32
  aText : BitVec 32
  aData : BitVec 32
  aBss : BitVec 32
  aSyms : BitVec 32
  aEntry : BitVec 32
  aTrsize : BitVec 32
  aDrsize : BitVec 32

def ZMAGIC : BitVec 32 := 0o413
def BLOCK_SIZE : BitVec 32 := 1024
def SEGMENT_SIZE : BitVec 32 := 1024
def PAGE_SIZE : BitVec 32 := 4096

namespace Header

variable (ex : Header)

/-- `N_TXTOFF` -/
def txtoff : BitVec 32 := if ex.aMagic = ZMAGIC then SEGMENT_SIZE - 32 + 32 else 32

/-- `do_execve` goes on with this header. -/
def accepted (iSize : BitVec 32) : Bool :=
  !(ex.aMagic ≠ ZMAGIC || ex.aTrsize ≠ 0 || ex.aDrsize ≠ 0 || 0x3000000 < ex.aText + ex.aData + ex.aBss ||
    iSize < ex.aText + ex.aData + ex.aSyms + ex.txtoff) && ex.txtoff = BLOCK_SIZE

def endCode : BitVec 32 := ex.aText

def endData : BitVec 32 := ex.aData + ex.endCode

def brk : BitVec 32 := ex.aBss + ex.endData

/-- The header of a file with this first block. -/
def ofBlock (b : Fs.Block) : Header :=
  let long k := BitVec.ofNat 32 (Fs.headerLong b k)
  ⟨long 0, long 1, long 2, long 3, long 4, long 5, long 6, long 7⟩

end Header

/-! ## Segments -/

/-- The bytes of a segment descriptor that `set_base` and `set_limit` change, and byte 6 with the
    granularity bit. -/
structure Desc where
  limit0 : BitVec 16
  base0 : BitVec 16
  base1 : BitVec 8
  byte6 : BitVec 8
  base2 : BitVec 8

namespace Desc

variable (d : Desc)

def setBase (base : BitVec 32) : Desc :=
  { d with base0 := base.setWidth 16, base1 := (base >>> 16).setWidth 8, base2 := (base >>> 24).setWidth 8 }

def getBase : BitVec 32 :=
  d.base2.setWidth 32 <<< 24 ||| d.base1.setWidth 32 <<< 16 ||| d.base0.setWidth 32

/-- `_set_limit` -/
def setPages (limit : BitVec 32) : Desc :=
  { d with limit0 := limit.setWidth 16, byte6 := d.byte6 &&& 0xf0#8 ||| (limit >>> 16).setWidth 8 }

def setLimit (limit : BitVec 32) : Desc := d.setPages ((limit - 1) >>> 12)

/-- `lsll` -/
def lsl : BitVec 32 :=
  let limit := (d.byte6 &&& 0xf#8).setWidth 32 <<< 16 ||| d.limit0.setWidth 32
  if d.byte6.getLsbD 7 then limit <<< 12 ||| 0xfff#32 else limit

def getLimit : BitVec 32 := d.lsl + 1

end Desc

/-- The code and the data segment of a task. Limits are in pages in INIT_TASK, and neither `set_base`
    nor `set_limit` changes that. -/
structure Ldt where
  code : Desc
  data : Desc
  pages : code.byte6.getLsbD 7 = true ∧ data.byte6.getLsbD 7 = true

/-- That of INIT_TASK. -/
def Ldt.init : Ldt := ⟨⟨0x9f, 0, 0, 0xc0, 0⟩, ⟨0x9f, 0, 0, 0xc0, 0⟩, by decide⟩

theorem getLsbD_ones (w n i : ℕ) : (BitVec.ofNat w (2 ^ n - 1)).getLsbD i = (decide (i < w) && decide (i < n)) := by
  rw [BitVec.getLsbD_ofNat, Nat.testBit_two_pow_sub_one]

namespace Desc

variable (d : Desc) (limit : BitVec 32)

theorem setLimit_granular : (d.setLimit limit).byte6.getLsbD 7 = d.byte6.getLsbD 7 := by
  simp [setLimit, setPages]

/-- The twenty bits of the limit. -/
theorem setLimit_bits : ((d.setLimit limit).byte6 &&& 0xf#8).setWidth 32 <<< 16 ||| (d.setLimit limit).limit0.setWidth 32 =
    (limit - 1) >>> 12 := by
  change (((d.byte6 &&& 0xf0#8 ||| ((limit - 1) >>> 12 >>> 16).setWidth 8) &&& 0xf#8).setWidth 32 <<< 16 |||
    (((limit - 1) >>> 12).setWidth 16).setWidth 32) = _
  have hl : ((limit - 1) >>> 12).toNat < 2 ^ 20 := by
    rw [BitVec.toNat_ushiftRight, Nat.shiftRight_eq_div_pow]
    omega
  generalize (limit - 1) >>> 12 = l at hl
  have hlow : (d.byte6 &&& 0xf0#8 ||| (l >>> 16).setWidth 8) &&& 0xf#8 = (l >>> 16).setWidth 8 &&& 0xf#8 := by
    rw [BitVec.and_or_distrib_right, BitVec.and_assoc, show 0xf0#8 &&& 0xf#8 = 0#8 from rfl, BitVec.and_zero, BitVec.zero_or]
  have hhigh : ((l >>> 16).setWidth 8 &&& 0xf#8).toNat = l.toNat / 2 ^ 16 := by
    rw [BitVec.toNat_and, BitVec.toNat_setWidth, BitVec.toNat_ushiftRight, Nat.shiftRight_eq_div_pow,
      show (0xf#8).toNat = 2 ^ 4 - 1 from rfl, Nat.and_two_pow_sub_one_eq_mod]
    omega
  refine BitVec.eq_of_toNat_eq ?_
  rw [hlow, BitVec.toNat_or, BitVec.toNat_shiftLeft, BitVec.toNat_setWidth, BitVec.toNat_setWidth, BitVec.toNat_setWidth, hhigh,
    Nat.mod_eq_of_lt (show l.toNat / 2 ^ 16 < 2 ^ 32 by omega), Nat.mod_eq_of_lt (show l.toNat % 2 ^ 16 < 2 ^ 32 by omega),
    Nat.mod_eq_of_lt (show (l.toNat / 2 ^ 16) <<< 16 < 2 ^ 32 by rw [Nat.shiftLeft_eq]; omega),
    ← Nat.shiftLeft_add_eq_or_of_lt (Nat.mod_lt _ (by decide)), Nat.shiftLeft_eq]
  omega

/-- The base is what `set_base` was given, and `set_limit` leaves it alone. -/
theorem getBase_setLimit (base : BitVec 32) : ((d.setBase base).setLimit limit).getBase = base := by
  change ((base >>> 24).setWidth 8).setWidth 32 <<< 24 ||| ((base >>> 16).setWidth 8).setWidth 32 <<< 16 |||
    (base.setWidth 16).setWidth 32 = base
  refine BitVec.eq_of_getLsbD_eq fun i hi => ?_
  simp only [BitVec.getLsbD_or, BitVec.getLsbD_shiftLeft, BitVec.getLsbD_setWidth, BitVec.getLsbD_ushiftRight]
  grind

theorem lsl_setLimit (hd : d.byte6.getLsbD 7 = true) : (d.setLimit limit).lsl = (limit - 1) >>> 12 <<< 12 ||| 0xfff#32 := by
  unfold lsl
  rw [setLimit_bits, setLimit_granular, if_pos hd]

theorem getLimit_setLimit (hd : d.byte6.getLsbD 7 = true) :
    (d.setLimit limit).getLimit.toNat = ((limit - 1).toNat / 4096 + 1) * 4096 % 2 ^ 32 := by
  have hlt := (limit - 1).isLt
  unfold getLimit
  rw [lsl_setLimit d limit hd, BitVec.toNat_add, BitVec.toNat_or, BitVec.toNat_shiftLeft, BitVec.toNat_ushiftRight,
    Nat.shiftRight_eq_div_pow, Nat.mod_eq_of_lt (show ((limit - 1).toNat / 2 ^ 12) <<< 12 < 2 ^ 32 by rw [Nat.shiftLeft_eq]; omega),
    show (0xfff#32).toNat = 2 ^ 12 - 1 from rfl, ← Nat.shiftLeft_add_eq_or_of_lt (by decide), Nat.shiftLeft_eq]
  have h1 : (1 : BitVec 32).toNat = 1 := rfl
  rw [h1]
  omega

end Desc

/-! ## change_ldt -/

/-- The segments of `change_ldt`, without the argument pages. -/
def Ldt.change (ldt : Ldt) (textSize : BitVec 32) : Ldt where
  code := (ldt.code.setBase ldt.code.getBase).setLimit ((textSize + PAGE_SIZE - 1) &&& 0xFFFFF000#32)
  data := (ldt.data.setBase ldt.code.getBase).setLimit 0x4000000
  pages := ⟨(Desc.setLimit_granular ..).trans ldt.pages.1, (Desc.setLimit_granular ..).trans ldt.pages.2⟩

theorem Ldt.change_data (ldt : Ldt) (textSize : BitVec 32) : (ldt.change textSize).data.getLimit.toNat = 0x4000000 := by
  refine (Desc.getLimit_setLimit (ldt.data.setBase ldt.code.getBase) _ ldt.pages.2).trans ?_
  decide

theorem and_pages (x : BitVec 32) : (x &&& 0xFFFFF000#32).toNat = x.toNat / 4096 * 4096 := by
  have h1 : x &&& 0xFFFFF000#32 = x >>> 12 <<< 12 := by
    refine BitVec.eq_of_getLsbD_eq fun i hi => ?_
    rw [show 0xFFFFF000#32 = ~~~BitVec.ofNat 32 (2 ^ 12 - 1) from rfl]
    simp only [BitVec.getLsbD_and, BitVec.getLsbD_not, getLsbD_ones, BitVec.getLsbD_shiftLeft, BitVec.getLsbD_ushiftRight]
    grind
  rw [h1, BitVec.toNat_shiftLeft, BitVec.toNat_ushiftRight, Nat.shiftRight_eq_div_pow, Nat.shiftLeft_eq]
  omega

/-- The text, rounded up to pages. -/
theorem Ldt.change_code (ldt : Ldt) {textSize : BitVec 32} (h0 : textSize ≠ 0) (hle : textSize.toNat ≤ 0x3000000) :
    (ldt.change textSize).code.getLimit.toNat = (textSize.toNat + 4095) / 4096 * 4096 := by
  have h1 : textSize.toNat ≠ 0 := fun h => h0 (BitVec.eq_of_toNat_eq h)
  have h2 : ((textSize + PAGE_SIZE - 1) &&& 0xFFFFF000#32).toNat = (textSize.toNat + 4095) / 4096 * 4096 := by
    rw [and_pages, BitVec.toNat_sub_of_le, BitVec.toNat_add]
    · have h3 : PAGE_SIZE.toNat = 4096 := rfl
      have h4 : (1 : BitVec 32).toNat = 1 := rfl
      rw [h3, h4]
      omega
    · rw [BitVec.le_def, BitVec.toNat_add]
      have h3 : PAGE_SIZE.toNat = 4096 := rfl
      have h4 : (1 : BitVec 32).toNat = 1 := rfl
      rw [h3, h4]
      omega
  have h3 : (1 : BitVec 32).toNat = 1 := rfl
  refine (Desc.getLimit_setLimit (ldt.code.setBase ldt.code.getBase) _ ldt.pages.1).trans ?_
  rw [BitVec.toNat_sub_of_le (by rw [BitVec.le_def, h2, h3]; omega), h2, h3]
  omega

/-- Without text the limit is the largest there is, which is 0 as an unsigned long. -/
theorem Ldt.change_code_zero (ldt : Ldt) : (ldt.change 0).code.getLimit.toNat = 0 := by
  refine (Desc.getLimit_setLimit (ldt.code.setBase ldt.code.getBase) _ ldt.pages.1).trans ?_
  decide

/-! ## What the checks let through -/

namespace Header

variable (ex : Header)

/-- The sizes fit the file and the 64 MB segment. -/
structure Fits (iSize : BitVec 32) (ldt : Ldt) : Prop where
  total : ex.aText.toNat + ex.aData.toNat + ex.aBss.toNat ≤ 0x3000000
  file : ex.aText.toNat + ex.aData.toNat + ex.aSyms.toNat + 1024 ≤ iSize.toNat
  code : ex.endCode.toNat ≤ ex.endData.toNat
  data : ex.endData.toNat ≤ ex.brk.toNat
  brk : ex.brk.toNat ≤ 0x3000000
  onePage : 4096 ≤ (ldt.change ex.aText).code.getLimit.toNat
  limit : (ldt.change ex.aText).code.getLimit.toNat ≤ (ldt.change ex.aText).data.getLimit.toNat
  segment : (ldt.change ex.aText).data.getLimit.toNat = 0x4000000

/-- Neither sum of the checks wraps, and there is some text. -/
structure Plain : Prop where
  total : ex.aText.toNat + ex.aData.toNat + ex.aBss.toNat < 2 ^ 32
  file : ex.aText.toNat + ex.aData.toNat + ex.aSyms.toNat + 1024 < 2 ^ 32
  text : ex.aText ≠ 0

theorem accepted_iff {iSize : BitVec 32} : ex.accepted iSize = true ↔ ex.aMagic = ZMAGIC ∧ ex.aTrsize = 0 ∧ ex.aDrsize = 0 ∧
    (ex.aText + ex.aData + ex.aBss).toNat ≤ 0x3000000 ∧
    (ex.aText + ex.aData + ex.aSyms + 1024).toNat ≤ iSize.toNat := by
  unfold accepted txtoff
  by_cases hm : ex.aMagic = ZMAGIC
  · simp [hm, SEGMENT_SIZE, BLOCK_SIZE, BitVec.lt_def, and_assoc]
  · simp [hm]

theorem headerLong_lt (b : Fs.Block) (k : ℕ) : Fs.headerLong b k < 2 ^ 32 := by
  have hw : ∀ j, b.word j < 65536 := fun j => by
    have h1 := (b (2 * j)).toNat_lt
    have h2 := (b (2 * j + 1)).toNat_lt
    unfold Fs.Block.word
    omega
  have h1 := hw (2 * k)
  have h2 := hw (2 * k + 1)
  unfold Fs.headerLong
  omega

/-- The same checks on the first block of the file. -/
theorem accepted_ofBlock (b : Fs.Block) {size : ℕ} (hs : size < 2 ^ 32) :
    (ofBlock b).accepted (BitVec.ofNat 32 size) = true ↔ Fs.goodHeader b size = true := by
  have hlong : ∀ k n : ℕ, n < 2 ^ 32 → (BitVec.ofNat 32 (Fs.headerLong b k) = BitVec.ofNat 32 n ↔ Fs.headerLong b k = n) := by
    intro k n hn
    rw [← BitVec.toNat_inj, BitVec.toNat_ofNat, BitVec.toNat_ofNat, Nat.mod_eq_of_lt (headerLong_lt b k), Nat.mod_eq_of_lt hn]
  have h4 : (1024 : BitVec 32).toNat = 1024 := rfl
  rw [accepted_iff]
  unfold ofBlock Fs.goodHeader
  simp only [BitVec.toNat_add, BitVec.toNat_ofNat, h4, Bool.and_eq_true, decide_eq_true_eq, and_assoc, Nat.mod_eq_of_lt hs,
    Nat.mod_add_mod, Nat.mod_eq_of_lt (headerLong_lt b _)]
  exact and_congr (hlong 0 _ (by decide)) (and_congr (hlong 6 0 (by decide)) (and_congr (hlong 7 0 (by decide)) Iff.rfl))

/-- The checks keep what they say exactly for headers whose sums do not wrap and that have some text. -/
theorem executables_fit (iSize : BitVec 32) (ldt : Ldt) :
    (ex.accepted iSize = true → ex.Fits iSize ldt) ↔ (ex.accepted iSize = true → ex.Plain) := by
  refine imp_congr_right fun hacc => ?_
  obtain ⟨-, -, -, htotal, hfile⟩ := ex.accepted_iff.mp hacc
  constructor
  · intro hf
    refine ⟨hf.total.trans_lt (by decide), hf.file.trans_lt iSize.isLt, fun h0 => ?_⟩
    have h1 := hf.onePage
    rw [h0, ldt.change_code_zero] at h1
    exact absurd h1 (by decide)
  · intro hp
    obtain ⟨h1, h2, h3⟩ := hp
    have h4 : (1024 : BitVec 32).toNat = 1024 := rfl
    simp only [BitVec.toNat_add, h4] at htotal hfile
    have hcode := ldt.change_code h3 (by omega)
    have h5 : ex.aText.toNat ≠ 0 := fun h => h3 (BitVec.eq_of_toNat_eq h)
    refine ⟨by omega, by omega, ?_, ?_, ?_, ?_, ?_, ldt.change_data _⟩
    · simp only [endCode, endData, BitVec.toNat_add]
      omega
    · simp only [brk, endCode, endData, BitVec.toNat_add]
      omega
    · simp only [brk, endCode, endData, BitVec.toNat_add]
      omega
    · rw [hcode]
      omega
    · rw [hcode, ldt.change_data]
      omega

/-- The text and the data of this header are 2 GB each; their sum is 0. -/
theorem executables_fit_not : ∃ (ex : Header) (iSize : BitVec 32), ex.accepted iSize = true ∧ ¬ ex.Fits iSize Ldt.init := by
  refine ⟨⟨ZMAGIC, 0x80000000, 0x80000000, 0, 0, 0, 0, 0⟩, 1024, by decide, fun hf => ?_⟩
  exact absurd hf.total (by decide)

end Header

end Linux011.Exec
