/-
  The segment descriptors byte by byte (include/linux/sched.h): `set_base`, `set_limit` and `get_base`
  move the bytes through edx. `desc` is the view that `change_ldt` has of them.
-/
import Linux011.Exec.Header
import Mathlib.Tactic.FinCases

namespace Linux011.Exec

/-! ## The registers -/

def dl (edx : BitVec 32) : BitVec 8 := edx.setWidth 8
def dh (edx : BitVec 32) : BitVec 8 := (edx >>> 8).setWidth 8
def dx (edx : BitVec 32) : BitVec 16 := edx.setWidth 16

def withDl (edx : BitVec 32) (b : BitVec 8) : BitVec 32 := edx.extractLsb' 8 24 ++ b
def withDh (edx : BitVec 32) (b : BitVec 8) : BitVec 32 := edx.extractLsb' 16 16 ++ b ++ dl edx
def withDx (edx : BitVec 32) (w : BitVec 16) : BitVec 32 := edx.extractLsb' 16 16 ++ w

/-- The eight bytes of a descriptor. -/
def Descriptor : Type := Fin 8 → BitVec 8

namespace Descriptor

variable (d : Descriptor) (base limit edx : BitVec 32)

def movb (k : Fin 8) (b : BitVec 8) : Descriptor := Function.update d k b

def movw (k : Fin 8) (w : BitVec 16) : Descriptor := (d.movb k (w.setWidth 8)).movb (k + 1) ((w >>> 8).setWidth 8)

def setBase : Descriptor :=
  let d := d.movw 2 (dx base)
  let edx := base.rotateRight 16
  let d := d.movb 4 (dl edx)
  d.movb 7 (dh edx)

/-- `_set_limit` -/
def setPages : Descriptor :=
  let d := d.movw 0 (dx limit)
  let edx := limit.rotateRight 16
  let edx := withDh edx (d 6)
  let edx := withDh edx (dh edx &&& 0xf0)
  let edx := withDl edx (dl edx ||| dh edx)
  d.movb 6 (dl edx)

def setLimit : Descriptor := d.setPages ((limit - 1) >>> 12)

/-- `edx` holds anything before. -/
def getBase : BitVec 32 :=
  let edx := withDh edx (d 7)
  let edx := withDl edx (d 4)
  withDx (edx <<< 16) (d 3 ++ d 2)

/-! ## What the processor makes of the bytes -/

def desc : Desc := ⟨d 1 ++ d 0, d 3 ++ d 2, d 4, d 6, d 7⟩

/-- `lsll` and `incl` -/
def getLimit : BitVec 32 := d.desc.getLimit

def base32 : BitVec 32 := d 7 ++ d 4 ++ d 3 ++ d 2
def limit20 : BitVec 20 := (d 6).setWidth 4 ++ d 1 ++ d 0
def type : BitVec 8 := d 5
def flags : BitVec 4 := (d 6 >>> 4).setWidth 4

theorem movb_apply (k j : Fin 8) (b : BitVec 8) : d.movb k b j = if j = k then b else d j := Function.update_apply ..

theorem getBase_eq : d.getBase edx = d.base32 := by
  unfold getBase base32 withDh withDl withDx
  refine BitVec.eq_of_getLsbD_eq fun i hi => ?_
  simp only [BitVec.getLsbD_append, BitVec.getLsbD_extractLsb', BitVec.getLsbD_shiftLeft]
  grind

theorem word_bytes (w : BitVec 16) : (w >>> 8).setWidth 8 ++ w.setWidth 8 = w := by
  refine BitVec.eq_of_getLsbD_eq fun i hi => ?_
  simp only [BitVec.getLsbD_append, BitVec.getLsbD_setWidth, BitVec.getLsbD_ushiftRight]
  grind

theorem dl_rotate : dl (edx.rotateRight 16) = (edx >>> 16).setWidth 8 := by
  refine BitVec.eq_of_getLsbD_eq fun i hi => ?_
  simp only [dl, BitVec.getLsbD_setWidth, BitVec.getLsbD_ushiftRight, BitVec.getLsbD_rotateRight]
  grind

theorem dh_rotate : dh (edx.rotateRight 16) = (edx >>> 24).setWidth 8 := by
  refine BitVec.eq_of_getLsbD_eq fun i hi => ?_
  simp only [dh, BitVec.getLsbD_setWidth, BitVec.getLsbD_ushiftRight, BitVec.getLsbD_rotateRight]
  grind

theorem dl_withDl (b : BitVec 8) : dl (withDl edx b) = b := by
  refine BitVec.eq_of_getLsbD_eq fun i hi => ?_
  simp only [dl, withDl, BitVec.getLsbD_append, BitVec.getLsbD_setWidth]
  grind

theorem dl_withDh (b : BitVec 8) : dl (withDh edx b) = dl edx := by
  refine BitVec.eq_of_getLsbD_eq fun i hi => ?_
  simp only [dl, withDh, BitVec.getLsbD_append, BitVec.getLsbD_setWidth]
  grind

theorem dh_withDh (b : BitVec 8) : dh (withDh edx b) = b := by
  refine BitVec.eq_of_getLsbD_eq fun i hi => ?_
  simp only [dh, withDh, BitVec.getLsbD_append, BitVec.getLsbD_setWidth, BitVec.getLsbD_ushiftRight]
  grind

/-! ## The view of change_ldt -/

theorem desc_setBase : (d.setBase base).desc = d.desc.setBase base := by
  have hdesc : (d.setBase base).desc = ⟨d 1 ++ d 0, (dx base >>> 8).setWidth 8 ++ (dx base).setWidth 8,
    dl (base.rotateRight 16), d 6, dh (base.rotateRight 16)⟩ := rfl
  rw [hdesc, word_bytes, dl_rotate, dh_rotate]
  rfl

theorem desc_setLimit : (d.setLimit limit).desc = d.desc.setLimit limit := by
  let l := (limit - 1) >>> 12
  let edx := withDh (l.rotateRight 16) (d 6)
  have hdesc : (d.setLimit limit).desc = ⟨(dx l >>> 8).setWidth 8 ++ (dx l).setWidth 8, d 3 ++ d 2, d 4,
    dl (withDl (withDh edx (dh edx &&& 0xf0)) (dl (withDh edx (dh edx &&& 0xf0)) ||| dh (withDh edx (dh edx &&& 0xf0)))), d 7⟩ := rfl
  rw [hdesc, word_bytes, dl_withDl, dl_withDh, dh_withDh, dl_withDh, dh_withDh, dl_rotate, BitVec.or_comm]
  rfl

theorem nibble_append (b : BitVec 8) (w : BitVec 16) :
    (b.setWidth 4 ++ w).setWidth 32 = (b &&& 0xf#8).setWidth 32 <<< 16 ||| w.setWidth 32 := by
  refine BitVec.eq_of_getLsbD_eq fun i hi => ?_
  rw [show 0xf#8 = BitVec.ofNat 8 (2 ^ 4 - 1) from rfl]
  simp only [BitVec.getLsbD_setWidth, BitVec.getLsbD_or, BitVec.getLsbD_shiftLeft, BitVec.getLsbD_and, BitVec.getLsbD_append,
    getLsbD_ones]
  grind

theorem limit20_setLimit : (d.setLimit limit).limit20.setWidth 32 = (limit - 1) >>> 12 := by
  have hbits := d.desc.setLimit_bits limit
  rw [← desc_setLimit] at hbits
  rw [← hbits]
  generalize d.setLimit limit = d
  refine (congrArg (BitVec.setWidth 32) ?_).trans (nibble_append (d 6) (d 1 ++ d 0))
  exact BitVec.append_assoc ..

theorem flags_setLimit : (d.setLimit limit).flags = d.flags := by
  have h6 : d.setLimit limit 6 = d 6 &&& 0xf0#8 ||| ((limit - 1) >>> 12 >>> 16).setWidth 8 :=
    congrArg Desc.byte6 (d.desc_setLimit limit)
  unfold flags
  rw [h6]
  refine BitVec.eq_of_getLsbD_eq fun i hi => ?_
  have hout : (limit - 1).getLsbD (12 + (16 + (4 + i))) = false := BitVec.getLsbD_of_ge _ _ (by omega)
  rw [show 0xf0#8 = ~~~BitVec.ofNat 8 (2 ^ 4 - 1) from rfl]
  simp only [BitVec.getLsbD_setWidth, BitVec.getLsbD_ushiftRight, BitVec.getLsbD_or, BitVec.getLsbD_and, BitVec.getLsbD_not,
    getLsbD_ones, hout]
  grind

theorem base32_setBase : (d.setBase base).base32 = base := by
  have hbase : (d.setBase base).base32 =
    dh (base.rotateRight 16) ++ dl (base.rotateRight 16) ++ (dx base >>> 8).setWidth 8 ++ (dx base).setWidth 8 := rfl
  rw [hbase, dl_rotate, dh_rotate]
  refine BitVec.eq_of_getLsbD_eq fun i hi => ?_
  simp only [dx, BitVec.getLsbD_append, BitVec.getLsbD_setWidth, BitVec.getLsbD_ushiftRight]
  grind

/-- `set_base` and `set_limit` store what they say and nothing else, in any order, and `get_base` and
    `get_limit` read it back: the limit is rounded up to pages, in 32 bits. -/
theorem segment_descriptor_codec (d : Descriptor) (base limit : BitVec 32) :
    (∀ edx, (d.setBase base).getBase edx = base) ∧
    ((d.setBase base).limit20 = d.limit20 ∧ (d.setBase base).type = d.type ∧ (d.setBase base).flags = d.flags) ∧
    (d.setLimit limit).limit20.setWidth 32 = (limit - 1) >>> 12 ∧
    ((d.setLimit limit).base32 = d.base32 ∧ (d.setLimit limit).type = d.type ∧ (d.setLimit limit).flags = d.flags) ∧
    (d.setBase base).setLimit limit = (d.setLimit limit).setBase base ∧
    (d.flags.getLsbD 3 = true → (d.setLimit limit).getLimit.toNat = (limit.toNat + 4095) / 4096 * 4096 % 2 ^ 32) := by
  refine ⟨fun edx => ?_, ⟨rfl, rfl, rfl⟩, d.limit20_setLimit limit, ⟨rfl, rfl, d.flags_setLimit limit⟩, ?_, fun hg => ?_⟩
  · rw [getBase_eq, base32_setBase]
  · funext k
    fin_cases k <;> rfl
  · have hg' : d.desc.byte6.getLsbD 7 = true := by
      rw [← hg]
      simp [flags, desc]
    unfold getLimit
    rw [desc_setLimit, Desc.getLimit_setLimit d.desc limit hg']
    have hlt := limit.isLt
    have hsub : (limit - 1).toNat = (limit.toNat + (2 ^ 32 - 1)) % 2 ^ 32 := by
      rw [BitVec.toNat_sub, Nat.add_comm]
      rfl
    omega

/-- The code segment of INIT_TASK. -/
def initCode : Descriptor := fun k => [0x9f, 0, 0, 0, 0, 0xfa, 0xc0, 0].getD k 0

theorem segment_descriptor_codec_page : initCode.flags.getLsbD 3 = true ∧ (initCode.setLimit 0x1001).getLimit.toNat = 0x2000 :=
  ⟨by decide, (segment_descriptor_codec initCode 0 0x1001).2.2.2.2.2 (by decide)⟩

/-- A limit in the last page: what it is rounded up to is not an unsigned long. -/
theorem get_limit_of_last_page : 1 ≤ (0xffffffff : BitVec 32) ∧ initCode.flags.getLsbD 3 = true ∧
    (initCode.setLimit 0xffffffff).getLimit.toNat ≠ ((0xffffffff : BitVec 32).toNat + 4095) / 4096 * 4096 := by
  decide

end Descriptor

end Linux011.Exec
