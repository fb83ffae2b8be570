/-
  The hard disk's sectors, kernel/blk_drv/hd.c: the tables `sys_setup` makes from the BIOS, the CMOS and
  the partition tables, and the command `do_hd_request` gives the controller. `hd_request_sector` says
  that the command means the sector of the request, and that the request stays in its partition.

  Reading `hd_info` while the controller is reset or recalibrated is in the driver's own module.
-/
import Linux011.Lib.Sizes
import Mathlib.Data.Nat.Notation
import Mathlib.Tactic.Common

namespace Linux011.Blk.Geometry

/-- `struct hd_i_struct`, with the widths of the BIOS table. -/
structure HdInfo where
  head : UInt8
  sect : UInt8
  cyl : UInt16
  wpcom : UInt16
  ctl : UInt8

/-- `struct hd_struct` -/
structure HdStruct where
  startSect : BitVec 32
  nrSects : BitVec 32

structure Setup where
  /-- `NR_HD` -/
  nrHd : ℕ
  hdInfo : ℕ → HdInfo
  hd : ℕ → HdStruct

def short (bytes : ℕ → UInt8) (a : ℕ) : UInt16 := UInt16.ofNat ((bytes a).toNat + 256 * (bytes (a + 1)).toNat)

def long (bytes : ℕ → UInt8) (a : ℕ) : BitVec 32 :=
  BitVec.ofNat 32 ((short bytes a).toNat + 65536 * (short bytes (a + 2)).toNat)

/-- The entry of a drive in the table of the BIOS. -/
def biosInfo (bios : ℕ → UInt8) (drive : ℕ) : HdInfo where
  cyl := short bios (16 * drive)
  head := bios (16 * drive + 2)
  wpcom := short bios (16 * drive + 5)
  ctl := bios (16 * drive + 8)
  sect := bios (16 * drive + 14)

/-- `head*sect*cyl` -/
def HdInfo.sectors (x : HdInfo) : ℕ := x.head.toNat * x.sect.toNat * x.cyl.toNat

/-- The first block of a drive ends its first sector with the mark of a partition table. -/
def tableOk (b : ℕ → UInt8) : Bool := b 510 = 0x55 ∧ b 511 = 0xAA

def partition (b : ℕ → UInt8) (i : ℕ) : HdStruct := ⟨long b (0x1BE + 16 * (i - 1) + 8), long b (0x1BE + 16 * (i - 1) + 12)⟩

/-- How many drives the CMOS has. -/
def cmosDrives (cmos : UInt8) : ℕ := if cmos &&& 0xf0 ≠ 0 then if cmos &&& 0x0f ≠ 0 then 2 else 1 else 0

/-- `sys_setup`; `none` for a panic. `block` is what `bread` has for the first block of a drive. -/
def sysSetup (bios : ℕ → UInt8) (cmos : UInt8) (block : ℕ → Option (ℕ → UInt8)) : Option Setup :=
  let info := biosInfo bios
  let nrBios := if (info 1).cyl ≠ 0 then 2 else 1
  let nrHd := cmosDrives cmos
  if (List.range nrHd).all fun drive => ((block drive).map tableOk).getD false then
    some ⟨nrHd, info, fun minor =>
      if nrHd ≤ minor / 5 then ⟨0, 0⟩
      else if minor % 5 = 0 then
        ⟨0, if minor / 5 < nrBios then BitVec.ofNat 32 (info (minor / 5)).sectors else 0⟩
      else match block (minor / 5) with
        | none => ⟨0, 0⟩
        | some b => partition b (minor % 5)⟩
  else none

/-- The registers of the controller behind HD_CMD. -/
structure Regs where
  ctl : UInt8
  precomp : UInt8
  nsector : UInt8
  sector : UInt8
  lcyl : UInt8
  hcyl : UInt8
  current : UInt8
  command : UInt8

def WIN_READ : UInt8 := 0x20

def WIN_WRITE : UInt8 := 0x30

/-- `hd_out`; `none` for "Trying to write bad sector". -/
def hdOut (info : ℕ → HdInfo) (drive nsect sect head cyl : ℕ) (cmd : UInt8) : Option Regs :=
  if 1 < drive ∨ 15 < head then none
  else some ⟨(info drive).ctl, UInt8.ofNat ((info drive).wpcom.toNat / 4), UInt8.ofNat nsect, UInt8.ofNat sect, UInt8.ofNat cyl,
    UInt8.ofNat (cyl / 256), UInt8.ofNat (0xA0 ||| (drive * 16) ||| head), cmd⟩

inductive Action
  /-- `end_request(0)` -/
  | fail
  | out (r : Regs)

/-- The transfer of `do_hd_request`; `none` for a panic or a division by 0. -/
def Setup.doHdRequest (S : Setup) (dev : ℕ) (sector : BitVec 32) (nsect : ℕ) (write : Bool) : Option Action :=
  if 5 * S.nrHd ≤ dev ∨ (S.hd dev).nrSects < sector + 2 then some .fail
  else
    let block := (sector + (S.hd dev).startSect).toNat
    let x := S.hdInfo (dev / 5)
    if x.sect = 0 ∨ x.head = 0 then none
    else
      let sec := block % x.sect.toNat + 1
      let track := block / x.sect.toNat
      (hdOut S.hdInfo (dev / 5) nsect sec (track % x.head.toNat) (track / x.head.toNat)
        (if write then WIN_WRITE else WIN_READ)).map .out

/-! ## What the controller does -/

namespace Regs

variable (r : Regs)

def drive : ℕ := r.current.toNat / 16 % 2

def head : ℕ := r.current.toNat % 16

def cyl : ℕ := r.lcyl.toNat + 256 * r.hcyl.toNat

/-- The sector of a drive with this many heads and sectors, counted from 0. -/
def lba (x : HdInfo) : ℕ := (r.cyl * x.head.toNat + r.head) * x.sect.toNat + r.sector.toNat - 1

end Regs

variable {bios : ℕ → UInt8} {cmos : UInt8} {block : ℕ → Option (ℕ → UInt8)} {S : Setup} {r : Regs} {info : ℕ → HdInfo}

theorem current_bits : ∀ (d : Fin 2) (h : Fin 16), (UInt8.ofNat (0xA0 ||| (d.val * 16) ||| h.val)).toNat / 16 % 2 = d ∧
    (UInt8.ofNat (0xA0 ||| (d.val * 16) ||| h.val)).toNat % 16 = h := by decide

theorem hdOut_spec {drive nsect sect head cyl : ℕ} {cmd : UInt8} (h : hdOut info drive nsect sect head cyl cmd = some r)
    (hs : sect < 256) (hc : cyl < 65536) : r.drive = drive ∧ r.head = head ∧ r.cyl = cyl ∧ r.sector.toNat = sect := by
  unfold hdOut at h
  split_ifs at h with hd
  obtain ⟨hd, hh⟩ := not_or.mp hd
  obtain rfl := Option.some.inj h
  obtain ⟨h1, h2⟩ := current_bits ⟨drive, by omega⟩ ⟨head, by omega⟩
  refine ⟨h1, h2, ?_, ?_⟩
  · change (UInt8.ofNat cyl).toNat + 256 * (UInt8.ofNat (cyl / 256)).toNat = cyl
    rw [UInt8.toNat_ofNat', UInt8.toNat_ofNat']
    omega
  · change (UInt8.ofNat sect).toNat = sect
    rw [UInt8.toNat_ofNat']
    omega

theorem sectors_lt (x : HdInfo) : x.sectors < 2 ^ 32 := by
  have hhead := x.head.toNat_lt
  have hsect := x.sect.toNat_lt
  have hcyl := x.cyl.toNat_lt
  have h1 : x.head.toNat * x.sect.toNat ≤ 255 * 255 := Nat.mul_le_mul (by omega) (by omega)
  have h2 : x.sectors ≤ 255 * 255 * 65535 := Nat.mul_le_mul h1 (by omega)
  omega

/-- The device of a whole drive has its sectors, or none. -/
theorem sysSetup_drive (h : sysSetup bios cmos block = some S) {dev : ℕ} (hdev : dev % 5 = 0) :
    (S.hd dev).startSect = 0 ∧ (S.hd dev).nrSects.toNat ≤ (S.hdInfo (dev / 5)).sectors := by
  unfold sysSetup at h
  dsimp only at h
  split at h
  · obtain rfl := Option.some.inj h
    dsimp only
    rw [if_pos hdev]
    by_cases h1 : cmosDrives cmos ≤ dev / 5
    · rw [if_pos h1]
      exact ⟨rfl, Nat.zero_le _⟩
    · rw [if_neg h1]
      refine ⟨rfl, ?_⟩
      dsimp only
      by_cases h2 : dev / 5 < if (biosInfo bios 1).cyl ≠ 0 then 2 else 1
      · rw [if_pos h2, BitVec.toNat_ofNat]
        exact Nat.mod_le ..
      · rw [if_neg h2]
        exact Nat.zero_le _
  · cases h

/-- The sector of a request is the one the controller computes from the registers. -/
theorem lba_split {s h n : ℕ} : (n / s / h * h + n / s % h) * s + (n % s + 1) - 1 = n := by
  rw [Nat.div_add_mod', ← Nat.add_assoc, Nat.add_sub_cancel, Nat.div_add_mod']

/-- A transfer is asked for at the sector of the drive that the request means: nothing is cut off in the
    registers, and it stays in its partition and on the drive, if the partition table does. A sector
    number within two of the end of the numbers would pass the test of its end. -/
theorem hd_request_sector (hS : sysSetup bios cmos block = some S) {dev nsect : ℕ} {sector : BitVec 32} {write : Bool}
    (hr : S.doHdRequest dev sector nsect write = some (.out r)) (hwrap : sector.toNat + 2 < 2 ^ 32)
    (htable : dev % 5 ≠ 0 → (S.hd dev).startSect.toNat + (S.hd dev).nrSects.toNat ≤ (S.hdInfo (dev / 5)).sectors) :
    r.drive = dev / 5 ∧ r.lba (S.hdInfo (dev / 5)) = (S.hd dev).startSect.toNat + sector.toNat ∧
      sector.toNat + 2 ≤ (S.hd dev).nrSects.toNat ∧ r.lba (S.hdInfo (dev / 5)) + 2 ≤ (S.hdInfo (dev / 5)).sectors := by
  have hdisk : (S.hd dev).startSect.toNat + (S.hd dev).nrSects.toNat ≤ (S.hdInfo (dev / 5)).sectors := by
    by_cases hdev : dev % 5 = 0
    · obtain ⟨h1, h2⟩ := sysSetup_drive hS hdev
      rw [h1]
      exact Nat.le_trans (Nat.le_of_eq (Nat.zero_add _)) h2
    · exact htable hdev
  have hlt := sectors_lt (S.hdInfo (dev / 5))
  unfold Setup.doHdRequest at hr
  by_cases hend : 5 * S.nrHd ≤ dev ∨ (S.hd dev).nrSects < sector + 2
  · rw [if_pos hend] at hr
    cases hr
  rw [if_neg hend] at hr
  obtain ⟨-, hend⟩ := not_or.mp hend
  dsimp only at hr
  by_cases h0 : (S.hdInfo (dev / 5)).sect = 0 ∨ (S.hdInfo (dev / 5)).head = 0
  · rw [if_pos h0] at hr
    cases hr
  rw [if_neg h0] at hr
  obtain ⟨hsect, hhead⟩ := not_or.mp h0
  obtain ⟨r', hout, he⟩ := Option.map_eq_some_iff.mp hr
  obtain rfl : r' = r := by cases he; rfl
  -- neither sum goes around
  have hfit : sector.toNat + 2 ≤ (S.hd dev).nrSects.toNat := by
    have h2 : (sector + 2).toNat = sector.toNat + 2 := by
      rw [BitVec.toNat_add]
      exact Nat.mod_eq_of_lt hwrap
    rw [BitVec.lt_def, h2] at hend
    omega
  have hblock : (sector + (S.hd dev).startSect).toNat = (S.hd dev).startSect.toNat + sector.toNat := by
    rw [BitVec.toNat_add]
    omega
  rw [hblock] at hout
  have hsectors : (S.hd dev).startSect.toNat + sector.toNat + 2 ≤ (S.hdInfo (dev / 5)).sectors := by omega
  generalize (S.hd dev).startSect.toNat + sector.toNat = n at hout hsectors ⊢
  have hpos : 0 < (S.hdInfo (dev / 5)).sect.toNat := Nat.pos_of_ne_zero fun h => hsect (UInt8.toNat_inj.mp h)
  have hsec : n % (S.hdInfo (dev / 5)).sect.toNat + 1 < 256 := by
    have := Nat.mod_lt n hpos
    have := (S.hdInfo (dev / 5)).sect.toNat_lt
    omega
  have hcyl : n / (S.hdInfo (dev / 5)).sect.toNat / (S.hdInfo (dev / 5)).head.toNat < 65536 := by
    rw [Nat.div_div_eq_div_mul]
    have hc := (S.hdInfo (dev / 5)).cyl.toNat_lt
    refine Nat.lt_trans (Nat.div_lt_of_lt_mul (k := (S.hdInfo (dev / 5)).cyl.toNat) ?_) hc
    rw [Nat.mul_comm (S.hdInfo (dev / 5)).sect.toNat]
    exact Nat.lt_of_lt_of_le (by omega) hsectors
  obtain ⟨hdrive, hh, hc, hs⟩ := hdOut_spec hout hsec hcyl
  have hlba : r'.lba (S.hdInfo (dev / 5)) = n := by
    unfold Regs.lba
    rw [hc, hh, hs]
    exact lba_split
  exact ⟨hdrive, hlba, hfit, by rw [hlba]; exact hsectors⟩

/-- A drive with 615 cylinders of 4 heads and 17 sectors. -/
def bios20 (a : ℕ) : UInt8 := if a = 0 then 103 else if a = 1 then 2 else if a = 2 then 4 else if a = 14 then 17 else 0

/-- A partition of 1000 sectors from sector 17 on. -/
def table20 (a : ℕ) : UInt8 :=
  if a = 510 then 0x55 else if a = 511 then 0xAA else if a = 454 then 17 else if a = 458 then 232 else if a = 459 then 3 else 0

theorem hd_request_sector_partition : ∃ S r, sysSetup bios20 0xf0 (fun _ => some table20) = some S ∧
    S.doHdRequest 1 100 2 false = some (.out r) ∧ r.drive = 0 ∧ r.lba (S.hdInfo 0) = 117 := by
  obtain ⟨S, r, hS, hr, hstart, htable⟩ : ∃ S r, sysSetup bios20 0xf0 (fun _ => some table20) = some S ∧
      S.doHdRequest 1 100 2 false = some (.out r) ∧ (S.hd 1).startSect.toNat = 17 ∧
      (S.hd 1).startSect.toNat + (S.hd 1).nrSects.toNat ≤ (S.hdInfo (1 / 5)).sectors :=
    ⟨_, _, rfl, rfl, by decide, by decide⟩
  obtain ⟨hdrive, hlba, -⟩ := hd_request_sector hS hr (by decide) fun _ => htable
  rw [hstart] at hlba
  exact ⟨S, r, hS, hr, hdrive, hlba⟩

end Linux011.Blk.Geometry
