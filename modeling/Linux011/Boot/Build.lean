/-
  `main` of tools/build.c: bootsect, setup and system are put together to an image. A file that
  cannot be opened is `none`, and every write comes through. `build_eq_ok` says when there is an
  image, and which.
-/
import Linux011.Lib.Except
import Mathlib.Data.List.Basic
import Mathlib.Tactic.Ring
import Mathlib.Tactic.SplitIfs

namespace Linux011.Boot.Build

open Linux011.Lib

abbrev File := List UInt8

def MINIX_HEADER : ℕ := 32
def GCC_HEADER : ℕ := 1024
def SETUP_SECTS : ℕ := 4
def SYS_SIZE : ℕ := 0x2000

/-- The fourth argument of the program. -/
inductive RootArg where
  | none
  | floppy
  /-- the device number that `stat` finds, if it finds one -/
  | device (rdev : Option ℕ)

/-- Minor and major number. -/
def rootDev : RootArg → Except String (UInt8 × UInt8)
  | .none => .ok (6, 3)
  | .floppy => .ok (0, 0)
  | .device Option.none => .error "Couldn't stat root device."
  | .device (some rdev) => .ok (UInt8.ofNat (rdev % 256), UInt8.ofNat (rdev / 256))

/-- The little-endian number in the first `n` bytes. -/
def word : ℕ → File → ℕ
  | 0, _ => 0
  | _ + 1, [] => 0
  | n + 1, b :: f => b.toNat + 256 * word n f

/-- `((long *) buf)[i]` -/
def long (buf : File) (i : ℕ) : ℕ := word 4 (buf.drop (4 * i))

/-- The file behind a header of the assembler. -/
def minixHeader (name : String) (file : File) : Except String File :=
  let buf := file.take MINIX_HEADER
  if buf.length ≠ MINIX_HEADER then throw s!"Unable to read header of '{name}'"
  else if long buf 0 ≠ 0x04100301 then throw s!"Non-Minix header of '{name}'"
  else if long buf 1 ≠ MINIX_HEADER then throw s!"Non-Minix header of '{name}'"
  else if long buf 3 ≠ 0 then throw s!"Illegal data segment in '{name}'"
  else if long buf 4 ≠ 0 then throw s!"Illegal bss in '{name}'"
  else if long buf 5 ≠ 0 then throw s!"Non-Minix header of '{name}'"
  else if long buf 7 ≠ 0 then throw s!"Illegal symbol table in '{name}'"
  else return file.drop MINIX_HEADER

/-- The loop that copies the rest of a file by 1024 bytes, with the count. -/
def copyRest (out : File) (i : ℕ) (file : File) : File × ℕ :=
  if _h : file = [] then (out, i) else copyRest (out ++ file.take 1024) (i + (file.take 1024).length) (file.drop 1024)
termination_by file.length
decreasing_by
  have := List.length_pos_iff.mpr _h
  rw [List.length_drop]
  omega

/-- The loop that fills the sectors of setup with zeros. -/
def pad (out : File) (i : ℕ) : File :=
  if i < SETUP_SECTS * 512 then pad (out ++ List.replicate (min (SETUP_SECTS * 512 - i) 1024) 0) (i + min (SETUP_SECTS * 512 - i) 1024)
  else out
termination_by SETUP_SECTS * 512 - i

def openFile (name : String) : Option File → Except String File
  | none => throw s!"Unable to open '{name}'"
  | some file => return file

/-- The boot sector, with the root device put in. -/
def bootSector (root : UInt8 × UInt8) (boot : Option File) : Except String File := do
  let buf := (← minixHeader "boot" (← openFile "boot" boot)).take 1024
  if buf.length ≠ 512 then throw "Boot block must be exactly 512 bytes"
  else if word 2 (buf.drop 510) ≠ 0xAA55 then throw "Boot block hasn't got boot flag (0xAA55)"
  else return (buf.set 508 root.1).set 509 root.2

/-- The text of the last check has the name of the macro in it. -/
def addSetup (out : File) (setup : Option File) : Except String File := do
  let c := copyRest out 0 (← minixHeader "setup" (← openFile "setup" setup))
  if c.2 > SETUP_SECTS * 512 then throw "Setup exceeds SETUP_SECTS sectors - rewrite build/boot/setup"
  else return pad c.1 c.2

def addSystem (out : File) (system : Option File) : Except String File := do
  let file ← openFile "system" system
  let buf := file.take GCC_HEADER
  if buf.length ≠ GCC_HEADER then throw "Unable to read header of 'system'"
  else if long buf 5 ≠ 0 then throw "Non-GCC header of 'system'"
  else
    let c := copyRest out 0 (file.drop GCC_HEADER)
    if c.2 > SYS_SIZE * 16 then throw "System is too big" else return c.1

def build (arg : RootArg) (boot setup system : Option File) : Except String File := do
  let root ← rootDev arg
  if root.2 ≠ 2 ∧ root.2 ≠ 3 ∧ root.2 ≠ 0 then throw "Bad root device --- major #"
  else addSystem (← addSetup (← bootSector root boot) setup) system

/-- A header that the program takes. -/
structure Headed (file : File) : Prop where
  length : MINIX_HEADER ≤ file.length
  magic : long (file.take MINIX_HEADER) 0 = 0x04100301
  size : long (file.take MINIX_HEADER) 1 = MINIX_HEADER
  data : long (file.take MINIX_HEADER) 3 = 0
  bss : long (file.take MINIX_HEADER) 4 = 0
  entry : long (file.take MINIX_HEADER) 5 = 0
  symbols : long (file.take MINIX_HEADER) 7 = 0

/-- What the program puts together: the payloads behind the headers, and the device. -/
structure Parts where
  boot : File
  setup : File
  system : File
  root : UInt8 × UInt8

/-- The image of the parts. -/
def Parts.image (p : Parts) : File :=
  (p.boot.set 508 p.root.1).set 509 p.root.2 ++ (p.setup ++ List.replicate (2048 - p.setup.length) 0) ++ p.system

/-- The parts have the sizes that the boot code counts on. -/
structure Parts.Fit (p : Parts) : Prop where
  boot : p.boot.length = 512
  setup : p.setup.length ≤ 2048
  system : p.system.length ≤ 0x20000
  flag : word 2 (p.boot.drop 510) = 0xAA55
  major : p.root.2 = 2 ∨ p.root.2 = 3 ∨ p.root.2 = 0

/-- The files have the parts behind their headers. -/
structure Holds (arg : RootArg) (boot setup system : Option File) (p : Parts) : Prop where
  root : rootDev arg = .ok p.root
  boot : ∃ f, boot = some f ∧ Headed f ∧ f.drop MINIX_HEADER = p.boot
  setup : ∃ f, setup = some f ∧ Headed f ∧ f.drop MINIX_HEADER = p.setup
  system : ∃ f, system = some f ∧ GCC_HEADER ≤ f.length ∧ long (f.take GCC_HEADER) 5 = 0 ∧ f.drop GCC_HEADER = p.system

theorem copyRest_eq (out : File) (i : ℕ) (file : File) : copyRest out i file = (out ++ file, i + file.length) := by
  fun_induction copyRest out i file with
  | case1 out i => rw [List.append_nil, List.length_nil, Nat.add_zero]
  | case2 out i file h ih =>
    rw [ih, List.append_assoc, List.take_append_drop, Nat.add_assoc, ← List.length_append, List.take_append_drop]

theorem pad_eq (out : File) (i : ℕ) : pad out i = out ++ List.replicate (2048 - i) 0 := by
  have h4 : SETUP_SECTS * 512 = 2048 := rfl
  fun_induction pad out i with
  | case1 out i h ih =>
    rw [ih, List.append_assoc, List.replicate_append_replicate]
    congr 2
    omega
  | case2 out i h => rw [show 2048 - i = 0 by omega, List.replicate_zero, List.append_nil]

variable {name : String} {file f out : File}

theorem minixHeader_ok : minixHeader name file = .ok f ↔ Headed file ∧ file.drop MINIX_HEADER = f := by
  unfold minixHeader
  simp only [check_eq_ok, not_not]
  refine ⟨fun h => ?_, fun h => ?_⟩
  · obtain ⟨hlen, h0, h1, h3, h4, h5, h7, h⟩ := h
    refine ⟨⟨?_, h0, h1, h3, h4, h5, h7⟩, by cases h; rfl⟩
    rw [List.length_take] at hlen
    exact hlen ▸ Nat.min_le_right ..
  · obtain ⟨h, rfl⟩ := h
    exact ⟨List.length_take_of_le h.length, h.magic, h.size, h.data, h.bss, h.entry, h.symbols, rfl⟩

theorem openFile_ok {file : Option File} : openFile name file = .ok f ↔ file = some f := by
  cases file with
  | none =>
    refine ⟨fun h => ?_, fun h => ?_⟩
    · cases h
    · cases h
  | some file =>
    refine ⟨fun h => ?_, fun h => ?_⟩
    · cases h
      rfl
    · cases h
      rfl

/-- What the program needs of a file: the part behind its header. -/
theorem opened_ok {file : Option File} :
    openFile name file >>= minixHeader name = .ok f ↔ ∃ g, file = some g ∧ Headed g ∧ g.drop MINIX_HEADER = f := by
  rw [bind_eq_ok]
  exact exists_congr fun g => by rw [openFile_ok, minixHeader_ok]

variable {root : UInt8 × UInt8} {boot setup system : Option File}

theorem bootSector_ok : bootSector root boot = .ok out ↔ ∃ p, (∃ g, boot = some g ∧ Headed g ∧ g.drop MINIX_HEADER = p) ∧
    p.length = 512 ∧ word 2 (p.drop 510) = 0xAA55 ∧ out = (p.set 508 root.1).set 509 root.2 := by
  have htake : ∀ p : File, (p.take 1024).length = 512 ↔ p.length = 512 := fun p => by
    rw [List.length_take]
    omega
  unfold bootSector
  rw [← bind_assoc, bind_eq_ok]
  refine exists_congr fun p => and_congr opened_ok ?_
  dsimp only
  rw [check_eq_ok, check_eq_ok, not_not, not_not, htake]
  refine and_congr_right fun hlen => ?_
  rw [List.take_of_length_le (by omega)]
  exact and_congr_right fun _ => return_eq_ok

theorem addSetup_ok {out' : File} : addSetup out setup = .ok out' ↔ ∃ p, (∃ g, setup = some g ∧ Headed g ∧ g.drop MINIX_HEADER = p) ∧
    p.length ≤ 2048 ∧ out' = out ++ (p ++ List.replicate (2048 - p.length) 0) := by
  unfold addSetup
  rw [← bind_assoc, bind_eq_ok]
  refine exists_congr fun p => and_congr opened_ok ?_
  dsimp only
  rw [check_eq_ok, copyRest_eq, pad_eq, Nat.zero_add, not_lt, List.append_assoc]
  exact and_congr_right fun _ => return_eq_ok

theorem addSystem_ok {out' : File} : addSystem out system = .ok out' ↔
    ∃ p, (∃ g, system = some g ∧ GCC_HEADER ≤ g.length ∧ long (g.take GCC_HEADER) 5 = 0 ∧ g.drop GCC_HEADER = p) ∧
      p.length ≤ 0x20000 ∧ out' = out ++ p := by
  have htake : ∀ g : File, (g.take GCC_HEADER).length = GCC_HEADER ↔ GCC_HEADER ≤ g.length := fun g => by
    rw [List.length_take, min_eq_left_iff]
  unfold addSystem
  rw [bind_eq_ok]
  refine ⟨fun h => ?_, fun h => ?_⟩
  · obtain ⟨g, hg, h⟩ := h
    dsimp only at h
    rw [check_eq_ok, check_eq_ok, check_eq_ok, not_not, not_not, htake, copyRest_eq, Nat.zero_add, not_lt] at h
    obtain ⟨hlen, h5, hsize, h⟩ := h
    cases h
    exact ⟨_, ⟨g, openFile_ok.mp hg, hlen, h5, rfl⟩, hsize, rfl⟩
  · obtain ⟨p, ⟨g, hg, hlen, h5, rfl⟩, hsize, rfl⟩ := h
    refine ⟨g, openFile_ok.mpr hg, ?_⟩
    dsimp only
    rw [check_eq_ok, check_eq_ok, check_eq_ok, not_not, not_not, htake, copyRest_eq, Nat.zero_add, not_lt]
    exact ⟨hlen, h5, hsize, rfl⟩

/-- There is an image exactly when all files are there, have the right headers and sizes, the boot
    sector has its flag and the root device a major number of 0, 2 or 3; and it is then the boot
    sector with the root device, setup filled up to four sectors, and the system. -/
theorem build_eq_ok {arg : RootArg} {img : File} :
    build arg boot setup system = .ok img ↔ ∃ p, Holds arg boot setup system p ∧ p.Fit ∧ p.image = img := by
  unfold build
  rw [bind_eq_ok]
  refine ⟨fun h => ?_, fun h => ?_⟩
  · obtain ⟨root, hroot, h⟩ := h
    rw [check_eq_ok, bind_eq_ok] at h
    obtain ⟨hmajor, o1, h1, h⟩ := h
    obtain ⟨o2, h2, h3⟩ := bind_eq_ok.mp h
    obtain ⟨pb, hb, hblen, hflag, rfl⟩ := bootSector_ok.mp h1
    obtain ⟨ps, hs, hslen, rfl⟩ := addSetup_ok.mp h2
    obtain ⟨py, hy, hylen, rfl⟩ := addSystem_ok.mp h3
    exact ⟨⟨pb, ps, py, root⟩, ⟨hroot, hb, hs, hy⟩, ⟨hblen, hslen, hylen, hflag, by tauto⟩, rfl⟩
  · obtain ⟨p, hp, hfit, rfl⟩ := h
    refine ⟨p.root, hp.root, ?_⟩
    rw [check_eq_ok, bind_eq_ok]
    refine ⟨by have := hfit.major; tauto, _, bootSector_ok.mpr ⟨_, hp.boot, hfit.boot, hfit.flag, rfl⟩, ?_⟩
    refine bind_eq_ok.mpr ⟨_, addSetup_ok.mpr ⟨_, hp.setup, hfit.setup, rfl⟩, ?_⟩
    exact addSystem_ok.mpr ⟨_, hp.system, hfit.system, rfl⟩

namespace Parts

variable {p : Parts} {k : ℕ}

/-- Where the parts are in the image. -/
theorem Fit.image_system (h : p.Fit) : p.image[2560 + k]? = p.system[k]? := by
  have hlen : ((p.boot.set 508 p.root.1).set 509 p.root.2 ++ (p.setup ++ List.replicate (2048 - p.setup.length) 0)).length = 2560 := by
    have := h.boot
    have := h.setup
    rw [List.length_append, List.length_append, List.length_replicate, List.length_set, List.length_set]
    omega
  unfold image
  rw [List.getElem?_append_right (by omega), hlen, Nat.add_sub_cancel_left]

theorem Fit.image_setup (h : p.Fit) (hk : k < p.setup.length) : p.image[512 + k]? = p.setup[k]? := by
  have hlen : ((p.boot.set 508 p.root.1).set 509 p.root.2).length = 512 := by rw [List.length_set, List.length_set, h.boot]
  unfold image
  rw [List.append_assoc, List.append_assoc, List.getElem?_append_right (by omega), hlen, Nat.add_sub_cancel_left,
    List.getElem?_append_left hk]

theorem Fit.image_root (h : p.Fit) : p.image[508]? = some p.root.1 ∧ p.image[509]? = some p.root.2 := by
  have hlen : ((p.boot.set 508 p.root.1).set 509 p.root.2).length = 512 := by rw [List.length_set, List.length_set, h.boot]
  have hlen' : 509 < (p.boot.set 508 p.root.1).length := by rw [List.length_set, h.boot]; decide
  unfold image
  rw [List.append_assoc, List.getElem?_append_left (by omega), List.getElem?_append_left (by omega),
    List.getElem?_set_ne (by decide), List.getElem?_set_self (by rw [h.boot]; decide), List.getElem?_set_self hlen']
  exact ⟨rfl, rfl⟩

end Parts

end Linux011.Boot.Build
