/-
  From the boot sector to protected mode (boot/bootsect.s, boot/setup.s): the boot sector moves itself
  to 0x90000, reads setup behind itself and the system to 0x10000; setup keeps what the BIOS tells and
  moves the system down to 0. `boot_image` takes this together with the image that tools/build.c makes.
-/
import Linux011.Boot.Build
import Linux011.Boot.ReadIt
import Linux011.Lib.Steps

namespace Linux011.Boot

open Linux011.Lib Build

def INITSEG : ℕ := 0x9000
def BOOTSEG : ℕ := 0x07c0

/-- The registers of `rep movsw`. -/
structure Movs where
  ds : ℕ
  es : ℕ
  si : ℕ
  di : ℕ
  cx : ℕ
  mem : ℕ → UInt8

namespace Movs

/-- One word. -/
def step (m : Movs) : Movs :=
  if m.cx = 0 then m
  else
    { m with
      si := (m.si + 2) % 65536, di := (m.di + 2) % 65536, cx := m.cx - 1
      mem := fun a =>
        if a = 16 * m.es + m.di then m.mem (16 * m.ds + m.si)
        else if a = 16 * m.es + (m.di + 1) % 65536 then m.mem (16 * m.ds + (m.si + 1) % 65536) else m.mem a }

/-- `sub si,si`, `sub di,di` -/
def start (ds es cx : ℕ) (mem : ℕ → UInt8) : Movs := ⟨ds, es, 0, 0, cx, mem⟩

/-- `n` words are left of `N`. -/
def left (ds es N : ℕ) (mem : ℕ → UInt8) (n : ℕ) : Movs :=
  ⟨ds, es, 2 * (N - n) % 65536, 2 * (N - n) % 65536, n, if n ≤ N then moved mem (16 * ds) (16 * es) (2 * (N - n)) else mem⟩

end Movs

/-- How far the boot code is, with the memory. -/
inductive Stage where
  /-- the first `rep movsw` of bootsect -/
  | start (m : Movs)
  | loadSetup (time : ℕ) (mem : ℕ → UInt8)
  | readIt (m : Loader)
  /-- behind `call kill_motor` -/
  | isRead (mem : ℕ → UInt8)
  | undefRoot (mem : ℕ → UInt8)
  /-- `jmpi 0,SETUPSEG` -/
  | setup (mem : ℕ → UInt8)
  | doMove (ax : ℕ) (mem : ℕ → UInt8)
  | moving (ax : ℕ) (m : Movs)
  | endMove (mem : ℕ → UInt8)

/-- `int 0x13` in `load_setup` -/
def setupRead : Read := { cylinder := 0, head := 0, sector := 2, drive := 0, count := SETUPLEN, segment := INITSEG, offset := 0x200 }

/-- The word `root_dev` at the end of the boot sector. -/
def rootDevAt (mem : ℕ → UInt8) : ℕ := (mem 0x901FC).toNat + 256 * (mem 0x901FD).toNat

/-- `mov root_dev,ax` -/
def setRootDev (ax : ℕ) (mem : ℕ → UInt8) (a : ℕ) : UInt8 :=
  if a = 0x901FC then UInt8.ofNat (ax % 256) else if a = 0x901FD then UInt8.ofNat (ax / 256) else mem a

/-- What setup keeps of the BIOS, over the boot sector: cursor, memory, video, and the disk tables. -/
def saved (told : ℕ → UInt8) (mem : ℕ → UInt8) (a : ℕ) : UInt8 :=
  if (0x90000 ≤ a ∧ a < 0x9000E) ∨ (0x90080 ≤ a ∧ a < 0x900A0) then told (a - 0x90000) else mem a

def Stage.step (b : Bios) (told : ℕ → UInt8) : Stage → Stage
  | .start m => if m.cx = 0 then .loadSetup 0 m.mem else .start m.step
  | .loadSetup time mem =>
    if b.carry time then .loadSetup (time + 1) (setupRead.transfer (b.partly time) mem)
    else .readIt (Loader.start SYSSEG 7 (time + 1)
      (setupRead.transfer (fun k => b.disk (setupRead.first b.sectors + k / 512) (k % 512)) mem))
  | .readIt m => if m.label = .ret then .isRead m.mem else .readIt (m.step b)
  | .isRead mem =>
    if rootDevAt mem ≠ 0 then .setup (setRootDev (rootDevAt mem) mem)
    else if b.sectors = 15 then .setup (setRootDev 0x0208 mem)
    else if b.sectors = 18 then .setup (setRootDev 0x021c mem)
    else .undefRoot mem
  | .undefRoot mem => .undefRoot mem
  | .setup mem => .doMove 0 (saved told mem)
  | .doMove es mem =>
    let ax := (es + 0x1000) % 65536
    if ax = 0x9000 then .endMove mem else .moving ax (Movs.start ax es 0x8000 mem)
  | .moving ax m => if m.cx = 0 then .doMove ax m.mem else .moving ax m.step
  | .endMove mem => .endMove mem

/-- The BIOS has read the boot sector and jumps to it. -/
def Stage.boot (mem : ℕ → UInt8) : Stage := .start (Movs.start BOOTSEG INITSEG 256 mem)

/-- The root device: the one of the image, or else by the disk the system came from. -/
def rootOf (sectors : ℕ) (root : UInt8 × UInt8) : Option ℕ :=
  let ax := root.1.toNat + 256 * root.2.toNat
  if ax ≠ 0 then some ax else if sectors = 15 then some 0x0208 else if sectors = 18 then some 0x021c else none

/-- The image is on the disk, and its first sector at 0x7c00. -/
structure Inserted (b : Bios) (img : File) (mem : ℕ → UInt8) : Prop where
  disk : ∀ i x, img[i]? = some x → b.disk (i / 512) (i % 512) = x
  bios : ∀ k < 512, mem (0x7c00 + k) = b.disk 0 k

/-- The system is at 0, setup at 0x90200, and the root device where main looks for it. -/
structure Booted (p : Parts) (root : ℕ) (mem : ℕ → UInt8) : Prop where
  system : ∀ k x, p.system[k]? = some x → mem k = x
  setup : ∀ k x, p.setup[k]? = some x → mem (0x90200 + k) = x
  root : rootDevAt mem = root

section

variable {b : Bios} {told mem : ℕ → UInt8} {ds es N n : ℕ}

theorem Movs.step_left (hN : N ≤ 0x8000) (hn : n < N) (h : es ≤ ds ∨ 16 * ds + 2 * N ≤ 16 * es) :
    (left ds es N mem (n + 1)).step = left ds es N mem n := by
  -- `d` words have been moved
  obtain ⟨d, rfl⟩ := Nat.exists_eq_add_of_le hn
  have hd : n + 1 + d - (n + 1) = d := Nat.add_sub_cancel_left ..
  have hd' : 2 * (n + 1 + d - n) = 2 * d + 2 := by omega
  have hoff : 2 * d % 65536 = 2 * d := Nat.mod_eq_of_lt (by omega)
  have hodd : (2 * d + 1) % 65536 = 2 * d + 1 := Nat.mod_eq_of_lt (by omega)
  have hmem : moved mem (16 * ds) (16 * es) (2 * d + 2) = _ := moved_word mem (by omega)
  unfold step left
  dsimp only
  rw [if_neg (Nat.succ_ne_zero n), if_pos (Nat.le_add_right ..), if_pos hn.le, hd, hd', hoff, hodd, hmem, Nat.add_sub_cancel]

/-- `rep movsw` copies all its words and then stands still. -/
theorem Movs.run (mem : ℕ → UInt8) (ds es N : ℕ) (hN : N ≤ 0x8000) (h : es ≤ ds ∨ 16 * ds + 2 * N ≤ 16 * es) :
    ∃ m, LeadsTo Movs.step (start ds es N mem) m ∧ m.cx = 0 ∧ m.mem = moved mem (16 * ds) (16 * es) (2 * N) := by
  have hto : ∀ k ≤ N, LeadsTo Movs.step (left ds es N mem N) (left ds es N mem (N - k)) := fun k hk => by
    induction k with
    | zero => exact .refl
    | succ k ih =>
      refine (ih (Nat.le_of_succ_le hk)).trans (.one ?_)
      rw [show N - k = N - (k + 1) + 1 by omega]
      exact step_left hN (by omega) h
  have hstart : left ds es N mem N = start ds es N mem := by
    unfold left start
    rw [if_pos le_rfl, Nat.sub_self, moved_none]
  refine ⟨_, hstart ▸ hto N le_rfl, Nat.sub_self N, ?_⟩
  unfold left
  dsimp only
  rw [Nat.sub_self, if_pos (Nat.zero_le N), Nat.sub_zero]

theorem Movs.stay (m : Movs) (h : m.cx = 0) : m.step = m := if_pos h

theorem start_leads : LeadsTo (Stage.step b told) (.boot mem) (.loadSetup 0 (moved mem 0x7c00 0x90000 512)) := by
  obtain ⟨m, hto, hcx, hmem⟩ := Movs.run mem BOOTSEG INITSEG 256 (by decide) (by decide)
  exact hto.embed Movs.stay (fun _ h => if_neg h) hcx ((if_pos hcx).trans (congrArg _ hmem))

/-- Setup is read until the BIOS gets it. -/
theorem loadSetup_leads (told mem : ℕ → UInt8) (hok : ∀ t, ∃ t' ≥ t, b.carry t' = false) :
    ∃ time, LeadsTo (Stage.step b told) (.loadSetup 0 mem)
      (.readIt (Loader.start SYSSEG 7 time (setupRead.transfer (fun k => b.disk (1 + k / 512) (k % 512)) mem))) := by
  have hrun : ∀ d time mem, b.carry (time + d) = false → ∃ time', LeadsTo (Stage.step b told) (.loadSetup time mem)
      (.readIt (Loader.start SYSSEG 7 time' (setupRead.transfer (fun k => b.disk (1 + k / 512) (k % 512)) mem))) := fun d => by
    have hfirst : setupRead.first b.sectors = 1 := by
      change b.sectors * 0 + 1 = 1
      rw [Nat.mul_zero]
    induction d with
    | zero =>
      intro time mem hc
      refine ⟨time + 1, .one ?_⟩
      change (if b.carry time = true then _ else _) = _
      rw [if_neg (by rw [show b.carry time = false from hc]; decide), hfirst]
    | succ d ih =>
      intro time mem hc
      by_cases hf : b.carry time = true
      · obtain ⟨time', hto⟩ := ih (time + 1) (setupRead.transfer (b.partly time) mem) (by rwa [Nat.add_right_comm, Nat.add_assoc])
        rw [Read.transfer_transfer] at hto
        exact ⟨time', hto.head (if_pos hf)⟩
      · refine ⟨time + 1, .one ?_⟩
        change (if b.carry time = true then _ else _) = _
        rw [if_neg hf, hfirst]
  obtain ⟨t, -, hc⟩ := hok 0
  exact hrun t 0 mem (by rwa [Nat.zero_add])

theorem step_ret {m : Loader} (h : m.label = .ret) : Stage.step b told (.readIt m) = .isRead m.mem := if_pos h

/-- The system is read, as far as the boot sector wants it. -/
theorem readIt_leads (told mem : ℕ → UInt8) (hS : 6 ≤ b.sectors ∧ b.sectors ≤ 63) (hok : ∀ t, ∃ t' ≥ t, b.carry t' = false) (time : ℕ) :
    ∃ mem', LeadsTo (Stage.step b told) (.readIt (Loader.start SYSSEG 7 time mem)) (.isRead mem') ∧
      ∀ a, mem' a = if 0x10000 ≤ a ∧ a < 0x40000 then b.disk (5 + (a - 0x10000) / 512) ((a - 0x10000) % 512) else mem a := by
  have hstart : Loader.step b (Loader.start SYSSEG 7 time mem) = { Loader.start SYSSEG 7 time mem with bx := 0, label := .rpRead } :=
    if_neg (not_not.mpr (show SYSSEG &&& 0x0fff = 0 by decide))
  have hl : Loaded b mem 0 0 5 { Loader.start SYSSEG 7 time mem with bx := 0, label := .rpRead } :=
    ⟨rfl, by rw [Nat.mul_zero], by omega, rfl, rfl, rfl, rfl, rfl, fun a => (if_neg (by omega)).symm, rfl,
      fun r hr => absurd hr List.not_mem_nil⟩
  obtain ⟨q, r, m, hto, hm⟩ := hl.run (by decide) hS hok
  have hret : Loader.step b m = { m with label := .ret } := by
    unfold Loader.step
    rw [hm.label]
    dsimp only
    rw [hm.es, if_neg (by decide)]
  have hstay : ∀ m : Loader, m.label = .ret → m.step b = m := fun m h => by
    unfold Loader.step
    rw [h]
  exact ⟨m.mem, (LeadsTo.head hstart (LeadsTo.trans hto (.one hret))).embed hstay (fun _ h => if_neg h) rfl
    (step_ret rfl), hm.mem⟩

/-- The eight moves. -/
theorem doMove_leads : LeadsTo (Stage.step b told) (.doMove 0 mem) (.endMove (moved mem 0x10000 0 0x80000)) := by
  have hstep : ∀ k < 8, LeadsTo (Stage.step b told) (.doMove (0x1000 * k) (moved mem 0x10000 0 (0x10000 * k)))
      (.doMove (0x1000 * (k + 1)) (moved mem 0x10000 0 (0x10000 * (k + 1)))) := fun k hk => by
    obtain ⟨m, hto, hcx, hmem⟩ := Movs.run (moved mem 0x10000 0 (0x10000 * k)) (0x1000 * (k + 1)) (0x1000 * k) 0x8000 le_rfl
      (.inl (by omega))
    have hax : (0x1000 * k + 0x1000) % 65536 = 0x1000 * (k + 1) := by omega
    have hto' : Stage.step b told (.doMove (0x1000 * k) (moved mem 0x10000 0 (0x10000 * k))) = .moving (0x1000 * (k + 1))
        (Movs.start (0x1000 * (k + 1)) (0x1000 * k) 0x8000 (moved mem 0x10000 0 (0x10000 * k))) := by
      unfold Stage.step
      dsimp only
      rw [hax, if_neg (by omega)]
    refine .head hto' ?_
    refine hto.embed (f := Stage.moving _) Movs.stay (fun _ h => if_neg h) hcx ((if_pos hcx).trans ?_)
    have hnext : moved (moved mem 0x10000 0 (0x10000 * k)) (0x10000 + 0x10000 * k) (0 + 0x10000 * k) 0x10000 =
        moved mem 0x10000 0 (0x10000 * k + 0x10000) := moved_moved (.inl (by omega))
    rw [hmem, show 16 * (0x1000 * (k + 1)) = 0x10000 + 0x10000 * k by omega, show 16 * (0x1000 * k) = 0 + 0x10000 * k by omega,
      hnext, ← Nat.mul_succ]
  have hrun : ∀ k ≤ 8, LeadsTo (Stage.step b told) (.doMove 0 mem) (.doMove (0x1000 * k) (moved mem 0x10000 0 (0x10000 * k))) := fun k hk => by
    induction k with
    | zero =>
      rw [show 0x10000 * 0 = 0 from rfl, moved_none]
      exact .refl
    | succ k ih => exact (ih (Nat.le_of_succ_le hk)).trans (hstep k hk)
  exact (hrun 8 le_rfl).trans (.one rfl)

theorem rootDevAt_set (mem : ℕ → UInt8) {ax : ℕ} (h : ax < 65536) : rootDevAt (setRootDev ax mem) = ax := by
  change (UInt8.ofNat (ax % 256)).toNat + 256 * (UInt8.ofNat (ax / 256)).toNat = ax
  rw [UInt8.toNat_ofNat', UInt8.toNat_ofNat']
  omega

theorem rootDevAt_lt (mem : ℕ → UInt8) : rootDevAt mem < 65536 := by
  have h1 := (mem 0x901FC).toNat_lt
  have h2 := (mem 0x901FD).toNat_lt
  unfold rootDevAt
  omega

/-- The root device is looked up before setup is entered. -/
theorem isRead_leads (b : Bios) (told : ℕ → UInt8) {root : UInt8 × UInt8} (h1 : mem 0x901FC = root.1) (h2 : mem 0x901FD = root.2) :
    (∀ w, rootOf b.sectors root = some w → Stage.step b told (.isRead mem) = .setup (setRootDev w mem) ∧ w < 65536) ∧
    (rootOf b.sectors root = none → Stage.step b told (.isRead mem) = .undefRoot mem) := by
  have hw : rootDevAt mem = root.1.toNat + 256 * root.2.toNat := by
    rw [← h1, ← h2]
    rfl
  have hlt := rootDevAt_lt mem
  unfold rootOf Stage.step
  dsimp only
  rw [← hw]
  by_cases h0 : rootDevAt mem ≠ 0
  · rw [if_pos h0, if_pos h0]
    refine ⟨fun w h => ?_, fun h => ?_⟩
    · cases h
      exact ⟨rfl, hlt⟩
    · cases h
  · rw [if_neg h0, if_neg h0]
    split_ifs
    · refine ⟨fun w h => ?_, fun h => ?_⟩
      · cases h
        exact ⟨rfl, by decide⟩
      · cases h
    · refine ⟨fun w h => ?_, fun h => ?_⟩
      · cases h
        exact ⟨rfl, by decide⟩
      · cases h
    · refine ⟨fun w h => ?_, fun _ => rfl⟩
      cases h

/-- Up to the root device: the image in memory, still with the system at 0x10000. -/
theorem loaded_image (told : ℕ → UInt8) {p : Parts} (hp : p.Fit) (hS : 6 ≤ b.sectors ∧ b.sectors ≤ 63) (hok : ∀ t, ∃ t' ≥ t, b.carry t' = false)
    (hin : Inserted b p.image mem) :
    ∃ mem', LeadsTo (Stage.step b told) (.boot mem) (.isRead mem') ∧ (∀ k x, p.system[k]? = some x → mem' (0x10000 + k) = x) ∧
      (∀ k x, p.setup[k]? = some x → mem' (0x90200 + k) = x) ∧ mem' 0x901FC = p.root.1 ∧ mem' 0x901FD = p.root.2 := by
  obtain ⟨time, hsetup⟩ := loadSetup_leads told (moved mem 0x7c00 0x90000 512) hok
  obtain ⟨mem', hread, hmem⟩ := readIt_leads told
    (setupRead.transfer (fun k => b.disk (1 + k / 512) (k % 512)) (moved mem 0x7c00 0x90000 512)) hS hok time
  have haddr : setupRead.addr = 0x90200 ∧ setupRead.count = 4 := ⟨rfl, rfl⟩
  have hroot : ∀ k < 512, mem' (0x90000 + k) = b.disk 0 k := fun k hk => by
    rw [hmem, if_neg (by omega)]
    unfold Read.transfer
    rw [haddr.1, haddr.2, if_neg (by omega), moved_inside hk, ← hin.bios k hk, Nat.add_comm]
  refine ⟨mem', start_leads.trans (hsetup.trans hread), fun k x hx => ?_, fun k x hx => ?_, ?_, ?_⟩
  · have hk : k < 0x20000 := ((List.getElem?_eq_some_iff.mp hx).1).trans_le hp.system
    have hdisk := hin.disk (2560 + k) x (hp.image_system.trans hx)
    rw [hmem, if_pos (by omega), Nat.add_sub_cancel_left, ← hdisk, show (2560 + k) / 512 = 5 + k / 512 by omega,
      show (2560 + k) % 512 = k % 512 by omega]
  · have hk := (List.getElem?_eq_some_iff.mp hx).1
    have hlen := hp.setup
    have hdisk := hin.disk (512 + k) x ((hp.image_setup hk).trans hx)
    rw [hmem, if_neg (by omega)]
    unfold Read.transfer
    rw [haddr.1, haddr.2, if_pos (by omega), Nat.add_sub_cancel_left, ← hdisk, show (512 + k) / 512 = 1 + k / 512 by omega,
      show (512 + k) % 512 = k % 512 by omega]
  · rw [← hin.disk 508 _ hp.image_root.1]
    exact hroot 508 (by decide)
  · rw [← hin.disk 509 _ hp.image_root.2]
    exact hroot 509 (by decide)

end

/-- What the build program puts in an image is where the kernel wants it when setup goes to protected
    mode: on every disk drive, whatever the BIOS fails and tells. Without a root device the boot code
    stops before that. -/
theorem boot_image (b : Bios) (told mem : ℕ → UInt8) (arg : RootArg) (boot setup system : Option File) (img : File)
    (hS : 6 ≤ b.sectors ∧ b.sectors ≤ 63) (hok : ∀ t, ∃ t' ≥ t, b.carry t' = false)
    (hbuild : build arg boot setup system = .ok img) (hin : Inserted b img mem) :
    ∃ p, Holds arg boot setup system p ∧
      (∀ w, rootOf b.sectors p.root = some w → ∃ mem', LeadsTo (Stage.step b told) (.boot mem) (.endMove mem') ∧ Booted p w mem') ∧
      (rootOf b.sectors p.root = none → ∃ mem', LeadsTo (Stage.step b told) (.boot mem) (.undefRoot mem')) := by
  obtain ⟨p, hp, hfit, rfl⟩ := build_eq_ok.mp hbuild
  obtain ⟨m, hto, hsystem, hsetup, h1, h2⟩ := loaded_image told hfit hS hok hin
  obtain ⟨hsome, hnone⟩ := isRead_leads b told h1 h2
  refine ⟨p, hp, fun w hw => ?_, fun h => ⟨m, hto.trans (.one (hnone h))⟩⟩
  obtain ⟨hstep, hlt⟩ := hsome w hw
  refine ⟨_, hto.trans (.head hstep (.head rfl doMove_leads)), fun k x hx => ?_, fun k x hx => ?_, ?_⟩
  · have hk : k < 0x20000 := ((List.getElem?_eq_some_iff.mp hx).1).trans_le hfit.system
    have hmoved : moved (saved told (setRootDev w m)) 0x10000 0 0x80000 (0 + k) = _ := moved_inside (show k < 0x80000 by omega)
    rw [Nat.zero_add] at hmoved
    rw [hmoved, Nat.add_comm, ← hsystem k x hx]
    unfold saved setRootDev
    rw [if_neg (by omega), if_neg (by omega), if_neg (by omega)]
  · have hk := (List.getElem?_eq_some_iff.mp hx).1
    rw [moved_outside (by omega), ← hsetup k x hx]
    unfold saved setRootDev
    rw [if_neg (by omega), if_neg (by omega), if_neg (by omega)]
  · refine Eq.trans ?_ (rootDevAt_set m hlt)
    unfold rootDevAt
    rw [moved_outside (by omega), moved_outside (by omega)]
    rfl

/-- A small image. -/
def small : Parts := ⟨List.replicate 510 0 ++ [0x55, 0xAA], [0xB8, 0x00, 0x90], [0xB8, 0x10], (6, 3)⟩

/-- The header of the assembler. -/
def header : File := [1, 3, 0x10, 4, 32, 0, 0, 0] ++ List.replicate 24 0

def smallDisk : Bios :=
  { sectors := 18, disk := fun n k => (small.image[512 * n + k]?).getD 0, carry := fun t => t % 2 == 0, partly := fun _ _ => 0 }

theorem header_headed (f : File) : Headed (header ++ f) := by
  have htake : (header ++ f).take MINIX_HEADER = header := rfl
  refine ⟨?_, ?_, ?_, ?_, ?_, ?_, ?_⟩
  · rw [List.length_append]
    exact Nat.le_add_right ..
  all_goals
    rw [htake]
    decide

theorem boot_image_small : ∃ p mem', LeadsTo (Stage.step smallDisk fun _ => 0)
    (.boot fun a => (small.image[a - 0x7c00]?).getD 0) (.endMove mem') ∧ Booted p 0x306 mem' := by
  have hbuild : build .none (some (header ++ small.boot)) (some (header ++ small.setup))
      (some (List.replicate 1024 0 ++ small.system)) = .ok small.image := by
    have hdrop : small.boot.drop 510 = [0x55, 0xAA] := List.drop_left' (List.length_replicate ..)
    have hlen : small.boot.length = 512 := by rw [small, List.length_append, List.length_replicate]; rfl
    have hfit : small.Fit := ⟨hlen, by decide, by decide, by rw [hdrop]; rfl, .inr (.inl rfl)⟩
    refine build_eq_ok.mpr ⟨small, ⟨rfl, ⟨_, rfl, header_headed _, rfl⟩, ⟨_, rfl, header_headed _, rfl⟩, ?_⟩, hfit, rfl⟩
    refine ⟨_, rfl, ?_, ?_, List.drop_left' (List.length_replicate ..)⟩
    · rw [List.length_append, List.length_replicate]
      exact Nat.le_add_right ..
    · rw [show GCC_HEADER = 1024 from rfl, List.take_left' (List.length_replicate ..)]
      decide
  have hin : Inserted smallDisk small.image fun a => (small.image[a - 0x7c00]?).getD 0 := by
    refine ⟨fun i x hx => ?_, fun k hk => ?_⟩
    · change (small.image[512 * (i / 512) + i % 512]?).getD 0 = x
      rw [Nat.div_add_mod, hx]
      rfl
    · change (small.image[0x7c00 + k - 0x7c00]?).getD 0 = (small.image[512 * 0 + k]?).getD 0
      rw [Nat.add_sub_cancel_left, Nat.mul_zero, Nat.zero_add]
  have hok : ∀ t, ∃ t' ≥ t, smallDisk.carry t' = false := fun t =>
    ⟨2 * t + 1, by omega, by change ((2 * t + 1) % 2 == 0) = false; rw [beq_eq_false_iff_ne]; omega⟩
  obtain ⟨p, hp, hsome, -⟩ := boot_image smallDisk (fun _ => 0) _ .none _ _ _ _ ⟨by decide, by decide⟩ hok hbuild hin
  have hroot : p.root = (6, 3) := (Except.ok.inj hp.root).symm
  obtain ⟨mem', hto, hb⟩ := hsome 0x306 (by rw [hroot]; rfl)
  exact ⟨p, mem', hto, hb⟩

end Linux011.Boot
