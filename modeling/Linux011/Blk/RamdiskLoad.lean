/-
  `rd_load` of kernel/blk_drv/ramdisk.c, which copies a root image from the boot floppy into the
  RAM disk. The number of blocks is a 32-bit shift of what the super block on the floppy says, and
  the loop stops only at zero. `rd_load_in_bounds` says for which super blocks the copy stays in the
  RAM disk and is complete.
-/
import Linux011.Fs.ReadSuper
import Linux011.Lib.Long

namespace Linux011.Blk.Ramdisk

open Linux011.Lib Linux011.Fs Linux011.Fs.ReadSuper Ledger

/-- The memory with `rd_start`, `rd_length` and ROOT_DEV; `log` keeps the copies made, block and
    address. -/
structure Ram where
  start : ℕ
  length : ℕ
  mem : ℕ → UInt8
  rootDev : ℕ
  buf : Ledger
  log : List (ℕ × ℕ)

abbrev R (α : Type) : Type := Prog Ram Halted α

def onBuffers (m : L α) : R α := fun s =>
  match m s.buf with
  | .ok a b => .ok a { s with buf := b }
  | .fault b => .fault { s with buf := b }
  | .stop e => .stop e

/-- `breada`: the blocks read ahead are released at once. -/
def breada (medium : Medium) (first : ℕ) (_ahead : List ℕ) : R (Option Block) := onBuffers (readBlock medium first)

/-- `memcpy` of the buffer of `block`. -/
def copyBlock (block cp : ℕ) (data : Block) : R Unit := Prog.modify fun s =>
  { s with
    mem := fun a => if cp ≤ a ∧ a < cp + 1024 then data (a - cp) else s.mem a
    log := s.log ++ [(block, cp)] }

/-- The reads of the loop; as a signed word `nblocks` is more than 2. -/
def readNext (medium : Medium) (nblocks block : ℕ) : R (Option Block) :=
  if 2 < nblocks ∧ nblocks < 2147483648 then breada medium block [block + 1, block + 2]
  else onBuffers (readBlock medium block)

/-- The loop, for `nblocks` as an unsigned word, which goes down to 0 by one each round; false after
    an I/O error. -/
def load (medium : Medium) : ℕ → ℕ → ℕ → R Bool
  | 0, _, _ => return true
  | n + 1, block, cp => do
    match ← readNext medium (n + 1) block with
    | none => return false
    | some data =>
      copyBlock block cp data
      onBuffers (releaseBlock block)
      load medium n (block + 1) (cp + 1024)

/-- `s_nzones << s_log_zone_size`; the processor shifts by the low five bits. -/
def nblocks (h : DiskSuper) : ℤ := long (h.nzones * 2 ^ (h.logZoneSize % 32))

/-- `rd_load` from the loop on. -/
def loadImage (medium : Medium) (nblocks : ℤ) (start : ℕ) : R Unit := do
  if ← load medium (nblocks % 4294967296).toNat 256 start then
    Prog.modify fun s => { s with rootDev := 0x0101 }
  else return ()

def rdLoad (medium : Medium) : R Unit := do
  let s ← Prog.get
  if s.length = 0 then return ()
  else if s.rootDev / 256 ≠ 2 then return ()
  else
    match ← breada medium 257 [256, 258] with
    | none => return ()
    | some b =>
      onBuffers (releaseBlock 257)
      let h := DiskSuper.ofBlock b
      if h.magic ≠ superMagic then return ()
      else if (s.length / 1024 : ℤ) < nblocks h then return ()
      else loadImage medium (nblocks h) s.start

/-- The first `n` copies. -/
def copies (start n : ℕ) : List (ℕ × ℕ) := (List.range n).map fun i => (256 + i, start + 1024 * i)

/-- The RAM disk with `n` blocks of the image in it. -/
def Ram.loaded (s : Ram) (medium : Medium) (n : ℕ) : Ram :=
  { s with
    mem := fun a => if s.start ≤ a ∧ a < s.start + 1024 * n then
      ((medium (256 + (a - s.start) / 1024)).getD Block.zero) ((a - s.start) % 1024) else s.mem a
    log := copies s.start n }

/-- `rd_load` ends, writes in the RAM disk only, and makes it the root device only with the whole
    image in it. -/
def InBounds (s : Ram) (medium : Medium) : Prop :=
  ∃ s', rdLoad medium s = .ok () s' ∧ (∀ e ∈ s'.log, s.start ≤ e.2 ∧ e.2 + 1024 ≤ s.start + s.length) ∧
    (s'.rootDev ≠ s.rootDev → s'.rootDev = 0x0101 ∧ ∃ b, medium 257 = some b ∧
      s'.log = copies s.start ((DiskSuper.ofBlock b).nzones * 2 ^ (DiskSuper.ofBlock b).logZoneSize) ∧
      ∀ i < (DiskSuper.ofBlock b).nzones * 2 ^ (DiskSuper.ofBlock b).logZoneSize, ∃ data, medium (256 + i) = some data ∧
        ∀ j < 1024, s'.mem (s.start + 1024 * i + j) = data j)

/-- The image is copied: there is a RAM disk, the root device is a floppy, its block 257 is a super
    block, and the shifted count, as a signed word, is not larger than the RAM disk. -/
def Copies (s : Ram) (medium : Medium) (h : DiskSuper) : Prop :=
  s.length ≠ 0 ∧ s.rootDev / 256 = 2 ∧ (∃ b, medium 257 = some b ∧ DiskSuper.ofBlock b = h) ∧ h.magic = superMagic ∧
    nblocks h ≤ s.length / 1024

/-- An image that is copied has less than 2^31 blocks, or a read error stops the copy in time: with
    a negative count before the end of the RAM disk is passed, else within the shifted count. -/
def Sound (s : Ram) (medium : Medium) : Prop := ∀ h, Copies s medium h → h.nzones * 2 ^ h.logZoneSize < 2147483648 ∨
  ¬ Readable medium 256 (if nblocks h < 0 then s.length / 1024 + 1 else (nblocks h).toNat)

variable {s : Ram} {medium : Medium}

theorem onBuffers_ok {m : L α} {a : α} {b : Ledger} (h : m s.buf = .ok a b) : onBuffers m s = .ok a { s with buf := b } := by
  unfold onBuffers
  rw [h]

theorem copies_succ (start n : ℕ) : copies start (n + 1) = copies start n ++ [(256 + n, start + 1024 * n)] := by
  simp [copies, List.range_succ]

theorem loaded_zero (h : s.log = []) : s.loaded medium 0 = s := by
  have hmem : (s.loaded medium 0).mem = s.mem := funext fun a => by
    unfold Ram.loaded
    dsimp only
    rw [if_neg (by omega)]
  change Ram.mk s.start s.length (s.loaded medium 0).mem s.rootDev s.buf (copies s.start 0) = s
  rw [hmem, show copies s.start 0 = s.log from h.symm]

theorem copyBlock_loaded {n : ℕ} {data : Block} (h : medium (256 + n) = some data) (b : Ledger) :
    copyBlock (256 + n) (s.start + 1024 * n) data { s.loaded medium n with buf := b } =
      .ok () { s.loaded medium (n + 1) with buf := b } := by
  unfold copyBlock Prog.modify Ram.loaded
  simp only [copies_succ]
  congr 2
  funext a
  by_cases h1 : s.start + 1024 * n ≤ a ∧ a < s.start + 1024 * n + 1024
  · have hdiv : (a - s.start) / 1024 = n := by omega
    have hmod : (a - s.start) % 1024 = a - (s.start + 1024 * n) := by omega
    rw [if_pos h1, if_pos (by omega), hdiv, h, hmod]
    rfl
  · rw [if_neg h1]
    by_cases h2 : s.start ≤ a ∧ a < s.start + 1024 * n
    · rw [if_pos h2, if_pos (by omega)]
    · rw [if_neg h2, if_neg (by omega)]

/-- Both ways of reading the block give the same. -/
theorem readNext_eq (medium : Medium) (nblocks block : ℕ) : readNext medium nblocks block = onBuffers (readBlock medium block) :=
  ite_self _

/-- The loop goes on to the end or to the first block that cannot be read. -/
theorem load_run (medium : Medium) (k n : ℕ) (hread : Readable medium 256 n) :
    ∃ m done, load medium k (256 + n) (s.start + 1024 * n) (s.loaded medium n) = .ok done (s.loaded medium m) ∧
      Readable medium 256 m ∧ m ≤ n + k ∧ (done = true ↔ m = n + k) ∧ (m < n + k → medium (256 + m) = none) := by
  induction k generalizing n with
  | zero => exact ⟨n, true, rfl, hread, le_rfl, by simp, fun h => absurd h (Nat.lt_irrefl n)⟩
  | succ k ih =>
    rw [load, readNext_eq]
    cases hb : medium (256 + n) with
    | none =>
      rw [Prog.bind_run (onBuffers_ok (readBlock_none hb))]
      exact ⟨n, false, rfl, hread, by omega, by simp, fun _ => hb⟩
    | some data =>
      rw [Prog.bind_run (onBuffers_ok (readBlock_some hb))]
      dsimp only
      rw [Prog.bind_run (copyBlock_loaded hb _), Prog.bind_run (onBuffers_ok releaseBlock_take)]
      have hread' : Readable medium 256 (n + 1) := fun j hj => by
        obtain rfl | hj := Nat.eq_or_lt_of_le (Nat.le_of_lt_succ hj)
        · rw [hb]
          rfl
        · exact hread j hj
      obtain ⟨m, done, hrun, h1, h2, h3, h4⟩ := ih (n + 1) hread'
      rw [show 256 + (n + 1) = 256 + n + 1 by omega, show s.start + 1024 * (n + 1) = s.start + 1024 * n + 1024 by omega] at hrun
      refine ⟨m, done, hrun, h1, by omega, h3.trans (by omega), fun h => h4 (by omega)⟩

/-- All copies are in the RAM disk. -/
theorem copies_inside {start length n : ℕ} :
    (∀ e ∈ copies start n, start ≤ e.2 ∧ e.2 + 1024 ≤ start + length) ↔ n ≤ length / 1024 := by
  refine ⟨fun h => ?_, fun h e he => ?_⟩
  · cases n with
    | zero => omega
    | succ n =>
      have := (h (256 + n, start + 1024 * n) (by rw [copies_succ]; simp)).2
      dsimp only at this
      omega
  · obtain ⟨i, hi, rfl⟩ := List.mem_map.mp he
    have := List.mem_range.mp hi
    dsimp only
    omega

theorem copies_inj {start n n' : ℕ} (h : copies start n = copies start n') : n = n' := by
  have := congrArg List.length h
  simpa [copies] using this

/-- A count below 2^31 comes through the shift. -/
theorem nblocks_eq {h : DiskSuper} (hn : h.nzones * 2 ^ h.logZoneSize < 2147483648) :
    nblocks h = (h.nzones * 2 ^ h.logZoneSize : ℕ) := by
  unfold nblocks
  by_cases h0 : h.nzones = 0
  · simp [h0, long]
  have hlog : h.logZoneSize < 32 := by
    by_contra hge
    have h1 : 2 ^ 32 ≤ 2 ^ h.logZoneSize := Nat.pow_le_pow_right (by decide) (by omega)
    have h2 := Nat.le_mul_of_pos_left (2 ^ h.logZoneSize) (Nat.pos_of_ne_zero h0)
    have h3 : (2 : ℕ) ^ 32 = 4294967296 := by decide
    omega
  rw [Nat.mod_eq_of_lt hlog]
  have hcast : ((h.nzones : ℤ) * 2 ^ h.logZoneSize) = ((h.nzones * 2 ^ h.logZoneSize : ℕ) : ℤ) := by push_cast; rfl
  rw [hcast]
  exact long_of_isLong ⟨by omega, by omega⟩

theorem isLong_nblocks (h : DiskSuper) : IsLong (nblocks h) := isLong_long _

theorem loaded_mem {n i j : ℕ} (hread : Readable medium 256 n) (hi : i < n) (hj : j < 1024) :
    ∃ data, medium (256 + i) = some data ∧ (s.loaded medium n).mem (s.start + 1024 * i + j) = data j := by
  obtain ⟨data, hdata⟩ := Option.isSome_iff_exists.mp (hread i hi)
  refine ⟨data, hdata, ?_⟩
  unfold Ram.loaded
  dsimp only
  rw [if_pos (by omega), show (s.start + 1024 * i + j - s.start) / 1024 = i by omega,
    show (s.start + 1024 * i + j - s.start) % 1024 = j by omega, hdata]
  rfl

/-- `rd_load` when it comes to the loop. -/
theorem rdLoad_eq {b : Block} (hlen : s.length ≠ 0) (hroot : s.rootDev / 256 = 2) (hb : medium 257 = some b)
    (hmagic : (DiskSuper.ofBlock b).magic = superMagic) (hle : nblocks (DiskSuper.ofBlock b) ≤ s.length / 1024) :
    rdLoad medium s = loadImage medium (nblocks (DiskSuper.ofBlock b)) s.start s := by
  unfold rdLoad
  rw [Prog.bind_run (Prog.get_run s), if_neg hlen, if_neg (not_not.mpr hroot),
    Prog.bind_run (show breada medium 257 [256, 258] s = _ from onBuffers_ok (readBlock_some hb))]
  dsimp only
  rw [Prog.bind_run (onBuffers_ok releaseBlock_take), if_neg (not_not.mpr hmagic)]
  refine (congrFun (if_neg (not_lt.mpr hle)) _).trans ?_
  exact congrArg (loadImage medium (nblocks (DiskSuper.ofBlock b)) s.start) rfl

theorem loadImage_run (medium : Medium) (hlog : s.log = []) {q : ℤ} {k : ℕ} (hk : (q % 4294967296).toNat = k) :
    ∃ m, Readable medium 256 m ∧ m ≤ k ∧ (m < k → medium (256 + m) = none) ∧
      loadImage medium q s.start s =
        .ok () (if m = k then { s.loaded medium m with rootDev := 0x0101 } else s.loaded medium m) := by
  unfold loadImage
  rw [hk]
  obtain ⟨m, done, hrun, h1, h2, h3, h4⟩ := load_run medium (s := s) k 0 fun j hj => absurd hj (Nat.not_lt_zero j)
  rw [loaded_zero hlog, Nat.mul_zero, Nat.add_zero, Nat.add_zero] at hrun
  rw [Nat.zero_add] at h2 h3 h4
  refine ⟨m, h1, h2, h4, ?_⟩
  rw [Prog.bind_run hrun]
  by_cases hm : m = k
  · rw [if_pos hm, h3.mpr hm]
    rfl
  · rw [if_neg hm, if_neg fun hd => hm (h3.mp hd)]
    rfl

/-- `rd_load` when it does not. -/
theorem rdLoad_quiet (hc : ∀ h, ¬ Copies s medium h) : rdLoad medium s = .ok () s := by
  unfold rdLoad
  rw [Prog.bind_run (Prog.get_run s)]
  by_cases hlen : s.length = 0
  · rw [if_pos hlen]
    rfl
  rw [if_neg hlen]
  by_cases hroot : s.rootDev / 256 ≠ 2
  · rw [if_pos hroot]
    rfl
  rw [if_neg hroot]
  cases hb : medium 257 with
  | none =>
    rw [Prog.bind_run (show breada medium 257 [256, 258] s = _ from onBuffers_ok (readBlock_none hb))]
    rfl
  | some b =>
    rw [Prog.bind_run (show breada medium 257 [256, 258] s = _ from onBuffers_ok (readBlock_some hb))]
    dsimp only
    rw [Prog.bind_run (onBuffers_ok releaseBlock_take)]
    by_cases hmagic : (DiskSuper.ofBlock b).magic ≠ superMagic
    · rw [if_pos hmagic]
      rfl
    rw [if_neg hmagic]
    by_cases hle : (s.length / 1024 : ℤ) < nblocks (DiskSuper.ofBlock b)
    · rw [if_pos hle]
      rfl
    · exact absurd ⟨hlen, not_not.mp hroot, ⟨b, hb, rfl⟩, not_not.mp hmagic, by omega⟩ (hc _)

/-- A count that is not negative, and a negative one, as an unsigned word. -/
theorem toNat_of_nonneg {q : ℤ} (hq : IsLong q) (h0 : 0 ≤ q) : (q % 4294967296).toNat = q.toNat := by
  rw [Int.emod_eq_of_lt h0 (by have := hq.2; omega)]

theorem toNat_of_neg {q : ℤ} (hq : IsLong q) (h0 : q < 0) : 2147483648 ≤ (q % 4294967296).toNat := by
  have := hq.1
  omega

/-- Blocks behind the first `m` are read only if all of those are. -/
theorem le_of_readable {m n : ℕ} (hread : Readable medium 256 n) (hnone : medium (256 + m) = none) : n ≤ m := by
  by_contra hlt
  have := hread m (by omega)
  rw [hnone] at this
  cases this

/-- The end of `rd_load` with `m` blocks copied, of `k` that the loop is for. -/
theorem inBounds_iff {b : Block} {m k : ℕ} (hroot : s.rootDev / 256 = 2) (hb : medium 257 = some b) (hread : Readable medium 256 m)
    (hrun : rdLoad medium s = .ok () (if m = k then { s.loaded medium m with rootDev := 0x0101 } else s.loaded medium m)) :
    InBounds s medium ↔ m ≤ s.length / 1024 ∧
      (m = k → m = (DiskSuper.ofBlock b).nzones * 2 ^ (DiskSuper.ofBlock b).logZoneSize) := by
  have hlog : (if m = k then { s.loaded medium m with rootDev := 0x0101 } else s.loaded medium m).log = copies s.start m := by
    split_ifs <;> rfl
  have hne : 0x0101 ≠ s.rootDev := fun h => by omega
  constructor
  · rintro ⟨s', hr, hin, hall⟩
    obtain rfl : (if m = k then { s.loaded medium m with rootDev := 0x0101 } else s.loaded medium m) = s' := by
      rw [hrun] at hr
      cases hr
      rfl
    rw [hlog] at hin hall
    refine ⟨copies_inside.mp hin, fun hm => ?_⟩
    rw [if_pos hm] at hall
    obtain ⟨-, b', hb', hcopies, -⟩ := hall hne
    obtain rfl : b = b' := Option.some.inj (hb.symm.trans hb')
    exact copies_inj hcopies
  · rintro ⟨hin, hall⟩
    refine ⟨_, hrun, by rw [hlog]; exact copies_inside.mpr hin, fun hroot' => ?_⟩
    rw [hlog]
    by_cases hm : m = k
    · rw [if_pos hm]
      refine ⟨rfl, b, hb, congrArg _ (hall hm), fun i hi => ?_⟩
      rw [← hall hm] at hi
      obtain ⟨data, hdata, -⟩ := loaded_mem (s := s) hread hi (show 0 < 1024 by decide)
      refine ⟨data, hdata, fun j hj => ?_⟩
      obtain ⟨data', hdata', hmem⟩ := loaded_mem (s := s) hread hi hj
      obtain rfl : data = data' := Option.some.inj (hdata.symm.trans hdata')
      exact hmem
    · rw [if_neg hm] at hroot'
      exact absurd rfl hroot'

/-- For any RAM disk, any super block and any blocks that cannot be read, `rd_load` ends, stays within
    the RAM disk and makes it the root device only with the whole image in it, exactly if the image
    has less than 2^31 blocks where it is copied, or a read error stops the copy in time. -/
theorem rd_load_in_bounds {s : Ram} (medium : Medium) (hlog : s.log = []) (hlen : s.length < 2147483648) :
    InBounds s medium ↔ Sound s medium := by
  by_cases hc : ∃ h, Copies s medium h
  swap
  · push Not at hc
    exact iff_of_true ⟨s, rdLoad_quiet hc, fun e he => (by rw [hlog] at he; cases he), fun hne => absurd rfl hne⟩
      fun h hh => absurd hh (hc h)
  obtain ⟨h, hc⟩ := hc
  have hsound : Sound s medium ↔ h.nzones * 2 ^ h.logZoneSize < 2147483648 ∨
      ¬ Readable medium 256 (if nblocks h < 0 then s.length / 1024 + 1 else (nblocks h).toNat) := by
    refine ⟨fun hs => hs h hc, fun hs h' hc' => ?_⟩
    obtain ⟨-, -, ⟨b, hb, rfl⟩, -⟩ := hc
    obtain ⟨-, -, ⟨b', hb', rfl⟩, -⟩ := hc'
    obtain rfl : b = b' := Option.some.inj (hb.symm.trans hb')
    exact hs
  rw [hsound]
  obtain ⟨hlen', hroot, ⟨b, hb, rfl⟩, hmagic, havail⟩ := hc
  obtain ⟨k, hk⟩ : ∃ k, (nblocks (DiskSuper.ofBlock b) % 4294967296).toNat = k := ⟨_, rfl⟩
  obtain ⟨m, hread, hle, hnone, hrun⟩ := loadImage_run medium hlog hk
  rw [← rdLoad_eq hlen' hroot hb hmagic havail] at hrun
  have hout : InBounds s medium ↔ m ≤ s.length / 1024 ∧
      (m = k → m = (DiskSuper.ofBlock b).nzones * 2 ^ (DiskSuper.ofBlock b).logZoneSize) :=
    inBounds_iff hroot hb hread hrun
  rw [hout]
  have hlong := isLong_nblocks (DiskSuper.ofBlock b)
  have hsmall := nblocks_eq (h := DiskSuper.ofBlock b)
  generalize nblocks (DiskSuper.ofBlock b) = q at *
  generalize (DiskSuper.ofBlock b).nzones * 2 ^ (DiskSuper.ofBlock b).logZoneSize = n at *
  by_cases hneg : q < 0
  · rw [if_pos hneg]
    have hk' := toNat_of_neg hlong hneg
    have hbig : ¬ n < 2147483648 := fun hn => by
      have := hsmall hn
      omega
    rw [or_iff_right hbig]
    refine ⟨fun ⟨hin, _⟩ hr => ?_, fun hr => ?_⟩
    · have := le_of_readable hr (hnone (by omega))
      omega
    · have hin : m ≤ s.length / 1024 := by
        by_contra hlt
        exact hr fun j hj => hread j (by omega)
      exact ⟨hin, fun hm => by omega⟩
  · rw [if_neg hneg]
    have hk' := toNat_of_nonneg hlong (not_lt.mp hneg)
    rw [hk] at hk'
    refine ⟨fun ⟨_, hall⟩ => ?_, fun hs => ⟨by omega, fun hm => ?_⟩⟩
    · by_contra hn
      push Not at hn
      obtain hlt | hm := Nat.lt_or_eq_of_le hle
      · have := le_of_readable hn.2 (hnone hlt)
        omega
      · have := hall hm
        have := hlong.2
        omega
    · obtain hn | hr := hs
      · have := hsmall hn
        omega
      · rw [← hk', ← hm] at hr
        exact absurd hread hr

/-- A super block of so many zones. -/
def imageOf (nzones logZoneSize : ℕ) : Block := ((Block.zero.setWord 1 nzones).setWord 5 logZoneSize).setWord 8 superMagic

/-- A RAM disk of 512 blocks, and the first floppy as the root device. -/
def atBoot : Ram := ⟨0x400000, 524288, fun _ => 0, 0x208, ⟨fun _ => 0, fun _ => 0, 0⟩, []⟩

theorem rd_load_in_bounds_image : InBounds atBoot fun _ => some (imageOf 360 0) := by
  refine (rd_load_in_bounds _ rfl (by decide)).mpr fun h hc => ?_
  obtain ⟨-, -, ⟨b, hb, rfl⟩, -⟩ := hc
  cases hb
  exact .inl (by decide)

/-- An image of 2^32 blocks, as its super block says: the shifted count is 0, and nothing is copied. -/
theorem shifted_to_nothing : ¬ InBounds atBoot fun _ => some (imageOf 2 31) := by
  rintro ⟨s', hrun, -, hroot⟩
  have hval : (rdLoad (fun _ => some (imageOf 2 31)) atBoot).state?.map (fun s => (s.rootDev, s.log)) = some (0x0101, []) := by
    decide
  rw [hrun] at hval
  obtain ⟨hdev, hlog⟩ := Prod.mk.inj (Option.some.inj hval)
  obtain ⟨-, b, hb, hcopies, -⟩ := hroot (by rw [hdev]; decide)
  cases hb
  rw [hlog] at hcopies
  have hnone : 0 = 2 * 2 ^ 31 := copies_inj hcopies
  omega

end Linux011.Blk.Ramdisk
