/-
  `read_it` (boot/bootsect.s): the system is read to 0x10000, a track at a time, with cuts at the
  64kB boundaries. The registers are 16 bits wide. A read that the BIOS fails is made again.
-/
import Linux011.Lib.Sizes
import Mathlib.Logic.Function.Iterate
import Mathlib.Data.List.Basic
import Mathlib.Tactic.SplitIfs

namespace Linux011.Boot

def SETUPLEN : ℕ := 4
def SYSSIZE : ℕ := 0x3000
def SYSSEG : ℕ := 0x1000
def ENDSEG : ℕ := SYSSEG + SYSSIZE

/-- What `int 0x13` with ah=2 is asked for. -/
structure Read where
  cylinder : ℕ
  head : ℕ
  sector : ℕ
  drive : ℕ
  count : ℕ
  segment : ℕ
  offset : ℕ

namespace Read

variable (r : Read)

def addr : ℕ := 16 * r.segment + r.offset

/-- The first logical sector, on a disk with two heads. -/
def first (sectors : ℕ) : ℕ := sectors * (2 * r.cylinder + r.head) + (r.sector - 1)

/-- The logical sectors and where each of them goes. -/
def slots (sectors : ℕ) : List (ℕ × ℕ) := (List.range r.count).map fun k => (r.first sectors + k, r.addr + 512 * k)

/-- The buffer gets these bytes. -/
def transfer (bytes : ℕ → UInt8) (mem : ℕ → UInt8) (a : ℕ) : UInt8 :=
  if r.addr ≤ a ∧ a < r.addr + 512 * r.count then bytes (a - r.addr) else mem a

end Read

/-- The disk and the BIOS. -/
structure Bios where
  /-- per track -/
  sectors : ℕ
  /-- The bytes of a logical sector. -/
  disk : ℕ → ℕ → UInt8
  /-- The carry after the read at this time: it failed. -/
  carry : ℕ → Bool
  /-- What a failed read leaves in the buffer. -/
  partly : ℕ → ℕ → UInt8

inductive Label where
  | readIt
  | die
  | rpRead
  | readTrack
  /-- behind `call read_track` -/
  | isRead
  | ret
  deriving DecidableEq

structure Loader where
  label : Label
  ax : ℕ
  bx : ℕ
  es : ℕ
  sread : ℕ
  head : ℕ
  track : ℕ
  mem : ℕ → UInt8
  time : ℕ
  /-- The reads the BIOS was asked for, and those that came through. -/
  asked : List Read
  done : List Read

namespace Loader

/-- `read_track`, up to the `int 0x13` -/
def request (m : Loader) : Read :=
  let cx := m.track % 256 * 256 + (m.sread + 1) % 65536 % 256
  let dx := (m.head % 256 * 256) &&& 0x0100
  { cylinder := cx / 256 + cx % 256 / 64 * 256, head := dx / 256, sector := cx % 64, drive := dx % 256, count := m.ax % 256,
    segment := m.es, offset := m.bx }

def step (b : Bios) (m : Loader) : Loader :=
  match m.label with
  | .readIt => if m.es &&& 0x0fff ≠ 0 then { m with label := .die } else { m with bx := 0, label := .rpRead }
  | .die => m
  | .rpRead =>
    if m.es < ENDSEG then
      let ax := (b.sectors + (65536 - m.sread)) % 65536
      let cx := (ax <<< 9) % 65536 + m.bx
      -- jnc, je
      if cx < 65536 ∨ cx % 65536 = 0 then { m with ax := ax, label := .readTrack }
      else { m with ax := ((65536 - m.bx) % 65536) >>> 9, label := .readTrack }
    else { m with label := .ret }
  | .readTrack =>
    let r := m.request
    let m' := { m with time := m.time + 1, asked := m.asked ++ [r] }
    if b.carry m.time then { m' with mem := r.transfer (b.partly m.time) m.mem }
    else { m' with mem := r.transfer (fun k => b.disk (r.first b.sectors + k / 512) (k % 512)) m.mem, done := m.done ++ [r],
                   label := .isRead }
  | .isRead =>
    let cx := m.ax
    let ax := (m.ax + m.sread) % 65536
    let m :=
      if ax = b.sectors then
        let ax := (1 + (65536 - m.head)) % 65536
        { m with track := if ax = 0 then (m.track + 1) % 65536 else m.track, head := ax, sread := 0 }
      else { m with sread := ax }
    let bx := m.bx + (cx <<< 9) % 65536
    if bx < 65536 then { m with bx := bx, label := .rpRead }
    else { m with es := (m.es + 0x1000) % 65536, bx := 0, label := .rpRead }
  | .ret => m

/-- `mov es,ax` and `call read_it` -/
def start (ax bx time : ℕ) (mem : ℕ → UInt8) : Loader :=
  { label := .readIt, ax := ax, bx := bx, es := SYSSEG, sread := 1 + SETUPLEN, head := 0, track := 0, mem := mem, time := time,
    asked := [], done := [] }

end Loader

/-- From one state to the other. -/
def Leads (b : Bios) (m m' : Loader) : Prop := ∃ n, (Loader.step b)^[n] m = m'

namespace Leads

variable {b : Bios} {m m' m'' : Loader}

theorem refl : Leads b m m := ⟨0, rfl⟩

theorem step (h : Loader.step b m = m') : Leads b m m' := ⟨1, h⟩

theorem trans (h : Leads b m m') (h' : Leads b m' m'') : Leads b m m'' := by
  obtain ⟨n, rfl⟩ := h
  obtain ⟨n', rfl⟩ := h'
  exact ⟨n' + n, Function.iterate_add_apply _ _ _ _⟩

end Leads

/-- A read within one track and within 64kB. -/
structure Fits (sectors : ℕ) (r : Read) : Prop where
  pos : 0 < r.count
  sector : 1 ≤ r.sector
  track : r.sector - 1 + r.count ≤ sectors
  head : r.head < 2
  segment : r.addr / 0x10000 = (r.addr + 512 * r.count - 1) / 0x10000

theorem Read.transfer_transfer (r : Read) (bytes bytes' mem : ℕ → UInt8) :
    r.transfer bytes' (r.transfer bytes mem) = r.transfer bytes' mem := by
  funext a
  unfold Read.transfer
  split_ifs <;> rfl

/-- A failed read is made again as it was, until it comes through. -/
theorem readTrack_leads {b : Bios} {m : Loader} (hm : m.label = .readTrack) (hok : ∃ t ≥ m.time, b.carry t = false) :
    ∃ n, Leads b m { m with
      label := .isRead, time := m.time + n, asked := m.asked ++ List.replicate n m.request, done := m.done ++ [m.request]
      mem := m.request.transfer (fun k => b.disk (m.request.first b.sectors + k / 512) (k % 512)) m.mem } := by
  obtain ⟨t, ht, hc⟩ := hok
  obtain ⟨d, rfl⟩ := Nat.exists_eq_add_of_le ht
  clear ht
  induction d generalizing m with
  | zero =>
    refine ⟨1, .step ?_⟩
    unfold Loader.step
    rw [hm]
    dsimp only
    rw [if_neg (by rw [show b.carry m.time = false from hc]; decide)]
    rfl
  | succ d ih =>
    by_cases hf : b.carry m.time = true
    · have hstep : Loader.step b m = { m with
          time := m.time + 1, asked := m.asked ++ [m.request], mem := m.request.transfer (b.partly m.time) m.mem } := by
        unfold Loader.step
        rw [hm]
        dsimp only
        rw [if_pos hf]
      obtain ⟨n, hn⟩ := ih (m := { m with
          time := m.time + 1, asked := m.asked ++ [m.request], mem := m.request.transfer (b.partly m.time) m.mem }) hm (by
        rw [show m.time + 1 + d = m.time + (d + 1) by omega]
        exact hc)
      refine ⟨n + 1, (Leads.step hstep).trans ?_⟩
      have hasked : m.asked ++ List.replicate (n + 1) m.request = m.asked ++ [m.request] ++ List.replicate n m.request := by
        rw [List.replicate_succ, List.append_assoc, List.singleton_append]
      rw [show m.time + (n + 1) = m.time + 1 + n by omega, hasked,
        ← Read.transfer_transfer m.request (b.partly m.time) (fun k => b.disk (m.request.first b.sectors + k / 512) (k % 512)) m.mem]
      exact hn
    · refine ⟨1, .step ?_⟩
      unfold Loader.step
      rw [hm]
      dsimp only
      rw [if_neg hf]
      rfl

/-- `i` sectors are in, the next one is sector `r` of track `q`. -/
structure Loaded (b : Bios) (mem₀ : ℕ → UInt8) (i q r : ℕ) (m : Loader) : Prop where
  label : m.label = .rpRead
  place : 5 + i = b.sectors * q + r
  lt : r < b.sectors
  sread : m.sread = r
  head : m.head = q % 2
  track : m.track = q / 2
  es : m.es = 0x1000 + 0x1000 * (i / 128)
  bx : m.bx = 512 * (i % 128)
  mem : ∀ a, m.mem a = if 0x10000 ≤ a ∧ a < 0x10000 + 512 * i then b.disk (5 + (a - 0x10000) / 512) ((a - 0x10000) % 512) else mem₀ a
  done : m.done.flatMap (fun r => r.slots b.sectors) = (List.range i).map fun k => (5 + k, 0x10000 + 512 * k)
  fits : ∀ r ∈ m.asked ++ m.done, Fits b.sectors r

/-- The sectors that are read next: up to the end of the track or of the segment. -/
def chunk (sectors i r : ℕ) : ℕ := min (sectors - r) (128 - i % 128)

section

variable {b : Bios} {mem₀ : ℕ → UInt8} {i q r : ℕ} {m : Loader}

/-- The request for a chunk. -/
def chunkRead (sectors i q r : ℕ) : Read :=
  { cylinder := q / 2, head := q % 2, sector := r + 1, drive := 0, count := chunk sectors i r, segment := 0x1000 + 0x1000 * (i / 128),
    offset := 512 * (i % 128) }

theorem Loaded.rpRead (hl : Loaded b mem₀ i q r m) (hi : i < 384) (hS : b.sectors ≤ 63) :
    Loader.step b m = { m with ax := chunk b.sectors i r, label := .readTrack } := by
  have hlt := hl.lt
  have hend : ENDSEG = 0x4000 := rfl
  have hshift : (b.sectors - r) <<< 9 % 65536 = 512 * (b.sectors - r) := by
    rw [Nat.shiftLeft_eq]
    omega
  have hax : (b.sectors + (65536 - r)) % 65536 = b.sectors - r := by omega
  have hcut : ((65536 - 512 * (i % 128)) % 65536) >>> 9 = (65536 - 512 * (i % 128)) % 65536 / 512 := Nat.shiftRight_eq_div_pow ..
  unfold Loader.step
  rw [hl.label]
  dsimp only
  rw [hl.es, hl.bx, hl.sread, hend, if_pos (by omega), hax, hshift, hcut]
  unfold chunk
  split_ifs with hc
  · rw [Nat.min_eq_left (by omega)]
  · rw [show (65536 - 512 * (i % 128)) % 65536 / 512 = 128 - i % 128 by omega, Nat.min_eq_right (by omega)]

theorem Loaded.track_lt (hl : Loaded b mem₀ i q r m) (hi : i < 384) (hS : 6 ≤ b.sectors) : q < 128 := by
  have hplace := hl.place
  by_contra hq
  have := Nat.mul_le_mul hS (Nat.not_lt.mp hq)
  omega

theorem Loaded.request (hl : Loaded b mem₀ i q r m) (hi : i < 384) (hS : 6 ≤ b.sectors ∧ b.sectors ≤ 63) :
    Loader.request { m with ax := chunk b.sectors i r, label := .readTrack } = chunkRead b.sectors i q r := by
  have hlt := hl.lt
  have hplace := hl.place
  have hq := hl.track_lt hi hS.1
  have hchunk : chunk b.sectors i r ≤ b.sectors - r := Nat.min_le_left ..
  unfold Loader.request chunkRead
  dsimp only
  rw [hl.track, hl.sread, hl.head, hl.es, hl.bx]
  have hhead : q % 2 % 256 * 256 &&& 0x0100 = q % 2 * 256 := by
    obtain h | h := Nat.mod_two_eq_zero_or_one q <;> rw [h]
    · rfl
    · rfl
  rw [hhead]
  refine Read.mk.injEq .. ▸ ⟨?_, ?_, ?_, ?_, ?_, rfl, rfl⟩ <;> omega

theorem Loaded.chunk_fits (hl : Loaded b mem₀ i q r m) (hi : i < 384) : Fits b.sectors (chunkRead b.sectors i q r) := by
  have hlt := hl.lt
  have hle : chunk b.sectors i r ≤ b.sectors - r ∧ chunk b.sectors i r ≤ 128 - i % 128 ∧ 0 < chunk b.sectors i r := by
    unfold chunk
    omega
  generalize hn : chunk b.sectors i r = n at hle
  unfold chunkRead
  rw [hn]
  refine ⟨hle.2.2, Nat.le_add_left .., ?_, Nat.mod_lt _ (by decide), ?_⟩
  · change r + 1 - 1 + n ≤ _
    omega
  · change (16 * (0x1000 + 0x1000 * (i / 128)) + 512 * (i % 128)) / 0x10000 =
      (16 * (0x1000 + 0x1000 * (i / 128)) + 512 * (i % 128) + 512 * n - 1) / 0x10000
    omega

theorem chunkRead_addr (sectors i q r : ℕ) : (chunkRead sectors i q r).addr = 0x10000 + 512 * i := by
  change 16 * (0x1000 + 0x1000 * (i / 128)) + 512 * (i % 128) = _
  omega

theorem Loaded.first (hl : Loaded b mem₀ i q r m) : (chunkRead b.sectors i q r).first b.sectors = 5 + i := by
  change b.sectors * (2 * (q / 2) + q % 2) + (r + 1 - 1) = _
  rw [Nat.div_add_mod, Nat.add_sub_cancel, hl.place]

/-- What the read adds to the memory. -/
theorem Loaded.mem_next (hl : Loaded b mem₀ i q r m) (a : ℕ) :
    (chunkRead b.sectors i q r).transfer (fun k => b.disk (5 + i + k / 512) (k % 512)) m.mem a =
      if 0x10000 ≤ a ∧ a < 0x10000 + 512 * (i + chunk b.sectors i r) then b.disk (5 + (a - 0x10000) / 512) ((a - 0x10000) % 512)
      else mem₀ a := by
  unfold Read.transfer
  have hcount : (chunkRead b.sectors i q r).count = chunk b.sectors i r := rfl
  rw [chunkRead_addr, hl.mem, hcount]
  generalize chunk b.sectors i r = n
  by_cases hn : 0x10000 + 512 * i ≤ a ∧ a < 0x10000 + 512 * i + 512 * n
  · rw [if_pos hn, if_pos (by omega)]
    dsimp only
    rw [show 5 + i + (a - (0x10000 + 512 * i)) / 512 = 5 + (a - 0x10000) / 512 by omega,
      show (a - (0x10000 + 512 * i)) % 512 = (a - 0x10000) % 512 by omega]
  · rw [if_neg hn]
    by_cases hi : 0x10000 ≤ a ∧ a < 0x10000 + 512 * i
    · rw [if_pos hi, if_pos (by omega)]
    · rw [if_neg hi, if_neg (by omega)]

/-- The segment and the offset behind `n` sectors more of the segment. -/
theorem segment_next {n : ℕ} (hi : i < 384) (hn : n ≤ 128 - i % 128) :
    (512 * (i % 128) + 512 * n < 65536 ∧ 0x1000 + 0x1000 * (i / 128) = 0x1000 + 0x1000 * ((i + n) / 128) ∧
      512 * (i % 128) + 512 * n = 512 * ((i + n) % 128)) ∨
    (¬ 512 * (i % 128) + 512 * n < 65536 ∧ (0x1000 + 0x1000 * (i / 128) + 0x1000) % 65536 = 0x1000 + 0x1000 * ((i + n) / 128) ∧
      0 = 512 * ((i + n) % 128)) := by
  obtain hlt | heq := Nat.lt_or_ge (i % 128 + n) 128
  · refine .inl ⟨by omega, ?_, by omega⟩
    rw [show (i + n) / 128 = i / 128 by omega]
  · refine .inr ⟨by omega, ?_, by omega⟩
    rw [show (i + n) / 128 = i / 128 + 1 by omega]
    omega

/-- The track and the sector behind `n` sectors more of the track. -/
theorem Loaded.place_next (hl : Loaded b mem₀ i q r m) {n : ℕ} (hn : n ≤ b.sectors - r) :
    (if n + r = b.sectors then 0 else n + r) < b.sectors ∧ 5 + (i + n) =
      b.sectors * (if n + r = b.sectors then q + 1 else q) + (if n + r = b.sectors then 0 else n + r) := by
  have hlt := hl.lt
  have hplace := hl.place
  split_ifs with hend
  · rw [Nat.mul_succ]
    exact ⟨by omega, by omega⟩
  · exact ⟨by omega, by omega⟩

/-- One read more: the registers move on to the next chunk. -/
theorem Loaded.next (hl : Loaded b mem₀ i q r m) (hi : i < 384) (hS : 6 ≤ b.sectors ∧ b.sectors ≤ 63)
    (hok : ∀ t, ∃ t' ≥ t, b.carry t' = false) :
    ∃ q' r' m', Leads b m m' ∧ Loaded b mem₀ (i + chunk b.sectors i r) q' r' m' := by
  obtain ⟨k, hk⟩ := readTrack_leads (b := b) (m := { m with ax := chunk b.sectors i r, label := .readTrack }) rfl (hok _)
  rw [hl.request hi hS, hl.first] at hk
  replace hk := (Leads.step (hl.rpRead hi hS.2)).trans hk
  have hfits := hl.chunk_fits hi
  have hlt := hl.lt
  have hplace := hl.place
  have hmem := hl.mem_next
  have hle : chunk b.sectors i r ≤ b.sectors - r ∧ chunk b.sectors i r ≤ 128 - i % 128 ∧ 0 < chunk b.sectors i r := by
    unfold chunk
    omega
  have hslots : (chunkRead b.sectors i q r).slots b.sectors =
      (List.range (chunk b.sectors i r)).map fun k => (5 + (i + k), 0x10000 + 512 * (i + k)) := by
    unfold Read.slots
    rw [hl.first, chunkRead_addr]
    exact List.map_congr_left fun k _ => by rw [Nat.add_assoc 5, Nat.mul_add, Nat.add_assoc 0x10000]
  generalize chunkRead b.sectors i q r = rd at hk hfits hmem hslots
  generalize chunk b.sectors i r = n at hk hle hmem hslots
  have hdone : (m.done ++ [rd]).flatMap (fun r => r.slots b.sectors) =
      (List.range (i + n)).map fun k => (5 + k, 0x10000 + 512 * k) := by
    rw [List.flatMap_append, hl.done, List.flatMap_singleton, hslots, List.range_add, List.map_append, List.map_map]
    rfl
  have hall : ∀ r ∈ (m.asked ++ List.replicate k rd) ++ (m.done ++ [rd]), Fits b.sectors r := fun r hr => by
    simp only [List.mem_append, List.mem_replicate, List.mem_singleton] at hr
    obtain (hr | ⟨-, rfl⟩) | (hr | rfl) := hr
    · exact hl.fits r (List.mem_append_left _ hr)
    · exact hfits
    · exact hl.fits r (List.mem_append_right _ hr)
    · exact hfits
  have hshift : n <<< 9 % 65536 = 512 * n := by
    rw [Nat.shiftLeft_eq]
    exact (Nat.mod_eq_of_lt (by omega)).trans (Nat.mul_comm ..)
  have hsum : (n + r) % 65536 = n + r := Nat.mod_eq_of_lt (by omega)
  have hmod : (1 + (65536 - q % 2)) % 65536 = (q + 1) % 2 := by
    clear hplace hle hlt
    omega
  have htrack : (if (q + 1) % 2 = 0 then (q / 2 + 1) % 65536 else q / 2) = (q + 1) / 2 := by
    have hq := hl.track_lt hi hS.1
    clear hplace hle hlt
    split_ifs <;> omega
  have hnext := hl.place_next hle.1
  refine ⟨if n + r = b.sectors then q + 1 else q, if n + r = b.sectors then 0 else n + r, _, hk.trans (.step rfl), ?_⟩
  unfold Loader.step
  dsimp only
  rw [hl.sread, hl.head, hl.track, hl.es, hl.bx, hshift, hsum, hmod, htrack]
  by_cases hend : n + r = b.sectors
  · simp only [if_pos hend] at hnext ⊢
    obtain ⟨hs, hes, hbx⟩ | ⟨hs, hes, hbx⟩ := segment_next hi hle.2.1
    · rw [if_pos hs]
      exact ⟨rfl, hnext.2, hnext.1, rfl, rfl, rfl, hes, hbx, hmem, hdone, hall⟩
    · rw [if_neg hs]
      exact ⟨rfl, hnext.2, hnext.1, rfl, rfl, rfl, hes, hbx, hmem, hdone, hall⟩
  · simp only [if_neg hend] at hnext ⊢
    obtain ⟨hs, hes, hbx⟩ | ⟨hs, hes, hbx⟩ := segment_next hi hle.2.1
    · rw [if_pos hs]
      exact ⟨rfl, hnext.2, hnext.1, rfl, rfl, rfl, hes, hbx, hmem, hdone, hall⟩
    · rw [if_neg hs]
      exact ⟨rfl, hnext.2, hnext.1, rfl, rfl, rfl, hes, hbx, hmem, hdone, hall⟩

/-- The chunks up to the end. -/
theorem Loaded.run (hl : Loaded b mem₀ i q r m) (hi : i ≤ 384) (hS : 6 ≤ b.sectors ∧ b.sectors ≤ 63)
    (hok : ∀ t, ∃ t' ≥ t, b.carry t' = false) : ∃ q' r' m', Leads b m m' ∧ Loaded b mem₀ 384 q' r' m' := by
  obtain ⟨d, hd⟩ := Nat.exists_eq_add_of_le hi
  induction d using Nat.strongRecOn generalizing i q r m with | ind d ih =>
  obtain hlt | rfl := Nat.lt_or_eq_of_le hi
  · have hr := hl.lt
    have hn : 0 < chunk b.sectors i r ∧ chunk b.sectors i r ≤ 128 - i % 128 := by
      unfold chunk
      omega
    obtain ⟨q₁, r₁, m₁, hto, hl₁⟩ := hl.next hlt hS hok
    obtain ⟨q', r', m', hto', hl'⟩ := ih (d - chunk b.sectors i r) (by omega) hl₁ (by omega) (by omega)
    exact ⟨q', r', m', hto.trans hto', hl'⟩
  · exact ⟨q, r, m, .refl, hl⟩

end

/-- Whatever the sectors per track, `read_it` returns with the 384 sectors behind the setup code at
    0x10000 and up, in order, each of them once; and every read it asks for fits. -/
theorem read_it_contiguous (b : Bios) (hS : 6 ≤ b.sectors ∧ b.sectors ≤ 63) (hok : ∀ t, ∃ t' ≥ t, b.carry t' = false)
    (ax bx time : ℕ) (mem : ℕ → UInt8) :
    ∃ m, Leads b (Loader.start ax bx time mem) m ∧ m.label = .ret ∧
      m.done.flatMap (fun r => r.slots b.sectors) = (List.range 384).map (fun k => (5 + k, 0x10000 + 512 * k)) ∧
      (∀ r ∈ m.asked ++ m.done, Fits b.sectors r) ∧
      ∀ a, m.mem a = if 0x10000 ≤ a ∧ a < 0x40000 then b.disk (5 + (a - 0x10000) / 512) ((a - 0x10000) % 512) else mem a := by
  have hstart : Loader.step b (Loader.start ax bx time mem) = { Loader.start ax bx time mem with bx := 0, label := .rpRead } :=
    if_neg (not_not.mpr (show SYSSEG &&& 0x0fff = 0 by decide))
  have hl : Loaded b mem 0 0 5 { Loader.start ax bx time mem with bx := 0, label := .rpRead } :=
    ⟨rfl, by rw [Nat.mul_zero], by omega, rfl, rfl, rfl, rfl, rfl, fun a => (if_neg (by omega)).symm, rfl,
      fun r hr => absurd hr List.not_mem_nil⟩
  obtain ⟨q, r, m, hto, hm⟩ := hl.run (by decide) hS hok
  have hret : Loader.step b m = { m with label := .ret } := by
    unfold Loader.step
    rw [hm.label]
    dsimp only
    rw [hm.es, if_neg (by decide)]
  exact ⟨_, (Leads.step hstart).trans (hto.trans (.step hret)), rfl, hm.done, hm.fits, hm.mem⟩

/-- A 1.44M disk, and a BIOS that fails every other time. -/
def highDensity : Bios := ⟨18, fun n k => UInt8.ofNat (n + k), fun t => t % 2 == 0, fun _ _ => 0⟩

theorem read_it_contiguous_highDensity : ∃ m, Leads highDensity (Loader.start 0 0 0 fun _ => 0) m ∧ m.label = .ret ∧
    m.mem 0x3FFFF = UInt8.ofNat (388 + 511) := by
  have hok : ∀ t, ∃ t' ≥ t, highDensity.carry t' = false := fun t =>
    ⟨2 * t + 1, by omega, by change ((2 * t + 1) % 2 == 0) = false; rw [beq_eq_false_iff_ne]; omega⟩
  obtain ⟨m, hto, hret, -, -, hmem⟩ := read_it_contiguous highDensity ⟨by decide, by decide⟩ hok 0 0 0 fun _ => 0
  exact ⟨m, hto, hret, by rw [hmem, if_pos (by decide)]; rfl⟩

end Linux011.Boot
