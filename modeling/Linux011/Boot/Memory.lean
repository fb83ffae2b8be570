/-
  The first lines of `main` (init/main.c): buffers, RAM disk and main memory share what the BIOS has
  counted, and `mem_init` frees the pages of main memory. A RAM disk that does not end at a page
  shares its last page with them.
-/
import Linux011.Boot.Paging
import Linux011.Fs.BufferLayout

namespace Linux011.Boot

open Linux011.Lib Linux011.Mm Paging

def memoryEnd (extMemK : ℕ) : ℕ :=
  let memoryEnd := ((1 <<< 20) + extMemK <<< 10) / 4096 * 4096
  if 16 * 1024 * 1024 < memoryEnd then 16 * 1024 * 1024 else memoryEnd

/-- `ramdisk` is RAMDISK, and 0 when that is not defined. -/
def mainMemoryStart (extMemK ramdisk : ℕ) : ℕ := Fs.bufferMemoryEnd extMemK + ramdisk * 1024

def mainMemInit (extMemK ramdisk : ℕ) (s : Mem) : Mem := memInit s (mainMemoryStart extMemK ramdisk) (memoryEnd extMemK)

/-- `get_free_page` may take this frame. -/
def Free (s : Mem) (f : ℕ) : Prop := 256 ≤ f ∧ f < 256 + pagingPages ∧ s.memMap (mapNr (4096 * f)) = 0

variable {extMemK ramdisk f : ℕ} {s : Mem}

theorem memoryEnd_le (extMemK : ℕ) : memoryEnd extMemK ≤ 4096 * 4096 ∧ memoryEnd extMemK % 4096 = 0 := by
  unfold memoryEnd
  dsimp only
  split_ifs <;> omega

theorem mainMemoryStart_mod (extMemK ramdisk : ℕ) : 0x100000 ≤ mainMemoryStart extMemK ramdisk ∧
    mainMemoryStart extMemK ramdisk % 4096 = ramdisk % 4 * 1024 := by
  have hb := Fs.bufferMemoryEnd_cases extMemK
  unfold mainMemoryStart
  omega

/-- The frames that `mem_init` frees. -/
theorem free_iff : Free (mainMemInit extMemK ramdisk s) f ↔ mainMemoryStart extMemK ramdisk / 4096 ≤ f ∧
    f < mainMemoryStart extMemK ramdisk / 4096 + (memoryEnd extMemK - mainMemoryStart extMemK ramdisk) / 4096 := by
  obtain ⟨hlo, -⟩ := mainMemoryStart_mod extMemK ramdisk
  obtain ⟨hhi, -⟩ := memoryEnd_le extMemK
  unfold Free mainMemInit memInit
  dsimp only
  rw [clearMap_apply, Nat.mul_comm 4096 f, mapNr_addr]
  generalize mainMemoryStart extMemK ramdisk = lo at *
  generalize memoryEnd extMemK = hi at *
  have hmap : mapNr lo = lo / 4096 - 256 := by
    unfold mapNr lowMem
    rw [Nat.shiftRight_eq_div_pow]
    omega
  have hpages : pagingPages = 3840 := rfl
  have hshift : (hi - lo) >>> 12 = (hi - lo) / 4096 := Nat.shiftRight_eq_div_pow ..
  rw [hmap, hpages, hshift]
  refine ⟨fun h => ?_, fun h => ?_⟩
  · obtain ⟨h1, h2, h3⟩ := h
    split_ifs at h3 with hf
    · omega
    · exact absurd h3 (by decide)
  · refine ⟨by omega, by omega, if_pos (by omega)⟩

/-- From head.s on, whatever is in the memory and however much of it there is: the free pages are
    behind the buffers and below the end of the memory; they keep off the RAM disk exactly when it ends
    at a page or no page is free; and then the memory manager starts with its invariant. -/
theorem main_memory (m : Machine) (h : m.label = .setupPaging) (extMemK ramdisk : ℕ) :
    ∃ m', LeadsTo Machine.step m m' ∧ m'.label = .ret ∧
      (∀ f, Free (mainMemInit extMemK ramdisk (physical m'.mem)) f →
        Fs.bufferMemoryEnd extMemK ≤ 4096 * f ∧ 4096 * (f + 1) ≤ memoryEnd extMemK) ∧
      ((∀ f, Free (mainMemInit extMemK ramdisk (physical m'.mem)) f → mainMemoryStart extMemK ramdisk ≤ 4096 * f) ↔
        ramdisk % 4 = 0 ∨ memoryEnd extMemK < mainMemoryStart extMemK ramdisk + 4096) ∧
      (ramdisk % 4 = 0 → mainMemoryStart extMemK ramdisk ≤ memoryEnd extMemK →
        MemInv (mainMemoryStart extMemK ramdisk / 4096) (memoryEnd extMemK / 4096) (mainMemInit extMemK ramdisk (physical m'.mem)) ∅) := by
  obtain ⟨m', hto, hret, -, -, ht⟩ := setup_leads m h
  obtain ⟨hlo, hmod⟩ := mainMemoryStart_mod extMemK ramdisk
  obtain ⟨hhi, hmod'⟩ := memoryEnd_le extMemK
  have hb : Fs.bufferMemoryEnd extMemK % 4096 = 0 := by
    have := Fs.bufferMemoryEnd_cases extMemK
    omega
  have hle : Fs.bufferMemoryEnd extMemK ≤ mainMemoryStart extMemK ramdisk := Nat.le_add_right ..
  refine ⟨m', hto, hret, fun f hf => ?_, ⟨fun hall => ?_, fun hor f hf => ?_⟩, fun hr hfit => ?_⟩
  · rw [free_iff] at hf
    omega
  · by_contra hno
    have := hall (mainMemoryStart extMemK ramdisk / 4096) (free_iff.mpr (by omega))
    omega
  · rw [free_iff] at hf
    omega
  · have h1 : 256 ≤ mainMemoryStart extMemK ramdisk / 4096 := by omega
    have h2 : mainMemoryStart extMemK ramdisk / 4096 ≤ memoryEnd extMemK / 4096 := by omega
    have hinv := memInit_inv h1 h2 (by omega) ht.boot
    rwa [Nat.div_mul_cancel (Nat.dvd_of_mod_eq_zero (by omega)), Nat.div_mul_cancel (Nat.dvd_of_mod_eq_zero hmod')] at hinv

theorem main_memory_unaligned : ∃ m', LeadsTo Machine.step ⟨.setupPaging, 0, 0, 0, false, 0, false, fun _ => 0⟩ m' ∧
    ¬ ∀ f, Free (mainMemInit 3072 1 (physical m'.mem)) f → mainMemoryStart 3072 1 ≤ 4096 * f := by
  obtain ⟨m', hto, -, -, hiff, -⟩ := main_memory ⟨.setupPaging, 0, 0, 0, false, 0, false, fun _ => 0⟩ rfl 3072 1
  exact ⟨m', hto, fun h => absurd (hiff.mp h) (by decide)⟩

end Linux011.Boot
