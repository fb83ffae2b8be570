/-
  kernel/fork.c: `verify_area`. When it returns, every present page of the buffer is writable and
  mapped nowhere else, for every alignment and also where the addresses wrap around at 4 GB. `size` is
  an `int`, and `size += start & 0xfff` overflows for a buffer of nearly 2 GB: then the loop does not run.
-/
import Linux011.Mm.CopyOut
import Linux011.Mm.Sharing

namespace Linux011.Mm

open Linux011.Lib Sys

variable {F : Nat → Exe} {lo hi : Nat} {σ : Sys} {t addr size off : Nat} {τ : Task} {s' : Mem}

/-- The byte at offset `off` of the segment is one of the `size` bytes from `addr` on. -/
def InArea (addr size off : Nat) : Prop := off < 0x4000000 ∧ ∃ i < size, (addr + i) % 2 ^ 32 = off

/-- Slot `x` may be written without another slot showing it. -/
def Unshared (s : Mem) (x : Nat × Nat) : Prop :=
  (s.pte x).rw = true ∧ ∀ y ∈ userSlots, (s.pte y).present = true → (s.pte y).frame = (s.pte x).frame → y = x

theorem MemInv.unshared {s : Mem} {own : Finset Nat} {x : Nat × Nat} (h : MemInv lo hi s own) (hx : x ∈ userSlots)
    (hp : (s.pte x).present = true) (hr : (s.pte x).rw = true) : Unshared s x := by
  refine ⟨hr, fun y hy hpy hf => ?_⟩
  have hrange := (h.pte_range hx hp).resolve_right fun hlow => by rw [hr] at hlow; cases hlow.2
  exact h.refs.cow x hx y hy hp hr (h.bounds.1.trans hrange.1) hpy hf

/-- The walk comes by the page of every byte of the buffer. -/
theorem walk_covers (ht : t < 64) (ha : InArea addr size off) (hno : ¬ Overflows addr size) :
    ∃ j < walkLength addr size, walk (walkStart t addr) j = slot t off := by
  obtain ⟨hoff, i, hi, rfl⟩ := ha
  refine ⟨(addr % 4096 + i) / 4096, ?_, ?_⟩
  · unfold Overflows at hno
    rw [walkLength, if_neg hno]
    omega
  · have hpage : ((addr / 4096 * 4096 + base t) % 2 ^ 32 + 4096 * ((addr % 4096 + i) / 4096)) % 2 ^ 32 =
        base t + (addr + i) % 2 ^ 32 / 4096 * 4096 := by
      unfold base
      omega
    rw [walk, walkStart, hpage]
    exact slot_page

/-- After `verify_area` every present page of the buffer may be written without another task seeing it,
    if and only if the sum of the size and the offset in the page is an `int`, or the pages were all
    writable before. -/
theorem verify_area_covers (F : Nat → Exe) (lo hi : Nat) (h1 : 256 ≤ lo) (h2 : lo ≤ hi) (h3 : hi ≤ 4096) (σ : Sys)
    (h : (taskSystem F lo hi).Reachable σ) (t : Nat) (τ : Task) (hrun : σ.Running t τ) (addr size : Nat) (s' : Mem)
    (he : verifyArea σ.mm t addr size = .ok s') :
    (∀ off, InArea addr size off → (s'.pte (slot t off)).present = true → Unshared s' (slot t off)) ↔
      size + addr % 4096 < 2 ^ 31 ∨
        ∀ off, InArea addr size off → (σ.mm.pte (slot t off)).present = true → (σ.mm.pte (slot t off)).rw = true := by
  have hinv := taskSystem_inv h1 h2 h3 h
  have ht := (hinv.task t τ hrun.2.1).lt
  have hx : ∀ off, InArea addr size off → slot t off ∈ userSlots := fun off ha => slot_mem hrun.1 ht ha.1
  by_cases hover : Overflows addr size
  · unfold Overflows at hover
    have hsame : s' = σ.mm := by
      rw [verifyArea, if_pos hover] at he
      cases he
      rfl
    have hno : ¬ size + addr % 4096 < 2 ^ 31 := Nat.not_lt.mpr hover
    rw [hsame, or_iff_right hno]
    exact ⟨fun hun off ha hp => (hun off ha hp).1, fun hrw off ha hp => hinv.mem.unshared (hx off ha) hp (hrw off ha hp)⟩
  · refine iff_of_true (fun off ha hp => ?_) (Or.inl (Nat.not_le.mp hover))
    rw [verifyArea_eq] at he
    obtain ⟨s1, e, hv⟩ : ∃ s1, verifyPages σ.mm (walkStart t addr) (walkLength addr size) = .ok s1 ∧
        Verified lo hi σ.mm σ.own (walkStart t addr) (walkLength addr size) s1 := by
      rcases verifyPages_spec (walkLength addr size) hinv.mem (Nat.mod_lt _ (by decide)) with ⟨s1, e, -⟩ | ⟨s1, e, hv⟩
      · cases e.symm.trans he
      · exact ⟨s1, e, hv⟩
    cases e.symm.trans he
    obtain ⟨j, hj, hw⟩ := walk_covers ht ha hover
    refine hv.inv.unshared (hx off ha) hp ?_
    have := hv.writable j hj
    rw [hw] at this
    exact this (hx off ha) hp

/-- Tasks 1 and 2 share a page. A read of 2147483647 bytes into the buffer at address 1 verifies nothing. -/
theorem verify_area_overflows : ∃ σ s', (taskSystem (fun _ => zeroText) 1024 4096).Reachable σ ∧
    σ.Running 2 (started (fun _ => zeroText) 0) ∧ verifyArea σ.mm 2 1 2147483647 = .ok s' ∧ InArea 1 2147483647 1 ∧
    (s'.pte (slot 2 1)).present = true ∧ ¬ Unshared s' (slot 2 1) := by
  obtain ⟨σ, f, hr, -, -, htask, -, -, -, -, -, hpair⟩ := modified_pair
  refine ⟨σ, σ.mm, hr, ⟨by omega, htask 2 (by omega), rfl, rfl⟩, ?_, ⟨by decide, 0, by decide, rfl⟩, (hpair 2 (Or.inr rfl)).1, ?_⟩
  · rw [verifyArea, if_pos (by decide)]
  · intro hun
    have hsame := hun.2 (slot 1 1) (slot_mem (by omega) (by omega) (by omega)) (hpair 1 (Or.inl rfl)).1
      ((hpair 1 (Or.inl rfl)).2.1.trans (hpair 2 (Or.inr rfl)).2.1.symm)
    exact absurd hsame (by decide)

/-- The same buffer with one byte: its page is copied. -/
theorem verify_area_covers_byte : ∃ σ s', (taskSystem (fun _ => zeroText) 1024 4096).Reachable σ ∧
    verifyArea σ.mm 2 0 1 = .ok s' ∧ Unshared s' (slot 2 0) := by
  obtain ⟨σ, f, hr, hroom, -, htask, -, -, -, -, -, hpair⟩ := modified_pair
  have hinv := taskSystem_inv (by omega) (by omega) (by omega) hr
  have hrun : σ.Running 2 (started (fun _ => zeroText) 0) := ⟨by omega, htask 2 (by omega), rfl, rfl⟩
  obtain ⟨hp, hf, -⟩ := hpair 2 (Or.inr rfl)
  obtain ⟨g, s, hg⟩ := hroom.free hinv.mem (by omega)
  have hrw : (σ.mm.pte (slot 2 0)).rw = false := by
    by_contra hrw
    have hun := hinv.mem.unshared (slot_mem (by omega) (by omega) (by omega)) hp (by simpa using hrw)
    exact absurd (hun.2 (slot 1 0) (slot_mem (by omega) (by omega) (by omega)) (hpair 1 (Or.inl rfl)).1
      ((hpair 1 (Or.inl rfl)).2.1.trans hf.symm)) (by decide)
  obtain ⟨s', e, hu⟩ := writeVerify_copies hinv hrun hp hrw (by rw [hg]; simp)
  have he := verifyArea_byte (t := 2) (by omega) e
  refine ⟨σ, s', hr, he, ?_⟩
  exact (verify_area_covers _ 1024 4096 (by omega) (by omega) (by omega) σ hr 2 _ hrun 0 1 s' he).mpr (Or.inl (by omega)) 0
    ⟨by omega, 0, by omega, rfl⟩ hu.present

end Linux011.Mm
