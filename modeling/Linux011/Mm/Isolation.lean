/-
  Copy-on-write isolation: what a task loads changes only through its own stores.
-/
import Linux011.Mm.Runs

namespace Linux011.Mm

open Linux011.Lib Sys

variable {F : Nat → Exe} {lo hi : Nat} {σ σ' : Sys}

/-- The offsets of the segment of task `u`. -/
def Sees (u off : Nat) : Prop := off < if u = 0 then 0xA0000 else 0x4000000

theorem Sees.lt {u off : Nat} (h : Sees u off) : off < 0x4000000 := by
  unfold Sees at h
  split_ifs at h <;> omega

theorem Sees.zero {off : Nat} (h : Sees 0 off) : off < 0xA0000 := by
  unfold Sees at h
  rwa [if_pos rfl] at h

/-- The pages of task 0 are the first 160 frames. -/
theorem MemInv.pte_zero {s : Mem} {own : Finset Nat} (h : MemInv lo hi s own) {off : Nat}
    (hoff : Sees 0 off) :
    (s.pte (slot 0 off)).present = true ∧ (s.pte (slot 0 off)).frame = off / 4096 := by
  have h0 := hoff.zero
  have hd := h.ident 0 (by omega)
  have hid := h.identEntry 0 (by omega) (off / 4096) (by omega)
  rw [slot_zero h0, s.pte_of_present (by rw [hd]; rfl), hd]
  exact ⟨hid.1, hid.2.2.trans (by omega)⟩

/-- A task that keeps its pages and their bytes loads what it loaded before. -/
theorem load_eq {u off : Nat} (h : MemInv lo hi σ.mm σ.own) (h' : MemInv lo hi σ'.mm σ'.own)
    (hu : u < 64) (hoff : Sees u off) (hsame : 1 ≤ u → Same σ.mm σ'.mm (slot u off))
    (hlow : ∀ g < lo, (σ'.mm.mem g).byte = (σ.mm.mem g).byte) : σ'.load u off = σ.load u off := by
  unfold Sys.load
  dsimp only
  by_cases hu0 : u = 0
  · subst hu0
    have e := h.pte_zero hoff
    have e' := h'.pte_zero hoff
    have h0 := hoff.zero
    have hb := h.bounds
    rw [if_pos e.1, if_pos e'.1, e.2, e'.2, hlow _ (by omega)]
  · obtain ⟨hp, hb⟩ := hsame (by omega)
    rw [hp]
    split_ifs with hpx
    · rw [hb hpx]
    · rfl

theorem Moves.load_eq {t u off : Nat} (hm : Moves lo t σ.mm σ'.mm) (h : MemInv lo hi σ.mm σ.own)
    (h' : MemInv lo hi σ'.mm σ'.own) (hu : u < 64) (hut : u ≠ t) (hoff : Sees u off) :
    σ'.load u off = σ.load u off :=
  Mm.load_eq h h' hu hoff (fun hu1 => (hm.rest _ (slot_mem hu1 hu hoff.lt)
    (by rw [slot_task hoff.lt]; exact hut)).same) hm.low

/-- A user store, with the write fault it may take, moves only the region of its task. -/
theorem Stored.moves {t off v : Nat} {τ : Task} (h : SysInv F lo hi σ)
    (hs : Stored F lo hi σ t off v σ') (hrun : σ.Running t τ) (hoff : off < τ.limit)
    (hp : (σ.mm.pte (slot t off)).present = true) : Moves lo t σ.mm σ'.mm := by
  have ho := h.task t τ hrun.2.1
  have hlt : off < 0x4000000 := lt_of_lt_of_le hoff ho.limit
  have hx := slot_mem hrun.1 ho.lt hlt
  have hsl : (slot t off).1 / 16 = t := slot_task hlt
  cases hs with
  | direct hrw hpk =>
    have := hpk.moves h.mem hx hp hrw
    rwa [hsl] at this
  | copied _ hu hpk =>
    have h1 := hu.moves
    have h2 := hpk.moves hu.inv hx hu.present hu.rw
    rw [hsl] at h1 h2
    exact h1.trans h2
  | oom hex => exact hex.moves

theorem Wp.moves {t off : Nat} (hs : Wp F lo hi σ t off σ') (hlt : off < 0x4000000) :
    Moves lo t σ.mm σ'.mm := by
  have hsl : (slot t off).1 / 16 = t := slot_task hlt
  cases hs with
  | done hu =>
    have := hu.moves
    rwa [hsl] at this
  | oom hex => exact hex.moves

/-- After a successful `fork` parent and child load the same bytes. -/
theorem Forked.load_eq {p c off : Nat} {τ : Task} (h : MemInv lo hi σ.mm σ.own)
    (h' : MemInv lo hi σ'.mm σ'.own) (hf : Forked F lo hi σ p c τ σ') (ho : TaskOk F σ.mm σ.own p τ)
    (hoff : off < τ.limit) : σ'.load c off = σ'.load p off := by
  obtain ⟨hp64, hc1, hc64, hpc⟩ := hf.range
  have hlt : off < 0x4000000 := lt_of_lt_of_le hoff ho.limit
  have ht := hf.twin off hoff
  -- the parent still has the entry it had, up to R/W
  have hpar : (σ'.mm.pte (slot p off)).present = (σ.mm.pte (slot p off)).present ∧
      (σ'.mm.pte (slot p off)).frame = (σ.mm.pte (slot p off)).frame := by
    by_cases hp0 : p = 0
    · subst hp0
      have hs : Sees 0 off := by
        have := ho.zero rfl
        unfold Sees
        rw [if_pos rfl]
        omega
      rw [(h.pte_zero hs).1, (h.pte_zero hs).2, (h'.pte_zero hs).1, (h'.pte_zero hs).2]
      exact ⟨rfl, rfl⟩
    · have hfix := hf.moves.rest _ (slot_mem (by omega) hp64 hlt) (by rw [slot_task hlt]; exact hpc)
      exact ⟨hfix.present, hfix.frame⟩
  unfold Sys.load
  dsimp only
  rw [ht.1, hpar.1]
  split_ifs with hpx
  · have hfr := congrArg Entry.frame (ht.2 hpx)
    simp only [Entry.clearRw_frame] at hfr
    rw [hfr, hpar.2]
  · rfl

end Linux011.Mm
