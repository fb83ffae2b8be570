/-
  What one task's calls may do to the memory of the others: `Moves lo t s s'` leaves every
  directory slot outside the region of task `t` alone, every entry slot outside it `Fixed`, and
  the bytes below the managed frames. All functions of memory.c move only the region of the
  task they work for, except a `verify_area` that runs past the segment.
-/
import Linux011.Lib.Except
import Linux011.Mm.Tasks

namespace Linux011.Mm

open Linux011.Lib

variable {lo hi : Nat} {s s' s'' : Mem} {own : Finset Nat}

/-! ## Slots of a task -/

theorem slot_fst {t off : Nat} (h : off < 0x4000000) :
    (Sys.slot t off).1 = 16 * t + off / 0x400000 ∧ off / 0x400000 < 16 := by
  unfold Sys.slot
  rw [slotAt_add]
  simp only [slotAt, Nat.shiftRight_eq_div_pow]
  omega

theorem slot_task {t off : Nat} (h : off < 0x4000000) : (Sys.slot t off).1 / 16 = t := by
  have := slot_fst (t := t) h
  omega

theorem slot_mem {t off : Nat} (ht : 1 ≤ t) (ht' : t < 64) (h : off < 0x4000000) :
    Sys.slot t off ∈ userSlots := slotAt_mem (userAddr_task ht ht' h)

theorem slot_page {t off : Nat} : Sys.slot t (off / 4096 * 4096) = Sys.slot t off := by
  unfold Sys.slot
  rw [slotAt_add, slotAt_add]
  refine Prod.ext ?_ ?_ <;> simp only [slotAt, Nat.shiftRight_eq_div_pow] <;> omega

theorem slot_inj {t off off' : Nat} (h : off < 0x4000000) (h' : off' < 0x4000000)
    (he : Sys.slot t off = Sys.slot t off') : off / 4096 = off' / 4096 := by
  unfold Sys.slot at he
  rw [slotAt_add, slotAt_add] at he
  have h1 := congrArg Prod.fst he
  have h2 := congrArg Prod.snd he
  simp only [slotAt, Nat.shiftRight_eq_div_pow] at h1 h2
  omega

/-! ## Moves -/

structure Moves (lo t : Nat) (s s' : Mem) : Prop where
  dir : ∀ d, d / 16 ≠ t → s'.dir d = s.dir d
  rest : ∀ z ∈ userSlots, z.1 / 16 ≠ t → Fixed s s' z
  low : ∀ g < lo, (s'.mem g).byte = (s.mem g).byte

namespace Moves

theorem refl (lo t : Nat) (s : Mem) : Moves lo t s s :=
  ⟨fun _ _ => rfl, fun _ _ _ => Fixed.refl, fun _ _ => rfl⟩

theorem trans {t : Nat} (h : Moves lo t s s') (h' : Moves lo t s' s'') : Moves lo t s s'' :=
  ⟨fun d hd => (h'.dir d hd).trans (h.dir d hd), fun z hz ht => (h.rest z hz ht).trans (h'.rest z hz ht),
    fun g hg => (h'.low g hg).trans (h.low g hg)⟩

end Moves

theorem Quiet.moves (h : Quiet lo hi s own s') (t : Nat) : Moves lo t s s' :=
  ⟨fun d _ => by rw [h.dir], fun z hz _ => h.fixed z hz, fun g hg => h.kept g (Or.inl hg)⟩

theorem Fresh.quiet {f : Nat} (h : Fresh lo hi s own f s') :
    s'.dir = s.dir ∧ (∀ z ∈ userSlots, Fixed s s' z) ∧
      ∀ g, g < lo ∨ g ∈ own → (s'.mem g).byte = (s.mem g).byte := by
  refine ⟨h.dir, fun z hz => h.fixed hz, fun g hk => ?_⟩
  rw [h.other g]
  rintro rfl
  rcases hk with hk | hk
  · have := h.range.1; omega
  · exact h.notOwn hk

theorem Fresh.moves {f : Nat} (h : Fresh lo hi s own f s') (t : Nat) : Moves lo t s s' :=
  ⟨fun d _ => by rw [h.dir], fun z hz _ => h.fixed hz, fun g hg => h.quiet.2.2 g (Or.inl hg)⟩

theorem Put.moves {f : Nat} {x : Nat × Nat} (h : Put lo hi s own f x s') :
    Moves lo (x.1 / 16) s s' := by
  refine ⟨fun d hd => h.dir d ?_, fun z hz ht => h.rest z hz ?_, fun g hg => h.kept g (Or.inl hg)⟩
  · rintro rfl; exact hd rfl
  · rintro rfl; exact ht rfl

theorem Unprotected.moves {x : Nat × Nat} (h : Unprotected lo hi s own x s') :
    Moves lo (x.1 / 16) s s' := by
  refine ⟨fun d _ => by rw [h.dir], fun z hz ht => h.rest z hz ?_, fun g hg => h.kept g (Or.inl hg)⟩
  rintro rfl; exact ht rfl

theorem Took.moves {x y : Nat × Nat} (h : Took lo hi s own x y s') :
    Moves lo (y.1 / 16) s s' := by
  refine ⟨fun d hd => h.dir d ?_, fun z hz ht => h.rest z hz ?_, fun g hg => h.kept g (Or.inl hg)⟩
  · rintro rfl; exact hd rfl
  · rintro rfl; exact ht rfl

theorem Freed.moves {t n : Nat} (h : Freed lo hi s own (16 * t) n s') (hn : n ≤ 16) :
    Moves lo t s s' := by
  refine ⟨fun d hd => h.dir d ?_, fun z hz ht => h.fixed hz ?_, fun g _ => h.byte g⟩
  · intro k hk; omega
  · intro k hk; omega

theorem Copied.moves {fd c nr n : Nat} {ok : Bool} (h : Copied lo hi s own fd (16 * c) nr n ok s')
    (hn : n ≤ 16) : Moves lo c s s' := by
  refine ⟨fun d hd => h.dir d ?_, fun z hz ht => h.rest z hz ?_, h.low⟩
  · intro k hk; omega
  · intro k hk; omega

/-- Both releases of `do_exit` and `do_execve`: the code limit, then the data limit. -/
theorem freeTask_spec (h : MemInv lo hi s own) {t code limit : Nat} (ht : 1 ≤ t) (ht' : t < 64)
    (hcode : code ≤ limit) (hlimit : limit ≤ 0x4000000) :
    ∃ s', ((freePageTables s (base t) code).bind fun s => freePageTables s (base t) limit) = .ok s' ∧
      MemInv lo hi s' own ∧ Moves lo t s s' ∧ (∀ f, (s'.mem f).byte = (s.mem f).byte) ∧
      (∀ k < slots limit, (s'.dir (16 * t + k)).present = false) ∧
      ∀ k, slots limit ≤ k → s'.dir (16 * t + k) = s.dir (16 * t + k) := by
  obtain ⟨s1, e1, f1⟩ := freePageTables_spec h ht ht' (hcode.trans hlimit)
  obtain ⟨s2, e2, f2⟩ := freePageTables_spec f1.inv ht ht' hlimit
  have hn1 := slots_le (hcode.trans hlimit)
  have hn2 := slots_le hlimit
  have hmono := slots_mono hcode hlimit
  refine ⟨s2, (bind_of_ok e1 _).trans e2, f2.inv, (f1.moves hn1).trans (f2.moves hn2),
    fun f => (f2.byte f).trans (f1.byte f), f2.gone, ?_⟩
  intro k hk
  rw [f2.dir _ (fun k' hk' => by omega), f1.dir _ (fun k' hk' => by omega)]

end Linux011.Mm
