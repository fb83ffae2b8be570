/-
  Specifications of the functions of memory.c that walk or change page tables, one lemma for
  each loop iteration, loop and function. All of them keep `MemInv` and, where the invariant
  holds, none of them reaches one of the panics of `free_page`.
-/
import Linux011.Mm.Inv

namespace Linux011.Mm

variable {lo hi : Nat} {s s' : Mem} {own : Finset Nat}

/-! ## free_page_tables -/

/-- One iteration of the inner loop of `free_page_tables`. -/
theorem freeEntry_spec (h : MemInv lo hi s own) {x : Nat × Nat} (hx : x ∈ userSlots)
    (hp : (s.dir x.1).present) :
    ∃ s', freeEntry s (s.dir x.1).frame x.2 = .ok s' ∧ MemInv lo hi s' own ∧ s'.dir = s.dir ∧
      ∀ f, s'.mem f = (s.setEntry (s.dir x.1).frame x.2 Entry.zero).mem f := by
  have hxd := (mem_userSlots.mp hx).1
  have hne := h.dir_ne_zero hxd hp
  have hb := h.bounds
  have hzero : ¬ Entry.zero.present = true := by decide
  unfold freeEntry
  rw [← s.pte_of_present hp]
  dsimp only
  by_cases hpx : (s.pte x).present
  · rw [if_pos hpx]
    rcases h.pte_range hx hpx with hr | hr
    · -- a managed frame: its count drops with the entry
      unfold Entry.addr
      rw [freePage_ok h hr.1 hr.2 (h.pte_pos hx hpx hr.1 hr.2)]
      refine ⟨_, rfl, ?_, Mem.setEntry_dir_of_ne _ hne _ _, fun f => rfl⟩
      refine h.setSlot (e := Entry.zero) hx hp (Mem.setEntry_dir_of_ne _ hne _ _) (fun f => rfl)
        rfl (h.refs.unmap hx hpx hr.1 hr.2) rfl rfl rfl ?_
      intro f hf _
      rw [Mem.setEntry_memMap, Mem.setMap_memMap, View.setPte_cnt, View.setCnt_cnt]
      have he : f - 256 = (s.pte x).frame - 256 ↔ f = (s.pte x).frame := by omega
      simp only [he]
      rfl
    · -- a frame of the low megabyte: `free_page` ignores it
      unfold Entry.addr
      rw [freePage_low hr.1]
      refine ⟨_, rfl, ?_, Mem.setEntry_dir_of_ne _ hne _ _, fun f => rfl⟩
      exact h.setSlot (e := Entry.zero) hx hp (Mem.setEntry_dir_of_ne _ hne _ _) (fun _ => rfl)
        rfl (h.refs.replaceLow hb.1 hx (fun _ => hr.1) (fun hz => absurd hz hzero)
          (fun hz => absurd hz hzero)) rfl rfl rfl (fun f _ _ => rfl)
  · rw [if_neg hpx]
    refine ⟨_, rfl, ?_, Mem.setEntry_dir_of_ne _ hne _ _, fun f => rfl⟩
    exact h.setSlot (e := Entry.zero) hx hp (Mem.setEntry_dir_of_ne _ hne _ _) (fun _ => rfl)
        rfl (h.refs.replaceLow hb.1 hx (fun hp' => absurd hp' hpx) (fun hz => absurd hz hzero)
          (fun hz => absurd hz hzero)) rfl rfl rfl (fun f _ _ => rfl)

/-- The inner loop of `free_page_tables` clears the first `n` entries of a table. -/
theorem freeEntries_spec (h : MemInv lo hi s own) {d : Nat} (hd : UserDir d)
    (hp : (s.dir d).present) : ∀ n ≤ 1024, ∃ s', freeEntries s (s.dir d).frame n = .ok s' ∧
      MemInv lo hi s' own ∧ s'.dir = s.dir ∧ (∀ f, (s'.mem f).byte = (s.mem f).byte) ∧
      ∀ y, UserDir y.1 → s'.pte y = if y.1 = d ∧ y.2 < n then Entry.zero else s.pte y
  | 0, _ => ⟨s, rfl, h, rfl, fun _ => rfl, fun y _ => by simp⟩
  | n + 1, hn => by
    obtain ⟨s1, e1, i1, d1, b1, p1⟩ := freeEntries_spec h hd hp n (by omega)
    have hx : (d, n) ∈ userSlots := mem_userSlots.mpr ⟨hd, by omega⟩
    have hp1 : (s1.dir d).present := by rw [d1]; exact hp
    obtain ⟨s2, e2, i2, d2, m2⟩ := freeEntry_spec i1 hx hp1
    refine ⟨s2, ?_, i2, d2.trans d1, ?_, ?_⟩
    · rw [freeEntries, e1]
      rw [d1] at e2
      exact e2
    · intro f
      rw [m2, Mem.setEntry_byte]
      exact b1 f
    · intro y hy
      rw [Mem.pte_of_mem m2, i1.dirs.pte_setEntry (x := (d, n)) hd hp1 hy, p1 y hy]
      by_cases hyn : y = (d, n)
      · rw [if_pos hyn, hyn]; simp
      · rw [if_neg hyn]
        have hiff : (y.1 = d ∧ y.2 < n + 1) ↔ (y.1 = d ∧ y.2 < n) := by
          constructor
          · rintro ⟨h1, h2⟩
            have : y.2 ≠ n := fun he => hyn (Prod.ext h1 he)
            exact ⟨h1, by omega⟩
          · rintro ⟨h1, h2⟩; exact ⟨h1, by omega⟩
        simp only [hiff]

/-- One directory slot of `free_page_tables`: its table is gone. -/
theorem freeDir_spec (h : MemInv lo hi s own) {d : Nat} (hd : UserDir d) :
    ∃ s', freeDir s d = .ok s' ∧ MemInv lo hi s' own ∧
      (∀ f, (s'.mem f).byte = (s.mem f).byte) ∧ (s'.dir d).present = false ∧
      (∀ d', d' ≠ d → s'.dir d' = s.dir d') ∧
      ∀ y ∈ userSlots, y.1 ≠ d → s'.pte y = s.pte y := by
  unfold freeDir
  cases hp : (s.dir d).present with
  | false => exact ⟨s, rfl, h, fun _ => rfl, hp, fun _ _ => rfl, fun _ _ _ => rfl⟩
  | true =>
    obtain ⟨s1, e1, i1, d1, b1, p1⟩ := freeEntries_spec h hd hp 1024 (Nat.le_refl _)
    have hp1 : (s1.dir d).present := by rw [d1]; exact hp
    obtain ⟨h1, h2⟩ := i1.dir_range hd hp1
    have hempty : ∀ i < 1024, (s1.pte (d, i)).present = false := by
      intro i hi'
      rw [p1 (d, i) hd, if_pos ⟨rfl, hi'⟩]
      rfl
    have hb := h.bounds
    have hdir : ∀ d', ((s1.setMap ((s1.dir d).frame - 256)
        (s1.memMap ((s1.dir d).frame - 256) - 1)).setDir d Entry.zero).dir d' =
        if d' = d then Entry.zero else s1.dir d' := fun d' => Mem.setDir_dir _ _ _ _
    have hpte : ∀ y ∈ userSlots, ((s1.setMap ((s1.dir d).frame - 256)
        (s1.memMap ((s1.dir d).frame - 256) - 1)).setDir d Entry.zero).pte y = s1.pte y := by
      intro y hy
      have hyd := mem_userSlots.mp hy
      unfold Mem.pte
      rw [hdir]
      by_cases he : y.1 = d
      · have hz := p1 y hyd.1
        rw [if_pos ⟨he, hyd.2⟩, s1.pte_of_present (by rw [he]; exact hp1)] at hz
        rw [if_pos he, if_neg (by decide), if_pos (by rw [he]; exact hp1), hz]
      · rw [if_neg he]
        split_ifs with hpy
        · rw [Mem.setDir_mem_of_ne _ (i1.dir_ne_zero hyd.1 hpy)]; rfl
        · rfl
    refine ⟨(s1.setMap ((s1.dir d).frame - 256)
        (s1.memMap ((s1.dir d).frame - 256) - 1)).setDir d Entry.zero, ?_, ?_, ?_, ?_, ?_, ?_⟩
    · rw [e1]
      dsimp only [bind, Except.bind, Bool.not_true]
      unfold Entry.addr
      rw [freePage_ok i1 h1 h2 (i1.dir_pos hd hp1)]
      rfl
    · refine i1.step (i1.refs.uninstall hd hp1 hempty) ?_ ?_ hpte rfl rfl ?_ ?_
      · intro f hf _
        rw [Mem.setDir_memMap, Mem.setMap_memMap, View.setDir_cnt, View.setCnt_cnt]
        have he : f - 256 = (s1.dir d).frame - 256 ↔ f = (s1.dir d).frame := by omega
        simp only [he]
        rfl
      · intro d' _
        rw [hdir, View.setDir_dir]
        rfl
      · intro d' hd4
        rw [hdir, if_neg]
        rintro rfl
        have := hd.1
        omega
      · intro d' _ i
        rw [Mem.setDir_mem_of_ne _ (by omega)]
        rfl
    · intro f
      rw [Mem.setDir_byte]
      exact b1 f
    · rw [hdir, if_pos rfl]; rfl
    · intro d' hne
      rw [hdir, if_neg hne, d1]
    · intro y hy hne
      rw [hpte y hy, p1 y (mem_userSlots.mp hy).1, if_neg (fun hh => hne hh.1)]

/-- The effect of `free_page_tables` on `n` directory slots from `d` on. -/
structure Freed (lo hi : Nat) (s : Mem) (own : Finset Nat) (d n : Nat) (s' : Mem) : Prop where
  inv : MemInv lo hi s' own
  byte : ∀ f, (s'.mem f).byte = (s.mem f).byte
  gone : ∀ k < n, (s'.dir (d + k)).present = false
  dir : ∀ d', (∀ k < n, d' ≠ d + k) → s'.dir d' = s.dir d'
  pte : ∀ y ∈ userSlots, (∀ k < n, y.1 ≠ d + k) → s'.pte y = s.pte y

theorem Freed.fixed {d n : Nat} (h : Freed lo hi s own d n s') {y : Nat × Nat}
    (hy : y ∈ userSlots) (hne : ∀ k < n, y.1 ≠ d + k) : Fixed s s' y :=
  Fixed.of_pte (h.pte y hy hne) fun f _ _ => h.byte f

theorem freeDirs_spec (h : MemInv lo hi s own) {d : Nat} (hd : 4 ≤ d) :
    ∀ n, d + n ≤ 1024 → ∃ s', freeDirs s d n = .ok s' ∧ Freed lo hi s own d n s'
  | 0, _ => ⟨s, rfl, h, fun _ => rfl, fun _ hk => absurd hk (Nat.not_lt_zero _), fun _ _ => rfl,
      fun _ _ _ => rfl⟩
  | n + 1, hn => by
    obtain ⟨s1, e1, f1⟩ := freeDirs_spec h hd n (by omega)
    obtain ⟨s2, e2, i2, b2, g2, d2, p2⟩ := freeDir_spec f1.inv (d := d + n) ⟨by omega, by omega⟩
    refine ⟨s2, ?_, i2, fun f => (b2 f).trans (f1.byte f), ?_, ?_, ?_⟩
    · rw [freeDirs, e1]; exact e2
    · intro k hk
      by_cases hkn : k = n
      · rw [hkn]; exact g2
      · rw [d2 _ (by omega)]; exact f1.gone k (by omega)
    · intro d' hd'
      rw [d2 d' (hd' n (Nat.lt_succ_self n)), f1.dir d' (fun k hk => hd' k (by omega))]
    · intro y hy hne
      rw [p2 y hy (hne n (Nat.lt_succ_self n)), f1.pte y hy (fun k hk => hne k (by omega))]

theorem slots_eq {size : Nat} (h : size ≤ 0x4000000) :
    slots size = (size + 0x3fffff) / 0x400000 := by
  unfold slots
  rw [Nat.shiftRight_eq_div_pow, Nat.mod_eq_of_lt (by omega)]

theorem slots_le {size : Nat} (h : size ≤ 0x4000000) : slots size ≤ 16 := by
  rw [slots_eq h]
  omega

theorem slots_mono {size size' : Nat} (h : size ≤ size') (h' : size' ≤ 0x4000000) :
    slots size ≤ slots size' := by
  rw [slots_eq h', slots_eq (h.trans h')]
  exact Nat.div_le_div_right (by omega)

theorem base_shift (t : Nat) : base t >>> 22 = 16 * t := by
  rw [base, Nat.shiftRight_eq_div_pow]
  omega

theorem base_align (t : Nat) : base t % 0x400000 = 0 := by
  unfold base
  omega

theorem base_eq_zero {t : Nat} : base t = 0 ↔ t = 0 := by
  unfold base
  omega

/-- `free_page_tables` for task `t` never panics and releases the slots of its region. -/
theorem freePageTables_spec (h : MemInv lo hi s own) {t size : Nat} (ht : 1 ≤ t) (ht' : t < 64)
    (hs : size ≤ 0x4000000) :
    ∃ s', freePageTables s (base t) size = .ok s' ∧
      Freed lo hi s own (16 * t) (slots size) s' := by
  have hslots := slots_le hs
  unfold freePageTables
  rw [if_neg (by rw [base_align]; decide), if_neg (by rw [base_eq_zero]; omega), base_shift]
  exact freeDirs_spec h (by omega) _ (by omega)

/-! ## copy_page_tables -/

/-- The comparison of `copy_page_tables` with `LOW_MEM`, flag bits included, tells managed
    frames from the low megabyte. -/
theorem Entry.lowMem_lt_word {e : Entry} (h : e.present = true) :
    lowMem < e.word ↔ 256 ≤ e.frame := by
  have hb : ∀ b : Bool, b.toNat ≤ 1 := fun b => by cases b <;> decide
  have h1 := hb e.rw
  have h2 := hb e.user
  have h3 := hb e.dirty
  have h4 : e.present.toNat = 1 := by rw [h]; rfl
  unfold Entry.word Entry.addr lowMem
  omega

/-- Slot `y` of `s'` is a copy of slot `x` of `s`, up to R/W. -/
def Twin (s s' : Mem) (x y : Nat × Nat) : Prop :=
  (s'.pte y).present = (s.pte x).present ∧
    ((s.pte x).present → (s'.pte y).clearRw = (s.pte x).clearRw)

/-- Slot `(td, i)` can take a copy of slot `(fd, i)`: both belong to the same offset of two
    tasks, or the source is one of the first 160 pages of the kernel. -/
def CopyPair (fd td i : Nat) : Prop :=
  UserDir td ∧ i < 1024 ∧ fd ≠ td ∧
    ((UserDir fd ∧ fd % 16 = td % 16) ∨ (fd = 0 ∧ i < 160))

/-- What write-protecting slot `x` and copying it to the empty slot `y` does. -/
structure Shared (lo hi : Nat) (s : Mem) (own : Finset Nat) (x y : Nat × Nat) (s' : Mem) :
    Prop where
  inv : MemInv lo hi s' own
  dir : s'.dir = s.dir
  byte : ∀ f, (s'.mem f).byte = (s.mem f).byte
  kern : ∀ d < 4, ∀ j, (s'.mem (d + 1)).entry j = (s.mem (d + 1)).entry j
  pte : ∀ z ∈ userSlots, s'.pte z = if z = x ∨ z = y then (s.pte x).clearRw else s.pte z

/-- The common tail of `copy_page_tables` and `try_to_share`, in either order of the stores. -/
theorem MemInv.share (h : MemInv lo hi s own) (s' : Mem) {x y : Nat × Nat} (hx : x ∈ userSlots)
    (hy : y ∈ userSlots) (hpx : (s.pte x).present) (hr : lo ≤ (s.pte x).frame)
    (hr' : (s.pte x).frame < hi) (hpd : (s.dir y.1).present)
    (hpy : (s.pte y).present = false) (hoff : y.2 = x.2 ∧ y.1 % 16 = x.1 % 16)
    (hmem : ∀ f, s'.mem f = ((s.setEntry (s.dir x.1).frame x.2 (s.pte x).clearRw).setEntry
      (s.dir y.1).frame y.2 (s.pte x).clearRw).mem f)
    (hhigh : s'.highMemory = s.highMemory)
    (hmap : s'.memMap = (s.incMap (mapNr (s.pte x).addr)).memMap) :
    Shared lo hi s own x y s' := by
  have hb := h.bounds
  have hxd := (mem_userSlots.mp hx).1
  have hyd := (mem_userSlots.mp hy).1
  have hpdx := s.dir_present_of_pte hpx
  have hx0 := h.dir_ne_zero hxd hpdx
  have hxr := h.dir_range hxd hpdx
  have hy0 := h.dir_ne_zero hyd hpd
  have hyr := h.dir_range hyd hpd
  have hne : y ≠ x := by rintro rfl; rw [hpx] at hpy; cases hpy
  -- first the source alone
  set s1 := s.setEntry (s.dir x.1).frame x.2 (s.pte x).clearRw with hs1
  have hd1 : s1.dir = s.dir := s.setEntry_dir_of_ne hx0 _ _
  have hp1 : ∀ z ∈ userSlots, s1.pte z = if z = x then (s.pte x).clearRw else s.pte z :=
    fun z hz => h.dirs.pte_setEntry hxd hpdx (mem_userSlots.mp hz).1 _
  have i1 : MemInv lo hi s1 own := by
    refine h.setSlot hx hpdx hd1 (fun _ => rfl) rfl 
      (h.refs.retag (e := (s.pte x).clearRw) hb.1 hx hpx hpx rfl ?_) rfl rfl rfl
      (fun _ _ _ => rfl)
    intro hw; cases hw
  have hx1 : s1.pte x = (s.pte x).clearRw := by rw [hp1 x hx, if_pos rfl]
  have hy1 : (s1.pte y).present = false := by rw [hp1 y hy, if_neg hne]; exact hpy
  have hpd1 : (s1.dir y.1).present := by rw [hd1]; exact hpd
  -- then the copy, with the count
  have hmem1 : ∀ f, s'.mem f =
      (s1.setEntry (s1.dir y.1).frame y.2 (s.pte x).clearRw).mem f := by
    intro f; rw [hmem f, hd1]
  have hd2 : s'.dir = s1.dir := by
    funext d
    unfold Mem.dir
    rw [hmem1 0, Mem.setEntry_entry, if_neg]
    rintro ⟨h0, _⟩
    exact hy0 (by rw [← hd1]; exact h0.symm)
  have hcnt : (s.memMap ((s.pte x).frame - 256) + 1) % 256 =
      s.memMap ((s.pte x).frame - 256) + 1 := by
    have := h.cnt_le hr hr'
    omega
  have i2 : MemInv lo hi s' own := by
    refine i1.setSlot hy hpd1 hd2 hmem1 hhigh (i1.refs.share (x := x) (e := (s.pte x).clearRw) hx
      hy ?_ ?_ ?_ ?_ hpd1 hy1 hoff ?_ hpx rfl) rfl rfl rfl ?_
    · rw [viewOf_pte, hx1]; exact hpx
    · rw [viewOf_pte, hx1]; rfl
    · rw [viewOf_pte, hx1]; exact hr
    · rw [viewOf_pte, hx1]; exact hr'
    · rw [viewOf_pte, hx1]
    · intro f hf _
      rw [View.setPte_cnt, View.setCnt_cnt, viewOf_pte, hx1, hmap, Mem.incMap, Mem.setMap_memMap, Entry.addr, mapNr_addr, hcnt]
      have he : f - 256 = (s.pte x).frame - 256 ↔ f = (s.pte x).frame := by omega
      simp only [he]
      rfl
  refine ⟨i2, hd2.trans hd1, ?_, ?_, ?_⟩
  · intro f
    rw [hmem f, Mem.setEntry_byte, Mem.setEntry_byte]
  · intro d hd j
    rw [hmem, Mem.setEntry_entry, if_neg (by omega), Mem.setEntry_entry, if_neg (by omega)]
  · intro z hz
    rw [Mem.pte_of_mem hmem1, i1.dirs.pte_setEntry hyd hpd1 (mem_userSlots.mp hz).1, hp1 z hz]
    by_cases hzy : z = y
    · simp [hzy]
    · by_cases hzx : z = x
      · simp [hzx]
      · simp [hzy, hzx]

/-- One iteration of the inner loop of `copy_page_tables`. -/
theorem copyEntry_spec (h : MemInv lo hi s own) {fd td i : Nat} (hc : CopyPair fd td i)
    (hpf : (s.dir fd).present) (hpt : (s.dir td).present)
    (hy : (s.pte (td, i)).present = false) :
    ∃ s', copyEntry s (s.dir fd).frame (s.dir td).frame i = s' ∧ MemInv lo hi s' own ∧
      s'.dir = s.dir ∧ (∀ f, (s'.mem f).byte = (s.mem f).byte) ∧
      (∀ d < 4, ∀ j, (s'.mem (d + 1)).entry j = (s.mem (d + 1)).entry j) ∧
      Twin s s' (fd, i) (td, i) ∧
      ∀ z ∈ userSlots, z ≠ (td, i) → (s'.pte z).clearRw = (s.pte z).clearRw := by
  obtain ⟨htd, hi', hne, hsrc⟩ := hc
  have hyu : (td, i) ∈ userSlots := mem_userSlots.mpr ⟨htd, hi'⟩
  have hb := h.bounds
  have ht0 := h.dir_ne_zero htd hpt
  have htr := h.dir_range htd hpt
  set x := (fd, i) with hx
  unfold copyEntry
  rw [← s.pte_of_present (x := x) hpf]
  dsimp only
  cases hpx : (s.pte x).present with
  | false =>
    refine ⟨s, rfl, h, rfl, fun _ => rfl, fun _ _ _ => rfl, ⟨?_, ?_⟩, fun _ _ _ => rfl⟩
    · rw [hy, hpx]
    · rw [hpx]; intro hz; cases hz
  | true =>
    simp only [Bool.not_true, Bool.false_eq_true, if_false]
    simp only [Entry.lowMem_lt_word (e := (s.pte x).clearRw) hpx, Entry.clearRw_frame]
    -- the store into the new table is the same in both branches
    have hread : ∀ z ∈ userSlots, ((s.setEntry (s.dir td).frame i (s.pte x).clearRw).pte z) =
        if z = (td, i) then (s.pte x).clearRw else s.pte z := fun z hz =>
      h.dirs.pte_setEntry (x := (td, i)) htd hpt (mem_userSlots.mp hz).1 _
    by_cases hf : 256 ≤ (s.pte x).frame
    · -- a managed frame: the source is write-protected too, and the count grows
      rw [if_pos hf]
      have hfd : UserDir fd ∧ fd % 16 = td % 16 := by
        rcases hsrc with hs | ⟨rfl, hs⟩
        · exact hs
        · have hid := h.identEntry 0 (by omega) i hi'
          rw [s.pte_of_present hpf, h.ident 0 (by omega)] at hf
          have : ((s.mem (0 + 1)).entry i).frame ≥ 256 := hf
          omega
      have hxu : x ∈ userSlots := mem_userSlots.mpr ⟨hfd.1, hi'⟩
      have htabs : (s.dir fd).frame ≠ (s.dir td).frame := fun he =>
        hne (h.dirs.2 fd td hfd.1 htd hpf hpt he)
      have hr := (h.pte_range hxu hpx).resolve_right (fun hr => by omega)
      have hsh := h.share (((s.setEntry (s.dir td).frame i (s.pte x).clearRw).setEntry
        (s.dir fd).frame i (s.pte x).clearRw).incMap (mapNr (s.pte x).clearRw.addr)) hxu hyu hpx hr.1
        hr.2 hpt hy ⟨rfl, hfd.2.symm⟩
        (fun f => by rw [Mem.incMap_mem, Mem.setEntry_comm _ htabs.symm]) rfl rfl
      refine ⟨_, rfl, hsh.inv, hsh.dir, hsh.byte, hsh.kern, ⟨?_, ?_⟩, ?_⟩
      · rw [hsh.pte _ hyu, if_pos (Or.inr rfl)]; rfl
      · intro _; rw [hsh.pte _ hyu, if_pos (Or.inr rfl)]; rfl
      · intro z hz hzy
        rw [hsh.pte z hz]
        split_ifs with hzx
        · rw [hzx.resolve_right hzy]; rfl
        · rfl
    · rw [if_neg hf]
      refine ⟨_, rfl, ?_, Mem.setEntry_dir_of_ne _ ht0 _ _, fun f => Mem.setEntry_byte _ _ _ _ _,
        ?_, ⟨?_, ?_⟩, ?_⟩
      · refine h.setSlot hyu hpt (Mem.setEntry_dir_of_ne _ ht0 _ _) (fun _ => rfl) rfl
          (h.refs.replaceLow hb.1 hyu ?_ (fun _ => hpt) (fun _ => ⟨by simpa using hf, rfl⟩))
          rfl rfl rfl (fun _ _ _ => rfl)
        intro hp
        rw [viewOf_pte, hy] at hp
        cases hp
      · intro d hd j
        rw [Mem.setEntry_entry, if_neg (by omega)]
      · rw [hread _ hyu, if_pos rfl]; rfl
      · intro _; rw [hread _ hyu, if_pos rfl]; rfl
      · intro z hz hzy; rw [hread z hz, if_neg hzy]

/-- The inner loop of `copy_page_tables`, into an empty table. -/
theorem copyEntries_spec (h : MemInv lo hi s own) {fd td : Nat}
    (hpf : (s.dir fd).present) (hpt : (s.dir td).present)
    (hempty : ∀ i < 1024, (s.pte (td, i)).present = false) :
    ∀ n, (∀ i < n, CopyPair fd td i) →
      ∃ s', copyEntries s (s.dir fd).frame (s.dir td).frame n = s' ∧ MemInv lo hi s' own ∧
        s'.dir = s.dir ∧ (∀ f, (s'.mem f).byte = (s.mem f).byte) ∧
        (∀ d < 4, ∀ j, (s'.mem (d + 1)).entry j = (s.mem (d + 1)).entry j) ∧
        (∀ i < n, Twin s s' (fd, i) (td, i)) ∧
        ∀ z ∈ userSlots, (z.1 = td → n ≤ z.2) → (s'.pte z).clearRw = (s.pte z).clearRw
  | 0, _ => ⟨s, rfl, h, rfl, fun _ => rfl, fun _ _ _ => rfl,
      fun _ hi' => absurd hi' (Nat.not_lt_zero _), fun _ _ _ => rfl⟩
  | n + 1, hc => by
    obtain ⟨s1, e1, i1, d1, b1, k1, t1, r1⟩ :=
      copyEntries_spec h hpf hpt hempty n (fun i hi' => hc i (by omega))
    have hcn := hc n (Nat.lt_succ_self n)
    obtain ⟨htd, hn, hne, hsrc⟩ := hcn
    have hyu : (td, n) ∈ userSlots := mem_userSlots.mpr ⟨htd, hn⟩
    -- the next source and target entries are still those of `s`
    have hy1 : (s1.pte (td, n)).present = false := by
      have := congrArg Entry.present (r1 (td, n) hyu (fun _ => Nat.le_refl n))
      simp only [Entry.clearRw_present] at this
      rw [this]
      exact hempty n hn
    have hx1 : (s1.pte (fd, n)).clearRw = (s.pte (fd, n)).clearRw := by
      rcases hsrc with hu | ⟨h0, _⟩
      · exact r1 (fd, n) (mem_userSlots.mpr ⟨hu.1, hn⟩) (fun he => absurd he hne)
      · subst h0
        rw [s1.pte_of_present (by rw [d1]; exact hpf), s.pte_of_present hpf, d1,
          h.ident 0 (by omega)]
        exact congrArg Entry.clearRw (k1 0 (by omega) n)
    obtain ⟨s2, e2, i2, d2, b2, k2, t2, r2⟩ := copyEntry_spec i1 (hc n (Nat.lt_succ_self n))
      (by rw [d1]; exact hpf) (by rw [d1]; exact hpt) hy1
    refine ⟨s2, ?_, i2, d2.trans d1, fun f => (b2 f).trans (b1 f),
      fun d hd j => (k2 d hd j).trans (k1 d hd j), ?_, ?_⟩
    · rw [copyEntries, e1]
      rw [d1] at e2
      exact e2
    · intro i hi'
      by_cases hin : i = n
      · subst hin
        have hp := congrArg Entry.present hx1
        simp only [Entry.clearRw_present] at hp
        exact ⟨t2.1.trans hp, fun hpx => (t2.2 (hp ▸ hpx)).trans hx1⟩
      · have hlt : i < n := by omega
        have hiu : (td, i) ∈ userSlots := mem_userSlots.mpr ⟨htd, by omega⟩
        have hr := r2 (td, i) hiu (fun he => hin (congrArg Prod.snd he))
        have hp := congrArg Entry.present hr
        simp only [Entry.clearRw_present] at hp
        exact ⟨hp.trans (t1 i hlt).1, fun hpx => hr.trans ((t1 i hlt).2 hpx)⟩
    · intro z hz hzn
      have hzne : z ≠ (td, n) := by
        rintro rfl
        have := hzn rfl
        omega
      rw [r2 z hz hzne]
      exact r1 z hz (fun he => by have := hzn he; omega)

/-- The effect of `copy_page_tables` on `n` directory slots; `ok` is false after the early
    `return -1`. -/
structure Copied (lo hi : Nat) (s : Mem) (own : Finset Nat) (fd td nr n : Nat) (ok : Bool)
    (s' : Mem) : Prop where
  inv : MemInv lo hi s' own
  dir : ∀ d', (∀ k < n, d' ≠ td + k) → s'.dir d' = s.dir d'
  kern : ∀ d < 4, ∀ j, (s'.mem (d + 1)).entry j = (s.mem (d + 1)).entry j
  low : ∀ f < lo, (s'.mem f).byte = (s.mem f).byte
  rest : ∀ z ∈ userSlots, (∀ k < n, z.1 ≠ td + k) → Fixed s s' z
  twin : ok = true → ∀ k < n, (∀ i < nr, Twin s s' (fd + k, i) (td + k, i)) ∧
    ∀ i < 1024, nr ≤ i → (s'.pte (td + k, i)).present = false

theorem Copied.refl (h : MemInv lo hi s own) (fd td nr : Nat) (ok : Bool) :
    Copied lo hi s own fd td nr 0 ok s :=
  ⟨h, fun _ _ => rfl, fun _ _ _ => rfl, fun _ _ => rfl, fun _ _ _ => Fixed.refl,
    fun _ _ hk => absurd hk (Nat.not_lt_zero _)⟩

/-- One directory slot of `copy_page_tables`. Its only panic is that the target exists. -/
theorem copyDir_spec (h : MemInv lo hi s own) {fd td nr : Nat} (htd : UserDir td)
    (hnr : nr ≤ 1024) (hc : ∀ i < nr, CopyPair fd td i) :
    copyDir s fd td nr = .error (.panic "copy_page_tables: already exist") ∨
      ∃ ok s', copyDir s fd td nr = .ok (ok, s') ∧ Copied lo hi s own fd td nr 1 ok s' := by
  unfold copyDir
  cases hpt : (s.dir td).present with
  | true => exact Or.inl rfl
  | false =>
    right
    have habs : ∀ i, (s.pte (td, i)).present = false := by
      intro i; rw [s.pte_of_absent hpt]; rfl
    rw [if_neg (by decide)]
    cases hpf : (s.dir fd).present with
    | false =>
      refine ⟨true, s, rfl, h, fun _ _ => rfl, fun _ _ _ => rfl, fun _ _ => rfl,
        fun _ _ _ => Fixed.refl, ?_⟩
      intro _ k hk
      obtain rfl : k = 0 := by omega
      refine ⟨fun i _ => ?_, fun i _ _ => habs i⟩
      have hx : (s.pte (fd, i)).present = false := by rw [s.pte_of_absent hpf]; rfl
      exact ⟨(habs i).trans hx.symm, fun hp => nomatch hx.symm.trans hp⟩
    | true =>
      rw [if_neg (by decide)]
      cases hg : getFreePage s with
      | none =>
        exact ⟨false, s, rfl, h, fun _ _ => rfl, fun _ _ _ => rfl, fun _ _ => rfl,
          fun _ _ _ => Fixed.refl, fun hz => nomatch hz⟩
      | some r =>
        obtain ⟨tt, s1⟩ := r
        have hf := getFreePage_spec h hg
        obtain ⟨i2, p2⟩ := hf.install htd hpt
        set s2 := s1.setDir td (Entry.seven tt) with hs2
        have hd2 : ∀ d', s2.dir d' = if d' = td then Entry.seven tt else s.dir d' := by
          intro d'; rw [hs2, Mem.setDir_dir, hf.dir]
        have hb := h.bounds
        have hr := hf.range
        have hbyte2 : ∀ f, f ≠ tt → (s2.mem f).byte = (s.mem f).byte := by
          intro f hne
          rw [hs2, Mem.setDir_byte, hf.other f hne]
        have hkern2 : ∀ d < 4, ∀ j, (s2.mem (d + 1)).entry j = (s.mem (d + 1)).entry j := by
          intro d hd j
          rw [hs2, Mem.setDir_mem_of_ne _ (by omega), hf.other _ (by omega)]
        have hfix2 : ∀ z ∈ userSlots, Fixed s s2 z := fun z hz =>
          Fixed.of_pte (p2 z hz) fun f hp he => hbyte2 f fun hft =>
            hf.notMapped z hz hp (he.trans hft)
        by_cases hfd : fd = td
        · exact absurd (hpf.symm.trans (hfd ▸ hpt)) (by decide)
        have hpf2 : (s2.dir fd).present := by rw [hd2, if_neg hfd]; exact hpf
        have hdt : (s2.dir td).frame = tt := by rw [hd2, if_pos rfl]; rfl
        obtain ⟨s3, e3, i3, d3, b3, k3, t3, r3⟩ := copyEntries_spec i2 hpf2
          (by rw [hd2, if_pos rfl]; rfl)
          (fun i hi' => by rw [p2 (td, i) (mem_userSlots.mpr ⟨htd, hi'⟩)]; exact habs i) nr hc
        rw [hdt] at e3
        refine ⟨true, s3, by rw [← e3], i3, ?_, ?_, ?_, ?_, ?_⟩
        · intro d' hd'
          have hne : d' ≠ td := hd' 0 (by omega)
          rw [d3, hd2, if_neg hne]
        · exact fun d hd j => (k3 d hd j).trans (hkern2 d hd j)
        · exact fun f hf' => (b3 f).trans (hbyte2 f (by omega))
        · intro z hz hzk
          have hzt : z.1 ≠ td := hzk 0 (by omega)
          exact (hfix2 z hz).trans ⟨r3 z hz (fun he => absurd he hzt), fun _ => b3 _⟩
        · intro _ k hk
          obtain rfl : k = 0 := by omega
          have hsrc : ∀ i < nr, s2.pte (fd, i) = s.pte (fd, i) := by
            intro i hi'
            obtain ⟨_, hi2, _, hu | ⟨h0, _⟩⟩ := hc i hi'
            · exact p2 (fd, i) (mem_userSlots.mpr ⟨hu.1, hi2⟩)
            · have hd0 : s2.dir fd = s.dir fd := by rw [hd2, if_neg hfd]
              rw [s2.pte_of_present hpf2, s.pte_of_present hpf, hd0, h0, h.ident 0 (by omega)]
              exact hkern2 0 (by omega) i
          refine ⟨fun i hi' => ?_, fun i hi' hnri => ?_⟩
          · have := t3 i hi'
            unfold Twin at this ⊢
            rw [hsrc i hi'] at this
            exact this
          · have hiu : (td, i) ∈ userSlots := mem_userSlots.mpr ⟨htd, hi'⟩
            have := congrArg Entry.present (r3 (td, i) hiu (fun _ => hnri))
            simp only [Entry.clearRw_present] at this
            exact this.trans (by rw [p2 _ hiu]; exact habs i)

theorem Twin.trans_fixed {s s1 s2 : Mem} {x y : Nat × Nat} (h : Twin s s1 x y)
    (hy : (s2.pte y).clearRw = (s1.pte y).clearRw) : Twin s s2 x y := by
  have hp := congrArg Entry.present hy
  simp only [Entry.clearRw_present] at hp
  exact ⟨hp.trans h.1, fun hpx => hy.trans (h.2 hpx)⟩

theorem Twin.of_fixed {s s1 s2 : Mem} {x y : Nat × Nat}
    (hx : (s1.pte x).clearRw = (s.pte x).clearRw) (h : Twin s1 s2 x y) : Twin s s2 x y := by
  have hp := congrArg Entry.present hx
  simp only [Entry.clearRw_present] at hp
  exact ⟨h.1.trans hp, fun hpx => (h.2 (hp ▸ hpx)).trans hx⟩

/-- The outer loop of `copy_page_tables`. -/
theorem copyDirs_spec (h : MemInv lo hi s own) {fd td nr : Nat} (hnr : nr ≤ 1024) :
    ∀ n, (∀ k < n, UserDir (td + k)) → (∀ k < n, ∀ i < nr, CopyPair (fd + k) (td + k) i) →
      (∀ k < n, ∀ k' < n, fd + k ≠ td + k') →
      copyDirs s fd td nr n = .error (.panic "copy_page_tables: already exist") ∨
      ∃ ok s', copyDirs s fd td nr n = .ok (ok, s') ∧ Copied lo hi s own fd td nr n ok s'
  | 0, _, _, _ => Or.inr ⟨true, s, rfl, Copied.refl h fd td nr true⟩
  | n + 1, htd, hc, hdis => by
    rcases copyDirs_spec h hnr n (fun k hk => htd k (by omega)) (fun k hk => hc k (by omega))
      (fun k hk k' hk' => hdis k (by omega) k' (by omega)) with he | ⟨ok1, s1, e1, c1⟩
    · left; rw [copyDirs, he]; rfl
    · cases ok1 with
      | false =>
        refine Or.inr ⟨false, s1, by rw [copyDirs, e1]; rfl, c1.inv, ?_, c1.kern, c1.low, ?_,
          fun hz => nomatch hz⟩
        · exact fun d' hd' => c1.dir d' (fun k hk => hd' k (by omega))
        · exact fun z hz hzk => c1.rest z hz (fun k hk => hzk k (by omega))
      | true =>
        have hd : copyDirs s fd td nr (n + 1) = copyDir s1 (fd + n) (td + n) nr := by
          rw [copyDirs, e1]; rfl
        rw [hd]
        refine (copyDir_spec c1.inv (htd n (by omega)) hnr (hc n (by omega))).imp id ?_
        rintro ⟨ok2, s2, e2, c2⟩
        have hrest2 : ∀ z ∈ userSlots, z.1 ≠ td + n → Fixed s1 s2 z := by
          intro z hz hne
          exact c2.rest z hz (fun k hk => by obtain rfl : k = 0 := by omega
                                             exact hne)
        refine ⟨ok2, s2, e2, c2.inv, ?_, ?_, ?_, ?_, ?_⟩
        · intro d' hd'
          rw [c2.dir d' (fun k hk => by obtain rfl : k = 0 := by omega
                                        exact hd' n (by omega))]
          exact c1.dir d' (fun k hk => hd' k (by omega))
        · exact fun d hd4 j => (c2.kern d hd4 j).trans (c1.kern d hd4 j)
        · exact fun f hf => (c2.low f hf).trans (c1.low f hf)
        · intro z hz hzk
          exact (c1.rest z hz (fun k hk => hzk k (by omega))).trans
            (hrest2 z hz (hzk n (by omega)))
        · intro hok k hk
          by_cases hkn : k = n
          · subst hkn
            have ht := c2.twin hok 0 (by omega)
            refine ⟨fun i hi' => Twin.of_fixed ?_ (ht.1 i hi'), ht.2⟩
            -- the source entry is still the one of `s`
            obtain ⟨_, hi2, _, hu | ⟨h0, _⟩⟩ := hc k hk i hi'
            · exact (c1.rest (fd + k, i) (mem_userSlots.mpr ⟨hu.1, hi2⟩)
                (fun k' hk' => hdis k (by omega) k' (by omega))).1
            · have hp := h.ident (fd + k) (by omega)
              have hp1 := c1.inv.ident (fd + k) (by omega)
              rw [s1.pte_of_present (by rw [hp1]; rfl), s.pte_of_present (by rw [hp]; rfl), hp1,
                hp]
              exact congrArg Entry.clearRw (c1.kern (fd + k) (by omega) i)
          · have ht := c1.twin rfl k (by omega)
            have hfix : ∀ i < 1024, Fixed s1 s2 (td + k, i) := fun i hi' =>
              hrest2 _ (mem_userSlots.mpr ⟨htd k hk, hi'⟩) (by simp only [ne_eq]; omega)
            refine ⟨fun i hi' => (ht.1 i hi').trans_fixed (hfix i (by omega)).1, ?_⟩
            intro i hi' hnri
            rw [(hfix i hi').present]
            exact ht.2 i hi' hnri

/-- The sizes `copy_mem` passes for task `p`: its data limit. -/
def CopySize (p size : Nat) : Prop := size ≤ 0x4000000 ∧ (p = 0 → size = 0xA0000)

/-- `copy_page_tables` from task `p` to task `c`. -/
theorem copyPageTables_spec (h : MemInv lo hi s own) {p c size : Nat} (hp : p < 64) (hc : 1 ≤ c)
    (hc' : c < 64) (hpc : p ≠ c) (hs : CopySize p size) :
    copyPageTables s (base p) (base c) size =
        .error (.panic "copy_page_tables: already exist") ∨
      ∃ ok s', copyPageTables s (base p) (base c) size =
          .ok (if ok then 0 else -1, s') ∧
        Copied lo hi s own (16 * p) (16 * c) (if p = 0 then 160 else 1024) (slots size) ok s' := by
  have hslots := slots_le hs.1
  have hpair : ∀ k < slots size, ∀ i < (if p = 0 then 160 else 1024),
      CopyPair (16 * p + k) (16 * c + k) i := by
    intro k hk i hi'
    refine ⟨⟨by omega, by omega⟩, by split_ifs at hi' <;> omega, by omega, ?_⟩
    by_cases hp0 : p = 0
    · right
      have : slots size = 1 := by rw [hs.2 hp0]; decide
      rw [if_pos hp0] at hi'
      omega
    · left
      exact ⟨⟨by omega, by omega⟩, by omega⟩
  have hnr : (if base p = 0 then 0xA0 else 1024) = if p = 0 then 160 else 1024 := by
    simp only [base_eq_zero]
  unfold copyPageTables
  rw [if_neg (by rw [base_align, base_align]; decide), base_shift, base_shift, hnr]
  rcases copyDirs_spec h (by split_ifs <;> omega) (slots size)
    (fun k hk => ⟨by omega, by omega⟩) hpair (fun k hk k' hk' => by omega) with he | ⟨ok, s', e, cp⟩
  · left; rw [he]; rfl
  · right
    refine ⟨ok, s', ?_, cp⟩
    rw [e]
    rfl

end Linux011.Mm
