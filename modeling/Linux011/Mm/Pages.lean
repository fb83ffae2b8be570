/-
  Specifications of the functions of memory.c that map, unshare or share a single page:
  `put_page`, `un_wp_page`, `write_verify`, `get_empty_page`, `try_to_share`. Each keeps
  `MemInv`, says what the slot it works on holds afterwards and leaves every other slot `Fixed`.
-/
import Linux011.Mm.Tables

namespace Linux011.Mm

variable {lo hi : Nat} {s s' : Mem} {own : Finset Nat}

/-- A linear address outside the kernel identity tables. -/
def UserAddr (address : Nat) : Prop := 0x1000000 ≤ address ∧ address < 2 ^ 32

instance (a : Nat) : Decidable (UserAddr a) := inferInstanceAs (Decidable (_ ∧ _))

theorem slotAt_mem {a : Nat} (h : UserAddr a) : slotAt a ∈ userSlots := by
  obtain ⟨h1, h2⟩ := h
  refine mem_userSlots.mpr ⟨⟨?_, ?_⟩, Nat.mod_lt _ (by decide)⟩
  · simp only [slotAt, Nat.shiftRight_eq_div_pow]; omega
  · simp only [slotAt, Nat.shiftRight_eq_div_pow]; omega

theorem slotAt_add (t a : Nat) :
    slotAt (base t + a) = ((slotAt a).1 + 16 * t, (slotAt a).2) := by
  simp only [slotAt, base, Nat.shiftRight_eq_div_pow, Prod.mk.injEq]
  omega

theorem userAddr_task {t a : Nat} (ht : 1 ≤ t) (ht' : t < 64) (ha : a < 0x4000000) :
    UserAddr (base t + a) := by
  unfold base
  exact ⟨by omega, by omega⟩

/-! ## put_page -/

/-- The effect of mapping the owned page `f` in slot `x`. -/
structure Put (lo hi : Nat) (s : Mem) (own : Finset Nat) (f : Nat) (x : Nat × Nat) (s' : Mem) :
    Prop where
  inv : MemInv lo hi s' (own.erase f)
  slot : s'.pte x = Entry.seven f
  pte : ∀ z ∈ userSlots, z ≠ x → s'.pte z = s.pte z
  rest : ∀ z ∈ userSlots, z ≠ x → Fixed s s' z
  dir : ∀ d, d ≠ x.1 → s'.dir d = s.dir d
  kept : ∀ g, g < lo ∨ g ∈ own → (s'.mem g).byte = (s.mem g).byte

/-- The store of `page | 7` in an existing table. -/
theorem MemInv.put (h : MemInv lo hi s own) {f : Nat} {x : Nat × Nat} (hf : f ∈ own)
    (hx : x ∈ userSlots) (hpd : (s.dir x.1).present) (hp : (s.pte x).present = false) :
    Put lo hi s own f x (s.setEntry (s.dir x.1).frame x.2 (Entry.seven f)) := by
  have hxd := (mem_userSlots.mp hx).1
  have h0 := h.dir_ne_zero hxd hpd
  have hread : ∀ z ∈ userSlots, (s.setEntry (s.dir x.1).frame x.2 (Entry.seven f)).pte z =
      if z = x then Entry.seven f else s.pte z := fun z hz =>
    h.dirs.pte_setEntry hxd hpd (mem_userSlots.mp hz).1 _
  refine ⟨?_, ?_, fun z hz hne => by rw [hread z hz, if_neg hne], ?_, ?_,
    fun g _ => Mem.setEntry_byte _ _ _ _ _⟩
  · exact h.setSlot hx hpd (s.setEntry_dir_of_ne h0 _ _) (fun _ => rfl) rfl
      (h.refs.map hx hpd hp hf) rfl rfl rfl (fun _ _ _ => rfl)
  · rw [hread x hx, if_pos rfl]
  · intro z hz hne
    refine Fixed.of_pte (by rw [hread z hz, if_neg hne]) fun g _ _ => ?_
    exact Mem.setEntry_byte _ _ _ _ _
  · intro d _
    rw [s.setEntry_dir_of_ne h0]

/-- `put_page` of an owned page at an address without a page. -/
theorem putPage_spec (h : MemInv lo hi s own) {f a : Nat} (ha : UserAddr a) (hf : f ∈ own)
    (hp : (s.pte (slotAt a)).present = false) (he : putPage s f a = some s') :
    Put lo hi s own f (slotAt a) s' := by
  have hx := slotAt_mem ha
  have hxd := (mem_userSlots.mp hx).1
  unfold putPage at he
  dsimp only at he
  cases hpd : (s.dir (slotAt a).1).present with
  | true =>
    rw [if_pos hpd] at he
    cases he
    exact h.put hf hx hpd hp
  | false =>
    rw [if_neg (by rw [hpd]; decide)] at he
    cases hg : getFreePage s with
    | none => rw [hg] at he; cases he
    | some r =>
      obtain ⟨tt, s1⟩ := r
      rw [hg] at he
      cases he
      -- the new table first, then the store
      have hfr := getFreePage_spec h hg
      obtain ⟨i2, p2⟩ := hfr.install hxd hpd
      have hd2 : ∀ d, (s1.setDir (slotAt a).1 (Entry.seven tt)).dir d =
          if d = (slotAt a).1 then Entry.seven tt else s.dir d := by
        intro d; rw [Mem.setDir_dir, hfr.dir]
      have hput := i2.put hf hx (by rw [hd2, if_pos rfl]; rfl) (by rw [p2 _ hx]; exact hp)
      have htt : ((s1.setDir (slotAt a).1 (Entry.seven tt)).dir (slotAt a).1).frame = tt := by
        rw [hd2, if_pos rfl]; rfl
      rw [htt] at hput
      have hb2 : ∀ g, g ≠ tt →
          ((s1.setDir (slotAt a).1 (Entry.seven tt)).mem g).byte = (s.mem g).byte := by
        intro g hg; rw [Mem.setDir_byte, hfr.other g hg]
      refine ⟨hput.inv, hput.slot, fun z hz hne => (hput.pte z hz hne).trans (p2 z hz), ?_, ?_, ?_⟩
      · intro z hz hne
        refine Fixed.trans (Fixed.of_pte (p2 z hz) fun g hpz hzg => hb2 g ?_) (hput.rest z hz hne)
        exact fun hgt => hfr.notMapped z hz hpz (hzg.trans hgt)
      · intro d hne
        rw [hput.dir d hne, hd2, if_neg hne]
      · intro g hk
        rw [hput.kept g hk, hb2 g]
        rintro rfl
        rcases hk with hk | hk
        · have := hfr.range.1; omega
        · exact hfr.notOwn hk

/-! ## un_wp_page, do_wp_page, write_verify -/

/-- The effect of `un_wp_page` on slot `x`: the slot is writable and has the same bytes. -/
structure Unprotected (lo hi : Nat) (s : Mem) (own : Finset Nat) (x : Nat × Nat) (s' : Mem) :
    Prop where
  inv : MemInv lo hi s' own
  present : (s'.pte x).present = true
  rw : (s'.pte x).rw = true
  byte : (s'.mem (s'.pte x).frame).byte = (s.mem (s.pte x).frame).byte
  dirty : (s'.pte x).dirty = ((s.pte x).dirty &&
    decide (256 ≤ (s.pte x).frame ∧ s.memMap ((s.pte x).frame - 256) = 1))
  pte : ∀ z ∈ userSlots, z ≠ x → s'.pte z = s.pte z
  rest : ∀ z ∈ userSlots, z ≠ x → Fixed s s' z
  dir : s'.dir = s.dir
  kept : ∀ g, g < lo ∨ g ∈ own → (s'.mem g).byte = (s.mem g).byte
  cnt : ∀ z ∈ userSlots, (s.pte z).present → 256 ≤ (s.pte z).frame →
    s'.memMap ((s.pte z).frame - 256) ≤ s.memMap ((s.pte z).frame - 256)

/-- The memory after the copy of `un_wp_page`: `new` was just taken, `e` is the old entry. -/
def copied (s1 : Mem) (tab i new : Nat) (e : Entry) : Mem :=
  let s := if 256 ≤ e.frame then s1.decMap (e.frame - 256) else s1
  let s := s.setEntry tab i (Entry.seven new)
  s.setPage new (s.mem e.frame)

/-- The graph after the copy of `un_wp_page`. -/
theorem copied_refs {s1 : Mem} {new : Nat} (h : MemInv lo hi s own)
    (hf : Fresh lo hi s own new s1) {x : Nat × Nat} (hx : x ∈ userSlots) (hp : (s.pte x).present)
    (tab i : Nat) :
    ∃ V, RefInv lo hi V ∧ V.dir = s.dir ∧ V.own = own ∧
      (∀ z ∈ userSlots, V.pte z = if z = x then Entry.seven new else s.pte z) ∧
      ∀ g, 256 ≤ g → g < 4096 → (copied s1 tab i new (s.pte x)).memMap (g - 256) = V.cnt g := by
  have hb := h.bounds
  have hpx : s1.pte x = s.pte x := hf.pte x hx
  have hpd : (s1.dir x.1).present := by rw [hf.dir]; exact s.dir_present_of_pte hp
  have hzero : ¬ Entry.zero.present = true := by decide
  have hmap : (copied s1 tab i new (s.pte x)).memMap =
      (if 256 ≤ (s.pte x).frame then s1.decMap ((s.pte x).frame - 256) else s1).memMap := rfl
  -- take the old page out of the slot, then put the new one in
  obtain ⟨V, hV, hVd, hVo, hVp, hVc⟩ : ∃ V, RefInv lo hi V ∧ V.dir = s1.dir ∧
      V.own = insert new own ∧ V.pte = Function.update s1.pte x Entry.zero ∧
      ∀ g, 256 ≤ g → g < 4096 →
        (copied s1 tab i new (s.pte x)).memMap (g - 256) = V.cnt g := by
    by_cases hfr : 256 ≤ (s.pte x).frame
    · have hr := (h.pte_range hx hp).resolve_right (fun hr => by omega)
      refine ⟨_, hf.inv.refs.unmap hx (by rw [viewOf_pte, hpx]; exact hp) (by rw [viewOf_pte, hpx]; exact hr.1)
        (by rw [viewOf_pte, hpx]; exact hr.2), rfl, rfl, rfl, ?_⟩
      intro g hg _
      have hpos : 0 < s1.memMap ((s.pte x).frame - 256) := by
        have := hf.inv.pte_pos hx (by rw [hpx]; exact hp) (by rw [hpx]; exact hr.1)
          (by rw [hpx]; exact hr.2)
        rw [hpx] at this
        exact this
      have hle := hf.inv.cnt_le hr.1 hr.2
      have hdec : (s1.memMap ((s.pte x).frame - 256) + 255) % 256 =
          s1.memMap ((s.pte x).frame - 256) - 1 := by omega
      rw [hmap, if_pos hfr, Mem.decMap, Mem.setMap_memMap, hdec, View.setPte_cnt,
        View.setCnt_cnt, viewOf_pte, hpx]
      have he : g - 256 = (s.pte x).frame - 256 ↔ g = (s.pte x).frame := by omega
      simp only [he]
      rfl
    · refine ⟨_, hf.inv.refs.replaceLow (e := Entry.zero) hb.1 hx ?_ (fun hz => absurd hz hzero)
        (fun hz => absurd hz hzero), rfl, rfl, rfl, ?_⟩
      · intro _
        rw [viewOf_pte, hpx]
        omega
      · intro g _ _
        rw [hmap, if_neg hfr]
        rfl
  refine ⟨_, hV.map (f := new) hx (by rw [hVd]; exact hpd) (by rw [hVp]; simp)
    (by rw [hVo]; exact Finset.mem_insert_self _ _), ?_, ?_, ?_, hVc⟩
  · rw [View.drop_dir, View.setPte_dir, hVd, hf.dir]
  · rw [View.drop, View.setPte_own, hVo, Finset.erase_insert hf.notOwn]
  · intro z hz
    rw [View.drop_pte, View.setPte_pte, hVp]
    by_cases hzx : z = x
    · rw [if_pos hzx, if_pos hzx]
    · rw [if_neg hzx, if_neg hzx, Function.update_of_ne hzx, hf.pte z hz]

/-- `un_wp_page` on a present slot; the only other way out is `oom()`, with nothing changed. -/
theorem unWpPage_spec (h : MemInv lo hi s own) {x : Nat × Nat} (hx : x ∈ userSlots)
    (hp : (s.pte x).present) :
    unWpPage s (s.dir x.1).frame x.2 = .error (.oom s) ∨
      ∃ s', unWpPage s (s.dir x.1).frame x.2 = .ok s' ∧ Unprotected lo hi s own x s' := by
  have hxd := (mem_userSlots.mp hx).1
  have hpd := s.dir_present_of_pte hp
  have h0 := h.dir_ne_zero hxd hpd
  have hdr := h.dir_range hxd hpd
  have hb := h.bounds
  have hlow : lowMem ≤ (s.pte x).addr ↔ 256 ≤ (s.pte x).frame := by
    unfold lowMem Entry.addr; omega
  unfold unWpPage
  rw [← s.pte_of_present hpd]
  dsimp only
  rw [Entry.addr, mapNr_addr, ← Entry.addr]
  simp only [hlow]
  by_cases h1 : 256 ≤ (s.pte x).frame ∧ s.memMap ((s.pte x).frame - 256) = 1
  · -- the only reference: the page is made writable in place
    right
    rw [if_pos h1]
    have hr := (h.pte_range hx hp).resolve_right (fun hr => by omega)
    have hread : ∀ z ∈ userSlots, (s.setEntry (s.dir x.1).frame x.2 (s.pte x).setRw).pte z =
        if z = x then (s.pte x).setRw else s.pte z := fun z hz =>
      h.dirs.pte_setEntry hxd hpd (mem_userSlots.mp hz).1 _
    have hat : (s.setEntry (s.dir x.1).frame x.2 (s.pte x).setRw).pte x = (s.pte x).setRw := by
      rw [hread x hx, if_pos rfl]
    refine ⟨_, rfl, ?_, by rw [hat]; exact hp, by rw [hat]; rfl, ?_, ?_,
      fun z hz hne => by rw [hread z hz, if_neg hne], ?_, s.setEntry_dir_of_ne h0 _ _,
      fun g _ => Mem.setEntry_byte _ _ _ _ _, fun _ _ _ _ => Nat.le_refl _⟩
    · exact h.setSlot hx hpd (s.setEntry_dir_of_ne h0 _ _) (fun _ => rfl) rfl
        (h.refs.retag (e := (s.pte x).setRw) hb.1 hx hp hp rfl
          (fun _ => Or.inr ⟨hr.1, hr.2, h1.2⟩)) rfl rfl rfl (fun _ _ _ => rfl)
    · rw [hat, Mem.setEntry_byte]; rfl
    · rw [hat, decide_eq_true h1, Bool.and_true]; rfl
    · intro z hz hne
      refine Fixed.of_pte (by rw [hread z hz, if_neg hne]) fun g _ _ => ?_
      exact Mem.setEntry_byte _ _ _ _ _
  · rw [if_neg h1]
    cases hg : getFreePage s with
    | none => exact Or.inl rfl
    | some r =>
      right
      obtain ⟨new, s1⟩ := r
      have hf := getFreePage_spec h hg
      have hfr := hf.range
      refine ⟨copied s1 (s.dir x.1).frame x.2 new (s.pte x), ?_, ?_⟩
      · unfold copied; rfl
      obtain ⟨V, hV, hVd, hVo, hVp, hVc⟩ :=
        copied_refs h hf hx hp (s.dir x.1).frame x.2
      set s' := copied s1 (s.dir x.1).frame x.2 new (s.pte x) with hs'
      have hmem : ∀ g, g ≠ new →
          s'.mem g = (s1.setEntry (s.dir x.1).frame x.2 (Entry.seven new)).mem g := by
        intro g hgn
        rw [hs', copied, Mem.setPage_mem, if_neg hgn]
        split_ifs <;> rfl
      have hbyte : ∀ g, g ≠ new → (s'.mem g).byte = (s.mem g).byte := by
        intro g hgn
        rw [hmem g hgn, Mem.setEntry_byte, hf.other g hgn]
      have hdir : s'.dir = s.dir := by
        funext d
        unfold Mem.dir
        rw [hmem 0 (by omega), Mem.setEntry_entry, if_neg (fun hh => h0 hh.1.symm),
          hf.other 0 (by omega)]
      have hpte : ∀ z ∈ userSlots, s'.pte z = V.pte z := by
        intro z hz
        have hzd := (mem_userSlots.mp hz).1
        have hs1 : (s1.setEntry (s.dir x.1).frame x.2 (Entry.seven new)).pte z =
            if z = x then Entry.seven new else s1.pte z := by
          have hd1 := hf.inv.dirs
          have := hd1.pte_setEntry hxd (by rw [hf.dir]; exact hpd) hzd (Entry.seven new)
          rw [hf.dir] at this
          exact this
        rw [hVp z hz, ← hf.pte z hz, ← hs1]
        unfold Mem.pte
        rw [hdir, Mem.setEntry_dir_of_ne _ h0, hf.dir]
        split_ifs with hpz
        · rw [hmem _ (hf.notTable z.1 hzd hpz)]
        · rfl
      have hat : s'.pte x = Entry.seven new := by rw [hpte x hx, hVp x hx, if_pos rfl]
      refine ⟨?_, by rw [hat]; rfl, by rw [hat]; rfl, ?_, ?_,
        fun z hz hne => by rw [hpte z hz, hVp z hz, if_neg hne], ?_, hdir, ?_, ?_⟩
      · have hhigh : s'.highMemory = s1.highMemory := by
          rw [hs', copied, Mem.setPage_high, Mem.setEntry_high]
          split_ifs <;> rfl
        refine h.step hV hVc (fun d _ => by rw [hdir, hVd]) hpte hVo.symm
          (hhigh.trans hf.high) (fun d _ => by rw [hdir]) ?_
        intro d hd j
        rw [hmem _ (by omega), Mem.setEntry_entry, if_neg (by omega), hf.other _ (by omega)]
      · -- the new page is a copy of the old one
        have hold : (s.pte x).frame ≠ new := hf.notMapped x hx hp
        rw [hat, Entry.seven_frame, hs', copied, Mem.setPage_mem, if_pos rfl, Mem.setEntry_byte,
          ← hf.other _ hold]
        split_ifs <;> rfl
      · rw [hat, decide_eq_false h1, Bool.and_false]; rfl
      · intro z hz hne
        refine Fixed.of_pte ?_ fun g hpz hzg => hbyte g ?_
        · rw [hpte z hz, hVp z hz, if_neg hne]
        · exact fun hgn => hf.notMapped z hz hpz (hzg.trans hgn)
      · intro g hk
        refine hbyte g ?_
        rintro rfl
        rcases hk with hk | hk
        · omega
        · exact hf.notOwn hk
      · intro z hz hpz hzf
        have hne := hf.notMapped z hz hpz
        have h1 := hf.memMap ((s.pte z).frame - 256)
        rw [if_neg (by omega)] at h1
        rw [← h1, hs', copied, Mem.setPage_memMap, Mem.setEntry_memMap]
        split_ifs with hold
        · -- the count of the old page drops by one
          have hr := (h.pte_range hx hp).resolve_right (fun hr => by omega)
          have hpos := h.pte_pos hx hp hr.1 hr.2
          have hnew := hf.notMapped x hx hp
          have h2 := hf.memMap ((s.pte x).frame - 256)
          rw [if_neg (by omega)] at h2
          have hle := h.cnt_le hr.1 hr.2
          rw [Mem.decMap, Mem.setMap_memMap]
          split_ifs with heq
          · rw [heq, h2]; omega
          · exact Nat.le_refl _
        · exact Nat.le_refl _

/-- `write_verify`: nothing, or `un_wp_page` on a present write-protected slot. -/
theorem writeVerify_spec (h : MemInv lo hi s own) {a : Nat} (ha : a < 2 ^ 32) :
    writeVerify s a = .ok s ∧ ¬ ((s.pte (slotAt a)).present = true ∧ (s.pte (slotAt a)).rw = false) ∨
      (UserAddr a ∧ (s.pte (slotAt a)).present = true ∧ (s.pte (slotAt a)).rw = false ∧
        (writeVerify s a = .error (.oom s) ∨
          ∃ s', writeVerify s a = .ok s' ∧ Unprotected lo hi s own (slotAt a) s')) := by
  unfold writeVerify
  dsimp only
  cases hpd : (s.dir (slotAt a).1).present with
  | false =>
    left
    refine ⟨rfl, fun hh => ?_⟩
    rw [s.pte_of_absent hpd] at hh
    exact absurd hh.1 (by decide)
  | true =>
    rw [if_neg (by decide), ← s.pte_of_present hpd]
    by_cases hpr : (s.pte (slotAt a)).present = true ∧ (s.pte (slotAt a)).rw = false
    · -- the identity tables are writable, so this is a user slot
      right
      have ha' : UserAddr a := by
        refine ⟨?_, ha⟩
        by_contra hlow
        have hd : (slotAt a).1 < 4 := by
          simp only [slotAt, Nat.shiftRight_eq_div_pow]; omega
        have hid := h.identEntry _ hd (slotAt a).2 (Nat.mod_lt _ (by decide))
        have hr := hpr.2
        rw [s.pte_of_present hpd, h.ident _ hd] at hr
        rw [Entry.seven_frame, hid.2.1] at hr
        cases hr
      refine ⟨ha', hpr.1, hpr.2, ?_⟩
      rw [if_pos (by rw [hpr.1, hpr.2]; rfl)]
      exact unWpPage_spec h (slotAt_mem ha') hpr.1
    · left
      refine ⟨?_, hpr⟩
      rw [if_neg]
      intro hh
      simp only [Bool.and_eq_true, Bool.not_eq_true'] at hh
      exact hpr hh

/-! ## get_empty_page -/

/-- `get_empty_page` at an address without a page: a fresh zero page, or `oom()` with every
    slot as before. -/
theorem getEmptyPage_spec (h : MemInv lo hi s own) {a : Nat} (ha : UserAddr a)
    (hp : (s.pte (slotAt a)).present = false) :
    (∃ s', getEmptyPage s a = .error (.oom s') ∧ MemInv lo hi s' own ∧ s'.dir = s.dir ∧
        (∀ z ∈ userSlots, Fixed s s' z) ∧
        ∀ g, g < lo ∨ g ∈ own → (s'.mem g).byte = (s.mem g).byte) ∨
      ∃ f s1 s', getEmptyPage s a = .ok s' ∧ Fresh lo hi s own f s1 ∧
        Put lo hi s1 (insert f own) f (slotAt a) s' := by
  have hx := slotAt_mem ha
  unfold getEmptyPage
  cases hg : getFreePage s with
  | none => exact Or.inl ⟨s, rfl, h, rfl, fun _ _ => Fixed.refl, fun _ _ => rfl⟩
  | some r =>
    obtain ⟨f, s1⟩ := r
    have hf := getFreePage_spec h hg
    dsimp only
    cases hput : putPage s1 f a with
    | some s' =>
      refine Or.inr ⟨f, s1, s', rfl, hf, ?_⟩
      exact putPage_spec hf.inv ha (Finset.mem_insert_self _ _)
        (by rw [hf.pte _ hx]; exact hp) hput
    | none =>
      left
      obtain ⟨s2, e2, i2, m2⟩ := freePage_owned hf.inv (Finset.mem_insert_self f own)
      have hbyte : ∀ g, g ≠ f → (s2.mem g).byte = (s.mem g).byte := by
        intro g hne; rw [m2, hf.other g hne]
      refine ⟨s2, by dsimp only; rw [e2]; rfl, ?_, ?_, ?_, ?_⟩
      · rw [Finset.erase_insert hf.notOwn] at i2
        exact i2
      · rw [← hf.dir]; exact Mem.dir_of_mem (fun g => by rw [m2])
      · intro z hz
        refine (hf.fixed hz).trans (Fixed.of_pte (Mem.pte_of_mem (fun g => by rw [m2]) z) ?_)
        intro g _ _
        rw [m2]
      · intro g hk
        refine hbyte g ?_
        rintro rfl
        rcases hk with hk | hk
        · have := hf.range.1; omega
        · exact hf.notOwn hk

/-! ## try_to_share -/

/-- The page a task could take over in `try_to_share`: present, clean and managed. -/
def Clean (s : Mem) (x : Nat × Nat) : Prop :=
  (s.pte x).present = true ∧ (s.pte x).dirty = false ∧ lowMem ≤ (s.pte x).addr ∧
    (s.pte x).addr < s.highMemory

instance (s : Mem) (x : Nat × Nat) : Decidable (Clean s x) :=
  inferInstanceAs (Decidable (_ ∧ _ ∧ _ ∧ _))

/-- The effect of a successful `try_to_share` of slot `x` into slot `y`. -/
structure Took (lo hi : Nat) (s : Mem) (own : Finset Nat) (x y : Nat × Nat) (s' : Mem) :
    Prop where
  inv : MemInv lo hi s' own
  clean : Clean s x
  absent : (s.pte y).present = false
  slot : s'.pte y = (s.pte x).clearRw
  byte : (s'.mem (s.pte x).frame).byte = (s.mem (s.pte x).frame).byte
  rest : ∀ z ∈ userSlots, z ≠ y → Fixed s s' z
  dir : ∀ d, d ≠ y.1 → s'.dir d = s.dir d
  kept : ∀ g, g < lo ∨ g ∈ own → (s'.mem g).byte = (s.mem g).byte

/-- The target's page table is there, or is made: no slot changes. -/
theorem toTable_spec (h : MemInv lo hi s own) {td : Nat} (htd : UserDir td) :
    (toTable s td = .error (.oom s) ∧ getFreePage s = none) ∨
      ∃ s', toTable s td = .ok s' ∧ MemInv lo hi s' own ∧ (s'.dir td).present = true ∧
        (∀ d, d ≠ td → s'.dir d = s.dir d) ∧ (∀ z ∈ userSlots, s'.pte z = s.pte z) ∧
        (∀ z ∈ userSlots, Fixed s s' z) ∧ s'.highMemory = s.highMemory ∧
        ∀ g, g < lo ∨ g ∈ own → (s'.mem g).byte = (s.mem g).byte := by
  unfold toTable
  cases hpd : (s.dir td).present with
  | true =>
    exact Or.inr ⟨s, rfl, h, hpd, fun _ _ => rfl, fun _ _ => rfl, fun _ _ => Fixed.refl, rfl,
      fun _ _ => rfl⟩
  | false =>
    rw [if_neg (by decide)]
    cases hg : getFreePage s with
    | none => exact Or.inl ⟨rfl, rfl⟩
    | some r =>
      right
      obtain ⟨t, s1⟩ := r
      have hf := getFreePage_spec h hg
      obtain ⟨i2, p2⟩ := hf.install htd hpd
      have hbyte : ∀ g, g ≠ t →
          ((s1.setDir td (Entry.seven t)).mem g).byte = (s.mem g).byte := by
        intro g hne; rw [Mem.setDir_byte, hf.other g hne]
      refine ⟨_, rfl, i2, ?_, ?_, p2, ?_, hf.high, ?_⟩
      · rw [Mem.setDir_dir, if_pos rfl]; rfl
      · intro d hne; rw [Mem.setDir_dir, if_neg hne, hf.dir]
      · intro z hz
        refine Fixed.of_pte (p2 z hz) fun g hp he => hbyte g fun hgt => ?_
        exact hf.notMapped z hz hp (he.trans hgt)
      · intro g hk
        refine hbyte g ?_
        rintro rfl
        rcases hk with hk | hk
        · have := hf.range.1; omega
        · exact hf.notOwn hk

/-- `try_to_share` from task `p` to task `c`, at an address inside their segments. -/
theorem tryToShare_spec (h : MemInv lo hi s own) {a p c : Nat} (ha : a < 0x4000000)
    (hp : 1 ≤ p) (hp' : p < 64) (hc : 1 ≤ c) (hc' : c < 64) (hpc : p ≠ c) :
    (tryToShare s a (base p) (base c) = .ok (false, s) ∧
        ¬ Clean s (slotAt (base p + a))) ∨
      Clean s (slotAt (base p + a)) ∧
        (tryToShare s a (base p) (base c) = .error (.oom s) ∧ getFreePage s = none ∨
          tryToShare s a (base p) (base c) =
            .error (.panic "try_to_share: to_page already exists") ∧
            (s.pte (slotAt (base c + a))).present = true ∨
          ∃ s', tryToShare s a (base p) (base c) = .ok (true, s') ∧
            Took lo hi s own (slotAt (base p + a)) (slotAt (base c + a)) s') := by
  have hx := slotAt_mem (userAddr_task hp hp' ha)
  have hy := slotAt_mem (userAddr_task hc hc' ha)
  have hb := h.bounds
  rw [slotAt_add] at hx hy
  rw [slotAt_add, slotAt_add]
  unfold tryToShare
  simp only [base_shift]
  set fd := (slotAt a).1 + 16 * p with hfd
  set td := (slotAt a).1 + 16 * c with htd
  set i := (slotAt a).2 with hi'
  have htu : UserDir td := (mem_userSlots.mp hy).1
  cases hpd : (s.dir fd).present with
  | false =>
    left
    refine ⟨rfl, fun hcl => ?_⟩
    rw [Clean, s.pte_of_absent hpd] at hcl
    exact absurd hcl.1 (by decide)
  | true =>
    have hrd : (s.mem (s.dir fd).frame).entry i = s.pte (fd, i) :=
      (s.pte_of_present (x := (fd, i)) hpd).symm
    simp only [hrd, Bool.not_true, Bool.false_eq_true, if_false]
    by_cases hcl : (s.pte (fd, i)).present = true ∧ (s.pte (fd, i)).dirty = false
    · rw [if_neg (by rw [hcl.1, hcl.2]; decide)]
      by_cases hrg : s.highMemory ≤ (s.pte (fd, i)).addr ∨ (s.pte (fd, i)).addr < lowMem
      · rw [if_pos hrg]
        exact Or.inl ⟨rfl, fun hcl' => by rcases hrg with hr | hr <;> have := hcl'.2.2 <;> omega⟩
      · rw [if_neg hrg]
        have hclean : Clean s (fd, i) := ⟨hcl.1, hcl.2, by omega, by omega⟩
        refine Or.inr ⟨hclean, ?_⟩
        rcases toTable_spec h htu with ⟨he, hg⟩ | ⟨s1, e1, i1, t1, d1, p1, f1, h1, b1⟩
        · left; rw [he]; exact ⟨rfl, hg⟩
        · right
          rw [e1]
          have hd1 : s1.dir fd = s.dir fd := d1 fd (by omega)
          have hrx : (s1.mem (s.dir fd).frame).entry i = s.pte (fd, i) := by
            rw [← p1 _ hx, s1.pte_of_present (by rw [hd1]; exact hpd), hd1]
          have hry : (s1.mem (s1.dir td).frame).entry i = s.pte (td, i) := by
            rw [← p1 _ hy, s1.pte_of_present t1]
          dsimp only [bind, Except.bind]
          rw [hrx, hry]
          cases hpy : (s.pte (td, i)).present with
          | true => exact Or.inl ⟨rfl, rfl⟩
          | false =>
            right
            rw [if_neg (by decide), Mem.setEntry_entry, if_pos ⟨rfl, rfl⟩]
            have hr := (h.pte_range hx hcl.1).resolve_right (fun hr => by
              have := hclean.2.2.1
              unfold lowMem Entry.addr at this
              omega)
            have hsh := i1.share (x := (fd, i)) (y := (td, i))
              (((s1.setEntry (s.dir fd).frame i (s.pte (fd, i)).clearRw).setEntry
                (s1.dir td).frame i (s.pte (fd, i)).clearRw).incMap
                (mapNr (s.pte (fd, i)).addr)) hx hy (by rw [p1 _ hx]; exact hcl.1)
              (by rw [p1 _ hx]; exact hr.1) (by rw [p1 _ hx]; exact hr.2) t1
              (by rw [p1 _ hy]; exact hpy) ⟨rfl, by simp only [hfd, htd]; omega⟩
              (fun g => by rw [p1 _ hx, hd1]; rfl) rfl (by rw [p1 _ hx]; rfl)
            have hfix : ∀ z ∈ userSlots, z ≠ (td, i) → Fixed s1 _ z := fun z hz hne =>
              ⟨by
                rw [hsh.pte z hz]
                split_ifs with hzx
                · rw [hzx.resolve_right hne]; rfl
                · rfl, fun _ => hsh.byte _⟩
            refine ⟨_, rfl, hsh.inv, hclean, hpy, ?_, ?_, ?_, ?_, ?_⟩
            · rw [hsh.pte _ hy, if_pos (Or.inr rfl), p1 _ hx]
            · rw [hsh.byte]; exact (f1 _ hx).2 hcl.1
            · exact fun z hz hne => (f1 z hz).trans (hfix z hz hne)
            · intro d hne; rw [hsh.dir, d1 d hne]
            · intro g hk; rw [hsh.byte, b1 g hk]
    · left
      rw [if_pos]
      · exact ⟨rfl, fun hcl' => hcl ⟨hcl'.1, hcl'.2.1⟩⟩
      · cases h1 : (s.pte (fd, i)).present <;> cases h2 : (s.pte (fd, i)).dirty <;> simp_all

/-! ## do_no_page -/

/-- Tasks `share_page` may try for the current task `cur`. -/
def Others (cur : Nat) (ps : List Nat) : Prop := ∀ p ∈ ps, 1 ≤ p ∧ p < 64 ∧ p ≠ cur

/-- `share_page` takes the first clean page it finds at the offset, if there is one. -/
theorem sharePage_spec (h : MemInv lo hi s own) {a c : Nat} (ha : a < 0x4000000) (hc : 1 ≤ c)
    (hc' : c < 64) (hy : (s.pte (slotAt (base c + a))).present = false) :
    ∀ ps, Others c ps →
      (sharePage s a c ps = .ok (false, s) ∧ ∀ p ∈ ps, ¬ Clean s (slotAt (base p + a))) ∨
        ∃ p ∈ ps, Clean s (slotAt (base p + a)) ∧
          (sharePage s a c ps = .error (.oom s) ∧ getFreePage s = none ∨
          ∃ s', sharePage s a c ps = .ok (true, s') ∧
            Took lo hi s own (slotAt (base p + a)) (slotAt (base c + a)) s')
  | [], _ => Or.inl ⟨rfl, fun _ hp => nomatch hp⟩
  | p :: ps, hps => by
    obtain ⟨hp1, hp2, hp3⟩ := hps p List.mem_cons_self
    rcases tryToShare_spec h ha hp1 hp2 hc hc' hp3 with
      ⟨he, hn⟩ | ⟨hcl, ⟨he, hg⟩ | ⟨_, hpy⟩ | ⟨s', e', ht⟩⟩
    · have hrec : sharePage s a c (p :: ps) = sharePage s a c ps := by
        rw [sharePage, he]; rfl
      rw [hrec]
      rcases sharePage_spec h ha hc hc' hy ps (fun q hq => hps q (List.mem_cons_of_mem _ hq)) with
        ⟨e1, n1⟩ | ⟨q, hq, hcl, hr⟩
      · left
        refine ⟨e1, fun q hq => ?_⟩
        rcases List.mem_cons.mp hq with rfl | hq
        · exact hn
        · exact n1 q hq
      · exact Or.inr ⟨q, List.mem_cons_of_mem _ hq, hcl, hr⟩
    · exact Or.inr ⟨p, List.mem_cons_self, hcl, Or.inl ⟨by rw [sharePage, he]; rfl, hg⟩⟩
    · rw [hy] at hpy; cases hpy
    · exact Or.inr ⟨p, List.mem_cons_self, hcl, Or.inr ⟨s', by rw [sharePage, e']; rfl, ht⟩⟩

/-- What an `oom()` inside one of these functions leaves behind: every slot as before. -/
structure Quiet (lo hi : Nat) (s : Mem) (own : Finset Nat) (s' : Mem) : Prop where
  inv : MemInv lo hi s' own
  dir : s'.dir = s.dir
  fixed : ∀ z ∈ userSlots, Fixed s s' z
  kept : ∀ g, g < lo ∨ g ∈ own → (s'.mem g).byte = (s.mem g).byte

theorem Quiet.refl (h : MemInv lo hi s own) : Quiet lo hi s own s :=
  ⟨h, rfl, fun _ _ => Fixed.refl, fun _ _ => rfl⟩

/-- The ways `do_no_page` can serve or begin to serve a fault at an absent page. -/
inductive NoPage (lo hi : Nat) (s : Mem) (own : Finset Nat) (cur tmp : Nat) :
    Option (List Nat) → Option Nat → Mem → Prop
  | empty {f : Nat} {s1 s' : Mem} : Fresh lo hi s own f s1 →
      Put lo hi s1 (insert f own) f (slotAt (base cur + tmp)) s' →
      NoPage lo hi s own cur tmp none none s'
  | shared {ps : List Nat} {p : Nat} {s' : Mem} : p ∈ ps →
      Took lo hi s own (slotAt (base p + tmp)) (slotAt (base cur + tmp)) s' →
      NoPage lo hi s own cur tmp (some ps) none s'
  | read {ps : List Nat} {f : Nat} {s' : Mem} :
      (∀ p ∈ ps, ¬ Clean s (slotAt (base p + tmp))) → Fresh lo hi s own f s' →
      NoPage lo hi s own cur tmp (some ps) (some f) s'

theorem doNoPage_spec (h : MemInv lo hi s own) {cur tmp : Nat} (ht : tmp < 0x4000000)
    (hc : 1 ≤ cur) (hc' : cur < 64) (hy : (s.pte (slotAt (base cur + tmp))).present = false)
    {others : Option (List Nat)} (hps : ∀ ps, others = some ps → Others cur ps) :
    (∃ s', doNoPage s cur tmp others = .error (.oom s') ∧ Quiet lo hi s own s') ∨
      ∃ r s', doNoPage s cur tmp others = .ok (r, s') ∧ NoPage lo hi s own cur tmp others r s' := by
  unfold doNoPage
  cases others with
  | none =>
    dsimp only
    rcases getEmptyPage_spec h (userAddr_task hc hc' ht) hy with
      ⟨s', e, i, d, f, k⟩ | ⟨f, s1, s', e, hf, hput⟩
    · exact Or.inl ⟨s', by rw [e]; rfl, i, d, f, k⟩
    · exact Or.inr ⟨none, s', by rw [e]; rfl, .empty hf hput⟩
  | some ps =>
    dsimp only
    rcases sharePage_spec h ht hc hc' hy ps (hps ps rfl) with
      ⟨e, hn⟩ | ⟨p, hp, _, ⟨e, _⟩ | ⟨s', e, htk⟩⟩
    · rw [e]
      dsimp only [bind, Except.bind]
      rw [if_neg (by decide)]
      cases hg : getFreePage s with
      | none => exact Or.inl ⟨s, rfl, Quiet.refl h⟩
      | some r =>
        obtain ⟨f, s1⟩ := r
        exact Or.inr ⟨some f, s1, rfl, .read hn (getFreePage_spec h hg)⟩
    · exact Or.inl ⟨s, by rw [e]; rfl, Quiet.refl h⟩
    · exact Or.inr ⟨none, s', by rw [e]; rfl, .shared hp htk⟩

/-- The kernel may write what it likes into a page it holds. -/
theorem MemInv.fill (h : MemInv lo hi s own) {f : Nat} (hf : f ∈ own) (p : Page) :
    MemInv lo hi (s.setPage f p) own ∧ (s.setPage f p).dir = s.dir ∧
      ∀ z ∈ userSlots, (s.setPage f p).pte z = s.pte z := by
  have hr := h.refs.ownRange f hf
  have hb := h.bounds
  have hdir : (s.setPage f p).dir = s.dir := by
    funext d
    unfold Mem.dir
    rw [Mem.setPage_mem, if_neg (by omega)]
  have hpte : ∀ z ∈ userSlots, (s.setPage f p).pte z = s.pte z := by
    intro z hz
    unfold Mem.pte
    rw [hdir]
    split_ifs with hpz
    · rw [Mem.setPage_mem, if_neg]
      intro he
      exact h.refs.dirOwn z.1 (mem_userSlots.mp hz).1 hpz (by rw [viewOf_dir, he]; exact hf)
    · rfl
  refine ⟨?_, hdir, hpte⟩
  refine h.step h.refs (fun _ _ _ => rfl) (fun d _ => by rw [hdir]; rfl) hpte rfl rfl
    (fun d _ => by rw [hdir]) ?_
  intro d hd i
  rw [Mem.setPage_mem, if_neg (by omega)]

/-- The end of `do_no_page`: the page is mapped with its contents, or freed before `oom()`. -/
theorem doNoPageRead_spec (h : MemInv lo hi s own) {f a : Nat} (ha : UserAddr a) (hf : f ∈ own)
    (hp : (s.pte (slotAt a)).present = false) (c : Page) :
    (∃ s', doNoPageRead s f a c = .error (.oom s') ∧ MemInv lo hi s' (own.erase f) ∧
        s'.dir = s.dir ∧ (∀ z ∈ userSlots, Fixed s s' z) ∧
        ∀ g, g ≠ f → (s'.mem g).byte = (s.mem g).byte) ∨
      ∃ s', doNoPageRead s f a c = .ok s' ∧ Put lo hi (s.setPage f c) own f (slotAt a) s' := by
  have hx := slotAt_mem ha
  obtain ⟨i1, d1, p1⟩ := h.fill hf c
  have hfix : ∀ z ∈ userSlots, Fixed s (s.setPage f c) z := by
    intro z hz
    refine Fixed.of_pte (p1 z hz) fun g hpz hzg => ?_
    rw [Mem.setPage_mem, if_neg]
    exact fun hgf => h.refs.ownPte f hf z hz hpz (hzg.trans hgf)
  unfold doNoPageRead
  dsimp only
  cases hput : putPage (s.setPage f c) f a with
  | some s' =>
    exact Or.inr ⟨s', rfl, putPage_spec i1 ha hf (by rw [p1 _ hx]; exact hp) hput⟩
  | none =>
    left
    obtain ⟨s2, e2, i2, m2⟩ := freePage_owned i1 hf
    refine ⟨s2, by dsimp only; rw [e2]; rfl, i2, ?_, ?_, ?_⟩
    · rw [← d1]; exact Mem.dir_of_mem (fun g => by rw [m2])
    · intro z hz
      refine (hfix z hz).trans (Fixed.of_pte (Mem.pte_of_mem (fun g => by rw [m2]) z) ?_)
      intro g _ _
      rw [m2]
    · intro g hne
      rw [m2, Mem.setPage_mem, if_neg hne]

end Linux011.Mm
