/-
  memory.c as a transition system: the page-management functions are issued in any order, on
  behalf of any of the 64 tasks. The state is the memory and the set of frames the kernel holds
  (task structures, pipe buffers, malloc pages, argument pages of an exec not yet mapped, the
  page a fault is being read into). `Op.Pre` is what the callers promise; it says nothing about
  counts. `do_no_page` sleeps in `bread_page`, so it is two operations.

  The accounting law holds in every reachable state (`page_frame_accounting`).
-/
import Linux011.Lib.Trans
import Linux011.Mm.Pages

namespace Linux011.Mm

open Linux011.Lib

structure Kern where
  mm : Mem
  own : Finset Nat

inductive Op
  | getFreePage
  | freePage (f : Nat)
  | putPage (f address : Nat)
  | getEmptyPage (address : Nat)
  | copyPageTables (p c size : Nat)
  | freePageTables (t size : Nat)
  | doWpPage (address : Nat)
  | writeVerify (address : Nat)
  | tryToShare (address p c : Nat)
  | doNoPage (t tmp : Nat) (others : Option (List Nat))
  | doNoPageRead (f address : Nat) (contents : Page)

namespace Op

/-- What the callers promise: the kernel frees and maps only pages it obtained, a page is put
    where none is present (that is why the fault happened), a write-protection fault happens on
    a present entry, regions are those of tasks. -/
def Pre (k : Kern) : Op → Prop
  | getFreePage => True
  | freePage f => f ∈ k.own
  | putPage f a => f ∈ k.own ∧ UserAddr a ∧ (k.mm.pte (slotAt a)).present = false
  | getEmptyPage a => UserAddr a ∧ (k.mm.pte (slotAt a)).present = false
  | copyPageTables p c size => p < 64 ∧ 1 ≤ c ∧ c < 64 ∧ p ≠ c ∧ CopySize p size
  | freePageTables t size => 1 ≤ t ∧ t < 64 ∧ size ≤ 0x4000000
  | doWpPage a => UserAddr a ∧ (k.mm.pte (slotAt a)).present = true
  | writeVerify a => a < 2 ^ 32
  | tryToShare a p c => a < 0x4000000 ∧ 1 ≤ p ∧ p < 64 ∧ 1 ≤ c ∧ c < 64 ∧ p ≠ c
  | doNoPage t tmp others => tmp < 0x4000000 ∧ 1 ≤ t ∧ t < 64 ∧
      (k.mm.pte (slotAt (base t + tmp))).present = false ∧
      ∀ ps, others = some ps → Others t ps
  | doNoPageRead f a _ => f ∈ k.own ∧ UserAddr a ∧ (k.mm.pte (slotAt a)).present = false

/-- The operation, with the bookkeeping of the frames the kernel holds. -/
def run (k : Kern) : Op → Except Stop Kern
  | getFreePage => match Mm.getFreePage k.mm with
    | none => .ok k
    | some (f, s) => .ok ⟨s, insert f k.own⟩
  | freePage f => (Mm.freePage k.mm (f * 4096)).map (⟨·, k.own.erase f⟩)
  | putPage f a => match Mm.putPage k.mm f a with
    | none => .ok k
    | some s => .ok ⟨s, k.own.erase f⟩
  | getEmptyPage a => (Mm.getEmptyPage k.mm a).map (⟨·, k.own⟩)
  | copyPageTables p c size =>
    (Mm.copyPageTables k.mm (base p) (base c) size).map (⟨·.2, k.own⟩)
  | freePageTables t size => (Mm.freePageTables k.mm (base t) size).map (⟨·, k.own⟩)
  | doWpPage a => (Mm.doWpPage k.mm a).map (⟨·, k.own⟩)
  | writeVerify a => (Mm.writeVerify k.mm a).map (⟨·, k.own⟩)
  | tryToShare a p c => (Mm.tryToShare k.mm a (base p) (base c)).map (⟨·.2, k.own⟩)
  | doNoPage t tmp others => (Mm.doNoPage k.mm t tmp others).map fun r =>
      ⟨r.2, match r.1 with | none => k.own | some f => insert f k.own⟩
  | doNoPageRead f a c => (Mm.doNoPageRead k.mm f a c).map (⟨·, k.own.erase f⟩)

/-- The frames the kernel holds when the operation ends in `oom()`: `do_no_page` has freed the
    page it was reading. -/
def ownOom (k : Kern) : Op → Finset Nat
  | doNoPageRead f _ _ => k.own.erase f
  | _ => k.own

end Op

/-- memory.c after `mem_init(lo * 4096, hi * 4096)`. -/
def opSystem (lo hi : Nat) : Lts Kern Op where
  init k := ∃ s, Boot s ∧ k = ⟨memInit s (lo * 4096) (hi * 4096), ∅⟩
  step k op k' := op.Pre k ∧
    (op.run k = .ok k' ∨ ∃ s, op.run k = .error (.oom s) ∧ k' = ⟨s, op.ownOom k⟩)

/-! ## mem_init -/

theorem clearMap_apply (m : Nat → Nat) (i : Nat) : ∀ n j,
    clearMap m i n j = if i ≤ j ∧ j < i + n then 0 else m j
  | 0, j => by rw [clearMap, if_neg (by omega)]
  | n + 1, j => by
    rw [clearMap, Function.update_apply, clearMap_apply m i n j]
    by_cases h : j = i + n
    · rw [if_pos h, if_pos (by omega)]
    · rw [if_neg h]
      have hiff : (i ≤ j ∧ j < i + n) ↔ (i ≤ j ∧ j < i + (n + 1)) := by omega
      simp only [hiff]

/-- `mem_init` establishes the invariant: nothing is mapped, every managed count is 0. -/
theorem memInit_inv {lo hi : Nat} (h1 : 256 ≤ lo) (h2 : lo ≤ hi) (h3 : hi ≤ 4096) {s : Mem}
    (hb : Boot s) : MemInv lo hi (memInit s (lo * 4096) (hi * 4096)) ∅ := by
  have hdir : (memInit s (lo * 4096) (hi * 4096)).dir = s.dir := rfl
  have hcnt : ∀ f, 256 ≤ f → (memInit s (lo * 4096) (hi * 4096)).memMap (f - 256) =
      if lo ≤ f ∧ f < hi then 0 else used := by
    intro f hf
    have hn : (hi * 4096 - lo * 4096) >>> 12 = hi - lo := by
      rw [Nat.shiftRight_eq_div_pow]; omega
    have hiff : (lo - 256 ≤ f - 256 ∧ f - 256 < lo - 256 + (hi - lo)) ↔ (lo ≤ f ∧ f < hi) := by
      omega
    simp only [memInit, mapNr_addr, hn, clearMap_apply, hiff]
  have hd : ∀ d, UserDir d → ((memInit s (lo * 4096) (hi * 4096)).dir d).present = false := by
    intro d hd
    rw [hdir, hb.empty d hd.1 hd.2]
    rfl
  have hp : ∀ x ∈ userSlots, ((memInit s (lo * 4096) (hi * 4096)).pte x).present = false := by
    intro x hx
    rw [Mem.pte_of_absent _ (hd x.1 (mem_userSlots.mp hx).1)]
    rfl
  have nod : ∀ {d : Nat} {P : Prop}, UserDir d →
      ((memInit s (lo * 4096) (hi * 4096)).dir d).present = true → P :=
    fun hu hpr => absurd ((hd _ hu).symm.trans hpr) (by decide)
  have nop : ∀ {x : Nat × Nat} {P : Prop}, x ∈ userSlots →
      ((memInit s (lo * 4096) (hi * 4096)).pte x).present = true → P :=
    fun hx hpr => absurd ((hp _ hx).symm.trans hpr) (by decide)
  refine ⟨⟨h1, h2, h3⟩, rfl, ?_, fun d hd4 => hb.ident d hd4, ?_⟩
  · refine ⟨fun d hu hpr => nod hu hpr, fun d d' hu _ hpr _ _ => nod hu hpr,
      fun d hu hpr => nod hu hpr, fun d hu hpr => nod hu hpr, fun x hx hpr => nop hx hpr,
      fun x hx hpr => nop hx hpr, fun x hx _ _ hpr _ _ _ => nop hx hpr,
      fun x hx _ _ hpr _ _ _ _ => nop hx hpr, fun f hf => absurd hf (Finset.notMem_empty f),
      fun f hf => absurd hf (Finset.notMem_empty f), ?_, ?_⟩
    · intro f hf1 hf2
      have hr : (viewOf (memInit s (lo * 4096) (hi * 4096)) ∅).refs f = 0 := by
        have e1 : (viewOf (memInit s (lo * 4096) (hi * 4096)) ∅).pteRefs f = 0 :=
          card_filter_zero.mpr fun x hx hm => nop hx hm.1
        have e2 : (viewOf (memInit s (lo * 4096) (hi * 4096)) ∅).dirRefs f = 0 :=
          card_filter_zero.mpr fun d hd' hm => nod (mem_userDirs.mp hd') hm.1
        simp only [View.refs, e1, e2]
        rfl
      rw [hr]
      exact (hcnt f (by omega)).trans (if_pos ⟨hf1, hf2⟩)
    · intro f hf1 hf2 hf3
      exact (hcnt f hf1).trans (if_neg hf3)
  · intro d hd4 i hi'
    have he : ((memInit s (lo * 4096) (hi * 4096)).mem (d + 1)).entry i =
        Entry.seven (1024 * d + i) := hb.entry d hd4 i hi'
    rw [he]
    exact ⟨rfl, rfl, rfl⟩

/-- The memory head.s leaves, with zero bytes everywhere. -/
def headMem : Mem where
  memMap _ := 0
  highMemory := 0
  mem f := {
    entry := fun i =>
      if f = 0 then (if i < 4 then Entry.seven (i + 1) else Entry.zero)
      else if f ≤ 4 then Entry.seven (1024 * (f - 1) + i) else Entry.zero
    byte := fun _ => 0 }

theorem headMem_boot : Boot headMem := by
  refine ⟨fun d hd => ?_, fun d hd _ => ?_, fun d hd i _ => ?_⟩
  · simp [Mem.dir, headMem, hd]
  · simp [Mem.dir, headMem, Nat.not_lt.mpr hd]
  · have h1 : d + 1 ≤ 4 := by omega
    simp [headMem, h1]

/-! ## Every operation keeps the invariant -/

/-- How an operation can end: normally or in `oom()` with the invariant, or in one of two
    panics, neither of them from `free_page`. -/
def Ends (lo hi : Nat) (k : Kern) (op : Op) : Prop :=
  (∃ k', op.run k = .ok k' ∧ MemInv lo hi k'.mm k'.own) ∨
    (∃ s, op.run k = .error (.oom s) ∧ MemInv lo hi s (op.ownOom k)) ∨
    op.run k = .error (.panic "copy_page_tables: already exist") ∨
    op.run k = .error (.panic "try_to_share: to_page already exists")

variable {lo hi : Nat} {k : Kern}

theorem unWpPage_ends (h : MemInv lo hi k.mm k.own) {op : Op} {x : Nat × Nat}
    (hx : x ∈ userSlots) (hp : (k.mm.pte x).present)
    (hr : op.run k = (unWpPage k.mm (k.mm.dir x.1).frame x.2).map (⟨·, k.own⟩))
    (ho : op.ownOom k = k.own) : Ends lo hi k op := by
  rcases unWpPage_spec h hx hp with e | ⟨s', e, hu⟩
  · exact Or.inr (Or.inl ⟨k.mm, by rw [hr, e]; rfl, by rw [ho]; exact h⟩)
  · exact Or.inl ⟨_, by rw [hr, e]; rfl, hu.inv⟩

theorem Op.ends (h : MemInv lo hi k.mm k.own) (op : Op) (hpre : op.Pre k) :
    Ends lo hi k op := by
  cases op with
  | getFreePage =>
    left
    cases hg : Mm.getFreePage k.mm with
    | none => exact ⟨k, by rw [Op.run, hg], h⟩
    | some r => exact ⟨⟨r.2, insert r.1 k.own⟩, by rw [Op.run, hg], (getFreePage_spec h hg).inv⟩
  | freePage f =>
    obtain ⟨s', e, i, _⟩ := freePage_owned h hpre
    exact Or.inl ⟨_, by rw [Op.run, e]; rfl, i⟩
  | putPage f a =>
    left
    cases hput : Mm.putPage k.mm f a with
    | none => exact ⟨k, by rw [Op.run, hput], h⟩
    | some s' =>
      exact ⟨⟨s', k.own.erase f⟩, by rw [Op.run, hput],
        (putPage_spec h hpre.2.1 hpre.1 hpre.2.2 hput).inv⟩
  | getEmptyPage a =>
    rcases getEmptyPage_spec h hpre.1 hpre.2 with ⟨s', e, i, _⟩ | ⟨f, s1, s', e, hf, hput⟩
    · exact Or.inr (Or.inl ⟨s', by rw [Op.run, e]; rfl, i⟩)
    · refine Or.inl ⟨_, by rw [Op.run, e]; rfl, ?_⟩
      have := hput.inv
      rw [Finset.erase_insert hf.notOwn] at this
      exact this
  | copyPageTables p c size =>
    obtain ⟨h1, h2, h3, h4, h5⟩ := hpre
    rcases copyPageTables_spec h h1 h2 h3 h4 h5 with e | ⟨ok, s', e, hc⟩
    · exact Or.inr (Or.inr (Or.inl (by rw [Op.run, e]; rfl)))
    · exact Or.inl ⟨_, by rw [Op.run, e]; rfl, hc.inv⟩
  | freePageTables t size =>
    obtain ⟨s', e, hf⟩ := freePageTables_spec h hpre.1 hpre.2.1 hpre.2.2
    exact Or.inl ⟨_, by rw [Op.run, e]; rfl, hf.inv⟩
  | doWpPage a => exact unWpPage_ends h (slotAt_mem hpre.1) hpre.2 rfl rfl
  | writeVerify a =>
    rcases writeVerify_spec h hpre with ⟨e, _⟩ | ⟨_, _, _, e | ⟨s', e, hu⟩⟩
    · exact Or.inl ⟨k, by rw [Op.run, e]; rfl, h⟩
    · exact Or.inr (Or.inl ⟨k.mm, by rw [Op.run, e]; rfl, h⟩)
    · exact Or.inl ⟨_, by rw [Op.run, e]; rfl, hu.inv⟩
  | tryToShare a p c =>
    obtain ⟨h1, h2, h3, h4, h5, h6⟩ := hpre
    rcases tryToShare_spec h h1 h2 h3 h4 h5 h6 with ⟨e, _⟩ | ⟨_, ⟨e, _⟩ | ⟨e, _⟩ | ⟨s', e, ht⟩⟩
    · exact Or.inl ⟨k, by rw [Op.run, e]; rfl, h⟩
    · exact Or.inr (Or.inl ⟨k.mm, by rw [Op.run, e]; rfl, h⟩)
    · exact Or.inr (Or.inr (Or.inr (by rw [Op.run, e]; rfl)))
    · exact Or.inl ⟨_, by rw [Op.run, e]; rfl, ht.inv⟩
  | doNoPage t tmp others =>
    obtain ⟨h1, h2, h3, h4, h5⟩ := hpre
    rcases doNoPage_spec h h1 h2 h3 h4 h5 with ⟨s', e, hq⟩ | ⟨r, s', e, hn⟩
    · exact Or.inr (Or.inl ⟨s', by rw [Op.run, e]; rfl, hq.inv⟩)
    · refine Or.inl ⟨_, by rw [Op.run, e]; rfl, ?_⟩
      cases hn with
      | empty hf hput =>
        have := hput.inv
        rw [Finset.erase_insert hf.notOwn] at this
        exact this
      | shared _ ht => exact ht.inv
      | read _ hf => exact hf.inv
  | doNoPageRead f a c =>
    rcases doNoPageRead_spec h hpre.2.1 hpre.1 hpre.2.2 c with ⟨s', e, i, _⟩ | ⟨s', e, hput⟩
    · exact Or.inr (Or.inl ⟨s', by rw [Op.run, e]; rfl, i⟩)
    · exact Or.inl ⟨_, by rw [Op.run, e]; rfl, hput.inv⟩

/-- The invariant holds in every reachable state. -/
theorem opSystem_inv (h1 : 256 ≤ lo) (h2 : lo ≤ hi) (h3 : hi ≤ 4096)
    (h : (opSystem lo hi).Reachable k) : MemInv lo hi k.mm k.own := by
  refine h.invariant (I := fun k => MemInv lo hi k.mm k.own) ?_ ?_
  · rintro _ ⟨s, hb, rfl⟩
    exact memInit_inv h1 h2 h3 hb
  · rintro k op k' _ hi' ⟨hpre, hr⟩
    rcases op.ends hi' hpre with ⟨k1, e, i⟩ | ⟨s1, e, i⟩ | e | e
    · rcases hr with hr | ⟨s, hr, _⟩
      · rw [e] at hr; cases hr; exact i
      · rw [e] at hr; cases hr
    · rcases hr with hr | ⟨s, hr, rfl⟩
      · rw [e] at hr; cases hr
      · rw [e] at hr; cases hr; exact i
    · rcases hr with hr | ⟨s, hr, _⟩ <;> (rw [e] at hr; cases hr)
    · rcases hr with hr | ⟨s, hr, _⟩ <;> (rw [e] at hr; cases hr)

/-! ## Page-frame accounting -/

/-- In every reachable state the count of a managed frame is the number of page-table entries,
    directory entries and kernel owners that refer to it. It is at most 66, so the
    `unsigned char` does not wrap; no operation ends in a panic of `free_page`; and
    `get_free_page` returns a frame that is not mapped, not a table and not held. -/
theorem page_frame_accounting (lo hi : Nat) (h1 : 256 ≤ lo) (h2 : lo ≤ hi) (h3 : hi ≤ 4096)
    (k : Kern) (h : (opSystem lo hi).Reachable k) :
    (∀ f, lo ≤ f → f < hi →
      k.mm.memMap (f - 256) =
        (userSlots.filter fun x => (k.mm.pte x).present = true ∧ (k.mm.pte x).frame = f).card +
        (userDirs.filter fun d => (k.mm.dir d).present = true ∧ (k.mm.dir d).frame = f).card +
        (if f ∈ k.own then 1 else 0) ∧
      k.mm.memMap (f - 256) ≤ 66) ∧
    (∀ op : Op, op.Pre k →
      op.run k ≠ .error (.panic "trying to free free page") ∧
      op.run k ≠ .error (.panic "trying to free nonexistent page")) ∧
    (∀ f s', getFreePage k.mm = some (f, s') → f ∉ k.own ∧
      (∀ x ∈ userSlots, (k.mm.pte x).present → (k.mm.pte x).frame ≠ f) ∧
      ∀ d ∈ userDirs, (k.mm.dir d).present → (k.mm.dir d).frame ≠ f) := by
  have hinv := opSystem_inv h1 h2 h3 h
  refine ⟨fun f hf1 hf2 => ⟨?_, hinv.cnt_le hf1 hf2⟩, fun op hpre => ?_, fun f s' hg => ?_⟩
  · rw [hinv.acct hf1 hf2]
    rfl
  · rcases op.ends hinv hpre with ⟨k1, e, _⟩ | ⟨s1, e, _⟩ | e | e <;> rw [e] <;> simp
  · have hf := getFreePage_spec hinv hg
    exact ⟨hf.notOwn, hf.notMapped, fun d hd hp => hf.notTable d (mem_userDirs.mp hd) hp⟩

/-- 16 MB with 4 MB of kernel and buffers: the first page taken is frame 4095, and its count is
    its one kernel owner. -/
theorem page_frame_accounting_first_page :
    ∃ k, (opSystem 1024 4096).Reachable k ∧ k.own = {4095} ∧
      k.mm.memMap (4095 - 256) =
        (userSlots.filter fun x => (k.mm.pte x).present = true ∧ (k.mm.pte x).frame = 4095).card +
        (userDirs.filter fun d => (k.mm.dir d).present = true ∧ (k.mm.dir d).frame = 4095).card +
        1 := by
  set k0 : Kern := ⟨memInit headMem (1024 * 4096) (4096 * 4096), ∅⟩ with hk0
  have h0 : k0.mm.memMap 3839 = 0 := by
    rw [hk0]
    simp only [memInit, mapNr_addr, clearMap_apply]
    rw [if_pos (by decide)]
  have hget : getFreePage k0.mm = some (4095, (k0.mm.setMap 3839 1).setPage 4095 Page.zero) := by
    unfold getFreePage
    rw [show pagingPages = 3839 + 1 by decide, findFree, if_pos h0]
    rfl
  have hrun : Op.run k0 .getFreePage =
      .ok ⟨(k0.mm.setMap 3839 1).setPage 4095 Page.zero, insert 4095 ∅⟩ := by
    unfold Op.run
    rw [hget]
  have hr : (opSystem 1024 4096).Reachable
      ⟨(k0.mm.setMap 3839 1).setPage 4095 Page.zero, insert 4095 ∅⟩ :=
    .step (e := .getFreePage) (.init ⟨headMem, headMem_boot, rfl⟩) ⟨trivial, Or.inl hrun⟩
  have hacc := page_frame_accounting 1024 4096 (by omega) (by omega) (by omega) _ hr
  refine ⟨_, hr, rfl, ?_⟩
  have := (hacc.1 4095 (by omega) (by omega)).1
  rwa [if_pos (Finset.mem_insert_self _ _)] at this

end Linux011.Mm
