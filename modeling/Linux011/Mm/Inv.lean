/-
  The invariant of the memory: its reference graph (`viewOf`) satisfies `RefInv`, and the four
  kernel identity tables are in place. Specifications of the functions of memory.c that change
  one reference: `get_free_page`, `free_page`, the store of one table word.

  `Fixed s s' x`: slot `x` holds the same entry up to R/W and the page behind it has the same
  bytes. This is what the rest of the system may rely on while one task's tables change.
-/
import Linux011.Mm.Refs

namespace Linux011.Mm

/-! ## Reading back stores -/

namespace Mem

variable (s : Mem)

@[simp] theorem setEntry_memMap (t i e) : (s.setEntry t i e).memMap = s.memMap := rfl
@[simp] theorem setEntry_high (t i e) : (s.setEntry t i e).highMemory = s.highMemory := rfl
@[simp] theorem setPage_memMap (f p) : (s.setPage f p).memMap = s.memMap := rfl
@[simp] theorem setPage_high (f p) : (s.setPage f p).highMemory = s.highMemory := rfl
@[simp] theorem setMap_mem (n v) : (s.setMap n v).mem = s.mem := rfl
@[simp] theorem setMap_high (n v) : (s.setMap n v).highMemory = s.highMemory := rfl
@[simp] theorem incMap_mem (n) : (s.incMap n).mem = s.mem := rfl
@[simp] theorem decMap_mem (n) : (s.decMap n).mem = s.mem := rfl
@[simp] theorem incMap_high (n) : (s.incMap n).highMemory = s.highMemory := rfl
@[simp] theorem decMap_high (n) : (s.decMap n).highMemory = s.highMemory := rfl

theorem setMap_memMap (n v m) :
    (s.setMap n v).memMap m = if m = n then v else s.memMap m := by
  simp [setMap, Function.update_apply]

theorem setPage_mem (f p g) : (s.setPage f p).mem g = if g = f then p else s.mem g := by
  simp [setPage, Function.update_apply]

@[simp] theorem setEntry_byte (t i e f) : ((s.setEntry t i e).mem f).byte = (s.mem f).byte := by
  by_cases h : f = t
  · subst h; simp [setEntry]
  · simp [setEntry, Function.update_of_ne h]

theorem setEntry_entry (t i e f j) : ((s.setEntry t i e).mem f).entry j =
    if f = t ∧ j = i then e else (s.mem f).entry j := by
  by_cases h : f = t
  · subst h; simp [setEntry, Function.update_apply]
  · simp [setEntry, h]

theorem setEntry_comm {t t' : Nat} (ht : t ≠ t') (i e i' e') :
    (s.setEntry t i e).setEntry t' i' e' = (s.setEntry t' i' e').setEntry t i e := by
  simp only [setEntry, Function.update_of_ne ht, Function.update_of_ne ht.symm]
  rw [Function.update_comm ht]

theorem setEntry_dir (t i e d) :
    (s.setEntry t i e).dir d = if t = 0 ∧ d = i then e else s.dir d := by
  unfold dir
  rw [setEntry_entry]
  simp only [eq_comm]

theorem setEntry_dir_of_ne {t : Nat} (ht : t ≠ 0) (i e) : (s.setEntry t i e).dir = s.dir := by
  funext d
  rw [setEntry_dir, if_neg (fun h => ht h.1)]

theorem setDir_dir (d d' e) : (s.setDir d e).dir d' = if d' = d then e else s.dir d' := by
  unfold setDir
  rw [setEntry_dir]
  simp

@[simp] theorem setDir_memMap (d e) : (s.setDir d e).memMap = s.memMap := rfl
@[simp] theorem setDir_high (d e) : (s.setDir d e).highMemory = s.highMemory := rfl

@[simp] theorem setDir_byte (d e f) : ((s.setDir d e).mem f).byte = (s.mem f).byte :=
  s.setEntry_byte 0 d e f

theorem setDir_mem_of_ne {f : Nat} (hf : f ≠ 0) (d e) : (s.setDir d e).mem f = s.mem f := by
  simp [setDir, setEntry, Function.update_of_ne hf]

/-- The page-table entry of slot `x`; the word 0 where there is no table. -/
def pte (x : Nat × Nat) : Entry :=
  if (s.dir x.1).present then (s.mem (s.dir x.1).frame).entry x.2 else Entry.zero

theorem pte_of_present {x : Nat × Nat} (h : (s.dir x.1).present) :
    s.pte x = (s.mem (s.dir x.1).frame).entry x.2 := if_pos h

theorem pte_of_absent {x : Nat × Nat} (h : (s.dir x.1).present = false) :
    s.pte x = Entry.zero := by
  unfold pte; rw [h]; rfl

theorem dir_present_of_pte {x : Nat × Nat} (h : (s.pte x).present) : (s.dir x.1).present := by
  cases hd : (s.dir x.1).present with
  | true => rfl
  | false => rw [s.pte_of_absent hd] at h; cases h

theorem dir_of_mem {s s' : Mem} (h : ∀ f, s.mem f = s'.mem f) : s.dir = s'.dir := by
  funext d
  unfold dir
  rw [h]

theorem pte_of_mem {s s' : Mem} (h : ∀ f, s.mem f = s'.mem f) (x : Nat × Nat) :
    s.pte x = s'.pte x := by
  unfold pte
  rw [dir_of_mem h, h]

end Mem

/-- The reference graph of memory `s` when the kernel holds the frames `own`. -/
def viewOf (s : Mem) (own : Finset Nat) : View :=
  ⟨fun f => s.memMap (f - 256), s.dir, s.pte, own⟩

@[simp] theorem viewOf_pte (s own) : (viewOf s own).pte = s.pte := rfl
@[simp] theorem viewOf_dir (s own) : (viewOf s own).dir = s.dir := rfl

/-- The invariant of the memory, for managed frames `lo ≤ f < hi`. -/
structure MemInv (lo hi : Nat) (s : Mem) (own : Finset Nat) : Prop where
  bounds : 256 ≤ lo ∧ lo ≤ hi ∧ hi ≤ 4096
  high : s.highMemory = hi * 4096
  refs : RefInv lo hi (viewOf s own)
  ident : ∀ d < 4, s.dir d = Entry.seven (d + 1)
  identEntry : ∀ d < 4, ∀ i < 1024, ((s.mem (d + 1)).entry i).present = true ∧
    ((s.mem (d + 1)).entry i).rw = true ∧ ((s.mem (d + 1)).entry i).frame = 1024 * d + i

/-- The page tables outside the identity tables are different frames, and not frame 0. -/
def DirsOk (dir : Nat → Entry) : Prop :=
  (∀ d, UserDir d → (dir d).present → (dir d).frame ≠ 0) ∧
    ∀ d d', UserDir d → UserDir d' → (dir d).present → (dir d').present →
      (dir d).frame = (dir d').frame → d = d'

/-- Slot `x` keeps its entry up to R/W, and the page behind it keeps its bytes. -/
def Fixed (s s' : Mem) (x : Nat × Nat) : Prop :=
  (s'.pte x).clearRw = (s.pte x).clearRw ∧
    ((s.pte x).present → (s'.mem (s.pte x).frame).byte = (s.mem (s.pte x).frame).byte)

namespace Fixed

variable {s s' s'' : Mem} {x : Nat × Nat}

theorem refl : Fixed s s x := ⟨rfl, fun _ => rfl⟩

theorem present (h : Fixed s s' x) : (s'.pte x).present = (s.pte x).present := by
  simpa using congrArg Entry.present h.1

theorem frame (h : Fixed s s' x) : (s'.pte x).frame = (s.pte x).frame := by
  simpa using congrArg Entry.frame h.1

theorem dirty (h : Fixed s s' x) : (s'.pte x).dirty = (s.pte x).dirty := by
  simpa using congrArg Entry.dirty h.1

theorem trans (h : Fixed s s' x) (h' : Fixed s' s'' x) : Fixed s s'' x := by
  refine ⟨h'.1.trans h.1, fun hp => ?_⟩
  have hb := h'.2 (h.present ▸ hp)
  rw [h.frame] at hb
  exact hb.trans (h.2 hp)

theorem of_pte (h : s'.pte x = s.pte x)
    (hb : ∀ f, (s.pte x).present → (s.pte x).frame = f → (s'.mem f).byte = (s.mem f).byte) :
    Fixed s s' x :=
  ⟨by rw [h], fun hp => hb _ hp rfl⟩

end Fixed

namespace MemInv

variable {lo hi : Nat} {s s' : Mem} {own own' : Finset Nat}

/-- The invariant of `s'` from a graph `V` that it realises. -/
theorem step (h : MemInv lo hi s own) {V : View} (hV : RefInv lo hi V)
    (hcnt : ∀ f, 256 ≤ f → f < 4096 → s'.memMap (f - 256) = V.cnt f)
    (hdir : ∀ d, UserDir d → s'.dir d = V.dir d)
    (hpte : ∀ x ∈ userSlots, s'.pte x = V.pte x) (hown : own' = V.own)
    (hhigh : s'.highMemory = s.highMemory)
    (hk : ∀ d < 4, s'.dir d = s.dir d)
    (hke : ∀ d < 4, ∀ i, (s'.mem (d + 1)).entry i = (s.mem (d + 1)).entry i) :
    MemInv lo hi s' own' := by
  refine ⟨h.bounds, hhigh.trans h.high, ?_, ?_, ?_⟩
  · exact hV.congr h.bounds.2.2 h.bounds.1 hcnt hdir hpte hown
  · intro d hd; rw [hk d hd]; exact h.ident d hd
  · intro d hd i hi'; rw [hke d hd i]; exact h.identEntry d hd i hi'

theorem dir_range (h : MemInv lo hi s own) {d : Nat} (hd : UserDir d) (hp : (s.dir d).present) :
    lo ≤ (s.dir d).frame ∧ (s.dir d).frame < hi := h.refs.dirRange d hd hp

theorem dir_ne_zero (h : MemInv lo hi s own) {d : Nat} (hd : UserDir d)
    (hp : (s.dir d).present) : (s.dir d).frame ≠ 0 := by
  have := h.dir_range hd hp
  have := h.bounds
  omega

theorem pte_range (h : MemInv lo hi s own) {x : Nat × Nat} (hx : x ∈ userSlots)
    (hp : (s.pte x).present) : (lo ≤ (s.pte x).frame ∧ (s.pte x).frame < hi) ∨
      ((s.pte x).frame < 256 ∧ (s.pte x).rw = false) := h.refs.pteRange x hx hp

theorem acct (h : MemInv lo hi s own) {f : Nat} (h1 : lo ≤ f) (h2 : f < hi) :
    s.memMap (f - 256) = (viewOf s own).refs f := h.refs.acct f h1 h2

/-- A mapped managed frame has a positive count. -/
theorem pte_pos (h : MemInv lo hi s own) {x : Nat × Nat} (hx : x ∈ userSlots)
    (hp : (s.pte x).present) (h1 : lo ≤ (s.pte x).frame) (h2 : (s.pte x).frame < hi) :
    0 < s.memMap ((s.pte x).frame - 256) := by
  rw [h.acct h1 h2]
  exact View.refs_pos_of_pte hx ⟨hp, rfl⟩

/-- A page table has a positive count. -/
theorem dir_pos (h : MemInv lo hi s own) {d : Nat} (hd : UserDir d) (hp : (s.dir d).present) :
    0 < s.memMap ((s.dir d).frame - 256) := by
  rw [h.acct (h.dir_range hd hp).1 (h.dir_range hd hp).2]
  exact View.refs_pos_of_dir hd ⟨hp, rfl⟩

theorem own_pos (h : MemInv lo hi s own) {f : Nat} (hf : f ∈ own) : 0 < s.memMap (f - 256) := by
  rw [h.acct (h.refs.ownRange f hf).1 (h.refs.ownRange f hf).2]
  exact View.refs_pos_of_own hf

theorem dirs (h : MemInv lo hi s own) : DirsOk s.dir :=
  ⟨fun _ => h.dir_ne_zero, h.refs.dirInj⟩

end MemInv

namespace DirsOk

variable {s : Mem}

/-- Storing entry `e` in slot `x` of an existing table changes this slot only. -/
theorem pte_setEntry (h : DirsOk s.dir) {x y : Nat × Nat} (hx : UserDir x.1)
    (hp : (s.dir x.1).present) (hy : UserDir y.1) (e : Entry) :
    (s.setEntry (s.dir x.1).frame x.2 e).pte y = if y = x then e else s.pte y := by
  have hdir := s.setEntry_dir_of_ne (h.1 x.1 hx hp) x.2 e
  unfold Mem.pte
  rw [hdir]
  by_cases hpy : (s.dir y.1).present
  · rw [if_pos hpy, s.setEntry_entry]
    by_cases he : y = x
    · subst he; simp
    · have hne : ¬ ((s.dir y.1).frame = (s.dir x.1).frame ∧ y.2 = x.2) := by
        rintro ⟨h1, h2⟩
        exact he (Prod.ext (h.2 y.1 x.1 hy hx hpy hp h1) h2)
      rw [if_neg hne, if_neg he, if_pos hpy]
  · rw [if_neg hpy, if_neg hpy, if_neg]
    rintro rfl
    exact hpy hp

end DirsOk

namespace MemInv

variable {lo hi : Nat} {s s' : Mem} {own own' : Finset Nat}

/-- A store into a slot realises the change of the graph at that slot. -/
theorem setSlot (h : MemInv lo hi s own) {V : View} {x : Nat × Nat} {e : Entry}
    (hx : x ∈ userSlots) (hp : (s.dir x.1).present) (hs' : s'.dir = s.dir)
    (hmem : ∀ f, s'.mem f = (s.setEntry (s.dir x.1).frame x.2 e).mem f)
    (hhigh : s'.highMemory = s.highMemory)
    (hV : RefInv lo hi V) (hVd : V.dir = s.dir) (hVp : V.pte = Function.update s.pte x e)
    (hVo : own' = V.own)
    (hcnt : ∀ f, 256 ≤ f → f < 4096 → s'.memMap (f - 256) = V.cnt f) :
    MemInv lo hi s' own' := by
  have hxd := (mem_userSlots.mp hx).1
  have hr := h.dir_range hxd hp
  have hb := h.bounds
  refine h.step hV hcnt (fun d _ => by rw [hs', hVd]) ?_ hVo hhigh (fun d _ => by rw [hs']) ?_
  · intro y hy
    rw [Mem.pte_of_mem hmem, h.dirs.pte_setEntry hxd hp (mem_userSlots.mp hy).1, hVp, Function.update_apply]
  · intro d hd i
    rw [hmem, s.setEntry_entry, if_neg]
    rintro ⟨h1, _⟩
    omega

end MemInv

/-! ## get_free_page, free_page -/

theorem mapNr_addr (f : Nat) : mapNr (f * 4096) = f - 256 := by
  unfold mapNr lowMem
  rw [Nat.shiftRight_eq_div_pow]
  omega

theorem findFree_spec {m : Nat → Nat} {n k : Nat} (h : findFree m n = some k) :
    k < n ∧ m k = 0 := by
  induction n with
  | zero => cases h
  | succ n ih =>
    unfold findFree at h
    split_ifs at h with h0
    · cases h; exact ⟨Nat.lt_succ_self _, h0⟩
    · obtain ⟨h1, h2⟩ := ih h
      exact ⟨by omega, h2⟩

/-- What a successful `get_free_page` does: a frame without any reference, cleared, is now
    held by the kernel; nothing else moves. -/
structure Fresh (lo hi : Nat) (s : Mem) (own : Finset Nat) (f : Nat) (s' : Mem) : Prop where
  inv : MemInv lo hi s' (insert f own)
  range : lo ≤ f ∧ f < hi
  notOwn : f ∉ own
  notMapped : ∀ x ∈ userSlots, (s.pte x).present → (s.pte x).frame ≠ f
  notTable : ∀ d, UserDir d → (s.dir d).present → (s.dir d).frame ≠ f
  dir : s'.dir = s.dir
  pte : ∀ x ∈ userSlots, s'.pte x = s.pte x
  page : s'.mem f = Page.zero
  other : ∀ g, g ≠ f → s'.mem g = s.mem g
  memMap : ∀ n, s'.memMap n = if n = f - 256 then 1 else s.memMap n
  high : s'.highMemory = s.highMemory

theorem Fresh.fixed {lo hi f : Nat} {s s' : Mem} {own : Finset Nat}
    (h : Fresh lo hi s own f s') {x : Nat × Nat} (hx : x ∈ userSlots) : Fixed s s' x :=
  Fixed.of_pte (h.pte x hx) fun g hp he => by
    rw [h.other g (fun hg => h.notMapped x hx hp (he.trans hg))]

/-- `get_free_page` never returns a frame that is mapped, a table, or held. -/
theorem getFreePage_spec {lo hi f : Nat} {s s' : Mem} {own : Finset Nat}
    (h : MemInv lo hi s own) (hg : getFreePage s = some (f, s')) : Fresh lo hi s own f s' := by
  obtain ⟨n, hn, he⟩ := Option.map_eq_some_iff.mp hg
  simp only [Prod.mk.injEq] at he
  obtain ⟨rfl, rfl⟩ := he
  obtain ⟨hlt, h0⟩ := findFree_spec hn
  have hb := h.bounds
  have hlt' : n < 3840 := hlt
  have hrange : lo ≤ n + 256 ∧ n + 256 < hi := by
    by_contra hout
    have := h.refs.usedOut (n + 256) (by omega) (by omega) hout
    simp only [viewOf, Nat.add_sub_cancel] at this
    rw [h0] at this
    cases this
  have hcnt : (viewOf s own).cnt (n + 256) = 0 := by
    simpa only [viewOf, Nat.add_sub_cancel] using h0
  obtain ⟨hp, hd, ho⟩ := h.refs.free_refs hrange.1 hrange.2 hcnt
  have hother : ∀ g, g ≠ n + 256 →
      ((s.setMap n 1).setPage (n + 256) Page.zero).mem g = s.mem g := by
    intro g hg
    rw [Mem.setPage_mem, if_neg hg, Mem.setMap_mem]
  have hdir : ((s.setMap n 1).setPage (n + 256) Page.zero).dir = s.dir := by
    funext d
    unfold Mem.dir
    rw [hother 0 (by omega)]
  have hpte : ∀ x ∈ userSlots,
      ((s.setMap n 1).setPage (n + 256) Page.zero).pte x = s.pte x := by
    intro x hx
    unfold Mem.pte
    rw [hdir]
    by_cases hpx : (s.dir x.1).present
    · have hne : (s.dir x.1).frame ≠ n + 256 :=
        fun he => hd x.1 (mem_userSlots.mp hx).1 ⟨hpx, he⟩
      rw [if_pos hpx, if_pos hpx, hother _ hne]
    · rw [if_neg hpx, if_neg hpx]
  have hmap : ∀ m, ((s.setMap n 1).setPage (n + 256) Page.zero).memMap m =
      if m = n + 256 - 256 then 1 else s.memMap m := by
    intro m
    rw [Mem.setPage_memMap, Mem.setMap_memMap, Nat.add_sub_cancel]
  refine ⟨?_, hrange, ho, fun x hx hpx he => hp x hx ⟨hpx, he⟩,
    fun d hud hpd he => hd d hud ⟨hpd, he⟩, hdir, hpte, ?_, hother, hmap, rfl⟩
  · refine h.step (h.refs.alloc hrange.1 hrange.2 hcnt) ?_ (fun d _ => by rw [hdir]; rfl) hpte rfl
      rfl (fun d _ => by rw [hdir]) ?_
    · intro g hg1 hg2
      rw [hmap, View.take_cnt, View.setCnt_cnt]
      have : g - 256 = n + 256 - 256 ↔ g = n + 256 := by omega
      simp only [this, viewOf]
    · intro d hd4 i
      rw [hother (d + 1) (by omega)]
  · rw [Mem.setPage_mem, if_pos rfl]

/-- A fresh page becomes the table of an empty directory slot: no entry slot changes. -/
theorem Fresh.install {lo hi f d : Nat} {s s' : Mem} {own : Finset Nat}
    (h : Fresh lo hi s own f s') (hd : UserDir d) (hp : (s.dir d).present = false) :
    MemInv lo hi (s'.setDir d (Entry.seven f)) own ∧
      ∀ y ∈ userSlots, (s'.setDir d (Entry.seven f)).pte y = s.pte y := by
  have hb := h.inv.bounds
  have hr := h.range
  have hdir : ∀ d', (s'.setDir d (Entry.seven f)).dir d' =
      if d' = d then Entry.seven f else s.dir d' := by
    intro d'; rw [Mem.setDir_dir, h.dir]
  have hp' : (s'.dir d).present = false := by rw [h.dir]; exact hp
  have hpte : ∀ y ∈ userSlots, (s'.setDir d (Entry.seven f)).pte y = s.pte y := by
    intro y hy
    have hyd := (mem_userSlots.mp hy).1
    unfold Mem.pte
    rw [hdir]
    by_cases he : y.1 = d
    · -- the new table is a cleared page
      rw [if_pos he, if_pos (Entry.seven_present f), Entry.seven_frame, Mem.setDir_mem_of_ne _ (by omega), h.page,
        if_neg (by rw [he, hp]; decide)]
      rfl
    · rw [if_neg he]
      split_ifs with hpy
      · have hne := h.notTable y.1 hyd hpy
        have h0 : (s.dir y.1).frame ≠ 0 :=
          h.dir ▸ h.inv.dir_ne_zero hyd (by rw [h.dir]; exact hpy)
        rw [Mem.setDir_mem_of_ne _ h0, h.other _ hne]
      · rfl
  have herase : own = ((viewOf s' (insert f own)).setDir d (Entry.seven f)).own.erase f :=
    (Finset.erase_insert h.notOwn).symm
  refine ⟨?_, hpte⟩
  refine h.inv.step (h.inv.refs.install hd hp' (Finset.mem_insert_self f own)) (fun g _ _ => rfl)
    ?_ ?_ herase rfl ?_ ?_
  · intro d' _
    rw [Mem.setDir_dir, View.drop_dir, View.setDir_dir]
    rfl
  · intro y hy
    rw [hpte y hy, ← h.pte y hy]
    rfl
  · intro d' hd4
    rw [Mem.setDir_dir, if_neg]
    rintro rfl
    have := hd.1
    omega
  · intro d' _ i
    rw [Mem.setDir_mem_of_ne _ (by omega)]

/-- Counts of managed frames stay far below 256. -/
theorem MemInv.cnt_le {lo hi f : Nat} {s : Mem} {own : Finset Nat} (h : MemInv lo hi s own)
    (h1 : lo ≤ f) (h2 : f < hi) : s.memMap (f - 256) ≤ 66 := by
  rw [h.acct h1 h2]
  exact h.refs.refs_le (h.bounds.1.trans h1)

theorem freePage_low {s : Mem} {f : Nat} (hf : f < 256) : freePage s (f * 4096) = .ok s := by
  unfold freePage
  rw [if_pos (by unfold lowMem; omega)]

/-- `free_page` on a referenced managed frame takes one off its count; it does not panic. -/
theorem freePage_ok {lo hi f : Nat} {s : Mem} {own : Finset Nat} (h : MemInv lo hi s own)
    (h1 : lo ≤ f) (h2 : f < hi) (h0 : 0 < s.memMap (f - 256)) :
    freePage s (f * 4096) = .ok (s.setMap (f - 256) (s.memMap (f - 256) - 1)) := by
  have hb := h.bounds
  have hle := h.cnt_le h1 h2
  have hdec : (s.memMap (f - 256) + 255) % 256 = s.memMap (f - 256) - 1 := by omega
  unfold freePage
  rw [if_neg (by unfold lowMem; omega), if_neg (by rw [h.high]; omega), mapNr_addr,
    if_pos (by omega), Mem.decMap, hdec]

/-- The owner of a page frees it. -/
theorem freePage_owned {lo hi f : Nat} {s : Mem} {own : Finset Nat} (h : MemInv lo hi s own)
    (hf : f ∈ own) :
    ∃ s', freePage s (f * 4096) = .ok s' ∧ MemInv lo hi s' (own.erase f) ∧ s'.mem = s.mem := by
  obtain ⟨h1, h2⟩ := h.refs.ownRange f hf
  refine ⟨_, freePage_ok h h1 h2 (h.own_pos hf), ?_, rfl⟩
  refine h.step (h.refs.release hf) ?_ (fun d _ => rfl) (fun x _ => rfl) rfl rfl
    (fun d _ => rfl) (fun d _ i => rfl)
  intro g hg1 _
  rw [Mem.setMap_memMap, View.drop_cnt, View.setCnt_cnt]
  have hb := h.bounds
  have : g - 256 = f - 256 ↔ g = f := by omega
  simp only [this, viewOf]

end Linux011.Mm
