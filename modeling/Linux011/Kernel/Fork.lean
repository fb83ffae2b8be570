/-
  `copy_process` (kernel/fork.c) with its result, the descriptors and the counts it raises, over
  the memory of `Mm`. A failed call releases through the generic `free_page_tables` what
  `copy_page_tables` had built before it ran out of pages. `Tight` says that no R/W bit is set on
  the way; together with the invariant of the memory this gives that nothing is left behind.
-/
import Linux011.Mm.Isolation

namespace Linux011.Kernel

open Linux011.Lib Linux011.Mm Linux011.Mm.Sys

/-! ## copy_process -/

/-- The tasks with their descriptors, `pwd` and `root` (of the slots in use), `f_count` of the
    file table, and `last_pid`. -/
structure World where
  sys : Sys
  lastPid : Nat
  filp : Nat → Nat → Option Nat
  pwd : Nat → Option Nat
  root : Nat → Option Nat
  fCount : Nat → Nat

/-- The loop over `p->filp[]`. -/
def incFiles (n : Nat → Nat) (filp : Nat → Option Nat) : Nat → Nat → Nat
  | 0 => n
  | i + 1 => incCount (incFiles n filp i) (filp i)

/-- `copy_process` of task `p` for the free slot `nr`: the pid or -EAGAIN. -/
def World.copyProcess (w : World) (p nr : Nat) : Except Halt (Int × World) :=
  match w.sys.task p with
  | none => .error .disabled
  | some τ =>
    if ¬ (p < 64 ∧ 1 ≤ nr ∧ nr < 64 ∧ w.sys.task nr = none ∧ τ.phase = .user ∧ τ.fault = none) then
      .error .disabled
    else match getFreePage w.sys.mm with
      | none => .ok (-11, w)
      | some (f, s) =>
        -- task[nr] = p; *p = *current
        let task := Function.update w.sys.task nr (some τ)
        let w' := { w with
          filp := Function.update w.filp nr (w.filp p)
          pwd := Function.update w.pwd nr (w.pwd p)
          root := Function.update w.root nr (w.root p) }
        match copyMem s p nr τ with
        | .ok (true, s) => .ok (w.lastPid, { w' with
            sys := {
              mm := s, own := insert f w.sys.own, task := task
              iCount := incCount (incCount (incCount w.sys.iCount (w.pwd p)) (w.root p))
                τ.executable }
            fCount := incFiles w.fCount (w.filp p) 20 })
        | .ok (false, s) => match freePage s (f * 4096) with
          | .ok s => .ok (-11, { w' with
              sys := { w.sys with mm := s, task := Function.update task nr none } })
          | .error (.panic msg) => .error (.panic msg)
          | .error (.oom _) => .error .disabled
        | .error (.panic msg) => .error (.panic msg)
        | .error (.oom _) => .error .disabled

/-! ## No R/W bit is set -/

/-- Entries that are writable in `s'` were writable in `s`, outside the page directory. -/
def Tight (s s' : Mem) : Prop :=
  ∀ f i, f ≠ 0 → ((s'.mem f).entry i).rw = true → ((s.mem f).entry i).rw = true

namespace Tight

variable {s s' s'' : Mem}

theorem refl (s : Mem) : Tight s s := fun _ _ _ h => h

theorem trans (h : Tight s s') (h' : Tight s' s'') : Tight s s'' :=
  fun f i hf hr => h f i hf (h' f i hf hr)

theorem of_mem (h : s'.mem = s.mem) : Tight s s' := fun f i _ hr => by rwa [h] at hr

theorem setEntry (s : Mem) (t i : Nat) {e : Entry} (he : e.rw = false) : Tight s (s.setEntry t i e) := by
  intro f j _ hr
  rw [Mem.setEntry_entry] at hr
  split_ifs at hr with hc
  · rw [he] at hr; cases hr
  · exact hr

theorem setDir (s : Mem) (d : Nat) (e : Entry) : Tight s (s.setDir d e) := by
  intro f i hf hr
  rwa [Mem.setDir_mem_of_ne _ hf] at hr

theorem getFreePage {f : Nat} (h : getFreePage s = some (f, s')) : Tight s s' := by
  unfold Mm.getFreePage at h
  obtain ⟨n, -, hn⟩ := Option.map_eq_some_iff.mp h
  cases hn
  intro g i _ hr
  rw [Mem.setPage_mem] at hr
  split_ifs at hr with hg
  · cases hr
  · exact hr

theorem freePage {a : Nat} (h : freePage s a = .ok s') : Tight s s' := by
  unfold Mm.freePage at h
  split_ifs at h with h1 h2 h3
  · cases h; exact refl s
  · cases h; exact of_mem rfl

theorem freeEntry {tab i : Nat} (h : freeEntry s tab i = .ok s') : Tight s s' := by
  unfold Mm.freeEntry at h
  dsimp only at h
  split_ifs at h with hp
  · cases hf : Mm.freePage s ((s.mem tab).entry i).addr with
    | error e => rw [hf] at h; cases h
    | ok s1 =>
      rw [hf] at h
      cases h
      exact (freePage hf).trans (setEntry _ _ _ rfl)
  · cases h
    exact setEntry _ _ _ rfl

theorem bind_freeing {x : Except Stop Mem} {k : Mem → Except Stop Mem} (h : x.bind k = .ok s')
    (hx : ∀ s1, x = .ok s1 → Tight s s1) (hk : ∀ s1 s2, k s1 = .ok s2 → Tight s1 s2) : Tight s s' := by
  cases x with
  | error e => cases h
  | ok s1 => exact (hx s1 rfl).trans (hk s1 s' h)

theorem freeEntries {tab : Nat} : ∀ (n : Nat) {s' : Mem}, freeEntries s tab n = .ok s' → Tight s s'
  | 0, s', h => by cases h; exact refl s
  | n + 1, s', h => bind_freeing h (fun _ => freeEntries n) fun _ _ => freeEntry

theorem freeDir {d : Nat} (h : freeDir s d = .ok s') : Tight s s' := by
  unfold Mm.freeDir at h
  split_ifs at h with hp
  · cases h; exact refl s
  · refine bind_freeing h (fun _ => freeEntries 1024) fun s1 s2 h2 => ?_
    cases hf : Mm.freePage s1 (s1.dir d).addr with
    | error e => rw [hf] at h2; cases h2
    | ok s3 =>
      rw [hf] at h2
      cases h2
      exact (freePage hf).trans (setDir _ _ _)

theorem freeDirs {d : Nat} : ∀ (n : Nat) {s' : Mem}, freeDirs s d n = .ok s' → Tight s s'
  | 0, s', h => by cases h; exact refl s
  | n + 1, s', h => bind_freeing h (fun _ => freeDirs n) fun _ _ => freeDir

theorem freePageTables {src size : Nat} (h : freePageTables s src size = .ok s') : Tight s s' := by
  unfold Mm.freePageTables at h
  split_ifs at h
  exact freeDirs _ h

theorem copyEntry (s : Mem) (ft tt i : Nat) : Tight s (copyEntry s ft tt i) := by
  unfold Mm.copyEntry
  dsimp only
  split_ifs with hp hw
  · exact refl s
  · exact ((setEntry s tt i rfl).trans (setEntry _ ft i rfl)).trans (of_mem rfl)
  · exact setEntry s tt i rfl

theorem copyEntries (s : Mem) (ft tt : Nat) : ∀ n, Tight s (copyEntries s ft tt n)
  | 0 => refl s
  | n + 1 => (copyEntries s ft tt n).trans (copyEntry _ ft tt n)

theorem copyDir {fd td nr : Nat} {ok : Bool} (h : copyDir s fd td nr = .ok (ok, s')) : Tight s s' := by
  unfold Mm.copyDir at h
  split_ifs at h with h1 h2
  · cases h; exact refl s
  · cases hg : Mm.getFreePage s with
    | none => rw [hg] at h; cases h; exact refl s
    | some r =>
      rw [hg] at h
      cases h
      exact ((getFreePage hg).trans (setDir _ _ _)).trans (copyEntries _ _ _ _)

theorem copyDirs {fd td nr : Nat} : ∀ (n : Nat) {ok : Bool} {s' : Mem},
    copyDirs s fd td nr n = .ok (ok, s') → Tight s s'
  | 0, ok, s', h => by cases h; exact refl s
  | n + 1, ok, s', h => by
    rw [Mm.copyDirs] at h
    cases hc : Mm.copyDirs s fd td nr n with
    | error e => rw [hc] at h; cases h
    | ok r =>
      obtain ⟨ok1, s1⟩ := r
      rw [hc] at h
      have h1 := copyDirs n hc
      cases ok1 with
      | false => cases h; exact h1
      | true => exact h1.trans (copyDir h)

theorem copyPageTables {src dst size : Nat} {r : Int} (h : copyPageTables s src dst size = .ok (r, s')) :
    Tight s s' := by
  unfold Mm.copyPageTables at h
  generalize (if src = 0 then 0xA0 else 1024) = nr at h
  split_ifs at h
  cases hc : Mm.copyDirs s (src >>> 22) (dst >>> 22) nr (slots size) with
  | error e => rw [hc] at h; cases h
  | ok q =>
    rw [hc] at h
    cases h
    exact copyDirs _ hc

/-- `copy_mem`, whether it succeeds or not. -/
theorem copyMem {p c : Nat} {τ : Task} {ok : Bool} (h : copyMem s p c τ = .ok (ok, s')) : Tight s s' := by
  unfold Sys.copyMem at h
  split_ifs at h with hl
  cases hc : Mm.copyPageTables s (base p) (base c) τ.limit with
  | error e => rw [hc] at h; cases h
  | ok q =>
    obtain ⟨r, s1⟩ := q
    rw [hc] at h
    change (if r = 0 then Except.ok (true, s1)
      else (Mm.freePageTables s1 (base c) τ.limit).bind fun s => .ok (false, s)) = _ at h
    split_ifs at h with hr
    · cases h; exact copyPageTables hc
    · cases hf : Mm.freePageTables s1 (base c) τ.limit with
      | error e => rw [hf] at h; cases h
      | ok s2 =>
        rw [hf] at h
        cases h
        exact (copyPageTables hc).trans (freePageTables hf)

end Tight

/-! ## The entries of the other tasks -/

section Others

variable {lo hi : Nat} {s s' : Mem} {own : Finset Nat}

theorem copyEntries_other (s : Mem) {ft tt f : Nat} (hft : f ≠ ft) (htt : f ≠ tt) :
    ∀ n i, ((copyEntries s ft tt n).mem f).entry i = (s.mem f).entry i
  | 0, _ => rfl
  | n + 1, i => by
    rw [copyEntries, ← copyEntries_other s hft htt n i]
    unfold copyEntry
    dsimp only
    split_ifs
    · rfl
    · rw [Mem.incMap_mem, Mem.setEntry_entry, if_neg (fun h => hft h.1), Mem.setEntry_entry,
        if_neg (fun h => htt h.1)]
    · rw [Mem.setEntry_entry, if_neg (fun h => htt h.1)]

/-- One directory slot of `copy_page_tables` stores into two tables only. -/
theorem copyDir_other (h : MemInv lo hi s own) {fd td nr : Nat} {ok : Bool} (htd : UserDir td)
    (hfd : fd < 4 ∨ UserDir fd) (hc : copyDir s fd td nr = .ok (ok, s')) {z : Nat × Nat}
    (hz : z ∈ userSlots) (hzf : z.1 ≠ fd) (hzt : z.1 ≠ td) : s'.pte z = s.pte z := by
  have hzd := (mem_userSlots.mp hz).1
  have hb := h.bounds
  unfold copyDir at hc
  split_ifs at hc with h1 h2
  · cases hc; rfl
  · cases hg : getFreePage s with
    | none => rw [hg] at hc; cases hc; rfl
    | some r =>
      obtain ⟨tt, s1⟩ := r
      rw [hg] at hc
      cases hc
      have hf := getFreePage_spec h hg
      obtain ⟨i2, p2⟩ := hf.install htd (by simpa using h1)
      set s2 := s1.setDir td (Entry.seven tt) with hs2
      have hd2 : ∀ d', s2.dir d' = if d' = td then Entry.seven tt else s.dir d' := by
        intro d'; rw [hs2, Mem.setDir_dir, hf.dir]
      have htt := hf.range
      have hpf : (s2.dir fd).present = true := by
        rw [hd2]
        split_ifs
        · rfl
        · simpa using h2
      have hft : (s2.dir fd).frame ≠ 0 ∧ ∀ d, UserDir d → (s2.dir d).present → d ≠ fd →
          (s2.dir d).frame ≠ (s2.dir fd).frame := by
        rcases hfd with hlow | hu
        · rw [i2.ident fd hlow]
          refine ⟨Nat.succ_ne_zero fd, fun d hd hp _ => ?_⟩
          have := i2.dir_range hd hp
          rw [Entry.seven_frame]
          omega
        · exact ⟨i2.dir_ne_zero hu hpf, fun d hd hp hne he => hne (i2.dirs.2 d fd hd hu hp hpf he)⟩
      have hdir : (copyEntries s2 (s2.dir fd).frame tt nr).dir = s2.dir :=
        funext fun d => copyEntries_other s2 hft.1.symm (by omega) nr d
      rw [← p2 z hz]
      unfold Mem.pte
      rw [hdir]
      split_ifs with hp
      · refine copyEntries_other s2 (hft.2 z.1 hzd hp hzf) (fun he => hzt ?_) nr z.2
        refine i2.dirs.2 z.1 td hzd htd hp (by rw [hd2, if_pos rfl]; rfl) (he.trans ?_)
        rw [hd2, if_pos rfl]
        rfl
      · rfl

theorem copyDirs_other (h : MemInv lo hi s own) {fd td nr n : Nat} {ok : Bool} (hnr : nr ≤ 1024)
    (htd : ∀ k < n, UserDir (td + k)) (hpair : ∀ k < n, ∀ i < nr, CopyPair (fd + k) (td + k) i)
    (hdis : ∀ k < n, ∀ k' < n, fd + k ≠ td + k') (hfd : ∀ k < n, fd + k < 4 ∨ UserDir (fd + k))
    (hc : copyDirs s fd td nr n = .ok (ok, s')) {z : Nat × Nat} (hz : z ∈ userSlots)
    (hzf : ∀ k < n, z.1 ≠ fd + k) (hzt : ∀ k < n, z.1 ≠ td + k) : s'.pte z = s.pte z := by
  induction n generalizing ok s' with
  | zero => cases hc; rfl
  | succ n ih =>
    rcases copyDirs_spec h hnr n (fun k hk => htd k (by omega)) (fun k hk => hpair k (by omega))
      (fun k hk k' hk' => hdis k (by omega) k' (by omega)) with he | ⟨ok1, s1, e1, c1⟩
    · rw [copyDirs, he] at hc; cases hc
    · have h1 := ih (fun k hk => htd k (by omega)) (fun k hk => hpair k (by omega))
        (fun k hk k' hk' => hdis k (by omega) k' (by omega)) (fun k hk => hfd k (by omega)) e1
        (fun k hk => hzf k (by omega)) (fun k hk => hzt k (by omega))
      rw [copyDirs, e1] at hc
      cases ok1 with
      | false => cases hc; exact h1
      | true =>
        exact (copyDir_other c1.inv (htd n (by omega)) (hfd n (by omega)) hc hz (hzf n (by omega))
          (hzt n (by omega))).trans h1

/-- A failed `copy_mem` has changed the entries of no task but the parent. -/
theorem copyMem_other (h : MemInv lo hi s own) {p c : Nat} {τ : Task} (hp : p < 64) (hc : 1 ≤ c)
    (hc' : c < 64) (hpc : p ≠ c) (hs : CopySize p τ.limit) (he : copyMem s p c τ = .ok (false, s'))
    {z : Nat × Nat} (hz : z ∈ userSlots) (hzp : z.1 / 16 ≠ p) (hzc : z.1 / 16 ≠ c) :
    s'.pte z = s.pte z := by
  have hslots := slots_le hs.1
  have hnr : (if base p = 0 then 0xA0 else 1024) = if p = 0 then 160 else 1024 := by
    simp only [base_eq_zero]
  have hone : p = 0 → slots τ.limit = 1 := fun hp0 => by rw [hs.2 hp0]; decide
  rcases copyPageTables_spec h hp hc hc' hpc hs with e | ⟨ok, s1, e, hcp⟩
  · unfold copyMem at he
    rw [e] at he
    split_ifs at he
    cases he
  unfold copyMem at he
  split_ifs at he with hl
  rw [e] at he
  cases ok with
  | true => cases he
  | false =>
    obtain ⟨s2, e2, hf⟩ := freePageTables_spec hcp.inv hc hc' hs.1
    change (freePageTables s1 (base c) τ.limit).bind (fun s => .ok (false, s)) = _ at he
    rw [e2] at he
    cases he
    rw [hf.pte z hz (fun k hk => by omega)]
    -- the copy itself, up to the directory slot where it ran out of pages
    unfold copyPageTables at e
    rw [if_neg (by rw [base_align, base_align]; decide), base_shift, base_shift, hnr] at e
    cases hd : copyDirs s (16 * p) (16 * c) (if p = 0 then 160 else 1024) (slots τ.limit) with
    | error x => rw [hd] at e; cases e
    | ok q =>
      obtain ⟨ok', s3⟩ := q
      rw [hd] at e
      cases ok' with
      | true => cases e
      | false =>
        cases e
        refine copyDirs_other h (by split_ifs <;> omega) (fun k hk => ⟨by omega, by omega⟩)
          (fun k hk i hi' => ?_) (fun k hk k' hk' => by omega) (fun k hk => ?_) hd hz
          (fun k hk => by omega) (fun k hk => by omega)
        · refine ⟨⟨by omega, by omega⟩, by split_ifs at hi' <;> omega, by omega, ?_⟩
          by_cases hp0 : p = 0
          · have := hone hp0
            rw [if_pos hp0] at hi'
            omega
          · exact Or.inl ⟨⟨by omega, by omega⟩, by omega⟩
        · by_cases hp0 : p = 0
          · have := hone hp0
            omega
          · exact Or.inr ⟨by omega, by omega⟩

end Others

/-! ## Counts -/

section Counts

variable {lo hi : Nat} {s s' : Mem} {own : Finset Nat}

/-- With the region of task `c` empty before and after, everything else is referenced as it was. -/
theorem memMap_eq (h : MemInv lo hi s own) (h' : MemInv lo hi s' own) {c : Nat} (hm : Moves lo c s s')
    (habs : ∀ k < 16, (s.dir (16 * c + k)).present = false)
    (habs' : ∀ k < 16, (s'.dir (16 * c + k)).present = false) :
    ∀ i < pagingPages, s'.memMap i = s.memMap i := by
  have hregion : ∀ d, d / 16 = c → (s.dir d).present = false ∧ (s'.dir d).present = false := by
    intro d hd
    rw [show d = 16 * c + d % 16 by omega]
    exact ⟨habs _ (by omega), habs' _ (by omega)⟩
  have hpte : ∀ f, (viewOf s' own).pteRefs f = (viewOf s own).pteRefs f := by
    refine fun f => congrArg Finset.card (Finset.filter_congr fun z hz => ?_)
    unfold View.Maps
    rw [viewOf_pte, viewOf_pte]
    by_cases hc : z.1 / 16 = c
    · rw [s.pte_of_absent (hregion _ hc).1, s'.pte_of_absent (hregion _ hc).2]
    · rw [(hm.rest z hz hc).present, (hm.rest z hz hc).frame]
  have hdir : ∀ f, (viewOf s' own).dirRefs f = (viewOf s own).dirRefs f := by
    refine fun f => congrArg Finset.card (Finset.filter_congr fun d _ => ?_)
    unfold View.Tables
    rw [viewOf_dir, viewOf_dir]
    by_cases hc : d / 16 = c
    · rw [(hregion d hc).1, (hregion d hc).2]
      simp only [Bool.false_eq_true, false_and]
    · rw [hm.dir d hc]
  intro i hi'
  have hpp : pagingPages = 3840 := by decide
  have hi2 : i + 256 - 256 = i := by omega
  by_cases hr : lo ≤ i + 256 ∧ i + 256 < hi
  · have e := h.acct hr.1 hr.2
    have e' := h'.acct hr.1 hr.2
    rw [hi2] at e e'
    rw [e, e']
    unfold View.refs
    rw [hpte, hdir]
    rfl
  · have e := h.refs.usedOut (i + 256) (by omega) (by omega) hr
    have e' := h'.refs.usedOut (i + 256) (by omega) (by omega) hr
    change s.memMap (i + 256 - 256) = used at e
    change s'.memMap (i + 256 - 256) = used at e'
    rw [hi2] at e e'
    rw [e, e']

/-- A page that is mapped writable is referenced once. -/
theorem rw_count (h : MemInv lo hi s own) {x : Nat × Nat} (hx : x ∈ userSlots)
    (hp : (s.pte x).present) (hrw : (s.pte x).rw = true) :
    256 ≤ (s.pte x).frame ∧ (s.pte x).frame < 4096 ∧ s.memMap ((s.pte x).frame - 256) = 1 := by
  have hb := h.bounds
  have hr := (h.pte_range hx hp).resolve_right (fun hr => by rw [hrw] at hr; cases hr.2)
  refine ⟨by omega, by omega, ?_⟩
  rw [h.acct hr.1 hr.2]
  have hpte : (viewOf s own).pteRefs (s.pte x).frame = 1 := by
    refine Finset.card_eq_one.mpr ⟨x, Finset.ext fun z => ?_⟩
    rw [Finset.mem_filter, Finset.mem_singleton]
    constructor
    · rintro ⟨hz, hpz, hfz⟩
      exact h.refs.cow x hx z hz hp hrw (by rw [viewOf_pte]; omega) hpz hfz
    · rintro rfl
      exact ⟨hx, hp, rfl⟩
  have hdir : (viewOf s own).dirRefs (s.pte x).frame = 0 := by
    refine Finset.card_eq_zero.mpr (Finset.filter_eq_empty_iff.mpr fun d hd hm => ?_)
    exact h.refs.dirPte d (mem_userDirs.mp hd) hm.1 x hx hp hm.2.symm
  have hown : (viewOf s own).ownRefs (s.pte x).frame = 0 :=
    if_neg fun hm => h.refs.ownPte _ hm x hx hp rfl
  unfold View.refs
  omega

theorem findFree_congr {m m' : Nat → Nat} : ∀ {n : Nat}, (∀ i < n, m' i = m i) →
    findFree m' n = findFree m n
  | 0, _ => rfl
  | n + 1, h => by
    rw [findFree, findFree, h n (by omega), findFree_congr fun i hi' => h i (by omega)]

/-- `un_wp_page` needs a page only for a shared one. -/
theorem unWpPage_ok_iff {tab i : Nat} : (∃ s', unWpPage s tab i = .ok s') ↔
    (256 ≤ ((s.mem tab).entry i).frame ∧ s.memMap (((s.mem tab).entry i).frame - 256) = 1) ∨
      ∃ n, findFree s.memMap pagingPages = some n := by
  have hone : (256 ≤ ((s.mem tab).entry i).frame ∧
      s.memMap (((s.mem tab).entry i).frame - 256) = 1) ↔ (lowMem ≤ ((s.mem tab).entry i).addr ∧
        s.memMap (mapNr ((s.mem tab).entry i).addr) = 1) := by
    rw [Entry.addr, mapNr_addr]
    unfold lowMem
    omega
  rw [hone]
  unfold unWpPage
  dsimp only
  by_cases hc : lowMem ≤ ((s.mem tab).entry i).addr ∧ s.memMap (mapNr ((s.mem tab).entry i).addr) = 1
  · rw [if_pos hc]
    exact ⟨fun _ => .inl hc, fun _ => ⟨_, rfl⟩⟩
  · rw [if_neg hc, or_iff_right hc]
    unfold getFreePage
    cases findFree s.memMap pagingPages with
    | none =>
      constructor
      · rintro ⟨_, h⟩
        cases h
      · rintro ⟨_, h⟩
        cases h
    | some n => exact ⟨fun _ => ⟨n, rfl⟩, fun _ => ⟨_, rfl⟩⟩

end Counts

/-! ## Loads after a store -/

section Loads

variable {F : Nat → Exe} {lo hi : Nat} {σ σ' : Sys}

/-- What a store through slot `x` changes of byte `k` of slot `z`. -/
theorem Poked.load {s s' : Mem} {own : Finset Nat} {x z : Nat × Nat} {j v : Nat}
    (h : Poked lo hi s own x j v s') (hi' : MemInv lo hi s own) (hx : x ∈ userSlots)
    (hp : (s.pte x).present) (hrw : (s.pte x).rw = true) (hz : z ∈ userSlots) (k : Nat) :
    (if (s'.pte z).present then some ((s'.mem (s'.pte z).frame).byte k) else none) =
      if z = x ∧ k = j then some (v % 256)
      else if (s.pte z).present then some ((s.mem (s.pte z).frame).byte k) else none := by
  by_cases hzx : z = x
  · subst hzx
    rw [h.slot, if_pos hp, h.byte, Function.update_apply, if_pos hp]
    by_cases hkj : k = j
    · rw [if_pos hkj, if_pos ⟨rfl, hkj⟩]
    · rw [if_neg hkj, if_neg (fun hc => hkj hc.2)]
  · have hs := (h.rest hi' hx hp hrw hz hzx).same
    have hne : ¬ (z = x ∧ k = j) := fun hc => hzx hc.1
    rw [if_neg hne, hs.1]
    split_ifs with hpz
    · rw [hs.2 hpz]
    · rfl

/-- A store that the task survives is seen by the task itself, at that byte, and by no other. -/
theorem Stored.load {t off v : Nat} {τ : Task} (h : SysInv F lo hi σ) (h' : SysInv F lo hi σ')
    (hs : Stored F lo hi σ t off v σ') (hrun : σ.Running t τ) (hoff : off < τ.limit)
    (hp : (σ.mm.pte (slot t off)).present = true) (hlive : σ'.task = σ.task) {u o : Nat} (hu : u < 64)
    (ho : Sees u o) :
    σ'.load u o = if u = t ∧ o = off then some (v % 256) else σ.load u o := by
  by_cases hut : u = t
  swap
  · rw [if_neg (fun hc => hut hc.1)]
    exact (hs.moves h hrun hoff hp).load_eq h.mem h'.mem hu hut ho
  subst hut
  have hok := h.task u τ hrun.2.1
  have hlt : off < 0x4000000 := lt_of_lt_of_le hoff hok.limit
  have hx := slot_mem hrun.1 hu hlt
  have hz := slot_mem hrun.1 hu ho.lt
  have hsame : (slot u o = slot u off ∧ o % 4096 = off % 4096) ↔ o = off := by
    constructor
    · rintro ⟨h1, h2⟩
      have := slot_inj ho.lt hlt h1
      omega
    · rintro rfl
      exact ⟨rfl, rfl⟩
  simp only [true_and]
  unfold Sys.load
  dsimp only
  cases hs with
  | direct hrw hpk =>
    have := Poked.load hpk h.mem hx hp hrw hz (o % 4096)
    simp only [hsame] at this
    exact this
  | copied _ hun hpk =>
    have := Poked.load hpk hun.inv hx hun.present hun.rw hz (o % 4096)
    simp only [hsame] at this
    refine this.trans ?_
    have hs1 := hun.same hp hz
    rw [hs1.1]
    by_cases heq : o = off
    · rw [if_pos heq, if_pos heq]
    · rw [if_neg heq, if_neg heq]
      split_ifs with hpz
      · rw [hs1.2 hpz]
      · rfl
  | oom hex =>
    obtain ⟨τ', ht', -, hph, -⟩ := hex.dead
    rw [hlive, hrun.2.1] at ht'
    cases ht'
    rw [hrun.2.2.1] at hph
    cases hph

end Loads

/-! ## A failed fork -/

/-- What the -EAGAIN paths of `copy_process` run through. -/
structure Failed (w : World) (p nr : Nat) (τ : Task) (w' : World) : Prop where
  parent : w.sys.task p = some τ
  range : p < 64 ∧ 1 ≤ nr ∧ nr < 64 ∧ w.sys.task nr = none
  fork : w.sys.fork p nr = .ok w'.sys
  task : w'.sys.task = w.sys.task
  fCount : w'.fCount = w.fCount
  iCount : w'.sys.iCount = w.sys.iCount
  path : w'.sys.mm = w.sys.mm ∨ ∃ f s1 s2, getFreePage w.sys.mm = some (f, s1) ∧
    copyMem s1 p nr τ = .ok (false, s2) ∧ freePage s2 (f * 4096) = .ok w'.sys.mm

theorem copyProcess_failed {w w' : World} {p nr : Nat} (he : w.copyProcess p nr = .ok (-11, w')) :
    ∃ τ, Failed w p nr τ w' := by
  unfold World.copyProcess at he
  cases hp : w.sys.task p with
  | none => rw [hp] at he; cases he
  | some τ =>
    rw [hp] at he
    dsimp only at he
    split_ifs at he with hpre
    have hrange : p < 64 ∧ 1 ≤ nr ∧ nr < 64 ∧ w.sys.task nr = none :=
      ⟨hpre.1, hpre.2.1, hpre.2.2.1, hpre.2.2.2.1⟩
    cases hg : getFreePage w.sys.mm with
    | none =>
      rw [hg] at he
      cases he
      refine ⟨τ, hp, hrange, ?_, rfl, rfl, rfl, .inl rfl⟩
      unfold Sys.fork
      rw [hp]
      dsimp only
      rw [if_neg (not_not.mpr hpre), hg]
    | some q =>
      obtain ⟨f, s1⟩ := q
      rw [hg] at he
      dsimp only at he
      cases hc : copyMem s1 p nr τ with
      | error e => rw [hc] at he; cases e <;> cases he
      | ok r =>
        obtain ⟨ok, s2⟩ := r
        rw [hc] at he
        cases ok with
        | true =>
          have hpid : (w.lastPid : Int) = -11 := congrArg Prod.fst (Except.ok.inj he)
          omega
        | false =>
          dsimp only at he
          cases hf : freePage s2 (f * 4096) with
          | error e => rw [hf] at he; cases e <;> cases he
          | ok s3 =>
            rw [hf] at he
            cases he
            have htask : Function.update (Function.update w.sys.task nr (some τ)) nr none =
                w.sys.task := by
              rw [Function.update_idem, ← hrange.2.2.2, Function.update_eq_self]
            refine ⟨τ, hp, hrange, ?_, htask, rfl, rfl, .inr ⟨f, s1, s2, hg, hc, hf⟩⟩
            unfold Sys.fork
            rw [hp]
            dsimp only
            rw [if_neg (not_not.mpr hpre), hg]
            dsimp only
            rw [hc]
            dsimp only
            rw [hf, htask]
            rfl

section NoTrace

variable {F : Nat → Exe} {lo hi : Nat} {σ σ' : Sys} {w w' : World} {p nr : Nat} {τ : Task}

/-- A store goes through if the entry is writable or `do_wp_page` makes it so. -/
theorem store_ok {t off v : Nat} (hrun : σ.Running t τ) (hoff : off < τ.limit)
    (hp : (σ.mm.pte (slot t off)).present = true)
    (hw : (σ.mm.pte (slot t off)).rw = true ∨ ∃ s, doWpPage σ.mm (base t + off) = .ok s) :
    ∃ σ', σ.store t off v = .ok σ' ∧ σ'.task = σ.task := by
  unfold Sys.store
  rw [hrun.2.1]
  dsimp only
  rw [if_pos ⟨hrun, hoff, hp⟩]
  split_ifs with hrw
  · exact ⟨_, rfl, rfl⟩
  · obtain ⟨s, hs⟩ := hw.resolve_left hrw
    rw [hs]
    exact ⟨_, rfl, rfl⟩

/-- A task that is alive after a store could make it. -/
theorem store_survived {t off v : Nat} (h : SysInv F lo hi σ) (he : σ.store t off v = .ok σ')
    (hlive : σ'.task = σ.task) : ∃ τ, σ.Running t τ ∧ off < τ.limit ∧
      (σ.mm.pte (slot t off)).present = true ∧
      ((σ.mm.pte (slot t off)).rw = true ∨ ∃ s, doWpPage σ.mm (base t + off) = .ok s) := by
  obtain ⟨-, τ, hrun, hoff, hp, -⟩ := store_cases h he
  refine ⟨τ, hrun, hoff, hp, ?_⟩
  unfold Sys.store at he
  rw [hrun.2.1] at he
  dsimp only at he
  rw [if_pos ⟨hrun, hoff, hp⟩] at he
  split_ifs at he with hrw
  · exact .inl hrw
  · rcases doWpPage_cases h hrun hoff hp with e | ⟨s, e, -⟩
    · -- `oom()` ends the task
      rw [e] at he
      obtain ⟨τ', ht', -, hph, -⟩ := (doExit_cases h he).dead
      rw [hlive, hrun.2.1] at ht'
      cases ht'
      rw [hrun.2.2.1] at hph
      cases hph
    · exact .inr ⟨s, e⟩

/-- What a failed `copy_process` leaves. -/
structure NoTrace (w : World) (p nr : Nat) (w' : World) : Prop where
  task : w'.sys.task nr = none ∧ w'.sys.task = w.sys.task
  memMap : ∀ i < pagingPages, w'.sys.mm.memMap i = w.sys.mm.memMap i
  dirs : ∀ k < 16, (w'.sys.mm.dir (16 * nr + k)).present = false
  fCount : w'.fCount = w.fCount
  iCount : w'.sys.iCount = w.sys.iCount
  loads : ∀ u < 64, ∀ off, Sees u off → w'.sys.load u off = w.sys.load u off
  entries : ∀ z ∈ userSlots, w'.sys.mm.pte z = w.sys.mm.pte z ∨
    z.1 / 16 = p ∧ w'.sys.mm.pte z = (w.sys.mm.pte z).clearRw
  stores : ∀ t off v σ, w.sys.store t off v = .ok σ → σ.task = w.sys.task →
    ∃ σ', w'.sys.store t off v = .ok σ' ∧ σ'.task = w.sys.task ∧
      ∀ u < 64, ∀ o, Sees u o → σ'.load u o = σ.load u o

theorem Failed.tight (h : Failed w p nr τ w') : Tight w.sys.mm w'.sys.mm := by
  obtain hsame | ⟨f, s1, s2, hg, hc, hf⟩ := h.path
  · rw [hsame]
    exact Tight.refl _
  · exact ((Tight.getFreePage hg).trans (Tight.copyMem hc)).trans (Tight.freePage hf)

theorem freePage_pte {s s' : Mem} {a : Nat} (h : freePage s a = .ok s') (z : Nat × Nat) :
    s'.pte z = s.pte z := by
  refine Mem.pte_of_mem (fun f => ?_) z
  unfold freePage at h
  split_ifs at h
  · cases h; rfl
  · cases h; rfl

theorem Failed.other (h : Failed w p nr τ w') (hinv : SysInv F lo hi w.sys) {z : Nat × Nat}
    (hz : z ∈ userSlots) (hzp : z.1 / 16 ≠ p) (hzn : z.1 / 16 ≠ nr) :
    w'.sys.mm.pte z = w.sys.mm.pte z := by
  obtain hsame | ⟨f, s1, s2, hg, hc, hf⟩ := h.path
  · rw [hsame]
  · obtain ⟨h1, h2, h3, h4⟩ := h.range
    have hpn : p ≠ nr := by
      rintro rfl
      rw [h.parent] at h4
      cases h4
    have hfr := getFreePage_spec hinv.mem hg
    have hok := hinv.task p τ h.parent
    rw [freePage_pte hf, copyMem_other hfr.inv h1 h2 h3 hpn ⟨hok.limit, hok.zero⟩ hc hz hzp hzn,
      hfr.pte z hz]

/-- An entry that kept everything but a cleared R/W bit. -/
theorem Tight.cleared {s s' : Mem} {own : Finset Nat} {c : Nat} (h : Tight s s') (hi' : MemInv lo hi s own)
    (hm : Moves lo c s s') {z : Nat × Nat} (hz : z ∈ userSlots) (hzc : z.1 / 16 ≠ c) :
    s'.pte z = s.pte z ∨ s'.pte z = (s.pte z).clearRw := by
  have hfix := (hm.rest z hz hzc).1
  cases hrw' : (s'.pte z).rw with
  | false =>
    right
    rw [← hfix]
    cases hx : s'.pte z
    rw [hx] at hrw'
    cases hrw'
    rfl
  | true =>
    left
    have hrw : (s.pte z).rw = true := by
      unfold Mem.pte at hrw' ⊢
      rw [hm.dir z.1 hzc] at hrw'
      split_ifs at hrw' ⊢ with hp
      · exact h _ _ (hi'.dir_ne_zero (mem_userSlots.mp hz).1 hp) hrw'
      · exact hrw'
    cases hx : s.pte z
    cases hx' : s'.pte z
    rw [hx] at hrw
    rw [hx'] at hrw'
    rw [hx, hx'] at hfix
    cases hrw
    cases hrw'
    cases hfix
    rfl

/-- The memory moves only in the region of slot `nr`, where nothing is mapped before or after. -/
theorem Failed.moves (h : Failed w p nr τ w') (hinv : SysInv F lo hi w.sys) :
    SysInv F lo hi w'.sys ∧ Moves lo nr w.sys.mm w'.sys.mm ∧ w'.sys.own = w.sys.own := by
  obtain ⟨hinv', ⟨hm, -, hown⟩ | ⟨τ', hf⟩⟩ := fork_cases hinv h.fork
  · exact ⟨hinv', hm, hown⟩
  · have h4 := h.range.2.2.2
    rw [← h.task, hf.task, Function.update_self] at h4
    cases h4

theorem Failed.dirs (h : Failed w p nr τ w') (hinv : SysInv F lo hi w.sys) {k : Nat} (hk : k < 16) :
    (w.sys.mm.dir (16 * nr + k)).present = false ∧ (w'.sys.mm.dir (16 * nr + k)).present = false := by
  obtain ⟨-, h2, h3, h4⟩ := h.range
  exact ⟨hinv.free_dirs h2 h3 h4 hk, (h.moves hinv).1.free_dirs h2 h3 (by rw [h.task, h4]) hk⟩

theorem Failed.region (h : Failed w p nr τ w') (hinv : SysInv F lo hi w.sys) {z : Nat × Nat}
    (hz : z.1 / 16 = nr) : w'.sys.mm.pte z = Entry.zero ∧ w.sys.mm.pte z = Entry.zero := by
  have e : z.1 = 16 * nr + z.1 % 16 := by omega
  have hd := h.dirs hinv (k := z.1 % 16) (by omega)
  rw [← e] at hd
  exact ⟨Mem.pte_of_absent _ hd.2, Mem.pte_of_absent _ hd.1⟩

theorem Failed.memMap (h : Failed w p nr τ w') (hinv : SysInv F lo hi w.sys) :
    ∀ i < pagingPages, w'.sys.mm.memMap i = w.sys.mm.memMap i := by
  obtain ⟨hinv', hm, hown⟩ := h.moves hinv
  have hmem' := hinv'.mem
  rw [hown] at hmem'
  exact memMap_eq hinv.mem hmem' hm (fun k hk => (h.dirs hinv hk).1) (fun k hk => (h.dirs hinv hk).2)

theorem Failed.entries (h : Failed w p nr τ w') (hinv : SysInv F lo hi w.sys) {z : Nat × Nat}
    (hz : z ∈ userSlots) : w'.sys.mm.pte z = w.sys.mm.pte z ∨
      z.1 / 16 = p ∧ w'.sys.mm.pte z = (w.sys.mm.pte z).clearRw := by
  by_cases hzn : z.1 / 16 = nr
  · have hzero := h.region hinv hzn
    exact .inl (hzero.1.trans hzero.2.symm)
  · by_cases hzp : z.1 / 16 = p
    · exact (h.tight.cleared hinv.mem (h.moves hinv).2.1 hz hzn).imp id fun hc => ⟨hzp, hc⟩
    · exact .inl (h.other hinv hz hzp hzn)

theorem Failed.loads (h : Failed w p nr τ w') (hinv : SysInv F lo hi w.sys) {u off : Nat} (hu : u < 64)
    (hoff : Sees u off) : w'.sys.load u off = w.sys.load u off := by
  obtain ⟨hinv', hm, -⟩ := h.moves hinv
  by_cases hun : u = nr
  · subst hun
    have hz := h.region hinv (z := slot u off) (slot_task hoff.lt)
    unfold Sys.load
    rw [hz.1, hz.2]
    rfl
  · exact hm.load_eq hinv.mem hinv'.mem hu hun hoff

/-- `do_wp_page` goes by the counts. -/
theorem doWpPage_ok_iff {s : Mem} {t off : Nat} (hp : (s.pte (slot t off)).present = true) :
    (∃ s', doWpPage s (base t + off) = .ok s') ↔
      (256 ≤ (s.pte (slot t off)).frame ∧ s.memMap ((s.pte (slot t off)).frame - 256) = 1) ∨
        ∃ n, findFree s.memMap pagingPages = some n := by
  rw [s.pte_of_present (s.dir_present_of_pte hp)]
  exact unWpPage_ok_iff

/-- A page that task `t` could write it still can. -/
theorem Failed.writable (h : Failed w p nr τ w') (hinv : SysInv F lo hi w.sys) {t off : Nat}
    (hx : slot t off ∈ userSlots) (hxn : (slot t off).1 / 16 ≠ nr)
    (hp : (w.sys.mm.pte (slot t off)).present = true)
    (hw : (w.sys.mm.pte (slot t off)).rw = true ∨ ∃ s, doWpPage w.sys.mm (base t + off) = .ok s) :
    (w'.sys.mm.pte (slot t off)).present = true ∧ ((w'.sys.mm.pte (slot t off)).rw = true ∨
      ∃ s, doWpPage w'.sys.mm (base t + off) = .ok s) := by
  have hmap := h.memMap hinv
  have hfix := (h.moves hinv).2.1.rest _ hx hxn
  have hp' : (w'.sys.mm.pte (slot t off)).present = true := by rw [hfix.present]; exact hp
  have hpp : pagingPages = 3840 := by decide
  refine ⟨hp', .inr ?_⟩
  rw [doWpPage_ok_iff hp', hfix.frame, findFree_congr hmap]
  obtain hrw | hs := hw
  · obtain ⟨c1, c2, c3⟩ := rw_count hinv.mem hx hp hrw
    rw [← hmap _ (by omega)] at c3
    exact .inl ⟨c1, c3⟩
  · obtain ⟨c1, c2⟩ | hfree := (doWpPage_ok_iff hp).mp hs
    · have hr := (hinv.mem.pte_range hx hp).resolve_right (by omega)
      have hb := hinv.mem.bounds
      rw [← hmap _ (by omega)] at c2
      exact .inl ⟨c1, c2⟩
    · exact .inr hfree

theorem Failed.noTrace (h : Failed w p nr τ w') (hinv : SysInv F lo hi w.sys) : NoTrace w p nr w' := by
  have h4 := h.range.2.2.2
  obtain ⟨hinv', -, -⟩ := h.moves hinv
  refine ⟨⟨by rw [h.task, h4], h.task⟩, h.memMap hinv, fun k hk => (h.dirs hinv hk).2, h.fCount,
    h.iCount, fun u hu off hoff => h.loads hinv hu hoff, fun z hz => h.entries hinv hz, ?_⟩
  intro t off v σ he hlive
  obtain ⟨τ', hrun, hoff, hp, hw⟩ := store_survived hinv he hlive
  have hrun' : w'.sys.Running t τ' := ⟨hrun.1, by rw [h.task]; exact hrun.2.1, hrun.2.2⟩
  have hok := hinv.task t τ' hrun.2.1
  have hlt : off < 0x4000000 := lt_of_lt_of_le hoff hok.limit
  have hxn : (slot t off).1 / 16 ≠ nr := by
    rw [slot_task hlt]
    rintro rfl
    cases h4.symm.trans hrun.2.1
  obtain ⟨hp', hw'⟩ := h.writable hinv (slot_mem hrun.1 hok.lt hlt) hxn hp hw
  obtain ⟨σ', he', hlive'⟩ := store_ok (v := v) hrun' hoff hp' hw'
  refine ⟨σ', he', hlive'.trans h.task, fun u hu o ho => ?_⟩
  obtain ⟨i1, τ1, r1, l1, p1, st1⟩ := store_cases hinv he
  obtain ⟨i2, τ2, r2, l2, p2, st2⟩ := store_cases hinv' he'
  rw [Stored.load hinv i1 st1 r1 l1 p1 hlive hu ho, Stored.load hinv' i2 st2 r2 l2 p2 hlive' hu ho,
    h.loads hinv hu ho]

end NoTrace

/-- A `copy_process` that returns -EAGAIN, in any state the system can reach and with any free
    memory, leaves no trace. -/
theorem failed_fork_leaves_no_trace (F : Nat → Exe) (lo hi : Nat) (h1 : 256 ≤ lo) (h2 : lo ≤ hi)
    (h3 : hi ≤ 4096) (w w' : World) (h : (taskSystem F lo hi).Reachable w.sys) (p nr : Nat)
    (he : w.copyProcess p nr = .ok (-11, w')) : NoTrace w p nr w' := by
  obtain ⟨τ, hf⟩ := copyProcess_failed he
  exact hf.noTrace (taskSystem_inv h1 h2 h3 h)

/-- Task 0 forks with at most one page free: the page table cannot be had. -/
theorem copyProcess_first {w : World} {F : Nat → Exe} {lo : Nat} (hinv : SysInv F lo (lo + 1) w.sys)
    (h0 : w.sys.task 0 = some Mm.initTask) (h1 : w.sys.task 1 = none) :
    ∃ w', w.copyProcess 0 1 = .ok (-11, w') := by
  unfold World.copyProcess
  rw [h0]
  dsimp only
  rw [if_neg (not_not.mpr ⟨by omega, by omega, by omega, h1, rfl, rfl⟩)]
  cases hg : getFreePage w.sys.mm with
  | none => exact ⟨w, rfl⟩
  | some q =>
    obtain ⟨f, s⟩ := q
    have hf := getFreePage_spec hinv.mem hg
    have hnone : getFreePage s = none := by
      cases hg2 : getFreePage s with
      | none => rfl
      | some q2 =>
        have hf2 := getFreePage_spec hf.inv hg2
        refine absurd (Finset.mem_insert.mpr (.inl ?_)) hf2.notOwn
        have := hf.range
        have := hf2.range
        omega
    have hdir : copyDir s 0 16 160 = .ok (false, s) := by
      unfold copyDir
      have habs : (s.dir 16).present = false := by
        rw [hf.dir]
        exact hinv.free_dirs (c := 1) (k := 0) (by omega) (by omega) h1 (by omega)
      rw [habs, if_neg (by decide), hf.inv.ident 0 (by omega), if_neg (by decide), hnone]
    have hcopy : copyPageTables s (base 0) (base 1) Mm.initTask.limit = .ok (-1, s) := by
      have hdirs : copyDirs s (16 * 0) (16 * 1) 160 1 = .ok (false, s) := hdir
      have hslots : slots Mm.initTask.limit = 1 := by decide
      unfold copyPageTables
      rw [if_neg (by decide), base_shift, base_shift, if_pos (base_eq_zero.mpr rfl), hslots]
      exact bind_of_ok hdirs _
    have hlimit : Mm.initTask.limit ≤ 0x4000000 := show 0xA0000 ≤ 0x4000000 by omega
    obtain ⟨s2, e2, hfr⟩ := freePageTables_spec hf.inv (t := 1) (by omega) (by omega) hlimit
    have hmem : copyMem s 0 1 Mm.initTask = .ok (false, s2) := by
      unfold copyMem
      rw [if_neg (by decide)]
      have hr : ¬ (-1 : Int) = 0 := by omega
      refine (bind_of_ok hcopy _).trans ?_
      dsimp only
      rw [if_neg hr]
      exact bind_of_ok e2 _
    obtain ⟨s3, e3, -⟩ := freePage_owned hfr.inv (Finset.mem_insert_self f w.sys.own)
    dsimp only
    rw [hmem]
    dsimp only
    rw [e3]
    exact ⟨_, rfl⟩

/-- A machine with one page: the first fork fails. -/
theorem failed_fork_one_page : ∃ w w' : World,
    (taskSystem (fun _ => zeroText) 1024 1025).Reachable w.sys ∧
      w.copyProcess 0 1 = .ok (-11, w') ∧ NoTrace w 0 1 w' := by
  let σ : Sys := ⟨memInit headMem (1024 * 4096) (1025 * 4096), ∅,
    Function.update (fun _ => none) 0 (some Mm.initTask), fun _ => 0⟩
  have hr : (taskSystem (fun _ => zeroText) 1024 1025).Reachable σ :=
    .init ⟨headMem, headMem_boot, fun _ => 0, rfl⟩
  let w : World := ⟨σ, 1, fun _ _ => none, fun _ => none, fun _ => none, fun _ => 0⟩
  obtain ⟨w', he⟩ := copyProcess_first (w := w)
    (taskSystem_inv (by omega) (by omega) (by omega) hr) rfl rfl
  exact ⟨w, w', hr, he, failed_fork_leaves_no_trace (fun _ => zeroText) 1024 1025 (by omega)
    (by omega) (by omega) w w' hr 0 1 he⟩

end Linux011.Kernel
