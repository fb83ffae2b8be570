/-
  Runs that exist. A state with few referenced frames (`Roomy`) has a free page, so the steps
  below do happen: fork without page tables or with one, the exec of the first task, the fault
  that reads a page from the executable.
-/
import Linux011.Mm.Accesses

namespace Linux011.Mm

open Linux011.Lib Sys

variable {F : Nat → Exe} {lo hi n : Nat} {s s' : Mem} {own : Finset Nat}

/-! ## Free pages -/

/-- At most `n` managed frames are referenced. -/
def Roomy (n : Nat) (s : Mem) (own : Finset Nat) : Prop :=
  ∃ R : Finset Nat, R.card ≤ n ∧ own ⊆ R ∧
    (∀ d, UserDir d → (s.dir d).present → (s.dir d).frame ∈ R) ∧
    ∀ x ∈ userSlots, (s.pte x).present → 256 ≤ (s.pte x).frame → (s.pte x).frame ∈ R

theorem findFree_ne_none {m : Nat → Nat} {k : Nat} (hk : m k = 0) : ∀ n, k < n →
    findFree m n ≠ none
  | 0, h => absurd h (Nat.not_lt_zero k)
  | n + 1, h => by
    unfold findFree
    split_ifs with h0
    · simp
    · refine findFree_ne_none hk n ?_
      by_contra hn
      obtain rfl : k = n := by omega
      exact h0 hk

namespace Roomy

theorem free (hr : Roomy n s own) (h : MemInv lo hi s own) (hn : n < hi - lo) :
    ∃ f s', getFreePage s = some (f, s') := by
  obtain ⟨R, hR, hown, hdir, hpte⟩ := hr
  have hb := h.bounds
  have hcard : R.card < (Finset.Ico lo hi).card := by rw [Nat.card_Ico]; omega
  obtain ⟨f, hf, hfR⟩ := Finset.exists_mem_notMem_of_card_lt_card hcard
  obtain ⟨h1, h2⟩ := Finset.mem_Ico.mp hf
  have hrefs : (viewOf s own).refs f = 0 := by
    have e1 : (viewOf s own).pteRefs f = 0 := card_filter_zero.mpr fun x hx hm =>
      hfR (hm.2 ▸ hpte x hx hm.1 (by have := hm.2; rw [viewOf_pte] at this; omega))
    have e2 : (viewOf s own).dirRefs f = 0 := card_filter_zero.mpr fun d hd hm =>
      hfR (hm.2 ▸ hdir d (mem_userDirs.mp hd) hm.1)
    have e3 : (viewOf s own).ownRefs f = 0 := if_neg fun hm => hfR (hown hm)
    simp only [View.refs, e1, e2, e3]
  have hzero : s.memMap (f - 256) = 0 := by rw [h.acct h1 h2, hrefs]
  have hff := findFree_ne_none hzero pagingPages (by unfold pagingPages; simp; omega)
  obtain ⟨k, hk⟩ := Option.ne_none_iff_exists'.mp hff
  exact ⟨_, _, by rw [getFreePage, hk]; rfl⟩

theorem fresh {f : Nat} (hr : Roomy n s own) (hf : Fresh lo hi s own f s') :
    Roomy (n + 1) s' (insert f own) := by
  obtain ⟨R, hR, hown, hdir, hpte⟩ := hr
  refine ⟨insert f R, (Finset.card_insert_le _ _).trans (by omega),
    Finset.insert_subset_insert _ hown, ?_, ?_⟩
  · intro d hd hp
    rw [hf.dir] at hp ⊢
    exact Finset.mem_insert_of_mem (hdir d hd hp)
  · intro x hx hp hfr
    rw [hf.pte x hx] at hp hfr ⊢
    exact Finset.mem_insert_of_mem (hpte x hx hp hfr)

theorem put {f : Nat} {x : Nat × Nat} (hr : Roomy n s own) (hf : f ∈ own)
    (hput : Put lo hi s own f x s') : Roomy (n + 1) s' (own.erase f) := by
  obtain ⟨R, hR, hown, hdir, hpte⟩ := hr
  refine ⟨insert (s'.dir x.1).frame R, (Finset.card_insert_le _ _).trans (by omega), ?_, ?_, ?_⟩
  · exact fun g hg => Finset.mem_insert_of_mem (hown (Finset.mem_of_mem_erase hg))
  · intro d hd hp
    by_cases hdx : d = x.1
    · rw [hdx]; exact Finset.mem_insert_self _ _
    · rw [hput.dir d hdx] at hp ⊢
      exact Finset.mem_insert_of_mem (hdir d hd hp)
  · intro z hz hp hfr
    by_cases hzx : z = x
    · rw [hzx, hput.slot]
      exact Finset.mem_insert_of_mem (hown hf)
    · rw [hput.pte z hz hzx] at hp hfr ⊢
      exact Finset.mem_insert_of_mem (hpte z hz hp hfr)

theorem poked {x : Nat × Nat} {j v : Nat} (hr : Roomy n s own) (hx : x ∈ userSlots)
    (hp : (s.pte x).present) (hpk : Poked lo hi s own x j v s') : Roomy n s' own := by
  obtain ⟨R, hR, hown, hdir, hpte⟩ := hr
  refine ⟨R, hR, hown, fun d hd hpd => ?_, fun z hz hpz hfr => ?_⟩
  · rw [hpk.dir] at hpd ⊢; exact hdir d hd hpd
  · by_cases hzx : z = x
    · subst hzx
      rw [hpk.slot] at hfr ⊢
      exact hpte z hx hp hfr
    · rw [hpk.pte z hz hzx] at hpz hfr ⊢
      exact hpte z hz hpz hfr

theorem unprotected {x : Nat × Nat} (hr : Roomy n s own) (hu : Unprotected lo hi s own x s') :
    Roomy (n + 1) s' own := by
  obtain ⟨R, hR, hown, hdir, hpte⟩ := hr
  refine ⟨insert (s'.pte x).frame R, (Finset.card_insert_le _ _).trans (by omega),
    hown.trans (Finset.subset_insert _ _), fun d hd hpd => ?_, fun z hz hpz hfr => ?_⟩
  · rw [hu.dir] at hpd ⊢; exact Finset.mem_insert_of_mem (hdir d hd hpd)
  · by_cases hzx : z = x
    · rw [hzx]; exact Finset.mem_insert_self _ _
    · rw [hu.pte z hz hzx] at hpz hfr ⊢
      exact Finset.mem_insert_of_mem (hpte z hz hpz hfr)

/-- A fork adds at most the 16 tables of the child. -/
theorem copied {p c nr : Nat} {m : Nat} (hr : Roomy n s own) (h : MemInv lo hi s own)
    (hcp : Copied lo hi s own (16 * p) (16 * c) nr m true s') (hm : m ≤ 16) (hnr : nr ≤ 1024)
    (hp : p < 64) (hp0 : p = 0 → m ≤ 1 ∧ nr ≤ 160)
    (hfree : ∀ k < 16, (s.dir (16 * c + k)).present = false) : Roomy (n + 16) s' own := by
  obtain ⟨R, hR, hown, hdir, hpte⟩ := hr
  set T := (Finset.range 16).image fun k => (s'.dir (16 * c + k)).frame with hT
  have hTc : T.card ≤ 16 := Finset.card_image_le.trans (by simp)
  have hout : ∀ d, d / 16 ≠ c → s'.dir d = s.dir d := fun d hd => (hcp.moves hm).dir d hd
  refine ⟨R ∪ T, (Finset.card_union_le _ _).trans (by omega),
    hown.trans Finset.subset_union_left, ?_, ?_⟩
  · intro d hd hpd
    by_cases hdc : d / 16 = c
    · refine Finset.mem_union_right _ (Finset.mem_image.mpr ⟨d % 16, by simp; omega, ?_⟩)
      have : 16 * c + d % 16 = d := by omega
      rw [this]
    · rw [hout d hdc] at hpd ⊢
      exact Finset.mem_union_left _ (hdir d hd hpd)
  · intro z hz hpz hfr
    have hz2 := (mem_userSlots.mp hz).2
    by_cases hdc : z.1 / 16 = c
    · -- an entry of the child is the parent's
      have hk : z.1 % 16 < m := by
        by_contra hk
        have hd := s'.dir_present_of_pte hpz
        rw [hcp.dir z.1 (fun k hk' => by omega)] at hd
        have := hfree (z.1 % 16) (by omega)
        rw [show 16 * c + z.1 % 16 = z.1 by omega] at this
        rw [this] at hd
        cases hd
      have hzz : z = (16 * c + z.1 % 16, z.2) := Prod.ext (by simp; omega) rfl
      obtain ⟨htw, hab⟩ := hcp.twin rfl (z.1 % 16) hk
      by_cases hi2 : z.2 < nr
      · have ht := htw z.2 hi2
        rw [← hzz] at ht
        have hpx : (s.pte (16 * p + z.1 % 16, z.2)).present := by rw [← ht.1]; exact hpz
        have hfe := congrArg Entry.frame (ht.2 hpx)
        simp only [Entry.clearRw_frame] at hfe
        rw [hfe] at hfr ⊢
        by_cases hpz0 : p = 0
        · -- task 0 maps only the low megabyte through the first identity table
          obtain ⟨hm1, hn1⟩ := hp0 hpz0
          have hk0 : 16 * p + z.1 % 16 = 0 := by omega
          have hd0 := h.ident 0 (by omega)
          have hid := (h.identEntry 0 (by omega) z.2 hz2).2.2
          rw [hk0, s.pte_of_present (by rw [hd0]; rfl), hd0] at hfr
          have hfr' : 256 ≤ ((s.mem (0 + 1)).entry z.2).frame := hfr
          omega
        · exact Finset.mem_union_left _ (hpte _ (mem_userSlots.mpr ⟨⟨by simp; omega,
            by simp; omega⟩, hz2⟩) hpx hfr)
      · have := hab z.2 hz2 (by omega)
        rw [← hzz] at this
        rw [this] at hpz
        cases hpz
    · have hfix := (hcp.moves hm).rest z hz hdc
      rw [hfix.present] at hpz
      rw [hfix.frame] at hfr ⊢
      exact Finset.mem_union_left _ (hpte z hz hpz hfr)

theorem fill {f : Nat} (hr : Roomy n s own) (h : MemInv lo hi s own) (hf : f ∈ own) (p : Page) :
    Roomy n (s.setPage f p) own := by
  obtain ⟨R, hR, hown, hdir, hpte⟩ := hr
  obtain ⟨_, hd, hq⟩ := h.fill hf p
  refine ⟨R, hR, hown, fun d hud hp => ?_, fun z hz hp hfr => ?_⟩
  · rw [hd] at hp ⊢; exact hdir d hud hp
  · rw [hq z hz] at hp hfr ⊢; exact hpte z hz hp hfr

theorem freed {t : Nat} (hr : Roomy n s own) (hm : Moves lo t s s')
    (hgone : ∀ k < 16, (s'.dir (16 * t + k)).present = false) : Roomy n s' own := by
  obtain ⟨R, hR, hown, hdir, hpte⟩ := hr
  have hnot : ∀ d, (s'.dir d).present → d / 16 ≠ t := by
    intro d hp he
    have := hgone (d % 16) (by omega)
    rw [show 16 * t + d % 16 = d by omega] at this
    rw [this] at hp
    cases hp
  refine ⟨R, hR, hown, fun d hd hp => ?_, fun z hz hp hfr => ?_⟩
  · have hne := hnot d hp
    rw [hm.dir d hne] at hp ⊢
    exact hdir d hd hp
  · have hfix := hm.rest z hz (hnot z.1 (s'.dir_present_of_pte hp))
    rw [hfix.present] at hp
    rw [hfix.frame] at hfr ⊢
    exact hpte z hz hp hfr

end Roomy

/-! ## Steps that happen -/

/-- The copy of a parent that has at most its first page table. -/
theorem copyDirs_ok (h : MemInv lo hi s own) {fd td nr : Nat} (hnr : nr ≤ 1024)
    (hfree : getFreePage s ≠ none) : ∀ m, (∀ k < m, UserDir (td + k)) →
    (∀ k < m, ∀ i < nr, CopyPair (fd + k) (td + k) i) →
    (∀ k < m, ∀ k' < m, fd + k ≠ td + k') →
    (∀ k < m, (s.dir (td + k)).present = false) →
    (∀ k < m, 1 ≤ k → (s.dir (fd + k)).present = false) →
    ∃ s', copyDirs s fd td nr m = .ok (true, s')
  | 0, _, _, _, _, _ => ⟨s, rfl⟩
  | m + 1, htd, hc, hdis, hto, hfrom => by
    obtain ⟨s1, e1⟩ := copyDirs_ok h hnr hfree m (fun k hk => htd k (by omega))
      (fun k hk => hc k (by omega)) (fun k hk k' hk' => hdis k (by omega) k' (by omega))
      (fun k hk => hto k (by omega)) (fun k hk => hfrom k (by omega))
    have hstep : copyDirs s fd td nr (m + 1) = copyDir s1 (fd + m) (td + m) nr := by
      rw [copyDirs, e1]; rfl
    rw [hstep]
    rcases copyDirs_spec h hnr m (fun k hk => htd k (by omega)) (fun k hk => hc k (by omega))
      (fun k hk k' hk' => hdis k (by omega) k' (by omega)) with e | ⟨ok, s2, e, hcp⟩
    · rw [e] at e1; cases e1
    · rw [e] at e1
      obtain ⟨rfl, rfl⟩ := Prod.mk.inj (Except.ok.inj e1)
      have h1 : (s2.dir (td + m)).present = false := by
        rw [hcp.dir _ (fun k hk => by omega)]; exact hto m (by omega)
      have h2 : s2.dir (fd + m) = s.dir (fd + m) :=
        hcp.dir _ (fun k hk => hdis m (by omega) k (by omega))
      unfold copyDir
      rw [h1, if_neg (by decide)]
      by_cases hm0 : m = 0
      · subst hm0
        have hs2 : s2 = s := by
          rw [copyDirs] at e
          cases e
          rfl
        subst hs2
        cases (s2.dir (fd + 0)).present with
        | false => exact ⟨s2, rfl⟩
        | true =>
          obtain ⟨r, hr⟩ := Option.ne_none_iff_exists'.mp hfree
          rw [if_neg (by decide), hr]
          exact ⟨_, rfl⟩
      · rw [h2, hfrom m (by omega) (by omega)]
        exact ⟨s2, rfl⟩

variable {σ : Sys}

/-- `copy_page_tables` from task `p` to task `c` succeeds. -/
theorem copyMem_ok (h : MemInv lo hi s own) {p c : Nat} {τ : Task} (hp : p < 64) (hc : 1 ≤ c)
    (hc' : c < 64) (hpc : p ≠ c) (hs : CopySize p τ.limit) (hcode : τ.codeLimit ≤ τ.limit)
    (hfree : getFreePage s ≠ none) (hto : ∀ k < 16, (s.dir (16 * c + k)).present = false)
    (hfrom : ∀ k < slots τ.limit, 1 ≤ k → (s.dir (16 * p + k)).present = false) :
    ∃ s', copyMem s p c τ = .ok (true, s') ∧ Copied lo hi s own (16 * p) (16 * c)
      (if p = 0 then 160 else 1024) (slots τ.limit) true s' := by
  have hsl := slots_le hs.1
  have hpair : ∀ k < slots τ.limit, ∀ i < (if p = 0 then 160 else 1024),
      CopyPair (16 * p + k) (16 * c + k) i := by
    intro k hk i hi'
    refine ⟨⟨by omega, by omega⟩, by split_ifs at hi' <;> omega, by omega, ?_⟩
    by_cases hp0 : p = 0
    · right
      have : slots τ.limit = 1 := by rw [hs.2 hp0]; decide
      rw [if_pos hp0] at hi'
      omega
    · exact Or.inl ⟨⟨by omega, by omega⟩, by omega⟩
  obtain ⟨s1, e1⟩ := copyDirs_ok h (show (if p = 0 then 160 else 1024) ≤ 1024 by split_ifs <;> omega)
    hfree (slots τ.limit) (fun k hk => ⟨by omega, by omega⟩) hpair (fun k hk k' hk' => by omega)
    (fun k hk => hto k (by omega)) hfrom
  have hcpt : copyPageTables s (base p) (base c) τ.limit = .ok (0, s1) := by
    have hnr : (if base p = 0 then 0xA0 else 1024) = if p = 0 then 160 else 1024 := by
      simp only [base_eq_zero]
    unfold copyPageTables
    rw [if_neg (by rw [base_align, base_align]; decide), base_shift, base_shift, hnr, e1]
    rfl
  have hcm : copyMem s p c τ = .ok (true, s1) := by
    unfold copyMem
    rw [if_neg (not_lt.mpr hcode)]
    exact bind_of_ok hcpt _
  refine ⟨s1, hcm, ?_⟩
  rcases copyMem_spec h hp hc hc' hpc hs hcode with e | ⟨s2, e, hcp⟩ | ⟨s2, s3, e, _⟩
  · rw [hcm] at e; cases e
  · rw [hcm] at e; cases e; exact hcp
  · rw [hcm] at e; cases e

/-- A fork of a parent that has at most its first page table succeeds. -/
theorem fork_ok (h : SysInv F lo hi σ) (hr : Roomy n σ.mm σ.own) (hn : n + 1 < hi - lo)
    {p c : Nat} {τ : Task} (hp : σ.task p = some τ) (hph : τ.phase = .user)
    (hnf : τ.fault = none) (hc : 1 ≤ c) (hc' : c < 64) (hfree : σ.task c = none)
    (hdirs : ∀ k < slots τ.limit, 1 ≤ k → (σ.mm.dir (16 * p + k)).present = false) :
    ∃ σ', σ.fork p c = .ok σ' ∧ Forked F lo hi σ p c τ σ' ∧ Roomy (n + 17) σ'.mm σ'.own ∧
      σ'.iCount = incCount σ.iCount τ.executable := by
  have ho := h.task p τ hp
  have hp64 := ho.lt
  have hpc : p ≠ c := by rintro rfl; rw [hp] at hfree; cases hfree
  obtain ⟨f, s1, hg⟩ := hr.free h.mem (by omega)
  have hf := getFreePage_spec h.mem hg
  have hr1 := hr.fresh hf
  obtain ⟨f2, s2, hg2⟩ := hr1.free hf.inv hn
  have habs : ∀ k < 16, (s1.dir (16 * c + k)).present = false := by
    intro k hk; rw [hf.dir]; exact h.free_dirs hc hc' hfree hk
  obtain ⟨s3, e3, hcp⟩ := copyMem_ok hf.inv hp64 hc hc' hpc ⟨ho.limit, ho.zero⟩ ho.code
    (by rw [hg2]; simp) habs (fun k hk h1 => by rw [hf.dir]; exact hdirs k hk h1)
  have hfork : σ.fork p c = .ok
      { mm := s3, own := insert f σ.own, task := Function.update σ.task c (some τ)
        iCount := incCount σ.iCount τ.executable } := by
    unfold Sys.fork
    rw [hp]
    dsimp only
    rw [if_neg (not_not.mpr ⟨hp64, hc, hc', hfree, hph, hnf⟩), hg]
    dsimp only
    rw [e3]
  refine ⟨_, hfork, ?_, ?_, rfl⟩
  · rcases (fork_cases h hfork).2 with ⟨_, ht, _⟩ | ⟨τ', hF⟩
    · -- the child is there, so this is the fork that succeeds
      have : Function.update σ.task c (some τ) c = σ.task c := congrFun ht c
      rw [Function.update_self, hfree] at this
      cases this
    · cases hp.symm.trans hF.parent
      exact hF
  · exact hr1.copied hf.inv hcp (slots_le ho.limit) (by split_ifs <;> omega) hp64
      (fun hp0 => ⟨by rw [ho.zero hp0]; decide, by rw [if_pos hp0]⟩) habs

/-- A fault on a page that no other task can share starts to read it. -/
theorem fault_read_ok (h : SysInv F lo hi σ) (hr : Roomy n σ.mm σ.own) (hn : n + 1 < hi - lo)
    {t x off : Nat} {τ : Task} (hrun : σ.Running t τ) (hx : τ.executable = some x)
    (hlim : off < τ.limit) (hdata : off / 4096 * 4096 < τ.endData)
    (habs : (σ.mm.pte (slot t off)).present = false) (hns : ¬ Shareable σ t τ off) :
    ∃ σ1 σ2, σ.fault t off = .ok σ1 ∧ σ1.faultRead F t = .ok σ2 ∧ σ2.task = σ.task ∧
      σ2.iCount = σ.iCount ∧ Roomy (n + 2) σ2.mm σ2.own ∧ Moves lo t σ.mm σ2.mm ∧
      (∀ d, d ≠ (slot t off).1 → σ2.mm.dir d = σ.mm.dir d) ∧
      (∀ z ∈ userSlots, z ≠ slot t off → σ2.mm.pte z = σ.mm.pte z) ∧
      (∃ f, σ2.mm.pte (slot t off) = Entry.seven f ∧ ∀ j,
        (σ2.mm.mem f).byte j = ((F x).page τ.endData (off / 4096 * 4096)).byte j) := by
  have ho := h.task t τ hrun.2.1
  have hlt : off < 0x4000000 := lt_of_lt_of_le hlim ho.limit
  have hltp : off / 4096 * 4096 < 0x4000000 := by omega
  have hsp : ∀ q, slotAt (base q + off / 4096 * 4096) = slot q off := fun _ => slot_page
  obtain ⟨ps, hps⟩ : ∃ ps, σ.others t τ (off / 4096 * 4096) = some ps := by
    unfold Sys.others
    rw [hx]
    dsimp only
    rw [if_neg (by omega)]
    split_ifs <;> exact ⟨_, rfl⟩
  have hos := (others_spec hps).1
  -- nothing to share, so a page is taken
  have hshare : sharePage σ.mm (off / 4096 * 4096) t ps = .ok (false, σ.mm) := by
    rcases sharePage_spec h.mem hltp hrun.1 ho.lt (by rw [hsp]; exact habs) ps hos with
      ⟨e, _⟩ | ⟨q, hq, hcl, _⟩
    · exact e
    · rw [hsp] at hcl
      exact absurd ⟨ps, hps, q, hq, hcl⟩ hns
  obtain ⟨f, s1, hg⟩ := hr.free h.mem (by omega)
  have hf := getFreePage_spec h.mem hg
  have hr1 := hr.fresh hf
  set τ1 : Task := { τ with fault := some (f, off / 4096 * 4096) } with hτ1
  set σ1 : Sys := { σ with
    mm := s1, own := insert f σ.own, task := Function.update σ.task t (some τ1) } with hσ1
  have hfault : σ.fault t off = .ok σ1 := by
    unfold Sys.fault
    rw [hrun.2.1]
    dsimp only
    rw [if_neg (not_not.mpr ⟨hrun.1, Or.inl hrun.2.2.1, hrun.2.2.2, hlim, by
      rw [slot_page]; exact habs⟩), hps]
    unfold doNoPage
    dsimp only
    rw [hshare]
    dsimp only [bind, Except.bind]
    rw [if_neg (by decide), hg]
    rfl
  obtain ⟨hinv1, _⟩ := fault_cases h hfault
  have hown : f ∈ σ1.own := Finset.mem_insert_self f σ.own
  have ht1 : σ1.task t = some τ1 := Function.update_self t _ σ.task
  -- the page is mapped: a table can be made if it is missing
  set pg := (F x).page τ.endData (off / 4096 * 4096) with hpg
  have hr2 : Roomy (n + 1) (s1.setPage f pg) σ1.own := hr1.fill hinv1.mem hown pg
  obtain ⟨g, s2, hg2⟩ := hr2.free (hinv1.mem.fill hown pg).1 hn
  obtain ⟨s3, hput⟩ : ∃ s3, doNoPageRead s1 f (base t + off / 4096 * 4096) pg = .ok s3 := by
    unfold doNoPageRead putPage
    dsimp only
    by_cases hpd : ((s1.setPage f pg).dir (slotAt (base t + off / 4096 * 4096)).1).present
    · rw [if_pos hpd]; exact ⟨_, rfl⟩
    · rw [if_neg hpd, hg2]; exact ⟨_, rfl⟩
  have habs1 : (σ1.mm.pte (slotAt (base t + off / 4096 * 4096))).present = false := by
    rw [hsp, show σ1.mm.pte (slot t off) = σ.mm.pte (slot t off) from
      hf.pte _ (slot_mem hrun.1 ho.lt hlt)]
    exact habs
  have hP : Put lo hi (s1.setPage f pg) σ1.own f (slot t off) s3 := by
    rcases doNoPageRead_spec hinv1.mem (userAddr_task hrun.1 ho.lt hltp) hown habs1 pg with
      ⟨_, e, _⟩ | ⟨s4, e, hP⟩
    · rw [show doNoPageRead σ1.mm f _ pg = _ from hput] at e; cases e
    · rw [show doNoPageRead σ1.mm f _ pg = _ from hput] at e
      cases e
      rw [hsp] at hP
      exact hP
  have hread : σ1.faultRead F t = .ok { σ with mm := s3, own := σ1.own.erase f } := by
    unfold Sys.faultRead
    rw [ht1]
    dsimp only
    rw [show τ1.fault = some (f, off / 4096 * 4096) from rfl,
      show τ1.executable = some x from hx]
    dsimp only
    rw [show doNoPageRead σ1.mm f (base t + off / 4096 * 4096)
      ((F x).page τ.endData (off / 4096 * 4096)) = .ok s3 from hput]
    have hτ : ({ τ1 with fault := none } : Task) = τ := by rw [hτ1, ← hrun.2.2.2]
    have htask : Function.update σ1.task t (some { τ1 with fault := none }) = σ.task := by
      rw [hτ, hσ1]
      dsimp only
      rw [Function.update_idem, ← hrun.2.1, Function.update_eq_self]
    unfold Sys.finish Sys.setMm
    dsimp only
    rw [← htask, show τ1.executable = some x from hx]
  have hfill := (hinv1.mem.fill hown pg).2
  have hm2 := hP.moves
  rw [slot_task hlt] at hm2
  refine ⟨σ1, _, hfault, hread, rfl, rfl, hr2.put hown hP,
    ((hf.moves t).trans (hinv1.mem.fill_moves hown pg t)).trans hm2, ?_, ?_, f, hP.slot, ?_⟩
  · intro d hd
    exact (hP.dir d hd).trans ((congrFun hfill.1 d).trans (congrFun hf.dir d))
  · intro z hz hne
    exact ((hP.pte z hz hne).trans (hfill.2 z hz)).trans (hf.pte z hz)
  · intro j
    rw [show (s3.mem f).byte = _ from hP.kept f (Or.inr hown), Mem.setPage_mem, if_pos rfl]

/-! ## The first program -/

/-- fork and exec, and the inode counts they need: no page fault, no store. -/
def Event.Life : Event → Prop
  | .fork .. | .execBegin .. | .execFinish .. | .execTail .. | .inodeCount .. => True
  | _ => False

/-- The runs of fork and exec alone. -/
def lifeSystem (F : Nat → Exe) (lo hi : Nat) : Lts Sys Event :=
  (taskSystem F lo hi).restrict fun _ e => e.Life

/-- A task that has just started executable `x`. -/
def started (F : Nat → Exe) (x : Nat) : Task where
  executable := some x
  endData := (F x).text + (F x).data
  codeLimit := ((F x).text + 4095) / 4096 * 4096
  limit := 0x4000000
  phase := .user
  fault := none

/-- Task 0 forks task 1, which runs an executable whose data ends on a page boundary: a
    reachable state in which task 1 has no pages yet. -/
theorem first_exec (F : Nat → Exe) (lo hi : Nat) (h1 : 256 ≤ lo) (h2 : lo ≤ hi) (h3 : hi ≤ 4096) (hroom : 100 < hi - lo)
    {x : Nat} (hx : (F x).SizeOk) (hal : ((F x).text + (F x).data) % 4096 = 0) :
    ∃ σ, (lifeSystem F lo hi).Reachable σ ∧ Roomy 17 σ.mm σ.own ∧
      σ.task 1 = some (started F x) ∧ (∀ t, t ≠ 0 → t ≠ 1 → σ.task t = none) ∧
      ∀ k < 16, (σ.mm.dir (16 * 1 + k)).present = false := by
  set σ0 : Sys := ⟨memInit headMem (lo * 4096) (hi * 4096), ∅,
    Function.update (fun _ => none) 0 (some initTask), fun _ => 0⟩ with hσ0
  have hr0 : (lifeSystem F lo hi).Reachable σ0 := .init ⟨headMem, headMem_boot, _, rfl⟩
  have i0 := taskSystem_inv h1 h2 h3 (Lts.Reachable.of_restrict hr0)
  have habs0 : ∀ d, UserDir d → (σ0.mm.dir d).present = false := by
    intro d hd
    rw [show σ0.mm.dir d = Entry.zero from headMem_boot.empty d hd.1 hd.2]
    rfl
  have hroom0 : Roomy 0 σ0.mm σ0.own := by
    refine ⟨∅, Nat.le_refl _, Finset.Subset.refl _, fun d hd hp => ?_, fun z hz hp => ?_⟩
    · rw [habs0 d hd] at hp; cases hp
    · have := σ0.mm.dir_present_of_pte hp
      rw [habs0 z.1 (mem_userSlots.mp hz).1] at this
      cases this
  have hidle : σ0.task 0 = some initTask := by simp [hσ0]
  have hfree : σ0.task 1 = none := by simp [hσ0]
  -- fork
  obtain ⟨σ1, e1, hf1, hroom1, _⟩ := fork_ok (p := 0) (c := 1) (τ := initTask) i0 hroom0 (by omega)
    hidle rfl rfl (by omega) (by omega) hfree (fun k hk hk1 => by
      rw [show slots initTask.limit = 1 by decide] at hk; omega)
  have hr1 : (lifeSystem F lo hi).Reachable σ1 := .step (e := .fork 0 1) hr0 ⟨trivial, e1⟩
  have i1 := taskSystem_inv h1 h2 h3 (Lts.Reachable.of_restrict hr1)
  have ht1 : σ1.task 1 = some initTask := by rw [hf1.task, Function.update_self]
  -- exec
  set τ2 : Task := { initTask with executable := some x, phase := .execing } with hτ2
  set σ2 : Sys := σ1.setTask 1 (some τ2) with hσ2
  have e2 : σ1.execBegin F 1 x = .ok σ2 := by
    unfold Sys.execBegin
    rw [ht1]
    dsimp only
    rw [if_pos ⟨by omega, rfl, rfl, hx⟩]
  have hr2 : (lifeSystem F lo hi).Reachable σ2 := .step (e := .execBegin 1 x) hr1 ⟨trivial, e2⟩
  have i2 := taskSystem_inv h1 h2 h3 (Lts.Reachable.of_restrict hr2)
  have ht2 : σ2.task 1 = some τ2 := by simp [hσ2, Sys.setTask]
  obtain ⟨s3, e3, _, m3, g3⟩ := i2.freeTask ht2 (by omega)
  set σ3 : Sys := { mm := s3, own := σ2.own, iCount := σ2.iCount
                    task := Function.update σ2.task 1 (some { started F x with phase := .tail }) }
    with hσ3
  have e3' : σ2.execFinish F 1 [] = .ok σ3 := by
    unfold Sys.execFinish
    rw [ht2]
    dsimp only
    rw [show τ2.executable = some x from rfl]
    dsimp only
    rw [if_neg (not_not.mpr ⟨rfl, by simp, by simp, fun f hf => absurd hf List.not_mem_nil⟩), e3]
    rfl
  have hr3 : (lifeSystem F lo hi).Reachable σ3 := .step (e := .execFinish 1 []) hr2 ⟨trivial, e3'⟩
  have ht3 : σ3.task 1 = some { started F x with phase := .tail } := by simp [hσ3]
  have e4 : σ3.execTail 1 = .ok (σ3.setTask 1 (some (started F x))) := by
    unfold Sys.execTail
    rw [ht3]
    dsimp only
    rw [if_neg (not_not.mpr ⟨rfl, rfl⟩), if_pos (show (started F x).endData % 4096 = 0 from hal)]
    rfl
  have hr4 : (lifeSystem F lo hi).Reachable (σ3.setTask 1 (some (started F x))) :=
    .step (e := .execTail 1) hr3 ⟨trivial, e4⟩
  refine ⟨_, hr4, ?_, by simp [Sys.setTask], fun t ht0 ht1' => ?_, g3⟩
  · exact Roomy.freed hroom1 m3 g3
  · have e : (σ3.setTask 1 (some (started F x))).task t = σ1.task t := by
      simp [hσ3, hσ2, Sys.setTask, ht1']
    rw [e, hf1.task, Function.update_of_ne ht1']
    simp [hσ0, ht0]

/-! ## Two tasks of one executable -/

/-- An executable of one page of zeros. -/
def zeroText : Exe where
  text := 4096
  data := 0
  bss := 0
  byte _ := 0

theorem others_mem {t p x tmp : Nat} {τ τ' : Task} (hx : τ.executable = some x)
    (hd : tmp < τ.endData) (hc : 2 ≤ σ.iCount x) (hp : 1 ≤ p) (hp' : p < 64) (hpt : p ≠ t)
    (hτ' : σ.task p = some τ') (hx' : τ'.executable = some x) :
    ∃ ps, σ.others t τ tmp = some ps ∧ p ∈ ps := by
  unfold Sys.others
  rw [hx]
  dsimp only
  rw [if_neg (by omega), if_neg (by omega)]
  refine ⟨_, rfl, List.mem_filter.mpr ⟨List.mem_reverse.mpr (List.mem_range.mpr hp'), ?_⟩⟩
  rw [decide_eq_true_eq, hτ']
  exact ⟨by omega, hpt, decide_eq_true hx'⟩

/-- A page mapped writable that is not dirty can be shared. -/
theorem clean_of_rw (h : MemInv lo hi s own) {z : Nat × Nat} (hz : z ∈ userSlots)
    (hp : (s.pte z).present = true) (hr : (s.pte z).rw = true) (hd : (s.pte z).dirty = false) :
    Clean s z := by
  have hrg := (h.pte_range hz hp).resolve_right (fun hr' => by rw [hr] at hr'; cases hr'.2)
  have hb := h.bounds
  refine ⟨hp, hd, ?_, ?_⟩
  · unfold lowMem Entry.addr
    omega
  · rw [h.high]
    unfold Entry.addr
    omega

theorem not_shareable {t off : Nat} {τ : Task} (h : ∀ p τ', 1 ≤ p → p ≠ t →
    σ.task p = some τ' → (σ.mm.pte (slot p off)).present = false) : ¬ Shareable σ t τ off := by
  rintro ⟨ps, hps, p, hp, hcl⟩
  obtain ⟨hos, x, _, _, htask⟩ := others_spec hps
  obtain ⟨τ', hτ', _⟩ := htask p hp
  have habs := h p τ' (hos p hp).1 (hos p hp).2.2 hτ'
  exact absurd (habs.symm.trans hcl.1) (by decide)

/-- A reachable state in which task 1 and its child `c` have started the executable and have no
    pages yet. -/
theorem first_pair (F : Nat → Exe) (lo hi : Nat) (h1 : 256 ≤ lo) (h2 : lo ≤ hi) (h3 : hi ≤ 4096) (hroom : 100 < hi - lo)
    {x c : Nat} (hx : (F x).SizeOk) (hal : ((F x).text + (F x).data) % 4096 = 0)
    (hc : 1 < c) (hc' : c < 64) :
    ∃ σ, (lifeSystem F lo hi).Reachable σ ∧ Roomy 34 σ.mm σ.own ∧
      σ.task 1 = some (started F x) ∧ σ.task c = some (started F x) ∧
      (∀ t, t ≠ 0 → t ≠ 1 → t ≠ c → σ.task t = none) ∧ σ.iCount x = 2 ∧
      (∀ k < 16, (σ.mm.dir (16 * 1 + k)).present = false) ∧
      ∀ off < 0x4000000, (σ.mm.pte (slot 1 off)).present = false ∧
        (σ.mm.pte (slot c off)).present = false := by
  obtain ⟨σ0, hr0, hroom0, ht0, hn0, hd0⟩ := first_exec F lo hi h1 h2 h3 hroom hx hal
  set σ1 : Sys := { σ0 with iCount := Function.update σ0.iCount x 1 } with hσ1
  have hr1 : (lifeSystem F lo hi).Reachable σ1 := .step (e := .inodeCount x 1) hr0 ⟨trivial, rfl⟩
  have i1 := taskSystem_inv h1 h2 h3 (Lts.Reachable.of_restrict hr1)
  obtain ⟨σ2, e2, hf, hroom2, hcnt⟩ := fork_ok (σ := σ1) (p := 1) (c := c) i1 hroom0 (by omega) ht0
    rfl rfl (by omega) hc' (hn0 c (by omega) (by omega)) (fun k hk _ => hd0 k (by
      have : slots 0x4000000 = 16 := by decide
      rw [show (started F x).limit = 0x4000000 from rfl] at hk
      omega))
  have hr2 : (lifeSystem F lo hi).Reachable σ2 := .step (e := .fork 1 c) hr1 ⟨trivial, e2⟩
  have habs : ∀ off < 0x4000000, (σ0.mm.pte (slot 1 off)).present = false := by
    intro off hoff
    have hs := slot_fst (t := 1) hoff
    rw [σ0.mm.pte_of_absent (by rw [hs.1]; exact hd0 _ hs.2)]
    rfl
  refine ⟨σ2, hr2, hroom2, ?_, ?_, ?_, ?_, ?_, ?_⟩
  · rw [hf.task, Function.update_of_ne (by omega)]; exact ht0
  · rw [hf.task, Function.update_self]
  · intro t h0 h1' hct
    rw [hf.task, Function.update_of_ne hct]
    exact hn0 t h0 h1'
  · rw [hcnt]
    dsimp only [incCount, started]
    rw [Function.update_self, hσ1]
    dsimp only
    rw [Function.update_self]
  · intro k hk
    rw [hf.moves.dir _ (by omega)]
    exact hd0 k hk
  · intro off hoff
    refine ⟨?_, (hf.twin off hoff).1.trans (habs off hoff)⟩
    exact (hf.moves.rest _ (slot_mem (by omega) (by omega) hoff)
      (by rw [slot_task hoff]; omega)).present.trans (habs off hoff)

/-- Task 1 alone runs the executable and reads its first page. -/
theorem first_page (F : Nat → Exe) (lo hi : Nat) (h1 : 256 ≤ lo) (h2 : lo ≤ hi) (h3 : hi ≤ 4096) (hroom : 100 < hi - lo)
    {x : Nat} (hx : (F x).SizeOk) (hal : ((F x).text + (F x).data) % 4096 = 0)
    (hpos : 0 < (F x).text + (F x).data) :
    ∃ σ0 σ1 σ2, (lifeSystem F lo hi).Reachable σ0 ∧ σ0.fault 1 0 = .ok σ1 ∧
      σ1.faultRead F 1 = .ok σ2 ∧ σ2.task = σ0.task ∧ σ0.task 1 = some (started F x) ∧
      (∀ t, t ≠ 0 → t ≠ 1 → σ0.task t = none) ∧ Roomy 19 σ2.mm σ2.own ∧
      (∀ k < 16, 1 ≤ k → (σ2.mm.dir (16 * 1 + k)).present = false) ∧
      ∃ f, σ2.mm.pte (slot 1 0) = Entry.seven f ∧
        ∀ j, (σ2.mm.mem f).byte j = ((F x).page ((F x).text + (F x).data) 0).byte j := by
  obtain ⟨σ0, hr0, hroom0, ht, hn, hd⟩ := first_exec F lo hi h1 h2 h3 hroom hx hal
  have i0 := taskSystem_inv h1 h2 h3 (Lts.Reachable.of_restrict hr0)
  have hs := slot_fst (t := 1) (show 0 < 0x4000000 by omega)
  have habs : (σ0.mm.pte (slot 1 0)).present = false := by
    rw [σ0.mm.pte_of_absent (by rw [hs.1]; exact hd 0 (by omega))]
    rfl
  -- no other task to share with
  have hns : ¬ Shareable σ0 1 (started F x) 0 := by
    refine not_shareable fun p τ' hp1 hp hτ' => ?_
    rw [hn p (by omega) hp] at hτ'
    cases hτ'
  obtain ⟨σ1, σ2, e1, e2, htask, _, hroom2, _, hdir, _, f, hslot, hbyte⟩ :=
    fault_read_ok i0 hroom0 (by omega) (t := 1) (x := x) ⟨by omega, ht, rfl, rfl⟩ rfl
      (show 0 < 0x4000000 by omega) (by simpa [started] using hpos) habs hns
  refine ⟨σ0, σ1, σ2, hr0, e1, e2, htask, ht, hn, hroom2, fun k hk hk1 => ?_, f, hslot, hbyte⟩
  rw [hdir _ (by rw [hs.1]; omega)]
  exact hd k hk

end Linux011.Mm
