/-
  The new segment: the old page tables are freed, and `change_ldt` maps the argument pages at its
  end. Each `put_page` takes a frame the kernel holds, and at most the first one takes a frame for
  the page table.
-/
import Linux011.Exec.Stack

namespace Linux011.Exec

open Linux011.Lib
open Linux011.Mm (Mem MemInv userSlots)
open Linux011.Mm.Sys (slot)

variable {lo hi : ℕ} {own : Finset ℕ} {t a r : ℕ} {mm mm' : Mem} {s s₁ : Kern}

/-! ## The argument pages are mapped -/

def heldBelow (page : ℕ → ℕ) (n : ℕ) : Finset ℕ := ((Finset.range n).image page).erase 0

theorem mem_heldBelow {page : ℕ → ℕ} {n f : ℕ} : f ∈ heldBelow page n ↔ f ≠ 0 ∧ ∃ i < n, page i = f := by
  simp only [heldBelow, Finset.mem_erase, Finset.mem_image, Finset.mem_range]

/-- The pages are those from `b` to 31, each has its own frame, and the kernel holds it. -/
structure Pages (own : Finset ℕ) (page : ℕ → ℕ) (b : ℕ) : Prop where
  there : ∀ i, page i ≠ 0 ↔ b ≤ i ∧ i < 32
  inj : ∀ i j, page i ≠ 0 → page i = page j → i = j
  notOwn : ∀ i, page i ≠ 0 → page i ∉ own

/-- Pages from `n` up are mapped at the end of the segment, and nothing else is there. -/
structure Mapping (lo hi : ℕ) (own : Finset ℕ) (t a r b n : ℕ) (s₁ s : Kern) : Prop where
  same : s = { s₁ with mm := s.mm }
  inv : MemInv lo hi s.mm (own ∪ heldBelow s₁.page n)
  mapped : ∀ j, n ≤ j → b ≤ j → j < 32 → s.mm.pte (slot t (4096 * (0x3FE0 + j))) = Mm.Entry.seven (s₁.page j)
  absent : ∀ m < 0x4000, m < 0x3FE0 + n ∨ m < 0x3FE0 + b → (s.mm.pte (slot t (4096 * m))).present = false
  bytes : ∀ j, s₁.page j ≠ 0 → (s.mm.mem (s₁.page j)).byte = (s₁.mm.mem (s₁.page j)).byte
  room : ∃ k, Mm.Roomy k s.mm (own ∪ heldBelow s₁.page n) ∧ k + missing s.mm t a + r ≤ hi - lo + (n - b)

theorem heldBelow_zero (page : ℕ → ℕ) : heldBelow page 0 = ∅ := rfl

theorem heldBelow_skip {page : ℕ → ℕ} {n : ℕ} (h0 : page n = 0) : heldBelow page (n + 1) = heldBelow page n := by
  ext f
  rw [mem_heldBelow, mem_heldBelow]
  refine ⟨fun ⟨hf, i, hi, he⟩ => ⟨hf, i, ?_, he⟩, fun ⟨hf, i, hi, he⟩ => ⟨hf, i, by omega, he⟩⟩
  obtain hi | rfl := Nat.lt_succ_iff_lt_or_eq.mp hi
  · exact hi
  · exact absurd (he ▸ h0) hf

theorem Pages.erase {page : ℕ → ℕ} {b n : ℕ} (h : Pages own page b) (h0 : page n ≠ 0) :
    (own ∪ heldBelow page (n + 1)).erase (page n) = own ∪ heldBelow page n := by
  ext f
  rw [Finset.mem_erase, Finset.mem_union, Finset.mem_union, mem_heldBelow, mem_heldBelow]
  constructor
  · rintro ⟨hne, hf | ⟨hf, i, hi, rfl⟩⟩
    · exact Or.inl hf
    · refine Or.inr ⟨hf, i, ?_, rfl⟩
      obtain hi | rfl := Nat.lt_succ_iff_lt_or_eq.mp hi
      · exact hi
      · exact absurd rfl hne
  · rintro (hf | ⟨hf, i, hi, rfl⟩)
    · exact ⟨fun he => h.notOwn n h0 (he ▸ hf), Or.inl hf⟩
    · refine ⟨fun he => ?_, Or.inr ⟨hf, i, by omega, rfl⟩⟩
      have := h.inj n i h0 he.symm
      omega

theorem putArgs_spec {b : ℕ} (hpg : Pages own s₁.page b) (ht : 1 ≤ t ∧ t < 64) (ha : 0x3C00 ≤ a) (hab : a ≤ 0x3FE0 + b) :
    ∀ n ≤ 32, ∀ s, Mapping lo hi own t a r b n s₁ s →
      ∃ s', putArgs n (Mm.base t + 4096 * (0x3FE0 + n)) s = .ok () s' ∧ Mapping lo hi own t a r b 0 s₁ s' := by
  intro n
  induction n with
  | zero => exact fun _ s h => ⟨s, rfl, h⟩
  | succ n ih =>
    intro hn s h
    have hpage : s.page = s₁.page := by rw [h.same]
    have haddr : Mm.base t + 4096 * (0x3FE0 + (n + 1)) - 4096 = Mm.base t + 4096 * (0x3FE0 + n) := by omega
    -- what is left is the step
    suffices hstep : ∃ s', putArg n (Mm.base t + 4096 * (0x3FE0 + n)) s = .ok () s' ∧ Mapping lo hi own t a r b n s₁ s' by
      obtain ⟨s1, e1, h1⟩ := hstep
      obtain ⟨s2, e2, h2⟩ := ih (by omega) s1 h1
      refine ⟨s2, ?_, h2⟩
      rw [putArgs, haddr]
      exact (Prog.bind_run e1).trans e2
    have hrun : putArg n (Mm.base t + 4096 * (0x3FE0 + n)) s = (if s.page n ≠ 0 then
      setMm ((Mm.putPage s.mm (s.page n) (Mm.base t + 4096 * (0x3FE0 + n))).getD s.mm) else pure () : X Unit) s := rfl
    rw [hrun]
    rw [hpage]
    by_cases h0 : s₁.page n = 0
    · rw [if_neg (not_not.mpr h0)]
      have hnb : n < b := by
        by_contra hge
        exact (hpg.there n).mpr ⟨by omega, by omega⟩ h0
      refine ⟨s, rfl, h.same, ?_, fun j hj hb hj' => h.mapped j (by omega) hb hj', fun m hm hlt => h.absent m hm (by omega),
        h.bytes, ?_⟩
      · have := h.inv
        rwa [heldBelow_skip h0] at this
      · obtain ⟨k, hr, hk⟩ := h.room
        rw [heldBelow_skip h0] at hr
        exact ⟨k, hr, by omega⟩
    · rw [if_pos h0]
      have hbn := (hpg.there n).mp h0
      have hlt : 4096 * (0x3FE0 + n) < 0x4000000 := by omega
      have hmem := Mm.slot_mem ht.1 ht.2 hlt
      have hslot : Mm.slotAt (Mm.base t + 4096 * (0x3FE0 + n)) = slot t (4096 * (0x3FE0 + n)) := rfl
      have htop := slot_top (t := t) (show 0x3C00 ≤ 0x3FE0 + n by omega) (by omega)
      have habs := h.absent (0x3FE0 + n) (by omega) (Or.inl (by omega))
      obtain ⟨k, hr, hk⟩ := h.room
      -- the pages that are not mapped yet are missing
      have hmiss : n + 1 - b + (if (s.mm.dir (16 * t + 15)).present then 0 else 1) ≤ missing s.mm t a := by
        have hsub : Finset.Ico (0x3FE0 + b) (0x3FE0 + (n + 1)) ⊆
            (Finset.Ico a 0x4000).filter fun m => (s.mm.pte (slot t (4096 * m))).present = false := by
          intro m hm
          have hm' := Finset.mem_Ico.mp hm
          exact Finset.mem_filter.mpr ⟨Finset.mem_Ico.mpr ⟨by omega, by omega⟩, h.absent m (by omega) (Or.inl (by omega))⟩
        have hcard := Finset.card_le_card hsub
        rw [Nat.card_Ico] at hcard
        unfold missing
        omega
      have hheld : s₁.page n ∈ own ∪ heldBelow s₁.page (n + 1) :=
        Finset.mem_union_right own (mem_heldBelow.mpr ⟨h0, n, Nat.lt_succ_self n, rfl⟩)
      obtain ⟨mm, he, hput, hr'⟩ := putPage_ok h.inv hheld (Mm.userAddr_task ht.1 ht.2 hlt) (by rw [hslot]; exact habs) hr
        (by rw [hslot, htop]; omega)
      rw [hslot, htop] at hr'
      rw [hslot] at hput
      rw [hpg.erase h0] at hr'
      have hnew : (mm.pte (slot t (4096 * (0x3FE0 + n)))).present := by rw [hput.slot]; rfl
      have hcount := missing_put ht (show a ≤ 0x3FE0 + n by omega) (by omega) habs hnew
        (by rw [← htop]; exact mm.dir_present_of_pte hnew) hput.pte
      refine ⟨{ s with mm := mm }, ?_, by rw [h.same], ?_, fun j hj hb hj' => ?_, fun m hm hlt' => ?_, fun j hj => ?_, ?_⟩
      · rw [he]
        rfl
      · have := hput.inv
        rwa [hpg.erase h0] at this
      · by_cases hjn : j = n
        · rw [hjn]
          exact hput.slot
        · refine (hput.pte _ (Mm.slot_mem ht.1 ht.2 (by omega)) (slot_ne (by omega) (by omega) (by omega))).trans ?_
          exact h.mapped j (by omega) hb hj'
      · refine (congrArg Mm.Entry.present (hput.pte _ (Mm.slot_mem ht.1 ht.2 (by omega))
          (slot_ne (by omega) hm (by omega)))).trans ?_
        exact h.absent m hm (by omega)
      · refine Eq.trans ?_ (h.bytes j hj)
        by_cases hjn : j < n + 1
        · exact hput.kept _ (Or.inr (Finset.mem_union_right own (mem_heldBelow.mpr ⟨hj, j, hjn, rfl⟩)))
        · -- a page that is mapped already
          have hjb := (hpg.there j).mp hj
          have hm := h.mapped j (by omega) hjb.1 hjb.2
          have hfix := hput.rest _ (Mm.slot_mem ht.1 ht.2 (show 4096 * (0x3FE0 + j) < 0x4000000 by omega))
            (slot_ne (by omega) (by omega) (by omega))
          have := hfix.2 (by rw [hm]; rfl)
          rwa [hm] at this
      · exact ⟨_, hr', by dsimp only; omega⟩

/-! ## The new segment -/

/-- The frames that are not free. -/
theorem roomy_of_avail (h : MemInv lo hi mm own) : avail mm ≤ hi - lo ∧ Mm.Roomy (hi - lo - avail mm) mm own := by
  have hb := h.bounds
  set R := (Finset.Ico lo hi).filter fun f => mm.memMap (f - 256) ≠ 0 with hR
  have hfree : ((Finset.Ico lo hi).filter fun f => ¬ mm.memMap (f - 256) ≠ 0).card = avail mm := by
    unfold avail
    refine Finset.card_bij (fun f _ => f - 256) (fun f hf => ?_) (fun f hf g hg he => ?_) fun n hn => ?_
    · obtain ⟨h1, h2⟩ := Finset.mem_filter.mp hf
      have h3 := Finset.mem_Ico.mp h1
      have h4 : Mm.pagingPages = 3840 := rfl
      exact Finset.mem_filter.mpr ⟨Finset.mem_range.mpr (by omega), not_not.mp h2⟩
    · have h1 := Finset.mem_Ico.mp (Finset.mem_filter.mp hf).1
      have h2 := Finset.mem_Ico.mp (Finset.mem_filter.mp hg).1
      omega
    · obtain ⟨h1, h2⟩ := Finset.mem_filter.mp hn
      have h3 : n < 3840 := Finset.mem_range.mp h1
      refine ⟨n + 256, Finset.mem_filter.mpr ⟨Finset.mem_Ico.mpr ?_, ?_⟩, Nat.add_sub_cancel ..⟩
      · by_contra hout
        have h4 := h.refs.usedOut (n + 256) (by omega) (by omega) hout
        simp only [Mm.viewOf, Nat.add_sub_cancel] at h4
        rw [h2] at h4
        cases h4
      · rw [Nat.add_sub_cancel]
        exact not_not.mpr h2
  have hcard : R.card + avail mm = hi - lo := by
    rw [← hfree, Finset.card_filter_add_card_filter_not, Nat.card_Ico]
  have hmem : ∀ f, lo ≤ f → f < hi → 0 < mm.memMap (f - 256) → f ∈ R := fun f h1 h2 h3 =>
    Finset.mem_filter.mpr ⟨Finset.mem_Ico.mpr ⟨h1, h2⟩, by omega⟩
  refine ⟨by omega, R, by omega, fun f hf => ?_, fun d hd hp => ?_, fun x hx hp hfr => ?_⟩
  · obtain ⟨h1, h2⟩ := h.refs.ownRange f hf
    exact hmem f h1 h2 (h.own_pos hf)
  · obtain ⟨h1, h2⟩ := h.dir_range hd hp
    exact hmem _ h1 h2 (h.dir_pos hd hp)
  · obtain h1 | h1 := h.pte_range hx hp
    · exact hmem _ h1.1 h1.2 (h.pte_pos hx hp h1.1 h1.2)
    · omega

/-- The segments of a task, and nothing mapped beyond its limit. -/
structure Segments (t : ℕ) (s : Kern) : Prop where
  task : 1 ≤ t ∧ t < 64
  cur : s.fsys.current.val = t
  code : s.ldt.code.getBase.toNat = Mm.base t
  data : s.ldt.data.getBase.toNat = Mm.base t
  codeLimit : s.ldt.code.getLimit.toNat ≤ s.ldt.data.getLimit.toNat
  dataLimit : s.ldt.data.getLimit.toNat ≤ 0x4000000
  beyond : ∀ k < 16, Mm.slots s.ldt.data.getLimit.toNat ≤ k → (s.mm.dir (16 * t + k)).present = false
  endData : s.endData.toNat ≤ 0x3000000

theorem Args.pages {s₀ : Mem} {p : ℕ} (ha : Args lo hi own s₀ p s) (hpt : p ≤ argTop) :
    Pages own s.page (32 - pagesAt p) := by
  refine ⟨fun i => ?_, ha.inj, fun i hi => ha.notOwn _ (ha.mem_frames hi)⟩
  rw [ha.there]
  unfold pagesAt
  unfold argTop at hpt ⊢
  split_ifs with h
  · omega
  · omega

/-- Both tables are freed, and the argument pages are in the new segment. -/
theorem newSegment_spec {s₀ : Mem} {p : ℕ} (hs : Segments t s) (ha : Args lo hi own s₀ p s) (hpt : p ≤ argTop)
    (hz : 0x3C00 ≤ a) (hzp : a ≤ 0x3FE0 + p / 4096) (hroom : 0x4000 - a + 1 + r ≤ avail s₀) (textSize : BitVec 32) :
    ∃ mm, (do
        free fun mm => Mm.freePageTables mm s.ldt.code.getBase.toNat s.ldt.code.getLimit.toNat
        free fun mm => Mm.freePageTables mm s.ldt.data.getBase.toNat s.ldt.data.getLimit.toNat
        changeLdt textSize : X ℕ) s =
          .ok 0x4000000 { s with mm := mm, ldt := s.ldt.change textSize, fs := .user } ∧
      Zone lo hi own t a r mm ∧
      ∀ q, p ≤ q → q < argTop → loadAt mm t (0x3FE0000 + q) = some (s.argByte q) := by
  obtain ⟨ht, ht'⟩ := hs.task
  have hpg := ha.pages hpt
  set b := 32 - pagesAt p with hb
  obtain ⟨hle, hr⟩ := roomy_of_avail ha.inv
  -- the old tables
  obtain ⟨m1, e1, f1⟩ := Mm.freePageTables_spec ha.inv ht ht' (hs.codeLimit.trans hs.dataLimit)
  obtain ⟨m2, e2, f2⟩ := Mm.freePageTables_spec f1.inv ht ht' hs.dataLimit
  have hn1 := Mm.slots_le (hs.codeLimit.trans hs.dataLimit)
  have hn2 := Mm.slots_le hs.dataLimit
  have hgone : ∀ k < 16, (m2.dir (16 * t + k)).present = false := by
    intro k hk
    by_cases hk2 : k < Mm.slots s.ldt.data.getLimit.toNat
    · exact f2.gone k hk2
    · have hmono := Mm.slots_mono hs.codeLimit hs.dataLimit
      rw [f2.dir _ (fun k' _ => by omega), f1.dir _ (fun k' _ => by omega)]
      exact hs.beyond k hk (by omega)
  have hroomy := hr.freed ((f1.moves hn1).trans (f2.moves hn2)) hgone
  have habs : ∀ m < 0x4000, (m2.pte (slot t (4096 * m))).present = false := by
    intro m hm
    have h1 := Mm.slot_fst (t := t) (show 4096 * m < 0x4000000 by omega)
    have h2 := hgone (4096 * m / 0x400000) h1.2
    rw [← h1.1] at h2
    rw [m2.pte_of_absent h2]
    rfl
  -- the argument pages
  have hmiss : missing m2 t a ≤ 0x4000 - a + 1 := by
    unfold missing
    have h1 := Finset.card_filter_le (Finset.Ico a 0x4000) fun n => (m2.pte (slot t (4096 * n))).present = false
    rw [Nat.card_Ico] at h1
    split_ifs <;> omega
  set s2 : Kern := { s with mm := m2, ldt := s.ldt.change textSize, fs := .user } with hs2
  have hheld : heldBelow s.page 32 = argFrames s.page := rfl
  have hav := ha.avail
  have hpages : pagesAt p ≤ 32 := by
    unfold pagesAt
    split_ifs <;> omega
  have hpb : p / 4096 ≤ b := by
    rw [hb]
    unfold pagesAt argTop
    unfold argTop at hpt
    split_ifs <;> omega
  have hmap : Mapping lo hi own t a r b 32 s2 s2 := by
    refine ⟨rfl, ?_, fun j hj _ hj' => absurd hj' (by omega), fun m hm _ => habs m hm, fun _ _ => rfl,
      hi - lo - avail s.mm, ?_, ?_⟩
    · change MemInv lo hi m2 (own ∪ heldBelow s.page 32)
      rw [hheld]
      exact f2.inv
    · change Mm.Roomy _ m2 (own ∪ heldBelow s.page 32)
      rw [hheld]
      exact hroomy
    · change hi - lo - avail s.mm + missing m2 t a + r ≤ _
      omega
  obtain ⟨s3, e3, h3⟩ := @putArgs_spec _ _ _ _ _ _ s2 b hpg hs.task hz (by omega) 32 (by omega) s2 hmap
  refine ⟨s3.mm, ?_, ?_, fun q hq hqt => ?_⟩
  · have hfree1 : free (fun mm => Mm.freePageTables mm s.ldt.code.getBase.toNat s.ldt.code.getLimit.toNat) s =
        .ok () { s with mm := m1 } := by
      unfold free memory
      dsimp only
      rw [hs.code, e1]
      rfl
    have hfree2 : free (fun mm => Mm.freePageTables mm s.ldt.data.getBase.toNat s.ldt.data.getLimit.toNat)
        { s with mm := m1 } = .ok () { s with mm := m2 } := by
      unfold free memory
      dsimp only
      rw [hs.data, e2]
      rfl
    refine (Prog.bind_run hfree1).trans ((Prog.bind_run hfree2).trans ?_)
    have hbase : s2.ldt.code.getBase.toNat + 0x4000000 = Mm.base t + 4096 * (0x3FE0 + 32) := by
      have : s2.ldt.code.getBase = s.ldt.code.getBase := Desc.getBase_setLimit ..
      rw [this, hs.code]
    unfold changeLdt
    refine (Prog.bind_run (show Prog.modify _ _ = .ok () s2 from rfl)).trans ?_
    refine (Prog.bind_run (Prog.get_run s2)).trans ?_
    rw [hbase, Prog.bind_run e3, h3.same]
    rfl
  · obtain ⟨k, hr3, hk⟩ := h3.room
    have hinv := h3.inv
    rw [heldBelow_zero, Finset.union_empty] at hinv hr3
    refine ⟨hinv, hs.task, hz, fun n hn hn' hp => ?_, k, hr3, by omega⟩
    by_cases hnb : n < 0x3FE0 + b
    · rw [h3.absent n hn' (Or.inr hnb)] at hp
      cases hp
    · have h4 := h3.mapped (n - 0x3FE0) (Nat.zero_le _) (by omega) (by omega)
      rw [show 0x3FE0 + (n - 0x3FE0) = n by omega] at h4
      rw [h4]
      rfl
  · have hq0 : s.page (q / 4096) ≠ 0 := (ha.there _).mpr ⟨by omega, by omega, by unfold argTop at hqt; omega⟩
    have hqb := (hpg.there _).mp hq0
    have h4 := h3.mapped (q / 4096) (Nat.zero_le _) hqb.1 hqb.2
    have hslot : slot t (0x3FE0000 + q) = slot t (4096 * (0x3FE0 + q / 4096)) := by
      rw [← slot_pages, show (0x3FE0000 + q) / 4096 = 0x3FE0 + q / 4096 by omega]
    have hbytes := h3.bytes (q / 4096) hq0
    unfold loadAt Kern.argByte
    rw [hslot, h4, if_pos (show (Mm.Entry.seven (s.page (q / 4096))).present = true from rfl),
      show (0x3FE0000 + q) % 4096 = q % 4096 by omega]
    refine congrArg some ?_
    refine (congrFun hbytes _).trans ?_
    exact congrFun (f2.byte _) _ |>.trans (congrFun (f1.byte _) _)

end Linux011.Exec
