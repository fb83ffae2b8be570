/-
  The calls of `copy_strings` in a row, and the argument pages on the way out. `area` is what the
  calls write together. The check of `copy_strings` compares an unsigned number with 0, so nothing
  stops the copy at the start of `page[]`: `argument_limit` says when that does no harm.
-/
import Linux011.Exec.Execve
import Linux011.Fs.RefRuns

namespace Linux011.Exec

open Linux011.Lib

variable {lo hi : ℕ} {own : Finset ℕ} {s₀ : Mm.Mem} {p : ℕ} {s : Kern}

def ArgCall.bytes (c : ArgCall) : List UInt8 := Exec.bytes (c.vec.strs.take c.argc.toNat)

/-- What `do_execve` sees to at each call, when fs is `old`. -/
def ArgCall.Ok (c : ArgCall) (old : Seg) : Prop := c.argc ≤ c.vec.strs.length ∧ c.vec.InReach c.kmem old

/-- The bytes of the calls from the lowest one up: the first call is at the top. -/
def area : List ArgCall → List UInt8
  | [] => []
  | c :: cs => area cs ++ c.bytes

theorem copyAll_zero (cs : List ArgCall) (s : Kern) : copyAll cs 0 s = .ok 0 s := by
  induction cs with
  | nil => rfl
  | cons c cs ih => exact (Prog.bind_run (show copyStrings c.argc c.vec 0 c.kmem s = .ok 0 s from rfl)).trans ih

/-- How the calls end from `p`. -/
def CopiedAll (lo hi : ℕ) (own : Finset ℕ) (s₀ : Mm.Mem) (cs : List ArgCall) (p : ℕ) (s : Kern) (o : Out Kern Halted ℕ) :
    Prop :=
  ((area cs).length + floor s₀ ≤ p ∧ ∃ s', o = .ok (p - (area cs).length) s' ∧
      Args lo hi own s₀ (p - (area cs).length) s' ∧ Beside s s' ∧ s'.fs = s.fs ∧
      (∀ k (_ : k < (area cs).length), s'.argByte (p - (area cs).length + k) = (area cs)[k].toNat) ∧
      ∀ q, p ≤ q → q < argTop → s'.argByte q = s.argByte q) ∨
    (p < (area cs).length + floor s₀ ∧ 0 < floor s₀ ∧ ∃ s', o = .ok 0 s' ∧ Args lo hi own s₀ (floor s₀) s' ∧ Beside s s' ∧
      s'.fs = s.fs) ∨
    (p < (area cs).length ∧ floor s₀ = 0 ∧ (∃ k, (area (cs.take k)).length = p) ∧ ∃ s', o = .ok 0 s' ∧
      Args lo hi own s₀ 0 s' ∧ Beside s s' ∧ s'.fs = s.fs) ∨
    (p < (area cs).length ∧ floor s₀ = 0 ∧ (∀ k, (area (cs.take k)).length ≠ p) ∧ o = .stop .index)

theorem copyAll_spec {cs : List ArgCall} (hc : ∀ c ∈ cs, c.Ok s.fs) (ha : Args lo hi own s₀ p s) (hpt : p ≤ argTop) :
    CopiedAll lo hi own s₀ cs p s (copyAll cs p s) := by
  induction cs generalizing p s with
  | nil =>
    refine Or.inl ⟨?_, s, rfl, ha, Beside.refl s, rfl, fun k hk => absurd hk (Nat.not_lt_zero k), fun _ _ _ => rfl⟩
    exact (Nat.zero_add _).trans_le (ha.floor_le hpt)
  | cons c cs ih =>
    have hlen : (area (c :: cs)).length = (area cs).length + c.bytes.length := List.length_append
    by_cases hp : p = 0
    · subst hp
      have hfl := ha.floor_le hpt
      rw [copyAll_zero]
      by_cases hT : (area (c :: cs)).length = 0
      · refine Or.inl ⟨by omega, s, by rw [hT], by rw [hT]; exact ha, Beside.refl s, rfl, fun k hk => ?_, fun _ _ _ => rfl⟩
        omega
      · exact Or.inr (Or.inr (Or.inl ⟨by omega, by omega, ⟨0, rfl⟩, s, rfl, ha, Beside.refl s, rfl⟩))
    have htake : ∀ k, (area ((c :: cs).take (k + 1))).length = (area (cs.take k)).length + c.bytes.length := fun k =>
      List.length_append
    have hok := hc c List.mem_cons_self
    unfold CopiedAll
    obtain ⟨hle, s1, he, ha1, hb, hfs, hnew, hkeep⟩ | ⟨hlt, hpos, s1, he, ha1, hb, hfs⟩ | ⟨hlt, h0, he⟩ :=
      copyStrings_spec hok.1 hok.2 ha hp hpt
    · have hrun : copyAll (c :: cs) p s = copyAll cs (p - c.bytes.length) s1 := Prog.bind_run he
      have hrest := @ih (p - c.bytes.length) s1 (fun c' hc' => by rw [hfs]; exact hc c' (List.mem_cons_of_mem _ hc')) ha1
        (by omega)
      have hle' : c.bytes.length + floor s₀ ≤ p := hle
      rw [hrun]
      obtain ⟨hle2, s2, he2, ha2, hb2, hfs2, hnew2, hkeep2⟩ | ⟨hlt2, hpos2, s2, he2, ha2, hb2, hfs2⟩ |
        ⟨hlt2, h0, ⟨k, hk⟩, s2, he2, ha2, hb2, hfs2⟩ | ⟨hlt2, h0, hk, he2⟩ := hrest
      · have hsub : p - c.bytes.length - (area cs).length = p - (area (c :: cs)).length := by omega
        rw [hsub] at he2 ha2 hnew2
        refine Or.inl ⟨by omega, s2, he2, ha2, hb.trans hb2, hfs2.trans hfs, fun k hk => ?_, fun q hq hqt => ?_⟩
        · by_cases hkl : k < (area cs).length
          · rw [hnew2 k hkl]
            exact congrArg UInt8.toNat (List.getElem_append_left hkl).symm
          · have hkc : k - (area cs).length < c.bytes.length := by omega
            have hq : p - (area (c :: cs)).length + k = p - c.bytes.length + (k - (area cs).length) := by omega
            rw [hq, hkeep2 _ (Nat.le_add_right _ _) (by omega)]
            exact (hnew (k - (area cs).length) hkc).trans
              (congrArg UInt8.toNat (List.getElem_append_right (Nat.not_lt.mp hkl)).symm)
        · rw [hkeep2 q (by omega) hqt, hkeep q hq hqt]
      · exact Or.inr (Or.inl ⟨by omega, hpos2, s2, he2, ha2, hb.trans hb2, hfs2.trans hfs⟩)
      · refine Or.inr (Or.inr (Or.inl ⟨by omega, h0, ⟨k + 1, ?_⟩, s2, he2, ha2, hb.trans hb2, hfs2.trans hfs⟩))
        rw [htake]
        omega
      · refine Or.inr (Or.inr (Or.inr ⟨by omega, h0, fun k => ?_, he2⟩))
        cases k with
        | zero => exact fun h => hp h.symm
        | succ k =>
          rw [htake]
          have := hk k
          omega
    · have hlt' : p < c.bytes.length + floor s₀ := hlt
      refine Or.inr (Or.inl ⟨by omega, hpos, s1, ?_, ha1, hb, hfs⟩)
      exact (Prog.bind_run he).trans (copyAll_zero cs s1)
    · have hlt' : p < c.bytes.length := hlt
      refine Or.inr (Or.inr (Or.inr ⟨by omega, h0, fun k => ?_, Prog.bind_stop he⟩))
      cases k with
      | zero => exact fun h => hp h.symm
      | succ k =>
        rw [htake]
        omega

/-! ## Giving the pages back -/

/-- The pages of these indices are still taken, and the others are back in `s₀`. -/
structure Giving (lo hi : ℕ) (own : Finset ℕ) (s₀ : Mm.Mem) (s : Kern) (l : List ℕ) (s' : Kern) : Prop where
  same : s' = { s with mm := s'.mm }
  inv : Mm.MemInv lo hi s'.mm (own ∪ (l.toFinset.image s.page).erase 0)
  mem : s'.mm.mem = s.mm.mem
  here : ∀ f ∈ (l.toFinset.image s.page).erase 0, s'.mm.memMap (f - 256) = 1
  back : ∀ n, n + 256 ∉ (l.toFinset.image s.page).erase 0 → s'.mm.memMap n = s₀.memMap n

theorem mem_held {page : ℕ → ℕ} {l : List ℕ} {f : ℕ} :
    f ∈ (l.toFinset.image page).erase 0 ↔ f ≠ 0 ∧ ∃ i ∈ l, page i = f := by
  simp only [Finset.mem_erase, Finset.mem_image, List.mem_toFinset]

theorem Args.giving (ha : Args lo hi own s₀ p s) : Giving lo hi own s₀ s (List.range 32) s := by
  have hset : ((List.range 32).toFinset.image s.page).erase 0 = argFrames s.page := by
    ext f
    rw [mem_held, mem_argFrames]
    simp only [List.mem_range]
  refine ⟨rfl, by rw [hset]; exact ha.inv, rfl, fun f hf => ?_, fun n hn => ?_⟩
  · rw [hset] at hf
    exact (ha.taken f hf).1
  · rw [hset] at hn
    exact ha.memMap n hn

theorem freeArgs_step (ha : Args lo hi own s₀ p s) {i : ℕ} {l : List ℕ} (hi32 : i < 32) (hl : i ∉ l) {s1 : Kern}
    (h : Giving lo hi own s₀ s (i :: l) s1) : ∃ mm, Mm.freePage s1.mm (s1.page i * 4096) = .ok mm ∧
      Giving lo hi own s₀ s l { s1 with mm := mm } := by
  have hpage : s1.page i = s.page i := by rw [h.same]
  rw [hpage]
  by_cases h0 : s.page i = 0
  · have hset : ((i :: l).toFinset.image s.page).erase 0 = (l.toFinset.image s.page).erase 0 := by
      ext f
      rw [mem_held, mem_held]
      refine ⟨fun ⟨hf, j, hj, he⟩ => ⟨hf, j, ?_, he⟩, fun ⟨hf, j, hj, he⟩ => ⟨hf, j, List.mem_cons_of_mem _ hj, he⟩⟩
      obtain rfl | hj := List.mem_cons.mp hj
      · exact absurd (he ▸ h0) hf
      · exact hj
    have hinv := h.inv
    have hhere := h.here
    have hback := h.back
    rw [hset] at hinv hhere hback
    rw [h0]
    exact ⟨s1.mm, Mm.freePage_low (by decide), h.same, hinv, h.mem, hhere, hback⟩
  · -- no other index has this frame
    have hframe := ha.mem_frames h0
    have hmem : s.page i ∈ ((i :: l).toFinset.image s.page).erase 0 := mem_held.mpr ⟨h0, i, List.mem_cons_self, rfl⟩
    have hset : ((i :: l).toFinset.image s.page).erase 0 = insert (s.page i) ((l.toFinset.image s.page).erase 0) := by
      ext f
      rw [Finset.mem_insert, mem_held, mem_held]
      constructor
      · rintro ⟨hf, j, hj, rfl⟩
        obtain rfl | hj := List.mem_cons.mp hj
        · exact Or.inl rfl
        · exact Or.inr ⟨hf, j, hj, rfl⟩
      · rintro (rfl | ⟨hf, j, hj, rfl⟩)
        · exact ⟨h0, i, List.mem_cons_self, rfl⟩
        · exact ⟨hf, j, List.mem_cons_of_mem _ hj, rfl⟩
    have hnot : s.page i ∉ (l.toFinset.image s.page).erase 0 := by
      intro hm
      obtain ⟨-, j, hj, he⟩ := mem_held.mp hm
      exact hl (ha.inj i j h0 he.symm ▸ hj)
    have hown := Finset.mem_union_right own hmem
    have hr := h.inv.refs.ownRange _ hown
    have hb := h.inv.bounds
    have hone := h.here _ hmem
    have hrun := Mm.freePage_ok h.inv hr.1 hr.2 (by rw [hone]; decide)
    obtain ⟨mm, he, hinv, hm⟩ := Mm.freePage_owned h.inv hown
    have hmap : ∀ n, mm.memMap n = if n = s.page i - 256 then 0 else s1.mm.memMap n := by
      intro n
      rw [Except.ok.inj (he.symm.trans hrun), Mm.Mem.setMap_memMap, hone]
    refine ⟨mm, he, by rw [h.same], ?_, hm.trans h.mem, fun f hf => ?_, fun n hn => ?_⟩
    · have hown' : (own ∪ ((i :: l).toFinset.image s.page).erase 0).erase (s.page i) =
          own ∪ (l.toFinset.image s.page).erase 0 := by
        rw [hset, Finset.union_insert, Finset.erase_insert]
        exact fun hm => (Finset.mem_union.mp hm).elim (ha.notOwn _ hframe) hnot
      rw [← hown']
      exact hinv
    · have hf1 := h.inv.refs.ownRange f (Finset.mem_union_right own (by rw [hset]; exact Finset.mem_insert_of_mem hf))
      dsimp only
      rw [hmap, if_neg fun hfe => hnot (by rw [show s.page i = f by omega]; exact hf)]
      exact h.here f (by rw [hset]; exact Finset.mem_insert_of_mem hf)
    · dsimp only
      rw [hmap]
      split_ifs with hn'
      · rw [hn']
        exact (ha.taken _ hframe).2.symm
      · refine h.back n ?_
        rw [hset, Finset.mem_insert, not_or]
        exact ⟨by omega, hn⟩

/-- `free_page` frees each argument page once; memory is what it was but for the contents of free
    pages. -/
structure Given (lo hi : ℕ) (own : Finset ℕ) (s₀ : Mm.Mem) (s s' : Kern) : Prop where
  same : s' = { s with mm := s'.mm }
  inv : Mm.MemInv lo hi s'.mm own
  memMap : s'.mm.memMap = s₀.memMap
  dir : s'.mm.dir = s₀.dir
  pte : ∀ x ∈ Mm.userSlots, s'.mm.pte x = s₀.pte x
  mem : ∀ f, f < lo ∨ hi ≤ f ∨ s₀.memMap (f - 256) ≠ 0 → s'.mm.mem f = s₀.mem f

theorem freeArgs_spec (ha : Args lo hi own s₀ p s) : ∃ s', freeArgs s = .ok () s' ∧ Given lo hi own s₀ s s' := by
  have hloop : ∀ f : ℕ → X Unit, (∀ i s1 mm, Mm.freePage s1.mm (s1.page i * 4096) = .ok mm → f i s1 = .ok () { s1 with mm := mm }) →
      ∀ l : List ℕ, l.Nodup → (∀ i ∈ l, i < 32) → ∀ s1, Giving lo hi own s₀ s l s1 →
      ∃ s', Prog.each f l s1 = .ok () s' ∧ Giving lo hi own s₀ s [] s' := by
    intro f hf l
    induction l with
    | nil => exact fun _ _ s1 h => ⟨s1, rfl, h⟩
    | cons i l ih =>
      intro hnd h32 s1 h
      obtain ⟨mm, he, hg⟩ := freeArgs_step ha (h32 i List.mem_cons_self) (List.nodup_cons.mp hnd).1 h
      obtain ⟨s', he', hg'⟩ := ih (List.nodup_cons.mp hnd).2 (fun j hj => h32 j (List.mem_cons_of_mem _ hj)) _ hg
      exact ⟨s', (Prog.bind_run (hf i s1 mm he)).trans he', hg'⟩
  have hone : ∃ s', freeArgs s = .ok () s' ∧ Giving lo hi own s₀ s [] s' := by
    refine hloop _ (fun i s1 mm he => ?_) _ List.nodup_range (fun i hi => List.mem_range.mp hi) s ha.giving
    refine (Prog.bind_run (Prog.get_run s1)).trans ?_
    rw [he]
    rfl
  obtain ⟨s', he, hg⟩ := hone
  have hempty : (([] : List ℕ).toFinset.image s.page).erase 0 = ∅ := rfl
  have hmem := hg.mem
  refine ⟨s', he, hg.same, ?_, funext fun n => ?_, ?_, fun x hx => ?_, fun f hf => ?_⟩
  · have := hg.inv
    rwa [hempty, Finset.union_empty] at this
  · exact hg.back n (by rw [hempty]; exact Finset.notMem_empty _)
  · rw [← ha.dir]
    exact Mm.Mem.dir_of_mem fun f => by rw [hmem]
  · rw [← ha.pte x hx]
    exact Mm.Mem.pte_of_mem (fun f => by rw [hmem]) x
  · rw [hmem]
    refine ha.other f fun hm => ?_
    have hr := ha.inv.refs.ownRange f (Finset.mem_union_right own hm)
    obtain h1 | h1 | h1 := hf
    · omega
    · omega
    · exact h1 (ha.taken f hm).2

/-! ## The limit -/

theorem scriptCalls_ok (line : Line) (filename : List UInt8) (argv envp : List (List UInt8)) :
    ∀ c ∈ scriptCalls line filename argv envp, c.Ok .user := by
  intro c hc
  simp only [scriptCalls, List.mem_append, List.mem_cons, List.not_mem_nil, or_false] at hc
  obtain ((rfl | rfl | rfl) | hc) | rfl := hc
  · exact ⟨Int.le_refl _, rfl, rfl⟩
  · refine ⟨?_, rfl, rfl⟩
    have := List.length_tail (l := argv)
    dsimp only
    omega
  · exact ⟨Int.le_refl _, rfl, rfl⟩
  · cases hi : line.iArg with
    | none =>
      rw [hi] at hc
      exact absurd hc List.not_mem_nil
    | some iArg =>
      rw [hi] at hc
      obtain rfl := List.mem_singleton.mp hc
      exact ⟨Int.le_refl _, rfl, rfl⟩
  · exact ⟨Int.le_refl _, rfl, rfl⟩

/-- Too few pages, in terms of `floor`. -/
theorem short_iff {n : ℕ} (hn : n ≤ argTop) (s₀ : Mm.Mem) :
    avail s₀ < pagesAt (argTop - n) ↔ argTop < n + floor s₀ := by
  unfold pagesAt floor
  by_cases h0 : n = 0
  · subst h0
    rw [Nat.sub_zero, if_neg (Nat.lt_irrefl _)]
    have := Nat.min_le_left argTop (4096 * (32 - avail s₀))
    omega
  · rw [if_pos (by unfold argTop at hn ⊢; omega)]
    unfold argTop at hn ⊢
    omega

/-- With frames for their pages the calls copy all their bytes. -/
theorem copyAll_fits {cs : List ArgCall} (hc : ∀ c ∈ cs, c.Ok s.fs) (ha : Args lo hi own s₀ argTop s)
    (hn : (area cs).length ≤ argTop) (hroom : pagesAt (argTop - (area cs).length) ≤ avail s₀) :
    ∃ s', copyAll cs argTop s = .ok (argTop - (area cs).length) s' ∧ Args lo hi own s₀ (argTop - (area cs).length) s' ∧
      Beside s s' ∧ s'.fs = s.fs ∧
      ∀ k (_ : k < (area cs).length), s'.argByte (argTop - (area cs).length + k) = (area cs)[k].toNat := by
  have hshort := mt (short_iff hn s₀).mpr (Nat.not_lt.mpr hroom)
  obtain ⟨-, s', he, ha', hb, hf, hnew, -⟩ | ⟨hlt, -⟩ | ⟨hlt, -⟩ | ⟨hlt, -⟩ := copyAll_spec hc ha (Nat.le_refl _)
  · exact ⟨s', he, ha', hb, hf, hnew⟩
  · exact absurd hlt hshort
  · exact absurd hn (Nat.not_le.mpr hlt)
  · exact absurd hn (Nat.not_le.mpr hlt)

theorem execError1_run {s' : Kern} (h : freeArgs s = .ok () s') (retval : ℤ) : execError1 retval s = .ok retval s' :=
  Prog.bind_run h

/-- A task in the kernel, with 12 MB of free pages. -/
def idleKern : Kern where
  fsys := Fs.bootKern
  mm := Mm.memInit Mm.headMem (1024 * 4096) (4096 * 4096)
  fs := .user
  page _ := 0
  ip := 0
  sp := 0
  handler _ := 0
  ldt := Ldt.init
  endCode := 0
  endData := 0
  brk := 0
  startStack := 0

theorem idleKern_inv : Mm.MemInv 1024 4096 idleKern.mm ∅ :=
  Mm.memInit_inv (by decide) (by decide) (by decide) Mm.headMem_boot

theorem idleKern_avail : 32 ≤ avail idleKern.mm := by
  have hsub : Finset.Ico 3000 3032 ⊆ (Finset.range Mm.pagingPages).filter fun n => idleKern.mm.memMap n = 0 := by
    intro n hn
    have hn' := Finset.mem_Ico.mp hn
    refine Finset.mem_filter.mpr ⟨Finset.mem_range.mpr ?_, ?_⟩
    · have : Mm.pagingPages = 3840 := rfl
      omega
    · change Mm.clearMap _ _ _ n = 0
      rw [Mm.clearMap_apply, if_pos]
      have h1 : Mm.mapNr (1024 * 4096) = 768 := rfl
      have h2 : (4096 * 4096 - 1024 * 4096) >>> 12 = 3072 := rfl
      omega
  have := Finset.card_le_card hsub
  rwa [Nat.card_Ico] at this

end Linux011.Exec
