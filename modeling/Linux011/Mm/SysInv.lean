/-
  The invariant of the task system, and one inversion lemma for each step of a task's life
  (fork, exec, exit): what the memory, the held frames and the task table look like when the
  step has succeeded.
-/
import Linux011.Mm.Moves

namespace Linux011.Mm

open Linux011.Lib Sys

/-- The invariant of one task. -/
structure TaskOk (F : Nat → Exe) (s : Mem) (own : Finset Nat) (t : Nat) (τ : Task) : Prop where
  lt : t < 64
  limit : τ.limit ≤ 0x4000000
  code : τ.codeLimit ≤ τ.limit
  data : τ.endData ≤ 0x3000000
  zero : t = 0 → τ.limit = 0xA0000
  tail : τ.phase = .tail → 1 ≤ t
  size : ∀ x, τ.executable = some x → (F x).SizeOk
  read : ∀ f o, τ.fault = some (f, o) → 1 ≤ t ∧ (τ.phase = .user ∨ τ.phase = .tail) ∧ f ∈ own ∧ o < τ.limit ∧
    o % 4096 = 0 ∧ (s.pte (slot t o)).present = false

/-- The invariant of the system: the memory's, each task's, tables only where a live task has
    its segment, and different pages for different faults. -/
structure SysInv (F : Nat → Exe) (lo hi : Nat) (σ : Sys) : Prop where
  mem : MemInv lo hi σ.mm σ.own
  task : ∀ t τ, σ.task t = some τ → TaskOk F σ.mm σ.own t τ
  dirs : ∀ t k, 1 ≤ t → t < 64 → k < 16 → (σ.mm.dir (16 * t + k)).present = true →
    ∃ τ, σ.task t = some τ ∧ τ.phase ≠ .zombie ∧ k < slots τ.limit
  inj : ∀ t t' τ τ' p p', σ.task t = some τ → σ.task t' = some τ' → τ.fault = some p →
    τ'.fault = some p' → p.1 = p'.1 → t = t'

variable {F : Nat → Exe} {lo hi : Nat} {σ σ' : Sys}

/-- Directory and entries outside the region of task `t` are present as before. -/
structure Stays (t : Nat) (s s' : Mem) : Prop where
  dir : ∀ d, UserDir d → d / 16 ≠ t → (s'.dir d).present = (s.dir d).present
  pte : ∀ z ∈ userSlots, z.1 / 16 ≠ t → (s'.pte z).present = (s.pte z).present

theorem Moves.stays {s s' : Mem} {t : Nat} (h : Moves lo t s s') : Stays t s s' :=
  ⟨fun d _ hd => by rw [h.dir d hd], fun z hz ht => (h.rest z hz ht).present⟩

/-- A step of task `t`: the other tasks keep their part of the invariant. -/
theorem SysInv.update (h : SysInv F lo hi σ) {t : Nat} (hmem : MemInv lo hi σ'.mm σ'.own)
    (hst : Stays t σ.mm σ'.mm) (htask : ∀ u, u ≠ t → σ'.task u = σ.task u)
    (hown : ∀ u τ p, u ≠ t → σ.task u = some τ → τ.fault = some p → p.1 ∈ σ'.own)
    (hnew : ∀ τ, σ'.task t = some τ → TaskOk F σ'.mm σ'.own t τ)
    (hdirs : ∀ k < 16, 1 ≤ t → t < 64 → (σ'.mm.dir (16 * t + k)).present = true →
      ∃ τ, σ'.task t = some τ ∧ τ.phase ≠ .zombie ∧ k < slots τ.limit)
    (hinj : ∀ τ p, σ'.task t = some τ → τ.fault = some p → ∀ u τ' p', u ≠ t →
      σ.task u = some τ' → τ'.fault = some p' → p.1 ≠ p'.1) : SysInv F lo hi σ' := by
  refine ⟨hmem, ?_, ?_, ?_⟩
  · intro u τ hu
    by_cases hut : u = t
    · subst hut; exact hnew τ hu
    · rw [htask u hut] at hu
      have ho := h.task u τ hu
      refine ⟨ho.lt, ho.limit, ho.code, ho.data, ho.zero, ho.tail, ho.size, ?_⟩
      intro f o hf
      obtain ⟨h1, h2, h3, h4, h5, h6⟩ := ho.read f o hf
      have hlt : o < 0x4000000 := lt_of_lt_of_le h4 ho.limit
      refine ⟨h1, h2, hown u τ (f, o) hut hu hf, h4, h5, ?_⟩
      rw [hst.pte _ (slot_mem h1 ho.lt hlt) (by rw [slot_task hlt]; exact hut)]
      exact h6
  · intro u k hu1 hu2 hk hp
    by_cases hut : u = t
    · subst hut; exact hdirs k hk hu1 hu2 hp
    · rw [hst.dir _ ⟨by omega, by omega⟩ (by omega)] at hp
      rw [htask u hut]
      exact h.dirs u k hu1 hu2 hk hp
  · intro u u' τ τ' p p' hu hu' hp hp' he
    by_cases hut : u = t <;> by_cases hut' : u' = t
    · rw [hut, hut']
    · subst hut
      rw [htask u' hut'] at hu'
      exact absurd he (hinj τ p hu hp u' τ' p' hut' hu' hp')
    · subst hut'
      rw [htask u hut] at hu
      exact absurd he.symm (hinj τ' p' hu' hp' u τ p hut hu hp)
    · rw [htask u hut] at hu
      rw [htask u' hut'] at hu'
      exact h.inj u u' τ τ' p p' hu hu' hp hp' he

/-- The directory slots of a task that `off < limit` can reach. -/
theorem div_lt_slots {off limit : Nat} (h : off < limit) (hl : limit ≤ 0x4000000) :
    off / 0x400000 < slots limit := by
  rw [slots_eq hl]
  omega

theorem SysInv.reading (h : SysInv F lo hi σ) {t f o : Nat} {τ : Task} (ht : σ.task t = some τ)
    (hf : τ.fault = some (f, o)) : σ.Reading f :=
  ⟨t, (h.task t τ ht).lt, τ, ht, (f, o), hf, rfl⟩

/-- A change of the memory alone, inside the region of task `t`. -/
theorem SysInv.setMm (h : SysInv F lo hi σ) {t : Nat} {τ : Task} {s' : Mem}
    (ht : σ.task t = some τ) (hmem : MemInv lo hi s' σ.own) (hst : Stays t σ.mm s')
    (hfault : τ.fault = none)
    (hdirs : ∀ k < 16, (s'.dir (16 * t + k)).present = true →
      (σ.mm.dir (16 * t + k)).present = true ∨ (τ.phase ≠ .zombie ∧ k < slots τ.limit)) :
    SysInv F lo hi (σ.setMm s') := by
  have ho := h.task t τ ht
  refine h.update (t := t) hmem hst (fun _ _ => rfl) ?_ ?_ ?_ ?_
  · intro u τ' p _ hu hp
    exact ((h.task u τ' hu).read p.1 p.2 hp).2.2.1
  · intro τ' hτ'
    cases ht.symm.trans hτ'
    exact ⟨ho.lt, ho.limit, ho.code, ho.data, ho.zero, ho.tail, ho.size,
      fun f o hf => by rw [hfault] at hf; cases hf⟩
  · intro k hk h1 h2 hp
    rcases hdirs k hk hp with hp | hp
    · exact h.dirs t k h1 h2 hk hp
    · exact ⟨τ, ht, hp⟩
  · intro τ' p hτ' hp
    cases ht.symm.trans hτ'
    rw [hfault] at hp
    cases hp

/-! ## exit -/

/-- The effect of `do_exit` of task `t`. -/
structure Exited (F : Nat → Exe) (lo hi : Nat) (σ : Sys) (t : Nat) (σ' : Sys) : Prop where
  inv : SysInv F lo hi σ'
  moves : Moves lo t σ.mm σ'.mm
  task : ∀ u, u ≠ t → σ'.task u = σ.task u
  dead : ∃ τ, σ'.task t = some τ ∧ τ.executable = none ∧ τ.phase = .zombie ∧ τ.fault = none
  iCount : σ'.iCount = σ.iCount

theorem freePageTables_zero (s : Mem) (size : Nat) :
    freePageTables s (base 0) size = .error (.panic "Trying to free up swapper memory space") :=
  rfl

/-- Releasing the code and the data limit of a task releases all its tables. -/
theorem SysInv.freeTask (h : SysInv F lo hi σ) {t : Nat} {τ : Task} (ht : σ.task t = some τ)
    (h1 : 1 ≤ t) :
    ∃ s', ((freePageTables σ.mm (base t) τ.codeLimit).bind
        fun s => freePageTables s (base t) τ.limit) = .ok s' ∧
      MemInv lo hi s' σ.own ∧ Moves lo t σ.mm s' ∧
      ∀ k < 16, (s'.dir (16 * t + k)).present = false := by
  have ho := h.task t τ ht
  obtain ⟨s', e, i, m, _, g, r⟩ := freeTask_spec h.mem h1 ho.lt ho.code ho.limit
  refine ⟨s', e, i, m, fun k hk => ?_⟩
  by_cases hks : k < slots τ.limit
  · exact g k hks
  · rw [r k (by omega)]
    by_contra hp
    obtain ⟨τ', ht', _, hlt⟩ := h.dirs t k h1 ho.lt hk (by simpa using hp)
    cases ht.symm.trans ht'
    exact hks hlt

theorem doExit_cases (h : SysInv F lo hi σ) {t : Nat} (he : σ.doExit t = .ok σ') :
    Exited F lo hi σ t σ' := by
  unfold doExit at he
  cases ht : σ.task t with
  | none => rw [ht] at he; cases he
  | some τ =>
    rw [ht] at he
    dsimp only at he
    have ho := h.task t τ ht
    by_cases h0 : t = 0
    · subst h0
      rw [bind_of_error (freePageTables_zero _ _)] at he
      cases he
    · have h1 : 1 ≤ t := by omega
      obtain ⟨s', e, i, m, hgone⟩ := h.freeTask ht h1
      rw [e] at he
      cases he
      refine ⟨?_, m, fun u hu => Function.update_of_ne hu _ _, ⟨_, Function.update_self _ _ _,
        rfl, rfl, rfl⟩, rfl⟩
      refine h.update (t := t) i m.stays (fun u hu => Function.update_of_ne hu _ _) ?_ ?_ ?_ ?_
      · intro u τ' p _ hu hp
        exact ((h.task u τ' hu).read p.1 p.2 hp).2.2.1
      · intro τ' hτ'
        cases (Function.update_self t _ σ.task).symm.trans hτ'
        exact ⟨ho.lt, ho.limit, ho.code, ho.data, ho.zero, (fun hz => nomatch hz),
          (fun x hx => nomatch hx),
          (fun f o hf => nomatch hf)⟩
      · intro k hk _ _ hp
        rw [show ((σ.setMm s').setTask t _).mm = s' from rfl, hgone k hk] at hp
        cases hp
      · intro τ' p hτ' hp
        cases (Function.update_self t _ σ.task).symm.trans hτ'
        cases hp

/-- A call of task `t` that returns, or ends in `oom()`. -/
theorem finish_cases {t : Nat} {r : Except Stop Mem} (he : σ.finish t r = .ok σ') :
    (∃ s, r = .ok s ∧ σ' = σ.setMm s) ∨
      ∃ s, r = .error (.oom s) ∧ doExit (σ.setMm s) t = .ok σ' := by
  unfold finish at he
  split at he
  · cases he; exact Or.inl ⟨_, rfl, rfl⟩
  · cases he
  · exact Or.inr ⟨_, rfl, he⟩

/-! ## fork -/

/-- The effect of a successful `fork`. -/
structure Forked (F : Nat → Exe) (lo hi : Nat) (σ : Sys) (p c : Nat) (τ : Task) (σ' : Sys) :
    Prop where
  parent : σ.task p = some τ
  user : τ.phase = .user ∧ τ.fault = none
  range : p < 64 ∧ 1 ≤ c ∧ c < 64 ∧ p ≠ c
  task : σ'.task = Function.update σ.task c (some τ)
  moves : Moves lo c σ.mm σ'.mm
  twin : ∀ off < τ.limit, Twin σ.mm σ'.mm (slot p off) (slot c off)

theorem slot_zero {off : Nat} (h : off < 0xA0000) : slot 0 off = (0, off / 4096) := by
  unfold slot base
  refine Prod.ext ?_ ?_ <;> simp only [slotAt, Nat.shiftRight_eq_div_pow] <;> omega

/-- A task slot that is not in use has no tables. -/
theorem SysInv.free_dirs (h : SysInv F lo hi σ) {c k : Nat} (hc : 1 ≤ c) (hc' : c < 64)
    (hfree : σ.task c = none) (hk : k < 16) : (σ.mm.dir (16 * c + k)).present = false := by
  by_contra hp
  obtain ⟨τ, hτ, _⟩ := h.dirs c k hc hc' hk (by simpa using hp)
  rw [hfree] at hτ
  cases hτ

/-- `copy_page_tables` of `fork` in terms of offsets. -/
theorem Copied.twin_slot {s s' : Mem} {own : Finset Nat} {p c limit : Nat}
    (h : Copied lo hi s own (16 * p) (16 * c) (if p = 0 then 160 else 1024) (slots limit) true s')
    (hl : limit ≤ 0x4000000) (hp : p = 0 → limit = 0xA0000) {off : Nat} (hoff : off < limit) :
    Twin s s' (slot p off) (slot c off) := by
  have hlt : off < 0x4000000 := lt_of_lt_of_le hoff hl
  have hk := div_lt_slots hoff hl
  have hsl : ∀ t, slot t off = (16 * t + off / 0x400000, off / 4096 % 1024) := by
    intro t
    refine Prod.ext (slot_fst hlt).1 ?_
    unfold slot
    rw [slotAt_add]
    simp only [slotAt, Nat.shiftRight_eq_div_pow]
  rw [hsl, hsl]
  refine (h.twin rfl _ hk).1 _ ?_
  split_ifs with hp0
  · have := hp hp0; omega
  · omega

/-- `copy_mem`: a panic, a full copy, or a copy that was released again. -/
theorem copyMem_spec {s : Mem} {own : Finset Nat} (h : MemInv lo hi s own) {p c : Nat} {τ : Task}
    (hp : p < 64) (hc : 1 ≤ c) (hc' : c < 64) (hpc : p ≠ c) (hs : CopySize p τ.limit)
    (hcode : τ.codeLimit ≤ τ.limit) :
    copyMem s p c τ = .error (.panic "copy_page_tables: already exist") ∨
      (∃ s', copyMem s p c τ = .ok (true, s') ∧ Copied lo hi s own (16 * p) (16 * c)
        (if p = 0 then 160 else 1024) (slots τ.limit) true s') ∨
      ∃ s1 s', copyMem s p c τ = .ok (false, s') ∧ Copied lo hi s own (16 * p) (16 * c)
        (if p = 0 then 160 else 1024) (slots τ.limit) false s1 ∧
        Freed lo hi s1 own (16 * c) (slots τ.limit) s' := by
  unfold copyMem
  rw [if_neg (not_lt.mpr hcode)]
  rcases copyPageTables_spec h hp hc hc' hpc hs with e | ⟨ok, s1, e, hcp⟩
  · left; exact bind_of_error e _
  · right
    cases ok with
    | true => exact Or.inl ⟨s1, bind_of_ok e _, hcp⟩
    | false =>
      obtain ⟨s2, e2, hf⟩ := freePageTables_spec hcp.inv hc hc' hs.1
      refine Or.inr ⟨s1, s2, (bind_of_ok e _).trans ?_, hcp, hf⟩
      exact bind_of_ok e2 _

theorem fork_cases (h : SysInv F lo hi σ) {p c : Nat} (he : σ.fork p c = .ok σ') :
    SysInv F lo hi σ' ∧ ((Moves lo c σ.mm σ'.mm ∧ σ'.task = σ.task ∧ σ'.own = σ.own) ∨
      ∃ τ, Forked F lo hi σ p c τ σ') := by
  unfold fork at he
  cases hp : σ.task p with
  | none => rw [hp] at he; cases he
  | some τ =>
    rw [hp] at he
    dsimp only at he
    have ho := h.task p τ hp
    by_cases hpre : p < 64 ∧ 1 ≤ c ∧ c < 64 ∧ σ.task c = none ∧ τ.phase = .user ∧ τ.fault = none
    swap
    · rw [if_pos hpre] at he; cases he
    rw [if_neg (not_not.mpr hpre)] at he
    obtain ⟨h1, h2, h3, h4, h5, h6⟩ := hpre
    have hpc : p ≠ c := by rintro rfl; rw [hp] at h4; cases h4
    have hlive : ∀ u τ' q, σ.task u = some τ' → τ'.fault = some q → q.1 ∈ σ.own :=
      fun u τ' q hu hq => ((h.task u τ' hu).read q.1 q.2 hq).2.2.1
    cases hg : getFreePage σ.mm with
    | none =>
      rw [hg] at he
      cases he
      exact ⟨h, Or.inl ⟨Moves.refl _ _ _, rfl, rfl⟩⟩
    | some r =>
      obtain ⟨f, s1⟩ := r
      rw [hg] at he
      dsimp only at he
      have hf := getFreePage_spec h.mem hg
      have habs : ∀ k < 16, (s1.dir (16 * c + k)).present = false := by
        intro k hk; rw [hf.dir]; exact h.free_dirs h2 h3 h4 hk
      have hn := slots_le ho.limit
      rcases copyMem_spec hf.inv h1 h2 h3 hpc ⟨ho.limit, ho.zero⟩ ho.code with
        e | ⟨s2, e, hcp⟩ | ⟨s2, s3, e, hcp, hfr⟩
      · rw [e] at he; cases he
      · rw [e] at he
        cases he
        have hm := (hf.moves c).trans (hcp.moves hn)
        refine ⟨?_, Or.inr ⟨τ, hp, ⟨h5, h6⟩, ⟨h1, h2, h3, hpc⟩, rfl, hm, ?_⟩⟩
        · refine h.update (t := c) hcp.inv hm.stays (fun u hu => Function.update_of_ne hu _ _)
            ?_ ?_ ?_ ?_
          · exact fun u τ' q _ hu hq => Finset.mem_insert_of_mem (hlive u τ' q hu hq)
          · intro τ' hτ'
            cases (Function.update_self c _ σ.task).symm.trans hτ'
            exact ⟨h3, ho.limit, ho.code, ho.data, fun h0 => by omega, fun _ => h2, ho.size,
              fun g o hq => by rw [h6] at hq; cases hq⟩
          · intro k hk _ _ hpk
            refine ⟨τ, Function.update_self c _ σ.task, by rw [h5]; decide, ?_⟩
            by_contra hks
            rw [hcp.dir _ (fun k' hk' => by omega)] at hpk
            exact absurd ((habs k hk).symm.trans hpk) (by decide)
          · intro τ' q hτ' hq
            cases (Function.update_self c _ σ.task).symm.trans hτ'
            rw [h6] at hq; cases hq
        · intro off hoff
          have ht := hcp.twin_slot ho.limit ho.zero hoff
          have hlt : off < 0x4000000 := lt_of_lt_of_le hoff ho.limit
          refine Twin.of_fixed ?_ ht
          by_cases hp0 : p = 0
          · subst hp0
            have hl := ho.zero rfl
            rw [slot_zero (by omega)]
            have hd := h.mem.ident 0 (by omega)
            have hd1 := hf.inv.ident 0 (by omega)
            rw [s1.pte_of_present (by rw [hd1]; rfl), σ.mm.pte_of_present (by rw [hd]; rfl), hd1,
              hd, hf.other _ (by have := hf.range.1; have := h.mem.bounds.1; simp; omega)]
          · rw [hf.pte _ (slot_mem (by omega) h1 hlt)]
      · -- out of memory: what was copied is released again, and the task structure freed
        rw [e] at he
        dsimp only at he
        obtain ⟨s4, e4, i4, m4⟩ := freePage_owned hfr.inv (Finset.mem_insert_self f σ.own)
        rw [e4] at he
        cases he
        rw [Finset.erase_insert hf.notOwn] at i4
        have hd4 : s4.dir = s3.dir := Mem.dir_of_mem (fun g => by rw [m4])
        have hm : Moves lo c σ.mm s4 := by
          refine ((hf.moves c).trans (hcp.moves hn)).trans ((hfr.moves hn).trans ⟨?_, ?_, ?_⟩)
          · intro d _; rw [hd4]
          · intro z _ _
            exact Fixed.of_pte (Mem.pte_of_mem (fun g => by rw [m4]) z) (fun g _ _ => by rw [m4])
          · intro g _; rw [m4]
        refine ⟨?_, Or.inl ⟨hm, rfl, rfl⟩⟩
        refine h.update (t := c) i4 hm.stays (fun _ _ => rfl)
          (fun u τ' q _ hu hq => hlive u τ' q hu hq) ?_ ?_ ?_
        · intro τ' hτ'; cases h4.symm.trans hτ'
        · intro k hk _ _ hpk
          rw [show (σ.setMm s4).mm.dir = s3.dir from hd4] at hpk
          by_cases hks : k < slots τ.limit
          · rw [hfr.gone k hks] at hpk; cases hpk
          · rw [hfr.dir _ (fun k' hk' => by omega), hcp.dir _ (fun k' hk' => by omega),
              habs k hk] at hpk
            cases hpk
        · intro τ' q hτ'; cases h4.symm.trans hτ'

/-! ## exec -/

/-- The argument pages are mapped below page `n` of an otherwise empty segment. -/
structure ArgsPut (lo hi : Nat) (s : Mem) (own : Finset Nat) (t n : Nat)
    (fs : List Nat) (r : Mem × Finset Nat) : Prop where
  inv : MemInv lo hi r.1 r.2
  moves : Moves lo t s r.1
  own : ∀ g ∈ own, g ∉ fs → g ∈ r.2
  absent : ∀ off, off < 4096 * n → (r.1.pte (slot t off)).present = false

theorem putArgs_spec {t : Nat} (ht : 1 ≤ t) (ht' : t < 64) : ∀ (args : List (Option Nat))
    {s : Mem} {own : Finset Nat} {n : Nat}, MemInv lo hi s own → n ≤ 0x4000 → args.length ≤ n →
    (args.filterMap id).Nodup → (∀ f ∈ args.filterMap id, f ∈ own) →
    (∀ off < 4096 * n, (s.pte (slot t off)).present = false) →
    ArgsPut lo hi s own t (n - args.length) (args.filterMap id) (putArgs s own t n args)
  | [], s, own, n, h, _, _, _, _, habs => ⟨h, Moves.refl _ _ _, fun _ hg _ => hg, habs⟩
  | a :: ps, s, own, n, h, hle, hlen, hnd, hown, habs => by
    rw [List.length_cons] at hlen ⊢
    have hlt : 4096 * (n - 1) < 0x4000000 := by omega
    -- the rest of the loop when this round has changed nothing below its page
    have hrest : ∀ {s1 : Mem} {own1 : Finset Nat}, MemInv lo hi s1 own1 → Moves lo t s s1 →
        (∀ g ∈ own, g ∉ (a :: ps).filterMap id → g ∈ own1) →
        (ps.filterMap id).Nodup → (∀ f ∈ ps.filterMap id, f ∈ own1) →
        (∀ off < 4096 * (n - 1), (s1.pte (slot t off)).present = false) →
        (∀ g ∉ (a :: ps).filterMap id, g ∉ ps.filterMap id) →
        ArgsPut lo hi s own t (n - (ps.length + 1)) ((a :: ps).filterMap id)
          (putArgs s1 own1 t (n - 1) ps) := by
      intro s1 own1 h1 m1 o1 nd1 w1 a1 hsub
      have hr := putArgs_spec ht ht' ps h1 (by omega) (by omega) nd1 w1 a1
      exact ⟨hr.inv, m1.trans hr.moves, fun g hg hn => hr.own g (o1 g hg hn) (hsub g hn),
        fun off hoff => hr.absent off (by omega)⟩
    cases a with
    | none =>
      rw [putArgs]
      exact hrest h (Moves.refl _ _ _) (fun g hg _ => hg) (by simpa using hnd)
        (by simpa using hown) (fun off hoff => habs off (by omega)) (fun g hg => by simpa using hg)
    | some f =>
      have hfm : (some f :: ps).filterMap id = f :: ps.filterMap id := by simp
      rw [hfm] at hnd hown
      have hsub : ∀ g, g ∉ (some f :: ps).filterMap id → g ∉ ps.filterMap id := by
        intro g hg hg'
        rw [hfm] at hg
        exact hg (List.mem_cons_of_mem _ hg')
      rw [putArgs]
      cases hput : putPage s f (base t + 4096 * (n - 1)) with
      | none =>
        exact hrest h (Moves.refl _ _ _) (fun g hg _ => hg) (List.nodup_cons.mp hnd).2
          (fun g hg => hown g (List.mem_cons_of_mem _ hg)) (fun off hoff => habs off (by omega)) hsub
      | some s1 =>
        have hP := putPage_spec h (userAddr_task ht ht' hlt) (hown f List.mem_cons_self)
          (habs _ (by omega)) hput
        have hm : Moves lo t s s1 := by
          have := hP.moves
          rw [show (slotAt (base t + 4096 * (n - 1))).1 / 16 = t from slot_task hlt] at this
          exact this
        refine hrest hP.inv hm ?_ (List.nodup_cons.mp hnd).2 ?_ ?_ hsub
        · intro g hg hn
          refine Finset.mem_erase.mpr ⟨?_, hg⟩
          rintro rfl
          rw [hfm] at hn
          exact hn List.mem_cons_self
        · intro g hg
          refine Finset.mem_erase.mpr ⟨?_, hown g (List.mem_cons_of_mem _ hg)⟩
          rintro rfl
          exact (List.nodup_cons.mp hnd).1 hg
        · intro off hoff
          rw [hP.pte _ (slot_mem ht ht' (by omega))]
          · exact habs off (by omega)
          · intro he
            have := slot_inj (by omega) hlt he
            omega

theorem execBegin_cases (h : SysInv F lo hi σ) {t x : Nat} (he : σ.execBegin F t x = .ok σ') :
    SysInv F lo hi σ' ∧ σ'.mm = σ.mm ∧ 1 ≤ t ∧ ∃ τ, σ.task t = some τ ∧ τ.phase = .user ∧
      σ'.task = Function.update σ.task t (some { τ with executable := some x, phase := .execing }) := by
  unfold execBegin at he
  cases ht : σ.task t with
  | none => rw [ht] at he; cases he
  | some τ =>
    rw [ht] at he
    dsimp only at he
    split_ifs at he with hpre
    cases he
    obtain ⟨h1, h2, h3, h4⟩ := hpre
    have ho := h.task t τ ht
    refine ⟨?_, rfl, h1, τ, rfl, h2, rfl⟩
    refine h.update (t := t) h.mem (Moves.refl lo t _).stays
      (fun u hu => Function.update_of_ne hu _ _) ?_ ?_ ?_ ?_
    · exact fun u τ' q _ hu hq => ((h.task u τ' hu).read q.1 q.2 hq).2.2.1
    · intro τ' hτ'
      cases (Function.update_self t _ σ.task).symm.trans hτ'
      refine ⟨ho.lt, ho.limit, ho.code, ho.data, ho.zero, (fun hz => nomatch hz), fun y hy => ?_,
        fun f o hf => ?_⟩
      · cases hy; exact h4
      · have hf' : τ.fault = some (f, o) := hf
        rw [h3] at hf'; cases hf'
    · intro k hk h1 h2' hp
      obtain ⟨τ', hτ', _, hks⟩ := h.dirs t k h1 h2' hk hp
      cases ht.symm.trans hτ'
      exact ⟨_, Function.update_self t _ σ.task, by simp, hks⟩
    · intro τ' q hτ' hq
      cases (Function.update_self t _ σ.task).symm.trans hτ'
      have hq' : τ.fault = some q := hq
      rw [h3] at hq'; cases hq'

/-- The effect of the second half of `do_execve`. -/
structure Execed (F : Nat → Exe) (lo : Nat) (σ : Sys) (t x : Nat) (τ : Task) (σ' : Sys) :
    Prop where
  old : σ.task t = some τ
  exe : τ.executable = some x ∧ τ.phase = .execing
  size : (F x).SizeOk
  moves : Moves lo t σ.mm σ'.mm
  task : σ'.task = Function.update σ.task t (some { τ with
    executable := some x, codeLimit := ((F x).text + 4095) / 4096 * 4096, limit := 0x4000000
    endData := (F x).text + (F x).data, phase := .tail })
  absent : ∀ off < 0x3fe0000, (σ'.mm.pte (slot t off)).present = false

theorem execFinish_cases (h : SysInv F lo hi σ) {t : Nat} {args : List (Option Nat)}
    (he : σ.execFinish F t args = .ok σ') :
    SysInv F lo hi σ' ∧ ∃ τ x, Execed F lo σ t x τ σ' := by
  unfold execFinish at he
  cases ht : σ.task t with
  | none => rw [ht] at he; cases he
  | some τ =>
    rw [ht] at he
    dsimp only at he
    cases hx : τ.executable with
    | none => rw [hx] at he; cases he
    | some x =>
      rw [hx] at he
      dsimp only at he
      split_ifs at he with hpre
      have ho := h.task t τ ht
      obtain ⟨h1, h2, h3, h4⟩ := hpre
      have hidle : ∀ q, τ.fault = some q → False := by
        intro q hq
        rcases (ho.read q.1 q.2 hq).2.1 with hph | hph <;> (rw [h1] at hph; cases hph)
      by_cases h0 : t = 0
      · subst h0
        rw [bind_of_error (freePageTables_zero _ _)] at he
        cases he
      have ht1 : 1 ≤ t := by omega
      obtain ⟨s1, e1, i1, m1, hgone⟩ := h.freeTask ht ht1
      rw [e1] at he
      cases he
      have habs : ∀ off < 0x4000000, (s1.pte (slot t off)).present = false := by
        intro off hoff
        have hs := slot_fst (t := t) hoff
        rw [s1.pte_of_absent (by rw [hs.1]; exact hgone _ hs.2)]
        rfl
      have hput := putArgs_spec (n := 0x4000) ht1 ho.lt args i1 (Nat.le_refl _) (by omega) h3
        (fun f hf => (h4 f hf).1) habs
      have hsz := ho.size x hx
      have hm := m1.trans hput.moves
      refine ⟨?_, τ, x, ht, ⟨hx, h1⟩, hsz, hm, rfl, ?_⟩
      · refine h.update (t := t) hput.inv hm.stays (fun u hu => Function.update_of_ne hu _ _)
          ?_ ?_ ?_ ?_
        · intro u τ' q _ hu hq
          refine hput.own q.1 ((h.task u τ' hu).read q.1 q.2 hq).2.2.1 ?_
          exact fun hm' => (h4 q.1 hm').2 (h.reading hu (o := q.2) hq)
        · intro τ' hτ'
          cases (Function.update_self t _ σ.task).symm.trans hτ'
          refine ⟨ho.lt, Nat.le_refl _, ?_, ?_, fun h0' => absurd h0' h0, fun _ => ht1, fun y hy => ?_,
            fun f o hf => ?_⟩
          · unfold Exe.SizeOk at hsz
            dsimp only
            omega
          · unfold Exe.SizeOk at hsz
            dsimp only
            omega
          · cases hy; exact hsz
          · exact (hidle (f, o) hf).elim
        · intro k hk _ _ _
          exact ⟨_, Function.update_self t _ σ.task, by simp, by
            have : slots 0x4000000 = 16 := by decide
            rw [this]; exact hk⟩
        · intro τ' q hτ' hq
          cases (Function.update_self t _ σ.task).symm.trans hτ'
          exact (hidle q hq).elim
      · intro off hoff
        exact hput.absent off (by omega)

end Linux011.Mm
