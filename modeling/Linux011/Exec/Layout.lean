/-
  From the point of no return to the first instruction: `create_tables` over the new segment, and
  the end of the last page of data is cleared. `argument_passing` says what the program finds at
  its stack pointer.
-/
import Linux011.Exec.Segment
import Linux011.Fs.Balance
import Linux011.Fs.Tabled

namespace Linux011.Exec

open Linux011.Lib
open Linux011.Mm (Mem MemInv userSlots)
open Linux011.Mm.Sys (slot)

variable {lo hi : ℕ} {own : Finset ℕ} {t a r : ℕ} {mm mm' : Mem} {s s₁ : Kern}

/-! ## A page of the file -/

/-- The page at `off` is there, and every other page is as it was. -/
structure Filled (lo hi : ℕ) (own : Finset ℕ) (t off : ℕ) (mm mm' : Mem) : Prop where
  inv : MemInv lo hi mm' own
  present : (mm'.pte (slot t off)).present
  rest : ∀ z ∈ userSlots, z ≠ slot t off → Mm.Fixed mm mm' z

theorem Filled.of_put {f off : ℕ} (hinv : MemInv lo hi mm own) (hf : f ∈ own) (pg : Mm.Page)
    (hput : Mm.Put lo hi (mm.setPage f pg) own f (slot t off) mm') : Filled lo hi (own.erase f) t off mm mm' := by
  obtain ⟨-, -, hpte⟩ := hinv.fill hf pg
  refine ⟨hput.inv, by rw [hput.slot]; rfl, fun z hz hne => ?_⟩
  refine Mm.Fixed.trans (Mm.Fixed.of_pte (hpte z hz) fun g hp he => ?_) (hput.rest z hz hne)
  rw [Mem.setPage_mem, if_neg]
  exact fun hg => hinv.refs.ownPte f hf z hz hp (he.trans hg)

/-- With two frames left, a page of the file is shared or read, and then mapped. -/
theorem fault_ok {n off : ℕ} (h : MemInv lo hi mm own) (hr : Mm.Roomy n mm own) (hn : n + 2 ≤ hi - lo)
    (ht : 1 ≤ t ∧ t < 64) (hoff : off < 0x4000000) (habs : (mm.pte (slot t off)).present = false) {ps : List ℕ}
    (hps : Mm.Others t ps) :
    (∃ mm', Mm.doNoPage mm t (off / 4096 * 4096) (some ps) = .ok (none, mm') ∧ Filled lo hi own t off mm mm') ∨
      ∃ f m1, Mm.doNoPage mm t (off / 4096 * 4096) (some ps) = .ok (some f, m1) ∧ ∀ pg, ∃ mm',
        Mm.doNoPageRead m1 f (Mm.base t + off / 4096 * 4096) pg = .ok mm' ∧ Filled lo hi own t off mm mm' := by
  have hlt : off / 4096 * 4096 < 0x4000000 := by omega
  have hslot : Mm.slotAt (Mm.base t + off / 4096 * 4096) = slot t off := Mm.slot_page
  obtain ⟨f, m1, hg⟩ := hr.free h (by omega)
  have hnone : Mm.getFreePage mm ≠ none := by
    rw [hg]
    exact Option.some_ne_none _
  unfold Mm.doNoPage
  dsimp only
  obtain ⟨e, -⟩ | ⟨p, -, -, ⟨-, hno⟩ | ⟨m2, e, htk⟩⟩ := Mm.sharePage_spec h hlt ht.1 ht.2 (by rw [hslot]; exact habs) ps hps
  · right
    have hf := Mm.getFreePage_spec h hg
    have hown : f ∈ insert f own := Finset.mem_insert_self f own
    have hback : (insert f own).erase f = own := Finset.erase_insert hf.notOwn
    rw [e]
    refine ⟨f, m1, ?_, fun pg => ?_⟩
    · dsimp only [bind, Except.bind]
      rw [if_neg (by decide), hg]
      rfl
    · obtain ⟨hfill, -, hpte⟩ := hf.inv.fill hown pg
      have habs1 : ((m1.setPage f pg).pte (Mm.slotAt (Mm.base t + off / 4096 * 4096))).present = false := by
        rw [hslot, hpte _ (Mm.slot_mem ht.1 ht.2 hoff), hf.pte _ (Mm.slot_mem ht.1 ht.2 hoff)]
        exact habs
      obtain ⟨m2, e2, hput, -⟩ := putPage_ok hfill hown (Mm.userAddr_task ht.1 ht.2 hlt) habs1
        ((hr.fresh hf).fill hf.inv hown pg) (by split_ifs <;> omega)
      rw [hslot] at hput
      have hfilled := Filled.of_put hf.inv hown pg hput
      rw [hback] at hfilled
      refine ⟨m2, ?_, hfilled.inv, hfilled.present, fun z hz hne => (hf.fixed hz).trans (hfilled.rest z hz hne)⟩
      unfold Mm.doNoPageRead
      dsimp only
      rw [e2]
  · exact absurd hno hnone
  · left
    rw [hslot] at htk
    refine ⟨m2, by rw [e]; rfl, htk.inv, ?_, htk.rest⟩
    rw [htk.slot]
    exact htk.clean.1

/-! ## The rest of the last page of data -/

/-- The pages from `a` on have managed frames. -/
structure Top (lo hi : ℕ) (own : Finset ℕ) (t a : ℕ) (mm : Mem) : Prop where
  inv : MemInv lo hi mm own
  task : 1 ≤ t ∧ t < 64
  managed : ∀ q, 4096 * a ≤ q → q < 0x4000000 → (mm.pte (slot t q)).present → 256 ≤ (mm.pte (slot t q)).frame

/-- What was loaded from page `a` on is loaded still. -/
def KeepsTop (t a : ℕ) (mm mm' : Mem) : Prop :=
  ∀ q, 4096 * a ≤ q → q < 0x4000000 → ∀ v, loadAt mm t q = some v → loadAt mm' t q = some v

theorem Zone.top (hz : Zone lo hi own t a r mm) : Top lo hi own t a mm := by
  refine ⟨hz.inv, hz.task, fun q hq hq' hp => ?_⟩
  have hrw := hz.rw (q / 4096) (by omega) (by omega)
  rw [slot_pages] at hrw
  obtain h1 | h1 := hz.inv.refs.pteRange _ (Mm.slot_mem hz.task.1 hz.task.2 hq') hp
  · have hb := hz.inv.bounds
    have h2 : lo ≤ (mm.pte (slot t q)).frame := h1.1
    omega
  · have h2 : (mm.pte (slot t q)).rw = false := h1.2
    rw [hrw hp] at h2
    cases h2

variable {off : ℕ}

theorem Top.slot_ne (hoff : off < 4096 * a) {q : ℕ} (hq : 4096 * a ≤ q) (hq' : q < 0x4000000) : slot t q ≠ slot t off := by
  intro he
  have := Mm.slot_inj hq' (by omega) he
  omega

theorem Top.filled (h : Top lo hi own t a mm) (hoff : off < 4096 * a) (hf : Filled lo hi own t off mm mm') :
    Top lo hi own t a mm' ∧ KeepsTop t a mm mm' := by
  have hfix : ∀ q, 4096 * a ≤ q → q < 0x4000000 → Mm.Fixed mm mm' (slot t q) := fun q hq hq' =>
    hf.rest _ (Mm.slot_mem h.task.1 h.task.2 hq') (Top.slot_ne hoff hq hq')
  refine ⟨⟨hf.inv, h.task, fun q hq hq' hp => ?_⟩, fun q hq hq' v hv => loadAt_of_fixed (hfix q hq hq') hv⟩
  have h1 := hfix q hq hq'
  rw [h1.frame]
  exact h.managed q hq hq' (h1.present ▸ hp)

/-- A store below page `a` goes to another frame, even when that page is shared. -/
theorem Top.poke (h : Top lo hi own t a mm) (hoff : off < 4096 * a) (ho : off < 0x4000000)
    (hp : (mm.pte (slot t off)).present) (v : ℕ) : Top lo hi own t a (Mm.Sys.poke mm (slot t off) (off % 4096) v) ∧
      KeepsTop t a mm (Mm.Sys.poke mm (slot t off) (off % 4096) v) ∧
      ((Mm.Sys.poke mm (slot t off) (off % 4096) v).pte (slot t off)).present := by
  have hom := Mm.slot_mem h.task.1 h.task.2 ho
  have hpk := Mm.poke_spec h.inv hom hp (off % 4096) v
  set m1 := Mm.Sys.poke mm (slot t off) (off % 4096) v
  have hpte : ∀ q, 4096 * a ≤ q → q < 0x4000000 → m1.pte (slot t q) = mm.pte (slot t q) := fun q hq hq' =>
    hpk.pte _ (Mm.slot_mem h.task.1 h.task.2 hq') (Top.slot_ne hoff hq hq')
  refine ⟨⟨hpk.inv, h.task, fun q hq hq' hp' => ?_⟩, fun q hq hq' w hw => ?_, by rw [hpk.slot]; exact hp⟩
  · rw [hpte q hq hq'] at hp' ⊢
    exact h.managed q hq hq' hp'
  · unfold loadAt at hw ⊢
    rw [hpte q hq hq']
    split_ifs at hw ⊢ with hpq
    have hqm := Mm.slot_mem h.task.1 h.task.2 hq'
    have hne : (mm.pte (slot t q)).frame ≠ (mm.pte (slot t off)).frame := by
      intro he
      obtain ⟨h2, h1⟩ := h.inv.refs.sameOff _ hqm _ hom hpq hp he (h.managed q hq hq' hpq)
      have e1 := Mm.slot_fst (t := t) hq'
      have e2 := Mm.slot_fst (t := t) ho
      exact Top.slot_ne hoff hq hq' (Prod.ext (by omega) h2)
    rw [hpk.other _ hne]
    exact hw

/-- A task that clears the end of its data. -/
structure InTop (lo hi : ℕ) (own : Finset ℕ) (t a : ℕ) (i : Fin 32) (s : Kern) : Prop where
  top : Top lo hi own t a s.mm
  cur : s.fsys.current.val = t
  base : s.ldt.data.getBase.toNat = Mm.base t
  limit : s.ldt.data.getLimit.toNat = 0x4000000
  fs : s.fs = .user
  executable : s.fsys.cur.executable = some i
  bcount : ∀ d z, s.fsys.bcount d z ≠ 255
  below : s.endData.toNat ≤ 0x3000000 ∧ 0x3000 ≤ a

variable {i : Fin 32}

theorem InTop.set (h : InTop lo hi own t a i s) (htop : Top lo hi own t a mm) :
    InTop lo hi own t a i { s with mm := mm } :=
  ⟨htop, h.cur, h.base, h.limit, h.fs, h.executable, h.bcount, h.below⟩

theorem InTop.others (h : InTop lo hi own t a i s) {tmp : ℕ} (hd : tmp < s.endData.toNat) :
    ∃ ps, s.others tmp = some ps ∧ Mm.Others t ps := by
  unfold Kern.others
  rw [h.executable]
  dsimp only
  rw [if_neg (by omega)]
  split_ifs with hc
  · exact ⟨[], rfl, fun p hp => nomatch hp⟩
  · refine ⟨_, rfl, fun p hp => ?_⟩
    obtain ⟨τ, hτ, rfl⟩ := List.mem_map.mp hp
    have hτ' := (List.mem_filter.mp hτ).2
    simp only [decide_eq_true_eq] at hτ'
    obtain ⟨h0, hcur, -⟩ := hτ'
    have h1 : τ.val ≠ 0 := fun he => h0 (Fin.ext he)
    have h2 : τ.val ≠ s.fsys.current.val := fun he => hcur (Fin.ext he)
    have h3 := h.cur
    exact ⟨by omega, τ.isLt, by omega⟩

/-- The four blocks of a page of data are below the limit of `bmap`. -/
theorem filePage_run (hb : ∀ d z, s.fsys.bcount d z ≠ 255) {tmp : ℕ} (ht : tmp < 0x3000000) :
    ∃ pg, filePage i tmp s = .ok pg s := by
  have hmap : ∀ k ≤ 4, fsys (Fs.bmap i (k + tmp / 1024)) s = .ok (Fs.bmapZone s.fsys i (k + tmp / 1024)) s := by
    intro k hk
    unfold fsys
    rw [Fs.bmap_run s.fsys i (by omega) hb]
  unfold filePage
  rw [Prog.bind_run (hmap 1 (by decide)), Prog.bind_run (hmap 2 (by decide)), Prog.bind_run (hmap 3 (by decide)),
    Prog.bind_run (hmap 4 (by decide))]
  exact ⟨_, rfl⟩

/-- The page at `off` is there, or there are frames to bring it in. -/
def Ready (lo hi : ℕ) (own : Finset ℕ) (t off : ℕ) (s : Kern) : Prop :=
  (s.mm.pte (slot t off)).present ∨ off / 4096 * 4096 < s.endData.toNat ∧ ∃ n, Mm.Roomy n s.mm own ∧ n + 2 ≤ hi - lo

theorem touch_data (h : InTop lo hi own t a i s) (hoff : off < 0x3000000) (hr : Ready lo hi own t off s) :
    ∃ mm, touch off s = .ok () { s with mm := mm } ∧ Top lo hi own t a mm ∧ KeepsTop t a s.mm mm ∧
      (mm.pte (slot t off)).present := by
  have ha := h.below.2
  have hstart : touch off s = (if s.ldt.data.getLimit.toNat ≤ off then Prog.halt .limit
      else if (s.mm.pte (Mm.slotAt (s.ldt.data.getBase.toNat + off))).present then pure ()
      else doNoPage (off / 4096 * 4096) : X Unit) s := by
    unfold touch
    rw [← h.fs, Prog.bind_run (inSeg_run s)]
    rfl
  rw [hstart, h.limit, if_neg (by omega), h.base, show Mm.slotAt (Mm.base t + off) = slot t off from rfl]
  by_cases hp : (s.mm.pte (slot t off)).present
  · rw [if_pos hp]
    exact ⟨s.mm, rfl, h.top, fun _ _ _ _ hv => hv, hp⟩
  · rw [if_neg hp]
    obtain ⟨hd, n, hroomy, hn⟩ := hr.resolve_left hp
    obtain ⟨ps, hps, hothers⟩ := h.others hd
    have hshared : ∀ s1, memory (fun mm => Mm.doNoPage mm t (off / 4096 * 4096) (some ps)) s = .ok none s1 →
        doNoPage (off / 4096 * 4096) s = .ok () s1 := fun s1 hm => by
      unfold doNoPage
      refine (Prog.bind_run (Prog.get_run s)).trans ?_
      rw [hps, h.cur]
      exact Prog.bind_run hm
    have hread : ∀ f s1 s2, memory (fun mm => Mm.doNoPage mm t (off / 4096 * 4096) (some ps)) s = .ok (some f) s1 →
        (filePage i (off / 4096 * 4096) >>= fun page =>
          free fun mm => Mm.doNoPageRead mm f (Mm.base t + off / 4096 * 4096) page) s1 = .ok () s2 →
        doNoPage (off / 4096 * 4096) s = .ok () s2 := fun f s1 s2 hm hrun => by
      unfold doNoPage
      refine (Prog.bind_run (Prog.get_run s)).trans ?_
      rw [hps, h.cur, h.base, h.executable]
      exact (Prog.bind_run hm).trans hrun
    obtain ⟨m1, e1, hf⟩ | ⟨f, m1, e1, hnew⟩ := fault_ok h.top.inv hroomy hn h.top.task (by omega) (Bool.eq_false_iff.mpr hp) hothers
    · obtain ⟨htop, hkeep⟩ := h.top.filled (by omega) hf
      refine ⟨m1, ?_, htop, hkeep, hf.present⟩
      have hmem : memory (fun mm => Mm.doNoPage mm t (off / 4096 * 4096) (some ps)) s = .ok none { s with mm := m1 } := by
        unfold memory
        dsimp only
        rw [e1]
      exact hshared _ hmem
    · have hmem : memory (fun mm => Mm.doNoPage mm t (off / 4096 * 4096) (some ps)) s = .ok (some f) { s with mm := m1 } := by
        unfold memory
        dsimp only
        rw [e1]
      obtain ⟨pg, hpg⟩ := @filePage_run { s with mm := m1 } i h.bcount (off / 4096 * 4096) (by omega)
      obtain ⟨m2, e2, hf⟩ := hnew pg
      obtain ⟨htop, hkeep⟩ := h.top.filled (by omega) hf
      refine ⟨m2, ?_, htop, hkeep, hf.present⟩
      refine hread f _ _ hmem ((Prog.bind_run hpg).trans ?_)
      unfold free memory
      dsimp only
      rw [e2]
      rfl

/-- The bytes from `off` to the end of its page are cleared. -/
theorem clearTail_spec : ∀ n off s, InTop lo hi own t a i s → off + n ≤ 0x3000000 → off % 4096 + n ≤ 4096 →
    (n = 0 ∨ Ready lo hi own t off s) → ∃ mm, clearTail n off s = .ok () { s with mm := mm } ∧ KeepsTop t a s.mm mm := by
  intro n
  induction n with
  | zero => exact fun off s _ _ _ _ => ⟨s.mm, rfl, fun _ _ _ _ hv => hv⟩
  | succ n ih =>
    intro off s h hoff hpg hr
    have ha := h.below.2
    obtain ⟨m1, e1, htop1, hk1, hp1⟩ := touch_data h (by omega) (hr.resolve_left (Nat.succ_ne_zero n))
    obtain ⟨htop2, hk2, hp2⟩ := htop1.poke (by omega) (by omega) hp1 0
    set m2 := Mm.Sys.poke m1 (slot t off) (off % 4096) 0
    have hput : putFsByte off 0 s = .ok () { s with mm := m2 } := by
      refine (Prog.bind_run e1).trans ?_
      change Out.ok () { s with mm := Mm.Sys.poke m1 (Mm.slotAt (s.ldt.data.getBase.toNat + off)) (off % 4096) _ } = _
      rw [h.base]
      rfl
    have hready : n = 0 ∨ Ready lo hi own t (off + 1) { s with mm := m2 } := by
      refine (Nat.eq_zero_or_pos n).imp_right fun hn => Or.inl ?_
      have hsame : slot t (off + 1) = slot t off := by
        rw [← slot_pages (q := off + 1), show (off + 1) / 4096 = off / 4096 by omega, slot_pages]
      rw [hsame]
      exact hp2
    obtain ⟨m3, e3, hk3⟩ := ih (off + 1) { s with mm := m2 } (h.set htop2) (by omega)
      (by have : n = 0 ∨ 0 < n := Nat.eq_zero_or_pos n; omega) hready
    refine ⟨m3, (Prog.bind_run hput).trans e3, fun q hq hq' v hv => hk3 q hq hq' v (hk2 q hq hq' v (hk1 q hq hq' v hv))⟩

/-! ## The program is installed -/

/-- What happens to the old executable and the marked descriptors. -/
structure Handover (i : Fin 32) (k k₂ k₃ : Fs.Kern) : Prop where
  dropped : Fs.iput k.cur.executable k = .ok () k₂
  closed : Fs.closeMarked (k₂.setTask k₂.current { k₂.cur with executable := some i }) = .ok () k₃
  bcount : ∀ d z, k₃.bcount d z ≠ 255

/-- The current task, with this executable. -/
def Runs (t : Fin 64) (e : Option (Fin 32)) (k : Fs.Kern) : Prop := k.current = t ∧ k.cur.executable = e

theorem Runs.modTask {c : Fin 64} {e : Option (Fin 32)} {f : Fs.Task → Fs.Task} (hf : ∀ τ, (f τ).executable = τ.executable) :
    Spec (fun _ => True) (fun _ => True) (Runs c e) (Fs.modTask f) fun _ => Runs c e := by
  refine Spec.modify fun k hk => ⟨hk.1, ?_⟩
  refine Eq.trans ?_ hk.2
  change ((k.setTask k.current (f k.cur)).task k.current).executable = _
  rw [Fs.Kern.setTask_self]
  exact hf _

theorem closeFd_runs (c : Fin 64) (e : Option (Fin 32)) (fd : Fin 20) (f : Fin 64) :
    Spec (fun _ => True) (fun _ => True) (Runs c e) (Fs.closeFd fd f) fun _ => Runs c e := by
  refine Spec.bind (M := fun _ => Runs c e) (Runs.modTask fun _ => rfl) fun _ => Spec.get fun k _ =>
    Spec.ite (fun _ => Spec.halt trivial) fun _ => ?_
  refine Spec.bind (M := fun _ => Runs c e) (Spec.modify fun k hk => hk) fun _ => ?_
  have hput : Spec (fun _ => True) (fun _ => True) (Runs c e) (Fs.iput (k.file f).inode) fun _ => Runs c e := by
    intro k' hk'
    refine ((Fs.iput_same _ k').post fun _ k'' hsame => ?_) k' (Fs.Same.refl k')
    exact ⟨hsame.current.trans hk'.1, by rw [hsame.cur]; exact hk'.2⟩
  dsimp only
  exact Spec.ite (fun _ => hput.bind fun _ => Spec.pure fun _ hs => hs) fun _ => Spec.pure fun _ hs => hs

theorem closeMarked_runs (c : Fin 64) (e : Option (Fin 32)) :
    Spec (fun _ => True) (fun _ => True) (Runs c e) Fs.closeMarked fun _ => Runs c e := by
  refine Spec.bind (M := fun _ => Runs c e) (Spec.each (fun fd => ?_) _) fun _ => Runs.modTask fun _ => rfl
  refine Spec.get fun k _ => Spec.ite (fun _ => ?_) fun _ => Spec.pure fun _ hs => hs
  refine Spec.bind (M := fun _ => Runs c e) ?_ fun _ => Spec.pure fun _ hs => hs
  unfold Fs.sysClose
  rw [dif_pos fd.isLt]
  refine Spec.bind (M := fun _ => Runs c e) (Runs.modTask fun _ => rfl) fun _ => Spec.get fun k' _ => ?_
  cases k'.cur.filp ⟨fd.val, fd.isLt⟩ with
  | none => exact Spec.pure fun _ hs => hs
  | some f => exact closeFd_runs c e fd f

theorem Handover.runs {k k₂ k₃ : Fs.Kern} (h : Handover i k k₂ k₃) : Runs k.current (some i) k₃ := by
  have hput := Fs.Leaves.ok (Fs.iput_leaves k.cur.executable) h.dropped
  have hset : Runs k.current (some i) (k₂.setTask k₂.current { k₂.cur with executable := some i }) :=
    ⟨hput.current, by change ((k₂.setTask k₂.current _).task k₂.current).executable = _; rw [Fs.Kern.setTask_self]⟩
  have := closeMarked_runs k.current (some i) _ hset
  rwa [h.closed] at this

theorem Args.beside {s₀ : Mem} {p : ℕ} {s' : Kern} (ha : Args lo hi own s₀ p s) (hm : s'.mm = s.mm) (hp : s'.page = s.page) :
    Args lo hi own s₀ p s' := by
  obtain ⟨h1, h2, h3, h4, h5, h6, h7, h8, h9, h10, h11⟩ := ha
  rw [← hm, ← hp] at *
  exact ⟨h1, h2, h3, h4, h5, h6, h7, h8, h9, h10, h11⟩

/-- Nothing from `a` on changes. -/
theorem Tables.top {sp p : ℕ} {args envs : List (List UInt8)} (h : Tables mm t sp p args envs) (ha : 4096 * a ≤ sp)
    (hp : sp + 12 + 4 * (args.length + 1) + 4 * (envs.length + 1) ≤ p)
    (htop : p + (bytes (args ++ envs)).length ≤ 0x4000000) (hk : KeepsTop t a mm mm') : Tables mm' t sp p args envs := by
  have hb : KeepsBeside t 0 (4096 * a) mm mm' := fun q hq hd w hw => hk q (by omega) hq w hw
  refine ⟨hb.word h.argc (by omega) (by omega), hb.word h.argv (by omega) (by omega), hb.word h.envp (by omega) (by omega),
    hb.table h.argTable (by omega) (by omega), hb.table h.envTable (by omega) (by omega), ?_⟩
  exact hb.bytes h.strings htop (by omega)

theorem install_spec {s₀ : Mem} {p sp : ℕ} {k₂ k₃ : Fs.Kern} {ex : Header}
    (hsize : ex.aText.toNat + ex.aData.toNat + ex.aBss.toNat ≤ 0x3000000) (args envs : List (List UInt8))
    (h0 : ∀ str ∈ args ++ envs, (0 : UInt8) ∉ str) (hs : Segments t s) (hk : Handover i s.fsys k₂ k₃)
    (ha : Args lo hi own s₀ p s) (hp : p + (bytes (args ++ envs)).length ≤ argTop)
    (hsp : sp = tableStart (0x3FE0000 + p) args.length envs.length) (hz : 0x3C00 ≤ a) (hza : 4096 * a ≤ sp)
    (hroom : 0x4000 - a + 1 + 2 ≤ avail s₀)
    (hb : ∀ n (_ : n < (bytes (args ++ envs)).length), s.argByte (p + n) = (bytes (args ++ envs))[n].toNat) (euid egid : ℕ) :
    ∃ s', install i ex p args.length envs.length euid egid s = .ok 0 s' ∧
      Tables s'.mm t sp (0x3FE0000 + p) args envs ∧ s'.sp = BitVec.ofNat 32 sp ∧ s'.ip = ex.aEntry ∧
      s'.fsys.cur.executable = some i := by
  have hpt : p ≤ argTop := by omega
  have hspu := hsp
  unfold tableStart at hspu
  have hpl : p < 0x20000 := by
    unfold argTop at hpt
    omega
  obtain ⟨hcur, hexe⟩ := hk.runs
  -- the point of no return
  set s1 : Kern := { s with fsys := k₃, handler := fun _ => 0 } with hs1
  have hseg : Segments t s1 :=
    ⟨hs.task, by rw [hs1]; dsimp only; rw [hcur]; exact hs.cur, hs.code, hs.data, hs.codeLimit, hs.dataLimit, hs.beyond, hs.endData⟩
  obtain ⟨m1, e1, hzone, hload⟩ := newSegment_spec hseg (ha.beside rfl rfl) hpt hz
    (show a ≤ 0x3FE0 + p / 4096 by omega) hroom ex.aText
  -- the tables
  set s2 : Kern := { s1 with mm := m1, ldt := s.ldt.change ex.aText, fs := .user } with hs2
  have hbase : s2.ldt.data.getBase.toNat = Mm.base t :=
    (congrArg BitVec.toNat (Desc.getBase_setLimit ..)).trans hs.code
  have hin : InZone lo hi own t a 2 s2 :=
    ⟨hzone, hseg.cur, hbase, Ldt.change_data .., rfl, hseg.endData.trans (by omega)⟩
  have hstr : BytesAt s2.mm t (0x3FE0000 + p) (bytes (args ++ envs)) := fun n hn => by
    rw [Nat.add_assoc]
    exact (hload (p + n) (by omega) (by omega)).trans (congrArg some (hb n hn))
  have hargTop : argTop = 0x1fffc := rfl
  obtain ⟨m2, e2, hzone2, htab⟩ := createTables_spec hin args envs h0 (by omega) (by omega) (by omega) hstr
  rw [← hsp] at e2 htab
  -- the end of the data
  have htail : (ex.aText + ex.aData).toNat = ex.aText.toNat + ex.aData.toNat := by
    rw [BitVec.toNat_add]
    omega
  have hend : ex.endData.toNat = ex.aText.toNat + ex.aData.toNat := by
    rw [← htail, BitVec.add_comm]
    rfl
  set s3 : Kern := { s2 with
    mm := m2, endCode := ex.endCode, endData := ex.endData, brk := ex.brk,
    startStack := BitVec.ofNat 32 (sp / 4096 * 4096),
    fsys := k₃.setTask k₃.current { k₃.cur with euid := euid, egid := egid } } with hs3
  have hexe3 : s3.fsys.cur.executable = some i := by
    change ((k₃.setTask k₃.current _).task k₃.current).executable = _
    rw [Fs.Kern.setTask_self]
    exact hexe
  have htop : InTop lo hi own t a i s3 :=
    ⟨hzone2.top, hseg.cur, hbase, Ldt.change_data .., rfl, hexe3, hk.bcount, by rw [hs3]; dsimp only; omega, by omega⟩
  set tail := (ex.aText + ex.aData).toNat with htl
  obtain ⟨m3, e3, hkeep⟩ := clearTail_spec ((4096 - tail % 4096) % 4096) tail s3 htop (by omega) (by omega) (by
    by_cases h4 : tail % 4096 = 0
    · exact Or.inl (by omega)
    · refine Or.inr (Or.inr ⟨by rw [hs3]; dsimp only; omega, ?_⟩)
      obtain ⟨n, hn, hle⟩ := hzone2.room
      exact ⟨n, hn, by omega⟩)
  refine ⟨{ s3 with mm := m3, ip := ex.aEntry, sp := BitVec.ofNat 32 sp }, ?_, ?_, rfl, rfl, hexe3⟩
  · obtain ⟨_, x1, f1, g1⟩ := Prog.bind_ok e1
    obtain ⟨_, x2, f2, g2⟩ := Prog.bind_ok g1
    have hput : fsys (Fs.iput s.fsys.cur.executable) s = .ok () { s with fsys := k₂ } := by
      unfold fsys
      rw [hk.dropped]
    have hclose : fsys Fs.closeMarked { s with
        fsys := k₂.setTask k₂.current { k₂.cur with executable := some i }, handler := fun _ => 0 } = .ok () s1 := by
      unfold fsys
      dsimp only
      rw [hk.closed]
    have haddr : p + 0x4000000 - 4096 * 32 = 0x3FE0000 + p := by omega
    unfold install
    refine (Prog.bind_run (Prog.get_run s)).trans ((Prog.bind_run hput).trans ?_)
    refine (Prog.bind_run (show fsys (Fs.modTask fun τ => { τ with executable := some i }) { s with fsys := k₂ } = .ok ()
      { s with fsys := k₂.setTask k₂.current { k₂.cur with executable := some i } } from rfl)).trans ?_
    refine (Prog.bind_run (show Prog.modify _ _ = .ok () { s with
      fsys := k₂.setTask k₂.current { k₂.cur with executable := some i }, handler := fun _ => 0 } from rfl)).trans ?_
    refine (Prog.bind_run hclose).trans ((Prog.bind_run (Prog.get_run s1)).trans ?_)
    refine (Prog.bind_run f1).trans ((Prog.bind_run f2).trans ((Prog.bind_run g2).trans ?_))
    rw [haddr]
    refine (Prog.bind_run e2).trans ?_
    exact Prog.bind_run e3
  · exact htab.top hza (by omega) (by omega) hkeep

/-! ## The layout -/

/-- The pushed words at `sp`, then the two tables, and string `i` of `args ++ envs` at `ptr i`. -/
structure Layout (mm : Mem) (t sp : ℕ) (ptr : ℕ → ℕ) (args envs : List (List UInt8)) : Prop where
  aligned : sp % 4 = 0
  argc : wordAt mm t sp = some args.length
  argv : wordAt mm t (sp + 4) = some (sp + 12)
  envp : wordAt mm t (sp + 8) = some (sp + 12 + 4 * (args.length + 1))
  arg : ∀ i < args.length, wordAt mm t (sp + 12 + 4 * i) = some (ptr i)
  argNull : wordAt mm t (sp + 12 + 4 * args.length) = some 0
  env : ∀ i < envs.length, wordAt mm t (sp + 12 + 4 * (args.length + 1) + 4 * i) = some (ptr (args.length + i))
  envNull : wordAt mm t (sp + 12 + 4 * (args.length + 1) + 4 * envs.length) = some 0
  copy : ∀ i (_ : i < (args ++ envs).length), BytesAt mm t (ptr i) ((args ++ envs)[i] ++ [0])
  above : ∀ i < (args ++ envs).length, sp + 12 + 4 * (args.length + 1) + 4 * (envs.length + 1) ≤ ptr i
  apart : ∀ i (_ : i < (args ++ envs).length) j, i < j → j < (args ++ envs).length →
    ptr i + (args ++ envs)[i].length + 1 ≤ ptr j
  inside : ∀ i (_ : i < (args ++ envs).length), ptr i + (args ++ envs)[i].length + 1 ≤ 0x4000000

theorem bytes_take {strs : List (List UInt8)} {i : ℕ} (hi : i < strs.length) :
    bytes strs = bytes (strs.take i) ++ ((strs[i] ++ [0]) ++ bytes (strs.drop (i + 1))) := by
  rw [← bytes_cons, ← List.drop_eq_getElem_cons hi, ← bytes_append, List.take_append_drop]

theorem start_succ (p : ℕ) {strs : List (List UInt8)} {i : ℕ} (hi : i < strs.length) :
    start p strs (i + 1) = start p strs i + strs[i].length + 1 := by
  unfold start
  rw [List.take_succ_eq_append_getElem hi, bytes_append, List.length_append,
    show bytes [strs[i]] = strs[i] ++ [0] from List.append_nil _, List.length_append, List.length_singleton]
  omega

theorem start_mono (p : ℕ) (strs : List (List UInt8)) {i j : ℕ} (hij : i ≤ j) (hj : j ≤ strs.length) :
    start p strs i ≤ start p strs j := by
  induction j, hij using Nat.le_induction with
  | base => exact Nat.le_refl _
  | succ j hij ih =>
    have := ih (by omega)
    rw [start_succ p hj]
    omega

theorem start_last (p : ℕ) (strs : List (List UInt8)) : start p strs strs.length = p + (bytes strs).length := by
  unfold start
  rw [List.take_length]

theorem Tables.layout {sp p : ℕ} {args envs : List (List UInt8)} (h : Tables mm t sp p args envs) (hal : sp % 4 = 0)
    (hp : sp + 12 + 4 * (args.length + 1) + 4 * (envs.length + 1) ≤ p)
    (htop : p + (bytes (args ++ envs)).length ≤ 0x4000000) : Layout mm t sp (start p (args ++ envs)) args envs := by
  have hlast := start_last p (args ++ envs)
  refine ⟨hal, h.argc, h.argv, h.envp, fun i hi => ?_, h.argTable.null, fun i hi => ?_, h.envTable.null, fun i hi => ?_,
    fun i hi => ?_, fun i hi j hij hj => ?_, fun i hi => ?_⟩
  · rw [h.argTable.pointer i hi]
    unfold start
    rw [List.take_append_of_le_length hi.le]
  · rw [h.envTable.pointer i hi]
    unfold start
    rw [List.take_length_add_append, bytes_append, List.length_append, Nat.add_assoc]
  · have hb := h.strings
    rw [bytes_take hi] at hb
    exact (BytesAt.append (BytesAt.append hb).2).1
  · exact hp.trans (Nat.le_add_right _ _)
  · rw [← start_succ p hi]
    exact start_mono p _ hij hj.le
  · rw [← start_succ p hi]
    have := start_mono p (args ++ envs) (show i + 1 ≤ _ from hi) (Nat.le_refl _)
    omega

/-! ## execve of a program -/

/-- Where the stack pointer ends up. -/
def stackPointer (argv envp : List (List UInt8)) : ℕ :=
  tableStart (0x3FE0000 + (argTop - (bytes (argv ++ envp)).length)) argv.length envp.length

/-- The header of the file. -/
def headerOf (k : Fs.Kern) (i : Fin 32) : Header := Header.ofBlock ((k.disk (k.inode i).dev).block ((k.inode i).zone 0))

/-- Inode `i` is a program that the task may run. -/
structure Loadable (i : Fin 32) (k : Fs.Kern) : Prop where
  regular : Fs.isReg (k.inode i).mode
  mayRun : Fs.mayRun k.cur (k.inode i)
  dev : (k.inode i).dev ≠ 0
  bcount : k.bcount (k.inode i).dev ((k.inode i).zone 0) ≠ 255
  accepted : (headerOf k i).accepted (BitVec.ofNat 32 (k.inode i).size)

/-- The magic number is not that of a script. -/
theorem not_script {b : Fs.Block} {size : BitVec 32} (h : (Header.ofBlock b).accepted size) : ¬ (b 0 = 35 ∧ b 1 = 33) := by
  rintro ⟨h0, h1⟩
  have hmagic := congrArg BitVec.toNat (Header.accepted_iff _ |>.mp h).1
  have hval : (Header.ofBlock b).aMagic.toNat = Fs.headerLong b 0 % 2 ^ 32 := BitVec.toNat_ofNat ..
  have hword : b.word (2 * 0) = 0x2123 := by
    unfold Fs.Block.word
    rw [show b (2 * (2 * 0)) = 35 from h0, show b (2 * (2 * 0) + 1) = 33 from h1]
    rfl
  have hlow := (b (2 * (2 * 0 + 1))).toNat_lt
  have hhigh := (b (2 * (2 * 0 + 1) + 1)).toNat_lt
  have hnext : b.word (2 * 0 + 1) = (b (2 * (2 * 0 + 1))).toNat + 256 * (b (2 * (2 * 0 + 1) + 1)).toNat := rfl
  rw [hval, show ZMAGIC.toNat = 267 from rfl] at hmagic
  unfold Fs.headerLong at hmagic
  omega

/-- The first block of a file is read and given back. -/
theorem first_run {k : Fs.Kern} {dev nr : ℕ} (hs : s.fsys = k) (hdev : dev ≠ 0) (hb : k.bcount dev nr ≠ 255) :
    ∃ s₁, fsys (Fs.bread dev nr) s = .ok true s₁ ∧ s₁.fsys.disk = k.disk ∧ fsys (Fs.brelse dev nr) s₁ = .ok () s := by
  refine ⟨{ s with fsys := { k with bcount := Fs.hold k.bcount dev nr } }, ?_, rfl, ?_⟩
  · unfold fsys
    rw [hs, Fs.bread_run k _ hdev]
  · unfold fsys
    dsimp only
    rw [Fs.brelse_run k hb, ← hs]

/-- A file that can be loaded gets its strings, unless a script has put them in place, and is installed. -/
theorem execInode_loadable {k : Fs.Kern} (hs : s.fsys = k) (hload : Loadable i k) (filename : List UInt8)
    (argv envp : List (List UInt8)) (restart : ℕ → ℤ → Fin 32 → X ℤ) (shBang : Bool) (p : ℕ) (argc : ℤ) :
    ∃ euid egid, execInode filename argv envp restart shBang p argc i s =
      (if shBang then install i (headerOf k i) p argc.toNat envp.length euid egid
      else do
        let p ← copyAll (plainCalls argv envp) p
        if p = 0 then execError2 i (-Fs.eNOMEM)
        else install i (headerOf k i) p argc.toNat envp.length euid egid) s := by
  set x := k.inode i with hx
  refine ⟨if Fs.has x.mode 0o4000 then x.uid else k.cur.euid, if Fs.has x.mode 0o2000 then x.gid else k.cur.egid, ?_⟩
  obtain ⟨s₁, hread, hdisk, hrelse⟩ := first_run hs hload.dev hload.bcount
  unfold execInode
  refine (Prog.bind_run (Prog.get_run s)).trans ?_
  rw [hs, if_neg (not_not.mpr hload.regular), if_neg (not_not.mpr hload.mayRun)]
  refine (Prog.bind_run hread).trans ?_
  rw [if_pos rfl]
  refine (Prog.bind_run (Prog.get_run s₁)).trans ((Prog.bind_run hrelse).trans ?_)
  rw [hdisk]
  dsimp only
  have hacc := hload.accepted
  unfold headerOf at hacc ⊢
  rw [if_neg fun hb => not_script hacc ⟨hb.1, hb.2.1⟩, if_neg (not_not.mpr hacc)]

/-- `namei` of a path in the segment of `fs`. -/
theorem namei_run {g : Seg} {path : List UInt8} {k : Fs.Kern} {r : Option (Fin 32)} (hfs : s.fs = g)
    (hn : Fs.namei path s.fsys = .ok r k) : namei g path s = .ok r { s with fsys := k } := by
  refine (Prog.bind_run (show inSeg g s = .ok () s from ?_)).trans ?_
  · rw [← hfs]
    exact inSeg_run s
  · unfold fsys
    rw [hn]

/-- A path that names a program. -/
structure Program (filename : List UInt8) (i : Fin 32) (k k₁ k₂ k₃ : Fs.Kern) : Prop where
  found : Fs.namei filename k = .ok (some i) k₁
  loadable : Loadable i k₁
  size : (headerOf k₁ i).aText.toNat + (headerOf k₁ i).aData.toNat + (headerOf k₁ i).aBss.toNat ≤ 0x3000000
  handover : Handover i k₁ k₂ k₃

/-- A string takes a byte at least. -/
theorem length_le_bytes (strs : List (List UInt8)) : strs.length ≤ (bytes strs).length := by
  induction strs with
  | nil => exact Nat.le_refl _
  | cons str strs ih =>
    rw [bytes_cons, List.length_append, List.length_append, List.length_singleton, List.length_cons]
    omega

/-- Where the stack pointer is, with at most as many strings as there are bytes of them. -/
structure StackPlace (p argc envc sp : ℕ) : Prop where
  low : 0x3C00 ≤ sp / 4096
  high : sp < 0x4000000
  aligned : sp % 4 = 0
  tables : sp + 12 + 4 * (argc + 1) + 4 * (envc + 1) ≤ 0x3FE0000 + p
  pages : pagesAt p ≤ 0x4000 - sp / 4096

theorem tableStart_place {p argc envc : ℕ} (h : argc + envc + p ≤ argTop) :
    StackPlace p argc envc (tableStart (0x3FE0000 + p) argc envc) := by
  unfold argTop at h
  unfold tableStart
  refine ⟨by omega, by omega, by omega, by omega, ?_⟩
  unfold pagesAt argTop
  split_ifs <;> omega

theorem tableStart_anti (p envc : ℕ) {argc argc' : ℕ} (h : argc ≤ argc') : tableStart p argc' envc ≤ tableStart p argc envc := by
  unfold tableStart
  omega

/-- `.`, `..`, and `sh`, which is inode 2. -/
def shDir : Fs.Block := fun n =>
  if n = 0 ∨ n = 16 then 1 else if n = 2 ∨ n = 18 ∨ n = 19 then 46
  else if n = 32 then 2 else if n = 34 then 115 else if n = 35 then 104 else 0

/-- One page of text. -/
def shHeader : Fs.Block := fun n => if n = 0 then 0x0b else if n = 1 then 1 else if n = 5 then 16 else 0

def shDisk : Fs.Disk where
  super := ⟨64, 1440, 1, 1, 16, 0x137F⟩
  imap _ := true
  zmap _ := true
  inode n := if n = 1 then ⟨0o040755, 0, 48, 0, 2, fun k => if k = 0 then 20 else 0⟩
    else if n = 2 then ⟨0o100755, 0, 5120, 0, 1, fun k => if k = 0 then 21 else 0⟩ else Fs.MInode.zero.toDInode
  block b := if b = 20 then shDir else if b = 21 then shHeader else Fs.Block.zero

/-- Task 1 on the mounted disk. -/
def shFs : Fs.Kern where
  inode i := if i = 0 then ⟨shDisk.inode 1, 769, 1, 4, false, false, false⟩ else Fs.MInode.zero
  lastInode := 0
  super k := if k = 0 then ⟨shDisk.super, 769, some 0, some 0⟩ else ⟨⟨0, 0, 0, 0, 0, 0⟩, 0, none, none⟩
  file _ := ⟨0, 0, 0, none, 0⟩
  task t := if t = 1 then { Fs.Task.none with state := .live, pwd := some 0, root := some 0 } else Fs.Task.none
  disk _ := shDisk
  bcount _ _ := 0
  rootDev := 769
  current := 1
  env := ⟨none, false, true⟩

def shKern : Kern := { idleKern with fsys := shFs, ldt := ⟨⟨0x9f, 0, 0, 0xc0, 4⟩, ⟨0x9f, 0, 0, 0xc0, 4⟩, by decide⟩ }

def sh : List UInt8 := [47, 115, 104]

/-- Inode `i` is a program of at most 48 MB. -/
def loads (k : Fs.Kern) (i : Fin 32) : Bool := Fs.isReg (k.inode i).mode && Fs.mayRun k.cur (k.inode i) &&
  (k.inode i).dev ≠ 0 && (headerOf k i).accepted (BitVec.ofNat 32 (k.inode i).size) &&
  ((headerOf k i).aText.toNat + (headerOf k i).aData.toNat + (headerOf k i).aBss.toNat ≤ 0x3000000)

theorem closeMarked_unmarked {k : Fs.Kern} (h : ∀ fd, k.cur.closeOnExec fd = false) :
    Fs.closeMarked k = .ok () (k.setTask k.current { k.cur with closeOnExec := fun _ => false }) := by
  have heach : ∀ l : List (Fin 20), Prog.each (fun fd => do
      let s ← Prog.get
      if s.cur.closeOnExec fd then
        let _ ← Fs.sysClose fd.val
      else pure () : Fin 20 → Fs.K Unit) l k = .ok () k := by
    intro l
    induction l with
    | nil => rfl
    | cons fd l ih =>
      have hskip : (do
          let s ← Prog.get
          if s.cur.closeOnExec fd then
            let _ ← Fs.sysClose fd.val
          else pure () : Fs.K Unit) k = .ok () k := by
        refine (Prog.bind_run (Prog.get_run k)).trans ?_
        rw [h fd]
        rfl
      exact (Prog.bind_run hskip).trans ih
  exact (Prog.bind_run (heach _)).trans rfl

/-- With no executable and nothing marked, a path to such an inode names a program. -/
theorem program_of {path : List UInt8} {k k₁ : Fs.Kern} {B : ℕ → ℕ → Fs.Block}
    (hk : Fs.Holding (fun _ _ => 0) (fun _ _ => 0) B k) (hnone : k.cur.executable = none)
    (hopen : ∀ fd, k.cur.closeOnExec fd = false) (hn : Fs.namei path k = .ok (some i) k₁) (hl : loads k₁ i = true) :
    ∃ k₂ k₃, Program path i k k₁ k₂ k₃ := by
  unfold loads at hl
  simp only [Bool.and_eq_true, decide_eq_true_eq] at hl
  obtain ⟨⟨⟨⟨hreg, hrun⟩, hdev⟩, hacc⟩, hsize⟩ := hl
  have hcount : k₁.bcount = fun _ _ => 0 := (Fs.Leads.ok (Fs.namei_holds path) hk hn).bcount
  have hcur : k₁.cur = k.cur := ((Fs.namei_leaves path).ok hn).cur
  have hdrop : Fs.iput k₁.cur.executable k₁ = .ok () k₁ := by
    rw [hcur, hnone]
    rfl
  have hset : (k₁.setTask k₁.current { k₁.cur with executable := some i }).cur = { k₁.cur with executable := some i } :=
    Fs.Kern.setTask_self ..
  refine ⟨k₁, _, hn, ⟨hreg, hrun, hdev, ?_, hacc⟩, hsize, hdrop, closeMarked_unmarked fun fd => ?_, fun d z => ?_⟩
  · rw [hcount]
    exact show (0 : UInt8) ≠ 255 by decide
  · rw [hset]
    exact (congrArg (Fs.Task.closeOnExec · fd) hcur).trans (hopen fd)
  · change k₁.bcount d z ≠ 255
    rw [hcount]
    exact show (0 : UInt8) ≠ 255 by decide

theorem shKern_segments : Segments 1 shKern := by
  refine ⟨by decide, rfl, by decide, by decide, by decide, by decide, fun k hk _ => ?_, by decide⟩
  have hd : ∀ k < 16, (idleKern.mm.dir (16 * 1 + k)).present = false := by decide
  exact hd k hk

end Linux011.Exec
