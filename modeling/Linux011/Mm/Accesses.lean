/-
  Inversion lemmas for the accesses: page faults, write faults, user and supervisor stores,
  `verify_area`. With those for fork, exec and exit they give the invariant of every reachable
  state (`taskSystem_inv`).
-/
import Linux011.Mm.SysInv

namespace Linux011.Mm

open Linux011.Lib Sys

variable {F : Nat → Exe} {lo hi : Nat} {σ σ' : Sys}

/-! ## Stores -/

/-- The effect of a completed store through slot `x`. -/
structure Poked (lo hi : Nat) (s : Mem) (own : Finset Nat) (x : Nat × Nat) (j v : Nat)
    (s' : Mem) : Prop where
  inv : MemInv lo hi s' own
  dir : s'.dir = s.dir
  high : s'.highMemory = s.highMemory
  slot : s'.pte x = { s.pte x with dirty := true }
  pte : ∀ z ∈ userSlots, z ≠ x → s'.pte z = s.pte z
  byte : (s'.mem (s.pte x).frame).byte = Function.update (s.mem (s.pte x).frame).byte j (v % 256)
  other : ∀ f, f ≠ (s.pte x).frame → (s'.mem f).byte = (s.mem f).byte

theorem poke_spec {s : Mem} {own : Finset Nat} (h : MemInv lo hi s own) {x : Nat × Nat}
    (hx : x ∈ userSlots) (hp : (s.pte x).present) (j v : Nat) :
    Poked lo hi s own x j v (poke s x j v) := by
  have hxd := (mem_userSlots.mp hx).1
  have hpd := s.dir_present_of_pte hp
  have h0 := h.dir_ne_zero hxd hpd
  have hb := h.bounds
  set e : Entry := { s.pte x with dirty := true } with he
  set p := s.mem (s.pte x).frame with hpg
  set s1 := s.setPage (s.pte x).frame { p with byte := Function.update p.byte j (v % 256) } with hs1
  -- the store into the page leaves the words of every table alone
  have hent : ∀ f i, (s1.mem f).entry i = (s.mem f).entry i := by
    intro f i
    rw [hs1, Mem.setPage_mem]
    split_ifs with hf
    · rw [hf]
    · rfl
  have hd1 : s1.dir = s.dir := funext fun d => hent 0 d
  have hp1 : ∀ z, s1.pte z = s.pte z := by
    intro z
    unfold Mem.pte
    rw [hd1, hent]
  have hpoke : poke s x j v = s1.setEntry (s.dir x.1).frame x.2 e := rfl
  have hdir : (poke s x j v).dir = s.dir := by
    rw [hpoke, Mem.setEntry_dir_of_ne _ h0, hd1]
  have i1 : MemInv lo hi s1 own :=
    h.step h.refs (fun _ _ _ => rfl) (fun d _ => by rw [hd1]; rfl) (fun z _ => hp1 z) rfl rfl
      (fun d _ => by rw [hd1]) (fun d _ i => hent _ i)
  have hread : ∀ z ∈ userSlots, (poke s x j v).pte z = if z = x then e else s.pte z := by
    intro z hz
    have := i1.dirs.pte_setEntry hxd (by rw [hd1]; exact hpd) (mem_userSlots.mp hz).1 e
    rw [hd1, hp1] at this
    rw [hpoke, this]
  refine ⟨?_, hdir, rfl, by rw [hread x hx, if_pos rfl],
    fun z hz hne => by rw [hread z hz, if_neg hne], ?_, ?_⟩
  · refine i1.setSlot (e := e) hx (by rw [hd1]; exact hpd) (by rw [hdir, hd1]) (fun f => ?_) rfl
      (i1.refs.retag (e := e) hb.1 hx (by rw [viewOf_pte, hp1]; exact hp) hp
        (by rw [viewOf_pte, hp1]) (fun hw => Or.inl (by rw [viewOf_pte, hp1]; exact hw)))
      rfl rfl rfl (fun _ _ _ => rfl)
    rw [hpoke, hd1]
  · rw [hpoke, Mem.setEntry_byte, hs1, Mem.setPage_mem, if_pos rfl]
  · intro f hf
    rw [hpoke, Mem.setEntry_byte, hs1, Mem.setPage_mem, if_neg hf]

theorem Poked.stays {s s' : Mem} {own : Finset Nat} {x : Nat × Nat} {j v : Nat}
    (h : Poked lo hi s own x j v s') : Stays (x.1 / 16) s s' := by
  refine ⟨fun d _ _ => by rw [h.dir], fun z hz ht => ?_⟩
  rw [h.pte z hz]
  rintro rfl
  exact ht rfl

/-- A store through a writable entry reaches no other entry. -/
theorem Poked.rest {s s' : Mem} {own : Finset Nat} {x z : Nat × Nat} {j v : Nat}
    (h : Poked lo hi s own x j v s') (hi' : MemInv lo hi s own) (hx : x ∈ userSlots)
    (hp : (s.pte x).present) (hrw : (s.pte x).rw = true) (hz : z ∈ userSlots) (hne : z ≠ x) :
    Fixed s s' z := by
  have hr := (hi'.pte_range hx hp).resolve_right (fun hr => by rw [hrw] at hr; cases hr.2)
  have hb := hi'.bounds
  refine Fixed.of_pte (h.pte z hz hne) fun f hpz hzf => h.other f ?_
  intro hff
  exact hne (hi'.refs.cow x hx z hz hp hrw (by rw [viewOf_pte]; omega) hpz (by
    rw [viewOf_pte, hzf, hff]))

/-- A store through a writable entry reaches no other task. -/
theorem Poked.moves {s s' : Mem} {own : Finset Nat} {x : Nat × Nat} {j v : Nat}
    (h : Poked lo hi s own x j v s') (hi' : MemInv lo hi s own) (hx : x ∈ userSlots)
    (hp : (s.pte x).present) (hrw : (s.pte x).rw = true) : Moves lo (x.1 / 16) s s' := by
  have hr := (hi'.pte_range hx hp).resolve_right (fun hr => by rw [hrw] at hr; cases hr.2)
  refine ⟨fun d _ => by rw [h.dir], fun z hz ht => h.rest hi' hx hp hrw hz ?_,
    fun g hg => h.other g (by omega)⟩
  rintro rfl
  exact ht rfl

/-! ## Page faults -/

theorem others_spec {t tmp : Nat} {τ : Task} {ps : List Nat}
    (h : σ.others t τ tmp = some ps) : Others t ps ∧ ∃ x, τ.executable = some x ∧
      tmp < τ.endData ∧ ∀ p ∈ ps, ∃ τ', σ.task p = some τ' ∧ τ'.executable = some x := by
  unfold Sys.others at h
  cases hx : τ.executable with
  | none => rw [hx] at h; cases h
  | some x =>
    rw [hx] at h
    dsimp only at h
    split_ifs at h with h1 h2
    · cases h
      exact ⟨(fun p hp => nomatch hp), x, rfl, by omega, (fun p hp => nomatch hp)⟩
    · cases h
      have hmem : ∀ p, p ∈ (List.range 64).reverse.filter (fun p =>
          decide (p ≠ 0 ∧ p ≠ t ∧ (σ.task p).any (fun τ' => τ'.executable = some x))) →
          (1 ≤ p ∧ p < 64 ∧ p ≠ t) ∧ ∃ τ', σ.task p = some τ' ∧ τ'.executable = some x := by
        intro p hp
        rw [List.mem_filter, List.mem_reverse, List.mem_range] at hp
        obtain ⟨hlt, hd⟩ := hp
        obtain ⟨hp0, hpt, hany⟩ := of_decide_eq_true hd
        rw [Option.any_eq_true] at hany
        obtain ⟨τ', hτ', he⟩ := hany
        exact ⟨⟨by omega, hlt, hpt⟩, τ', hτ', of_decide_eq_true he⟩
      exact ⟨fun p hp => (hmem p hp).1, x, rfl, by omega, fun p hp => (hmem p hp).2⟩

/-- `share_page` would find a page for offset `off` of task `t`. -/
def Shareable (σ : Sys) (t : Nat) (τ : Task) (off : Nat) : Prop :=
  ∃ ps, σ.others t τ (off / 4096 * 4096) = some ps ∧ ∃ p ∈ ps, Clean σ.mm (slot p off)

/-- The ways a fault of task `t` at the page of offset `tmp` can go. -/
inductive Faulted (F : Nat → Exe) (lo hi : Nat) (σ : Sys) (t tmp : Nat) (τ : Task) : Sys → Prop
  | served {s' : Mem} : NoPage lo hi σ.mm σ.own t tmp (σ.others t τ tmp) none s' →
      Faulted F lo hi σ t tmp τ (σ.setMm s')
  | reading {s' : Mem} {f : Nat} :
      NoPage lo hi σ.mm σ.own t tmp (σ.others t τ tmp) (some f) s' →
      Faulted F lo hi σ t tmp τ { σ with
        mm := s', own := insert f σ.own
        task := Function.update σ.task t (some { τ with fault := some (f, tmp) }) }
  | oom {σ' : Sys} : Exited F lo hi σ t σ' → Faulted F lo hi σ t tmp τ σ'

theorem NoPage.moves {s s' : Mem} {own : Finset Nat} {t tmp : Nat} {os : Option (List Nat)}
    {r : Option Nat} (h : NoPage lo hi s own t tmp os r s') (ht : tmp < 0x4000000) :
    Moves lo t s s' := by
  have hs : (slotAt (base t + tmp)).1 / 16 = t := slot_task ht
  cases h with
  | empty hf hput => exact (hf.moves t).trans (hs ▸ hput.moves)
  | shared _ htk => exact hs ▸ htk.moves
  | read _ hf => exact hf.moves t

/-- A fault adds at most the table of the faulting page to the directory. -/
theorem NoPage.dir {s s' : Mem} {own : Finset Nat} {t tmp : Nat} {os : Option (List Nat)}
    {r : Option Nat} (h : NoPage lo hi s own t tmp os r s') {d : Nat}
    (hd : d ≠ (slot t tmp).1) : s'.dir d = s.dir d := by
  cases h with
  | empty hf hput => rw [hput.dir d hd, hf.dir]
  | shared _ htk => exact htk.dir d hd
  | read _ hf => rw [hf.dir]

theorem NoPage.inv {s s' : Mem} {own : Finset Nat} {t tmp : Nat} {os : Option (List Nat)}
    {r : Option Nat} (h : NoPage lo hi s own t tmp os r s') :
    MemInv lo hi s' (match r with | none => own | some f => insert f own) := by
  cases h with
  | empty hf hput =>
    have := hput.inv
    rw [Finset.erase_insert hf.notOwn] at this
    exact this
  | shared _ htk => exact htk.inv
  | read _ hf => exact hf.inv

theorem fault_cases (h : SysInv F lo hi σ) {t off : Nat} (he : σ.fault t off = .ok σ') :
    SysInv F lo hi σ' ∧ ∃ τ, σ.task t = some τ ∧ 1 ≤ t ∧ (τ.phase = .user ∨ τ.phase = .tail) ∧
      τ.fault = none ∧ off < τ.limit ∧ (σ.mm.pte (slot t (off / 4096 * 4096))).present = false ∧
      Faulted F lo hi σ t (off / 4096 * 4096) τ σ' := by
  unfold Sys.fault at he
  cases ht : σ.task t with
  | none => rw [ht] at he; cases he
  | some τ =>
    rw [ht] at he
    dsimp only at he
    split_ifs at he with hpre
    obtain ⟨h1, h2, h3, h4, h5⟩ := hpre
    have ho := h.task t τ ht
    have hlim := ho.limit
    set tmp := off / 4096 * 4096 with htmp
    have hlt : tmp < 0x4000000 := by omega
    have hlive : τ.phase ≠ .zombie := by rcases h2 with h2 | h2 <;> rw [h2] <;> decide
    have hks : (slot t tmp).1 = 16 * t + tmp / 0x400000 ∧ tmp / 0x400000 < slots τ.limit :=
      ⟨(slot_fst hlt).1, div_lt_slots (by omega) hlim⟩
    have hos : ∀ ps, σ.others t τ tmp = some ps → Others t ps := fun ps hps => (others_spec hps).1
    rcases doNoPage_spec h.mem hlt h1 ho.lt h5 hos with ⟨s', e, hq⟩ | ⟨r, s', e, hn⟩
    · rw [e] at he
      have hset : SysInv F lo hi (σ.setMm s') :=
        h.setMm ht hq.inv (hq.moves t).stays h3 (fun k _ hp => by rw [hq.dir] at hp; exact Or.inl hp)
      have hex := doExit_cases hset he
      refine ⟨hex.inv, τ, rfl, h1, h2, h3, h4, h5, .oom ?_⟩
      exact ⟨hex.inv, (hq.moves t).trans hex.moves, hex.task, hex.dead, hex.iCount⟩
    · rw [e] at he
      have hdirs : ∀ k < 16, (s'.dir (16 * t + k)).present = true →
          (σ.mm.dir (16 * t + k)).present = true ∨ (τ.phase ≠ .zombie ∧ k < slots τ.limit) := by
        intro k hk hp
        by_cases hkd : 16 * t + k = (slot t tmp).1
        · exact Or.inr ⟨hlive, by omega⟩
        · rw [hn.dir hkd] at hp
          exact Or.inl hp
      cases r with
      | none =>
        cases he
        exact ⟨h.setMm ht hn.inv (hn.moves hlt).stays h3 hdirs, τ, rfl, h1, h2, h3, h4, h5,
          .served hn⟩
      | some f =>
        cases he
        refine ⟨?_, τ, rfl, h1, h2, h3, h4, h5, .reading hn⟩
        have hfr : Fresh lo hi σ.mm σ.own f s' := by
          generalize σ.others t τ tmp = os at hn
          cases hn with
          | read _ hf => exact hf
        refine h.update (t := t) hn.inv (hn.moves hlt).stays
          (fun u hu => Function.update_of_ne hu _ _) ?_ ?_ ?_ ?_
        · intro u τ' q _ hu hq
          exact Finset.mem_insert_of_mem ((h.task u τ' hu).read q.1 q.2 hq).2.2.1
        · intro τ' hτ'
          cases (Function.update_self t _ σ.task).symm.trans hτ'
          refine ⟨ho.lt, hlim, ho.code, ho.data, ho.zero, fun _ => h1, ho.size, fun g o hq => ?_⟩
          cases hq
          refine ⟨h1, h2, Finset.mem_insert_self _ _, by dsimp only; omega, by omega, ?_⟩
          dsimp only
          rw [hfr.pte _ (slot_mem h1 ho.lt hlt)]
          exact h5
        · intro k hk h1' h2' hp
          refine ⟨_, Function.update_self t _ σ.task, hlive, ?_⟩
          rcases hdirs k hk hp with hp | hp
          · obtain ⟨τ', hτ', _, hks'⟩ := h.dirs t k h1' h2' hk hp
            cases ht.symm.trans hτ'
            exact hks'
          · exact hp.2
        · intro τ' q hτ' hq u τ'' q' hu hτ'' hq' heq
          cases (Function.update_self t _ σ.task).symm.trans hτ'
          cases hq
          have := ((h.task u τ'' hτ'').read q'.1 q'.2 hq').2.2.1
          rw [← heq] at this
          exact hfr.notOwn this

/-- The end of a fault: the page is mapped with its contents, or the task is gone. -/
inductive Read (F : Nat → Exe) (lo hi : Nat) (σ : Sys) (t : Nat) (τ : Task) (f tmp x : Nat) :
    Sys → Prop
  | mapped {s' : Mem} :
      Put lo hi (σ.mm.setPage f ((F x).page τ.endData tmp)) σ.own f (slot t tmp) s' →
      Read F lo hi σ t τ f tmp x { σ with
        mm := s', own := σ.own.erase f
        task := Function.update σ.task t (some { τ with fault := none }) }
  | oom {σ' : Sys} : Exited F lo hi σ t σ' → Read F lo hi σ t τ f tmp x σ'

theorem MemInv.fill_moves {s : Mem} {own : Finset Nat} (h : MemInv lo hi s own) {f : Nat}
    (hf : f ∈ own) (p : Page) (t : Nat) : Moves lo t s (s.setPage f p) := by
  obtain ⟨_, hd, hp⟩ := h.fill hf p
  have hr := h.refs.ownRange f hf
  refine ⟨fun d _ => by rw [hd], fun z hz _ => Fixed.of_pte (hp z hz) fun g hpz hzg => ?_, ?_⟩
  · rw [Mem.setPage_mem, if_neg]
    exact fun hgf => h.refs.ownPte f hf z hz hpz (hzg.trans hgf)
  · intro g hg
    rw [Mem.setPage_mem, if_neg (by omega)]

theorem faultRead_cases (h : SysInv F lo hi σ) {t : Nat} (he : σ.faultRead F t = .ok σ') :
    SysInv F lo hi σ' ∧ ∃ τ f tmp x, σ.task t = some τ ∧ τ.fault = some (f, tmp) ∧
      τ.executable = some x ∧ Read F lo hi σ t τ f tmp x σ' := by
  unfold faultRead at he
  cases ht : σ.task t with
  | none => rw [ht] at he; cases he
  | some τ =>
    rw [ht] at he
    dsimp only at he
    split at he
    swap
    · cases he
    rename_i f tmp x hfault hx
    have ho := h.task t τ ht
    obtain ⟨h1, h2, h3, h4, h5, h6⟩ := ho.read f tmp hfault
    have hlive : τ.phase ≠ .zombie := by rcases h2 with h2 | h2 <;> rw [h2] <;> decide
    have hlim := ho.limit
    have hlt : tmp < 0x4000000 := by omega
    have hks : (slot t tmp).1 = 16 * t + tmp / 0x400000 ∧ tmp / 0x400000 < slots τ.limit :=
      ⟨(slot_fst hlt).1, div_lt_slots h4 hlim⟩
    have hsl : (slot t tmp).1 / 16 = t := slot_task hlt
    -- any memory inside the region of `t` gives the invariant once the page is no longer held
    have hset : ∀ s', MemInv lo hi s' (σ.own.erase f) → Moves lo t σ.mm s' →
        (∀ d, d ≠ (slot t tmp).1 → s'.dir d = σ.mm.dir d) →
        SysInv F lo hi { σ with
          mm := s', own := σ.own.erase f
          task := Function.update σ.task t (some { τ with fault := none }) } := by
      intro s' hmem hm hdir
      refine h.update (t := t) hmem hm.stays (fun u hu => Function.update_of_ne hu _ _) ?_ ?_ ?_ ?_
      · intro u τ' q hu hτ' hq
        refine Finset.mem_erase.mpr ⟨fun heq => ?_, ((h.task u τ' hτ').read q.1 q.2 hq).2.2.1⟩
        exact hu (h.inj u t τ' τ q (f, tmp) hτ' ht hq hfault heq)
      · intro τ' hτ'
        cases (Function.update_self t _ σ.task).symm.trans hτ'
        exact ⟨ho.lt, hlim, ho.code, ho.data, ho.zero, fun _ => h1, ho.size,
          (fun g o hq => nomatch hq)⟩
      · intro k hk h1' h2' hp
        refine ⟨_, Function.update_self t _ σ.task, hlive, ?_⟩
        by_cases hkd : 16 * t + k = (slot t tmp).1
        · dsimp only; omega
        · rw [show ({ σ with mm := s', own := σ.own.erase f, task := _ } : Sys).mm = s' from rfl,
            hdir _ hkd] at hp
          obtain ⟨τ', hτ', _, hks'⟩ := h.dirs t k h1' h2' hk hp
          cases ht.symm.trans hτ'
          exact hks'
      · intro τ' q hτ' hq
        cases (Function.update_self t _ σ.task).symm.trans hτ'
        cases hq
    rcases finish_cases he with ⟨s', e, rfl⟩ | ⟨s', e, hex⟩
    · rcases doNoPageRead_spec h.mem (userAddr_task h1 ho.lt hlt) h3 h6
        ((F x).page τ.endData tmp) with ⟨_, e', _⟩ | ⟨s2, e', hput⟩
      · rw [e] at e'; cases e'
      · rw [e] at e'
        cases e'
        have hd := (h.mem.fill h3 ((F x).page τ.endData tmp)).2.1
        refine ⟨hset s' hput.inv ((h.mem.fill_moves h3 _ t).trans (hsl ▸ hput.moves))
          (fun d hne => by rw [hput.dir d hne, hd]), τ, f, tmp, x, rfl, hfault, hx, .mapped hput⟩
    · rcases doNoPageRead_spec h.mem (userAddr_task h1 ho.lt hlt) h3 h6
        ((F x).page τ.endData tmp) with ⟨s2, e', i2, d2, f2, b2⟩ | ⟨s2, e', _⟩
      · rw [e] at e'
        cases e'
        have hr := h.mem.refs.ownRange f h3
        have hm : Moves lo t σ.mm s' :=
          ⟨fun d _ => by rw [d2], fun z hz _ => f2 z hz, fun g hg => b2 g (by omega)⟩
        have hx' := doExit_cases (hset s' i2 hm (fun d _ => by rw [d2])) hex
        refine ⟨hx'.inv, τ, f, tmp, x, rfl, hfault, hx, .oom ⟨hx'.inv, hm.trans hx'.moves, ?_,
          hx'.dead, hx'.iCount⟩⟩
        intro u hu
        rw [hx'.task u hu]
        exact Function.update_of_ne hu _ _
      · rw [e] at e'; cases e'

/-! ## Write faults and stores -/

/-- `do_wp_page` at a present page of task `t`. -/
theorem doWpPage_cases (h : SysInv F lo hi σ) {t off : Nat} {τ : Task}
    (hrun : σ.Running t τ) (hoff : off < τ.limit) (hp : (σ.mm.pte (slot t off)).present = true) :
    doWpPage σ.mm (base t + off) = .error (.oom σ.mm) ∨
      ∃ s', doWpPage σ.mm (base t + off) = .ok s' ∧
        Unprotected lo hi σ.mm σ.own (slot t off) s' := by
  have ho := h.task t τ hrun.2.1
  have hlt : off < 0x4000000 := lt_of_lt_of_le hoff ho.limit
  exact unWpPage_spec h.mem (slot_mem hrun.1 ho.lt hlt) hp

/-- Task `t` keeps its state and its tables. -/
theorem SysInv.setRunning (h : SysInv F lo hi σ) {t : Nat} {τ : Task} {s' : Mem}
    (hrun : σ.Running t τ) (hmem : MemInv lo hi s' σ.own) (hst : Stays t σ.mm s')
    (hdir : s'.dir = σ.mm.dir) : SysInv F lo hi (σ.setMm s') :=
  h.setMm hrun.2.1 hmem hst hrun.2.2.2 (fun k _ hp => by rw [hdir] at hp; exact Or.inl hp)

/-- The effect of a write fault alone. -/
inductive Wp (F : Nat → Exe) (lo hi : Nat) (σ : Sys) (t off : Nat) : Sys → Prop
  | done {s' : Mem} : Unprotected lo hi σ.mm σ.own (slot t off) s' → Wp F lo hi σ t off (σ.setMm s')
  | oom {σ' : Sys} : Exited F lo hi σ t σ' → Wp F lo hi σ t off σ'

theorem wp_cases (h : SysInv F lo hi σ) {t off : Nat} (he : σ.wp t off = .ok σ') :
    SysInv F lo hi σ' ∧ ∃ τ, σ.Running t τ ∧ off < τ.limit ∧
      (σ.mm.pte (slot t off)).present = true ∧ (σ.mm.pte (slot t off)).rw = false ∧
      Wp F lo hi σ t off σ' := by
  unfold Sys.wp at he
  cases ht : σ.task t with
  | none => rw [ht] at he; cases he
  | some τ =>
    rw [ht] at he
    dsimp only at he
    split_ifs at he with hpre
    obtain ⟨h1, h2, h3, h4⟩ := hpre
    have hlt : off < 0x4000000 := lt_of_lt_of_le h2 (h.task t τ ht).limit
    have hsl : (slot t off).1 / 16 = t := slot_task hlt
    rcases doWpPage_cases h h1 h2 h3 with e | ⟨s', e, hu⟩
    · rw [e] at he
      have hx := doExit_cases h he
      exact ⟨hx.inv, τ, h1, h2, h3, h4, .oom hx⟩
    · rw [e] at he
      cases he
      exact ⟨h.setRunning h1 hu.inv (hsl ▸ hu.moves.stays) hu.dir, τ, h1, h2, h3, h4, .done hu⟩

/-- The effect of a user store: the entry was writable or has just been made so. -/
inductive Stored (F : Nat → Exe) (lo hi : Nat) (σ : Sys) (t off v : Nat) : Sys → Prop
  | direct {s' : Mem} : (σ.mm.pte (slot t off)).rw = true →
      Poked lo hi σ.mm σ.own (slot t off) (off % 4096) v s' →
      Stored F lo hi σ t off v (σ.setMm s')
  | copied {s1 s' : Mem} : (σ.mm.pte (slot t off)).rw = false →
      Unprotected lo hi σ.mm σ.own (slot t off) s1 →
      Poked lo hi s1 σ.own (slot t off) (off % 4096) v s' →
      Stored F lo hi σ t off v (σ.setMm s')
  | oom {σ' : Sys} : Exited F lo hi σ t σ' → Stored F lo hi σ t off v σ'

theorem store_cases (h : SysInv F lo hi σ) {t off v : Nat} (he : σ.store t off v = .ok σ') :
    SysInv F lo hi σ' ∧ ∃ τ, σ.Running t τ ∧ off < τ.limit ∧
      (σ.mm.pte (slot t off)).present = true ∧ Stored F lo hi σ t off v σ' := by
  unfold Sys.store at he
  cases ht : σ.task t with
  | none => rw [ht] at he; cases he
  | some τ =>
    rw [ht] at he
    dsimp only at he
    split_ifs at he with hpre hrw
    · cases he
      obtain ⟨h1, h2, h3⟩ := hpre
      have ho := h.task t τ ht
      have hlt : off < 0x4000000 := lt_of_lt_of_le h2 ho.limit
      have hsl : (slot t off).1 / 16 = t := slot_task hlt
      have hpk := poke_spec h.mem (slot_mem h1.1 ho.lt hlt) h3 (off % 4096) v
      have hst := hpk.stays
      rw [hsl] at hst
      exact ⟨h.setRunning h1 hpk.inv hst hpk.dir, τ, h1, h2, h3, .direct hrw hpk⟩
    · obtain ⟨h1, h2, h3⟩ := hpre
      have ho := h.task t τ ht
      have hlt : off < 0x4000000 := lt_of_lt_of_le h2 ho.limit
      have hsl : (slot t off).1 / 16 = t := slot_task hlt
      have hsm := slot_mem h1.1 ho.lt hlt
      rcases doWpPage_cases h h1 h2 h3 with e | ⟨s1, e, hu⟩
      · rw [e] at he
        have hx := doExit_cases h he
        exact ⟨hx.inv, τ, h1, h2, h3, .oom hx⟩
      · rw [e] at he
        cases he
        have hpk := poke_spec hu.inv hsm hu.present (off % 4096) v
        have hst : Stays t σ.mm (poke s1 (slot t off) (off % 4096) v) := by
          have hs1 := hsl ▸ hu.moves.stays
          have hs2 := hsl ▸ hpk.stays
          exact ⟨fun d hd hne => (hs2.dir d hd hne).trans (hs1.dir d hd hne),
            fun z hz hne => (hs2.pte z hz hne).trans (hs1.pte z hz hne)⟩
        exact ⟨h.setRunning h1 hpk.inv hst (hpk.dir.trans hu.dir), τ, h1, h2, h3,
          .copied (by simpa using hrw) hu hpk⟩

theorem putFs_cases (h : SysInv F lo hi σ) {t off v : Nat} (he : σ.putFs t off v = .ok σ') :
    SysInv F lo hi σ' ∧ ∃ τ s', σ.task t = some τ ∧ 1 ≤ t ∧ off < τ.limit ∧
      (τ.phase = .user ∨ τ.phase = .tail ∧ 0x3000000 ≤ off) ∧
      (σ.mm.pte (slot t off)).present = true ∧
      Poked lo hi σ.mm σ.own (slot t off) (off % 4096) v s' ∧ σ' = σ.setMm s' := by
  unfold Sys.putFs at he
  cases ht : σ.task t with
  | none => rw [ht] at he; cases he
  | some τ =>
    rw [ht] at he
    dsimp only at he
    split_ifs at he with hpre
    cases he
    obtain ⟨h1, h2, h3, h4, h5⟩ := hpre
    have ho := h.task t τ ht
    have hlt : off < 0x4000000 := lt_of_lt_of_le h3 ho.limit
    have hsl : (slot t off).1 / 16 = t := slot_task hlt
    have hpk := poke_spec h.mem (slot_mem h1 ho.lt hlt) h5 (off % 4096) v
    have hst := hpk.stays
    rw [hsl] at hst
    refine ⟨h.setMm ht hpk.inv hst h2 (fun k _ hp => ?_), τ, _, rfl, h1, h3, h4,
      h5, hpk, rfl⟩
    rw [hpk.dir] at hp
    exact Or.inl hp

/-! ## The end of exec -/

/-- The stores of zeros at the end of `do_execve`: `n` bytes at the end of the page. -/
theorem pokeZeros_spec {x : Nat × Nat} (hx : x ∈ userSlots) : ∀ n ≤ 4096, ∀ {s : Mem}
    {own : Finset Nat}, MemInv lo hi s own → (s.pte x).present →
      MemInv lo hi (pokeZeros s x n) own ∧ (pokeZeros s x n).dir = s.dir ∧
      (pokeZeros s x n).pte x = (if n = 0 then s.pte x else { s.pte x with dirty := true }) ∧
      (∀ z ∈ userSlots, z ≠ x → (pokeZeros s x n).pte z = s.pte z) ∧
      (∀ j, ((pokeZeros s x n).mem (s.pte x).frame).byte j =
        if 4096 ≤ j + n ∧ j < 4096 then 0 else (s.mem (s.pte x).frame).byte j) ∧
      ∀ f, f ≠ (s.pte x).frame → ((pokeZeros s x n).mem f).byte = (s.mem f).byte
  | 0, _, s, own, h, hp => by
    refine ⟨h, rfl, rfl, fun _ _ _ => rfl, fun j => ?_, fun _ _ => rfl⟩
    rw [if_neg (by omega)]
    rfl
  | n + 1, hn, s, own, h, hp => by
    have hpk := poke_spec h hx hp (4095 - n) 0
    have hp1 : ((poke s x (4095 - n) 0).pte x).present := by rw [hpk.slot]; exact hp
    obtain ⟨i, d, px, pz, b, o⟩ := pokeZeros_spec hx n (by omega) hpk.inv hp1
    have hf1 : ((poke s x (4095 - n) 0).pte x).frame = (s.pte x).frame := by rw [hpk.slot]
    rw [pokeZeros]
    rw [hf1] at b o
    refine ⟨i, d.trans hpk.dir, ?_, fun z hz hne => (pz z hz hne).trans (hpk.pte z hz hne), ?_,
      fun f hf => (o f hf).trans (hpk.other f hf)⟩
    · rw [px, hpk.slot, if_neg (Nat.succ_ne_zero n)]
      split_ifs <;> rfl
    · intro j
      rw [b j, hpk.byte, Function.update_apply]
      by_cases hj : j = 4095 - n
      · rw [if_pos hj, if_pos (show 4096 ≤ j + (n + 1) ∧ j < 4096 by omega)]
        split_ifs <;> rfl
      · rw [if_neg hj]
        have hiff : (4096 ≤ j + n ∧ j < 4096) ↔ (4096 ≤ j + (n + 1) ∧ j < 4096) := by omega
        simp only [hiff]

theorem execTail_cases (h : SysInv F lo hi σ) {t : Nat} (he : σ.execTail t = .ok σ') :
    SysInv F lo hi σ' ∧ ∃ τ, σ.task t = some τ ∧ τ.phase = .tail ∧
      σ'.task = Function.update σ.task t (some { τ with phase := .user }) ∧
      ((τ.endData % 4096 = 0 ∧ σ'.mm = σ.mm) ∨
        ((σ.mm.pte (slot t τ.endData)).present = true ∧ τ.endData % 4096 ≠ 0 ∧
          σ'.mm = pokeZeros σ.mm (slot t τ.endData) (4096 - τ.endData % 4096))) := by
  unfold execTail at he
  cases ht : σ.task t with
  | none => rw [ht] at he; cases he
  | some τ =>
    rw [ht] at he
    dsimp only at he
    have ho := h.task t τ ht
    by_cases hpre : τ.phase = .tail ∧ τ.fault = none
    swap
    · rw [if_pos hpre] at he; cases he
    rw [if_neg (not_not.mpr hpre)] at he
    -- the phase changes, the memory only below the directory
    have hset : ∀ s', MemInv lo hi s' σ.own → Stays t σ.mm s' → s'.dir = σ.mm.dir →
        SysInv F lo hi ((σ.setTask t (some { τ with phase := .user })).setMm s') := by
      intro s' hmem hst hdir
      refine h.update (t := t) hmem hst (fun u hu => Function.update_of_ne hu _ _) ?_ ?_ ?_ ?_
      · exact fun u τ' q _ hu hq => ((h.task u τ' hu).read q.1 q.2 hq).2.2.1
      · intro τ' hτ'
        cases (Function.update_self t _ σ.task).symm.trans hτ'
        refine ⟨ho.lt, ho.limit, ho.code, ho.data, ho.zero, (fun hz => nomatch hz), ho.size,
          fun f o hf => ?_⟩
        have hf' : τ.fault = some (f, o) := hf
        rw [hpre.2] at hf'; cases hf'
      · intro k hk h1 h2 hp
        rw [show ((σ.setTask t _).setMm s').mm.dir = s'.dir from rfl, hdir] at hp
        obtain ⟨τ', hτ', _, hks⟩ := h.dirs t k h1 h2 hk hp
        cases ht.symm.trans hτ'
        exact ⟨_, Function.update_self t _ σ.task, by simp, hks⟩
      · intro τ' q hτ' hq
        cases (Function.update_self t _ σ.task).symm.trans hτ'
        have hq' : τ.fault = some q := hq
        rw [hpre.2] at hq'; cases hq'
    by_cases hal : τ.endData % 4096 = 0
    · rw [if_pos hal] at he
      cases he
      exact ⟨hset σ.mm h.mem (Moves.refl lo t _).stays rfl, τ, rfl, hpre.1, rfl, Or.inl ⟨hal, rfl⟩⟩
    · rw [if_neg hal] at he
      split_ifs at he with hp
      cases he
      have hdata := ho.data
      have hlt : τ.endData < 0x4000000 := by omega
      have hx := slot_mem (ho.tail hpre.1) ho.lt hlt
      obtain ⟨i, d, px, pz, _, _⟩ :=
        pokeZeros_spec hx (4096 - τ.endData % 4096) (by omega) h.mem hp
      refine ⟨hset _ i ⟨fun _ _ _ => by rw [d], fun z hz hne => ?_⟩ d, τ, rfl, hpre.1, rfl,
        Or.inr ⟨hp, hal, rfl⟩⟩
      rw [pz z hz]
      rintro rfl
      exact hne (slot_task hlt)

/-! ## verify_area -/

/-- The page of slot `z` is present in both memories or in neither, with the same bytes. The
    frame behind it may be another one. -/
def Same (s s' : Mem) (z : Nat × Nat) : Prop :=
  (s'.pte z).present = (s.pte z).present ∧
    ((s.pte z).present → (s'.mem (s'.pte z).frame).byte = (s.mem (s.pte z).frame).byte)

theorem Fixed.same {s s' : Mem} {z : Nat × Nat} (h : Fixed s s' z) : Same s s' z :=
  ⟨h.present, fun hp => by rw [h.frame]; exact h.2 hp⟩

theorem Same.trans {s s' s'' : Mem} {z : Nat × Nat} (h : Same s s' z) (h' : Same s' s'' z) :
    Same s s'' z :=
  ⟨h'.1.trans h.1, fun hp => (h'.2 (h.1 ▸ hp)).trans (h.2 hp)⟩

theorem Unprotected.same {s s' : Mem} {own : Finset Nat} {x z : Nat × Nat}
    (h : Unprotected lo hi s own x s') (hp : (s.pte x).present) (hz : z ∈ userSlots) :
    Same s s' z := by
  by_cases hzx : z = x
  · rw [hzx]; exact ⟨h.present.trans hp.symm, fun _ => h.byte⟩
  · exact (h.rest z hz hzx).same

/-- `un_wp_page` on slot `x` copies a dirty page and forgets that it is dirty. -/
def Loses (s : Mem) (x : Nat × Nat) : Prop :=
  (s.pte x).present = true ∧ (s.pte x).rw = false ∧ (s.pte x).dirty = true ∧
    ¬ (256 ≤ (s.pte x).frame ∧ s.memMap ((s.pte x).frame - 256) = 1)

instance (s : Mem) (x : Nat × Nat) : Decidable (Loses s x) :=
  inferInstanceAs (Decidable (_ ∧ _ ∧ _ ∧ _))

/-- Slot number `j` of the walk of `verify_area` from `start`. -/
def walk (start j : Nat) : Nat × Nat := slotAt ((start + 4096 * j) % 2 ^ 32)

/-- What the loop of `verify_area` over `n` pages does, also when it runs out of memory. -/
structure HalfVerified (lo hi : Nat) (s : Mem) (own : Finset Nat) (start n : Nat) (s' : Mem) :
    Prop where
  inv : MemInv lo hi s' own
  dir : s'.dir = s.dir
  same : ∀ z ∈ userSlots, Same s s' z
  pte : ∀ z ∈ userSlots, (∀ j < n, z ≠ walk start j) → s'.pte z = s.pte z ∧ Fixed s s' z
  dirty : (∀ j < n, walk start j ∈ userSlots → ¬ Loses s (walk start j)) → ∀ z ∈ userSlots,
    (s'.pte z).dirty = (s.pte z).dirty
  kept : ∀ g, g < lo ∨ g ∈ own → (s'.mem g).byte = (s.mem g).byte

/-- The effect of the whole loop: every present page it came by is writable. -/
structure Verified (lo hi : Nat) (s : Mem) (own : Finset Nat) (start n : Nat) (s' : Mem) : Prop
    extends HalfVerified lo hi s own start n s' where
  writable : ∀ j < n, walk start j ∈ userSlots → (s'.pte (walk start j)).present = true →
    (s'.pte (walk start j)).rw = true

theorem HalfVerified.refl {s : Mem} {own : Finset Nat} (h : MemInv lo hi s own)
    (start n : Nat) : HalfVerified lo hi s own start n s :=
  ⟨h, rfl, fun _ _ => Fixed.refl.same, fun _ _ _ => ⟨rfl, Fixed.refl⟩, fun _ _ _ => rfl,
    fun _ _ => rfl⟩

theorem walk_zero {start : Nat} (h : start < 2 ^ 32) : walk start 0 = slotAt start := by
  unfold walk
  rw [Nat.mul_zero, Nat.add_zero, Nat.mod_eq_of_lt h]

theorem walk_succ (start j : Nat) : walk ((start + 4096) % 2 ^ 32) j = walk start (j + 1) := by
  unfold walk
  have h : ((start + 4096) % 2 ^ 32 + 4096 * j) % 2 ^ 32 = (start + 4096 * (j + 1)) % 2 ^ 32 := by
    omega
  rw [h]

/-- `un_wp_page` elsewhere does not make slot `x` lose its dirty bit later. -/
theorem Unprotected.not_loses {s s' : Mem} {own : Finset Nat} {x z : Nat × Nat}
    (h : Unprotected lo hi s own x s') (hi' : MemInv lo hi s own) (hz : z ∈ userSlots)
    (hn : ¬ Loses s z) : ¬ Loses s' z := by
  rintro ⟨hp, hr, hd, hc⟩
  by_cases hzx : z = x
  · rw [hzx, h.rw] at hr; cases hr
  · rw [h.pte z hz hzx] at hp hr hd hc
    refine hn ⟨hp, hr, hd, ?_⟩
    rintro ⟨hf, h1⟩
    have hle := h.cnt z hz hp hf
    have hr' := (hi'.pte_range hz hp).resolve_right (fun hr => by omega)
    have hpos := h.inv.pte_pos hz (by rw [h.pte z hz hzx]; exact hp)
      (by rw [h.pte z hz hzx]; exact hr'.1) (by rw [h.pte z hz hzx]; exact hr'.2)
    rw [h.pte z hz hzx] at hpos
    exact hc ⟨hf, by omega⟩

theorem Unprotected.dirty_eq {s s' : Mem} {own : Finset Nat} {x z : Nat × Nat}
    (h : Unprotected lo hi s own x s') (hp : (s.pte x).present) (hr : (s.pte x).rw = false)
    (hn : ¬ Loses s x) (hz : z ∈ userSlots) : (s'.pte z).dirty = (s.pte z).dirty := by
  by_cases hzx : z = x
  · rw [hzx, h.dirty]
    cases hd : (s.pte x).dirty with
    | false => rfl
    | true =>
      rw [Bool.true_and, decide_eq_true_eq]
      by_contra hc
      exact hn ⟨hp, hr, hd, hc⟩
  · rw [h.pte z hz hzx]

/-- One call of `write_verify`, as the first page of a walk. -/
theorem writeVerify_walk {s : Mem} {own : Finset Nat} {start : Nat} (h : MemInv lo hi s own)
    (hs : start < 2 ^ 32) : writeVerify s start = .error (.oom s) ∨
      ∃ s1, writeVerify s start = .ok s1 ∧ Verified lo hi s own start 1 s1 ∧
        ∀ z ∈ userSlots, ¬ Loses s z → ¬ Loses s1 z := by
  have h0 := walk_zero hs
  have hj : ∀ j, j < 1 → walk start j = slotAt start := by
    intro j hj
    obtain rfl : j = 0 := by omega
    exact h0
  rcases writeVerify_spec h hs with ⟨e, hn⟩ | ⟨ha, hp, hr, e | ⟨s1, e, hu⟩⟩
  · refine Or.inr ⟨s, e, ⟨HalfVerified.refl h start 1, fun j hj' _ hp => ?_⟩, fun _ _ hz => hz⟩
    rw [hj j hj'] at hp ⊢
    by_contra hr
    exact hn ⟨hp, by simpa using hr⟩
  · exact Or.inl e
  · refine Or.inr ⟨s1, e, ⟨⟨hu.inv, hu.dir, fun z hz => hu.same hp hz, fun z hz hne => ?_,
      fun hn z hz => ?_, hu.kept⟩, fun j hj' _ _ => ?_⟩, fun z hz hn => hu.not_loses h hz hn⟩
    · have hzx : z ≠ slotAt start := h0 ▸ hne 0 (by omega)
      exact ⟨hu.pte z hz hzx, hu.rest z hz hzx⟩
    · have hn0 := hn 0 (by omega)
      rw [h0] at hn0
      exact hu.dirty_eq hp hr (hn0 (slotAt_mem ha)) hz
    · rw [hj j hj']; exact hu.rw

/-- A walk is its first page and the rest. -/
theorem HalfVerified.cons {s s1 s2 : Mem} {own : Finset Nat} {start n : Nat}
    (h1 : HalfVerified lo hi s own start 1 s1)
    (hl : ∀ z ∈ userSlots, ¬ Loses s z → ¬ Loses s1 z)
    (h2 : HalfVerified lo hi s1 own ((start + 4096) % 2 ^ 32) n s2) :
    HalfVerified lo hi s own start (n + 1) s2 := by
  refine ⟨h2.inv, h2.dir.trans h1.dir, fun z hz => (h1.same z hz).trans (h2.same z hz), ?_, ?_,
    fun g hg => (h2.kept g hg).trans (h1.kept g hg)⟩
  · intro z hz hne
    have e1 := h1.pte z hz (fun j hj => hne j (by omega))
    have e2 := h2.pte z hz (fun j hj => by rw [walk_succ]; exact hne (j + 1) (by omega))
    exact ⟨e2.1.trans e1.1, e1.2.trans e2.2⟩
  · intro hn z hz
    rw [h2.dirty (fun j hj hu => ?_) z hz, h1.dirty (fun j hj => hn j (by omega)) z hz]
    rw [walk_succ] at hu ⊢
    exact hl _ hu (hn (j + 1) (by omega) hu)

theorem verifyPages_spec : ∀ n {s : Mem} {own : Finset Nat} {start : Nat}, MemInv lo hi s own →
    start < 2 ^ 32 →
    (∃ s', verifyPages s start n = .error (.oom s') ∧ HalfVerified lo hi s own start n s') ∨
      ∃ s', verifyPages s start n = .ok s' ∧ Verified lo hi s own start n s'
  | 0, s, own, start, h, _ =>
    Or.inr ⟨s, rfl, HalfVerified.refl h start 0, fun j hj => absurd hj (Nat.not_lt_zero j)⟩
  | n + 1, s, own, start, h, hs => by
    have hlt : (start + 4096) % 2 ^ 32 < 2 ^ 32 := Nat.mod_lt _ (by decide)
    rcases writeVerify_walk h hs with e | ⟨s1, e, v1, l1⟩
    · exact Or.inl ⟨s, bind_of_error e _, HalfVerified.refl h start (n + 1)⟩
    · have hrec : verifyPages s start (n + 1) = verifyPages s1 ((start + 4096) % 2 ^ 32) n :=
        bind_of_ok e _
      rw [hrec]
      rcases verifyPages_spec n v1.inv hlt with ⟨s2, e2, v2⟩ | ⟨s2, e2, v2⟩
      · exact Or.inl ⟨s2, e2, v1.toHalfVerified.cons l1 v2⟩
      · refine Or.inr ⟨s2, e2, v1.toHalfVerified.cons l1 v2.toHalfVerified, ?_⟩
        intro j hj hu hp
        by_cases hw : ∃ i < n, walk start j = walk ((start + 4096) % 2 ^ 32) i
        · obtain ⟨i, hi', he⟩ := hw
          rw [he] at hu hp ⊢
          exact v2.writable i hi' hu hp
        · -- only the first page: what `write_verify` did to it is still there
          have hj0 : j = 0 := by
            by_contra hne
            exact hw ⟨j - 1, by omega, by rw [walk_succ]; congr 1; omega⟩
          subst hj0
          have e3 := (v2.pte _ hu (fun i hi' he => hw ⟨i, hi', he⟩)).1
          rw [e3] at hp ⊢
          exact v1.writable 0 (by omega) hu hp

/-- The number of pages `verify_area` visits. -/
def walkLength (addr size : Nat) : Nat :=
  if 2 ^ 31 ≤ size + addr % 4096 then 0 else (size + addr % 4096 + 4095) / 4096

/-- The linear address of the first page `verify_area` visits. -/
def walkStart (t addr : Nat) : Nat := (addr / 4096 * 4096 + base t) % 2 ^ 32

theorem verifyArea_eq (s : Mem) (t addr size : Nat) :
    verifyArea s t addr size = verifyPages s (walkStart t addr) (walkLength addr size) := by
  unfold verifyArea walkLength walkStart
  split_ifs <;> rfl

/-- The effect of a `verify_area` event. -/
inductive VerifyStep (F : Nat → Exe) (lo hi : Nat) (σ : Sys) (t addr size : Nat) : Sys → Prop
  | done {s' : Mem} :
      Verified lo hi σ.mm σ.own (walkStart t addr) (walkLength addr size) s' →
      VerifyStep F lo hi σ t addr size (σ.setMm s')
  | oom {s' : Mem} {σ' : Sys} :
      HalfVerified lo hi σ.mm σ.own (walkStart t addr) (walkLength addr size) s' →
      Exited F lo hi (σ.setMm s') t σ' → VerifyStep F lo hi σ t addr size σ'

theorem verify_cases (h : SysInv F lo hi σ) {t addr size : Nat}
    (he : σ.verify t addr size = .ok σ') :
    SysInv F lo hi σ' ∧ ∃ τ, σ.Running t τ ∧ addr < 2 ^ 32 ∧ size < 2 ^ 31 ∧
      VerifyStep F lo hi σ t addr size σ' := by
  unfold Sys.verify at he
  cases ht : σ.task t with
  | none => rw [ht] at he; cases he
  | some τ =>
    rw [ht] at he
    dsimp only at he
    split_ifs at he with hpre
    obtain ⟨h1, h2, h3⟩ := hpre
    have hset : ∀ s', HalfVerified lo hi σ.mm σ.own (walkStart t addr) (walkLength addr size) s' →
        SysInv F lo hi (σ.setMm s') := by
      intro s' hv
      refine h.setRunning h1 hv.inv ⟨fun d _ _ => by rw [hv.dir], fun z hz _ => ?_⟩ hv.dir
      exact (hv.same z hz).1
    rw [verifyArea_eq] at he
    rcases verifyPages_spec (walkLength addr size) h.mem
      (show walkStart t addr < 2 ^ 32 from Nat.mod_lt _ (by decide)) with ⟨s', e, hv⟩ | ⟨s', e, hv⟩
    · rw [e] at he
      have hx := doExit_cases (hset s' hv) he
      exact ⟨hx.inv, τ, h1, h2, h3, .oom hv hx⟩
    · rw [e] at he
      cases he
      exact ⟨hset s' hv.toHalfVerified, τ, h1, h2, h3, .done hv⟩

/-! ## Every reachable state -/

/-- The kernel takes, frees or writes a page it holds, or a task slot is released. -/
theorem kernel_inv (h : SysInv F lo hi σ) {t : Nat} (hmem : MemInv lo hi σ'.mm σ'.own)
    (hm : Moves lo t σ.mm σ'.mm) (hdir : σ'.mm.dir = σ.mm.dir)
    (hpte : ∀ z ∈ userSlots, (σ'.mm.pte z).present = (σ.mm.pte z).present)
    (htask : σ'.task = σ.task)
    (hown : ∀ g ∈ σ.own, σ.Reading g → g ∈ σ'.own) : SysInv F lo hi σ' := by
  have hkeep : ∀ u τ p, σ.task u = some τ → τ.fault = some p → p.1 ∈ σ'.own :=
    fun u τ p hu hp => hown p.1 ((h.task u τ hu).read p.1 p.2 hp).2.2.1
      (h.reading hu (o := p.2) hp)
  refine h.update (t := t) hmem hm.stays (fun u _ => by rw [htask])
    (fun u τ p _ hu hp => hkeep u τ p hu hp) ?_ ?_ ?_
  · intro τ hτ
    rw [htask] at hτ
    have ho := h.task t τ hτ
    refine ⟨ho.lt, ho.limit, ho.code, ho.data, ho.zero, ho.tail, ho.size, fun f o hf => ?_⟩
    obtain ⟨h1, h2, h3, h4, h5, h6⟩ := ho.read f o hf
    refine ⟨h1, h2, hkeep t τ (f, o) hτ hf, h4, h5, ?_⟩
    rw [hpte _ (slot_mem h1 ho.lt (lt_of_lt_of_le h4 ho.limit))]
    exact h6
  · intro k hk h1 h2 hp
    rw [hdir] at hp
    rw [htask]
    exact h.dirs t k h1 h2 hk hp
  · intro τ p hτ hp u τ' p' hu hτ' hp' he
    rw [htask] at hτ
    exact hu (h.inj u t τ' τ p' p hτ' hτ hp' hp he.symm)

theorem step_inv (h : SysInv F lo hi σ) {e : Event} (he : σ.step F e = .ok σ') :
    SysInv F lo hi σ' := by
  cases e with
  | getFreePage =>
    dsimp only [Sys.step] at he
    cases hg : Mm.getFreePage σ.mm with
    | none => rw [hg] at he; cases he; exact h
    | some r =>
      obtain ⟨f, s⟩ := r
      rw [hg] at he
      cases he
      have hf := getFreePage_spec h.mem hg
      exact kernel_inv (t := 64) h hf.inv (hf.moves 64) hf.dir
        (fun z hz => by rw [hf.pte z hz]) rfl (fun g hg' _ => Finset.mem_insert_of_mem hg')
  | freePage f =>
    dsimp only [Sys.step] at he
    split_ifs at he with hpre
    obtain ⟨s, e, i, m⟩ := freePage_owned h.mem hpre.1
    rw [e] at he
    cases he
    have hd : s.dir = σ.mm.dir := Mem.dir_of_mem (fun g => by rw [m])
    have hp : ∀ z, s.pte z = σ.mm.pte z := Mem.pte_of_mem (fun g => by rw [m])
    refine kernel_inv (t := 64) h i ⟨fun d _ => by rw [hd], fun z _ _ => ?_, fun g _ => by rw [m]⟩
      hd (fun z _ => by rw [hp]) rfl (fun g hg hr => Finset.mem_erase.mpr ⟨?_, hg⟩)
    · exact Fixed.of_pte (hp z) (fun g _ _ => by rw [m])
    · rintro rfl; exact hpre.2 hr
  | fill f p =>
    dsimp only [Sys.step] at he
    split_ifs at he with hpre
    cases he
    obtain ⟨i, d, q⟩ := h.mem.fill hpre p
    exact kernel_inv (t := 64) h i (h.mem.fill_moves hpre p 64) d (fun z hz => by
      rw [show (σ.setMm (σ.mm.setPage f p)).mm.pte z = (σ.mm.setPage f p).pte z from rfl, q z hz])
      rfl (fun g hg _ => hg)
  | inodeCount x n =>
    cases he
    exact ⟨h.mem, h.task, h.dirs, h.inj⟩
  | fork p c => exact (fork_cases h he).1
  | execBegin t x => exact (execBegin_cases h he).1
  | execFinish t args => exact (execFinish_cases h he).1
  | execTail t => exact (execTail_cases h he).1
  | exit t =>
    dsimp only [Sys.step] at he
    cases ht : σ.task t with
    | none => rw [ht] at he; cases he
    | some τ =>
      rw [ht] at he
      dsimp only at he
      split_ifs at he
      exact (doExit_cases h he).inv
  | release t =>
    dsimp only [Sys.step] at he
    cases ht : σ.task t with
    | none => rw [ht] at he; cases he
    | some τ =>
      rw [ht] at he
      dsimp only at he
      split_ifs at he with hz
      cases he
      have hnone : (σ.setTask t none).task t = none := by simp [Sys.setTask]
      refine h.update (t := t) h.mem (Moves.refl lo t _).stays
        (fun u hu => Function.update_of_ne hu _ _)
        (fun u τ' q _ hu hq => ((h.task u τ' hu).read q.1 q.2 hq).2.2.1) ?_ ?_ ?_
      · intro τ' hτ'
        cases hnone.symm.trans hτ'
      · intro k hk h1 h2 hp
        obtain ⟨τ', hτ', hnz, _⟩ := h.dirs t k h1 h2 hk hp
        cases ht.symm.trans hτ'
        exact absurd hz hnz
      · intro τ' q hτ'
        cases hnone.symm.trans hτ'
  | fault t off => exact (fault_cases h he).1
  | faultRead t => exact (faultRead_cases h he).1
  | wp t off => exact (wp_cases h he).1
  | store t off v => exact (store_cases h he).1
  | verify t addr size => exact (verify_cases h he).1
  | putFs t off v => exact (putFs_cases h he).1

theorem init_task {t : Nat} {τ : Task}
    (hτ : Function.update (fun _ => none) 0 (some initTask) t = some τ) : t = 0 ∧ τ = initTask := by
  by_cases h0 : t = 0
  · subst h0
    rw [Function.update_self] at hτ
    cases hτ
    exact ⟨rfl, rfl⟩
  · rw [Function.update_of_ne h0] at hτ; cases hτ

/-- The invariant holds in every reachable state. -/
theorem taskSystem_inv (h1 : 256 ≤ lo) (h2 : lo ≤ hi) (h3 : hi ≤ 4096)
    (h : (taskSystem F lo hi).Reachable σ) : SysInv F lo hi σ := by
  refine h.invariant (I := SysInv F lo hi) ?_ (fun σ e σ' _ hi' he => step_inv hi' he)
  rintro _ ⟨s, hb, n, rfl⟩
  have hm := memInit_inv h1 h2 h3 hb
  refine ⟨hm, ?_, ?_, ?_⟩
  · intro t τ hτ
    obtain ⟨rfl, rfl⟩ := init_task hτ
    exact ⟨by decide, by decide, Nat.le_refl _, by decide, fun _ => rfl, (fun hz => nomatch hz),
      (fun x hx => nomatch hx), (fun f o hf => nomatch hf)⟩
  · intro t k ht _ hk hp
    have hz : (memInit s (lo * 4096) (hi * 4096)).dir (16 * t + k) = Entry.zero :=
      hb.empty _ (by omega) (by omega)
    rw [show (Sys.mm _).dir (16 * t + k) = Entry.zero from hz] at hp
    cases hp
  · intro t t' τ τ' p p' hτ hτ' _ _ _
    rw [(init_task hτ).1, (init_task hτ').1]

end Linux011.Mm
