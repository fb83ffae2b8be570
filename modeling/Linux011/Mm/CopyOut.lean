/-
  Kernel copy-out: `verify_area` and then stores with `put_fs_byte` inside the buffer. A
  supervisor store ignores the R/W bit (head.s runs the 386 without write protection in ring 0),
  so the kernel relies on `verify_area` having unshared the pages. It unshares only pages that
  are present at the time of the call: a page that is absent faults in `put_fs_byte`, and
  `do_no_page` may serve the fault by sharing a frame with another task that runs the same
  executable. The store then lands in the other task's page.

  `NoLeak` is the exact condition on the state at the call under which this does not happen.
-/
import Linux011.Mm.Isolation

namespace Linux011.Mm

open Linux011.Lib Sys

/-! ## The copy loop -/

namespace Sys

/-- Task `t` is still in its system call (it has not been killed by `oom()`). -/
def Alive (σ : Sys) (t : Nat) : Prop := ∃ τ ∈ σ.task t, τ.phase = .user

instance (σ : Sys) (t : Nat) : Decidable (σ.Alive t) := by
  unfold Alive
  infer_instance

/-- The page of a supervisor access is brought in, no other task running meanwhile. -/
def touch (F : Nat → Exe) (σ : Sys) (t off : Nat) : Except Halt Sys :=
  if (σ.mm.pte (slot t off)).present then .ok σ
  else (σ.fault t off).bind fun σ =>
    match (σ.task t).bind Task.fault with
    | some _ => σ.faultRead F t
    | none => .ok σ

/-- `put_fs_byte` for the offsets and bytes of a list, in this order. -/
def putFsBytes (F : Nat → Exe) (σ : Sys) (t : Nat) : List (Nat × Nat) → Except Halt Sys
  | [] => .ok σ
  | b :: bs => (touch F σ t b.1).bind fun σ =>
    if σ.Alive t then (σ.putFs t b.1 b.2).bind fun σ => putFsBytes F σ t bs else .ok σ

end Sys

/-- The byte at offset `off` of task `t` is no other task's byte. -/
def Private (σ : Sys) (t off : Nat) : Prop :=
  ∀ u < 64, u ≠ t → ∀ off', Sees u off' → off' % 4096 = off % 4096 →
    (σ.mm.pte (slot u off')).present = true →
    (σ.mm.pte (slot u off')).frame ≠ (σ.mm.pte (slot t off)).frame

/-- A task `share_page` would try has a page at offset `off`. -/
def MappedByOther (σ : Sys) (t : Nat) (τ : Task) (off : Nat) : Prop :=
  ∃ ps, σ.others t τ (off / 4096 * 4096) = some ps ∧
    ∃ p ∈ ps, (σ.mm.pte (slot p off)).present = true

/-- `size += start & 0xfff` overflows, and `verify_area` looks at no page. -/
def Overflows (addr size : Nat) : Prop := 2 ^ 31 ≤ size + addr % 4096

/-- The condition on the state at the call: no page of the buffer that is absent could be shared
    (when the walk of `verify_area` leaves the segment, it may make pages of other tasks clean,
    so no candidate may have the page at all), and when nothing is verified, no page of the
    buffer is shared now. -/
def NoLeak (σ : Sys) (t : Nat) (τ : Task) (addr size : Nat) : Prop :=
  ∀ off, addr ≤ off → off < addr + size → off < τ.limit →
    ((σ.mm.pte (slot t off)).present = true → Overflows addr size → Private σ t off) ∧
    ((σ.mm.pte (slot t off)).present = false → ¬ Shareable σ t τ off ∧
      (¬ Overflows addr size → 0x4000000 < addr + size → ¬ MappedByOther σ t τ off))

/-! ## The condition is enough -/

variable {F : Nat → Exe} {lo hi : Nat} {σ σ' : Sys} {t : Nat} {τ : Task} {addr size : Nat}

/-- A page mapped writable is private. -/
theorem private_of_rw (h : SysInv F lo hi σ) (ht : 1 ≤ t) (ht' : t < 64) {off : Nat}
    (hoff : off < 0x4000000) (hp : (σ.mm.pte (slot t off)).present = true)
    (hrw : (σ.mm.pte (slot t off)).rw = true) : Private σ t off := by
  intro u hu hut off' hs _ hp' he
  have hx := slot_mem ht ht' hoff
  have hr := (h.mem.pte_range hx hp).resolve_right (fun hr => by rw [hrw] at hr; cases hr.2)
  have hb := h.mem.bounds
  by_cases hu0 : u = 0
  · subst hu0
    have e := (h.mem.pte_zero hs).2
    have h0 := hs.zero
    omega
  · have hy := slot_mem (by omega) hu hs.lt
    have hxy := h.mem.refs.cow _ hx _ hy hp hrw (by rw [viewOf_pte]; omega) hp' he
    have e := congrArg (fun z : Nat × Nat => z.1 / 16) hxy
    rw [slot_task hs.lt, slot_task hoff] at e
    exact hut e

/-- Privacy depends on which frames the other tasks map and on the frame of the page itself. -/
theorem Private.of_eq {off : Nat} (h : MemInv lo hi σ.mm σ.own) (h' : MemInv lo hi σ'.mm σ'.own)
    (hp : Private σ t off)
    (hoth : ∀ u < 64, 1 ≤ u → u ≠ t → ∀ off' < 0x4000000,
      (σ'.mm.pte (slot u off')).present = (σ.mm.pte (slot u off')).present ∧
      (σ'.mm.pte (slot u off')).frame = (σ.mm.pte (slot u off')).frame)
    (hself : (σ'.mm.pte (slot t off)).frame = (σ.mm.pte (slot t off)).frame) :
    Private σ' t off := by
  intro u hu hut off' hs hmod hpu
  rw [hself]
  by_cases hu0 : u = 0
  · subst hu0
    rw [(h'.pte_zero hs).2, ← (h.pte_zero hs).2]
    exact hp 0 hu hut off' hs hmod (h.pte_zero hs).1
  · obtain ⟨e1, e2⟩ := hoth u hu (by omega) hut off' hs.lt
    rw [e1] at hpu
    rw [e2]
    exact hp u hu hut off' hs hmod hpu

/-- `share_page` looks only at the entries of other tasks. -/
theorem Shareable.of_eq {off : Nat} (h : MemInv lo hi σ.mm σ.own) (h' : MemInv lo hi σ'.mm σ'.own)
    (hothers : σ'.others t τ = σ.others t τ)
    (hoth : ∀ u < 64, 1 ≤ u → u ≠ t → Fixed σ.mm σ'.mm (slot u off))
    (hs : Shareable σ' t τ off) : Shareable σ t τ off := by
  obtain ⟨ps, hps, p, hp, hcl⟩ := hs
  rw [hothers] at hps
  obtain ⟨hp1, hp2, hp3⟩ := (others_spec hps).1 p hp
  have hf := hoth p hp2 hp1 hp3
  refine ⟨ps, hps, p, hp, hf.present ▸ hcl.1, hf.dirty ▸ hcl.2.1, ?_, ?_⟩
  · have := hcl.2.2.1
    unfold Entry.addr at this ⊢
    rwa [hf.frame] at this
  · have := hcl.2.2.2
    unfold Entry.addr at this ⊢
    rwa [hf.frame, h'.high, ← h.high] at this

/-- The invariant of the copy loop: every page of the buffer is there and private, or absent and
    not to be shared. -/
structure Safe (F : Nat → Exe) (lo hi : Nat) (σ : Sys) (t : Nat) (τ : Task) (addr size : Nat) :
    Prop where
  inv : SysInv F lo hi σ
  run : σ.Running t τ
  page : ∀ off, addr ≤ off → off < addr + size → off < τ.limit →
    ((σ.mm.pte (slot t off)).present = true ∧ Private σ t off) ∨
      ((σ.mm.pte (slot t off)).present = false ∧ ¬ Shareable σ t τ off)

/-- A private page was brought in at offset `off`, and nothing else happened. -/
theorem Safe.grow (h : Safe F lo hi σ t τ addr size) (off : Nat) (hinv : SysInv F lo hi σ')
    (htask : σ'.task = σ.task) (hcount : σ'.iCount = σ.iCount) (hm : Moves lo t σ.mm σ'.mm)
    (hpte : ∀ z ∈ userSlots, z ≠ slot t off → σ'.mm.pte z = σ.mm.pte z)
    (hp : (σ'.mm.pte (slot t off)).present = true) (hrw : (σ'.mm.pte (slot t off)).rw = true) :
    Safe F lo hi σ' t τ addr size := by
  have ht := h.run.1
  have ho := h.inv.task t τ h.run.2.1
  have hlim := ho.limit
  refine ⟨hinv, ⟨ht, htask ▸ h.run.2.1, h.run.2.2⟩, fun off1 h1 h2 h3 => ?_⟩
  have hlt1 : off1 < 0x4000000 := by omega
  by_cases he : slot t off1 = slot t off
  · left
    rw [← he] at hp hrw
    exact ⟨hp, private_of_rw hinv ht ho.lt hlt1 hp hrw⟩
  · have hs1 := hpte _ (slot_mem ht ho.lt hlt1) he
    have hfix : ∀ u < 64, 1 ≤ u → u ≠ t → ∀ o < 0x4000000, Fixed σ.mm σ'.mm (slot u o) :=
      fun u hu hu1 hut o hlo => hm.rest _ (slot_mem hu1 hu hlo) (by rw [slot_task hlo]; exact hut)
    rw [hs1]
    rcases h.page off1 h1 h2 h3 with ⟨hpr, hpv⟩ | ⟨hab, hns⟩
    · refine Or.inl ⟨hpr, hpv.of_eq h.inv.mem hinv.mem (fun u hu hu1 hut o hlo => ?_) (by rw [hs1])⟩
      exact ⟨(hfix u hu hu1 hut o hlo).present, (hfix u hu hu1 hut o hlo).frame⟩
    · refine Or.inr ⟨hab, fun hsh => hns ?_⟩
      refine hsh.of_eq h.inv.mem hinv.mem ?_ (fun u hu hu1 hut => hfix u hu hu1 hut off1 hlt1)
      unfold Sys.others
      rw [htask, hcount]

/-- A supervisor store to a private byte is seen by no other task, and the loop goes on. -/
theorem Safe.putFs (h : Safe F lo hi σ t τ addr size) {off v : Nat} (h1 : addr ≤ off)
    (h2 : off < addr + size) (hp : (σ.mm.pte (slot t off)).present = true)
    (he : σ.putFs t off v = .ok σ') :
    Safe F lo hi σ' t τ addr size ∧
      ∀ u < 64, u ≠ t → ∀ off', Sees u off' → σ'.load u off' = σ.load u off' := by
  obtain ⟨hinv, τ', s', hτ', ht, hlim, _, _, hpk, rfl⟩ := putFs_cases h.inv he
  cases h.run.2.1.symm.trans hτ'
  have ho := h.inv.task t τ hτ'
  have hlt : off < 0x4000000 := lt_of_lt_of_le hlim ho.limit
  have hx := slot_mem ht ho.lt hlt
  have hpv : Private σ t off := by
    rcases h.page off h1 h2 hlim with hh | hh
    · exact hh.2
    · rw [hp] at hh; cases hh.1
  have hoth : ∀ u < 64, 1 ≤ u → u ≠ t → ∀ o < 0x4000000,
      s'.pte (slot u o) = σ.mm.pte (slot u o) := by
    intro u hu hu1 hut o hlo
    refine hpk.pte _ (slot_mem hu1 hu hlo) (fun heq => hut ?_)
    have e := congrArg (fun z : Nat × Nat => z.1 / 16) heq
    rwa [slot_task hlo, slot_task hlt] at e
  have hpte : ∀ z ∈ userSlots, (s'.pte z).present = (σ.mm.pte z).present ∧
      (s'.pte z).frame = (σ.mm.pte z).frame := by
    intro z hz
    by_cases hzx : z = slot t off
    · rw [hzx, hpk.slot]; exact ⟨rfl, rfl⟩
    · rw [hpk.pte z hz hzx]; exact ⟨rfl, rfl⟩
  refine ⟨⟨hinv, h.run, fun off1 g1 g2 g3 => ?_⟩, ?_⟩
  · have hlt1 : off1 < 0x4000000 := lt_of_lt_of_le g3 ho.limit
    have hs1 := hpte _ (slot_mem ht ho.lt hlt1)
    rcases h.page off1 g1 g2 g3 with ⟨hpr, hpv1⟩ | ⟨hab, hns⟩
    · refine Or.inl ⟨hs1.1.trans hpr, hpv1.of_eq h.inv.mem hinv.mem ?_ hs1.2⟩
      exact fun u hu hu1 _ o hlo => hpte _ (slot_mem hu1 hu hlo)
    · refine Or.inr ⟨hs1.1.trans hab, fun hsh => hns ?_⟩
      obtain ⟨ps, hps, p, hpm, hcl⟩ := hsh
      obtain ⟨hp1, hp2, hp3⟩ := (others_spec hps).1 p hpm
      refine ⟨ps, hps, p, hpm, ?_⟩
      unfold Clean at hcl ⊢
      rw [show (σ.setMm s').mm.pte (slot p off1) = σ.mm.pte (slot p off1) from
        hoth p hp2 hp1 hp3 off1 hlt1, show (σ.setMm s').mm.highMemory = σ.mm.highMemory from
        hpk.high] at hcl
      exact hcl
  · intro u hu hut off' hs
    -- either another frame, or another byte of the same frame
    have hpu : s'.pte (slot u off') = σ.mm.pte (slot u off') ∨ u = 0 := by
      by_cases hu0 : u = 0
      · exact Or.inr hu0
      · exact Or.inl (hoth u hu (by omega) hut off' hs.lt)
    have hpf : (s'.pte (slot u off')).present = (σ.mm.pte (slot u off')).present ∧
        (s'.pte (slot u off')).frame = (σ.mm.pte (slot u off')).frame := by
      rcases hpu with he | rfl
      · rw [he]; exact ⟨rfl, rfl⟩
      · have e := h.inv.mem.pte_zero hs
        have e' := hpk.inv.pte_zero hs
        rw [e.1, e.2, e'.1, e'.2]; exact ⟨rfl, rfl⟩
    unfold Sys.load
    dsimp only [Sys.setMm]
    rw [hpf.1, hpf.2]
    split_ifs with hpr
    · by_cases hfr : (σ.mm.pte (slot u off')).frame = (σ.mm.pte (slot t off)).frame
      · have hj : off' % 4096 ≠ off % 4096 := fun hj => hpv u hu hut off' hs hj hpr hfr
        rw [hfr, hpk.byte, Function.update_of_ne hj]
      · rw [hpk.other _ hfr]
    · rfl

/-- Loads of the other tasks are unchanged. -/
def SameLoads (t : Nat) (σ σ' : Sys) : Prop :=
  ∀ u < 64, u ≠ t → ∀ off, Sees u off → σ'.load u off = σ.load u off

theorem SameLoads.trans {σ1 σ2 σ3 : Sys} (h : SameLoads t σ1 σ2) (h' : SameLoads t σ2 σ3) :
    SameLoads t σ1 σ3 :=
  fun u hu hut off hs => (h' u hu hut off hs).trans (h u hu hut off hs)

theorem Exited.not_alive (h : Exited F lo hi σ t σ') : ¬ σ'.Alive t := by
  rintro ⟨τ, hτ, hph⟩
  obtain ⟨τ', hτ', _, hz, _⟩ := h.dead
  cases hτ.symm.trans hτ'
  rw [hph] at hz
  cases hz

/-- The fault of a supervisor access to a safe buffer brings in a private page. -/
theorem Safe.touch (h : Safe F lo hi σ t τ addr size) {off : Nat} (h1 : addr ≤ off)
    (h2 : off < addr + size) (he : σ.touch F t off = .ok σ') :
    SameLoads t σ σ' ∧ (¬ σ'.Alive t ∨
      Safe F lo hi σ' t τ addr size ∧ (σ'.mm.pte (slot t off)).present = true) := by
  unfold Sys.touch at he
  split_ifs at he with hp
  · cases he
    exact ⟨fun _ _ _ _ _ => rfl, Or.inr ⟨h, hp⟩⟩
  cases hfe : σ.fault t off with
  | error e => rw [bind_of_error hfe] at he; cases he
  | ok σ1 =>
    rw [bind_of_ok hfe] at he
    obtain ⟨hinv1, τ', hτ', ht, hph, hnf, hlim, habs, hf⟩ := fault_cases h.inv hfe
    cases h.run.2.1.symm.trans hτ'
    have ho := h.inv.task t τ hτ'
    have hlt : off < 0x4000000 := lt_of_lt_of_le hlim ho.limit
    have hltp : off / 4096 * 4096 < 0x4000000 := by omega
    have hns : ¬ Shareable σ t τ off := by
      rcases h.page off h1 h2 hlim with hh | hh
      · exact absurd hh.1 hp
      · exact hh.2
    have hload : ∀ {σ2 : Sys}, SysInv F lo hi σ2 → Moves lo t σ.mm σ2.mm → SameLoads t σ σ2 :=
      fun hi2 hm u hu hut o hs => hm.load_eq h.inv.mem hi2.mem hu hut hs
    cases hf with
    | @served s1 hn =>
      have hb : ((σ.setMm s1).task t).bind Task.fault = none := by
        rw [show (σ.setMm s1).task t = some τ from hτ']
        exact hnf
      rw [hb] at he
      cases he
      refine ⟨hload hinv1 (hn.moves hltp), Or.inr ?_⟩
      generalize hos : σ.others t τ (off / 4096 * 4096) = os at hn
      cases hn with
      | @empty f s2 _ hfr hput =>
        rw [show slotAt (base t + off / 4096 * 4096) = slot t off from slot_page] at hput
        have hat : (σ.setMm s1).mm.pte (slot t off) = Entry.seven f := hput.slot
        refine ⟨h.grow off hinv1 rfl rfl ((hfr.moves t).trans ?_) ?_ ?_ ?_, ?_⟩
        · have := hput.moves
          rwa [slot_task hlt] at this
        · intro z hz hne
          exact (hput.pte z hz hne).trans (hfr.pte z hz)
        · rw [hat]; rfl
        · rw [hat]; rfl
        · rw [hat]; rfl
      | @shared ps p _ hpm htk =>
        have hcl := htk.clean
        rw [show slotAt (base p + off / 4096 * 4096) = slot p off from slot_page] at hcl
        exact absurd ⟨ps, hos, p, hpm, hcl⟩ hns
    | @reading s1 f hn =>
      set τ1 : Task := { τ with fault := some (f, off / 4096 * 4096) } with hτ1
      set σ1 : Sys := { σ with
        mm := s1, own := insert f σ.own, task := Function.update σ.task t (some τ1) } with hσ1
      have ht1 : σ1.task t = some τ1 := Function.update_self t _ σ.task
      have hb : (σ1.task t).bind Task.fault = some (f, off / 4096 * 4096) := by rw [ht1]; rfl
      rw [hb] at he
      obtain ⟨hinv2, τ2, f2, tmp2, x, hτ2, hf2, hx2, hread⟩ := faultRead_cases hinv1 he
      cases ht1.symm.trans hτ2
      cases hf2
      have hfr : Fresh lo hi σ.mm σ.own f s1 := by
        generalize σ.others t τ (off / 4096 * 4096) = os at hn
        cases hn with
        | read _ hf => exact hf
      have hown : f ∈ σ1.own := Finset.mem_insert_self f σ.own
      have hm1 : Moves lo t σ.mm s1 := hn.moves hltp
      cases hread with
      | @mapped s2 hput =>
        rw [show slot t (off / 4096 * 4096) = slot t off from slot_page] at hput
        have hm2 := hinv1.mem.fill_moves hown ((F x).page τ1.endData (off / 4096 * 4096)) t
        have hm3 := hput.moves
        rw [slot_task hlt] at hm3
        have hm := (hm1.trans hm2).trans hm3
        refine ⟨hload hinv2 hm, Or.inr ⟨h.grow off hinv2 ?_ rfl hm ?_ ?_ ?_, ?_⟩⟩
        · -- the fault is noted and cleared again
          rw [hσ1]
          dsimp only
          rw [Function.update_idem]
          have hsame : ({ τ1 with fault := none } : Task) = τ := by
            rw [hτ1, ← hnf]
          rw [hsame, ← hτ', Function.update_eq_self]
        · intro z hz hne
          exact ((hput.pte z hz hne).trans ((hinv1.mem.fill hown _).2.2 z hz)).trans
            (hfr.pte z hz)
        · rw [hput.slot]; rfl
        · rw [hput.slot]; rfl
        · rw [hput.slot]; rfl
      | oom hex => exact ⟨hload hinv2 (hm1.trans hex.moves), Or.inl hex.not_alive⟩
    | oom hex =>
      obtain ⟨τd, hd, _, _, hfd⟩ := hex.dead
      rw [hd, show (some τd).bind Task.fault = none from hfd] at he
      cases he
      exact ⟨hload hinv1 hex.moves, Or.inl hex.not_alive⟩

/-- The whole copy loop. -/
theorem Safe.putFsBytes : ∀ (bs : List (Nat × Nat)) {σ σ' : Sys},
    Safe F lo hi σ t τ addr size → (∀ b ∈ bs, addr ≤ b.1 ∧ b.1 < addr + size) →
    σ.putFsBytes F t bs = .ok σ' → SameLoads t σ σ'
  | [], σ, σ', _, _, he => by cases he; exact fun _ _ _ _ _ => rfl
  | b :: bs, σ, σ', h, hbs, he => by
    obtain ⟨h1, h2⟩ := hbs b List.mem_cons_self
    rw [Sys.putFsBytes] at he
    cases hte : σ.touch F t b.1 with
    | error e => rw [bind_of_error hte] at he; cases he
    | ok σ1 =>
      rw [bind_of_ok hte] at he
      obtain ⟨hl1, hdead | ⟨hsafe, hp⟩⟩ := h.touch h1 h2 hte
      · rw [if_neg hdead] at he
        cases he
        exact hl1
      · split_ifs at he with hal
        · cases hpe : σ1.putFs t b.1 b.2 with
          | error e => rw [bind_of_error hpe] at he; cases he
          | ok σ2 =>
            rw [bind_of_ok hpe] at he
            obtain ⟨hsafe2, hl2⟩ := hsafe.putFs h1 h2 hp hpe
            exact hl1.trans (SameLoads.trans hl2
              (Safe.putFsBytes bs hsafe2 (fun b' hb' => hbs b' (List.mem_cons_of_mem _ hb')) he))
        · cases he
          exact hl1

/-- The pages of the walk of `verify_area` inside the segment. -/
theorem walk_slot {j : Nat} (ht : t < 64) (h : (addr / 4096 + j) * 4096 < 0x4000000) :
    walk (walkStart t addr) j = slot t ((addr / 4096 + j) * 4096) := by
  have he : ((addr / 4096 * 4096 + base t) % 2 ^ 32 + 4096 * j) % 2 ^ 32 =
      base t + (addr / 4096 + j) * 4096 := by
    unfold base
    omega
  unfold walk walkStart slot
  rw [he]

/-- What `verify_area` leaves is safe for the copy. -/
theorem Verified.safe {s' : Mem} (h : SysInv F lo hi σ) (hrun : σ.Running t τ)
    (hno : NoLeak σ t τ addr size) (hinv : SysInv F lo hi (σ.setMm s'))
    (hv : Verified lo hi σ.mm σ.own (walkStart t addr) (walkLength addr size) s') :
    Safe F lo hi (σ.setMm s') t τ addr size := by
  have ho := h.task t τ hrun.2.1
  have hlim := ho.limit
  refine ⟨hinv, hrun, fun off h1 h2 h3 => ?_⟩
  have hlt : off < 0x4000000 := by omega
  have hx := slot_mem hrun.1 ho.lt hlt
  obtain ⟨hn1, hn2⟩ := hno off h1 h2 h3
  have hpres : (s'.pte (slot t off)).present = (σ.mm.pte (slot t off)).present :=
    (hv.same _ hx).1
  by_cases hov : Overflows addr size
  · -- nothing was verified, and nothing has changed
    have hlen : walkLength addr size = 0 := if_pos hov
    have hall : ∀ z ∈ userSlots, s'.pte z = σ.mm.pte z ∧ Fixed σ.mm s' z := fun z hz =>
      hv.pte z hz (fun j hj => by rw [hlen] at hj; omega)
    cases hp : (σ.mm.pte (slot t off)).present with
    | true =>
      refine Or.inl ⟨hpres.trans hp, (hn1 hp hov).of_eq h.mem hinv.mem ?_ ?_⟩
      · intro u hu hu1 _ o hlo
        have := (hall _ (slot_mem hu1 hu hlo)).2
        exact ⟨this.present, this.frame⟩
      · exact (hall _ hx).2.frame
    | false =>
      refine Or.inr ⟨hpres.trans hp, fun hsh => (hn2 hp).1 ?_⟩
      exact hsh.of_eq h.mem hinv.mem rfl
        (fun u hu hu1 _ => (hall _ (slot_mem hu1 hu hlt)).2)
  · have hlen : walkLength addr size = (size + addr % 4096 + 4095) / 4096 := if_neg hov
    cases hp : (σ.mm.pte (slot t off)).present with
    | true =>
      -- a page of the walk: it is writable now
      left
      have hj : (addr / 4096 + (off / 4096 - addr / 4096)) * 4096 = off / 4096 * 4096 := by omega
      have hw : walk (walkStart t addr) (off / 4096 - addr / 4096) = slot t off := by
        rw [walk_slot ho.lt (by omega), hj, slot_page]
      have hrw := hv.writable (off / 4096 - addr / 4096) (by omega) (by rw [hw]; exact hx)
        (by rw [hw]; exact hpres.trans hp)
      rw [hw] at hrw
      exact ⟨hpres.trans hp, private_of_rw hinv hrun.1 ho.lt hlt (hpres.trans hp) hrw⟩
    | false =>
      refine Or.inr ⟨hpres.trans hp, fun hsh => ?_⟩
      by_cases hwide : 0x4000000 < addr + size
      · -- the walk may have changed flags of other tasks' pages, but made none present
        obtain ⟨ps, hps, p, hpm, hcl⟩ := hsh
        obtain ⟨hp1, hp2, _⟩ := (others_spec hps).1 p hpm
        refine (hn2 hp).2 hov hwide ⟨ps, hps, p, hpm, ?_⟩
        rw [← (hv.same _ (slot_mem hp1 hp2 hlt)).1]
        exact hcl.1
      · refine (hn2 hp).1 (hsh.of_eq h.mem hinv.mem rfl (fun u hu hu1 hut => ?_))
        refine (hv.pte _ (slot_mem hu1 hu hlt) (fun j hj heq => hut ?_)).2
        have hjlt : (addr / 4096 + j) * 4096 < 0x4000000 := by omega
        rw [walk_slot ho.lt hjlt] at heq
        have e := congrArg (fun z : Nat × Nat => z.1 / 16) heq
        rwa [slot_task hlt, slot_task hjlt] at e

theorem Running.alive (hrun : σ.Running t τ) : σ.Alive t := ⟨τ, hrun.2.1, hrun.2.2.1⟩

end Linux011.Mm
