/-
  Page sharing against demand loading. `share_page` takes a clean page of a task with the same
  executable instead of reading the file, so a clean page must hold what the file holds. The
  dirty bit is lost when `un_wp_page` copies a page: the new entry is `new_page | 7`. A user
  store sets it again, but `verify_area` copies without a store, and a write fault may be
  followed by another task before the store is restarted. `do_execve` changes the executable of
  a task while its old pages are still mapped.

  `Harmless` says of a step that it does none of this. In every run of harmless steps a clean
  page is the page of the file, and `share_page` agrees with the slow path.
-/
import Linux011.Mm.CopyOut

namespace Linux011.Mm

open Linux011.Lib Sys

/-! ## The condition and the invariant -/

/-- The frame mapped at slot `z` holds the page that `do_no_page` reads at offset `off`. -/
def HoldsPage (x : Exe) (endData off : Nat) (s : Mem) (z : Nat × Nat) : Prop :=
  ∀ j < 4096, (s.mem (s.pte z).frame).byte j = (x.page endData (off / 4096 * 4096)).byte j

/-- The step does not forget that a page was written to, does not share a page of a task in the
    middle of `do_execve`, and does not store through a read-only entry. -/
def Harmless (σ : Sys) : Event → Prop
  | .wp t off => ¬ Loses σ.mm (slot t off)
  | .verify t addr size => ∀ j < walkLength addr size, walk (walkStart t addr) j ∈ userSlots →
      ¬ Loses σ.mm (walk (walkStart t addr) j)
  | .fault t off => ∀ τ ps, σ.task t = some τ → σ.others t τ (off / 4096 * 4096) = some ps →
      ∀ p ∈ ps, ∀ τ', σ.task p = some τ' → τ'.phase = .execing → ¬ Clean σ.mm (slot p off)
  | .putFs t off _ => (σ.mm.pte (slot t off)).rw = true
  | _ => True

/-- The clean pages of a task below its `end_data` are those of its executable; while
    `do_execve` has not returned, they all are. -/
structure CleanPages (F : Nat → Exe) (s : Mem) (t : Nat) (τ : Task) (x : Nat) : Prop where
  limit : τ.limit = 0x4000000
  endData : τ.endData = (F x).text + (F x).data
  holds : ∀ off, off / 4096 * 4096 < τ.endData → (s.pte (slot t off)).present = true →
    (s.pte (slot t off)).dirty = false → HoldsPage (F x) τ.endData off s (slot t off)
  tail : τ.phase = .tail → ∀ off, off / 4096 * 4096 < τ.endData →
    (s.pte (slot t off)).present = true → (s.pte (slot t off)).dirty = false

/-- Task 0 has no executable, a task in the last part of `do_execve` has one. -/
structure TaskFile (F : Nat → Exe) (s : Mem) (t : Nat) (τ : Task) : Prop where
  tail : τ.phase = .tail → ∃ x, τ.executable = some x
  pages : ∀ x, τ.executable = some x → 1 ≤ t ∧ (τ.phase ≠ .execing → CleanPages F s t τ x)

/-- The invariant of runs of harmless steps. -/
def FileInv (F : Nat → Exe) (σ : Sys) : Prop :=
  ∀ t τ, σ.task t = some τ → TaskFile F σ.mm t τ

variable {F : Nat → Exe} {lo hi : Nat} {σ σ' : Sys}

/-! ## What leaves the clean pages of a task alone -/

/-- The page of slot `z` has the same bytes, and is dirty if it was. -/
def Kept (s s' : Mem) (z : Nat × Nat) : Prop :=
  Same s s' z ∧ (s'.pte z).dirty = (s.pte z).dirty

theorem Fixed.kept {s s' : Mem} {z : Nat × Nat} (h : Fixed s s' z) : Kept s s' z :=
  ⟨h.same, h.dirty⟩

/-- The offsets of pages below `end_data` lie in the segment. -/
theorem TaskOk.data_lt {s : Mem} {own : Finset Nat} {t : Nat} {τ : Task} (h : TaskOk F s own t τ)
    {off : Nat} (hoff : off / 4096 * 4096 < τ.endData) : off < 0x4000000 := by
  have := h.data
  omega

theorem CleanPages.of_kept {s s' : Mem} {own : Finset Nat} {t x : Nat} {τ : Task}
    (ho : TaskOk F s own t τ)
    (hk : ∀ off < 0x4000000, off / 4096 * 4096 < τ.endData → Kept s s' (slot t off))
    (h : CleanPages F s t τ x) : CleanPages F s' t τ x := by
  refine ⟨h.limit, h.endData, fun off hoff hp hd => ?_, fun hph off hoff hp => ?_⟩
  · obtain ⟨hs, hdd⟩ := hk off (ho.data_lt hoff) hoff
    rw [hs.1] at hp
    rw [hdd] at hd
    intro j hj
    rw [hs.2 hp]
    exact h.holds off hoff hp hd j hj
  · obtain ⟨hs, hdd⟩ := hk off (ho.data_lt hoff) hoff
    rw [hs.1] at hp
    rw [hdd]
    exact h.tail hph off hoff hp

theorem TaskFile.of_kept {s s' : Mem} {own : Finset Nat} {t : Nat} {τ : Task}
    (ho : TaskOk F s own t τ)
    (hk : 1 ≤ t → ∀ off < 0x4000000, off / 4096 * 4096 < τ.endData → Kept s s' (slot t off))
    (h : TaskFile F s t τ) : TaskFile F s' t τ :=
  ⟨h.tail, fun x hx => ⟨(h.pages x hx).1, fun hph =>
    ((h.pages x hx).2 hph).of_kept ho (hk (h.pages x hx).1)⟩⟩

/-- A step of task `t` that keeps the pages of the others. -/
theorem FileInv.update (h : FileInv F σ) (hinv : SysInv F lo hi σ) {t : Nat}
    (hk : ∀ z ∈ userSlots, z.1 / 16 ≠ t → Kept σ.mm σ'.mm z)
    (htask : ∀ u, u ≠ t → σ'.task u = σ.task u)
    (hnew : ∀ τ, σ'.task t = some τ → TaskFile F σ'.mm t τ) : FileInv F σ' := by
  intro u τ hu
  by_cases hut : u = t
  · subst hut
    exact hnew τ hu
  · rw [htask u hut] at hu
    have ho := hinv.task u τ hu
    refine (h u τ hu).of_kept ho fun hu1 off hlt _ => ?_
    exact hk _ (slot_mem hu1 ho.lt hlt) (by rw [slot_task hlt]; exact hut)

theorem FileInv.moves (h : FileInv F σ) (hinv : SysInv F lo hi σ) {t : Nat}
    (hm : Moves lo t σ.mm σ'.mm) (htask : ∀ u, u ≠ t → σ'.task u = σ.task u)
    (hnew : ∀ τ, σ'.task t = some τ → TaskFile F σ'.mm t τ) : FileInv F σ' :=
  h.update hinv (fun z hz ht => (hm.rest z hz ht).kept) htask hnew

/-- A step that keeps every page, and every task. -/
theorem FileInv.keep (h : FileInv F σ) (hinv : SysInv F lo hi σ)
    (hk : ∀ z ∈ userSlots, Kept σ.mm σ'.mm z) (htask : σ'.task = σ.task) : FileInv F σ' := by
  intro u τ hu
  rw [htask] at hu
  have ho := hinv.task u τ hu
  exact (h u τ hu).of_kept ho fun hu1 off hlt _ => hk _ (slot_mem hu1 ho.lt hlt)

theorem FileInv.exited (h : FileInv F σ) (hinv : SysInv F lo hi σ) {t : Nat}
    (hx : Exited F lo hi σ t σ') : FileInv F σ' := by
  refine h.moves hinv hx.moves hx.task fun τ hτ => ?_
  obtain ⟨τ', hτ', hnone, hz, _⟩ := hx.dead
  cases hτ.symm.trans hτ'
  refine ⟨fun htl => ?_, fun x hexe => ?_⟩
  · rw [hz] at htl; cases htl
  · rw [hnone] at hexe; cases hexe

/-! ## Each kind of step -/

theorem fork_free {p c : Nat} (he : σ.fork p c = .ok σ') : σ.task c = none := by
  unfold Sys.fork at he
  cases hp : σ.task p with
  | none => rw [hp] at he; cases he
  | some τ =>
    rw [hp] at he
    dsimp only at he
    by_cases hpre : p < 64 ∧ 1 ≤ c ∧ c < 64 ∧ σ.task c = none ∧ τ.phase = .user ∧ τ.fault = none
    · exact hpre.2.2.2.1
    · rw [if_pos hpre] at he; cases he

/-- The child has the clean pages of the parent. -/
theorem FileInv.fork (h : FileInv F σ) (hinv : SysInv F lo hi σ) {p c : Nat}
    (he : σ.fork p c = .ok σ') : FileInv F σ' := by
  have hfree := fork_free he
  rcases (fork_cases hinv he).2 with ⟨hm, ht, _⟩ | ⟨τ, hf⟩
  · refine h.moves hinv hm (fun u _ => by rw [ht]) fun τ hτ => ?_
    rw [ht, hfree] at hτ
    cases hτ
  · refine h.moves hinv hf.moves (fun u hu => by rw [hf.task, Function.update_of_ne hu]) ?_
    intro τ' hτ'
    rw [hf.task, Function.update_self] at hτ'
    cases hτ'
    have ho := hinv.task p τ hf.parent
    refine ⟨fun htl => (h p τ hf.parent).tail htl, fun x hx => ⟨hf.range.2.1, fun hph => ?_⟩⟩
    obtain ⟨hp1, hc⟩ := (h p τ hf.parent).pages x hx
    obtain ⟨hlim, hend, hholds, _⟩ := hc hph
    refine ⟨hlim, hend, fun off hoff hp hd => ?_, fun htl => ?_⟩
    · have hlt := ho.data_lt hoff
      have ht := hf.twin off (by omega)
      have hfix := hf.moves.rest _ (slot_mem hp1 ho.lt hlt)
        (by rw [slot_task hlt]; exact hf.range.2.2.2)
      rw [ht.1] at hp
      have hfr := congrArg Entry.frame (ht.2 hp)
      have hdd := congrArg Entry.dirty (ht.2 hp)
      simp only [Entry.clearRw_frame, Entry.clearRw_dirty] at hfr hdd
      intro j hj
      rw [hfr, hfix.2 hp]
      exact hholds off hoff hp (hdd ▸ hd) j hj
    · rw [hf.user.1] at htl; cases htl

theorem FileInv.execFinish (h : FileInv F σ) (hinv : SysInv F lo hi σ) {t : Nat}
    {args : List (Option Nat)} (he : σ.execFinish F t args = .ok σ') : FileInv F σ' := by
  obtain ⟨hinv', τ, x, hx⟩ := execFinish_cases hinv he
  refine h.moves hinv hx.moves (fun u hu => by rw [hx.task, Function.update_of_ne hu]) ?_
  intro τ' hτ'
  have ho := hinv'.task t τ' hτ'
  rw [hx.task, Function.update_self] at hτ'
  cases hτ'
  have habs : ∀ off, off / 4096 * 4096 < (F x).text + (F x).data →
      (σ'.mm.pte (slot t off)).present = false := by
    intro off hoff
    have := ho.data
    dsimp only at this
    exact hx.absent off (by omega)
  refine ⟨fun _ => ⟨x, rfl⟩, fun x' hx' => ⟨ho.tail rfl, fun _ => ?_⟩⟩
  cases hx'
  refine ⟨rfl, rfl, fun off hoff hp => ?_, fun _ off hoff hp => ?_⟩
  · rw [habs off hoff] at hp; cases hp
  · rw [habs off hoff] at hp; cases hp

/-- The zeros that `do_execve` stores at the end are there already: the page is not dirty. -/
theorem execTail_bytes (h : FileInv F σ) (hinv : SysInv F lo hi σ) {t : Nat} {τ : Task}
    (ht : σ.task t = some τ) (hph : τ.phase = .tail) (hal : τ.endData % 4096 ≠ 0)
    (hp : (σ.mm.pte (slot t τ.endData)).present = true) (f : Nat) :
    ((pokeZeros σ.mm (slot t τ.endData) (4096 - τ.endData % 4096)).mem f).byte =
      (σ.mm.mem f).byte := by
  have ho := hinv.task t τ ht
  have hdata := ho.data
  have hx := slot_mem (ho.tail hph) ho.lt (show τ.endData < 0x4000000 by omega)
  obtain ⟨_, _, _, _, b, o⟩ :=
    pokeZeros_spec hx (4096 - τ.endData % 4096) (by omega) hinv.mem hp
  obtain ⟨x, hexe⟩ := (h t τ ht).tail hph
  have hc := ((h t τ ht).pages x hexe).2 (by rw [hph]; decide)
  have hlast : τ.endData / 4096 * 4096 < τ.endData := by omega
  have hpage := hc.holds _ hlast hp (hc.tail hph _ hlast hp)
  by_cases hf : f = (σ.mm.pte (slot t τ.endData)).frame
  · subst hf
    funext j
    rw [b j]
    split_ifs with hj
    · have hz : ¬ τ.endData / 4096 * 4096 + j < τ.endData := by omega
      rw [hpage j hj.2]
      dsimp only [Exe.page]
      rw [if_neg hz]
    · rfl
  · exact o f hf

theorem FileInv.execTail (h : FileInv F σ) (hinv : SysInv F lo hi σ) {t : Nat}
    (he : σ.execTail t = .ok σ') : FileInv F σ' := by
  obtain ⟨_, τ, ht, hph, htask, hmm⟩ := execTail_cases hinv he
  have ho := hinv.task t τ ht
  have hdata := ho.data
  -- every page keeps its bytes; the last page of data may be dirty now
  have hkeep : ∀ z ∈ userSlots, Same σ.mm σ'.mm z ∧
      (z.1 / 16 ≠ t ∨ (σ'.mm.pte z).dirty = false → Kept σ.mm σ'.mm z) := by
    rcases hmm with ⟨_, hmm⟩ | ⟨hp, hal, hmm⟩
    · rw [hmm]
      exact fun z _ => ⟨Fixed.refl.same, fun _ => Fixed.refl.kept⟩
    · have hlt : τ.endData < 0x4000000 := by omega
      have hx := slot_mem (ho.tail hph) ho.lt hlt
      obtain ⟨_, _, px, pz, _, _⟩ :=
        pokeZeros_spec hx (4096 - τ.endData % 4096) (by omega) hinv.mem hp
      have hb := execTail_bytes h hinv ht hph hal hp
      rw [if_neg (by omega)] at px
      rw [← hmm] at px pz hb
      intro z hz
      by_cases hzx : z = slot t τ.endData
      · subst hzx
        refine ⟨⟨by rw [px], fun _ => by rw [px]; exact hb _⟩, ?_⟩
        rintro (hne | hd)
        · exact absurd (slot_task hlt) hne
        · rw [px] at hd; cases hd
      · have hsame : Same σ.mm σ'.mm z := ⟨by rw [pz z hz hzx], fun _ => by
          rw [pz z hz hzx]; exact hb _⟩
        exact ⟨hsame, fun _ => ⟨hsame, by rw [pz z hz hzx]⟩⟩
  refine h.update hinv (t := t) (fun z hz hne => (hkeep z hz).2 (Or.inl hne))
    (fun u hu => by rw [htask, Function.update_of_ne hu]) fun τ' hτ' => ?_
  rw [htask, Function.update_self] at hτ'
  cases hτ'
  refine ⟨(fun hz => nomatch hz), fun x hx => ?_⟩
  obtain ⟨h1, hc⟩ := (h t τ ht).pages x hx
  obtain ⟨hlim, hend, hholds, _⟩ := hc (by rw [hph]; decide)
  refine ⟨h1, fun _ => ⟨hlim, hend, fun off hoff hp hd => ?_, (fun hz => nomatch hz)⟩⟩
  have hz := slot_mem h1 ho.lt (ho.data_lt hoff)
  have hs := (hkeep _ hz).1
  have hdd := ((hkeep _ hz).2 (Or.inr hd)).2
  rw [hs.1] at hp
  rw [hdd] at hd
  intro j hj
  rw [hs.2 hp]
  exact hholds off hoff hp hd j hj

/-- One page of task `t` has changed. It is dirty now, or it holds what the file holds; this
    matters only below `end_data`. -/
theorem FileInv.change (h : FileInv F σ) (hinv : SysInv F lo hi σ) {t off : Nat} {τ τ' : Task}
    (ht : σ.task t = some τ) (ht' : σ'.task t = some τ')
    (hτ : τ' = { τ with fault := τ'.fault }) (hothers : ∀ u, u ≠ t → σ'.task u = σ.task u)
    (hlt : off < 0x4000000) (hk : ∀ z ∈ userSlots, z ≠ slot t off → Kept σ.mm σ'.mm z)
    (hnew : ∀ x, τ.executable = some x → τ.phase ≠ .execing → off / 4096 * 4096 < τ.endData →
      (σ'.mm.pte (slot t off)).dirty = true ∧ τ.phase ≠ .tail ∨
        (σ'.mm.pte (slot t off)).dirty = false ∧
          HoldsPage (F x) τ.endData off σ'.mm (slot t off)) : FileInv F σ' := by
  have ho := hinv.task t τ ht
  refine h.update (t := t) hinv (fun z hz hne => hk z hz ?_) hothers fun τ1 hτ1 => ?_
  · rintro rfl
    exact hne (slot_task hlt)
  · cases ht'.symm.trans hτ1
    rw [hτ]
    refine ⟨(h t τ ht).tail, fun x hx => ?_⟩
    obtain ⟨h1, hc⟩ := (h t τ ht).pages x hx
    refine ⟨h1, fun hex => ?_⟩
    obtain ⟨hlim, hend, hholds, htail⟩ := hc hex
    -- a slot below `end_data` is the changed one or kept
    have hcase : ∀ off', off' / 4096 * 4096 < τ.endData → (slot t off' = slot t off ∧
        off' / 4096 = off / 4096) ∨ Kept σ.mm σ'.mm (slot t off') := by
      intro off' hoff
      by_cases he : slot t off' = slot t off
      · exact Or.inl ⟨he, slot_inj (ho.data_lt hoff) hlt he⟩
      · exact Or.inr (hk _ (slot_mem h1 ho.lt (ho.data_lt hoff)) he)
    refine ⟨hlim, hend, fun off' hoff hp hd => ?_, fun htl off' hoff hp => ?_⟩
    · dsimp only at hoff ⊢
      rcases hcase off' hoff with ⟨he, hpg⟩ | ⟨hs, hdd⟩
      · rw [he] at hd
        rcases hnew x hx hex (hpg ▸ hoff) with ⟨hd', _⟩ | ⟨_, hpage⟩
        · rw [hd'] at hd; cases hd
        · unfold HoldsPage
          rw [he, hpg]
          exact hpage
      · rw [hs.1] at hp
        rw [hdd] at hd
        intro j hj
        rw [hs.2 hp]
        exact hholds off' hoff hp hd j hj
    · dsimp only at hoff htl
      rcases hcase off' hoff with ⟨he, hpg⟩ | ⟨hs, hdd⟩
      · rcases hnew x hx hex (hpg ▸ hoff) with ⟨_, hne⟩ | ⟨hd, _⟩
        · exact absurd htl hne
        · rw [he]; exact hd
      · rw [hs.1] at hp
        exact hdd.trans (htail htl off' hoff hp)

theorem FileInv.store (h : FileInv F σ) (hinv : SysInv F lo hi σ) {t off v : Nat}
    (he : σ.store t off v = .ok σ') : FileInv F σ' := by
  obtain ⟨_, τ, hrun, hlim, hp, hs⟩ := store_cases hinv he
  have ho := hinv.task t τ hrun.2.1
  have hlt : off < 0x4000000 := lt_of_lt_of_le hlim ho.limit
  have hx := slot_mem hrun.1 ho.lt hlt
  have hph : τ.phase ≠ .tail := by rw [hrun.2.2.1]; decide
  cases hs with
  | @direct s' hrw hpk =>
    have hd : (s'.pte (slot t off)).dirty = true := by rw [hpk.slot]
    exact h.change hinv hrun.2.1 hrun.2.1 rfl (fun _ _ => rfl) hlt
      (fun z hz hne => (hpk.rest hinv.mem hx hp hrw hz hne).kept) fun _ _ _ _ => Or.inl ⟨hd, hph⟩
  | @copied s1 s' _ hu hpk =>
    -- the copy forgets the dirty bit, the store sets it
    have hd : (s'.pte (slot t off)).dirty = true := by rw [hpk.slot]
    refine h.change hinv hrun.2.1 hrun.2.1 rfl (fun _ _ => rfl) hlt (fun z hz hne => ?_)
      fun _ _ _ _ => Or.inl ⟨hd, hph⟩
    exact ((hu.rest z hz hne).trans (hpk.rest hu.inv hx hu.present hu.rw hz hne)).kept
  | oom hex => exact h.exited hinv hex

theorem FileInv.putFs (h : FileInv F σ) (hinv : SysInv F lo hi σ) {t off v : Nat}
    (hsafe : (σ.mm.pte (slot t off)).rw = true) (he : σ.putFs t off v = .ok σ') :
    FileInv F σ' := by
  obtain ⟨_, τ, s', ht, h1, hlim, hph, hp, hpk, rfl⟩ := putFs_cases hinv he
  have ho := hinv.task t τ ht
  have hlt : off < 0x4000000 := lt_of_lt_of_le hlim ho.limit
  have hd : (s'.pte (slot t off)).dirty = true := by rw [hpk.slot]
  refine h.change hinv ht ht rfl (fun _ _ => rfl) hlt (fun z hz hne =>
    (hpk.rest hinv.mem (slot_mem h1 ho.lt hlt) hp hsafe hz hne).kept)
    fun x _ _ hoff => Or.inl ⟨hd, fun htl => ?_⟩
  have hdata := ho.data
  rcases hph with hu | ⟨_, hge⟩
  · rw [hu] at htl; cases htl
  · omega

theorem FileInv.wp (h : FileInv F σ) (hinv : SysInv F lo hi σ) {t off : Nat}
    (hsafe : ¬ Loses σ.mm (slot t off)) (he : σ.wp t off = .ok σ') : FileInv F σ' := by
  obtain ⟨_, τ, hrun, hlim, hp, hrw, hs⟩ := wp_cases hinv he
  cases hs with
  | done hu =>
    exact h.keep hinv (fun z hz => ⟨hu.same hp hz, hu.dirty_eq hp hrw hsafe hz⟩) rfl
  | oom hex => exact h.exited hinv hex

theorem FileInv.verify (h : FileInv F σ) (hinv : SysInv F lo hi σ) {t addr size : Nat}
    (hsafe : Harmless σ (.verify t addr size)) (he : σ.verify t addr size = .ok σ') :
    FileInv F σ' := by
  have hinv' := (verify_cases hinv he).1
  obtain ⟨τ, hrun, _, _, hs⟩ := (verify_cases hinv he).2
  cases hs with
  | done hv => exact h.keep hinv (fun z hz => ⟨hv.same z hz, hv.dirty hsafe z hz⟩) rfl
  | @oom s' _ hv hex =>
    have hset : SysInv F lo hi (σ.setMm s') :=
      hinv.setRunning hrun hv.inv ⟨fun d _ _ => by rw [hv.dir], fun z hz _ => (hv.same z hz).1⟩
        hv.dir
    have hk : FileInv F (σ.setMm s') :=
      h.keep hinv (fun z hz => ⟨hv.same z hz, hv.dirty hsafe z hz⟩) rfl
    exact hk.exited hset hex

/-- The page that `share_page` takes from task `p` is the page of the file. -/
theorem FileInv.shared (h : FileInv F σ) {t p off x : Nat}
    {τ τ' : Task} {s' : Mem} (hx : τ.executable = some x) (hex : τ.phase ≠ .execing)
    (ht : σ.task t = some τ) (hp : σ.task p = some τ') (hx' : τ'.executable = some x)
    (hex' : τ'.phase ≠ .execing) (hoff : off / 4096 * 4096 < τ.endData)
    (htk : Took lo hi σ.mm σ.own (slot p off) (slot t off) s') :
    HoldsPage (F x) τ.endData off s' (slot t off) := by
  have hc := ((h t τ ht).pages x hx).2 hex
  have hc' := ((h p τ' hp).pages x hx').2 hex'
  have he : τ'.endData = τ.endData := by rw [hc'.endData, hc.endData]
  have hold := hc'.holds off (by rw [he]; exact hoff) htk.clean.1 htk.clean.2.1
  rw [he] at hold
  intro j hj
  rw [htk.slot, Entry.clearRw_frame, htk.byte]
  exact hold j hj

theorem FileInv.fault (h : FileInv F σ) (hinv : SysInv F lo hi σ) {t off : Nat}
    (hsafe : Harmless σ (.fault t off)) (he : σ.fault t off = .ok σ') : FileInv F σ' := by
  obtain ⟨_, τ, ht, h1, hph, hnf, hlim, habs, hs⟩ := fault_cases hinv he
  have ho := hinv.task t τ ht
  have hlt : off < 0x4000000 := lt_of_lt_of_le hlim ho.limit
  have hsp : ∀ q, slotAt (base q + off / 4096 * 4096) = slot q off := fun _ => slot_page
  cases hs with
  | @served s' hn =>
    generalize hos : σ.others t τ (off / 4096 * 4096) = os at hn
    cases hn with
    | empty hf hput =>
      rw [hsp] at hput
      refine h.change hinv ht ht rfl (fun _ _ => rfl) hlt (fun z hz hne => ?_) ?_
      · exact ((hf.fixed hz).trans (hput.rest z hz hne)).kept
      · -- `get_empty_page` is used past `end_data` only
        intro x hx _ hoff
        unfold Sys.others at hos
        rw [hx] at hos
        dsimp only at hos
        rw [if_neg (by omega)] at hos
        split_ifs at hos
    | @shared ps p _ hp htk =>
      rw [hsp, hsp] at htk
      refine h.change hinv ht ht rfl (fun _ _ => rfl) hlt
        (fun z hz hne => (htk.rest z hz hne).kept) fun x hx hex hoff => Or.inr ⟨?_, ?_⟩
      · rw [show (σ.setMm s').mm.pte (slot t off) = _ from htk.slot, Entry.clearRw_dirty]
        exact htk.clean.2.1
      · obtain ⟨_, x', hx', _, hps⟩ := others_spec hos
        obtain ⟨τ', hp', hxp⟩ := hps p hp
        cases hx.symm.trans hx'
        refine h.shared hx hex ht hp' hxp (fun hex' => ?_) hoff htk
        exact hsafe τ ps ht hos p hp τ' hp' hex' htk.clean
  | reading hn =>
    generalize hos : σ.others t τ (off / 4096 * 4096) = os at hn
    cases hn with
    | read _ hf =>
      refine h.update (t := t) hinv (fun z hz _ => (hf.fixed hz).kept)
        (fun u hu => Function.update_of_ne hu _ _) fun τ' hτ' => ?_
      cases (Function.update_self t _ σ.task).symm.trans hτ'
      have := (h t τ ht).of_kept ho fun _ off' hlt' _ =>
        (hf.fixed (slot_mem h1 ho.lt hlt')).kept
      exact ⟨this.tail, fun x hx => ⟨h1, fun hex => by
        obtain ⟨a, b, c, d⟩ := (this.pages x hx).2 hex
        exact ⟨a, b, c, d⟩⟩⟩
  | oom hex => exact h.exited hinv hex

theorem FileInv.faultRead (h : FileInv F σ) (hinv : SysInv F lo hi σ) {t : Nat}
    (he : σ.faultRead F t = .ok σ') : FileInv F σ' := by
  obtain ⟨_, τ, f, tmp, x, ht, hfault, hx, hs⟩ := faultRead_cases hinv he
  have ho := hinv.task t τ ht
  obtain ⟨h1, _, hown, hlim, hal, _⟩ := ho.read f tmp hfault
  have hlt : tmp < 0x4000000 := lt_of_lt_of_le hlim ho.limit
  have hpg : tmp / 4096 * 4096 = tmp := by omega
  cases hs with
  | mapped hput =>
    refine h.change hinv ht (Function.update_self t _ σ.task) rfl
      (fun u hu => Function.update_of_ne hu _ _) hlt (fun z hz hne => ?_) ?_
    · have hfill : Fixed σ.mm (σ.mm.setPage f ((F x).page τ.endData tmp)) z :=
        (hinv.mem.fill_moves hown _ 64).rest z hz (by
          have := (mem_userSlots.mp hz).1.2
          omega)
      exact (hfill.trans (hput.rest z hz hne)).kept
    · intro x' hx' _ _
      cases hx.symm.trans hx'
      refine Or.inr ⟨by rw [show (Sys.mm _).pte (slot t tmp) = _ from hput.slot]; rfl, ?_⟩
      intro j _
      rw [show (Sys.mm _).pte (slot t tmp) = _ from hput.slot, Entry.seven_frame,
        hput.kept f (Or.inr hown), Mem.setPage_mem, if_pos rfl, hpg]
  | oom hex => exact h.exited hinv hex

/-! ## Runs -/

theorem FileInv.step (h : FileInv F σ) (hinv : SysInv F lo hi σ) {e : Event}
    (hsafe : Harmless σ e) (he : σ.step F e = .ok σ') : FileInv F σ' := by
  cases e with
  | getFreePage =>
    dsimp only [Sys.step] at he
    cases hg : Mm.getFreePage σ.mm with
    | none => rw [hg] at he; cases he; exact h
    | some r =>
      obtain ⟨f, s⟩ := r
      rw [hg] at he
      cases he
      exact h.keep hinv (fun z hz => ((getFreePage_spec hinv.mem hg).fixed hz).kept) rfl
  | freePage f =>
    dsimp only [Sys.step] at he
    split_ifs at he with hpre
    obtain ⟨s, e, _, m⟩ := freePage_owned hinv.mem hpre.1
    rw [e] at he
    cases he
    refine h.keep hinv (fun z _ => (Fixed.of_pte ?_ (fun g _ _ => by rw [m])).kept) rfl
    exact Mem.pte_of_mem (fun g => by rw [m]) z
  | fill f p =>
    dsimp only [Sys.step] at he
    split_ifs at he with hpre
    cases he
    refine h.keep hinv (fun z hz => ((hinv.mem.fill_moves hpre p 64).rest z hz ?_).kept) rfl
    have := (mem_userSlots.mp hz).1.2
    omega
  | inodeCount x n => cases he; exact h
  | fork p c => exact h.fork hinv he
  | execBegin t x =>
    obtain ⟨_, hmm, h1, τ, _, _, htask⟩ := execBegin_cases hinv he
    refine h.update (t := t) hinv (fun _ _ _ => by rw [hmm]; exact Fixed.refl.kept)
      (fun u hu => by rw [htask, Function.update_of_ne hu]) fun τ' hτ' => ?_
    rw [htask, Function.update_self] at hτ'
    cases hτ'
    exact ⟨(fun htl => nomatch htl), fun _ _ => ⟨h1, fun hex => absurd rfl hex⟩⟩
  | execFinish t args => exact h.execFinish hinv he
  | execTail t => exact h.execTail hinv he
  | exit t =>
    dsimp only [Sys.step] at he
    cases ht : σ.task t with
    | none => rw [ht] at he; cases he
    | some τ =>
      rw [ht] at he
      dsimp only at he
      split_ifs at he
      exact h.exited hinv (doExit_cases hinv he)
  | release t =>
    dsimp only [Sys.step] at he
    cases ht : σ.task t with
    | none => rw [ht] at he; cases he
    | some τ =>
      rw [ht] at he
      dsimp only at he
      split_ifs at he
      cases he
      have hnone : (σ.setTask t none).task t = none := by simp [Sys.setTask]
      refine h.update (t := t) hinv (fun _ _ _ => Fixed.refl.kept)
        (fun u hu => Function.update_of_ne hu _ _) fun τ' hτ' => ?_
      cases hnone.symm.trans hτ'
  | fault t off => exact h.fault hinv hsafe he
  | faultRead t => exact h.faultRead hinv he
  | wp t off => exact h.wp hinv hsafe he
  | store t off v => exact h.store hinv he
  | verify t addr size => exact h.verify hinv hsafe he
  | putFs t off v => exact h.putFs hinv hsafe he

/-- The system in which every step is harmless. -/
def harmlessSystem (F : Nat → Exe) (lo hi : Nat) : Lts Sys Event :=
  (taskSystem F lo hi).restrict Harmless

theorem harmlessSystem_inv (h1 : 256 ≤ lo) (h2 : lo ≤ hi) (h3 : hi ≤ 4096)
    (h : (harmlessSystem F lo hi).Reachable σ) : FileInv F σ := by
  refine h.invariant (I := FileInv F) ?_ ?_
  · rintro _ ⟨s, _, n, rfl⟩ t τ hτ
    obtain ⟨rfl, rfl⟩ := init_task hτ
    exact ⟨(fun htl => nomatch htl), (fun _ hx => nomatch hx)⟩
  · rintro σ e σ' hr hi' ⟨hsafe, he⟩
    exact hi'.step (taskSystem_inv h1 h2 h3 (Lts.Reachable.of_restrict hr)) hsafe he

/-- In every state of a run of harmless steps: a clean page below `end_data` of a task with an
    executable holds the bytes of the file, and when `share_page` serves a fault (whose sharing
    is harmless), the frame it maps holds what the slow path of `do_no_page` would have read. -/
theorem sharing_agrees_with_loading (F : Nat → Exe) (lo hi : Nat) (h1 : 256 ≤ lo) (h2 : lo ≤ hi)
    (h3 : hi ≤ 4096) (σ : Sys) (h : (harmlessSystem F lo hi).Reachable σ) :
    (∀ t τ x, σ.task t = some τ → τ.executable = some x → τ.phase ≠ .execing →
      ∀ off, off / 4096 * 4096 < τ.endData → (σ.mm.pte (slot t off)).present = true →
        (σ.mm.pte (slot t off)).dirty = false →
        ∀ j < 4096, (σ.mm.mem (σ.mm.pte (slot t off)).frame).byte j =
          ((F x).page τ.endData (off / 4096 * 4096)).byte j) ∧
    (∀ t off τ x ps s', σ.task t = some τ → τ.executable = some x →
      (τ.phase = .user ∨ τ.phase = .tail) → (σ.mm.pte (slot t off)).present = false →
      σ.others t τ (off / 4096 * 4096) = some ps → Harmless σ (.fault t off) →
      sharePage σ.mm (off / 4096 * 4096) t ps = .ok (true, s') →
      ∀ j < 4096, (s'.mem (s'.pte (slot t off)).frame).byte j =
        ((F x).page τ.endData (off / 4096 * 4096)).byte j) := by
  have hinv := taskSystem_inv h1 h2 h3 (Lts.Reachable.of_restrict h)
  have hf := harmlessSystem_inv h1 h2 h3 h
  refine ⟨?_, ?_⟩
  · intro t τ x ht hx hex off hoff hp hd
    exact (((hf t τ ht).pages x hx).2 hex).holds off hoff hp hd
  · intro t off τ x ps s' ht hx hph habs hos hsafe he
    have ho := hinv.task t τ ht
    obtain ⟨hps, x', hx', hoff, hexe⟩ := others_spec hos
    cases hx.symm.trans hx'
    have hlt := ho.data_lt hoff
    have hsp : ∀ q, slotAt (base q + off / 4096 * 4096) = slot q off := fun _ => slot_page
    have ht1 := ((hf t τ ht).pages x hx).1
    rcases sharePage_spec hinv.mem (a := off / 4096 * 4096) (by omega) ht1 ho.lt
      (by rw [hsp]; exact habs) ps hps with
      ⟨e, _⟩ | ⟨p, hp, _, ⟨e, _⟩ | ⟨s1, e, htk⟩⟩
    · rw [e] at he; cases he
    · rw [e] at he; cases he
    · rw [e] at he
      cases he
      rw [hsp, hsp] at htk
      obtain ⟨τ', hp', hxp⟩ := hexe p hp
      refine hf.shared hx (by rcases hph with e | e <;> rw [e] <;> decide) ht hp' hxp
        (fun hex' => ?_) hoff htk
      exact hsafe τ ps ht hos p hp τ' hp' hex' htk.clean

/-- Task 1 runs a program of one page and reads it: the page is clean and holds the file. -/
theorem sharing_agrees_with_loading_first_page :
    ∃ σ, (harmlessSystem (fun _ => zeroText) 1024 4096).Reachable σ ∧
      (σ.mm.pte (slot 1 0)).present = true ∧
      ∀ j < 4096, (σ.mm.mem (σ.mm.pte (slot 1 0)).frame).byte j = (zeroText.page 4096 0).byte j := by
  obtain ⟨σ0, σ1, σ2, hl0, e1, e2, htask, ht, hn, _, _, f, hslot, _⟩ :=
    first_page (fun _ => zeroText) 1024 4096 (by omega) (by omega) (by omega)
      (by omega) (x := 0) (by decide) (by decide) (by decide)
  have hlife : ∀ (σ : Sys) (e : Event), e.Life → Harmless σ e := by
    intro σ e he
    cases e <;> first | exact trivial | exact he.elim
  have hr0 : (harmlessSystem (fun _ => zeroText) 1024 4096).Reachable σ0 :=
    Lts.Reachable.mono hlife hl0
  -- there is no other task to share with
  have hsafe : Harmless σ0 (.fault 1 0) := by
    intro τ ps _ hos p hp τ' hp' _ _
    obtain ⟨hp1, _, hpt⟩ := (others_spec hos).1 p hp
    rw [hn p (by omega) hpt] at hp'
    cases hp'
  have hr2 : (harmlessSystem (fun _ => zeroText) 1024 4096).Reachable σ2 :=
    .step (e := .faultRead 1) (.step (e := .fault 1 0) hr0 ⟨hsafe, e1⟩) ⟨trivial, e2⟩
  refine ⟨σ2, hr2, by rw [hslot]; rfl, ?_⟩
  exact (sharing_agrees_with_loading (fun _ => zeroText) 1024 4096 (by omega) (by omega) (by omega)
    σ2 hr2).1 1 (started (fun _ => zeroText) 0) 0 (htask ▸ ht) rfl (by decide) 0 (by decide)
    (by rw [hslot]; rfl) (by rw [hslot]; rfl)

/-! ## A run that shares a modified page -/

/-- `write_verify` of a page that is mapped read-only, while memory lasts. -/
theorem writeVerify_copies {t : Nat} {τ : Task} (h : SysInv F lo hi σ) (hrun : σ.Running t τ)
    (hp : (σ.mm.pte (slot t 0)).present = true) (hr : (σ.mm.pte (slot t 0)).rw = false)
    (hfree : getFreePage σ.mm ≠ none) :
    ∃ s', writeVerify σ.mm (base t) = .ok s' ∧ Unprotected lo hi σ.mm σ.own (slot t 0) s' := by
  have hlt : base t < 2 ^ 32 := by
    have := (h.task t τ hrun.2.1).lt
    unfold base
    omega
  have hslot : slotAt (base t) = slot t 0 := rfl
  have hpd := σ.mm.dir_present_of_pte hp
  rcases writeVerify_spec h.mem hlt with ⟨_, hn⟩ | ⟨_, _, _, e | ⟨s', e, hu⟩⟩
  · exact absurd ⟨hp, hr⟩ hn
  · -- `un_wp_page` ends in `oom()` only without a free page
    exfalso
    obtain ⟨r, hg⟩ := Option.ne_none_iff_exists'.mp hfree
    unfold writeVerify at e
    rw [hslot] at e
    dsimp only at e
    rw [if_neg (by rw [hpd]; decide), ← σ.mm.pte_of_present hpd, hp, hr] at e
    rw [if_pos (by decide)] at e
    unfold unWpPage at e
    rw [hg] at e
    dsimp only at e
    split_ifs at e
  · exact ⟨s', e, hu⟩

theorem verifyArea_byte {s s' : Mem} {t : Nat} (ht : t < 64) (h : writeVerify s (base t) = .ok s') :
    verifyArea s t 0 1 = .ok s' := by
  have hlt : base t < 2 ^ 32 := by
    unfold base
    omega
  have hst : walkStart t 0 = base t := by
    unfold walkStart
    rw [Nat.zero_div, Nat.zero_mul, Nat.zero_add, Nat.mod_eq_of_lt hlt]
  rw [verifyArea_eq, hst, show walkLength 0 1 = 1 from rfl, verifyPages, bind_of_ok h]
  rfl

/-- `verify_area` of a page that is mapped read-only, while memory lasts. -/
theorem verify_copies {t : Nat} {τ : Task} (h : SysInv F lo hi σ) (hrun : σ.Running t τ)
    (hp : (σ.mm.pte (slot t 0)).present = true) (hr : (σ.mm.pte (slot t 0)).rw = false)
    (hfree : getFreePage σ.mm ≠ none) :
    ∃ s', σ.verify t 0 1 = .ok (σ.setMm s') ∧ Unprotected lo hi σ.mm σ.own (slot t 0) s' := by
  obtain ⟨s', e, hu⟩ := writeVerify_copies h hrun hp hr hfree
  refine ⟨s', ?_, hu⟩
  unfold Sys.verify
  rw [hrun.2.1]
  dsimp only
  rw [if_pos ⟨hrun, by omega, by omega⟩, verifyArea_byte (h.task t τ hrun.2.1).lt e]
  rfl

/-- A user store through a writable entry. -/
theorem store_direct {t off : Nat} {τ : Task} (h : SysInv F lo hi σ) (hrun : σ.Running t τ)
    (hoff : off < τ.limit) (hp : (σ.mm.pte (slot t off)).present = true)
    (hr : (σ.mm.pte (slot t off)).rw = true) (v : Nat) :
    ∃ s', σ.store t off v = .ok (σ.setMm s') ∧
      Poked lo hi σ.mm σ.own (slot t off) (off % 4096) v s' := by
  have ho := h.task t τ hrun.2.1
  have hx := slot_mem hrun.1 ho.lt (lt_of_lt_of_le hoff ho.limit)
  refine ⟨_, ?_, poke_spec h.mem hx hp (off % 4096) v⟩
  unfold Sys.store
  rw [hrun.2.1]
  dsimp only
  rw [if_pos ⟨hrun, hoff, hp⟩, if_pos hr]

/-- Three tasks run a program of one page of zeros. Task 1 has read the page, stored a 1 and
    forked task 2; task 3 has no page. -/
theorem modified_pair : ∃ σ f, (taskSystem (fun _ => zeroText) 1024 4096).Reachable σ ∧
    Roomy 53 σ.mm σ.own ∧ σ.iCount 0 = 3 ∧
    (∀ t, t = 1 ∨ t = 2 ∨ t = 3 → σ.task t = some (started (fun _ => zeroText) 0)) ∧
    (∀ t, t ≠ 0 → t ≠ 1 → t ≠ 2 → t ≠ 3 → σ.task t = none) ∧
    (σ.mm.pte (slot 3 0)).present = false ∧ 1024 ≤ f ∧ f < 4096 ∧ (σ.mm.mem f).byte 0 = 1 ∧
    ∀ t, t = 1 ∨ t = 2 → (σ.mm.pte (slot t 0)).present = true ∧ (σ.mm.pte (slot t 0)).frame = f ∧
      (σ.mm.pte (slot t 0)).dirty = true := by
  set F : Nat → Exe := fun _ => zeroText with hF
  set τ := started F 0 with hτ
  obtain ⟨σ0, hl0, hroom, ht1, ht3, hn, hcnt, hd, habs⟩ := first_pair F 1024 4096
    (by omega) (by omega) (by omega) (by omega) (x := 0) (c := 3) (by decide)
    (by decide) (by omega) (by omega)
  have hr0 := Lts.Reachable.of_restrict hl0
  have i0 := taskSystem_inv (by omega) (by omega) (by omega) hr0
  have hm1 : slot 1 0 ∈ userSlots := slot_mem (by omega) (by omega) (by omega)
  have hm3 : slot 3 0 ∈ userSlots := slot_mem (by omega) (by omega) (by omega)
  -- task 1 reads its page
  have hns : ¬ Shareable σ0 1 τ 0 := by
    refine not_shareable fun p τ' hp1 hp hτ' => ?_
    by_cases hp' : p = 3
    · subst hp'; exact (habs 0 (by omega)).2
    · rw [hn p (by omega) hp hp'] at hτ'; cases hτ'
  obtain ⟨σ1, σ2, e1, e2, htask, hcnt2, hroom2, _, hdir, hpte, f, hslot, _⟩ :=
    fault_read_ok i0 hroom (by omega) (t := 1) (x := 0)
      ⟨by omega, ht1, rfl, rfl⟩ rfl (show 0 < τ.limit by decide) (by decide) (habs 0 (by omega)).1 hns
  have hr2 : (taskSystem F 1024 4096).Reachable σ2 :=
    .step (e := .faultRead 1) (.step (e := .fault 1 0) hr0 e1) e2
  have i2 := taskSystem_inv (by omega) (by omega) (by omega) hr2
  have hfr : 1024 ≤ f ∧ f < 4096 := by
    have hr := (i2.mem.pte_range hm1 (by rw [hslot]; rfl)).resolve_right
      (fun hr => by rw [hslot] at hr; cases hr.2)
    rwa [hslot] at hr
  -- and stores into it
  obtain ⟨s3, e3, hpk⟩ := store_direct i2 (t := 1) (τ := τ)
    ⟨by omega, htask ▸ ht1, rfl, rfl⟩ (show 0 < τ.limit by decide) (by rw [hslot]; rfl) (by rw [hslot]; rfl) 1
  have hr3 : (taskSystem F 1024 4096).Reachable (σ2.setMm s3) :=
    .step (e := .store 1 0 1) hr2 e3
  have i3 := taskSystem_inv (by omega) (by omega) (by omega) hr3
  have hroom3 : Roomy 36 s3 σ2.own := hroom2.poked hm1 (by rw [hslot]; rfl) hpk
  have hd3 : (σ2.setMm s3).mm.pte (slot 1 0) = { Entry.seven f with dirty := true } := by
    rw [show (σ2.setMm s3).mm.pte (slot 1 0) = _ from hpk.slot, hslot]
  have hb3 : (s3.mem f).byte 0 = 1 := by
    have := congrFun hpk.byte 0
    rw [hslot] at this
    exact this
  -- task 2 is forked
  obtain ⟨σ4, e4, hf, hroom4, hcnt4⟩ := fork_ok (σ := σ2.setMm s3) i3 hroom3 (by omega) (p := 1)
    (c := 2) (τ := τ) (htask ▸ ht1) rfl rfl (by omega) (by omega)
    (by rw [show (σ2.setMm s3).task = σ0.task from htask]; exact hn 2 (by omega) (by omega) (by omega))
    (fun k hk hk1 => by
      have hsl : slots τ.limit = 16 := by decide
      rw [show (σ2.setMm s3).mm.dir = σ2.mm.dir from hpk.dir,
        hdir _ (by rw [(slot_fst (t := 1) (show 0 < 0x4000000 by omega)).1]; omega)]
      exact hd k (by omega))
  have htask4 : σ4.task = Function.update σ0.task 2 (some τ) := by
    rw [hf.task, show (σ2.setMm s3).task = σ0.task from htask]
  have htw := hf.twin 0 (by decide)
  have hp1 : ((σ2.setMm s3).mm.pte (slot 1 0)).present = true := by rw [hd3]; rfl
  have hfix1 := hf.moves.rest _ hm1 (by rw [slot_task (by omega)]; omega)
  have hfix3 := hf.moves.rest _ hm3 (by rw [slot_task (by omega)]; omega)
  refine ⟨σ4, f, .step (e := .fork 1 2) hr3 e4, hroom4, ?_, ?_, ?_, ?_, hfr.1, hfr.2, ?_, ?_⟩
  · rw [hcnt4]
    rw [show (σ2.setMm s3).iCount = σ0.iCount from hcnt2, show τ.executable = some 0 from rfl,
      incCount, Function.update_self, hcnt]
  · intro t ht
    rw [htask4]
    rcases ht with rfl | rfl | rfl
    · rw [Function.update_of_ne (by omega)]; exact ht1
    · rw [Function.update_self]
    · rw [Function.update_of_ne (by omega)]; exact ht3
  · intro t h0 h1 h2 h3
    rw [htask4, Function.update_of_ne h2]
    exact hn t h0 h1 h3
  · rw [hfix3.present, show (σ2.setMm s3).mm.pte (slot 3 0) = _ from hpk.pte _ hm3 (by decide),
      hpte _ hm3 (by decide)]
    exact (habs 0 (by omega)).2
  · have := hfix1.2 hp1
    rw [hd3] at this
    exact (congrFun this 0).trans hb3
  · rintro t (rfl | rfl)
    · exact ⟨hfix1.present.trans hp1, by rw [hfix1.frame, hd3]; rfl, by rw [hfix1.dirty, hd3]⟩
    · have he2 := htw.2 hp1
      rw [hd3] at he2
      exact ⟨htw.1.trans hp1, by simpa using congrArg Entry.frame he2,
        by simpa using congrArg Entry.dirty he2⟩

/-- In that state a system call of task 2 verifies a buffer on the page, which copies it and
    forgets that it is dirty. A fault of task 3 then shares the copy: it gets the 1 instead of
    the 0 of the file. -/
theorem share_page_takes_modified_page :
    ∃ σ τ ps s', (taskSystem (fun _ => zeroText) 1024 4096).Reachable σ ∧ σ.task 3 = some τ ∧
      τ.executable = some 0 ∧ τ.phase = .user ∧ (σ.mm.pte (slot 3 0)).present = false ∧
      σ.others 3 τ 0 = some ps ∧ sharePage σ.mm 0 3 ps = .ok (true, s') ∧
      (s'.mem (s'.pte (slot 3 0)).frame).byte 0 = 1 ∧
      (zeroText.page τ.endData 0).byte 0 = 0 := by
  obtain ⟨σ, f, hr, hroom, hcnt, htask, hnone, habs, hlo, hhi, hbyte, hpair⟩ := modified_pair
  have hinv := taskSystem_inv (by omega) (by omega) (by omega) hr
  have hm1 : slot 1 0 ∈ userSlots := slot_mem (by omega) (by omega) (by omega)
  have hm2 : slot 2 0 ∈ userSlots := slot_mem (by omega) (by omega) (by omega)
  have hm3 : slot 3 0 ∈ userSlots := slot_mem (by omega) (by omega) (by omega)
  have hne12 : slot 1 0 ≠ slot 2 0 := by decide
  obtain ⟨hp1, hf1, hd1⟩ := hpair 1 (Or.inl rfl)
  obtain ⟨hp2, hf2, hd2⟩ := hpair 2 (Or.inr rfl)
  have ht2 : σ.task 2 = some (started (fun _ => zeroText) 0) := htask 2 (by omega)
  have ht3 : σ.task 3 = some (started (fun _ => zeroText) 0) := htask 3 (by omega)
  -- the page is shared by tasks 1 and 2, so it is read-only and its count is not 1
  have hrw2 : (σ.mm.pte (slot 2 0)).rw = false := by
    by_contra hrw
    exact hne12 (hinv.mem.refs.cow _ hm2 _ hm1 hp2 (by simpa using hrw)
      (by rw [viewOf_pte, hf2]; omega) hp1 (hf1.trans hf2.symm))
  have hc2 : σ.mm.memMap (f - 256) ≠ 1 := fun hc =>
    hne12 (hinv.mem.refs.unique_of_cnt_one hm2 hm1 hp2 hp1 (hf1.trans hf2.symm)
      (by rw [viewOf_pte, hf2]; exact hlo) (by rw [viewOf_pte, hf2]; exact hhi)
      (by rw [viewOf_pte, hf2]; exact hc))
  obtain ⟨g, s, hg⟩ := hroom.free hinv.mem (by omega)
  obtain ⟨s5, e5, hu⟩ := verify_copies hinv (t := 2) ⟨by omega, ht2, rfl, rfl⟩ hp2 hrw2
    (by rw [hg]; simp)
  have hr5 : (taskSystem (fun _ => zeroText) 1024 4096).Reachable (σ.setMm s5) :=
    .step (e := .verify 2 0 1) hr e5
  have i5 := taskSystem_inv (by omega) (by omega) (by omega) hr5
  have hd5 : (s5.pte (slot 2 0)).dirty = false := by
    rw [hu.dirty, hf2]
    simp [hc2]
  have habs5 : (s5.pte (slot 3 0)).present = false := by
    rw [hu.pte _ hm3 (by decide)]; exact habs
  -- the fault of task 3
  obtain ⟨ps, hps, hp⟩ := others_mem (σ := σ.setMm s5) (t := 3) (p := 2) (x := 0)
    (τ := started (fun _ => zeroText) 0) rfl (show 0 < 4096 + 0 by decide)
    (by rw [show (σ.setMm s5).iCount 0 = σ.iCount 0 from rfl, hcnt]; omega) (by omega) (by omega)
    (by omega) ht2 rfl
  have hcl2 : Clean s5 (slotAt (base 2 + 0)) := clean_of_rw i5.mem hm2 hu.present hu.rw hd5
  obtain ⟨g5, s6, hg5⟩ := (hroom.unprotected hu).free i5.mem (by omega)
  rcases sharePage_spec i5.mem (a := 0) (c := 3) (by omega) (by omega) (by omega) habs5 ps
    (others_spec hps).1 with ⟨_, hno⟩ | ⟨q, hq, hcl, ⟨_, hg0⟩ | ⟨s7, e7, htk⟩⟩
  · exact absurd hcl2 (hno 2 hp)
  · rw [show (σ.setMm s5).mm = s5 from rfl] at hg0
    rw [hg0] at hg5
    cases hg5
  · -- the clean page is that of task 2
    have hq2 : q = 2 := by
      obtain ⟨hq1, _, hq3⟩ := (others_spec hps).1 q hq
      obtain ⟨τ', hτ', _⟩ := (others_spec hps).2.choose_spec.2.2 q hq
      by_contra hq2
      by_cases hq1' : q = 1
      · subst hq1'
        have := hcl.2.1
        rw [show (σ.setMm s5).mm.pte (slotAt (base 1 + 0)) = _ from hu.pte _ hm1 hne12] at this
        exact absurd (hd1.symm.trans this) (by decide)
      · rw [show (σ.setMm s5).task q = none from hnone q (by omega) hq1' hq2 hq3] at hτ'
        cases hτ'
    subst hq2
    refine ⟨σ.setMm s5, _, ps, s7, hr5, ht3, rfl, rfl, habs5, hps, e7, ?_, rfl⟩
    rw [show s7.pte (slot 3 0) = _ from htk.slot, Entry.clearRw_frame, htk.byte]
    have hb := hu.byte
    rw [hf2] at hb
    exact (congrFun hb 0).trans hbyte

end Linux011.Mm
