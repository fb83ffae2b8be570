/-
  No process waits for an inode it has locked itself. A lock is set around one `bread` only, so
  while it is set the process is in the frames of `bread`, unless `getblk` finds a dirty buffer:
  then `sync_dev` goes through all inodes and waits for the locked one.
-/
import Linux011.Fs.Identity
import Linux011.Fs.InodeLocks

namespace Linux011.Fs.Locks

open Linux011.Lib

variable {ι : Type}

/-! ## In bread -/

/-- The frames of `bread`, `sync_dev` apart. -/
def inBread : Frame → Bool
  | .ret _ | .getHash _ _ | .getHashWait _ | .getblk _ _ | .getblkSleep _ _ | .getblkWait _ _ _ | .llRw _ _
  | .lockBuffer _ _ _ | .request _ _ _ | .bread | .breadWait _ | .brelse _ => true
  | _ => false

/-- `getblk` has waited for its buffer, and now calls `sync_dev` for it. -/
def Flushing (c : Cache) (bufs : List Frame) : Prop := ∃ dev block i st, bufs = .getblkWait dev block i :: st ∧
  (c.buf i).lock = false ∧ (c.buf i).count = 0 ∧ (c.buf i).dirt = true

variable {c : Cache} {bufs bufs' st : List Frame} {a : Act} {x : Action}

theorem inBread_cons {f : Frame} (hf : inBread f) (hst : ∀ g ∈ st, inBread g) : ∀ g ∈ f :: st, inBread g :=
  List.forall_mem_cons.mpr ⟨hf, hst⟩

theorem callGetblk_inBread (dev block : Nat) (hst : ∀ g ∈ st, inBread g) : ∀ g ∈ callGetblk dev block st, inBread g :=
  inBread_cons rfl (inBread_cons rfl hst)

theorem deliver_inBread {v : Option Ref} {f : Frame} (hf : inBread f) (hst : ∀ g ∈ st, inBread g)
    (h : deliver c v f st = some (x, bufs')) : ∀ g ∈ bufs', inBread g := by
  cases f with
  | getblk dev block =>
    cases v with
    | some r => cases h; exact inBread_cons rfl hst
    | none =>
      dsimp only [deliver] at h
      split at h
      · cases h; exact inBread_cons rfl hst
      · cases h; exact inBread_cons rfl hst
  | bread =>
    cases v with
    | none => cases h
    | some r =>
      dsimp only [deliver] at h
      split_ifs at h
      · cases h; exact inBread_cons rfl hst
      · cases h; exact inBread_cons rfl (inBread_cons rfl hst)
  | work held => cases hf
  | breadaGot r rest => cases hf
  | fileRead dev pos buf => cases hf
  | breada rest => cases hf
  | _ => cases h

theorem goStep_inBread {f : Frame} (hb : ∀ g ∈ f :: st, inBread g) (hf : ¬ Flushing c (f :: st))
    (h : goStep c st f = some (x, bufs')) : ∀ g ∈ bufs', inBread g := by
  obtain ⟨hf1, hst⟩ := List.forall_mem_cons.mp hb
  cases f with
  | ret v =>
    cases st with
    | nil => cases h
    | cons g st =>
      obtain ⟨hg, hst⟩ := List.forall_mem_cons.mp hst
      exact deliver_inBread hg hst h
  | getHash dev block =>
    dsimp only [goStep] at h
    split at h
    · cases h; exact inBread_cons rfl hst
    · cases h; exact inBread_cons rfl hst
  | getHashWait r =>
    dsimp only [goStep] at h
    split_ifs at h
    · cases h; exact inBread_cons rfl hst
    · cases h; exact inBread_cons rfl hst
  | getblkSleep dev block => cases h; exact callGetblk_inBread dev block hst
  | getblkWait dev block i =>
    dsimp only [goStep] at h
    split_ifs at h with hlock
    have h := Option.some.inj h
    unfold getblkStep at h
    split_ifs at h with hcount hdirt
    · cases h; exact callGetblk_inBread dev block hst
    · have hlock : (c.buf i).lock = false := by simpa using hlock
      exact absurd ⟨dev, block, i, st, rfl, hlock, not_ne_iff.mp hcount, hdirt⟩ hf
    · cases h; exact callGetblk_inBread dev block hst
    · cases h; exact inBread_cons rfl (inBread_cons rfl hst)
  | llRw rw i =>
    have h := Option.some.inj h
    unfold llRwStep at h
    dsimp only at h
    split_ifs at h
    · cases h; exact hst
    · cases h; exact hst
    · cases h; exact inBread_cons rfl hst
  | lockBuffer write ahead i =>
    dsimp only [goStep] at h
    split_ifs at h
    have h := Option.some.inj h
    unfold lockStep at h
    split_ifs at h
    · cases h; exact hst
    · cases h; exact inBread_cons rfl hst
  | request write ahead i =>
    dsimp only [goStep] at h
    split at h
    · cases h; exact hst
    · split_ifs at h
      cases h; exact hst
  | breadWait r =>
    dsimp only [goStep] at h
    split_ifs at h
    · cases h; exact inBread_cons rfl hst
    · cases h; exact inBread_cons rfl (inBread_cons rfl hst)
  | brelse r =>
    dsimp only [goStep] at h
    split_ifs at h
    cases h; exact hst
  | getblk dev block => cases h
  | bread => cases h
  | _ => cases hf1

theorem exec_inBread (hb : ∀ g ∈ bufs, inBread g) (hf : ¬ Flushing c bufs) (h : exec c bufs a = some (x, bufs')) :
    ∀ g ∈ bufs', inBread g := by
  obtain ⟨held, st, rfl, -⟩ | ⟨f, st, rfl, hg⟩ | ⟨dev, pos, buf, st, rfl, -⟩ | ⟨r, off, chunk, dev, pos, buf, st, rfl, -⟩ :=
    exec_cases h
  · exact absurd (hb _ List.mem_cons_self) nofun
  · exact goStep_inBread hb hf hg
  · exact absurd (hb _ List.mem_cons_self) nofun
  · exact absurd (hb _ List.mem_cons_self) nofun

/-! ## The invariant -/

/-- Between `lock_inode(inode)` and `unlock_inode(inode)` -/
def Place.Holds (i : Fin 32) : Place → Prop
  | .getSuper _ j | .bread _ j | .brelse j => j = i
  | _ => False

/-- The top segment holds the lock of `i`, and runs `bread` or `brelse` if anything. -/
def Top (i : Fin 32) : List Seg → Prop
  | s :: _ => s.place.Holds i ∧ ∀ g ∈ s.bufs, inBread g
  | [] => False

/-- A process that has set a lock is there. -/
def Local (σ : Sys ι) : Prop := ∀ p i, σ.t.lock i = some p → Top i (σ.stack p)

/-- The process with the lock of an inode does not go on where `getblk` flushes a dirty buffer. -/
def NoFlush (σ : Sys ι) (e : Event ι) : Prop := ∀ bufs q st, e = .frames .go → σ.stack σ.cur = ⟨bufs, q⟩ :: st →
  Flushing σ.c bufs → ∀ i, σ.t.lock i ≠ some σ.cur

/-- Process `p` sleeps in `wait_on_inode` or `lock_inode` for inode `i`. -/
def AsleepOn (σ : Sys ι) (p : ι) (i : Fin 32) : Prop := ∃ q st, σ.stack p = ⟨[], q⟩ :: st ∧ q.waits = some i ∧
  (σ.t.lock i).isSome

theorem Place.Holds.waits {q : Place} {i : Fin 32} (h : q.Holds i) : q.waits = none := by
  cases q with
  | getSuper write j => rfl
  | bread write j => rfl
  | brelse j => rfl
  | _ => exact h.elim

/-! ## What a place does to the locks -/

/-- Of the locks of the others none is new, and `p` has those of its top segment. -/
structure Fair (p : ι) (t t' : Tables ι) (st : List Seg) : Prop where
  others : ∀ j r, r ≠ p → t'.lock j = some r → t.lock j = some r
  mine : ∀ i, t'.lock i = some p → Top i st

variable {p : ι} {t t' : Tables ι} {segs segs' : List Seg} {q : Place}

/-- Locks are left or cleared, and `p` has none. -/
theorem Fair.looser (hnone : ∀ i, t.lock i ≠ some p) (hl : ∀ j r, t'.lock j = some r → t.lock j = some r) :
    Fair p t t' segs :=
  ⟨fun j r _ => hl j r, fun i hi => absurd (hl i p hi) (hnone i)⟩

theorem setLock_none {i j : Fin 32} {r : ι} (h : (t.setLock i none).lock j = some r) : j ≠ i ∧ t.lock j = some r := by
  change Function.update t.lock i none j = some r at h
  by_cases hj : j = i
  · subst hj
    rw [Function.update_self] at h
    cases h
  · rw [Function.update_of_ne hj] at h
    exact ⟨hj, h⟩

theorem setLock_some {i j : Fin 32} {r : ι} (h : (t.setLock i (some p)).lock j = some r) :
    j = i ∧ r = p ∨ j ≠ i ∧ t.lock j = some r := by
  change Function.update t.lock i (some p) j = some r at h
  by_cases hj : j = i
  · subst hj
    rw [Function.update_self] at h
    exact .inl ⟨rfl, (Option.some.inj h).symm⟩
  · rw [Function.update_of_ne hj] at h
    exact .inr ⟨hj, h⟩

theorem iputRepeat_lock (t : Tables ι) (segs : List Seg) (i : Fin 32) : (iputRepeat t segs i).1.lock = t.lock := by
  unfold iputRepeat
  split_ifs <;> rfl

theorem igetFound_lock (t : Tables ι) (segs : List Seg) (empty i : Fin 32) :
    (igetFound t segs empty i).1.lock = t.lock := by
  unfold igetFound
  dsimp only
  split <;> rfl

theorem goOn_fair (hq : ∀ i, t.lock i = some p → Top i (q.seg :: segs)) (h : goOn p t segs q = some (t', segs')) :
    Fair p t t' segs' := by
  have hnone : (∀ i, ¬ q.Holds i) → ∀ i, t.lock i ≠ some p := fun hn i hi => hn i (hq i hi).1
  have hsame : ∀ {segs'}, (∀ i, ¬ q.Holds i) → Fair p t t segs' := fun hn => .looser (hnone hn) fun _ _ h => h
  have hclear : ∀ {i n segs'}, (∀ i, ¬ q.Holds i) → Fair p t (t.clear i n) segs' := fun hn =>
    .looser (hnone hn) fun j r hj => (setLock_none hj).2
  cases q with
  | syncInodes k =>
    dsimp only [goOn] at h
    split_ifs at h
    all_goals cases h; exact hsame nofun
  | lockInode write i =>
    dsimp only [goOn] at h
    split_ifs at h with hl hw
    · cases h; exact hsame nofun
    · cases h
      refine ⟨fun j r hr hj => ?_, fun j hj => ?_⟩
      · obtain ⟨-, rfl⟩ | ⟨-, hj⟩ := setLock_some hj
        · exact absurd rfl hr
        · exact hj
      · obtain ⟨rfl, -⟩ | ⟨-, hj⟩ := setLock_some hj
        · exact ⟨rfl, nofun⟩
        · exact absurd hj (hnone nofun j)
  | getSuper write i =>
    dsimp only [goOn] at h
    split at h
    · cases h
    split_ifs at h
    cases h
    exact ⟨fun j r _ hj => hj, fun j hj => ⟨(hq j hj).1, callGetblk_inBread _ _ (inBread_cons rfl nofun)⟩⟩
  | brelse i =>
    cases h
    refine ⟨fun j r _ hj => (setLock_none hj).2, fun j hj => ?_⟩
    obtain ⟨hne, hj⟩ := setLock_none hj
    exact absurd (hq j hj).1.symm hne
  | emptyScan =>
    dsimp only [goOn] at h
    split at h
    · cases h
    · cases h; exact .looser (hnone nofun) fun _ _ h => h
  | emptyWait i =>
    dsimp only [goOn] at h
    split_ifs at h
    · cases h; exact hsame nofun
    · cases h; exact hsame nofun
    · cases h; exact hclear nofun
  | igetLoop empty dev nr k =>
    dsimp only [goOn] at h
    split_ifs at h
    · cases h; exact hsame nofun
    · cases h; exact hsame nofun
    · cases h; exact .looser (hnone nofun) fun _ _ h => h
  | igetWait empty dev nr i =>
    dsimp only [goOn] at h
    split_ifs at h
    · cases h; exact hsame nofun
    · have hl := igetFound_lock t segs empty i
      rw [Option.some.inj h] at hl
      exact .looser (hnone nofun) fun j r hj => hl ▸ hj
  | igetMounted empty k => cases h; exact hsame nofun
  | igetEnd i => cases h; exact hsame nofun
  | ret i =>
    dsimp only [goOn] at h
    split at h
    · cases h; exact hsame nofun
    · cases h; exact hsame nofun
    · cases h
  | iput i =>
    obtain ⟨-, rfl, -⟩ | ⟨-, rfl, -⟩ | ⟨-, rfl, -⟩ | ⟨-, h⟩ := goOn_iput h
    · exact .looser (hnone nofun) fun _ _ h => h
    · exact .looser (hnone nofun) fun _ _ h => h
    · exact hsame nofun
    · have hl := iputRepeat_lock t segs i
      rw [h] at hl
      exact .looser (hnone nofun) fun j r hj => hl ▸ hj
  | iputAgain i =>
    dsimp only [goOn] at h
    split_ifs at h
    have hl := iputRepeat_lock t segs i
    rw [Option.some.inj h] at hl
    exact .looser (hnone nofun) fun j r hj => hl ▸ hj
  | freeInode i =>
    dsimp only [goOn] at h
    split_ifs at h
    · cases h; exact hclear nofun
    split at h
    · cases h
    split_ifs at h
    cases h; exact hclear nofun
  | other => cases h
  | bread write i => cases h
  | iget dev nr => cases h

theorem gotBuffer_fair {r : Ref} (hq : ∀ i, t.lock i = some p → Top i (⟨[.ret (some r)], q⟩ :: segs))
    (h : gotBuffer c t segs r q = some (x, t', segs')) : Fair p t t' segs' := by
  cases q with
  | bread write i =>
    have hmine : ∀ j, t.lock j = some p → Top j (⟨[.brelse r], .brelse i⟩ :: segs) := fun j hj =>
      ⟨(hq j hj).1, inBread_cons rfl nofun⟩
    cases write with
    | true => cases h; exact ⟨fun j r _ hj => hj, hmine⟩
    | false => cases h; exact ⟨fun j r _ hj => hj, hmine⟩
  | _ => cases h

theorem not_top_work {held : List Ref} (i : Fin 32) : ¬ Top i (⟨.work held :: bufs, q⟩ :: segs) := fun h =>
  absurd (h.2 _ List.mem_cons_self) nofun

theorem callsSync_work (h : callsSync bufs = some bufs') : ∃ st, bufs = .work [] :: st := by
  unfold callsSync at h
  split at h
  · exact ⟨_, rfl⟩
  · exact ⟨_, rfl⟩
  · cases h

/-! ## Every run -/

variable {σ σ' : Sys ι}

/-- Where the top segment cannot hold a lock the process has none. -/
theorem Local.fair (hl : Local σ) (hn : ∀ i, ¬ Top i (σ.stack σ.cur)) (segs' : List Seg) : Fair σ.cur σ.t σ.t segs' :=
  .looser (fun i hi => hn i (hl _ i hi)) fun _ _ h => h

theorem Outside.not_top (h : σ.Outside) (i : Fin 32) : ¬ Top i (σ.stack σ.cur) := by
  obtain ⟨held, bufs, st, hs, -⟩ := h
  rw [hs]
  exact not_top_work i

variable [DecidableEq ι]

/-- The running process takes its segments to `segs'`, and has what locks it had. -/
theorem Local.setTop (hl : Local σ) (hf : Fair σ.cur σ.t t' segs') (c : Cache) :
    Local { σ.setTop segs' with c := c, t := t' } := by
  intro p i hi
  change Top i (Function.update σ.stack σ.cur segs' p)
  by_cases hp : p = σ.cur
  · subst hp
    rw [Function.update_self]
    exact hf.mine i hi
  · rw [Function.update_of_ne hp]
    exact hl p i (hf.others i p hp hi)

theorem Local.step {e : Event ι} (hl : Local σ) (hc : NoFlush σ e) (h : Sys.Step σ e σ') : Local σ' := by
  cases h with
  | frames hs hsync he =>
    rename_i bufs bufs' q st a x
    refine hl.setTop ⟨fun j r _ hj => hj, fun i hi => ?_⟩ _
    have ht := hl _ i hi
    rw [hs] at ht
    refine ⟨ht.1, exec_inBread ht.2 (fun hf => ?_) he⟩
    have ha : a = .go := by
      obtain ⟨dev, block, b, st, rfl, -⟩ := hf
      cases a with
      | go => rfl
      | _ => cases he
    exact hc bufs q st (by rw [ha]) hs hf i hi
  | sync hs hb =>
    obtain ⟨st, rfl⟩ := callsSync_work hb
    exact hl.setTop (hl.fair (fun i => by rw [hs]; exact not_top_work i) _) _
  | place hs hg => exact hl.setTop (goOn_fair (fun i hi => hs ▸ hl _ i hi) hg) _
  | value hs hg => exact hl.setTop (gotBuffer_fair (fun i hi => hs ▸ hl _ i hi) hg) _
  | call k ho _ => exact hl.setTop (hl.fair (Outside.not_top ho) _) _
  | edit i x ho => exact hl
  | editSuper k x ho => exact hl
  | map b data ho hn => exact hl
  | back hs => exact hl.setTop (hl.fair (fun i => by rw [hs]; exact not_top_work i) _) _
  | switch hs hz => exact hl
  | sector h => exact hl
  | endRequest h => exact hl

theorem reachable_local {n : Nat} (hr : ((lockSystem ι n).restrict NoFlush).Reachable σ) : Local σ := by
  refine hr.invariant (fun σ h p i hi => ?_) fun σ e σ' _ hl hstep => hl.step hstep.1 hstep.2
  rw [h.2.2.1] at hi
  cases hi

/-- In a run in which no process that has set an `i_lock` comes to flush a dirty buffer in `getblk`,
    no process sleeps in `wait_on_inode` or `lock_inode` for an inode it has locked itself. -/
theorem no_self_deadlock {n : Nat} (hr : ((lockSystem ι n).restrict NoFlush).Reachable σ) {p : ι} {i : Fin 32}
    (h : AsleepOn σ p i) : σ.t.lock i ≠ some p := by
  obtain ⟨q, st, hs, hw, -⟩ := h
  intro hi
  have ht := reachable_local hr p i hi
  rw [hs] at ht
  exact absurd hw (by rw [ht.1.waits]; nofun)

/-! ## Runs on one buffer -/

/-- The next state, for the steps of the two runs. -/
def Sys.next (σ : Sys ι) : Event ι → Option (Sys ι)
  | .frames a => match σ.stack σ.cur with
    | ⟨bufs, q⟩ :: st =>
      if (callsSync bufs).isNone then
        (exec σ.c bufs a).map fun r => { σ.setTop (⟨r.2, q⟩ :: st) with c := σ.c.act r.1 }
      else none
    | [] => none
  | .sync => match σ.stack σ.cur with
    | ⟨bufs, q⟩ :: st => (callsSync bufs).map fun bufs' => σ.setTop ((Place.syncInodes 0).seg :: ⟨bufs', q⟩ :: st)
    | [] => none
  | .place => match σ.stack σ.cur with
    | ⟨[], q⟩ :: st => (goOn σ.cur σ.t st q).map fun r => { σ.setTop r.2 with t := r.1 }
    | _ => none
  | .call (.iget (dev + 1) nr) => match σ.stack σ.cur with
    | [⟨[.work []], .other⟩] => some (σ.setTop ((Call.iget (dev + 1) nr).segs ++ σ.stack σ.cur))
    | _ => none
  | .editSuper k x => match σ.stack σ.cur with
    | [⟨[.work []], .other⟩] => some { σ with t := { σ.t with super := Function.update σ.t.super k x } }
    | _ => none
  | .switch p => match σ.stack σ.cur with
    | ⟨.breadWait r :: _, _⟩ :: _ => if (σ.c.buf r.i).lock then some { σ with cur := p } else none
    | _ => none
  | _ => none

theorem next_step {e : Event ι} (h : σ.next e = some σ') : Sys.Step σ e σ' := by
  unfold Sys.next at h
  split at h
  · split at h
    · rename_i hs
      split_ifs at h with hn
      obtain ⟨r, hr, rfl⟩ := Option.map_eq_some_iff.mp h
      exact .frames hs (Option.isNone_iff_eq_none.mp hn) hr
    · cases h
  · split at h
    · rename_i hs
      obtain ⟨bufs', hb, rfl⟩ := Option.map_eq_some_iff.mp h
      exact .sync hs hb
    · cases h
  · split at h
    · rename_i hs
      obtain ⟨r, hr, rfl⟩ := Option.map_eq_some_iff.mp h
      exact .place hs hr
    · cases h
  · split at h
    · rename_i hs
      cases h
      exact .call _ ⟨[], [], [], hs, rfl⟩ nofun
    · cases h
  · split at h
    · rename_i hs
      cases h
      exact .editSuper _ _ ⟨[], [], [], hs, rfl⟩
    · cases h
  · split at h
    · rename_i hs
      split_ifs at h with hl
      cases h
      exact .switch hs ⟨rfl, hl⟩
    · cases h
  · cases h

/-- One step in which `getblk` does not flush. -/
def Sys.calmNext (σ : Sys ι) (e : Event ι) : Option (Sys ι) :=
  match σ.stack σ.cur with
  | ⟨.getblkWait _ _ b :: _, _⟩ :: _ => if (σ.c.buf b).dirt then none else σ.next e
  | _ => σ.next e

theorem calmNext_step {e : Event ι} (h : σ.calmNext e = some σ') : NoFlush σ e ∧ Sys.Step σ e σ' := by
  unfold Sys.calmNext at h
  split at h
  · rename_i hs
    split_ifs at h with hd
    refine ⟨fun bufs q st _ hst hf => ?_, next_step h⟩
    obtain ⟨_, _, _, _, rfl, -, -, hdirt⟩ := hf
    cases hs.symm.trans hst
    exact absurd hdirt hd
  · rename_i hs
    refine ⟨fun bufs q st _ hst hf => ?_, next_step h⟩
    obtain ⟨_, _, _, _, rfl, -⟩ := hf
    exact absurd hst (hs _ _ _ _ _ _)

/-- One buffer and empty tables. -/
def start (ι : Type) (p : ι) : Sys ι where
  c := bufferInit 1 (fun _ => ⟨0, 0, false, false, 0, false, fun _ => 0⟩) (fun _ _ _ => 0) fun _ => true
  t := ⟨fun _ => Inode.zero, fun _ => none, fun _ => ⟨0, 0, 0, 0, none, false⟩, 0⟩
  stack _ := [⟨[.work []], .other⟩]
  cur := p

theorem init_start (p : ι) : (lockSystem ι 1).init (start ι p) := ⟨⟨_, _, _, rfl⟩, rfl, rfl, fun _ => rfl⟩

/-- The inode process `p` sleeps for. -/
def Sys.sleepsOn (σ : Sys ι) (p : ι) : Option (Fin 32) :=
  match σ.stack p with
  | ⟨[], q⟩ :: _ => q.waits.filter fun i => (σ.t.lock i).isSome
  | _ => none

omit [DecidableEq ι] in
theorem sleepsOn_asleep {i : Fin 32} (h : σ.sleepsOn p = some i) : AsleepOn σ p i := by
  unfold Sys.sleepsOn at h
  split at h
  · rename_i hs
    obtain ⟨hw, hl⟩ := Option.filter_eq_some_iff.mp h
    exact ⟨_, _, hs, hw, hl⟩
  · cases h

def hdSuper : Super := ⟨769, 64, 1, 1, none, false⟩

/-- `iget(769,1)` up to the `bread` of `read_inode`, when the inode is not in the table. -/
def igetEvents : List (Event ι) := .call (.iget 769 1) :: List.replicate 38 .place

/-- One process reads an inode and another looks for it. -/
def twoIgets : List (Event (Fin 2)) := List.flatten
  [[.editSuper 0 hdSuper], igetEvents, List.replicate 8 (.frames .go), [.switch 1, .call (.iget 769 1)],
    List.replicate 5 .place]

/-- A process changes a block, lets it go, and reads an inode. -/
def dirtyIget : List (Event Unit) := List.flatten
  [[.editSuper 0 hdSuper, .frames (.getblk 769 5)], List.replicate 5 (.frames .go),
    [.frames (.modify ⟨0, 769, 5⟩ (fun _ => 0) true), .frames (.brelse ⟨0, 769, 5⟩), .frames .go], igetEvents,
    List.replicate 9 (.frames .go), [.sync, .place]]

theorem no_self_deadlock_two_igets : ∃ σ : Sys (Fin 2), AsleepOn σ 1 1 ∧ σ.t.lock 1 ≠ some 1 := by
  have h1 : ((twoIgets.foldlM Sys.calmNext (start (Fin 2) 0)).map fun σ => σ.sleepsOn 1) = some (some 1) := by
    decide +kernel
  obtain ⟨σ, hσ, hs⟩ := Option.map_eq_some_iff.mp h1
  have hr : ((lockSystem (Fin 2) 1).restrict NoFlush).Reachable σ := by
    have hinit : ((lockSystem (Fin 2) 1).restrict NoFlush).Reachable (start (Fin 2) 0) := .init (init_start 0)
    exact hinit.foldlM (fun _ e _ h => ⟨e, calmNext_step h⟩) twoIgets hσ
  exact ⟨σ, sleepsOn_asleep hs, no_self_deadlock hr (sleepsOn_asleep hs)⟩

/-- `read_inode` locks the inode, its `getblk` finds only a dirty buffer, and `sync_inodes` waits
    for the inode. -/
theorem read_inode_waits_for_itself : ∃ σ : Sys Unit, (lockSystem Unit 1).Reachable σ ∧ AsleepOn σ () 1 ∧
    σ.t.lock 1 = some () := by
  have h1 : ((dirtyIget.foldlM Sys.next (start Unit ())).map fun σ => (σ.sleepsOn (), σ.t.lock 1)) =
      some (some 1, some ()) := by decide +kernel
  obtain ⟨σ, hσ, hs⟩ := Option.map_eq_some_iff.mp h1
  have hr : (lockSystem Unit 1).Reachable σ := by
    have hinit : (lockSystem Unit 1).Reachable (start Unit ()) := .init (init_start ())
    exact hinit.foldlM (fun _ e _ h => ⟨e, next_step h⟩) dirtyIget hσ
  obtain ⟨hs, hl⟩ := Prod.mk.inj hs
  exact ⟨σ, hr, sleepsOn_asleep hs, hl⟩

end Linux011.Fs.Locks
