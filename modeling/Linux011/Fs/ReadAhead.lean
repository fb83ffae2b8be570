/-
  fs/buffer.c: a call of `breada` on its own, from any cache that the processes can reach, with the
  interrupts of the driver. The call ends with the buffer of the first block, or NULL if it could not
  be read, and `b_count` is as before but for that buffer (`read_ahead`).

  For a further block the code calls `ll_rw_block(READA,bh)`, and `bh` is the buffer of the first
  block: no further block is ever read ahead.
-/
import Linux011.Fs.Identity

namespace Linux011.Fs

open Linux011.Lib

/-- The call `breada(dev,first,rest..,-1)`, made in the frames `base`. -/
def callBreada (dev first : ℕ) (rest : List ℕ) (base : List Frame) : List Frame := callGetblk dev first (.breada rest :: base)

/-- A read into buffer `i` has been queued. -/
def Queued (l : List Action) (i : ℕ) : Prop := ∃ slot, .addRequest slot false i ∈ l

/-- There is a driver for the device. -/
def Cache.HasDriver (c : Cache) (dev : ℕ) : Prop := dev / 256 < nrBlkDev ∧ c.driver (dev / 256) = true

/-- A read finds a free request. -/
def Cache.SlotFree (c : Cache) : Prop := ∃ k < nrRequest, ∀ q ∈ c.req, q.slot ≠ k

variable {ι : Type} [DecidableEq ι] {σ σ' τ : Sys ι}

/-- The current process goes on alone until its frames meet `stop`, with interrupts of the driver at any
    time; and what the process does to the cache, in order. -/
inductive Runs (stop : List Frame → Prop) (σ : Sys ι) : List Action → Sys ι → Prop
  | refl : Runs stop σ [] σ
  | run {l : List Action} {τ : Sys ι} {a : Act} {x : Action} {st : List Frame} :
      Runs stop σ l τ → ¬ stop (τ.stack τ.cur) → Roomy τ (.run a) → exec τ.c (τ.stack τ.cur) a = some (x, st) →
      Runs stop σ (l ++ [x]) { τ with c := τ.c.act x, stack := Function.update τ.stack τ.cur st }
  | sector {l : List Action} {τ : Sys ι} {m : ℕ} {c : Cache} :
      Runs stop σ l τ → τ.c.sector m = some c → Runs stop σ l { τ with c := c }
  | endRequest {l : List Action} {τ : Sys ι} {m : ℕ} {uptodate : Bool} {c : Cache} :
      Runs stop σ l τ → τ.c.endRequest m uptodate = some c → Runs stop σ l { τ with c := c }

variable {c c' : Cache} {st st' : List Frame} {a : Act} {x : Action} {i : ℕ}

/-! ## What a step does to the frames -/

/-- The calls of `make_request` for buffer `i` that have locked it. -/
def requests (i : ℕ) : List Frame → ℕ
  | [] => 0
  | .request _ _ j :: st => requests i st + if j = i then 1 else 0
  | _ :: st => requests i st

/-- The action has to do neither with locks nor with requests. -/
def Action.Plain : Action → Prop
  | .lock _ | .unlock _ | .addRequest _ _ _ => False
  | _ => True

/-- A step of the code leaves the frames below its own, and locks are taken and given up in
    `make_request` only. -/
inductive StackStep (c : Cache) (f : Frame) (below : List Frame) : Action → List Frame → Prop
  | plain {x : Action} {st' : List Frame} : x.Plain → below <:+ st' →
      (∀ i, requests i st' = requests i (f :: below)) → StackStep c f below x st'
  | lock {write ahead : Bool} {i : ℕ} : f = .lockBuffer write ahead i → (c.buf i).lock = false →
      StackStep c f below (.lock i) (.request write ahead i :: below)
  | queue {write ahead : Bool} {i slot : ℕ} : f = .request write ahead i → StackStep c f below (.addRequest slot write i) below
  | unlock {write ahead : Bool} {i : ℕ} : f = .request write ahead i → StackStep c f below (.unlock i) below

theorem StackStep.suffix {f : Frame} {below : List Frame} (h : StackStep c f below x st') : below <:+ st' := by
  cases h with
  | plain _ h _ => exact h
  | lock => exact List.suffix_cons ..
  | queue => exact List.suffix_refl _
  | unlock => exact List.suffix_refl _

theorem workStep_moved {held : List Ref} (h : workStep c held st a = some (x, st')) : StackStep c (.work held) st x st' := by
  have htwo : ∀ f g : Frame, st <:+ f :: g :: st := fun f g => ⟨[f, g], rfl⟩
  have hthree : ∀ f g k : Frame, st <:+ f :: g :: k :: st := fun f g k => ⟨[f, g, k], rfl⟩
  unfold workStep at h
  cases a with
  | go | found | full | pageFault => cases h
  | getblk | breada | bread =>
    dsimp only at h
    split_ifs at h
    cases h
    first
      | exact .plain trivial (hthree ..) fun _ => rfl
      | exact .plain trivial ⟨[_, _, _, _], rfl⟩ fun _ => rfl
  | getHashTable | syncDev => cases h; exact .plain trivial (htwo ..) fun _ => rfl
  | sysSync => cases h; exact .plain trivial (hthree ..) fun _ => rfl
  | modify =>
    dsimp only at h
    split_ifs at h
    cases h
    exact .plain trivial (List.suffix_cons ..) fun _ => rfl
  | done =>
    dsimp only at h
    split_ifs at h
    cases h
    exact .plain trivial (List.suffix_refl _) fun _ => rfl
  | brelse | fileWrite =>
    dsimp only at h
    split_ifs at h
    cases h
    exact .plain trivial (htwo ..) fun _ => rfl

theorem deliver_moved {v : Option Ref} {f : Frame} (h : deliver c v f st = some (x, st')) : StackStep c f st x st' := by
  have hone : ∀ {f g : Frame} {x : Action}, x.Plain → (∀ i, requests i (g :: st) = requests i (f :: st)) → StackStep c f st x (g :: st) :=
    fun hx hr => .plain hx (List.suffix_cons ..) hr
  cases f with
  | work => cases h; exact hone trivial fun _ => rfl
  | getblk =>
    cases v with
    | some r => cases h; exact hone trivial fun _ => rfl
    | none =>
      dsimp only [deliver] at h
      split at h <;> (cases h; exact hone trivial fun _ => rfl)
  | bread | breada =>
    cases v with
    | none => cases h
    | some r =>
      dsimp only [deliver] at h
      split_ifs at h
      · cases h; exact hone trivial fun _ => rfl
      · cases h; exact .plain trivial ⟨[_, _], rfl⟩ fun _ => rfl
  | breadaGot =>
    cases v with
    | none => cases h; exact hone trivial fun _ => rfl
    | some r =>
      dsimp only [deliver] at h
      split_ifs at h
      · cases h; exact hone trivial fun _ => rfl
      · cases h; exact .plain trivial ⟨[_, _], rfl⟩ fun _ => rfl
  | fileRead =>
    cases v with
    | none => cases h; exact .plain trivial (List.suffix_refl _) fun _ => rfl
    | some r => cases h; exact hone trivial fun _ => rfl
  | _ => cases v <;> cases h

theorem goStep_moved {f : Frame} (hf : ∀ v, f ≠ .ret v) (h : goStep c st f = some (x, st')) : StackStep c f st x st' := by
  have hzero : ∀ {f : Frame} {x : Action}, x.Plain → (∀ i, requests i st = requests i (f :: st)) → StackStep c f st x st :=
    fun hx hr => .plain hx (List.suffix_refl _) hr
  have hone : ∀ {f g : Frame} {x : Action}, x.Plain → (∀ i, requests i (g :: st) = requests i (f :: st)) → StackStep c f st x (g :: st) :=
    fun hx hr => .plain hx (List.suffix_cons ..) hr
  have htwo : ∀ {f g k : Frame} {x : Action}, x.Plain → (∀ i, requests i (g :: k :: st) = requests i (f :: st)) →
      StackStep c f st x (g :: k :: st) := fun hx hr => .plain hx ⟨[_, _], rfl⟩ hr
  cases f with
  | ret v => exact absurd rfl (hf v)
  | work | getblk | bread | breada | breadaGot | fileCreate | fileRead => cases h
  | getblkSleep => cases h; exact htwo trivial fun _ => rfl
  | breadaDrop => cases h; exact hone trivial fun _ => rfl
  | getHash =>
    dsimp only [goStep] at h
    split at h <;> (cases h; exact hone trivial fun _ => rfl)
  | getblkWait =>
    dsimp only [goStep, getblkStep] at h
    split_ifs at h <;> (cases h; exact htwo trivial fun _ => rfl)
  | lockBuffer write ahead i =>
    dsimp only [goStep, lockStep] at h
    split_ifs at h with hl
    · cases h; exact hzero trivial fun _ => rfl
    · cases h; exact .lock rfl (by simpa using hl)
  | request write ahead i =>
    dsimp only [goStep] at h
    split at h
    · cases h; exact .queue rfl
    · split_ifs at h
      cases h; exact .unlock rfl
  | breadaNext r rest =>
    cases rest with
    | nil => cases h; exact hone trivial fun _ => rfl
    | cons b rest => cases h; exact .plain trivial ⟨[_, _, _], rfl⟩ fun _ => rfl
  | fileCopy r off chunk =>
    cases chunk with
    | nil => cases h; exact htwo trivial fun _ => rfl
    | cons v vs => cases h; exact hone trivial fun _ => rfl
  | llRw =>
    dsimp only [goStep, llRwStep] at h
    split_ifs at h
    · cases h; exact hzero trivial fun _ => rfl
    · cases h; exact hzero trivial fun _ => rfl
    · cases h; exact hone trivial fun _ => rfl
  | _ =>
    dsimp only [goStep] at h
    split_ifs at h <;> cases h
    all_goals first
      | exact hzero trivial fun _ => rfl
      | exact hone trivial fun _ => rfl
      | exact htwo trivial fun _ => rfl

/-- A step of a process: its top frame moves on, or a value is returned to the frame below. -/
theorem exec_moved (h : exec c st a = some (x, st')) :
    (∃ f below, st = f :: below ∧ (∀ v, f ≠ .ret v) ∧ StackStep c f below x st') ∨
    ∃ v f below, st = .ret v :: f :: below ∧ deliver c v f below = some (x, st') ∧ StackStep c f below x st' := by
  rcases exec_cases h with ⟨held, st1, rfl, hw⟩ | ⟨f, st1, rfl, hg⟩ | ⟨dev, pos, buf, st1, rfl, rfl, rfl | ⟨block, rfl⟩⟩ |
    ⟨r, off, chunk, dev, pos, buf, st1, rfl, rfl, rfl⟩
  · exact Or.inl ⟨_, _, rfl, nofun, workStep_moved hw⟩
  · by_cases hf : ∃ v, f = .ret v
    · obtain ⟨v, rfl⟩ := hf
      cases st1 with
      | nil => cases hg
      | cons f st1 => exact Or.inr ⟨v, f, st1, rfl, hg, deliver_moved hg⟩
    · exact Or.inl ⟨f, st1, rfl, fun v hv => hf ⟨v, hv⟩, goStep_moved (fun v hv => hf ⟨v, hv⟩) hg⟩
  · exact Or.inl ⟨_, _, rfl, nofun, .plain trivial (List.suffix_refl _) fun _ => rfl⟩
  · exact Or.inl ⟨_, _, rfl, nofun, .plain trivial ⟨[_, _, _, _], rfl⟩ fun _ => rfl⟩
  · exact Or.inl ⟨_, _, rfl, nofun, .plain trivial ⟨[_, _], rfl⟩ fun _ => rfl⟩

/-! ## Locked buffers -/

/-- The requests for buffer `i`. -/
def Cache.owners (c : Cache) (i : ℕ) : ℕ := (c.req.map Req.i).count i

/-- The action takes no lock and makes no request. -/
theorem Action.Plain.keeps (hx : x.Plain) (c : Cache) (i : ℕ) :
    (c.act x).req = c.req ∧ ((c.act x).buf i).lock = (c.buf i).lock := by
  have hset : ∀ (j : ℕ) (g : Buf → Buf), (g (c.buf j)).lock = (c.buf j).lock → ((c.setBuf j g).buf i).lock = (c.buf i).lock := by
    intro j g hg
    by_cases hi : i = j
    · subst hi; simpa [Cache.setBuf] using hg
    · simp [Cache.setBuf, hi]
  cases x with
  | lock | unlock | addRequest => exact hx.elim
  | skip => exact ⟨rfl, rfl⟩
  | reassign j dev block =>
    refine ⟨?_, ?_⟩
    · show (c.reassign j dev block).req = c.req
      unfold Cache.reassign Cache.insertIntoQueues
      dsimp only
      split_ifs <;> rfl
    · show ((c.reassign j dev block).buf i).lock = _
      rw [reassign_buf]
      by_cases hi : i = j
      · subst hi; simp
      · simp [hi]
  | inc | dec | setDirt | poke | modify =>
    refine ⟨rfl, ?_⟩
    dsimp only [Cache.act]
    exact hset _ _ rfl

/-- Who takes a lock owns it, and who gives it up has owned it. -/
theorem exec_owners (h : exec c st a = some (x, st')) (i : ℕ) :
    (c.act x).owners i + requests i st' + (c.buf i).lock.toNat ≤ c.owners i + requests i st + ((c.act x).buf i).lock.toNat := by
  obtain ⟨f, below, hst, hm⟩ : ∃ f below, requests i st = requests i (f :: below) ∧ StackStep c f below x st' := by
    rcases exec_moved h with ⟨f, below, rfl, -, hm⟩ | ⟨v, f, below, rfl, -, hm⟩
    · exact ⟨f, below, rfl, hm⟩
    · exact ⟨f, below, rfl, hm⟩
  rw [hst]
  cases hm with
  | plain hx _ hr => rw [Cache.owners, (hx.keeps c i).1, (hx.keeps c i).2, hr]; exact le_rfl
  | @lock write ahead j hf hl =>
    subst hf
    have hreq : (c.act (.lock j)).owners i = c.owners i := rfl
    rw [hreq]
    by_cases hi : j = i
    · subst hi
      simp [requests, Cache.act, Cache.setBuf, hl]
      omega
    · have hi' : i ≠ j := fun e => hi e.symm
      simp [requests, Cache.act, Cache.setBuf, hi, hi']
  | @queue write ahead j slot hf =>
    subst hf
    have hlock : ((c.act (.addRequest slot write j)).buf i).lock = (c.buf i).lock := by
      by_cases hi : i = j
      · subst hi; simp [Cache.act, Cache.addRequest]
      · simp [Cache.act, Cache.addRequest, hi]
    rw [hlock]
    simp only [Cache.act, Cache.addRequest, Cache.owners, List.map_cons, List.count_cons, requests, beq_iff_eq]
    omega
  | @unlock write ahead j hf =>
    subst hf
    have hreq : (c.act (.unlock j)).owners i = c.owners i := rfl
    rw [hreq]
    by_cases hi : j = i
    · subst hi
      have := Bool.toNat_le (c.buf j).lock
      simp [requests, Cache.act, Cache.setBuf]
      omega
    · have hi' : i ≠ j := fun e => hi e.symm
      simp [requests, Cache.act, Cache.setBuf, hi, hi']

/-- What an interrupt of the driver does: it unlocks a buffer when it ends a request for it, and only
    changes buffers that there is a request for. -/
structure Interrupt (c c' : Cache) : Prop where
  owners : ∀ i, c'.owners i + (c.buf i).lock.toNat ≤ c.owners i + (c'.buf i).lock.toNat
  unlocked : ∀ i, (c.buf i).lock = false → (c'.buf i).lock = false
  uptodate : ∀ i, c.owners i = 0 → (c'.buf i).uptodate = (c.buf i).uptodate
  dev : ∀ i, (c'.buf i).dev = (c.buf i).dev
  driver : c'.driver = c.driver
  slotFree : c.SlotFree → c'.SlotFree

theorem sector_interrupt {m : ℕ} (h : c.sector m = some c') : Interrupt c c' := by
  have hdev := (sector_keeps h).1.dev
  unfold Cache.sector at h
  split at h
  · cases h
  · rename_i r hr
    split_ifs at h
    cases h
    obtain ⟨hm, rfl⟩ := List.getElem?_eq_some_iff.mp hr
    have hmap : ∀ i, ((c.req.set m { c.req[m] with done := c.req[m].done + 1 }).map Req.i).count i = c.owners i := fun i => by
      have hm' : m < (c.req.map Req.i).length := by simpa using hm
      have hi : c.req[m].i = (c.req.map Req.i)[m] := by simp
      rw [List.map_set, hi, List.set_getElem_self]
      rfl
    have hbuf : ∀ i, ((c.moveSector c.req[m]).buf i).lock = (c.buf i).lock ∧
        ((c.moveSector c.req[m]).buf i).uptodate = (c.buf i).uptodate := fun i => by
      unfold Cache.moveSector
      dsimp only
      split_ifs
      · exact ⟨rfl, rfl⟩
      · by_cases hi : i = c.req[m].i
        · subst hi; simp [Cache.setBuf]
        · simp [Cache.setBuf, hi]
    have hdriver : (c.moveSector c.req[m]).driver = c.driver := by
      unfold Cache.moveSector
      dsimp only
      split_ifs <;> rfl
    refine ⟨fun i => ?_, fun i hl => (hbuf i).1.trans hl, fun i _ => (hbuf i).2, hdev, hdriver, fun hrun => ?_⟩
    · exact (congrArg₂ (· + ·) (hmap i) (congrArg Bool.toNat (hbuf i).1.symm)).le
    · obtain ⟨k, hk, hf⟩ := hrun
      refine ⟨k, hk, fun q hq => ?_⟩
      obtain hq | rfl := List.mem_or_eq_of_mem_set hq
      · exact hf q hq
      · exact hf c.req[m] (List.getElem_mem hm)

theorem endRequest_interrupt {m : ℕ} {uptodate : Bool} (h : c.endRequest m uptodate = some c') : Interrupt c c' := by
  have hdev := (endRequest_keeps h).1.dev
  unfold Cache.endRequest at h
  split at h
  · cases h
  · rename_i r hr
    split_ifs at h
    cases h
    have hcount : ∀ i, ((c.req.eraseIdx m).map Req.i).count i + (if r.i = i then 1 else 0) = c.owners i := by
      intro i
      obtain ⟨hm, rfl⟩ := List.getElem?_eq_some_iff.mp hr
      rw [Cache.owners, ← ((List.getElem_cons_eraseIdx_perm hm).map Req.i).count_eq i, List.map_cons, List.count_cons]
      simp
    refine ⟨fun i => ?_, fun i hl => ?_, fun i h0 => ?_, hdev, rfl, fun ⟨k, hk, hf⟩ => ⟨k, hk, fun q hq => hf q ?_⟩⟩
    · rw [← hcount i]
      dsimp only [Cache.owners]
      by_cases hi : i = r.i
      · subst hi
        have := Bool.toNat_le (c.buf r.i).lock
        simp [Cache.setBuf]
        omega
      · have hi' : r.i ≠ i := fun e => hi e.symm
        simp [Cache.setBuf, hi, hi']
    · by_cases hi : i = r.i
      · subst hi; simp [Cache.setBuf]
      · simpa [Cache.setBuf, hi] using hl
    · have hi : i ≠ r.i := by
        rintro rfl
        have := hcount r.i
        simp [h0] at this
      simp [Cache.setBuf, hi]
    · exact List.mem_of_mem_eraseIdx hq

variable [Fintype ι]

/-- A locked buffer belongs to one request or to one process in `make_request`, an unlocked one to none. -/
def Owned (σ : Sys ι) : Prop := ∀ i, σ.c.owners i + ∑ p, requests i (σ.stack p) ≤ (σ.c.buf i).lock.toNat

theorem Owned.run (ho : Owned σ) (h : exec σ.c (σ.stack σ.cur) a = some (x, st)) :
    Owned { σ with c := σ.c.act x, stack := Function.update σ.stack σ.cur st } := by
  intro i
  have hsum := sum_update σ.stack (requests i) σ.cur st
  have hstep := exec_owners h i
  have hi := ho i
  dsimp only at hsum ⊢
  omega

omit [DecidableEq ι] in
theorem Owned.interrupt (ho : Owned σ) (h : Interrupt σ.c c) : Owned { σ with c := c } := by
  intro i
  have hi := ho i
  have hstep := h.owners i
  dsimp only
  omega

theorem owned {n : ℕ} (h : ((procSystem ι n).restrict Roomy).Reachable σ) : Owned σ := by
  refine h.invariant (fun σ hi => ?_) fun σ e σ' _ ho hs => ?_
  · obtain ⟨⟨memory, disk, driver, hc⟩, hs⟩ := hi
    intro i
    have hnone : ∀ p, requests i (σ.stack p) = 0 := fun p => by rw [hs p]; rfl
    simp [hc, hnone, Cache.owners, bufferInit]
  · cases hs.2 with
    | run h => exact ho.run h
    | switch => exact ho
    | sector h => exact ho.interrupt (sector_interrupt h)
    | endRequest h => exact ho.interrupt (endRequest_interrupt h)

omit [DecidableEq ι] in
/-- The driver does not touch an unlocked buffer. -/
theorem Owned.unlocked (ho : Owned σ) (hl : (σ.c.buf i).lock = false) : σ.c.owners i = 0 := by
  have := ho i
  rw [hl] at this
  exact Nat.eq_zero_of_le_zero ((Nat.le_add_right ..).trans this)

/-! ## The call alone -/

omit [Fintype ι] in
theorem Runs.cur {stop : List Frame → Prop} {l : List Action} (h : Runs stop σ l τ) : τ.cur = σ.cur := by
  induction h with
  | refl => rfl
  | run _ _ _ _ ih => exact ih
  | sector _ _ ih => exact ih
  | endRequest _ _ ih => exact ih

omit [Fintype ι] in
theorem Runs.reachable {stop : List Frame → Prop} {l : List Action} {n : ℕ} (h : Runs stop σ l τ)
    (hr : ((procSystem ι n).restrict Roomy).Reachable σ) : ((procSystem ι n).restrict Roomy).Reachable τ := by
  induction h with
  | refl => exact hr
  | run _ _ hroom he ih => exact ih.step ⟨hroom, .run he⟩
  | @sector _ τ m c _ hs ih =>
    have hstep : ((procSystem ι n).restrict Roomy).step τ (.sector m) { τ with c := c } := ⟨trivial, .sector hs⟩
    exact ih.step hstep
  | @endRequest _ τ m uptodate c _ hs ih =>
    have hstep : ((procSystem ι n).restrict Roomy).step τ (.endRequest m uptodate) { τ with c := c } := ⟨trivial, .endRequest hs⟩
    exact ih.step hstep

omit [Fintype ι] in
/-- The other processes stay where they are. -/
theorem Runs.stack {stop : List Frame → Prop} {l : List Action} (h : Runs stop σ l τ) :
    τ.stack = Function.update σ.stack σ.cur (τ.stack τ.cur) := by
  induction h with
  | refl => exact (Function.update_eq_self ..).symm
  | run h _ _ _ ih =>
    dsimp only
    rw [ih, h.cur, Function.update_idem, Function.update_self]
  | sector _ _ ih => exact ih
  | endRequest _ _ ih => exact ih

/-- The induction over such a run: what is kept by the code, while it may go on, and by the driver. -/
theorem Runs.keeps {stop : List Frame → Prop} {l : List Action} {n : ℕ} (h : Runs stop σ l τ)
    (hr : ((procSystem ι n).restrict Roomy).Reachable σ) (P : List Action → Cache → List Frame → Prop)
    (h0 : P [] σ.c (σ.stack σ.cur))
    (hrun : ∀ l τ a x st, Runs stop σ l τ → P l τ.c (τ.stack τ.cur) → ¬ stop (τ.stack τ.cur) →
      exec τ.c (τ.stack τ.cur) a = some (x, st) → P (l ++ [x]) (τ.c.act x) st)
    (hint : ∀ l (τ : Sys ι) c, Owned τ → P l τ.c (τ.stack τ.cur) → Interrupt τ.c c → P l c (τ.stack τ.cur)) :
    P l τ.c (τ.stack τ.cur) := by
  induction h with
  | refl => exact h0
  | run h hstop _ he ih =>
    dsimp only
    rw [Function.update_self]
    exact hrun _ _ _ _ _ h ih hstop he
  | @sector l τ _ c h hs ih => exact hint l τ c (owned (h.reachable hr)) ih (sector_interrupt hs)
  | @endRequest l τ _ _ c h hs ih => exact hint l τ c (owned (h.reachable hr)) ih (endRequest_interrupt hs)

/-! ## Asking for a read -/

/-- A frame that can only go on. -/
def Frame.Goes : Frame → Prop
  | .work _ | .fileCreate _ _ _ | .fileCopy _ _ _ _ _ _ => False
  | _ => True

theorem exec_goes {f : Frame} (h : exec c (f :: st) a = some (x, st')) (hf : f.Goes) : goStep c st f = some (x, st') := by
  rcases exec_cases h with ⟨held, st1, e, -⟩ | ⟨g, st1, e, hg⟩ | ⟨dev, pos, buf, st1, e, -⟩ |
    ⟨r, off, chunk, dev, pos, buf, st1, e, -⟩
  · cases e; exact hf.elim
  · cases e; exact hg
  · cases e; exact hf.elim
  · cases e; exact hf.elim

theorem findSlot_none {n : ℕ} (h : c.findSlot n = none) (k : ℕ) (hk : k < n) : ∃ q ∈ c.req, q.slot = k := by
  induction n with
  | zero => exact absurd hk (Nat.not_lt_zero k)
  | succ n ih =>
    unfold Cache.findSlot at h
    split_ifs at h with hn
    obtain rfl | hk := Nat.eq_or_lt_of_le (Nat.le_of_lt_succ hk)
    · simpa using hn
    · exact ih h hk

/-- A call that has just got the buffer of `t`, in the frame `f`, asks for a read of buffer `i` if that of
    `t` is not up to date, and is then in the frame `g`; `c₀` is the cache before. -/
inductive Asking (c₀ : Cache) (t : Ref) (f g : Frame) (rw : Rw) (i : ℕ) (base : List Frame) :
    List Action → Cache → List Frame → Prop
  | got {l : List Action} {c : Cache} : (∀ slot j, .addRequest slot false j ∉ l) → (c.buf t.i).lock = false →
      (c.buf t.i).uptodate = false → c.SlotFree → c.driver = c₀.driver → (c.buf i).dev = (c₀.buf i).dev →
      Asking c₀ t f g rw i base l c (.ret (some t) :: f :: base)
  | asked {l : List Action} {c : Cache} : (∀ slot j, .addRequest slot false j ∉ l) → (c.buf t.i).lock = false →
      (c.buf t.i).uptodate = false → c.SlotFree → c.driver = c₀.driver → (c.buf i).dev = (c₀.buf i).dev →
      Asking c₀ t f g rw i base l c (.llRw rw i :: g :: base)
  | locking {l : List Action} {c : Cache} {ahead : Bool} : (∀ slot j, .addRequest slot false j ∉ l) →
      (c.buf t.i).uptodate = false → c.SlotFree → c₀.HasDriver (c₀.buf i).dev → (c.buf t.i).lock = false →
      Asking c₀ t f g rw i base l c (.lockBuffer false ahead i :: g :: base)
  | request {l : List Action} {c : Cache} {ahead : Bool} : (∀ slot j, .addRequest slot false j ∉ l) →
      c.SlotFree → c₀.HasDriver (c₀.buf i).dev → Asking c₀ t f g rw i base l c (.request false ahead i :: g :: base)
  | asked_for {l : List Action} {c : Cache} : (t.i = i → c₀.HasDriver (c₀.buf i).dev → Queued l i) →
      (∀ slot j, .addRequest slot false j ∈ l → j = i ∧ c₀.HasDriver (c₀.buf i).dev) →
      Asking c₀ t f g rw i base l c (g :: base)

variable {c₀ : Cache} {t : Ref} {f g : Frame} {rw : Rw} {base : List Frame} {l : List Action}

/-- Nothing more is put into the list of actions. -/
theorem not_queued (hx : ∀ slot j, x ≠ .addRequest slot false j) (hl : ∀ slot j, .addRequest slot false j ∉ l) (slot j : ℕ) :
    .addRequest slot false j ∉ l ++ [x] := by
  rw [List.mem_append, List.mem_singleton, not_or]
  exact ⟨hl slot j, fun e => hx slot j e.symm⟩

theorem Asking.run (hrw : rw = .read ∨ rw = .reada)
    (hf : ∀ c, deliver c (some t) f base =
      if (c.buf t.i).uptodate then some (.skip, g :: base) else some (.skip, .llRw rw i :: g :: base))
    (h : Asking c₀ t f g rw i base l c st) (hg : st ≠ g :: base) (he : exec c st a = some (x, st')) :
    Asking c₀ t f g rw i base (l ++ [x]) (c.act x) st' := by
  cases h with
  | got hl hlock hu hs hd hdev =>
    have hgo := exec_goes he trivial
    dsimp only [goStep] at hgo
    rw [hf, hu] at hgo
    cases hgo
    exact .asked (not_queued (by simp) hl) hlock hu hs hd hdev
  | asked hl hlock hu hs hd hdev =>
    have hgo := exec_goes he trivial
    have hwrite : decide (rw = .write ∨ rw = .writea) = false := by obtain rfl | rfl := hrw <;> rfl
    dsimp only [goStep, llRwStep] at hgo
    rw [hdev, hd, hwrite] at hgo
    split_ifs at hgo with hmajor hahead
    · cases hgo
      refine .asked_for (fun _ hdr => ?_) fun slot j hm => absurd hm (not_queued (by simp) hl slot j)
      obtain hmajor | hmajor := hmajor
      · exact absurd hdr.1 (Nat.not_lt.mpr hmajor)
      · exact absurd hdr.2 (by simp [hmajor])
    · cases hgo
      refine .asked_for (fun ht _ => ?_) fun slot j hm => absurd hm (not_queued (by simp) hl slot j)
      subst ht
      rw [hlock] at hahead
      cases hahead.2
    · cases hgo
      rw [not_or, Nat.not_le, Bool.not_eq_false] at hmajor
      exact .locking (not_queued (by simp) hl) hu hs hmajor hlock
  | locking hl hu hs hdr hlock =>
    have hgo := exec_goes he trivial
    dsimp only [goStep, lockStep] at hgo
    split_ifs at hgo with hlocked hup
    · cases hgo
      refine .asked_for (fun ht _ => ?_) fun slot j hm => absurd hm (not_queued (by simp) hl slot j)
      subst ht
      rw [hu] at hup
      simp at hup
    · cases hgo
      exact .request (not_queued (by simp) hl) hs hdr
  | request hl hs hdr =>
    have hgo := exec_goes he trivial
    dsimp only [goStep] at hgo
    split at hgo
    · rename_i k _
      cases hgo
      refine .asked_for (fun _ _ => ⟨k, by simp⟩) fun slot j hm => ?_
      rw [List.mem_append, List.mem_singleton] at hm
      obtain hm | hm := hm
      · exact absurd hm (hl slot j)
      · cases hm
        exact ⟨rfl, hdr⟩
    · rename_i hnone
      obtain ⟨k, hk, hfree⟩ := hs
      obtain ⟨q, hq, rfl⟩ := findSlot_none hnone k hk
      exact absurd rfl (hfree q hq)
  | asked_for => exact absurd rfl hg

omit [DecidableEq ι] in
theorem Asking.interrupt (ho : Owned τ) (h : Asking c₀ t f g rw i base l τ.c st) (hi : Interrupt τ.c c) :
    Asking c₀ t f g rw i base l c st := by
  cases h with
  | got hl hlock hu hs hd hdev =>
    exact .got hl (hi.unlocked _ hlock) ((hi.uptodate _ (ho.unlocked hlock)).trans hu) (hi.slotFree hs)
      (hi.driver.trans hd) ((hi.dev i).trans hdev)
  | asked hl hlock hu hs hd hdev =>
    exact .asked hl (hi.unlocked _ hlock) ((hi.uptodate _ (ho.unlocked hlock)).trans hu) (hi.slotFree hs)
      (hi.driver.trans hd) ((hi.dev i).trans hdev)
  | locking hl hu hs hdr hlock =>
    exact .locking hl ((hi.uptodate _ (ho.unlocked hlock)).trans hu) (hi.slotFree hs) hdr (hi.unlocked _ hlock)
  | request hl hs hdr => exact .request hl (hi.slotFree hs) hdr
  | asked_for hq hj => exact .asked_for hq hj

/-- A read of the buffer just got is queued if and only if it is the buffer asked for. -/
theorem asked_for {n : ℕ} (rw : Rw) (i : ℕ) (hr : ((procSystem ι n).restrict Roomy).Reachable σ)
    (hrw : rw = .read ∨ rw = .reada)
    (hf : ∀ c, deliver c (some t) f base =
      if (c.buf t.i).uptodate then some (.skip, g :: base) else some (.skip, .llRw rw i :: g :: base))
    (hstart : σ.stack σ.cur = .ret (some t) :: f :: base) (hlock : (σ.c.buf t.i).lock = false)
    (hu : (σ.c.buf t.i).uptodate = false) (hs : σ.c.SlotFree) (h : Runs (· = g :: base) σ l τ)
    (hend : τ.stack τ.cur = g :: base) : Queued l t.i ↔ t.i = i ∧ σ.c.HasDriver (σ.c.buf i).dev := by
  have hask : Asking σ.c t f g rw i base l τ.c (τ.stack τ.cur) := by
    refine h.keeps hr (Asking σ.c t f g rw i base) ?_ (fun l τ a x st _ hA hg he => hA.run hrw hf hg he)
      fun l τ c ho hA hi => hA.interrupt ho hi
    rw [hstart]
    exact .got (fun _ _ => List.not_mem_nil) hlock hu hs rfl rfl
  rw [hend] at hask
  generalize hst : g :: base = st at hask
  cases hask with
  | got | asked | locking | request => exact absurd (List.cons.inj hst).2 (by simp)
  | asked_for hq hj =>
    constructor
    · rintro ⟨slot, hm⟩
      exact hj slot _ hm
    · rintro ⟨ht, hdr⟩
      rw [ht]
      exact hq ht hdr

/-! ## The frames of the call -/

/-- Frames below stay where they are, unless a value is returned to them. -/
theorem exec_below {s k : List Frame} (h : exec c (s ++ k) a = some (x, st')) (hs : s ≠ []) (hret : ∀ v, s ≠ [.ret v]) :
    ∃ s', st' = s' ++ k := by
  obtain ⟨f, s, rfl⟩ := List.exists_cons_of_ne_nil hs
  rcases exec_moved h with ⟨g, below, hst, -, hm⟩ | ⟨v, g, below, hst, -, hm⟩
  · obtain ⟨-, rfl⟩ := List.cons.inj hst
    obtain ⟨s', rfl⟩ := hm.suffix
    exact ⟨s' ++ s, (List.append_assoc ..).symm⟩
  · obtain ⟨rfl, hst⟩ := List.cons.inj hst
    cases s with
    | nil => exact absurd rfl (hret v)
    | cons g' s =>
      have hst : g' :: (s ++ k) = g :: below := (List.cons.inj hst).2
      obtain ⟨-, rfl⟩ := List.cons.inj hst
      obtain ⟨s', rfl⟩ := hm.suffix
      exact ⟨s' ++ s, (List.append_assoc ..).symm⟩

/-- In `getblk(dev,b)`, called by `k`, or just back from it. -/
inductive Getting (dev b : ℕ) (k : List Frame) (c : Cache) : List Frame → Prop
  | search : Getting dev b k c (.getHash dev b :: .getblk dev b :: k)
  | wait {r : Ref} : r.dev = dev → r.block = b → Getting dev b k c (.getHashWait r :: .getblk dev b :: k)
  | missing : Getting dev b k c (.ret none :: .getblk dev b :: k)
  | found {r : Ref} : r.dev = dev → r.block = b → (c.buf r.i).lock = false →
      Getting dev b k c (.ret (some r) :: .getblk dev b :: k)
  | sleep : Getting dev b k c (.getblkSleep dev b :: k)
  | choose {s : List Frame} {i : ℕ} : Getting dev b k c (s ++ .getblkWait dev b i :: k)
  | got {r : Ref} : r.dev = dev → r.block = b → (c.buf r.i).lock = false → Getting dev b k c (.ret (some r) :: k)

variable {dev b first : ℕ} {k : List Frame} {rest : List ℕ}

theorem Getting.run (h : Getting dev b k c st) (hgot : ∀ r, st ≠ .ret (some r) :: k) (he : exec c st a = some (x, st')) :
    Getting dev b k (c.act x) st' := by
  cases h with
  | search =>
    have hgo := exec_goes he trivial
    dsimp only [goStep] at hgo
    split at hgo
    · cases hgo; exact .missing
    · cases hgo; exact .wait rfl rfl
  | wait hd hb =>
    have hgo := exec_goes he trivial
    dsimp only [goStep] at hgo
    split_ifs at hgo with hlock
    · have hl := Bool.not_eq_true _ ▸ hlock
      cases hgo; exact .found hd hb hl
    · cases hgo; subst hd hb; exact .search
  | missing =>
    have hgo := exec_goes he trivial
    dsimp only [goStep, deliver] at hgo
    split at hgo
    · cases hgo; exact .sleep
    · cases hgo; exact .choose (s := [])
  | found hd hb hl =>
    have hgo := exec_goes he trivial
    cases hgo
    exact .got hd hb hl
  | sleep =>
    have hgo := exec_goes he trivial
    cases hgo
    exact .search
  | @choose s i =>
    by_cases hs : s = []
    · subst hs
      have hgo := exec_goes he trivial
      dsimp only [goStep, getblkStep] at hgo
      split_ifs at hgo with hl
      · cases hgo; exact .search
      · cases hgo; exact .choose (s := [_])
      · cases hgo; exact .search
      · cases hgo
        refine .found rfl rfl ?_
        rw [(Action.Plain.keeps (x := .reassign i dev b) trivial c i).2]
        simpa using hl
    · by_cases hret : ∃ v, s = [.ret v]
      · obtain ⟨v, rfl⟩ := hret
        have hgo := exec_goes he trivial
        cases v <;> cases hgo
      · obtain ⟨s', rfl⟩ := exec_below he hs fun v hv => hret ⟨v, hv⟩
        exact .choose
  | got => exact absurd rfl (hgot _)

theorem Getting.of_ret {r : Ref} {k' : List Frame} (h : Getting dev b k c (.ret (some r) :: k')) (hk : k'.length = k.length) :
    k' = k ∧ r.dev = dev ∧ r.block = b ∧ (c.buf r.i).lock = false := by
  generalize hst : .ret (some r) :: k' = st at h
  have hlen : st.length = k.length + 1 := by rw [← hst, ← hk]; rfl
  cases h with
  | got hd hb hl => cases hst; exact ⟨rfl, hd, hb, hl⟩
  | found => simp at hlen
  | @choose s i =>
    have hs : s = [] := by simpa using hlen
    subst hs
    cases hst
  | _ => cases hst

theorem Getting.length (h : Getting dev b k c st) : k.length < st.length := by
  cases h <;> (simp only [List.length_cons, List.length_append]; omega)

theorem Getting.interrupt (h : Getting dev b k c st) (hi : Interrupt c c') : Getting dev b k c' st := by
  cases h with
  | search => exact .search
  | wait hd hb => exact .wait hd hb
  | missing => exact .missing
  | found hd hb hl => exact .found hd hb (hi.unlocked _ hl)
  | sleep => exact .sleep
  | choose => exact .choose
  | got hd hb hl => exact .got hd hb (hi.unlocked _ hl)

/-- `ll_rw_block` is running, or has ended. -/
inductive Asks : List Frame → Prop
  | ended : Asks []
  | llRw {rw : Rw} {i : ℕ} : Asks [.llRw rw i]
  | lockBuffer {write ahead : Bool} {i : ℕ} : Asks [.lockBuffer write ahead i]
  | request {write ahead : Bool} {i : ℕ} : Asks [.request write ahead i]

theorem Asks.run {s k : List Frame} (h : Asks s) (hs : s ≠ []) (he : exec c (s ++ k) a = some (x, st')) :
    ∃ s', Asks s' ∧ st' = s' ++ k := by
  cases h with
  | ended => exact absurd rfl hs
  | llRw =>
    have hgo := exec_goes he trivial
    dsimp only [goStep, llRwStep] at hgo
    split_ifs at hgo
    · cases hgo; exact ⟨[], .ended, rfl⟩
    · cases hgo; exact ⟨[], .ended, rfl⟩
    · cases hgo; exact ⟨_, .lockBuffer, rfl⟩
  | lockBuffer =>
    have hgo := exec_goes he trivial
    dsimp only [goStep, lockStep] at hgo
    split_ifs at hgo
    · cases hgo; exact ⟨[], .ended, rfl⟩
    · cases hgo; exact ⟨_, .request, rfl⟩
  | request =>
    have hgo := exec_goes he trivial
    dsimp only [goStep] at hgo
    split at hgo
    · cases hgo; exact ⟨[], .ended, rfl⟩
    · split_ifs at hgo
      cases hgo; exact ⟨[], .ended, rfl⟩

/-- In `breada(dev,first,rest..,-1)`, called by `base`, or just back from it; `E` when the read of `first`
    has failed. -/
inductive Calling (dev first : ℕ) (rest : List ℕ) (base : List Frame) (E : Prop) (c : Cache) : List Frame → Prop
  | first {st : List Frame} : Getting dev first (.breada rest :: base) c st → Calling dev first rest base E c st
  | loop {s : List Frame} {r : Ref} {more : List ℕ} : Asks s → r.dev = dev → r.block = first → more <:+ rest →
      Calling dev first rest base E c (s ++ .breadaNext r more :: base)
  | next {st : List Frame} {r : Ref} {b : ℕ} {more : List ℕ} : r.dev = dev → r.block = first → (b :: more) <:+ rest →
      Getting dev b (.breadaGot r more :: base) c st → Calling dev first rest base E c st
  | drop {s : List Frame} {r tmp : Ref} {more : List ℕ} : Asks s → r.dev = dev → r.block = first → more <:+ rest →
      Calling dev first rest base E c (s ++ .breadaDrop r tmp more :: base)
  | wait {r : Ref} : r.dev = dev → r.block = first → Calling dev first rest base E c (.breadWait r :: base)
  | fail {r : Ref} : E → Calling dev first rest base E c (.brelse r :: .ret none :: base)
  | done {v : Option Ref} : (v = none → E) → (∀ r, v = some r → r.dev = dev ∧ r.block = first) →
      Calling dev first rest base E c (.ret v :: base)

theorem Calling.run {E : Prop} (h : Calling dev first rest base E c st) (hret : ∀ v, st ≠ .ret v :: base)
    (hE : ∀ r, st = .breadWait r :: base → r.dev = dev → r.block = first → (c.buf r.i).lock = false →
      (c.buf r.i).uptodate = false → E)
    (he : exec c st a = some (x, st')) : Calling dev first rest base E (c.act x) st' := by
  cases h with
  | first hg =>
    by_cases hgot : ∃ r, st = .ret (some r) :: .breada rest :: base
    · obtain ⟨r, rfl⟩ := hgot
      obtain ⟨-, hd, hb, -⟩ := hg.of_ret rfl
      have hgo := exec_goes he trivial
      dsimp only [goStep, deliver] at hgo
      split_ifs at hgo
      · cases hgo; exact .loop .ended hd hb (List.suffix_refl _)
      · cases hgo; exact .loop .llRw hd hb (List.suffix_refl _)
    · exact .first (hg.run (fun r hr => hgot ⟨r, hr⟩) he)
  | @loop s r more hs hd hb hm =>
    by_cases hnil : s = []
    · subst hnil
      have hgo := exec_goes he trivial
      cases more with
      | nil => cases hgo; exact .wait hd hb
      | cons b more =>
        cases hgo
        subst hd
        exact .next rfl hb hm .search
    · obtain ⟨s', hs', rfl⟩ := hs.run hnil he
      exact .loop hs' hd hb hm
  | @next _ r b more hd hb hm hg =>
    by_cases hgot : ∃ tmp, st = .ret (some tmp) :: .breadaGot r more :: base
    · obtain ⟨tmp, rfl⟩ := hgot
      have hm' : more <:+ rest := (List.suffix_cons ..).trans hm
      have hgo := exec_goes he trivial
      dsimp only [goStep, deliver] at hgo
      split_ifs at hgo
      · cases hgo; exact .drop .ended hd hb hm'
      · cases hgo; exact .drop .llRw hd hb hm'
    · exact .next hd hb hm (hg.run (fun r hr => hgot ⟨r, hr⟩) he)
  | @drop s r tmp more hs hd hb hm =>
    by_cases hnil : s = []
    · subst hnil
      have hgo := exec_goes he trivial
      cases hgo
      exact .loop .ended hd hb hm
    · obtain ⟨s', hs', rfl⟩ := hs.run hnil he
      exact .drop hs' hd hb hm
  | wait hd hb =>
    have hgo := exec_goes he trivial
    dsimp only [goStep] at hgo
    split_ifs at hgo with hl hu
    · cases hgo
      exact .done nofun fun r hr => by cases hr; exact ⟨hd, hb⟩
    · cases hgo
      exact .fail (hE _ rfl hd hb (by simpa using hl) (by simpa using hu))
  | fail hfail =>
    have hgo := exec_goes he trivial
    dsimp only [goStep] at hgo
    split_ifs at hgo
    cases hgo
    exact .done (fun _ => hfail) nofun
  | done => exact absurd rfl (hret _)

theorem Calling.interrupt {E : Prop} (h : Calling dev first rest base E c st) (hi : Interrupt c c') :
    Calling dev first rest base E c' st := by
  cases h with
  | first hg => exact .first (hg.interrupt hi)
  | loop hs hd hb hm => exact .loop hs hd hb hm
  | next hd hb hm hg => exact .next hd hb hm (hg.interrupt hi)
  | drop hs hd hb hm => exact .drop hs hd hb hm
  | wait hd hb => exact .wait hd hb
  | fail hfail => exact .fail hfail
  | done hn hv => exact .done hn hv

/-- A buffer is returned to a frame of the call: it is that of `first` or of a further block, and unlocked. -/
theorem Calling.of_ret {E : Prop} (h : Calling dev first rest base E c (.ret (some t) :: f :: base)) :
    (c.buf t.i).lock = false ∧ t.dev = dev ∧ (f = .breada rest ∧ t.block = first ∨
      ∃ r b more, f = .breadaGot r more ∧ r.dev = dev ∧ r.block = first ∧ (b :: more) <:+ rest ∧ t.block = b) := by
  generalize hst : .ret (some t) :: f :: base = st at h
  have hlen : st.length = base.length + 2 := by rw [← hst]; rfl
  cases h with
  | first hg =>
    subst hst
    obtain ⟨hk, hd, hb, hl⟩ := hg.of_ret rfl
    exact ⟨hl, hd, Or.inl ⟨(List.cons.inj hk).1, hb⟩⟩
  | next hd hb hm hg =>
    subst hst
    obtain ⟨hk, hd', hb', hl⟩ := hg.of_ret rfl
    exact ⟨hl, hd', Or.inr ⟨_, _, _, (List.cons.inj hk).1, hd, hb, hm, hb'⟩⟩
  | loop hs => cases hs <;> cases hst
  | drop hs => cases hs <;> cases hst
  | done => simp at hlen
  | _ => cases hst

theorem Calling.of_done {E : Prop} {v : Option Ref} (h : Calling dev first rest base E c (.ret v :: base)) :
    (v = none → E) ∧ ∀ r, v = some r → r.dev = dev ∧ r.block = first := by
  generalize hst : .ret v :: base = st at h
  have hlen : st.length = base.length + 1 := by rw [← hst]; rfl
  cases h with
  | done hn hv => cases hst; exact ⟨hn, hv⟩
  | first hg => exact absurd hg.length (by rw [hlen]; simp)
  | next hd hb hm hg => exact absurd hg.length (by rw [hlen]; simp)
  | loop hs => cases hs <;> cases hst
  | drop hs => cases hs <;> cases hst
  | _ => cases hst

theorem Runs.calling {n : ℕ} (hr : ((procSystem ι n).restrict Roomy).Reachable σ)
    (hcall : σ.stack σ.cur = callBreada dev first rest base) (h : Runs (fun st => ∃ v, st = .ret v :: base) σ l τ) :
    Calling dev first rest base (∃ l₁ τ₁ r, Runs (fun st => ∃ v, st = .ret v :: base) σ l₁ τ₁ ∧
      τ₁.stack τ₁.cur = .breadWait r :: base ∧ r.dev = dev ∧ r.block = first ∧ (τ₁.c.buf r.i).lock = false ∧
      (τ₁.c.buf r.i).uptodate = false) τ.c (τ.stack τ.cur) := by
  refine h.keeps hr (fun _ => Calling dev first rest base _) ?_ (fun l τ a x st hruns hC hret he => ?_)
    fun l τ c _ hC hi => hC.interrupt hi
  · rw [hcall]
    exact .first .search
  · exact hC.run (fun v hv => hret ⟨v, hv⟩) (fun r hst hd hb hl hu => ⟨l, τ, r, hruns, hst, hd, hb, hl, hu⟩) he

/-- A call of `breada` alone, from any state of the processes in which it is made. A read of the first
    block is queued, if it is not up to date and there is a driver. The buffer of a further block is not
    asked for: a read of it is queued only if it is the first block's own. At the end the buffer of the
    first block is returned with one more reference, or NULL after its read has failed. -/
theorem read_ahead {n : ℕ} (hr : ((procSystem ι n).restrict Roomy).Reachable σ)
    (hcall : σ.stack σ.cur = callBreada dev first rest base) (h : Runs (fun st => ∃ v, st = .ret v :: base) σ l τ) :
    (∀ r l' τ', τ.stack τ.cur = .ret (some r) :: .breada rest :: base → τ.c.SlotFree →
      Runs (· = .breadaNext r rest :: base) τ l' τ' → τ'.stack τ'.cur = .breadaNext r rest :: base →
      (τ.c.buf r.i).dev = dev ∧ (τ.c.buf r.i).blocknr = first ∧
      (((τ.c.buf r.i).uptodate = false → Queued l' r.i) ↔ (τ.c.buf r.i).uptodate = true ∨ τ.c.HasDriver dev)) ∧
    (∀ r tmp more l' τ', τ.stack τ.cur = .ret (some tmp) :: .breadaGot r more :: base → τ.c.SlotFree →
      Runs (· = .breadaDrop r tmp more :: base) τ l' τ' → τ'.stack τ'.cur = .breadaDrop r tmp more :: base →
      (τ.c.buf tmp.i).dev = dev ∧ ((τ.c.buf tmp.i).blocknr :: more) <:+ rest ∧
      (((τ.c.buf tmp.i).uptodate = false → (τ.c.buf tmp.i).lock = false → Queued l' tmp.i) ↔
        (τ.c.buf tmp.i).uptodate = true ∨ (τ.c.buf tmp.i).lock = true ∨
          tmp.i = r.i ∧ τ.c.HasDriver dev)) ∧
    ∀ v, τ.stack τ.cur = .ret v :: base →
      (∀ j, (τ.c.buf j).count = (σ.c.buf j).count + if v.any (·.i = j) then 1 else 0) ∧
      (∀ r, v = some r → (τ.c.buf r.i).dev = dev ∧ (τ.c.buf r.i).blocknr = first) ∧
      (v = none → ∃ l₁ τ₁ r, Runs (fun st => ∃ v, st = .ret v :: base) σ l₁ τ₁ ∧ τ₁.stack τ₁.cur = .breadWait r :: base ∧
        (τ₁.c.buf r.i).dev = dev ∧ (τ₁.c.buf r.i).blocknr = first ∧ (τ₁.c.buf r.i).lock = false ∧
        (τ₁.c.buf r.i).uptodate = false) := by
  have hC := h.calling hr hcall
  have hi := identified (h.reachable hr)
  refine ⟨fun r l' τ' hst hs h' hend => ?_, fun r tmp more l' τ' hst hs h' hend => ?_, fun v hst => ?_⟩
  · rw [hst] at hC
    obtain ⟨hl, hd, hf⟩ := hC.of_ret
    obtain ⟨-, hb⟩ : Frame.breada rest = .breada rest ∧ r.block = first := by
      obtain hf | ⟨_, _, _, hf, _⟩ := hf
      · exact hf
      · cases hf
    obtain ⟨hdev, hblock⟩ := hi.held τ.cur r (by rw [hst]; exact List.mem_cons_self)
    refine ⟨hdev.trans hd, hblock.trans hb, ?_⟩
    cases hu : (τ.c.buf r.i).uptodate with
    | true => simp
    | false =>
      have := asked_for .read r.i (h.reachable hr) (Or.inl rfl) (fun c => rfl) hst hl hu hs h' hend
      rw [hdev, hd] at this
      simpa using this
  · rw [hst] at hC
    obtain ⟨hl, hd, hf⟩ := hC.of_ret
    obtain ⟨b, hrd, hrb, hm, hb⟩ : ∃ b, r.dev = dev ∧ r.block = first ∧ (b :: more) <:+ rest ∧ tmp.block = b := by
      obtain ⟨hf, -⟩ | ⟨_, b, _, hf, hrest⟩ := hf
      · cases hf
      · cases hf; exact ⟨b, hrest⟩
    obtain ⟨hdev, hblock⟩ := hi.held τ.cur tmp (by rw [hst]; exact List.mem_cons_self)
    obtain ⟨hdevr, hblockr⟩ := hi.held τ.cur r (by rw [hst]; simp [Frame.refs])
    refine ⟨hdev.trans hd, by rw [hblock, hb]; exact hm, ?_⟩
    rw [hl]
    cases hu : (τ.c.buf tmp.i).uptodate with
    | true => simp
    | false =>
      have hq := asked_for .reada r.i (h.reachable hr) (Or.inr rfl) (fun c => rfl) hst hl hu hs h' hend
      rw [hdevr, hrd] at hq
      simpa using hq
  · rw [hst] at hC
    obtain ⟨hnone, hsome⟩ : (v = none → _) ∧ ∀ r, v = some r → r.dev = dev ∧ r.block = first := hC.of_done
    refine ⟨fun j => ?_, fun r hv => ?_, fun hv => ?_⟩
    · have hstack := h.stack
      have hcount := sum_update σ.stack (refCount j) σ.cur (τ.stack τ.cur)
      rw [← hstack, hst, hcall] at hcount
      have hσ := (identified hr).count j
      have hτ := hi.count j
      unfold Sys.refs at hσ hτ
      have hcalled : refCount j (callBreada dev first rest base) = refCount j base := by
        simp [refCount, callBreada, callGetblk, Frame.refs]
      have hreturned : refCount j (.ret v :: base) = refCount j base + if v.any (·.i = j) then 1 else 0 := by
        cases v with
        | none => simp [refCount, Frame.refs]
        | some r => simp [refCount, Frame.refs, List.countP_cons]
      omega
    · obtain ⟨hd, hb⟩ := hsome r hv
      obtain ⟨hdev, hblock⟩ := hi.held τ.cur r (by rw [hst, hv]; exact List.mem_cons_self)
      exact ⟨hdev.trans hd, hblock.trans hb⟩
    · obtain ⟨l₁, τ₁, r, h₁, hst₁, hd, hb, hl, hu⟩ := hnone hv
      obtain ⟨hdev, hblock⟩ := (identified (h₁.reachable hr)).held τ₁.cur r (by rw [hst₁]; exact List.mem_cons_self)
      exact ⟨l₁, τ₁, r, h₁, hst₁, hdev.trans hd, hblock.trans hb, hl, hu⟩

/-! ## Block 2 behind block 1 -/

/-- The action does not take a `b_count` past 255. -/
def Cache.fits (c : Cache) : Action → Bool
  | .inc i => (c.buf i).count ≠ 255
  | _ => true

/-- The next state of such a run. -/
def Sys.alone (stop : List Frame → Bool) : List Action × Sys ι → Event ι → Option (List Action × Sys ι)
  | (l, σ), .run a => (exec σ.c (σ.stack σ.cur) a).bind fun (x, st) =>
    if stop (σ.stack σ.cur) = false ∧ σ.c.fits x then
      some (l ++ [x], { σ with c := σ.c.act x, stack := Function.update σ.stack σ.cur st })
    else none
  | (l, σ), .sector m => (σ.c.sector m).map fun c => (l, { σ with c := c })
  | (l, σ), .endRequest m uptodate => (σ.c.endRequest m uptodate).map fun c => (l, { σ with c := c })
  | _, .switch _ => none

omit [Fintype ι] in
theorem Sys.alone_runs {stop : List Frame → Prop} {stops : List Frame → Bool} (hstop : ∀ st, stop st → stops st = true)
    (es : List (Event ι)) {l l' : List Action} (h : Runs stop σ l τ) (hes : es.foldlM (Sys.alone stops) (l, τ) = some (l', σ')) :
    Runs stop σ l' σ' := by
  induction es generalizing l τ with
  | nil => cases hes; exact h
  | cons e es ih =>
    rw [List.foldlM_cons] at hes
    obtain ⟨⟨l₁, τ₁⟩, he, hes⟩ := Option.bind_eq_some_iff.mp hes
    refine ih ?_ hes
    cases e with
    | run a =>
      obtain ⟨⟨x, st⟩, hx, he⟩ := Option.bind_eq_some_iff.mp he
      dsimp only at he
      split_ifs at he with hgo
      cases he
      refine h.run (fun hs => ?_) (fun i st' hi => ?_) hx
      · exact absurd (hstop _ hs) (by rw [hgo.1]; exact Bool.false_ne_true)
      · rw [hx] at hi
        cases hi
        simpa [Cache.fits] using hgo.2
    | switch => cases he
    | sector m =>
      obtain ⟨c, hc, he⟩ := Option.map_eq_some_iff.mp he
      cases he
      exact h.sector hc
    | endRequest m uptodate =>
      obtain ⟨c, hc, he⟩ := Option.map_eq_some_iff.mp he
      cases he
      exact h.endRequest hc

/-- A process on two buffers, with these frames. -/
def twoBlocks (st : List Frame) : Sys (Fin 1) :=
  ⟨bufferInit 2 (fun _ => blankBuf) (fun _ _ _ => 0) (fun _ => true), Function.update (fun _ => [.work []]) 0 st, 0⟩

/-- Block 2 is to be read ahead. -/
def calledBreada : Sys (Fin 1) := twoBlocks (callBreada 0x301 1 [2] [.work []])

theorem reachable_calledBreada : ((procSystem (Fin 1) 2).restrict Roomy).Reachable calledBreada := by
  have hinit : ((procSystem (Fin 1) 2).restrict Roomy).Reachable (twoBlocks [.work []]) :=
    .init ⟨⟨_, _, _, rfl⟩, fun p => by dsimp only [twoBlocks]; rw [Function.update_eq_self (0 : Fin 1)]⟩
  have small : Roomy (twoBlocks [.work []]) (.run (.breada 0x301 1 [2])) :=
    fun i st _ => by simp [twoBlocks, bufferInit, blankBuf]
  have hstep : Sys.Step (twoBlocks [.work []]) (.run (.breada 0x301 1 [2])) calledBreada := step_go (x := .skip) rfl
  exact hinit.step ⟨small, hstep⟩

/-- The call is back at its caller. -/
def returned : List Frame → Bool
  | [.ret _, .work _] => true
  | _ => false

/-- Until the call has the buffer of block 2. -/
def untilSecond : List (Event (Fin 1)) := List.replicate 13 (.run .go)

/-- And then until it returns. -/
def untilReturn : List (Event (Fin 1)) := List.flatten
  [List.replicate 4 (.run .go), [.sector 0, .sector 0, .endRequest 0 true, .run .go]]

/-- The buffer a read is queued for. -/
def Action.reads : Action → Option ℕ
  | .addRequest _ false i => some i
  | _ => none

theorem returned_of {st : List Frame} (h : ∃ v, st = .ret v :: [.work []]) : returned st = true := by
  obtain ⟨v, rfl⟩ := h
  rfl

/-- `breada(0x301,1,2,-1)` on an empty cache: the buffer of block 2 is neither up to date nor locked, there
    are free requests, and until the call returns no read of it is queued. -/
theorem nothing_read_ahead : ∃ (l l' : List Action) (τ τ' : Sys (Fin 1)) (tmp r : Ref),
    ((procSystem (Fin 1) 2).restrict Roomy).Reachable calledBreada ∧
    calledBreada.stack 0 = callBreada 0x301 1 [2] [.work []] ∧
    Runs (fun st => ∃ v, st = .ret v :: [.work []]) calledBreada l τ ∧ τ.stack 0 = [.ret (some tmp), .breadaGot r [], .work []] ∧
    τ.c.SlotFree ∧ τ.c.HasDriver 0x301 ∧ (τ.c.buf tmp.i).blocknr = 2 ∧ (τ.c.buf tmp.i).uptodate = false ∧
    (τ.c.buf tmp.i).lock = false ∧ Runs (fun st => ∃ v, st = .ret v :: [.work []]) τ l' τ' ∧
    τ'.stack 0 = [.ret (some r), .work []] ∧ ¬ Queued l' tmp.i := by
  have hfirst : ((untilSecond.foldlM (Sys.alone returned) ([], calledBreada)).map fun s : List Action × Sys (Fin 1) =>
      ((s.2.stack 0, s.2.c.req.map Req.slot), s.2.c.driver 3, (s.2.c.buf 1).blocknr, (s.2.c.buf 1).uptodate, (s.2.c.buf 1).lock)) =
      some (([.ret (some ⟨1, 0x301, 2⟩), .breadaGot ⟨0, 0x301, 1⟩ [], .work []], [31]), true, 2, false, false) := by rfl
  obtain ⟨⟨l, τ⟩, hτ, heq⟩ := Option.map_eq_some_iff.mp hfirst
  have hrest : ((untilSecond.foldlM (Sys.alone returned) ([], calledBreada)).bind fun s =>
      (untilReturn.foldlM (Sys.alone returned) ([], s.2)).map fun s => (s.2.stack 0, s.1.filterMap Action.reads)) =
      some ([.ret (some ⟨0, 0x301, 1⟩), .work []], []) := by rfl
  rw [hτ, Option.bind_some] at hrest
  obtain ⟨⟨l', τ'⟩, hτ', heq'⟩ := Option.map_eq_some_iff.mp hrest
  simp only [Prod.mk.injEq] at heq heq'
  obtain ⟨⟨hstack, hslots⟩, hdriver, hblock, hu, hl⟩ := heq
  refine ⟨l, l', τ, τ', ⟨1, 0x301, 2⟩, ⟨0, 0x301, 1⟩, reachable_calledBreada, rfl, ?_, hstack, ⟨0, by decide, fun q hq h0 => ?_⟩,
    ⟨by decide, hdriver⟩, hblock, hu, hl, ?_, heq'.1, ?_⟩
  · exact Sys.alone_runs (fun _ => returned_of) untilSecond .refl hτ
  · have hq : q.slot ∈ τ.c.req.map Req.slot := List.mem_map_of_mem hq
    rw [hslots, h0] at hq
    simp at hq
  · exact Sys.alone_runs (fun _ => returned_of) untilReturn .refl hτ'
  · rintro ⟨slot, hm⟩
    have hread : 1 ∈ l'.filterMap Action.reads := List.mem_filterMap.mpr ⟨_, hm, rfl⟩
    rw [heq'.2] at hread
    cases hread

/-- The call returns the buffer of block 1, the only one with a reference. -/
theorem read_ahead_returns : ∃ (l : List Action) (τ : Sys (Fin 1)) (r : Ref),
    Runs (fun st => ∃ v, st = .ret v :: [.work []]) calledBreada l τ ∧ (τ.c.buf r.i).dev = 0x301 ∧ (τ.c.buf r.i).blocknr = 1 ∧
    ∀ j, (τ.c.buf j).count = (calledBreada.c.buf j).count + if r.i = j then 1 else 0 := by
  have hrun : (((untilSecond ++ untilReturn).foldlM (Sys.alone returned) ([], calledBreada)).map
      fun s : List Action × Sys (Fin 1) => s.2.stack s.2.cur) = some [.ret (some ⟨0, 0x301, 1⟩), .work []] := by rfl
  obtain ⟨⟨l, τ⟩, hτ, hstack⟩ := Option.map_eq_some_iff.mp hrun
  have hruns := Sys.alone_runs (fun _ => returned_of) (untilSecond ++ untilReturn) .refl hτ
  obtain ⟨hcount, hv, -⟩ := (read_ahead reachable_calledBreada rfl hruns).2.2 _ hstack
  exact ⟨l, τ, _, hruns, (hv _ rfl).1, (hv _ rfl).2, by simpa using hcount⟩

end Linux011.Fs
