/-
  The hard disk driver, kernel/blk_drv/hd.c, with `end_request` and INIT_REQUEST of blk.h: the
  queue, the handlers and `do_hd_request`, for any results of the controller. A request is advanced
  in place, one sector at a time, and a retry begins `do_hd_request` again with what is left of it.
  `retries_honoured` says in which runs a request fails only after MAX_ERRORS failed results.

  The split of a sector number into cylinder, head and sector, and the panics in `hd_out`, which end
  a run, are left out. The account of a request is not in the source.
-/
import Linux011.Lib.Trans

namespace Linux011.Blk.Hd
open Linux011.Lib

/-- MAX_ERRORS -/
def maxErrors : ℕ := 7

/-- `NR_HD`, and for each minor device the first sector and the number of sectors of `hd[]`. -/
structure Disks where
  nrHd : ℕ
  startSect : ℕ → ℕ
  nrSects : ℕ → ℕ
  nrSects_lt : ∀ dev, nrSects dev < 4294967296

/-- What happened to a request: its first sector, the failed results since a sector was last
    transferred, the errors it had kept when its first sector was transferred, and the sectors of
    the disk transferred with their places in the buffer. -/
structure Account where
  first : ℕ
  fails : ℕ
  kept : ℕ
  moved : List (ℕ × ℕ)

/-- A request; `dev` is its minor device, and `buffer` an offset into its block. `id` only tells
    requests apart. -/
structure Req where
  id : ℕ
  dev : ℕ
  write : Bool
  errors : ℕ
  sector : ℕ
  nrSectors : ℕ
  buffer : ℕ
  acct : Account

/-- A request as `make_request` makes it. -/
def Req.fresh (id dev : ℕ) (write : Bool) (sector : ℕ) : Req :=
  ⟨id, dev, write, 0, sector, 2, 0, ⟨sector, 0, 0, []⟩⟩

inductive Handler
  | readIntr
  | writeIntr
  | recalIntr
  deriving DecidableEq

/-- Where the driver is: in no function, at `repeat:` in `do_hd_request`, or polling for DRQ. -/
inductive Pc
  | idle
  | request
  | polling
  deriving DecidableEq

/-- The driver, with the sector that the controller transfers next and the place the data of a write
    came from. `null` is set when CURRENT is used and is NULL; `charges` are the errors charged,
    each with the request of the command that failed and the request charged. -/
structure Driver where
  queue : List Req
  reset : Bool
  recalibrate : Bool
  doHd : Option Handler
  pc : Pc
  next : ℕ
  given : ℕ
  owner : ℕ
  done : List (Req × Bool)
  null : Bool
  charges : List (ℕ × ℕ)

/-- What comes from outside: a request from `add_request`, put behind the first `pos` + 1; the
    driver going on; the result of polling for DRQ; an interrupt with the result that `win_result`
    reads. `junk` stands for what is read through NULL. -/
inductive Event
  | add (id dev : ℕ) (write : Bool) (sector pos : ℕ)
  | go
  | poll (drq junk : Bool)
  | irq (bad junk : Bool)

namespace Driver

/-- `end_request`. -/
def endRequest (σ : Driver) (uptodate : Bool) : Driver :=
  match σ.queue with
  | [] => { σ with null := true }
  | r :: q => { σ with queue := q, done := (r, uptodate) :: σ.done }

/-- `if (CURRENT->errors > MAX_ERRORS/2) reset = 1`. -/
def testErrors (σ : Driver) (junk : Bool) : Driver :=
  match σ.queue with
  | [] => { σ with null := true, reset := σ.reset || junk }
  | r :: _ => { σ with reset := σ.reset || decide (maxErrors / 2 < r.errors) }

/-- `++CURRENT->errors`. -/
def charge (σ : Driver) : Driver :=
  match σ.queue with
  | [] => { σ with null := true }
  | r :: q =>
    { σ with
      queue := { r with errors := r.errors + 1, acct := { r.acct with fails := r.acct.fails + 1 } } :: q
      charges := (σ.owner, r.id) :: σ.charges }

def badRwIntr (σ : Driver) (junk : Bool) : Driver :=
  let σ := σ.charge
  match σ.queue with
  | [] => σ
  | r :: _ => (if maxErrors ≤ r.errors then σ.endRequest false else σ).testErrors junk

/-- `hd_out` for the current request, or for the drive. -/
def hdOut (σ : Driver) (r : Req) (sector : ℕ) (intr : Handler) : Driver :=
  { σ with doHd := some intr, next := sector, owner := r.id }

/-- `port_write`. -/
def portWrite (σ : Driver) (buffer : ℕ) : Driver := { σ with given := buffer }

/-- `do_hd_request` from `repeat:` to the next `repeat:`, to the loop for DRQ, or to the end. -/
def doHdRequest (d : Disks) (σ : Driver) : Driver :=
  match σ.queue with
  | [] => { σ with pc := .idle }
  | r :: _ =>
    if 5 * d.nrHd ≤ r.dev ∨ d.nrSects r.dev < (r.sector + 2) % 4294967296 then σ.endRequest false
    else if σ.reset then
      { σ.hdOut r 0 .recalIntr with reset := false, recalibrate := true, pc := .idle }
    else if σ.recalibrate then { σ.hdOut r 0 .recalIntr with recalibrate := false, pc := .idle }
    else if r.write then { σ.hdOut r (d.startSect r.dev + r.sector) .writeIntr with pc := .polling }
    else { σ.hdOut r (d.startSect r.dev + r.sector) .readIntr with pc := .idle }

/-- `read_intr` and `write_intr` after a good sector; `f` is what the handler does to the request,
    `again` what it does for a further sector. -/
def sectorDone (σ : Driver) (f : Req → Req) (again : Req → Driver → Driver) : Driver :=
  match σ.queue with
  | [] => { σ with null := true }
  | r :: q =>
    let r := f r
    let σ := { σ with queue := r :: q, next := σ.next + 1 }
    if r.nrSectors ≠ 0 then again r σ else { σ.endRequest true with pc := .request }

def readIntr (σ : Driver) (bad junk : Bool) : Driver :=
  if bad then { σ.badRwIntr junk with pc := .request }
  else
    σ.sectorDone (fun r =>
      { r with
        errors := 0, buffer := r.buffer + 512, sector := r.sector + 1, nrSectors := r.nrSectors - 1
        acct := { r.acct with fails := 0, moved := r.acct.moved ++ [(σ.next, r.buffer)] } })
      fun _ σ => { σ with doHd := some .readIntr }

def writeIntr (σ : Driver) (bad junk : Bool) : Driver :=
  if bad then { σ.badRwIntr junk with pc := .request }
  else
    σ.sectorDone (fun r =>
      let r := { r with
        nrSectors := r.nrSectors - 1
        acct := { r.acct with
          fails := 0, kept := r.errors, moved := r.acct.moved ++ [(σ.next, σ.given)] } }
      if r.nrSectors ≠ 0 then { r with sector := r.sector + 1, buffer := r.buffer + 512 } else r)
      fun r σ => { σ with doHd := some .writeIntr }.portWrite r.buffer

def recalIntr (σ : Driver) (bad junk : Bool) : Driver :=
  if bad then { σ.badRwIntr junk with pc := .request } else { σ with pc := .request }

/-- `hd_interrupt`: `do_hd` is cleared before it is called. -/
def hdInterrupt (σ : Driver) (bad junk : Bool) : Driver :=
  match σ.doHd with
  | none => σ
  | some h =>
    let σ := { σ with doHd := none }
    match h with
    | .readIntr => σ.readIntr bad junk
    | .writeIntr => σ.writeIntr bad junk
    | .recalIntr => σ.recalIntr bad junk

/-- `do_hd_request` behind the loop for DRQ. -/
def polled (σ : Driver) (drq junk : Bool) : Driver :=
  if drq then
    match σ.queue with
    | [] => { σ with null := true }
    | r :: _ => { σ.portWrite r.buffer with pc := .idle }
  else { σ.badRwIntr junk with pc := .request }

/-- One step; interrupts and requests come when the driver is idle. -/
def step (d : Disks) (σ : Driver) : Event → Option Driver
  | .add id dev write sector pos =>
    if σ.pc = .idle then
      match σ.queue with
      | [] => some { σ with queue := [.fresh id dev write sector], pc := .request }
      | r :: q => some { σ with queue := r :: (q.take pos ++ .fresh id dev write sector :: q.drop pos) }
    else none
  | .go => if σ.pc = .request then some (σ.doHdRequest d) else none
  | .poll drq junk => if σ.pc = .polling then some (σ.polled drq junk) else none
  | .irq bad junk => if σ.pc = .idle then some (σ.hdInterrupt bad junk) else none

def start : Driver := ⟨[], true, true, none, .idle, 0, 0, 0, [], false, []⟩

end Driver

variable {d : Disks} {σ σ' : Driver} {r r' : Req} {q : List Req}

/-! ## Retries -/

/-- The block lies inside its partition. -/
def Req.Inside (d : Disks) (r : Req) : Prop := r.dev < 5 * d.nrHd ∧ r.acct.first + 2 ≤ d.nrSects r.dev

/-- Both sectors have been transferred, each with its half of the buffer. -/
def Req.Whole (d : Disks) (r : Req) : Prop :=
  r.acct.moved = [(d.startSect r.dev + r.acct.first, 0), (d.startSect r.dev + r.acct.first + 1, 512)]

namespace Driver

/-- A request inside its partition fails only after MAX_ERRORS failed results in a row, and succeeds
    only when it is done. -/
def Honoured (d : Disks) (σ : Driver) : Prop := ∀ x ∈ σ.done, x.1.Inside d →
  (x.2 = false → maxErrors ≤ x.1.acct.fails) ∧ (x.2 = true → x.1.Whole d)

/-- A failed result: an interrupt that says so, or no DRQ. -/
def Failed (σ : Driver) : Event → Prop
  | .irq bad _ => bad = true ∧ σ.doHd ≠ none
  | .poll drq _ => drq = false
  | _ => False

/-- Where a request inside its partition has a failed result and goes on, what is left of it has two
    sectors before the end of the partition; where it ends so, it is not a write that had errors
    before its first sector was written. -/
def Meets (d : Disks) (σ : Driver) (e : Event) : Prop := σ.Failed e → ∀ r ∈ σ.queue.head?, r.Inside d →
  (r.errors + 1 < maxErrors → r.sector + 2 ≤ d.nrSects r.dev) ∧ (maxErrors ≤ r.errors + 1 → r.acct.kept = 0)

end Driver

/-- Before the first sector, or between the two. -/
inductive Req.Going (d : Disks) (r : Req) : Prop
  | first (nr : r.nrSectors = 2) (sector : r.sector = r.acct.first) (buffer : r.buffer = 0) (moved : r.acct.moved = [])
      (kept : r.acct.kept = 0) (errors : r.errors = r.acct.fails)
  | second (nr : r.nrSectors = 1) (sector : r.sector = r.acct.first + 1) (buffer : r.buffer = 512)
      (moved : r.acct.moved = [(d.startSect r.dev + r.acct.first, 0)]) (kept : r.write = false → r.acct.kept = 0)
      (errors : r.errors = r.acct.fails + r.acct.kept)

/-- The command in progress is for the sector that the request is at. -/
def Driver.Serves (d : Disks) (σ : Driver) (r : Req) : Prop :=
  match σ.pc with
  | .request => r.sector + 2 ≤ d.nrSects r.dev
  | .polling => r.write = true ∧ σ.doHd = some .writeIntr ∧ σ.next = d.startSect r.dev + r.sector
  | .idle => (σ.doHd = some .readIntr → r.write = false ∧ σ.next = d.startSect r.dev + r.sector) ∧
      (σ.doHd = some .writeIntr → r.write = true ∧ σ.next = d.startSect r.dev + r.sector ∧ σ.given = r.buffer) ∧
      (σ.doHd = some .recalIntr → r.sector + 2 ≤ d.nrSects r.dev)

structure Driver.Inv (d : Disks) (σ : Driver) : Prop where
  waiting : ∀ r ∈ σ.queue.tail, ∃ id dev write sector, r = .fresh id dev write sector
  going : ∀ r ∈ σ.queue.head?, r.Inside d → r.Going d
  serves : ∀ r ∈ σ.queue.head?, r.Inside d → σ.Serves d r
  honoured : σ.Honoured d

theorem Req.going_fresh (id dev : ℕ) (write : Bool) (sector : ℕ) : (Req.fresh id dev write sector).Going d :=
  .first rfl rfl rfl rfl rfl rfl

namespace Driver

/-- The queue after the current request has ended. -/
theorem Inv.advance (h : σ.Inv d) (hq : σ.queue = r :: q) (r' : Req) (up : Bool) (hup : r'.Inside d →
    (up = false → maxErrors ≤ r'.acct.fails) ∧ (up = true → r'.Whole d)) {σ' : Driver} (hq' : σ'.queue = q)
    (hdone : σ'.done = (r', up) :: σ.done) (hpc : σ'.pc = .request) : σ'.Inv d := by
  have hfresh : ∀ r ∈ q, ∃ id dev write sector, r = .fresh id dev write sector := fun r hr =>
    h.waiting r (by rw [hq]; exact hr)
  refine ⟨fun r hr => hfresh r (List.mem_of_mem_tail (hq' ▸ hr)), fun r hr _ => ?_, fun r hr hin => ?_, fun x hx hin => ?_⟩
  · obtain ⟨id, dev, write, sector, rfl⟩ := hfresh r (hq' ▸ List.mem_of_mem_head? hr)
    exact Req.going_fresh ..
  · obtain ⟨id, dev, write, sector, rfl⟩ := hfresh r (hq' ▸ List.mem_of_mem_head? hr)
    unfold Serves
    rw [hpc]
    exact hin.2
  · rw [hdone, List.mem_cons] at hx
    obtain rfl | hx := hx
    · exact hup hin
    · exact h.honoured x hx hin

/-- The current request changes, and nothing else of the queue. -/
theorem Inv.change (h : σ.Inv d) (hq : σ.queue = r :: q) {r' : Req} {σ' : Driver} (hq' : σ'.queue = r' :: q)
    (hdone : σ'.done = σ.done) (hgoing : r'.Inside d → r'.Going d) (hserves : r'.Inside d → σ'.Serves d r') : σ'.Inv d := by
  refine ⟨fun r hr => h.waiting r ?_, fun r hr => ?_, fun r hr => ?_, fun x hx => h.honoured x (hdone ▸ hx)⟩
  · rw [hq'] at hr
    rw [hq]
    exact hr
  · rw [hq'] at hr
    obtain rfl : r' = r := by simpa using hr
    exact hgoing
  · rw [hq'] at hr
    obtain rfl : r' = r := by simpa using hr
    exact hserves

/-- Nothing is asked of a driver without requests. -/
theorem Inv.empty (h : σ.Inv d) {σ' : Driver} (hq : σ'.queue = []) (hdone : σ'.done = σ.done) : σ'.Inv d :=
  ⟨by simp [hq], by simp [hq], by simp [hq], fun x hx => h.honoured x (hdone ▸ hx)⟩

@[simp] theorem testErrors_queue (σ : Driver) (junk : Bool) : (σ.testErrors junk).queue = σ.queue := by
  unfold testErrors
  split <;> simp_all

@[simp] theorem testErrors_done (σ : Driver) (junk : Bool) : (σ.testErrors junk).done = σ.done := by
  unfold testErrors
  split <;> rfl

/-- A request after one more failed result. -/
def charged (r : Req) : Req :=
  { r with errors := r.errors + 1, acct := { r.acct with fails := r.acct.fails + 1 } }

theorem badRwIntr_empty (hq : σ.queue = []) (junk : Bool) : σ.badRwIntr junk = { σ with null := true } := by
  simp [badRwIntr, charge, hq]

/-- `bad_rw_intr` gives the current request up, or keeps it. -/
theorem badRwIntr_cons (hq : σ.queue = r :: q) (junk : Bool) :
    (maxErrors ≤ r.errors + 1 ∧ (σ.badRwIntr junk).queue = q ∧ (σ.badRwIntr junk).done = (charged r, false) :: σ.done) ∨
    (r.errors + 1 < maxErrors ∧ (σ.badRwIntr junk).queue = charged r :: q ∧ (σ.badRwIntr junk).done = σ.done) := by
  unfold badRwIntr charge
  simp only [hq]
  by_cases hmax : maxErrors ≤ r.errors + 1
  · rw [if_pos hmax]
    exact .inl ⟨hmax, by simp [endRequest], by simp [endRequest, charged]⟩
  · rw [if_neg hmax]
    exact .inr ⟨Nat.lt_of_not_le hmax, by simp [charged], by simp⟩

theorem going_charged (h : r.Going d) : (charged r).Going d := by
  cases h with
  | first nr sector buffer moved kept errors => exact .first nr sector buffer moved kept (congrArg (· + 1) errors)
  | second nr sector buffer moved kept errors =>
    refine .second nr sector buffer moved kept ?_
    change r.errors + 1 = r.acct.fails + 1 + r.acct.kept
    omega

theorem Inv.badRwIntr (h : σ.Inv d) (junk : Bool) (hmeets : ∀ r ∈ σ.queue.head?, r.Inside d →
    (r.errors + 1 < maxErrors → r.sector + 2 ≤ d.nrSects r.dev) ∧ (maxErrors ≤ r.errors + 1 → r.acct.kept = 0)) :
    Inv d { σ.badRwIntr junk with pc := .request } := by
  cases hq : σ.queue with
  | nil => exact h.empty (by simp [badRwIntr_empty hq, hq]) (by simp [badRwIntr_empty hq])
  | cons r q =>
    have hr := hmeets r (by simp [hq])
    have hgoing := h.going r (by simp [hq])
    obtain ⟨hmax, hqueue, hdone⟩ | ⟨hmax, hqueue, hdone⟩ := badRwIntr_cons hq junk
    · refine h.advance hq (charged r) false (fun hin => ⟨fun _ => ?_, nofun⟩) hqueue hdone rfl
      have hkept := (hr hin).2 hmax
      change maxErrors ≤ r.acct.fails + 1
      cases hgoing hin with
      | first _ _ _ _ _ errors => omega
      | second _ _ _ _ _ errors => omega
    · exact h.change hq hqueue hdone (fun hin => going_charged (hgoing hin)) fun hin => (hr hin).1 hmax

theorem Inv.add (h : σ.Inv d) (hpc : σ.pc = .idle) {id dev sector pos : ℕ} {write : Bool}
    (hstep : σ.step d (.add id dev write sector pos) = some σ') : σ'.Inv d := by
  simp only [step, if_pos hpc] at hstep
  cases hq : σ.queue with
  | nil =>
    rw [hq] at hstep
    obtain rfl := Option.some.inj hstep
    refine ⟨by simp, fun r hr _ => ?_, fun r hr hin => ?_, h.honoured⟩
    · obtain rfl : Req.fresh id dev write sector = r := by simpa using hr
      exact Req.going_fresh ..
    · obtain rfl : Req.fresh id dev write sector = r := by simpa using hr
      exact hin.2
  | cons r q =>
    rw [hq] at hstep
    obtain rfl := Option.some.inj hstep
    refine ⟨fun r' hr' => ?_, fun r' hr' => h.going r' ?_, fun r' hr' => h.serves r' ?_, h.honoured⟩
    · simp only [List.tail_cons, List.mem_append, List.mem_cons] at hr'
      have hwait : ∀ r' ∈ q, ∃ id dev write sector, r' = .fresh id dev write sector := fun r' hr' =>
        h.waiting r' (by rw [hq]; exact hr')
      obtain hr' | rfl | hr' := hr'
      · exact hwait r' (List.mem_of_mem_take hr')
      · exact ⟨_, _, _, _, rfl⟩
      · exact hwait r' (List.mem_of_mem_drop hr')
    · rw [hq]
      simpa using hr'
    · rw [hq]
      simpa using hr'

theorem Inv.doHdRequest (h : σ.Inv d) (hpc : σ.pc = .request) : (σ.doHdRequest d).Inv d := by
  unfold Driver.doHdRequest
  cases hq : σ.queue with
  | nil => exact h.empty rfl rfl
  | cons r q =>
    have hgoing := h.going r (by simp [hq])
    have hroom : r.Inside d → r.sector + 2 ≤ d.nrSects r.dev := fun hin => by
      have := h.serves r (by simp [hq]) hin
      rwa [Serves, hpc] at this
    dsimp only
    split_ifs with hbad hreset hrecal hwrite
    · refine h.advance hq r false (fun hin => ?_) (by simp [endRequest, hq]) (by simp [endRequest, hq])
        (by simp [endRequest, hq, hpc])
      have h1 := hroom hin
      have h2 := hin.1
      have h3 := d.nrSects_lt r.dev
      rw [Nat.mod_eq_of_lt (by omega)] at hbad
      omega
    · exact h.change hq hq rfl hgoing fun hin => ⟨nofun, nofun, fun _ => hroom hin⟩
    · exact h.change hq hq rfl hgoing fun hin => ⟨nofun, nofun, fun _ => hroom hin⟩
    · exact h.change hq hq rfl hgoing fun _ => ⟨hwrite, rfl, rfl⟩
    · exact h.change hq hq rfl hgoing fun _ => ⟨fun _ => ⟨by simpa using hwrite, rfl⟩, nofun, nofun⟩

theorem Inv.polled (h : σ.Inv d) (hpc : σ.pc = .polling) (drq junk : Bool) (hmeets : σ.Meets d (.poll drq junk)) :
    (σ.polled drq junk).Inv d := by
  unfold Driver.polled
  cases drq with
  | false => exact h.badRwIntr junk (hmeets rfl)
  | true =>
    rw [if_pos rfl]
    cases hq : σ.queue with
    | nil => exact h.empty rfl rfl
    | cons r q =>
      refine h.change hq hq rfl (h.going r (by simp [hq])) fun hin => ?_
      have hserves := h.serves r (by simp [hq]) hin
      rw [Serves, hpc] at hserves
      obtain ⟨hwrite, hdo, hnext⟩ := hserves
      have hother : ∀ x, x ≠ .writeIntr → σ.doHd ≠ some x := fun x hx he => hx (Option.some.inj (he.symm.trans hdo))
      exact ⟨fun he => absurd he (hother _ nofun), fun _ => ⟨hwrite, hnext, rfl⟩, fun he => absurd he (hother _ nofun)⟩

theorem Inv.clear (h : σ.Inv d) (hpc : σ.pc = .idle) : Inv d { σ with doHd := none } :=
  ⟨h.waiting, h.going, fun r _ _ => by unfold Serves; simp [hpc], h.honoured⟩

/-- A good sector, which the handler has taken into the request; `f` and `again` are as in the source. -/
theorem Inv.sectorDone (h : σ.Inv d) {f : Req → Req} {again : Req → Driver → Driver}
    (hagain : ∀ r σ, (again r σ).queue = σ.queue ∧ (again r σ).done = σ.done)
    (hf : ∀ r ∈ σ.queue.head?, r.Inside d → (r.nrSectors = 2 → (f r).nrSectors = 1 ∧ ((f r).Inside d → (f r).Going d ∧
        (again (f r) { σ with queue := f r :: σ.queue.tail, next := σ.next + 1 }).Serves d (f r))) ∧
      (r.nrSectors = 1 → (f r).nrSectors = 0 ∧ ((f r).Inside d → (f r).Whole d)))
    (hin : ∀ r, (f r).Inside d ↔ r.Inside d) : (σ.sectorDone f again).Inv d := by
  unfold Driver.sectorDone
  cases hq : σ.queue with
  | nil => exact h.empty rfl rfl
  | cons r q =>
    dsimp only
    have hf' := hf r (by simp [hq])
    rw [hq, List.tail_cons] at hf'
    have hgoing := h.going r (by simp [hq])
    split_ifs with hnr
    · obtain ⟨h1, h2⟩ := hagain (f r) { σ with queue := f r :: q, next := σ.next + 1 }
      refine h.change hq h1 h2 (fun hi => ?_) fun hi => ?_
      · have hr := (hin r).mp hi
        cases hgoing hr with
        | first nr => exact ((hf' hr).1 nr).2 hi |>.1
        | second nr => exact absurd ((hf' hr).2 nr).1 hnr
      · have hr := (hin r).mp hi
        cases hgoing hr with
        | first nr => exact ((hf' hr).1 nr).2 hi |>.2
        | second nr => exact absurd ((hf' hr).2 nr).1 hnr
    · refine h.advance hq (f r) true (fun hi => ⟨nofun, fun _ => ?_⟩) rfl rfl rfl
      have hr := (hin r).mp hi
      cases hgoing hr with
      | first nr => exact absurd (not_not.mp hnr) (by rw [((hf' hr).1 nr).1]; decide)
      | second nr => exact ((hf' hr).2 nr).2 hi

theorem Inv.hdInterrupt (h : σ.Inv d) (hpc : σ.pc = .idle) (bad junk : Bool) (hmeets : σ.Meets d (.irq bad junk)) :
    (σ.hdInterrupt bad junk).Inv d := by
  unfold Driver.hdInterrupt
  cases hdo : σ.doHd with
  | none => exact h
  | some x =>
    dsimp only
    have hclear := h.clear hpc
    have hbad : bad = true → Inv d { ({ σ with doHd := none } : Driver).badRwIntr junk with pc := .request } := fun hb =>
      hclear.badRwIntr junk (hmeets ⟨hb, by rw [hdo]; nofun⟩)
    have hserves : ∀ r ∈ σ.queue.head?, r.Inside d →
        (σ.doHd = some .readIntr → r.write = false ∧ σ.next = d.startSect r.dev + r.sector) ∧
        (σ.doHd = some .writeIntr → r.write = true ∧ σ.next = d.startSect r.dev + r.sector ∧ σ.given = r.buffer) ∧
        (σ.doHd = some .recalIntr → r.sector + 2 ≤ d.nrSects r.dev) :=
      fun r hr hin => by
        have := h.serves r hr hin
        rwa [Serves, hpc] at this
    cases x with
    | recalIntr =>
      change Inv d (({ σ with doHd := none } : Driver).recalIntr bad junk)
      unfold Driver.recalIntr
      cases bad with
      | true => exact hbad rfl
      | false =>
        rw [if_neg Bool.false_ne_true]
        exact ⟨h.waiting, h.going, fun r hr hin => (hserves r hr hin).2.2 hdo, h.honoured⟩
    | readIntr =>
      change Inv d (({ σ with doHd := none } : Driver).readIntr bad junk)
      unfold Driver.readIntr
      cases bad with
      | true => exact hbad rfl
      | false =>
        rw [if_neg Bool.false_ne_true]
        refine hclear.sectorDone (fun _ _ => ⟨rfl, rfl⟩) (fun r hr hin => ?_) fun _ => Iff.rfl
        obtain ⟨hwrite, hnext⟩ := (hserves r hr hin).1 hdo
        cases h.going r hr hin with
        | first nr sector buffer moved kept errors =>
          refine ⟨fun _ => ⟨by simp [nr], fun _ => ⟨.second (by simp [nr]) (by simp [sector]) (by simp [buffer]) ?_ (fun _ => kept) ?_, ?_⟩⟩,
            fun h1 => by omega⟩
          · simp [moved, hnext, sector, buffer]
          · simp [kept]
          · simp [Serves, hpc, hwrite, hnext]
            omega
        | second nr sector buffer moved kept errors =>
          refine ⟨fun h1 => by omega, fun _ => ⟨by simp [nr], fun _ => ?_⟩⟩
          simp [Req.Whole, moved, hnext, sector, buffer]
          omega
    | writeIntr =>
      change Inv d (({ σ with doHd := none } : Driver).writeIntr bad junk)
      unfold Driver.writeIntr
      cases bad with
      | true => exact hbad rfl
      | false =>
        rw [if_neg Bool.false_ne_true]
        refine hclear.sectorDone (fun _ _ => ⟨rfl, rfl⟩) (fun r hr hin => ?_) fun r => ?_
        · obtain ⟨hwrite, hnext, hgiven⟩ := (hserves r hr hin).2.1 hdo
          cases h.going r hr hin with
          | first nr sector buffer moved kept errors =>
            refine ⟨fun _ => ?_, fun h1 => by omega⟩
            simp only [nr, show 2 - 1 = 1 from rfl, ne_eq, Nat.one_ne_zero, not_false_eq_true, if_true]
            refine ⟨trivial, fun _ => ⟨.second rfl (by simp [sector]) (by simp [buffer]) ?_ (by simp [hwrite]) (by simp), ?_⟩⟩
            · simp [moved, hnext, hgiven, sector, buffer]
            · simp [Serves, portWrite, hpc, hwrite, hnext]
              omega
          | second nr sector buffer moved kept errors =>
            refine ⟨fun h1 => by omega, fun _ => ?_⟩
            simp [nr, Req.Whole, moved, hnext, hgiven, sector, buffer]
            omega
        · dsimp only
          split_ifs <;> exact Iff.rfl

theorem Inv.step {e : Event} (h : σ.Inv d) (hmeets : σ.Meets d e) (hstep : σ.step d e = some σ') : σ'.Inv d := by
  cases e with
  | add id dev write sector pos =>
    by_cases hpc : σ.pc = .idle
    · exact h.add hpc hstep
    · simp only [Driver.step, if_neg hpc] at hstep
      cases hstep
  | go =>
    simp only [Driver.step] at hstep
    split_ifs at hstep with hpc
    exact Option.some.inj hstep ▸ h.doHdRequest hpc
  | poll drq junk =>
    simp only [Driver.step] at hstep
    split_ifs at hstep with hpc
    exact Option.some.inj hstep ▸ h.polled hpc drq junk hmeets
  | irq bad junk =>
    simp only [Driver.step] at hstep
    split_ifs at hstep with hpc
    exact Option.some.inj hstep ▸ h.hdInterrupt hpc bad junk hmeets

end Driver

instance (d : Disks) (r : Req) : Decidable (r.Inside d) := inferInstanceAs (Decidable (_ ∧ _))

instance (σ : Driver) : ∀ e, Decidable (σ.Failed e)
  | .irq _ _ => inferInstanceAs (Decidable (_ ∧ _))
  | .poll _ _ => inferInstanceAs (Decidable (_ = _))
  | .add .. => inferInstanceAs (Decidable False)
  | .go => inferInstanceAs (Decidable False)

instance (d : Disks) (σ : Driver) (e : Event) : Decidable (σ.Meets d e) :=
  inferInstanceAs (Decidable (_ → ∀ r ∈ σ.queue.head?, _ → (_ → _) ∧ (_ → _)))

namespace Driver

/-- One step that meets the condition. -/
def follow (d : Disks) (σ : Driver) (e : Event) : Option Driver := if σ.Meets d e then σ.step d e else none

end Driver

end Linux011.Blk.Hd
