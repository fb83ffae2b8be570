/-
  The floppy driver, kernel/blk_drv/floppy.c: `do_fd_request`, the timers it waits for and the
  interrupt handlers, for any replies of the controller. `output_byte` and `result` fail by setting
  `reset`, and every handler that ends goes back to `do_fd_request`.

  Which drive is selected in the DOR, the rates and the DMA registers are left out: whether the
  drive has to be changed comes with the timer, and `setup_DMA` only uses CURRENT.
-/
import Linux011.Lib.Trans

namespace Linux011.Blk.Floppy
open Linux011.Lib

/-- MAX_ERRORS -/
def maxErrors : ℕ := 8

/-- A request; `dev` is its minor device. `id` only tells requests apart. -/
structure Req where
  id : ℕ
  dev : ℕ
  write : Bool
  errors : ℕ
  sector : ℕ

/-- `struct floppy_struct`, without gap, rate and spec1. -/
structure FloppyType where
  size : ℕ
  sect : ℕ
  head : ℕ
  track : ℕ
  stretch : ℕ

/-- `floppy_type` -/
def floppyType : List FloppyType :=
  [⟨0, 0, 0, 0, 0⟩, ⟨720, 9, 2, 40, 0⟩, ⟨2400, 15, 2, 80, 0⟩, ⟨720, 9, 2, 40, 1⟩, ⟨1440, 9, 2, 80, 0⟩, ⟨720, 9, 2, 40, 1⟩,
    ⟨1440, 9, 2, 80, 0⟩, ⟨2880, 18, 2, 80, 0⟩]

def Req.type (r : Req) : FloppyType := floppyType.getD (r.dev / 4) ⟨0, 0, 0, 0, 0⟩

inductive Handler
  | rwInterrupt
  | seekInterrupt
  | recalInterrupt
  | resetInterrupt
  deriving DecidableEq

/-- What `add_timer` was called with. -/
inductive Timer
  | floppyOnInterrupt
  | transfer
  deriving DecidableEq

/-- What the controller does while a handler runs: whether it takes the bytes of the handler, of
    `setup_rw_floppy` or `transfer`, and of `recalibrate_floppy`, and what `result` reads, with a
    timeout or not. -/
structure Io where
  sent : Bool
  sentSetup : Bool
  sentRecal : Bool
  reply : List ℕ
  timeout : Bool
  /-- what is read through NULL -/
  junk : Bool

/-- The driver. `null` is set when CURRENT is used and is NULL; `charges` are the errors charged, each
    with the request the command was for and the request charged. -/
structure Driver where
  queue : List Req
  recalibrate : Bool
  reset : Bool
  seek : Bool
  currentDrive : ℕ
  sector : ℕ
  head : ℕ
  track : ℕ
  seekTrack : ℕ
  currentTrack : ℕ
  write : Bool
  st0 : ℕ
  st1 : ℕ
  st2 : ℕ
  doFloppy : Option Handler
  timers : List Timer
  owner : ℕ
  null : Bool
  charges : List (ℕ × ℕ)

/-- A request from `add_request`, put behind the first `pos` + 1; a timer that runs out, with
    whether the drive has to be changed; an interrupt. -/
inductive Event
  | add (id dev : ℕ) (write : Bool) (sector pos : ℕ) (io : Io)
  | timer (t : Timer) (change : Bool) (io : Io)
  | irq (io : Io)

namespace Driver

def endRequest (σ : Driver) : Driver :=
  match σ.queue with
  | [] => { σ with null := true }
  | _ :: q => { σ with queue := q }

/-- A series of `output_byte`. -/
def outputBytes (σ : Driver) (sent : Bool) : Driver :=
  if σ.reset then σ else if sent then σ else { σ with reset := true }

/-- `result`: the number of replies, or nothing for -1. -/
def result (σ : Driver) (io : Io) : Option ℕ × Driver :=
  if σ.reset then (none, σ)
  else
    let σ := { σ with
      st0 := io.reply.getD 0 σ.st0, st1 := io.reply.getD 1 σ.st1, st2 := io.reply.getD 2 σ.st2 }
    if io.timeout ∨ 7 < io.reply.length then (none, { σ with reset := true }) else (some io.reply.length, σ)

/-- `CURRENT->errors++`. -/
def charge (σ : Driver) : Driver :=
  match σ.queue with
  | [] => { σ with null := true }
  | r :: q => { σ with queue := { r with errors := r.errors + 1 } :: q, charges := (σ.owner, r.id) :: σ.charges }

/-- The second test of `bad_flp_intr`. -/
def testErrors (σ : Driver) (junk : Bool) : Driver :=
  match σ.queue with
  | [] => if junk then { σ with null := true, reset := true } else { σ with null := true, recalibrate := true }
  | r :: _ => if maxErrors / 2 < r.errors then { σ with reset := true } else { σ with recalibrate := true }

def badFlpIntr (σ : Driver) (junk : Bool) : Driver :=
  let σ := σ.charge
  match σ.queue with
  | [] => σ
  | r :: _ => (if maxErrors < r.errors then σ.endRequest else σ).testErrors junk

def resetFloppy (σ : Driver) : Driver :=
  { σ with reset := false, recalibrate := true, doFloppy := some .resetInterrupt }

/-- `recalibrate_floppy`; when the bytes are not taken it calls `do_fd_request`, which resets. -/
def recalibrateFloppy (σ : Driver) (io : Io) : Driver :=
  let σ := { σ with recalibrate := false, currentTrack := 0, doFloppy := some .recalInterrupt }
  let σ := σ.outputBytes io.sentRecal
  if σ.reset then { σ with seek := false }.resetFloppy else σ

/-- `do_fd_request` from INIT_REQUEST on, for the queue `q`. -/
def nextRequest (σ : Driver) : List Req → Driver
  | [] => { σ with queue := [] }
  | r :: q =>
    let σ := { σ with seek := σ.seek || decide (σ.currentDrive ≠ r.dev % 4), currentDrive := r.dev % 4 }
    if r.type.size < r.sector + 2 then nextRequest σ q
    else
      let block := r.sector / r.type.sect
      let track := block / r.type.head
      { σ with
        queue := r :: q
        sector := r.sector % r.type.sect + 1
        head := block % r.type.head
        track := track
        seekTrack := track * 2 ^ r.type.stretch
        seek := σ.seek || decide (track * 2 ^ r.type.stretch ≠ σ.currentTrack)
        write := r.write
        timers := .floppyOnInterrupt :: σ.timers
        owner := r.id }

def doFdRequest (σ : Driver) (io : Io) : Driver :=
  let σ := { σ with seek := false }
  if σ.reset then σ.resetFloppy
  else if σ.recalibrate then σ.recalibrateFloppy io
  else σ.nextRequest σ.queue

/-- `setup_DMA` uses `CURRENT->buffer`. -/
def setupDma (σ : Driver) : Driver :=
  match σ.queue with
  | [] => { σ with null := true }
  | _ :: _ => σ

def setupRwFloppy (σ : Driver) (io : Io) : Driver :=
  let σ := { σ.setupDma with doFloppy := some .rwInterrupt }
  let σ := σ.outputBytes io.sentSetup
  if σ.reset then σ.doFdRequest io else σ

/-- The test of `rw_interrupt`, for what `result` gave. -/
def RwFailed (σ : Driver) (n : Option ℕ) : Prop :=
  n ≠ some 7 ∨ σ.st0 &&& 0xf8 ≠ 0 ∨ σ.st1 &&& 0xbf ≠ 0 ∨ σ.st2 &&& 0x73 ≠ 0

instance (σ : Driver) (n : Option ℕ) : Decidable (σ.RwFailed n) := inferInstanceAs (Decidable (_ ∨ _ ∨ _ ∨ _))

/-- `ST1 & 0x02` -/
def WriteProtected (σ : Driver) : Prop := σ.st1 &&& 0x02 ≠ 0

instance (σ : Driver) : Decidable σ.WriteProtected := inferInstanceAs (Decidable (_ ≠ _))

def rwInterrupt (σ : Driver) (io : Io) : Driver :=
  let (n, σ) := σ.result io
  if σ.RwFailed n then
    (if σ.WriteProtected then σ.endRequest else σ.badFlpIntr io.junk).doFdRequest io
  else σ.endRequest.doFdRequest io

/-- The test of `seek_interrupt`. -/
def SeekFailed (σ : Driver) (n : Option ℕ) : Prop := n ≠ some 2 ∨ σ.st0 &&& 0xf8 ≠ 0x20 ∨ σ.st1 ≠ σ.seekTrack

instance (σ : Driver) (n : Option ℕ) : Decidable (σ.SeekFailed n) := inferInstanceAs (Decidable (_ ∨ _ ∨ _))

def seekInterrupt (σ : Driver) (io : Io) : Driver :=
  let (n, σ) := (σ.outputBytes io.sent).result io
  if σ.SeekFailed n then (σ.badFlpIntr io.junk).doFdRequest io
  else { σ with currentTrack := σ.st1 }.setupRwFloppy io

/-- What `recal_interrupt` and `unexpected_floppy_interrupt` make of the reply. -/
def sense (σ : Driver) (io : Io) (recalibrate : Bool) : Driver :=
  let (n, σ) := (σ.outputBytes io.sent).result io
  if n ≠ some 2 ∨ σ.st0 &&& 0xe0 = 0x60 then { σ with reset := true } else { σ with recalibrate := recalibrate }

def recalInterrupt (σ : Driver) (io : Io) : Driver := (σ.sense io false).doFdRequest io

def unexpectedFloppyInterrupt (σ : Driver) (io : Io) : Driver := σ.sense io true

def resetInterrupt (σ : Driver) (io : Io) : Driver :=
  (((σ.outputBytes io.sent).result io).2.outputBytes io.sentSetup).doFdRequest io

/-- `transfer`; the first bytes are those of FD_SPECIFY, if they are needed. -/
def transfer (σ : Driver) (io : Io) : Driver :=
  let σ := σ.outputBytes io.sent
  if σ.reset then σ.doFdRequest io
  else if ! σ.seek then σ.setupRwFloppy io
  else
    let σ := { σ with doFloppy := some .seekInterrupt }.outputBytes io.sentSetup
    if σ.reset then σ.doFdRequest io else σ

def floppyOnInterrupt (σ : Driver) (change : Bool) (io : Io) : Driver :=
  if change then { σ with timers := .transfer :: σ.timers } else σ.transfer io

/-- `floppy_interrupt`: `do_floppy` is cleared before it is called. -/
def floppyInterrupt (σ : Driver) (io : Io) : Driver :=
  match σ.doFloppy with
  | none => σ.unexpectedFloppyInterrupt io
  | some h =>
    let σ := { σ with doFloppy := none }
    match h with
    | .rwInterrupt => σ.rwInterrupt io
    | .seekInterrupt => σ.seekInterrupt io
    | .recalInterrupt => σ.recalInterrupt io
    | .resetInterrupt => σ.resetInterrupt io

def step (σ : Driver) : Event → Option Driver
  | .add id dev write sector pos io =>
    match σ.queue with
    | [] => some ({ σ with queue := [⟨id, dev, write, 0, sector⟩] }.doFdRequest io)
    | r :: q => some { σ with queue := r :: (q.take pos ++ ⟨id, dev, write, 0, sector⟩ :: q.drop pos) }
  | .timer t change io =>
    if t ∈ σ.timers then
      let σ := { σ with timers := σ.timers.erase t }
      some (match t with
        | .floppyOnInterrupt => σ.floppyOnInterrupt change io
        | .transfer => σ.transfer io)
    else none
  | .irq io => some (σ.floppyInterrupt io)

def start : Driver := ⟨[], false, false, false, 0, 0, 0, 0, 0, 255, false, 0, 0, 0, none, [], 0, false, []⟩

end Driver

namespace Driver

/-- CURRENT was never used when it was NULL, and every error went to the request that suffered it. -/
def Safe (σ : Driver) : Prop := σ.null = false ∧ ∀ c ∈ σ.charges, c.1 = c.2

/-- The interrupt makes `bad_flp_intr` charge the current request. -/
def Failed (σ : Driver) (io : Io) : Prop :=
  σ.doFloppy = some .rwInterrupt ∧ (σ.result io).2.RwFailed (σ.result io).1 ∧ ¬ (σ.result io).2.WriteProtected ∨
  σ.doFloppy = some .seekInterrupt ∧
    ((σ.outputBytes io.sent).result io).2.SeekFailed ((σ.outputBytes io.sent).result io).1

/-- A request that is the only one does not have its last error, and none comes while the driver
    resets or recalibrates without a request. -/
def Survives (σ : Driver) : Event → Prop
  | .add .. => σ.queue = [] → σ.doFloppy = none
  | .timer .. => True
  | .irq io => σ.Failed io → ∀ r ∈ σ.queue.head?, σ.queue.tail = [] → r.errors < maxErrors

/-- At most one timer or handler is waited for, without a request none that uses CURRENT, and the
    current request is the one that the command was for. -/
structure Inv (σ : Driver) : Prop where
  safe : σ.Safe
  chain : σ.timers = [] ∨ σ.doFloppy = none ∧ ∃ t, σ.timers = [t]
  empty : σ.queue = [] → σ.timers = [] ∧ σ.doFloppy ≠ some .rwInterrupt ∧ σ.doFloppy ≠ some .seekInterrupt
  owner : ∀ r ∈ σ.queue.head?, σ.timers ≠ [] ∨ σ.doFloppy = some .rwInterrupt ∨ σ.doFloppy = some .seekInterrupt → σ.owner = r.id

/-- A handler runs for the current request, and nothing else is waited for. -/
structure Runs (σ : Driver) (r : Req) (q : List Req) : Prop where
  safe : σ.Safe
  queue : σ.queue = r :: q
  timers : σ.timers = []
  doFloppy : σ.doFloppy = none

/-- `do_fd_request` may be called: a handler that is set is one that a reset takes back. -/
structure Calls (σ : Driver) : Prop where
  safe : σ.Safe
  timers : σ.timers = []
  doFloppy : σ.reset = false → σ.doFloppy = none

variable {σ σ' : Driver} {r : Req} {q : List Req} {io : Io}

/-- The parts of the state that the bytes and the replies leave as they are. -/
structure Same (σ σ' : Driver) : Prop where
  queue : σ'.queue = σ.queue
  recalibrate : σ'.recalibrate = σ.recalibrate
  timers : σ'.timers = σ.timers
  doFloppy : σ'.doFloppy = σ.doFloppy
  owner : σ'.owner = σ.owner
  null : σ'.null = σ.null
  charges : σ'.charges = σ.charges
  seek : σ'.seek = σ.seek

theorem Same.refl (σ : Driver) : σ.Same σ := ⟨rfl, rfl, rfl, rfl, rfl, rfl, rfl, rfl⟩

theorem Same.trans {σ₁ σ₂ σ₃ : Driver} (h : σ₁.Same σ₂) (h' : σ₂.Same σ₃) : σ₁.Same σ₃ :=
  ⟨h'.queue.trans h.queue, h'.recalibrate.trans h.recalibrate, h'.timers.trans h.timers, h'.doFloppy.trans h.doFloppy,
    h'.owner.trans h.owner, h'.null.trans h.null, h'.charges.trans h.charges, h'.seek.trans h.seek⟩

theorem Same.safe (h : σ.Same σ') (hs : σ.Safe) : σ'.Safe := by
  unfold Safe
  rw [h.null, h.charges]
  exact hs

theorem outputBytes_same (σ : Driver) (sent : Bool) : σ.Same (σ.outputBytes sent) := by
  unfold outputBytes
  split_ifs <;> exact ⟨rfl, rfl, rfl, rfl, rfl, rfl, rfl, rfl⟩

theorem result_same (σ : Driver) (io : Io) : σ.Same (σ.result io).2 := by
  unfold result
  dsimp only
  split_ifs <;> exact ⟨rfl, rfl, rfl, rfl, rfl, rfl, rfl, rfl⟩

theorem Same.runs (h : σ.Same σ') (hr : σ.Runs r q) : σ'.Runs r q :=
  ⟨h.safe hr.safe, h.queue.trans hr.queue, h.timers.trans hr.timers, h.doFloppy.trans hr.doFloppy⟩

/-- With a handler set, other than those of a transfer. -/
theorem inv_waits (hs : σ.Safe) (ht : σ.timers = []) (hd : σ.doFloppy ≠ some .rwInterrupt)
    (hd' : σ.doFloppy ≠ some .seekInterrupt) : σ.Inv :=
  ⟨hs, .inl ht, fun _ => ⟨ht, hd, hd'⟩, fun _ _ ho => absurd ho (by simp [ht, hd, hd'])⟩

/-- With the handler of a transfer set. -/
theorem inv_transfers (hs : σ.Safe) (hq : σ.queue = r :: q) (ht : σ.timers = []) (ho : σ.owner = r.id) : σ.Inv := by
  refine ⟨hs, .inl ht, fun h => ?_, fun r' hr' _ => ?_⟩
  · rw [hq] at h
    cases h
  · obtain rfl : r = r' := by simpa [hq] using hr'
    exact ho

/-- The requests that lie outside their floppy are ended; the next one waits for its motor. -/
theorem nextRequest_inv (hs : σ.Safe) (ht : σ.timers = []) (hd : σ.doFloppy = none) (l : List Req) : (σ.nextRequest l).Inv := by
  induction l generalizing σ with
  | nil => exact inv_waits (σ := { σ with queue := [] }) hs ht (by simp [hd]) (by simp [hd])
  | cons r q ih =>
    unfold nextRequest
    dsimp only
    split_ifs
    · exact ih hs ht hd
    · refine ⟨hs, .inr ⟨hd, _, by rw [ht]⟩, nofun, fun r' hr' _ => ?_⟩
      obtain rfl : r = r' := by simpa using hr'
      rfl

theorem doFdRequest_inv (h : σ.Calls) (io : Io) : (σ.doFdRequest io).Inv := by
  unfold doFdRequest
  dsimp only
  split_ifs with hreset hrecal
  · exact inv_waits h.safe h.timers nofun nofun
  · unfold recalibrateFloppy
    dsimp only
    have hsame := outputBytes_same
      { σ with seek := false, recalibrate := false, currentTrack := 0, doFloppy := some .recalInterrupt } io.sentRecal
    split_ifs
    · exact inv_waits (hsame.safe h.safe) (hsame.timers.trans h.timers) nofun nofun
    · refine inv_waits (hsame.safe h.safe) (hsame.timers.trans h.timers) ?_ ?_ <;>
      · rw [hsame.doFloppy]
        nofun
  · exact nextRequest_inv (σ := { σ with seek := false }) h.safe h.timers (h.doFloppy (by simpa using hreset)) σ.queue

theorem Runs.calls (h : σ.Runs r q) : σ.Calls := ⟨h.safe, h.timers, fun _ => h.doFloppy⟩

theorem setupRwFloppy_inv (h : σ.Runs r q) (ho : σ.owner = r.id) (io : Io) : (σ.setupRwFloppy io).Inv := by
  have hdma : σ.setupDma = σ := by
    unfold setupDma
    rw [h.queue]
  unfold setupRwFloppy
  rw [hdma]
  dsimp only
  have hsame := outputBytes_same { σ with doFloppy := some .rwInterrupt } io.sentSetup
  split_ifs with hreset
  · refine doFdRequest_inv ⟨hsame.safe h.safe, hsame.timers.trans h.timers, fun hr => ?_⟩ io
    rw [hr] at hreset
    cases hreset
  · exact inv_transfers (hsame.safe h.safe) (hsame.queue.trans h.queue) (hsame.timers.trans h.timers) (hsame.owner.trans ho)

theorem transfer_inv (h : σ.Runs r q) (ho : σ.owner = r.id) (io : Io) : (σ.transfer io).Inv := by
  unfold transfer
  dsimp only
  have hsame := outputBytes_same σ io.sent
  have hruns := hsame.runs h
  split_ifs with hreset hseek hreset'
  · exact doFdRequest_inv hruns.calls io
  · exact setupRwFloppy_inv hruns (hsame.owner.trans ho) io
  · have hsame' := outputBytes_same { σ.outputBytes io.sent with doFloppy := some .seekInterrupt } io.sentSetup
    refine doFdRequest_inv ⟨hsame'.safe hruns.safe, hsame'.timers.trans hruns.timers, fun hr => ?_⟩ io
    rw [hr] at hreset'
    cases hreset'
  · have hsame' := outputBytes_same { σ.outputBytes io.sent with doFloppy := some .seekInterrupt } io.sentSetup
    exact inv_transfers (hsame'.safe hruns.safe) (hsame'.queue.trans hruns.queue) (hsame'.timers.trans hruns.timers)
      (hsame'.owner.trans (hsame.owner.trans ho))

/-- `bad_flp_intr`, when the request that it may give up is not the last one. -/
theorem badFlpIntr_calls (h : σ.Runs r q) (ho : σ.owner = r.id) (hlast : q = [] → r.errors < maxErrors) (junk : Bool) :
    (σ.badFlpIntr junk).Calls := by
  have hsafe : ∀ c ∈ (σ.owner, r.id) :: σ.charges, c.1 = c.2 := fun c hc => by
    obtain rfl | hc := List.mem_cons.mp hc
    · exact ho
    · exact h.safe.2 c hc
  unfold badFlpIntr charge
  simp only [h.queue]
  by_cases hmax : maxErrors < r.errors + 1
  · rw [if_pos hmax]
    unfold endRequest testErrors
    cases q with
    | nil => exact absurd (hlast rfl) (by omega)
    | cons r' q =>
      dsimp only
      split_ifs <;> exact ⟨⟨h.safe.1, hsafe⟩, h.timers, fun _ => h.doFloppy⟩
  · rw [if_neg hmax]
    unfold testErrors
    dsimp only
    split_ifs <;> exact ⟨⟨h.safe.1, hsafe⟩, h.timers, fun _ => h.doFloppy⟩

theorem endRequest_calls (h : σ.Runs r q) : σ.endRequest.Calls := by
  unfold endRequest
  simp only [h.queue]
  exact ⟨h.safe, h.timers, fun _ => h.doFloppy⟩

theorem rwInterrupt_inv (h : σ.Runs r q) (ho : σ.owner = r.id) (hlast : q = [] →
    (σ.result io).2.RwFailed (σ.result io).1 → ¬ (σ.result io).2.WriteProtected → r.errors < maxErrors) :
    (σ.rwInterrupt io).Inv := by
  have hsame := result_same σ io
  have hruns := hsame.runs h
  unfold rwInterrupt
  dsimp only
  split_ifs with hfail hprot
  · exact doFdRequest_inv (endRequest_calls hruns) io
  · exact doFdRequest_inv (badFlpIntr_calls hruns (hsame.owner.trans ho) (fun hq => hlast hq hfail hprot) io.junk) io
  · exact doFdRequest_inv (endRequest_calls hruns) io

theorem seekInterrupt_inv (h : σ.Runs r q) (ho : σ.owner = r.id) (hlast : q = [] →
    ((σ.outputBytes io.sent).result io).2.SeekFailed ((σ.outputBytes io.sent).result io).1 → r.errors < maxErrors) :
    (σ.seekInterrupt io).Inv := by
  have hsame := (outputBytes_same σ io.sent).trans (result_same (σ.outputBytes io.sent) io)
  have hruns := hsame.runs h
  unfold seekInterrupt
  dsimp only
  split_ifs with hfail
  · exact doFdRequest_inv (badFlpIntr_calls hruns (hsame.owner.trans ho) (fun hq => hlast hq hfail) io.junk) io
  · exact setupRwFloppy_inv (σ := { ((σ.outputBytes io.sent).result io).2 with
      currentTrack := ((σ.outputBytes io.sent).result io).2.st1 })
      ⟨hruns.safe, hruns.queue, hruns.timers, hruns.doFloppy⟩ (hsame.owner.trans ho) io

theorem Same.calls (h : σ.Same σ') (hc : σ.Safe) (ht : σ.timers = []) (hd : σ.doFloppy = none) : σ'.Calls :=
  ⟨h.safe hc, h.timers.trans ht, fun _ => h.doFloppy.trans hd⟩

theorem sense_calls (hs : σ.Safe) (ht : σ.timers = []) (hd : σ.doFloppy = none) (io : Io) (b : Bool) : (σ.sense io b).Calls := by
  have hcalls := ((outputBytes_same σ io.sent).trans (result_same (σ.outputBytes io.sent) io)).calls hs ht hd
  have hd' := ((outputBytes_same σ io.sent).trans (result_same (σ.outputBytes io.sent) io)).doFloppy.trans hd
  unfold sense
  dsimp only
  split_ifs <;> exact ⟨hcalls.safe, hcalls.timers, fun _ => hd'⟩

/-- The flags do not matter. -/
theorem Inv.unexpected (h : σ.Inv) (io : Io) : (σ.unexpectedFloppyInterrupt io).Inv := by
  have hsame := (outputBytes_same σ io.sent).trans (result_same (σ.outputBytes io.sent) io)
  have hsafe := hsame.safe h.safe
  obtain ⟨hq, -, ht, hd, ho, -, -, -⟩ := hsame
  unfold unexpectedFloppyInterrupt sense
  dsimp only
  split_ifs <;>
  · refine ⟨hsafe, ?_, fun hq' => ?_, fun r hr hw => ?_⟩
    · rw [ht, hd]
      exact h.chain
    · rw [ht, hd]
      exact h.empty (hq.symm.trans hq')
    · rw [ho]
      refine h.owner r (by rwa [← hq]) ?_
      rwa [ht, hd] at hw

theorem Inv.floppyInterrupt (h : σ.Inv) (io : Io) (hsurvives : σ.Survives (.irq io)) : (σ.floppyInterrupt io).Inv := by
  unfold Driver.floppyInterrupt
  cases hd : σ.doFloppy with
  | none => exact h.unexpected io
  | some x =>
    have ht : σ.timers = [] := h.chain.resolve_right fun hn => by rw [hn.1] at hd; cases hd
    have hcurrent : σ.doFloppy = some .rwInterrupt ∨ σ.doFloppy = some .seekInterrupt →
        ∃ r q, σ.queue = r :: q ∧ σ.owner = r.id := fun hx => by
      cases hq : σ.queue with
      | nil =>
        obtain ⟨-, h1, h2⟩ := h.empty hq
        exact (hx.elim h1 h2).elim
      | cons r q => exact ⟨r, q, rfl, h.owner r (by simp [hq]) (.inr hx)⟩
    have hres : ∀ τ : Driver, (({ τ with doFloppy := none } : Driver).result io).1 = (τ.result io).1 ∧
        (({ τ with doFloppy := none } : Driver).result io).2 = { (τ.result io).2 with doFloppy := none } := fun τ => by
      unfold result
      dsimp only
      split_ifs <;> exact ⟨rfl, rfl⟩
    have hout : ∀ sent, ({ σ with doFloppy := none } : Driver).outputBytes sent = { σ.outputBytes sent with doFloppy := none } :=
      fun sent => by
        unfold outputBytes
        dsimp only
        split_ifs <;> rfl
    cases x with
    | rwInterrupt =>
      obtain ⟨r, q, hq, ho⟩ := hcurrent (.inl hd)
      refine rwInterrupt_inv (σ := { σ with doFloppy := none }) ⟨h.safe, hq, ht, rfl⟩ ho fun hq' hfail hprot => ?_
      rw [(hres σ).1, (hres σ).2] at hfail
      rw [(hres σ).2] at hprot
      exact hsurvives (.inl ⟨hd, hfail, hprot⟩) r (by simp [hq]) (by simp [hq, hq'])
    | seekInterrupt =>
      obtain ⟨r, q, hq, ho⟩ := hcurrent (.inr hd)
      refine seekInterrupt_inv (σ := { σ with doFloppy := none }) ⟨h.safe, hq, ht, rfl⟩ ho fun hq' hfail => ?_
      rw [hout, (hres _).1, (hres _).2] at hfail
      exact hsurvives (.inr ⟨hd, hfail⟩) r (by simp [hq]) (by simp [hq, hq'])
    | recalInterrupt => exact doFdRequest_inv (sense_calls (σ := { σ with doFloppy := none }) h.safe ht rfl io false) io
    | resetInterrupt =>
      have hsame := (outputBytes_same { σ with doFloppy := none } io.sent).trans (result_same _ io)
      exact doFdRequest_inv ((hsame.trans (outputBytes_same _ io.sentSetup)).calls h.safe ht rfl) io

theorem Inv.step {e : Event} (h : σ.Inv) (hsurvives : σ.Survives e) (hstep : σ.step e = some σ') : σ'.Inv := by
  cases e with
  | add id dev write sector pos io =>
    simp only [Driver.step] at hstep
    cases hq : σ.queue with
    | nil =>
      rw [hq] at hstep
      obtain rfl := Option.some.inj hstep
      exact doFdRequest_inv (σ := { σ with queue := [⟨id, dev, write, 0, sector⟩] })
        ⟨h.safe, (h.empty hq).1, fun _ => hsurvives hq⟩ io
    | cons r q =>
      rw [hq] at hstep
      obtain rfl := Option.some.inj hstep
      refine ⟨h.safe, h.chain, nofun, fun r' hr' => h.owner r' ?_⟩
      rw [hq]
      simpa using hr'
  | timer t change io =>
    simp only [Driver.step] at hstep
    split_ifs at hstep with hmem
    obtain rfl := Option.some.inj hstep
    obtain ⟨hd, t', ht⟩ := h.chain.resolve_left fun ht => by rw [ht] at hmem; cases hmem
    obtain rfl : t = t' := by simpa [ht] using hmem
    obtain ⟨r, q, hq⟩ : ∃ r q, σ.queue = r :: q := List.exists_cons_of_ne_nil fun hq => by rw [(h.empty hq).1] at hmem; cases hmem
    have howner : σ.owner = r.id := h.owner r (by simp [hq]) (.inl (by simp [ht]))
    have hruns : Runs { σ with timers := σ.timers.erase t } r q := ⟨h.safe, hq, by simp [ht], hd⟩
    cases t with
    | transfer => exact transfer_inv hruns howner io
    | floppyOnInterrupt =>
      dsimp only [floppyOnInterrupt]
      split_ifs
      · refine ⟨h.safe, .inr ⟨hd, _, congrArg (Timer.transfer :: ·) hruns.timers⟩, fun hq' => ?_, fun r' hr' _ => ?_⟩
        · exact absurd (hq.symm.trans hq') (List.cons_ne_nil r q)
        · obtain rfl : r = r' := by simpa [hq] using hr'
          exact howner
      · exact transfer_inv hruns howner io
  | irq io =>
    obtain rfl := Option.some.inj hstep
    exact h.floppyInterrupt io hsurvives

instance (σ : Driver) (io : Io) : Decidable (σ.Failed io) := inferInstanceAs (Decidable (_ ∧ _ ∧ ¬ _ ∨ _ ∧ _))

instance (σ : Driver) : ∀ e, Decidable (σ.Survives e)
  | .add .. => inferInstanceAs (Decidable (_ → _))
  | .timer .. => inferInstanceAs (Decidable True)
  | .irq _ => inferInstanceAs (Decidable (_ → ∀ r ∈ σ.queue.head?, _ → _))

end Driver
end Linux011.Blk.Floppy
