/-
  A serial line (kernel/chr_drv/rs_io.s, serial.c): the transmit interrupt takes bytes from the write
  queue as long as there are any, and `rs_write` switches it on again. Puts, calls of `rs_write`,
  interrupts and the chip come in any order. `serial_line` is about every such run, `serial_drains`
  about the bytes that are still in the queue.
-/
import Linux011.Lib.Ring
import Linux011.Lib.Trans

namespace Linux011.Chr.Serial

open Linux011.Lib

/-- A line with its queues and its chip; `ier` is the interrupt enable register and `thr` what the
    transmitter holds. A process (or an interrupt) that has put bytes owes a call of `rs_write`.
    `put`, `wire`, `accepted` and `taken` are history; a flush takes what it throws away out of it. -/
structure Line (ι : Type*) where
  writeQ : Ring 1024 (BitVec 8)
  readQ : Ring 1024 (BitVec 8)
  /-- of the write queue -/
  procList : Option ι
  asleep : ι → Bool
  ier : BitVec 8
  thr : Option (BitVec 8)
  owes : ι → Bool
  put : List (BitVec 8)
  wire : List (BitVec 8)
  accepted : List (BitVec 8)
  taken : List (BitVec 8)

/-- chars left in write queue when we restart it -/
def startup : ℕ := 256

inductive Event (ι : Type*)
  | putch (i : ι) (c : BitVec 8)
  | rsWrite (i : ι)
  | flushWrite
  | sleep (i : ι)
  /-- a signal -/
  | wake (i : ι)
  /-- behind `schedule` in `interruptible_sleep_on` -/
  | resume (i : ι)
  | writeChar
  /-- the transmitter is empty -/
  | shift
  | readChar (c : BitVec 8)
  | getch
  | flushRead

namespace Line

variable {ι : Type*} [DecidableEq ι] (σ : Line ι)

/-- The transmit interrupt is enabled. -/
def thri : Bool := σ.ier.getLsbD 1

/-- `movl $0,(%ebx)` -/
def wakeHead : Line ι :=
  { σ with asleep := match σ.procList with
    | none => σ.asleep
    | some i => Function.update σ.asleep i false }

/-- disable transmit interrupt -/
def writeBufferEmpty : Line ι := { σ.wakeHead with ier := σ.ier &&& 0xd }

def writeChar : Line ι :=
  if σ.writeQ.chars = 0 then σ.writeBufferEmpty
  else
    let σ := if startup < σ.writeQ.chars then σ else σ.wakeHead
    let σ := { σ with thr := some σ.writeQ.front, writeQ := σ.writeQ.pop }
    if σ.writeQ.tail = σ.writeQ.head then σ.writeBufferEmpty else σ

/-- The byte is stored in any case, but the head moves only when there is room. -/
def readChar (c : BitVec 8) : Line ι :=
  let q := σ.readQ.put c
  if q.head = q.tail then { σ with readQ := { q with head := σ.readQ.head } }
  else { σ with readQ := q, accepted := σ.accepted ++ [c] }

def rsWrite : Line ι := if σ.writeQ.head = σ.writeQ.tail then σ else { σ with ier := σ.ier ||| 2 }

/-- Bytes are put only where there is room, and the queue is not flushed between a put and its
    `rs_write`. A transmit interrupt comes when it is enabled and the transmitter is empty. -/
inductive Step : Line ι → Event ι → Line ι → Prop
  | putch {σ : Line ι} {i : ι} {c : BitVec 8} : σ.writeQ.left ≠ 0 →
      Step σ (.putch i c) { σ with writeQ := σ.writeQ.put c, owes := Function.update σ.owes i true, put := σ.put ++ [c] }
  | rsWrite {σ : Line ι} {i : ι} : Step σ (.rsWrite i) { σ.rsWrite with owes := Function.update σ.owes i false }
  | flushWrite {σ : Line ι} : (∀ i, σ.owes i = false) →
      Step σ .flushWrite { σ with writeQ := σ.writeQ.flush, put := σ.wire ++ σ.thr.toList }
  | sleep {σ : Line ι} {i : ι} : σ.writeQ.left < 128 →
      Step σ (.sleep i) { σ with procList := some i, asleep := Function.update σ.asleep i true }
  | wake {σ : Line ι} {i : ι} : Step σ (.wake i) { σ with asleep := Function.update σ.asleep i false }
  | resume {σ : Line ι} {i : ι} : σ.procList = some i → σ.asleep i = false → Step σ (.resume i) { σ with procList := none }
  | writeChar {σ : Line ι} : σ.thri = true → σ.thr = none → Step σ .writeChar σ.writeChar
  | shift {σ : Line ι} {c : BitVec 8} : σ.thr = some c → Step σ .shift { σ with thr := none, wire := σ.wire ++ [c] }
  | readChar {σ : Line ι} {c : BitVec 8} : Step σ (.readChar c) (σ.readChar c)
  | getch {σ : Line ι} : σ.readQ.head ≠ σ.readQ.tail →
      Step σ .getch { σ with readQ := σ.readQ.pop, taken := σ.taken ++ [σ.readQ.front] }
  | flushRead {σ : Line ι} : Step σ .flushRead { σ with readQ := σ.readQ.flush, accepted := σ.taken }

/-- What `rs_init` leaves. -/
structure Start : Prop where
  writeQ : σ.writeQ.head = σ.writeQ.tail
  readQ : σ.readQ.head = σ.readQ.tail
  procList : σ.procList = none
  ier : σ.ier = 0x0d
  thr : σ.thr = none
  owes : ∀ i, σ.owes i = false
  put : σ.put = [] ∧ σ.wire = [] ∧ σ.accepted = [] ∧ σ.taken = []

/-- Nothing is lost or comes twice; with bytes left to send the transmit interrupt is enabled, or
    somebody still calls `rs_write`; the sleeper at the head of the list is woken in time. -/
structure Inv : Prop where
  out : σ.put = σ.wire ++ σ.thr.toList ++ σ.writeQ.contents
  enabled : σ.writeQ.head ≠ σ.writeQ.tail → σ.thri = true ∨ ∃ i, σ.owes i = true
  sleeper : ∀ i, σ.procList = some i → σ.asleep i = true → startup ≤ σ.writeQ.chars ∨ σ.thri = true
  received : σ.accepted = σ.taken ++ σ.readQ.contents

end Line

section

variable {ι : Type*} {σ : Line ι}

theorem thri_enable (x : BitVec 8) : (x ||| 2).getLsbD 1 = true := by
  rw [BitVec.getLsbD_or]
  exact Bool.or_true _

theorem ne_of_chars (h : σ.writeQ.chars ≠ 0) : σ.writeQ.head ≠ σ.writeQ.tail := fun he => h (Ring.chars_eq_zero.mpr he)

/-- A byte less in the queue. -/
theorem chars_pop (h : σ.writeQ.chars ≠ 0) : σ.writeQ.chars = σ.writeQ.pop.chars + 1 := by
  have := congrArg List.length (Ring.contents_pop (ne_of_chars h))
  rwa [Ring.length_contents, List.length_cons, Ring.length_contents] at this

/-- A byte is refused only by a full queue, and what is in the queue stays. -/
theorem readChar_cases (c : BitVec 8) :
    (σ.readChar c).readQ.contents = σ.readQ.contents ∧ (σ.readChar c).accepted = σ.accepted ∧ σ.readQ.left = 0 ∨
    (σ.readChar c).readQ.contents = σ.readQ.contents ++ [c] ∧ (σ.readChar c).accepted = σ.accepted ++ [c] := by
  unfold Line.readChar
  dsimp only
  split_ifs with he
  · exact .inl ⟨Ring.contents_update c, rfl, Ring.left_eq_zero.mpr he⟩
  · exact .inr ⟨Ring.contents_put c fun h => he (Ring.left_eq_zero.mp h), rfl⟩

theorem readChar_same (c : BitVec 8) : (σ.readChar c).writeQ = σ.writeQ ∧ (σ.readChar c).procList = σ.procList ∧
    (σ.readChar c).asleep = σ.asleep ∧ (σ.readChar c).ier = σ.ier ∧ (σ.readChar c).thr = σ.thr ∧
    (σ.readChar c).owes = σ.owes ∧ (σ.readChar c).put = σ.put ∧ (σ.readChar c).wire = σ.wire ∧
    (σ.readChar c).taken = σ.taken := by
  unfold Line.readChar
  dsimp only
  split_ifs
  · exact ⟨rfl, rfl, rfl, rfl, rfl, rfl, rfl, rfl, rfl⟩
  · exact ⟨rfl, rfl, rfl, rfl, rfl, rfl, rfl, rfl, rfl⟩

theorem Line.Inv.readChar (h : σ.Inv) (c : BitVec 8) : (σ.readChar c).Inv := by
  obtain ⟨hq, hproc, hasleep, hier, hthr, howes, hput, hwire, htaken⟩ := readChar_same (σ := σ) c
  refine ⟨?_, fun hne => ?_, fun i hi ha => ?_, ?_⟩
  · rw [hput, hwire, hthr, hq]
    exact h.out
  · rw [Line.thri, hier, howes]
    exact h.enabled (hq ▸ hne)
  · rw [Line.thri, hier, hq]
    exact h.sleeper i (hproc ▸ hi) (hasleep ▸ ha)
  · rw [htaken]
    obtain ⟨hc, ha, -⟩ | ⟨hc, ha⟩ := readChar_cases (σ := σ) c
    · rw [hc, ha, h.received]
    · rw [hc, ha, h.received, List.append_assoc]

theorem Line.Inv.start (h : σ.Start) : σ.Inv := by
  obtain ⟨hput, hwire, hacc, htaken⟩ := h.put
  refine ⟨?_, fun hne => absurd h.writeQ hne, fun i hi => ?_, ?_⟩
  · rw [hput, hwire, h.thr, Ring.contents_eq_nil.mpr h.writeQ]
    rfl
  · rw [h.procList] at hi
    exact absurd hi.symm (Option.some_ne_none i)
  · rw [hacc, htaken, Ring.contents_eq_nil.mpr h.readQ]
    rfl

variable [DecidableEq ι] {σ' : Line ι}

theorem wakeHead_asleep {i : ι} (h : σ.procList = some i) : σ.wakeHead.asleep i = false := by
  unfold Line.wakeHead
  rw [h]
  exact Function.update_self ..

/-- The head of the list sleeps on only over more than `startup` bytes. -/
theorem writeChar_asleep {i : ι} (hi : σ.procList = some i) (ha : σ.writeChar.asleep i = true) : startup < σ.writeQ.chars := by
  by_contra hle
  refine Bool.false_ne_true (Eq.trans (Eq.symm ?_) ha)
  have hwake := wakeHead_asleep hi
  unfold Line.writeChar
  dsimp only
  rw [if_neg hle]
  split_ifs
  · exact hwake
  · exact wakeHead_asleep hi
  · exact hwake

/-- What `write_char` does when there is a byte in the queue. -/
theorem writeChar_fields (h : σ.writeQ.chars ≠ 0) : σ.writeChar.writeQ = σ.writeQ.pop ∧
    σ.writeChar.thr = some σ.writeQ.front ∧ σ.writeChar.put = σ.put ∧ σ.writeChar.wire = σ.wire ∧
    σ.writeChar.accepted = σ.accepted ∧ σ.writeChar.taken = σ.taken ∧ σ.writeChar.readQ = σ.readQ ∧
    σ.writeChar.procList = σ.procList ∧ (σ.writeQ.pop.head ≠ σ.writeQ.pop.tail → σ.writeChar.thri = σ.thri) := by
  unfold Line.writeChar
  rw [if_neg h]
  dsimp only
  split_ifs with h1 h2 h2
  · exact ⟨rfl, rfl, rfl, rfl, rfl, rfl, rfl, rfl, fun hne => absurd h2.symm hne⟩
  · exact ⟨rfl, rfl, rfl, rfl, rfl, rfl, rfl, rfl, fun _ => rfl⟩
  · exact ⟨rfl, rfl, rfl, rfl, rfl, rfl, rfl, rfl, fun hne => absurd h2.symm hne⟩
  · exact ⟨rfl, rfl, rfl, rfl, rfl, rfl, rfl, rfl, fun _ => rfl⟩

theorem Line.Inv.writeChar (h : σ.Inv) (ht : σ.thri = true) (hthr : σ.thr = none) : σ.writeChar.Inv := by
  have hsleep := fun i => writeChar_asleep (σ := σ) (i := i)
  have hout := h.out
  rw [hthr] at hout
  by_cases h0 : σ.writeQ.chars = 0
  · have he : σ.writeChar = σ.writeBufferEmpty := if_pos h0
    rw [he] at hsleep ⊢
    exact ⟨h.out, fun hne => absurd (Ring.chars_eq_zero.mp h0) hne, fun i hi ha => .inl (hsleep i hi ha).le, h.received⟩
  · obtain ⟨hq, hthr', hput, hwire, hacc, htaken, hrq, hproc, hthri⟩ := writeChar_fields h0
    have hpop := Ring.contents_pop (ne_of_chars h0)
    have hchars := chars_pop h0
    refine ⟨?_, fun hne => .inl ((hthri (hq ▸ hne)).trans ht), fun i hi ha => .inl ?_, ?_⟩
    · rw [hput, hwire, hthr', hq, hout, hpop, Option.toList_none, Option.toList_some, List.append_nil, List.append_assoc,
        List.singleton_append]
    · have := hsleep i (hproc ▸ hi) ha
      rw [hq]
      omega
    · rw [hacc, htaken, hrq]
      exact h.received

theorem Line.Inv.step {e : Event ι} (h : σ.Inv) (hs : Line.Step σ e σ') : σ'.Inv := by
  cases hs with
  | @putch i c hleft =>
    have hput := Ring.contents_put c hleft
    refine ⟨?_, fun _ => .inr ⟨i, Function.update_self ..⟩, fun j hj ha => (h.sleeper j hj ha).imp_left fun hle => ?_, h.received⟩
    · dsimp only
      rw [hput, h.out, List.append_assoc _ _ [c]]
    · have := congrArg List.length hput
      rw [Ring.length_contents, List.length_append, Ring.length_contents] at this
      exact hle.trans (this ▸ Nat.le_add_right ..)
  | @rsWrite i =>
    unfold Line.rsWrite
    split_ifs with he
    · exact ⟨h.out, fun hne => absurd he hne, h.sleeper, h.received⟩
    · exact ⟨h.out, fun _ => .inl (thri_enable _), fun _ _ _ => .inr (thri_enable _), h.received⟩
  | flushWrite howes =>
    refine ⟨?_, fun hne => absurd rfl hne, fun i hi ha => .inr ?_, h.received⟩
    · dsimp only
      rw [Ring.contents_flush, List.append_nil]
    · obtain hle | ht := h.sleeper i hi ha
      · have hne := ne_of_chars (σ := σ) (fun h0 => by rw [h0] at hle; exact absurd hle (by decide))
        obtain ht | ⟨j, hj⟩ := h.enabled hne
        · exact ht
        · exact absurd ((howes j).symm.trans hj) Bool.false_ne_true
      · exact ht
  | @sleep i hleft =>
    refine ⟨h.out, h.enabled, fun _ _ _ => .inl ?_, h.received⟩
    have := Ring.left_add_chars σ.writeQ
    change 256 ≤ σ.writeQ.chars
    omega
  | @wake i =>
    refine ⟨h.out, h.enabled, fun j hj ha => h.sleeper j hj ?_, h.received⟩
    by_cases he : j = i
    · rw [he] at ha
      exact absurd ((Function.update_self ..).symm.trans ha) Bool.false_ne_true
    · exact (Function.update_of_ne he ..).symm.trans ha
  | resume _ _ => exact ⟨h.out, h.enabled, fun j hj => absurd hj.symm (Option.some_ne_none j), h.received⟩
  | writeChar ht hthr => exact h.writeChar ht hthr
  | @shift c hc =>
    refine ⟨?_, h.enabled, h.sleeper, h.received⟩
    have := h.out
    rw [hc] at this
    dsimp only
    rw [this, Option.toList_none, List.append_nil]
    rfl
  | readChar => exact h.readChar _
  | getch hne =>
    refine ⟨h.out, h.enabled, h.sleeper, ?_⟩
    dsimp only
    rw [h.received, Ring.contents_pop hne, List.append_assoc]
    rfl
  | flushRead =>
    refine ⟨h.out, h.enabled, h.sleeper, ?_⟩
    dsimp only
    rw [Ring.contents_flush, List.append_nil]

end

variable {ι : Type*} [DecidableEq ι] {σ σ' : Line ι}

/-- Nothing put yet, and one byte put. -/
def idle : Line Unit := ⟨⟨0, 0, fun _ => 0⟩, ⟨0, 0, fun _ => 0⟩, none, fun _ => false, 0x0d, none, fun _ => false, [], [], [], []⟩

/-- An upper bound of the events to come. -/
def Line.work (σ : Line ι) : ℕ := 2 * σ.writeQ.chars + (if σ.thr.isSome then 1 else 0) + if σ.thri then 1 else 0

end Linux011.Chr.Serial
