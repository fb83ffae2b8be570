/-
  The keyboard interrupt (kernel/chr_drv/keyboard.S): prefixes, modifier keys, the lights, and the
  sequences that go to the read queue of the console. `keyboard_modes` says what the mode byte and
  the lights are after any scan codes, `keyboard_queue` that sequences reach the queue whole.
-/
import Linux011.Lib.Ring
import Linux011.Lib.Trans

namespace Linux011.Chr.Keys

open Linux011.Lib

/-- The tables of a keyboard type; which one is compiled in is a matter of KBD_. -/
structure Maps where
  key : ℕ → BitVec 8
  shift : ℕ → BitVec 8
  alt : ℕ → BitVec 8
  /-- `num_table` -/
  num : ℕ → BitVec 8

structure Keyboard where
  /-- caps, alt, ctrl and shift mode -/
  mode : BitVec 8
  /-- num-lock, caps, scroll-lock mode -/
  leds : BitVec 8
  e0 : ℕ
  readQ : Ring 1024 (BitVec 8)
  /-- in `die` -/
  dead : Bool

inductive Routine where
  | none
  | doSelf
  | ctrl
  | unctrl
  | alt
  | unalt
  | lshift
  | unlshift
  | rshift
  | unrshift
  | caps
  | uncaps
  | scroll
  | num
  | cursor
  | func
  | minus
  deriving DecidableEq

/-- `key_table` -/
def keyTable (c : ℕ) : Routine :=
  if c = 0x1D then .ctrl else if c = 0x9D then .unctrl
  else if c = 0x38 then .alt else if c = 0xB8 then .unalt
  else if c = 0x2A then .lshift else if c = 0xAA then .unlshift
  else if c = 0x36 then .rshift else if c = 0xB6 then .unrshift
  else if c = 0x3A then .caps else if c = 0xBA then .uncaps
  else if c = 0x45 then .num else if c = 0x46 then .scroll else if c = 0x35 then .minus
  else if (0x3B ≤ c ∧ c ≤ 0x44) ∨ c = 0x57 ∨ c = 0x58 then .func
  else if 0x47 ≤ c ∧ c ≤ 0x53 ∧ c ≠ 0x4A ∧ c ≠ 0x4E then .cursor
  else if (1 ≤ c ∧ c ≤ 0x53) ∨ c = 0x56 then .doSelf else .none

/-- The loop of `put_queue` on `%ebx:%eax`; false when the buffer is full. -/
def putLoop (q : Ring 1024 (BitVec 8)) (n : ℕ) : Ring 1024 (BitVec 8) × Bool :=
  let q := q.put (BitVec.ofNat 8 n)
  if q.head = q.tail then (q, false)
  else if n / 256 % 4294967296 = 0 then (q, true)
  else putLoop q (n / 256)
termination_by n

/-- buffer full - discard everything -/
def putQueue (q : Ring 1024 (BitVec 8)) (n : ℕ) : Ring 1024 (BitVec 8) :=
  let r := putLoop q n
  if r.2 then r.1 else { r.1 with head := q.head }

/-- `cur_table` -/
def curTable (i : ℕ) : ℕ := [0x48, 0x41, 0x35, 0x20, 0x44, 0x47, 0x43, 0x20, 0x59, 0x42, 0x36, 0x32, 0x33].getD i 0

namespace Keyboard

variable (maps : Maps) (k : Keyboard)

/-- `testb` -/
def test (m : BitVec 8) : Bool := k.mode &&& m ≠ 0

/-- The character of `do_self`, if there is one. -/
def doSelf (c : ℕ) : Option ℕ :=
  let al := if k.test 0x20 then maps.alt c else if k.test 0x03 then maps.shift c else maps.key c
  if al = 0 then none
  else
    let al := if k.test 0x4c ∧ 0x61 ≤ al.toNat ∧ al.toNat ≤ 0x7d then al - 32 else al
    let al := if k.test 0x0c ∧ 64 ≤ al.toNat ∧ al.toNat < 96 then al - 64 else al
    let al := if k.test 0x10 then al ||| 0x80 else al
    some al.toNat

/-- What `cur` puts. -/
def cur (i : ℕ) : ℕ := 0x5b1b + curTable i * 65536 + if curTable i ≤ 0x39 then 0x7e * 16777216 else 0

/-- What a routine puts in the queue. The register `%ecx` that `func` tests is the one of the code
    that was interrupted. -/
def puts (c : ℕ) (ecx : ℤ) : Option ℕ :=
  match keyTable c with
  | .doSelf => k.doSelf maps c
  | .minus => if k.e0 = 1 then some 0x2f else k.doSelf maps c
  | .cursor =>
    let i := c - 0x47
    if i = 12 ∧ k.test 0x0c ∧ k.test 0x30 then none
    else if k.e0 = 1 ∨ ¬ k.leds.getLsbD 1 ∨ k.test 0x03 then some (cur i)
    else some (maps.num i).toNat
  | .func => if ecx < 4 then none else some (0x415b5b1b + (if c ≤ 0x44 then c - 0x3B else c - 0x3B - 18) * 16777216)
  | _ => none

/-- What a routine does to the modes. -/
def modes (c : ℕ) : Keyboard :=
  match keyTable c with
  | .ctrl => { k with mode := k.mode ||| if k.e0 = 0 then 0x04 else 0x08 }
  | .unctrl => { k with mode := k.mode &&& ~~~ if k.e0 = 0 then 0x04 else 0x08 }
  | .alt => { k with mode := k.mode ||| if k.e0 = 0 then 0x10 else 0x20 }
  | .unalt => { k with mode := k.mode &&& ~~~ if k.e0 = 0 then 0x10 else 0x20 }
  | .lshift => { k with mode := k.mode ||| 0x01 }
  | .unlshift => { k with mode := k.mode &&& 0xfe }
  | .rshift => { k with mode := k.mode ||| 0x02 }
  | .unrshift => { k with mode := k.mode &&& 0xfd }
  | .caps => if k.mode.getLsbD 7 then k else { k with leds := k.leds ^^^ 4, mode := (k.mode ^^^ 0x40) ||| 0x80 }
  | .uncaps => { k with mode := k.mode &&& 0x7f }
  | .scroll => { k with leds := k.leds ^^^ 1 }
  | .num => { k with leds := k.leds ^^^ 2 }
  | .cursor => { k with dead := k.dead || (c = 0x53 && k.test 0x0c && k.test 0x30) }
  | _ => k

/-- `keyboard_interrupt`, up to `do_tty_interrupt` -/
def interrupt (c : ℕ) (ecx : ℤ) : Keyboard :=
  if c = 0xe0 then { k with e0 := 1 }
  else if c = 0xe1 then { k with e0 := 2 }
  else { k.modes c with e0 := 0, readQ := (k.puts maps c ecx).elim k.readQ (putQueue k.readQ) }

end Keyboard

/-- The bytes of a sequence. -/
def keyBytes (n : ℕ) : List (BitVec 8) := BitVec.ofNat 8 n :: if n / 256 % 4294967296 = 0 then [] else keyBytes (n / 256)
termination_by n

/-- The modifier key that a scan code is about, as the bit of the mode byte, and whether it goes down.
    Behind a prefix ctrl and alt are the right ones. -/
def keyEvent (e0 c : ℕ) : Option (Fin 8 × Bool) :=
  match keyTable c with
  | .lshift => some (0, true)
  | .unlshift => some (0, false)
  | .rshift => some (1, true)
  | .unrshift => some (1, false)
  | .ctrl => some (if e0 = 0 then 2 else 3, true)
  | .unctrl => some (if e0 = 0 then 2 else 3, false)
  | .alt => some (if e0 = 0 then 4 else 5, true)
  | .unalt => some (if e0 = 0 then 4 else 5, false)
  | .caps => some (7, true)
  | .uncaps => some (7, false)
  | _ => none

/-- The keyboard with its history: what the modifier keys did, last first, how often num and scroll
    were pressed, the sequences that found room, and the bytes `copy_to_cooked` has taken. -/
structure History where
  kb : Keyboard
  events : List (Fin 8 × Bool)
  nums : ℕ
  scrolls : ℕ
  sent : List (List (BitVec 8))
  taken : List (BitVec 8)

inductive Event
  | scan (c : Fin 256) (ecx : ℤ)
  | getch

/-- The sequence of a scan code, when there is room for it. -/
def fresh (maps : Maps) (kb : Keyboard) (c : ℕ) (ecx : ℤ) : List (List (BitVec 8)) :=
  if c = 0xe0 ∨ c = 0xe1 then [] else
    ((kb.puts maps c ecx).map keyBytes).toList.filter fun l => kb.readQ.chars + l.length < 1024

def History.scan (maps : Maps) (h : History) (c : ℕ) (ecx : ℤ) : History where
  kb := h.kb.interrupt maps c ecx
  events := (if c = 0xe0 ∨ c = 0xe1 then none else keyEvent h.kb.e0 c).toList ++ h.events
  nums := h.nums + if keyTable c = .num then 1 else 0
  scrolls := h.scrolls + if keyTable c = .scroll then 1 else 0
  sent := h.sent ++ fresh maps h.kb c ecx
  taken := h.taken

inductive Step (maps : Maps) : History → Event → History → Prop
  | scan {h : History} {c : Fin 256} {ecx : ℤ} : h.kb.dead = false → Step maps h (.scan c ecx) (h.scan maps c ecx)
  | getch {h : History} : h.kb.readQ.head ≠ h.kb.readQ.tail →
      Step maps h .getch { h with
        kb := { h.kb with readQ := h.kb.readQ.pop }
        taken := h.taken ++ [h.kb.readQ.front] }

def keySystem (maps : Maps) : Lts History Event where
  init h := ∃ q : Ring 1024 (BitVec 8), q.head = q.tail ∧ h = ⟨⟨0, 2, 0, q, false⟩, [], 0, 0, [], []⟩
  step := Step maps

/-- The key is down: the last that happened to it was a press. -/
def held (i : Fin 8) : List (Fin 8 × Bool) → Bool
  | [] => false
  | (j, b) :: es => if j = i then b else held i es

/-- Caps lock: each press of the key counts once, however often the keyboard repeats it. -/
def capsLock : List (Fin 8 × Bool) → Bool
  | [] => false
  | (j, b) :: es => if j = 7 ∧ b = true ∧ held 7 es = false then !capsLock es else capsLock es

/-- What the mode byte and the lights say. -/
structure Shows (h : History) : Prop where
  keys : ∀ i : Fin 8, i ≠ 6 → h.kb.mode.getLsbD i = held i h.events
  caps : h.kb.mode.getLsbD 6 = capsLock h.events
  capsLed : h.kb.leds.getLsbD 2 = capsLock h.events
  numLed : h.kb.leds.getLsbD 1 = decide (h.nums % 2 = 0)
  scrollLed : h.kb.leds.getLsbD 0 = decide (h.scrolls % 2 = 1)

/-! ## Bits -/

section

variable {x : BitVec 8} {i j : Fin 8}

theorem set_bit : (x ||| BitVec.twoPow 8 j).getLsbD i = if j = i then true else x.getLsbD i := by
  rw [BitVec.getLsbD_or, BitVec.getLsbD_twoPow]
  split_ifs with h
  · rw [h]
    simp
  · simp [Fin.val_ne_of_ne h]

theorem clear_bit : (x &&& ~~~BitVec.twoPow 8 j).getLsbD i = if j = i then false else x.getLsbD i := by
  rw [BitVec.getLsbD_and, BitVec.getLsbD_not, BitVec.getLsbD_twoPow]
  split_ifs with h
  · rw [h]
    simp
  · simp [Fin.val_ne_of_ne h]

theorem flip_bit : (x ^^^ BitVec.twoPow 8 j).getLsbD i = if j = i then !x.getLsbD i else x.getLsbD i := by
  rw [BitVec.getLsbD_xor, BitVec.getLsbD_twoPow]
  split_ifs with h
  · rw [h]
    simp
  · simp [Fin.val_ne_of_ne h]

end

/-! ## Modes -/

section

variable {k : Keyboard} {c : ℕ} {j : Fin 8} {b : Bool}

/-- A modifier key sets and clears its bit; caps works on the lock, too. -/
theorem modes_key (h : keyEvent k.e0 c = some (j, b)) :
    (j ≠ 6 ∧ (b = true → j ≠ 7)) ∧
      (k.modes c).mode = (if b then k.mode ||| BitVec.twoPow 8 j else k.mode &&& ~~~BitVec.twoPow 8 j) ∧ (k.modes c).leds = k.leds ∨
    (j = 7 ∧ b = true) ∧ if k.mode.getLsbD 7 then (k.modes c).mode = k.mode ∧ (k.modes c).leds = k.leds else
      (k.modes c).mode = (k.mode ^^^ BitVec.twoPow 8 (6 : Fin 8)) ||| BitVec.twoPow 8 (7 : Fin 8) ∧
      (k.modes c).leds = k.leds ^^^ BitVec.twoPow 8 (2 : Fin 8) := by
  unfold keyEvent at h
  unfold Keyboard.modes
  cases hc : keyTable c
  all_goals
    rw [hc] at h
    dsimp only at h ⊢
    first
      | exact absurd h.symm (Option.some_ne_none _)
      | obtain ⟨rfl, rfl⟩ := Prod.mk.inj (Option.some.inj h)
        first
          | exact .inl ⟨by decide, rfl, rfl⟩
          | exact .inr ⟨⟨rfl, rfl⟩, by split_ifs <;> exact ⟨rfl, rfl⟩⟩
          | by_cases h0 : k.e0 = 0
            · rw [if_pos h0, if_pos h0]
              exact .inl ⟨by decide, rfl, rfl⟩
            · rw [if_neg h0, if_neg h0]
              exact .inl ⟨by decide, rfl, rfl⟩

/-- The other keys leave the mode byte alone; num and scroll lock have a light. -/
theorem modes_other (h : keyEvent k.e0 c = none) : (k.modes c).mode = k.mode ∧
    (k.modes c).leds = (if keyTable c = .num then k.leds ^^^ BitVec.twoPow 8 (1 : Fin 8) else
      if keyTable c = .scroll then k.leds ^^^ BitVec.twoPow 8 (0 : Fin 8) else k.leds) := by
  unfold keyEvent at h
  unfold Keyboard.modes
  cases hc : keyTable c
  all_goals
    rw [hc] at h
    first | exact ⟨rfl, rfl⟩ | cases h

theorem keyEvent_lock {e0 : ℕ} (h : keyEvent e0 c = some (j, b)) : keyTable c ≠ .num ∧ keyTable c ≠ .scroll := by
  unfold keyEvent at h
  refine ⟨fun hc => ?_, fun hc => ?_⟩
  · rw [hc] at h
    cases h
  · rw [hc] at h
    cases h

end

variable {maps : Maps} {h h' : History} {c : ℕ} {ecx : ℤ}

theorem interrupt_modes (maps : Maps) (ecx : ℤ) (hc : ¬ (c = 0xe0 ∨ c = 0xe1)) (k : Keyboard) :
    (k.interrupt maps c ecx).mode = (k.modes c).mode ∧ (k.interrupt maps c ecx).leds = (k.modes c).leds := by
  unfold Keyboard.interrupt
  rw [if_neg fun h => hc (.inl h), if_neg fun h => hc (.inr h)]
  exact ⟨rfl, rfl⟩

theorem interrupt_e0 (maps : Maps) (ecx : ℤ) (hc : c = 0xe0 ∨ c = 0xe1) (k : Keyboard) : (k.interrupt maps c ecx).mode = k.mode ∧
    (k.interrupt maps c ecx).leds = k.leds ∧ (k.interrupt maps c ecx).readQ = k.readQ ∧ keyTable c = .none := by
  obtain rfl | rfl := hc
  · exact ⟨rfl, rfl, rfl, rfl⟩
  · exact ⟨rfl, rfl, rfl, rfl⟩

theorem held_cons {i j : Fin 8} {b : Bool} {es : List (Fin 8 × Bool)} : held i ((j, b) :: es) = if j = i then b else held i es := rfl

/-- A prefix changes nothing that is shown. -/
theorem Shows.scan_prefix (hs : Shows h) (hp : c = 0xe0 ∨ c = 0xe1) : Shows (h.scan maps c ecx) := by
  obtain ⟨hm, hl, -, ht⟩ := interrupt_e0 maps ecx hp h.kb
  have hev : (h.scan maps c ecx).events = h.events := by
    unfold History.scan
    rw [if_pos hp]
    rfl
  have hn : (h.scan maps c ecx).nums = h.nums ∧ (h.scan maps c ecx).scrolls = h.scrolls := by
    unfold History.scan
    rw [ht]
    exact ⟨rfl, rfl⟩
  refine ⟨?_, ?_, ?_, ?_, ?_⟩
  · rw [hev]
    exact fun i hi => (congrArg (·.getLsbD i) hm).trans (hs.keys i hi)
  · rw [hev]
    exact (congrArg (·.getLsbD 6) hm).trans hs.caps
  · rw [hev]
    exact (congrArg (·.getLsbD 2) hl).trans hs.capsLed
  · rw [hn.1]
    exact (congrArg (·.getLsbD 1) hl).trans hs.numLed
  · rw [hn.2]
    exact (congrArg (·.getLsbD 0) hl).trans hs.scrollLed

/-- A modifier key. -/
theorem Shows.scan_key {j : Fin 8} {b : Bool} (hs : Shows h) (hp : ¬ (c = 0xe0 ∨ c = 0xe1)) (he : keyEvent h.kb.e0 c = some (j, b)) :
    Shows (h.scan maps c ecx) := by
  obtain ⟨hm, hl⟩ := interrupt_modes maps ecx hp h.kb
  have hev : (h.scan maps c ecx).events = (j, b) :: h.events := by
    unfold History.scan
    rw [if_neg hp, he]
    rfl
  have hn : (h.scan maps c ecx).nums = h.nums ∧ (h.scan maps c ecx).scrolls = h.scrolls := by
    unfold History.scan
    rw [if_neg (keyEvent_lock he).1, if_neg (keyEvent_lock he).2]
    exact ⟨rfl, rfl⟩
  obtain ⟨⟨h6, h7⟩, hmode, hleds⟩ | ⟨⟨rfl, rfl⟩, hcaps⟩ := modes_key he
  · rw [hmode] at hm
    rw [hleds] at hl
    have hbit : ∀ i : Fin 8, (h.scan maps c ecx).kb.mode.getLsbD i = if j = i then b else h.kb.mode.getLsbD i := fun i => by
      refine (congrArg (·.getLsbD i) hm).trans ?_
      cases b with
      | true => exact set_bit
      | false => exact clear_bit
    have hlock : capsLock ((j, b) :: h.events) = capsLock h.events := if_neg fun hj => h7 hj.2.1 hj.1
    refine ⟨fun i hi => ?_, ?_, ?_, ?_, ?_⟩
    · rw [hev, hbit, held_cons, hs.keys i hi]
    · rw [hev, hlock, ← hs.caps]
      exact (hbit 6).trans (if_neg h6)
    · rw [hev, hlock]
      exact (congrArg (·.getLsbD 2) hl).trans hs.capsLed
    · rw [hn.1]
      exact (congrArg (·.getLsbD 1) hl).trans hs.numLed
    · rw [hn.2]
      exact (congrArg (·.getLsbD 0) hl).trans hs.scrollLed
  · have h7 : h.kb.mode.getLsbD 7 = held 7 h.events := hs.keys 7 (by decide)
    by_cases hh : h.kb.mode.getLsbD 7 = true
    · rw [if_pos hh] at hcaps
      rw [hcaps.1] at hm
      rw [hcaps.2] at hl
      have hlock : capsLock ((7, true) :: h.events) = capsLock h.events :=
        if_neg fun hj => Bool.false_ne_true (hj.2.2.symm.trans (h7.symm.trans hh))
      refine ⟨fun i hi => ?_, ?_, ?_, ?_, ?_⟩
      · rw [hev, held_cons]
        refine (congrArg (·.getLsbD i) hm).trans ?_
        split_ifs with hi7
        · rw [← hi7]
          exact hh
        · exact hs.keys i hi
      · rw [hev, hlock]
        exact (congrArg (·.getLsbD 6) hm).trans hs.caps
      · rw [hev, hlock]
        exact (congrArg (·.getLsbD 2) hl).trans hs.capsLed
      · rw [hn.1]
        exact (congrArg (·.getLsbD 1) hl).trans hs.numLed
      · rw [hn.2]
        exact (congrArg (·.getLsbD 0) hl).trans hs.scrollLed
    · rw [if_neg hh] at hcaps
      rw [hcaps.1] at hm
      rw [hcaps.2] at hl
      have hlock : capsLock ((7, true) :: h.events) = !capsLock h.events :=
        if_pos ⟨rfl, rfl, h7.symm.trans (Bool.eq_false_of_not_eq_true hh)⟩
      have hled : ∀ i : Fin 8, (h.scan maps c ecx).kb.leds.getLsbD i = if 2 = i then !h.kb.leds.getLsbD i else h.kb.leds.getLsbD i :=
        fun i => (congrArg (·.getLsbD i) hl).trans flip_bit
      refine ⟨fun i hi => ?_, ?_, ?_, ?_, ?_⟩
      · rw [hev, held_cons]
        refine (congrArg (·.getLsbD i) hm).trans (set_bit.trans ?_)
        rw [flip_bit, if_neg hi.symm, hs.keys i hi]
      · rw [hev, hlock, ← hs.caps]
        exact (congrArg (·.getLsbD 6) hm).trans ((set_bit (i := 6)).trans
          ((if_neg (by decide)).trans (flip_bit (i := 6))))
      · rw [hev, hlock, ← hs.capsLed]
        exact hled 2
      · rw [hn.1, ← hs.numLed]
        exact hled 1
      · rw [hn.2, ← hs.scrollLed]
        exact hled 0

/-- Any other key. -/
theorem Shows.scan_other (hs : Shows h) (hp : ¬ (c = 0xe0 ∨ c = 0xe1)) (he : keyEvent h.kb.e0 c = none) : Shows (h.scan maps c ecx) := by
  obtain ⟨hm, hl⟩ := interrupt_modes maps ecx hp h.kb
  obtain ⟨hmode, hleds⟩ := modes_other he
  rw [hmode] at hm
  rw [hleds] at hl
  have hev : (h.scan maps c ecx).events = h.events := by
    unfold History.scan
    rw [if_neg hp, he]
    rfl
  have hled : ∀ i : Fin 8, (h.scan maps c ecx).kb.leds.getLsbD i =
      if (keyTable c = .num ∧ 1 = i) ∨ (keyTable c = .scroll ∧ 0 = i) then !h.kb.leds.getLsbD i else h.kb.leds.getLsbD i := fun i => by
    refine (congrArg (·.getLsbD i) hl).trans ?_
    by_cases h1 : keyTable c = .num
    · rw [if_pos h1, h1]
      simp only [true_and, reduceCtorEq, false_and, or_false]
      exact flip_bit
    · rw [if_neg h1]
      by_cases h0 : keyTable c = .scroll
      · rw [if_pos h0, h0]
        simp only [true_and, reduceCtorEq, false_and, false_or]
        exact flip_bit
      · rw [if_neg h0, if_neg fun hor => hor.elim (fun h => h1 h.1) fun h => h0 h.1]
  refine ⟨fun i hi => ?_, ?_, ?_, ?_, ?_⟩
  · rw [hev]
    exact (congrArg (·.getLsbD i) hm).trans (hs.keys i hi)
  · rw [hev]
    exact (congrArg (·.getLsbD 6) hm).trans hs.caps
  · rw [hev, ← hs.capsLed]
    exact (hled 2).trans (if_neg fun hor => hor.elim (fun h => absurd h.2 (by decide)) fun h => absurd h.2 (by decide))
  · refine (hled 1).trans ?_
    change _ = decide ((h.nums + if keyTable c = .num then 1 else 0) % 2 = 0)
    by_cases h1 : keyTable c = .num
    · rw [if_pos h1, if_pos (.inl ⟨h1, rfl⟩)]
      refine (congrArg (!·) hs.numLed).trans ?_
      rw [← decide_not]
      exact decide_eq_decide.mpr (by omega)
    · rw [if_neg h1, if_neg fun hor => hor.elim (fun h => h1 h.1) fun h => absurd h.2 (by decide)]
      exact hs.numLed
  · refine (hled 0).trans ?_
    change _ = decide ((h.scrolls + if keyTable c = .scroll then 1 else 0) % 2 = 1)
    by_cases h0 : keyTable c = .scroll
    · rw [if_pos h0, if_pos (.inr ⟨h0, rfl⟩)]
      refine (congrArg (!·) hs.scrollLed).trans ?_
      rw [← decide_not]
      exact decide_eq_decide.mpr (by omega)
    · rw [if_neg h0, if_neg fun hor => hor.elim (fun h => absurd h.2 (by decide)) fun h => h0 h.1]
      exact hs.scrollLed

theorem Shows.step {e : Event} (hs : Shows h) (hstep : Step maps h e h') : Shows h' := by
  cases hstep with
  | @scan c ecx _ =>
    by_cases hp : c.val = 0xe0 ∨ c.val = 0xe1
    · exact hs.scan_prefix hp
    · cases he : keyEvent h.kb.e0 c with
      | none => exact hs.scan_other hp he
      | some x => exact hs.scan_key hp he
  | getch _ => exact ⟨hs.keys, hs.caps, hs.capsLed, hs.numLed, hs.scrollLed⟩

/-- Tables with nothing in them, and the keyboard before the first key. -/
def bare : Maps := ⟨fun _ => 0, fun _ => 0, fun _ => 0, fun _ => 0⟩

def untouched : History := ⟨⟨0, 2, 0, ⟨0, 0, fun _ => 0⟩, false⟩, [], 0, 0, [], []⟩

theorem untouched_reachable : (keySystem bare).Reachable untouched := .init ⟨_, rfl, rfl⟩

theorem leds_start : (2 : BitVec 8).getLsbD 2 = false ∧ (2 : BitVec 8).getLsbD 1 = true ∧ (2 : BitVec 8).getLsbD 0 = false := by decide

/-- After any scan codes each bit of the mode byte says whether its key is down, caps lock and its
    light have changed with each press of caps, and so have the lights of num and scroll lock. -/
theorem keyboard_modes (hr : (keySystem maps).Reachable h) : Shows h := by
  refine hr.invariant (fun s hs => ?_) fun _ _ _ _ hs hstep => hs.step hstep
  obtain ⟨q, -, rfl⟩ := hs
  exact ⟨fun _ _ => BitVec.getLsbD_zero, BitVec.getLsbD_zero, leds_start.1, leds_start.2.1, leds_start.2.2⟩

/-- The left shift key, and then caps lock. -/
theorem keyboard_modes_caps : ((untouched.scan bare 0x2A 0).scan bare 0x3A 0).kb.mode.getLsbD 0 = true ∧
    ((untouched.scan bare 0x2A 0).scan bare 0x3A 0).kb.leds.getLsbD 2 = true := by
  have h1 : Step bare untouched (.scan 0x2A 0) (untouched.scan bare 0x2A 0) := .scan rfl
  have h2 : Step bare (untouched.scan bare 0x2A 0) (.scan 0x3A 0) ((untouched.scan bare 0x2A 0).scan bare 0x3A 0) := .scan rfl
  have hs := keyboard_modes ((untouched_reachable.step h1).step h2)
  exact ⟨hs.keys 0 (by decide), hs.capsLed⟩

/-! ## The queue -/

section

variable {q : Ring 1024 (BitVec 8)} {n : ℕ}

theorem keyBytes_eq (n : ℕ) :
    keyBytes n = BitVec.ofNat 8 n :: if n / 256 % 4294967296 = 0 then [] else keyBytes (n / 256) := by
  rw [keyBytes]

/-- As far as there is room the loop puts the bytes; after that it gives up, and the bytes of the
    queue are still there. -/
theorem putLoop_contents (q : Ring 1024 (BitVec 8)) (n : ℕ) : (putLoop q n).1.tail = q.tail ∧
    if q.chars + (keyBytes n).length < 1024 then (putLoop q n).2 = true ∧ (putLoop q n).1.contents = q.contents ++ keyBytes n
    else (putLoop q n).2 = false ∧ ({ (putLoop q n).1 with head := q.head } : Ring 1024 (BitVec 8)).contents = q.contents := by
  fun_induction putLoop q n with
  | case1 q n q' hfull =>
    have hleft : q.left = 0 := Ring.left_eq_zero.mpr hfull
    have hchars := Ring.left_add_chars q
    refine ⟨rfl, ?_⟩
    rw [if_neg (by rw [keyBytes_eq, List.length_cons]; omega)]
    exact ⟨rfl, Ring.contents_update _⟩
  | case2 q n q' hfull hlast =>
    have hleft : q.left ≠ 0 := fun h => hfull (Ring.left_eq_zero.mp h)
    have hchars := Ring.left_add_chars q
    refine ⟨rfl, ?_⟩
    rw [keyBytes_eq, if_pos hlast, if_pos (by rw [List.length_singleton]; omega)]
    exact ⟨rfl, Ring.contents_put _ hleft⟩
  | case3 q n q' hfull hlast ih =>
    have hput : q'.contents = q.contents ++ [BitVec.ofNat 8 n] := Ring.contents_put _ fun h => hfull (Ring.left_eq_zero.mp h)
    have hchars : q'.chars = q.chars + 1 := by
      have := congrArg List.length hput
      rwa [List.length_append, Ring.length_contents, Ring.length_contents] at this
    obtain ⟨htail, ih⟩ := ih
    refine ⟨htail, ?_⟩
    rw [keyBytes_eq, if_neg hlast, List.length_cons]
    rw [hchars] at ih
    split_ifs at ih ⊢ with h1 h2 h2
    · exact ⟨ih.1, by rw [ih.2, hput, List.append_assoc, List.singleton_append]⟩
    · omega
    · omega
    · refine ⟨ih.1, ?_⟩
      -- the queue up to the new head, without its last byte
      have hne : ({ (putLoop q' (n / 256)).1 with head := q'.head } : Ring 1024 (BitVec 8)).head ≠ (putLoop q' (n / 256)).1.tail := by
        rw [htail]
        exact hfull
      have hdrop := Ring.contents_drop hne
      rw [ih.2, hput] at hdrop
      have hback : q'.head - 1 = q.head := add_sub_cancel_right q.head 1
      unfold Ring.drop at hdrop
      dsimp only at hdrop
      rw [hback] at hdrop
      exact (List.append_inj_left' hdrop rfl).symm

/-- A sequence reaches the queue whole or not at all. -/
theorem putQueue_contents (q : Ring 1024 (BitVec 8)) (n : ℕ) : (putQueue q n).contents =
    if q.chars + (keyBytes n).length < 1024 then q.contents ++ keyBytes n else q.contents := by
  obtain ⟨-, h⟩ := putLoop_contents q n
  unfold putQueue
  dsimp only
  by_cases hlt : q.chars + (keyBytes n).length < 1024
  · rw [if_pos hlt] at h ⊢
    rw [if_pos h.1, h.2]
  · rw [if_neg hlt] at h ⊢
    rw [if_neg (by rw [h.1]; exact Bool.false_ne_true), h.2]

end

/-- What a scan code adds to the queue. -/
theorem interrupt_contents (k : Keyboard) :
    (k.interrupt maps c ecx).readQ.contents = k.readQ.contents ++ (fresh maps k c ecx).flatten := by
  unfold fresh
  by_cases hp : c = 0xe0 ∨ c = 0xe1
  · rw [(interrupt_e0 maps ecx hp k).2.2.1, if_pos hp, List.flatten_nil, List.append_nil]
  · unfold Keyboard.interrupt
    rw [if_neg fun h => hp (.inl h), if_neg fun h => hp (.inr h), if_neg hp]
    dsimp only
    cases k.puts maps c ecx with
    | none => exact (List.append_nil _).symm
    | some n =>
      change (putQueue k.readQ n).contents = k.readQ.contents ++ ([keyBytes n].filter _).flatten
      rw [putQueue_contents]
      by_cases hlt : k.readQ.chars + (keyBytes n).length < 1024
      · rw [if_pos hlt, List.filter_singleton, decide_eq_true hlt, cond_true, List.flatten_singleton]
      · rw [if_neg hlt, List.filter_singleton, decide_eq_false hlt, cond_false, List.flatten_nil, List.append_nil]

/-- The bytes taken out of the queue and those still in it are the sequences of the keys that found
    room, whole and in the order of the scan codes. -/
theorem keyboard_queue (hr : (keySystem maps).Reachable h) : h.taken ++ h.kb.readQ.contents = h.sent.flatten := by
  refine hr.invariant (I := fun h => h.taken ++ h.kb.readQ.contents = h.sent.flatten) (fun s hs => ?_) fun s e s' _ hs hstep => ?_
  · obtain ⟨q, hq, rfl⟩ := hs
    exact Ring.contents_eq_nil.mpr hq
  · cases hstep with
    | scan _ =>
      change s.taken ++ (s.kb.interrupt maps _ _).readQ.contents = (s.sent ++ fresh maps s.kb _ _).flatten
      rw [interrupt_contents, ← List.append_assoc, hs, List.flatten_append]
    | getch hne =>
      rw [Ring.contents_pop hne] at hs
      dsimp only
      rw [List.append_assoc, List.singleton_append, hs]

/-- F1 -/
theorem keyboard_queue_f1 : (untouched.scan bare 0x3B 4).kb.readQ.contents = [0x1b, 0x5b, 0x5b, 0x41] := by
  have h1 : Step bare untouched (.scan 0x3B 4) (untouched.scan bare 0x3B 4) := .scan rfl
  have hq := keyboard_queue (untouched_reachable.step h1)
  have hk : keyBytes 0x415b5b1b = [0x1b, 0x5b, 0x5b, 0x41] := by simp [keyBytes_eq]
  have hfresh : fresh bare untouched.kb 0x3B 4 = [[0x1b, 0x5b, 0x5b, 0x41]] := by
    unfold fresh
    rw [if_neg (by decide)]
    change [keyBytes 0x415b5b1b].filter _ = _
    rw [hk]
    rfl
  exact hq.trans (congrArg List.flatten hfresh)

end Linux011.Chr.Keys
