/-
  `vsprintf` (kernel/vsprintf.c), and the directives of a format. A '*' asks for an argument, but the
  code does not step behind it: the directive ends there and what follows is copied.
-/
import Linux011.Kernel.Number

namespace Linux011.Kernel

open Linux011.Lib Vsprintf

namespace Vsprintf

/-! ## The directives -/

def isDigit (c : Char) : Bool := '0' ≤ c && c ≤ '9'

def isFlag (c : Char) : Bool := c == '-' || c == '+' || c == ' ' || c == '#' || c == '0'

def isQualifier (c : Char) : Bool := c == 'h' || c == 'l' || c == 'L'

/-- The letters that stand for an argument. -/
def isConversion (c : Char) : Bool :=
  c == 'c' || c == 's' || c == 'o' || c == 'p' || c == 'x' || c == 'X' || c == 'd' || c == 'i' || c == 'u' || c == 'n'

/-- How far a directive is read. -/
inductive Phase where
  | text
  | flags
  /-- in the digits of the width -/
  | width
  /-- behind a '*' for the width -/
  | starred
  /-- behind the '.' -/
  | point
  /-- in the digits of the precision -/
  | digits
  /-- behind a '*' for the precision -/
  | qualifier
  | conversion
  deriving DecidableEq

namespace Phase

/-- The next phase, and whether `c` asks for an argument. -/
def convert (c : Char) : Phase × Bool := (text, isConversion c)

def qualify (c : Char) : Phase × Bool := if isQualifier c then (conversion, false) else convert c

def dot (c : Char) : Phase × Bool := if c = '.' then (point, false) else qualify c

def step : Phase → Char → Phase × Bool
  | text, c => (if c = '%' then flags else text, false)
  | flags, c =>
    if isFlag c then (flags, false) else if isDigit c then (width, false) else if c = '*' then (starred, true) else dot c
  | width, c => if isDigit c then (width, false) else dot c
  | starred, c => dot c
  | point, c => if isDigit c then (digits, false) else if c = '*' then (qualifier, true) else qualify c
  | digits, c => if isDigit c then (digits, false) else qualify c
  | qualifier, c => qualify c
  | conversion, c => convert c

/-- As the code has it: a '*' that was an argument ends the directive. -/
def codeStep (φ : Phase) (c : Char) : Phase × Bool :=
  if c = '*' ∧ (φ.step c).2 = true then (text, true) else φ.step c

end Phase

/-- Where arguments are asked for, reading on from position `p`. -/
def asks (step : Phase → Char → Phase × Bool) : Phase → ℕ → List Char → List ℕ
  | _, _, [] => []
  | φ, p, c :: l => if (step φ c).2 then p :: asks step (step φ c).1 (p + 1) l else asks step (step φ c).1 (p + 1) l

/-- Read as the rest of a directive, and from a '%' that ends it as another one, this comes to its end
    or to an unknown letter before it asks for an argument. -/
def Inert : Phase → List Char → Prop
  | _, [] => True
  | φ, c :: l =>
    (φ.step c).2 = false ∧
      if (φ.step c).1 = .text then c = '%' → Inert .flags l else Inert (φ.step c).1 l

/-- No '*' is followed by an argument. -/
def StarsLast : Phase → List Char → Prop
  | _, [] => True
  | φ, c :: l => (c = '*' → (φ.step c).2 = true → Inert (φ.step c).1 l) ∧ StarsLast (φ.step c).1 l

/-! ## With and without the step behind the '*' -/

variable {φ : Phase} {p q : ℕ} {c : Char} {l : List Char}

theorem le_of_mem_asks {step : Phase → Char → Phase × Bool} (h : q ∈ asks step φ p l) : p ≤ q := by
  induction l generalizing φ p with
  | nil => exact absurd h List.not_mem_nil
  | cons c l ih =>
    unfold asks at h
    split_ifs at h
    · obtain rfl | h := List.mem_cons.mp h
      · exact le_rfl
      · exact (Nat.le_succ p).trans (ih h)
    · exact (Nat.le_succ p).trans (ih h)

theorem asks_ne {step : Phase → Char → Phase × Bool} (φ : Phase) (p : ℕ) (l : List Char) (m : List ℕ) :
    p :: m ≠ asks step φ (p + 1) l := fun h => by
  have hmem : p ∈ asks step φ (p + 1) l := h ▸ List.mem_cons_self
  exact absurd (le_of_mem_asks hmem) (Nat.not_succ_le_self p)

theorem asks_cons {step : Phase → Char → Phase × Bool} (h : (step φ c).2 = true) :
    asks step φ p (c :: l) = p :: asks step (step φ c).1 (p + 1) l := if_pos h

theorem asks_skip {step : Phase → Char → Phase × Bool} (h : (step φ c).2 = false) :
    asks step φ p (c :: l) = asks step (step φ c).1 (p + 1) l := if_neg (by rw [h]; exact Bool.false_ne_true)

theorem step_percent (h : φ ≠ .text) : φ.step '%' = (.text, false) := by
  cases φ <;> first | rfl | exact absurd rfl h

theorem step_star (h : (φ.step '*').2 = true) : (φ.step '*').1 ≠ .text := by
  cases φ <;> first | exact absurd h Bool.false_ne_true | decide

theorem step_text (c : Char) : Phase.step .text c = (if c = '%' then .flags else .text, false) := rfl

theorem codeStep_of_not_star (φ : Phase) (h : c ≠ '*') : φ.codeStep c = φ.step c := if_neg fun hc => h hc.1

theorem codeStep_skip (h : (φ.step c).2 = false) : φ.codeStep c = φ.step c :=
  if_neg fun hc => by rw [h] at hc; exact Bool.false_ne_true hc.2

/-- Where the two readings of the text agree: both in phase `φ`, or one of them in the text. -/
structure Agree (l : List Char) : Prop where
  sync : ∀ φ p, asks Phase.codeStep φ p l = asks Phase.step φ p l ↔ StarsLast φ l
  behind : ∀ φ p, φ ≠ .text → (asks Phase.codeStep .text p l = asks Phase.step φ p l ↔ Inert φ l ∧ StarsLast φ l)
  ahead : ∀ φ p, φ ≠ .text → (asks Phase.codeStep φ p l = asks Phase.step .text p l ↔ Inert φ l ∧ StarsLast .text l)

theorem Agree.sync_cons (h : Agree l) (c : Char) (φ : Phase) (p : ℕ) :
    asks Phase.codeStep φ p (c :: l) = asks Phase.step φ p (c :: l) ↔ StarsLast φ (c :: l) := by
  change _ ↔ (c = '*' → (φ.step c).2 = true → Inert (φ.step c).1 l) ∧ StarsLast (φ.step c).1 l
  cases hask : (φ.step c).2 with
  | false =>
    rw [asks_skip (by rw [codeStep_skip hask]; exact hask), asks_skip hask, codeStep_skip hask, h.sync]
    exact ⟨fun hs => ⟨fun _ h => absurd h Bool.false_ne_true, hs⟩, fun hs => hs.2⟩
  | true =>
    by_cases hstar : c = '*'
    · have hcode : φ.codeStep c = (.text, true) := if_pos ⟨hstar, hask⟩
      have hnext : (φ.step c).1 ≠ .text := by
        subst hstar
        exact step_star hask
      rw [asks_cons (by rw [hcode]), asks_cons hask, hcode, List.cons_inj_right, h.behind _ _ hnext]
      exact ⟨fun hs => ⟨fun _ _ => hs.1, hs.2⟩, fun hs => ⟨hs.1 hstar rfl, hs.2⟩⟩
    · rw [asks_cons (by rw [codeStep_of_not_star φ hstar]; exact hask), asks_cons hask, codeStep_of_not_star φ hstar,
        List.cons_inj_right, h.sync]
      exact ⟨fun hs => ⟨fun h => absurd h hstar, hs⟩, fun hs => hs.2⟩

/-- The other reading is in the text: what one of them asks for here, the other does not. -/
theorem Agree.apart_cons (h : Agree l) (c : Char) (hφ : φ ≠ .text) (p : ℕ) :
    (asks Phase.codeStep .text p (c :: l) = asks Phase.step φ p (c :: l) ↔ Inert φ (c :: l) ∧ StarsLast φ (c :: l)) ∧
    (asks Phase.codeStep φ p (c :: l) = asks Phase.step .text p (c :: l) ↔ Inert φ (c :: l) ∧ StarsLast .text (c :: l)) := by
  have htext : (Phase.text.step c).2 = false := rfl
  have hcode : asks Phase.codeStep .text p (c :: l) = asks Phase.codeStep (Phase.text.step c).1 (p + 1) l := by
    rw [asks_skip (by rw [codeStep_skip htext]; exact htext), codeStep_skip htext]
  have hstars : StarsLast .text (c :: l) ↔ StarsLast (Phase.text.step c).1 l :=
    ⟨fun hs => hs.2, fun hs => ⟨fun _ h => absurd h Bool.false_ne_true, hs⟩⟩
  rw [hcode, asks_skip htext, hstars]
  cases hask : (φ.step c).2 with
  | true =>
    have hinert : ¬ Inert φ (c :: l) := fun hi => by
      have hf : (φ.step c).2 = false := hi.1
      rw [hask] at hf
      exact Bool.false_ne_true hf.symm
    have hcask : (φ.codeStep c).2 = true := by
      unfold Phase.codeStep
      split_ifs
      · rfl
      · exact hask
    rw [asks_cons hask, asks_cons hcask]
    exact ⟨⟨fun he => absurd he.symm (asks_ne _ _ _ _), fun hi => absurd hi.1 hinert⟩,
      fun he => absurd he (asks_ne _ _ _ _), fun hi => absurd hi.1 hinert⟩
  | false =>
    have hskip : StarsLast φ (c :: l) ↔ StarsLast (φ.step c).1 l :=
      ⟨fun hs => hs.2, fun hs => ⟨fun _ h => absurd (hask.symm.trans h) Bool.false_ne_true, hs⟩⟩
    rw [asks_skip hask, asks_skip (by rw [codeStep_skip hask]; exact hask), codeStep_skip hask, hskip]
    by_cases hpercent : c = '%'
    · -- the one begins a directive where the other ends one
      subst hpercent
      have hinert : Inert φ ('%' :: l) ↔ Inert .flags l := by
        change (_ ∧ if _ then _ else _) ↔ _
        rw [step_percent hφ]
        exact ⟨fun hi => hi.2 rfl, fun hi => ⟨rfl, fun _ => hi⟩⟩
      rw [step_percent hφ, hinert]
      exact ⟨h.ahead .flags _ (by decide), h.behind .flags _ (by decide)⟩
    · have hstep : Phase.text.step c = (.text, false) := by
        rw [step_text, if_neg hpercent]
      rw [hstep]
      by_cases hend : (φ.step c).1 = .text
      · have hinert : Inert φ (c :: l) := ⟨hask, by rw [if_pos hend]; exact fun h => absurd h hpercent⟩
        rw [hend, h.sync]
        exact ⟨⟨fun hs => ⟨hinert, hs⟩, fun hs => hs.2⟩, ⟨fun hs => ⟨hinert, hs⟩, fun hs => hs.2⟩⟩
      · have hinert : Inert φ (c :: l) ↔ Inert (φ.step c).1 l := by
          change (_ ∧ if _ then _ else _) ↔ _
          rw [if_neg hend]
          exact ⟨fun hi => hi.2, fun hi => ⟨hask, hi⟩⟩
        rw [hinert]
        exact ⟨h.behind _ _ hend, h.ahead _ _ hend⟩

/-- The code asks where the directives ask, if and only if no '*' is followed by an argument. -/
theorem asks_agree (l : List Char) : Agree l := by
  induction l with
  | nil => exact ⟨fun _ _ => ⟨fun _ => trivial, fun _ => rfl⟩, fun _ _ _ => ⟨fun _ => ⟨trivial, trivial⟩, fun _ => rfl⟩,
      fun _ _ _ => ⟨fun _ => ⟨trivial, trivial⟩, fun _ => rfl⟩⟩
  | cons c l ih => exact ⟨ih.sync_cons c, fun _ p hφ => (ih.apart_cons c hφ p).1, fun _ p hφ => (ih.apart_cons c hφ p).2⟩

end Vsprintf

/-! ## The code -/

/-- The variables of `vsprintf`. -/
structure Printf where
  fmt : ℕ
  str : List Char
  /-- How many arguments `va_arg` gave, and what `fmt` pointed to then. -/
  arg : ℕ
  taken : List ℕ
  /-- What `%n` stored. -/
  stores : List (BitVec 32 × ℕ)

namespace Printf

variable (st : Printf)

/-- `++fmt` -/
def next : Printf := { st with fmt := st.fmt + 1 }

def put (l : List Char) : Printf := { st with str := st.str ++ l }

def vaArg (args : ℕ → BitVec 32) : BitVec 32 × Printf :=
  (args st.arg, { st with arg := st.arg + 1, taken := st.taken ++ [st.fmt] })

end Printf

namespace Vsprintf

/-- `*fmt`: behind the NUL there is nothing to be read. -/
def deref (s : List Char) (p : ℕ) : Option Char := (s ++ ['\x00'])[p]?

def skipAtoi (s : List Char) : ℕ → ℕ → ℤ → Option (ℕ × ℤ)
  | 0, _, _ => none
  | fuel + 1, p, i => do
    let c ← deref s p
    if isDigit c then skipAtoi s fuel (p + 1) (long (i * 10 + c.toNat - 48)) else some (p, i)

/-- `repeat:` -/
def flagLoop (s : List Char) : ℕ → Printf → BitVec 32 → Option (BitVec 32 × Printf)
  | 0, _, _ => none
  | fuel + 1, st, flags => do
    let st := st.next
    let c ← deref s st.fmt
    if c = '-' then flagLoop s fuel st (flags ||| LEFT)
    else if c = '+' then flagLoop s fuel st (flags ||| PLUS)
    else if c = ' ' then flagLoop s fuel st (flags ||| SPACE)
    else if c = '#' then flagLoop s fuel st (flags ||| SPECIAL)
    else if c = '0' then flagLoop s fuel st (flags ||| ZEROPAD)
    else some (flags, st)

/-- `while (--n > 0) *str++ = ' '` -/
def spaceLoop (n : ℤ) : ℤ × List Char :=
  let n := long (n - 1)
  if 0 < n then (0, List.replicate n.toNat ' ') else (n, [])

section

variable (args : ℕ → BitVec 32) (string : BitVec 32 → List Char) (s : List Char)

/-- get field width -/
def fieldWidth (flags : BitVec 32) (st : Printf) : Option (ℤ × BitVec 32 × Printf) := do
  let c ← deref s st.fmt
  if isDigit c then
    (skipAtoi s (s.length + 1) st.fmt 0).map fun (p, i) => (i, flags, { st with fmt := p })
  else if c = '*' then
    let (w, st) := st.vaArg args
    some (if w.toInt < 0 then (long (-w.toInt), flags ||| LEFT, st) else (w.toInt, flags, st))
  else some (-1, flags, st)

/-- get the precision -/
def getPrecision (st : Printf) : Option (ℤ × Printf) := do
  let c ← deref s st.fmt
  if c = '.' then do
    let st := st.next
    let c ← deref s st.fmt
    let (precision, st) ← (
      if isDigit c then (skipAtoi s (s.length + 1) st.fmt 0).map fun (p, i) => (i, { st with fmt := p })
      else if c = '*' then
        let (w, st) := st.vaArg args
        some (w.toInt, st)
      else some (-1, st))
    some (if precision < 0 then 0 else precision, st)
  else some (-1, st)

/-- get the conversion qualifier, which nothing looks at -/
def getQualifier (st : Printf) : Option Printf := do
  let c ← deref s st.fmt
  some (if c = 'h' ∨ c = 'l' ∨ c = 'L' then st.next else st)

/-- `str = number(str, va_arg(args, unsigned long), ...)` -/
def putNumber (base : BitVec 32) (width precision : ℤ) (flags : BitVec 32) (st : Printf) : Option Printf :=
  let (a, st) := st.vaArg args
  (number a base width precision flags).map st.put

/-- `switch (*fmt)` -/
def convert (width precision : ℤ) (flags : BitVec 32) (st : Printf) : Option Printf := do
  let c ← deref s st.fmt
  if c = 'c' then
    let (width, before) := if flags &&& LEFT = 0 then spaceLoop width else (width, [])
    let (a, st) := st.vaArg args
    some (st.put (before ++ [Char.ofNat (a.toNat % 256)] ++ (spaceLoop width).2))
  else if c = 's' then
    let (a, st) := st.vaArg args
    let len : ℤ := (string a).length
    let len := if precision < 0 then len else if precision < len then precision else len
    let (width, before) := if flags &&& LEFT = 0 then padLoop len ' ' width else (width, [])
    some (st.put (before ++ (string a).take len.toNat ++ (padLoop len ' ' width).2))
  else if c = 'o' then putNumber args 8 width precision flags st
  else if c = 'p' then
    if width = -1 then putNumber args 16 8 precision (flags ||| ZEROPAD) st else putNumber args 16 width precision flags st
  else if c = 'x' then putNumber args 16 width precision (flags ||| SMALL) st
  else if c = 'X' then putNumber args 16 width precision flags st
  else if c = 'd' ∨ c = 'i' then putNumber args 10 width precision (flags ||| SIGN) st
  else if c = 'u' then putNumber args 10 width precision flags st
  else if c = 'n' then
    let (ip, st) := st.vaArg args
    some { st with stores := st.stores ++ [(ip, st.str.length)] }
  else
    let st := if c ≠ '%' then st.put ['%'] else st
    some (if c ≠ '\x00' then st.put [c] else { st with fmt := st.fmt - 1 })

/-- The body of the loop, and its `++fmt`. -/
def iteration (st : Printf) : Option Printf := do
  let c ← deref s st.fmt
  if c ≠ '%' then some (st.put [c]).next
  else do
    let (flags, st) ← flagLoop s (s.length + 1) st 0
    let (width, flags, st) ← fieldWidth args s flags st
    let (precision, st) ← getPrecision args s st
    let st ← getQualifier s st
    let st ← convert args string s width precision flags st
    some st.next

def loop : ℕ → Printf → Option Printf
  | 0, _ => none
  | fuel + 1, st => do
    let c ← deref s st.fmt
    if c = '\x00' then some st
    else do
      let st ← iteration args string s st
      loop fuel st

end

end Vsprintf

/-- The string is `str`, with a NUL behind it, and its length is returned. -/
def vsprintf (args : ℕ → BitVec 32) (string : BitVec 32 → List Char) (s : List Char) : Option Printf :=
  loop args string s (s.length + 1) ⟨0, [], 0, [], []⟩

/-! ## How far it gets -/

section

variable {args : ℕ → BitVec 32} {string : BitVec 32 → List Char} {s : List Char} {st₀ st : Printf} {φ : Phase} {c : Char}
  {l : List Char} {p : ℕ}

theorem deref_eq (s : List Char) (h : p ≤ s.length) : deref s p = some ((s.drop p).headD '\x00') := by
  unfold deref
  induction s generalizing p with
  | nil =>
    obtain rfl := Nat.le_zero.mp h
    rfl
  | cons a s ih =>
    cases p with
    | zero => rfl
    | succ p => exact ih (Nat.le_of_succ_le_succ h)

theorem deref_cons (h : s.drop p = c :: l) : deref s p = some c ∧ p < s.length ∧ s.drop (p + 1) = l := by
  have hlt : p < s.length := by
    by_contra hp
    rw [List.drop_eq_nil_of_le (Nat.not_lt.mp hp)] at h
    exact List.cons_ne_nil c l h.symm
  refine ⟨?_, hlt, ?_⟩
  · rw [deref_eq s hlt.le, h]
    rfl
  · rw [← List.drop_drop, h]
    rfl

/-- In the directive that begins at `st₀`, and the next character is read by `f`. -/
structure Going (s : List Char) (st₀ : Printf) (f : Char → Phase × Bool) (st : Printf) : Prop where
  lt : st₀.fmt < st.fmt
  le : st.fmt ≤ s.length
  asked : ∃ m φ, st.taken = st₀.taken ++ m ∧ st.arg = st₀.arg + m.length ∧
    asks Phase.codeStep .text st₀.fmt (s.drop st₀.fmt) = m ++ asks Phase.codeStep φ st.fmt (s.drop st.fmt) ∧
    ∀ c ∈ (s.drop st.fmt).head?, φ.step c = f c

/-- The directive is over: it goes on in the text behind `st`. -/
structure Over (s : List Char) (st₀ st : Printf) : Prop where
  lt : st₀.fmt < st.fmt
  le : st.fmt ≤ s.length
  asked : ∃ m, st.taken = st₀.taken ++ m ∧ st.arg = st₀.arg + m.length ∧
    asks Phase.codeStep .text st₀.fmt (s.drop st₀.fmt) = m ++ asks Phase.codeStep .text st.fmt (s.drop st.fmt)

/-- `fmt` is still at a '*' that was an argument. -/
structure Starred (s : List Char) (st₀ st : Printf) : Prop where
  star : (s.drop st.fmt).head? = some '*'
  ended : Over s st₀ st.next

/-- Only a '*' that is asked for ends the directive. -/
theorem asks_step (h : s.drop p = c :: l) (hf : (φ.step c).2 = false) :
    asks Phase.codeStep φ p (s.drop p) = asks Phase.codeStep (φ.step c).1 (p + 1) (s.drop (p + 1)) := by
  rw [h, asks_skip (by rw [codeStep_skip hf]; exact hf), codeStep_skip hf, (deref_cons h).2.2]

theorem asks_take (h : s.drop p = c :: l) (hf : (φ.step c).2 = true) (hnext : c = '*' ∨ (φ.step c).1 = .text) :
    asks Phase.codeStep φ p (s.drop p) = p :: asks Phase.codeStep .text (p + 1) (s.drop (p + 1)) := by
  have hcode : φ.codeStep c = (.text, true) := by
    unfold Phase.codeStep
    split_ifs with hs
    · rfl
    · obtain hc | hc := hnext
      · exact absurd ⟨hc, hf⟩ hs
      · exact Prod.ext hc hf
  rw [h, asks_cons (by rw [hcode]), hcode, (deref_cons h).2.2]

section

variable {f f' : Char → Phase × Bool}

/-- `++fmt` over a character that asks for nothing -/
theorem Going.next (h : Going s st₀ f st) (hd : s.drop st.fmt = c :: l) (hf : (f c).2 = false)
    (hf' : ∀ c' ∈ l.head?, (f c).1.step c' = f' c') : Going s st₀ f' st.next := by
  obtain ⟨m, φ, htaken, harg, hasks, hstep⟩ := h.asked
  obtain ⟨-, hlt, hl⟩ := deref_cons hd
  have hc : φ.step c = f c := hstep c (by rw [hd]; rfl)
  refine ⟨h.lt.trans (Nat.lt_succ_self _), hlt, m, (f c).1, htaken, harg, ?_, fun c' hc' => hf' c' ?_⟩
  · rw [hasks, asks_step hd (by rw [hc]; exact hf), hc]
    rfl
  · rw [← hl]
    exact hc'

/-- A character that ends the directive and asks for nothing. -/
theorem Going.ended (h : Going s st₀ f st) (hd : s.drop st.fmt = c :: l) (hf : f c = (.text, false)) : Over s st₀ st.next := by
  obtain ⟨m, φ, htaken, harg, hasks, hstep⟩ := h.asked
  have hc : φ.step c = f c := hstep c (by rw [hd]; rfl)
  refine ⟨h.lt.trans (Nat.lt_succ_self _), (deref_cons hd).2.1, m, htaken, harg, ?_⟩
  rw [hasks, asks_step hd (by rw [hc, hf]), hc, hf]
  rfl

/-- `va_arg` at a letter, or at a '*' -/
theorem Going.take (h : Going s st₀ f st) (hd : s.drop st.fmt = c :: l) (hf : (f c).2 = true) (hnext : c = '*' ∨ (f c).1 = .text) :
    Over s st₀ (st.vaArg args).2.next := by
  obtain ⟨m, φ, htaken, harg, hasks, hstep⟩ := h.asked
  have hc : φ.step c = f c := hstep c (by rw [hd]; rfl)
  refine ⟨h.lt.trans (Nat.lt_succ_self _), (deref_cons hd).2.1, m ++ [st.fmt], ?_, ?_, ?_⟩
  · change st.taken ++ [st.fmt] = _
    rw [htaken, List.append_assoc]
  · change st.arg + 1 = _
    rw [harg, List.length_append]
    rfl
  · rw [hasks, asks_take hd (by rw [hc]; exact hf) (by rw [hc]; exact hnext), List.append_assoc]
    rfl

/-- Another way to read the next character. -/
theorem Going.read (h : Going s st₀ f st) (hf : ∀ c ∈ (s.drop st.fmt).head?, f c = f' c) : Going s st₀ f' st := by
  obtain ⟨m, φ, htaken, harg, hasks, hstep⟩ := h.asked
  exact ⟨h.lt, h.le, m, φ, htaken, harg, hasks, fun c hc => (hstep c hc).trans (hf c hc)⟩

end

/-- Behind a flag. -/
def Vsprintf.begin (c : Char) : Phase × Bool :=
  if isDigit c then (.width, false) else if c = '*' then (.starred, true) else Phase.dot c

theorem flags_step (h : isFlag c = false) : Phase.step .flags c = begin c := if_neg (by rw [h]; exact Bool.false_ne_true)

theorem flags_flag (h : isFlag c = true) : Phase.step .flags c = (.flags, false) := if_pos h

theorem flagLoop_cons (fuel : ℕ) (hd : deref s (st.fmt + 1) = some c) (flags : BitVec 32) :
    (isFlag c = true → ∃ flags', flagLoop s (fuel + 1) st flags = flagLoop s fuel st.next flags') ∧
    (isFlag c = false → flagLoop s (fuel + 1) st flags = some (flags, st.next)) := by
  have hstep : flagLoop s (fuel + 1) st flags = (deref s (st.fmt + 1)).bind fun c =>
    if c = '-' then flagLoop s fuel st.next (flags ||| LEFT)
    else if c = '+' then flagLoop s fuel st.next (flags ||| PLUS)
    else if c = ' ' then flagLoop s fuel st.next (flags ||| SPACE)
    else if c = '#' then flagLoop s fuel st.next (flags ||| SPECIAL)
    else if c = '0' then flagLoop s fuel st.next (flags ||| ZEROPAD)
    else some (flags, st.next) := rfl
  rw [hstep, hd, Option.bind_some]
  unfold isFlag
  constructor
  · intro hc
    split_ifs with h1 h2 h3 h4 h5
    · exact ⟨_, rfl⟩
    · exact ⟨_, rfl⟩
    · exact ⟨_, rfl⟩
    · exact ⟨_, rfl⟩
    · exact ⟨_, rfl⟩
    · simp [h1, h2, h3, h4, h5] at hc
  · intro hc
    simp only [Bool.or_eq_false_iff, beq_eq_false_iff_ne] at hc
    obtain ⟨⟨⟨⟨h1, h2⟩, h3⟩, h4⟩, h5⟩ := hc
    rw [if_neg h1, if_neg h2, if_neg h3, if_neg h4, if_neg h5]

/-- The flags come to an end: the state is as it was, but for `fmt`. -/
theorem flagLoop_going {fuel : ℕ} (hlt : st.fmt < s.length) (hfuel : s.length ≤ fuel + st.fmt) (hle : st₀.fmt ≤ st.fmt) (flags : BitVec 32)
    (h : ∃ m, st.taken = st₀.taken ++ m ∧ st.arg = st₀.arg + m.length ∧ asks Phase.codeStep .text st₀.fmt (s.drop st₀.fmt) =
      m ++ asks Phase.codeStep .flags (st.fmt + 1) (s.drop (st.fmt + 1))) :
    ∃ flags' st', flagLoop s fuel st flags = some (flags', st') ∧ Going s st₀ begin st' := by
  induction fuel generalizing st flags with
  | zero => omega
  | succ fuel ih =>
    have hlt' : st₀.fmt < st.next.fmt := Nat.lt_succ_of_le hle
    obtain ⟨m, htaken, harg, hasks⟩ := h
    cases hd : s.drop (st.fmt + 1) with
    | nil =>
      have hnul : deref s (st.fmt + 1) = some '\x00' := by
        rw [deref_eq s hlt, hd]
        rfl
      refine ⟨_, _, (flagLoop_cons fuel hnul flags).2 rfl, hlt', hlt, m, .flags, htaken, harg, hasks, fun c hc => ?_⟩
      change c ∈ (s.drop (st.fmt + 1)).head? at hc
      rw [hd] at hc
      exact absurd hc (Option.not_mem_none c)
    | cons c l =>
      obtain ⟨hc, hlt₁, -⟩ := deref_cons hd
      cases hflag : isFlag c with
      | true =>
        obtain ⟨flags', he⟩ := (flagLoop_cons fuel hc flags).1 hflag
        rw [he]
        have hnext : st.next.fmt < s.length := hlt₁
        refine ih hnext (by change _ ≤ fuel + (st.fmt + 1); omega) hlt'.le flags' ⟨m, htaken, harg, ?_⟩
        rw [hasks, asks_step hd (by rw [flags_flag hflag]), flags_flag hflag]
        rfl
      | false =>
        refine ⟨_, _, (flagLoop_cons fuel hc flags).2 hflag, hlt', hlt, m, .flags, htaken, harg, hasks, fun c' hc' => ?_⟩
        change c' ∈ (s.drop (st.fmt + 1)).head? at hc'
        rw [hd] at hc'
        obtain rfl : c = c' := Option.some.inj hc'
        exact flags_step hflag

/-- The digits come to an end. -/
theorem skipAtoi_going {fuel : ℕ} (hp : p ≤ s.length) (hfuel : s.length < fuel + p) (i : ℤ) :
    ∃ q j, skipAtoi s fuel p i = some (q, j) ∧ p ≤ q ∧ q ≤ s.length ∧ (∀ c ∈ (s.drop q).head?, isDigit c = false) ∧
      ((∀ c, isDigit c = true → φ.step c = (φ, false)) →
        asks Phase.codeStep φ p (s.drop p) = asks Phase.codeStep φ q (s.drop q)) := by
  induction fuel generalizing p i with
  | zero => omega
  | succ fuel ih =>
    have hstep : skipAtoi s (fuel + 1) p i = (deref s p).bind fun c =>
      if isDigit c = true then skipAtoi s fuel (p + 1) (long (i * 10 + c.toNat - 48)) else some (p, i) := rfl
    cases hd : s.drop p with
    | nil =>
      refine ⟨p, i, ?_, le_rfl, hp, fun c hc => ?_, fun _ => by rw [hd]⟩
      · rw [hstep, deref_eq s hp, hd, Option.bind_some]
        exact if_neg (by decide)
      · rw [hd] at hc
        exact absurd hc (Option.not_mem_none c)
    | cons c l =>
      obtain ⟨hc, hlt, -⟩ := deref_cons hd
      rw [hstep, hc, Option.bind_some]
      cases hdigit : isDigit c with
      | true =>
        rw [if_pos rfl]
        obtain ⟨q, j, he, hle, hq, hend, hasks⟩ := ih hlt (by omega) (long (i * 10 + c.toNat - 48))
        refine ⟨q, j, he, by omega, hq, hend, fun hφ => ?_⟩
        rw [← hasks hφ, ← hd, asks_step hd (by rw [hφ c hdigit]), hφ c hdigit]
      | false =>
        rw [if_neg Bool.false_ne_true]
        refine ⟨p, i, rfl, le_rfl, hp, fun c' hc' => ?_, fun _ => by rw [hd]⟩
        rw [hd] at hc'
        obtain rfl : c = c' := Option.some.inj hc'
        exact hdigit

/-- A number in a directive. -/
theorem Going.digits {f : Char → Phase × Bool} (φ' : Phase) (f' : Char → Phase × Bool) (h : Going s st₀ f st) (hd : s.drop st.fmt = c :: l)
    (hc : isDigit c = true) (hf : f c = (φ', false)) (hφ : ∀ c, isDigit c = true → φ'.step c = (φ', false))
    (hend : ∀ c, isDigit c = false → φ'.step c = f' c) :
    ∃ q j, skipAtoi s (s.length + 1) st.fmt 0 = some (q, j) ∧ Going s st₀ f' { st with fmt := q } := by
  obtain ⟨m, φ, htaken, harg, hasks, hstep⟩ := h.asked
  obtain ⟨q, j, he, hle, hq, hstop, hrun⟩ := skipAtoi_going (φ := φ') h.le (show s.length < s.length + 1 + st.fmt by omega) 0
  have hfirst : φ.step c = (φ', false) := (hstep c (by rw [hd]; rfl)).trans hf
  refine ⟨q, j, he, h.lt.trans_le hle, hq, m, φ', htaken, harg, ?_, fun c hc => hend c (hstop c hc)⟩
  rw [hasks, asks_step hd (by rw [hfirst]), hfirst]
  change _ = m ++ asks Phase.codeStep φ' q (s.drop q)
  rw [← hrun hφ, asks_step hd (by rw [hφ c hc]), hφ c hc]

theorem Going.deref (h : Going s st₀ f st) : deref s st.fmt = some ((s.drop st.fmt).headD '\x00') := deref_eq s h.le

theorem fieldWidth_going (args : ℕ → BitVec 32) (h : Going s st₀ begin st) (flags : BitVec 32) : ∃ width flags' st',
    fieldWidth args s flags st = some (width, flags', st') ∧ (Going s st₀ Phase.dot st' ∨ Starred s st₀ st') := by
  have hstep : fieldWidth args s flags st = (Vsprintf.deref s st.fmt).bind fun c =>
      if isDigit c = true then (skipAtoi s (s.length + 1) st.fmt 0).map fun (p, i) => (i, flags, { st with fmt := p })
      else if c = '*' then
        some (if (args st.arg).toInt < 0 then (long (-(args st.arg).toInt), flags ||| LEFT, (st.vaArg args).2)
          else ((args st.arg).toInt, flags, (st.vaArg args).2))
      else some (-1, flags, st) := rfl
  rw [hstep, h.deref, Option.bind_some]
  cases hd : s.drop st.fmt with
  | nil => exact ⟨-1, flags, st, rfl, .inl (h.read fun c hc => by rw [hd] at hc; exact absurd hc (Option.not_mem_none c))⟩
  | cons c l =>
    rw [List.headD_cons]
    cases hdigit : isDigit c with
    | true =>
      obtain ⟨q, j, he, hgo⟩ := h.digits .width Phase.dot hd hdigit (if_pos hdigit) (fun c hc => if_pos hc)
        fun c hc => if_neg (by rw [hc]; exact Bool.false_ne_true)
      rw [if_pos rfl, he]
      exact ⟨_, _, _, rfl, .inl hgo⟩
    | false =>
      have hbegin : begin c = if c = '*' then (.starred, true) else Phase.dot c := if_neg (by rw [hdigit]; exact Bool.false_ne_true)
      rw [if_neg Bool.false_ne_true]
      by_cases hstar : c = '*'
      · rw [if_pos hstar] at hbegin ⊢
        have hs : Starred s st₀ (st.vaArg args).2 := ⟨by rw [← hstar]; exact congrArg List.head? hd,
          h.take hd (by rw [hbegin]) (.inl hstar)⟩
        split_ifs
        · exact ⟨_, _, _, rfl, .inr hs⟩
        · exact ⟨_, _, _, rfl, .inr hs⟩
      · rw [if_neg hstar] at hbegin ⊢
        refine ⟨-1, flags, st, rfl, .inl (h.read fun c' hc' => ?_)⟩
        rw [hd] at hc'
        obtain rfl : c = c' := Option.some.inj hc'
        exact hbegin

theorem Starred.deref (h : Starred s st₀ st) : Vsprintf.deref s st.fmt = some '*' := by
  cases hd : s.drop st.fmt with
  | nil =>
    have hs := h.star
    rw [hd] at hs
    exact absurd hs.symm (Option.some_ne_none '*')
  | cons c l =>
    have hs := h.star
    rw [hd] at hs
    obtain rfl : c = '*' := Option.some.inj hs
    exact (deref_cons hd).1

theorem getPrecision_starred (h : Starred s st₀ st) : getPrecision args s st = some (-1, st) := by
  unfold getPrecision
  rw [h.deref]
  rfl

theorem getQualifier_starred (h : Starred s st₀ st) : getQualifier s st = some st := by
  unfold getQualifier
  rw [h.deref]
  rfl

/-- The '*' is copied, as an unknown letter is. -/
theorem convert_starred (h : Starred s st₀ st) (width precision : ℤ) (flags : BitVec 32) :
    convert args string s width precision flags st = some ((st.put ['%']).put ['*']) := by
  unfold convert
  rw [h.deref]
  rfl

theorem getPrecision_going (args : ℕ → BitVec 32) (h : Going s st₀ Phase.dot st) : ∃ precision st',
    getPrecision args s st = some (precision, st') ∧ (Going s st₀ Phase.qualify st' ∨ Starred s st₀ st') := by
  have hstep : getPrecision args s st = (deref s st.fmt).bind fun c =>
      if c = '.' then (deref s (st.fmt + 1)).bind fun c =>
        (if isDigit c = true then (skipAtoi s (s.length + 1) (st.fmt + 1) 0).map fun (p, i) => (i, { st with fmt := p })
          else if c = '*' then some ((args st.arg).toInt, (st.next.vaArg args).2) else some (-1, st.next)).bind
          fun x => some (if x.1 < 0 then 0 else x.1, x.2)
      else some (-1, st) := rfl
  rw [hstep, h.deref, Option.bind_some]
  cases hd : s.drop st.fmt with
  | nil => exact ⟨-1, st, rfl, .inl (h.read fun c hc => by rw [hd] at hc; exact absurd hc (Option.not_mem_none c))⟩
  | cons c l =>
    rw [List.headD_cons]
    by_cases hdot : c = '.'
    · have hgo : Going s st₀ (Phase.step .point) st.next := by
        subst hdot
        exact h.next hd rfl fun _ _ => rfl
      have hpoint : ∀ {c}, isDigit c = false → c ≠ '*' → Phase.step .point c = Phase.qualify c := fun hc hs =>
        (if_neg (by rw [hc]; exact Bool.false_ne_true)).trans (if_neg hs)
      have hd₁ : deref s (st.fmt + 1) = some ((s.drop (st.fmt + 1)).headD '\x00') := hgo.deref
      rw [if_pos hdot, hd₁, Option.bind_some]
      cases hd' : s.drop (st.fmt + 1) with
      | nil =>
        refine ⟨0, st.next, rfl, .inl (hgo.read fun c hc => ?_)⟩
        change c ∈ (s.drop (st.fmt + 1)).head? at hc
        rw [hd'] at hc
        exact absurd hc (Option.not_mem_none c)
      | cons c' l' =>
        rw [List.headD_cons]
        cases hdigit : isDigit c' with
        | true =>
          obtain ⟨q, j, he, hgo'⟩ := hgo.digits .digits Phase.qualify hd' hdigit (if_pos hdigit)
            (fun c hc => if_pos hc) fun c hc => if_neg (by rw [hc]; exact Bool.false_ne_true)
          have he' : skipAtoi s (s.length + 1) (st.fmt + 1) 0 = some (q, j) := he
          rw [if_pos rfl, he']
          exact ⟨_, _, rfl, .inl hgo'⟩
        | false =>
          rw [if_neg Bool.false_ne_true]
          by_cases hstar : c' = '*'
          · subst hstar
            have hover : Over s st₀ (st.next.vaArg args).2.next := hgo.take hd' rfl (.inl rfl)
            rw [if_pos rfl]
            exact ⟨_, _, rfl, .inr ⟨congrArg List.head? hd', hover⟩⟩
          · rw [if_neg hstar]
            refine ⟨0, st.next, rfl, .inl (hgo.read fun c hc => ?_)⟩
            change c ∈ (s.drop (st.fmt + 1)).head? at hc
            rw [hd'] at hc
            obtain rfl : c' = c := Option.some.inj hc
            exact hpoint hdigit hstar
    · rw [if_neg hdot]
      refine ⟨-1, st, rfl, .inl (h.read fun c' hc' => ?_)⟩
      rw [hd] at hc'
      obtain rfl : c = c' := Option.some.inj hc'
      exact if_neg hdot

theorem getQualifier_going (h : Going s st₀ Phase.qualify st) : ∃ st',
    getQualifier s st = some st' ∧ Going s st₀ Phase.convert st' := by
  have hstep : getQualifier s st = (deref s st.fmt).bind fun c => some (if c = 'h' ∨ c = 'l' ∨ c = 'L' then st.next else st) := rfl
  rw [hstep, h.deref, Option.bind_some]
  cases hd : s.drop st.fmt with
  | nil =>
    refine ⟨st, rfl, h.read fun c hc => ?_⟩
    rw [hd] at hc
    exact absurd hc (Option.not_mem_none c)
  | cons c l =>
    rw [List.headD_cons]
    have hiff : (c = 'h' ∨ c = 'l' ∨ c = 'L') ↔ isQualifier c = true := by
      unfold isQualifier
      simp only [Bool.or_eq_true, beq_iff_eq, or_assoc]
    by_cases hq : isQualifier c = true
    · rw [if_pos (hiff.mpr hq)]
      have hf : Phase.qualify c = (.conversion, false) := if_pos hq
      exact ⟨_, rfl, h.next hd (by rw [hf]) fun c' _ => by rw [hf]; rfl⟩
    · rw [if_neg (mt hiff.mp hq)]
      refine ⟨st, rfl, h.read fun c' hc' => ?_⟩
      rw [hd] at hc'
      obtain rfl : c = c' := Option.some.inj hc'
      exact if_neg hq

/-- Only `fmt` and the arguments matter for where it goes on. -/
theorem Over.congr {st' : Printf} (h : Over s st₀ st) (hfmt : st'.fmt = st.fmt) (harg : st'.arg = st.arg) (htaken : st'.taken = st.taken) :
    Over s st₀ st' :=
  ⟨hfmt ▸ h.lt, hfmt ▸ h.le, by rw [hfmt, harg, htaken]; exact h.asked⟩

theorem putNumber_over {base : BitVec 32} (hb : base = 8 ∨ base = 10 ∨ base = 16) (h : Over s st₀ (st.vaArg args).2.next)
    (width precision : ℤ) (flags : BitVec 32) : ∃ st', putNumber args base width precision flags st = some st' ∧ Over s st₀ st'.next := by
  obtain ⟨l, hl⟩ := number_some hb (args st.arg) width precision flags
  have he : putNumber args base width precision flags st = some ((st.vaArg args).2.put l) := by
    change (number (args st.arg) base width precision flags).map _ = _
    rw [hl]
    rfl
  exact ⟨_, he, h.congr rfl rfl rfl⟩

/-- The letter is behind the pointer, or the NUL is where it was. -/
theorem convert_going (args : ℕ → BitVec 32) (string : BitVec 32 → List Char) (hs : '\x00' ∉ s) (h : Going s st₀ Phase.convert st) (width precision : ℤ) (flags : BitVec 32) : ∃ st',
    convert args string s width precision flags st = some st' ∧ Over s st₀ st'.next := by
  have hderef := h.deref
  cases hd : s.drop st.fmt with
  | nil =>
    obtain ⟨m, φ, htaken, harg, hasks, -⟩ := h.asked
    have hpos : st.fmt - 1 + 1 = st.fmt := Nat.sub_add_cancel (Nat.zero_lt_of_lt h.lt)
    have hover : Over s st₀ st := ⟨h.lt, h.le, m, htaken, harg, by
      rw [hd] at hasks ⊢
      exact hasks⟩
    unfold convert
    rw [hderef, hd]
    exact ⟨_, rfl, hover.congr hpos rfl rfl⟩
  | cons c l =>
    rw [hd, List.headD_cons] at hderef
    cases hconv : isConversion c with
    | true =>
      have hover : Over s st₀ (st.vaArg args).2.next := h.take hd hconv (.inr rfl)
      unfold isConversion at hconv
      simp only [Bool.or_eq_true, beq_iff_eq, or_assoc] at hconv
      unfold convert
      rw [hderef]
      obtain rfl | rfl | rfl | rfl | rfl | rfl | rfl | rfl | rfl | rfl := hconv
      · exact ⟨_, rfl, hover.congr rfl rfl rfl⟩
      · exact ⟨_, rfl, hover.congr rfl rfl rfl⟩
      · exact putNumber_over (.inl rfl) hover _ _ _
      · change ∃ st', (if width = -1 then _ else _) = some st' ∧ _
        split_ifs
        · exact putNumber_over (.inr (.inr rfl)) hover _ _ _
        · exact putNumber_over (.inr (.inr rfl)) hover _ _ _
      · exact putNumber_over (.inr (.inr rfl)) hover _ _ _
      · exact putNumber_over (.inr (.inr rfl)) hover _ _ _
      · exact putNumber_over (.inr (.inl rfl)) hover _ _ _
      · exact putNumber_over (.inr (.inl rfl)) hover _ _ _
      · exact putNumber_over (.inr (.inl rfl)) hover _ _ _
      · exact ⟨_, rfl, hover.congr rfl rfl rfl⟩
    | false =>
      have hover : Over s st₀ st.next := h.ended hd (Prod.ext rfl hconv)
      have hnul : c ≠ '\x00' := fun hc => hs (hc ▸ List.mem_of_mem_drop (hd ▸ List.mem_cons_self))
      unfold isConversion at hconv
      simp only [Bool.or_eq_false_iff, beq_eq_false_iff_ne, and_assoc] at hconv
      obtain ⟨h1, h2, h3, h4, h5, h6, h7, h8, h9, h10⟩ := hconv
      have he : convert args string s width precision flags st = some ((if c ≠ '%' then st.put ['%'] else st).put [c]) := by
        unfold convert
        rw [hderef]
        simp only [Option.bind_eq_bind, Option.bind_some, h1, h2, h3, h4, h5, h6, h7, h8, h9, h10, hnul, ne_eq, or_self,
          not_false_eq_true, if_false, if_true]
      refine ⟨_, he, ?_⟩
      split_ifs
      · exact hover.congr rfl rfl rfl
      · exact hover.congr rfl rfl rfl

/-- The loop moves on, at most to the NUL, and asks as the reading of the text says. -/
theorem iteration_over (args : ℕ → BitVec 32) (string : BitVec 32 → List Char) (hs : '\x00' ∉ s) (hlt : st.fmt < s.length) : ∃ st', iteration args string s st = some st' ∧ Over s st st' := by
  have hstep : iteration args string s st = (deref s st.fmt).bind fun c =>
      if c ≠ '%' then some (st.put [c]).next
      else (flagLoop s (s.length + 1) st 0).bind fun x => (fieldWidth args s x.1 x.2).bind fun x =>
        (getPrecision args s x.2.2).bind fun y => (getQualifier s y.2).bind fun st =>
          (convert args string s x.1 y.1 x.2.1 st).map Printf.next := by
    unfold iteration
    simp only [Option.map_eq_bind]
    rfl
  cases hd : s.drop st.fmt with
  | nil =>
    have := List.drop_eq_nil_iff.mp hd
    omega
  | cons c l =>
    obtain ⟨hc, -, -⟩ := deref_cons hd
    rw [hstep, hc, Option.bind_some]
    by_cases hpercent : c = '%'
    · subst hpercent
      rw [if_neg fun h => h rfl]
      obtain ⟨flags, st₁, he₁, h₁⟩ := flagLoop_going hlt (show s.length ≤ s.length + 1 + st.fmt by omega) (le_refl st.fmt) 0
        ⟨[], (List.append_nil _).symm, rfl, asks_step hd rfl⟩
      obtain ⟨width, flags', st₂, he₂, h₂⟩ := fieldWidth_going args h₁ flags
      rw [he₁, Option.bind_some, he₂, Option.bind_some]
      have hstarred : ∀ {st' : Printf}, Starred s st st' → ∀ {precision}, ∃ st'', (getQualifier s st').bind (fun st =>
          (convert args string s width precision flags' st).map Printf.next) = some st'' ∧ Over s st st'' := fun h precision => by
        rw [getQualifier_starred h, Option.bind_some, convert_starred h, Option.map_some]
        exact ⟨_, rfl, h.ended.congr rfl rfl rfl⟩
      obtain h₂ | h₂ := h₂
      · obtain ⟨precision, st₃, he₃, h₃⟩ := getPrecision_going args h₂
        rw [he₃, Option.bind_some]
        obtain h₃ | h₃ := h₃
        · obtain ⟨st₄, he₄, h₄⟩ := getQualifier_going h₃
          obtain ⟨st₅, he₅, h₅⟩ := convert_going args string hs h₄ width precision flags'
          rw [he₄, Option.bind_some, he₅, Option.map_some]
          exact ⟨_, rfl, h₅⟩
        · exact hstarred h₃
      · rw [getPrecision_starred h₂, Option.bind_some]
        exact hstarred h₂
    · rw [if_pos hpercent]
      have htext : Phase.text.step c = (.text, false) := by
        rw [step_text, if_neg hpercent]
      refine ⟨_, rfl, Nat.lt_succ_self _, hlt, [], (List.append_nil _).symm, rfl, ?_⟩
      rw [asks_step hd (by rw [htext]), htext]
      rfl

/-- The loop stops at the NUL. -/
theorem loop_over (args : ℕ → BitVec 32) (string : BitVec 32 → List Char) (hs : '\x00' ∉ s) {fuel : ℕ} (hle : st.fmt ≤ s.length) (hfuel : s.length < fuel + st.fmt) :
    ∃ st', loop args string s fuel st = some st' ∧ st'.fmt = s.length ∧
      st'.taken = st.taken ++ asks Phase.codeStep .text st.fmt (s.drop st.fmt) ∧
      st'.arg = st.arg + (asks Phase.codeStep .text st.fmt (s.drop st.fmt)).length := by
  induction fuel generalizing st with
  | zero => omega
  | succ fuel ih =>
    have hstep : loop args string s (fuel + 1) st = (deref s st.fmt).bind fun c =>
      if c = '\x00' then some st else (iteration args string s st).bind (loop args string s fuel) := rfl
    rw [hstep, deref_eq s hle, Option.bind_some]
    cases hd : s.drop st.fmt with
    | nil => exact ⟨st, rfl, le_antisymm hle (List.drop_eq_nil_iff.mp hd), (List.append_nil _).symm, rfl⟩
    | cons c l =>
      have hnul : c ≠ '\x00' := fun hc => hs (hc ▸ List.mem_of_mem_drop (hd ▸ List.mem_cons_self))
      obtain ⟨st₁, he, hlt, hle₁, m, htaken, harg, hasks⟩ := iteration_over args string hs (deref_cons hd).2.1
      rw [List.headD_cons, if_neg hnul, he, Option.bind_some]
      obtain ⟨st', he', hend, htaken', harg'⟩ := ih hle₁ (by omega)
      rw [← hd, hasks]
      refine ⟨st', he', hend, ?_, ?_⟩
      · rw [htaken', htaken, List.append_assoc]
      · rw [harg', harg, List.length_append, Nat.add_assoc]

end

/-- On every format the loop comes to the NUL and no further, each time a step on; and the arguments are
    taken where the directives ask for them if and only if no '*' is followed by an argument. -/
theorem vsprintf_asks {s : List Char} (hs : '\x00' ∉ s) (args : ℕ → BitVec 32) (string : BitVec 32 → List Char) :
    (∀ st : Printf, st.fmt < s.length → ∃ st', iteration args string s st = some st' ∧ st.fmt < st'.fmt ∧ st'.fmt ≤ s.length) ∧
    ∃ st, vsprintf args string s = some st ∧ st.fmt = s.length ∧ st.arg = st.taken.length ∧
      (st.taken = asks Phase.step .text 0 s ↔ StarsLast .text s) := by
  refine ⟨fun st hlt => ?_, ?_⟩
  · obtain ⟨st', he, hover⟩ := iteration_over args string hs hlt
    exact ⟨st', he, hover.lt, hover.le⟩
  · obtain ⟨st, he, hend, htaken, harg⟩ := loop_over args string hs (show (⟨0, [], 0, [], []⟩ : Printf).fmt ≤ s.length from Nat.zero_le _)
      (show s.length < s.length + 1 + 0 by omega)
    replace htaken : st.taken = asks Phase.codeStep .text 0 s := htaken
    refine ⟨st, he, hend, ?_, ?_⟩
    · rw [htaken, harg]
      exact Nat.zero_add _
    · rw [htaken]
      exact (asks_agree s).sync .text 0

/-- `%5d%c` -/
theorem vsprintf_asks_plain : ∃ st, vsprintf (fun _ => 65) (fun _ => []) "%5d%c".toList = some st ∧
    st.taken = asks Phase.step .text 0 "%5d%c".toList := by
  obtain ⟨-, st, he, -, -, hiff⟩ := vsprintf_asks (show '\x00' ∉ "%5d%c".toList by decide) (fun _ => 65) fun _ => []
  exact ⟨st, he, hiff.mpr (by simp [StarsLast, Phase.step, isFlag, isDigit, Phase.dot, Phase.qualify, Phase.convert, isQualifier])⟩

/-- `%*d` takes the width and then copies `%*d`. -/
theorem star_not_passed : ¬ ∀ (s : List Char) (args : ℕ → BitVec 32) (string : BitVec 32 → List Char), '\x00' ∉ s →
    ∃ st, vsprintf args string s = some st ∧ st.taken = asks Phase.step .text 0 s := fun h => by
  obtain ⟨st, he, htaken⟩ := h ['%', '*', 'd'] (fun n => if n = 0 then 5 else 7) (fun _ => []) (by decide)
  have hcode : (vsprintf (fun n => if n = 0 then 5 else 7) (fun _ => []) ['%', '*', 'd']).map Printf.taken = some [1] := by rfl
  rw [he, Option.map_some, htaken] at hcode
  exact absurd hcode (by decide)

end Linux011.Kernel
