/-
  `sys_lseek`, `sys_read` and `sys_write` (fs/read_write.c) with `file_read` and `file_write`
  (fs/file_dev.c) for regular files and directories, on the machine's numbers: `f_pos`, offsets and
  counts are signed longs, `i_size` is an unsigned one. Files of another kind are left to their
  drivers. Calls come one after the other.
-/
import Linux011.Fs.Tabled
import Linux011.Lib.Trans

namespace Linux011.Fs.Seek

open Linux011.Lib

/-! ## The calls -/

def fpos (x : File) : BitVec 32 := BitVec.ofNat 32 x.pos

def isize (x : MInode) : BitVec 32 := BitVec.ofNat 32 x.size

def setPos (f : Fin 64) (pos : BitVec 32) : K Unit := modFile f fun x => { x with pos := pos.toNat }

def eSPIPE : ℤ := 29

/-- `IS_SEEKABLE(MAJOR(dev))` -/
def seekable (dev : ℕ) : Bool := 1 ≤ dev / 256 ∧ dev / 256 ≤ 3

/-- Where `sys_lseek` goes; `none` for another origin. -/
def target (x : File) (y : MInode) (offset origin : BitVec 32) : Option (BitVec 32) :=
  if origin = 0 then some offset
  else if origin = 1 then some (fpos x + offset)
  else if origin = 2 then some (isize y + offset)
  else none

def sysLseek (fd : ℕ) (offset origin : BitVec 32) : K ℤ := do
  let s ← Prog.get
  match filp s fd with
  | none => return -eBADF
  | some f => match (s.file f).inode with
    | none => return -eBADF
    | some i =>
      if ¬ seekable (s.inode i).dev then return -eBADF
      else if (s.inode i).pipe then return -eSPIPE
      else match target (s.file f) (s.inode i) offset origin with
        | none => return -eINVAL
        | some pos =>
          if pos.toInt < 0 then return -eINVAL
          else do
            setPos f pos
            return pos.toInt

/-- `_bmap(inode,pos/BLOCK_SIZE,create)` -/
def mapBlock (i : Fin 32) (pos : BitVec 32) (create : Bool) : K ℕ :=
  let block := pos.toInt.tdiv 1024
  if block < 0 then panic "_bmap: block<0" else bmapCreate i block.toNat create

/-- How many of the bytes left are in the block of `pos`. -/
def chars (pos : BitVec 32) (left : ℕ) : ℕ := (min (1024 - pos.toInt.tmod 1024) left).toNat

/-- The loop of `file_read`. Before the start of a buffer there is no telling what is read. -/
def readLoop (i : Fin 32) (f : Fin 64) : ℕ → ℕ → K (List UInt8)
  | 0, _ => return []
  | n + 1, left => do
    if left = 0 then return []
    else
      let s ← Prog.get
      let d := (s.inode i).dev
      let pos := fpos (s.file f)
      let block ← mapBlock i pos false
      let c := chars pos left
      if block = 0 then
        setPos f (pos + BitVec.ofNat 32 c)
        putBytes (List.replicate c 0)
        let rest ← readLoop i f n (left - c)
        return List.replicate c 0 ++ rest
      else if ← bread d block then
        let nr := pos.toInt.tmod 1024
        if nr < 0 then Prog.halt .wild
        else
          setPos f (pos + BitVec.ofNat 32 c)
          let s ← Prog.get
          let bytes := (List.range c).map fun k => (s.disk d).block block (nr.toNat + k)
          putBytes bytes
          brelse d block
          let rest ← readLoop i f n (left - c)
          return bytes ++ rest
      else return []

def fileRead (i : Fin 32) (f : Fin 64) (count : ℕ) : K (ℤ × List UInt8) := do
  let bytes ← readLoop i f (count + 1) count
  return (if bytes.length = 0 then -eERROR else bytes.length, bytes)

def sysRead (fd : ℕ) (count : BitVec 32) : K (ℤ × List UInt8) := do
  let s ← Prog.get
  if count.toInt < 0 then return (-eINVAL, [])
  else match filp s fd with
    | none => return (-eINVAL, [])
    | some f =>
      if count = 0 then return (0, [])
      else match (s.file f).inode with
        | none => return (-eINVAL, [])
        | some i =>
          let x := s.inode i
          if ¬ x.pipe ∧ (isDir x.mode ∨ isReg x.mode) then
            -- the comparison is one of unsigned numbers
            let count := if isize x < count + fpos (s.file f) then isize x - fpos (s.file f) else count
            if count.toInt ≤ 0 then return (0, []) else fileRead i f count.toNat
          else return (-eINVAL, [])

/-- The body of the loop of `file_write`, for these bytes of one block; false at a `break`. -/
def writeChunk (i : Fin 32) (pos : BitVec 32) (chunk : List UInt8) : K Bool := do
  let s ← Prog.get
  let d := (s.inode i).dev
  let block ← mapBlock i pos true
  if block = 0 then return false
  else if ← bread d block then
    let c := pos.toInt.tmod 1024
    if c < 0 then Prog.halt .wild
    else
      let pos := pos + BitVec.ofNat 32 chunk.length
      modInode i fun x => if isize x < pos then { x with size := pos.toNat, dirt := true } else x
      getBytes d block c.toNat chunk
      brelse d block
      return true
  else return false

/-- The loop of `file_write`: the position reached and the bytes left. -/
def writeLoop (i : Fin 32) : ℕ → BitVec 32 → List UInt8 → K (BitVec 32 × List UInt8)
  | 0, pos, buf => return (pos, buf)
  | n + 1, pos, buf => do
    if buf.length = 0 then return (pos, buf)
    else
      let c := chars pos buf.length
      if ← writeChunk i pos (buf.take c) then writeLoop i n (pos + BitVec.ofNat 32 c) (buf.drop c)
      else return (pos, buf)

def fileWrite (i : Fin 32) (f : Fin 64) (buf : List UInt8) : K ℤ := do
  let s ← Prog.get
  let append := has (s.file f).flags oAPPEND
  let start := if append then isize (s.inode i) else fpos (s.file f)
  let r ← writeLoop i (buf.length + 1) start buf
  if append then pure () else setPos f r.1
  let n := buf.length - r.2.length
  return if n = 0 then -1 else n

/-- `user` are the bytes from `buf` on. -/
def sysWrite (fd : ℕ) (count : BitVec 32) (user : ℕ → UInt8) : K ℤ := do
  let s ← Prog.get
  if count.toInt < 0 then return -eINVAL
  else match filp s fd with
    | none => return -eINVAL
    | some f =>
      if count = 0 then return 0
      else match (s.file f).inode with
        | none => return -eINVAL
        | some i =>
          let x := s.inode i
          if ¬ x.pipe ∧ isReg x.mode then fileWrite i f ((List.range count.toNat).map user) else return -eINVAL

/-! ## Runs -/

inductive Call
  | lseek (fd : ℕ) (offset origin : BitVec 32)
  | read (fd : ℕ) (count : BitVec 32)
  | write (fd : ℕ) (count : BitVec 32) (user : ℕ → UInt8)

def Call.run : Call → K Unit
  | .lseek fd offset origin => Prog.void (sysLseek fd offset origin)
  | .read fd count => Prog.void (sysRead fd count)
  | .write fd count user => Prog.void (sysWrite fd count user)

/-- A call of a task, in the world it finds. -/
structure Io where
  task : Fin 64
  env : Env
  call : Call

def Io.enter (e : Io) (s : Kern) : Kern := { s with current := e.task, env := e.env }

inductive State
  | up (s : Kern)
  | down (e : Halted)

/-- After a call; a fault ends the task, and the others go on. -/
def State.after : Out Kern Halted Unit → State
  | .ok _ s => .up s
  | .fault s => .up s
  | .stop e => .down e

def Io.next (e : Io) (s : Kern) : State := State.after (e.call.run (e.enter s))

/-- No position is negative. -/
def Nonneg (s : Kern) : Prop := ∀ f, (s.file f).pos < 2 ^ 31

def sizes (s : Kern) (i : Fin 32) : ℕ := (s.inode i).size

/-- The first byte that no block can hold. -/
def limit : ℕ := 1024 * (7 + 512 + 512 * 512)

/-- No position is negative and, if `b`, no inode in core has a size above the limit. -/
def Sane (b : Prop) (s : Kern) : Prop := Nonneg s ∧ (b → ∀ i, sizes s i ≤ limit)

/-- The panics of `_bmap` are not among these. -/
def Mapped (e : Halted) : Prop := e ≠ .panic "_bmap: block<0" ∧ e ≠ .panic "_bmap: block>big"

instance (e : Halted) : Decidable (Mapped e) := inferInstanceAs (Decidable (_ ∧ _))

/-- `file_table` and the sizes of the inodes are as they were, and `_bmap` does not panic. -/
def Unmoved {α : Type} (m : K α) : Prop := ∀ F Z, Spec (fun s => s.file = F ∧ sizes s = Z) Mapped
  (fun s => s.file = F ∧ sizes s = Z) m fun _ s => s.file = F ∧ sizes s = Z

namespace Unmoved

variable {α β : Type} {m : K α}

theorem pure (a : α) : Unmoved (Pure.pure a : K α) := fun _ _ => Spec.pure fun _ hs => hs

theorem bind {f : α → K β} (hm : Unmoved m) (hf : ∀ a, Unmoved (f a)) : Unmoved (m >>= f) := fun F Z =>
  (hm F Z).bind fun a => hf a F Z

theorem ite {c : Prop} [Decidable c] {n : K α} (ht : Unmoved m) (hf : Unmoved n) : Unmoved (if c then m else n) := fun F Z =>
  Spec.ite (fun _ => ht F Z) fun _ => hf F Z

theorem get : Unmoved (Prog.get : K Kern) := fun _ _ _ hs => hs

theorem panic {msg : String} (h : Mapped (.panic msg)) : Unmoved (Fs.panic msg : K α) := fun _ _ => Spec.halt h

theorem modify {f : Kern → Kern} (hf : ∀ s, (f s).file = s.file)
    (hz : ∀ s, sizes (f s) = sizes s) : Unmoved (Prog.modify f) := fun _ _ =>
  Spec.modify fun s hs => ⟨(hf s).trans hs.1, (hz s).trans hs.2⟩

theorem each {f : α → K Unit} (hf : ∀ a, Unmoved (f a)) (l : List α) : Unmoved (Prog.each f l) := fun F Z =>
  Spec.each (fun a => hf a F Z) l

/-- So is every fact about the two. -/
theorem keeps (h : Unmoved m) (P : (Fin 64 → File) → (Fin 32 → ℕ) → Prop) :
    Spec (fun s => P s.file (sizes s)) Mapped (fun s => P s.file (sizes s)) m fun _ s => P s.file (sizes s) := by
  intro s hs
  have hm := (h s.file (sizes s)).conseq (fun _ h' => h') (fun _ s' h' => show P s'.file (sizes s') by rw [h'.1, h'.2]; exact hs)
  exact (hm.fault fun s' h' => show P s'.file (sizes s') by rw [h'.1, h'.2]; exact hs) s ⟨rfl, rfl⟩

end Unmoved

theorem toInt_small {pos : BitVec 32} (h : pos.toNat < 2 ^ 31) : pos.toInt = pos.toNat :=
  BitVec.toInt_eq_toNat_of_lt (by omega)

variable {b : Prop} {i : Fin 32} {f : Fin 64} {Z : Fin 32 → ℕ}

theorem toNat_add_ofNat {pos : BitVec 32} {c : ℕ} (h : pos.toNat + c < 2 ^ 32) : (pos + BitVec.ofNat 32 c).toNat = pos.toNat + c := by
  rw [BitVec.toNat_add, BitVec.toNat_ofNat]
  omega

theorem chars_eq {pos : BitVec 32} (h : pos.toNat < 2 ^ 31) (left : ℕ) : chars pos left = min (1024 - pos.toNat % 1024) left := by
  have hmod : pos.toInt.tmod 1024 = ((pos.toNat % 1024 : ℕ) : ℤ) := by
    rw [toInt_small h]
    rfl
  unfold chars
  rw [hmod]
  omega

/-- Position `p` of file `f`, with no position negative. -/
def At (f : Fin 64) (Z : Fin 32 → ℕ) (p : ℕ) (s : Kern) : Prop := Nonneg s ∧ sizes s = Z ∧ (s.file f).pos = p

theorem Unmoved.at {α : Type} {m : K α} (h : Unmoved m) (p : ℕ) :
    Spec (fun s => Nonneg s ∧ sizes s = Z) Mapped (At f Z p) m fun _ => At f Z p :=
  (h.keeps fun F z => (∀ g, (F g).pos < 2 ^ 31) ∧ z = Z ∧ (F f).pos = p).fault fun _ hs => ⟨hs.1, hs.2.1⟩

/-- A read of `count` bytes by way of `fd` stays below the limit: the file ends there, or the read does. -/
def ReadFits (s : Kern) (fd : ℕ) (count : BitVec 32) : Prop := ∀ f i, filp s fd = some f → (s.file f).inode = some i →
  (isDir (s.inode i).mode ∨ isReg (s.inode i).mode) → isize (s.inode i) ≤ fpos (s.file f) ∨
    min ((fpos (s.file f)).toNat + count.toNat) (isize (s.inode i)).toNat ≤ limit

/-- All the bytes below the limit are written. -/
def Reaches (i : Fin 32) (n : ℕ) (pos : BitVec 32) (buf : List UInt8) (s : Kern) : Prop :=
  ∃ p s', writeLoop i n pos (buf.take (limit - pos.toNat)) s = .ok (p, []) s'

/-- The loop over the bytes below the limit takes the same bytes first. -/
theorem writeLoop_below {n : ℕ} {pos : BitVec 32} {buf : List UInt8} (s : Kern) (hpos : pos.toNat < limit) (hbuf : buf.length ≠ 0) :
    writeLoop i (n + 1) pos (buf.take (limit - pos.toNat)) s = (writeChunk i pos (buf.take (chars pos buf.length)) >>= fun more =>
      let next := pos + BitVec.ofNat 32 (chars pos buf.length)
      if more then writeLoop i n next ((buf.drop (chars pos buf.length)).take (limit - next.toNat))
      else pure (pos, buf.take (limit - pos.toNat))) s := by
  have hl : limit = 1024 * (7 + 512 + 512 * 512) := rfl
  have hc := chars_eq (show pos.toNat < 2 ^ 31 by omega) buf.length
  have hlen : (buf.take (limit - pos.toNat)).length = min (limit - pos.toNat) buf.length := List.length_take
  have hsame : chars pos (buf.take (limit - pos.toNat)).length = chars pos buf.length := by
    rw [chars_eq (by omega), hc, hlen]
    omega
  have hnext : (pos + BitVec.ofNat 32 (chars pos buf.length)).toNat = pos.toNat + chars pos buf.length :=
    toNat_add_ofNat (by omega)
  dsimp only
  rw [hnext]
  generalize chars pos buf.length = c at *
  rw [writeLoop, if_neg (by omega), hsame, List.take_take, Nat.min_eq_left (by omega), List.drop_take, Nat.sub_sub]

/-- If the rest below the limit is written, so is all of it. -/
theorem Reaches.step {n : ℕ} {pos : BitVec 32} {buf : List UInt8} {s s₁ : Kern} (hpos : pos.toNat < limit) (hbuf : buf.length ≠ 0)
    (he : writeChunk i pos (buf.take (chars pos buf.length)) s = .ok true s₁)
    (h : Reaches i n (pos + BitVec.ofNat 32 (chars pos buf.length)) (buf.drop (chars pos buf.length)) s₁) :
    Reaches i (n + 1) pos buf s := by
  obtain ⟨p, s', hrun⟩ := h
  refine ⟨p, s', ?_⟩
  rw [writeLoop_below s hpos hbuf, Prog.bind_run he]
  exact hrun

/-- A write over the limit that is not cut short panics. -/
theorem writeLoop_panics (n : ℕ) : ∀ (pos : BitVec 32) (buf : List UInt8) (s : Kern), buf.length < n → buf.length ≠ 0 →
    pos.toNat < 2 ^ 31 → limit < pos.toNat + buf.length → Reaches i n pos buf s →
    writeLoop i n pos buf s = .stop (.panic "_bmap: block>big") := by
  have hl : limit = 1024 * (7 + 512 + 512 * 512) := rfl
  induction n with
  | zero => exact fun _ _ _ hn _ _ _ _ => absurd hn (Nat.not_lt_zero _)
  | succ n ih =>
    intro pos buf s hn hbuf hpos hend hr
    rw [writeLoop, if_neg hbuf]
    by_cases hlt : pos.toNat < limit
    · obtain ⟨p, s', hrun⟩ := hr
      have hc := chars_eq hpos buf.length
      rw [writeLoop_below s hlt hbuf] at hrun
      obtain ⟨more, s₁, he, hrest⟩ := Prog.bind_ok hrun
      rw [Prog.bind_run he]
      cases more with
      | false =>
        have hlen := congrArg List.length (Prod.ext_iff.mp (Out.ok.inj hrest).1).2
        rw [List.length_take, List.length_nil] at hlen
        omega
      | true =>
        rw [if_pos rfl]
        have hnext : (pos + BitVec.ofNat 32 (chars pos buf.length)).toNat = pos.toNat + chars pos buf.length :=
          toNat_add_ofNat (by omega)
        have hdrop : (buf.drop (chars pos buf.length)).length = buf.length - chars pos buf.length := List.length_drop
        exact ih _ _ s₁ (by omega) (by omega) (by omega) (by omega) ⟨p, s', hrest⟩
    · have hmap : mapBlock i pos true s = .stop (.panic "_bmap: block>big") := by
        have hblock : pos.toInt.tdiv 1024 = ((pos.toNat / 1024 : ℕ) : ℤ) := by
          rw [toInt_small hpos]
          rfl
        unfold mapBlock
        rw [hblock, if_neg (by omega)]
        refine (Prog.bind_run (Prog.get_run s)).trans ?_
        rw [if_pos (by omega)]
        rfl
      have hchunk : ∀ chunk, writeChunk i pos chunk s = .stop (.panic "_bmap: block>big") := fun chunk =>
        (Prog.bind_run (Prog.get_run s)).trans (Prog.bind_stop hmap)
      exact Prog.bind_stop (hchunk _)

/-- Where `file_write` starts. -/
def start (s : Kern) (f : Fin 64) (i : Fin 32) : BitVec 32 :=
  if has (s.file f).flags oAPPEND then isize (s.inode i) else fpos (s.file f)

theorem fileWrite_panics {s : Kern} {buf : List UInt8} (hbuf : buf.length ≠ 0) (hpos : (start s f i).toNat < 2 ^ 31)
    (hend : limit < (start s f i).toNat + buf.length) (hr : Reaches i (buf.length + 1) (start s f i) buf s) :
    fileWrite i f buf s = .stop (.panic "_bmap: block>big") := by
  refine (Prog.bind_run (Prog.get_run s)).trans (Prog.bind_stop ?_)
  exact writeLoop_panics _ (start s f i) buf s (Nat.lt_succ_self _) hbuf hpos hend hr

/-- A write of `count` bytes by way of `fd` ends at the limit or below, or before it gets there. -/
def WriteFits (s : Kern) (fd : ℕ) (count : BitVec 32) (user : ℕ → UInt8) : Prop := ∀ f i, filp s fd = some f →
  (s.file f).inode = some i → isReg (s.inode i).mode → (start s f i).toNat + count.toNat ≤ limit ∨
    ¬ Reaches i (count.toNat + 1) (start s f i) ((List.range count.toNat).map user) s

/-- The call stays below the limit. -/
def Call.Fits (b : Prop) (s : Kern) : Call → Prop
  | .lseek .. => True
  | .read fd count => b ∨ ReadFits s fd count
  | .write fd count user => WriteFits s fd count user

def Fits (b : Prop) : State → Io → Prop
  | .up s, e => e.call.Fits b (e.enter s)
  | .down _, _ => True

/-- Up and sane, or down for another reason than these panics. -/
def State.Ok (b : Prop) : State → Prop
  | .up s => Sane b s
  | .down e => Mapped e

end Linux011.Fs.Seek
