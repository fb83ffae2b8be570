/-
  fs/namei.c. A path is the bytes before the NUL; each byte read counts as a user access.
-/
import Linux011.Fs.Inode

namespace Linux011.Fs

open Linux011.Lib

def mayExec : ℕ := 1
def mayWrite : ℕ := 2

def suser (τ : Task) : Bool := τ.euid = 0

def permission (τ : Task) (x : MInode) (mask : ℕ) : Bool :=
  if x.dev ≠ 0 ∧ x.nlinks = 0 then false
  else
    let mode := if τ.euid = x.uid then x.mode >>> 6 else if τ.egid = x.gid then x.mode >>> 3 else x.mode
    mode &&& mask &&& 7 = mask || suser τ

/-! ## Directory entries -/

/-- `match`: entry `k` of block `b` is in use and has this name of at most 14 bytes. -/
def matchEntry (b : Block) (k : ℕ) (name : List UInt8) : Bool :=
  b.word (8 * k) ≠ 0 && (b.name k).take name.length = name &&
    (name.length = 14 || (b.name k).getD name.length 0 = 0)

/-- The name in directory entry `k`, up to the NUL. -/
def entryName (b : Block) (k : ℕ) : List UInt8 := (b.name k).takeWhile (· ≠ 0)

theorem takeWhile_eq_iff (l name : List UInt8) (h0 : 0 ∉ name) (hn : name.length ≤ l.length) :
    l.takeWhile (· ≠ 0) = name ↔
      l.take name.length = name ∧ (name.length = l.length ∨ l.getD name.length 0 = 0) := by
  induction l generalizing name with
  | nil =>
    obtain rfl := List.length_eq_zero_iff.mp (Nat.le_zero.mp hn)
    simp
  | cons a l ih =>
    cases name with
    | nil =>
      by_cases ha : a = 0
      · simp [ha]
      · simp [ha]
    | cons c name =>
      simp only [List.mem_cons, not_or] at h0
      rw [List.takeWhile_cons, List.length_cons, List.take_succ_cons]
      by_cases ha : a = 0
      · have hc : a ≠ c := fun he => h0.1 (ha.symm.trans he)
        simp [ha, ha ▸ hc]
      · simp only [ha, ne_eq, not_false_eq_true, decide_true, if_true, List.cons.injEq, List.length_cons,
          Nat.add_right_cancel_iff, List.getD_cons_succ]
        rw [and_assoc, ← ih name h0.2 (by simpa using hn)]

/-- `match` compares the names. -/
theorem matchEntry_iff {b : Block} {k : ℕ} {name : List UInt8} (h0 : 0 ∉ name) (hn : name.length ≤ 14) :
    matchEntry b k name = true ↔ b.word (8 * k) ≠ 0 ∧ entryName b k = name := by
  unfold matchEntry entryName
  have hl : (b.name k).length = 14 := by simp [Block.name]
  rw [takeWhile_eq_iff _ _ h0 (by omega), hl]
  simp only [Bool.and_eq_true, Bool.or_eq_true, decide_eq_true_eq, and_assoc]

/-- An entry in a buffer: block and place. -/
structure DirEntry where
  block : ℕ
  place : ℕ

def brelseOpt (d : ℕ) : Option ℕ → K Unit
  | none => pure ()
  | some b => brelse d b

/-- The buffer for entry `i` in `find_entry`, which changes at the first entry of a block. -/
def searchBuffer (dir : Fin 32) (d i : ℕ) (bh : Option ℕ) : K (Option ℕ) := do
  if i % 64 = 0 ∧ i ≠ 0 then
    brelseOpt d bh
    let block ← bmap dir (i / 64)
    if block = 0 then return none
    else if ← bread d block then return some block else return none
  else return bh

/-- The loop of `find_entry` from entry `i` on, with the buffer of block `bh`. A block that is
    missing is passed over. -/
def searchEntries (dir : Fin 32) (d entries : ℕ) (name : List UInt8) :
    ℕ → ℕ → Option ℕ → K (Option DirEntry)
  | 0, _, _ => Prog.halt .hang
  | n + 1, i, bh => do
    if entries ≤ i then
      brelseOpt d bh
      return none
    else
      match ← searchBuffer dir d i bh with
      | none => searchEntries dir d entries name n (i + 64) none
      | some b =>
        let s ← Prog.get
        if matchEntry ((s.disk d).block b) (i % 64) name then return some ⟨b, i % 64⟩
        else searchEntries dir d entries name n (i + 1) (some b)

def dot : UInt8 := 46
def slash : UInt8 := 47

/-- The test for `..`, which reads the two bytes again. -/
def isDotDot (name : List UInt8) : K Bool := do
  if name.length ≠ 2 then return false
  else
    access
    if name.getD 0 0 ≠ dot then return false
    else
      access
      return name.getD 1 0 = dot

/-- What `..` does in a root: the name searched for and the directory searched. -/
def crossMount (dir : Fin 32) (name : List UInt8) : K (Fin 32 × List UInt8) := do
  if ← isDotDot name then
    let s ← Prog.get
    if some dir = s.cur.root then return (dir, [dot])
    else if (s.inode dir).num = 1 then
      match ← getSuper (s.inode dir).dev with
      | none => Prog.halt .wild
      | some k =>
        match (s.super k).imount with
        | none => return (dir, name)
        | some m =>
          iput (some dir)
          incCount m
          return (m, name)
    else return (dir, name)
  else return (dir, name)

/-- `find_entry`: the directory may be exchanged; the buffer of the entry is held. -/
def findEntry (dir : Fin 32) (name : List UInt8) : K (Fin 32 × Option DirEntry) := do
  let s ← Prog.get
  let entries := (s.inode dir).size / 16
  if name.length = 0 then return (dir, none)
  else
    let (dir, name) ← crossMount dir (name.take 14)
    let s ← Prog.get
    let d := (s.inode dir).dev
    let block := (s.inode dir).zone 0
    if block = 0 then return (dir, none)
    else if ← bread d block then
      let e ← searchEntries dir d entries name (entries + 1) 0 (some block)
      return (dir, e)
    else return (dir, none)

/-- `de->inode = v` -/
def setEntry (d : ℕ) (e : DirEntry) (v : ℕ) : K Unit := Prog.modify fun s =>
  s.setBlock d e.block (((s.disk d).block e.block).setWord (8 * e.place) v)

/-- `de->name[k]=(k<namelen)?get_fs_byte(name+k):0` -/
def putNameByte (d : ℕ) (e : DirEntry) (name : List UInt8) (k : ℕ) : K Unit := do
  if k < name.length then access else pure ()
  Prog.modify fun s => s.setBlock d e.block
    (Function.update ((s.disk d).block e.block) (16 * e.place + 2 + k) (name.getD k 0))

/-- The buffer for entry `i` in `add_entry`; nothing if there is no block for it. -/
def addBuffer (dir : Fin 32) (d i : ℕ) (bh : Option ℕ) : K (Option (Option ℕ)) := do
  if i % 64 = 0 ∧ i ≠ 0 then
    brelseOpt d bh
    let block ← createBlock dir (i / 64)
    if block = 0 then return none
    else if ← bread d block then return some (some block) else return some none
  else return some bh

/-- Entry `i` lies behind the end: the directory grows. -/
def growDir (dir : Fin 32) (d b i : ℕ) : K Unit := do
  let s ← Prog.get
  if (s.inode dir).size ≤ 16 * i then
    setEntry d ⟨b, i % 64⟩ 0
    modInode dir fun x => { x with size := 16 * (i + 1), dirt := true }
  else pure ()

/-- The loop of `add_entry` from entry `i` on. -/
def scanFree (dir : Fin 32) (d : ℕ) (name : List UInt8) : ℕ → ℕ → Option ℕ → K (Option DirEntry)
  | 0, _, _ => Prog.halt .hang
  | n + 1, i, bh => do
    match ← addBuffer dir d i bh with
    | none => return none
    | some none => scanFree dir d name n (i + 64) none
    | some (some b) =>
      growDir dir d b i
      let s ← Prog.get
      if ((s.disk d).block b).word (8 * (i % 64)) = 0 then
        Prog.each (putNameByte d ⟨b, i % 64⟩ name) (List.range 14)
        return some ⟨b, i % 64⟩
      else scanFree dir d name n (i + 1) (some b)

def addEntry (dir : Fin 32) (name : List UInt8) : K (Option DirEntry) := do
  let s ← Prog.get
  let d := (s.inode dir).dev
  let block := (s.inode dir).zone 0
  if name.length = 0 ∨ block = 0 then return none
  else if ← bread d block then
    scanFree dir d (name.take 14) ((s.inode dir).size / 16 + 65) 0 (some block)
  else return none

/-- `de->inode` -/
def entryInode (d : ℕ) (e : DirEntry) : K ℕ := do
  let s ← Prog.get
  return ((s.disk d).block e.block).word (8 * e.place)

/-! ## Path names -/

/-- The scan of `get_dir` over one component: its bytes, and what follows a slash. -/
def nextName : List UInt8 → K (List UInt8 × Option (List UInt8))
  | [] => do
    access
    return ([], none)
  | c :: cs => do
    access
    if c = 0 then return ([], none)
    else if c = slash then return ([], some cs)
    else
      let r ← nextName cs
      return (c :: r.1, r.2)

/-- The loop of `get_dir` in directory `i`; every turn takes at least a slash off the path. -/
def walk : ℕ → Fin 32 → List UInt8 → K (Option (Fin 32))
  | 0, _, _ => Prog.halt .hang
  | n + 1, i, path => do
    let s ← Prog.get
    if ¬ isDir (s.inode i).mode ∨ ¬ permission s.cur (s.inode i) mayExec then
      iput (some i)
      return none
    else
      match ← nextName path with
      | (_, none) => return some i
      | (name, some rest) =>
        match ← findEntry i name with
        | (i, none) =>
          iput (some i)
          return none
        | (i, some e) =>
          let s ← Prog.get
          let d := (s.inode i).dev
          let nr ← entryInode d e
          brelse d e.block
          iput (some i)
          let i ← iget d nr
          walk n i rest

/-- `current->root` or `current->pwd`, if it is in use. -/
def inUse (s : Kern) (p : Option (Fin 32)) : Option (Fin 32) :=
  p.filter fun i => (s.inode i).count ≠ 0

def getDir (path : List UInt8) : K (Option (Fin 32)) := do
  let s ← Prog.get
  match inUse s s.cur.root, inUse s s.cur.pwd with
  | none, _ => panic "No root inode"
  | some _, none => panic "No cwd inode"
  | some root, some pwd =>
    access
    let c := path.getD 0 0
    if c = slash then do
      incCount root
      walk (path.length + 1) root (path.drop 1)
    else if c ≠ 0 then do
      incCount pwd
      walk (path.length + 1) pwd path
    else return none

/-- The bytes before the NUL. -/
def cString (path : List UInt8) : List UInt8 := path.takeWhile (· ≠ 0)

/-- What follows the last slash. -/
def basename (path : List UInt8) : List UInt8 := (path.reverse.takeWhile (· ≠ slash)).reverse

def dirNamei (path : List UInt8) : K (Option (Fin 32 × List UInt8)) := do
  match ← getDir path with
  | none => return none
  | some dir =>
    Prog.each (fun _ => access) (0 :: cString path)
    return some (dir, basename (cString path))

def namei (path : List UInt8) : K (Option (Fin 32)) := do
  match ← dirNamei path with
  | none => return none
  | some (dir, name) =>
    if name.length = 0 then return some dir
    else match ← findEntry dir name with
      | (dir, none) =>
        iput (some dir)
        return none
      | (dir, some e) =>
        let s ← Prog.get
        let d := (s.inode dir).dev
        let nr ← entryInode d e
        brelse d e.block
        iput (some dir)
        let i ← iget d nr
        modInode i fun x => { x with dirt := true }
        return some i

end Linux011.Fs
