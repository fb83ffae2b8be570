/-
  Buffer cache identity: no two buffers of one block, and a buffer keeps its block while a
  process holds a reference. The invariant ties `b_count` to the references in the stacks of
  all processes; it holds in every run in which no buffer is given a 256th reference at a time
  (`b_count` is an `unsigned char`).
-/
import Linux011.Lib.Count
import Linux011.Fs.Procs
import Mathlib.Algebra.Order.BigOperators.Group.Finset
import Mathlib.Data.List.Perm.Basic
import Mathlib.Data.List.Chain

namespace Linux011.Fs

open Linux011.Lib

/-! ## References in the stacks -/

/-- The references a frame stands for. -/
def Frame.refs : Frame → List Ref
  | .work held => held
  | .ret v => v.toList
  | .getHashWait r | .breadWait r | .breadaNext r _ | .breadaGot r _ | .brelse r => [r]
  | .breadaDrop r tmp _ => [r, tmp]
  | .fileCopy r _ _ _ _ _ => [r]
  | _ => []

def stackRefs (st : List Frame) : List Ref := st.flatMap Frame.refs

@[simp] theorem stackRefs_cons (f : Frame) (st : List Frame) :
    stackRefs (f :: st) = f.refs ++ stackRefs st := rfl

/-- The references of a stack to buffer `i`. -/
def refCount (i : Nat) (st : List Frame) : Nat := (stackRefs st).countP fun r => r.i = i

/-- The references of all processes to buffer `i`. -/
def Sys.refs {ι : Type} [Fintype ι] (σ : Sys ι) (i : Nat) : Nat := ∑ p, refCount i (σ.stack p)

/-! ## What a step does to the references -/

/-- How an action and the references before and after it go together. -/
def Accounts (c : Cache) (rs : List Ref) : Action → List Ref → Prop
  | .inc i, rs' => ∃ dev block, c.findBuffer dev block = some i ∧ rs'.Perm (⟨i, dev, block⟩ :: rs)
  | .dec i, rs' => ∃ r, r.i = i ∧ rs.Perm (r :: rs')
  | .reassign i dev block, rs' => (c.buf i).count = 0 ∧ (c.buf i).lock = false ∧
      (c.buf i).dirt = false ∧ c.findBuffer dev block = none ∧ rs'.Perm (⟨i, dev, block⟩ :: rs)
  | _, rs' => rs'.Perm rs

variable {c : Cache} {st st' : List Frame} {a : Act} {x : Action}

theorem workStep_accounts {held : List Ref} (h : workStep c held st a = some (x, st')) :
    Accounts c (held ++ stackRefs st) x (stackRefs st') := by
  unfold workStep at h
  cases a with
  | go | found | full | pageFault => cases h
  | brelse r =>
    dsimp only at h
    split_ifs at h with hr
    cases h
    exact (List.perm_cons_erase hr).symm.append_right _
  | done =>
    dsimp only at h
    split_ifs at h with hd
    cases h
    rw [hd.1]
    exact List.Perm.refl _
  | _ =>
    dsimp only at h
    try split_ifs at h
    all_goals (cases h; exact List.Perm.refl _)

theorem deliver_accounts {v : Option Ref} {f : Frame} (h : deliver c v f st = some (x, st')) :
    Accounts c (v.toList ++ (f.refs ++ stackRefs st)) x (stackRefs st') := by
  cases f with
  | work held =>
    cases h
    show List.Perm (v.toList ++ held ++ stackRefs st) _
    rw [List.append_assoc]
    exact List.Perm.refl _
  | getblk dev block =>
    cases v with
    | some r => cases h; exact List.Perm.refl _
    | none =>
      dsimp only [deliver] at h
      split at h <;> (cases h; exact List.Perm.refl _)
  | bread | breada =>
    cases v with
    | none => cases h
    | some r =>
      dsimp only [deliver] at h
      split_ifs at h <;> (cases h; exact List.Perm.refl _)
  | breadaGot r rest =>
    cases v with
    | none => cases h; exact List.Perm.refl _
    | some tmp =>
      dsimp only [deliver] at h
      split_ifs at h <;> (cases h; exact List.Perm.swap _ _ _)
  | fileRead dev pos buf =>
    cases v with
    | none => cases h; exact List.Perm.refl _
    | some r => cases h; exact List.Perm.refl _
  | _ => cases v <;> cases h

theorem getblkStep_accounts {dev block i : Nat} (hl : (c.buf i).lock = false)
    (h : getblkStep c dev block i st = (x, st')) :
    Accounts c (stackRefs st) x (stackRefs st') := by
  unfold getblkStep at h
  split_ifs at h with hc hd hf
  · cases h; exact List.Perm.refl _
  · cases h; exact List.Perm.refl _
  · cases h; exact List.Perm.refl _
  · cases h
    exact ⟨not_not.mp hc, hl, by simpa using hd, by simpa using hf, List.Perm.refl _⟩

theorem goStep_accounts {f : Frame} (h : goStep c st f = some (x, st')) :
    Accounts c (f.refs ++ stackRefs st) x (stackRefs st') := by
  cases f with
  | ret v =>
    cases st with
    | nil => cases h
    | cons f st => exact deliver_accounts h
  | getHash dev block =>
    dsimp only [goStep] at h
    split at h
    · cases h; exact List.Perm.refl _
    · rename_i i hf
      cases h
      exact ⟨dev, block, hf, List.Perm.refl _⟩
  | getHashWait r =>
    dsimp only [goStep] at h
    split_ifs at h
    · cases h; exact List.Perm.refl _
    · cases h; exact ⟨r, rfl, List.Perm.refl _⟩
  | getblkWait dev block i =>
    dsimp only [goStep] at h
    split_ifs at h with hl
    exact getblkStep_accounts (by simpa using hl) (Option.some.inj h)
  | llRw rw i =>
    dsimp only [goStep, llRwStep] at h
    split_ifs at h <;> (cases h; exact List.Perm.refl _)
  | lockBuffer write ahead i =>
    dsimp only [goStep, lockStep] at h
    split_ifs at h <;> (cases h; exact List.Perm.refl _)
  | request write ahead i =>
    dsimp only [goStep] at h
    split at h
    · cases h; exact List.Perm.refl _
    · split_ifs at h
      cases h; exact List.Perm.refl _
  | breadaNext r rest =>
    cases rest <;> (cases h; exact List.Perm.refl _)
  | breadaDrop r tmp rest =>
    cases h
    exact ⟨tmp, rfl, List.Perm.swap _ _ _⟩
  | brelse r =>
    dsimp only [goStep] at h
    split_ifs at h
    cases h
    exact ⟨r, rfl, List.Perm.refl _⟩
  | fileCopy r off chunk dev pos buf =>
    cases chunk <;> (cases h; exact List.Perm.refl _)
  | work | getblk | bread | breada | breadaGot | fileCreate | fileRead => cases h
  | getblkSleep dev block => cases h; exact List.Perm.refl _
  | syncDev | syncDevWait | sysSync | sysSyncWait | breadWait | fileWrite =>
    dsimp only [goStep] at h
    split_ifs at h <;> (cases h; exact List.Perm.refl _)

/-- `work` changes nothing in the cache, except that it writes a block. -/
theorem workStep_action {held : List Ref} (h : workStep c held st a = some (x, st')) :
    x = .skip ∨ ∃ i data fresh, x = .modify i data fresh := by
  unfold workStep at h
  cases a with
  | go | found | full | pageFault => cases h
  | getHashTable | syncDev | sysSync => cases h; exact Or.inl rfl
  | modify =>
    dsimp only at h
    split_ifs at h
    cases h
    exact Or.inr ⟨_, _, _, rfl⟩
  | _ =>
    dsimp only at h
    split_ifs at h
    cases h
    exact Or.inl rfl

/-- A return changes nothing, except that `file_write` sets `b_dirt`. -/
theorem deliver_action {v : Option Ref} {f : Frame} (h : deliver c v f st = some (x, st')) :
    x = .skip ∨ ∃ i, x = .setDirt i := by
  cases f with
  | getblk =>
    cases v with
    | some r => cases h; exact Or.inl rfl
    | none =>
      dsimp only [deliver] at h
      split at h <;> (cases h; exact Or.inl rfl)
  | bread | breada =>
    cases v with
    | none => cases h
    | some r =>
      dsimp only [deliver] at h
      split_ifs at h <;> (cases h; exact Or.inl rfl)
  | breadaGot =>
    cases v with
    | none => cases h; exact Or.inl rfl
    | some r =>
      dsimp only [deliver] at h
      split_ifs at h <;> (cases h; exact Or.inl rfl)
  | fileRead =>
    cases v with
    | none => cases h; exact Or.inl rfl
    | some r => cases h; exact Or.inr ⟨_, rfl⟩
  | work => cases h; exact Or.inl rfl
  | _ => cases v <;> cases h

/-- A step of a process is one of `work`, one of `create_block`'s ends, a page fault, or the
    code going on. -/
theorem exec_cases (h : exec c st a = some (x, st')) :
    (∃ held st1, st = .work held :: st1 ∧ workStep c held st1 a = some (x, st')) ∨
    (∃ f st1, st = f :: st1 ∧ goStep c st1 f = some (x, st')) ∨
    (∃ dev pos buf st1, st = .fileCreate dev pos buf :: st1 ∧ x = .skip ∧ (st' = st1 ∨
      ∃ block, st' = callGetblk dev block (.bread :: .fileRead dev pos buf :: st1))) ∨
    (∃ r off chunk dev pos buf st1, st = .fileCopy r off chunk dev pos buf :: st1 ∧ x = .skip ∧
      st' = .work [] :: st) := by
  unfold exec at h
  split at h
  · exact Or.inl ⟨_, _, rfl, h⟩
  · cases h; exact Or.inr (Or.inr (Or.inl ⟨_, _, _, _, rfl, rfl, Or.inr ⟨_, rfl⟩⟩))
  · cases h; exact Or.inr (Or.inr (Or.inl ⟨_, _, _, _, rfl, rfl, Or.inl rfl⟩))
  · cases h; exact Or.inr (Or.inr (Or.inr ⟨_, _, _, _, _, _, _, rfl, rfl, rfl⟩))
  · exact Or.inr (Or.inl ⟨_, _, rfl, h⟩)
  · cases h

theorem exec_accounts (h : exec c st a = some (x, st')) :
    Accounts c (stackRefs st) x (stackRefs st') := by
  rcases exec_cases h with ⟨held, st1, rfl, hw⟩ | ⟨f, st1, rfl, hg⟩ |
    ⟨dev, pos, buf, st1, rfl, rfl, rfl | ⟨block, rfl⟩⟩ |
    ⟨r, off, chunk, dev, pos, buf, st1, rfl, rfl, rfl⟩
  · exact workStep_accounts hw
  · exact goStep_accounts hg
  all_goals exact List.Perm.refl _

/-! ## The shape of the stacks -/

/-- Which frame may stand above another: what `getblk` called was for its own block, and the
    frame that `file_write` waits for is in `bread`. -/
def Above (f : Frame) : Frame → Prop
  | .getblk dev block => match f with
    | .getHash dev' block' => dev' = dev ∧ block' = block
    | .getHashWait r => r.dev = dev ∧ r.block = block
    | .ret none => True
    | .ret (some r) => r.dev = dev ∧ r.block = block
    | _ => False
  | .fileRead _ _ _ => match f with
    | .bread | .breadWait _ | .ret _ => True
    | _ => False
  | _ => True

def Shaped (st : List Frame) : Prop := st.IsChain Above

theorem shaped_cons {f : Frame} :
    Shaped (f :: st) ↔ (∀ g ∈ st.head?, Above f g) ∧ Shaped st := List.isChain_cons

theorem Shaped.tail {f : Frame} (h : Shaped (f :: st)) : Shaped st := (shaped_cons.mp h).2

/-- The top frame is replaced. -/
theorem Shaped.top {f f' : Frame} (h : Shaped (f :: st)) (ht : ∀ g, Above f g → Above f' g) :
    Shaped (f' :: st) :=
  shaped_cons.mpr ⟨fun g hg => ht g ((shaped_cons.mp h).1 g hg), h.tail⟩

/-- A frame that neither `getblk` nor `file_write` waits for. -/
def Frame.Plain : Frame → Prop
  | .ret _ | .getHash _ _ | .getHashWait _ | .bread | .breadWait _ => False
  | _ => True

/-- Such a frame may give way to any other. -/
theorem Shaped.replace {f : Frame} (h : Shaped (f :: st)) (hf : f.Plain) (f' : Frame) :
    Shaped (f' :: st) := by
  refine h.top fun g hg => ?_
  cases g with
  | getblk | fileRead => cases f <;> first | exact hf.elim | exact False.elim hg
  | _ => trivial

/-- A frame is pushed on top of one that `getblk` and `file_write` do not wait with. -/
theorem Shaped.push {f g : Frame} (h : Shaped (g :: st)) (hg : Above f g) :
    Shaped (f :: g :: st) :=
  shaped_cons.mpr ⟨fun g' hg' => by cases hg'; exact hg, h⟩

theorem Shaped.callGetblk {dev block : Nat} (h : Shaped st)
    (hg : ∀ g ∈ st.head?, Above (.getblk dev block) g) : Shaped (callGetblk dev block st) :=
  Shaped.push (shaped_cons.mpr ⟨hg, h⟩) ⟨rfl, rfl⟩

theorem workStep_shaped {held : List Ref} (hs : Shaped (.work held :: st))
    (h : workStep c held st a = some (x, st')) : Shaped st' := by
  unfold workStep at h
  cases a with
  | go | found | full | pageFault => cases h
  | done =>
    dsimp only at h
    split_ifs at h
    cases h
    exact hs.tail
  | getblk dev block =>
    dsimp only at h
    split_ifs at h
    cases h
    exact hs.callGetblk (fun g hg => by cases hg; exact trivial)
  | bread dev block =>
    dsimp only at h
    split_ifs at h
    cases h
    exact (hs.push trivial).callGetblk (fun g hg => by cases hg; exact trivial)
  | breada dev first rest =>
    dsimp only at h
    split_ifs at h
    cases h
    exact (hs.push trivial).callGetblk (fun g hg => by cases hg; exact trivial)
  | brelse r =>
    dsimp only at h
    split_ifs at h
    cases h
    exact (hs.replace trivial _).push trivial
  | getHashTable | syncDev => cases h; exact hs.push trivial
  | sysSync => cases h; exact (hs.push trivial).push trivial
  | modify =>
    dsimp only at h
    split_ifs at h
    cases h
    exact hs
  | fileWrite =>
    dsimp only at h
    split_ifs at h
    cases h
    exact hs.push trivial

theorem deliver_shaped {v : Option Ref} {f : Frame} (hs : Shaped (.ret v :: f :: st))
    (h : deliver c v f st = some (x, st')) : Shaped st' := by
  cases f with
  | work held => cases h; exact hs.tail.replace trivial _
  | getblk dev block =>
    cases v with
    | some r => cases h; exact hs.tail.replace trivial _
    | none =>
      dsimp only [deliver] at h
      split at h <;> (cases h; exact hs.tail.replace trivial _)
  | bread =>
    have hr : ∀ f', (∀ g, Above .bread g → Above f' g) → Shaped (f' :: st) := fun f' => hs.tail.top
    cases v with
    | none => cases h
    | some r =>
      dsimp only [deliver] at h
      split_ifs at h
      · cases h
        exact hr _ fun g hg => by cases g <;> first | exact trivial | exact hg.elim
      · cases h
        exact (hr _ fun g hg => by cases g <;> first | exact trivial | exact hg.elim).push trivial
  | breada rest =>
    cases v with
    | none => cases h
    | some r =>
      dsimp only [deliver] at h
      split_ifs at h
      · cases h; exact hs.tail.replace trivial _
      · cases h; exact (hs.tail.replace trivial _).push trivial
  | breadaGot r rest =>
    cases v with
    | none => cases h; exact hs.tail.replace trivial _
    | some tmp =>
      dsimp only [deliver] at h
      split_ifs at h
      · cases h; exact hs.tail.replace trivial _
      · cases h; exact (hs.tail.replace trivial _).push trivial
  | fileRead dev pos buf =>
    cases v with
    | none => cases h; exact hs.tail.tail
    | some r => cases h; exact hs.tail.replace trivial _
  | _ => cases v <;> cases h

/-- `getblk` starts again, in place of a frame nobody but its caller waits for. -/
theorem Shaped.again {f : Frame} {dev block : Nat} (hs : Shaped (f :: st)) (hf : f.Plain) :
    Shaped (Fs.callGetblk dev block st) := (hs.replace hf (.getblk dev block)).push ⟨rfl, rfl⟩

theorem getblkStep_shaped {dev block i : Nat} (hs : Shaped (.getblkWait dev block i :: st))
    (h : getblkStep c dev block i st = (x, st')) : Shaped st' := by
  unfold getblkStep at h
  split_ifs at h
  · cases h; exact hs.again trivial
  · cases h; exact hs.push trivial
  · cases h; exact hs.again trivial
  · cases h
    exact (hs.replace trivial (.getblk dev block)).push ⟨rfl, rfl⟩

theorem goStep_shaped {f : Frame} (hs : Shaped (f :: st)) (h : goStep c st f = some (x, st')) :
    Shaped st' := by
  cases f with
  | ret v =>
    cases st with
    | nil => cases h
    | cons f st => exact deliver_shaped hs h
  | getHash dev block =>
    dsimp only [goStep] at h
    split at h <;>
      (cases h; exact hs.top fun g hg => by cases g <;> first | exact hg | exact trivial)
  | getHashWait r =>
    dsimp only [goStep] at h
    split_ifs at h <;>
      (cases h; exact hs.top fun g hg => by cases g <;> first | exact hg | exact trivial)
  | getblkSleep dev block => cases h; exact hs.again trivial
  | getblkWait dev block i =>
    dsimp only [goStep] at h
    split_ifs at h
    exact getblkStep_shaped hs (Option.some.inj h)
  | llRw rw i =>
    dsimp only [goStep, llRwStep] at h
    split_ifs at h
    · cases h; exact hs.tail
    · cases h; exact hs.tail
    · cases h; exact hs.replace trivial _
  | lockBuffer write ahead i =>
    dsimp only [goStep, lockStep] at h
    split_ifs at h
    · cases h; exact hs.tail
    · cases h; exact hs.replace trivial _
  | request write ahead i =>
    dsimp only [goStep] at h
    split at h
    · cases h; exact hs.tail
    · split_ifs at h
      cases h; exact hs.tail
  | breadWait r =>
    dsimp only [goStep] at h
    split_ifs at h
    · cases h
      exact hs.top fun g hg => by cases g <;> first | exact hg.elim | exact trivial
    · cases h
      have hr : Shaped (.ret none :: st) := hs.top fun g hg => by
        cases g <;> first | exact hg.elim | exact trivial
      exact hr.push trivial
  | breadaNext r rest =>
    cases rest with
    | nil => cases h; exact hs.replace trivial _
    | cons b rest =>
      cases h
      exact ((hs.replace trivial (.breadaGot r rest)).push trivial).push ⟨rfl, rfl⟩
  | breadaDrop r tmp rest => cases h; exact hs.replace trivial _
  | brelse r =>
    dsimp only [goStep] at h
    split_ifs at h
    cases h
    exact hs.tail
  | fileWrite dev pos buf =>
    dsimp only [goStep] at h
    split_ifs at h
    · cases h; exact hs.tail
    · cases h; exact (hs.replace trivial _).push trivial
  | fileCopy r off chunk dev pos buf =>
    cases chunk with
    | nil => cases h; exact (hs.replace trivial (.fileWrite dev pos buf)).push trivial
    | cons v vs => cases h; exact hs.replace trivial _
  | syncDev dev second i =>
    dsimp only [goStep] at h
    split_ifs at h
    · cases h; exact hs.tail
    · cases h; exact (hs.replace trivial _).push trivial
    all_goals (cases h; exact hs.replace trivial _)
  | syncDevWait dev second i =>
    dsimp only [goStep] at h
    split_ifs at h
    · cases h; exact (hs.replace trivial (.syncDev dev second (i + 1))).push trivial
    · cases h; exact hs.replace trivial _
  | sysSync i =>
    dsimp only [goStep] at h
    split_ifs at h
    · cases h; exact hs.tail
    · cases h; exact hs.replace trivial _
  | sysSyncWait i =>
    dsimp only [goStep] at h
    split_ifs at h
    · cases h; exact (hs.replace trivial (.sysSync (i + 1))).push trivial
    · cases h; exact hs.replace trivial _
  | work | getblk | bread | breada | breadaGot | fileCreate | fileRead => cases h

theorem exec_shaped (hs : Shaped st) (h : exec c st a = some (x, st')) : Shaped st' := by
  rcases exec_cases h with ⟨held, st1, rfl, hw⟩ | ⟨f, st1, rfl, hg⟩ |
    ⟨dev, pos, buf, st1, rfl, rfl, rfl | ⟨block, rfl⟩⟩ |
    ⟨r, off, chunk, dev, pos, buf, st1, rfl, rfl, rfl⟩
  · exact workStep_shaped hs hw
  · exact goStep_shaped hs hg
  · exact hs.tail
  · have hr : Shaped (.bread :: .fileRead dev pos buf :: st1) := (hs.replace trivial _).push trivial
    exact (hr.push trivial).push ⟨rfl, rfl⟩
  · exact hs.push trivial

/-! ## The hash chains -/

/-- The chains hold exactly the buffers that have a device, once each, and no two of these have
    the same block. -/
structure Cache.Hashed (c : Cache) : Prop where
  mem : ∀ {h i}, i ∈ c.hash h ↔ (c.buf i).dev ≠ 0 ∧ hashfn (c.buf i).dev (c.buf i).blocknr = h
  nodup : ∀ h, (c.hash h).Nodup
  unique : ∀ i j, (c.buf i).dev ≠ 0 → (c.buf j).dev = (c.buf i).dev →
    (c.buf j).blocknr = (c.buf i).blocknr → j = i

/-- Every buffer keeps its block, and the chains stay. -/
structure SameBlocks (c c' : Cache) : Prop where
  hash : c'.hash = c.hash
  dev : ∀ i, (c'.buf i).dev = (c.buf i).dev
  blocknr : ∀ i, (c'.buf i).blocknr = (c.buf i).blocknr

theorem SameBlocks.hashed {c' : Cache} (h : SameBlocks c c') (hc : c.Hashed) : c'.Hashed where
  mem := by
    intro k i
    rw [h.hash, h.dev, h.blocknr]
    exact hc.mem
  nodup k := by rw [h.hash]; exact hc.nodup k
  unique i j := by
    simp only [h.dev, h.blocknr]
    exact hc.unique i j

theorem SameBlocks.setBuf (c : Cache) (i : Nat) {f : Buf → Buf}
    (hf : ∀ b, (f b).dev = b.dev ∧ (f b).blocknr = b.blocknr) : SameBlocks c (c.setBuf i f) where
  hash := rfl
  dev j := by
    by_cases hj : j = i
    · subst hj; simp [Cache.setBuf, hf]
    · simp [Cache.setBuf, hj]
  blocknr j := by
    by_cases hj : j = i
    · subst hj; simp [Cache.setBuf, hf]
    · simp [Cache.setBuf, hj]

theorem findBuffer_some {dev block i : Nat} (h : c.findBuffer dev block = some i) :
    (c.buf i).dev = dev ∧ (c.buf i).blocknr = block := by
  simpa using List.find?_some h

theorem Cache.Hashed.findBuffer_none (hc : c.Hashed) {dev block : Nat} (hd : dev ≠ 0)
    (h : c.findBuffer dev block = none) (i : Nat) :
    ¬ ((c.buf i).dev = dev ∧ (c.buf i).blocknr = block) := by
  rintro ⟨rfl, rfl⟩
  have hi := List.find?_eq_none.mp h i (hc.mem.mpr ⟨hd, rfl⟩)
  simp at hi

theorem reassign_buf (c : Cache) (i dev block : Nat) :
    (c.reassign i dev block).buf = Function.update c.buf i
      { c.buf i with dev := dev, blocknr := block, count := 1, dirt := false, uptodate := false } := by
  unfold Cache.reassign Cache.insertIntoQueues
  dsimp only
  split_ifs <;> simp [Cache.setBuf, Cache.removeFromQueues]

/-- The buffer leaves its old chain and goes in front of the one of its new block. -/
theorem Cache.Hashed.reassign_hash (hc : c.Hashed) (i dev block h : Nat) :
    (c.reassign i dev block).hash h =
      (if dev ≠ 0 ∧ hashfn dev block = h then [i] else []) ++ (c.hash h).erase i := by
  have hold : Function.update c.hash (hashfn (c.buf i).dev (c.buf i).blocknr)
      ((c.hash (hashfn (c.buf i).dev (c.buf i).blocknr)).erase i) = fun h => (c.hash h).erase i := by
    funext k
    by_cases hk : k = hashfn (c.buf i).dev (c.buf i).blocknr
    · subst hk; simp
    · rw [Function.update_of_ne hk, List.erase_of_not_mem]
      exact fun hi => hk (hc.mem.mp hi).2.symm
  unfold Cache.reassign Cache.insertIntoQueues
  simp only [Cache.setBuf, Cache.removeFromQueues, Function.update_self, hold]
  by_cases hd : dev = 0
  · simp [hd]
  · by_cases hh : h = hashfn dev block
    · subst hh; simp [hd]
    · have hh' : hashfn dev block ≠ h := fun e => hh e.symm
      simp [hd, hh, hh']

theorem Cache.Hashed.reassign (hc : c.Hashed) {i dev block : Nat}
    (hf : c.findBuffer dev block = none) : (c.reassign i dev block).Hashed where
  mem := by
    intro h j
    rw [hc.reassign_hash, reassign_buf]
    by_cases hj : j = i
    · subst hj
      have : j ∉ (c.hash h).erase j := (hc.nodup h).not_mem_erase
      simp [this]
    · have : j ∉ (if dev ≠ 0 ∧ hashfn dev block = h then [i] else []) := by split_ifs <;> simp [hj]
      rw [List.mem_append, or_iff_right this, List.mem_erase_of_ne hj, Function.update_of_ne hj]
      exact hc.mem
  nodup h := by
    rw [hc.reassign_hash]
    have hi : i ∉ (c.hash h).erase i := (hc.nodup h).not_mem_erase
    split_ifs
    · exact List.nodup_cons.mpr ⟨hi, (hc.nodup h).erase i⟩
    · exact (hc.nodup h).erase i
  unique j k := by
    rw [reassign_buf]
    by_cases hj : j = i <;> by_cases hk : k = i
    · intros; rw [hj, hk]
    · subst hj
      simp only [Function.update_self, Function.update_of_ne hk]
      exact fun hd hdk hbk => absurd ⟨hdk, hbk⟩ (hc.findBuffer_none hd hf k)
    · subst hk
      simp only [Function.update_self, Function.update_of_ne hj]
      exact fun hd hdj hbj => absurd ⟨hdj.symm, hbj.symm⟩
        (hc.findBuffer_none (by rwa [hdj]) hf j)
    · simp only [Function.update_of_ne hj, Function.update_of_ne hk]
      exact hc.unique j k

/-! ## Actions -/

/-- An action other than `getblk`'s last one leaves every buffer its block. -/
theorem act_sameBlocks (c : Cache) (x : Action) (hx : ∀ i dev block, x ≠ .reassign i dev block) :
    SameBlocks c (c.act x) := by
  cases x with
  | skip => exact ⟨rfl, fun _ => rfl, fun _ => rfl⟩
  | reassign i dev block => exact absurd rfl (hx i dev block)
  | addRequest slot write i =>
    have h : SameBlocks c (c.setBuf i fun b => { b with dirt := false }) :=
      SameBlocks.setBuf c i fun _ => ⟨rfl, rfl⟩
    exact ⟨h.hash, h.dev, h.blocknr⟩
  | inc i | dec i | lock i | unlock i | setDirt i | poke i | modify i =>
    dsimp only [Cache.act]
    exact SameBlocks.setBuf c i fun _ => ⟨rfl, rfl⟩

/-- The change of `b_count` in an action. -/
def Action.newCount (k : Nat) (i : Nat) : Action → Nat
  | .inc j => if i = j then (k + 1) % 256 else k
  | .dec j => if i = j then (k + 255) % 256 else k
  | .reassign j _ _ => if i = j then 1 else k
  | _ => k

theorem setBuf_count (c : Cache) (j i : Nat) (f : Buf → Buf) :
    ((c.setBuf j f).buf i).count = if i = j then (f (c.buf j)).count else (c.buf i).count := by
  by_cases hi : i = j
  · subst hi; simp [Cache.setBuf]
  · simp [Cache.setBuf, hi]

theorem act_count (c : Cache) (x : Action) (i : Nat) :
    ((c.act x).buf i).count = x.newCount (c.buf i).count i := by
  cases x with
  | skip => rfl
  | reassign j dev block =>
    show ((c.reassign j dev block).buf i).count = if i = j then 1 else _
    rw [reassign_buf]
    by_cases hi : i = j
    · subst hi; simp
    · simp [hi]
  | addRequest slot write j =>
    show ((c.setBuf j fun b => { b with dirt := false }).buf i).count = _
    rw [setBuf_count]
    split_ifs with hi
    · rw [hi]; rfl
    · rfl
  | inc j | dec j =>
    dsimp only [Cache.act]
    rw [setBuf_count]
    by_cases hi : i = j
    · subst hi; rfl
    · simp [Action.newCount, hi]
  | lock j | unlock j | setDirt j | poke j | modify j =>
    dsimp only [Cache.act]
    rw [setBuf_count]
    split_ifs with hi
    · rw [hi]; rfl
    · rfl

/-- The references a step adds or drops are what it does to `b_count`. -/
theorem Accounts.count {rs rs' : List Ref} (h : Accounts c rs x rs') (i : Nat)
    (hle : rs.countP (fun r => r.i = i) ≤ (c.buf i).count) (hlt : (c.buf i).count < 256)
    (hx : x = .inc i → (c.buf i).count ≠ 255) :
    x.newCount (c.buf i).count i + rs.countP (fun r => r.i = i) =
      (c.buf i).count + rs'.countP (fun r => r.i = i) ∧ x.newCount (c.buf i).count i < 256 := by
  cases x with
  | inc j =>
    obtain ⟨dev, block, -, hp⟩ := h
    rw [hp.countP_eq, List.countP_cons]
    by_cases hi : i = j
    · subst hi
      have := hx rfl
      simp only [Action.newCount, ite_true, decide_true]
      omega
    · have hj : ¬ j = i := fun e => hi e.symm
      simpa [Action.newCount, hi, hj] using hlt
  | dec j =>
    obtain ⟨r, rfl, hp⟩ := h
    rw [hp.countP_eq, List.countP_cons] at hle ⊢
    by_cases hi : i = r.i
    · subst hi
      simp only [Action.newCount, ite_true, decide_true] at hle ⊢
      omega
    · have hj : ¬ r.i = i := fun e => hi e.symm
      simpa [Action.newCount, hi, hj] using hlt
  | reassign j dev block =>
    obtain ⟨h0, -, -, -, hp⟩ := h
    rw [hp.countP_eq, List.countP_cons]
    by_cases hi : i = j
    · subst hi
      simp only [Action.newCount, ite_true, decide_true]
      omega
    · have hj : ¬ j = i := fun e => hi e.symm
      simpa [Action.newCount, hi, hj] using hlt
  | _ => exact ⟨by rw [List.Perm.countP_eq _ h]; rfl, hlt⟩

/-- A buffer with a `b_count` keeps its block. -/
theorem Accounts.keeps {rs rs' : List Ref} (h : Accounts c rs x rs') {i : Nat}
    (hi : 0 < (c.buf i).count) :
    ((c.act x).buf i).dev = (c.buf i).dev ∧ ((c.act x).buf i).blocknr = (c.buf i).blocknr := by
  cases x with
  | reassign j dev block =>
    have hj : i ≠ j := by
      rintro rfl
      exact absurd h.1 (by omega)
    show ((c.reassign j dev block).buf i).dev = _ ∧ ((c.reassign j dev block).buf i).blocknr = _
    rw [reassign_buf, Function.update_of_ne hj]
    exact ⟨rfl, rfl⟩
  | _ =>
    exact ⟨(act_sameBlocks c _ (by simp)).dev i, (act_sameBlocks c _ (by simp)).blocknr i⟩

theorem Accounts.hashed {rs rs' : List Ref} (h : Accounts c rs x rs') (hc : c.Hashed) :
    (c.act x).Hashed := by
  cases x with
  | reassign j dev block => exact hc.reassign h.2.2.2.1
  | _ => exact (act_sameBlocks c _ (by simp)).hashed hc

/-- A reference after the step is an old one or that of the buffer found or taken over. -/
theorem Accounts.mem {rs rs' : List Ref} (h : Accounts c rs x rs') {r : Ref} (hr : r ∈ rs') :
    r ∈ rs ∨ (((c.act x).buf r.i).dev = r.dev ∧ ((c.act x).buf r.i).blocknr = r.block) := by
  cases x with
  | inc j =>
    obtain ⟨dev, block, hf, hp⟩ := h
    rcases List.mem_cons.mp (hp.mem_iff.mp hr) with rfl | hr
    · have hb := act_sameBlocks c (.inc j) (by simp)
      right
      rw [hb.dev, hb.blocknr]
      exact findBuffer_some hf
    · exact Or.inl hr
  | dec j =>
    obtain ⟨r', -, hp⟩ := h
    exact Or.inl (hp.mem_iff.mpr (List.mem_cons_of_mem _ hr))
  | reassign j dev block =>
    rcases List.mem_cons.mp (h.2.2.2.2.mem_iff.mp hr) with rfl | hr
    · right
      show ((c.reassign j dev block).buf j).dev = _ ∧ ((c.reassign j dev block).buf j).blocknr = _
      rw [reassign_buf, Function.update_self]
      exact ⟨rfl, rfl⟩
    · exact Or.inl hr
  | _ => exact Or.inl ((List.Perm.mem_iff h).mp hr)

/-! ## The invariant -/

variable {ι : Type} [DecidableEq ι] [Fintype ι] {σ σ' : Sys ι}

/-- `b_count` is the number of references in the stacks, and what a process holds is the buffer
    of the block it asked for. -/
structure Identified (σ : Sys ι) : Prop where
  hashed : σ.c.Hashed
  count : ∀ i, (σ.c.buf i).count = σ.refs i
  small : ∀ i, (σ.c.buf i).count < 256
  shaped : ∀ p, Shaped (σ.stack p)
  held : ∀ p, ∀ r ∈ stackRefs (σ.stack p),
    (σ.c.buf r.i).dev = r.dev ∧ (σ.c.buf r.i).blocknr = r.block

/-- `b_count++` does not meet a `b_count` of 255. -/
def Roomy (σ : Sys ι) : Event ι → Prop
  | .run a => ∀ i st, exec σ.c (σ.stack σ.cur) a = some (.inc i, st) → (σ.c.buf i).count ≠ 255
  | _ => True

theorem Identified.init (n : Nat) (h : (procSystem ι n).init σ) : Identified σ := by
  obtain ⟨⟨memory, disk, driver, hc⟩, hs⟩ := h
  have hrefs : ∀ p, stackRefs (σ.stack p) = [] := fun p => by rw [hs p]; rfl
  refine ⟨?_, fun i => ?_, fun i => ?_, fun p => ?_, fun p r hr => ?_⟩
  · rw [hc]
    exact ⟨by simp [bufferInit], fun _ => List.nodup_nil, fun i j hi => absurd rfl hi⟩
  · rw [hc]
    show 0 = ∑ p, refCount i (σ.stack p)
    simp [refCount, hrefs]
  · rw [hc]; exact (by decide : 0 < 256)
  · rw [hs p]; exact List.isChain_singleton _
  · rw [hrefs p] at hr
    cases hr

omit [DecidableEq ι] in
/-- An interrupt of the driver. -/
theorem Identified.interrupt {c' : Cache} (hi : Identified σ) (hb : SameBlocks σ.c c')
    (hn : ∀ i, (c'.buf i).count = (σ.c.buf i).count) : Identified { σ with c := c' } where
  hashed := hb.hashed hi.hashed
  count i := (hn i).trans (hi.count i)
  small i := (hn i).symm ▸ hi.small i
  shaped := hi.shaped
  held p r hr := by
    dsimp only
    rw [hb.dev, hb.blocknr]
    exact hi.held p r hr

theorem sector_keeps {c' : Cache} {m : Nat} (h : c.sector m = some c') :
    SameBlocks c c' ∧ ∀ i, (c'.buf i).count = (c.buf i).count := by
  unfold Cache.sector at h
  split at h
  · cases h
  · rename_i r _
    split_ifs at h
    cases h
    unfold Cache.moveSector
    dsimp only
    split_ifs
    · exact ⟨⟨rfl, fun _ => rfl, fun _ => rfl⟩, fun _ => rfl⟩
    · have hb : SameBlocks c (c.setBuf r.i fun b => { b with
          data := fun j => if 512 * r.done ≤ j ∧ j < 512 * (r.done + 1) then c.disk r.dev r.block j
            else b.data j }) := SameBlocks.setBuf c r.i fun _ => ⟨rfl, rfl⟩
      refine ⟨⟨hb.hash, hb.dev, hb.blocknr⟩, fun i => (setBuf_count c r.i i _).trans ?_⟩
      split_ifs with hi
      · rw [hi]
      · rfl

theorem endRequest_keeps {c' : Cache} {m : Nat} {uptodate : Bool}
    (h : c.endRequest m uptodate = some c') :
    SameBlocks c c' ∧ ∀ i, (c'.buf i).count = (c.buf i).count := by
  unfold Cache.endRequest at h
  split at h
  · cases h
  · rename_i r _
    split_ifs at h
    cases h
    have hb : SameBlocks c (c.setBuf r.i fun b => { b with uptodate := uptodate, lock := false }) :=
      SameBlocks.setBuf c r.i fun _ => ⟨rfl, rfl⟩
    have hn : ∀ i, ((c.setBuf r.i fun b => { b with uptodate := uptodate, lock := false }).buf i).count
        = (c.buf i).count := fun i => by
      rw [setBuf_count]
      split_ifs with hi
      · rw [hi]
      · rfl
    exact ⟨⟨hb.hash, hb.dev, hb.blocknr⟩, hn⟩

/-- What a step of the current process does to the number of references. -/
theorem refs_run (σ : Sys ι) (c' : Cache) (st : List Frame) (i : Nat) :
    Sys.refs { σ with c := c', stack := Function.update σ.stack σ.cur st } i +
      refCount i (σ.stack σ.cur) = σ.refs i + refCount i st :=
  sum_update σ.stack (refCount i) σ.cur st

theorem refCount_pos {i : Nat} {r : Ref} (hr : r ∈ stackRefs st) (hi : r.i = i) :
    0 < refCount i st := List.countP_pos_iff.mpr ⟨r, hr, by simpa using hi⟩

omit [DecidableEq ι] in
theorem refCount_le_refs (σ : Sys ι) (p : ι) (i : Nat) : refCount i (σ.stack p) ≤ σ.refs i :=
  Finset.single_le_sum (f := fun p => refCount i (σ.stack p)) (fun _ _ => Nat.zero_le _)
    (Finset.mem_univ p)

omit [DecidableEq ι] in
/-- A buffer some process has a reference to has a `b_count`. -/
theorem Identified.count_pos (hi : Identified σ) {p : ι} {r : Ref} (hr : r ∈ stackRefs (σ.stack p)) :
    0 < (σ.c.buf r.i).count := by
  rw [hi.count]
  exact lt_of_lt_of_le (refCount_pos hr rfl) (refCount_le_refs σ p r.i)

theorem Identified.run (hi : Identified σ) (hr : Roomy σ (.run a))
    (h : exec σ.c (σ.stack σ.cur) a = some (x, st)) :
    Identified { σ with c := σ.c.act x, stack := Function.update σ.stack σ.cur st } := by
  have hA := exec_accounts h
  have hn := fun i => hA.count i
    (by rw [hi.count]; exact refCount_le_refs σ σ.cur i) (hi.small i)
    (by rintro rfl; exact hr i st h)
  have hkeep : ∀ p, ∀ r ∈ stackRefs (σ.stack p), ((σ.c.act x).buf r.i).dev = r.dev ∧
      ((σ.c.act x).buf r.i).blocknr = r.block := fun p r hr => by
    rw [(hA.keeps (hi.count_pos hr)).1, (hA.keeps (hi.count_pos hr)).2]
    exact hi.held p r hr
  refine ⟨hA.hashed hi.hashed, fun i => ?_, fun i => ?_, fun p => ?_, fun p r hr => ?_⟩
  · have h1 := refs_run σ (σ.c.act x) st i
    have h2 := (hn i).1
    have h3 := hi.count i
    dsimp only at h1 ⊢
    rw [act_count]
    unfold refCount at h1
    omega
  · dsimp only
    rw [act_count]
    exact (hn i).2
  · dsimp only
    by_cases hp : p = σ.cur
    · subst hp
      rw [Function.update_self]
      exact exec_shaped (hi.shaped _) h
    · rw [Function.update_of_ne hp]
      exact hi.shaped p
  · dsimp only at hr ⊢
    by_cases hp : p = σ.cur
    · subst hp
      rw [Function.update_self] at hr
      rcases hA.mem hr with hr | hr
      · exact hkeep _ r hr
      · exact hr
    · rw [Function.update_of_ne hp] at hr
      exact hkeep p r hr

theorem Identified.step {e : Event ι} (hi : Identified σ) (hr : Roomy σ e)
    (h : Sys.Step σ e σ') : Identified σ' := by
  cases h with
  | run h => exact hi.run hr h
  | switch => exact ⟨hi.hashed, hi.count, hi.small, hi.shaped, hi.held⟩
  | sector h => exact hi.interrupt (sector_keeps h).1 (sector_keeps h).2
  | endRequest h => exact hi.interrupt (endRequest_keeps h).1 (endRequest_keeps h).2

theorem identified {n : Nat} (h : ((procSystem ι n).restrict Roomy).Reachable σ) : Identified σ :=
  h.invariant (fun _ => Identified.init n) fun _ _ _ _ hi hs => hi.step hs.1 hs.2

/-- A step leaves every buffer that some process has a reference to its block. -/
theorem Identified.keeps {e : Event ι} (hi : Identified σ) (h : Sys.Step σ e σ') {p : ι} {r : Ref}
    (hr : r ∈ stackRefs (σ.stack p)) : (σ'.c.buf r.i).dev = (σ.c.buf r.i).dev ∧
      (σ'.c.buf r.i).blocknr = (σ.c.buf r.i).blocknr := by
  cases h with
  | run h => exact (exec_accounts h).keeps (hi.count_pos hr)
  | switch => exact ⟨rfl, rfl⟩
  | sector h => exact ⟨(sector_keeps h).1.dev _, (sector_keeps h).1.blocknr _⟩
  | endRequest h => exact ⟨(endRequest_keeps h).1.dev _, (endRequest_keeps h).1.blocknr _⟩

/-- In every state reached: no two buffers of one block; what `getblk` returns is the buffer of the
    block asked for; the buffer it takes over has no `b_count`, is unlocked and clean; and no step
    changes the block of a buffer that some process has a reference to. -/
theorem buffer_identity {n : Nat} (h : ((procSystem ι n).restrict Roomy).Reachable σ) :
    (∀ i j, (σ.c.buf i).dev ≠ 0 → (σ.c.buf j).dev = (σ.c.buf i).dev →
      (σ.c.buf j).blocknr = (σ.c.buf i).blocknr → j = i) ∧
    (∀ p r dev block st, σ.stack p = .ret (some r) :: .getblk dev block :: st →
      (σ.c.buf r.i).dev = dev ∧ (σ.c.buf r.i).blocknr = block) ∧
    (∀ a i dev block st, exec σ.c (σ.stack σ.cur) a = some (.reassign i dev block, st) →
      (σ.c.buf i).count = 0 ∧ (σ.c.buf i).lock = false ∧ (σ.c.buf i).dirt = false) ∧
    (∀ p, ∀ r ∈ stackRefs (σ.stack p),
      (σ.c.buf r.i).dev = r.dev ∧ (σ.c.buf r.i).blocknr = r.block ∧
      ∀ e σ', Sys.Step σ e σ' → (σ'.c.buf r.i).dev = (σ.c.buf r.i).dev ∧
        (σ'.c.buf r.i).blocknr = (σ.c.buf r.i).blocknr) := by
  have hi := identified h
  refine ⟨hi.hashed.unique, fun p r dev block st hp => ?_, fun a i dev block st ha => ?_,
    fun p r hr => ?_⟩
  · have hs := hi.shaped p
    rw [hp] at hs
    obtain ⟨hd, hb⟩ : r.dev = dev ∧ r.block = block := (shaped_cons.mp hs).1 _ rfl
    have hr := hi.held p r (by rw [hp]; exact List.mem_cons_self)
    exact ⟨hr.1.trans hd, hr.2.trans hb⟩
  · have hA := exec_accounts ha
    exact ⟨hA.1, hA.2.1, hA.2.2.1⟩
  · have hheld := hi.held p r hr
    exact ⟨hheld.1, hheld.2, fun _ _ hs => hi.keeps hs hr⟩

/-! ## Runs on one buffer -/

omit [Fintype ι] in
/-- The process `p` goes on. -/
theorem step_go {s : ι → List Frame} {p : ι} (h : exec c st a = some (x, st')) :
    Sys.Step ⟨c, Function.update s p st, p⟩ (.run a) ⟨c.act x, Function.update s p st', p⟩ := by
  have hs : Sys.Step ⟨c, Function.update s p st, p⟩ (.run a)
      ⟨c.act x, Function.update (Function.update s p st) p st', p⟩ :=
    Sys.Step.run (by dsimp only; rwa [Function.update_self])
  rwa [Function.update_idem] at hs

def blankBuf : Buf := ⟨0, 0, false, false, 0, false, fun _ => 0⟩

/-- One buffer after `buffer_init`. -/
def oneBuffer : Cache := bufferInit 1 (fun _ => blankBuf) (fun _ _ _ => 0) (fun _ => false)

/-- That buffer as block 1 of the first partition, with `k` references. -/
def sharedBuffer (k : Nat) : Cache :=
  { oneBuffer with
    buf := Function.update oneBuffer.buf 0 { blankBuf with dev := 769, blocknr := 1, count := k % 256 }
    hash := Function.update (fun _ => []) (hashfn 769 1) [0] }

theorem oneBuffer_reassign : oneBuffer.act (.reassign 0 769 1) = sharedBuffer 1 := by
  simp [oneBuffer, sharedBuffer, bufferInit, Cache.act, Cache.reassign, Cache.insertIntoQueues,
    Cache.removeFromQueues, Cache.setBuf, blankBuf]

theorem sharedBuffer_inc (k : Nat) : (sharedBuffer k).act (.inc 0) = sharedBuffer (k + 1) := by
  simp [sharedBuffer, Cache.act, Cache.setBuf, blankBuf]

/-- Process 0 of 257 is back from its `getblk(769, 1)`. -/
def firstGot (st : List Frame) : Sys (Fin 257) where
  c := sharedBuffer 1
  stack := Function.update (fun _ => [.work []]) 0 st
  cur := 0

def gotten : Ref := ⟨0, 769, 1⟩

theorem reachable_firstGot : ((procSystem (Fin 257) 1).restrict Roomy).Reachable
    (firstGot [.ret (some gotten), .getblk 769 1, .work []]) := by
  have h0 : ((procSystem (Fin 257) 1).restrict Roomy).Reachable
      ⟨oneBuffer, Function.update (fun _ => [.work []]) 0 [.work []], 0⟩ :=
    .init ⟨⟨_, _, _, rfl⟩, fun p => by dsimp only; rw [Function.update_eq_self (0 : Fin 257)]⟩
  have small : ∀ (s : Fin 257 → List Frame) a, Roomy ⟨oneBuffer, s, 0⟩ (.run a) :=
    fun s a i st _ => by simp [oneBuffer, bufferInit, blankBuf]
  have h1 := h0.step ⟨small _ _, step_go (a := .getblk 769 1) rfl⟩
  have h2 := h1.step ⟨small _ _, step_go (a := .go) rfl⟩
  have h3 := h2.step ⟨small _ _, step_go (a := .go) rfl⟩
  have h4 := h3.step ⟨small _ _, step_go (a := .go) rfl⟩
  rw [firstGot, ← oneBuffer_reassign]
  exact h4

theorem buffer_identity_first_getblk :
    ((firstGot [.ret (some gotten), .getblk 769 1, .work []]).c.buf 0).dev = 769 ∧
    ((firstGot [.ret (some gotten), .getblk 769 1, .work []]).c.buf 0).blocknr = 1 :=
  (buffer_identity reachable_firstGot).2.1 0 gotten 769 1 [.work []] rfl

/-- The first `k` of 257 processes hold the buffer, and process `k` runs. -/
def crowd (k : Fin 257) : Sys (Fin 257) where
  c := sharedBuffer k
  stack := fun p => [.work (if p < k then [gotten] else [])]
  cur := k

theorem crowd_update (k : Fin 257) (hk : k.val < 256) :
    Function.update (crowd k).stack k [.work [gotten]] = (crowd (k + 1)).stack := by
  have hk1 : (k + 1).val = k.val + 1 := Fin.val_add_one_of_lt (by rw [Fin.lt_def]; exact hk)
  funext p
  by_cases hp : p = k
  · subst hp
    have : p < p + 1 := by rw [Fin.lt_def, hk1]; omega
    rw [Function.update_self]
    simp [crowd, this]
  · rw [Function.update_of_ne hp]
    have hp' : p.val ≠ k.val := fun h => hp (Fin.ext h)
    have : p < k + 1 ↔ p < k := by rw [Fin.lt_def, Fin.lt_def, hk1]; omega
    simp [crowd, this]

/-- Process `k`, back from its own `getblk` of the buffer the others hold. -/
theorem crowd_getblk {k : Fin 257} (h : (procSystem (Fin 257) 1).Reachable (crowd k)) :
    (procSystem (Fin 257) 1).Reachable
      ⟨sharedBuffer (k + 1), Function.update (crowd k).stack k [.work [gotten]], k⟩ := by
  have hs : Function.update (crowd k).stack k [.work []] = (crowd k).stack := by
    conv_rhs => rw [← Function.update_eq_self k (crowd k).stack]
    simp [crowd]
  have h0 : (procSystem (Fin 257) 1).Reachable
      ⟨sharedBuffer k, Function.update (crowd k).stack k [.work []], k⟩ := by rw [hs]; exact h
  have h1 := h0.step (step_go (a := .getblk 769 1) rfl)
  have h2 := h1.step (step_go (a := .go) rfl)
  have hinc : (((sharedBuffer k).act .skip).act (.inc 0)) = sharedBuffer (k + 1) :=
    sharedBuffer_inc k
  rw [hinc] at h2
  have h3 := h2.step (step_go (a := .go) rfl)
  have h4 := h3.step (step_go (a := .go) rfl)
  have h5 := h4.step (step_go (a := .go) rfl)
  exact h5

/-- Process `k + 1` is scheduled. -/
theorem crowd_switch {k : Fin 257} (hk : k.val < 256)
    (h : (procSystem (Fin 257) 1).Reachable
      ⟨sharedBuffer (k + 1), Function.update (crowd k).stack k [.work [gotten]], k⟩) :
    (procSystem (Fin 257) 1).Reachable (crowd (k + 1)) := by
  have hsw : Sys.Step ⟨sharedBuffer (k + 1), Function.update (crowd k).stack k [.work [gotten]], k⟩
      (.switch (k + 1))
      ⟨sharedBuffer (k + 1), Function.update (crowd k).stack k [.work [gotten]], k + 1⟩ :=
    Sys.Step.switch (f := .work [gotten]) (by dsimp only; rw [Function.update_self]) trivial
  have hs := h.step hsw
  have hk1 : (k + 1).val = k.val + 1 := Fin.val_add_one_of_lt (by rw [Fin.lt_def]; exact hk)
  have hc : sharedBuffer (k + 1).val = sharedBuffer (k.val + 1) := by rw [hk1]
  rw [crowd_update k hk, ← hc] at hs
  exact hs

theorem reachable_crowd (k : Nat) (hk : k < 256) :
    (procSystem (Fin 257) 1).Reachable (crowd ⟨k + 1, by omega⟩) := by
  induction k with
  | zero =>
    have hs : (crowd 0).stack = fun _ => [.work []] := by
      funext p
      simp [crowd]
    have h1 := reachable_firstGot.of_restrict.step (step_go (a := .go) rfl)
    have h2 := h1.step (step_go (a := .go) rfl)
    refine crowd_switch (k := 0) (by decide) ?_
    rw [hs]
    exact h2
  | succ k ih =>
    have next : (⟨k + 1, by omega⟩ : Fin 257) + 1 = ⟨k + 2, by omega⟩ :=
      Fin.ext (Fin.val_add_one_of_lt (by rw [Fin.lt_def]; exact hk))
    rw [← next]
    exact crowd_switch hk (crowd_getblk (ih (by omega)))

/-- After 256 processes have called `getblk(769, 1)`, `b_count` is 0 again, and another process's
    `getblk(769, 2)` takes the buffer over. -/
theorem full_count_wraps : ∃ σ e σ', (procSystem (Fin 257) 1).Reachable σ ∧
    gotten ∈ stackRefs (σ.stack 0) ∧ Sys.Step σ e σ' ∧
    (σ.c.buf 0).blocknr = 1 ∧ (σ'.c.buf 0).blocknr = 2 := by
  have h0 := reachable_crowd 255 (by decide)
  have hs : crowd ⟨256, by omega⟩ = ⟨sharedBuffer 0,
      Function.update (crowd 256).stack 256 [.work []], 256⟩ := by
    have : Function.update (crowd 256).stack 256 [.work []] = (crowd 256).stack := by
      conv_rhs => rw [← Function.update_eq_self 256 (crowd 256).stack]
      simp [crowd]
    rw [this]
    rfl
  rw [hs] at h0
  have h1 := h0.step (step_go (a := .getblk 769 2) rfl)
  have h2 := h1.step (step_go (a := .go) rfl)
  have h3 := h2.step (step_go (a := .go) rfl)
  refine ⟨_, _, _, h3, ?_, step_go (a := .go) rfl, rfl, rfl⟩
  dsimp only
  rw [Function.update_of_ne (by decide)]
  decide

end Linux011.Fs
