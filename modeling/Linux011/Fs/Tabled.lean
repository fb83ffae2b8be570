/-
  What the code below open, write and close leaves alone: `file_table`, the tasks and the pointers
  of the super blocks. The rules follow the program, one lemma for each function.
-/
import Linux011.Fs.FileCalls

namespace Linux011.Fs

open Linux011.Lib

structure Tabled (s s' : Kern) : Prop where
  file : s'.file = s.file
  task : s'.task = s.task
  current : s'.current = s.current
  isup : ∀ k, (s'.super k).isup = (s.super k).isup
  imount : ∀ k, (s'.super k).imount = (s.super k).imount

/-- A change outside these tables. -/
theorem Tabled.of_eq {s s' : Kern} (hf : s'.file = s.file) (ht : s'.task = s.task) (hc : s'.current = s.current)
    (hs : s'.super = s.super) : Tabled s s' :=
  ⟨hf, ht, hc, fun k => by rw [hs], fun k => by rw [hs]⟩

theorem Tabled.refl (s : Kern) : Tabled s s := .of_eq rfl rfl rfl rfl

theorem Tabled.trans {s s' s'' : Kern} (h : Tabled s s') (h' : Tabled s' s'') : Tabled s s'' :=
  ⟨h'.file.trans h.file, h'.task.trans h.task, h'.current.trans h.current, fun k => (h'.isup k).trans (h.isup k),
    fun k => (h'.imount k).trans (h.imount k)⟩

theorem Tabled.setDisk (s : Kern) (d : ℕ) (x : Disk) : Tabled s (s.setDisk d x) := .of_eq rfl rfl rfl rfl

theorem Tabled.setBlock (s : Kern) (d b : ℕ) (x : Block) : Tabled s (s.setBlock d b x) :=
  .of_eq rfl rfl rfl rfl

theorem Tabled.setSuper (s : Kern) (k : Fin 8) {x : Super} (hi : x.isup = (s.super k).isup)
    (hm : x.imount = (s.super k).imount) : Tabled s (s.setSuper k x) := by
  have hkeep : ∀ j, ((s.setSuper k x).super j).isup = (s.super j).isup ∧
      ((s.setSuper k x).super j).imount = (s.super j).imount := fun j => by
    by_cases hj : j = k
    · subst hj
      rw [Kern.setSuper_self]
      exact ⟨hi, hm⟩
    · rw [Kern.setSuper_ne _ hj]
      exact ⟨rfl, rfl⟩
  exact ⟨rfl, rfl, rfl, fun j => (hkeep j).1, fun j => (hkeep j).2⟩

theorem Tabled.cur {s s' : Kern} (h : Tabled s s') : s'.cur = s.cur := by
  unfold Kern.cur
  rw [h.task, h.current]

/-- The program leaves these tables as they are, also where it faults. -/
def Leaves {α : Type} (m : K α) : Prop :=
  ∀ s₀, Spec (Tabled s₀) (fun _ => True) (Tabled s₀) m fun _ => Tabled s₀

theorem Leaves.ok {α : Type} {m : K α} (h : Leaves m) {s s' : Kern} {a : α} (he : m s = .ok a s') :
    Tabled s s' := by
  have := h s s (Tabled.refl s)
  rw [he] at this
  exact this

/-! ## Rules -/

namespace Leaves

variable {α β : Type} {m : K α}

theorem pure (a : α) : Leaves (Pure.pure a : K α) := fun _ => Spec.pure fun _ hs => hs

theorem bind {f : α → K β} (hm : Leaves m) (hf : ∀ a, Leaves (f a)) : Leaves (m >>= f) := fun s₀ =>
  (hm s₀).bind fun a => hf a s₀

theorem ite {c : Prop} [Decidable c] {n : K α} (ht : Leaves m) (hf : Leaves n) : Leaves (if c then m else n) :=
  fun s₀ => Spec.ite (fun _ => ht s₀) fun _ => hf s₀

theorem get : Leaves (Prog.get : K Kern) := fun _ _ hs => hs

theorem halt (e : Halted) : Leaves (Prog.halt e : K α) := fun _ => Spec.halt trivial

theorem panic (msg : String) : Leaves (Fs.panic msg : K α) := halt _

theorem modify {f : Kern → Kern} (hf : ∀ s, Tabled s (f s)) : Leaves (Prog.modify f) := fun _ =>
  Spec.modify fun s hs => hs.trans (hf s)

theorem each {f : α → K Unit} (hf : ∀ a, Leaves (f a)) (l : List α) : Leaves (Prog.each f l) := fun s₀ =>
  Spec.each (fun a => hf a s₀) l

end Leaves

/-! ## Elementary changes -/

theorem modInode_leaves (i : Fin 32) (f : MInode → MInode) : Leaves (modInode i f) :=
  Leaves.modify fun _ => .of_eq rfl rfl rfl rfl

theorem modSuper_leaves (k : Fin 8) {f : Super → Super} (hf : ∀ x, (f x).isup = x.isup ∧ (f x).imount = x.imount) :
    Leaves (modSuper k f) :=
  Leaves.modify fun s => Tabled.setSuper s k (hf _).1 (hf _).2

theorem modCount_leaves (d b : ℕ) (f : UInt8 → UInt8) : Leaves (modCount d b f) :=
  Leaves.modify fun _ => .of_eq rfl rfl rfl rfl

theorem setBlock_leaves (d b : ℕ) (x : Block) : Leaves (setBlock d b x) :=
  Leaves.modify fun s => .setBlock s d b x

theorem setZmap_leaves (d j : ℕ) (v : Bool) : Leaves (setZmap d j v) :=
  Leaves.modify fun s => .setDisk s d _

theorem setImap_leaves (d j : ℕ) (v : Bool) : Leaves (setImap d j v) :=
  Leaves.modify fun s => .setDisk s d _

theorem setEntry_leaves (d : ℕ) (e : DirEntry) (v : ℕ) : Leaves (setEntry d e v) :=
  Leaves.modify fun s => .setBlock s d e.block _

theorem access_leaves : Leaves access := by
  intro s₀ s hs
  unfold access
  cases s.env.access with
  | none => exact hs
  | some n =>
    cases n with
    | zero => exact hs
    | succ n => exact hs.trans (.of_eq rfl rfl rfl rfl)

/-! ## Buffers, bitmaps, zones -/

theorem bread_leaves (d b : ℕ) : Leaves (bread d b) :=
  Leaves.ite (Leaves.pure _) ((modCount_leaves d b _).bind fun _ => Leaves.pure _)

theorem brelse_leaves (d b : ℕ) : Leaves (brelse d b) :=
  Leaves.get.bind fun _ => Leaves.ite (Leaves.panic _) (modCount_leaves d b _)

theorem brelseOpt_leaves (d : ℕ) (b : Option ℕ) : Leaves (brelseOpt d b) := by
  cases b with
  | none => exact Leaves.pure _
  | some b => exact brelse_leaves d b

theorem getSuper_leaves (d : ℕ) : Leaves (getSuper d) := Leaves.get.bind fun _ => Leaves.pure _

theorem freeBlock_leaves (d b : ℕ) : Leaves (freeBlock d b) := by
  refine (getSuper_leaves d).bind fun k => ?_
  cases k with
  | none => exact Leaves.panic _
  | some k =>
    refine Leaves.get.bind fun s => Leaves.ite (Leaves.panic _) (Leaves.ite (modCount_leaves d b _) ?_)
    exact Leaves.ite (setZmap_leaves d _ false) (Leaves.panic _)

theorem newBlock_leaves (d : ℕ) : Leaves (newBlock d) := by
  refine (getSuper_leaves d).bind fun k => ?_
  cases k with
  | none => exact Leaves.panic _
  | some k =>
    refine Leaves.get.bind fun s => ?_
    cases firstZero (s.disk d).zmap 0 (mapBits (s.super k).zmapBlocks) with
    | none => exact Leaves.pure _
    | some j =>
      refine (setZmap_leaves d j true).bind fun _ => Leaves.ite (Leaves.pure _) (Leaves.ite (Leaves.panic _) ?_)
      exact (setBlock_leaves d _ _).bind fun _ => Leaves.pure _

theorem zoneSlot_leaves (i : Fin 32) (k : ℕ) (create : Bool) : Leaves (zoneSlot i k create) := by
  refine Leaves.get.bind fun s => Leaves.ite ((newBlock_leaves _).bind fun z => ?_) (Leaves.pure _)
  exact Leaves.ite (Leaves.pure _) ((modInode_leaves i _).bind fun _ => Leaves.pure _)

theorem indSlot_leaves (d b k : ℕ) (create : Bool) : Leaves (indSlot d b k create) := by
  have hdone : ∀ z : ℕ, Leaves (brelse d b >>= fun _ => Pure.pure z) := fun _ =>
    (brelse_leaves d b).bind fun _ => Leaves.pure _
  refine (bread_leaves d b).bind fun _ => Leaves.ite (Leaves.get.bind fun s => Leaves.ite ?_ (hdone _)) (Leaves.pure _)
  refine (newBlock_leaves d).bind fun z => Leaves.ite (hdone _) (Leaves.get.bind fun s => ?_)
  exact (setBlock_leaves d b _).bind fun _ => hdone _

theorem bmapCreate_leaves (i : Fin 32) (block : ℕ) (create : Bool) : Leaves (bmapCreate i block create) := by
  refine Leaves.get.bind fun s => Leaves.ite (Leaves.panic _) (Leaves.ite (zoneSlot_leaves i block create) ?_)
  refine Leaves.ite ((zoneSlot_leaves i 7 create).bind fun ind => ?_) ((zoneSlot_leaves i 8 create).bind fun dind => ?_)
  · exact Leaves.ite (Leaves.pure _) (indSlot_leaves _ ind _ create)
  · refine Leaves.ite (Leaves.pure _) ((indSlot_leaves _ dind _ create).bind fun ind => ?_)
    exact Leaves.ite (Leaves.pure _) (indSlot_leaves _ ind _ create)

theorem freeEntries_leaves (d b : ℕ) {free : ℕ → K Unit} (hf : ∀ z, Leaves (free z)) :
    Leaves (freeEntries d b free) := by
  unfold freeEntries
  generalize List.range 512 = l
  refine Leaves.ite (Leaves.pure _) ((bread_leaves d b).bind fun _ => ?_)
  refine Leaves.ite (Leaves.bind (Leaves.each (fun k => ?_) l) fun _ => ?_) (freeBlock_leaves d b)
  · exact Leaves.get.bind fun s => Leaves.ite (Leaves.pure _) (hf _)
  · exact (brelse_leaves d b).bind fun _ => freeBlock_leaves d b

theorem truncate_leaves (i : Fin 32) : Leaves (truncate i) := by
  have hind : ∀ d b, Leaves (freeInd d b) := fun d b => freeEntries_leaves d b (freeBlock_leaves d)
  refine Leaves.get.bind fun s => Leaves.ite (Leaves.pure _) ?_
  refine Leaves.bind (Leaves.each (fun k => ?_) (List.range 7)) fun _ => ?_
  · refine Leaves.get.bind fun s' => Leaves.ite (Leaves.pure _) ?_
    exact (freeBlock_leaves _ _).bind fun _ => modInode_leaves i _
  · refine Leaves.get.bind fun s' => (hind _ _).bind fun _ => ?_
    exact (freeEntries_leaves _ _ (hind _)).bind fun _ => modInode_leaves i _

/-! ## Inodes -/

theorem writeInode_leaves (i : Fin 32) : Leaves (writeInode i) := by
  refine Leaves.get.bind fun s => Leaves.ite (Leaves.pure _) ((getSuper_leaves _).bind fun k => ?_)
  cases k with
  | none => exact Leaves.panic _
  | some k => exact (Leaves.modify fun s => .setDisk s _ _).bind fun _ => modInode_leaves i _

theorem readInode_leaves (i : Fin 32) : Leaves (readInode i) := by
  refine Leaves.get.bind fun s => (getSuper_leaves _).bind fun k => ?_
  cases k with
  | none => exact Leaves.panic _
  | some k => exact modInode_leaves i _

theorem freeInode_leaves (i : Fin 32) : Leaves (freeInode i) := by
  refine Leaves.get.bind fun s => Leaves.ite (modInode_leaves i _) (Leaves.ite (Leaves.panic _) ?_)
  refine Leaves.ite (Leaves.panic _) ((getSuper_leaves _).bind fun k => ?_)
  cases k with
  | none => exact Leaves.panic _
  | some k =>
    refine Leaves.ite (Leaves.panic _) (Leaves.ite (Leaves.panic _) ?_)
    exact (setImap_leaves _ _ false).bind fun _ => modInode_leaves i _

theorem iput_leaves (p : Option (Fin 32)) : Leaves (iput p) := by
  cases p with
  | none => exact Leaves.pure _
  | some i =>
    have hdec : Leaves (decCount i) := modInode_leaves i _
    refine Leaves.get.bind fun s => Leaves.ite (Leaves.panic _) (Leaves.ite ?_ ?_)
    · exact Leaves.ite (modInode_leaves i _) hdec
    · refine Leaves.ite hdec (Leaves.ite hdec (Leaves.ite ?_ (Leaves.ite ?_ hdec)))
      · exact (truncate_leaves i).bind fun _ => freeInode_leaves i
      · exact (writeInode_leaves i).bind fun _ => hdec

theorem getEmptyInode_leaves : Leaves getEmptyInode := by
  refine Leaves.get.bind fun s => ?_
  refine Leaves.bind (Leaves.modify fun _ => ?_) fun _ => ?_
  · exact .of_eq rfl rfl rfl rfl
  cases (scanEmpty s 32 s.lastInode none).1 with
  | none => exact Leaves.panic _
  | some i =>
    refine (writeInode_leaves i).bind fun _ => Leaves.get.bind fun s => Leaves.ite (Leaves.halt _) ?_
    exact (modInode_leaves i _).bind fun _ => Leaves.pure _

theorem igetLoop_leaves (empty : Fin 32) (n d nr : ℕ) : Leaves (igetLoop empty n d nr) := by
  induction n generalizing d nr with
  | zero => exact Leaves.halt _
  | succ n ih =>
    have hput : ∀ i j : Fin 32, Leaves (iput (some i) >>= fun _ => Pure.pure j) := fun i _ =>
      (iput_leaves (some i)).bind fun _ => Leaves.pure _
    refine Leaves.get.bind fun s => ?_
    cases incoreInode s d nr with
    | none => exact (modInode_leaves empty _).bind fun _ => (readInode_leaves empty).bind fun _ => Leaves.pure _
    | some i =>
      refine (modInode_leaves i _).bind fun _ => Leaves.ite ?_ (hput empty i)
      cases (List.finRange 8).find? fun k => (s.super k).imount = some i with
      | none => exact hput empty i
      | some k => exact (iput_leaves (some i)).bind fun _ => ih _ 1

theorem iget_leaves (d nr : ℕ) : Leaves (iget d nr) :=
  Leaves.ite (Leaves.panic _) (getEmptyInode_leaves.bind fun empty => igetLoop_leaves empty 9 d nr)

theorem newInode_leaves (d : ℕ) : Leaves (newInode d) := by
  refine getEmptyInode_leaves.bind fun i => (getSuper_leaves d).bind fun k => ?_
  cases k with
  | none => exact Leaves.panic _
  | some k =>
    have hnone : Leaves (iput (some i) >>= fun _ => Pure.pure (none : Option (Fin 32))) :=
      (iput_leaves (some i)).bind fun _ => Leaves.pure _
    refine Leaves.get.bind fun s => ?_
    cases firstZero (s.disk d).imap 0 (mapBits (s.super k).imapBlocks) with
    | none => exact hnone
    | some j =>
      refine Leaves.ite hnone ((setImap_leaves d j true).bind fun _ => ?_)
      exact (modInode_leaves i _).bind fun _ => Leaves.pure _

theorem checkDiskChange_leaves (d : ℕ) : Leaves (checkDiskChange d) := by
  have hput : Leaves (putSuper d) := by
    refine Leaves.get.bind fun s => Leaves.ite (Leaves.pure _) ((getSuper_leaves d).bind fun k => ?_)
    cases k with
    | none => exact Leaves.pure _
    | some k => exact Leaves.ite (Leaves.pure _) (modSuper_leaves k fun _ => ⟨rfl, rfl⟩)
  have hinv : Leaves (invalidateInodes d) := Leaves.modify fun _ => .of_eq rfl rfl rfl rfl
  refine Leaves.get.bind fun s => Leaves.ite (Leaves.pure _) (Leaves.bind (Leaves.each (fun k => ?_) _) fun _ => hinv)
  exact Leaves.get.bind fun s => Leaves.ite hput (Leaves.pure _)

/-! ## Directories and paths -/

theorem searchBuffer_leaves (dir : Fin 32) (d i : ℕ) (bh : Option ℕ) : Leaves (searchBuffer dir d i bh) := by
  refine Leaves.ite ((brelseOpt_leaves d bh).bind fun _ => (bmapCreate_leaves dir _ false).bind fun b => ?_) (Leaves.pure _)
  exact Leaves.ite (Leaves.pure _) ((bread_leaves d b).bind fun _ => Leaves.ite (Leaves.pure _) (Leaves.pure _))

theorem searchEntries_leaves (dir : Fin 32) (d entries : ℕ) (name : List UInt8) (n i : ℕ) (bh : Option ℕ) :
    Leaves (searchEntries dir d entries name n i bh) := by
  induction n generalizing i bh with
  | zero => exact Leaves.halt _
  | succ n ih =>
    refine Leaves.ite ((brelseOpt_leaves d bh).bind fun _ => Leaves.pure _) ((searchBuffer_leaves dir d i bh).bind fun r => ?_)
    cases r with
    | none => exact ih _ none
    | some b => exact Leaves.get.bind fun s => Leaves.ite (Leaves.pure _) (ih _ (some b))

theorem isDotDot_leaves (name : List UInt8) : Leaves (isDotDot name) := by
  refine Leaves.ite (Leaves.pure _) (access_leaves.bind fun _ => Leaves.ite (Leaves.pure _) ?_)
  exact access_leaves.bind fun _ => Leaves.pure _

theorem crossMount_leaves (dir : Fin 32) (name : List UInt8) : Leaves (crossMount dir name) := by
  refine (isDotDot_leaves name).bind fun r => Leaves.ite (Leaves.get.bind fun s => ?_) (Leaves.pure _)
  refine Leaves.ite (Leaves.pure _) (Leaves.ite ((getSuper_leaves _).bind fun k => ?_) (Leaves.pure _))
  cases k with
  | none => exact Leaves.halt _
  | some k =>
    dsimp only
    cases (s.super k).imount with
    | none => exact Leaves.pure _
    | some m => exact (iput_leaves (some dir)).bind fun _ => (modInode_leaves m _).bind fun _ => Leaves.pure _

theorem findEntry_leaves (dir : Fin 32) (name : List UInt8) : Leaves (findEntry dir name) := by
  refine Leaves.get.bind fun s => Leaves.ite (Leaves.pure _) ((crossMount_leaves dir _).bind fun r => ?_)
  refine Leaves.get.bind fun s => Leaves.ite (Leaves.pure _) ((bread_leaves _ _).bind fun _ => ?_)
  exact Leaves.ite ((searchEntries_leaves _ _ _ _ _ _ _).bind fun _ => Leaves.pure _) (Leaves.pure _)

theorem putNameByte_leaves (d : ℕ) (e : DirEntry) (name : List UInt8) (k : ℕ) :
    Leaves (putNameByte d e name k) := by
  refine Leaves.ite (access_leaves.bind fun _ => Leaves.modify fun s => ?_) (Leaves.modify fun s => ?_)
  · exact .setBlock s d e.block _
  · exact .setBlock s d e.block _

theorem addBuffer_leaves (dir : Fin 32) (d i : ℕ) (bh : Option ℕ) : Leaves (addBuffer dir d i bh) := by
  refine Leaves.ite ((brelseOpt_leaves d bh).bind fun _ => (bmapCreate_leaves dir _ true).bind fun b => ?_) (Leaves.pure _)
  exact Leaves.ite (Leaves.pure _) ((bread_leaves d b).bind fun _ => Leaves.ite (Leaves.pure _) (Leaves.pure _))

theorem growDir_leaves (dir : Fin 32) (d b i : ℕ) : Leaves (growDir dir d b i) := by
  refine Leaves.get.bind fun s => Leaves.ite ?_ (Leaves.pure _)
  exact (setEntry_leaves d ⟨b, i % 64⟩ 0).bind fun _ => modInode_leaves dir _

theorem scanFree_leaves (dir : Fin 32) (d : ℕ) (name : List UInt8) (n i : ℕ) (bh : Option ℕ) :
    Leaves (scanFree dir d name n i bh) := by
  induction n generalizing i bh with
  | zero => exact Leaves.halt _
  | succ n ih =>
    refine (addBuffer_leaves dir d i bh).bind fun r => ?_
    obtain _ | _ | b := r
    · exact Leaves.pure _
    · exact ih _ _
    · refine (growDir_leaves dir d b i).bind fun _ => Leaves.get.bind fun s => Leaves.ite ?_ (ih _ _)
      exact (Leaves.each (putNameByte_leaves d _ name) _).bind fun _ => Leaves.pure _

theorem addEntry_leaves (dir : Fin 32) (name : List UInt8) : Leaves (addEntry dir name) := by
  refine Leaves.get.bind fun s => Leaves.ite (Leaves.pure _) ((bread_leaves _ _).bind fun _ => ?_)
  exact Leaves.ite (scanFree_leaves dir _ _ _ 0 _) (Leaves.pure _)

theorem entryInode_leaves (d : ℕ) (e : DirEntry) : Leaves (entryInode d e) :=
  Leaves.get.bind fun _ => Leaves.pure _

theorem nextName_leaves (path : List UInt8) : Leaves (nextName path) := by
  induction path with
  | nil => exact access_leaves.bind fun _ => Leaves.pure _
  | cons c cs ih =>
    refine access_leaves.bind fun _ => Leaves.ite (Leaves.pure _) (Leaves.ite (Leaves.pure _) ?_)
    exact ih.bind fun _ => Leaves.pure _

theorem walk_leaves (n : ℕ) (i : Fin 32) (path : List UInt8) : Leaves (walk n i path) := by
  induction n generalizing i path with
  | zero => exact Leaves.halt _
  | succ n ih =>
    have hnone : ∀ i : Fin 32, Leaves (iput (some i) >>= fun _ => Pure.pure (none : Option (Fin 32))) := fun i =>
      (iput_leaves (some i)).bind fun _ => Leaves.pure _
    refine Leaves.get.bind fun s => Leaves.ite (hnone i) ((nextName_leaves path).bind fun r => ?_)
    obtain ⟨name, _ | rest⟩ := r
    · exact Leaves.pure _
    refine (findEntry_leaves i name).bind fun r => ?_
    obtain ⟨dir, _ | e⟩ := r
    · exact hnone dir
    · refine Leaves.get.bind fun s => (entryInode_leaves _ e).bind fun nr => (brelse_leaves _ e.block).bind fun _ => ?_
      exact (iput_leaves (some dir)).bind fun _ => (iget_leaves _ nr).bind fun _ => ih _ rest

theorem dirNamei_leaves (path : List UInt8) : Leaves (dirNamei path) := by
  have hdir : Leaves (getDir path) := by
    refine Leaves.get.bind fun s => ?_
    cases inUse s s.cur.root with
    | none => exact Leaves.panic _
    | some root =>
      cases inUse s s.cur.pwd with
      | none => exact Leaves.panic _
      | some pwd =>
        refine access_leaves.bind fun _ => Leaves.ite ?_ (Leaves.ite ?_ (Leaves.pure _))
        · exact (modInode_leaves root _).bind fun _ => walk_leaves _ root _
        · exact (modInode_leaves pwd _).bind fun _ => walk_leaves _ pwd path
  refine hdir.bind fun p => ?_
  cases p with
  | none => exact Leaves.pure _
  | some dir => exact (Leaves.each (fun _ => access_leaves) _).bind fun _ => Leaves.pure _

theorem namei_leaves (path : List UInt8) : Leaves (namei path) := by
  refine (dirNamei_leaves path).bind fun p => ?_
  obtain _ | ⟨dir, name⟩ := p
  · exact Leaves.pure _
  refine Leaves.ite (Leaves.pure _) ((findEntry_leaves dir name).bind fun r => ?_)
  obtain ⟨dir, _ | e⟩ := r
  · exact (iput_leaves _).bind fun _ => Leaves.pure _
  · refine Leaves.get.bind fun s => (entryInode_leaves _ _).bind fun nr => (brelse_leaves _ _).bind fun _ => ?_
    exact (iput_leaves _).bind fun _ => (iget_leaves _ _).bind fun i => (modInode_leaves i _).bind fun _ => Leaves.pure _

theorem dropNew_leaves (i : Fin 32) (nlinks : ℕ → ℕ) : Leaves (dropNew i nlinks) :=
  (modInode_leaves i _).bind fun _ => iput_leaves _

theorem openNamei_leaves (path : List UInt8) (flag mode : ℕ) : Leaves (openNamei path flag mode) := by
  have hput : ∀ (i : Fin 32) (r : ℤ ⊕ Fin 32), Leaves (iput (some i) >>= fun _ => Pure.pure r) := fun i _ =>
    (iput_leaves (some i)).bind fun _ => Leaves.pure _
  refine (dirNamei_leaves path).bind fun p => ?_
  obtain _ | ⟨dir, name⟩ := p
  · exact Leaves.pure _
  refine Leaves.ite (Leaves.ite (Leaves.pure _) (hput dir _)) ((findEntry_leaves dir name).bind fun r => ?_)
  obtain ⟨dir, _ | e⟩ := r
  · refine Leaves.get.bind fun s => Leaves.ite (hput dir _) (Leaves.ite (hput dir _) ((newInode_leaves _).bind fun p => ?_))
    cases p with
    | none => exact hput dir _
    | some i =>
      refine (modInode_leaves i _).bind fun _ => (addEntry_leaves dir name).bind fun e => ?_
      cases e with
      | none => exact (dropNew_leaves i _).bind fun _ => hput dir _
      | some e =>
        refine Leaves.get.bind fun s => (setEntry_leaves _ e _).bind fun _ => ?_
        exact (brelse_leaves _ e.block).bind fun _ => hput dir _
  · refine Leaves.get.bind fun s => (entryInode_leaves _ e).bind fun nr => (brelse_leaves _ e.block).bind fun _ => ?_
    refine (iput_leaves (some dir)).bind fun _ => Leaves.ite (Leaves.pure _) ((iget_leaves _ nr).bind fun i => ?_)
    refine Leaves.get.bind fun s => Leaves.ite (hput i _) ?_
    exact Leaves.ite ((truncate_leaves i).bind fun _ => Leaves.pure _) (Leaves.pure _)

/-! ## Writing -/

theorem getBytes_leaves (d b c : ℕ) (buf : List UInt8) : Leaves (getBytes d b c buf) := by
  induction buf generalizing c with
  | nil => exact Leaves.pure _
  | cons x xs ih =>
    refine access_leaves.bind fun _ => Leaves.bind (Leaves.modify fun s => ?_) fun _ => ih (c + 1)
    exact .setBlock s d b _

theorem writeLoop_leaves (i : Fin 32) (n pos : ℕ) (buf : List UInt8) : Leaves (writeLoop i n pos buf) := by
  induction n generalizing pos buf with
  | zero => exact Leaves.pure _
  | succ n ih =>
    refine Leaves.ite (Leaves.pure _) (Leaves.get.bind fun s => (bmapCreate_leaves i _ true).bind fun block => ?_)
    refine Leaves.ite (Leaves.pure _) ((bread_leaves _ block).bind fun _ => Leaves.ite ?_ (Leaves.pure _))
    refine (modInode_leaves i _).bind fun _ => (getBytes_leaves _ block _ _).bind fun _ => ?_
    exact (brelse_leaves _ block).bind fun _ => ih _ _

end Linux011.Fs
