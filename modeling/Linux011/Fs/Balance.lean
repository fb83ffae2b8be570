/-
  The buffers that a path lookup takes. When it returns it has given back each of them, if nothing
  it frees is in use: the inodes without links, in core and on disk, have calm trees.
-/
import Linux011.Fs.Deaths
import Linux011.Fs.TreeSpecs

namespace Linux011.Fs

open Linux011.Lib

variable {α : Type} {s : Kern} {b b' : ℕ → ℕ → UInt8} {B : ℕ → ℕ → Block}

/-- The counts are `b'`, and no inode without links has a block that is in use with the counts `b`. -/
structure Holding (b' b : ℕ → ℕ → UInt8) (B : ℕ → ℕ → Block) (s : Kern) : Prop where
  bcount : s.bcount = b'
  blocks : s.blocks = B
  core : ∀ i, CalmInode b B (s.inode i)
  disk : ∀ d n, d ≠ 0 → ((s.disk d).inode n).nlinks = 0 → CalmTree b B d ((s.disk d).inode n).zone

/-- The same, and the inodes in core are `I`. -/
def HoldingIn (b' b : ℕ → ℕ → UInt8) (B : ℕ → ℕ → Block) (I : Fin 32 → MInode) (s : Kern) : Prop := Holding b' b B s ∧ s.inode = I

variable {I : Fin 32 → MInode}

theorem Leads.ok {P : Kern → Prop} {m : K α} {Q : α → Kern → Prop} (h : Leads P m Q) {a : α} {s' : Kern} (hs : P s)
    (he : m s = .ok a s') : Q a s' := by
  have := h s hs
  rwa [he] at this

/-- What reads only. -/
theorem HoldingIn.holds {m : K α} {b₁ : ℕ → ℕ → UInt8} {b₂ : α → ℕ → ℕ → UInt8}
    (hm : ∀ I, Leads (HoldingIn b₁ b B I) m fun a => HoldingIn (b₂ a) b B I) :
    Leads (Holding b₁ b B) m fun a => Holding (b₂ a) b B := fun s hs =>
  Out.ends_mono (hm s.inode s ⟨hs, rfl⟩) fun _ _ h => h.1

/-! ## Taking and giving back -/

theorem HoldingIn.setCount (h : HoldingIn b' b B I s) (b₁ : ℕ → ℕ → UInt8) : HoldingIn b₁ b B I { s with bcount := b₁ } :=
  ⟨⟨rfl, h.1.blocks, h.1.core, h.1.disk⟩, h.2⟩

theorem bread_reads (d z : ℕ) : Leads (HoldingIn b' b B I) (bread d z) fun ok => HoldingIn (if ok then hold b' d z else b') b B I := by
  refine Spec.ite (fun _ => Spec.pure fun _ hs => hs) fun _ => ?_
  refine Spec.bind (M := fun _ => HoldingIn (hold b' d z) b B I) (Spec.modify fun s hs => ?_) fun _ => Spec.pure fun _ hs => hs
  rw [hs.1.bcount]
  exact hs.setCount _

theorem brelse_reads (d z : ℕ) : Leads (HoldingIn (hold b' d z) b B I) (brelse d z) fun _ => HoldingIn b' b B I := by
  refine Spec.get fun s _ => Spec.ite (fun _ => Spec.halt trivial) fun _ => Spec.modify fun s hs => ?_
  have hback : Function.update (hold b' d z) d (Function.update (hold b' d z d) z (hold b' d z d z - 1)) = b' := by
    rw [hold_self, UInt8.add_sub_cancel]
    unfold hold
    rw [Function.update_self, Function.update_idem, Function.update_idem, Function.update_eq_self, Function.update_eq_self]
  rw [hs.1.bcount, hback]
  exact hs.setCount _

/-- The counts while the buffer of `bh` is held. -/
def holdOpt (b : ℕ → ℕ → UInt8) (d : ℕ) : Option ℕ → ℕ → ℕ → UInt8
  | none => b
  | some z => hold b d z

theorem brelseOpt_reads (d : ℕ) (bh : Option ℕ) :
    Leads (HoldingIn (holdOpt b' d bh) b B I) (brelseOpt d bh) fun _ => HoldingIn b' b B I := by
  cases bh with
  | none => exact Spec.pure fun _ hs => hs
  | some z => exact brelse_reads d z

theorem access_reads : Leads (HoldingIn b' b B I) access fun _ => HoldingIn b' b B I := by
  intro s hs
  unfold access
  cases s.env.access with
  | none => exact hs
  | some n =>
    cases n with
    | zero => trivial
    | succ n => exact ⟨⟨hs.1.bcount, hs.1.blocks, hs.1.core, hs.1.disk⟩, hs.2⟩

/-! ## Searching a directory -/

theorem bmap_reads (i : Fin 32) (n : ℕ) : Leads (HoldingIn b' b B I) (bmap i n) fun _ => HoldingIn b' b B I := fun s hs =>
  Out.ends_mono (bmap_exact s i n s rfl) fun _ _ hz => hz.1 ▸ hs

theorem searchBuffer_reads (dir : Fin 32) (d i : ℕ) (bh : Option ℕ) :
    Leads (HoldingIn (holdOpt b' d bh) b B I) (searchBuffer dir d i bh) fun r => HoldingIn (holdOpt b' d r) b B I := by
  refine Spec.ite (fun _ => ?_) fun _ => Spec.pure fun _ hs => hs
  refine Spec.bind (brelseOpt_reads d bh) fun _ => Spec.bind (bmap_reads dir (i / 64)) fun block => ?_
  refine Spec.ite (fun _ => Spec.pure fun _ hs => hs) fun _ => Spec.bind (bread_reads d block) fun ok => ?_
  cases ok with
  | false => exact Spec.pure fun _ hs => hs
  | true => exact Spec.pure fun _ hs => hs

theorem searchEntries_reads (dir : Fin 32) (d entries : ℕ) (name : List UInt8) (n i : ℕ) (bh : Option ℕ) :
    Leads (HoldingIn (holdOpt b' d bh) b B I) (searchEntries dir d entries name n i bh) fun e =>
      HoldingIn (holdOpt b' d (e.map (·.block))) b B I := by
  induction n generalizing i bh with
  | zero => exact Spec.halt trivial
  | succ n ih =>
    refine Spec.ite (fun _ => Spec.bind (brelseOpt_reads d bh) fun _ => Spec.pure fun _ hs => hs) fun _ => ?_
    refine Spec.bind (searchBuffer_reads dir d i bh) fun r => ?_
    cases r with
    | none => exact ih (i + 64) none
    | some z => exact Spec.get fun s _ => Spec.ite (fun _ => Spec.pure fun _ hs => hs) fun _ => ih (i + 1) (some z)

theorem isDotDot_holds (name : List UInt8) : Leads (Holding b' b B) (isDotDot name) fun _ => Holding b' b B := by
  have hacc : Leads (Holding b' b B) access fun _ => Holding b' b B := HoldingIn.holds fun _ => access_reads
  refine Spec.ite (fun _ => Spec.pure fun _ hs => hs) fun _ => Spec.bind hacc fun _ => ?_
  exact Spec.ite (fun _ => Spec.pure fun _ hs => hs) fun _ => Spec.bind hacc fun _ => Spec.pure fun _ hs => hs

theorem nextName_holds (path : List UInt8) : Leads (Holding b' b B) (nextName path) fun _ => Holding b' b B := by
  have hacc : Leads (Holding b' b B) access fun _ => Holding b' b B := HoldingIn.holds fun _ => access_reads
  induction path with
  | nil => exact Spec.bind hacc fun _ => Spec.pure fun _ hs => hs
  | cons c cs ih =>
    refine Spec.bind hacc fun _ => Spec.ite (fun _ => Spec.pure fun _ hs => hs) fun _ => ?_
    exact Spec.ite (fun _ => Spec.pure fun _ hs => hs) fun _ => Spec.bind ih fun _ => Spec.pure fun _ hs => hs

/-! ## Inodes -/

theorem modInode_holds (i : Fin 32) {f : MInode → MInode} (hf : ∀ x, CalmInode b B x → CalmInode b B (f x)) :
    Leads (Holding b' b B) (modInode i f) fun _ => Holding b' b B := by
  refine Spec.modify fun s hs => ⟨hs.bcount, hs.blocks, fun j => ?_, hs.disk⟩
  by_cases hj : j = i
  · subst hj
    rw [Kern.setInode_self]
    exact hf _ (hs.core j)
  · rw [Kern.setInode_ne _ hj]
    exact hs.core j

/-- Fields other than the device, the links and the zones. -/
theorem modInode_beside (i : Fin 32) {f : MInode → MInode}
    (hf : ∀ x, (f x).dev = x.dev ∧ (f x).nlinks = x.nlinks ∧ (f x).zone = x.zone) :
    Leads (Holding b' b B) (modInode i f) fun _ => Holding b' b B :=
  modInode_holds i fun x hx => hx.of_eq (hf x).1 (hf x).2.1 fun _ => .inl (by rw [(hf x).2.2])

/-- The inodes on disk. -/
def Kern.dinodes (s : Kern) : ℕ → ℕ → DInode := fun d => (s.disk d).inode

theorem Kern.dinodes_setDisk {d : ℕ} {x : Disk} {D : ℕ → ℕ → DInode} (hx : x.inode = (s.disk d).inode) (hD : s.dinodes = D) :
    (s.setDisk d x).dinodes = D := by
  rw [← hD]
  funext d'
  by_cases hd : d' = d
  · subst hd
    simp [Kern.dinodes, Kern.setDisk, hx]
  · simp [Kern.dinodes, Kern.setDisk, hd]

/-- Truncating and freeing an inode writes no inode block. -/
def KeepsDinodes (m : K α) : Prop := ∀ D, Leads (fun s => s.dinodes = D) m fun _ s => s.dinodes = D

theorem freeBlock_dinodes (d z : ℕ) : KeepsDinodes (freeBlock d z) := by
  intro D
  refine Spec.bind (getSuper_leads d) fun k => ?_
  cases k with
  | none => exact Spec.halt trivial
  | some k =>
    refine Spec.get fun s _ => Spec.ite (fun _ => Spec.halt trivial) fun _ => Spec.ite (fun _ => Spec.modify fun _ hs => hs) fun _ => ?_
    exact Spec.ite (fun _ => Spec.modify fun s hs => Kern.dinodes_setDisk rfl hs) fun _ => Spec.halt trivial

theorem freeEntries_dinodes (d z : ℕ) {free : ℕ → K Unit} (hf : ∀ w, KeepsDinodes (free w)) :
    KeepsDinodes (freeEntries d z free) := by
  intro D
  unfold freeEntries
  have hbread : Leads (fun s => s.dinodes = D) (bread d z) fun _ s => s.dinodes = D :=
    Spec.ite (fun _ => Spec.pure fun _ hs => hs) fun _ => Spec.bind (M := fun _ s => s.dinodes = D) (Spec.modify fun _ hs => hs)
      fun _ => Spec.pure fun _ hs => hs
  have hbrelse : Leads (fun s => s.dinodes = D) (brelse d z) fun _ s => s.dinodes = D :=
    Spec.get fun s _ => Spec.ite (fun _ => Spec.halt trivial) fun _ => Spec.modify fun _ hs => hs
  refine Spec.ite (fun _ => Spec.pure fun _ hs => hs) fun _ => Spec.bind hbread fun ok => Spec.ite (fun _ => ?_) fun _ =>
    freeBlock_dinodes d z D
  generalize List.range 512 = l
  refine Spec.bind (Spec.each (fun k => Spec.get fun s _ => ?_) l) fun _ => Spec.bind hbrelse fun _ => freeBlock_dinodes d z D
  exact Spec.ite (fun _ => Spec.pure fun _ hs => hs) fun _ => hf _ D

theorem truncate_dinodes (i : Fin 32) : KeepsDinodes (truncate i) := by
  intro D
  refine Spec.get fun s _ => Spec.ite (fun _ => Spec.pure fun _ hs => hs) fun _ => ?_
  refine Spec.bind (Spec.each (fun k => Spec.get fun s _ => Spec.ite (fun _ => Spec.pure fun _ hs => hs) fun _ => ?_) _) fun _ => ?_
  · exact Spec.bind (freeBlock_dinodes _ _ D) fun _ => Spec.modify fun _ hs => hs
  · refine Spec.get fun s _ => Spec.bind (freeEntries_dinodes _ _ (freeBlock_dinodes _) D) fun _ => ?_
    refine Spec.bind (freeEntries_dinodes _ _ (fun w => freeEntries_dinodes _ w (freeBlock_dinodes _)) D) fun _ => ?_
    exact Spec.modify fun _ hs => hs

theorem freeInode_dinodes (i : Fin 32) : KeepsDinodes (freeInode i) := by
  intro D
  refine Spec.get fun s _ => Spec.ite (fun _ => Spec.modify fun _ hs => hs) fun _ => Spec.ite (fun _ => Spec.halt trivial) fun _ => ?_
  refine Spec.ite (fun _ => Spec.halt trivial) fun _ => Spec.bind (getSuper_leads _) fun k => ?_
  cases k with
  | none => exact Spec.halt trivial
  | some k =>
    refine Spec.ite (fun _ => Spec.halt trivial) fun _ => Spec.ite (fun _ => Spec.halt trivial) fun _ => ?_
    refine Spec.bind (M := fun _ s => s.dinodes = D) (Spec.modify fun s hs => ?_) fun _ => ?_
    · exact Kern.dinodes_setDisk (by rfl) hs
    · exact Spec.modify fun _ hs => hs

/-- What keeps the inodes in core calm and does not write inode blocks. -/
theorem Holding.of_quiet {m : K α} {P : Kern → Prop} (hm : Leads (fun s => Quiet b B s ∧ P s) m fun _ => Quiet b B)
    (hd : KeepsDinodes m) : Leads (fun s => Holding b b B s ∧ P s) m fun _ => Holding b b B := by
  intro s hs
  have hboth := Spec.and hm (hd s.dinodes) s ⟨⟨⟨hs.1.bcount, hs.1.blocks, hs.1.core⟩, hs.2⟩, rfl⟩
  refine Out.ends_mono hboth fun _ s' hs' => ⟨hs'.1.bcount, hs'.1.blocks, hs'.1.calm, fun d n => ?_⟩
  have he : (s'.disk d).inode = (s.disk d).inode := congrFun hs'.2 d
  rw [he]
  exact hs.1.disk d n

theorem writeInode_holds (i : Fin 32) : Leads (Holding b b B) (writeInode i) fun _ => Holding b b B := by
  refine Spec.get_bind fun s hs => Spec.ite (fun _ => Spec.pure fun s' hs' => by rw [hs']; exact hs) fun hd => ?_
  refine Spec.bind (getSuper_leads _) fun k => ?_
  cases k with
  | none => exact Spec.halt trivial
  | some k =>
    refine Spec.bind (M := fun _ => Holding b b B) (Spec.modify fun s' hs' => ?_) fun _ => modInode_beside i fun _ => ⟨rfl, rfl, rfl⟩
    rw [hs']
    refine ⟨hs.bcount, Kern.blocks_setDisk rfl hs.blocks, hs.core, fun d n hdn => ?_⟩
    unfold Kern.setDisk
    dsimp only
    by_cases hdev : d = (s.inode i).dev
    · subst hdev
      rw [Function.update_self]
      dsimp only
      by_cases hn : n = (s.inode i).num
      · subst hn
        rw [Function.update_self]
        exact hs.core i hdn
      · rw [Function.update_of_ne hn]
        exact hs.disk _ n hdn
    · rw [Function.update_of_ne hdev]
      exact hs.disk d n hdn

theorem iput_holds (p : Option (Fin 32)) : Leads (Holding b b B) (iput p) fun _ => Holding b b B := by
  cases p with
  | none => exact Spec.pure fun _ hs => hs
  | some i =>
    refine Spec.get_bind fun s hs => ?_
    have hat : ∀ {m : K Unit}, Leads (Holding b b B) m (fun _ => Holding b b B) → Leads (fun s' => s' = s) m fun _ => Holding b b B :=
      fun hm => hm.pre fun s' hs' => by rw [hs']; exact hs
    have hdec : Leads (Holding b b B) (decCount i) fun _ => Holding b b B := modInode_beside i fun _ => ⟨rfl, rfl, rfl⟩
    refine Spec.ite (fun _ => Spec.halt trivial) fun _ => Spec.ite (fun _ => ?_) fun _ => ?_
    · exact Spec.ite (fun _ => hat (modInode_beside i fun _ => ⟨rfl, rfl, rfl⟩)) fun _ => hat hdec
    refine Spec.ite (fun _ => hat hdec) fun hdev => Spec.ite (fun _ => hat hdec) fun _ => ?_
    refine Spec.ite (fun hn => ?_) fun _ => Spec.ite (fun _ => ?_) fun _ => hat hdec
    · refine Spec.bind (M := fun _ => Holding b b B) ((Holding.of_quiet (truncate_quiet i) (truncate_dinodes i)).pre fun s' hs' => ?_) fun _ => ?_
      · rw [hs']
        exact ⟨hs, hdev, hn⟩
      · exact (Holding.of_quiet ((freeInode_quiet i).pre fun _ hs' => hs'.1) (freeInode_dinodes i)).pre fun _ hs' => ⟨hs', trivial⟩
    · exact hat (Spec.bind (writeInode_holds i) fun _ => hdec)

/-! ## Looking up a path -/

theorem getEmptyInode_holds : Leads (Holding b b B) getEmptyInode fun _ => Holding b b B := by
  refine Spec.get fun s₀ _ => Spec.bind (M := fun _ => Holding b b B)
    (Spec.modify fun _ hs => ⟨hs.bcount, hs.blocks, hs.core, hs.disk⟩) fun _ => ?_
  dsimp only
  cases (scanEmpty s₀ 32 s₀.lastInode none).1 with
  | none => exact Spec.halt trivial
  | some i =>
    refine Spec.bind (writeInode_holds i) fun _ => Spec.get fun s _ => Spec.ite (fun _ => Spec.halt trivial) fun _ => ?_
    exact Spec.bind (modInode_holds i fun x _ h0 => absurd rfl h0) fun _ => Spec.pure fun _ hs => hs

/-- `read_inode` makes the inode one of those on disk. -/
theorem readInto_holds (empty : Fin 32) (d nr : ℕ) : Leads (Holding b b B)
    (do modInode empty fun x => { x with dev := d, num := nr }; readInode empty; return empty) fun _ => Holding b b B := by
  intro s hs
  refine Out.ends_mono (readInto empty d nr s rfl) fun i s' hs' => ?_
  obtain ⟨-, hd, rfl⟩ := hs'
  refine ⟨hs.bcount, hs.blocks, fun j => ?_, hs.disk⟩
  by_cases hj : j = empty
  · subst hj
    rw [Kern.setInode_self]
    exact fun hdev hn => hs.disk d nr hdev hn
  · rw [Kern.setInode_ne _ hj]
    exact hs.core j

theorem incCount_holds (i : Fin 32) : Leads (Holding b' b B) (incCount i) fun _ => Holding b' b B :=
  modInode_beside i fun _ => ⟨rfl, rfl, rfl⟩

theorem igetLoop_holds (empty : Fin 32) (n d nr : ℕ) : Leads (Holding b b B) (igetLoop empty n d nr) fun _ => Holding b b B := by
  induction n generalizing d nr with
  | zero => exact Spec.halt trivial
  | succ n ih =>
    refine Spec.get fun s _ => ?_
    cases incoreInode s d nr with
    | none => exact readInto_holds empty d nr
    | some i =>
      have hend : Leads (Holding b b B) (do iput (some empty); return i : K (Fin 32)) fun _ => Holding b b B :=
        Spec.bind (iput_holds (some empty)) fun _ => Spec.pure fun _ hs => hs
      refine Spec.bind (incCount_holds i) fun _ => Spec.ite (fun _ => ?_) fun _ => hend
      cases (List.finRange 8).find? fun k => (s.super k).imount = some i with
      | none => exact hend
      | some k => exact Spec.bind (iput_holds (some i)) fun _ => ih _ 1

theorem iget_holds (d nr : ℕ) : Leads (Holding b b B) (iget d nr) fun _ => Holding b b B :=
  Spec.ite (fun _ => Spec.halt trivial) fun _ =>
    Spec.bind (getEmptyInode_holds) fun empty => igetLoop_holds empty 9 d nr

theorem crossMount_holds (dir : Fin 32) (name : List UInt8) :
    Leads (Holding b b B) (crossMount dir name) fun _ => Holding b b B := by
  refine Spec.bind (isDotDot_holds name) fun r => Spec.ite (fun _ => Spec.get fun s _ => ?_) fun _ => Spec.pure fun _ hs => hs
  refine Spec.ite (fun _ => Spec.pure fun _ hs => hs) fun _ => Spec.ite (fun _ => ?_) fun _ => Spec.pure fun _ hs => hs
  refine Spec.bind (getSuper_leads _) fun k => ?_
  cases k with
  | none => exact Spec.halt trivial
  | some k =>
    dsimp only
    cases (s.super k).imount with
    | none => exact Spec.pure fun _ hs => hs
    | some m =>
      exact Spec.bind (iput_holds (some dir)) fun _ => Spec.bind (incCount_holds m) fun _ => Spec.pure fun _ hs => hs

/-- The buffer of the entry is held. -/
def Found (b : ℕ → ℕ → UInt8) (B : ℕ → ℕ → Block) (r : Fin 32 × Option DirEntry) (s : Kern) : Prop :=
  Holding (holdOpt b (s.inode r.1).dev (r.2.map (·.block))) b B s

theorem findEntry_holds (dir : Fin 32) (name : List UInt8) : Leads (Holding b b B) (findEntry dir name) (Found b B) := by
  refine Spec.get fun s _ => Spec.ite (fun _ => Spec.pure fun _ hs => hs) fun _ => ?_
  refine Spec.bind (crossMount_holds dir _) fun r => ?_
  obtain ⟨dir', name'⟩ := r
  refine Spec.get_bind fun s₁ hs₁ => Spec.ite (fun _ => Spec.pure fun s' hs' => by rw [hs']; exact hs₁) fun _ => ?_
  have hin : ∀ s', s' = s₁ → HoldingIn b b B s₁.inode s' := fun s' hs' => by rw [hs']; exact ⟨hs₁, rfl⟩
  refine Spec.bind ((bread_reads _ _).pre hin) fun ok => Spec.ite (fun hok => ?_) fun hok => Spec.pure fun s' hs' => ?_
  · rw [if_pos hok]
    refine Spec.bind (searchEntries_reads dir' (s₁.inode dir').dev _ name' _ 0 (some _)) fun e => Spec.pure fun s' hs' => ?_
    unfold Found
    rw [hs'.2]
    exact hs'.1
  · rw [if_neg hok] at hs'
    exact hs'.1

/-- Whatever follows the buffer of the entry is given back. -/
theorem follow_holds {β : Type} {Q : β → Kern → Prop} (dir : Fin 32) (e : DirEntry) {f : Fin 32 → K β}
    (hf : ∀ i, Leads (Holding b b B) (f i) Q) : Leads (Found b B (dir, some e)) (do
      let s ← Prog.get
      let nr ← entryInode (s.inode dir).dev e
      brelse (s.inode dir).dev e.block
      iput (some dir)
      let i ← iget (s.inode dir).dev nr
      f i) Q := by
  refine Spec.get_bind fun s hs => ?_
  have hread : Leads (fun s' => s' = s) (entryInode (s.inode dir).dev e) fun _ => Holding (hold b (s.inode dir).dev e.block) b B :=
    Spec.get fun s' _ => Spec.pure fun s'' hs'' => by rw [hs'']; exact hs
  refine Spec.bind hread fun nr => Spec.bind (HoldingIn.holds fun _ => brelse_reads _ _) fun _ => ?_
  exact Spec.bind (iput_holds _) fun _ => Spec.bind (iget_holds _ nr) hf

theorem walk_holds (n : ℕ) (i : Fin 32) (path : List UInt8) : Leads (Holding b b B) (walk n i path) fun _ => Holding b b B := by
  induction n generalizing i path with
  | zero => exact Spec.halt trivial
  | succ n ih =>
    have hnone : ∀ j : Fin 32, Leads (Holding b b B) (do iput (some j); return none : K (Option (Fin 32))) fun _ => Holding b b B :=
      fun j => Spec.bind (iput_holds (some j)) fun _ => Spec.pure fun _ hs => hs
    refine Spec.get fun s _ => Spec.ite (fun _ => hnone i) fun _ => Spec.bind (nextName_holds path) fun r => ?_
    obtain ⟨name, _ | rest⟩ := r
    · exact Spec.pure fun _ hs => hs
    · refine Spec.bind (findEntry_holds i name) fun r => ?_
      obtain ⟨j, _ | e⟩ := r
      · exact hnone j
      · exact follow_holds j e fun k => ih k rest

theorem getDir_holds (path : List UInt8) : Leads (Holding b b B) (getDir path) fun _ => Holding b b B := by
  refine Spec.get fun s _ => ?_
  cases inUse s s.cur.root with
  | none => exact Spec.halt trivial
  | some root =>
    cases inUse s s.cur.pwd with
    | none => exact Spec.halt trivial
    | some pwd =>
      refine Spec.bind (HoldingIn.holds fun _ => access_reads) fun _ => Spec.ite (fun _ => ?_) fun _ => Spec.ite (fun _ => ?_) fun _ => ?_
      · exact Spec.bind (incCount_holds root) fun _ => walk_holds _ root _
      · exact Spec.bind (incCount_holds pwd) fun _ => walk_holds _ pwd _
      · exact Spec.pure fun _ hs => hs

theorem dirNamei_holds (path : List UInt8) : Leads (Holding b b B) (dirNamei path) fun _ => Holding b b B := by
  refine Spec.bind (getDir_holds path) fun p => ?_
  cases p with
  | none => exact Spec.pure fun _ hs => hs
  | some dir =>
    refine Spec.bind (M := fun _ => Holding b b B) (Spec.each (fun _ => HoldingIn.holds fun _ => access_reads) _) fun _ => ?_
    exact Spec.pure fun _ hs => hs

/-- Every buffer a lookup takes is given back. -/
theorem namei_holds (path : List UInt8) : Leads (Holding b b B) (namei path) fun _ => Holding b b B := by
  refine Spec.bind (dirNamei_holds path) fun p => ?_
  obtain _ | ⟨dir, name⟩ := p
  · exact Spec.pure fun _ hs => hs
  refine Spec.ite (fun _ => Spec.pure fun _ hs => hs) fun _ => Spec.bind (findEntry_holds dir name) fun r => ?_
  obtain ⟨dir', _ | e⟩ := r
  · exact Spec.bind (iput_holds _) fun _ => Spec.pure fun _ hs => hs
  · refine follow_holds dir' e fun i => Spec.bind (modInode_beside i fun _ => ⟨rfl, rfl, rfl⟩) fun _ => Spec.pure fun _ hs => hs

end Linux011.Fs
