/-
  The functions below a path lookup in terms of a view. None of them changes what is seen of the file
  systems: `Sees v s` says that an entry of `inode_table` holds its inode as the view has it and that
  the inode blocks hold the others.
-/
import Linux011.Fs.RefCalls
import Linux011.Fs.Trees

namespace Linux011.Fs

open Linux011.Lib

variable {α β : Type} {v : View} {h : Fin 32 → ℤ} {s s₀ s' : Kern} {i : Fin 32} {x y : Node}

/-- What holds when the program returns. -/
abbrev Returns (P : Kern → Prop) (m : K α) (Q : α → Kern → Prop) : Prop := Spec (fun _ => True) (fun _ => True) P m Q

theorem Returns.ok {P : Kern → Prop} {m : K α} {Q : α → Kern → Prop} (hm : Returns P m Q) (hs : P s) {a : α}
    (he : m s = .ok a s') : Q a s' := by
  have := hm s hs
  rw [he] at this
  exact this

/-! ## Functions that only read -/

/-- Only buffer counts and user accesses are different. -/
structure Alike (s₀ s : Kern) : Prop where
  rest : s = { s₀ with bcount := s.bcount, env := s.env }
  floppyChange : s.env.floppyChange = s₀.env.floppyChange

namespace Alike

theorem refl (s : Kern) : Alike s s := ⟨rfl, rfl⟩

theorem trans (h₁ : Alike s₀ s) (h₂ : Alike s s') : Alike s₀ s' := by
  refine ⟨?_, h₂.floppyChange.trans h₁.floppyChange⟩
  rw [h₂.rest, h₁.rest]

theorem inode (ha : Alike s₀ s) : s.inode = s₀.inode := by rw [ha.rest]

theorem disk (ha : Alike s₀ s) : s.disk = s₀.disk := by rw [ha.rest]

theorem super (ha : Alike s₀ s) : s.super = s₀.super := by rw [ha.rest]

theorem cur (ha : Alike s₀ s) : s.cur = s₀.cur := by
  rw [ha.rest]
  rfl

theorem core (ha : Alike s₀ s) : Core s₀ s := by
  rw [ha.rest]
  exact ⟨fun _ => rfl, fun _ => ⟨rfl, rfl⟩, fun _ => rfl, rfl, rfl, rfl⟩

theorem modCount (ha : Alike s₀ s) (d b : ℕ) (f : UInt8 → UInt8) :
    Alike s₀ { s with bcount := Function.update s.bcount d (Function.update (s.bcount d) b (f (s.bcount d b))) } := by
  refine ⟨?_, ha.floppyChange⟩
  rw [ha.rest]

end Alike

theorem modCount_alike (d b : ℕ) (f : UInt8 → UInt8) : Returns (Alike s₀) (modCount d b f) fun _ => Alike s₀ :=
  Spec.modify fun _ hs => hs.modCount d b f

theorem bread_alike (d b : ℕ) : Returns (Alike s₀) (bread d b) fun ok s => Alike s₀ s ∧ (d ≠ 0 → ok = true) := by
  refine Spec.ite (fun h0 => Spec.pure fun _ hs => ⟨hs, fun hd => absurd h0 hd⟩) fun _ => ?_
  exact (modCount_alike d b _).bind fun _ => Spec.pure fun _ hs => ⟨hs, fun _ => rfl⟩

theorem brelse_alike (d b : ℕ) : Returns (Alike s₀) (brelse d b) fun _ => Alike s₀ :=
  Spec.get fun _ _ => Spec.ite (fun _ => Spec.halt trivial) fun _ => modCount_alike d b _

theorem brelseOpt_alike (d : ℕ) (b : Option ℕ) : Returns (Alike s₀) (brelseOpt d b) fun _ => Alike s₀ := by
  cases b with
  | none => exact Spec.pure fun _ hs => hs
  | some b => exact brelse_alike d b

theorem access_alike : Returns (Alike s₀) access fun _ => Alike s₀ := by
  intro s hs
  unfold access
  cases he : s.env.access with
  | none => exact hs
  | some n =>
    cases n with
    | zero => trivial
    | succ n =>
      refine ⟨?_, hs.floppyChange⟩
      dsimp only
      rw [hs.rest]

theorem bmap_alike (i : Fin 32) (n : ℕ) : Returns (Alike s₀) (bmap i n) fun z s => Alike s₀ s ∧ z = bmapZone s₀ i n := by
  intro s hs
  refine Out.ends_mono (bmap_exact s i n s rfl) fun z s' hz => ?_
  rw [hz.1, hz.2]
  refine ⟨hs, ?_⟩
  unfold bmapZone indZone
  rw [hs.inode, hs.disk]

/-! ## Searching a directory -/

/-- Entry `k` of the directory has the name that is looked for. -/
def Matches (s : Kern) (dir : Fin 32) (name : List UInt8) (k : ℕ) : Prop := bmapZone s dir (k / 64) ≠ 0 ∧
  matchEntry ((s.disk (s.inode dir).dev).block (bmapZone s dir (k / 64))) (k % 64) name = true

/-- Entry `k` is the first of them. -/
structure Finds (s : Kern) (dir : Fin 32) (name : List UInt8) (k : ℕ) (e : DirEntry) : Prop where
  place : e = ⟨bmapZone s dir (k / 64), k % 64⟩
  found : Matches s dir name k
  first : ∀ j < k, ¬ Matches s dir name j

/-- The buffer at entry `i` is that of its block, unless the block has not been looked for yet. -/
def BufferAt (s : Kern) (dir : Fin 32) (i : ℕ) (bh : Option ℕ) : Prop :=
  i % 64 = 0 ∧ i ≠ 0 ∨ bh = some (bmapZone s dir (i / 64)) ∧ bmapZone s dir (i / 64) ≠ 0

theorem searchBuffer_alike (dir : Fin 32) {d : ℕ} (hd : d ≠ 0) (i : ℕ) {bh : Option ℕ} (hbh : BufferAt s₀ dir i bh) :
    Returns (Alike s₀) (searchBuffer dir d i bh) fun r s => Alike s₀ s ∧
      (r = none ∧ i % 64 = 0 ∧ bmapZone s₀ dir (i / 64) = 0 ∨
        r = some (bmapZone s₀ dir (i / 64)) ∧ bmapZone s₀ dir (i / 64) ≠ 0) := by
  refine Spec.ite (fun hi => ?_) fun hne => Spec.pure fun s hs => ⟨hs, Or.inr (hbh.resolve_left hne)⟩
  refine (brelseOpt_alike d bh).bind fun _ => (bmap_alike dir (i / 64)).bind fun block => Spec.of_fact_right fun hz => ?_
  subst hz
  refine Spec.ite (fun h0 => Spec.pure fun s hs => ⟨hs, Or.inl ⟨rfl, hi.1, h0⟩⟩) fun h0 => ?_
  refine (bread_alike d _).bind fun ok => Spec.of_fact_right fun hok => ?_
  rw [hok hd]
  exact Spec.pure fun s hs => ⟨hs, Or.inr ⟨rfl, h0⟩⟩

theorem searchEntries_alike (dir : Fin 32) (hd : (s₀.inode dir).dev ≠ 0) (entries : ℕ) (name : List UInt8) (n i : ℕ) {bh : Option ℕ}
    (hbh : BufferAt s₀ dir i bh) (hfirst : ∀ j < i, ¬ Matches s₀ dir name j) :
    Returns (Alike s₀) (searchEntries dir (s₀.inode dir).dev entries name n i bh) fun r s =>
      Alike s₀ s ∧ ∀ e ∈ r, ∃ k < entries, Finds s₀ dir name k e := by
  induction n generalizing i bh with
  | zero => exact Spec.halt trivial
  | succ n ih =>
    refine Spec.ite (fun _ => (brelseOpt_alike _ bh).bind fun _ => Spec.pure fun s hs => ⟨hs, nofun⟩) fun hi => ?_
    refine (searchBuffer_alike dir hd i hbh).bind fun r => Spec.of_fact_right fun hr => ?_
    obtain ⟨rfl, h64, hz⟩ | ⟨rfl, hz⟩ := hr
    · refine ih (i + 64) (Or.inl ⟨by omega, by omega⟩) fun j hj hm => ?_
      by_cases hji : j < i
      · exact hfirst j hji hm
      · rw [Matches, show j / 64 = i / 64 by omega] at hm
        exact hm.1 hz
    · refine Spec.get_bind fun s hs => ?_
      rw [hs.disk]
      refine Spec.ite (fun hm => Spec.pure fun s' hs' => ⟨hs' ▸ hs, fun e he => ?_⟩) fun hm =>
        (ih (i + 1) ?_ fun j hj => ?_).pre fun s' hs' => hs' ▸ hs
      · cases he
        exact ⟨i, by omega, rfl, ⟨hz, hm⟩, hfirst⟩
      · by_cases h64 : (i + 1) % 64 = 0
        · exact Or.inl ⟨h64, by omega⟩
        · rw [BufferAt, show (i + 1) / 64 = i / 64 by omega]
          exact Or.inr ⟨rfl, hz⟩
      · obtain hj' | rfl := Nat.lt_succ_iff_lt_or_eq.mp hj
        · exact hfirst j hj'
        · exact fun h => hm h.2

/-! ## Reading a path -/

theorem isDotDot_alike (name : List UInt8) :
    Returns (Alike s₀) (isDotDot name) fun b s => Alike s₀ s ∧ (b = true ↔ name = [dot, dot]) := by
  refine Spec.ite (fun hl => Spec.pure fun s hs => ⟨hs, ?_⟩) fun hl => access_alike.bind fun _ => ?_
  · refine iff_of_false (by simp) fun he => hl ?_
    rw [he]
    rfl
  · obtain ⟨a, b, rfl⟩ := List.length_eq_two.mp (not_not.mp hl)
    refine Spec.ite (fun ha => Spec.pure fun s hs => ⟨hs, ?_⟩) fun ha => access_alike.bind fun _ => Spec.pure fun s hs => ⟨hs, ?_⟩
    · refine iff_of_false (by simp) fun he => ha ?_
      rw [he]
      rfl
    · have ha : a = dot := not_not.mp ha
      simp [ha]

/-- A component has neither a NUL nor a slash in it. -/
theorem nextName_alike (path : List UInt8) :
    Returns (Alike s₀) (nextName path) fun r s => Alike s₀ s ∧ 0 ∉ r.1 := by
  induction path with
  | nil => exact access_alike.bind fun _ => Spec.pure fun s hs => ⟨hs, by simp⟩
  | cons c cs ih =>
    refine access_alike.bind fun _ => Spec.ite (fun _ => Spec.pure fun s hs => ⟨hs, by simp⟩) fun h0 => ?_
    refine Spec.ite (fun _ => Spec.pure fun s hs => ⟨hs, by simp⟩) fun _ => ih.bind fun r => Spec.pure fun s hs => ⟨hs.1, ?_⟩
    simpa [Ne.symm h0] using hs.2

theorem accesses_alike {γ : Type} (l : List γ) : Returns (Alike s₀) (Prog.each (fun _ => access) l) fun _ => Alike s₀ :=
  Spec.each (fun _ => access_alike) l

theorem entryInode_alike (d : ℕ) (e : DirEntry) : Returns (Alike s₀) (entryInode d e) fun c s =>
    Alike s₀ s ∧ c = ((s₀.disk d).block e.block).word (8 * e.place) :=
  Spec.get_bind fun s hs => Spec.pure fun s' hs' => ⟨hs' ▸ hs, by rw [hs.disk]⟩

/-! ## What is seen of the file systems -/

def Kern.id (s : Kern) (i : Fin 32) : Node := ((s.inode i).dev, (s.inode i).num)

structure Sees (v : View) (s : Kern) : Prop where
  unique : ∀ i j, (s.inode i).dev ≠ 0 → s.id i = s.id j → i = j
  pipe : ∀ i, (s.inode i).dev ≠ 0 → (s.inode i).pipe = false
  formatted : ∀ i, (s.inode i).dev ≠ 0 → v.Formatted (s.inode i).dev
  entry : ∀ i, (s.inode i).dev ≠ 0 → (s.inode i).toDInode = v.inode (s.id i)
  disk : ∀ x : Node, x.1 ≠ 0 → (∀ i, s.id i = x → (s.inode i).dirt = false) → (s.disk x.1).inode x.2 = v.inode x
  block : ∀ d, (s.disk d).block = v.block d
  dsuper : ∀ d, (s.disk d).super = v.dsuper d
  super : s.super = v.super
  refs : inodeRefs s ∅ = v.refs
  node : ∀ i, v.refs i ≠ 0 → s.id i = v.node i
  task : s.task = v.task
  current : s.current = v.current
  floppyChange : s.env.floppyChange = false
  flag : ∀ k m, (v.super k).imount = some m → (v.node m).2 ≠ 1 → (s.inode m).mount = true

namespace Sees

/-- The root and the directory of a task are pointed to. -/
theorem home (hs : Sees v s) {t : Fin 64} (hi : (v.task t).root = some i ∨ (v.task t).pwd = some i) : v.refs i ≠ 0 := by
  have h1 : taskRefs i (s.task t) ≤ inodeRefs s ∅ i := taskRefs_le_inodeRefs s ∅ t i
  rw [hs.refs, hs.task] at h1
  have h2 : 0 < taskRefs i (v.task t) := by
    unfold taskRefs ptr
    obtain hi | hi := hi <;> simp [hi]
  omega

/-- A mount point is pointed to. -/
theorem point (hs : Sees v s) {k : Fin 8} {m : Fin 32} (hk : (v.super k).imount = some m) : v.refs m ≠ 0 := by
  have h1 : superRefs m (s.super k) ≤ inodeRefs s ∅ m := superRefs_le_inodeRefs s ∅ k m
  rw [hs.refs] at h1
  have h2 : 0 < superRefs m (s.super k) := by simp [superRefs, ptr, hs.super, hk]
  omega

theorem alike (hs : Sees v s) (ha : Alike s s') : Sees v s' := by
  have hid : s'.id = s.id := by
    unfold Kern.id
    rw [ha.inode]
  have hrefs : inodeRefs s' ∅ = inodeRefs s ∅ := funext fun i => ha.core.inodeRefs ∅ i
  refine ⟨?_, ?_, ?_, ?_, ?_, ?_, ?_, ha.super.trans hs.super, hrefs.trans hs.refs, ?_, ?_, ?_,
    ha.floppyChange.trans hs.floppyChange, ?_⟩
  · rw [ha.inode, hid]
    exact hs.unique
  · rw [ha.inode]
    exact hs.pipe
  · rw [ha.inode]
    exact hs.formatted
  · rw [ha.inode, hid]
    exact hs.entry
  · rw [ha.inode, hid, ha.disk]
    exact hs.disk
  · rw [ha.disk]
    exact hs.block
  · rw [ha.disk]
    exact hs.dsuper
  · rw [hid]
    exact hs.node
  · exact (funext ha.core.task).trans hs.task
  · exact ha.core.current.trans hs.current
  · rw [ha.inode]
    exact hs.flag

theorem id_setInode {z : MInode} (hd : z.dev = (s.inode i).dev) (hn : z.num = (s.inode i).num) : (s.setInode i z).id = s.id := by
  funext j
  unfold Kern.id
  by_cases hj : j = i
  · subst hj
    rw [Kern.setInode_self, hd, hn]
  · rw [Kern.setInode_ne _ hj]

/-- Nothing is mounted on the inode of an entry that no super block points to. -/
theorem uncovered (hs : Sees v s) (h0 : (s.inode i).dev ≠ 0) (hi : ∀ k, (v.super k).imount = some i → (v.node i).2 = 1) :
    v.Uncovered (s.id i) := by
  intro k m hk h1 heq
  have hid : s.id i = s.id m := heq.symm.trans (hs.node m (hs.point hk)).symm
  have him : i = m := hs.unique i m h0 hid
  rw [him] at hi
  exact h1 (hi k hk)

/-- A clean entry has been saved. -/
theorem saved (hs : Sees v s) (h0 : (s.inode i).dev ≠ 0) (hc : (s.inode i).dirt = false) :
    (s.disk (s.id i).1).inode (s.id i).2 = v.inode (s.id i) := by
  refine hs.disk (s.id i) h0 fun a ha => ?_
  rw [← hs.unique i a h0 ha.symm]
  exact hc

/-- The entry stays what it is; it may be clean if it has been saved. -/
theorem setInode (hs : Sees v s) {z : MInode} (hd : z.dev = (s.inode i).dev) (hn : z.num = (s.inode i).num)
    (hi : z.toDInode = (s.inode i).toDInode) (hm : (s.inode i).mount = true → z.mount = true) (hp : z.dev ≠ 0 → z.pipe = false)
    (hc : z.dirt = false → (s.inode i).dev ≠ 0 → (s.disk (s.id i).1).inode (s.id i).2 = v.inode (s.id i)) :
    Sees v (s.setInode i z) := by
  have hid := id_setInode hd hn
  have hdev : ∀ a, ((s.setInode i z).inode a).dev = (s.inode a).dev := fun a => congrArg Prod.fst (congrFun hid a)
  refine ⟨fun a b ha he => ?_, fun a ha => ?_, fun a ha => ?_, fun a ha => ?_, fun x h0 hx => ?_, hs.block, hs.dsuper, hs.super,
    hs.refs, ?_, hs.task, hs.current, hs.floppyChange, fun k m hk h1 => ?_⟩
  · rw [hid] at he
    rw [hdev] at ha
    exact hs.unique a b ha he
  · by_cases hj : a = i
    · subst hj
      rw [Kern.setInode_self] at ha ⊢
      exact hp ha
    · rw [Kern.setInode_ne _ hj] at ha ⊢
      exact hs.pipe a ha
  · rw [hdev] at ha ⊢
    exact hs.formatted a ha
  · rw [hid]
    rw [hdev] at ha
    by_cases hj : a = i
    · subst hj
      rw [Kern.setInode_self, hi]
      exact hs.entry a ha
    · rw [Kern.setInode_ne _ hj]
      exact hs.entry a ha
  · by_cases hxi : s.id i = x
    · subst hxi
      have hz := hx i (by rw [hid])
      rw [Kern.setInode_self] at hz
      exact hc hz h0
    · refine hs.disk x h0 fun a ha => ?_
      have hxa := hx a (by rw [hid]; exact ha)
      rwa [Kern.setInode_ne _ (fun he : a = i => hxi (he ▸ ha))] at hxa
  · rw [hid]
    exact hs.node
  · by_cases hj : m = i
    · subst hj
      rw [Kern.setInode_self]
      exact hm (hs.flag k m hk h1)
    · rw [Kern.setInode_ne _ hj]
      exact hs.flag k m hk h1

/-- An inode block gets what the inode is. -/
theorem setDisk (hs : Sees v s) (x : Node) : Sees v (s.setDisk x.1 { s.disk x.1 with
    inode := Function.update (s.disk x.1).inode x.2 (v.inode x) }) := by
  refine ⟨hs.unique, hs.pipe, hs.formatted, hs.entry, fun y h0 hy => ?_, fun d => ?_, fun d => ?_, hs.super, hs.refs, hs.node,
    hs.task, hs.current, hs.floppyChange, hs.flag⟩
  · have h1 := hs.disk y h0 hy
    obtain ⟨d, n⟩ := x
    obtain ⟨d', n'⟩ := y
    unfold Kern.setDisk
    by_cases hd : d' = d
    · subst hd
      by_cases hn : n' = n
      · subst hn
        simp
      · simpa [Function.update_of_ne hn] using h1
    · simpa [Function.update_of_ne hd] using h1
  · rw [← hs.block d]
    unfold Kern.setDisk
    by_cases hd : d = x.1
    · subst hd
      simp
    · simp [Function.update_of_ne hd]
  · rw [← hs.dsuper d]
    unfold Kern.setDisk
    by_cases hd : d = x.1
    · subst hd
      simp
    · simp [Function.update_of_ne hd]

end Sees

/-- Counts and the dirt of an entry say nothing about its inode. -/
theorem modInode_sees (i : Fin 32) {f : MInode → MInode} (hf : ∀ z : MInode, (f z).dev = z.dev ∧ (f z).num = z.num ∧
    (f z).toDInode = z.toDInode ∧ (z.mount = true → (f z).mount = true) ∧ (f z).pipe = z.pipe ∧ (z.dirt = true → (f z).dirt = true)) :
    Returns (Sees v) (modInode i f) fun _ => Sees v := by
  refine Spec.modify fun s hs => ?_
  obtain ⟨hd, hn, hi, hm, hp, hdirt⟩ := hf (s.inode i)
  refine hs.setInode hd hn hi hm (fun h0 => ?_) fun hc h0 => hs.saved h0 ?_
  · rw [hp]
    exact hs.pipe i (hd ▸ h0)
  · by_contra hne
    rw [hdirt (by simpa using hne)] at hc
    cases hc

/-- The program leaves the entries of `inode_table` to their inodes. -/
def KeepsIds (m : K α) : Prop := ∀ f, Returns (fun s => s.id = f) m fun _ s => s.id = f

theorem modInode_ids (i : Fin 32) {f : MInode → MInode} (hf : ∀ z : MInode, (f z).dev = z.dev ∧ (f z).num = z.num) :
    KeepsIds (modInode i f) := fun _ =>
  Spec.modify fun _ hs => (Sees.id_setInode (hf _).1 (hf _).2).trans hs

theorem decCount_ids (i : Fin 32) : KeepsIds (decCount i) := by
  refine modInode_ids i ?_
  exact fun _ => ⟨rfl, rfl⟩

theorem incCount_sees (i : Fin 32) : Returns (Sees v) (incCount i) fun _ => Sees v :=
  modInode_sees i fun _ => ⟨rfl, rfl, rfl, id, rfl, id⟩

theorem decCount_sees (i : Fin 32) : Returns (Sees v) (decCount i) fun _ => Sees v :=
  modInode_sees i fun _ => ⟨rfl, rfl, rfl, id, rfl, id⟩

theorem getSuper_same (d : ℕ) : Returns (fun s => s = s₀) (getSuper d) fun k s => s = s₀ ∧
    ∀ j ∈ k, d ≠ 0 ∧ (s₀.super j).dev = d := by
  refine Spec.get_bind fun s hs => Spec.pure fun s' hs' => ⟨hs'.trans hs, fun j hj => ?_⟩
  rw [hs] at hj
  exact getSuper_some hj

/-- The inode block gets what the entry holds. -/
theorem writeInode_sees (i : Fin 32) (f : Fin 32 → Node) : Returns (fun s => Sees v s ∧ s.id = f) (writeInode i) fun _ s =>
    (Sees v s ∧ s.id = f) ∧ ((s.inode i).dev ≠ 0 → (s.inode i).dirt = false) := by
  refine Spec.get_bind fun s hs => Spec.ite (fun hc => Spec.pure fun s' hs' => ?_) fun hc => ?_
  · rw [hs']
    refine ⟨hs, fun h0 => ?_⟩
    simpa using hc.resolve_right h0
  push Not at hc
  refine (getSuper_same _).bind fun k => ?_
  cases k with
  | none => exact Spec.halt trivial
  | some k =>
    obtain ⟨hs, rfl⟩ := hs
    have hentry := hs.entry i hc.2
    have hsaved := hs.setDisk (s.id i)
    rw [← hentry] at hsaved
    refine Spec.bind (M := fun _ s' => s' = s.setDisk (s.id i).1 { s.disk (s.id i).1 with
      inode := Function.update (s.disk (s.id i).1).inode (s.id i).2 (s.inode i).toDInode })
      (Spec.modify fun s' hs' => by rw [hs'.1]; rfl) fun _ => Spec.modify fun s' hs' => ?_
    subst hs'
    refine ⟨⟨hsaved.setInode rfl rfl rfl id (hs.pipe i) fun _ _ => ?_, Sees.id_setInode rfl rfl⟩, fun _ => ?_⟩
    · change (Function.update s.disk (s.id i).1 _ (s.id i).1).inode (s.id i).2 = _
      rw [Function.update_self]
      exact (Function.update_self ..).trans hentry
    · rw [Kern.setInode_self]

/-! ## Taking and releasing an inode -/

/-- What is known while a call holds `h`. -/
structure Looks (v : View) (h : Fin 32 → ℤ) (s : Kern) : Prop where
  acct : Acct h 0 Half.none s
  sees : Sees v s

theorem Returns.of {R : Kern → Prop} {E : Halted → Prop} {P : Kern → Prop} {m : K α} {Q : α → Kern → Prop} (hm : Spec R E P m Q) :
    Returns P m Q := by
  intro s hs
  have h1 := hm s hs
  cases he : m s with
  | ok a s' =>
    rw [he] at h1
    exact h1
  | fault s' => trivial
  | stop e => trivial

namespace Looks

theorem both {R : Kern → Prop} {h' : α → Fin 32 → ℤ} {m : K α} (ha : Spec R Fine (Acct h 0 Half.none) m fun a => Acct (h' a) 0 Half.none)
    (hs : Returns (Sees v) m fun _ => Sees v) : Returns (Looks v h) m fun a => Looks v (h' a) :=
  ((Returns.of ha).and hs).conseq (fun _ hl => ⟨hl.acct, hl.sees⟩) fun _ _ hl => ⟨hl.1, hl.2⟩

theorem alike (hl : Looks v h s) (ha : Alike s s') : Looks v h s' := ⟨hl.acct.core ha.core, hl.sees.alike ha⟩

theorem count (hl : Looks v h s) (i : Fin 32) : ((s.inode i).count : ℤ) = v.refs i + h i := by
  rw [← hl.sees.refs]
  exact hl.acct.inode i

theorem congr (hl : Looks v h s) {h' : Fin 32 → ℤ} (he : h = h') : Looks v h' s := he ▸ hl

end Looks

/-- An entry that nothing else points to may be given another inode, or none. -/
theorem Sees.replace (hs : Sees v s) (hr : v.refs i = 0) (hc : (s.inode i).dev ≠ 0 → (s.inode i).dirt = false) {z : MInode}
    (hz : z.dev ≠ 0 → z.pipe = false ∧ v.Formatted z.dev ∧ z.toDInode = v.inode (z.dev, z.num) ∧
      (∀ a, a ≠ i → s.id a ≠ (z.dev, z.num)) ∧ (s.disk z.dev).inode z.num = v.inode (z.dev, z.num)) :
    Sees v (s.setInode i z) := by
  have hself : (s.setInode i z).id i = (z.dev, z.num) := by
    unfold Kern.id
    rw [Kern.setInode_self]
  have hother : ∀ a, a ≠ i → (s.setInode i z).id a = s.id a := fun a ha => by
    unfold Kern.id
    rw [Kern.setInode_ne _ ha]
  refine ⟨fun a b ha he => ?_, fun a ha => ?_, fun a ha => ?_, fun a ha => ?_, fun x h0 hx => ?_, hs.block, hs.dsuper, hs.super,
    hs.refs, fun a ha => ?_, hs.task, hs.current, hs.floppyChange, fun k m hk h1 => ?_⟩
  · by_cases hai : a = i <;> by_cases hbi : b = i
    · rw [hai, hbi]
    · subst hai
      rw [Kern.setInode_self] at ha
      rw [hself, hother b hbi] at he
      exact absurd he.symm ((hz ha).2.2.2.1 b hbi)
    · subst hbi
      rw [hself, hother a hai] at he
      have hd : z.dev ≠ 0 := by
        rw [Kern.setInode_ne _ hai] at ha
        have hd : (s.inode a).dev = z.dev := congrArg Prod.fst he
        rwa [hd] at ha
      exact absurd he ((hz hd).2.2.2.1 a hai)
    · rw [hother a hai, hother b hbi] at he
      rw [Kern.setInode_ne _ hai] at ha
      exact hs.unique a b ha he
  · by_cases hai : a = i
    · subst hai
      rw [Kern.setInode_self] at ha ⊢
      exact (hz ha).1
    · rw [Kern.setInode_ne _ hai] at ha ⊢
      exact hs.pipe a ha
  · by_cases hai : a = i
    · subst hai
      rw [Kern.setInode_self] at ha ⊢
      exact (hz ha).2.1
    · rw [Kern.setInode_ne _ hai] at ha ⊢
      exact hs.formatted a ha
  · by_cases hai : a = i
    · subst hai
      rw [hself]
      rw [Kern.setInode_self] at ha ⊢
      exact (hz ha).2.2.1
    · rw [hother a hai]
      rw [Kern.setInode_ne _ hai] at ha ⊢
      exact hs.entry a ha
  · by_cases hxi : s.id i = x
    · subst hxi
      exact hs.saved h0 (hc h0)
    · refine hs.disk x h0 fun a ha => ?_
      have hai : a ≠ i := fun he => hxi (he ▸ ha)
      have hxa := hx a ((hother a hai).trans ha)
      rwa [Kern.setInode_ne _ hai] at hxa
  · rw [hother a fun he => ha (he ▸ hr)]
    exact hs.node a ha
  · rw [Kern.setInode_ne _ fun he : m = i => hs.point hk (he ▸ hr)]
    exact hs.flag k m hk h1

/-- The reference to an entry without a device, or one of several, goes at once. -/
theorem iput_eq_decCount (h0 : (s.inode i).count ≠ 0) (hp : (s.inode i).pipe = false)
    (h1 : (s.inode i).dev = 0 ∨ 1 < (s.inode i).count) : iput (some i) s = decCount i s := by
  have he : iput (some i) = Prog.get >>= fun s : Kern => _ := rfl
  rw [he, Prog.bind_run (rfl : Prog.get s = .ok s s), if_neg h0, if_neg (by simp [hp])]
  by_cases hd : (s.inode i).dev = 0
  · rw [if_pos hd]
  · rw [if_neg hd, if_pos (h1.resolve_left hd)]

theorem incCount_looks (i : Fin 32) (hi : h i ≤ 1000) : Returns (Looks v h) (incCount i) fun _ => Looks v (h + one i) :=
  Looks.both (R := fun _ => True) (incCount_spec i hi) (incCount_sees i)

theorem iput_sees (i : Fin 32) (f : Fin 32 → Node) :
    Returns (fun s => (Sees v s ∧ s.id = f) ∧ ((s.inode i).dev ≠ 0 → 1 < (s.inode i).count ∨ (v.inode (s.id i)).nlinks ≠ 0))
      (iput (some i)) fun _ s => Sees v s ∧ s.id = f := by
  refine Spec.get_bind fun s hs => Spec.ite (fun _ => Spec.halt trivial) fun _ => ?_
  have hdec : Returns (fun s => Sees v s ∧ s.id = f) (decCount i) fun _ s => Sees v s ∧ s.id = f :=
    (decCount_sees i).and (decCount_ids i f)
  have hnow : Returns (fun s' => s' = s) (decCount i) fun _ s => Sees v s ∧ s.id = f := hdec.pre fun s' hs' => hs' ▸ hs.1
  refine Spec.ite (fun hp => Spec.ite (fun _ => Spec.modify fun s' hs' => ?_) fun _ => hnow) fun _ => ?_
  · have h0 : ¬ (s.inode i).dev ≠ 0 := fun h0 => by
      rw [hs.1.1.pipe i h0] at hp
      cases hp
    rw [hs']
    exact ⟨hs.1.1.setInode rfl rfl rfl id (fun h => absurd h h0) fun _ h => absurd h h0,
      (Sees.id_setInode (by rfl) (by rfl)).trans hs.1.2⟩
  refine Spec.ite (fun _ => hnow) fun h0 => Spec.ite (fun _ => hnow) fun h1 => Spec.ite (fun hn => ?_) fun _ => ?_
  · have h2 := (hs.2 h0).resolve_left h1
    rw [← hs.1.1.entry i h0] at h2
    exact absurd hn h2
  refine Spec.ite (fun _ => ?_) fun _ => hnow
  exact ((writeInode_sees i f).pre fun s' hs' => hs' ▸ hs.1).bind fun _ => hdec.pre fun s' hs' => hs'.1

/-- The inode of the entry stays when its reference goes. -/
def View.Kept (v : View) (i : Fin 32) (x : Node) : Prop := v.refs i ≠ 0 ∨ (v.inode x).nlinks ≠ 0

theorem iput_looks (i : Fin 32) (hi : 0 ≤ h i) :
    Returns (fun s => Looks v (h + one i) s ∧ ((s.inode i).dev ≠ 0 → v.Kept i (s.id i))) (iput (some i)) fun _ => Looks v h := by
  intro s hs
  refine Out.ends_mono (((Returns.of (R := fun _ => True) (iput_held i hi)).and (iput_sees i s.id)) s
    ⟨hs.1.acct, ⟨hs.1.sees, rfl⟩, fun h0 => ?_⟩) fun _ s' hs' => ⟨hs'.1, hs'.2.1⟩
  refine (hs.2 h0).imp_left fun hr => ?_
  have h1 := hs.1.count i
  rw [Pi.add_apply, one_self] at h1
  omega

/-- One of several references goes, or that to an entry without a device. -/
theorem iput_quick (hl : Looks v (h + one i) s) (hi : 0 ≤ h i) (hr : (s.inode i).dev = 0 ∧ (s.inode i).pipe = false ∨ (s.inode i).dev ≠ 0 ∧ v.refs i ≠ 0) :
    Returns (fun s' => s' = s) (iput (some i)) fun _ s' =>
      Looks v h s' ∧ (∀ j, s'.id j = s.id j) ∧ ∀ j, j ≠ i → s'.inode j = s.inode j := by
  have hc := hl.count i
  rw [Pi.add_apply, one_self] at hc
  have hp : (s.inode i).pipe = false := hr.elim (fun h => h.2) fun h => hl.sees.pipe i h.1
  have he : iput (some i) s = decCount i s := iput_eq_decCount (by omega) hp (hr.imp (fun h => h.1) fun h => by omega)
  have ha : Returns (fun s' => s' = s) (decCount i) fun _ => Acct (h + one i - one i) 0 Half.none :=
    Returns.of (R := fun _ => True) ((decCount_spec i).pre fun s' hs' => hs' ▸ ⟨hl.acct, by omega⟩)
  rw [add_sub_cancel_right] at ha
  have hd : Returns (fun s' => s' = s) (decCount i) fun _ s' => (∀ j, s'.id j = s.id j) ∧ ∀ j, j ≠ i → s'.inode j = s.inode j := by
    refine Spec.modify fun s' hs' => ?_
    rw [hs']
    exact ⟨fun j => congrFun (Sees.id_setInode (by rfl) (by rfl)) j, fun j hj => Kern.setInode_ne _ hj _⟩
  have hall := (ha.and ((decCount_sees i).pre fun s' (hs' : s' = s) => hs' ▸ hl.sees)).and hd
  intro s' hs'
  rw [hs', he]
  refine Out.ends_mono (hall s ⟨⟨rfl, rfl⟩, rfl⟩) fun _ s'' h => ⟨⟨h.1.1, h.1.2⟩, h.2⟩

/-- An entry that `get_empty_inode` has just given out. -/
structure Blank (v : View) (empty : Fin 32) (s : Kern) : Prop where
  inode : s.inode empty = { MInode.zero with count := 1 }
  refs : v.refs empty = 0

theorem getEmptyInode_looks (hh : Mild 900 h) :
    Returns (Looks v h) getEmptyInode fun i s => Looks v (h + one i) s ∧ Blank v i s := by
  have hsees : ∀ s₁ : Kern, Looks v h s₁ → Returns (fun s => s = s₁) getEmptyInode fun i s => Sees v s ∧ Blank v i s := by
    intro s₁ hl
    refine Spec.get_bind fun s hs => ?_
    subst hs
    have hfound : ∀ i ∈ (scanEmpty s 32 s.lastInode none).1, (s.inode i).count = 0 := scanEmpty_count s 32 s.lastInode nofun
    generalize scanEmpty s 32 s.lastInode none = r at hfound
    refine Spec.bind (M := fun _ s' => s' = { s with lastInode := r.2 }) (Spec.modify fun s' hs' => by rw [hs']) fun _ => ?_
    obtain ⟨_ | i, last⟩ := r
    · exact Spec.halt trivial
    have hrefs : v.refs i = 0 := by
      have h1 := hl.count i
      rw [hfound i rfl] at h1
      have h2 := (hh i).1
      omega
    have hs := hl.sees
    have hsees : Sees v { s with lastInode := last } := ⟨hs.unique, hs.pipe, hs.formatted, hs.entry, hs.disk, hs.block, hs.dsuper,
      hs.super, hs.refs, hs.node, hs.task, hs.current, hs.floppyChange, hs.flag⟩
    refine ((writeInode_sees i s.id).pre fun s' hs' => by rw [hs']; exact ⟨hsees, rfl⟩).bind fun _ => Spec.get_bind fun s' hs' => ?_
    refine Spec.ite (fun _ => Spec.halt trivial) fun _ => Spec.bind (M := fun _ s' => Sees v s' ∧ Blank v i s') ?_ fun _ =>
      Spec.pure fun _ h => h
    refine Spec.modify fun s'' hs'' => ?_
    subst hs''
    exact ⟨hs'.1.1.replace hrefs hs'.2 fun h0 => absurd rfl h0, Kern.setInode_self .., hrefs⟩
  intro s hl
  have h1 := hsees s hl s rfl
  have h2 := Returns.of (getEmptyInode_spec (R := fun _ => True)) s hl.acct
  cases he : getEmptyInode s with
  | ok i s' =>
    rw [he] at h1 h2
    exact ⟨⟨h2.1, h1.1⟩, h1.2⟩
  | fault s' => trivial
  | stop e => trivial

/-- `iget` in its last two steps: the blank entry gets the inode. -/
theorem readInto (empty : Fin 32) (d nr : ℕ) : Returns (fun s => s = s₀)
    (do modInode empty fun z => { z with dev := d, num := nr }; readInode empty; return empty) fun i s =>
      i = empty ∧ d ≠ 0 ∧ s = s₀.setInode empty { s₀.inode empty with
        dev := d, num := nr, toDInode := (s₀.disk d).inode nr } := by
  refine Spec.bind (M := fun _ s => s = s₀.setInode empty { s₀.inode empty with dev := d, num := nr })
    (Spec.modify fun s hs => by rw [hs]) fun _ => ?_
  refine Spec.bind (M := fun _ s => d ≠ 0 ∧ s = s₀.setInode empty { s₀.inode empty with
    dev := d, num := nr, toDInode := (s₀.disk d).inode nr }) ?_ fun _ => Spec.pure fun s hs => ⟨rfl, hs⟩
  refine Spec.get_bind fun s hs => ((getSuper_same _).pre fun s' hs' => hs'.trans hs).bind fun k => ?_
  cases k with
  | none => exact Spec.halt trivial
  | some k =>
    refine Spec.modify fun s' hs' => ?_
    have h0 := (hs'.2 k rfl).1
    rw [hs, Kern.setInode_self] at h0 ⊢
    refine ⟨h0, ?_⟩
    rw [hs'.1]
    unfold Kern.setInode
    simp only [Function.update_self, Function.update_idem]

theorem incoreInode_some {d nr : ℕ} (he : incoreInode s d nr = some i) : s.id i = (d, nr) := by
  unfold incoreInode at he
  have h1 := List.find?_some he
  rw [decide_eq_true_eq] at h1
  exact Prod.ext h1.1 h1.2

theorem incoreInode_none {d nr : ℕ} (he : incoreInode s d nr = none) (i : Fin 32) : s.id i ≠ (d, nr) := by
  intro hid
  have h1 := List.find?_eq_none.mp he i (List.mem_finRange i)
  rw [decide_eq_true_eq] at h1
  exact h1 ⟨congrArg Prod.fst hid, congrArg Prod.snd hid⟩

theorem igetLoop_looks (hm : v.Mounts) (hh : Mild 900 h) (empty : Fin 32) (n d nr : ℕ) (hd : v.Formatted d) :
    Returns (fun s => Looks v (h + one empty) s ∧ Blank v empty s) (igetLoop empty n d nr) fun i s =>
      Looks v (h + one i) s ∧ (s.inode i).dev ≠ 0 ∧ v.Follows (d, nr) (s.id i) := by
  induction n generalizing d nr with
  | zero => exact Spec.halt trivial
  | succ n ih =>
    refine Spec.get_bind fun s hs => ?_
    obtain ⟨hl, hb⟩ := hs
    have h0 : (s.inode empty).dev = 0 := by rw [hb.inode]; rfl
    cases he : incoreInode s d nr with
    | none =>
      refine (readInto empty d nr).post fun i s' hi => ?_
      obtain ⟨rfl, -, rfl⟩ := hi
      have hx : ∀ a, s.id a ≠ (d, nr) := incoreInode_none he
      have hdisk : (s.disk d).inode nr = v.inode (d, nr) := hl.sees.disk (d, nr) hd.1 fun a ha => absurd ha (hx a)
      refine ⟨⟨hl.acct.core (core_setInode s i rfl), hl.sees.replace hb.refs (fun h => absurd h0 h) fun _ => ?_⟩, ?_, ?_⟩
      · refine ⟨?_, hd, hdisk, fun a _ => hx a, hdisk⟩
        dsimp only
        rw [hb.inode]
        rfl
      · rw [Kern.setInode_self]
        exact hd.1
      · unfold Kern.id
        rw [Kern.setInode_self]
        exact .here fun k m hk _ heq => hx m ((hl.sees.node m (hl.sees.point hk)).trans heq)
    | some i =>
      have hid := incoreInode_some he
      have hdi : (s.inode i).dev = d := congrArg Prod.fst hid
      have hne : i ≠ empty := fun heq => by
        rw [heq, h0] at hdi
        exact hd.1 hdi.symm
      refine Spec.bind (M := fun _ s' => s' = s.setInode i { s.inode i with count := ((s.inode i).count + 1) % 65536 })
        (Spec.modify fun s' hs' => by rw [hs']) fun _ => ?_
      have hl₁ : Looks v (h + one empty + one i) (s.setInode i { s.inode i with count := ((s.inode i).count + 1) % 65536 }) := by
        refine incCount_looks i ?_ s hl
        have h1 := one_le empty i
        have h2 := (hh i).2
        rw [Pi.add_apply]
        omega
      generalize hs₁ : s.setInode i { s.inode i with count := ((s.inode i).count + 1) % 65536 } = s₁ at hl₁
      have hid₁ : s₁.id i = (d, nr) := by
        rw [← hs₁]
        exact (congrFun (Sees.id_setInode (by rfl) (by rfl)) i).trans hid
      have hb₁ : s₁.inode empty = s.inode empty := by
        rw [← hs₁]
        exact Kern.setInode_ne _ (Ne.symm hne) _
      have hdone : v.Uncovered (s.id i) → Returns (fun s' => s' = s₁) (do iput (some empty); return i) fun i s =>
          Looks v (h + one i) s ∧ (s.inode i).dev ≠ 0 ∧ v.Follows (d, nr) (s.id i) := by
        intro hu
        have hl₂ := hl₁.congr (add_right_comm h (one empty) (one i))
        refine (iput_quick hl₂ ?_ (Or.inl ?_)).bind fun _ => Spec.pure fun s' hs' => ?_
        · have h1 := one_nonneg i empty
          have h2 := (hh empty).1
          rw [Pi.add_apply]
          omega
        · rw [hb₁, hb.inode]
          exact ⟨rfl, rfl⟩
        · refine ⟨hs'.1, ?_, ?_⟩
          · have h1 := congrArg Prod.fst ((hs'.2.1 i).trans hid₁)
            exact fun h => hd.1 (h1.symm.trans h)
          · rw [hs'.2.1 i, hid₁]
            exact .here (hid ▸ hu)
      have hdev : (s.inode i).dev ≠ 0 := fun h => hd.1 (hdi.symm.trans h)
      refine Spec.ite (fun _ => ?_) fun hmount => hdone (hl.sees.uncovered hdev fun k hk => ?_)
      swap
      · by_contra h1
        exact hmount (hl.sees.flag k i hk h1)
      cases hk : (List.finRange 8).find? fun k => (s.super k).imount = some i with
      | none =>
        refine hdone (hl.sees.uncovered hdev fun k hk' => ?_)
        have h1 := List.find?_eq_none.mp hk k (List.mem_finRange k)
        rw [hl.sees.super, decide_eq_true_eq] at h1
        exact absurd hk' h1
      | some k =>
        have hki : (v.super k).imount = some i := by simpa [hl.sees.super] using List.find?_some hk
        have hused : (v.super k).dev ≠ 0 := hm.used k (by rw [hki]; exact nofun)
        have hpt := hl.sees.point hki
        refine (iput_quick hl₁ ?_ (Or.inr ⟨?_, hpt⟩)).bind fun _ => ?_
        · have h1 := one_nonneg empty i
          have h2 := (hh i).1
          rw [Pi.add_apply]
          omega
        · exact fun h => hd.1 ((congrArg Prod.fst hid₁).symm.trans h)
        rw [hl.sees.super]
        refine (ih (v.super k).dev 1 (hm.formatted k hused)).conseq (fun s' hs' => ⟨hs'.1, ?_, hb.refs⟩) fun j s' hs' =>
          ⟨hs'.1, hs'.2.1, ?_⟩
        · rw [hs'.2.2 empty (Ne.symm hne), hb₁, hb.inode]
        · rw [← hid, hl.sees.node i hpt]
          exact hs'.2.2.mounted hki

theorem iget_looks (hm : v.Mounts) (hh : Mild 900 h) (d nr : ℕ) (hd : v.Formatted d) :
    Returns (Looks v h) (iget d nr) fun i s => Looks v (h + one i) s ∧ (s.inode i).dev ≠ 0 ∧ v.Follows (d, nr) (s.id i) := by
  refine Spec.ite (fun _ => Spec.halt trivial) fun _ => ?_
  exact (getEmptyInode_looks hh).bind fun empty => igetLoop_looks hm hh empty 9 d nr hd

end Linux011.Fs
