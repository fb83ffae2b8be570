/-
  The path functions of fs/namei.c in terms of `Acct`: a lookup holds one reference, to the
  directory it has reached, and gives it back when it fails.
-/
import Linux011.Fs.RefSpecs

namespace Linux011.Fs

open Linux011.Lib

variable {R : Kern → Prop} {h : Fin 32 → ℤ} {g : Fin 64 → ℤ} {half : Half} {s : Kern}

/-- `R` holds wherever the call has taken something over `h`. -/
def Held (R : Kern → Prop) (h : Fin 32 → ℤ) (g : Fin 64 → ℤ) (half : Half) : Prop :=
  ∀ h' : Fin 32 → ℤ, (∀ i, h i ≤ h' i) → (∃ i, h i < h' i) → ∀ s, Acct h' g half s → R s

theorem Held.add (hR : Held R h g half) (i : Fin 32) : Held R (h + one i) g half := by
  intro h' hle hlt
  have hle' : ∀ j, h j ≤ h' j := by
    intro j
    have h1 := hle j
    have h2 := one_nonneg i j
    rw [Pi.add_apply] at h1
    omega
  refine hR h' hle' ⟨i, ?_⟩
  have h1 := hle i
  rw [Pi.add_apply, one_self] at h1
  omega

theorem Held.fault (hR : Held R h g half) {i : Fin 32} (ha : Acct (h + one i) g half s) : R s := by
  refine hR (h + one i) (fun j => ?_) ⟨i, ?_⟩ s ha
  · have := one_nonneg i j
    rw [Pi.add_apply]
    omega
  · rw [Pi.add_apply, one_self]
    omega

theorem access_spec (hR : ∀ s, Acct h g half s → R s) :
    Spec R Fine (Acct h g half) access fun _ => Acct h g half := by
  intro s hs
  unfold access
  cases s.env.access with
  | none => exact hs
  | some n =>
    cases n with
    | zero => exact hR s hs
    | succ n => exact hs.core ⟨fun _ => rfl, fun _ => ⟨rfl, rfl⟩, fun _ => rfl, rfl, rfl, rfl⟩

theorem accesses_spec {α : Type} (hR : ∀ s, Acct h g half s → R s) (l : List α) :
    Spec R Fine (Acct h g half) (Prog.each (fun _ => access) l) fun _ => Acct h g half :=
  Spec.each (fun _ => access_spec hR) l

/-! ## Directory entries -/

theorem searchBuffer_keeps (dir : Fin 32) (d i : ℕ) (bh : Option ℕ) : Keeps (searchBuffer dir d i bh) := by
  refine Keeps.ite ((brelseOpt_keeps d bh).bind fun _ => ?_) (Keeps.pure _)
  refine (bmapCreate_keeps dir _ false).bind fun block => Keeps.ite (Keeps.pure _) ?_
  exact (bread_keeps d block).bind fun _ => Keeps.ite (Keeps.pure _) (Keeps.pure _)

theorem searchEntries_keeps (dir : Fin 32) (d entries : ℕ) (name : List UInt8) (n i : ℕ) (bh : Option ℕ) :
    Keeps (searchEntries dir d entries name n i bh) := by
  induction n generalizing i bh with
  | zero => exact Keeps.halt (by decide)
  | succ n ih =>
    refine Keeps.ite ((brelseOpt_keeps d bh).bind fun _ => Keeps.pure _) ?_
    refine (searchBuffer_keeps dir d i bh).bind fun bh => ?_
    cases bh with
    | none => exact ih _ _
    | some b => exact Keeps.get fun s => Keeps.ite (Keeps.pure _) (ih _ _)

theorem isDotDot_spec (hR : ∀ s, Acct h g half s → R s) (name : List UInt8) :
    Spec R Fine (Acct h g half) (isDotDot name) fun _ => Acct h g half := by
  have hdone : ∀ b : Bool, Spec R Fine (Acct h g half) (pure b : K Bool) fun _ => Acct h g half :=
    fun b => Spec.pure fun _ hs => hs
  refine Spec.ite (fun _ => hdone _) fun _ => (access_spec hR).bind fun _ => ?_
  exact Spec.ite (fun _ => hdone _) fun _ => (access_spec hR).bind fun _ => hdone _

theorem crossMount_spec (hh : Mild 900 h) (hR : Held R h g half) (dir : Fin 32) (name : List UInt8) :
    Spec R Fine (Acct (h + one dir) g half) (crossMount dir name) fun r => Acct (h + one r.1) g half := by
  have hdone : ∀ name : List UInt8, Spec R Fine (Acct (h + one dir) g half)
      (pure (dir, name) : K (Fin 32 × List UInt8)) fun r => Acct (h + one r.1) g half := fun _ =>
    Spec.pure fun _ hs => hs
  refine (isDotDot_spec (fun s => hR.fault) name).bind fun dd => Spec.ite (fun _ => ?_) fun _ => hdone _
  refine Spec.get fun s _ => Spec.ite (fun _ => hdone _) fun _ => Spec.ite (fun _ => ?_) fun _ => hdone _
  refine (getSuper_keeps _).acct.bind fun k => ?_
  cases k with
  | none => exact Spec.halt (by decide)
  | some k =>
    dsimp only
    cases (s.super k).imount with
    | none => exact hdone _
    | some m =>
      refine iput_after dir (hh dir).1 ?_
      exact (incCount_spec m ((hh m).2.trans (by decide))).bind fun _ => Spec.pure fun _ hs => hs

theorem findEntry_spec (hh : Mild 900 h) (hR : Held R h g half) (dir : Fin 32) (name : List UInt8) :
    Spec R Fine (Acct (h + one dir) g half) (findEntry dir name) fun r => Acct (h + one r.1) g half := by
  refine Spec.get fun s _ => Spec.ite (fun _ => Spec.pure fun _ hs => hs) fun _ => ?_
  refine (crossMount_spec hh hR dir _).bind fun r => ?_
  obtain ⟨dir, name⟩ := r
  refine Spec.get fun s' _ => Spec.ite (fun _ => Spec.pure fun _ hs => hs) fun _ => ?_
  refine (bread_keeps _ _).acct.bind fun ok => Spec.ite (fun _ => ?_) fun _ => Spec.pure fun _ hs => hs
  exact (searchEntries_keeps _ _ _ _ _ _ _).acct.bind fun e => Spec.pure fun _ hs => hs

theorem putNameByte_spec (hR : ∀ s, Acct h g half s → R s) (d : ℕ) (e : DirEntry) (name : List UInt8) (k : ℕ) :
    Spec R Fine (Acct h g half) (putNameByte d e name k) fun _ => Acct h g half := by
  have hput : Spec R Fine (Acct h g half) (Prog.modify fun s => s.setBlock d e.block
      (Function.update ((s.disk d).block e.block) (16 * e.place + 2 + k) (name.getD k 0)))
      fun _ => Acct h g half := Spec.modify fun s hs => hs.core (core_disk _ _)
  unfold putNameByte
  dsimp only
  exact Spec.ite (fun _ => (access_spec hR).bind fun _ => hput) fun _ => hput

theorem addBuffer_keeps (dir : Fin 32) (d i : ℕ) (bh : Option ℕ) : Keeps (addBuffer dir d i bh) := by
  refine Keeps.ite ((brelseOpt_keeps d bh).bind fun _ => ?_) (Keeps.pure _)
  refine (bmapCreate_keeps dir _ true).bind fun block => Keeps.ite (Keeps.pure _) ?_
  exact (bread_keeps d block).bind fun _ => Keeps.ite (Keeps.pure _) (Keeps.pure _)

theorem growDir_keeps (dir : Fin 32) (d b i : ℕ) : Keeps (growDir dir d b i) := by
  refine Keeps.get fun s => Keeps.ite ((setEntry_keeps d _ 0).bind fun _ => ?_) (Keeps.pure _)
  exact modInode_keeps dir fun _ => rfl

theorem scanFree_spec (hR : ∀ s, Acct h g half s → R s) (dir : Fin 32) (d : ℕ) (name : List UInt8) (n i : ℕ)
    (bh : Option ℕ) : Spec R Fine (Acct h g half) (scanFree dir d name n i bh) fun _ => Acct h g half := by
  induction n generalizing i bh with
  | zero => exact Spec.halt (by decide)
  | succ n ih =>
    refine (addBuffer_keeps dir d i bh).acct.bind fun r => ?_
    match r with
    | none => exact Spec.pure fun _ hs => hs
    | some none => exact ih _ _
    | some (some b) =>
      refine (growDir_keeps dir d b i).acct.bind fun _ => Spec.get fun s _ => Spec.ite (fun _ => ?_) fun _ => ih _ _
      exact (Spec.each (putNameByte_spec hR d _ name) _).bind fun _ => Spec.pure fun _ hs => hs

theorem addEntry_spec (hR : ∀ s, Acct h g half s → R s) (dir : Fin 32) (name : List UInt8) :
    Spec R Fine (Acct h g half) (addEntry dir name) fun _ => Acct h g half := by
  refine Spec.get fun s _ => Spec.ite (fun _ => Spec.pure fun _ hs => hs) fun _ => ?_
  refine (bread_keeps _ _).acct.bind fun ok => Spec.ite (fun _ => ?_) fun _ => Spec.pure fun _ hs => hs
  exact scanFree_spec hR _ _ _ _ _ _

theorem entryInode_keeps (d : ℕ) (e : DirEntry) : Keeps (entryInode d e) := Keeps.get fun _ => Keeps.pure _

/-! ## Path names -/

theorem nextName_spec (hR : ∀ s, Acct h g half s → R s) (path : List UInt8) :
    Spec R Fine (Acct h g half) (nextName path) fun _ => Acct h g half := by
  induction path with
  | nil => exact (access_spec hR).bind fun _ => Spec.pure fun _ hs => hs
  | cons c cs ih =>
    refine (access_spec hR).bind fun _ => Spec.ite (fun _ => Spec.pure fun _ hs => hs) fun _ => ?_
    refine Spec.ite (fun _ => Spec.pure fun _ hs => hs) fun _ => ?_
    exact ih.bind fun r => Spec.pure fun _ hs => hs

/-- The entry has been found: its inode takes the place of the directory. -/
theorem follow_spec {α : Type} {Q : α → Kern → Prop} (hh : Mild 900 h) (dir : Fin 32) (d b nr : ℕ)
    {f : Fin 32 → K α} (hf : ∀ i, Spec R Fine (Acct (h + one i) g half) (f i) Q) :
    Spec R Fine (Acct (h + one dir) g half) (do brelse d b; iput (some dir); let i ← iget d nr; f i) Q := by
  refine (brelse_keeps d b).acct.bind fun _ => iput_after dir (hh dir).1 ?_
  exact (iget_spec hh d nr).bind hf

theorem walk_spec (hh : Mild 900 h) (hR : Held R h g half) (n : ℕ) (i : Fin 32) (path : List UInt8) :
    Spec R Fine (Acct (h + one i) g half) (walk n i path) fun p => Acct (h + oneOpt p) g half := by
  have hnone : ∀ i, Spec R Fine (Acct (h + one i) g half) (do iput (some i); return none : K (Option (Fin 32)))
      fun p => Acct (h + oneOpt p) g half := fun i =>
    iput_after i (hh i).1 (Spec.pure fun _ hs => by simpa [oneOpt] using hs)
  induction n generalizing i path with
  | zero => exact Spec.halt (by decide)
  | succ n ih =>
    refine Spec.get fun s _ => Spec.ite (fun _ => hnone i) fun _ => ?_
    refine (nextName_spec (fun s => hR.fault) path).bind fun r => ?_
    obtain ⟨name, rest⟩ := r
    cases rest with
    | none => exact Spec.pure fun _ hs => hs
    | some rest =>
      refine (findEntry_spec hh hR i name).bind fun r => ?_
      obtain ⟨i, e⟩ := r
      cases e with
      | none => exact hnone i
      | some e =>
        refine Spec.get fun s _ => (entryInode_keeps _ e).acct.bind fun nr => ?_
        exact follow_spec hh i _ _ nr fun i => ih i rest

theorem getDir_spec (hh : Mild 900 h) (hR : Held R h g half) (h0 : ∀ s, Acct h g half s → R s) (path : List UInt8) :
    Spec R Fine (Acct h g half) (getDir path) fun p => Acct (h + oneOpt p) g half := by
  refine Spec.get fun s _ => ?_
  cases inUse s s.cur.root with
  | none => exact Spec.halt (by decide)
  | some root =>
    cases inUse s s.cur.pwd with
    | none => exact Spec.halt (by decide)
    | some pwd =>
      have hfrom : ∀ (i : Fin 32) (path' : List UInt8), Spec R Fine (Acct h g half)
          (do incCount i; walk (path.length + 1) i path' : K (Option (Fin 32)))
          fun p => Acct (h + oneOpt p) g half := fun i path' =>
        (incCount_spec i ((hh i).2.trans (by decide))).bind fun _ => walk_spec hh hR _ i path'
      refine (access_spec h0).bind fun _ => Spec.ite (fun _ => hfrom root _) fun _ => ?_
      refine Spec.ite (fun _ => hfrom pwd _) fun _ => Spec.pure fun _ hs => by simpa [oneOpt] using hs

theorem dirNamei_spec (hh : Mild 900 h) (hR : Held R h g half) (h0 : ∀ s, Acct h g half s → R s)
    (path : List UInt8) : Spec R Fine (Acct h g half) (dirNamei path) fun p =>
      Acct (h + oneOpt (p.map Prod.fst)) g half := by
  refine (getDir_spec hh hR h0 path).bind fun p => ?_
  cases p with
  | none => exact Spec.pure fun _ hs => hs
  | some dir =>
    exact (accesses_spec (fun s => hR.fault) _).bind fun _ => Spec.pure fun _ hs => hs

theorem namei_spec (hh : Mild 900 h) (hR : Held R h g half) (h0 : ∀ s, Acct h g half s → R s)
    (path : List UInt8) : Spec R Fine (Acct h g half) (namei path) fun p => Acct (h + oneOpt p) g half := by
  refine (dirNamei_spec hh hR h0 path).bind fun p => ?_
  match p with
  | none => exact Spec.pure fun _ hs => hs
  | some (dir, name) =>
    refine Spec.ite (fun _ => Spec.pure fun _ hs => hs) fun _ => (findEntry_spec hh hR dir name).bind fun r => ?_
    match r with
    | (dir, none) =>
      exact iput_after dir (hh dir).1 (Spec.pure fun _ hs => by simpa [oneOpt] using hs)
    | (dir, some e) =>
      refine Spec.get fun s _ => (entryInode_keeps _ e).acct.bind fun nr => ?_
      refine follow_spec hh dir _ _ nr fun i => ?_
      refine Spec.bind (M := fun _ => Acct (h + one i) g half) ?_ fun _ => Spec.pure fun _ hs => hs
      exact modInode_acct i fun _ => rfl

end Linux011.Fs
