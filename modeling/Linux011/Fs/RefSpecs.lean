/-
  The functions below the calls, in terms of `Acct`: those that leave every counted thing alone
  (`Keeps`), and iput, iget, find_entry, the path functions, which release, take or exchange one
  reference. `R` is what is wanted at a user access that faults.
-/
import Linux011.Fs.Refs

namespace Linux011.Fs

open Linux011.Lib

variable {α β : Type} {R : Kern → Prop} {s : Kern}

/-- Not one of the two panics of a lost reference. -/
def Fine (e : Halted) : Prop :=
  e ≠ .panic "iput: trying to free a freed inode" ∧ e ≠ .panic "Close: file count is 0"

instance (e : Halted) : Decidable (Fine e) := inferInstanceAs (Decidable (_ ∧ _))

/-- The program makes no user access and leaves everything that is counted as it is. -/
def Keeps (m : K α) : Prop := ∀ R s₀, Spec R Fine (Core s₀) m fun _ => Core s₀

namespace Keeps

variable {m : K α} {f : α → K β}

theorem pure (a : α) : Keeps (Pure.pure a : K α) := fun _ _ => Spec.pure fun _ hs => hs

theorem bind (hm : Keeps m) (hf : ∀ a, Keeps (f a)) : Keeps (m >>= f) := fun R s₀ =>
  (hm R s₀).bind fun a => hf a R s₀

theorem get {f : Kern → K β} (hf : ∀ s, Keeps (f s)) : Keeps (Prog.get >>= f) := fun R s₀ =>
  Spec.get fun s _ => hf s R s₀

theorem ite {c : Prop} [Decidable c] {n : K α} (ht : Keeps m) (hf : Keeps n) :
    Keeps (if c then m else n) := fun R s₀ => Spec.ite (fun _ => ht R s₀) fun _ => hf R s₀

theorem modify {f : Kern → Kern} (hf : ∀ s, Core s (f s)) : Keeps (Prog.modify f) := fun _ _ =>
  Spec.modify fun s hs => hs.trans (hf s)

theorem halt {e : Halted} (he : Fine e) : Keeps (Prog.halt e : K α) := fun _ _ => Spec.halt he

theorem each {f : α → K Unit} (hf : ∀ a, Keeps (f a)) (l : List α) : Keeps (Prog.each f l) :=
  fun R s₀ => Spec.each (fun a => hf a R s₀) l

/-- What depends only on the counted things stays true. -/
theorem spec {P : Kern → Prop} (hm : Keeps m) (hP : ∀ s s', Core s s' → P s → P s') :
    Spec R Fine P m fun _ => P := fun s hs =>
  (hm R s).post (fun _ s' hc => hP s s' hc hs) s (Core.refl s)

theorem acct (hm : Keeps m) {h : Fin 32 → ℤ} {g : Fin 64 → ℤ} {half : Half} :
    Spec R Fine (Acct h g half) m fun _ => Acct h g half := hm.spec fun _ _ hc ha => ha.core hc

end Keeps

/-! ## Functions that count nothing -/

theorem modInode_keeps (i : Fin 32) {f : MInode → MInode} (hf : ∀ x, (f x).count = x.count) :
    Keeps (modInode i f) := Keeps.modify fun s => core_setInode s i (hf _)

theorem core_disk (s : Kern) (d : ℕ → Disk) : Core s { s with disk := d } :=
  ⟨fun _ => rfl, fun _ => ⟨rfl, rfl⟩, fun _ => rfl, rfl, rfl, rfl⟩

theorem setBlock_keeps (d b : ℕ) (x : Block) : Keeps (setBlock d b x) := Keeps.modify fun s => core_disk s _

theorem setZmap_keeps (d j : ℕ) (v : Bool) : Keeps (setZmap d j v) := Keeps.modify fun s => core_disk s _

theorem setImap_keeps (d j : ℕ) (v : Bool) : Keeps (setImap d j v) := Keeps.modify fun s => core_disk s _

theorem setEntry_keeps (d : ℕ) (e : DirEntry) (v : ℕ) : Keeps (setEntry d e v) :=
  Keeps.modify fun s => core_disk s _

theorem modCount_keeps (d b : ℕ) (f : UInt8 → UInt8) : Keeps (modCount d b f) := Keeps.modify fun _ =>
  ⟨fun _ => rfl, fun _ => ⟨rfl, rfl⟩, fun _ => rfl, rfl, rfl, rfl⟩

theorem bread_keeps (d b : ℕ) : Keeps (bread d b) :=
  Keeps.ite (Keeps.pure _) ((modCount_keeps d b _).bind fun _ => Keeps.pure _)

theorem brelse_keeps (d b : ℕ) : Keeps (brelse d b) :=
  Keeps.get fun _ => Keeps.ite (Keeps.halt (by decide)) (modCount_keeps d b _)

theorem brelseOpt_keeps (d : ℕ) (b : Option ℕ) : Keeps (brelseOpt d b) := by
  cases b with
  | none => exact Keeps.pure _
  | some b => exact brelse_keeps d b

theorem getSuper_keeps (d : ℕ) : Keeps (getSuper d) := Keeps.get fun _ => Keeps.pure _

theorem freeBlock_keeps (d b : ℕ) : Keeps (freeBlock d b) := by
  refine (getSuper_keeps d).bind fun k => ?_
  cases k with
  | none => exact Keeps.halt (by decide)
  | some k =>
    refine Keeps.get fun s => Keeps.ite (Keeps.halt (by decide)) ?_
    refine Keeps.ite (modCount_keeps d b _) ?_
    exact Keeps.ite (setZmap_keeps d _ _) (Keeps.halt (by decide))

theorem newBlock_keeps (d : ℕ) : Keeps (newBlock d) := by
  refine (getSuper_keeps d).bind fun k => ?_
  cases k with
  | none => exact Keeps.halt (by decide)
  | some k =>
    refine Keeps.get fun s => ?_
    cases firstZero (s.disk d).zmap 0 (mapBits (s.super k).zmapBlocks) with
    | none => exact Keeps.pure _
    | some j =>
      refine (setZmap_keeps d j true).bind fun _ => Keeps.ite (Keeps.pure _) ?_
      refine Keeps.ite (Keeps.halt (by decide)) ?_
      exact (setBlock_keeps d _ _).bind fun _ => Keeps.pure _

theorem zoneSlot_keeps (i : Fin 32) (k : ℕ) (create : Bool) : Keeps (zoneSlot i k create) := by
  refine Keeps.get fun s => Keeps.ite ((newBlock_keeps _).bind fun z => ?_) (Keeps.pure _)
  refine Keeps.ite (Keeps.pure _) (Keeps.bind ?_ fun _ => Keeps.pure _)
  exact modInode_keeps i fun _ => rfl

theorem indSlot_keeps (d b k : ℕ) (create : Bool) : Keeps (indSlot d b k create) := by
  refine (bread_keeps d b).bind fun ok => Keeps.ite (Keeps.get fun s => ?_) (Keeps.pure _)
  have hdone : ∀ z : ℕ, Keeps (do brelse d b; return z : K ℕ) := fun z =>
    (brelse_keeps d b).bind fun _ => Keeps.pure _
  refine Keeps.ite ((newBlock_keeps d).bind fun z => Keeps.ite (hdone 0) ?_) (hdone _)
  exact Keeps.get fun s => (setBlock_keeps d b _).bind fun _ => hdone z

theorem bmapCreate_keeps (i : Fin 32) (block : ℕ) (create : Bool) : Keeps (bmapCreate i block create) := by
  refine Keeps.get fun s => Keeps.ite (Keeps.halt (by decide)) ?_
  refine Keeps.ite (zoneSlot_keeps i block create) (Keeps.ite ?_ ?_)
  · refine (zoneSlot_keeps i 7 create).bind fun ind => ?_
    exact Keeps.ite (Keeps.pure _) (indSlot_keeps _ _ _ _)
  · refine (zoneSlot_keeps i 8 create).bind fun dind => Keeps.ite (Keeps.pure _) ?_
    refine (indSlot_keeps _ _ _ _).bind fun ind => ?_
    exact Keeps.ite (Keeps.pure _) (indSlot_keeps _ _ _ _)

theorem freeEntries_keeps (d b : ℕ) {free : ℕ → K Unit} (hf : ∀ z, Keeps (free z)) :
    Keeps (freeEntries d b free) := by
  unfold freeEntries
  refine Keeps.ite (Keeps.pure _) ((bread_keeps d b).bind fun ok => ?_)
  dsimp only
  refine Keeps.ite ?_ (freeBlock_keeps d b)
  generalize List.range 512 = l
  refine Keeps.bind ?_ ?_
  · apply Keeps.each
    intro k
    exact Keeps.get fun s => Keeps.ite (Keeps.pure _) (hf _)
  · exact fun _ => (brelse_keeps d b).bind fun _ => freeBlock_keeps d b

theorem truncate_keeps (i : Fin 32) : Keeps (truncate i) := by
  have hind : ∀ d b, Keeps (freeInd d b) := fun d b => freeEntries_keeps d b (freeBlock_keeps d)
  refine Keeps.get fun s => Keeps.ite (Keeps.pure _) ?_
  refine Keeps.bind (Keeps.each (fun k => ?_) (List.range 7)) fun _ => ?_
  · refine Keeps.get fun s => Keeps.ite (Keeps.pure _) ((freeBlock_keeps _ _).bind fun _ => ?_)
    exact modInode_keeps i fun _ => rfl
  · refine Keeps.get fun s => (hind _ _).bind fun _ => (freeEntries_keeps _ _ (hind _)).bind fun _ => ?_
    exact modInode_keeps i fun _ => rfl

theorem writeInode_keeps (i : Fin 32) : Keeps (writeInode i) := by
  refine Keeps.get fun s => Keeps.ite (Keeps.pure _) ((getSuper_keeps _).bind fun k => ?_)
  cases k with
  | none => exact Keeps.halt (by decide)
  | some k =>
    exact (Keeps.modify fun s => core_disk s _).bind fun _ => modInode_keeps i fun _ => rfl

theorem readInode_keeps (i : Fin 32) : Keeps (readInode i) := by
  refine Keeps.get fun s => (getSuper_keeps _).bind fun k => ?_
  cases k with
  | none => exact Keeps.halt (by decide)
  | some k => exact modInode_keeps i fun _ => rfl

/-! ## Taking and releasing an inode -/

variable {h : Fin 32 → ℤ} {g : Fin 64 → ℤ} {half : Half} {i : Fin 32}

def oneOpt : Option (Fin 32) → Fin 32 → ℤ
  | none => 0
  | some i => one i

theorem oneOpt_apply (p : Option (Fin 32)) (i : Fin 32) : oneOpt p i = (ptr p i : ℤ) := by
  cases p with
  | none => rfl
  | some j =>
    by_cases hj : j = i
    · simp [oneOpt, one, ptr, hj]
    · simp [oneOpt, one, ptr, hj, Ne.symm hj]

theorem modInode_acct (i : Fin 32) {f : MInode → MInode} (hf : ∀ x, (f x).count = x.count) :
    Spec R Fine (Acct h g half) (modInode i f) fun _ => Acct h g half := (modInode_keeps i hf).acct

/-- There is room for one more reference to each inode. -/
theorem Acct.count_lt (ha : Acct h g half s) (hi : h i ≤ 1000) : (s.inode i).count + 10 < 65536 := by
  have h1 := ha.inode i
  have h2 := inodeRefs_le s half.files i
  omega

theorem incCount_spec (i : Fin 32) (hi : h i ≤ 1000) :
    Spec R Fine (Acct h g half) (incCount i) fun _ => Acct (h + one i) g half := by
  refine Spec.modify fun s hs => ?_
  have h1 := hs.count_lt hi
  have h2 := hs.inode i
  refine hs.setInode (Nat.mod_lt _ (by decide)) ?_ fun j hj => ?_
  · dsimp only
    rw [Nat.mod_eq_of_lt (by omega), Pi.add_apply, one_self]
    push_cast
    omega
  · simp [one, hj]

/-- One reference less, held or owed. -/
theorem Acct.release (ha : Acct h g half s) {x : MInode} (hx : x.count + 1 = (s.inode i).count) :
    Acct (h - one i) g half (s.setInode i x) := by
  have h1 := ha.inode i
  have h2 := ha.word i
  refine ha.setInode (by omega) ?_ fun j hj => ?_
  · rw [Pi.sub_apply, one_self]
    omega
  · simp [one, hj]

theorem decCount_spec (i : Fin 32) : Spec R Fine (fun s => Acct h g half s ∧ 0 < (s.inode i).count)
    (decCount i) fun _ => Acct (h - one i) g half := by
  refine Spec.modify fun s hs => hs.1.release ?_
  have h1 := hs.1.word i
  have h2 := hs.2
  change ((s.inode i).count + 65535) % 65536 + 1 = _
  omega

theorem freeInode_spec (i : Fin 32) : Spec R Fine (fun s => Acct h g half s ∧ (s.inode i).count = 1)
    (freeInode i) fun _ => Acct (h - one i) g half := by
  have hzero : Spec R Fine (fun s => Acct h g half s ∧ (s.inode i).count = 1)
      (modInode i fun _ => MInode.zero) fun _ => Acct (h - one i) g half :=
    Spec.modify fun s hs => hs.1.release hs.2.symm
  have hcore : ∀ s s', Core s s' → Acct h g half s ∧ (s.inode i).count = 1 →
      Acct h g half s' ∧ (s'.inode i).count = 1 := fun s s' hc hs =>
    ⟨hs.1.core hc, (hc.inode i).trans hs.2⟩
  have hpanic : ∀ {msg : String}, Fine (.panic msg) → Spec R Fine
      (fun s => Acct h g half s ∧ (s.inode i).count = 1) (panic msg : K Unit)
      fun _ => Acct (h - one i) g half := fun hf => Spec.halt hf
  refine Spec.get fun s _ => Spec.ite (fun _ => hzero) fun _ => ?_
  refine Spec.ite (fun _ => hpanic (by decide)) fun _ => Spec.ite (fun _ => hpanic (by decide)) fun _ => ?_
  refine ((getSuper_keeps _).spec hcore).bind fun k => ?_
  cases k with
  | none => exact hpanic (by decide)
  | some k =>
    refine Spec.ite (fun _ => hpanic (by decide)) fun _ => Spec.ite (fun _ => hpanic (by decide)) fun _ => ?_
    exact ((setImap_keeps _ _ _).spec hcore).bind fun _ => hzero

/-- `iput` of a reference that is held or about to be dropped from a table. -/
theorem iput_counted (i : Fin 32) : Spec R Fine (fun s => Acct h g half s ∧ 0 < (s.inode i).count)
    (iput (some i)) fun _ => Acct (h - one i) g half := by
  refine Spec.get_bind fun s hs => ?_
  have hdec : Spec R Fine (fun s' => s' = s) (decCount i) fun _ => Acct (h - one i) g half :=
    (decCount_spec i).pre fun s' hs' => by rw [hs']; exact hs
  refine Spec.ite (fun h0 => absurd h0 hs.2.ne') fun _ => ?_
  refine Spec.ite (fun _ => Spec.ite (fun h1 => ?_) fun _ => hdec) fun _ => ?_
  · refine Spec.modify fun s' hs' => ?_
    rw [hs']
    exact hs.1.release h1.symm
  refine Spec.ite (fun _ => hdec) fun _ => Spec.ite (fun _ => hdec) fun h1 => ?_
  have hone : (s.inode i).count = 1 := by
    have := hs.2
    omega
  refine Spec.ite (fun _ => ?_) fun _ => Spec.ite (fun _ => ?_) fun _ => hdec
  · have ht : Spec R Fine (fun s => Acct h g half s ∧ (s.inode i).count = 1) (truncate i) fun _ s =>
        Acct h g half s ∧ (s.inode i).count = 1 :=
      (truncate_keeps i).spec fun _ _ hc hs => ⟨hs.1.core hc, (hc.inode i).trans hs.2⟩
    exact (ht.pre fun s' hs' => by rw [hs']; exact ⟨hs.1, hone⟩).bind fun _ => freeInode_spec i
  · have hw : Spec R Fine (fun s => Acct h g half s ∧ 0 < (s.inode i).count) (writeInode i) fun _ s =>
        Acct h g half s ∧ 0 < (s.inode i).count :=
      (writeInode_keeps i).spec fun _ _ hc hs => ⟨hs.1.core hc, by rw [hc.inode]; exact hs.2⟩
    exact (hw.pre fun s' hs' => by rw [hs']; exact hs).bind fun _ => decCount_spec i

/-- `iput` of a reference the call holds. -/
theorem iput_held (i : Fin 32) (hi : 0 ≤ h i) :
    Spec R Fine (Acct (h + one i) g half) (iput (some i)) fun _ => Acct h g half := by
  refine (iput_counted i).conseq (fun s hs => ⟨hs, ?_⟩) fun _ s hs => ?_
  · have h1 := hs.inode i
    rw [Pi.add_apply, one_self] at h1
    omega
  · simpa using hs

/-- The tables but for inodes. -/
structure Same (s s' : Kern) : Prop where
  task : s'.task = s.task
  current : s'.current = s.current
  super : s'.super = s.super
  rootDev : s'.rootDev = s.rootDev

theorem Same.refl (s : Kern) : Same s s := ⟨rfl, rfl, rfl, rfl⟩

theorem Same.trans {s s' s'' : Kern} (h : Same s s') (h' : Same s' s'') : Same s s'' :=
  ⟨h'.task.trans h.task, h'.current.trans h.current, h'.super.trans h.super, h'.rootDev.trans h.rootDev⟩

theorem Same.cur {s s' : Kern} (h : Same s s') : s'.cur = s.cur := by
  unfold Kern.cur
  rw [h.task, h.current]

theorem Core.same {s s' : Kern} (h : Core s s') : Same s s' := ⟨funext h.task, h.current, h.super, h.rootDev⟩

/-- The program changes nothing but inodes. -/
def Sames (m : K α) : Prop := ∀ s₀, Spec (fun _ => True) (fun _ => True) (Same s₀) m fun _ => Same s₀

namespace Sames

variable {m : K α} {f : α → K β}

theorem pure (a : α) : Sames (Pure.pure a : K α) := fun _ => Spec.pure fun _ hs => hs

theorem bind (hm : Sames m) (hf : ∀ a, Sames (f a)) : Sames (m >>= f) := fun s₀ => (hm s₀).bind fun a => hf a s₀

theorem get {f : Kern → K β} (hf : ∀ s, Sames (f s)) : Sames (Prog.get >>= f) := fun s₀ =>
  Spec.get fun s _ => hf s s₀

theorem ite {c : Prop} [Decidable c] {n : K α} (ht : Sames m) (hf : Sames n) : Sames (if c then m else n) :=
  fun s₀ => Spec.ite (fun _ => ht s₀) fun _ => hf s₀

theorem halt (e : Halted) : Sames (Prog.halt e : K α) := fun _ => Spec.halt trivial

theorem modInode (i : Fin 32) (f : MInode → MInode) : Sames (Fs.modInode i f) := fun _ =>
  Spec.modify fun _ hs => hs.trans ⟨rfl, rfl, rfl, rfl⟩

end Sames

theorem Keeps.same {m : K α} (hm : Keeps m) : Sames m := by
  intro s₀ s hs
  have h1 := hm (fun _ => True) s s (Core.refl s)
  cases he : m s with
  | ok a s' =>
    rw [he] at h1
    exact hs.trans h1.same
  | fault s' => trivial
  | stop e => trivial

theorem freeInode_same (i : Fin 32) : Sames (freeInode i) := by
  refine Sames.get fun s => Sames.ite (Sames.modInode i _) (Sames.ite (Sames.halt _) (Sames.ite (Sames.halt _) ?_))
  refine (getSuper_keeps _).same.bind fun k => ?_
  cases k with
  | none => exact Sames.halt _
  | some k =>
    refine Sames.ite (Sames.halt _) (Sames.ite (Sames.halt _) ?_)
    exact (setImap_keeps _ _ _).same.bind fun _ => Sames.modInode i _

theorem iput_same (p : Option (Fin 32)) : Sames (iput p) := by
  cases p with
  | none => exact Sames.pure _
  | some i =>
    have hdec : Sames (decCount i) := Sames.modInode i _
    refine Sames.get fun s => Sames.ite (Sames.halt _) (Sames.ite (Sames.ite (Sames.modInode i _) hdec) ?_)
    refine Sames.ite hdec (Sames.ite hdec (Sames.ite ?_ (Sames.ite ?_ hdec)))
    · exact (truncate_keeps i).same.bind fun _ => freeInode_same i
    · exact (writeInode_keeps i).same.bind fun _ => hdec

/-- `iput` of a pointer of the tables, which then has to go. -/
theorem iput_pointer (p : Option (Fin 32)) (s₀ : Kern) (hp : ∀ i ∈ p, 0 < (s₀.inode i).count) :
    Spec R Fine (fun s => s = s₀ ∧ Acct h g half s) (iput p) fun _ s => Acct (h - oneOpt p) g half s ∧ Same s₀ s := by
  cases p with
  | none =>
    refine Spec.pure fun s hs => ⟨by simpa [oneOpt] using hs.2, ?_⟩
    rw [hs.1]
    exact Same.refl s₀
  | some i =>
    refine ((iput_counted i).and (iput_same (some i) s₀)).pre fun s hs => ?_
    obtain ⟨rfl, ha⟩ := hs
    exact ⟨⟨ha, hp i rfl⟩, Same.refl s⟩

theorem iput_after {m : K β} {Q : β → Kern → Prop} (i : Fin 32) (hi : 0 ≤ h i)
    (hm : Spec R Fine (Acct h g half) m Q) :
    Spec R Fine (Acct (h + one i) g half) (iput (some i) >>= fun _ => m) Q :=
  (iput_held i hi).bind fun _ => hm

theorem iput_under {m : K β} {Q : β → Kern → Prop} (i j : Fin 32) (hi : 0 ≤ h i)
    (hm : Spec R Fine (Acct (h + one j) g half) m Q) :
    Spec R Fine (Acct (h + one i + one j) g half) (iput (some i) >>= fun _ => m) Q := by
  have hj := one_nonneg j i
  rw [add_right_comm]
  exact iput_after i (by rw [Pi.add_apply]; omega) hm

theorem scanEmpty_count (s : Kern) (n : ℕ) (last : Fin 32) {found : Option (Fin 32)}
    (hf : ∀ i ∈ found, (s.inode i).count = 0) : ∀ i ∈ (scanEmpty s n last found).1, (s.inode i).count = 0 := by
  induction n generalizing last found with
  | zero => exact hf
  | succ n ih =>
    unfold scanEmpty
    split_ifs with hc hd
    · refine ih (last + 1) fun i hi => ?_
      cases hi
      exact hc
    · intro i hi
      cases hi
      exact hc
    · exact ih (last + 1) hf

theorem getEmptyInode_spec : Spec R Fine (Acct h g half) getEmptyInode fun i s =>
    Acct (h + one i) g half s ∧ (s.inode i).count = 1 := by
  refine Spec.get_bind fun s hs => ?_
  have hfound : ∀ i ∈ (scanEmpty s 32 s.lastInode none).1, (s.inode i).count = 0 :=
    scanEmpty_count s 32 s.lastInode nofun
  generalize scanEmpty s 32 s.lastInode none = r at hfound
  have hmod : Spec R Fine (fun s' => s' = s) (Prog.modify fun s => { s with lastInode := r.2 }) fun _ => Core s :=
    Spec.modify fun s' hs' => by
      rw [hs']
      exact ⟨fun _ => rfl, fun _ => ⟨rfl, rfl⟩, fun _ => rfl, rfl, rfl, rfl⟩
  refine hmod.bind fun _ => ?_
  cases hr : r.1 with
  | none => exact Spec.halt (by decide)
  | some i =>
    have h0 := hfound i hr
    refine (writeInode_keeps i R s).bind fun _ => Spec.get fun s' _ => ?_
    refine Spec.ite (fun _ => Spec.halt (by decide)) fun _ => Spec.bind (M := fun _ s =>
      Acct (h + one i) g half s ∧ (s.inode i).count = 1) ?_ fun _ => Spec.pure fun _ hs => hs
    refine Spec.modify fun s'' hc => ⟨?_, ?_⟩
    · have ha := hs.core hc
      have h1 := ha.inode i
      rw [hc.inode, h0] at h1
      refine ha.setInode (show 1 < 65536 by decide) ?_ fun j hj => ?_
      · rw [Pi.add_apply, one_self]
        push_cast
        omega
      · simp [one, hj]
    · rw [Kern.setInode_self]

theorem getPipeInode_spec : Spec R Fine (Acct h g half) getPipeInode fun p =>
    Acct (h + oneOpt p + oneOpt p) g half := by
  refine getEmptyInode_spec.bind fun i => Spec.get fun s _ => Spec.ite (fun _ => ?_) fun _ => ?_
  · refine Spec.bind (M := fun _ => Acct (h + one i + one i) g half) ?_ fun _ => Spec.pure fun _ hs => hs
    refine Spec.modify fun s hs => ?_
    have h1 := hs.1.inode i
    have h2 := hs.2
    refine hs.1.setInode (show 2 < 65536 by decide) ?_ fun j hj => ?_
    · simp only [Pi.add_apply, one_self] at h1 ⊢
      push_cast
      omega
    · simp [one, hj]
  · refine Spec.bind (M := fun _ => Acct h g half) ?_ fun _ => Spec.pure fun _ hs => by simpa [oneOpt] using hs
    refine Spec.modify fun s hs => ?_
    have := hs.1.release (x := { s.inode i with count := 0 }) hs.2.symm
    simpa using this

theorem igetLoop_spec (hh : Mild 900 h) (empty : Fin 32) (n d nr : ℕ) :
    Spec R Fine (Acct (h + one empty) g half) (igetLoop empty n d nr) fun i => Acct (h + one i) g half := by
  induction n generalizing d nr with
  | zero => exact Spec.halt (by decide)
  | succ n ih =>
    refine Spec.get fun s _ => ?_
    cases incoreInode s d nr with
    | none =>
      refine Spec.bind (M := fun _ => Acct (h + one empty) g half) ?_ fun _ => ?_
      · exact modInode_acct empty fun _ => rfl
      · exact (readInode_keeps empty).acct.bind fun _ => Spec.pure fun _ hs => hs
    | some i =>
      have hend : Spec R Fine (Acct (h + one empty + one i) g half)
          (do iput (some empty); return i : K (Fin 32)) fun i => Acct (h + one i) g half := by
        exact iput_under empty i (hh empty).1 (Spec.pure fun _ hs => hs)
      refine (incCount_spec i (hh.add empty (show 900 + 1 ≤ 1000 by decide) i).2).bind fun _ => Spec.ite (fun _ => ?_) fun _ => hend
      cases (List.finRange 8).find? fun k => (s.super k).imount = some i with
      | none => exact hend
      | some k =>
        exact iput_after i ((hh.add empty le_rfl) i).1 (ih _ _)

theorem iget_spec (hh : Mild 900 h) (d nr : ℕ) :
    Spec R Fine (Acct h g half) (iget d nr) fun i => Acct (h + one i) g half := by
  refine Spec.ite (fun _ => Spec.halt (by decide)) fun _ => ?_
  exact getEmptyInode_spec.bind fun empty => (igetLoop_spec hh empty 9 d nr).pre fun _ hs => hs.1

theorem newInode_spec (hh : Mild 900 h) (d : ℕ) :
    Spec R Fine (Acct h g half) (newInode d) fun p => Acct (h + oneOpt p) g half := by
  refine getEmptyInode_spec.bind fun i => ?_
  have hcore : ∀ s s', Core s s' → Acct (h + one i) g half s ∧ (s.inode i).count = 1 →
      Acct (h + one i) g half s' ∧ (s'.inode i).count = 1 := fun s s' hc hs =>
    ⟨hs.1.core hc, (hc.inode i).trans hs.2⟩
  have hnone : Spec R Fine (fun s => Acct (h + one i) g half s ∧ (s.inode i).count = 1)
      (do iput (some i); return none : K (Option (Fin 32))) fun p => Acct (h + oneOpt p) g half := by
    refine Spec.pre (iput_after i (hh i).1 ?_) fun _ hs => hs.1
    exact Spec.pure fun _ hs => by simpa [oneOpt] using hs
  refine ((getSuper_keeps d).spec hcore).bind fun k => ?_
  cases k with
  | none => exact Spec.halt (by decide)
  | some k =>
    refine Spec.get fun s _ => ?_
    cases firstZero (s.disk d).imap 0 (mapBits (s.super k).imapBlocks) with
    | none => exact hnone
    | some j =>
      refine Spec.ite (fun _ => hnone) fun _ => ((setImap_keeps d j true).spec hcore).bind fun _ => ?_
      refine Spec.bind (M := fun _ => Acct (h + one i) g half) ?_ fun _ => Spec.pure fun _ hs => hs
      exact Spec.modify fun s hs => hs.1.core (core_setInode s i hs.2.symm)

/-! ## Super blocks -/

theorem getSuper_some {d : ℕ} {s : Kern} {k : Fin 8}
    (h : (if d = 0 then none else (List.finRange 8).find? fun k => (s.super k).dev = d) = some k) :
    d ≠ 0 ∧ (s.super k).dev = d := by
  split_ifs at h with h0
  exact ⟨h0, by simpa using List.find?_some h⟩

theorem putSuper_spec (d : ℕ) : Spec R Fine (Acct h g half) (putSuper d) fun _ => Acct h g half := by
  refine Spec.get_bind fun s hs => ?_
  have hdone : Spec R Fine (fun s' => s' = s) (pure () : K Unit) fun _ => Acct h g half :=
    Spec.pure fun s' hs' => by rw [hs']; exact hs
  refine Spec.ite (fun _ => hdone) fun hroot => ?_
  refine Spec.bind (M := fun p s' => s' = s ∧ ∀ k ∈ p, (s.super k).dev = d) ?_ fun k => ?_
  · refine Spec.get_bind fun s' hs' => Spec.pure fun s'' hs'' => ⟨hs''.trans hs', fun k hk => ?_⟩
    rw [hs'] at hk
    exact (getSuper_some hk).2
  cases k with
  | none => exact hdone.pre fun _ hs' => hs'.1
  | some k =>
    refine Spec.ite (fun _ => hdone.pre fun _ hs' => hs'.1) fun hm => Spec.modify fun s' hs' => ?_
    obtain ⟨rfl, hk⟩ := hs'
    -- the device is not the root, so there is no pointer to its root
    have hup : (s'.super k).isup = none := by
      by_contra hup
      exact hroot ((hk k rfl).symm.trans ((hs.mounts k).2 hup))
    exact hs.setSuper (fun _ => rfl) ⟨fun _ => ⟨hup, not_not.mp hm⟩, fun h => absurd hup h⟩

theorem invalidateInodes_keeps (d : ℕ) : Keeps (invalidateInodes d) := by
  refine Keeps.modify fun s => ⟨fun i => ?_, fun _ => ⟨rfl, rfl⟩, fun _ => rfl, rfl, rfl, rfl⟩
  dsimp only
  split_ifs <;> rfl

theorem checkDiskChange_spec (d : ℕ) : Spec R Fine (Acct h g half) (checkDiskChange d) fun _ => Acct h g half := by
  refine Spec.get fun s _ => Spec.ite (fun _ => Spec.pure fun _ hs => hs) fun _ => ?_
  refine Spec.bind (M := fun _ => Acct h g half) ?_ fun _ => (invalidateInodes_keeps d).acct
  exact Spec.each (fun k => Spec.get fun s _ => Spec.ite (fun _ => putSuper_spec d) fun _ => Spec.pure fun _ hs => hs) _

theorem readSuper_spec (d : ℕ) : Spec R Fine (Acct h g half) (readSuper d) fun p s =>
    Acct h g half s ∧ ∀ k ∈ p, (s.super k).dev = d ∧ d ≠ 0 := by
  refine Spec.ite (fun _ => Spec.pure fun _ hs => ⟨hs, nofun⟩) fun h0 => ?_
  refine (checkDiskChange_spec d).bind fun _ => ?_
  refine Spec.bind (M := fun p s => Acct h g half s ∧ ∀ k ∈ p, (s.super k).dev = d ∧ d ≠ 0) ?_ fun p => ?_
  · refine Spec.get_bind fun s hs => Spec.pure fun s' hs' => ?_
    rw [hs']
    exact ⟨hs, fun k hk => ⟨(getSuper_some hk).2, h0⟩⟩
  cases p with
  | some k => exact Spec.pure fun _ hs => hs
  | none =>
    refine Spec.get_bind fun s hs => ?_
    cases hk : (List.finRange 8).find? fun k => (s.super k).dev = 0 with
    | none => exact Spec.pure fun s' hs' => ⟨by rw [hs']; exact hs.1, nofun⟩
    | some k =>
      have hdev : (s.super k).dev = 0 := by simpa using List.find?_some hk
      have hnone := (hs.1.mounts k).1 hdev
      refine Spec.bind (M := fun _ s' => s' = s.setSuper k ⟨(s.disk d).super, d, none, none⟩) ?_ fun _ => ?_
      · exact Spec.modify fun s' hs' => by rw [hs']
      have ha : Acct h g half (s.setSuper k ⟨(s.disk d).super, d, none, none⟩) := by
        refine hs.1.setSuper (fun i => ?_) ⟨fun h => absurd h h0, nofun⟩
        simp [superRefs, hnone]
      refine Spec.ite (fun _ => ?_) fun _ => ?_
      · refine Spec.bind (M := fun _ => Acct h g half) ?_ fun _ => Spec.pure fun _ hs => ⟨hs, nofun⟩
        refine Spec.modify fun s' hs' => ?_
        rw [hs']
        refine ha.setSuper (fun i => ?_) ⟨fun _ => ?_, ?_⟩
        · simp [superRefs]
        · simp
        · simp
      · have hset : ∀ s', Core (s.setSuper k ⟨(s.disk d).super, d, none, none⟩) s' ∧ s'.super =
            (s.setSuper k ⟨(s.disk d).super, d, none, none⟩).super →
            Acct h g half s' ∧ ∀ k' ∈ some k, (s'.super k').dev = d ∧ d ≠ 0 := by
          intro s' hs'
          refine ⟨ha.core hs'.1, fun k' hk' => ?_⟩
          cases hk'
          rw [hs'.2, Kern.setSuper_self]
          exact ⟨rfl, h0⟩
        refine Spec.bind (M := fun _ s' => Core (s.setSuper k ⟨(s.disk d).super, d, none, none⟩) s' ∧
          s'.super = (s.setSuper k ⟨(s.disk d).super, d, none, none⟩).super) ?_ fun _ => ?_
        · refine Spec.modify fun s' hs' => ?_
          rw [hs']
          exact ⟨core_disk _ _, rfl⟩
        refine Spec.bind (M := fun _ s' => Core (s.setSuper k ⟨(s.disk d).super, d, none, none⟩) s' ∧
          s'.super = (s.setSuper k ⟨(s.disk d).super, d, none, none⟩).super) ?_ fun _ => Spec.pure hset
        exact Spec.modify fun s' hs' => ⟨hs'.1.trans (core_disk _ _), hs'.2⟩

end Linux011.Fs
