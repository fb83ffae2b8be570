/-
  A user access that faults in the middle of open, unlink, read or write ends the task: `do_exit`
  runs at that point. It knows the descriptors, pwd, root and executable of the task, and nothing
  of what the call has taken. `Clean` says which accesses find nothing taken; at all others the
  directory, the new inode or the buffer the call holds stays counted, or the inode that the
  entry of `file_table` had the last time is released.
-/
import Linux011.Fs.RefRuns
import Linux011.Fs.Bmap

namespace Linux011.Fs

open Linux011.Lib

/-! ## Buffers in do_exit -/

/-- No buffer is in use when its block is freed as an entry of the indirect block `z`, which is
    held meanwhile, and then `z` itself. -/
def CalmEntries (calm : (ℕ → ℕ → UInt8) → ℕ → Prop) (b : ℕ → ℕ → UInt8) (B : ℕ → ℕ → Block) (d z : ℕ) : Prop :=
  b d z = 0 ∧ ∀ k < 512, (B d z).word k ≠ 0 → calm (hold b d z) ((B d z).word k)

def CalmInd (b : ℕ → ℕ → UInt8) (B : ℕ → ℕ → Block) (d z : ℕ) : Prop := CalmEntries (fun b w => b d w = 0) b B d z

def CalmDind (b : ℕ → ℕ → UInt8) (B : ℕ → ℕ → Block) (d z : ℕ) : Prop := CalmEntries (fun b w => CalmInd b B d w) b B d z

/-- Truncation would meet no buffer that is in use. -/
structure CalmTree (b : ℕ → ℕ → UInt8) (B : ℕ → ℕ → Block) (d : ℕ) (zone : ℕ → ℕ) : Prop where
  direct : ∀ k < 7, zone k ≠ 0 → b d (zone k) = 0
  ind : zone 7 ≠ 0 → CalmInd b B d (zone 7)
  dind : zone 8 ≠ 0 → CalmDind b B d (zone 8)

/-- An inode on a device that has no links left is truncated with its last reference. -/
def CalmInode (b : ℕ → ℕ → UInt8) (B : ℕ → ℕ → Block) (x : MInode) : Prop :=
  x.dev ≠ 0 → x.nlinks = 0 → CalmTree b B x.dev x.zone

def Kern.blocks (s : Kern) : ℕ → ℕ → Block := fun d => (s.disk d).block

/-- The buffers, the contents of the blocks and the inodes. -/
structure Blocks (b : ℕ → ℕ → UInt8) (B : ℕ → ℕ → Block) (I : Fin 32 → MInode) (s : Kern) : Prop where
  bcount : s.bcount = b
  blocks : s.blocks = B
  inode : s.inode = I

structure Quiet (b : ℕ → ℕ → UInt8) (B : ℕ → ℕ → Block) (s : Kern) : Prop where
  bcount : s.bcount = b
  blocks : s.blocks = B
  calm : ∀ i, CalmInode b B (s.inode i)

/-- The partial correctness of what follows: faults and stops are not of interest. -/
def Leads {α : Type} (P : Kern → Prop) (m : K α) (Q : α → Kern → Prop) : Prop :=
  Spec (fun _ => True) (fun _ => True) P m Q

variable {b : ℕ → ℕ → UInt8} {B : ℕ → ℕ → Block} {I : Fin 32 → MInode} {s : Kern} {d : ℕ}

theorem hold_self (b : ℕ → ℕ → UInt8) (d z : ℕ) : hold b d z d z = b d z + 1 := by simp [hold]

theorem Kern.blocks_setDisk {x : Disk} (hx : x.block = (s.disk d).block) (hB : s.blocks = B) : (s.setDisk d x).blocks = B := by
  rw [← hB]
  funext d'
  by_cases hd : d' = d
  · subst hd
    simp [Kern.blocks, Kern.setDisk, hx]
  · simp [Kern.blocks, Kern.setDisk, hd]

theorem blocks_setZmap (j : ℕ) (v : Bool) : Leads (Blocks b B I) (setZmap d j v) fun _ => Blocks b B I :=
  Spec.modify fun _ hs => ⟨hs.bcount, Kern.blocks_setDisk rfl hs.blocks, hs.inode⟩

theorem getSuper_leads {P : Kern → Prop} (d : ℕ) : Leads P (getSuper d) fun _ => P :=
  Spec.get fun _ _ => Spec.pure fun _ hs => hs

theorem freeBlock_leads {z : ℕ} (hz : b d z = 0) : Leads (Blocks b B I) (freeBlock d z) fun _ => Blocks b B I := by
  refine (getSuper_leads d).bind fun k => ?_
  cases k with
  | none => exact Spec.halt trivial
  | some k =>
    refine Spec.get_bind fun s hs => Spec.ite (fun _ => Spec.halt trivial) fun _ => Spec.ite (fun hne => ?_) fun _ => ?_
    · exact absurd (by rw [hs.bcount, hz]) hne
    · refine Spec.ite (fun _ => ?_) fun _ => Spec.halt trivial
      exact (blocks_setZmap _ false).pre fun s' hs' => by rw [hs']; exact hs

theorem modCount_leads (z : ℕ) (f : UInt8 → UInt8) : Leads (Blocks b B I) (modCount d z f) fun _ =>
    Blocks (Function.update b d (Function.update (b d) z (f (b d z)))) B I :=
  Spec.modify fun s hs => ⟨by rw [hs.bcount], hs.blocks, hs.inode⟩

theorem bread_leads {z : ℕ} (hz : b d z = 0) : Leads (Blocks b B I) (bread d z) fun ok =>
    Blocks (if ok then hold b d z else b) B I := by
  refine Spec.ite (fun _ => Spec.pure fun _ hs => hs) fun _ => (modCount_leads z _).bind fun _ => ?_
  refine Spec.pure fun s hs => ?_
  simpa [hold, hz] using hs

theorem brelse_leads (z : ℕ) : Leads (Blocks (hold b d z) B I) (brelse d z) fun _ => Blocks b B I := by
  refine Spec.get fun s _ => Spec.ite (fun _ => Spec.halt trivial) fun _ => ?_
  refine (modCount_leads z _).post fun _ s hs => ?_
  simpa [hold] using hs

theorem freeEntries_leads {z : ℕ} {calm : (ℕ → ℕ → UInt8) → ℕ → Prop} {free : ℕ → K Unit}
    (hfree : ∀ b w, calm b w → Leads (Blocks b B I) (free w) fun _ => Blocks b B I) (hz : z ≠ 0 → CalmEntries calm b B d z) :
    Leads (Blocks b B I) (freeEntries d z free) fun _ => Blocks b B I := by
  unfold freeEntries
  refine Spec.ite (fun _ => Spec.pure fun _ hs => hs) fun h0 => ?_
  obtain ⟨hbz, hent⟩ := hz h0
  refine (bread_leads hbz).bind fun ok => ?_
  dsimp only
  refine Spec.ite (fun hok => ?_) fun hok => ?_
  · rw [if_pos hok]
    have hl : ∀ k ∈ List.range 512, k < 512 := fun k => List.mem_range.mp
    generalize List.range 512 = l at hl
    refine Spec.bind (Spec.each_mem l fun k hk => Spec.get fun s hs => ?_) fun _ => ?_
    · have hB : ((s.disk d).block z).word k = (B d z).word k := by rw [← hs.blocks]; rfl
      rw [hB]
      exact Spec.ite (fun _ => Spec.pure fun _ hs => hs) fun hne => hfree _ _ (hent k (hl k hk) hne)
    · exact (brelse_leads z).bind fun _ => freeBlock_leads hbz
  · rw [if_neg hok]
    exact freeBlock_leads hbz

theorem freeInd_leads {z : ℕ} (hz : z ≠ 0 → CalmInd b B d z) : Leads (Blocks b B I) (freeInd d z) fun _ => Blocks b B I :=
  freeEntries_leads (fun _ _ hw => freeBlock_leads hw) hz

theorem freeDind_leads {z : ℕ} (hz : z ≠ 0 → CalmDind b B d z) : Leads (Blocks b B I) (freeDind d z) fun _ => Blocks b B I :=
  freeEntries_leads (fun _ _ hw => freeInd_leads fun _ => hw) hz

/-- Zones only go. -/
def Fewer (zone zone' : ℕ → ℕ) : Prop := ∀ k, zone' k = zone k ∨ zone' k = 0

theorem CalmTree.fewer {zone zone' : ℕ → ℕ} (h : CalmTree b B d zone) (hz : Fewer zone zone') : CalmTree b B d zone' := by
  refine ⟨fun k hk hne => ?_, fun hne => ?_, fun hne => ?_⟩
  · have he := (hz k).resolve_right hne
    rw [he] at hne ⊢
    exact h.direct k hk hne
  · have he := (hz 7).resolve_right hne
    rw [he] at hne ⊢
    exact h.ind hne
  · have he := (hz 8).resolve_right hne
    rw [he] at hne ⊢
    exact h.dind hne

theorem CalmInode.of_eq {x y : MInode} (h : CalmInode b B x) (hd : y.dev = x.dev) (hn : y.nlinks = x.nlinks)
    (hz : Fewer x.zone y.zone) : CalmInode b B y := by
  intro h1 h2
  rw [hd] at h1 ⊢
  exact (h h1 (hn.symm.trans h2)).fewer hz

theorem modInode_quiet (i : Fin 32) {f : MInode → MInode} (hf : ∀ x, CalmInode b B x → CalmInode b B (f x)) :
    Leads (Quiet b B) (modInode i f) fun _ => Quiet b B := by
  refine Spec.modify fun s hs => ⟨hs.bcount, hs.blocks, fun j => ?_⟩
  by_cases hj : j = i
  · subst hj
    rw [Kern.setInode_self]
    exact hf _ (hs.calm j)
  · rw [Kern.setInode_ne _ hj]
    exact hs.calm j

theorem truncate_quiet (i : Fin 32) : Leads (fun s => Quiet b B s ∧ (s.inode i).dev ≠ 0 ∧ (s.inode i).nlinks = 0)
    (truncate i) fun _ => Quiet b B := by
  refine Spec.get_bind fun s hs => ?_
  obtain ⟨hq, hdev, hn⟩ := hs
  have htree := hq.calm i hdev hn
  refine Spec.ite (fun _ => Spec.pure fun s' hs' => by rw [hs']; exact hq) fun _ => ?_
  -- zones go one after the other; what is left of the tree is calm throughout
  let P : Kern → Prop := fun s' => Quiet b B s' ∧ (s'.inode i).dev = (s.inode i).dev ∧ (s'.inode i).nlinks = 0 ∧
    Fewer (s.inode i).zone (s'.inode i).zone
  have hfree : ∀ {m : K Unit}, (∀ I, Leads (Blocks b B I) m fun _ => Blocks b B I) → Leads P m fun _ => P := by
    intro m hm s' hs'
    refine (hm s'.inode).post (fun _ s'' hs'' => ?_) s' ⟨hs'.1.bcount, hs'.1.blocks, rfl⟩
    have hI : s''.inode = s'.inode := hs''.inode
    refine ⟨⟨hs''.bcount, hs''.blocks, fun j => ?_⟩, ?_⟩
    · rw [hI]
      exact hs'.1.calm j
    · rw [hI]
      exact hs'.2
  have hdrop : ∀ {f : MInode → MInode}, (∀ x, (f x).dev = x.dev ∧ (f x).nlinks = x.nlinks ∧ Fewer x.zone (f x).zone) →
      Leads P (modInode i f) fun _ => P := by
    intro f hf
    refine Spec.modify fun s' hs' => ?_
    obtain ⟨h1, h2, h3⟩ := hf (s'.inode i)
    have h4 := modInode_quiet (f := f) i (fun x hx => hx.of_eq (hf x).1 (hf x).2.1 (hf x).2.2) s' hs'.1
    refine ⟨h4, ?_, ?_, ?_⟩
    · rw [Kern.setInode_self, h1, hs'.2.1]
    · rw [Kern.setInode_self, h2, hs'.2.2.1]
    · rw [Kern.setInode_self]
      intro k
      obtain h5 | h5 := h3 k
      · rw [h5]
        exact hs'.2.2.2 k
      · exact .inr h5
  refine Spec.bind (M := fun _ => P) ?_ fun _ => ?_
  · refine Spec.pre (Spec.each_mem _ fun k hk => Spec.get_bind fun s1 hs1 => ?_) fun s' hs' => ?_
    · refine Spec.ite (fun _ => Spec.pure fun s' hs' => by rw [hs']; exact hs1) fun hne => ?_
      have hz : b (s.inode i).dev ((s1.inode i).zone k) = 0 :=
        (htree.fewer hs1.2.2.2).direct k (List.mem_range.mp hk) hne
      refine ((hfree fun I => freeBlock_leads hz).pre fun s' hs' => by rw [hs']; exact hs1).bind fun _ => ?_
      refine hdrop fun x => ⟨rfl, rfl, fun j => ?_⟩
      by_cases hj : j = k
      · exact .inr (by simp [hj])
      · exact .inl (by simp [hj])
    · rw [hs']
      exact ⟨hq, rfl, hn, fun _ => .inl rfl⟩
  refine Spec.get_bind fun s1 hs1 => ?_
  have ht1 := htree.fewer hs1.2.2.2
  refine ((hfree fun I => freeInd_leads ht1.ind).pre fun s' hs' => by rw [hs']; exact hs1).bind fun _ => ?_
  refine (hfree fun I => freeDind_leads ht1.dind).bind fun _ => ?_
  refine Spec.post (hdrop fun x => ⟨rfl, rfl, fun j => ?_⟩) fun _ _ hs => hs.1
  by_cases h8 : j = 8
  · exact .inr (by simp [h8])
  by_cases h7 : j = 7
  · exact .inr (by simp [h7])
  · exact .inl (by simp [h7, h8])

theorem Quiet.zero (i : Fin 32) : Leads (Quiet b B) (modInode i fun _ => MInode.zero) fun _ => Quiet b B :=
  modInode_quiet i fun _ _ h => absurd rfl h

theorem freeInode_quiet (i : Fin 32) : Leads (Quiet b B) (freeInode i) fun _ => Quiet b B := by
  refine Spec.get fun s _ => Spec.ite (fun _ => Quiet.zero i) fun _ => Spec.ite (fun _ => Spec.halt trivial) fun _ => ?_
  refine Spec.ite (fun _ => Spec.halt trivial) fun _ => (getSuper_leads _).bind fun k => ?_
  cases k with
  | none => exact Spec.halt trivial
  | some k =>
    refine Spec.ite (fun _ => Spec.halt trivial) fun _ => Spec.ite (fun _ => Spec.halt trivial) fun _ => ?_
    refine Spec.bind (M := fun _ => Quiet b B) (Spec.modify fun s hs => ?_) fun _ => Quiet.zero i
    exact ⟨hs.bcount, Kern.blocks_setDisk rfl hs.blocks, hs.calm⟩

/-- A change of the inode's other fields. -/
theorem modInode_aside (i : Fin 32) {f : MInode → MInode}
    (hf : ∀ x, (f x).dev = x.dev ∧ (f x).nlinks = x.nlinks ∧ (f x).zone = x.zone) :
    Leads (Quiet b B) (modInode i f) fun _ => Quiet b B :=
  modInode_quiet i fun x hx => hx.of_eq (hf x).1 (hf x).2.1 fun k => .inl (by rw [(hf x).2.2])

theorem writeInode_quiet (i : Fin 32) : Leads (Quiet b B) (writeInode i) fun _ => Quiet b B := by
  refine Spec.get fun s _ => Spec.ite (fun _ => Spec.pure fun _ hs => hs) fun _ => (getSuper_leads _).bind fun k => ?_
  cases k with
  | none => exact Spec.halt trivial
  | some k =>
    refine Spec.bind (M := fun _ => Quiet b B) (Spec.modify fun s hs => ?_) fun _ => ?_
    · exact ⟨hs.bcount, Kern.blocks_setDisk rfl hs.blocks, hs.calm⟩
    · exact modInode_aside i fun _ => ⟨rfl, rfl, rfl⟩

theorem iput_quiet (p : Option (Fin 32)) : Leads (Quiet b B) (iput p) fun _ => Quiet b B := by
  cases p with
  | none => exact Spec.pure fun _ hs => hs
  | some i =>
    refine Spec.get_bind fun s hs => ?_
    have hat : ∀ {m : K Unit}, Leads (Quiet b B) m (fun _ => Quiet b B) → Leads (fun s' => s' = s) m fun _ => Quiet b B :=
      fun hm => hm.pre fun s' hs' => by rw [hs']; exact hs
    have hdec : Leads (Quiet b B) (decCount i) fun _ => Quiet b B := modInode_aside i fun _ => ⟨rfl, rfl, rfl⟩
    refine Spec.ite (fun _ => Spec.halt trivial) fun _ => Spec.ite (fun _ => ?_) fun _ => ?_
    · exact Spec.ite (fun _ => hat (modInode_aside i fun _ => ⟨rfl, rfl, rfl⟩)) fun _ => hat hdec
    refine Spec.ite (fun _ => hat hdec) fun hdev => Spec.ite (fun _ => hat hdec) fun _ => ?_
    refine Spec.ite (fun hn => ?_) fun _ => Spec.ite (fun _ => ?_) fun _ => hat hdec
    · refine Spec.bind ((truncate_quiet i).pre fun s' hs' => ?_) fun _ => freeInode_quiet i
      rw [hs']
      exact ⟨hs, hdev, hn⟩
    · exact hat (Spec.bind (writeInode_quiet i) fun _ => hdec)

theorem modTask_quiet (f : Task → Task) : Leads (Quiet b B) (modTask f) fun _ => Quiet b B :=
  Spec.modify fun _ hs => ⟨hs.bcount, hs.blocks, hs.calm⟩

theorem sysClose_quiet (fd : ℕ) : Leads (Quiet b B) (sysClose fd) fun _ => Quiet b B := by
  have hdone : ∀ r : ℤ, Leads (Quiet b B) (pure r : K ℤ) fun _ => Quiet b B := fun r => Spec.pure fun _ hs => hs
  unfold sysClose
  split_ifs with hfd
  · refine Spec.bind (M := fun _ => Quiet b B) (modTask_quiet _) fun _ => Spec.get fun s _ => ?_
    cases s.cur.filp ⟨fd, hfd⟩ with
    | none => exact hdone _
    | some f =>
      refine Spec.bind (M := fun _ => Quiet b B) (modTask_quiet _) fun _ => Spec.get fun s _ => ?_
      refine Spec.ite (fun _ => Spec.halt trivial) fun _ => Spec.bind (M := fun _ => Quiet b B) ?_ fun _ => ?_
      · exact Spec.modify fun _ hs => ⟨hs.bcount, hs.blocks, hs.calm⟩
      · dsimp only
        exact Spec.ite (fun _ => Spec.bind (iput_quiet _) fun _ => hdone _) fun _ => hdone _
  · exact hdone _

theorem doExit_quiet : Leads (Quiet b B) doExit fun _ => Quiet b B := by
  refine Spec.bind (M := fun _ => Quiet b B) (Spec.each (fun fd => Spec.get fun s _ => ?_) _) fun _ => ?_
  · cases s.cur.filp fd with
    | none => exact Spec.pure fun _ hs => hs
    | some f => exact Spec.bind (sysClose_quiet fd.val) fun _ => Spec.pure fun _ hs => hs
  refine Spec.get fun s _ => Spec.bind (iput_quiet _) fun _ => Spec.bind (modTask_quiet _) fun _ => ?_
  refine Spec.get fun s _ => Spec.bind (iput_quiet _) fun _ => Spec.bind (modTask_quiet _) fun _ => ?_
  exact Spec.get fun s _ => Spec.bind (iput_quiet _) fun _ => modTask_quiet _

/-! ## Accesses with nothing held -/

/-- The first access of a path is the one that faults. -/
theorem getDir_first {R : Kern → Prop} (path : List UInt8) : Spec R (fun _ => True)
    (fun s => s.env.access = some 0 ∧ R s) (getDir path) fun _ _ => False := by
  refine Spec.get fun s _ => ?_
  cases inUse s s.cur.root with
  | none => exact Spec.halt trivial
  | some root =>
    cases inUse s s.cur.pwd with
    | none => exact Spec.halt trivial
    | some pwd =>
      refine Spec.bind (M := fun _ _ => False) ?_ fun _ s' hs' => hs'.elim
      intro s' hs'
      unfold access
      rw [hs'.1]
      exact hs'.2

theorem dirNamei_first {R : Kern → Prop} (path : List UInt8) : Spec R (fun _ => True)
    (fun s => s.env.access = some 0 ∧ R s) (dirNamei path) fun _ _ => False :=
  (getDir_first path).bind fun _ _ hs => hs.elim

theorem openNamei_first {R : Kern → Prop} (path : List UInt8) (flag mode : ℕ) : Spec R (fun _ => True)
    (fun s => s.env.access = some 0 ∧ R s) (openNamei path flag mode) fun _ _ => False :=
  (dirNamei_first path).bind fun _ _ hs => hs.elim

theorem sysUnlink_first {R : Kern → Prop} (path : List UInt8) : Spec R (fun _ => True)
    (fun s => s.env.access = some 0 ∧ R s) (sysUnlink path) fun _ _ => False :=
  Spec.bind (M := fun _ _ => False) ((dirNamei_first path).bind fun _ _ hs => hs.elim) fun _ _ hs => hs.elim

/-- An entry without an inode counts the same before and after it is set up. -/
theorem Acct.fill {h : Fin 32 → ℤ} {g : Fin 64 → ℤ} {f : Fin 64} {l : List (Fin 20 × Fin 64)}
    (ha : Acct h g ⟨{f}, l⟩ s) (hi : (s.file f).inode = none) : Acct h g .none s := by
  refine { ha.unpin with inode := fun i => ?_, fds := nofun }
  have h1 : ∀ f', fileRefs ∅ i f' (s.file f') = fileRefs {f} i f' (s.file f') := by
    intro f'
    by_cases hf : f' = f
    · subst hf
      simp [fileRefs, hi, ptr]
    · simp [fileRefs, hf]
  have h2 : inodeRefs s ∅ i = inodeRefs s {f} i := by
    unfold inodeRefs
    simp only [h1]
  change _ = (inodeRefs s ∅ i : ℤ) + h i
  rw [h2]
  exact ha.inode i

theorem sysOpen_first {path : List UInt8} {flag mode : ℕ} (hs : Acct 0 0 .none s) (h0 : s.env.access = some 0)
    (hq : Quiet b B s) (hf : ∀ f, freeFile s = some f → (s.file f).inode = none) :
    Spec (fun s' => Acct 0 0 .none s' ∧ Quiet b B s') (fun _ => True) (fun s' => s' = s) (sysOpen path flag mode)
      fun _ _ => True := by
  refine Spec.get_bind fun s' hs' => ?_
  rw [hs']
  cases hfd : freeFd s with
  | none => exact Spec.pure fun _ _ => trivial
  | some fd =>
    have hfree : s.cur.filp fd = none := by simpa using List.find?_some hfd
    refine Spec.bind (M := fun _ s' => Acct 0 0 .none s' ∧ s'.cur.filp fd = none ∧ s'.file = s.file ∧
      s'.env.access = some 0 ∧ Quiet b B s') (Spec.modify fun s' hs' => ?_) fun _ => ?_
    · rw [hs']
      refine ⟨hs.setCur hs.live (.inl rfl) (fun _ => rfl) fun _ => rfl, ?_, rfl, h0, hq.bcount, hq.blocks, hq.calm⟩
      change ((s.setTask s.current _).task s.current).filp fd = none
      rw [Kern.setTask_self]
      exact hfree
    cases hff : freeFile s with
    | none => exact Spec.pure fun _ _ => trivial
    | some f =>
      have hcount : (s.file f).count = 0 := by simpa using List.find?_some hff
      refine Spec.assoc (Spec.bind (M := fun _ s' => s'.env.access = some 0 ∧ Acct 0 0 .none s' ∧ Quiet b B s') ?_ fun _ =>
        Spec.bind (openNamei_first path flag mode) fun _ _ hs' => hs'.elim)
      intro s1 hs1
      obtain ⟨ha, hnone, hfile, hacc, hq1⟩ := hs1
      have h1 := setFilp_new (R := fun _ => True) rfl fd f s1 ⟨ha, hnone⟩
      have h2 := incFCount_first (R := fun _ => True) fd f _ ⟨h1, rfl, by rw [filp_setFilp, if_pos rfl], by
        change (s1.file f).count = 0
        rw [hfile, hcount]⟩
      refine ⟨hacc, Acct.fill h2 ?_, hq1.bcount, hq1.blocks, hq1.calm⟩
      change ((Kern.setFile _ f _).file f).inode = none
      rw [Kern.setFile_self]
      change (s1.file f).inode = none
      rw [hfile]
      exact hf f hff

/-! ## Reading a hole -/

variable {R : Kern → Prop}

/-- In the middle of a read: `m` accesses until the fault, and the position reached. -/
structure Reading (s₀ : Kern) (b : ℕ → ℕ → UInt8) (f : Fin 64) (m pos : ℕ) (s : Kern) : Prop where
  core : Core s₀ s
  inode : s.inode = s₀.inode
  disk : s.disk = s₀.disk
  bcount : s.bcount = b
  access : s.env.access = some m
  pos : (s.file f).pos = pos

variable {s₀ : Kern} {f : Fin 64} {m pos : ℕ}

theorem access_reading : Spec (fun s => m = 0 ∧ Reading s₀ b f m pos s) (fun _ => True) (Reading s₀ b f m pos) access
    fun _ s => 0 < m ∧ Reading s₀ b f (m - 1) pos s := by
  intro s hs
  unfold access
  rw [hs.access]
  cases m with
  | zero => exact ⟨rfl, hs⟩
  | succ m =>
    refine ⟨Nat.succ_pos m, hs.core.trans ⟨fun _ => rfl, fun _ => ⟨rfl, rfl⟩, fun _ => rfl, rfl, rfl, rfl⟩,
      hs.inode, hs.disk, hs.bcount, rfl, hs.pos⟩

theorem putBytes_reading (l : List UInt8) : Spec (fun s => m < l.length ∧ Reading s₀ b f 0 pos s) (fun _ => True)
    (Reading s₀ b f m pos) (putBytes l) fun _ s => l.length ≤ m ∧ Reading s₀ b f (m - l.length) pos s := by
  induction l generalizing m with
  | nil => exact Spec.pure fun s hs => ⟨Nat.zero_le m, hs⟩
  | cons x l ih =>
    refine Spec.bind (access_reading.fault fun s hs => ?_) fun _ => Spec.of_fact fun hm => ?_
    · obtain ⟨rfl, hs⟩ := hs
      exact ⟨Nat.succ_pos _, hs⟩
    · refine (ih.fault fun s hs => ?_).post fun _ s hs => ?_
      · refine ⟨?_, hs.2⟩
        have := hs.1
        rw [List.length_cons]
        omega
      · rw [List.length_cons]
        refine ⟨by omega, ?_⟩
        have he : m - (l.length + 1) = m - 1 - l.length := by omega
        rw [he]
        exact hs.2

theorem modPos_reading {n : ℕ} : Spec R (fun _ => True) (Reading s₀ b f m pos) (modFile f fun x => { x with pos := x.pos + n })
    fun _ => Reading s₀ b f m (pos + n) := by
  refine Spec.modify fun s hs => ⟨hs.core.trans ⟨fun _ => rfl, fun f' => ?_, fun _ => rfl, rfl, rfl, rfl⟩, hs.inode, hs.disk,
    hs.bcount, hs.access, ?_⟩
  · by_cases hf : f' = f
    · subst hf
      rw [Kern.setFile_self]
      exact ⟨rfl, rfl⟩
    · rw [Kern.setFile_ne _ hf]
      exact ⟨rfl, rfl⟩
  · rw [Kern.setFile_self]
    dsimp only
    rw [hs.pos]

/-- The byte whose access faults lies in a hole: no buffer is held there. -/
theorem readLoop_hole {i : Fin 32} {at₀ : ℕ} (hhole : bmapZone s₀ i (at₀ / 1024) = 0) (n left m pos : ℕ)
    (hat : pos + m = at₀) : Spec (fun s => ∃ pos, Reading s₀ s₀.bcount f 0 pos s) (fun _ => True)
      (Reading s₀ s₀.bcount f m pos) (readLoop i f n left) fun _ _ => True := by
  induction n generalizing left m pos with
  | zero => exact Spec.pure fun _ _ => trivial
  | succ n ih =>
    refine Spec.ite (fun _ => Spec.pure fun _ _ => trivial) fun _ => Spec.get_bind fun s hs => ?_
    have hzone : ∀ k, bmapZone s i k = bmapZone s₀ i k := by
      intro k
      unfold bmapZone indZone
      rw [hs.inode, hs.disk]
    have hrest : ∀ chars m' (l : List UInt8), pos + chars + m' = at₀ → Spec (fun s => ∃ pos, Reading s₀ s₀.bcount f 0 pos s) (fun _ => True)
        (Reading s₀ s₀.bcount f m' (pos + chars)) (do
          let rest ← readLoop i f n (left - chars)
          return l ++ rest : K (List UInt8)) fun _ _ => True := fun chars m' l hm' =>
      (ih _ m' _ hm').bind fun _ => Spec.pure fun _ _ => trivial
    rw [hs.pos]
    refine Spec.bind (M := fun z s' => z = bmapZone s i (pos / 1024) ∧ s' = s) ((bmap_exact s i _).post fun _ _ hs' => hs'.symm)
      fun z => Spec.of_fact fun hz => ?_
    refine Spec.ite (fun h0 => ?_) fun h0 => ?_
    · refine (modPos_reading.pre fun s' hs' => by rw [hs']; exact hs).bind fun _ => ?_
      refine Spec.bind ((putBytes_reading _).fault fun s' hs' => ⟨_, hs'.2⟩) fun _ => Spec.of_fact fun hm => ?_
      refine hrest _ _ _ ?_
      rw [List.length_replicate] at hm ⊢
      omega
    · -- the whole piece is copied before the fault, or it would be in this block
      have hm : min (1024 - pos % 1024) left ≤ m := by
        by_contra hlt
        have he : at₀ / 1024 = pos / 1024 := by omega
        exact h0 (by rw [hz, hzone, ← he, hhole])
      by_cases hd : (s.inode i).dev = 0
      · refine Spec.bind (M := fun ok s' => ok = false ∧ s' = s) ?_ fun ok => Spec.of_fact fun hok => ?_
        · exact Spec.ite (fun _ => Spec.pure fun s' hs' => ⟨rfl, hs'⟩) fun hne => absurd hd hne
        · rw [hok]
          exact Spec.pure fun _ _ => trivial
      · refine Spec.bind (M := fun ok s' => ok = true ∧ Reading s₀ (hold s₀.bcount (s.inode i).dev z) f m pos s') ?_ fun ok => Spec.of_fact fun hok => ?_
        · refine Spec.ite (fun h => absurd h hd) fun _ => Spec.bind
            (M := fun _ => Reading s₀ (hold s₀.bcount (s.inode i).dev z) f m pos) (Spec.modify fun s' hs' => ?_) fun _ =>
              Spec.pure fun s' hs' => ⟨rfl, hs'⟩
          rw [hs']
          refine ⟨hs.core.trans ⟨fun _ => rfl, fun _ => ⟨rfl, rfl⟩, fun _ => rfl, rfl, rfl, rfl⟩, hs.inode, hs.disk, ?_, hs.access, hs.pos⟩
          rw [hs.bcount]
          rfl
        rw [hok]
        refine modPos_reading.bind fun _ => Spec.get fun s1 _ => ?_
        refine Spec.bind ((putBytes_reading _).fault fun s' hs' => ?_) fun _ => Spec.of_fact fun _ => ?_
        · exfalso
          have := hs'.1
          rw [List.length_map, List.length_range] at this
          omega
        refine Spec.bind (M := fun _ => Reading s₀ s₀.bcount f (m - min (1024 - pos % 1024) left)
          (pos + min (1024 - pos % 1024) left)) ?_ fun _ => hrest _ _ _ (by omega)
        refine Spec.get fun s' _ => Spec.ite (fun _ => Spec.halt trivial) fun _ => Spec.modify fun s' hs' => ?_
        refine ⟨hs'.core.trans ⟨fun _ => rfl, fun _ => ⟨rfl, rfl⟩, fun _ => rfl, rfl, rfl, rfl⟩, hs'.inode, hs'.disk, ?_, ?_, hs'.pos⟩
        · dsimp only
          rw [hs'.bcount]
          exact bcount_restored s₀ _ _
        · have h1 := hs'.access
          rw [List.length_map, List.length_range] at h1
          exact h1

theorem Reading.start (hn : s.env.access = some m) : Reading s s.bcount f m (s.file f).pos s :=
  ⟨Core.refl s, rfl, rfl, rfl, hn, rfl⟩

theorem sysRead_hole {fd count n : ℕ} (hs : Acct 0 0 .none s) (hq : Quiet b B s) (hn : s.env.access = some n)
    (hhole : ∀ f i, filp s fd = some f → (s.file f).inode = some i → bmapZone s i (((s.file f).pos + n) / 1024) = 0) :
    Spec (fun s' => Acct 0 0 .none s' ∧ Quiet b B s') (fun _ => True) (fun s' => s' = s) (sysRead fd count)
      fun _ _ => True := by
  have hdone : ∀ r : ℤ × List UInt8, Spec (fun s' => Acct 0 0 .none s' ∧ Quiet b B s') (fun _ => True)
      (fun s' => s' = s) (pure r : K _) fun _ _ => True := fun r => Spec.pure fun _ _ => trivial
  refine Spec.get_bind fun s' hs' => ?_
  rw [hs']
  cases hf : filp s fd with
  | none => exact hdone _
  | some f =>
    refine Spec.ite (fun _ => hdone _) fun _ => ?_
    dsimp only
    cases hi : (s.file f).inode with
    | none => exact hdone _
    | some i =>
      have hread : ∀ c, Spec (fun s' => Acct 0 0 .none s' ∧ Quiet b B s') (fun _ => True) (fun s' => s' = s)
          (fileRead i f c) fun _ _ => True := by
        refine fun c => Spec.ite (fun _ => hdone _) fun _ => Spec.bind (M := fun _ _ => True) ?_ fun _ => Spec.pure fun _ _ => trivial
        refine ((readLoop_hole (hhole f i hf hi) (c + 1) c n _ rfl).fault fun s1 hs1 => ?_).pre fun s1 hs1 => ?_
        · obtain ⟨pos, hs1⟩ := hs1
          refine ⟨hs.core hs1.core, hs1.bcount.trans hq.bcount, ?_, fun j => ?_⟩
          · rw [← hq.blocks]
            unfold Kern.blocks
            rw [hs1.disk]
          · rw [hs1.inode]
            exact hq.calm j
        · rw [hs1]
          exact Reading.start hn
      exact Spec.ite (fun _ => Spec.ite (fun _ => hdone _) fun _ => hread _) fun _ => hdone _

/-! ## Every run -/

/-- The calls that are looked at. -/
def Call.ofFour : Call → Bool
  | .open .. => true
  | .unlink _ => true
  | .read .. => true
  | .write .. => true
  | _ => false

/-- Task `t` makes the call, one of its accesses faults, and `do_exit` runs at that point. -/
def Dies (s : Kern) (t : Fin 64) (env : Env) (c : Call) (s' : Kern) : Prop :=
  (s.task t).state = .live ∧ c.ofFour ∧ ∃ s₁, c.run (s.enter t env) = .fault s₁ ∧ doExit s₁ = .ok () s'

inductive LifeEvent
  | call (e : CallEvent)
  | death (t : Fin 64) (env : Env) (c : Call)

/-- Calls that complete, and tasks that die in one. -/
def lifeSystem : Lts Kern LifeEvent where
  init := callSystem.init
  step s e s' := match e with
    | .call e => CallStep s e s'
    | .death t env c => Dies s t env c s'

/-- In state `s`, the access of call `c` that is going to fault is made with nothing held: the
    first one of a path, with no inode left over in the entry of `file_table` that open takes; or
    one for a byte of a hole. -/
def Call.HoldsNothing (s : Kern) : Call → Prop
  | .open .. => s.env.access = some 0 ∧ ∀ f, freeFile s = some f → (s.file f).inode = none
  | .unlink _ => s.env.access = some 0
  | .read fd _ => ∃ n, s.env.access = some n ∧ ∀ f i, filp s fd = some f → (s.file f).inode = some i →
      bmapZone s i (((s.file f).pos + n) / 1024) = 0
  | _ => False

/-- The deaths that leave the counts right. -/
def Clean (s : Kern) : LifeEvent → Prop
  | .call _ => True
  | .death t env c => c.HoldsNothing (s.enter t env) ∧ ∀ i, CalmInode s.bcount s.blocks (s.inode i)

theorem dying_spec {c : Call} (hs : Acct 0 0 .none s) (hq : Quiet b B s) (hc : c.HoldsNothing s) :
    Spec (fun s' => Acct 0 0 .none s' ∧ Quiet b B s') (fun _ => True) (fun s' => s' = s) c.run fun _ _ => True := by
  have hvoid : ∀ {α : Type} {m : K α} {Q : α → Kern → Prop}, Spec (fun s' => Acct 0 0 .none s' ∧ Quiet b B s') (fun _ => True)
      (fun s' => s' = s) m Q → Spec (fun s' => Acct 0 0 .none s' ∧ Quiet b B s') (fun _ => True)
      (fun s' => s' = s) (Prog.void m) fun _ _ => True := fun hm =>
    Spec.void (Q := fun _ _ => True) (hm.post fun _ _ _ => trivial)
  cases c with
  | «open» path flag mode => exact hvoid (sysOpen_first hs hc.1 hq hc.2)
  | unlink path =>
    refine hvoid ((sysUnlink_first path).pre fun s' hs' => ?_)
    rw [hs']
    exact ⟨hc, hs, hq⟩
  | read fd count =>
    obtain ⟨n, hn, hhole⟩ := hc
    exact hvoid (sysRead_hole hs hq hn hhole)
  | _ => exact hc.elim

/-- One death. -/
theorem Counted.death {t : Fin 64} {env : Env} {c : Call} {s' : Kern} (hc : Counted 0 s) (hd : Dies s t env c s')
    (hclean : Clean s (.death t env c)) : Counted 0 s' ∧ s'.bcount = s.bcount := by
  obtain ⟨hl, _, s₁, hfault, hexit⟩ := hd
  have hq : Quiet s.bcount s.blocks (s.enter t env) := ⟨rfl, rfl, hclean.2⟩
  have h1 := dying_spec (hc.enter hl env) hq hclean.1 (s.enter t env) rfl
  rw [hfault] at h1
  obtain ⟨ha, hq1⟩ : Acct 0 0 .none s₁ ∧ Quiet s.bcount s.blocks s₁ := h1
  have h2 := doExit_spec (R := fun _ => True) (Mild.zero (by decide)) s₁ ha
  have h3 := doExit_quiet s₁ hq1
  rw [hexit] at h2 h3
  exact ⟨h2, h3.bcount⟩

theorem lifeSystem_counted (hr : (lifeSystem.restrict Clean).Reachable s) : Counted 0 s := by
  refine hr.invariant (fun s hs => reachable_counted (.init hs)) fun s e s' _ hc hstep => ?_
  obtain ⟨hclean, hstep⟩ := hstep
  cases e with
  | call e => exact hc.step hstep
  | death t env c => exact (hc.death hstep hclean).1

/-- When tasks die in open, unlink, read or write only at accesses that find nothing held, every
    `i_count` and `f_count` stays the number of references, and no `b_count` is changed. -/
theorem deaths_leave_nothing (hr : (lifeSystem.restrict Clean).Reachable s) :
    (∀ i, (s.inode i).count = inodeRefs s ∅ i) ∧
      (∀ f, (s.file f).count = ∑ t with (s.task t).state = .live, taskFds f (s.task t)) ∧
      ∀ t env c s', Dies s t env c s' → Clean s (.death t env c) → s'.bcount = s.bcount := by
  have hc := lifeSystem_counted hr
  exact ⟨hc.inode_eq, fun f => (hc.file f).trans (hc.live_fds f), fun t env c s' hd hcl => (hc.death hd hcl).2⟩

/-- A death as a function. -/
def deathState (s : Kern) (t : Fin 64) (env : Env) (c : Call) : Option Kern :=
  if (s.task t).state = .live then (c.run (s.enter t env)).fault?.bind fun s₁ => (doExit s₁).state? else none

theorem deathState_dies {s' : Kern} {t : Fin 64} {env : Env} {c : Call} (hc : c.ofFour)
    (h : deathState s t env c = some s') : Dies s t env c s' := by
  unfold deathState at h
  split_ifs at h with hl
  obtain ⟨s₁, h1, h2⟩ := Option.bind_eq_some_iff.mp h
  obtain ⟨_, h3⟩ := Out.state?_eq_some.mp h2
  exact ⟨hl, hc, s₁, Out.fault?_eq_some.mp h1, h3⟩

/-- The name `a` is to be unlinked, and its first byte cannot be read. -/
theorem deaths_leave_nothing_unlink : ∃ s s', callSystem.Reachable s ∧ Dies s 0 ⟨some 0, false, true⟩ (.unlink [97]) s' ∧
    (∀ i, (s'.inode i).count = inodeRefs s' ∅ i) ∧ s'.bcount = s.bcount := by
  have h1 : ((rootKern.bind fun s => (deathState s 0 ⟨some 0, false, true⟩ (.unlink [97])).filter fun _ =>
      ∀ i, (s.inode i).dev = 0 ∨ (s.inode i).nlinks ≠ 0).isSome) = true := by decide +kernel
  obtain ⟨s', h2⟩ := Option.isSome_iff_exists.mp h1
  obtain ⟨s, hs, h3⟩ := Option.bind_eq_some_iff.mp h2
  obtain ⟨h4, h5⟩ := Option.filter_eq_some_iff.mp h3
  have hd := deathState_dies (c := .unlink [97]) rfl h4
  have hclean : Clean s (.death 0 ⟨some 0, false, true⟩ (.unlink [97])) := by
    refine ⟨rfl, fun i hdev hn => ?_⟩
    exact absurd hn ((of_decide_eq_true h5 i).resolve_left hdev)
  have hr : (lifeSystem.restrict Clean).Reachable s := by
    obtain ⟨_, hroot⟩ := Out.state?_eq_some.mp hs
    exact .init ⟨bootKern, booted_bootKern, hroot⟩
  have hr' : (lifeSystem.restrict Clean).Reachable s' := hr.step ⟨hclean, hd⟩
  exact ⟨s, s', reachable_rootKern hs, hd, (deaths_leave_nothing hr').1, (deaths_leave_nothing hr).2.2 0 _ _ s' hd hclean⟩

/-- It is the end of the name that cannot be read: the directory stays counted. -/
theorem unlink_death_keeps_directory : ∃ s s', callSystem.Reachable s ∧
    Dies s 0 ⟨some 1, false, true⟩ (.unlink [97]) s' ∧ ∃ i, (s'.inode i).count ≠ inodeRefs s' ∅ i := by
  have h1 : ((rootKern.bind fun s => deathState s 0 ⟨some 1, false, true⟩ (.unlink [97])).map fun s' =>
      decide (∃ i, (s'.inode i).count ≠ inodeRefs s' ∅ i)) = some true := by decide +kernel
  obtain ⟨s', h2, h3⟩ := Option.map_eq_some_iff.mp h1
  obtain ⟨s, hs, h4⟩ := Option.bind_eq_some_iff.mp h2
  exact ⟨s, s', reachable_rootKern hs, deathState_dies rfl h4, of_decide_eq_true h3⟩

end Linux011.Fs
