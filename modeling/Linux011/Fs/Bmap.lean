/-
  `bmap` without `create`: the zone it finds. The buffers it reads are given back, so the state is what
  it was.
-/
import Linux011.Fs.Tables

namespace Linux011.Fs

open Linux011.Lib

/-- One more reference to the buffer of block `z`. -/
def hold (b : ℕ → ℕ → UInt8) (d z : ℕ) : ℕ → ℕ → UInt8 := Function.update b d (Function.update (b d) z (b d z + 1))

/-- Entry `k` of an indirect block; nothing can be read from device 0. -/
def indZone (s : Kern) (d z k : ℕ) : ℕ := if d = 0 then 0 else ((s.disk d).block z).word k

/-- The zone `bmap` finds for a block of the file; 0 in a hole. -/
def bmapZone (s : Kern) (i : Fin 32) (block : ℕ) : ℕ :=
  let x := s.inode i
  if block < 7 then x.zone block
  else if block < 7 + 512 then if x.zone 7 = 0 then 0 else indZone s x.dev (x.zone 7) (block - 7)
  else if x.zone 8 = 0 then 0
  else if indZone s x.dev (x.zone 8) ((block - (7 + 512)) / 512) = 0 then 0
  else indZone s x.dev (indZone s x.dev (x.zone 8) ((block - (7 + 512)) / 512)) ((block - (7 + 512)) % 512)

variable {R : Kern → Prop}

theorem bcount_restored (s : Kern) (d z : ℕ) : Function.update (hold s.bcount d z) d
    (Function.update (hold s.bcount d z d) z (hold s.bcount d z d z - 1)) = s.bcount := by
  simp [hold]

theorem brelse_exact (s : Kern) (d z : ℕ) : Spec R (fun _ => True) (fun s' => s' = { s with bcount := hold s.bcount d z })
    (brelse d z) fun _ s' => s' = s := by
  refine Spec.get fun s' _ => Spec.ite (fun _ => Spec.halt trivial) fun _ => Spec.modify fun s' hs' => ?_
  rw [hs']
  dsimp only
  rw [bcount_restored]

theorem indSlot_exact (s : Kern) (d z k : ℕ) : Spec R (fun _ => True) (fun s' => s' = s) (indSlot d z k false) fun r s' =>
    s' = s ∧ r = indZone s d z k := by
  by_cases hd : d = 0
  · refine Spec.bind (M := fun ok s' => ok = false ∧ s' = s) ?_ fun ok => Spec.of_fact fun hok => ?_
    · exact Spec.ite (fun _ => Spec.pure fun s' hs' => ⟨rfl, hs'⟩) fun hne => absurd hd hne
    · rw [hok]
      exact Spec.pure fun s' hs' => ⟨hs', by simp [indZone, hd]⟩
  · refine Spec.bind (M := fun ok s' => ok = true ∧ s' = { s with bcount := hold s.bcount d z }) ?_ fun ok => Spec.of_fact fun hok => ?_
    · refine Spec.ite (fun h0 => absurd h0 hd) fun _ => Spec.bind (M := fun _ s' => s' = { s with bcount := hold s.bcount d z })
        (Spec.modify fun s' hs' => ?_) fun _ => Spec.pure fun s' hs' => ⟨rfl, hs'⟩
      rw [hs']
      rfl
    · rw [hok]
      refine Spec.get_bind fun s1 hs1 => Spec.ite (fun hc => nomatch hc.1) fun _ => ?_
      refine ((brelse_exact s d z).pre fun s' hs' => hs'.trans hs1).bind fun _ => Spec.pure fun s' hs' => ⟨hs', ?_⟩
      rw [hs1]
      simp [indZone, hd]

theorem zoneSlot_exact (s : Kern) (i : Fin 32) (k : ℕ) : Spec R (fun _ => True) (fun s' => s' = s) (zoneSlot i k false)
    fun r s' => s' = s ∧ r = (s.inode i).zone k := by
  refine Spec.get_bind fun s1 hs1 => Spec.ite (fun hc => nomatch hc.1) fun _ => Spec.pure fun s' hs' => ⟨hs'.trans hs1, ?_⟩
  rw [hs1]

theorem bmap_exact (s : Kern) (i : Fin 32) (block : ℕ) : Spec R (fun _ => True) (fun s' => s' = s) (bmap i block)
    fun r s' => s' = s ∧ r = bmapZone s i block := by
  refine Spec.get_bind fun s1 hs1 => ?_
  rw [hs1]
  refine Spec.ite (fun _ => Spec.halt trivial) fun _ => Spec.ite (fun h7 => ?_) fun h7 => Spec.ite (fun h8 => ?_) fun h8 => ?_
  · refine (zoneSlot_exact s i block).post fun r s' hs' => ⟨hs'.1, ?_⟩
    rw [hs'.2]
    simp [bmapZone, h7]
  · refine Spec.bind (M := fun z s' => z = (s.inode i).zone 7 ∧ s' = s)
      ((zoneSlot_exact s i 7).post fun _ _ hs' => hs'.symm) fun z => Spec.of_fact fun hz => ?_
    subst hz
    refine Spec.ite (fun h0 => Spec.pure fun s' hs' => ⟨hs', ?_⟩) fun h0 => ?_
    · simp [bmapZone, h7, h8, h0]
    · refine (indSlot_exact s _ _ _).post fun r s' hs' => ⟨hs'.1, ?_⟩
      rw [hs'.2]
      simp [bmapZone, h7, h8, h0]
  · refine Spec.bind (M := fun z s' => z = (s.inode i).zone 8 ∧ s' = s)
      ((zoneSlot_exact s i 8).post fun _ _ hs' => hs'.symm) fun z => Spec.of_fact fun hz => ?_
    subst hz
    refine Spec.ite (fun h0 => Spec.pure fun s' hs' => ⟨hs', ?_⟩) fun h0 => ?_
    · simp [bmapZone, h7, h8, h0]
    refine Spec.bind (M := fun z s' => z = indZone s (s.inode i).dev ((s.inode i).zone 8) ((block - (7 + 512)) / 512) ∧ s' = s)
      ((indSlot_exact s _ _ _).post fun _ _ hs' => hs'.symm) fun z => Spec.of_fact fun hz => ?_
    subst hz
    refine Spec.ite (fun h1 => Spec.pure fun s' hs' => ⟨hs', ?_⟩) fun h1 => ?_
    · simp [bmapZone, h7, h8, h0, h1]
    · refine (indSlot_exact s _ _ _).post fun r s' hs' => ⟨hs'.1, ?_⟩
      rw [hs'.2]
      simp [bmapZone, h7, h8, h0, h1]

/-- `brelse` after `bread`, when the count of the buffer has not run over. -/
theorem brelse_run (s : Kern) {d z : ℕ} (h : s.bcount d z ≠ 255) :
    brelse d z { s with bcount := hold s.bcount d z } = .ok () s := by
  have hold1 : hold s.bcount d z d z = s.bcount d z + 1 := by simp [hold]
  refine (Prog.bind_run (Prog.get_run _)).trans ?_
  change (if hold s.bcount d z d z = 0 then panic "Trying to free free buffer" else modCount d z fun n => n - 1 : K Unit) _ = _
  rw [hold1, if_neg fun h0 => h ?_]
  · exact congrArg (Out.ok ()) (by dsimp only; rw [bcount_restored])
  · have h1 := congrArg UInt8.toNat h0
    rw [UInt8.toNat_add] at h1
    refine UInt8.toNat_inj.mp ?_
    have h2 := (s.bcount d z).toNat_lt
    have h3 : (1 : UInt8).toNat = 1 := rfl
    have h4 : (0 : UInt8).toNat = 0 := rfl
    have h5 : (255 : UInt8).toNat = 255 := rfl
    omega

theorem bread_run (s : Kern) {d : ℕ} (z : ℕ) (hd : d ≠ 0) : bread d z s = .ok true { s with bcount := hold s.bcount d z } := by
  unfold bread
  rw [if_neg hd]
  rfl

theorem indSlot_run (s : Kern) {d z : ℕ} (k : ℕ) (h : s.bcount d z ≠ 255) :
    indSlot d z k false s = .ok (indZone s d z k) s := by
  unfold indSlot indZone
  by_cases hd : d = 0
  · rw [if_pos hd]
    refine Prog.bind_run (show bread d z s = .ok false s from ?_)
    unfold bread
    rw [if_pos hd]
    rfl
  · rw [if_neg hd, Prog.bind_run (bread_run s z hd)]
    exact Prog.bind_run (brelse_run s h)

/-- `bmap` of a block below the limit ends. -/
theorem bmap_run (s : Kern) (i : Fin 32) {block : ℕ} (hb : block < 7 + 512 + 512 * 512) (h : ∀ d z, s.bcount d z ≠ 255) :
    bmap i block s = .ok (bmapZone s i block) s := by
  have hzone : ∀ k, zoneSlot i k false s = .ok ((s.inode i).zone k) s := fun k => rfl
  unfold bmap bmapCreate bmapZone
  refine (Prog.bind_run (Prog.get_run s)).trans ?_
  rw [if_neg (by omega)]
  dsimp only
  split_ifs with h7 h8 h0 h0 h1
  · rfl
  · exact (Prog.bind_run (hzone 7)).trans (by rw [if_pos h0]; rfl)
  · exact (Prog.bind_run (hzone 7)).trans (by rw [if_neg h0]; exact indSlot_run s _ (h _ _))
  · exact (Prog.bind_run (hzone 8)).trans (by rw [if_pos h0]; rfl)
  · refine (Prog.bind_run (hzone 8)).trans ?_
    rw [if_neg h0]
    exact (Prog.bind_run (indSlot_run s _ (h _ _))).trans (by rw [if_pos h1]; rfl)
  · refine (Prog.bind_run (hzone 8)).trans ?_
    rw [if_neg h0]
    exact (Prog.bind_run (indSlot_run s _ (h _ _))).trans (by rw [if_neg h1]; exact indSlot_run s _ (h _ _))

/-- The zone of block `n` of a file with these zones on a device with these blocks; 0 for none. -/
def zoneBlock (block : ℕ → Block) (zone : ℕ → ℕ) (n : ℕ) : ℕ :=
  let slot (b k : ℕ) := if b = 0 then 0 else (block b).word k
  if n < 7 then zone n
  else if n < 7 + 512 then slot (zone 7) (n - 7)
  else slot (slot (zone 8) ((n - (7 + 512)) / 512)) ((n - (7 + 512)) % 512)

theorem bmapZone_eq {s : Kern} {i : Fin 32} (n : ℕ) (hd : (s.inode i).dev ≠ 0) :
    bmapZone s i n = zoneBlock (s.disk (s.inode i).dev).block (s.inode i).zone n := by
  simp only [bmapZone, zoneBlock, indZone, if_neg hd]
  split_ifs <;> first | rfl | contradiction

end Linux011.Fs
