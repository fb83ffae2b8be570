/-
  `add_entry` and the directory as a map: a free entry, in a new block if there is none, gets the name,
  and nothing else changes.
-/
import Linux011.Fs.DirMap
import Mathlib.Tactic.IntervalCases

namespace Linux011.Fs

open Linux011.Lib
open Linux011.Fs.Extend (Path target Vol Mem SameTree Placed Reserved)

variable {v : Vol} {s s' s₀ s₁ : Kern} {dir : Fin 32} {name : List UInt8} {b d z i n k : ℕ} {p q : Path}

/-- The state before a program is one with `P`. -/
theorem Returns.from_state {α : Type} {P : Kern → Prop} {m : K α} {Q : α → Kern → Prop}
    (h : ∀ s, P s → Returns (fun s' => s' = s) m Q) : Returns P m Q := fun s hs => h s hs s rfl

/-! ## create_block -/

/-- The tree of the directory has grown; its blocks are as they were. -/
structure Grown (v : Vol) (dir : Fin 32) (s₀ s : Kern) : Prop where
  dev : (s.inode dir).dev = (s₀.inode dir).dev
  super : s.super = s₀.super
  size : (s.inode dir).size = (s₀.inode dir).size
  sound : (s.mem dir).Sound v
  grows : Extend.Grows (s₀.mem dir) (s.mem dir)
  old : ∀ n, (s₀.mem dir).zoneAt (target n) ≠ 0 →
    (s.mem dir).block ((s₀.mem dir).zoneAt (target n)) = (s₀.mem dir).block ((s₀.mem dir).zoneAt (target n))

/-- The number, the size and the super blocks are the same. -/
structure Kept (dir : Fin 32) (s s' : Kern) : Prop where
  dev : (s'.inode dir).dev = (s.inode dir).dev
  super : s'.super = s.super
  size : (s'.inode dir).size = (s.inode dir).size

theorem Grown.refl (hs : (s.mem dir).Sound v) : Grown v dir s s :=
  ⟨rfl, rfl, rfl, hs, ⟨fun _ _ => rfl, fun _ h => h⟩, fun _ _ => rfl⟩

theorem Grown.same (h : Grown v dir s₀ s) (hk : Kept dir s s') (ht : SameTree (s.mem dir) (s'.mem dir)) : Grown v dir s₀ s' where
  dev := hk.dev.trans h.dev
  super := hk.super.trans h.super
  size := hk.size.trans h.size
  sound := h.sound.congr ht.zoneAt ht.grows.zmap
  grows := ⟨fun p hp => (ht.zoneAt p).trans (h.grows.zoneAt p hp), fun j hj => ht.grows.zmap j (h.grows.zmap j hj)⟩
  old n hn := (congrFun ht.block _).trans (h.old n hn)

/-- A reserved zone is put into an empty slot of the tree. -/
theorem Grown.store (h : Grown v dir s₀ s) (hp : Placed (s.mem dir) b p) (h0 : (s.mem dir).zoneAt p = 0)
    (hr : Reserved v (s.mem dir) z) (hk : Kept dir s s') (ht : SameTree (((s.mem dir).clearBlock z).store b z p) (s'.mem dir)) :
    Grown v dir s₀ s' ∧ (s'.mem dir).zoneAt p = z := by
  obtain ⟨hsound, hgrows⟩ := Extend.store_sound h.sound hp h0 hr
  have hzone := Extend.zoneAt_store h.sound hp h0 hr.fresh hr.ne_zero (hr.range.2.trans v.short)
  refine ⟨⟨hk.dev.trans h.dev, hk.super.trans h.super, hk.size.trans h.size, hsound.congr ht.zoneAt ht.grows.zmap, ⟨fun q hq => ?_,
    fun j hj => ht.grows.zmap j (hgrows.zmap j (h.grows.zmap j hj))⟩, fun n hn => ?_⟩, ?_⟩
  · have hold := h.grows.zoneAt q hq
    rw [ht.zoneAt, hgrows.zoneAt q (hold ▸ hq), hold]
  · have hold := h.grows.zoneAt (target n) hn
    have hn' : (s.mem dir).zoneAt (target n) ≠ 0 := hold ▸ hn
    have hblock := Exclusive.store_old h.sound hp hr.ne_zero hr.fresh hn'
    rw [hold] at hblock
    rw [ht.block, hblock, h.old n hn]
  · rw [ht.zoneAt, hzone, if_pos rfl]

/-- `new_block` has set bit `j` of the zone map. -/
def Kern.mark (s : Kern) (d j : ℕ) : Kern := s.setDisk d { s.disk d with zmap := Function.update (s.disk d).zmap j true }

theorem mem_mark (s : Kern) (dir : Fin 32) (j : ℕ) : (s.mark (s.inode dir).dev j).mem dir = (s.mem dir).setBit j := by
  unfold Kern.mem Kern.mark Kern.setDisk Mem.setBit
  simp only [Function.update_self]

theorem Grown.mark (h : Grown v dir s₀ s) (j : ℕ) : Grown v dir s₀ (s.mark (s.inode dir).dev j) := by
  have hmem := mem_mark s dir j
  have hzone := Extend.sameZones_setBit (s.mem dir) j
  have hg := Extend.grows_setBit (s.mem dir) j
  refine ⟨h.dev, h.super, h.size, ?_, ?_, ?_⟩ <;> rw [hmem]
  · exact h.sound.congr hzone hg.zmap
  · exact ⟨fun p hp => (hzone p).trans (h.grows.zoneAt p hp), fun k hk => hg.zmap k (h.grows.zmap k hk)⟩
  · exact h.old

/-- A zone that `new_block` returns is one nobody has; the block is clear. -/
theorem newBlock_grown (hvol : ∀ k, (s₀.super k).dev = (s₀.inode dir).dev → (s₀.super k).toDSuper = v.toDSuper)
    (hs₁ : Grown v dir s₀ s₁) : Returns (fun s => s = s₁) (newBlock (s₁.inode dir).dev) fun z s => z ≠ 0 →
      ∃ s₂, Grown v dir s₀ s₂ ∧ Reserved v (s₂.mem dir) z ∧ (∀ p, (s₂.mem dir).zoneAt p = (s₁.mem dir).zoneAt p) ∧
        (s₂.inode dir) = s₁.inode dir ∧ s = s₂.setBlock (s₁.inode dir).dev z Block.zero := by
  refine (getSuper_same _).bind fun k => ?_
  cases k with
  | none => exact Spec.halt trivial
  | some k =>
    refine Spec.of_fact_right fun hk => Spec.get_bind fun s hs => ?_
    subst hs
    have hsuper : (s.super k).toDSuper = v.toDSuper := by
      rw [hs₁.super]
      exact hvol k (by rw [← hs₁.super, ← hs₁.dev]; exact (hk k rfl).2)
    cases hj : firstZero (s.disk (s.inode dir).dev).zmap 0 (mapBits (s.super k).zmapBlocks) with
    | none => exact Spec.pure fun s' _ h0 => absurd rfl h0
    | some j =>
      have hfree : Extend.freeBit v (s.mem dir) = some j := by
        have hblocks : (s.super k).zmapBlocks = v.zmapBlocks := congrArg DSuper.zmapBlocks hsuper
        rw [hblocks] at hj
        exact hj
      have hzone : j + (s.super k).firstdatazone - 1 = Extend.zoneOf v j := by
        rw [show (s.super k).firstdatazone = v.firstdatazone from congrArg DSuper.firstdatazone hsuper]
        rfl
      refine Spec.bind (M := fun _ s' => s' = s.mark (s.inode dir).dev j) (Spec.modify fun s' hs' => by rw [hs']; rfl) fun _ => ?_
      refine Spec.ite (fun _ => Spec.pure fun s' _ h0 => absurd rfl h0) fun hn => Spec.ite (fun _ => Spec.halt trivial) fun _ => ?_
      rw [hzone, show (s.super k).nzones = v.nzones from congrArg DSuper.nzones hsuper] at hn
      have hres := Extend.reserve_spec hs₁.sound hfree hn
      rw [hzone]
      refine Spec.bind (M := fun _ s' => s' = (s.mark (s.inode dir).dev j).setBlock (s.inode dir).dev (Extend.zoneOf v j) Block.zero)
        (Spec.modify fun s' hs' => by rw [hs']) fun _ => Spec.pure fun s' hs' _ =>
          ⟨s.mark (s.inode dir).dev j, hs₁.mark j, ?_, fun p => ?_, rfl, hs'⟩
      · rw [mem_mark]
        exact hres
      · rw [mem_mark]
        exact Extend.sameZones_setBit _ _ p

theorem mem_setInode (dir : Fin 32) {x : MInode} (hd : x.dev = (s.inode dir).dev) :
    (s.setInode dir x).mem dir = { s.mem dir with zone := fun k => x.zone k, size := x.size, dirt := x.dirt } := by
  unfold Kern.mem
  rw [Kern.setInode_self, hd]
  rfl

theorem block_setInode {x : MInode} (hd : x.dev = (s.inode dir).dev) : ((s.setInode dir x).mem dir).block = (s.mem dir).block := by
  rw [mem_setInode _ hd]

theorem update_zone (f : ℕ → ℕ) (k : Fin 9) (z : ℕ) :
    (fun j : Fin 9 => Function.update f k z j) = Function.update (fun j : Fin 9 => f j) k z := by
  funext j
  by_cases hj : j = k
  · rw [hj, Function.update_self, Function.update_self]
  · rw [Function.update_of_ne hj, Function.update_of_ne fun h => hj (Fin.ext h)]

/-- Buffer counts are not looked at. -/
structure Countless (P : Kern → Prop) : Prop where
  set : ∀ (s : Kern) (c : ℕ → ℕ → UInt8), P s → P { s with bcount := c }

theorem bread_countless {P : Kern → Prop} (hP : Countless P) (d b : ℕ) : Returns P (bread d b) fun _ => P :=
  Spec.ite (fun _ => Spec.pure fun _ hs => hs) fun _ =>
    Spec.bind (M := fun _ => P) (Spec.modify fun _ hs => hP.set _ _ hs) fun _ => Spec.pure fun _ hs => hs

theorem brelse_countless {P : Kern → Prop} (hP : Countless P) (d b : ℕ) : Returns P (brelse d b) fun _ => P :=
  Spec.get fun _ _ => Spec.ite (fun _ => Spec.halt trivial) fun _ => Spec.modify fun _ hs => hP.set _ _ hs

theorem Grown.countless (v : Vol) (dir : Fin 32) (s₀ : Kern) : Countless (Grown v dir s₀) :=
  ⟨fun _ _ h => h.same ⟨rfl, rfl, rfl⟩ ⟨rfl, rfl, rfl⟩⟩

section

variable (hvol : ∀ k, (s₀.super k).dev = (s₀.inode dir).dev → (s₀.super k).toDSuper = v.toDSuper)
include hvol

/-- The zone in a slot of the inode, or a new one. -/
theorem zoneSlot_grown (k : Fin 9) : Returns (Grown v dir s₀) (zoneSlot dir k true) fun z s => z ≠ 0 →
    Grown v dir s₀ s ∧ (s.mem dir).zoneAt (.top k) = z := by
  refine Spec.get_bind fun s hs => Spec.ite (fun hc => ?_) fun hc => Spec.pure fun s' hs' _ => by rw [hs']; exact ⟨hs, rfl⟩
  refine (newBlock_grown hvol hs).bind fun z => Spec.ite (fun hz => Spec.pure fun _ _ h0 => absurd rfl h0) fun hz => ?_
  refine Spec.bind (M := fun _ s' => Grown v dir s₀ s' ∧ (s'.mem dir).zoneAt (.top k) = z) (Spec.modify fun s' hs' => ?_) fun _ =>
    Spec.pure fun s' hs' _ => hs'
  obtain ⟨s₂, hg, hr, hzone, hinode, rfl⟩ := hs' hz
  refine hg.store (b := 0) (p := .top k) nofun ((hzone _).trans hc.2) hr ⟨?_, rfl, ?_⟩ ?_
  · rw [Kern.setInode_self]
    rfl
  · rw [Kern.setInode_self]
    rfl
  · have hmem := mem_setInode (s := s₂.setBlock (s.inode dir).dev z Block.zero) dir
      (x := { s₂.inode dir with zone := Function.update (s₂.inode dir).zone k z, dirt := true }) rfl
    rw [← hinode, mem_setBlock] at hmem
    rw [← hinode]
    exact hmem ▸ ⟨update_zone _ k z, rfl, rfl⟩

/-- The zone in an entry of block `b`, the zone in slot `q`, or a new one. -/
theorem indSlot_grown (hup : p.up = some q) : Returns (fun s => Grown v dir s₀ s ∧ (s.mem dir).zoneAt q = b ∧ b ≠ 0)
    (indSlot (s₀.inode dir).dev b p.idx true) fun z s => z ≠ 0 → Grown v dir s₀ s ∧ (s.mem dir).zoneAt p = z := by
  have hP : Countless fun s => Grown v dir s₀ s ∧ (s.mem dir).zoneAt q = b ∧ b ≠ 0 :=
    ⟨fun s c h => ⟨(Grown.countless v dir s₀).set s c h.1, h.2⟩⟩
  have hend : ∀ z, Countless fun s => Grown v dir s₀ s ∧ (s.mem dir).zoneAt p = z := fun z =>
    ⟨fun s c h => ⟨(Grown.countless v dir s₀).set s c h.1, h.2⟩⟩
  have hrelease : ∀ z, Returns (fun s => Grown v dir s₀ s ∧ (s.mem dir).zoneAt p = z)
      (brelse (s₀.inode dir).dev b >>= fun _ => pure z) fun z s => z ≠ 0 → Grown v dir s₀ s ∧ (s.mem dir).zoneAt p = z := fun z =>
    (brelse_countless (hend z) _ _).bind fun _ => Spec.pure fun s hs _ => hs
  refine (bread_countless hP _ _).bind fun ok => Spec.ite (fun _ => ?_) fun _ => Spec.pure fun _ _ h0 => absurd rfl h0
  refine Spec.get_bind fun s ⟨hs, hb, hb0⟩ => ?_
  have hword : ((s.disk (s₀.inode dir).dev).block b).word p.idx = (s.mem dir).zoneAt p := by
    rw [Extend.zoneAt_up _ hup, hb, Mem.entry, if_neg hb0, ← hs.dev]
    rfl
  refine Spec.ite (fun hc => ?_) fun hc => (hrelease _).pre fun s' hs' => ⟨hs' ▸ hs, by rw [hs', hword]⟩
  have hnew := newBlock_grown hvol hs
  rw [hs.dev] at hnew
  refine hnew.bind fun z => Spec.ite (fun hz => ?_) fun hz => ?_
  · exact (brelse_countless (P := fun _ => True) ⟨fun _ _ _ => trivial⟩ _ _ |>.pre fun _ _ => trivial).bind fun _ =>
      Spec.pure fun _ _ h0 => absurd rfl h0
  refine Spec.get_bind fun s' hs' => ?_
  obtain ⟨s₂, hg, hr, hzone, hinode, rfl⟩ := hs' hz
  refine Spec.bind (M := fun _ s' => Grown v dir s₀ s' ∧ (s'.mem dir).zoneAt p = z) (Spec.modify fun s' hs' => ?_) fun _ => hrelease z
  have hplaced : Placed (s₂.mem dir) b p := fun r hr' => by
    obtain rfl : q = r := Option.some.inj (hup.symm.trans hr')
    exact ⟨(hzone q).trans hb, hb0⟩
  have hempty : (s₂.mem dir).zoneAt p = 0 := (hzone p).trans (hword.symm.trans hc.2)
  rw [hs']
  refine hg.store hplaced hempty hr ⟨rfl, rfl, rfl⟩ ?_
  rw [Extend.store_entry hup hr.ne_zero, ← hg.dev]
  have hfirst := mem_setBlock s₂ dir z Block.zero
  have hsecond := mem_setBlock (s₂.setBlock (s₂.inode dir).dev z Block.zero) dir b
  have hblock : ((s₂.setBlock (s₂.inode dir).dev z Block.zero).disk (s₂.inode dir).dev).block b = ((s₂.mem dir).clearBlock z).block b :=
    congrFun (congrArg Mem.block hfirst) b
  rw [hfirst] at hsecond
  rw [hblock]
  exact hsecond _ ▸ ⟨rfl, rfl, rfl⟩

theorem createBlock_grown (n : ℕ) : Returns (Grown v dir s₀) (createBlock dir n) fun z s => z ≠ 0 →
    Grown v dir s₀ s ∧ (s.mem dir).zoneAt (target n) = z ∧ n < maxBlocks := by
  refine Spec.get fun s hs => Spec.ite (fun _ => Spec.halt trivial) fun hlim => ?_
  have hlim : n < maxBlocks := not_le.mp hlim
  have hind : ∀ q p, p.up = some q → target n = p → ∀ b, b ≠ 0 → Returns (fun s => Grown v dir s₀ s ∧ (s.mem dir).zoneAt q = b)
      (indSlot (s.inode dir).dev b p.idx true) fun z s => z ≠ 0 → Grown v dir s₀ s ∧ (s.mem dir).zoneAt (target n) = z ∧ n < maxBlocks := by
    intro q p hup htarget b hb
    rw [hs.dev, htarget]
    exact ((indSlot_grown hvol hup).pre fun s' hs' => ⟨hs'.1, hs'.2, hb⟩).post fun z s' hs' hz => ⟨(hs' hz).1, (hs' hz).2, hlim⟩
  refine Spec.ite (fun h7 => ?_) fun h7 => Spec.ite (fun h8 => ?_) fun h8 => ?_
  · have htarget : target n = .top ⟨n, by omega⟩ := dif_pos h7
    rw [htarget]
    exact (zoneSlot_grown hvol ⟨n, by omega⟩).post fun z s' hs' hz => ⟨(hs' hz).1, (hs' hz).2, hlim⟩
  · have htarget : target n = .ind ⟨n - 7, by omega⟩ := (dif_neg h7).trans (dif_pos (by omega))
    refine (zoneSlot_grown hvol 7).bind fun b => Spec.ite (fun _ => Spec.pure fun _ _ h0 => absurd rfl h0) fun hb => ?_
    exact (hind (.top 7) _ rfl htarget b hb).pre fun s' hs' => hs' hb
  · have htarget : target n = .leaf ⟨(n - (7 + 512)) / 512, by unfold maxBlocks at hlim; omega⟩ ⟨(n - (7 + 512)) % 512, Nat.mod_lt _ (by decide)⟩ := by
      have hsub : n - 7 - 512 = n - (7 + 512) := Nat.sub_sub n 7 512
      unfold maxBlocks at hlim
      unfold target
      rw [dif_neg h7, dif_neg (by omega)]
      refine congrArg₂ Path.leaf (Fin.ext ?_) (Fin.ext (congrArg (· % 512) hsub))
      exact (congrArg (· / 512 % 512) hsub).trans (Nat.mod_eq_of_lt (by omega))
    refine (zoneSlot_grown hvol 8).bind fun b => Spec.ite (fun _ => Spec.pure fun _ _ h0 => absurd rfl h0) fun hb => ?_
    refine Spec.bind (M := fun z s' => z ≠ 0 → Grown v dir s₀ s' ∧ (s'.mem dir).zoneAt (.mid _) = z) ?_ fun b' =>
      Spec.ite (fun _ => Spec.pure fun _ _ h0 => absurd rfl h0) fun hb' => (hind (.mid _) _ rfl htarget b' hb').pre fun s' hs' => hs' hb'
    rw [hs.dev]
    exact (indSlot_grown hvol (p := .mid ⟨(n - (7 + 512)) / 512, by unfold maxBlocks at hlim; omega⟩) (q := .top 8) rfl).pre fun s' hs' =>
      ⟨(hs' hb).1, (hs' hb).2, hb⟩

end

/-! ## A write into an entry -/

/-- Block `z` has changed in entry `k`, and nothing else of the directory but its size. -/
structure Wrote (dir : Fin 32) (z k : ℕ) (s s' : Kern) : Prop where
  dev : (s'.inode dir).dev = (s.inode dir).dev
  super : s'.super = s.super
  tree : SameTree (Exclusive.setBlock (s.mem dir) z ((s'.mem dir).block z)) (s'.mem dir)
  only : ∀ o, o / 16 ≠ k % 64 → (s'.mem dir).block z o = (s.mem dir).block z o

theorem Wrote.refl (dir : Fin 32) (z k : ℕ) (s : Kern) : Wrote dir z k s s :=
  ⟨rfl, rfl, ⟨rfl, (Function.update_eq_self ..).symm, rfl⟩, fun _ _ => rfl⟩

theorem Wrote.setBlock (h : Wrote dir z k s s') {x : Block} (hx : ∀ o, o / 16 ≠ k % 64 → x o = (s'.mem dir).block z o) :
    Wrote dir z k s (s'.setBlock (s.inode dir).dev z x) := by
  have hmem := mem_setBlock s' dir z x
  rw [h.dev] at hmem
  have hblock : ((s'.setBlock (s.inode dir).dev z x).mem dir).block z = x := by
    rw [hmem]
    exact Function.update_self ..
  refine ⟨h.dev, h.super, ⟨?_, ?_, ?_⟩, fun o ho => ?_⟩
  · rw [hmem]
    exact h.tree.zone
  · rw [hblock, hmem]
    change Function.update (s'.mem dir).block z x = Function.update (s.mem dir).block z x
    rw [h.tree.block]
    exact Function.update_idem ..
  · rw [hmem]
    exact h.tree.zmap
  · rw [hblock, hx o ho, h.only o ho]

/-- The size is no part of the tree. -/
theorem Wrote.setInode (h : Wrote dir z k s s') {x : MInode} (hd : x.dev = (s'.inode dir).dev) (hz : x.zone = (s'.inode dir).zone) :
    Wrote dir z k s (s'.setInode dir x) := by
  have hmem := mem_setInode _ hd
  refine ⟨?_, h.super, ?_, ?_⟩
  · rw [Kern.setInode_self, hd, h.dev]
  · rw [hmem, hz]
    exact ⟨h.tree.zone, h.tree.block, h.tree.zmap⟩
  · rw [hmem]
    exact h.only

/-- User accesses change nothing. -/
theorem Wrote.env (h : Wrote dir z k s s') (ε : Env) : Wrote dir z k s { s' with env := ε } := ⟨h.dev, h.super, h.tree, h.only⟩

/-- An entry behind the end comes into the directory, empty. -/
theorem growDir_wrote (dir : Fin 32) (s : Kern) (z k : ℕ) : Returns (fun s' => s' = s) (growDir dir (s.inode dir).dev z k) fun _ s' =>
    Wrote dir z k s s' ∧ ((s.inode dir).size ≤ 16 * k ∧ (s'.inode dir).size = 16 * (k + 1) ∧ ((s'.mem dir).block z).word (8 * (k % 64)) = 0 ∨
      16 * k < (s.inode dir).size ∧ s' = s) := by
  refine Spec.get_bind fun s₁ hs₁ => ?_
  subst hs₁
  refine Spec.ite (fun hgrow => ?_) fun hgrow => Spec.pure fun s' hs' => ?_
  swap
  · subst hs'
    exact ⟨.refl dir z k s', Or.inr ⟨by omega, rfl⟩⟩
  refine Spec.bind (M := fun _ s' => s' = s₁.setBlock (s₁.inode dir).dev z
      (((s₁.disk (s₁.inode dir).dev).block z).setWord (8 * (k % 64)) 0))
    (Spec.modify fun s' hs' => by rw [hs']) fun _ => Spec.modify fun s' hs' => ?_
  subst hs'
  have hw := (Wrote.refl dir z k s₁).setBlock (x := ((s₁.disk (s₁.inode dir).dev).block z).setWord (8 * (k % 64)) 0)
    fun o ho => Exclusive.setWord_other _ _ (by omega)
  refine ⟨hw.setInode rfl rfl, Or.inl ⟨hgrow, ?_, ?_⟩⟩
  · rw [Kern.setInode_self]
  · rw [block_setInode, mem_setBlock]
    swap
    · rfl
    refine (congrArg (Block.word · (8 * (k % 64))) (Function.update_self ..)).trans ?_
    exact (Extend.Block.word_setWord _ _ _ _ (by decide)).trans (if_pos rfl)

theorem access_wrote {P : Kern → Prop} (hP : ∀ s (ε : Env), P s → P { s with env := ε }) : Returns P access fun _ => P := by
  intro s hs
  unfold access
  cases s.env.access with
  | none => exact hs
  | some n =>
    cases n with
    | zero => trivial
    | succ n => exact hP _ _ hs

/-- The name is written into the entry. -/
theorem putName_wrote (dir : Fin 32) (s : Kern) (z k : ℕ) (h0 : 0 ∉ name) (hn : name.length ≤ 14) (size : ℕ) :
    Returns (fun s' => Wrote dir z k s s' ∧ (s'.inode dir).size = size)
      (Prog.each (putNameByte (s.inode dir).dev ⟨z, k % 64⟩ name) (List.range 14)) fun _ s' =>
      (Wrote dir z k s s' ∧ (s'.inode dir).size = size) ∧ entryName ((s'.mem dir).block z) (k % 64) = name := by
  have hloop := Spec.each_rest (R := fun _ => True) (E := fun _ => True)
    (f := putNameByte (s.inode dir).dev ⟨z, k % 64⟩ name) (P := fun l s' => (∀ i ∈ l, i < 14) ∧
      (Wrote dir z k s s' ∧ (s'.inode dir).size = size) ∧
      ∀ j < 14, j ∉ l → (s'.mem dir).block z (16 * (k % 64) + 2 + j) = name.getD j 0) ?_ (List.range 14)
  · refine (hloop.pre fun s' hs' => ⟨fun i => List.mem_range.mp, hs', fun j hj hmem => absurd (List.mem_range.mpr hj) hmem⟩).post
      fun _ s' hs' => ⟨hs'.2.1, ?_⟩
    exact Exclusive.nameOf_padded h0 hn fun j hj => hs'.2.2 j hj List.not_mem_nil
  refine fun j l => Spec.of_fact fun hlt => ?_
  have hj : j < 14 := hlt j List.mem_cons_self
  -- byte `j`, after the user byte has been read
  have hbyte : Returns (fun s' => (Wrote dir z k s s' ∧ (s'.inode dir).size = size) ∧
      ∀ i < 14, i ∉ j :: l → (s'.mem dir).block z (16 * (k % 64) + 2 + i) = name.getD i 0)
      (Prog.modify fun s' => s'.setBlock (s.inode dir).dev z
        (Function.update ((s'.disk (s.inode dir).dev).block z) (16 * (k % 64) + 2 + j) (name.getD j 0)))
      fun _ s' => (∀ i ∈ l, i < 14) ∧ (Wrote dir z k s s' ∧ (s'.inode dir).size = size) ∧
        ∀ i < 14, i ∉ l → (s'.mem dir).block z (16 * (k % 64) + 2 + i) = name.getD i 0 := by
    refine Spec.modify fun s' ⟨⟨hw, hsize⟩, hbytes⟩ => ?_
    have hblock : (s'.disk (s.inode dir).dev).block = (s'.mem dir).block := by
      rw [← hw.dev]
      rfl
    rw [hblock]
    refine ⟨fun i hi => hlt i (List.mem_cons_of_mem j hi), ⟨hw.setBlock fun o ho => Function.update_of_ne (by omega) _ _, hsize⟩,
      fun i hi hil => ?_⟩
    rw [← hw.dev, mem_setBlock]
    refine (congrFun (Function.update_self ..) _).trans ?_
    by_cases hij : i = j
    · rw [hij, Function.update_self]
    · rw [Function.update_of_ne (by omega)]
      exact hbytes i hi (List.not_mem_cons_of_ne_of_not_mem hij hil)
  exact Spec.ite (fun _ => (access_wrote fun s' ε hs' => ⟨⟨hs'.1.1.env ε, hs'.1.2⟩, hs'.2⟩).bind fun _ => hbyte) fun _ => hbyte

/-! ## add_entry -/

/-- Block `z` is that of entry `k`. -/
structure EntryIn (s : Kern) (dir : Fin 32) (k z : ℕ) : Prop where
  zone : (s.mem dir).zoneAt (target (k / 64)) = z
  ne_zero : z ≠ 0
  lt : k / 64 < maxBlocks

/-- The entries before `k` are in the directory and in use. -/
def Passed (s : Kern) (dir : Fin 32) (k : ℕ) : Prop :=
  ∀ j < k, 16 * j < (s.inode dir).size ∧ (j < (s.inode dir).size / 16 → memSlots (s.mem dir) j ≠ none)

/-- What `add_entry` has done when it returns entry `e`: entry `k`, free or behind the end, has the
    name. -/
structure Added (v : Vol) (dir : Fin 32) (name : List UInt8) (s₀ : Kern) (e : DirEntry) (k : ℕ) (s₁ s : Kern) : Prop where
  passed : Passed s₀ dir k
  free : k < (s₀.inode dir).size / 16 → memSlots (s₀.mem dir) k = none
  grown : Grown v dir s₀ s₁
  inBlock : EntryIn s₁ dir k e.block
  place : e.place = k % 64
  wrote : Wrote dir e.block k s₁ s
  name : entryName ((s.mem dir).block e.block) (k % 64) = name
  size : (s.inode dir).size = if (s₀.inode dir).size ≤ 16 * k then 16 * (k + 1) else (s₀.inode dir).size

theorem EntryIn.next {dir : Fin 32} (h : EntryIn s dir k z) (hk : (k + 1) % 64 ≠ 0) : EntryIn s dir (k + 1) z := by
  have hdiv : (k + 1) / 64 = k / 64 := by omega
  exact ⟨by rw [hdiv]; exact h.zone, h.ne_zero, by rw [hdiv]; exact h.lt⟩

/-- The entries of the directory are where they were. -/
theorem Grown.slot (h : Grown v dir s₀ s) (hz : (s₀.mem dir).zoneAt (target (k / 64)) ≠ 0) (hin : EntryIn s dir k z) :
    memSlots (s₀.mem dir) k = blockSlot ((s.mem dir).block z) (k % 64) := by
  have hzone := h.grows.zoneAt _ hz
  rw [hin.zone] at hzone
  unfold memSlots
  rw [← h.old _ hz, ← hzone]

section

variable (hd : Directory v s₀ dir)
include hd

theorem addBuffer_grown {bh : Option ℕ} : Returns
    (fun s => Grown v dir s₀ s ∧ (i % 64 = 0 ∧ i ≠ 0 ∨ ∃ z, bh = some z ∧ EntryIn s dir i z))
    (addBuffer dir (s₀.inode dir).dev i bh) fun r s => r ≠ some none ∧ ∀ z, r = some (some z) → Grown v dir s₀ s ∧ EntryIn s dir i z := by
  refine Spec.ite (fun hi => ?_) fun hi => Spec.pure fun s hs => ?_
  swap
  · obtain ⟨z, rfl, hin⟩ := hs.2.resolve_left hi
    exact ⟨nofun, fun z' hz' => by cases hz'; exact ⟨hs.1, hin⟩⟩
  have hrelse : Returns (Grown v dir s₀) (brelseOpt (s₀.inode dir).dev bh) fun _ => Grown v dir s₀ := by
    cases bh with
    | none => exact Spec.pure fun _ hs => hs
    | some z => exact brelse_countless (Grown.countless v dir s₀) _ z
  refine (hrelse.pre fun s hs => hs.1).bind fun _ => (createBlock_grown hd.vol (i / 64)).bind fun z => ?_
  refine Spec.ite (fun _ => Spec.pure fun _ _ => ⟨nofun, nofun⟩) fun hz => ?_
  refine Spec.bind (M := fun ok s => ok = true ∧ Grown v dir s₀ s ∧ EntryIn s dir i z) ?_ fun ok => Spec.of_fact fun hok => ?_
  · refine Spec.ite (fun h0 => absurd h0 hd.dev) fun _ => Spec.bind (M := fun _ s => Grown v dir s₀ s ∧ EntryIn s dir i z)
      (Spec.modify fun s hs => ?_) fun _ => Spec.pure fun s hs => ⟨rfl, hs⟩
    obtain ⟨hg, hzone, hlim⟩ := hs hz
    exact ⟨(Grown.countless v dir s₀).set s _ hg, hzone, hz, hlim⟩
  · rw [hok]
    exact Spec.pure fun s hs => ⟨nofun, fun z' hz' => by cases hz'; exact hs⟩

theorem scanFree_added (h0 : 0 ∉ name) (hn : name.length ≤ 14) (n i : ℕ) (bh : Option ℕ) (hi : Passed s₀ dir i) : Returns
    (fun s => Grown v dir s₀ s ∧ (i % 64 = 0 ∧ i ≠ 0 ∨ ∃ z, bh = some z ∧ EntryIn s dir i z))
    (scanFree dir (s₀.inode dir).dev name n i bh) fun r s => ∀ e ∈ r, ∃ k s₁, Added v dir name s₀ e k s₁ s := by
  induction n generalizing i bh with
  | zero => exact Spec.halt trivial
  | succ n ih =>
    refine (addBuffer_grown hd).bind fun r => Spec.of_fact fun hr => ?_
    cases r with
    | none => exact Spec.pure fun _ _ => nofun
    | some r =>
      cases r with
      | none => exact absurd rfl hr
      | some z =>
        refine Returns.from_state fun s₁ hs₁ => ?_
        obtain ⟨hg, hin⟩ := hs₁ z rfl
        dsimp only
        have hgrow := growDir_wrote dir s₁ z i
        rw [hg.dev] at hgrow
        refine hgrow.bind fun _ => Spec.get_bind fun s₂ ⟨hw, hor⟩ => ?_
        have hword : ((s₂.disk (s₀.inode dir).dev).block z).word (8 * (i % 64)) = ((s₂.mem dir).block z).word (8 * (i % 64)) := by
          rw [← hg.dev, ← hw.dev]
          rfl
        rw [hword]
        refine Spec.ite (fun hfree => ?_) fun hused => ?_
        · have hput := putName_wrote dir s₁ z i h0 hn (s₂.inode dir).size
          rw [hg.dev] at hput
          refine (hput.pre fun s (hs : s = s₂) => by rw [hs]; exact ⟨hw, rfl⟩).bind fun _ => Spec.pure fun s hs e he => ?_
          cases he
          refine ⟨i, s₁, hi, fun hlt => ?_, hg, hin, rfl, hs.1.1, hs.2, ?_⟩
          · obtain ⟨hle, -⟩ | ⟨-, rfl⟩ := hor
            · rw [hg.size] at hle
              omega
            · rw [hg.slot (hd.mapped i hlt).2 hin]
              exact blockSlot_eq_none.mpr hfree
          · rw [hs.1.2, ← hg.size]
            obtain ⟨hle, hsize, -⟩ | ⟨hlt, rfl⟩ := hor
            · rw [if_pos hle, hsize]
            · rw [if_neg (by omega)]
        · -- an entry in use, which is in the directory
          obtain ⟨-, -, hzero⟩ | ⟨hlt, rfl⟩ := hor
          · exact absurd hzero hused
          rw [hg.size] at hlt
          have hpassed : Passed s₀ dir (i + 1) := fun j hj => by
            obtain hj | rfl := Nat.lt_succ_iff_lt_or_eq.mp hj
            · exact hi j hj
            · refine ⟨hlt, fun hj => ?_⟩
              rw [hg.slot (hd.mapped j hj).2 hin]
              exact fun hnone => hused (blockSlot_eq_none.mp hnone)
          have hnext : (i + 1) % 64 = 0 ∧ i + 1 ≠ 0 ∨ ∃ z', some z = some z' ∧ EntryIn s₂ dir (i + 1) z' := by
            by_cases h64 : (i + 1) % 64 = 0
            · exact Or.inl ⟨h64, by omega⟩
            · exact Or.inr ⟨z, rfl, hin.next h64⟩
          exact (ih (i + 1) (some z) hpassed).pre fun s (hs : s = s₂) => by rw [hs]; exact ⟨hg, hnext⟩

theorem addEntry_added (h0 : 0 ∉ name) : Returns (fun s => s = s₀) (addEntry dir name) fun r s =>
    ∀ e ∈ r, ∃ k s₁, Added v dir (name.take 14) s₀ e k s₁ s := by
  refine Spec.get_bind fun s hs => ?_
  subst hs
  refine Spec.ite (fun _ => Spec.pure fun _ _ => nofun) fun hz => ?_
  have hne : (s.inode dir).zone 0 ≠ 0 := fun h => hz (Or.inr h)
  have hfirst : ∀ c, (({ s with bcount := c } : Kern).mem dir).zoneAt (target (0 / 64)) = (s.inode dir).zone 0 := fun c => rfl
  refine Spec.bind (M := fun _ s' => Grown v dir s s' ∧ EntryIn s' dir 0 ((s.inode dir).zone 0)) ?_ fun ok =>
    Spec.ite (fun _ => ?_) fun _ => Spec.pure fun _ _ => nofun
  · have hcount : Countless fun s' => Grown v dir s s' ∧ EntryIn s' dir 0 ((s.inode dir).zone 0) :=
      ⟨fun s' c h => ⟨(Grown.countless v dir s).set s' c h.1, h.2.zone, h.2.ne_zero, h.2.lt⟩⟩
    exact (bread_countless hcount _ _).pre fun s' (hs' : s' = s) => by rw [hs']; exact ⟨.refl hd.sound, rfl, hne, by decide⟩
  · exact (scanFree_added hd (fun h => h0 (List.mem_of_mem_take h)) (List.length_take_le 14 name) _ 0 _ nofun).pre
      fun s' hs' => ⟨hs'.1, Or.inr ⟨_, rfl, hs'.2⟩⟩

end

/-! ## The map -/

theorem memSlots_sameTree {m m' : Mem} (h : SameTree m m') : memSlots m' = memSlots m := by
  funext k
  unfold memSlots
  rw [h.zoneAt, h.block]

theorem Wrote.slots (h : Wrote dir z k s s') (hs : (s.mem dir).Sound v) (hin : EntryIn s dir k z) :
    (s'.mem dir).Sound v ∧ (∀ p, (s'.mem dir).zoneAt p = (s.mem dir).zoneAt p) ∧
      memSlots (s'.mem dir) k = blockSlot ((s'.mem dir).block z) (k % 64) ∧
      ∀ j, j / 64 < maxBlocks → j ≠ k → memSlots (s'.mem dir) j = memSlots (s.mem dir) j := by
  have hat : Exclusive.At (s.mem dir) k z := ⟨hin.ne_zero, hin.zone⟩
  have hzone := Exclusive.zoneAt_setBlock hs hat ((s'.mem dir).block z)
  have hzone' : ∀ p, (s'.mem dir).zoneAt p = (s.mem dir).zoneAt p := fun p => (h.tree.zoneAt p).trans (hzone p)
  obtain rfl := hin.zone
  obtain ⟨hself, hother⟩ := slots_setBlock hs hin.lt hin.ne_zero h.only
  rw [memSlots_sameTree h.tree]
  exact ⟨hs.congr hzone' fun j hj => (congrFun h.tree.zmap j).trans hj, hzone', hself, hother⟩

namespace Added

variable {e : DirEntry}

/-- The entry is in the directory or the next one. -/
theorem le (ha : Added v dir name s₀ e k s₁ s)
    (hsize : (s₀.inode dir).size % 16 = 0 ∨ ∃ j < (s₀.inode dir).size / 16, memSlots (s₀.mem dir) j = none) :
    k < (s₀.inode dir).size / 16 ∨ k = (s₀.inode dir).size / 16 ∧ (s₀.inode dir).size ≤ 16 * k := by
  obtain h16 | ⟨j, hj, hfree⟩ := hsize
  · by_cases hk : k ≤ (s₀.inode dir).size / 16
    · omega
    · have := (ha.passed ((s₀.inode dir).size / 16) (by omega)).1
      omega
  · by_cases hjk : j < k
    · exact absurd hfree ((ha.passed j hjk).2 hj)
    · omega

/-- A number in the new entry adds its name to the map. -/
theorem directory (ha : Added v dir name s₀ e k s₁ s) (hd : Directory v s₀ dir)
    (hsize : (s₀.inode dir).size % 16 = 0 ∨ ∃ j < (s₀.inode dir).size / 16, memSlots (s₀.mem dir) j = none)
    (hname : dirMap s₀ dir name = none) {nr : ℕ} (h0 : nr ≠ 0) (hlt : nr < 65536)
    (hrun : setEntry (s₀.inode dir).dev e nr s = .ok () s') :
    Directory v s' dir ∧ dirMap s' dir = Function.update (dirMap s₀ dir) name (some nr) := by
  have hdev : (s₁.inode dir).dev = (s₀.inode dir).dev := ha.grown.dev
  have hdev' : (s.inode dir).dev = (s₀.inode dir).dev := ha.wrote.dev.trans hdev
  have hblock : (s.disk (s₀.inode dir).dev).block = (s.mem dir).block := by
    rw [← hdev']
    rfl
  have hs' : s.setBlock (s₀.inode dir).dev e.block (((s.mem dir).block e.block).setWord (8 * (k % 64)) nr) = s' := by
    rw [← hblock, ← ha.place]
    exact (Out.ok.inj ((setEntry_run ..).symm.trans hrun)).2
  have hw := ha.wrote.setBlock (x := ((s.mem dir).block e.block).setWord (8 * (k % 64)) nr) fun o ho =>
    Exclusive.setWord_other _ _ (by omega)
  rw [hdev, hs'] at hw
  have hx : (s'.mem dir).block e.block = ((s.mem dir).block e.block).setWord (8 * (k % 64)) nr := by
    rw [← hs', ← hdev', mem_setBlock]
    exact Function.update_self ..
  have hsz : (s'.inode dir).size = (s.inode dir).size := by
    rw [← hs']
    rfl
  obtain ⟨hsound, hzone, hself, hslots⟩ := hw.slots ha.grown.sound ha.inBlock
  -- the entry has the name and the number
  have hnew : memSlots (s'.mem dir) k = some (name, nr) := by
    rw [hself, hx]
    refine blockSlot_eq_some.mpr ⟨h0, (Extend.Block.word_setWord _ _ _ _ hlt).trans (if_pos rfl), ?_⟩
    rw [← ha.name]
    unfold entryName
    refine congrArg (List.takeWhile _) (List.map_congr_left fun o ho => ?_)
    exact Exclusive.setWord_other _ _ (by omega)
  -- the others are as they were
  have hold : ∀ j < (s₀.inode dir).size / 16, j ≠ k → memSlots (s'.mem dir) j = memSlots (s₀.mem dir) j := by
    intro j hj hjk
    obtain ⟨hjlt, hj0⟩ := hd.mapped j hj
    rw [hslots j hjlt hjk, ha.grown.slot hj0 ⟨rfl, (ha.grown.grows.zoneAt _ hj0).trans_ne hj0, hjlt⟩]
    rfl
  have hn : ∀ j < (s'.inode dir).size / 16, j ≠ k → j < (s₀.inode dir).size / 16 := by
    intro j hj hjk
    rw [hsz, ha.size] at hj
    obtain hk | ⟨hk, hle⟩ := ha.le hsize
    · rwa [if_neg (by omega)] at hj
    · rw [if_pos hle] at hj
      omega
  have hmono : (s₀.inode dir).size / 16 ≤ (s'.inode dir).size / 16 ∧ k < (s'.inode dir).size / 16 := by
    rw [hsz, ha.size]
    obtain hk | ⟨hk, hle⟩ := ha.le hsize
    · rw [if_neg (by omega)]
      exact ⟨le_rfl, hk⟩
    · rw [if_pos hle]
      omega
  obtain ⟨hdist, hmap⟩ := hd.distinct.fill hname hmono.2 ha.free hmono.1 hnew fun j hj hjk => ⟨hn j hj hjk, hold j (hn j hj hjk) hjk⟩
  have hdev'' : (s'.inode dir).dev = (s₀.inode dir).dev := hw.dev.trans hdev
  refine ⟨⟨hdev''.trans_ne hd.dev, fun l hl => ?_, hsound, fun j hj => ?_, hdist⟩, hmap⟩
  · have hsuper : s'.super = s₀.super := hw.super.trans ha.grown.super
    rw [hsuper, hdev''] at hl
    rw [hsuper]
    exact hd.vol l hl
  · rw [hzone]
    by_cases hjk : j = k
    · rw [hjk, ha.inBlock.zone]
      exact ⟨ha.inBlock.lt, ha.inBlock.ne_zero⟩
    · obtain ⟨hjlt, hj0⟩ := hd.mapped j (hn j hj hjk)
      exact ⟨hjlt, (ha.grown.grows.zoneAt _ hj0).trans_ne hj0⟩

end Added

/-- A directory is a map: `find_entry` finds just its names, 0 in an entry that it finds takes the name
    away, and a number in the entry that `add_entry` returns for a new name adds the name, if the size
    is a number of entries or one of them is free. -/
theorem directory_is_map (hd : Directory v s dir) (hc : Calm s) (h0 : name ≠ []) (hz : 0 ∉ name) (hn : name ≠ [dot, dot]) :
    (dirMap s dir (name.take 14) = none → findEntry dir name s = .ok (dir, none) s) ∧
    (∀ nr, dirMap s dir (name.take 14) = some nr → ∃ k < (s.inode dir).size / 16,
      memSlots (s.mem dir) k = some (name.take 14, nr) ∧
      findEntry dir name s = .ok (dir, some (s.entryAt dir k)) (s.withBuffer dir (s.entryAt dir k)) ∧
      ∀ s', setEntry (s.inode dir).dev (s.entryAt dir k) 0 (s.withBuffer dir (s.entryAt dir k)) = .ok () s' →
        Directory v s' dir ∧ dirMap s' dir = Function.update (dirMap s dir) (name.take 14) none) ∧
    (dirMap s dir (name.take 14) = none →
      ((s.inode dir).size % 16 = 0 ∨ ∃ j < (s.inode dir).size / 16, memSlots (s.mem dir) j = none) →
      ∀ e s₁ nr s', addEntry dir name s = .ok (some e) s₁ → nr ≠ 0 → nr < 65536 → setEntry (s.inode dir).dev e nr s₁ = .ok () s' →
        Directory v s' dir ∧ dirMap s' dir = Function.update (dirMap s dir) (name.take 14) (some nr)) := by
  have hfind := hd.findEntry_run hc h0 hz hn
  refine ⟨fun hnone => ?_, fun nr hsome => ?_, fun hnone hsize e s₁ nr s' hadd hnr hlt hset => ?_⟩
  · obtain ⟨-, hrun⟩ | ⟨k, hk, nr, hs, -⟩ := hfind
    · exact hrun
    · exact absurd hs (Slots.lookup_eq_none.mp hnone k hk nr)
  · obtain ⟨hno, -⟩ | ⟨k, hk, nr', hs, hrun⟩ := hfind
    · cases hno.symm.trans hsome
    · obtain rfl : nr' = nr := Option.some.inj ((hd.distinct.lookup_eq hk hs).symm.trans hsome)
      exact ⟨k, hk, hs, hrun, fun s' hset => (hd.withBuffer (s.entryAt dir k)).remove hk hs rfl hset⟩
  · obtain ⟨k, s₂, ha⟩ := (addEntry_added hd hz).ok rfl hadd e rfl
    exact ha.directory hd hsize hnone hnr hlt hset

/-! ## Small directories -/

/-- Inode 0 is a directory on device 1, with these blocks. -/
def dirKern (size : ℕ) (zone : ℕ → ℕ) (block : Block) : Kern where
  inode i := if i = 0 then { MInode.zero with size := size, zone := zone, dev := 1, num := 1, count := 1 } else MInode.zero
  lastInode := 0
  super k := ⟨Extend.floppy.toDSuper, if k = 0 then 1 else 0, none, none⟩
  file _ := ⟨0, 0, 0, none, 0⟩
  task _ := Task.none
  disk _ := ⟨Extend.floppy.toDSuper, fun _ => true, fun j => decide (j ≤ 1), fun _ => MInode.zero.toDInode, fun _ => block⟩
  bcount _ _ := 0
  rootDev := 1
  current := 0
  env := ⟨none, false, true⟩

theorem dirKern_calm (size : ℕ) (zone : ℕ → ℕ) (block : Block) : Calm (dirKern size zone block) :=
  ⟨rfl, fun _ _ => (by decide : (0 : UInt8) ≠ 255)⟩

/-- `.` and `..`, in zone 16. -/
def dotsKern (size : ℕ) : Kern := dirKern size (fun k => if k = 0 then 16 else 0) Exclusive.dots

theorem dotsKern_tree (size : ℕ) : SameTree Exclusive.emptyDir ((dotsKern size).mem 0) := by
  refine ⟨funext fun k => ?_, rfl, rfl⟩
  exact if_congr ⟨fun h => Fin.ext h, fun h => congrArg Fin.val h⟩ rfl rfl

theorem dotsKern_directory {size : ℕ} (h : size / 16 = 2) : Directory Extend.floppy (dotsKern size) 0 := by
  have ht := dotsKern_tree size
  refine ⟨Nat.one_ne_zero, fun _ _ => rfl, Exclusive.emptyDir_sound.congr ht.zoneAt ht.grows.zmap, fun k hk => ?_, ?_⟩
  · have hk : k < 2 := h ▸ hk
    rw [ht.zoneAt, show k / 64 = 0 by omega]
    decide
  · change Slots.Distinct _ (size / 16)
    rw [h, memSlots_sameTree ht]
    intro j hj k hk a x y hx hy
    have hname : ((memSlots Exclusive.emptyDir j).map Prod.fst) = (memSlots Exclusive.emptyDir k).map Prod.fst := by
      rw [hx, hy]
      rfl
    interval_cases j <;> interval_cases k <;> first | rfl | exact absurd hname (by decide)

/-- The name `a` in an empty directory. -/
theorem directory_is_map_empty : dirMap (dotsKern 32) 0 [97] = none ∧ findEntry 0 [97] (dotsKern 32) = .ok (0, none) (dotsKern 32) ∧
    ∃ e s₁ s', addEntry 0 [97] (dotsKern 32) = .ok (some e) s₁ ∧ setEntry 1 e 5 s₁ = .ok () s' ∧ dirMap s' 0 [97] = some 5 := by
  have hnone : dirMap (dotsKern 32) 0 [97] = none := by decide
  obtain ⟨hfind, -, hadd⟩ := directory_is_map (dotsKern_directory (show 32 / 16 = 2 from rfl)) (dirKern_calm ..)
    (show [97] ≠ [] by decide) (by decide) (by decide)
  obtain ⟨-, hmap⟩ := hadd hnone (Or.inl (by decide)) ⟨16, 2⟩ _ 5 _ rfl (by decide) (by decide) rfl
  exact ⟨hnone, hfind hnone, _, _, _, rfl, rfl, hmap ▸ Function.update_self ..⟩

/-- In a directory whose size is no number of entries the new entry can be one that is not in the
    directory. If two blocks of a directory are one zone, the new name is in both. -/
theorem directory_not_map :
    (∃ s e s₁ s', Directory Extend.floppy s 0 ∧ Calm s ∧ dirMap s 0 [97] = none ∧ addEntry 0 [97] s = .ok (some e) s₁ ∧
      setEntry 1 e 5 s₁ = .ok () s' ∧ dirMap s' 0 [97] = none) ∧
    ∃ s e s₁ s', (∀ k < (s.inode 0).size / 16, k / 64 < maxBlocks ∧ (s.mem 0).zoneAt (target (k / 64)) ≠ 0) ∧
      (s.inode 0).size % 16 = 0 ∧ (∀ k, memSlots (s.mem 0) k = none) ∧ Calm s ∧ addEntry 0 [97] s = .ok (some e) s₁ ∧
      setEntry 1 e 5 s₁ = .ok () s' ∧ ¬ (memSlots (s'.mem 0)).Distinct ((s'.inode 0).size / 16) := by
  refine ⟨⟨dotsKern 36, ⟨16, 2⟩, _, _, dotsKern_directory rfl, dirKern_calm .., by decide, rfl, rfl, by decide⟩,
    dirKern 2048 (fun k => if k ≤ 1 then 16 else 0) Block.zero, ⟨16, 0⟩, _, _, fun k hk => ?_, by decide, fun k => rfl,
    dirKern_calm .., rfl, rfl, fun hd => ?_⟩
  · have hk : k < 128 := hk
    obtain h | h : k / 64 = 0 ∨ k / 64 = 1 := by omega
    · rw [h]
      decide
    · rw [h]
      decide
  · exact absurd (hd 0 (by decide) 64 (by decide) [97] 5 5 (by decide) (by decide)) (by decide)

end Linux011.Fs
