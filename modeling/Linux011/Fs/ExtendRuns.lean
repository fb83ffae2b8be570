/-
  Concurrent extension of a file. As long as no result of `new_block` is stored over a zone that
  another writer has put there meanwhile, the tree only grows: every zone that `new_block` has
  returned is in it, and what was written to a logical block was written to its zone.
-/
import Linux011.Fs.Extend

namespace Linux011.Fs.Extend

open Linux011.Lib

/-! ## Words -/

theorem Block.word_setWord (x : Block) (k l v : ℕ) (hv : v < 65536) :
    (x.setWord k v).word l = if l = k then v else x.word l := by
  unfold Block.setWord Block.word
  split_ifs with hl
  · subst hl
    rw [Function.update_of_ne (by omega), Function.update_self, Function.update_self]
    simp only [UInt8.toNat_ofNat']
    omega
  · rw [Function.update_of_ne (by omega), Function.update_of_ne (by omega), Function.update_of_ne (by omega),
      Function.update_of_ne (by omega)]

@[simp] theorem Block.word_zero (k : ℕ) : Block.zero.word k = 0 := rfl

/-! ## The tree -/

/-- The slot that has the block of an entry, and the place of the entry there. -/
def Path.up : Path → Option Path
  | .top _ => none
  | .ind _ => some (.top 7)
  | .mid _ => some (.top 8)
  | .leaf k _ => some (.mid k)

def Path.idx : Path → Fin 512
  | .top _ => 0
  | .ind k | .mid k | .leaf _ k => k

theorem Path.eq_of_up {p q r : Path} (hp : p.up = some r) (hq : q.up = some r) (h : p.idx = q.idx) : p = q := by
  cases p <;> cases q <;> cases hp <;> cases hq <;> cases h <;> rfl

variable {v : Vol} {m m' : Mem} {p q r : Path} {q' : Place} {b z : ℕ}

theorem zoneAt_up (m : Mem) (h : q.up = some r) : m.zoneAt q = m.entry (m.zoneAt r) q.idx := by
  cases q with
  | top k => cases h
  | ind k => cases h; rfl
  | mid k => cases h; rfl
  | leaf k l => cases h; rfl

/-- Every slot but those of the inode has its block in another slot. -/
theorem Path.induct_up {P : Path → Prop} (top : ∀ k, P (.top k)) (up : ∀ q r, q.up = some r → P r → P q) : ∀ q, P q
  | .top k => top k
  | .ind _ => up _ (.top 7) rfl (top 7)
  | .mid _ => up _ (.top 8) rfl (top 8)
  | .leaf k _ => up _ (.mid k) rfl (up _ (.top 8) rfl (top 8))

/-- `b` is the block of the slot, if it is an entry. -/
def Placed (m : Mem) (b : ℕ) (p : Path) : Prop := ∀ r, p.up = some r → m.zoneAt r = b ∧ b ≠ 0

theorem Placed.slot (h : Placed m b p) : m.slot b p = m.zoneAt p := by
  cases p with
  | top k => rfl
  | ind k =>
    obtain ⟨h1, h2⟩ := h _ rfl
    rw [zoneAt_up m rfl, h1, Mem.entry, if_neg h2]
    rfl
  | mid k =>
    obtain ⟨h1, h2⟩ := h _ rfl
    rw [zoneAt_up m rfl, h1, Mem.entry, if_neg h2]
    rfl
  | leaf k l =>
    obtain ⟨h1, h2⟩ := h _ rfl
    rw [zoneAt_up m rfl, h1, Mem.entry, if_neg h2]
    rfl

/-- Zone `z` is in no slot. -/
def Fresh (m : Mem) (z : ℕ) : Prop := ∀ p, m.zoneAt p ≠ z

theorem entry_congr {k : Fin 512} (h : b ≠ 0 → (m'.block b).word k = (m.block b).word k) : m'.entry b k = m.entry b k := by
  unfold Mem.entry
  split_ifs with hb
  · rfl
  · exact h hb

theorem store_entry (h : p.up = some r) (hz : z ≠ 0) : m.store b z p =
    { m with block := Function.update m.block b ((m.block b).setWord p.idx z) } := by
  cases p with
  | top k => cases h
  | ind k => exact if_neg hz
  | mid k => exact if_neg hz
  | leaf k l => exact if_neg hz

/-- The slots of the inode itself after a store. -/
theorem zone_store (k : Fin 9) (hz : z ≠ 0) :
    (m.store b z p).zone k = if Path.top k = p then z else m.zone k := by
  cases hup : p.up with
  | none =>
    cases p with
    | top j =>
      change Function.update m.zone j z k = _
      by_cases hk : k = j
      · subst hk
        rw [Function.update_self, if_pos rfl]
      · rw [Function.update_of_ne hk, if_neg fun h => hk (Path.top.inj h)]
    | ind j => cases hup
    | mid j => cases hup
    | leaf j l => cases hup
  | some r =>
    rw [store_entry hup hz, if_neg]
    rintro rfl
    cases hup

/-- The words of a block after a zone has been cleared and stored in a slot. -/
theorem word_store (hp : ∀ r, p.up = some r → b ≠ z) (hz : z ≠ 0) (hlt : z < 65536) (c : ℕ) (l : Fin 512) :
    (((m.clearBlock z).store b z p).block c).word l =
      if c = z then 0 else if p.up.isSome ∧ c = b ∧ l = p.idx then z else (m.block c).word l := by
  have hclear : ∀ c, (m.clearBlock z).block c = if c = z then Block.zero else m.block c := by
    intro c
    change Function.update m.block z Block.zero c = _
    rw [Function.update_apply]
  cases hup : p.up with
  | none =>
    have hblock : ((m.clearBlock z).store b z p).block = (m.clearBlock z).block := by
      cases p with
      | top k => rfl
      | ind k => cases hup
      | mid k => cases hup
      | leaf k l => cases hup
    rw [hblock, hclear, if_neg (c := _ ∧ _) (by simp)]
    split_ifs <;> rfl
  | some r =>
    have hb := hp r hup
    rw [store_entry hup hz]
    change (Function.update (m.clearBlock z).block b _ c).word l = _
    by_cases hc : c = b
    · subst hc
      rw [Function.update_self, Block.word_setWord _ _ _ _ hlt, if_neg hb, hclear, if_neg hb]
      simp only [Option.isSome_some, true_and, Fin.ext_iff]
    · rw [Function.update_of_ne hc, hclear, if_neg (c := _ ∧ _) (by simp [hc])]
      split_ifs <;> rfl

theorem store_zmap (m : Mem) (b z : ℕ) (p : Path) : ((m.clearBlock z).store b z p).zmap = m.zmap := by
  cases p with
  | top k => rfl
  | ind k => unfold Mem.store; dsimp only; split_ifs <;> rfl
  | mid k => unfold Mem.store; dsimp only; split_ifs <;> rfl
  | leaf k l => unfold Mem.store; dsimp only; split_ifs <;> rfl

/-- The tree after a new zone has been put into an empty slot. -/
theorem zoneAt_store (hs : m.Sound v) (hp : Placed m b p) (h0 : m.zoneAt p = 0) (hf : Fresh m z) (hz : z ≠ 0)
    (hlt : z < 65536) (q : Path) :
    ((m.clearBlock z).store b z p).zoneAt q = if q = p then z else m.zoneAt q := by
  have hbz : ∀ r, p.up = some r → b ≠ z := fun r hr he => hf r ((hp r hr).1.trans he)
  revert q
  refine Path.induct_up (fun k => ?_) fun q r hr ih => ?_
  · exact zone_store k hz
  rw [zoneAt_up _ hr, zoneAt_up m hr, ih]
  by_cases hrp : r = p
  · -- the slot is in the new zone
    have hqp : q ≠ p := by
      rintro rfl
      exact absurd (hrp ▸ hr) (by cases q <;> simp [Path.up])
    rw [if_pos hrp, if_neg hqp, hrp, h0, Mem.entry, Mem.entry, if_neg hz, if_pos rfl, word_store hbz hz hlt, if_pos rfl]
  rw [if_neg hrp]
  by_cases hv : m.zoneAt r = 0
  · have hqp : q ≠ p := by
      rintro rfl
      exact (hp r hr).2 ((hp r hr).1.symm.trans hv)
    rw [if_neg hqp, hv]
    rfl
  · rw [Mem.entry, Mem.entry, if_neg hv, if_neg hv, word_store hbz hz hlt, if_neg (hf r)]
    by_cases hqp : q = p
    · subst hqp
      rw [if_pos rfl, if_pos ⟨by rw [hr]; rfl, (hp r hr).1, rfl⟩]
    · rw [if_neg hqp, if_neg]
      rintro ⟨hsome, hb, hidx⟩
      obtain ⟨r', hr'⟩ := Option.isSome_iff_exists.mp hsome
      have hrr : r = r' := hs.inj r r' hv (hb.trans (hp r' hr').1.symm)
      exact hqp (Path.eq_of_up hr (hrr ▸ hr') hidx)

/-- What the tree and its marks are made of. -/
structure SameTree (m m' : Mem) : Prop where
  zone : m'.zone = m.zone
  block : m'.block = m.block
  zmap : m'.zmap = m.zmap

theorem SameTree.zoneAt (h : SameTree m m') (p : Path) : m'.zoneAt p = m.zoneAt p := by
  obtain ⟨zone, size, dirt, zmap, block, bcount⟩ := m
  obtain ⟨zone', size', dirt', zmap', block', bcount'⟩ := m'
  obtain ⟨rfl, rfl, rfl⟩ := h
  cases p with
  | _ => rfl

theorem SameTree.refl (m : Mem) : SameTree m m := ⟨rfl, rfl, rfl⟩

theorem SameTree.trans {m'' : Mem} (h : SameTree m m') (h' : SameTree m' m'') : SameTree m m'' :=
  ⟨h'.zone.trans h.zone, h'.block.trans h.block, h'.zmap.trans h.zmap⟩

/-- The tree has grown, and so have the marks. -/
structure Grows (m m' : Mem) : Prop where
  zoneAt : ∀ p, m.zoneAt p ≠ 0 → m'.zoneAt p = m.zoneAt p
  zmap : ∀ j, m.zmap j = true → m'.zmap j = true

theorem SameTree.grows (h : SameTree m m') : Grows m m' :=
  ⟨fun p _ => h.zoneAt p, fun j hj => by rw [h.zmap]; exact hj⟩

theorem Mem.Sound.congr (hs : m.Sound v) (hz : ∀ p, m'.zoneAt p = m.zoneAt p)
    (hm : ∀ j, m.zmap j = true → m'.zmap j = true) : m'.Sound v where
  bit := hm 0 hs.bit
  range p := by rw [hz]; exact hs.range p
  marked p := by rw [hz]; exact fun h => hm _ (hs.marked p h)
  inj p q := by rw [hz, hz]; exact hs.inj p q

/-! ## The writers -/

/-- The slots `rest` follow `p` on the way to `t`. -/
def Leads (t : Path) : Path → List Path → Prop
  | p, [] => p = t
  | p, q :: rest => q.up = some p ∧ Leads t q rest

structure WalkOk (m : Mem) (w : Walk) : Prop where
  placed : Placed m w.b w.path
  leads : Leads (target (w.pos / 1024)) w.path w.rest

/-- Zone `z` is marked and in no slot. -/
structure Reserved (v : Vol) (m : Mem) (z : ℕ) : Prop where
  range : v.firstdatazone ≤ z ∧ z < v.nzones
  marked : m.zmap (z + 1 - v.firstdatazone) = true
  fresh : Fresh m z

theorem Reserved.ne_zero (h : Reserved v m z) : z ≠ 0 := by
  have hpos := v.first_pos
  have := h.range
  omega

/-- `z` is the zone of a logical block. -/
def Mapped (m : Mem) (block z : ℕ) : Prop := z ≠ 0 ∧ m.zoneAt (target block) = z

def PlaceOk (v : Vol) (m : Mem) : Place → Prop
  | .idle | .loop _ _ => True
  | .newSuper w | .bread w => WalkOk m w
  | .newGetblk w z => WalkOk m w ∧ Reserved v m z
  | .dataBread z pos _ => Mapped m (pos / 1024) z
  | .copy z block _ _ _ _ => Mapped m block z

theorem Grows.placed (hg : Grows m m') (h : Placed m b p) : Placed m' b p := fun r hr => by
  obtain ⟨h1, h2⟩ := h r hr
  exact ⟨(hg.zoneAt r (h1 ▸ h2)).trans h1, h2⟩

theorem Grows.walkOk {w : Walk} (hg : Grows m m') (h : WalkOk m w) : WalkOk m' w := ⟨hg.placed h.placed, h.leads⟩

theorem Grows.mapped {block : ℕ} (hg : Grows m m') (h : Mapped m block z) : Mapped m' block z :=
  ⟨h.1, (hg.zoneAt _ (h.2 ▸ h.1)).trans h.2⟩

theorem Grows.placeOk {q : Place} (hg : Grows m m') (hf : ∀ w z, q = .newGetblk w z → Fresh m z → Fresh m' z)
    (h : PlaceOk v m q) : PlaceOk v m' q := by
  cases q with
  | idle => trivial
  | loop pos buf => trivial
  | newSuper w => exact hg.walkOk h
  | newGetblk w z => exact ⟨hg.walkOk h.1, h.2.range, hg.zmap _ h.2.marked, hf w z rfl h.2.fresh⟩
  | bread w => exact hg.walkOk h
  | dataBread z pos buf => exact hg.mapped h
  | copy z block off chunk pos buf => exact hg.mapped h

/-! ## What the functions do -/

theorem sameTree_leave (m : Mem) (b : ℕ) (p : Path) : SameTree m (m.leave b p) := by
  cases p with
  | _ => exact ⟨rfl, rfl, rfl⟩

theorem found_spec {w : Walk} (hl : Leads (target (w.pos / 1024)) w.path w.rest) (hz : m.zoneAt w.path = z) :
    SameTree m (found m w z).1 ∧ PlaceOk v m (found m w z).2 := by
  have ht := sameTree_leave m w.b w.path
  unfold found
  by_cases h0 : z = 0
  · rw [if_pos h0]
    exact ⟨ht, trivial⟩
  rw [if_neg h0]
  cases hr : w.rest with
  | nil =>
    rw [hr] at hl
    exact ⟨ht, h0, by rw [← show w.path = _ from hl]; exact hz⟩
  | cons p rest =>
    rw [hr] at hl
    refine ⟨ht, fun r hup => ?_, hl.2⟩
    obtain rfl : w.path = r := Option.some.inj (hl.1.symm.trans hup)
    exact ⟨hz, h0⟩

theorem testSlot_spec {w : Walk} (hw : WalkOk m w) :
    SameTree m (testSlot m w).1 ∧ PlaceOk v m (testSlot m w).2 := by
  unfold testSlot
  rw [hw.placed.slot]
  split_ifs with h0
  · exact ⟨⟨rfl, rfl, rfl⟩, hw⟩
  · exact found_spec hw.leads rfl

theorem route_leads (t : Path) (p : Path) (rest : List Path) (h : t.route = p :: rest) : p.up = none ∧ Leads t p rest := by
  cases t with
  | top k => cases h; exact ⟨rfl, rfl⟩
  | ind k => cases h; exact ⟨rfl, rfl, rfl⟩
  | mid k => cases h; exact ⟨rfl, rfl, rfl⟩
  | leaf k l => cases h; exact ⟨rfl, rfl, rfl, rfl⟩

theorem firstZero_spec {f : ℕ → Bool} {i n j : ℕ} (h : firstZero f i n = some j) : f j = false := by
  induction n generalizing i with
  | zero => cases h
  | succ n ih =>
    unfold firstZero at h
    split_ifs at h with hi
    · exact ih h
    · cases h
      simpa using hi

/-- The zone of a free bit. -/
theorem freeBit_spec {j : ℕ} (hs : m.Sound v) (h : freeBit v m = some j) :
    m.zmap j = false ∧ v.firstdatazone ≤ zoneOf v j ∧ zoneOf v j + 1 - v.firstdatazone = j := by
  have hj := firstZero_spec h
  have hpos := v.first_pos
  have hj0 : j ≠ 0 := by
    rintro rfl
    rw [hs.bit] at hj
    cases hj
  unfold zoneOf
  exact ⟨hj, by omega, by omega⟩

theorem sameZones_setBit (m : Mem) (j : ℕ) (p : Path) : (m.setBit j).zoneAt p = m.zoneAt p := by
  cases p with
  | _ => rfl

theorem setBit_zmap {j k : ℕ} (h : m.zmap k = true) : (m.setBit j).zmap k = true := by
  change Function.update m.zmap j true k = true
  rw [Function.update_apply]
  split_ifs
  · rfl
  · exact h

theorem grows_setBit (m : Mem) (j : ℕ) : Grows m (m.setBit j) :=
  ⟨fun p _ => sameZones_setBit m j p, fun _ => setBit_zmap⟩

/-- The zone of a free bit is in no slot. -/
theorem reserve_spec {j : ℕ} (hs : m.Sound v) (h : freeBit v m = some j) (hn : ¬ v.nzones ≤ zoneOf v j) :
    Reserved v (m.setBit j) (zoneOf v j) := by
  obtain ⟨hfree, hfirst, hbit⟩ := freeBit_spec hs h
  refine ⟨⟨hfirst, by omega⟩, ?_, fun p he => ?_⟩
  · rw [hbit]
    exact Function.update_self ..
  · rw [sameZones_setBit] at he
    have hpos := v.first_pos
    have hm := hs.marked p (by rw [he]; omega)
    rw [he, hbit, hfree] at hm
    cases hm

/-- Without a zone nothing is stored, if the slot of the inode is empty. -/
theorem sameTree_store_zero (h : ∀ k, p = .top k → m.zone k = 0) : SameTree m (m.store b 0 p) := by
  cases p with
  | top k =>
    refine ⟨?_, rfl, rfl⟩
    change Function.update m.zone k 0 = m.zone
    rw [← h k rfl, Function.update_eq_self]
  | ind k => exact ⟨rfl, rfl, rfl⟩
  | mid k => exact ⟨rfl, rfl, rfl⟩
  | leaf k l => exact ⟨rfl, rfl, rfl⟩

/-- The slot of a logical block has no entries. -/
theorem up_ne_target (block : ℕ) (h : q.up = some r) : r ≠ target block := by
  rintro rfl
  unfold target at h
  split_ifs at h with h1 h2
  · cases q with
    | top k => cases h
    | ind k => cases h; exact absurd h1 (by decide)
    | mid k => cases h; exact absurd h1 (by decide)
    | leaf k l => cases h
  · cases q <;> cases h
  · cases q <;> cases h

/-- A byte of a data block is no part of the tree. -/
theorem zoneAt_setByte {block off : ℕ} {x : UInt8} (hs : m.Sound v) (hz : Mapped m block z) (q : Path) :
    (m.setByte z off x).zoneAt q = m.zoneAt q := by
  revert q
  refine Path.induct_up (fun k => rfl) fun q r hr ih => ?_
  rw [zoneAt_up _ hr, zoneAt_up m hr, ih]
  refine entry_congr fun hne => ?_
  have hrz : m.zoneAt r ≠ z := fun he => up_ne_target block hr (hs.inj r _ hne (he.trans hz.2.symm))
  change Block.word (Function.update m.block z _ _) _ = _
  rw [Function.update_of_ne hrz]

/-- If `new_block` returns in the next step, and its result is stored, the slot is still empty. -/
def SlotKept (v : Vol) (m : Mem) : Place → Prop
  | .newGetblk w _ => m.slot w.b w.path = 0
  | .newSuper w => (∀ j, freeBit v m = some j → v.nzones ≤ zoneOf v j) → ∀ k, w.path = .top k → m.zone k = 0
  | _ => True

/-- What one step of a writer at `q` does. -/
structure Went (v : Vol) (m : Mem) (q : Place) (m' : Mem) (q' : Place) : Prop where
  sound : m'.Sound v
  grows : Grows m m'
  place : PlaceOk v m' q'
  fresh : ∀ z, z ∉ q.gets → Fresh m z → Fresh m' z
  gets : ∀ z ∈ q.gets, z ≠ 0 ∧ ∃ p, m'.zoneAt p = z
  writes : ∀ x ∈ q.writes, Mapped m' x.1 x.2
  takes : ∀ w z, q' = .newGetblk w z → m.zmap (z + 1 - v.firstdatazone) = false

/-- A step that leaves all slots as they are. -/
theorem Went.same {q q' : Place} (hs : m.Sound v) (hz : ∀ p, m'.zoneAt p = m.zoneAt p)
    (hm : ∀ j, m.zmap j = true → m'.zmap j = true) (hq : PlaceOk v m' q') (hg : q.gets = [])
    (hw : ∀ x ∈ q.writes, Mapped m x.1 x.2)
    (ht : ∀ w z, q' = .newGetblk w z → m.zmap (z + 1 - v.firstdatazone) = false) : Went v m q m' q' where
  sound := hs.congr hz hm
  grows := ⟨fun p _ => hz p, hm⟩
  place := hq
  fresh z _ hf p := by rw [hz]; exact hf p
  gets z hmem := by rw [hg] at hmem; cases hmem
  writes x hx := by
    obtain ⟨h1, h2⟩ := hw x hx
    exact ⟨h1, (hz _).trans h2⟩
  takes := ht

theorem found_place {w w' : Walk} {z' : ℕ} : (found m w z).2 ≠ .newGetblk w' z' := by
  unfold found
  split_ifs
  · nofun
  · cases w.rest with
    | nil => nofun
    | cons p rest => nofun

theorem testSlot_place {w w' : Walk} : (testSlot m w).2 ≠ .newGetblk w' z := by
  unfold testSlot
  split_ifs
  · nofun
  · exact found_place

/-- `new_block` returns 0; it may have set a bit behind the last zone. -/
theorem newDone_zero {w : Walk} {m₁ : Mem} (hs : m.Sound v) (hz : ∀ p, m₁.zoneAt p = m.zoneAt p)
    (hm : ∀ j, m.zmap j = true → m₁.zmap j = true) (h0 : ∀ k, w.path = .top k → m₁.zone k = 0)
    (h : newDone m₁ w 0 = (m', q')) : Went v m (.newSuper w) m' q' := by
  cases h
  have h1 : SameTree m₁ (newDone m₁ w 0).1 := (sameTree_store_zero h0).trans (sameTree_leave _ _ _)
  exact .same hs (fun p => (h1.zoneAt p).trans (hz p)) (fun j hj => h1.grows.zmap j (hm j hj)) trivial rfl nofun nofun

/-- A reserved zone is put into an empty slot. -/
theorem store_sound (hs : m.Sound v) (hp : Placed m b p) (h0 : m.zoneAt p = 0) (hr : Reserved v m z) :
    ((m.clearBlock z).store b z p).Sound v ∧ Grows m ((m.clearBlock z).store b z p) := by
  have hz := hr.ne_zero
  have hzone := zoneAt_store hs hp h0 hr.fresh hz (hr.range.2.trans v.short)
  have hzmap := store_zmap m b z p
  refine ⟨⟨?_, fun q => ?_, fun q => ?_, fun q q' => ?_⟩, fun q hq => ?_, fun j hj => ?_⟩
  · rw [hzmap]
    exact hs.bit
  · rw [hzone]
    split_ifs
    · exact fun _ => hr.range
    · exact hs.range q
  · rw [hzone, hzmap]
    split_ifs
    · exact fun _ => hr.marked
    · exact hs.marked q
  · rw [hzone, hzone]
    split_ifs with hq hq' hq'
    · exact fun _ _ => hq.trans hq'.symm
    · exact fun _ he => absurd he.symm (hr.fresh q')
    · exact fun _ he => absurd he (hr.fresh q)
    · exact hs.inj q q'
  · rw [hzone, if_neg]
    rintro rfl
    exact hq h0
  · rw [hzmap]
    exact hj

/-- `new_block` returns a zone. -/
theorem newDone_zone {w : Walk} (hs : m.Sound v) (hw : WalkOk m w) (hr : Reserved v m z)
    (h0 : m.slot w.b w.path = 0) :
    Went v m (.newGetblk w z) (newDone (m.clearBlock z) w z).1 (newDone (m.clearBlock z) w z).2 := by
  have hz := hr.ne_zero
  rw [hw.placed.slot] at h0
  have hstore := zoneAt_store hs hw.placed h0 hr.fresh hz (hr.range.2.trans v.short)
  obtain ⟨hsound, hgrows⟩ := store_sound hs hw.placed h0 hr
  have hself : ((m.clearBlock z).store w.b z w.path).zoneAt w.path = z := by rw [hstore, if_pos rfl]
  obtain ⟨ht, hplace⟩ := found_spec (v := v) (m := (m.clearBlock z).store w.b z w.path) hw.leads hself
  have hzone : ∀ p, (newDone (m.clearBlock z) w z).1.zoneAt p = if p = w.path then z else m.zoneAt p := fun p =>
    (ht.zoneAt p).trans (hstore p)
  refine ⟨hsound.congr ht.zoneAt ht.grows.zmap, ⟨fun p hp => (ht.zoneAt p).trans (hgrows.zoneAt p hp), fun j hj => ?_⟩, ?_,
    fun z' hz' hf p => ?_, fun z' hz' => ?_, nofun, fun w' z' he => absurd he found_place⟩
  · exact ht.grows.zmap j (hgrows.zmap j hj)
  · refine SameTree.grows ht |>.placeOk (fun w' z' he => absurd he found_place) ?_
    exact hplace
  · rw [hzone]
    split_ifs
    · exact fun he => hz' (List.mem_singleton.mpr he.symm)
    · exact hf p
  · rw [List.mem_singleton.mp hz']
    exact ⟨hz, w.path, by rw [hzone, if_pos rfl]⟩

/-- The test of a slot, after which the writer is in `new_block` or further. -/
theorem testSlot_went {q q' : Place} {m₁ : Mem} {w : Walk} (hs : m.Sound v) (hw : WalkOk m₁ w) (ht : SameTree m m₁)
    (hg : q.gets = []) (hwr : q.writes = []) (h : testSlot m₁ w = (m', q')) : Went v m q m' q' := by
  obtain ⟨h1, h2⟩ := testSlot_spec (v := v) hw
  have h3 : ∀ w' z, (testSlot m₁ w).2 ≠ .newGetblk w' z := fun _ _ => testSlot_place
  rw [h] at h1 h2 h3
  have h4 := ht.trans h1
  have h5 : PlaceOk v m' q' := h1.grows.placeOk (fun w' z he => absurd he (h3 w' z)) h2
  exact .same hs h4.zoneAt h4.grows.zmap h5 hg (by rw [hwr]; nofun) fun w' z he => absurd he (h3 w' z)

theorem go_went {q q' : Place} (hs : m.Sound v) (hq : PlaceOk v m q) (hk : SlotKept v m q)
    (h : go v m q = some (m', q')) : Went v m q m' q' := by
  cases q with
  | idle => cases h
  | loop pos buf =>
    dsimp only [go] at h
    split_ifs at h with h1 h2
    · cases h
      exact .same hs (fun _ => rfl) (fun _ h => h) trivial rfl nofun nofun
    · split at h
      · cases h
      · rename_i p rest hr
        obtain ⟨hp, hl⟩ := route_leads _ p rest hr
        have hw : WalkOk m ⟨0, p, rest, pos, buf⟩ := ⟨fun r hup => absurd (hp.symm.trans hup) nofun, hl⟩
        exact testSlot_went hs hw (SameTree.refl m) rfl rfl (Option.some.inj h)
  | newSuper w =>
    dsimp only [go] at h
    cases hj : freeBit v m with
    | none =>
      rw [hj] at h
      exact newDone_zero hs (fun _ => rfl) (fun _ h => h) (hk (by rw [hj]; nofun)) (Option.some.inj h)
    | some j =>
      rw [hj] at h
      dsimp only at h
      obtain ⟨hfree, -, hbit⟩ := freeBit_spec hs hj
      split_ifs at h with hn
      · -- the bit stays set, and nobody has the zone
        have h0 : ∀ k, w.path = .top k → m.zone k = 0 := hk fun j' hj' => by
          cases hj.symm.trans hj'
          exact hn
        exact newDone_zero hs (sameZones_setBit m j) (fun _ => setBit_zmap) h0 (Option.some.inj h)
      · cases h
        refine .same hs (sameZones_setBit m j) (fun _ => setBit_zmap) ⟨(grows_setBit m j).walkOk hq, reserve_spec hs hj hn⟩
          rfl nofun fun w' z' he => ?_
        cases he
        rw [hbit]
        exact hfree
  | newGetblk w z =>
    dsimp only [go] at h
    split_ifs at h
    have h1 := newDone_zone hs hq.1 hq.2 hk
    rw [Option.some.inj h] at h1
    exact h1
  | bread w =>
    have ht : SameTree m (m.take w.b) := ⟨rfl, rfl, rfl⟩
    exact testSlot_went hs (ht.grows.walkOk hq) ht rfl rfl (Option.some.inj h)
  | dataBread z pos buf =>
    have ht : SameTree m ((m.take z).grow (pos + min (1024 - pos % 1024) buf.length)) := by
      unfold Mem.grow
      split_ifs
      · exact ⟨rfl, rfl, rfl⟩
      · exact ⟨rfl, rfl, rfl⟩
    cases h
    exact .same hs ht.zoneAt ht.grows.zmap (ht.grows.mapped hq) rfl nofun nofun
  | copy z block off chunk pos buf =>
    cases chunk with
    | nil =>
      have ht : SameTree m (m.release z) := ⟨rfl, rfl, rfl⟩
      cases h
      exact .same hs ht.zoneAt ht.grows.zmap trivial rfl nofun nofun
    | cons x xs =>
      cases h
      have hz : ∀ q, (m.setByte z off x).zoneAt q = m.zoneAt q := zoneAt_setByte hs hq
      have hmap : Mapped (m.setByte z off x) block z := ⟨hq.1, (hz _).trans hq.2⟩
      refine .same hs hz (fun _ h => h) hmap rfl (fun y hy => ?_) nofun
      cases List.mem_singleton.mp hy
      exact hq

/-! ## Every run -/

variable {ι : Type} [DecidableEq ι] {σ σ' : Sys ι}

/-- When `new_block` returns to a writer and its result is stored, no other writer has filled the
    slot since it was tested. -/
def KeepsSlot (v : Vol) (σ : Sys ι) : Event ι → Prop
  | .go p => SlotKept v σ.m (σ.place p)
  | _ => True

structure Inv (v : Vol) (σ : Sys ι) : Prop where
  sound : σ.m.Sound v
  place : ∀ p, PlaceOk v σ.m (σ.place p)
  /-- no zone is given to two writers -/
  apart : ∀ p p' w w' z, σ.place p = .newGetblk w z → σ.place p' = .newGetblk w' z → p = p'
  got : ∀ z ∈ σ.got, z ≠ 0 ∧ ∃ p, σ.m.zoneAt p = z
  wrote : ∀ x ∈ σ.wrote, Mapped σ.m x.1 x.2

theorem Inv.setPlace (hi : Inv v σ) {p : ι} {q : Place} (hq : PlaceOk v σ.m q) (hne : ∀ w z, q ≠ .newGetblk w z) :
    Inv v { σ with place := Function.update σ.place p q } := by
  refine ⟨hi.sound, fun p' => ?_, fun p₁ p₂ w w' z h₁ h₂ => ?_, hi.got, hi.wrote⟩
  · dsimp only
    rw [Function.update_apply]
    split_ifs
    · exact hq
    · exact hi.place p'
  · dsimp only at h₁ h₂
    rw [Function.update_apply] at h₁ h₂
    split_ifs at h₁ h₂
    · exact absurd h₁ (hne w z)
    · exact absurd h₁ (hne w z)
    · exact absurd h₂ (hne w' z)
    · exact hi.apart p₁ p₂ w w' z h₁ h₂

theorem Inv.step {e : Event ι} (hi : Inv v σ) (hk : KeepsSlot v σ e) (h : Sys.Step v σ e σ') : Inv v σ' := by
  cases h with
  | write hp => exact hi.setPlace trivial nofun
  | ioError hp => exact hi.setPlace trivial nofun
  | go hg =>
    rename_i p m' q
    have hw := go_went hi.sound (hi.place p) hk hg
    -- the zone of another writer in `getblk` is not the one this step stores
    have hother : ∀ p' w z, p' ≠ p → σ.place p' = .newGetblk w z → z ∉ (σ.place p).gets := by
      intro p' w z hne hp' hz
      cases hq : σ.place p with
      | newGetblk w' z' =>
        rw [hq] at hz
        cases List.mem_singleton.mp hz
        exact hne (hi.apart p' p w w' _ hp' hq)
      | _ => rw [hq] at hz; cases hz
    refine ⟨hw.sound, fun p' => ?_, fun p₁ p₂ w w' z h₁ h₂ => ?_, fun z hz => ?_, fun x hx => ?_⟩
    · dsimp only
      rw [Function.update_apply]
      split_ifs with hp
      · exact hw.place
      · exact hw.grows.placeOk (fun w z he hf => hw.fresh z (hother p' w z hp he) hf) (hi.place p')
    · dsimp only at h₁ h₂
      rw [Function.update_apply] at h₁ h₂
      -- a zone just taken was not marked
      have hnew : ∀ p' w w', p' ≠ p → q = .newGetblk w z → σ.place p' ≠ .newGetblk w' z := by
        intro p' w w' hp' hq hp
        have h1 := hw.takes w z hq
        have h2 := hi.place p'
        rw [hp] at h2
        rw [h2.2.marked] at h1
        cases h1
      split_ifs at h₁ h₂ with hp₁ hp₂ hp₂
      · rw [hp₁, hp₂]
      · exact absurd h₂ (hnew p₂ w w' hp₂ h₁)
      · exact absurd h₁ (hnew p₁ w' w hp₁ h₂)
      · exact hi.apart p₁ p₂ w w' z h₁ h₂
    · obtain hz | hz := List.mem_append.mp hz
      · exact hw.gets z hz
      · obtain ⟨h0, p', hp'⟩ := hi.got z hz
        exact ⟨h0, p', (hw.grows.zoneAt p' (hp' ▸ h0)).trans hp'⟩
    · obtain hx | hx := List.mem_append.mp hx
      · exact hw.writes x hx
      · exact hw.grows.mapped (hi.wrote x hx)

theorem reachable_inv (hr : ((extendSystem v ι).restrict (KeepsSlot v)).Reachable σ) : Inv v σ := by
  refine hr.invariant (fun σ h => ?_) fun σ e σ' _ hi hstep => hi.step hstep.1 hstep.2
  obtain ⟨hs, hp, hg, hw⟩ := h
  refine ⟨hs, fun p => ?_, fun p p' w w' z h => ?_, fun z hz => ?_, fun x hx => ?_⟩
  · rw [hp]
    trivial
  · rw [hp] at h
    cases h
  · rw [hg] at hz
    cases hz
  · rw [hw] at hx
    cases hx

/-- In a run in which no result of `new_block` is stored over what another writer has put into the
    slot, every zone `new_block` has returned is in the inode's tree, and every logical block was
    written to the zone the tree has for it. -/
theorem extension_loses_no_block (hr : ((extendSystem v ι).restrict (KeepsSlot v)).Reachable σ) :
    (∀ z ∈ σ.got, z ≠ 0 ∧ ∃ p, σ.m.zoneAt p = z) ∧
      ∀ block z, (block, z) ∈ σ.wrote → z ≠ 0 ∧ σ.m.zoneAt (target block) = z :=
  ⟨(reachable_inv hr).got, fun block z h => (reachable_inv hr).wrote (block, z) h⟩

/-! ## Runs on an empty inode -/

def floppy : Vol := ⟨⟨64, 1440, 1, 1, 16, 0x137F⟩, by decide, by decide⟩

/-- No block, and no zone taken but the one that is not there. -/
def emptyMem : Mem where
  zone _ := 0
  size := 0
  dirt := false
  zmap j := j = 0
  block _ := Block.zero
  bcount _ := 0

theorem zoneAt_empty (h7 : m.zone 7 = 0) (h8 : m.zone 8 = 0) : (∃ k, p = .top k) ∨ m.zoneAt p = 0 := by
  cases p with
  | top k => exact .inl ⟨k, rfl⟩
  | ind k => exact .inr (by rw [Mem.zoneAt, h7]; rfl)
  | mid k => exact .inr (by rw [Mem.zoneAt, h8]; rfl)
  | leaf k l => exact .inr (by rw [Mem.zoneAt, h8]; rfl)

theorem sound_empty : emptyMem.Sound v := by
  have h : ∀ p, emptyMem.zoneAt p = 0 := fun p => by
    obtain ⟨k, rfl⟩ | h := zoneAt_empty (m := emptyMem) (p := p) rfl rfl
    · rfl
    · exact h
  exact ⟨rfl, fun p hp => absurd (h p) hp, fun p hp => absurd (h p) hp, fun p _ hp => absurd (h p) hp⟩

def start : Sys (Fin 2) := ⟨emptyMem, fun _ => .idle, [], []⟩

theorem init_start : (extendSystem floppy (Fin 2)).init start := ⟨sound_empty, fun _ => rfl, rfl, rfl⟩

def Place.isIdle : Place → Bool
  | .idle => true
  | _ => false

/-- A step of the two runs. -/
def Sys.next (σ : Sys (Fin 2)) : Event (Fin 2) → Option (Sys (Fin 2))
  | .write p append pos buf =>
    if (σ.place p).isIdle then
      some { σ with place := Function.update σ.place p (.loop (if append then σ.m.size else pos) buf) }
    else none
  | .go p => (go floppy σ.m (σ.place p)).map fun r =>
    ⟨r.1, Function.update σ.place p r.2, (σ.place p).gets ++ σ.got, (σ.place p).writes ++ σ.wrote⟩
  | .ioError _ => none

theorem isIdle_eq {q : Place} (h : q.isIdle = true) : q = .idle := by
  cases q with
  | idle => rfl
  | _ => cases h

theorem next_step {σ σ' : Sys (Fin 2)} {e : Event (Fin 2)} (h : σ.next e = some σ') : Sys.Step floppy σ e σ' := by
  cases e with
  | write p append pos buf =>
    dsimp only [Sys.next] at h
    by_cases hp : (σ.place p).isIdle = true
    · rw [if_pos hp] at h
      cases h
      exact .write (isIdle_eq hp)
    · rw [if_neg hp] at h
      cases h
  | go p =>
    obtain ⟨⟨m', q⟩, hg, rfl⟩ := Option.map_eq_some_iff.mp h
    exact .go hg
  | ioError p => cases h

/-- The writers that wait for `new_block` find their slots still empty. -/
def Sys.kept (σ : Sys (Fin 2)) : Event (Fin 2) → Bool
  | .go p => match σ.place p with
    | .newSuper w | .newGetblk w _ => σ.m.slot w.b w.path = 0
    | _ => true
  | _ => true

def Sys.keptNext (σ : Sys (Fin 2)) (e : Event (Fin 2)) : Option (Sys (Fin 2)) := if σ.kept e then σ.next e else none

theorem keptNext_step {σ σ' : Sys (Fin 2)} {e : Event (Fin 2)} (h : σ.keptNext e = some σ') :
    KeepsSlot floppy σ e ∧ Sys.Step floppy σ e σ' := by
  unfold Sys.keptNext at h
  split_ifs at h with hk
  refine ⟨?_, next_step h⟩
  cases e with
  | write p append pos buf => trivial
  | ioError p => trivial
  | go p =>
    dsimp only [KeepsSlot, Sys.kept] at hk ⊢
    cases hq : σ.place p with
    | newSuper w =>
      rw [hq] at hk
      intro _ k hw
      have h0 := of_decide_eq_true hk
      rw [hw] at h0
      exact h0
    | newGetblk w z =>
      rw [hq] at hk
      have h0 : σ.m.slot w.b w.path = 0 := of_decide_eq_true hk
      exact h0
    | _ => trivial

theorem extension_loses_no_block_one_byte : ∃ σ : Sys (Fin 2), σ.got = [16] ∧ ∃ p, σ.m.zoneAt p = 16 := by
  have h1 : (([.write 0 false 0 [65], .go 0, .go 0, .go 0].foldlM Sys.keptNext start).map fun σ => σ.got) = some [16] := by
    decide
  obtain ⟨σ, hσ, hg⟩ := Option.map_eq_some_iff.mp h1
  have hr : ((extendSystem floppy (Fin 2)).restrict (KeepsSlot floppy)).Reachable σ := by
    have hinit : ((extendSystem floppy (Fin 2)).restrict (KeepsSlot floppy)).Reachable start := .init init_start
    exact hinit.foldlM (fun _ e _ h => ⟨e, keptNext_step h⟩) _ hσ
  exact ⟨σ, hg, ((extension_loses_no_block hr).1 16 (by rw [hg]; exact List.mem_singleton_self 16)).2⟩

/-- Each writes one byte to the first block. Both are in `new_block` before it returns to either. -/
def twoWriters : List (Event (Fin 2)) := List.flatten
  [[.write 0 false 0 [65], .write 1 false 0 [66], .go 0, .go 0, .go 1, .go 1], List.replicate 5 (.go 0),
    List.replicate 5 (.go 1)]

/-- When both calls have ended, the zone of the first is marked and in no slot, and what the first
    wrote is not in the file. -/
theorem two_writers_lose_block : ∃ σ : Sys (Fin 2), (extendSystem floppy (Fin 2)).Reachable σ ∧
    (∀ p, σ.place p = .idle) ∧ 16 ∈ σ.got ∧ σ.m.zmap 1 = true ∧ (∀ p, σ.m.zoneAt p ≠ 16) ∧
    (0, 16) ∈ σ.wrote ∧ σ.m.zoneAt (target 0) = 17 := by
  have h1 : ((twoWriters.foldlM Sys.next start).map fun σ => (σ.got, σ.wrote, σ.m.zmap 1,
      (List.finRange 9).all fun k => σ.m.zone k = if k = 0 then 17 else 0,
      (List.finRange 2).all fun p => (σ.place p).isIdle)) =
      some ([17, 16], [(0, 17), (0, 16)], true, true, true) := by decide
  obtain ⟨σ, hσ, h2⟩ := Option.map_eq_some_iff.mp h1
  simp only [Prod.mk.injEq] at h2
  obtain ⟨hgot, hwrote, hbit, hzone, hidle⟩ := h2
  have hr : (extendSystem floppy (Fin 2)).Reachable σ := by
    have hinit : (extendSystem floppy (Fin 2)).Reachable start := .init init_start
    exact hinit.foldlM (fun _ e _ h => ⟨e, next_step h⟩) twoWriters hσ
  have hz : ∀ k, σ.m.zone k = if k = 0 then 17 else 0 := fun k =>
    of_decide_eq_true (List.all_eq_true.mp hzone k (List.mem_finRange k))
  refine ⟨σ, hr, fun p => isIdle_eq (List.all_eq_true.mp hidle p (List.mem_finRange p)), by rw [hgot]; decide, hbit,
    fun p hp => ?_, by rw [hwrote]; decide, hz 0⟩
  obtain ⟨k, rfl⟩ | h0 := zoneAt_empty (m := σ.m) (p := p) (hz 7) (hz 8)
  · rw [Mem.zoneAt, hz] at hp
    split_ifs at hp with hk
    exact absurd hp (by decide)
  · rw [h0] at hp
    cases hp

end Linux011.Fs.Extend
