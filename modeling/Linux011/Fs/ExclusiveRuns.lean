/-
  Exclusive creation. As long as no process stores its new entry while another has already passed that
  entry in `find_entry`, or is on its way from there to its own, at most one call succeeds, and no two
  live entries of the directory have the same name.
-/
import Linux011.Fs.Exclusive
import Linux011.Fs.ExtendRuns

namespace Linux011.Fs.Exclusive

open Linux011.Lib
open Linux011.Fs.Extend (Path target Vol Mem Grows Placed Leads Mapped Fresh SlotKept)

variable {v : Vol} {m m' : Mem} {n seek name : List UInt8} {i j k l z entries nr : ℕ}

/-! ## Blocks of the directory -/

theorem target_inj (hj : j < 7 + 512 + 512 * 512) (hk : k < 7 + 512 + 512 * 512) (h : target j = target k) : j = k := by
  unfold target at h
  split_ifs at h with h1 h2 h3 h4 h5 h6 h7
  · cases h
    rfl
  · have he := Path.ind.inj h
    simp only [Fin.mk.injEq] at he
    omega
  · obtain ⟨he, he'⟩ := Path.leaf.inj h
    simp only [Fin.mk.injEq] at he he'
    omega

/-- Two entries in one zone are in one block. -/
theorem block_eq (hs : m.Sound v) (hi : i / 64 < 7 + 512 + 512 * 512) (hk : k / 64 < 7 + 512 + 512 * 512)
    (h0 : zoneFor m i ≠ 0) (h : zoneFor m i = zoneFor m k) : i / 64 = k / 64 :=
  target_inj hi hk (hs.inj _ _ h0 h)

/-- The blocks agree in entry `j`. -/
def Agree (b b' : Block) (j : ℕ) : Prop := ∀ o, o < 16 → b' (16 * j + o) = b (16 * j + o)

variable {b b' : Block}

theorem Agree.word (h : Agree b b' j) : b'.word (8 * j) = b.word (8 * j) := by
  unfold Block.word
  have h0 := h 0 (by omega)
  have h1 := h 1 (by omega)
  rw [show 2 * (8 * j) = 16 * j + 0 by omega, show 16 * j + 0 + 1 = 16 * j + 1 by omega, h0, h1]

theorem Agree.nameOf (h : Agree b b' j) : nameOf b' j = nameOf b j := by
  have hn : b'.name j = b.name j := by
    refine List.map_congr_left fun o ho => ?_
    have ho' := List.mem_range.mp ho
    rw [show 16 * j + 2 + o = 16 * j + (2 + o) by omega, h (2 + o) (by omega)]
  unfold Exclusive.nameOf
  rw [hn]

theorem Entry.congr (hin : 16 * k < m'.size) (hz : zoneFor m' k = zoneFor m k)
    (hb : Agree (m.block (zoneFor m k)) (m'.block (zoneFor m k)) (k % 64)) (h : Entry m name k) : Entry m' name k where
  inside := hin
  zone := by rw [hz]; exact h.zone
  live := by rw [hz, hb.word]; exact h.live
  name := by rw [hz, hb.nameOf]; exact h.name

/-! ## What is kept -/

/-- The inode number in entry `k`, and byte `j` of its name. -/
def word (m : Mem) (k : ℕ) : ℕ := (m.block (zoneFor m k)).word (8 * (k % 64))

def byte (m : Mem) (k j : ℕ) : UInt8 := m.block (zoneFor m k) (16 * (k % 64) + 2 + j)

/-- The step keeps all entries, and at an empty entry what has been written of name `n`. -/
structure Kept (n : List UInt8) (m m' : Mem) : Prop where
  grows : Grows m m'
  size : m.size ≤ m'.size
  entry : ∀ name k, Entry m' name k ↔ Entry m name k
  empty : ∀ k, 16 * k < m.size → zoneFor m k ≠ 0 → word m k = 0 → word m' k = 0
  bytes : ∀ k j, j < 14 → zoneFor m k ≠ 0 → byte m k j = n.getD j 0 → byte m' k j = n.getD j 0

theorem Grows.zoneFor (h : Grows m m') (h0 : zoneFor m k ≠ 0) : zoneFor m' k = zoneFor m k := h.zoneAt _ h0

theorem Kept.refl (n : List UInt8) (m : Mem) : Kept n m m :=
  ⟨⟨fun _ _ => rfl, fun _ h => h⟩, Nat.le_refl _, fun _ _ => Iff.rfl, fun _ _ _ h => h, fun _ _ _ _ h => h⟩

theorem Kept.trans {m'' : Mem} (h : Kept n m m') (h' : Kept n m' m'') : Kept n m m'' where
  grows := by
    refine ⟨fun p hp => ?_, fun j hj => h'.grows.zmap j (h.grows.zmap j hj)⟩
    have h1 := h.grows.zoneAt p hp
    rw [h'.grows.zoneAt p (by rw [h1]; exact hp), h1]
  size := h.size.trans h'.size
  entry name k := (h'.entry name k).trans (h.entry name k)
  empty k hk hz hw := by
    refine h'.empty k (hk.trans_le h.size) ?_ (h.empty k hk hz hw)
    rw [Grows.zoneFor h.grows hz]
    exact hz
  bytes k j hj hz hb := by
    refine h'.bytes k j hj ?_ (h.bytes k j hj hz hb)
    rw [Grows.zoneFor h.grows hz]
    exact hz

theorem Agree.symm (h : Agree b b' j) : Agree b' b j := fun o ho => (h o ho).symm

/-- Live entries stay as they are, empty ones stay empty, and new ones are empty. -/
theorem Kept.of_agree (hg : Grows m m') (hsize : m.size ≤ m'.size)
    (hold : ∀ k, 16 * k < m.size → zoneFor m k ≠ 0 → word m' k = word m k ∧
      (word m k ≠ 0 → Agree (m.block (zoneFor m k)) (m'.block (zoneFor m k)) (k % 64)))
    (hnew : ∀ k, 16 * k < m'.size → zoneFor m' k ≠ 0 → m.size ≤ 16 * k ∨ zoneFor m k = 0 → word m' k = 0)
    (hbytes : ∀ k j, j < 14 → zoneFor m k ≠ 0 → byte m k j = n.getD j 0 → byte m' k j = n.getD j 0) :
    Kept n m m' where
  grows := hg
  size := hsize
  entry name k := by
    constructor
    · intro h
      by_cases hk : 16 * k < m.size ∧ zoneFor m k ≠ 0
      · obtain ⟨hin, h0⟩ := hk
        obtain ⟨hw, hb⟩ := hold k hin h0
        have hz := Grows.zoneFor hg h0
        refine h.congr hin hz.symm ?_
        rw [hz]
        exact (hb (hw ▸ h.live)).symm
      · exact absurd (hnew k h.inside h.zone (by omega)) h.live
    · intro h
      exact h.congr (h.inside.trans_le hsize) (Grows.zoneFor hg h.zone) ((hold k h.inside h.zone).2 h.live)
  empty k hk hz hw := (hold k hk hz).1.trans hw
  bytes := hbytes

/-- The zone of entry `i` is `z`. -/
def At (m : Mem) (i z : ℕ) : Prop := z ≠ 0 ∧ zoneFor m i = z

theorem Kept.at (h : Kept n m m') (ha : At m i z) : At m' i z := by
  refine ⟨ha.1, ?_⟩
  rw [Grows.zoneFor h.grows (ha.2 ▸ ha.1)]
  exact ha.2

/-- The contents of a block of the directory are no part of the tree. -/
theorem zoneAt_setBlock (hs : m.Sound v) (ha : At m i z) (x : Block) (q : Path) : (setBlock m z x).zoneAt q = m.zoneAt q := by
  revert q
  refine Path.induct_up (fun k => rfl) fun q r hr ih => ?_
  rw [Extend.zoneAt_up _ hr, Extend.zoneAt_up m hr, ih]
  refine Extend.entry_congr fun hne => ?_
  have hrz : m.zoneAt r ≠ z := fun he => Extend.up_ne_target (i / 64) hr (hs.inj r _ hne (he.trans ha.2.symm))
  change Block.word (Function.update m.block z x _) _ = _
  rw [Function.update_of_ne hrz]

/-- A block of the directory changes in entry `i` only. -/
theorem agree_setBlock (hs : m.Sound v) (ha : At m i z) (hi : i / 64 < 7 + 512 + 512 * 512)
    (hk : k / 64 < 7 + 512 + 512 * 512) (hne : k ≠ i) {x : Block} (hx : ∀ o, o / 16 ≠ i % 64 → x o = m.block z o) :
    Agree (m.block (zoneFor m k)) ((setBlock m z x).block (zoneFor m k)) (k % 64) := by
  intro o ho
  change Function.update m.block z x (zoneFor m k) _ = _
  by_cases hz : zoneFor m k = z
  · have hblock := block_eq hs hi hk (by rw [ha.2]; exact ha.1) (ha.2.trans hz.symm)
    rw [hz, Function.update_self, hx _ (by omega)]
  · rw [Function.update_of_ne hz]

/-- An empty entry is written, and stays empty. -/
theorem kept_setBlock (hd : Dir v m) (ha : At m i z) (hi : i / 64 < 7 + 512 + 512 * 512) {x : Block}
    (hx : ∀ o, o / 16 ≠ i % 64 → x o = m.block z o) (hw : 16 * i < m.size → word m i = 0)
    (hw' : x.word (8 * (i % 64)) = 0)
    (hb : ∀ j, j < 14 → m.block z (16 * (i % 64) + 2 + j) = n.getD j 0 → x (16 * (i % 64) + 2 + j) = n.getD j 0) :
    Kept n m (setBlock m z x) := by
  have hz := zoneAt_setBlock hd.sound ha x
  have hword : word (setBlock m z x) i = 0 := by
    unfold word
    rw [zoneFor, hz, ← zoneFor, ha.2]
    change Block.word (Function.update m.block z x z) _ = 0
    rw [Function.update_self]
    exact hw'
  have hlim : ∀ k, 16 * k < m.size → k / 64 < 7 + 512 + 512 * 512 := fun k hk => by
    have hmax := hd.size.2
    omega
  refine .of_agree ⟨fun p _ => hz p, fun _ h => h⟩ (Nat.le_refl _) (fun k hk h0 => ?_) (fun k hk h0 hor => ?_)
    fun k j hj h0 hbyte => ?_
  · by_cases hki : k = i
    · subst hki
      rw [hword, hw hk]
      exact ⟨rfl, fun h => absurd rfl h⟩
    · have hag := agree_setBlock hd.sound ha hi (hlim k hk) hki hx
      refine ⟨?_, fun _ => hag⟩
      unfold word
      rw [zoneFor, hz, ← zoneFor]
      exact hag.word
  · have hor' : zoneFor m k = 0 := hor.resolve_left (by
      have hin : 16 * k < m.size := hk
      omega)
    rw [zoneFor, hz] at h0
    exact absurd hor' h0
  · unfold byte at hbyte ⊢
    rw [zoneFor, hz, ← zoneFor]
    change Function.update m.block z x (zoneFor m k) _ = _
    by_cases hkz : zoneFor m k = z
    · rw [hkz] at hbyte ⊢
      rw [Function.update_self]
      by_cases hki : k % 64 = i % 64
      · rw [hki] at hbyte ⊢
        exact hb j hj hbyte
      · rw [hx _ (by omega)]
        exact hbyte
    · rw [Function.update_of_ne hkz]
      exact hbyte

theorem Kept.dir (h : Kept n m m') (hd : Dir v m) (hs : m'.Sound v)
    (hsize : 16 ∣ m'.size ∧ m'.size ≤ 1024 * (7 + 512 + 512 * 512)) : Dir v m' where
  sound := hs
  size := hsize
  dot := (h.entry _ _).mpr hd.dot
  dotdot := (h.entry _ _).mpr hd.dotdot
  unique name k l hk hl := hd.unique name k l ((h.entry _ _).mp hk) ((h.entry _ _).mp hl)

theorem sound_setBlock (hd : Dir v m) (ha : At m i z) (x : Block) : (setBlock m z x).Sound v :=
  hd.sound.congr (zoneAt_setBlock hd.sound ha x) fun _ h => h

theorem setWord_other (b : Block) {w o : ℕ} (x : ℕ) (h : o ≠ 2 * w ∧ o ≠ 2 * w + 1) : b.setWord w x o = b o := by
  unfold Block.setWord
  rw [Function.update_of_ne h.2, Function.update_of_ne h.1]

/-- `add_entry` has made sure that entry `i` is in the directory. -/
structure Grown (v : Vol) (n : List UInt8) (m m' : Mem) (i : ℕ) : Prop where
  kept : Kept n m m'
  dir : Dir v m'
  inside : 16 * i < m'.size
  zone : ∀ p, m'.zoneAt p = m.zoneAt p
  zmap : m'.zmap = m.zmap

theorem growDir_grown (n : List UInt8) (hd : Dir v m) (ha : At m i z) (hi : i / 64 < 7 + 512 + 512 * 512)
    (hle : 16 * i ≤ m.size) : Grown v n m (growDir m i z) i := by
  unfold growDir
  split_ifs with hg
  · have hsize : m.size = 16 * i := by omega
    set x := (m.block z).setWord (8 * (i % 64)) 0 with hxd
    have hword : x.word (8 * (i % 64)) = 0 := by
      rw [hxd, Extend.Block.word_setWord _ _ _ _ (by decide), if_pos rfl]
    have h1 : Kept n m (setBlock m z x) := by
      refine kept_setBlock hd ha hi (fun o ho => setWord_other _ _ (by omega)) (fun hin => ?_) hword fun j hj hb => ?_
      · omega
      · rw [hxd, setWord_other _ _ (by omega)]
        exact hb
    have hs1 := sound_setBlock hd ha x
    -- the empty entry comes in
    have hz := zoneAt_setBlock hd.sound ha x
    have h2 : Kept n (setBlock m z x) { setBlock m z x with size := 16 * (i + 1), dirt := true } := by
      refine .of_agree ⟨fun p _ => rfl, fun _ h => h⟩ ?_ (fun k hk h0 => ⟨rfl, fun _ o ho => rfl⟩) (fun k hk h0 hor => ?_)
        fun k j hj h0 hb => hb
      · change m.size ≤ 16 * (i + 1)
        omega
      · have hki : k = i := by
          obtain hor | hor := hor
          · change m.size ≤ 16 * k at hor
            change 16 * k < 16 * (i + 1) at hk
            omega
          · exact absurd hor h0
        subst hki
        change ((setBlock m z x).block (zoneFor (setBlock m z x) k)).word _ = 0
        rw [zoneFor, hz, ← zoneFor, ha.2]
        change Block.word (Function.update m.block z x z) _ = 0
        rw [Function.update_self]
        exact hword
    have hk := h1.trans h2
    refine ⟨hk, hk.dir hd (hs1.congr (fun _ => rfl) fun _ h => h) ⟨?_, ?_⟩, ?_, hz, rfl⟩
    · exact ⟨i + 1, rfl⟩
    · change 16 * (i + 1) ≤ _
      omega
    · change 16 * i < 16 * (i + 1)
      omega
  · exact ⟨.refl n m, hd, by omega, fun _ => rfl, rfl⟩

/-- A byte of the name is written into an empty entry. -/
theorem setByte_kept (hd : Dir v m) (ha : At m i z) (hi : i / 64 < 7 + 512 + 512 * 512)
    (hw : word m i = 0) (hk : k < 14) : Kept n m (m.setByte z (16 * (i % 64) + 2 + k) (n.getD k 0)) := by
  change Kept n m (setBlock m z (Function.update (m.block z) (16 * (i % 64) + 2 + k) (n.getD k 0)))
  refine kept_setBlock hd ha hi (fun o ho => ?_) (fun _ => hw) ?_ fun j hj hb => ?_
  · rw [Function.update_of_ne]
    omega
  · unfold word at hw
    rw [ha.2] at hw
    unfold Block.word at hw ⊢
    rw [Function.update_of_ne (by omega), Function.update_of_ne (by omega)]
    exact hw
  · by_cases hjk : j = k
    · rw [hjk, Function.update_self]
    · rw [Function.update_of_ne (by omega)]
      exact hb

theorem setByte_byte (hs : m.Sound v) (ha : At m i z) (x : UInt8) :
    byte (m.setByte z (16 * (i % 64) + 2 + k) x) i k = x := by
  change byte (setBlock m z (Function.update (m.block z) (16 * (i % 64) + 2 + k) x)) i k = x
  unfold byte
  rw [zoneFor, zoneAt_setBlock hs ha, ← zoneFor, ha.2]
  change Function.update m.block z (Function.update (m.block z) _ x) z _ = x
  rw [Function.update_self, Function.update_self]

/-! ## `create_block` -/

/-- What `create_block` does to the directory: no entry changes, and a new block is empty. -/
structure Filled (m m' : Mem) : Prop where
  size : m'.size = m.size
  old : ∀ j, m.zoneAt (target j) ≠ 0 → m'.block (m.zoneAt (target j)) = m.block (m.zoneAt (target j))
  new : ∀ j, m'.zoneAt (target j) ≠ m.zoneAt (target j) → m'.block (m'.zoneAt (target j)) = Block.zero

theorem Filled.kept (h : Filled m m') (hg : Grows m m') : Kept n m m' := by
  have hsame : ∀ k, zoneFor m k ≠ 0 → m'.block (zoneFor m' k) = m.block (zoneFor m k) := fun k h0 => by
    rw [Grows.zoneFor hg h0]
    exact h.old _ h0
  refine .of_agree hg (by rw [h.size]) (fun k hk h0 => ?_) (fun k hk h0 hor => ?_) fun k j hj h0 hb => ?_
  · have hs := hsame k h0
    refine ⟨by unfold word; rw [hs], fun _ o _ => ?_⟩
    rw [← Grows.zoneFor hg h0, hs, Grows.zoneFor hg h0]
  · rw [h.size] at hk
    have hz : zoneFor m k = 0 := hor.resolve_left (by omega)
    unfold word
    rw [zoneFor, h.new _ fun he => h0 (he.trans hz)]
    exact Extend.Block.word_zero _
  · unfold byte at hb ⊢
    rw [hsame k h0]
    exact hb

theorem Filled.of_same (hz : ∀ p, m'.zoneAt p = m.zoneAt p) (hb : m'.block = m.block) (hsize : m'.size = m.size) :
    Filled m m' where
  size := hsize
  old j _ := by rw [hb]
  new j hj := absurd (hz _) hj

theorem leave_size (m : Mem) (b : ℕ) (p : Path) : (m.leave b p).size = m.size := by
  cases p with
  | _ => rfl

theorem store_size (m : Mem) (b z : ℕ) (p : Path) : (m.store b z p).size = m.size := by
  cases p with
  | top k => rfl
  | _ =>
    change (if z = 0 then m else _).size = m.size
    split_ifs <;> rfl

/-- A place of `create_block` for entry `i`. -/
def Creating (v : Vol) (m : Mem) (i : ℕ) : Extend.Place → Prop
  | .loop pos buf => pos = 16 * i ∧ buf ≠ []
  | .newSuper w | .bread w => w.pos = 16 * i ∧ i / 64 < 7 + 512 + 512 * 512 ∧ Extend.WalkOk m w
  | .newGetblk w z => w.pos = 16 * i ∧ i / 64 < 7 + 512 + 512 * 512 ∧ Extend.WalkOk m w ∧ Extend.Reserved v m z
  | _ => False

/-- `create_block` is still under way, or has returned a zone, or 0. -/
def Created (v : Vol) (m : Mem) (i : ℕ) : Extend.Place → Prop
  | .idle => True
  | .dataBread z _ _ => At m i z ∧ i / 64 < 7 + 512 + 512 * 512
  | q => Creating v m i q

theorem Creating.placeOk {q : Extend.Place} (h : Creating v m i q) : Extend.PlaceOk v m q := by
  cases q with
  | loop pos buf => trivial
  | newSuper w => exact h.2.2
  | bread w => exact h.2.2
  | newGetblk w z => exact h.2.2
  | _ => exact h.elim

/-- What `found` leads to, for the position of the walk. -/
theorem found_created {w : Extend.Walk} {q : Extend.Place} (hw : w.pos = 16 * i) (hi : i / 64 < 7 + 512 + 512 * 512)
    (hq : q = (Extend.found m w z).2) (hok : Extend.PlaceOk v m' q) : Created v m' i q := by
  subst hq
  unfold Extend.found at hok ⊢
  split_ifs at hok ⊢ with h0
  · trivial
  · cases hr : w.rest with
    | nil =>
      rw [hr] at hok
      refine ⟨⟨hok.1, ?_⟩, hi⟩
      have h2 := hok.2
      rw [hw] at h2
      rw [zoneFor, show i / 64 = 16 * i / 1024 by omega]
      exact h2
    | cons p rest =>
      rw [hr] at hok
      exact ⟨hw, hi, hok⟩

theorem testSlot_created {w : Extend.Walk} {q : Extend.Place} (hw : w.pos = 16 * i) (hi : i / 64 < 7 + 512 + 512 * 512)
    (hq : q = (Extend.testSlot m w).2) (hok : Extend.PlaceOk v m' q) : Created v m' i q := by
  unfold Extend.testSlot at hq
  split_ifs at hq with h0
  · subst hq
    exact ⟨hw, hi, hok⟩
  · exact found_created hw hi hq hok

theorem found_size {w : Extend.Walk} : (Extend.found m w z).1.size = m.size := by
  unfold Extend.found
  split_ifs
  · exact leave_size ..
  · cases w.rest with
    | _ => exact leave_size ..

theorem testSlot_size {w : Extend.Walk} : (Extend.testSlot m w).1.size = m.size := by
  unfold Extend.testSlot
  by_cases h0 : m.slot w.b w.path = 0
  · rw [if_pos h0]
  · rw [if_neg h0]
    exact found_size

/-- The test of a slot, with the buffer of an entry taken. -/
theorem testSlot_filled (v : Vol) {m₁ : Mem} {w : Extend.Walk} (ht : Extend.SameTree m m₁) (hsize : m₁.size = m.size)
    (hw : Extend.WalkOk m₁ w) : Filled m (Extend.testSlot m₁ w).1 := by
  have h := ht.trans (Extend.testSlot_spec (v := v) hw).1
  exact .of_same h.zoneAt h.block (testSlot_size.trans hsize)

/-- `new_block` has returned 0. -/
theorem newDone_zero_filled {m₁ : Mem} {w : Extend.Walk} (hz : ∀ p, m₁.zoneAt p = m.zoneAt p) (hb : m₁.block = m.block)
    (hsize : m₁.size = m.size) (h0 : ∀ k, w.path = .top k → m₁.zone k = 0) :
    Filled m (Extend.newDone m₁ w 0).1 := by
  have h1 : Extend.SameTree m₁ (Extend.newDone m₁ w 0).1 :=
    (Extend.sameTree_store_zero h0).trans (Extend.sameTree_leave _ _ _)
  exact .of_same (fun p => (h1.zoneAt p).trans (hz p)) (h1.block.trans hb) ((found_size.trans (store_size ..)).trans hsize)

/-- A block that has no entries of the tree is not stored into. -/
theorem store_block {b c : ℕ} {p : Path} (hp : Placed m b p) (hz : z ≠ 0) (hc : ∀ r, p.up = some r → m.zoneAt r ≠ c) :
    ((m.clearBlock z).store b z p).block c = if c = z then Block.zero else m.block c := by
  have hclear : (m.clearBlock z).block c = if c = z then Block.zero else m.block c := by
    change Function.update m.block z Block.zero c = _
    rw [Function.update_apply]
  rw [← hclear]
  cases hup : p.up with
  | none =>
    cases p with
    | top k => rfl
    | ind k => cases hup
    | mid k => cases hup
    | leaf k l => cases hup
  | some r =>
    rw [Extend.store_entry hup hz]
    refine Function.update_of_ne (fun he => hc r hup ?_) _ _
    rw [(hp r hup).1, he]

/-- The blocks of the directory stay as they are when a zone is put into a slot. -/
theorem store_old {b : ℕ} {p : Path} (hs : m.Sound v) (hp : Placed m b p) (hz : z ≠ 0) (hf : Fresh m z)
    (hj : m.zoneAt (target j) ≠ 0) :
    ((m.clearBlock z).store b z p).block (m.zoneAt (target j)) = m.block (m.zoneAt (target j)) := by
  rw [store_block hp hz fun r hr he => ?_, if_neg (hf _)]
  exact Extend.up_ne_target j hr (hs.inj _ _ (he ▸ hj) he)

/-- `new_block` has returned a zone. -/
theorem newDone_filled {w : Extend.Walk} (hs : m.Sound v) (hw : Extend.WalkOk m w) (hr : Extend.Reserved v m z)
    (h0 : m.slot w.b w.path = 0) : Filled m (Extend.newDone (m.clearBlock z) w z).1 := by
  have hz := hr.ne_zero
  rw [hw.placed.slot] at h0
  have hstore := Extend.zoneAt_store hs hw.placed h0 hr.fresh hz (hr.range.2.trans v.short)
  have hself : ((m.clearBlock z).store w.b z w.path).zoneAt w.path = z := by rw [hstore, if_pos rfl]
  have ht := (Extend.found_spec (v := v) (m := (m.clearBlock z).store w.b z w.path) hw.leads hself).1
  have hblock : (Extend.newDone (m.clearBlock z) w z).1.block = ((m.clearBlock z).store w.b z w.path).block := ht.block
  refine ⟨found_size.trans (store_size ..), fun j hj => ?_, fun j hj => ?_⟩
  · rw [hblock]
    exact store_old hs hw.placed hz hr.fresh hj
  · have hzone : ∀ p, (Extend.newDone (m.clearBlock z) w z).1.zoneAt p = if p = w.path then z else m.zoneAt p := fun p =>
      (ht.zoneAt p).trans (hstore p)
    rw [hzone] at hj ⊢
    split_ifs at hj ⊢ with hp
    · rw [hblock, store_block hw.placed hz fun r _ => hr.fresh r, if_pos rfl]
    · exact absurd rfl hj

theorem create_step {q q' : Extend.Place} (hs : m.Sound v) (hq : Creating v m i q) (hk : SlotKept v m q)
    (h : Extend.go v m q = some (m', q')) : Filled m m' ∧ Created v m' i q' := by
  have hw := Extend.go_went hs hq.placeOk hk h
  cases q with
  | loop pos buf =>
    obtain ⟨rfl, hbuf⟩ := hq
    dsimp only [Extend.go] at h
    rw [if_neg hbuf] at h
    split_ifs at h with hbig
    split at h
    · cases h
    · rename_i p rest hr
      obtain ⟨hp, hl⟩ := Extend.route_leads _ p rest hr
      have hwalk : Extend.WalkOk m ⟨0, p, rest, 16 * i, buf⟩ := ⟨fun r hup => absurd (hp.symm.trans hup) nofun, hl⟩
      have he := Option.some.inj h
      obtain ⟨rfl, rfl⟩ := Prod.mk.inj he
      exact ⟨testSlot_filled v (.refl m) rfl hwalk, testSlot_created rfl (by omega) rfl hw.place⟩
  | newSuper w =>
    dsimp only [Extend.go] at h
    cases hj : Extend.freeBit v m with
    | none =>
      rw [hj] at h
      obtain ⟨rfl, rfl⟩ := Prod.mk.inj (Option.some.inj h)
      exact ⟨newDone_zero_filled (fun _ => rfl) rfl rfl (hk (by rw [hj]; nofun)), trivial⟩
    | some j =>
      rw [hj] at h
      dsimp only at h
      split_ifs at h with hn
      · obtain ⟨rfl, rfl⟩ := Prod.mk.inj (Option.some.inj h)
        have h0 : ∀ k, w.path = .top k → m.zone k = 0 := hk fun j' hj' => by
          cases hj.symm.trans hj'
          exact hn
        exact ⟨newDone_zero_filled (Extend.sameZones_setBit m j) rfl rfl h0, trivial⟩
      · cases h
        exact ⟨.of_same (Extend.sameZones_setBit m j) rfl rfl, hq.1, hq.2.1, hw.place⟩
  | newGetblk w z =>
    dsimp only [Extend.go] at h
    split_ifs at h
    obtain ⟨rfl, rfl⟩ := Prod.mk.inj (Option.some.inj h)
    exact ⟨newDone_filled hs hq.2.2.1 hq.2.2.2 hk, found_created hq.1 hq.2.1 rfl hw.place⟩
  | bread w =>
    obtain ⟨rfl, rfl⟩ := Prod.mk.inj (Option.some.inj h)
    have ht : Extend.SameTree m (m.take w.b) := ⟨rfl, rfl, rfl⟩
    exact ⟨testSlot_filled v ht rfl (ht.grows.walkOk hq.2.2), testSlot_created hq.1 hq.2.1 rfl hw.place⟩
  | _ => exact hq.elim

/-! ## Places -/

/-- What `find_entry` looks for: the name, or one that is there already. -/
structure Looks (m : Mem) (n seek : List UInt8) : Prop where
  nul : 0 ∉ seek
  length : seek.length ≤ 14
  name : seek = n ∨ ∃ k, Entry m seek k

/-- `find_entry` is still to come to any entry of the name. -/
def Ahead (m : Mem) (seek : List UInt8) (i entries : ℕ) : Prop := ∀ k, Entry m seek k → i ≤ k ∧ k < entries

structure Looking (m : Mem) (n seek : List UInt8) (i entries : ℕ) : Prop where
  looks : Looks m n seek
  ahead : Ahead m seek i entries

/-- `new_inode` has been called: the name is not there. -/
structure Making (v : Vol) (m : Mem) (n : List UInt8) (nr : ℕ) : Prop where
  absent : ∀ k, ¬ Entry m n k
  nr_pos : nr ≠ 0
  nr_le : nr ≤ v.ninodes

/-- `add_entry` is writing the name into entry `i`, which is empty. -/
structure Naming (m : Mem) (n : List UInt8) (i z k : ℕ) : Prop where
  inside : 16 * i < m.size
  zone : At m i z
  empty : word m i = 0
  bytes : ∀ j, j < k → j < 14 → byte m i j = n.getD j 0

def PlaceOk (v : Vol) (m : Mem) (n : List UInt8) : Place → Prop
  | .idle | .leave _ => True
  | .drop nr => nr ≠ 0
  | .start seek entries => Looking m n seek 0 entries
  | .findFirst seek entries z => Looking m n seek 0 entries ∧ At m 0 z
  | .find seek entries i z => Looking m n seek i entries ∧ (i % 64 ≠ 0 ∨ i = 0 → At m i z)
  | .findMap seek entries i b p rest =>
    Looking m n seek i entries ∧ i % 64 = 0 ∧ Placed m b p ∧ Leads (target (i / 64)) p rest
  | .findBread seek entries i z => Looking m n seek i entries ∧ i % 64 = 0 ∧ At m i z
  | .newInode => ∀ k, ¬ Entry m n k
  | .addFirst nr z => Making v m n nr ∧ At m 0 z
  | .add nr i z => Making v m n nr ∧ 16 * i ≤ m.size ∧ (i % 64 ≠ 0 ∨ i = 0 → At m i z)
  | .create nr i q => Making v m n nr ∧ 16 * i ≤ m.size ∧ i % 64 = 0 ∧ Creating v m i q
  | .addBread nr i z => Making v m n nr ∧ 16 * i ≤ m.size ∧ i % 64 = 0 ∧ At m i z ∧ i / 64 < 7 + 512 + 512 * 512
  | .putName nr i z k => Making v m n nr ∧ Naming m n i z k

theorem Kept.looking (h : Kept n m m') (hl : Looking m n seek i entries) : Looking m' n seek i entries where
  looks := by
    refine ⟨hl.looks.nul, hl.looks.length, ?_⟩
    obtain hn | ⟨k, hk⟩ := hl.looks.name
    · exact .inl hn
    · exact .inr ⟨k, (h.entry _ _).mpr hk⟩
  ahead k hk := hl.ahead k ((h.entry _ _).mp hk)

theorem Kept.making (h : Kept n m m') (hm : Making v m n nr) : Making v m' n nr :=
  ⟨fun k hk => hm.absent k ((h.entry _ _).mp hk), hm.nr_pos, hm.nr_le⟩

theorem Kept.naming (h : Kept n m m') (hn : Naming m n i z k) : Naming m' n i z k where
  inside := hn.inside.trans_le h.size
  zone := h.at hn.zone
  empty := h.empty i hn.inside (hn.zone.2 ▸ hn.zone.1) hn.empty
  bytes j hj hj' := h.bytes i j hj' (hn.zone.2 ▸ hn.zone.1) (hn.bytes j hj hj')

theorem Kept.creating {q : Extend.Place} (h : Kept n m m') (hf : ∀ w z, q = .newGetblk w z → Fresh m z → Fresh m' z)
    (hc : Creating v m i q) : Creating v m' i q := by
  cases q with
  | loop pos buf => exact hc
  | newSuper w => exact ⟨hc.1, hc.2.1, h.grows.walkOk hc.2.2⟩
  | bread w => exact ⟨hc.1, hc.2.1, h.grows.walkOk hc.2.2⟩
  | newGetblk w z =>
    obtain ⟨h1, h2, h3, h4⟩ := hc
    exact ⟨h1, h2, h.grows.walkOk h3, h4.range, h.grows.zmap _ h4.marked, hf w z rfl h4.fresh⟩
  | _ => exact hc

/-- What a step other than a store leaves of the places of the others. -/
theorem Kept.placeOk {q : Place} (h : Kept n m m')
    (hf : ∀ nr i w z, q = .create nr i (.newGetblk w z) → Fresh m z → Fresh m' z) (hq : PlaceOk v m n q) :
    PlaceOk v m' n q := by
  cases q with
  | idle => trivial
  | leave ok => trivial
  | drop nr => exact hq
  | start seek entries => exact h.looking hq
  | findFirst seek entries z => exact ⟨h.looking hq.1, h.at hq.2⟩
  | find seek entries i z => exact ⟨h.looking hq.1, fun hi => h.at (hq.2 hi)⟩
  | findMap seek entries i b p rest => exact ⟨h.looking hq.1, hq.2.1, h.grows.placed hq.2.2.1, hq.2.2.2⟩
  | findBread seek entries i z => exact ⟨h.looking hq.1, hq.2.1, h.at hq.2.2⟩
  | newInode => exact fun k hk => hq k ((h.entry _ _).mp hk)
  | addFirst nr z => exact ⟨h.making hq.1, h.at hq.2⟩
  | add nr i z => exact ⟨h.making hq.1, hq.2.1.trans h.size, fun hi => h.at (hq.2.2 hi)⟩
  | create nr i q =>
    exact ⟨h.making hq.1, hq.2.1.trans h.size, hq.2.2.1, h.creating (fun w z he => hf nr i w z (by rw [he])) hq.2.2.2⟩
  | addBread nr i z => exact ⟨h.making hq.1, hq.2.1.trans h.size, hq.2.2.1, h.at hq.2.2.2.1, hq.2.2.2.2⟩
  | putName nr i z k => exact ⟨h.making hq.1, h.naming hq.2⟩

/-! ## What the functions do -/

theorem At.succ (h : At m i z) (hi : (i + 1) % 64 ≠ 0) : At m (i + 1) z := by
  refine ⟨h.1, ?_⟩
  rw [zoneFor, show (i + 1) / 64 = i / 64 by omega]
  exact h.2

theorem at_zero (h : m.zone 0 ≠ 0) : At m 0 (m.zone 0) := ⟨h, rfl⟩

theorem matchAt_ok (hl : Looking m n seek i entries) (ha : At m i z) : PlaceOk v m n (matchAt m seek entries i z) := by
  unfold matchAt
  split_ifs with hm
  · trivial
  · refine ⟨⟨hl.looks, fun k hk => ?_⟩, fun hi => ha.succ (by omega)⟩
    obtain ⟨hle, hlt⟩ := hl.ahead k hk
    have hne : k ≠ i := by
      rintro rfl
      refine hm ((Fs.matchEntry_iff hl.looks.nul hl.looks.length).mpr ?_)
      rw [← ha.2]
      exact ⟨hk.live, hk.name⟩
    omega

/-- Without a zone in a slot there is none further down. -/
theorem zoneAt_leads {t p : Path} {rest : List Path} (h : Leads t p rest) (h0 : m.zoneAt p = 0) : m.zoneAt t = 0 := by
  induction rest generalizing p with
  | nil =>
    rw [← show p = t from h]
    exact h0
  | cons q rest ih =>
    refine ih h.2 ?_
    rw [Extend.zoneAt_up m h.1, h0]
    rfl

theorem mapped_ok {b : ℕ} {p : Path} {rest : List Path} (hl : Looking m n seek i entries) (hi : i % 64 = 0)
    (hp : Placed m b p) (hr : Leads (target (i / 64)) p rest) : PlaceOk v m n (mapped seek entries i (m.slot b p) rest) := by
  rw [hp.slot]
  unfold mapped
  split_ifs with h0
  · refine ⟨⟨hl.looks, fun k hk => ?_⟩, fun h => by omega⟩
    obtain ⟨hle, hlt⟩ := hl.ahead k hk
    have hne : k / 64 ≠ i / 64 := fun he => by
      refine hk.zone ?_
      rw [zoneFor, he]
      exact zoneAt_leads hr h0
    omega
  · cases rest with
    | nil =>
      refine ⟨hl, hi, h0, ?_⟩
      rw [zoneFor, ← show p = _ from hr]
    | cons q rest =>
      refine ⟨hl, hi, fun r hup => ?_, hr.2⟩
      cases hr.1.symm.trans hup
      exact ⟨rfl, h0⟩

/-- `find_entry` ends without an entry. -/
theorem Looking.absent (hl : Looking m n seek i entries) (h : entries ≤ i) (k : ℕ) : ¬ Entry m n k := by
  intro hk
  have hnone : ∀ k, ¬ Entry m seek k := fun k hk => by
    have := hl.ahead k hk
    omega
  obtain rfl | ⟨j, hj⟩ := hl.looks.name
  · exact hnone k hk
  · exact hnone j hj

theorem addAt_grown (hd : Dir v m) (hm : Making v m n nr) (hle : 16 * i ≤ m.size) (ha : At m i z)
    (hi : i / 64 < 7 + 512 + 512 * 512) :
    Grown v n m (addAt m nr i z).1 i ∧ PlaceOk v (addAt m nr i z).1 n (addAt m nr i z).2 := by
  have hg := growDir_grown n hd ha hi hle
  have ha' := hg.kept.at ha
  refine ⟨hg, ?_⟩
  unfold addAt
  dsimp only
  split_ifs with hw
  · refine ⟨hg.kept.making hm, hg.inside, ha', ?_, fun j hj => absurd hj (Nat.not_lt_zero j)⟩
    unfold word
    rw [ha'.2]
    exact hw
  · refine ⟨hg.kept.making hm, ?_, fun h => ha'.succ (by omega)⟩
    have hin := hg.inside
    obtain ⟨c, hc⟩ := hg.dir.size.1
    omega

theorem newInode_spec {s s' : St} (h : newInode v s = some (s', nr)) :
    s'.m = s.m ∧ nr ≤ v.ninodes ∧ s.imap nr = false ∧ s'.imap = Function.update s.imap nr true := by
  unfold newInode at h
  cases hj : firstZero s.imap 0 (mapBits v.imapBlocks) with
  | none =>
    rw [hj] at h
    cases h
  | some j =>
    rw [hj] at h
    dsimp only at h
    split_ifs at h with hn
    cases h
    exact ⟨rfl, by omega, Extend.firstZero_spec hj, rfl⟩

/-! ## One step -/

/-- The zone `create_block` has marked and not stored yet. -/
def Place.reserved : Place → List ℕ
  | .create _ _ q => q.gets
  | _ => []

/-- What a step other than a store does. -/
structure Went (v : Vol) (n : List UInt8) (s : St) (q : Place) (s' : St) (q' : Place) : Prop where
  kept : Kept n s.m s'.m
  dir : Dir v s'.m
  imap : s'.imap 0 = true
  place : PlaceOk v s'.m n q'
  fresh : ∀ z, z ∉ q.reserved → Fresh s.m z → Fresh s'.m z
  takes : ∀ nr i w z, q' = .create nr i (.newGetblk w z) → s.m.zmap (z + 1 - v.firstdatazone) = false
  shut : q' ≠ .leave true

variable {s s' : St} {q q' : Place}

/-- A step that leaves the directory as it is. -/
theorem Went.of_eq (hd : Dir v s.m) (him : s'.imap 0 = true) (hm : s'.m = s.m) (hq : PlaceOk v s.m n q')
    (hne : ∀ nr i w z, q' ≠ .create nr i (.newGetblk w z)) (hs : q' ≠ .leave true) : Went v n s q s' q' where
  kept := by rw [hm]; exact .refl n s.m
  dir := by rw [hm]; exact hd
  imap := him
  place := by rw [hm]; exact hq
  fresh z _ hf := by rw [hm]; exact hf
  takes nr i w z he := absurd he (hne nr i w z)
  shut := hs

theorem Grown.went {m' : Mem} (h : Grown v n s.m m' i) (him : s.imap 0 = true) (hq : PlaceOk v m' n q')
    (hne : ∀ nr i w z, q' ≠ .create nr i (.newGetblk w z)) (hs : q' ≠ .leave true) :
    Went v n s q { s with m := m' } q' where
  kept := h.kept
  dir := h.dir
  imap := him
  place := hq
  fresh z _ hf p := by
    rw [h.zone]
    exact hf p
  takes nr i w z he := absurd he (hne nr i w z)
  shut := hs

theorem matchAt_place : (∀ nr i' w z', matchAt m seek entries i z ≠ .create nr i' (.newGetblk w z')) ∧
    matchAt m seek entries i z ≠ .leave true := by
  unfold matchAt
  split_ifs
  · exact ⟨nofun, nofun⟩
  · exact ⟨nofun, nofun⟩

theorem mapped_place {rest : List Path} : (∀ nr i' w z', mapped seek entries i z rest ≠ .create nr i' (.newGetblk w z')) ∧
    mapped seek entries i z rest ≠ .leave true := by
  unfold mapped
  split_ifs
  · exact ⟨nofun, nofun⟩
  · cases rest with
    | _ => exact ⟨nofun, nofun⟩

theorem addAt_place : (∀ nr' i' w z', (addAt m nr i z).2 ≠ .create nr' i' (.newGetblk w z')) ∧
    (addAt m nr i z).2 ≠ .leave true := by
  unfold addAt
  dsimp only
  split_ifs
  · exact ⟨nofun, nofun⟩
  · exact ⟨nofun, nofun⟩

theorem created_ok {r : Extend.Place} (hm : Making v m n nr) (hle : 16 * i ≤ m.size) (hi : i % 64 = 0)
    (hc : Created v m i r) : PlaceOk v m n (created nr i r) := by
  cases r with
  | idle => exact hm.nr_pos
  | dataBread z pos buf => exact ⟨hm, hle, hi, hc⟩
  | _ => exact ⟨hm, hle, hi, hc⟩

/-- The step stores no entry. -/
def Place.storing : Place → Prop
  | .putName _ _ _ k => 14 ≤ k
  | _ => False

theorem go_went (hd : Dir v s.m) (him : s.imap 0 = true) (hn : n = name.take 14) (hq : PlaceOk v s.m n q)
    (hk : ∀ nr i r, q = .create nr i r → SlotKept v s.m r) (hst : ¬ q.storing)
    (h : q.go v name s = some (s', q')) : Went v n s q s' q' := by
  have hzone : s.m.zone 0 ≠ 0 := hd.dot.zone
  cases q with
  | idle => cases h
  | start seek entries =>
    rw [Place.go, if_neg hzone] at h
    cases h
    exact .of_eq hd him rfl ⟨hq, at_zero hzone⟩ nofun nofun
  | findFirst seek entries z =>
    cases h
    exact .of_eq hd him rfl ⟨hq.1, fun _ => hq.2⟩ nofun nofun
  | find seek entries i z =>
    rw [Place.go] at h
    by_cases he : entries ≤ i
    · rw [if_pos he] at h
      cases h
      exact .of_eq hd him rfl (hq.1.absent he) nofun nofun
    rw [if_neg he] at h
    by_cases hi : i % 64 = 0 ∧ i ≠ 0
    · rw [if_pos hi] at h
      split_ifs at h with hbig
      split at h
      · cases h
      · rename_i p rest hr
        cases h
        obtain ⟨hp, hl⟩ := Extend.route_leads _ p rest hr
        exact .of_eq hd him rfl (mapped_ok hq.1 hi.1 (fun r hup => absurd (hp.symm.trans hup) nofun) hl)
          mapped_place.1 mapped_place.2
    · rw [if_neg hi] at h
      cases h
      exact .of_eq hd him rfl (matchAt_ok hq.1 (hq.2 (by omega))) matchAt_place.1 matchAt_place.2
  | findMap seek entries i b p rest =>
    cases h
    exact .of_eq hd him rfl (mapped_ok hq.1 hq.2.1 hq.2.2.1 hq.2.2.2) mapped_place.1 mapped_place.2
  | findBread seek entries i z =>
    cases h
    exact .of_eq hd him rfl (matchAt_ok hq.1 hq.2.2) matchAt_place.1 matchAt_place.2
  | newInode =>
    rw [Place.go] at h
    cases hnew : Exclusive.newInode v s with
    | none =>
      rw [hnew] at h
      cases h
      exact .of_eq hd him rfl trivial nofun nofun
    | some r =>
      obtain ⟨s1, nr⟩ := r
      rw [hnew] at h
      dsimp only at h
      obtain ⟨hm, hle, hfree, hmap⟩ := newInode_spec hnew
      have hnr : nr ≠ 0 := by
        rintro rfl
        rw [him] at hfree
        cases hfree
      rw [hm, if_neg hzone] at h
      cases h
      refine .of_eq hd ?_ hm ⟨⟨hq, hnr, hle⟩, at_zero hzone⟩ nofun nofun
      rw [hmap, Function.update_of_ne hnr.symm]
      exact him
  | addFirst nr z =>
    cases h
    have hg := addAt_grown hd hq.1 (Nat.zero_le _) hq.2 (by decide)
    exact hg.1.went him hg.2 addAt_place.1 addAt_place.2
  | add nr i z =>
    rw [Place.go] at h
    by_cases hi : i % 64 = 0 ∧ i ≠ 0
    · rw [if_pos hi] at h
      cases h
      exact .of_eq hd him rfl ⟨hq.1, hq.2.1, hi.1, rfl, by simp⟩ nofun nofun
    · rw [if_neg hi] at h
      cases h
      have hmax := hd.size.2
      have hle := hq.2.1
      have hg := addAt_grown hd hq.1 hle (hq.2.2 (by omega)) (by omega)
      exact hg.1.went him hg.2 addAt_place.1 addAt_place.2
  | create nr i r =>
    obtain ⟨⟨m1, r'⟩, hg, he⟩ := Option.map_eq_some_iff.mp h
    cases he
    obtain ⟨hm, hle, hi, hc⟩ := hq
    have hkept := hk nr i r rfl
    have hw := Extend.go_went hd.sound hc.placeOk hkept hg
    obtain ⟨hfill, hc'⟩ := create_step hd.sound hc hkept hg
    have hK : Kept n s.m m1 := hfill.kept hw.grows
    refine ⟨hK, hK.dir hd hw.sound (by rw [hfill.size]; exact hd.size), him,
      created_ok (hK.making hm) (hle.trans hK.size) hi hc', hw.fresh, fun nr' i' w z he => ?_, ?_⟩
    · refine hw.takes w z ?_
      cases r' with
      | newGetblk w' z' =>
        cases he
        rfl
      | _ => cases he
    · cases r' with
      | _ => nofun
  | addBread nr i z =>
    cases h
    have hg := addAt_grown hd hq.1 hq.2.1 hq.2.2.2.1 hq.2.2.2.2
    exact hg.1.went him hg.2 addAt_place.1 addAt_place.2
  | putName nr i z k =>
    have hk' : k < 14 := by
      have h1 : ¬ 14 ≤ k := hst
      omega
    rw [Place.go, if_pos hk', ← hn] at h
    cases h
    obtain ⟨hm, hna⟩ := hq
    have hmax := hd.size.2
    have hin := hna.inside
    have hi : i / 64 < 7 + 512 + 512 * 512 := by omega
    have hK := setByte_kept (n := n) hd hna.zone hi hna.empty hk'
    have hsz : (s.m.setByte z (16 * (i % 64) + 2 + k) (n.getD k 0)).Sound v := sound_setBlock hd hna.zone _
    have hz := zoneAt_setBlock hd.sound hna.zone
    refine ⟨hK, hK.dir hd hsz hd.size, him, ⟨hK.making hm, ?_⟩, fun z' _ hf p => ?_, nofun, nofun⟩
    · have hna' := hK.naming hna
      refine ⟨hna'.inside, hna'.zone, hna'.empty, fun j hj hj' => ?_⟩
      by_cases hjk : j = k
      · rw [hjk]
        exact setByte_byte hd.sound hna.zone _
      · exact hna'.bytes j (by omega) hj'
    · change (setBlock s.m z _).zoneAt p ≠ z'
      rw [hz]
      exact hf p
  | drop nr =>
    cases h
    refine .of_eq hd ?_ rfl trivial nofun nofun
    dsimp only
    rw [Function.update_of_ne (Ne.symm hq)]
    exact him
  | leave ok =>
    cases h
    exact .of_eq hd him rfl trivial nofun nofun

/-! ## The store -/

/-- The bytes of a name with NULs behind it. -/
theorem nameOf_padded (h0 : 0 ∉ n) (hn : n.length ≤ 14) (hb : ∀ o, o < 14 → b (16 * j + 2 + o) = n.getD o 0) :
    nameOf b j = n := by
  have hl : (b.name j).length = 14 := by simp [Block.name]
  have hget : ∀ o, o < 14 → (b.name j).getD o 0 = n.getD o 0 := fun o ho => by
    rw [List.getD_eq_getElem?_getD, List.getElem?_eq_getElem (by omega), Option.getD_some]
    simp only [Block.name, List.getElem_map, List.getElem_range]
    exact hb o ho
  refine (takeWhile_eq_iff _ _ h0 (by omega)).mpr ⟨?_, ?_⟩
  · refine List.ext_getElem (by simp [hl, hn]) fun o ho ho' => ?_
    have h1 := hget o (by omega)
    rw [List.getD_eq_getElem?_getD, List.getD_eq_getElem?_getD, List.getElem?_eq_getElem (by omega),
      List.getElem?_eq_getElem ho', Option.getD_some, Option.getD_some] at h1
    rw [List.getElem_take]
    exact h1
  · by_cases hlen : n.length = 14
    · exact .inl (by omega)
    · right
      rw [hget _ (by omega), List.getD_eq_getElem?_getD, List.getElem?_eq_none (Nat.le_refl _), Option.getD_none]

/-- `de->inode` is set, and with it one entry more is there. -/
structure Stored (v : Vol) (n : List UInt8) (m m' : Mem) (i : ℕ) : Prop where
  dir : Dir v m'
  zone : ∀ p, m'.zoneAt p = m.zoneAt p
  entry : ∀ x k, Entry m' x k ↔ Entry m x k ∨ (k = i ∧ x = n)

theorem store_stored (hd : Dir v m) (h0 : 0 ∉ n) (hn : n.length ≤ 14) (hv : v.ninodes < 65536) (hm : Making v m n nr)
    (hna : Naming m n i z k) (hk : 14 ≤ k) :
    Stored v n m (setBlock m z ((m.block z).setWord (8 * (i % 64)) nr)) i := by
  have hmax := hd.size.2
  have hin := hna.inside
  have hi : i / 64 < 7 + 512 + 512 * 512 := by omega
  have hz := zoneAt_setBlock hd.sound hna.zone ((m.block z).setWord (8 * (i % 64)) nr)
  set m' := setBlock m z ((m.block z).setWord (8 * (i % 64)) nr) with hm'
  have hagree : ∀ k, 16 * k < m.size → k ≠ i → Agree (m.block (zoneFor m k)) (m'.block (zoneFor m k)) (k % 64) :=
    fun k hk hne => agree_setBlock hd.sound hna.zone hi (by omega) hne fun o ho => setWord_other _ _ (by omega)
  have hzi : zoneFor m i = z := hna.zone.2
  have hblock : m'.block z = (m.block z).setWord (8 * (i % 64)) nr := Function.update_self ..
  have hself : Entry m' n i := by
    refine ⟨hin, ?_, ?_, ?_⟩
    · rw [zoneFor, hz, ← zoneFor, hzi]
      exact hna.zone.1
    · have hnr := hm.nr_pos
      have hle := hm.nr_le
      rw [zoneFor, hz, ← zoneFor, hzi, hblock, Extend.Block.word_setWord _ _ _ _ (by omega), if_pos rfl]
      exact hnr
    · rw [zoneFor, hz, ← zoneFor, hzi, hblock]
      refine nameOf_padded h0 hn fun o ho => ?_
      rw [setWord_other _ _ (by omega)]
      have hb := hna.bytes o (by omega) ho
      unfold byte at hb
      rw [hzi] at hb
      exact hb
  have hentry : ∀ x k, Entry m' x k ↔ Entry m x k ∨ (k = i ∧ x = n) := by
    intro x k
    by_cases hki : k = i
    · subst hki
      constructor
      · exact fun h => .inr ⟨rfl, h.name.symm.trans hself.name⟩
      · rintro (h | ⟨-, rfl⟩)
        · exact absurd hna.empty h.live
        · exact hself
    · constructor
      · intro h
        have hz' : zoneFor m k = zoneFor m' k := (hz _).symm
        refine .inl (h.congr h.inside hz' ?_)
        rw [← hz']
        exact (hagree k h.inside hki).symm
      · rintro (h | ⟨h, -⟩)
        · exact h.congr h.inside (hz _) (hagree k h.inside hki)
        · exact absurd h hki
  refine ⟨⟨sound_setBlock hd hna.zone _, hd.size, (hentry _ _).mpr (.inl hd.dot), (hentry _ _).mpr (.inl hd.dotdot),
    fun x k l hk hl => ?_⟩, hz, hentry⟩
  obtain hk' | ⟨rfl, rfl⟩ := (hentry x k).mp hk
  · obtain hl' | ⟨rfl, rfl⟩ := (hentry x l).mp hl
    · exact hd.unique x k l hk' hl'
    · exact absurd hk' (hm.absent k)
  · obtain hl' | ⟨rfl, -⟩ := (hentry x l).mp hl
    · exact absurd hl' (hm.absent l)
    · rfl

/-- The process has passed entry `k` in `find_entry`, or is to pass it by, and may yet create the file. -/
def Place.passed (k : ℕ) : Place → Prop
  | .idle | .leave _ | .drop _ => False
  | .start _ entries | .findFirst _ entries _ => entries ≤ k
  | .find _ entries i _ | .findMap _ entries i _ _ _ | .findBread _ entries i _ => k < i ∨ entries ≤ k
  | _ => True

theorem Stored.looking {i₀ : ℕ} (h : Stored v n m m' i) (hp : ¬ (i < i₀ ∨ entries ≤ i)) (hl : Looking m n seek i₀ entries) :
    Looking m' n seek i₀ entries where
  looks := by
    refine ⟨hl.looks.nul, hl.looks.length, ?_⟩
    obtain hn | ⟨k, hk⟩ := hl.looks.name
    · exact .inl hn
    · exact .inr ⟨k, (h.entry _ _).mpr (.inl hk)⟩
  ahead k hk := by
    obtain hk | ⟨rfl, -⟩ := (h.entry _ _).mp hk
    · exact hl.ahead k hk
    · omega

theorem Stored.at (h : Stored v n m m' i) (ha : At m j z) : At m' j z := ⟨ha.1, (h.zone _).trans ha.2⟩

theorem Stored.placeOk (h : Stored v n m m' i) (hp : ¬ q.passed i) (hq : PlaceOk v m n q) : PlaceOk v m' n q := by
  cases q with
  | idle => trivial
  | leave ok => trivial
  | drop nr => exact hq
  | start seek entries => exact h.looking (fun hor => hp (hor.resolve_left (Nat.not_lt_zero i))) hq
  | findFirst seek entries z => exact ⟨h.looking (fun hor => hp (hor.resolve_left (Nat.not_lt_zero i))) hq.1, h.at hq.2⟩
  | find seek entries i₀ z => exact ⟨h.looking hp hq.1, fun hi => h.at (hq.2 hi)⟩
  | findMap seek entries i₀ b p rest =>
    refine ⟨h.looking hp hq.1, hq.2.1, fun r hr => ?_, hq.2.2.2⟩
    rw [h.zone]
    exact hq.2.2.1 r hr
  | findBread seek entries i₀ z => exact ⟨h.looking hp hq.1, hq.2.1, h.at hq.2.2⟩
  | _ => exact absurd trivial hp

/-! ## Runs -/

variable {ι : Type} [DecidableEq ι] {σ σ' : Sys ι}

/-- A process stores its entry when no other has passed it or is past `find_entry`. `create_block`
    puts no block over one that another call has put there meanwhile. `find_entry` can read the block
    with the name it looks for, and `add_entry` the last block. -/
def Apart (v : Vol) (σ : Sys ι) : Event ι → Prop
  | .call _ _ _ => True
  | .go p => (∀ nr i r, σ.place p = .create nr i r → SlotKept v σ.s.m r) ∧
      ∀ nr i z k, σ.place p = .putName nr i z k → 14 ≤ k → ∀ q, q ≠ p → ¬ (σ.place q).passed i
  | .fail p => match σ.place p with
    | .findFirst seek _ _ => ∀ k, ¬ Entry σ.s.m seek k
    | .findMap seek _ i _ _ _ | .findBread seek _ i _ => ∀ k, k / 64 = i / 64 → ¬ Entry σ.s.m seek k
    | .addBread _ i _ => 16 * (i + 64) ≤ σ.s.m.size
    | _ => True

structure Inv (v : Vol) (name : List UInt8) (σ : Sys ι) : Prop where
  dir : Dir v σ.s.m
  imap : σ.s.imap 0 = true
  place : ∀ p, PlaceOk v σ.s.m (name.take 14) (σ.place p)
  /-- no zone is given to two calls of `create_block` -/
  apart : ∀ p p' nr nr' i i' w w' z, σ.place p = .create nr i (.newGetblk w z) →
    σ.place p' = .create nr' i' (.newGetblk w' z) → p = p'
  one : ∀ p q, σ.place p = .leave true → σ.place q = .leave true → p = q
  opened : σ.opened = [] ∨ (∃ r, σ.opened = [r]) ∧ ∀ p, σ.place p ≠ .leave true
  there : (σ.opened ≠ [] ∨ ∃ p, σ.place p = .leave true) → ∃ k, Entry σ.s.m (name.take 14) k

/-- The process is at another place, and nothing else has changed. -/
theorem Inv.setPlace {p : ι} (hi : Inv v name σ) (hq : PlaceOk v σ.s.m (name.take 14) q)
    (hne : ∀ nr i w z, q ≠ .create nr i (.newGetblk w z)) (hs : q ≠ .leave true) :
    Inv v name { σ with place := Function.update σ.place p q } := by
  have hplace : ∀ p' q', Function.update σ.place p q p' = q' → p' = p ∧ q = q' ∨ σ.place p' = q' := fun p' q' h => by
    rw [Function.update_apply] at h
    split_ifs at h with hp
    · exact .inl ⟨hp, h⟩
    · exact .inr h
  refine ⟨hi.dir, hi.imap, fun p' => ?_, fun p₁ p₂ nr nr' i i' w w' z h₁ h₂ => ?_, fun p₁ p₂ h₁ h₂ => ?_, ?_, fun h => ?_⟩
  · obtain ⟨-, he⟩ | he := hplace p' _ rfl
    · dsimp only
      rw [← he]
      exact hq
    · dsimp only
      rw [← he]
      exact hi.place p'
  · have h₁' := (hplace p₁ _ h₁).resolve_left fun h => hne _ _ _ _ h.2
    have h₂' := (hplace p₂ _ h₂).resolve_left fun h => hne _ _ _ _ h.2
    exact hi.apart _ _ _ _ _ _ _ _ _ h₁' h₂'
  · have h₁' := (hplace p₁ _ h₁).resolve_left fun h => hs h.2
    have h₂' := (hplace p₂ _ h₂).resolve_left fun h => hs h.2
    exact hi.one _ _ h₁' h₂'
  · obtain h | ⟨h, hno⟩ := hi.opened
    · exact .inl h
    · exact .inr ⟨h, fun p' hp' => hno p' ((hplace p' _ hp').resolve_left fun h => hs h.2)⟩
  · refine hi.there (h.imp_right fun ⟨p', hp'⟩ => ⟨p', ?_⟩)
    exact (hplace p' _ hp').resolve_left fun h => hs h.2

theorem call_ok (hd : Dir v m) (h0 : 0 ∉ name) (h : Seeks name m.size seek entries) :
    PlaceOk v m (name.take 14) (.start seek entries) := by
  have hinside : ∀ x, Ahead m x 0 (m.size / 16) := fun x k hk => by
    have hin := hk.inside
    obtain ⟨c, hc⟩ := hd.size.1
    omega
  obtain ⟨rfl, rfl⟩ | ⟨rfl, ⟨rfl, rfl⟩ | ⟨rfl, he⟩⟩ := h
  · exact ⟨⟨fun h => h0 (List.mem_of_mem_take h), List.length_take_le _ _, .inl rfl⟩, hinside _⟩
  · exact ⟨⟨by decide, by decide, .inr ⟨0, hd.dot⟩⟩, hinside _⟩
  · refine ⟨⟨by decide, by decide, .inl rfl⟩, fun k hk => ?_⟩
    have h1 := hd.unique _ k 1 hk hd.dotdot
    omega

omit [DecidableEq ι] in
theorem failed_ok {p : ι} (hi : Inv v name σ) (hA : Apart v σ (.fail p)) (h : (σ.place p).failed = some q) :
    PlaceOk v σ.s.m (name.take 14) q ∧ (∀ nr i w z, q ≠ .create nr i (.newGetblk w z)) ∧ q ≠ .leave true := by
  have hok := hi.place p
  have skip : ∀ {seek entries i}, Looking σ.s.m (name.take 14) seek i entries → i % 64 = 0 →
      (∀ k, k / 64 = i / 64 → ¬ Entry σ.s.m seek k) → PlaceOk v σ.s.m (name.take 14) (.find seek entries (i + 64) 0) := by
    intro seek entries i hl hi hA
    refine ⟨⟨hl.looks, fun k hk => ?_⟩, fun h => by omega⟩
    obtain ⟨hle, hlt⟩ := hl.ahead k hk
    have hne : k / 64 ≠ i / 64 := fun he => hA k he hk
    omega
  dsimp only [Apart] at hA
  cases hp : σ.place p with
  | findFirst seek entries z =>
    rw [hp] at h hok hA
    cases h
    refine ⟨fun k hk => ?_, nofun, nofun⟩
    obtain rfl | ⟨j, hj⟩ := hok.1.looks.name
    · exact hA k hk
    · exact hA j hj
  | findMap seek entries i b r rest =>
    rw [hp] at h hok hA
    cases h
    exact ⟨skip hok.1 hok.2.1 hA, nofun, nofun⟩
  | findBread seek entries i z =>
    rw [hp] at h hok hA
    cases h
    exact ⟨skip hok.1 hok.2.1 hA, nofun, nofun⟩
  | newInode =>
    rw [hp] at h
    cases h
    exact ⟨trivial, nofun, nofun⟩
  | addFirst nr z =>
    rw [hp] at h hok
    cases h
    exact ⟨hok.1.nr_pos, nofun, nofun⟩
  | create nr i r =>
    rw [hp] at h hok
    simp only [Place.failed] at h
    split_ifs at h
    cases h
    exact ⟨hok.1.nr_pos, nofun, nofun⟩
  | addBread nr i z =>
    rw [hp] at h hok hA
    cases h
    have h64 := hok.2.2.1
    exact ⟨⟨hok.1, hA, fun h => by omega⟩, nofun, nofun⟩
  | _ =>
    rw [hp] at h
    cases h

omit [DecidableEq ι] in
/-- The zone `create_block` of another process has marked is not the one this step stores. -/
theorem Inv.other_reserved {p p' : ι} {nr : ℕ} {w : Extend.Walk} (hi : Inv v name σ) (hne : p' ≠ p)
    (hp' : σ.place p' = .create nr i (.newGetblk w z)) : z ∉ (σ.place p).reserved := by
  intro hz
  cases hq : σ.place p with
  | create nr' i' r =>
    rw [hq] at hz
    cases r with
    | newGetblk w' z' =>
      cases List.mem_singleton.mp hz
      exact hne (hi.apart p' p _ _ _ _ _ _ _ hp' hq)
    | _ => cases hz
  | _ =>
    rw [hq] at hz
    cases hz

/-- The step of a process that stores nothing. -/
theorem Inv.went {p : ι} (hi : Inv v name σ) (hw : Went v (name.take 14) σ.s (σ.place p) s' q) :
    Inv v name ⟨s', Function.update σ.place p q, (σ.place p).opens p ++ σ.opened⟩ := by
  have hplace : ∀ p' q', Function.update σ.place p q p' = q' → p' = p ∧ q = q' ∨ p' ≠ p ∧ σ.place p' = q' := by
    intro p' q' h
    rw [Function.update_apply] at h
    split_ifs at h with hp
    · exact .inl ⟨hp, h⟩
    · exact .inr ⟨hp, h⟩
  -- after the step the process is not about to succeed
  have hleave : ∀ p', Function.update σ.place p q p' = .leave true → p' ≠ p ∧ σ.place p' = .leave true := fun p' h =>
    (hplace p' _ h).resolve_left fun h => hw.shut h.2
  have hnew : ∀ p' nr i w nr' i' w' z, p' ≠ p → q = .create nr i (.newGetblk w z) →
      σ.place p' ≠ .create nr' i' (.newGetblk w' z) := by
    intro p' nr i w nr' i' w' z _ hq hp
    have h1 := hw.takes nr i w z hq
    have h2 := hi.place p'
    rw [hp] at h2
    rw [h2.2.2.2.2.2.2.marked] at h1
    cases h1
  refine ⟨hw.dir, hw.imap, fun p' => ?_, fun p₁ p₂ nr nr' i i' w w' z h₁ h₂ => ?_, fun p₁ p₂ h₁ h₂ => ?_, ?_, fun h => ?_⟩
  · obtain ⟨-, he⟩ | ⟨hne, he⟩ := hplace p' _ rfl
    · dsimp only
      rw [← he]
      exact hw.place
    · dsimp only
      rw [← he]
      exact hw.kept.placeOk (fun nr i w z hq hf => hw.fresh z (hi.other_reserved hne hq) hf) (hi.place p')
  · obtain ⟨hp₁, hq₁⟩ | ⟨hp₁, hq₁⟩ := hplace p₁ _ h₁
    · obtain ⟨hp₂, hq₂⟩ | ⟨hp₂, hq₂⟩ := hplace p₂ _ h₂
      · rw [hp₁, hp₂]
      · exact absurd hq₂ (hnew _ _ _ _ _ _ _ _ hp₂ hq₁)
    · obtain ⟨hp₂, hq₂⟩ | ⟨hp₂, hq₂⟩ := hplace p₂ _ h₂
      · exact absurd hq₁ (hnew _ _ _ _ _ _ _ _ hp₁ hq₂)
      · exact hi.apart _ _ _ _ _ _ _ _ _ hq₁ hq₂
  · exact hi.one _ _ (hleave _ h₁).2 (hleave _ h₂).2
  · by_cases hp : σ.place p = .leave true
    · -- the call has succeeded, and it is the first one
      have hnil : σ.opened = [] := hi.opened.resolve_right fun h => h.2 p hp
      refine .inr ⟨⟨p, ?_⟩, fun p' hp' => ?_⟩
      · dsimp only
        rw [hp, hnil]
        rfl
      · obtain ⟨hne, he⟩ := hleave p' hp'
        exact hne (hi.one _ _ he hp)
    · have hopens : (σ.place p).opens p = [] := by
        unfold Place.opens
        split
        · rename_i he
          exact absurd he hp
        · rfl
      dsimp only
      rw [hopens, List.nil_append]
      exact hi.opened.imp_right fun h => ⟨h.1, fun p' hp' => h.2 p' (hleave p' hp').2⟩
  · have hex : ∃ k, Entry σ.s.m (name.take 14) k := by
      refine hi.there ?_
      obtain h | ⟨p', hp'⟩ := h
      · by_cases hp : σ.place p = .leave true
        · exact .inr ⟨p, hp⟩
        · left
          rintro hnil
          refine h ?_
          dsimp only
          rw [hnil, List.append_nil]
          unfold Place.opens
          split
          · rename_i he
            exact absurd he hp
          · rfl
      · exact .inr ⟨p', (hleave p' hp').2⟩
    obtain ⟨k, hk⟩ := hex
    exact ⟨k, (hw.kept.entry _ _).mpr hk⟩

/-- The step of a process that stores its entry. -/
theorem Inv.store {p : ι} {nr k : ℕ} (s' : St) (hi : Inv v name σ) (hp : σ.place p = .putName nr i z k)
    (h : Stored v (name.take 14) σ.s.m m' i) (him : s'.imap = σ.s.imap) (hm : s'.m = m')
    (hA : ∀ q, q ≠ p → ¬ (σ.place q).passed i) :
    Inv v name ⟨s', Function.update σ.place p (.leave true), (σ.place p).opens p ++ σ.opened⟩ := by
  subst hm
  have hok := hi.place p
  rw [hp] at hok
  have hnone : ¬ (σ.opened ≠ [] ∨ ∃ p, σ.place p = .leave true) := fun h => by
    obtain ⟨k, hk⟩ := hi.there h
    exact hok.1.absent k hk
  rw [not_or, not_not, not_exists] at hnone
  have hopened : (σ.place p).opens p ++ σ.opened = [] := by
    rw [hp, hnone.1]
    rfl
  -- the others come to the entry, or have no call
  have hother : ∀ p', p' ≠ p → Function.update σ.place p (.leave true) p' = σ.place p' := fun p' hne =>
    Function.update_of_ne hne _ _
  have hself : Function.update σ.place p (.leave true) p = .leave true := Function.update_self ..
  have hcreate : ∀ p' nr i r, σ.place p' ≠ .create nr i r ∨ p' = p := fun p' nr i' r => by
    by_cases hne : p' = p
    · exact .inr hne
    · left
      intro hc
      have hpass := hA p' hne
      rw [hc] at hpass
      exact hpass trivial
  refine ⟨h.dir, by rw [him]; exact hi.imap, fun p' => ?_, fun p₁ p₂ nr nr' i i' w w' z h₁ h₂ => ?_,
    fun p₁ p₂ h₁ h₂ => ?_, .inl hopened, fun _ => ?_⟩
  · by_cases hne : p' = p
    · subst hne
      dsimp only
      rw [hself]
      trivial
    · dsimp only
      rw [hother p' hne]
      exact h.placeOk (hA p' hne) (hi.place p')
  · have hne : p₁ ≠ p := by
      rintro rfl
      exact absurd (hself.symm.trans h₁) nofun
    exact absurd ((hother p₁ hne).symm.trans h₁) ((hcreate p₁ _ _ _).resolve_right hne)
  · have heq : ∀ p', Function.update σ.place p (.leave true) p' = .leave true → p' = p := fun p' h' => by
      by_contra hne
      exact hnone.2 p' ((hother p' hne).symm.trans h')
    rw [heq p₁ h₁, heq p₂ h₂]
  · exact ⟨i, (h.entry _ _).mpr (.inr ⟨rfl, rfl⟩)⟩

theorem Inv.step {e : Event ι} (hv : v.ninodes < 65536) (h0 : 0 ∉ name) (hi : Inv v name σ) (hA : Apart v σ e)
    (h : Sys.Step v name σ e σ') : Inv v name σ' := by
  cases h with
  | call hp hs => exact hi.setPlace (call_ok hi.dir h0 hs) nofun nofun
  | fail hf =>
    obtain ⟨h1, h2, h3⟩ := failed_ok hi hA hf
    exact hi.setPlace h1 h2 h3
  | @go p s' q hg =>
    obtain ⟨hslot, hpass⟩ := hA
    by_cases hst : (σ.place p).storing
    · cases hp : σ.place p with
      | putName nr i z k =>
        rw [hp] at hst hg
        have hk : 14 ≤ k := hst
        rw [Place.go, if_neg (by omega)] at hg
        cases hg
        have hok := hi.place p
        rw [hp] at hok
        have hstored := store_stored hi.dir (fun h => h0 (List.mem_of_mem_take h)) (List.length_take_le _ _) hv hok.1 hok.2 hk
        have hinv := Inv.store { σ.s with m := setBlock σ.s.m z ((σ.s.m.block z).setWord (8 * (i % 64)) nr) }
          hi hp hstored rfl rfl (hpass nr i z k hp hk)
        rw [hp] at hinv
        exact hinv
      | _ =>
        rw [hp] at hst
        exact hst.elim
    · exact hi.went (go_went hi.dir hi.imap rfl (hi.place p) (fun nr i r hr => hslot nr i r hr) hst hg)

/-- In a run in which every new entry is stored while no other process is past it or past `find_entry`,
    at most one call succeeds, and no two live entries have the same name. -/
theorem exclusive_open {v : Vol} {name : List UInt8} {σ : Sys ι}
    (hr : ((openSystem v name ι).restrict (Apart v)).Reachable σ) :
    σ.opened.length ≤ 1 ∧ ∀ x k l, Entry σ.s.m x k → Entry σ.s.m x l → k = l := by
  have hi : (v.ninodes < 65536 ∧ 0 ∉ name) ∧ Inv v name σ := by
    refine hr.invariant (I := fun τ => (v.ninodes < 65536 ∧ 0 ∉ name) ∧ Inv v name τ) (fun τ hτ => ?_)
      fun τ e τ' _ hi hs => ⟨hi.1, hi.2.step hi.1.1 hi.1.2 hs.1 hs.2⟩
    obtain ⟨⟨hv, -, h0⟩, hd, him, hidle, hnil⟩ := hτ
    refine ⟨⟨hv, h0⟩, hd, him, fun p => ?_, fun p _ _ _ _ _ _ _ _ h => ?_, fun p _ h => ?_, .inl hnil, fun h => ?_⟩
    · rw [hidle]
      trivial
    · rw [hidle] at h
      cases h
    · rw [hidle] at h
      cases h
    · obtain h | ⟨p, hp⟩ := h
      · exact absurd hnil h
      · rw [hidle] at hp
        cases hp
  refine ⟨?_, hi.2.dir.unique⟩
  obtain h | ⟨⟨r, h⟩, -⟩ := hi.2.opened
  · rw [h]
    exact Nat.zero_le _
  · rw [h]
    exact Nat.le_refl _

/-! ## Two calls in an empty directory -/

/-- The entries `.` and `..`, for inode 1. -/
def dots : Block := fun o => if o = 0 ∨ o = 16 then 1 else if o = 2 ∨ o = 18 ∨ o = 19 then 46 else 0

/-- The directory has zone 16 and no other entries. -/
def emptyDir : Mem where
  zone k := if k = 0 then 16 else 0
  size := 32
  dirt := false
  zmap j := decide (j ≤ 1)
  block _ := dots
  bcount _ := 0

theorem emptyDir_zoneAt (p : Path) : p = .top 0 ∨ emptyDir.zoneAt p = 0 := by
  obtain ⟨k, rfl⟩ | h := Extend.zoneAt_empty (m := emptyDir) (p := p) rfl rfl
  · by_cases hk : k = 0
    · exact .inl (by rw [hk])
    · exact .inr (if_neg hk)
  · exact .inr h

theorem emptyDir_sound : emptyDir.Sound Extend.floppy := by
  have hp : ∀ p, emptyDir.zoneAt p ≠ 0 → p = .top 0 := fun p h => (emptyDir_zoneAt p).resolve_right h
  refine ⟨rfl, fun p h => ?_, fun p h => ?_, fun p q h he => ?_⟩
  · rw [hp p h]
    decide
  · rw [hp p h]
    decide
  · rw [hp p h, hp q (he ▸ h)]

theorem emptyDir_dir : Dir Extend.floppy emptyDir := by
  refine ⟨emptyDir_sound, by decide, ?_, ?_, fun x k l hk hl => ?_⟩
  · exact ⟨by decide, by decide, by decide, by decide⟩
  · exact ⟨by decide, by decide, by decide, by decide⟩
  · have two : ∀ j, Entry emptyDir x j → j = 0 ∨ j = 1 := fun j hj => by
      have h1 : 16 * j < 32 := hj.inside
      omega
    have hname := hk.name.trans hl.name.symm
    obtain rfl | rfl := two k hk
    · obtain rfl | rfl := two l hl
      · rfl
      · exact absurd hname (by decide)
    · obtain rfl | rfl := two l hl
      · exact absurd hname (by decide)
      · rfl

def start : Sys (Fin 2) := ⟨⟨emptyDir, fun j => decide (j ≤ 1)⟩, fun _ => .idle, []⟩

/-- Both open the file `a`. -/
theorem init_start : (openSystem Extend.floppy [97] (Fin 2)).init start :=
  ⟨by decide, emptyDir_dir, rfl, fun _ => rfl, rfl⟩

def Place.isIdle : Place → Bool
  | .idle => true
  | _ => false

theorem isIdle_eq (h : q.isIdle = true) : q = .idle := by
  cases q with
  | idle => rfl
  | _ => cases h

/-- A process calls `open`, or goes on. -/
def Sys.next (σ : Sys (Fin 2)) (p : Fin 2) : Option (Sys (Fin 2)) :=
  if (σ.place p).isIdle then
    some { σ with place := Function.update σ.place p (.start [97] (σ.s.m.size / 16)) }
  else ((σ.place p).go Extend.floppy [97] σ.s).map fun r =>
    ⟨r.1, Function.update σ.place p r.2, (σ.place p).opens p ++ σ.opened⟩

theorem next_step {σ σ' : Sys (Fin 2)} {p : Fin 2} (h : σ.next p = some σ') :
    ∃ e, Sys.Step Extend.floppy [97] σ e σ' := by
  unfold Sys.next at h
  split_ifs at h with hp
  · cases h
    exact ⟨_, .call (isIdle_eq hp) (.inl ⟨rfl, rfl⟩)⟩
  · obtain ⟨⟨s', q⟩, hg, rfl⟩ := Option.map_eq_some_iff.mp h
    exact ⟨_, .go hg⟩

/-- The entry, and the test of it. -/
def hasEntry (m : Mem) (name : List UInt8) (k : ℕ) : Bool :=
  decide (16 * k < m.size) && decide (zoneFor m k ≠ 0) && decide (word m k ≠ 0) &&
    decide (nameOf (m.block (zoneFor m k)) (k % 64) = name)

theorem hasEntry_entry (h : hasEntry m name k = true) : Entry m name k := by
  simp only [hasEntry, Bool.and_eq_true, decide_eq_true_eq] at h
  exact ⟨h.1.1.1, h.1.1.2, h.1.2, h.2⟩

/-- No other process has a call when an entry is stored. -/
def Sys.alone (σ : Sys (Fin 2)) (p : Fin 2) : Bool :=
  match σ.place p with
  | .create _ _ _ => false
  | .putName _ _ _ k => decide (k < 14) || (List.finRange 2).all fun q => decide (q = p) || (σ.place q).isIdle
  | _ => true

def Sys.aloneNext (σ : Sys (Fin 2)) (p : Fin 2) : Option (Sys (Fin 2)) := if σ.alone p then σ.next p else none

theorem aloneNext_step {σ σ' : Sys (Fin 2)} {p : Fin 2} (h : σ.aloneNext p = some σ') :
    ∃ e, Apart Extend.floppy σ e ∧ Sys.Step Extend.floppy [97] σ e σ' := by
  unfold Sys.aloneNext at h
  split_ifs at h with ha
  unfold Sys.next at h
  split_ifs at h with hp
  · cases h
    exact ⟨.call p [97] (σ.s.m.size / 16), trivial, .call (isIdle_eq hp) (.inl ⟨rfl, rfl⟩)⟩
  · obtain ⟨⟨s', q⟩, hg, rfl⟩ := Option.map_eq_some_iff.mp h
    refine ⟨.go p, ⟨fun nr i r hr => ?_, fun nr i z k hr hk q hq => ?_⟩, .go hg⟩
    · rw [Sys.alone, hr] at ha
      cases ha
    · rw [Sys.alone, hr] at ha
      have hall := (Bool.or_eq_true _ _).mp ha |>.resolve_left (by simpa using hk)
      have hidle := (Bool.or_eq_true _ _).mp (List.all_eq_true.mp hall q (List.mem_finRange q)) |>.resolve_left (by simpa using hq)
      rw [isIdle_eq hidle]
      exact id

/-- The second call comes after the first. -/
def oneByOne : List (Fin 2) := List.replicate 26 0 ++ List.replicate 6 1

theorem exclusive_open_two_calls : ∃ σ : Sys (Fin 2), σ.opened = [0] ∧ Entry σ.s.m [97] 2 ∧
    ∀ k, Entry σ.s.m [97] k → k = 2 := by
  have h1 : ((oneByOne.foldlM Sys.aloneNext start).map fun σ => (σ.opened, hasEntry σ.s.m [97] 2)) =
      some ([0], true) := by decide
  obtain ⟨σ, hσ, h2⟩ := Option.map_eq_some_iff.mp h1
  simp only [Prod.mk.injEq] at h2
  have hr : ((openSystem Extend.floppy [97] (Fin 2)).restrict (Apart Extend.floppy)).Reachable σ := by
    have hinit : ((openSystem Extend.floppy [97] (Fin 2)).restrict (Apart Extend.floppy)).Reachable start := .init init_start
    exact hinit.foldlM (fun _ _ _ h => aloneNext_step h) _ hσ
  have he := hasEntry_entry h2.2
  exact ⟨σ, h2.1, he, fun k hk => (exclusive_open hr).2 [97] k 2 hk he⟩

/-- Process 0 finds no entry and sleeps in `new_inode`, while process 1 creates the file. -/
def bothCreate : List (Fin 2) := List.replicate 6 0 ++ List.replicate 26 1 ++ List.replicate 21 0

/-- Both calls succeed, and the directory has two entries of the name. -/
theorem both_create : ∃ σ : Sys (Fin 2), (openSystem Extend.floppy [97] (Fin 2)).Reachable σ ∧ σ.opened = [0, 1] ∧
    Entry σ.s.m [97] 2 ∧ Entry σ.s.m [97] 3 := by
  have h1 : ((bothCreate.foldlM Sys.next start).map fun σ => (σ.opened, hasEntry σ.s.m [97] 2, hasEntry σ.s.m [97] 3)) =
      some ([0, 1], true, true) := by decide
  obtain ⟨σ, hσ, h2⟩ := Option.map_eq_some_iff.mp h1
  simp only [Prod.mk.injEq] at h2
  have hr : (openSystem Extend.floppy [97] (Fin 2)).Reachable σ := by
    have hinit : (openSystem Extend.floppy [97] (Fin 2)).Reachable start := .init init_start
    exact hinit.foldlM (fun _ _ _ h => next_step h) _ hσ
  exact ⟨σ, hr, h2.1, hasEntry_entry h2.2.1, hasEntry_entry h2.2.2⟩

end Linux011.Fs.Exclusive
