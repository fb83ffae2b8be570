/-
  What a file holds: the writers of an inode (`file_write` with `create_block` and `new_block`, which
  may sleep at any of their places) are writers of an array of bytes, and `file_read` reads that array.
  The zones, the maps and the index blocks do not show.
-/
import Linux011.Fs.Bmap
import Linux011.Fs.ExtendRuns
import Linux011.Fs.Seek
import Linux011.Lib.Writers

namespace Linux011.Fs.Extend

open Linux011.Lib
open Linux011.Fs.Seek (limit)

variable {v : Vol} {m m' : Mem} {b z off block k : ℕ} {p q : Path} {x : UInt8}

/-! ## The bytes of a file -/

/-- The byte at `k`; where there is no zone it is 0. -/
def Mem.byte (m : Mem) (k : ℕ) : UInt8 :=
  if k < limit ∧ m.zoneAt (target (k / 1024)) ≠ 0 then m.block (m.zoneAt (target (k / 1024))) (k % 1024) else 0

theorem target_inj {n n' : ℕ} (hn : n < 7 + 512 + 512 * 512) (hn' : n' < 7 + 512 + 512 * 512) (h : target n = target n') :
    n = n' := by
  unfold target at h
  split_ifs at h
  all_goals
    simp only [Path.top.injEq, Path.ind.injEq, Path.leaf.injEq, Fin.mk.injEq] at h
    omega

theorem div_lt_of_lt_limit (h : k < limit) : k / 1024 < 7 + 512 + 512 * 512 := by
  unfold limit at h
  omega

theorem SameTree.byte (h : SameTree m m') : m'.byte = m.byte := by
  funext k
  unfold Mem.byte
  rw [h.zoneAt, h.block]

/-- The blocks after a new zone has been put into a slot. -/
theorem block_store (hb : ∀ r, p.up = some r → b ≠ z) (hz : z ≠ 0) (c : ℕ) (hc : ∀ r, p.up = some r → c ≠ b) :
    ((m.clearBlock z).store b z p).block c = if c = z then Block.zero else m.block c := by
  have hclear : (m.clearBlock z).block c = if c = z then Block.zero else m.block c := Function.update_apply ..
  cases hup : p.up with
  | none =>
    cases p with
    | top k => exact hclear
    | ind k => cases hup
    | mid k => cases hup
    | leaf k l => cases hup
  | some r =>
    rw [store_entry hup hz, ← hclear]
    exact Function.update_of_ne (hc r hup) ..

/-- A new zone is a block of zeros, and where an index block gets an entry no byte is changed. -/
theorem byte_store (hs : m.Sound v) (hp : Placed m b p) (h0 : m.zoneAt p = 0) (hr : Reserved v m z) :
    ((m.clearBlock z).store b z p).byte = m.byte := by
  have hz := hr.ne_zero
  have hzone := zoneAt_store hs hp h0 hr.fresh hz (hr.range.2.trans v.short)
  have hbz : ∀ r, p.up = some r → b ≠ z := fun r hr' he => hr.fresh r ((hp r hr').1.trans he)
  funext k
  unfold Mem.byte
  rw [hzone]
  by_cases ht : target (k / 1024) = p
  · have hblock := block_store (m := m) hbz hz z fun r hr' he => hbz r hr' he.symm
    rw [if_pos ht, hblock, if_pos rfl, ht, h0, if_neg (c := k < limit ∧ (0 : ℕ) ≠ 0) fun h => h.2 rfl]
    exact ite_self 0
  · rw [if_neg ht]
    by_cases hk : k < limit ∧ m.zoneAt (target (k / 1024)) ≠ 0
    · have hcb : ∀ r, p.up = some r → m.zoneAt (target (k / 1024)) ≠ b := fun r hr' he =>
        up_ne_target (k / 1024) hr' (hs.inj _ _ hk.2 (he.trans (hp r hr').1.symm)).symm
      rw [if_pos hk, if_pos hk, block_store hbz hz _ hcb, if_neg (hr.fresh _)]
    · rw [if_neg hk, if_neg hk]

theorem byte_setByte (hs : m.Sound v) (hz : Mapped m block z) (hblock : block < 7 + 512 + 512 * 512) (hoff : off < 1024) :
    (m.setByte z off x).byte = Function.update m.byte (1024 * block + off) x := by
  funext k
  unfold Mem.byte
  rw [zoneAt_setByte hs hz, Function.update_apply]
  by_cases hk : k = 1024 * block + off
  · have hdiv : k / 1024 = block := by omega
    have hmod : k % 1024 = off := by omega
    have hlim : k < limit := by
      unfold limit
      omega
    rw [if_pos hk, hdiv, hmod, hz.2, if_pos ⟨hlim, hz.1⟩]
    exact (congrFun (Function.update_self ..) off).trans (Function.update_self ..)
  · rw [if_neg hk]
    by_cases hc : k < limit ∧ m.zoneAt (target (k / 1024)) ≠ 0
    · rw [if_pos hc, if_pos hc]
      change Function.update m.block z _ _ _ = _
      by_cases he : m.zoneAt (target (k / 1024)) = z
      · have hdiv := target_inj (div_lt_of_lt_limit hc.1) hblock (hs.inj _ _ hc.2 (he.trans hz.2.symm))
        rw [he, Function.update_self]
        exact Function.update_of_ne (by omega) ..
      · rw [Function.update_of_ne he]
    · rw [if_neg hc, if_neg hc]

/-! ## The writers -/

/-- How far a writer is: what it has left in `buf`, and in `copy` also in the chunk, is what its tape
    has left, and the file is as long as the chunk needs. -/
def Follows (size : ℕ) (w : Option (Writing UInt8)) : Place → Prop
  | .idle => True
  | .loop pos buf => ∃ x, w = some x ∧ x.pos = pos ∧ x.todo = buf
  | .newSuper k | .newGetblk k _ | .bread k => ∃ x, w = some x ∧ x.pos = k.pos ∧ x.todo = k.buf ∧ k.pos < limit
  | .dataBread _ pos buf => ∃ x, w = some x ∧ x.pos = pos ∧ x.todo = buf ∧ pos < limit
  | .copy _ block off chunk pos buf => ∃ x, w = some x ∧ x.pos = 1024 * block + off ∧ x.todo = chunk ++ buf ∧
      x.pos + chunk.length = pos ∧ pos ≤ size ∧ off + chunk.length ≤ 1024 ∧ block < 7 + 512 + 512 * 512

theorem Follows.mono {n n' : ℕ} {w : Option (Writing UInt8)} {q : Place} (hn : n ≤ n') (h : Follows n w q) : Follows n' w q := by
  cases q with
  | copy z block off chunk pos buf =>
    obtain ⟨x, hw, hpos, htodo, hend, hsize, h⟩ := h
    exact ⟨x, hw, hpos, htodo, hend, Nat.le_trans hsize hn, h⟩
  | _ => exact h

/-- The bytes and the size are as before. -/
def Unseen (m m' : Mem) : Prop := m'.byte = m.byte ∧ m'.size = m.size

theorem Unseen.trans {x y z : Mem} (h : Unseen x y) (h' : Unseen y z) : Unseen x z :=
  ⟨h'.1.trans h.1, h'.2.trans h.2⟩

theorem unseen_leave (m : Mem) (b : ℕ) (p : Path) : Unseen m (m.leave b p) :=
  ⟨(sameTree_leave m b p).byte, by cases p <;> rfl⟩

theorem size_store (m : Mem) (b z : ℕ) (p : Path) : (m.store b z p).size = m.size := by
  cases p with
  | top k => rfl
  | ind k => unfold Mem.store; dsimp only; split_ifs <;> rfl
  | mid k => unfold Mem.store; dsimp only; split_ifs <;> rfl
  | leaf k l => unfold Mem.store; dsimp only; split_ifs <;> rfl

theorem found_follows {n : ℕ} {w : Option (Writing UInt8)} {k : Walk} (h : Follows n w (.newSuper k)) (z : ℕ) :
    Unseen m (found m k z).1 ∧ Follows n w (found m k z).2 := by
  have hl := unseen_leave m k.b k.path
  unfold found
  by_cases h0 : z = 0
  · rw [if_pos h0]
    exact ⟨hl, trivial⟩
  · rw [if_neg h0]
    cases k.rest with
    | nil => exact ⟨hl, h⟩
    | cons p rest => exact ⟨hl, h⟩

theorem testSlot_follows {n : ℕ} {w : Option (Writing UInt8)} {k : Walk} (h : Follows n w (.newSuper k)) :
    Unseen m (testSlot m k).1 ∧ Follows n w (testSlot m k).2 := by
  unfold testSlot
  split_ifs
  · exact ⟨⟨rfl, rfl⟩, h⟩
  · exact found_follows h _

theorem newDone_follows {n : ℕ} {w : Option (Writing UInt8)} {k : Walk} {y : Mem} (h : Follows n w (.newSuper k))
    (hst : Unseen m (y.store k.b z k.path)) : Unseen m (newDone y k z).1 ∧ Follows n w (newDone y k z).2 := by
  obtain ⟨hu, hf⟩ := found_follows (m := y.store k.b z k.path) h z
  exact ⟨hst.trans hu, hf⟩

theorem unseen_store_zero {y : Mem} (h : SameTree m y ∧ y.size = m.size) (h0 : ∀ k, p = .top k → y.zone k = 0) :
    Unseen m (y.store b 0 p) :=
  ⟨(h.1.trans (sameTree_store_zero h0)).byte, (size_store y b 0 p).trans h.2⟩

/-- What a step does that stores no byte of the file. -/
theorem go_unseen {n : ℕ} {w : Option (Writing UInt8)} {q q' : Place} (hs : m.Sound v) (hq : PlaceOk v m q) (hk : SlotKept v m q)
    (hread : ∀ z pos buf, q ≠ .dataBread z pos buf) (hcopy : ∀ z block off chunk pos buf, q ≠ .copy z block off chunk pos buf)
    (h : go v m q = some (m', q')) (hf : Follows n w q) : Unseen m m' ∧ Follows n w q' := by
  cases q with
  | idle => cases h
  | loop pos buf =>
    dsimp only [go] at h
    split_ifs at h with h1 h2
    · cases h
      exact ⟨⟨rfl, rfl⟩, trivial⟩
    · split at h
      · cases h
      · rename_i p rest hr
        obtain ⟨x, hw, hpos, htodo⟩ := hf
        have hlt : pos < limit := by
          unfold limit
          omega
        have ht := testSlot_follows (m := m) (n := n) (w := w) (k := ⟨0, p, rest, pos, buf⟩) ⟨x, hw, hpos, htodo, hlt⟩
        rw [Option.some.inj h] at ht
        exact ht
  | newSuper k =>
    dsimp only [go] at h
    cases hj : freeBit v m with
    | none =>
      rw [hj] at h
      have hd := newDone_follows hf (unseen_store_zero ⟨SameTree.refl m, rfl⟩ (hk fun j' hj' => by cases hj.symm.trans hj'))
      rw [Option.some.inj h] at hd
      exact hd
    | some j =>
      rw [hj] at h
      dsimp only at h
      split_ifs at h with hn
      · have h0 : ∀ i, k.path = .top i → m.zone i = 0 := hk fun j' hj' => by
          cases hj.symm.trans hj'
          exact hn
        have hd := newDone_follows hf (unseen_store_zero (y := m.setBit j) ⟨⟨rfl, rfl, rfl⟩, rfl⟩ h0)
        rw [Option.some.inj h] at hd
        exact hd
      · cases h
        exact ⟨⟨rfl, rfl⟩, hf⟩
  | newGetblk k z =>
    dsimp only [go] at h
    split_ifs at h
    have h0 : m.zoneAt k.path = 0 := hq.1.placed.slot.symm.trans hk
    have hd := newDone_follows (n := n) (w := w) (z := z) (y := m.clearBlock z) hf ⟨byte_store hs hq.1.placed h0 hq.2, size_store _ _ _ _⟩
    rw [Option.some.inj h] at hd
    exact hd
  | bread k =>
    obtain ⟨hu, hf⟩ := testSlot_follows (m := m.take k.b) hf
    rw [Option.some.inj h] at hu hf
    exact ⟨Unseen.trans (y := m.take k.b) ⟨rfl, rfl⟩ hu, hf⟩
  | dataBread z pos buf => exact absurd rfl (hread z pos buf)
  | copy z block off chunk pos buf => exact absurd rfl (hcopy z block off chunk pos buf)

section

variable {ι : Type} [DecidableEq ι] {σ σ' : Sys ι} {f : ℕ → UInt8} {n : ℕ} {t : Tape ι UInt8}

/-- The tape and the file say the same. -/
structure Agrees (σ : Sys ι) (t : Tape ι UInt8) : Prop where
  cell : t.cell = σ.m.byte
  size : t.size = σ.m.size
  follows : ∀ p, Follows σ.m.size (t.writing p) (σ.place p)

/-- A writer goes on while the tape rests. -/
theorem Agrees.rest (ha : Agrees σ t) {p : ι} {q : Place} (hu : Unseen σ.m m') (hf : Follows σ.m.size (t.writing p) q)
    (got : List ℕ) (wrote : List (ℕ × ℕ)) : Agrees ⟨m', Function.update σ.place p q, got, wrote⟩ t := by
  refine ⟨ha.cell.trans hu.1.symm, ha.size.trans hu.2.symm, fun p' => ?_⟩
  dsimp only
  rw [hu.2]
  by_cases hp : p' = p
  · subst hp
    rw [Function.update_self]
    exact hf
  · rw [Function.update_of_ne hp]
    exact ha.follows p'

/-- `file_write` in `bread`: the file grows to the end of the chunk. -/
theorem Agrees.grow (ha : Agrees σ t) {p : ι} {z pos c : ℕ} {buf : List UInt8} (hq : σ.place p = .dataBread z pos buf)
    (hc : min (1024 - pos % 1024) buf.length = c) (got : List ℕ) (wrote : List (ℕ × ℕ)) :
    ∃ e t', (tapeSystem f n).step t e t' ∧ e.Goes ∧ Agrees ⟨(σ.m.take z).grow (pos + c),
      Function.update σ.place p (.copy z (pos / 1024) (pos % 1024) (buf.take c) (pos + c) (buf.drop c)), got, wrote⟩ t' := by
  have hf := ha.follows p
  rw [hq] at hf
  obtain ⟨x, hw, hpos, htodo, hlt⟩ := hf
  have hsize : ((σ.m.take z).grow (pos + c)).size = max σ.m.size (pos + c) := by
    unfold Mem.grow
    split_ifs with h
    · exact (Nat.max_eq_right (Nat.le_of_lt h)).symm
    · exact (Nat.max_eq_left (Nat.le_of_not_lt h)).symm
  have htree : SameTree σ.m ((σ.m.take z).grow (pos + c)) := by
    unfold Mem.grow
    split_ifs
    · exact ⟨rfl, rfl, rfl⟩
    · exact ⟨rfl, rfl, rfl⟩
  refine ⟨.grow p (pos + c), _, ⟨x, hw, ?_, rfl⟩, trivial, ha.cell.trans htree.byte.symm, ?_, fun p' => ?_⟩
  · rw [hpos, htodo, ← hc]
    exact Nat.add_le_add_left (Nat.min_le_right ..) pos
  · exact (congrArg (max · (pos + c)) ha.size).trans hsize.symm
  · dsimp only
    rw [hsize]
    by_cases hp : p' = p
    · subst hp
      rw [Function.update_self]
      have hlen : (buf.take c).length = c := by
        rw [List.length_take]
        omega
      refine ⟨x, hw, ?_, ?_, ?_, Nat.le_max_right .., ?_, div_lt_of_lt_limit hlt⟩
      · rw [hpos]
        omega
      · rw [htodo, List.take_append_drop]
      · rw [hpos, hlen]
      · rw [hlen]
        omega
    · rw [Function.update_of_ne hp]
      exact (ha.follows p').mono (Nat.le_max_left ..)

/-- The copy loop of `file_write` stores a byte. -/
theorem Agrees.put (ha : Agrees σ t) (hs : σ.m.Sound v) {p : ι} {z block off pos : ℕ} {x : UInt8} {xs buf : List UInt8}
    (hq : σ.place p = .copy z block off (x :: xs) pos buf) (hz : Mapped σ.m block z) (got : List ℕ) (wrote : List (ℕ × ℕ)) :
    ∃ e t', (tapeSystem f n).step t e t' ∧ e.Goes ∧
      Agrees ⟨σ.m.setByte z off x, Function.update σ.place p (.copy z block (off + 1) xs pos buf), got, wrote⟩ t' := by
  have hf := ha.follows p
  rw [hq] at hf
  obtain ⟨w, hw, hpos, htodo, hend, hsize, hoff, hblock⟩ := hf
  rw [List.length_cons] at hend hoff
  have hlt : w.pos < t.size := by
    rw [ha.size]
    omega
  refine ⟨.put p, _, ⟨w, x, xs ++ buf, hw, htodo, hlt, rfl⟩, trivial, ?_, ha.size, fun p' => ?_⟩
  · rw [ha.cell, hpos]
    exact (byte_setByte hs hz hblock (by omega)).symm
  · dsimp only
    by_cases hp : p' = p
    · subst hp
      rw [Function.update_self, Function.update_self]
      have hpos' : (⟨w.before, w.start, w.done ++ [x], xs ++ buf⟩ : Writing UInt8).pos = w.pos + 1 := by
        unfold Writing.pos
        rw [List.length_append, List.length_singleton]
        rfl
      refine ⟨_, rfl, ?_, rfl, ?_, hsize, by omega, hblock⟩
      · rw [hpos', hpos]
        rfl
      · rw [hpos']
        omega
    · rw [Function.update_of_ne hp, Function.update_of_ne hp]
      exact ha.follows p'

def Event.Goes : Event ι → Prop
  | .write _ _ _ _ => False
  | _ => True

theorem Agrees.step {e : Event ι} (ha : Agrees σ t) (hi : Inv v σ) (hk : KeepsSlot v σ e) (h : Sys.Step v σ e σ') :
    ∃ e' t', (tapeSystem f n).step t e' t' ∧ (e.Goes → e'.Goes) ∧ Agrees σ' t' := by
  cases h with
  | write hp =>
    rename_i p append pos buf
    refine ⟨.call p (if append then σ.m.size else pos) buf, _, rfl, False.elim, ha.cell, ha.size, fun p' => ?_⟩
    dsimp only
    by_cases hp : p' = p
    · subst hp
      rw [Function.update_self, Function.update_self]
      exact ⟨_, rfl, rfl, rfl⟩
    · rw [Function.update_of_ne hp, Function.update_of_ne hp]
      exact ha.follows p'
  | ioError hp =>
    rename_i p
    have hidle : Follows σ.m.size (t.writing p) .idle := trivial
    exact ⟨.rest, t, rfl, id, ha.rest ⟨rfl, rfl⟩ hidle _ _⟩
  | go hg =>
    rename_i p m' q
    have hf := ha.follows p
    have hplace := hi.place p
    cases hq : σ.place p with
    | dataBread z pos buf =>
      rw [hq] at hg
      cases hg
      obtain ⟨e', t', hs, hgoes, ha'⟩ := ha.grow hq rfl ((σ.place p).gets ++ σ.got) ((σ.place p).writes ++ σ.wrote)
      rw [hq] at ha'
      exact ⟨e', t', hs, fun _ => hgoes, ha'⟩
    | copy z block off chunk pos buf =>
      rw [hq] at hg hf hplace
      cases chunk with
      | nil =>
        cases hg
        obtain ⟨w, hw, hpos, htodo, hend, -⟩ := hf
        have hloop : Follows σ.m.size (t.writing p) (.loop pos buf) := ⟨w, hw, hend, htodo⟩
        have hu : Unseen σ.m (σ.m.release z) := ⟨rfl, rfl⟩
        exact ⟨.rest, t, rfl, id, ha.rest hu hloop _ _⟩
      | cons x xs =>
        cases hg
        obtain ⟨e', t', hs, hgoes, ha'⟩ := ha.put hi.sound hq hplace ((σ.place p).gets ++ σ.got) ((σ.place p).writes ++ σ.wrote)
        rw [hq] at ha'
        exact ⟨e', t', hs, fun _ => hgoes, ha'⟩
    | _ =>
      have hread : ∀ z pos buf, σ.place p ≠ .dataBread z pos buf := by
        intro z pos buf he
        cases hq.symm.trans he
      have hcopy : ∀ z block off chunk pos buf, σ.place p ≠ .copy z block off chunk pos buf := by
        intro z block off chunk pos buf he
        cases hq.symm.trans he
      obtain ⟨hu, hf'⟩ := go_unseen hi.sound hplace hk hread hcopy hg hf
      rw [← hq]
      exact ⟨.rest, t, rfl, id, ha.rest hu hf' _ _⟩

/-! ## Runs -/

/-- Writers of this inode, none of which has begun. -/
def writersOf (v : Vol) (ι : Type) [DecidableEq ι] (m : Mem) : Lts (Sys ι) (Event ι) where
  init σ := σ = ⟨m, fun _ => .idle, [], []⟩
  step := Sys.Step v

variable {m₀ : Mem}

theorem writers_agree (hm : m₀.Sound v) (hr : ((writersOf v ι m₀).restrict (KeepsSlot v)).Reachable σ) :
    Inv v σ ∧ ∃ t : Tape ι UInt8, (tapeSystem m₀.byte m₀.size).Reachable t ∧ Agrees σ t := by
  refine hr.invariant (I := fun σ => Inv v σ ∧ ∃ t : Tape ι UInt8, (tapeSystem m₀.byte m₀.size).Reachable t ∧ Agrees σ t) ?_ ?_
  · rintro _ rfl
    exact ⟨reachable_inv (.init ⟨hm, fun _ => rfl, rfl, rfl⟩), _, .init rfl, rfl, rfl, fun _ => trivial⟩
  · rintro σ e σ' - ⟨hi, t, ht, ha⟩ hs
    obtain ⟨e', t', hs', -, ha'⟩ := ha.step hi hs.1 hs.2
    exact ⟨hi.step hs.1 hs.2, t', ht.step hs', ha'⟩

/-- Writers of an inode, in any order and asleep at any of their places, are writers of an array of
    bytes with a size: if nothing is in the file behind its end, nothing ever is. -/
theorem file_is_bytes (hm : m₀.Sound v) (hr : ((writersOf v ι m₀).restrict (KeepsSlot v)).Reachable σ) :
    (∃ t : Tape ι UInt8, (tapeSystem m₀.byte m₀.size).Reachable t ∧ t.cell = σ.m.byte ∧ t.size = σ.m.size ∧
      ∀ p, Follows σ.m.size (t.writing p) (σ.place p)) ∧
    ((∀ k, m₀.size ≤ k → m₀.byte k = 0) → ∀ k, σ.m.size ≤ k → σ.m.byte k = 0) := by
  obtain ⟨-, t, ht, ha⟩ := writers_agree hm hr
  refine ⟨⟨t, ht, ha.cell, ha.size, ha.follows⟩, fun hzero k hk => ?_⟩
  obtain ⟨hsize, hbeyond⟩ := tape_beyond ht
  rw [ha.size] at hsize hbeyond
  rw [← ha.cell, hbeyond k hk]
  exact hzero k (hsize.trans hk)

end

theorem byte_empty (k : ℕ) : emptyMem.byte k = 0 := by
  refine if_neg fun h => h.2 ?_
  obtain ⟨j, hj⟩ | h0 := zoneAt_empty (m := emptyMem) (p := target (k / 1024)) rfl rfl
  · rw [hj]
    rfl
  · exact h0

theorem file_is_bytes_one_byte : ∃ σ : Sys (Fin 2), σ.m.size = 1 ∧ ∀ k, 1 ≤ k → σ.m.byte k = 0 := by
  have h1 : (([.write 0 false 0 [65], .go 0, .go 0, .go 0, .go 0].foldlM Sys.keptNext start).map fun σ => σ.m.size) = some 1 := by
    decide
  obtain ⟨σ, hσ, hsize⟩ := Option.map_eq_some_iff.mp h1
  have hr : ((writersOf floppy (Fin 2) emptyMem).restrict (KeepsSlot floppy)).Reachable σ := by
    have hinit : ((writersOf floppy (Fin 2) emptyMem).restrict (KeepsSlot floppy)).Reachable start := .init rfl
    exact hinit.foldlM (fun _ e _ h => ⟨e, keptNext_step h⟩) _ hσ
  have hzero := (file_is_bytes sound_empty hr).2 fun k _ => byte_empty k
  rw [hsize] at hzero
  exact ⟨σ, hsize, hzero⟩

/-! ## A writer alone -/

section

variable {σ : Sys Unit} {m₀ : Mem} {start : ℕ} {buf : List UInt8}

/-- One call of `file_write`, when nobody else writes. -/
def callOf (v : Vol) (m : Mem) (start : ℕ) (buf : List UInt8) : Lts (Sys Unit) (Event Unit) where
  init σ := σ = ⟨m, fun _ => .loop start buf, [], []⟩
  step σ e σ' := e.Goes ∧ Sys.Step v σ e σ'

/-- `new_block` has been called for an empty slot. -/
def Tested (m : Mem) : Place → Prop
  | .newSuper k | .newGetblk k _ => m.slot k.b k.path = 0
  | _ => True

theorem found_tested {k : Walk} (z : ℕ) : Tested (found m k z).1 (found m k z).2 := by
  unfold found
  dsimp only
  split_ifs
  · trivial
  · cases k.rest with
    | nil => trivial
    | cons p rest => trivial

theorem testSlot_tested {k : Walk} : Tested (testSlot m k).1 (testSlot m k).2 := by
  unfold testSlot
  split_ifs with h
  · exact h
  · exact found_tested _

theorem slot_setBit (j b : ℕ) (p : Path) : (m.setBit j).slot b p = m.slot b p := by
  cases p <;> rfl

theorem go_tested {q q' : Place} (hq : Tested m q) (h : go v m q = some (m', q')) : Tested m' q' := by
  cases q with
  | idle => cases h
  | loop pos buf =>
    dsimp only [go] at h
    split_ifs at h
    · cases h
      trivial
    · split at h
      · cases h
      · have ht := congrArg (fun x => Tested x.1 x.2) (Option.some.inj h)
        exact ht.mp testSlot_tested
  | newSuper k =>
    dsimp only [go] at h
    cases hj : freeBit v m with
    | none =>
      rw [hj] at h
      have ht := congrArg (fun x => Tested x.1 x.2) (Option.some.inj h)
      exact ht.mp (found_tested _)
    | some j =>
      rw [hj] at h
      dsimp only at h
      split_ifs at h
      · have ht := congrArg (fun x => Tested x.1 x.2) (Option.some.inj h)
        exact ht.mp (found_tested _)
      · cases h
        exact (slot_setBit j k.b k.path).trans hq
  | newGetblk k z =>
    dsimp only [go] at h
    split_ifs at h
    have ht := congrArg (fun x => Tested x.1 x.2) (Option.some.inj h)
    exact ht.mp (found_tested _)
  | bread k =>
    have ht := congrArg (fun x => Tested x.1 x.2) (Option.some.inj h)
    exact ht.mp testSlot_tested
  | dataBread z pos buf =>
    cases h
    trivial
  | copy z block off chunk pos buf =>
    cases chunk with
    | _ =>
      cases h
      trivial

theorem Tested.slotKept {q : Place} (h : Tested m q) : SlotKept v m q := by
  cases q with
  | newSuper k =>
    intro _ i hi
    have h0 : m.slot k.b k.path = 0 := h
    rw [hi] at h0
    exact h0
  | newGetblk k z => exact h
  | _ => trivial

theorem call_agrees (hm : m₀.Sound v) (hr : (callOf v m₀ start buf).Reachable σ) : (Tested σ.m (σ.place ()) ∧ Inv v σ) ∧
    ∃ t : Tape Unit UInt8, Agrees σ t ∧ t.Alone m₀.byte m₀.size start buf () := by
  refine hr.invariant (I := fun σ => (Tested σ.m (σ.place ()) ∧ Inv v σ) ∧
    ∃ t : Tape Unit UInt8, Agrees σ t ∧ t.Alone m₀.byte m₀.size start buf ()) ?_ ?_
  · rintro _ rfl
    have hi : Inv v (⟨m₀, fun _ => .idle, [], []⟩ : Sys Unit) := reachable_inv (.init ⟨hm, fun _ => rfl, rfl, rfl⟩)
    refine ⟨⟨trivial, hm, fun _ => trivial, fun p p' _ _ _ _ _ => rfl, hi.got, hi.wrote⟩,
      ⟨m₀.byte, m₀.size, fun _ => some ⟨m₀.byte, start, [], buf⟩⟩, ⟨rfl, rfl, fun _ => ⟨_, rfl, rfl, rfl⟩⟩, [], buf, rfl, rfl,
      splice_nil.symm, Nat.le_refl _, Nat.le_max_left .., .inl rfl⟩
  · rintro σ e σ' - ⟨⟨ht, hi⟩, t, ha, hal⟩ ⟨hgoes, hs⟩
    have hk : KeepsSlot v σ e := by
      cases e with
      | go p => exact ht.slotKept
      | _ => trivial
    obtain ⟨e', t', hs', hg, ha'⟩ := ha.step hi hk hs (f := m₀.byte) (n := m₀.size)
    refine ⟨⟨?_, hi.step hk hs⟩, t', ha', hal.step hs' (hg hgoes)⟩
    cases hs with
    | write hp => exact hgoes.elim
    | ioError hp => trivial
    | go hgo => exact go_tested ht hgo

/-- A `file_write` that is alone stores a first part of its buffer at its position and changes nothing
    else, wherever it is and however it ends; at the loop test what it has left is the rest. The file
    ends behind what was stored, and no further than where the buffer would have ended. -/
theorem file_write_alone (hm : m₀.Sound v) (hr : (callOf v m₀ start buf).Reachable σ) : ∃ done todo, done ++ todo = buf ∧
    σ.m.byte = splice m₀.byte start done ∧ m₀.size ≤ σ.m.size ∧ σ.m.size ≤ max m₀.size (start + buf.length) ∧
    (done = [] ∨ start + done.length ≤ σ.m.size) ∧
    ∀ pos rest, σ.place () = .loop pos rest → pos = start + done.length ∧ rest = todo := by
  obtain ⟨-, t, ha, done, todo, happ, hw, hcell, hn, hle, hdone⟩ := call_agrees hm hr
  rw [ha.size] at hn hle hdone
  refine ⟨done, todo, happ, ha.cell.symm.trans hcell, hn, hle, hdone, fun pos rest hq => ?_⟩
  have hf := ha.follows ()
  rw [hq] at hf
  obtain ⟨x, hx, hpos, htodo⟩ := hf
  cases hw.symm.trans hx
  exact ⟨hpos.symm, htodo.symm⟩

end

/-- The writer goes on. -/
def Sys.goOn (σ : Sys Unit) (_ : Unit) : Option (Sys Unit) := (go floppy σ.m (σ.place ())).map fun r =>
  ⟨r.1, Function.update σ.place () r.2, (σ.place ()).gets ++ σ.got, (σ.place ()).writes ++ σ.wrote⟩

/-- At the loop test with nothing left. -/
def Place.written : Place → Bool
  | .loop _ [] => true
  | _ => false

theorem file_write_alone_one_byte : ∃ σ : Sys Unit, σ.m.byte 0 = 65 ∧ σ.m.size = 1 := by
  have h1 : (((List.replicate 6 ()).foldlM Sys.goOn ⟨emptyMem, fun _ => .loop 0 [65], [], []⟩).map fun σ =>
      (σ.place ()).written) = some true := by
    decide
  obtain ⟨σ, hσ, hw⟩ := Option.map_eq_some_iff.mp h1
  have hr : (callOf floppy emptyMem 0 [65]).Reachable σ := by
    have hinit : (callOf floppy emptyMem 0 [65]).Reachable ⟨emptyMem, fun _ => .loop 0 [65], [], []⟩ := .init rfl
    refine hinit.foldlM (fun σ _ σ' h => ⟨.go (), trivial, ?_⟩) _ hσ
    obtain ⟨⟨m', q⟩, hg, rfl⟩ := Option.map_eq_some_iff.mp h
    exact .go hg
  obtain ⟨done, todo, happ, hbyte, -, hle, hdone, hrest⟩ := file_write_alone sound_empty hr
  obtain ⟨pos, hq⟩ : ∃ pos, σ.place () = .loop pos [] := by
    cases hq : σ.place () with
    | loop pos buf =>
      rw [hq] at hw
      cases buf with
      | nil => exact ⟨pos, rfl⟩
      | cons x xs => cases hw
    | _ =>
      rw [hq] at hw
      cases hw
  obtain rfl := (hrest pos [] hq).2
  obtain rfl : done = [65] := (List.append_nil done).symm.trans happ
  exact ⟨σ, by rw [hbyte]; rfl, Nat.le_antisymm hle (hdone.resolve_left (List.cons_ne_nil _ _))⟩

/-! ## Reading -/

section

open Linux011.Fs.Seek (mapBlock chars setPos fpos isize)

variable {s : Kern} {i : Fin 32} {f : Fin 64} {pos c left : ℕ} {bc : ℕ → ℕ → UInt8}

/-- `entry`, for a number that need not be one of a slot -/
def Mem.slotAt (m : Mem) (b k : ℕ) : ℕ := if b = 0 then 0 else (m.block b).word k

/-- Position `pos` of file `f`, in a state that shows the inodes and disks of `s`. -/
def Seen (s : Kern) (f : Fin 64) (bc : ℕ → ℕ → UInt8) (pos : ℕ) (s' : Kern) : Prop := s'.inode = s.inode ∧ s'.disk = s.disk ∧
  s'.bcount = bc ∧ (s.env.access = none → s'.env.access = none) ∧ (s'.file f).pos = pos

/-- With `E` false the program does not stop, and with `R` it only faults where a user byte may. -/
abbrev Reads {α : Type} (s : Kern) (P : Kern → Prop) (m : K α) (Q : α → Kern → Prop) : Prop :=
  Spec (fun _ => s.env.access ≠ none) (fun _ => False) P m Q

theorem brelse_reads {d z : ℕ} (h : bc d z ≠ 255) : Reads s (Seen s f (hold bc d z) pos) (brelse d z) fun _ => Seen s f bc pos := by
  rintro s' ⟨h1, h2, h3, h4, h5⟩
  have hrun : brelse d z s' = .ok () { s' with bcount := bc } := by
    have hb := brelse_run { s' with bcount := bc } h
    rw [← show s' = { s' with bcount := hold bc d z } from by rw [← h3]] at hb
    exact hb
  rw [hrun]
  exact ⟨h1, h2, rfl, h4, h5⟩

end

end Linux011.Fs.Extend
