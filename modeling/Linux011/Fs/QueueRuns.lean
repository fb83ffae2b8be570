/-
  The pointers of the buffer heads and the lists they stand for. `Tied` says that the hash chains
  and the free list are what the loops of the code come through, `reassign` keeps it, and so the
  processes on the pointers are the processes on the lists (`headSystem_refines`). The free list
  is in the order in which buffers were assigned last.

  `insert_into_queues` stores into `b_prev` of the first buffer of the chain it joins, without a
  test for NULL: this happens whenever that chain is empty.
-/
import Linux011.Fs.Queues
import Linux011.Fs.Identity

namespace Linux011.Fs

open Linux011.Lib

variable {q q' : Queues} {c c' : Cache} {m m' : Heads} {bh dev blocknr block i n : ℕ}

namespace Queues

/-! ## The two operations -/

theorem follow_some (q : Queues) (i : ℕ) : q.follow (some i) = q := if_neg nofun

theorem follow_eq (q : Queues) (p : Option ℕ) : q.follow p = { q with null := q.null + if p = none then 1 else 0 } := by
  unfold follow
  split_ifs <;> rfl

/-- `if (p) p->b_prev = v` -/
theorem ite_setPrev (q : Queues) (p v : Option ℕ) : (if p ≠ none then q.setPrev p v else q) = { q with prev := setAt q.prev p v } := by
  cases p with
  | none => rfl
  | some a => exact congrArg (fun r : Queues => { r with prev := setAt q.prev (some a) v }) (follow_some q a)

/-- `if (p) p->b_next = v` -/
theorem ite_setNext (q : Queues) (p v : Option ℕ) : (if p ≠ none then q.setNext p v else q) = { q with next := setAt q.next p v } := by
  cases p with
  | none => rfl
  | some a => exact congrArg (fun r : Queues => { r with next := setAt q.next (some a) v }) (follow_some q a)

/-- A buffer whose pointers do not lead to itself in its chain is taken out of both lists. -/
theorem removeFromQueues_eq (hn : q.next bh ≠ some bh) (hp : q.prev bh ≠ some bh) (hpf : q.prevFree bh ≠ none)
    (hnf : q.nextFree bh ≠ none) :
    q.removeFromQueues bh dev blocknr = some
      { prev := setAt q.prev (q.next bh) (q.prev bh)
        next := setAt q.next (q.prev bh) (q.next bh)
        prevFree := setAt q.prevFree (q.nextFree bh) (q.prevFree bh)
        nextFree := setAt q.nextFree (q.prevFree bh) (q.nextFree bh)
        hash := Function.update q.hash (hashfn dev blocknr)
          (if q.hash (hashfn dev blocknr) = some bh then q.next bh else q.hash (hashfn dev blocknr))
        freeList := if q.freeList = some bh then q.nextFree bh else q.freeList
        null := q.null } := by
  have hprev : setAt q.prev (q.next bh) (q.prev bh) bh = q.prev bh := setAt_of_ne hn
  have hnext : setAt q.next (q.prev bh) (q.next bh) bh = q.next bh := setAt_of_ne hp
  have hfree : setAt q.nextFree (q.prevFree bh) (q.nextFree bh) bh = q.nextFree bh := by
    by_cases h : q.prevFree bh = some bh
    · rw [h]
      exact setAt_self ..
    · exact setAt_of_ne h
  obtain ⟨x, hx⟩ := Option.ne_none_iff_exists'.mp hpf
  obtain ⟨y, hy⟩ := Option.ne_none_iff_exists'.mp hnf
  rw [hx, hy] at hfree
  unfold removeFromQueues
  by_cases hh : q.hash (hashfn dev blocknr) = some bh <;> by_cases hf : q.freeList = some bh <;>
    simp only [ite_setPrev, ite_setNext, hprev, hnext, hx, hy, hh, hf, setNextFree, setPrevFree, follow_some, hfree, if_true,
      if_false, Function.update_eq_self, reduceCtorEq, or_false]

/-- `free_list` leads to `f`. The chain joined may be empty: then `b_prev` of NULL is stored. -/
theorem insertIntoQueues_eq {f : ℕ} (hf : q.freeList = some f) (hpf : q.prevFree f ≠ none) :
    q.insertIntoQueues bh dev blocknr =
      { prev := if dev = 0 then Function.update q.prev bh none
          else setAt (Function.update q.prev bh none) (q.hash (hashfn dev blocknr)) (some bh)
        next := Function.update q.next bh (if dev = 0 then none else q.hash (hashfn dev blocknr))
        prevFree := Function.update (Function.update q.prevFree bh (q.prevFree f)) f (some bh)
        nextFree := setAt (Function.update q.nextFree bh (some f)) (q.prevFree f) (some bh)
        hash := if dev = 0 then q.hash else Function.update q.hash (hashfn dev blocknr) (some bh)
        freeList := some f
        null := q.null + if dev = 0 then 0 else if q.hash (hashfn dev blocknr) = none then 1 else 0 } := by
  obtain ⟨x, hx⟩ := Option.ne_none_iff_exists'.mp hpf
  have hread : Function.update q.prevFree bh (some x) f = some x := by
    by_cases h : f = bh
    · rw [h, Function.update_self]
    · rw [Function.update_of_ne h, hx]
  unfold insertIntoQueues
  by_cases hd : dev = 0 <;>
    simp only [setNextFree, setPrevFree, setNext, setPrev, follow_eq, hf, Option.bind_some, hx, setAt, Option.elim_some, hread,
      hd, if_true, if_false, reduceCtorEq, Function.update_self, Function.update_idem, Nat.add_zero]

end Queues

/-! ## The lists of the pointers -/

/-- The pointers lead through the lists of the cache, and those of a buffer without a device are
    NULL. -/
structure Tied (q : Queues) (c : Cache) : Prop where
  ring : IsRing q.nextFree q.prevFree q.freeList c.free
  chains : ∀ k, IsDoubly q.next q.prev (q.hash k) (c.hash k)
  loose : ∀ i ∈ c.free, (c.buf i).dev = 0 → q.next i = none ∧ q.prev i = none

theorem Tied.sameBlocks (h : Tied q c) (hs : SameBlocks c c') (hf : c'.free = c.free) : Tied q c' where
  ring := hf ▸ h.ring
  chains k := by
    rw [hs.hash]
    exact h.chains k
  loose i hi hd := h.loose i (hf ▸ hi) (hs.dev i ▸ hd)

/-- A neighbour of a buffer in its chain is no node of another chain. -/
theorem Tied.apart (h : Tied q c) (hc : c.Hashed) (hi : i ∈ c.free) {k b : ℕ} (hk : i ∉ c.hash k) (hb : b ∈ c.hash k) :
    q.next i ≠ some b ∧ q.prev i ≠ some b := by
  by_cases hd : (c.buf i).dev = 0
  · obtain ⟨hn, hp⟩ := h.loose i hi hd
    rw [hn, hp]
    exact ⟨nofun, nofun⟩
  · have hik : i ∈ c.hash (hashfn (c.buf i).dev (c.buf i).blocknr) := hc.mem.mpr ⟨hd, rfl⟩
    obtain ⟨hn, hp⟩ := (h.chains _).neighbours hik
    have hne : b ∉ c.hash (hashfn (c.buf i).dev (c.buf i).blocknr) := fun hm =>
      hk ((hc.mem.mp hm).2.symm.trans (hc.mem.mp hb).2 ▸ hik)
    exact ⟨fun he => hne (List.mem_of_mem_erase (hn b he)), fun he => hne (List.mem_of_mem_erase (hp b he))⟩

/-- The chains after `remove_from_queues`. -/
theorem Tied.removed (h : Tied q c) (hc : c.Hashed) (hi : i ∈ c.free) (k : ℕ) :
    IsDoubly (setAt q.next (q.prev i) (q.next i)) (setAt q.prev (q.next i) (q.prev i))
      (Function.update q.hash (hashfn (c.buf i).dev (c.buf i).blocknr)
        (if q.hash (hashfn (c.buf i).dev (c.buf i).blocknr) = some i then q.next i
          else q.hash (hashfn (c.buf i).dev (c.buf i).blocknr)) k) ((c.hash k).erase i) := by
  by_cases hk : i ∈ c.hash k
  · obtain ⟨-, rfl⟩ := hc.mem.mp hk
    rw [Function.update_self]
    exact (h.chains _).remove hk
  · rw [List.erase_of_not_mem hk]
    have hhash : Function.update q.hash (hashfn (c.buf i).dev (c.buf i).blocknr)
        (if q.hash (hashfn (c.buf i).dev (c.buf i).blocknr) = some i then q.next i
          else q.hash (hashfn (c.buf i).dev (c.buf i).blocknr)) k = q.hash k := by
      by_cases hkk : k = hashfn (c.buf i).dev (c.buf i).blocknr
      · subst hkk
        rw [Function.update_self, if_neg]
        exact fun he => hk (List.mem_of_head? ((h.chains _).head.trans he))
      · exact Function.update_of_ne hkk ..
    rw [hhash]
    exact (h.chains k).congr (fun b hb => setAt_of_ne (h.apart hc hi hk hb).2) fun b hb => setAt_of_ne (h.apart hc hi hk hb).1

/-- No buffer is its own neighbour in a chain. -/
theorem Tied.not_self (h : Tied q c) (hc : c.Hashed) (hi : i ∈ c.free) : q.next i ≠ some i ∧ q.prev i ≠ some i := by
  by_cases hd : (c.buf i).dev = 0
  · obtain ⟨hn, hp⟩ := h.loose i hi hd
    rw [hn, hp]
    exact ⟨nofun, nofun⟩
  · have hik : i ∈ c.hash (hashfn (c.buf i).dev (c.buf i).blocknr) := hc.mem.mpr ⟨hd, rfl⟩
    obtain ⟨hn, hp⟩ := (h.chains _).neighbours hik
    have hne := (hc.nodup (hashfn (c.buf i).dev (c.buf i).blocknr)).not_mem_erase (a := i)
    exact ⟨fun he => hne (hn i he), fun he => hne (hp i he)⟩

theorem reassign_free (c : Cache) (i dev block : ℕ) : (c.reassign i dev block).free = c.free.erase i ++ [i] := by
  unfold Cache.reassign Cache.insertIntoQueues
  dsimp only
  split_ifs <;> rfl

/-- The chains after `insert_into_queues`. -/
theorem chains_inserted {chain : ℕ → List ℕ} (h : ∀ k, IsDoubly q.next q.prev (q.hash k) (chain k)) (hi : ∀ k, i ∉ chain k)
    (hd : ∀ k k' b, b ∈ chain k → b ∈ chain k' → k = k') (hp : ∃ f, q.freeList = some f ∧ q.prevFree f ≠ none) (dev block k : ℕ) :
    IsDoubly (q.insertIntoQueues i dev block).next (q.insertIntoQueues i dev block).prev ((q.insertIntoQueues i dev block).hash k)
      ((if dev ≠ 0 ∧ hashfn dev block = k then [i] else []) ++ chain k) := by
  obtain ⟨f, hf, hpf⟩ := hp
  have hother : ∀ b ∈ chain k, b ≠ i := fun b hb hbi => hi k (hbi ▸ hb)
  rw [Queues.insertIntoQueues_eq hf hpf]
  by_cases h0 : dev = 0
  · simp only [h0, ne_eq, not_true_eq_false, false_and, if_false, if_true, List.nil_append]
    exact (h k).congr (fun b hb => Function.update_of_ne (hother b hb) ..) fun b hb => Function.update_of_ne (hother b hb) ..
  · by_cases hk : hashfn dev block = k
    · subst hk
      simp only [h0, ne_eq, not_false_eq_true, true_and, if_false, if_true, Function.update_self]
      exact (h _).push (hi _)
    · simp only [h0, hk, and_false, if_false, List.nil_append]
      rw [Function.update_of_ne (Ne.symm hk)]
      refine (h k).congr (fun b hb => Function.update_of_ne (hother b hb) ..) fun b hb => ?_
      rw [setAt_of_ne, Function.update_of_ne (hother b hb)]
      exact fun he => hk (hd _ _ b (List.mem_of_head? ((h _).head.trans he)) hb)

/-- A neighbour in a chain has a device. -/
theorem Tied.neighbour_dev (h : Tied q c) (hc : c.Hashed) (hi : i ∈ c.free) {b : ℕ} (hb : q.next i = some b ∨ q.prev i = some b) :
    (c.buf b).dev ≠ 0 := by
  by_cases hd : (c.buf i).dev = 0
  · obtain ⟨hn, hp⟩ := h.loose i hi hd
    rw [hn, hp] at hb
    exact hb.elim nofun nofun
  · obtain ⟨hn, hp⟩ := (h.chains _).neighbours (hc.mem.mpr ⟨hd, rfl⟩)
    exact (hc.mem.mp (List.mem_of_mem_erase (hb.elim (hn b) (hp b)))).1

/-- `remove_from_queues` and then `insert_into_queues` with another block. -/
theorem Tied.reassign (h : Tied q c) (hc : c.Hashed) (hn : c.free.Nodup) (hi : i ∈ c.free) (dev block : ℕ) :
    ∃ q₁, q.removeFromQueues i (c.buf i).dev (c.buf i).blocknr = some q₁ ∧
      Tied (q₁.insertIntoQueues i dev block) (c.reassign i dev block) ∧
      (q₁.insertIntoQueues i dev block).null =
        q.null + if dev = 0 then 0 else if (c.hash (hashfn dev block)).erase i = [] then 1 else 0 := by
  obtain ⟨hself, hself'⟩ := h.not_self hc hi
  obtain ⟨⟨y, -, hy⟩, x, -, hx⟩ := h.ring.neighbours hi
  refine ⟨_, Queues.removeFromQueues_eq hself hself' (by rw [hx]; nofun) (by rw [hy]; nofun), ?_⟩
  obtain ⟨f, hf, hpf, hring⟩ := h.ring.move hn hi
  have hchains := h.removed hc hi
  refine ⟨⟨?_, fun k => ?_, fun j hj hd => ?_⟩, ?_⟩
  · rw [reassign_free, Queues.insertIntoQueues_eq hf hpf]
    exact hring
  · rw [hc.reassign_hash]
    refine chains_inserted hchains (fun k => (hc.nodup k).not_mem_erase) (fun k k' b hb hb' => ?_) ⟨f, hf, hpf⟩ dev block k
    exact (hc.mem.mp (List.mem_of_mem_erase hb)).2.symm.trans (hc.mem.mp (List.mem_of_mem_erase hb')).2
  · rw [reassign_buf] at hd
    rw [Queues.insertIntoQueues_eq hf hpf]
    by_cases hji : j = i
    · subst hji
      rw [Function.update_self] at hd
      have hd : dev = 0 := hd
      simp only [hd, if_true, Function.update_self, and_self]
    · rw [Function.update_of_ne hji] at hd
      rw [reassign_free] at hj
      have hj : j ∈ c.free := ((List.mem_append.mp hj).resolve_right fun hm => hji (List.mem_singleton.mp hm)) |> List.mem_of_mem_erase
      obtain ⟨hnj, hpj⟩ := h.loose j hj hd
      have hnext : q.next i ≠ some j := fun he => h.neighbour_dev hc hi (.inl he) hd
      have hprev : q.prev i ≠ some j := fun he => h.neighbour_dev hc hi (.inr he) hd
      refine ⟨(Function.update_of_ne hji ..).trans ((setAt_of_ne hprev).trans hnj), ?_⟩
      dsimp only
      by_cases h0 : dev = 0
      · rw [if_pos h0, Function.update_of_ne hji, setAt_of_ne hnext, hpj]
      · rw [if_neg h0, setAt_of_ne, Function.update_of_ne hji, setAt_of_ne hnext, hpj]
        exact fun he => (hc.mem.mp (List.mem_of_mem_erase (List.mem_of_head? ((hchains _).head.trans he)))).1 hd
  · rw [Queues.insertIntoQueues_eq hf hpf]
    have hnil := (hchains (hashfn dev block)).head ▸ List.head?_eq_none_iff (l := (c.hash (hashfn dev block)).erase i)
    exact congrArg (q.null + ·) (if_congr Iff.rfl rfl (if_congr hnil rfl rfl))

/-! ## The loops -/

theorem chain_eq {p : Option ℕ} {l : List ℕ} (h : IsLinked q.next p l) (hn : l.length ≤ n) : q.chain n p = l := by
  induction l generalizing n p with
  | nil =>
    cases h
    cases n <;> rfl
  | cons a l ih =>
    obtain ⟨rfl, h⟩ := h
    cases n with
    | zero => exact absurd hn (Nat.not_succ_le_zero _)
    | succ n => exact congrArg (a :: ·) (ih h (Nat.le_of_succ_le_succ hn))

/-- From any buffer of the free list on to its end. -/
theorem round_eq {a : ℕ} {l : List ℕ} {p : Option ℕ} (hp : q.freeList = p)
    (h : (some a :: (l.map some ++ [p])).IsChain (Link q.nextFree q.prevFree)) (hf : ∀ b ∈ l, some b ≠ p) (hn : l.length < n) :
    q.round n (some a) = a :: l := by
  induction l generalizing n a with
  | nil =>
    cases n with
    | zero => exact absurd hn (Nat.not_lt_zero _)
    | succ n => exact congrArg (a :: ·) (if_pos (((List.isChain_cons_cons.mp h).1.next a rfl).trans hp.symm))
  | cons b l ih =>
    cases n with
    | zero => exact absurd hn (Nat.not_lt_zero _)
    | succ n =>
      obtain ⟨hab, h⟩ := List.isChain_cons_cons.mp h
      refine congrArg (a :: ·) ?_
      rw [hab.next a rfl, hp, if_neg (hf b List.mem_cons_self)]
      exact ih h (fun b hb => hf b (List.mem_cons_of_mem _ hb)) (Nat.lt_of_succ_lt_succ hn)

theorem round_of_ring {l : List ℕ} (h : IsRing q.nextFree q.prevFree q.freeList l) (hl : l.Nodup) (hn : l.length ≤ n) :
    q.round n q.freeList = l := by
  cases l with
  | nil => exact h.elim
  | cons a l =>
    obtain ⟨hp, h⟩ := h
    refine (congrArg (q.round n) hp).trans (round_eq hp h (fun b hb he => ?_) hn)
    exact (List.nodup_cons.mp hl).1 (Option.some.inj he ▸ hb)

/-- `find_buffer` ends, with the first buffer of the chain that matches. -/
theorem findBuffer_eq {p : Option ℕ} {l : List ℕ} (buf : ℕ → Buf) (h : IsLinked q.next p l) (hn : l.length < n) :
    q.findBuffer buf dev block n p = some (l.find? fun i => (buf i).dev = dev ∧ (buf i).blocknr = block) := by
  induction l generalizing n p with
  | nil =>
    cases h
    cases n with
    | zero => exact absurd hn (Nat.not_lt_zero _)
    | succ n => rfl
  | cons a l ih =>
    obtain ⟨rfl, h⟩ := h
    cases n with
    | zero => exact absurd hn (Nat.not_lt_zero _)
    | succ n =>
      rw [List.find?_cons]
      unfold Queues.findBuffer
      by_cases ha : (buf a).dev = dev ∧ (buf a).blocknr = block
      · rw [if_pos ha, decide_eq_true ha]
      · rw [if_neg ha, decide_eq_false ha]
        exact ih h (Nat.lt_of_succ_lt_succ hn)

/-! ## The buffers of the lists -/

/-- The free list is all buffers, and only buffers have a device. -/
structure Cache.Stocked (c : Cache) : Prop where
  free : c.free.Perm (List.range c.n)
  dev : ∀ i, (c.buf i).dev ≠ 0 → i < c.n

theorem Cache.Stocked.nodup (h : c.Stocked) : c.free.Nodup := h.free.nodup_iff.mpr List.nodup_range

theorem Cache.Stocked.mem (h : c.Stocked) : i ∈ c.free ↔ i < c.n := h.free.mem_iff.trans List.mem_range

theorem Cache.Stocked.length (h : c.Stocked) : c.free.length = c.n := h.free.length_eq.trans List.length_range

theorem Cache.Stocked.chain_length (h : c.Stocked) (hc : c.Hashed) (k : ℕ) : (c.hash k).length ≤ c.n := by
  have hsub : c.hash k ⊆ List.range c.n := fun i hi => List.mem_range.mpr (h.dev i (hc.mem.mp hi).1)
  exact ((hc.nodup k).subperm hsub).length_le.trans_eq List.length_range

theorem Cache.Stocked.sameBlocks (h : c.Stocked) (hs : SameBlocks c c') (hf : c'.free = c.free) (hn : c'.n = c.n) : c'.Stocked where
  free := by
    rw [hf, hn]
    exact h.free
  dev i hi := by
    rw [hs.dev] at hi
    exact hn ▸ h.dev i hi

theorem reassign_n (c : Cache) (i dev block : ℕ) : (c.reassign i dev block).n = c.n := by
  unfold Cache.reassign Cache.insertIntoQueues
  dsimp only
  split_ifs <;> rfl

theorem Cache.Stocked.reassign (h : c.Stocked) (hi : i < c.n) (dev block : ℕ) : (c.reassign i dev block).Stocked where
  free := by
    rw [reassign_free, reassign_n]
    have hmem : i ∈ c.free := h.mem.mpr hi
    exact ((List.perm_append_singleton i (c.free.erase i)).trans (List.perm_cons_erase hmem).symm).trans h.free
  dev j hj := by
    rw [reassign_n]
    by_cases hji : j = i
    · exact hji ▸ hi
    · rw [reassign_buf, Function.update_of_ne hji] at hj
      exact h.dev j hj

/-- The loops come through the lists that the pointers are tied to. -/
theorem Tied.lists {m : Heads} (h : Tied m.q c) (hs : c.Stocked) (hc : c.Hashed) (hn : m.n = c.n) (hb : m.buf = c.buf)
    (hr : m.req = c.req) (hd : m.disk = c.disk) (hv : m.driver = c.driver) : m.lists = c := by
  have hhash : (fun k => m.q.chain c.n (m.q.hash k)) = c.hash :=
    funext fun k => chain_eq (h.chains k).isLinked (hs.chain_length hc k)
  have hfree : m.q.round c.n m.q.freeList = c.free := round_of_ring h.ring hs.nodup hs.length.le
  unfold Heads.lists
  rw [hn, hb, hr, hd, hv, hhash, hfree]

/-! ## The order of the free list -/

/-- When a buffer was assigned last, counting the assignments from 1; 0 if it never was. -/
def lastAssigned : List ℕ → ℕ → ℕ
  | [], _ => 0
  | j :: l, i => if j = i then l.length + 1 else lastAssigned l i

theorem lastAssigned_le (l : List ℕ) (i : ℕ) : lastAssigned l i ≤ l.length := by
  induction l with
  | nil => exact le_rfl
  | cons j l ih =>
    unfold lastAssigned
    split_ifs
    · exact le_rfl
    · exact Nat.le_succ_of_le ih

/-- `i` was assigned before `j`, or neither was assigned. -/
def AssignedBefore (l : List ℕ) (i j : ℕ) : Prop :=
  lastAssigned l i < lastAssigned l j ∨ lastAssigned l i = 0 ∧ lastAssigned l j = 0

theorem assigned_order {free l : List ℕ} (h : free.Pairwise (AssignedBefore l)) (hn : free.Nodup) (i : ℕ) :
    (free.erase i ++ [i]).Pairwise (AssignedBefore (i :: l)) := by
  have hother : ∀ j ∈ free.erase i, lastAssigned (i :: l) j = lastAssigned l j := fun j hj =>
    if_neg fun hij => hn.not_mem_erase (hij ▸ hj)
  refine List.pairwise_append.mpr ⟨?_, List.pairwise_singleton _ _, fun j hj k hk => ?_⟩
  · refine (h.sublist List.erase_sublist).imp_of_mem fun hj hk hjk => ?_
    unfold AssignedBefore
    rw [hother _ hj, hother _ hk]
    exact hjk
  · obtain rfl := List.mem_singleton.mp hk
    refine Or.inl ?_
    rw [hother j hj]
    exact (Nat.lt_succ_of_le (lastAssigned_le l j)).trans_eq (if_pos rfl).symm

/-! ## One action -/

theorem withCache_lists (hn : c.n = m.n) (hh : c.hash = m.lists.hash) (hf : c.free = m.lists.free) (hd : c.driver = m.driver) :
    (m.withCache c).lists = c := by
  obtain ⟨n, buf, hash, free, req, disk, driver⟩ := c
  dsimp only at hn hh hf hd
  subst hn hh hf hd
  rfl

/-- The pointers stand for the lists, the chains hold the buffers with a device, the free list holds all
    of them, in the order of their assignment. -/
structure Heads.Sound (m : Heads) : Prop where
  tied : Tied m.q m.lists
  hashed : m.lists.Hashed
  stocked : m.lists.Stocked
  order : m.lists.free.Pairwise (AssignedBefore m.assigned)

/-- A change that leaves the buffers their blocks. -/
theorem Heads.Sound.withCache (h : m.Sound) (hs : SameBlocks m.lists c) (hn : c.n = m.n) (hf : c.free = m.lists.free)
    (hd : c.driver = m.driver) : (m.withCache c).Sound ∧ (m.withCache c).lists = c := by
  have hl := withCache_lists hn hs.hash hf hd
  refine ⟨⟨?_, ?_, ?_, ?_⟩, hl⟩
  · rw [hl]
    exact h.tied.sameBlocks hs hf
  · rw [hl]
    exact hs.hashed h.hashed
  · rw [hl]
    exact h.stocked.sameBlocks hs hf hn
  · rw [hl, hf]
    exact h.order

/-- The end of `getblk` is the same on the pointers and on the lists, and NULL is followed just when the
    buffer joins an empty chain. -/
theorem Heads.Sound.reassign (h : m.Sound) (hi : i < m.n) {dev block : ℕ} (hf : m.lists.findBuffer dev block = none) :
    ∃ m', m.reassign i dev block = some m' ∧ m'.Sound ∧ m'.lists = m.lists.reassign i dev block ∧ m'.n = m.n ∧
      m'.q.null = m.q.null + if dev = 0 then 0 else if (m.lists.hash (hashfn dev block)).erase i = [] then 1 else 0 := by
  have hmem : i ∈ m.lists.free := h.stocked.mem.mpr hi
  obtain ⟨q₁, hq₁, htied, hnull⟩ := h.tied.reassign h.hashed h.stocked.nodup hmem dev block
  have hhashed := h.hashed.reassign hf (i := i)
  have hstocked := h.stocked.reassign hi dev block
  have hrun : m.reassign i dev block = some { m with
      buf := (m.lists.reassign i dev block).buf
      q := q₁.insertIntoQueues i dev block
      assigned := i :: m.assigned } := by
    have hq₁ : m.q.removeFromQueues i (m.buf i).dev (m.buf i).blocknr = some q₁ := hq₁
    unfold Heads.reassign Heads.setBuf
    simp only [Function.update_self, hq₁, Option.map_some, Function.update_idem, reassign_buf]
    rfl
  have hkeep : (m.lists.reassign i dev block).req = m.req ∧ (m.lists.reassign i dev block).disk = m.disk ∧
      (m.lists.reassign i dev block).driver = m.driver := by
    unfold Cache.reassign Cache.insertIntoQueues
    dsimp only
    split_ifs <;> exact ⟨rfl, rfl, rfl⟩
  have hl := Tied.lists (m := { m with
    buf := (m.lists.reassign i dev block).buf
    q := q₁.insertIntoQueues i dev block
    assigned := i :: m.assigned }) htied hstocked hhashed
    (reassign_n m.lists i dev block).symm rfl hkeep.1.symm hkeep.2.1.symm hkeep.2.2.symm
  refine ⟨_, hrun, ⟨?_, ?_, ?_, ?_⟩, hl, rfl, hnull⟩
  · rw [hl]
    exact htied
  · rw [hl]
    exact hhashed
  · rw [hl]
    exact hstocked
  · rw [hl, reassign_free]
    exact assigned_order h.order h.stocked.nodup i

/-- An action is the same on the pointers and on the lists. -/
theorem Heads.Sound.act (h : m.Sound) {x : Action}
    (hx : ∀ i dev block, x = .reassign i dev block → i < m.n ∧ m.lists.findBuffer dev block = none) :
    ∃ m', m.act x = some m' ∧ m'.Sound ∧ m'.lists = m.lists.act x ∧ m'.n = m.n := by
  have hother : (∀ i dev block, x ≠ .reassign i dev block) →
      (m.withCache (m.lists.act x)).Sound ∧ (m.withCache (m.lists.act x)).lists = m.lists.act x := fun hne => by
    have hs := act_sameBlocks m.lists x hne
    cases x with
    | reassign i dev block => exact absurd rfl (hne i dev block)
    | _ => exact h.withCache hs rfl rfl rfl
  cases x with
  | reassign i dev block =>
    obtain ⟨hi, hf⟩ := hx i dev block rfl
    obtain ⟨m', hm', hs, hl, hn, -⟩ := h.reassign hi hf
    exact ⟨m', hm', hs, hl, hn⟩
  | _ => exact ⟨_, rfl, (hother nofun).1, (hother nofun).2, rfl⟩

/-! ## The buffers that are waited for -/

/-- The buffer that `getblk` has chosen and waits for. -/
def Frame.chosen : Frame → Option ℕ
  | .getblkWait _ _ i => some i
  | _ => none

/-- The buffers that `getblk` has chosen are in the free list. -/
def Chosen (c : Cache) (st : List Frame) : Prop := ∀ f ∈ st, ∀ i ∈ f.chosen, i ∈ c.free

variable {st st' : List Frame} {a : Act} {x : Action}

theorem chosen_cons {f : Frame} : Chosen c (f :: st) ↔ (∀ i ∈ f.chosen, i ∈ c.free) ∧ Chosen c st := List.forall_mem_cons

theorem Chosen.callGetblk (h : Chosen c st) : Chosen c (callGetblk dev block st) :=
  chosen_cons.mpr ⟨nofun, chosen_cons.mpr ⟨nofun, h⟩⟩

theorem pick_mem {l : List ℕ} {b : Option ℕ} (h : c.pick b l = some i) : i ∈ l ∨ b = some i := by
  induction l generalizing b with
  | nil => exact Or.inr h
  | cons t l ih =>
    unfold Cache.pick at h
    split_ifs at h
    · exact (ih h).imp_left (List.mem_cons_of_mem _)
    · exact Or.inl (Option.some.inj h ▸ List.mem_cons_self)
    · obtain hm | ht := ih h
      · exact Or.inl (List.mem_cons_of_mem _ hm)
      · exact Or.inl (Option.some.inj ht ▸ List.mem_cons_self)
    · exact (ih h).imp_left (List.mem_cons_of_mem _)

theorem workStep_chosen {held : List Ref} (hs : Chosen c st) (h : workStep c held st a = some (x, st')) : Chosen c st' := by
  have hwork : ∀ held, Chosen c (.work held :: st) := fun _ => chosen_cons.mpr ⟨nofun, hs⟩
  unfold workStep at h
  cases a with
  | go | found | full | pageFault => cases h
  | getblk dev block =>
    dsimp only at h
    split_ifs at h
    cases h
    exact (hwork _).callGetblk
  | bread dev block =>
    dsimp only at h
    split_ifs at h
    cases h
    exact (chosen_cons.mpr ⟨nofun, hwork _⟩ : Chosen c (.bread :: _)).callGetblk
  | breada dev first rest =>
    dsimp only at h
    split_ifs at h
    cases h
    exact (chosen_cons.mpr ⟨nofun, hwork _⟩ : Chosen c (.breada rest :: _)).callGetblk
  | brelse r =>
    dsimp only at h
    split_ifs at h
    cases h
    exact chosen_cons.mpr ⟨nofun, hwork _⟩
  | fileWrite =>
    dsimp only at h
    split_ifs at h
    cases h
    exact chosen_cons.mpr ⟨nofun, hwork _⟩
  | modify =>
    dsimp only at h
    split_ifs at h
    cases h
    exact hwork _
  | done =>
    dsimp only at h
    split_ifs at h
    cases h
    exact hs
  | getHashTable | syncDev => cases h; exact chosen_cons.mpr ⟨nofun, hwork _⟩
  | sysSync => cases h; exact chosen_cons.mpr ⟨nofun, chosen_cons.mpr ⟨nofun, hwork _⟩⟩

theorem deliver_chosen {v : Option Ref} {f : Frame} (hs : Chosen c st) (h : deliver c v f st = some (x, st')) : Chosen c st' := by
  have htop : ∀ f : Frame, f.chosen = none → Chosen c (f :: st) := fun f hf => chosen_cons.mpr ⟨hf ▸ nofun, hs⟩
  cases f with
  | work held => cases h; exact htop _ rfl
  | getblk dev block =>
    cases v with
    | some r => cases h; exact htop _ rfl
    | none =>
      dsimp only [deliver] at h
      split at h
      · cases h; exact htop _ rfl
      · rename_i i hp
        cases h
        refine chosen_cons.mpr ⟨fun j hj => ?_, hs⟩
        obtain rfl : i = j := Option.some.inj hj
        exact (pick_mem hp).resolve_right nofun
  | bread | breada =>
    cases v with
    | none => cases h
    | some r =>
      dsimp only [deliver] at h
      split_ifs at h
      · cases h; exact htop _ rfl
      · cases h; exact chosen_cons.mpr ⟨nofun, htop _ rfl⟩
  | breadaGot r rest =>
    cases v with
    | none => cases h; exact htop _ rfl
    | some tmp =>
      dsimp only [deliver] at h
      split_ifs at h
      · cases h; exact htop _ rfl
      · cases h; exact chosen_cons.mpr ⟨nofun, htop _ rfl⟩
  | fileRead dev pos buf =>
    cases v with
    | none => cases h; exact hs
    | some r => cases h; exact htop _ rfl
  | _ => cases v <;> cases h

theorem goStep_chosen {f : Frame} (hs : Chosen c (f :: st)) (h : goStep c st f = some (x, st')) : Chosen c st' := by
  obtain ⟨hf, hst⟩ := chosen_cons.mp hs
  have htop : ∀ f : Frame, f.chosen = none → Chosen c (f :: st) := fun f hf => chosen_cons.mpr ⟨hf ▸ nofun, hst⟩
  cases f with
  | ret v =>
    cases st with
    | nil => cases h
    | cons f st => exact deliver_chosen (chosen_cons.mp hst).2 h
  | getHash dev block =>
    dsimp only [goStep] at h
    split at h <;> (cases h; exact htop _ rfl)
  | getHashWait r =>
    dsimp only [goStep] at h
    split_ifs at h <;> (cases h; exact htop _ rfl)
  | getblkWait dev block i =>
    dsimp only [goStep, getblkStep] at h
    split_ifs at h
    · cases h; exact hst.callGetblk
    · cases h; exact chosen_cons.mpr ⟨nofun, hs⟩
    · cases h; exact hst.callGetblk
    · cases h; exact chosen_cons.mpr ⟨nofun, htop _ rfl⟩
  | llRw rw i =>
    dsimp only [goStep, llRwStep] at h
    split_ifs at h
    · cases h; exact hst
    · cases h; exact hst
    · cases h; exact htop _ rfl
  | lockBuffer write ahead i =>
    dsimp only [goStep, lockStep] at h
    split_ifs at h
    · cases h; exact hst
    · cases h; exact htop _ rfl
  | request write ahead i =>
    dsimp only [goStep] at h
    split at h
    · cases h; exact hst
    · split_ifs at h
      cases h; exact hst
  | breadaNext r rest =>
    cases rest with
    | nil => cases h; exact htop _ rfl
    | cons b rest => cases h; exact (htop (.breadaGot r rest) rfl).callGetblk
  | breadaDrop r tmp rest => cases h; exact htop _ rfl
  | brelse r =>
    dsimp only [goStep] at h
    split_ifs at h
    cases h; exact hst
  | fileCopy r off chunk dev pos buf =>
    cases chunk with
    | nil => cases h; exact chosen_cons.mpr ⟨nofun, htop _ rfl⟩
    | cons v vs => cases h; exact htop _ rfl
  | work | getblk | bread | breada | breadaGot | fileCreate | fileRead => cases h
  | getblkSleep dev block => cases h; exact hst.callGetblk
  | breadWait =>
    dsimp only [goStep] at h
    split_ifs at h
    · cases h; exact htop _ rfl
    · cases h; exact chosen_cons.mpr ⟨nofun, htop _ rfl⟩
  | syncDev | sysSync | fileWrite | syncDevWait | sysSyncWait =>
    dsimp only [goStep] at h
    split_ifs at h <;> cases h
    all_goals first
      | exact hst
      | exact htop _ rfl
      | exact chosen_cons.mpr ⟨nofun, htop _ rfl⟩

theorem exec_chosen (hs : Chosen c st) (h : exec c st a = some (x, st')) : Chosen c st' := by
  rcases exec_cases h with ⟨held, st1, rfl, hw⟩ | ⟨f, st1, rfl, hg⟩ |
    ⟨dev, pos, buf, st1, rfl, rfl, rfl | ⟨block, rfl⟩⟩ | ⟨r, off, chunk, dev, pos, buf, st1, rfl, rfl, rfl⟩
  · exact workStep_chosen (chosen_cons.mp hs).2 hw
  · exact goStep_chosen hs hg
  · exact (chosen_cons.mp hs).2
  · have hst : Chosen c (.fileRead dev pos buf :: st1) := chosen_cons.mpr ⟨nofun, (chosen_cons.mp hs).2⟩
    exact (chosen_cons.mpr ⟨nofun, hst⟩ : Chosen c (.bread :: _)).callGetblk
  · exact chosen_cons.mpr ⟨nofun, hs⟩

/-- The buffer assigned is the one chosen. -/
theorem exec_reassign (h : exec c st a = some (.reassign i dev block, st')) : ∃ st1, st = .getblkWait dev block i :: st1 := by
  rcases exec_cases h with ⟨held, st1, -, hw⟩ | ⟨f, st1, rfl, hg⟩ | ⟨dev, pos, buf, st1, -, hx, -⟩ |
    ⟨r, off, chunk, dev, pos, buf, st1, -, hx, -⟩
  · obtain h | ⟨i, d, f, h⟩ := workStep_action hw <;> cases h
  · cases f with
    | getblkWait dev block i =>
      dsimp only [goStep, getblkStep] at hg
      split_ifs at hg <;> cases hg
      exact ⟨st1, rfl⟩
    | ret v =>
      cases st1 with
      | nil => cases hg
      | cons f st => obtain h | ⟨i, h⟩ := deliver_action hg <;> cases h
    | getHash | request =>
      dsimp only [goStep] at hg
      split at hg
      · cases hg
      · first | cases hg | (split_ifs at hg; cases hg)
    | breadaNext r rest => cases rest <;> cases hg
    | fileCopy r off chunk => cases chunk <;> cases hg
    | work | getblk | bread | breada | breadaGot | fileCreate | fileRead | getblkSleep | breadaDrop => cases hg
    | llRw | lockBuffer =>
      dsimp only [goStep, llRwStep, lockStep] at hg
      split_ifs at hg <;> cases hg
    | _ =>
      dsimp only [goStep] at hg
      split_ifs at hg <;> cases hg
  · cases hx
  · cases hx

/-! ## The runs -/

variable {ι : Type} [DecidableEq ι] {σ σ' : HeadSys ι} {τ : Sys ι} {e : Event ι}

/-- The system on the lists. -/
def HeadSys.toSys (σ : HeadSys ι) : Sys ι := ⟨σ.m.lists, σ.stack, σ.cur⟩

structure HeadSys.Sound (σ : HeadSys ι) : Prop where
  heads : σ.m.Sound
  chosen : ∀ p, Chosen σ.m.lists (σ.stack p)

theorem Chosen.same (h : Chosen c st) (hc : c.Stocked) (hc' : c'.Stocked) (hn : c'.n = c.n) : Chosen c' st := fun f hf i hi =>
  hc'.mem.mpr (hn ▸ hc.mem.mp (h f hf i hi))

omit [DecidableEq ι] in
/-- A buffer is assigned only if it is one, and the block is not in the cache. -/
theorem HeadSys.Sound.assigns (h : σ.Sound) (hx : exec σ.m.lists (σ.stack σ.cur) a = some (x, st)) :
    ∀ i dev block, x = .reassign i dev block → i < σ.m.n ∧ σ.m.lists.findBuffer dev block = none := by
  rintro i dev block rfl
  obtain ⟨st1, hst⟩ := exec_reassign hx
  exact ⟨h.heads.stocked.mem.mp (h.chosen σ.cur _ (hst ▸ List.mem_cons_self) i rfl), (exec_accounts hx).2.2.2.1⟩

theorem sector_rest {k : ℕ} (h : c.sector k = some c') : c'.n = c.n ∧ c'.free = c.free ∧ c'.driver = c.driver := by
  unfold Cache.sector at h
  split at h
  · cases h
  · split_ifs at h
    cases h
    unfold Cache.moveSector
    dsimp only
    split_ifs <;> exact ⟨rfl, rfl, rfl⟩

theorem endRequest_rest {k : ℕ} {uptodate : Bool} (h : c.endRequest k uptodate = some c') :
    c'.n = c.n ∧ c'.free = c.free ∧ c'.driver = c.driver := by
  unfold Cache.endRequest at h
  split at h
  · cases h
  · split_ifs at h
    cases h
    exact ⟨rfl, rfl, rfl⟩

theorem Heads.Sound.sector {k : ℕ} (h : m.Sound) (hc : m.lists.sector k = some c) :
    (m.withCache c).Sound ∧ (m.withCache c).lists = c :=
  h.withCache (sector_keeps hc).1 (sector_rest hc).1 (sector_rest hc).2.1 (sector_rest hc).2.2

theorem Heads.Sound.endRequest {k : ℕ} {uptodate : Bool} (h : m.Sound) (hc : m.lists.endRequest k uptodate = some c) :
    (m.withCache c).Sound ∧ (m.withCache c).lists = c :=
  h.withCache (endRequest_keeps hc).1 (endRequest_rest hc).1 (endRequest_rest hc).2.1 (endRequest_rest hc).2.2

/-- Every step on the lists is one on the pointers: the panic does not happen. -/
theorem HeadSys.Sound.lift (h : σ.Sound) (hs : Sys.Step σ.toSys e τ) : ∃ σ', HeadSys.Step σ e σ' ∧ σ'.toSys = τ := by
  cases hs with
  | run hx =>
    obtain ⟨m', hm', -, hl, -⟩ := h.heads.act (h.assigns hx)
    refine ⟨_, .run hx hm', ?_⟩
    unfold toSys
    rw [hl]
  | switch hf hsl => exact ⟨_, .switch hf hsl, rfl⟩
  | sector hc =>
    refine ⟨_, .sector hc, ?_⟩
    unfold toSys
    rw [(h.heads.sector hc).2]
  | endRequest hc =>
    refine ⟨_, .endRequest hc, ?_⟩
    unfold toSys
    rw [(h.heads.endRequest hc).2]

/-- And every step on the pointers is one on the lists. -/
theorem HeadSys.Sound.step (h : σ.Sound) (hs : HeadSys.Step σ e σ') :
    σ'.Sound ∧ Sys.Step σ.toSys e σ'.toSys ∧ σ'.m.n = σ.m.n := by
  have hstill : ∀ c, (σ.m.withCache c).Sound ∧ (σ.m.withCache c).lists = c → HeadSys.Sound { σ with m := σ.m.withCache c } :=
    fun c hc => ⟨hc.1, fun p => (h.chosen p).same h.heads.stocked hc.1.stocked rfl⟩
  cases hs with
  | @run a x st m' hx hact =>
    obtain ⟨m'', hm'', hs, hl, hn⟩ := h.heads.act (h.assigns hx)
    obtain rfl : m' = m'' := Option.some.inj (hact.symm.trans hm'')
    refine ⟨⟨hs, fun p => ?_⟩, ?_⟩
    · dsimp only
      by_cases hp : p = σ.cur
      · rw [hp, Function.update_self]
        exact (exec_chosen (h.chosen _) hx).same h.heads.stocked hs.stocked hn
      · rw [Function.update_of_ne hp]
        exact (h.chosen p).same h.heads.stocked hs.stocked hn
    · unfold toSys
      rw [hl]
      exact ⟨.run hx, hn⟩
  | switch hf hsl => exact ⟨⟨h.heads, h.chosen⟩, .switch hf hsl, rfl⟩
  | sector hc =>
    refine ⟨hstill _ (h.heads.sector hc), ?_⟩
    unfold toSys
    rw [(h.heads.sector hc).2]
    exact ⟨.sector hc, rfl⟩
  | endRequest hc =>
    refine ⟨hstill _ (h.heads.endRequest hc), ?_⟩
    unfold toSys
    rw [(h.heads.endRequest hc).2]
    exact ⟨.endRequest hc, rfl⟩

/-! ## The start -/

/-- The pointers of head `k` are as the loop of `buffer_init` leaves them. -/
structure Queues.Fresh (q : Queues) (k : ℕ) : Prop where
  next : q.next k = none
  prev : q.prev k = none
  prevFree : q.prevFree k = some (k - 1)
  nextFree : q.nextFree k = some (k + 1)

theorem initHead_fresh {h k : ℕ} (hq : k < h → q.Fresh k) (hk : k < h + 1) : (q.initHead h).Fresh k := by
  unfold Queues.initHead
  by_cases hkh : k = h
  · subst hkh
    constructor <;> exact Function.update_self ..
  · obtain ⟨h1, h2, h3, h4⟩ := hq (by omega)
    constructor <;> dsimp only <;> rw [Function.update_of_ne hkh] <;> assumption

theorem initLoop_fresh {startBuffer b h : ℕ} (hq : ∀ k < h, q.Fresh k) :
    h ≤ (q.initLoop startBuffer n b h).1 ∧ ∀ k < (q.initLoop startBuffer n b h).1, (q.initLoop startBuffer n b h).2.Fresh k := by
  induction n generalizing b h q with
  | zero => exact ⟨le_rfl, hq⟩
  | succ n ih =>
    unfold Queues.initLoop
    dsimp only
    split_ifs
    · obtain ⟨hle, hf⟩ := ih (b := 0xA0000) fun k hk => initHead_fresh (hq k) hk
      exact ⟨Nat.le_of_succ_le hle, hf⟩
    · obtain ⟨hle, hf⟩ := ih (b := b - 1024) fun k hk => initHead_fresh (hq k) hk
      exact ⟨Nat.le_of_succ_le hle, hf⟩
    · exact ⟨le_rfl, hq⟩

/-- `buffer_init` has room for a buffer: `start_buffer` is below the blocks of at least 1M, less the
    screen, that `main` gives. -/
def Heads.Room (startBuffer bufferEnd : ℕ) : Prop := startBuffer + Queues.headSize + 1024 ≤ Heads.blocksEnd bufferEnd

instance (startBuffer bufferEnd : ℕ) : Decidable (Heads.Room startBuffer bufferEnd) := inferInstanceAs (Decidable (_ ≤ _))

theorem initLoop_pos {startBuffer bufferEnd : ℕ} (h : Heads.Room startBuffer bufferEnd) :
    0 < (q.initLoop startBuffer bufferEnd (Heads.blocksEnd bufferEnd) 0).1 := by
  unfold Heads.Room at h
  cases bufferEnd with
  | zero =>
    have : Heads.blocksEnd 0 = 0 := rfl
    omega
  | succ n =>
    unfold Queues.initLoop
    dsimp only
    rw [if_pos (by omega)]
    exact (initLoop_fresh fun k hk => initHead_fresh (fun hk => absurd hk (Nat.not_lt_zero k)) hk).1

/-- Heads in a row, and the last one leads back to the first. -/
theorem isChain_row {s k : ℕ} (hlink : ∀ j, s ≤ j → j < s + k → Link q.nextFree q.prevFree (some j) (some (j + 1)))
    (hback : Link q.nextFree q.prevFree (some (s + k)) (some 0)) :
    (some s :: ((List.range' (s + 1) k).map some ++ [some 0])).IsChain (Link q.nextFree q.prevFree) := by
  induction k generalizing s with
  | zero => exact List.isChain_pair.mpr hback
  | succ k ih =>
    refine List.isChain_cons_cons.mpr ⟨hlink s le_rfl (by omega), ih (fun j h1 h2 => hlink j (by omega) (by omega)) ?_⟩
    rwa [show s + 1 + k = s + (k + 1) by omega]

theorem isRing_range (h : ∀ k < n, q.Fresh k) (hn : 0 < n) :
    IsRing (Function.update q.nextFree (n - 1) (some 0)) (Function.update q.prevFree 0 (some (n - 1))) (some 0) (List.range n) := by
  obtain ⟨k, rfl⟩ : ∃ k, n = k + 1 := ⟨n - 1, by omega⟩
  rw [List.range_eq_range', List.range'_succ, Nat.add_sub_cancel]
  have hnext : ∀ j ≠ k, Function.update q.nextFree k (some 0) j = q.nextFree j := fun j hj => Function.update_of_ne hj ..
  have hprev : ∀ j ≠ 0, Function.update q.prevFree 0 (some k) j = q.prevFree j := fun j hj => Function.update_of_ne hj ..
  have hlast : Function.update q.nextFree k (some 0) k = some 0 := Function.update_self ..
  have hfirst : Function.update q.prevFree 0 (some k) 0 = some k := Function.update_self ..
  refine ⟨rfl, isChain_row (q := { q with
      nextFree := Function.update q.nextFree k (some 0)
      prevFree := Function.update q.prevFree 0 (some k) }) (fun j _ hj => ⟨fun a ha => ?_, fun a ha => ?_⟩) ⟨fun a ha => ?_, fun a ha => ?_⟩⟩
  · cases ha
    exact (hnext j (by omega)).trans (h j (by omega)).nextFree
  · cases ha
    exact (hprev (j + 1) (Nat.succ_ne_zero j)).trans (h (j + 1) (by omega)).prevFree
  · cases ha
    rw [Nat.zero_add]
    exact hlast
  · cases ha
    rw [Nat.zero_add]
    exact hfirst

theorem bufferInit_sound {startBuffer bufferEnd : ℕ} (hroom : Heads.Room startBuffer bufferEnd) (memory : ℕ → Buf) (q : Queues)
    (disk : ℕ → ℕ → ℕ → ℕ) (driver : ℕ → Bool) :
    (Heads.bufferInit startBuffer bufferEnd memory q disk driver).Sound ∧
      (Heads.bufferInit startBuffer bufferEnd memory q disk driver).lists =
        bufferInit (Heads.bufferInit startBuffer bufferEnd memory q disk driver).n memory disk driver := by
  have hpos := initLoop_pos (q := q) hroom
  have hfresh : ∀ k < (q.initLoop startBuffer bufferEnd (Heads.blocksEnd bufferEnd) 0).1,
      (q.initLoop startBuffer bufferEnd (Heads.blocksEnd bufferEnd) 0).2.Fresh k :=
    (initLoop_fresh fun k hk => absurd hk (Nat.not_lt_zero k)).2
  unfold Heads.bufferInit
  generalize q.initLoop startBuffer bufferEnd (Heads.blocksEnd bufferEnd) 0 = r at hpos hfresh
  obtain ⟨n, q⟩ := r
  dsimp only at hpos hfresh ⊢
  have hstocked : (bufferInit n memory disk driver).Stocked := ⟨List.Perm.refl _, fun i hi => absurd rfl hi⟩
  have hhashed : (bufferInit n memory disk driver).Hashed :=
    ⟨fun {h i} => ⟨fun hm => (nomatch hm), fun hm => absurd rfl hm.1⟩, fun _ => List.nodup_nil, fun i j hi => absurd rfl hi⟩
  have htied : Tied { q with
      freeList := some 0
      prevFree := Function.update q.prevFree 0 (some (n - 1))
      nextFree := Function.update q.nextFree (n - 1) (some 0)
      hash := fun _ => none
      null := 0 } (bufferInit n memory disk driver) := by
    refine ⟨isRing_range hfresh hpos, fun k => ⟨rfl, List.isChain_pair.mpr ⟨nofun, nofun⟩⟩, fun i hi _ => ?_⟩
    have hin : i < n := List.mem_range.mp hi
    exact ⟨(hfresh i hin).next, (hfresh i hin).prev⟩
  have hl := Tied.lists (m := ⟨n, fun i => { memory i with dev := 0, dirt := false, count := 0, lock := false, uptodate := false },
    { q with
      freeList := some 0
      prevFree := Function.update q.prevFree 0 (some (n - 1))
      nextFree := Function.update q.nextFree (n - 1) (some 0)
      hash := fun _ => none
      null := 0 }, [], disk, driver, []⟩) htied hstocked hhashed rfl rfl rfl rfl rfl
  refine ⟨⟨?_, ?_, ?_, ?_⟩, hl⟩
  · rw [hl]
    exact htied
  · rw [hl]
    exact hhashed
  · rw [hl]
    exact hstocked
  · exact List.pairwise_of_forall fun _ _ => Or.inr ⟨rfl, rfl⟩

/-! ## Every run -/

variable {startBuffer bufferEnd : ℕ}

/-- The processes on the pointers do what they do on the lists. -/
theorem headSystem_refines (hroom : Heads.Room startBuffer bufferEnd) (h : (headSystem ι startBuffer bufferEnd).Reachable σ) :
    σ.Sound ∧ (procSystem ι σ.m.n).Reachable σ.toSys := by
  induction h with
  | @init σ hi =>
    obtain ⟨⟨memory, q, disk, driver, hm⟩, hst⟩ := hi
    obtain ⟨hs, hl⟩ := bufferInit_sound hroom memory q disk driver
    refine ⟨⟨hm ▸ hs, fun p => ?_⟩, .init ⟨⟨memory, disk, driver, ?_⟩, hst⟩⟩
    · rw [hst]
      exact chosen_cons.mpr ⟨nofun, nofun⟩
    · rw [hm]
      exact (congrArg Heads.lists hm).trans hl
  | step _ hs ih =>
    obtain ⟨hsound, hstep, hn⟩ := ih.1.step hs
    rw [hn]
    exact ⟨hsound, ih.2.step hstep⟩

/-- The buffer lists: the free list is a ring of all buffers, in the order in which they were assigned
    last; the chains end, `b_prev` leads back, and they hold the buffers with a device, each once and
    on the chain of its block; and `find_buffer` ends and finds just the blocks that are cached. -/
theorem buffer_lists (hroom : Heads.Room startBuffer bufferEnd) (h : (headSystem ι startBuffer bufferEnd).Reachable σ) :
    ∃ (free : List ℕ) (chain : ℕ → List ℕ),
      (IsRing σ.m.q.nextFree σ.m.q.prevFree σ.m.q.freeList free ∧ free.Perm (List.range σ.m.n) ∧
        free.Pairwise (AssignedBefore σ.m.assigned)) ∧
      (∀ k, IsDoubly σ.m.q.next σ.m.q.prev (σ.m.q.hash k) (chain k) ∧ (chain k).Nodup ∧
        ∀ i, i ∈ chain k ↔ i < σ.m.n ∧ (σ.m.buf i).dev ≠ 0 ∧ hashfn (σ.m.buf i).dev (σ.m.buf i).blocknr = k) ∧
      ∀ dev block, dev ≠ 0 → ∃ r, σ.m.q.findBuffer σ.m.buf dev block (σ.m.n + 1) (σ.m.q.hash (hashfn dev block)) = some r ∧
        (∀ i, r = some i → i < σ.m.n ∧ (σ.m.buf i).dev = dev ∧ (σ.m.buf i).blocknr = block) ∧
        (r = none → ∀ i < σ.m.n, ¬ ((σ.m.buf i).dev = dev ∧ (σ.m.buf i).blocknr = block)) := by
  have hs := (headSystem_refines hroom h).1.heads
  refine ⟨σ.m.lists.free, σ.m.lists.hash, ⟨hs.tied.ring, hs.stocked.free, hs.order⟩,
    fun k => ⟨hs.tied.chains k, hs.hashed.nodup k, fun i => ?_⟩, fun dev block hd => ?_⟩
  · exact hs.hashed.mem.trans ⟨fun hi => ⟨hs.stocked.dev i hi.1, hi⟩, And.right⟩
  · refine ⟨_, findBuffer_eq σ.m.buf (hs.tied.chains _).isLinked (Nat.lt_succ_of_le (hs.stocked.chain_length hs.hashed _)),
      fun i hi => ?_, fun hnone i _ => hs.hashed.findBuffer_none hd hnone i⟩
    obtain ⟨h1, h2⟩ := findBuffer_some (c := σ.m.lists) hi
    exact ⟨hs.stocked.dev i (h1.trans_ne hd), h1, h2⟩

/-- The buffer that is assigned joins a chain with another buffer on it, or gets no device. -/
def HeadSys.Joins (σ : HeadSys ι) : Event ι → Prop
  | .run a => ∀ i dev block st, exec σ.m.lists (σ.stack σ.cur) a = some (.reassign i dev block, st) →
      dev = 0 ∨ ∃ j, j ≠ i ∧ (σ.m.buf j).dev ≠ 0 ∧ hashfn (σ.m.buf j).dev (σ.m.buf j).blocknr = hashfn dev block
  | _ => True

/-- A step follows NULL unless the buffer assigned in it joins another one. -/
theorem HeadSys.Sound.null (h : σ.Sound) (hs : HeadSys.Step σ e σ') : σ'.m.q.null = σ.m.q.null ↔ σ.Joins e := by
  cases hs with
  | @run a x st m' hx hact =>
    cases x with
    | reassign i dev block =>
      obtain ⟨hi, hf⟩ := h.assigns hx i dev block rfl
      obtain ⟨m'', hm'', -, -, -, hnull⟩ := h.heads.reassign hi hf
      obtain rfl : m' = m'' := Option.some.inj (hact.symm.trans hm'')
      have hchain : (σ.m.lists.hash (hashfn dev block)).erase i ≠ [] ↔
          ∃ j, j ≠ i ∧ (σ.m.buf j).dev ≠ 0 ∧ hashfn (σ.m.buf j).dev (σ.m.buf j).blocknr = hashfn dev block := by
        refine ⟨fun hne => ?_, fun ⟨j, hj, hjc⟩ => ?_⟩
        · obtain ⟨j, hj⟩ := List.exists_mem_of_ne_nil _ hne
          obtain ⟨hji, hj⟩ := (h.heads.hashed.nodup _).mem_erase_iff.mp hj
          exact ⟨j, hji, h.heads.hashed.mem.mp hj⟩
        · exact List.ne_nil_of_mem ((h.heads.hashed.nodup _).mem_erase_iff.mpr ⟨hj, h.heads.hashed.mem.mpr hjc⟩)
      have hiff : σ.Joins (.run a) ↔ dev = 0 ∨ (σ.m.lists.hash (hashfn dev block)).erase i ≠ [] := by
        rw [hchain]
        refine ⟨fun hj => hj i dev block st hx, fun hj i' dev' block' st' hx' => ?_⟩
        cases hx.symm.trans hx'
        exact hj
      rw [hiff]
      dsimp only
      rw [hnull]
      split_ifs with h0 he
      · simp [h0]
      · simp [h0, he]
      · simp [he]
    | _ =>
      cases hact
      refine ⟨fun _ i dev block st' hx' => (nomatch hx.symm.trans hx'), fun _ => rfl⟩
  | switch => exact ⟨fun _ => trivial, fun _ => rfl⟩
  | sector => exact ⟨fun _ => trivial, fun _ => rfl⟩
  | endRequest => exact ⟨fun _ => trivial, fun _ => rfl⟩

/-- `remove_from_queues` and `insert_into_queues` follow NULL just in the steps that put a buffer on an
    empty chain; while no step does, from any state on, NULL is not followed. -/
theorem null_followed (hroom : Heads.Room startBuffer bufferEnd) :
    (∀ σ e σ', (headSystem ι startBuffer bufferEnd).Reachable σ → HeadSys.Step σ e σ' →
      (σ'.m.q.null = σ.m.q.null ↔ σ.Joins e)) ∧
    ∀ σ₀ σ, (headSystem ι startBuffer bufferEnd).Reachable σ₀ →
      (({ headSystem ι startBuffer bufferEnd with init := fun τ => τ = σ₀ }).restrict HeadSys.Joins).Reachable σ →
      σ.m.q.null = σ₀.m.q.null := by
  refine ⟨fun σ e σ' h hs => (headSystem_refines hroom h).1.null hs, fun σ₀ σ h₀ h => ?_⟩
  suffices h : (headSystem ι startBuffer bufferEnd).Reachable σ ∧ σ.m.q.null = σ₀.m.q.null from h.2
  induction h with
  | init hi =>
    cases hi
    exact ⟨h₀, rfl⟩
  | step _ hs ih => exact ⟨ih.1.step hs.2, (((headSystem_refines hroom ih.1).1.null hs.2).mpr hs.1).trans ih.2⟩

/-! ## The first block -/

/-- The running process goes on. -/
def HeadSys.runAct (σ : HeadSys ι) (a : Act) : Option (HeadSys ι) :=
  (exec σ.m.lists (σ.stack σ.cur) a).bind fun (x, st) =>
    (σ.m.act x).map fun m => { σ with m := m, stack := Function.update σ.stack σ.cur st }

theorem runAct_step (h : σ.runAct a = some σ') : HeadSys.Step σ (.run a) σ' := by
  obtain ⟨⟨x, st⟩, hx, h⟩ := Option.bind_eq_some_iff.mp h
  obtain ⟨m, hm, rfl⟩ := Option.map_eq_some_iff.mp h
  exact .run hx hm

def emptyBuf : Buf := ⟨0, 0, false, false, 0, false, fun _ => 0⟩

/-- One process, 1M for the buffers, of which the kernel leaves room for some. -/
def started (startBuffer : ℕ) : HeadSys Unit where
  m := Heads.bufferInit startBuffer 0x100000 (fun _ => emptyBuf) ⟨fun _ => none, fun _ => none, fun _ => none, fun _ => none, fun _ => none, none, 0⟩
    (fun _ _ _ => 0) (fun _ => true)
  stack _ := [.work []]
  cur := ()

/-- `getblk(0x301,1)`, up to its end. -/
def firstBlock : List Act := [.getblk 0x301 1, .go, .go]

theorem started_reachable : (headSystem Unit 0x8F000 0x100000).Reachable (started 0x8F000) := .init ⟨⟨_, _, _, _, rfl⟩, fun _ => rfl⟩

theorem runActs_reachable {τ : HeadSys ι} {l : List Act} (h : (headSystem ι startBuffer bufferEnd).Reachable σ)
    (hl : l.foldlM HeadSys.runAct σ = some τ) : (headSystem ι startBuffer bufferEnd).Reachable τ :=
  h.foldlM (fun _ _ _ hs => ⟨_, runAct_step hs⟩) l hl

theorem firstBlock_assigned : ∃ σ e σ', (headSystem Unit 0x8F000 0x100000).Reachable σ ∧ HeadSys.Step σ e σ' ∧
    (σ.m.q.null = 0 ∧ σ'.m.q.null = 1) ∧ σ'.m.assigned = [0] := by
  have hrun : ((firstBlock.foldlM HeadSys.runAct (started 0x8F000)).bind fun σ : HeadSys Unit =>
      (σ.runAct Act.go).map fun σ' => (σ.m.q.null, σ'.m.q.null, σ'.m.assigned)) = some (0, 1, [0]) := by rfl
  obtain ⟨σ, hσ, h⟩ := Option.bind_eq_some_iff.mp hrun
  obtain ⟨σ', hσ', heq⟩ := Option.map_eq_some_iff.mp h
  simp only [Prod.mk.injEq] at heq
  exact ⟨σ, _, σ', runActs_reachable started_reachable hσ, runAct_step hσ', ⟨heq.1, heq.2.1⟩, heq.2.2⟩

/-- After the first block. -/
theorem buffer_lists_first : ∃ σ, (headSystem Unit 0x8F000 0x100000).Reachable σ ∧ σ.m.assigned = [0] ∧
    ∃ (free : List ℕ), IsRing σ.m.q.nextFree σ.m.q.prevFree σ.m.q.freeList free ∧ free.Perm (List.range σ.m.n) ∧
      free.Pairwise (AssignedBefore [0]) := by
  obtain ⟨σ, e, σ', hr, hs, -, hassigned⟩ := firstBlock_assigned
  obtain ⟨free, -, ⟨hring, hperm, horder⟩, -⟩ := buffer_lists (by decide) (hr.step hs)
  exact ⟨σ', hr.step hs, hassigned, free, hring, hperm, hassigned ▸ horder⟩

/-- The first block comes to an empty chain. -/
theorem first_follows_null : ∃ σ e σ', (headSystem Unit 0x8F000 0x100000).Reachable σ ∧ HeadSys.Step σ e σ' ∧
    σ.m.q.null = 0 ∧ σ'.m.q.null = 1 := by
  obtain ⟨σ, e, σ', hr, hs, hnull, -⟩ := firstBlock_assigned
  exact ⟨σ, e, σ', hr, hs, hnull⟩

theorem null_followed_first : ∃ σ e σ', (headSystem Unit 0x8F000 0x100000).Reachable σ ∧ HeadSys.Step σ e σ' ∧
    σ'.m.q.null ≠ σ.m.q.null ∧ ¬ σ.Joins e := by
  obtain ⟨σ, e, σ', hr, hs, hnull, -⟩ := firstBlock_assigned
  have hne : σ'.m.q.null ≠ σ.m.q.null := by
    rw [hnull.1, hnull.2]
    exact Nat.one_ne_zero
  exact ⟨σ, e, σ', hr, hs, hne, fun hj => hne (((null_followed (by decide)).1 σ e σ' hr hs).mpr hj)⟩

end Linux011.Fs
