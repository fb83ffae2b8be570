/-
  Truncation against readers. As long as `free_block` finds the buffers of the file unheld, and no
  indirect block fails to read, every zone of the file has its bit clear when all calls have ended,
  and every buffer has as many references as before.
-/
import Linux011.Lib.Count
import Linux011.Fs.Truncate

namespace Linux011.Fs.Truncate

open Linux011.Lib
open Linux011.Fs.Extend (Path target Vol Mem)

variable {v : Vol} {s s' s₀ : St} {b z : ℕ} {l l' : List ℕ}

/-! ## References -/

/-- The buffers a reader holds. -/
def Place.refs : Place → List ℕ
  | .idle | .loop _ | .getblk _ _ | .copy none _ _ _ => []
  | .ahead b _ _ | .wait b _ | .copy (some b) _ _ _ => [b]
  | .aheadWait b x _ _ => [x, b]
  | .brelse b q => b :: q.refs

def Frame.refs : Frame → List ℕ
  | .freeBlock _ | .getblk _ _ => []
  | .freeWait b | .bread _ b | .loop _ b _ => [b]

def Trunc.refs : Trunc → List ℕ
  | .before | .done => []
  | .run fs _ => fs.flatMap Frame.refs

/-- The buffers `l` that were held have become `l'`; only the counts have changed, and what is in
    the cache. -/
structure Moves (s s' : St) (l l' : List ℕ) : Prop where
  count : ∀ b, s'.count b + l.count b = s.count b + l'.count b
  cached : s'.Cached
  same : s' = { s with cached := s'.cached, count := s'.count }

theorem Moves.refl (hc : s.Cached) (l : List ℕ) : Moves s s l l := ⟨fun _ => rfl, hc, rfl⟩

theorem count_cons_ite (b : ℕ) (l : List ℕ) (c : ℕ) : (b :: l).count c = l.count c + if c = b then 1 else 0 := by
  rw [List.count_cons]
  by_cases h : c = b
  · rw [if_pos h, if_pos (by simp [h])]
  · rw [if_neg h, if_neg (by simpa using Ne.symm h)]

theorem getblk_count (hc : s.Cached) (b : ℕ) :
    (s.getblk b).count = Function.update s.count b (s.count b + 1) := by
  unfold St.getblk
  cases hb : s.cached b with
  | true => rw [if_pos rfl]
  | false => rw [if_neg (by decide), (hc b hb).1]

theorem getblk_cached (s : St) (b : ℕ) : (s.getblk b).cached = Function.update s.cached b true := by
  unfold St.getblk
  cases hb : s.cached b with
  | true =>
    rw [if_pos rfl, ← hb, Function.update_eq_self]
  | false => rw [if_neg (by decide)]

theorem getblk_same (s : St) (b : ℕ) :
    s.getblk b = { s with cached := (s.getblk b).cached, count := (s.getblk b).count } := by
  unfold St.getblk
  split_ifs <;> rfl

theorem Moves.getblk (hc : s.Cached) (b : ℕ) (l : List ℕ) : Moves s (s.getblk b) l (b :: l) := by
  refine ⟨fun c => ?_, fun c hc' => ?_, getblk_same s b⟩
  · rw [getblk_count hc, Function.update_apply, count_cons_ite]
    split_ifs with h
    · rw [h]
      omega
    · rfl
  · rw [getblk_cached, Function.update_apply] at hc'
    split_ifs at hc' with h
    rw [getblk_count hc, Function.update_of_ne h, getblk_same]
    exact hc c hc'

theorem Moves.put (hc : s.Cached) (h : s.count b ≠ 0) (l : List ℕ) : Moves s (s.put b) (b :: l) l := by
  refine ⟨fun c => ?_, fun c hc' => ?_, rfl⟩
  · change Function.update s.count b _ c + _ = _
    rw [Function.update_apply, count_cons_ite]
    split_ifs with hcb
    · rw [hcb]
      omega
    · rfl
  · have h0 := hc c hc'
    refine ⟨?_, h0.2⟩
    change Function.update s.count b _ c = 0
    rw [Function.update_apply]
    split_ifs with hcb
    · exact absurd (hcb ▸ h0.1) h
    · exact h0.1

/-! ## Readers -/

@[simp] theorem fileCopy_refs_none (pos left : ℕ) : (fileCopy none pos left).refs = [] := rfl

@[simp] theorem found_refs (z : ℕ) (rest : List Path) (pos left : ℕ) : (found z rest pos left).refs = [] := by
  unfold found
  split_ifs
  · rfl
  · cases rest with
    | _ => rfl

theorem Caller.got_refs (s : St) (b : ℕ) (c : Caller) : (c.got s b).refs = [b] := by
  cases c with
  | bmap p rest pos left => rw [Caller.got, Place.refs, found_refs]
  | file pos left => rfl
  | block off left => rfl

theorem Caller.failed_refs (c : Caller) : c.failed.refs = [] := by
  cases c with
  | _ => rfl

theorem Place.go_moves {q q' : Place} {xs : List UInt8} (hc : s.Cached) (hle : ∀ b, q.refs.count b ≤ s.count b)
    (h : q.go s = some (s', q', xs)) : Moves s s' q.refs q'.refs := by
  cases q with
  | idle => cases h
  | loop l =>
    cases l with
    | file pos left =>
      rw [Place.go] at h
      split_ifs at h with h0 hbig
      · cases h
        exact .refl hc _
      · cases hr : (target (pos / 1024)).route with
        | nil =>
          rw [hr] at h
          cases h
        | cons p rest =>
          rw [hr] at h
          cases h
          rw [found_refs]
          exact .refl hc _
    | block b off left =>
      cases h
      split_ifs
      · exact .refl hc _
      · exact .refl hc _
  | getblk b c =>
    cases h
    exact .getblk hc b []
  | ahead b bs c =>
    cases bs with
    | nil =>
      cases h
      exact .refl hc _
    | cons x bs =>
      cases h
      exact .getblk hc x [b]
  | aheadWait b x bs c =>
    rw [Place.go] at h
    split_ifs at h
    cases h
    have hx : 1 ≤ s.count x := by
      have h1 := hle x
      rw [Place.refs, List.count_cons_self] at h1
      omega
    exact .put hc (by omega) [b]
  | wait b c =>
    rw [Place.go] at h
    split_ifs at h
    cases h
    rw [Caller.got_refs]
    exact .refl hc _
  | brelse b q =>
    rw [Place.go] at h
    split_ifs at h with hb
    cases h
    exact .put hc (fun h0 => hb (.inr h0)) _
  | copy bh off n l =>
    cases n with
    | zero =>
      cases bh with
      | none =>
        cases h
        exact .refl hc _
      | some b =>
        cases h
        exact .refl hc _
    | succ n =>
      cases bh with
      | none =>
        cases h
        exact .refl hc _
      | some b =>
        cases h
        exact .refl hc _

theorem Place.failed_moves {q q' : Place} (hc : s.Cached) (h : q.failed s = some (s', q')) :
    Moves s s' q.refs q'.refs := by
  cases q with
  | wait b c =>
    rw [Place.failed] at h
    split_ifs at h with hb
    cases h
    rw [Caller.failed_refs]
    exact .put hc (fun h0 => hb (.inr h0)) []
  | _ => cases h

/-! ## What is still to be freed -/

/-- `e` is an entry of block `b` from `i` on. -/
def Entry (x : ℕ → Block) (b i e : ℕ) : Prop := e ≠ 0 ∧ ∃ j, i ≤ j ∧ j < 512 ∧ (x b).word j = e

/-- What `free_ind` or `free_dind` frees from entry `i` on. -/
def Below (x : ℕ → Block) : Bool → ℕ → ℕ → ℕ → Prop
  | false, b, i, z => z = b ∨ Entry x b i z
  | true, b, i, z => z = b ∨ ∃ e, Entry x b i e ∧ (z = e ∨ Entry x e 0 z)

def Frame.block : Frame → ℕ
  | .freeBlock b | .freeWait b | .getblk _ b | .bread _ b | .loop _ b _ => b

/-- The frame is going to free `z`; `x` are the blocks. -/
def Frame.owes (x : ℕ → Block) (z : ℕ) : Frame → Prop
  | .freeBlock y | .freeWait y => z = y
  | .getblk d b | .bread d b => Below x d b 0 z
  | .loop d b i => Below x d b i z

variable {x : ℕ → Block} {d : Bool} {i e : ℕ}

theorem Entry.succ (h : Entry x b i e) : (x b).word i = e ∨ Entry x b (i + 1) e := by
  obtain ⟨h0, j, hij, hj, he⟩ := h
  by_cases hji : j = i
  · subst hji
    exact .inl he
  · exact .inr ⟨h0, j, by omega, hj, he⟩

theorem Entry.lt (h : Entry x b i e) : i < 512 := by
  obtain ⟨_, j, hij, hj, _⟩ := h
  omega

theorem below_end (h : Below x d b i z) (hi : 512 ≤ i) : z = b := by
  cases d with
  | false =>
    obtain h | h := h
    · exact h
    · have := h.lt
      omega
  | true =>
    obtain h | ⟨e, h, _⟩ := h
    · exact h
    · have := h.lt
      omega

/-- What is called for entry `e`. -/
def entryFrames (d : Bool) (e : ℕ) : List Frame := if e = 0 then [] else if d then callFree false e else [.freeBlock e]

theorem entryFrames_refs (d : Bool) (e : ℕ) : (entryFrames d e).flatMap Frame.refs = [] := by
  unfold entryFrames callFree
  split_ifs <;> rfl

/-- One turn of the loop. -/
theorem below_succ (h : Below x d b i z) :
    (∃ f ∈ entryFrames d ((x b).word i), f.owes x z) ∨ Below x d b (i + 1) z := by
  cases d with
  | false =>
    obtain h | h := h
    · exact .inr (.inl h)
    obtain he | he := h.succ
    · left
      rw [he, entryFrames, if_neg h.1, if_neg (by decide)]
      exact ⟨_, List.mem_singleton_self _, rfl⟩
    · exact .inr (.inr he)
  | true =>
    obtain h | ⟨e, h, hz⟩ := h
    · exact .inr (.inl h)
    obtain he | he := h.succ
    · left
      rw [he, entryFrames, if_neg h.1, if_pos rfl, callFree, if_neg h.1]
      exact ⟨_, List.mem_singleton_self _, hz⟩
    · exact .inr (.inr ⟨e, he, hz⟩)

/-- What one step of a frame does: bits are only cleared, with the bit of a block its contents may go,
    and what was to be freed is freed or still to be freed. A frame whose block is free already does
    not come to its end. -/
structure FrameStep (v : Vol) (s s' : St) (f : Frame) (fs : List Frame) : Prop where
  count : ∀ b, s'.count b + f.refs.count b = s.count b + (fs.flatMap Frame.refs).count b
  cached : s'.Cached
  mode : s'.mode = s.mode
  zone : s'.zone = s.zone
  clears : ∀ j, s'.zmap j = true → s.zmap j = true
  blocks : ∀ b, s'.marked v b = true → s'.block b = s.block b
  owed : ∀ x z, x f.block = s.block f.block → f.owes x z → s'.marked v z = false ∨ ∃ g ∈ fs, g.owes x z
  doom : s.marked v f.block = false → ∃ g ∈ fs, g.block = f.block

theorem Moves.frameStep {f : Frame} {fs : List Frame} (h : Moves s s' f.refs (fs.flatMap Frame.refs))
    (howed : ∀ x z, x f.block = s.block f.block → f.owes x z → ∃ g ∈ fs, g.owes x z)
    (hdoom : ∃ g ∈ fs, g.block = f.block) : FrameStep v s s' f fs where
  count := h.count
  cached := h.cached
  mode := by rw [h.same]
  zone := by rw [h.same]
  clears j hj := by rwa [h.same] at hj
  blocks b _ := by rw [h.same]
  owed x z hx ho := .inr (howed x z hx ho)
  doom _ := hdoom

theorem clearBit_eq (h : s.clearBit v z = some s') :
    s.marked v z = true ∧ s' = { s with zmap := Function.update s.zmap (z + 1 - v.firstdatazone) false } := by
  unfold St.clearBit at h
  split_ifs at h with hm
  cases h
  exact ⟨hm, rfl⟩

/-- The bit of a block is cleared, when its reference is given back and its buffer invalid. -/
theorem clearBit_frameStep {f : Frame} {s1 : St} (h : s1.clearBit v f.block = some s')
    (hs : s1 = { s with block := s1.block, count := s1.count })
    (hblock : ∀ b, b ≠ f.block → s1.block b = s.block b) (hcached : s1.Cached)
    (hcount : ∀ b, s1.count b + f.refs.count b = s.count b) (ho : ∀ x z, f.owes x z → z = f.block) :
    FrameStep v s s' f [] := by
  obtain ⟨hm, rfl⟩ := clearBit_eq h
  have hz : s1.zmap = s.zmap := by rw [hs]
  have hclear : ∀ b, b + 1 - v.firstdatazone = f.block + 1 - v.firstdatazone →
      St.marked { s1 with zmap := Function.update s1.zmap (f.block + 1 - v.firstdatazone) false } v b = false := by
    intro b hb
    change Function.update s1.zmap _ false (b + 1 - v.firstdatazone) = false
    rw [hb, Function.update_self]
  refine ⟨hcount, hcached, by rw [hs], by rw [hs], fun j hj => ?_, fun b hb => ?_, fun x z _ hz => ?_, fun h0 => ?_⟩
  · change Function.update s1.zmap _ false j = true at hj
    rw [Function.update_apply] at hj
    split_ifs at hj
    rwa [← hz]
  · refine hblock b fun hbf => ?_
    rw [hclear b (by rw [hbf])] at hb
    cases hb
  · left
    rw [ho x z hz]
    exact hclear _ rfl
  · unfold St.marked at h0 hm
    rw [hz, h0] at hm
    cases hm

/-- `b_count` is 1 when `free_block` tests it. -/
def Frame.Unheld (s : St) : Frame → Prop
  | .freeWait z => s.count z = 1
  | _ => True

theorem Frame.go_step {f : Frame} {fs : List Frame} (hc : s.Cached) (hu : f.Unheld s)
    (h : f.go v s = some (s', fs)) : FrameStep v s s' f fs := by
  cases f with
  | freeBlock z =>
    rw [Frame.go] at h
    split_ifs at h with hr hz
    · cases h
      exact (Moves.getblk hc z []).frameStep (fun x y _ ho => ⟨_, List.mem_singleton_self _, ho⟩)
        ⟨_, List.mem_singleton_self _, rfl⟩
    · obtain ⟨s1, h1, he⟩ := Option.map_eq_some_iff.mp h
      cases he
      exact clearBit_frameStep (f := .freeBlock z) h1 rfl (fun _ _ => rfl) hc (fun _ => rfl) fun _ _ ho => ho
  | freeWait z =>
    rw [Frame.go] at h
    split_ifs at h with hl h1
    · exact absurd hu h1
    · obtain ⟨s1, h1, he⟩ := Option.map_eq_some_iff.mp h
      cases he
      have hinv : (s.invalidate z).Cached := fun b hb => by
        refine ⟨(hc b hb).1, ?_⟩
        change Function.update s.block z (s.disk z) b = s.disk b
        rw [Function.update_apply]
        split_ifs with hbz
        · rw [hbz]
        · exact (hc b hb).2
      have hput := Moves.put hinv (b := z) (fun h0 => absurd (hu.symm.trans h0) (by decide)) []
      refine clearBit_frameStep (f := .freeWait z) h1 rfl (fun b hb => ?_) hput.cached (fun b => ?_) fun _ _ ho => ho
      · exact Function.update_of_ne hb _ _
      · exact hput.count b
  | getblk d b =>
    cases h
    exact (Moves.getblk hc b []).frameStep (fun x y _ ho => ⟨_, List.mem_singleton_self _, ho⟩)
      ⟨_, List.mem_singleton_self _, rfl⟩
  | bread d b =>
    rw [Frame.go] at h
    split_ifs at h
    cases h
    exact (Moves.refl hc _).frameStep (fun x y _ ho => ⟨_, List.mem_singleton_self _, ho⟩)
      ⟨_, List.mem_singleton_self _, rfl⟩
  | loop d b i =>
    rw [Frame.go] at h
    by_cases hi : i < 512
    · rw [if_pos hi] at h
      cases h
      change FrameStep v s s _ (entryFrames d ((s.block b).word i) ++ _)
      refine Moves.frameStep ?_ (fun x y hx ho => ?_) ⟨_, List.mem_append_right _ (List.mem_singleton_self _), rfl⟩
      · rw [List.flatMap_append, entryFrames_refs]
        exact .refl hc _
      · change x b = s.block b at hx
        rw [← hx]
        obtain ⟨g, hg, hy⟩ | hy := below_succ ho
        · exact ⟨g, List.mem_append_left _ hg, hy⟩
        · exact ⟨_, List.mem_append_right _ (List.mem_singleton_self _), hy⟩
    · rw [if_neg hi] at h
      split_ifs at h with hb
      cases h
      exact (Moves.put hc (fun h0 => hb (.inr h0)) []).frameStep
        (fun x y _ ho => ⟨_, List.mem_singleton_self _, below_end ho (by omega)⟩) ⟨_, List.mem_singleton_self _, rfl⟩

/-- What is freed for zone `b` in slot `k` of the inode. -/
def Slot (x : ℕ → Block) (k : Fin 9) (b z : ℕ) : Prop := b ≠ 0 ∧ if k < 7 then z = b else Below x (k = 8) b 0 z

theorem Slot.self (x : ℕ → Block) (k : Fin 9) (hb : b ≠ 0) : Slot x k b b := by
  refine ⟨hb, ?_⟩
  split_ifs
  · rfl
  · cases decide (k = 8) with
    | _ => exact .inl rfl

theorem entry_mem {m : Mem} {k : Fin 512} (h : m.entry b k ≠ 0) : b ≠ 0 ∧ Entry m.block b 0 (m.entry b k) := by
  unfold Mem.entry at h ⊢
  split_ifs at h ⊢ with hb
  · exact absurd rfl h
  · exact ⟨hb, h, k, Nat.zero_le _, k.isLt, rfl⟩

/-- The zones of the file are those in the nine slots and what hangs on them. -/
theorem inTree_slot (h : s.InTree z) : ∃ k, Slot s.block k (s.zone k) z := by
  obtain ⟨_, hz, p, rfl⟩ := h
  cases p with
  | top k => exact ⟨k, .self _ k hz⟩
  | ind k =>
    obtain ⟨h7, he⟩ := entry_mem hz
    exact ⟨7, h7, .inr he⟩
  | mid k =>
    obtain ⟨h8, he⟩ := entry_mem hz
    exact ⟨8, h8, .inr ⟨_, he, .inl rfl⟩⟩
  | leaf k l =>
    obtain ⟨hm, he⟩ := entry_mem hz
    obtain ⟨h8, hm⟩ := entry_mem hm
    exact ⟨8, h8, .inr ⟨_, hm, .inr he⟩⟩

/-- The first slot `truncate` has not come to. -/
def Level.next : Level → ℕ
  | .direct i => min i 7
  | .zero i => i + 1
  | .dind => 8
  | .finish => 9

def Level.owes (x : ℕ → Block) (zone : Fin 9 → ℕ) (z : ℕ) (l : Level) : Prop :=
  ∃ k : Fin 9, l.next ≤ k ∧ Slot x k (zone k) z

/-- What one step of `truncate` itself does; `zone` are the slots as they were at its call. -/
structure LevelStep (s s' : St) (l : Level) (fs : List Frame) (l' : Option Level) : Prop where
  same : s' = { s with zone := s'.zone, size := s'.size, dirt := s'.dirt }
  refs : fs.flatMap Frame.refs = []
  last : l' = none → fs = []
  kept : ∀ m, l' = some m → ∀ k : Fin 9, m.next ≤ k → l.next ≤ k ∧ s'.zone k = s.zone k
  owed : ∀ x z, l.owes x s.zone z → (∃ f ∈ fs, f.owes x z) ∨ ∃ m, l' = some m ∧ m.owes x s.zone z

theorem callFree_refs (d : Bool) (b : ℕ) : (callFree d b).flatMap Frame.refs = [] := by
  unfold callFree
  split_ifs <;> rfl

theorem mem_callFree (hb : b ≠ 0) (h : Below x d b 0 z) : ∃ f ∈ callFree d b, f.owes x z := by
  rw [callFree, if_neg hb]
  exact ⟨_, List.mem_singleton_self _, h⟩

theorem Level.go_step {l : Level} {fs : List Frame} {l' : Option Level} (h : l.go s = (s', fs, l')) :
    LevelStep s s' l fs l' := by
  cases l with
  | direct i =>
    rw [Level.go] at h
    by_cases hi : i < 7
    · rw [dif_pos hi] at h
      split_ifs at h with h0
      · cases h
        refine ⟨rfl, rfl, (fun hn => by cases hn), fun m hm k hk => ?_, fun x z ho => ?_⟩
        · cases hm
          simp only [Level.next] at hk
          exact ⟨by simp only [Level.next]; omega, rfl⟩
        · obtain ⟨k, hk, hs⟩ := ho
          simp only [Level.next] at hk
          have hne : (k : ℕ) ≠ i := fun he => by
            obtain rfl : k = top ⟨i, hi⟩ := Fin.ext he
            exact hs.1 h0
          exact .inr ⟨_, rfl, k, by simp only [Level.next]; omega, hs⟩
      · cases h
        refine ⟨rfl, rfl, (fun hn => by cases hn), fun m hm k hk => ?_, fun x z ho => ?_⟩
        · cases hm
          simp only [Level.next] at hk
          exact ⟨by simp only [Level.next]; omega, rfl⟩
        · obtain ⟨k, hk, hs⟩ := ho
          simp only [Level.next] at hk
          by_cases he : (k : ℕ) = i
          · obtain rfl : k = top ⟨i, hi⟩ := Fin.ext he
            have hz := hs.2
            rw [if_pos (Fin.lt_def.mpr hi)] at hz
            exact .inl ⟨_, List.mem_singleton_self _, hz⟩
          · exact .inr ⟨_, rfl, k, by simp only [Level.next]; omega, hs⟩
    · rw [dif_neg hi] at h
      cases h
      refine ⟨rfl, callFree_refs _ _, (fun hn => by cases hn), fun m hm k hk => ?_, fun x z ho => ?_⟩
      · cases hm
        simp only [Level.next] at hk
        exact ⟨by simp only [Level.next]; omega, rfl⟩
      · obtain ⟨k, hk, hs⟩ := ho
        simp only [Level.next] at hk
        by_cases he : (k : ℕ) = 7
        · obtain rfl : k = 7 := Fin.ext he
          exact .inl (mem_callFree hs.1 hs.2)
        · exact .inr ⟨_, rfl, k, by simp only [Level.next]; omega, hs⟩
  | zero i =>
    cases h
    refine ⟨rfl, rfl, (fun hn => by cases hn), fun m hm k hk => ?_, fun x z ho => ?_⟩
    · cases hm
      simp only [Level.next] at hk ⊢
      refine ⟨by omega, Function.update_of_ne (fun he => ?_) _ _⟩
      rw [he] at hk
      have hv : (top i : ℕ) = i := rfl
      omega
    · obtain ⟨k, hk, hs⟩ := ho
      simp only [Level.next] at hk
      exact .inr ⟨_, rfl, k, by simp only [Level.next]; omega, hs⟩
  | dind =>
    cases h
    refine ⟨rfl, callFree_refs _ _, (fun hn => by cases hn), fun m hm k hk => ?_, fun x z ho => ?_⟩
    · cases hm
      simp only [Level.next] at hk
      omega
    · obtain ⟨k, hk, hs⟩ := ho
      simp only [Level.next] at hk
      obtain rfl : k = 8 := Fin.ext (by omega)
      exact .inl (mem_callFree hs.1 hs.2)
  | finish =>
    cases h
    refine ⟨rfl, rfl, fun _ => rfl, (fun m hm => by cases hm), fun x z ho => ?_⟩
    obtain ⟨k, hk, _⟩ := ho
    simp only [Level.next] at hk
    omega

/-! ## Runs -/

/-- Where the truncation is: what it has not freed it still is to free, or it is about to panic. -/
def Trunc.Ok (v : Vol) (s₀ s : St) : Trunc → Prop
  | .before => s.mode = s₀.mode ∧ s.zone = s₀.zone ∧ s.block = s₀.block
  | .run fs l => (∀ b, s.marked v b = true → s.block b = s₀.block b) ∧
      (∀ k : Fin 9, l.next ≤ k → s.zone k = s₀.zone k) ∧
      ((∃ f ∈ fs, s.marked v f.block = false) ∨
        ∀ z, s₀.InTree z → s.marked v z = false ∨ (∃ f ∈ fs, f.owes s₀.block z) ∨ l.owes s₀.block s₀.zone z)
  | .done => ∀ z, s₀.InTree z → s.marked v z = false

/-- The buffer that is freed next has no other holder. -/
def Trunc.Unheld (s : St) : Trunc → Prop
  | .run (f :: _) _ => f.Unheld s
  | _ => True

theorem Trunc.call_ok (h : Trunc.before.Ok v s₀ s) : (Trunc.call s).Ok v s₀ s := by
  obtain ⟨hmode, hzone, hblock⟩ := h
  unfold Trunc.call
  rw [hmode]
  split_ifs with hm
  · refine ⟨fun b _ => by rw [hblock], fun k _ => by rw [hzone], .inr fun z hz => .inr (.inr ?_)⟩
    obtain ⟨k, hk⟩ := inTree_slot hz
    exact ⟨k, by simp [Level.next], hk⟩
  · exact fun z hz => absurd hz.1 hm

theorem Trunc.go_frame_ok {f : Frame} {fs gs : List Frame} {l : Level} (h : FrameStep v s s' f gs)
    (hok : (Trunc.run (f :: fs) l).Ok v s₀ s) : (Trunc.run (gs ++ fs) l).Ok v s₀ s' := by
  obtain ⟨hblock, hzone, hrun⟩ := hok
  have hclear : ∀ b, s.marked v b = false → s'.marked v b = false := fun b hb => by
    cases hb' : s'.marked v b with
    | false => rfl
    | true => exact absurd ((h.clears _ hb').symm.trans hb) (by decide)
  refine ⟨fun b hb => ?_, fun k hk => by rw [h.zone]; exact hzone k hk, ?_⟩
  · rw [h.blocks b hb]
    exact hblock b (h.clears _ hb)
  cases hf : s.marked v f.block with
  | false =>
    obtain ⟨g, hg, hb⟩ := h.doom hf
    exact .inl ⟨g, List.mem_append_left _ hg, by rw [hb]; exact hclear _ hf⟩
  | true =>
    obtain ⟨g, hg, hb⟩ | hrun := hrun
    · -- the frame below stays
      obtain rfl | hg := List.mem_cons.mp hg
      · exact absurd (hf.symm.trans hb) (by decide)
      · exact .inl ⟨g, List.mem_append_right _ hg, hclear _ hb⟩
    · right
      intro z hz
      obtain hm | ⟨g, hg, ho⟩ | hl := hrun z hz
      · exact .inl (hclear z hm)
      · obtain rfl | hg := List.mem_cons.mp hg
        · obtain hm | ⟨g', hg', ho'⟩ := h.owed _ z (hblock _ hf).symm ho
          · exact .inl hm
          · exact .inr (.inl ⟨g', List.mem_append_left _ hg', ho'⟩)
        · exact .inr (.inl ⟨g, List.mem_append_right _ hg, ho⟩)
      · exact .inr (.inr hl)

theorem LevelStep.ok {l : Level} {fs : List Frame} {l' : Option Level} (h : LevelStep s s' l fs l')
    (hok : (Trunc.run [] l).Ok v s₀ s) :
    (match l' with | some m => Trunc.run fs m | none => Trunc.done).Ok v s₀ s' := by
  obtain ⟨hblock, hzone, hrun⟩ := hok
  have hmarked : ∀ b, s'.marked v b = s.marked v b := fun b => by rw [h.same]; rfl
  -- what is owed, in the slots as they are now
  have howed : ∀ z, s₀.InTree z → s.marked v z = false ∨ l.owes s₀.block s.zone z := by
    intro z hz
    obtain ⟨f, hf, _⟩ | hrun := hrun
    · cases hf
    obtain hm | ⟨f, hf, _⟩ | ⟨k, hk, hs⟩ := hrun z hz
    · exact .inl hm
    · cases hf
    · exact .inr ⟨k, hk, by rwa [hzone k hk]⟩
  cases l' with
  | none =>
    intro z hz
    rw [hmarked]
    obtain hm | ho := howed z hz
    · exact hm
    · obtain ⟨f, hf, _⟩ | ⟨m, hm, _⟩ := h.owed _ z ho
      · rw [h.last rfl] at hf
        cases hf
      · cases hm
  | some m =>
    have hkept : ∀ k : Fin 9, m.next ≤ k → s'.zone k = s₀.zone k := fun k hk => by
      obtain ⟨hle, he⟩ := h.kept m rfl k hk
      rw [he, hzone k hle]
    refine ⟨fun b hb => ?_, hkept, .inr fun z hz => ?_⟩
    · rw [h.same]
      exact hblock b (by rwa [hmarked] at hb)
    · rw [hmarked]
      obtain hm | ho := howed z hz
      · exact .inl hm
      · obtain hf | ⟨m', hm', k, hk, hs⟩ := h.owed _ z ho
        · exact .inr (.inl hf)
        · cases hm'
          obtain ⟨hle, he⟩ := h.kept m rfl k hk
          exact .inr (.inr ⟨k, hk, by rwa [← hzone k hle]⟩)

/-- One step of the truncation. -/
theorem Trunc.go_ok {t t' : Trunc} (hc : s.Cached) (hu : t.Unheld s) (hok : t.Ok v s₀ s)
    (h : t.go v s = some (s', t')) :
    (∀ b, s'.count b + t.refs.count b = s.count b + t'.refs.count b) ∧ s'.Cached ∧ t'.Ok v s₀ s' := by
  cases t with
  | before => cases h
  | done => cases h
  | run fs l =>
    cases fs with
    | nil =>
      obtain ⟨s1, gs, l', hl⟩ : ∃ s1 gs l', l.go s = (s1, gs, l') := ⟨_, _, _, rfl⟩
      have hstep := Level.go_step hl
      have hok' := hstep.ok hok
      have hcached : s1.Cached := by
        rw [hstep.same]
        exact hc
      have hcount : ∀ b, s1.count b = s.count b := fun b => by rw [hstep.same]
      rw [Trunc.go, hl] at h
      cases l' with
      | none =>
        cases h
        exact ⟨fun b => by rw [hcount]; rfl, hcached, hok'⟩
      | some m =>
        cases h
        refine ⟨fun b => ?_, hcached, hok'⟩
        rw [hcount, Trunc.refs, Trunc.refs, hstep.refs]
        rfl
    | cons f fs =>
      obtain ⟨⟨s1, gs⟩, hf, he⟩ := Option.map_eq_some_iff.mp h
      cases he
      have hstep := Frame.go_step hc hu hf
      refine ⟨fun b => ?_, hstep.cached, go_frame_ok hstep hok⟩
      have hcount := hstep.count b
      rw [Trunc.refs, Trunc.refs, List.flatMap_cons, List.flatMap_append, List.count_append, List.count_append]
      dsimp only
      omega

variable {ι : Type} [DecidableEq ι] [Fintype ι] {σ σ' : Sys ι} {e : Event ι}

structure Inv (v : Vol) (s₀ : St) (σ : Sys ι) : Prop where
  count : ∀ b, σ.s.count b = s₀.count b + (∑ p, (σ.reader p).refs.count b) + σ.trunc.refs.count b
  cached : σ.s.Cached
  trunc : σ.trunc.Ok v s₀ σ.s

/-- The truncation finds the buffers unheld that it frees, and can read the indirect blocks. -/
def Unheld (σ : Sys ι) : Event ι → Prop
  | .trunc => σ.trunc.Unheld σ.s
  | .truncError => False
  | _ => True

theorem Trunc.Ok.congr {t : Trunc} (h : t.Ok v s₀ s) (hmode : s'.mode = s.mode) (hzone : s'.zone = s.zone)
    (hzmap : s'.zmap = s.zmap) (hblock : s'.block = s.block) : t.Ok v s₀ s' := by
  have hmarked : ∀ b, s'.marked v b = s.marked v b := fun b => by rw [St.marked, hzmap]; rfl
  cases t with
  | before => exact ⟨hmode.trans h.1, hzone.trans h.2.1, hblock.trans h.2.2⟩
  | run fs l =>
    simp only [Trunc.Ok, hmarked, hzone, hblock]
    exact h
  | done => exact fun z hz => (hmarked z).trans (h z hz)

theorem count_reader {q : Place} {p : ι} (hm : Moves σ.s s' (σ.reader p).refs q.refs) (hi : Inv v s₀ σ) (b : ℕ) :
    s'.count b = s₀.count b + (∑ r, (Function.update σ.reader p q r).refs.count b) + σ.trunc.refs.count b := by
  have h1 := hm.count b
  have h2 := sum_update σ.reader (fun q => q.refs.count b) p q
  have h3 := hi.count b
  omega

theorem Inv.reader {q : Place} {p : ι} (hm : Moves σ.s s' (σ.reader p).refs q.refs) (hi : Inv v s₀ σ) (buf : ι → List UInt8) :
    Inv v s₀ { σ with s := s', reader := Function.update σ.reader p q, buf := buf } where
  count := count_reader hm hi
  cached := hm.cached
  trunc := by
    have hs := hm.same
    exact hi.trunc.congr (by rw [hs]) (by rw [hs]) (by rw [hs]) (by rw [hs])

theorem refs_le (hi : Inv v s₀ σ) (p : ι) (b : ℕ) : (σ.reader p).refs.count b ≤ σ.s.count b := by
  have h1 := hi.count b
  have h2 := Finset.add_sum_erase _ (fun p => (σ.reader p).refs.count b) (Finset.mem_univ p)
  omega

theorem Inv.step (hi : Inv v s₀ σ) (hu : Unheld σ e) (h : Sys.Step v σ e σ') : Inv v s₀ σ' := by
  cases h with
  | @read p l hp =>
    have hm : Moves σ.s σ.s (σ.reader p).refs (Place.loop l).refs := by
      rw [hp]
      exact .refl hi.cached []
    exact hi.reader hm _
  | go hg => exact hi.reader (Place.go_moves hi.cached (refs_le hi _) hg) _
  | readError hg => exact hi.reader (Place.failed_moves hi.cached hg) _
  | truncate hb =>
    have hok := hi.trunc
    rw [hb] at hok
    refine ⟨fun b => ?_, hi.cached, Trunc.call_ok hok⟩
    have hr : (Trunc.call σ.s).refs = [] := by
      unfold Trunc.call
      split_ifs <;> rfl
    have h1 := hi.count b
    rw [hb] at h1
    rw [hr]
    exact h1
  | trunc hg =>
    obtain ⟨hcount, hcached, hok⟩ := Trunc.go_ok hi.cached hu hi.trunc hg
    refine ⟨fun b => ?_, hcached, hok⟩
    have h1 := hcount b
    have h2 := hi.count b
    dsimp only
    omega
  | truncError _ => exact hu.elim
  | lock b on _ => exact ⟨hi.count, hi.cached, hi.trunc.congr rfl rfl rfl rfl⟩
  | flush b =>
    refine ⟨hi.count, fun c hc => ⟨(hi.cached c hc).1, ?_⟩, hi.trunc.congr rfl rfl rfl rfl⟩
    change σ.s.block c = Function.update σ.s.disk b (σ.s.block b) c
    rw [Function.update_apply]
    split_ifs with hcb
    · rw [hcb]
    · exact (hi.cached c hc).2
  | @evict b h0 hl hd =>
    refine ⟨hi.count, fun c hc => ?_, hi.trunc.congr rfl rfl rfl rfl⟩
    change Function.update σ.s.cached b false c = false at hc
    rw [Function.update_apply] at hc
    split_ifs at hc with hcb
    · subst hcb
      exact ⟨h0, hd.symm⟩
    · exact hi.cached c hc

/-- When all calls have ended, the zones of the file are free and the counts are as they were. -/
theorem truncation_frees_file {v : Vol} {s₀ : St} {σ : Sys ι} (h : ((truncSystem v ι s₀).restrict Unheld).Reachable σ)
    (hf : σ.Finished) :
    (∀ z, s₀.InTree z → σ.s.marked v z = false) ∧ ∀ b, σ.s.count b = s₀.count b := by
  have hi : Inv v s₀ σ := by
    refine h.invariant (fun τ hτ => ?_) fun τ e τ' _ hi hs => hi.step hs.1 hs.2
    obtain ⟨rfl, hc, hidle, hbefore⟩ := hτ
    refine ⟨fun b => ?_, hc, ?_⟩
    · simp [hidle, hbefore, Place.refs, Trunc.refs]
    · rw [hbefore]
      exact ⟨rfl, rfl, rfl⟩
  obtain ⟨hdone, hidle⟩ := hf
  refine ⟨?_, fun b => ?_⟩
  · have hok := hi.trunc
    rw [hdone] at hok
    exact hok
  · have hcount := hi.count b
    simpa [hidle, hdone, Place.refs, Trunc.refs] using hcount

/-! ## A reader in its copy loop -/

/-- A small volume. -/
def smallVol : Vol where
  ninodes := 32
  nzones := 64
  imapBlocks := 1
  zmapBlocks := 1
  firstdatazone := 8
  magic := 0x137F
  first_pos := by decide
  short := by decide

/-- A file of one block, zone 16, which is in the cache. -/
def oneZone : St where
  mode := 0o100644
  zone k := if k = 0 then 16 else 0
  size := 1
  dirt := false
  zmap j := decide (j = 0 ∨ j = 9)
  block _ := Block.zero
  disk _ := Block.zero
  cached b := b = 16
  lock _ := false
  count _ := 0

def start : Sys Unit := ⟨oneZone, fun _ => .idle, fun _ => [], .before⟩

theorem init_start : (truncSystem smallVol Unit oneZone).init start := ⟨rfl, fun _ _ => ⟨rfl, rfl⟩, fun _ => rfl, rfl⟩

theorem oneZone_inTree : oneZone.InTree 16 := ⟨.inl (by decide), by decide, .top 0, by decide⟩

def Place.isIdle : Place → Bool
  | .idle => true
  | _ => false

theorem isIdle_eq {q : Place} (h : q.isIdle = true) : q = .idle := by
  cases q with
  | idle => rfl
  | _ => cases h

def Trunc.isDone : Trunc → Bool
  | .done => true
  | _ => false

theorem isDone_eq {t : Trunc} (h : t.isDone = true) : t = .done := by
  cases t with
  | done => rfl
  | _ => cases h

def Sys.next (σ : Sys Unit) : Event Unit → Option (Sys Unit)
  | .read p l =>
    if (σ.reader p).isIdle then
      some { σ with reader := Function.update σ.reader p (.loop l), buf := Function.update σ.buf p [] }
    else none
  | .go p => ((σ.reader p).go σ.s).map fun r =>
    { σ with s := r.1, reader := Function.update σ.reader p r.2.1, buf := Function.update σ.buf p (σ.buf p ++ r.2.2) }
  | .truncate => match σ.trunc with
    | .before => some { σ with trunc := Trunc.call σ.s }
    | _ => none
  | .trunc => (σ.trunc.go smallVol σ.s).map fun r => { σ with s := r.1, trunc := r.2 }
  | _ => none

theorem next_step {σ σ' : Sys Unit} {e : Event Unit} (h : σ.next e = some σ') : Sys.Step smallVol σ e σ' := by
  cases e with
  | read p l =>
    dsimp only [Sys.next] at h
    split_ifs at h with hp
    cases h
    exact .read (isIdle_eq hp)
  | go p =>
    obtain ⟨⟨s', q, xs⟩, hg, rfl⟩ := Option.map_eq_some_iff.mp h
    exact .go hg
  | truncate =>
    dsimp only [Sys.next] at h
    cases ht : σ.trunc with
    | before =>
      rw [ht] at h
      cases h
      exact .truncate ht
    | run fs l =>
      rw [ht] at h
      cases h
    | done =>
      rw [ht] at h
      cases h
  | trunc =>
    obtain ⟨⟨s', t⟩, hg, rfl⟩ := Option.map_eq_some_iff.mp h
    exact .trunc hg
  | _ => cases h

def Trunc.unheld (s : St) : Trunc → Bool
  | .run (.freeWait z :: _) _ => s.count z = 1
  | _ => true

def Sys.unheldNext (σ : Sys Unit) (e : Event Unit) : Option (Sys Unit) :=
  if σ.trunc.unheld σ.s then σ.next e else none

theorem unheldNext_step {σ σ' : Sys Unit} {e : Event Unit} (h : σ.unheldNext e = some σ') :
    Unheld σ e ∧ Sys.Step smallVol σ e σ' := by
  unfold Sys.unheldNext at h
  split_ifs at h with hu
  refine ⟨?_, next_step h⟩
  cases e with
  | trunc =>
    change σ.trunc.Unheld σ.s
    cases ht : σ.trunc with
    | run fs l =>
      rw [ht] at hu
      cases fs with
      | nil => trivial
      | cons f fs =>
        cases f with
        | freeWait z =>
          have h1 : σ.s.count z = 1 := of_decide_eq_true hu
          exact h1
        | _ => trivial
    | _ => trivial
  | truncError => cases h
  | _ => trivial

/-- The read ends before `free_block` comes to the block. -/
def readFirst : List (Event Unit) := List.flatten
  [[.read () (.file 0 1), .go (), .go (), .truncate, .trunc], List.replicate 6 (.go ()), List.replicate 12 .trunc]

theorem truncation_frees_file_one_zone : ∃ σ : Sys Unit, σ.Finished ∧ σ.s.marked smallVol 16 = false ∧ σ.s.count 16 = 0 := by
  have h1 : ((readFirst.foldlM Sys.unheldNext start).map fun σ => (σ.trunc.isDone, (σ.reader ()).isIdle)) =
      some (true, true) := by decide
  obtain ⟨σ, hσ, h2⟩ := Option.map_eq_some_iff.mp h1
  simp only [Prod.mk.injEq] at h2
  have hr : ((truncSystem smallVol Unit oneZone).restrict Unheld).Reachable σ := by
    have hinit : ((truncSystem smallVol Unit oneZone).restrict Unheld).Reachable start := .init init_start
    exact hinit.foldlM (fun _ e _ h => ⟨e, unheldNext_step h⟩) _ hσ
  have hf : σ.Finished := ⟨isDone_eq h2.1, fun _ => isIdle_eq h2.2⟩
  obtain ⟨hfree, hcount⟩ := truncation_frees_file hr hf
  exact ⟨σ, hf, hfree 16 oneZone_inTree, hcount 16⟩

/-- The reader is suspended in `put_fs_byte` while the file is truncated. -/
def readThrough : List (Event Unit) := List.flatten
  [[.read () (.file 0 1)], List.replicate 4 (.go ()), [.truncate], List.replicate 13 .trunc,
    List.replicate 4 (.go ())]

/-- When both calls have ended the zone is in no file and still marked, and its buffer has one
    reference more than before. -/
theorem suspended_reader_leaks_zone : ∃ σ : Sys Unit, (truncSystem smallVol Unit oneZone).Reachable σ ∧ σ.Finished ∧
    oneZone.InTree 16 ∧ (∀ k, σ.s.zone k = 0) ∧ σ.s.marked smallVol 16 = true ∧ oneZone.count 16 = 0 ∧
    σ.s.count 16 = 1 := by
  have h1 : ((readThrough.foldlM Sys.next start).map fun σ => (σ.trunc.isDone, (σ.reader ()).isIdle,
      (List.finRange 9).all fun k => σ.s.zone k = 0, σ.s.marked smallVol 16, σ.s.count 16)) =
      some (true, true, true, true, 1) := by decide
  obtain ⟨σ, hσ, h2⟩ := Option.map_eq_some_iff.mp h1
  simp only [Prod.mk.injEq] at h2
  obtain ⟨hdone, hidle, hzone, hmarked, hcount⟩ := h2
  have hr : (truncSystem smallVol Unit oneZone).Reachable σ := by
    have hinit : (truncSystem smallVol Unit oneZone).Reachable start := .init init_start
    exact hinit.foldlM (fun _ e _ h => ⟨e, next_step h⟩) _ hσ
  exact ⟨σ, hr, ⟨isDone_eq hdone, fun _ => isIdle_eq hidle⟩, oneZone_inTree,
    fun k => of_decide_eq_true (List.all_eq_true.mp hzone k (List.mem_finRange k)), hmarked, rfl, hcount⟩

end Linux011.Fs.Truncate
