/-
  `empty_dir` of fs/namei.c and its buffers, for any answers of `bmap` and any blocks that cannot
  be read. It returns without releasing the first block when `.` or `..` is wrong, and behind a
  missing block it releases the block before a second time. `empty_dir_balanced`: these are the
  only cases in which it does not give back what it took.
-/
import Linux011.Fs.Ledger
import Linux011.Fs.Namei

namespace Linux011.Fs.EmptyDir

open Linux011.Lib Ledger

/-- The directory inode: `i_size`, `i_num`, what `bmap` gives for each of its blocks (for block 0
    that is `i_zone[0]`), and its device. -/
structure Dir where
  size : ℕ
  num : ℕ
  bmap : ℕ → ℕ
  medium : Medium

/-- The blocks that `bmap` accepts. -/
def bmapLimit : ℕ := 7 + 512 + 512 * 512

/-- Where the loop is: the entry number, `bh` with its block, and `de` as an index into it. -/
structure Cursor where
  nr : ℕ
  bh : ℕ
  data : Block
  de : ℕ

namespace Dir

def len (x : Dir) : ℕ := x.size / 16

/-- The `if` at the top of the loop: at the end of a block the next one is read. -/
def nextBlock (x : Dir) (c : Cursor) : L (Option (Option Cursor)) := do
  if 64 ≤ c.de then
    releaseBlock c.bh
    if bmapLimit ≤ c.nr / 64 then Prog.halt (.panic "_bmap: block>big")
    else if x.bmap (c.nr / 64) = 0 then return some none
    else
      match ← readBlock x.medium (x.bmap (c.nr / 64)) with
      | none => return none
      | some data => return some (some ⟨c.nr, x.bmap (c.nr / 64), data, 0⟩)
  else return some (some c)

/-- The loop; at a missing block `bh` and `de` stay as they are. -/
def loop (x : Dir) : ℕ → Cursor → L Bool
  | 0, _ => Prog.halt .hang
  | n + 1, c => do
    if x.len ≤ c.nr then
      releaseBlock c.bh
      return true
    else
      match ← x.nextBlock c with
      | none => return false
      | some none => loop x n { c with nr := c.nr + 64 }
      | some (some c) =>
        if c.data.word (8 * c.de) ≠ 0 then
          releaseBlock c.bh
          return false
        else loop x n { c with nr := c.nr + 1, de := c.de + 1 }

/-- `.` is the directory itself and `..` is in use. -/
def Dots (x : Dir) (b : Block) : Prop :=
  b.word 0 = x.num ∧ b.word 8 ≠ 0 ∧ (b.name 0).take 2 = [dot, 0] ∧ (b.name 1).take 3 = [dot, dot, 0]

instance (x : Dir) (b : Block) : Decidable (x.Dots b) := inferInstanceAs (Decidable (_ ∧ _ ∧ _ ∧ _))

def emptyDir (x : Dir) : L Bool := do
  if x.len < 2 ∨ x.bmap 0 = 0 then return false
  else
    match ← readBlock x.medium (x.bmap 0) with
    | none => return false
    | some b =>
      if ¬ x.Dots b then return false
      else x.loop (x.len + 1) ⟨2, x.bmap 0, b, 2⟩

/-- The directory begins with `.` and `..`, and every other entry in a block it has is read as a
    free one. -/
def Empty (x : Dir) : Prop :=
  2 ≤ x.len ∧ x.bmap 0 ≠ 0 ∧ (∃ b, x.medium (x.bmap 0) = some b ∧ x.Dots b) ∧
    ∀ k, 2 ≤ k → k < x.len → x.bmap (k / 64) ≠ 0 →
      ∃ b, x.medium (x.bmap (k / 64)) = some b ∧ b.word (8 * (k % 64)) = 0

/-- `empty_dir` returns with every count as it was and nothing released by mistake, and says
    whether the directory is empty. -/
def Balanced (x : Dir) (s : Ledger) : Prop :=
  ∃ r s', x.emptyDir s = .ok r s' ∧ s'.count = s.count ∧ s'.strays = 0 ∧ (r = true ↔ x.Empty)

/-- Block `j` is there, can be read and holds no entry, `.` and `..` apart. -/
def Clear (x : Dir) (j : ℕ) : Prop :=
  x.bmap j ≠ 0 ∧ ∃ b, x.medium (x.bmap j) = some b ∧ ∀ k < 64, 2 ≤ 64 * j + k → 64 * j + k < x.len → b.word (8 * k) = 0

/-- The blocks that the loop comes to are there. -/
def Solid (x : Dir) : Prop :=
  ∀ j, 1 ≤ j → 64 * j < x.len → (∀ i < j, x.Clear i) → j < bmapLimit ∧ x.bmap j ≠ 0

/-- If the first block is read, it begins with `.` and `..`, and no block that the search comes to
    before it ends is missing. -/
def Sound (x : Dir) : Prop :=
  2 ≤ x.len → x.bmap 0 ≠ 0 → ∀ b, x.medium (x.bmap 0) = some b → x.Dots b ∧ x.Solid

end Dir

variable {x : Dir} {s : Ledger} {c : Cursor}

/-! ## The loop -/

namespace Dir

theorem nextBlock_spoils (x : Dir) (c : Cursor) : Spoils (x.nextBlock c) := by
  refine Spec.ite (fun _ => Spec.bind (releaseBlock_spoils c.bh) fun _ => ?_) fun _ => Spec.pure fun _ hs => hs
  refine Spec.ite (fun _ => Spec.halt trivial) fun _ => Spec.ite (fun _ => Spec.pure fun _ hs => hs) fun _ => ?_
  refine Spec.bind (readBlock_spoils _ _) fun r => ?_
  cases r with
  | none => exact Spec.pure fun _ hs => hs
  | some b => exact Spec.pure fun _ hs => hs

theorem loop_spoils (x : Dir) (n : ℕ) (c : Cursor) : Spoils (x.loop n c) := by
  induction n generalizing c with
  | zero => exact Spec.halt trivial
  | succ n ih =>
    refine Spec.ite (fun _ => Spec.bind (releaseBlock_spoils _) fun _ => Spec.pure fun _ hs => hs) fun _ => ?_
    refine Spec.bind (nextBlock_spoils x c) fun r => ?_
    match r with
    | none => exact Spec.pure fun _ hs => hs
    | some none => exact ih _
    | some (some c') =>
      exact Spec.ite (fun _ => Spec.bind (releaseBlock_spoils _) fun _ => Spec.pure fun _ hs => hs) fun _ => ih _

/-- A program that ends with a release noted as a mistake, if it ends. -/
def Spoilt (o : Out Ledger Halted Bool) : Prop := o.Ends (fun _ s => 0 < s.strays) (fun _ => True) fun _ => True

/-- Behind a missing block: the buffer in `bh` is not held any more. -/
theorem loop_after_hole (hheld : s.held c.bh = 0) (hde : 64 ≤ c.de) (n : ℕ) : Spoilt (x.loop n c s) := by
  have hstray : Spec (fun _ => True) (fun _ => True) (fun s' => s' = s) (releaseBlock c.bh) fun _ s' => 0 < s'.strays :=
    fun _ hs => hs ▸ releaseBlock_stray hheld
  suffices h : Spec (fun _ => True) (fun _ => True) (fun s' => s' = s) (x.loop n c) fun _ s' => 0 < s'.strays from h s rfl
  cases n with
  | zero => exact Spec.halt trivial
  | succ n =>
    refine Spec.ite (fun _ => Spec.bind hstray fun _ => Spec.pure fun _ hs => hs) fun _ => ?_
    refine Spec.bind (M := fun _ s' => 0 < s'.strays) ?_ fun r => ?_
    · refine Spec.ite (fun _ => Spec.bind hstray fun _ => ?_) fun hn => absurd hde hn
      refine Spec.ite (fun _ => Spec.halt trivial) fun _ => Spec.ite (fun _ => Spec.pure fun _ hs => hs) fun _ => ?_
      refine Spec.bind (readBlock_spoils _ _) fun r => ?_
      cases r with
      | none => exact Spec.pure fun _ hs => hs
      | some b => exact Spec.pure fun _ hs => hs
    · match r with
      | none => exact Spec.pure fun _ hs => hs
      | some none => exact loop_spoils x n _
      | some (some c') =>
        exact Spec.ite (fun _ => Spec.bind (releaseBlock_spoils _) fun _ => Spec.pure fun _ hs => hs) fun _ => loop_spoils x n _

/-- The cursor is in block `j`; the blocks before it, and its entries before `de`, are free. -/
structure At (x : Dir) (c : Cursor) (j : ℕ) : Prop where
  bh : c.bh = x.bmap j
  data : x.medium (x.bmap j) = some c.data
  nr : c.nr = 64 * j + c.de
  de : c.de ≤ 64
  behind : 2 ≤ c.nr
  mapped : ∀ i ≤ j, i < bmapLimit ∧ x.bmap i ≠ 0
  clear : ∀ i < j, x.Clear i
  free : ∀ k < c.de, 2 ≤ 64 * j + k → c.data.word (8 * k) = 0

variable {j : ℕ}

/-- When no block behind `j` is reached. -/
theorem solid_of_mapped (h : ∀ i ≤ j, i < bmapLimit ∧ x.bmap i ≠ 0) (hend : x.len ≤ 64 * (j + 1) ∨ ¬ x.Clear j) :
    x.Solid := by
  intro i _ hlen hclear
  by_cases hij : i ≤ j
  · exact h i hij
  · obtain hle | hnot := hend
    · omega
    · exact absurd (hclear j (by omega)) hnot

namespace At

/-- Behind `.` and `..`. -/
theorem first (hmap : x.bmap 0 ≠ 0) {b : Block} (hdata : x.medium (x.bmap 0) = some b) : At x ⟨2, x.bmap 0, b, 2⟩ 0 where
  bh := rfl
  data := hdata
  nr := rfl
  de := show 2 ≤ 64 by decide
  behind := le_rfl
  mapped i hi := by
    obtain rfl := Nat.le_zero.mp hi
    exact ⟨by decide, hmap⟩
  clear i hi := absurd hi (Nat.not_lt_zero i)
  free k hk hk2 := by
    have hk : k < 2 := hk
    omega

/-- At the end of a block without entries. -/
theorem clear_self (h : At x c j) (hde : c.de = 64) : x.Clear j :=
  ⟨(h.mapped j le_rfl).2, c.data, h.data, fun k hk hk2 _ => h.free k (hde ▸ hk) hk2⟩

theorem clear_le (h : At x c j) (hde : c.de = 64) : ∀ i < j + 1, x.Clear i := fun i hi => by
  obtain rfl | hi := (show i = j ∨ i < j by omega)
  · exact h.clear_self hde
  · exact h.clear i hi

/-- The first entry of the next block. -/
theorem next (h : At x c j) (hde : c.de = 64) {data : Block} (hlim : j + 1 < bmapLimit) (hmap : x.bmap (j + 1) ≠ 0)
    (hdata : x.medium (x.bmap (j + 1)) = some data) : At x ⟨c.nr, x.bmap (j + 1), data, 0⟩ (j + 1) where
  bh := rfl
  data := hdata
  nr := by rw [h.nr, hde]; rfl
  de := Nat.zero_le 64
  behind := h.behind
  mapped i hi := by
    obtain rfl | hi := (show i = j + 1 ∨ i ≤ j by omega)
    · exact ⟨hlim, hmap⟩
    · exact h.mapped i hi
  clear := h.clear_le hde
  free k hk := absurd hk (Nat.not_lt_zero k)

/-- One free entry on. -/
theorem step (h : At x c j) (hde : c.de < 64) (hword : c.data.word (8 * c.de) = 0) :
    At x { c with nr := c.nr + 1, de := c.de + 1 } j where
  bh := h.bh
  data := h.data
  nr := by rw [h.nr]; rfl
  de := hde
  behind := Nat.le_succ_of_le h.behind
  mapped := h.mapped
  clear := h.clear
  free k hk hk2 := by
    obtain rfl | hk := Nat.eq_or_lt_of_le (Nat.le_of_lt_succ hk)
    · exact hword
    · exact h.free k hk hk2

/-- Behind the last entry. -/
theorem ends (h : At x c j) (hlen : x.len ≤ c.nr) (hfirst : 2 ≤ x.len ∧ ∃ b, x.medium (x.bmap 0) = some b ∧ x.Dots b) :
    x.Solid ∧ x.Empty := by
  have hnr := h.nr
  have hde := h.de
  refine ⟨solid_of_mapped h.mapped (.inl (by omega)), hfirst.1, (h.mapped 0 (by omega)).2, hfirst.2, fun k hk2 hk hmap => ?_⟩
  have hmod := Nat.div_add_mod k 64
  obtain hj | hj := (show k / 64 < j ∨ k / 64 = j by omega)
  · obtain ⟨-, b, hb, hfree⟩ := h.clear _ hj
    exact ⟨b, hb, hfree _ (by omega) (by omega) (by omega)⟩
  · rw [hj]
    exact ⟨c.data, h.data, h.free _ (by omega) (by omega)⟩

/-- At an entry in use. -/
theorem live (h : At x c j) (hde : c.de < 64) (hlen : c.nr < x.len) (hword : c.data.word (8 * c.de) ≠ 0) :
    x.Solid ∧ ¬ x.Empty := by
  have hnr := h.nr
  have hbehind := h.behind
  refine ⟨solid_of_mapped h.mapped (.inr fun hc => ?_), fun he => ?_⟩
  · obtain ⟨-, b, hb, hfree⟩ := hc
    obtain rfl : c.data = b := Option.some.inj (h.data.symm.trans hb)
    exact hword (hfree _ hde (by omega) (by omega))
  · have hdiv : c.nr / 64 = j := by omega
    have hmod : c.nr % 64 = c.de := by omega
    obtain ⟨b, hb, hfree⟩ := he.2.2.2 c.nr hbehind hlen (hdiv ▸ (h.mapped j le_rfl).2)
    rw [hdiv] at hb
    rw [hmod] at hfree
    obtain rfl : c.data = b := Option.some.inj (h.data.symm.trans hb)
    exact hword hfree

/-- At a block that cannot be read. -/
theorem unreadable (h : At x c j) (hde : c.de = 64) (hlen : c.nr < x.len) (hlim : j + 1 < bmapLimit) (hmap : x.bmap (j + 1) ≠ 0)
    (hdata : x.medium (x.bmap (j + 1)) = none) : x.Solid ∧ ¬ x.Empty := by
  have hdiv : c.nr / 64 = j + 1 := by
    have := h.nr
    omega
  refine ⟨solid_of_mapped (j := j + 1) (fun i hi => ?_) (.inr fun hc => ?_), fun he => ?_⟩
  · obtain rfl | hi := (show i = j + 1 ∨ i ≤ j by omega)
    · exact ⟨hlim, hmap⟩
    · exact h.mapped i hi
  · obtain ⟨-, b, hb, -⟩ := hc
    rw [hdata] at hb
    cases hb
  · obtain ⟨b, hb, -⟩ := he.2.2.2 c.nr h.behind hlen (by rwa [hdiv])
    rw [hdiv, hdata] at hb
    cases hb

/-- The next block is missing, or beyond what `bmap` accepts. -/
theorem not_solid (h : At x c j) (hde : c.de = 64) (hlen : c.nr < x.len) (hmiss : bmapLimit ≤ j + 1 ∨ x.bmap (j + 1) = 0) :
    ¬ x.Solid := by
  intro hs
  have := h.nr
  obtain ⟨hlim, hmap⟩ := hs (j + 1) (by omega) (by omega) (h.clear_le hde)
  exact hmiss.elim (by omega) hmap

end At

/-- How `nextBlock` ends, with the buffer in `bh` held. -/
theorem nextBlock_run (h : At x c j) (hlen : c.nr < x.len) :
    (∃ c' j', x.nextBlock c (s.take c.bh) = .ok (some (some c')) (s.take c'.bh) ∧ At x c' j' ∧ c'.nr = c.nr ∧ c'.de < 64) ∨
    (x.nextBlock c (s.take c.bh) = .ok none s ∧ x.Solid ∧ ¬ x.Empty) ∨
    (x.nextBlock c (s.take c.bh) = .ok (some none) s ∧ 64 ≤ c.de ∧ ¬ x.Solid) ∨
    (∃ e, x.nextBlock c (s.take c.bh) = .stop e) ∧ ¬ x.Solid := by
  by_cases hde : 64 ≤ c.de
  · have hde' : c.de = 64 := le_antisymm h.de hde
    have hdiv : c.nr / 64 = j + 1 := by
      have := h.nr
      omega
    unfold nextBlock
    rw [if_pos hde, Prog.bind_run releaseBlock_take, hdiv]
    by_cases hlim : bmapLimit ≤ j + 1
    · rw [if_pos hlim]
      exact .inr (.inr (.inr ⟨⟨_, rfl⟩, h.not_solid hde' hlen (.inl hlim)⟩))
    rw [if_neg hlim]
    by_cases hmap : x.bmap (j + 1) = 0
    · rw [if_pos hmap]
      exact .inr (.inr (.inl ⟨rfl, hde, h.not_solid hde' hlen (.inr hmap)⟩))
    rw [if_neg hmap]
    cases hdata : x.medium (x.bmap (j + 1)) with
    | none =>
      rw [Prog.bind_run (readBlock_none hdata)]
      exact .inr (.inl ⟨rfl, h.unreadable hde' hlen (by omega) hmap hdata⟩)
    | some data =>
      rw [Prog.bind_run (readBlock_some hdata)]
      exact .inl ⟨_, j + 1, rfl, h.next hde' (by omega) hmap hdata, rfl, Nat.zero_lt_succ 63⟩
  · unfold nextBlock
    rw [if_neg hde]
    exact .inl ⟨c, j, rfl, h, rfl, by omega⟩

/-- The loop from a place in block `j`: everything is given back, or a release was a mistake. -/
theorem loop_run (hfirst : 2 ≤ x.len ∧ ∃ b, x.medium (x.bmap 0) = some b ∧ x.Dots b) (hheld : ∀ z, s.held z = 0) (n : ℕ)
    (h : At x c j) (hpos : 0 < n) (hn : x.len < c.nr + n) :
    (x.Solid ∧ ∃ r, x.loop n c (s.take c.bh) = .ok r s ∧ (r = true ↔ x.Empty)) ∨ (¬ x.Solid ∧ Spoilt (x.loop n c (s.take c.bh))) := by
  induction n generalizing c j with
  | zero => exact absurd hpos (Nat.lt_irrefl 0)
  | succ n ih =>
    unfold loop
    by_cases hlen : x.len ≤ c.nr
    · obtain ⟨hs, he⟩ := h.ends hlen hfirst
      rw [if_pos hlen, Prog.bind_run releaseBlock_take]
      exact .inl ⟨hs, true, rfl, iff_of_true rfl he⟩
    rw [if_neg hlen]
    push Not at hlen
    obtain ⟨c', j', hrun, h', hnr, hde⟩ | ⟨hrun, hs, he⟩ | ⟨hrun, hde, hs⟩ | ⟨⟨e, hrun⟩, hs⟩ := nextBlock_run (s := s) h hlen
    · rw [Prog.bind_run hrun]
      by_cases hword : c'.data.word (8 * c'.de) = 0
      · dsimp only
        rw [if_neg (not_not.mpr hword)]
        exact ih (h'.step hde hword) (by omega) (by dsimp only; omega)
      · obtain ⟨hs, he⟩ := h'.live hde (by omega) hword
        dsimp only
        rw [if_pos hword, Prog.bind_run releaseBlock_take]
        exact .inl ⟨hs, false, rfl, iff_of_false Bool.false_ne_true he⟩
    · rw [Prog.bind_run hrun]
      exact .inl ⟨hs, false, rfl, iff_of_false Bool.false_ne_true he⟩
    · rw [Prog.bind_run hrun]
      exact .inr ⟨hs, loop_after_hole (c := { c with nr := c.nr + 64 }) (hheld _) hde n⟩
    · rw [Prog.bind_stop hrun]
      exact .inr ⟨hs, trivial⟩

theorem Spoilt.not_ok {o : Out Ledger Halted Bool} (h : Spoilt o) {r : Bool} {s' : Ledger} (ho : o = .ok r s') : 0 < s'.strays := by
  rw [ho] at h
  exact h

end Dir

/-- For any directory `empty_dir` gives back what it takes, and says whether the directory is empty,
    exactly if `.` and `..` are right once they are read, and no block is missing up to the place
    where the search ends. -/
theorem empty_dir_balanced (x : Dir) {s : Ledger} (hs : s.Clean) : x.Balanced s ↔ x.Sound := by
  have hquick : x.emptyDir s = .ok false s → ¬ x.Empty → (x.Balanced s ↔ True) := fun hrun he =>
    iff_true_intro ⟨false, s, hrun, rfl, hs.strays, iff_of_false Bool.false_ne_true he⟩
  by_cases hbad : x.len < 2 ∨ x.bmap 0 = 0
  · have hrun : x.emptyDir s = .ok false s := by
      unfold Dir.emptyDir
      rw [if_pos hbad]
      rfl
    rw [hquick hrun fun he => by have := he.1; have := he.2.1; omega]
    exact iff_of_true trivial fun h2 h0 => absurd hbad (by omega)
  cases hdata : x.medium (x.bmap 0) with
  | none =>
    have hrun : x.emptyDir s = .ok false s := by
      unfold Dir.emptyDir
      rw [if_neg hbad, Prog.bind_run (readBlock_none hdata)]
      rfl
    rw [hquick hrun fun he => ?_]
    · exact iff_of_true trivial fun _ _ b hb => by rw [hdata] at hb; cases hb
    · obtain ⟨b, hb, -⟩ := he.2.2.1
      rw [hdata] at hb
      cases hb
  | some b =>
    have hpair : 2 ≤ x.len ∧ x.bmap 0 ≠ 0 := by omega
    have hsound : x.Sound ↔ x.Dots b ∧ x.Solid :=
      ⟨fun h => h hpair.1 hpair.2 b hdata, fun h _ _ b' hb' => by rw [hdata] at hb'; cases hb'; exact h⟩
    by_cases hdots : x.Dots b
    · have hrun : x.emptyDir s = x.loop (x.len + 1) ⟨2, x.bmap 0, b, 2⟩ (s.take (x.bmap 0)) := by
        unfold Dir.emptyDir
        rw [if_neg hbad, Prog.bind_run (readBlock_some hdata)]
        dsimp only
        rw [if_neg (not_not.mpr hdots)]
      have hat := Dir.At.first hpair.2 hdata
      rw [hsound, and_iff_right hdots]
      obtain ⟨hsolid, r, hr, he⟩ | ⟨hsolid, hspoilt⟩ :=
        Dir.loop_run (s := s) ⟨hpair.1, b, hdata, hdots⟩ hs.held (x.len + 1) hat (by omega) (by dsimp only; omega)
      · exact iff_of_true ⟨r, s, hrun.trans hr, rfl, hs.strays, he⟩ hsolid
      · refine iff_of_false ?_ hsolid
        rintro ⟨r, s', hr, -, hstrays, -⟩
        have := hspoilt.not_ok (hrun.symm.trans hr)
        omega
    · have hrun : x.emptyDir s = .ok false (s.take (x.bmap 0)) := by
        unfold Dir.emptyDir
        rw [if_neg hbad, Prog.bind_run (readBlock_some hdata)]
        dsimp only
        rw [if_pos hdots]
        rfl
      refine iff_of_false ?_ fun h => hdots (hsound.mp h).1
      rintro ⟨r, s', hr, hcount, -, -⟩
      rw [hrun] at hr
      cases hr
      have := congrFun hcount (x.bmap 0)
      simp at this

/-- `.` and `..` of directory 2 in directory 1. -/
def dotsBlock : Block := fun k =>
  if k = 0 then 2 else if k = 2 then dot else if k = 16 then 1 else if k = 18 ∨ k = 19 then dot else 0

/-- Directory 2 on a device where every block holds the same; only block 0 of the directory is there. -/
def dirOf (size : ℕ) (b : Block) : Dir := ⟨size, 2, fun j => if j = 0 then 5 else 0, fun _ => some b⟩

/-- Someone else holds every buffer. -/
def othersHold : Ledger := ⟨fun _ => 1, fun _ => 0, 0⟩

theorem othersHold_clean : othersHold.Clean := ⟨fun _ => rfl, rfl⟩

theorem empty_dir_balanced_dots : (dirOf 32 dotsBlock).Balanced othersHold := by
  refine (empty_dir_balanced _ othersHold_clean).mpr fun _ _ b hb => ?_
  cases hb
  refine ⟨by decide, fun j hj hlen => ?_⟩
  have : 64 * j < 2 := hlen
  omega

/-- A directory of 66 entries whose second block is missing: the buffer of the first one is released
    twice, and someone else loses it. -/
theorem hole_releases_twice : ¬ (dirOf 1056 dotsBlock).Balanced othersHold := by
  rintro ⟨r, s', hrun, -, hstrays, -⟩
  have hval : ((dirOf 1056 dotsBlock).emptyDir othersHold).state?.map (·.strays) = some 1 := by decide +kernel
  rw [hrun] at hval
  have hone : s'.strays = 1 := Option.some.inj hval
  omega

end Linux011.Fs.EmptyDir
