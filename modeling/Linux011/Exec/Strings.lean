/-
  `copy_strings` (fs/exec.c): argument strings are copied backwards, byte by byte, into pages that are
  taken when a byte falls into them. The strings of a vector are read through the fs register; a read
  in the wrong segment and an index outside `page[]` halt, since nothing is known of what happens
  then. What user memory holds does not change meanwhile.
-/
import Linux011.Exec.Header
import Linux011.Mm.Pages

namespace Linux011.Exec

open Linux011.Lib

/-- What the fs register selects. -/
inductive Seg
  | user
  | kernel
  deriving DecidableEq

/-- What `do_execve` works on: `page` is its local array (frames, or 0 for NULL), `ip` and `sp` are
    `eip[0]` and `eip[3]`, and the rest from `handler` on is the running task's. -/
structure Kern where
  fsys : Fs.Kern
  mm : Mm.Mem
  fs : Seg
  page : ℕ → ℕ
  ip : BitVec 32
  sp : BitVec 32
  handler : Fin 32 → ℕ
  ldt : Ldt
  endCode : BitVec 32
  endData : BitVec 32
  brk : BitVec 32
  startStack : BitVec 32

inductive Halted
  | fs (e : Fs.Halted)
  | panic (msg : String)
  /-- an index outside `page[]` -/
  | index
  /-- a read in the other segment -/
  | segment
  /-- an access beyond the limit of the data segment -/
  | limit
  deriving DecidableEq

abbrev X (α : Type) : Type := Prog Kern Halted α

def panic {α : Type} (msg : String) : X α := Prog.halt (.panic msg)

def setFs (g : Seg) : X Unit := Prog.modify fun s => { s with fs := g }

def setFsIf (b : Bool) (g : Seg) : X Unit := if b then setFs g else pure ()

/-- A `get_fs_...` of something that is in segment `g`. -/
def inSeg (g : Seg) : X Unit := do
  let s ← Prog.get
  if s.fs = g then pure () else Prog.halt .segment

def setMm (mm : Mm.Mem) : X Unit := Prog.modify fun s => { s with mm := mm }

/-! ## copy_strings -/

/-- Strings with the segment their pointers are in and the one they are in themselves. -/
structure Vec where
  strs : List (List UInt8)
  table : Seg
  text : Seg

/-- `p`, `offset` and `pag` of the copy loop; `pag` is a frame. -/
structure Cursor where
  p : ℕ
  offset : ℤ
  pag : ℕ

/-- `page[i]`, with a new page if it is NULL. -/
def argPage (i : ℕ) : X (Option ℕ) :=
  if 32 ≤ i then Prog.halt .index
  else do
    let s ← Prog.get
    if s.page i ≠ 0 then return some (s.page i)
    else match Mm.getFreePage s.mm with
      | none => return none
      | some (f, mm) =>
        Prog.modify fun s => { s with mm := mm, page := Function.update s.page i f }
        return some f

/-- `*(pag + offset) = c` -/
def poke (s : Mm.Mem) (pag offset : ℕ) (c : UInt8) : Mm.Mem :=
  s.setPage pag { s.mem pag with byte := Function.update (s.mem pag).byte offset c.toNat }

/-- `*(pag + offset) = get_fs_byte(tmp)` -/
def storeByte (text : Seg) (c : UInt8) (x : Cursor) : X (Option Cursor) := do
  inSeg text
  Prog.modify fun s => { s with mm := poke s.mm x.pag x.offset.toNat c }
  return some x

/-- `p-1`, an unsigned long -/
def pred (p : ℕ) : ℕ := (p + 0xFFFFFFFF) % 2 ^ 32

/-- One turn of the inner loop; `old` is `old_fs`. -/
def copyByte (kmem : ℕ) (old text : Seg) (c : UInt8) (x : Cursor) : X (Option Cursor) :=
  let p := pred x.p
  if x.offset - 1 < 0 then do
    setFsIf (kmem = 2) old
    match ← argPage (p / 4096) with
    | none => return none
    | some pag =>
      setFsIf (kmem = 2) .kernel
      storeByte text c ⟨p, p % 4096, pag⟩
  else storeByte text c ⟨p, x.offset - 1, x.pag⟩

/-- The inner loop, over the bytes of a string from its NUL on. -/
def copyBytes (kmem : ℕ) (old text : Seg) : List UInt8 → Cursor → X (Option Cursor)
  | [], x => return some x
  | c :: cs, x => do
    match ← copyByte kmem old text c x with
    | none => return none
    | some x => copyBytes kmem old text cs x

/-- One turn of the outer loop. -/
def copyString (kmem : ℕ) (old : Seg) (v : Vec) (str : List UInt8) (x : Cursor) : X (Option Cursor) := do
  setFsIf (kmem = 1) .kernel
  inSeg v.table
  setFsIf (kmem = 1) old
  inSeg v.text
  -- `p-len` is unsigned and never below 0
  if (BitVec.ofNat 32 x.p - BitVec.ofNat 32 (str.length + 1)).toNat < 0 then do
    setFs old
    return none
  else copyBytes kmem old v.text (0 :: str.reverse) x

/-- The outer loop, over the strings from the last one on. -/
def copyLoop (kmem : ℕ) (old : Seg) (v : Vec) : List (List UInt8) → Cursor → X (Option Cursor)
  | [], x => return some x
  | str :: strs, x => do
    match ← copyString kmem old v str x with
    | none => return none
    | some x => copyLoop kmem old v strs x

def copyStrings (argc : ℤ) (v : Vec) (p kmem : ℕ) : X ℕ :=
  if p = 0 then return 0
  else do
    let s ← Prog.get
    let old := s.fs
    setFsIf (kmem = 2) .kernel
    if v.strs.length < argc then panic "argc is wrong"
    else match ← copyLoop kmem old v (v.strs.take argc.toNat).reverse ⟨p, 0, 0⟩ with
      | none => return 0
      | some x =>
        setFsIf (kmem = 2) old
        return x.p

/-- The arguments of one `copy_strings`. -/
structure ArgCall where
  argc : ℤ
  vec : Vec
  kmem : ℕ

/-- Calls of `copy_strings` in a row, each with the `p` of the one before. -/
def copyAll : List ArgCall → ℕ → X ℕ
  | [], p => return p
  | c :: cs, p => do
    let p ← copyStrings c.argc c.vec p c.kmem
    copyAll cs p

/-- `PAGE_SIZE*MAX_ARG_PAGES-4` -/
def argTop : ℕ := 4096 * 32 - 4

/-- `free_page(page[i])` for all of them. -/
def freeArgs : X Unit := Prog.each (fun i => do
  let s ← Prog.get
  match Mm.freePage s.mm (s.page i * 4096) with
  | .ok mm => setMm mm
  | .error (.panic msg) => panic msg
  | .error (.oom _) => panic "oom") (List.range 32)

/-! ## Free frames -/

/-- The frames `get_free_page` can still give out. -/
def avail (s : Mm.Mem) : ℕ := ((Finset.range Mm.pagingPages).filter fun n => s.memMap n = 0).card

theorem findFree_eq_none {m : ℕ → ℕ} {n : ℕ} : Mm.findFree m n = none ↔ ∀ k < n, m k ≠ 0 := by
  induction n with
  | zero => exact ⟨fun _ k hk => absurd hk (Nat.not_lt_zero k), fun _ => rfl⟩
  | succ n ih =>
    unfold Mm.findFree
    by_cases h : m n = 0
    · rw [if_pos h]
      exact ⟨fun he => absurd he (Option.some_ne_none n), fun hall => absurd h (hall n (Nat.lt_succ_self n))⟩
    · rw [if_neg h, ih]
      refine ⟨fun hall k hk => ?_, fun hall k hk => hall k (Nat.lt_succ_of_lt hk)⟩
      obtain hk | rfl := Nat.lt_succ_iff_lt_or_eq.mp hk
      · exact hall k hk
      · exact h

theorem getFreePage_eq_none {s : Mm.Mem} : Mm.getFreePage s = none ↔ avail s = 0 := by
  unfold Mm.getFreePage avail
  rw [Option.map_eq_none_iff, findFree_eq_none, Finset.card_eq_zero, Finset.filter_eq_empty_iff]
  simp only [Finset.mem_range]

variable {lo hi : ℕ} {own : Finset ℕ}

theorem avail_fresh {s s' : Mm.Mem} {f : ℕ} (h : Mm.MemInv lo hi s own) (hg : Mm.getFreePage s = some (f, s')) :
    avail s' + 1 = avail s := by
  have hf := Mm.getFreePage_spec h hg
  obtain ⟨n, hn, he⟩ := Option.map_eq_some_iff.mp hg
  obtain ⟨hlt, h0⟩ := Mm.findFree_spec hn
  obtain ⟨rfl, -⟩ := Prod.mk.inj he
  have hset : ((Finset.range Mm.pagingPages).filter fun k => s'.memMap k = 0) =
      ((Finset.range Mm.pagingPages).filter fun k => s.memMap k = 0).erase n := by
    ext k
    rw [Finset.mem_erase, Finset.mem_filter, Finset.mem_filter, hf.memMap, Nat.add_sub_cancel]
    by_cases hk : k = n
    · rw [if_pos hk]
      exact ⟨fun h => absurd h.2 (by decide), fun h => absurd hk h.1⟩
    · rw [if_neg hk]
      exact ⟨fun h => ⟨hk, h⟩, fun h => h.2⟩
  unfold avail
  rw [hset]
  exact Finset.card_erase_add_one (Finset.mem_filter.mpr ⟨Finset.mem_range.mpr hlt, h0⟩)

/-! ## The argument pages -/

def argFrames (page : ℕ → ℕ) : Finset ℕ := ((Finset.range 32).image page).erase 0

theorem mem_argFrames {page : ℕ → ℕ} {f : ℕ} : f ∈ argFrames page ↔ f ≠ 0 ∧ ∃ i < 32, page i = f := by
  simp only [argFrames, Finset.mem_erase, Finset.mem_image, Finset.mem_range]

theorem argFrames_update {page : ℕ → ℕ} {i f : ℕ} (hi : i < 32) (h0 : page i = 0) (hf : f ≠ 0) :
    argFrames (Function.update page i f) = insert f (argFrames page) := by
  ext g
  rw [mem_argFrames, Finset.mem_insert, mem_argFrames]
  constructor
  · rintro ⟨hg, j, hj, rfl⟩
    by_cases hji : j = i
    · subst hji
      exact Or.inl (Function.update_self ..)
    · rw [Function.update_of_ne hji] at hg ⊢
      exact Or.inr ⟨hg, j, hj, rfl⟩
  · rintro (rfl | ⟨hg, j, hj, rfl⟩)
    · exact ⟨hf, i, hi, Function.update_self ..⟩
    · refine ⟨hg, j, hj, Function.update_of_ne ?_ ..⟩
      rintro rfl
      exact hg h0

/-- The pages of the bytes from `p` up. -/
def pagesAt (p : ℕ) : ℕ := if p < argTop then 32 - p / 4096 else 0

/-- The pages from `p` up are there, and `s₀` is what memory was without them. -/
structure Args (lo hi : ℕ) (own : Finset ℕ) (s₀ : Mm.Mem) (p : ℕ) (s : Kern) : Prop where
  inv : Mm.MemInv lo hi s.mm (own ∪ argFrames s.page)
  there : ∀ i, s.page i ≠ 0 ↔ p < argTop ∧ p / 4096 ≤ i ∧ i < 32
  inj : ∀ i j, s.page i ≠ 0 → s.page i = s.page j → i = j
  avail : avail s.mm + pagesAt p = avail s₀
  notOwn : ∀ f ∈ argFrames s.page, f ∉ own
  taken : ∀ f ∈ argFrames s.page, s.mm.memMap (f - 256) = 1 ∧ s₀.memMap (f - 256) = 0
  memMap : ∀ n, n + 256 ∉ argFrames s.page → s.mm.memMap n = s₀.memMap n
  other : ∀ f, f ∉ argFrames s.page → s.mm.mem f = s₀.mem f
  dir : s.mm.dir = s₀.dir
  pte : ∀ x ∈ Mm.userSlots, s.mm.pte x = s₀.pte x
  high : s.mm.highMemory = s₀.highMemory

/-- Byte `q` of the argument area. -/
def Kern.argByte (s : Kern) (q : ℕ) : ℕ := (s.mm.mem (s.page (q / 4096))).byte (q % 4096)

variable {s₀ : Mm.Mem} {p : ℕ} {s s' : Kern}

theorem Args.mem_frames (ha : Args lo hi own s₀ p s) {i : ℕ} (h0 : s.page i ≠ 0) : s.page i ∈ argFrames s.page :=
  mem_argFrames.mpr ⟨h0, i, ((ha.there i).mp h0).2.2, rfl⟩

/-- Before the first string. -/
theorem Args.start (h : Mm.MemInv lo hi s.mm own) (hp : ∀ i, s.page i = 0) : Args lo hi own s.mm argTop s := by
  have h0 : argFrames s.page = ∅ := by
    ext f
    rw [mem_argFrames]
    exact ⟨fun ⟨hf, i, _, he⟩ => absurd ((hp i).symm.trans he).symm hf, fun hf => absurd hf (Finset.notMem_empty f)⟩
  refine ⟨by rw [h0, Finset.union_empty]; exact h, fun i => ⟨fun hi => absurd (hp i) hi, fun hi => ?_⟩,
    fun i _ hi => absurd (hp i) hi, ?_, fun f hf => ?_, fun f hf => ?_, fun _ _ => rfl, fun _ _ => rfl, rfl, fun _ _ => rfl,
    rfl⟩
  · exact absurd hi.1 (Nat.lt_irrefl argTop)
  · simp [pagesAt]
  · rw [h0] at hf
    exact absurd hf (Finset.notMem_empty f)
  · rw [h0] at hf
    exact absurd hf (Finset.notMem_empty f)

/-- A byte is stored in a page that is there. -/
theorem Args.poke (ha : Args lo hi own s₀ p s) {i : ℕ} (h0 : s.page i ≠ 0) (off : ℕ) (c : UInt8) :
    Args lo hi own s₀ p { s with mm := poke s.mm (s.page i) off c } := by
  obtain ⟨h1, h2, h3⟩ := ha.inv.fill (Finset.mem_union_right own (ha.mem_frames h0))
    { s.mm.mem (s.page i) with byte := Function.update (s.mm.mem (s.page i)).byte off c.toNat }
  refine ⟨h1, ha.there, ha.inj, ha.avail, ha.notOwn, ha.taken, ha.memMap, fun f hf => ?_, h2.trans ha.dir,
    fun x hx => (h3 x hx).trans (ha.pte x hx), ha.high⟩
  refine Eq.trans ?_ (ha.other f hf)
  exact (Mm.Mem.setPage_mem ..).trans (if_neg (show ¬ f = s.page i from fun he => hf (he ▸ ha.mem_frames h0)))

theorem argByte_poke (s : Kern) {q q' : ℕ} (hinj : ∀ i j, s.page i ≠ 0 → s.page i = s.page j → i = j)
    (hq : s.page (q / 4096) ≠ 0) (c : UInt8) :
    Kern.argByte { s with mm := Exec.poke s.mm (s.page (q / 4096)) (q % 4096) c } q' =
      if q' = q then c.toNat else s.argByte q' := by
  unfold Kern.argByte Exec.poke
  dsimp only
  rw [Mm.Mem.setPage_mem]
  by_cases hpg : s.page (q' / 4096) = s.page (q / 4096)
  · have hdiv := hinj _ _ hq hpg.symm
    rw [if_pos hpg, hpg]
    by_cases hm : q' % 4096 = q % 4096
    · have hqq : q' = q := by omega
      rw [if_pos hqq, hm]
      exact Function.update_self ..
    · rw [if_neg (fun h => hm (by rw [h]))]
      exact Function.update_of_ne hm ..
  · rw [if_neg hpg, if_neg (fun h => hpg (by rw [h]))]

/-- A page is taken for the byte below `p`. -/
theorem Args.fresh (ha : Args lo hi own s₀ p s) (hp : 0 < p) (hpt : p ≤ argTop) (h0 : s.page ((p - 1) / 4096) = 0) {f : ℕ}
    {mm : Mm.Mem} (hg : Mm.getFreePage s.mm = some (f, mm)) :
    Args lo hi own s₀ (p - 1) { s with mm := mm, page := Function.update s.page ((p - 1) / 4096) f } := by
  have hf := Mm.getFreePage_spec ha.inv hg
  have hlow : (p - 1) / 4096 < 32 := by unfold argTop at hpt; omega
  have hf256 : 256 ≤ f := ha.inv.bounds.1.trans hf.range.1
  have hnot : f ∉ argFrames s.page := fun hm => hf.notOwn (Finset.mem_union_right own hm)
  have hframes := argFrames_update hlow h0 (show f ≠ 0 by omega)
  have hpage : ∀ j, Function.update s.page ((p - 1) / 4096) f j = if j = (p - 1) / 4096 then f else s.page j := fun j =>
    Function.update_apply ..
  -- the page of `p` itself is not there, so `p` is the end of a page or the top
  have hedge : p = argTop ∨ p / 4096 = (p - 1) / 4096 + 1 := by
    by_contra hno
    obtain ⟨h1, h2⟩ := not_or.mp hno
    exact (ha.there ((p - 1) / 4096)).mpr ⟨by omega, by omega, hlow⟩ h0
  refine ⟨?_, fun j => ?_, fun j k hj hjk => ?_, ?_, fun g hg => ?_, fun g hg => ?_, fun n hn => ?_, fun g hg => ?_,
    hf.dir.trans ha.dir, fun x hx => (hf.pte x hx).trans (ha.pte x hx), hf.high.trans ha.high⟩
  · dsimp only
    rw [hframes, Finset.union_insert]
    exact hf.inv
  · dsimp only
    rw [hpage]
    by_cases hj : j = (p - 1) / 4096
    · rw [if_pos hj]
      exact ⟨fun _ => ⟨by omega, by omega, by omega⟩, fun _ => by omega⟩
    · rw [if_neg hj, ha.there]
      unfold argTop at hedge hpt ⊢
      omega
  · dsimp only at hj hjk
    rw [hpage] at hj
    rw [hpage, hpage] at hjk
    split_ifs at hj hjk with h1 h2 h2
    · exact h1.trans h2.symm
    · exact absurd (hjk ▸ ha.mem_frames (hjk ▸ hj)) hnot
    · exact absurd (hjk ▸ ha.mem_frames hj) hnot
    · exact ha.inj j k hj hjk
  · have h1 := avail_fresh ha.inv hg
    have h2 := ha.avail
    dsimp only
    unfold pagesAt at h2 ⊢
    rw [if_pos (by omega)]
    split_ifs at h2 with h3
    · omega
    · unfold argTop at h3 hpt hedge
      omega
  · dsimp only at hg
    rw [hframes] at hg
    obtain rfl | hg := Finset.mem_insert.mp hg
    · exact fun hm => hf.notOwn (Finset.mem_union_left _ hm)
    · exact ha.notOwn g hg
  · dsimp only at hg ⊢
    rw [hframes] at hg
    rw [hf.memMap]
    obtain rfl | hg := Finset.mem_insert.mp hg
    · rw [if_pos rfl, ← ha.memMap _ (by rw [Nat.sub_add_cancel hf256]; exact hnot)]
      refine ⟨rfl, ?_⟩
      obtain ⟨n, hn, he⟩ := Option.map_eq_some_iff.mp ‹_›
      obtain ⟨rfl, -⟩ := Prod.mk.inj he
      rw [Nat.add_sub_cancel]
      exact (Mm.findFree_spec hn).2
    · have hr := ha.inv.refs.ownRange g (Finset.mem_union_right own hg)
      have hb := ha.inv.bounds
      rw [if_neg fun he => hnot (by rw [show f = g by omega]; exact hg)]
      exact ha.taken g hg
  · dsimp only at hn ⊢
    rw [hframes, Finset.mem_insert, not_or] at hn
    rw [hf.memMap, if_neg (by omega)]
    exact ha.memMap n hn.2
  · dsimp only at hg ⊢
    rw [hframes, Finset.mem_insert, not_or] at hg
    rw [hf.other g hg.1]
    exact ha.other g hg.2

/-! ## Copying -/

/-- No byte below this one gets a page. -/
def floor (s₀ : Mm.Mem) : ℕ := min argTop (4096 * (32 - avail s₀))

/-- All but memory, the argument pages and the fs register is as before. -/
def Beside (s s' : Kern) : Prop := s' = { s with mm := s'.mm, page := s'.page, fs := s'.fs }

theorem Beside.refl (s : Kern) : Beside s s := rfl

theorem Beside.trans {s s' s'' : Kern} (h : Beside s s') (h' : Beside s' s'') : Beside s s'' := by
  unfold Beside at h h' ⊢
  rw [h', h]

/-- What a cursor says of the page it is in. -/
def Cursor.Ok (x : Cursor) (s : Kern) : Prop :=
  x.offset = 0 ∨ x.p < argTop ∧ x.offset = (x.p % 4096 : ℕ) ∧ s.page (x.p / 4096) = x.pag

/-- How the copy of `l`, last byte of the area first, ends: in front of its first byte, without
    memory, or with an index outside `page[]`. Between bytes fs is `g`. -/
def Copies (lo hi : ℕ) (own : Finset ℕ) (s₀ : Mm.Mem) (old g : Seg) (l : List UInt8) (x : Cursor) (s : Kern)
    (o : Out Kern Halted (Option Cursor)) : Prop :=
  (l.length + floor s₀ ≤ x.p ∧ ∃ y s', o = .ok (some y) s' ∧ y.p = x.p - l.length ∧ y.Ok s' ∧
      Args lo hi own s₀ y.p s' ∧ Beside s s' ∧ s'.fs = g ∧
      (∀ k (_ : k < l.length), s'.argByte (x.p - 1 - k) = l[k].toNat) ∧
      ∀ q, x.p ≤ q → q < argTop → s'.argByte q = s.argByte q) ∨
    (x.p < l.length + floor s₀ ∧ 0 < floor s₀ ∧ ∃ s', o = .ok none s' ∧ Args lo hi own s₀ (floor s₀) s' ∧ Beside s s' ∧
      s'.fs = old) ∨
    (x.p < l.length ∧ floor s₀ = 0 ∧ o = .stop .index)

theorem argByte_fs (s : Kern) (g : Seg) (q : ℕ) : Kern.argByte { s with fs := g } q = s.argByte q := rfl

theorem Args.setFs (ha : Args lo hi own s₀ p s) (g : Seg) : Args lo hi own s₀ p { s with fs := g } :=
  ⟨ha.inv, ha.there, ha.inj, ha.avail, ha.notOwn, ha.taken, ha.memMap, ha.other, ha.dir, ha.pte, ha.high⟩

theorem Args.floor_le (ha : Args lo hi own s₀ p s) (hpt : p ≤ argTop) : floor s₀ ≤ p := by
  have h1 := ha.avail
  unfold pagesAt at h1
  unfold floor
  split_ifs at h1 with hp
  · exact (Nat.min_le_right _ _).trans (by omega)
  · exact (Nat.min_le_left _ _).trans (by omega)

/-- The byte below is in a page that is there already. -/
theorem Args.down (ha : Args lo hi own s₀ p s) (hp : 0 < p) (h0 : s.page ((p - 1) / 4096) ≠ 0) :
    Args lo hi own s₀ (p - 1) s := by
  have hthere := (ha.there _).mp h0
  have hdiv : p / 4096 = (p - 1) / 4096 := by omega
  refine ⟨ha.inv, fun i => ?_, ha.inj, ?_, ha.notOwn, ha.taken, ha.memMap, ha.other, ha.dir, ha.pte, ha.high⟩
  · rw [ha.there, hdiv]
    have := hthere.1
    exact ⟨fun h => ⟨by omega, h.2⟩, fun h => ⟨hthere.1, h.2⟩⟩
  · have := hthere.1
    rw [← ha.avail]
    unfold pagesAt
    rw [if_pos (by omega), if_pos hthere.1, hdiv]

/-- No page is left for the byte below. -/
theorem Args.full (ha : Args lo hi own s₀ p s) (hp : 0 < p) (hpt : p ≤ argTop) (h0 : s.page ((p - 1) / 4096) = 0)
    (hno : Exec.avail s.mm = 0) : floor s₀ = p := by
  have h1 := ha.avail
  rw [hno, Nat.zero_add] at h1
  unfold pagesAt at h1
  unfold floor
  split_ifs at h1 with ht
  · -- all pages from `p` up are there and no more can be had
    have hedge : p / 4096 = (p - 1) / 4096 + 1 := by
      by_contra hne
      exact (ha.there ((p - 1) / 4096)).mpr ⟨ht, by omega, by unfold argTop at hpt; omega⟩ h0
    rw [Nat.min_eq_right (by unfold argTop at ht ⊢; omega)]
    unfold argTop at ht
    omega
  · rw [← h1, Nat.min_eq_left (by decide)]
    omega

theorem pred_eq (hp : p ≠ 0) (hpt : p ≤ argTop) : pred p = p - 1 := by
  unfold pred
  unfold argTop at hpt
  omega

/-- The page of the next byte: there or new, out of memory, or beyond the array. -/
theorem argPage_spec (ha : Args lo hi own s₀ p s) (hpt : p ≤ argTop) :
    (1 + floor s₀ ≤ p ∧ ∃ f s', argPage (pred p / 4096) s = .ok (some f) s' ∧
      Args lo hi own s₀ (p - 1) s' ∧ s'.page ((p - 1) / 4096) = f ∧ f ≠ 0 ∧ Beside s s' ∧ s'.fs = s.fs ∧
      ∀ q, p ≤ q → q < argTop → s'.argByte q = s.argByte q) ∨
    (p < 1 + floor s₀ ∧ 0 < floor s₀ ∧ argPage (pred p / 4096) s = .ok none s ∧
      Args lo hi own s₀ (floor s₀) s) ∨
    (p < 1 ∧ floor s₀ = 0 ∧ argPage (pred p / 4096) s = .stop .index) := by
  by_cases hp : p = 0
  · subst hp
    have hfl := ha.floor_le (by decide)
    exact Or.inr (Or.inr ⟨by decide, by omega, rfl⟩)
  have hidx : pred p = p - 1 := pred_eq hp hpt
  have hlow : (p - 1) / 4096 < 32 := by unfold argTop at hpt; omega
  rw [hidx]
  by_cases h0 : s.page ((p - 1) / 4096) = 0
  · cases hg : Mm.getFreePage s.mm with
    | none =>
      rw [ha.full (by omega) hpt h0 (getFreePage_eq_none.mp hg)]
      refine Or.inr (Or.inl ⟨by omega, by omega, ?_, ha⟩)
      unfold argPage
      rw [if_neg (by omega)]
      change (if s.page _ ≠ 0 then _ else _ : X (Option ℕ)) s = _
      rw [if_neg (not_not.mpr h0), hg]
      rfl
    | some r =>
      obtain ⟨f, mm⟩ := r
      have hf := Mm.getFreePage_spec ha.inv hg
      have hnew := ha.fresh (by omega) hpt h0 hg
      have hfl := hnew.floor_le (by omega)
      refine Or.inl ⟨by omega, f, _, ?_, hnew, Function.update_self .., ?_, rfl, rfl, fun q hq hqt => ?_⟩
      · unfold argPage
        rw [if_neg (by omega)]
        change (if s.page _ ≠ 0 then _ else _ : X (Option ℕ)) s = _
        rw [if_neg (not_not.mpr h0), hg]
        rfl
      · have := ha.inv.bounds.1.trans hf.range.1
        omega
      · have hq0 : s.page (q / 4096) ≠ 0 := (ha.there _).mpr ⟨by omega, by omega, by unfold argTop at hqt; omega⟩
        have hne : q / 4096 ≠ (p - 1) / 4096 := fun he => hq0 (by rw [he, h0])
        unfold Kern.argByte
        dsimp only
        rw [Function.update_of_ne hne, hf.other]
        exact fun he => hf.notOwn (Finset.mem_union_right own (he ▸ ha.mem_frames hq0))
  · have hnew := ha.down (by omega) h0
    have hfl := hnew.floor_le (by omega)
    refine Or.inl ⟨by omega, _, s, ?_, hnew, rfl, h0, rfl, rfl, fun _ _ _ => rfl⟩
    unfold argPage
    rw [if_neg (by omega)]
    change (if s.page _ ≠ 0 then _ else _ : X (Option ℕ)) s = _
    rw [if_pos h0]
    rfl

/-- fs between two bytes. -/
def between (kmem : ℕ) (old : Seg) : Seg := if kmem = 2 then .kernel else old

theorem storeByte_spec {y : Cursor} (ha : Args lo hi own s₀ y.p s) (hoff : y.offset = (y.p % 4096 : ℕ))
    (hpag : s.page (y.p / 4096) = y.pag) (h0 : y.pag ≠ 0) (c : UInt8) :
    ∃ s', storeByte s.fs c y s = .ok (some y) s' ∧ y.Ok s' ∧ Args lo hi own s₀ y.p s' ∧ Beside s s' ∧ s'.fs = s.fs ∧
      s'.argByte y.p = c.toNat ∧ ∀ q, q ≠ y.p → s'.argByte q = s.argByte q := by
  rw [← hpag] at h0
  have hthere := (ha.there _).mp h0
  refine ⟨{ s with mm := poke s.mm (s.page (y.p / 4096)) (y.p % 4096) c }, ?_, Or.inr ⟨hthere.1, hoff, hpag⟩,
    ha.poke h0 _ c, rfl, rfl, ?_, fun q hq => ?_⟩
  · unfold storeByte inSeg
    change (do
      (if s.fs = s.fs then pure () else Prog.halt .segment)
      Prog.modify fun s => { s with mm := poke s.mm y.pag y.offset.toNat c }
      pure (some y) : X (Option Cursor)) s = _
    rw [if_pos rfl, hoff, Int.toNat_natCast, hpag]
    rfl
  · rw [argByte_poke s ha.inj h0, if_pos rfl]
  · rw [argByte_poke s ha.inj h0, if_neg hq]

theorem setFsIf_run (b : Bool) (g : Seg) (s : Kern) :
    setFsIf b g s = .ok () { s with fs := if b then g else s.fs } := by
  cases b
  · rfl
  · rfl

theorem inSeg_run (s : Kern) : inSeg s.fs s = .ok () s := by
  change (if s.fs = s.fs then pure () else Prog.halt .segment : X Unit) s = _
  rw [if_pos rfl]
  rfl

theorem copyByte_spec {x : Cursor} {kmem : ℕ} {old : Seg} (ha : Args lo hi own s₀ x.p s) (hpt : x.p ≤ argTop) (hx : x.Ok s)
    (hfs : s.fs = between kmem old) (c : UInt8) :
    Copies lo hi own s₀ old s.fs [c] x s (copyByte kmem old s.fs c x s) := by
  by_cases hoff : x.offset - 1 < 0
  · -- another page begins
    unfold copyByte
    rw [if_pos hoff, Prog.bind_run (setFsIf_run _ old s)]
    set s1 : Kern := { s with fs := if decide (kmem = 2) then old else s.fs } with hs1
    have hfs1 : s1.fs = old := by
      rw [hs1, hfs]
      unfold between
      by_cases hk : kmem = 2
      · simp [hk]
      · simp [hk]
    have ha1 : Args lo hi own s₀ x.p s1 := ha.setFs _
    obtain ⟨hle, f, s2, he, ha2, hpg, hf0, hb, hfs2, hkeep⟩ | ⟨hlt, hpos, he, ha2⟩ | ⟨hlt, h0, he⟩ := argPage_spec ha1 hpt
    · have hpred : pred x.p = x.p - 1 := pred_eq (by omega) hpt
      rw [Prog.bind_run he]
      dsimp only
      rw [Prog.bind_run (setFsIf_run _ .kernel s2), hpred]
      set s3 : Kern := { s2 with fs := if decide (kmem = 2) then .kernel else s2.fs } with hs3
      have hfs3 : s3.fs = s.fs := by
        rw [hs3, hfs2, hfs1, hfs]
        unfold between
        by_cases hk : kmem = 2
        · simp [hk]
        · simp [hk]
      obtain ⟨s4, he4, hok, ha4, hb4, hfs4, hnew, hkeep4⟩ :=
        @storeByte_spec _ _ _ _ s3 ⟨x.p - 1, ((x.p - 1) % 4096 : ℕ), f⟩ (ha2.setFs _) rfl hpg hf0 c
      rw [hfs3] at he4 hfs4
      refine Or.inl ⟨by simpa using hle, _, s4, he4, rfl, hok, ha4, ?_, hfs4, fun k hk => ?_, fun q hq hqt => ?_⟩
      · exact (show Beside s s1 from rfl).trans (hb.trans ((show Beside s2 s3 from rfl).trans hb4))
      · have hk0 : k = 0 := by simpa using hk
        subst hk0
        exact hnew
      · rw [hkeep4 q (by dsimp only; omega)]
        exact hkeep q hq hqt
    · exact Or.inr (Or.inl ⟨hlt, hpos, s1, Prog.bind_run he, ha2, rfl, hfs1⟩)
    · exact Or.inr (Or.inr ⟨hlt, h0, Prog.bind_stop he⟩)
  · obtain h0 | ⟨hlt, hxo, hpg⟩ := hx
    · rw [h0] at hoff
      exact absurd (by decide) hoff
    -- the byte is in the page of the one before
    have hpos : 0 < x.p := by omega
    have hpred : pred x.p = x.p - 1 := pred_eq (by omega) hpt
    have hdiv : (x.p - 1) / 4096 = x.p / 4096 := by omega
    have hpg0 : s.page ((x.p - 1) / 4096) ≠ 0 := (ha.there _).mpr ⟨hlt, by omega, by unfold argTop at hlt; omega⟩
    have ha1 := ha.down hpos hpg0
    have hfl := ha1.floor_le (by omega)
    obtain ⟨s4, he4, hok, ha4, hb4, hfs4, hnew, hkeep4⟩ :=
      @storeByte_spec _ _ _ _ s ⟨x.p - 1, x.offset - 1, x.pag⟩ ha1 (by dsimp only; omega) (by dsimp only; rw [hdiv, hpg])
        (by rw [← hpg, ← hdiv]; exact hpg0) c
    unfold copyByte
    rw [if_neg hoff, hpred]
    refine Or.inl ⟨by simp only [List.length_singleton]; omega, _, s4, he4, rfl, hok, ha4, hb4, hfs4, fun k hk => ?_,
      fun q hq _ => ?_⟩
    · have hk0 : k = 0 := by simpa using hk
      subst hk0
      exact hnew
    · exact hkeep4 q (by dsimp only; omega)

theorem Copies.bind {x : Cursor} {old g : Seg} {l l' : List UInt8} {m : X (Option Cursor)} {f : Cursor → X (Option Cursor)}
    (hpt : x.p ≤ argTop) (h : Copies lo hi own s₀ old g l x s (m s))
    (hf : ∀ y s1, y.p ≤ argTop → y.Ok s1 → Args lo hi own s₀ y.p s1 → s1.fs = g →
      Copies lo hi own s₀ old g l' y s1 (f y s1)) :
    Copies lo hi own s₀ old g (l ++ l') x s ((do
      match ← m with
      | none => return none
      | some y => f y) s) := by
  have hlen : (l ++ l').length = l.length + l'.length := List.length_append
  obtain ⟨hle, y, s1, he, hy, hok, ha, hb, hfs, hnew, hkeep⟩ | ⟨hlt, hpos, s1, he, ha, hb, hfs⟩ | ⟨hlt, h0, he⟩ := h
  · rw [Prog.bind_run he]
    dsimp only
    obtain ⟨hle', z, s2, he', hz, hok', ha', hb', hfs', hnew', hkeep'⟩ | ⟨hlt', hpos', s2, he', ha', hb', hfs'⟩ |
      ⟨hlt', h0', he'⟩ := hf y s1 (by omega) hok ha hfs
    · refine Or.inl ⟨by omega, z, s2, he', by omega, hok', ha', hb.trans hb', hfs', fun k hk => ?_, fun q hq hqt => ?_⟩
      · by_cases hkl : k < l.length
        · rw [List.getElem_append_left hkl, ← hnew k hkl]
          exact hkeep' _ (by omega) (by omega)
        · rw [List.getElem_append_right (by omega), ← hnew' (k - l.length) (by omega)]
          congr 1
          omega
      · rw [hkeep' q (by omega) hqt, hkeep q hq hqt]
    · exact Or.inr (Or.inl ⟨by omega, hpos', s2, he', ha', hb.trans hb', hfs'⟩)
    · exact Or.inr (Or.inr ⟨by omega, h0', he'⟩)
  · exact Or.inr (Or.inl ⟨by omega, hpos, s1, Prog.bind_run he, ha, hb, hfs⟩)
  · exact Or.inr (Or.inr ⟨by omega, h0, Prog.bind_stop he⟩)

theorem Copies.nil {x : Cursor} (old : Seg) (ha : Args lo hi own s₀ x.p s) (hpt : x.p ≤ argTop) (hx : x.Ok s) :
    Copies lo hi own s₀ old s.fs [] x s (.ok (some x) s) :=
  Or.inl ⟨by rw [List.length_nil, Nat.zero_add]; exact ha.floor_le hpt, x, s, rfl, rfl, hx, ha, Beside.refl s, rfl,
    fun k hk => absurd hk (Nat.not_lt_zero k), fun _ _ _ => rfl⟩

theorem copyBytes_spec {kmem : ℕ} {old : Seg} (l : List UInt8) {x : Cursor} (ha : Args lo hi own s₀ x.p s)
    (hpt : x.p ≤ argTop) (hx : x.Ok s) (hfs : s.fs = between kmem old) :
    Copies lo hi own s₀ old s.fs l x s (copyBytes kmem old s.fs l x s) := by
  induction l generalizing x s with
  | nil =>
    rw [show copyBytes kmem old s.fs [] x s = .ok (some x) s from rfl]
    exact Copies.nil old ha hpt hx
  | cons c cs ih =>
    have hrun : copyBytes kmem old s.fs (c :: cs) x s = (do
        match ← copyByte kmem old s.fs c x with
        | none => return none
        | some y => copyBytes kmem old s.fs cs y : X (Option Cursor)) s := rfl
    rw [hrun, show c :: cs = [c] ++ cs from rfl]
    refine Copies.bind hpt (copyByte_spec ha hpt hx hfs c) fun y s1 hy hok ha1 hfs1 => ?_
    rw [← hfs1]
    exact ih ha1 hy hok (hfs1.trans hfs)

/-- The segments a call may be made with: `kmem` says where the pointers and the strings are. -/
def Vec.InReach (v : Vec) (kmem : ℕ) (old : Seg) : Prop :=
  v.table = (if kmem = 1 then .kernel else between kmem old) ∧ v.text = between kmem old

theorem copyString_spec {kmem : ℕ} {old : Seg} {v : Vec} (hv : v.InReach kmem old) (str : List UInt8) {x : Cursor}
    (ha : Args lo hi own s₀ x.p s) (hpt : x.p ≤ argTop) (hx : x.Ok s) (hfs : s.fs = between kmem old) :
    Copies lo hi own s₀ old s.fs (0 :: str.reverse) x s (copyString kmem old v str x s) := by
  obtain ⟨ht, htx⟩ := hv
  have h1 : copyString kmem old v str x s = copyBytes kmem old s.fs (0 :: str.reverse) x s := by
    have hin : ∀ s1 : Kern, s1.fs = v.table → inSeg v.table s1 = .ok () s1 := fun s1 h => by rw [← h]; exact inSeg_run s1
    have hback : ({ s with fs := if decide (kmem = 1) then old else if decide (kmem = 1) then .kernel else s.fs } : Kern) =
        s := by
      by_cases hk : kmem = 1
      · have ho : s.fs = old := by rw [hfs, between, if_neg (by omega)]
        simp [hk, ← ho]
      · simp [hk]
    unfold copyString
    rw [Prog.bind_run (setFsIf_run _ .kernel s), Prog.bind_run (hin _ ?_), Prog.bind_run (setFsIf_run _ old _)]
    · dsimp only
      rw [hback, htx, ← hfs, Prog.bind_run (inSeg_run s), if_neg (Nat.not_lt_zero _)]
    · dsimp only
      rw [ht, hfs]
      by_cases hk : kmem = 1
      · simp [hk]
      · simp [hk]
  rw [h1]
  exact copyBytes_spec _ ha hpt hx hfs

/-- The bytes of the strings in order. -/
def bytes (strs : List (List UInt8)) : List UInt8 := strs.flatMap fun str => str ++ [0]

theorem bytes_append (a b : List (List UInt8)) : bytes (a ++ b) = bytes a ++ bytes b := List.flatMap_append ..

theorem copyLoop_spec {kmem : ℕ} {old : Seg} {v : Vec} (hv : v.InReach kmem old) (strs : List (List UInt8)) {x : Cursor}
    (ha : Args lo hi own s₀ x.p s) (hpt : x.p ≤ argTop) (hx : x.Ok s) (hfs : s.fs = between kmem old) :
    Copies lo hi own s₀ old s.fs (bytes strs.reverse).reverse x s (copyLoop kmem old v strs x s) := by
  induction strs generalizing x s with
  | nil =>
    rw [show copyLoop kmem old v [] x s = .ok (some x) s from rfl]
    exact Copies.nil old ha hpt hx
  | cons str strs ih =>
    have hl : (bytes (str :: strs).reverse).reverse = (0 :: str.reverse) ++ (bytes strs.reverse).reverse := by
      rw [List.reverse_cons, bytes_append, List.reverse_append]
      simp [bytes]
    have hrun : copyLoop kmem old v (str :: strs) x s = (do
        match ← copyString kmem old v str x with
        | none => return none
        | some y => copyLoop kmem old v strs y : X (Option Cursor)) s := rfl
    rw [hl, hrun]
    refine Copies.bind hpt (copyString_spec hv str ha hpt hx hfs) fun y s1 hy hok ha1 hfs1 => ?_
    rw [← hfs1]
    exact ih ha1 hy hok (hfs1.trans hfs)

/-- The `p` at the end of a copy of these bytes and the state: with the bytes below the old `p`, with
    no memory left, or with an index outside `page[]`. -/
def Copied (lo hi : ℕ) (own : Finset ℕ) (s₀ : Mm.Mem) (l : List UInt8) (p : ℕ) (s : Kern) (o : Out Kern Halted ℕ) : Prop :=
  (l.length + floor s₀ ≤ p ∧ ∃ s', o = .ok (p - l.length) s' ∧ Args lo hi own s₀ (p - l.length) s' ∧ Beside s s' ∧
      s'.fs = s.fs ∧ (∀ k (_ : k < l.length), s'.argByte (p - l.length + k) = l[k].toNat) ∧
      ∀ q, p ≤ q → q < argTop → s'.argByte q = s.argByte q) ∨
    (p < l.length + floor s₀ ∧ 0 < floor s₀ ∧ ∃ s', o = .ok 0 s' ∧ Args lo hi own s₀ (floor s₀) s' ∧ Beside s s' ∧
      s'.fs = s.fs) ∨
    (p < l.length ∧ floor s₀ = 0 ∧ o = .stop .index)

theorem copyStrings_spec {argc : ℤ} {kmem : ℕ} {v : Vec} (hc : argc ≤ v.strs.length) (hv : v.InReach kmem s.fs)
    (ha : Args lo hi own s₀ p s) (hp : p ≠ 0) (hpt : p ≤ argTop) :
    Copied lo hi own s₀ (bytes (v.strs.take argc.toNat)) p s (copyStrings argc v p kmem s) := by
  set l := bytes (v.strs.take argc.toNat) with hl
  set s1 : Kern := { s with fs := if decide (kmem = 2) then .kernel else s.fs } with hs1
  have hfs1 : s1.fs = between kmem s.fs := by
    rw [hs1]
    unfold between
    by_cases hk : kmem = 2
    · simp [hk]
    · simp [hk]
  have hback : ∀ s' : Kern, s'.fs = s1.fs → (if decide (kmem = 2) then s.fs else s'.fs) = s.fs := by
    intro s' h
    rw [h, hfs1]
    unfold between
    by_cases hk : kmem = 2
    · simp [hk]
    · simp [hk]
  have hrun : copyStrings argc v p kmem s = (do
      match ← copyLoop kmem s.fs v (v.strs.take argc.toNat).reverse ⟨p, 0, 0⟩ with
      | none => return 0
      | some x =>
        setFsIf (kmem = 2) s.fs
        return x.p : X ℕ) s1 := by
    unfold copyStrings
    rw [if_neg hp, Prog.bind_run (Prog.get_run s), Prog.bind_run (setFsIf_run _ .kernel s),
      if_neg (by omega)]
  have hloop := copyLoop_spec hv (v.strs.take argc.toNat).reverse (x := ⟨p, 0, 0⟩) (ha.setFs _) hpt (Or.inl rfl) hfs1
  rw [List.reverse_reverse, ← hl] at hloop
  unfold Copied
  have hlen : l.reverse.length = l.length := List.length_reverse
  rw [hrun]
  obtain ⟨hle, y, s2, he, hy, -, ha2, hb, hfs, hnew, hkeep⟩ | ⟨hlt, hpos, s2, he, ha2, hb, hfs⟩ | ⟨hlt, h0, he⟩ := hloop
  · rw [Prog.bind_run he]
    dsimp only at hy hle hnew hkeep
    rw [hlen] at hy
    set s3 : Kern := { s2 with fs := if decide (kmem = 2) then s.fs else s2.fs } with hs3
    refine Or.inl ⟨by omega, s3, ?_, ?_, ?_, ?_, ?_, ?_⟩
    · exact (Prog.bind_run (setFsIf_run _ s.fs s2)).trans (by rw [hy]; rfl)
    · rw [← hy]
      exact ha2.setFs _
    · exact (show Beside s s1 from rfl).trans (hb.trans (show Beside s2 s3 from rfl))
    · exact hback s2 hfs
    · intro k hk
      have h1 := hnew (l.length - 1 - k) (by omega)
      rw [List.getElem_reverse] at h1
      rw [argByte_fs, show p - l.length + k = p - 1 - (l.length - 1 - k) by omega, h1]
      congr 2
      omega
    · intro q hq hqt
      exact hkeep q hq hqt
  · exact Or.inr (Or.inl ⟨by simp only at hlt; omega, hpos, s2, Prog.bind_run he, ha2, hb, hfs⟩)
  · exact Or.inr (Or.inr ⟨by simp only at hlt; omega, h0, Prog.bind_stop he⟩)

end Linux011.Exec
