/-
  malloc and free_s in any order, with the blocks in the hands of their callers: live blocks are
  apart from each other, the descriptors account for every object, and a page goes back with its last
  block.
-/
import Mathlib.Order.Interval.Finset.Nat
import Linux011.Malloc.Pages

namespace Linux011.Malloc

open Lib

variable {s s' : Sys} {h h' : Heap} {m m' : Bytes} {live live' : List (ℕ × ℕ)} {S S' : Shape} {b c : Fin 9} {x y : Bucket}
  {a d o p q len sz : ℕ} {l l' : List Bucket}

/-! ## Searches -/

theorem findBucket_some (hlen : len ≤ 4096) : ∃ b, findBucket len = some b := by
  cases hf : findBucket len with
  | some b => exact ⟨b, rfl⟩
  | none =>
    have h8 := List.find?_eq_none.mp hf 8 (List.mem_finRange 8)
    exact absurd (show len ≤ size 8 from hlen) (by simpa using h8)

theorem le_size (hb : findBucket len = some b) : len ≤ size b := by
  simpa using List.find?_some hb

theorem length_lt {f : List ℕ} (hnd : f.Nodup) (hf : ∀ d ∈ f, 0 < d ∧ d < addresses) : f.length < addresses := by
  have hsub : f.toFinset ⊆ Finset.Ioo 0 addresses := fun d hd => Finset.mem_Ioo.mpr (hf d (List.mem_toFinset.mp hd))
  have hcard := Finset.card_le_card hsub
  rw [List.toFinset_card_of_nodup hnd, Nat.card_Ioo] at hcard
  have hpos : 0 < addresses := by decide
  omega

namespace Rep

theorem chain_length (hr : Rep h live S) (b : Fin 9) : ((S.dir b).map Bucket.desc).length < addresses :=
  length_lt (hr.chains b).nodup fun d hd => by
    obtain ⟨-, -, -, -, -, h0, hlt⟩ := hr.desc_slot (chain_mem hd)
    omega

theorem freeptr_ne (hr : Rep h live S) (hx : x ∈ S.dir b) : freeptr h.mem x.desc ≠ 0 ↔ x.free ≠ [] := by
  have hhead := (hr.buckets b x hx).free.head
  constructor
  · intro h0 hnil
    rw [hnil, ptr_of_ne h0] at hhead
    cases hhead
  · intro hne h0
    rw [h0] at hhead
    exact hne (List.head?_eq_none_iff.mp hhead)

/-- The search of malloc finds the first bucket with a free object, or none has one. -/
theorem walk_free (hr : Rep h live S) (b : Fin 9) :
    let w := walk (fun d => ptr (next h.mem d)) (fun d => decide (freeptr h.mem d ≠ 0)) addresses none (ptr (h.chain b))
    (∃ r l x l' o f, w = some (r, some x.desc) ∧ S.dir b = l ++ x :: l' ∧ x.free = o :: f) ∨ ∃ r, w = some (r, none) := by
  have hlen := hr.chain_length b
  have hlink := hr.chains b
  rw [List.length_map] at hlen
  cases hfind : (S.dir b).find? fun x => decide (x.free ≠ []) with
  | none =>
    right
    refine hlink.walk_none (by rwa [List.length_map]) fun d hd => ?_
    obtain ⟨x, hx, rfl⟩ := List.mem_map.mp hd
    have hnil := List.find?_eq_none.mp hfind x hx
    rw [decide_eq_true_eq, ← hr.freeptr_ne hx] at hnil
    exact decide_eq_false hnil
  | some x =>
    left
    obtain ⟨hne, l, l', hl, hbefore⟩ := List.find?_eq_some_iff_append.mp hfind
    rw [decide_eq_true_eq] at hne
    obtain ⟨o, f, hf⟩ := List.exists_cons_of_ne_nil hne
    rw [hl, List.map_append, List.map_cons] at hlink
    rw [hl, List.length_append] at hlen
    refine ⟨_, l, x, l', o, f, hlink.walk_some (by rw [List.length_map]; omega) (fun d hd => ?_) ?_, hl, hf⟩
    · obtain ⟨y, hy, rfl⟩ := List.mem_map.mp hd
      have hnil := hbefore y hy
      rw [Bool.not_eq_true', decide_eq_false_iff_not, ← hr.freeptr_ne (b := b) (by simp [hl, hy])] at hnil
      exact decide_eq_false hnil
    · exact decide_eq_true ((hr.freeptr_ne (mem_at hl)).mpr hne)

/-- The search of free_s finds the descriptor of the page, and the one before it. -/
theorem search (hr : Rep h live S) (hl : S.dir b = l ++ x :: l') (hsz : sz ≤ size b) (bs : List (Fin 9)) (hb : b ∈ bs) :
    h.search x.page sz bs = .ok (b, (l.map Bucket.desc).getLast?, x.desc) := by
  induction bs with
  | nil => cases hb
  | cons c bs ih =>
    have hlen := hr.chain_length c
    have hlink := hr.chains c
    rw [List.length_map] at hlen
    unfold Heap.search
    by_cases hc : c = b
    · subst hc
      rw [hl, List.map_append, List.map_cons] at hlink
      rw [hl, List.length_append] at hlen
      have hw : walk (fun d => ptr (next h.mem d)) (fun d => decide (page h.mem d = x.page)) addresses none (ptr (h.chain c)) =
          some ((l.map Bucket.desc).getLast?.or none, some x.desc) := by
        refine hlink.walk_some (by rw [List.length_map]; omega) (fun d hd => ?_) ?_
        · obtain ⟨y, hy, rfl⟩ := List.mem_map.mp hd
          refine decide_eq_false fun he => ?_
          rw [(hr.buckets c y (by simp [hl, hy])).page] at he
          exact (hr.others (c := c) hl (by rw [setDir_dir, if_pos rfl]; simp [hy])).2 he
        · exact decide_eq_true (hr.buckets c x (mem_at hl)).page
      rw [if_neg (by omega), hw, Option.or_none]
    · have hrest := ih ((List.mem_cons.mp hb).resolve_left (Ne.symm hc))
      split_ifs with hskip
      · exact hrest
      · obtain ⟨r, hw⟩ := hlink.walk_none (P := fun d => decide (page h.mem d = x.page)) (q := none) (n := addresses)
          (by rwa [List.length_map]) fun d hd => by
            obtain ⟨y, hy, rfl⟩ := List.mem_map.mp hd
            refine decide_eq_false fun he => ?_
            rw [(hr.buckets c y hy).page] at he
            exact (hr.others (c := c) hl (by rwa [setDir_dir, if_neg hc])).2 he
        rw [hw]
        exact hrest

end Rep

/-! ## malloc and free_s -/

/-- The state between two calls: no page without a live block is kept. -/
structure Sys.Inv (s : Sys) (S : Shape) : Prop where
  rep : Rep s.heap s.live S
  used : ∀ b, ∀ x ∈ S.dir b, liveIn s.live x.page ≠ []

theorem liveIn_cons_ne {u : ℕ × ℕ} {pg : ℕ} (hne : liveIn live pg ≠ []) : liveIn (u :: live) pg ≠ [] := by
  rw [liveIn_cons]
  split_ifs
  · exact List.cons_ne_nil _ _
  · exact hne

/-- The taken object makes its own page used. -/
theorem Rep.take_used {f : List ℕ} (hr : Rep h live S) (hl : S.dir b = l ++ x :: l') (hf : x.free = o :: f)
    (hused : ∀ c, ∀ y ∈ (S.setDir b (l ++ l')).dir c, liveIn live y.page ≠ []) :
    ∀ c, ∀ y ∈ (S.setDir b (l ++ { x with free := f } :: l')).dir c, liveIn ((o, len) :: live) y.page ≠ [] := by
  intro c y hy
  have hpo := (hr.object (mem_at hl) (o := o) (by simp [hf])).1
  obtain ⟨-, rfl⟩ | hy := mem_replace hy
  · rw [liveIn_cons, if_pos hpo]
    exact List.cons_ne_nil _ _
  · exact liveIn_cons_ne (hused c y hy)

/-- The pool has a descriptor when newBucket is called. -/
theorem Rep.filled (hr : Rep h live S) (hp : h.Fresh p) (hq : h.Fresh q) (hpq : p ≠ q) :
    ∃ h₁ S₁, (h.freeBucketDesc = 0 ∧ h.initBucketDesc p = .ok h₁ ∨ h.freeBucketDesc ≠ 0 ∧ h₁ = h) ∧ Rep h₁ live S₁ ∧
      S₁.dir = S.dir ∧ S₁.pool ≠ [] ∧ h₁.Fresh q ∧ h₁.freed = h.freed := by
  by_cases h0 : h.freeBucketDesc = 0
  · obtain ⟨h₁, hrun, hr₁, -, -, hheld, hfreed⟩ := hr.init hp h0
    refine ⟨h₁, _, Or.inl ⟨h0, hrun⟩, hr₁, rfl, List.cons_ne_nil _ _, ⟨hq.1, hq.2.1, hq.2.2.1, ?_⟩, hfreed⟩
    rw [hheld, List.mem_cons]
    exact not_or.mpr ⟨Ne.symm hpq, hq.2.2.2⟩
  · refine ⟨h, S, Or.inr ⟨h0, rfl⟩, hr, rfl, fun hnil => ?_, hq, rfl⟩
    have hhead := hr.pool.head
    rw [hnil, ptr_of_ne h0] at hhead
    cases hhead

theorem objectsOf_ne (b : Fin 9) (pg : ℕ) : ∃ f, objectsOf b pg = pg :: f := by
  obtain ⟨N, hN, -⟩ := cut_up b
  rw [objectsOf, hN]
  exact ⟨_, rfl⟩

theorem Sys.Inv.malloc (hi : s.Inv S) (hlen : len ≤ 4096) (hp : s.heap.Fresh p) (hq : s.heap.Fresh q) (hpq : p ≠ q) :
    ∃ s' S', s.run (.malloc len p q) = .ok s' ∧ s'.Inv S' ∧ s'.heap.freed = s.heap.freed := by
  obtain ⟨b, hb⟩ := findBucket_some hlen
  obtain ⟨r, l, x, l', o, f, hw, hl, hf⟩ | ⟨r, hw⟩ := hi.rep.walk_free b
  · obtain ⟨ho, hr⟩ := hi.rep.take hl hf hb
    have hrun : s.run (.malloc len p q) = .ok ⟨(s.heap.takeObject x.desc).2, (o, len) :: s.live⟩ := by
      unfold Sys.run Heap.malloc
      dsimp only
      rw [hb]
      dsimp only
      rw [hw, ← ho]
      rfl
    refine ⟨_, _, hrun, ⟨hr, hi.rep.take_used hl hf fun c y hy => hi.used c y (mem_of_split hl hy)⟩, rfl⟩
  · obtain ⟨h₁, S₁, hfill, hr₁, hdir, hne, hq₁, hfreed₁⟩ := hi.rep.filled hp hq hpq
    obtain ⟨d, g, hpool⟩ := List.exists_cons_of_ne_nil hne
    obtain ⟨h₂, hnew, hr₂, -, hfreed₂⟩ := hr₁.new hq₁ hpool b
    obtain ⟨f, hf⟩ := objectsOf_ne b q
    have hl : ({ S₁ with pool := g }.setDir b (⟨d, q, objectsOf b q⟩ :: S₁.dir b)).dir b = [] ++ ⟨d, q, objectsOf b q⟩ :: S.dir b := by
      rw [setDir_dir, if_pos rfl, hdir]
      rfl
    obtain ⟨ho, hr⟩ := hr₂.take hl hf hb
    have hrun : s.run (.malloc len p q) = .ok ⟨(h₂.takeObject d).2, (q, len) :: s.live⟩ := by
      unfold Sys.run Heap.malloc
      dsimp only
      rw [hb]
      dsimp only
      rw [hw]
      have hend := congrArg (fun a => (Except.ok ⟨(h₂.takeObject d).2, (a, len) :: s.live⟩ : Except Fault Sys)) ho
      obtain ⟨h0, hinit⟩ | ⟨h0, rfl⟩ := hfill
      · dsimp only
        rw [if_pos h0, hinit]
        change ((h₁.newBucket b q).bind _).bind _ = _
        rw [hnew]
        exact hend
      · dsimp only
        rw [if_neg h0]
        change ((s.heap.newBucket b q).bind _).bind _ = _
        rw [hnew]
        exact hend
    refine ⟨_, _, hrun, ⟨hr, hr₂.take_used hl hf fun c y hy => hi.used c y ?_⟩, hfreed₂.trans hfreed₁⟩
    rw [setDir_dir] at hy
    split_ifs at hy with hc
    · rw [hc]
      exact hy
    · rw [setDir_dir, if_neg hc] at hy
      exact hdir ▸ hy

theorem liveIn_eq_nil {pg : ℕ} : liveIn live pg = [] ↔ ∀ u ∈ live, pageOf u.1 ≠ pg := by
  unfold liveIn
  rw [List.filter_eq_nil_iff]
  simp

theorem liveIn_erase {pg : ℕ} (ho : (o, len) ∈ live) (hne : pageOf o ≠ pg) :
    (liveIn live pg).Perm (liveIn (live.erase (o, len)) pg) := by
  have hp := liveIn_perm (List.perm_cons_erase ho) pg
  rwa [liveIn_cons, if_neg hne] at hp

/-- After the block at `o` is freed, no other block of its page is live. -/
def Sys.Last (s : Sys) (o : ℕ) : Prop := ∀ u ∈ s.live, pageOf u.1 ≠ pageOf o

instance (o : ℕ) : Decidable (s.Last o) := inferInstanceAs (Decidable (∀ u ∈ s.live, pageOf u.1 ≠ pageOf o))

theorem Sys.Inv.freeS (hi : s.Inv S) (ho : (o, len) ∈ s.live) (hsz : sz = 0 ∨ sz = len) :
    ∃ s' S', s.run (.freeS o len sz) = .ok s' ∧ s'.Inv S' ∧
      s'.heap.freed = (if s'.Last o then [pageOf o] else []) ++ s.heap.freed ∧
      ∀ c, (S'.dir c).map Bucket.desc = ((S.dir c).filter fun y => ¬(s'.Last o ∧ y.page = pageOf o)).map Bucket.desc := by
  obtain ⟨b, hb, x, hx, hpo⟩ := hi.rep.live _ ho
  dsimp only at hb hpo
  obtain ⟨l, l', hl⟩ := List.append_of_mem hx
  obtain ⟨hr₁, href⟩ := hi.rep.put hl ho hpo
  have hle := le_size hb
  have hsearch := hi.rep.search hl (show sz ≤ size b by omega) (List.finRange 9) (List.mem_finRange b)
  rw [← hpo] at hsearch
  have hother : ∀ c, ∀ y ∈ (S.setDir b (l ++ l')).dir c, y.page ≠ pageOf o := fun c y hy =>
    hpo ▸ (hi.rep.others hl hy).2
  have hkeeps : ∀ c, ∀ y ∈ (S.setDir b (l ++ l')).dir c, liveIn (s.live.erase (o, len)) y.page ≠ [] := by
    intro c y hy hnil
    have hp := liveIn_erase ho (hother c y hy).symm
    rw [hnil] at hp
    exact hi.used c y (mem_of_split hl hy) hp.eq_nil
  by_cases hz : refcnt (s.heap.putObject o x.desc).mem x.desc = 0
  · have hnil : liveIn (s.live.erase (o, len)) x.page = [] := List.length_eq_zero_iff.mp (href.symm.trans hz)
    have hl₁ : (S.setDir b (l ++ { x with free := o :: x.free } :: l')).dir b = l ++ { x with free := o :: x.free } :: l' := by
      rw [setDir_dir, if_pos rfl]
    obtain ⟨h', hdrop, hr', hfreed⟩ := hr₁.drop hl₁ hnil
    have hrun : s.run (.freeS o len sz) = .ok ⟨h', s.live.erase (o, len)⟩ := by
      unfold Sys.run Heap.freeS
      dsimp only
      rw [hsearch]
      change (if refcnt (s.heap.putObject o x.desc).mem x.desc = 0 then _ else _) >>= _ = _
      rw [if_pos hz, hdrop]
      rfl
    have hlast : Sys.Last ⟨h', s.live.erase (o, len)⟩ o := by
      unfold Sys.Last
      rw [hpo]
      exact liveIn_eq_nil.mp hnil
    have hshape : Rep h' (s.live.erase (o, len)) ({ S with pool := x.desc :: S.pool }.setDir b (l ++ l')) := by
      unfold Shape.setDir at hr' ⊢
      dsimp only at hr'
      rwa [Function.update_idem] at hr'
    refine ⟨_, _, hrun, ⟨hshape, hkeeps⟩, ?_, fun c => ?_⟩
    · rw [if_pos hlast, hpo]
      exact hfreed
    · have hall : ∀ y ∈ (S.setDir b (l ++ l')).dir c, ¬(Sys.Last ⟨h', s.live.erase (o, len)⟩ o ∧ y.page = pageOf o) :=
        fun y hy hno => hother c y hy hno.2
      refine congrArg (List.map Bucket.desc) ?_
      change (S.setDir b (l ++ l')).dir c = _
      by_cases hc : c = b
      · subst hc
        rw [setDir_dir, if_pos rfl] at hall ⊢
        rw [hl, List.filter_append, List.filter_cons_of_neg (by simp [hlast, hpo]), ← List.filter_append]
        exact (List.filter_eq_self.mpr fun y hy => decide_eq_true (hall y hy)).symm
      · rw [setDir_dir, if_neg hc] at hall ⊢
        exact (List.filter_eq_self.mpr fun y hy => decide_eq_true (hall y hy)).symm
  · have hrun : s.run (.freeS o len sz) = .ok ⟨s.heap.putObject o x.desc, s.live.erase (o, len)⟩ := by
      unfold Sys.run Heap.freeS
      dsimp only
      rw [hsearch]
      change (if refcnt (s.heap.putObject o x.desc).mem x.desc = 0 then _ else _) >>= _ = _
      rw [if_neg hz]
      rfl
    have hne : liveIn (s.live.erase (o, len)) x.page ≠ [] := fun hnil => hz (by rw [href, hnil]; rfl)
    have hlast : ¬Sys.Last ⟨s.heap.putObject o x.desc, s.live.erase (o, len)⟩ o := by
      unfold Sys.Last
      rw [hpo]
      exact fun h => hne (liveIn_eq_nil.mpr h)
    refine ⟨_, _, hrun, ⟨hr₁, fun c y hy => ?_⟩, ?_, fun c => ?_⟩
    · obtain ⟨-, rfl⟩ | hy := mem_replace hy
      · exact hne
      · exact hkeeps c y hy
    · rw [if_neg hlast]
      rfl
    · have hkept : ((S.dir c).filter fun y => ¬(Sys.Last ⟨s.heap.putObject o x.desc, s.live.erase (o, len)⟩ o ∧ y.page = pageOf o)) =
          S.dir c := List.filter_eq_self.mpr fun y _ => decide_eq_true fun h => hlast h.1
      rw [hkept, setDir_dir]
      split_ifs with hc
      · rw [hc, hl]
        simp
      · rfl

/-! ## Blocks -/

/-- The size of the bucket that a block of this length comes from. -/
def blockSize (len : ℕ) : ℕ := (findBucket len).elim 0 size

/-- Where a live block lies. -/
theorem Rep.block (hr : Rep h live S) {u : ℕ × ℕ} (hu : u ∈ live) : ∃ b x, blockSize u.2 = size b ∧ u.2 ≤ size b ∧
    x ∈ S.dir b ∧ u.1 ∈ liveIn live x.page ∧ pageOf u.1 = x.page ∧ x.page ≤ u.1 ∧ u.1 + size b ≤ x.page + 4096 ∧ size b ∣ u.1 := by
  obtain ⟨b, hb, x, hx, hp⟩ := hr.live u hu
  have hm : u.1 ∈ liveIn live x.page := List.mem_filter.mpr ⟨List.mem_map_of_mem hu, decide_eq_true hp⟩
  obtain ⟨-, -, hge, hlt, hdvd⟩ := hr.object hx (List.mem_append_right _ hm)
  exact ⟨b, x, by rw [blockSize, hb]; rfl, le_size hb, hx, hm, hp, hge, hlt, hdvd⟩

/-- Two places at multiples of the same size do not overlap. -/
theorem apart_of_dvd {n : ℕ} (ha : n ∣ a) (hd : n ∣ d) (hne : a ≠ d) : a + n ≤ d ∨ d + n ≤ a := by
  obtain ⟨i, rfl⟩ := ha
  obtain ⟨j, rfl⟩ := hd
  obtain hij | hij := lt_or_gt_of_ne fun he : i = j => hne (he ▸ rfl)
  · exact Or.inl (Nat.mul_succ n i ▸ Nat.mul_le_mul_left n hij)
  · exact Or.inr (Nat.mul_succ n j ▸ Nat.mul_le_mul_left n hij)

/-- The same page is the same bucket. -/
theorem Rep.page_inj (hr : Rep h live S) (hx : x ∈ S.dir b) (hy : y ∈ S.dir c) (he : y.page = x.page) : c = b ∧ y = x := by
  obtain ⟨l, l', hl⟩ := List.append_of_mem hx
  exact (mem_split hl hy).resolve_right fun hy => (hr.others hl hy).2 he

/-- A byte of a live block is in the page of the block. -/
theorem Sys.Inv.inBlock_page (hi : s.Inv S) (ha : s.InBlock a) : ∃ u ∈ s.live, u.1 ≤ a ∧ a < u.1 + u.2 ∧ pageOf a = pageOf u.1 := by
  obtain ⟨u, hu, h1, h2⟩ := ha
  obtain ⟨b, x, -, hlen, hx, -, hp, hge, hlt, -⟩ := hi.rep.block hu
  obtain ⟨-, -, hp4, hpl⟩ := hi.rep.page_frame hx
  exact ⟨u, hu, h1, h2, (pageOf_of_mem hp4 hpl (by omega) (by omega)).trans hp.symm⟩

/-- What callers write leaves the descriptors and the free objects alone. -/
theorem Sys.Inv.write (hi : s.Inv S) (hw : s.Allows (.write m)) : Sys.Inv { s with heap := { s.heap with mem := m } } S := by
  have hdesc : ∀ d ∈ S.pool ++ S.buckets.map Bucket.desc, SameAt s.heap.mem m d := fun d hd i hi' => by
    obtain ⟨p, -, hheld, hpd, h16, -, hlt⟩ := hi.rep.desc_slot hd
    obtain ⟨-, hp4, hpl⟩ := hi.rep.frames p hheld
    rw [pageOf_eq (by omega)] at hpd
    refine hw p hheld _ (by omega) (by omega) fun hin => ?_
    obtain ⟨u, hu, -, -, hpu⟩ := hi.inBlock_page hin
    obtain ⟨b, x, -, -, hx, -, hp, -⟩ := hi.rep.block hu
    refine hi.rep.page_ne hx hd ?_
    rw [← hp, ← hpu, pageOf_eq (by omega), pageOf_eq (by omega)]
    omega
  refine ⟨⟨hi.rep.held, hi.rep.nodup, hi.rep.frames, hi.rep.descs, ?_, fun b => ?_, fun b x hx => ?_, hi.rep.live⟩, hi.used⟩
  · exact hi.rep.pool.congr fun d hd => congrArg ptr (hdesc d (List.mem_append_left _ hd)).next
  · exact (hi.rep.chains b).congr fun d hd => congrArg ptr (hdesc d (Rep.chain_mem hd)).next
  · refine (hi.rep.buckets b x hx).congr (hdesc _ (Rep.mem_desc hx)).data (fun o ho i hi' => ?_) (List.Perm.refl _)
    obtain ⟨hpo, -, hge, hlt, hdvd⟩ := hi.rep.object hx (List.mem_append_left _ ho)
    obtain ⟨hheld, -, hp4, hpl⟩ := hi.rep.page_frame hx
    have hsize := (size_facts b).1
    refine hw x.page hheld _ (by omega) (by omega) fun hin => ?_
    obtain ⟨u, hu, h1, h2, hpu⟩ := hi.inBlock_page hin
    obtain ⟨c, y, -, hlen, hy, hm, hp, -, -, hdvd'⟩ := hi.rep.block hu
    have hpage : y.page = x.page := by
      rw [← hp, ← hpu]
      exact pageOf_of_mem hp4 hpl (by omega) (by omega)
    obtain ⟨rfl, rfl⟩ := hi.rep.page_inj hx hy hpage
    have hne : o ≠ u.1 := (List.nodup_append.mp (hi.rep.objects_nodup hx)).2.2 o ho _ hm
    obtain hap | hap := apart_of_dvd hdvd hdvd' hne <;> omega

theorem inv_init (h : s.Init) : s.Inv ⟨fun _ => [], [], []⟩ := by
  obtain ⟨hc, hf, hh, hl⟩ := h
  refine ⟨⟨?_, ?_, ?_, ?_, ?_, fun b => ?_, fun b x hx => ?_, ?_⟩, fun b x hx => ?_⟩
  · rw [hh]
    exact List.Perm.refl _
  · rw [hh]
    exact List.nodup_nil
  · intro p hp
    rw [hh] at hp
    cases hp
  · exact List.Perm.refl _
  · rw [hf]
    rfl
  · rw [hc]
    rfl
  · cases hx
  · intro u hu
    rw [hl] at hu
    cases hu
  · cases hx

theorem reachable_inv (h : system.Reachable s) : ∃ S, s.Inv S := by
  refine h.invariant (I := fun s => ∃ S, s.Inv S) (fun s hs => ⟨_, inv_init hs⟩) fun s e s' _ hi hs => ?_
  obtain ⟨S, hi⟩ := hi
  obtain ⟨hal, hrun⟩ := hs
  cases e with
  | malloc len p q =>
    obtain ⟨t, S', ht, hi', -⟩ := hi.malloc hal.1 hal.2.1 hal.2.2.1 hal.2.2.2
    cases ht.symm.trans hrun
    exact ⟨S', hi'⟩
  | freeS o len sz =>
    obtain ⟨t, S', ht, hi', -⟩ := hi.freeS hal.1 hal.2
    cases ht.symm.trans hrun
    exact ⟨S', hi'⟩
  | write m =>
    cases hrun
    exact ⟨S, hi.write hal⟩

/-! ## The whole allocator -/

/-- Live blocks do not overlap; each is long enough, aligned to the size of its bucket, and in one page. -/
structure Sys.Blocks (s : Sys) : Prop where
  apart : s.live.Pairwise fun u v => u.1 + blockSize u.2 ≤ v.1 ∨ v.1 + blockSize v.2 ≤ u.1
  fits : ∀ u ∈ s.live, u.2 ≤ blockSize u.2 ∧ blockSize u.2 ∣ u.1 ∧ pageOf (u.1 + blockSize u.2 - 1) = pageOf u.1

/-- The descriptors on the nine chains and in the pool are those of the descriptor pages, each once.
    One on a chain lists the free objects of its page and counts the live ones, of which there are
    some; the pages held are those of the descriptors on the chains and the descriptor pages. -/
structure Sys.Descs (s : Sys) (chain : Fin 9 → List ℕ) (pool pages : List ℕ) : Prop where
  chains : ∀ b, IsLinked (fun d => ptr (next s.heap.mem d)) (ptr (s.heap.chain b)) (chain b)
  unused : IsLinked (fun d => ptr (next s.heap.mem d)) (ptr s.heap.freeBucketDesc) pool
  size : ∀ b, ∀ d ∈ chain b, bucketSize s.heap.mem d = size b
  free : ∀ b, ∀ d ∈ chain b, ∃ f, IsLinked (fun o => ptr (s.heap.mem.load 4 o)) (ptr (freeptr s.heap.mem d)) f ∧
    (f ++ liveIn s.live (page s.heap.mem d)).Perm (objectsOf b (page s.heap.mem d))
  refcnt : ∀ b, ∀ d ∈ chain b, refcnt s.heap.mem d = (liveIn s.live (page s.heap.mem d)).length ∧ 0 < refcnt s.heap.mem d
  owner : ∀ u ∈ s.live, ∃ b, blockSize u.2 = Malloc.size b ∧ ∃ d ∈ chain b, page s.heap.mem d = pageOf u.1
  all : (pool ++ (List.finRange 9).flatMap chain).Perm (pages.flatMap slots)
  held : s.heap.held.Perm (pages ++ ((List.finRange 9).flatMap chain).map (page s.heap.mem))
  once : s.heap.held.Nodup

theorem Sys.Inv.live_nodup (hi : s.Inv S) : (s.live.map Prod.fst).Nodup := by
  refine List.nodup_iff_count_le_one.mpr fun a => ?_
  by_cases ha : a ∈ s.live.map Prod.fst
  · obtain ⟨u, hu, rfl⟩ := List.mem_map.mp ha
    obtain ⟨b, x, -, -, hx, -, hp, -⟩ := hi.rep.block hu
    have hnd := (List.nodup_append.mp (hi.rep.objects_nodup hx)).2.1
    have hcount := List.nodup_iff_count_le_one.mp hnd u.1
    rwa [liveIn, List.count_filter (p := fun a => decide (pageOf a = x.page)) (decide_eq_true hp)] at hcount
  · rw [List.count_eq_zero.mpr ha]
    exact Nat.zero_le 1

theorem Sys.Inv.blocks (hi : s.Inv S) : s.Blocks := by
  refine ⟨?_, fun u hu => ?_⟩
  · refine (List.pairwise_map.mp hi.live_nodup).imp_of_mem fun {u v} hu hv hne => ?_
    obtain ⟨b, x, hsb, -, hx, -, -, hge, hlt, hdvd⟩ := hi.rep.block hu
    obtain ⟨c, y, hsc, -, hy, -, -, hge', hlt', hdvd'⟩ := hi.rep.block hv
    obtain ⟨-, -, hp4, -⟩ := hi.rep.page_frame hx
    obtain ⟨-, -, hp4', -⟩ := hi.rep.page_frame hy
    rw [hsb, hsc]
    by_cases hpg : y.page = x.page
    · obtain ⟨rfl, rfl⟩ := hi.rep.page_inj hx hy hpg
      exact apart_of_dvd hdvd hdvd' hne
    · omega
  · obtain ⟨b, x, hsb, hlen, hx, -, hp, hge, hlt, hdvd⟩ := hi.rep.block hu
    obtain ⟨-, -, hp4, hpl⟩ := hi.rep.page_frame hx
    have hsize := (size_facts b).1
    rw [hsb, hp]
    exact ⟨hlen, hdvd, pageOf_of_mem hp4 hpl (by omega) (by omega)⟩

theorem Sys.Inv.descs (hi : s.Inv S) : s.Descs (fun b => (S.dir b).map Bucket.desc) S.pool S.pages := by
  have hflat : (List.finRange 9).flatMap (fun b => (S.dir b).map Bucket.desc) = S.buckets.map Bucket.desc := by
    rw [Shape.buckets, List.map_flatMap]
  have hpages : (S.buckets.map Bucket.desc).map (page s.heap.mem) = S.buckets.map Bucket.page := by
    rw [List.map_map]
    refine List.map_congr_left fun x hx => ?_
    obtain ⟨b, hx⟩ := mem_buckets.mp hx
    exact (hi.rep.buckets b x hx).page
  have hbucket : ∀ b, ∀ d ∈ (S.dir b).map Bucket.desc, ∃ x ∈ S.dir b, x.desc = d ∧ page s.heap.mem d = x.page ∧
      BucketOk s.heap.mem s.live b x := fun b d hd => by
    obtain ⟨x, hx, rfl⟩ := List.mem_map.mp hd
    exact ⟨x, hx, rfl, (hi.rep.buckets b x hx).page, hi.rep.buckets b x hx⟩
  refine ⟨hi.rep.chains, hi.rep.pool, fun b d hd => ?_, fun b d hd => ?_, fun b d hd => ?_, fun u hu => ?_, ?_, ?_, hi.rep.nodup⟩
  · obtain ⟨x, -, rfl, -, hok⟩ := hbucket b d hd
    exact hok.size
  · obtain ⟨x, -, rfl, hp, hok⟩ := hbucket b d hd
    rw [hp]
    exact ⟨x.free, hok.free, hok.objects⟩
  · obtain ⟨x, hx, rfl, hp, hok⟩ := hbucket b d hd
    rw [hp, hok.refcnt]
    exact ⟨rfl, List.length_pos_iff.mpr (hi.used b x hx)⟩
  · obtain ⟨b, x, hsb, -, hx, -, hp, -⟩ := hi.rep.block hu
    exact ⟨b, hsb, x.desc, List.mem_map_of_mem hx, (hi.rep.buckets b x hx).page.trans hp.symm⟩
  · rw [hflat]
    exact hi.rep.descs
  · rw [hflat, hpages]
    exact hi.rep.held

/-- Between two calls the blocks are sound and the descriptors account for all of memory. malloc always
    returns and frees no page; free_s always finds the descriptor, and hands the page to free_page, with
    its descriptor taken off the chain, exactly when its last live block goes. -/
theorem kernel_malloc (hs : system.Reachable s) : s.Blocks ∧ (∃ chain pool pages, s.Descs chain pool pages) ∧
    (∀ len p q, s.Allows (.malloc len p q) → ∃ s', s.run (.malloc len p q) = .ok s' ∧ s'.heap.freed = s.heap.freed) ∧
    ∀ obj len sz, s.Allows (.freeS obj len sz) → ∃ s', s.run (.freeS obj len sz) = .ok s' ∧
      s'.heap.freed = (if s'.Last obj then [pageOf obj] else []) ++ s.heap.freed ∧
      ∀ b f, IsLinked (fun d => ptr (next s.heap.mem d)) (ptr (s.heap.chain b)) f →
        IsLinked (fun d => ptr (next s'.heap.mem d)) (ptr (s'.heap.chain b))
          (f.filter fun d => ¬(s'.Last obj ∧ page s.heap.mem d = pageOf obj)) := by
  obtain ⟨S, hi⟩ := reachable_inv hs
  refine ⟨hi.blocks, ⟨_, _, _, hi.descs⟩, fun len p q hal => ?_, fun obj len sz hal => ?_⟩
  · obtain ⟨s', S', hrun, -, hfreed⟩ := hi.malloc hal.1 hal.2.1 hal.2.2.1 hal.2.2.2
    exact ⟨s', hrun, hfreed⟩
  · obtain ⟨s', S', hrun, hi', hfreed, hdir⟩ := hi.freeS hal.1 hal.2
    refine ⟨s', hrun, hfreed, fun b f hf => ?_⟩
    obtain rfl := hf.unique (hi.rep.chains b)
    have hnew := hi'.rep.chains b
    rw [hdir b] at hnew
    rw [List.filter_map]
    have hsame : ((S.dir b).filter ((fun d => decide ¬(s'.Last obj ∧ page s.heap.mem d = pageOf obj)) ∘ Bucket.desc)) =
        (S.dir b).filter fun y => ¬(s'.Last obj ∧ y.page = pageOf obj) :=
      List.filter_congr fun x hx => by
        dsimp only [Function.comp]
        rw [(hi.rep.buckets b x hx).page]
    rw [hsame]
    exact hnew

/-- The allocator before its first call, with nothing in memory. -/
def empty : Sys := ⟨⟨fun _ => 0, fun _ => 0, 0, [], []⟩, []⟩

theorem kernel_malloc_first_block : ∃ s, system.Reachable s ∧ s.live.length = 1 ∧ s.Blocks ∧
    ∃ chain pool pages, s.Descs chain pool pages := by
  have h0 : system.Reachable empty := .init ⟨rfl, rfl, rfl, rfl⟩
  have hal : empty.Allows (.malloc 100 4096 8192) :=
    ⟨by decide, ⟨by decide, by decide, by decide, List.not_mem_nil⟩, ⟨by decide, by decide, by decide, List.not_mem_nil⟩, by decide⟩
  obtain ⟨s, hrun, -⟩ := (kernel_malloc h0).2.2.1 100 4096 8192 hal
  have hs : system.Reachable s := h0.step ⟨hal, hrun⟩
  have hlive : s.live.length = 1 := by
    unfold Sys.run at hrun
    dsimp only at hrun
    cases hm : empty.heap.malloc 100 4096 8192 with
    | error e =>
      rw [hm] at hrun
      cases hrun
    | ok r =>
      rw [hm] at hrun
      cases hrun
      rfl
  exact ⟨s, hs, hlive, (kernel_malloc hs).1, (kernel_malloc hs).2.1⟩

end Linux011.Malloc
