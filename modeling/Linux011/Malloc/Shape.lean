/-
  What the memory of the allocator looks like: the buckets of each chain with their free objects, the
  pool, and the frames cut into descriptors.
-/
import Linux011.Malloc.Buckets

namespace Linux011.Malloc

open Lib

/-- `n` places from `a` on, `step` bytes apart. -/
def objects (a step : ℕ) : ℕ → List ℕ
  | 0 => []
  | n + 1 => a :: objects (a + step) step n

/-- The objects of a page of bucket `b`. -/
def objectsOf (b : Fin 9) (pg : ℕ) : List ℕ := objects pg (size b) (4096 / size b)

/-- The descriptors of a frame. -/
def slots (p : ℕ) : List ℕ := objects p 16 256

/-- The live blocks of a page. -/
def liveIn (live : List (ℕ × ℕ)) (pg : ℕ) : List ℕ := (live.map Prod.fst).filter fun a => pageOf a = pg

structure Bucket where
  desc : ℕ
  page : ℕ
  free : List ℕ

structure Shape where
  dir : Fin 9 → List Bucket
  pool : List ℕ
  pages : List ℕ

namespace Shape

variable (S : Shape)

def buckets : List Bucket := (List.finRange 9).flatMap S.dir

def setDir (b : Fin 9) (l : List Bucket) : Shape := { S with dir := Function.update S.dir b l }

end Shape

/-- A descriptor, the list of free objects behind it and the live blocks of its page. -/
structure BucketOk (m : Bytes) (live : List (ℕ × ℕ)) (b : Fin 9) (x : Bucket) : Prop where
  page : page m x.desc = x.page
  size : bucketSize m x.desc = size b
  free : IsLinked (fun o => ptr (m.load 4 o)) (ptr (freeptr m x.desc)) x.free
  refcnt : refcnt m x.desc = (liveIn live x.page).length
  objects : (x.free ++ liveIn live x.page).Perm (objectsOf b x.page)

structure Rep (h : Heap) (live : List (ℕ × ℕ)) (S : Shape) : Prop where
  held : h.held.Perm (S.pages ++ S.buckets.map Bucket.page)
  nodup : h.held.Nodup
  frames : ∀ p ∈ h.held, 0 < p ∧ p % 4096 = 0 ∧ p + 4096 ≤ addresses
  descs : (S.pool ++ S.buckets.map Bucket.desc).Perm (S.pages.flatMap slots)
  pool : IsLinked (fun d => ptr (next h.mem d)) (ptr h.freeBucketDesc) S.pool
  chains : ∀ b, IsLinked (fun d => ptr (next h.mem d)) (ptr (h.chain b)) ((S.dir b).map Bucket.desc)
  buckets : ∀ b, ∀ x ∈ S.dir b, BucketOk h.mem live b x
  live : ∀ u ∈ live, ∃ b, findBucket u.2 = some b ∧ ∃ x ∈ S.dir b, pageOf u.1 = x.page

variable {h h' : Heap} {m m' : Bytes} {live live' : List (ℕ × ℕ)} {S : Shape} {b c : Fin 9} {x y : Bucket} {a d o p : ℕ}

/-! ## Places -/

theorem mem_objects {step n : ℕ} : o ∈ objects a step n ↔ ∃ i < n, o = a + step * i := by
  induction n generalizing a with
  | zero => simp [objects]
  | succ n ih =>
    rw [objects, List.mem_cons, ih]
    constructor
    · rintro (rfl | ⟨i, hi, rfl⟩)
      · exact ⟨0, by omega, by omega⟩
      · exact ⟨i + 1, by omega, by rw [Nat.mul_succ]; omega⟩
    · rintro ⟨i, hi, rfl⟩
      cases i with
      | zero => exact Or.inl rfl
      | succ i => exact Or.inr ⟨i, by omega, by rw [Nat.mul_succ]; omega⟩

theorem nodup_objects {step n : ℕ} (hs : 0 < step) : (objects a step n).Nodup := by
  induction n generalizing a with
  | zero => exact List.nodup_nil
  | succ n ih =>
    refine List.nodup_cons.mpr ⟨fun hm => ?_, ih⟩
    obtain ⟨i, -, he⟩ := mem_objects.mp hm
    omega

theorem size_facts (b : Fin 9) : 16 ≤ size b ∧ size b % 16 = 0 ∧ size b * (4096 / size b) = 4096 := by
  revert b
  decide

theorem pageOf_eq (ha : a < addresses) : pageOf a = a / 4096 * 4096 := by
  have hmask : (0xfffff000 : ℕ) = (2 ^ 20 - 1) <<< 12 := by decide
  have hdiv : a / 4096 * 4096 = (a >>> 12) <<< 12 := by rw [Nat.shiftRight_eq_div_pow, Nat.shiftLeft_eq]
  rw [pageOf, hmask, hdiv]
  refine Nat.eq_of_testBit_eq fun i => ?_
  rw [Nat.testBit_and, Nat.testBit_shiftLeft, Nat.testBit_shiftLeft, Nat.testBit_two_pow_sub_one, Nat.testBit_shiftRight]
  by_cases hi : 12 ≤ i
  · rw [show 12 + (i - 12) = i by omega]
    by_cases hlt : i - 12 < 20
    · simp [hi, hlt]
    · have hbig : a < 2 ^ i := lt_of_lt_of_le ha (Nat.pow_le_pow_right (by decide : 0 < 2) (by omega : 32 ≤ i))
      simp [Nat.testBit_lt_two_pow hbig]
  · simp [hi]

theorem pageOf_of_mem (hp : p % 4096 = 0) (hlt : p + 4096 ≤ addresses) (h1 : p ≤ a) (h2 : a < p + 4096) : pageOf a = p := by
  rw [pageOf_eq (by omega)]
  omega

/-- An object lies in its page, at a multiple of its size. -/
theorem objectsOf_spec (hp : p % 4096 = 0) (hlt : p + 4096 ≤ addresses) (ho : o ∈ objectsOf b p) :
    pageOf o = p ∧ o % 16 = 0 ∧ p ≤ o ∧ o + size b ≤ p + 4096 ∧ size b ∣ o := by
  obtain ⟨i, hi, rfl⟩ := mem_objects.mp ho
  obtain ⟨hge, hmod, hmul⟩ := size_facts b
  have hle : size b * i + size b ≤ 4096 := by
    rw [← Nat.mul_succ, ← hmul]
    exact Nat.mul_le_mul_left _ hi
  have hdvd : size b ∣ p := (Dvd.intro _ hmul).trans (Nat.dvd_of_mod_eq_zero hp)
  have h16 : (size b * i) % 16 = 0 := by rw [Nat.mul_mod, hmod, Nat.zero_mul, Nat.zero_mod]
  refine ⟨pageOf_of_mem hp hlt (by omega) (by omega), by omega, by omega, by omega, ?_⟩
  exact (Nat.dvd_add_iff_right hdvd).mp (Dvd.intro _ rfl)

theorem slots_spec (hp : p % 4096 = 0) (hlt : p + 4096 ≤ addresses) (hd : d ∈ slots p) :
    pageOf d = p ∧ d % 16 = 0 ∧ p ≤ d ∧ d + 16 ≤ p + 4096 := by
  obtain ⟨i, hi, rfl⟩ := mem_objects.mp hd
  exact ⟨pageOf_of_mem hp hlt (by omega) (by omega), by omega, by omega, by omega⟩

/-! ## Buckets -/

theorem mem_buckets : x ∈ S.buckets ↔ ∃ b, x ∈ S.dir b := by
  simp [Shape.buckets]

/-- One bucket apart from the others. -/
theorem buckets_split {l l' : List Bucket} (hl : S.dir b = l ++ x :: l') : S.buckets.Perm (x :: (S.setDir b (l ++ l')).buckets) := by
  have hgen : ∀ bs : List (Fin 9), bs.Nodup → b ∈ bs →
      (bs.flatMap S.dir).Perm (x :: bs.flatMap (S.setDir b (l ++ l')).dir) := by
    intro bs
    induction bs with
    | nil => intro _ hm; cases hm
    | cons c bs ih =>
      intro hnd hm
      obtain ⟨hc, hnd⟩ := List.nodup_cons.mp hnd
      rw [List.flatMap_cons, List.flatMap_cons]
      by_cases hcb : c = b
      · subst hcb
        have hrest : bs.flatMap (S.setDir c (l ++ l')).dir = bs.flatMap S.dir :=
          List.flatMap_congr fun e he => Function.update_of_ne (fun hec : e = c => hc (hec ▸ he)) ..
        have hself : (S.setDir c (l ++ l')).dir c = l ++ l' := Function.update_self ..
        rw [hrest, hself, hl, List.append_assoc, List.append_assoc]
        exact List.perm_middle
      · have hself : (S.setDir b (l ++ l')).dir c = S.dir c := Function.update_of_ne hcb ..
        rw [hself]
        have hih := ih hnd ((List.mem_cons.mp hm).resolve_left (Ne.symm hcb))
        exact (hih.append_left _).trans List.perm_middle
  exact hgen _ (List.nodup_finRange 9) (List.mem_finRange b)

theorem setDir_dir (l : List Bucket) (c : Fin 9) : (S.setDir b l).dir c = if c = b then l else S.dir c :=
  Function.update_apply ..

theorem mem_split {l l' : List Bucket} (hl : S.dir b = l ++ x :: l') (hy : y ∈ S.dir c) :
    c = b ∧ y = x ∨ y ∈ (S.setDir b (l ++ l')).dir c := by
  rw [setDir_dir]
  by_cases hc : c = b
  · subst hc
    rw [hl] at hy
    rw [if_pos rfl]
    by_cases hyx : y = x
    · exact Or.inl ⟨rfl, hyx⟩
    · refine Or.inr ?_
      simpa [hyx] using hy
  · rw [if_neg hc]
    exact Or.inr hy

theorem mem_of_split {l l' : List Bucket} (hl : S.dir b = l ++ x :: l') (hy : y ∈ (S.setDir b (l ++ l')).dir c) : y ∈ S.dir c := by
  rw [setDir_dir] at hy
  split_ifs at hy with hc
  · rw [hc, hl]
    simp only [List.mem_append, List.mem_cons] at hy ⊢
    tauto
  · exact hy

/-- With bucket `x` in place of another, the buckets are `x` and the others. -/
theorem mem_replace {l l' : List Bucket} (hy : y ∈ (S.setDir b (l ++ x :: l')).dir c) :
    c = b ∧ y = x ∨ y ∈ (S.setDir b (l ++ l')).dir c := by
  have h := mem_split (S := S.setDir b (l ++ x :: l')) (b := b) (x := x) (Function.update_self ..) hy
  unfold Shape.setDir at h ⊢
  rwa [Function.update_idem] at h

namespace Rep

variable {l l' : List Bucket}

theorem page_frame (hr : Rep h live S) (hx : x ∈ S.dir b) :
    x.page ∈ h.held ∧ 0 < x.page ∧ x.page % 4096 = 0 ∧ x.page + 4096 ≤ addresses := by
  have hm : x.page ∈ h.held := hr.held.mem_iff.mpr (List.mem_append_right _ (List.mem_map_of_mem (mem_buckets.mpr ⟨b, hx⟩)))
  exact ⟨hm, hr.frames _ hm⟩

theorem desc_slot (hr : Rep h live S) (hd : d ∈ S.pool ++ S.buckets.map Bucket.desc) :
    ∃ p ∈ S.pages, p ∈ h.held ∧ pageOf d = p ∧ d % 16 = 0 ∧ 0 < d ∧ d + 16 ≤ addresses := by
  obtain ⟨p, hp, hdp⟩ := List.mem_flatMap.mp (hr.descs.mem_iff.mp hd)
  have hm : p ∈ h.held := hr.held.mem_iff.mpr (List.mem_append_left _ hp)
  obtain ⟨h0, h1, h2⟩ := hr.frames p hm
  obtain ⟨h3, h4, h5, h6⟩ := slots_spec h1 h2 hdp
  exact ⟨p, hp, hm, h3, h4, by omega, by omega⟩

theorem mem_desc (hx : x ∈ S.dir b) : x.desc ∈ S.pool ++ S.buckets.map Bucket.desc :=
  List.mem_append_right _ (List.mem_map_of_mem (mem_buckets.mpr ⟨b, hx⟩))

theorem held_nodup (hr : Rep h live S) : (S.pages ++ S.buckets.map Bucket.page).Nodup := hr.held.nodup_iff.mp hr.nodup

/-- No descriptor stands in two places. -/
theorem descs_nodup (hr : Rep h live S) : (S.pool ++ S.buckets.map Bucket.desc).Nodup := by
  refine hr.descs.nodup_iff.mpr (List.nodup_flatMap.mpr ⟨fun p _ => nodup_objects (by decide), ?_⟩)
  have hnd := (List.nodup_append.mp hr.held_nodup).1
  refine hnd.imp_of_mem fun {p q} hp hq hne => ?_
  have hfr : ∀ p ∈ S.pages, p % 4096 = 0 ∧ p + 4096 ≤ addresses := fun p hp =>
    (hr.frames p (hr.held.mem_iff.mpr (List.mem_append_left _ hp))).2
  intro d hdp hdq
  have h1 := (slots_spec (hfr p hp).1 (hfr p hp).2 hdp).1
  have h2 := (slots_spec (hfr q hq).1 (hfr q hq).2 hdq).1
  exact hne (h1.symm.trans h2)

/-- The other buckets have other descriptors and other pages. -/
theorem others (hr : Rep h live S) (hl : S.dir b = l ++ x :: l') (hy : y ∈ (S.setDir b (l ++ l')).dir c) :
    y.desc ≠ x.desc ∧ y.page ≠ x.page := by
  have hsplit := buckets_split hl
  have hym := mem_buckets.mpr ⟨c, hy⟩
  have h1 := ((hsplit.map Bucket.desc).nodup_iff.mp (List.nodup_append.mp hr.descs_nodup).2.1)
  have h2 := ((hsplit.map Bucket.page).nodup_iff.mp (List.nodup_append.mp hr.held_nodup).2.1)
  constructor
  · intro he
    exact (List.nodup_cons.mp h1).1 (he ▸ List.mem_map_of_mem hym)
  · intro he
    exact (List.nodup_cons.mp h2).1 (he ▸ List.mem_map_of_mem hym)

/-- No page holds descriptors and objects. -/
theorem page_ne (hr : Rep h live S) (hx : x ∈ S.dir b) (hd : d ∈ S.pool ++ S.buckets.map Bucket.desc) : pageOf d ≠ x.page := by
  obtain ⟨p, hp, -, hpd, -⟩ := hr.desc_slot hd
  rw [hpd]
  exact (List.nodup_append.mp hr.held_nodup).2.2 p hp _ (List.mem_map_of_mem (mem_buckets.mpr ⟨b, hx⟩))

theorem object (hr : Rep h live S) (hx : x ∈ S.dir b) (ho : o ∈ x.free ++ liveIn live x.page) :
    pageOf o = x.page ∧ o % 16 = 0 ∧ x.page ≤ o ∧ o + size b ≤ x.page + 4096 ∧ size b ∣ o := by
  obtain ⟨-, -, h1, h2⟩ := hr.page_frame hx
  exact objectsOf_spec h1 h2 ((hr.buckets b x hx).objects.mem_iff.mp ho)

end Rep

end Linux011.Malloc
