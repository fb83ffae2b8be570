/-
  What the parts of malloc and free_s do to the buckets.
-/
import Linux011.Malloc.Shape

namespace Linux011.Malloc

open Lib

variable {h h' : Heap} {m m' : Bytes} {live live' : List (ℕ × ℕ)} {S S' : Shape} {b c : Fin 9} {x y : Bucket}
  {a d o p q v n k i e : ℕ} {l l' : List Bucket}

/-! ## Cells -/

/-- The 16 bytes at `a` are the same. -/
def SameAt (m m' : Bytes) (a : ℕ) : Prop := ∀ i < 16, m' (a + i) = m (a + i)

theorem SameAt.trans {m'' : Bytes} (h : SameAt m m' a) (h' : SameAt m' m'' a) : SameAt m m'' a := fun i hi =>
  (h' i hi).trans (h i hi)

theorem SameAt.load (h : SameAt m m' a) (he : e + n ≤ 16) : m'.load n (a + e) = m.load n (a + e) :=
  Bytes.load_congr fun i hi => by
    have := h (e + i) (by omega)
    rwa [← Nat.add_assoc] at this

/-- A store into one cell leaves the others alone. -/
theorem sameAt_store (ha : a % 16 = 0) (hd : d % 16 = 0) (hne : a ≠ d) (he : e + n ≤ 16) :
    SameAt m (m.store n (d + e) v) a := fun i hi => Bytes.store_other (by omega)

theorem SameAt.next (h : SameAt m m' d) : next m' d = next m d := h.load (by decide)

/-- What a bucket reads of its descriptor. -/
structure SameData (m m' : Bytes) (d : ℕ) : Prop where
  page : page m' d = page m d
  freeptr : freeptr m' d = freeptr m d
  refcnt : refcnt m' d = refcnt m d
  size : bucketSize m' d = bucketSize m d

theorem SameData.trans {m'' : Bytes} (h : SameData m m' d) (h' : SameData m' m'' d) : SameData m m'' d :=
  ⟨h'.page.trans h.page, h'.freeptr.trans h.freeptr, h'.refcnt.trans h.refcnt, h'.size.trans h.size⟩

theorem SameAt.data (h : SameAt m m' d) : SameData m m' d :=
  ⟨h.load (e := 0) (by decide), h.load (by decide), h.load (by decide), h.load (by decide)⟩

/-- A new `next` pointer changes nothing else. -/
theorem setNext_data (ha : a % 16 = 0) (hd : d % 16 = 0) : SameData m (setNext m d v) a := by
  by_cases hne : a = d
  · subst hne
    exact ⟨Bytes.load_store_other (by omega), Bytes.load_store_other (by omega), Bytes.load_store_other (by omega),
      Bytes.load_store_other (by omega)⟩
  · exact (sameAt_store ha hd hne (by decide)).data

theorem next_setNext (hv : v < addresses) : next (setNext m d v) d = v := Bytes.load_store_of_lt hv

/-- A new free list and a new count for descriptor `d`. -/
theorem setCounted_spec (hv : v < addresses) : let m' := setRefcnt (setFreeptr m d v) d n
    page m' d = page m d ∧ bucketSize m' d = bucketSize m d ∧ next m' d = next m d ∧ freeptr m' d = v ∧ refcnt m' d = n % 65536 := by
  refine ⟨?_, ?_, ?_, ?_, Bytes.load_store_self⟩
  · exact (Bytes.load_store_other (by omega)).trans (Bytes.load_store_other (by omega))
  · exact (Bytes.load_store_other (by omega)).trans (Bytes.load_store_other (by omega))
  · exact (Bytes.load_store_other (by omega)).trans (Bytes.load_store_other (by omega))
  · exact (Bytes.load_store_other (by omega)).trans (Bytes.load_store_of_lt hv)

theorem setCounted_other (ha : a % 16 = 0) (hd : d % 16 = 0) (hne : a ≠ d) : SameAt m (setRefcnt (setFreeptr m d v) d n) a :=
  (sameAt_store ha hd hne (by decide)).trans (sameAt_store ha hd hne (by decide))

theorem BucketOk.congr (hb : BucketOk m live b x) (hd : SameData m m' x.desc) (hf : ∀ o ∈ x.free, SameAt m m' o)
    (hlive : (liveIn live' x.page).Perm (liveIn live x.page)) : BucketOk m' live' b x where
  page := hd.page.trans hb.page
  size := hd.size.trans hb.size
  free := by
    rw [hd.freeptr]
    exact hb.free.congr fun o ho => congrArg ptr ((hf o ho).load (e := 0) (by decide))
  refcnt := by rw [hd.refcnt, hb.refcnt, hlive.length_eq]
  objects := (hlive.append_left _).trans hb.objects

theorem ptr_of_ne (h : a ≠ 0) : ptr a = some a := if_neg h

theorem eq_of_ptr (h : ptr a = some d) : a = d := by
  unfold ptr at h
  split_ifs at h
  exact Option.some.inj h

theorem length_objects {step : ℕ} : (objects a step n).length = n := by
  induction n generalizing a with
  | zero => rfl
  | succ n ih => rw [objects, List.length_cons, ih]

/-- No page has more than 256 objects. -/
theorem BucketOk.count_le (hb : BucketOk m live b x) : x.free.length + (liveIn live x.page).length ≤ 256 := by
  have hlen := hb.objects.length_eq
  rw [List.length_append, objectsOf, length_objects] at hlen
  rw [hlen]
  exact (by decide : ∀ b, 4096 / Malloc.size b ≤ 256) b

theorem mem_at (hl : S.dir b = l ++ x :: l') : x ∈ S.dir b := by
  rw [hl]
  simp

namespace Rep

theorem objects_nodup (hr : Rep h live S) (hx : x ∈ S.dir b) : (x.free ++ liveIn live x.page).Nodup :=
  (hr.buckets b x hx).objects.nodup_iff.mpr (nodup_objects (by have := (size_facts b).1; omega))

/-- The buckets of one chain may change their free lists; the pages and descriptors stay. -/
theorem map_replace {β : Type*} {f : Bucket → β} (hl : S.dir b = l ++ x :: l') (hf : f y = f x) :
    (S.setDir b (l ++ y :: l')).buckets.map f = S.buckets.map f := by
  unfold Shape.buckets
  rw [List.map_flatMap, List.map_flatMap]
  refine List.flatMap_congr fun c _ => ?_
  rw [setDir_dir]
  split_ifs with hc
  · subst hc
    rw [hl]
    simp [hf]
  · rfl

/-- One bucket and its objects change, and nothing else. -/
theorem replace (hr : Rep h live S) (hl : S.dir b = l ++ x :: l') (hdesc : y.desc = x.desc) (hpage : y.page = x.page)
    (hcells : ∀ a, a % 16 = 0 → a ≠ x.desc → pageOf a ≠ x.page → SameAt h.mem m' a)
    (hnext : next m' x.desc = next h.mem x.desc) (hy : BucketOk m' live' b y)
    (hlv : ∀ pg, pg ≠ x.page → (liveIn live' pg).Perm (liveIn live pg))
    (hlive : ∀ u ∈ live', ∃ c, findBucket u.2 = some c ∧ ∃ z ∈ S.dir c, pageOf u.1 = z.page) :
    Rep { h with mem := m' } live' (S.setDir b (l ++ y :: l')) := by
  have hx := mem_at hl
  have hnexts : ∀ d ∈ S.pool ++ S.buckets.map Bucket.desc, next m' d = next h.mem d := fun d hd => by
    by_cases hdx : d = x.desc
    · rw [hdx, hnext]
    · obtain ⟨-, -, -, -, h16, -⟩ := hr.desc_slot hd
      exact (hcells d h16 hdx (hr.page_ne hx hd)).next
  refine ⟨?_, hr.nodup, hr.frames, ?_, ?_, fun c => ?_, fun c z hz => ?_, fun u hu => ?_⟩
  · rw [map_replace hl hpage]
    exact hr.held
  · rw [map_replace hl hdesc]
    exact hr.descs
  · exact hr.pool.congr fun d hd => congrArg ptr (hnexts d (List.mem_append_left _ hd))
  · have hmap : ((S.setDir b (l ++ y :: l')).dir c).map Bucket.desc = (S.dir c).map Bucket.desc := by
      rw [setDir_dir]
      split_ifs with hc
      · rw [hc, hl]
        simp [hdesc]
      · rfl
    rw [hmap]
    refine (hr.chains c).congr fun d hd => congrArg ptr (hnexts d (List.mem_append_right _ ?_))
    obtain ⟨z, hz, rfl⟩ := List.mem_map.mp hd
    exact List.mem_map_of_mem (mem_buckets.mpr ⟨c, hz⟩)
  · obtain ⟨rfl, rfl⟩ | hzo := mem_replace hz
    · exact hy
    · have hzS := mem_of_split hl hzo
      obtain ⟨hd, hp⟩ := hr.others hl hzo
      obtain ⟨-, -, -, -, h16, -⟩ := hr.desc_slot (mem_desc hzS)
      refine (hr.buckets c z hzS).congr (hcells _ h16 hd (hr.page_ne hx (mem_desc hzS))).data (fun o ho => ?_) (hlv _ hp)
      obtain ⟨hpo, ho16, -⟩ := hr.object hzS (List.mem_append_left _ ho)
      have hne : o ≠ x.desc := fun he => hr.page_ne hzS (mem_desc hx) (he ▸ hpo)
      exact hcells o ho16 hne (hpo ▸ hp)
  · obtain ⟨c, hc, z, hz, hpz⟩ := hlive u hu
    refine ⟨c, hc, ?_⟩
    rw [setDir_dir]
    split_ifs with hcb
    · subst hcb
      rw [hl] at hz
      obtain hz | rfl | hz : z ∈ l ∨ z = x ∨ z ∈ l' := by simpa using hz
      · exact ⟨z, by simp [hz], hpz⟩
      · exact ⟨y, by simp, hpz.trans hpage.symm⟩
      · exact ⟨z, by simp [hz], hpz⟩
    · exact ⟨z, hz, hpz⟩

end Rep

theorem liveIn_cons (u : ℕ × ℕ) (pg : ℕ) :
    liveIn (u :: live) pg = if pageOf u.1 = pg then u.1 :: liveIn live pg else liveIn live pg := by
  unfold liveIn
  rw [List.map_cons, List.filter_cons]
  by_cases hp : pageOf u.1 = pg <;> simp [hp]

theorem liveIn_perm (hp : live.Perm live') (pg : ℕ) : (liveIn live pg).Perm (liveIn live' pg) :=
  (hp.map Prod.fst).filter _

namespace Rep

/-- The first free object becomes a live block. -/
theorem take (hr : Rep h live S) {f : List ℕ} {len : ℕ} (hl : S.dir b = l ++ x :: l') (hf : x.free = o :: f)
    (hlen : findBucket len = some b) : (h.takeObject x.desc).1 = o ∧
      Rep (h.takeObject x.desc).2 ((o, len) :: live) (S.setDir b (l ++ { x with free := f } :: l')) := by
  have hx := mem_at hl
  have hb := hr.buckets b x hx
  have hnd := hr.objects_nodup hx
  have hcount := hb.count_le
  obtain ⟨hpo, ho16, -⟩ := hr.object hx (o := o) (by simp [hf])
  obtain ⟨-, -, -, -, hd16, -⟩ := hr.desc_slot (mem_desc hx)
  have hlink := hb.free
  rw [hf] at hlink hnd hcount
  have ho : freeptr h.mem x.desc = o := eq_of_ptr hlink.1
  refine ⟨ho, ?_⟩
  unfold Heap.takeObject
  dsimp only
  have href : refcnt (setFreeptr h.mem x.desc (h.mem.load 4 (freeptr h.mem x.desc))) x.desc = refcnt h.mem x.desc :=
    Bytes.load_store_other (by omega)
  rw [href, ho]
  have hcells : ∀ a, a % 16 = 0 → a ≠ x.desc → SameAt h.mem
      (setRefcnt (setFreeptr h.mem x.desc (h.mem.load 4 o)) x.desc (refcnt h.mem x.desc + 1)) a :=
    fun a ha hne => setCounted_other ha hd16 hne
  obtain ⟨hpg, hsz, hnx, hfp, hrc⟩ := setCounted_spec (m := h.mem) (d := x.desc) (n := refcnt h.mem x.desc + 1)
    (Bytes.load_lt h.mem 4 o)
  refine hr.replace hl rfl rfl (fun a ha hne _ => hcells a ha hne) hnx ?_ (fun pg hpg => ?_) fun u hu => ?_
  · refine ⟨hpg.trans hb.page, hsz.trans hb.size, ?_, ?_, ?_⟩
    · rw [hfp]
      refine hlink.2.congr fun e he => congrArg ptr ?_
      obtain ⟨hpe, he16, -⟩ := hr.object hx (o := e) (by simp [hf, he])
      have hne : e ≠ x.desc := fun hee => hr.page_ne hx (mem_desc hx) (hee ▸ hpe)
      exact (hcells e he16 hne).load (e := 0) (by decide)
    · rw [hrc, hb.refcnt, liveIn_cons, if_pos hpo]
      exact Nat.mod_eq_of_lt (by omega)
    · rw [liveIn_cons, if_pos hpo]
      refine List.perm_middle.trans ?_
      have := hb.objects
      rwa [hf] at this
  · rw [liveIn_cons, if_neg (fun he => hpg (he.symm.trans hpo))]
  · obtain rfl | hu := List.mem_cons.mp hu
    · exact ⟨b, hlen, x, hx, hpo⟩
    · exact hr.live u hu

/-- A live block becomes the first free object. -/
theorem put (hr : Rep h live S) {len : ℕ} (hl : S.dir b = l ++ x :: l') (ho : (o, len) ∈ live) (hpo : pageOf o = x.page) :
    Rep (h.putObject o x.desc) (live.erase (o, len)) (S.setDir b (l ++ { x with free := o :: x.free } :: l')) ∧
      refcnt (h.putObject o x.desc).mem x.desc = (liveIn (live.erase (o, len)) x.page).length := by
  have hx := mem_at hl
  have hb := hr.buckets b x hx
  have hnd := hr.objects_nodup hx
  have hcount := hb.count_le
  have hperm := liveIn_perm (List.perm_cons_erase ho)
  have hmine : (liveIn live x.page).Perm (o :: liveIn (live.erase (o, len)) x.page) := by
    have := hperm x.page
    rwa [liveIn_cons, if_pos hpo] at this
  have hom : o ∈ liveIn live x.page := hmine.mem_iff.mpr List.mem_cons_self
  obtain ⟨-, ho16, hge, hle, -⟩ := hr.object hx (List.mem_append_right _ hom)
  obtain ⟨-, -, -, -, hd16, -⟩ := hr.desc_slot (mem_desc hx)
  obtain ⟨-, hpos, -, hlt⟩ := hr.page_frame hx
  have hoa : o < addresses := by
    have := (size_facts b).1
    omega
  have hod : o ≠ x.desc := fun he => hr.page_ne hx (mem_desc hx) (he ▸ hpo)
  have hlen := hmine.length_eq
  rw [List.length_cons] at hlen
  unfold Heap.putObject
  dsimp only
  have hstore := sameAt_store (m := h.mem) (n := 4) (v := freeptr h.mem x.desc) (e := 0) hd16 ho16 (Ne.symm hod) (by decide)
  have href : refcnt (setFreeptr (h.mem.store 4 o (freeptr h.mem x.desc)) x.desc o) x.desc = refcnt h.mem x.desc :=
    (Bytes.load_store_other (by omega)).trans hstore.data.refcnt
  rw [href]
  obtain ⟨hpg, hsz, hnx, hfp, hrc⟩ := setCounted_spec (m := h.mem.store 4 o (freeptr h.mem x.desc)) (d := x.desc)
    (n := refcnt h.mem x.desc + 65535) hoa
  have hcells : ∀ a, a % 16 = 0 → a ≠ x.desc → a ≠ o → SameAt h.mem (setRefcnt (setFreeptr
      (h.mem.store 4 o (freeptr h.mem x.desc)) x.desc o) x.desc (refcnt h.mem x.desc + 65535)) a := fun a ha hne hao =>
    (sameAt_store (e := 0) ha ho16 hao (by decide)).trans (setCounted_other ha hd16 hne)
  have hcnt : (refcnt h.mem x.desc + 65535) % 65536 = (liveIn (live.erase (o, len)) x.page).length := by
    rw [hb.refcnt, hlen]
    omega
  refine ⟨hr.replace hl rfl rfl (fun a ha hne hpa => hcells a ha hne fun hao => hpa (hao ▸ hpo)) ?_ ?_
    (fun pg hpg => ?_) fun u hu => hr.live u (List.mem_of_mem_erase hu), hrc.trans hcnt⟩
  · exact hnx.trans hstore.next
  · refine ⟨?_, ?_, ⟨?_, ?_⟩, hrc.trans hcnt, ?_⟩
    · exact (hpg.trans hstore.data.page).trans hb.page
    · exact (hsz.trans hstore.data.size).trans hb.size
    · rw [hfp]
      exact ptr_of_ne (by omega)
    · have hto : Bytes.load (setRefcnt (setFreeptr (h.mem.store 4 o (freeptr h.mem x.desc)) x.desc o) x.desc
          (refcnt h.mem x.desc + 65535)) 4 o = freeptr h.mem x.desc :=
        ((setCounted_other ho16 hd16 hod).load (e := 0) (by decide)).trans (Bytes.load_store_of_lt (Bytes.load_lt ..))
      dsimp only
      rw [hto]
      refine hb.free.congr fun e he => congrArg ptr ?_
      obtain ⟨hpe, he16, -⟩ := hr.object hx (List.mem_append_left _ he)
      have hne : e ≠ x.desc := fun hee => hr.page_ne hx (mem_desc hx) (hee ▸ hpe)
      have heo : e ≠ o := fun hee => (List.nodup_append.mp hnd).2.2 e he o hom hee
      exact (hcells e he16 hne heo).load (e := 0) (by decide)
    · refine List.Perm.trans ?_ hb.objects
      exact List.perm_middle.symm.trans (hmine.symm.append_left _)
  · have hp := hperm pg
    rw [liveIn_cons, if_neg (fun he => hpg (he.symm.trans hpo))] at hp
    exact hp.symm

end Rep

end Linux011.Malloc
