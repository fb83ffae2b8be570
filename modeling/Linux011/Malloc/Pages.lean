/-
  Frames that come to the allocator, for descriptors and for objects, and the bucket that gives its
  page back.
-/
import Linux011.Lib.Except
import Linux011.Malloc.Ops

namespace Linux011.Malloc

open Lib

variable {h h' : Heap} {m m' : Bytes} {live live' : List (ℕ × ℕ)} {S S' : Shape} {b c : Fin 9} {x y : Bucket}
  {a d o p q v n k i e : ℕ} {l l' : List Bucket}

/-! ## Chains of places -/

theorem linkUp_spec (he : e + 4 ≤ k) (hlt : a + k * n < addresses) : let r := linkUp e k n (m, a)
    r.2 = a + k * n ∧ (∀ i < n, r.1.load 4 (a + k * i + e) = a + k * (i + 1)) ∧
      ∀ x, x < a ∨ a + k * n ≤ x → r.1 x = m x := by
  induction n generalizing m a with
  | zero => exact ⟨rfl, fun i hi => absurd hi (Nat.not_lt_zero i), fun x _ => rfl⟩
  | succ n ih =>
    have hmul : k * (n + 1) = k + k * n := by ring
    obtain ⟨h1, h2, h3⟩ := ih (m := m.store 4 (a + e) (a + k)) (a := a + k) (by omega)
    refine ⟨h1.trans (by omega), fun i hi => ?_, fun x hx => ?_⟩
    · cases i with
      | zero =>
        refine (Bytes.load_congr fun i hi => h3 _ (Or.inl (by omega))).trans ?_
        rw [show a + k * 0 + e = a + e by omega, show k * (0 + 1) = k by omega]
        exact Bytes.load_store_of_lt (show a + k < addresses by omega)
      | succ i =>
        have hrec := h2 i (by omega)
        rw [show a + k * (i + 1) + e = a + k + k * i + e by ring]
        rw [show a + k * (i + 1 + 1) = a + k + k * (i + 1) by ring]
        exact hrec
    · rw [linkUp, h3 x (by omega)]
      exact Bytes.store_other (by omega)

theorem isLinked_objects {g : ℕ → Option ℕ} {f : List ℕ} (hn : ∀ i < n, g (a + k * i) = some (a + k * (i + 1)))
    (hf : IsLinked g (g (a + k * n)) f) : IsLinked g (some a) (objects a k (n + 1) ++ f) := by
  induction n generalizing a with
  | zero => exact ⟨rfl, hf⟩
  | succ n ih =>
    refine ⟨rfl, ?_⟩
    have h0 : g a = some (a + k) := by
      have := hn 0 (by omega)
      rwa [show a + k * 0 = a by omega, show k * (0 + 1) = k by omega] at this
    rw [h0]
    refine ih (fun i hi => ?_) ?_
    · rw [show a + k + k * i = a + k * (i + 1) by ring, show a + k + k * (i + 1) = a + k * (i + 1 + 1) by ring]
      exact hn (i + 1) (by omega)
    · rwa [show a + k + k * n = a + k * (n + 1) by ring]

theorem buckets_cons : (S.setDir b (x :: S.dir b)).buckets.Perm (x :: S.buckets) := by
  have hl : (S.setDir b (x :: S.dir b)).dir b = [] ++ x :: S.dir b := Function.update_self ..
  have h := buckets_split hl
  have hself : (S.setDir b (x :: S.dir b)).setDir b ([] ++ S.dir b) = S := by
    unfold Shape.setDir
    rw [List.nil_append, Function.update_idem, Function.update_eq_self]
  rwa [hself] at h

/-! ## Frames -/

/-- A change inside frame `p` leaves the cells of the other frames alone. -/
theorem sameAt_of_frame (hp : p % 4096 = 0) (hlt : p + 4096 ≤ addresses) (hm : ∀ x, x < p ∨ p + 4096 ≤ x → m' x = m x)
    (ha : a % 16 = 0) (hne : pageOf a ≠ p) : SameAt m m' a := fun i hi => by
  refine hm _ ?_
  by_contra hin
  exact hne (pageOf_of_mem hp hlt (by omega) (by omega))

theorem getFreePage_spec (hp : p ≠ 0) : h.getFreePage p =
    { h with mem := fun a => if p ≤ a ∧ a < p + 4096 then 0 else h.mem a, held := p :: h.held } := if_neg hp

theorem clear_other {x : ℕ} (hx : x < p ∨ p + 4096 ≤ x) : (if p ≤ x ∧ x < p + 4096 then 0 else m x) = m x :=
  if_neg (by omega)

/-- A page holds the last object, and none behind it. -/
theorem cut_up (b : Fin 9) : ∃ N, 4096 / size b = N + 1 ∧ size b * N + size b = 4096 :=
  ⟨4096 / size b - 1, by revert b; decide, by revert b; decide⟩

/-- The descriptor of a new bucket, with the page cleared before and cut up after its fields are set. -/
theorem newDesc_spec (hd : d % 16 = 0) (hq : q < addresses) (h1 : SameAt (setBucketSize (setRefcnt m d 0) d (size b)) m' d)
    {m'' : Bytes} (h2 : SameAt (setPage (setFreeptr m' d q) d q) m'' d) : page (setNext m'' d v) d = q ∧
      freeptr (setNext m'' d v) d = q ∧ refcnt (setNext m'' d v) d = 0 ∧ bucketSize (setNext m'' d v) d = size b := by
  have h3 : SameData m'' (setNext m'' d v) d := setNext_data hd hd
  refine ⟨?_, ?_, ?_, ?_⟩
  · rw [h3.page, h2.data.page]
    exact Bytes.load_store_of_lt hq
  · rw [h3.freeptr, h2.data.freeptr]
    exact (Bytes.load_store_other (by omega)).trans (Bytes.load_store_of_lt hq)
  · rw [h3.refcnt, h2.data.refcnt]
    have hkeep : refcnt (setPage (setFreeptr m' d q) d q) d = refcnt m' d :=
      (Bytes.load_store_other (by omega)).trans (Bytes.load_store_other (by omega))
    rw [hkeep, h1.data.refcnt]
    exact (Bytes.load_store_other (by omega)).trans (Bytes.load_store_of_lt (by decide))
  · rw [h3.size, h2.data.size]
    have hkeep : bucketSize (setPage (setFreeptr m' d q) d q) d = bucketSize m' d :=
      (Bytes.load_store_other (by omega)).trans (Bytes.load_store_other (by omega))
    rw [hkeep, h1.data.size]
    exact Bytes.load_store_of_lt ((by decide : ∀ b, size b < 256 ^ 2) b)

namespace Rep

theorem keep (hr : Rep h live S) (hx : x ∈ S.dir c) (hd : SameData h.mem m' x.desc)
    (hcells : ∀ o, o % 16 = 0 → pageOf o = x.page → SameAt h.mem m' o) : BucketOk m' live c x :=
  (hr.buckets c x hx).congr hd (fun o ho => by
    obtain ⟨hpo, ho16, -⟩ := hr.object hx (List.mem_append_left _ ho)
    exact hcells o ho16 hpo) (List.Perm.refl _)

/-- A pointer to the first of these descriptors. -/
theorem head_lt (hr : Rep h live S) {f : List ℕ} (hf : IsLinked (fun d => ptr (next h.mem d)) (ptr a) f)
    (hm : ∀ d ∈ f, d ∈ S.pool ++ S.buckets.map Bucket.desc) : a < addresses := by
  have h1 := hf.head
  unfold ptr at h1
  split_ifs at h1 with h0
  · rw [h0]
    decide
  · cases f with
    | nil => cases h1
    | cons d f =>
      obtain rfl : d = a := Option.some.inj h1
      obtain ⟨-, -, -, -, -, -, hlt⟩ := hr.desc_slot (hm d List.mem_cons_self)
      omega

theorem chain_mem (hd : d ∈ (S.dir c).map Bucket.desc) : d ∈ S.pool ++ S.buckets.map Bucket.desc := by
  obtain ⟨z, hz, rfl⟩ := List.mem_map.mp hd
  exact mem_desc hz

/-- A fresh frame becomes a page of free descriptors, when the pool is empty. -/
theorem init (hr : Rep h live S) (hp : h.Fresh p) (h0 : h.freeBucketDesc = 0) : ∃ h', h.initBucketDesc p = .ok h' ∧
    Rep h' live { S with pool := slots p, pages := p :: S.pages } ∧ h'.chain = h.chain ∧ h'.freeBucketDesc = p ∧
      h'.held = p :: h.held ∧ h'.freed = h.freed := by
  obtain ⟨hpos, hp4, hlt, hnew⟩ := hp
  have hpool : S.pool = [] := by
    have := hr.pool.head
    rw [h0] at this
    exact List.head?_eq_none_iff.mp this
  unfold Heap.initBucketDesc
  rw [if_neg (by omega), getFreePage_spec (by omega)]
  dsimp only
  obtain ⟨hend, hlinks, hother⟩ := linkUp_spec (m := fun a => if p ≤ a ∧ a < p + 4096 then 0 else h.mem a) (a := p) (n := 255)
    (e := 4) (k := 16) (by omega) (by omega)
  generalize linkUp 4 16 255 (fun a => if p ≤ a ∧ a < p + 4096 then 0 else h.mem a, p) = r at hend hlinks hother ⊢
  obtain ⟨m, a⟩ := r
  dsimp only at hend hlinks hother ⊢
  subst hend
  have hm : ∀ x, x < p ∨ p + 4096 ≤ x → setNext m (p + 16 * 255) h.freeBucketDesc x = h.mem x := fun x hx =>
    (Bytes.store_other (by omega)).trans ((hother x (by omega)).trans (clear_other hx))
  have hsame : ∀ a, a % 16 = 0 → pageOf a ≠ p → SameAt h.mem (setNext m (p + 16 * 255) h.freeBucketDesc) a :=
    fun a ha hne => sameAt_of_frame hp4 hlt hm ha hne
  have hold : ∀ d ∈ S.pool ++ S.buckets.map Bucket.desc, SameAt h.mem (setNext m (p + 16 * 255) h.freeBucketDesc) d := fun d hd => by
    obtain ⟨p', -, hheld, hpd, h16, -⟩ := hr.desc_slot hd
    exact hsame d h16 fun he => hnew (he ▸ hpd.symm ▸ hheld)
  refine ⟨_, rfl, ⟨?_, ?_, ?_, ?_, ?_, fun c => ?_, fun c x hx => ?_, hr.live⟩, rfl, rfl, rfl, rfl⟩
  · exact hr.held.cons p
  · exact List.nodup_cons.mpr ⟨hnew, hr.nodup⟩
  · intro p' hp'
    obtain rfl | hp' := List.mem_cons.mp hp'
    · exact ⟨hpos, hp4, hlt⟩
    · exact hr.frames p' hp'
  · have := hr.descs
    rw [hpool] at this
    exact this.append_left (slots p)
  · have hl := isLinked_objects (g := fun d => ptr (next (setNext m (p + 16 * 255) h.freeBucketDesc) d)) (a := p) (k := 16)
      (n := 255) (f := []) (fun i hi => ?_) ?_
    · rw [List.append_nil] at hl
      have hp0 : ptr p = some p := ptr_of_ne (by omega)
      rw [← hp0] at hl
      exact hl
    · have hload : next (setNext m (p + 16 * 255) h.freeBucketDesc) (p + 16 * i) = p + 16 * (i + 1) :=
        (Bytes.load_store_other (by omega)).trans (hlinks i hi)
      rw [hload, ptr_of_ne (by omega)]
    · rw [next_setNext (by rw [h0]; decide), h0]
      rfl
  · exact (hr.chains c).congr fun d hd => congrArg ptr (hold d (chain_mem hd)).next
  · refine hr.keep hx (hold _ (mem_desc hx)).data fun o ho hpo => hsame o ho fun he => hnew ?_
    rw [← he, hpo]
    exact (hr.page_frame hx).1

theorem liveIn_fresh (hr : Rep h live S) (hq : q ∉ h.held) : liveIn live q = [] := by
  refine List.filter_eq_nil_iff.mpr fun a ha => ?_
  obtain ⟨u, hu, rfl⟩ := List.mem_map.mp ha
  obtain ⟨c, -, x, hx, hp⟩ := hr.live u hu
  have hheld := (hr.page_frame hx).1
  intro he
  rw [decide_eq_true_eq, hp] at he
  exact hq (he ▸ hheld)

/-- A descriptor of the pool takes a fresh frame and goes in front of the chain. -/
theorem new (hr : Rep h live S) (hq : h.Fresh q) {f : List ℕ} (hpool : S.pool = d :: f) (b : Fin 9) :
    ∃ h', h.newBucket b q = .ok (d, h') ∧ Rep h' live ({ S with pool := f }.setDir b (⟨d, q, objectsOf b q⟩ :: S.dir b)) ∧
      h'.held = q :: h.held ∧ h'.freed = h.freed := by
  obtain ⟨hpos, hq4, hlt, hnew⟩ := hq
  obtain ⟨hge, hmod, hmul⟩ := size_facts b
  have hdm : d ∈ S.pool ++ S.buckets.map Bucket.desc := by simp [hpool]
  obtain ⟨pd, -, hpdheld, hpd, hd16, hd0, hdlt⟩ := hr.desc_slot hdm
  have hdq : pageOf d ≠ q := fun he => hnew (he ▸ hpd ▸ hpdheld)
  have hfirst : h.freeBucketDesc = d := by
    have hlink := hr.pool
    rw [hpool] at hlink
    exact eq_of_ptr hlink.1
  have hchain : h.chain b < addresses := hr.head_lt (hr.chains b) fun _ hd => chain_mem hd
  obtain ⟨N, hN, hlast⟩ := cut_up b
  unfold Heap.newBucket
  rw [if_neg (by omega)]
  dsimp only
  rw [getFreePage_spec (by omega), hfirst, show 4096 / size b - 1 = N by omega]
  dsimp only
  generalize hm1 : setBucketSize (setRefcnt h.mem d 0) d (size b) = m1
  generalize hm2 : (fun a => if q ≤ a ∧ a < q + 4096 then 0 else m1 a) = m2
  generalize hm3 : setPage (setFreeptr m2 d q) d q = m3
  obtain ⟨hend, hlinks, hother⟩ := linkUp_spec (m := m3) (a := q) (n := N) (e := 0) (k := size b) (by omega) (by omega)
  generalize linkUp 0 (size b) N (m3, q) = r at hend hlinks hother ⊢
  obtain ⟨m4, cp⟩ := r
  dsimp only at hend hlinks hother ⊢
  subst hend
  generalize hm5 : m4.store 4 (q + size b * N) 0 = m5
  have hclear : ∀ x, x < q ∨ q + 4096 ≤ x → m2 x = m1 x := fun x hx => by
    rw [← hm2]
    exact clear_other hx
  have hcut : ∀ x, x < q ∨ q + 4096 ≤ x → m5 x = m3 x := fun x hx => by
    rw [← hm5]
    exact (Bytes.store_other (by omega)).trans (hother x (by omega))
  have hcells : ∀ a, a % 16 = 0 → a ≠ d → pageOf a ≠ q → SameAt h.mem (setNext m5 d (h.chain b)) a := fun a ha hne hpa => by
    have h1 : SameAt h.mem m1 a := by
      rw [← hm1]
      exact (sameAt_store ha hd16 hne (by decide)).trans (sameAt_store ha hd16 hne (by decide))
    have h2 : SameAt m2 m3 a := by
      rw [← hm3]
      exact (sameAt_store ha hd16 hne (by decide)).trans (sameAt_store (e := 0) ha hd16 hne (by decide))
    have h3 : SameAt m5 (setNext m5 d (h.chain b)) a := sameAt_store ha hd16 hne (by decide)
    exact (((h1.trans (sameAt_of_frame hq4 hlt hclear ha hpa)).trans h2).trans (sameAt_of_frame hq4 hlt hcut ha hpa)).trans h3
  have hfields := newDesc_spec (v := h.chain b) hd16 (show q < addresses by omega)
    (hm1 ▸ sameAt_of_frame hq4 hlt hclear hd16 hdq) (hm3 ▸ sameAt_of_frame hq4 hlt hcut hd16 hdq)
  obtain ⟨hpg, hfp, hrc, hsz⟩ := hfields
  have hdesc : ∀ e ∈ S.pool ++ S.buckets.map Bucket.desc, e ≠ d → SameAt h.mem (setNext m5 d (h.chain b)) e := fun e he hne => by
    obtain ⟨p', -, hheld, hpe, h16, -⟩ := hr.desc_slot he
    exact hcells e h16 hne fun hq => hnew (hq ▸ hpe.symm ▸ hheld)
  have hnd := hr.descs_nodup
  rw [hpool, List.cons_append, List.nodup_cons] at hnd
  have hperm : ({ S with pool := f }.setDir b (⟨d, q, objectsOf b q⟩ :: S.dir b)).buckets.Perm (⟨d, q, objectsOf b q⟩ :: S.buckets) :=
    buckets_cons
  refine ⟨_, rfl, ⟨?_, ?_, ?_, ?_, ?_, fun c => ?_, fun c x hx => ?_, fun u hu => ?_⟩, rfl, rfl⟩
  · have h1 := (hr.held.cons q).trans List.perm_middle.symm
    exact h1.trans ((hperm.map Bucket.page).symm.append_left _)
  · exact List.nodup_cons.mpr ⟨hnew, hr.nodup⟩
  · intro p' hp'
    obtain rfl | hp' := List.mem_cons.mp hp'
    · exact ⟨hpos, hq4, hlt⟩
    · exact hr.frames p' hp'
  · have h1 := hr.descs
    rw [hpool] at h1
    exact ((hperm.map Bucket.desc).append_left f).trans (List.perm_middle.trans h1)
  · have hlink := hr.pool
    rw [hpool] at hlink
    refine hlink.2.congr fun e he => congrArg ptr (hdesc e (by simp [hpool, he]) fun hed => ?_).next
    exact hnd.1 (hed ▸ List.mem_append_left _ he)
  · have hold : ∀ e ∈ (S.dir c).map Bucket.desc, ptr (next (setNext m5 d (h.chain b)) e) = ptr (next h.mem e) := fun e he => by
      refine congrArg ptr (hdesc e (chain_mem he) fun hed => ?_).next
      obtain ⟨z, hz, rfl⟩ := List.mem_map.mp he
      exact hnd.1 (hed ▸ List.mem_append_right _ (List.mem_map_of_mem (mem_buckets.mpr ⟨c, hz⟩)))
    rw [setDir_dir]
    dsimp only
    rw [Function.update_apply]
    split_ifs with hc
    · subst hc
      have hnx : next (setNext m5 d (h.chain c)) d = h.chain c := next_setNext hchain
      refine ⟨ptr_of_ne (by omega), ?_⟩
      change IsLinked _ (ptr (next (setNext m5 d (h.chain c)) d)) _
      rw [hnx]
      exact (hr.chains c).congr hold
    · exact (hr.chains c).congr hold
  · have hcase : c = b ∧ x = ⟨d, q, objectsOf b q⟩ ∨ x ∈ S.dir c := by
      rw [setDir_dir] at hx
      split_ifs at hx with hc
      · exact (List.mem_cons.mp hx).imp (fun he => ⟨hc, he⟩) fun he => hc ▸ he
      · exact Or.inr hx
    obtain ⟨rfl, rfl⟩ | hx := hcase
    · refine ⟨hpg, hsz, ?_, ?_, ?_⟩
      · have hobj : ∀ o ∈ objectsOf c q, Bytes.load (setNext m5 d (h.chain c)) 4 o = m5.load 4 o := fun o ho => by
          obtain ⟨hpo, ho16, -⟩ := objectsOf_spec hq4 hlt ho
          exact (sameAt_store ho16 hd16 (fun he => hdq (he ▸ hpo)) (by decide)).load (e := 0) (by decide)
        have hlist : objectsOf c q = objects q (size c) (N + 1) := by rw [objectsOf, hN]
        have hto := isLinked_objects (g := fun o => ptr (m5.load 4 o)) (a := q) (k := size c) (n := N) (f := []) (fun i hi => ?_) ?_
        · rw [List.append_nil, ← hlist, ← ptr_of_ne (show q ≠ 0 by omega)] at hto
          rw [hfp]
          exact hto.congr fun o ho => congrArg ptr (hobj o ho)
        · have hmul : size c * i + size c ≤ size c * N := by
            rw [← Nat.mul_succ]
            exact Nat.mul_le_mul_left _ hi
          have hload : m5.load 4 (q + size c * i) = q + size c * (i + 1) := by
            rw [← hm5]
            exact (Bytes.load_store_other (by omega)).trans (hlinks i hi)
          rw [hload, ptr_of_ne (by omega)]
        · have hload : m5.load 4 (q + size c * N) = 0 := by
            rw [← hm5]
            exact Bytes.load_store_of_lt (by decide)
          rw [hload]
          rfl
      · rw [hrc, hr.liveIn_fresh hnew]
        rfl
      · rw [hr.liveIn_fresh hnew, List.append_nil]
    · have hxq : x.page ≠ q := fun he => hnew (he ▸ (hr.page_frame hx).1)
      have hxd : x.desc ≠ d := fun he => hnd.1 (he ▸ List.mem_append_right _ (List.mem_map_of_mem (mem_buckets.mpr ⟨c, hx⟩)))
      refine hr.keep hx (hdesc _ (mem_desc hx) hxd).data fun o ho hpo => hcells o ho (fun hod => ?_) (hpo ▸ hxq)
      exact hr.page_ne hx hdm (hod ▸ hpo)
  · obtain ⟨c, hc, x, hx, hp⟩ := hr.live u hu
    refine ⟨c, hc, x, ?_, hp⟩
    rw [setDir_dir]
    split_ifs with hcb
    · exact List.mem_cons_of_mem _ (hcb ▸ hx)
    · exact hx

/-- The descriptor before is the accurate one. -/
theorem findPrev (hr : Rep h live S) (hl : S.dir b = l ++ x :: l') :
    h.findPrev b (l.map Bucket.desc).getLast? x.desc = .ok (l.map Bucket.desc).getLast? := by
  have hlink := hr.chains b
  rw [hl, List.map_append, List.map_cons] at hlink
  unfold Heap.findPrev
  refine if_pos ?_
  obtain rfl | ⟨l, z, rfl⟩ := l.eq_nil_or_concat
  · exact decide_eq_true (eq_of_ptr hlink.1)
  · rw [List.concat_eq_append, List.map_append, List.map_singleton] at hlink ⊢
    rw [List.getLast?_concat]
    rw [List.append_assoc] at hlink
    exact decide_eq_true (eq_of_ptr hlink.next_eq)

theorem unlink (hr : Rep h live S) (hl : S.dir b = l ++ x :: l') : ∃ h', h.unlink b (l.map Bucket.desc).getLast? x.desc = .ok h' ∧
    h'.freeBucketDesc = h.freeBucketDesc ∧ h'.held = h.held ∧ h'.freed = h.freed ∧ (∀ c, c ≠ b → h'.chain c = h.chain c) ∧
    (∀ a, a % 16 = 0 → SameData h.mem h'.mem a) ∧ (∀ a, a % 16 = 0 → a ∉ l.map Bucket.desc → SameAt h.mem h'.mem a) ∧
    IsLinked (fun d => ptr (next h'.mem d)) (ptr (h'.chain b)) ((l ++ l').map Bucket.desc) := by
  have hlink := hr.chains b
  rw [hl, List.map_append, List.map_cons] at hlink
  unfold Heap.unlink
  obtain rfl | ⟨l, z, rfl⟩ := l.eq_nil_or_concat
  · have hfirst : h.chain b = x.desc := eq_of_ptr hlink.1
    refine ⟨_, if_pos hfirst, rfl, rfl, rfl, fun c hc => Function.update_of_ne hc .., fun _ _ => ⟨rfl, rfl, rfl, rfl⟩,
      fun _ _ _ _ _ => rfl, ?_⟩
    dsimp only
    rw [Function.update_self]
    exact hlink.2
  · rw [List.concat_eq_append] at hl hlink ⊢
    rw [List.map_append, List.map_singleton, List.getLast?_concat]
    rw [List.map_append, List.map_singleton, List.append_assoc] at hlink
    have hz : z ∈ S.dir b := by simp [hl]
    obtain ⟨-, -, -, -, hz16, -⟩ := hr.desc_slot (mem_desc hz)
    refine ⟨_, rfl, rfl, rfl, rfl, fun _ _ => rfl, fun a ha => setNext_data ha hz16, fun a ha hm => ?_, ?_⟩
    · exact sameAt_store ha hz16 (fun he => hm (by simp [he])) (by decide)
    · have hu := hlink.unlink
      rw [List.append_assoc, List.map_append, List.map_append, List.map_singleton]
      refine hu.congr fun e he => ?_
      dsimp only
      have hem : e ∈ (S.dir b).map Bucket.desc := by
        rw [hl]
        simp only [List.map_append, List.map_cons, List.mem_append, List.mem_cons] at he ⊢
        tauto
      obtain ⟨-, -, -, -, he16, -⟩ := hr.desc_slot (chain_mem hem)
      by_cases hez : e = z.desc
      · rw [hez, Function.update_self, next_setNext (Bytes.load_lt ..)]
      · rw [Function.update_of_ne hez]
        exact congrArg ptr (sameAt_store he16 hz16 hez (by decide)).next

/-- No descriptor is on two chains. -/
theorem desc_ne (hr : Rep h live S) (hy : y ∈ S.dir c) (hx : x ∈ S.dir b) (hcb : c ≠ b) : y.desc ≠ x.desc := by
  obtain ⟨l, l', hl⟩ := List.append_of_mem hx
  refine (hr.others (c := c) hl ?_).1
  rwa [setDir_dir, if_neg hcb]

/-- A bucket without live blocks leaves its chain, and its descriptor goes to the pool. -/
theorem drop (hr : Rep h live S) (hl : S.dir b = l ++ x :: l') (hempty : liveIn live x.page = []) :
    ∃ h', h.dropBucket b (l.map Bucket.desc).getLast? x.desc = .ok h' ∧
      Rep h' live ({ S with pool := x.desc :: S.pool }.setDir b (l ++ l')) ∧ h'.freed = x.page :: h.freed := by
  have hx := mem_at hl
  obtain ⟨h₁, hun, hfree, hheld, hfreed, hchain, hdata, hcells, hlist⟩ := hr.unlink hl
  obtain ⟨-, -, -, -, hx16, hx0, -⟩ := hr.desc_slot (mem_desc hx)
  have hpg : page h₁.mem x.desc = x.page := (hdata _ hx16).page.trans (hr.buckets b x hx).page
  have hpool : h.freeBucketDesc < addresses := hr.head_lt hr.pool fun d hd => List.mem_append_left _ hd
  have hrun : h.dropBucket b (l.map Bucket.desc).getLast? x.desc =
      .ok { h₁.freePage x.page with mem := setNext h₁.mem x.desc h.freeBucketDesc, freeBucketDesc := x.desc } := by
    unfold Heap.dropBucket
    rw [hr.findPrev hl]
    refine (bind_of_ok hun _).trans ?_
    rw [hpg]
    change Except.ok _ = _
    rw [show (h₁.freePage x.page).freeBucketDesc = h.freeBucketDesc from hfree]
    rfl
  refine ⟨_, hrun, ?_, congrArg (x.page :: ·) hfreed⟩
  have hnd := hr.descs_nodup
  have hsplit := buckets_split hl
  have hperm : ({ S with pool := x.desc :: S.pool }.setDir b (l ++ l')).buckets = (S.setDir b (l ++ l')).buckets := rfl
  have hheldp : (h.held.erase x.page).Perm (S.pages ++ (S.setDir b (l ++ l')).buckets.map Bucket.page) := by
    have h1 := hr.held.trans ((hsplit.map Bucket.page).append_left S.pages)
    have h2 := (h1.trans List.perm_middle).erase x.page
    rwa [List.erase_cons_head] at h2
  have hnx : ∀ e ∈ S.pool ++ S.buckets.map Bucket.desc, e ≠ x.desc →
      next (setNext h₁.mem x.desc h.freeBucketDesc) e = next h₁.mem e := fun e he hne => by
    obtain ⟨-, -, -, -, he16, -⟩ := hr.desc_slot he
    exact (sameAt_store he16 hx16 hne (by decide)).next
  have hsame : ∀ e ∈ S.pool ++ S.buckets.map Bucket.desc, e ≠ x.desc → e ∉ l.map Bucket.desc →
      ptr (next (setNext h₁.mem x.desc h.freeBucketDesc) e) = ptr (next h.mem e) := fun e he hne hm => by
    obtain ⟨-, -, -, -, he16, -⟩ := hr.desc_slot he
    rw [hnx e he hne, (hcells e he16 hm).next]
  refine ⟨?_, ?_, fun p hp => ?_, ?_, ?_, fun c => ?_, fun c y hy => ?_, fun u hu => ?_⟩
  · rw [← hheld] at hheldp
    exact hheldp
  · change (h₁.held.erase x.page).Nodup
    rw [hheld]
    exact hr.nodup.erase _
  · refine hr.frames p ?_
    rw [← hheld]
    exact List.mem_of_mem_erase hp
  · exact (List.perm_middle.symm.trans ((hsplit.map Bucket.desc).symm.append_left S.pool)).trans hr.descs
  · refine ⟨ptr_of_ne (show x.desc ≠ 0 by omega), ?_⟩
    change IsLinked _ (ptr (next (setNext h₁.mem x.desc h.freeBucketDesc) x.desc)) S.pool
    rw [next_setNext hpool]
    have hsep : ∀ e ∈ S.pool, ∀ z ∈ S.dir b, e ≠ z.desc := fun e he z hz =>
      (List.nodup_append.mp hnd).2.2 e he _ (List.mem_map_of_mem (mem_buckets.mpr ⟨b, hz⟩))
    refine hr.pool.congr fun e he => hsame e (List.mem_append_left _ he) (hsep e he x hx) fun hm => ?_
    obtain ⟨z, hz, rfl⟩ := List.mem_map.mp hm
    exact hsep _ he z (by simp [hl, hz]) rfl
  · rw [setDir_dir]
    split_ifs with hc
    · subst hc
      refine hlist.congr fun e he => congrArg ptr (hnx e (chain_mem (c := c) ?_) ?_)
      · rw [hl]
        simp only [List.map_append, List.map_cons, List.mem_append, List.mem_cons] at he ⊢
        tauto
      · obtain ⟨z, hz, rfl⟩ := List.mem_map.mp he
        exact (hr.others (c := c) hl (by rwa [setDir_dir, if_pos rfl])).1
    · have hlink := hr.chains c
      rw [← hchain c hc] at hlink
      refine hlink.congr fun e he => ?_
      obtain ⟨z, hz, rfl⟩ := List.mem_map.mp he
      refine hsame _ (mem_desc hz) (hr.desc_ne hz hx hc) fun hm => ?_
      obtain ⟨z', hz', he'⟩ := List.mem_map.mp hm
      exact hr.desc_ne hz (x := z') (by simp [hl, hz']) hc he'.symm
  · have hyS := mem_of_split hl hy
    obtain ⟨-, -, -, -, hy16, -⟩ := hr.desc_slot (mem_desc hyS)
    refine hr.keep hyS ((hdata _ hy16).trans (setNext_data hy16 hx16)) fun o ho hpo => ?_
    have hne : ∀ e ∈ S.pool ++ S.buckets.map Bucket.desc, o ≠ e := fun e he hoe => hr.page_ne hyS he (hoe ▸ hpo)
    refine (hcells o ho fun hm => ?_).trans (sameAt_store ho hx16 (hne _ (mem_desc hx)) (by decide))
    obtain ⟨z, hz, hoz⟩ := List.mem_map.mp hm
    exact hne _ (mem_desc (x := z) (b := b) (by simp [hl, hz])) hoz.symm
  · obtain ⟨c, hc, z, hz, hpz⟩ := hr.live u hu
    obtain ⟨-, rfl⟩ | hz := mem_split hl hz
    · have hum : u.1 ∈ liveIn live z.page := List.mem_filter.mpr ⟨List.mem_map_of_mem hu, decide_eq_true hpz⟩
      rw [hempty] at hum
      cases hum
    · exact ⟨c, hc, z, hz, hpz⟩

end Rep

end Linux011.Malloc
