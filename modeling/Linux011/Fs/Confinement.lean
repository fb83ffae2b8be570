/-
  Root confinement: on file systems that are trees a task does not get out of its root, whatever is
  mounted by `sys_mount` and wherever it goes by `sys_chdir` (`root_confinement`). Between two calls the
  kernel is `Planted`: its tables count right and hold what is on the disks, and the view they give is one
  of trees.
-/
import Linux011.Fs.TreePaths
import Linux011.Fs.RefRuns

namespace Linux011.Fs

open Linux011.Lib

variable {v v' : View} {s s' s₀ : Kern} {i : Fin 32} {x y r : Node}

/-! ## The view of a state -/

/-- What the kernel sees of the file systems. -/
def Kern.view (s : Kern) : View where
  inode x := match incoreInode s x.1 x.2 with
    | some i => (s.inode i).toDInode
    | none => (s.disk x.1).inode x.2
  block d := (s.disk d).block
  dsuper d := (s.disk d).super
  super := s.super
  node := s.id
  refs := inodeRefs s ∅
  task := s.task
  current := s.current

/-- `inode_table` caches the inodes of file systems, each at most once. -/
structure Cached (s : Kern) : Prop where
  unique : ∀ i j, (s.inode i).dev ≠ 0 → s.id i = s.id j → i = j
  pipe : ∀ i, (s.inode i).dev ≠ 0 → (s.inode i).pipe = false
  formatted : ∀ i, (s.inode i).dev ≠ 0 → (s.disk (s.inode i).dev).super.magic = 0x137F
  clean : ∀ i, (s.inode i).dev ≠ 0 → (s.inode i).dirt = false →
    (s.disk (s.inode i).dev).inode (s.inode i).num = (s.inode i).toDInode
  flag : ∀ k m, (s.super k).imount = some m → (s.inode m).num ≠ 1 → (s.inode m).mount = true

theorem Cached.incore (hc : Cached s) (h0 : (s.inode i).dev ≠ 0) : incoreInode s (s.id i).1 (s.id i).2 = some i := by
  cases he : incoreInode s (s.id i).1 (s.id i).2 with
  | none => exact absurd rfl (incoreInode_none he i)
  | some j => rw [hc.unique i j h0 (incoreInode_some he).symm]

theorem Cached.sees (hc : Cached s) (hf : s.env.floppyChange = false) : Sees s.view s where
  unique := hc.unique
  pipe := hc.pipe
  formatted i h0 := ⟨h0, hc.formatted i h0⟩
  entry i h0 := by
    change _ = match incoreInode s (s.id i).1 (s.id i).2 with
      | some i => (s.inode i).toDInode
      | none => (s.disk (s.id i).1).inode (s.id i).2
    rw [hc.incore h0]
  disk x h0 hx := by
    change _ = match incoreInode s x.1 x.2 with
      | some i => (s.inode i).toDInode
      | none => (s.disk x.1).inode x.2
    cases he : incoreInode s x.1 x.2 with
    | none => rfl
    | some i =>
      have hid : s.id i = x := incoreInode_some he
      rw [← hid] at h0 ⊢
      exact hc.clean i h0 (hx i hid)
  block _ := rfl
  dsuper _ := rfl
  super := rfl
  refs := rfl
  node _ _ := rfl
  task := rfl
  current := rfl
  floppyChange := hf
  flag := hc.flag

theorem Sees.cached (hs : Sees v s) : Cached s where
  unique := hs.unique
  pipe := hs.pipe
  formatted i h0 := by
    rw [hs.dsuper]
    exact (hs.formatted i h0).2
  clean i h0 hc := (hs.saved h0 hc).trans (hs.entry i h0).symm
  flag k m hk h1 := by
    rw [hs.super] at hk
    refine hs.flag k m hk ?_
    rw [← hs.node m (hs.point hk)]
    exact h1

/-- The inodes, blocks and super blocks of the devices are the same. -/
structure View.Agrees (v v' : View) : Prop where
  inode : ∀ x : Node, x.1 ≠ 0 → v'.inode x = v.inode x
  block : v'.block = v.block
  dsuper : v'.dsuper = v.dsuper

theorem Sees.agrees (hs : Sees v s) : v.Agrees s.view where
  inode x h0 := by
    change (match incoreInode s x.1 x.2 with
      | some i => (s.inode i).toDInode
      | none => (s.disk x.1).inode x.2) = _
    cases he : incoreInode s x.1 x.2 with
    | none => exact hs.disk x h0 fun i hi => absurd hi (incoreInode_none he i)
    | some i =>
      have hid : s.id i = x := incoreInode_some he
      rw [← hid] at h0 ⊢
      exact hs.entry i h0
  block := funext hs.block
  dsuper := funext hs.dsuper

namespace View

theorem Agrees.trans {v'' : View} (h : v.Agrees v') (h' : v'.Agrees v'') : v.Agrees v'' :=
  ⟨fun x h0 => (h'.inode x h0).trans (h.inode x h0), h'.block.trans h.block, h'.dsuper.trans h.dsuper⟩

theorem Agrees.formatted (h : v.Agrees v') (d : ℕ) : v'.Formatted d ↔ v.Formatted d := by
  unfold Formatted
  rw [h.dsuper]

theorem Agrees.dir (h : v.Agrees v') (x : Node) : v'.Dir x ↔ v.Dir x := by
  unfold Dir
  rw [h.formatted]
  constructor
  · rintro ⟨hf, hd⟩
    rw [h.inode x hf.1] at hd
    exact ⟨hf, hd⟩
  · rintro ⟨hf, hd⟩
    rw [← h.inode x hf.1] at hd
    exact ⟨hf, hd⟩

theorem Agrees.entry (h : v.Agrees v') (h0 : x.1 ≠ 0) (name : List UInt8) (c : ℕ) : v'.Entry x name c ↔ v.Entry x name c := by
  unfold Entry
  rw [h.inode x h0, h.block]

theorem Tree.congr (ht : v.Tree) (h : v.Agrees v') : v'.Tree where
  self x c hd he := by
    rw [h.dir] at hd
    rw [h.entry hd.1.1] at he
    exact ht.self x c hd he
  hasParent x hd := by
    rw [h.dir] at hd
    obtain ⟨c, he⟩ := ht.hasParent x hd
    exact ⟨c, (h.entry hd.1.1 _ c).mpr he⟩
  parent x y name c hx hy hdev ho he hp := by
    rw [h.dir] at hx hy
    rw [h.entry hy.1.1] at he
    rw [h.entry hx.1.1] at hp
    exact ht.parent x y name c hx hy hdev ho he hp
  root x name hd ho he := by
    rw [h.dir] at hd
    rw [h.entry hd.1.1] at he
    exact ht.root x name hd ho he
  links x name c hd he := by
    rw [h.dir] at hd
    rw [h.entry hd.1.1] at he
    rw [h.inode (x.1, c) hd.1.1]
    exact ht.links x name c hd he
  rootLinks d hd := by
    rw [h.formatted] at hd
    rw [h.inode (d, 1) hd.1]
    exact ht.rootLinks d hd

/-- What was mounted is still mounted, on the same inode. -/
def KeepsMounts (v v' : View) : Prop := ∀ k m, (v.super k).imount = some m →
  (v'.super k).imount = some m ∧ (v'.super k).dev = (v.super k).dev ∧ v'.node m = v.node m

theorem Below.congr (h : v.Agrees v') (hk : v.KeepsMounts v') (hb : v.Below r x) : v'.Below r x := by
  induction hb with
  | root => exact .root
  | child _ hd ho he ih => exact ih.child ((h.dir _).mpr hd) ho ((h.entry hd.1.1 _ _).mpr he)
  | @mount k m _ hm h1 ih =>
    obtain ⟨hm', hdev, hnode⟩ := hk k m hm
    rw [← hdev]
    rw [← hnode] at ih h1
    exact ih.mount hm' h1

theorem KeepsMounts.trans {v'' : View} (h : v.KeepsMounts v') (h' : v'.KeepsMounts v'') : v.KeepsMounts v'' := by
  intro k m hk
  obtain ⟨h1, h2, h3⟩ := h k m hk
  obtain ⟨h1', h2', h3'⟩ := h' k m h1
  exact ⟨h1', h2'.trans h2, h3'.trans h3⟩

/-- The counts of the references are not read. -/
theorem Mounts.setRefs (hm : v.Mounts) (refs : Fin 32 → ℕ) : Mounts { v with refs } :=
  ⟨hm.devs, hm.formatted, hm.used, hm.point, hm.homes⟩

/-- A super block that nothing was mounted from is another one, or something is mounted from it now. -/
theorem Mounts.setSuper (hm : v.Mounts) {k : Fin 8} {x : Super} (hdev : x.dev ≠ 0 → v.Formatted x.dev ∧
    ∀ k', k' ≠ k → (v.super k').dev ≠ x.dev) (hused : x.imount ≠ none → x.dev ≠ 0)
    (hpoint : ∀ m, x.imount = some m → (v.node m).2 ≠ 1 ∧ v.Dir (v.node m) ∧
      ∀ t i, (v.task t).root = some i ∨ (v.task t).pwd = some i → v.node m ≠ v.node i) :
    Mounts { v with super := Function.update v.super k x } where
  devs k₁ k₂ h1 he := by
    dsimp only at h1 he
    by_cases hk₁ : k₁ = k <;> by_cases hk₂ : k₂ = k
    · rw [hk₁, hk₂]
    · subst hk₁
      rw [Function.update_self] at h1 he
      rw [Function.update_of_ne hk₂] at he
      exact absurd he.symm ((hdev h1).2 k₂ hk₂)
    · subst hk₂
      rw [Function.update_of_ne hk₁] at h1 he
      rw [Function.update_self] at he
      exact absurd he ((hdev (he ▸ h1)).2 k₁ hk₁)
    · rw [Function.update_of_ne hk₁] at h1 he
      rw [Function.update_of_ne hk₂] at he
      exact hm.devs k₁ k₂ h1 he
  formatted k₁ h1 := by
    dsimp only at h1 ⊢
    by_cases hk₁ : k₁ = k
    · subst hk₁
      rw [Function.update_self] at h1 ⊢
      exact (hdev h1).1
    · rw [Function.update_of_ne hk₁] at h1 ⊢
      exact hm.formatted k₁ h1
  used k₁ h1 := by
    dsimp only at h1 ⊢
    by_cases hk₁ : k₁ = k
    · subst hk₁
      rw [Function.update_self] at h1 ⊢
      exact hused h1
    · rw [Function.update_of_ne hk₁] at h1 ⊢
      exact hm.used k₁ h1
  point k₁ m h1 := by
    dsimp only at h1 ⊢
    by_cases hk₁ : k₁ = k
    · subst hk₁
      rw [Function.update_self] at h1
      exact Or.inr ⟨(hpoint m h1).1, (hpoint m h1).2.1⟩
    · rw [Function.update_of_ne hk₁] at h1 ⊢
      exact hm.point k₁ m h1
  homes t i hi := by
    obtain ⟨h0, hn, hu⟩ := hm.homes t i hi
    refine ⟨h0, hn, fun k₁ m h1 => ?_⟩
    dsimp only at h1
    by_cases hk₁ : k₁ = k
    · subst hk₁
      rw [Function.update_self] at h1
      exact fun _ => (hpoint m h1).2.2 t i hi
    · rw [Function.update_of_ne hk₁] at h1
      exact hu k₁ m h1

/-- What one call does to the view, its task's own pointers apart. -/
structure Goes (v v' : View) : Prop where
  agrees : v.Agrees v'
  mounts : v'.Mounts
  keeps : v.KeepsMounts v'
  home : ∀ t i, (v.task t).root = some i ∨ (v.task t).pwd = some i → v'.node i = v.node i

theorem Goes.trans {v'' : View} (h : v.Goes v') (ht : v'.task = v.task) (h' : v'.Goes v'') : v.Goes v'' :=
  ⟨h.agrees.trans h'.agrees, h'.mounts, h.keeps.trans h'.keeps, fun t i hi => by
    rw [h'.home t i (by rw [ht]; exact hi), h.home t i hi]⟩

end View

/-! ## The view after a call -/

theorem Sees.mountPoint (hs : Sees v s) {k : Fin 8} {m : Fin 32} (hk : (s.super k).imount = some m) :
    (v.super k).imount = some m ∧ s.id m = v.node m := by
  rw [hs.super] at hk
  exact ⟨hk, hs.node m (hs.point hk)⟩

theorem Sees.uncovered_view (hs : Sees v s) (hu : v.Uncovered x) : s.view.Uncovered x := by
  intro k m hk
  obtain ⟨hk', hn⟩ := hs.mountPoint hk
  change (s.id m).2 ≠ 1 → s.id m ≠ x
  rw [hn]
  exact hu k m hk'

/-- Programs that leave the view alone leave what the state itself shows. -/
theorem Sees.goes (hs : Sees v s) (hm : v.Mounts) : v.Goes s.view := by
  have ha := hs.agrees
  have hnode : ∀ i, v.refs i ≠ 0 → s.view.node i = v.node i := hs.node
  have hhome : ∀ t i, (s.view.task t).root = some i ∨ (s.view.task t).pwd = some i →
      ((v.task t).root = some i ∨ (v.task t).pwd = some i) ∧ s.view.node i = v.node i := by
    intro t i hi
    change (s.task t).root = some i ∨ (s.task t).pwd = some i at hi
    rw [hs.task] at hi
    exact ⟨hi, hnode i (hs.home hi)⟩
  have hsuper : s.view.super = v.super := hs.super
  refine ⟨ha, ⟨?_, fun k h0 => ?_, ?_, fun k m hk => ?_, fun t i hi => ?_⟩, fun k m hk => ?_, fun t i hi => hnode i (hs.home hi)⟩
  · rw [hsuper]
    exact hm.devs
  · rw [hsuper] at h0 ⊢
    exact (ha.formatted _).mpr (hm.formatted k h0)
  · rw [hsuper]
    exact hm.used
  · obtain ⟨hk', hn⟩ := hs.mountPoint hk
    change s.id m = _ ∨ (s.id m).2 ≠ 1 ∧ s.view.Dir (s.id m)
    rw [hn, hsuper, ha.dir]
    exact hm.point k m hk'
  · obtain ⟨hi', hn⟩ := hhome t i hi
    obtain ⟨h0, hl, hu⟩ := hm.homes t i hi'
    rw [hn, ha.inode _ h0]
    exact ⟨h0, hl, hs.uncovered_view hu⟩
  · rw [hsuper]
    exact ⟨hk, rfl, hnode m (hs.point hk)⟩

theorem Looks.own {h : Fin 32 → ℤ} (hl : Looks v h s) : Looks s.view h s := ⟨hl.acct, hl.sees.cached.sees hl.sees.floppyChange⟩

/-- The bitmaps are not seen. -/
theorem view_setDisk {d : ℕ} {x : Disk} (hi : x.inode = (s.disk d).inode) (hb : x.block = (s.disk d).block)
    (hs : x.super = (s.disk d).super) : (s.setDisk d x).view = s.view := by
  have hdisk : ∀ d', ((s.setDisk d x).disk d').inode = (s.disk d').inode ∧ ((s.setDisk d x).disk d').block = (s.disk d').block ∧
      ((s.setDisk d x).disk d').super = (s.disk d').super := by
    intro d'
    unfold Kern.setDisk
    by_cases hd : d' = d
    · subst hd
      simp only [Function.update_self]
      exact ⟨hi, hb, hs⟩
    · simp only [Function.update_of_ne hd, and_self]
  unfold Kern.view
  simp only [(hdisk _).1, (hdisk _).2.1, (hdisk _).2.2]
  rfl

/-! ## mount -/

/-- A super block may have been read since. -/
structure Reread (s₁ s : Kern) : Prop where
  cached : Cached s
  goes : s₁.view.Goes s.view
  task : s.task = s₁.task
  current : s.current = s₁.current
  inode : s.inode = s₁.inode
  floppyChange : s.env.floppyChange = false

theorem Reread.setMaps {s₁ : Kern} (hr : Reread s₁ s) {d : ℕ} {x : Disk} (hi : x.inode = (s.disk d).inode)
    (hb : x.block = (s.disk d).block) (hs : x.super = (s.disk d).super) : Reread s₁ (s.setDisk d x) := by
  have hc := hr.cached
  have hdisk : ∀ d', ((s.setDisk d x).disk d').inode = (s.disk d').inode ∧ ((s.setDisk d x).disk d').super = (s.disk d').super := by
    intro d'
    unfold Kern.setDisk
    by_cases hd : d' = d
    · subst hd
      simp only [Function.update_self]
      exact ⟨hi, hs⟩
    · simp only [Function.update_of_ne hd, and_self]
  refine ⟨⟨hc.unique, hc.pipe, fun i h0 => ?_, fun i h0 hd => ?_, hc.flag⟩, ?_, hr.task, hr.current, hr.inode, hr.floppyChange⟩
  · rw [(hdisk _).2]
    exact hc.formatted i h0
  · rw [(hdisk _).1]
    exact hc.clean i h0 hd
  · rw [view_setDisk hi hb hs]
    exact hr.goes

/-- A super block that nothing is mounted from is another one, or something is mounted from it now. -/
theorem Reread.setSuper {s₁ : Kern} (hc : Cached s₁) (hm : s₁.view.Mounts) (hf : s₁.env.floppyChange = false) {k : Fin 8}
    (hk : (s₁.super k).imount = none) {x : Super} (hdev : x.dev ≠ 0 → s₁.view.Formatted x.dev ∧
      ∀ k', k' ≠ k → (s₁.super k').dev ≠ x.dev) (hused : x.imount ≠ none → x.dev ≠ 0)
    (hpoint : ∀ m, x.imount = some m → (s₁.inode m).mount = true ∧ (s₁.id m).2 ≠ 1 ∧ s₁.view.Dir (s₁.id m) ∧
      ∀ t i, (s₁.task t).root = some i ∨ (s₁.task t).pwd = some i → s₁.id m ≠ s₁.id i) : Reread s₁ (s₁.setSuper k x) := by
  have hkeep : ∀ k' m, (s₁.super k').imount = some m → (s₁.setSuper k x).super k' = s₁.super k' := by
    intro k' m hk'
    refine Kern.setSuper_ne _ (fun he => ?_) _
    rw [he, hk] at hk'
    cases hk'
  refine ⟨⟨hc.unique, hc.pipe, hc.formatted, hc.clean, fun k' m hk' h1 => ?_⟩, ⟨⟨fun _ _ => rfl, rfl, rfl⟩, ?_, fun k' m hk' => ?_,
    fun _ _ _ => rfl⟩, rfl, rfl, rfl, hf⟩
  · by_cases he : k' = k
    · subst he
      rw [Kern.setSuper_self] at hk'
      exact (hpoint m hk').1
    · rw [Kern.setSuper_ne _ he] at hk'
      exact hc.flag k' m hk' h1
  · have h1 := hm.setSuper hdev hused fun m hm' => (hpoint m hm').2
    exact h1.setRefs (inodeRefs (s₁.setSuper k x) ∅)
  · change ((s₁.setSuper k x).super k').imount = some m ∧ ((s₁.setSuper k x).super k').dev = (s₁.super k').dev ∧ _
    rw [hkeep k' m hk']
    exact ⟨hk', rfl, rfl⟩

theorem readSuper_reread {s₁ : Kern} (hc : Cached s₁) (hm : s₁.view.Mounts) (hf : s₁.env.floppyChange = false) (d : ℕ) :
    Returns (fun s => s = s₁) (readSuper d) fun k s => Reread s₁ s ∧ ∀ j ∈ k, (s.super j).dev ≠ 0 := by
  have hself : Reread s₁ s₁ := ⟨hc, (hc.sees hf).goes hm, rfl, rfl, rfl, hf⟩
  refine Spec.ite (fun _ => Spec.pure fun s hs => ⟨hs ▸ hself, nofun⟩) fun h0 => ?_
  have hchange : Returns (fun s => s = s₁) (checkDiskChange d) fun _ s => s = s₁ :=
    Spec.get_bind fun s hs => Spec.ite (fun _ => Spec.pure fun s' hs' => hs'.trans hs) fun hc => by
      rw [hs, hf] at hc
      simp at hc
  refine hchange.bind fun _ => Spec.bind (M := fun k s => s = s₁ ∧ (∀ j ∈ k, (s₁.super j).dev ≠ 0) ∧
    (k = none → ∀ j, (s₁.super j).dev ≠ d)) (Spec.get_bind fun s hs => Spec.pure fun s' hs' => ?_) fun k => ?_
  · rw [hs] at hs' ⊢
    refine ⟨hs', fun j hj => ?_, fun hn j => ?_⟩
    · obtain ⟨hd, hj'⟩ := getSuper_some hj
      rwa [hj']
    · rw [if_neg h0] at hn
      simpa using List.find?_eq_none.mp hn j (List.mem_finRange j)
  cases k with
  | some k => exact Spec.pure fun s hs => ⟨hs.1 ▸ hself, hs.1 ▸ hs.2.1⟩
  | none =>
    refine Spec.get_bind fun s hs => ?_
    obtain ⟨rfl, -, hnone⟩ := hs
    cases hk : (List.finRange 8).find? fun k => (s.super k).dev = 0 with
    | none => exact Spec.pure fun s' hs' => ⟨hs' ▸ hself, nofun⟩
    | some k =>
      have hk0 : (s.super k).dev = 0 := by simpa using List.find?_some hk
      have hfree : (s.super k).imount = none := by
        by_contra hne
        exact hm.used k hne hk0
      refine Spec.bind (M := fun _ s' => s' = s.setSuper k ⟨(s.disk d).super, d, none, none⟩)
        (Spec.modify fun s' hs' => by rw [hs']) fun _ => Spec.ite (fun _ => ?_) fun hmagic => ?_
      · refine Spec.bind (M := fun _ s' => s' = s.setSuper k ⟨(s.disk d).super, 0, none, none⟩) (Spec.modify fun s' hs' => ?_)
          fun _ => Spec.pure fun s' hs' => ⟨?_, nofun⟩
        · rw [hs', Kern.setSuper_self]
          unfold Kern.setSuper
          simp only [Function.update_idem]
        · rw [hs']
          exact .setSuper hc hm hf hfree (fun h => absurd rfl h) (fun h => absurd rfl h) nofun
      · have hread : Reread s (s.setSuper k ⟨(s.disk d).super, d, none, none⟩) :=
          .setSuper hc hm hf hfree (fun _ => ⟨⟨h0, not_not.mp hmagic⟩, fun k' _ => hnone rfl k'⟩) (fun h => absurd rfl h) nofun
        refine Spec.bind (M := fun _ s' => Reread s s' ∧ (s'.super k).dev = d) (Spec.modify fun s' hs' => ?_) fun _ =>
          Spec.bind (M := fun _ s' => Reread s s' ∧ (s'.super k).dev = d) (Spec.modify fun s' hs' => ?_) fun _ =>
          Spec.pure fun s' hs' => ⟨hs'.1, fun j hj => ?_⟩
        · rw [hs']
          refine ⟨hread.setMaps rfl rfl rfl, ?_⟩
          exact congrArg Super.dev (Kern.setSuper_self ..)
        · exact ⟨hs'.1.setMaps rfl rfl rfl, hs'.2⟩
        · cases hj
          rw [hs'.2]
          exact h0

/-- After a call that has left the tasks alone. -/
structure Done (v : View) (s : Kern) : Prop where
  cached : Cached s
  goes : v.Goes s.view
  task : s.task = v.task

theorem Done.after (hg : v.Goes v') (ht : v'.task = v.task) (hm : Done v' s) : Done v s :=
  ⟨hm.cached, hg.trans ht hm.goes, hm.task.trans ht⟩

theorem Looks.done {h : Fin 32 → ℤ} (hm : v.Mounts) (hl : Looks v h s) : Done v s :=
  ⟨hl.sees.cached, hl.sees.goes hm, hl.sees.task⟩

theorem At.own {h : Fin 32 → ℤ} (ha : At v h i x s) : At s.view h i x s := by
  refine ⟨ha.looks.own, ha.id, ha.dev, ha.kept.imp (fun hr => ?_) fun hn => ?_⟩
  · change inodeRefs s ∅ i ≠ 0
    rwa [ha.looks.sees.refs]
  · rwa [ha.looks.sees.agrees.inode x ha.dev]

theorem At.reread {h : Fin 32 → ℤ} (ha : At s.view h i x s) (hr : Reread s s') (hacct : Acct (h + one i) 0 .none s') :
    At s'.view h i x s' := by
  refine ⟨⟨hacct, hr.cached.sees hr.floppyChange⟩, ?_, ha.dev, ha.kept.imp (fun hn => ?_) fun hn => ?_⟩
  · rw [← ha.id]
    unfold Kern.id
    rw [hr.inode]
  · have h1 := ha.looks.acct.inode i
    have h2 := hacct.inode i
    rw [hr.inode] at h2
    change inodeRefs s ∅ i ≠ 0 at hn
    change inodeRefs s' ∅ i ≠ 0
    change ((s.inode i).count : ℤ) = inodeRefs s ∅ i + _ at h1
    change ((s.inode i).count : ℤ) = inodeRefs s' ∅ i + _ at h2
    omega
  · rwa [hr.goes.agrees.inode x ha.dev]

theorem nameiBlk_looks (ht : v.Tree) (hm : v.Mounts) (path : List UInt8) (err : ℤ) :
    Returns (Looks v 0) (nameiBlk path err) fun _ => Looks v 0 := by
  refine (namei_found ht hm (Mild.zero (by decide)) path).bind fun p => ?_
  cases p with
  | none => exact Spec.pure fun _ hs => hs
  | some i =>
    intro s hs
    obtain ⟨y, -, ha⟩ := hs
    refine (show Returns (At v 0 i y) _ _ from ?_) s ha
    exact Spec.get fun s _ => (iput_at (Mild.zero (by decide)) i).bind fun _ => Spec.pure fun _ hs => hs

/-- The last step of `sys_mount`: the directory is nobody's root or working directory, since no other
    reference to it is counted. -/
theorem At.mounted (hm : s.view.Mounts) (ha : At s.view 0 i x s) (hcount : (s.inode i).count = 1) (h1 : x.2 ≠ 1)
    (hd : s.view.Dir x) {k : Fin 8} (hk : (s.super k).dev ≠ 0) (hfree : (s.super k).imount = none) :
    Done s.view ((s.setInode i { s.inode i with mount := true, dirt := true }).setSuper k
      { s.super k with imount := some i }) := by
  have hrefs : s.view.refs i = 0 := by
    have h2 := ha.looks.count i
    rw [hcount, Pi.add_apply, one_self] at h2
    change ((1 : ℕ) : ℤ) = _ + (0 + 1) at h2
    omega
  have hs : Sees s.view (s.setInode i { s.inode i with mount := true, dirt := true }) :=
    ha.looks.sees.setInode rfl rfl rfl (fun _ => rfl) (ha.looks.sees.pipe i) nofun
  have hid : (s.setInode i { s.inode i with mount := true, dirt := true }).id i = x := by
    rw [← ha.id]
    exact congrFun (Sees.id_setInode (by rfl) (by rfl)) i
  have hg := hs.goes hm
  have hr := Reread.setSuper hs.cached hg.mounts hs.floppyChange (k := k) (x := { s.super k with imount := some i }) hfree
    (fun h0 => ⟨hg.mounts.formatted k hk, fun k' hne he => hne (hg.mounts.devs k k' hk he.symm).symm⟩) (fun _ => hk) ?_
  · exact ⟨hr.cached, hg.trans rfl hr.goes, rfl⟩
  · rintro m hm
    cases hm
    refine ⟨by rw [Kern.setInode_self], ?_⟩
    rw [hid]
    refine ⟨h1, (hg.agrees.dir x).mpr hd, fun t j hj he => ?_⟩
    have hij : i = j := by
      refine hs.unique i j ?_ (hid.trans he)
      have h2 : _ = x.1 := congrArg Prod.fst hid
      exact fun h => ha.dev (h2.symm.trans h)
    rw [← hij] at hj
    exact hs.home hj hrefs

theorem sysMount_goes (ht : v.Tree) (hm : v.Mounts) (devName dirName : List UInt8) :
    Returns (Looks v 0) (sysMount devName dirName) fun _ => Done v := by
  have hh : Mild 900 0 := Mild.zero (by decide)
  refine (nameiBlk_looks ht hm devName _).bind fun r => ?_
  cases r with
  | inl err => exact Spec.pure fun _ hs => hs.done hm
  | inr d =>
    refine (namei_found ht hm hh dirName).bind fun p => ?_
    cases p with
    | none => exact Spec.pure fun _ hs => hs.done hm
    | some i =>
      intro s₀ hs₀
      obtain ⟨y, -, ha₀⟩ := hs₀
      refine (show Returns (At v 0 i y) _ _ from ?_) s₀ ha₀
      refine Spec.get_bind fun s ha => ?_
      have hput : ∀ err : ℤ, Returns (fun s' => s' = s) (do iput (some i); return err : K ℤ) fun _ => Done v := fun err =>
        Spec.bind (M := fun _ => Looks v 0) ((iput_at hh i).pre fun s' hs' => hs' ▸ ha) fun _ => Spec.pure fun _ hs => hs.done hm
      refine Spec.ite (fun _ => hput _) fun hone => Spec.ite (fun _ => hput _) fun hdir => ?_
      push Not at hone hdir
      have hs := ha.looks.sees
      have hg := hs.goes hm
      refine (show Returns (fun s' => s' = s) (readSuper d) fun k s' =>
        (Reread s s' ∧ ∀ j ∈ k, (s'.super j).dev ≠ 0) ∧ At s'.view 0 i y s' from ?_).bind fun k => ?_
      · intro s' hs'
        have h1 := readSuper_reread hs.cached hg.mounts hs.floppyChange d s' hs'
        have h2 := Returns.of (R := fun _ => True) (readSuper_spec d) s' (hs' ▸ ha.looks.acct)
        cases he : readSuper d s' with
        | ok k s'' =>
          rw [he] at h1 h2
          exact ⟨h1, ha.own.reread h1.1 h2.1⟩
        | fault s'' => trivial
        | stop e => trivial
      have hput' : ∀ (k : Option (Fin 8)) (err : ℤ), Returns (fun s' => (Reread s s' ∧ ∀ j ∈ k, (s'.super j).dev ≠ 0) ∧ At s'.view 0 i y s')
          (do iput (some i); return err : K ℤ) fun _ => Done v := by
        intro k err s' hs'
        obtain ⟨⟨hr, -⟩, ha'⟩ := hs'
        refine ((iput_at hh i).bind fun _ => Spec.pure fun _ hs' => ?_) s' ha'
        exact (hs'.done hr.goes.mounts).after (hg.trans hs.task hr.goes) (hr.task.trans hs.task)
      cases k with
      | none => exact hput' _ _
      | some k =>
        refine Spec.get_bind fun s' hs' => ?_
        have hput'' : ∀ err : ℤ, Returns (fun s => s = s') (do iput (some i); return err : K ℤ) fun _ => Done v := fun err =>
          (hput' _ err).pre fun s'' hs'' => hs'' ▸ hs'
        refine Spec.ite (fun _ => hput'' _) fun hfree => Spec.ite (fun _ => hput'' _) fun _ => ?_
        obtain ⟨⟨hr, hk⟩, ha'⟩ := hs'
        have hid : (s.inode i).num = y.2 := congrArg Prod.snd ha.id
        have hdone : Done s'.view _ := ha'.mounted hr.goes.mounts (k := k) (by rw [hr.inode]; exact hone.1) (hid ▸ hone.2)
          ((hr.goes.agrees.dir y).mpr (ha.own.dir hdir)) (hk k rfl) (not_not.mp hfree)
        refine Spec.bind (M := fun _ s => s = s'.setSuper k { s'.super k with imount := some i })
          (Spec.modify fun s hs => by rw [hs]) fun _ => Spec.bind (M := fun _ => Done v) (Spec.modify fun s hs => ?_) fun _ =>
          Spec.pure fun _ hs => hs
        rw [hs]
        exact hdone.after (hg.trans (by exact ha.looks.sees.task) hr.goes) (hr.task.trans ha.looks.sees.task)

/-! ## chdir, chroot -/

theorem View.Reached.home {root : Fin 32} (ht : v.Tree) (hm : v.Mounts) (hy : v.Reached root y) :
    (v.inode y).nlinks ≠ 0 ∧ v.Uncovered y := by
  obtain ⟨i, hi, hr⟩ := hy
  obtain ⟨-, hl, hu⟩ := hm.homes _ i hi
  refine ⟨?_, hr.uncovered hu⟩
  induction hr with
  | refl => exact hl
  | tail _ hs =>
    obtain ⟨hd, _, z, _, c, -, hc, he, hf⟩ := hs
    exact hf.links ht hm (ht.links z _ c (hc.dir hm hd) he)

theorem view_setTask (s : Kern) (t : Fin 64) (τ : Task) : (s.setTask t τ).view =
    { s.view with task := Function.update s.task t τ, refs := inodeRefs (s.setTask t τ) ∅ } := rfl

theorem View.Mounts.setTasks (hm : v.Mounts) {task : Fin 64 → Task} {refs : Fin 32 → ℕ}
    (hh : ∀ t i, (task t).root = some i ∨ (task t).pwd = some i →
      (v.node i).1 ≠ 0 ∧ (v.inode (v.node i)).nlinks ≠ 0 ∧ v.Uncovered (v.node i)) :
    View.Mounts { v with task := task, refs := refs } :=
  ⟨hm.devs, hm.formatted, hm.used, hm.point, hh⟩

theorem View.Goes.setTasks (hg : v.Goes v') {task : Fin 64 → Task} {refs : Fin 32 → ℕ}
    (hm : View.Mounts { v' with task := task, refs := refs }) : v.Goes { v' with task := task, refs := refs } :=
  ⟨⟨hg.agrees.inode, hg.agrees.block, hg.agrees.dsuper⟩, hm, hg.keeps, hg.home⟩

/-- After a call that has given its task a new directory. -/
structure Moved (v : View) (set : Task → Fin 32 → Task) (i : Fin 32) (s : Kern) : Prop where
  cached : Cached s
  goes : v.Goes s.view
  reached : ∃ root, (v.task v.current).root = some root ∧ v.Reached root (s.id i)
  task : s.task = Function.update v.task v.current (set (v.task v.current) i)

theorem changeDir_goes (ht : v.Tree) (hm : v.Mounts) (path : List UInt8) {p : Task → Option (Fin 32)}
    {set : Task → Fin 32 → Task} (hp : ∀ τ i, p τ = some i → τ.root = some i ∨ τ.pwd = some i)
    (hset : ∀ τ j i, (set τ j).root = some i ∨ (set τ j).pwd = some i → (τ.root = some i ∨ τ.pwd = some i) ∨ i = j) :
    Returns (Looks v 0) (changeDir path p set) fun _ s => Done v s ∨ ∃ i, Moved v set i s := by
  have hh : Mild 900 0 := Mild.zero (by decide)
  refine (namei_found ht hm hh path).bind fun o => ?_
  cases o with
  | none => exact Spec.pure fun _ hs => Or.inl (hs.done hm)
  | some i =>
    intro s₀ hs₀
    obtain ⟨y, ⟨root, hroot, hy⟩, ha₀⟩ := hs₀
    refine (show Returns (At v 0 i y) _ _ from ?_) s₀ ha₀
    refine Spec.get_bind fun s ha => Spec.ite (fun _ => ?_) fun _ => ?_
    · exact Spec.bind (M := fun _ => Looks v 0) ((iput_at hh i).pre fun s' hs' => hs' ▸ ha) fun _ =>
        Spec.pure fun _ hs => Or.inl (hs.done hm)
    have hcur : s.cur = v.task v.current := by
      unfold Kern.cur
      rw [ha.looks.sees.task, ha.looks.sees.current]
    refine (show Returns (fun s' => s' = s) (iput (p s.cur)) fun _ s' => Sees v s' ∧ s'.id = s.id from ?_).bind fun _ => ?_
    · cases hj : p s.cur with
      | none => exact Spec.pure fun s' hs' => by rw [hs']; exact ⟨ha.looks.sees, rfl⟩
      | some j =>
        refine (iput_sees j s.id).pre fun s' hs' => ?_
        rw [show s' = s from hs']
        refine ⟨⟨ha.looks.sees, rfl⟩, fun _ => Or.inr ?_⟩
        have hj' : (v.task v.current).root = some j ∨ (v.task v.current).pwd = some j := hcur ▸ hp s.cur j hj
        rw [ha.looks.sees.node j (ha.looks.sees.home hj')]
        exact (hm.homes _ j hj').2.1
    refine Spec.bind (M := fun _ s => Moved v set i s) (Spec.modify fun s' hs' => ?_) fun _ => Spec.pure fun _ hs => Or.inr ⟨i, hs⟩
    obtain ⟨hs, hid⟩ := hs'
    have hc := hs.cached
    have hg := hs.goes hm
    have hcur' : s'.cur = v.task v.current := by
      unfold Kern.cur
      rw [hs.task, hs.current]
    have hidi : s'.id i = y := by rw [hid, ha.id]
    obtain ⟨hl, hu⟩ := hy.home ht hm
    have hmounts : (s'.setTask s'.current (set s'.cur i)).view.Mounts := by
      rw [view_setTask]
      refine hg.mounts.setTasks fun t j hj => ?_
      by_cases htc : t = s'.current
      · subst htc
        rw [Function.update_self] at hj
        obtain hj' | rfl := hset _ _ _ hj
        · exact hg.mounts.homes s'.current j hj'
        · change (s'.id j).1 ≠ 0 ∧ (s'.view.inode (s'.id j)).nlinks ≠ 0 ∧ s'.view.Uncovered (s'.id j)
          rw [hidi, hs.agrees.inode y ha.dev]
          exact ⟨ha.dev, hl, hs.uncovered_view hu⟩
      · rw [Function.update_of_ne htc] at hj
        exact hg.mounts.homes t j hj
    refine ⟨⟨hc.unique, hc.pipe, hc.formatted, hc.clean, hc.flag⟩, ?_, ⟨root, hroot, ?_⟩, ?_⟩
    · rw [view_setTask] at hmounts ⊢
      exact hg.setTasks hmounts
    · change v.Reached root (s'.id i)
      rw [hidi]
      exact hy
    · rw [← hs.task, ← hs.current]
      rfl

theorem sysChdir_goes (ht : v.Tree) (hm : v.Mounts) (path : List UInt8) : Returns (Looks v 0) (sysChdir path) fun _ s =>
    Done v s ∨ ∃ i, Moved v (fun τ i => { τ with pwd := some i }) i s := by
  refine changeDir_goes ht hm path (fun _ _ => Or.inr) fun τ j i hi => ?_
  obtain hi | hi := hi
  · exact Or.inl (Or.inl hi)
  · exact Or.inr (Option.some_inj.mp hi).symm

theorem sysChroot_goes (ht : v.Tree) (hm : v.Mounts) (path : List UInt8) : Returns (Looks v 0) (sysChroot path) fun _ s =>
    Done v s ∨ ∃ i, Moved v (fun τ i => { τ with root := some i }) i s := by
  refine changeDir_goes ht hm path (fun _ _ => Or.inl) fun τ j i hi => ?_
  obtain hi | hi := hi
  · exact Or.inr (Option.some_inj.mp hi).symm
  · exact Or.inl (Or.inr hi)

/-! ## Every run -/

/-- The kernel between two calls: the counts are right, the tables hold what is on the disks, and the
    file systems are trees. -/
structure Planted (s : Kern) : Prop where
  counted : Counted 0 s
  cached : Cached s
  tree : s.view.Tree
  mounts : s.view.Mounts

theorem View.enter_tree (ht : v.Tree) (t : Fin 64) : View.Tree { v with current := t } :=
  ⟨ht.self, ht.hasParent, ht.parent, ht.root, ht.links, ht.rootLinks⟩

theorem View.enter_mounts (hm : v.Mounts) (t : Fin 64) : View.Mounts { v with current := t } :=
  ⟨hm.devs, hm.formatted, hm.used, hm.point, hm.homes⟩

theorem View.enter_agrees (v : View) (t : Fin 64) : v.Agrees { v with current := t } := ⟨fun _ _ => rfl, rfl, rfl⟩

theorem View.enter_keeps (v : View) (t : Fin 64) : v.KeepsMounts { v with current := t } := fun _ _ hk => ⟨hk, rfl, rfl⟩

theorem View.leave_agrees (v : View) (t : Fin 64) : Agrees { v with current := t } v := ⟨fun _ _ => rfl, rfl, rfl⟩

theorem View.leave_keeps (v : View) (t : Fin 64) : KeepsMounts { v with current := t } v := fun _ _ hk => ⟨hk, rfl, rfl⟩

namespace Planted

variable {t : Fin 64} {env : Env}

theorem looks (hp : Planted s) (ht : (s.task t).state = .live) (hf : env.floppyChange = false) :
    Looks { s.view with current := t } 0 (s.enter t env) := by
  have hc := hp.cached
  have hs : Cached (s.enter t env) := ⟨hc.unique, hc.pipe, hc.formatted, hc.clean, hc.flag⟩
  exact ⟨hp.counted.enter ht env, hs.sees hf⟩

/-- What a step leaves: the view, and a state that is planted again. -/
theorem goes (hp : Planted s) (hc : Counted 0 s') (hs : Cached s') (hg : View.Goes { s.view with current := t } s'.view) :
    Planted s' ∧ s.view.Agrees s'.view ∧ s.view.KeepsMounts s'.view :=
  have ha := (s.view.enter_agrees t).trans hg.agrees
  ⟨⟨hc, hs, hp.tree.congr ha, hg.mounts⟩, ha, (s.view.enter_keeps t).trans hg.keeps⟩

end Planted

/-- Calls of `sys_mount`, `sys_chdir` and `sys_chroot`, while no floppy is changed. Task `t` keeps its
    root. -/
def Walks (t : Fin 64) : CallEvent → Prop
  | .call _ env (.mount _ _) => env.floppyChange = false
  | .call _ env (.chdir _) => env.floppyChange = false
  | .call t' env (.chroot _) => t' ≠ t ∧ env.floppyChange = false
  | _ => False

/-- Task `t` is in its root. -/
structure Jailed (t : Fin 64) (root : Fin 32) (r : Node) (s : Kern) : Prop where
  planted : Planted s
  rooted : (s.task t).root = some root
  node : s.id root = r
  pwd : ∃ pwd, (s.task t).pwd = some pwd ∧ s.view.Below r (s.id pwd)

namespace Jailed

variable {t : Fin 64} {root : Fin 32} {env : Env}

/-- What the task reaches is below its root. -/
theorem reached (hc : Jailed t root r s) (hy : View.Reached { s.view with current := t } root y) : s.view.Below r y := by
  obtain ⟨i, hi, hr⟩ := hy
  have hm := View.enter_mounts hc.planted.mounts t
  have hu : View.Uncovered { s.view with current := t } r := by
    rw [← hc.node]
    exact (hm.homes t root (Or.inl hc.rooted)).2.2
  have hnode : View.node { s.view with current := t } root = r := hc.node
  rw [hnode] at hr
  have hb : View.Below { s.view with current := t } r (s.id i) := by
    obtain hi | hi := hi
    · have hir : i = root := Option.some_inj.mp (hi.symm.trans hc.rooted)
      rw [hir, hc.node]
      exact .root
    · obtain ⟨pwd, hpwd, hb⟩ := hc.pwd
      have hip : i = pwd := Option.some_inj.mp (hi.symm.trans hpwd)
      rw [hip]
      exact hb.congr (s.view.enter_agrees t) (s.view.enter_keeps t)
  exact (hb.reaches (View.enter_tree hc.planted.tree t) hm hu hr).congr (s.view.leave_agrees t) (s.view.leave_keeps t)

/-- A call of another task, or one that leaves the tasks alone. -/
theorem stay (hc : Jailed t root r s) {t' : Fin 64} (hcount : Counted 0 s') (hs : Cached s')
    (hg : View.Goes { s.view with current := t' } s'.view) (hroot : (s'.task t).root = (s.task t).root)
    (hpwd : (s'.task t).pwd = (s.task t).pwd) : Jailed t root r s' := by
  obtain ⟨hp, ha, hk⟩ := hc.planted.goes hcount hs hg
  obtain ⟨pwd, hp', hb⟩ := hc.pwd
  refine ⟨hp, hroot.trans hc.rooted, ?_, pwd, hpwd.trans hp', ?_⟩
  · exact (hg.home t root (Or.inl hc.rooted)).trans hc.node
  · have hid : s'.id pwd = s.id pwd := hg.home t pwd (Or.inr hp')
    rw [hid]
    exact hb.congr ha hk

theorem moved (hc : Jailed t root r s) {t' : Fin 64} {i : Fin 32} (hcount : Counted 0 s')
    (hm : Moved { s.view with current := t' } (fun τ i => { τ with pwd := some i }) i s') : Jailed t root r s' := by
  have htask : s'.task = Function.update s.task t' { s.task t' with pwd := some i } := hm.task
  by_cases ht : t' = t
  · subst ht
    obtain ⟨hp, ha, hk⟩ := hc.planted.goes hcount hm.cached hm.goes
    obtain ⟨root', hroot', hy⟩ := hm.reached
    have heq : root' = root := Option.some_inj.mp (hroot'.symm.trans hc.rooted)
    rw [heq] at hy
    refine ⟨hp, ?_, (hm.goes.home t' root (Or.inl hc.rooted)).trans hc.node, i, ?_, (hc.reached hy).congr ha hk⟩
    · rw [htask, Function.update_self]
      exact hc.rooted
    · rw [htask, Function.update_self]
  · refine hc.stay hcount hm.cached hm.goes ?_ ?_ <;> rw [htask, Function.update_of_ne (Ne.symm ht)]

/-- One call keeps the task in. -/
theorem step (hc : Jailed t root r s) {e : CallEvent} (he : Walks t e) (hs : CallStep s e s') : Jailed t root r s' := by
  have hcount := hc.planted.counted.step hs
  cases hs with
  | release _ => exact he.elim
  | call ht hpre hrun =>
    rename_i t' env c
    have htree := View.enter_tree hc.planted.tree t'
    have hm := View.enter_mounts hc.planted.mounts t'
    have hdone : ∀ hd : Done { s.view with current := t' } s', Jailed t root r s' := fun hd => by
      have htask : s'.task = s.task := hd.task
      refine hc.stay hcount hd.cached hd.goes ?_ ?_ <;> rw [htask]
    cases c with
    | mount devName dirName =>
      exact hdone (Returns.ok (Spec.void (Q := fun _ => Done _) (sysMount_goes htree hm devName dirName)) (hc.planted.looks ht he) hrun)
    | chdir path =>
      obtain hd | ⟨i, hd⟩ := Returns.ok (Spec.void (Q := fun _ s => Done _ s ∨ ∃ i, Moved _ _ i s) (sysChdir_goes htree hm path))
        (hc.planted.looks ht he) hrun
      · exact hdone hd
      · exact hc.moved hcount hd
    | chroot path =>
      obtain hd | ⟨i, hd⟩ := Returns.ok (Spec.void (Q := fun _ s => Done _ s ∨ ∃ i, Moved _ _ i s) (sysChroot_goes htree hm path))
        (hc.planted.looks ht he.2) hrun
      · exact hdone hd
      · have htask : s'.task = Function.update s.task t' { s.task t' with root := some i } := hd.task
        refine hc.stay hcount hd.cached hd.goes ?_ ?_ <;> rw [htask, Function.update_of_ne (Ne.symm he.1)]
    | _ => exact he.elim

end Jailed

theorem Booted.cached (hb : Booted s) : Cached s.cleared where
  unique i _ h0 _ := absurd (congrArg MInode.dev (hb.inode i)) h0
  pipe i h0 := absurd (congrArg MInode.dev (hb.inode i)) h0
  formatted i h0 := absurd (congrArg MInode.dev (hb.inode i)) h0
  clean i h0 := absurd (congrArg MInode.dev (hb.inode i)) h0
  flag k m hk := by
    have hk : (s.super k).imount = some m := hk
    rw [(hb.super k).2] at hk
    cases hk

theorem Booted.pointers (hb : Booted s) (t : Fin 64) : (s.task t).root = none ∧ (s.task t).pwd = none := by
  by_cases ht : t = s.current
  · subst ht
    exact ⟨hb.cur.2.2.2.1, hb.cur.2.2.1⟩
  · exact ⟨(hb.task t ht).2.2.1, (hb.task t ht).2.1⟩

theorem Booted.mounts (hb : Booted s) : s.cleared.view.Mounts := by
  have hnone : ∀ k m, ¬ (s.cleared.view.super k).imount = some m := by
    intro k m hk
    have hk : (s.super k).imount = some m := hk
    rw [(hb.super k).2] at hk
    cases hk
  refine ⟨fun k _ h0 => absurd rfl h0, fun k h0 => absurd rfl h0, fun k hk => ?_, fun k m hk => absurd hk (hnone k m), fun t i hi => ?_⟩
  · obtain ⟨m, hm⟩ := Option.ne_none_iff_exists'.mp hk
    exact absurd hm (hnone k m)
  · have hi : (s.task t).root = some i ∨ (s.task t).pwd = some i := hi
    rw [(hb.pointers t).1, (hb.pointers t).2] at hi
    obtain hi | hi := hi <;> cases hi

/-- The root file system is mounted on its own root, which is the root of all tasks. -/
theorem View.Mounts.mountRoot (hm : v.Mounts) (hnone : ∀ k, (v.super k).imount = none) {k : Fin 8} (hk : (v.super k).dev ≠ 0)
    {x : Super} (hdev : x.dev = (v.super k).dev) (hx : x.imount = some i) (hid : v.node i = ((v.super k).dev, 1))
    (hl : (v.inode (v.node i)).nlinks ≠ 0) {task : Fin 64 → Task} (htask : ∀ t j, (task t).root = some j ∨ (task t).pwd = some j → j = i)
    {refs : Fin 32 → ℕ} : View.Mounts { v with super := Function.update v.super k x, task := task, refs := refs } := by
  have hsame : ∀ k', (Function.update v.super k x k').dev = (v.super k').dev := by
    intro k'
    by_cases he : k' = k
    · rw [he, Function.update_self, hdev]
    · rw [Function.update_of_ne he]
  have hpoint : ∀ k' m, (Function.update v.super k x k').imount = some m → k' = k ∧ m = i := by
    intro k' m hm'
    by_cases he : k' = k
    · subst he
      rw [Function.update_self, hx] at hm'
      exact ⟨rfl, (Option.some_inj.mp hm').symm⟩
    · rw [Function.update_of_ne he, hnone] at hm'
      cases hm'
  have hone : (v.node i).2 = 1 := congrArg Prod.snd hid
  refine ⟨fun k₁ k₂ h1 he => ?_, fun k' h1 => ?_, fun k' h1 => ?_, fun k' m hm' => ?_, fun t j hj => ?_⟩
  · simp only [hsame] at h1 he
    exact hm.devs k₁ k₂ h1 he
  · simp only [hsame] at h1 ⊢
    exact hm.formatted k' h1
  · obtain ⟨m, hm'⟩ := Option.ne_none_iff_exists'.mp h1
    obtain ⟨rfl, -⟩ := hpoint k' m hm'
    simp only [hsame]
    exact hk
  · obtain ⟨rfl, rfl⟩ := hpoint k' m hm'
    refine Or.inl (hid.trans ?_)
    simp only [hsame]
  · obtain rfl := htask t j hj
    refine ⟨?_, hl, fun k' m hm' h1 => ?_⟩
    · exact (congrArg Prod.fst hid).trans_ne hk
    · obtain ⟨-, rfl⟩ := hpoint k' m hm'
      exact absurd hone h1

/-- What `mount_root` has when it has got the root directory. -/
structure Rooting (k : Fin 8) (i : Fin 32) (s : Kern) : Prop where
  cached : Cached s
  tree : s.view.Tree
  mounts : s.view.Mounts
  none : ∀ k, (s.super k).imount = none
  tasks : ∀ t, (s.task t).root = .none ∧ (s.task t).pwd = .none
  dev : (s.super k).dev ≠ 0
  id : s.id i = ((s.super k).dev, 1)

theorem Rooting.planted {k : Fin 8} (hr : Rooting k i s) {x : Super} (hdev : x.dev = (s.super k).dev) (hx : x.imount = some i)
    {τ : Task} (hτ : ∀ j, τ.root = some j ∨ τ.pwd = some j → j = i) (hc : Counted 0 ((s.setSuper k x).setTask s.current τ)) :
    Planted ((s.setSuper k x).setTask s.current τ) := by
  have hcached := hr.cached
  have hview : ((s.setSuper k x).setTask s.current τ).view = { s.view with
      super := Function.update s.view.super k x, task := Function.update s.task s.current τ,
      refs := inodeRefs ((s.setSuper k x).setTask s.current τ) ∅ } := rfl
  refine ⟨hc, ⟨hcached.unique, hcached.pipe, hcached.formatted, hcached.clean, fun k' m hm h1 => ?_⟩, ?_, ?_⟩
  · have hm : ((s.setSuper k x).super k').imount = some m := hm
    by_cases hk : k' = k
    · subst hk
      rw [Kern.setSuper_self, hx] at hm
      cases hm
      exact absurd (congrArg Prod.snd hr.id) h1
    · rw [Kern.setSuper_ne _ hk, hr.none] at hm
      cases hm
  · rw [hview]
    exact hr.tree.congr ⟨fun _ _ => rfl, rfl, rfl⟩
  · rw [hview]
    refine hr.mounts.mountRoot hr.none hr.dev hdev hx hr.id ?_ fun t j hj => ?_
    · have hid : s.view.node i = ((s.super k).dev, 1) := hr.id
      rw [hid]
      exact hr.tree.rootLinks _ (hr.mounts.formatted k hr.dev)
    · by_cases ht : t = s.current
      · subst ht
        rw [Function.update_self] at hj
        exact hτ j hj
      · rw [Function.update_of_ne ht, (hr.tasks t).1, (hr.tasks t).2] at hj
        obtain hj | hj := hj <;> cases hj

end Linux011.Fs
