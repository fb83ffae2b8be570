/-
  The path functions of fs/namei.c in terms of a view: what `namei`, `dir_namei` and `open_namei`
  return is reached from the root or the directory of the task by the components of the path
  (`namei_looks`).
-/
import Linux011.Fs.TreeSpecs
import Linux011.Fs.NameCalls

namespace Linux011.Fs

open Linux011.Lib

variable {α : Type} {v : View} {h : Fin 32 → ℤ} {s s' : Kern} {i root : Fin 32} {x y z : Node} {name : List UInt8}

/-- The call holds entry `i`, which holds `x`. -/
structure At (v : View) (h : Fin 32 → ℤ) (i : Fin 32) (x : Node) (s : Kern) : Prop where
  looks : Looks v (h + one i) s
  id : s.id i = x
  dev : x.1 ≠ 0
  kept : v.Kept i x

namespace At

theorem alike (ha : At v h i x s) (hs : Alike s s') : At v h i x s' := by
  refine ⟨ha.looks.alike hs, ?_, ha.dev, ha.kept⟩
  rw [← ha.id]
  unfold Kern.id
  rw [hs.inode]

theorem inode (ha : At v h i x s) : (s.inode i).toDInode = v.inode x := by
  have h1 := ha.id
  rw [← h1]
  exact ha.looks.sees.entry i (by rw [← ha.id] at *; exact ha.dev)

theorem dev_eq (ha : At v h i x s) : (s.inode i).dev = x.1 := congrArg Prod.fst ha.id

theorem dir (ha : At v h i x s) (hd : isDir (s.inode i).mode = true) : v.Dir x := by
  have h1 := ha.looks.sees.formatted i (by rw [ha.dev_eq]; exact ha.dev)
  rw [ha.dev_eq] at h1
  exact ⟨h1, by rw [← ha.inode]; exact hd⟩

/-- A program that only reads leaves all this. -/
theorem reads {m : K α} {Q : α → Kern → Prop} (hm : ∀ s₀, Returns (Alike s₀) m fun a s => Alike s₀ s ∧ Q a s₀) :
    Returns (At v h i x) m fun a s => ∃ s₀, Alike s₀ s ∧ At v h i x s ∧ At v h i x s₀ ∧ Q a s₀ := fun s hs =>
  Out.ends_mono (hm s s (Alike.refl s)) fun _ _ h => ⟨s, h.1, hs.alike h.1, hs, h.2⟩

theorem quiet {m : K α} (hm : ∀ s₀, Returns (Alike s₀) m fun _ => Alike s₀) :
    Returns (At v h i x) m fun _ => At v h i x := fun s hs =>
  Out.ends_mono (hm s s (Alike.refl s)) fun _ _ h => hs.alike h

end At

theorem iput_at (hh : Mild 900 h) (i : Fin 32) : Returns (At v h i x) (iput (some i)) fun _ => Looks v h :=
  (iput_looks i (hh i).1).pre fun _ hs => ⟨hs.looks, fun _ => hs.id ▸ hs.kept⟩

/-- The root of the task is one entry only. -/
theorem At.root_iff (ha : At v h i x s) (hroot : (v.task v.current).root = some root) (hr : v.refs root ≠ 0) :
    some i = s.cur.root ↔ x = v.node root := by
  have hs := ha.looks.sees
  have hcur : s.cur.root = some root := by
    unfold Kern.cur
    rw [hs.task, hs.current]
    exact hroot
  rw [hcur, Option.some_inj]
  constructor
  · intro hi
    rw [← ha.id, hi]
    exact hs.node root hr
  · intro hx
    refine hs.unique i root (by rw [ha.dev_eq]; exact ha.dev) ?_
    rw [ha.id, hx, hs.node root hr]

theorem getSuper_alike (d : ℕ) : Returns (Alike s) (getSuper d) fun k s' => Alike s s' ∧ ∀ j ∈ k, d ≠ 0 ∧ (s.super j).dev = d := by
  refine Spec.get_bind fun s' hs' => Spec.pure fun s'' hs'' => ⟨hs'' ▸ hs', fun j hj => ?_⟩
  rw [hs'.super] at hj
  exact getSuper_some hj

theorem crossMount_looks (hm : v.Mounts) (hh : Mild 900 h) (hroot : (v.task v.current).root = some root) (hr : v.refs root ≠ 0)
    (dir : Fin 32) (name : List UInt8) :
    Returns (At v h dir x) (crossMount dir name) fun p s => ∃ z, At v h p.1 z s ∧ v.Crossed (v.node root) x name z p.2 := by
  refine (At.reads fun s₀ => isDotDot_alike name).bind fun dd => Spec.ite (fun hdd => ?_) fun hdd => Spec.pure fun s hs => ?_
  · refine Spec.get fun s hs => ?_
    obtain ⟨-, -, ha, -, hname⟩ := hs
    obtain rfl := hname.mp hdd
    have hat : ∀ s, (∃ s₀, Alike s₀ s ∧ At v h dir x s ∧ At v h dir x s₀ ∧ (dd = true ↔ [dot, dot] = [dot, dot])) → At v h dir x s :=
      fun s hs => hs.choose_spec.2.1
    refine Spec.ite (fun hi => Spec.pure fun s hs => ⟨x, hat s hs, .root ((ha.root_iff hroot hr).mp hi)⟩) fun hi => ?_
    have hne : x ≠ v.node root := fun hx => hi ((ha.root_iff hroot hr).mpr hx)
    have hnum : (s.inode dir).num = x.2 := congrArg Prod.snd ha.id
    rw [hnum, ha.dev_eq]
    refine Spec.ite (fun h1 => ?_) fun h1 => Spec.pure fun s hs => ⟨x, hat s hs, .inside hne h1⟩
    refine ((At.reads fun s₀ => getSuper_alike x.1).pre hat).bind fun k => ?_
    cases k with
    | none => exact Spec.halt trivial
    | some k =>
      refine Spec.get fun s hs => ?_
      obtain ⟨s₀, -, ha', ha₀, hk⟩ := hs
      rw [ha.looks.sees.super]
      have hdev : (v.super k).dev = x.1 := by
        rw [← ha₀.looks.sees.super]
        exact (hk k rfl).2
      have hat' : ∀ s, (∃ s₀, Alike s₀ s ∧ At v h dir x s ∧ At v h dir x s₀ ∧ ∀ j ∈ some k, x.1 ≠ 0 ∧ (s₀.super j).dev = x.1) →
          At v h dir x s := fun s hs => hs.choose_spec.2.1
      cases hmount : (v.super k).imount with
      | none => exact Spec.pure fun s hs => ⟨x, hat' s hs, .top hne h1 ha.dev hdev hmount⟩
      | some m =>
        have hrefs : v.refs m ≠ 0 := ha'.looks.sees.point hmount
        refine ((iput_at hh dir).pre hat').bind fun _ => ?_
        refine (incCount_looks m ((hh m).2.trans (by decide))).bind fun _ => Spec.pure fun s hs => ⟨v.node m, ⟨hs, hs.sees.node m hrefs, ?_, Or.inl hrefs⟩,
          .across hne h1 ha.dev hdev hmount⟩
        obtain heq | ⟨-, hd⟩ := hm.point k m hmount
        · rw [heq, hdev]
          exact ha.dev
        · exact hd.1.1
  · obtain ⟨-, -, ha, -, hname⟩ := hs
    exact ⟨x, ha, .plain fun he => hdd (hname.mpr he)⟩

/-! ## One component -/

theorem matches_iff {s₀ : Kern} {dir : Fin 32} {k : ℕ} (ha : At v h dir z s₀) (h0 : 0 ∉ name) (hl : name.length ≤ 14) :
    Matches s₀ dir name k ↔ zoneBlock (v.block z.1) (v.inode z).zone (k / 64) ≠ 0 ∧
      (v.block z.1 (zoneBlock (v.block z.1) (v.inode z).zone (k / 64))).word (8 * (k % 64)) ≠ 0 ∧
      entryName (v.block z.1 (zoneBlock (v.block z.1) (v.inode z).zone (k / 64))) (k % 64) = name := by
  have hz := bmapZone_eq (s := s₀) (i := dir) (k / 64) (by rw [ha.dev_eq]; exact ha.dev)
  rw [ha.dev_eq, ha.inode, ha.looks.sees.block] at hz
  unfold Matches
  rw [hz, ha.dev_eq, ha.looks.sees.block, matchEntry_iff h0 hl]

/-- What the search has found is an entry of the directory, although the number of entries searched is
    that of the directory it came from: the first entry with the name is not behind the end. -/
theorem Finds.entry {s₀ : Kern} {dir : Fin 32} {e : DirEntry} {k n : ℕ} (ha : At v h dir z s₀) (h0 : 0 ∉ name)
    (hl : name.length ≤ 14) (hf : Finds s₀ dir name k e) (hk : k < n)
    (hn : n = (v.inode z).size / 16 ∨ ∃ c, v.Entry z name c) :
    v.Entry z name ((v.block z.1 e.block).word (8 * e.place)) := by
  have hz := bmapZone_eq (s := s₀) (i := dir) (k / 64) (by rw [ha.dev_eq]; exact ha.dev)
  rw [ha.dev_eq, ha.inode, ha.looks.sees.block] at hz
  have hlt : k < (v.inode z).size / 16 := by
    obtain rfl | ⟨c, j, hj, hu, hc, hw, hname⟩ := hn
    · exact hk
    · by_contra hge
      refine hf.first j (by omega) ((matches_iff ha h0 hl).mpr ⟨hu, ?_, hname⟩)
      rw [hw]
      exact hc
  obtain ⟨hu, hw, hname⟩ := (matches_iff ha h0 hl).mp hf.found
  rw [hf.place, hz]
  exact ⟨k, hlt, hu, hw, rfl, hname⟩

/-- The search of one directory. -/
theorem searchDir_alike (dir : Fin 32) (hd : (s.inode dir).dev ≠ 0) (entries : ℕ) (name : List UInt8) :
    Returns (Alike s) (do
      let s ← Prog.get
      let d := (s.inode dir).dev
      let block := (s.inode dir).zone 0
      if block = 0 then return (dir, none)
      else if ← bread d block then
        let e ← searchEntries dir d entries name (entries + 1) 0 (some block)
        return (dir, e)
      else return (dir, none)) fun p s' => Alike s s' ∧ p.1 = dir ∧ ∀ e ∈ p.2, ∃ k < entries, Finds s dir name k e := by
  refine Spec.get_bind fun s₁ hs₁ => ?_
  rw [hs₁.inode]
  refine Spec.ite (fun _ => Spec.pure fun s' hs' => ⟨hs' ▸ hs₁, rfl, nofun⟩) fun h0 => ?_
  refine ((bread_alike _ _).pre fun s' hs' => hs' ▸ hs₁).bind fun ok => ?_
  refine Spec.ite (fun _ => ?_) fun _ => Spec.pure fun s' hs' => ⟨hs'.1, rfl, nofun⟩
  refine ((searchEntries_alike dir hd entries name (entries + 1) 0 (Or.inr ⟨?_, h0⟩) nofun).pre fun s' hs' => hs'.1).bind fun e =>
    Spec.pure fun s' hs' => ⟨hs'.1, rfl, hs'.2⟩
  rfl

/-- `find_entry`: the directory it comes to, and an entry in it. -/
theorem findEntry_looks (ht : v.Tree) (hm : v.Mounts) (hh : Mild 900 h) (hroot : (v.task v.current).root = some root)
    (hr : v.refs root ≠ 0) (dir : Fin 32) (hd : v.Dir x) (h0 : 0 ∉ name) :
    Returns (At v h dir x) (findEntry dir name) fun p s => ∃ z, At v h p.1 z s ∧ (name = [] → p.2 = none) ∧
      (name ≠ [] → ∃ name', v.Crossed (v.node root) x (name.take 14) z name' ∧
        ∀ e ∈ p.2, v.Entry z name' ((v.block z.1 e.block).word (8 * e.place))) := by
  refine Spec.get fun s hs => Spec.ite (fun hl => Spec.pure fun s hs => ?_) fun hl => ?_
  · have hnil := List.length_eq_zero_iff.mp hl
    exact ⟨x, hs, fun _ => rfl, fun hne => absurd hnil hne⟩
  have hne : name ≠ [] := fun he => hl (by rw [he]; rfl)
  have hsize : (s.inode dir).size / 16 = (v.inode x).size / 16 := by rw [congrArg DInode.size hs.inode]
  rw [hsize]
  refine (crossMount_looks hm hh hroot hr dir _).bind fun p => ?_
  obtain ⟨dir', name'⟩ := p
  intro s₁ hs₁
  obtain ⟨z, ha, hc⟩ := hs₁
  refine Out.ends_mono (searchDir_alike dir' (by rw [ha.dev_eq]; exact ha.dev) _ name' s₁ (Alike.refl s₁)) fun p s₂ hp => ?_
  obtain ⟨hal, hdir, hfound⟩ := hp
  obtain ⟨_, o⟩ := p
  obtain rfl := hdir
  refine ⟨z, ha.alike hal, fun he => absurd he hne, fun _ => ⟨name', hc, fun e he => ?_⟩⟩
  obtain ⟨k, hk, hf⟩ := hfound e he
  obtain ⟨h0', hl'⟩ := hc.nameOk (fun h => h0 (List.mem_of_mem_take h)) (List.length_take_le 14 name)
  refine hf.entry ha h0' hl' hk ?_
  obtain rfl | rfl := hc.same_or_dotDot
  · exact Or.inl rfl
  · exact Or.inr (ht.hasParent z (hc.dir hm hd))

/-- The entry has been found, and the directory is given up. -/
theorem leave_looks {Q : α → Kern → Prop} (hh : Mild 900 h) (dir : Fin 32) (e : DirEntry) {f : ℕ → K α}
    (hf : Returns (Looks v h) (f ((v.block z.1 e.block).word (8 * e.place))) Q) :
    Returns (At v h dir z) (do
      let nr ← entryInode z.1 e
      brelse z.1 e.block
      iput (some dir)
      f nr) Q := by
  refine (At.reads fun s₀ => entryInode_alike z.1 e).bind fun nr => ?_
  intro s₁ hs₁
  obtain ⟨s₀, -, ha, ha₀, hnr⟩ := hs₁
  rw [ha₀.looks.sees.block] at hnr
  subst hnr
  refine (show Returns (At v h dir z) _ Q from ?_) s₁ ha
  exact (At.quiet fun s₀ => brelse_alike z.1 e.block).bind fun _ => (iput_at hh dir).bind fun _ => hf

/-- The inode of an entry is got. -/
theorem enter_looks (ht : v.Tree) (hm : v.Mounts) (hh : Mild 900 h) (hz : v.Dir z) {c : ℕ} (he : v.Entry z name c) :
    Returns (Looks v h) (iget z.1 c) fun i s => ∃ y, v.Follows (z.1, c) y ∧ At v h i y s :=
  (iget_looks hm hh z.1 c hz.1).post fun i s hs =>
    ⟨s.id i, hs.2.2, hs.1, rfl, hs.2.1, Or.inr (hs.2.2.links ht hm (ht.links z _ _ hz he))⟩

/-- Its inode takes the place of the directory. -/
theorem follow_looks {Q : α → Kern → Prop} (ht : v.Tree) (hm : v.Mounts) (hh : Mild 900 h) (dir : Fin 32) (hz : v.Dir z)
    {e : DirEntry} (he : v.Entry z name ((v.block z.1 e.block).word (8 * e.place))) {f : Fin 32 → K α}
    (hf : ∀ i y, v.Follows (z.1, (v.block z.1 e.block).word (8 * e.place)) y → Returns (At v h i y) (f i) Q) :
    Returns (At v h dir z) (do
      let nr ← entryInode z.1 e
      brelse z.1 e.block
      iput (some dir)
      let i ← iget z.1 nr
      f i) Q := by
  refine leave_looks hh dir e ((enter_looks ht hm hh hz he).bind fun i s hs => ?_)
  obtain ⟨y, hy, ha⟩ := hs
  exact hf i y hy s ha

/-! ## Path names -/

/-- The inode a lookup returns, if any. -/
def Returned (v : View) (h : Fin 32 → ℤ) (P : Node → Prop) (p : Option (Fin 32)) (s : Kern) : Prop :=
  match p with
  | none => Looks v h s
  | some i => ∃ y, P y ∧ At v h i y s

theorem walk_looks (ht : v.Tree) (hm : v.Mounts) (hh : Mild 900 h) (hroot : (v.task v.current).root = some root)
    (hr : v.refs root ≠ 0) (n : ℕ) (i : Fin 32) (path : List UInt8) :
    Returns (At v h i x) (walk n i path) (Returned v h fun y => v.Reaches (v.node root) x y ∧ v.Dir y) := by
  have hnone : ∀ i y (P : Node → Prop), Returns (At v h i y) (do iput (some i); return none) (Returned v h P) := fun i y P =>
    (iput_at hh i).bind fun _ => Spec.pure fun s hs => hs
  induction n generalizing i x path with
  | zero => exact Spec.halt trivial
  | succ n ih =>
    refine Spec.get fun s hs => Spec.ite (fun _ => hnone i x _) fun hdir => ?_
    push Not at hdir
    have hd : v.Dir x := hs.dir hdir.1
    refine (At.reads fun s₀ => nextName_alike path).bind fun r => ?_
    obtain ⟨name, rest⟩ := r
    intro s₁ hs₁
    obtain ⟨-, -, ha, -, h0⟩ := hs₁
    refine (show Returns (At v h i x) _ _ from ?_) s₁ ha
    cases rest with
    | none => exact Spec.pure fun s hs => ⟨x, ⟨.refl, hd⟩, hs⟩
    | some rest =>
      refine (findEntry_looks ht hm hh hroot hr i hd h0).bind fun r => ?_
      obtain ⟨dir, o⟩ := r
      intro s₂ hs₂
      obtain ⟨z, ha₂, hnil, hfound⟩ := hs₂
      refine (show Returns (At v h dir z) _ _ from ?_) s₂ ha₂
      cases o with
      | none => exact hnone dir z _
      | some e =>
        have hne : name ≠ [] := fun he => nomatch hnil he
        obtain ⟨name', hc, he⟩ := hfound hne
        refine Spec.get fun s hs => ?_
        rw [hs.dev_eq]
        refine follow_looks ht hm hh dir (hc.dir hm hd) (he e rfl) fun j y hy => (ih j rest).post fun p s hp => ?_
        have hstep : v.Step (v.node root) x y := ⟨hd, name.take 14, z, name', _, by simpa using hne, hc, he e rfl, hy⟩
        cases p with
        | none => exact hp
        | some k =>
          obtain ⟨y', hy', ha'⟩ := hp
          exact ⟨y', ⟨.head hstep hy'.1, hy'.2⟩, ha'⟩

/-- `y` is reached from the root of the running task or from its directory. -/
def View.Reached (v : View) (root : Fin 32) (y : Node) : Prop :=
  ∃ i, ((v.task v.current).root = some i ∨ (v.task v.current).pwd = some i) ∧ v.Reaches (v.node root) (v.node i) y

theorem getDir_looks (ht : v.Tree) (hm : v.Mounts) (hh : Mild 900 h) (hroot : (v.task v.current).root = some root)
    (path : List UInt8) : Returns (Looks v h) (getDir path) (Returned v h fun y => v.Reached root y ∧ v.Dir y) := by
  refine Spec.get fun s hl => ?_
  have hcur : s.cur = v.task v.current := by
    unfold Kern.cur
    rw [hl.sees.task, hl.sees.current]
  have hpos : ∀ i, (s.cur.root = some i ∨ s.cur.pwd = some i) → v.refs i ≠ 0 := fun i hi => hl.sees.home (hcur ▸ hi)
  have hr : v.refs root ≠ 0 := hl.sees.home (Or.inl hroot)
  have hfrom : ∀ (i : Fin 32) (path' : List UInt8), (s.cur.root = some i ∨ s.cur.pwd = some i) → Returns (Looks v h)
      (do incCount i; walk (path.length + 1) i path') (Returned v h fun y => v.Reached root y ∧ v.Dir y) := by
    intro i path' hi
    have hinc : Returns (Looks v h) (incCount i) fun _ => At v h i (v.node i) :=
      (incCount_looks i ((hh i).2.trans (by decide))).post fun _ s hs =>
        ⟨hs, hs.sees.node i (hpos i hi), ?_, Or.inl (hpos i hi)⟩
    · refine hinc.bind fun _ => (walk_looks ht hm hh hroot hr _ i path').post fun p s hp => ?_
      cases p with
      | none => exact hp
      | some j =>
        obtain ⟨y, hy, ha⟩ := hp
        exact ⟨y, ⟨⟨i, hcur ▸ hi, hy.1⟩, hy.2⟩, ha⟩
    · exact (hm.homes v.current i (hcur ▸ hi)).1
  cases h1 : inUse s s.cur.root with
  | none => exact Spec.halt trivial
  | some rootI =>
    cases h2 : inUse s s.cur.pwd with
    | none => exact Spec.halt trivial
    | some pwd =>
      have hroot' : s.cur.root = some rootI := Option.eq_some_of_filter_eq_some h1
      have hpwd : s.cur.pwd = some pwd := Option.eq_some_of_filter_eq_some h2
      have hacc : Returns (Looks v h) access fun _ => Looks v h := fun s hs =>
        Out.ends_mono (access_alike s (Alike.refl s)) fun _ _ ha => hs.alike ha
      refine hacc.bind fun _ => Spec.ite (fun _ => hfrom rootI _ (Or.inl hroot')) fun _ => ?_
      exact Spec.ite (fun _ => hfrom pwd _ (Or.inr hpwd)) fun _ => Spec.pure fun _ hs => hs

theorem basename_nonzero (path : List UInt8) : 0 ∉ basename (cString path) := by
  intro h
  have h1 : (0 : UInt8) ∈ cString path := by
    unfold basename at h
    exact List.mem_reverse.mp ((List.takeWhile_sublist _).subset (List.mem_reverse.mp h))
  simpa using List.all_eq_true.mp List.all_takeWhile 0 h1

theorem dirNamei_looks (ht : v.Tree) (hm : v.Mounts) (hh : Mild 900 h) (hroot : (v.task v.current).root = some root)
    (path : List UInt8) : Returns (Looks v h) (dirNamei path) fun p s =>
      Returned v h (fun y => v.Reached root y ∧ v.Dir y) (p.map Prod.fst) s ∧ ∀ q ∈ p, 0 ∉ q.2 := by
  refine (getDir_looks ht hm hh hroot path).bind fun p => ?_
  cases p with
  | none => exact Spec.pure fun s hs => ⟨hs, nofun⟩
  | some dir =>
    intro s hs
    obtain ⟨y, hy, ha⟩ := hs
    have hacc : Returns (At v h dir y) (do Prog.each (fun _ => access) (0 :: cString path); return some (dir, basename (cString path)))
        fun p s => Returned v h (fun y => v.Reached root y ∧ v.Dir y) (p.map Prod.fst) s ∧ ∀ q ∈ p, 0 ∉ q.2 := by
      refine (At.quiet fun s₀ => accesses_alike _).bind fun _ => Spec.pure fun s hs => ⟨⟨y, hy, hs⟩, fun q hq => ?_⟩
      cases hq
      exact basename_nonzero path
    exact hacc s ha

/-- A new access time, which is not modelled, makes the inode dirty. -/
theorem touch_looks (i : Fin 32) : Returns (At v h i x) (modInode i fun z => { z with dirt := true }) fun _ => At v h i x := by
  have h1 : Returns (Looks v (h + one i)) (modInode i fun z => { z with dirt := true }) fun _ => Looks v (h + one i) :=
    Looks.both (R := fun _ => True) (modInode_acct i fun _ => rfl) (modInode_sees i fun _ => ⟨rfl, rfl, rfl, id, rfl, fun _ => rfl⟩)
  have h2 : Returns (fun s => s.id i = x) (modInode i fun z => { z with dirt := true }) fun _ s => s.id i = x :=
    Spec.modify fun s hs => (congrFun (Sees.id_setInode (by rfl) (by rfl)) i).trans hs
  intro s hs
  have h3 := (h1.and h2) s ⟨hs.looks, hs.id⟩
  exact ⟨h3.1, h3.2, hs.dev, hs.kept⟩

theorem namei_looks (ht : v.Tree) (hm : v.Mounts) (hh : Mild 900 h) (hroot : (v.task v.current).root = some root)
    (path : List UInt8) : Returns (Looks v h) (namei path) (Returned v h (v.Reached root)) := by
  refine (dirNamei_looks ht hm hh hroot path).bind fun p => ?_
  cases p with
  | none => exact Spec.pure fun s hs => hs.1
  | some q =>
    obtain ⟨dir, name⟩ := q
    intro s hs
    obtain ⟨⟨x, ⟨hx, hd⟩, ha⟩, h0⟩ := hs
    refine (show Returns (At v h dir x) _ _ from ?_) s ha
    refine Spec.ite (fun _ => Spec.pure fun s hs => ⟨x, hx, hs⟩) fun hl => ?_
    have hne : name ≠ [] := fun he => hl (by rw [he]; rfl)
    refine (findEntry_looks ht hm hh hroot (ha.looks.sees.home (.inl hroot)) dir hd (h0 _ rfl)).bind fun r => ?_
    obtain ⟨dir', o⟩ := r
    intro s₂ hs₂
    obtain ⟨z, ha₂, -, hfound⟩ := hs₂
    obtain ⟨name', hc, he⟩ := hfound hne
    refine (show Returns (At v h dir' z) _ _ from ?_) s₂ ha₂
    cases o with
    | none => exact (iput_at hh dir').bind fun _ => Spec.pure fun s hs => hs
    | some e =>
      refine Spec.get fun s hs => ?_
      rw [hs.dev_eq]
      refine follow_looks ht hm hh dir' (hc.dir hm hd) (he e rfl) fun j y hy => ?_
      have hstep : v.Step (v.node root) x y := ⟨hd, name.take 14, z, name', _, by simpa using hne, hc, he e rfl, hy⟩
      obtain ⟨i, hi, hreach⟩ := hx
      exact (touch_looks j).bind fun _ => Spec.pure fun s hs => ⟨y, ⟨i, hi, hreach.tail hstep⟩, hs⟩

theorem Returns.trivial {P : Kern → Prop} (m : K α) : Returns P m fun _ _ => True := by
  intro s _
  cases m s with
  | ok a s' => exact True.intro
  | fault s' => exact True.intro
  | stop e => exact True.intro

/-- A task without a root finds nothing. -/
theorem namei_rooted (path : List UInt8) :
    Returns (Looks v h) (namei path) fun _ _ => ∃ root, (v.task v.current).root = some root := by
  refine Spec.bind (M := fun _ _ => ∃ root, (v.task v.current).root = some root) ?_ fun _ s hs => ?_
  · refine Spec.bind (M := fun _ _ => ∃ root, (v.task v.current).root = some root) ?_ fun _ s hs => ?_
    · refine Spec.get fun s hl => ?_
      cases hr : inUse s s.cur.root with
      | none => exact Spec.halt trivial
      | some root =>
        have hroot : s.cur.root = some root := Option.eq_some_of_filter_eq_some hr
        have hcur : s.cur = v.task v.current := by
          unfold Kern.cur
          rw [hl.sees.task, hl.sees.current]
        have htrue : ∀ m : K (Option (Fin 32)), Returns (Looks v h) m fun _ _ => ∃ root, (v.task v.current).root = some root :=
          fun m => (Returns.trivial m).post fun _ _ _ => ⟨root, hcur ▸ hroot⟩
        exact htrue _
    · exact ((Returns.trivial (P := fun _ => True) _).post fun _ _ _ => hs) s trivial
  · exact ((Returns.trivial (P := fun _ => True) _).post fun _ _ _ => hs) s trivial

/-- `namei` for a task that may be without a root. -/
theorem namei_found (ht : v.Tree) (hm : v.Mounts) (hh : Mild 900 h) (path : List UInt8) : Returns (Looks v h) (namei path)
    (Returned v h fun y => ∃ root, (v.task v.current).root = some root ∧ v.Reached root y) := by
  cases hroot : (v.task v.current).root with
  | none =>
    refine (namei_rooted path).post fun _ _ hr => ?_
    obtain ⟨root, hr⟩ := hr
    rw [hroot] at hr
    cases hr
  | some root =>
    refine (namei_looks ht hm hh hroot path).post fun p s hp => ?_
    cases p with
    | none => exact hp
    | some i =>
      obtain ⟨y, hy, ha⟩ := hp
      exact ⟨y, ⟨root, rfl, hy⟩, ha⟩

/-! ## open_namei -/

/-- The run itself. -/
theorem Returns.run (m : K α) (s₁ : Kern) : Returns (fun s => s = s₁) m fun a s' => m s₁ = .ok a s' := by
  rintro s rfl
  cases he : m s with
  | ok a s' => rfl
  | fault s' => exact True.intro
  | stop e => exact True.intro

end Linux011.Fs
