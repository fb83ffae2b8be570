/-
  The top of a segment, where `change_ldt` maps the argument pages and `create_tables` writes: the
  pages from page `a` of the segment on are the task's alone, and enough free frames are left for
  those that are not there yet. Loads elsewhere in the segment stay as they are.
-/
import Linux011.Exec.ArgPages
import Linux011.Mm.Runs

namespace Linux011.Exec

open Linux011.Lib
open Linux011.Mm (Mem MemInv userSlots)
open Linux011.Mm.Sys (slot)

variable {lo hi : ℕ} {own : Finset ℕ} {t a r : ℕ} {mm mm' : Mem}

/-! ## Memory -/

/-- The byte at offset `q` of the segment of task `t`, if its page is present. -/
def loadAt (mm : Mem) (t q : ℕ) : Option ℕ :=
  if (mm.pte (slot t q)).present then some ((mm.mem (mm.pte (slot t q)).frame).byte (q % 4096)) else none

/-- The pages from page `a` of the segment on that are not there, and their page table. -/
def missing (mm : Mem) (t a : ℕ) : ℕ :=
  ((Finset.Ico a 0x4000).filter fun n => (mm.pte (slot t (4096 * n))).present = false).card +
    if (mm.dir (16 * t + 15)).present then 0 else 1

/-- Pages 0x3C00 and up share a page table. -/
structure Zone (lo hi : ℕ) (own : Finset ℕ) (t a r : ℕ) (mm : Mem) : Prop where
  inv : MemInv lo hi mm own
  task : 1 ≤ t ∧ t < 64
  start : 0x3C00 ≤ a
  rw : ∀ n, a ≤ n → n < 0x4000 → (mm.pte (slot t (4096 * n))).present → (mm.pte (slot t (4096 * n))).rw = true
  room : ∃ n, Mm.Roomy n mm own ∧ n + missing mm t a + r ≤ hi - lo

/-- What was loaded before is loaded still. -/
def Keeps (t : ℕ) (mm mm' : Mem) : Prop := ∀ q < 0x4000000, ∀ v, loadAt mm t q = some v → loadAt mm' t q = some v

theorem Keeps.refl (t : ℕ) (mm : Mem) : Keeps t mm mm := fun _ _ _ h => h

theorem slot_pages {q : ℕ} : slot t (4096 * (q / 4096)) = slot t q := by
  rw [Nat.mul_comm]
  exact Mm.slot_page

theorem loadAt_of_fixed {q : ℕ} (h : Mm.Fixed mm mm' (slot t q)) {v : ℕ} (hv : loadAt mm t q = some v) :
    loadAt mm' t q = some v := by
  unfold loadAt at hv ⊢
  split_ifs at hv with hp
  have hpf := h.present
  rw [if_pos (by rw [hpf]; exact hp), h.frame, h.2 hp]
  exact hv

theorem Keeps.trans {mm'' : Mem} (h : Keeps t mm mm') (h' : Keeps t mm' mm'') : Keeps t mm mm'' := fun q hq v hv =>
  h' q hq v (h q hq v hv)

theorem slot_top {n : ℕ} (hn : 0x3C00 ≤ n) (hn' : n < 0x4000) : (slot t (4096 * n)).1 = 16 * t + 15 := by
  have := Mm.slot_fst (t := t) (show 4096 * n < 0x4000000 by omega)
  omega

theorem slot_ne {n m : ℕ} (hn : n < 0x4000) (hm : m < 0x4000) (hne : m ≠ n) : slot t (4096 * m) ≠ slot t (4096 * n) := by
  intro he
  have := Mm.slot_inj (show 4096 * m < 0x4000000 by omega) (show 4096 * n < 0x4000000 by omega) he
  omega

/-- A page appears, with the page table if that was missing. -/
theorem missing_put {n : ℕ} (ht : 1 ≤ t ∧ t < 64) (ha : a ≤ n) (hn : n < 0x4000)
    (habs : (mm.pte (slot t (4096 * n))).present = false) (hnew : (mm'.pte (slot t (4096 * n))).present)
    (htop : (mm'.dir (16 * t + 15)).present) (hrest : ∀ z ∈ userSlots, z ≠ slot t (4096 * n) → mm'.pte z = mm.pte z) :
    missing mm' t a + 1 + (if (mm.dir (16 * t + 15)).present then 0 else 1) = missing mm t a := by
  have hset : ((Finset.Ico a 0x4000).filter fun m => (mm'.pte (slot t (4096 * m))).present = false) =
      ((Finset.Ico a 0x4000).filter fun m => (mm.pte (slot t (4096 * m))).present = false).erase n := by
    ext m
    rw [Finset.mem_erase, Finset.mem_filter, Finset.mem_filter, Finset.mem_Ico]
    by_cases hm : m = n
    · subst hm
      rw [hnew]
      exact ⟨fun h => absurd h.2 (by decide), fun h => absurd rfl h.1⟩
    · constructor
      · rintro ⟨h1, h2⟩
        rw [hrest _ (Mm.slot_mem ht.1 ht.2 (by omega)) (slot_ne hn h1.2 hm)] at h2
        exact ⟨hm, h1, h2⟩
      · rintro ⟨-, h1, h2⟩
        rw [← hrest _ (Mm.slot_mem ht.1 ht.2 (by omega)) (slot_ne hn h1.2 hm)] at h2
        exact ⟨h1, h2⟩
  have hmem : n ∈ (Finset.Ico a 0x4000).filter fun m => (mm.pte (slot t (4096 * m))).present = false :=
    Finset.mem_filter.mpr ⟨Finset.mem_Ico.mpr ⟨ha, hn⟩, habs⟩
  have hcard := Finset.card_erase_add_one hmem
  unfold missing
  rw [hset, if_pos htop]
  omega

/-- No frame more is in use when a page goes into a table that is there. -/
theorem roomy_put {f n : ℕ} {x : ℕ × ℕ} (hr : Mm.Roomy n mm own) (hf : f ∈ own) (hput : Mm.Put lo hi mm own f x mm')
    (hx : Mm.UserDir x.1) (hd : (mm.dir x.1).present) (hsame : mm'.dir x.1 = mm.dir x.1) : Mm.Roomy n mm' (own.erase f) := by
  obtain ⟨R, hR, hown, hdir, hpte⟩ := hr
  refine ⟨R, hR, fun g hg => hown (Finset.mem_of_mem_erase hg), fun d hd' hp => ?_, fun z hz hp hfr => ?_⟩
  · by_cases hdx : d = x.1
    · rw [hdx, hsame]
      exact hdir x.1 hx hd
    · rw [hput.dir d hdx] at hp ⊢
      exact hdir d hd' hp
  · by_cases hzx : z = x
    · rw [hzx, hput.slot]
      exact hown hf
    · rw [hput.pte z hz hzx] at hp hfr ⊢
      exact hpte z hz hp hfr

/-- `put_page` at an absent page, with a frame left for the table if that is missing. -/
theorem putPage_ok {f n x : ℕ} (h : MemInv lo hi mm own) (hf : f ∈ own) (hx : Mm.UserAddr x)
    (habs : (mm.pte (Mm.slotAt x)).present = false) (hr : Mm.Roomy n mm own)
    (hn : n + (if (mm.dir (Mm.slotAt x).1).present then 0 else 1) ≤ hi - lo) :
    ∃ mm', Mm.putPage mm f x = some mm' ∧ Mm.Put lo hi mm own f (Mm.slotAt x) mm' ∧
      Mm.Roomy (n + if (mm.dir (Mm.slotAt x).1).present then 0 else 1) mm' (own.erase f) := by
  have hxd := (Mm.mem_userSlots.mp (Mm.slotAt_mem hx)).1
  by_cases hd : (mm.dir (Mm.slotAt x).1).present
  · have he : Mm.putPage mm f x =
        some (mm.setEntry (mm.dir (Mm.slotAt x).1).frame (Mm.slotAt x).2 (Mm.Entry.seven f)) := by
      unfold Mm.putPage
      dsimp only
      rw [if_pos hd]
    have hput := Mm.putPage_spec h hx hf habs he
    rw [if_pos hd]
    exact ⟨_, he, hput, roomy_put hr hf hput hxd hd (by rw [Mem.setEntry_dir_of_ne _ (h.dir_ne_zero hxd hd)])⟩
  · rw [if_neg hd] at hn ⊢
    obtain ⟨g, s1, hg⟩ := hr.free h (by omega)
    have he : Mm.putPage mm f x = some ((s1.setDir (Mm.slotAt x).1 (Mm.Entry.seven g)).setEntry g (Mm.slotAt x).2
        (Mm.Entry.seven f)) := by
      unfold Mm.putPage
      dsimp only
      rw [if_neg hd, hg]
    have hput := Mm.putPage_spec h hx hf habs he
    exact ⟨_, he, hput, hr.put hf hput⟩

/-- A page of the zone is given to the task. -/
theorem Zone.page (hz : Zone lo hi own t a r mm) {n : ℕ} (ha : a ≤ n) (hn : n < 0x4000)
    (habs : (mm.pte (slot t (4096 * n))).present = false) : ∃ mm', Mm.getEmptyPage mm (Mm.base t + 4096 * n) = .ok mm' ∧
      Zone lo hi own t a r mm' ∧ Keeps t mm mm' ∧ (mm'.pte (slot t (4096 * n))).present := by
  obtain ⟨m, hr, hm⟩ := hz.room
  have hst := hz.start
  have hlt : 4096 * n < 0x4000000 := by omega
  have haddr := Mm.userAddr_task hz.task.1 hz.task.2 hlt
  have hslot : Mm.slotAt (Mm.base t + 4096 * n) = slot t (4096 * n) := rfl
  have hmem := Mm.slot_mem hz.task.1 hz.task.2 hlt
  have htop := slot_top (t := t) (hst.trans ha) hn
  have hmiss : 1 + (if (mm.dir (16 * t + 15)).present then 0 else 1) ≤ missing mm t a := by
    have h1 : 0 < ((Finset.Ico a 0x4000).filter fun m => (mm.pte (slot t (4096 * m))).present = false).card :=
      Finset.card_pos.mpr ⟨n, Finset.mem_filter.mpr ⟨Finset.mem_Ico.mpr ⟨ha, hn⟩, habs⟩⟩
    unfold missing
    omega
  obtain ⟨f, s1, hg⟩ := hr.free hz.inv (by omega)
  have hf := Mm.getFreePage_spec hz.inv hg
  have hdir : s1.dir (slot t (4096 * n)).1 = mm.dir (16 * t + 15) := by rw [hf.dir, htop]
  obtain ⟨mm', he, hput, hr'⟩ := putPage_ok hf.inv (Finset.mem_insert_self f own) haddr
    (by rw [hslot, hf.pte _ hmem]; exact habs) (hr.fresh hf) (by rw [hslot, hdir]; omega)
  rw [hslot] at hput hr'
  rw [hdir, Finset.erase_insert hf.notOwn] at hr'
  have hnew : (mm'.pte (slot t (4096 * n))).present := by rw [hput.slot]; rfl
  have hrest : ∀ z ∈ userSlots, z ≠ slot t (4096 * n) → mm'.pte z = mm.pte z := fun z hz' hne =>
    (hput.pte z hz' hne).trans (hf.pte z hz')
  have hcount := missing_put hz.task ha hn habs hnew (by rw [← htop]; exact mm'.dir_present_of_pte hnew) hrest
  refine ⟨mm', ?_, ⟨?_, hz.task, hst, fun k hk hk' hp => ?_, _, hr', by omega⟩, fun q hq v hv => ?_, hnew⟩
  · unfold Mm.getEmptyPage
    rw [hg]
    dsimp only
    rw [he]
  · have := hput.inv
    rwa [Finset.erase_insert hf.notOwn] at this
  · by_cases hkn : k = n
    · rw [hkn, hput.slot]
      rfl
    · rw [hrest _ (Mm.slot_mem hz.task.1 hz.task.2 (by omega)) (slot_ne hn hk' hkn)] at hp ⊢
      exact hz.rw k hk hk' hp
  · have hne : slot t q ≠ slot t (4096 * n) := by
      intro hsl
      unfold loadAt at hv
      rw [hsl, habs] at hv
      cases hv
    have hqm := Mm.slot_mem hz.task.1 hz.task.2 hq
    exact loadAt_of_fixed ((hf.fixed hqm).trans (hput.rest _ hqm hne)) hv

/-- A byte is stored in a page of the zone. -/
theorem Zone.poke (hz : Zone lo hi own t a r mm) {q : ℕ} (ha : 4096 * a ≤ q) (hq : q < 0x4000000)
    (hp : (mm.pte (slot t q)).present) (v : ℕ) : Zone lo hi own t a r (Mm.Sys.poke mm (slot t q) (q % 4096) v) ∧
      loadAt (Mm.Sys.poke mm (slot t q) (q % 4096) v) t q = some (v % 256) ∧
      ∀ q' < 0x4000000, q' ≠ q → ∀ w, loadAt mm t q' = some w →
        loadAt (Mm.Sys.poke mm (slot t q) (q % 4096) v) t q' = some w := by
  have hqm := Mm.slot_mem hz.task.1 hz.task.2 hq
  have hpk := Mm.poke_spec hz.inv hqm hp (q % 4096) v
  set mm' := Mm.Sys.poke mm (slot t q) (q % 4096) v
  have hrw : (mm.pte (slot t q)).rw = true := by
    have := hz.rw (q / 4096) (by omega) (by omega)
    rw [slot_pages] at this
    exact this hp
  have hpte : ∀ z ∈ userSlots, (mm'.pte z).present = (mm.pte z).present ∧ (mm'.pte z).rw = (mm.pte z).rw ∧
      (mm'.pte z).frame = (mm.pte z).frame := by
    intro z hz'
    by_cases he : z = slot t q
    · rw [he, hpk.slot]
      exact ⟨rfl, rfl, rfl⟩
    · rw [hpk.pte z hz' he]
      exact ⟨rfl, rfl, rfl⟩
  have hmiss : missing mm' t a = missing mm t a := by
    unfold missing
    rw [hpk.dir]
    congr 2
    refine Finset.filter_congr fun n hn => ?_
    rw [(hpte _ (Mm.slot_mem hz.task.1 hz.task.2 (by have := (Finset.mem_Ico.mp hn).2; omega))).1]
  obtain ⟨m, hr, hm⟩ := hz.room
  refine ⟨⟨hpk.inv, hz.task, hz.start, fun n hn hn' hpn => ?_, m, hr.poked hqm hp hpk, by omega⟩, ?_, fun q' hq' hne w hw => ?_⟩
  · have h1 := hpte _ (Mm.slot_mem hz.task.1 hz.task.2 (show 4096 * n < 0x4000000 by omega))
    rw [h1.2.1]
    exact hz.rw n hn hn' (h1.1 ▸ hpn)
  · unfold loadAt
    rw [(hpte _ hqm).1, if_pos hp, (hpte _ hqm).2.2, hpk.byte, Function.update_self]
  · by_cases hs : slot t q' = slot t q
    · -- another byte of the page
      have hdiv := Mm.slot_inj hq' hq hs
      unfold loadAt at hw ⊢
      rw [hs, if_pos hp] at hw
      rw [hs, (hpte _ hqm).1, if_pos hp, (hpte _ hqm).2.2, hpk.byte, Function.update_of_ne (by omega)]
      exact hw
    · exact loadAt_of_fixed (hpk.rest hz.inv hqm hp hrw (Mm.slot_mem hz.task.1 hz.task.2 hq') hs) hw

/-! ## Accesses -/

/-- A task in its new segments; pages from `a` on lie beyond the data of the old program. -/
structure InZone (lo hi : ℕ) (own : Finset ℕ) (t a r : ℕ) (s : Kern) : Prop where
  zone : Zone lo hi own t a r s.mm
  cur : s.fsys.current.val = t
  base : s.ldt.data.getBase.toNat = Mm.base t
  limit : s.ldt.data.getLimit.toNat = 0x4000000
  fs : s.fs = .user
  old : s.endData.toNat ≤ 4096 * a

variable {s : Kern}

theorem InZone.set (h : InZone lo hi own t a r s) (hz : Zone lo hi own t a r mm) :
    InZone lo hi own t a r { s with mm := mm } :=
  ⟨hz, h.cur, h.base, h.limit, h.fs, h.old⟩

theorem touch_spec (h : InZone lo hi own t a r s) {off : ℕ} (ha : 4096 * a ≤ off) (hoff : off < 0x4000000) :
    ∃ mm, touch off s = .ok () { s with mm := mm } ∧ Zone lo hi own t a r mm ∧ Keeps t s.mm mm ∧
      (mm.pte (slot t off)).present := by
  have hstart : touch off s = (if s.ldt.data.getLimit.toNat ≤ off then Prog.halt .limit
      else if (s.mm.pte (Mm.slotAt (s.ldt.data.getBase.toNat + off))).present then pure ()
      else doNoPage (off / 4096 * 4096) : X Unit) s := by
    unfold touch
    rw [← h.fs, Prog.bind_run (inSeg_run s)]
    rfl
  rw [hstart, h.limit, if_neg (by omega), h.base, show Mm.slotAt (Mm.base t + off) = slot t off from rfl]
  by_cases hp : (s.mm.pte (slot t off)).present
  · rw [if_pos hp]
    exact ⟨s.mm, rfl, h.zone, Keeps.refl t s.mm, hp⟩
  · rw [if_neg hp]
    have habs : (s.mm.pte (slot t (4096 * (off / 4096)))).present = false := by
      rw [slot_pages]
      exact Bool.eq_false_iff.mpr hp
    obtain ⟨mm, he, hz, hk, hnew⟩ := h.zone.page (n := off / 4096) (by omega) (by omega) habs
    rw [slot_pages] at hnew
    refine ⟨mm, ?_, hz, hk, hnew⟩
    have hothers : s.others (off / 4096 * 4096) = none := by
      unfold Kern.others
      cases s.fsys.cur.executable with
      | none => rfl
      | some i =>
        dsimp only
        rw [if_pos]
        have := h.old
        omega
    have hmem : memory (fun mm => Mm.doNoPage mm s.fsys.current.val (off / 4096 * 4096) (s.others (off / 4096 * 4096))) s =
        .ok none { s with mm := mm } := by
      unfold memory
      dsimp only
      rw [hothers, h.cur]
      unfold Mm.doNoPage
      dsimp only
      rw [Nat.mul_comm, he]
      rfl
    refine (Prog.bind_run (Prog.get_run s)).trans ?_
    exact Prog.bind_run hmem

theorem putFsByte_spec (h : InZone lo hi own t a r s) (off : ℕ) (ha : 4096 * a ≤ off) (hoff : off < 0x4000000) (v : UInt8) :
    ∃ mm, putFsByte off v s = .ok () { s with mm := mm } ∧ Zone lo hi own t a r mm ∧ loadAt mm t off = some v.toNat ∧
      ∀ q < 0x4000000, q ≠ off → ∀ w, loadAt s.mm t q = some w → loadAt mm t q = some w := by
  obtain ⟨mm, he, hz, hk, hp⟩ := touch_spec h ha hoff
  obtain ⟨hz', hnew, hkeep⟩ := hz.poke ha hoff hp v.toNat
  rw [Nat.mod_eq_of_lt v.toNat_lt] at hnew
  refine ⟨_, ?_, hz', hnew, fun q hq hne w hw => hkeep q hq hne w (hk q hq w hw)⟩
  refine (Prog.bind_run he).trans ?_
  change Out.ok () { s with mm := Mm.Sys.poke mm (Mm.slotAt (s.ldt.data.getBase.toNat + off)) (off % 4096) v.toNat } = _
  rw [h.base]
  rfl

/-- The little-endian word at `q`. -/
def wordAt (mm : Mem) (t q : ℕ) : Option ℕ := do
  let b0 ← loadAt mm t q
  let b1 ← loadAt mm t (q + 1)
  let b2 ← loadAt mm t (q + 2)
  let b3 ← loadAt mm t (q + 3)
  return b0 + 2 ^ 8 * b1 + 2 ^ 16 * b2 + 2 ^ 24 * b3

theorem wordAt_of_loads {q b0 b1 b2 b3 : ℕ} (h0 : loadAt mm t q = some b0) (h1 : loadAt mm t (q + 1) = some b1)
    (h2 : loadAt mm t (q + 2) = some b2) (h3 : loadAt mm t (q + 3) = some b3) :
    wordAt mm t q = some (b0 + 2 ^ 8 * b1 + 2 ^ 16 * b2 + 2 ^ 24 * b3) := by
  unfold wordAt
  rw [h0, h1, h2, h3]
  rfl

/-- A word keeps its value when its bytes do. -/
theorem wordAt_keeps {q w : ℕ} (h : ∀ k < 4, ∀ v, loadAt mm t (q + k) = some v → loadAt mm' t (q + k) = some v)
    (hw : wordAt mm t q = some w) : wordAt mm' t q = some w := by
  unfold wordAt at hw
  obtain ⟨b0, h0, hw⟩ := Option.bind_eq_some_iff.mp hw
  obtain ⟨b1, h1, hw⟩ := Option.bind_eq_some_iff.mp hw
  obtain ⟨b2, h2, hw⟩ := Option.bind_eq_some_iff.mp hw
  obtain ⟨b3, h3, hw⟩ := Option.bind_eq_some_iff.mp hw
  rw [← hw]
  exact wordAt_of_loads (h 0 (by decide) b0 h0) (h 1 (by decide) b1 h1) (h 2 (by decide) b2 h2) (h 3 (by decide) b3 h3)

theorem putFsLong_spec (h : InZone lo hi own t a r s) (off : ℕ) (ha : 4096 * a ≤ off) (hoff : off + 3 < 0x4000000) {v : ℕ}
    (hv : v < 2 ^ 32) : ∃ mm, putFsLong off v s = .ok () { s with mm := mm } ∧ Zone lo hi own t a r mm ∧
      wordAt mm t off = some v ∧
      ∀ q < 0x4000000, q < off ∨ off + 3 < q → ∀ w, loadAt s.mm t q = some w → loadAt mm t q = some w := by
  obtain ⟨m0, e0, z0, l0, k0⟩ := putFsByte_spec h off ha (by omega) (UInt8.ofNat v)
  obtain ⟨m1, e1, z1, l1, k1⟩ := putFsByte_spec (h.set z0) (off + 1) (by omega) (by omega) (UInt8.ofNat (v / 2 ^ 8))
  obtain ⟨m2, e2, z2, l2, k2⟩ := putFsByte_spec (h.set z1) (off + 2) (by omega) (by omega) (UInt8.ofNat (v / 2 ^ 16))
  obtain ⟨m3, e3, z3, l3, k3⟩ := putFsByte_spec (h.set z2) (off + 3) (by omega) hoff (UInt8.ofNat (v / 2 ^ 24))
  refine ⟨m3, ?_, z3, ?_, fun q hq hne w hw => ?_⟩
  · refine (Prog.bind_run e0).trans ?_
    refine (Prog.bind_run e1).trans ?_
    exact (Prog.bind_run e2).trans e3
  · have h0 := k3 off (by omega) (by omega) _ (k2 off (by omega) (by omega) _ (k1 off (by omega) (by omega) _ l0))
    have h1 := k3 (off + 1) (by omega) (by omega) _ (k2 (off + 1) (by omega) (by omega) _ l1)
    have h2 := k3 (off + 2) (by omega) (by omega) _ l2
    rw [wordAt_of_loads h0 h1 h2 l3]
    simp only [UInt8.toNat_ofNat']
    congr 1
    omega
  · exact k3 q hq (by omega) w (k2 q hq (by omega) w (k1 q hq (by omega) w (k0 q hq (by omega) w hw)))

theorem getFsByte_spec (h : InZone lo hi own t a r s) {off v : ℕ} (hoff : off < 0x4000000) (hv : loadAt s.mm t off = some v) :
    getFsByte off s = .ok v s := by
  unfold loadAt at hv
  split_ifs at hv with hp
  have htouch : touch off s = .ok () s := by
    unfold touch
    rw [← h.fs, Prog.bind_run (inSeg_run s)]
    refine (Prog.bind_run (Prog.get_run s)).trans ?_
    rw [h.limit, if_neg (by omega), h.base, show Mm.slotAt (Mm.base t + off) = slot t off from rfl, if_pos hp]
    rfl
  refine (Prog.bind_run htouch).trans ((Prog.bind_run (Prog.get_run s)).trans ?_)
  change Out.ok (s.byte off) s = _
  unfold Kern.byte
  rw [h.base]
  exact congrArg (fun b => Out.ok b s) (Option.some.inj hv)

/-! ## create_tables -/

/-- These bytes are at `p`. -/
def BytesAt (mm : Mem) (t p : ℕ) (l : List UInt8) : Prop := ∀ k (_ : k < l.length), loadAt mm t (p + k) = some l[k].toNat

theorem BytesAt.append {p : ℕ} {l l' : List UInt8} (h : BytesAt mm t p (l ++ l')) :
    BytesAt mm t p l ∧ BytesAt mm t (p + l.length) l' := by
  refine ⟨fun k hk => ?_, fun k hk => ?_⟩
  · have := h k (by rw [List.length_append]; omega)
    rwa [List.getElem_append_left hk] at this
  · have := h (l.length + k) (by rw [List.length_append]; omega)
    rw [List.getElem_append_right (by omega)] at this
    simpa only [Nat.add_sub_cancel_left, Nat.add_assoc] using this

theorem skipString_spec (h : InZone lo hi own t a r s) (str : List UInt8) (h0 : (0 : UInt8) ∉ str) {n p : ℕ}
    (hl : BytesAt s.mm t p (str ++ [0])) (hn : str.length < n) (hp : p + str.length < 0x4000000) :
    skipString n p s = .ok (p + str.length + 1) s := by
  induction str generalizing n p with
  | nil =>
    obtain ⟨n, rfl⟩ := Nat.exists_eq_succ_of_ne_zero (Nat.ne_of_gt hn)
    exact (Prog.bind_run (getFsByte_spec h hp (hl 0 Nat.one_pos))).trans rfl
  | cons c str ih =>
    obtain ⟨n, rfl⟩ := Nat.exists_eq_succ_of_ne_zero (Nat.ne_of_gt (Nat.zero_lt_of_lt hn))
    rw [List.length_cons] at hn hp
    have hc : c.toNat ≠ 0 := fun he => h0 (List.mem_cons.mpr (Or.inl (UInt8.toNat_inj.mp he).symm))
    have htail : BytesAt s.mm t (p + 1) (str ++ [0]) := (BytesAt.append (l := [c]) hl).2
    refine (Prog.bind_run (getFsByte_spec h (by omega) (hl 0 (Nat.zero_lt_succ _)))).trans ?_
    change (if c.toNat = 0 then pure (p + 1) else skipString n (p + 1) : X ℕ) s = _
    rw [if_neg hc, ih (fun hm => h0 (List.mem_cons_of_mem c hm)) htail (by omega) (by omega), List.length_cons]
    congr 1
    omega

theorem bytes_cons (str : List UInt8) (strs : List (List UInt8)) : bytes (str :: strs) = (str ++ [0]) ++ bytes strs := rfl

/-- The address of string `i`. -/
def start (p : ℕ) (strs : List (List UInt8)) (i : ℕ) : ℕ := p + (bytes (strs.take i)).length

/-- A table of pointers to the strings that begin at `p`, and a 0. -/
structure TableAt (mm : Mem) (t argv p : ℕ) (strs : List (List UInt8)) : Prop where
  pointer : ∀ i < strs.length, wordAt mm t (argv + 4 * i) = some (start p strs i)
  null : wordAt mm t (argv + 4 * strs.length) = some 0

/-- Loads outside `n` bytes from `q` on are as before. -/
def KeepsBeside (t q n : ℕ) (mm mm' : Mem) : Prop :=
  ∀ q' < 0x4000000, q' < q ∨ q + n ≤ q' → ∀ w, loadAt mm t q' = some w → loadAt mm' t q' = some w

theorem KeepsBeside.bytes {q n p : ℕ} {l : List UInt8} (h : KeepsBeside t q n mm mm') (hl : BytesAt mm t p l)
    (hp : p + l.length ≤ 0x4000000) (hd : p + l.length ≤ q ∨ q + n ≤ p) : BytesAt mm' t p l := fun k hk =>
  h (p + k) (by omega) (by omega) _ (hl k hk)

theorem KeepsBeside.word {q n p w : ℕ} (h : KeepsBeside t q n mm mm') (hw : wordAt mm t p = some w) (hp : p + 4 ≤ 0x4000000)
    (hd : p + 4 ≤ q ∨ q + n ≤ p) : wordAt mm' t p = some w :=
  wordAt_keeps (fun k hk v hv => h (p + k) (by omega) (by omega) v hv) hw

theorem KeepsBeside.table {q n argv p : ℕ} {strs : List (List UInt8)} (h : KeepsBeside t q n mm mm')
    (ht : TableAt mm t argv p strs) (hp : argv + 4 * (strs.length + 1) ≤ 0x4000000)
    (hd : argv + 4 * (strs.length + 1) ≤ q ∨ q + n ≤ argv) : TableAt mm' t argv p strs :=
  ⟨fun i hi => h.word (ht.pointer i hi) (by omega) (by omega), h.word ht.null (by omega) (by omega)⟩

theorem putTable_spec (h : InZone lo hi own t a r s) (strs : List (List UInt8)) (h0 : ∀ str ∈ strs, (0 : UInt8) ∉ str)
    {argv p : ℕ} (ha : 4096 * a ≤ argv) (hp : argv + 4 * (strs.length + 1) ≤ p)
    (htop : p + (bytes strs).length ≤ 0x4000000) (hl : BytesAt s.mm t p (bytes strs)) :
    ∃ mm, putTable strs.length argv p s = .ok (p + (bytes strs).length) { s with mm := mm } ∧ Zone lo hi own t a r mm ∧
      TableAt mm t argv p strs ∧ KeepsBeside t argv (4 * (strs.length + 1)) s.mm mm := by
  induction strs generalizing argv p s with
  | nil =>
    obtain ⟨mm, he, hz, hw, hk⟩ := putFsLong_spec h _ ha (by simp at hp htop; omega) (v := 0) (by decide)
    refine ⟨mm, Prog.bind_run he, hz, ⟨fun i hi => absurd hi (Nat.not_lt_zero i), hw⟩, fun q hq hd w hw => ?_⟩
    exact hk q hq (by simp at hd; omega) w hw
  | cons str strs ih =>
    have hlen : (bytes (str :: strs)).length = str.length + 1 + (bytes strs).length := by
      rw [bytes_cons, List.length_append, List.length_append]
      rfl
    rw [List.length_cons] at hp ⊢
    rw [bytes_cons] at hl
    obtain ⟨m1, e1, z1, w1, k1⟩ := putFsLong_spec h _ ha (by omega) (v := p) (by omega)
    have hkeep1 : KeepsBeside t argv 4 s.mm m1 := fun q hq hd w hw => k1 q hq (by omega) w hw
    obtain ⟨hstr, hrest⟩ := BytesAt.append hl
    have hlen1 : (str ++ [0]).length = str.length + 1 := List.length_append
    rw [hlen1] at hrest
    have hskip := skipString_spec (h.set z1) str (h0 str List.mem_cons_self) (n := 0x4000000 - p)
      (hkeep1.bytes hstr (by omega) (by omega)) (by omega) (by omega)
    obtain ⟨m2, e2, z2, tab, k2⟩ := @ih { s with mm := m1 } (h.set z1) (fun str' hs => h0 str' (List.mem_cons_of_mem _ hs))
      (argv + 4) (p + str.length + 1) (by omega) (by omega) (by omega) (hkeep1.bytes hrest (by omega) (by omega))
    refine ⟨m2, ?_, z2, ⟨fun i hi => ?_, ?_⟩, fun q hq hd w hw => ?_⟩
    · refine (Prog.bind_run e1).trans ((Prog.bind_run hskip).trans ?_)
      rw [e2, hlen]
      congr 1
      omega
    · cases i with
      | zero => exact k2.word w1 (by omega) (by omega)
      | succ i =>
        have hi' : i < strs.length := Nat.lt_of_succ_lt_succ hi
        have hw := tab.pointer i hi'
        rw [show argv + 4 * (i + 1) = argv + 4 + 4 * i by omega, hw]
        unfold start
        rw [List.take_succ_cons, bytes_cons, List.length_append, hlen1]
        congr 1
        omega
    · rw [List.length_cons, show argv + 4 * (strs.length + 1) = argv + 4 + 4 * strs.length by omega]
      exact tab.null
    · exact k2 q hq (by omega) w (hkeep1 q hq (by omega) w hw)

/-- What `create_tables` leaves at `sp` for the strings at `p`. -/
structure Tables (mm : Mem) (t sp p : ℕ) (args envs : List (List UInt8)) : Prop where
  argc : wordAt mm t sp = some args.length
  argv : wordAt mm t (sp + 4) = some (sp + 12)
  envp : wordAt mm t (sp + 8) = some (sp + 12 + 4 * (args.length + 1))
  argTable : TableAt mm t (sp + 12) p args
  envTable : TableAt mm t (sp + 12 + 4 * (args.length + 1)) (p + (bytes args).length) envs
  strings : BytesAt mm t p (bytes (args ++ envs))

/-- The stack pointer over the strings at `p`. -/
def tableStart (p argc envc : ℕ) : ℕ := p / 4 * 4 - 4 * (envc + 1) - 4 * (argc + 1) - 12

/-- The three words at `sp`, and the two tables above them. -/
theorem putTables_spec (h : InZone lo hi own t a r s) (args envs : List (List UInt8))
    (h0 : ∀ str ∈ args ++ envs, (0 : UInt8) ∉ str) {sp p : ℕ} (ha : 4096 * a ≤ sp)
    (hend : sp + 12 + 4 * (args.length + 1) + 4 * (envs.length + 1) ≤ p)
    (htop : p + (bytes (args ++ envs)).length ≤ 0x4000000) (hl : BytesAt s.mm t p (bytes (args ++ envs))) :
    ∃ mm, (do
        putFsLong (sp + 8) (sp + 12 + 4 * (args.length + 1))
        putFsLong (sp + 4) (sp + 12)
        putFsLong sp args.length
        let p ← putTable args.length (sp + 12) p
        let _ ← putTable envs.length (sp + 12 + 4 * (args.length + 1)) p
        return sp : X ℕ) s = .ok sp { s with mm := mm } ∧
      Zone lo hi own t a r mm ∧ Tables mm t sp p args envs := by
  -- where the tables begin and end
  obtain ⟨av, hav⟩ : ∃ av, av = sp + 12 := ⟨_, rfl⟩
  obtain ⟨ev, hev⟩ : ∃ ev, ev = av + 4 * (args.length + 1) := ⟨_, rfl⟩
  have hend : ev + 4 * (envs.length + 1) ≤ p := by rwa [hev, hav]
  have htop' : p + (bytes args).length + (bytes envs).length ≤ 0x4000000 := by
    rwa [bytes_append, List.length_append, ← Nat.add_assoc] at htop
  rw [← hav, ← hev]
  obtain ⟨m1, e1, z1, w1, k1⟩ := putFsLong_spec h (sp + 8) (by omega) (by omega) (v := ev) (by omega)
  obtain ⟨m2, e2, z2, w2, k2⟩ := putFsLong_spec (h.set z1) (sp + 4) (by omega) (by omega) (v := av) (by omega)
  obtain ⟨m3, e3, z3, w3, k3⟩ := putFsLong_spec (h.set z2) sp ha (by omega) (v := args.length) (by omega)
  have hk1 : KeepsBeside t (sp + 8) 4 s.mm m1 := fun q hq hd w hw => k1 q hq (by omega) w hw
  have hk2 : KeepsBeside t (sp + 4) 4 m1 m2 := fun q hq hd w hw => k2 q hq (by omega) w hw
  have hk3 : KeepsBeside t sp 4 m2 m3 := fun q hq hd w hw => k3 q hq (by omega) w hw
  have hp : sp + 12 ≤ p := by omega
  have hstr3 := hk3.bytes (hk2.bytes (hk1.bytes hl htop (.inr hp)) htop (by omega)) htop (by omega)
  have hsplit := hstr3
  rw [bytes_append] at hsplit
  obtain ⟨hargs, henvs⟩ := BytesAt.append hsplit
  obtain ⟨m4, e4, z4, t4, k4⟩ := @putTable_spec _ _ _ _ _ _ _ (h.set z3) args
    (fun str hs => h0 str (List.mem_append_left _ hs)) av p (by omega) (by omega) (by omega) hargs
  obtain ⟨m5, e5, z5, t5, k5⟩ := @putTable_spec _ _ _ _ _ _ _ (h.set z4) envs
    (fun str hs => h0 str (List.mem_append_right _ hs)) ev (p + (bytes args).length) (by omega) (by omega) htop'
    (k4.bytes henvs htop' (by omega))
  -- the tables lie above the words
  have hword : ∀ {q w : ℕ}, q + 4 ≤ av → wordAt m3 t q = some w → wordAt m5 t q = some w := fun hq hw =>
    k5.word (k4.word hw (by omega) (.inl hq)) (by omega) (by omega)
  refine ⟨m5, ?_, z5, ?_, ?_, ?_, ?_, ?_, ?_⟩
  · refine (Prog.bind_run e1).trans ((Prog.bind_run e2).trans ((Prog.bind_run e3).trans ((Prog.bind_run e4).trans ?_)))
    exact Prog.bind_run e5
  · exact hword (by omega) w3
  · rw [← hav]
    exact hword (by omega) (hk3.word w2 (by omega) (by omega))
  · rw [← hav, ← hev]
    exact hword (by omega) (hk3.word (hk2.word w1 (by omega) (by omega)) (by omega) (by omega))
  · rw [← hav]
    exact k5.table t4 (by omega) (.inl hev.ge)
  · rw [← hav, ← hev]
    exact t5
  · exact k5.bytes (k4.bytes hstr3 htop (by omega)) htop (.inr hend)

theorem createTables_spec (h : InZone lo hi own t a r s) (args envs : List (List UInt8))
    (h0 : ∀ str ∈ args ++ envs, (0 : UInt8) ∉ str) {p : ℕ} (ha : 4096 * a ≤ tableStart p args.length envs.length)
    (hp : 12 + 4 * (args.length + 1) + 4 * (envs.length + 1) ≤ p / 4 * 4)
    (htop : p + (bytes (args ++ envs)).length ≤ 0x4000000) (hl : BytesAt s.mm t p (bytes (args ++ envs))) :
    ∃ mm, createTables p args.length envs.length s = .ok (tableStart p args.length envs.length) { s with mm := mm } ∧
      Zone lo hi own t a r mm ∧ Tables mm t (tableStart p args.length envs.length) p args envs := by
  obtain ⟨sp, hsp⟩ : ∃ sp, tableStart p args.length envs.length = sp := ⟨_, rfl⟩
  have hev : p / 4 * 4 - 4 * (envs.length + 1) = sp + 12 + 4 * (args.length + 1) := by
    unfold tableStart at hsp
    omega
  have hav : sp + 12 + 4 * (args.length + 1) - 4 * (args.length + 1) = sp + 12 := Nat.add_sub_cancel ..
  have hend : sp + 12 + 4 * (args.length + 1) + 4 * (envs.length + 1) ≤ p := by omega
  rw [hsp] at ha ⊢
  unfold createTables
  rw [hev, hav, show sp + 12 - 4 = sp + 8 from rfl, show sp + 12 - 8 = sp + 4 from rfl, Nat.add_sub_cancel]
  exact putTables_spec h args envs h0 ha hend htop hl

end Linux011.Exec
