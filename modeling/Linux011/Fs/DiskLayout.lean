/-
  A file system in the bytes of its device, behind the boot and the super block: the maps (`set_bit` and
  `clear_bit` of fs/bitmap.c), the inodes (`read_inode` and `write_inode` of fs/inode.c), the data zones.
  The kernel's table of a device (`Disk`) has these as functions; `disk_layout` says that the bytes go on
  showing it, whatever is written in which order. The times are bytes here and not in the table.
-/
import Linux011.Lib.Records
import Linux011.Lib.Trans
import Linux011.Lib.Words
import Linux011.Fs.Inode
import Mathlib.Data.List.GetD

namespace Linux011.Fs.Layout

open Linux011.Lib

/-- A device, block by block. -/
abbrev Device := ℕ → Bytes

/-! ## Where things are -/

/-- INODES_PER_BLOCK -/
def inodesPerBlock : ℕ := 32

/-- `struct d_inode`: i_mode, i_uid, i_size, i_time, i_gid, i_nlinks and the nine of i_zone -/
def dInode : List ℕ := [2, 2, 4, 4, 1, 1] ++ List.replicate 9 2

def imapBlock (j : ℕ) : ℕ := 2 + j / 8192

def zmapBlock (h : DSuper) (j : ℕ) : ℕ := 2 + h.imapBlocks + j / 8192

def inodeBlock (h : DSuper) (n : ℕ) : ℕ := 2 + h.imapBlocks + h.zmapBlocks + (n - 1) / inodesPerBlock

/-- The place of an inode in its block. -/
def inodeAt (n : ℕ) : ℕ := 32 * ((n - 1) % inodesPerBlock)

/-- The data zones begin behind the inodes. -/
def Consistent (h : DSuper) : Prop := inodeBlock h h.ninodes < h.firstdatazone

def fields (x : DInode) (time : ℕ) : List ℕ :=
  [x.mode, x.uid, x.size, time, x.gid, x.nlinks] ++ (List.range 9).map x.zone

def ofFields (l : List ℕ) : DInode :=
  ⟨l.getD 0 0, l.getD 1 0, l.getD 2 0, l.getD 4 0, l.getD 5 0, fun k => (l.drop 6).getD k 0⟩

/-- The values fit `struct d_inode`. -/
structure Fits (x : DInode) (time : ℕ) : Prop where
  fields : List.Forall₂ (fun n v => v < 256 ^ n) dInode (fields x time)
  zone : ∀ k, 9 ≤ k → x.zone k = 0

/-! ## Reading and writing -/

/-- The disk part of `read_inode`. -/
def readInode (h : DSuper) (d : Device) (n : ℕ) : DInode := ofFields ((d (inodeBlock h n)).loadAll dInode (inodeAt n))

def writeInode (h : DSuper) (d : Device) (n : ℕ) (x : DInode) (time : ℕ) : Device :=
  Function.update d (inodeBlock h n) ((d (inodeBlock h n)).storeAll dInode (fields x time) (inodeAt n))

/-- Bit `j` of the block `b`, with `set_bit` and `clear_bit`. -/
def putBit (d : Device) (b j : ℕ) (v : Bool) : Device := Function.update d b (Words.put (d b) j v)

def putByte (d : Device) (z k : ℕ) (x : UInt8) : Device := Function.update d z (Function.update (d z) k x.toBitVec)

/-- The device shows the table. -/
structure Shows (h : DSuper) (d : Device) (t : Disk) : Prop where
  inode : ∀ n, 1 ≤ n → n ≤ h.ninodes → t.inode n = readInode h d n
  imap : ∀ j < 8192 * h.imapBlocks, t.imap j = Words.bit (d (imapBlock j)) (j % 8192)
  zmap : ∀ j < 8192 * h.zmapBlocks, t.zmap j = Words.bit (d (zmapBlock h j)) (j % 8192)
  block : ∀ z, h.firstdatazone ≤ z → ∀ k, (t.block z k).toBitVec = d z k

inductive Event
  | writeInode (n : ℕ) (x : DInode) (time : ℕ)
  | setImap (j : ℕ) (v : Bool)
  | setZmap (j : ℕ) (v : Bool)
  | setByte (z k : ℕ) (x : UInt8)

/-- The device and the table, written side by side. -/
def layoutSystem (h : DSuper) : Lts (Device × Disk) Event where
  init s := Shows h s.1 s.2
  step s e s' := match e with
    | .writeInode n x time => (1 ≤ n ∧ n ≤ h.ninodes ∧ Fits x time) ∧
        s' = (writeInode h s.1 n x time, { s.2 with inode := Function.update s.2.inode n x })
    | .setImap j v => j < 8192 * h.imapBlocks ∧
        s' = (putBit s.1 (imapBlock j) (j % 8192) v, { s.2 with imap := Function.update s.2.imap j v })
    | .setZmap j v => j < 8192 * h.zmapBlocks ∧
        s' = (putBit s.1 (zmapBlock h j) (j % 8192) v, { s.2 with zmap := Function.update s.2.zmap j v })
    | .setByte z k x => h.firstdatazone ≤ z ∧
        s' = (putByte s.1 z k x, { s.2 with block := Function.update s.2.block z (Function.update (s.2.block z) k x) })

/-- The table a device shows. -/
def table (h : DSuper) (d : Device) : Disk where
  super := h
  imap j := Words.bit (d (imapBlock j)) (j % 8192)
  zmap j := Words.bit (d (zmapBlock h j)) (j % 8192)
  inode n := readInode h d n
  block z k := UInt8.ofBitVec (d z k)

variable {h : DSuper} {d : Device} {t : Disk} {b n m j k z : ℕ} {x : DInode} {time : ℕ}

theorem shows_table (h : DSuper) (d : Device) : Shows h d (table h d) :=
  ⟨fun _ _ _ => rfl, fun _ _ => rfl, fun _ _ => rfl, fun _ _ _ => rfl⟩

/-! ## One write -/

theorem ofFields_fields (hz : ∀ k, 9 ≤ k → x.zone k = 0) : ofFields (fields x time) = x := by
  have hzone : (fun k => ((fields x time).drop 6).getD k 0) = x.zone := by
    funext k
    change ((List.range 9).map x.zone).getD k 0 = x.zone k
    obtain hlt | hge := Nat.lt_or_ge k 9
    · rw [List.getD_eq_getElem _ _ (by rwa [List.length_map, List.length_range]), List.getElem_map, List.getElem_range]
    · rw [List.getD_eq_default _ _ (by rwa [List.length_map, List.length_range]), hz k hge]
  unfold ofFields
  rw [hzone]
  rfl

theorem readInode_writeInode (hx : Fits x time) (hn : 1 ≤ n) (hm : 1 ≤ m) :
    readInode h (writeInode h d n x time) m = if m = n then x else readInode h d m := by
  have hsum : dInode.sum = 32 := rfl
  unfold readInode writeInode
  by_cases hb : inodeBlock h m = inodeBlock h n
  · rw [hb, Function.update_self]
    by_cases hmn : m = n
    · rw [if_pos hmn, hmn, Bytes.loadAll_storeAll hx.fields, ofFields_fields hx.zone]
    · rw [if_neg hmn, Bytes.loadAll_storeAll_other]
      unfold inodeBlock inodesPerBlock at hb
      unfold inodeAt inodesPerBlock
      omega
  · rw [Function.update_of_ne hb, if_neg fun hmn => hb (by rw [hmn])]

theorem readInode_congr {d' : Device} (hd : d' (inodeBlock h n) = d (inodeBlock h n)) : readInode h d' n = readInode h d n := by
  unfold readInode
  rw [hd]

/-- A bit of a map whose first block is `base`. -/
theorem bit_putBit (base j k : ℕ) (v : Bool) : Words.bit (putBit d (base + j / 8192) (j % 8192) v (base + k / 8192)) (k % 8192) =
    if k = j then v else Words.bit (d (base + k / 8192)) (k % 8192) := by
  unfold putBit
  by_cases hb : k / 8192 = j / 8192
  · have hiff : k % 8192 = j % 8192 ↔ k = j := by omega
    rw [hb, Function.update_self, Words.put_bit (by decide)]
    simp only [hiff]
  · have hkj : k ≠ j := fun h => hb (by rw [h])
    rw [Function.update_of_ne (by omega), if_neg hkj]

theorem imapBlock_lt (hj : j < 8192 * h.imapBlocks) : imapBlock j < 2 + h.imapBlocks := by
  unfold imapBlock
  omega

theorem zmapBlock_lt (hj : j < 8192 * h.zmapBlocks) :
    2 + h.imapBlocks ≤ zmapBlock h j ∧ zmapBlock h j < 2 + h.imapBlocks + h.zmapBlocks := by
  unfold zmapBlock
  omega

theorem maps_le_inodeBlock (h : DSuper) (n : ℕ) : 2 + h.imapBlocks + h.zmapBlocks ≤ inodeBlock h n := Nat.le_add_right _ _

theorem inodeBlock_lt (hc : Consistent h) (hn : n ≤ h.ninodes) : inodeBlock h n < h.firstdatazone := by
  unfold Consistent inodeBlock inodesPerBlock at hc
  unfold inodeBlock inodesPerBlock
  omega

theorem maps_lt (hc : Consistent h) : 2 + h.imapBlocks + h.zmapBlocks < h.firstdatazone :=
  Nat.lt_of_le_of_lt (maps_le_inodeBlock h h.ninodes) hc

/-- A write to block `b` leaves what is in the others. -/
theorem Shows.other {d' : Device} (hs : Shows h d t) (hd : ∀ c ≠ b, d' c = d c) :
    (∀ n, 1 ≤ n → n ≤ h.ninodes → inodeBlock h n ≠ b → t.inode n = readInode h d' n) ∧
    (∀ j < 8192 * h.imapBlocks, imapBlock j ≠ b → t.imap j = Words.bit (d' (imapBlock j)) (j % 8192)) ∧
    (∀ j < 8192 * h.zmapBlocks, zmapBlock h j ≠ b → t.zmap j = Words.bit (d' (zmapBlock h j)) (j % 8192)) ∧
    ∀ z, h.firstdatazone ≤ z → z ≠ b → ∀ k, (t.block z k).toBitVec = d' z k := by
  refine ⟨fun n hn hle hb => ?_, fun j hj hb => ?_, fun j hj hb => ?_, fun z hz hb k => ?_⟩
  · rw [readInode_congr (hd _ hb)]
    exact hs.inode n hn hle
  · rw [hd _ hb]
    exact hs.imap j hj
  · rw [hd _ hb]
    exact hs.zmap j hj
  · rw [hd _ hb]
    exact hs.block z hz k

theorem Shows.writeInode (hs : Shows h d t) (hc : Consistent h) (hn : 1 ≤ n) (hle : n ≤ h.ninodes) (hx : Fits x time) :
    Shows h (writeInode h d n x time) { t with inode := Function.update t.inode n x } := by
  have hother : ∀ c ≠ inodeBlock h n, Layout.writeInode h d n x time c = d c := fun c hb => Function.update_of_ne hb _ _
  obtain ⟨_, himap, hzmap, hblock⟩ := hs.other hother
  have hmaps := maps_le_inodeBlock h n
  refine ⟨fun m hm hmle => ?_, fun j hj => himap j hj ?_, fun j hj => hzmap j hj ?_, fun z hz => hblock z hz ?_⟩
  · change Function.update t.inode n x m = _
    rw [readInode_writeInode hx hn hm, Function.update_apply, hs.inode m hm hmle]
  · have := imapBlock_lt hj
    omega
  · have := zmapBlock_lt hj
    omega
  · have := inodeBlock_lt hc hle
    omega

theorem Shows.setImap (hs : Shows h d t) (hc : Consistent h) (hj : j < 8192 * h.imapBlocks) (v : Bool) :
    Shows h (putBit d (imapBlock j) (j % 8192) v) { t with imap := Function.update t.imap j v } := by
  have hother : ∀ c ≠ imapBlock j, putBit d (imapBlock j) (j % 8192) v c = d c := fun c hb => Function.update_of_ne hb _ _
  obtain ⟨hinode, _, hzmap, hblock⟩ := hs.other hother
  have hlt := imapBlock_lt hj
  refine ⟨fun n hn hle => hinode n hn hle ?_, fun k hk => ?_, fun k hk => hzmap k hk ?_, fun z hz => hblock z hz ?_⟩
  · have := maps_le_inodeBlock h n
    omega
  · change Function.update t.imap j v k = _
    rw [Function.update_apply, hs.imap k hk]
    exact (bit_putBit 2 j k v).symm
  · have := zmapBlock_lt hk
    omega
  · have := maps_lt hc
    omega

theorem Shows.setZmap (hs : Shows h d t) (hc : Consistent h) (hj : j < 8192 * h.zmapBlocks) (v : Bool) :
    Shows h (putBit d (zmapBlock h j) (j % 8192) v) { t with zmap := Function.update t.zmap j v } := by
  have hother : ∀ c ≠ zmapBlock h j, putBit d (zmapBlock h j) (j % 8192) v c = d c := fun c hb => Function.update_of_ne hb _ _
  obtain ⟨hinode, himap, _, hblock⟩ := hs.other hother
  have hlt := zmapBlock_lt hj
  refine ⟨fun n hn hle => hinode n hn hle ?_, fun k hk => himap k hk ?_, fun k hk => ?_, fun z hz => hblock z hz ?_⟩
  · have := maps_le_inodeBlock h n
    omega
  · have := imapBlock_lt hk
    omega
  · change Function.update t.zmap j v k = _
    rw [Function.update_apply, hs.zmap k hk]
    exact (bit_putBit (2 + h.imapBlocks) j k v).symm
  · have := maps_lt hc
    omega

theorem Shows.setByte (hs : Shows h d t) (hc : Consistent h) (hz : h.firstdatazone ≤ z) (k : ℕ) (x : UInt8) :
    Shows h (putByte d z k x) { t with block := Function.update t.block z (Function.update (t.block z) k x) } := by
  have hother : ∀ c ≠ z, putByte d z k x c = d c := fun c hb => Function.update_of_ne hb _ _
  obtain ⟨hinode, himap, hzmap, hblock⟩ := hs.other hother
  have hmaps := maps_lt hc
  refine ⟨fun n hn hle => hinode n hn hle ?_, fun j hj => himap j hj ?_, fun j hj => hzmap j hj ?_, fun y hy i => ?_⟩
  · have := inodeBlock_lt hc hle
    omega
  · have := imapBlock_lt hj
    omega
  · have := zmapBlock_lt hj
    omega
  · change (Function.update t.block z _ y i).toBitVec = _
    by_cases hyz : y = z
    · subst hyz
      rw [putByte, Function.update_self, Function.update_self]
      by_cases hik : i = k
      · rw [hik, Function.update_self, Function.update_self]
      · rw [Function.update_of_ne hik, Function.update_of_ne hik]
        exact hs.block y hy i
    · rw [Function.update_of_ne hyz]
      exact hblock y hy hyz i

/-! ## Whole runs -/

theorem disk_layout (hc : Consistent h) (hr : (layoutSystem h).Reachable (d, t)) : Shows h d t := by
  refine Lts.Reachable.invariant (I := fun s : Device × Disk => Shows h s.1 s.2) hr (fun _ hinit => hinit) ?_
  intro s e s' _ hs hstep
  cases e with
  | writeInode n x time =>
    obtain ⟨⟨hn, hle, hx⟩, rfl⟩ := hstep
    exact hs.writeInode hc hn hle hx
  | setImap j v =>
    obtain ⟨hj, rfl⟩ := hstep
    exact hs.setImap hc hj v
  | setZmap j v =>
    obtain ⟨hj, rfl⟩ := hstep
    exact hs.setZmap hc hj v
  | setByte z k x =>
    obtain ⟨hz, rfl⟩ := hstep
    exact hs.setByte hc hz k x

/-- The super block of a 360 kB floppy, and a directory in inode 1. -/
def smallSuper : DSuper := ⟨128, 360, 1, 1, 8, 0x137F⟩

def rootInode : DInode := ⟨0o040755, 0, 32, 0, 2, fun k => if k = 0 then 8 else 0⟩

theorem disk_layout_root : let d := writeInode smallSuper (fun _ _ => 0) 1 rootInode 0
    Shows smallSuper d { table smallSuper (fun _ _ => 0) with
      inode := Function.update (table smallSuper fun _ _ => 0).inode 1 rootInode } := by
  intro d
  have hc : Consistent smallSuper := by
    unfold Consistent inodeBlock inodesPerBlock smallSuper
    decide
  have hx : Fits rootInode 0 := by
    refine ⟨?_, fun k hk => if_neg (by omega)⟩
    decide
  exact disk_layout hc (.step (e := .writeInode 1 rootInode 0)
    (.init (s := (fun _ _ => 0, table smallSuper fun _ _ => 0)) (shows_table _ _)) ⟨⟨by decide, by decide, hx⟩, rfl⟩)

/-! ## `read_inode` and `write_inode` over the table -/

section calls

variable {s s' : Kern} {i : Fin 32}

theorem getSuper_state {k : Option (Fin 8)} (hk : getSuper m s = .ok k s') : s' = s := by
  obtain ⟨s1, s2, hget, hk⟩ := Prog.bind_ok hk
  cases hget
  cases hk
  rfl

/-- The new `inode` of the kernel is the one in the bytes. -/
theorem readInode_shows (hrun : Fs.readInode i s = .ok () s') (hs : Shows h d (s.disk (s.inode i).dev))
    (hn : 1 ≤ (s.inode i).num) (hle : (s.inode i).num ≤ h.ninodes) :
    (s'.inode i).toDInode = readInode h d (s.inode i).num := by
  obtain ⟨s1, s2, hget, hrun⟩ := Prog.bind_ok hrun
  cases hget
  obtain ⟨k, s3, hsup, hrun⟩ := Prog.bind_ok hrun
  obtain rfl := getSuper_state hsup
  cases k with
  | none => cases hrun
  | some k =>
    cases hrun
    change (Function.update s3.inode i _ i).toDInode = _
    rw [Function.update_self, hs.inode _ hn hle]

/-- A dirty inode goes to its place in the bytes. -/
theorem writeInode_shows (hrun : Fs.writeInode i s = .ok () s') (hdirt : (s.inode i).dirt = true) (hdev : (s.inode i).dev ≠ 0)
    (hs : Shows h d (s.disk (s.inode i).dev)) (hc : Consistent h) (hn : 1 ≤ (s.inode i).num) (hle : (s.inode i).num ≤ h.ninodes)
    (hx : Fits (s.inode i).toDInode time) :
    Shows h (writeInode h d (s.inode i).num (s.inode i).toDInode time) (s'.disk (s.inode i).dev) := by
  obtain ⟨s1, s2, hget, hrun⟩ := Prog.bind_ok hrun
  cases hget
  dsimp only at hrun
  rw [if_neg fun h => h.elim (fun h => h hdirt) hdev] at hrun
  obtain ⟨k, s3, hsup, hrun⟩ := Prog.bind_ok hrun
  obtain rfl := getSuper_state hsup
  cases k with
  | none => cases hrun
  | some k =>
    obtain ⟨_, s4, hmod, hrun⟩ := Prog.bind_ok hrun
    cases hmod
    cases hrun
    change Shows h _ (Function.update s3.disk _ _ _)
    rw [Function.update_self]
    exact hs.writeInode hc hn hle hx

end calls

end Linux011.Fs.Layout
