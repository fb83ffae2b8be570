/-
  Reads and writes in a device's queue. IN_ORDER puts every read before every write, but a queue is
  two runs: a read that is below the request in progress goes into the second one, behind the
  writes of the first.
-/
import Linux011.Blk.Elevator

namespace Linux011.Blk
open Linux011.Lib Linux011.Fs

variable {b b' : Queues} {q : ℕ → List Slot} {m : ℕ} {k : Slot}

/-- Behind the request in progress no read stands behind a write. -/
def ReadsFirst (b : Queues) (m : ℕ) : Prop := ∀ l, IsLinked b.next (b.current m) l →
  EarlyFirst (fun a => (b.request a).write = true) l.tail

/-- The search of `add_request` for a read ends at the first write that waits, or in front of it. -/
def ReadsFit (b : Queues) : QueueEvent → Prop
  | .add major write i k => write = false → ∀ l, IsLinked b.next (b.current major) l →
      EndsEarly (b.fill k write i).Before (fun a => (b.request a).write = true) k l
  | _ => True

theorem write_up (a a' : Slot) (h : b.Before a a') (hw : (b.request a).write = true) : (b.request a').write = true := by
  obtain h | ⟨h, -⟩ := h
  · rw [hw] at h
    cases h' : (b.request a').write with
    | false => rw [h'] at h; exact absurd h (by decide)
    | true => rfl
  · rw [← h, hw]

theorem Queued.readsFirst_iff (h : Queued b q) (m : ℕ) :
    ReadsFirst b m ↔ EarlyFirst (fun a => (b.request a).write = true) (q m).tail :=
  ⟨fun hr => hr _ (h.linked m), fun he _ hl => hl.unique (h.linked m) ▸ he⟩

/-- What is late does not depend on the other requests. -/
theorem earlyFirst_congr {late late' : Slot → Prop} {l : List Slot} (h : ∀ a ∈ l, late a ↔ late' a) :
    EarlyFirst late l ↔ EarlyFirst late' l := by
  unfold EarlyFirst
  constructor
  · exact fun hl => hl.imp_of_mem fun ha ha' hi hlate => (h _ ha').mp (hi ((h _ ha).mpr hlate))
  · exact fun hl => hl.imp_of_mem fun ha ha' hi hlate => (h _ ha').mpr (hi ((h _ ha).mp hlate))

theorem endsEarly_congr {late late' : Slot → Prop} {r : Slot → Slot → Prop} {x : Slot} {l : List Slot}
    (h : ∀ a ∈ l, late a ↔ late' a) : EndsEarly r late x l ↔ EndsEarly r late' x l := by
  induction l with
  | nil => exact Iff.rfl
  | cons a l ih =>
    cases l with
    | nil => exact Iff.rfl
    | cons c l =>
      rw [EndsEarly, EndsEarly, h c (by simp), ih fun d hd => h d (List.mem_cons_of_mem a hd)]

/-- The queues as lists, each with its reads in front of its writes behind the head. -/
structure Parted (b : Queues) (q : ℕ → List Slot) : Prop extends Queued b q where
  early : ∀ m, EarlyFirst (fun a => (b.request a).write = true) (q m).tail

theorem Parted.readsFirst (h : Parted b q) (m : ℕ) : ReadsFirst b m := (h.toQueued.readsFirst_iff m).mpr (h.early m)

/-- The requests change, but not their commands. -/
theorem Parted.commands (h : Parted b q) (hQ : Queued b' q) (hw : ∀ a, (b'.request a).write = (b.request a).write) :
    Parted b' q :=
  ⟨hQ, fun m => (earlyFirst_congr fun a _ => by rw [hw]).mpr (h.early m)⟩

theorem Parted.endRequest {uptodate : Bool} (h : Parted b q) (he : b.endRequest m uptodate = some b') :
    ∃ q', Parted b' q' := by
  obtain ⟨k, l, hq, hQ, hE⟩ := endRequest_spec h.toQueued he
  have hwrite : ∀ a, (b'.request a).write = (b.request a).write := fun a => by
    rw [hE.request]
    by_cases ha : a = k
    · subst ha
      rw [Function.update_self]
    · rw [Function.update_of_ne ha]
  refine ⟨_, hQ, fun m' => (earlyFirst_congr fun a _ => by rw [hwrite]).mpr ?_⟩
  by_cases hm : m' = m
  · subst hm
    have hl := h.early m'
    rw [hq] at hl
    rw [Function.update_self]
    exact List.Pairwise.tail hl
  · rw [Function.update_of_ne hm]
    exact h.early m'

/-- A good sector moves the first request on, or ends it. -/
theorem Parted.setRequest (h : Parted b q) (k : Slot) {f : Request → Request} (hnext : ∀ r, (f r).next = r.next)
    (hdev : ∀ r, (f r).dev = r.dev) (hwrite : ∀ r, (f r).write = r.write) : Parted (b.setRequest k f) q := by
  refine h.commands (h.toQueued.setRequest k hnext hdev) fun a => ?_
  by_cases ha : a = k
  · subst ha
    simp [Queues.setRequest, hwrite]
  · simp [Queues.setRequest, ha]

/-- A request is added: it finds a place in front of the writes exactly if it fits. -/
theorem Parted.add (h : Parted b q) (hk : (b.request k).dev < 0) (m : ℕ) (write : Bool) (i : ℕ) :
    (∀ m', ReadsFirst ((b.fill k write i).addRequest m k) m') ↔ ReadsFit b (.add m write i k) := by
  obtain ⟨-, hreq, -⟩ := h.toQueued.fill hk write i
  obtain ⟨hQ, hL⟩ := h.toQueued.add hk m write i
  set b₁ := b.fill k write i with hb₁
  have hold : ∀ m' a, a ∈ q m' → ((b₁.request a).write = true ↔ (b.request a).write = true) := fun m' a ha => by
    rw [hreq m' a ha]
  have hnew : (b₁.request k).write = write := by rw [hb₁, fill_self]
  have hlate : ∀ l, EarlyFirst (fun a => ((b₁.addRequest m k).request a).write = true) l ↔
      EarlyFirst (fun a => (b₁.request a).write = true) l := fun l => earlyFirst_congr fun a _ => by rw [(hL.fields a).2.1]
  have hothers : ∀ m', m' ≠ m → ReadsFirst (b₁.addRequest m k) m' := fun m' hm => by
    rw [hQ.readsFirst_iff, Function.update_of_ne hm, hlate]
    exact (earlyFirst_congr fun a ha => hold m' a (List.mem_of_mem_tail ha)).mpr (h.early m')
  have hfit : ReadsFit b (.add m write i k) ↔ (write = false →
      EndsEarly b₁.Before (fun a => (b.request a).write = true) k (q m)) :=
    ⟨fun hf hw => hf hw _ (h.linked m), fun he hw l hl => hl.unique (h.linked m) ▸ he hw⟩
  have hmain : ReadsFirst (b₁.addRequest m k) m ↔ ReadsFit b (.add m write i k) := by
    rw [hQ.readsFirst_iff, Function.update_self, hlate, hfit]
    have hq := h.early m
    have hold' := hold m
    cases hqm : q m with
    | nil => exact ⟨fun _ _ => trivial, fun _ => List.Pairwise.nil⟩
    | cons a l =>
      rw [hqm] at hq hold'
      have hl : EarlyFirst (fun a => (b₁.request a).write = true) l :=
        (earlyFirst_congr fun c hc => hold' c (List.mem_cons_of_mem a hc)).mpr hq
      rw [elevate_earlyFirst (fun a => (b₁.request a).write = true) (fun _ _ => write_up _ _) a hl,
        endsEarly_congr (fun c hc => (hold' c hc)), hnew]
      cases write <;> simp
  refine ⟨fun hr => hmain.mp (hr m), fun hf m' => ?_⟩
  by_cases hm : m' = m
  · subst hm
    exact hmain.mpr hf
  · exact hothers m' hm

/-- In a queue without ties: with the reads `s` and the write `w` behind the head `a`, a read fits if
    it is above the head, or if the order breaks between the head and `w`. -/
theorem readsFit_iff (h : Queued b q) {i : ℕ} {a w : Slot} {s t : List Slot} (hk : (b.request k).dev < 0)
    (hq : q m = a :: (s ++ w :: t)) (hs : ∀ c ∈ s, (b.request c).write = false) (hw : (b.request w).write = true)
    (hties : ∀ c ∈ s, (b.request c).start ≠ ((b.fill k false i).request k).start) :
    ReadsFit b (.add m false i k) ↔
      (b.fill k false i).Before a k ∨ ¬ (a :: (s ++ [w])).IsChain (b.fill k false i).Before := by
  obtain ⟨-, hreq, -⟩ := h.fill hk false i
  have hmem : ∀ c ∈ s ++ w :: t, c ∈ q m := fun c hc => hq ▸ List.mem_cons_of_mem a hc
  have hkw : (b.fill k false i).Before k w := by
    left
    rw [fill_self, hreq m w (hmem w (by simp)), hw]
    rfl
  rw [← endsEarly_iff (fun c => (b.request c).write = true) (t := t) (fun c hc => by rw [hs c hc]; decide) hw hkw
    (fun c hc => inOrder_total ?_) a, ← hq]
  · exact ⟨fun hf => hf rfl _ (h.linked m), fun he _ l hl => hl.unique (h.linked m) ▸ he⟩
  · rw [hreq m c (hmem c (List.mem_append_left _ hc))]
    exact hties c hc

theorem Parted.follow {e : QueueEvent} (h : Parted b q) (hf : ReadsFit b e) (he : b.follow e = some b') :
    ∃ q', Parted b' q' := by
  cases e with
  | add m write i k =>
    simp only [Queues.follow] at he
    split_ifs at he with hk
    cases he
    have hQ := (h.toQueued.add hk m write i).1
    exact ⟨_, hQ, fun m' => (hQ.readsFirst_iff m').mp ((h.add hk m write i).mpr hf m')⟩
  | endRequest m uptodate => exact h.endRequest he
  | readIntr m =>
    change b.readIntr m = some b' at he
    unfold Queues.readIntr at he
    split at he
    · cases he
    · rename_i k hcur
      have hmoved := h.setRequest k (f := fun r => { r with
        sector := (r.sector + 1) % 4294967296, nrSectors := (r.nrSectors + 4294967295) % 4294967296 })
        (fun _ => rfl) (fun _ => rfl) fun _ => rfl
      dsimp only at he
      split_ifs at he
      · cases he
        exact ⟨q, hmoved⟩
      · exact hmoved.endRequest he
  | writeIntr m =>
    change b.writeIntr m = some b' at he
    unfold Queues.writeIntr at he
    split at he
    · cases he
    · rename_i k hcur
      have hmoved := h.setRequest k (f := fun r => { r with nrSectors := (r.nrSectors + 4294967295) % 4294967296 })
        (fun _ => rfl) (fun _ => rfl) fun _ => rfl
      dsimp only at he
      split_ifs at he
      · cases he
        exact ⟨q, hmoved.setRequest k (fun _ => rfl) (fun _ => rfl) fun _ => rfl⟩
      · exact hmoved.endRequest he
  | other buf =>
    cases he
    exact ⟨q, ⟨h.linked, h.used, h.apart⟩, h.early⟩

theorem parted (h : (queueSystem.restrict ReadsFit).Reachable b) : ∃ q, Parted b q := by
  refine h.invariant (I := fun b => ∃ q, Parted b q) ?_ fun b e b' _ hI hs => ?_
  · rintro _ ⟨driver, buf, rfl⟩
    exact ⟨fun _ => [], ⟨fun _ => rfl, by simp, by simp⟩, fun _ => List.Pairwise.nil⟩
  · obtain ⟨q, hq⟩ := hI
    exact hq.follow hs.1 hs.2

/-- As long as each new read fits, no read waits behind a write; the first read that does not fit
    goes behind one. -/
theorem reads_first (h : (queueSystem.restrict ReadsFit).Reachable b) :
    (∀ m, ReadsFirst b m) ∧
      ∀ e b', b.follow e = some b' → ((∀ m, ReadsFirst b' m) ↔ ReadsFit b e) := by
  obtain ⟨q, hq⟩ := parted h
  refine ⟨hq.readsFirst, fun e b' he => ?_⟩
  cases e with
  | add m write i k =>
    simp only [Queues.follow] at he
    split_ifs at he with hk
    cases he
    exact hq.add hk m write i
  | _ =>
    obtain ⟨q', hq'⟩ := hq.follow (by trivial) he
    exact ⟨fun _ => trivial, fun _ => hq'.readsFirst⟩

/-- Buffer 0 is for block 5, buffer 1 for block 9 and the others for block 2. -/
def threeBlocks : Queues := Queues.init (fun _ => true) fun i =>
  ⟨769, if i = 0 then 5 else if i = 1 then 9 else 2, false, true, 1, true, fun _ => 0⟩

/-- Block 5 is being read. -/
def oneRead : Queues := (threeBlocks.fill 31 false 0).addRequest 3 31

/-- Block 9 waits to be written. -/
def oneWrite : Queues := (oneRead.fill 20 true 1).addRequest 3 20

theorem reachable_oneWrite : (queueSystem.restrict ReadsFit).Reachable oneWrite := by
  have h0 : (queueSystem.restrict ReadsFit).Reachable threeBlocks := .init ⟨_, _, rfl⟩
  have h1 : (queueSystem.restrict ReadsFit).Reachable oneRead := h0.step (e := .add 3 false 0 31) ⟨fun _ l hl => by
    have hnil : l = [] := hl.unique rfl
    rw [hnil]
    trivial, rfl⟩
  exact h1.step (e := .add 3 true 1 20) ⟨nofun, rfl⟩

theorem reads_first_one_write : ReadsFirst oneWrite 3 := (reads_first reachable_oneWrite).1 3

/-- The read of block 2 goes behind the write of block 9. -/
theorem read_behind_write : ∃ b, queueSystem.Reachable b ∧ ¬ ReadsFirst b 3 := by
  refine ⟨(oneWrite.fill 30 false 2).addRequest 3 30, ?_, fun hr => ?_⟩
  · exact reachable_oneWrite.of_restrict.step (e := .add 3 false 2 30) rfl
  · have h := List.pairwise_cons.mp (hr [31, 20, 30] ⟨rfl, rfl, rfl, rfl⟩)
    have h1 := h.1 30 List.mem_cons_self rfl
    cases h1

end Linux011.Blk
