/-
  The order of a device's queue. The links in the request table are lists (`Queued`), and
  `add_request` is `elevate` on them, the insertion of a one-way scan. `elevator_order`: with
  pairwise different block starts every queue is at most two strictly increasing runs, also while
  the driver counts the sector of the first request up.
-/
import Linux011.Lib.Trans
import Linux011.Blk.Request

namespace Linux011.Blk
open Linux011.Lib Linux011.Fs

/-! ## The lists -/

/-- The queues as lists: `q major` is linked from `current_request`, its requests are in use, and
    no slot is in two queues. -/
structure Queued (b : Queues) (q : ℕ → List Slot) : Prop where
  linked : ∀ m, IsLinked b.next (b.current m) (q m)
  used : ∀ m, ∀ k ∈ q m, 0 ≤ (b.request k).dev
  apart : ∀ m m' k, k ∈ q m → k ∈ q m' → m = m'

/-- `IN_ORDER` on slots. -/
def Queues.Before (b : Queues) (k k' : Slot) : Prop := InOrder (b.request k) (b.request k')

instance (b : Queues) : DecidableRel b.Before := fun k k' =>
  inferInstanceAs (Decidable (InOrder (b.request k) (b.request k')))

variable {b b' : Queues} {q : ℕ → List Slot} {m : ℕ} {k : Slot}

/-- A queue fits into the table. -/
theorem Queued.length_le (h : Queued b q) (m : ℕ) : (q m).length ≤ 32 := by
  simpa using (h.linked m).nodup.length_le_card

/-- The loop of `add_request` stops at the node behind which `elevate` inserts. -/
theorem scan_spec {a : Slot} {l : List Slot} {n : ℕ} (h : IsLinked b.next (some a) (a :: l))
    (hn : l.length ≤ n) : ∃ s t, a :: l = s ++ b.scan k n a :: t ∧
      elevate b.Before k (a :: l) = s ++ b.scan k n a :: k :: t := by
  induction l generalizing a n with
  | nil =>
    refine ⟨[], [], ?_, ?_⟩ <;> cases n <;> simp [Queues.scan, elevate, show b.next a = none from h.2]
  | cons c l ih =>
    cases n with
    | zero => cases hn
    | succ n =>
      have hc : b.next a = some c := h.2.1
      by_cases hif : (b.Before a k ∨ ¬ b.Before a c) ∧ b.Before k c
      · have hs : b.scan k (n + 1) a = a := by
          rw [Queues.scan, hc]
          exact if_pos hif
        rw [hs]
        exact ⟨[], c :: l, rfl, by rw [elevate_cons_cons, if_pos hif]; rfl⟩
      · have hs : b.scan k (n + 1) a = b.scan k n c := by
          rw [Queues.scan, hc]
          exact if_neg hif
        obtain ⟨s, t, h1, h2⟩ := ih ⟨rfl, h.2.2⟩ (by simpa using hn)
        rw [hs]
        exact ⟨a :: s, t, by rw [h1]; rfl, by rw [elevate_cons_cons, if_neg hif, h2]; rfl⟩

/-- A request but for its link. -/
def Request.unlinked (r : Request) : Request := { r with next := none }

/-- Requests and buffers are as before, but for links and the `b_dirt` of buffer `i`. -/
structure Linked (i : ℕ) (b b' : Queues) : Prop where
  request : ∀ a, (b'.request a).unlinked = (b.request a).unlinked
  driver : b'.driver = b.driver
  buf : b'.buf = Function.update b.buf i { b.buf i with dirt := false }
  locks : b'.locks = b.locks
  unlocks : b'.unlocks = b.unlocks

namespace Linked

variable {i : ℕ}

theorem fields (h : Linked i b b') (a : Slot) : (b'.request a).dev = (b.request a).dev ∧
    (b'.request a).write = (b.request a).write ∧ (b'.request a).sector = (b.request a).sector ∧
    (b'.request a).nrSectors = (b.request a).nrSectors ∧ (b'.request a).bh = (b.request a).bh := by
  have hr := h.request a
  simp only [Request.unlinked, Request.mk.injEq] at hr
  tauto

theorem dev (h : Linked i b b') (a : Slot) : (b'.request a).dev = (b.request a).dev :=
  (h.fields a).1

theorem before (h : Linked i b b') (a a' : Slot) : b'.Before a a' ↔ b.Before a a' := by
  show InOrder (b'.request a).unlinked (b'.request a').unlinked ↔
    InOrder (b.request a).unlinked (b.request a').unlinked
  rw [h.request, h.request]

end Linked

theorem next_setRequest (b : Queues) (k : Slot) (f : Request → Request) :
    (b.setRequest k f).next = Function.update b.next k (f (b.request k)).next := by
  funext a
  by_cases ha : a = k
  · subst ha; simp [Queues.next, Queues.setRequest]
  · simp [Queues.next, Queues.setRequest, ha]

/-- A change of links only. -/
theorem unlinked_setRequest (b : Queues) (k : Slot) (p : Option Slot) (a : Slot) :
    ((b.setRequest k fun r => { r with next := p }).request a).unlinked =
      (b.request a).unlinked := by
  by_cases ha : a = k
  · subst ha; simp [Queues.setRequest, Request.unlinked]
  · simp [Queues.setRequest, ha]

/-- `add_request` puts the new request into the queue of its device. -/
theorem addRequest_spec (h : Queued b q) (hk : ∀ m', k ∉ q m') (hd : 0 ≤ (b.request k).dev) :
    Queued (b.addRequest m k) (Function.update q m (elevate b.Before k (q m))) ∧
      Linked (b.request k).bh b (b.addRequest m k) := by
  have hmem : ∀ m' a, a ∈ Function.update q m (elevate b.Before k (q m)) m' →
      (m' = m ∧ a = k) ∨ a ∈ q m' := by
    intro m' a ha
    by_cases hm : m' = m
    · subst hm
      rw [Function.update_self] at ha
      rcases mem_elevate.mp ha with rfl | ha
      · exact Or.inl ⟨rfl, rfl⟩
      · exact Or.inr ha
    · rw [Function.update_of_ne hm] at ha
      exact Or.inr ha
  -- what the links must be for the rest to follow
  have build : ∀ b' : Queues, Linked (b.request k).bh b b' →
      (∀ m', m' ≠ m → b'.current m' = b.current m') →
      (∀ a, (∀ l, a ∈ q l → l ≠ m) → a ≠ k → b'.next a = b.next a) →
      IsLinked b'.next (b'.current m) (elevate b.Before k (q m)) →
      Queued b' (Function.update q m (elevate b.Before k (q m))) ∧ Linked (b.request k).bh b b' := by
    intro b' hl hcur hnext hlink
    refine ⟨⟨fun m' => ?_, fun m' a ha => ?_, fun m1 m2 a h1 h2 => ?_⟩, hl⟩
    · by_cases hm : m' = m
      · subst hm
        rwa [Function.update_self]
      · rw [Function.update_of_ne hm, hcur m' hm]
        refine (h.linked m').congr fun a ha => hnext a (fun l hl => ?_) fun hak => hk m' (hak ▸ ha)
        rwa [← h.apart m' l a ha hl]
    · rw [hl.dev]
      rcases hmem m' a ha with ⟨-, rfl⟩ | ha
      · exact hd
      · exact h.used m' a ha
    · rcases hmem m1 a h1 with ⟨hm1, hak⟩ | hq1 <;> rcases hmem m2 a h2 with ⟨hm2, hak'⟩ | hq2
      · exact hm1.trans hm2.symm
      · exact absurd (hak ▸ hq2) (hk m2)
      · exact absurd (hak' ▸ hq1) (hk m1)
      · exact h.apart m1 m2 a hq1 hq2
  cases hcur : b.current m with
  | none =>
    have hq : q m = [] := (h.linked m).unique (by rw [hcur]; rfl)
    have hb : b.addRequest m k = ((b.setRequest k fun r => { r with next := none }).setBuf
        (b.request k).bh fun bh => { bh with dirt := false }).setCurrent m (some k) := by
      simp [Queues.addRequest, Queues.setBuf, Queues.setRequest, hcur]
    have hnext : (b.addRequest m k).next = Function.update b.next k none := by
      rw [hb, ← next_setRequest b k fun r => { r with next := none }]
      rfl
    refine build _ ⟨fun a => ?_, ?_, ?_, ?_, ?_⟩ (fun m' hm => ?_) (fun a _ hak => ?_) ?_
    · rw [hb]; exact unlinked_setRequest b k none a
    · rw [hb]; rfl
    · rw [hb]; rfl
    · rw [hb]; rfl
    · rw [hb]; rfl
    · rw [hb]; exact Function.update_of_ne hm _ _
    · rw [hnext, Function.update_of_ne hak]
    · rw [hq, hnext]
      refine ⟨by rw [hb]; exact Function.update_self .., ?_⟩
      rw [Function.update_self]
      rfl
  | some head =>
    obtain ⟨l, hq⟩ : ∃ l, q m = head :: l := by
      cases hl : q m with
      | nil => exact absurd ((h.linked m).head.trans hcur) (by simp [hl])
      | cons a l =>
        have ha := (h.linked m).head.trans hcur
        rw [hl] at ha
        cases ha
        exact ⟨l, rfl⟩
    -- `b1` is the table when the loop starts
    set b1 := (b.setRequest k fun r => { r with next := none }).setBuf (b.request k).bh
      fun bh => { bh with dirt := false } with hb1
    have hun1 : ∀ a, (b1.request a).unlinked = (b.request a).unlinked := unlinked_setRequest b k none
    have hnext1 : b1.next = Function.update b.next k none :=
      next_setRequest b k fun r => { r with next := none }
    have hlink : IsLinked b1.next (some head) (head :: l) := by
      rw [hnext1, ← hq, ← hcur]
      exact (h.linked m).of_update (hk m)
    have hlen : l.length ≤ 32 := by
      have := h.length_le m
      rw [hq] at this
      exact Nat.le_of_succ_le this
    obtain ⟨s, t, hst, hel⟩ := scan_spec (k := k) hlink hlen
    set tmp := b1.scan k 32 head with htmp
    have htmpq : tmp ∈ q m := by rw [hq, hst]; simp
    have hb : b.addRequest m k = (b1.setRequest k fun r => { r with next := b1.next tmp }).setRequest
        tmp fun r => { r with next := some k } := by
      simp [Queues.addRequest, hb1, htmp, Queues.setBuf, Queues.setRequest, hcur]
    have hnext : (b.addRequest m k).next =
        Function.update (Function.update b1.next k (b1.next tmp)) tmp (some k) := by
      rw [hb, next_setRequest, next_setRequest]
    refine build _ ⟨fun a => ?_, ?_, ?_, ?_, ?_⟩ (fun m' hm => ?_) (fun a ha hak => ?_) ?_
    · rw [hb, unlinked_setRequest, unlinked_setRequest]
      exact hun1 a
    · rw [hb]; rfl
    · rw [hb]; rfl
    · rw [hb]; rfl
    · rw [hb]; rfl
    · rw [hb]; rfl
    · have hat : a ≠ tmp := fun hat => ha m (hat ▸ htmpq) rfl
      rw [hnext, Function.update_of_ne hat, Function.update_of_ne hak, hnext1,
        Function.update_of_ne hak]
    · have hel' : elevate b.Before k (q m) = s ++ tmp :: k :: t := by
        rw [hq, ← hel]
        refine elevate_congr fun a a' => ?_
        show InOrder (b.request a).unlinked (b.request a').unlinked ↔
          InOrder (b1.request a).unlinked (b1.request a').unlinked
        rw [hun1, hun1]
      rw [hnext, hel']
      have hcur' : (b.addRequest m k).current m = some head := by rw [hb]; exact hcur
      rw [hcur']
      rw [hst] at hlink
      exact hlink.insertAfter (by rw [← hst, ← hq]; exact hk m)

/-- What `end_request` does: the first request of the queue is free, its buffer unlocked. -/
structure Ended (k : Slot) (uptodate : Bool) (b b' : Queues) : Prop where
  request : b'.request = Function.update b.request k { b.request k with dev := -1 }
  driver : b'.driver = b.driver
  buf : b'.buf = Function.update b.buf (b.request k).bh
    { b.buf (b.request k).bh with uptodate := uptodate, lock := false }
  locks : b'.locks = b.locks
  unlocks : b'.unlocks = Function.update b.unlocks (b.request k).bh (b.unlocks (b.request k).bh + 1)

theorem endRequest_spec {uptodate : Bool} (h : Queued b q)
    (he : b.endRequest m uptodate = some b') :
    ∃ k l, q m = k :: l ∧ Queued b' (Function.update q m l) ∧ Ended k uptodate b b' := by
  unfold Queues.endRequest at he
  split at he
  · cases he
  · rename_i k hcur
    cases he
    obtain ⟨l, hq⟩ : ∃ l, q m = k :: l := by
      have hhead := (h.linked m).head.trans hcur
      cases hl : q m with
      | nil => rw [hl] at hhead; cases hhead
      | cons a l => rw [hl] at hhead; cases hhead; exact ⟨l, rfl⟩
    have hm := h.linked m
    rw [hq] at hm
    have hmem : ∀ m' a, a ∈ Function.update q m l m' → a ∈ q m' := fun m' a ha => by
      by_cases hm' : m' = m
      · subst hm'
        rw [Function.update_self] at ha
        rw [hq]
        exact List.mem_cons_of_mem _ ha
      · rwa [Function.update_of_ne hm'] at ha
    have hne : ∀ m' a, a ∈ Function.update q m l m' → a ≠ k := by
      rintro m' a ha rfl
      by_cases hm' : m' = m
      · subst hm'
        rw [Function.update_self] at ha
        exact (List.nodup_cons.mp (hq ▸ (h.linked m').nodup)).1 ha
      · exact hm' (h.apart m' m a (hmem m' a ha) (by rw [hq]; exact List.mem_cons_self))
    refine ⟨k, l, hq, ⟨fun m' => ?_, fun m' a ha => ?_, fun m1 m2 a h1 h2 => ?_⟩,
      ⟨rfl, rfl, ?_, rfl, rfl⟩⟩
    · set b2 := ((b.setBuf (b.request k).bh fun bh => { bh with uptodate := uptodate }).unlockBuffer
        (b.request k).bh).setRequest k fun r => { r with dev := -1 } with hb2
      have hn : b2.next = b.next := by
        rw [hb2, next_setRequest]
        exact Function.update_eq_self k b.next
      show IsLinked b2.next (Function.update b.current m (b2.next k) m') _
      rw [hn]
      by_cases hm' : m' = m
      · subst hm'
        rw [Function.update_self, Function.update_self]
        exact hm.2
      · rw [Function.update_of_ne hm', Function.update_of_ne hm']
        exact h.linked m'
    · show 0 ≤ (Function.update b.request k _ a).dev
      rw [Function.update_of_ne (hne m' a ha)]
      exact h.used m' a (hmem m' a ha)
    · exact h.apart m1 m2 a (hmem m1 a h1) (hmem m2 a h2)
    · simp [Queues.setCurrent, Queues.setRequest, Queues.unlockBuffer, Queues.setBuf]

/-- A request changes, but neither its link nor its device. -/
theorem Queued.setRequest (h : Queued b q) (k : Slot) {f : Request → Request}
    (hnext : ∀ r, (f r).next = r.next) (hdev : ∀ r, (f r).dev = r.dev) :
    Queued (b.setRequest k f) q where
  linked m := by
    have hn : (b.setRequest k f).next = b.next := by
      rw [next_setRequest, hnext]
      exact Function.update_eq_self k b.next
    rw [hn]
    exact h.linked m
  used m a ha := by
    by_cases hak : a = k
    · subst hak
      simp only [Queues.setRequest, Function.update_self, hdev]
      exact h.used m a ha
    · simp only [Queues.setRequest, Function.update_of_ne hak]
      exact h.used m a ha
  apart := h.apart

/-! ## Runs -/

inductive QueueEvent where
  /-- slot `k` is filled for buffer `i` and put into the queue of `major` -/
  | add (major : ℕ) (write : Bool) (i : ℕ) (k : Slot)
  | endRequest (major : ℕ) (uptodate : Bool)
  | readIntr (major : ℕ)
  | writeIntr (major : ℕ)
  /-- other code changes the buffers -/
  | other (buf : ℕ → Buf)

def Queues.follow (b : Queues) : QueueEvent → Option Queues
  | .add major write i k =>
    if (b.request k).dev < 0 then some ((b.fill k write i).addRequest major k) else none
  | .endRequest major uptodate => b.endRequest major uptodate
  | .readIntr major => b.readIntr major
  | .writeIntr major => b.writeIntr major
  | .other buf => some { b with buf := buf }

def queueSystem : Lts Queues QueueEvent where
  init b := ∃ driver buf, b = Queues.init driver buf
  step b e b' := b.follow e = some b'

/-- The block at which a request starts: the driver may have moved its first sector. -/
def Request.start (r : Request) : ℤ × ℕ := (r.dev, r.sector / 2)

/-- A request is added only when none of the queue starts at the same block. -/
def Distinct (b : Queues) : QueueEvent → Prop
  | .add major write i k => ∀ l, IsLinked b.next (b.current major) l → ∀ a ∈ l,
      (b.request a).start ≠ ((b.fill k write i).request k).start
  | _ => True

instance (b : Queues) : IsTrans Slot b.Before where
  trans r s t h1 h2 := by
    simp only [Queues.Before, InOrder, Bool.lt_iff] at h1 h2 ⊢
    rcases h1 with h1 | ⟨w1, h1⟩ <;> rcases h2 with h2 | ⟨w2, h2⟩
    · exact absurd h1.2 (by rw [h2.1]; decide)
    · exact Or.inl ⟨h1.1, w2 ▸ h1.2⟩
    · exact Or.inl ⟨w1 ▸ h2.1, h2.2⟩
    · refine Or.inr ⟨w1.trans w2, ?_⟩
      omega

/-- Between blocks that start at different places the order does not depend on the sectors the
    driver has moved. -/
def StartBefore (r s : Request) : Prop :=
  r.write < s.write ∨ r.write = s.write ∧
    (r.dev < s.dev ∨ r.dev = s.dev ∧ r.sector / 2 < s.sector / 2)

theorem inOrder_iff {r s : Request} (h : r.start ≠ s.start) : InOrder r s ↔ StartBefore r s := by
  have hne : r.dev = s.dev → r.sector / 2 ≠ s.sector / 2 := fun hd hs =>
    h (Prod.ext hd hs)
  unfold InOrder StartBefore
  constructor
  · rintro (hw | ⟨hw, hd | ⟨hd, hs⟩⟩)
    · exact Or.inl hw
    · exact Or.inr ⟨hw, Or.inl hd⟩
    · have := hne hd
      exact Or.inr ⟨hw, Or.inr ⟨hd, by omega⟩⟩
  · rintro (hw | ⟨hw, hd | ⟨hd, hs⟩⟩)
    · exact Or.inl hw
    · exact Or.inr ⟨hw, Or.inl hd⟩
    · exact Or.inr ⟨hw, Or.inr ⟨hd, by omega⟩⟩

theorem inOrder_total {r s : Request} (h : r.start ≠ s.start) : InOrder r s ∨ InOrder s r := by
  rw [inOrder_iff h, inOrder_iff h.symm]
  have hne : r.dev = s.dev → r.sector / 2 ≠ s.sector / 2 := fun hd hs =>
    h (Prod.ext hd hs)
  unfold StartBefore
  rcases Bool.eq_false_or_eq_true r.write with hr | hr <;>
    rcases Bool.eq_false_or_eq_true s.write with hs | hs <;> simp only [hr, hs] <;> simp <;> omega

/-- The queues are in order, start at different blocks, and each request has both its sectors to
    go or one of them. -/
structure Ordered (b : Queues) (q : ℕ → List Slot) : Prop extends Queued b q where
  runs : ∀ m, TwoRuns b.Before (q m)
  starts : ∀ m, ∀ a ∈ q m, ∀ a' ∈ q m, a ≠ a' → (b.request a).start ≠ (b.request a').start
  half : ∀ m, ∀ a ∈ q m, (b.request a).sector < 4294967296 ∧
    ((b.request a).nrSectors = 2 ∧ (b.request a).sector % 2 = 0 ∨
      (b.request a).nrSectors = 1 ∧ (b.request a).sector % 2 = 1)

/-- Requests that keep `cmd` and their start block keep their order. -/
theorem Ordered.runs_of_start (h : Ordered b q)
    (hr : ∀ a ∈ q m, (b'.request a).write = (b.request a).write ∧
      (b'.request a).start = (b.request a).start) : TwoRuns b'.Before (q m) := by
  refine (h.runs m).imp fun a ha a' ha' hb => ?_
  have hne : a ≠ a' := by
    rintro rfl
    simp [Queues.Before, InOrder] at hb
  have hst := h.starts m a ha a' ha' hne
  have hst' : (b'.request a).start ≠ (b'.request a').start := by
    rwa [(hr a ha).2, (hr a' ha').2]
  refine (inOrder_iff hst').mpr ?_
  have hb' := (inOrder_iff hst).mp hb
  have hd : ∀ c ∈ q m, (b'.request c).dev = (b.request c).dev ∧
      (b'.request c).sector / 2 = (b.request c).sector / 2 := fun c hc =>
    Prod.ext_iff.mp (hr c hc).2
  unfold StartBefore at hb' ⊢
  rwa [(hr a ha).1, (hr a' ha').1, (hd a ha).1, (hd a' ha').1, (hd a ha).2, (hd a' ha').2]

/-- The sectors of a request move on, both to go, to one to go. -/
theorem Ordered.advance (h : Ordered b q) (hk : k ∈ q m) {f : Request → Request}
    (hnext : ∀ r, (f r).next = r.next) (hdev : ∀ r, (f r).dev = r.dev)
    (hwrite : ∀ r, (f r).write = r.write)
    (hmove : (f (b.request k)).sector < 4294967296 ∧ (f (b.request k)).nrSectors = 1 ∧
      (f (b.request k)).sector % 2 = 1 ∧ (f (b.request k)).sector / 2 = (b.request k).sector / 2) :
    Ordered (b.setRequest k f) q := by
  have hr : ∀ a, ((b.setRequest k f).request a).write = (b.request a).write ∧
      ((b.setRequest k f).request a).start = (b.request a).start := fun a => by
    by_cases hak : a = k
    · subst hak
      simp only [Queues.setRequest, Function.update_self, Request.start, hdev, hwrite, hmove.2.2.2]
      trivial
    · simp [Queues.setRequest, hak]
  refine ⟨h.toQueued.setRequest k hnext hdev, fun m => h.runs_of_start fun a _ => hr a,
    fun m a ha a' ha' => ?_, fun m a ha => ?_⟩
  · rw [(hr a).2, (hr a').2]
    exact h.starts m a ha a' ha'
  · by_cases hak : a = k
    · subst hak
      simp only [Queues.setRequest, Function.update_self]
      exact ⟨hmove.1, Or.inr ⟨hmove.2.1, hmove.2.2.1⟩⟩
    · simp only [Queues.setRequest, Function.update_of_ne hak]
      exact h.half m a ha

/-- The first request of a queue ends, after its last sector or an error. -/
theorem Ordered.ended {f : Request → Request} {uptodate : Bool} (h : Ordered b q)
    (hcur : b.current m = some k) (he : (b.setRequest k f).endRequest m uptodate = some b')
    (hnext : ∀ r, (f r).next = r.next) (hdev : ∀ r, (f r).dev = r.dev) :
    ∃ l, q m = k :: l ∧ Ordered b' (Function.update q m l) := by
  obtain ⟨k', l, hq, hQ, hE⟩ := endRequest_spec (h.toQueued.setRequest k hnext hdev) he
  have hkk : k' = k := by
    have hh := (h.linked m).head
    rw [hq, hcur] at hh
    exact Option.some.inj hh
  subst hkk
  have hsub : ∀ m' a, a ∈ Function.update q m l m' → a ∈ q m' ∧ a ≠ k' := by
    intro m' a ha
    by_cases hm' : m' = m
    · subst hm'
      rw [Function.update_self] at ha
      rw [hq]
      refine ⟨List.mem_cons_of_mem _ ha, ?_⟩
      rintro rfl
      exact (List.nodup_cons.mp (hq ▸ (h.linked m').nodup)).1 ha
    · rw [Function.update_of_ne hm'] at ha
      refine ⟨ha, ?_⟩
      rintro rfl
      exact hm' (h.apart m' m a ha (by rw [hq]; exact List.mem_cons_self))
  have hreq : ∀ m' a, a ∈ Function.update q m l m' → b'.request a = b.request a := by
    intro m' a ha
    rw [hE.request, Function.update_of_ne (hsub m' a ha).2]
    exact Function.update_of_ne (hsub m' a ha).2 _ _
  refine ⟨l, hq, hQ, fun m' => ?_, fun m' a ha a' ha' => ?_, fun m' a ha => ?_⟩
  · have hold : TwoRuns b.Before (Function.update q m l m') := by
      by_cases hm' : m' = m
      · subst hm'
        have hr := h.runs m'
        rw [hq] at hr
        rw [Function.update_self]
        exact hr.tail
      · rw [Function.update_of_ne hm']
        exact h.runs m'
    refine hold.imp fun a ha a' ha' hb => ?_
    unfold Queues.Before
    rwa [hreq m' a ha, hreq m' a' ha']
  · rw [hreq m' a ha, hreq m' a' ha']
    exact h.starts m' a (hsub m' a ha).1 a' (hsub m' a' ha').1
  · rw [hreq m' a ha]
    exact h.half m' a (hsub m' a ha).1

/-- `make_request` fills a free slot: the queues do not see it. -/
theorem Queued.fill (h : Queued b q) (hk : (b.request k).dev < 0) (write : Bool) (i : ℕ) :
    (∀ m, k ∉ q m) ∧ (∀ m, ∀ a ∈ q m, (b.fill k write i).request a = b.request a) ∧
      Queued (b.fill k write i) q := by
  have hkq : ∀ m, k ∉ q m := fun m hm => absurd (h.used m k hm) (by omega)
  have hreq : ∀ m, ∀ a ∈ q m, (b.fill k write i).request a = b.request a := fun m a ha =>
    Function.update_of_ne (fun hak : a = k => hkq m (hak ▸ ha)) _ _
  refine ⟨hkq, hreq, fun m => (h.linked m).congr fun a ha => ?_, fun m a ha => ?_, h.apart⟩
  · unfold Queues.next
    rw [hreq m a ha]
  · rw [hreq m a ha]
    exact h.used m a ha

theorem fill_self (b : Queues) (k : Slot) (write : Bool) (i : ℕ) : (b.fill k write i).request k =
    ⟨(b.buf i).dev, write, (b.buf i).blocknr * 2 % 4294967296, 2, i, none⟩ :=
  Function.update_self ..

theorem Queued.add (h : Queued b q) (hk : (b.request k).dev < 0) (m : ℕ) (write : Bool) (i : ℕ) :
    Queued ((b.fill k write i).addRequest m k)
        (Function.update q m (elevate (b.fill k write i).Before k (q m))) ∧
      Linked i (b.fill k write i) ((b.fill k write i).addRequest m k) := by
  obtain ⟨hkq, -, h1⟩ := h.fill hk write i
  have hs := addRequest_spec (m := m) h1 hkq
    (by rw [fill_self]; exact Int.natCast_nonneg _)
  rw [fill_self] at hs
  exact hs

/-- A request is added whose block none of the queue starts at. -/
theorem Ordered.add {write : Bool} {i : ℕ} (h : Ordered b q) (hk : (b.request k).dev < 0)
    (hd : Distinct b (.add m write i k)) :
    Ordered ((b.fill k write i).addRequest m k)
      (Function.update q m (elevate (b.fill k write i).Before k (q m))) := by
  obtain ⟨hkq, hreq, hQ1⟩ := h.toQueued.fill hk write i
  obtain ⟨hQ, hL⟩ := h.toQueued.add hk m write i
  have hself := fill_self b k write i
  set b1 := b.fill k write i with hb1
  have h1 : Ordered b1 q := by
    refine ⟨hQ1, fun m' => ?_, fun m' a ha a' ha' => ?_, fun m' a ha => ?_⟩
    · exact h.runs_of_start fun a ha => by rw [hreq m' a ha]; trivial
    · rw [hreq m' a ha, hreq m' a' ha']; exact h.starts m' a ha a' ha'
    · rw [hreq m' a ha]; exact h.half m' a ha
  have hdist : ∀ a ∈ q m, (b1.request a).start ≠ (b1.request k).start := fun a ha => by
    rw [hreq m a ha]
    exact hd (q m) (h.linked m) a ha
  have hmem : ∀ m' a, a ∈ Function.update q m (elevate b1.Before k (q m)) m' →
      (m' = m ∧ a = k) ∨ a ∈ q m' := by
    intro m' a ha
    by_cases hm : m' = m
    · subst hm
      rw [Function.update_self] at ha
      exact (mem_elevate.mp ha).imp_left fun e => ⟨rfl, e⟩
    · rw [Function.update_of_ne hm] at ha
      exact Or.inr ha
  have hstart : ∀ a, ((b1.addRequest m k).request a).start = (b1.request a).start := fun a => by
    simp only [Request.start, hL.fields a]
  refine ⟨hQ, fun m' => ?_, fun m' a ha a' ha' hne => ?_, fun m' a ha => ?_⟩
  · have hruns : TwoRuns b1.Before (Function.update q m (elevate b1.Before k (q m)) m') := by
      by_cases hm : m' = m
      · subst hm
        rw [Function.update_self]
        exact (h1.runs m').elevate fun a ha => inOrder_total (hdist a ha)
      · rw [Function.update_of_ne hm]
        exact h1.runs m'
    exact hruns.imp fun a _ a' _ hb => (hL.before a a').mpr hb
  · rw [hstart, hstart]
    rcases hmem m' a ha with ⟨rfl, rfl⟩ | hq <;> rcases hmem m' a' ha' with ⟨hm, hak⟩ | hq'
    · exact absurd hak.symm hne
    · exact (hdist a' hq').symm
    · rw [hak]
      exact hdist a (hm ▸ hq)
    · exact h1.starts m' a hq a' hq' hne
  · simp only [hL.fields a]
    rcases hmem m' a ha with ⟨rfl, rfl⟩ | hq
    · rw [hself]
      exact ⟨Nat.mod_lt _ (by decide), Or.inl ⟨rfl, by dsimp only; omega⟩⟩
    · exact h1.half m' a hq

theorem setRequest_setRequest (b : Queues) (k : Slot) (f g : Request → Request) :
    (b.setRequest k f).setRequest k g = b.setRequest k (g ∘ f) := by
  simp [Queues.setRequest]

theorem Ordered.readIntr (h : Ordered b q) (he : b.readIntr m = some b') :
    ∃ q', Ordered b' q' := by
  unfold Queues.readIntr at he
  split at he
  · cases he
  · rename_i k hcur
    dsimp only at he
    split_ifs at he with hn
    · cases he
      have hk : k ∈ q m := List.mem_of_mem_head? ((h.linked m).head.trans hcur)
      have hhalf := h.half m k hk
      have hn2 : (b.request k).nrSectors = 2 := by
        simp only [Queues.setRequest, Function.update_self] at hn
        omega
      exact ⟨q, h.advance hk (fun _ => rfl) (fun _ => rfl) (fun _ => rfl) (by dsimp only; omega)⟩
    · obtain ⟨l, -, hO⟩ := h.ended hcur he (fun _ => rfl) (fun _ => rfl)
      exact ⟨_, hO⟩

theorem Ordered.writeIntr (h : Ordered b q) (he : b.writeIntr m = some b') :
    ∃ q', Ordered b' q' := by
  unfold Queues.writeIntr at he
  split at he
  · cases he
  · rename_i k hcur
    dsimp only at he
    split_ifs at he with hn
    · cases he
      have hk : k ∈ q m := List.mem_of_mem_head? ((h.linked m).head.trans hcur)
      have hhalf := h.half m k hk
      have hn2 : (b.request k).nrSectors = 2 := by
        simp only [Queues.setRequest, Function.update_self] at hn
        omega
      rw [setRequest_setRequest]
      exact ⟨q, h.advance hk (fun _ => rfl) (fun _ => rfl) (fun _ => rfl)
        (by dsimp only [Function.comp]; omega)⟩
    · obtain ⟨l, -, hO⟩ := h.ended hcur he (fun _ => rfl) (fun _ => rfl)
      exact ⟨_, hO⟩

theorem Ordered.follow {e : QueueEvent} (h : Ordered b q) (hd : Distinct b e)
    (he : b.follow e = some b') : ∃ q', Ordered b' q' := by
  cases e with
  | add m write i k =>
    simp only [Queues.follow] at he
    split_ifs at he with hk
    cases he
    exact ⟨_, h.add hk hd⟩
  | endRequest m uptodate =>
    have he' : b.endRequest m uptodate = some b' := he
    cases hcur : b.current m with
    | none =>
      simp only [Queues.endRequest, hcur] at he'
      cases he'
    | some k =>
      have hself : b.setRequest k id = b := by simp [Queues.setRequest]
      rw [← hself] at he'
      obtain ⟨l, -, hO⟩ := h.ended hcur he' (fun _ => rfl) (fun _ => rfl)
      exact ⟨_, hO⟩
  | readIntr m => exact h.readIntr he
  | writeIntr m => exact h.writeIntr he
  | other buf =>
    cases he
    exact ⟨q, ⟨⟨h.linked, h.used, h.apart⟩, h.runs, h.starts, h.half⟩⟩

theorem ordered (h : (queueSystem.restrict Distinct).Reachable b) : ∃ q, Ordered b q := by
  refine h.invariant (I := fun b => ∃ q, Ordered b q) ?_ fun b e b' _ hI hs => ?_
  · rintro _ ⟨driver, buf, rfl⟩
    exact ⟨fun _ => [], ⟨⟨fun _ => rfl, by simp, by simp⟩, fun _ => ⟨[], [], rfl, .nil, .nil⟩,
      by simp, by simp⟩⟩
  · obtain ⟨q, hO⟩ := hI
    exact hO.follow hs.1 hs.2

/-- Every queue is at most two runs, each strictly increasing under `IN_ORDER`. `add_request` puts
    the request behind part of its queue, whose first request stays in front and whose requests
    stay in their order, and leaves the other queues. -/
theorem elevator_order (h : (queueSystem.restrict Distinct).Reachable b) :
    ∃ q : ℕ → List Slot, (∀ m, IsLinked b.next (b.current m) (q m) ∧ TwoRuns b.Before (q m)) ∧
      ∀ m write i k b', b.follow (.add m write i k) = some b' →
        (∃ s t, q m = s ++ t ∧ (q m ≠ [] → s ≠ []) ∧
          IsLinked b'.next (b'.current m) (s ++ k :: t)) ∧
        ∀ m', m' ≠ m → IsLinked b'.next (b'.current m') (q m') := by
  obtain ⟨q, hO⟩ := ordered h
  refine ⟨q, fun m => ⟨hO.linked m, hO.runs m⟩, fun m write i k b' he => ?_⟩
  simp only [Queues.follow] at he
  split_ifs at he with hk
  cases he
  have hQ := (hO.toQueued.add hk m write i).1
  refine ⟨?_, fun m' hm => ?_⟩
  · obtain ⟨s, t, hs, ht, hne⟩ := elevate_split (r := (b.fill k write i).Before) k (q m)
    refine ⟨s, t, hs, hne, ?_⟩
    have hm := hQ.linked m
    rwa [Function.update_self, ht] at hm
  · have hm' := hQ.linked m'
    rwa [Function.update_of_ne hm] at hm'

/-- Block 5 of the first partition is queued for reading. -/
def served : Queues :=
  ((Queues.init (fun _ => true) fun i => ⟨769, 5 - 3 * i, false, false, 1, true, fun _ => 0⟩).fill
    31 false 0).addRequest 3 31

theorem served_reachable : (queueSystem.restrict Distinct).Reachable served := by
  have h0 : (queueSystem.restrict Distinct).Reachable (Queues.init (fun _ => true) fun i =>
      ⟨769, 5 - 3 * i, false, false, 1, true, fun _ => 0⟩) := .init ⟨_, _, rfl⟩
  refine h0.step (e := .add 3 false 0 31) ⟨fun l hl a ha => ?_, rfl⟩
  have hnil : l = [] := hl.unique rfl
  rw [hnil] at ha
  cases ha

/-- Block 2 goes behind block 5, which is being served. -/
theorem elevator_order_behind_head :
    ∃ s t, IsLinked ((served.fill 30 false 1).addRequest 3 30).next
      (((served.fill 30 false 1).addRequest 3 30).current 3) (s ++ 30 :: t) ∧ s ≠ [] := by
  obtain ⟨q, hq, hadd⟩ := elevator_order served_reachable
  obtain ⟨⟨s, t, -, hne, hl⟩, -⟩ := hadd 3 false 1 30 _ rfl
  refine ⟨s, t, hl, hne fun hnil => ?_⟩
  have h3 := (hq 3).1
  rw [hnil] at h3
  have hcur : served.current 3 = some 31 := rfl
  cases hcur.symm.trans h3

end Linux011.Blk
