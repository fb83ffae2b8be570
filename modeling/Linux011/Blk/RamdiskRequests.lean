/-
  `do_rd_request` of kernel/blk_drv/ramdisk.c. `rd_store` says that the RAM disk keeps its blocks over
  any run of requests and other code, `rd_overruns` what the sum of pointers does for blocks behind the
  end of the addresses. The queue is a list here, as `Queued` gives it; `Blk.Queues` has how it is made.
  The panics of INIT_REQUEST are left out.
-/
import Linux011.Lib.Steps
import Linux011.Lib.Trans
import Mathlib.Data.List.Basic

namespace Linux011.Blk.RdRequest

open Linux011.Lib

/-- What the driver uses of `struct request`; `bh` is the number of the buffer. -/
structure Req where
  minor : ℕ
  write : Bool
  sector : ℕ
  nrSectors : ℕ
  buffer : ℕ
  bh : ℕ

/-- Memory, and the ended requests with `b_uptodate`. -/
structure Ram where
  mem : ℕ → UInt8
  ended : List (ℕ × Bool)

section driver

variable (start length : ℕ)

/-- `rd_start + (CURRENT->sector << 9)` -/
def addr (r : Req) : ℕ := (start + r.sector * 512) % 4294967296

def len (r : Req) : ℕ := r.nrSectors * 512 % 4294967296

/-- Another minor, or behind the end. -/
def Refused (r : Req) : Prop := r.minor ≠ 1 ∨ (start + length) % 4294967296 < (addr start r + len r) % 4294967296

instance (r : Req) : Decidable (Refused start length r) := inferInstanceAs (Decidable (_ ∨ _))

/-- One round, up to `goto repeat`. -/
def serve (r : Req) (s : Ram) : Ram :=
  if Refused start length r then { s with ended := s.ended ++ [(r.bh, false)] }
  else
    { mem := if r.write then moved s.mem r.buffer (addr start r) (len r) else moved s.mem (addr start r) r.buffer (len r)
      ended := s.ended ++ [(r.bh, true)] }

def doRdRequest : List Req → Ram → Ram
  | [], s => s
  | r :: rest, s => doRdRequest rest (serve start length r s)

/-! ## The disk as blocks -/

/-- A request of `make_request` for block `b`, away from the end of the addresses, and its buffer. -/
structure Fits (r : Req) (b : ℕ) : Prop where
  sector : r.sector = 2 * b
  nrSectors : r.nrSectors = 2
  room : start + 1024 * (b + 1) < 4294967296
  buffer : r.buffer + 1024 ≤ start ∨ start + length ≤ r.buffer

/-- Block `b` is on the disk. -/
def Inside (b : ℕ) : Prop := 1024 * (b + 1) ≤ length

instance (b : ℕ) : Decidable (Inside length b) := inferInstanceAs (Decidable (_ ≤ _))

/-- The blocks, after a request that finds `mem`. -/
def put (mem : ℕ → UInt8) (r : Req) (store : ℕ → ℕ → UInt8) : ℕ → ℕ → UInt8 :=
  if r.write ∧ r.minor = 1 ∧ Inside length (r.sector / 2) then Function.update store (r.sector / 2) fun k => mem (r.buffer + k)
  else store

def puts : List Req → Ram → (ℕ → ℕ → UInt8) → ℕ → ℕ → UInt8
  | [], _, store => store
  | r :: rest, s, store => puts rest (serve start length r s) (put length s.mem r store)

def Shows (mem : ℕ → UInt8) (store : ℕ → ℕ → UInt8) : Prop :=
  ∀ b, Inside length b → ∀ k < 1024, mem (start + 1024 * b + k) = store b k

inductive Event
  | requests (queue : List Req)
  /-- other code, which leaves the disk alone -/
  | other (mem : ℕ → UInt8)

/-- The disk, with the blocks last written; `rd_init` begins with zeros. -/
def rdSystem : Lts (Ram × (ℕ → ℕ → UInt8)) Event where
  init s := (∀ i < length, s.1.mem (start + i) = 0) ∧ s.2 = fun _ _ => 0
  step s e s' := match e with
    | .requests queue => (∀ r ∈ queue, ∃ b, Fits start length r b) ∧
        s' = (doRdRequest start length queue s.1, puts start length queue s.1 s.2)
    | .other mem => (∀ i < length, mem (start + i) = s.1.mem (start + i)) ∧ s' = ({ s.1 with mem := mem }, s.2)

end driver

variable {start length b k : ℕ} {r : Req} {s : Ram} {store : ℕ → ℕ → UInt8} {queue : List Req}

theorem ended_serve : (serve start length r s).ended = s.ended ++ [(r.bh, decide (¬ Refused start length r))] := by
  unfold serve
  by_cases h : Refused start length r <;> simp [h]

/-- Every request is ended, once and in the order of the queue. -/
theorem ended_doRdRequest : (doRdRequest start length queue s).ended =
    s.ended ++ queue.map fun r => (r.bh, decide (¬ Refused start length r)) := by
  induction queue generalizing s with
  | nil => simp [doRdRequest]
  | cons r rest ih => simp [doRdRequest, ih, ended_serve]

theorem Fits.addr_eq (hf : Fits start length r b) : addr start r = start + 1024 * b := by
  have hroom := hf.room
  unfold addr
  rw [hf.sector]
  omega

theorem Fits.len_eq (hf : Fits start length r b) : len r = 1024 := by
  unfold len
  rw [hf.nrSectors]

theorem Fits.block_eq (hf : Fits start length r b) : r.sector / 2 = b := by
  rw [hf.sector]
  omega

theorem Fits.refused_iff (hf : Fits start length r b) (hd : start + length < 4294967296) :
    Refused start length r ↔ ¬ (r.minor = 1 ∧ Inside length b) := by
  have hroom := hf.room
  unfold Refused Inside
  rw [hf.addr_eq, hf.len_eq]
  omega

theorem Inside.lt (hb : Inside length b) (hk : k < 1024) : 1024 * b + k < length := by
  unfold Inside at hb
  omega

/-- A block of the disk does not meet the buffer. -/
theorem Fits.apart (hf : Fits start length r b) {c : ℕ} (hc : Inside length c) (hk : k < 1024) :
    start + 1024 * c + k < r.buffer ∨ r.buffer + 1024 ≤ start + 1024 * c + k := by
  have hbuf := hf.buffer
  have hlt := hc.lt hk
  omega

theorem serve_of_served (hf : Fits start length r b) (hd : start + length < 4294967296) (hm : r.minor = 1)
    (hb : Inside length b) : (serve start length r s).mem =
      if r.write then moved s.mem r.buffer (start + 1024 * b) 1024 else moved s.mem (start + 1024 * b) r.buffer 1024 := by
  have hr : ¬ Refused start length r := fun h => (hf.refused_iff hd).mp h ⟨hm, hb⟩
  rw [serve, if_neg hr, hf.addr_eq, hf.len_eq]

theorem Shows.serve (hs : Shows start length s.mem store) (hf : Fits start length r b) (hd : start + length < 4294967296) :
    Shows start length (serve start length r s).mem (put length s.mem r store) := by
  intro c hc k hk
  have hblock := hf.block_eq
  by_cases hserved : r.minor = 1 ∧ Inside length b
  · obtain ⟨hm, hb⟩ := hserved
    rw [serve_of_served hf hd hm hb]
    unfold put
    rw [hblock]
    cases hw : r.write with
    | true =>
      rw [if_pos rfl, if_pos ⟨rfl, hm, hb⟩]
      by_cases hcb : c = b
      · rw [hcb, moved_inside hk, Function.update_self, Nat.add_comm]
      · rw [moved_outside (by omega), Function.update_of_ne hcb]
        exact hs c hc k hk
    | false =>
      rw [if_neg Bool.false_ne_true, if_neg fun h => Bool.false_ne_true h.1, moved_outside (hf.apart hc hk)]
      exact hs c hc k hk
  · have hr : Refused start length r := (hf.refused_iff hd).mpr hserved
    have hmem : (RdRequest.serve start length r s).mem = s.mem := by rw [RdRequest.serve, if_pos hr]
    have hput : put length s.mem r store = store := by
      unfold put
      rw [hblock]
      exact if_neg fun h => hserved h.2
    rw [hmem, hput]
    exact hs c hc k hk

theorem Shows.doRdRequest (hs : Shows start length s.mem store) (hf : ∀ r ∈ queue, ∃ b, Fits start length r b)
    (hd : start + length < 4294967296) :
    Shows start length (doRdRequest start length queue s).mem (puts start length queue s store) := by
  induction queue generalizing s store with
  | nil => exact hs
  | cons r rest ih =>
    obtain ⟨b, hb⟩ := hf r List.mem_cons_self
    exact ih (hs.serve hb hd) fun q hq => hf q (List.mem_cons_of_mem r hq)

/-! ## Whole runs -/

theorem reachable_shows {σ : Ram × (ℕ → ℕ → UInt8)} (hr : (rdSystem start length).Reachable σ)
    (hd : start + length < 4294967296) : Shows start length σ.1.mem σ.2 := by
  refine Lts.Reachable.invariant (I := fun σ : Ram × (ℕ → ℕ → UInt8) => Shows start length σ.1.mem σ.2) hr
    (fun s hinit => ?_) fun s e s' _ hs hstep => ?_
  · intro b hb k hk
    rw [hinit.2, Nat.add_assoc, hinit.1 _ (hb.lt hk)]
  · cases e with
    | requests queue =>
      obtain ⟨hf, rfl⟩ := hstep
      exact hs.doRdRequest hf hd
    | other mem =>
      obtain ⟨hsame, rfl⟩ := hstep
      intro b hb k hk
      rw [← hs b hb k hk, Nat.add_assoc]
      exact hsame _ (hb.lt hk)

/-- A request changes nothing outside of the disk and its buffer. -/
theorem mem_serve_other (hf : Fits start length r b) (hd : start + length < 4294967296) {a : ℕ}
    (ha : a < start ∨ start + length ≤ a) (hbuf : a < r.buffer ∨ r.buffer + 1024 ≤ a) :
    (serve start length r s).mem a = s.mem a := by
  by_cases hserved : r.minor = 1 ∧ Inside length b
  · obtain ⟨hm, hb⟩ := hserved
    rw [serve_of_served hf hd hm hb]
    unfold Inside at hb
    cases r.write with
    | true =>
      rw [if_pos rfl]
      exact moved_outside (by omega)
    | false =>
      rw [if_neg Bool.false_ne_true]
      exact moved_outside hbuf
  · rw [serve, if_pos ((hf.refused_iff hd).mpr hserved)]

theorem rd_store {σ : Ram × (ℕ → ℕ → UInt8)} (hr : (rdSystem start length).Reachable σ) (hd : start + length < 4294967296)
    (hf : Fits start length r b) :
    (serve start length r σ.1).ended = σ.1.ended ++ [(r.bh, decide (r.minor = 1 ∧ Inside length b))] ∧
    (r.write = false → r.minor = 1 → Inside length b →
      ∀ k < 1024, (serve start length r σ.1).mem (r.buffer + k) = σ.2 b k) ∧
    ∀ a, (a < start ∨ start + length ≤ a) → (a < r.buffer ∨ r.buffer + 1024 ≤ a) →
      (serve start length r σ.1).mem a = σ.1.mem a := by
  refine ⟨?_, fun hread hm hb k hk => ?_, fun a ha hbuf => mem_serve_other hf hd ha hbuf⟩
  · rw [ended_serve]
    simp [hf.refused_iff hd]
  · rw [serve_of_served hf hd hm hb, hread, if_neg Bool.false_ne_true, moved_inside hk, Nat.add_comm]
    exact reachable_shows hr hd b hb k hk

/-- A RAM disk of one block at 4096, and a read of it into 0. -/
theorem rd_store_zero : let s := serve 4096 1024 ⟨1, false, 0, 2, 0, 7⟩ ⟨fun _ => 0, []⟩
    s.ended = [(7, true)] ∧ ∀ k < 1024, s.mem (0 + k) = 0 := by
  have hr : (rdSystem 4096 1024).Reachable (⟨fun _ => 0, []⟩, fun _ _ => 0) := .init ⟨fun _ _ => rfl, rfl⟩
  have hf : Fits 4096 1024 ⟨1, false, 0, 2, 0, 7⟩ 0 := ⟨rfl, rfl, by decide, .inl (by decide)⟩
  obtain ⟨hended, hread, _⟩ := rd_store hr (by decide) hf
  exact ⟨hended, hread rfl rfl (by decide)⟩

/-- For blocks that would lie behind the end of the addresses the sum wraps, and the test passes: memory
    below the disk is written. -/
theorem rd_overruns {a : ℕ} (hsector : r.sector = 2 * b) (hnr : r.nrSectors = 2) (hm : r.minor = 1) (hw : r.write = true)
    (ha : start + 1024 * b = 4294967296 + a) (hlast : 1024 * b < 4294967296) (hd : start + length < 4294967296) :
    a + 1024 ≤ start ∧ ∀ k < 1024, (serve start length r s).mem (a + k) = s.mem (k + r.buffer) := by
  have haddr : addr start r = a := by
    unfold addr
    rw [hsector]
    omega
  have hlen : len r = 1024 := by
    unfold len
    rw [hnr]
  have hr : ¬ Refused start length r := by
    unfold Refused
    rw [haddr, hlen]
    omega
  refine ⟨by omega, fun k hk => ?_⟩
  rw [serve, if_neg hr, hw, if_pos rfl, haddr, hlen]
  exact moved_inside hk

theorem rd_overruns_last : 3072 + 1024 ≤ 4096 ∧
    ∀ k < 1024, (serve 4096 1024 ⟨1, true, 8388606, 2, 8192, 7⟩ ⟨fun _ => 0, []⟩).mem (3072 + k) = 0 :=
  rd_overruns (b := 4194303) (by decide) rfl rfl rfl (by decide) (by decide) (by decide)

end Linux011.Blk.RdRequest
