/-
  Packed records in byte memory: numbers of given widths, one behind the other.
-/
import Linux011.Lib.Bytes

namespace Linux011.Lib.Bytes

/-- The numbers of these widths at `a`. -/
def loadAll (m : Bytes) : List ℕ → ℕ → List ℕ
  | [], _ => []
  | n :: ns, a => m.load n a :: loadAll m ns (a + n)

def storeAll (m : Bytes) : List ℕ → List ℕ → ℕ → Bytes
  | n :: ns, v :: vs, a => (storeAll m ns vs (a + n)).store n a v
  | _, _, _ => m

variable {m m' : Bytes} {ns vs : List ℕ} {a b : ℕ}

theorem loadAll_congr (h : ∀ i < ns.sum, m' (a + i) = m (a + i)) : m'.loadAll ns a = m.loadAll ns a := by
  induction ns generalizing a with
  | nil => rfl
  | cons n ns ih =>
    rw [List.sum_cons] at h
    have hrest : m'.loadAll ns (a + n) = m.loadAll ns (a + n) := ih fun i hi => by
      have := h (n + i) (by omega)
      rwa [← Nat.add_assoc] at this
    rw [loadAll, loadAll, load_congr fun i hi => h i (by omega), hrest]

theorem storeAll_other (h : b < a ∨ a + ns.sum ≤ b) : m.storeAll ns vs a b = m b := by
  induction ns generalizing vs a with
  | nil => rfl
  | cons n ns ih =>
    rw [List.sum_cons] at h
    cases vs with
    | nil => rfl
    | cons v vs =>
      rw [storeAll, store_other (by omega)]
      exact ih (by omega)

theorem loadAll_storeAll (h : List.Forall₂ (fun n v => v < 256 ^ n) ns vs) : (m.storeAll ns vs a).loadAll ns a = vs := by
  induction h generalizing a with
  | nil => rfl
  | @cons n v ns vs hv _ ih =>
    have hrest : (m.storeAll (n :: ns) (v :: vs) a).loadAll ns (a + n) = (m.storeAll ns vs (a + n)).loadAll ns (a + n) :=
      loadAll_congr fun i _ => store_other (by omega)
    rw [loadAll, hrest, ih, storeAll, load_store_of_lt hv]

/-- Records that do not meet. -/
theorem loadAll_storeAll_other {ks : List ℕ} (h : b + ks.sum ≤ a ∨ a + ns.sum ≤ b) :
    (m.storeAll ns vs a).loadAll ks b = m.loadAll ks b :=
  loadAll_congr fun _ _ => storeAll_other (by omega)

end Linux011.Lib.Bytes
