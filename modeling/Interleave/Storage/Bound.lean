import Interleave.Bytes

/-!
Ends of a range of byte strings. Main statements say which strings each kind of end admits.
-/

namespace Interleave.Storage

inductive Bound where
  | unbounded
  | included (key : Bytes)
  | excluded (key : Bytes)
deriving DecidableEq

namespace Bound

/-- Whether a key lies above this bound, taken as a lower end. -/
def below : Bound → Bytes → Bool
  | unbounded, _ => true
  | included b, k => (Bytes.order b k).isLE
  | excluded b, k => (Bytes.order b k).isLT

/-- Whether a key lies below this bound, taken as an upper end. -/
def above : Bound → Bytes → Bool
  | unbounded, _ => true
  | included b, k => (Bytes.order k b).isLE
  | excluded b, k => (Bytes.order k b).isLT

/-- Whether the two ends are known to leave no room. An unbounded end leaves room. -/
def disjoint : Bound → Bound → Bool
  | included low, included high => (Bytes.order low high).isGT
  | included low, excluded high => (Bytes.order low high).isGE
  | excluded low, included high => (Bytes.order low high).isGE
  | excluded low, excluded high => (Bytes.order low high).isGE
  | _, _ => false

/-- The upper end of everything that goes on from a byte string. -/
def pastExtensions (p : Bytes) : Bound :=
  match p.successor? with
  | some next => excluded next
  | none => unbounded

theorem below_included {b k : Bytes} : (included b).below k = true ↔ ¬k < b := by
  rw [← Bytes.order_eq_gt_iff, below]
  cases Bytes.order b k <;> simp

theorem below_excluded {b k : Bytes} : (excluded b).below k = true ↔ b < k := by
  rw [← Bytes.order_eq_lt_iff, below]
  cases Bytes.order b k <;> simp

theorem above_included {b k : Bytes} : (included b).above k = true ↔ ¬b < k := by
  rw [← Bytes.order_eq_gt_iff, above]
  cases Bytes.order k b <;> simp

theorem above_excluded {b k : Bytes} : (excluded b).above k = true ↔ k < b := by
  rw [← Bytes.order_eq_lt_iff, above]
  cases Bytes.order k b <;> simp

end Bound

end Interleave.Storage
