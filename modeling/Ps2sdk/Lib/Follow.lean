import Mathlib.Data.List.Basic

/-!
# Following links

The cells reached from a start by following at most `n` links, the start left out. A link
may be missing, and then the walk ends. A chain is a walk to its end: the start is linked to
the list of all cells behind it, the last of which has no link.
-/

namespace Ps2sdk

variable {α : Type*} {next : α → Option α}

/-- The cells behind `a`, at most `n` of them. -/
def follow (next : α → Option α) : ℕ → α → List α
  | 0, _ => []
  | n + 1, a =>
    match next a with
    | none => []
    | some b => b :: follow next n b

@[simp]
theorem follow_zero (next : α → Option α) (a : α) : follow next 0 a = [] := rfl

theorem follow_none {a : α} (h : next a = none) (n : ℕ) : follow next n a = [] := by
  cases n with
  | zero => rfl
  | succ n => simp [follow, h]

theorem follow_some {a b : α} (h : next a = some b) (n : ℕ) : follow next (n + 1) a = b :: follow next n b := by
  simp [follow, h]

/-- From `a` the links lead through `l` and end with its last cell. -/
def Linked (next : α → Option α) : α → List α → Prop
  | a, [] => next a = none
  | a, b :: l => next a = some b ∧ Linked next b l

/-- The last cell of a chain has no link. -/
theorem Linked.last {a : α} {l : List α} (h : Linked next a l) :
    next ((a :: l).getLast (List.cons_ne_nil a l)) = none := by
  induction l generalizing a with
  | nil => exact h
  | cons b l ih => simpa using ih h.2

end Ps2sdk
