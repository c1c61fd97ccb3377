import Mathlib.Data.List.Range

/-!
# Sequences of runs

A sequence is stored as runs, one after the other; run `i` has `size i` items. `before size n` counts the
items of the first `n` runs, and `concat size item n` lists them. An item has one place in the runs.
-/

namespace Ps2sdk.Lib

open List Nat

variable {α : Type*} {size : ℕ → ℕ} {item : ℕ → ℕ → α}

/-- The number of items in the first runs. -/
def before (size : ℕ → ℕ) : ℕ → ℕ
  | 0 => 0
  | n + 1 => before size n + size n

/-- The items of the first runs. -/
def concat (size : ℕ → ℕ) (item : ℕ → ℕ → α) (n : ℕ) : List α :=
  (List.range n).flatMap fun i => (List.range (size i)).map (item i)

/-- More runs have more items. -/
theorem before_mono {m n : ℕ} (h : m ≤ n) : before size m ≤ before size n := by
  induction n with
  | zero => rw [le_zero.mp h]
  | succ n ih =>
    rcases lt_or_eq_of_le h with hlt | rfl
    · exact le_trans (ih (le_of_lt_succ hlt)) (le_add_right _ _)
    · exact le_refl _

/-- The items before a later run. -/
theorem before_add_size_le (size : ℕ → ℕ) {m n : ℕ} (h : m < n) : before size m + size m ≤ before size n :=
  before_mono (show m + 1 ≤ n from h)

variable {size' : ℕ → ℕ}

/-- The counts depend on the runs before. -/
theorem before_congr {n : ℕ} (h : ∀ i < n, size' i = size i) : before size' n = before size n := by
  induction n with
  | zero => rfl
  | succ n ih => rw [before, before, ih fun i hi => h i (lt_succ_of_lt hi), h n (lt_succ_self n)]

/-- One run has grown. -/
theorem before_add_at {n k more : ℕ} (hk : k < n) (hself : size' k = size k + more)
    (hother : ∀ i < n, i ≠ k → size' i = size i) : before size' n = before size n + more := by
  induction n with
  | zero => exact absurd hk (not_lt_zero k)
  | succ n ih =>
    rw [before, before]
    rcases lt_or_eq_of_le (le_of_lt_succ hk) with hlt | rfl
    · rw [ih hlt fun i hi => hother i (lt_succ_of_lt hi), hother n (lt_succ_self n) (ne_of_gt hlt)]
      omega
    · rw [before_congr fun i hi => hother i (Nat.lt_succ_of_lt hi) (Nat.ne_of_lt hi), hself]
      omega

/-- One more run. -/
theorem concat_succ (n : ℕ) : concat size item (n + 1) = concat size item n ++ (range (size n)).map (item n) := by
  unfold concat
  rw [range_succ, flatMap_append]
  simp

/-- The number of items listed. -/
theorem concat_length (item : ℕ → ℕ → α) (n : ℕ) : (concat size item n).length = before size n := by
  induction n with
  | zero => rfl
  | succ n ih => rw [concat_succ, length_append, ih, length_map, length_range, before]

/-- The list depends on the runs in it. -/
theorem concat_congr {item' : ℕ → ℕ → α} {n : ℕ} (hsize : ∀ i < n, size' i = size i)
    (hitem : ∀ i < n, ∀ off < size i, item' i off = item i off) : concat size' item' n = concat size item n := by
  induction n with
  | zero => rfl
  | succ n ih =>
    rw [concat_succ, concat_succ, ih (fun i hi => hsize i (lt_succ_of_lt hi))
      (fun i hi => hitem i (lt_succ_of_lt hi)), hsize n (lt_succ_self n)]
    refine congrArg _ (map_congr_left fun off hoff => ?_)
    exact hitem n (lt_succ_self n) off (mem_range.mp hoff)

/-- The first items are those of the first runs and of the start of the next. -/
theorem concat_take (item : ℕ → ℕ → α) {n i off : ℕ} (hi : i < n) (hoff : off ≤ size i) :
    (concat size item n).take (before size i + off) = concat size item i ++ (range off).map (item i) := by
  induction n with
  | zero => exact absurd hi (not_lt_zero i)
  | succ n ih =>
    rw [concat_succ]
    rcases lt_or_eq_of_le (le_of_lt_succ hi) with hlt | rfl
    · have hle := before_add_size_le size hlt
      rw [take_append_of_le_length (by rw [concat_length]; omega), ih hlt]
    · rw [← concat_length item, take_length_add_append, ← map_take, take_range,
        min_eq_left hoff]

/-- The item at a place. -/
theorem concat_getElem? {n i off : ℕ} (hi : i < n) (hoff : off < size i) :
    (concat size item n)[before size i + off]? = some (item i off) := by
  have htake := concat_take item hi hoff
  have hlt : before size i + off < before size i + (off + 1) := by omega
  rw [← getElem?_take_of_lt hlt, htake, ← concat_length item,
    getElem?_append_right (Nat.le_add_right _ _), Nat.add_sub_cancel_left]
  simp

end Ps2sdk.Lib
