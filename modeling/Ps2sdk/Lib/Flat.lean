import Mathlib.Logic.Function.Basic
import Mathlib.Data.Nat.Basic

/-!
# Sectors read as one row of cells

A store is a family of sectors, each a row of cells. From a given sector on, its cells form
one row, cut every `size` cells; a record of the row may lie in one sector or straddle two.
Setting one cell of a sector sets one cell of the row.
-/

namespace Ps2sdk

open Function Nat

variable {B : Type*} {mem : ℕ → ℕ → B} {size base sector : ℕ}

/-- Cell `k` of the row that starts at the sector `base`. -/
def flat (mem : ℕ → ℕ → B) (size base k : ℕ) : B :=
  mem (base + k / size) (k % size)

/-- Set one cell of one sector. -/
def poke (mem : ℕ → ℕ → B) (sector offset : ℕ) (b : B) : ℕ → ℕ → B :=
  Function.update mem sector (Function.update (mem sector) offset b)

/-- The set cell holds its new value. -/
@[simp]
theorem poke_same (mem : ℕ → ℕ → B) (sector offset : ℕ) (b : B) :
    poke mem sector offset b sector = update (mem sector) offset b := by
  simp [poke]

/-- The other sectors keep their cells. -/
theorem poke_of_ne {s : ℕ} (hs : s ≠ sector) (offset : ℕ) (b : B) : poke mem sector offset b s = mem s :=
  update_of_ne hs _ _

/-- Setting the cell at position `k` of the row changes that position only. -/
theorem flat_poke (mem : ℕ → ℕ → B) (size base k : ℕ) (b : B) :
    flat (poke mem (base + k / size) (k % size) b) size base =
      update (flat mem size base) k b := by
  funext j
  by_cases hjk : j = k
  · subst hjk
    simp [flat]
  · rw [update_of_ne hjk]
    by_cases hdiv : j / size = k / size
    · have hmod : j % size ≠ k % size := fun hmod => hjk (ext_div_mod hdiv hmod)
      simp [flat, hdiv, update_of_ne hmod]
    · have hne : base + j / size ≠ base + k / size := by omega
      simp only [flat, poke_of_ne hne]

/-- A position below `count * size` lies in one of the first `count` sectors. -/
theorem div_lt_of_lt_mul {k count : ℕ} (h : k < count * size) : k / size < count :=
  Nat.div_lt_of_lt_mul (by rwa [Nat.mul_comm] at h)

/-- The cell after one that is not the last of its sector. -/
theorem flat_succ_within {k : ℕ} (hsize : 0 < size) (hk : k % size ≠ size - 1) :
    flat mem size base (k + 1) = mem (base + k / size) (k % size + 1) := by
  have hlt := mod_lt k hsize
  have hsum := mod_add_div k size
  obtain ⟨hdiv, hmod⟩ : (k + 1) / size = k / size ∧ (k + 1) % size = k % size + 1 :=
    (Nat.div_mod_unique hsize).2 ⟨by omega, by omega⟩
  rw [flat, hdiv, hmod]

/-- The position after the last one of a sector is the first of the next sector. -/
theorem split_across {k : ℕ} (hsize : 0 < size) (hk : k % size = size - 1) :
    (k + 1) / size = k / size + 1 ∧ (k + 1) % size = 0 := by
  have hsum := Nat.mod_add_div k size
  exact (Nat.div_mod_unique hsize).2 ⟨by rw [Nat.mul_add, Nat.mul_one]; omega, hsize⟩

/-- The cell after the last one of a sector is the first of the next sector. -/
theorem flat_succ_across {k : ℕ} (hsize : 0 < size) (hk : k % size = size - 1) :
    flat mem size base (k + 1) = mem (base + k / size + 1) 0 := by
  obtain ⟨hdiv, hmod⟩ := split_across hsize hk
  rw [flat, hdiv, hmod, Nat.add_assoc]

/-- The cells of a record that lies in one sector. -/
theorem flat_add {o k w : ℕ} (hfit : o % size + w ≤ size) (hk : k < w) :
    (o + k) / size = o / size ∧ (o + k) % size = o % size + k := by
  have hsum := Nat.mod_add_div o size
  exact (Nat.div_mod_unique (by omega)).2 ⟨by omega, by omega⟩

/-- An edit of the `w` cells at an offset, given by those cells alone. -/
structure LocalEdit (w : ℕ) (edit : (ℕ → B) → ℕ → ℕ → B) : Prop where
  inside : ∀ row row' o o', (∀ k < w, row (o + k) = row' (o' + k)) →
    ∀ k < w, edit row o (o + k) = edit row' o' (o' + k)
  outside : ∀ row o j, (j < o ∨ o + w ≤ j) → edit row o j = row j

/-- Rows that agree on their first `n` cells agree there after an edit inside them. -/
theorem LocalEdit.congr {w o n : ℕ} {edit : (ℕ → B) → ℕ → ℕ → B} (h : LocalEdit w edit)
    (hin : o + w ≤ n) {row row' : ℕ → B} (hrow : ∀ k < n, row k = row' k) :
    ∀ k < n, edit row o k = edit row' o k := by
  intro j hj
  by_cases hjo : o ≤ j ∧ j < o + w
  · obtain ⟨k, rfl⟩ := Nat.exists_eq_add_of_le hjo.1
    exact h.inside _ _ _ _ (fun i hi => hrow _ (by omega)) k (by omega)
  · rw [h.outside _ _ _ (by omega), h.outside _ _ _ (by omega), hrow j hj]

/-- A record of one sector is edited in the row as it is in its sector. -/
theorem LocalEdit.flat {w o : ℕ} {edit : (ℕ → B) → ℕ → ℕ → B} (h : LocalEdit w edit) (hfit : o % size + w ≤ size) :
    flat (update mem (base + o / size) (edit (mem (base + o / size)) (o % size))) size base =
      edit (flat mem size base) o := by
  funext j
  by_cases hj : o ≤ j ∧ j < o + w
  · obtain ⟨k, rfl⟩ := Nat.exists_eq_add_of_le hj.1
    obtain ⟨hdiv, hmod⟩ := flat_add hfit (k := k) (by omega)
    rw [Ps2sdk.flat, hdiv, hmod, update_self]
    refine h.inside _ _ _ _ (fun i hi => ?_) k (by omega)
    obtain ⟨hdiv, hmod⟩ := flat_add hfit hi
    rw [Ps2sdk.flat, hdiv, hmod]
  · rw [h.outside _ _ _ (by omega)]
    by_cases hdiv : j / size = o / size
    · have hjsum := mod_add_div j size
      have hosum := mod_add_div o size
      rw [hdiv] at hjsum
      rw [Ps2sdk.flat, hdiv, update_self, h.outside _ _ _ (by omega), Ps2sdk.flat, hdiv]
    · rw [Ps2sdk.flat, update_of_ne (by omega), Ps2sdk.flat]

end Ps2sdk
