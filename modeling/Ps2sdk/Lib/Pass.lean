import Mathlib.Data.List.FinRange

/-!
# Passes over the slots of a table

A loop that visits each slot once, replaces what the slot holds and does something with it: the table after the loop
is the first table with every slot replaced, and what was done is what the slots of the first table ask for.
-/

namespace Ps2sdk.Lib

open List Function

variable {S R I B : Type*} [DecidableEq I] {f : S → I → S} {m : (I → B) → R → S} {g : B → B} {a : R → I → B → R}

/-- A pass over some of the slots. -/
theorem foldl_pass (hf : ∀ table rest i, f (m table rest) i =
      m (update table i (g (table i))) (a rest i (table i)))
    {slots : List I} (hnodup : slots.Nodup) (table : I → B) (rest : R) :
    slots.foldl f (m table rest) = m (fun i => if i ∈ slots then g (table i) else table i)
      (slots.foldl (fun rest i => a rest i (table i)) rest) := by
  induction slots generalizing table rest with
  | nil => simp
  | cons i slots ih =>
    obtain ⟨hi, hslots⟩ := nodup_cons.mp hnodup
    rw [foldl_cons, foldl_cons, hf, ih hslots]
    congr 1
    · funext j
      by_cases hji : j = i
      · subst hji
        simp [hi]
      · simp [hji]
    · refine foldl_ext _ _ _ fun rest j hj => ?_
      have hji : j ≠ i := fun heq => hi (heq ▸ hj)
      rw [update_of_ne hji]

/-- A pass over all slots. -/
theorem foldl_finRange {n : ℕ} {f : S → Fin n → S} {m : (Fin n → B) → R → S} {a : R → Fin n → B → R}
    (hf : ∀ table rest i, f (m table rest) i = m (update table i (g (table i))) (a rest i (table i)))
    (table : Fin n → B) (rest : R) : (finRange n).foldl f (m table rest) =
      m (fun i => g (table i)) ((finRange n).foldl (fun rest i => a rest i (table i)) rest) := by
  rw [foldl_pass hf (nodup_finRange n)]
  simp

end Ps2sdk.Lib
