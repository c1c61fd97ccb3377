import Mathlib.Data.List.Infix

/-!
# Runs of a deterministic step function

A component is a function from a state and a request to a reply and the next state.
A condition on the request and on the state it finds may be required of every step of a
run. The rules below lift a fact about one step to whole runs: an invariant that
every admissible step keeps, and a simulation of one component by another.

A program that issues a list of operations may be stopped after any of them. A fact holds along
the list when it holds after every initial part.
-/

namespace Ps2sdk.Lib

open List

section Replies

variable {S T I O : Type*}

/-- Serve the requests in order, collecting the replies and the last state. -/
def run (step : S → I → O × S) : S → List I → List O × S
  | s, [] => ([], s)
  | s, i :: rest =>
    let tail := run step (step s i).2 rest
    ((step s i).1 :: tail.1, tail.2)

/-- Every request of the run meets the condition in the state it finds. -/
def AllMeet (step : S → I → O × S) (cond : S → I → Prop) : S → List I → Prop
  | _, [] => True
  | s, i :: rest => cond s i ∧ AllMeet step cond (step s i).2 rest

/-- A decidable condition can be tested along a concrete run. -/
instance AllMeet.decidable (step : S → I → O × S) (cond : S → I → Prop)
    [∀ s i, Decidable (cond s i)] : (s : S) → (is : List I) → Decidable (AllMeet step cond s is)
  | _, [] => inferInstanceAs (Decidable True)
  | s, i :: rest =>
    have := AllMeet.decidable step cond (step s i).2 rest
    inferInstanceAs (Decidable (cond s i ∧ AllMeet step cond (step s i).2 rest))

/-- A run that goes on after another one. -/
theorem allMeet_append {step : S → I → O × S} {cond : S → I → Prop} {s : S} {first second : List I} :
    AllMeet step cond s (first ++ second) ↔
      AllMeet step cond s first ∧ AllMeet step cond (run step s first).2 second := by
  induction first generalizing s with
  | nil => simp [AllMeet, run]
  | cons i rest ih => rw [cons_append, AllMeet, AllMeet, ih, run, and_assoc]

/-- Two conditions that agree wherever an invariant holds agree along runs. -/
theorem allMeet_congr {step : S → I → O × S} {cond cond' : S → I → Prop} {inv : S → Prop} {sort : I → Prop}
    (hkeep : ∀ s i, inv s → sort i → inv (step s i).2) (hiff : ∀ s i, inv s → sort i → (cond s i ↔ cond' s i))
    (requests : List I) (s : S) (hs : inv s) (hsort : ∀ i ∈ requests, sort i) :
    AllMeet step cond s requests ↔ AllMeet step cond' s requests := by
  induction requests generalizing s with
  | nil => exact Iff.rfl
  | cons i rest ih =>
    have hi := hsort i mem_cons_self
    exact and_congr (hiff s i hs hi) (ih _ (hkeep s i hs hi) fun j hj => hsort j (mem_cons_of_mem _ hj))

variable (step : S → I → O × S)

include step

variable (cond : S → I → Prop)

/-- An invariant kept by every admissible step holds at the end of every admissible run. -/
theorem run_invariant (inv : S → Prop)
    (hstep : ∀ s i, inv s → cond s i → inv (step s i).2) (requests : List I) (s : S)
    (hs : inv s) (hmeet : AllMeet step cond s requests) : inv (run step s requests).2 := by
  induction requests generalizing s with
  | nil => exact hs
  | cons i rest ih => exact ih _ (hstep s i hs hmeet.1) hmeet.2

/-- Where a step breaks a fact exactly when its request does not meet the condition, the fact holds
all along a run exactly when every request of the run meets the condition. -/
theorem run_prefixes_iff (inv fact : S → Prop)
    (hfact : ∀ s, inv s → fact s) (hstep : ∀ s i, inv s → cond s i → inv (step s i).2)
    (hbreak : ∀ s i, inv s → ¬ cond s i → ¬ fact (step s i).2) (requests : List I) (s : S) (hs : inv s) :
    (∀ served, served <+: requests → fact (run step s served).2) ↔ AllMeet step cond s requests := by
  induction requests generalizing s with
  | nil =>
    refine ⟨fun _ => trivial, fun _ served hserved => ?_⟩
    rw [prefix_nil.mp hserved]
    exact hfact s hs
  | cons i rest ih =>
    refine ⟨fun hall => ?_, fun hmeet served hserved => ?_⟩
    · have hcond : cond s i := by
        by_contra hnot
        exact hbreak s i hs hnot (hall [i] (by simp))
      refine ⟨hcond, (ih _ (hstep s i hs hcond)).mp fun served hserved => ?_⟩
      exact hall (i :: served) (cons_prefix_cons.mpr ⟨rfl, hserved⟩)
    · cases served with
      | nil => exact hfact s hs
      | cons j served =>
        obtain ⟨rfl, hrest⟩ := cons_prefix_cons.mp hserved
        exact (ih _ (hstep s j hs hmeet.1)).mpr hmeet.2 served hrest

/-- A step-by-step simulation gives equal replies and related states along every run. -/
theorem run_simulation (spec : T → I → O × T) (cond : S → I → Prop) (rel : S → T → Prop)
    (hstep : ∀ s t i, rel s t → cond s i →
      (step s i).1 = (spec t i).1 ∧ rel (step s i).2 (spec t i).2)
    (requests : List I) (s : S) (t : T) (hst : rel s t) (hmeet : AllMeet step cond s requests) :
    (run step s requests).1 = (run spec t requests).1 ∧
      rel (run step s requests).2 (run spec t requests).2 := by
  induction requests generalizing s t with
  | nil => exact ⟨rfl, hst⟩
  | cons i rest ih =>
    obtain ⟨hreply, hnext⟩ := hstep s t i hst hmeet.1
    obtain ⟨htail, hend⟩ := ih _ _ hnext hmeet.2
    refine ⟨?_, hend⟩
    simp only [run, hreply, htail]

end Replies

section Steps

variable {S I : Type*} {step : S → I → S} {P : S → Prop}

/-- The fact holds after every initial part of the operations. -/
def Along (step : S → I → S) (P : S → Prop) (s : S) (ops : List I) : Prop :=
  ∀ done, done <+: ops → P (done.foldl step s)

variable {s : S} {ops : List I}

/-- With no operations left only the present state counts. -/
theorem Along.nil (h : P s) : Along step P s [] := by
  intro done hdone
  rw [prefix_nil.mp hdone]
  exact h

/-- The present state, and along the rest after one operation. -/
theorem Along.cons {i : I} (h : P s) (hrest : Along step P (step s i) ops) : Along step P s (i :: ops) := by
  intro done hdone
  cases done with
  | nil => exact h
  | cons j done =>
    obtain ⟨rfl, htail⟩ := cons_prefix_cons.mp hdone
    exact hrest done htail

/-- Along one list and then, from where it leads, along another. -/
theorem Along.append {first second : List I} (hfirst : Along step P s first)
    (hsecond : Along step P (first.foldl step s) second) : Along step P s (first ++ second) := by
  induction first generalizing s with
  | nil => exact hsecond
  | cons i first ih =>
    refine Along.cons (hfirst [] nil_prefix) (ih ?_ hsecond)
    intro done hdone
    exact hfirst (i :: done) (cons_prefix_cons.mpr ⟨rfl, hdone⟩)

/-- A fact that every operation keeps holds along them. -/
theorem Along.of_kept (hkept : ∀ s, ∀ i ∈ ops, P s → P (step s i)) (h : P s) : Along step P s ops := by
  induction ops generalizing s with
  | nil => exact Along.nil h
  | cons i ops ih =>
    refine Along.cons h (ih (fun s j hj => hkept s j (mem_cons_of_mem _ hj)) ?_)
    exact hkept s i mem_cons_self h

/-- A weaker fact holds along the same operations. -/
theorem Along.imp {Q : S → Prop} (h : Along step P s ops)
    (himp : ∀ s, P s → Q s) : Along step Q s ops := fun done hdone => himp _ (h done hdone)

/-- The fact holds at the end. -/
theorem Along.last (h : Along step P s ops) : P (ops.foldl step s) :=
  h ops prefix_rfl

/-- A program that is stopped after `n` of its operations. -/
def stopped (step : S → I → S) (program : S → List I) (s : S) (n : ℕ) : S :=
  ((program s).take n).foldl step s

end Steps

end Ps2sdk.Lib
