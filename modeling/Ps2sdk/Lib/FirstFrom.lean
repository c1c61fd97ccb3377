import Mathlib.Data.List.Range
import Mathlib.Data.List.Sort

/-!
# The first numbers with a property

The first `room` numbers from `start` up to `stop` that have a property, in ascending order:
what a scan that stops when its result is full has found.
-/

namespace Ps2sdk

open List Nat

variable {p : ℕ → Bool} {start mid stop room c : ℕ}

/-- The first `room` numbers in `[start, stop)` with the property. -/
def firstFrom (p : ℕ → Bool) (start stop room : ℕ) : List ℕ :=
  ((List.range' start (stop - start)).filter p).take room

theorem mem_filter_range' : c ∈ (range' start (stop - start)).filter p ↔ (start ≤ c ∧ c < stop) ∧ p c = true := by
  rw [mem_filter, mem_range'_1]
  exact and_congr_left fun _ => by omega

/-- What the scan found is in its range and has the property. -/
theorem of_mem_firstFrom (h : c ∈ firstFrom p start stop room) : (start ≤ c ∧ c < stop) ∧ p c = true :=
  mem_filter_range'.1 (mem_of_mem_take h)

theorem pairwise_lt_filter_range' : ((range' start (stop - start)).filter p).Pairwise (· < ·) :=
  List.Pairwise.filter _ pairwise_lt_range'

theorem nodup_firstFrom : (firstFrom p start stop room).Nodup :=
  (pairwise_lt_filter_range'.sublist (take_sublist _ _)).imp ne_of_lt

/-- A number with the property that the scan left out is not below any it found. -/
theorem le_of_not_mem_firstFrom (hc : (start ≤ c ∧ c < stop) ∧ p c = true)
    (hnot : c ∉ firstFrom p start stop room) {a : ℕ} (ha : a ∈ firstFrom p start stop room) : a ≤ c := by
  have hsorted : ((range' start (stop - start)).filter p).Pairwise (· < ·) :=
    pairwise_lt_filter_range'
  have hmem := mem_filter_range'.2 hc
  rw [← take_append_drop room ((range' start (stop - start)).filter p)] at hsorted hmem
  obtain hin | hin := mem_append.1 hmem
  · exact absurd hin hnot
  · exact le_of_lt ((pairwise_append.1 hsorted).2.2 a ha c hin)

/-- The last number found is a mark: what is left lies at or above it. -/
theorem mem_firstFrom_or_mark_le (hc : (start ≤ c ∧ c < stop) ∧ p c = true) :
    c ∈ firstFrom p start stop room ∨ (firstFrom p start stop room).getLastD start ≤ c := by
  by_cases hin : c ∈ firstFrom p start stop room
  · exact .inl hin
  · right
    obtain hfound | ⟨l, a, hfound⟩ := eq_nil_or_concat (firstFrom p start stop room)
    · rw [hfound]
      exact hc.1.1
    · have ha : a ∈ firstFrom p start stop room := by simp [hfound]
      have hle := le_of_not_mem_firstFrom hc hin ha
      rw [hfound]
      simpa using hle

/-- A scan with room that found nothing has nothing to find. -/
theorem firstFrom_eq_nil (hroom : 0 < room) (h : firstFrom p start stop room = []) :
    ∀ c, start ≤ c → c < stop → p c = false := by
  intro c hlo hhi
  by_contra hp
  have hmem : c ∈ (range' start (stop - start)).filter p :=
    mem_filter_range'.2 ⟨⟨hlo, hhi⟩, by simpa using hp⟩
  rw [firstFrom, take_eq_nil_iff] at h
  obtain h | h := h
  · omega
  · rw [h] at hmem
    exact absurd hmem not_mem_nil

/-- A scan goes on from `mid` with the room that is left. -/
theorem firstFrom_append (h₁ : start ≤ mid) (h₂ : mid ≤ stop) :
    firstFrom p start stop room = firstFrom p start mid room ++
      firstFrom p mid stop (room - (firstFrom p start mid room).length) := by
  have hsplit : range' start (stop - start) =
      range' start (mid - start) ++ range' mid (stop - mid) := by
    have happend : range' start (mid - start) ++ range' (start + (mid - start)) (stop - mid) =
        range' start (mid - start + (stop - mid)) := range'_append_1
    rw [Nat.add_sub_cancel' h₁, show mid - start + (stop - mid) = stop - start by omega] at happend
    exact happend.symm
  rw [firstFrom, hsplit, filter_append, take_append, firstFrom, firstFrom, length_take]
  congr 2
  omega

/-- A scan looks at its first number and goes on behind it. -/
theorem firstFrom_step (h : start < stop) : firstFrom p start stop (room + 1) =
      if p start then start :: firstFrom p (start + 1) stop room
      else firstFrom p (start + 1) stop (room + 1) := by
  have hcons : range' start (stop - start) = start :: range' (start + 1) (stop - (start + 1)) := by
    obtain ⟨k, hk⟩ := Nat.exists_eq_add_of_lt h
    rw [show stop - start = k + 1 by omega, show stop - (start + 1) = k by omega, range'_succ]
  rw [firstFrom, hcons]
  cases hp : p start with
  | true => simp [firstFrom, hp]
  | false => simp [firstFrom, hp]

end Ps2sdk
