import Mathlib.Data.List.Range

/-!
# Splitting a string into tokens

`strtok` of `string.c` on one string. The string is the memory from its pointer to its terminator, that
one included; `fin` is the memory from the static pointer `end` on, or nothing while that is `NULL` or in
another string. A call that reads there has no result.
-/

namespace Ps2sdk.Libc

variable (d : List ℕ)

/-- The second loop of `strtok`: the token, and `end`. A delimiter is overwritten by a terminator. -/
def scan : List ℕ → Option (List ℕ × List ℕ)
  | [] => none
  | c :: s =>
    if c = 0 then some ([], c :: s)
    else if c ∈ d then some ([], s)
    else (scan s).map fun r => (c :: r.1, r.2)

/-- `strtok` with `s` for `strToken`: the token returned, and `end` afterwards. -/
def strtok (s fin : Option (List ℕ)) : Option (Option (List ℕ) × Option (List ℕ)) := do
  let start ← s.or fin
  if s = none ∧ start.head? = some 0 then return (none, fin)
  let start := start.dropWhile fun c => c ≠ 0 ∧ c ∈ d
  if start.head? = some 0 then return (none, fin)
  let r ← scan d start
  return (r.1, r.2)

/-- The results of `k` calls of `strtok(NULL, d)`. -/
def strtoks : ℕ → Option (List ℕ) → Option (List (Option (List ℕ)))
  | 0, _ => some []
  | k + 1, fin => do
    let r ← strtok d none fin
    return r.1 :: (← strtoks k r.2)

/-- The results of `strtok(s, d)` and `k` calls of `strtok(NULL, d)`, after calls on other strings. -/
def tokenize (s : List ℕ) (k : ℕ) : Option (List (Option (List ℕ))) := do
  let r ← strtok d (some (s ++ [0])) none
  return r.1 :: (← strtoks d k r.2)

/-- The maximal runs of characters that are no delimiters. -/
def tokens (s : List ℕ) : List (List ℕ) := (s.splitOnP (· ∈ d)).filter (· ≠ [])

variable {d} {s : List ℕ}

/-- The second loop finds the first run, and leaves the others. -/
theorem scan_spec (hs : 0 ∉ s) : ∃ t s' ts, scan d (s ++ [0]) = some (t, s' ++ [0]) ∧ 0 ∉ s' ∧
    s.splitOnP (· ∈ d) = t :: ts ∧ ts.filter (· ≠ []) = tokens d s' ∧ (∀ c ∈ s.head?, c ∉ d → t ≠ []) := by
  induction s with
  | nil => exact ⟨[], [], [], rfl, hs, rfl, rfl, by simp⟩
  | cons c s ih =>
    rw [List.mem_cons, not_or] at hs
    rw [List.splitOnP_cons_eq_if_modifyHead]
    by_cases hc : c ∈ d
    · exact ⟨[], s, s.splitOnP (· ∈ d), by grind [scan], hs.2, by simp [hc], rfl, by grind⟩
    · obtain ⟨t, s', ts, h, h0, hsp, hts, -⟩ := ih hs.2
      exact ⟨c :: t, s', ts, by grind [scan], h0, by simp [hc, hsp], hts, by simp⟩

/-- The first loop finds the terminator or a token. -/
theorem strip_spec (hs : 0 ∉ s) : ∃ s', (s ++ [0]).dropWhile (fun c => c ≠ 0 ∧ c ∈ d) = s' ++ [0] ∧ 0 ∉ s' ∧
    tokens d s' = tokens d s ∧ (∀ c ∈ s'.head?, c ∉ d) ∧ (s' = [] ↔ ∀ c ∈ s, c ∈ d) := by
  induction s with
  | nil => exact ⟨[], by simp, hs, rfl, by simp, by simp⟩
  | cons c s ih =>
    have h0 := hs
    rw [List.mem_cons, not_or] at hs
    by_cases hc : c ∈ d
    · have ht : tokens d (c :: s) = tokens d s := by simp [tokens, List.splitOnP_cons_eq_if_modifyHead, hc]
      simpa [ht, hc, Ne.symm hs.1] using ih hs.2
    · exact ⟨c :: s, by simp [hc], h0, rfl, by simpa, by simp [hc]⟩

/-- A call on a string or on the rest of one. -/
theorem strtok_spec (d : List ℕ) (fin : Option (List ℕ)) (hs : 0 ∉ s) {a : Option (List ℕ)}
    (h : a = some (s ++ [0]) ∨ a = none ∧ fin = some (s ++ [0])) :
    ((∀ c ∈ s, c ∈ d) ∧ tokens d s = [] ∧ strtok d a fin = some (none, fin)) ∨
    (¬ ∀ c ∈ s, c ∈ d) ∧ ∃ t s', 0 ∉ s' ∧ tokens d s = t :: tokens d s' ∧
      strtok d a fin = some (some t, some (s' ++ [0])) := by
  have hor : a.or fin = some (s ++ [0]) := by grind
  obtain ⟨u, hu, hu0, hut, hd, hall⟩ := strip_spec (d := d) hs
  obtain ⟨t, s', ts, hscan, hs', hsp, hts, hne⟩ := scan_spec (d := d) hu0
  rw [← hall, ← hut, tokens, hsp]
  simp only [strtok, hor, hu, Option.bind_eq_bind, Option.bind_some, hscan]
  rcases u with _ | ⟨c, u⟩
  · obtain ⟨rfl, rfl⟩ : [] = t ∧ [] = ts := by simpa using hsp
    exact .inl ⟨rfl, rfl, by simp⟩
  · have hs0 : (s ++ [0]).head? ≠ some 0 := by
      cases s with
      | nil => simp at hall
      | cons b s => grind
    refine .inr ⟨List.cons_ne_nil _ _, t, s', hs', ?_, ?_⟩
    · rw [List.filter_cons_of_pos (by simpa using hne c rfl (hd c rfl)), hts]
    · rw [if_neg (fun h => hs0 h.2), if_neg (by grind)]
      rfl

/-- The calls on the rest of a string return its tokens in order, and then `NULL`. -/
theorem strtoks_rest (k : ℕ) (hs : 0 ∉ s) :
    strtoks d k (some (s ++ [0])) = some ((List.range k).map fun i => (tokens d s)[i]?) := by
  induction k generalizing s with
  | zero => rfl
  | succ k ih =>
    rcases strtok_spec d _ hs (.inr ⟨rfl, rfl⟩) with ⟨-, ht, hr⟩ | ⟨-, t, s', hs', ht, hr⟩
    · simp [strtoks, hr, ih hs, ht, List.range_succ_eq_map, Function.comp_def]
    · simp [strtoks, hr, ih hs', ht, List.range_succ_eq_map]

/-- The calls return the tokens, then `NULL`, and stay inside the string exactly when it has a token. -/
theorem tokenize_iff (d : List ℕ) (s : {s : List ℕ // 0 ∉ s}) :
    (∀ k, tokenize d s k = some ((List.range (k + 1)).map fun i => (tokens d s)[i]?)) ↔ ∃ c ∈ s.1, c ∉ d := by
  rcases strtok_spec d none s.2 (.inl rfl) with ⟨hall, -, hr⟩ | ⟨hall, t, s', hs', ht, hr⟩
  · refine iff_of_false (fun h => ?_) (by simpa using hall)
    have h1 := h 1
    rw [tokenize, hr] at h1
    cases h1
  · refine iff_of_true (fun k => ?_) (by simpa using hall)
    simp [tokenize, hr, strtoks_rest k hs', ht, List.range_succ_eq_map]

/-- After a string without a token the next call reads where the last string ended. -/
theorem tokenize_empty : tokenize [32] [] 0 = some [none] ∧ tokenize [32] [] 1 = none := by
  decide

end Ps2sdk.Libc
