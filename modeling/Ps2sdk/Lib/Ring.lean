import Mathlib.Data.List.Chain
import Mathlib.Data.List.Nodup

/-!
# Rings of adjacent blocks

Blocks are named by the elements of a type and lie at a position. Each block knows the block behind
it, the one before it and its own size. The blocks of a ring are visited from a first block along
the forward links; the backward links visit them the other way round, and each block begins where
the one before it ends. The last block is linked to the first.
-/

namespace Ps2sdk.Lib

open List

variable {A : Type}

/-- The elements on the way to an end are determined by the links. -/
theorem chain_unique {f : A → A} {a z : A} {xs ys : List A}
    (hxs : List.IsChain (fun x y => f x = y) (a :: xs ++ [z]))
    (hys : List.IsChain (fun x y => f x = y) (a :: ys ++ [z])) (hzx : z ∉ xs) (hzy : z ∉ ys) : xs = ys := by
  induction xs generalizing a ys with
  | nil =>
    cases ys with
    | nil => rfl
    | cons y ys =>
      have hz : f a = z := (isChain_cons_cons.mp hxs).1
      have hy : f a = y := (isChain_cons_cons.mp hys).1
      exact absurd (hz.symm.trans hy ▸ mem_cons_self) hzy
  | cons x xs ih =>
    obtain ⟨hx, hxs⟩ := isChain_cons_cons.mp hxs
    cases ys with
    | nil =>
      have hz : f a = z := (isChain_cons_cons.mp hys).1
      exact absurd (hz.symm.trans hx ▸ mem_cons_self) hzx
    | cons y ys =>
      obtain ⟨hy, hys⟩ := isChain_cons_cons.mp hys
      obtain rfl : x = y := hx.symm.trans hy
      rw [ih hxs hys (fun h => hzx (mem_cons_of_mem x h)) fun h => hzy (mem_cons_of_mem x h)]

/-- The links and sizes of the blocks. -/
structure Layout (A : Type) where
  next : A → A
  prev : A → A
  size : A → ℕ

namespace Layout

variable {g g' : Layout A} {pos : A → ℕ} {a x z : A} {xs xs' l m m' r : List A}

/-- One block follows another in the ring of a first block. -/
structure Follows (g : Layout A) (pos : A → ℕ) (a x y : A) : Prop where
  next : g.next x = y
  prev : g.prev y = x
  adjacent : y ≠ a → pos y = pos x + g.size x

/-- The blocks of the ring, in order. -/
structure Ring (g : Layout A) (pos : A → ℕ) (a : A) (xs : List A) : Prop where
  follows : List.IsChain (g.Follows pos a) (a :: xs ++ [a])
  positive : ∀ x ∈ a :: xs, 0 < g.size x
  first : a ∉ xs

/-- A chain of blocks depends on the links along it only. -/
theorem follows_congr (h : List.IsChain (g.Follows pos a) l)
    (hnext : ∀ w ∈ l.dropLast, g'.next w = g.next w ∧ g'.size w = g.size w)
    (hprev : ∀ w ∈ l.tail, g'.prev w = g.prev w) : List.IsChain (g'.Follows pos a) l := by
  induction l with
  | nil => exact isChain_nil
  | cons x l ih =>
    cases l with
    | nil => exact isChain_singleton x
    | cons y l =>
      obtain ⟨hfollows, hrest⟩ := isChain_cons_cons.mp h
      obtain ⟨hnextx, hsizex⟩ := hnext x mem_cons_self
      refine isChain_cons_cons.mpr ⟨⟨hnextx.trans hfollows.next, ?_, ?_⟩, ?_⟩
      · exact (hprev y mem_cons_self).trans hfollows.prev
      · rw [hsizex]
        exact hfollows.adjacent
      · exact ih hrest (fun w hw => hnext w (mem_cons_of_mem _ hw))
          fun w hw => hprev w (mem_cons_of_mem _ hw)

/-- Blocks that follow each other lie behind each other. -/
theorem follows_increasing (h : List.IsChain (g.Follows pos a) (x :: l)) (hpositive : ∀ w ∈ x :: l, 0 < g.size w)
    (hfirst : a ∉ l) : List.IsChain (fun x y => pos x < pos y) (x :: l) := by
  induction l generalizing x with
  | nil => exact isChain_singleton x
  | cons y l ih =>
    obtain ⟨hfollows, hrest⟩ := isChain_cons_cons.mp h
    obtain ⟨hy, hl⟩ := not_or.mp (mt mem_cons.mpr hfirst)
    refine isChain_cons_cons.mpr ⟨?_, ih hrest (fun w hw => hpositive w (mem_cons_of_mem _ hw)) hl⟩
    have hadjacent := hfollows.adjacent (Ne.symm hy)
    have hsize := hpositive x mem_cons_self
    omega

/-- The blocks of a ring lie behind each other. -/
theorem Ring.sorted (h : g.Ring pos a xs) : (a :: xs).Pairwise fun x y => pos x < pos y := by
  have hchain := (isChain_append.mp h.follows).1
  exact (follows_increasing hchain h.positive h.first).pairwise

/-- No block is visited twice. -/
theorem Ring.nodup (h : g.Ring pos a xs) : (a :: xs).Nodup := by
  refine h.sorted.imp fun {x y} hlt heq => ?_
  subst heq
  exact Nat.lt_irrefl _ hlt

/-- The links around a block. -/
theorem Ring.around (h : g.Ring pos a xs) (hxs : a :: xs = l ++ x :: r) (hz : r ++ [a] = z :: m) :
    g.Follows pos a x z := by
  have hfollows := h.follows
  rw [hxs, append_assoc, cons_append, hz] at hfollows
  exact (isChain_append_cons_cons.mp hfollows).2.1

/-- The targets of the links outside a gap are other than the block behind it. -/
theorem targets_of_nodup {l₀ r' : List A} (hnodup : (a :: l₀ ++ r).Nodup) (hz : r ++ [a] = z :: r') {w : A}
    (hw : w ∈ l₀ ∨ w ∈ r') : w ≠ z ∧ w ∈ a :: l₀ ++ r := by
  simp only [cons_append, nodup_cons, mem_append, not_or, nodup_append] at hnodup
  obtain ⟨⟨hal, har⟩, -, hr, hdisjoint⟩ := hnodup
  cases r with
  | nil =>
    obtain ⟨rfl, rfl⟩ := cons.inj hz
    obtain hw := hw.resolve_right not_mem_nil
    exact ⟨fun heq => hal (heq ▸ hw), by simp [hw]⟩
  | cons b r₀ =>
    obtain ⟨rfl, rfl⟩ := cons.inj hz
    rcases hw with hw | hw
    · exact ⟨hdisjoint w hw b mem_cons_self, by simp [hw]⟩
    · rcases mem_append.mp hw with hw | hw
      · exact ⟨fun heq => (nodup_cons.mp hr).1 (heq ▸ hw), by simp [hw]⟩
      · rw [mem_singleton.mp hw]
        exact ⟨fun heq => har (heq ▸ mem_cons_self), by simp⟩

/-- Some blocks between two blocks of a ring are replaced by others. -/
theorem Ring.splice {r' : List A} (h : g.Ring pos a xs) (hxs : a :: xs = l ++ x :: m ++ r)
    (hxs' : a :: xs' = l ++ x :: m' ++ r) (hz : r ++ [a] = z :: r')
    (hnext : ∀ w ∈ l ++ r, g'.next w = g.next w ∧ g'.size w = g.size w)
    (hprev : ∀ w ∈ l ++ x :: r, w ≠ z → g'.prev w = g.prev w)
    (hmid : List.IsChain (g'.Follows pos a) (x :: m' ++ [z])) (hpositive : ∀ w ∈ x :: m', 0 < g'.size w)
    (hfirst : a ∉ m') : g'.Ring pos a xs' := by
  obtain ⟨hleft, hright⟩ : List.IsChain (g.Follows pos a) (l ++ [x]) ∧ List.IsChain
    (g.Follows pos a) (z :: r') := by
    have hfollows := h.follows
    rw [hxs, append_assoc, hz, append_assoc, cons_append] at hfollows
    obtain ⟨hleft, hrest⟩ := isChain_split.mp hfollows
    rw [← cons_append] at hrest
    exact ⟨hleft, (isChain_split.mp hrest).2⟩
  obtain ⟨l₀, hl₀⟩ : ∃ l₀, l ++ [x] = a :: l₀ := by
    cases l with
    | nil => exact ⟨[], by rw [(cons.inj hxs).1, nil_append]⟩
    | cons b l => exact ⟨l ++ [x], by rw [(cons.inj hxs).1, cons_append]⟩
  have heq : l ++ x :: r = a :: l₀ ++ r := by rw [← hl₀, append_assoc, singleton_append]
  have hnodup : (a :: l₀ ++ r).Nodup := by
    have hall := h.nodup
    rw [hxs, append_assoc] at hall
    rw [← heq]
    exact hall.sublist ((List.Sublist.refl l).append ((sublist_append_right m r).cons_cons x))
  have htargets : ∀ w, w ∈ l₀ ∨ w ∈ r' → g'.prev w = g.prev w := fun w hw => by
    obtain ⟨hne, hmem⟩ := targets_of_nodup hnodup hz hw
    exact hprev w (heq ▸ hmem) hne
  have hleft' : List.IsChain (g'.Follows pos a) (l ++ [x]) := by
    refine follows_congr hleft (fun w hw => hnext w ?_) fun w hw => htargets w (.inl ?_)
    · rw [dropLast_concat] at hw
      exact mem_append_left r hw
    · rwa [hl₀] at hw
  have hright' : List.IsChain (g'.Follows pos a) (z :: r') := by
    refine follows_congr hright (fun w hw => hnext w ?_) fun w hw => htargets w (.inr hw)
    rw [← hz, dropLast_concat] at hw
    exact mem_append_right l hw
  refine ⟨?_, fun w hw => ?_, fun ha => ?_⟩
  · rw [hxs', append_assoc, hz, append_assoc]
    refine isChain_split.mpr ⟨hleft', ?_⟩
    exact isChain_split.mpr ⟨hmid, hright'⟩
  · rw [hxs', append_assoc, mem_append, mem_append] at hw
    have hold : w ∈ l ++ r → 0 < g'.size w := fun hw => by
      rw [(hnext w hw).2]
      refine h.positive w ?_
      rw [hxs, append_assoc]
      rcases mem_append.mp hw with hw | hw <;> simp [hw]
    rcases hw with hw | hw | hw
    · exact hold (mem_append_left r hw)
    · exact hpositive w hw
    · exact hold (mem_append_right l hw)
  · have htail : xs' = l₀ ++ m' ++ r := by
      have hwhole : a :: xs' = a :: (l₀ ++ m' ++ r) := by
        rw [hxs', ← cons_append, ← cons_append, ← hl₀, append_assoc, append_assoc,
          append_assoc]
        simp
      exact (cons.inj hwhole).2
    rw [cons_append, nodup_cons] at hnodup
    rw [htail, mem_append, mem_append] at ha
    rcases ha with (ha | ha) | ha
    · exact hnodup.1 (mem_append_left r ha)
    · exact hfirst ha
    · exact hnodup.1 (mem_append_right l₀ ha)

end Layout

end Ps2sdk.Lib
