import Mathlib.Data.List.Nodup

/-!
# Doubly linked lists in memory

A cell has a body and the addresses of its neighbours. `Seg mem p nodes n` says that the nodes are linked
in memory in their order, between a cell at `p` and one at `n`. A node is linked in between two
segments, or taken out, by writes to the cells next to it.
-/

namespace Ps2sdk.Lib

open Function List

/-- A cell of a doubly linked list. -/
structure Cell (A B : Type*) where
  body : B
  prev : A
  next : A

variable {A B : Type*} [DecidableEq A]

/-- The address of the first of some nodes, or what follows them. -/
def firstNode : List (A × B) → A → A
  | [], n => n
  | node :: _, _ => node.1

/-- The address of the last of some nodes, or what precedes them. -/
def lastNode : A → List (A × B) → A
  | p, [] => p
  | _, node :: rest => lastNode node.1 rest

/-- The nodes are linked in their order. -/
def Seg (mem : A → Cell A B) : A → List (A × B) → A → Prop
  | _, [], _ => True
  | p, node :: rest, n => mem node.1 = ⟨node.2, p, firstNode rest n⟩ ∧ Seg mem node.1 rest n

variable (mem : A → Cell A B)

/-- Change the link of a cell to the next one. -/
def setNext (a n : A) : A → Cell A B :=
  Function.update mem a ⟨(mem a).body, (mem a).prev, n⟩

/-- Change the link of a cell to the one before. -/
def setPrev (a p : A) : A → Cell A B :=
  Function.update mem a ⟨(mem a).body, p, (mem a).next⟩

variable {p n a p' n' : A} {xs ys : List (A × B)} {mem : A → Cell A B} {node : A × B}

omit [DecidableEq A] in
/-- The first of two lists of nodes. -/
theorem firstNode_append (xs ys : List (A × B)) (n : A) :
    firstNode (xs ++ ys) n = firstNode xs (firstNode ys n) := by
  cases xs <;> rfl

omit [DecidableEq A] in
/-- The last of two lists of nodes. -/
theorem lastNode_append (p : A) (xs ys : List (A × B)) : lastNode p (xs ++ ys) = lastNode (lastNode p xs) ys := by
  induction xs generalizing p with
  | nil => rfl
  | cons node rest ih => exact ih node.1

omit [DecidableEq A] in
/-- The last node is one of the nodes. -/
theorem lastNode_mem (h : xs ≠ []) : lastNode p xs ∈ xs.map Prod.fst := by
  induction xs generalizing p with
  | nil => exact absurd rfl h
  | cons node rest ih =>
    cases rest with
    | nil => exact mem_cons_self
    | cons next rest => exact mem_cons_of_mem _ (@ih node.1 (cons_ne_nil next rest))

omit [DecidableEq A] in
/-- The first node is one of the nodes. -/
theorem firstNode_mem (h : xs ≠ []) : firstNode xs n ∈ xs.map Prod.fst := by
  cases xs with
  | nil => exact absurd rfl h
  | cons node rest => exact mem_cons_self

omit [DecidableEq A] in
/-- Two segments that follow each other. -/
theorem seg_append : Seg mem p (xs ++ ys) n ↔ Seg mem p xs (firstNode ys n) ∧ Seg mem (lastNode p xs) ys n := by
  induction xs generalizing p with
  | nil => simp [Seg, lastNode]
  | cons node rest ih =>
    rw [cons_append, Seg, Seg, ih, lastNode, firstNode_append, and_assoc]

omit [DecidableEq A] in
/-- A segment depends on its own cells only. -/
theorem Seg.congr {mem' : A → Cell A B} (h : Seg mem p xs n)
    (hsame : ∀ a ∈ xs.map Prod.fst, mem' a = mem a) : Seg mem' p xs n := by
  induction xs generalizing p with
  | nil => trivial
  | cons node rest ih =>
    refine ⟨?_, ih h.2 fun a ha => hsame a (mem_cons_of_mem _ ha)⟩
    rw [hsame node.1 mem_cons_self]
    exact h.1

/-- Link the end of a segment to another cell, if it has one. -/
def linkEnd (mem : A → Cell A B) (p : A) (xs : List (A × B)) (n : A) : A → Cell A B :=
  match xs with
  | [] => mem
  | _ :: _ => setNext mem (lastNode p xs) n

/-- Link the start of a segment to another cell, if it has one. -/
def linkStart (mem : A → Cell A B) (p : A) (xs : List (A × B)) (n : A) : A → Cell A B :=
  match xs with
  | [] => mem
  | _ :: _ => setPrev mem (firstNode xs n) p

/-- A segment with cells has an end. -/
theorem linkEnd_of_ne_nil (h : xs ≠ []) : linkEnd mem p xs n = setNext mem (lastNode p xs) n := by
  cases xs with
  | nil => exact absurd rfl h
  | cons node rest => rfl

variable (h : a ∉ xs.map Prod.fst)

include h

/-- Linking the end of a segment writes to one of its cells only. -/
theorem linkEnd_of_notMem : linkEnd mem p xs n a = mem a := by
  cases xs with
  | nil => rfl
  | cons node rest =>
    refine update_of_ne (fun heq => h ?_) _ _
    exact heq ▸ lastNode_mem (cons_ne_nil node rest)

/-- Linking the start of a segment writes to one of its cells only. -/
theorem linkStart_of_notMem : linkStart mem p xs n a = mem a := by
  cases xs with
  | nil => rfl
  | cons node rest => exact update_of_ne (ne_of_mem_of_not_mem mem_cons_self h).symm _ _

variable (cell : Cell A B)

/-- A write outside a segment and the link of its end. -/
theorem linkEnd_update : linkEnd (update mem a cell) p xs n = update (linkEnd mem p xs n) a cell := by
  cases xs with
  | nil => rfl
  | cons node rest =>
    have hne : lastNode p (node :: rest) ≠ a := ne_of_mem_of_not_mem (lastNode_mem (cons_ne_nil node rest)) h
    simp only [linkEnd, setNext, update_of_ne hne]
    exact update_comm hne.symm _ _ _

/-- A write outside a segment and the link of its start. -/
theorem linkStart_update : linkStart (update mem a cell) p xs n = update (linkStart mem p xs n) a cell := by
  cases xs with
  | nil => rfl
  | cons node rest =>
    have hne : firstNode (node :: rest) n ≠ a := ne_of_mem_of_not_mem (firstNode_mem (cons_ne_nil node rest)) h
    simp only [linkStart, setPrev, update_of_ne hne]
    exact update_comm hne.symm _ _ _

omit h

/-- The end of one segment and the start of another are linked in any order. -/
theorem linkStart_linkEnd (h : ∀ a ∈ xs.map Prod.fst, a ∉ ys.map Prod.fst) :
    linkStart (linkEnd mem p xs n') p' ys n = linkEnd (linkStart mem p' ys n) p xs n' := by
  cases xs with
  | nil => rfl
  | cons node rest =>
    have hlast := lastNode_mem (p := p) (cons_ne_nil node rest)
    change linkStart (update mem _ _) p' ys n = update (linkStart mem p' ys n) _ _
    rw [linkStart_update (h _ hlast), linkStart_of_notMem (h _ hlast)]

/-- A segment whose end is linked to another cell. -/
theorem Seg.linkEnd (h : Seg mem p xs n)
    (hnodup : (xs.map Prod.fst).Nodup) (n' : A) : Seg (linkEnd mem p xs n') p xs n' := by
  induction xs generalizing p with
  | nil => trivial
  | cons node rest ih =>
    obtain ⟨hnode, hrest⟩ := h
    obtain ⟨hnot, hnodup⟩ := nodup_cons.mp hnodup
    cases rest with
    | nil =>
      refine ⟨?_, trivial⟩
      simp only [Lib.linkEnd, setNext, lastNode, update_self, hnode, firstNode]
    | cons next rest =>
      refine ⟨?_, ih hrest hnodup⟩
      change setNext mem (lastNode node.1 (next :: rest)) n' node.1 = _
      rw [setNext, update_of_ne, hnode]
      · rfl
      · exact fun heq => hnot (heq ▸ lastNode_mem (cons_ne_nil next rest))

/-- A segment whose start is linked to another cell. -/
theorem Seg.linkStart (h : Seg mem p xs n)
    (hnodup : (xs.map Prod.fst).Nodup) (p' : A) : Seg (linkStart mem p' xs n) p' xs n := by
  cases xs with
  | nil => trivial
  | cons node rest =>
    obtain ⟨hnode, hrest⟩ := h
    obtain ⟨hnot, -⟩ := nodup_cons.mp hnodup
    refine ⟨?_, hrest.congr fun a ha => ?_⟩
    · simp only [Lib.linkStart, setPrev, firstNode, update_self, hnode]
    · exact update_of_ne (ne_of_mem_of_not_mem ha hnot) _ _

/-- Link a node in between two segments. -/
def linkNode (mem : A → Cell A B) (p : A) (xs : List (A × B)) (node : A × B) (ys : List (A × B)) (n : A) :
    A → Cell A B :=
  linkEnd (linkStart (Function.update mem node.1 ⟨node.2, lastNode p xs, firstNode ys n⟩) node.1 ys n) p xs
    node.1

/-- Take out what is in between two segments. -/
def unlink (mem : A → Cell A B) (p : A) (xs ys : List (A × B)) (n : A) : A → Cell A B :=
  linkEnd (linkStart mem (lastNode p xs) ys n) p xs (firstNode ys n)

/-- A node is linked in by writing its cell last. -/
theorem linkNode_cell_last (hxs : node.1 ∉ xs.map Prod.fst) (hys : node.1 ∉ ys.map Prod.fst)
    (hcross : ∀ a ∈ xs.map Prod.fst, a ∉ ys.map Prod.fst) :
    update (linkStart (linkEnd (update mem node.1 cell) p xs node.1) node.1 ys n) node.1
      ⟨node.2, lastNode p xs, firstNode ys n⟩ = linkNode mem p xs node ys n := by
  rw [linkEnd_update hxs, linkStart_update hys, update_idem, linkNode, linkStart_update hys,
    linkEnd_update hxs, linkStart_linkEnd hcross]

/-- A node is linked by writes to its own cell and those of the segments. -/
theorem linkNode_of_notMem (hnode : a ≠ node.1) (hxs : a ∉ xs.map Prod.fst) (hys : a ∉ ys.map Prod.fst) :
    linkNode mem p xs node ys n a = mem a := by
  rw [linkNode, linkEnd_of_notMem hxs, linkStart_of_notMem hys, update_of_ne hnode]

/-- A node is taken out by writes to the cells of the segments. -/
theorem unlink_of_notMem (hxs : a ∉ xs.map Prod.fst) (hys : a ∉ ys.map Prod.fst) : unlink mem p xs ys n a =
    mem a := by
  rw [unlink, linkEnd_of_notMem hxs, linkStart_of_notMem hys]

/-- A node that is linked in between two segments joins them. -/
theorem seg_linkNode (hxs : Seg mem p xs n') (hys : Seg mem p' ys n)
    (hnodup : ((xs ++ node :: ys).map Prod.fst).Nodup) :
    Seg (linkNode mem p xs node ys n) p (xs ++ node :: ys) n := by
  rw [map_append, map_cons] at hnodup
  obtain ⟨hnodupX, hnodupY, hdisjoint⟩ := nodup_append.mp hnodup
  obtain ⟨hnotY, hnodupY⟩ := nodup_cons.mp hnodupY
  have hnotX : node.1 ∉ xs.map Prod.fst := fun hmem => hdisjoint _ hmem _ mem_cons_self rfl
  have hcross : ∀ a ∈ ys.map Prod.fst, a ∉ xs.map Prod.fst := fun a ha hmem =>
    hdisjoint a hmem a (mem_cons_of_mem _ ha) rfl
  rw [seg_append, Seg]
  refine ⟨?_, ?_, ?_⟩
  · refine Seg.linkEnd (hxs.congr fun a ha => ?_) hnodupX node.1
    rw [linkStart_of_notMem fun hmem => hcross a hmem ha]
    exact update_of_ne (ne_of_mem_of_not_mem ha hnotX) _ _
  · rw [linkNode, linkEnd_of_notMem hnotX, linkStart_of_notMem hnotY, update_self]
  · have hnew : Seg (update mem node.1 ⟨node.2, lastNode p xs, firstNode ys n⟩) p' ys n :=
      hys.congr fun a ha => update_of_ne (ne_of_mem_of_not_mem ha hnotY) _ _
    exact (hnew.linkStart hnodupY node.1).congr fun a ha => linkEnd_of_notMem (hcross a ha)

/-- Two segments that are linked to each other. -/
theorem seg_unlink (hxs : Seg mem p xs n') (hys : Seg mem p' ys n) (hnodup : ((xs ++ ys).map Prod.fst).Nodup) :
    Seg (unlink mem p xs ys n) p (xs ++ ys) n := by
  rw [map_append] at hnodup
  obtain ⟨hnodupX, hnodupY, hdisjoint⟩ := nodup_append.mp hnodup
  have hcross : ∀ a ∈ ys.map Prod.fst, a ∉ xs.map Prod.fst := fun a ha hmem => hdisjoint a hmem a ha rfl
  rw [seg_append]
  refine ⟨?_, ?_⟩
  · refine Seg.linkEnd (hxs.congr fun a ha => ?_) hnodupX _
    exact linkStart_of_notMem fun hmem => hcross a hmem ha
  · exact (hys.linkStart hnodupY _).congr fun a ha => linkEnd_of_notMem (hcross a ha)

/-- Changing the body of a node. -/
theorem seg_setBody (h : Seg mem p (xs ++ node :: ys) n) (hnodup : ((xs ++ node :: ys).map Prod.fst).Nodup)
    (body : B) : Seg (update mem node.1 ⟨body, (mem node.1).prev, (mem node.1).next⟩) p
      (xs ++ (node.1, body) :: ys) n := by
  rw [map_append, map_cons] at hnodup
  obtain ⟨-, hnodupY, hdisjoint⟩ := nodup_append.mp hnodup
  obtain ⟨hnotY, -⟩ := nodup_cons.mp hnodupY
  have hnotX : node.1 ∉ xs.map Prod.fst := fun hmem => hdisjoint _ hmem _ mem_cons_self rfl
  rw [seg_append, Seg] at h ⊢
  obtain ⟨hxs, hnode, hys⟩ := h
  refine ⟨hxs.congr fun a ha => ?_, ?_, hys.congr fun a ha => ?_⟩
  · exact update_of_ne (ne_of_mem_of_not_mem ha hnotX) _ _
  · rw [update_self, hnode]
  · exact update_of_ne (ne_of_mem_of_not_mem ha hnotY) _ _

end Ps2sdk.Lib
