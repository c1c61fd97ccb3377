import Ps2sdk.Alloc.Malloc

/-!
# free

`free` finds the header of the block, takes it out of the list, and gives the memory above the last block
back to the break.
-/

namespace Ps2sdk.Alloc

open Lib (Seg firstNode lastNode firstNode_append lastNode_append)
open List

/-- A block is taken out from between two lists of blocks. -/
theorem Intact.remove {endOfHeap : ℕ} {s s' : Heap} {xs ys : List Block} {b : Block}
    (h : Intact endOfHeap s (xs ++ b :: ys))
    (hmem : s'.mem = Lib.unlink s.mem 0 (xs.map Block.node) (ys.map Block.node) 0)
    (hhead : s'.head = firstNode ((xs ++ ys).map Block.node) 0)
    (htail : s'.tail = lastNode 0 ((xs ++ ys).map Block.node)) (hbase : s'.base = s.base)
    (hpacked : Packed s.base (xs ++ ys) s'.brk) (hbrk : s'.brk % 16 = 0) (hle : s'.brk ≤ s.brk) :
    Intact endOfHeap s' (xs ++ ys) ∧ SameData s.mem s'.mem (xs ++ ys) := by
  have hlinked := h.linked
  rw [map_append, map_cons, Lib.seg_append, Seg] at hlinked
  have hpos := h.base_pos (by simp)
  have hnodup := hpacked.nodup
  refine ⟨⟨?_, hhead, htail, hbase ▸ hpacked, fun c hc => h.aligned c (mem_insert hc), hbrk,
    hbase ▸ h.base_aligned, Nat.lt_of_lt_of_le hpos hpacked.le, Nat.le_trans hle h.brk_le, ?_⟩, ?_⟩
  · rw [map_append] at hnodup ⊢
    rw [hmem]
    exact Lib.seg_unlink hlinked.1 hlinked.2.2 hnodup
  · exact fun hzero => absurd (hbase ▸ hzero) (Nat.ne_of_gt hpos)
  · refine hpacked.sameData fun a ha => ?_
    rw [hmem]
    refine Lib.unlink_of_notMem (fun hx => ?_) fun hy => ?_
    · obtain ⟨c, hc, heq⟩ := mem_headers.mp hx
      exact ha c (mem_append_left _ hc) heq
    · obtain ⟨c, hc, heq⟩ := mem_headers.mp hy
      exact ha c (mem_append_right _ hc) heq

theorem sbrk_down {endOfHeap : ℕ} {s : Heap} {size : ℕ} (hsize : size ≤ s.brk) (hbrk : s.brk < 2 ^ 32)
    (hle : s.brk ≤ endOfHeap) : (sbrk endOfHeap s (sub32 0 size)).2 = { s with brk := s.brk - size } := by
  by_cases hzero : size = 0
  · subst hzero
    rfl
  · have hsub : sub32 0 size = 2 ^ 32 - size := by unfold sub32 u32; omega
    have hwrap : u32 (s.brk + (2 ^ 32 - size)) = s.brk - size := by unfold u32; omega
    unfold sbrk
    rw [hsub, if_neg (by omega)]
    rw [hwrap, if_pos (by omega)]

section

variable {endOfHeap : ℕ} {s : Heap} {xs ys : List Block} {b : Block}

theorem Intact.line (h : Intact endOfHeap s (xs ++ b :: ys)) :
    s.mem b.hdr = ⟨⟨b.hdr + 16, b.size⟩, lastNode 0 (xs.map Block.node), firstNode (ys.map Block.node) 0⟩ := by
  have hlinked := h.linked
  rw [map_append, map_cons, Lib.seg_append, Seg] at hlinked
  exact hlinked.2.1

/-- What `free` of a block does to an intact heap. -/
def Frees (endOfHeap : ℕ) (s : Heap) (blocks : List Block) (s' : Heap) : Prop :=
  Intact endOfHeap s' blocks ∧ SameData s.mem s'.mem blocks ∧ s'.locked = s.locked ∧ s'.brk ≤ s.brk

/-- The first block is freed. -/
theorem freeHead_spec (h : Intact endOfHeap s (b :: ys)) (he : endOfHeap < 2 ^ 32) :
    Frees endOfHeap s ys (freeHead endOfHeap s) := by
  have hhead : s.head = b.hdr := h.head
  have hline := @Intact.line endOfHeap s [] ys b h
  have hb := h.packed.mem mem_cons_self
  have hbrk := h.brk_le
  have haligned := h.aligned b mem_cons_self
  have hbrk16 := h.brk_aligned
  unfold Block.top at hb
  unfold freeHead
  rw [hhead, hline]
  cases ys with
  | nil =>
    have hwhole : u32 (b.size + sub32 (b.hdr + 16) b.hdr) = b.size + 16 := by
      unfold sub32 u32
      omega
    rw [if_neg (by simp [firstNode]), hwhole,
      sbrk_down (s := { s with head := 0, tail := 0 }) (by dsimp only; omega) (by dsimp only; omega) hbrk]
    have hrem := @Intact.remove endOfHeap s
      { s with brk := s.brk - (b.size + 16), head := 0, tail := 0 } [] [] b h rfl rfl rfl rfl
      (by unfold Packed; dsimp only [nil_append]; omega) (by dsimp only; omega) (by dsimp only; omega)
    exact ⟨hrem.1, hrem.2, rfl, Nat.sub_le _ _⟩
  | cons c rest =>
    have hc := h.hdr_pos (show c ∈ b :: c :: rest by simp)
    rw [show firstNode ((c :: rest).map Block.node) 0 = c.hdr from rfl, if_pos (Nat.ne_of_gt hc)]
    have hrem := @Intact.remove endOfHeap s
      { s with mem := Lib.setPrev s.mem c.hdr 0, head := c.hdr } [] (c :: rest) b h rfl rfl h.tail rfl
      (h.packed.2.mono (by unfold Block.top; omega) (Nat.le_refl _)) hbrk16 (Nat.le_refl _)
    exact ⟨hrem.1, hrem.2, rfl, Nat.le_refl _⟩

/-- A block behind another one is freed. -/
theorem freeBlock_spec {p : Block} (h : Intact endOfHeap s ((xs ++ [p]) ++ b :: ys)) (he : endOfHeap < 2 ^ 32) :
    Frees endOfHeap s ((xs ++ [p]) ++ ys) (freeBlock endOfHeap s b.hdr) := by
  have hline := h.line
  have hbrk := h.brk_le
  have hlast : lastNode 0 ((xs ++ [p]).map Block.node) = p.hdr := by
    rw [map_append, lastNode_append]
    rfl
  have hhead : s.head = firstNode ((xs ++ [p] ++ ys).map Block.node) 0 := by
    have hfirst := h.head
    rw [map_append, firstNode_append, map_append, firstNode_append] at hfirst ⊢
    exact hfirst
  obtain ⟨hpx, hpy⟩ := packed_append_cons.mp h.packed
  have hpp := (packed_append_cons.mp hpx).2
  have hpb := hpy.le
  have hmap : (xs ++ [p]).map Block.node ≠ [] := by simp
  unfold freeBlock
  rw [hline, hlast]
  dsimp only
  cases ys with
  | nil =>
    have hprev : s.mem p.hdr = ⟨⟨p.hdr + 16, p.size⟩, lastNode 0 (xs.map Block.node), b.hdr⟩ := by
      have hp := h
      rw [append_assoc] at hp
      exact hp.line
    unfold Packed Block.top at hpp hpb
    have hsize : sub32 s.brk (u32 (p.hdr + 16 + p.size)) = s.brk - (p.hdr + 16 + p.size) := by
      unfold sub32 u32
      omega
    rw [if_neg (by simp [firstNode]), hprev]
    rw [hsize, sbrk_down (s := { s with tail := p.hdr }) (Nat.sub_le _ _) (by dsimp only; omega) hbrk]
    have hp16 := h.aligned p (by simp)
    have hrem := @Intact.remove endOfHeap s
      { s with mem := Lib.setNext s.mem p.hdr 0, brk := s.brk - (s.brk - (p.hdr + 16 + p.size)), tail := p.hdr }
      (xs ++ [p]) [] b h ?_ hhead ?_ rfl ?_ (by dsimp only; omega) (Nat.sub_le _ _)
    · exact ⟨hrem.1, hrem.2, rfl, Nat.sub_le _ _⟩
    · unfold Lib.unlink
      rw [Lib.linkEnd_of_ne_nil hmap, hlast]
      rfl
    · rw [append_nil, hlast]
    · rw [append_nil]
      refine packed_append_cons.mpr ⟨(packed_append_cons.mp hpx).1, ?_⟩
      unfold Packed Block.top
      dsimp only
      omega
  | cons c rest =>
    have hc := h.hdr_pos (show c ∈ (xs ++ [p]) ++ b :: c :: rest by simp)
    rw [show firstNode ((c :: rest).map Block.node) 0 = c.hdr from rfl, if_pos (Nat.ne_of_gt hc)]
    have hrem := @Intact.remove endOfHeap s
      { s with mem := Lib.setNext (Lib.setPrev s.mem c.hdr p.hdr) p.hdr c.hdr }
      (xs ++ [p]) (c :: rest) b h ?_ hhead ?_ rfl ?_ h.brk_aligned (Nat.le_refl _)
    · exact ⟨hrem.1, hrem.2, rfl, Nat.le_refl _⟩
    · unfold Lib.unlink
      rw [Lib.linkEnd_of_ne_nil hmap, hlast]
      rfl
    · have htail := h.tail
      rw [map_append, lastNode_append] at htail ⊢
      exact htail
    · exact hpx.append (hpy.mono (by unfold Block.top; omega) (Nat.le_refl _))

/-- The search finds the header of a block. -/
theorem findHeader_spec {mem : ℕ → Line} {lo hi : ℕ} (blocks : List Block) (turns p : ℕ) {b : Block}
    (hlinked : Seg mem p (blocks.map Block.node) 0) (hpacked : Packed lo blocks hi)
    (hpos : ∀ c ∈ blocks, 0 < c.hdr) (hb : b ∈ blocks) (hturns : blocks.length ≤ turns) :
    findHeader mem b.data turns (firstNode (blocks.map Block.node) 0) = some b.hdr := by
  induction blocks generalizing turns p lo with
  | nil => exact absurd hb not_mem_nil
  | cons c rest ih =>
    rw [length_cons] at hturns
    obtain ⟨turns, rfl⟩ := Nat.exists_eq_succ_of_ne_zero (show turns ≠ 0 by omega)
    have hline : mem c.hdr = ⟨⟨c.hdr + 16, c.size⟩, p, firstNode (rest.map Block.node) 0⟩ := hlinked.1
    change findHeader mem b.data (turns + 1) c.hdr = some b.hdr
    rw [findHeader, hline]
    dsimp only
    rcases mem_cons.mp hb with rfl | hrest
    · exact if_pos rfl
    · have hle := (hpacked.2.mem hrest).1
      obtain ⟨d, rest', rfl⟩ := exists_cons_of_ne_nil (ne_nil_of_mem hrest)
      have hd : firstNode ((d :: rest').map Block.node) 0 ≠ 0 := Nat.ne_of_gt (hpos d (by simp))
      rw [if_neg (by unfold Block.top Block.data at *; omega), if_neg hd]
      exact ih turns c.hdr hlinked.2 hpacked.2 (fun e he => hpos e (mem_cons_of_mem _ he)) hrest (by omega)

/-- `free` of a block. -/
theorem free_spec (h : Intact endOfHeap s (xs ++ b :: ys)) (he : endOfHeap < 2 ^ 32) (hfree : s.locked = false) :
    ∃ s', free endOfHeap s b.data = (some (), s') ∧ Frees endOfHeap s (xs ++ ys) s' := by
  have hb := h.hdr_pos (show b ∈ xs ++ b :: ys by simp)
  have hlength := h.packed.length_le
  have hbrk := h.brk_le
  unfold free
  rw [if_neg b.data_ne_zero, hfree, if_neg (by decide)]
  cases xs with
  | nil =>
    have hhead : s.head = b.hdr := h.head
    have hline := @Intact.line endOfHeap s [] ys b h
    rw [if_neg (by omega), if_pos (by rw [hhead, hline]; rfl)]
    exact ⟨_, rfl, freeHead_spec h he⟩
  | cons c rest =>
    have hhead : s.head = c.hdr := h.head
    have hc := h.hdr_pos (show c ∈ c :: rest ++ b :: ys by simp)
    have hline := @Intact.line endOfHeap s [] (rest ++ b :: ys) c h
    have hlt := (h.packed.2.mem (show b ∈ rest ++ b :: ys by simp)).1
    have hfound := findHeader_spec (c :: rest ++ b :: ys) lineCount 0 h.linked h.packed
      (fun d hd => h.hdr_pos hd) (show b ∈ c :: rest ++ b :: ys by simp) (by unfold lineCount; omega)
    rw [← h.head] at hfound
    rw [if_neg (by omega), if_neg (by rw [hhead, hline]; unfold Block.top Block.data at *; dsimp only; omega),
      hfound]
    dsimp only
    rw [if_neg (Nat.ne_of_gt hb)]
    refine ⟨_, rfl, ?_⟩
    obtain ⟨front, p, hfront⟩ : ∃ front p, c :: rest = front ++ [p] :=
      ⟨(c :: rest).dropLast, (c :: rest).getLast (cons_ne_nil c rest),
        (dropLast_append_getLast (cons_ne_nil c rest)).symm⟩
    rw [hfront] at h ⊢
    exact freeBlock_spec h he

end

end Ps2sdk.Alloc
