import Ps2sdk.Alloc.Heap

/-!
# malloc

Each of the four places where `malloc` puts a block is a gap between two lists of blocks, and its writes
link the header into that gap.
-/

namespace Ps2sdk.Alloc

open Lib (Seg firstNode lastNode firstNode_append lastNode_append)
open List

theorem u32_of_lt {n : ℕ} (h : n < 2 ^ 32) : u32 n = n := Nat.mod_eq_of_lt h

theorem sub32_of_le {a b : ℕ} (hle : b ≤ a) (ha : a < 2 ^ 32) : sub32 a b = a - b := by
  unfold sub32 u32
  omega

theorem alignUp_spec {x k : ℕ} (h : x + 2 ^ k ≤ 2 ^ 32) :
    alignUp x (2 ^ k) % 2 ^ k = 0 ∧ x ≤ alignUp x (2 ^ k) ∧ alignUp x (2 ^ k) < x + 2 ^ k := by
  have hpos : 0 < 2 ^ k := Nat.two_pow_pos k
  unfold alignUp
  rw [u32_of_lt (by omega), Nat.and_two_pow_sub_one_eq_mod]
  have hdvd : 2 ^ k ∣ x + (2 ^ k - 1) - (x + (2 ^ k - 1)) % 2 ^ k := Nat.dvd_sub_mod _
  refine ⟨Nat.mod_eq_zero_of_dvd hdvd, ?_, ?_⟩ <;> omega

theorem memSize_spec {size : ℕ} (h : size + 32 ≤ 2 ^ 32) :
    memSize size % 16 = 0 ∧ size + 16 ≤ memSize size ∧ memSize size ≤ size + 31 := by
  unfold memSize
  rw [u32_of_lt (by omega)]
  have hmask : size + 16 &&& 15 = (size + 16) % 16 := Nat.and_two_pow_sub_one_eq_mod _ 4
  have halign := @alignUp_spec (size + 16) 4 (by omega)
  rw [show (2 : ℕ) ^ 4 = 16 from rfl] at halign
  dsimp only
  split <;> omega

theorem sbrk_spec {endOfHeap : ℕ} {s : Heap} {increment : ℕ} (h : s.brk + increment < 2 ^ 32)
    (hne : increment ≠ 0) : sbrk endOfHeap s increment = if s.brk + increment ≤ endOfHeap then
      (s.brk, { s with brk := s.brk + increment }) else (sbrkFailed, s) := by
  unfold sbrk
  rw [if_neg hne]
  rw [u32_of_lt h]

/-- The search for a gap finds one that is large enough, or there is none between two blocks. -/
theorem heapMemFit_spec {mem : ℕ → Line} {lo hi size : ℕ} (hhi : hi < 2 ^ 32) (blocks : List Block)
    (turns p : ℕ) (hlinked : Seg mem p (blocks.map Block.node) 0) (hpacked : Packed lo blocks hi)
    (hpos : ∀ b ∈ blocks, 0 < b.hdr) (hturns : blocks.length < turns) :
    heapMemFit mem size turns (firstNode (blocks.map Block.node) 0) = some 0 ∨
      ∃ xs b c ys, blocks = xs ++ b :: c :: ys ∧ b.top + size ≤ c.hdr ∧
        heapMemFit mem size turns (firstNode (blocks.map Block.node) 0) = some b.hdr := by
  induction blocks generalizing turns p lo with
  | nil =>
    obtain ⟨turns, rfl⟩ := Nat.exists_eq_succ_of_ne_zero (Nat.ne_of_gt hturns)
    exact .inl (by simp [heapMemFit, firstNode])
  | cons b rest ih =>
    obtain ⟨turns, rfl⟩ := Nat.exists_eq_succ_of_ne_zero (Nat.ne_zero_of_lt hturns)
    obtain ⟨hnode, hrest⟩ := hlinked
    have hb := hpos b mem_cons_self
    have htop := (hpacked.mem (mem_cons_self)).2
    have hline : mem b.hdr = ⟨⟨b.hdr + 16, b.size⟩, p, firstNode (rest.map Block.node) 0⟩ := hnode
    rw [map_cons, firstNode, Nat.succ_eq_add_one, heapMemFit]
    change (if b.hdr = 0 then _ else _) = _ ∨ ∃ xs b' c ys, _ ∧ _ ∧ (if b.hdr = 0 then _ else _) = _
    rw [if_neg (Nat.ne_of_gt hb), show b.node.1 = b.hdr from rfl, hline]
    dsimp only
    rw [u32_of_lt (by unfold Block.top at htop; omega)]
    by_cases hfit : firstNode (rest.map Block.node) 0 ≠ 0 ∧
        size ≤ sub32 (firstNode (rest.map Block.node) 0) (b.hdr + 16 + b.size)
    · rw [if_pos hfit]
      cases rest with
      | nil => exact absurd rfl hfit.1
      | cons c ys =>
        refine .inr ⟨[], b, c, ys, rfl, ?_, rfl⟩
        have hc := hpacked.2.1
        have htopc := (hpacked.2.mem (mem_cons_self)).2
        have hgap : size ≤ sub32 c.hdr (b.hdr + 16 + b.size) := hfit.2
        unfold Block.top at hc htopc ⊢
        rw [sub32_of_le hc (by omega)] at hgap
        omega
    · rw [if_neg hfit]
      rcases ih turns b.hdr hrest hpacked.2 (fun c hc => hpos c (mem_cons_of_mem _ hc))
        (by rw [length_cons] at hturns; omega) with hnone | ⟨xs, b', c, ys, heq, hgap, hfound⟩
      · exact .inl hnone
      · exact .inr ⟨b :: xs, b', c, ys, by rw [heq, cons_append], hgap, hfound⟩

section

variable {endOfHeap : ℕ} {s : Heap} {blocks : List Block}

/-- What `malloc` of a size does to an intact heap: it fails, or it adds a block. -/
def Allocates (endOfHeap : ℕ) (s : Heap) (blocks : List Block) (size : ℕ) (result : ℕ × Heap) : Prop :=
  (result.1 = 0 ∧ Intact endOfHeap result.2 blocks ∧ result.2.mem = s.mem) ∨
    (result.2.locked = s.locked ∧ ∃ xs b ys, blocks = xs ++ ys ∧ Intact endOfHeap result.2 (xs ++ b :: ys) ∧
      result.1 = b.data ∧ size ≤ b.size ∧ SameData s.mem result.2.mem blocks)

theorem newHeader_eq {mem : ℕ → Line} {a memSz prev next : ℕ} (ha : a + memSz < 2 ^ 32) (hsz : 16 ≤ memSz) :
    newHeader mem a memSz prev next =
      Function.update mem a ⟨(Block.mk a (memSz - 16)).node.2, prev, next⟩ := by
  unfold newHeader
  rw [u32_of_lt (by omega), sub32_of_le hsz (by omega)]
  rfl

variable {memSz size : ℕ}

/-- The first block. -/
theorem mallocFirst_spec (h : Intact endOfHeap s []) (he : endOfHeap < 2 ^ 32)
    (hroom : s.brk + memSz < 2 ^ 32) (halign : memSz % 16 = 0) (hsize : size + 16 ≤ memSz) :
    Allocates endOfHeap s [] size (mallocFirst endOfHeap s memSz) := by
  have hmask : s.brk &&& 15 = 0 := (Nat.and_two_pow_sub_one_eq_mod s.brk 4).trans h.brk_aligned
  have hbrk := h.brk_le
  have hpos := h.brk_pos
  have hbrk16 := h.brk_aligned
  -- The heap with its base set differs in the base only.
  obtain ⟨base, hbase, hbase16, hle, hbased⟩ : ∃ base, 0 < base ∧ base % 16 = 0 ∧ base ≤ s.brk ∧
      (if s.base = 0 then
        let s := (sbrk endOfHeap s (s.brk &&& 15)).2
        { s with base := s.brk }
      else s) = { s with base := base } := by
    by_cases hzero : s.base = 0
    · refine ⟨s.brk, hpos, hbrk16, Nat.le_refl _, ?_⟩
      rw [if_pos hzero, hmask]
      rfl
    · exact ⟨s.base, Nat.pos_of_ne_zero hzero, h.base_aligned, h.packed.le, by rw [if_neg hzero]⟩
  unfold mallocFirst
  rw [hbased]
  dsimp only
  rw [sbrk_spec (s := { s with base := base }) hroom (by omega)]
  by_cases hfits : s.brk + memSz ≤ endOfHeap
  · rw [if_pos hfits]
    dsimp only
    have hok : s.brk ≠ sbrkFailed := by unfold sbrkFailed; omega
    rw [if_neg hok, newHeader_eq hroom (by omega), u32_of_lt (by omega)]
    have hins := @Intact.insert [] [] ⟨s.brk, memSz - 16⟩ endOfHeap s
      { s with mem := Function.update s.mem s.brk ⟨(Block.mk s.brk (memSz - 16)).node.2, 0, 0⟩,
               brk := s.brk + memSz, base := base, head := s.brk, tail := s.brk } h rfl rfl rfl
      ⟨hle, by unfold Packed Block.top; dsimp only; omega⟩ hbrk16 (by dsimp only; omega) (by dsimp only; omega)
      hbase16 hbase hfits
    exact .inr ⟨rfl, [], ⟨s.brk, memSz - 16⟩, [], rfl, hins.1, rfl, by dsimp only; omega, hins.2⟩
  · rw [if_neg hfits]
    rw [if_pos rfl]
    refine .inl ⟨rfl, ⟨trivial, h.head, h.tail, hle, by simp, hbrk16, hbase16, hpos, hbrk, ?_⟩, rfl⟩
    exact fun _ => rfl

/-- A block at the bottom. -/
theorem mallocBottom_spec {c : Block} {ys : List Block} (h : Intact endOfHeap s (c :: ys))
    (he : endOfHeap < 2 ^ 32) (hgap : s.base + memSz < s.head) (halign : memSz % 16 = 0)
    (hsize : size + 16 ≤ memSz) : Allocates endOfHeap s (c :: ys) size (mallocBottom s memSz) := by
  have hhead : s.head = c.hdr := h.head
  have hbrk := h.brk_le
  have hc := h.packed.mem mem_cons_self
  have hpos := h.base_pos (cons_ne_nil c ys)
  have hbase16 := h.base_aligned
  unfold Block.top at hc
  unfold mallocBottom
  rw [newHeader_eq (by omega) (by omega), u32_of_lt (by omega)]
  rw [hhead]
  have hins := @Intact.insert [] (c :: ys) ⟨s.base, memSz - 16⟩ endOfHeap s
    { s with mem := Lib.setPrev (Function.update s.mem s.base
              ⟨(Block.mk s.base (memSz - 16)).node.2, 0, c.hdr⟩) c.hdr s.base,
             head := s.base } h rfl rfl h.tail
    ⟨Nat.le_refl _, by unfold Block.top; dsimp only; omega, h.packed.2⟩ hbase16 (by dsimp only; omega)
    h.brk_aligned hbase16 hpos hbrk
  exact .inr ⟨rfl, [], ⟨s.base, memSz - 16⟩, c :: ys, rfl, hins.1, rfl, by dsimp only; omega, hins.2⟩

/-- A block between two others. -/
theorem mallocAfter_spec {xs ys : List Block} {b c : Block} (h : Intact endOfHeap s (xs ++ b :: c :: ys))
    (he : endOfHeap < 2 ^ 32) (hgap : b.top + memSz ≤ c.hdr) (halign : memSz % 16 = 0) (hsize : size + 16 ≤ memSz) :
    Allocates endOfHeap s (xs ++ b :: c :: ys) size (mallocAfter s memSz b.hdr) := by
  have hbrk := h.brk_le
  have hc := h.packed.mem (show c ∈ xs ++ b :: c :: ys by simp)
  have hb := h.aligned b (by simp)
  have hlinked := h.linked
  rw [map_append, Lib.seg_append, map_cons, Seg] at hlinked
  have hline : s.mem b.hdr = ⟨⟨b.hdr + 16, b.size⟩, lastNode 0 (xs.map Block.node), c.hdr⟩ := hlinked.2.1
  obtain ⟨hpx, hpy⟩ := packed_append_cons.mp h.packed
  unfold Block.top at hgap hc
  unfold mallocAfter
  rw [hline]
  dsimp only
  rw [u32_of_lt (n := b.hdr + 16 + b.size) (by omega), newHeader_eq (by omega) (by omega), u32_of_lt (by omega)]
  have hsplit : xs ++ b :: c :: ys = (xs ++ [b]) ++ c :: ys := by simp
  have hpos := h.base_pos (by simp)
  have hlast : lastNode 0 ((xs ++ [b]).map Block.node) = b.hdr := by
    rw [map_append, lastNode_append]
    rfl
  rw [hsplit] at h ⊢
  have hins := @Intact.insert (xs ++ [b]) (c :: ys) ⟨b.hdr + 16 + b.size, memSz - 16⟩ endOfHeap s
    { s with mem := Lib.setNext (Lib.setPrev (Function.update s.mem (b.hdr + 16 + b.size)
              ⟨(Block.mk (b.hdr + 16 + b.size) (memSz - 16)).node.2, b.hdr, c.hdr⟩) c.hdr (b.hdr + 16 + b.size))
              b.hdr (b.hdr + 16 + b.size) } h ?_ ?_ ?_ ?_ (by dsimp only; omega)
    (by dsimp only; omega) h.brk_aligned h.base_aligned hpos hbrk
  · exact .inr ⟨rfl, xs ++ [b], ⟨b.hdr + 16 + b.size, memSz - 16⟩, c :: ys, rfl, hins.1, rfl,
      by dsimp only; omega, hins.2⟩
  · unfold Lib.linkNode
    rw [Lib.linkEnd_of_ne_nil (by simp), hlast]
    rfl
  · have hfirst := h.head
    rw [map_append, firstNode_append] at hfirst ⊢
    cases xs <;> exact hfirst
  · have hlast' := h.tail
    rw [map_append, lastNode_append] at hlast' ⊢
    exact hlast'
  · refine packed_append_cons.mpr ⟨?_, ?_⟩
    · exact packed_append_cons.mpr ⟨hpx, Nat.le_refl _⟩
    · exact ⟨by unfold Block.top; dsimp only; omega, hpy.2⟩

/-- A block at the top. -/
theorem mallocTop_spec (h : Intact endOfHeap s blocks) (hne : blocks ≠ []) (he : endOfHeap < 2 ^ 32)
    (hroom : s.brk + memSz < 2 ^ 32) (halign : memSz % 16 = 0) (hsize : size + 16 ≤ memSz) :
    Allocates endOfHeap s blocks size (mallocTop endOfHeap s memSz) := by
  have hbrk := h.brk_le
  have hbrk16 := h.brk_aligned
  have hpos := h.base_pos hne
  unfold mallocTop
  rw [sbrk_spec hroom (by omega)]
  by_cases hfits : s.brk + memSz ≤ endOfHeap
  · rw [if_pos hfits]
    dsimp only
    have hok : s.brk ≠ sbrkFailed := by unfold sbrkFailed; omega
    rw [if_neg hok, newHeader_eq hroom (by omega), u32_of_lt (by omega)]
    have happend := h
    rw [← append_nil blocks] at happend
    have hins := @Intact.insert blocks [] ⟨s.brk, memSz - 16⟩ endOfHeap s
      { s with mem := Lib.setNext (Function.update s.mem s.brk
                ⟨(Block.mk s.brk (memSz - 16)).node.2, s.tail, 0⟩) s.tail s.brk,
               brk := s.brk + memSz, tail := s.brk } happend ?_ ?_ ?_ ?_ hbrk16
                 (by dsimp only; omega) (by dsimp only; omega)
      h.base_aligned hpos hfits
    · rw [append_nil] at hins
      exact .inr ⟨rfl, blocks, ⟨s.brk, memSz - 16⟩, [], by rw [append_nil], hins.1, rfl,
        by dsimp only; omega, hins.2⟩
    · unfold Lib.linkNode
      rw [Lib.linkEnd_of_ne_nil (by simpa using hne), h.tail]
      rfl
    · rw [map_append, firstNode_append]
      cases blocks with
      | nil => exact absurd rfl hne
      | cons b rest => exact h.head
    · rw [map_append, lastNode_append]
      rfl
    · exact packed_append_cons.mpr ⟨h.packed, by unfold Packed Block.top; dsimp only; omega⟩
  · rw [if_neg hfits]
    dsimp only
    rw [if_pos rfl]
    exact .inl ⟨rfl, h, rfl⟩

/-- `malloc` on an intact heap returns. -/
theorem malloc_spec (h : Intact endOfHeap s blocks) (he : endOfHeap < 2 ^ 32) (hfree : s.locked = false)
    {size : ℕ} (hroom : s.brk + size + 32 ≤ 2 ^ 32) :
    ∃ result : ℕ × Heap, malloc endOfHeap s size = (some result.1, result.2) ∧
      Allocates endOfHeap s blocks size result := by
  obtain ⟨halign, hlow, hhigh⟩ := @memSize_spec size (by omega)
  unfold malloc
  rw [hfree, if_neg (by decide)]
  by_cases hhead : s.head = 0
  · obtain rfl := h.head_eq_zero hhead
    rw [if_pos hhead]
    exact ⟨_, rfl, mallocFirst_spec h he (by omega) halign hlow⟩
  · rw [if_neg hhead]
    have hle := h.packed.le
    rw [u32_of_lt (by omega)]
    have hne : blocks ≠ [] := by
      rintro rfl
      exact hhead h.head
    obtain ⟨c, ys, rfl⟩ := exists_cons_of_ne_nil hne
    by_cases hbottom : s.base + memSize size < s.head
    · rw [if_pos hbottom]
      exact ⟨_, rfl, mallocBottom_spec h he hbottom halign hlow⟩
    · rw [if_neg hbottom]
      have hlength := h.packed.length_le
      have hturns : (c :: ys).length < lineCount := by unfold lineCount; omega
      rw [h.head]
      rcases heapMemFit_spec (by omega) (c :: ys) lineCount 0 h.linked h.packed (fun b hb => h.hdr_pos hb)
        hturns with hnone | ⟨xs, b, c', ys', heq, hgap, hfound⟩
      · rw [hnone]
        dsimp only
        rw [if_neg (by simp)]
        exact ⟨_, rfl, mallocTop_spec h hne he (by omega) halign hlow⟩
      · have hb : 0 < b.hdr := h.hdr_pos (by rw [heq]; simp)
        rw [hfound]
        dsimp only
        rw [if_pos (Nat.ne_of_gt hb)]
        rw [heq] at h ⊢
        exact ⟨_, rfl, mallocAfter_spec h he hgap halign hlow⟩

end

end Ps2sdk.Alloc
