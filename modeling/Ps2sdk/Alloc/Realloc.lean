import Ps2sdk.Alloc.Free

/-!
# memalign and realloc

`memalign` asks `malloc` for a block with room for the alignment. When its data is not aligned, the header
moves up to the aligned address. `do_realloc` changes the size in the header where the block can stay, and
otherwise takes a new block, copies the data and frees the old one.
-/

namespace Ps2sdk.Alloc

open Lib (Seg firstNode lastNode firstNode_append lastNode_append)

open Function List

/-- The last of the blocks gets a link exactly when there is one. -/
theorem linkEnd_blocks {xs : List Block} (hpos : ∀ c ∈ xs, 0 < c.hdr) (mem : ℕ → Line) (n : ℕ) :
    (if lastNode 0 (xs.map Block.node) ≠ 0 then Lib.setNext mem (lastNode 0 (xs.map Block.node)) n else mem) =
      Lib.linkEnd mem 0 (xs.map Block.node) n := by
  by_cases hxs : xs = []
  · subst hxs
    rfl
  · have hmap : xs.map Block.node ≠ [] := by simpa using hxs
    obtain ⟨c, hc, heq⟩ := mem_headers.mp (Lib.lastNode_mem (p := 0) hmap)
    rw [Lib.linkEnd_of_ne_nil hmap, if_pos (by rw [heq]; exact Nat.ne_of_gt (hpos c hc))]

theorem linkStart_blocks {ys : List Block} (hpos : ∀ c ∈ ys, 0 < c.hdr) (mem : ℕ → Line) (p : ℕ) :
    (if firstNode (ys.map Block.node) 0 ≠ 0 then Lib.setPrev mem (firstNode (ys.map Block.node) 0) p else mem) =
      Lib.linkStart mem p (ys.map Block.node) 0 := by
  cases ys with
  | nil => rfl
  | cons c rest => exact if_pos (Nat.ne_of_gt (hpos c mem_cons_self))

section

variable {endOfHeap : ℕ} {s : Heap} {xs ys : List Block} {b : Block}

section

variable (h : Intact endOfHeap s (xs ++ b :: ys))
include h

/-- The head of the list follows a block that moves. -/
theorem Intact.head_moved (b' : Block) :
    (if s.head = b.hdr then b'.hdr else s.head) = firstNode ((xs ++ b' :: ys).map Block.node) 0 := by
  have hhead := h.head
  cases xs with
  | nil => exact if_pos hhead
  | cons c rest =>
    have hlt := (h.packed.2.mem (show b ∈ rest ++ b :: ys by simp)).1
    have hc : s.head = c.hdr := hhead
    rw [if_neg (by unfold Block.top at hlt; omega), hc]
    rfl

/-- The tail of the list follows a block that moves. -/
theorem Intact.tail_moved (b' : Block) :
    (if s.tail = b.hdr then b'.hdr else s.tail) = lastNode 0 ((xs ++ b' :: ys).map Block.node) := by
  have htail := h.tail
  rw [map_append, lastNode_append] at htail ⊢
  cases ys with
  | nil => exact if_pos htail
  | cons c rest =>
    have hlast : s.tail ∈ ((c :: rest).map Block.node).map Prod.fst := by
      rw [htail]
      exact Lib.lastNode_mem (p := b.hdr) (by simp)
    obtain ⟨d, hd, heq⟩ := mem_headers.mp hlast
    have hlt := ((packed_append_cons.mp h.packed).2.mem hd).1
    rw [if_neg (by unfold Block.top at hlt; omega), htail]
    rfl

/-- An address in the data of a block is no header of the others. -/
theorem Intact.inside_not_header {a : ℕ} (hlow : b.hdr < a)
    (hhigh : a < b.top) : a ∉ (xs.map Block.node).map Prod.fst ∧ a ∉ (ys.map Block.node).map Prod.fst := by
  obtain ⟨hpx, hpy⟩ := packed_append_cons.mp h.packed
  refine ⟨fun hmem => ?_, fun hmem => ?_⟩
  · obtain ⟨c, hc, rfl⟩ := mem_headers.mp hmem
    have hle := (hpx.mem hc).2
    unfold Block.top at hle
    omega
  · obtain ⟨c, hc, rfl⟩ := mem_headers.mp hmem
    have hle := (hpy.mem hc).1
    omega

theorem Intact.sides_apart : ∀ a ∈ (xs.map Block.node).map Prod.fst, a ∉ (ys.map Block.node).map Prod.fst := by
  have hnodup := h.packed.nodup
  rw [map_append, map_append, nodup_append] at hnodup
  exact fun a ha hmem => hnodup.2.2 a ha a (mem_cons_of_mem _ hmem) rfl

/-- A block becomes one inside it, with its header further up. -/
theorem Intact.move {b' : Block} {s' : Heap} (cell cell' : Line)
    (hlow : b.hdr < b'.hdr) (htop : b'.top ≤ b.top) (haligned : b'.hdr % 16 = 0 ∧ b'.size % 16 = 0)
    (hmem : s'.mem = update (Lib.linkStart (Lib.linkEnd (update (update s.mem b.hdr cell)
      b'.hdr cell') 0 (xs.map Block.node) b'.hdr) b'.hdr (ys.map Block.node) 0) b'.hdr
      ⟨b'.node.2, lastNode 0 (xs.map Block.node), firstNode (ys.map Block.node) 0⟩)
    (hhead : s'.head = if s.head = b.hdr then b'.hdr else s.head)
    (htail : s'.tail = if s.tail = b.hdr then b'.hdr else s.tail) (hbrk : s'.brk = s.brk)
    (hbase : s'.base = s.base) :
    Intact endOfHeap s' (xs ++ b' :: ys) ∧ SameData s.mem s'.mem (xs ++ ys) := by
  have hpos := h.base_pos (by simp)
  obtain ⟨hpx, hpy⟩ := packed_append_cons.mp h.packed
  have hlinked := h.linked
  rw [map_append, map_cons, Lib.seg_append, Seg] at hlinked
  obtain ⟨hnotX, hnotY⟩ := h.inside_not_header hlow
    (Nat.lt_of_lt_of_le (show b'.hdr < b'.top by unfold Block.top; omega) htop)
  have hnode := @Lib.linkNode_cell_last ℕ Body _ 0 0 (xs.map Block.node) (ys.map Block.node)
    (update s.mem b.hdr cell) b'.node cell' hnotX hnotY h.sides_apart
  replace hmem := hmem.trans hnode
  -- The old header is no header of the other blocks, so it does not matter what becomes of it.
  have hold : ∀ a, (∀ c ∈ xs ++ b :: ys, a ≠ c.hdr) → update s.mem b.hdr cell a = s.mem a :=
    fun a ha => update_of_ne (ha b (by simp)) _ _
  have hnodup := h.packed.nodup
  rw [map_append, map_append, nodup_append, map_cons, map_cons, nodup_cons] at hnodup
  have hseg : Seg (update s.mem b.hdr cell) 0 (xs.map Block.node) b.hdr :=
    hlinked.1.congr fun a ha => update_of_ne (hnodup.2.2 a ha _ mem_cons_self) _ _
  have hseg' : Seg (update s.mem b.hdr cell) b.hdr (ys.map Block.node) 0 :=
    hlinked.2.2.congr fun a ha => update_of_ne (ne_of_mem_of_not_mem ha hnodup.2.1.1) _ _
  have hmoved := Intact.linkNode hseg hseg' (forall_mem_insert (fun c hc => h.aligned c (mem_insert hc)) haligned)
    hmem (hhead.trans (h.head_moved b')) (htail.trans (h.tail_moved b')) ?_ (hbrk ▸ h.brk_aligned)
    (hbase ▸ h.base_aligned) (hbase ▸ hpos) (hbrk ▸ h.brk_le)
  · refine ⟨hmoved.1, ((h.packed.sameData hold).mono fun c hc => mem_insert hc).trans hmoved.2⟩
  · rw [hbase, hbrk]
    exact packed_append_cons.mpr ⟨hpx.mono (Nat.le_refl _) (Nat.le_of_lt hlow), hpy.mono htop (Nat.le_refl _)⟩

end

theorem dvd_two_pow {k : ℕ} (hk : 16 < 2 ^ k) : 16 ∣ 2 ^ k := by
  have hk4 : 4 ≤ k := by
    by_contra hlt
    have hle := Nat.pow_le_pow_right (show 0 < 2 by omega) (show k ≤ 3 by omega)
    omega
  exact Nat.pow_dvd_pow 2 hk4

/-- The header of a block moves up to the aligned address. -/
theorem moveHeader_spec (h : Intact endOfHeap s (xs ++ b :: ys)) (he : endOfHeap < 2 ^ 32) {k : ℕ}
    (hk : 16 < 2 ^ k) (hsize : 2 ^ k ≤ b.size) (hne : b.data % 2 ^ k ≠ 0) :
    ∃ b' : Block, (moveHeader s b.data (2 ^ k)).1 = b'.data ∧ b'.data % 2 ^ k = 0 ∧ b'.size = b.size - 2 ^ k ∧
      Intact endOfHeap (moveHeader s b.data (2 ^ k)).2 (xs ++ b' :: ys) ∧
      SameData s.mem (moveHeader s b.data (2 ^ k)).2.mem (xs ++ ys) ∧
      (moveHeader s b.data (2 ^ k)).2.locked = s.locked := by
  have hbrk := h.brk_le
  have hb := h.packed.mem (show b ∈ xs ++ b :: ys by simp)
  have hb16 := h.aligned b (by simp)
  unfold Block.top at hb
  obtain ⟨hmod, hlow, hhigh⟩ := @alignUp_spec b.data k (by unfold Block.data; omega)
  obtain ⟨m, hm⟩ := dvd_two_pow hk
  have hmod16 : alignUp b.data (2 ^ k) % 16 = 0 :=
    Nat.mod_eq_zero_of_dvd (Nat.dvd_trans (dvd_two_pow hk) (Nat.dvd_of_mod_eq_zero hmod))
  have hstrict : b.data ≠ alignUp b.data (2 ^ k) := fun heq => hne (heq ▸ hmod)
  have hline := h.line
  have hposX : ∀ c ∈ xs, 0 < c.hdr := fun c hc => h.hdr_pos (mem_append_left _ hc)
  have hposY : ∀ c ∈ ys, 0 < c.hdr := fun c hc =>
    h.hdr_pos (mem_append_right _ (mem_cons_of_mem _ hc))
  unfold Block.data at hlow hhigh hmod16 hstrict hmod
  have hold : sub32 (b.hdr + 16) 16 = b.hdr := by unfold sub32 u32; omega
  have hcur : sub32 (alignUp (b.hdr + 16) (2 ^ k)) 16 = alignUp (b.hdr + 16) (2 ^ k) - 16 :=
    sub32_of_le (by omega) (by omega)
  have hless : sub32 b.size (2 ^ k) = b.size - 2 ^ k := sub32_of_le hsize (by omega)
  unfold moveHeader Block.data
  dsimp only
  rw [hold, hline]
  rw [hless, hcur]
  generalize alignUp (b.hdr + 16) (2 ^ k) = ptr at *
  obtain ⟨cur, rfl⟩ : ∃ cur, ptr = cur + 16 := ⟨ptr - 16, by omega⟩
  rw [Nat.add_sub_cancel, linkEnd_blocks hposX, linkStart_blocks hposY]
  obtain ⟨hnotX, hnotY⟩ := h.inside_not_header (a := cur) (by omega) (by unfold Block.top; omega)
  rw [Lib.linkStart_of_notMem hnotY, Lib.linkEnd_of_notMem hnotX, update_self]
  refine ⟨⟨cur, b.size - 2 ^ k⟩, rfl, hmod, rfl, and_assoc.mp ⟨?_, rfl⟩⟩
  exact h.move _ _ (by dsimp only; omega) (by unfold Block.top; dsimp only; omega) (by dsimp only; omega)
    rfl rfl rfl rfl rfl

/-- `memalign` on an intact heap returns an aligned block. -/
theorem memalign_spec {blocks : List Block} (h : Intact endOfHeap s blocks) (he : endOfHeap < 2 ^ 32)
    (hfree : s.locked = false) {k size : ℕ} (hroom : s.brk + size + 2 ^ k + 32 ≤ 2 ^ 32) :
    ∃ result : ℕ × Heap, memalign endOfHeap s (2 ^ k) size = (some result.1, result.2) ∧
      Allocates endOfHeap s blocks size result ∧ result.1 % 2 ^ k = 0 := by
  have hpow := Nat.two_pow_pos k
  unfold memalign
  by_cases hk : 2 ^ k ≤ 16
  · rw [if_pos hk]
    obtain ⟨result, heq, halloc⟩ := @malloc_spec endOfHeap s blocks h he hfree size (by omega)
    refine ⟨result, heq, halloc, ?_⟩
    rcases halloc with ⟨hzero, -⟩ | ⟨-, xs, b, ys, -, hintact, hdata, -⟩
    · rw [hzero, Nat.zero_mod]
    · have hb16 := hintact.aligned b (by simp)
      have hdvd : 2 ^ k ∣ 16 := Nat.pow_dvd_pow 2 (show k ≤ 4 from (Nat.pow_le_pow_iff_right (by omega)).mp hk)
      rw [hdata]
      refine Nat.mod_eq_zero_of_dvd (Nat.dvd_trans hdvd (Nat.dvd_of_mod_eq_zero ?_))
      unfold Block.data
      omega
  · rw [if_neg hk, u32_of_lt (by omega)]
    obtain ⟨result, heq, halloc⟩ := @malloc_spec endOfHeap s blocks h he hfree (size + 2 ^ k) (by omega)
    rw [heq]
    dsimp only
    rcases halloc with ⟨hzero, hsame⟩ | ⟨hlocked, xs, b, ys, rfl, hintact, hdata, hsize, hothers⟩
    · rw [if_pos hzero]
      exact ⟨(0, result.2), rfl, .inl ⟨rfl, hsame⟩, Nat.zero_mod _⟩
    · rw [hdata, if_neg b.data_ne_zero, Nat.and_two_pow_sub_one_eq_mod]
      by_cases halign : b.data % 2 ^ k = 0
      · rw [if_pos halign]
        exact ⟨(b.data, result.2), rfl,
          .inr ⟨hlocked, xs, b, ys, rfl, hintact, rfl, by omega, hothers⟩, halign⟩
      · rw [if_neg halign]
        obtain ⟨b', hptr, hmod, hsize', hmoved, hsame, hlocked'⟩ :=
          moveHeader_spec hintact he (Nat.lt_of_not_le hk) (by omega) halign
        refine ⟨moveHeader result.2 b.data (2 ^ k), rfl, .inr ⟨hlocked'.trans hlocked, xs, b', ys, rfl, hmoved,
          hptr, by omega, hothers.trans hsame⟩, hptr ▸ hmod⟩

end

section

variable {endOfHeap : ℕ} {s : Heap} {xs ys : List Block} {b : Block}

/-- Writes to the data of a block leave the list alone, and the data of the other blocks. -/
theorem Intact.write {blocks : List Block} (h : Intact endOfHeap s blocks) (hb : b ∈ blocks) {mem : ℕ → Line}
    (hmem : ∀ a, ¬(b.data ≤ a ∧ a < b.top) → mem a = s.mem a) :
    Intact endOfHeap { s with mem := mem } blocks ∧ ∀ c ∈ blocks, c ≠ b → SameData s.mem mem [c] := by
  refine ⟨⟨h.linked.congr fun a ha => ?_, h.head, h.tail, h.packed, h.aligned, h.brk_aligned, h.base_aligned,
    h.brk_pos, h.brk_le, h.based⟩, ?_⟩
  · obtain ⟨c, hc, rfl⟩ := mem_headers.mp ha
    exact hmem _ fun hin => h.packed.not_header hb hc hin.1 hin.2 rfl
  · intro c hc hne d hd a hlow hhigh
    obtain rfl := List.mem_singleton.mp hd
    refine hmem a fun hin => ?_
    have hapart := h.packed.apart hc hb hne
    unfold Block.data Block.top at *
    omega

/-- The size in a header changes. -/
theorem Intact.setSize (h : Intact endOfHeap s (xs ++ b :: ys)) {size brk : ℕ} (halign : size % 16 = 0)
    (hpacked : Packed s.base (xs ++ ⟨b.hdr, size⟩ :: ys) brk) (hbrk : brk % 16 = 0) (hle : brk ≤ endOfHeap) :
    Intact endOfHeap (Alloc.setSize { s with brk := brk } b.hdr size) (xs ++ ⟨b.hdr, size⟩ :: ys) := by
  have hlinked := h.linked
  have hnodup := h.packed.nodup
  have hpos := h.base_pos (by simp)
  have haligned : ∀ c ∈ xs ++ ⟨b.hdr, size⟩ :: ys, c.hdr % 16 = 0 ∧ c.size % 16 = 0 :=
    forall_mem_insert (fun c hc => h.aligned c (mem_insert hc)) ⟨(h.aligned b (by simp)).1, halign⟩
  refine ⟨?_, ?_, ?_, hpacked, haligned, hbrk, h.base_aligned, Nat.lt_of_lt_of_le hpos hpacked.le, hle, ?_⟩
  · rw [List.map_append, List.map_cons] at hlinked hnodup ⊢
    have hset := Lib.seg_setBody hlinked hnodup ⟨b.hdr + 16, size⟩
    unfold Alloc.setSize
    dsimp only
    rw [show (s.mem b.hdr).body.ptr = b.hdr + 16 by rw [h.line]]
    exact hset
  · have hhead := h.head
    rw [List.map_append, firstNode_append] at hhead ⊢
    exact hhead
  · have htail := h.tail
    rw [List.map_append, lastNode_append] at htail ⊢
    exact htail
  · exact fun hzero => absurd hzero (Nat.ne_of_gt hpos)

/-- What `realloc` of a block to a size does: it fails and changes nothing, or there is a block of the size
in its place with the same first bytes. -/
def Reallocates (endOfHeap : ℕ) (s : Heap) (xs : List Block) (b : Block) (ys : List Block) (size : ℕ)
    (result : ℕ × Heap) : Prop :=
  (result.1 = 0 ∧ Intact endOfHeap result.2 (xs ++ b :: ys) ∧ result.2.mem = s.mem) ∨
    (result.2.locked = s.locked ∧ ∃ front b' back, front ++ back = xs ++ ys ∧
      Intact endOfHeap result.2 (front ++ b' :: back) ∧ result.1 = b'.data ∧ size ≤ b'.size ∧
      SameData s.mem result.2.mem (xs ++ ys) ∧
      ∀ i < min b.size size, result.2.mem (b'.data + i) = s.mem (b.data + i))

/-- A block stays where it is and has another size. -/
theorem reallocates_in_place (h : Intact endOfHeap s (xs ++ b :: ys)) {size size' brk : ℕ} (hsize : size ≤ size')
    (halign : size' % 16 = 0) (hpacked : Packed s.base (xs ++ ⟨b.hdr, size'⟩ :: ys) brk) (hbrk : brk % 16 = 0)
    (hle : brk ≤ endOfHeap) :
    Reallocates endOfHeap s xs b ys size (b.data, setSize { s with brk := brk } b.hdr size') := by
  have hset := h.setSize halign hpacked hbrk hle
  have hmem : ∀ a, a ≠ b.hdr → (setSize { s with brk := brk } b.hdr size').mem a = s.mem a :=
    fun a ha => Function.update_of_ne ha _ _
  refine .inr ⟨rfl, xs, ⟨b.hdr, size'⟩, ys, rfl, hset, rfl, hsize, ?_, fun i _ => ?_⟩
  · have hall : SameData s.mem (setSize { s with brk := brk } b.hdr size').mem (xs ++ b :: ys) :=
      h.packed.sameData fun a ha => hmem a (ha b (by simp))
    exact hall.mono fun c hc => mem_insert hc
  · exact hmem _ (by unfold Block.data; dsimp only; omega)

/-- A block shrinks. -/
theorem shrink_spec (h : Intact endOfHeap s (xs ++ b :: ys)) (he : endOfHeap < 2 ^ 32) {size size' : ℕ}
    (hsize : size ≤ size') (halign : size' % 16 = 0) (hle : size' ≤ b.size) :
    Reallocates endOfHeap s xs b ys size (b.data, shrink endOfHeap s b.data size' b.hdr) := by
  obtain ⟨hpx, hpy⟩ := packed_append_cons.mp h.packed
  have hbrk := h.brk_le
  have hb := (h.packed.mem (show b ∈ xs ++ b :: ys by simp)).2
  have hb16 := h.aligned b (by simp)
  unfold Block.top at hb
  unfold shrink
  rw [h.line]
  cases ys with
  | nil =>
    have hdown : sub32 (u32 (b.data + size')) s.brk = sub32 0 (s.brk - (b.data + size')) := by
      unfold sub32 u32 Block.data
      omega
    rw [show firstNode (([] : List Block).map Block.node) 0 = 0 from rfl, if_pos rfl, hdown,
      sbrk_down (Nat.sub_le _ _) (by omega) hbrk]
    refine reallocates_in_place h hsize halign (packed_append_cons.mpr ⟨hpx, ?_⟩) ?_ (by omega)
    · unfold Packed Block.top Block.data
      dsimp only
      omega
    · unfold Block.data
      omega
  | cons c rest =>
    have hc := h.hdr_pos (show c ∈ xs ++ b :: c :: rest by simp)
    rw [show firstNode ((c :: rest).map Block.node) 0 = c.hdr from rfl, if_neg (Nat.ne_of_gt hc)]
    refine reallocates_in_place h hsize halign (packed_append_cons.mpr ⟨hpx, ?_⟩) h.brk_aligned hbrk
    exact hpy.mono (by unfold Block.top; dsimp only; omega) (Nat.le_refl _)

/-- A new block among the blocks, and an old one of them. -/
theorem insert_split {xs ys front back : List Block} {b b' : Block} (h : xs ++ b :: ys = front ++ back) :
    ∃ before behind front' back', front ++ b' :: back = before ++ b :: behind ∧
      before ++ behind = front' ++ b' :: back' ∧ front' ++ back' = xs ++ ys := by
  rcases List.append_eq_append_iff.mp h with ⟨as, rfl, hback⟩ | ⟨cs, rfl, rfl⟩
  · cases as with
    | nil => exact ⟨xs ++ [b'], ys, xs, ys, by simp_all, by simp, rfl⟩
    | cons d as =>
      obtain ⟨rfl, rfl⟩ := List.cons.inj hback
      exact ⟨xs, as ++ b' :: back, xs ++ as, back, by simp, by simp, by simp⟩
  · exact ⟨front ++ b' :: cs, ys, front, cs ++ ys, by simp, by simp, by simp⟩

/-- The data of a block moves to a new block, and the old one is freed. -/
theorem moveBlock_spec (h : Intact endOfHeap s (xs ++ b :: ys)) (he : endOfHeap < 2 ^ 32)
    (hfree : s.locked = false) {size size' k : ℕ} (hsize : size ≤ size') (hlarge : b.size ≤ size')
    (hroom : s.brk + size' + 2 ^ k + 32 ≤ 2 ^ 32) :
    ∃ final : ℕ × Heap, moveBlock endOfHeap s b.data size' (2 ^ k) = (some final.1, final.2) ∧
      Reallocates endOfHeap s xs b ys size final := by
  have hb := (h.packed.mem (show b ∈ xs ++ b :: ys by simp)).2
  have hbrk := h.brk_le
  have hprev : sub32 b.data 16 = b.hdr := by
    unfold sub32 u32 Block.data
    unfold Block.top at hb
    omega
  obtain ⟨result, hresult, halloc, -⟩ := memalign_spec h he hfree hroom
  unfold moveBlock
  rw [hresult, hprev]
  dsimp only
  rcases halloc with ⟨hzero, hsame⟩ | ⟨hlocked, front, new, back, heq, hintact, hptr, hnew, hothers⟩
  · exact ⟨(0, result.2), if_pos hzero, .inl ⟨rfl, hsame⟩⟩
  · obtain ⟨before, behind, front', back', hsplit, hrest, hblocks⟩ := @insert_split xs ys front back b new heq
    have hold := hintact
    rw [hsplit] at hold
    rw [hptr, if_neg new.data_ne_zero, hold.line]
    -- The copy writes to the data of the new block only.
    have hcopy : ∀ a, ¬(new.data ≤ a ∧ a < new.top) →
        copyLines result.2.mem new.data b.data b.size a = result.2.mem a := by
      intro a ha
      refine if_neg fun hin => ha ⟨hin.1, ?_⟩
      unfold Block.data Block.top at *
      omega
    have hwritten := hold.write (show new ∈ before ++ b :: behind by rw [← hsplit]; simp) hcopy
    obtain ⟨s', hfreed, hintact', hsame', hlocked', -⟩ := free_spec hwritten.1 he (hlocked.trans hfree)
    rw [hfreed]
    refine ⟨(new.data, s'), rfl, .inr ⟨hlocked'.trans hlocked, front', new, back', hblocks, hrest ▸ hintact', rfl,
      Nat.le_trans hsize hnew, ?_, ?_⟩⟩
    · intro c hc a hlow hhigh
      have hmem : c ∈ before ++ behind := by rw [hrest]; exact mem_insert (hblocks ▸ hc)
      have hne : c ≠ new := (hrest ▸ hintact'.packed).ne_middle (hblocks ▸ hc)
      have hcopied := hwritten.2 c (mem_insert hmem) hne c (List.mem_singleton.mpr rfl) a hlow hhigh
      exact (hsame' c hmem a hlow hhigh).trans (hcopied.trans (hothers c (mem_insert hc) a hlow hhigh))
    · intro i hi
      rw [hsame' new (by rw [hrest]; simp) _ (Nat.le_add_right _ _) (by unfold Block.data Block.top; omega)]
      dsimp only
      unfold copyLines
      rw [if_pos ⟨Nat.le_add_right _ _, by omega⟩, Nat.add_sub_cancel_left]
      exact hothers b (by simp) _ (Nat.le_add_right _ _) (by unfold Block.data Block.top; omega)

theorem roundSize_spec {size k : ℕ} (h : size + 2 ^ k ≤ 2 ^ 32) (hk : 16 ∣ 2 ^ k) :
    size ≤ roundSize size (2 ^ k) ∧ roundSize size (2 ^ k) < size + 2 ^ k ∧ roundSize size (2 ^ k) % 16 = 0 := by
  obtain ⟨hmod, hlow, hhigh⟩ := alignUp_spec h
  unfold roundSize
  rw [Nat.and_two_pow_sub_one_eq_mod]
  by_cases hzero : size % 2 ^ k = 0
  · rw [if_neg (by simpa using hzero)]
    exact ⟨Nat.le_refl _, by omega, Nat.mod_eq_zero_of_dvd (Nat.dvd_trans hk (Nat.dvd_of_mod_eq_zero hzero))⟩
  · rw [if_pos hzero]
    exact ⟨hlow, hhigh, Nat.mod_eq_zero_of_dvd (Nat.dvd_trans hk (Nat.dvd_of_mod_eq_zero hmod))⟩

/-- The last block grows with the heap. -/
theorem growLast_spec (h : Intact endOfHeap s (xs ++ [b])) {size size' : ℕ}
    (hsize : size ≤ size') (halign : size' % 16 = 0) (hlarge : b.size < size') (hroom : s.brk + size' < 2 ^ 32) :
    ∃ result : ℕ × Heap, growLast endOfHeap s b.data size' b.hdr (size' - b.size) = (some result.1, result.2) ∧
      Reallocates endOfHeap s xs b [] size result := by
  have hpx := (packed_append_cons.mp h.packed).1
  have hbrk16 := h.brk_aligned
  have hb := (h.packed.mem (show b ∈ xs ++ [b] by simp)).2
  have hb16 := h.aligned b (by simp)
  unfold Block.top at hb
  unfold growLast
  rw [sbrk_spec (by omega) (by omega)]
  by_cases hfits : s.brk + (size' - b.size) ≤ endOfHeap
  · have hok : s.brk ≠ sbrkFailed := by unfold sbrkFailed; omega
    rw [if_pos hfits]
    dsimp only
    rw [if_neg hok]
    refine ⟨_, rfl, reallocates_in_place h hsize halign (packed_append_cons.mpr ⟨hpx, ?_⟩) (by omega) hfits⟩
    unfold Packed Block.top
    dsimp only
    omega
  · rw [if_neg hfits]
    dsimp only
    rw [if_pos rfl]
    refine ⟨(0, { s with locked := true }), rfl, .inl ⟨rfl, ?_, rfl⟩⟩
    exact ⟨h.linked, h.head, h.tail, h.packed, h.aligned, h.brk_aligned, h.base_aligned, h.brk_pos, h.brk_le,
      h.based⟩

/-- `do_realloc` of a block to a size that is not zero. -/
theorem resize_spec (h : Intact endOfHeap s (xs ++ b :: ys)) (he : endOfHeap < 2 ^ 32) (hfree : s.locked = false)
    {size size' k : ℕ} (hsize : size ≤ size') (halign : size' % 16 = 0)
    (hroom : s.brk + size' + 2 ^ k + 32 ≤ 2 ^ 32) :
    ∃ result : ℕ × Heap, resize endOfHeap s b.data size' (2 ^ k) b.hdr = (some result.1, result.2) ∧
      Reallocates endOfHeap s xs b ys size result := by
  have hpow := Nat.two_pow_pos k
  obtain ⟨hpx, hpy⟩ := packed_append_cons.mp h.packed
  have hbrk := h.brk_le
  have hb16 := h.aligned b (by simp)
  unfold resize
  rw [h.line, hfree, if_neg (by decide)]
  dsimp only
  by_cases hshrink : size' ≤ b.size
  · rw [if_pos hshrink]
    exact ⟨_, rfl, shrink_spec h he hsize halign hshrink⟩
  · rw [if_neg hshrink]
    cases ys with
    | nil =>
      rw [show firstNode (([] : List Block).map Block.node) 0 = 0 from rfl, if_pos rfl,
        sub32_of_le (by omega) (by omega)]
      exact growLast_spec h hsize halign (by omega) (by omega)
    | cons c rest =>
      have hc := h.hdr_pos (show c ∈ xs ++ b :: c :: rest by simp)
      have hc16 := h.aligned c (by simp)
      have hctop := (h.packed.mem (show c ∈ xs ++ b :: c :: rest by simp)).2
      have hbc := hpy.1
      unfold Block.top at hctop hbc
      have hnext : (s.mem c.hdr).body.ptr = c.hdr + 16 := by
        have hsplit := h
        rw [show xs ++ b :: c :: rest = (xs ++ [b]) ++ c :: rest by simp] at hsplit
        rw [hsplit.line]
      have hgap : sub32 (c.hdr + 16) b.data = c.hdr - b.hdr := by unfold sub32 u32 Block.data; omega
      rw [show firstNode ((c :: rest).map Block.node) 0 = c.hdr from rfl, if_neg (Nat.ne_of_gt hc), hnext, hgap]
      by_cases hfits : size' < c.hdr - b.hdr
      · rw [if_pos hfits]
        refine ⟨(b.data, setSize { s with brk := s.brk } b.hdr size'), rfl,
          reallocates_in_place h hsize halign (packed_append_cons.mpr ⟨hpx, ?_⟩) h.brk_aligned hbrk⟩
        exact ⟨by unfold Block.top; dsimp only; omega, hpy.2⟩
      · rw [if_neg hfits]
        exact moveBlock_spec h he hfree hsize (by omega) hroom

end

end Ps2sdk.Alloc
