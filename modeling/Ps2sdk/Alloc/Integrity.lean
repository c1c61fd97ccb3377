import Ps2sdk.Alloc.Realloc
import Ps2sdk.Lib.Run

/-!
# Programs that use the heap

A program calls the allocator with pointers it got from it and has not freed, and stores to the data of
its blocks. Along every such run the headers form the list of the blocks the program holds, as long as no
request reaches past the end of the address space from the break. The allocator of the IOP is that of the EE;
a request that fails keeps the semaphore when there are no blocks, or when it is the last block that cannot grow.
-/

namespace Ps2sdk.Alloc

open List Function Block

/-- The heap and the pointers that a program holds. -/
structure Client where
  heap : Heap
  live : List ℕ

/-- A call of a program that requests memory, with the size and the alignment. -/
def Call.request : Call → Option (ℕ × ℕ)
  | .malloc size => some (size, 16)
  | .calloc n size => some (n * size, 16)
  | .realloc _ size => some (size, 16)
  | .realloc64 _ size => some (size, 64)
  | .memalign align size => some (size, align)
  | .free _ => none
  | .store _ _ => none

/-- The pointer of a block that a call takes. -/
def Call.pointer : Call → Option ℕ
  | .realloc ptr _ => some ptr
  | .realloc64 ptr _ => some ptr
  | .free ptr => some ptr
  | _ => none

/-- The address that a store writes to. -/
def Call.address : Call → Option ℕ
  | .store addr _ => some addr
  | _ => none

/-- The pointers of a program after a call: a pointer that is not `NULL` replaces the one that was passed. -/
def Call.holds (live : List ℕ) : Call → Option ℕ → List ℕ
  | _, none => live
  | .store _ _, some _ => live
  | .free ptr, some _ => live.erase ptr
  | .realloc ptr size, some p => if p = 0 ∧ size ≠ 0 then live else (if p = 0 then [] else [p]) ++ live.erase ptr
  | .realloc64 ptr size, some p => if p = 0 ∧ size ≠ 0 then live else (if p = 0 then [] else [p]) ++ live.erase ptr
  | _, some p => if p = 0 then live else p :: live

/-- One call of a program. -/
def Client.step (endOfHeap : ℕ) (t : Client) (c : Call) : Option ℕ × Client :=
  let (result, heap) := Alloc.step endOfHeap t.heap c
  (result, ⟨heap, c.holds t.live result⟩)

/-- A program frees and reallocates only what it holds, stores to its own data, aligns to powers of two, and
asks for sizes that do not wrap around with their alignment and header. -/
def Client.Legal (t : Client) (c : Call) : Prop :=
  (∀ ptr ∈ c.pointer, ptr = 0 ∨ ptr ∈ t.live) ∧
    (∀ r ∈ c.request, r.2.isPowerOfTwo ∧ r.1 + r.2 + 32 < 2 ^ 32) ∧
    ∀ addr ∈ c.address, ∃ ptr ∈ t.live, ptr ≤ addr ∧ addr < ptr + (t.heap.mem (ptr - 16)).body.size

/-- Legal calls are decidable. -/
instance (t : Client) (c : Call) : Decidable (t.Legal c) := inferInstanceAs (Decidable (_ ∧ _ ∧ _))

/-- A request does not reach past the end of the address space from the break. -/
def Client.NoWrap (t : Client) (c : Call) : Prop :=
  ∀ r ∈ c.request, t.heap.brk + r.1 + 2 * r.2 + 32 ≤ 2 ^ 32

/-- Requests from the break are decidable. -/
instance (t : Client) (c : Call) : Decidable (t.NoWrap c) :=
  inferInstanceAs (Decidable (∀ r ∈ c.request, t.heap.brk + r.1 + 2 * r.2 + 32 ≤ 2 ^ 32))

/-- A call changes a block or its data by design. -/
def Call.Touches (b : Block) (c : Call) : Prop :=
  c.pointer = some b.data ∨ ∃ addr ∈ c.address, b.data ≤ addr ∧ addr < b.top

/-- The blocks of the heap are those that the program holds. -/
structure Holds (endOfHeap : ℕ) (t : Client) (blocks : List Block) : Prop where
  intact : Intact endOfHeap t.heap blocks
  live : t.live.Perm (blocks.map Block.data)

/-- What a call does to the blocks of the heap. -/
structure Outcome (endOfHeap : ℕ) (t : Client) (c : Call) (result : Option ℕ × Client)
    (blocks blocks' : List Block) : Prop where
  before : Holds endOfHeap t blocks
  after : Holds endOfHeap result.2 blocks'
  enough : ∀ r ∈ c.request, ∀ p, result.1 = some p → p ≠ 0 → ∃ b ∈ blocks', b.data = p ∧ r.1 ≤ b.size
  copied : ∀ r ∈ c.request, ∀ p, result.1 = some p → p ≠ 0 → ∀ b ∈ blocks, c.pointer = some b.data →
    ∀ i < min b.size r.1, result.2.heap.mem (p + i) = t.heap.mem (b.data + i)
  failed : ∀ r ∈ c.request, r.1 ≠ 0 → result.1 = some 0 → blocks' = blocks ∧ result.2.heap.mem = t.heap.mem
  others : ∀ b ∈ blocks, ¬c.Touches b → b ∈ blocks' ∧ SameData t.heap.mem result.2.heap.mem [b]

section

variable {endOfHeap : ℕ} {t : Client} {blocks : List Block}

variable {ptr size align : ℕ} {b : Block} {xs ys : List Block} {s : Heap}

section

variable (h : Holds endOfHeap t blocks)
include h

theorem Holds.split (hptr : ptr ∈ t.live) : ∃ xs b ys, blocks = xs ++ b :: ys ∧ b.data = ptr := by
  obtain ⟨b, hb, hdata⟩ := mem_map.mp (h.live.subset hptr)
  obtain ⟨xs, ys, hsplit⟩ := append_of_mem hb
  exact ⟨xs, b, ys, hsplit, hdata⟩

theorem Holds.zero_notMem : 0 ∉ t.live := fun hmem => by
  obtain ⟨b, -, hdata⟩ := mem_map.mp (h.live.subset hmem)
  exact b.data_ne_zero hdata

theorem Holds.data_inj {c : Block} (hb : b ∈ blocks) (hc : c ∈ blocks) (heq : b.data = c.data) : b = c := by
  by_contra hne
  have hapart := h.intact.packed.apart hb hc hne
  unfold data top at *
  omega

variable {c : Call}

/-- Nothing happens. -/
theorem Outcome.unchanged {result : Option ℕ} (hresult : result = none ∨ c.request = none) :
    Outcome endOfHeap t c (result, t) blocks blocks where
  before := h
  after := h
  enough r hr p hp := by
    rcases hresult with hnone | hnone
    · exact absurd (hnone.symm.trans hp) (by simp)
    · exact absurd (hnone.symm.trans hr) (by simp)
  copied r hr p hp := by
    rcases hresult with hnone | hnone
    · exact absurd (hnone.symm.trans hp) (by simp)
    · exact absurd (hnone.symm.trans hr) (by simp)
  failed _ _ _ _ := ⟨rfl, rfl⟩
  others b hb _ := ⟨hb, SameData.refl _ _⟩

theorem Outcome.failure {s' : Heap} (hintact : Intact endOfHeap s' blocks) (hmem : s'.mem = t.heap.mem) :
    Outcome endOfHeap t c (some 0, ⟨s', t.live⟩) blocks blocks where
  before := h
  after := ⟨hintact, h.live⟩
  enough _ _ _ hp hne := absurd (Option.some.inj hp).symm hne
  copied _ _ _ hp hne := absurd (Option.some.inj hp).symm hne
  failed _ _ _ _ := ⟨rfl, hmem⟩
  others _ hb _ := ⟨hb, fun _ _ a _ _ => congrFun hmem a⟩

/-- A call that requests memory and gets a new block among those it keeps. -/
theorem Outcome.success {s' : Heap} {live : List ℕ} (hrequest : c.request = some (size, align))
    (hlive : live.Perm ((xs ++ ys).map data)) (hintact : Intact endOfHeap s' (xs ++ b :: ys))
    (henough : size ≤ b.size) (hkept : ∀ d ∈ blocks, ¬c.Touches d → d ∈ xs ++ ys)
    (hsame : SameData t.heap.mem s'.mem (xs ++ ys)) (hcopied : ∀ d ∈ blocks, c.pointer = some d.data →
      ∀ i < min d.size size, s'.mem (b.data + i) = t.heap.mem (d.data + i)) :
    Outcome endOfHeap t c (some b.data, ⟨s', b.data :: live⟩) blocks (xs ++ b :: ys) := by
  have hsize : ∀ r ∈ c.request, r.1 = size := fun r hr => by
    rw [hrequest] at hr
    rw [← Option.some.inj hr]
  refine ⟨h, ⟨hintact, ?_⟩, ?_, ?_, ?_, fun d hd htouch => ?_⟩
  · rw [map_append] at hlive ⊢
    exact (List.Perm.cons _ hlive).trans perm_middle.symm
  · intro r hr p hp _
    exact ⟨b, by simp, Option.some.inj hp, (hsize r hr).symm ▸ henough⟩
  · intro r hr p hp _ d hd hdata i hi
    rw [hsize r hr] at hi
    rw [← Option.some.inj hp]
    exact hcopied d hd hdata i hi
  · intro r _ _ hzero
    have hdata := Option.some.inj hzero
    unfold data at hdata
    omega
  · have hold := hkept d hd htouch
    exact ⟨mem_insert hold, hsame.mono fun e he => mem_singleton.mp he ▸ hold⟩

/-- A call that takes no block and allocates one. -/
theorem Allocates.outcome {result : ℕ × Heap}
    (halloc : Allocates endOfHeap t.heap blocks size result) (hrequest : c.request = some (size, align))
    (hpointer : ∀ ptr ∈ c.pointer, ptr = 0)
    (hholds : c.holds t.live (some result.1) = if result.1 = 0 then t.live else result.1 :: t.live) :
    ∃ blocks', Outcome endOfHeap t c (some result.1, ⟨result.2, c.holds t.live (some result.1)⟩) blocks
      blocks' := by
  rw [hholds]
  rcases halloc with ⟨hzero, hintact, hmem⟩ | ⟨-, xs, b, ys, rfl, hintact, hptr, henough, hsame⟩
  · rw [hzero, if_pos rfl]
    exact ⟨blocks, Outcome.failure h hintact hmem⟩
  · rw [hptr, if_neg b.data_ne_zero]
    refine ⟨_, Outcome.success h hrequest h.live hintact henough (fun _ hd _ => hd) hsame fun d _ htake => ?_⟩
    exact absurd (hpointer _ htake) d.data_ne_zero

end

theorem perm_erase_data {live : List ℕ}
    (h : live.Perm ((xs ++ b :: ys).map data)) : (live.erase b.data).Perm ((xs ++ ys).map data) := by
  rw [map_append, map_cons] at h
  have hfront := (h.trans perm_middle).erase b.data
  rwa [erase_cons_head, ← map_append] at hfront

section

variable (h : Holds endOfHeap t (xs ++ b :: ys))
include h

theorem Holds.other {d : Block} (hd : d ∈ xs ++ b :: ys) (hne : d.data ≠ b.data) : d ∈ xs ++ ys := by
  rcases mem_append.mp hd with hd | hd
  · exact mem_append_left _ hd
  · rcases mem_cons.mp hd with rfl | hd
    · exact absurd rfl hne
    · exact mem_append_right _ hd

/-- A call that frees a block. -/
theorem Frees.outcome
    {s' : Heap} (hfrees : Frees endOfHeap t.heap (xs ++ ys) s') (hpointer : c.pointer = some b.data)
    (hzero : ∀ r ∈ c.request, r.1 = 0) (hholds : c.holds t.live (some 0) = t.live.erase b.data) :
    Outcome endOfHeap t c (some 0, ⟨s', c.holds t.live (some 0)⟩) (xs ++ b :: ys) (xs ++ ys) where
  before := h
  after := ⟨hfrees.1, hholds ▸ perm_erase_data h.live⟩
  enough r _ p hp hne := absurd (Option.some.inj hp).symm hne
  copied r _ p hp hne := absurd (Option.some.inj hp).symm hne
  failed r hr hne := absurd (hzero r hr) hne
  others d hd htouch := by
    have hother := h.other hd fun heq => htouch (.inl (hpointer.trans (congrArg some heq.symm)))
    exact ⟨hother, hfrees.2.1.mono fun e he => mem_singleton.mp he ▸ hother⟩

/-- A call that reallocates a block. -/
theorem Reallocates.outcome {result : ℕ × Heap} (hre : Reallocates endOfHeap t.heap xs b ys size result)
    (hrequest : c.request = some (size, align)) (hpointer : c.pointer = some b.data)
    (hholds : c.holds t.live (some result.1) =
      if result.1 = 0 then t.live else result.1 :: t.live.erase b.data) :
    ∃ blocks', Outcome endOfHeap t c (some result.1, ⟨result.2, c.holds t.live (some result.1)⟩)
      (xs ++ b :: ys) blocks' := by
  rw [hholds]
  rcases hre with ⟨hzero, hintact, hmem⟩ | ⟨-, front, b', back, hblocks, hintact, hptr, henough, hsame, hcopied⟩
  · rw [hzero, if_pos rfl]
    exact ⟨_, Outcome.failure h hintact hmem⟩
  · rw [hptr, if_neg b'.data_ne_zero]
    rw [← hblocks] at hsame
    refine ⟨_, Outcome.success h hrequest (hblocks ▸ perm_erase_data h.live) hintact henough (fun d hd htouch => ?_)
      hsame fun d hd hdata => ?_⟩
    · rw [hblocks]
      exact h.other hd fun heq => htouch (.inl (hpointer.trans (congrArg some heq.symm)))
    · obtain rfl := h.data_inj hd (by simp) (Option.some.inj (hdata.symm.trans hpointer))
      exact hcopied

end

/-- `calloc` clears data of its own block only. -/
theorem calloc_spec (h : Intact endOfHeap s blocks) (he : endOfHeap < 2 ^ 32) (hfree : s.locked = false)
    {n : ℕ} (hroom : s.brk + n * size + 32 ≤ 2 ^ 32) :
    ∃ result : ℕ × Heap, calloc endOfHeap s n size = (some result.1, result.2) ∧
      Allocates endOfHeap s blocks (n * size) result := by
  obtain ⟨result, heq, halloc⟩ := malloc_spec h he hfree hroom
  unfold calloc
  dsimp only
  rw [u32_of_lt (by omega), heq]
  dsimp only
  rcases halloc with ⟨hzero, hfailed⟩ | ⟨hlocked, xs, b, ys, rfl, hintact, hptr, henough, hsame⟩
  · rw [if_pos hzero]
    exact ⟨(0, result.2), rfl, .inl ⟨rfl, hfailed⟩⟩
  · have hb : b ∈ xs ++ b :: ys := by simp
    have hclear : ∀ a, ¬(b.data ≤ a ∧ a < b.top) → clearBytes result.2.mem b.data (n * size) a =
      result.2.mem a := by
      intro a ha
      refine if_neg fun hin => ha ⟨hin.1, ?_⟩
      unfold data top at *
      omega
    have hwritten := hintact.write hb hclear
    rw [hptr, if_neg b.data_ne_zero]
    refine ⟨(b.data, _), rfl, .inr ⟨hlocked, xs, b, ys, rfl, hwritten.1, rfl, henough, ?_⟩⟩
    exact hsame.trans fun d hd =>
      hwritten.2 d (mem_insert hd) (hintact.packed.ne_middle hd) d (mem_singleton.mpr rfl)

/-- A `malloc` that finds the semaphore taken does not return. -/
theorem malloc_locked (hlocked : s.locked = true) (size : ℕ) : malloc endOfHeap s size = (none, s) := by
  unfold malloc
  rw [hlocked, if_pos rfl]

/-- A `memalign` that finds the semaphore taken does not return. -/
theorem memalign_locked (hlocked : s.locked = true) (align size : ℕ) :
    memalign endOfHeap s align size = (none, s) := by
  unfold memalign
  rw [malloc_locked hlocked, malloc_locked hlocked]
  exact ite_self _

variable (he : endOfHeap < 2 ^ 32)

include he

/-- `memalign` of a program. -/
theorem outcome_memalign (h : Holds endOfHeap t blocks)
    (hpow : align.isPowerOfTwo) (hroom : t.heap.brk + size + 2 * align + 32 ≤ 2 ^ 32)
    (hrequest : c.request = some (size, align)) (hpointer : ∀ ptr ∈ c.pointer, ptr = 0)
    (hnone : c.holds t.live none = t.live)
    (hholds : ∀ p, c.holds t.live (some p) = if p = 0 then t.live else p :: t.live)
    {result : Option ℕ × Heap} (hresult : memalign endOfHeap t.heap align size = result) :
    ∃ blocks', Outcome endOfHeap t c (result.1, ⟨result.2, c.holds t.live result.1⟩) blocks blocks' := by
  subst hresult
  obtain ⟨k, rfl⟩ := hpow
  cases hlocked : t.heap.locked with
  | true =>
    rw [memalign_locked hlocked, hnone]
    exact ⟨blocks, Outcome.unchanged h (.inl rfl)⟩
  | false =>
    obtain ⟨result, heq, halloc, -⟩ := @memalign_spec endOfHeap t.heap blocks h.intact he hlocked k size (by omega)
    rw [heq]
    exact halloc.outcome h hrequest hpointer (hholds _)

/-- `free` of a program, by whatever call. -/
theorem outcome_free (h : Holds endOfHeap t blocks)
    (hptr : ptr ∈ t.live) (hpointer : c.pointer = some ptr) (hzero : ∀ r ∈ c.request, r.1 = 0)
    (hnone : c.holds t.live none = t.live) (hholds : c.holds t.live (some 0) = t.live.erase ptr)
    {result : Option Unit × Heap} (hresult : free endOfHeap t.heap ptr = result) : ∃ blocks', Outcome endOfHeap t c
      (result.1.map fun _ => 0, ⟨result.2, c.holds t.live (result.1.map fun _ => 0)⟩) blocks blocks' := by
  subst hresult
  obtain ⟨xs, b, ys, rfl, rfl⟩ := h.split hptr
  cases hlocked : t.heap.locked with
  | true =>
    have hstuck : free endOfHeap t.heap b.data = (none, t.heap) := by
      unfold free
      rw [if_neg b.data_ne_zero, hlocked, if_pos rfl]
    rw [hstuck]
    dsimp only [Option.map_none]
    rw [hnone]
    exact ⟨_, Outcome.unchanged h (.inl rfl)⟩
  | false =>
    obtain ⟨s', heq, hfrees⟩ := free_spec h.intact he hlocked
    rw [heq]
    exact ⟨_, hfrees.outcome h hpointer hzero hholds⟩

/-- `realloc` and `realloc64` of a program. -/
theorem outcome_realloc (h : Holds endOfHeap t blocks)
    (hpow : align.isPowerOfTwo) (halign : 16 ∣ align) (hroom : t.heap.brk + size + 2 * align + 32 ≤ 2 ^ 32)
    (hptr : ptr = 0 ∨ ptr ∈ t.live) (hrequest : c.request = some (size, align)) (hpointer : c.pointer = some ptr)
    (hnone : c.holds t.live none = t.live) (hholds : ∀ p, c.holds t.live (some p) =
      if p = 0 ∧ size ≠ 0 then t.live else (if p = 0 then [] else [p]) ++ t.live.erase ptr)
    {result : Option ℕ × Heap} (hresult : doRealloc endOfHeap t.heap ptr size align = result) :
    ∃ blocks', Outcome endOfHeap t c (result.1, ⟨result.2, c.holds t.live result.1⟩) blocks blocks' := by
  have hzeroLive := h.zero_notMem
  by_cases hnull : ptr = 0
  · have hmem : memalign endOfHeap t.heap align size = result := by
      rw [← hresult, doRealloc, if_neg (by simp [hnull]), if_pos hnull]
    refine outcome_memalign he h hpow hroom hrequest ?_ hnone (fun p => ?_) hmem
    · intro p hp
      rw [hpointer] at hp
      exact (Option.some.inj hp).symm.trans hnull
    · rw [hholds, hnull, erase_of_not_mem hzeroLive]
      by_cases hp : p = 0
      · simp [hp]
      · simp [hp]
  · have hlive := hptr.resolve_left hnull
    by_cases hsize : size = 0
    · have hfree : ((free endOfHeap t.heap ptr).1.map fun _ => 0, (free endOfHeap t.heap ptr).2) = result := by
        rw [← hresult, doRealloc, if_pos ⟨hsize, hnull⟩]
      rw [← hfree]
      refine outcome_free he h hlive hpointer (fun r hr => ?_) hnone ?_ rfl
      · rw [hrequest] at hr
        rw [← Option.some.inj hr]
        exact hsize
      · rw [hholds, if_neg (by simp [hsize]), if_pos rfl, nil_append]
    · obtain ⟨k, rfl⟩ := hpow
      obtain ⟨xs, b, ys, rfl, rfl⟩ := h.split hlive
      obtain ⟨hlow, hhigh, hround⟩ := @roundSize_spec size k (by omega) halign
      have hb := (h.intact.packed.mem (show b ∈ xs ++ b :: ys by simp)).2
      have hprev : sub32 b.data 16 = b.hdr := by
        unfold sub32 u32 data
        unfold top at hb
        omega
      have hresize : resize endOfHeap t.heap b.data (roundSize size (2 ^ k)) (2 ^ k) b.hdr = result := by
        rw [← hresult, doRealloc, if_neg (by simp [hsize]), if_neg hnull, hprev]
      cases hlocked : t.heap.locked with
      | true =>
        rw [resize, hlocked, if_pos rfl] at hresize
        rw [← hresize]
        rw [hnone]
        exact ⟨_, Outcome.unchanged h (.inl rfl)⟩
      | false =>
        obtain ⟨final, heq, hre⟩ := @resize_spec endOfHeap t.heap xs ys b h.intact he hlocked size
          (roundSize size (2 ^ k)) k hlow hround (by omega)
        rw [← hresize, heq]
        refine hre.outcome h hrequest hpointer ?_
        rw [hholds]
        by_cases hp : final.1 = 0
        · simp [hp, hsize]
        · simp [hp]

omit he

/-- A store to the data of a block. -/
theorem outcome_store (h : Holds endOfHeap t blocks) {addr : ℕ} (hptr : ptr ∈ t.live) (hlow : ptr ≤ addr)
    (hhigh : addr < ptr + (t.heap.mem (ptr - 16)).body.size) (line : Line) : Outcome endOfHeap t (.store addr line)
      (some 0, ⟨{ t.heap with mem := update t.heap.mem addr line }, t.live⟩) blocks blocks := by
  obtain ⟨xs, b, ys, rfl, rfl⟩ := h.split hptr
  have hline := h.intact.line
  rw [show b.data - 16 = b.hdr by unfold data; omega, hline] at hhigh
  have hin : b.data ≤ addr ∧ addr < b.top := ⟨hlow, hhigh⟩
  have hmem : ∀ a, ¬(b.data ≤ a ∧ a < b.top) → update t.heap.mem addr line a = t.heap.mem a :=
    fun a ha => update_of_ne (fun heq : a = addr => ha (heq ▸ hin)) _ _
  have hwritten := h.intact.write (show b ∈ xs ++ b :: ys by simp) hmem
  refine ⟨h, ⟨hwritten.1, h.live⟩, ?_, ?_, ?_, fun d hd htouch => ⟨hd, hwritten.2 d hd fun heq => htouch ?_⟩⟩
  · exact fun r hr => absurd hr (by simp [Call.request])
  · exact fun r hr => absurd hr (by simp [Call.request])
  · exact fun r hr => absurd hr (by simp [Call.request])
  · exact .inr ⟨addr, rfl, heq ▸ hin⟩

/-- Every call of a program, when no request reaches past the end of the address space. -/
theorem step_outcome (he : endOfHeap < 2 ^ 32) (h : Holds endOfHeap t blocks) (hlegal : t.Legal c)
    (hwrap : t.NoWrap c) : ∃ blocks', Outcome endOfHeap t c (t.step endOfHeap c) blocks blocks' := by
  obtain ⟨hpointer, hrequest, haddress⟩ := hlegal
  cases c with
  | malloc size =>
    have hmalloc : memalign endOfHeap t.heap 16 size = malloc endOfHeap t.heap size := if_pos (Nat.le_refl 16)
    exact outcome_memalign he h (hrequest _ rfl).1 (hwrap _ rfl) rfl
      (fun _ hp => absurd hp (by simp [Call.pointer])) rfl (fun _ => rfl) hmalloc
  | calloc n size =>
    have hroom : t.heap.brk + n * size + 2 * 16 + 32 ≤ 2 ^ 32 := hwrap _ rfl
    cases hlocked : t.heap.locked with
    | true =>
      have hstuck : calloc endOfHeap t.heap n size = (none, t.heap) := by
        unfold calloc
        dsimp only
        rw [malloc_locked hlocked]
      rw [Client.step, Alloc.step, hstuck]
      exact ⟨blocks, Outcome.unchanged h (.inl rfl)⟩
    | false =>
      obtain ⟨result, heq, halloc⟩ := @calloc_spec endOfHeap blocks size t.heap h.intact he hlocked n (by omega)
      rw [Client.step, Alloc.step, heq]
      exact halloc.outcome h rfl (fun _ hp => absurd hp (by simp [Call.pointer])) rfl
  | realloc ptr size =>
    exact outcome_realloc he h (hrequest _ rfl).1 (Nat.dvd_refl 16) (hwrap _ rfl) (hpointer _ rfl) rfl rfl rfl
      (fun _ => rfl) rfl
  | realloc64 ptr size =>
    exact outcome_realloc he h (hrequest _ rfl).1 ⟨4, rfl⟩ (hwrap _ rfl) (hpointer _ rfl) rfl rfl rfl
      (fun _ => rfl) rfl
  | memalign align size =>
    exact outcome_memalign he h (hrequest _ rfl).1 (hwrap _ rfl) rfl
      (fun _ hp => absurd hp (by simp [Call.pointer])) rfl (fun _ => rfl) rfl
  | free ptr =>
    rcases hpointer ptr rfl with rfl | hptr
    · have hnull : t.step endOfHeap (.free 0) = (some 0, t) := by
        have herase : t.live.erase 0 = t.live := erase_of_not_mem h.zero_notMem
        change (some 0, Client.mk t.heap (t.live.erase 0)) = (some 0, t)
        rw [herase]
      rw [hnull]
      exact ⟨blocks, Outcome.unchanged h (.inr rfl)⟩
    · exact outcome_free he h hptr rfl (fun r hr => absurd hr (by simp [Call.request])) rfl rfl rfl
  | store addr line =>
    obtain ⟨ptr, hptr, hlow, hhigh⟩ := haddress addr rfl
    exact ⟨blocks, outcome_store h hptr hlow hhigh line⟩

end

/-- A program before its first call. -/
def Client.start (mem : ℕ → Line) (brk : ℕ) : Client := ⟨{ mem := mem, brk := brk }, []⟩

theorem Holds.start {endOfHeap brk : ℕ} (mem : ℕ → Line) (hbrk : brk % 16 = 0) (hpos : 0 < brk)
    (hle : brk ≤ endOfHeap) : Holds endOfHeap (Client.start mem brk) [] :=
  ⟨⟨trivial, rfl, rfl, Nat.zero_le _, by simp, hbrk, rfl, hpos, hle, fun _ => rfl⟩, List.Perm.refl _⟩

/-- The heap of a program stays intact: along every run of legal calls none of which reaches past the end of
the address space from the break, the headers form the list of the blocks that the program holds, and each
call returns enough and changes only what it should. -/
theorem heap_integrity {endOfHeap brk : ℕ} (mem : ℕ → Line) (he : endOfHeap < 2 ^ 32) (hbrk : brk % 16 = 0)
    (hpos : 0 < brk) (hle : brk ≤ endOfHeap) (calls : List Call) (c : Call)
    (hmeet : Lib.AllMeet (Client.step endOfHeap) (fun t c => t.Legal c ∧ t.NoWrap c) (Client.start mem brk)
      (calls ++ [c])) :
    ∃ blocks blocks', Outcome endOfHeap (Lib.run (Client.step endOfHeap) (Client.start mem brk) calls).2 c
      (Client.step endOfHeap (Lib.run (Client.step endOfHeap) (Client.start mem brk) calls).2 c) blocks
        blocks' := by
  obtain ⟨hcalls, hlast⟩ := Lib.allMeet_append.mp hmeet
  obtain ⟨blocks, hholds⟩ := Lib.run_invariant (Client.step endOfHeap) _
    (fun t => ∃ blocks, Holds endOfHeap t blocks)
    (fun t c ⟨blocks, hholds⟩ hcond => (step_outcome he hholds hcond.1 hcond.2).imp fun _ hout => hout.after)
    calls _ ⟨[], .start mem hbrk hpos hle⟩ hcalls
  exact ⟨blocks, step_outcome he hholds hlast.1.1 hlast.1.2⟩

/-- Memory that is all zeros. -/
def zeros : ℕ → Line := fun _ => ⟨⟨0, 0⟩, 0, 0⟩

/-- Blocks of three kinds, a store, a block that moves, and its release. -/
def sampleCalls : List Call :=
  [.malloc 20, .memalign 128 100, .malloc 1, .store 0x100010 ⟨⟨1, 2⟩, 3, 4⟩, .realloc 0x100010 200]

/-- A run of the heap that moves a block. -/
theorem heap_integrity_moves :
    Lib.AllMeet (Client.step 0x2000000) (fun t c => t.Legal c ∧ t.NoWrap c) (Client.start zeros 0x100000)
      (sampleCalls ++ [.free 0x100080]) ∧
    ∃ blocks blocks', Outcome 0x2000000
      (Lib.run (Client.step 0x2000000) (Client.start zeros 0x100000) sampleCalls).2 (.free 0x100080)
      (Client.step 0x2000000 (Lib.run (Client.step 0x2000000) (Client.start zeros 0x100000) sampleCalls).2
        (.free 0x100080)) blocks blocks' :=
  ⟨by decide +kernel, heap_integrity zeros (by decide) (by decide) (by decide) (by decide) sampleCalls
    (.free 0x100080) (by decide +kernel)⟩

/-- A request that does not wrap around with its alignment and header, but does from the break: `malloc`
returns the data of a block that the program still holds. -/
theorem malloc_over_live_block :
    Lib.AllMeet (Client.step 0x2000000) Client.Legal (Client.start zeros 0x100000)
      [.malloc 16, .malloc 0xffffffc0] ∧
    ¬∃ blocks, Holds 0x2000000
      (Lib.run (Client.step 0x2000000) (Client.start zeros 0x100000) [.malloc 16, .malloc 0xffffffc0]).2
        blocks := by
  refine ⟨by decide, fun ⟨blocks, h⟩ => ?_⟩
  have hlive : (Lib.run (Client.step 0x2000000) (Client.start zeros 0x100000)
      [.malloc 16, .malloc 0xffffffc0]).2.live = [0x100010, 0x100010] := by decide
  have hnodup : (blocks.map data).Nodup :=
    List.Nodup.map_on (fun b hb d hd heq => h.data_inj hb hd heq)
      (List.Nodup.of_map _ (map_map (g := Prod.fst) ▸ h.intact.packed.nodup))
  have hpair := h.live.nodup_iff.mpr hnodup
  rw [hlive] at hpair
  exact absurd hpair (by decide)

variable {endOfHeap size align ptr increment memSz : ℕ} {s : Heap} {t : Client} {c : Call}

theorem sbrk_locked : (sbrk endOfHeap s increment).2.locked = s.locked := by
  grind [sbrk]

theorem free_lock : (free endOfHeap s ptr).2.locked = s.locked := by
  grind [free, freeHead, freeBlock, sbrk_locked]

section Lock

variable (hbrk : s.brk % 16 = 0)

include hbrk

/-- `alloc_sbrk` succeeds where there is room below the limit. -/
theorem sbrk_room (hroom : s.brk + increment ≤ endOfHeap) : (sbrk endOfHeap s increment).1 ≠ sbrkFailed := by
  grind [sbrk, u32, sbrkFailed]

/-- The first block leaves the semaphore alone if there is room for it. -/
theorem mallocFirst_lock (hroom : s.brk + memSz ≤ endOfHeap) :
    (mallocFirst endOfHeap s memSz).2.locked = s.locked := by
  have hzero : s.brk &&& 15 = 0 := by rw [Nat.and_two_pow_sub_one_eq_mod s.brk 4, hbrk]
  have hsame : sbrk endOfHeap s 0 = (s.brk, s) := if_pos rfl
  unfold mallocFirst
  rw [hzero, hsame]
  dsimp only
  split
  · rw [if_neg (sbrk_room (s := { s with base := s.brk }) hbrk hroom)]
    exact sbrk_locked
  · rw [if_neg (sbrk_room hbrk hroom)]
    exact sbrk_locked

/-- `malloc` leaves the semaphore alone if there is room for a first block. -/
theorem malloc_lock (hroom : s.head = 0 → s.brk + memSize size ≤ endOfHeap) :
    (malloc endOfHeap s size).2.locked = s.locked := by
  have hfirst := fun hhead => mallocFirst_lock hbrk (hroom hhead)
  grind [malloc, mallocBottom, mallocAfter, mallocTop, sbrk_locked]

/-- `calloc` leaves the semaphore alone if there is room for a first block. -/
theorem calloc_lock {n : ℕ} (hroom : s.head = 0 → s.brk + memSize (u32 (n * size)) ≤ endOfHeap) :
    (calloc endOfHeap s n size).2.locked = s.locked := by
  grind [calloc, malloc_lock]

/-- `memalign` leaves the semaphore alone if there is room for a first block. -/
theorem memalign_lock
    (hroom : s.head = 0 → s.brk + memSize (if align ≤ 16 then size else u32 (size + align)) ≤ endOfHeap) :
    (memalign endOfHeap s align size).2.locked = s.locked := by
  grind [memalign, moveHeader, malloc_lock]

theorem growLast_lock {prevMem : ℕ} (hroom : s.brk + increment ≤ endOfHeap) :
    (growLast endOfHeap s ptr size prevMem increment).2.locked = s.locked := by
  unfold growLast
  dsimp only
  rw [if_neg (sbrk_room hbrk hroom)]
  exact sbrk_locked

/-- `do_realloc` leaves the semaphore alone if there is room for a first block and for the growth of the last
one. -/
theorem doRealloc_lock (hsize : roundSize size align < 2 ^ 32) (hptr : ptr ≠ 0 → s.head ≠ 0)
    (hroom : s.head = 0 → s.brk + memSize (if align ≤ 16 then size else u32 (size + align)) ≤ endOfHeap)
    (hlast : ptr ≠ 0 → size ≠ 0 → (s.mem (sub32 ptr 16)).next = 0 →
      s.brk + (roundSize size align - (s.mem (sub32 ptr 16)).body.size) ≤ endOfHeap) :
    (doRealloc endOfHeap s ptr size align).2.locked = s.locked := by
  by_cases hfree : size = 0 ∧ ptr ≠ 0
  · rw [doRealloc, if_pos hfree]
    exact free_lock
  rw [doRealloc, if_neg hfree]
  by_cases hnull : ptr = 0
  · rw [if_pos hnull]
    exact memalign_lock hbrk hroom
  rw [if_neg hnull, resize]
  split
  · rfl
  split
  · unfold shrink setSize
    dsimp only
    split
    · exact sbrk_locked
    · rfl
  split
  · next hgrow hend =>
    refine growLast_lock hbrk ?_
    have hincrement : sub32 (roundSize size align) (s.mem (sub32 ptr 16)).body.size =
        roundSize size align - (s.mem (sub32 ptr 16)).body.size := by
      unfold sub32 u32 at *
      omega
    rw [hincrement]
    exact hlast hnull (fun hzero => hfree ⟨hzero, hnull⟩) hend
  split
  · rfl
  · have hmove : (memalign endOfHeap s align (roundSize size align)).2.locked = s.locked :=
      memalign_lock hbrk fun hhead => absurd hhead (hptr hnull)
    grind [moveBlock, free_lock]

end Lock

/-- Where a failure would keep the semaphore there is room below the limit: for the first block while none is
allocated, and for the growth of the last block. -/
def Client.HasRoom (endOfHeap : ℕ) (t : Client) (c : Call) : Prop :=
  ∀ r ∈ c.request,
    (t.heap.head = 0 → t.heap.brk + memSize (if r.2 ≤ 16 then r.1 else u32 (r.1 + r.2)) ≤ endOfHeap) ∧
    ∀ ptr ∈ c.pointer, ptr ≠ 0 → r.1 ≠ 0 → (t.heap.mem (sub32 ptr 16)).next = 0 →
      t.heap.brk + (roundSize r.1 r.2 - (t.heap.mem (sub32 ptr 16)).body.size) ≤ endOfHeap

/-- Room is decidable. -/
instance hasRoom_decidable : Decidable (t.HasRoom endOfHeap c) :=
  inferInstanceAs (Decidable (∀ r ∈ c.request, _ ∧ ∀ ptr ∈ c.pointer, _))

theorem roundSize_lt (hsize : size < 2 ^ 32) : roundSize size align < 2 ^ 32 := by
  unfold roundSize alignUp u32
  split <;> omega

/-- Such a call leaves the semaphore alone. -/
theorem Client.HasRoom.locked {blocks : List Block} (h : t.HasRoom endOfHeap c)
    (hholds : Holds endOfHeap t blocks) (hlegal : t.Legal c) :
    (t.step endOfHeap c).2.heap.locked = t.heap.locked := by
  have hbrk := hholds.intact.brk_aligned
  obtain ⟨hpointer, hrequest, -⟩ := hlegal
  have hhead : ∀ ptr ∈ c.pointer, ptr ≠ 0 → t.heap.head ≠ 0 := by
    intro ptr hptr hnull
    obtain ⟨b, hb, -⟩ := mem_map.mp (hholds.live.mem_iff.mp ((hpointer ptr hptr).resolve_left hnull))
    rw [hholds.intact.head]
    obtain ⟨b', blocks', rfl⟩ := exists_cons_of_ne_nil (ne_nil_of_mem hb)
    exact (hholds.intact.hdr_pos mem_cons_self).ne'
  cases c with
  | malloc size => exact malloc_lock hbrk (h _ rfl).1
  | calloc n size =>
    have hsmall := (hrequest _ rfl).2
    refine calloc_lock hbrk ?_
    rw [u32, Nat.mod_eq_of_lt (by omega)]
    exact (h _ rfl).1
  | realloc ptr size | realloc64 ptr size =>
    exact doRealloc_lock hbrk (roundSize_lt (by have := (hrequest _ rfl).2; omega)) (hhead ptr rfl) (h _ rfl).1
      ((h _ rfl).2 ptr rfl)
  | memalign align size => exact memalign_lock hbrk (h _ rfl).1
  | free ptr => exact free_lock
  | store addr line => rfl

/-- Along every run of legal calls that do not wrap around and find room where a failure would keep the semaphore,
the semaphore is free after each call, and a `realloc` that fails leaves the blocks and all of memory as they
were. -/
theorem semaphore_given_back {endOfHeap brk : ℕ} (mem : ℕ → Line) (he : endOfHeap < 2 ^ 32) (hbrk : brk % 16 = 0)
    (hpos : 0 < brk) (hle : brk ≤ endOfHeap) (calls : List Call) (c : Call)
    (hmeet : Lib.AllMeet (Client.step endOfHeap) (fun t c => t.Legal c ∧ t.NoWrap c ∧ t.HasRoom endOfHeap c)
      (Client.start mem brk) (calls ++ [c])) :
    let t := (Lib.run (Client.step endOfHeap) (Client.start mem brk) calls).2
    (t.step endOfHeap c).2.heap.locked = false ∧
      ∀ ptr size, c = .realloc ptr size → size ≠ 0 → (t.step endOfHeap c).1 = some 0 →
        (t.step endOfHeap c).2.heap.mem = t.heap.mem ∧
          ∃ blocks, Holds endOfHeap t blocks ∧ Holds endOfHeap (t.step endOfHeap c).2 blocks := by
  obtain ⟨hcalls, ⟨hlegal, hwrap, hroom⟩, -⟩ := Lib.allMeet_append.mp hmeet
  obtain ⟨hfree, blocks, hholds⟩ := Lib.run_invariant (Client.step endOfHeap) _
    (fun t => t.heap.locked = false ∧ ∃ blocks, Holds endOfHeap t blocks)
    (fun t c ⟨hfree, blocks, hholds⟩ ⟨hlegal, hwrap, hroom⟩ =>
      ⟨(hroom.locked hholds hlegal).trans hfree, (step_outcome he hholds hlegal hwrap).imp fun _ hout =>
        hout.after⟩)
    calls _ ⟨rfl, [], .start mem hbrk hpos hle⟩ hcalls
  refine ⟨(hroom.locked hholds hlegal).trans hfree, fun ptr size hc hsize hzero => ?_⟩
  subst hc
  obtain ⟨blocks', hout⟩ := step_outcome he hholds hlegal hwrap
  obtain ⟨hsame, hmem⟩ := hout.failed (size, 16) rfl hsize hzero
  exact ⟨hmem, blocks, hholds, hsame ▸ hout.after⟩

/-- After a `realloc` that finds no room for a new block the semaphore is free. -/
theorem semaphore_given_back_full : ((Lib.run (Client.step 0x100100) (Client.start zeros 0x100000)
    [.malloc 16, .malloc 16]).2.step 0x100100 (.realloc 0x100010 200)).2.heap.locked = false :=
  (semaphore_given_back zeros (by decide) (by decide) (by decide) (by decide) [.malloc 16, .malloc 16]
    (.realloc 0x100010 200) (by decide +kernel)).1

/-- A request that is too large for the empty heap returns `NULL` and keeps the semaphore. -/
theorem malloc_keeps_semaphore : (Client.start zeros 0x100000).Legal (.malloc 0x20000) ∧
    (Client.start zeros 0x100000).NoWrap (.malloc 0x20000) ∧
    ((Client.start zeros 0x100000).step 0x110000 (.malloc 0x20000)).1 = some 0 ∧
    ((Client.start zeros 0x100000).step 0x110000 (.malloc 0x20000)).2.heap.locked = true := by
  decide

end Ps2sdk.Alloc
