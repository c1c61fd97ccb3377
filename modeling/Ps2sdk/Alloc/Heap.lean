import Mathlib.Algebra.Group.Nat.Defs
import Mathlib.Data.List.Pairwise
import Ps2sdk.Lib.LinkedList

/-!
# The heap of the EE and its blocks

malloc, memalign, realloc, calloc and free of alloc.c over the break of sbrk.c. Addresses and sizes are
32-bit numbers and wrap around. Memory is divided into lines of 16 bytes; every header is one line, and
a line of data is the same four words. A call that finds the semaphore taken does not return, and neither
does a walk along a list without end. Two failure paths return without giving the semaphore back.

The abstract heap is the list of its blocks, in the order of their addresses. `Intact` says that the
headers in memory form this list.
-/

namespace Ps2sdk.Alloc

section Calls

open Lib (Cell setNext setPrev)

/-- The first two words of a header. -/
structure Body where
  ptr : ℕ
  size : ℕ

/-- `heap_mem_header_t`, or any other line of memory. -/
abbrev Line := Cell ℕ Body

/-- A 32-bit number. -/
def u32 (n : ℕ) : ℕ := n % 2 ^ 32

/-- The difference of two 32-bit numbers. -/
def sub32 (a b : ℕ) : ℕ := u32 (a + 2 ^ 32 - b)

/-- `ALIGN`. -/
def alignUp (x align : ℕ) : ℕ := u32 (x + (align - 1)) - (u32 (x + (align - 1)) &&& (align - 1))

/-- Memory, `_heap_ptr`, the variables of the allocator, and whether the semaphore is taken. -/
structure Heap where
  mem : ℕ → Line
  brk : ℕ
  base : ℕ := 0
  head : ℕ := 0
  tail : ℕ := 0
  locked : Bool := false

/-- The number of lines, which no list of headers can exceed. -/
def lineCount : ℕ := 2 ^ 28

/-- `(void *)-1`. -/
def sbrkFailed : ℕ := 2 ^ 32 - 1

variable (endOfHeap : ℕ)

/-- `ps2_sbrk`. -/
def sbrk (s : Heap) (increment : ℕ) : ℕ × Heap :=
  if increment = 0 then (s.brk, s)
  else
    let mp := u32 (s.brk + increment)
    if mp ≤ endOfHeap then (s.brk, { s with brk := mp }) else (sbrkFailed, s)

/-- `_heap_mem_fit`. -/
def heapMemFit (mem : ℕ → Line) (size : ℕ) : ℕ → ℕ → Option ℕ
  | 0, _ => none
  | turns + 1, prevMem =>
    if prevMem = 0 then some 0
    else
      let line := mem prevMem
      if line.next ≠ 0 ∧ size ≤ sub32 line.next (u32 (line.body.ptr + line.body.size)) then some prevMem
      else heapMemFit mem size turns line.next

/-- The size of a block with its header, rounded up. -/
def memSize (size : ℕ) : ℕ :=
  let memSz := u32 (size + 16)
  if memSz &&& 15 ≠ 0 then alignUp memSz 16 else memSz

variable (mem : ℕ → Line)

/-- A new header. -/
def newHeader (newMem memSz prev next : ℕ) : ℕ → Line :=
  Function.update mem newMem ⟨⟨u32 (newMem + 16), sub32 memSz 16⟩, prev, next⟩

/-- `malloc` without blocks; a failure keeps the semaphore. -/
def mallocFirst (s : Heap) (memSz : ℕ) : ℕ × Heap :=
  let s :=
    if s.base = 0 then
      let s := (sbrk endOfHeap s (s.brk &&& 15)).2
      { s with base := s.brk }
    else s
  let (memPtr, s) := sbrk endOfHeap s memSz
  if memPtr = sbrkFailed then (0, { s with locked := true })
  else (u32 (memPtr + 16), { s with mem := newHeader s.mem memPtr memSz 0 0, head := memPtr, tail := memPtr })

variable (s : Heap)

/-- `malloc` at the bottom of the heap. -/
def mallocBottom (memSz : ℕ) : ℕ × Heap :=
  let mem := setPrev (newHeader s.mem s.base memSz 0 s.head) s.head s.base
  (u32 (s.base + 16), { s with mem := mem, head := s.base })

/-- `malloc` behind a block. -/
def mallocAfter (memSz prevMem : ℕ) : ℕ × Heap :=
  let line := s.mem prevMem
  let newMem := u32 (line.body.ptr + line.body.size)
  let mem := setPrev (newHeader s.mem newMem memSz prevMem line.next) line.next newMem
  (u32 (newMem + 16), { s with mem := setNext mem prevMem newMem })

/-- `malloc` at the top of the heap. -/
def mallocTop (s : Heap) (memSz : ℕ) : ℕ × Heap :=
  let (memPtr, s) := sbrk endOfHeap s memSz
  if memPtr = sbrkFailed then (0, s)
  else
    let mem := setNext (newHeader s.mem memPtr memSz s.tail 0) s.tail memPtr
    (u32 (memPtr + 16), { s with mem := mem, tail := memPtr })

/-- `malloc`. -/
def malloc (s : Heap) (size : ℕ) : Option ℕ × Heap :=
  let memSz := memSize size
  if s.locked then (none, s)
  else if s.head = 0 then
    let (ptr, s) := mallocFirst endOfHeap s memSz
    (some ptr, s)
  else if u32 (s.base + memSz) < s.head then
    let (ptr, s) := mallocBottom s memSz
    (some ptr, s)
  else
    match heapMemFit s.mem memSz lineCount s.head with
    | none => (none, s)
    | some prevMem =>
      if prevMem ≠ 0 then
        let (ptr, s) := mallocAfter s memSz prevMem
        (some ptr, s)
      else
        let (ptr, s) := mallocTop endOfHeap s memSz
        (some ptr, s)

/-- The first bytes of a word are cleared. -/
def clearWord (count word : ℕ) : ℕ := word / 256 ^ min count 4 * 256 ^ min count 4

/-- The first bytes of a line are cleared. -/
def clearLine (count : ℕ) (line : Line) : Line :=
  ⟨⟨clearWord count line.body.ptr, clearWord (count - 4) line.body.size⟩, clearWord (count - 8) line.prev,
    clearWord (count - 12) line.next⟩

/-- `memset(ptr, 0, size)`. -/
def clearBytes (ptr size : ℕ) : ℕ → Line :=
  fun a => if ptr ≤ a ∧ a < ptr + size then clearLine (ptr + size - a) (mem a) else mem a

/-- `memcpy` of whole lines. -/
def copyLines (dest src size : ℕ) : ℕ → Line :=
  fun a => if dest ≤ a ∧ a < dest + size then mem (src + (a - dest)) else mem a

/-- `calloc`. -/
def calloc (s : Heap) (n size : ℕ) : Option ℕ × Heap :=
  let sz := u32 (n * size)
  match malloc endOfHeap s sz with
  | (none, s) => (none, s)
  | (some ptr, s) => if ptr = 0 then (some 0, s) else (some ptr, { s with mem := clearBytes s.mem ptr sz })

/-- The second half of `memalign`: the block loses the bytes for the alignment, and its header moves up. -/
def moveHeader (ptr align : ℕ) : ℕ × Heap :=
  let oldMem := sub32 ptr 16
  let old := s.mem oldMem
  let line : Line := ⟨⟨old.body.ptr, sub32 old.body.size align⟩, old.prev, old.next⟩
  let ptr := alignUp ptr align
  let curMem := sub32 ptr 16
  let mem := Function.update (Function.update s.mem oldMem line) curMem line
  let mem := if line.prev ≠ 0 then setNext mem line.prev curMem else mem
  let mem := if line.next ≠ 0 then setPrev mem line.next curMem else mem
  let mem := Function.update mem curMem ⟨⟨ptr, (mem curMem).body.size⟩, (mem curMem).prev, (mem curMem).next⟩
  (ptr, { s with mem := mem
                 head := if s.head = oldMem then curMem else s.head
                 tail := if s.tail = oldMem then curMem else s.tail })

/-- `memalign`. -/
def memalign (s : Heap) (align size : ℕ) : Option ℕ × Heap :=
  if align ≤ 16 then malloc endOfHeap s size
  else
    match malloc endOfHeap s (u32 (size + align)) with
    | (none, s) => (none, s)
    | (some ptr, s) =>
      if ptr = 0 then (some 0, s)
      else if ptr &&& (align - 1) = 0 then (some ptr, s)
      else
        let (ptr, s) := moveHeader s ptr align
        (some ptr, s)

/-- The search of `free` for the header of a block. -/
def findHeader (mem : ℕ → Line) (ptr : ℕ) : ℕ → ℕ → Option ℕ
  | 0, _ => none
  | turns + 1, cur =>
    if ptr = (mem cur).body.ptr then some cur
    else if (mem cur).next = 0 then some 0
    else findHeader mem ptr turns (mem cur).next

/-- `free` of the first block. -/
def freeHead (s : Heap) : Heap :=
  let line := s.mem s.head
  let size := u32 (line.body.size + sub32 line.body.ptr s.head)
  if line.next ≠ 0 then { s with mem := setPrev s.mem line.next 0, head := line.next }
  else (sbrk endOfHeap { s with head := 0, tail := 0 } (sub32 0 size)).2

/-- `free` of another block. -/
def freeBlock (s : Heap) (cur : ℕ) : Heap :=
  let line := s.mem cur
  let s :=
    if line.next ≠ 0 then { s with mem := setPrev s.mem line.next line.prev }
    else
      let before := s.mem line.prev
      let size := sub32 s.brk (u32 (before.body.ptr + before.body.size))
      (sbrk endOfHeap { s with tail := line.prev } (sub32 0 size)).2
  { s with mem := setNext s.mem line.prev line.next }

/-- `free`. -/
def free (s : Heap) (ptr : ℕ) : Option Unit × Heap :=
  if ptr = 0 then (some (), s)
  else if s.locked then (none, s)
  else if s.head = 0 then (some (), s)
  else if ptr = (s.mem s.head).body.ptr then (some (), freeHead endOfHeap s)
  else
    match findHeader s.mem ptr lineCount s.head with
    | none => (none, s)
    | some cur => if cur = 0 then (some (), s) else (some (), freeBlock endOfHeap s cur)

/-- Change the size in a header. -/
def setSize (header size : ℕ) : Heap :=
  let line := s.mem header
  { s with mem := Function.update s.mem header ⟨⟨line.body.ptr, size⟩, line.prev, line.next⟩ }

/-- The last part of `do_realloc`: a new block with the data of the old one, which is freed. -/
def moveBlock (s : Heap) (ptr size align : ℕ) : Option ℕ × Heap :=
  match memalign endOfHeap s align size with
  | (none, s) => (none, s)
  | (some newPtr, s) =>
    if newPtr = 0 then (some 0, s)
    else
      let (done, s) := free endOfHeap
        { s with mem := copyLines s.mem newPtr ptr (s.mem (sub32 ptr 16)).body.size } ptr
      (done.map fun _ => newPtr, s)

/-- The size rounded up to the alignment. -/
def roundSize (size align : ℕ) : ℕ := if size &&& (align - 1) ≠ 0 then alignUp size align else size

/-- The last block grows with the heap; a failure to extend it keeps the semaphore. -/
def growLast (s : Heap) (ptr size prevMem increment : ℕ) : Option ℕ × Heap :=
  let (mp, s) := sbrk endOfHeap s increment
  if mp = sbrkFailed then (some 0, { s with locked := true }) else (some ptr, setSize s prevMem size)

/-- A block shrinks, and the heap with it when it is the last. -/
def shrink (s : Heap) (ptr size prevMem : ℕ) : Heap :=
  setSize (if (s.mem prevMem).next = 0 then (sbrk endOfHeap s (sub32 (u32 (ptr + size)) s.brk)).2 else s)
    prevMem size

/-- `do_realloc` of a block to a rounded size that is not zero. -/
def resize (s : Heap) (ptr size align prevMem : ℕ) : Option ℕ × Heap :=
  if s.locked then (none, s)
  else if size ≤ (s.mem prevMem).body.size then (some ptr, shrink endOfHeap s ptr size prevMem)
  else if (s.mem prevMem).next = 0 then
    growLast endOfHeap s ptr size prevMem (sub32 size (s.mem prevMem).body.size)
  else if size < sub32 (s.mem (s.mem prevMem).next).body.ptr ptr then (some ptr, setSize s prevMem size)
  else moveBlock endOfHeap s ptr size align

/-- `do_realloc`. -/
def doRealloc (s : Heap) (ptr size align : ℕ) : Option ℕ × Heap :=
  if size = 0 ∧ ptr ≠ 0 then
    let (done, s) := free endOfHeap s ptr
    (done.map fun _ => 0, s)
  else if ptr = 0 then memalign endOfHeap s align size
  else resize endOfHeap s ptr (roundSize size align) align (sub32 ptr 16)

/-- A call of a program, or a store of the program to one of its blocks. -/
inductive Call
  | malloc (size : ℕ)
  | calloc (n size : ℕ)
  | realloc (ptr size : ℕ)
  | realloc64 (ptr size : ℕ)
  | memalign (align size : ℕ)
  | free (ptr : ℕ)
  | store (addr : ℕ) (line : Line)

/-- One call, with the pointer it returns. -/
def step (s : Heap) : Call → Option ℕ × Heap
  | .malloc size => malloc endOfHeap s size
  | .calloc n size => calloc endOfHeap s n size
  | .realloc ptr size => doRealloc endOfHeap s ptr size 16
  | .realloc64 ptr size => doRealloc endOfHeap s ptr size 64
  | .memalign align size => memalign endOfHeap s align size
  | .free ptr =>
    let (done, s) := free endOfHeap s ptr
    (done.map fun _ => 0, s)
  | .store addr line => (some 0, { s with mem := Function.update s.mem addr line })

end Calls

section Lists

open Lib (Seg firstNode lastNode)
open List

/-- A block by the address of its header and its size. -/
structure Block where
  hdr : ℕ
  size : ℕ
  deriving DecidableEq

/-- The address of the data of a block. -/
def Block.data (b : Block) : ℕ := b.hdr + 16

theorem Block.data_ne_zero (b : Block) : b.data ≠ 0 := Nat.succ_ne_zero _

/-- The address behind a block. -/
def Block.top (b : Block) : ℕ := b.hdr + 16 + b.size

/-- The header of a block as a node of the list. -/
def Block.node (b : Block) : ℕ × Body := (b.hdr, ⟨b.hdr + 16, b.size⟩)

/-- The blocks follow each other between two addresses. -/
def Packed (lo : ℕ) : List Block → ℕ → Prop
  | [], hi => lo ≤ hi
  | b :: rest, hi => lo ≤ b.hdr ∧ Packed b.top rest hi

variable {lo hi : ℕ} {xs ys : List Block} {b c : Block} {mem' : ℕ → Line}

theorem packed_append_cons : Packed lo (xs ++ b :: ys) hi ↔ Packed lo xs b.hdr ∧ Packed b.top ys hi := by
  induction xs generalizing lo with
  | nil => rfl
  | cons c rest ih => rw [cons_append, Packed, Packed, ih, and_assoc]

theorem Packed.le (h : Packed lo xs hi) : lo ≤ hi := by
  induction xs generalizing lo with
  | nil => exact h
  | cons b rest ih =>
    have hrest := ih h.2
    have htop : b.hdr ≤ b.top := by unfold Block.top; omega
    exact Nat.le_trans h.1 (Nat.le_trans htop hrest)

theorem Packed.mono {lo' hi' : ℕ} (h : Packed lo xs hi) (hlo : lo' ≤ lo) (hhi : hi ≤ hi') : Packed lo' xs hi' := by
  induction xs generalizing lo lo' with
  | nil => exact Nat.le_trans hlo (Nat.le_trans h hhi)
  | cons b rest ih => exact ⟨Nat.le_trans hlo h.1, ih h.2 (Nat.le_refl _)⟩

theorem Packed.append {mid : ℕ} (hxs : Packed lo xs mid) (hys : Packed mid ys hi) : Packed lo (xs ++ ys) hi := by
  induction xs generalizing lo with
  | nil => exact hys.mono hxs (Nat.le_refl _)
  | cons b rest ih => exact ⟨hxs.1, ih hxs.2⟩

variable (h : Packed lo xs hi)

include h

theorem Packed.mem (hb : b ∈ xs) : lo ≤ b.hdr ∧ b.top ≤ hi := by
  obtain ⟨ys, zs, rfl⟩ := append_of_mem hb
  obtain ⟨hys, hzs⟩ := packed_append_cons.mp h
  exact ⟨hys.le, hzs.le⟩

theorem Packed.pairwise : xs.Pairwise fun b c => b.top ≤ c.hdr := by
  induction xs generalizing lo with
  | nil => exact List.Pairwise.nil
  | cons b rest ih => exact List.Pairwise.cons (fun c hc => (h.2.mem hc).1) (ih h.2)

/-- A header takes 16 bytes, so there is no room for more blocks than lines. -/
theorem Packed.length_le : lo + 16 * xs.length ≤ hi := by
  induction xs generalizing lo with
  | nil => exact h
  | cons b rest ih =>
    have hrest := ih h.2
    have hlo := h.1
    unfold Block.top at hrest
    rw [length_cons]
    omega

theorem Packed.nodup : ((xs.map Block.node).map Prod.fst).Nodup := by
  rw [map_map]
  refine List.Pairwise.map _ ?_ h.pairwise
  intro b c hle heq
  simp only [Function.comp, Block.node, Block.top] at hle heq
  omega

theorem Packed.apart (hb : b ∈ xs) (hc : c ∈ xs) (hne : b ≠ c) : b.top ≤ c.hdr ∨ c.top ≤ b.hdr := by
  have : Std.Symm fun b c : Block => b.top ≤ c.hdr ∨ c.top ≤ b.hdr := ⟨fun _ _ => Or.symm⟩
  have hpairs : xs.Pairwise fun b c => b.top ≤ c.hdr ∨ c.top ≤ b.hdr := h.pairwise.imp .inl
  exact hpairs.forall hb hc hne

omit h

theorem Packed.ne_middle {d : Block} (h : Packed lo (xs ++ b :: ys) hi) (hd : d ∈ xs ++ ys) : d ≠ b := by
  have hnodup := h.nodup
  rw [map_map] at hnodup
  rintro rfl
  exact (nodup_middle.mp (List.Nodup.of_map _ hnodup)).notMem hd

/-- A line of the data of one block is no header. -/
theorem Packed.not_header (h : Packed lo xs hi) (hb : b ∈ xs)
    (hc : c ∈ xs) {a : ℕ} (ha : b.data ≤ a) (ha' : a < b.top) : a ≠ c.hdr := by
  rintro rfl
  by_cases heq : b = c
  · subst heq
    unfold Block.data at ha
    omega
  · have hapart : b.top ≤ c.hdr ∨ c.top ≤ b.hdr := h.apart hb hc heq
    unfold Block.data Block.top at *
    omega

/-- The headers in memory form the list of the blocks. -/
structure Intact (endOfHeap : ℕ) (s : Heap) (blocks : List Block) : Prop where
  linked : Seg s.mem 0 (blocks.map Block.node) 0
  head : s.head = firstNode (blocks.map Block.node) 0
  tail : s.tail = lastNode 0 (blocks.map Block.node)
  packed : Packed s.base blocks s.brk
  aligned : ∀ b ∈ blocks, b.hdr % 16 = 0 ∧ b.size % 16 = 0
  brk_aligned : s.brk % 16 = 0
  base_aligned : s.base % 16 = 0
  brk_pos : 0 < s.brk
  brk_le : s.brk ≤ endOfHeap
  based : s.base = 0 → blocks = []

/-- The data of the blocks is the same in two memories. -/
def SameData (mem mem' : ℕ → Line) (blocks : List Block) : Prop :=
  ∀ b ∈ blocks, ∀ a, b.data ≤ a → a < b.top → mem' a = mem a

theorem SameData.refl (mem : ℕ → Line) (blocks : List Block) : SameData mem mem blocks :=
  fun _ _ _ _ _ => rfl

theorem SameData.trans {mem mem'' : ℕ → Line} {blocks : List Block} (h : SameData mem mem' blocks)
    (h' : SameData mem' mem'' blocks) : SameData mem mem'' blocks :=
  fun b hb a ha ha' => (h' b hb a ha ha').trans (h b hb a ha ha')

variable {mem : ℕ → Line}

theorem SameData.mono {blocks blocks' : List Block} (h : SameData mem mem' blocks)
    (hsub : ∀ b ∈ blocks', b ∈ blocks) : SameData mem mem' blocks' :=
  fun b hb => h b (hsub b hb)

theorem Packed.sameData (h : Packed lo xs hi)
    (hmem : ∀ a, (∀ c ∈ xs, a ≠ c.hdr) → mem' a = mem a) : SameData mem mem' xs :=
  fun _ hb a ha ha' => hmem a fun _ hc => h.not_header hb hc ha ha'

theorem mem_headers {a : ℕ} : a ∈ (xs.map Block.node).map Prod.fst ↔ ∃ c ∈ xs, a = c.hdr := by
  simp [Block.node, eq_comm]

theorem mem_insert (hc : c ∈ xs ++ ys) : c ∈ xs ++ b :: ys := by
  rcases mem_append.mp hc with hc | hc
  · exact mem_append_left _ hc
  · exact mem_append_right _ (mem_cons_of_mem _ hc)

theorem forall_mem_insert {P : Block → Prop} (h : ∀ c ∈ xs ++ ys, P c) (hb : P b) : ∀ c ∈ xs ++ b :: ys, P c := by
  intro c hc
  rcases mem_append.mp hc with hc | hc
  · exact h c (mem_append_left _ hc)
  · rcases mem_cons.mp hc with rfl | hc
    · exact hb
    · exact h c (mem_append_right _ hc)

namespace Intact

variable {endOfHeap : ℕ} {s : Heap} {blocks : List Block}

theorem base_pos (h : Intact endOfHeap s blocks) (hne : blocks ≠ []) : 0 < s.base :=
  Nat.pos_of_ne_zero fun hzero => hne (h.based hzero)

theorem hdr_pos (h : Intact endOfHeap s blocks) (hb : b ∈ blocks) : 0 < b.hdr :=
  Nat.lt_of_lt_of_le (h.base_pos (ne_nil_of_mem hb)) (h.packed.mem hb).1

theorem head_eq_zero (h : Intact endOfHeap s blocks) (hhead : s.head = 0) : blocks = [] := by
  cases blocks with
  | nil => rfl
  | cons b rest =>
    have hpos := h.hdr_pos mem_cons_self
    rw [h.head] at hhead
    exact absurd hhead (Nat.ne_of_gt hpos)

/-- A block is linked in between two lists of blocks that are linked in themselves. -/
theorem linkNode {s' : Heap} {p n : ℕ}
    (hxs : Seg mem 0 (xs.map Block.node) n) (hys : Seg mem p (ys.map Block.node) 0)
    (haligned : ∀ c ∈ xs ++ b :: ys, c.hdr % 16 = 0 ∧ c.size % 16 = 0)
    (hmem : s'.mem = Lib.linkNode mem 0 (xs.map Block.node) b.node (ys.map Block.node) 0)
    (hhead : s'.head = firstNode ((xs ++ b :: ys).map Block.node) 0)
    (htail : s'.tail = lastNode 0 ((xs ++ b :: ys).map Block.node))
    (hpacked : Packed s'.base (xs ++ b :: ys) s'.brk)
    (hbrk : s'.brk % 16 = 0) (hbase : s'.base % 16 = 0) (hpos : 0 < s'.base) (hle : s'.brk ≤ endOfHeap) :
    Intact endOfHeap s' (xs ++ b :: ys) ∧ SameData mem s'.mem (xs ++ ys) := by
  have hnodup := hpacked.nodup
  refine ⟨⟨?_, hhead, htail, hpacked, haligned, hbrk, hbase, Nat.lt_of_lt_of_le hpos hpacked.le, hle, ?_⟩, ?_⟩
  · rw [map_append, map_cons] at hnodup ⊢
    rw [hmem]
    exact Lib.seg_linkNode hxs hys hnodup
  · exact fun hzero => absurd hzero (Nat.ne_of_gt hpos)
  · have hdata : SameData mem s'.mem (xs ++ b :: ys) := by
      refine hpacked.sameData fun a ha => ?_
      rw [hmem]
      refine Lib.linkNode_of_notMem (ha b (by simp)) (fun hx => ?_) fun hy => ?_
      · obtain ⟨c, hc, heq⟩ := mem_headers.mp hx
        exact ha c (mem_append_left _ hc) heq
      · obtain ⟨c, hc, heq⟩ := mem_headers.mp hy
        exact ha c (mem_append_right _ (mem_cons_of_mem _ hc)) heq
    exact hdata.mono fun c hc => mem_insert hc

/-- A block is linked in between the blocks of a heap. -/
theorem insert {s' : Heap} (h : Intact endOfHeap s (xs ++ ys))
    (hmem : s'.mem = Lib.linkNode s.mem 0 (xs.map Block.node) b.node (ys.map Block.node) 0)
    (hhead : s'.head = firstNode ((xs ++ b :: ys).map Block.node) 0)
    (htail : s'.tail = lastNode 0 ((xs ++ b :: ys).map Block.node))
    (hpacked : Packed s'.base (xs ++ b :: ys) s'.brk) (hhdr : b.hdr % 16 = 0) (hsize : b.size % 16 = 0)
    (hbrk : s'.brk % 16 = 0) (hbase : s'.base % 16 = 0) (hpos : 0 < s'.base) (hle : s'.brk ≤ endOfHeap) :
    Intact endOfHeap s' (xs ++ b :: ys) ∧ SameData s.mem s'.mem (xs ++ ys) := by
  have hlinked := h.linked
  rw [map_append, Lib.seg_append] at hlinked
  refine Intact.linkNode hlinked.1 hlinked.2 ?_ hmem hhead htail hpacked hbrk hbase hpos hle
  exact forall_mem_insert h.aligned ⟨hhdr, hsize⟩

end Intact

end Lists

end Ps2sdk.Alloc
