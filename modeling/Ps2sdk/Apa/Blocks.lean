import Ps2sdk.Apa.Hdd
import Ps2sdk.Lib.Ring

/-!
# Partition tables and their blocks

A table is a ring of headers from the master boot record on, each of which is sound. Free space
apart, it says which partitions there are: `partsOf` is the abstract table, a map from start sectors
to headers without their links. Without its links a table is a list of blocks that lie behind each other
from sector 0 on. Deleting a partition joins its block with free blocks before it and behind it, in two
passes; there a table is looked at from the block that is deleted, with the blocks before it in reverse.
-/

namespace Ps2sdk.Apa

section Tables

open Lib Function List Nat

/-- The links and lengths of some headers. -/
def layout (v : Word → Header) : Layout Word where
  next x := (v x).next
  prev x := (v x).prev
  size x := (v x).length.toNat

/-- What holds of every header of a table. -/
structure Sound (unit : ℕ) (x : Word) (h : Header) : Prop where
  magic : h.magic = apaMagic
  start : h.start = x
  power : ∃ k, h.length.toNat = 2 ^ k
  aligned : h.length.toNat ∣ x.toNat
  coarse : unit ∣ h.length.toNat
  empty : h.type = apaTypeFree → h.nsub = 0

/-- A partition table. -/
structure Table (unit : ℕ) (v : Word → Header) (xs : List Word) : Prop where
  ring : (layout v).Ring BitVec.toNat 0 xs
  sound : ∀ x ∈ 0 :: xs, Sound unit x (v x)
  boot : (v 0).type ≠ apaTypeFree
  mbr : (v 0).mbr.magic = apaMBRMagic

/-- A header without its links. -/
def Header.body (h : Header) : Header := { h with next := 0, prev := 0 }

/-- The partitions of a table. -/
def partsOf (v : Word → Header) (xs : List Word) (x : Word) : Option Header :=
  if x ∈ 0 :: xs ∧ (v x).type ≠ apaTypeFree then some (v x).body else none

variable {unit : ℕ} {v v' : Word → Header} {xs xs' l m m' r : List Word} {x z w : Word} {h h' : Header}

variable (hs : Sound unit x h)

include hs

theorem Sound.positive : 0 < h.length.toNat := by
  obtain ⟨k, hk⟩ := hs.power
  rw [hk]
  exact Nat.two_pow_pos k

/-- The space of a header lies below the end of the address range. -/
theorem Sound.fits : x.toNat + h.length.toNat ≤ 2 ^ 32 := by
  obtain ⟨k, hk⟩ := hs.power
  have hk32 : k < 32 := by
    refine (Nat.pow_lt_pow_iff_right Nat.one_lt_two).mp ?_
    rw [← hk]
    exact h.length.isLt
  obtain ⟨c, hc⟩ := hs.aligned
  rw [hk] at hc ⊢
  have hsplit : (2 : ℕ) ^ 32 = 2 ^ k * 2 ^ (32 - k) := by rw [← Nat.pow_add, Nat.add_sub_cancel' hk32.le]
  have hlt : 2 ^ k * c < 2 ^ k * 2 ^ (32 - k) := by
    rw [← hsplit, ← hc]
    exact x.isLt
  have hc' : c + 1 ≤ 2 ^ (32 - k) := Nat.lt_of_mul_lt_mul_left hlt
  calc x.toNat + 2 ^ k = 2 ^ k * (c + 1) := by rw [hc, Nat.mul_succ]
    _ ≤ 2 ^ k * 2 ^ (32 - k) := Nat.mul_le_mul_left _ hc'
    _ = 2 ^ 32 := hsplit.symm

theorem Sound.place : unit ∣ x.toNat := hs.coarse.trans hs.aligned

theorem Sound.congr (hbody : h'.body = h.body) : Sound unit x h' := by
  have hfields := congrArg (fun h => (h.magic, h.start, h.length, h.type, h.nsub)) hbody
  simp only [Header.body, Prod.mk.injEq] at hfields
  obtain ⟨hmagic, hstart, hlength, htype, hnsub⟩ := hfields
  exact ⟨hmagic ▸ hs.magic, hstart ▸ hs.start, hlength ▸ hs.power, hlength ▸ hs.aligned, hlength ▸ hs.coarse,
    fun hfree => hnsub ▸ hs.empty (htype ▸ hfree)⟩

omit hs

theorem Header.body_prev (h : Header) (p : Word) : ({ h with prev := p } : Header).body = h.body := rfl

theorem zero_mem_left (hxs : 0 :: xs = l ++ x :: m ++ r) : (0 : Word) ∈ l ++ [x] := by
  cases l with
  | nil => simp [(cons.inj hxs).1]
  | cons b l => simp [(cons.inj hxs).1]

/-- The header at which a part of a table starts is none of those around the part. -/
theorem Table.ne_around (ht : Table unit v xs) (hxs : 0 :: xs = l ++ x :: m ++ r) : ∀ w ∈ l ++ r, w ≠ x := by
  have hnodup := ht.ring.nodup
  rw [hxs] at hnodup
  simp only [nodup_append, nodup_cons, mem_append, mem_cons] at hnodup
  rintro w hw rfl
  rcases mem_append.mp hw with hw | hw
  · exact hnodup.1.2.2 w hw w (.inl rfl) rfl
  · exact hnodup.2.2 w (.inr (.inl rfl)) w hw rfl

/-- Headers between two headers of a table are replaced by others, and the links of these two
are changed to fit. -/
theorem Table.relink {r' : List Word} (ht : Table unit v xs) (hxs : 0 :: xs = l ++ x :: m ++ r)
    (hxs' : 0 :: xs' = l ++ x :: m' ++ r) (hz : r ++ [0] = z :: r') (hother : ∀ w ∈ l ++ r, w ≠ z → v' w = v w)
    (hback : z ≠ x → ∃ p, v' z = { v z with prev := p }) (hfront : z ≠ x → (v' x).prev = (v x).prev)
    (hmid : List.IsChain ((layout v').Follows BitVec.toNat 0) (x :: m' ++ [z]))
    (hsound : ∀ w ∈ x :: m', Sound unit w (v' w)) (hfirst : (0 : Word) ∉ m')
    (hboot : x = 0 → (v' 0).type = (v 0).type ∧ (v' 0).mbr = (v 0).mbr) : Table unit v' xs' := by
  have hx := ht.ne_around hxs
  have hkept : ∀ w ∈ l ++ r, ∃ p, v' w = { v w with prev := p } := by
    intro w hw
    by_cases hwz : w = z
    · subst hwz
      exact hback (hx w hw)
    · exact ⟨(v w).prev, by rw [hother w hw hwz]⟩
  refine ⟨ht.ring.splice hxs hxs' hz ?_ ?_ hmid (fun w hw => (hsound w hw).positive) hfirst, ?_, ?_, ?_⟩
  · intro w hw
    obtain ⟨p, hp⟩ := hkept w hw
    simp [layout, hp]
  · intro w hw hwz
    rcases mem_append.mp hw with hw | hw
    · simp [layout, hother w (mem_append_left r hw) hwz]
    · rcases mem_cons.mp hw with rfl | hw
      · exact hfront (Ne.symm hwz)
      · simp [layout, hother w (mem_append_right l hw) hwz]
  · intro w hw
    have hold : w ∈ l ++ r → Sound unit w (v' w) := fun hw => by
      obtain ⟨p, hp⟩ := hkept w hw
      rw [hp]
      refine (ht.sound w ?_).congr (Header.body_prev _ p)
      rw [hxs, append_assoc]
      rcases mem_append.mp hw with hw | hw <;> simp [hw]
    rw [hxs', append_assoc, mem_append, mem_append] at hw
    rcases hw with hw | hw | hw
    · exact hold (mem_append_left r hw)
    · exact hsound w hw
    · exact hold (mem_append_right l hw)
  all_goals
    rcases mem_append.mp (zero_mem_left hxs) with hzero | hzero
    · obtain ⟨p, hp⟩ := hkept 0 (mem_append_left r hzero)
      rw [hp]
      first | exact ht.boot | exact ht.mbr
    · obtain ⟨htype, hmbr⟩ := hboot (mem_singleton.mp hzero).symm
      first
      | rw [htype]
        exact ht.boot
      | rw [hmbr]
        exact ht.mbr

/-- A header is replaced by one with the same links and length. -/
theorem Table.replace (ht : Table unit v xs) (hnext : h'.next = (v x).next) (hprev : h'.prev = (v x).prev)
    (hlength : h'.length = (v x).length) (hsound : x ∈ 0 :: xs → Sound unit x h')
    (hboot : x = 0 → h'.type = (v 0).type ∧ h'.mbr = (v 0).mbr) : Table unit (update v x h') xs := by
  have hlayout : layout (update v x h') = layout v := by
    have hpoint : ∀ w, (update v x h' w).next = (v w).next ∧ (update v x h' w).prev = (v w).prev ∧
        (update v x h' w).length = (v w).length := by
      intro w
      by_cases hw : w = x
      · subst hw
        rw [update_self]
        exact ⟨hnext, hprev, hlength⟩
      · rw [update_of_ne hw]
        exact ⟨rfl, rfl, rfl⟩
    simp only [layout, Layout.mk.injEq]
    exact ⟨funext fun w => (hpoint w).1, funext fun w => (hpoint w).2.1,
      funext fun w => congrArg BitVec.toNat (hpoint w).2.2⟩
  refine ⟨hlayout ▸ ht.ring, fun w hw => ?_, ?_, ?_⟩
  · by_cases hwx : w = x
    · subst hwx
      rw [update_self]
      exact hsound hw
    · rw [update_of_ne hwx]
      exact ht.sound w hw
  all_goals
    by_cases hx : (0 : Word) = x
    · obtain ⟨htype, hmbr⟩ := hboot hx.symm
      rw [← hx, update_self]
      first
      | rw [htype]
        exact ht.boot
      | rw [hmbr]
        exact ht.mbr
    · rw [update_of_ne hx]
      first | exact ht.boot | exact ht.mbr

open Header

/-- A stretch of sectors, and the partition in it unless it is free. -/
structure Block where
  start : ℕ
  length : ℕ
  part : Option Header

/-- A block of free space. -/
def Block.empty (start length : ℕ) : Block := ⟨start, length, none⟩

/-- The block of a header. -/
def Header.block (h : Header) : Block :=
  ⟨h.start.toNat, h.length.toNat, if h.type = apaTypeFree then none else some h.body⟩

/-- The blocks of some headers. -/
def blocks (v : Word → Header) (ys : List Word) : List Block := ys.map fun y => (v y).block

/-- The partitions among some blocks. -/
def parts (bs : List Block) : List Header := bs.filterMap Block.part

variable {unit : ℕ} {v v' : Word → Header} {xs xs' l m m' r : List Word} {x y z : Word} {h h' : Header}

@[simp]
theorem blocks_nil (v : Word → Header) : blocks v [] = [] := rfl

@[simp]
theorem blocks_cons (v : Word → Header) (y : Word) (ys : List Word) :
    blocks v (y :: ys) = (v y).block :: blocks v ys := rfl

@[simp]
theorem blocks_append (v : Word → Header) (ys zs : List Word) : blocks v (ys ++ zs) = blocks v ys ++ blocks v zs :=
  map_append

theorem Header.block_congr (hbody : h'.body = h.body) : h'.block = h.block := by
  have hfields := congrArg (fun h => (h.start, h.length, h.type)) hbody
  simp only [body, Prod.mk.injEq] at hfields
  obtain ⟨hstart, hlength, htype⟩ := hfields
  rw [block, block, hstart, hlength, htype, hbody]

theorem blocks_congr (hbody : ∀ y ∈ l, (v' y).body = (v y).body) : blocks v' l = blocks v l :=
  map_congr_left fun y hy => block_congr (hbody y hy)

theorem blocks_eq (heq : ∀ y ∈ l, v' y = v y) : blocks v' l = blocks v l :=
  blocks_congr fun y hy => by rw [heq y hy]

theorem Header.block_free (hfree : h.type = apaTypeFree) : h.block = .empty h.start.toNat h.length.toNat := by
  rw [block, if_pos hfree, Block.empty]

theorem Header.block_part (hpart : h.type ≠ apaTypeFree) : h.block.part = some h.body := if_neg hpart

theorem Header.block_part_none : h.block.part = none ↔ h.type = apaTypeFree := by
  rw [block]
  split
  · next hfree => exact iff_of_true rfl hfree
  · next hpart => exact iff_of_false (by simp) hpart

theorem mem_parts_blocks {body : Header} :
    body ∈ parts (blocks v xs) ↔ ∃ y ∈ xs, (v y).type ≠ apaTypeFree ∧ (v y).body = body := by
  simp only [parts, blocks, mem_filterMap, mem_map, exists_exists_and_eq_and]
  refine exists_congr fun y => and_congr_right fun _ => ?_
  rw [block]
  split
  · next hfree => simp [hfree]
  · next hpart => simp [hpart]

theorem parts_append (bs cs : List Block) : parts (bs ++ cs) = parts bs ++ parts cs := filterMap_append

theorem parts_of_free {bs : List Block} (hfree : ∀ b ∈ bs, b.part = none) : parts bs = [] :=
  filterMap_eq_nil_iff.mpr hfree

/-- A header in the middle of a table can be told by what lies before and behind it. -/
theorem exists_table_list (hxs : 0 :: xs = l ++ x :: m ++ r) (m' : List Word) : ∃ xs', 0 :: xs' =
    l ++ x :: m' ++ r := by
  cases l with
  | nil =>
    obtain ⟨rfl, -⟩ := cons.inj hxs
    exact ⟨m' ++ r, rfl⟩
  | cons b l =>
    obtain ⟨rfl, -⟩ := cons.inj hxs
    exact ⟨l ++ x :: m' ++ r, rfl⟩

section

variable (ht : Table unit v xs)
include ht

/-- Headers between two headers of a table are replaced by others: the new table and its blocks. -/
theorem Table.rewrite {r' : List Word} (hxs : 0 :: xs = l ++ x :: m ++ r)
    (hz : r ++ [0] = z :: r') (hother : ∀ w ∈ l ++ r, w ≠ z → v' w = v w)
    (hback : z ≠ x → ∃ p, v' z = { v z with prev := p }) (hfront : z ≠ x → (v' x).prev = (v x).prev)
    (hmid : List.IsChain ((layout v').Follows BitVec.toNat 0) (x :: m' ++ [z]))
    (hsound : ∀ w ∈ x :: m', Sound unit w (v' w)) (hfirst : (0 : Word) ∉ m')
    (hboot : x = 0 → (v' 0).type = (v 0).type ∧ (v' 0).mbr = (v 0).mbr) :
    ∃ xs', 0 :: xs' = l ++ x :: m' ++ r ∧ Table unit v' xs' ∧ blocks v' l = blocks v l ∧ blocks v' r =
      blocks v r := by
  obtain ⟨xs', hxs'⟩ := exists_table_list hxs m'
  refine ⟨xs', hxs', ht.relink hxs hxs' hz hother hback hfront hmid hsound hfirst hboot, ?_⟩
  have hkept : ∀ w ∈ l ++ r, (v' w).body = (v w).body := by
    intro w hw
    by_cases hwz : w = z
    · subst hwz
      obtain ⟨p, hp⟩ := hback (ht.ne_around hxs w hw)
      rw [hp, body_prev]
    · rw [hother w hw hwz]
  exact ⟨blocks_congr fun w hw => hkept w (mem_append_left r hw),
    blocks_congr fun w hw => hkept w (mem_append_right l hw)⟩

/-- A header of a table is replaced by one with the same links and length. -/
theorem Table.replaced (hother : ∀ w, w ≠ x → v' w = v w) (hnext : (v' x).next = (v x).next)
    (hprev : (v' x).prev = (v x).prev) (hlength : (v' x).length = (v x).length)
    (hsound : x ∈ 0 :: xs → Sound unit x (v' x))
    (hboot : x = 0 → (v' x).type = (v 0).type ∧ (v' x).mbr = (v 0).mbr) : Table unit v' xs := by
  have hv' : v' = update v x (v' x) := by
    funext w
    by_cases hw : w = x
    · rw [hw, update_self]
    · rw [update_of_ne hw, hother w hw]
  rw [hv']
  exact ht.replace hnext hprev hlength hsound hboot

/-- The header behind one of a table lies where its space ends. -/
theorem Table.next_eq (hxs : 0 :: xs = l ++ x :: y :: r) :
    (v x).next = y ∧ (v y).prev = x ∧ y.toNat = x.toNat + (v x).length.toNat := by
  obtain ⟨hnext, hprev, hadjacent⟩ := ht.ring.around hxs (show y :: r ++ [0] = y :: (r ++ [0]) from rfl)
  refine ⟨hnext, hprev, hadjacent fun hy => ?_⟩
  subst hy
  have hnodup := ht.ring.nodup
  cases l with
  | nil =>
    obtain ⟨rfl, -⟩ := cons.inj hxs
    rw [hxs] at hnodup
    exact absurd mem_cons_self (nodup_cons.mp hnodup).1
  | cons b l =>
    obtain ⟨rfl, htail⟩ := cons.inj hxs
    refine (nodup_cons.mp hnodup).1 ?_
    rw [htail]
    simp

theorem Table.start_lt (hxs : 0 :: xs = l ++ x :: r) (hy : y ∈ r) : x.toNat < y.toNat := by
  have hsorted := ht.ring.sorted
  rw [hxs, pairwise_append, pairwise_cons] at hsorted
  exact hsorted.2.1.1 y hy

theorem Table.last_eq (hxs : 0 :: xs = l ++ [x]) : (v x).next = 0 ∧ (v 0).prev = x := by
  obtain ⟨hnext, hprev, -⟩ := ht.ring.around hxs (show ([] : List Word) ++ [0] = 0 :: [] from rfl)
  exact ⟨hnext, hprev⟩

/-- Only the last header has none behind it. -/
theorem Table.next_eq_zero (hxs : 0 :: xs = l ++ x :: r) : (v x).next = 0 ↔ r = [] := by
  cases r with
  | nil => exact iff_of_true (ht.last_eq hxs).1 rfl
  | cons y r =>
    obtain ⟨hnext, -, hadjacent⟩ := ht.next_eq hxs
    refine iff_of_false (fun hzero => ?_) (cons_ne_nil y r)
    have hx : x ∈ 0 :: xs := by
      rw [hxs]
      simp
    have hpositive := (ht.sound x hx).positive
    rw [hzero] at hnext
    rw [← hnext] at hadjacent
    simp at hadjacent
    omega

/-- Headers other than the first do not lie at sector 0. -/
theorem Table.ne_zero (hxs : 0 :: xs = l ++ x :: r) (hl : l ≠ []) : x ≠ 0 := by
  rintro rfl
  cases l with
  | nil => exact hl rfl
  | cons b l =>
    obtain ⟨rfl, htail⟩ := cons.inj hxs
    refine (nodup_cons.mp ht.ring.nodup).1 ?_
    rw [htail]
    simp

theorem Table.free_ne_zero (hfree : (v x).type = apaTypeFree) : x ≠ 0 := by
  rintro rfl
  exact ht.boot hfree

variable (hxs : 0 :: xs = l ++ x :: r)

include hxs

theorem Table.not_mem_around : x ∉ l ∧ x ∉ r := by
  have hnodup := ht.ring.nodup
  rw [hxs, nodup_append, nodup_cons] at hnodup
  exact ⟨fun hmem => hnodup.2.2 x hmem x mem_cons_self rfl, hnodup.2.1.1⟩

/-- The header to which one of a table links: the one behind it, or the first. -/
theorem Table.successor : ∃ z r', r ++ [0] = z :: r' ∧ (v x).next = z ∧ z ∈ 0 :: xs ∧ (x ≠ 0 → z ≠ x) ∧
      (r = [] ∧ z = 0 ∨ z.toNat = x.toNat + (v x).length.toNat) := by
  cases r with
  | nil => exact ⟨0, [], rfl, (ht.last_eq hxs).1, mem_cons_self, fun hx => hx.symm, .inl ⟨rfl, rfl⟩⟩
  | cons y r =>
    obtain ⟨hnext, -, hadjacent⟩ := ht.next_eq hxs
    refine ⟨y, r ++ [0], rfl, hnext, by rw [hxs]; simp, fun _ hyx => ?_, .inr hadjacent⟩
    exact (ht.not_mem_around hxs).2 (hyx ▸ mem_cons_self)

theorem Table.lt_start (hy : y ∈ l) : y.toNat < x.toNat := by
  have hsorted := ht.ring.sorted
  rw [hxs, pairwise_append] at hsorted
  exact hsorted.2.2 y hy x mem_cons_self

/-- The headers behind one of a table lie behind its space. -/
theorem Table.end_le (hy : y ∈ r) : x.toNat + (v x).length.toNat ≤ y.toNat := by
  cases r with
  | nil => exact absurd hy not_mem_nil
  | cons z r =>
    obtain ⟨-, -, hadjacent⟩ := ht.next_eq hxs
    rcases mem_cons.mp hy with rfl | hy
    · exact hadjacent.ge
    · have hlt := ht.start_lt (hxs.trans (append_cons ..)) hy
      omega

omit hxs

theorem Table.end_le_of_mem (hxs : 0 :: xs = l ++ m ++ z :: r) (hy : y ∈ m) :
    y.toNat + (v y).length.toNat ≤ z.toNat := by
  obtain ⟨m1, m2, rfl⟩ := append_of_mem hy
  refine ht.end_le (show 0 :: xs = (l ++ m1) ++ y :: (m2 ++ z :: r) by rw [hxs]; simp) ?_
  simp

end

end Tables

section Places

open List Option

/-- The test for joining blocks: a power of two of sectors from one of its multiples on. -/
abbrev Joined (start length : ℕ) : Prop := start % length = 0 ∧ length &&& (length - 1) = 0

/-- The loop of `apaDeleteFixPrev` on blocks: those left over, and the joined space. -/
def absorbPrev : List Block → ℕ → ℕ → List Block × ℕ × ℕ
  | [], start, length => ([], start, length)
  | b :: before, start, length =>
    if b.part.isNone ∧ Joined b.start (b.length + length) then absorbPrev before b.start (b.length + length)
    else (b :: before, start, length)

/-- The loop of `apaDeleteFixNext` on blocks: those left over, and the joined length. -/
def absorbNext (start : ℕ) : List Block → ℕ → List Block × ℕ
  | [], length => ([], length)
  | b :: after, length =>
    if b.part.isNone ∧ Joined start (b.length + length) then absorbNext start after (b.length + length)
    else (b :: after, length)

/-- A table seen from one of its blocks. -/
@[ext]
structure Place where
  before : List Block
  here : Block
  after : List Block

namespace Place

variable (p : Place)

/-- The blocks of the table. -/
def list : List Block := p.before.reverse ++ p.here :: p.after

/-- `apaDeleteFixPrev`. -/
def fixPrev : Place :=
  let (before, start, length) := absorbPrev p.before p.here.start p.here.length
  ⟨before, if length = p.here.length then p.here else .empty start length, p.after⟩

/-- `apaDeleteFixNext`. -/
def fixNext : Place :=
  let (after, length) := absorbNext p.here.start p.after p.here.length
  ⟨p.before, if length = p.here.length then p.here else .empty p.here.start length, after⟩

/-- One pass of `apaDelete`. -/
def fix : Place := p.fixPrev.fixNext

/-- The block is free. -/
def clear : Place := { p with here := .empty p.here.start p.here.length }

/-- `apaDelete` of a block that is not the last one. -/
def delete : Place := p.fix.fix.clear

end Place

/-- `apaDelete` of the last block: the free blocks before it go, too. -/
def deleteLast : List Block → List Block
  | [] => []
  | b :: before => if b.part.isNone then deleteLast before else b :: before

variable (before : List Block)

/-- Delete a block of a table with blocks before it. -/
def deleteBlock (b : Block) (after : List Block) : List Block :=
  if after.isEmpty then (deleteLast before.reverse).reverse else (Place.delete ⟨before.reverse, b, after⟩).list

/-- A pass leaves the block or makes it free. -/
theorem Place.fix_here (p : Place) : p.fix.here = p.here ∨ p.fix.here.part = none := by
  have hprev : p.fixPrev.here = p.here ∨ p.fixPrev.here.part = none := by
    unfold Place.fixPrev
    dsimp only
    split
    · exact .inl rfl
    · exact .inr rfl
  have hnext : p.fix.here = p.fixPrev.here ∨ p.fix.here.part = none := by
    unfold Place.fix Place.fixNext
    dsimp only
    split
    · exact .inl rfl
    · exact .inr rfl
  rcases hnext with hnext | hnext
  · rw [hnext]
    exact hprev
  · exact .inr hnext

/-- The blocks left over behind a block are the last ones. -/
theorem absorbNext_suffix (start : ℕ) (after : List Block) (length : ℕ) :
    (absorbNext start after length).1 <:+ after := by
  induction after generalizing length with
  | nil => exact suffix_rfl
  | cons c after ih =>
    rw [absorbNext]
    split
    · exact (ih _).trans (suffix_cons c after)
    · exact suffix_rfl

theorem absorbPrev_suffix (start length : ℕ) : (absorbPrev before start length).1 <:+ before := by
  induction before generalizing start length with
  | nil => exact suffix_rfl
  | cons b before ih =>
    rw [absorbPrev]
    split
    · exact (ih ..).trans (suffix_cons b before)
    · exact suffix_rfl

/-- The partitions before the space that is joined stay. -/
theorem parts_absorbPrev (start length : ℕ) : parts (absorbPrev before start length).1 = parts before := by
  induction before generalizing start length with
  | nil => rfl
  | cons b before ih =>
    rw [absorbPrev]
    split
    · next hjoined =>
      rw [ih]
      exact (filterMap_cons_none (isNone_iff_eq_none.mp hjoined.1)).symm
    · rfl

/-- The partitions behind the space that is joined stay. -/
theorem parts_absorbNext (start : ℕ) (after : List Block) (length : ℕ) :
    parts (absorbNext start after length).1 = parts after := by
  induction after generalizing length with
  | nil => rfl
  | cons b after ih =>
    rw [absorbNext]
    split
    · next hjoined =>
      rw [ih]
      exact (filterMap_cons_none (isNone_iff_eq_none.mp hjoined.1)).symm
    · rfl

theorem parts_reverse (bs : List Block) : parts bs.reverse = (parts bs).reverse := filterMap_reverse

theorem Place.parts_delete (p : Place) : parts p.delete.list = parts p.before.reverse ++ parts p.after := by
  have hfix : ∀ p : Place, parts p.fix.before = parts p.before ∧ parts p.fix.after = parts p.after := fun p =>
    ⟨parts_absorbPrev .., parts_absorbNext ..⟩
  obtain ⟨hbefore, hafter⟩ := hfix p.fix
  obtain ⟨hbefore', hafter'⟩ := hfix p
  show parts (p.fix.fix.before.reverse ++ Block.empty _ _ :: p.fix.fix.after) = _
  rw [parts_append, parts_reverse, parts_reverse, hbefore, hbefore', ← hafter', ← hafter]
  rfl

theorem Place.after_fix_ne_nil {p : Place} (h : parts p.after ≠ []) : p.fix.after ≠ [] := by
  intro hnil
  have hparts : parts p.fix.after = parts p.after := parts_absorbNext ..
  rw [hnil] at hparts
  exact h hparts.symm

/-- Deleting the last block leaves the other partitions. -/
theorem parts_deleteLast : parts (deleteLast before) = parts before := by
  induction before with
  | nil => rfl
  | cons b before ih =>
    rw [deleteLast]
    split
    · next hfree =>
      rw [ih]
      exact (filterMap_cons_none (isNone_iff_eq_none.mp hfree)).symm
    · rfl

theorem parts_deleteBlock (b : Block) (after : List Block) :
    parts (deleteBlock before b after) = parts before ++ parts after := by
  unfold deleteBlock
  split
  · next hempty =>
    rw [isEmpty_iff.mp hempty, parts_reverse, parts_deleteLast, parts_reverse, reverse_reverse]
    exact (append_nil _).symm
  · rw [Place.parts_delete, reverse_reverse]

end Places

end Ps2sdk.Apa
