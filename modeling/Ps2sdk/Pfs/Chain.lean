import Mathlib.Algebra.Order.Ring.Int
import Ps2sdk.Lib.Runs
import Ps2sdk.Pfs.Journal

/-!
# Inodes and segment chains

The layout of `pfs_inode_t` over the words of a metadata block, and a volume as the routines on inodes see
it: the metadata cache is a store of blocks by partition and block number, the bitmap is a set of zones, and
the free counts are those of the mount. `fileTransfer` computes the bytes that remain of a segment in 32 bits.

The entries of an inode go on in segment descriptors, which have the same layout, except that the fields behind
the first 114 entries are entries as well. The first entry of a descriptor is the zone it lies in itself; the
other entries are runs of data zones, and a file is their concatenation. The descriptors of a chain lie in
different blocks, because the chain ends; so an edit of one entry leaves the others alone.
-/

namespace Ps2sdk.Pfs

section Layout

open Nat

/-- `pfsCheckZoneSize`: a power of two from 2 KiB to 128 KiB. -/
def pfsCheckZoneSize (zoneSize : ℕ) : ℕ :=
  if zoneSize &&& (zoneSize - 1) ≠ 0 ∨ zoneSize < 2 * 1024 ∨ 128 * 1024 < zoneSize then 0 else 1

theorem pfsCheckZoneSize_least : pfsCheckZoneSize 2048 = 1 := by decide

theorem least_scale : 2048 = 1024 <<< 1 := rfl

variable (zsize count blockOffset byteOffset : ℕ)

/-- `bytes_remain` of `fileTransfer`: a 32-bit number in a variable of 64 bits. -/
def bytesRemain : BitVec 64 :=
  ((BitVec.ofNat 32 count - BitVec.ofNat 32 blockOffset) * BitVec.ofNat 32 zsize -
    BitVec.ofNat 32 byteOffset).setWidth 64

/-- What `fileTransfer` does next. -/
inductive TransferTurn
  | stay
  | seekNextSegment
  | allocNewSegment
  deriving DecidableEq

/-- The turn of the loop of `fileTransfer`: the current segment is left when no byte remains in it. -/
def transferTurn (lastSegment : Bool) : TransferTurn :=
  if bytesRemain zsize count blockOffset byteOffset = 0 then
    if lastSegment then .allocNewSegment else .seekNextSegment
  else .stay

/-- The bytes that are left in a segment behind a position. -/
def bytesLeft : ℤ :=
  ((count : ℤ) - blockOffset) * zsize - byteOffset

/-- A legal zone size is 128 KiB, or at most half of that. -/
theorem pfsCheckZoneSize_spec {zsize : ℕ} (h : pfsCheckZoneSize zsize = 1) :
    2048 ≤ zsize ∧ (zsize = 131072 ∨ zsize ≤ 65536) := by
  unfold pfsCheckZoneSize at h
  split at h
  · exact absurd h (by decide)
  · next hlegal =>
    obtain ⟨hmask, hlow, hhigh⟩ : zsize &&& (zsize - 1) = 0 ∧ 2048 ≤ zsize ∧ zsize ≤ 131072 := by
      simpa [not_or] using hlegal
    obtain ⟨k, rfl⟩ := (Nat.and_sub_one_eq_zero_iff_isPowerOfTwo (by omega)).mp hmask
    have hk : k ≤ 17 := (Nat.pow_le_pow_iff_right (show 1 < 2 by decide)).mp (show 2 ^ k ≤ 2 ^ 17 from hhigh)
    refine ⟨hlow, ?_⟩
    rcases Nat.lt_or_eq_of_le hk with hlt | rfl
    · exact .inr (Nat.pow_le_pow_right (by decide) (Nat.le_of_lt_succ hlt))
    · exact .inl rfl

/-- The remaining bytes are the bytes left, modulo 2^32. -/
theorem bytesRemain_toNat : ((bytesRemain zsize count blockOffset byteOffset).toNat : ℤ) =
      bytesLeft zsize count blockOffset byteOffset % 2 ^ 32 := by
  have hint : (BitVec.ofNat 32 count - BitVec.ofNat 32 blockOffset) * BitVec.ofNat 32 zsize -
      BitVec.ofNat 32 byteOffset = BitVec.ofInt 32 (bytesLeft zsize count blockOffset byteOffset) := by
    simp only [bytesLeft, Int.sub_eq_add_neg, BitVec.ofInt_add, BitVec.ofInt_mul, BitVec.ofInt_neg,
      BitVec.ofInt_natCast, BitVec.sub_eq_add_neg]
  unfold bytesRemain
  rw [hint, BitVec.toNat_setWidth, mod_eq_of_lt (by omega), BitVec.toNat_ofInt]
  exact Int.toNat_of_nonneg (Int.emod_nonneg _ (by decide))

theorem bytesRemain_exact_iff_range : ((bytesRemain zsize count blockOffset byteOffset).toNat : ℤ) =
        bytesLeft zsize count blockOffset byteOffset ↔
      0 ≤ bytesLeft zsize count blockOffset byteOffset ∧ bytesLeft zsize count blockOffset byteOffset < 2 ^ 32 := by
  rw [bytesRemain_toNat]
  omega

/-- The bytes left are a number of 32 bits: the position is not past the end of the segment, and with zones of
128 KiB less than 4 GiB are left. -/
theorem bytesLeft_range_iff {zsize count blockOffset byteOffset : ℕ} (hzone : pfsCheckZoneSize zsize = 1)
    (hcount : count ≤ 65535) (hoffset : blockOffset ≤ count) (hbyte : byteOffset < zsize) :
    (0 ≤ bytesLeft zsize count blockOffset byteOffset ∧ bytesLeft zsize count blockOffset byteOffset < 2 ^ 32) ↔
      (blockOffset = count → byteOffset = 0) ∧
        (zsize = 131072 → count - blockOffset < 32768 ∨ count - blockOffset = 32768 ∧ 0 < byteOffset) := by
  obtain ⟨hlow, hsize⟩ := pfsCheckZoneSize_spec hzone
  obtain ⟨zones, rfl⟩ := Nat.exists_eq_add_of_le hoffset
  have hleft : bytesLeft zsize (blockOffset + zones) blockOffset byteOffset = (zones * zsize : ℕ) - byteOffset := by
    unfold bytesLeft
    rw [Nat.cast_add, add_sub_cancel_left, Nat.cast_mul]
  rw [hleft, Nat.add_sub_cancel_left]
  rcases hsize with rfl | hsmall
  · omega
  · have hproduct : zones * zsize ≤ 65535 * 65536 := Nat.mul_le_mul (by omega) hsmall
    rcases Nat.eq_zero_or_pos zones with rfl | hpos
    · omega
    · have hone : zsize ≤ zones * zsize := Nat.le_mul_of_pos_left zsize hpos
      omega

/-- `bytes_remain` is the number of bytes left, so that the loop leaves a segment only when its last byte has
been consumed, exactly when the position is not past the end of the segment and less than 4 GiB are left. -/
theorem fileTransfer_bytesRemain_iff {zsize count blockOffset byteOffset : ℕ} (hzone : pfsCheckZoneSize zsize = 1)
    (hcount : count ≤ 65535) (hoffset : blockOffset ≤ count) (hbyte : byteOffset < zsize) :
    (((bytesRemain zsize count blockOffset byteOffset).toNat : ℤ) = bytesLeft zsize count blockOffset byteOffset ∧
        ∀ lastSegment, transferTurn zsize count blockOffset byteOffset lastSegment ≠ .stay →
          bytesLeft zsize count blockOffset byteOffset = 0) ↔
      (blockOffset = count → byteOffset = 0) ∧
        (zsize = 131072 → count - blockOffset < 32768 ∨ count - blockOffset = 32768 ∧ 0 < byteOffset) := by
  rw [← bytesLeft_range_iff hzone hcount hoffset hbyte, ← bytesRemain_exact_iff_range]
  refine ⟨And.left, fun hexact => ⟨hexact, fun lastSegment hleave => ?_⟩⟩
  have hzero : bytesRemain zsize count blockOffset byteOffset = 0 := by
    by_contra hne
    exact hleave (if_neg hne)
  rw [← hexact, hzero]
  rfl

/-- The middle of a small segment. -/
theorem fileTransfer_bytesRemain_small : (((bytesRemain 8192 10 3 100).toNat : ℤ) = bytesLeft 8192 10 3 100 ∧
        ∀ lastSegment, transferTurn 8192 10 3 100 lastSegment ≠ .stay → bytesLeft 8192 10 3 100 = 0) ↔
      (3 = 10 → 100 = 0) ∧ (8192 = 131072 → 10 - 3 < 32768 ∨ 10 - 3 = 32768 ∧ 0 < 100) :=
  fileTransfer_bytesRemain_iff (by decide) (by decide) (by decide) (by decide)

/-- At the start of a segment of 32768 zones of 128 KiB nothing remains. -/
theorem bytesRemain_wraps : pfsCheckZoneSize 131072 = 1 ∧ bytesRemain 131072 32768 0 0 = 0 ∧
      transferTurn 131072 32768 0 0 false = .seekNextSegment ∧ bytesLeft 131072 32768 0 0 = 2 ^ 32 := by
  decide

open Lib Function BitVec Fin

/-- The word of a block. -/
def word (b : MetaBlock) (i : ℕ) : ℕ := (b (Fin.ofNat 256 i)).toNat

/-- Store a word of a block. -/
def setWord (b : MetaBlock) (i n : ℕ) : MetaBlock := Function.update b (Fin.ofNat 256 i) (BitVec.ofNat 32 n)

theorem word_lt (b : MetaBlock) (i : ℕ) : word b i < 2 ^ 32 := (b _).isLt

theorem word_setWord_self (b : MetaBlock) (i : ℕ) {n : ℕ} (hn : n < 2 ^ 32) : word (setWord b i n) i = n := by
  rw [word, setWord, update_self, toNat_ofNat, mod_eq_of_lt hn]

theorem word_setWord_of_ne (b : MetaBlock) {i j : ℕ} (n : ℕ) (h : i < 256 ∧ j < 256 ∧ j ≠ i) :
    word (setWord b i n) j = word b j := by
  have hne : Fin.ofNat 256 j ≠ Fin.ofNat 256 i := by
    intro heq
    have hval := congrArg Fin.val heq
    simp only [Fin.val_ofNat] at hval
    omega
  rw [word, setWord, update_of_ne hne, word]

/-- The block info at a word: the number, then the subpart and the count in one word. -/
def readInfo (b : MetaBlock) (w : ℕ) : BlockInfo where
  number := word b w
  subpart := word b (w + 1) % 65536
  count := word b (w + 1) / 65536

/-- Store a block info at a word. -/
def writeInfo (b : MetaBlock) (w : ℕ) (bi : BlockInfo) : MetaBlock :=
  setWord (setWord b w bi.number) (w + 1) (bi.subpart % 65536 + bi.count % 65536 * 65536)

/-- A block info that its 64 bits hold. -/
structure BlockInfo.Fits (bi : BlockInfo) : Prop where
  number : bi.number < 2 ^ 32
  subpart : bi.subpart < 65536
  count : bi.count < 65536

section

variable (b : MetaBlock)
include b

theorem readInfo_fits (w : ℕ) : (readInfo b w).Fits where
  number := word_lt b w
  subpart := mod_lt _ (by decide)
  count := by
    have hlt := word_lt b (w + 1)
    show word b (w + 1) / 65536 < 65536
    omega

theorem readInfo_writeInfo {w : ℕ} {bi : BlockInfo} (hw : w + 1 < 256) (h : bi.Fits) :
    readInfo (writeInfo b w bi) w = bi := by
  obtain ⟨hnumber, hsubpart, hcount⟩ := h
  have hpacked : bi.subpart % 65536 + bi.count % 65536 * 65536 < 2 ^ 32 := by omega
  obtain ⟨number, subpart, count⟩ := bi
  simp only [readInfo, writeInfo, BlockInfo.mk.injEq, word_setWord_self _ _ hpacked]
  refine ⟨?_, by simp only at hsubpart; omega, by simp only at hcount; omega⟩
  rw [word_setWord_of_ne _ _ (by omega), word_setWord_self _ _ hnumber]

theorem word_writeInfo_of_ne {w j : ℕ} (bi : BlockInfo) (h : w + 1 < 256 ∧ j < 256 ∧ (j < w ∨ w + 1 < j)) :
    word (writeInfo b w bi) j = word b j := by
  rw [writeInfo, word_setWord_of_ne _ _ (by omega), word_setWord_of_ne _ _ (by omega)]

theorem readInfo_writeInfo_of_ne {w j : ℕ} (bi : BlockInfo)
    (h : w + 1 < 256 ∧ j + 1 < 256 ∧ (j + 1 < w ∨ w + 1 < j)) : readInfo (writeInfo b w bi) j = readInfo b j := by
  rw [readInfo, readInfo, word_writeInfo_of_ne b bi (by omega), word_writeInfo_of_ne b bi (by omega)]

theorem readInfo_setWord_of_ne {w j : ℕ} (n : ℕ) (h : w < 256 ∧ j + 1 < 256 ∧ (j + 1 < w ∨ w < j)) :
    readInfo (setWord b w n) j = readInfo b j := by
  rw [readInfo, readInfo, word_setWord_of_ne b n (by omega), word_setWord_of_ne b n (by omega)]

theorem setWord_word (i : ℕ) : setWord b i (word b i) = b := by
  rw [setWord, word, ofNat_toNat, setWidth_eq, update_eq_self]

theorem writeInfo_readInfo (w : ℕ) : writeInfo b w (readInfo b w) = b := by
  have hlt := word_lt b (w + 1)
  have hpacked : word b (w + 1) % 65536 % 65536 + word b (w + 1) / 65536 % 65536 * 65536 = word b (w + 1) := by
    omega
  rw [writeInfo]
  show setWord (setWord b w (word b w)) (w + 1)
    (word b (w + 1) % 65536 % 65536 + word b (w + 1) / 65536 % 65536 * 65536) = b
  rw [hpacked, setWord_word, setWord_word]

end

/-- `inode_block`. -/
def inodeBlock (b : MetaBlock) : BlockInfo := readInfo b 2

/-- `next_segment`. -/
def nextSegment (b : MetaBlock) : BlockInfo := readInfo b 4

/-- `last_segment`. -/
def lastSegment (b : MetaBlock) : BlockInfo := readInfo b 6

/-- `data[i]`; a descriptor has 123 of them, an inode has 114. -/
def data (b : MetaBlock) (i : ℕ) : BlockInfo := readInfo b (10 + 2 * i)

/-- `size`. -/
def size (b : MetaBlock) : ℕ := word b 246 + word b 247 * 2 ^ 32

/-- `number_blocks`. -/
def numberBlocks (b : MetaBlock) : ℕ := word b 248

/-- `number_data`. -/
def numberData (b : MetaBlock) : ℕ := word b 249

/-- `number_segdesg`. -/
def numberSegdesg (b : MetaBlock) : ℕ := word b 250

variable (index : ℕ)

/-- `pfsFixIndex`: the index of an entry in its block. -/
def pfsFixIndex : ℕ :=
  if index < 114 then index else (index - 114) % 123

/-- The descriptor an entry is in; 0 is the inode. -/
def descIndex : ℕ :=
  if index < 114 then 0 else 1 + (index - 114) / 123

theorem pfsFixIndex_lt : pfsFixIndex index < 123 := by
  unfold pfsFixIndex
  split
  · omega
  · exact mod_lt _ (by decide)

theorem descIndex_succ :
    descIndex (index + 1) = if pfsFixIndex (index + 1) = 0 then descIndex index + 1 else descIndex index := by
  unfold descIndex pfsFixIndex
  split <;> split <;> split <;> omega

theorem descIndex_mono {i j : ℕ} (h : i ≤ j) : descIndex i ≤ descIndex j := by
  unfold descIndex
  split <;> split <;> omega

theorem index_unique {i j : ℕ} (hdesc : descIndex i = descIndex j) (hfix : pfsFixIndex i = pfsFixIndex j) :
    i = j := by
  unfold descIndex pfsFixIndex at *
  split at hdesc <;> split at hdesc <;> simp_all <;> omega

/-- Where a metadata block is: its partition and its number in it. -/
structure Place where
  sub : ℕ
  block : ℕ
  deriving DecidableEq

/-- A mounted volume as the routines on inodes see it. -/
structure Vol where
  zsize : ℕ
  inodeScale : ℕ
  block : Place → MetaBlock
  used : ℕ → ℕ → Bool
  freeZone : ℕ → BitVec 32
  zfree : BitVec 32
  legal : pfsCheckZoneSize zsize = 1
  scale : zsize = 1024 <<< inodeScale

namespace Vol

variable (v : Vol)

/-- The place of the first block of a zone. -/
def zonePlace (bi : BlockInfo) : Place := ⟨bi.subpart, (bi.number <<< v.inodeScale) % 2 ^ 32⟩

/-- Store a block. -/
def setBlock (x : Place) (b : MetaBlock) : Vol := { v with block := Function.update v.block x b }

@[simp]
theorem setBlock_self (x : Place) (b : MetaBlock) : (v.setBlock x b).block x = b :=
  update_self ..

theorem setBlock_of_ne {x y : Place} (b : MetaBlock) (h : y ≠ x) : (v.setBlock x b).block y = v.block y :=
  update_of_ne h ..

theorem setBlock_block (x : Place) : v.setBlock x (v.block x) = v := by
  rw [setBlock, update_eq_self]

theorem zsize_bounds : 2048 ≤ v.zsize ∧ v.zsize ≤ 131072 := by
  obtain ⟨hlow, hhigh⟩ := pfsCheckZoneSize_spec v.legal
  omega

theorem zsize_pos : 0 < v.zsize := lt_of_lt_of_le (by decide) v.zsize_bounds.1

end Vol

end Layout

section Segments

open Lib Nat

namespace Vol

/-- The descriptors of an inode; the first is the inode. -/
def descAt (v : Vol) (x : Place) : ℕ → Place
  | 0 => x
  | d + 1 => v.zonePlace (nextSegment (v.block (v.descAt x d)))

variable (v : Vol) (x : Place)

/-- An entry of an inode, with its descriptors. -/
def entry (i : ℕ) : BlockInfo := data (v.block (v.descAt x (descIndex i))) (pfsFixIndex i)

/-- `number_data` of an inode. -/
def entries : ℕ := numberData (v.block x)

/-- The index of the last descriptor of an inode. -/
def lastDesc : ℕ := descIndex (v.entries x - 1)

/-- The number of data zones of an entry: a descriptor has none. -/
def dataSize (i : ℕ) : ℕ := if pfsFixIndex i = 0 then 0 else (v.entry x i).count

/-- A zone of an entry, by its partition and number. -/
def zoneOf (i off : ℕ) : ℕ × ℕ := ((v.entry x i).subpart, (v.entry x i).number + off)

/-- The number of data zones of an inode. -/
def capacity : ℕ := before (v.dataSize x) (v.entries x)

/-- The data zones of an inode, in the order of the file. -/
def dataZones : List (ℕ × ℕ) := concat (v.dataSize x) (v.zoneOf x) (v.entries x)

end Vol

variable (v : Vol) (x : Place)

/-- A chain of segments: each descriptor has its own zone as its first entry, and the links end with the
descriptor of the last entry. -/
@[mk_iff] structure SegmentChain : Prop where
  nonempty : 1 ≤ v.entries x
  own : ∀ i < v.entries x, pfsFixIndex i = 0 →
    (v.entry x i).count = 1 ∧ v.zonePlace (v.entry x i) = v.descAt x (descIndex i)
  linked : ∀ d < v.lastDesc x, (nextSegment (v.block (v.descAt x d))).number ≠ 0
  ended : (nextSegment (v.block (v.descAt x (v.lastDesc x)))).number = 0
  blocks : numberBlocks (v.block x) = before (fun i => (v.entry x i).count) (v.entries x)

/-- A well-formed chain: every entry has zones, and the file fits in its data. -/
@[mk_iff] structure Chain : Prop extends SegmentChain v x where
  filled : ∀ i < v.entries x, 1 ≤ (v.entry x i).count
  fits : size (v.block x) ≤ v.capacity x * v.zsize

/-- A chain whose segments have no zone in common; the numbers of zones are of 32 bits. -/
@[mk_iff] structure ApartChain : Prop extends Chain v x where
  numbered : ∀ i < v.entries x, (v.entry x i).number + (v.entry x i).count ≤ 2 ^ 32
  apart : ∀ i < v.entries x, ∀ j < v.entries x, ∀ off < (v.entry x i).count, ∀ off' < (v.entry x j).count,
    v.zoneOf x i off = v.zoneOf x j off' → i = j

instance (v : Vol) (x : Place) : Decidable (SegmentChain v x) := decidable_of_iff' _ (segmentChain_iff v x)
instance (v : Vol) (x : Place) : Decidable (Chain v x) := decidable_of_iff' _ (chain_iff v x)
set_option synthInstance.maxSize 256 in
instance (v : Vol) (x : Place) : Decidable (ApartChain v x) := decidable_of_iff' _ (apartChain_iff v x)

namespace Vol

theorem dataSize_le (i : ℕ) : v.dataSize x i ≤ (v.entry x i).count := by
  unfold dataSize
  split
  · exact zero_le _
  · exact le_refl _

theorem dataSize_of_ne {v : Vol} {x : Place} {i : ℕ} (h : pfsFixIndex i ≠ 0) :
    v.dataSize x i = (v.entry x i).count := if_neg h

theorem dataSize_of_eq {v : Vol} {x : Place} {i : ℕ} (h : pfsFixIndex i = 0) : v.dataSize x i = 0 := if_pos h

theorem dataZones_length : (v.dataZones x).length = v.capacity x := concat_length _ _

end Vol

variable {v : Vol} {x : Place}

variable (h : SegmentChain v x)

include h

theorem SegmentChain.self_count : (v.entry x 0).count = 1 := (h.own 0 h.nonempty rfl).1

/-- The zones before an entry, with the inode itself. -/
theorem SegmentChain.before_lt {n : ℕ} (hpos : 1 ≤ n) :
    before (v.dataSize x) n < before (fun i => (v.entry x i).count) n := by
  induction n, hpos using le_induction with
  | base =>
    show 0 + v.dataSize x 0 < 0 + (v.entry x 0).count
    rw [h.self_count, Vol.dataSize_of_eq (show pfsFixIndex 0 = 0 from rfl)]
    exact one_pos
  | succ n _ ih =>
    rw [before, before]
    exact Nat.add_lt_add_of_lt_of_le ih (v.dataSize_le x n)

theorem SegmentChain.capacity_lt : v.capacity x + 1 < 2 ^ 32 := by
  have hlt := h.before_lt h.nonempty
  rw [← h.blocks] at hlt
  have hword := word_lt (v.block x) 248
  unfold Vol.capacity
  unfold numberBlocks at hlt
  omega

/-- The next descriptor is there, as long as there are entries in it. -/
theorem SegmentChain.next_ne_zero {i : ℕ} (hi : i + 1 < v.entries x) (hfix : pfsFixIndex (i + 1) = 0) :
    (nextSegment (v.block (v.descAt x (descIndex i)))).number ≠ 0 := by
  refine h.linked _ ?_
  have hsucc := descIndex_succ i
  rw [if_pos hfix] at hsucc
  have hmono : descIndex (i + 1) ≤ descIndex (v.entries x - 1) := descIndex_mono (by omega)
  unfold Vol.lastDesc
  omega

omit h

/-- The zones of the first entries: the data and one for each descriptor. -/
theorem before_count_eq (count : ℕ → ℕ) (n : ℕ) (hown : ∀ i ≤ n, pfsFixIndex i = 0 → count i = 1) :
    before count (n + 1) = before (fun i => if pfsFixIndex i = 0 then 0 else count i) (n + 1) +
      (descIndex n + 1) := by
  induction n with
  | zero =>
    show 0 + count 0 = 0 + 0 + (0 + 1)
    rw [hown 0 (le_refl 0) rfl]
  | succ n ih =>
    have hdata : before (fun i => if pfsFixIndex i = 0 then 0 else count i) (n + 1 + 1) =
      before (fun i => if pfsFixIndex i = 0 then 0 else count i) (n + 1) +
        if pfsFixIndex (n + 1) = 0 then 0 else count (n + 1) := rfl
    rw [before, ih fun i hi => hown i (le_succ_of_le hi), hdata, descIndex_succ]
    by_cases hfix : pfsFixIndex (n + 1) = 0
    · rw [if_pos hfix, if_pos hfix, hown (n + 1) (le_refl _) hfix]
      omega
    · rw [if_neg hfix, if_neg hfix]
      omega

/-- The blocks of an inode are its data zones and one for each descriptor. -/
theorem SegmentChain.numberBlocks_eq (h : SegmentChain v x) : numberBlocks (v.block x) = v.capacity x +
    (v.lastDesc x + 1) := by
  have hcount := before_count_eq (fun i => (v.entry x i).count) (v.entries x - 1) fun i hi hfix =>
    (h.own i (by have hpos := h.nonempty; omega) hfix).1
  rw [Nat.sub_add_cancel h.nonempty] at hcount
  rw [h.blocks, hcount]
  rfl

end Segments

section Updates

open Lib Nat Vol

variable {v v' : Vol} {x : Place}

/-- The descriptors depend on the links before them. -/
theorem Vol.descAt_congr (hscale : v'.inodeScale = v.inodeScale) {last : ℕ}
    (hnext : ∀ d < last, nextSegment (v'.block (v.descAt x d)) = nextSegment (v.block (v.descAt x d))) :
    ∀ d ≤ last, v'.descAt x d = v.descAt x d := by
  intro d
  induction d with
  | zero => exact fun _ => rfl
  | succ d ih =>
    intro hd
    rw [descAt, descAt, ih (le_of_succ_le hd), hnext d hd, zonePlace, zonePlace, hscale]

theorem Vol.entry_congr (hblock : v'.block = v.block) (hscale : v'.inodeScale = v.inodeScale) (i : ℕ) :
    v'.entry x i = v.entry x i := by
  have hdesc := @descAt_congr v v' x hscale (descIndex i) (fun d _ => by rw [hblock]) _ (le_refl _)
  rw [entry, entry, hdesc, hblock]

theorem Vol.descAt_add {a b : ℕ} (heq : v.descAt x a = v.descAt x b) (t : ℕ) :
    v.descAt x (a + t) = v.descAt x (b + t) := by
  induction t with
  | zero => exact heq
  | succ t ih => rw [← add_assoc, ← add_assoc, descAt, descAt, ih]

/-- The descriptors lie in different blocks. -/
theorem SegmentChain.descAt_inj (h : SegmentChain v x) {a b : ℕ} (ha : a ≤ v.lastDesc x) (hb : b ≤ v.lastDesc x)
    (heq : v.descAt x a = v.descAt x b) : a = b := by
  have hlt : ∀ {a b : ℕ}, a < b → b ≤ v.lastDesc x → v.descAt x a ≠ v.descAt x b := by
    intro a b hab hb heq
    -- the earlier one would have the last descriptor where the chain goes on
    have hlast := descAt_add heq (v.lastDesc x - b)
    rw [Nat.add_sub_cancel' hb] at hlast
    refine h.linked (a + (v.lastDesc x - b)) (by omega) ?_
    rw [hlast]
    exact h.ended
  rcases lt_trichotomy a b with hab | rfl | hab
  · exact absurd heq (hlt hab hb)
  · rfl
  · exact absurd heq.symm (hlt hab ha)

/-- The first descriptors lie in different blocks. -/
def Vol.Separate (v : Vol) (x : Place) (last : ℕ) : Prop :=
  ∀ a ≤ last, ∀ b ≤ last, v.descAt x a = v.descAt x b → a = b

theorem SegmentChain.separate (h : SegmentChain v x) : v.Separate x (v.lastDesc x) :=
  fun _ ha _ hb heq => h.descAt_inj ha hb heq

theorem Vol.Separate.eq_zero {last d : ℕ} (h : v.Separate x last) (hd : d ≤ last) (heq : v.descAt x d = x) :
    d = 0 :=
  h d hd 0 (zero_le _) heq

theorem Vol.descIndex_le {i : ℕ} (hi : i < v.entries x) : descIndex i ≤ v.lastDesc x := descIndex_mono (by omega)

theorem pfsFixIndex_lt_of_inode {i : ℕ} (h : descIndex i = 0) : pfsFixIndex i < 114 := by
  unfold descIndex at h
  unfold pfsFixIndex
  split at h
  · next hlt => rwa [if_pos hlt]
  · omega

/-- Store an entry of a chain. -/
def Vol.setEntry (v : Vol) (x : Place) (i : ℕ) (bi : BlockInfo) : Vol :=
  v.setBlock (v.descAt x (descIndex i))
    (writeInfo (v.block (v.descAt x (descIndex i))) (10 + 2 * pfsFixIndex i) bi)

section SetEntry

variable {last : ℕ} (h : v.Separate x last) {i : ℕ} (hi : descIndex i ≤ last) (bi : BlockInfo)

theorem Vol.setEntry_head (v : Vol) (x : Place) (i : ℕ) (bi : BlockInfo) (p : Place) {w : ℕ} (hw : w + 1 < 10) :
    readInfo ((v.setEntry x i bi).block p) w = readInfo (v.block p) w := by
  have hfix := pfsFixIndex_lt i
  by_cases hp : p = v.descAt x (descIndex i)
  · subst hp
    rw [setEntry, setBlock_self, readInfo_writeInfo_of_ne _ _ (by omega)]
  · rw [setEntry, setBlock_of_ne _ _ hp]

theorem Vol.setEntry_descAt (v : Vol) (x : Place) (i : ℕ) (bi : BlockInfo) (d : ℕ) :
    (v.setEntry x i bi).descAt x d = v.descAt x d :=
  @descAt_congr v (v.setEntry x i bi) x rfl d
    (fun _ _ => v.setEntry_head x i bi _ (by omega : (4 : ℕ) + 1 < 10)) d (le_refl d)

include h hi in
/-- The fields of the inode behind its entries stay. -/
theorem Vol.Separate.setEntry_tail {w : ℕ} (hlow : 238 ≤ w) (hhigh : w < 256) :
    word ((v.setEntry x i bi).block x) w = word (v.block x) w := by
  by_cases hdesc : descIndex i = 0
  · have hfix := pfsFixIndex_lt_of_inode hdesc
    rw [setEntry, hdesc, descAt, setBlock_self,
      word_writeInfo_of_ne _ _ (by omega)]
  · have hne : x ≠ v.descAt x (descIndex i) := fun heq =>
      hdesc (h.eq_zero hi heq.symm)
    rw [setEntry, setBlock_of_ne _ _ hne]

include h hi in
/-- The entry is the one stored, the others stay. -/
theorem Vol.Separate.setEntry_entry (hbi : bi.Fits) {j : ℕ} (hj : descIndex j ≤ last) :
    (v.setEntry x i bi).entry x j = if j = i then bi else v.entry x j := by
  have hfix := pfsFixIndex_lt i
  have hfixj := pfsFixIndex_lt j
  rw [entry, v.setEntry_descAt]
  by_cases hdesc : descIndex j = descIndex i
  · rw [hdesc, setEntry, setBlock_self]
    by_cases hij : j = i
    · subst hij
      rw [if_pos rfl]
      exact readInfo_writeInfo _ (by omega) hbi
    · have hne : pfsFixIndex j ≠ pfsFixIndex i := fun heq => hij (index_unique hdesc heq)
      rw [if_neg hij, entry, hdesc]
      exact readInfo_writeInfo_of_ne _ _ (by omega)
  · have hne : v.descAt x (descIndex j) ≠ v.descAt x (descIndex i) := fun heq =>
      hdesc (h _ hj _ hi heq)
    rw [setEntry, setBlock_of_ne _ _ hne, if_neg (fun heq => hdesc (congrArg descIndex heq)), entry]

end SetEntry

theorem Vol.setEntry_entry (v : Vol) (x : Place) (i : ℕ) : v.setEntry x i (v.entry x i) = v := by
  rw [setEntry, entry, data, writeInfo_readInfo, setBlock_block]

section SetInode

variable {b : MetaBlock} (hnext : nextSegment b = nextSegment (v.block x))

include hnext

theorem Vol.setInode_descAt (d : ℕ) : (v.setBlock x b).descAt x d = v.descAt x d := by
  refine @descAt_congr v (v.setBlock x b) x rfl d (fun d _ => ?_) d (le_refl d)
  by_cases hd : v.descAt x d = x
  · rw [hd, setBlock_self, hnext]
  · rw [setBlock_of_ne _ _ hd]

theorem Vol.setInode_entry (hdata : ∀ i < 114, data b i = data (v.block x) i) {last : ℕ} (h : v.Separate x last)
    {j : ℕ} (hj : descIndex j ≤ last) : (v.setBlock x b).entry x j = v.entry x j := by
  rw [entry, setInode_descAt hnext, entry]
  by_cases hd : v.descAt x (descIndex j) = x
  · rw [hd, setBlock_self, hdata _ (pfsFixIndex_lt_of_inode (h.eq_zero hj hd))]
  · rw [setBlock_of_ne _ _ hd]

end SetInode

theorem Vol.Separate.congr {last : ℕ} (h : v.Separate x last) (hdesc : ∀ d ≤ last, v'.descAt x d = v.descAt x d) :
    v'.Separate x last := by
  intro a ha b hb heq
  rw [hdesc a ha, hdesc b hb] at heq
  exact h a ha b hb heq

end Updates

end Ps2sdk.Pfs
