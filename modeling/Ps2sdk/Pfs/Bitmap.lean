import Ps2sdk.Pfs.Journal

/-!
# The zone bitmaps

The routines of `bitmap.c`. Each partition of a volume has a bitmap with one bit per zone, cut
into chunks of one metadata block that are read and edited through the cache. The loops over
words and bits are kept as in the source; their first argument bounds the turns that remain.
-/

namespace Ps2sdk.Pfs

open Lib

variable {n : ℕ}

/-- `pfsBitsPerBitmapChunk`. -/
abbrev bitsPerBitmapChunk : ℕ := 8192

/-- `pfs_bitmapInfo_t`. -/
structure BitmapInfo where
  chunk : ℕ
  index : ℕ
  bit : ℕ
  partitionChunks : ℕ
  partitionRemainder : ℕ

variable (mount : Mount)

/-- The zones of a partition. -/
def Mount.zones (subpart : ℕ) : ℕ := mount.partSize subpart >>> mount.sectorScale

/-- `pfsBitmapSetupInfo`. -/
def pfsBitmapSetupInfo (subpart number : ℕ) : BitmapInfo where
  chunk := number / bitsPerBitmapChunk
  bit := number % 32
  index := number % bitsPerBitmapChunk / 32
  partitionChunks := mount.zones subpart / bitsPerBitmapChunk
  partitionRemainder := mount.zones subpart % bitsPerBitmapChunk

/-- The loop condition over the chunks of a partition. -/
def BitmapInfo.inPartition (info : BitmapInfo) (chunk : ℕ) : Bool :=
  (info.partitionRemainder == 0 && chunk < info.partitionChunks) ||
    (info.partitionRemainder != 0 && chunk < info.partitionChunks + 1)

/-- The words of a chunk that describe zones of the partition. -/
def BitmapInfo.words (info : BitmapInfo) (chunk : ℕ) : ℕ :=
  if chunk = info.partitionChunks then info.partitionRemainder / 32 else 256

/-- The metadata block of a bitmap chunk. -/
def Mount.bitmapSector (subpart chunk : ℕ) : ℕ :=
  (1 <<< mount.inodeScale) + chunk + if subpart = 0 then 0x2000 >>> 1 else 0

/-- `PFS_BITMAP_ALLOC` and `PFS_BITMAP_FREE`. -/
inductive BitmapOp
  | alloc
  | free

/-- Set or clear a bit of a word. -/
def BitmapOp.apply (op : BitmapOp) (word : BitVec 32) (bit : ℕ) : BitVec 32 :=
  match op with
  | .alloc => word ||| (1#32 <<< bit)
  | .free => word &&& ~~~(1#32 <<< bit)

/-- The loop over the bits of a word in `pfsBitmapAllocFree`. -/
def allocFreeWord (op : BitmapOp) : ℕ → BitVec 32 → ℕ → ℕ → BitVec 32 × ℕ
  | 0, word, _, count => (word, count)
  | k + 1, word, bit, count =>
    if count = 0 then (word, count) else allocFreeWord op k (op.apply word bit) (bit + 1) (count - 1)

/-- The loop over the words of a chunk in `pfsBitmapAllocFree`. -/
def allocFreeChunk (op : BitmapOp) : ℕ → MetaBlock → ℕ → ℕ → ℕ → MetaBlock × ℕ
  | 0, data, _, _, count => (data, count)
  | k + 1, data, index, bit, count =>
    if count = 0 then (data, count)
    else
      let (word, count) := allocFreeWord op (32 - bit) (data (Fin.ofNat 256 index)) bit count
      allocFreeChunk op k (Function.update data (Fin.ofNat 256 index) word) (index + 1) 0 count

/-- The loop over chunks in `pfsBitmapAllocFree`. -/
def allocFreeLoop (op : BitmapOp) (pfsMount subpart : ℕ) : ℕ → Driver n → Option (Fin n) → ℕ → ℕ → ℕ → ℕ → Driver n
  | 0, s, _, _, _, _, _ => s
  | _, s, none, _, _, _, _ => s
  | k + 1, s, some clink, chunk, index, bit, count =>
    let (data, count) := allocFreeChunk op (256 - index) (s.cacheBuf clink).data index bit count
    let s := pfsCacheFree (s.edit clink data) clink
    if count = 0 then s
    else
      let (_, clink, s) := pfsCacheGetData s pfsMount subpart
        ((s.mounts pfsMount).bitmapSector subpart (chunk + 1)) .bitmap
      allocFreeLoop op pfsMount subpart k s clink (chunk + 1) 0 0 count

variable (s : Driver n) (pfsMount : ℕ)

/-- `pfsBitmapAllocFree`: every turn but the last handles at least one zone. -/
def pfsBitmapAllocFree (clink : Option (Fin n)) (op : BitmapOp) (subpart chunk index bit count : ℕ) : Driver n :=
  allocFreeLoop op pfsMount subpart (count + 1) s clink chunk index bit count

/-- Where the loops of `pfsBitmapAllocateAdditionalZones` stand within a chunk. -/
structure Extension where
  data : MetaBlock
  bit : ℕ
  count : ℕ
  res : ℕ
  used : Bool

/-- The loop over the bits of a word in `pfsBitmapAllocateAdditionalZones`. -/
def extendWord (index : ℕ) : ℕ → Extension → Extension
  | 0, ext => ext
  | k + 1, ext =>
    let word := ext.data (Fin.ofNat 256 index)
    if ext.count = 0 then ext
    else if word.getLsbD ext.bit then { ext with used := true }
    else
      extendWord index k { ext with
        res := ext.res + 1
        data := Function.update ext.data (Fin.ofNat 256 index) (word ||| (1#32 <<< ext.bit))
        bit := ext.bit + 1
        count := ext.count - 1 }

/-- The loop over the words of a chunk in `pfsBitmapAllocateAdditionalZones`. -/
def extendChunk : ℕ → ℕ → Extension → Extension
  | 0, _, ext => ext
  | k + 1, index, ext =>
    if ext.count = 0 then ext
    else
      let ext := extendWord index (32 - ext.bit) ext
      if ext.used then ext else extendChunk k (index + 1) { ext with bit := 0 }

/-- The loop over chunks in `pfsBitmapAllocateAdditionalZones`. -/
def extendLoop (info : BitmapInfo) (pfsMount subpart : ℕ) : ℕ → Driver n → ℕ → ℕ → ℕ → ℕ → ℕ → ℕ × Driver n
  | 0, s, _, _, _, _, res => (res, s)
  | k + 1, s, chunk, index, bit, count, res =>
    if info.inPartition chunk = false ∨ count = 0 then (res, s)
    else
      match pfsCacheGetData s pfsMount subpart ((s.mounts pfsMount).bitmapSector subpart chunk) .bitmap with
      | (_, none, s) => (res, s)
      | (_, some c, s) =>
        let ext := extendChunk (info.words chunk - index) index ⟨(s.cacheBuf c).data, bit, count, res, false⟩
        let s := pfsCacheFree (if ext.res = res then s else s.edit c ext.data) c
        if ext.used then (ext.res, s)
        else extendLoop info pfsMount subpart k s (chunk + 1) 0 ext.bit ext.count ext.res

variable (pfsMount subpart count : ℕ)

/-- Take zones from the free counts. -/
def Driver.takeZones : Driver n :=
  let mount := s.mounts pfsMount
  { s with
    mounts := Function.update s.mounts pfsMount { mount with
      freeZone := Function.update mount.freeZone subpart (mount.freeZone subpart - BitVec.ofNat 32 count)
      zfree := mount.zfree - BitVec.ofNat 32 count } }

/-- Give zones back to the free counts. -/
def Driver.giveZones : Driver n :=
  let mount := s.mounts pfsMount
  { s with
    mounts := Function.update s.mounts pfsMount { mount with
      freeZone := Function.update mount.freeZone subpart (mount.freeZone subpart + BitVec.ofNat 32 count)
      zfree := mount.zfree + BitVec.ofNat 32 count } }

variable (bi : BlockInfo)

/-- `pfsBitmapAllocateAdditionalZones`: the number of zones added to the run. -/
def pfsBitmapAllocateAdditionalZones (count : ℕ) : ℕ × Driver n :=
  let info := pfsBitmapSetupInfo (s.mounts pfsMount) bi.subpart ((bi.number + bi.count) % 2 ^ 32)
  let count := if 65535 - bi.count < count then 65535 - bi.count else count
  let (res, s) := extendLoop info pfsMount bi.subpart (info.partitionChunks + 2) s info.chunk info.index
    info.bit count 0
  (res, s.takeZones pfsMount bi.subpart res)

/-- Where the search of `pfsBitmapAllocZones` stands. -/
structure ZoneSearch where
  startBit : ℕ
  startPos : ℕ
  startChunk : ℕ
  count : ℕ
  found : Bool

/-- The loop over the bits of a word in `pfsBitmapAllocZones`. -/
def searchWord (amount chunk pos : ℕ) (word : BitVec 32) : ℕ → ℕ → ZoneSearch → ZoneSearch
  | 0, _, z => z
  | k + 1, i, z =>
    if word.getLsbD i then searchWord amount chunk pos word k (i + 1) { z with count := 0 }
    else
      let z := if z.count = 0 then { z with startBit := i, startChunk := chunk, startPos := pos } else z
      let z := { z with count := z.count + 1 }
      if z.count = amount then { z with found := true }
      else searchWord amount chunk pos word k (i + 1) z

/-- The loop over the words of a chunk in `pfsBitmapAllocZones`. -/
def searchChunk (amount chunk : ℕ) (data : MetaBlock) : ℕ → ℕ → ℕ → ZoneSearch → ZoneSearch
  | 0, _, _, z => z
  | k + 1, pos, bit, z =>
    let z := searchWord amount chunk pos (data (Fin.ofNat 256 pos)) (32 - bit) bit z
    if z.found then z else searchChunk amount chunk data k (pos + 1) 0 z

/-- The run that a successful search found, in the caller's record. -/
def ZoneSearch.run (z : ZoneSearch) (bi : BlockInfo) : BlockInfo :=
  { bi with
    number := z.startPos * 32 + z.startChunk * bitsPerBitmapChunk + z.startBit
    count := if z.count < bi.count then z.count else bi.count }

/-- Mark the run that a search found, starting from the chunk it ended in. -/
def allocFound (bitmap : Fin n) (z : ZoneSearch) (bi : BlockInfo) : Driver n :=
  let mount := s.mounts pfsMount
  if (s.cacheBuf bitmap).sector ≠ z.startChunk + (1 <<< mount.inodeScale) then
    let s := pfsCacheFree s bitmap
    let (_, bitmap, s) := pfsCacheGetData s pfsMount bi.subpart
      (mount.bitmapSector bi.subpart z.startChunk) .bitmap
    pfsBitmapAllocFree s pfsMount bitmap .alloc bi.subpart z.startChunk z.startPos z.startBit bi.count
  else
    pfsBitmapAllocFree s pfsMount (some bitmap) .alloc bi.subpart z.startChunk z.startPos z.startBit bi.count

/-- The loop over chunks in `pfsBitmapAllocZones`. -/
def searchLoop (info : BitmapInfo) (pfsMount : ℕ) (bi : BlockInfo) (amount : ℕ) :
    ℕ → Driver n → ℕ → ℕ → ℕ → ZoneSearch → Bool × BlockInfo × Driver n
  | 0, s, _, _, _, _ => (false, bi, s)
  | k + 1, s, chunk, index, bit, z =>
    if info.inPartition chunk = false then (false, bi, s)
    else
      match pfsCacheGetData s pfsMount bi.subpart
          ((s.mounts pfsMount).bitmapSector bi.subpart chunk) .bitmap with
      | (_, none, s) => (false, bi, s)
      | (_, some bitmap, s) =>
        let z := searchChunk amount chunk (s.cacheBuf bitmap).data (info.words chunk - index) index bit z
        if z.found then (true, z.run bi, allocFound s pfsMount bitmap z (z.run bi))
        else
          searchLoop info pfsMount bi amount k (pfsCacheFree s bitmap) (chunk + 1) 0
            (if index < info.words chunk then 0 else bit) z

/-- `pfsBitmapAllocZones`: whether `amount` free zones were found, and the caller's record. -/
def pfsBitmapAllocZones (amount : ℕ) : Bool × BlockInfo × Driver n :=
  let info := pfsBitmapSetupInfo (s.mounts pfsMount) bi.subpart bi.number
  searchLoop info pfsMount bi amount (info.partitionChunks + 2) s info.chunk info.index info.bit
    ⟨0, 0, 0, 0, false⟩

/-- The loop over ever smaller amounts in `pfsBitmapSearchFreeZone`. -/
def trySizes (pfsMount : ℕ) : ℕ → Driver n → BlockInfo → ℕ → Bool × BlockInfo × Driver n
  | 0, s, bi, _ => (false, bi, s)
  | k + 1, s, bi, amount =>
    if amount = 0 then (false, bi, s)
    else
      let (ok, bi, s) :=
        if amount ≤ ((s.mounts pfsMount).freeZone bi.subpart).toNat then pfsBitmapAllocZones s pfsMount bi amount
        else (false, bi, s)
      if ok then (true, bi, s) else trySizes pfsMount k s bi (amount / 2)

/-- The loop over partitions in `pfsBitmapSearchFreeZone`; it runs out of turns where the source
does not return, since `num` is unsigned and never below zero. -/
def searchPartitions (pfsMount count : ℕ) : ℕ → Driver n → BlockInfo → BitVec 32 → Option (ℤ × BlockInfo × Driver n)
  | 0, _, _, _ => none
  | turns + 1, s, bi, num =>
    if 0 ≤ num then
      let (ok, bi, s) := trySizes pfsMount (count + 1) s bi count
      if ok then some (0, bi, s.takeZones pfsMount bi.subpart bi.count)
      else
        let subpart := bi.subpart + 1
        searchPartitions pfsMount count turns s
          { bi with
            number := 0
            subpart := if subpart = (s.mounts pfsMount).numSubs + 1 then 0 else subpart } (num - 1)
    else some (-28, bi, s)

/-- `pfsBitmapSearchFreeZone`, for as many turns over the partitions as are given. -/
def pfsBitmapSearchFreeZone (turns : ℕ) (s : Driver n) (pfsMount : ℕ) (bi : BlockInfo) (maxCount : ℕ) :
    Option (ℤ × BlockInfo × Driver n) :=
  let numSubs := (s.mounts pfsMount).numSubs
  let bi := if numSubs + 1 ≤ bi.subpart then { bi with subpart := 0 } else bi
  let num := if bi.number ≠ 0 then numSubs + 2 else numSubs + 1
  let count := if maxCount < 33 then maxCount else 32
  let count := if count < bi.count then bi.count else count
  searchPartitions pfsMount count turns s bi (BitVec.ofNat 32 num - 1)

/-- `pfsBitmapFreeBlockSegment`. -/
def pfsBitmapFreeBlockSegment : Driver n :=
  let info := pfsBitmapSetupInfo (s.mounts pfsMount) bi.subpart bi.number
  match pfsCacheGetData s pfsMount bi.subpart
      ((s.mounts pfsMount).bitmapSector bi.subpart info.chunk) .bitmap with
  | (_, none, s) => s
  | (_, some clink, s) =>
    (pfsBitmapAllocFree s pfsMount (some clink) .free bi.subpart info.chunk info.index info.bit
      bi.count).giveZones pfsMount bi.subpart bi.count

/-- `pfsFreeZoneBitmap`: the clear bits of a nibble. -/
def freeZoneBitmap (nibble : BitVec 4) : BitVec 32 :=
  [4, 3, 3, 2, 3, 2, 2, 1, 3, 2, 2, 1, 2, 1, 1, 0].getD nibble.toNat 0

/-- Byte `i` of a block. -/
def blockByte (data : MetaBlock) (i : ℕ) : BitVec 8 :=
  (data (Fin.ofNat 256 (i / 4))).extractLsb' (8 * (i % 4)) 8

/-- The clear bits of the first bytes of a block, as the table counts them. -/
def countFree (data : MetaBlock) (bitmapSize : ℕ) (zoneFree : BitVec 32) : BitVec 32 :=
  (List.range bitmapSize).foldl (fun zoneFree i => zoneFree +
    (freeZoneBitmap ((blockByte data i).extractLsb' 0 4) + freeZoneBitmap ((blockByte data i).extractLsb' 4 4)))
    zoneFree

/-- The loop of `pfsBitmapCalcFreeZones`; a chunk that cannot be had is skipped. -/
def calcLoop (info : BitmapInfo) (pfsMount sub : ℕ) : ℕ → Driver n → ℕ → BitVec 32 → BitVec 32 × Driver n
  | 0, s, _, zoneFree => (zoneFree, s)
  | k + 1, s, chunk, zoneFree =>
    if info.inPartition chunk = false then (zoneFree, s)
    else
      let bitmapSize := if chunk = info.partitionChunks then info.partitionRemainder / 8 else 1024
      match pfsCacheGetData s pfsMount sub ((s.mounts pfsMount).bitmapSector sub chunk) .bitmap with
      | (_, none, s) => calcLoop info pfsMount sub k s (chunk + 1) zoneFree
      | (_, some clink, s) =>
        calcLoop info pfsMount sub k (pfsCacheFree s clink) (chunk + 1)
          (countFree (s.cacheBuf clink).data bitmapSize zoneFree)

/-- `pfsBitmapCalcFreeZones`. -/
def pfsBitmapCalcFreeZones (pfsMount sub : ℕ) : BitVec 32 × Driver n :=
  let info := pfsBitmapSetupInfo (s.mounts pfsMount) sub 0
  calcLoop info pfsMount sub (info.partitionChunks + 2) s info.chunk 0

end Ps2sdk.Pfs
