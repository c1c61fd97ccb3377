import Mathlib.Algebra.Ring.Nat
import Mathlib.Data.Fintype.Basic
import Ps2sdk.Lib.RedoLog

/-!
# PFS metadata, its journal and its cache

The types of `libpfs.h` that the metadata cache and the journal work on. A metadata block is
1024 bytes, read as 256 little-endian words; the block device is addressed by partition (the
main one is 0) and sector of 512 bytes. The journal record is kept as a structure together
with its memory image, since it is checksummed and transferred as raw words.

A flush of the cache writes the whole cache image behind the journal record, then the record, then
the dirty buffers in place, and clears the record again. The block device completes every
transfer, so the branches on a negative result are not taken. `pfsJournalRestore` copies logged
blocks to their places through a scratch buffer of the cache.
-/

namespace Ps2sdk.Pfs

open Lib BitVec

/-- The places of a table may be given as numerals. -/
scoped instance neZero256 : NeZero 256 := ⟨nofun⟩
scoped instance neZero1 : NeZero 1 := ⟨nofun⟩

/-- `pfs_blockinfo_t`: a run of zones. -/
structure BlockInfo where
  number : ℕ
  subpart : ℕ
  count : ℕ
  deriving DecidableEq

/-- The type bits of the cache flags. -/
inductive CacheType
  | nothing
  | segd
  | segi
  | bitmap
  deriving DecidableEq

/-- `pfs_cache_t` without its list links; the flags are the dirty bit and the type. -/
structure CacheBuf where
  dirty : Bool
  type : CacheType
  nused : ℕ
  pfsMount : Option ℕ
  sub : ℕ
  sector : ℕ
  data : MetaBlock

/-- The sector a buffer is transferred to and from. -/
def CacheBuf.diskSector (clink : CacheBuf) : ℕ := (clink.sector <<< 1) % 2 ^ 32

/-- The cells of a buffer on the block device. -/
def CacheBuf.cells (clink : CacheBuf) : List ((ℕ × ℕ) × Sector) :=
  blockCells clink.sub clink.diskSector clink.data

/-- `pfs_mount_t`; `partSize` is what the device's `getSize` returns, in sectors. -/
structure Mount where
  blockDev : BlockDev
  partSize : ℕ → ℕ
  zfree : BitVec 32
  sectorScale : ℕ
  inodeScale : ℕ
  numSubs : ℕ
  log : BlockInfo
  lastError : ℤ
  freeZone : ℕ → BitVec 32

/-- The first sector of the journal area. -/
def Mount.logBase (mount : Mount) : ℕ := (mount.log.number <<< mount.sectorScale) % 2 ^ 32

/-- One entry of the journal: the block's target and its place in the journal area. -/
structure LogEntry where
  sector : BitVec 32
  sub : BitVec 16
  logSector : BitVec 16
  deriving DecidableEq

/-- `pfs_journal_t`. -/
structure Journal where
  magic : BitVec 32
  num : BitVec 16
  checksum : BitVec 16
  log : Fin 127 → LogEntry

/-- `PFS_JOUNRNAL_MAGIC`. -/
def journalMagic : BitVec 32 := 0x5046534C

/-- The journal record after a reset. -/
def Journal.cleared : Journal := ⟨journalMagic, 0, 0, fun _ => ⟨0, 0, 0⟩⟩

/-- The driver's globals: the cache buffers, the free list from least to most recently used,
the journal buffer and the mounted volumes. -/
structure Driver (n : ℕ) where
  cacheBuf : Fin n → CacheBuf
  free : List (Fin n)
  journalBuf : Journal
  mounts : ℕ → Mount

/-- Run a device operation of a mount. -/
def Driver.onDev {n : ℕ} (s : Driver n) (pfsMount : ℕ) (op : BlockDev → BlockDev) : Driver n :=
  { s with
    mounts := Function.update s.mounts pfsMount
      { s.mounts pfsMount with blockDev := op (s.mounts pfsMount).blockDev } }

/-- The memory image of a journal record. -/
def Journal.image (journal : Journal) : MetaBlock := fun k =>
  if k.val = 0 then journal.magic
  else if h : k.val < 2 then journal.checksum ++ journal.num
  else
    let entry := journal.log ⟨(k.val - 2) / 2, by omega⟩
    if k.val % 2 = 0 then entry.sector else entry.logSector ++ entry.sub

/-- The journal record held by a memory image. -/
def Journal.ofImage (block : MetaBlock) : Journal where
  magic := block 0
  num := (block 1).extractLsb' 0 16
  checksum := (block 1).extractLsb' 16 16
  log i := ⟨block ⟨2 + 2 * i.val, by omega⟩, (block ⟨3 + 2 * i.val, by omega⟩).extractLsb' 0 16,
    (block ⟨3 + 2 * i.val, by omega⟩).extractLsb' 16 16⟩

/-- The memory image determines the record. -/
theorem Journal.ofImage_image (journal : Journal) : Journal.ofImage journal.image = journal := by
  cases journal with
  | mk magic num checksum log =>
    simp only [Journal.ofImage, Journal.image, Journal.mk.injEq]
    refine ⟨by simp, ?_, ?_, ?_⟩
    · exact extractLsb'_append_eq_right
    · exact extractLsb'_append_eq_left
    · funext i
      have hlow : (2 + 2 * i.val - 2) / 2 = i.val := by omega
      have hhigh : (3 + 2 * i.val - 2) / 2 = i.val := by omega
      have heven : (2 + 2 * i.val) % 2 = 0 := by omega
      have hodd : (3 + 2 * i.val) % 2 ≠ 0 := by omega
      have hne2 : ¬ 2 + 2 * i.val < 2 := by omega
      have hne3 : ¬ 3 + 2 * i.val < 2 := by omega
      simp only [hlow, hhigh, heven, hodd, hne2, hne3, if_true, if_false, dif_neg, not_false_iff]
      rw [if_neg (by omega), if_neg (by omega)]
      rw [extractLsb'_append_eq_right, extractLsb'_append_eq_left]

variable {n : ℕ}

/-- `pfsJournalChecksum`: the lower half of the sum of the words behind the record's head. -/
def pfsJournalChecksum (header : MetaBlock) : BitVec 16 :=
  ((List.finRange 256).foldl (fun sum i => if 2 ≤ i.val then sum + header i else sum) 0).setWidth 16

/-- `pfsInodeCheckSum`: the sum of all words but the first. -/
def pfsInodeCheckSum (inode : MetaBlock) : BitVec 32 :=
  (List.finRange 256).foldl (fun sum i => if 1 ≤ i.val then sum + inode i else sum) 0

/-- Append an entry to the journal buffer; the table has 127 places. -/
def Journal.append (journal : Journal) (entry : LogEntry) : Journal :=
  { journal with
    log := fun i => if i.val = journal.num.toNat then entry else journal.log i
    num := journal.num + 1 }

variable (clink : CacheBuf)

/-- The buffer is dirty and belongs to the mount. -/
def CacheBuf.flushable (pfsMount : ℕ) : Bool :=
  clink.dirty && clink.pfsMount == some pfsMount

/-- Segment descriptors get their checksum before they are logged. -/
def CacheBuf.checksummed : CacheBuf :=
  if clink.type = .segd ∨ clink.type = .segi then
    { clink with data := Function.update clink.data 0 (pfsInodeCheckSum clink.data) }
  else clink

/-- The journal entry of buffer `i`. -/
def CacheBuf.logEntry (i : ℕ) : LogEntry :=
  ⟨BitVec.ofNat 32 (clink.sector <<< 1), BitVec.ofNat 16 clink.sub, BitVec.ofNat 16 (2 + 2 * i)⟩

/-- One turn of the loop of `pfsJournalWrite`. -/
def logBuffer (pfsMount : ℕ) (s : Driver n) (i : Fin n) : Driver n :=
  if (s.cacheBuf i).flushable pfsMount then
    { s with
      cacheBuf := Function.update s.cacheBuf i (s.cacheBuf i).checksummed
      journalBuf := s.journalBuf.append ((s.cacheBuf i).logEntry i.val) }
  else s

variable (s : Driver n)

/-- The cells of the cache image, one buffer after the other. -/
def Driver.imageCells (base : ℕ) : List ((ℕ × ℕ) × Sector) :=
  (List.finRange n).flatMap fun i => blockCells 0 (base + 2 + 2 * i.val) (s.cacheBuf i).data

variable (pfsMount : ℕ)

/-- Transfer the journal buffer to the head of the journal area. -/
def Driver.writeHeader : Driver n :=
  s.onDev pfsMount (·.transfer (blockCells 0 (s.mounts pfsMount).logBase s.journalBuf.image))

/-- The record with its checksum filled in. -/
def Journal.sealed (journal : Journal) : Journal :=
  { journal with checksum := pfsJournalChecksum journal.image }

/-- `pfsJournalFlush`. -/
def pfsJournalFlush : Driver n :=
  let s := s.onDev pfsMount (·.flushCache)
  let s := { s with journalBuf := s.journalBuf.sealed }
  (s.writeHeader pfsMount).onDev pfsMount (·.flushCache)

/-- `pfsJournalWrite`. -/
def pfsJournalWrite : Driver n :=
  let s := (List.finRange n).foldl (logBuffer pfsMount) s
  let s := s.onDev pfsMount (·.transfer (s.imageCells (s.mounts pfsMount).logBase))
  pfsJournalFlush s pfsMount

/-- `pfsJournalReset`. -/
def pfsJournalReset : Driver n :=
  let s := { s with journalBuf := .cleared }
  let s := s.onDev pfsMount (·.flushCache)
  (s.writeHeader pfsMount).onDev pfsMount (·.flushCache)

/-- The buffer with its dirty mark cleared. -/
def CacheBuf.clean : CacheBuf := { clink with dirty := false }

/-- `pfsCacheTransfer` in write mode: nothing is written after an error, the mark is cleared. -/
def pfsCacheTransferWrite (s : Driver n) (i : Fin n) : Driver n :=
  let s' := if (s.mounts pfsMount).lastError = 0 then
    s.onDev pfsMount (·.transfer (s.cacheBuf i).cells) else s
  { s' with cacheBuf := Function.update s.cacheBuf i (s.cacheBuf i).clean }

/-- `pfsCacheFlushAllDirty`. -/
def pfsCacheFlushAllDirty : Driver n :=
  let s :=
    if (List.finRange n).any fun i => (s.cacheBuf i).flushable pfsMount then
      (List.finRange n).foldl
        (fun s i => if (s.cacheBuf i).flushable pfsMount then pfsCacheTransferWrite pfsMount s i else s)
        (pfsJournalWrite s pfsMount)
    else s
  pfsJournalReset s pfsMount

/-- `pfsCacheFree`: drop a reference; the last one puts the buffer at the end of the free list,
or at its front when the buffer belongs to no mount. -/
def pfsCacheFree (clink : Fin n) : Driver n :=
  if (s.cacheBuf clink).nused = 0 then s
  else
    let buf := { s.cacheBuf clink with nused := (s.cacheBuf clink).nused - 1 }
    let s := { s with cacheBuf := Function.update s.cacheBuf clink buf }
    if buf.nused ≠ 0 then s
    else if buf.pfsMount.isSome then { s with free := s.free ++ [clink] }
    else { s with free := clink :: s.free }

/-- `pfsCacheAlloc`: take the least recently used free buffer; if it is dirty, its mount is
flushed first. -/
def pfsCacheAlloc (pfsMount : Option ℕ) (sub scale : ℕ) (type : CacheType) : ℤ × Option (Fin n) × Driver n :=
  match s.free with
  | [] => (-12, none, s)
  | allocated :: rest =>
    let s := match (s.cacheBuf allocated).pfsMount with
      | some owner => if (s.cacheBuf allocated).dirty then pfsCacheFlushAllDirty s owner else s
      | none => s
    (0, some allocated,
      { s with
        cacheBuf := Function.update s.cacheBuf allocated
          ⟨false, type, 1, pfsMount, sub, scale, (s.cacheBuf allocated).data⟩
        free := rest })

/-- `pfsCacheAllocClean`. -/
def pfsCacheAllocClean : ℤ × Option (Fin n) × Driver n :=
  pfsCacheAlloc s none 0 0 .nothing

/-- `pfsCacheInit`: every buffer is free and belongs to no mount. -/
def pfsCacheInit (n : ℕ) (cacheData : Fin n → MetaBlock) (mounts : ℕ → Mount) : Driver n where
  cacheBuf i := ⟨false, .nothing, 0, none, 0, 0, cacheData i⟩
  free := List.finRange n
  journalBuf := ⟨0, 0, 0, fun _ => ⟨0, 0, 0⟩⟩
  mounts := mounts

/-- The table entries below the count. -/
def Journal.entries (journal : Journal) : List LogEntry :=
  ((List.finRange 127).take journal.num.toNat).map journal.log

/-- Copy one logged block to its place. -/
def restoreEntry (pfsMount : ℕ) (clink : Fin n) (s : Driver n) (entry : LogEntry) : Driver n :=
  let block := readBlock (s.mounts pfsMount).blockDev.contents 0
    ((s.mounts pfsMount).logBase + entry.logSector.toNat)
  let s := { s with cacheBuf := Function.update s.cacheBuf clink { s.cacheBuf clink with data := block } }
  s.onDev pfsMount (·.transfer (blockCells entry.sub.toNat entry.sector.toNat block))

/-- `pfsJournalRestore`. -/
def pfsJournalRestore (pfsMount : ℕ) : ℤ × Driver n :=
  let header := readBlock (s.mounts pfsMount).blockDev.contents 0 (s.mounts pfsMount).logBase
  let s := { s with journalBuf := .ofImage header }
  if s.journalBuf.magic ≠ journalMagic ∨ s.journalBuf.checksum ≠ pfsJournalChecksum header then
    (0, pfsJournalReset s pfsMount)
  else if s.journalBuf.num = 0 then (0, pfsJournalReset s pfsMount)
  else
    match pfsCacheAllocClean s with
    | (result, none, s) => (result, s)
    | (_, some clink, s) =>
      let s := s.journalBuf.entries.foldl (restoreEntry pfsMount clink) s
      (0, pfsJournalReset (pfsCacheFree s clink) pfsMount)

/-- `PFS_SEGD_MAGIC`. -/
def segdMagic : BitVec 32 := 0x53454744

/-- `PFS_SEGI_MAGIC`. -/
def segiMagic : BitVec 32 := 0x53454749

/-- The checks on a segment descriptor that has been read. -/
def CacheBuf.loadError (clink : CacheBuf) : ℤ :=
  if clink.type = .segd ∧ clink.data 1 ≠ segdMagic then -5
  else if clink.type = .segi ∧ clink.data 1 ≠ segiMagic then -5
  else if (clink.type = .segd ∨ clink.type = .segi) ∧ clink.data 0 ≠ pfsInodeCheckSum clink.data then -5
  else 0

variable (s : Driver n)

/-- Replace a buffer. -/
def Driver.setBuf (i : Fin n) (buf : CacheBuf) : Driver n :=
  { s with cacheBuf := Function.update s.cacheBuf i buf }

/-- The buffer after its block has been read from the device. -/
def Driver.loaded (pfsMount : ℕ) (i : Fin n) : CacheBuf :=
  { s.cacheBuf i with
    data := readBlock (s.mounts pfsMount).blockDev.contents (s.cacheBuf i).sub (s.cacheBuf i).diskSector
    dirty := false }

/-- `pfsCacheTransfer` in read mode; after an error nothing is read any more. -/
def pfsCacheTransferRead (pfsMount : ℕ) (s : Driver n) (i : Fin n) : ℤ × Driver n :=
  let mount := s.mounts pfsMount
  if mount.lastError = 0 then
    let clink := s.loaded pfsMount i
    (clink.loadError,
      { s.setBuf i clink with
        mounts := Function.update s.mounts pfsMount { mount with lastError := clink.loadError } })
  else (mount.lastError, s.setBuf i (s.cacheBuf i).clean)

/-- The buffer holds a block of a mount. -/
def CacheBuf.isFor (clink : CacheBuf) (pfsMount sub sector : ℕ) : Bool :=
  clink.pfsMount == some pfsMount && clink.sector == sector && clink.sub == sub

variable (pfsMount sub sector : ℕ)

/-- The buffer that holds a block. -/
def Driver.holder : Option (Fin n) :=
  (List.finRange n).find? fun i => (s.cacheBuf i).isFor pfsMount sub sector

/-- Take one more reference to a buffer that holds the block wanted. -/
def Driver.reuse (clink : Fin n) (type : CacheType) : Driver n :=
  { s.setBuf clink { s.cacheBuf clink with type := type, nused := (s.cacheBuf clink).nused + 1 } with
    free := if (s.cacheBuf clink).nused = 0 then s.free.erase clink else s.free }

/-- `pfsCacheGetData`: the result, the buffer and the new state. -/
def pfsCacheGetData (type : CacheType) : ℤ × Option (Fin n) × Driver n :=
  match s.holder pfsMount sub sector with
  | some clink => (0, some clink, s.reuse clink type)
  | none =>
    match pfsCacheAlloc s (some pfsMount) sub sector type with
    | (result, none, s) => (result, none, s)
    | (_, some clink, s) =>
      let (result, s) := pfsCacheTransferRead pfsMount s clink
      if 0 ≤ result then (result, some clink, s)
      else (result, none, pfsCacheFree (s.setBuf clink { s.cacheBuf clink with pfsMount := none }) clink)

/-- Change the contents of a buffer in place and mark it dirty. -/
def Driver.edit (clink : Fin n) (data : MetaBlock) : Driver n :=
  s.setBuf clink { s.cacheBuf clink with data := data, dirty := true }

end Ps2sdk.Pfs
