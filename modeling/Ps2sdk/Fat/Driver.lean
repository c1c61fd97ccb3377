import Ps2sdk.Fat.Records
import Ps2sdk.Lib.Flat
import Ps2sdk.Lib.Follow

/-!
# The file allocation table and the state of the driver

The functions of `fat_driver.c` and `fat_write.c` that read and store cluster records. A
volume is the geometry of its boot sector and the sectors as the sector cache shows them:
a sector that was read may be changed in place and is then marked dirty, which cannot fail.

`fat_driver` adds the memo of the last chain lookup and the stack of free clusters. The
memo is keyed by the start cluster alone: a second lookup of the same cluster returns what
the first one left in `cbuf`. The functions that may run on for ever take a bound on the
number of their rounds and return nothing when it is used up.
-/

namespace Ps2sdk.Fat

/-- The kind of a file allocation table. -/
inductive FatType
  | fat12
  | fat16
  | fat32
  deriving DecidableEq, Repr

/-- `fat_bpb`: the geometry of the partition. -/
structure FatBpb where
  sectorSize : ℕ
  clusterSize : ℕ
  resSectors : ℕ
  fatCount : ℕ
  rootSize : ℕ
  fatSize : ℕ
  sectorCount : ℕ
  partStart : ℕ
  rootDirStart : ℕ
  rootDirCluster : ℕ
  fatType : FatType
  dataStart : ℕ
  deriving DecidableEq, Repr

/-- The volume: its geometry, its sectors and the sectors that cannot be read. -/
structure Vol where
  partBpb : FatBpb
  sectors : ℕ → ℕ → UInt8
  bad : ℕ → Bool

variable (v : Vol)

/-- `READ_SECTOR`: the sector buffer, unless reading fails. -/
def Vol.readSector (sector : ℕ) : Option (ℕ → UInt8) :=
  if v.bad sector then none else some (v.sectors sector)

/-- `READ_SECTOR`, a change of the buffer and `WRITE_SECTOR`: the sector size or `-EIO`. -/
def Vol.modifySector (sector : ℕ) (change : (ℕ → UInt8) → ℕ → UInt8) : ℤ × Vol :=
  if v.bad sector then (-5, v)
  else (v.partBpb.sectorSize,
    { v with sectors := Function.update v.sectors sector (change (v.sectors sector)) })

variable (bpb : FatBpb)

/-- The first sector of a copy of the table. -/
def FatBpb.fatStart (fatNumber : ℕ) : ℕ :=
  bpb.partStart + bpb.resSectors + fatNumber * bpb.fatSize

/-! ## Following a chain -/

/-- A chain lookup: the entries stored in the buffer, and whether reading failed after them. -/
@[ext]
structure Lookup where
  entries : List ℕ
  failed : Bool
  deriving DecidableEq, Repr

variable (cluster : ℕ)

/-- Store one entry in front. -/
def Lookup.cons (lookup : Lookup) : Lookup :=
  { lookup with entries := cluster :: lookup.entries }

/-- The value returned: the number of entries, or `-EIO`. -/
def Lookup.result (lookup : Lookup) : ℤ :=
  if lookup.failed then -5 else lookup.entries.length

/-- The byte offset of a FAT12 record in the table, in 32-bit arithmetic. -/
def recordOffset12 : ℕ :=
  cluster * 3 % 2 ^ 32 / 2

/-- The table sector in which a FAT12 record starts. -/
def FatBpb.fatSector12 : ℕ :=
  recordOffset12 cluster / bpb.sectorSize

/-- `sectorSpan`: a FAT12 record starts in the last byte of its sector. -/
def FatBpb.sectorSpan : Bool :=
  decide (recordOffset12 cluster % bpb.sectorSize = bpb.sectorSize - 1)

/-- One FAT12 record and the sector buffer after it. A record that spans two sectors is put
together from both and leaves the second one in the buffer; another is taken from the
buffer when `lastFatSector` says that its sector is there. -/
def Vol.getRecord12 (lastFatSector : Option ℕ) (sbuf : ℕ → UInt8) : Option (ℕ × (ℕ → UInt8)) :=
  let fatSector := v.partBpb.fatSector12 cluster
  let offset := recordOffset12 cluster % v.partBpb.sectorSize
  if v.partBpb.sectorSpan cluster then
    match v.readSector (v.partBpb.fatStart 0 + fatSector),
        v.readSector (v.partBpb.fatStart 0 + fatSector + 1) with
    | some first, some second =>
      let xbuf k := if k = 0 then first (v.partBpb.sectorSize - 1) else second (k - 1)
      some (getClusterRecord12 xbuf (cluster % 2), second)
    | _, _ => none
  else
    match (if lastFatSector = some fatSector then some sbuf
        else v.readSector (v.partBpb.fatStart 0 + fatSector)) with
    | some sbuf => some (getClusterRecord12 (fun k => sbuf (offset + k)) (cluster % 2), sbuf)
    | none => none

/-- The loop of `fat_getClusterChain12` with `room` entries left in the buffer. -/
def Vol.chainLoop12 (v : Vol) : ℕ → ℕ → Option ℕ → (ℕ → UInt8) → Lookup
  | 0, _, _, _ => ⟨[], false⟩
  | room + 1, cluster, lastFatSector, sbuf =>
    match v.getRecord12 cluster lastFatSector sbuf with
    | none => ⟨[], true⟩
    | some (record, sbuf) =>
      if record &&& 0xFFF ≥ 0xFF8 then ⟨[], false⟩
      else (v.chainLoop12 room record (some (v.partBpb.fatSector12 cluster)) sbuf).cons
        (record &&& 0xFFF)

/-- The loop of `fat_getClusterChain16` and `fat_getClusterChain32`; the record itself, not
the masked entry, is the next place to look. -/
def Vol.chainLoop (v : Vol) (width mask limit : ℕ) (getRecord : (ℕ → UInt8) → ℕ) :
    ℕ → ℕ → Option ℕ → (ℕ → UInt8) → Lookup
  | 0, _, _, _ => ⟨[], false⟩
  | room + 1, cluster, lastFatSector, sbuf =>
    let indexCount := v.partBpb.sectorSize / width
    let fatSector := cluster / indexCount
    match (if lastFatSector = some fatSector then some sbuf
        else v.readSector (v.partBpb.fatStart 0 + fatSector)) with
    | none => ⟨[], true⟩
    | some sbuf =>
      let record := getRecord fun k => sbuf (cluster % indexCount * width + k)
      if record &&& mask ≥ limit then ⟨[], false⟩
      else (v.chainLoop width mask limit getRecord room record (some fatSector) sbuf).cons
        (record &&& mask)

/-- Store the start cluster first if `startFlag` is set, then the entries behind it. -/
def withStart (loop : ℕ → ℕ → Option ℕ → (ℕ → UInt8) → Lookup) (cluster bufSize : ℕ) (startFlag : Bool) : Lookup :=
  if startFlag then (loop (bufSize - 1) cluster none fun _ => 0).cons cluster
  else loop bufSize cluster none fun _ => 0

/-- `fat_getClusterChain12`. -/
def Vol.getClusterChain12 : ℕ → ℕ → Bool → Lookup :=
  withStart v.chainLoop12

/-- `fat_getClusterChain16`. -/
def Vol.getClusterChain16 : ℕ → ℕ → Bool → Lookup :=
  withStart (v.chainLoop 2 0xFFFF 0xFFF8 getI16)

/-- `fat_getClusterChain32`. -/
def Vol.getClusterChain32 : ℕ → ℕ → Bool → Lookup :=
  withStart (v.chainLoop 4 0xFFFFFFF 0xFFFFFF8 getI32)

/-! ## Storing a record -/

/-- The loop over the copies of the table shared by the `fat_saveClusterRecord` functions. -/
def saveCopies (save : ℕ → Vol → ℤ × Vol) : List ℕ → ℤ → Vol → ℤ × Vol
  | [], ret, v => (ret, v)
  | fatNumber :: rest, _, v =>
    let (ret, v) := save fatNumber v
    if ret < 0 then (-5, v) else saveCopies save rest ret v

/-- `fat_saveClusterRecord12` on one copy; the offset is a signed integer in the source. -/
def saveCopy12 (currentCluster value fatNumber : ℕ) (v : Vol) : ℤ × Vol :=
  let fatSector := v.partBpb.fatStart fatNumber + v.partBpb.fatSector12 currentCluster
  let offset := recordOffset12 currentCluster % v.partBpb.sectorSize
  let recordType := currentCluster % 2
  if v.partBpb.sectorSpan currentCluster then
    let (ret, v) := v.modifySector fatSector fun sbuf =>
      Function.update sbuf offset (setClusterRecord12part1 (sbuf offset) value recordType)
    if ret < 0 then (-5, v)
    else v.modifySector (fatSector + 1) fun sbuf =>
      Function.update sbuf 0 (setClusterRecord12part2 (sbuf 0) value recordType)
  else
    v.modifySector fatSector fun sbuf => setClusterRecord12 sbuf offset value recordType

variable (currentCluster value : ℕ)

/-- `fat_saveClusterRecord12`. -/
def Vol.saveClusterRecord12 : ℤ × Vol :=
  saveCopies (saveCopy12 currentCluster value) (List.range v.partBpb.fatCount) (-1) v

/-- `fat_saveClusterRecord16` and `fat_saveClusterRecord32` on one copy. -/
def saveCopy (width : ℕ) (setRecord : (ℕ → UInt8) → ℕ → ℕ → ℕ → UInt8)
    (currentCluster value fatNumber : ℕ) (v : Vol) : ℤ × Vol :=
  let indexCount := v.partBpb.sectorSize / width
  v.modifySector (v.partBpb.fatStart fatNumber + currentCluster / indexCount) fun sbuf =>
    setRecord sbuf (currentCluster % indexCount * width) value

/-- `fat_saveClusterRecord16`. -/
def Vol.saveClusterRecord16 : ℤ × Vol :=
  saveCopies (saveCopy 2 setClusterRecord16 currentCluster value)
    (List.range v.partBpb.fatCount) (-1) v

/-- `fat_saveClusterRecord32`. -/
def Vol.saveClusterRecord32 : ℤ × Vol :=
  saveCopies (saveCopy 4 setClusterRecord32 currentCluster value)
    (List.range v.partBpb.fatCount) (-1) v

/-- `fat_modifyClusterChain`: store a record of the volume's kind. -/
def Vol.modifyClusterChain (cluster value : ℕ) : ℤ × Vol :=
  match v.partBpb.fatType with
  | .fat12 => v.saveClusterRecord12 cluster value
  | .fat16 => v.saveClusterRecord16 cluster value
  | .fat32 => v.saveClusterRecord32 cluster value

/-- The end-of-chain mark the driver stores. -/
def FatType.endMark : FatType → ℕ
  | .fat12 => 0xFFF
  | .fat16 => 0xFFFF
  | .fat32 => 0xFFFFFFF

/-- `fat_createClusterChain`: a new chain of one cluster. -/
def Vol.createClusterChain : ℤ × Vol :=
  v.modifyClusterChain cluster v.partBpb.fatType.endMark

/-- `fat_appendClusterChain`: link the new end cluster and mark it as the end. -/
def Vol.appendClusterChain (currentCluster endCluster : ℕ) : ℤ × Vol :=
  let (ret, v) := v.modifyClusterChain currentCluster endCluster
  if ret < 0 then (ret, v) else v.createClusterChain endCluster

/-- `MAX_DIR_CLUSTER`: the entries of `cbuf`. -/
def maxDirCluster : ℕ := 512

/-- `MAX_CLUSTER_STACK`. -/
def maxClusterStack : ℕ := 128

/-- `fat_driver`. The stack of free clusters is a list, its top first. -/
structure FatDriver where
  vol : Vol
  massSectorSize : ℕ
  cbuf : ℕ → ℕ
  lastChainCluster : ℕ
  lastChainResult : ℤ
  clStack : List ℕ
  clStackLast : ℕ

/-- The state after `fat_mount`; the buffer is whatever the allocator returned. -/
def FatDriver.mount (vol : Vol) (massSectorSize : ℕ) (cbuf : ℕ → ℕ) : FatDriver where
  vol := vol
  massSectorSize := massSectorSize
  cbuf := cbuf
  lastChainCluster := 0xFFFFFFFF
  lastChainResult := -1
  clStack := []
  clStackLast := 0

/-- The buffer after a lookup stored its entries. -/
def storeEntries (cbuf : ℕ → ℕ) (entries : List ℕ) : ℕ → ℕ :=
  fun i => entries.getD i (cbuf i)

/-- The lookup of the volume's kind, without the memo. -/
def Vol.lookupChain (v : Vol) (cluster : ℕ) (startFlag : Bool) : Lookup :=
  match v.partBpb.fatType with
  | .fat12 => v.getClusterChain12 cluster maxDirCluster startFlag
  | .fat16 => v.getClusterChain16 cluster maxDirCluster startFlag
  | .fat32 => v.getClusterChain32 cluster maxDirCluster startFlag

variable (d : FatDriver)

/-- A lookup without the memo: the value returned and `cbuf` afterwards. -/
def FatDriver.directChain (cluster : ℕ) (startFlag : Bool) : ℤ × (ℕ → ℕ) :=
  let lookup := d.vol.lookupChain cluster startFlag
  (lookup.result, storeEntries d.cbuf lookup.entries)

/-- `fat_getClusterChain` into `cbuf`. -/
def FatDriver.getClusterChain (cluster : ℕ) (startFlag : Bool) : ℤ × FatDriver :=
  if cluster = d.lastChainCluster then (d.lastChainResult, d)
  else
    let (result, cbuf) := d.directChain cluster startFlag
    (result, { d with
      cbuf := cbuf
      lastChainCluster := cluster
      lastChainResult := result })

/-- `fat_invalidateLastChainResult`. -/
def FatDriver.invalidateLastChainResult : FatDriver :=
  { d with lastChainCluster := 0 }

/-- Run a function of the volume. -/
def FatDriver.onVol (f : Vol → ℤ × Vol) : ℤ × FatDriver :=
  let (ret, vol) := f d.vol
  (ret, { d with vol := vol })

/-! ## Free clusters -/

/-- The records of one table sector that are free, as far as the stack has room. -/
def freeRecords (indexCount : ℕ) (isFree : ℕ → ℕ → Bool) (i recordSkip room : ℕ) : List ℕ :=
  (((List.range' recordSkip (indexCount - recordSkip)).filter fun j => isFree (i * indexCount + j) j).map
    (i * indexCount + ·)).take room

/-- The loops of `fat_readEmptyClusters16` and `fat_readEmptyClusters32` over the table
sectors: the clusters found, and whether reading failed after them. -/
def Vol.scanSectors (v : Vol) (width : ℕ) (isFree : (ℕ → UInt8) → ℕ → ℕ → Bool) : List ℕ → ℕ → ℕ → List ℕ × Bool
  | [], _, _ => ([], false)
  | i :: rest, recordSkip, room =>
    if room = 0 then ([], false)
    else
      match v.readSector (v.partBpb.fatStart 0 + i) with
      | none => ([], true)
      | some sbuf =>
        let found := freeRecords (v.partBpb.sectorSize / width) (isFree sbuf) i recordSkip room
        let (more, failed) := v.scanSectors width isFree rest 0 (room - found.length)
        (found ++ more, failed)

/-- The scan from the last cluster found on, in a table of records of `width` bytes. -/
def FatDriver.scanTable (width : ℕ) (isFree : (ℕ → UInt8) → ℕ → ℕ → Bool) : List ℕ × Bool :=
  let indexCount := d.vol.partBpb.sectorSize / width
  let sectorSkip := d.clStackLast / indexCount
  let recordSkip := d.clStackLast % indexCount
  d.vol.scanSectors width isFree (List.range' sectorSkip (d.vol.partBpb.fatSize - sectorSkip))
    recordSkip maxClusterStack

variable (sbuf : ℕ → UInt8)

/-- The test of `fat_readEmptyClusters16`. -/
def isFree16 (_ j : ℕ) : Bool :=
  decide (getI16 (fun k => sbuf (j * 2 + k)) = 0)

/-- The test of `fat_readEmptyClusters32`: all 32 bits are zero. -/
def isFree32 (clusterValue j : ℕ) : Bool :=
  decide (getI32 (fun k => sbuf (j * 4 + k)) = 0) && decide (clusterValue < 0xFFFFFF7)

/-- The loop of `fat_readEmptyClusters12`, which ends only when the stack is full or a sector
cannot be read; nothing for a scan that is not over after `fuel` records. -/
def Vol.scan12 (v : Vol) : ℕ → ℕ → Option ℕ → (ℕ → UInt8) → ℕ → Option (List ℕ × Bool)
  | _, _, _, _, 0 => some ([], false)
  | 0, _, _, _, _ + 1 => none
  | fuel + 1, cluster, lastFatSector, sbuf, room + 1 =>
    match v.getRecord12 cluster lastFatSector sbuf with
    | none => some ([], true)
    | some (clusterValue, sbuf) =>
      let fatSector := some (v.partBpb.fatSector12 cluster)
      if clusterValue = 0 then
        (v.scan12 fuel (cluster + 1) fatSector sbuf room).map fun (found, failed) =>
          (cluster :: found, failed)
      else v.scan12 fuel (cluster + 1) fatSector sbuf (room + 1)

/-- `fat_readEmptyClusters` on an empty stack: `swapClStack` brings the first cluster found to
the top, unless reading failed before. -/
def FatDriver.readEmptyClusters (fuel : ℕ) : Option (ℤ × FatDriver) :=
  let scan := match d.vol.partBpb.fatType with
    | .fat12 => d.vol.scan12 fuel d.clStackLast none (fun _ => 0) maxClusterStack
    | .fat16 => some (d.scanTable 2 isFree16)
    | .fat32 => some (d.scanTable 4 isFree32)
  scan.map fun (found, failed) =>
    let clStackLast := found.getLastD d.clStackLast
    if failed then (-5, { d with clStack := found.reverse, clStackLast := clStackLast })
    else (found.length, { d with clStack := found, clStackLast := clStackLast })

/-- The second half of `fat_getFreeCluster`: pop the stack and append the cluster. -/
def FatDriver.popFreeCluster (currentCluster : ℕ) : ℕ × FatDriver :=
  match d.clStack with
  | [] => (0, d)
  | result :: rest =>
    let (ret, d) := { d with clStack := rest }.onVol fun vol =>
      if currentCluster ≠ 0 then vol.appendClusterChain currentCluster result
      else vol.createClusterChain result
    if ret < 0 then (0, d) else (result, d)

/-- `fat_getFreeCluster`: 0 when there is none. -/
def FatDriver.getFreeCluster (fuel currentCluster : ℕ) : Option (ℕ × FatDriver) :=
  let refilled := if d.clStack = [] then d.readEmptyClusters fuel else some (1, d)
  refilled.map fun (ret, d) => if ret ≤ 0 then (0, d) else d.popFreeCluster currentCluster

/-! ## Deleting a chain -/

/-- Free the clusters of a list, up to the first failure. -/
def Vol.freeAll (v : Vol) : List ℕ → ℤ × Vol
  | [] => (0, v)
  | c :: rest =>
    let (ret, v) := v.modifyClusterChain c 0
    if ret < 0 then (ret, v) else v.freeAll rest

/-- The entries of `cbuf` below an index. -/
def FatDriver.cbufEntries (count : ℕ) : List ℕ :=
  (List.range count).map d.cbuf

/-- One round of `fat_deleteClusterChain` up to the freeing: the clusters to free, and the start
of the next round, which is the last entry of a full buffer. Nothing where the lookup returned
no entry, since the source then frees the word in front of `cbuf`. -/
def FatDriver.deleteRound (cluster : ℕ) : Option (List ℕ × Option ℕ × FatDriver) :=
  let (size, d) := d.getClusterChain cluster true
  if size ≤ 0 then none
  else if size.toNat = maxDirCluster then
    some (d.cbufEntries (size.toNat - 1), some (d.cbuf (size.toNat - 1)), d)
  else some (d.cbufEntries size.toNat, none, d)

/-- The loop of `fat_deleteClusterChain`; nothing for a chain that is not over after `fuel`
rounds. -/
def FatDriver.deleteLoop : ℕ → FatDriver → ℕ → Option (ℤ × FatDriver)
  | 0, _, _ => none
  | fuel + 1, d, cluster =>
    match d.deleteRound cluster with
    | none => none
    | some (freed, next, d) =>
      let (ret, d) := d.onVol fun vol => vol.freeAll freed
      if ret < 0 then some (ret, d)
      else
        match next with
        | some cluster => deleteLoop fuel d.invalidateLastChainResult cluster
        | none => some (1, d.invalidateLastChainResult)

/-- `fat_deleteClusterChain`. -/
def FatDriver.deleteClusterChain (fuel cluster : ℕ) : Option (ℤ × FatDriver) :=
  if cluster < 2 then some (-14, d) else d.deleteLoop fuel cluster

/-- `fat_dir_chain_record`: a cluster of a file and its place in the chain. -/
structure ChainRecord where
  cluster : ℕ
  index : ℕ
  deriving DecidableEq, Repr

/-- `DIR_CHAIN_SIZE`. -/
def dirChainSize : ℕ := 32

/-- `fat_dir`: the clusters of a file; its name, attributes, parent and dates are left out. -/
structure FatDir where
  size : ℕ
  startCluster : ℕ
  lastCluster : ℕ
  chain : ℕ → ChainRecord

/-- A chain lookup into `cbuf`, as `fat_getClusterChain` is one. -/
abbrev ChainLookup := FatDriver → ℕ → Bool → ℤ × FatDriver

variable (bpb : FatBpb)

/-- The bytes of a cluster. -/
def FatBpb.clusterBytes : ℕ := bpb.clusterSize * bpb.sectorSize

/-- `fat_getClusterAtFilePos`: the index record to start from, and its file position. -/
def getClusterAtFilePos (clusterBytes : ℕ) (fatDir : FatDir) (filePos : ℕ) : ℕ × ℕ :=
  let position i := (fatDir.chain i).index * clusterBytes % 2 ^ 32
  let j := ((List.range (dirChainSize - 1)).find? fun i =>
    decide (position i ≤ filePos) && decide (filePos < position (i + 1))).getD (dirChainSize - 1)
  ((fatDir.chain j).cluster, position j)

/-! ## Windows -/

/-- `fat_cluster2sector`, in 32-bit arithmetic; clusters 0 and 1 lie before the data area. -/
def FatBpb.cluster2sector (cluster : ℕ) : ℕ :=
  (bpb.dataStart + bpb.clusterSize * cluster + 2 ^ 32 - 2 * bpb.clusterSize) % 2 ^ 32

/-- A position in a chain: the window in `cbuf`, the cluster the next one starts behind, and
whether there is a next one. -/
structure Window where
  d : FatDriver
  chainSize : ℤ
  fileCluster : ℕ
  nextChain : Bool

variable (lookup : ChainLookup)

/-- Look up a window; when it is full, the next one starts behind its last cluster. -/
def Window.fetch (d : FatDriver) (fileCluster : ℕ) (nextChain : Bool) (clusterChainStart : Bool) : Window :=
  let (chainSize, d) := lookup d fileCluster clusterChainStart
  if chainSize ≥ maxDirCluster then ⟨d, chainSize, d.cbuf (maxDirCluster - 1), nextChain⟩
  else ⟨d, chainSize, fileCluster, false⟩

/-- The inner `while` loop: skip whole windows. -/
def Window.skip (lookup : ChainLookup) : ℕ → Window → Window
  | 0, w => w
  | windows + 1, w => Window.skip lookup windows (.fetch lookup w.d w.fileCluster w.nextChain false)

/-- The sectors of the clusters of the window from `clusterSkip` on, without the first
`sectorSkip` sectors of the first of them. -/
def Window.sectors (w : Window) (clusterSkip sectorSkip : ℕ) : List ℕ :=
  (((w.d.cbufEntries w.chainSize.toNat).drop clusterSkip).flatMap fun cluster =>
    (List.range w.d.vol.partBpb.clusterSize).map (w.d.vol.partBpb.cluster2sector cluster + ·)).drop
      sectorSkip

/-- The bytes moved to or from one sector, as `bufSize` is adjusted. -/
def transferSize (massSectorSize size dataSkip : ℕ) : ℕ :=
  let bufSize := if size < massSectorSize then size + dataSkip else massSectorSize
  let bufSize := if bufSize > massSectorSize then massSectorSize else bufSize
  bufSize - dataSkip

/-- Where a file position lies: the cluster to look up, the clusters and sectors to skip from
there, and the bytes to skip in the sector. -/
def filePlace (fatDir : FatDir) (filePos : ℕ) : ℕ × ℕ × ℕ × ℕ :=
  let (fileCluster, clusterPos) := getClusterAtFilePos bpb.clusterBytes fatDir filePos
  let sectorSkip := (filePos + 2 ^ 32 - clusterPos) % 2 ^ 32 / bpb.sectorSize
  (fileCluster, sectorSkip / bpb.clusterSize, sectorSkip % bpb.clusterSize, filePos % bpb.sectorSize)

/-! ## Writing -/

/-- The allocation loop of `fat_writeFile`: append clusters behind the last one. The last
cluster is 0 when there was none left. -/
def growFile (fuel : ℕ) : ℕ → FatDriver → ℕ → Option (ℕ × FatDriver)
  | 0, d, lastCluster => some (lastCluster, d)
  | count + 1, d, lastCluster =>
    match d.getFreeCluster fuel lastCluster with
    | none => none
    | some (0, d) => some (0, d)
    | some (lastCluster, d) => growFile fuel count d lastCluster

/-- Copy to the listed sectors until the data is used up: the bytes moved, the data left, the
bytes to skip in the next sector, whether a sector failed, and the volume. -/
def Vol.writeSectors (v : Vol) (massSectorSize : ℕ) : List ℕ → List UInt8 → ℕ → (ℕ × List UInt8 × ℕ × Bool) × Vol
  | [], data, dataSkip => ((0, data, dataSkip, false), v)
  | sector :: rest, data, dataSkip =>
    if data = [] then ((0, data, dataSkip, false), v)
    else
      let n := transferSize massSectorSize data.length dataSkip
      let (ret, v) := v.modifySector sector fun sbuf k =>
        if dataSkip ≤ k ∧ k < dataSkip + n then data.getD (k - dataSkip) 0 else sbuf k
      if ret < 0 then ((0, data, dataSkip, true), v)
      else
        let ((moved, left), v) := v.writeSectors massSectorSize rest (data.drop n) 0
        ((n + moved, left), v)

/-- The loop of `fat_writeFile` over the windows: the bytes written and the driver. -/
def writeWindows (lookup : ChainLookup) : ℕ → FatDriver → ℕ → Bool → ℕ → ℕ → ℕ → List UInt8 → ℕ × FatDriver
  | 0, d, _, _, _, _, _, _ => (0, d)
  | fuel + 1, d, fileCluster, clusterChainStart, clusterSkip, sectorSkip, dataSkip, data =>
    if data = [] then (0, d)
    else
      let w := (Window.fetch lookup d fileCluster true clusterChainStart).skip lookup
        (clusterSkip / maxDirCluster)
      let sectors := w.sectors (clusterSkip % maxDirCluster) sectorSkip
      let ((moved, data, dataSkip, failed), vol) :=
        w.d.vol.writeSectors d.massSectorSize sectors data dataSkip
      if failed || !w.nextChain then (moved, { w.d with vol := vol })
      else
        let (more, d) := writeWindows lookup fuel { w.d with vol := vol } w.fileCluster false 0 0
          dataSkip data
        (moved + more, d)

/-- An unsigned number read as a signed one. -/
def asInt (n : ℕ) : ℤ :=
  if n % 2 ^ 32 < 2 ^ 31 then (n % 2 ^ 32 : ℕ) else (n % 2 ^ 32 : ℕ) - 2 ^ 32

/-- The end of the clusters the file size stands for; a file has at least one. -/
def endPosCluster (clusterBytes fileSize : ℕ) : ℕ :=
  let j := fileSize / clusterBytes + if fileSize % clusterBytes ≠ 0 then 1 else 0
  (if j = 0 then 1 else j) * clusterBytes % 2 ^ 32

/-- The clusters to add for a write, if it ends behind the clusters there are. -/
def clustersToAdd (clusterBytes fileSize filePos size : ℕ) : Option ℤ :=
  let endPosFile := (filePos + size) % 2 ^ 32
  if endPosFile > endPosCluster clusterBytes fileSize then
    let ret := asInt (endPosFile - endPosCluster clusterBytes fileSize)
    some (ret.tdiv clusterBytes + if ret.tmod clusterBytes ≠ 0 then 1 else 0)
  else none

/-- The growth of the file in `fat_writeFile`: the driver, the file and `updateClusterIndices`, or
the driver when there was no cluster left. -/
def growForWrite (fuel : ℕ) (d : FatDriver) (fatDir : FatDir) (filePos size : ℕ) :
    Option (Except FatDriver (FatDriver × FatDir × Bool)) :=
  match clustersToAdd d.vol.partBpb.clusterBytes fatDir.size filePos size with
  | none => some (.ok (d, fatDir, false))
  | some j =>
    if fatDir.lastCluster = 0 then some (.error d)
    else
      (growFile fuel j.toNat d fatDir.lastCluster).map fun (lastCluster, d) =>
        if lastCluster = 0 then .error d
        else .ok (d.invalidateLastChainResult, { fatDir with lastCluster := lastCluster }, j != 0)

/-- What a write has done: the value returned, the driver, the file, and
`updateClusterIndices`. -/
structure WriteResult where
  ret : ℤ
  d : FatDriver
  fatDir : FatDir
  updateClusterIndices : Bool

/-- `fat_writeFile`. -/
def writeFile (fuel : ℕ) (d : FatDriver) (fatDir : FatDir) (filePos : ℕ) (data : List UInt8) : Option WriteResult :=
  (growForWrite fuel d fatDir filePos data.length).map fun
    | .error d => ⟨-28, d, fatDir, false⟩
    | .ok (d, fatDir, updateClusterIndices) =>
      let (fileCluster, clusterSkip, sectorSkip, dataSkip) := filePlace d.vol.partBpb fatDir filePos
      if fileCluster < 2 then ⟨-14, d, fatDir, updateClusterIndices⟩
      else
        let (moved, d) := writeWindows lookup data.length d fileCluster true clusterSkip sectorSkip
          dataSkip data
        ⟨asInt moved, d, fatDir, updateClusterIndices⟩

end Ps2sdk.Fat
