import Mathlib.Algebra.Ring.Nat
import Mathlib.Data.Fintype.Pi
import Mathlib.Tactic.FinCases
import Ps2sdk.Lib.CacheProg
import Ps2sdk.Lib.RedoLog

/-!
# APA headers, their cache and the journal

The types of `libapa.h`. A partition header is 1024 bytes, read as 256 little-endian words; its
first word is the checksum of the others and is kept apart from the fields. Names and passwords
are kept as the words they fill. `fioGetInput` of `hdd_fio.c` reads `id,fpwd,rpwd,size,fstype`; the
cipher behind `apaEncryptPassword` is a parameter.

The routines of `cache.c` and `journal.c` work for one drive, which completes every transfer. A buffer
is named by the sector it was taken for, since no two buffers hold the same sector and no routine
uses a buffer after it has been given to another sector. The routines of the driver are programs
over this cache. A run that has no result is one that does not return.
-/

namespace Ps2sdk.Apa

open Lib

section Headers

/-- The places of a table may be given as numerals. -/
scoped instance neZero256 : NeZero 256 := ⟨nofun⟩
scoped instance neZero126 : NeZero 126 := ⟨nofun⟩
scoped instance neZero65 : NeZero 65 := ⟨nofun⟩
scoped instance neZero64 : NeZero 64 := ⟨nofun⟩
scoped instance neZero8 : NeZero 8 := ⟨nofun⟩

/-- `u32`. -/
abbrev Word := BitVec 32

scoped instance lawfulWord : LawfulBEq Word := inferInstance

/-- `id`: thirty-two characters. -/
abbrev Id := Fin 8 → Word

/-- `rpwd` and `fpwd`: eight characters. -/
abbrev Password := Fin 2 → Word

/-- `apa_ps2time_t`. -/
abbrev Time := Fin 2 → Word

/-- A C string, without its end mark. -/
abbrev Str := List (BitVec 8)

/-- The bytes of a string. -/
def str (s : String) : Str := s.toList.map fun c => BitVec.ofNat 8 c.toNat

/-- Copy a string to a cleared field of words. -/
def fill (n : ℕ) (s : Str) : Fin n → Word := fun i =>
  s.getD (4 * i + 3) 0 ++ s.getD (4 * i + 2) 0 ++ s.getD (4 * i + 1) 0 ++ s.getD (4 * i) 0

/-- `apa_sub_t`. -/
structure Sub where
  start : Word
  length : Word
  deriving DecidableEq

/-- The `mbr` part of a header. -/
structure Mbr where
  magic : Fin 8 → Word
  version : Word
  nsector : Word
  created : Time
  osdStart : Word
  osdSize : Word
  pading3 : Fin 50 → Word
  deriving DecidableEq

/-- `apa_header_t` without its checksum. -/
structure Header where
  magic : Word
  next : Word
  prev : Word
  id : Id
  rpwd : Password
  fpwd : Password
  start : Word
  length : Word
  type : BitVec 16
  flags : BitVec 16
  nsub : Word
  created : Time
  main : Word
  number : Word
  modver : Word
  pading : Fin 39 → Word
  mbr : Mbr
  subs : Fin 64 → Sub
  deriving DecidableEq

/-- `APA_MAGIC`. -/
def apaMagic : Word := 0x00415041

/-- `APA_MODVER`. -/
def apaModver : Word := 0x0201

/-- `apaMBRMagic`. -/
def apaMBRMagic : Fin 8 → Word := fill 8 (str "Sony Computer Entertainment Inc.")

/-- `APA_TYPE_FREE`. -/
def apaTypeFree : BitVec 16 := 0

/-- `APA_TYPE_MBR`. -/
def apaTypeMbr : BitVec 16 := 1

/-- `APA_FLAG_SUB`. -/
def apaFlagSub : BitVec 16 := 1

/-- The header is one of a sub-partition. -/
def Header.isSub (header : Header) : Bool := header.flags &&& apaFlagSub != 0

/-- A cleared header. -/
def Header.zero : Header where
  magic := 0
  next := 0
  prev := 0
  id := fun _ => 0
  rpwd := fun _ => 0
  fpwd := fun _ => 0
  start := 0
  length := 0
  type := 0
  flags := 0
  nsub := 0
  created := fun _ => 0
  main := 0
  number := 0
  modver := 0
  pading := fun _ => 0
  mbr := ⟨fun _ => 0, 0, 0, fun _ => 0, 0, 0, fun _ => 0⟩
  subs := fun _ => ⟨0, 0⟩

/-- The memory image of a header. -/
def Header.image (checksum : Word) (header : Header) : MetaBlock := fun k =>
  match k.val with
  | 0 => checksum
  | 1 => header.magic
  | 2 => header.next
  | 3 => header.prev
  | 16 => header.start
  | 17 => header.length
  | 18 => header.flags ++ header.type
  | 19 => header.nsub
  | 22 => header.main
  | 23 => header.number
  | 24 => header.modver
  | 72 => header.mbr.version
  | 73 => header.mbr.nsector
  | 76 => header.mbr.osdStart
  | 77 => header.mbr.osdSize
  | i =>
    if i < 12 then header.id (Fin.ofNat 8 (i - 4))
    else if i < 14 then header.rpwd (Fin.ofNat 2 (i - 12))
    else if i < 16 then header.fpwd (Fin.ofNat 2 (i - 14))
    else if i < 22 then header.created (Fin.ofNat 2 (i - 20))
    else if i < 64 then header.pading (Fin.ofNat 39 (i - 25))
    else if i < 72 then header.mbr.magic (Fin.ofNat 8 (i - 64))
    else if i < 76 then header.mbr.created (Fin.ofNat 2 (i - 74))
    else if i < 128 then header.mbr.pading3 (Fin.ofNat 50 (i - 78))
    else if i % 2 = 0 then (header.subs (Fin.ofNat 64 ((i - 128) / 2))).start
    else (header.subs (Fin.ofNat 64 ((i - 128) / 2))).length

/-- The header held by a memory image. -/
def Header.ofImage (block : MetaBlock) : Header where
  magic := block 1
  next := block 2
  prev := block 3
  id := fun i => block (Fin.ofNat 256 (4 + i))
  rpwd := fun i => block (Fin.ofNat 256 (12 + i))
  fpwd := fun i => block (Fin.ofNat 256 (14 + i))
  start := block 16
  length := block 17
  type := (block 18).extractLsb' 0 16
  flags := (block 18).extractLsb' 16 16
  nsub := block 19
  created := fun i => block (Fin.ofNat 256 (20 + i))
  main := block 22
  number := block 23
  modver := block 24
  pading := fun i => block (Fin.ofNat 256 (25 + i))
  mbr :=
    { magic := fun i => block (Fin.ofNat 256 (64 + i))
      version := block 72
      nsector := block 73
      created := fun i => block (Fin.ofNat 256 (74 + i))
      osdStart := block 76
      osdSize := block 77
      pading3 := fun i => block (Fin.ofNat 256 (78 + i)) }
  subs := fun i => ⟨block (Fin.ofNat 256 (128 + 2 * i)), block (Fin.ofNat 256 (129 + 2 * i))⟩

variable (checksum : Word) (header : Header)

theorem Header.image_zero : header.image checksum 0 = checksum := rfl

theorem Header.ofImage_image_mbr : (Header.ofImage (header.image checksum)).mbr = header.mbr := by
  cases header with
  | mk _ _ _ _ _ _ _ _ _ _ _ _ _ _ _ _ mbr _ =>
    cases mbr with
    | mk magic version nsector created osdStart osdSize pading3 =>
      simp only [Header.ofImage, Mbr.mk.injEq]
      refine ⟨funext fun i => ?_, rfl, rfl, funext fun i => ?_, rfl, rfl, funext fun i => ?_⟩ <;>
        fin_cases i <;> rfl

theorem Header.ofImage_image_subs : (Header.ofImage (header.image checksum)).subs = header.subs := by
  funext i
  fin_cases i <;> rfl

/-- The memory image determines the header. -/
theorem Header.ofImage_image : Header.ofImage (header.image checksum) = header := by
  have hmbr := Header.ofImage_image_mbr checksum header
  have hsubs := Header.ofImage_image_subs checksum header
  cases header with
  | mk magic next prev id rpwd fpwd start length type flags nsub created main number modver pading mbr subs =>
    rw [Header.mk.injEq]
    refine ⟨rfl, rfl, rfl, funext fun i => ?_, funext fun i => ?_, funext fun i => ?_, rfl, rfl,
      BitVec.extractLsb'_append_eq_right, BitVec.extractLsb'_append_eq_left, rfl, funext fun i => ?_, rfl, rfl, rfl,
      funext fun i => ?_, hmbr, hsubs⟩ <;> fin_cases i <;> rfl

/-- `apaCheckSum`: the sum of all words but the first. -/
def apaCheckSum : Word :=
  (List.finRange 256).foldl (fun sum i => if 1 ≤ i.val then sum + header.image 0 i else sum) 0

/-- `apa_params_t`. -/
structure Params where
  id : Id
  fpwd : Password
  rpwd : Password
  size : Word
  type : BitVec 16
  flags : BitVec 16
  main : Word
  number : Word
  deriving DecidableEq

/-- Cleared parameters. -/
def Params.zero : Params := ⟨fun _ => 0, fun _ => 0, fun _ => 0, 0, 0, 0, 0, 0⟩

/-- `apa_journal_t`. -/
structure Journal where
  magic : Word
  num : Word
  sectors : Fin 126 → Word

/-- `APAL_MAGIC`. -/
def apalMagic : Word := 0x4150414C

/-- The record after a reset. -/
def Journal.cleared : Journal := ⟨apalMagic, 0, fun _ => 0⟩

/-- The sector a record fills. -/
def Journal.image (journal : Journal) : Sector := fun k =>
  match k.val with
  | 0 => journal.magic
  | 1 => journal.num
  | i => journal.sectors (Fin.ofNat 126 (i - 2))

/-- The record held by a sector. -/
def Journal.ofImage (sector : Sector) : Journal :=
  ⟨sector 0, sector 1, fun i => sector (Fin.ofNat 128 (2 + i))⟩

theorem Journal.ofImage_image (journal : Journal) : Journal.ofImage journal.image = journal := by
  cases journal with
  | mk magic num sectors =>
    rw [Journal.ofImage, Journal.mk.injEq]
    refine ⟨rfl, rfl, funext fun i => ?_⟩
    fin_cases i <;> rfl

/-- `sizeList`. -/
def sizeList : List Str := ["128M", "256M", "512M", "1G", "2G", "4G", "8G", "16G", "32G"].map str

/-- `fioPartitionSizeLookUp`. -/
def fioPartitionSizeLookUp (s : Str) : Except ℤ Word :=
  match sizeList.findIdx? (· == s) with
  | some i => .ok ((256 * 1024 : Word) <<< i)
  | none => .error (-22)

/-- `fioInputBreaker`: the text up to the next comma, and what follows it. -/
def fioInputBreaker (arg : Str) (maxout : ℕ) : Except ℤ (Str × Str) :=
  let out := arg.takeWhile (· != 0x2C)
  if maxout < out.length then .error (-22)
  else .ok (out, ((arg.drop out.length).drop 1).dropWhile (· == 0x20))

/-- `fsTypes`. -/
def fsTypes : List (Str × BitVec 16) :=
  [(str "PFS", 0x0100), (str "CFS", 0x0101), (str "EXT2", 0x0083), (str "EXT2SWAP", 0x0082)]

variable (encrypt : Id → Password → Password)

/-- A password field: encrypted unless it is empty. -/
def passwordField (id : Id) (text : Str) : Password :=
  if text = [] then fun _ => 0 else encrypt id (fill 2 text)

/-- The last two fields of a name. -/
def fioGetSize (arg : Str) (params : Params) : Except ℤ Params := do
  let (text, arg) ← fioInputBreaker arg 32
  let size ← fioPartitionSizeLookUp text
  let (text, _) ← fioInputBreaker arg 32
  match fsTypes.find? (·.1 == text) with
  | some (_, type) => pure { params with size := size, type := type }
  | none => throw (-22)

/-- `fioGetInput`. -/
def fioGetInput (arg : Str) : Except ℤ Params := do
  let arg := arg.dropWhile (· == 0x20)
  if arg = [] ∨ arg.head? = some 0x2C then throw (-22)
  let (text, arg) ← fioInputBreaker arg 32
  let params := { Params.zero with id := fill 8 text }
  if arg = [] then return params
  let (text, arg) ← fioInputBreaker arg 8
  let params := { params with fpwd := passwordField encrypt params.id text }
  if arg = [] then return params
  let (text, arg) ← fioInputBreaker arg 8
  let params := { params with rpwd := passwordField encrypt params.id text }
  if arg = [] then return params
  fioGetSize arg params

end Headers

section Buffers

variable {n : ℕ} {α : Type}

/-- `apa_cache_t` without its list links; `sector` is empty for a buffer of no device. -/
structure CacheBuf where
  dirty : Bool
  nused : ℕ
  sector : Option Word
  checksum : Word
  header : Header

/-- The globals of the cache and the journal, the drive, and the clock. -/
@[ext]
structure Driver (n : ℕ) where
  cacheBuf : Fin n → CacheBuf
  free : List (Fin n)
  journalBuf : Journal
  dev : BlockDev
  clock : ℕ → Time
  ticks : ℕ

variable (s : Driver n) (i : Fin n)

/-- Replace a buffer. -/
def Driver.setBuf (clink : CacheBuf) : Driver n :=
  { s with cacheBuf := Function.update s.cacheBuf i clink }

/-- Issue a write to the drive. -/
def Driver.write (cells : List ((ℕ × ℕ) × Sector)) : Driver n :=
  { s with dev := s.dev.transfer cells }

/-- `ata_device_flush_cache`. -/
def Driver.flushCache (s : Driver n) : Driver n := { s with dev := s.dev.flushCache }

/-- The buffer that holds a sector. -/
def Driver.find (s : Driver n) (sector : Word) : Option (Fin n) :=
  (List.finRange n).find? fun i => (s.cacheBuf i).sector == some sector

/-- `apaCacheInit`. -/
def apaCacheInit (n : ℕ) (header : Fin n → Word × Header) (dev : BlockDev) (clock : ℕ → Time) : Driver n where
  cacheBuf i := ⟨false, 0, none, (header i).1, (header i).2⟩
  free := List.finRange n
  journalBuf := ⟨0, 0, fun _ => 0⟩
  dev := dev
  clock := clock
  ticks := 0

/-- The cells of a header on the drive. -/
def headerCells (lba : ℕ) (checksum : Word) (header : Header) : List ((ℕ × ℕ) × Sector) :=
  blockCells 0 lba (header.image checksum)

/-- The checksum stored at a sector. -/
def checksumAt (disk : Disk) (sector : Word) : Word := readBlock disk 0 sector.toNat 0

/-- The header stored at a sector. -/
def headerAt (disk : Disk) (sector : Word) : Header := Header.ofImage (readBlock disk 0 sector.toNat)

/-- The checks of `apaReadHeader`. -/
def apaReadHeader (lba checksum : Word) (header : Header) : ℤ :=
  if header.magic ≠ apaMagic then -5
  else if apaCheckSum header ≠ checksum then -5
  else if lba = 0 then if header.mbr.magic = apaMBRMagic then 0 else -5
  else 0

/-- `apaSaveError` with the buffer it clears. -/
def apaSaveError (lba errLba : Word) : Driver n :=
  let buf := s.cacheBuf i
  let s := s.setBuf i { buf with
    checksum := errLba
    header := { Header.zero with subs := buf.header.subs } }
  (s.write [((0, lba.toNat), fun k => if k.val = 0 then errLba else 0)]).flushCache

variable (sector : Word)

/-- `apaCacheTransfer` in read mode. -/
def apaCacheTransferRead : ℤ × Driver n :=
  let checksum := checksumAt s.dev.contents sector
  let header := headerAt s.dev.contents sector
  let s := s.setBuf i { s.cacheBuf i with checksum := checksum, header := header }
  let err := apaReadHeader sector checksum header
  let s := if err ≠ 0 then apaSaveError s i 6 sector else s
  (err, s.setBuf i { s.cacheBuf i with dirty := false })

/-- `APA_IO_MODE_READ` and `APA_IO_MODE_WRITE`. -/
inductive IoMode
  | read
  | write

/-- `apaCacheGetHeader`. -/
def apaCacheGetHeader (mode : IoMode) : ℤ × Driver n :=
  match s.find sector with
  | some i =>
    let buf := s.cacheBuf i
    let s := if buf.nused = 0 then { s with free := s.free.erase i } else s
    (0, s.setBuf i { buf with nused := buf.nused + 1 })
  | none =>
    match s.free with
    | [] => (-12, s)
    | i :: rest =>
      let s := { s with free := rest }.setBuf i
        { s.cacheBuf i with dirty := false, nused := 1, sector := some sector }
      match mode with
      | .write => (0, s)
      | .read =>
        let (result, s) := apaCacheTransferRead s i sector
        if result < 0 then
          (result, { s with free := i :: s.free }.setBuf i { s.cacheBuf i with nused := 0, sector := none })
        else (result, s)

/-- `apaCacheFree`. -/
def apaCacheFree : Driver n :=
  match s.find sector with
  | none => s
  | some i =>
    let buf := s.cacheBuf i
    if buf.nused = 0 then s
    else
      let s := s.setBuf i { buf with nused := buf.nused - 1 }
      if buf.nused = 1 then { s with free := s.free ++ [i] } else s

/-- `apaJournalFlush`. -/
def apaJournalFlush : Driver n :=
  (s.flushCache.write [((0, 8), s.journalBuf.image)]).flushCache

/-- `apaJournalReset`. -/
def apaJournalReset : Driver n := apaJournalFlush { s with journalBuf := .cleared }

/-- Append a sector to the record. -/
def Journal.append (journal : Journal) (sector : Word) : Journal :=
  { journal with
    sectors := Function.update journal.sectors (Fin.ofNat 126 journal.num.toNat) sector
    num := journal.num + 1 }

/-- `apaJournalWrite`. -/
def apaJournalWrite : Driver n :=
  let buf := { s.cacheBuf i with checksum := apaCheckSum (s.cacheBuf i).header }
  let s := (s.setBuf i buf).write (headerCells (2 * s.journalBuf.num.toNat + 10) buf.checksum buf.header)
  { s with journalBuf := s.journalBuf.append sector }

/-- `apaCacheTransfer` in write mode. -/
def apaCacheTransferWrite : Driver n :=
  let buf := s.cacheBuf i
  (s.write (headerCells sector.toNat buf.checksum buf.header)).setBuf i { buf with dirty := false }

/-- Apply a routine to a buffer if it is dirty. -/
def onDirty (f : Driver n → Fin n → Word → Driver n) (s : Driver n) (i : Fin n) : Driver n :=
  match (s.cacheBuf i).sector with
  | some sector => if (s.cacheBuf i).dirty then f s i sector else s
  | none => s

/-- `apaCacheFlushAllDirty`. -/
def apaCacheFlushAllDirty : Driver n :=
  let s := apaJournalFlush ((List.finRange n).foldl (onDirty apaJournalWrite) s)
  apaJournalReset ((List.finRange n).foldl (onDirty apaCacheTransferWrite) s)

/-- `apaCacheAlloc`: the buffer belongs to no device. -/
def apaCacheAlloc : Option (Fin n) × Driver n :=
  match s.free with
  | [] => (none, s)
  | i :: rest =>
    (some i, { s with free := rest }.setBuf i { s.cacheBuf i with dirty := false, nused := 1, sector := none })

/-- Return a buffer of no device. -/
def Driver.returnBuf : Driver n :=
  { s with free := s.free ++ [i] }.setBuf i { s.cacheBuf i with nused := 0 }

/-- Clear two sectors at each of the places, through a buffer of no device. -/
def Driver.eraseAt (sectors : List ℕ) : Option (Driver n) :=
  match apaCacheAlloc s with
  | (none, _) => none
  | (some i, s) =>
    let s := s.setBuf i { s.cacheBuf i with checksum := 0, header := .zero }
    some ((sectors.foldl (fun s lba => s.write (headerCells lba 0 .zero)) s).returnBuf i)

/-- The sectors a record lists. -/
def Journal.logged (journal : Journal) : List Word :=
  ((List.finRange 126).take journal.num.toInt.toNat).map journal.sectors

/-- Copy one logged header to its place. -/
def restoreHeader (s : Driver n) (entry : Word × ℕ) : Driver n :=
  let block := readBlock s.dev.contents 0 (10 + 2 * entry.2)
  let s := s.setBuf i { s.cacheBuf i with checksum := block 0, header := Header.ofImage block }
  s.write (blockCells 0 entry.1.toNat block)

/-- `apaJournalRestore`. -/
def apaJournalRestore : Option (Driver n) :=
  let s := { s with journalBuf := .ofImage (s.dev.contents (0, 8)) }
  if s.journalBuf.magic = apalMagic then
    if s.journalBuf.num = 0 then some s
    else
      match apaCacheAlloc s with
      | (none, _) => none
      | (some i, s) => some (apaJournalReset ((s.journalBuf.logged.zipIdx.foldl (restoreHeader i) s).returnBuf i))
  else some { s with journalBuf := .cleared }

/-- The programs of the driver. -/
abbrev ApaProg := Prog Word Header Time

namespace ApaProg

/-- Run a program on the cache and the drive. -/
def run : ApaProg α → Driver n → Option α × Driver n
  | .done a, s => (some a, s)
  | .trap, s => (none, s)
  | .get sector next, s =>
    let (result, s) := apaCacheGetHeader s sector .read
    run (next result) s
  | .fresh sector header next, s =>
    let (result, s) := apaCacheGetHeader s sector .write
    match s.find sector with
    | some i =>
      run (next result) (s.setBuf i { s.cacheBuf i with dirty := true, checksum := 0, header := header })
    | none => run (next result) s
  | .read sector next, s =>
    match s.find sector with
    | some i => run (next (s.cacheBuf i).header) s
    | none => (none, s)
  | .update sector change next, s =>
    match s.find sector with
    | some i =>
      run next (s.setBuf i { s.cacheBuf i with dirty := true, header := change (s.cacheBuf i).header })
    | none => (none, s)
  | .release sector next, s => run next (apaCacheFree s sector)
  | .flush next, s => run next (apaCacheFlushAllDirty s)
  | .erase sectors next, s =>
    match s.eraseAt sectors with
    | some s => run next s
    | none => (none, s)
  | .now next, s => run (next (s.clock s.ticks)) { s with ticks := s.ticks + 1 }

variable (sector : Word)

/-- `apaCacheGetHeader` in read mode. -/
def getHeader : ApaProg ℤ := .get sector .done

/-- `apaCacheGetHeader` in write mode, and the fields the caller then fills in. -/
def newHeader (header : Header) : ApaProg ℤ := .fresh sector header .done

/-- The header in a buffer. -/
def header (sector : Word) : ApaProg Header := .read sector .done

/-- Change the header in a buffer and mark the buffer dirty. -/
def setHeader (change : Header → Header) : ApaProg Unit := .update sector change (.done ())

/-- `apaCacheFree`. -/
def free : ApaProg Unit := .release sector (.done ())

/-- `apaCacheFlushAllDirty`. -/
def flushAllDirty : ApaProg Unit := .flush (.done ())

/-- Clear two sectors at each of the places. -/
def eraseSectors (sectors : List ℕ) : ApaProg Unit := .erase sectors (.done ())

/-- `apaGetTime`. -/
def getTime : ApaProg Time := .now .done

end ApaProg

end Buffers

end Ps2sdk.Apa
