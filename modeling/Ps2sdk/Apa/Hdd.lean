import Ps2sdk.Apa.Cache

/-!
# The partition list and the file operations on it

The routines of `apa.c` that rewrite the partition list, `hddAddPartitionHere` of `hdd.c`, and those of
`hdd_fio.c` that create, delete, open and rename partitions, as programs over the header cache. A
routine that returns a buffer or a null pointer returns its error code together with the sector of the
buffer, if there is one. A value read from a buffer right after it was freed is read right before. Loops
have a number of turns that no table exceeds. The file slots are kept apart from the cache.
-/

namespace Ps2sdk.Apa

open Lib ApaProg

/-- More turns than there are places for headers. -/
def walkTurns : ℕ := 2 ^ 19 + 1

/-- More turns than a size has bits. -/
def sizeTurns : ℕ := 33

/-- `strncmp(id, "_tmp", APA_IDMAX) == 0`. -/
def isTmp (id : Id) : Bool := id 0 == fill 8 (str "_tmp") 0 && (id 1).extractLsb' 0 8 == 0#8

/-- The name of free space. -/
def emptyId : Id := fill 8 (str "__empty")

/-- The header `apaFillHeader` writes. -/
def Params.header (params : Params) (start next prev length : Word) (created : Time) : Header :=
  let sub := params.flags &&& apaFlagSub != 0
  { Header.zero with
    magic := apaMagic
    start := start
    next := next
    prev := prev
    length := length
    type := params.type
    flags := params.flags
    modver := apaModver
    id := params.id
    main := if sub then params.main else 0
    number := if sub then params.number else 0
    rpwd := if sub || isTmp params.id then fun _ => 0 else params.rpwd
    fpwd := if sub || isTmp params.id then fun _ => 0 else params.fpwd
    created := created }

variable (start next prev length : Word)

/-- The header of free space. -/
def emptyHeader (created : Time) : Header :=
  { Header.zero with
    magic := apaMagic
    start := start
    next := next
    prev := prev
    length := length
    id := emptyId
    created := created }

/-- `apaFillHeader`. -/
def apaFillHeader (params : Params) (start next prev length : Word) : ApaProg (ℤ × Option Word) := do
  let created ← getTime
  let err ← newHeader start (params.header start next prev length created)
  if err = 0 then pure (err, some start) else pure (err, none)

/-- `apaRemovePartition`. -/
def apaRemovePartition : ApaProg (Option Word) := do
  let created ← getTime
  let err ← newHeader start (emptyHeader start next prev length created)
  if err = 0 then pure (some start) else pure none

variable (clink : Word)

/-- `apaMakeEmpty`. -/
def apaMakeEmpty : ApaProg Unit := do
  let created ← getTime
  setHeader clink fun header => emptyHeader header.start header.next header.prev header.length created

/-- The loop of `apaInsertPartition`: halve the block until it has the size. -/
def insertLoop (size : Word) (this : Word) : ℕ → ApaProg ℤ
  | 0 => .trap
  | turns + 1 => do
    let h ← header this
    if h.length = size then pure 0
    else
      let err ← getHeader h.next
      if err ≠ 0 then do
        free this
        pure err
      else
        let half := h.length >>> 1
        setHeader this fun header => { header with length := half }
        match ← apaRemovePartition (h.start + half) h.next h.start half with
        | none => .trap
        | some empty => do
          setHeader this fun header => { header with next := empty }
          setHeader h.next fun header => { header with prev := empty }
          flushAllDirty
          free empty
          free h.next
          insertLoop size this turns

/-- `apaInsertPartition`. -/
def apaInsertPartition (params : Params) (sector : Word) : ApaProg (ℤ × Option Word) := do
  let err ← getHeader sector
  if err ≠ 0 then pure (err, none)
  else
    let err ← insertLoop params.size sector sizeTurns
    if err ≠ 0 then pure (err, none)
    else do
      let h ← header sector
      free sector
      let (err, clink) ← apaFillHeader params h.start h.next h.prev params.size
      flushAllDirty
      pure (err, clink)

/-- `apaGetNextHeader`. -/
def apaGetNextHeader : ApaProg (ℤ × Option Word) := do
  let h ← header clink
  free clink
  if h.next = 0 then pure (0, none)
  else
    let err ← getHeader h.next
    if err ≠ 0 then pure (err, none)
    else
      let next ← header h.next
      if h.start ≠ next.prev then do
        setHeader h.next fun header => { header with prev := h.start }
        flushAllDirty
        pure (0, some h.next)
      else pure (0, some h.next)

/-- The loop of `apaFindPartition`. -/
def findLoop (id : Id) : ℕ → Word → ApaProg (ℤ × Option Word)
  | 0, _ => .trap
  | turns + 1, clink => do
    let h ← header clink
    if h.isSub = false ∧ h.id = id then pure (0, some clink)
    else
      match ← apaGetNextHeader clink with
      | (_, some clink) => findLoop id turns clink
      | (err, none) => if err = 0 then pure (-2, none) else pure (0, none)

/-- `apaFindPartition`. -/
def apaFindPartition (id : Id) : ApaProg (ℤ × Option Word) := do
  let err ← getHeader 0
  if err ≠ 0 then pure (0, none) else findLoop id walkTurns 0

/-- `apaAddEmptyBlock`. -/
def apaAddEmptyBlock (header : Header) (emptyBlocks : Fin 32 → Word) : Fin 32 → Word :=
  if header.type = apaTypeFree then
    match (List.finRange 32).find? fun i => header.length == 1#32 <<< i.val && emptyBlocks i == 0 with
    | some i => Function.update emptyBlocks i header.start
    | none => emptyBlocks
  else emptyBlocks

/-- The loop of `apaDeleteFixPrev`: the block the merged space starts in, and its length. -/
def fixPrevLoop : ℕ → Word → Word → ApaProg (ℤ × Option (Word × Word))
  | 0, _, _ => .trap
  | turns + 1, clink, length => do
    let h ← header clink
    if h.start = 0 then pure (0, some (clink, length))
    else
      let err ← getHeader h.prev
      if err ≠ 0 then do
        free clink
        pure (err, none)
      else
        let prev ← header h.prev
        let tmp := prev.length + length
        if prev.type ≠ apaTypeFree then do
          free h.prev
          pure (0, some (clink, length))
        else if tmp = 0 then .trap
        else if prev.start % tmp ≠ 0 ∨ tmp &&& (tmp - 1) ≠ 0 then do
          free h.prev
          pure (0, some (clink, length))
        else do
          free clink
          fixPrevLoop turns h.prev tmp

/-- `apaDeleteFixPrev`. -/
def apaDeleteFixPrev : ApaProg (ℤ × Option Word) := do
  let saved ← header clink
  match ← fixPrevLoop walkTurns clink saved.length with
  | (err, none) => pure (err, none)
  | (_, some (clink, length)) =>
    if length ≠ saved.length then
      let err ← getHeader saved.next
      if err ≠ 0 then do
        free clink
        pure (err, none)
      else do
        let h ← header clink
        setHeader clink fun header => { header with length := length, next := h.start + length }
        setHeader saved.next fun header => { header with prev := h.start }
        flushAllDirty
        free saved.next
        pure (0, some clink)
    else pure (0, some clink)

/-- The loop of `apaDeleteFixNext`: the header behind the merged space, and its length. -/
def fixNextLoop (clink start : Word) : ℕ → Word → Word → ApaProg (ℤ × Option (Word × Word))
  | 0, _, _ => .trap
  | turns + 1, lnext, length =>
    if lnext = 0 then pure (0, some (lnext, length))
    else do
      let err ← getHeader lnext
      if err ≠ 0 then do
        free clink
        pure (err, none)
      else
        let h ← header lnext
        let tmp := h.length + length
        if h.type ≠ apaTypeFree then do
          free lnext
          pure (0, some (lnext, length))
        else if tmp = 0 then .trap
        else if start % tmp ≠ 0 ∨ (tmp - 1) &&& tmp ≠ 0 then do
          free lnext
          pure (0, some (lnext, length))
        else do
          free lnext
          fixNextLoop clink start turns h.next tmp

/-- `apaDeleteFixNext`. -/
def apaDeleteFixNext : ApaProg (ℤ × Option Word) := do
  let saved ← header clink
  match ← fixNextLoop clink saved.start walkTurns saved.next saved.length with
  | (err, none) => pure (err, none)
  | (_, some (lnext, length)) =>
    if length ≠ saved.length then
      let err ← getHeader lnext
      if err ≠ 0 then do
        free clink
        pure (err, none)
      else do
        setHeader clink fun header => { header with length := length, next := lnext }
        apaMakeEmpty clink
        setHeader lnext fun header => { header with prev := saved.start }
        flushAllDirty
        free lnext
        pure (0, some clink)
    else pure (0, some clink)

/-- The loop of `apaDelete` that cuts off the end of the list. -/
def deleteTail : ℕ → Word → ApaProg (ℤ × Option Word)
  | 0, _ => .trap
  | turns + 1, clink => do
    let h ← header clink
    free clink
    let err ← getHeader h.prev
    if err ≠ 0 then pure (err, none)
    else do
      setHeader h.prev fun header => { header with next := 0 }
      let last ← header h.prev
      setHeader 0 fun header => { header with prev := last.start }
      flushAllDirty
      if last.type = apaTypeFree then deleteTail turns h.prev else pure (0, some h.prev)

/-- Merge a block with free space before and behind it. -/
def deleteFix : ApaProg (Option Word) := do
  match ← apaDeleteFixPrev clink with
  | (_, none) => pure none
  | (_, some clink) =>
    match ← apaDeleteFixNext clink with
    | (_, none) => pure none
    | (_, some clink) => pure (some clink)

/-- `apaDelete`. -/
def apaDelete : ApaProg ℤ := do
  let h ← header clink
  if h.start = 0 then do
    free clink
    pure (-13)
  else if h.next = 0 then
    let err ← getHeader 0
    if err ≠ 0 then do
      free clink
      pure err
    else
      match ← deleteTail walkTurns clink with
      | (_, none) => pure 0
      | (err, some clink) => do
        free 0
        free clink
        pure err
  else
    match ← deleteFix clink with
    | none => pure 0
    | some clink =>
      match ← deleteFix clink with
      | none => pure 0
      | some clink =>
        let last ← header clink
        if last.start = h.start ∧ last.length = h.length then do
          apaMakeEmpty clink
          flushAllDirty
          free clink
          pure 0
        else do
          free clink
          pure 0

/-- `apa_device_t`. -/
structure Device where
  totalLBA : Word
  partitionMaxSize : Word
  format : Word
  status : ℤ

variable (device : Device)

/-- `hddCheckPartitionMax`. -/
def hddCheckPartitionMax (size : Word) : ℤ := if size ≤ device.partitionMaxSize then 0 else -22

/-- The inner loop of `hddAddPartitionHere`: the largest block below the size that may start at
the place. -/
def padSize (partEnd : Word) : ℕ → Word → Option Word
  | 0, _ => none
  | turns + 1, tempSize =>
    if tempSize ≤ 0x3FFFF then none
    else if partEnd % tempSize = 0 then some tempSize
    else padSize partEnd turns (tempSize >>> 1)

/-- The outer loop of `hddAddPartitionHere`: fill up with free space to a multiple of the size. -/
def padLoop (size : Word) : ℕ → Word → Word → ApaProg (Word × Word)
  | 0, _, _ => .trap
  | turns + 1, this, partEnd =>
    if partEnd % size = 0 then pure (this, partEnd)
    else
      match padSize partEnd sizeTurns (size >>> 1) with
      | none => padLoop size turns this partEnd
      | some tempSize => do
        let h ← header this
        match ← apaRemovePartition partEnd 0 h.start tempSize with
        | none => .trap
        | some new => do
          setHeader this fun header => { header with next := partEnd }
          setHeader 0 fun header => { header with prev := new }
          flushAllDirty
          free this
          padLoop size turns new (partEnd + tempSize)

/-- The part of `hddAddPartitionHere` that appends behind the last header. -/
def appendPartition (params : Params) (sector : Word) : ApaProg (ℤ × Option Word) := do
  let err ← getHeader sector
  if err ≠ 0 then .trap
  else
    let h ← header sector
    let partEnd := h.start + h.length
    if params.size = 0 then .trap
    else
      let someSize := partEnd % params.size
      let tmp := if someSize ≠ 0 then params.size - someSize else 0
      if device.totalLBA < partEnd + params.size + tmp ∨ partEnd < sector then do
        free sector
        pure (-28, none)
      else
        let err ← getHeader 0
        if err ≠ 0 then do
          free sector
          pure (err, none)
        else
          let (this, partEnd) ← padLoop params.size sizeTurns sector partEnd
          let last ← header this
          match ← apaFillHeader params partEnd 0 last.start params.size with
          | (err, none) => do
            free this
            free 0
            pure (err, none)
          | (err, some new) => do
            setHeader this fun header => { header with next := partEnd }
            setHeader 0 fun header => { header with prev := new }
            flushAllDirty
            free this
            free 0
            pure (err, some new)

/-- `hddAddPartitionHere`: in the first free block that is large enough, or at the end. -/
def hddAddPartitionHere (params : Params) (emptyBlocks : Fin 32 → Word) (sector : Word) :
    ApaProg (ℤ × Option Word) :=
  match (List.finRange 32).find? fun i => params.size ≤ 1#32 <<< i.val && emptyBlocks i != 0 with
  | some i => apaInsertPartition params (emptyBlocks i)
  | none => appendPartition device params sector

variable {n : ℕ} {α : Type}

/-- `iop_file_t`: whether it may be written, and whether it is a directory. -/
structure File where
  wronly : Bool
  dir : Bool
  deriving DecidableEq

/-- `hdd_file_slot_t` without the file position. -/
structure FileSlot where
  f : Option File
  nsub : BitVec 16
  type : BitVec 16
  id : Id
  parts : Fin 65 → Sub

/-- A cleared slot. -/
def FileSlot.zero : FileSlot := ⟨none, 0, 0, fun _ => 0, fun _ => ⟨0, 0⟩⟩

variable (slot : FileSlot)

/-- The slot is used and has the name. -/
def FileSlot.named (id : Id) : Bool := slot.f.isSome && slot.id == id

variable (slots : List FileSlot)

/-- `getFileSlot`. -/
def getFileSlot (id : Id) : Except ℤ ℕ :=
  if slots.any (·.named id) then .error (-16)
  else
    match slots.findIdx? (·.f.isNone) with
    | some i => .ok i
    | none => .error (-24)

/-- `apaPassCmp`. -/
def apaPassCmp (pw1 pw2 : Password) : ℤ := if pw1 = pw2 then 0 else -13

/-- The name starts with two underscores. -/
def isSystem (id : Id) : Bool := (id 0).extractLsb' 0 16 == 0x5F5F#16

/-- The open flags `O_WRONLY` and `O_CREAT`. -/
structure OpenFlags where
  wronly : Bool
  creat : Bool
  deriving DecidableEq

/-- The walk of `apaOpen` over the headers: the one with the name if there is one, the last header
seen and the free blocks. -/
def openLoop (id : Id) : ℕ → Word → (Fin 32 → Word) → ApaProg (ℤ × Option Word × Word × (Fin 32 → Word))
  | 0, _, _ => .trap
  | turns + 1, clink, emptyBlocks => do
    let h ← header clink
    if h.isSub = false ∧ h.id = id then pure (0, some clink, clink, emptyBlocks)
    else
      let emptyBlocks := apaAddEmptyBlock h emptyBlocks
      match ← apaGetNextHeader clink with
      | (_, some next) => openLoop id turns next emptyBlocks
      | (err, none) => pure (err, none, clink, emptyBlocks)

/-- The slot `apaOpen` fills in from a header. -/
def FileSlot.load (h : Header) : FileSlot :=
  { slot with
    parts := fun i => if i.val = 0 then ⟨h.start, h.length⟩ else h.subs (Fin.ofNat 64 (i.val - 1))
    type := h.type
    nsub := h.nsub.setWidth 16
    id := h.id }

/-- The end of `apaOpen`: fill in the slot and check the passwords. -/
def openFound (params : Params) (flags : OpenFlags) (clink : Word) : ApaProg (ℤ × FileSlot) := do
  let h ← header clink
  free clink
  let rv :=
    if apaPassCmp h.fpwd params.fpwd ≠ 0 then
      if flags.wronly then -13 else apaPassCmp h.rpwd params.rpwd
    else 0
  pure (rv, slot.load h)

variable (device : Device) (params : Params)

/-- The part of `apaOpen` that creates a partition. -/
def openCreate (emptyBlocks : Fin 32 → Word) (sector : Word) : ApaProg (ℤ × Option Word) := do
  let rv := hddCheckPartitionMax device params.size
  if rv < 0 then pure (rv, none)
  else
    match ← hddAddPartitionHere device params emptyBlocks sector with
    | (err, none) => pure (err, none)
    | (err, some clink) =>
      let h ← header clink
      eraseSectors [(h.start + 8).toNat, (h.start + 0x2000).toNat]
      pure (err, some clink)

/-- `apaOpen`. -/
def apaOpen (slot : FileSlot) (params : Params) (flags : OpenFlags) : ApaProg (ℤ × FileSlot) := do
  let err ← getHeader 0
  if err ≠ 0 then pure (err, slot)
  else
    let (err, clink, sector, emptyBlocks) ← openLoop params.id walkTurns 0 fun _ => 0
    if err ≠ 0 then pure (err, slot)
    else
      match clink with
      | some clink => openFound slot params flags clink
      | none =>
        if flags.creat then
          match ← openCreate device params emptyBlocks sector with
          | (_, some clink) => openFound slot params flags clink
          | (err, none) => pure (err, slot)
        else pure (-2, slot)

/-- The loop of `apaRemove` over the sub-partitions, from the last one down; it ends early where
the source returns from within the loop. -/
def removeSubs (clink : Word) : ℕ → ℤ → ApaProg (Bool × ℤ)
  | 0, rv => pure (false, rv)
  | i + 1, _ => do
    let h ← header clink
    let err ← getHeader (h.subs (Fin.ofNat 64 i)).start
    if err ≠ 0 then removeSubs clink i err
    else
      let rv ← apaDelete (h.subs (Fin.ofNat 64 i)).start
      if rv ≠ 0 then do
        free clink
        pure (true, rv)
      else removeSubs clink i rv

/-- The part of `apaRemove` behind its checks of the name. -/
def removeFound (id : Id) (fpwd : Password) : ApaProg ℤ := do
  match ← apaFindPartition id with
  | (err, none) => pure err
  | (err, some clink) =>
    let h ← header clink
    if apaPassCmp h.fpwd fpwd ≠ 0 then do
      free clink
      pure (-13)
    else do
      setHeader clink fun header => { header with nsub := 0 }
      flushAllDirty
      match ← removeSubs clink h.nsub.toNat err with
      | (true, rv) => pure rv
      | (false, rv) =>
        if rv = 0 then apaDelete clink
        else do
          free clink
          pure rv

/-- `apaRemove`. -/
def apaRemove (id : Id) (fpwd : Password) : ApaProg ℤ :=
  if slots.any (·.named id) then pure (-16)
  else if isSystem id then pure (-13)
  else removeFound id fpwd

/-- `apaRename`. -/
def apaRename (oldParams newParams : Params) : ApaProg ℤ := do
  match ← apaFindPartition newParams.id with
  | (_, some clink) => do
    free clink
    pure (-17)
  | (_, none) =>
    if slots.any (·.named oldParams.id) then pure (-16)
    else if isSystem oldParams.id then pure (-13)
    else
      match ← apaFindPartition oldParams.id with
      | (err, none) => pure err
      | (_, some clink) =>
        let h ← header clink
        if apaPassCmp h.fpwd oldParams.fpwd ≠ 0 then do
          free clink
          pure (-13)
        else do
          setHeader clink fun header =>
            { header with id := newParams.id, rpwd := newParams.rpwd, fpwd := newParams.fpwd }
          flushAllDirty
          free clink
          pure 0

/-- The walk of `ioctl2AddSub` over the headers. -/
def emptyLoop : ℕ → Word → (Fin 32 → Word) → ApaProg (ℤ × Word × (Fin 32 → Word))
  | 0, _, _ => .trap
  | turns + 1, clink, emptyBlocks => do
    let h ← header clink
    let emptyBlocks := apaAddEmptyBlock h emptyBlocks
    match ← apaGetNextHeader clink with
    | (_, some next) => emptyLoop turns next emptyBlocks
    | (err, none) => pure (err, clink, emptyBlocks)

/-- The parameters `ioctl2AddSub` fills in. -/
def FileSlot.subParams (size : Word) : Params :=
  { Params.zero with
    size := size
    flags := apaFlagSub
    type := slot.type
    main := (slot.parts 0).start
    number := slot.nsub.setWidth 32 + 1 }

/-- Enter a new sub-partition in its main header and in the slot. -/
def enterSub (sector length : Word) : ApaProg (ℤ × FileSlot) := do
  let main := (slot.parts 0).start
  let err ← getHeader main
  if err ≠ 0 then pure (err, slot)
  else do
    setHeader main fun header =>
      { header with
        subs := Function.update header.subs (Fin.ofNat 64 header.nsub.toNat) ⟨sector, length⟩
        nsub := header.nsub + 1 }
    flushAllDirty
    free main
    pure (0, { slot with
      nsub := slot.nsub + 1
      parts := Function.update slot.parts (Fin.ofNat 65 (slot.nsub.toNat + 1)) ⟨sector, length⟩ })

/-- `ioctl2AddSub`. -/
def ioctl2AddSub (slot : FileSlot) (arg : Str) : ApaProg (ℤ × FileSlot) :=
  if slot.f.all (·.wronly) = false then pure (-13, slot)
  else if 64 ≤ slot.nsub.toNat then pure (-27, slot)
  else
    match fioPartitionSizeLookUp arg with
    | .error rv => pure (rv, slot)
    | .ok size =>
      if hddCheckPartitionMax device size < 0 then pure (hddCheckPartitionMax device size, slot)
      else do
        let err ← getHeader 0
        if err ≠ 0 then pure (err, slot)
        else
          let (err, sector, emptyBlocks) ← emptyLoop walkTurns 0 fun _ => 0
          if err ≠ 0 then pure (err, slot)
          else
            match ← hddAddPartitionHere device (slot.subParams size) emptyBlocks sector with
            | (err, none) => pure (err, slot)
            | (_, some clink) => do
              let h ← header clink
              free clink
              enterSub slot h.start h.length

/-- `ioctl2DeleteLastSub`. -/
def ioctl2DeleteLastSub : ApaProg (ℤ × FileSlot) :=
  if slot.f.all (·.wronly) = false then pure (-13, slot)
  else if slot.nsub = 0 then pure (-2, slot)
  else do
    let main := (slot.parts 0).start
    let err ← getHeader main
    if err ≠ 0 then pure (err, slot)
    else
      let h ← header main
      let sub := (h.subs (Fin.ofNat 64 (h.nsub - 1).toNat)).start
      let err ← getHeader sub
      if err ≠ 0 then do
        free main
        pure (err, slot)
      else do
        setHeader main fun header => { header with nsub := header.nsub - 1 }
        flushAllDirty
        let rv ← apaDelete sub
        free main
        pure (rv, { slot with nsub := slot.nsub - 1 })

/-- `devctlSwapTemp` behind its checks of the name. -/
def swapTemp : ApaProg ℤ := do
  match ← apaFindPartition (fill 8 (str "_tmp")) with
  | (err, none) => pure err
  | (_, some partTemp) =>
    match ← apaFindPartition params.id with
    | (err, none) => do
      free partTemp
      pure err
    | (_, some partNew) =>
      let new ← header partNew
      let rv := apaPassCmp new.fpwd params.fpwd
      if rv ≠ 0 then do
        free partNew
        free partTemp
        pure rv
      else do
        setHeader partTemp fun header => { header with id := new.id, rpwd := new.rpwd, fpwd := new.fpwd }
        setHeader partNew fun header =>
          { header with id := fill 8 (str "_tmp"), rpwd := fun _ => 0, fpwd := fun _ => 0 }
        flushAllDirty
        free partNew
        free partTemp
        pure 0

/-- `devctlSwapTemp`. -/
def devctlSwapTemp : ApaProg ℤ := if isSystem params.id then pure (-22) else swapTemp params

/-- The driver: its cache and drive, `hddDevices` and `hddFileSlots`. -/
structure Hdd (n : ℕ) where
  driver : Driver n
  device : Device
  slots : List FileSlot

/-- A request to the driver. For `dopen` the name that is compared is whatever the stack holds. -/
inductive Request
  | «open» (name : Str) (flags : OpenFlags)
  | dopen (id : Id)
  | close (fd : ℕ)
  | remove (name : Str)
  | rename (oldname newname : Str)
  | addSub (fd : ℕ) (size : Str)
  | deleteSub (fd : ℕ)
  | swapTmp (name : Str)

variable (hdd : Hdd n)

/-- Run a program that returns an error code. -/
def Hdd.exec (p : ApaProg ℤ) : Option ℤ × Hdd n :=
  let (rv, driver) := p.run hdd.driver
  (rv, { hdd with driver := driver })

/-- Run a program on a slot; `finish` is applied to what it returns. -/
def Hdd.execSlot (fd : ℕ) (p : FileSlot → ApaProg (ℤ × FileSlot))
    (finish : ℤ → FileSlot → FileSlot) : Option ℤ × Hdd n :=
  match hdd.slots[fd]? with
  | none => (some (-9), hdd)
  | some slot =>
    match (p slot).run hdd.driver with
    | (none, driver) => (none, { hdd with driver := driver })
    | (some (rv, slot), driver) => (some rv,
      { hdd with driver := driver, slots := hdd.slots.set fd (finish rv slot) })

/-- The slot is in use. -/
def Hdd.isOpen (fd : ℕ) : Bool := (hdd.slots[fd]?).any (·.f.isSome)

section Requests

variable (encrypt : Id → Password → Password)

/-- `hddOpen` of a partition. -/
def hddOpen (hdd : Hdd n) (name : Str) (flags : OpenFlags) : Option ℤ × Hdd n :=
  if hdd.device.status ≠ 0 then (some (-19), hdd)
  else
    match fioGetInput encrypt name with
    | .error rv => (some rv, hdd)
    | .ok params =>
      match getFileSlot hdd.slots params.id with
      | .error rv => (some rv, hdd)
      | .ok fd =>
        hdd.execSlot fd (fun slot => apaOpen hdd.device slot params flags) fun rv slot =>
          if rv = 0 then { slot with f := some ⟨flags.wronly, false⟩ } else slot

variable (hdd : Hdd n)

/-- `hddOpen` of the directory. -/
def hddDopen (id : Id) : Option ℤ × Hdd n :=
  if hdd.device.status ≠ 0 then (some (-19), hdd)
  else
    match getFileSlot hdd.slots id with
    | .error rv => (some rv, hdd)
    | .ok fd =>
      hdd.execSlot fd (fun slot => pure (0, slot)) fun _ slot => { slot with f := some ⟨false, true⟩ }

/-- `hddRemove`. -/
def hddRemove (name : Str) : Option ℤ × Hdd n :=
  match fioGetInput encrypt name with
  | .error rv => (some rv, hdd)
  | .ok params => hdd.exec (apaRemove hdd.slots params.id params.fpwd)

/-- `hddReName`. -/
def hddReName (oldname newname : Str) : Option ℤ × Hdd n :=
  match fioGetInput encrypt oldname, fioGetInput encrypt newname with
  | .ok oldParams, .ok newParams => hdd.exec (apaRename hdd.slots oldParams newParams)
  | .error rv, _ => (some rv, hdd)
  | _, .error rv => (some rv, hdd)

/-- `HDIOC_SWAPTMP`. -/
def hddSwapTmp (name : Str) : Option ℤ × Hdd n :=
  match fioGetInput encrypt name with
  | .error rv => (some rv, hdd)
  | .ok params => hdd.exec (devctlSwapTemp params)

/-- Serve a request. Requests on a file that is not open do not reach the driver. -/
def Hdd.serve : Request → Option ℤ × Hdd n
  | .open name flags => hddOpen encrypt hdd name flags
  | .dopen id => hddDopen hdd id
  | .close fd =>
    if hdd.isOpen fd then (some 0, { hdd with slots := hdd.slots.set fd .zero }) else (some (-9), hdd)
  | .remove name => hddRemove encrypt hdd name
  | .rename oldname newname => hddReName encrypt hdd oldname newname
  | .addSub fd size =>
    if hdd.isOpen fd then
      hdd.execSlot fd (fun slot => ioctl2AddSub hdd.device slot size) fun _ slot => slot
    else (some (-9), hdd)
  | .deleteSub fd =>
    if hdd.isOpen fd then hdd.execSlot fd ioctl2DeleteLastSub fun _ slot => slot else (some (-9), hdd)
  | .swapTmp name => hddSwapTmp encrypt hdd name

end Requests

end Ps2sdk.Apa
