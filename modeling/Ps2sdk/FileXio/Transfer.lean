import Ps2sdk.Lib.Memcpy

/-!
# Reading and writing through fileXio

The client on the EE (fileXio_rpc.c) hands the address of its buffer to the server on the IOP
(fileXio_iop.c), which reads the file in parts: the head up to the first 64-byte boundary and the
tail behind the last one travel in a packet of rests that the client copies itself, and the aligned
middle goes to the buffer by DMA, one server buffer at a time. DMA transfers are performed in the
order they are queued, at any time; the reply comes after all of them.

The driver of the file may do anything with its state and return any number of bytes up to those asked
for, or an error. The client and the server keep logs of the calls to the driver that no routine
reads. The data cache of the EE and the semaphores that admit one call at a time are left out.
-/

namespace Ps2sdk.FileXio

open Lib (CopyQueue memcpy slice)

/-- An address of the EE. -/
abbrev Addr := BitVec 32

/-- A byte. -/
abbrev Byte := BitVec 8

/-- The return value of a read, and the contents of the bytes it was asked for. -/
structure ReadResult where
  rlen : ℤ
  buffer : ℕ → Byte

/-- The bytes a read returned. -/
def ReadResult.bytes (result : ReadResult) : List Byte := (List.range result.rlen.toNat).map result.buffer

variable (F : Type)

/-- A driver of the IOP, for a file that is open. -/
structure Driver where
  read : F → ℕ → ReadResult × F
  write : F → List Byte → ℤ × F
  read_le : ∀ file n, (read file n).1.rlen ≤ n
  write_le : ∀ file bytes, (write file bytes).1 ≤ bytes.length

/-- `rests_pkt`. -/
structure Rests where
  ssize : ℤ
  esize : ℤ
  sbuf : Addr
  ebuf : Addr
  sbuffer : ℕ → Byte
  ebuffer : ℕ → Byte

/-- The buffers of the server that DMA transfers read: `rwbuf` and `rests`. -/
structure Buffers where
  rwbuf : ℕ → Byte
  rests : Rests

/-- What DMA transfers write on the EE: the memory, and the packet of rests `_intr_data`. -/
structure EeMemory where
  mem : Addr → Byte
  intrData : Rests

/-- A DMA transfer from `rwbuf` to the memory, or from `rests` to `_intr_data`. -/
inductive Transfer
  | rwbuf (dest : Addr) (size : ℕ)
  | rests

/-- What a transfer does. -/
def Transfer.perform (buffers : Buffers) : Transfer → EeMemory → EeMemory
  | .rwbuf dest size, ee => { ee with mem := memcpy ee.mem dest ((List.range size).map buffers.rwbuf) }
  | .rests, ee => { ee with intrData := buffers.rests }

/-- The DMA engine between the IOP and the EE. -/
abbrev Dma := CopyQueue Transfer Buffers EeMemory

/-- A driver, the size of `rwbuf`, and how many transfers the engine performs at each of its turns. -/
structure Server where
  driver : Driver F
  rwBufferSize : ℕ
  rwBufferSize_pos : 0 < rwBufferSize
  schedule : ℕ → ℕ

/-- The server at work: the file, the engine, its turns so far, and what the reads returned. -/
structure Work where
  file : F
  dma : Dma
  turn : ℕ
  reads : List (List Byte)

/-- `RDOWN_64`. -/
def rdown64 (a : Addr) : Addr := a &&& ~~~ 0x3f#32

/-- How `fileXio_Read_RPC` cuts the buffer. -/
structure Cut where
  srest : ℤ
  asize : ℤ
  erest : ℤ
  abuffer : Addr
  aebuffer : Addr

/-- The cut of a buffer. -/
def cutBuffer (readBuf : Addr) (readSize : BitVec 32) : Cut :=
  if readSize.toInt < 64 then ⟨readSize.toInt, 0, 0, 0, 0⟩
  else
    let srest := if readBuf &&& 0x3f#32 = 0 then 0 else rdown64 readBuf - readBuf + 64
    let abuffer := readBuf + srest
    let aebuffer := rdown64 (readBuf + readSize)
    ⟨srest.toInt, (aebuffer - abuffer).toInt, (readBuf + readSize - aebuffer).toInt, abuffer, aebuffer⟩

/-- The first bytes of a buffer after a read into it. -/
def refill (buffer : ℕ → Byte) (n : ℕ) (result : ReadResult) : ℕ → Byte :=
  fun i => if i < n then result.buffer i else buffer i

section

variable {F : Type} (server : Server F)

/-- The engine has a turn. -/
def Work.advance (work : Work F) : Work F :=
  { work with dma := work.dma.advance Transfer.perform (server.schedule work.turn), turn := work.turn + 1 }

variable (work : Work F)

/-- Change the buffers of the server. -/
def Work.setBuffers (buffers : Buffers) : Work F :=
  { work with dma := { work.dma with buffers := buffers } }

/-- `read`, with a turn of the engine meanwhile. -/
def Work.read (work : Work F) (n : ℕ) : ReadResult × Work F :=
  let (result, file) := server.driver.read work.file n
  (result, { work.advance server with file := file, reads := work.reads ++ [result.bytes] })

/-- `SifSetDma`, with a turn of the engine afterwards. -/
def Work.setDma (transfer : Transfer) : ℕ × Work F :=
  let (status, dma) := work.dma.push transfer
  (status, Work.advance server { work with dma := dma })

/-- Wait until `SifDmaStat` says that a transfer is done. -/
def Work.waitDma (status : ℕ) : Work F :=
  { work with dma := work.dma.await Transfer.perform status }

/-- Read into `rwbuf` once its last transfer is done. -/
def Work.fillRwbuf (status n : ℕ) : ReadResult × Work F :=
  let (result, work) := (work.waitDma status).read server n
  let buffers := work.dma.buffers
  (result, work.setBuffers { buffers with rwbuf := refill buffers.rwbuf n result })

/-- The loop of `fileXio_Read_RPC`: whether it ended, how much it read, and the work. -/
def readLoop (work : Work F) (asize : ℤ) (abuffer : Addr) (status : ℕ) (total : ℤ) : Bool × ℤ × Work F :=
  if 0 < asize then
    let readlen := min server.rwBufferSize asize.toNat
    let (result, work) := work.fillRwbuf server status readlen
    if result.rlen ≠ readlen then
      if result.rlen ≤ 0 then (false, total, work)
      else (false, total + result.rlen, (work.setDma server (.rwbuf abuffer result.rlen.toNat)).2)
    else
      let (status, work) := work.setDma server (.rwbuf abuffer readlen)
      readLoop work (asize - readlen) (abuffer + BitVec.ofNat 32 readlen) status (total + readlen)
  else (true, total, work)
termination_by asize.toNat
decreasing_by
  have hpos := server.rwBufferSize_pos
  omega

/-- The read of the head into `rests.sbuffer`: whether to go on, the new `srest`, and the work. -/
def readHead (srest : ℤ) : Bool × ℤ × Work F :=
  if 0 < srest then
    let (result, work) := work.read server srest.toNat
    let buffers := work.dma.buffers
    let rests := { buffers.rests with sbuffer := refill buffers.rests.sbuffer srest.toNat result }
    let work := work.setBuffers { buffers with rests := rests }
    if srest ≠ result.rlen then (false, max result.rlen 0, work) else (true, srest, work)
  else (true, srest, work)

/-- The read of the tail into `rests.ebuffer`. -/
def readTail (erest : ℤ) (total : ℤ) : ℤ × Work F :=
  if 0 < erest then
    let (result, work) := work.read server erest.toNat
    let buffers := work.dma.buffers
    let rests := { buffers.rests with ebuffer := refill buffers.rests.ebuffer erest.toNat result }
    (total + max result.rlen 0, work.setBuffers { buffers with rests := rests })
  else (total, work)

/-- The parts of `fileXio_Read_RPC` up to its exit: `srest`, `total`, and the work. -/
def readParts (cut : Cut) : ℤ × ℤ × Work F :=
  match readHead server work cut.srest with
  | (false, srest, work) => (srest, srest, work)
  | (true, srest, work) =>
    match readLoop server work cut.asize cut.abuffer 0 (max srest 0) with
    | (false, total, work) => (srest, total, work)
    | (true, total, work) =>
      let (total, work) := readTail server work cut.erest total
      (srest, total, work)

/-- `fileXio_Read_RPC`. -/
def fileXioReadRpc (readBuf : Addr) (readSize : BitVec 32) : ℤ × Work F :=
  let cut := cutBuffer readBuf readSize
  let (srest, total, work) := readParts server work cut
  let buffers := work.dma.buffers
  let rests := { buffers.rests with
    ssize := srest, esize := cut.erest, sbuf := readBuf, ebuf := cut.aebuffer }
  (total, ((work.setBuffers { buffers with rests := rests }).setDma server .rests).2)

/-- What lasts from one call to the next. -/
structure Session (F : Type) where
  file : F
  ee : EeMemory
  buffers : Buffers
  turn : ℕ
  reads : List (List Byte)
  writes : List (List Byte × ℤ)

/-- `recv_intr`. -/
def recvIntr (ee : EeMemory) : EeMemory :=
  let rests := ee.intrData
  let mem := if rests.ssize ≠ 0 then memcpy ee.mem rests.sbuf ((List.range rests.ssize.toNat).map rests.sbuffer)
    else ee.mem
  { ee with mem := if rests.esize ≠ 0 then
      memcpy mem rests.ebuf ((List.range rests.esize.toNat).map rests.ebuffer) else mem }

variable (session : Session F)

/-- `fileXioRead` in blocking mode; `rpc` is what `SifCallRpc` returns, or `fileXioInit` if that fails.
The end of the call is received after all transfers before it. -/
def fileXioRead (buf : Addr) (size : BitVec 32) (rpc : ℤ) : ℤ × Session F :=
  if rpc < 0 then (rpc, session)
  else
    let work : Work F := ⟨session.file, ⟨session.ee, session.buffers, [], 0⟩, session.turn, session.reads⟩
    let (total, work) := fileXioReadRpc server work buf size
    (total, { session with
      file := work.file, ee := recvIntr (work.dma.settled Transfer.perform), buffers := work.dma.buffers,
      turn := work.turn, reads := work.reads })

/-- `write`. -/
def Session.write (session : Session F) (bytes : List Byte) : ℤ × Session F :=
  let (wlen, file) := server.driver.write session.file bytes
  (wlen, { session with file := file, writes := session.writes ++ [(bytes, wlen)] })

/-- The loop of `fileXio_Write_RPC`: `SifRpcGetOtherData` fetches each part into `rwbuf`. -/
def writeLoop (session : Session F) (left : ℕ) (pos : Addr) (total : ℤ) : ℤ × Session F :=
  if 0 < left then
    let writelen := min server.rwBufferSize left
    let fetched := slice session.ee.mem pos writelen
    let rwbuf := fun i => (fetched[i]?).getD (session.buffers.rwbuf i)
    let session := { session with buffers := { session.buffers with rwbuf := rwbuf } }
    let (wlen, session) := session.write server ((List.range writelen).map rwbuf)
    if wlen ≠ writelen then (total + max wlen 0, session)
    else writeLoop session (left - writelen) (pos + BitVec.ofNat 32 writelen) (total + writelen)
  else (total, session)
termination_by left
decreasing_by
  have hpos := server.rwBufferSize_pos
  omega

/-- `fileXio_Write_RPC`. -/
def fileXioWriteRpc (writeBuf : Addr) (writeSize mis : ℕ) (misbuf : List Byte) : ℤ × Session F :=
  if 0 < mis then
    let (wlen, session) := session.write server (misbuf.take mis)
    if wlen ≠ mis then (max wlen 0, session)
    else writeLoop server session (writeSize - mis) (writeBuf + BitVec.ofNat 32 mis) wlen
  else writeLoop server session (writeSize - mis) (writeBuf + BitVec.ofNat 32 mis) 0

/-- `fileXioWrite` in blocking mode; `miss` is compared with the size as an unsigned number. -/
def fileXioWrite (buf : Addr) (size : BitVec 32) (rpc : ℤ) : ℤ × Session F :=
  if rpc < 0 then (rpc, session)
  else
    let miss := if buf &&& 0x3f#32 ≠ 0 then min (64 - (buf &&& 0x3f#32).toNat) size.toNat else 0
    fileXioWriteRpc server session buf size.toNat miss (slice session.ee.mem buf miss)

end

end Ps2sdk.FileXio
