import Ps2sdk.FileXio.Transfer

/-!
# fileXio reads and writes

The DMA engine is asynchronous, so every fact about the memory is about what it will be once the
queue has drained. The server waits for its last transfer before it reads into `rwbuf` again. A write
passes the bytes up to the first 64-byte boundary, which came with the request, to the first call of the
driver, and stops at the first call that does not accept all bytes it was given.
-/

namespace Ps2sdk.FileXio

section Reading

open Lib (CopyQueue memcpy slice Delivers)

open List BitVec

/-- `RDOWN_64` clears the last six bits. -/
theorem rdown64_eq (a : Addr) : rdown64 a = (a >>> 6) <<< 6 := by
  unfold rdown64
  ext i hi
  have hmask : (63#32)[i] = decide (i < 6) := by
    rw [getElem_eq_testBit_toNat]
    exact Nat.testBit_two_pow_sub_one 6 i
  rw [getElem_and, getElem_not, hmask, getElem_shiftLeft]
  rcases Nat.lt_or_ge i 6 with h | h
  · simp [h]
  · simp [Nat.not_lt.mpr h, Nat.add_sub_cancel' h, getLsbD_eq_getElem hi]

theorem toNat_rdown64 (a : Addr) : (rdown64 a).toNat = a.toNat - a.toNat % 64 := by
  rw [rdown64_eq, toNat_shiftLeft, toNat_ushiftRight, Nat.shiftLeft_eq, Nat.shiftRight_eq_div_pow]
  omega

theorem toNat_and_63 (a : Addr) : (a &&& 0x3f#32).toNat = a.toNat % 64 := by
  rw [toNat_and]
  exact Nat.and_two_pow_sub_one_eq_mod a.toNat 6

/-- The three parts of a buffer follow each other and make up the buffer; the outer ones are shorter than a
cache line, so that they fit into the packet of rests. -/
theorem cutBuffer_spec (buf : Addr) (size : BitVec 32) (hsize : size.toNat < 2 ^ 31) :
    ∃ s a e : ℕ, (cutBuffer buf size).srest = s ∧ (cutBuffer buf size).asize = a ∧
      (cutBuffer buf size).erest = e ∧ s + a + e = size.toNat ∧ s < 64 ∧ e < 64 ∧
      (a ≠ 0 → (cutBuffer buf size).abuffer = buf + BitVec.ofNat 32 s) ∧
      (e ≠ 0 → (cutBuffer buf size).aebuffer = buf + BitVec.ofNat 32 (s + a)) := by
  have hint : size.toInt = size.toNat := toInt_eq_toNat_of_lt (by omega)
  unfold cutBuffer
  rw [hint]
  split
  · next hsmall =>
    exact ⟨size.toNat, 0, 0, rfl, rfl, rfl, rfl, by omega, by decide, by simp, by simp⟩
  · next hlarge =>
    obtain ⟨s, hs, hs64, hsrest⟩ : ∃ s : ℕ, (buf.toNat + s) % 64 = 0 ∧ s < 64 ∧
        (if buf &&& 0x3f#32 = 0 then 0 else rdown64 buf - buf + 64) = BitVec.ofNat 32 s := by
      have hmask := toNat_and_63 buf
      split
      · next hzero =>
        rw [hzero] at hmask
        exact ⟨0, by simpa using hmask.symm, by decide, rfl⟩
      · next hnonzero =>
        have hne : buf.toNat % 64 ≠ 0 := fun heq => hnonzero (eq_of_toNat_eq (by rw [hmask, heq]; rfl))
        refine ⟨64 - buf.toNat % 64, by omega, by omega, eq_of_toNat_eq ?_⟩
        rw [toNat_add, toNat_sub, toNat_rdown64, toNat_ofNat,
          show (64 : BitVec 32).toNat = 64 from rfl]
        omega
    dsimp only
    rw [hsrest]
    have hend : (rdown64 (buf + size)) = buf + BitVec.ofNat 32 (s + (size.toNat - s) / 64 * 64) := by
      refine eq_of_toNat_eq ?_
      rw [toNat_rdown64, toNat_add, toNat_add, toNat_ofNat]
      omega
    rw [hend]
    refine ⟨s, (size.toNat - s) / 64 * 64, (size.toNat - s) % 64, ?_, ?_, ?_, by omega, hs64, by omega,
      fun _ => rfl, fun _ => rfl⟩
    · rw [toInt_eq_toNat_of_lt] <;> rw [toNat_ofNat] <;> omega
    · rw [toInt_eq_toNat_of_lt] <;>
        rw [toNat_sub, toNat_add, toNat_add, toNat_ofNat, toNat_ofNat] <;> omega
    · rw [toInt_eq_toNat_of_lt] <;>
        rw [toNat_sub, toNat_add, toNat_add, toNat_ofNat] <;> omega

@[simp]
theorem ReadResult.length_bytes (result : ReadResult) : result.bytes.length = result.rlen.toNat := by
  simp [ReadResult.bytes]

theorem map_refill (buffer : ℕ → Byte) {n : ℕ} {result : ReadResult} (h : result.rlen ≤ n) :
    (range result.rlen.toNat).map (refill buffer n result) = result.bytes := by
  refine map_congr_left fun i hi => ?_
  have hlt : i < n := by
    have := mem_range.mp hi
    omega
  simp [refill, hlt]

theorem mem_recvIntr (ee : EeMemory) : (recvIntr ee).mem =
    memcpy (memcpy ee.mem ee.intrData.sbuf ((range ee.intrData.ssize.toNat).map ee.intrData.sbuffer))
      ee.intrData.ebuf ((range ee.intrData.esize.toNat).map ee.intrData.ebuffer) := by
  unfold recvIntr
  by_cases hs : ee.intrData.ssize = 0 <;> by_cases he : ee.intrData.esize = 0 <;> simp [hs, he]

section

variable {F : Type} (server : Server F)

/-- The memory of the EE once the queue of the engine has drained. -/
def Work.settled (work : Work F) : EeMemory := work.dma.settled Transfer.perform

theorem Work.advance_spec (work : Work F) : (work.advance server).dma.buffers = work.dma.buffers ∧
      (work.advance server).settled = work.settled ∧
      (∃ k, (work.advance server).dma.queue = work.dma.queue.drop k) ∧
      (work.advance server).dma.done + (work.advance server).dma.queue.length =
        work.dma.done + work.dma.queue.length := by
  obtain ⟨hbuffers, hsettled, hqueue, hcount⟩ :=
    CopyQueue.advance_spec Transfer.perform (server.schedule work.turn) work.dma
  exact ⟨hbuffers, hsettled, ⟨_, hqueue⟩, hcount⟩

variable {work : Work F} {status : ℕ}

theorem Work.settled_setBuffers {buffers : Buffers}
    (h : ∀ t ∈ work.dma.queue, ∀ ee, t.perform buffers ee = t.perform work.dma.buffers ee) :
    (work.setBuffers buffers).settled = work.settled :=
  CopyQueue.settled_buffers Transfer.perform h

/-- Only transfers from `rwbuf` are queued, all up to the given number. -/
structure Work.Streams (work : Work F) (status : ℕ) : Prop where
  rwbuf : ∀ t ∈ work.dma.queue, t ≠ .rests
  numbered : work.dma.done + work.dma.queue.length ≤ status

variable (h : work.Streams status)

include h

theorem Work.Streams.advance : (work.advance server).Streams status := by
  obtain ⟨-, -, ⟨k, hqueue⟩, hcount⟩ := work.advance_spec server
  refine ⟨fun t ht => h.rwbuf t ?_, hcount ▸ h.numbered⟩
  rw [hqueue] at ht
  exact mem_of_mem_drop ht

/-- The packet of rests may change while only transfers from `rwbuf` are queued. -/
theorem Work.Streams.settled_setRests
    (rests : Rests) : (work.setBuffers { work.dma.buffers with rests := rests }).settled = work.settled := by
  refine Work.settled_setBuffers fun t ht ee => ?_
  cases t with
  | rwbuf dest size => rfl
  | rests => exact absurd rfl (h.rwbuf _ ht)

theorem Work.Streams.read (n : ℕ) : (work.read server n).1.rlen ≤ n ∧
      (work.read server n).2.reads = work.reads ++ [(work.read server n).1.bytes] ∧
      (work.read server n).2.Streams status ∧ (work.read server n).2.settled = work.settled ∧
      (work.read server n).2.dma.buffers = work.dma.buffers := by
  obtain ⟨hbuffers, hsettled, -, -⟩ := work.advance_spec server
  have hadvance := h.advance server
  exact ⟨server.driver.read_le work.file n, rfl, ⟨hadvance.rwbuf, hadvance.numbered⟩, hsettled, hbuffers⟩

/-- The next part of the file is in `rwbuf`, and nothing is queued. -/
theorem Work.Streams.fillRwbuf (n : ℕ) : (work.fillRwbuf server status n).1.rlen ≤ n ∧
      (work.fillRwbuf server status n).2.Streams status ∧
      (work.fillRwbuf server status n).2.settled = work.settled ∧
      (work.fillRwbuf server status n).2.dma.buffers.rests = work.dma.buffers.rests ∧
      (work.fillRwbuf server status n).2.reads =
        work.reads ++ [(work.fillRwbuf server status n).1.bytes] ∧
      (range (work.fillRwbuf server status n).1.rlen.toNat).map
        (work.fillRwbuf server status n).2.dma.buffers.rwbuf = (work.fillRwbuf server status n).1.bytes := by
  obtain ⟨hwaitBuffers, hwaitSettled, -, hwaitCount⟩ :=
    CopyQueue.advance_spec Transfer.perform (status - work.dma.done) work.dma
  have hempty : (work.waitDma status).dma.queue = [] :=
    CopyQueue.await_queue Transfer.perform h.numbered
  have hwait : (work.waitDma status).Streams status :=
    ⟨fun t ht => absurd (hempty ▸ ht) not_mem_nil, hwaitCount.symm ▸ h.numbered⟩
  obtain ⟨hlen, hreads, hread, hsettled, hbuffers⟩ := hwait.read server n
  obtain ⟨-, -, ⟨k, hqueue⟩, -⟩ := (work.waitDma status).advance_spec server
  have hdrained : ((work.waitDma status).read server n).2.dma.queue = [] := by
    refine hqueue.trans ?_
    rw [hempty, drop_nil]
  refine ⟨hlen, ⟨hread.rwbuf, hread.numbered⟩, ?_, ?_, hreads, map_refill _ hlen⟩
  · refine (Work.settled_setBuffers fun t ht => ?_).trans (hsettled.trans hwaitSettled)
    change t ∈ ((work.waitDma status).read server n).2.dma.queue at ht
    rw [hdrained] at ht
    exact absurd ht not_mem_nil
  · exact (congrArg Buffers.rests hbuffers).trans (congrArg Buffers.rests hwaitBuffers)

/-- A transfer from `rwbuf` is queued. -/
theorem Work.Streams.setDma (dest : Addr) (n : ℕ) :
    (work.setDma server (.rwbuf dest n)).2.Streams (work.setDma server (.rwbuf dest n)).1 ∧
      (work.setDma server (.rwbuf dest n)).2.settled.mem =
        memcpy work.settled.mem dest ((range n).map work.dma.buffers.rwbuf) ∧
      (work.setDma server (.rwbuf dest n)).2.dma.buffers = work.dma.buffers ∧
      (work.setDma server (.rwbuf dest n)).2.reads = work.reads := by
  let pushed : Work F := { work with dma := (work.dma.push (.rwbuf dest n)).2 }
  obtain ⟨hbuffers, hsettled, -, -⟩ := pushed.advance_spec server
  have hstreams : pushed.Streams (work.dma.push (.rwbuf dest n)).1 := by
    refine ⟨fun t ht => ?_, ?_⟩
    · rcases mem_append.mp ht with hold | hnew
      · exact h.rwbuf t hold
      · rw [mem_singleton.mp hnew]
        exact Transfer.noConfusion
    · simp [pushed, CopyQueue.push, Nat.add_assoc]
  refine ⟨hstreams.advance server, ?_, hbuffers, rfl⟩
  change (pushed.advance server).settled.mem = _
  rw [hsettled]
  exact congrArg EeMemory.mem (CopyQueue.settled_push Transfer.perform (.rwbuf dest n) work.dma)

omit h

/-- The loop delivers what its reads return, right behind the bytes before, and stops early only after a
short read. -/
theorem readLoop_spec {before : Addr → Byte} {buf : Addr} {size offset : ℕ} (hsize : size < 2 ^ 32) (a : ℕ)
    (work : Work F) (abuffer : Addr) (status : ℕ) (total : ℤ) (bytes : List Byte)
    (hstreams : work.Streams status) (hbytes : Delivers before work.settled.mem buf size offset bytes)
    (hbuffer : a ≠ 0 → abuffer = buf + BitVec.ofNat 32 (offset + bytes.length))
    (hfits : offset + bytes.length + a ≤ size) : ∃ ended got work', readLoop server work a abuffer status total =
        (ended, total + (got.flatten.length : ℕ), work') ∧
      work'.reads = work.reads ++ got ∧
      Delivers before work'.settled.mem buf size offset (bytes ++ got.flatten) ∧
      got.flatten.length ≤ a ∧ (ended = true → got.flatten.length = a) ∧
      work'.dma.buffers.rests = work.dma.buffers.rests ∧ ∃ status', work'.Streams status' := by
  induction a using Nat.strongRecOn generalizing work abuffer status total bytes with
  | _ a ih =>
    rw [readLoop]
    split
    · next hpos =>
      have hrw := server.rwBufferSize_pos
      dsimp only
      rw [Int.toNat_natCast]
      generalize hn : min server.rwBufferSize a = n
      obtain ⟨hlen, hstreams', hsettled, hrests, hreads, hdata⟩ := hstreams.fillRwbuf server n
      generalize work.fillRwbuf server status n = filled at hlen hstreams' hsettled hrests hreads hdata ⊢
      obtain ⟨result, work'⟩ := filled
      dsimp only at hlen hstreams' hsettled hrests hreads hdata ⊢
      have hbuffer := hbuffer (by omega)
      have hdelivered : ∀ k : ℕ, result.rlen = k →
          Delivers before (memcpy work'.settled.mem abuffer ((range k).map work'.dma.buffers.rwbuf)) buf
            size offset (bytes ++ result.bytes) := by
        intro k hk
        have hbytesLen := result.length_bytes
        rw [hk, Int.toNat_natCast] at hdata hbytesLen
        rw [hdata, hbuffer, hsettled]
        exact hbytes.append hsize (by omega)
      split
      · split
        · next hfail =>
          refine ⟨false, [result.bytes], work', ?_, hreads, ?_, ?_, by simp, hrests, status, hstreams'⟩
          · have hzero : result.rlen.toNat = 0 := by omega
            simp [hzero]
          · have hnil : result.bytes = [] := length_eq_zero_iff.mp (by rw [result.length_bytes]; omega)
            simpa [hnil, hsettled] using hbytes
          · simp only [flatten_cons, flatten_nil, append_nil, result.length_bytes]
            omega
        · next hshort hsome =>
          obtain ⟨k, hk⟩ : ∃ k : ℕ, result.rlen = k := ⟨result.rlen.toNat, by omega⟩
          obtain ⟨hnext, hmem, hbuffers, hsame⟩ := hstreams'.setDma server abuffer k
          rw [hk, Int.toNat_natCast]
          refine ⟨false, [result.bytes], _, ?_, hsame.trans hreads, ?_, ?_, by simp, ?_, _, hnext⟩
          · simp [hk]
          · rw [hmem]
            simpa using hdelivered k hk
          · simp only [flatten_cons, flatten_nil, append_nil, result.length_bytes]
            omega
          · rw [hbuffers, hrests]
      · next hfull =>
        have hk : result.rlen = n := by simpa using hfull
        obtain ⟨hnext, hmem, hbuffers, hsame⟩ := hstreams'.setDma server abuffer n
        have hbytesLen : result.bytes.length = n := by simp [hk]
        generalize work'.setDma server (.rwbuf abuffer n) = queued at hnext hmem hbuffers hsame ⊢
        obtain ⟨status', work''⟩ := queued
        have hrest : (a : ℤ) - n = ((a - n : ℕ) : ℤ) := by omega
        rw [hrest]
        obtain ⟨ended, got, last, heq, hgot, hdel, hle, hended, hlast, hqueued⟩ :=
          ih (a - n) (by omega) work'' (abuffer + BitVec.ofNat 32 n) status' (total + n)
            (bytes ++ result.bytes) hnext (by rw [hmem]; exact hdelivered n hk)
            (fun _ => by
              rw [hbuffer, length_append, hbytesLen, BitVec.add_assoc, ← ofNat_add,
                Nat.add_assoc])
            (by rw [length_append]; omega)
        refine ⟨ended, result.bytes :: got, last, ?_, ?_, ?_, ?_, ?_, ?_, hqueued⟩
        · rw [heq, flatten_cons, length_append, hbytesLen, Int.natCast_add, Int.add_assoc]
        · rw [hgot, hsame, hreads]
          simp
        · rw [flatten_cons, ← List.append_assoc]
          exact hdel
        · rw [flatten_cons, length_append]
          omega
        · intro hend
          rw [flatten_cons, length_append, hended hend]
          omega
        · rw [hlast, hbuffers, hrests]
    · next hzero =>
      refine ⟨true, [], work, ?_, ?_, ?_, ?_, ?_, rfl, status, hstreams⟩
      · simp
      · simp
      · simpa using hbytes
      · simp
      · intro _
        simp
        omega

/-- The head is in `rests.sbuffer`, and nothing is queued. -/
theorem readHead_spec (work : Work F) (s : ℕ) (hqueue : work.dma.queue = []) (hdone : work.dma.done = 0) :
    ∃ go got, ∃ work' : Work F, ∃ k : ℕ, readHead server work s = (go, (k : ℤ), work') ∧ work'.Streams 0 ∧
      work'.settled = work.settled ∧ work'.reads = work.reads ++ got ∧
      (range k).map work'.dma.buffers.rests.sbuffer = got.flatten ∧ k ≤ s ∧ (go = true → k = s) := by
  have hstreams : work.Streams 0 := ⟨by simp [hqueue], by simp [hqueue, hdone]⟩
  unfold readHead
  split
  · next hpos =>
    rw [Int.toNat_natCast]
    obtain ⟨hlen, hreads, hread, hsame, -⟩ := hstreams.read server s
    generalize work.read server s = done at hlen hreads hread hsame ⊢
    obtain ⟨result, work'⟩ := done
    dsimp only at hlen hreads hread hsame ⊢
    split
    · refine ⟨false, [result.bytes], _, result.rlen.toNat, Prod.ext rfl (Prod.ext ?_ rfl),
        ⟨hread.rwbuf, hread.numbered⟩, (hread.settled_setRests _).trans hsame, hreads, ?_, by omega, by simp⟩
      · exact (Int.toNat_eq_max result.rlen).symm
      · have hdata := map_refill work'.dma.buffers.rests.sbuffer hlen
        rw [flatten_cons, flatten_nil, append_nil]
        exact hdata
    · next hfull =>
      have hfull : result.rlen = s := by simpa [eq_comm] using hfull
      refine ⟨true, [result.bytes], _, s, rfl, ⟨hread.rwbuf, hread.numbered⟩,
        (hread.settled_setRests _).trans hsame, hreads, ?_, Nat.le_refl s, fun _ => rfl⟩
      have hdata := map_refill work'.dma.buffers.rests.sbuffer hlen
      rw [hfull, Int.toNat_natCast] at hdata
      exact hdata.trans (by simp)
  · next hzero =>
    obtain rfl : s = 0 := by omega
    exact ⟨true, [], work, 0, rfl, hstreams, rfl, by simp, by simp, Nat.le_refl 0, fun _ => rfl⟩

/-- The tail is in `rests.ebuffer`. -/
theorem readTail_spec (work : Work F) (e : ℕ) (total : ℤ) (hstreams : work.Streams status) :
    ∃ got, ∃ work' : Work F, readTail server work e total = (total + (got.flatten.length : ℕ), work') ∧
      work'.Streams status ∧ work'.settled = work.settled ∧ work'.reads = work.reads ++ got ∧
      work'.dma.buffers.rests.sbuffer = work.dma.buffers.rests.sbuffer ∧
      got.flatten <+: (range e).map work'.dma.buffers.rests.ebuffer := by
  unfold readTail
  split
  · next hpos =>
    rw [Int.toNat_natCast]
    obtain ⟨hlen, hreads, hread, hsame, hold⟩ := hstreams.read server e
    generalize work.read server e = done at hlen hreads hread hsame hold ⊢
    obtain ⟨result, work'⟩ := done
    dsimp only at hlen hreads hread hsame hold ⊢
    refine ⟨[result.bytes], _, Prod.ext ?_ rfl, ⟨hread.rwbuf, hread.numbered⟩,
      (hread.settled_setRests _).trans hsame, hreads, ?_, ?_⟩
    · simp
    · exact congrArg (fun buffers => buffers.rests.sbuffer) hold
    · have hdata := map_refill work'.dma.buffers.rests.ebuffer hlen
      have hrange : range result.rlen.toNat = (range e).take result.rlen.toNat := by
        rw [take_range, Nat.min_eq_left (by omega)]
      rw [flatten_cons, flatten_nil, append_nil, ← hdata, hrange, map_take]
      exact take_prefix _ _
  · next hzero =>
    exact ⟨[], work, by simp, hstreams, rfl, by simp, rfl, nil_prefix⟩

/-- What the parts of a read leave behind: once the rests are copied to their places, the bytes the reads
returned are in the buffer. -/
theorem readParts_spec (work : Work F) (buf : Addr) (size : BitVec 32) (hsize : size.toNat < 2 ^ 31)
    (hqueue : work.dma.queue = []) (hdone : work.dma.done = 0) : ∃ got, ∃ work' : Work F, ∃ k e status : ℕ,
      readParts server work (cutBuffer buf size) = ((k : ℤ), (got.flatten.length : ℤ), work') ∧
      (cutBuffer buf size).erest = e ∧ work'.Streams status ∧ work'.reads = work.reads ++ got ∧
      Delivers work.settled.mem
        (memcpy (memcpy work'.settled.mem buf ((range k).map work'.dma.buffers.rests.sbuffer))
          (cutBuffer buf size).aebuffer ((range e).map work'.dma.buffers.rests.ebuffer))
        buf size.toNat 0 got.flatten := by
  obtain ⟨s, a, e, hs, ha, he, hsum, -, -, habuffer, haebuffer⟩ := cutBuffer_spec buf size hsize
  obtain ⟨go, head, work₁, k, hhead, hstreams₁, hsettled₁, hreads₁, hsbuf, hk, hgo⟩ :=
    readHead_spec server work s hqueue hdone
  have hfits : size.toNat < 2 ^ 32 := by omega
  have hheadLen : head.flatten.length = k := by rw [← hsbuf]; simp
  have htail : ∀ (mem : Addr → Byte) (bytes : List Byte) (ebuffer : ℕ → Byte),
      Delivers work.settled.mem mem buf size.toNat 0 bytes → bytes.length ≤ s + a →
      Delivers work.settled.mem (memcpy mem (cutBuffer buf size).aebuffer ((range e).map ebuffer)) buf
        size.toNat 0 bytes := by
    intro mem bytes ebuffer hmem hlen
    by_cases hzero : e = 0
    · simpa [hzero] using hmem
    · rw [haebuffer hzero]
      exact hmem.beyond hfits (by omega) (by simp; omega)
  unfold readParts
  rw [hs, ha, he, hhead]
  cases go with
  | false =>
    refine ⟨head, work₁, k, e, 0, by rw [hheadLen], rfl, hstreams₁, hreads₁, ?_⟩
    rw [hsbuf, hsettled₁]
    have hhead := (@Delivers.nil 32 Byte work.settled.mem buf size.toNat k (by omega)).head hfits hheadLen
    rw [append_nil] at hhead
    exact htail _ _ _ hhead (by omega)
  | true =>
    obtain rfl : k = s := hgo rfl
    have hempty : Delivers work.settled.mem work₁.settled.mem buf size.toNat k [] := by
      rw [hsettled₁]
      exact Delivers.nil _ buf (by omega)
    obtain ⟨ended, middle, work₂, hloop, hreads₂, hmiddle, hle, hended, hrests, status, hstreams₂⟩ :=
      readLoop_spec server hfits a work₁ (cutBuffer buf size).abuffer 0 (max (k : ℤ) 0) [] hstreams₁ hempty
        (by simpa using habuffer) (by simp; omega)
    have hhead : Delivers work.settled.mem (memcpy work₂.settled.mem buf head.flatten) buf size.toNat 0
        (head.flatten ++ middle.flatten) := by
      rw [nil_append] at hmiddle
      exact hmiddle.head hfits hheadLen
    have htotal : max (k : ℤ) 0 + (middle.flatten.length : ℕ) = ((head ++ middle).flatten.length : ℤ) := by
      rw [flatten_append, length_append, hheadLen]
      omega
    simp only [hloop, htotal]
    cases ended with
    | false =>
      refine ⟨head ++ middle, work₂, k, e, status, rfl, rfl, hstreams₂, ?_, ?_⟩
      · rw [hreads₂, hreads₁, List.append_assoc]
      · rw [hrests, hsbuf, flatten_append]
        exact htail _ _ _ hhead (by rw [length_append]; omega)
    | true =>
      obtain ⟨tail, work₃, htailRead, hstreams₃, hsettled₃, hreads₃, hsame, hprefix⟩ :=
        readTail_spec server work₂ e ((head ++ middle).flatten.length : ℤ) hstreams₂
      obtain ⟨stale, hstale⟩ := hprefix
      refine ⟨head ++ middle ++ tail, work₃, k, e, status, ?_, rfl, hstreams₃, ?_, ?_⟩
      · simp only [htailRead]
        rw [@flatten_append _ (head ++ middle) tail, length_append, Int.natCast_add]
      · rw [hreads₃, hreads₂, hreads₁]
        simp
      · rw [hsame, hrests, hsbuf, hsettled₃, flatten_append, flatten_append]
        have hlen : (head.flatten ++ middle.flatten).length = k + a := by
          rw [length_append, hheadLen, hended rfl]
        by_cases hzero : e = 0
        · have hnone : tail.flatten = [] := by
            rw [hzero, range_zero, map_nil] at hstale
            exact (append_eq_nil_iff.mp hstale).1
          simpa [hzero, hnone] using hhead
        · have hmore : 0 + (head.flatten ++ middle.flatten).length + (tail.flatten ++ stale).length ≤
              size.toNat := by
            rw [hlen, hstale]
            simp
            omega
          have hall := hhead.append hfits hmore
          rw [hlen, Nat.zero_add, ← haebuffer hzero, hstale, ← hstale, ← List.append_assoc] at hall
          rw [← hstale]
          exact hall.of_append

theorem Work.settled_setDma_rests (work : Work F) :
    (work.setDma server .rests).2.settled = { work.settled with intrData := work.dma.buffers.rests } := by
  let pushed : Work F := { work with dma := (work.dma.push .rests).2 }
  obtain ⟨-, hsettled, -, -⟩ := pushed.advance_spec server
  change (pushed.advance server).settled = _
  rw [hsettled]
  exact CopyQueue.settled_push Transfer.perform .rests work.dma

/-- A read delivers the bytes that the driver returned, and reports how many there are. -/
theorem fileXioRead_spec (session : Session F) (buf : Addr) (size : BitVec 32) (hsize : size.toNat < 2 ^ 31)
    (rpc : ℤ) : ∃ got, (fileXioRead server session buf size rpc).2.reads = session.reads ++ got ∧
      got.flatten.length = (fileXioRead server session buf size rpc).1.toNat ∧
      Delivers session.ee.mem (fileXioRead server session buf size rpc).2.ee.mem buf size.toNat 0
        got.flatten := by
  unfold fileXioRead
  split
  · refine ⟨[], by simp, ?_, Delivers.nil _ buf (Nat.zero_le _)⟩
    simp
    omega
  · obtain ⟨got, work, k, e, status, hparts, herest, hstreams, hreads, hdelivers⟩ :=
      readParts_spec server ⟨session.file, ⟨session.ee, session.buffers, [], 0⟩, session.turn, session.reads⟩
        buf size hsize rfl rfl
    refine ⟨got, ?_, ?_, ?_⟩
    · simp only [fileXioReadRpc, hparts]
      exact hreads
    · simp only [fileXioReadRpc, hparts, Int.toNat_natCast]
    · simp only [fileXioReadRpc, hparts, herest]
      generalize hsent : (Work.setDma server _ .rests).2 = sent
      have hsettled : sent.settled = { work.settled with
          intrData := { work.dma.buffers.rests with
            ssize := k, esize := e, sbuf := buf, ebuf := (cutBuffer buf size).aebuffer } } := by
        rw [← hsent, Work.settled_setDma_rests, hstreams.settled_setRests]
        rfl
      change Delivers session.ee.mem (recvIntr sent.settled).mem buf size.toNat 0 got.flatten
      rw [hsettled, mem_recvIntr]
      exact hdelivers

end

end Reading

section Writing

open Lib (slice slice_add length_slice)

/-- The bytes that were accepted up to and including the first short write. -/
def acceptedToShort : List (List Byte × ℤ) → ℕ
  | [] => 0
  | (bytes, wlen) :: rest => if wlen = bytes.length then bytes.length + acceptedToShort rest else wlen.toNat

/-- The calls pass the bytes in order from the first on, no call follows a short one, and if none is
short all bytes are passed. -/
structure Passes (bytes : List Byte) (calls : List (List Byte × ℤ)) : Prop where
  isPrefix : (calls.map Prod.fst).flatten <+: bytes
  stops : ∀ call ∈ calls.dropLast, call.2 = call.1.length
  complete : (∀ call ∈ calls, call.2 = call.1.length) → (calls.map Prod.fst).flatten = bytes

theorem Passes.short {bytes rest : List Byte} {wlen : ℤ} (h : wlen ≠ bytes.length) :
    Passes (bytes ++ rest) [(bytes, wlen)] :=
  ⟨by simp, by simp, fun hall => absurd (hall _ List.mem_cons_self) h⟩

/-- A full write is followed by the calls for the other bytes. -/
theorem Passes.full {bytes rest : List Byte} {calls : List (List Byte × ℤ)} (h : Passes rest calls) :
    Passes (bytes ++ rest) ((bytes, (bytes.length : ℤ)) :: calls) := by
  refine ⟨?_, ?_, ?_⟩
  · simpa using h.isPrefix
  · intro call hcall
    cases calls with
    | nil => simp at hcall
    | cons next others =>
      rw [List.dropLast_cons_cons, List.mem_cons] at hcall
      rcases hcall with rfl | hcall
      · rfl
      · exact h.stops call hcall
  · intro hall
    have hrest := h.complete fun call hcall => hall call (List.mem_cons_of_mem _ hcall)
    simp [hrest]

section

variable {F : Type} (server : Server F)

/-- A part that was fetched into `rwbuf`. -/
theorem map_fetched (rwbuf : ℕ → Byte) {fetched : List Byte} {n : ℕ} (h : fetched.length = n) :
    ((List.range n).map fun i => (fetched[i]?).getD (rwbuf i)) = fetched := by
  refine List.ext_getElem? fun i => ?_
  rw [List.getElem?_map]
  rcases Nat.lt_or_ge i n with hi | hi
  · simp [h, hi]
  · rw [List.getElem?_eq_none (by simpa using hi), List.getElem?_eq_none (by omega)]
    rfl

theorem Session.write_spec {session session' : Session F} {bytes : List Byte} {wlen : ℤ}
    (h : session.write server bytes = (wlen, session')) :
    session'.writes = session.writes ++ [(bytes, wlen)] ∧ session'.ee = session.ee := by
  obtain ⟨rfl, rfl⟩ := Prod.mk.inj h.symm
  exact ⟨rfl, rfl⟩

/-- The loop passes the rest of the buffer. -/
theorem writeLoop_spec (left : ℕ) (session : Session F) (pos : Addr) (total : ℤ) :
    ∃ calls, (writeLoop server session left pos total).2.writes = session.writes ++ calls ∧
      (writeLoop server session left pos total).1 = total + acceptedToShort calls ∧
      Passes (slice session.ee.mem pos left) calls := by
  induction left using Nat.strongRecOn generalizing session pos total with
  | _ left ih =>
    rw [writeLoop]
    split
    · next hpos =>
      have hrw := server.rwBufferSize_pos
      dsimp only
      generalize hn : min server.rwBufferSize left = n
      rw [map_fetched session.buffers.rwbuf (length_slice session.ee.mem pos n)]
      have hcut : slice session.ee.mem pos left =
          slice session.ee.mem pos n ++ slice session.ee.mem (pos + BitVec.ofNat 32 n) (left - n) := by
        rw [← slice_add, Nat.add_sub_cancel' (by omega)]
      generalize hwrite : Session.write server _ (slice session.ee.mem pos n) = written
      obtain ⟨wlen, session'⟩ := written
      obtain ⟨hwrites, hmem⟩ := Session.write_spec server hwrite
      split
      · next hshort =>
        refine ⟨[(slice session.ee.mem pos n, wlen)], hwrites, ?_, ?_⟩
        · simp [acceptedToShort, hshort]
        · rw [hcut]
          exact Passes.short (by simpa using hshort)
      · next hfull =>
        have hfull : wlen = n := by simpa using hfull
        obtain ⟨calls, hcalls, htotal, hpasses⟩ :=
          ih (left - n) (by omega) session' (pos + BitVec.ofNat 32 n) (total + n)
        refine ⟨(slice session.ee.mem pos n, wlen) :: calls, ?_, ?_, ?_⟩
        · rw [hcalls, hwrites]
          simp
        · rw [htotal]
          simp [acceptedToShort, hfull, Int.add_assoc]
        · rw [hcut, hfull]
          rw [hmem] at hpasses
          have hpassed := @Passes.full (slice session.ee.mem pos n) _ _ hpasses
          rwa [length_slice] at hpassed
    · next hzero =>
      obtain rfl : left = 0 := by omega
      exact ⟨[], by simp, by simp [acceptedToShort], ⟨by simp, by simp, fun _ => rfl⟩⟩

/-- A write passes the buffer to the driver and reports what was accepted. -/
theorem fileXioWrite_spec (session : Session F) (buf : Addr) (size : BitVec 32) (rpc : ℤ) :
    ∃ calls, (fileXioWrite server session buf size rpc).2.writes = session.writes ++ calls ∧
      acceptedToShort calls = (fileXioWrite server session buf size rpc).1.toNat ∧
      (if rpc < 0 then calls = [] else Passes (slice session.ee.mem buf size.toNat) calls) := by
  unfold fileXioWrite
  split
  · refine ⟨[], by simp, ?_, rfl⟩
    simp [acceptedToShort]
    omega
  · dsimp only
    generalize hmiss : (if buf &&& 0x3f#32 ≠ 0 then min (64 - (buf &&& 0x3f#32).toNat) size.toNat else 0) = miss
    have hle : miss ≤ size.toNat := by
      rw [← hmiss]
      split <;> omega
    have hcut : slice session.ee.mem buf size.toNat = slice session.ee.mem buf miss ++
        slice session.ee.mem (buf + BitVec.ofNat 32 miss) (size.toNat - miss) := by
      rw [← slice_add, Nat.add_sub_cancel' hle]
    unfold fileXioWriteRpc
    split
    · next hpos =>
      rw [List.take_of_length_le (by simp)]
      generalize hwrite : Session.write server session (slice session.ee.mem buf miss) = written
      obtain ⟨wlen, session'⟩ := written
      obtain ⟨hwrites, hmem⟩ := Session.write_spec server hwrite
      dsimp only
      split
      · next hshort =>
        refine ⟨[(slice session.ee.mem buf miss, wlen)], hwrites, ?_, ?_⟩
        · simp [acceptedToShort, hshort]
          omega
        · rw [hcut]
          exact Passes.short (by simpa using hshort)
      · next hfull =>
        have hfull : wlen = miss := by simpa using hfull
        obtain ⟨calls, hcalls, htotal, hpasses⟩ := writeLoop_spec server (size.toNat - miss) session'
          (buf + BitVec.ofNat 32 miss) wlen
        refine ⟨(slice session.ee.mem buf miss, wlen) :: calls, ?_, ?_, ?_⟩
        · rw [hcalls, hwrites]
          simp
        · rw [htotal, hfull]
          simp [acceptedToShort]
          omega
        · rw [hcut, hfull]
          rw [hmem] at hpasses
          have hpassed := @Passes.full (slice session.ee.mem buf miss) _ _ hpasses
          rwa [length_slice] at hpassed
    · next hzero =>
      obtain rfl : miss = 0 := by omega
      obtain ⟨calls, hcalls, htotal, hpasses⟩ := writeLoop_spec server (size.toNat - 0) session
        (buf + BitVec.ofNat 32 0) 0
      refine ⟨calls, hcalls, ?_, ?_⟩
      · rw [htotal]
        simp
      · rw [hcut]
        exact hpasses

/-- A blocking `fileXioRead` that returns `t` leaves in the first `t` bytes of the buffer what the reads of
the driver returned, and changes no byte outside the buffer; `fileXioWrite` passes the bytes of the
buffer to the driver in order and once, and returns the number of bytes accepted up to and including
the first short write. -/
theorem fileXio_transfers_bytes (session : Session F) (buf : Addr) (size : BitVec 32)
    (hsize : 0 ≤ size.toInt) (rpc : ℤ) :
    (∃ got, (fileXioRead server session buf size rpc).2.reads = session.reads ++ got ∧
      slice (fileXioRead server session buf size rpc).2.ee.mem buf
        (fileXioRead server session buf size rpc).1.toNat = got.flatten ∧
      ∀ a, size.toNat ≤ (a - buf).toNat →
        (fileXioRead server session buf size rpc).2.ee.mem a = session.ee.mem a) ∧
    ∃ calls, (fileXioWrite server session buf size rpc).2.writes = session.writes ++ calls ∧
      acceptedToShort calls = (fileXioWrite server session buf size rpc).1.toNat ∧
      (if rpc < 0 then calls = [] else Passes (slice session.ee.mem buf size.toNat) calls) := by
  have hnat : size.toNat < 2 ^ 31 := by
    rw [BitVec.toInt_eq_toNat_cond] at hsize
    split at hsize <;> omega
  refine ⟨?_, fileXioWrite_spec server session buf size rpc⟩
  obtain ⟨got, hreads, hlen, hdelivers⟩ := fileXioRead_spec server session buf size hnat rpc
  refine ⟨got, hreads, ?_, hdelivers.frame⟩
  rw [← hlen]
  exact hdelivers.slice_eq (by omega)

end

/-- A driver that reads zeroes and accepts everything. -/
def zeroDriver : Driver Unit where
  read file n := (⟨n, fun _ => 0⟩, file)
  write file bytes := (bytes.length, file)
  read_le _ _ := Int.le_refl _
  write_le _ _ := Int.le_refl _

/-- The server with a buffer of 128 bytes. -/
def zeroServer : Server Unit := ⟨zeroDriver, 128, by decide, fun _ => 0⟩

/-- A session over a memory of ones. -/
def onesSession : Session Unit :=
  let rests : Rests := ⟨0, 0, 0, 0, fun _ => 0, fun _ => 0⟩
  ⟨(), ⟨fun _ => 1, rests⟩, ⟨fun _ => 0, rests⟩, 0, [], []⟩

/-- A transfer of 1000 bytes at an address that is not aligned. -/
theorem fileXio_transfers_unaligned : (0 ≤ (1000 : BitVec 32).toInt) ∧
    (∃ got, (fileXioRead zeroServer onesSession 0x100001 1000 0).2.reads = onesSession.reads ++ got ∧
      slice (fileXioRead zeroServer onesSession 0x100001 1000 0).2.ee.mem 0x100001
        (fileXioRead zeroServer onesSession 0x100001 1000 0).1.toNat = got.flatten ∧
      ∀ a, (1000 : BitVec 32).toNat ≤ (a - 0x100001).toNat →
        (fileXioRead zeroServer onesSession 0x100001 1000 0).2.ee.mem a = onesSession.ee.mem a) :=
  ⟨by decide, (fileXio_transfers_bytes zeroServer onesSession 0x100001 1000 (by decide) 0).1⟩

end Writing

end Ps2sdk.FileXio
