import Mathlib.Data.Int.Notation
import Mathlib.Data.List.Count
import Mathlib.Data.List.Nodup
import Mathlib.Data.List.Perm.Basic

/-!
# SIF remote procedure calls

Two peers run sifrpc.c and are joined by an in-order channel each way, on which commands and DMA
transfers arrive in the order they were sent. A request takes a packet from the table of its peer;
the packet is free again when an END command or a DMA transfer over it clears its allocation
flag. Each peer keeps history variables that no routine reads: the number of packets taken, which
requests were answered, whose packets were set free, and whether a request ever lost its packet to
the completion of another one. The bodies of the requests and the semaphores are left out, except that
creating a semaphore and sending a command may fail.

The invariant: the allocated packets are those of the pending requests, each with its own.
-/

namespace Ps2sdk.Sif

/-- `E_LIB_SEMA_CREATE`. -/
def eLibSemaCreate : ℤ := 0xd602

/-- `E_SIF_PKT_ALLOC`. -/
def eSifPktAlloc : ℤ := 0xd610

/-- `E_SIF_PKT_SEND`. -/
def eSifPktSend : ℤ := 0xd611

/-- `pkt_table_len`. -/
def pktTableLen : ℕ := 32

/-- The header of a packet of the table, with the number of the request that took it last. -/
structure Packet where
  alloc : Bool := false
  rpcId : BitVec 32 := 0
  serial : ℕ := 0

/-- What a request, its packet and its answer have in common: the record of the requester, the
packet, and the number of the request. -/
structure Request where
  client : ℕ
  slot : ℕ
  serial : ℕ
  deriving DecidableEq

/-- The header of a `SifRpcClientData_t` or `SifRpcReceiveData_t`, and the server of a client. -/
structure Client where
  pktAddr : Option ℕ := none
  rpcId : BitVec 32 := 0
  server : Option ℕ := none

/-- `SifRpcServerData_t` with its queue: the request it was last given, whether it is in the queue
and whether its thread is working on it. -/
structure Server where
  sid : ℕ := 0
  request : Request := ⟨0, 0, 0⟩
  rsize : ℕ := 0
  rmode : Bool := false
  queued : Bool := false
  running : Bool := false
  link : Bool := false

/-- What travels on a channel. `reply` marks the DMA transfer that is the answer to its call. -/
inductive Message
  | bind (r : Request) (sid : ℕ)
  | call (r : Request) (server : Option ℕ) (rsize : ℕ) (rmode : Bool)
  | rdata (r : Request)
  | rend (r : Request) (bound : Option (Option ℕ))
  | packetDma (r : Request) (reply : Bool)
  | dataDma (r : Request) (reply : Bool)

/-- `_sif_rpc_data` with the records of the clients and servers, and the history of the peer. -/
structure Peer where
  pid : BitVec 32 := 1
  packet : ℕ → Packet := fun _ => {}
  client : ℕ → Client := fun _ => {}
  server : ℕ → Server := fun _ => {}
  serverCount : ℕ := 0
  hung : Bool := false
  issued : ℕ := 0
  answered : ℕ → Bool := fun _ => false
  released : List ℕ := []
  clobbered : Bool := false

/-- The two peers and the messages on their way to each of them. -/
structure Net where
  peer : Bool → Peer
  channel : Bool → List Message

variable (s : Net)

/-- Change one peer. -/
def Net.setPeer (p : Bool) (peer : Peer) : Net :=
  { s with peer := Function.update s.peer p peer }

variable (peer : Peer)

/-- Change the record of a server. -/
def Peer.setServer (server : ℕ) (sd : Server) : Peer :=
  { peer with server := Function.update peer.server server sd }

variable (p : Bool)

/-- Append a message to the channel towards a peer. -/
def Net.send (m : Message) : Net :=
  { s with channel := Function.update s.channel p (s.channel p ++ [m]) }

/-- `_rpc_get_packet`. -/
def rpcGetPacket : Option (ℕ × Peer) :=
  match (List.range pktTableLen).find? fun rid => !(peer.packet rid).alloc with
  | none => none
  | some rid =>
    let pid := if peer.pid = 0 then 1 else peer.pid + 1
    let next := if peer.pid = 0 then 2 else peer.pid + 1
    some (rid,
      { peer with pid := next,
                  packet := Function.update peer.packet rid
                    { alloc := true, rpcId := pid, serial := peer.issued },
                  issued := peer.issued + 1 })

/-- Clear the allocation flag of a packet for the completion of a request. -/
def Peer.clear (slot serial : ℕ) : Peer :=
  { peer with
    packet := Function.update peer.packet slot { peer.packet slot with alloc := false, rpcId := 0 }
    released := if (peer.packet slot).alloc then (peer.packet slot).serial :: peer.released
      else peer.released
    clobbered := peer.clobbered || ((peer.packet slot).alloc && (peer.packet slot).serial != serial) }

/-- A request has its answer, or its call has failed. -/
def Peer.answer (serial : ℕ) : Peer :=
  { peer with answered := Function.update peer.answered serial true }

/-- The common part of the three requests: take a packet, note it in the record of the requester,
create the semaphore unless the caller does not wait, and send the packet. -/
def issueRequest (cd : ℕ) (prepare : Client → Client) (pack : Request → Message)
    (nowait sema sent : Bool) : ℤ × Net :=
  match rpcGetPacket (s.peer p) with
  | none => (-eSifPktAlloc, s)
  | some (slot, peer) =>
    let serial := (s.peer p).issued
    let record := { prepare (peer.client cd) with pktAddr := some slot, rpcId := (peer.packet slot).rpcId }
    let peer := { peer with client := Function.update peer.client cd record }
    if !nowait && !sema then (-eLibSemaCreate, s.setPeer p (peer.answer serial))
    else if !sent then (-eSifPktSend, s.setPeer p (peer.answer serial))
    else (0, (s.setPeer p peer).send (!p) (pack ⟨cd, slot, serial⟩))

/-- `SifBindRpc`. -/
def sifBindRpc (cd sid : ℕ) (nowait sema sent : Bool) : ℤ × Net :=
  issueRequest s p cd (fun client => { client with server := none }) (fun r => .bind r sid)
    nowait sema sent

/-- `SifCallRpc`; only a call that does not wait and has no end function gets no END. -/
def sifCallRpc (cd rsize : ℕ) (nowait endfunc sema sent : Bool) : ℤ × Net :=
  issueRequest s p cd id
    (fun r => .call r ((s.peer p).client cd).server rsize (!(nowait && !endfunc))) nowait sema sent

/-- `SifRpcGetOtherData`. -/
def sifRpcGetOtherData (rd : ℕ) (nowait sema sent : Bool) : ℤ × Net :=
  issueRequest s p rd id (fun r => .rdata r) nowait sema sent

/-- The outcome of `search_svdata`. -/
inductive Search
  | found (server : ℕ) | notFound | endless

/-- `search_svdata`: a server that is linked to itself and does not match is visited for ever. -/
def searchSvdata (peer : Peer) (sid : ℕ) : List ℕ → Search
  | [] => .notFound
  | server :: rest =>
    if (peer.server server).sid = sid then .found server
    else if (peer.server server).link then .endless
    else searchSvdata peer sid rest

variable (r : Request)

/-- `_request_bind`. -/
def requestBind (sid : ℕ) (sent : Bool) : Net :=
  match searchSvdata (s.peer p) sid (List.range (s.peer p).serverCount) with
  | .endless => s.setPeer p { s.peer p with hung := true }
  | .found server => if sent then s.send (!p) (.rend r (some (some server))) else s
  | .notFound => if sent then s.send (!p) (.rend r (some none)) else s

/-- `_request_call`: a server that is in its queue already is linked to itself. -/
def requestCall (server : Option ℕ) (rsize : ℕ) (rmode : Bool) : Net :=
  match server with
  | none => s
  | some server =>
    let peer := s.peer p
    let old := peer.server server
    s.setPeer p (peer.setServer server
      { old with request := r, rsize := rsize, rmode := rmode, queued := true,
                 link := old.link || old.queued })

/-- `_request_rdata`. -/
def requestRdata (sent : Bool) : Net :=
  if sent then s.send (!p) (.rend r none) else s

/-- `_request_end`: the packet that is set free is the one the record of the requester names. -/
def requestEnd (bound : Option (Option ℕ)) : Net :=
  let peer := s.peer p
  let record := peer.client r.client
  let freed := match record.pktAddr with
    | none => peer
    | some slot => peer.clear slot r.serial
  let server := match bound with
    | none => record.server
    | some server => server
  s.setPeer p ({ freed with
    client := Function.update freed.client r.client { record with pktAddr := none, server := server } }.answer
      r.serial)

/-- A DMA transfer over a packet arrives. -/
def packetArrives (reply : Bool) : Net :=
  let peer := (s.peer p).clear r.slot r.serial
  s.setPeer p (if reply then peer.answer r.serial else peer)

/-- The data of a call arrives. -/
def dataArrives (reply : Bool) : Net :=
  if reply then s.setPeer p ((s.peer p).answer r.serial) else s

/-- The next message for a peer is handled. -/
def deliver (sent : Bool) : Net :=
  if (s.peer p).hung then s
  else
    match s.channel p with
    | [] => s
    | m :: rest =>
      let s := { s with channel := Function.update s.channel p rest }
      match m with
      | .bind r sid => requestBind s p r sid sent
      | .call r server rsize rmode => requestCall s p r server rsize rmode
      | .rdata r => requestRdata s p r sent
      | .rend r bound => requestEnd s p r bound
      | .packetDma r reply => packetArrives s p r reply
      | .dataDma r reply => dataArrives s p r reply

/-- `SifGetNextRequest`, for a server thread that has finished its last request. -/
def sifGetNextRequest (server : ℕ) : Net :=
  let peer := s.peer p
  let sd := peer.server server
  if sd.queued && !sd.running then
    s.setPeer p (peer.setServer server { sd with queued := false, running := true })
  else s

/-- `SifExecRequest`: the DMA transfer at the end also follows an END that was sent. -/
def sifExecRequest (server : ℕ) (sent : Bool) : Net :=
  let peer := s.peer p
  let sd := peer.server server
  if sd.running then
    let s := s.setPeer p (peer.setServer server { sd with running := false })
    if sd.rmode && !sent then s
    else
      let s := if sd.rmode then s.send (!p) (.rend sd.request none) else s
      if sd.rsize = 0 then s.send (!p) (.packetDma sd.request (!sd.rmode))
      else s.send (!p) (.dataDma sd.request (!sd.rmode))
  else s

/-- What the two peers do, with the outcome of what may fail. -/
inductive Event
  | bindRpc (p : Bool) (cd sid : ℕ) (nowait sema sent : Bool)
  | callRpc (p : Bool) (cd rsize : ℕ) (nowait endfunc sema sent : Bool)
  | getOtherData (p : Bool) (rd : ℕ) (nowait sema sent : Bool)
  | deliver (p : Bool) (sent : Bool)
  | getNextRequest (p : Bool) (server : ℕ)
  | execRequest (p : Bool) (server : ℕ) (sent : Bool)

/-- One event; the calls return their error code. -/
def step : Event → ℤ × Net
  | .bindRpc p cd sid nowait sema sent => sifBindRpc s p cd sid nowait sema sent
  | .callRpc p cd rsize nowait endfunc sema sent => sifCallRpc s p cd rsize nowait endfunc sema sent
  | .getOtherData p rd nowait sema sent => sifRpcGetOtherData s p rd nowait sema sent
  | .deliver p sent => (0, deliver s p sent)
  | .getNextRequest p server => (0, sifGetNextRequest s p server)
  | .execRequest p server sent => (0, sifExecRequest s p server sent)

/-- Two peers with their registered servers. -/
def initNet (sids : Bool → List ℕ) : Net where
  peer p := { serverCount := (sids p).length, server := fun i => { sid := (sids p).getD i 0 } }
  channel _ := []

open Function List Nat

variable {peer' : Peer} {r : Request} {slot : ℕ}

/-- Every packet taken is set free once, when its request has been answered and not before; none is
set free by the completion of another request; and a request without an answer is still pending. -/
structure ReleasedOnce (peer : Peer) (pending : List Request) : Prop where
  clean : peer.clobbered = false
  once : ∀ k < peer.issued, peer.released.count k = if peer.answered k then 1 else 0
  underway : ∀ k < peer.issued, peer.answered k = false → k ∈ pending.map Request.serial

/-- The allocated packets are those of the pending requests. -/
structure Accounted (peer : Peer) (pending : List Request) : Prop where
  clean : peer.clobbered = false
  once : ∀ k, peer.released.count k = if peer.answered k then 1 else 0
  future : ∀ k, peer.issued ≤ k → peer.answered k = false
  underway : ∀ k < peer.issued, peer.answered k = false → k ∈ pending.map Request.serial
  nodup : (pending.map Request.serial).Nodup
  waiting : ∀ r ∈ pending, r.serial < peer.issued ∧ peer.answered r.serial = false
  holds : ∀ r ∈ pending, (peer.packet r.slot).alloc = true ∧ (peer.packet r.slot).serial = r.serial
  owned : ∀ slot, (peer.packet slot).alloc = true →
    ∃ r ∈ pending, r.slot = slot ∧ r.serial = (peer.packet slot).serial

namespace Accounted

variable {peer : Peer} {pending : List Request}

section

variable (h : Accounted peer pending)
include h

theorem releasedOnce : ReleasedOnce peer pending :=
  ⟨h.clean, fun k _ => h.once k, h.underway⟩

/-- The order in which the pending requests are listed does not matter. -/
theorem perm {pending' : List Request} (hperm : pending.Perm pending') : Accounted peer pending' where
  clean := h.clean
  once := h.once
  future := h.future
  underway k hk ha := (hperm.map _).subset (h.underway k hk ha)
  nodup := (hperm.map _).nodup h.nodup
  waiting r hr := h.waiting r (hperm.symm.subset hr)
  holds r hr := h.holds r (hperm.symm.subset hr)
  owned slot hslot := by
    obtain ⟨r, hr, howner⟩ := h.owned slot hslot
    exact ⟨r, hperm.subset hr, howner⟩

/-- The records of the clients and servers are not part of it. -/
theorem congr (hpacket : peer'.packet = peer.packet)
    (hissued : peer'.issued = peer.issued) (hanswered : peer'.answered = peer.answered)
    (hreleased : peer'.released = peer.released) (hclobbered : peer'.clobbered = peer.clobbered) :
    Accounted peer' pending := by
  refine ⟨hclobbered.trans h.clean, ?_, ?_, ?_, h.nodup, ?_, ?_, ?_⟩
  · rw [hreleased, hanswered]
    exact h.once
  · rw [hissued, hanswered]
    exact h.future
  · rw [hissued, hanswered]
    exact h.underway
  · rw [hissued, hanswered]
    exact h.waiting
  · rw [hpacket]
    exact h.holds
  · rw [hpacket]
    exact h.owned

theorem eq_of_serial_eq {r' : Request} (hr : r ∈ pending)
    (hr' : r' ∈ pending) (hserial : r.serial = r'.serial) : r = r' :=
  inj_on_of_nodup_map h.nodup hr hr' hserial

theorem count_released (hr : r ∈ pending) : peer.released.count r.serial = 0 := by
  rw [h.once, (h.waiting r hr).2]
  rfl

end

/-- A request that is dropped without an answer breaks the property. -/
theorem not_releasedOnce_of_dropped {hand : List Request} (h : Accounted peer (hand ++ pending))
    (hr : r ∈ hand) : ¬ ReleasedOnce peer pending := by
  intro hbad
  have hmem : r ∈ hand ++ pending := mem_append_left _ hr
  obtain ⟨hissued, hanswered⟩ := h.waiting r hmem
  have hdisjoint := h.nodup
  rw [map_append] at hdisjoint
  exact disjoint_of_nodup_append hdisjoint (mem_map_of_mem hr)
    (hbad.underway r.serial hissued hanswered)

section

variable (h : Accounted peer pending)
include h

theorem not_releasedOnce_of_kept (hr : r ∈ pending)
    (hissued : peer'.issued = peer.issued) (hreleased : peer'.released = peer.released)
    (hanswered : peer'.answered r.serial = true) (pending' : List Request) : ¬ ReleasedOnce peer' pending' := by
  intro hbad
  have hcount := hbad.once r.serial (by rw [hissued]; exact (h.waiting r hr).1)
  rw [hanswered, hreleased, h.count_released hr] at hcount
  exact absurd hcount (by decide)

/-- Setting the packet of a pending request free without an answer breaks the property. -/
theorem not_releasedOnce_of_clear (hslot : (peer.packet slot).alloc = true) (serial : ℕ) (pending' : List Request) :
    ¬ ReleasedOnce (peer.clear slot serial) pending' := by
  intro hbad
  obtain ⟨r, hr, -, hserial⟩ := h.owned slot hslot
  have hcount := hbad.once r.serial (h.waiting r hr).1
  simp only [Peer.clear, hslot, if_true, ← hserial, count_cons_self, h.count_released hr,
    (h.waiting r hr).2] at hcount
  exact absurd hcount (by decide)

/-- Answering one request over the packet of another breaks the property. -/
theorem not_releasedOnce_of_other (hr : r ∈ pending) (hslot : slot ≠ r.slot) (hissued : peer'.issued = peer.issued)
    (hreleased : peer'.released = (peer.clear slot r.serial).released)
    (hclobbered : peer'.clobbered = (peer.clear slot r.serial).clobbered)
    (hanswered : peer'.answered r.serial = true) (pending' : List Request) : ¬ ReleasedOnce peer' pending' := by
  cases halloc : (peer.packet slot).alloc with
  | false =>
    refine h.not_releasedOnce_of_kept hr hissued ?_ hanswered pending'
    simp [hreleased, Peer.clear, halloc]
  | true =>
    intro hbad
    obtain ⟨r', hr', hslot', hserial'⟩ := h.owned slot halloc
    have hne : (peer.packet slot).serial ≠ r.serial := fun heq =>
      hslot (by rw [← hslot', h.eq_of_serial_eq hr' hr (hserial'.trans heq)])
    have hclean := hbad.clean
    rw [hclobbered] at hclean
    simp [Peer.clear, halloc, hne] at hclean

/-- A transfer over a free packet changes nothing. -/
theorem clear_of_free (hslot : (peer.packet slot).alloc = false) (serial : ℕ) :
    Accounted (peer.clear slot serial) pending := by
  have hpacket : ∀ other, ((peer.clear slot serial).packet other).alloc = (peer.packet other).alloc ∧
      ((peer.clear slot serial).packet other).serial = (peer.packet other).serial := by
    intro other
    simp only [Peer.clear, update_apply]
    split
    · next heq => simp [heq, hslot]
    · exact ⟨rfl, rfl⟩
  refine ⟨?_, ?_, h.future, h.underway, h.nodup, h.waiting, fun r hr => ?_, fun other hother => ?_⟩
  · simp [Peer.clear, hslot, h.clean]
  · simpa [Peer.clear, hslot] using h.once
  · rw [(hpacket r.slot).1, (hpacket r.slot).2]
    exact h.holds r hr
  · rw [(hpacket other).2]
    exact h.owned other (by rw [← (hpacket other).1]; exact hother)

end

/-- A request that is answered while its own packet is cleared is no longer pending. -/
theorem complete (h : Accounted peer (r :: pending)) :
    Accounted ((peer.clear r.slot r.serial).answer r.serial) pending := by
  obtain ⟨halloc, hserial⟩ := h.holds r mem_cons_self
  obtain ⟨hnot, hnodup⟩ := nodup_cons.mp h.nodup
  have hother : ∀ r' ∈ pending, r'.serial ≠ r.serial := fun r' hr' heq =>
    hnot (heq ▸ mem_map_of_mem hr')
  have hslot : ∀ r' ∈ pending, r'.slot ≠ r.slot := fun r' hr' heq => hother r' hr' (by
    rw [← (h.holds r' (mem_cons_of_mem _ hr')).2, heq, hserial])
  refine ⟨?_, fun k => ?_, fun k hk => ?_, fun k hk ha => ?_, hnodup, fun r' hr' => ?_,
    fun r' hr' => ?_, fun slot halloc' => ?_⟩
  · simp [Peer.clear, Peer.answer, halloc, hserial, h.clean]
  · by_cases hk : k = r.serial
    · subst hk
      simp [Peer.clear, Peer.answer, halloc, hserial, h.count_released mem_cons_self]
    · simp [Peer.clear, Peer.answer, halloc, hserial, update_of_ne hk, Ne.symm hk, h.once k]
  · have hne : k ≠ r.serial := fun heq =>
      absurd (h.waiting r mem_cons_self).1 (Nat.not_lt.mpr (heq ▸ hk))
    simp only [Peer.answer, Peer.clear, update_of_ne hne]
    exact h.future k hk
  · have hne : k ≠ r.serial := by
      rintro rfl
      simp [Peer.answer] at ha
    simp only [Peer.answer, Peer.clear, update_of_ne hne] at ha
    simpa [hne] using h.underway k hk ha
  · simp only [Peer.answer, Peer.clear, update_of_ne (hother r' hr')]
    exact h.waiting r' (mem_cons_of_mem _ hr')
  · simp only [Peer.answer, Peer.clear, update_of_ne (hslot r' hr')]
    exact h.holds r' (mem_cons_of_mem _ hr')
  · have hne : slot ≠ r.slot := by
      rintro rfl
      simp [Peer.answer, Peer.clear] at halloc'
    simp only [Peer.answer, Peer.clear, update_of_ne hne] at halloc' ⊢
    obtain ⟨owner, howner, rfl, hsame⟩ := h.owned slot halloc'
    rcases mem_cons.mp howner with rfl | howner
    · exact absurd rfl hne
    · exact ⟨owner, howner, rfl, hsame⟩

end Accounted

/-- What `_rpc_get_packet` does: it marks a free packet with the number of the request. -/
theorem rpcGetPacket_eq {peer : Peer} (h : rpcGetPacket peer = some (slot, peer')) :
    (peer.packet slot).alloc = false ∧ peer'.issued = peer.issued + 1 ∧
      (∃ rpcId, peer'.packet = update peer.packet slot ⟨true, rpcId, peer.issued⟩) ∧
      peer'.answered = peer.answered ∧ peer'.released = peer.released ∧
      peer'.clobbered = peer.clobbered ∧ peer'.server = peer.server ∧
      peer'.serverCount = peer.serverCount := by
  unfold rpcGetPacket at h
  split at h
  · exact absurd h (by simp)
  · next rid hfind =>
    obtain ⟨rfl, rfl⟩ := Prod.mk.inj (Option.some.inj h)
    have hfree := find?_some hfind
    exact ⟨by simpa using hfree, rfl, ⟨_, rfl⟩, rfl, rfl, rfl, rfl, rfl⟩

/-- A request that has just taken its packet is pending. -/
theorem Accounted.take {peer : Peer} {pending : List Request}
    (h : Accounted peer pending) (hget : rpcGetPacket peer = some (slot, peer')) (cd : ℕ) :
    Accounted peer' (⟨cd, slot, peer.issued⟩ :: pending) := by
  obtain ⟨hfree, hissued, ⟨rpcId, hpacket⟩, hanswered, hreleased, hclobbered, -, -⟩ :=
    rpcGetPacket_eq hget
  have hslot : ∀ r ∈ pending, r.slot ≠ slot := fun r hr heq => by
    have halloc := (h.holds r hr).1
    rw [heq, hfree] at halloc
    exact absurd halloc (by decide)
  refine ⟨hclobbered.trans h.clean, fun k => ?_, fun k hk => ?_, fun k hk ha => ?_, ?_, fun r hr => ?_,
    fun r hr => ?_, fun other hother => ?_⟩
  · rw [hreleased, hanswered]
    exact h.once k
  · rw [hanswered]
    exact h.future k (by omega)
  · rw [hanswered] at ha
    rcases Nat.lt_or_ge k peer.issued with hlt | hge
    · exact mem_cons_of_mem _ (h.underway k hlt ha)
    · obtain rfl : k = peer.issued := by omega
      exact mem_cons_self
  · refine nodup_cons.mpr ⟨fun hmem => ?_, h.nodup⟩
    obtain ⟨r, hr, heq⟩ := mem_map.mp hmem
    exact absurd (h.waiting r hr).1 (by simp [heq])
  · rw [hissued, hanswered]
    rcases mem_cons.mp hr with rfl | hr
    · exact ⟨Nat.lt_succ_self _, h.future _ (Nat.le_refl _)⟩
    · exact ⟨Nat.lt_succ_of_lt (h.waiting r hr).1, (h.waiting r hr).2⟩
  · rw [hpacket]
    rcases mem_cons.mp hr with rfl | hr
    · simp
    · rw [update_of_ne (hslot r hr)]
      exact h.holds r hr
  · rw [hpacket] at hother ⊢
    by_cases heq : other = slot
    · subst heq
      exact ⟨_, mem_cons_self, rfl, by simp⟩
    · rw [update_of_ne heq] at hother ⊢
      obtain ⟨r, hr, howner⟩ := h.owned other hother
      exact ⟨r, mem_cons_of_mem _ hr, howner⟩

end Ps2sdk.Sif
