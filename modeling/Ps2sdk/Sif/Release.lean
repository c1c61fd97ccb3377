import Mathlib.Data.Bool.Basic
import Ps2sdk.Lib.Run
import Ps2sdk.Sif.Rpc

/-!
# Every packet is released once

A request is always in one place: on its way to the other peer, held by a server there, or answered
by a message on its way back; `Holding` is the invariant in the middle of a step. The packets of both
peers are released exactly once along a run exactly when every step of the run is `Fair`.
-/

namespace Ps2sdk.Sif

open Function List Option Bool Message

variable {s : Net} {p : Bool} {peer : Peer} {server : ℕ} {hand hand' : Bool → List Request}

/-- The request a message carries to its server. -/
def Message.asks : Message → Option Request
  | .bind r _ => some r
  | .call r _ _ _ => some r
  | .rdata r => some r
  | _ => none

/-- The request a message answers. -/
def Message.answers : Message → Option Request
  | .rend r _ => some r
  | .packetDma r true => some r
  | .dataDma r true => some r
  | _ => none

/-- The request a server has in its queue or works on. -/
def Server.held (sd : Server) : Option Request := if sd.queued || sd.running then some sd.request else none

/-- The requests the servers of a peer hold. -/
def Peer.held (peer : Peer) : List Request :=
  (List.range peer.serverCount).filterMap fun server => (peer.server server).held

/-- The requests of a peer that have no answer yet, wherever they are. -/
def Net.pending (s : Net) (p : Bool) : List Request :=
  (s.channel (!p)).filterMap Message.asks ++ (s.peer (!p)).held ++ (s.channel p).filterMap Message.answers

/-- The request of each peer that a message towards a peer stands for. -/
def Message.owed (p : Bool) (m : Message) (q : Bool) : List Request :=
  if q = p then m.answers.toList else m.asks.toList

/-- A server is not linked to itself, and not in its queue while it works. -/
structure Server.Sound (sd : Server) : Prop where
  unlinked : sd.link = false
  exclusive : sd.running = true → sd.queued = false

/-- The invariant with some requests in hand. -/
structure Holding (s : Net) (hand : Bool → List Request) : Prop where
  accounted : ∀ q, Accounted (s.peer q) (hand q ++ s.pending q)
  sound : ∀ q server, ((s.peer q).server server).Sound
  registered : ∀ q server, (s.peer q).serverCount ≤ server → ((s.peer q).server server).held = none

/-- The invariant between two steps. -/
def Settled (s : Net) : Prop := Holding s fun _ => []

/-- A message taken from its channel is in hand. -/
theorem Settled.receive (h : Settled s) {m : Message} {rest : List Message} (hchannel : s.channel p = m :: rest) :
    Holding { s with channel := update s.channel p rest } (m.owed p) := by
  refine ⟨fun q => (h.accounted q).perm ?_, h.sound, h.registered⟩
  rcases eq_or_eq_not q p with rfl | rfl
  · have hother := not_ne_self q
    simp only [nil_append, Net.pending, owed, if_true, hchannel,
      update_of_ne hother, update_self]
    cases hanswers : m.answers with
    | none => simp [hanswers]
    | some r =>
      simp only [filterMap_cons, hanswers, toList_some, singleton_append]
      exact perm_middle
  · have hother := Bool.not_ne_self p
    simp only [nil_append, Net.pending, owed, if_neg hother, Bool.not_not, hchannel,
      update_of_ne hother, update_self]
    cases hasks : m.asks <;> simp [hasks]

/-- A message that is sent takes its request out of the hand. -/
theorem Holding.send {m : Message} (h : Holding s (m.owed p)) : Settled (s.send p m) := by
  refine ⟨fun q => (h.accounted q).perm ?_, h.sound, h.registered⟩
  rcases eq_or_eq_not q p with rfl | rfl
  · have hother := not_ne_self q
    simp only [nil_append, Net.pending, Net.send, owed, if_true,
      update_of_ne hother, update_self, filterMap_append]
    cases hanswers : m.answers with
    | none => simp [hanswers]
    | some r =>
      simp only [filterMap_cons, hanswers, toList_some, filterMap_nil]
      exact perm_append_comm.trans (by simp)
  · have hother := Bool.not_ne_self p
    simp only [nil_append, Net.pending, Net.send, owed, if_neg hother, Bool.not_not,
      update_of_ne hother, update_self, filterMap_append]
    cases hasks : m.asks with
    | none => simp [hasks]
    | some r =>
      simp only [filterMap_cons, hasks, toList_some, filterMap_nil, append_assoc,
        singleton_append]
      exact perm_middle.symm

/-- Changing a partial function in one point moves one value in or out of its list of values. -/
theorem perm_filterMap_update {A B : Type*} [DecidableEq A] {l : List A} (hnodup : l.Nodup) {a : A}
    (ha : a ∈ l) (f : A → Option B) (b : Option B) :
    ((f a).toList ++ l.filterMap (update f a b)).Perm (b.toList ++ l.filterMap f) := by
  have hvalues : ∀ g : A → Option B, (l.filterMap g).Perm ((g a).toList ++ (l.erase a).filterMap g) := by
    intro g
    refine ((perm_cons_erase ha).filterMap g).trans ?_
    cases hg : g a <;> simp [hg]
  have hrest : (l.erase a).filterMap (update f a b) = (l.erase a).filterMap f := by
    refine filterMap_congr fun x hx => update_of_ne ?_ _ _
    rintro rfl
    exact hnodup.not_mem_erase hx
  have hupdated := hvalues (update f a b)
  rw [update_self, hrest] at hupdated
  calc ((f a).toList ++ l.filterMap (update f a b)).Perm _ := hupdated.append_left _
    List.Perm _ (b.toList ++ ((f a).toList ++ (l.erase a).filterMap f)) :=
      perm_append_comm_assoc _ _ _
    List.Perm _ (b.toList ++ l.filterMap f) := (hvalues f).symm.append_left _

/-- Changing the record of a server moves its request in or out of those held. -/
theorem Peer.held_setServer (hserver : server < peer.serverCount) (sd : Server) :
    ((peer.server server).held.toList ++ (peer.setServer server sd).held).Perm
      (sd.held.toList ++ peer.held) := by
  have hupdate : (fun i => ((peer.setServer server sd).server i).held) =
      update (fun i => (peer.server i).held) server sd.held := by
    funext i
    simp only [Peer.setServer, update_apply]
    split <;> rfl
  unfold Peer.held
  rw [hupdate]
  exact perm_filterMap_update nodup_range (mem_range.mpr hserver)
    (fun i => (peer.server i).held) sd.held

theorem pending_setPeer (hheld : peer.held = (s.peer p).held) (q : Bool) :
    (s.setPeer p peer).pending q = s.pending q := by
  unfold Net.pending Net.setPeer
  rcases eq_or_eq_not (!q) p with heq | heq
  · simp only [heq, update_self, hheld]
  · simp only [update_of_ne (heq ▸ not_ne_self p)]

/-- A change of one peer that leaves its servers alone, with the requests that are then in hand. -/
theorem Holding.setPeer (h : Holding s hand) (hserver : peer.server = (s.peer p).server)
    (hcount : peer.serverCount = (s.peer p).serverCount)
    (hpeer : Accounted peer (hand' p ++ s.pending p)) (hother : hand' (!p) = hand (!p)) :
    Holding (s.setPeer p peer) hand' := by
  refine ⟨fun q => ?_, fun q => ?_, fun q => ?_⟩
  · rw [pending_setPeer (by rw [Peer.held, Peer.held, hserver, hcount])]
    rcases eq_or_eq_not q p with rfl | rfl
    · simpa [Net.setPeer] using hpeer
    · have hne := not_ne_self p
      simpa [Net.setPeer, update_of_ne hne, hother] using h.accounted (!p)
  · rcases eq_or_eq_not q p with rfl | rfl
    · simpa [Net.setPeer, hserver] using h.sound q
    · have hne := not_ne_self p
      simpa [Net.setPeer, update_of_ne hne] using h.sound (!p)
  · rcases eq_or_eq_not q p with rfl | rfl
    · simpa [Net.setPeer, hserver, hcount] using h.registered q
    · have hne := not_ne_self p
      simpa [Net.setPeer, update_of_ne hne] using h.registered (!p)

/-- Changing the record of a registered server moves its request in or out of the hand. -/
theorem Holding.accounted_setServer (h : Holding s hand)
    (hregistered : server < (s.peer p).serverCount) {sd : Server} (hpeer : hand' p = hand p)
    (hother : (hand (!p) ++ ((s.peer p).server server).held.toList).Perm
      (hand' (!p) ++ sd.held.toList)) (q : Bool) :
    Accounted ((s.setPeer p ((s.peer p).setServer server sd)).peer q)
      (hand' q ++ (s.setPeer p ((s.peer p).setServer server sd)).pending q) := by
  rcases eq_or_eq_not q p with rfl | rfl
  · rw [hpeer]
    refine ((h.accounted q).congr ?_ ?_ ?_ ?_ ?_).perm ?_ <;>
      simp [Net.setPeer, Peer.setServer, Net.pending]
  · have hheld := Peer.held_setServer hregistered sd
    have hne := not_ne_self p
    have hpeer : (s.setPeer p ((s.peer p).setServer server sd)).peer (!p) = s.peer (!p) :=
      update_of_ne hne _ _
    rw [hpeer]
    refine (h.accounted (!p)).perm ?_
    rw [perm_iff_count] at hheld hother ⊢
    intro r
    have hrequest := hheld r
    have hhand := hother r
    simp only [Net.pending, Net.setPeer, Bool.not_not, update_self, count_append]
      at hrequest hhand ⊢
    omega

/-- The same with the rest of the invariant. -/
theorem Holding.setServer (h : Holding s hand)
    (hregistered : server < (s.peer p).serverCount) {sd : Server} (hsound : sd.Sound) (hpeer : hand' p = hand p)
    (hother : (hand (!p) ++ ((s.peer p).server server).held.toList).Perm
      (hand' (!p) ++ sd.held.toList)) :
    Holding (s.setPeer p ((s.peer p).setServer server sd)) hand' := by
  have hne := not_ne_self p
  refine ⟨h.accounted_setServer hregistered hpeer hother, fun q i => ?_, fun q i hi => ?_⟩
  · rcases eq_or_eq_not q p with rfl | rfl
    · simp only [Net.setPeer, update_self, Peer.setServer, update_apply]
      split
      · exact hsound
      · exact h.sound q i
    · simpa [Net.setPeer, update_of_ne hne] using h.sound (!p) i
  · rcases eq_or_eq_not q p with rfl | rfl
    · simp only [Net.setPeer, update_self, Peer.setServer] at hi ⊢
      rw [update_of_ne (by omega)]
      exact h.registered q i hi
    · simp only [Net.setPeer, update_of_ne hne] at hi ⊢
      exact h.registered (!p) i hi

variable {r : Request} {m : Message}

/-- If there is a packet for the request, the semaphore is created and the command is sent. -/
def Sends (peer : Peer) (nowait sema sent : Bool) : Prop :=
  (rpcGetPacket peer).isSome = true → (nowait || sema) = true ∧ sent = true

/-- The reply to a message is sent; a call reaches an idle server; an END finds its own packet in the
record of the client; the transfer after an END finds the packet still free; and no call is
answered by its data alone. -/
def FairDelivery (peer : Peer) (sent : Bool) : Message → Prop
  | .bind _ _ => sent = true
  | .call _ server _ _ => ∃ i, server = some i ∧ i < peer.serverCount ∧ (peer.server i).held = none
  | .rdata _ => sent = true
  | .rend r _ => (peer.client r.client).pktAddr = some r.slot
  | .packetDma r reply => reply = false → (peer.packet r.slot).alloc = false
  | .dataDma _ reply => reply = false

/-- The condition on a step under which packets are released once. -/
def Fair (s : Net) : Event → Prop
  | .bindRpc p _ _ nowait sema sent => Sends (s.peer p) nowait sema sent
  | .callRpc p _ _ nowait _ sema sent => Sends (s.peer p) nowait sema sent
  | .getOtherData p _ nowait sema sent => Sends (s.peer p) nowait sema sent
  | .deliver p sent =>
    (s.peer p).hung = false → ∀ m, (s.channel p).head? = some m → FairDelivery (s.peer p) sent m
  | .getNextRequest _ _ => True
  | .execRequest p server sent => ((s.peer p).server server).running = true →
    ((s.peer p).server server).rmode = true → sent = true

/-- The packets of both peers are released once. -/
def PacketsReleasedOnce (s : Net) : Prop := ∀ p, ReleasedOnce (s.peer p) (s.pending p)

variable {s : Net} {p : Bool}

theorem not_packetsReleasedOnce_of_dropped {hand : Bool → List Request}
    (h : ∀ q, Accounted (s.peer q) (hand q ++ s.pending q)) {q : Bool} (hr : r ∈ hand q) :
    ¬ PacketsReleasedOnce s := fun hbad => (h q).not_releasedOnce_of_dropped hr (hbad q)

theorem not_packetsReleasedOnce_setPeer {peer : Peer}
    (h : ∀ pending, ¬ ReleasedOnce peer pending) : ¬ PacketsReleasedOnce (s.setPeer p peer) := by
  intro hbad
  have hpeer := hbad p
  simp only [Net.setPeer, update_self] at hpeer
  exact h _ hpeer

section Requests

variable {s : Net} (p : Bool) (cd : ℕ) (prepare : Client → Client) (pack : Request → Message)
  (nowait sema sent : Bool)

/-- A request that is sent is pending. -/
theorem Settled.issueRequest (h : Settled s) (hpack : ∀ r, (pack r).asks = some r ∧ (pack r).answers = none)
    (hsends : Sends (s.peer p) nowait sema sent) :
    Settled (issueRequest s p cd prepare pack nowait sema sent).2 := by
  unfold Sif.issueRequest
  split
  · exact h
  · next slot peer hget =>
    obtain ⟨hsema, hsent⟩ := hsends (by rw [hget]; rfl)
    have hwait : (!nowait && !sema) = false := by revert hsema; cases nowait <;> cases sema <;> decide
    simp only [hwait, hsent, Bool.false_eq_true, if_false, Bool.not_true]
    obtain ⟨-, -, -, -, -, -, hserver, hcount⟩ := rpcGetPacket_eq hget
    have howed : ∀ q, (pack ⟨cd, slot, (s.peer p).issued⟩).owed (!p) q =
        if q = p then [⟨cd, slot, (s.peer p).issued⟩] else [] := by
      intro q
      simp only [owed, (hpack _).1, (hpack _).2]
      cases p <;> cases q <;> rfl
    have hne := not_ne_self p
    refine Holding.send (h.setPeer hserver hcount ?_ ?_)
    · rw [howed, if_pos rfl]
      exact ((h.accounted p).take hget cd).congr rfl rfl rfl rfl rfl
    · rw [howed, if_neg hne]

/-- A request that takes a packet and is not sent keeps it. -/
theorem Settled.not_issueRequest (h : Settled s) (hsends : ¬ Sends (s.peer p) nowait sema sent) :
    ¬ PacketsReleasedOnce (Sif.issueRequest s p cd prepare pack nowait sema sent).2 := by
  obtain ⟨hsome, hfails⟩ := Classical.not_imp.mp hsends
  obtain ⟨⟨slot, peer⟩, hget⟩ := isSome_iff_exists.mp hsome
  have htaken := (h.accounted p).take hget cd
  simp only [Sif.issueRequest, hget]
  split
  · exact not_packetsReleasedOnce_setPeer
      (htaken.not_releasedOnce_of_kept mem_cons_self rfl rfl (by simp [Peer.answer]))
  · next hwait =>
    have hsent : sent = false := by revert hfails hwait; cases nowait <;> cases sema <;> cases sent <;> decide
    rw [hsent]
    exact not_packetsReleasedOnce_setPeer
      (htaken.not_releasedOnce_of_kept mem_cons_self rfl rfl (by simp [Peer.answer]))

end Requests

theorem Message.owed_reply (hasks : m.asks = some r) (hanswers : m.answers = none) (bound : Option (Option ℕ)) :
    m.owed p = (rend r bound).owed (!p) := by
  funext q
  simp only [owed, hasks, hanswers]
  cases p <;> cases q <;> rfl

/-- Without a server linked to itself the search ends. -/
theorem searchSvdata_ne_endless {peer : Peer} (h : ∀ server, (peer.server server).link = false) (sid : ℕ)
    (servers : List ℕ) : searchSvdata peer sid servers ≠ .endless := by
  induction servers with
  | nil => simp [searchSvdata]
  | cons server rest ih =>
    simp only [searchSvdata, h server]
    split
    · simp
    · simpa using ih

/-- `_request_bind` sends its reply, or drops the request. -/
theorem requestBind_cases {hand : Bool → List Request} (h : Holding s hand) (p : Bool)
    (r : Request) (sid : ℕ) : ∃ server, ∀ sent, requestBind s p r sid sent =
      if sent then s.send (!p) (.rend r (some server)) else s := by
  have hends := searchSvdata_ne_endless (fun server => (h.sound p server).unlinked) sid
    (range (s.peer p).serverCount)
  unfold requestBind
  cases hsearch : searchSvdata (s.peer p) sid (range (s.peer p).serverCount) with
  | endless => exact absurd hsearch hends
  | found server => exact ⟨some server, fun _ => rfl⟩
  | notFound => exact ⟨none, fun _ => rfl⟩

/-- A call that reaches an idle server is held by it. -/
theorem Holding.requestCall {server rsize : ℕ} {rmode : Bool}
    (h : Holding s ((call r (some server) rsize rmode).owed p))
    (hregistered : server < (s.peer p).serverCount) (hidle : ((s.peer p).server server).held = none) :
    Settled (requestCall s p r (some server) rsize rmode) := by
  have hne := not_ne_self p
  obtain ⟨hqueued, hrunning⟩ : ((s.peer p).server server).queued = false ∧
      ((s.peer p).server server).running = false := by simpa [Server.held] using hidle
  refine h.setServer hregistered ⟨?_, ?_⟩ ?_ ?_
  · simp [(h.sound p server).unlinked, hqueued]
  · simp [hrunning]
  · simp [owed, answers]
  · rw [hidle]
    simp [owed, hne, asks, Server.held]

theorem pending_setServer_of_ge {server : ℕ} (sd : Server) (h : (s.peer p).serverCount ≤ server) (q : Bool) :
    (s.setPeer p ((s.peer p).setServer server sd)).pending q = s.pending q := by
  apply pending_setPeer
  refine filterMap_congr fun i hi => ?_
  have hlt : i < (s.peer p).serverCount := mem_range.mp hi
  simp only [Peer.setServer, update_of_ne (show i ≠ server by omega)]

/-- A call without a server, or to one that is busy, costs a request. -/
theorem Holding.not_requestCall {server : Option ℕ} {rsize : ℕ}
    {rmode : Bool} (h : Holding s ((call r server rsize rmode).owed p))
    (hbusy : ∀ i, server = some i → i < (s.peer p).serverCount → ((s.peer p).server i).held ≠ none) :
    ¬ PacketsReleasedOnce (Sif.requestCall s p r server rsize rmode) := by
  have hne := not_ne_self p
  have hhand : r ∈ (call r server rsize rmode).owed p (!p) := by
    simp [owed, hne, asks]
  cases server with
  | none => exact not_packetsReleasedOnce_of_dropped h.accounted hhand
  | some server =>
    by_cases hregistered : server < (s.peer p).serverCount
    · obtain ⟨old, hold⟩ := ne_none_iff_exists'.mp (hbusy server rfl hregistered)
      let hand : Bool → List Request := fun q => if q = p then [] else [old]
      have hdropped : old ∈ hand (!p) := by simp [hand, hne]
      refine not_packetsReleasedOnce_of_dropped (h.accounted_setServer hregistered ?_ ?_) hdropped
      · simp [hand, owed, answers]
      · rw [hold]
        simp [hand, owed, hne, asks, Server.held, List.Perm.swap]
    · refine not_packetsReleasedOnce_of_dropped (q := !p) (fun q => ?_) hhand
      have hpending := pending_setServer_of_ge
        { (s.peer p).server server with
          request := r, rsize := rsize, rmode := rmode, queued := true,
          link := ((s.peer p).server server).link || ((s.peer p).server server).queued }
        (Nat.not_lt.mp hregistered) q
      simp only [Sif.requestCall]
      rw [hpending]
      refine (h.accounted q).congr ?_ ?_ ?_ ?_ ?_ <;>
        rcases eq_or_eq_not q p with rfl | rfl <;> simp [Net.setPeer, Peer.setServer, hne]

theorem Holding.answered (h : Holding s (m.owed p)) (hanswers : m.answers = some r) :
    Accounted (s.peer p) (r :: s.pending p) := by
  have hpeer := h.accounted p
  rwa [owed, if_pos rfl, hanswers] at hpeer

/-- An END that finds its own packet completes its request. -/
theorem Holding.requestEnd {bound : Option (Option ℕ)}
    (h : Holding s ((rend r bound).owed p)) (hown : ((s.peer p).client r.client).pktAddr = some r.slot) :
    Settled (requestEnd s p r bound) := by
  have hne := not_ne_self p
  have hpeer := h.answered rfl
  unfold Sif.requestEnd
  dsimp only
  rw [hown]
  refine h.setPeer rfl rfl (hpeer.complete.congr rfl rfl rfl rfl rfl) ?_
  simp [owed, hne, asks]

/-- An END that finds another packet, or none, does not. -/
theorem Holding.not_requestEnd {bound : Option (Option ℕ)}
    (h : Holding s ((rend r bound).owed p)) (hown : ((s.peer p).client r.client).pktAddr ≠ some r.slot) :
    ¬ PacketsReleasedOnce (Sif.requestEnd s p r bound) := by
  have hpeer := h.answered rfl
  unfold Sif.requestEnd
  refine not_packetsReleasedOnce_setPeer ?_
  cases haddr : ((s.peer p).client r.client).pktAddr with
  | none =>
    exact hpeer.not_releasedOnce_of_kept mem_cons_self rfl rfl (by simp [Peer.answer])
  | some slot =>
    have hslot : slot ≠ r.slot := fun heq => hown (by rw [haddr, heq])
    exact hpeer.not_releasedOnce_of_other mem_cons_self hslot rfl rfl rfl (by simp [Peer.answer])

/-- A transfer over a packet answers its call, or finds the packet free. -/
theorem Holding.packetArrives {reply : Bool} (h : Holding s ((packetDma r reply).owed p))
    (hfree : reply = false → ((s.peer p).packet r.slot).alloc = false) : Settled (packetArrives s p r reply) := by
  have hne := not_ne_self p
  cases reply with
  | true => exact h.setPeer rfl rfl (h.answered rfl).complete (by simp [owed, hne, asks])
  | false =>
    have hpeer := h.accounted p
    simp only [owed, if_true, answers, toList_none] at hpeer
    exact h.setPeer rfl rfl (hpeer.clear_of_free (hfree rfl) r.serial)
      (by simp [owed, hne, asks])

theorem Holding.not_packetArrives
    (h : Holding s ((packetDma r false).owed p)) (htaken : ((s.peer p).packet r.slot).alloc = true) :
    ¬ PacketsReleasedOnce (Sif.packetArrives s p r false) :=
  not_packetsReleasedOnce_setPeer ((h.accounted p).not_releasedOnce_of_clear htaken r.serial)

theorem Holding.not_dataArrives
    (h : Holding s ((dataDma r true).owed p)) : ¬ PacketsReleasedOnce (dataArrives s p r true) :=
  not_packetsReleasedOnce_setPeer
    ((h.answered rfl).not_releasedOnce_of_kept mem_cons_self rfl rfl (by simp [Peer.answer]))

theorem Message.owed_none (p : Bool) (hasks : m.asks = none) (hanswers : m.answers = none) :
    m.owed p = fun _ => [] := by
  funext q
  simp [owed, hasks, hanswers]

variable (h : Settled s)

include h

/-- Handling a message keeps the invariant. -/
theorem Settled.deliver (p : Bool) (sent : Bool)
    (hfair : Fair s (.deliver p sent)) : Settled (deliver s p sent) := by
  unfold Sif.deliver
  split
  · exact h
  · next hhung =>
    split
    · exact h
    · next m rest hchannel =>
      have hfair := hfair (by simpa using hhung) m (by rw [hchannel]; rfl)
      have hhold := h.receive hchannel
      cases m with
      | bind r sid =>
        obtain ⟨server, hcases⟩ := requestBind_cases hhold p r sid
        obtain rfl : sent = true := hfair
        dsimp only
        rw [hcases]
        rw [owed_reply rfl rfl (some server)] at hhold
        exact hhold.send
      | call r server rsize rmode =>
        obtain ⟨i, rfl, hregistered, hidle⟩ := hfair
        exact hhold.requestCall hregistered hidle
      | rdata r =>
        obtain rfl : sent = true := hfair
        rw [owed_reply rfl rfl none] at hhold
        exact hhold.send
      | rend r bound => exact hhold.requestEnd hfair
      | packetDma r reply => exact hhold.packetArrives hfair
      | dataDma r reply =>
        obtain rfl : reply = false := hfair
        rwa [owed_none p rfl rfl] at hhold

/-- Handling a message without the condition breaks the property. -/
theorem Settled.not_deliver (p : Bool) (sent : Bool)
    (hunfair : ¬ Fair s (.deliver p sent)) : ¬ PacketsReleasedOnce (Sif.deliver s p sent) := by
  simp only [Fair, Classical.not_imp, not_forall] at hunfair
  obtain ⟨hhung, m, hhead, hunfair⟩ := hunfair
  obtain ⟨rest, hchannel⟩ : ∃ rest, s.channel p = m :: rest := by
    cases hlist : s.channel p with
    | nil => simp [hlist] at hhead
    | cons first rest => exact ⟨rest, by simpa [hlist] using hhead⟩
  have hhold := h.receive hchannel
  have hne := not_ne_self p
  simp only [Sif.deliver, hhung, false_eq_true, if_false, hchannel]
  cases m with
  | bind r sid =>
    obtain ⟨server, hcases⟩ := requestBind_cases hhold p r sid
    obtain rfl : sent = false := by simpa [FairDelivery] using hunfair
    dsimp only
    rw [hcases]
    exact not_packetsReleasedOnce_of_dropped (q := !p) (r := r) hhold.accounted
      (by simp [owed, hne, asks])
  | call r server rsize rmode =>
    refine hhold.not_requestCall fun i hserver hregistered hidle => hunfair ?_
    exact ⟨i, hserver, hregistered, hidle⟩
  | rdata r =>
    obtain rfl : sent = false := by simpa [FairDelivery] using hunfair
    exact not_packetsReleasedOnce_of_dropped (q := !p) (r := r) hhold.accounted
      (by simp [owed, hne, asks])
  | rend r bound => exact hhold.not_requestEnd hunfair
  | packetDma r reply =>
    obtain ⟨rfl, htaken⟩ : reply = false ∧ _ := Classical.not_imp.mp hunfair
    exact hhold.not_packetArrives (by simpa using htaken)
  | dataDma r reply =>
    obtain rfl : reply = true := by simpa [FairDelivery] using hunfair
    exact hhold.not_dataArrives

theorem Settled.lt_serverCount {server : ℕ}
    (hheld : ((s.peer p).server server).held = some r) : server < (s.peer p).serverCount := by
  by_contra hnot
  have hnone := h.registered p server (Nat.not_lt.mp hnot)
  rw [hheld] at hnone
  exact absurd hnone (by simp)

/-- Taking a request from the queue keeps the invariant. -/
theorem Settled.sifGetNextRequest (p : Bool) (server : ℕ) : Settled (sifGetNextRequest s p server) := by
  unfold Sif.sifGetNextRequest
  dsimp only
  split
  · next hqueued =>
    have hqueued : ((s.peer p).server server).queued = true ∧
      ((s.peer p).server server).running = false := by simpa using hqueued
    have hheld : ((s.peer p).server server).held = some ((s.peer p).server server).request := by
      simp [Server.held, hqueued.1]
    refine h.setServer (h.lt_serverCount hheld) ⟨(h.sound p server).unlinked, fun _ => rfl⟩ rfl ?_
    rw [hheld]
    simp [Server.held]
  · exact h

/-- A server that has done its work has its request in hand. -/
theorem Settled.finish {server : ℕ}
    (hrunning : ((s.peer p).server server).running = true) (bound : Option (Option ℕ)) : Holding
      (s.setPeer p ((s.peer p).setServer server { (s.peer p).server server with running := false }))
      ((rend ((s.peer p).server server).request bound).owed (!p)) := by
  have hne : p ≠ (!p) := by cases p <;> decide
  have hqueued := (h.sound p server).exclusive hrunning
  have hheld : ((s.peer p).server server).held = some ((s.peer p).server server).request := by
    simp [Server.held, hrunning]
  refine h.setServer (h.lt_serverCount hheld) ⟨(h.sound p server).unlinked, ?_⟩ ?_ ?_
  · simp
  · simp [owed, hne, asks]
  · rw [hheld]
    simp [owed, answers, Server.held, hqueued]

theorem Settled.send (p : Bool) (hasks : m.asks = none) (hanswers : m.answers = none) : Settled (s.send p m) := by
  refine Holding.send ?_
  rwa [owed_none p hasks hanswers]

/-- A server that can send its END keeps the invariant. -/
theorem Settled.sifExecRequest (p : Bool) (server : ℕ) (sent : Bool)
    (hfair : Fair s (.execRequest p server sent)) : Settled (sifExecRequest s p server sent) := by
  unfold Sif.sifExecRequest
  dsimp only
  split
  · next hrunning =>
    have hfinish := h.finish hrunning none
    generalize s.setPeer p _ = s' at hfinish ⊢
    cases hmode : ((s.peer p).server server).rmode with
    | true =>
      obtain rfl : sent = true := hfair hrunning hmode
      have hreplied := hfinish.send
      simp only [Bool.not_true, Bool.and_false, Bool.false_eq_true, if_false, if_true]
      split
      · exact hreplied.send (!p) (m := .packetDma _ false) rfl rfl
      · exact hreplied.send (!p) (m := .dataDma _ false) rfl rfl
    | false =>
      simp only [Bool.not_false, Bool.false_and, Bool.false_eq_true, if_false]
      split
      · exact Holding.send hfinish
      · exact Holding.send hfinish
  · exact h

/-- A server that cannot send its END drops its request. -/
theorem Settled.not_sifExecRequest (p : Bool) (server : ℕ) (sent : Bool)
    (hunfair : ¬ Fair s (.execRequest p server sent)) :
    ¬ PacketsReleasedOnce (Sif.sifExecRequest s p server sent) := by
  simp only [Fair, Classical.not_imp, not_eq_true] at hunfair
  obtain ⟨hrunning, hmode, rfl⟩ := hunfair
  have hfinish := h.finish hrunning none
  unfold Sif.sifExecRequest
  dsimp only
  generalize s.setPeer p _ = s' at hfinish ⊢
  simp only [ hrunning, hmode, Bool.not_false, Bool.and_self, if_true]
  exact not_packetsReleasedOnce_of_dropped (q := !p) (r := ((s.peer p).server server).request)
    hfinish.accounted (by simp [owed, answers])

/-- A fair step keeps the invariant. -/
theorem Settled.step (e : Event) (hfair : Fair s e) : Settled (step s e).2 := by
  cases e with
  | bindRpc p cd sid nowait sema sent =>
    exact h.issueRequest p cd _ _ nowait sema sent (fun r => ⟨rfl, rfl⟩) hfair
  | callRpc p cd rsize nowait endfunc sema sent =>
    exact h.issueRequest p cd _ _ nowait sema sent (fun r => ⟨rfl, rfl⟩) hfair
  | getOtherData p rd nowait sema sent =>
    exact h.issueRequest p rd _ _ nowait sema sent (fun r => ⟨rfl, rfl⟩) hfair
  | deliver p sent => exact h.deliver p sent hfair
  | getNextRequest p server => exact h.sifGetNextRequest p server
  | execRequest p server sent => exact h.sifExecRequest p server sent hfair

/-- A step that is not fair breaks the property. -/
theorem Settled.not_step (e : Event) (hunfair : ¬ Fair s e) : ¬ PacketsReleasedOnce (Sif.step s e).2 := by
  cases e with
  | bindRpc p cd sid nowait sema sent => exact h.not_issueRequest p cd _ _ nowait sema sent hunfair
  | callRpc p cd rsize nowait endfunc sema sent =>
    exact h.not_issueRequest p cd _ _ nowait sema sent hunfair
  | getOtherData p rd nowait sema sent => exact h.not_issueRequest p rd _ _ nowait sema sent hunfair
  | deliver p sent => exact h.not_deliver p sent hunfair
  | getNextRequest p server => exact absurd trivial hunfair
  | execRequest p server sent => exact h.not_sifExecRequest p server sent hunfair

omit h

variable (sids : Bool → List ℕ)

theorem settled_initNet : Settled (initNet sids) := by
  have hpending : ∀ q, (initNet sids).pending q = [] := by
    intro q
    simp [Net.pending, initNet, Peer.held, Server.held]
  refine ⟨fun q => ?_, fun q server => ⟨rfl, fun _ => rfl⟩, fun q server _ => rfl⟩
  rw [hpending]
  constructor <;> simp [initNet]

/-- The packets of both peers are released exactly once all along a run exactly when every step of the
run is fair. -/
theorem packetsReleasedOnce_iff (events : List Event) :
    (∀ done, done <+: events → PacketsReleasedOnce (Lib.run step (initNet sids) done).2) ↔
      Lib.AllMeet step Fair (initNet sids) events :=
  Lib.run_prefixes_iff step Fair Settled PacketsReleasedOnce (fun _ h p => (h.accounted p).releasedOnce)
    (fun _ e h => h.step e) (fun _ e h => h.not_step e) events (initNet sids) (settled_initNet sids)

/-- Peer `false` binds to server 7 of its peer, calls it and waits, with nothing to receive. When the
END of the call has arrived it binds a second client, which takes the same packet; then the transfer
that follows the END arrives. -/
def trailingTransfer : List Event :=
  [.bindRpc false 0 7 false true true, .deliver true true, .deliver false true,
    .callRpc false 0 0 false false true true, .deliver true true, .getNextRequest true 0,
    .execRequest true 0 true, .deliver false true, .bindRpc false 1 7 false true true,
    .deliver false true]

/-- The completion of the call clears the packet of the second bind. -/
theorem trailingTransfer_clobbers :
    ((Lib.run step (initNet fun _ => [7]) trailingTransfer).2.peer false).clobbered = true ∧
      ¬ PacketsReleasedOnce (Lib.run step (initNet fun _ => [7]) trailingTransfer).2 := by
  have hclobbered :
      ((Lib.run step (initNet fun _ => [7]) trailingTransfer).2.peer false).clobbered = true := by
    decide
  refine ⟨hclobbered, fun hbad => ?_⟩
  have hclean := (hbad false).clean
  rw [hclobbered] at hclean
  exact absurd hclean (by decide)

/-- After a fair run a peer is without a packet only if 32 of its requests are under way, and once none is under way
all packets are free and every request has released its packet once. -/
theorem packets_suffice (events : List Event) (hfair : Lib.AllMeet step Fair (initNet sids) events) (p : Bool) :
    let s := (Lib.run step (initNet sids) events).2
    (rpcGetPacket (s.peer p) = none → pktTableLen ≤ (s.pending p).length) ∧
      (s.pending p = [] → (∀ slot, ((s.peer p).packet slot).alloc = false) ∧
        ∀ k < (s.peer p).issued, (s.peer p).released.count k = 1) := by
  intro s
  have hsettled : Settled s := Lib.run_invariant step Fair Settled (fun _ e h => h.step e) events _
    (settled_initNet sids) hfair
  have hacc : Accounted (s.peer p) (s.pending p) := hsettled.accounted p
  refine ⟨fun hnone => ?_, fun hidle => ⟨fun slot => ?_, fun k hk => ?_⟩⟩
  · -- Every packet of the table has its own request.
    have hfull : range pktTableLen ⊆ (s.pending p).map Request.slot := fun slot hslot => by
      have halloc : ((s.peer p).packet slot).alloc = true := by
        unfold rpcGetPacket at hnone
        split at hnone
        · next hfind => simpa using find?_eq_none.mp hfind slot hslot
        · cases hnone
      obtain ⟨r, hr, rfl, -⟩ := hacc.owned slot halloc
      exact mem_map_of_mem hr
    simpa using (subperm_of_subset nodup_range hfull).length_le
  · rw [← Bool.not_eq_true]
    intro halloc
    obtain ⟨r, hr, -⟩ := hacc.owned slot halloc
    exact absurd hr (hidle ▸ not_mem_nil)
  · have hanswered : (s.peer p).answered k = true := by
      by_contra hopen
      have hmem := hacc.underway k hk (eq_false_of_not_eq_true hopen)
      exact absurd hmem (hidle ▸ not_mem_nil)
    rw [hacc.once, hanswered, if_pos rfl]

/-- A bind and its answer. -/
def answeredBind : List Event := [.bindRpc false 0 7 false true true, .deliver true true, .deliver false true]

theorem packets_suffice_answeredBind :
    (((Lib.run step (initNet fun _ => [7]) answeredBind).2.peer false).packet 0).alloc = false := by
  have hfair : Lib.AllMeet step Fair (initNet fun _ => [7]) answeredBind := by
    refine ⟨fun _ => ⟨rfl, rfl⟩, fun _ m hm => ?_, fun _ m hm => ?_, trivial⟩
    all_goals
      obtain rfl := Option.some.inj hm
      rfl
  exact ((packets_suffice _ _ hfair false).2 (by decide)).1 0

end Ps2sdk.Sif
