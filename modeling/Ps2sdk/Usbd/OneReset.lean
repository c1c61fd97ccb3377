import Ps2sdk.Lib.Run
import Ps2sdk.Usbd.TokenCallbacks

/-!
# One device at the default address

Every event keeps the invariant of the reset token, with one exception: a device that has given
the token back fails to deliver a descriptor while another device holds it. Its error path then
releases a token that it does not hold, and two devices are reset at once.
-/

namespace Ps2sdk.Usbd

open Lib (run AllMeet run_invariant)
open List

variable {s s' : MemPool} {dev : ℕ}

variable {port child parent : ℕ} {ports : Ports}

theorem Ports.siblings_subset (ports : Ports) : ports.siblings ⊆ ports.devices := by
  induction ports with
  | nil => exact List.Subset.refl _
  | cons d children next _ ihnext =>
    intro x hx
    simp only [Ports.siblings, mem_cons] at hx
    simp only [Ports.devices, mem_cons, mem_append]
    exact hx.imp id fun hx => .inr (ihnext hx)

/-- The children of a device are devices of the tree. -/
theorem Ports.childList_subset (ports : Ports) : (ports.childList dev).devices ⊆ ports.devices := by
  induction ports with
  | nil => exact List.Subset.refl _
  | cons d children next ihchild ihnext =>
    intro x hx
    simp only [Ports.childList] at hx
    simp only [Ports.devices, mem_cons, mem_append]
    split_ifs at hx
    · exact .inr (.inl hx)
    · exact .inr (.inl (ihchild hx))
    · exact .inr (.inr (ihnext hx))

theorem MemPool.Inv.notMem_free_of_tree {loose : ℕ → Prop} {pending : List ℕ} (h : s.Inv loose pending)
    (hmem : dev ∈ s.deviceTree.devices) : dev ∉ s.freeDeviceList := fun hfree =>
  disjoint_of_nodup_append h.core.tree.nodup.of_append_right hfree hmem

theorem fetchPortElemByNumber_mem {hubDev : ℕ} (h : fetchPortElemByNumber s hubDev port = some dev) :
    dev ∈ s.deviceTree.devices :=
  Ports.childList_subset _ (Ports.siblings_subset _ (mem_of_getElem? h))

theorem Ports.devices_append (child : ℕ) (ports : Ports) :
    (ports.append child).devices.Perm (child :: ports.devices) := by
  induction ports with
  | nil => exact List.Perm.refl _
  | cons d children next _ ihnext =>
    refine List.Perm.trans (List.Perm.cons d ?_) (List.Perm.swap child d _)
    exact (ihnext.append_left _).trans perm_middle

/-- A port that waits is in reach after one that does not wait was appended only if it was before. -/
theorem Ports.reaches_append {device : ℕ → Device}
    (h : (ports.append child).Reaches device port) : port = child ∨ ports.Reaches device port := by
  induction ports with
  | nil => exact h.imp id fun h => h.elim And.right id
  | cons d children next _ ihnext =>
    rcases h with rfl | hchild | hnext
    · exact .inr (.inl rfl)
    · exact .inr (.inr (.inl hchild))
    · exact (ihnext hnext).imp id fun h => .inr (.inr h)

/-- The same for a port that was attached below a device. -/
theorem Ports.reaches_attach {device : ℕ → Device}
    (h : (ports.attach parent child).Reaches device port) : port = child ∨ ports.Reaches device port := by
  induction ports with
  | nil => exact .inr h
  | cons d children next ihchild ihnext =>
    rcases h with rfl | ⟨hready, hchild⟩ | hnext
    · exact .inr (.inl rfl)
    · split_ifs at hchild
      · exact (reaches_append hchild).imp id fun h => .inr (.inl ⟨hready, h⟩)
      · exact (ihchild hchild).imp id fun h => .inr (.inl ⟨hready, h⟩)
    · exact (ihnext hnext).imp id fun h => .inr (.inr h)

theorem Ports.attach_of_notMem (h : parent ∉ ports.devices) : ports.attach parent child = ports := by
  induction ports with
  | nil => rfl
  | cons d children next ihchild ihnext =>
    simp only [Ports.devices, mem_cons, mem_append, not_or] at h
    simp only [Ports.attach, if_neg (Ne.symm h.1), ihchild h.2.1, ihnext h.2.2]

/-- The devices after a port was attached below a device of the tree. -/
theorem Ports.devices_attach (hnodup : ports.devices.Nodup)
    (h : parent ∈ ports.devices) : (ports.attach parent child).devices.Perm (child :: ports.devices) := by
  induction ports with
  | nil => simp [Ports.devices] at h
  | cons d children next ihchild ihnext =>
    simp only [Ports.devices, nodup_cons, mem_append, not_or] at hnodup
    obtain ⟨hd, hboth⟩ := hnodup
    obtain ⟨hchild, hnext, hdisjoint⟩ := nodup_append.mp hboth
    simp only [Ports.devices, mem_cons, mem_append] at h
    refine List.Perm.trans (List.Perm.cons d ?_) (List.Perm.swap child d _)
    by_cases heq : d = parent
    · subst heq
      rw [if_pos rfl, Ports.attach_of_notMem hd.2]
      exact (Ports.devices_append child children).append_right _
    · rw [if_neg heq]
      rcases h with h | h | h
      · exact absurd h.symm heq
      · have hout : parent ∉ next.devices := fun hn => hdisjoint parent h parent hn rfl
        rw [Ports.attach_of_notMem hout]
        exact (ihchild hchild h).append_right _
      · have hout : parent ∉ children.devices := fun hc => hdisjoint parent hc parent h rfl
        rw [Ports.attach_of_notMem hout]
        exact ((ihnext hnext h).append_left _).trans perm_middle

/-- A free device is moved to the tree. -/
theorem MemPool.Inv.attach (h : s.Good) {newDev : ℕ} {rest : List ℕ} {tree : Ports} (f : Device → Device)
    (hfree : s.freeDeviceList = newDev :: rest) (hstatus : ∀ d, (f d).deviceStatus = .notConnected)
    (hflag : ∀ d, (f d).resetFlag = false) (htimer : ∀ d, (f d).timer = d.timer)
    (hlist : ∀ d, (f d).endpointList = []) (hnodup : (rest ++ tree.devices).Nodup)
    (hreach : ∀ port, tree.Reaches (s.setDevice newDev f).device port →
      port = newDev ∨ s.deviceTree.Reaches (s.setDevice newDev f).device port) :
    ({ s.setDevice newDev f with freeDeviceList := rest, deviceTree := tree } : MemPool).Good := by
  obtain ⟨hwas, hoff⟩ := h.core.tree.free newDev (by simp [hfree])
  have hkey : s.Keeps (fun _ => True) (s.setDevice newDev f) := fun d _ =>
    ⟨MemPool.setDevice_kept Device.deviceStatus ((hstatus _).trans hwas.symm) d,
      MemPool.setDevice_kept Device.resetFlag ((hflag _).trans hoff.symm) d,
      MemPool.setDevice_kept Device.timer (htimer _) d⟩
  have hends : (s.setDevice newDev f).EndpointsOk := by
    refine ⟨h.core.endpoints.nodup, h.core.endpoints.free, h.core.endpoints.removed, fun d ep hep => ?_⟩
    rcases eq_or_ne d newDev with rfl | hd
    · simp [hlist] at hep
    · rw [MemPool.setDevice_other _ _ hd] at hep
      exact h.core.endpoints.owned d ep hep
  have hcore : (s.setDevice newDev f).Core (fun _ => False) [] :=
    h.core.setEndpoints hkey (fun _ => rfl) rfl rfl rfl hends (fun _ _ _ he => he) (fun _ _ hd => hd)
  refine ⟨⟨hcore.unique, hcore.token, hcore.notDelayed, fun d hd => ?_, ?_, ⟨hnodup, fun d hd => ?_⟩⟩, ?_⟩
  · exact (hcore.steady d hd).congr_device rfl rfl rfl rfl rfl
  · exact hcore.endpoints.congr (fun _ => rfl) rfl (fun _ => rfl) rfl
  · exact hcore.tree.free d (by
      change d ∈ s.freeDeviceList
      rw [hfree]
      exact mem_cons_of_mem _ hd)
  · intro hfalse port hport hdelayed
    rw [(hkey port trivial).1] at hdelayed
    rcases hreach port hport with rfl | hin
    · rw [hwas] at hdelayed
      simp at hdelayed
    · refine h.served hfalse port (hin.mono fun d hd => ?_) hdelayed
      rwa [(hkey d trivial).1] at hd

/-- A free device is put at a port below a device or below the root. -/
theorem attachChildDevice_inv (h : s.Good) (parent portNum : ℕ) :
    (attachChildDevice s (some parent) portNum).2.Good := by
  unfold attachChildDevice
  cases hfree : s.freeDeviceList with
  | nil => exact h
  | cons newDev rest =>
    have hnodup : (newDev :: (rest ++ s.deviceTree.devices)).Nodup := by
      have hall := h.core.tree.nodup
      rwa [nil_append, hfree] at hall
    have htree : s.deviceTree.devices.Nodup := (nodup_cons.mp hnodup).2.of_append_right
    refine h.attach (fun dev =>
      { dev with endpointList := [], devDriver := none, deviceStatus := .notConnected, resetFlag := false,
                 parent := some parent, attachedToPortNo := portNum, privDataField := none })
      hfree (fun _ => rfl) (fun _ => rfl) (fun _ => rfl) (fun _ => rfl) ?_ ?_
    · change (rest ++ (if parent = deviceTreeRoot then s.deviceTree.append newDev
        else s.deviceTree.attach parent newDev).devices).Nodup
      have hmoved : ∀ tree : Ports, tree.devices.Perm (newDev :: s.deviceTree.devices) →
          (rest ++ tree.devices).Nodup := fun tree hperm =>
        ((hperm.append_left rest).trans perm_middle).nodup_iff.mpr hnodup
      split_ifs
      · exact hmoved _ (Ports.devices_append newDev _)
      · by_cases hmem : parent ∈ s.deviceTree.devices
        · exact hmoved _ (Ports.devices_attach htree hmem)
        · rw [Ports.attach_of_notMem hmem]
          exact (nodup_cons.mp hnodup).2
    · intro port hport
      split_ifs at hport
      · exact Ports.reaches_append hport
      · exact Ports.reaches_attach hport

/-- Attaching the ports of a hub keeps the invariant. -/
theorem attachPorts_inv (usbDev left : ℕ) : ∀ (port : ℕ) (s : MemPool), s.Good →
    (attachPorts usbDev left port s).2.Good := by
  induction left with
  | zero => exact fun _ _ h => h
  | succ left ih =>
    intro port s h
    unfold attachPorts
    have hattach := attachChildDevice_inv h usbDev (port + 1)
    generalize attachChildDevice s (some usbDev) (port + 1) = r at hattach
    obtain ⟨res, m⟩ := r
    cases res with
    | none => exact hattach
    | some newDev => exact ih (port + 1) m hattach

/-- Setting up the ports of a hub keeps the invariant. -/
theorem hubSetupPorts_inv (h : s.Good) (hub : ℕ) : (hubSetupPorts s hub).Good := by
  unfold hubSetupPorts
  split_ifs
  · split
    · exact h
    · rename_i usbDev _
      have hattach := attachPorts_inv usbDev ((s.hub hub).desc 2).toNat 0 s h
      generalize attachPorts usbDev ((s.hub hub).desc 2).toNat 0 s = r at hattach
      obtain ⟨count, m⟩ := r
      dsimp only
      have hset := hattach.same (m.same_setHub hub fun h =>
        { h with hubStatusCounter := 0, portCounter := 0, numChildDevices := count })
      split_ifs
      · exact hset.same (same_hubSetPortPower _ hub)
      · exact hset
  · exact h

variable (cfg : UsbdConfig)

/-- The status of a hub port keeps the invariant. -/
theorem hubGetPortStatusCallback_inv (h : s.Good) (hub : ℕ) (tdLeft : Bool) :
    (hubGetPortStatusCallback cfg s hub tdLeft).Good := by
  unfold hubGetPortStatusCallback
  dsimp only
  split
  · split
    · exact h.same ((s.same_setHub hub _).trans (same_hubControlTransfer _ _ _ _ _))
    · split
      · exact h.same (same_hubStatusChangeCallback s hub)
      · rename_i port hport
        obtain ⟨hubDev, -, hfound⟩ := Option.bind_eq_some_iff.mp hport
        have hnotfree := h.notMem_free_of_tree (fetchPortElemByNumber_mem hfound)
        by_cases hconn : (s.hub hub).portStatusChange.bit 0 = true
        · rw [if_pos hconn]
          split_ifs with hnot hreset
          · exact portConnected_inv h hnotfree hnot
          · have hdone := (portResetDone_inv h hnotfree hreset.1 tdLeft).1
            exact hdone.same ((MemPool.same_setHub _ hub _).trans (same_hubStatusChangeCallback _ hub))
          · exact h.same (same_hubStatusChangeCallback s hub)
        · rw [if_neg hconn]
          exact (flushPort_inv cfg h).same (same_hubStatusChangeCallback _ hub)
  · exact h

/-- A change at one root port keeps the invariant and the ports of the root. -/
theorem handleRhscPort_inv (h : s.Good) (status : Bytes) (tdLeft : Bool) (hport : dev ∈ s.deviceTree.siblings) :
    (handleRhscPort cfg status tdLeft s dev).Good ∧
      (handleRhscPort cfg status tdLeft s dev).deviceTree.siblings = s.deviceTree.siblings := by
  have hflush := @flushPort_inv s dev cfg h
  have hsiblings := flushPort_siblings cfg s dev
  unfold handleRhscPort
  by_cases hconn : status.bit 0 = true
  · rw [if_pos hconn]
    dsimp only
    have hstart : ∃ m : MemPool, (if (s.device dev).deviceStatus ≠ .notConnected ∧ status.bit 16 = true then
        flushPort cfg s dev else s) = m ∧ m.Good ∧ m.deviceTree.siblings = s.deviceTree.siblings := by
      split_ifs
      · exact ⟨_, rfl, hflush, hsiblings⟩
      · exact ⟨_, rfl, h, rfl⟩
    obtain ⟨m, hm, hgood, hsame⟩ := hstart
    rw [hm]
    have hnotfree : dev ∉ m.freeDeviceList := by
      refine hgood.notMem_free_of_tree (Ports.siblings_subset _ ?_)
      rw [hsame]
      exact hport
    split_ifs with hnot hreset
    · refine ⟨portConnected_inv hgood hnotfree hnot, ?_⟩
      rw [portConnected, addTimerCallback_deviceTree]
      exact hsame
    · obtain ⟨hdone, htree⟩ := portResetDone_inv hgood hnotfree hreset.1 tdLeft
      exact ⟨hdone, by rw [htree, hsame]⟩
    · exact ⟨hgood, hsame⟩
  · rw [if_neg hconn]
    exact ⟨hflush, hsiblings⟩

/-- The port interrupt loop keeps the invariant as long as its ports are ports of the root. -/
theorem handleRhscPorts_inv (status : ℕ → Bytes) (tdLeft : ℕ → Bool) (ports : List ℕ) :
    ∀ (portNum : ℕ) (s : MemPool), s.Good → ports ⊆ s.deviceTree.siblings →
      (handleRhscPorts cfg status tdLeft ports portNum s).Good := by
  induction ports with
  | nil => exact fun _ _ h _ => h
  | cons port ports ih =>
    intro portNum s h hports
    obtain ⟨hgood, hsame⟩ := handleRhscPort_inv cfg h (status portNum) (tdLeft portNum)
      (hports mem_cons_self)
    refine ih (portNum + 1) _ hgood ?_
    rw [hsame]
    exact fun p hp => hports (mem_cons_of_mem _ hp)

/-- The event is a failed descriptor transfer that makes the driver reset the device again. -/
def DescriptorFailure (s : MemPool) : Event → Prop
  | .transferDone (.device dev) r _ =>
    (s.request (.device dev)).busyFlag = true ∧ (s.requester (.device dev)).isSome ∧ r.resultCode ≠ rcOk ∧
      ((s.request (.device dev)).callbackProc = .requestDevDescrptCb ∨
        ((s.request (.device dev)).callbackProc = .fetchConfigDescriptors ∧
          (s.device dev).fetchDescriptorCounter ≠ 0))
  | _ => False

instance (s : MemPool) : (e : Event) → Decidable (DescriptorFailure s e)
  | .rootHubStatusChange _ _ => inferInstanceAs (Decidable False)
  | .timer _ => inferInstanceAs (Decidable False)
  | .endpointTimer _ => inferInstanceAs (Decidable False)
  | .transferDone (.control _) _ _ => inferInstanceAs (Decidable False)
  | .transferDone (.status _) _ _ => inferInstanceAs (Decidable False)
  | .transferDone (.device _) _ _ => inferInstanceAs (Decidable (_ ∧ _))

/-- No device fails to deliver a descriptor while another one holds the reset token. -/
def FailsAlone (s : MemPool) (e : Event) : Prop := DescriptorFailure s e → s.delayResets = false

instance (s : MemPool) (e : Event) : Decidable (FailsAlone s e) :=
  inferInstanceAs (Decidable (_ → _))

/-- A completed transfer of a hub keeps the invariant. -/
theorem hubCallback_inv (h : s.Good) (hub : ℕ) (tdLeft : Bool) :
    (callbackProc cfg s (.control hub) tdLeft).Good ∧ (callbackProc cfg s (.status hub) tdLeft).Good := by
  unfold callbackProc
  refine ⟨?_, ?_⟩
  · cases (s.request (.control hub)).callbackProc with
    | hubCheckDeviceDesc => exact h.same (same_hubCheckDeviceDesc cfg s hub)
    | hubCheckPorts => exact h.same (same_hubCheckPorts cfg s hub)
    | hubSetupPorts => exact hubSetupPorts_inv h hub
    | hubSetPortPower => exact h.same (same_hubSetPortPower s hub)
    | hubGetHubStatusCallback => exact h.same (same_hubGetHubStatusCallback s hub)
    | hubGetPortStatusCallback => exact hubGetPortStatusCallback_inv cfg h hub tdLeft
    | hubDeviceResetCallback => exact h.same (same_hubDeviceResetCallback s hub)
    | _ => exact h
  · cases (s.request (.status hub)).callbackProc with
    | hubStatusChangeCallback => exact h.same (same_hubStatusChangeCallback s hub)
    | _ => exact h

/-- A completed transfer is not seen but for the request that is no longer busy. -/
structure MemPool.Transferred (s : MemPool) (dev : ℕ) (r : Result) (n : MemPool) : Prop where
  good : n.Good
  idle : (n.request (.device dev)).busyFlag = false
  resultCode : (n.request (.device dev)).resultCode = r.resultCode
  callbackProc : (n.request (.device dev)).callbackProc = (s.request (.device dev)).callbackProc
  requester : n.requester (.device dev) = s.requester (.device dev)
  status : ∀ d, (n.device d).deviceStatus = (s.device d).deviceStatus
  flag : ∀ d, (n.device d).resetFlag = (s.device d).resetFlag
  timer : ∀ d, (n.device d).timer = (s.device d).timer
  counter : (n.device dev).fetchDescriptorCounter = (s.device dev).fetchDescriptorCounter
  delayResets : n.delayResets = s.delayResets

theorem receive_fetchDescriptorCounter (s : MemPool) (r : Result) (dest : Dest) (d : ℕ) :
    ((receive s r dest).device d).fetchDescriptorCounter = (s.device d).fetchDescriptorCounter := by
  unfold receive
  cases dest with
  | descriptor dev offset => exact MemPool.setDevice_kept Device.fetchDescriptorCounter rfl d
  | _ => rfl

/-- What a completed transfer of a device leaves behind. -/
theorem MemPool.Inv.transferred (h : s.Good) (dev : ℕ) (r : Result) :
    s.Transferred dev r (transferred s (.device dev) r) := by
  have hsame := same_receive s r (s.request (.device dev)).destPtr
  have hcounter := receive_fetchDescriptorCounter s r (s.request (.device dev)).destPtr dev
  unfold Usbd.transferred
  generalize receive s r (s.request (.device dev)).destPtr = m at hsame hcounter
  have hgood := h.same hsame
  have hstop : (m.setRequest (.device dev) fun request =>
      { request with busyFlag := false, resultCode := r.resultCode,
                     transferedBytes := r.transferedBytes }).Steady dev := by
    refine (hgood.core.steady dev not_false).stop rfl ?_ ?_ (fun ep => rfl)
    · rw [MemPool.setRequest_self]
    · rw [MemPool.setRequest_self]
  refine ⟨⟨hgood.core.setRequest _ (fun _ => hstop) (by simp), hgood.served⟩, ?_, ?_, ?_, ?_, hsame.status,
    hsame.flag, hsame.timer, hcounter, hsame.delayResets⟩
  · rw [MemPool.setRequest_self]
  · rw [MemPool.setRequest_self]
  · rw [MemPool.setRequest_self, ← hsame.request]
  · unfold MemPool.requester
    rw [MemPool.setRequest_self, ← hsame.request, ← hsame.endpoint]
    rfl

/-- The status of a device that is called back after a transfer. -/
theorem MemPool.Inv.callsBack (h : s.Good) (hbusy : (s.request (.device dev)).busyFlag = true)
    (hcalls : s.requester (.device dev) ≠ none) {r : Result} {n : MemPool} (hn : s.Transferred dev r n) :
    n.CallsBack dev ∧ (((n.request (.device dev)).callbackProc = .hubSetFuncAddressCB ∧
        (n.device dev).deviceStatus = .resetComplete) ∨
      (((n.request (.device dev)).callbackProc = .requestDevDescrptCb ∨
          (n.request (.device dev)).callbackProc = .fetchConfigDescriptors) ∧
        (n.device dev).deviceStatus = .ready)) := by
  obtain ⟨hrequester, htimer, hcase⟩ := (h.core.steady dev not_false).request hbusy hcalls
  refine ⟨⟨hn.requester.trans hrequester, hn.idle, (hn.timer dev).trans htimer⟩, ?_⟩
  rw [hn.callbackProc, hn.status]
  exact hcase

/-- A completed transfer of a device keeps the invariant. -/
theorem deviceDone_inv (h : s.Good) (dev : ℕ) (r : Result) (tdLeft : Bool)
    (halone : FailsAlone s (.transferDone (.device dev) r tdLeft)) :
    (processDoneQueue cfg s (.device dev) r tdLeft).Good := by
  unfold processDoneQueue
  by_cases hbusy : (s.request (.device dev)).busyFlag = true
  · rw [if_pos hbusy]
    have hn := h.transferred dev r
    generalize transferred s (.device dev) r = n at hn
    cases hreq : n.requester (.device dev) with
    | none => exact hn.good
    | some caller =>
      have hcalls : s.requester (.device dev) ≠ none := by
        rw [← hn.requester, hreq]
        simp
      have hsome : (s.requester (.device dev)).isSome := Option.isSome_iff_ne_none.mpr hcalls
      obtain ⟨hback, hcase⟩ := h.callsBack hbusy hcalls hn
      unfold callbackProc
      rcases hcase with ⟨hcb, hstatus⟩ | ⟨hcb | hcb, hstatus⟩
      · rw [hcb]
        exact hubSetFuncAddressCB_inv hn.good hback hstatus
      · rw [hcb]
        refine requestDevDescrptCb_inv cfg hn.good hback hstatus tdLeft ?_
        rw [hn.resultCode, hn.delayResets]
        by_cases hrc : r.resultCode = rcOk
        · exact .inl hrc
        · exact .inr (halone ⟨hbusy, hsome, hrc, .inl (hn.callbackProc.symm.trans hcb)⟩)
      · rw [hcb]
        refine fetchConfigDescriptors_inv cfg hn.good hback hstatus tdLeft ?_
        rw [hn.resultCode, hn.counter, hn.delayResets]
        by_cases hrc : r.resultCode = rcOk
        · exact .inl hrc
        · refine .inr ?_
          by_cases hzero : (s.device dev).fetchDescriptorCounter = 0
          · exact .inl hzero
          · exact .inr
              (halone ⟨hbusy, hsome, hrc, .inr ⟨hn.callbackProc.symm.trans hcb, hzero⟩⟩)
  · rw [if_neg hbusy]
    exact h

/-- A completed transfer of a hub keeps the invariant. -/
theorem hubDone_inv (h : s.Good) (hub : ℕ) (r : Result) (tdLeft : Bool) :
    (processDoneQueue cfg s (.control hub) r tdLeft).Good ∧
      (processDoneQueue cfg s (.status hub) r tdLeft).Good := by
  have hdone : ∀ req : ReqId, (∀ d, .device d ≠ req) → (transferred s req r).Good := fun req hreq =>
    h.same ((same_receive s r _).trans (MemPool.same_setRequest _ _ hreq))
  unfold processDoneQueue
  refine ⟨?_, ?_⟩
  · split
    · split
      · exact hdone _ (by simp)
      · exact (hubCallback_inv cfg (hdone (.control hub) (by simp)) hub tdLeft).1
    · exact h
  · split
    · split
      · exact hdone _ (by simp)
      · exact (hubCallback_inv cfg (hdone (.status hub) (by simp)) hub tdLeft).2
    · exact h

/-- Every event keeps the invariant unless a device fails while another one holds the token. -/
theorem step_inv (s : MemPool) (e : Event) (h : s.Good) (halone : FailsAlone s e) : (step cfg s e).2.Good := by
  cases e with
  | rootHubStatusChange status tdLeft =>
    exact handleRhscPorts_inv cfg status tdLeft s.deviceTree.siblings 0 s h (List.Subset.refl _)
  | timer dev => exact timerExpired_inv h dev
  | endpointTimer ep =>
    refine ⟨endpointTimerExpired_core h.core ep, ?_⟩
    change (endpointTimerExpired s ep).Served
    unfold endpointTimerExpired
    split_ifs
    · exact h.served
    · exact h.served
  | transferDone req r tdLeft =>
    cases req with
    | device dev => exact deviceDone_inv cfg h dev r tdLeft halone
    | control hub => exact (hubDone_inv cfg h hub r tdLeft).1
    | status hub => exact (hubDone_inv cfg h hub r tdLeft).2

/-- Passing on the token resets a port that waits for it, or leaves the token free; the devices
that do not wait keep their status. -/
theorem checkDelayedResets_cases (s : MemPool) (dev : ℕ) : (∀ d, (s.device d).deviceStatus ≠ .resetDelayed →
      ((checkDelayedResets s dev).device d).deviceStatus = (s.device d).deviceStatus ∧
        ((checkDelayedResets s dev).device d).timer = (s.device d).timer) ∧
      ((∃ port, (s.device port).deviceStatus = .resetDelayed ∧
          ((checkDelayedResets s dev).device port).deviceStatus = .resetPending) ∨
        (checkDelayedResets s dev).delayResets = false) := by
  have hkey := s.release_device dev
  rw [show checkDelayedResets s dev = checkDelayedResetsTree (s.release dev) s.deviceTree from rfl]
  unfold checkDelayedResetsTree
  split
  · rename_i port hport
    have hdelayed := delayedPort_some hport
    refine ⟨fun d hd => ?_, .inl ⟨port, (hkey port).1.symm.trans hdelayed, ?_⟩⟩
    · have hne : d ≠ port := by
        rintro rfl
        exact hd ((hkey d).1.symm.trans hdelayed)
      obtain ⟨hstatus, -, htimer⟩ := keeps_hubResetDevice (s.release dev) port d hne
      exact ⟨hstatus.trans (hkey d).1, htimer.trans (hkey d).2⟩
    · have hfree : (s.release dev).delayResets = false := rfl
      rw [(same_hubResetDevice _ port).status]
      simp [resetPort, hfree]
  · exact ⟨fun d _ => hkey d, .inr rfl⟩

/-- Killing a device while another one is being addressed leaves two devices being addressed. -/
theorem killDevice_breaks {holder ep : ℕ} (hholder : (s.device holder).Addressing) (hne : holder ≠ dev)
    (hstatus : (s.device dev).deviceStatus ≠ .resetDelayed) : ¬ (killDevice s dev ep).OneAtDefaultAddress := by
  intro hone
  have hkey := keeps_removeEndpoint dev s ep
  obtain ⟨hother, hpassed⟩ := checkDelayedResets_cases (removeEndpointFromDevice dev s ep) dev
  generalize hm : checkDelayedResets (removeEndpointFromDevice dev s ep) dev = m at hother hpassed
  have hrun : killDevice s dev ep = hubResetDevice m dev := by
    rw [← hm]
    rfl
  have hwait : (s.device holder).deviceStatus ≠ .resetDelayed := by
    rcases hholder with h | h | ⟨h, -⟩ <;> rw [h] <;> simp
  have hstill : ((hubResetDevice m dev).device holder).Addressing := by
    obtain ⟨hst, -, htm⟩ := keeps_hubResetDevice m dev holder hne
    obtain ⟨hst', htm'⟩ := hother holder (by rw [(hkey holder trivial).1]; exact hwait)
    unfold Device.Addressing at hholder ⊢
    rw [hst, htm, hst', htm', (hkey holder trivial).1, (hkey holder trivial).2.2]
    exact hholder
  rw [hrun] at hone
  rcases hpassed with ⟨port, hdelayed, hpending⟩ | hfree
  · rw [(hkey port trivial).1] at hdelayed
    have hport : port ≠ dev := by
      rintro rfl
      exact hstatus hdelayed
    have haddr : ((hubResetDevice m dev).device port).Addressing := by
      refine .inl ?_
      rw [(keeps_hubResetDevice m dev port hport).1]
      exact hpending
    have heq := hone.one holder port hstill haddr
    rw [heq] at hwait
    exact hwait hdelayed
  · refine hne (hone.one holder dev hstill (.inl ?_))
    rw [(same_hubResetDevice m dev).status]
    simp [resetPort, hfree]

/-- A device that fails while another one holds the token brings two devices to the default
address. -/
theorem step_breaks (s : MemPool) (e : Event) (h : s.Good) (hfail : ¬ FailsAlone s e) :
    ¬ (step cfg s e).2.OneAtDefaultAddress := by
  obtain ⟨hdesc, htaken⟩ := Classical.not_imp.mp hfail
  match e, hdesc with
  | .transferDone (.device dev) r tdLeft, ⟨hbusy, hsome, hrc, hcb⟩ =>
    have hn := h.transferred dev r
    have hcalls : s.requester (.device dev) ≠ none := Option.isSome_iff_ne_none.mp hsome
    obtain ⟨hback, hcase⟩ := h.callsBack hbusy hcalls hn
    change ¬ (processDoneQueue cfg s (.device dev) r tdLeft).OneAtDefaultAddress
    unfold processDoneQueue
    rw [if_pos hbusy]
    generalize transferred s (.device dev) r = n at hn hback hcase
    have hready : (n.device dev).deviceStatus = .ready := by
      rcases hcase with ⟨hset, -⟩ | ⟨-, hready⟩
      · rw [hn.callbackProc] at hset
        rcases hcb with hcb | ⟨hcb, -⟩
        · simp [hcb] at hset
        · simp [hcb] at hset
      · exact hready
    obtain ⟨holder, hflag⟩ := hn.good.core.token.mp
      (hn.delayResets.trans (by simpa using htaken))
    have hholder := (hn.good.core.steady holder not_false).flag.mp hflag
    have hne : holder ≠ dev := by
      rintro rfl
      simp [Device.Addressing, hready, hback.timer] at hholder
    have hkill : ∀ ep, ¬ (killDevice n dev ep).OneAtDefaultAddress := fun ep =>
      killDevice_breaks hholder hne (by rw [hready]; simp)
    rw [hback.requester]
    unfold callbackProc
    rcases hcb with hcb | ⟨hcb, hcounter⟩
    · rw [hn.callbackProc, hcb]
      dsimp only
      unfold requestDevDescrptCb
      rw [hback.requester]
      dsimp only
      rw [if_neg (by rw [hn.resultCode]; exact hrc)]
      exact hkill _
    · rw [hn.callbackProc, hcb]
      unfold fetchConfigDescriptors
      dsimp only
      rw [hback.requester]
      dsimp only
      rw [if_neg (by rw [hn.resultCode, hn.counter]; exact not_or.mpr ⟨hrc, hcounter⟩)]
      exact hkill _

/-- The root leaves the free list. -/
theorem attachRoot_inv (h : s.Good) (portNum : ℕ) : (attachChildDevice s none portNum).2.Good := by
  unfold attachChildDevice
  cases hfree : s.freeDeviceList with
  | nil => exact h
  | cons newDev rest =>
    have hnodup := h.core.tree.nodup
    rw [nil_append, hfree, cons_append, nodup_cons] at hnodup
    exact h.attach (fun dev =>
      { dev with endpointList := [], devDriver := none, deviceStatus := .notConnected, resetFlag := false,
                 parent := none, attachedToPortNo := portNum, privDataField := none })
      hfree (fun _ => rfl) (fun _ => rfl) (fun _ => rfl) (fun _ => rfl) hnodup.2 (fun _ hreach => .inr hreach)

theorem initHcdStructs_inv : (initHcdStructs cfg).Good := by
  unfold initHcdStructs
  refine attachChildDevice_inv (attachChildDevice_inv (attachRoot_inv ?_ 0) _ _) _ _
  refine ⟨⟨by simp, by simp, by simp, fun d _ => ⟨by simp [MemPool.RequestOk], by simp, ?_⟩,
    ⟨nodup_range, by simp, by simp, by simp⟩, ⟨?_, by simp⟩⟩, ?_⟩
  · simp [Device.Addressing]
  · simpa [Ports.devices] using nodup_range
  · exact fun _ port hreach => hreach.elim

/-- At all times of a run at most one device is at the default address, the reset token is taken
exactly while there is one and no port in reach waits for a free token, exactly when no device of
the run fails to deliver a descriptor while another one holds the token. -/
theorem usbd_oneAtDefaultAddress_iff (events : List Event) : (∀ done, done <+: events →
      (run (step cfg) (initHcdStructs cfg) done).2.OneAtDefaultAddress) ↔
      AllMeet (step cfg) FailsAlone (initHcdStructs cfg) events :=
  Lib.run_prefixes_iff (step cfg) FailsAlone MemPool.Good MemPool.OneAtDefaultAddress
    (fun _ h => h.oneAtDefaultAddress) (fun s e h hcond => step_inv cfg s e h hcond)
    (fun s e h hnot => step_breaks cfg s e h hnot) events (initHcdStructs cfg) (initHcdStructs_inv cfg)

/-- The status word of a root port with a device plugged in. -/
def pluggedIn : Bytes := Function.update (fun _ => 0) 0 1

/-- Two devices are plugged in. The first gets its address, so that the second is reset; then the
first does not deliver its descriptor. -/
def secondFailure : List Event :=
  [.rootHubStatusChange (fun _ => pluggedIn) (fun _ => true), .timer 1, .timer 2,
    .rootHubStatusChange (fun _ => pluggedIn) (fun _ => true), .timer 1,
    .transferDone (.device 1) ⟨rcOk, 0, fun _ => 0⟩ true, .timer 1,
    .transferDone (.device 1) ⟨rcNoResponse, 0, fun _ => 0⟩ true]

/-- Two devices are at the default address when the first one fails late. -/
theorem usbd_two_at_default_address :
    ¬ (run (step {}) (initHcdStructs {}) secondFailure).2.OneAtDefaultAddress := by
  intro h
  have hone := h.one 1 2 (.inl (by decide)) (.inl (by decide))
  simp at hone

end Ps2sdk.Usbd
