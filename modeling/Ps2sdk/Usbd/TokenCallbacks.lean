import Ps2sdk.Usbd.TokenFlush

/-!
# The callbacks of the USB host driver and the reset token

What the expired timer of a device, the answer to one of its transfers and a change at its port
do to the reset token. A device that fails to deliver a descriptor is reset again; the invariant
survives that only while no other device holds the token.
-/

namespace Ps2sdk.Usbd

open MemPool

variable {loose : ℕ → Prop} {pending : List ℕ} {s s' : MemPool} {dev : ℕ}

/-- The invariant between events. -/
abbrev MemPool.Good (s : MemPool) : Prop := s.Inv (fun _ => False) []

/-- A control transfer of a device on an endpoint of its own. -/
theorem doControlTransfer_inv (h : s.Inv loose pending) {ep : ℕ}
    (hep : (s.endpoint ep).correspDevice = some dev) (length : ℕ) (destPtr : Dest)
    (callback : InternCallback) (hsteady : ¬ loose dev → (s.device dev).timer = none ∧
      ((callback = .hubSetFuncAddressCB ∧ (s.device dev).deviceStatus = .resetComplete) ∨
        ((callback = .requestDevDescrptCb ∨ callback = .fetchConfigDescriptors) ∧
          (s.device dev).deviceStatus = .ready))) :
    (doControlTransfer s ep (.device dev) length destPtr callback).Inv loose pending := by
  by_cases hbusy : (s.request (.device dev)).busyFlag = true
  · rw [doControlTransfer, if_pos hbusy]
    exact h
  have hrun : doControlTransfer s ep (.device dev) length destPtr callback =
      s.setRequest (.device dev) fun _ =>
        { busyFlag := true, correspEndpoint := ep, destPtr := destPtr, length := length,
          callbackProc := callback, resultCode := 0, transferedBytes := 0 } := by
    simp [doControlTransfer, attachIoReqToEndpoint, hbusy, hep]
  rw [hrun]
  refine ⟨h.core.setRequest _ (fun hdev => ?_) (fun _ hfree => ?_), h.served⟩
  · obtain ⟨htimer, hcase⟩ := hsteady hdev
    refine ⟨fun _ _ => ⟨?_, htimer, ?_⟩, ?_, (h.core.steady dev hdev).flag⟩
    · unfold requester
      rw [setRequest_self]
      exact hep
    · rw [setRequest_self]
      exact hcase
    · intro t ht
      rw [show (s.device dev).timer = some t from ht] at htimer
      simp at htimer
  · have hnone := (h.core.endpoints.free _ hfree).1
    rw [hep] at hnone
    simp at hnone

/-- The timer of a silent device is set. -/
theorem addTimerCallback_inv (h : s.Inv loose pending) (hnotfree : dev ∉ s.freeDeviceList)
    (hsilent : s.Silent dev) (hwait : (s.device dev).deviceStatus ≠ .resetDelayed) {loose' : ℕ → Prop}
    (hloose : ∀ d, d ≠ dev → (loose' d ↔ loose d)) {func : TimerCallback} (hok : s.TimerOk dev func)
    (hflag : (s.device dev).resetFlag = true ↔ Device.Addressing { s.device dev with timer := some func }) :
    (addTimerCallback s dev func).Inv loose' pending := by
  have hrun : addTimerCallback s dev func = s.setDevice dev fun d => { d with timer := some func } := by
    simp [addTimerCallback, hsilent.timer]
  have hstatus : ((s.setDevice dev fun d => { d with timer := some func }).device dev).deviceStatus =
      (s.device dev).deviceStatus := setDevice_kept Device.deviceStatus rfl dev
  rw [hrun]
  refine h.setDevice _ rfl rfl hloose (fun _ => ⟨?_, ?_, ?_⟩) (fun hmem => absurd hmem hnotfree) id hwait
  · exact fun hbusy hcalls => absurd (hsilent.request hbusy) hcalls
  · intro t ht
    simp only [setDevice_self, Option.some.injEq] at ht
    subst ht
    cases func with
    | hubResetDevice port => exact ⟨hok.1, hstatus.trans hok.2⟩
    | hubSetFuncAddress ep => exact ⟨hok.1, hstatus.trans hok.2.1, hok.2.2⟩
    | hubPeekDeviceDescriptor req => exact ⟨hok.1, hok.2.1, hstatus.trans hok.2.2.1, hok.2.2.2⟩
  · rw [setDevice_self]
    exact hflag

theorem addTimerCallback_deviceTree (s : MemPool) (dev : ℕ) (func : TimerCallback) :
    (addTimerCallback s dev func).deviceTree = s.deviceTree := by
  unfold addTimerCallback
  split_ifs
  · rfl
  · rfl

/-- A device was plugged into a port. -/
theorem portConnected_inv (h : s.Good) (hnotfree : dev ∉ s.freeDeviceList)
    (hstatus : (s.device dev).deviceStatus = .notConnected) : (portConnected s dev).Good := by
  have hsteady := h.core.steady dev not_false
  have hsilent := hsteady.silent (.inl hstatus)
  have hoff : (s.device dev).resetFlag ≠ true := by
    intro hflag
    have haddr := hsteady.flag.mp hflag
    simp [Device.Addressing, hstatus] at haddr
  have hconn : (s.setDevice dev fun d => { d with deviceStatus := .connected }).Inv (· = dev) [] :=
    h.setDevice _ rfl rfl (fun d hd => by simp [hd]) (fun hl => absurd rfl hl)
      (fun hmem => absurd hmem hnotfree) (by simp) (by simp)
  exact addTimerCallback_inv hconn hnotfree ⟨by simpa using hsilent.timer, hsilent.request⟩ (by simp)
    (fun d hd => by simp [hd]) ⟨rfl, by simp⟩ (by simpa [Device.Addressing] using hoff)

theorem MemPool.Opened.served (h : s.Opened s') (hs : s.Served) : s'.Served :=
  hs.mono h.delayResets h.deviceTree (fun d hd => by rwa [h.status] at hd)
    (fun d hd => by rwa [h.status] at hd)

theorem MemPool.Opened.silent (h : s.Opened s') (hs : s.Silent dev) : s'.Silent dev := by
  refine ⟨(h.timer dev).trans hs.timer, fun hbusy => ?_⟩
  rw [h.request] at hbusy
  exact h.dead dev hbusy (hs.request hbusy)

theorem MemPool.Silent.same (h : s.Silent dev) (hs : s.Same s') : s'.Silent dev := by
  refine ⟨(hs.timer dev).trans h.timer, ?_⟩
  unfold requester
  rw [hs.endpoint, hs.request]
  exact h.request

/-- The reset of a port is done; the tree is left alone. -/
theorem portResetDone_inv (h : s.Good) (hnotfree : dev ∉ s.freeDeviceList)
    (hstatus : (s.device dev).deviceStatus = .resetPending) (tdLeft : Bool) :
    (portResetDone s dev tdLeft).Good ∧ (portResetDone s dev tdLeft).deviceTree = s.deviceTree := by
  have hsteady := h.core.steady dev not_false
  have hsilent := hsteady.silent (.inr (.inr hstatus))
  have hflag : (s.device dev).resetFlag = true := hsteady.flag.mpr (.inl hstatus)
  obtain ⟨m, hm, hmsilent, hmflag, hmstatus, hmfree, hmtree⟩ : ∃ m,
      (s.setDevice dev fun d => { d with deviceStatus := .resetComplete }) = m ∧ m.Silent dev ∧
      (m.device dev).resetFlag = true ∧ (m.device dev).deviceStatus = .resetComplete ∧
      dev ∉ m.freeDeviceList ∧ m.deviceTree = s.deviceTree :=
    ⟨_, rfl, ⟨by simpa using hsilent.timer, hsilent.request⟩, by simpa using hflag, by simp, hnotfree, rfl⟩
  have hinv : m.Good := by
    have hok : m.Steady dev := hmsilent.steady (by simp [hmflag, hmstatus])
    rw [← hm] at hok ⊢
    exact h.setDevice _ rfl rfl (fun _ _ => Iff.rfl) (fun _ => hok) (fun hmem => absurd hmem hnotfree)
      (by simp) (by simp)
  obtain ⟨hcore, hopened, hlist⟩ := @openDeviceEndpoint_spec _ _ m dev hinv.core tdLeft
  have hgood : (openDeviceEndpoint m dev tdLeft).2.Good := ⟨hcore, hopened.served hinv.served⟩
  obtain ⟨res, m', hr⟩ : ∃ res m', openDeviceEndpoint m dev tdLeft = (res, m') := ⟨_, _, rfl⟩
  have hrun : portResetDone s dev tdLeft = res.elim m' fun _ => hubTimedSetFuncAddress m' dev := by
    simp only [portResetDone, hm, hr]
    cases res <;> rfl
  rw [hrun]
  rw [hr] at hcore hopened hlist hgood
  have htree := hopened.deviceTree.trans hmtree
  cases res with
  | none => exact ⟨hgood, htree⟩
  | some ep =>
    have hsame := m'.same_setDevice dev (fun d => { d with functionDelay := 20 }) fun _ => ⟨rfl, rfl, rfl, rfl⟩
    have hsilent' := (hopened.silent hmsilent).same hsame
    have hstatus' := (hsame.status dev).trans ((hopened.status dev).trans hmstatus)
    have hflag' := (hsame.flag dev).trans ((hopened.flag dev).trans hmflag)
    refine ⟨?_, (addTimerCallback_deviceTree _ _ _).trans htree⟩
    refine addTimerCallback_inv (hgood.same hsame) ?_ hsilent' (by rw [hstatus']; simp) (fun _ _ => Iff.rfl)
      ⟨?_, hstatus', hsilent'.request⟩ ⟨fun _ => .inr (.inl hstatus'), fun _ => hflag'⟩
    · rw [hsame.freeDeviceList, hopened.freeDeviceList]
      exact hmfree
    · apply (hgood.same hsame).core.endpoints.owned dev
      have hne := hlist rfl
      rw [← hsame.endpointList] at hne
      cases hl : ((m'.setDevice dev fun d => { d with functionDelay := 20 }).device dev).endpointList with
      | nil => exact absurd hl hne
      | cons e rest => simp

theorem MemPool.Inv.notMem_free (h : s.Inv loose pending)
    (hstatus : (s.device dev).deviceStatus ≠ .notConnected) : dev ∉ s.freeDeviceList := fun hmem =>
  hstatus (h.core.tree.free dev hmem).1

/-- The first descriptor is asked for, and the token is passed on. -/
theorem hubPeekDeviceDescriptor_inv (h : s.Inv (· = dev) [])
    (hrequester : s.requester (.device dev) = some dev) (hidle : (s.request (.device dev)).busyFlag = false)
    (hstatus : (s.device dev).deviceStatus = .ready) (htimer : (s.device dev).timer = none)
    (honly : ∀ d, (s.device d).resetFlag = true → d = dev) : (hubPeekDeviceDescriptor s (.device dev)).Good := by
  generalize hm : (s.setDevice dev fun d => { d with staticDeviceDescEnd := 0 }) = m
  have hsame : s.Same m := by
    rw [← hm]
    exact same_setDevice _ dev _ fun _ => ⟨rfl, rfl, rfl, rfl⟩
  have hep : (m.endpoint (s.request (.device dev)).correspEndpoint).correspDevice = some dev := by
    rw [hsame.endpoint]
    exact hrequester
  have hsent : requestDeviceDescriptor s (.device dev) 8 = doControlTransfer m
      (s.request (.device dev)).correspEndpoint (.device dev) 8 (.descriptor dev 0) .requestDevDescrptCb := by
    unfold requestDeviceDescriptor
    rw [hrequester]
    dsimp only
    rw [hm, hsame.request]
  have hask : requestDeviceDescriptor s (.device dev) 8 =
      m.setRequest (.device dev) fun _ =>
        { busyFlag := true, correspEndpoint := (s.request (.device dev)).correspEndpoint,
          destPtr := .descriptor dev 0, length := 8, callbackProc := .requestDevDescrptCb,
          resultCode := 0, transferedBytes := 0 } := by
    rw [hsent]
    simp [doControlTransfer, attachIoReqToEndpoint, hsame.request, hidle, hep]
  have hasked : (requestDeviceDescriptor s (.device dev) 8).Inv (· = dev) [] := by
    rw [hsent]
    exact doControlTransfer_inv (h.same hsame) hep _ _ _ (fun hl => absurd rfl hl)
  generalize hn : requestDeviceDescriptor s (.device dev) 8 = n at hask hasked
  have hdevice : n.device = m.device := by rw [hask]; rfl
  have hcalls : n.requester (.device dev) = some dev := by
    rw [hask]
    unfold requester
    rw [setRequest_self]
    exact hep
  have hrun : hubPeekDeviceDescriptor s (.device dev) = checkDelayedResets n dev := by
    unfold hubPeekDeviceDescriptor
    dsimp only
    rw [hn, hcalls]
  have honly' : ∀ d, (n.device d).resetFlag = true → d = dev := by
    intro d hd
    rw [hdevice, hsame.flag] at hd
    exact honly d hd
  obtain ⟨hinv, hpassed⟩ := checkDelayedResets_inv hasked.core rfl honly'
  have hnstatus : (n.device dev).deviceStatus = .ready := by
    rw [hdevice, hsame.status]
    exact hstatus
  have hwait : (n.device dev).deviceStatus ≠ .resetDelayed := by rw [hnstatus]; simp
  have hntimer : ((checkDelayedResets n dev).device dev).timer = none := by
    rw [hpassed.timer dev hwait, hdevice, hsame.timer]
    exact htimer
  rw [hrun]
  refine ⟨hinv.core.tighten ⟨fun _ _ => ⟨?_, hntimer, .inr ⟨.inl ?_, ?_⟩⟩, ?_, ?_⟩ (by simp), hinv.served⟩
  · unfold requester at hcalls ⊢
    rw [hpassed.request, hpassed.endpoint]
    exact hcalls
  · rw [hpassed.request, hask, setRequest_self]
  · rw [hpassed.status dev hwait]
    exact hnstatus
  · intro t ht
    rw [hntimer] at ht
    simp at ht
  · rw [hpassed.flag dev hwait]
    simp [Device.Addressing, hpassed.status dev hwait, hnstatus, hntimer]

/-- An expired timer keeps the invariant. -/
theorem timerExpired_inv (h : s.Good) (dev : ℕ) : (timerExpired s dev).Good := by
  unfold timerExpired
  cases htimer : (s.device dev).timer with
  | none => exact h
  | some func =>
    have hsteady := h.core.steady dev not_false
    have hok := hsteady.timer func htimer
    have hdone : (s.device dev).deviceStatus ≠ .notConnected → (s.device dev).deviceStatus ≠ .resetDelayed →
        (s.setDevice dev fun d => { d with timer := none }).Inv (· = dev) [] := by
      intro hconn hwait
      exact h.setDevice _ rfl rfl (fun d hd => by simp [hd]) (fun hl => absurd rfl hl)
        (fun hmem => absurd hmem (h.notMem_free hconn)) id hwait
    cases func with
    | hubResetDevice port =>
      obtain ⟨rfl, hstatus⟩ := hok
      have hinv := hdone (by rw [hstatus]; simp) (by rw [hstatus]; simp)
      refine hubResetDevice_inv hinv.core (fun d hd => by simp [hd]) not_false ⟨by simp, ?_⟩ ?_
        (h.notMem_free (by rw [hstatus]; simp))
      · intro hbusy
        by_contra hcalls
        have hcase := (hsteady.request hbusy hcalls).2.1
        rw [htimer] at hcase
        simp at hcase
      · rw [setDevice_self]
        refine Bool.eq_false_iff.mpr fun hflag => ?_
        have haddr := hsteady.flag.mp hflag
        simp [Device.Addressing, hstatus] at haddr
    | hubSetFuncAddress ep =>
      obtain ⟨hep, hstatus, hdead⟩ := hok
      have hinv := hdone (by rw [hstatus]; simp) (by rw [hstatus]; simp)
      have hflag : (s.device dev).resetFlag = true := hsteady.flag.mpr (.inr (.inl hstatus))
      have hsilent : (s.setDevice dev fun d => { d with timer := none }).Silent dev := ⟨by simp, hdead⟩
      have hok' : (s.setDevice dev fun d => { d with timer := none }).Good :=
        ⟨hinv.core.tighten (hsilent.steady (by simp [hflag, hstatus])) (by simp), hinv.served⟩
      have hrun : hubSetFuncAddress (s.setDevice dev fun d => { d with timer := none }) ep =
          doControlTransfer (s.setDevice dev fun d => { d with timer := none }) ep (.device dev) 0 .nowhere
            .hubSetFuncAddressCB := by
        unfold hubSetFuncAddress
        rw [show ((s.setDevice dev fun d => { d with timer := none }).endpoint ep).correspDevice = some dev
          from hep]
      change (hubSetFuncAddress (s.setDevice dev fun d => { d with timer := none }) ep).Good
      rw [hrun]
      exact doControlTransfer_inv hok' hep 0 .nowhere _
        (fun _ => ⟨by simp, .inl ⟨rfl, by simpa using hstatus⟩⟩)
    | hubPeekDeviceDescriptor req =>
      obtain ⟨rfl, hrequester, hstatus, hidle⟩ := hok
      have hinv := hdone (by rw [hstatus]; simp) (by rw [hstatus]; simp)
      have hflag : (s.device dev).resetFlag = true :=
        hsteady.flag.mpr (.inr (.inr ⟨hstatus, _, htimer⟩))
      refine hubPeekDeviceDescriptor_inv hinv hrequester hidle (by simpa using hstatus) (by simp) ?_
      intro d hd
      refine h.core.unique d dev ?_ hflag
      rcases eq_or_ne d dev with rfl | hne
      · exact hflag
      · rwa [setDevice_other _ _ hne] at hd

/-- A transfer of a device is done and its callback is about to run. -/
structure MemPool.CallsBack (s : MemPool) (dev : ℕ) : Prop where
  requester : s.requester (.device dev) = some dev
  idle : (s.request (.device dev)).busyFlag = false
  timer : (s.device dev).timer = none

theorem MemPool.CallsBack.same (h : s.CallsBack dev) (hs : s.Same s') : s'.CallsBack dev := by
  refine ⟨?_, by rw [hs.request]; exact h.idle, (hs.timer dev).trans h.timer⟩
  unfold MemPool.requester
  rw [hs.endpoint, hs.request]
  exact h.requester

theorem MemPool.CallsBack.silent (h : s.CallsBack dev) : s.Silent dev := .of_idle h.timer h.idle

/-- The answer to an address assignment. -/
theorem hubSetFuncAddressCB_inv (h : s.Good) (hcalls : s.CallsBack dev)
    (hstatus : (s.device dev).deviceStatus = .resetComplete) : (hubSetFuncAddressCB s (.device dev)).Good := by
  have hsteady := h.core.steady dev not_false
  have hflag : (s.device dev).resetFlag = true := hsteady.flag.mpr (.inr (.inl hstatus))
  have hnotfree : dev ∉ s.freeDeviceList := h.notMem_free (by rw [hstatus]; simp)
  unfold hubSetFuncAddressCB
  rw [hcalls.requester]
  dsimp only
  have hsame := s.same_setDevice dev (fun d => { d with functionDelay := d.functionDelay * 2 })
    fun _ => ⟨rfl, rfl, rfl, rfl⟩
  have hcalls' := hcalls.same hsame
  have hnotfree' := hsame.freeDeviceList ▸ hnotfree
  have hstatus' := (hsame.status dev).trans hstatus
  have hflag' := (hsame.flag dev).trans hflag
  split_ifs with hrc hdelay
  · exact addTimerCallback_inv (h.same hsame) hnotfree' hcalls'.silent (by rw [hstatus']; simp)
      (fun _ _ => Iff.rfl) ⟨hcalls.requester, hstatus', hcalls'.silent.request⟩
      ⟨fun _ => .inr (.inl hstatus'), fun _ => hflag'⟩
  · refine killDevice_inv (h.same hsame).core not_false hcalls.requester hcalls'.timer hcalls'.idle
      (by rw [hstatus']; simp) hnotfree' fun d hd => ?_
    rw [hsame.flag] at hd
    exact h.core.unique d dev hd hflag
  · have hcore : (s.setDevice dev fun d => { d with deviceStatus := .ready }).Core (· = dev) [] :=
      h.core.setDevice _ rfl rfl (fun d hd => by simp [hd]) (by simp) (fun hl => absurd rfl hl)
        (fun hmem => absurd hmem hnotfree)
    have hflag'' : ((s.setDevice dev fun d => { d with deviceStatus := .ready }).device dev).resetFlag = true := by
      simpa using hflag
    have hserved : (s.setDevice dev fun d => { d with deviceStatus := .ready }).Served := by
      intro hfalse
      rw [hcore.token.mpr ⟨dev, hflag''⟩] at hfalse
      simp at hfalse
    exact addTimerCallback_inv ⟨hcore, hserved⟩ hnotfree ⟨by simpa using hcalls.timer, hcalls.silent.request⟩
      (by simp) (fun d hd => by simp [hd]) ⟨rfl, hcalls.requester, by simp, hcalls.idle⟩
      (by simp [Device.Addressing, hflag])

theorem killReady_inv (h : s.Good) (hcalls : s.CallsBack dev)
    (hstatus : (s.device dev).deviceStatus = .ready) (hfree : s.delayResets = false) :
    (killDevice s dev (s.request (.device dev)).correspEndpoint).Good := by
  refine killDevice_inv h.core not_false hcalls.requester hcalls.timer hcalls.idle (by rw [hstatus]; simp)
    (h.notMem_free (by rw [hstatus]; simp)) (fun d hd => ?_)
  rw [h.core.token.mpr ⟨d, hd⟩] at hfree
  simp at hfree

theorem openDeviceEndpoint_inv (h : s.Inv loose pending) (tdLeft : Bool) :
    (openDeviceEndpoint s dev tdLeft).2.Inv loose pending := by
  obtain ⟨hcore, hopened, -⟩ := @openDeviceEndpoint_spec loose pending s dev h.core tdLeft
  exact ⟨hcore, hopened.served h.served⟩

/-- Taking a hub buffer is not seen. -/
theorem same_allocHubBuffer (s : MemPool) : s.Same (allocHubBuffer s).2 := by
  unfold allocHubBuffer
  split
  · exact MemPool.Same.refl s
  · rename_i hub rest _
    have hlist := (s.same_hubBufferList rest).trans
      (same_setHub _ hub fun h => { h with desc := Function.update h.desc 1 0 })
    dsimp only
    refine (hlist.trans (same_setRequest _ _ ?_)).trans (same_setRequest _ _ ?_)
    · simp
    · simp

/-- Setting up a hub keeps the invariant. -/
theorem setupHub_inv (h : s.Good) (dev : ℕ) (hubDesc : Option ℕ) (tdLeft : Bool) :
    (setupHub s dev hubDesc tdLeft).2.Good := by
  unfold setupHub
  have halloc := same_allocHubBuffer s
  generalize allocHubBuffer s = r at halloc
  obtain ⟨res, m⟩ := r
  cases res with
  | none => exact h.same halloc
  | some hub =>
    dsimp only at halloc ⊢
    generalize hn : (m.setDevice dev fun d => { d with privDataField := some hub }) = n
    have hsame : m.Same n := by
      rw [← hn]
      exact same_setDevice _ dev _ fun _ => ⟨rfl, rfl, rfl, rfl⟩
    have hgood : (n.setHub hub fun h => { h with controlEp := (n.device dev).endpointList.headD 0 }).Good :=
      (h.same (halloc.trans hsame)).same (n.same_setHub hub _)
    have hopen := @openDeviceEndpoint_inv _ _ _ dev hgood tdLeft
    generalize openDeviceEndpoint (n.setHub hub fun h =>
      { h with controlEp := (n.device dev).endpointList.headD 0 }) dev tdLeft = r at hopen
    obtain ⟨res, n'⟩ := r
    cases res with
    | none =>
      dsimp only
      exact hopen.same (same_freeHubBuffer n' _)
    | some ep =>
      exact hopen.same ((n'.same_setHub hub _).trans (same_hubControlTransfer _ _ _ _ _))

variable (cfg : UsbdConfig)

/-- Connecting a hub keeps the invariant. -/
theorem hubDrvConnect_inv (h : s.Good) (devId : ℕ) (tdLeft : Bool) : (hubDrvConnect cfg s devId tdLeft).2.Good := by
  unfold hubDrvConnect
  dsimp only
  split
  · exact h
  split
  · exact h
  split
  · exact h
  split
  · exact h
  split_ifs
  · exact setupHub_inv h _ _ tdLeft
  · exact h
  · exact h

theorem connectNewDevice_inv (h : s.Good) (dev : ℕ) (tdLeft : Bool) : (connectNewDevice cfg s dev tdLeft).Good := by
  unfold connectNewDevice
  split_ifs
  · refine hubDrvConnect_inv cfg (h.same ?_) dev tdLeft
    exact same_setDevice _ dev _ fun _ => ⟨rfl, rfl, rfl, rfl⟩
  · exact h

/-- The answer to a request for configuration descriptors. -/
theorem fetchConfigDescriptors_inv (h : s.Good) (hcalls : s.CallsBack dev)
    (hstatus : (s.device dev).deviceStatus = .ready) (tdLeft : Bool)
    (halone : (s.request (.device dev)).resultCode = rcOk ∨ (s.device dev).fetchDescriptorCounter = 0 ∨
      s.delayResets = false) :
    (fetchConfigDescriptors cfg s (.device dev) tdLeft).Good := by
  unfold fetchConfigDescriptors
  rw [hcalls.requester]
  dsimp only
  by_cases hrc : (s.request (.device dev)).resultCode = rcOk ∨ (s.device dev).fetchDescriptorCounter = 0
  · rw [if_pos hrc]
    generalize (if 0 < (s.device dev).fetchDescriptorCounter / 2 ∧
      (s.device dev).fetchDescriptorCounter % 2 = 0 then (s.device dev).staticDeviceDescEnd +
        (s.device dev).staticDeviceDesc.uint16 ((s.device dev).staticDeviceDescEnd + 2)
      else (s.device dev).staticDeviceDescEnd) = stop
    generalize (if (s.device dev).fetchDescriptorCounter % 2 = 1 then
      (s.device dev).staticDeviceDesc.uint16 (stop + 2) else 4) = readLen
    generalize hm : (s.setDevice dev fun d =>
      { d with fetchDescriptorCounter := (s.device dev).fetchDescriptorCounter + 1,
               staticDeviceDescEnd := stop }) = m
    have hsame : s.Same m := by
      rw [← hm]
      exact same_setDevice _ dev _ fun _ => ⟨rfl, rfl, rfl, rfl⟩
    have hcalls' := hcalls.same hsame
    split_ifs
    · exact h.same hsame
    · refine doControlTransfer_inv (h.same hsame) ?_ _ _ _
        (fun _ => ⟨hcalls'.timer, .inr ⟨.inr rfl, (hsame.status dev).trans hstatus⟩⟩)
      rw [hsame.endpoint]
      exact hcalls.requester
    · exact connectNewDevice_inv cfg (h.same hsame) dev tdLeft
  · rw [if_neg hrc]
    refine killReady_inv h hcalls hstatus ?_
    rcases halone with hok | hzero | hfree
    · exact absurd (.inl hok) hrc
    · exact absurd (.inr hzero) hrc
    · exact hfree

theorem requestDeviceDescriptor_inv (h : s.Good) (hcalls : s.CallsBack dev)
    (hstatus : (s.device dev).deviceStatus = .ready) (length : ℕ) :
    (requestDeviceDescriptor s (.device dev) length).Good := by
  unfold requestDeviceDescriptor
  rw [hcalls.requester]
  have hsame := s.same_setDevice dev (fun d => { d with staticDeviceDescEnd := 0 }) fun _ => ⟨rfl, rfl, rfl, rfl⟩
  exact doControlTransfer_inv (h.same hsame) (hcalls.same hsame).requester _ _ _
    (fun _ => ⟨(hcalls.same hsame).timer, .inr ⟨.inl rfl, (hsame.status dev).trans hstatus⟩⟩)

/-- The answer to a request for the device descriptor. -/
theorem requestDevDescrptCb_inv (h : s.Good) (hcalls : s.CallsBack dev)
    (hstatus : (s.device dev).deviceStatus = .ready) (tdLeft : Bool)
    (halone : (s.request (.device dev)).resultCode = rcOk ∨ s.delayResets = false) :
    (requestDevDescrptCb cfg s (.device dev) tdLeft).Good := by
  unfold requestDevDescrptCb
  rw [hcalls.requester]
  split_ifs with hrc hshort
  · exact requestDeviceDescriptor_inv h hcalls hstatus _
  · have hsame := s.same_setDevice dev (fun d =>
      { d with fetchDescriptorCounter := 0,
               staticDeviceDescEnd := d.staticDeviceDescEnd + sizeofUsbDeviceDescriptor })
      fun _ => ⟨rfl, rfl, rfl, rfl⟩
    exact fetchConfigDescriptors_inv cfg (h.same hsame) (hcalls.same hsame) ((hsame.status dev).trans hstatus)
      tdLeft (.inl hrc)
  · exact killReady_inv h hcalls hstatus (halone.resolve_left hrc)

end Ps2sdk.Usbd
