import Mathlib.Data.List.Nodup
import Ps2sdk.Usbd.Hub

/-!
# The reset token of the USB host driver

A device answers at the default address from the start of its port reset until it has an address
of its own, so only one port may be reset at a time. `delayResets` is the token for that and
`resetFlag` marks the device that took it. The invariant of this module relates the two to the
status of the devices, and to the timers and transfers that are still going to call back; a
device in the middle of a change is `loose` and is exempt from the conditions on single devices.
-/

namespace Ps2sdk.Usbd

open MemPool

/-- The device is between the start of its port reset and the end of its address assignment. -/
def Device.Addressing (d : Device) : Prop :=
  d.deviceStatus = .resetPending ∨ d.deviceStatus = .resetComplete ∨
    (d.deviceStatus = .ready ∧ ∃ req, d.timer = some (.hubPeekDeviceDescriptor req))

/-- The ports in reach: those of the list, and those of every ready hub in reach. -/
def Ports.Reaches (device : ℕ → Device) (port : ℕ) : Ports → Prop
  | .nil => False
  | .cons dev childList next =>
    port = dev ∨ ((device dev).deviceStatus = .ready ∧ childList.Reaches device port) ∨
      next.Reaches device port

variable (s : MemPool)

/-- At most one device is at the default address, the token is taken exactly while there is one,
and no port in reach waits for a token that nobody holds. -/
structure MemPool.OneAtDefaultAddress : Prop where
  one : ∀ d d', (s.device d).Addressing → (s.device d').Addressing → d = d'
  taken : s.delayResets = true ↔ ∃ d, (s.device d).Addressing
  served : s.delayResets = false →
    ∀ port, s.deviceTree.Reaches s.device port → (s.device port).deviceStatus ≠ .resetDelayed

/-- A busy request of a device calls back about that device, at the status the callback expects. -/
def MemPool.RequestOk (d : ℕ) : Prop :=
  (s.request (.device d)).busyFlag = true → s.requester (.device d) ≠ none →
    s.requester (.device d) = some d ∧ (s.device d).timer = none ∧
      (((s.request (.device d)).callbackProc = .hubSetFuncAddressCB ∧
          (s.device d).deviceStatus = .resetComplete) ∨
        (((s.request (.device d)).callbackProc = .requestDevDescrptCb ∨
            (s.request (.device d)).callbackProc = .fetchConfigDescriptors) ∧
          (s.device d).deviceStatus = .ready))

/-- An active timer of a device calls back about that device, at the status the callback expects. -/
def MemPool.TimerOk (d : ℕ) : TimerCallback → Prop
  | .hubResetDevice dev => dev = d ∧ (s.device d).deviceStatus = .connected
  | .hubSetFuncAddress ep =>
    (s.endpoint ep).correspDevice = some d ∧ (s.device d).deviceStatus = .resetComplete ∧
      ((s.request (.device d)).busyFlag = true → s.requester (.device d) = none)
  | .hubPeekDeviceDescriptor req =>
    req = .device d ∧ s.requester req = some d ∧ (s.device d).deviceStatus = .ready ∧
      (s.request (.device d)).busyFlag = false

/-- The conditions on a single device that is not in the middle of a change. -/
structure MemPool.Steady (d : ℕ) : Prop where
  request : s.RequestOk d
  timer : ∀ t, (s.device d).timer = some t → s.TimerOk d t
  flag : (s.device d).resetFlag = true ↔ (s.device d).Addressing

/-- The lists of endpoints agree with the devices the endpoints name. -/
structure MemPool.EndpointsOk : Prop where
  nodup : s.freeEpList.Nodup
  free : ∀ ep ∈ s.freeEpList, (s.endpoint ep).correspDevice = none ∧ (s.endpoint ep).timerActive = false ∧
    ∀ d, (s.request (.device d)).busyFlag = true → (s.request (.device d)).correspEndpoint ≠ ep
  removed : ∀ ep, (s.endpoint ep).timerActive = true → (s.endpoint ep).correspDevice = none
  owned : ∀ d, ∀ ep ∈ (s.device d).endpointList, (s.endpoint ep).correspDevice = some d

/-- Every device is in one place, and the free ones are not connected; `pending` are devices
that have left the tree and are still to be freed. -/
structure MemPool.TreeOk (pending : List ℕ) (s : MemPool) : Prop where
  nodup : (pending ++ (s.freeDeviceList ++ s.deviceTree.devices)).Nodup
  free : ∀ d ∈ s.freeDeviceList,
    (s.device d).deviceStatus = .notConnected ∧ (s.device d).resetFlag = false

variable (loose : ℕ → Prop)

/-- The invariant of the driver but for the ports that wait for the token, with the devices in
the middle of a change. -/
structure MemPool.Core (pending : List ℕ) (s : MemPool) : Prop where
  unique : ∀ d d', (s.device d).resetFlag = true → (s.device d').resetFlag = true → d = d'
  token : s.delayResets = true ↔ ∃ d, (s.device d).resetFlag = true
  notDelayed : ∀ d, loose d → (s.device d).deviceStatus ≠ .resetDelayed
  steady : ∀ d, ¬ loose d → s.Steady d
  endpoints : s.EndpointsOk
  tree : s.TreeOk pending

/-- No port in reach waits for a token that nobody holds. -/
def MemPool.Served : Prop :=
  s.delayResets = false →
    ∀ port, s.deviceTree.Reaches s.device port → (s.device port).deviceStatus ≠ .resetDelayed

/-- The invariant of the driver. -/
structure MemPool.Inv (pending : List ℕ) (s : MemPool) : Prop where
  core : s.Core loose pending
  served : s.Served

variable {s s' : MemPool} {d : ℕ} {req : ReqId}

theorem MemPool.Inv.oneAtDefaultAddress (h : s.Inv (fun _ => False) []) : s.OneAtDefaultAddress := by
  have hflag : ∀ d, (s.device d).resetFlag = true ↔ (s.device d).Addressing :=
    fun d => (h.core.steady d not_false).flag
  refine ⟨fun d d' hd hd' => h.core.unique d d' ((hflag d).mpr hd) ((hflag d').mpr hd'), ?_, h.served⟩
  rw [h.core.token]
  exact exists_congr hflag

/-- Changes that the invariant does not see. -/
structure MemPool.Same (s s' : MemPool) : Prop where
  status : ∀ d, (s'.device d).deviceStatus = (s.device d).deviceStatus
  flag : ∀ d, (s'.device d).resetFlag = (s.device d).resetFlag
  timer : ∀ d, (s'.device d).timer = (s.device d).timer
  endpointList : ∀ d, (s'.device d).endpointList = (s.device d).endpointList
  request : ∀ d, s'.request (.device d) = s.request (.device d)
  endpoint : s'.endpoint = s.endpoint
  freeEpList : s'.freeEpList = s.freeEpList
  deviceTree : s'.deviceTree = s.deviceTree
  freeDeviceList : s'.freeDeviceList = s.freeDeviceList
  delayResets : s'.delayResets = s.delayResets

theorem MemPool.Same.refl (s : MemPool) : s.Same s :=
  ⟨fun _ => rfl, fun _ => rfl, fun _ => rfl, fun _ => rfl, fun _ => rfl, rfl, rfl, rfl, rfl, rfl⟩

/-- One such change after another. -/
theorem MemPool.Same.trans {s'' : MemPool} (h : s.Same s') (h' : s'.Same s'') : s.Same s'' where
  status d := (h'.status d).trans (h.status d)
  flag d := (h'.flag d).trans (h.flag d)
  timer d := (h'.timer d).trans (h.timer d)
  endpointList d := (h'.endpointList d).trans (h.endpointList d)
  request d := (h'.request d).trans (h.request d)
  endpoint := h'.endpoint.trans h.endpoint
  freeEpList := h'.freeEpList.trans h.freeEpList
  deviceTree := h'.deviceTree.trans h.deviceTree
  freeDeviceList := h'.freeDeviceList.trans h.freeDeviceList
  delayResets := h'.delayResets.trans h.delayResets

/-- The ports in reach depend on the ready devices only. -/
theorem Ports.Reaches.mono {device device' : ℕ → Device}
    (h : ∀ d, (device' d).deviceStatus = .ready → (device d).deviceStatus = .ready) {port : ℕ}
    {ports : Ports} (hreach : ports.Reaches device' port) : ports.Reaches device port := by
  induction ports with
  | nil => exact hreach
  | cons dev childList next ihchild ihnext =>
    rcases hreach with rfl | ⟨hready, hchild⟩ | hnext
    · exact .inl rfl
    · exact .inr (.inl ⟨h dev hready, ihchild hchild⟩)
    · exact .inr (.inr (ihnext hnext))

/-- Ports keep being served when no device becomes ready or starts to wait. -/
theorem MemPool.Served.mono (h : s.Served) (htoken : s'.delayResets = s.delayResets)
    (htree : s'.deviceTree = s.deviceTree)
    (hready : ∀ d, (s'.device d).deviceStatus = .ready → (s.device d).deviceStatus = .ready)
    (hdelayed : ∀ d, (s'.device d).deviceStatus = .resetDelayed →
      (s.device d).deviceStatus = .resetDelayed) : s'.Served := by
  intro hfree port hreach hport
  rw [htoken] at hfree
  rw [htree] at hreach
  exact h hfree port (hreach.mono hready) (hdelayed port hport)

/-- A device stays steady when its own fields stay, it keeps its endpoints, and the endpoint of a
request that calls nobody back is not given to a device. -/
theorem MemPool.Steady.congr (h : s.Steady d) (hstatus : (s'.device d).deviceStatus = (s.device d).deviceStatus)
    (hflag : (s'.device d).resetFlag = (s.device d).resetFlag) (htimer : (s'.device d).timer = (s.device d).timer)
    (hrequest : s'.request (.device d) = s.request (.device d))
    (howned : ∀ ep, (s.endpoint ep).correspDevice = some d → (s'.endpoint ep).correspDevice = some d)
    (hdead : (s.request (.device d)).busyFlag = true → s.requester (.device d) = none →
      s'.requester (.device d) = none) : s'.Steady d := by
  have hrequester : s.requester (.device d) = some d → s'.requester (.device d) = some d := by
    intro hr
    unfold requester at hr ⊢
    rw [hrequest]
    exact howned _ hr
  refine ⟨?_, ?_, ?_⟩
  · intro hbusy hcalls
    rw [hrequest] at hbusy
    have hcalls' : s.requester (.device d) ≠ none := fun hnone => hcalls (hdead hbusy hnone)
    obtain ⟨hr, ht, hcase⟩ := h.request hbusy hcalls'
    rw [htimer, hrequest, hstatus]
    exact ⟨hrequester hr, ht, hcase⟩
  · intro t ht
    rw [htimer] at ht
    have hok := h.timer t ht
    cases t with
    | hubResetDevice dev => exact ⟨hok.1, hstatus.trans hok.2⟩
    | hubSetFuncAddress ep =>
      refine ⟨howned ep hok.1, hstatus.trans hok.2.1, fun hbusy => ?_⟩
      rw [hrequest] at hbusy
      exact hdead hbusy (hok.2.2 hbusy)
    | hubPeekDeviceDescriptor req =>
      obtain ⟨rfl, hr, hs, hb⟩ := hok
      exact ⟨rfl, hrequester hr, hstatus.trans hs, by rw [hrequest]; exact hb⟩
  · unfold Device.Addressing
    rw [hflag, hstatus, htimer]
    exact h.flag

/-- A steady device stays steady when the endpoints stay too. -/
theorem MemPool.Steady.congr_device (h : s.Steady d)
    (hstatus : (s'.device d).deviceStatus = (s.device d).deviceStatus)
    (hflag : (s'.device d).resetFlag = (s.device d).resetFlag) (htimer : (s'.device d).timer = (s.device d).timer)
    (hrequest : s'.request (.device d) = s.request (.device d)) (hendpoint : s'.endpoint = s.endpoint) :
    s'.Steady d := by
  refine h.congr hstatus hflag htimer hrequest (fun ep hep => by rw [hendpoint]; exact hep) ?_
  intro _ hnone
  unfold requester at hnone ⊢
  rw [hrequest, hendpoint]
  exact hnone

/-- The conditions on endpoints do not read the other fields. -/
theorem MemPool.EndpointsOk.congr (h : s.EndpointsOk)
    (hrequest : ∀ d, s'.request (.device d) = s.request (.device d)) (hendpoint : s'.endpoint = s.endpoint)
    (hlist : ∀ d, (s'.device d).endpointList = (s.device d).endpointList)
    (hfree : s'.freeEpList = s.freeEpList) : s'.EndpointsOk := by
  refine ⟨by rw [hfree]; exact h.nodup, ?_, ?_, ?_⟩
  · intro ep hep
    rw [hfree] at hep
    simp only [hendpoint, hrequest]
    exact h.free ep hep
  · rw [hendpoint]
    exact h.removed
  · intro d ep hep
    rw [hlist] at hep
    rw [hendpoint]
    exact h.owned d ep hep

/-- The invariant survives changes it does not see. -/
theorem MemPool.Core.same {loose : ℕ → Prop} {pending : List ℕ} (h : s.Core loose pending)
    (hs : s.Same s') : s'.Core loose pending where
  unique d d' := by rw [hs.flag, hs.flag]; exact h.unique d d'
  token := by simp only [hs.delayResets, hs.flag]; exact h.token
  notDelayed d := by rw [hs.status]; exact h.notDelayed d
  steady d hd := (h.steady d hd).congr_device (hs.status d) (hs.flag d) (hs.timer d) (hs.request d) hs.endpoint
  endpoints := h.endpoints.congr hs.request hs.endpoint hs.endpointList hs.freeEpList
  tree := by
    refine ⟨by rw [hs.freeDeviceList, hs.deviceTree]; exact h.tree.nodup, fun d hd => ?_⟩
    rw [hs.freeDeviceList] at hd
    rw [hs.status, hs.flag]
    exact h.tree.free d hd

theorem MemPool.Inv.same {loose : ℕ → Prop} {pending : List ℕ} (h : s.Inv loose pending)
    (hs : s.Same s') : s'.Inv loose pending := by
  refine ⟨h.core.same hs, h.served.mono hs.delayResets hs.deviceTree ?_ ?_⟩
  · intro d hd
    rwa [hs.status] at hd
  · intro d hd
    rwa [hs.status] at hd

@[simp] theorem MemPool.setDevice_self (s : MemPool) (dev : ℕ) (f : Device → Device) :
    (s.setDevice dev f).device dev = f (s.device dev) := by
  simp [setDevice]

theorem MemPool.setDevice_other (s : MemPool) {dev : ℕ} (f : Device → Device) (h : d ≠ dev) :
    (s.setDevice dev f).device d = s.device d := by
  simp [setDevice, h]

@[simp] theorem MemPool.setRequest_self (s : MemPool) (req : ReqId) (f : IoRequest → IoRequest) :
    (s.setRequest req f).request req = f (s.request req) := by
  simp [setRequest]

theorem MemPool.setRequest_other (s : MemPool) {r : ReqId} (f : IoRequest → IoRequest) (h : r ≠ req) :
    (s.setRequest req f).request r = s.request r := by
  simp [setRequest, h]

theorem MemPool.setDevice_kept {β : Type} {s : MemPool} {dev : ℕ} {f : Device → Device} (field : Device → β)
    (h : field (f (s.device dev)) = field (s.device dev)) (d : ℕ) :
    field ((s.setDevice dev f).device d) = field (s.device d) := by
  rcases eq_or_ne d dev with rfl | hd
  · rw [setDevice_self, h]
  · rw [s.setDevice_other f hd]

/-- The status, flag and timer of some devices are kept. -/
def MemPool.Keeps (kept : ℕ → Prop) (s s' : MemPool) : Prop :=
  ∀ d, kept d → (s'.device d).deviceStatus = (s.device d).deviceStatus ∧
    (s'.device d).resetFlag = (s.device d).resetFlag ∧ (s'.device d).timer = (s.device d).timer

theorem MemPool.Keeps.trans {kept : ℕ → Prop} {s s' s'' : MemPool} (h : s.Keeps kept s')
    (h' : s'.Keeps kept s'') : s.Keeps kept s'' := fun d hd =>
  ⟨(h' d hd).1.trans (h d hd).1, (h' d hd).2.1.trans (h d hd).2.1, (h' d hd).2.2.trans (h d hd).2.2⟩

variable (s)

theorem MemPool.keeps_setEndpointList (dev : ℕ) (list : List ℕ → List ℕ) :
    s.Keeps (fun _ => True) (s.setDevice dev fun d => { d with endpointList := list d.endpointList }) :=
  fun d _ => ⟨setDevice_kept Device.deviceStatus rfl d, setDevice_kept Device.resetFlag rfl d,
    setDevice_kept Device.timer rfl d⟩

theorem MemPool.same_setDevice (dev : ℕ) (f : Device → Device)
    (h : ∀ d, (f d).deviceStatus = d.deviceStatus ∧ (f d).resetFlag = d.resetFlag ∧ (f d).timer = d.timer ∧
      (f d).endpointList = d.endpointList) : s.Same (s.setDevice dev f) :=
  ⟨setDevice_kept _ (h _).1, setDevice_kept _ (h _).2.1, setDevice_kept _ (h _).2.2.1,
    setDevice_kept _ (h _).2.2.2, fun _ => rfl, rfl, rfl, rfl, rfl, rfl⟩

variable (hub : ℕ)

theorem MemPool.same_setHub (f : UsbHub → UsbHub) : s.Same (s.setHub hub f) :=
  ⟨fun _ => rfl, fun _ => rfl, fun _ => rfl, fun _ => rfl, fun _ => rfl, rfl, rfl, rfl, rfl, rfl⟩

theorem MemPool.same_hubBufferList (list : List ℕ) : s.Same { s with hubBufferList := list } :=
  ⟨fun _ => rfl, fun _ => rfl, fun _ => rfl, fun _ => rfl, fun _ => rfl, rfl, rfl, rfl, rfl, rfl⟩

theorem MemPool.same_setRequest (f : IoRequest → IoRequest)
    (h : ∀ d, .device d ≠ req) : s.Same (s.setRequest req f) :=
  ⟨fun _ => rfl, fun _ => rfl, fun _ => rfl, fun _ => rfl,
    fun d => setRequest_other s f (h d), rfl, rfl, rfl, rfl, rfl⟩

theorem same_attachIoReqToEndpoint (ep : ℕ) (destPtr : Dest) (length : ℕ)
    (callback : InternCallback) (h : ∀ d, .device d ≠ req) :
    s.Same (attachIoReqToEndpoint s ep req destPtr length callback) := by
  unfold attachIoReqToEndpoint
  split_ifs
  · exact MemPool.Same.refl s
  · exact MemPool.Same.refl s
  · exact s.same_setRequest _ h

theorem same_hubControlTransfer (hub length : ℕ) (destData : Dest)
    (callback : InternCallback) : s.Same (hubControlTransfer s hub length destData callback) := by
  unfold hubControlTransfer doControlTransfer
  split_ifs
  · exact MemPool.Same.refl s
  · exact same_attachIoReqToEndpoint s _ _ _ _ (by simp)

theorem same_getHubStatusChange : s.Same (getHubStatusChange s hub) := by
  unfold getHubStatusChange
  split_ifs
  · exact MemPool.Same.refl s
  · exact same_attachIoReqToEndpoint s _ _ _ _ (by simp)

theorem same_requestPortStatus (hub port : ℕ) : s.Same (requestPortStatus s hub port) :=
  (s.same_setHub hub _).trans (same_hubControlTransfer _ _ _ _ _)

/-- The search for a changed port is not seen. -/
theorem same_hubStatusChangeCallback : s.Same (hubStatusChangeCallback s hub) := by
  unfold hubStatusChangeCallback
  dsimp only
  split_ifs
  · exact (s.same_setHub hub _).trans (same_hubControlTransfer _ _ _ _ _)
  · exact same_requestPortStatus s hub _
  · exact same_getHubStatusChange s hub
  · split
    · exact same_requestPortStatus s hub _
    · exact same_getHubStatusChange s hub
  · exact MemPool.Same.refl s

theorem same_hubGetHubStatusCallback : s.Same (hubGetHubStatusCallback s hub) := by
  unfold hubGetHubStatusCallback
  split_ifs
  · exact (s.same_setHub hub _).trans (same_hubControlTransfer _ _ _ _ _)
  · exact (s.same_setHub hub _).trans (same_hubControlTransfer _ _ _ _ _)
  · exact same_hubStatusChangeCallback s hub
  · exact MemPool.Same.refl s

theorem same_hubDeviceResetCallback : s.Same (hubDeviceResetCallback s hub) := by
  unfold hubDeviceResetCallback
  split_ifs
  · exact same_getHubStatusChange s hub
  · exact MemPool.Same.refl s

theorem same_hubSetPortPower : s.Same (hubSetPortPower s hub) := by
  unfold hubSetPortPower
  dsimp only
  split_ifs
  · exact (s.same_setHub hub _).trans (same_hubControlTransfer _ _ _ _ _)
  · exact (s.same_setHub hub _).trans (same_getHubStatusChange _ _)
  · exact MemPool.Same.refl s

theorem same_hubCheckPorts (cfg : UsbdConfig) (s : MemPool) (hub : ℕ) : s.Same (hubCheckPorts cfg s hub) := by
  unfold hubCheckPorts
  split_ifs
  · exact same_hubControlTransfer s _ _ _ _
  · exact MemPool.Same.refl s

theorem same_hubCheckDeviceDesc (cfg : UsbdConfig) (s : MemPool) (hub : ℕ) :
    s.Same (hubCheckDeviceDesc cfg s hub) := by
  unfold hubCheckDeviceDesc
  split_ifs
  · exact same_hubCheckPorts cfg s hub
  · exact same_hubControlTransfer s _ _ _ _
  · exact MemPool.Same.refl s

/-- The data of a transfer is not seen. -/
theorem same_receive (r : Result) (dest : Dest) : s.Same (receive s r dest) := by
  unfold receive
  cases dest with
  | nowhere => exact MemPool.Same.refl s
  | descriptor dev offset => exact s.same_setDevice dev _ fun _ => ⟨rfl, rfl, rfl, rfl⟩
  | hubStatus hub => apply same_setHub
  | portStatusChange hub => apply same_setHub
  | hubDesc hub => apply same_setHub
  | statusChangeInfo hub => apply same_setHub

end Ps2sdk.Usbd
