import Ps2sdk.Usbd.Token

/-!
# What the driver does to its reset token

One lemma for each way a routine changes the devices, the requests and the endpoints, and from
them that resetting a port, passing on the token and flushing a port keep the invariant.
-/

namespace Ps2sdk.Usbd

open List Option MemPool Bool

variable {loose loose' : ℕ → Prop} {pending : List ℕ} {s s' : MemPool} {dev : ℕ}

variable (h : s.Core loose pending)

include h

/-- A change of the token and of one device. -/
theorem MemPool.Core.setToken (token : Bool) (f : Device → Device)
    (hunique : ∀ d d', ((s.setDevice dev f).device d).resetFlag = true →
      ((s.setDevice dev f).device d').resetFlag = true → d = d')
    (htoken : token = true ↔ ∃ d, ((s.setDevice dev f).device d).resetFlag = true)
    (hlist : (f (s.device dev)).endpointList = (s.device dev).endpointList)
    (hloose : ∀ d, d ≠ dev → (loose' d ↔ loose d))
    (hdelayed : loose' dev → (f (s.device dev)).deviceStatus ≠ .resetDelayed)
    (hsteady : ¬ loose' dev → (({ s with delayResets := token } : MemPool).setDevice dev f).Steady dev)
    (hfree : dev ∈ s.freeDeviceList →
      (f (s.device dev)).deviceStatus = .notConnected ∧ (f (s.device dev)).resetFlag = false) :
    (({ s with delayResets := token } : MemPool).setDevice dev f).Core loose' pending := by
  have hother : ∀ d, d ≠ dev →
      (({ s with delayResets := token } : MemPool).setDevice dev f).device d = s.device d :=
    fun d hne => setDevice_other _ f hne
  refine ⟨hunique, htoken, ?_, ?_, ?_, ⟨h.tree.nodup, fun d hd => ?_⟩⟩
  · intro d hd
    rcases eq_or_ne d dev with rfl | hne
    · simpa using hdelayed hd
    · rw [hother d hne]
      exact h.notDelayed d ((hloose d hne).mp hd)
  · intro d hd
    rcases eq_or_ne d dev with rfl | hne
    · exact hsteady hd
    · have hold := h.steady d (fun hl => hd ((hloose d hne).mpr hl))
      exact hold.congr_device (by rw [hother d hne]) (by rw [hother d hne]) (by rw [hother d hne]) rfl rfl
  · exact h.endpoints.congr (fun _ => rfl) rfl (setDevice_kept Device.endpointList hlist) rfl
  · rcases eq_or_ne d dev with rfl | hne
    · simpa using hfree hd
    · rw [hother d hne]
      exact h.tree.free d hd

/-- A change of the status and the timer of one device. -/
theorem MemPool.Core.setDevice (f : Device → Device)
    (hflag : (f (s.device dev)).resetFlag = (s.device dev).resetFlag)
    (hlist : (f (s.device dev)).endpointList = (s.device dev).endpointList)
    (hloose : ∀ d, d ≠ dev → (loose' d ↔ loose d))
    (hdelayed : loose' dev → (f (s.device dev)).deviceStatus ≠ .resetDelayed)
    (hsteady : ¬ loose' dev → (s.setDevice dev f).Steady dev)
    (hfree : dev ∈ s.freeDeviceList → (f (s.device dev)).deviceStatus = .notConnected) :
    (s.setDevice dev f).Core loose' pending := by
  have hflags := setDevice_kept Device.resetFlag hflag
  refine h.setToken s.delayResets f ?_ ?_ hlist hloose hdelayed hsteady
    fun hmem => ⟨hfree hmem, hflag.trans (h.tree.free dev hmem).2⟩
  · simpa only [hflags] using h.unique
  · simpa only [hflags] using h.token

/-- A change of the request of one device; a busy request is on an endpoint in use. -/
theorem MemPool.Core.setRequest (f : IoRequest → IoRequest)
    (hsteady : ¬ loose dev → (s.setRequest (.device dev) f).Steady dev)
    (hbusy : (f (s.request (.device dev))).busyFlag = true →
      (f (s.request (.device dev))).correspEndpoint ∉ s.freeEpList) :
    (s.setRequest (.device dev) f).Core loose pending := by
  have hother : ∀ d, d ≠ dev → (s.setRequest (.device dev) f).request (.device d) = s.request (.device d) :=
    fun d hd => s.setRequest_other f (by simpa using hd)
  refine ⟨h.unique, h.token, h.notDelayed, ?_, ?_, ⟨h.tree.nodup, h.tree.free⟩⟩
  · intro d hd
    rcases eq_or_ne d dev with rfl | hne
    · exact hsteady hd
    · exact (h.steady d hd).congr_device rfl rfl rfl (hother d hne) rfl
  · refine ⟨h.endpoints.nodup, fun ep hep => ?_, h.endpoints.removed, h.endpoints.owned⟩
    obtain ⟨hnone, hactive, hreq⟩ := h.endpoints.free ep hep
    refine ⟨hnone, hactive, fun d hd => ?_⟩
    rcases eq_or_ne d dev with rfl | hne
    · rw [setRequest_self] at hd ⊢
      rintro rfl
      exact hbusy hd hep
    · rw [hother d hne] at hd ⊢
      exact hreq d hd

/-- Devices that are not loose may be regarded as loose while they change. -/
theorem MemPool.Core.loosen (hstatus : (s.device dev).deviceStatus ≠ .resetDelayed)
    (hloose : ∀ d, loose' d ↔ loose d ∨ d = dev) : s.Core loose' pending where
  unique := h.unique
  token := h.token
  notDelayed d hd := by
    rcases (hloose d).mp hd with hd | rfl
    · exact h.notDelayed d hd
    · exact hstatus
  steady d hd := h.steady d (fun hl => hd ((hloose d).mpr (.inl hl)))
  endpoints := h.endpoints
  tree := h.tree

omit h

/-- A device that is steady again is no longer loose. -/
theorem MemPool.Core.tighten (h : s.Core loose' pending) (hsteady : s.Steady dev)
    (hloose : ∀ d, loose' d ↔ loose d ∨ d = dev) : s.Core loose pending where
  unique := h.unique
  token := h.token
  notDelayed d hd := h.notDelayed d ((hloose d).mpr (.inl hd))
  steady d hd := by
    rcases eq_or_ne d dev with rfl | hne
    · exact hsteady
    · exact h.steady d (fun hl => ((hloose d).mp hl).elim hd hne)
  endpoints := h.endpoints
  tree := h.tree

/-- A change of the endpoints that leaves every steady device its own, and gives none of those
that call nobody back to a device. -/
theorem MemPool.Core.setEndpoints (h : s.Core loose pending)
    (hkey : s.Keeps (fun _ => True) s') (hrequest : ∀ d, s'.request (.device d) = s.request (.device d))
    (htoken : s'.delayResets = s.delayResets) (htree : s'.deviceTree = s.deviceTree)
    (hfree : s'.freeDeviceList = s.freeDeviceList) (hends : s'.EndpointsOk)
    (howned : ∀ d, ¬ loose d → ∀ ep, (s.endpoint ep).correspDevice = some d →
      (s'.endpoint ep).correspDevice = some d)
    (hdead : ∀ d, (s.request (.device d)).busyFlag = true →
      (s.endpoint (s.request (.device d)).correspEndpoint).correspDevice = none →
      (s'.endpoint (s.request (.device d)).correspEndpoint).correspDevice = none) :
    s'.Core loose pending := by
  have hflags : ∀ d, (s'.device d).resetFlag = (s.device d).resetFlag := fun d => (hkey d trivial).2.1
  refine ⟨?_, ?_, ?_, ?_, hends, ⟨by rw [hfree, htree]; exact h.tree.nodup, ?_⟩⟩
  · simpa only [hflags] using h.unique
  · simpa only [htoken, hflags] using h.token
  · intro d hd
    rw [(hkey d trivial).1]
    exact h.notDelayed d hd
  · intro d hd
    obtain ⟨hstatus, hflag, htimer⟩ := hkey d trivial
    refine (h.steady d hd).congr hstatus hflag htimer (hrequest d) (howned d hd) ?_
    intro hbusy hnone
    unfold requester
    rw [hrequest]
    exact hdead d hbusy hnone
  · intro d hd
    rw [hfree] at hd
    rw [(hkey d trivial).1, hflags]
    exact h.tree.free d hd

theorem keeps_removeEndpoint (dev : ℕ) (s : MemPool) (ep : ℕ) :
    s.Keeps (fun _ => True) (removeEndpointFromDevice dev s ep) :=
  s.keeps_setEndpointList dev (·.filter (· ≠ ep))

/-- Removing an endpoint from a device in the middle of a change; removing it twice is harmless. -/
theorem MemPool.Core.removeEndpoint (h : s.Core loose pending) (hloose : loose dev) {ep : ℕ}
    (hep : (s.endpoint ep).correspDevice = some dev ∨
      s.endpoint ep = { correspDevice := none, timerActive := true }) :
    (removeEndpointFromDevice dev s ep).Core loose pending := by
  have hdevice : ∀ d, d ≠ dev → (removeEndpointFromDevice dev s ep).device d = s.device d := by
    intro d hd
    simp [removeEndpointFromDevice, MemPool.setEndpoint, MemPool.setDevice, hd]
  have hends : ∀ e, e ≠ ep → (removeEndpointFromDevice dev s ep).endpoint e = s.endpoint e := by
    intro e he
    simp [removeEndpointFromDevice, MemPool.setEndpoint, MemPool.setDevice, he]
  have hgone : (removeEndpointFromDevice dev s ep).endpoint ep =
      { correspDevice := none, timerActive := true } := by
    simp [removeEndpointFromDevice, MemPool.setEndpoint]
  have howner : ∀ d, (s.endpoint ep).correspDevice = some d → d = dev := by
    intro d hd
    rcases hep with hep | hep
    · rw [hep] at hd
      exact (some.inj hd).symm
    · rw [hep] at hd
      simp at hd
  refine h.setEndpoints (keeps_removeEndpoint dev s ep) (fun _ => rfl) rfl rfl rfl
    ⟨h.endpoints.nodup, ?_, ?_, ?_⟩ ?_ ?_
  · intro e he
    have hne : e ≠ ep := by
      rintro rfl
      obtain ⟨hnone, hactive, -⟩ := h.endpoints.free e he
      rcases hep with hep | hep
      · rw [hep] at hnone
        simp at hnone
      · rw [hep] at hactive
        simp at hactive
    rw [hends e hne]
    exact h.endpoints.free e he
  · intro e he
    rcases eq_or_ne e ep with rfl | hne
    · rw [hgone]
    · rw [hends e hne] at he ⊢
      exact h.endpoints.removed e he
  · intro d e he
    have hmem : e ∈ (s.device d).endpointList ∧ e ≠ ep := by
      rcases eq_or_ne d dev with rfl | hd
      · simpa [removeEndpointFromDevice, setEndpoint] using he
      · rw [hdevice d hd] at he
        refine ⟨he, ?_⟩
        rintro rfl
        exact hd (howner d (h.endpoints.owned d e he))
    rw [hends e hmem.2]
    exact h.endpoints.owned d e hmem.1
  · intro d hd e he
    rcases eq_or_ne e ep with rfl | hne
    · exact absurd (howner d he ▸ hloose) hd
    · rw [hends e hne]
      exact he
  · intro d _ hnone
    rcases eq_or_ne (s.request (.device d)).correspEndpoint ep with he | he
    · rw [he, hgone]
    · rw [hends _ he]
      exact hnone

/-- The first free endpoint is given to a device. -/
def MemPool.takeEndpoint (s : MemPool) (dev ep : ℕ) (rest : List ℕ) : MemPool :=
  (({ s with freeEpList := rest } : MemPool).setEndpoint ep fun e => { e with correspDevice := some dev }).setDevice
    dev fun d => { d with endpointList := d.endpointList ++ [ep] }

theorem MemPool.keeps_takeEndpoint (s : MemPool) (dev ep : ℕ) (rest : List ℕ) :
    s.Keeps (fun _ => True) (s.takeEndpoint dev ep rest) :=
  keeps_setEndpointList _ dev (· ++ [ep])

theorem MemPool.keeps_returnEndpoint (s : MemPool) (dev ep : ℕ) (rest : List ℕ) :
    s.Keeps (fun _ => True) (cleanUpFunc (s.takeEndpoint dev ep rest) dev ep) :=
  (s.keeps_takeEndpoint dev ep rest).trans (keeps_setEndpointList _ dev (·.filter (· ≠ ep)))

/-- Taking the first free endpoint for a device. -/
theorem MemPool.Core.takeEndpoint (h : s.Core loose pending) {ep : ℕ} {rest : List ℕ}
    (hfree : s.freeEpList = ep :: rest) : (s.takeEndpoint dev ep rest).Core loose pending := by
  obtain ⟨hnone, hactive, hreq⟩ := h.endpoints.free ep (by simp [hfree])
  have hnodup := h.endpoints.nodup
  rw [hfree, nodup_cons] at hnodup
  have hends : ∀ e, e ≠ ep → (s.takeEndpoint dev ep rest).endpoint e = s.endpoint e := by
    intro e he
    simp [MemPool.takeEndpoint, MemPool.setEndpoint, MemPool.setDevice, he]
  have hself : (s.takeEndpoint dev ep rest).endpoint ep = { s.endpoint ep with correspDevice := some dev } := by
    simp [MemPool.takeEndpoint, MemPool.setEndpoint, MemPool.setDevice]
  have hne : ∀ e, (s.endpoint e).correspDevice ≠ none → e ≠ ep := by
    rintro e he rfl
    exact he hnone
  refine h.setEndpoints (s.keeps_takeEndpoint dev ep rest) (fun _ => rfl) rfl rfl rfl ⟨hnodup.2, ?_, ?_, ?_⟩ ?_ ?_
  · intro e he
    replace he : e ∈ rest := he
    have hee : e ≠ ep := fun heq => hnodup.1 (heq ▸ he)
    rw [hends e hee]
    exact h.endpoints.free e (by simp [hfree, he])
  · intro e he
    rcases eq_or_ne e ep with rfl | hee
    · rw [hself] at he
      rw [show (s.endpoint e).timerActive = true from he] at hactive
      simp at hactive
    · rw [hends e hee] at he ⊢
      exact h.endpoints.removed e he
  · intro d e he
    have hcases : e ∈ (s.device d).endpointList ∨ (d = dev ∧ e = ep) := by
      rcases eq_or_ne d dev with rfl | hd
      · simpa [MemPool.takeEndpoint, MemPool.setEndpoint] using he
      · rw [MemPool.takeEndpoint, MemPool.setDevice_other _ _ hd] at he
        exact .inl he
    rcases hcases with hmem | ⟨rfl, rfl⟩
    · have howned := h.endpoints.owned d e hmem
      rw [hends e (hne e (by rw [howned]; simp))]
      exact howned
    · rw [hself]
  · intro d _ e he
    rw [hends e (hne e (by rw [he]; simp))]
    exact he
  · intro d hbusy hdead
    rw [hends _ (hreq d hbusy)]
    exact hdead

/-- An endpoint that was taken in vain is free again. -/
theorem MemPool.Core.returnEndpoint (h : s.Core loose pending) {ep : ℕ} {rest : List ℕ}
    (hfree : s.freeEpList = ep :: rest) : (cleanUpFunc (s.takeEndpoint dev ep rest) dev ep).Core loose pending := by
  obtain ⟨hnone, hactive, hreq⟩ := h.endpoints.free ep (by simp [hfree])
  have hperm : (rest ++ [ep]).Perm (ep :: rest) := perm_append_singleton ep rest
  rw [← hfree] at hperm
  have hend : (cleanUpFunc (s.takeEndpoint dev ep rest) dev ep).endpoint = s.endpoint := by
    funext e
    rcases eq_or_ne e ep with rfl | he
    · simp [cleanUpFunc, MemPool.takeEndpoint, MemPool.setEndpoint, MemPool.setDevice, ← hnone]
    · simp [cleanUpFunc, MemPool.takeEndpoint, MemPool.setEndpoint, MemPool.setDevice, he]
  refine h.setEndpoints (s.keeps_returnEndpoint dev ep rest) (fun _ => rfl) rfl rfl rfl
    ⟨hperm.nodup_iff.mpr h.endpoints.nodup, ?_, ?_, ?_⟩ ?_ ?_
  · intro e he
    rw [hend]
    exact h.endpoints.free e (hperm.mem_iff.mp he)
  · rw [hend]
    exact h.endpoints.removed
  · intro d e he
    rw [hend]
    apply h.endpoints.owned d e
    rcases eq_or_ne d dev with rfl | hd
    · have he' : e ∈ (s.device d).endpointList ∧ ¬ e = ep := by
        simpa [cleanUpFunc, MemPool.takeEndpoint, MemPool.setEndpoint] using he
      exact he'.1
    · simpa [cleanUpFunc, MemPool.takeEndpoint, MemPool.setDevice_other, hd, MemPool.setEndpoint] using he
  · intro d _ e he
    rw [hend]
    exact he
  · intro d _ hdead
    rw [hend]
    exact hdead

/-- What opening an endpoint leaves alone. -/
structure MemPool.Opened (s s' : MemPool) : Prop where
  status : ∀ d, (s'.device d).deviceStatus = (s.device d).deviceStatus
  flag : ∀ d, (s'.device d).resetFlag = (s.device d).resetFlag
  timer : ∀ d, (s'.device d).timer = (s.device d).timer
  request : ∀ d, s'.request (.device d) = s.request (.device d)
  deviceTree : s'.deviceTree = s.deviceTree
  freeDeviceList : s'.freeDeviceList = s.freeDeviceList
  delayResets : s'.delayResets = s.delayResets
  dead : ∀ d, (s.request (.device d)).busyFlag = true → s.requester (.device d) = none →
    s'.requester (.device d) = none

/-- Opening an endpoint keeps the invariant; one that was opened is in the list of its device. -/
theorem openDeviceEndpoint_spec (h : s.Core loose pending) (tdLeft : Bool) :
    (openDeviceEndpoint s dev tdLeft).2.Core loose pending ∧
      s.Opened (openDeviceEndpoint s dev tdLeft).2 ∧
      ((openDeviceEndpoint s dev tdLeft).1.isSome →
        ((openDeviceEndpoint s dev tdLeft).2.device dev).endpointList ≠ []) := by
  unfold openDeviceEndpoint
  split
  · exact ⟨h, ⟨fun _ => rfl, fun _ => rfl, fun _ => rfl, fun _ => rfl, rfl, rfl, rfl, fun _ _ hd => hd⟩,
      by simp⟩
  · rename_i ep rest hfree
    have hdead : ∀ d, (s.request (.device d)).busyFlag = true → (s.request (.device d)).correspEndpoint ≠ ep :=
      (h.endpoints.free ep (by simp [hfree])).2.2
    have htake := s.keeps_takeEndpoint dev ep rest
    have hreturn := s.keeps_returnEndpoint dev ep rest
    split_ifs
    · refine ⟨h.takeEndpoint hfree, ⟨fun d => (htake d trivial).1, fun d => (htake d trivial).2.1,
        fun d => (htake d trivial).2.2, fun _ => rfl, rfl, rfl, rfl, fun d hbusy hnone => ?_⟩, by simp⟩
      simpa [requester, setEndpoint, setDevice, hdead d hbusy] using hnone
    · refine ⟨h.returnEndpoint hfree, ⟨fun d => (hreturn d trivial).1, fun d => (hreturn d trivial).2.1,
        fun d => (hreturn d trivial).2.2, fun _ => rfl, rfl, rfl, rfl, fun d hbusy hnone => ?_⟩, by simp⟩
      simpa [requester, cleanUpFunc, setEndpoint, setDevice, hdead d hbusy]
        using hnone

/-- A device whose request has stopped is still steady. -/
theorem MemPool.Steady.stop {d : ℕ} (h : s.Steady d) (hdevice : s'.device d = s.device d)
    (hidle : (s'.request (.device d)).busyFlag = false)
    (hep : (s'.request (.device d)).correspEndpoint = (s.request (.device d)).correspEndpoint)
    (hendpoint : ∀ ep, (s'.endpoint ep).correspDevice = (s.endpoint ep).correspDevice) : s'.Steady d := by
  have hrequester : s'.requester (.device d) = s.requester (.device d) := by
    unfold requester
    rw [hep, hendpoint]
  refine ⟨?_, ?_, by rw [hdevice]; exact h.flag⟩
  · intro hbusy
    rw [hidle] at hbusy
    simp at hbusy
  · intro t ht
    rw [hdevice] at ht
    have hok := h.timer t ht
    cases t with
    | hubResetDevice dev => exact ⟨hok.1, by rw [hdevice]; exact hok.2⟩
    | hubSetFuncAddress ep =>
      refine ⟨by rw [hendpoint]; exact hok.1, by rw [hdevice]; exact hok.2.1, fun hbusy => ?_⟩
      rw [hidle] at hbusy
      simp at hbusy
    | hubPeekDeviceDescriptor req =>
      obtain ⟨rfl, hr, hs, -⟩ := hok
      exact ⟨rfl, hrequester.trans hr, by rw [hdevice]; exact hs, hidle⟩

/-- The timer of a removed endpoint makes the endpoint free. -/
theorem endpointTimerExpired_core (h : s.Core loose pending) (ep : ℕ) :
    (endpointTimerExpired s ep).Core loose pending := by
  unfold endpointTimerExpired
  split_ifs with hactive
  · have hnone := h.endpoints.removed ep hactive
    have hnotfree : ep ∉ s.freeEpList := by
      intro hmem
      rw [(h.endpoints.free ep hmem).2.1] at hactive
      simp at hactive
    let s' := killEndpoint (s.setEndpoint ep fun e => { e with timerActive := false }) ep
    have hends : ∀ e, e ≠ ep → s'.endpoint e = s.endpoint e := by
      intro e he
      simp [s', killEndpoint, setEndpoint, he]
    have hself : s'.endpoint ep = { s.endpoint ep with timerActive := false } := by
      simp [s', killEndpoint, setEndpoint]
    have hcorresp : ∀ e, (s'.endpoint e).correspDevice = (s.endpoint e).correspDevice := by
      intro e
      rcases eq_or_ne e ep with rfl | he
      · rw [hself]
      · rw [hends e he]
    have hrequest : ∀ r, s'.request r =
        if (s.request r).correspEndpoint = ep then { s.request r with busyFlag := false }
        else s.request r := fun _ => rfl
    refine ⟨h.unique, h.token, h.notDelayed, ?_, ⟨?_, ?_, ?_, ?_⟩, ⟨h.tree.nodup, h.tree.free⟩⟩
    · intro d hd
      by_cases hep : (s.request (.device d)).correspEndpoint = ep
      · exact (h.steady d hd).stop rfl (by rw [hrequest, if_pos hep]) (by rw [hrequest, if_pos hep]) hcorresp
      · refine (h.steady d hd).congr rfl rfl rfl (by rw [hrequest, if_neg hep])
          (fun e he => by rw [hcorresp]; exact he) ?_
        intro _ hdead
        unfold requester at hdead ⊢
        rw [hrequest, if_neg hep, hcorresp]
        exact hdead
    · exact nodup_append_comm.mp (nodup_cons.mpr ⟨hnotfree, h.endpoints.nodup⟩)
    · intro e he
      replace he := mem_append.mp he
      rw [mem_singleton] at he
      rw [hcorresp]
      rcases eq_or_ne e ep with rfl | hne
      · refine ⟨hnone, by rw [hself], fun d hbusy heq => ?_⟩
        rw [hrequest] at hbusy heq
        split_ifs at hbusy heq
        contradiction
      · obtain ⟨hfree, hidle, hreq⟩ := h.endpoints.free e (he.resolve_right hne)
        refine ⟨hfree, by rw [hends e hne]; exact hidle, fun d hbusy => ?_⟩
        rw [hrequest] at hbusy ⊢
        split_ifs at hbusy ⊢
        exact hreq d hbusy
    · intro e he
      rw [hcorresp]
      rcases eq_or_ne e ep with rfl | hne
      · exact hnone
      · rw [hends e hne] at he
        exact h.endpoints.removed e he
    · intro d e he
      rw [hcorresp]
      exact h.endpoints.owned d e he
  · exact h

/-- Nothing is going to call back about the device. -/
structure MemPool.Silent (s : MemPool) (d : ℕ) : Prop where
  timer : (s.device d).timer = none
  request : (s.request (.device d)).busyFlag = true → s.requester (.device d) = none

theorem MemPool.Silent.of_idle {d : ℕ} (htimer : (s.device d).timer = none)
    (hidle : (s.request (.device d)).busyFlag = false) : s.Silent d :=
  ⟨htimer, fun hbusy => absurd (hidle.symm.trans hbusy) false_ne_true⟩

/-- A silent device is steady when its flag says whether it is being addressed. -/
theorem MemPool.Silent.steady {d : ℕ} (h : s.Silent d) (hflag : (s.device d).resetFlag = true ↔
      (s.device d).deviceStatus = .resetPending ∨ (s.device d).deviceStatus = .resetComplete) :
    s.Steady d := by
  refine ⟨fun hbusy hcalls => absurd (h.request hbusy) hcalls, ?_, ?_⟩
  · intro t ht
    rw [h.timer] at ht
    simp at ht
  · rw [hflag]
    simp [Device.Addressing, h.timer]

/-- A device that is not there, that waits or whose port is being reset is silent. -/
theorem MemPool.Steady.silent {d : ℕ} (h : s.Steady d)
    (hstatus : (s.device d).deviceStatus = .notConnected ∨ (s.device d).deviceStatus = .resetDelayed ∨
      (s.device d).deviceStatus = .resetPending) : s.Silent d := by
  refine ⟨?_, fun hbusy => ?_⟩
  · cases ht : (s.device d).timer with
    | none => rfl
    | some t =>
      have hok := h.timer t ht
      cases t with
      | hubResetDevice dev => simp [hok.2] at hstatus
      | hubSetFuncAddress ep => simp [hok.2.1] at hstatus
      | hubPeekDeviceDescriptor req => simp [hok.2.2.1] at hstatus
  · by_contra hcalls
    rcases (h.request hbusy hcalls).2.2 with ⟨-, hs⟩ | ⟨-, hs⟩
    · simp [hs] at hstatus
    · simp [hs] at hstatus

/-- `hubResetDevice` apart from the request it sends to a hub. -/
def resetPort (s : MemPool) (dev : ℕ) : MemPool :=
  if s.delayResets then s.setDevice dev fun d => { d with deviceStatus := .resetDelayed }
  else
    ({ s with delayResets := true } : MemPool).setDevice dev fun d =>
      { d with deviceStatus := .resetPending, resetFlag := true }

/-- The invariant sees of a reset only what it does to the port. -/
theorem same_hubResetDevice (s : MemPool) (dev : ℕ) : (resetPort s dev).Same (hubResetDevice s dev) := by
  unfold hubResetDevice resetPort
  dsimp only
  split_ifs
  · exact MemPool.Same.refl _
  · exact MemPool.Same.refl _
  · split
    · exact MemPool.Same.refl _
    · exact (same_setHub _ _ _).trans (same_hubControlTransfer _ _ _ _ _)

theorem hubResetDevice_taken (s : MemPool) (dev : ℕ) : (hubResetDevice s dev).delayResets = true := by
  rw [(same_hubResetDevice s dev).delayResets]
  unfold resetPort
  split_ifs with h
  · exact h
  · rfl

/-- A reset leaves the other devices alone. -/
theorem keeps_hubResetDevice (s : MemPool) (dev : ℕ) : s.Keeps (· ≠ dev) (hubResetDevice s dev) := by
  intro d h
  have hsame := same_hubResetDevice s dev
  have hother : (resetPort s dev).device d = s.device d := by
    unfold resetPort
    split_ifs
    · exact s.setDevice_other _ h
    · exact setDevice_other _ _ h
  rw [hsame.status, hsame.flag, hsame.timer, hother]
  exact ⟨rfl, rfl, rfl⟩

/-- Resetting a silent device that does not hold the token, or delaying its reset. -/
theorem hubResetDevice_inv (h : s.Core loose' pending) (hloose : ∀ d, d ≠ dev → (loose d ↔ loose' d))
    (hdev : ¬ loose dev) (hsilent : s.Silent dev) (hflag : (s.device dev).resetFlag = false)
    (hfree : dev ∉ s.freeDeviceList) : (hubResetDevice s dev).Inv loose pending := by
  refine ⟨?_, fun hfalse => ?_⟩
  · apply MemPool.Core.same _ (same_hubResetDevice s dev)
    unfold resetPort
    split_ifs with htaken
    · refine h.setDevice _ rfl rfl hloose (fun hl => absurd hl hdev) (fun _ => ?_)
        (fun hmem => absurd hmem hfree)
      refine MemPool.Silent.steady ⟨by simpa using hsilent.timer, hsilent.request⟩ ?_
      simp [hflag]
    · have honly : ∀ d, ((s.setDevice dev fun d =>
          { d with deviceStatus := .resetPending, resetFlag := true }).device d).resetFlag = true → d = dev := by
        intro d hd
        by_contra hne
        rw [s.setDevice_other _ hne] at hd
        exact htaken (h.token.mpr ⟨d, hd⟩)
      refine h.setToken true _ (fun d d' hd hd' => (honly d hd).trans (honly d' hd').symm)
        ⟨fun _ => ⟨dev, by simp⟩, fun _ => rfl⟩ rfl hloose (fun hl => absurd hl hdev) (fun _ => ?_)
        (fun hmem => absurd hmem hfree)
      exact MemPool.Silent.steady ⟨by simpa using hsilent.timer, hsilent.request⟩ (by simp)
  · rw [hubResetDevice_taken] at hfalse
    simp at hfalse

/-- The search finds a delayed port if there is one in reach. -/
theorem delayedPort_none {device : ℕ → Device} {ports : Ports} (h : delayedPort device ports = none)
    {port : ℕ} (hreach : ports.Reaches device port) : (device port).deviceStatus ≠ .resetDelayed := by
  induction ports with
  | nil => exact hreach.elim
  | cons dev childList next ihchild ihnext =>
    simp only [delayedPort] at h
    split_ifs at h with hdelayed hready
    · split at h
      · simp at h
      · rename_i hchild
        rcases hreach with rfl | ⟨-, hin⟩ | hnext
        · exact hdelayed
        · exact ihchild hchild hin
        · exact ihnext h hnext
    · rcases hreach with rfl | ⟨hr, -⟩ | hnext
      · exact hdelayed
      · exact absurd hr hready
      · exact ihnext h hnext

/-- What the search finds is a delayed port. -/
theorem delayedPort_some {device : ℕ → Device} {ports : Ports} {port : ℕ}
    (h : delayedPort device ports = some port) : (device port).deviceStatus = .resetDelayed := by
  induction ports with
  | nil => simp [delayedPort] at h
  | cons dev childList next ihchild ihnext =>
    simp only [delayedPort] at h
    split_ifs at h with hdelayed hready
    · obtain rfl := some.inj h
      exact hdelayed
    · split at h
      · rename_i hchild
        obtain rfl := some.inj h
        exact ihchild hchild
      · exact ihnext h
    · exact ihnext h

/-- Passing on the token changes no device that was not waiting for it, flags apart. -/
structure MemPool.PassedOn (s s' : MemPool) : Prop where
  status : ∀ d, (s.device d).deviceStatus ≠ .resetDelayed →
    (s'.device d).deviceStatus = (s.device d).deviceStatus
  timer : ∀ d, (s.device d).deviceStatus ≠ .resetDelayed → (s'.device d).timer = (s.device d).timer
  flag : ∀ d, (s.device d).deviceStatus ≠ .resetDelayed → (s'.device d).resetFlag = false
  request : ∀ d, s'.request (.device d) = s.request (.device d)
  freeDeviceList : s'.freeDeviceList = s.freeDeviceList
  deviceTree : s'.deviceTree = s.deviceTree
  endpoint : s'.endpoint = s.endpoint

/-- The devices other than the one that is reset do not see the reset. -/
theorem MemPool.PassedOn.reset (h : s.PassedOn s') {port : ℕ}
    (hport : (s.device port).deviceStatus = .resetDelayed) : s.PassedOn (hubResetDevice s' port) := by
  have hne : ∀ d, (s.device d).deviceStatus ≠ .resetDelayed → d ≠ port := by
    rintro d hd rfl
    exact hd hport
  have hsame := same_hubResetDevice s' port
  have hreset : (∀ d, (resetPort s' port).request d = s'.request d) ∧
      (resetPort s' port).freeDeviceList = s'.freeDeviceList ∧
      (resetPort s' port).deviceTree = s'.deviceTree ∧ (resetPort s' port).endpoint = s'.endpoint := by
    unfold resetPort
    split_ifs
    · exact ⟨fun _ => rfl, rfl, rfl, rfl⟩
    · exact ⟨fun _ => rfl, rfl, rfl, rfl⟩
  refine ⟨fun d hd => ?_, fun d hd => ?_, fun d hd => ?_, fun d => ?_, ?_, ?_, ?_⟩
  · rw [(keeps_hubResetDevice s' port d (hne d hd)).1, h.status d hd]
  · rw [(keeps_hubResetDevice s' port d (hne d hd)).2.2, h.timer d hd]
  · rw [(keeps_hubResetDevice s' port d (hne d hd)).2.1, h.flag d hd]
  · rw [hsame.request, hreset.1, h.request]
  · rw [hsame.freeDeviceList, hreset.2.1, h.freeDeviceList]
  · rw [hsame.deviceTree, hreset.2.2.1, h.deviceTree]
  · rw [hsame.endpoint, hreset.2.2.2, h.endpoint]

/-- The token is given up. -/
def MemPool.release (s : MemPool) (dev : ℕ) : MemPool :=
  ({ s with delayResets := false } : MemPool).setDevice dev fun d => { d with resetFlag := false }

theorem MemPool.release_device (s : MemPool) (dev d : ℕ) :
    ((s.release dev).device d).deviceStatus = (s.device d).deviceStatus ∧
      ((s.release dev).device d).timer = (s.device d).timer :=
  ⟨setDevice_kept Device.deviceStatus rfl d, setDevice_kept Device.timer rfl d⟩

/-- The only holder of the token gives it up, and the first port that waits for it takes it. -/
theorem checkDelayedResets_inv (h : s.Core loose pending) (hdev : loose dev)
    (honly : ∀ d, (s.device d).resetFlag = true → d = dev) :
    (checkDelayedResets s dev).Inv loose pending ∧ s.PassedOn (checkDelayedResets s dev) := by
  have hkept := s.release_device dev
  have hnone : ∀ d, ((s.release dev).device d).resetFlag = false := by
    intro d
    rcases eq_or_ne d dev with rfl | hd
    · simp [release]
    · rw [release, setDevice_other _ _ hd]
      exact eq_false_iff.mpr fun hflag => hd (honly d hflag)
  have hpassed : s.PassedOn (s.release dev) :=
    ⟨fun d _ => (hkept d).1, fun d _ => (hkept d).2, fun d _ => hnone d, fun _ => rfl, rfl, rfl, rfl⟩
  have hcore : (s.release dev).Core loose pending := by
    refine h.setToken false _ ?_ ?_ rfl (fun _ _ => Iff.rfl) (fun _ => h.notDelayed dev hdev)
      (fun hl => absurd hdev hl) (fun hmem => ⟨(h.tree.free dev hmem).1, rfl⟩)
    · exact fun d d' hd => absurd ((hnone d).symm.trans hd) false_ne_true
    · exact ⟨fun hfalse => absurd hfalse false_ne_true, fun ⟨d, hd⟩ => (hnone d).symm.trans hd⟩
  rw [show checkDelayedResets s dev = checkDelayedResetsTree (s.release dev) s.deviceTree from rfl]
  unfold checkDelayedResetsTree
  split
  · rename_i port hport
    have hdelayed := delayedPort_some hport
    have hsteady : ¬ loose port := fun hl => hcore.notDelayed port hl hdelayed
    have hsilent := (hcore.steady port hsteady).silent (.inr (.inl hdelayed))
    have hnotfree : port ∉ s.freeDeviceList := by
      intro hmem
      have hconn := (hcore.tree.free port hmem).1
      rw [hdelayed] at hconn
      simp at hconn
    refine ⟨hubResetDevice_inv hcore (fun _ _ => Iff.rfl) hsteady hsilent (hnone port) hnotfree, ?_⟩
    exact hpassed.reset ((hkept port).1.symm.trans hdelayed)
  · rename_i hnoport
    exact ⟨⟨hcore, fun _ port hreach => delayedPort_none hnoport hreach⟩, hpassed⟩

/-- The enumeration of the only device that may hold the token fails: it is reset again. -/
theorem killDevice_inv (h : s.Core loose pending) (hdev : ¬ loose dev) {ep : ℕ}
    (hep : (s.endpoint ep).correspDevice = some dev) (htimer : (s.device dev).timer = none)
    (hidle : (s.request (.device dev)).busyFlag = false)
    (hstatus : (s.device dev).deviceStatus ≠ .resetDelayed) (hfree : dev ∉ s.freeDeviceList)
    (honly : ∀ d, (s.device d).resetFlag = true → d = dev) : (killDevice s dev ep).Inv loose pending := by
  have hkey := keeps_removeEndpoint dev s ep
  have hremoved : (removeEndpointFromDevice dev s ep).Core (fun d => loose d ∨ d = dev) pending :=
    (h.loosen hstatus fun _ => Iff.rfl).removeEndpoint (.inr rfl) (.inl hep)
  have honly' : ∀ d, ((removeEndpointFromDevice dev s ep).device d).resetFlag = true → d = dev := by
    intro d hd
    rw [(hkey d trivial).2.1] at hd
    exact honly d hd
  obtain ⟨hinv, hpassed⟩ := checkDelayedResets_inv hremoved (.inr rfl) honly'
  have hwas : ((removeEndpointFromDevice dev s ep).device dev).deviceStatus ≠ .resetDelayed := by
    rw [(hkey dev trivial).1]
    exact hstatus
  refine hubResetDevice_inv hinv.core ?_ hdev (.of_idle ?_ ?_) (hpassed.flag dev hwas) ?_
  · intro d hd
    exact ⟨.inl, fun hl => hl.resolve_right hd⟩
  · rw [hpassed.timer dev hwas, (hkey dev trivial).2.2]
    exact htimer
  · rw [hpassed.request]
    exact hidle
  · rw [hpassed.freeDeviceList]
    exact hfree

end Ps2sdk.Usbd
