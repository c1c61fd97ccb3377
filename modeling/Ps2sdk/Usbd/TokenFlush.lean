import Ps2sdk.Usbd.TokenSteps

/-!
# Unplugged devices and the reset token

Flushing a port tears down the device there and everything below it. If the token is held by one
of the devices that go, it is passed on, and the devices above are left alone.
-/

namespace Ps2sdk.Usbd

open List MemPool Ports

variable {loose loose' : ℕ → Prop} {pending : List ℕ} {s s' : MemPool} {dev : ℕ}

variable {flushChildren : MemPool → MemPool} {ports : Ports}

/-- A change of one device by which it neither becomes ready nor starts to wait. -/
theorem MemPool.Inv.setDevice (h : s.Inv loose pending) (f : Device → Device)
    (hflag : (f (s.device dev)).resetFlag = (s.device dev).resetFlag)
    (hlist : (f (s.device dev)).endpointList = (s.device dev).endpointList)
    (hloose : ∀ d, d ≠ dev → (loose' d ↔ loose d)) (hsteady : ¬ loose' dev → (s.setDevice dev f).Steady dev)
    (hfree : dev ∈ s.freeDeviceList → (f (s.device dev)).deviceStatus = .notConnected)
    (hready : (f (s.device dev)).deviceStatus = .ready → (s.device dev).deviceStatus = .ready)
    (hdelayed : (f (s.device dev)).deviceStatus ≠ .resetDelayed) : (s.setDevice dev f).Inv loose' pending := by
  refine ⟨h.core.setDevice f hflag hlist hloose (fun _ => hdelayed) hsteady hfree, ?_⟩
  refine h.served.mono rfl rfl (fun d hd => ?_) (fun d hd => ?_)
  · rcases eq_or_ne d dev with rfl | hne
    · exact hready (by simpa using hd)
    · rwa [s.setDevice_other f hne] at hd
  · rcases eq_or_ne d dev with rfl | hne
    · exact absurd (by simpa using hd) hdelayed
    · rwa [s.setDevice_other f hne] at hd

theorem MemPool.keeps_setDevice {kept : ℕ → Prop} (s : MemPool) (f : Device → Device) (h : ¬ kept dev) :
    s.Keeps kept (s.setDevice dev f) := by
  intro d hd
  have hne : d ≠ dev := by
    rintro rfl
    exact h hd
  rw [s.setDevice_other f hne]
  exact ⟨rfl, rfl, rfl⟩

/-- Removing all endpoints of a device in the middle of a change. -/
theorem removeEndpoints_inv (hloose : loose dev) (eps : List ℕ) : ∀ s : MemPool, s.Inv loose pending →
      (∀ ep ∈ eps, (s.endpoint ep).correspDevice = some dev ∨
        s.endpoint ep = { correspDevice := none, timerActive := true }) →
      (eps.foldl (removeEndpointFromDevice dev) s).Inv loose pending ∧
        s.Keeps (fun _ => True) (eps.foldl (removeEndpointFromDevice dev) s) := by
  induction eps with
  | nil => exact fun s h _ => ⟨h, fun _ _ => ⟨rfl, rfl, rfl⟩⟩
  | cons ep eps ih =>
    intro s h hall
    have hkey := keeps_removeEndpoint dev s ep
    have hserved : (removeEndpointFromDevice dev s ep).Served := by
      refine h.served.mono rfl rfl (fun d hd => ?_) (fun d hd => ?_)
      · rwa [(hkey d trivial).1] at hd
      · rwa [(hkey d trivial).1] at hd
    have hinv : (removeEndpointFromDevice dev s ep).Inv loose pending :=
      ⟨h.core.removeEndpoint hloose (hall ep mem_cons_self), hserved⟩
    have hleft : ∀ e ∈ eps, ((removeEndpointFromDevice dev s ep).endpoint e).correspDevice = some dev ∨
        (removeEndpointFromDevice dev s ep).endpoint e = { correspDevice := none, timerActive := true } := by
      intro e he
      rcases eq_or_ne e ep with rfl | hne
      · right
        simp [removeEndpointFromDevice, setEndpoint]
      · have hsame : (removeEndpointFromDevice dev s ep).endpoint e = s.endpoint e := by
          simp [removeEndpointFromDevice, setEndpoint, setDevice, hne]
        rw [hsame]
        exact hall e (mem_cons_of_mem _ he)
    obtain ⟨hrest, hkeeps⟩ := ih _ hinv hleft
    exact ⟨hrest, hkey.trans hkeeps⟩

theorem same_freeHubBuffer (s : MemPool) (hub : Option ℕ) : s.Same (freeHubBuffer s hub) := by
  unfold freeHubBuffer
  split
  · exact MemPool.Same.refl s
  · exact s.same_hubBufferList _

variable (cfg : UsbdConfig)

theorem same_hubDrvDisconnect (s : MemPool) (devId : ℕ) : s.Same (hubDrvDisconnect cfg s devId) := by
  unfold hubDrvDisconnect
  split
  · exact MemPool.Same.refl s
  · exact same_freeHubBuffer s _

/-- What is left of a device before its children are flushed. -/
def disconnected (cfg : UsbdConfig) (s : MemPool) (dev : ℕ) : MemPool :=
  let s := s.setDevice dev fun d => { d with deviceStatus := .notConnected }
  let s := if (s.device dev).devDriver = some .hub then hubDrvDisconnect cfg s dev else s
  let s := s.setDevice dev fun d => { d with devDriver := none, timer := none }
  (s.device dev).endpointList.foldl (removeEndpointFromDevice dev) s

/-- A device is disconnected from everything that could call back about it. -/
theorem disconnected_inv (h : s.Inv loose pending) (hdev : ¬ loose dev) :
    (disconnected cfg s dev).Inv (fun d => loose d ∨ d = dev) pending ∧
      s.Keeps loose (disconnected cfg s dev) ∧
      ((disconnected cfg s dev).device dev).deviceStatus = .notConnected ∧
      ((disconnected cfg s dev).device dev).timer = none := by
  generalize hs₁ : (s.setDevice dev fun d => { d with deviceStatus := .notConnected }) = s₁
  have h₁ : s₁.Inv (fun d => loose d ∨ d = dev) pending := by
    rw [← hs₁]
    exact h.setDevice _ rfl rfl (fun d hd => by simp [hd]) (fun hl => absurd (.inr rfl) hl)
      (fun _ => rfl) (by simp) (by simp)
  generalize hs₂ : (if (s₁.device dev).devDriver = some .hub then hubDrvDisconnect cfg s₁ dev else s₁) = s₂
  have hsame : s₁.Same s₂ := by
    rw [← hs₂]
    split_ifs
    · exact same_hubDrvDisconnect cfg s₁ dev
    · exact MemPool.Same.refl s₁
  generalize hs₃ : (s₂.setDevice dev fun d => { d with devDriver := none, timer := none }) = s₃
  have hstatus₂ : (s₂.device dev).deviceStatus = .notConnected := by
    rw [hsame.status, ← hs₁]
    simp
  have h₃ : s₃.Inv (fun d => loose d ∨ d = dev) pending := by
    rw [← hs₃]
    exact (h₁.same hsame).setDevice _ rfl rfl (fun _ _ => Iff.rfl) (fun hl => absurd (.inr rfl) hl)
      (fun _ => hstatus₂) id (by rw [hstatus₂]; simp)
  have hrun : disconnected cfg s dev =
      (s₃.device dev).endpointList.foldl (removeEndpointFromDevice dev) s₃ := by
    rw [← hs₃, ← hs₂, ← hs₁]
    rfl
  obtain ⟨hinv, hkeeps⟩ := removeEndpoints_inv (.inr rfl) (s₃.device dev).endpointList s₃ h₃
    (fun ep hep => .inl (h₃.core.endpoints.owned dev ep hep))
  have hself := hkeeps dev trivial
  rw [← hrun] at hinv hkeeps hself
  have hkeep₃ : s.Keeps loose s₃ := by
    intro d hd
    have hne : d ≠ dev := fun heq => hdev (heq ▸ hd)
    rw [← hs₃, setDevice_other _ _ hne, hsame.status, hsame.flag, hsame.timer, ← hs₁,
      setDevice_other _ _ hne]
    exact ⟨rfl, rfl, rfl⟩
  refine ⟨hinv, hkeep₃.trans (fun d _ => hkeeps d trivial), ?_, ?_⟩
  · rw [hself.1, ← hs₃]
    simpa using hstatus₂
  · rw [hself.2.2, ← hs₃]
    simp

/-- What flushing a device leaves of it. -/
structure MemPool.Flushed (dev : ℕ) (s : MemPool) : Prop where
  status : (s.device dev).deviceStatus = .notConnected
  flag : (s.device dev).resetFlag = false

/-- The end of a flush: the token is passed on if the device held it. -/
theorem flushed_inv (h : s.Inv (fun d => loose d ∨ d = dev) pending) (hdev : ¬ loose dev)
    (hstatus : (s.device dev).deviceStatus = .notConnected) (htimer : (s.device dev).timer = none)
    (hidle : (s.request (.device dev)).busyFlag = false) :
    (if (s.device dev).resetFlag then checkDelayedResets s dev else s).Inv loose pending ∧
      s.Keeps loose (if (s.device dev).resetFlag then checkDelayedResets s dev else s) ∧
      (if (s.device dev).resetFlag then checkDelayedResets s dev else s).Flushed dev := by
  have hwas : (s.device dev).deviceStatus ≠ .resetDelayed := by rw [hstatus]; simp
  split_ifs with hflag
  · obtain ⟨hinv, hpassed⟩ := checkDelayedResets_inv h.core (.inr rfl)
      (fun d hd => h.core.unique d dev hd hflag)
    have hgone : (checkDelayedResets s dev).Flushed dev :=
      ⟨(hpassed.status dev hwas).trans hstatus, hpassed.flag dev hwas⟩
    have hsilent : (checkDelayedResets s dev).Silent dev :=
      .of_idle ((hpassed.timer dev hwas).trans htimer) (by rw [hpassed.request, hidle])
    refine ⟨⟨hinv.core.tighten (hsilent.steady ?_) fun _ => Iff.rfl, hinv.served⟩, ?_, hgone⟩
    · simp [hgone.flag, hgone.status]
    · intro d hd
      have hkept := h.core.notDelayed d (.inl hd)
      have hnoflag : (s.device d).resetFlag = false := by
        refine Bool.eq_false_iff.mpr fun hd' => hdev ?_
        rw [← h.core.unique d dev hd' hflag]
        exact hd
      exact ⟨hpassed.status d hkept, (hpassed.flag d hkept).trans hnoflag.symm, hpassed.timer d hkept⟩
  · have hoff : (s.device dev).resetFlag = false := Bool.eq_false_iff.mpr hflag
    refine ⟨⟨h.core.tighten ((MemPool.Silent.of_idle htimer hidle).steady ?_) fun _ => Iff.rfl, h.served⟩,
      fun _ _ => ⟨rfl, rfl, rfl⟩, hstatus, hoff⟩
    simp [hoff, hstatus]

theorem flushDevice_connected (h : (s.device dev).deviceStatus ≠ .notConnected) :
    flushDevice cfg flushChildren s dev =
      let m := ((flushChildren (disconnected cfg s dev)).setRequest (.device dev) fun r =>
        { r with busyFlag := false }).setDevice dev fun d => { d with privDataField := none }
      if (m.device dev).resetFlag then checkDelayedResets m dev else m := by
  unfold flushDevice
  rw [if_neg h]
  rfl

/-- Flushing a device keeps the invariant if flushing its children does. -/
theorem flushDevice_inv {before after : List ℕ} (h : s.Inv loose before) (hdev : ¬ loose dev)
    (hskip : (s.device dev).deviceStatus = .notConnected → s.Inv loose after)
    (hchildren : ∀ m : MemPool, m.Inv (fun d => loose d ∨ d = dev) before →
      (flushChildren m).Inv (fun d => loose d ∨ d = dev) after ∧
        m.Keeps (fun d => loose d ∨ d = dev) (flushChildren m)) :
    (flushDevice cfg flushChildren s dev).Inv loose after ∧
      s.Keeps loose (flushDevice cfg flushChildren s dev) ∧
      (flushDevice cfg flushChildren s dev).Flushed dev := by
  by_cases hconn : (s.device dev).deviceStatus = .notConnected
  · have hoff : (s.device dev).resetFlag = false := by
      refine Bool.eq_false_iff.mpr fun hflag => ?_
      have haddr := (h.core.steady dev hdev).flag.mp hflag
      simp [Device.Addressing, hconn] at haddr
    have hrun : flushDevice cfg flushChildren s dev = s := by
      simp [flushDevice, hconn, hoff]
    rw [hrun]
    exact ⟨hskip hconn, fun _ _ => ⟨rfl, rfl, rfl⟩, hconn, hoff⟩
  · obtain ⟨hinv, hkeeps, hstatus, htimer⟩ := disconnected_inv cfg h hdev
    obtain ⟨hinner, hkept⟩ := hchildren _ hinv
    obtain ⟨hst, -, htm⟩ := hkept dev (.inr rfl)
    generalize hm : flushChildren (disconnected cfg s dev) = m at hinner hkept hst htm
    generalize hm' : ((m.setRequest (.device dev) fun r => { r with busyFlag := false }).setDevice dev
      fun d => { d with privDataField := none }) = m'
    have hstep : (m.setRequest (.device dev) fun r => { r with busyFlag := false }).Inv
        (fun d => loose d ∨ d = dev) after := by
      refine ⟨hinner.core.setRequest _ (fun hl => absurd (.inr rfl) hl) (by simp), ?_⟩
      exact hinner.served
    have hsame : (m.setRequest (.device dev) fun r => { r with busyFlag := false }).Same m' := by
      rw [← hm']
      exact same_setDevice _ dev _ fun _ => ⟨rfl, rfl, rfl, rfl⟩
    have hrun : flushDevice cfg flushChildren s dev =
        if (m'.device dev).resetFlag then checkDelayedResets m' dev else m' := by
      rw [flushDevice_connected cfg hconn, ← hm', ← hm]
    have hidle : (m'.request (.device dev)).busyFlag = false := by
      rw [← hm']
      change ((m.setRequest (.device dev) fun r => { r with busyFlag := false }).request
        (.device dev)).busyFlag = false
      rw [setRequest_self]
    rw [hrun]
    obtain ⟨hfinal, hkeeps', hflushed⟩ := flushed_inv (hstep.same hsame) hdev
      ((hsame.status dev).trans (hst.trans hstatus)) ((hsame.timer dev).trans (htm.trans htimer)) hidle
    refine ⟨hfinal, (hkeeps.trans fun d hd => hkept d (.inl hd)).trans (MemPool.Keeps.trans ?_ hkeeps'),
      hflushed⟩
    exact fun d _ => ⟨hsame.status d, hsame.flag d, hsame.timer d⟩

/-- A flushed device goes back to the free list. -/
theorem freeDevice_inv (h : s.Inv loose (dev :: pending)) (hflushed : s.Flushed dev) :
    (freeDevice s dev).Inv loose pending := by
  have hsame := s.same_setDevice dev (fun d => { d with parent := none }) fun _ => ⟨rfl, rfl, rfl, rfl⟩
  have hinv := h.same hsame
  refine ⟨⟨hinv.core.unique, hinv.core.token, hinv.core.notDelayed, fun d hd => ?_, ?_, ?_, ?_⟩, ?_⟩
  · exact (hinv.core.steady d hd).congr_device rfl rfl rfl rfl rfl
  · exact hinv.core.endpoints.congr (fun _ => rfl) rfl (fun _ => rfl) rfl
  · have hnodup := h.core.tree.nodup
    change (pending ++ ((s.freeDeviceList ++ [dev]) ++ s.deviceTree.devices)).Nodup
    have hperm : ((pending ++ s.freeDeviceList) ++ dev :: s.deviceTree.devices).Perm
        (dev :: ((pending ++ s.freeDeviceList) ++ s.deviceTree.devices)) := perm_middle
    have hmoved := hperm.nodup_iff.mpr (by simpa using hnodup)
    simpa using hmoved
  · intro d hd
    rcases mem_append.mp hd with hd | hd
    · exact hinv.core.tree.free d hd
    · obtain rfl := mem_singleton.mp hd
      exact ⟨(hsame.status d).trans hflushed.status, (hsame.flag d).trans hflushed.flag⟩
  · exact hinv.served

theorem MemPool.Inv.perm {pending' : List ℕ} (h : s.Inv loose pending) (hperm : pending'.Perm pending) :
    s.Inv loose pending' :=
  ⟨⟨h.core.unique, h.core.token, h.core.notDelayed, h.core.steady, h.core.endpoints,
    ⟨(hperm.append_right _).nodup_iff.mpr h.core.tree.nodup, h.core.tree.free⟩⟩, h.served⟩

theorem MemPool.Inv.forget {more : List ℕ} (h : s.Inv loose (more ++ pending)) : s.Inv loose pending := by
  have hnodup := h.core.tree.nodup
  rw [append_assoc] at hnodup
  exact ⟨⟨h.core.unique, h.core.token, h.core.notDelayed, h.core.steady, h.core.endpoints,
    ⟨hnodup.of_append_right, h.core.tree.free⟩⟩, h.served⟩

/-- Flushing a list of ports frees their devices. -/
theorem flushPorts_inv (ports : Ports) :
    ∀ (loose : ℕ → Prop) (pending : List ℕ) (s : MemPool), s.Inv loose (ports.devices ++ pending) →
      (∀ d ∈ ports.devices, ¬ loose d) →
      (flushPorts cfg ports s).Inv loose pending ∧ s.Keeps loose (flushPorts cfg ports s) := by
  induction ports with
  | nil => exact fun loose pending s h _ => ⟨h, fun _ _ => ⟨rfl, rfl, rfl⟩⟩
  | cons dev childList next ihchild ihnext =>
    intro loose pending s h hloose
    have hdev : ¬ loose dev := hloose dev mem_cons_self
    have hinside : ∀ d ∈ childList.devices, ¬ (loose d ∨ d = dev) := by
      rintro d hd (hl | rfl)
      · exact hloose d (mem_cons_of_mem _ (mem_append_left _ hd)) hl
      · have hnodup := h.core.tree.nodup
        simp only [devices, cons_append, nodup_cons] at hnodup
        exact hnodup.1 (by simp [hd])
    have hbefore : s.Inv loose (childList.devices ++ (dev :: (next.devices ++ pending))) := by
      refine h.perm ?_
      simp only [devices, cons_append, append_assoc]
      exact perm_middle
    obtain ⟨hinv, hkeeps, hflushed⟩ := flushDevice_inv cfg hbefore hdev (fun _ => hbefore.forget)
      (fun m hm => ihchild _ _ m hm hinside)
    have hfreed := freeDevice_inv hinv hflushed
    obtain ⟨hrest, hkeeps'⟩ := ihnext loose pending _ hfreed
      (fun d hd => hloose d (mem_cons_of_mem _ (mem_append_right _ hd)))
    have hkept : (flushDevice cfg (flushPorts cfg childList) s dev).Keeps loose
        (freeDevice (flushDevice cfg (flushPorts cfg childList) s dev) dev) :=
      keeps_setDevice _ (fun d => { d with parent := none }) hdev
    exact ⟨hrest, (hkeeps.trans hkept).trans hkeeps'⟩

theorem Ports.detach_of_notMem (h : dev ∉ ports.devices) : ports.detach dev = ports := by
  induction ports with
  | nil => rfl
  | cons d children next ihchild ihnext =>
    simp only [devices, mem_cons, mem_append, not_or] at h
    simp only [detach, if_neg (Ne.symm h.1), ihchild h.2.1, ihnext h.2.2]

theorem Ports.childList_of_notMem (h : dev ∉ ports.devices) : ports.childList dev = .nil := by
  induction ports with
  | nil => rfl
  | cons d children next ihchild ihnext =>
    simp only [devices, mem_cons, mem_append, not_or] at h
    simp only [childList, if_neg (Ne.symm h.1), if_neg h.2.1, ihnext h.2.2]

/-- Detaching the children of a device splits the devices of the tree. -/
theorem Ports.detach_perm (h : ports.devices.Nodup) :
    ((ports.childList dev).devices ++ (ports.detach dev).devices).Perm ports.devices := by
  induction ports with
  | nil => exact List.Perm.refl _
  | cons d children next ihchild ihnext =>
    simp only [devices, nodup_cons, mem_append, not_or] at h
    obtain ⟨hd, hnodup⟩ := h
    have hboth := nodup_append.mp hnodup
    simp only [childList, detach, devices]
    by_cases heq : d = dev
    · subst heq
      rw [if_pos rfl, if_pos rfl, detach_of_notMem hd.2]
      exact perm_middle
    · rw [if_neg heq, if_neg heq]
      by_cases hin : dev ∈ children.devices
      · have hout : dev ∉ next.devices := fun hn => hboth.2.2 dev hin dev hn rfl
        rw [if_pos hin, detach_of_notMem hout]
        refine perm_middle.trans (List.Perm.cons d ?_)
        rw [← append_assoc]
        exact (ihchild hboth.1).append_right _
      · rw [if_neg hin, detach_of_notMem hin]
        refine perm_middle.trans (List.Perm.cons d ?_)
        refine List.Perm.trans ?_ ((ihnext hboth.2.1).append_left children.devices)
        rw [← append_assoc, ← append_assoc]
        exact perm_append_comm.append_right _

/-- The device itself stays in the tree. -/
theorem Ports.mem_detach (h : dev ∈ ports.devices) : dev ∈ (ports.detach dev).devices := by
  induction ports with
  | nil => exact h
  | cons d children next ihchild ihnext =>
    simp only [devices, mem_cons, mem_append] at h
    simp only [detach, devices, mem_cons, mem_append]
    by_cases heq : d = dev
    · exact .inl heq.symm
    · rw [if_neg heq]
      rcases h with h | h | h
      · exact absurd h.symm heq
      · exact .inr (.inl (ihchild h))
      · exact .inr (.inr (ihnext h))

/-- Detaching the children of a device puts no port in reach. -/
theorem Ports.Reaches.of_detach {device : ℕ → Device} {port : ℕ}
    (h : (ports.detach dev).Reaches device port) : ports.Reaches device port := by
  induction ports with
  | nil => exact h
  | cons d children next ihchild ihnext =>
    rcases h with rfl | ⟨hready, hchild⟩ | hnext
    · exact .inl rfl
    · split_ifs at hchild
      · exact hchild.elim
      · exact .inr (.inl ⟨hready, ihchild hchild⟩)
    · exact .inr (.inr (ihnext hnext))

/-- The children of a device leave the tree. -/
theorem MemPool.Inv.detach (h : s.Inv loose pending) (dev : ℕ) :
    ({ s with deviceTree := s.deviceTree.detach dev } : MemPool).Inv loose
      ((s.deviceTree.childList dev).devices ++ pending) := by
  have htree : s.deviceTree.devices.Nodup :=
    (h.core.tree.nodup.of_append_right).of_append_right
  refine ⟨⟨h.core.unique, h.core.token, h.core.notDelayed, fun d hd => ?_, ?_, ⟨?_, h.core.tree.free⟩⟩, ?_⟩
  · exact (h.core.steady d hd).congr_device rfl rfl rfl rfl rfl
  · exact h.core.endpoints.congr (fun _ => rfl) rfl (fun _ => rfl) rfl
  · have hperm : ((s.deviceTree.childList dev).devices ++ pending ++
        (s.freeDeviceList ++ (s.deviceTree.detach dev).devices)).Perm
        (pending ++ (s.freeDeviceList ++ s.deviceTree.devices)) := by
      have hsplit := @detach_perm dev s.deviceTree htree
      refine List.Perm.trans ?_ ((hsplit.append_left s.freeDeviceList).append_left pending)
      rw [append_assoc]
      refine (perm_append_comm_assoc _ _ _).trans (List.Perm.append_left pending ?_)
      exact perm_append_comm_assoc _ _ _
    exact hperm.nodup_iff.mpr h.core.tree.nodup
  · intro hfree port hreach
    exact h.served hfree port hreach.of_detach

/-- Passing on the token leaves the tree alone. -/
theorem checkDelayedResets_deviceTree (s : MemPool) (dev : ℕ) :
    (checkDelayedResets s dev).deviceTree = s.deviceTree := by
  unfold checkDelayedResets checkDelayedResetsTree
  dsimp only
  split
  · rw [(same_hubResetDevice _ _).deviceTree]
    unfold resetPort
    split_ifs
    · rfl
    · rfl
  · rfl

/-- Disconnecting a device leaves the tree alone. -/
theorem disconnected_deviceTree (s : MemPool) (dev : ℕ) : (disconnected cfg s dev).deviceTree = s.deviceTree := by
  have hends : ∀ (eps : List ℕ) (m : MemPool),
      (eps.foldl (removeEndpointFromDevice dev) m).deviceTree = m.deviceTree := by
    intro eps
    induction eps with
    | nil => exact fun _ => rfl
    | cons ep eps ih => exact fun m => ih _
  unfold disconnected
  rw [hends]
  split_ifs
  · exact (same_hubDrvDisconnect cfg _ dev).deviceTree
  · rfl

/-- What flushing the children does not change in the tree, flushing the device does not. -/
theorem flushDevice_deviceTree (P : Ports → Prop)
    (h : ∀ m : MemPool, P m.deviceTree → P (flushChildren m).deviceTree) (hs : P s.deviceTree) :
    P (flushDevice cfg flushChildren s dev).deviceTree := by
  have hpassed : ∀ m : MemPool, P m.deviceTree →
      P (if (m.device dev).resetFlag then checkDelayedResets m dev else m).deviceTree := by
    intro m hm
    split_ifs
    · rw [checkDelayedResets_deviceTree]
      exact hm
    · exact hm
  by_cases hconn : (s.device dev).deviceStatus = .notConnected
  · unfold flushDevice
    rw [if_pos hconn]
    exact hpassed s hs
  · rw [flushDevice_connected cfg hconn]
    refine hpassed _ ?_
    refine h (disconnected cfg s dev) ?_
    rw [disconnected_deviceTree]
    exact hs

/-- Flushing ports that have left the tree leaves the tree alone. -/
theorem flushPorts_deviceTree (ports : Ports) :
    ∀ s : MemPool, (flushPorts cfg ports s).deviceTree = s.deviceTree := by
  induction ports with
  | nil => exact fun _ => rfl
  | cons dev childList next ihchild ihnext =>
    intro s
    have hdev := @flushDevice_deviceTree s dev _ cfg (· = s.deviceTree)
      (fun m hm => (ihchild m).trans hm) rfl
    exact (ihnext _).trans hdev

theorem Ports.siblings_detach (ports : Ports) : (ports.detach dev).siblings = ports.siblings := by
  induction ports with
  | nil => rfl
  | cons d children next _ ihnext => simp [detach, siblings, ihnext]

theorem flushPort_siblings (s : MemPool) (dev : ℕ) :
    (flushPort cfg s dev).deviceTree.siblings = s.deviceTree.siblings := by
  refine flushDevice_deviceTree cfg (fun tree => tree.siblings = s.deviceTree.siblings) ?_ rfl
  intro m hm
  rw [flushPorts_deviceTree]
  exact siblings_detach _ |>.trans hm

/-- Flushing a port keeps the invariant. -/
theorem flushPort_inv (h : s.Inv (fun _ => False) []) : (flushPort cfg s dev).Inv (fun _ => False) [] := by
  refine (flushDevice_inv cfg h not_false (fun _ => h) fun m hm => ?_).1
  refine flushPorts_inv cfg _ _ [] { m with deviceTree := m.deviceTree.detach dev } (hm.detach dev) ?_
  rintro d hd (hl | rfl)
  · exact hl
  · by_cases hmem : d ∈ m.deviceTree.devices
    · have hnodup := (hm.detach d).core.tree.nodup
      rw [append_nil] at hnodup
      exact disjoint_of_nodup_append hnodup hd (mem_append_right _ (mem_detach hmem))
    · rw [childList_of_notMem hmem] at hd
      simp [devices] at hd

end Ps2sdk.Usbd
