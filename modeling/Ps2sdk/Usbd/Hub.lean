import Mathlib.Data.Int.Notation
import Mathlib.Data.Nat.Notation
import Mathlib.Logic.Function.Basic

/-!
# Device enumeration of the USB host driver

The device tree, the endpoints, the I/O requests and the hub buffers of usbd, with the routines
of mem.c and usbio.c that move them between their lists. The transfer descriptors below a
request are left out: whether one is left is an input of the routines that take one.

The routines of hub.c and hcd.c run one at a time under the lock of the driver: an event is
a root port interrupt, an expired timer or a completed transfer, and `step` is what the driver
does about it. Other class drivers do not take part.
-/

namespace Ps2sdk.Usbd

/-- `DEVICE_*`: how far the device at a port has come. -/
inductive DeviceStatus
  | notConnected | connected | resetDelayed | resetPending | resetComplete | ready
  deriving DecidableEq

/-- The request record of a device, and the two of a hub buffer. -/
inductive ReqId
  | device (dev : ℕ) | control (hub : ℕ) | status (hub : ℕ)
  deriving DecidableEq

/-- The callbacks of the transfers this driver issues itself. -/
inductive InternCallback
  | hubSetFuncAddressCB | requestDevDescrptCb | fetchConfigDescriptors
  | hubCheckDeviceDesc | hubCheckPorts | hubSetupPorts | hubSetPortPower
  | hubStatusChangeCallback | hubGetHubStatusCallback | hubGetPortStatusCallback
  | hubDeviceResetCallback
  deriving DecidableEq

/-- The callbacks of the timer of a device, with their argument. -/
inductive TimerCallback
  | hubResetDevice (dev : ℕ) | hubSetFuncAddress (ep : ℕ) | hubPeekDeviceDescriptor (req : ReqId)
  deriving DecidableEq

/-- Where the data of a transfer goes. -/
inductive Dest
  | nowhere | descriptor (dev offset : ℕ) | hubStatus (hub : ℕ) | portStatusChange (hub : ℕ)
  | hubDesc (hub : ℕ) | statusChangeInfo (hub : ℕ)

/-- A buffer that transfers write to. -/
abbrev Bytes := ℕ → UInt8

/-- One bit of a buffer, counted from the first byte. -/
def Bytes.bit (bytes : Bytes) (i : ℕ) : Bool := (bytes (i / 8)).toNat.testBit (i % 8)

variable (bytes : Bytes)

/-- Clear one bit of a buffer. -/
def Bytes.clearBit (i : ℕ) : Bytes :=
  Function.update bytes (i / 8) (bytes (i / 8) &&& ~~~(1 <<< UInt8.ofNat (i % 8)))

/-- `READ_UINT16`. -/
def Bytes.uint16 (offset : ℕ) : ℕ :=
  (bytes offset).toNat + 256 * (bytes (offset + 1)).toNat

/-- The buffer after a transfer of some bytes to an offset. -/
def Bytes.overlay (offset count : ℕ) (data : Bytes) : Bytes := fun i =>
  if offset ≤ i ∧ i < offset + count then data (i - offset) else bytes i

/-- `USB_RC_OK`. -/
def rcOk : ℕ := 0

/-- `USB_RC_NORESPONSE`. -/
def rcNoResponse : ℕ := 5

/-- `IoRequest`. -/
structure IoRequest where
  busyFlag : Bool := false
  correspEndpoint : ℕ := 0
  destPtr : Dest := .nowhere
  length : ℕ := 0
  callbackProc : InternCallback := .hubSetFuncAddressCB
  resultCode : ℕ := 0
  transferedBytes : ℕ := 0

/-- `Endpoint`: the device it belongs to, and whether its removal is waiting for its timer. -/
structure Endpoint where
  correspDevice : Option ℕ := none
  timerActive : Bool := false

/-- The only driver this module registers itself. -/
inductive UsbDriver
  | hub
  deriving DecidableEq

/-- `Device`, its links in the tree apart. -/
structure Device where
  endpointList : List ℕ := []
  devDriver : Option UsbDriver := none
  deviceStatus : DeviceStatus := .notConnected
  resetFlag : Bool := false
  parent : Option ℕ := none
  attachedToPortNo : ℕ := 0
  privDataField : Option ℕ := none
  timer : Option TimerCallback := none
  functionDelay : ℕ := 0
  staticDeviceDesc : Bytes := fun _ => 0
  staticDeviceDescEnd : ℕ := 0
  fetchDescriptorCounter : ℕ := 0

/-- `UsbHub`. The two halves of the hub status are one buffer of four bytes. -/
structure UsbHub where
  controlEp : ℕ := 0
  statusChangeEp : ℕ := 0
  desc : Bytes := fun _ => 0
  numChildDevices : ℕ := 0
  portCounter : ℕ := 0
  hubStatusCounter : ℕ := 0
  hubStatus : Bytes := fun _ => 0
  portStatusChange : Bytes := fun _ => 0
  statusChangeInfo : Bytes := fun _ => 0

/-- A list of ports, each with the ports of the hub that is plugged into it. -/
inductive Ports
  | nil
  | cons (dev : ℕ) (childList next : Ports)

/-- The devices of the ports of the list itself. -/
def Ports.siblings : Ports → List ℕ
  | .nil => []
  | .cons dev _ next => dev :: next.siblings

/-- The devices of all ports. -/
def Ports.devices : Ports → List ℕ
  | .nil => []
  | .cons dev childList next => dev :: (childList.devices ++ next.devices)

/-- Append a port without children to the list. -/
def Ports.append (child : ℕ) : Ports → Ports
  | .nil => .cons child .nil .nil
  | .cons dev childList next => .cons dev childList (next.append child)

/-- Append a port to the children of a device. -/
def Ports.attach (parent child : ℕ) : Ports → Ports
  | .nil => .nil
  | .cons dev childList next =>
    .cons dev (if dev = parent then childList.append child else childList.attach parent child)
      (next.attach parent child)

/-- The child list of a device. -/
def Ports.childList (parent : ℕ) : Ports → Ports
  | .nil => .nil
  | .cons dev children next =>
    if dev = parent then children
    else if parent ∈ children.devices then children.childList parent else next.childList parent

/-- Empty the child list of a device. -/
def Ports.detach (parent : ℕ) : Ports → Ports
  | .nil => .nil
  | .cons dev children next =>
    .cons dev (if dev = parent then .nil else children.detach parent) (next.detach parent)

/-- `UsbdConfig`, as far as it bounds the structures modelled here. -/
structure UsbdConfig where
  maxDevices : ℕ := 0x20
  maxEndpoints : ℕ := 0x40
  maxStaticDescSize : ℕ := 0x200
  maxHubDevices : ℕ := 8
  maxPortsPerHub : ℕ := 8

/-- `memPool`, with the request records of its devices and the hub buffers. -/
structure MemPool where
  device : ℕ → Device
  deviceTree : Ports
  freeDeviceList : List ℕ
  endpoint : ℕ → Endpoint
  freeEpList : List ℕ
  request : ReqId → IoRequest
  hub : ℕ → UsbHub
  hubBufferList : List ℕ
  delayResets : Bool

/-- `memPool.deviceTreeRoot`: the first device of the buffer. -/
def deviceTreeRoot : ℕ := 0

variable (s : MemPool) (dev : ℕ)

/-- Change one device. -/
def MemPool.setDevice (f : Device → Device) : MemPool :=
  { s with device := Function.update s.device dev (f (s.device dev)) }

/-- Change one hub buffer. -/
def MemPool.setHub (hub : ℕ) (f : UsbHub → UsbHub) : MemPool :=
  { s with hub := Function.update s.hub hub (f (s.hub hub)) }

/-- Change one request. -/
def MemPool.setRequest (req : ReqId) (f : IoRequest → IoRequest) : MemPool :=
  { s with request := Function.update s.request req (f (s.request req)) }

variable (ep : ℕ)

/-- Change one endpoint. -/
def MemPool.setEndpoint (f : Endpoint → Endpoint) : MemPool :=
  { s with endpoint := Function.update s.endpoint ep (f (s.endpoint ep)) }

variable (req : ReqId)

/-- The device of the endpoint a request was last attached to. -/
def MemPool.requester : Option ℕ :=
  (s.endpoint (s.request req).correspEndpoint).correspDevice

/-- `attachChildDevice`: take a device from the free list and put it at a port. -/
def attachChildDevice (parent : Option ℕ) (portNum : ℕ) : Option ℕ × MemPool :=
  match s.freeDeviceList with
  | [] => (none, s)
  | newDev :: rest =>
    let s := { s with freeDeviceList := rest }
    let s := s.setDevice newDev fun dev =>
      { dev with endpointList := [], devDriver := none, deviceStatus := .notConnected,
                 resetFlag := false, parent := parent, attachedToPortNo := portNum,
                 privDataField := none }
    match parent with
    | none => (some newDev, s)
    | some parent =>
      let tree := if parent = deviceTreeRoot then s.deviceTree.append newDev
        else s.deviceTree.attach parent newDev
      (some newDev, { s with deviceTree := tree })

/-- `freeDevice`. -/
def freeDevice : MemPool :=
  { s.setDevice dev fun d => { d with parent := none } with
    freeDeviceList := s.freeDeviceList ++ [dev] }

/-- `fetchPortElemByNumber`. -/
def fetchPortElemByNumber (hubDev port : ℕ) : Option ℕ :=
  (s.deviceTree.childList hubDev).siblings[port - 1]?

/-- `fetchDeviceById`. -/
def fetchDeviceById (cfg : UsbdConfig) (s : MemPool) (devId : ℕ) : Option ℕ :=
  if 0 < devId ∧ devId < cfg.maxDevices ∧ (s.device devId).parent.isSome then some devId else none

/-- `addTimerCallback` for the timer of a device; an active timer is left alone. -/
def addTimerCallback (func : TimerCallback) : MemPool :=
  if (s.device dev).timer.isSome then s else s.setDevice dev fun d => { d with timer := some func }

/-- `cleanUpFunc`: an endpoint that could not be set up goes back to the free list. -/
def cleanUpFunc (dev ep : ℕ) : MemPool :=
  let s := s.setDevice dev fun d => { d with endpointList := d.endpointList.filter (· ≠ ep) }
  let s := s.setEndpoint ep fun e => { e with correspDevice := none }
  { s with freeEpList := s.freeEpList ++ [ep] }

/-- `openDeviceEndpoint`; `tdLeft` says whether a transfer descriptor is left for it. -/
def openDeviceEndpoint (tdLeft : Bool) : Option ℕ × MemPool :=
  match s.freeEpList with
  | [] => (none, s)
  | newEp :: rest =>
    let s := { s with freeEpList := rest }
    let s := s.setEndpoint newEp fun e => { e with correspDevice := some dev }
    let s := s.setDevice dev fun d => { d with endpointList := d.endpointList ++ [newEp] }
    if tdLeft then (some newEp, s) else (none, cleanUpFunc s dev newEp)

/-- `removeEndpointFromDevice`: the endpoint is killed when its timer expires. -/
def removeEndpointFromDevice (s : MemPool) (ep : ℕ) : MemPool :=
  let s := s.setDevice dev fun d => { d with endpointList := d.endpointList.filter (· ≠ ep) }
  s.setEndpoint ep fun _ => { correspDevice := none, timerActive := true }

/-- `killEndpoint`: its requests are no longer busy and it is free again. -/
def killEndpoint : MemPool :=
  { s with
    request := fun req =>
      if (s.request req).correspEndpoint = ep then { s.request req with busyFlag := false }
      else s.request req
    freeEpList := s.freeEpList ++ [ep] }

/-- `attachIoReqToEndpoint`. -/
def attachIoReqToEndpoint (destPtr : Dest) (length : ℕ) (callback : InternCallback) : MemPool :=
  if (s.endpoint ep).correspDevice.isNone then s
  else if (s.request req).busyFlag then s
  else s.setRequest req fun _ =>
    { busyFlag := true, correspEndpoint := ep, destPtr := destPtr, length := length,
      callbackProc := callback, resultCode := 0, transferedBytes := 0 }

/-- `doControlTransfer`; the request itself is not read back by the driver. -/
def doControlTransfer (length : ℕ) (destPtr : Dest) (callback : InternCallback) : MemPool :=
  if (s.request req).busyFlag then s else attachIoReqToEndpoint s ep req destPtr length callback

variable (s : MemPool)

/-- `HubControlTransfer`. -/
def hubControlTransfer (hub length : ℕ) (destData : Dest) (callback : InternCallback) : MemPool :=
  if (s.request (.control hub)).busyFlag then s
  else doControlTransfer s (s.hub hub).controlEp (.control hub) length destData callback

variable (hub : ℕ)

/-- `getHubStatusChange`. -/
def getHubStatusChange : MemPool :=
  if (s.request (.status hub)).busyFlag then s
  else attachIoReqToEndpoint s (s.hub hub).statusChangeEp (.status hub) (.statusChangeInfo hub)
    (((s.hub hub).numChildDevices + 8) >>> 3) .hubStatusChangeCallback

/-- Ask for the status of a port whose change bit is set. -/
def requestPortStatus (hub port : ℕ) : MemPool :=
  let s := s.setHub hub fun h =>
    { h with statusChangeInfo := h.statusChangeInfo.clearBit port, portCounter := port }
  hubControlTransfer s hub 4 (.portStatusChange hub) .hubGetPortStatusCallback

/-- `hubStatusChangeCallback`. -/
def hubStatusChangeCallback : MemPool :=
  let dev := s.hub hub
  if (s.request (.status hub)).resultCode = rcOk then
    if dev.statusChangeInfo.bit 0 then
      let s := s.setHub hub fun h => { h with statusChangeInfo := h.statusChangeInfo.clearBit 0 }
      hubControlTransfer s hub 4 (.hubStatus hub) .hubGetHubStatusCallback
    else if 0 < dev.hubStatusCounter then
      if dev.statusChangeInfo.bit dev.hubStatusCounter then
        requestPortStatus s hub dev.hubStatusCounter
      else getHubStatusChange s hub
    else
      match (List.range' 1 dev.numChildDevices).find? dev.statusChangeInfo.bit with
      | some port => requestPortStatus s hub port
      | none => getHubStatusChange s hub
  else s

/-- `hubGetHubStatusCallback`: the change flags are the upper half of the hub status. -/
def hubGetHubStatusCallback (s : MemPool) (hub : ℕ) : MemPool :=
  let clear (flag : ℕ) : MemPool :=
    let s := s.setHub hub fun h => { h with hubStatus := h.hubStatus.clearBit (16 + flag) }
    hubControlTransfer s hub 0 .nowhere .hubGetHubStatusCallback
  if (s.request (.control hub)).resultCode = rcOk then
    if (s.hub hub).hubStatus.bit 16 then clear 0
    else if (s.hub hub).hubStatus.bit 17 then clear 1
    else hubStatusChangeCallback s hub
  else s

/-- `hubDeviceResetCallback`. -/
def hubDeviceResetCallback : MemPool :=
  if (s.request (.control hub)).resultCode = rcOk then getHubStatusChange s hub else s

/-- `hubResetDevice`: start the reset of a port, or delay it while another one is under way. -/
def hubResetDevice (dev : ℕ) : MemPool :=
  if s.delayResets then s.setDevice dev fun d => { d with deviceStatus := .resetDelayed }
  else
    let s := { s with delayResets := true }
    let s := s.setDevice dev fun d => { d with deviceStatus := .resetPending, resetFlag := true }
    if (s.device dev).parent = some deviceTreeRoot then s
    else
      match (s.device dev).parent.bind fun parent => (s.device parent).privDataField with
      | none => s
      | some hub =>
        let s := s.setHub hub fun h => { h with hubStatusCounter := (s.device dev).attachedToPortNo }
        hubControlTransfer s hub 0 .nowhere .hubDeviceResetCallback

/-- The first port in the order of the tree whose reset was delayed. -/
def delayedPort (device : ℕ → Device) : Ports → Option ℕ
  | .nil => none
  | .cons dev childList next =>
    if (device dev).deviceStatus = .resetDelayed then some dev
    else
      match if (device dev).deviceStatus = .ready then delayedPort device childList else none with
      | some found => some found
      | none => delayedPort device next

/-- `checkDelayedResetsTree`. -/
def checkDelayedResetsTree (tree : Ports) : MemPool :=
  match delayedPort s.device tree with
  | some dev => hubResetDevice s dev
  | none => s

/-- `checkDelayedResets`: give up the token and let the next delayed port have it. -/
def checkDelayedResets (dev : ℕ) : MemPool :=
  let s := { s with delayResets := false }
  let s := s.setDevice dev fun d => { d with resetFlag := false }
  checkDelayedResetsTree s s.deviceTree

/-- `killDevice`. -/
def killDevice (dev ep : ℕ) : MemPool :=
  let s := removeEndpointFromDevice dev s ep
  let s := checkDelayedResets s dev
  hubResetDevice s dev

variable (cfg : UsbdConfig) (s : MemPool)

/-- `freeHubBuffer`. -/
def freeHubBuffer : Option ℕ → MemPool
  | none => s
  | some hub => { s with hubBufferList := hub :: s.hubBufferList }

variable (devId : ℕ)

/-- `hubDrvDisconnect`. -/
def hubDrvDisconnect : MemPool :=
  match fetchDeviceById cfg s devId with
  | none => s
  | some dev => freeHubBuffer s (s.device dev).privDataField

/-- `flushPort` around the loop over the children. -/
def flushDevice (flushChildren : MemPool → MemPool) (s : MemPool) (dev : ℕ) : MemPool :=
  let s :=
    if (s.device dev).deviceStatus = .notConnected then s
    else
      let s := s.setDevice dev fun d => { d with deviceStatus := .notConnected }
      let s := if (s.device dev).devDriver = some .hub then hubDrvDisconnect cfg s dev else s
      let s := s.setDevice dev fun d => { d with devDriver := none, timer := none }
      let s := (s.device dev).endpointList.foldl (removeEndpointFromDevice dev) s
      let s := flushChildren s
      let s := s.setRequest (.device dev) fun r => { r with busyFlag := false }
      s.setDevice dev fun d => { d with privDataField := none }
  if (s.device dev).resetFlag then checkDelayedResets s dev else s

/-- Flush and free every port of a list. -/
def flushPorts : Ports → MemPool → MemPool
  | .nil, s => s
  | .cons dev childList next, s =>
    flushPorts next (freeDevice (flushDevice cfg (flushPorts childList) s dev) dev)

variable (dev : ℕ)

/-- `flushPort`. A port that is not connected is not searched for delayed resets, so its children
may leave the tree together. -/
def flushPort : MemPool :=
  flushDevice cfg
    (fun s => flushPorts cfg (s.deviceTree.childList dev)
      { s with deviceTree := s.deviceTree.detach dev }) s dev

/-- The loop of `doGetDeviceStaticDescriptor`; every turn moves on by two bytes at least. -/
def searchDescriptor (bytes : Bytes) (stop type : ℕ) : ℕ → ℕ → Option ℕ
  | 0, _ => none
  | turns + 1, offset =>
    if offset < stop ∧ 2 ≤ (bytes offset).toNat then
      if (bytes (offset + 1)).toNat = type then some offset
      else searchDescriptor bytes stop type turns (offset + (bytes offset).toNat)
    else none

/-- `doGetDeviceStaticDescriptor`: the offset of the next descriptor of a type. -/
def doGetDeviceStaticDescriptor (data : Option ℕ) (type : ℕ) : Option ℕ :=
  match fetchDeviceById cfg s devId with
  | none => none
  | some dev =>
    let bytes := (s.device dev).staticDeviceDesc
    let stop := (s.device dev).staticDeviceDescEnd
    let offset := match data with
      | some data => data + (bytes data).toNat
      | none => 0
    if type = 0 then some offset else searchDescriptor bytes stop type (stop + 1) offset

/-- `hubDrvProbe`: a device descriptor of class hub with one configuration. -/
def hubDrvProbe : Bool :=
  match doGetDeviceStaticDescriptor cfg s devId none 1 with
  | none => false
  | some desc =>
    let bytes := (s.device devId).staticDeviceDesc
    (bytes (desc + 4)).toNat = 9 ∧ (bytes (desc + 17)).toNat = 1

/-- `allocHubBuffer`. -/
def allocHubBuffer : Option ℕ × MemPool :=
  match s.hubBufferList with
  | [] => (none, s)
  | hub :: rest =>
    let s := { s with hubBufferList := rest }
    let s := s.setHub hub fun h => { h with desc := Function.update h.desc 1 0 }
    let s := s.setRequest (.control hub) fun r => { r with busyFlag := false }
    (some hub, s.setRequest (.status hub) fun r => { r with busyFlag := false })

/-- The second half of `hubDrvConnect`: take a hub buffer and configure the hub. -/
def setupHub (hubDesc : Option ℕ) (tdLeft : Bool) : ℤ × MemPool :=
  let bytes := (s.device dev).staticDeviceDesc
  match allocHubBuffer s with
  | (none, s) => (-8, s)
  | (some hub, s) =>
    let s := s.setDevice dev fun d => { d with privDataField := some hub }
    let s := s.setHub hub fun h => { h with controlEp := (s.device dev).endpointList.headD 0 }
    match openDeviceEndpoint s dev tdLeft with
    | (none, s) => (-9, freeHubBuffer s (some hub))
    | (some ep, s) =>
      let desc (old : Bytes) : Bytes := match hubDesc with
        | some start => old.overlay 0 (min (bytes start).toNat 15) fun i => bytes (start + i)
        | none => fun _ => 0
      let s := s.setHub hub fun h => { h with statusChangeEp := ep, desc := desc h.desc }
      (0, hubControlTransfer s hub 0 .nowhere .hubCheckDeviceDesc)

/-- `hubDrvConnect`. -/
def hubDrvConnect (tdLeft : Bool) : ℤ × MemPool :=
  match fetchDeviceById cfg s devId with
  | none => (-1, s)
  | some dev =>
    let bytes := (s.device dev).staticDeviceDesc
    match (doGetDeviceStaticDescriptor cfg s devId none 2).filter fun conf => bytes (conf + 4) = 1 with
    | none => (-2, s)
    | some confDesc =>
      match (doGetDeviceStaticDescriptor cfg s devId (some confDesc) 4).filter
          fun intf => bytes (intf + 4) = 1 with
      | none => (-3, s)
      | some intfDesc =>
        match doGetDeviceStaticDescriptor cfg s devId (some intfDesc) 5 with
        | none => (-4, s)
        | some endpDesc =>
          if (bytes (endpDesc + 2)).toNat.testBit 7 then
            if (bytes (endpDesc + 3)).toNat % 4 = 3 then
              setupHub s dev (doGetDeviceStaticDescriptor cfg s devId (some endpDesc) 0x29) tdLeft
            else (-6, s)
          else (-5, s)

/-- `connectNewDevice` with the hub driver as the only driver. -/
def connectNewDevice (tdLeft : Bool) : MemPool :=
  if hubDrvProbe cfg s dev then
    let s := s.setDevice dev fun d => { d with devDriver := some .hub }
    (hubDrvConnect cfg s dev tdLeft).2
  else s

/-- `fetchConfigDescriptors`. -/
def fetchConfigDescriptors (s : MemPool) (req : ReqId) (tdLeft : Bool) : MemPool :=
  let ep := (s.request req).correspEndpoint
  match s.requester req with
  | none => s
  | some dev =>
    let counter := (s.device dev).fetchDescriptorCounter
    if (s.request req).resultCode = rcOk ∨ counter = 0 then
      let curDescNum := counter / 2
      let bytes := (s.device dev).staticDeviceDesc
      let stop := (s.device dev).staticDeviceDescEnd
      let stop := if 0 < curDescNum ∧ counter % 2 = 0 then stop + bytes.uint16 (stop + 2) else stop
      let readLen := if counter % 2 = 1 then bytes.uint16 (stop + 2) else 4
      let s := s.setDevice dev fun d =>
        { d with fetchDescriptorCounter := counter + 1, staticDeviceDescEnd := stop }
      if cfg.maxStaticDescSize < stop + readLen then s
      else if curDescNum < (bytes 17).toNat then
        doControlTransfer s ep (.device dev) readLen (.descriptor dev stop) .fetchConfigDescriptors
      else connectNewDevice cfg s dev tdLeft
    else killDevice s dev ep

variable (req : ReqId)

/-- `requestDeviceDescriptor`. -/
def requestDeviceDescriptor (length : ℕ) : MemPool :=
  match s.requester req with
  | none => s
  | some dev =>
    let s := s.setDevice dev fun d => { d with staticDeviceDescEnd := 0 }
    doControlTransfer s (s.request req).correspEndpoint (.device dev) length (.descriptor dev 0)
      .requestDevDescrptCb

/-- `sizeof(UsbDeviceDescriptor)`. -/
def sizeofUsbDeviceDescriptor : ℕ := 18

/-- `requestDevDescrptCb`. -/
def requestDevDescrptCb (tdLeft : Bool) : MemPool :=
  match s.requester req with
  | none => s
  | some dev =>
    if (s.request req).resultCode = rcOk then
      if (s.request req).transferedBytes < sizeofUsbDeviceDescriptor then
        requestDeviceDescriptor s req sizeofUsbDeviceDescriptor
      else
        let s := s.setDevice dev fun d =>
          { d with fetchDescriptorCounter := 0,
                   staticDeviceDescEnd := d.staticDeviceDescEnd + sizeofUsbDeviceDescriptor }
        fetchConfigDescriptors cfg s req tdLeft
    else killDevice s dev (s.request req).correspEndpoint

/-- `hubPeekDeviceDescriptor`. -/
def hubPeekDeviceDescriptor : MemPool :=
  let s := requestDeviceDescriptor s req 8
  match s.requester req with
  | none => s
  | some dev => checkDelayedResets s dev

/-- `hubSetFuncAddressCB`. -/
def hubSetFuncAddressCB : MemPool :=
  let ep := (s.request req).correspEndpoint
  match s.requester req with
  | none => s
  | some dev =>
    if (s.request req).resultCode = rcNoResponse then
      let s := s.setDevice dev fun d => { d with functionDelay := d.functionDelay * 2 }
      if (s.device dev).functionDelay ≤ 0x500 then addTimerCallback s dev (.hubSetFuncAddress ep)
      else killDevice s dev ep
    else
      let s := s.setDevice dev fun d => { d with deviceStatus := .ready }
      addTimerCallback s dev (.hubPeekDeviceDescriptor req)

/-- `hubSetFuncAddress`. -/
def hubSetFuncAddress (ep : ℕ) : MemPool :=
  match (s.endpoint ep).correspDevice with
  | none => s
  | some dev => doControlTransfer s ep (.device dev) 0 .nowhere .hubSetFuncAddressCB

/-- `hubTimedSetFuncAddress`. -/
def hubTimedSetFuncAddress : MemPool :=
  let s := s.setDevice dev fun d => { d with functionDelay := 20 }
  addTimerCallback s dev (.hubSetFuncAddress ((s.device dev).endpointList.headD 0))

/-- A port reset is done: open the control endpoint and wait before the address is assigned. -/
def portResetDone (port : ℕ) (tdLeft : Bool) : MemPool :=
  let s := s.setDevice port fun d => { d with deviceStatus := .resetComplete }
  match openDeviceEndpoint s port tdLeft with
  | (some _, s) => hubTimedSetFuncAddress s port
  | (none, s) => s

/-- A device was plugged in: its port is reset after a while. -/
def portConnected (port : ℕ) : MemPool :=
  let s := s.setDevice port fun d => { d with deviceStatus := .connected }
  addTimerCallback s port (.hubResetDevice port)

/-- The change flag of a port that is cleared first. -/
def portFeature (portStatusChange : Bytes) : Option ℕ :=
  [16, 17, 18, 19, 20].find? portStatusChange.bit

/-- `hubGetPortStatusCallback`. -/
def hubGetPortStatusCallback (s : MemPool) (hub : ℕ) (tdLeft : Bool) : MemPool :=
  let status := (s.hub hub).portStatusChange
  if (s.request (.control hub)).resultCode = rcOk then
    match portFeature status with
    | some feature =>
      let s := s.setHub hub fun h => { h with portStatusChange := h.portStatusChange.clearBit feature }
      hubControlTransfer s hub 0 .nowhere .hubGetPortStatusCallback
    | none =>
      let port := (s.endpoint (s.hub hub).controlEp).correspDevice.bind fun dev =>
        fetchPortElemByNumber s dev (s.hub hub).portCounter
      match port with
      | none => hubStatusChangeCallback s hub
      | some port =>
        if status.bit 0 then
          if (s.device port).deviceStatus = .notConnected then portConnected s port
          else if (s.device port).deviceStatus = .resetPending ∧ status.bit 1 then
            let s := portResetDone s port tdLeft
            let s := s.setHub hub fun h => { h with hubStatusCounter := 0 }
            hubStatusChangeCallback s hub
          else hubStatusChangeCallback s hub
        else hubStatusChangeCallback (flushPort cfg s port) hub
  else s

/-- `hubSetPortPower`. -/
def hubSetPortPower (s : MemPool) (hub : ℕ) : MemPool :=
  if (s.request (.control hub)).resultCode = rcOk ∨ (s.hub hub).portCounter = 0 then
    let s := s.setHub hub fun h => { h with portCounter := h.portCounter + 1 }
    if (s.hub hub).portCounter ≤ (s.hub hub).numChildDevices then
      hubControlTransfer s hub 0 .nowhere .hubSetPortPower
    else getHubStatusChange s hub
  else s

/-- The loop of `hubSetupPorts`: attach ports until the devices run out. -/
def attachPorts (usbDev : ℕ) : ℕ → ℕ → MemPool → ℕ × MemPool
  | 0, port, s => (port, s)
  | left + 1, port, s =>
    match attachChildDevice s (some usbDev) (port + 1) with
    | (none, s) => (port, s)
    | (some _, s) => attachPorts usbDev left (port + 1) s

variable (hub : ℕ)

/-- `hubSetupPorts`. -/
def hubSetupPorts : MemPool :=
  if (s.request (.control hub)).resultCode = rcOk then
    match (s.endpoint (s.hub hub).controlEp).correspDevice with
    | none => s
    | some usbDev =>
      let (count, s) := attachPorts usbDev ((s.hub hub).desc 2).toNat 0 s
      let s := s.setHub hub fun h =>
        { h with hubStatusCounter := 0, portCounter := 0, numChildDevices := count }
      if 0 < count then hubSetPortPower s hub else s
  else s

/-- `hubCheckPorts`. -/
def hubCheckPorts : MemPool :=
  if (s.request (.control hub)).resultCode = rcOk ∧ ((s.hub hub).desc 2).toNat ≤ cfg.maxPortsPerHub then
    hubControlTransfer s hub 4 (.hubStatus hub) .hubSetupPorts
  else s

/-- `hubCheckDeviceDesc`; a hub descriptor has fifteen bytes. -/
def hubCheckDeviceDesc : MemPool :=
  if (s.request (.control hub)).resultCode = rcOk then
    if (s.hub hub).desc 1 = 0x29 then hubCheckPorts cfg s hub
    else hubControlTransfer s hub 15 (.hubDesc hub) .hubCheckPorts
  else s

/-- The body of the loop of `handleRhsc`. -/
def handleRhscPort (status : Bytes) (tdLeft : Bool) (s : MemPool) (port : ℕ) : MemPool :=
  if status.bit 0 then
    let s := if (s.device port).deviceStatus ≠ .notConnected ∧ status.bit 16 then flushPort cfg s port else s
    if (s.device port).deviceStatus = .notConnected then portConnected s port
    else if (s.device port).deviceStatus = .resetPending ∧ ¬ status.bit 4 then portResetDone s port tdLeft
    else s
  else flushPort cfg s port

/-- The loop of `handleRhsc` over the root ports. -/
def handleRhscPorts (status : ℕ → Bytes) (tdLeft : ℕ → Bool) : List ℕ → ℕ → MemPool → MemPool
  | [], _, s => s
  | port :: ports, portNum, s =>
    handleRhscPorts status tdLeft ports (portNum + 1)
      (handleRhscPort cfg (status portNum) (tdLeft portNum) s port)

/-- `handleRhsc`. -/
def handleRhsc (status : ℕ → Bytes) (tdLeft : ℕ → Bool) : MemPool :=
  handleRhscPorts cfg status tdLeft s.deviceTree.siblings 0 s

/-- What the bus made of a transfer. -/
structure Result where
  resultCode : ℕ
  transferedBytes : ℕ := 0
  data : Bytes := fun _ => 0

variable (r : Result)

/-- The data of a transfer is in its buffer. -/
def receive : Dest → MemPool
  | .nowhere => s
  | .descriptor dev offset => s.setDevice dev fun d =>
    { d with staticDeviceDesc := d.staticDeviceDesc.overlay offset r.transferedBytes r.data }
  | .hubStatus hub => s.setHub hub fun h =>
    { h with hubStatus := h.hubStatus.overlay 0 r.transferedBytes r.data }
  | .portStatusChange hub => s.setHub hub fun h =>
    { h with portStatusChange := h.portStatusChange.overlay 0 r.transferedBytes r.data }
  | .hubDesc hub => s.setHub hub fun h => { h with desc := h.desc.overlay 0 r.transferedBytes r.data }
  | .statusChangeInfo hub => s.setHub hub fun h =>
    { h with statusChangeInfo := h.statusChangeInfo.overlay 0 r.transferedBytes r.data }

/-- Call the callback of a request; the request of a device and those of a hub have their own. -/
def callbackProc (s : MemPool) (req : ReqId) (tdLeft : Bool) : MemPool :=
  match (s.request req).callbackProc, req with
  | .hubSetFuncAddressCB, .device dev => hubSetFuncAddressCB s (.device dev)
  | .requestDevDescrptCb, .device dev => requestDevDescrptCb cfg s (.device dev) tdLeft
  | .fetchConfigDescriptors, .device dev => fetchConfigDescriptors cfg s (.device dev) tdLeft
  | .hubStatusChangeCallback, .status hub => hubStatusChangeCallback s hub
  | .hubCheckDeviceDesc, .control hub => hubCheckDeviceDesc cfg s hub
  | .hubCheckPorts, .control hub => hubCheckPorts cfg s hub
  | .hubSetupPorts, .control hub => hubSetupPorts s hub
  | .hubSetPortPower, .control hub => hubSetPortPower s hub
  | .hubGetHubStatusCallback, .control hub => hubGetHubStatusCallback s hub
  | .hubGetPortStatusCallback, .control hub => hubGetPortStatusCallback cfg s hub tdLeft
  | .hubDeviceResetCallback, .control hub => hubDeviceResetCallback s hub
  | _, _ => s

/-- A transfer is done: its data has arrived and its request is no longer busy. -/
def transferred : MemPool :=
  (receive s r (s.request req).destPtr).setRequest req fun request =>
    { request with busyFlag := false, resultCode := r.resultCode, transferedBytes := r.transferedBytes }

/-- `processDoneQueue_GenTd`: a removed endpoint no longer calls back. -/
def processDoneQueue (tdLeft : Bool) : MemPool :=
  if (s.request req).busyFlag then
    match (transferred s req r).requester req with
    | none => transferred s req r
    | some _ => callbackProc cfg (transferred s req r) req tdLeft
  else s

/-- The timer of a device expired. -/
def timerExpired : MemPool :=
  match (s.device dev).timer with
  | none => s
  | some func =>
    let s := s.setDevice dev fun d => { d with timer := none }
    match func with
    | .hubResetDevice dev => hubResetDevice s dev
    | .hubSetFuncAddress ep => hubSetFuncAddress s ep
    | .hubPeekDeviceDescriptor req => hubPeekDeviceDescriptor s req

/-- The timer of a removed endpoint expired. -/
def endpointTimerExpired (ep : ℕ) : MemPool :=
  if (s.endpoint ep).timerActive then
    killEndpoint (s.setEndpoint ep fun e => { e with timerActive := false }) ep
  else s

/-- What the interrupt thread is woken for. -/
inductive Event
  | rootHubStatusChange (status : ℕ → Bytes) (tdLeft : ℕ → Bool)
  | timer (dev : ℕ)
  | endpointTimer (ep : ℕ)
  | transferDone (req : ReqId) (result : Result) (tdLeft : Bool)

/-- What the driver does about an event. -/
def step : Event → Unit × MemPool
  | .rootHubStatusChange status tdLeft => ((), handleRhsc cfg s status tdLeft)
  | .timer dev => ((), timerExpired s dev)
  | .endpointTimer ep => ((), endpointTimerExpired s ep)
  | .transferDone req result tdLeft => ((), processDoneQueue cfg s req result tdLeft)

/-- `initHcdStructs` and `initHubDriver`: a virtual root with two ports. -/
def initHcdStructs : MemPool :=
  let s : MemPool :=
    { device := fun _ => {}, deviceTree := .nil, freeDeviceList := List.range cfg.maxDevices,
      endpoint := fun _ => {}, freeEpList := List.range cfg.maxEndpoints,
      request := fun _ => {}, hub := fun _ => {}, hubBufferList := List.range cfg.maxHubDevices,
      delayResets := false }
  let s := (attachChildDevice s none 0).2
  let s := (attachChildDevice s (some deviceTreeRoot) 1).2
  (attachChildDevice s (some deviceTreeRoot) 2).2

end Ps2sdk.Usbd
