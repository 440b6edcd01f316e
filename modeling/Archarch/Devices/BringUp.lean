import Archarch.Devices.Capabilities
import Archarch.Devices.DecodedBars
import Archarch.Devices.Transport

/- The init functions of the virtio drivers on one bus: each finds its device, gives it its addresses
   and brings it up. They share the BAR windows and the ring memory, and any of them can be called
   at any time and again. -/
namespace Archarch.BringUp
open ExtentLayout Transport
open PciDevices (Config Probe PciDevice BarKind AssignState VirtioPciDev pciAssignBars assignStart barRounds
  virtioPciParseCaps capBar capType configRead32 OnList IsVendor virtioPciCapCommonCfg)
open KernelHeap (kernVaOffset)
open Virtqueues (virtqMaxSize)

def pciVendorId : Nat := 0x00
def pciDeviceId : Nat := 0x02
def pciInterruptPin : Nat := 0x3D
def virtioPciVendor : Nat := 0x1AF4

def configRead16 (config : Config) (offset : Nat) : Nat :=
  (config offset).toNat + 2 ^ 8 * (config (offset + 1)).toNat

/-- What the 32 slots of bus 0 answer; common are the places of the common configuration of a device, by BAR
    and offset. A device whose reset takes longer than rounds reads of the status keeps its driver waiting
    for good. -/
structure Bus where
  config : Nat → Config
  probes : Nat → Nat → Probe
  common : Nat → List (Nat × Nat)
  device : Nat → Device
  rounds : Nat

/-- The structs of the drivers: one each, and those of the input devices. -/
inductive Driver where
  | rng
  | blk
  | net
  | gpu
  | input (i : Nat)
deriving DecidableEq

/-- What the drivers differ in: the two device ids, the features that they accept, whether they need a
    device configuration, and their queues with the sizes that they ask for. -/
structure Wishes where
  ids : List Nat
  features : Nat
  needsConfig : Bool
  queues : List (Nat × Nat)

def virtioRng : Wishes := ⟨[0x1005, 0x1044], 0, false, [(0, 16)]⟩

/-- VIRTIO_BLK_F_BLK_SIZE -/
def virtioBlk : Wishes := ⟨[0x1001, 0x1042], 1 <<< 6, true, [(0, 32)]⟩

/-- VIRTIO_NET_F_MAC | VIRTIO_NET_F_STATUS -/
def virtioNet : Wishes := ⟨[0x1000, 0x1041], 1 <<< 5 ||| 1 <<< 16, true, [(0, 256), (1, 256)]⟩

def virtioGpu : Wishes := ⟨[0x1050, 0x1050], 0, false, [(0, 64)]⟩

def virtioInput : Wishes := ⟨[0x1052, 0x1052], 0, false, [(0, 64), (1, 8)]⟩

def wishes : Driver → Wishes
  | .rng => virtioRng
  | .blk => virtioBlk
  | .net => virtioNet
  | .gpu => virtioGpu
  | .input _ => virtioInput

/-- The common part of struct virtio_rng and the like; a queue goes by its index on the device. -/
structure DriverState where
  slot : Nat
  vendorId : Nat
  deviceId : Nat
  irqPin : Nat
  pci : PciDevice
  vpci : VirtioPciDev
  queues : Nat → DriverQueue

/-- bars are the addresses that a device decodes, by the register of the BAR. ready are the drivers whose init
    function has returned 0 and has not been called again; given are the slots and queues for which ring
    memory was asked for. -/
structure Machine where
  assign : AssignState
  bars : Nat → List (Nat × BarKind × Range)
  commands : Nat → BitVec 16
  traces : Nat → Trace
  next : Nat
  drivers : Driver → DriverState
  inputCount : Nat
  ready : Driver → Bool
  given : List (Nat × Nat)

def setReady (m : Machine) (d : Driver) (value : Bool) : Machine :=
  { m with ready := Function.update m.ready d value }

def setDriver (m : Machine) (d : Driver) (own : DriverState) : Machine :=
  { m with drivers := Function.update m.drivers d own }

def setTrace (m : Machine) (slot : Nat) (t : Trace) : Machine :=
  { m with traces := Function.update m.traces slot t }

section Source
variable (bus : Bus) (memory : RingMemory)

def isDevice (ids : List Nat) (slot : Nat) : Bool :=
  configRead16 (bus.config slot) pciVendorId = virtioPciVendor ∧ configRead16 (bus.config slot) pciDeviceId ∈ ids

def pciFind (ids : List Nat) : Option Nat := (List.range 32).find? (isDevice bus ids)

/-- PCI_CMD_IO | PCI_CMD_MEMORY | PCI_CMD_BUS_MASTER, and interrupts not disabled. -/
def enableCommand (cmd : BitVec 16) : BitVec 16 := (cmd ||| 7) &&& ~~~(1#16 <<< 10)

/-- What is done with a device that was found: pci_assign_bars and pci_enable_device. -/
def claim (d : Driver) (slot : Nat) (m : Machine) : Machine :=
  let own := m.drivers d
  let assigned := pciAssignBars m.assign (own.pci, bus.probes slot)
  let config := bus.config slot
  let own := { own with
    slot := slot
    vendorId := configRead16 config pciVendorId
    deviceId := configRead16 config pciDeviceId
    irqPin := (config pciInterruptPin).toNat
    pci := assigned.dev }
  setDriver
    { m with
      assign := assigned
      bars := Function.update m.bars slot (barRounds (bus.probes slot) assigned.dev 6 0)
      commands := Function.update m.commands slot (enableCommand (m.commands slot)) }
    d own

def commonCfgBytes : Nat := 0x38

/-- A common configuration of the device of a slot starts at this address. -/
def startsAt (bars : Nat → List (Nat × BarKind × Range)) (a slot : Nat) : Bool :=
  (bus.common slot).any fun place => (bars slot).any fun bar =>
    bar.1 = place.1 ∧ place.2 + commonCfgBytes ≤ bar.2.2.len ∧ bar.2.2.base + place.2 + kernVaOffset = a

/-- The device that an access through common_cfg reaches. -/
def commonAt (bars : Nat → List (Nat × BarKind × Range)) (a : Nat) : Option Nat :=
  (List.range 32).find? (startsAt bus bars a)

/-- common is the slot of the device that the driver reaches through its common_cfg. -/
def setupQueue (d : Driver) (common index size : Nat) (m : Machine) : Int × Machine :=
  let own := m.drivers d
  let (r, t, next, vq) := virtioPciSetupQueue (bus.device common) memory own.vpci.notifyBase
    own.vpci.notifyOffMul (m.traces common) m.next (own.queues index) index size
  let given := if r < 0 then m.given else m.given ++ [(common, index)]
  let m := setTrace (setDriver m d { own with queues := Function.update own.queues index vq }) common t
  (r, { m with next := next, given := given })

/-- The calls of virtio_pci_setup_queue, up to the first that fails. -/
def setupQueues (d : Driver) (common : Nat) : List (Nat × Nat) → Machine → Int × Machine
  | [], m => (0, m)
  | (index, size) :: rest, m =>
    let (r, m) := setupQueue bus memory d common index size m
    if r < 0 then (-1, m) else setupQueues d common rest m

/-- From virtio_pci_setup_queue to virtio_pci_set_driver_ok. -/
def driveDevice (d : Driver) (common : Nat) (m : Machine) : Int × Machine :=
  let (r, m) := setupQueues bus memory d common (wishes d).queues m
  if r < 0 then (-1, m) else (0, setTrace m common (virtioPciSetDriverOk (m.traces common)))

/-- From virtio_pci_parse_caps to virtio_pci_set_driver_ok; none if it does not come back. Where nothing is
    behind common_cfg a read gives ones, and the reset has no end. -/
def bringUp (d : Driver) (m : Machine) : Option (Int × Machine) :=
  let own := m.drivers d
  match virtioPciParseCaps (bus.config own.slot) (fun i => (own.pci.barAddr i).toNat) own.vpci with
  | none => none
  | some (parsed, vpci) =>
    let m := setDriver m d { own with vpci := vpci }
    if parsed < 0 then some (-1, m)
    else
      match commonAt bus m.bars vpci.commonCfg with
      | none => none
      | some common =>
        match virtioPciInitDevice (bus.device common) bus.rounds (m.traces common) (wishes d).features 0 with
        | none => none
        | some (agreed, t) =>
          let m := setTrace m common t
          if agreed < 0 then some (-1, m)
          else if (wishes d).needsConfig ∧ vpci.deviceCfg = 0 then some (-1, m)
          else some (driveDevice bus memory d common m)

/-- An init function; last is the result of what it does once the device is driven. -/
def virtioInit (d : Driver) (last : Int) (m : Machine) : Option (Int × Machine) :=
  match pciFind bus (wishes d).ids with
  | none => some (-1, m)
  | some slot =>
    match bringUp bus memory d (claim bus d slot (setReady m d false)) with
    | none => none
    | some (r, m) => if r < 0 then some (-1, m) else some (last, setReady m d (last = 0))

def virtioRngInit : Machine → Option (Int × Machine) := virtioInit bus memory .rng 0

def virtioBlkInit : Machine → Option (Int × Machine) := virtioInit bus memory .blk 0

def virtioNetInit : Machine → Option (Int × Machine) := virtioInit bus memory .net 0

/-- gpu_get_display_info, gpu_create_resource, gpu_attach_backing and gpu_set_scanout, given what
    gpu_send_cmd returns for each. -/
def gpuDisplay (answers : Nat → Nat) : Int :=
  if answers 0 ≠ 0x1101 then -1
  else if answers 1 ≠ 0x1100 then -1
  else if answers 2 ≠ 0x1100 then -1
  else if answers 3 ≠ 0x1100 then -1
  else 0

def virtioGpuInit (answers : Nat → Nat) : Machine → Option (Int × Machine) :=
  virtioInit bus memory .gpu (gpuDisplay answers)

def claimed (m : Machine) (slot : Nat) : Bool :=
  (List.range m.inputCount).any fun i => (m.drivers (.input i)).slot = slot

/-- A round of the loop of find_and_init_input, with whether it has taken the device. -/
def tryInput (slot : Nat) (m : Machine) : Option (Bool × Machine) :=
  if isDevice bus virtioInput.ids slot ∧ ¬ claimed m slot then
    let d := Driver.input m.inputCount
    match bringUp bus memory d (claim bus d slot m) with
    | none => none
    | some (r, m) =>
      if r < 0 then some (false, m) else some (true, { setReady m d true with inputCount := m.inputCount + 1 })
  else some (false, m)

/-- The slots that are left, with the slot to go on from behind a device. -/
def findAndInitInput : List Nat → Machine → Option (Option Nat × Machine)
  | [], m => some (none, m)
  | slot :: rest, m =>
    match tryInput bus memory slot m with
    | none => none
    | some (taken, m) => if taken then some (some (slot + 1), m) else findAndInitInput rest m

def maxInputDevs : Nat := 4

/-- while (input_dev_count < MAX_INPUT_DEVS); a round that goes on has added a device. -/
def inputRounds : Nat → Nat → Machine → Option Machine
  | 0, _, m => some m
  | rounds + 1, start, m =>
    if m.inputCount < maxInputDevs then
      match findAndInitInput bus memory (List.range' start (32 - start)) m with
      | none => none
      | some (none, m) => some m
      | some (some start, m) => inputRounds rounds start m
    else some m

def forgetInputs (m : Machine) : Machine :=
  { m with
    inputCount := 0
    ready := fun
      | .input _ => false
      | d => m.ready d }

def virtioInputInitAll (m : Machine) : Option (Int × Machine) :=
  (inputRounds bus memory (maxInputDevs + 1) 0 (forgetInputs m)).map fun m => (m.inputCount, m)

inductive Call where
  | rng
  | blk
  | net
  | gpu (answers : Nat → Nat)
  | inputs

def call (m : Machine) : Call → Option (Int × Machine)
  | .rng => virtioRngInit bus memory m
  | .blk => virtioBlkInit bus memory m
  | .net => virtioNetInit bus memory m
  | .gpu answers => virtioGpuInit bus memory answers m
  | .inputs => virtioInputInitAll bus memory m

end Source

/-- Before the first call: no device was accessed, and none has an address. -/
structure Booted (m : Machine) : Prop where
  assign : m.assign = assignStart
  bars : ∀ slot, m.bars slot = []
  traces : ∀ slot, m.traces slot = []
  next : m.next = 0
  inputs : m.inputCount = 0
  ready : ∀ d, m.ready d = false
  given : m.given = []

/-- The capabilities of the devices that the drivers look for say where their common configuration is, in a
    BAR that holds it whole. -/
def Announced (bus : Bus) : Prop :=
  ∀ slot d, isDevice bus (wishes d).ids slot = true → ∀ off, OnList (bus.config slot) off →
    IsVendor (bus.config slot) off → capType (bus.config slot) off = virtioPciCapCommonCfg →
    capBar (bus.config slot) off < 6 ∧
      (capBar (bus.config slot) off, configRead32 (bus.config slot) (off.toNat + 8)) ∈ bus.common slot ∧
      ∀ r ∈ (bus.probes slot (capBar (bus.config slot) off)).requests,
        configRead32 (bus.config slot) (off.toNat + 8) + commonCfgBytes ≤ r.size

end Archarch.BringUp
