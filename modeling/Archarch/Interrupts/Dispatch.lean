import Archarch.Foundations.Runs
import Archarch.Interrupts.Gic

/- Interrupt dispatch of irq.c against the devices and the GIC. The handler runs with interrupts
   masked, one access to shared state after the other; a device may raise its interrupt between any
   two of them. A registration is made by the main thread and may be interrupted anywhere. -/
namespace Archarch.Interrupts
open LabelledRuns

/-- The five flags irq_rng_pending, ..., irq_input_pending. -/
inductive Flag where
  | rng
  | blk
  | netRx
  | gpu
  | input
deriving DecidableEq

structure IrqDevEntry where
  vpci : Nat
  flag : Flag
  irqId : Nat
  active : Bool

def maxIrqDevs : Nat := 8

def timerIrqId : Nat := 30

def gicSpi (n : Nat) : Nat := n + 32

def pciSlots : Nat := 32

/-- The swizzle of the pins over four lines; a device without a pin has none. -/
def pciGetIrq (dev irqPin : Nat) : Nat := if irqPin = 0 then 0 else gicSpi (3 + (irqPin - 1 + dev) % 4)

structure IrqTable where
  pending : Flag → Bool
  timerTicks : BitVec 64
  timerRegistered : Bool
  devs : Nat → IrqDevEntry
  count : Nat

def irqInit (t : IrqTable) : IrqTable where
  pending := fun _ => false
  timerTicks := 0
  timerRegistered := false
  devs := fun i => if i < maxIrqDevs then { t.devs i with active := false } else t.devs i
  count := 0

/-- Where the main thread is in register_dev, once it has its entry. -/
inductive RegisterPlace where
  | vpci
  | flag
  | irqId
  | active
  | priority
  | enable
deriving DecidableEq

structure Registering where
  slot : Nat
  vpci : Nat
  flag : Flag
  irqId : Nat
  place : RegisterPlace

inductive Handler where
  | idle
  | acked (iar : Nat)
  | rearm (iar : Nat)
  | timerEoi (iar : Nat)
  | tick
  | walk (iar i : Nat)
  | read (iar i : Nat)
  | mark (iar i : Nat) (isr : BitVec 8)
  | eoi (iar : Nat)
deriving DecidableEq

/-- owed are the devices with a notification that no flag reports yet, fresh those that notified
    since the handler was entered, and noted those that ever did. The kernel keeps none of them. -/
structure Irq where
  table : IrqTable
  main : Option Registering
  handler : Handler
  gic : Gic
  active : List Nat
  isr : Nat → BitVec 8
  timerStatus : Bool
  owed : Nat → Bool
  fresh : Nat → Bool
  noted : Nat → Bool

section Machine
variable (pin : Nat → Nat)

/-- The interrupt line of a device. -/
def line (d : Nat) : Nat := pciGetIrq d (pin d)

/-- A level-triggered line is up while a device on it has something in its ISR status. -/
def level (s : Irq) (id : Nat) : Bool :=
  (id = timerIrqId && s.timerStatus) || (List.range pciSlots).any fun d => line pin d = id && s.isr d ≠ 0

def signaled (s : Irq) (id : Nat) : Bool := level pin s id && delivers s.gic id && decide (id ∉ s.active)

inductive IrqEvent where
  | notify (d : Nat)
  | configChange (d : Nat)
  | timerFires
  | take (iar : Nat)
  | handle
  | register (flag : Flag) (d : Nat)
  | main
  | registerTimer
  | clear (flag : Flag)

def gicEoi (s : Irq) (irqId : Nat) : Irq := { s with active := s.active.erase irqId }

/-- One step of irq_handler. -/
def handlerStep (s : Irq) : Option Irq :=
  match s.handler with
  | .idle => none
  | .acked iar =>
    if 1020 ≤ iar then some { s with handler := .idle }
    else if iar = timerIrqId ∧ s.table.timerRegistered then
      some { s with table := { s.table with timerTicks := s.table.timerTicks + 1 }, handler := .rearm iar }
    else if iar = timerIrqId ∧ !s.table.timerRegistered then some { gicEoi s iar with handler := .idle }
    else some { s with handler := .walk iar 0 }
  | .rearm iar => some { s with timerStatus := false, handler := .timerEoi iar }
  | .timerEoi iar => some { gicEoi s iar with handler := .tick }
  | .tick => some { s with handler := .idle }
  | .walk iar i =>
    if i < s.table.count then
      if !(s.table.devs i).active || (s.table.devs i).irqId ≠ iar then some { s with handler := .walk iar (i + 1) }
      else some { s with handler := .read iar i }
    else some { s with handler := .eoi iar }
  | .read iar i =>
    let d := (s.table.devs i).vpci
    some { s with isr := Function.update s.isr d 0, handler := .mark iar i (s.isr d) }
  | .mark iar i isr =>
    if isr &&& 1 ≠ 0 then
      some
        { s with
          table := { s.table with pending := Function.update s.table.pending (s.table.devs i).flag true }
          owed := Function.update s.owed (s.table.devs i).vpci false
          handler := .walk iar (i + 1) }
    else some { s with handler := .walk iar (i + 1) }
  | .eoi iar => some { gicEoi s iar with handler := .idle }

def setEntry (s : Irq) (i : Nat) (e : IrqDevEntry) : Irq :=
  { s with table := { s.table with devs := Function.update s.table.devs i e } }

/-- One step of register_dev behind the check of the count. -/
def registerStep (s : Irq) (r : Registering) : Irq :=
  let e := s.table.devs r.slot
  match r.place with
  | .vpci => { setEntry s r.slot { e with vpci := r.vpci } with main := some { r with place := .flag } }
  | .flag => { setEntry s r.slot { e with flag := r.flag } with main := some { r with place := .irqId } }
  | .irqId => { setEntry s r.slot { e with irqId := r.irqId } with main := some { r with place := .active } }
  | .active => { setEntry s r.slot { e with active := true } with main := some { r with place := .priority } }
  | .priority => { s with gic := gicSetPriority s.gic r.irqId 0xA0, main := some { r with place := .enable } }
  | .enable => { s with gic := gicEnableIrq s.gic r.irqId, main := none }

/-- A driver registers its device if it has an interrupt. The main thread takes no step while the
    handler runs. -/
def irqStep (s : Irq) : IrqEvent → Option Irq
  | .notify d =>
    if d < pciSlots then
      some
        { s with
          isr := Function.update s.isr d (s.isr d ||| 1)
          owed := Function.update s.owed d true
          fresh := Function.update s.fresh d true
          noted := Function.update s.noted d true }
    else none
  | .configChange d => if d < pciSlots then some { s with isr := Function.update s.isr d (s.isr d ||| 2) } else none
  | .timerFires => some { s with timerStatus := true }
  | .take iar =>
    if s.handler = .idle ∧ (1020 ≤ iar ∨ signaled pin s iar) then
      some
        { s with
          handler := .acked iar
          active := if 1020 ≤ iar then s.active else iar :: s.active
          fresh := fun _ => false }
    else none
  | .handle => handlerStep s
  | .register flag d =>
    if s.handler = .idle ∧ s.main.isNone ∧ d < pciSlots ∧ line pin d ≠ 0 then
      if maxIrqDevs ≤ s.table.count then some s
      else
        some
          { s with
            table := { s.table with count := s.table.count + 1 }
            main := some ⟨s.table.count, d, flag, line pin d, .vpci⟩ }
    else none
  | .main => if s.handler = .idle then s.main.map (registerStep s) else none
  | .registerTimer =>
    if s.handler = .idle ∧ s.main.isNone then some { s with table := { s.table with timerRegistered := true } } else none
  | .clear flag =>
    if s.handler = .idle then some { s with table := { s.table with pending := Function.update s.table.pending flag false } }
    else none

/-- After gic_init and irq_init, on a GIC that has the lines of the PCI pins. What is left in an ISR
    status counts as a notification. -/
structure IrqStart (s : Irq) : Prop where
  table : ∃ t, s.table = irqInit t
  gic : ∃ g typer, 2 ≤ itLines typer ∧ s.gic = gicInit g typer
  main : s.main = none
  handler : s.handler = .idle
  active : s.active = []
  quiet : ∀ d, s.owed d = false
  left : ∀ d, (s.isr d).getLsbD 0 = true → s.noted d = true

def IrqReached : Irq → Prop := Reaches IrqStart (Taken (irqStep pin))

end Machine
end Archarch.Interrupts
