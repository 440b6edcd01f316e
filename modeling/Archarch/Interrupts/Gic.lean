import Archarch.Foundations.PackedWords

/- The GICv3 driver of gic.c over the registers of the distributor, the redistributor and the CPU
   interface. An array of registers is a function of the index in its macro. -/
namespace Archarch.Interrupts
open PackedWords

/-- The enable registers keep their bits: ISENABLER sets those that are written as ones, ICENABLER
    clears them. -/
structure Gic where
  gicdCtlr : BitVec 32
  gicdIgroupr : Nat → BitVec 32
  gicdIsenabler : Nat → BitVec 32
  gicdIpriorityr : Nat → BitVec 32
  gicdIcfgr : Nat → BitVec 32
  gicrWaker : BitVec 32
  gicrIgroupr0 : BitVec 32
  gicrIsenabler0 : BitVec 32
  gicrIpriorityr : Nat → BitVec 32
  iccSre : BitVec 64
  iccPmr : BitVec 64
  iccBpr1 : BitVec 64
  iccIgrpen1 : BitVec 64

def gicdCtlrEnGrp1ns : BitVec 32 := 1 <<< 1
def gicdCtlrAreNs : BitVec 32 := 1 <<< 4
def gicrWakerPsleep : BitVec 32 := 1 <<< 1

def itLines (typer : BitVec 32) : Nat := (typer &&& 0x1F).toNat + 1

def distributorInit (g : Gic) (lines : Nat) : Gic :=
  let g := { g with gicdCtlr := 0 }
  let g := { g with gicdIgroupr := updateFrom (fun _ => 0xFFFFFFFF) g.gicdIgroupr 1 (lines - 1) }
  let g := { g with gicdIcfgr := updateFrom (fun _ => 0) g.gicdIcfgr 2 (lines * 2 - 2) }
  let g := { g with gicdIpriorityr := updateFrom (fun _ => 0xA0A0A0A0) g.gicdIpriorityr 8 (lines * 8 - 8) }
  let g := { g with gicdIsenabler := updateFrom (· &&& ~~~0xFFFFFFFF#32) g.gicdIsenabler 1 (lines - 1) }
  { g with gicdCtlr := gicdCtlrEnGrp1ns ||| gicdCtlrAreNs }

/-- Redistributor init, behind the wait for ChildrenAsleep, which changes nothing. -/
def redistributorInit (g : Gic) : Gic :=
  let g := { g with gicrWaker := g.gicrWaker &&& ~~~gicrWakerPsleep }
  let g := { g with gicrIgroupr0 := 0xFFFFFFFF }
  { g with gicrIpriorityr := updateFrom (fun _ => 0xA0A0A0A0) g.gicrIpriorityr 0 8 }

def cpuInterfaceInit (g : Gic) : Gic :=
  { g with iccSre := 0x7, iccPmr := 0xFF, iccBpr1 := 0, iccIgrpen1 := 1 }

def gicInit (g : Gic) (typer : BitVec 32) : Gic :=
  cpuInterfaceInit (redistributorInit (distributorInit g (itLines typer)))

-- The two functions below are given the id of an interrupt, which is less than 1020. From 1024 on their
-- writes would go to the registers that lie behind the array, which Gic does not keep.
def gicEnableIrq (g : Gic) (irqId : Nat) : Gic :=
  let reg := irqId / 32
  let bit := irqId % 32
  if irqId < 32 then { g with gicrIsenabler0 := g.gicrIsenabler0 ||| (1#32 <<< bit) }
  else { g with gicdIsenabler := Function.update g.gicdIsenabler reg (g.gicdIsenabler reg ||| (1#32 <<< bit)) }

def gicSetPriority (g : Gic) (irqId : Nat) (prio : BitVec 8) : Gic :=
  let reg := irqId / 4
  let shift := irqId % 4 * 8
  let put (val : BitVec 32) : BitVec 32 := (val &&& ~~~(0xFF#32 <<< shift)) ||| (prio.setWidth 32 <<< shift)
  if irqId < 32 then { g with gicrIpriorityr := Function.update g.gicrIpriorityr reg (put (g.gicrIpriorityr reg)) }
  else { g with gicdIpriorityr := Function.update g.gicdIpriorityr reg (put (g.gicdIpriorityr reg)) }

/- What the registers say about one interrupt. -/

def enabled (g : Gic) (irqId : Nat) : Bool :=
  if irqId < 32 then g.gicrIsenabler0.getLsbD irqId else (g.gicdIsenabler (irqId / 32)).getLsbD (irqId % 32)

def grouped (g : Gic) (irqId : Nat) : Bool :=
  if irqId < 32 then g.gicrIgroupr0.getLsbD irqId else (g.gicdIgroupr (irqId / 32)).getLsbD (irqId % 32)

def priorityWord (g : Gic) (irqId : Nat) : BitVec 32 :=
  if irqId < 32 then g.gicrIpriorityr (irqId / 4) else g.gicdIpriorityr (irqId / 4)

def priority (g : Gic) (irqId : Nat) : BitVec 8 := lane (priorityWord g irqId) (irqId % 4)

/-- A pending interrupt comes to the CPU as a Group 1 one: both enables of the group are set, the
    interrupt is in the group and enabled, and its priority is above the mask. -/
def delivers (g : Gic) (irqId : Nat) : Bool :=
  g.gicdCtlr.getLsbD 1 && g.iccIgrpen1.getLsbD 0 && grouped g irqId && enabled g irqId &&
    decide ((priority g irqId).toNat < g.iccPmr.toNat)

section Registers
variable {g : Gic} {typer : BitVec 32} {irqId id : Nat} {prio : BitVec 8}

theorem put_byte_eq (val : BitVec 32) (prio : BitVec 8) (k : Nat) :
    (val &&& ~~~(0xFF#32 <<< (k * 8))) ||| (prio.setWidth 32 <<< (k * 8)) = putLane val k prio := by
  rw [putLane, Nat.mul_comm]
  rfl

theorem enabled_enable (g : Gic) (irqId id : Nat) :
    enabled (gicEnableIrq g irqId) id = (decide (id = irqId) || enabled g id) := by
  unfold gicEnableIrq enabled
  dsimp only
  by_cases ppi : irqId < 32
  · rw [if_pos ppi]
    dsimp only
    split
    · rename_i low
      rw [set_bit _ low, Nat.mod_eq_of_lt ppi]
    · rename_i spi
      have apart : id ≠ irqId := by omega
      rw [decide_eq_false apart, Bool.false_or]
  · rw [if_neg ppi]
    dsimp only
    split
    · rename_i low
      have apart : id ≠ irqId := by omega
      rw [decide_eq_false apart, Bool.false_or]
    · by_cases same : id / 32 = irqId / 32
      · rw [same, Function.update_self, set_bit _ (Nat.mod_lt _ (by decide))]
        congr 2
        exact propext ⟨fun low => by omega, fun eq => by rw [eq]⟩
      · have apart : id ≠ irqId := by
          rintro rfl
          exact same rfl
        rw [Function.update_of_ne same, decide_eq_false apart, Bool.false_or]

theorem priority_word_set (g : Gic) (irqId : Nat) (prio : BitVec 8) (id : Nat) :
    priorityWord (gicSetPriority g irqId prio) id =
      if id / 4 = irqId / 4 then putLane (priorityWord g id) (irqId % 4) prio else priorityWord g id := by
  unfold gicSetPriority priorityWord
  simp only [put_byte_eq]
  by_cases word : id / 4 = irqId / 4
  · rw [if_pos word]
    by_cases ppi : irqId < 32
    · have low : id < 32 := by omega
      rw [if_pos ppi, if_pos low, if_pos low, word]
      exact Function.update_self _ _ _
    · have high : ¬ id < 32 := by omega
      rw [if_neg ppi, if_neg high, if_neg high, word]
      exact Function.update_self _ _ _
  · rw [if_neg word]
    by_cases ppi : irqId < 32
    · rw [if_pos ppi]
      split
      · exact Function.update_of_ne word _ _
      · rfl
    · rw [if_neg ppi]
      split
      · rfl
      · exact Function.update_of_ne word _ _

theorem priority_set (g : Gic) (irqId : Nat) (prio : BitVec 8) (id : Nat) :
    priority (gicSetPriority g irqId prio) id = if id = irqId then prio else priority g id := by
  have lanes : irqId % 4 < 4 ∧ id % 4 < 4 := ⟨Nat.mod_lt _ (by decide), Nat.mod_lt _ (by decide)⟩
  rw [priority, priority_word_set, priority]
  by_cases same : id = irqId
  · subst same
    rw [if_pos rfl, if_pos rfl]
    exact put_lane_same (by omega)
  · rw [if_neg same]
    split
    · exact put_lane_other (by omega) (by omega)
    · rfl

theorem ones_bit {bit : Nat} (inside : bit < 32) : (0xFFFFFFFF#32).getLsbD bit = true := by
  change (BitVec.allOnes 32).getLsbD bit = true
  rw [BitVec.getLsbD_allOnes]
  exact decide_eq_true inside

theorem group_after_init {lines : Nat} (inside : id < 32 * lines) :
    grouped (redistributorInit (distributorInit g lines)) id = true := by
  unfold grouped
  split
  · rename_i ppi
    exact ones_bit ppi
  · rw [redistributorInit, distributorInit]
    dsimp only
    rw [update_from_eq, if_pos (by omega)]
    exact ones_bit (Nat.mod_lt _ (by decide))

theorem enabled_after_init {lines : Nat} (inside : id < 32 * lines) :
    enabled (redistributorInit (distributorInit g lines)) id = (decide (id < 32) && enabled g id) := by
  unfold enabled
  split
  · rename_i ppi
    rw [decide_eq_true ppi]
    rfl
  · rename_i spi
    rw [redistributorInit, distributorInit]
    dsimp only
    rw [update_from_eq, if_pos (by omega), decide_eq_false spi]
    simp

theorem priority_after_init {lines : Nat} (inside : id < 32 * lines) :
    priority (redistributorInit (distributorInit g lines)) id = 0xA0 := by
  have byte : ∀ k, k < 4 → lane 0xA0A0A0A0#32 k = 0xA0 := by decide
  have word : priorityWord (redistributorInit (distributorInit g lines)) id = 0xA0A0A0A0 := by
    unfold priorityWord
    split
    · rw [redistributorInit]
      dsimp only
      rw [update_from_eq, if_pos (by omega)]
    · rw [redistributorInit, distributorInit]
      dsimp only
      rw [update_from_eq, if_pos (by omega)]
  rw [priority, word]
  exact byte _ (Nat.mod_lt _ (by decide))

end Registers

abbrev IrqId := Fin 1020

/-- What the rest of the kernel asks of the GIC once it is initialized. -/
inductive GicCall where
  | enableIrq (irqId : IrqId)
  | setPriority (irqId : IrqId) (prio : BitVec 8)

def gicCall (g : Gic) : GicCall → Gic
  | .enableIrq irqId => gicEnableIrq g irqId.val
  | .setPriority irqId prio => gicSetPriority g irqId.val prio

/- The same calls on a plain state: a set of interrupts and a priority for each. -/

structure Requested where
  enabled : Nat → Bool
  priority : Nat → BitVec 8

def Requested.enable (r : Requested) (irqId : Nat) : Requested :=
  { r with enabled := Function.update r.enabled irqId true }

def Requested.prioritize (r : Requested) (irqId : Nat) (prio : BitVec 8) : Requested :=
  { r with priority := Function.update r.priority irqId prio }

def Requested.call (r : Requested) : GicCall → Requested
  | .enableIrq irqId => r.enable irqId.val
  | .setPriority irqId prio => r.prioritize irqId.val prio

/-- Every interrupt has priority 0xA0 at first, and only PPIs and SGIs that were enabled before are so. -/
def requestedAtInit (g : Gic) : Requested := ⟨fun id => decide (id < 32) && enabled g id, fun _ => 0xA0⟩

structure Programmed (ids : Nat) (r : Requested) (g : Gic) : Prop where
  distributor : g.gicdCtlr.getLsbD 1 = true
  interface : g.iccIgrpen1.getLsbD 0 = true
  mask : g.iccPmr = 0xFF
  groups : ∀ id, id < ids → grouped g id = true
  enables : ∀ id, id < ids → enabled g id = r.enabled id
  priorities : ∀ id, id < ids → priority g id = r.priority id

section Programming
variable {ids : Nat} {r : Requested} {g : Gic}

theorem programmed_init (g : Gic) (typer : BitVec 32) :
    Programmed (32 * itLines typer) (requestedAtInit g) (gicInit g typer) := by
  have interface : (1#64).getLsbD 0 = true := by decide
  have distributor : (gicdCtlrEnGrp1ns ||| gicdCtlrAreNs).getLsbD 1 = true := by decide
  refine ⟨distributor, interface, rfl, ?_, ?_, ?_⟩
  · intro id inside
    exact group_after_init inside
  · intro id inside
    exact enabled_after_init inside
  · intro id inside
    exact priority_after_init inside

theorem priority_enable (g : Gic) (irqId id : Nat) : priority (gicEnableIrq g irqId) id = priority g id := by
  rw [priority, priority, gicEnableIrq]
  split <;> rfl

theorem enabled_set_priority (g : Gic) (irqId : Nat) (prio : BitVec 8) (id : Nat) :
    enabled (gicSetPriority g irqId prio) id = enabled g id := by
  rw [gicSetPriority]
  dsimp only
  split <;> rfl

theorem programmed_enable (held : Programmed ids r g) (irqId : Nat) :
    Programmed ids (r.enable irqId) (gicEnableIrq g irqId) := by
  have others : (gicEnableIrq g irqId).gicdCtlr = g.gicdCtlr ∧ (gicEnableIrq g irqId).iccIgrpen1 = g.iccIgrpen1 ∧
      (gicEnableIrq g irqId).iccPmr = g.iccPmr ∧ ∀ id, grouped (gicEnableIrq g irqId) id = grouped g id := by
    rw [gicEnableIrq]
    split <;> exact ⟨rfl, rfl, rfl, fun _ => rfl⟩
  obtain ⟨ctlr, igrpen, pmr, groups⟩ := others
  refine ⟨by rw [ctlr]; exact held.distributor, by rw [igrpen]; exact held.interface, pmr.trans held.mask, ?_, ?_, ?_⟩
  · intro id inside
    rw [groups]
    exact held.groups id inside
  · intro id inside
    rw [enabled_enable, held.enables id inside]
    change _ = Function.update r.enabled irqId true id
    rw [Function.update_apply]
    by_cases same : id = irqId
    · simp [same]
    · simp [same]
  · intro id inside
    exact (priority_enable g irqId id).trans (held.priorities id inside)

theorem programmed_prioritize (held : Programmed ids r g) (irqId : Nat) (prio : BitVec 8) :
    Programmed ids (r.prioritize irqId prio) (gicSetPriority g irqId prio) := by
  have others : (gicSetPriority g irqId prio).gicdCtlr = g.gicdCtlr ∧
      (gicSetPriority g irqId prio).iccIgrpen1 = g.iccIgrpen1 ∧ (gicSetPriority g irqId prio).iccPmr = g.iccPmr ∧
        ∀ id, grouped (gicSetPriority g irqId prio) id = grouped g id := by
    rw [gicSetPriority]
    dsimp only
    split <;> exact ⟨rfl, rfl, rfl, fun _ => rfl⟩
  obtain ⟨ctlr, igrpen, pmr, groups⟩ := others
  refine ⟨by rw [ctlr]; exact held.distributor, by rw [igrpen]; exact held.interface, pmr.trans held.mask, ?_, ?_, ?_⟩
  · intro id inside
    rw [groups]
    exact held.groups id inside
  · intro id inside
    exact (enabled_set_priority g irqId prio id).trans (held.enables id inside)
  · intro id inside
    rw [priority_set, held.priorities id inside]
    exact (Function.update_apply _ _ _ _).symm

theorem programmed_call (held : Programmed ids r g) (call : GicCall) :
    Programmed ids (r.call call) (gicCall g call) := by
  cases call with
  | enableIrq irqId => exact programmed_enable held irqId.val
  | setPriority irqId prio => exact programmed_prioritize held irqId.val prio

theorem programmed_calls (held : Programmed ids r g) (calls : List GicCall) :
    Programmed ids (calls.foldl Requested.call r) (calls.foldl gicCall g) := by
  induction calls generalizing r g with
  | nil => exact held
  | cons call calls ih => exact ih (programmed_call held call)

theorem programmed_delivers {id : Nat} (held : Programmed ids r g) (inside : id < ids) :
    delivers g id = (r.enabled id && decide ((r.priority id).toNat < 0xFF)) := by
  rw [delivers, held.distributor, held.interface, held.groups id inside, held.enables id inside,
    held.priorities id inside, held.mask]
  rfl

end Programming

/-- After gic_init and any calls an interrupt of the distributor's lines comes to the CPU if and only
    if it was enabled and its last priority is above the lowest one. -/
theorem gic_delivers_what_is_requested (g : Gic) (typer : BitVec 32) (calls : List GicCall) (id : Nat)
    (line : id < 32 * itLines typer) :
    let requested := calls.foldl Requested.call (requestedAtInit g)
    delivers (calls.foldl gicCall (gicInit g typer)) id =
      (requested.enabled id && decide ((requested.priority id).toNat < 0xFF)) := by
  intro requested
  exact programmed_delivers (programmed_calls (programmed_init g typer) calls) line

def gicAtReset : Gic :=
  ⟨0, fun _ => 0, fun _ => 0, fun _ => 0, fun _ => 0, gicrWakerPsleep, 0, 0, fun _ => 0, 0, 0, 0, 0⟩

/-- timer_init requests IRQ 30. -/
theorem gic_delivers_timer :
    delivers (gicEnableIrq (gicSetPriority (gicInit gicAtReset 8) 30 0xA0) 30) 30 = true :=
  (gic_delivers_what_is_requested gicAtReset 8 [.setPriority 30 0xA0, .enableIrq 30] 30 (by decide)).trans (by decide)

end Archarch.Interrupts
