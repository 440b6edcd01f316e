import Archarch.Devices.BarAssignment

/- The addresses that a device answers to behind pci_assign_bars, and those that its driver is left with. -/
namespace Archarch.PciDevices
open ExtentLayout BumpAllocation

def Probe.present : Probe → Bool
  | .absent _ => false
  | _ => true

/-- The ranges that the registers of a device decode, by the register. -/
def barRounds (answer : Nat → Probe) (dev : PciDevice) : Nat → Nat → List (Nat × BarKind × Range)
  | 0, _ => []
  | rounds + 1, i =>
    if i < 6 then
      (if (answer i).present then [(i, decoded (answer i) (dev.register i))] else []) ++
        barRounds answer dev rounds (i + (answer i).registers)
    else []

def AddressOf (probe : Probe) (dev : PciDevice) (i : Nat) : Prop :=
  if probe.present then (dev.barAddr i).toNat = (decoded probe (dev.register i)).2.base + kernVaOffset.toNat
  else dev.barAddr i = 0

section Register
variable {s : AssignState} {next : BarKind → Nat} {i j order : Nat} {probe : Probe}

theorem registers_pos (probe : Probe) : 0 < probe.registers := by
  cases probe <;> simp [Probe.registers]

theorem assign_bar_below (s : AssignState) (probe : Probe) (below : j < i) :
    (assignBar s i probe).1.dev.barAddr j = s.dev.barAddr j ∧
      (assignBar s i probe).1.dev.register j = s.dev.register j := by
  have own : j ≠ i := by omega
  have upper : j ≠ i + 1 := by omega
  cases probe with
  | absent ones =>
    rw [assign_absent]
    exact ⟨Function.update_of_ne own _ _, rfl⟩
  | io wide order least most =>
    rw [assign_io]
    exact ⟨Function.update_of_ne own _ _, Function.update_of_ne own _ _⟩
  | mem32 prefetchable order least most =>
    rw [assign_mem32]
    exact ⟨Function.update_of_ne own _ _, Function.update_of_ne own _ _⟩
  | mem64 prefetchable order least most =>
    rw [assign_mem64]
    constructor
    · exact (Function.update_of_ne upper _ _).trans (Function.update_of_ne own _ _)
    · exact (Function.update_of_ne upper _ _).trans (Function.update_of_ne own _ _)

theorem assign_bar_upper (s : AssignState) (probe : Probe) (behind : i < j) (within : j < i + probe.registers) :
    (assignBar s i probe).1.dev.barAddr j = 0 := by
  cases probe with
  | mem64 prefetchable order least most =>
    have upper : j = i + 1 := Nat.le_antisymm (Nat.le_of_lt_succ within) behind
    rw [assign_mem64, upper]
    exact Function.update_self ..
  | absent | io | mem32 => exact absurd within (Nat.not_lt.mpr behind)

theorem mem_given_register : (memGiven s i probe order).dev.register i = (memAddr s order).setWidth 32 :=
  Function.update_self ..

theorem io_given_register :
    (ioGiven s i probe order).dev.register i = (ioAddr s order - pciPioBasePa).setWidth 32 ||| 1 :=
  Function.update_self ..

theorem clear_upper_register (s : AssignState) : (clearUpper s (i + 1)).dev.register i = s.dev.register i :=
  Function.update_of_ne (by omega) _ _

theorem clear_upper_address (s : AssignState) : (clearUpper s (i + 1)).dev.barAddr i = s.dev.barAddr i :=
  Function.update_of_ne (by omega) _ _

theorem assign_bar_ranges (s : AssignState) (i : Nat) (probe : Probe) :
    (assignBar s i probe).1.ranges =
      s.ranges ++ if probe.present then [decoded probe ((assignBar s i probe).1.dev.register i)] else [] := by
  cases probe with
  | absent ones =>
    rw [assign_absent]
    exact (List.append_nil _).symm
  | io wide order least most =>
    rw [assign_io, io_given_register]
    exact ranges_io_given
  | mem32 prefetchable order least most =>
    rw [assign_mem32, mem_given_register]
    exact ranges_mem_given
  | mem64 prefetchable order least most =>
    rw [assign_mem64, clear_upper_register, mem_given_register]
    exact ranges_mem_given (i := i)

theorem phys_to_virt_nat {addr : BitVec 64} (low : addr.toNat ≤ 0x3F000000) :
    (physToVirt addr).toNat = addr.toNat + kernVaOffset.toNat := by
  have offset : kernVaOffset.toNat = 0xFFFFFF8000000000 := rfl
  rw [physToVirt, BitVec.toNat_add]
  exact Nat.mod_eq_of_lt (by omega)

theorem mem_given_address (tracks : Tracks s next) (least : 4 ≤ order)
    (fits : place next (powerRequest .mem order) + 2 ^ order ≤ 0x3EFF0000) :
    ((memGiven s i probe order).dev.barAddr i).toNat =
      ((memAddr s order).setWidth 32 &&& 0xFFFFFFF0).toNat + kernVaOffset.toNat := by
  have narrow : order < 32 := by
    by_contra wide
    have huge : 2 ^ 32 ≤ 2 ^ order := Nat.pow_le_pow_right (by decide) (by omega)
    omega
  have here := mem_addr_place tracks narrow
  have positive := Nat.two_pow_pos order
  have given : (memGiven s i probe order).dev.barAddr i = physToVirt (memAddr s order) := Function.update_self ..
  rw [given, phys_to_virt_nat (by omega), mem_decoded tracks least narrow, here]

theorem io_given_address (tracks : Tracks s next) (least : 2 ≤ order)
    (fits : place next (powerRequest .io order) + 2 ^ order ≤ 0x3F000000) :
    ((ioGiven s i probe order).dev.barAddr i).toNat = pciPioBasePa.toNat +
      (((ioAddr s order - pciPioBasePa).setWidth 32 ||| 1) &&& 0xFFFFFFFC).toNat + kernVaOffset.toNat := by
  have narrow : order < 16 := by
    by_contra wide
    have aligned : 2 ^ 16 ∣ place next (powerRequest .io order) :=
      Nat.dvd_trans (Nat.pow_dvd_pow 2 (by omega)) round_up_dvd
    have huge : 2 ^ 16 ≤ 2 ^ order := Nat.pow_le_pow_right (by decide) (by omega)
    have moved := tracks.moved
    have behind : next .io ≤ place next (powerRequest .io order) := next_le_place next (powerRequest .io order)
    omega
  have here := io_addr_place tracks narrow
  have positive := Nat.two_pow_pos order
  have given : (ioGiven s i probe order).dev.barAddr i = physToVirt (ioAddr s order) := Function.update_self ..
  rw [given, phys_to_virt_nat (by omega), io_decoded tracks least narrow, here]

theorem assign_bar_address (tracks : Tracks s next) (fits : AllFit barWindows.limit next probe.requests) :
    AddressOf probe (assignBar s i probe).1.dev i := by
  cases probe with
  | absent ones =>
    rw [assign_absent]
    exact Function.update_self ..
  | io wide order least most =>
    rw [assign_io, AddressOf, io_given_register]
    exact io_given_address tracks least fits.1
  | mem32 prefetchable order least most =>
    rw [assign_mem32, AddressOf, mem_given_register]
    exact mem_given_address tracks least fits.1
  | mem64 prefetchable order least most =>
    rw [assign_mem64, AddressOf, clear_upper_register, clear_upper_address, mem_given_register]
    exact mem_given_address tracks least fits.1

theorem decoded_size (present : probe.present = true) (val : BitVec 32) :
    ∃ r ∈ probe.requests, (decoded probe val).2.len = r.size := by
  cases probe with
  | absent ones => cases present
  | io | mem32 | mem64 => exact ⟨_, List.mem_singleton_self _, rfl⟩

end Register

section Device
variable {answer : Nat → Probe} {s : AssignState} {next : BarKind → Nat} {rounds i j : Nat}

theorem assign_rounds_below (answer : Nat → Probe) (rounds : Nat) (s : AssignState) (below : j < i) :
    (assignRounds answer rounds i s).dev.barAddr j = s.dev.barAddr j ∧
      (assignRounds answer rounds i s).dev.register j = s.dev.register j := by
  induction rounds generalizing i s with
  | zero => exact ⟨rfl, rfl⟩
  | succ rounds ih =>
    unfold assignRounds
    by_cases inside : i < 6
    · have later := ih (s := (assignBar s i (answer i)).1) (i := i + (answer i).registers) (by omega)
      have here := assign_bar_below s (answer i) below
      simp only [if_pos inside, assign_bar_next]
      exact ⟨later.1.trans here.1, later.2.trans here.2⟩
    · rw [if_neg inside]
      exact ⟨rfl, rfl⟩

theorem assign_rounds_own (answer : Nat → Probe) (rounds : Nat) (s : AssignState) (inside : i < 6) :
    let t := assignRounds answer (rounds + 1) i s
    t = assignRounds answer rounds (i + (answer i).registers) (assignBar s i (answer i)).1 ∧
      t.dev.barAddr i = (assignBar s i (answer i)).1.dev.barAddr i ∧
      t.dev.register i = (assignBar s i (answer i)).1.dev.register i := by
  intro t
  have unfolded : t = assignRounds answer rounds (i + (answer i).registers) (assignBar s i (answer i)).1 := by
    simp only [t, assignRounds, if_pos inside, assign_bar_next]
  have behind : i < i + (answer i).registers := Nat.lt_add_of_pos_right (registers_pos _)
  have kept := assign_rounds_below answer rounds (assignBar s i (answer i)).1 behind
  refine ⟨unfolded, ?_⟩
  rw [unfolded]
  exact kept

theorem assign_rounds_ranges (answer : Nat → Probe) (rounds i : Nat) (s : AssignState) :
    (assignRounds answer rounds i s).ranges =
      s.ranges ++ (barRounds answer (assignRounds answer rounds i s).dev rounds i).map Prod.snd := by
  induction rounds generalizing i s with
  | zero => exact (List.append_nil _).symm
  | succ rounds ih =>
    by_cases inside : i < 6
    · obtain ⟨unfolded, -, register⟩ := assign_rounds_own answer rounds s inside
      rw [barRounds, if_pos inside, register, unfolded, ih, assign_bar_ranges, List.append_assoc, List.map_append]
      congr 2
      split <;> rfl
    · unfold assignRounds barRounds
      simp only [if_neg inside]
      exact (List.append_nil _).symm

/-- While what the device asks for fits, each of its addresses is in the range that a register decodes. -/
theorem assign_rounds_address (tracks : Tracks s next)
    (fits : AllFit barWindows.limit next (requestRounds answer rounds i)) (low : i ≤ j) (inside : j < 6)
    (enough : 6 ≤ i + rounds) (assigned : (assignRounds answer rounds i s).dev.barAddr j ≠ 0) :
    ∃ bar ∈ barRounds answer (assignRounds answer rounds i s).dev rounds i, bar.1 = j ∧
      ((assignRounds answer rounds i s).dev.barAddr j).toNat = bar.2.2.base + kernVaOffset.toNat ∧
      ∃ r ∈ (answer j).requests, bar.2.2.len = r.size := by
  induction rounds generalizing i s next with
  | zero => omega
  | succ rounds ih =>
    have here : i < 6 := Nat.lt_of_le_of_lt low inside
    obtain ⟨unfolded, address, register⟩ := assign_rounds_own answer rounds s here
    have positive := registers_pos (answer i)
    rw [requestRounds, if_pos here] at fits
    obtain ⟨own, rest⟩ := all_fit_append.mp fits
    rw [barRounds, if_pos here]
    by_cases same : j = i
    · subst same
      have placed := assign_bar_address (i := j) tracks own
      rw [address] at assigned
      rw [AddressOf] at placed
      split at placed
      next present =>
        refine ⟨_, List.mem_append_left _ (by rw [if_pos present]; exact List.mem_singleton_self _), rfl, ?_,
          decoded_size present _⟩
        rw [address, register]
        exact placed
      next => exact absurd placed assigned
    · rw [unfolded] at assigned ⊢
      by_cases upper : j < i + (answer i).registers
      · have kept := (assign_rounds_below answer rounds (assignBar s i (answer i)).1 upper).1
        rw [kept, assign_bar_upper s _ (by omega) upper] at assigned
        exact absurd rfl assigned
      · obtain ⟨bar, member, place⟩ := ih ((bar_serves s i (answer i)).follows next tracks own) rest
          (by omega) (by omega) assigned
        exact ⟨bar, List.mem_append_right _ member, place⟩

end Device
end Archarch.PciDevices
