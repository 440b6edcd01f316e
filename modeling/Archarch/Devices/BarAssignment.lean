import Archarch.Foundations.BumpAllocation

/- pci_assign_bars: each BAR that a device asks for takes the next aligned addresses of the window of its kind.
   The device says with the bits that it keeps of a register full of ones how large the BAR is. -/
namespace Archarch.PciDevices
open ExtentLayout BumpAllocation

def pciMmio32BasePa : BitVec 64 := 0x10000000
def pciPioBasePa : BitVec 64 := 0x3EFF0000
def kernVaOffset : BitVec 64 := 0xFFFFFF8000000000

def physToVirt (pa : BitVec 64) : BitVec 64 := pa + kernVaOffset

/-- What a BAR register answers once it was written full of ones. A BAR of order k is 2 ^ k bytes long, and
    an I/O register may leave the upper half of its answer 0. -/
inductive Probe
  | absent (ones : Bool)
  | io (wide : Bool) (order : Nat) (least : 2 ≤ order) (most : order ≤ if wide then 31 else 16)
  | mem32 (prefetchable : Bool) (order : Nat) (least : 4 ≤ order) (most : order ≤ 31)
  | mem64 (prefetchable : Bool) (order : Nat) (least : 4 ≤ order) (most : order ≤ 63)

/-- The low address bits of a BAR are not kept. -/
def sizeBits (width order : Nat) : BitVec 32 := BitVec.ofNat 32 (2 ^ width - 2 ^ min order width)

def prefetchBit (prefetchable : Bool) : BitVec 32 := if prefetchable then 8 else 0

def Probe.sized : Probe → BitVec 32
  | .absent ones => if ones then 0xFFFFFFFF else 0
  | .io wide order _ _ => sizeBits (if wide then 32 else 16) order ||| 1
  | .mem32 prefetchable order _ _ => sizeBits 32 order ||| prefetchBit prefetchable
  | .mem64 prefetchable order _ _ => sizeBits 32 order ||| prefetchBit prefetchable ||| 4

/-- struct pci_device, with the BAR registers of its function. A 64-bit BAR in the last register has its
    upper half behind them. -/
structure PciDevice where
  bar : Nat → BitVec 32
  barAddr : Nat → BitVec 64
  register : Nat → BitVec 32

/-- The allocators and the device at work; given are the answers of all registers that were given an address
    so far, with what was written into them. -/
structure AssignState where
  mmio32Alloc : BitVec 64
  pioAlloc : BitVec 64
  dev : PciDevice
  given : List (Probe × BitVec 32)

def alignUp (next : BitVec 64) (size : BitVec 32) : BitVec 64 :=
  (next + size.setWidth 64 - 1) &&& ~~~(size.setWidth 64 - 1)

def allocMmio32 (s : AssignState) (size : BitVec 32) : BitVec 64 × AssignState :=
  let addr := alignUp s.mmio32Alloc size
  (addr, { s with mmio32Alloc := addr + size.setWidth 64 })

def allocPio (s : AssignState) (size : BitVec 32) : BitVec 64 × AssignState :=
  let addr := alignUp s.pioAlloc size
  (addr, { s with pioAlloc := addr + size.setWidth 64 })

def giveBar (s : AssignState) (i : Nat) (probe : Probe) (addr : BitVec 64) (val : BitVec 32) : AssignState :=
  { s with
    dev :=
      { bar := Function.update s.dev.bar i val
        barAddr := Function.update s.dev.barAddr i (physToVirt addr)
        register := Function.update s.dev.register i val }
    given := s.given ++ [(probe, val)] }

def clearBar (s : AssignState) (i : Nat) : AssignState :=
  { s with
    dev := { s.dev with
      bar := Function.update s.dev.bar i 0
      barAddr := Function.update s.dev.barAddr i 0 } }

def clearUpper (s : AssignState) (i : Nat) : AssignState :=
  let cleared := clearBar s i
  { cleared with dev := { cleared.dev with register := Function.update cleared.dev.register i 0 } }

/-- The body of the loop, with the i of the next round. The probe leaves the register as it was. -/
def assignBar (s : AssignState) (i : Nat) (probe : Probe) : AssignState × Nat :=
  let sized := probe.sized
  if sized = 0 ∨ sized = 0xFFFFFFFF then (clearBar s i, i + 1)
  else if sized &&& 1 ≠ 0 then
    let mask := sized &&& 0xFFFFFFFC
    let size := (~~~mask + 1) &&& 0xFFFF
    let (addr, s) := allocPio s size
    let pioOffset := (addr - pciPioBasePa).setWidth 32
    (giveBar s i probe addr (pioOffset ||| 1), i + 1)
  else
    let type := (sized >>> 1) &&& 3
    let mask := sized &&& 0xFFFFFFF0
    let size := ~~~mask + 1
    let (addr, s) := allocMmio32 s size
    let s := giveBar s i probe addr (addr.setWidth 32)
    if type = 2 then (clearUpper s (i + 1), i + 2) else (s, i + 1)

/-- for (i = 0; i < 6; i++); a round moves i on, so six rounds are enough. -/
def assignRounds (answer : Nat → Probe) : Nat → Nat → AssignState → AssignState
  | 0, _, s => s
  | rounds + 1, i, s =>
    if i < 6 then
      let (s, i) := assignBar s i (answer i)
      assignRounds answer rounds i s
    else s

def pciAssignBars (s : AssignState) (call : PciDevice × (Nat → Probe)) : AssignState :=
  assignRounds call.2 6 0 { s with dev := call.1 }

def assignStart : AssignState where
  mmio32Alloc := pciMmio32BasePa + 0x01000000
  pioAlloc := pciPioBasePa + 0x1000
  dev := ⟨fun _ => 0, fun _ => 0, fun _ => 0⟩
  given := []

def assignAll (calls : List (PciDevice × (Nat → Probe))) : AssignState := calls.foldl pciAssignBars assignStart

/- The windows, and what the devices ask for. -/

inductive BarKind
  | mem
  | io
  deriving DecidableEq

def barWindows : Windows BarKind where
  base
    | .mem => 0x10000000
    | .io => 0x3EFF0000
  limit
    | .mem => 0x3EFF0000
    | .io => 0x3F000000
  separate
    | .mem, .mem, different => absurd rfl different
    | .mem, .io, _ => Or.inl (Nat.le_refl _)
    | .io, .mem, _ => Or.inr (Nat.le_refl _)
    | .io, .io, different => absurd rfl different

def barStart : BarKind → Nat
  | .mem => 0x11000000
  | .io => 0x3EFF1000

def powerRequest (kind : BarKind) (order : Nat) : Request BarKind := ⟨kind, 2 ^ order, Nat.two_pow_pos order⟩

def Probe.requests : Probe → List (Request BarKind)
  | .absent _ => []
  | .io _ order _ _ => [powerRequest .io order]
  | .mem32 _ order _ _ => [powerRequest .mem order]
  | .mem64 _ order _ _ => [powerRequest .mem order]

def Probe.registers : Probe → Nat
  | .mem64 .. => 2
  | _ => 1

def requestRounds (answer : Nat → Probe) : Nat → Nat → List (Request BarKind)
  | 0, _ => []
  | rounds + 1, i =>
    if i < 6 then (answer i).requests ++ requestRounds answer rounds (i + (answer i).registers) else []

def barRequests (calls : List (PciDevice × (Nat → Probe))) : List (Request BarKind) :=
  calls.flatMap fun call => requestRounds call.2 6 0

def decoded (probe : Probe) (val : BitVec 32) : BarKind × Range :=
  match probe with
  | .absent _ => (.mem, ⟨0, 0⟩)
  | .io _ order _ _ => (.io, ⟨pciPioBasePa.toNat + (val &&& 0xFFFFFFFC).toNat, 2 ^ order⟩)
  | .mem32 _ order _ _ => (.mem, ⟨(val &&& 0xFFFFFFF0).toNat, 2 ^ order⟩)
  | .mem64 _ order _ _ => (.mem, ⟨(val &&& 0xFFFFFFF0).toNat, 2 ^ order⟩)

def AssignState.ranges (s : AssignState) : List (BarKind × Range) := s.given.map fun g => decoded g.1 g.2

def BarsSound (s : AssignState) : Prop := Sound barWindows.base barWindows.limit s.ranges

/- The sizes as the code finds them in the answers. -/

theorem io_answer : ∀ wide : Bool, ∀ order < 32, 2 ≤ order → (order ≤ if wide then 31 else 16) →
    let sized := sizeBits (if wide then 32 else 16) order ||| 1
    ¬ (sized = 0 ∨ sized = 0xFFFFFFFF) ∧ sized &&& 1 ≠ 0 ∧
      (~~~(sized &&& 0xFFFFFFFC) + 1) &&& 0xFFFF = BitVec.ofNat 32 (2 ^ order % 2 ^ 16) := by decide +kernel

theorem mem32_answer : ∀ prefetchable : Bool, ∀ order < 32, 4 ≤ order →
    let sized := sizeBits 32 order ||| prefetchBit prefetchable
    ¬ (sized = 0 ∨ sized = 0xFFFFFFFF) ∧ ¬ (sized &&& 1 ≠ 0) ∧ (sized >>> 1) &&& 3 ≠ 2 ∧
      ~~~(sized &&& 0xFFFFFFF0) + 1 = BitVec.ofNat 32 (2 ^ order) := by decide +kernel

theorem mem64_answer : ∀ prefetchable : Bool, ∀ order < 64, 4 ≤ order →
    let sized := sizeBits 32 order ||| prefetchBit prefetchable ||| 4
    ¬ (sized = 0 ∨ sized = 0xFFFFFFFF) ∧ ¬ (sized &&& 1 ≠ 0) ∧ (sized >>> 1) &&& 3 = 2 ∧
      ~~~(sized &&& 0xFFFFFFF0) + 1 = BitVec.ofNat 32 (2 ^ order) := by decide +kernel

def ioGiven (s : AssignState) (i : Nat) (probe : Probe) (order : Nat) : AssignState :=
  let (addr, s) := allocPio s (BitVec.ofNat 32 (2 ^ order % 2 ^ 16))
  giveBar s i probe addr ((addr - pciPioBasePa).setWidth 32 ||| 1)

def memGiven (s : AssignState) (i : Nat) (probe : Probe) (order : Nat) : AssignState :=
  let (addr, s) := allocMmio32 s (BitVec.ofNat 32 (2 ^ order))
  giveBar s i probe addr (addr.setWidth 32)

section Rounds
variable {s : AssignState} {i order : Nat} {wide prefetchable : Bool}

theorem assign_absent (ones : Bool) : assignBar s i (.absent ones) = (clearBar s i, i + 1) := by
  unfold assignBar
  cases ones <;> simp [Probe.sized]

theorem assign_as_io (probe : Probe) (present : ¬ (probe.sized = 0 ∨ probe.sized = 0xFFFFFFFF))
    (io : probe.sized &&& 1 ≠ 0)
    (size : (~~~(probe.sized &&& 0xFFFFFFFC) + 1) &&& 0xFFFF = BitVec.ofNat 32 (2 ^ order % 2 ^ 16)) :
    assignBar s i probe = (ioGiven s i probe order, i + 1) := by
  unfold assignBar
  simp only [if_neg present, if_pos io, size]
  rfl

theorem assign_as_mem (probe : Probe) (present : ¬ (probe.sized = 0 ∨ probe.sized = 0xFFFFFFFF))
    (mem : ¬ (probe.sized &&& 1 ≠ 0)) (size : ~~~(probe.sized &&& 0xFFFFFFF0) + 1 = BitVec.ofNat 32 (2 ^ order)) :
    assignBar s i probe =
      if (probe.sized >>> 1) &&& 3 = 2 then (clearUpper (memGiven s i probe order) (i + 1), i + 2)
      else (memGiven s i probe order, i + 1) := by
  unfold assignBar
  simp only [if_neg present, if_neg mem, size]
  rfl

theorem assign_io (least : 2 ≤ order) (most : order ≤ if wide then 31 else 16) :
    assignBar s i (.io wide order least most) = (ioGiven s i (.io wide order least most) order, i + 1) := by
  have bound : order < 32 := by
    cases wide <;> simp at most <;> omega
  obtain ⟨present, io, size⟩ := io_answer wide order bound least most
  exact assign_as_io (.io wide order least most) present io size

theorem assign_mem32 (least : 4 ≤ order) (most : order ≤ 31) :
    assignBar s i (.mem32 prefetchable order least most) =
      (memGiven s i (.mem32 prefetchable order least most) order, i + 1) := by
  obtain ⟨present, mem, narrow, size⟩ := mem32_answer prefetchable order (by omega) least
  exact (assign_as_mem (.mem32 prefetchable order least most) present mem size).trans (if_neg narrow)

theorem assign_mem64 (least : 4 ≤ order) (most : order ≤ 63) :
    assignBar s i (.mem64 prefetchable order least most) =
      (clearUpper (memGiven s i (.mem64 prefetchable order least most) order) (i + 1), i + 2) := by
  obtain ⟨present, mem, both, size⟩ := mem64_answer prefetchable order (by omega) least
  exact (assign_as_mem (.mem64 prefetchable order least most) present mem size).trans (if_pos both)

theorem assign_bar_next (s : AssignState) (i : Nat) (probe : Probe) :
    (assignBar s i probe).2 = i + probe.registers := by
  cases probe with
  | absent ones => rw [assign_absent]; rfl
  | io wide order least most => rw [assign_io]; rfl
  | mem32 prefetchable order least most => rw [assign_mem32]; rfl
  | mem64 prefetchable order least most => rw [assign_mem64]; rfl

end Rounds

structure Tracks (s : AssignState) (next : BarKind → Nat) : Prop where
  mem : s.mmio32Alloc.toNat = next .mem
  io : s.pioAlloc.toNat = next .io
  moved : 0x3EFF1000 ≤ next .io
  filled : Filled barWindows next s.ranges

section Giving
variable {s t : AssignState} {next : BarKind → Nat} {i order : Nat} {probe : Probe}

theorem align_up_zero (next : BitVec 64) : alignUp next 0#32 = 0 := by
  unfold alignUp
  have ones : ~~~((0#32).setWidth 64 - 1#64) = 0#64 := by decide
  exact (congrArg _ ones).trans (BitVec.and_zero)

theorem size_word {n : Nat} (small : n < 2 ^ 32) : ((BitVec.ofNat 32 n).setWidth 64).toNat = n := by
  rw [BitVec.toNat_setWidth, BitVec.toNat_ofNat, Nat.mod_eq_of_lt small, Nat.mod_eq_of_lt (by omega)]

theorem align_up_power {a : BitVec 64} (bound : order < 32) (room : a.toNat < 2 ^ 32) :
    (alignUp a (BitVec.ofNat 32 (2 ^ order))).toNat = roundUp (2 ^ order) a.toNat := by
  have small : 2 ^ order < 2 ^ 32 := Nat.pow_lt_pow_right (by decide) bound
  exact round_up_word (size_word small) (by omega)

theorem clear_aligned (val low : BitVec 32) (k : Nat) (mask : low.toNat = 2 ^ k - 1) (aligned : 2 ^ k ∣ val.toNat) :
    (val &&& ~~~low).toNat = val.toNat := by
  rw [clear_low_bits mask, Nat.div_mul_cancel aligned]

theorem mem_limit (tracks : Tracks s next) : next .mem ≤ 0x3EFF0000 := (tracks.filled.between .mem).2

theorem io_limit (tracks : Tracks s next) : next .io ≤ 0x3F000000 := (tracks.filled.between .io).2

def memAddr (s : AssignState) (order : Nat) : BitVec 64 := alignUp s.mmio32Alloc (BitVec.ofNat 32 (2 ^ order))

def ioAddr (s : AssignState) (order : Nat) : BitVec 64 :=
  alignUp s.pioAlloc (BitVec.ofNat 32 (2 ^ order % 2 ^ 16))

theorem mem_addr_place (tracks : Tracks s next) (narrow : order < 32) :
    (memAddr s order).toNat = place next (powerRequest .mem order) := by
  have limit := mem_limit tracks
  rw [memAddr, align_up_power narrow (by rw [tracks.mem]; omega), tracks.mem]
  rfl

theorem mem_addr_wide (wide : 32 ≤ order) : memAddr s order = 0 := by
  have none : BitVec.ofNat 32 (2 ^ order) = 0#32 := by
    apply BitVec.eq_of_toNat_eq
    rw [BitVec.toNat_ofNat]
    exact Nat.mod_eq_zero_of_dvd (Nat.pow_dvd_pow 2 wide)
  rw [memAddr, none, align_up_zero]

theorem io_addr_place (tracks : Tracks s next) (narrow : order < 16) :
    (ioAddr s order).toNat = place next (powerRequest .io order) := by
  have limit := io_limit tracks
  have small : 2 ^ order < 2 ^ 16 := Nat.pow_lt_pow_right (by decide) narrow
  rw [ioAddr, Nat.mod_eq_of_lt small, align_up_power (by omega) (by rw [tracks.io]; omega), tracks.io]
  rfl

theorem io_addr_wide (wide : 16 ≤ order) : ioAddr s order = 0 := by
  have none : 2 ^ order % 2 ^ 16 = 0 := Nat.mod_eq_zero_of_dvd (Nat.pow_dvd_pow 2 wide)
  rw [ioAddr, none]
  exact align_up_zero _

theorem place_lt (next : BarKind → Nat) (r : Request BarKind) : place next r < next r.kind + r.size :=
  round_up_lt r.positive

theorem mem_decoded (tracks : Tracks s next) (least : 4 ≤ order) (narrow : order < 32) :
    ((memAddr s order).setWidth 32 &&& 0xFFFFFFF0).toNat = place next (powerRequest .mem order) := by
  have here := mem_addr_place tracks narrow
  have limit := mem_limit tracks
  have lt : place next (powerRequest .mem order) < next .mem + 2 ^ order := place_lt _ _
  have half : 2 ^ order ≤ 2 ^ 31 := Nat.pow_le_pow_right (by decide) (by omega)
  have kept : ((memAddr s order).setWidth 32).toNat = place next (powerRequest .mem order) := by
    rw [BitVec.toNat_setWidth, here]
    exact Nat.mod_eq_of_lt (by omega)
  have aligned : 2 ^ 4 ∣ ((memAddr s order).setWidth 32).toNat := by
    rw [kept]
    exact Nat.dvd_trans (Nat.pow_dvd_pow 2 least) round_up_dvd
  exact (clear_aligned _ 15 4 rfl aligned).trans kept

theorem io_decoded (tracks : Tracks s next) (least : 2 ≤ order) (narrow : order < 16) :
    pciPioBasePa.toNat + (((ioAddr s order - pciPioBasePa).setWidth 32 ||| 1) &&& 0xFFFFFFFC).toNat =
      place next (powerRequest .io order) := by
  have here := io_addr_place tracks narrow
  have limit := io_limit tracks
  have behind : next .io ≤ place next (powerRequest .io order) := next_le_place next (powerRequest .io order)
  have lt : place next (powerRequest .io order) < next .io + 2 ^ order := place_lt _ _
  have half : 2 ^ order ≤ 2 ^ 15 := Nat.pow_le_pow_right (by decide) (by omega)
  have base : pciPioBasePa.toNat = 0x3EFF0000 := rfl
  have moved := tracks.moved
  have aligned : 2 ^ 2 ∣ place next (powerRequest .io order) := Nat.dvd_trans (Nat.pow_dvd_pow 2 least) round_up_dvd
  have offset : ((ioAddr s order - pciPioBasePa).setWidth 32).toNat =
      place next (powerRequest .io order) - 0x3EFF0000 := by
    rw [BitVec.toNat_setWidth, BitVec.toNat_sub_of_le (by rw [BitVec.le_def, here, base]; omega), here, base]
    exact Nat.mod_eq_of_lt (by omega)
  have flag : ((ioAddr s order - pciPioBasePa).setWidth 32 ||| 1) &&& 0xFFFFFFFC =
      (ioAddr s order - pciPioBasePa).setWidth 32 &&& 0xFFFFFFFC := by
    rw [BitVec.and_or_distrib_right]
    exact BitVec.or_zero
  have cleared := clear_aligned ((ioAddr s order - pciPioBasePa).setWidth 32) 3 2 rfl
    (by rw [offset]; exact Nat.dvd_sub aligned (by decide))
  rw [flag, base]
  have same : ((ioAddr s order - pciPioBasePa).setWidth 32 &&& 0xFFFFFFFC).toNat = _ := cleared.trans offset
  omega

theorem tracks_clear (tracks : Tracks s next) : Tracks (clearBar s i) next :=
  ⟨tracks.mem, tracks.io, tracks.moved, tracks.filled⟩

theorem tracks_upper (tracks : Tracks s next) : Tracks (clearUpper s i) next :=
  ⟨tracks.mem, tracks.io, tracks.moved, tracks.filled⟩

theorem ranges_mem_given : (memGiven s i probe order).ranges =
    s.ranges ++ [decoded probe ((memAddr s order).setWidth 32)] := List.map_append

theorem ranges_io_given : (ioGiven s i probe order).ranges =
    s.ranges ++ [decoded probe ((ioAddr s order - pciPioBasePa).setWidth 32 ||| 1)] := List.map_append

abbrev ServesBars := Serves barWindows AssignState.ranges Tracks

theorem mem_serves (least : 4 ≤ order)
    (decodes : ∀ val, decoded probe val = (.mem, ⟨(val &&& 0xFFFFFFF0).toNat, 2 ^ order⟩)) :
    ServesBars [powerRequest .mem order] s (memGiven s i probe order) := by
  have gives : (memGiven s i probe order).ranges = s.ranges ++
      [(.mem, ⟨((memAddr s order).setWidth 32 &&& 0xFFFFFFF0).toNat, 2 ^ order⟩)] := by
    rw [ranges_mem_given, decodes]
  apply serves_one gives
  · intro next tracks fits
    have behind := next_le_place next (powerRequest .mem order)
    have narrow : order < 32 := by
      by_contra wide
      have huge : 2 ^ 32 ≤ 2 ^ order := Nat.pow_le_pow_right (by decide) (by omega)
      simp only [powerRequest, barWindows] at fits
      omega
    have here := mem_addr_place tracks narrow
    have small : 2 ^ order < 2 ^ 32 := Nat.pow_lt_pow_right (by decide) narrow
    have bumped : bump next (powerRequest .mem order) .mem = place next (powerRequest .mem order) + 2 ^ order :=
      bump_same next (powerRequest .mem order)
    have different : BarKind.io ≠ BarKind.mem := by decide
    have kept : bump next (powerRequest .mem order) .io = next .io := bump_other different
    have ends : place next (powerRequest .mem order) + 2 ^ order ≤ 0x3EFF0000 := fits
    constructor
    · change (memAddr s order + (BitVec.ofNat 32 (2 ^ order)).setWidth 64).toNat = _
      rw [BitVec.toNat_add, here, size_word small, bumped]
      exact Nat.mod_eq_of_lt (by omega)
    · rw [kept]
      exact tracks.io
    · rw [kept]
      exact tracks.moved
    · rw [gives, mem_decoded tracks least narrow]
      exact filled_place tracks.filled fits
  · intro next tracks failed inside
    by_cases narrow : order < 32
    · rw [mem_decoded tracks least narrow] at inside
      exact failed inside.2
    · rw [mem_addr_wide (by omega)] at inside
      have base : barWindows.base .mem ≤ 0 := inside.1
      exact absurd base (by decide)

theorem io_serves (least : 2 ≤ order)
    (decodes : ∀ val, decoded probe val = (.io, ⟨pciPioBasePa.toNat + (val &&& 0xFFFFFFFC).toNat, 2 ^ order⟩)) :
    ServesBars [powerRequest .io order] s (ioGiven s i probe order) := by
  have gives : (ioGiven s i probe order).ranges = s.ranges ++
      [(.io, ⟨pciPioBasePa.toNat +
        (((ioAddr s order - pciPioBasePa).setWidth 32 ||| 1) &&& 0xFFFFFFFC).toNat, 2 ^ order⟩)] := by
    rw [ranges_io_given, decodes]
  apply serves_one gives
  · intro next tracks fits
    have behind : next .io ≤ place next (powerRequest .io order) := next_le_place next (powerRequest .io order)
    have moved := tracks.moved
    have narrow : order < 16 := by
      by_contra wide
      have aligned : 2 ^ 16 ∣ place next (powerRequest .io order) :=
        Nat.dvd_trans (Nat.pow_dvd_pow 2 (by omega)) round_up_dvd
      have huge : 2 ^ 16 ≤ 2 ^ order := Nat.pow_le_pow_right (by decide) (by omega)
      have ends : place next (powerRequest .io order) + 2 ^ order ≤ 0x3F000000 := fits
      omega
    have here := io_addr_place tracks narrow
    have ends : place next (powerRequest .io order) + 2 ^ order ≤ 0x3F000000 := fits
    have small : 2 ^ order < 2 ^ 16 := Nat.pow_lt_pow_right (by decide) narrow
    have bumped : bump next (powerRequest .io order) .io = place next (powerRequest .io order) + 2 ^ order :=
      bump_same next (powerRequest .io order)
    have different : BarKind.mem ≠ BarKind.io := by decide
    have kept : bump next (powerRequest .io order) .mem = next .mem := bump_other different
    constructor
    · rw [kept]
      exact tracks.mem
    · change (ioAddr s order + (BitVec.ofNat 32 (2 ^ order % 2 ^ 16)).setWidth 64).toNat = _
      rw [BitVec.toNat_add, here, Nat.mod_eq_of_lt small, size_word (by omega), bumped]
      exact Nat.mod_eq_of_lt (by omega)
    · rw [bumped]
      exact Nat.le_trans (Nat.le_trans moved behind) (Nat.le_add_right _ _)
    · rw [gives, io_decoded tracks least narrow]
      exact filled_place tracks.filled fits
  · intro next tracks failed inside
    by_cases narrow : order < 16
    · rw [io_decoded tracks least narrow] at inside
      exact failed inside.2
    · have wrapped : pciPioBasePa.toNat + (((0 - pciPioBasePa).setWidth 32 ||| 1) &&& 0xFFFFFFFC).toNat =
          0x100000000 := by decide
      have ends := inside.2
      rw [io_addr_wide (by omega), wrapped] at ends
      have limit : 0x100000000 ≤ 0x3F000000 := Nat.le_trans (Nat.le_add_right _ _) ends
      exact absurd limit (by decide)

end Giving

section Calls
variable {s : AssignState} {answer : Nat → Probe}

theorem bar_serves (s : AssignState) (i : Nat) (probe : Probe) :
    ServesBars probe.requests s (assignBar s i probe).1 := by
  cases probe with
  | absent ones =>
    rw [assign_absent]
    exact serves_nothing rfl fun _ => tracks_clear
  | io wide order least most =>
    rw [assign_io]
    exact io_serves least fun _ => rfl
  | mem32 prefetchable order least most =>
    rw [assign_mem32]
    exact mem_serves least fun _ => rfl
  | mem64 prefetchable order least most =>
    rw [assign_mem64]
    have given := mem_serves (s := s) (i := i) least fun val =>
      (rfl : decoded (.mem64 prefetchable order least most) val = (.mem, ⟨(val &&& 0xFFFFFFF0).toNat, 2 ^ order⟩))
    exact serves_append given (serves_nothing rfl fun _ => tracks_upper)

theorem rounds_serve (rounds i : Nat) (s : AssignState) :
    ServesBars (requestRounds answer rounds i) s (assignRounds answer rounds i s) := by
  induction rounds generalizing i s with
  | zero => exact serves_nothing rfl fun _ => id
  | succ rounds ih =>
    unfold requestRounds assignRounds
    by_cases inside : i < 6
    · simp only [if_pos inside, assign_bar_next]
      exact serves_append (bar_serves s i (answer i)) (ih _ _)
    · simp only [if_neg inside]
      exact serves_nothing rfl fun _ => id

theorem call_serves (s : AssignState) (call : PciDevice × (Nat → Probe)) :
    ServesBars (requestRounds call.2 6 0) s (pciAssignBars s call) := by
  have entered : ServesBars [] s { s with dev := call.1 } :=
    serves_nothing rfl fun _ tracks => ⟨tracks.mem, tracks.io, tracks.moved, tracks.filled⟩
  have served : ServesBars ([] ++ requestRounds call.2 6 0) s (pciAssignBars s call) :=
    serves_append entered (rounds_serve 6 0 _)
  exact served

theorem calls_serve (calls : List (PciDevice × (Nat → Probe))) (s : AssignState) :
    ServesBars (barRequests calls) s (calls.foldl pciAssignBars s) := by
  induction calls generalizing s with
  | nil => exact serves_nothing rfl fun _ => id
  | cons call calls ih => exact serves_append (call_serves s call) (ih _)

theorem tracks_start : Tracks assignStart barStart := by
  constructor
  · rfl
  · rfl
  · decide
  · constructor
    · intro k
      cases k <;> decide
    · constructor
      · exact nofun
      · exact nofun
      · exact List.Pairwise.nil

/-- The BARs of all calls are given sound ranges exactly as long as what the devices ask for fits into the
    two windows. -/
theorem assign_bars_sound_iff (calls : List (PciDevice × (Nat → Probe))) :
    BarsSound (assignAll calls) ↔ AllFit barWindows.limit barStart (barRequests calls) :=
  serves_sound_iff (calls_serve calls assignStart) (fun _ _ tracks => filled_sound tracks.filled) tracks_start

end Calls

/-- A 64-bit BAR of 4 GB has no size bits in the register that is read, and is put at address 0. -/
theorem four_gigabytes_at_zero :
    let device : PciDevice × (Nat → Probe) :=
      (assignStart.dev, fun i => if i = 0 then .mem64 true 32 (by decide) (by decide) else .absent false)
    (assignAll [device]).ranges = [(.mem, ⟨0, 2 ^ 32⟩)] ∧ ¬ BarsSound (assignAll [device]) := by
  intro device
  have given : (assignAll [device]).ranges = [(.mem, ⟨0, 2 ^ 32⟩)] := by decide +kernel
  constructor
  · exact given
  · intro sound
    have inside := sound.inside (.mem, ⟨0, 2 ^ 32⟩) (by rw [given]; exact List.mem_singleton_self _)
    have base : barWindows.base .mem ≤ 0 := inside.1
    exact absurd base (by decide)

end Archarch.PciDevices
