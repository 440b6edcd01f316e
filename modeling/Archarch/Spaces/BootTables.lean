import Archarch.Foundations.HardwareWalk
import Archarch.Memory.Kmalloc
import Archarch.Spaces.PageTables

/- The tables that start.S builds behind the kernel image, with the MMU off: one root for both
   halves of the address space, three tables of 2 MB blocks below it. They stay the tables of the
   kernel for good. -/
namespace Archarch.AddressSpaces
open ByteMemory TranslationTables PageFrames FixedWidth
open KernelHeap (kernVaOffset)

def virtToPhys (va : Nat) : Nat := sub64 va kernVaOffset

/-- valid | SH_outer | AF | PXN | UXN -/
def deviceFlags : Nat := 0x0060000000000601

/-- valid | AttrIndx=1 | SH=inner | AF | AP=00 -/
def normalFlags : Nat := 0x0705

def blockSize : Nat := 1 <<< 21

/-- The loop of fill_l2_mmio, fill_l2_ram and fill_l2_ecam: x5 counts the entries, x4 is the PA. -/
def fillL2 (m : Mem) (table : Nat) (flags : Nat → Nat) (pa i : Nat) : Nat → Mem
  | 0 => m
  | n + 1 => fillL2 (setEntry m table i (pa ||| flags i)) table flags (pa + blockSize) (i + 1) n

def fillL2Mmio (m : Mem) (table : Nat) : Mem := fillL2 m table (fun _ => deviceFlags) 0 0 512

def fillL2Ram (m : Mem) (table : Nat) : Mem :=
  fillL2 m table (fun i => if 64 ≤ i then deviceFlags else normalFlags) 0x40000000 0 512

def fillL2Ecam (m : Mem) (table : Nat) : Mem :=
  fillL2 m table (fun _ => deviceFlags) 0x4000000000 0 512

def buildL1 (m : Mem) (l1 l2Mmio l2Ram l2Ecam : Nat) : Mem :=
  let m := setEntry m l1 0 (l2Mmio ||| 3)
  let m := setEntry m l1 1 (l2Ram ||| 3)
  let m := setEntry m l1 2 (0x80000000 ||| deviceFlags)
  let m := setEntry m l1 3 (0xC0000000 ||| deviceFlags)
  setEntry m l1 256 (l2Ecam ||| 3)

def zeroTables (m : Mem) (kernelEnd : Nat) : Mem :=
  zeroPage (zeroPage (zeroPage (zeroPage m kernelEnd) (kernelEnd + 4096)) (kernelEnd + 8192)) (kernelEnd + 12288)

/-- From at_el1 to the point where TTBR0 and TTBR1 are set to the root. -/
def bootTables (m : Mem) (kernelEnd : Nat) : Mem :=
  let m := fillL2Mmio (zeroTables m kernelEnd) (kernelEnd + 4096)
  let m := fillL2Ecam (fillL2Ram m (kernelEnd + 8192)) (kernelEnd + 12288)
  buildL1 m kernelEnd (kernelEnd + 4096) (kernelEnd + 8192) (kernelEnd + 12288)

/-- T0SZ = T1SZ = 25: the 25 upper bits of an address are all clear or all set and select TTBR0 or TTBR1. -/
def translate (m : Mem) (ttbr0 ttbr1 va : Nat) : Option Mapping :=
  if va / 2 ^ 39 = 0 then hardwareWalk m va 2 ttbr0
  else if va / 2 ^ 39 = 2 ^ 25 - 1 then hardwareWalk m va 2 ttbr1
  else none

inductive MemoryKind where
  | device | normal
  deriving DecidableEq

/-- What a descriptor says besides its address. MAIR has normal memory at index 1 and device memory
    at all others. -/
structure Attributes where
  kind : MemoryKind
  el0 : Bool
  readOnly : Bool
  accessed : Bool
  pxn : Bool
  uxn : Bool
  deriving DecidableEq

def attributes (e : Nat) : Attributes where
  kind := if e / 4 % 8 = 1 then .normal else .device
  el0 := e.testBit 6
  readOnly := e.testBit 7
  accessed := e.testBit 10
  pxn := e.testBit 53
  uxn := e.testBit 54

/-- The memory map of the kernel: RAM, the devices below 4 GB around it, and the ECAM. -/
def kernelMap (pa : Nat) : Option MemoryKind :=
  if ramBase ≤ pa ∧ pa < ramEnd then some .normal
  else if pa < 2 ^ 32 ∨ (2 ^ 38 ≤ pa ∧ pa < 2 ^ 38 + 2 ^ 30) then some .device
  else none

/-- EL1 may read and write all of it and EL0 none; UXN and PXN are set for device memory only. -/
def kernelAttributes (kind : MemoryKind) : Attributes :=
  ⟨kind, false, false, true, decide (kind = .device), decide (kind = .device)⟩

/- Descriptors -/

section Descriptors
variable {base low high : Nat}

theorem or_flags (aligned : base % 4096 = 0) (fits : base < 2 ^ 48) (small : low < 4096) :
    base ||| (2 ^ 48 * high + low) = 2 ^ 48 * high + base + low := by
  have page : 2 ^ 12 * (base / 4096) + low = 2 ^ 12 * (base / 4096) ||| low :=
    Nat.two_pow_add_eq_or_of_lt small _
  have same : 2 ^ 12 * (base / 4096) = base := by omega
  rw [same] at page
  have flags : 2 ^ 48 * high + low = 2 ^ 48 * high ||| low := Nat.two_pow_add_eq_or_of_lt (by omega) _
  have whole : 2 ^ 48 * high + (base + low) = 2 ^ 48 * high ||| (base + low) :=
    Nat.two_pow_add_eq_or_of_lt (by omega) _
  calc base ||| (2 ^ 48 * high + low) = base ||| (2 ^ 48 * high ||| low) := by rw [flags]
    _ = 2 ^ 48 * high ||| (base ||| low) := by rw [← Nat.or_assoc, Nat.or_comm base, Nat.or_assoc]
    _ = 2 ^ 48 * high + base + low := by rw [← page, ← whole, Nat.add_assoc]

theorem device_entry_eq (aligned : base % 4096 = 0) (fits : base < 2 ^ 48) :
    base ||| deviceFlags = base + deviceFlags := by
  have flags : deviceFlags = 2 ^ 48 * 0x60 + 0x601 := rfl
  rw [flags, or_flags aligned fits (by decide)]
  omega

theorem normal_entry_eq (aligned : base % 4096 = 0) (fits : base < 2 ^ 48) :
    base ||| normalFlags = base + normalFlags := by
  have flags : normalFlags = 2 ^ 48 * 0 + 0x705 := rfl
  rw [flags, or_flags aligned fits (by decide)]
  omega

theorem link_entry_eq (aligned : base % 4096 = 0) : base ||| 3 = base + 3 := by
  have page : 2 ^ 12 * (base / 4096) + 3 = 2 ^ 12 * (base / 4096) ||| 3 :=
    Nat.two_pow_add_eq_or_of_lt (by decide) _
  have same : 2 ^ 12 * (base / 4096) = base := by omega
  rw [same] at page
  exact page.symm

def flagsOf : MemoryKind → Nat
  | .device => deviceFlags
  | .normal => normalFlags

theorem flag_entry_eq (kind : MemoryKind) (aligned : base % 4096 = 0) (fits : base < 2 ^ 48) :
    base ||| flagsOf kind = base + flagsOf kind := by
  cases kind with
  | device => exact device_entry_eq aligned fits
  | normal => exact normal_entry_eq aligned fits

theorem flag_attributes (kind : MemoryKind) (aligned : base % 4096 = 0) (fits : base < 2 ^ 48) :
    attributes (base + flagsOf kind) = kernelAttributes kind := by
  cases kind with
  | device =>
    simp only [attributes, kernelAttributes, flagsOf, deviceFlags, Nat.testBit_eq_decide_div_mod_eq,
      Attributes.mk.injEq, decide_eq_true_eq, decide_eq_false_iff_not]
    refine ⟨if_neg (by omega), by omega, by omega, by omega, ?_, ?_⟩
    · simp only [decide_true, decide_eq_true_eq]
      omega
    · simp only [decide_true, decide_eq_true_eq]
      omega
  | normal =>
    simp only [attributes, kernelAttributes, flagsOf, normalFlags, Nat.testBit_eq_decide_div_mod_eq,
      Attributes.mk.injEq, decide_eq_true_eq, decide_eq_false_iff_not]
    refine ⟨if_pos (by omega), by omega, by omega, by omega, ?_, ?_⟩
    · simp
      omega
    · simp
      omega

theorem flag_block (kind : MemoryKind) (aligned : base % 4096 = 0) : Block (base + flagsOf kind) := by
  cases kind with
  | device =>
    simp only [Block, flagsOf, deviceFlags]
    omega
  | normal =>
    simp only [Block, flagsOf, normalFlags]
    omega

theorem flags_lt (kind : MemoryKind) : flagsOf kind < 2 ^ 56 ∧ flagsOf kind % 2 ^ 48 < 4096 := by
  cases kind <;> decide

end Descriptors
/- The tables in memory -/

section Filling
variable {m : Mem} {table pa i n j : Nat} {flags : Nat → Nat}

theorem set_entry_same {e : Nat} (fits : e < 2 ^ 64) : entryAt (setEntry m table i e) table i = e :=
  read64_write64 fits

theorem set_entry_other {e : Nat} (other : j ≠ i) :
    entryAt (setEntry m table i e) table j = entryAt m table j :=
  read64_write64_apart (by omega)

theorem set_entry_outside {e a : Nat} (small : i < 512) (outside : a < table ∨ table + 4096 ≤ a) :
    setEntry m table i e a = m a :=
  write64_outside (by omega)

theorem fill_l2_outside {a : Nat} (room : i + n ≤ 512) (outside : a < table ∨ table + 4096 ≤ a) :
    fillL2 m table flags pa i n a = m a := by
  induction n generalizing m pa i with
  | zero => rfl
  | succ n ih =>
    rw [fillL2, ih (by omega)]
    exact set_entry_outside (by omega) outside

theorem fill_l2_entry (fits : ∀ k, k < n → (pa + k * blockSize ||| flags (i + k)) < 2 ^ 64) :
    entryAt (fillL2 m table flags pa i n) table j =
      if i ≤ j ∧ j < i + n then pa + (j - i) * blockSize ||| flags j else entryAt m table j := by
  induction n generalizing m pa i with
  | zero => rw [if_neg (by omega)]; rfl
  | succ n ih =>
    have first : (pa ||| flags i) < 2 ^ 64 := by
      have bound := fits 0 (by omega)
      rwa [Nat.zero_mul, Nat.add_zero, Nat.add_zero] at bound
    have later : ∀ k, k < n → (pa + blockSize + k * blockSize ||| flags (i + 1 + k)) < 2 ^ 64 := by
      intro k less
      have bound := fits (k + 1) (by omega)
      rwa [Nat.add_mul, Nat.one_mul, Nat.add_comm (k * blockSize), ← Nat.add_assoc, Nat.add_comm k 1,
        ← Nat.add_assoc] at bound
    rw [fillL2, ih later]
    by_cases here : j = i
    · subst here
      rw [if_neg (by omega), if_pos (by omega), set_entry_same first, Nat.sub_self, Nat.zero_mul, Nat.add_zero]
    · rw [set_entry_other here]
      by_cases inside : i + 1 ≤ j ∧ j < i + 1 + n
      · rw [if_pos inside, if_pos (by omega)]
        have round : j - i = (j - (i + 1)) + 1 := by omega
        rw [round, Nat.add_mul, Nat.one_mul, Nat.add_comm (_ * blockSize), Nat.add_assoc]
      · rw [if_neg inside, if_neg (by omega)]

end Filling

def Blocks (m : Mem) (table base : Nat) (kinds : Nat → MemoryKind) : Prop :=
  ∀ j, j < 512 → entryAt m table j = base + j * blockSize + flagsOf (kinds j)

structure KernelTables (m : Mem) (kernelEnd : Nat) : Prop where
  mmio : entryAt m kernelEnd 0 = kernelEnd + 4096 + 3
  ram : entryAt m kernelEnd 1 = kernelEnd + 8192 + 3
  third : entryAt m kernelEnd 2 = 0x80000000 + deviceFlags
  fourth : entryAt m kernelEnd 3 = 0xC0000000 + deviceFlags
  ecam : entryAt m kernelEnd 256 = kernelEnd + 12288 + 3
  rest : ∀ j, j < 512 → 4 ≤ j → j ≠ 256 → entryAt m kernelEnd j = 0
  mmioBlocks : Blocks m (kernelEnd + 4096) 0 fun _ => .device
  ramBlocks : Blocks m (kernelEnd + 8192) 0x40000000 fun j => if 64 ≤ j then .device else .normal
  ecamBlocks : Blocks m (kernelEnd + 12288) 0x4000000000 fun _ => .device

section Building
variable {m : Mem} {table base kernelEnd j : Nat} {kinds : Nat → MemoryKind} {flags : Nat → Nat}

theorem block_size_eq : blockSize = 2 ^ 21 := rfl

theorem fill_l2_blocks (aligned : base % 2 ^ 30 = 0) (low : base < 2 ^ 39)
    (same : ∀ j, j < 512 → flags j = flagsOf (kinds j)) :
    Blocks (fillL2 m table flags base 0 512) table base kinds := by
  have entry : ∀ j, j < 512 → (base + j * blockSize ||| flags j) = base + j * blockSize + flagsOf (kinds j) := by
    intro j small
    rw [same j small]
    rw [block_size_eq]
    exact flag_entry_eq _ (by omega) (by omega)
  have bound : ∀ k, k < 512 → (base + k * blockSize ||| flags (0 + k)) < 2 ^ 64 := by
    intro k small
    rw [Nat.zero_add, entry k small]
    have flag := (flags_lt (kinds k)).1
    rw [block_size_eq]
    omega
  intro j small
  rw [fill_l2_entry bound, if_pos (by omega), Nat.sub_zero]
  exact entry j small

theorem blocks_frame {k : Mem} (blocks : Blocks m table base kinds)
    (same : ∀ o, o < 4096 → k (table + o) = m (table + o)) : Blocks k table base kinds := by
  intro j small
  rw [entry_at_congr small same]
  exact blocks j small

theorem build_l1_outside {l1 a b c x : Nat} (outside : x < l1 ∨ l1 + 4096 ≤ x) :
    buildL1 m l1 a b c x = m x := by
  simp only [buildL1]
  rw [set_entry_outside (by decide) outside, set_entry_outside (by decide) outside,
    set_entry_outside (by decide) outside, set_entry_outside (by decide) outside,
    set_entry_outside (by decide) outside]

theorem build_l1_entry {l1 a b c : Nat} (small : (a ||| 3) < 2 ^ 64 ∧ (b ||| 3) < 2 ^ 64 ∧ (c ||| 3) < 2 ^ 64)
    (j : Nat) : entryAt (buildL1 m l1 a b c) l1 j =
      if j = 256 then c ||| 3 else if j = 3 then 0xC0000000 ||| deviceFlags
      else if j = 2 then 0x80000000 ||| deviceFlags else if j = 1 then b ||| 3
      else if j = 0 then a ||| 3 else entryAt m l1 j := by
  simp only [buildL1]
  split
  · rename_i here
    rw [here, set_entry_same small.2.2]
  rename_i not256
  rw [set_entry_other not256]
  split
  · rename_i here
    rw [here, set_entry_same (by decide)]
  rename_i not3
  rw [set_entry_other not3]
  split
  · rename_i here
    rw [here, set_entry_same (by decide)]
  rename_i not2
  rw [set_entry_other not2]
  split
  · rename_i here
    rw [here, set_entry_same small.2.1]
  rename_i not1
  rw [set_entry_other not1]
  split
  · rename_i here
    rw [here, set_entry_same small.1]
  · rename_i not0
    rw [set_entry_other not0]

theorem zero_tables_root (small : j < 512) : entryAt (zeroTables m kernelEnd) kernelEnd j = 0 := by
  have first : entryAt (zeroTables m kernelEnd) kernelEnd j = entryAt (zeroPage m kernelEnd) kernelEnd j := by
    refine entry_at_congr small ?_
    intro o inside
    simp only [zeroTables, zeroPage, page_size_eq]
    rw [fill_outside (by omega), fill_outside (by omega), fill_outside (by omega)]
  rw [first]
  exact read64_fill_zero (by rw [page_size_eq]; omega)

theorem fill_mmio_blocks : Blocks (fillL2Mmio m table) table 0 fun _ => .device :=
  fill_l2_blocks (by decide) (by decide) fun _ _ => rfl

theorem fill_ram_blocks : Blocks (fillL2Ram m table) table 0x40000000 fun j => if 64 ≤ j then .device else .normal := by
  refine fill_l2_blocks (by decide) (by decide) ?_
  intro j _
  split
  · rfl
  · rfl

theorem fill_ecam_blocks : Blocks (fillL2Ecam m table) table 0x4000000000 fun _ => .device :=
  fill_l2_blocks (by decide) (by decide) fun _ _ => rfl

theorem fill_mmio_outside {a : Nat} (outside : a < table ∨ table + 4096 ≤ a) : fillL2Mmio m table a = m a :=
  fill_l2_outside (by decide) outside

theorem fill_ram_outside {a : Nat} (outside : a < table ∨ table + 4096 ≤ a) : fillL2Ram m table a = m a :=
  fill_l2_outside (by decide) outside

theorem fill_ecam_outside {a : Nat} (outside : a < table ∨ table + 4096 ≤ a) : fillL2Ecam m table a = m a :=
  fill_l2_outside (by decide) outside

theorem boot_tables_root (aligned : kernelEnd % 4096 = 0) (fits : kernelEnd + 16384 ≤ 2 ^ 48) (small : j < 512) :
    entryAt (bootTables m kernelEnd) kernelEnd j =
      if j = 256 then kernelEnd + 12288 + 3 else if j = 3 then 0xC0000000 + deviceFlags
      else if j = 2 then 0x80000000 + deviceFlags else if j = 1 then kernelEnd + 8192 + 3
      else if j = 0 then kernelEnd + 4096 + 3 else 0 := by
  have mmio : (kernelEnd + 4096 ||| 3) = kernelEnd + 4096 + 3 := link_entry_eq (by omega)
  have ram : (kernelEnd + 8192 ||| 3) = kernelEnd + 8192 + 3 := link_entry_eq (by omega)
  have ecam : (kernelEnd + 12288 ||| 3) = kernelEnd + 12288 + 3 := link_entry_eq (by omega)
  have third : (0x80000000 ||| deviceFlags) = 0x80000000 + deviceFlags := device_entry_eq (by decide) (by decide)
  have fourth : (0xC0000000 ||| deviceFlags) = 0xC0000000 + deviceFlags := device_entry_eq (by decide) (by decide)
  -- the loops write to the other tables only
  have zero : entryAt (fillL2Ecam (fillL2Ram (fillL2Mmio (zeroTables m kernelEnd) (kernelEnd + 4096))
      (kernelEnd + 8192)) (kernelEnd + 12288)) kernelEnd j = 0 := by
    refine Eq.trans (entry_at_congr small ?_) (zero_tables_root (m := m) small)
    intro o inside
    rw [fill_ecam_outside (by omega), fill_ram_outside (by omega), fill_mmio_outside (by omega)]
  rw [bootTables, build_l1_entry ⟨by omega, by omega, by omega⟩, mmio, ram, ecam, third, fourth, zero]

theorem boot_tables_built (m : Mem) (aligned : kernelEnd % 4096 = 0) (fits : kernelEnd + 16384 ≤ 2 ^ 48) :
    KernelTables (bootTables m kernelEnd) kernelEnd := by
  have root := fun j small => boot_tables_root (m := m) (j := j) aligned fits small
  refine ⟨root 0 (by decide), root 1 (by decide), root 2 (by decide), root 3 (by decide),
    root 256 (by decide), ?_, ?_, ?_, ?_⟩
  · intro j small high other
    rw [root j small, if_neg other, if_neg (by omega), if_neg (by omega), if_neg (by omega), if_neg (by omega)]
  · refine blocks_frame (fill_mmio_blocks (m := zeroTables m kernelEnd)) ?_
    intro o inside
    rw [bootTables, build_l1_outside (by omega), fill_ecam_outside (by omega), fill_ram_outside (by omega)]
  · refine blocks_frame (fill_ram_blocks (m := fillL2Mmio (zeroTables m kernelEnd) (kernelEnd + 4096))) ?_
    intro o inside
    rw [bootTables, build_l1_outside (by omega), fill_ecam_outside (by omega)]
  · refine blocks_frame (fill_ecam_blocks (m := fillL2Ram (fillL2Mmio (zeroTables m kernelEnd)
      (kernelEnd + 4096)) (kernelEnd + 8192))) ?_
    intro o inside
    rw [bootTables, build_l1_outside (by omega)]

end Building

end Archarch.AddressSpaces
