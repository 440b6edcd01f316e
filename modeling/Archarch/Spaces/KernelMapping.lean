import Archarch.Spaces.BootTables
import Archarch.Spaces.HeapCalls

/- The memory map of the kernel: what the tables of start.S translate, and that no run of the user
   tasks changes it or lets EL0 come to the kernel through it. -/
namespace Archarch.AddressSpaces
open ByteMemory TranslationTables PageFrames LabelledRuns FixedWidth
open KernelHeap (kernVaOffset)

/-- The address that a walk finds and what may be done there. -/
def seen (found : Option Mapping) : Option (Nat × Attributes) :=
  found.map fun x => (x.pa, attributes x.descriptor)

section Walks
variable {m : Mem} {table base va kernelEnd : Nat} {kinds : Nat → MemoryKind}

theorem span_one : span 1 = 2 ^ 21 := rfl
theorem span_two : span 2 = 2 ^ 30 := rfl

theorem seen_block {level : Nat} (kind : MemoryKind) (entry : entryAt m table (slot (level + 1) va) = base + flagsOf kind)
    (aligned : base % span (level + 1) = 0) (page : base % 4096 = 0) (wide : 4096 ≤ span (level + 1))
    (fits : base + 4096 ≤ 2 ^ 48) :
    seen (hardwareWalk m va (level + 1) table) = some (base + va % span (level + 1), kernelAttributes kind) := by
  have flags := (flags_lt kind).2
  rw [hardware_walk_block entry (flag_block kind page), mapped_by_eq aligned (by omega) (by omega) rfl, seen,
    Option.map_some, flag_attributes kind page (by omega)]

theorem seen_blocks (blocks : Blocks m table base kinds) (aligned : base % 2 ^ 30 = 0) (low : base < 2 ^ 39) :
    seen (hardwareWalk m va 1 table) = some (base + va % 2 ^ 30, kernelAttributes (kinds (slot 1 va))) := by
  have small : slot 1 va < 512 := slot_lt
  have entry := blocks _ small
  rw [block_size_eq] at entry
  rw [seen_block _ entry (by rw [span_one]; omega) (by omega) (by rw [span_one]; omega) (by omega), span_one]
  rw [slot, span_one]
  have split : va % 2 ^ 30 = va / 2 ^ 21 % 512 * 2 ^ 21 + va % 2 ^ 21 := by omega
  rw [split, Nat.add_assoc]

theorem seen_table (entry : entryAt m kernelEnd (slot 2 va) = table + 3) (aligned : table % 4096 = 0)
    (fits : table < 2 ^ 48) : hardwareWalk m va 2 kernelEnd = hardwareWalk m va 1 table := by
  have present : Present (table + 3) := by
    rw [present_iff]
    omega
  rw [hardware_walk_table entry present]
  have target : outAddr (table + 3) = table := by
    rw [outAddr]
    omega
  rw [target]

theorem kernel_tables_walk (tables : KernelTables m kernelEnd) (aligned : kernelEnd % 4096 = 0)
    (fits : kernelEnd + 16384 ≤ 2 ^ 48) (low : va < 2 ^ 39) :
    seen (hardwareWalk m va 2 kernelEnd) = (kernelMap va).map fun kind => (va, kernelAttributes kind) := by
  have giga : slot 2 va = va / 2 ^ 30 := by
    rw [slot, span_two]
    omega
  have inner : slot 1 va = va % 2 ^ 30 / 2 ^ 21 := by
    rw [slot, span_one]
    omega
  rw [kernelMap, ram_base_eq, ram_end_eq]
  by_cases mmio : va / 2 ^ 30 = 0
  · rw [seen_table (giga.trans mmio ▸ tables.mmio) (by omega) (by omega),
      seen_blocks tables.mmioBlocks (by decide) (by decide), if_neg (by omega), if_pos (by omega)]
    have same : 0 + va % 2 ^ 30 = va := by omega
    rw [same]
    rfl
  by_cases ram : va / 2 ^ 30 = 1
  · rw [seen_table (giga.trans ram ▸ tables.ram) (by omega) (by omega),
      seen_blocks tables.ramBlocks (by decide) (by decide), inner]
    have same : 0x40000000 + va % 2 ^ 30 = va := by omega
    rw [same]
    by_cases inside : va < 0x48000000
    · rw [if_neg (by omega), if_pos (by omega)]
      rfl
    · rw [if_pos (by omega), if_neg (by omega), if_pos (by omega)]
      rfl
  by_cases third : va / 2 ^ 30 = 2
  · have found := seen_block .device (giga.trans third ▸ tables.third) (by decide) (by decide) (by decide) (by decide)
    rw [found, span_two, if_neg (by omega), if_pos (by omega)]
    have same : 0x80000000 + va % 2 ^ 30 = va := by omega
    rw [same]
    rfl
  by_cases fourth : va / 2 ^ 30 = 3
  · have found := seen_block .device (giga.trans fourth ▸ tables.fourth) (by decide) (by decide) (by decide) (by decide)
    rw [found, span_two, if_neg (by omega), if_pos (by omega)]
    have same : 0xC0000000 + va % 2 ^ 30 = va := by omega
    rw [same]
    rfl
  by_cases ecam : va / 2 ^ 30 = 256
  · rw [seen_table (giga.trans ecam ▸ tables.ecam) (by omega) (by omega),
      seen_blocks tables.ecamBlocks (by decide) (by decide), if_neg (by omega), if_pos (by omega)]
    have same : 0x4000000000 + va % 2 ^ 30 = va := by omega
    rw [same]
    rfl
  · have empty := tables.rest (slot 2 va) slot_lt (by omega) (by omega)
    rw [hardware_walk_empty empty, if_neg (by omega), if_neg (by omega)]
    rfl

end Walks

/-- What an address of 64 bits gives under these tables: the lower half maps each address to itself,
    the upper half to itself less the offset, and there is nothing between them. -/
def kernelTranslation (va : Nat) : Option (Nat × Attributes) :=
  if va < 2 ^ 39 then (kernelMap va).map fun kind => (va, kernelAttributes kind)
  else if kernVaOffset ≤ va then (kernelMap (virtToPhys va)).map fun kind => (virtToPhys va, kernelAttributes kind)
  else none

section Translation
variable {m : Mem} {va pa kernelEnd ttbr0 : Nat}

theorem virt_to_phys_of_high (high : kernVaOffset ≤ va) (word : va < 2 ^ 64) :
    virtToPhys va = va - kernVaOffset ∧ va / 2 ^ 39 = 2 ^ 25 - 1 ∧ va - kernVaOffset < 2 ^ 39 := by
  rw [virtToPhys, sub64]
  rw [kernVaOffset] at high ⊢
  omega

theorem kernel_tables_high (ttbr0 : Nat) (tables : KernelTables m kernelEnd) (aligned : kernelEnd % 4096 = 0)
    (fits : kernelEnd + 16384 ≤ 2 ^ 48) (high : kernVaOffset ≤ va) (word : va < 2 ^ 64) :
    seen (translate m ttbr0 kernelEnd va) =
      (kernelMap (virtToPhys va)).map fun kind => (virtToPhys va, kernelAttributes kind) := by
  obtain ⟨phys, upper, small⟩ := virt_to_phys_of_high high word
  have lower : va % span 3 = (va - kernVaOffset) % span 3 := by
    have three : span 3 = 2 ^ 39 := rfl
    rw [three]
    rw [kernVaOffset] at high ⊢
    omega
  rw [translate, if_neg (by omega), if_pos upper, hardware_walk_low lower, phys]
  exact kernel_tables_walk tables aligned fits small

end Translation

/-- The root is a page address, with the four tables inside the physical addresses. -/
theorem boot_tables_translate (m : Mem) (kernelEnd va : Nat) (aligned : kernelEnd % 4096 = 0)
    (fits : kernelEnd + 4 * 4096 ≤ 2 ^ 48) (word : va < 2 ^ 64) :
    seen (translate (bootTables m kernelEnd) kernelEnd kernelEnd va) = kernelTranslation va := by
  have tables := boot_tables_built m aligned fits
  rw [kernelTranslation]
  by_cases low : va < 2 ^ 39
  · rw [if_pos low, translate, if_pos (by omega)]
    exact kernel_tables_walk tables aligned fits low
  rw [if_neg low]
  by_cases high : kernVaOffset ≤ va
  · rw [if_pos high]
    exact kernel_tables_high _ tables aligned fits high word
  · rw [if_neg high, translate, if_neg (by omega), if_neg (by rw [kernVaOffset] at high; omega)]
    rfl

theorem boot_tables_translate_uart : seen (translate (bootTables (fun _ => 0xFF) 0x40500000) 0x40500000
    0x40500000 0xFFFFFF8009000018) = some (0x09000018, kernelAttributes .device) :=
  (boot_tables_translate (fun _ => 0xFF) 0x40500000 0xFFFFFF8009000018 (by decide) (by decide) (by decide)).trans
    (by decide)

/- Runs of the user tasks -/

/-- pmm_init is given the end of the image and the four tables behind it. -/
def kernelReserved (kernelEnd : Nat) : Nat := kernelEnd + 4 * pageSize

/-- The linker script aligns the end of the kernel. -/
structure KernelPlaced (kernelEnd : Nat) : Prop where
  aligned : kernelEnd % 4096 = 0
  above : ramBase ≤ kernelEnd
  inRam : kernelReserved kernelEnd ≤ ramEnd

def TablesKept (kernelEnd : Nat) (m : Mem) : Prop :=
  ∃ before, ∀ o, o < 4 * pageSize → m (kernelEnd + o) = bootTables before kernelEnd (kernelEnd + o)

/-- The state in which kernel_main leaves the memory to the user tasks. -/
structure KernelBooted (kernelEnd : Nat) (s : System) : Prop where
  booted : Booted (kernelReserved kernelEnd) s
  tables : TablesKept kernelEnd s.phys.mem

def KernelRan (kernelEnd : Nat) : System → Prop := Reaches (KernelBooted kernelEnd) (Taken systemStep)

/-- The upper half is the memory map of the kernel whichever table is in TTBR0, and what EL0 may touch
    while its task runs lies in RAM behind the kernel and its tables. -/
structure KernelShielded (kernelEnd : Nat) (s : System) : Prop where
  kernel : ∀ ttbr0 va, kernVaOffset ≤ va → va < 2 ^ 64 →
    seen (translate s.phys.mem ttbr0 kernelEnd va) =
      (kernelMap (virtToPhys va)).map fun kind => (virtToPhys va, kernelAttributes kind)
  el0 : ∀ n ttbr0 va x, roots s n = some ttbr0 → va < 2 ^ 64 →
    translate s.phys.mem ttbr0 kernelEnd va = some x → (attributes x.descriptor).el0 = true →
    kernelReserved kernelEnd ≤ x.pa ∧ x.pa < ramEnd

section Runs
variable {s t : System} {kernelEnd reserved : Nat}

theorem reserved_bytes_step {action : Action} (inv : SpacesInv reserved s) (ready : AllReady s)
    (step : systemStep s action = some t) (page o : Nat) (low : page < reserved) (small : o < 4096) :
    t.phys.mem (pageToAddr page + o) = s.phys.mem (pageToAddr page + o) := by
  have used : page ∈ usedSet s.phys.pmm := inv.kernel (Finset.mem_range.mpr low)
  -- no tree holds a page of the kernel
  have outside : ∀ n p, ¬ Occurs (roots s) s.phys.mem n p (pageToAddr page) := by
    intro n p here
    obtain ⟨other, same, _, off⟩ := inv.trees.owned n p _ here
    obtain rfl := page_to_addr_injective same
    exact off (Finset.mem_range.mpr low)
  cases action with
  | createUser image =>
    cases step
    rcases sched_create_user_spec (show schedCreateUser s image = (_, _) from rfl) with ⟨_, not⟩ | ⟨_, _, _, _, new⟩
    · exact not.preserves.bytes page used o small
    · exact new.preserves.bytes page used o small
  | fork current =>
    simp only [systemStep] at step
    split at step
    · cases step
      rcases sched_fork_spec (show schedFork s current = (_, _) from rfl) with ⟨_, not⟩ | ⟨_, _, _, _, _, new⟩
      · exact not.preserves.bytes page used o small
      · exact new.preserves.bytes page used o small
    · cases step
  | sbrk current increment =>
    obtain ⟨_, ⟨rfl, _⟩ | ⟨_, _, _, _, _, _, _, called⟩⟩ := sbrk_step inv ready step
    · rfl
    · rw [(called_memory called).bytes page (called.looped.grown.used used) o small]
      refine called.looped.grown.bytes page used ?_ o small
      rintro ⟨n, p, _, here⟩
      exact outside n p here
  | exit current =>
    simp only [systemStep] at step
    split at step
    · cases step
      rfl
    · cases step
  | store current va byte =>
    simp only [systemStep] at step
    split at step
    · obtain ⟨a, found, rfl⟩ := Option.map_eq_some_iff.mp step
      obtain ⟨_, here⟩ := page_at_occurs found
      obtain ⟨other, rfl, _, _⟩ := inv.trees.owned current _ a here
      have apart : other ≠ page := by
        rintro rfl
        exact outside current _ here
      have elsewhere : pageToAddr page + o ≠ pageToAddr other + va % 4096 := by
        rw [page_to_addr_eq, page_to_addr_eq]
        omega
      change Function.update s.phys.mem (pageToAddr other + va % 4096) byte (pageToAddr page + o) = _
      rw [Function.update_of_ne elsewhere]
    · cases step

theorem kernel_reserved_count (placed : KernelPlaced kernelEnd) :
    pageToAddr (reservedCount (kernelReserved kernelEnd)) = kernelReserved kernelEnd := by
  obtain ⟨aligned, above, inRam⟩ := placed
  simp only [kernelReserved, page_size_eq, ram_base_eq, ram_end_eq] at above inRam ⊢
  rw [page_to_addr_eq, reservedCount, page_align_up_eq (by omega), page_size_eq, ram_base_eq]
  omega

theorem tables_kept_step {action : Action} (placed : KernelPlaced kernelEnd)
    (inv : SpacesInv (reservedCount (kernelReserved kernelEnd)) s) (ready : AllReady s)
    (kept : TablesKept kernelEnd s.phys.mem) (step : systemStep s action = some t) :
    TablesKept kernelEnd t.phys.mem := by
  obtain ⟨before, same⟩ := kept
  refine ⟨before, ?_⟩
  intro o inside
  rw [← same o inside]
  have count := kernel_reserved_count placed
  obtain ⟨aligned, above, inRam⟩ := placed
  simp only [kernelReserved, page_size_eq, ram_base_eq, ram_end_eq, page_to_addr_eq] at above inRam inside count
  have byte := reserved_bytes_step inv ready step ((kernelEnd + o - ramBase) / 4096)
    ((kernelEnd + o) % 4096) (by rw [ram_base_eq]; simp only [kernelReserved, page_size_eq]; omega) (by omega)
  have place : pageToAddr ((kernelEnd + o - ramBase) / 4096) + (kernelEnd + o) % 4096 = kernelEnd + o := by
    rw [page_to_addr_eq, ram_base_eq]
    omega
  rwa [place] at byte

theorem kernel_ran_inv (placed : KernelPlaced kernelEnd) (run : KernelRan kernelEnd s) :
    SpacesInv (reservedCount (kernelReserved kernelEnd)) s ∧ AllReady s ∧ TablesKept kernelEnd s.phys.mem := by
  refine reaches_invariant (fun s => SpacesInv (reservedCount (kernelReserved kernelEnd)) s ∧ AllReady s ∧
    TablesKept kernelEnd s.phys.mem) ?_ ?_ run
  · intro s start
    exact ⟨spaces_inv_start start.booted, all_ready_start start.booted, start.tables⟩
  · rintro s action t ⟨inv, ready, kept⟩ step
    exact ⟨system_step_inv inv step, all_ready_step inv ready step, tables_kept_step placed inv ready kept step⟩

theorem tables_kept_built (placed : KernelPlaced kernelEnd) (kept : TablesKept kernelEnd s.phys.mem) :
    KernelTables s.phys.mem kernelEnd := by
  obtain ⟨before, same⟩ := kept
  obtain ⟨aligned, above, inRam⟩ := placed
  simp only [kernelReserved, page_size_eq, ram_end_eq] at inRam same
  have built := boot_tables_built before aligned (by omega)
  have root : ∀ j, j < 512 → entryAt s.phys.mem kernelEnd j = entryAt (bootTables before kernelEnd) kernelEnd j := by
    intro j small
    exact entry_at_congr small fun o inside => same o (by omega)
  refine ⟨(root 0 (by decide)).trans built.mmio, (root 1 (by decide)).trans built.ram,
    (root 2 (by decide)).trans built.third, (root 3 (by decide)).trans built.fourth,
    (root 256 (by decide)).trans built.ecam, ?_, blocks_frame built.mmioBlocks ?_,
    blocks_frame built.ramBlocks ?_, blocks_frame built.ecamBlocks ?_⟩
  · intro j small high other
    exact (root j small).trans (built.rest j small high other)
  · intro o inside
    rw [Nat.add_assoc]
    exact same _ (by omega)
  · intro o inside
    rw [Nat.add_assoc]
    exact same _ (by omega)
  · intro o inside
    rw [Nat.add_assoc]
    exact same _ (by omega)

/-- A task reaches pages of its own tree only, and none of them is one of the kernel. -/
theorem user_half_shielded (placed : KernelPlaced kernelEnd)
    (inv : SpacesInv (reservedCount (kernelReserved kernelEnd)) s) {n ttbr0 va : Nat} {x : Mapping}
    (root : roots s n = some ttbr0) (found : hardwareWalk s.phys.mem va 2 ttbr0 = some x) :
    kernelReserved kernelEnd ≤ x.pa ∧ x.pa < ramEnd := by
  have reached := forest_walk va inv.trees root
  rw [found, Option.map_some, eq_comm, Option.map_eq_some_iff] at reached
  obtain ⟨a, path, place⟩ := reached
  obtain ⟨page, rfl, used, off⟩ := inv.trees.owned n _ a ⟨walk_path_valid va, ttbr0, root, path⟩
  have inside := (mem_used_set.mp used).1
  have above : reservedCount (kernelReserved kernelEnd) ≤ page := by
    rw [Finset.mem_range] at off
    omega
  rw [← kernel_reserved_count placed]
  rw [total_pages_eq] at inside
  simp only [page_to_addr_eq, ram_end_eq] at place ⊢
  omega

end Runs

theorem kernel_stays_shielded (kernelEnd : Nat) (s : System) (placed : KernelPlaced kernelEnd)
    (run : KernelRan kernelEnd s) : KernelShielded kernelEnd s := by
  obtain ⟨inv, _, kept⟩ := kernel_ran_inv placed run
  have tables := tables_kept_built placed kept
  have inRam := placed.inRam
  simp only [kernelReserved, page_size_eq, ram_end_eq] at inRam
  constructor
  · intro ttbr0 va high word
    exact kernel_tables_high ttbr0 tables placed.aligned (by omega) high word
  · intro n ttbr0 va x root word found allowed
    by_cases low : va / 2 ^ 39 = 0
    · rw [translate, if_pos low] at found
      exact user_half_shielded placed inv root found
    by_cases upper : va / 2 ^ 39 = 2 ^ 25 - 1
    · -- the upper half gives EL0 nothing
      have high : kernVaOffset ≤ va := by
        rw [kernVaOffset]
        omega
      have kernel := kernel_tables_high ttbr0 tables placed.aligned (by omega) high word
      rw [found, seen, Option.map_some, eq_comm, Option.map_eq_some_iff] at kernel
      obtain ⟨kind, _, same⟩ := kernel
      have rights : kernelAttributes kind = attributes x.descriptor := congrArg Prod.snd same
      rw [← rights] at allowed
      cases allowed
    · rw [translate, if_neg low, if_neg upper] at found
      cases found

def bootedKernel : System :=
  { freshSystem 0x40005000 with phys := ⟨bootTables (fun _ => 0) 0x40001000, pmmInit 0x40005000⟩ }

theorem booted_kernel_ran : KernelRan 0x40001000 bootedKernel := by
  refine Reaches.start ⟨⟨rfl, rfl, ?_⟩, fun _ => 0, fun _ _ => rfl⟩
  exact (@fresh_system_booted 0x40005000 (by decide) (by decide)).reserved

theorem kernel_shielded_after_create :
    KernelShielded 0x40001000 (schedCreateUser bootedKernel emptyImage).2 :=
  kernel_stays_shielded 0x40001000 _ ⟨by decide, by decide, by decide⟩
    (Reaches.next (a := .createUser emptyImage) booted_kernel_ran rfl)

end Archarch.AddressSpaces
