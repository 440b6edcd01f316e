import Mathlib.Data.List.GetD
import Archarch.Memory.Defragmentation
import Archarch.Memory.HeapBuffers
import Archarch.Spaces.BootTables
import Archarch.Spaces.NewImages
import Archarch.Volumes.ImageRoundTrip

/- SYS_EXEC of syscall.c: a file goes from the volume through a buffer of the kernel heap into the
   pages of a new task. The buffer is a kernel address, and memory is physical. -/
namespace Archarch.Programs
open ByteMemory TranslationTables PageFrames LabelledRuns ExtentLayout Fat16
open KernelHeap hiding kernVaOffset
open AddressSpaces hiding Kernel

structure KernelState where
  fs : Fs
  heap : Heap
  system : System

def KernelState.mem (k : KernelState) : Mem := k.system.phys.mem

/-- kmalloc and the page allocator share their pages. -/
def KernelState.arena (k : KernelState) : Arena := ⟨k.system.phys.pmm, k.heap⟩

def KernelState.withArena (k : KernelState) (a : Arena) : KernelState :=
  { k with heap := a.heap, system := { k.system with phys := ⟨k.system.phys.mem, a.pmm⟩ } }

def KernelState.withMem (k : KernelState) (m : Mem) : KernelState :=
  { k with system := { k.system with phys := ⟨m, k.system.phys.pmm⟩ } }

/-- The stores of fat16_read_file, in their order. -/
def storeAll (m : Mem) (base : Nat) (stores : List (Nat × Byte)) : Mem :=
  stores.foldl (fun m w => Function.update m (base + w.1) w.2) m

/-- fname: at most 30 bytes, and then a C string. -/
def execName (name : List Byte) : List Byte := (name.take 30).takeWhile fun c => c ≠ 0

theorem result_small (p : Progress) : p.result.toNat < 2 ^ 31 := by
  rw [Progress.result]
  split
  · decide
  · have := @BitVec.toInt_lt 32 (BitVec.ofNat 32 p.done)
    omega

/-- What sched_create_user copies, once fat16_read_file has returned a size. -/
def codeImage (m : Mem) (code : Nat) (p : Progress) : Image :=
  ⟨fun i => m (virtToPhys code + i), p.result.toNat, result_small p⟩

/-- The value of regs[0] as an int. kmalloc may take some rounds and kfree some steps; none stands
    for a call that does not return. -/
def sysExec (rounds steps : Nat) (k : KernelState) (name : List Byte) : Option (Int × KernelState) :=
  match fat16Open k.fs (execName name) with
  | none => some (-1, k)
  | some file =>
    match kmalloc rounds k.arena file.fileSize with
    | (none, _) => none
    | (some code, arena) =>
      let k := k.withArena arena
      if code = 0 then some (-1, k)
      else
        (fat16ReadFile k.fs file file.fileSize).bind fun p =>
        let k := k.withMem (storeAll k.mem (virtToPhys code) p.stores)
        if p.result < 0 then (kfree steps k.heap code).map fun heap => (-1, { k with heap := heap })
        else
          let made := schedCreateUser k.system (codeImage k.mem code p)
          (kfree steps k.heap code).map fun heap =>
            (if made.1 < 0 then -1 else made.1, { k with heap := heap, system := made.2 })

/- What a caller of exec may rely on. -/

structure HoldsProgram (t : System) (n : Nat) (text : List Byte) : Prop where
  runs : Alive t n
  fits : text.length ≤ (t.tasks n).codePages * pageSize
  bytes : ∀ i, i < (t.tasks n).codePages * pageSize → ∃ a, pageAt t n (userVaCode + i) = some a ∧
    t.phys.mem (a + i % pageSize) = text.getD i 0

def RoomFor (s : System) (p : Pmm) (size : Nat) : Prop :=
  s.numTasks < schedMaxTasks ∧ HoldsImage p (imagePages size) ∧ imagePages size + 9 ≤ freeCount p

/-- The end of a call that began in state k with the heap s, where p is the page allocator once the
    buffer is taken. Other pages and other allocations of the heap keep their bytes. -/
structure Executed (s : HeapRun) (k l : KernelState) (p : Pmm) (file : FatFile) (r : Int) : Prop where
  made : RoomFor k.system p file.fileSize → r = k.system.numTasks ∧
    l.system.numTasks = k.system.numTasks + 1 ∧ HoldsProgram l.system k.system.numTasks (contents k.fs file)
  refused : ¬ RoomFor k.system p file.fileSize → r = -1 ∧ l.system.numTasks = k.system.numTasks
  tasks : ∀ n, n < k.system.numTasks → l.system.tasks n = k.system.tasks n
  others : ∀ page ∈ s.others, ∀ o, o < pageSize → l.mem (pageToAddr page + o) = k.mem (pageToAddr page + o)
  live : ∀ ptr ∈ s.live, ∀ x, (usable s.arena.heap ptr).Has x → l.mem (virtToPhys x) = k.mem (virtToPhys x)

section Stores
variable {m : Mem} {base first d : Nat} {fs : Fs}

theorem store_prefix (m : Mem) (base : Nat) (fs : Fs) (first d : Nat) :
    storeAll m base (prefixStores fs first d) = fill m base d (fileByte fs first) := by
  induction d with
  | zero =>
    funext x
    rw [fill_outside (by omega)]
    rfl
  | succ d ih =>
    have grown : prefixStores fs first (d + 1) = prefixStores fs first d ++ [(d, fileByte fs first d)] := by
      rw [prefixStores, List.range_succ, List.map_append]
      rfl
    rw [grown, storeAll, List.foldl_append]
    change Function.update (storeAll m base (prefixStores fs first d)) (base + d) (fileByte fs first d) = _
    rw [ih]
    funext x
    by_cases last : x = base + d
    · rw [last, Function.update_self, fill_inside (by omega), Nat.add_sub_cancel_left]
    · rw [Function.update_of_ne last]
      by_cases inside : base ≤ x ∧ x < base + d
      · rw [fill_inside inside, fill_inside (by omega)]
      · rw [fill_outside (by omega), fill_outside (by omega)]

end Stores

section Tasks
variable {s t : System} {image : Image} {text : List Byte} {codeFirst stackFirst pgd : Nat} {r : Int}

theorem create_user_refuses (made : schedCreateUser s image = (r, t)) (none : ¬ RoomFor s s.phys.pmm image.size) :
    r = -1 := by
  rw [sched_create_user_eq] at made
  split at made
  · exact (congrArg Prod.fst made).symm
  · rename_i slots
    rcases spawn_memory made with ⟨_, holds, enough⟩ | ⟨failed, _⟩
    · exact absurd ⟨by omega, holds, enough⟩ none
    · exact failed

theorem spawned_holds_program
    (new : Spawned s t (imagePages image.size) (userVaCode + imagePages image.size * pageSize)
      (fun m base => loadImage m base (imagePages image.size) image) (fun m _ => m) codeFirst stackFirst pgd)
    (fits : image.size ≤ 508 * 4096) (size : text.length = image.size)
    (same : ∀ i, i < image.size → image.bytes i = text.getD i 0) : HoldsProgram t s.numTasks text := by
  have slot : t.tasks s.numTasks = ⟨false, true, pgd, pageToAddr codeFirst, imagePages image.size,
      pageToAddr stackFirst, userVaCode + imagePages image.size * pageSize⟩ := by
    rw [new.tasks, Function.update_self]
  constructor
  · refine ⟨?_, by rw [slot]⟩
    rw [new.count]
    omega
  · rw [size, slot]
    exact image_pages_bound image
  · intro i inside
    rw [slot, page_size_eq] at inside
    have few := (image_pages_fit_iff image).mpr fits
    have page : i / 4096 < imagePages image.size := by
      dsimp only at inside
      omega
    refine ⟨pageToAddr codeFirst + i / 4096 * pageSize, ?_, ?_⟩
    · have code : userVaCode = 0x400000 := rfl
      rw [spawned_page_at new, if_pos (by rw [vaLimit, code]; omega)]
      refine image_page_code few page ?_
      rw [code]
      omega
    · have byte := new.codeBytes (i / 4096) (i % 4096) page (Nat.mod_lt _ (by decide))
      have address : pageToAddr (codeFirst + i / 4096) + i % 4096 = pageToAddr codeFirst + i := by
        rw [page_to_addr_eq, page_to_addr_eq]
        omega
      rw [← page_to_addr_add, page_size_eq, byte, address, load_image_bytes image inside]
      split
      · rename_i code
        exact same i code
      · rw [List.getD_eq_default _ _ (by omega)]

end Tasks

section Buffers
variable {pages : Finset Nat} {x : Nat}

theorem heap_address (ram : pages ⊆ Finset.range totalPages) (owned : Owned pages x) :
    ∃ page ∈ pages, ∃ o, o < pageSize ∧ virtToPhys x = pageToAddr page + o ∧
      x = virtToPhys x + KernelHeap.kernVaOffset := by
  obtain ⟨page, member, low, high⟩ := owned
  have inside := Finset.mem_range.mp (ram member)
  have total := total_pages_eq
  rw [page_va_eq] at low high
  have phys : virtToPhys x = x - 0xFFFFFF8000000000 := by
    rw [virtToPhys, KernelHeap.kernVaOffset]
    rw [page_size_eq] at high
    exact FixedWidth.sub64_eq (by omega) (by omega)
  refine ⟨page, member, x - (0xFFFFFF8040000000 + page * 4096), by omega, ?_, ?_⟩
  · rw [phys, page_to_addr_eq]
    omega
  · rw [phys, KernelHeap.kernVaOffset]
    omega

structure BufferAt (s : HeapRun) (arena : Arena) (code size : Nat) : Prop where
  others : ∀ page ∈ s.others, page ∈ usedSet arena.pmm ∧ ∀ o, o < pageSize →
    pageToAddr page + o < virtToPhys code ∨ virtToPhys code + size ≤ pageToAddr page + o
  live : ∀ ptr ∈ s.live, ∀ x, (usable s.arena.heap ptr).Has x →
    (∃ page ∈ usedSet arena.pmm, ∃ o, o < pageSize ∧ virtToPhys x = pageToAddr page + o) ∧
      (virtToPhys x < virtToPhys code ∨ virtToPhys code + size ≤ virtToPhys x)

theorem buffer_at {s t : HeapRun} {size code : Nat} (positive : 0 < size) (buffered : Buffered s t size code) :
    BufferAt s t.arena code size := by
  obtain ⟨inv, _, others, live, room, kept⟩ := buffered
  obtain ⟨bs, arena⟩ := inv.arena
  have ram : t.heapPages ⊆ Finset.range totalPages := arena.marked.trans (used_set_subset _)
  have own : code ∈ t.live := by
    rw [live]
    exact List.mem_cons_self
  have base : (usable t.arena.heap code).base = code := rfl
  have byte : ∀ i, i < size → Owned t.heapPages (code + i) := by
    intro i inside
    refine usable_owned inv own ?_
    rw [Range.Has, base]
    omega
  have start := byte 0 positive
  rw [Nat.add_zero] at start
  obtain ⟨_, _, _, _, _, code_eq⟩ := heap_address ram start
  have shift : ∀ i, i < size → virtToPhys (code + i) = virtToPhys code + i := by
    intro i inside
    obtain ⟨_, _, _, _, _, here⟩ := heap_address ram (byte i inside)
    omega
  constructor
  · intro page member
    rw [← others] at member
    refine ⟨inv.othersUsed member, ?_⟩
    intro o small
    by_contra within
    have inside : pageToAddr page + o - virtToPhys code < size := by omega
    obtain ⟨mine, owned, o', small', place, _⟩ := heap_address ram (byte _ inside)
    rw [shift _ inside] at place
    have same : mine = page := by
      have frames := And.intro (page_to_addr_eq mine) (page_to_addr_eq page)
      rw [page_size_eq] at small small'
      omega
    subst same
    exact Finset.disjoint_left.mp inv.apart owned member
  · intro ptr member x inside
    have mine : ptr ∈ t.live := by
      rw [live]
      exact List.mem_cons_of_mem _ member
    rw [← kept ptr member] at inside
    obtain ⟨page, owned, o, small, place, here⟩ := heap_address ram (usable_owned inv mine inside)
    refine ⟨⟨page, arena.marked owned, o, small, place⟩, ?_⟩
    have apart := (heap_safe_of_inv inv).live
    rw [live] at apart
    have split := (List.pairwise_cons.mp apart).1 ptr member
    simp only [Range.Apart, Range.Has, base] at split inside
    omega

end Buffers

section Calls
variable {s : HeapRun} {k l : KernelState} {name : List Byte} {file : FatFile} {rounds steps code : Nat} {arena : Arena}
  {r : Int}

def loaded (k : KernelState) (arena : Arena) (code : Nat) (file : FatFile) : KernelState :=
  (k.withArena arena).withMem (fill k.mem (virtToPhys code) file.fileSize (fileByte k.fs file.firstCluster))

theorem with_arena_system (k : KernelState) (a : Arena) :
    (k.withArena a).system = ⟨⟨k.mem, a.pmm⟩, k.system.tasks, k.system.numTasks⟩ := rfl

theorem with_mem_system (k : KernelState) (m : Mem) :
    (k.withMem m).system = ⟨⟨m, k.system.phys.pmm⟩, k.system.tasks, k.system.numTasks⟩ := rfl

theorem loaded_system (k : KernelState) (arena : Arena) (code : Nat) (file : FatFile) :
    (loaded k arena code file).system =
      ⟨⟨fill k.mem (virtToPhys code) file.fileSize (fileByte k.fs file.firstCluster), arena.pmm⟩,
        k.system.tasks, k.system.numTasks⟩ := by
  rw [loaded, with_mem_system, with_arena_system]

theorem sys_exec_eq (opened : fat16Open k.fs (execName name) = some file) (covers : Covers k.fs file)
    (small : file.fileSize < 2 ^ 31) (given : kmalloc rounds k.arena file.fileSize = (some code, arena))
    (nonnull : code ≠ 0) :
    sysExec rounds steps k name =
      let made := schedCreateUser (loaded k arena code file).system
        (codeImage (loaded k arena code file).mem code (readUpTo k.fs file.firstCluster file.fileSize))
      (kfree steps arena.heap code).map fun heap =>
        (if made.1 < 0 then -1 else made.1, { loaded k arena code file with heap := heap, system := made.2 }) := by
  have read := fat16_read_file_eq covers small file.fileSize
  rw [Nat.min_self] at read
  have result : (readUpTo k.fs file.firstCluster file.fileSize).result = file.fileSize := read_up_to_result small
  rw [sysExec, opened]
  dsimp only
  rw [given]
  dsimp only
  have fs : (k.withArena arena).fs = k.fs := rfl
  rw [if_neg nonnull, fs, read, Option.bind_some, if_neg (by rw [result]; omega)]
  have stores : (readUpTo k.fs file.firstCluster file.fileSize).stores =
    prefixStores k.fs file.firstCluster file.fileSize := rfl
  rw [stores, store_prefix]
  rfl

theorem fill_kept {m : Mem} {base n x : Nat} {f : Nat → BitVec 8} {t : Phys} {p : Pmm}
    (preserves : Preserves (usedSet p) ⟨fill m base n f, p⟩ t) (used : ∃ page ∈ usedSet p, ∃ o, o < pageSize ∧
      x = pageToAddr page + o) (outside : x < base ∨ base + n ≤ x) : t.mem x = m x := by
  obtain ⟨page, member, o, small, rfl⟩ := used
  rw [preserves.bytes page member o small]
  exact fill_outside outside

theorem create_preserves {t u : System} {image : Image} (made : schedCreateUser t image = (r, u)) :
    Preserves (usedSet t.phys.pmm) t.phys u.phys := by
  rcases sched_create_user_spec made with ⟨_, not⟩ | ⟨_, _, _, _, new⟩
  · exact not.preserves
  · exact new.preserves

theorem code_image_size (m : Mem) (code : Nat) (fs : Fs) (first : Nat) {d : Nat} (small : d < 2 ^ 31) :
    (codeImage m code (readUpTo fs first d)).size = d := by
  change (readUpTo fs first d).result.toNat = d
  rw [read_up_to_result small, Int.toNat_natCast]

theorem create_executed {u : System} {image : Image} {f : Nat → BitVec 8} (buffer : BufferAt s arena code file.fileSize)
    (fits : file.fileSize ≤ 508 * 4096) (size : image.size = file.fileSize)
    (bytes : ∀ i, i < image.size → image.bytes i = (contents k.fs file).getD i 0)
    (phys : u.phys = ⟨fill k.mem (virtToPhys code) file.fileSize f, arena.pmm⟩) (tasks : u.tasks = k.system.tasks)
    (count : u.numTasks = k.system.numTasks) (made : schedCreateUser u image = (r, l.system)) :
    Executed s k l arena.pmm file (if r < 0 then -1 else r) := by
  have room_eq : RoomFor k.system arena.pmm image.size ↔ RoomFor u u.phys.pmm image.size := by
    rw [RoomFor, RoomFor, phys, count]
  have preserves := create_preserves made
  rw [phys] at preserves
  have spec := sched_create_user_spec made
  refine ⟨?_, ?_, ?_, ?_, ?_⟩
  · intro room
    rw [← size, room_eq] at room
    have number := create_user_succeeds room.1 room.2.1 room.2.2 made
    rcases spec with ⟨failed, _⟩ | ⟨codeFirst, stackFirst, pgd, _, new⟩
    · rw [failed] at number
      omega
    · have natural : ¬ r < 0 := by
        rw [number]
        omega
      rw [if_neg natural]
      rw [← count]
      refine ⟨number, new.count, ?_⟩
      refine spawned_holds_program new (size ▸ fits) ?_ bytes
      rw [contents, List.length_map, List.length_range, size]
  · intro none
    rw [← size, room_eq] at none
    have failed := create_user_refuses made none
    rcases spec with ⟨_, not⟩ | ⟨_, _, _, number, _⟩
    · rw [failed, if_pos (by decide)]
      exact ⟨rfl, not.count.trans count⟩
    · rw [failed] at number
      omega
  · intro n old
    rcases spec with ⟨_, not⟩ | ⟨_, _, _, _, new⟩
    · rw [not.tasks, tasks]
    · rw [new.tasks, tasks, Function.update_of_ne (by omega)]
  · intro page member o inside
    obtain ⟨used, outside⟩ := buffer.others page member
    exact fill_kept preserves ⟨page, used, o, inside, rfl⟩ (outside o inside)
  · intro ptr member x inside
    obtain ⟨used, outside⟩ := buffer.live ptr member x inside
    exact fill_kept preserves used outside

end Calls

/-- SYS_EXEC in a kernel whose frees have merged adjacent blocks. -/
theorem exec_runs_the_file (s : HeapRun) (k : KernelState) (name : List Byte) (file : FatFile)
    (run : Reaches HeapStart (Guarded adjacentFrees (Taken heapStep)) s) (same : k.arena = s.arena)
    (opened : fat16Open k.fs (execName name) = some file) (covers : Covers k.fs file)
    (some_ : 0 < file.fileSize) (fits : file.fileSize ≤ 508 * 4096) :
    (∀ rounds steps r l, sysExec rounds steps k name = some (r, l) →
      Executed s k l (kmalloc rounds k.arena file.fileSize).2.pmm file r) ∧
    (Fits k.heap file.fileSize ∨ Growable k.system.phys.pmm file.fileSize →
      ∃ rounds steps, (sysExec rounds steps k name).isSome) := by
  have small : file.fileSize < 2 ^ 31 := by omega
  obtain ⟨inv, aligned⟩ := heap_run_invariant run
  -- a call that is past kmalloc has a buffer
  have buffered : ∀ rounds code arena, kmalloc rounds k.arena file.fileSize = (some code, arena) →
      ∃ t, t.arena = arena ∧ Buffered s t file.fileSize code := by
    intro rounds code arena given
    rw [same] at given
    exact kmalloc_buffer inv some_ (by omega) given
  constructor
  · intro rounds steps r l result
    rcases given : kmalloc rounds k.arena file.fileSize with ⟨answer, arena⟩
    cases answer with
    | none =>
      rw [sysExec, opened] at result
      dsimp only at result
      rw [given] at result
      cases result
    | some code =>
      obtain ⟨t, rfl, buffer⟩ := buffered rounds code arena given
      rw [sys_exec_eq opened covers small given buffer.nonnull] at result
      obtain ⟨heap, _, ends⟩ := Option.map_eq_some_iff.mp result
      cases ends
      have system := loaded_system k t.arena code file
      have phys : (loaded k t.arena code file).system.phys =
          ⟨fill k.mem (virtToPhys code) file.fileSize (fileByte k.fs file.firstCluster), t.arena.pmm⟩ := by rw [system]
      have tasks : (loaded k t.arena code file).system.tasks = k.system.tasks := by rw [system]
      have count : (loaded k t.arena code file).system.numTasks = k.system.numTasks := by rw [system]
      have picture := code_image_size (loaded k t.arena code file).mem code k.fs file.firstCluster small
      refine create_executed (buffer_at some_ buffer) fits picture ?_ phys tasks count (Prod.eta _).symm
      intro i inside
      rw [picture] at inside
      rw [codeImage, KernelState.mem, system]
      dsimp only
      rw [fill_inside (by omega), Nat.add_sub_cancel_left, contents, List.getD_eq_getElem _ _ (by simpa using inside), List.getElem_map,
        List.getElem_range]
  · intro memory
    obtain ⟨blocks, before⟩ := inv.arena
    rw [← same] at before aligned
    obtain ⟨rounds, code, arena, given⟩ :=
      kmalloc_returns before (aligned blocks before.rep) some_ (by omega) memory
    obtain ⟨t, rfl, buffer⟩ := buffered rounds code arena given
    obtain ⟨bs, left⟩ := buffer.inv.arena
    have own : code ∈ t.live := by
      rw [buffer.live]
      exact List.mem_cons_self
    refine ⟨rounds, bs.length + 1, ?_⟩
    rw [sys_exec_eq opened covers small given buffer.nonnull, Option.isSome_map]
    exact kfree_returns left own

/-- A kernel after kmalloc_init and sched_init with a volume. -/
def bootKernel (fs : Fs) : KernelState :=
  ⟨fs, (heapBoot 0x40001000).arena.heap, ⟨⟨fun _ => 0, (heapBoot 0x40001000).arena.pmm⟩, fun _ => idleTask, 1⟩⟩

theorem boot_kmalloc_pmm (rounds : Nat) :
    (kmalloc rounds (heapBoot 0x40001000).arena 4).2.pmm = (heapBoot 0x40001000).arena.pmm := by
  cases rounds with
  | zero => rfl
  | succ rounds =>
    have start : (heapBoot 0x40001000).arena.heap.heapStart ≠ 0 := by decide +kernel
    have fits : (((heapBoot 0x40001000).arena.heap.mem (heapBoot 0x40001000).arena.heap.heapStart).free &&
        decide (align16 4 ≤ ((heapBoot 0x40001000).arena.heap.mem
          (heapBoot 0x40001000).arena.heap.heapStart).size)) = true := by
      decide +kernel
    rw [kmalloc, if_neg (by decide)]
    dsimp only
    rw [findFit, LinkedChain.findAlong, if_neg start, if_pos fits]

theorem boot_pmm_low : usedSet (heapBoot 0x40001000).arena.pmm ⊆ Finset.range 17 := by
  have reserved : reservedCount 0x40001000 = 1 := by decide
  have first : firstRun (pmmInit 0x40001000) 16 = some 1 := by decide +kernel
  have grown : (heapBoot 0x40001000).arena.pmm = withRun (pmmInit 0x40001000) 1 16 := by
    have given : (heapBoot 0x40001000).arena.pmm = (pmmAllocPages (pmmInit 0x40001000) 16).2 := by
      change (heapGrow _ _).pmm = _
      rw [heapGrow]
      split <;> rfl
    rw [given, pmm_alloc_pages_eq, first]
  intro page member
  obtain ⟨inside, used⟩ := mem_used_set.mp member
  rw [grown, withRun, bit_test_set_bits, Bool.or_eq_true, decide_eq_true_eq] at used
  rw [Finset.mem_range]
  rcases used with heap | kernel
  · omega
  · have below := mem_used_set.mpr ⟨inside, kernel⟩
    rw [pmm_init_used (by decide) (by decide), reserved, Finset.mem_range] at below
    omega

theorem shell_is_run : ∃ fs rounds steps l, sysExec rounds steps (bootKernel fs)
      [0x73, 0x68, 0x65, 0x6C, 0x6C, 0x2E, 0x62, 0x69, 0x6E] = some (1, l) ∧
    l.system.numTasks = 2 ∧ HoldsProgram l.system 1 [0x1F, 0x20, 0x03, 0xD5] := by
  obtain ⟨fs, mount⟩ := disk_mounts shellVolume fun _ => 0
  have reads := mounted_reads_disk (fat16_mount_spec mount)
  have here : shellFile ∈ shellVolume.files := List.mem_cons_self
  have opened : fat16Open fs [0x73, 0x68, 0x65, 0x6C, 0x6C, 0x2E, 0x62, 0x69, 0x6E] = some (file (direntOf shellFile)) :=
    open_stored reads here (by rw [SameLetters]; decide)
  obtain ⟨ends, returns⟩ := exec_runs_the_file (heapBoot 0x40001000) (bootKernel fs)
    [0x73, 0x68, 0x65, 0x6C, 0x6C, 0x2E, 0x62, 0x69, 0x6E] (file (direntOf shellFile))
    (Reaches.start (heap_boot_starts _)) rfl opened (stored_file_covered reads here) (by decide) (by decide)
  obtain ⟨rounds, steps, some_⟩ := returns
    (Or.inl ⟨_, _, boot_heap_represented, List.mem_singleton.mpr rfl, rfl, by decide⟩)
  obtain ⟨⟨r, l⟩, result⟩ := Option.isSome_iff_exists.mp some_
  have executed := ends rounds steps r l result
  have total := total_pages_eq
  have pages : imagePages (file (direntOf shellFile)).fileSize = 5 := by decide
  have low : usedSet (kmalloc rounds (bootKernel fs).arena (file (direntOf shellFile)).fileSize).2.pmm ⊆
      Finset.range 17 := by
    have same := boot_kmalloc_pmm rounds
    change usedSet (kmalloc rounds (heapBoot 0x40001000).arena 4).2.pmm ⊆ _
    rw [same]
    exact boot_pmm_low
  have enough := free_count_above low
  have room : RoomFor (bootKernel fs).system
      (kmalloc rounds (bootKernel fs).arena (file (direntOf shellFile)).fileSize).2.pmm
      (file (direntOf shellFile)).fileSize := by
    refine ⟨(by decide : 1 < schedMaxTasks), ?_, ?_⟩
    · rw [pages]
      exact holds_image_above (by decide) low (by omega)
    · rw [pages]
      omega
  obtain ⟨rfl, count, program⟩ := executed.made room
  rw [show contents (bootKernel fs).fs _ = shellFile.data from contents_stored reads here] at program
  exact ⟨fs, rounds, steps, l, result, count, program⟩

end Archarch.Programs
