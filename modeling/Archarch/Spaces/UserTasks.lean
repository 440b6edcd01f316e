import Archarch.Foundations.Runs
import Archarch.Spaces.PageTables

/- User tasks and their memory: sched_create_user, sched_fork and sched_exit of sched.c and
   SYS_SBRK of syscall.c. Which task runs is up to the scheduler, so a call names the task
   that makes it. -/
namespace Archarch.AddressSpaces
open ByteMemory TranslationTables PageFrames LabelledRuns

def schedMaxTasks : Nat := 8

structure UserTask where
  finished : Bool
  isUser : Bool
  ttbr0 : Nat
  codePa : Nat
  codePages : Nat
  stackPa : Nat
  heapBreak : Nat

structure System where
  phys : Phys
  tasks : Nat → UserTask
  numTasks : Nat

/-- The code that is loaded. Its size is an int that fat16_read_file returned, and not
   negative, or the length of a program in the kernel image. -/
structure Image where
  bytes : Nat → BitVec 8
  size : Nat
  small : size < 2 ^ 31

def imagePages (size : Nat) : Nat :=
  let codePages := (size + pageSize - 1) % 2 ^ 32 / pageSize
  (if codePages = 0 then 1 else codePages) + 4

/-- The two loops that copy the code and clear the rest of its pages. -/
def loadImage (m : Mem) (base pages : Nat) (image : Image) : Mem :=
  fill (fill m base image.size image.bytes) (base + image.size)
    (pages * pageSize % 2 ^ 32 - image.size) fun _ => 0

/-- for (i = 0; i < n; i++) dst[i] = src[i], for ranges that do not overlap. -/
def copyBytes (m : Mem) (dst src n : Nat) : Mem := fill m dst n fun i => m (src + i)

def addTask (s : System) (phys : Phys) (task : UserTask) : Int × System :=
  (s.numTasks, ⟨phys, Function.update s.tasks s.numTasks task, s.numTasks + 1⟩)

def schedCreateUser (s : System) (image : Image) : Int × System :=
  if schedMaxTasks ≤ s.numTasks then (-1, s)
  else
    let failed : Phys → Int × System := fun phys => (-1, ⟨phys, s.tasks, s.numTasks⟩)
    let codePages := imagePages image.size
    ifPage (pmmAllocPages s.phys.pmm codePages) (fun pmm => failed ⟨s.phys.mem, pmm⟩)
      fun codeBase pmm =>
    let mem := loadImage s.phys.mem codeBase codePages image
    ifPage (pmmAllocPages pmm (userStackPages + 1))
      (fun pmm => failed ⟨mem, pmmFreePages pmm codeBase codePages⟩) fun ustackAlloc pmm =>
    let ustackBase := ustackAlloc + pageSize
    ifPage (mmuCreateUserPgd ⟨mem, pmm⟩ codeBase codePages ustackBase userStackPages)
      (fun phys => failed ⟨phys.mem, pmmFreePages (pmmFreePages phys.pmm codeBase codePages)
        ustackAlloc (userStackPages + 1)⟩) fun pgd phys =>
    addTask s phys
      { finished := false
        isUser := true
        ttbr0 := pgd
        codePa := codeBase
        codePages := codePages
        stackPa := ustackBase
        heapBreak := userVaCode + codePages * pageSize }

def schedFork (s : System) (current : Nat) : Int × System :=
  let parent := s.tasks current
  if !parent.isUser then (-1, s)
  else if schedMaxTasks ≤ s.numTasks then (-1, s)
  else
    let failed : Phys → Int × System := fun phys => (-1, ⟨phys, s.tasks, s.numTasks⟩)
    let cpages := parent.codePages
    ifPage (pmmAllocPages s.phys.pmm cpages) (fun pmm => failed ⟨s.phys.mem, pmm⟩)
      fun childCode pmm =>
    let mem := copyBytes s.phys.mem childCode parent.codePa (cpages * pageSize % 2 ^ 32)
    ifPage (pmmAllocPages pmm (userStackPages + 1))
      (fun pmm => failed ⟨mem, pmmFreePages pmm childCode cpages⟩) fun childSalloc pmm =>
    let childStack := childSalloc + pageSize
    let mem := copyBytes mem childStack parent.stackPa (userStackPages * pageSize)
    ifPage (mmuCreateUserPgd ⟨mem, pmm⟩ childCode cpages childStack userStackPages)
      (fun phys => failed ⟨phys.mem, pmmFreePages (pmmFreePages phys.pmm childCode cpages)
        childSalloc (userStackPages + 1)⟩) fun pgd phys =>
    addTask s phys
      { finished := false
        isUser := true
        ttbr0 := pgd
        codePa := childCode
        codePages := cpages
        stackPa := childStack
        heapBreak := parent.heapBreak }

/-- for (; n > 0; va += PAGE_SIZE, n--), with the flag failed. -/
def sbrkPages (s : Phys) (pgd va : Nat) : Nat → Bool × Phys
  | 0 => (false, s)
  | n + 1 =>
    ifPage (pmmAllocPage s.pmm) (fun pmm => (true, ⟨s.mem, pmm⟩)) fun pa pmm =>
    let mapped := mmuMapUserPageInPgd ⟨zeroPage s.mem pa, pmm⟩ pgd va pa
    if mapped.1 < 0 then (true, ⟨mapped.2.mem, pmmFreePage mapped.2.pmm pa⟩)
    else sbrkPages mapped.2 pgd (va + pageSize) n

/-- The value of regs[0] and the system after SYS_SBRK. -/
def sysSbrk (s : System) (current : Nat) (increment : BitVec 64) : BitVec 64 × System :=
  let t := s.tasks current
  if !t.isUser then (-1#64, s)
  else if increment = 0 then (BitVec.ofNat 64 t.heapBreak, s)
  else
    let oldBreak := t.heapBreak
    let newBreak := (oldBreak + increment.toNat) % 2 ^ 64
    if userVaGuard ≤ newBreak then (-1#64, s)
    else
      let pageEnd := pageAlignUp newBreak
      let mapFrom := pageAlignUp oldBreak
      let grown := sbrkPages s.phys t.ttbr0 mapFrom ((pageEnd - mapFrom) / pageSize)
      if grown.1 then (-1#64, ⟨grown.2, s.tasks, s.numTasks⟩)
      else
        (BitVec.ofNat 64 oldBreak,
          ⟨grown.2, Function.update s.tasks current { t with heapBreak := newBreak }, s.numTasks⟩)

def schedExit (s : System) (current : Nat) : System :=
  { s with tasks := Function.update s.tasks current { s.tasks current with finished := true } }

/-- The tables of TTBR0 translate 39 bits. -/
def vaLimit : Nat := 2 ^ 39

def leafPath (va : Nat) : List Nat := [va / 2 ^ 30 % 512, va / 2 ^ 21 % 512, va / 2 ^ 12 % 512]

def roots (s : System) (n : Nat) : Option Nat :=
  if n < s.numTasks ∧ (s.tasks n).isUser then some (s.tasks n).ttbr0 else none

/-- The physical page that a task reaches at a virtual address. -/
def pageAt (s : System) (n va : Nat) : Option Nat :=
  if va < vaLimit then (roots s n).bind fun root => walk s.phys.mem root (leafPath va) else none

inductive Action where
  | createUser (image : Image)
  | fork (current : Nat)
  | sbrk (current : Nat) (increment : BitVec 64)
  | exit (current : Nat)
  | store (current va : Nat) (byte : BitVec 8)

def Alive (s : System) (n : Nat) : Prop := n < s.numTasks ∧ (s.tasks n).finished = false

instance (s : System) (n : Nat) : Decidable (Alive s n) := inferInstanceAs (Decidable (_ ∧ _))

/-- A store of a program goes through its own table. -/
def userStore (s : System) (n va : Nat) (byte : BitVec 8) : Option System :=
  (pageAt s n va).map fun page =>
    { s with phys := { s.phys with mem := Function.update s.phys.mem (page + va % 4096) byte } }

def systemStep (s : System) : Action → Option System
  | .createUser image => some (schedCreateUser s image).2
  | .fork current => if Alive s current then some (schedFork s current).2 else none
  | .sbrk current increment => if Alive s current then some (sysSbrk s current increment).2 else none
  | .exit current => if Alive s current then some (schedExit s current) else none
  | .store current va byte => if Alive s current then userStore s current va byte else none

def idleTask : UserTask := ⟨false, false, 0, 0, 0, 0, 0⟩

/-- After sched_init. Other parts of the kernel may hold pages besides the reserved ones. -/
structure Booted (kernelEnd : Nat) (s : System) : Prop where
  idle : s.tasks 0 = idleTask
  alone : s.numTasks = 1
  reserved : Finset.range (reservedCount kernelEnd) ⊆ usedSet s.phys.pmm

def Ran (kernelEnd : Nat) : System → Prop := Reaches (Booted kernelEnd) (Taken systemStep)

end Archarch.AddressSpaces
