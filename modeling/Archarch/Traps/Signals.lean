import Archarch.Foundations.ByteMemory
import Archarch.Foundations.Runs

/- System calls and signals as they move a saved register frame: sync_el0_entry of
   el0_entry.S, syscall_handler of syscall.c, signal.c and the frames that sched.c builds.
   A frame is 34 words on the kernel stack of its task: x0 to x30, SP_EL0, ELR, SPSR. -/
namespace Archarch.Traps
open ByteMemory LabelledRuns

def kernVaOffset : Nat := 0xFFFFFF8000000000
def schedMaxTasks : Nat := 8
def schedStackSize : Nat := 8192
def frameSize : Nat := 272
def nsig : Nat := 32
def sigkill : Nat := 9
def sigchld : Nat := 17
def sigDfl : Nat := 0
def sigIgn : Nat := 1
def sigframeSize : Nat := 288

def sysRead : Nat := 0
def sysExit : Nat := 5
def sysExec : Nat := 7
def sysListdir : Nat := 10
def sysFork : Nat := 11
def sysPipe : Nat := 12
def sysKill : Nat := 14
def sysSignal : Nat := 15
def sysSigret : Nat := 16

/-- Where the linker put task_stacks, and what task_wrapper keeps on a stack when it drops
   to EL0. -/
structure KernelStacks where
  taskStacks : Nat
  wrapperDepth : Nat
  kernel : kernVaOffset ≤ taskStacks
  fits : taskStacks + schedMaxTasks * schedStackSize ≤ 2 ^ 64
  room : wrapperDepth + frameSize ≤ schedStackSize

def stackBase (kstacks : KernelStacks) (id : Nat) : Nat := kstacks.taskStacks + id * schedStackSize

def kstackTop (kstacks : KernelStacks) (id : Nat) : Nat := stackBase kstacks (id + 1)

/-- user p: at EL0 since an eret with SPSR p. serving: in the switch of syscall_handler, which
   a task can leave and come back to. returning: behind the switch. forked: a child that has
   not run. A task that is not a user task is idle. -/
inductive Phase where
  | idle
  | created
  | user (spsr : Nat)
  | serving
  | returning
  | forked
  | finished
deriving DecidableEq

/-- sp is the kernel stack pointer while the task is at EL0. -/
structure Task where
  phase : Phase
  sp : Nat
  handlers : Nat → Nat
  pending : BitVec 32
  parent : Option Nat

/-- Every task has its own memory below kernVaOffset; above it all tasks see the kernel's. -/
structure Machine where
  kmem : Mem
  umem : Nat → Mem
  tasks : Nat → Task
  numTasks : Nat

def setTask (s : Machine) (id : Nat) (t : Task) : Machine :=
  { s with tasks := Function.update s.tasks id t }

theorem set_task_self {s : Machine} {id : Nat} {t : Task} : (setTask s id t).tasks id = t :=
  Function.update_self _ _ _

theorem set_task_other {s : Machine} {id k : Nat} {t : Task} (other : k ≠ id) :
    (setTask s id t).tasks k = s.tasks k := Function.update_of_ne other _ _

def setPhase (s : Machine) (id : Nat) (phase : Phase) : Machine :=
  setTask s id { s.tasks id with phase := phase }

/-- A store that the page tables of the task permit. -/
def storeByte (s : Machine) (id a : Nat) (byte : BitVec 8) : Machine :=
  if a < kernVaOffset then
    { s with umem := Function.update s.umem id (Function.update (s.umem id) a byte) }
  else { s with kmem := Function.update s.kmem a byte }

/-- As storeByte, for a word; KernelExits says what becomes of a signal frame that meets a
   page which is not writable. -/
def store64 (s : Machine) (id a v : Nat) : Machine :=
  if a < kernVaOffset then { s with umem := Function.update s.umem id (write64 (s.umem id) a v) }
  else { s with kmem := write64 s.kmem a v }

def load64 (s : Machine) (id a : Nat) : Nat :=
  if a < kernVaOffset then read64 (s.umem id) a else read64 s.kmem a

/-- regs[i] of the frame of a task. -/
def frame (s : Machine) (id : Nat) : Nat := (s.tasks id).sp - frameSize

def reg (s : Machine) (id i : Nat) : Nat := read64 s.kmem (frame s id + 8 * i)

def setReg (s : Machine) (id i v : Nat) : Machine :=
  { s with kmem := write64 s.kmem (frame s id + 8 * i) v }

/-- A cast of a register to int, and of an int to a register. -/
def toInt (v : Nat) : Int := (BitVec.ofNat 32 v).toInt

def ofInt (r : Int) : Nat := (BitVec.ofInt 64 r).toNat

def signalSend (s : Machine) (tid sig : Int) : Int × Machine :=
  if sig < 1 ∨ nsig ≤ sig then (-1, s)
  else if tid < 0 ∨ s.numTasks ≤ tid ∨ (s.tasks tid.toNat).phase = .finished then (-1, s)
  else
    let t := s.tasks tid.toNat
    (0, setTask s tid.toNat { t with pending := t.pending ||| 1#32 <<< sig.toNat })

def schedExit (s : Machine) (id : Nat) : Machine :=
  match (s.tasks id).parent with
  | none => setPhase s id .finished
  | some parent => (signalSend (setPhase s id .finished) parent sigchld).2

def signalDefaultAction (s : Machine) (id sig : Nat) : Machine :=
  if sig = sigchld then s else schedExit s id

/-- for (i = 1; i < NSIG; i++) if (pending & (1U << i)) { sig = i; break; } -/
def lowestPending (pending : BitVec 32) : Nat :=
  ((List.range' 1 31).find? fun i => pending &&& 1#32 <<< i ≠ 0).getD 0

/-- for (; n > 0; i++, n--) frame[i] = regs[i], and the other way round. -/
def pushFrame (s : Machine) (id sp i : Nat) : Nat → Machine
  | 0 => s
  | n + 1 => pushFrame (store64 s id ((sp + 8 * i) % 2 ^ 64) (reg s id i)) id sp (i + 1) n

def popFrame (s : Machine) (id sp i : Nat) : Nat → Machine
  | 0 => s
  | n + 1 => popFrame (setReg s id i (load64 s id ((sp + 8 * i) % 2 ^ 64))) id sp (i + 1) n

def signalSp (userSp : Nat) : Nat := (userSp + 2 ^ 64 - sigframeSize) % 2 ^ 64 / 16 * 16

/-- The two instructions as one little-endian word. -/
def sigreturnTrampoline : Nat := 0xd2800208 + 2 ^ 32 * 0xd4000001

def signalHandle (s : Machine) (id sig handler : Nat) : Machine :=
  let userSp := signalSp (reg s id 31)
  let s := pushFrame s id userSp 0 34
  let s := store64 s id ((userSp + 8 * 34) % 2 ^ 64) sig
  let s := store64 s id ((userSp + 8 * 35) % 2 ^ 64) sigreturnTrampoline
  let s := setReg s id 0 sig
  let s := setReg s id 30 ((userSp + 35 * 8) % 2 ^ 64)
  let s := setReg s id 31 userSp
  setReg s id 32 handler

def signalDeliver (s : Machine) (id : Nat) : Machine :=
  let t := s.tasks id
  let sig := lowestPending t.pending
  if sig = 0 then s
  else
    let s := setTask s id { t with pending := t.pending &&& ~~~(1#32 <<< sig) }
    if sig = sigkill then schedExit s id
    else if t.handlers sig = sigIgn then s
    else if t.handlers sig = sigDfl then signalDefaultAction s id sig
    else signalHandle s id sig (t.handlers sig)

def signalReturn (s : Machine) (id : Nat) : Machine := popFrame s id (reg s id 31) 0 34

def signalSetHandler (s : Machine) (id : Nat) (sig : Int) (handler : Nat) : Nat × Machine :=
  if sig < 1 ∨ nsig ≤ sig ∨ sig = sigkill then (ofInt (-1), s)
  else
    let t := s.tasks id
    (t.handlers sig.toNat,
      setTask s id { t with handlers := Function.update t.handlers sig.toNat handler })

/-- The new slot of sched_create_user, with signal_init. -/
def createTask (kstacks : KernelStacks) (s : Machine) (memory : Mem) : Machine :=
  { s with
    umem := Function.update s.umem s.numTasks memory
    tasks := Function.update s.tasks s.numTasks
      { phase := .created
        sp := kstackTop kstacks s.numTasks - kstacks.wrapperDepth
        handlers := fun _ => sigDfl
        pending := 0
        parent := none }
    numTasks := s.numTasks + 1 }

/-- for (i = 0; i < 34; i++) child_frame[i] = parent_regs[i] -/
def copyFrame (m : Mem) (dst src i : Nat) : Nat → Mem
  | 0 => m
  | n + 1 => copyFrame (write64 m (dst + 8 * i) (read64 m (src + 8 * i))) dst src (i + 1) n

def forkTask (kstacks : KernelStacks) (s : Machine) (id : Nat) (memory : Mem) : Machine :=
  let childFrame := kstackTop kstacks s.numTasks - frameSize
  { kmem := write64 (copyFrame s.kmem childFrame (frame s id) 0 34) childFrame 0
    umem := Function.update s.umem s.numTasks memory
    tasks := Function.update s.tasks s.numTasks
      { phase := .forked
        sp := kstackTop kstacks s.numTasks
        handlers := (s.tasks id).handlers
        pending := 0
        parent := some id }
    numTasks := s.numTasks + 1 }

/-- What a call gets from the rest of the kernel: the value of a call whose work is not
   modelled here, whether memory for a new task was found, and the bytes of that memory. -/
structure Outcome where
  result : BitVec 64
  made : Bool
  memory : Mem

/-- The switch of syscall_handler. -/
def serveCall (kstacks : KernelStacks) (s : Machine) (id : Nat) (outcome : Outcome) : Machine :=
  let num := reg s id 8
  let arg0 := reg s id 0
  let arg1 := reg s id 1
  if num = sysExec then
    if outcome.made ∧ s.numTasks < schedMaxTasks then
      setReg (createTask kstacks s outcome.memory) id 0 s.numTasks
    else setReg s id 0 (ofInt (-1))
  else if num = sysFork then
    if outcome.made ∧ s.numTasks < schedMaxTasks then
      setReg (forkTask kstacks s id outcome.memory) id 0 s.numTasks
    else setReg s id 0 (ofInt (-1))
  else if num = sysKill then
    let sent := signalSend s (toInt arg0) (toInt arg1)
    setReg sent.2 id 0 (ofInt sent.1)
  else if num = sysSignal then
    let set := signalSetHandler s id (toInt arg0) arg1
    setReg set.2 id 0 set.1
  else if num = sysSigret then signalReturn s id
  else setReg s id 0 (if num < sysSigret then outcome.result.toNat else ofInt (-1))

/-- The words that sync_el0_entry saves. -/
def saveFrame (s : Machine) (id : Nat) (regs : Nat → BitVec 64) (i : Nat) : Nat → Machine
  | 0 => s
  | n + 1 => saveFrame (setReg s id i (regs i).toNat) id regs (i + 1) n

/-- M[4:0] = 0 and the masks D, A, I, F clear. -/
def El0t (spsr : Nat) : Prop := spsr % 32 = 0 ∧ spsr / 64 % 16 = 0

instance (spsr : Nat) : Decidable (El0t spsr) := inferInstanceAs (Decidable (_ ∧ _))

inductive Event where
  | create (memory : Mem)
  | start (id : Nat)
  | store (id a : Nat) (byte : BitVec 8)
  | trap (id : Nat) (regs : Nat → BitVec 64)
  | copyOut (id a : Nat) (byte : BitVec 8)
  | serve (id : Nat) (outcome : Outcome)
  | deliver (id : Nat)
  | resume (id : Nat)

def AtEl0 (t : Task) (spsr : Nat) : Prop := t.phase = .user spsr ∧ spsr % 32 = 0

instance (t : Task) (spsr : Nat) : Decidable (AtEl0 t spsr) := inferInstanceAs (Decidable (_ ∧ _))

def spsrOf (t : Task) : Nat :=
  match t.phase with
  | .user spsr => spsr
  | _ => 0

/-- A program at EL0 can change its flags but not its masks, so the status word of a trap
   has the masks of the eret before. copyOut is a byte that SYS_READ, SYS_LISTDIR or
   SYS_PIPE stores through the pointer of its caller. -/
def machineStep (kstacks : KernelStacks) (s : Machine) : Event → Option Machine
  | .create memory => if s.numTasks < schedMaxTasks then some (createTask kstacks s memory) else none
  | .start id => if (s.tasks id).phase = .created then some (setPhase s id (.user 0)) else none
  | .store id a byte =>
    if AtEl0 (s.tasks id) (spsrOf (s.tasks id)) ∧ a < kernVaOffset then some (storeByte s id a byte)
    else none
  | .trap id regs =>
    if AtEl0 (s.tasks id) (spsrOf (s.tasks id)) ∧ (regs 33).toNat % 32 = 0 ∧
        (regs 33).toNat / 64 % 16 = spsrOf (s.tasks id) / 64 % 16 then
      some (setPhase (saveFrame s id regs 0 34) id .serving)
    else none
  | .copyOut id a byte =>
    if (s.tasks id).phase = .serving ∧
        (reg s id 8 = sysRead ∨ reg s id 8 = sysListdir ∨ reg s id 8 = sysPipe) then
      some (storeByte s id a byte)
    else none
  | .serve id outcome =>
    if (s.tasks id).phase = .serving then
      some (if reg s id 8 = sysExit then schedExit s id
        else setPhase (serveCall kstacks s id outcome) id .returning)
    else none
  | .deliver id =>
    if (s.tasks id).phase = .returning then
      let t := signalDeliver s id
      some (if (t.tasks id).phase = .finished then t else setPhase t id (.user (reg t id 33)))
    else none
  | .resume id =>
    if (s.tasks id).phase = .forked then some (setPhase s id (.user (reg s id 33))) else none

def noTask : Task := ⟨.idle, 0, fun _ => sigDfl, 0, none⟩

/-- Task 0 is the kernel's own. -/
structure Booted (s : Machine) : Prop where
  tasks : ∀ id, s.tasks id = noTask
  count : s.numTasks = 1

end Archarch.Traps
