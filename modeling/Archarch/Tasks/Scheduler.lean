import Mathlib.Data.List.Basic
import Mathlib.Logic.Function.Basic

/- The task table of sched.c with the signals that change it. A saved context is the
   place in the kernel where its task goes on. -/
namespace Archarch.Scheduling

def schedMaxTasks : Nat := 8
def nsig : Int := 32
def sigchld : Int := 17

inductive TaskState where
  | unused | ready | running | blocked | finished
  deriving DecidableEq, Repr

/-- task_wrapper, fork_child_return, or behind the context switch of a call. -/
inductive Resume where
  | taskWrapper
  | forkChildReturn
  | yielded
  | ticked
  | waiting (tid : Nat)
  | exited
  deriving DecidableEq, Repr

structure Task where
  ctx : Resume
  state : TaskState
  ticks : Nat
  isUser : Bool
  ttbr0 : Nat
  waitForTid : Int
  parentTid : Int
  pending : BitVec 32

/-- resumed records where the last step let a task go on behind a context switch or
   return from sched_wait with 0. -/
structure Sched where
  tasks : Nat → Task
  currentTask : Nat
  numTasks : Nat
  ttbr0 : Nat
  bootL1 : Nat
  resumed : Option Resume

def Sched.state (s : Sched) (i : Nat) : TaskState := (s.tasks i).state

def Sched.setTask (s : Sched) (i : Nat) (t : Task) : Sched :=
  { s with tasks := Function.update s.tasks i t }

def mmuSwitchTtbr0 (s : Sched) (pgd : Nat) : Sched :=
  { s with ttbr0 := if pgd = 0 then s.bootL1 else pgd }

def schedInit (s : Sched) : Sched :=
  let reset (i : Nat) : Task :=
    { s.tasks i with state := if i = 0 then .running else .unused, ticks := 0, waitForTid := -1 }
  { s with
    tasks := fun i => if i < schedMaxTasks then reset i else s.tasks i
    currentTask := 0
    numTasks := 1
    resumed := none }

/-- What sched_create, sched_create_user and sched_fork put into the next slot. -/
def addTask (s : Sched) (t : Task) : Int × Sched :=
  (s.numTasks, { s.setTask s.numTasks t with numTasks := s.numTasks + 1 })

def schedCreate (s : Sched) : Int × Sched :=
  if schedMaxTasks ≤ s.numTasks then (-1, s)
  else
    addTask s
      { s.tasks s.numTasks with
        ctx := .taskWrapper, state := .ready, ticks := 0, isUser := false, ttbr0 := 0
        waitForTid := -1, parentTid := -1 }

/-- pgd is the page table built for the new task, 0 if memory ran out before. -/
def schedCreateUser (s : Sched) (pgd : Nat) : Int × Sched :=
  if schedMaxTasks ≤ s.numTasks then (-1, s)
  else if pgd = 0 then (-1, s)
  else
    addTask s
      { ctx := .taskWrapper, state := .ready, ticks := 0, isUser := true, ttbr0 := pgd
        waitForTid := -1, parentTid := -1, pending := 0 }

def schedFork (s : Sched) (pgd : Nat) : Int × Sched :=
  if (s.tasks s.currentTask).isUser = false then (-1, s)
  else if schedMaxTasks ≤ s.numTasks then (-1, s)
  else if pgd = 0 then (-1, s)
  else
    addTask s
      { ctx := .forkChildReturn, state := .ready, ticks := 0, isUser := true, ttbr0 := pgd
        waitForTid := -1, parentTid := s.currentTask, pending := 0 }

def pickNext (s : Sched) : Nat :=
  let idx (i : Nat) : Nat := (s.currentTask + (i + 1)) % s.numTasks
  match (List.range s.numTasks).find? fun i => s.state (idx i) = .ready with
  | some i => idx i
  | none => if s.state s.currentTask = .running then s.currentTask else 0

def contextSwitch (s : Sched) (prev next : Nat) (here : Resume) : Sched :=
  { s.setTask prev { s.tasks prev with ctx := here } with resumed := some (s.tasks next).ctx }

/-- switch_to, called at a place of the kernel. Without a switch the caller goes on
   there at once. -/
def switchTo (s : Sched) (next : Nat) (here : Resume) : Sched :=
  if next = s.currentTask then { s with resumed := some here }
  else
    let prev := s.currentTask
    let left := if s.state prev = .running then s.setTask prev { s.tasks prev with state := .ready } else s
    let entered := left.setTask next { left.tasks next with state := .running }
    let current := { entered with currentTask := next }
    contextSwitch (mmuSwitchTtbr0 current (current.tasks next).ttbr0) prev next here

def schedYield (s : Sched) (here : Resume) : Sched := switchTo s (pickNext s) here

def schedTick (s : Sched) : Sched :=
  let t := s.tasks s.currentTask
  let s := s.setTask s.currentTask { t with ticks := t.ticks + 1 }
  switchTo s (pickNext s) .ticked

def signalSend (s : Sched) (tid sig : Int) : Int × Sched :=
  if sig < 1 ∨ nsig ≤ sig then (-1, s)
  else if tid < 0 ∨ (s.numTasks : Int) ≤ tid then (-1, s)
  else
    let t := s.tasks tid.toNat
    if t.state = .unused ∨ t.state = .finished then (-1, s)
    else
      let t := { t with pending := t.pending ||| (1#32 <<< sig.toNat) }
      let t := if t.state = .blocked then { t with state := .ready, waitForTid := -1 } else t
      (0, s.setTask tid.toNat t)

/-- for (i = 0; i < num_tasks; i++): wake whoever waits for me. -/
def wakeWaiters (s : Sched) (me : Nat) : Sched :=
  { s with
    tasks := fun i =>
      let t := s.tasks i
      if i < s.numTasks ∧ t.state = .blocked ∧ t.waitForTid = me then
        { t with state := .ready, waitForTid := -1 }
      else t }

def markFinished (s : Sched) : Sched :=
  s.setTask s.currentTask { s.tasks s.currentTask with state := .finished }

def notifyParent (s : Sched) : Sched :=
  let parent := (s.tasks s.currentTask).parentTid
  if 0 ≤ parent then (signalSend s parent sigchld).2 else s

def schedExit (s : Sched) : Sched :=
  schedYield (wakeWaiters (notifyParent (markFinished s)) s.currentTask) .exited

/-- A result none is a call that has given up the processor; it returns 0 when its
   task goes on. -/
def schedWait (s : Sched) (tid : Int) : Option Int × Sched :=
  if tid < 0 ∨ (s.numTasks : Int) ≤ tid then (some (-1), s)
  else if s.state tid.toNat = .finished then (some 0, { s with resumed := some (.waiting tid.toNat) })
  else
    let t := s.tasks s.currentTask
    let asleep := s.setTask s.currentTask { t with state := .blocked, waitForTid := tid }
    (none, schedYield asleep (.waiting tid.toNat))

inductive SchedCall where
  | create
  | createUser (pgd : Nat)
  | fork (pgd : Nat)
  | yield
  | tick
  | wait (tid : Int)
  | exit
  | signal (tid sig : Int)

/-- One call of the current task or one timer tick, up to its context switch. -/
def schedCall (s : Sched) : SchedCall → Sched
  | .create => (schedCreate s).2
  | .createUser pgd => (schedCreateUser s pgd).2
  | .fork pgd => (schedFork s pgd).2
  | .yield => schedYield s .yielded
  | .tick => schedTick s
  | .wait tid => (schedWait s tid).2
  | .exit => schedExit s
  | .signal tid sig => (signalSend s tid sig).2

def schedStep (s : Sched) (call : SchedCall) : Option Sched :=
  some (schedCall { s with resumed := none } call)

end Archarch.Scheduling
