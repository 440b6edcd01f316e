import Mathlib.Data.List.TakeWhile
import Archarch.Traps.SignalFrames
import Archarch.Traps.TrapRuns

/- The ways from the kernel back to EL0: the end of syscall_handler, the end of irq_entry, the
   first run of a forked child, and what is behind unhandled_sync_el0. A task can be
   preempted in irq_entry and go on at any later time; other tasks post signals meanwhile.
   signal_deliver stores its frame through the page tables of the task, whatever SP_EL0 is:
   a word that they do not let it store aborts the kernel. -/
namespace Archarch.Traps
open ByteMemory LabelledRuns

def sigsegv : Nat := 11

/-- A signal that signal_deliver takes without doing anything. -/
def ignored (t : Task) (sig : Nat) : Bool :=
  sig ≠ sigkill ∧ (t.handlers sig = sigIgn ∨ t.handlers sig = sigDfl ∧ sig = sigchld)

def deliverable (t : Task) : List Nat := (pendingSignals t.pending).filter fun sig => !ignored t sig

inductive Path where
  | syscall
  | fork
  | interrupt
  | fault
deriving DecidableEq

/-- Where a task is after an exit: at EL0 with these registers and this memory, gone, or in
    the endless loop behind the call of unhandled_sync_el0 or of unhandled_exception. -/
inductive Landing where
  | resumed (regs : Nat → Nat) (memory : Mem)
  | finished
  | stuck

/-- task, regs and writable are the task, its saved frame and the addresses at which its page
    tables let the kernel store, when the exit is decided. -/
structure Exit where
  path : Path
  task : Task
  regs : Nat → Nat
  writable : Nat → Bool
  landing : Landing

/-- The frames of irq_entry have a place of their own on the kernel stack. -/
structure Kernel where
  machine : Machine
  writable : Nat → Nat → Bool
  irqs : Nat → Option (Nat → Nat)
  stuck : Nat → Bool
  exits : List Exit

/-- remap: a task gets other page tables, by sbrk, exec or fork. -/
inductive KernelEvent where
  | work (e : Event)
  | remap (id : Nat) (writable : Nat → Bool)
  | interrupt (id : Nat) (regs : Nat → BitVec 64)
  | leave (id : Nat)
  | fault (id : Nat)

def eventTask : Event → Option Nat
  | .create _ => none
  | .start id => some id
  | .store id _ _ => some id
  | .trap id _ => some id
  | .copyOut id _ _ => some id
  | .serve id _ => some id
  | .deliver id => some id
  | .resume id => some id

def Runnable (k : Kernel) (id : Nat) : Prop := k.irqs id = none ∧ k.stuck id = false

instance (k : Kernel) (id : Nat) : Decidable (Runnable k id) :=
  match irq : k.irqs id with
  | none => if free : k.stuck id = false then isTrue ⟨irq, free⟩ else isFalse fun both => free both.2
  | some _ => isFalse fun both => by rw [Runnable, irq] at both; cases both.1

/-- The state signal_deliver works on when it has cleared the bit of a signal. -/
def cleared (s : Machine) (id sig : Nat) : Machine :=
  setTask s id { s.tasks id with pending := (s.tasks id).pending &&& ~~~(1#32 <<< sig) }

def frameWord (sp j : Nat) : Nat := (signalSp sp + 8 * j) % 2 ^ 64

/-- How many of them signal_deliver stores before one aborts. -/
def storedWords (writable : Nat → Bool) (sp : Nat) : Nat :=
  ((List.range 36).takeWhile fun j => writable (frameWord sp j)).length

/-- signal_deliver enters a handler and cannot store the frame. -/
def DeliveryAborts (k : Kernel) : Event → Prop
  | .deliver id => (k.machine.tasks id).phase = .returning ∧ Catches (k.machine.tasks id) ∧
      storedWords (k.writable id) (reg k.machine id 31) < 36
  | _ => False

instance (k : Kernel) (e : Event) : Decidable (DeliveryAborts k e) :=
  match e with
  | .deliver id => inferInstanceAs (Decidable ((k.machine.tasks id).phase = .returning ∧
      Catches (k.machine.tasks id) ∧ storedWords (k.writable id) (reg k.machine id 31) < 36))
  | .create _ | .start _ | .store _ _ _ | .trap _ _ | .copyOut _ _ _ | .serve _ _ | .resume _ =>
    inferInstanceAs (Decidable False)

/-- Behind the words that were stored the kernel is in unhandled_exception. -/
def abortDelivery (k : Kernel) : Event → Kernel
  | .deliver id =>
    let s := k.machine
    let sig := lowestPending (s.tasks id).pending
    let sp := signalSp (reg s id 31)
    let stored := storedWords (k.writable id) (reg s id 31)
    let pushed := pushFrame (cleared s id sig) id sp 0 (min stored 34)
    { k with
      machine := if stored = 35 then store64 pushed id (frameWord (reg s id 31) 34) sig else pushed
      stuck := Function.update k.stuck id true
      exits := k.exits ++ [⟨.syscall, s.tasks id, reg s id, k.writable id, .stuck⟩] }
  | _ => k

def exitOf (writable : Nat → Nat → Bool) (s t : Machine) : Event → List Exit
  | .deliver id =>
    [⟨.syscall, s.tasks id, reg s id, writable id,
      if (t.tasks id).phase = .finished then .finished else .resumed (reg t id) (t.umem id)⟩]
  | .resume id => [⟨.fork, s.tasks id, reg s id, writable id, .resumed (reg t id) (t.umem id)⟩]
  | _ => []

def takeFault (k : Kernel) (id : Nat) : Kernel :=
  if sigIgn < (k.machine.tasks id).handlers sigsegv then
    let machine := (signalSend k.machine id sigsegv).2
    { k with
      machine := machine
      stuck := Function.update k.stuck id true
      exits := k.exits ++ [⟨.fault, machine.tasks id, reg machine id, k.writable id, .stuck⟩] }
  else
    { k with
      machine := schedExit k.machine id
      exits := k.exits ++ [⟨.fault, k.machine.tasks id, reg k.machine id, k.writable id, .finished⟩] }

def kernelStep (kstacks : KernelStacks) (k : Kernel) : KernelEvent → Option Kernel
  | .work e =>
    if ∀ id, eventTask e = some id → Runnable k id then
      if DeliveryAborts k e then some (abortDelivery k e)
      else
        (machineStep kstacks k.machine e).map fun t =>
          { k with machine := t, exits := k.exits ++ exitOf k.writable k.machine t e }
    else none
  | .remap id writable => some { k with writable := Function.update k.writable id writable }
  | .interrupt id regs =>
    if AtEl0 (k.machine.tasks id) (spsrOf (k.machine.tasks id)) ∧ Runnable k id then
      some { k with irqs := Function.update k.irqs id (some fun i => (regs i).toNat) }
    else none
  | .leave id =>
    (k.irqs id).map fun regs =>
      { k with
        irqs := Function.update k.irqs id none
        exits := k.exits ++
          [⟨.interrupt, k.machine.tasks id, regs, k.writable id, .resumed regs (k.machine.umem id)⟩] }
  | .fault id =>
    if AtEl0 (k.machine.tasks id) (spsrOf (k.machine.tasks id)) ∧ Runnable k id then some (takeFault k id)
    else none

structure KernelBooted (k : Kernel) : Prop where
  machine : Booted k.machine
  free : ∀ id, k.irqs id = none ∧ k.stuck id = false
  exits : k.exits = []

/-- The frame that signal_deliver would push below sp lies in the memory of the task. -/
def Below (sp : Nat) : Prop := sigframeSize ≤ sp ∧ sp ≤ kernVaOffset

instance (sp : Nat) : Decidable (Below sp) := inferInstanceAs (Decidable (_ ∧ _))

def InHandler (task : Task) (regs after : Nat → Nat) (memory : Mem) : Prop :=
  ∃ sig ∈ pendingSignals task.pending, after 0 = sig ∧ after 32 = task.handlers sig ∧
    after 31 = signalSp (regs 31) ∧ after 30 = (signalSp (regs 31) + 280) % 2 ^ 64 ∧
    Below (regs 31) ∧ ∀ j, j < 34 → read64 memory (signalSp (regs 31) + 8 * j) = regs j

/-- A deliverable signal is not passed over. -/
def Honoured (x : Exit) : Prop :=
  deliverable x.task ≠ [] →
    match x.landing with
    | .resumed after memory => InHandler x.task x.regs after memory
    | .finished => True
    | .stuck => False

def StackRoom (writable : Nat → Bool) (sp : Nat) : Prop :=
  Below sp ∧ ∀ j, j < 36 → writable (frameWord sp j) = true

instance (writable : Nat → Bool) (sp : Nat) : Decidable (StackRoom writable sp) :=
  inferInstanceAs (Decidable (_ ∧ _))

/-- Which exits honour the pending signals, by the path and the task before. -/
def Prompt (x : Exit) : Prop :=
  match x.path with
  | .syscall =>
    deliverable x.task = [] ∨
      (deliverable x.task).head? = (pendingSignals x.task.pending).head? ∧
        (Catches x.task → StackRoom x.writable (x.regs 31))
  | .fork => deliverable x.task = []
  | .interrupt => deliverable x.task = []
  | .fault => x.task.handlers sigsegv ≤ sigIgn

instance (x : Exit) : Decidable (Prompt x) := by
  unfold Prompt
  split <;> infer_instance

section Landings
variable {s : Machine} {id sig : Nat} {x : Exit}

theorem signal_sp_ne (sp : Nat) (fits : sp < 2 ^ 64) : sp ≠ signalSp sp := by
  rw [signalSp, sigframeSize]
  omega

theorem honoured_of_same {path : Path} {task : Task} {regs after : Nat → Nat} {writable : Nat → Bool}
    {memory : Mem} (same : after 31 = regs 31) (fits : regs 31 < 2 ^ 64) :
    Honoured ⟨path, task, regs, writable, .resumed after memory⟩ ↔ deliverable task = [] := by
  constructor
  · intro honoured
    by_contra more
    obtain ⟨_, _, _, _, sp, _⟩ := honoured more
    rw [same] at sp
    exact signal_sp_ne _ fits sp
  · intro none more
    exact absurd none more

theorem cleared_reg (s : Machine) (id sig i : Nat) : reg (cleared s id sig) id i = reg s id i := by
  have same : SameKernel s (cleared s id sig) := by
    rw [cleared]
    exact same_kernel_set_task rfl
  exact same_kernel_reg same id i

theorem deliver_step {kstacks : KernelStacks} {t : Machine}
    (step : machineStep kstacks s (.deliver id) = some t) : (s.tasks id).phase = .returning ∧
      ∃ u, signalDeliver s id = u ∧
        t = if (u.tasks id).phase = .finished then u else setPhase u id (.user (reg u id 33)) := by
  by_cases returning : (s.tasks id).phase = .returning
  · simp only [machineStep, if_pos returning, Option.some.injEq] at step
    exact ⟨returning, _, rfl, step.symm⟩
  · rw [machineStep, if_neg returning] at step
    cases step

theorem signal_deliver_cases {rest : List Nat} (s : Machine) (id : Nat)
    (pending : pendingSignals (s.tasks id).pending = sig :: rest) :
    ¬ Catches (s.tasks id) ∧
        (ignored (s.tasks id) sig = true ∧ signalDeliver s id = cleared s id sig ∨
          ignored (s.tasks id) sig = false ∧ signalDeliver s id = schedExit (cleared s id sig) id) ∨
      Catches (s.tasks id) ∧ ignored (s.tasks id) sig = false ∧
        signalDeliver s id = signalHandle (cleared s id sig) id sig ((s.tasks id).handlers sig) := by
  have lowest : lowestPending (s.tasks id).pending = sig := by
    rw [lowest_pending_eq, pending]
    rfl
  have positive := (pending_signals_lt (p := (s.tasks id).pending) (i := sig)
    (by rw [pending]; exact List.mem_cons_self)).1
  rw [signalDeliver, Catches, lowest, if_neg (by omega), ← cleared, ignored]
  by_cases kill : sig = sigkill
  · rw [if_pos kill]
    exact Or.inl ⟨fun catches => catches.2.1 kill, Or.inr ⟨by simp [kill], rfl⟩⟩
  · rw [if_neg kill]
    by_cases ign : (s.tasks id).handlers sig = sigIgn
    · rw [if_pos ign]
      exact Or.inl ⟨fun catches => catches.2.2.1 ign, Or.inl ⟨by simp [kill, ign], rfl⟩⟩
    · rw [if_neg ign]
      by_cases dfl : (s.tasks id).handlers sig = sigDfl
      · rw [if_pos dfl, signalDefaultAction]
        refine Or.inl ⟨fun catches => catches.2.2.2 dfl, ?_⟩
        by_cases chld : sig = sigchld
        · rw [if_pos chld]
          subst chld
          exact Or.inl ⟨by rw [dfl, decide_eq_true_eq]; exact ⟨kill, Or.inr ⟨rfl, rfl⟩⟩, rfl⟩
        · rw [if_neg chld]
          exact Or.inr ⟨by simp [ign, chld], rfl⟩
      · rw [if_neg dfl]
        exact Or.inr ⟨⟨by omega, kill, ign, dfl⟩, by simp [ign, dfl], rfl⟩

theorem handle_in_handler {t : Machine} {handler : Nat} (member : sig ∈ pendingSignals (s.tasks id).pending)
    (handled : signalHandle (cleared s id sig) id sig handler = t)
    (here : (s.tasks id).handlers sig = handler) (fits : handler < 2 ^ 64) (below : Below (reg s id 31)) :
    InHandler (s.tasks id) (reg s id) (reg t id) (t.umem id) := by
  obtain ⟨_, small, _⟩ := pending_signals_lt member
  have spFits : signalSp (reg s id 31) < 2 ^ 64 := by
    rw [signalSp]
    omega
  have regs : ∀ j, reg t id j =
      if j = 0 then sig else if j = 30 then (signalSp (reg s id 31) + 280) % 2 ^ 64
      else if j = 31 then signalSp (reg s id 31) else if j = 32 then handler
      else reg (store64 (store64 (pushFrame (cleared s id sig) id (signalSp (reg s id 31)) 0 34) id
        ((signalSp (reg s id 31) + 272) % 2 ^ 64) sig) id ((signalSp (reg s id 31) + 280) % 2 ^ 64)
        sigreturnTrampoline) id j := by
    intro j
    rw [← handled, signalHandle]
    simp only [cleared_reg, Nat.reduceMul]
    exact set_regs_words (by omega) (by omega) spFits fits j
  have arg := regs 0
  have pc := regs 32
  have sp := regs 31
  have lr := regs 30
  simp only [↓reduceIte, Nat.reduceEqDiff] at arg pc sp lr
  rw [← here] at pc
  refine ⟨sig, member, arg, pc, sp, lr, below, ?_⟩
  intro j inside
  have words := (@signal_handle_spec (cleared s id sig) id sig handler
    (by rw [cleared_reg]; exact below.1) (by rw [cleared_reg]; exact below.2) small fits).words j inside
  rw [handled, cleared_reg, cleared_reg] at words
  exact words

theorem head_deliverable {t : Task} {rest : List Nat} {room : Prop}
    (pending : pendingSignals t.pending = sig :: rest) :
    (deliverable t = [] ∨ (deliverable t).head? = (pendingSignals t.pending).head? ∧ room) ↔
      deliverable t = [] ∨ ignored t sig = false ∧ room := by
  have nodup : (pendingSignals t.pending).Nodup := List.Pairwise.filter _ List.nodup_range'
  rw [pending] at nodup
  rw [deliverable, pending, List.filter_cons]
  cases skip : ignored t sig with
  | false => simp
  | true =>
    simp only [Bool.not_true, Bool.false_eq_true, ↓reduceIte, List.head?_cons, reduceCtorEq, false_and, or_false,
      or_iff_left_iff_imp]
    rintro ⟨first, _⟩
    have member := List.mem_of_mem_head? first
    exact absurd (List.mem_filter.mp member).1 (List.nodup_cons.mp nodup).1

theorem deliver_landing (writable : Nat → Nat → Bool) (s u : Machine) (id : Nat) :
    exitOf writable s (if (u.tasks id).phase = .finished then u else setPhase u id (.user (reg u id 33)))
      (.deliver id) =
    [⟨.syscall, s.tasks id, reg s id, writable id,
      if (u.tasks id).phase = .finished then .finished else .resumed (reg u id) (u.umem id)⟩] := by
  rw [exitOf]
  by_cases ends : (u.tasks id).phase = .finished
  · rw [if_pos ends, if_pos ends]
  · have same : SameKernel u (setPhase u id (.user (reg u id 33))) := same_kernel_set_phase
    rw [if_neg ends, set_phase_phase, if_neg (by simp), if_neg ends, set_phase_umem]
    rw [show reg (setPhase u id (.user (reg u id 33))) id = reg u id from funext (same_kernel_reg same id)]

/-- A frame is stored as a whole exactly when the page tables permit every word of it. -/
theorem stored_words_iff (writable : Nat → Bool) (sp : Nat) :
    ¬ storedWords writable sp < 36 ↔ ∀ j, j < 36 → writable (frameWord sp j) = true := by
  have all : storedWords writable sp ≤ 36 := by
    rw [storedWords]
    exact Nat.le_trans (List.takeWhile_prefix _).length_le (by simp)
  constructor
  · intro whole j inside
    have long : storedWords writable sp = (List.range 36).length := by
      rw [List.length_range]
      omega
    have same := (List.takeWhile_prefix (l := List.range 36) fun j => writable (frameWord sp j)).eq_of_length long
    have member : j ∈ (List.range 36).takeWhile fun j => writable (frameWord sp j) := by
      rw [same]
      exact List.mem_range.mpr inside
    exact List.mem_takeWhile_imp (p := fun j => writable (frameWord sp j)) member
  · intro every less
    have whole : ((List.range 36).takeWhile fun j => writable (frameWord sp j)) = List.range 36 :=
      List.takeWhile_eq_self_iff.mpr fun j member => every j (List.mem_range.mp member)
    rw [storedWords, whole, List.length_range] at less
    exact Nat.lt_irrefl _ less

/-- A return from a system call honours the signals exactly when the lowest one is not
    passed over and its handler, if it has one, gets a frame. -/
theorem deliver_honoured {kstacks : KernelStacks} {t : Machine} {writable : Nat → Nat → Bool}
    (fits : ∀ sig, (s.tasks id).handlers sig < 2 ^ 64)
    (stores : Catches (s.tasks id) → ∀ j, j < 36 → writable id (frameWord (reg s id 31) j) = true)
    (step : machineStep kstacks s (.deliver id) = some t) :
    ∀ x ∈ exitOf writable s t (.deliver id), (Honoured x ↔ Prompt x) := by
  obtain ⟨returning, u, delivered, rfl⟩ := deliver_step step
  intro x member
  rw [deliver_landing] at member
  obtain rfl := List.mem_singleton.mp member
  rw [Prompt]
  dsimp only
  cases pending : pendingSignals (s.tasks id).pending with
  | nil =>
    have none : deliverable (s.tasks id) = [] := by rw [deliverable, pending, List.filter_nil]
    constructor
    · intro _
      exact Or.inl none
    · intro _ more
      exact absurd none more
  | cons sig rest =>
    rw [← pending, head_deliverable pending]
    have member : sig ∈ pendingSignals (s.tasks id).pending := by
      rw [pending]
      exact List.mem_cons_self
    have clearedPhase : ((cleared s id sig).tasks id).phase = .returning := by
      rw [cleared, set_task_self]
      exact returning
    rcases signal_deliver_cases _ _ pending with ⟨catches, ⟨skip, done⟩ | ⟨takes, done⟩⟩ | ⟨catches, takes, done⟩
    · rw [done] at delivered
      subst delivered
      rw [clearedPhase, if_neg (by decide), skip, honoured_of_same (cleared_reg s id sig 31) (reg_lt s id 31)]
      simp
    · have ends : (u.tasks id).phase = .finished := by
        rw [← delivered, done]
        exact (sched_exit_spec _ id).2
      rw [if_pos ends]
      constructor
      · intro _
        exact Or.inr ⟨takes, fun caught => absurd caught catches⟩
      · intro _ _
        trivial
    · rw [done] at delivered
      have alive : (u.tasks id).phase = .returning := by
        rw [← delivered, (same_table_handle _ id sig _).1]
        exact clearedPhase
      have more : deliverable (s.tasks id) ≠ [] :=
        List.ne_nil_of_mem (List.mem_filter.mpr ⟨member, by rw [takes]; rfl⟩)
      rw [alive, if_neg (by decide)]
      constructor
      · intro honoured
        obtain ⟨_, _, _, _, _, _, below, _⟩ := honoured more
        exact Or.inr ⟨takes, fun caught => ⟨below, stores caught⟩⟩
      · rintro prompt _
        rcases prompt with none | ⟨_, room⟩
        · exact absurd none more
        · exact handle_in_handler member delivered rfl (fits sig) (room catches).1

theorem abort_honoured {k : Kernel} (aborts : DeliveryAborts k (.deliver id)) :
    ¬ Honoured ⟨.syscall, k.machine.tasks id, reg k.machine id, k.writable id, .stuck⟩ ∧
    ¬ Prompt ⟨.syscall, k.machine.tasks id, reg k.machine id, k.writable id, .stuck⟩ := by
  obtain ⟨_, catches, short⟩ := aborts
  have more : deliverable (k.machine.tasks id) ≠ [] := by
    cases pending : pendingSignals (k.machine.tasks id).pending with
    | nil =>
      rw [Catches, lowest_pending_eq, pending] at catches
      exact absurd rfl catches.1
    | cons sig rest =>
      have member : sig ∈ pendingSignals (k.machine.tasks id).pending := by
        rw [pending]
        exact List.mem_cons_self
      rcases signal_deliver_cases _ id pending with ⟨other, _⟩ | ⟨_, takes, _⟩
      · exact absurd catches other
      · exact List.ne_nil_of_mem (List.mem_filter.mpr ⟨member, by rw [takes]; rfl⟩)
  constructor
  · intro honoured
    exact honoured more
  · rintro (none | ⟨_, room⟩)
    · exact more none
    · exact (stored_words_iff _ _).mpr (room catches).2 short

end Landings

/- Every handler a task can have fits in a register, and only tasks of the table run. -/

structure TableInv (s : Machine) : Prop where
  bound : ∀ id, (s.tasks id).phase ≠ .idle → id < s.numTasks
  fits : ∀ id sig, (s.tasks id).handlers sig < 2 ^ 64

section Tables
variable {kstacks : KernelStacks} {s t : Machine} {id : Nat}

theorem table_same (inv : TableInv s) (same : SameTable s t) : TableInv t := by
  constructor
  · rw [same.1, same.2]
    exact inv.bound
  · rw [same.1]
    exact inv.fits

theorem table_set_task {task : Task} (inv : TableInv s) (bound : task.phase ≠ .idle → id < s.numTasks)
    (fits : ∀ sig, task.handlers sig < 2 ^ 64) : TableInv (setTask s id task) := by
  constructor
  · intro k live
    by_cases here : k = id
    · subst here
      rw [set_task_self] at live
      exact bound live
    · rw [set_task_other here] at live
      exact inv.bound k live
  · intro k sig
    by_cases here : k = id
    · subst here
      rw [set_task_self]
      exact fits sig
    · rw [set_task_other here]
      exact inv.fits k sig

theorem table_set_phase (inv : TableInv s) (live : (s.tasks id).phase ≠ .idle) (phase : Phase) :
    TableInv (setPhase s id phase) := by
  rw [setPhase]
  exact table_set_task inv (fun _ => inv.bound id live) (inv.fits id)

theorem table_signal_send (inv : TableInv s) (tid sig : Int) : TableInv (signalSend s tid sig).2 := by
  unfold signalSend
  split
  · exact inv
  · split
    · exact inv
    · exact table_set_task inv (inv.bound _) (inv.fits _)

theorem table_exit (inv : TableInv s) (live : (s.tasks id).phase ≠ .idle) : TableInv (schedExit s id) := by
  unfold schedExit
  split
  · exact table_set_phase inv live _
  · exact table_signal_send (table_set_phase inv live _) _ _

theorem table_new {task : Task} (inv : TableInv s) (tasks : t.tasks = Function.update s.tasks s.numTasks task)
    (count : t.numTasks = s.numTasks + 1) (fits : ∀ sig, task.handlers sig < 2 ^ 64) : TableInv t := by
  constructor
  · intro k live
    rw [count]
    by_cases here : k = s.numTasks
    · omega
    · rw [tasks, Function.update_of_ne here] at live
      exact Nat.lt_succ_of_lt (inv.bound k live)
  · intro k sig
    rw [tasks]
    by_cases here : k = s.numTasks
    · rw [here, Function.update_self]
      exact fits sig
    · rw [Function.update_of_ne here]
      exact inv.fits k sig

theorem table_create (inv : TableInv s) (memory : Mem) : TableInv (createTask kstacks s memory) :=
  table_new inv rfl rfl fun _ => by
    dsimp only
    rw [sigDfl]
    omega

theorem table_fork (inv : TableInv s) (id : Nat) (memory : Mem) : TableInv (forkTask kstacks s id memory) :=
  table_new inv rfl rfl (inv.fits id)

theorem table_set_handler (inv : TableInv s) (live : (s.tasks id).phase ≠ .idle) (sig : Int) {handler : Nat}
    (fits : handler < 2 ^ 64) : TableInv (signalSetHandler s id sig handler).2 := by
  unfold signalSetHandler
  split
  · exact inv
  · apply table_set_task inv (fun _ => inv.bound id live)
    intro k
    dsimp only
    by_cases here : k = sig.toNat
    · rw [here, Function.update_self]
      exact fits
    · rw [Function.update_of_ne here]
      exact inv.fits id k

theorem table_serve {outcome : Outcome} (inv : TableInv s) (live : (s.tasks id).phase ≠ .idle) :
    TableInv (serveCall kstacks s id outcome) := by
  have word : ∀ {u : Machine} (v : Nat), TableInv u → TableInv (setReg u id 0 v) :=
    fun v before => table_same before (same_table_set_reg _ id 0 v)
  unfold serveCall
  dsimp only
  split
  · split
    · exact word _ (table_create inv _)
    · exact word _ inv
  · split
    · split
      · exact word _ (table_fork inv id _)
      · exact word _ inv
    · split
      · exact word _ (table_signal_send inv _ _)
      · split
        · exact word _ (table_set_handler inv live _ (reg_lt s id 1))
        · split
          · rw [signalReturn]
            exact table_same inv (same_table_pop s id _ 0 34)
          · exact word _ inv

theorem table_deliver (inv : TableInv s) (live : (s.tasks id).phase ≠ .idle) :
    TableInv (signalDeliver s id) := by
  have taken : ∀ sig, TableInv (cleared s id sig) ∧ ((cleared s id sig).tasks id).phase ≠ .idle := by
    intro sig
    rw [cleared]
    constructor
    · exact table_set_task inv (fun _ => inv.bound id live) (inv.fits id)
    · rw [set_task_self]
      exact live
  rcases pending : pendingSignals (s.tasks id).pending with _ | ⟨sig, rest⟩
  · rw [signalDeliver, lowest_pending_eq, pending]
    exact inv
  · rcases signal_deliver_cases _ _ pending with ⟨_, ⟨_, done⟩ | ⟨_, done⟩⟩ | ⟨_, _, done⟩
    · rw [done]
      exact (taken sig).1
    · rw [done]
      exact table_exit (taken sig).1 (taken sig).2
    · rw [done]
      exact table_same (taken sig).1 (same_table_handle _ id sig _)

theorem deliver_phase (live : (s.tasks id).phase ≠ .idle) :
    ((signalDeliver s id).tasks id).phase ≠ .idle := by
  have same : ∀ sig, ((cleared s id sig).tasks id).phase = (s.tasks id).phase := by
    intro sig
    rw [cleared, set_task_self]
  rcases pending : pendingSignals (s.tasks id).pending with _ | ⟨sig, rest⟩
  · rw [signalDeliver, lowest_pending_eq, pending]
    exact live
  · rcases signal_deliver_cases _ _ pending with ⟨_, ⟨_, done⟩ | ⟨_, done⟩⟩ | ⟨_, _, done⟩
    · rw [done, same]
      exact live
    · rw [done, (sched_exit_spec _ id).2]
      simp
    · rw [done, (same_table_handle _ id sig _).1, same]
      exact live

theorem serve_phase {outcome : Outcome} (inv : TableInv s) (live : (s.tasks id).phase ≠ .idle) :
    ((serveCall kstacks s id outcome).tasks id).phase ≠ .idle := by
  have bound : id ≠ s.numTasks := Nat.ne_of_lt (inv.bound id live)
  have word : ∀ {u : Machine} (v : Nat), (u.tasks id).phase ≠ .idle → ((setReg u id 0 v).tasks id).phase ≠ .idle := by
    intro u v before
    rw [set_reg_tasks]
    exact before
  unfold serveCall
  dsimp only
  split
  · split
    · apply word
      simp only [createTask, Function.update_of_ne bound]
      exact live
    · exact word _ live
  · split
    · split
      · apply word
        simp only [forkTask, Function.update_of_ne bound]
        exact live
      · exact word _ live
    · split
      · apply word
        rw [(signal_send_spec s _ _).2.2]
        exact live
      · split
        · apply word
          rw [(quiet_signal_set_handler s _ _).phase]
          exact live
        · split
          · rw [signalReturn, (same_table_pop s id _ 0 34).1]
            exact live
          · exact word _ live

theorem table_step {event : Event} (inv : TableInv s) (step : machineStep kstacks s event = some t) :
    TableInv t := by
  have live : ∀ {id : Nat} {phase : Phase}, (s.tasks id).phase = phase → phase ≠ .idle →
      (s.tasks id).phase ≠ .idle := fun here other => by rwa [here]
  cases event with
  | create memory =>
    simp only [machineStep] at step
    split at step <;> cases step
    exact table_create inv memory
  | start id =>
    simp only [machineStep] at step
    split at step <;> cases step
    rename_i created
    exact table_set_phase inv (live created (by simp)) _
  | store id a byte =>
    simp only [machineStep] at step
    split at step <;> cases step
    exact table_same inv (same_table_store_byte s id a byte)
  | trap id regs =>
    simp only [machineStep] at step
    split at step <;> cases step
    rename_i may
    obtain ⟨_, tasks, count⟩ := save_frame_rest s id regs 0 34
    have saved := table_same inv ⟨tasks, count⟩
    apply table_set_phase saved
    rw [tasks]
    exact live may.1.1 (by simp)
  | copyOut id a byte =>
    simp only [machineStep] at step
    split at step <;> cases step
    exact table_same inv (same_table_store_byte s id a byte)
  | serve id outcome =>
    simp only [machineStep] at step
    split at step <;> cases step
    rename_i serving
    have alive := live serving (by simp)
    split
    · exact table_exit inv alive
    · exact table_set_phase (table_serve inv alive) (serve_phase inv alive) _
  | deliver id =>
    obtain ⟨returning, u, rfl, rfl⟩ := deliver_step step
    have alive := live returning (by simp)
    have delivered := table_deliver inv alive
    split
    · exact delivered
    · exact table_set_phase delivered (deliver_phase alive) _
  | resume id =>
    simp only [machineStep] at step
    split at step <;> cases step
    rename_i forked
    exact table_set_phase inv (live forked (by simp)) _

end Tables

/- Runs of the kernel. -/

structure KernelInv (k : Kernel) : Prop where
  table : TableInv k.machine
  frames : ∀ id regs, k.irqs id = some regs → ∀ i, regs i < 2 ^ 64
  exits : ∀ x ∈ k.exits, (Honoured x ↔ Prompt x)

section Runs
variable {kstacks : KernelStacks} {k l : Kernel} {id : Nat}

theorem exits_append {old new : List Exit} (before : ∀ x ∈ old, (Honoured x ↔ Prompt x))
    (added : ∀ x ∈ new, (Honoured x ↔ Prompt x)) : ∀ x ∈ old ++ new, (Honoured x ↔ Prompt x) := by
  intro x member
  rcases List.mem_append.mp member with here | here
  · exact before x here
  · exact added x here

theorem exit_of_honoured {t : Machine} {event : Event} (inv : TableInv k.machine)
    (stores : ¬ DeliveryAborts k event) (step : machineStep kstacks k.machine event = some t) :
    ∀ x ∈ exitOf k.writable k.machine t event, (Honoured x ↔ Prompt x) := by
  cases event with
  | deliver id =>
    apply deliver_honoured (inv.fits id) _ step
    intro catches
    apply (stored_words_iff _ _).mp
    intro short
    exact stores ⟨(deliver_step step).1, catches, short⟩
  | resume id =>
    simp only [machineStep] at step
    split at step <;> cases step
    intro x member
    obtain rfl := List.mem_singleton.mp member
    have same : SameKernel k.machine (setPhase k.machine id (.user (reg k.machine id 33))) :=
      same_kernel_set_phase
    exact honoured_of_same (same_kernel_reg same id 31) (reg_lt k.machine id 31)
  | _ =>
    intro x member
    cases member

theorem segv_posted {s : Machine} {n : Nat} (inv : TableInv s) (user : (s.tasks id).phase = .user n) :
    (signalSend s id sigsegv).2.tasks id =
      { s.tasks id with pending := (s.tasks id).pending ||| 1#32 <<< sigsegv } := by
  have bound : id < s.numTasks := inv.bound id (by simp [user])
  have number : ¬ ((sigsegv : Int) < 1 ∨ (nsig : Int) ≤ sigsegv) := by
    rw [sigsegv, nsig]
    omega
  have target : ¬ ((id : Int) < 0 ∨ (s.numTasks : Int) ≤ id ∨ (s.tasks (id : Int).toNat).phase = .finished) := by
    rw [Int.toNat_natCast, user]
    simp
    omega
  rw [signalSend, if_neg number, if_neg target]
  simp only [Int.toNat_natCast]
  exact set_task_self

theorem segv_deliverable {t : Task} (posted : t.pending.getLsbD sigsegv = true)
    (caught : sigIgn < t.handlers sigsegv) : deliverable t ≠ [] := by
  have pending : sigsegv ∈ pendingSignals t.pending :=
    List.mem_filter.mpr ⟨List.mem_range'_1.mpr (by decide), posted⟩
  have taken : ignored t sigsegv = false := by
    rw [ignored, decide_eq_false_iff_not]
    rintro ⟨_, ign | ⟨_, child⟩⟩
    · omega
    · cases child
  apply List.ne_nil_of_mem (a := sigsegv)
  exact List.mem_filter.mpr ⟨pending, by rw [taken]; rfl⟩

theorem frames_update {irqs : Nat → Option (Nat → Nat)} {frame : Option (Nat → Nat)}
    (before : ∀ j regs, irqs j = some regs → ∀ i, regs i < 2 ^ 64)
    (new : ∀ regs, frame = some regs → ∀ i, regs i < 2 ^ 64) (j : Nat) (regs : Nat → Nat)
    (here : Function.update irqs id frame j = some regs) : ∀ i, regs i < 2 ^ 64 := by
  by_cases same : j = id
  · rw [same, Function.update_self] at here
    exact new regs here
  · rw [Function.update_of_ne same] at here
    exact before j regs here

theorem fault_inv {n : Nat} (inv : KernelInv k) (user : (k.machine.tasks id).phase = .user n) :
    KernelInv (takeFault k id) := by
  have live : (k.machine.tasks id).phase ≠ .idle := by simp [user]
  unfold takeFault
  split
  · rename_i caught
    refine ⟨table_signal_send inv.table _ _, inv.frames, exits_append inv.exits ?_⟩
    intro x member
    obtain rfl := List.mem_singleton.mp member
    have posted := segv_posted inv.table user
    generalize taskNow : (signalSend k.machine id sigsegv).2.tasks id = task at posted
    have handler : sigIgn < task.handlers sigsegv := by
      rw [posted]
      exact caught
    have more : deliverable task ≠ [] := by
      apply segv_deliverable _ handler
      rw [posted, BitVec.getLsbD_or]
      simp [sigsegv]
    constructor
    · intro honoured
      exact False.elim (honoured more)
    · intro none
      exact absurd handler (Nat.not_lt_of_le none)
  · rename_i uncaught
    refine ⟨table_exit inv.table live, inv.frames, exits_append inv.exits ?_⟩
    intro x member
    obtain rfl := List.mem_singleton.mp member
    constructor
    · intro _
      exact Nat.le_of_not_lt uncaught
    · intro _ _
      trivial

theorem abort_inv {event : Event} (inv : KernelInv k) (aborts : DeliveryAborts k event) :
    KernelInv (abortDelivery k event) := by
  cases event with
  | deliver id =>
    have live : (k.machine.tasks id).phase ≠ .idle := by simp [aborts.1]
    refine ⟨?_, inv.frames, exits_append inv.exits ?_⟩
    · have taken : TableInv (cleared k.machine id (lowestPending (k.machine.tasks id).pending)) :=
        table_set_task inv.table (fun _ => inv.table.bound id live) (inv.table.fits id)
      have pushed := fun sp n => table_same taken (same_table_push _ id sp 0 n)
      simp only [abortDelivery]
      split
      · exact table_same (pushed _ _) (same_table_store64 _ id _ _)
      · exact pushed _ _
    · intro x member
      obtain rfl := List.mem_singleton.mp member
      obtain ⟨honoured, prompt⟩ := abort_honoured aborts
      exact iff_of_false honoured prompt
  | _ => exact False.elim aborts

theorem kernel_step_inv {event : KernelEvent} (inv : KernelInv k)
    (step : kernelStep kstacks k event = some l) : KernelInv l := by
  cases event with
  | work e =>
    simp only [kernelStep] at step
    split at step
    · split at step
      · rename_i aborts
        cases step
        exact abort_inv inv aborts
      · rename_i stores
        obtain ⟨t, taken, rfl⟩ := Option.map_eq_some_iff.mp step
        exact ⟨table_step inv.table taken, inv.frames,
          exits_append inv.exits (exit_of_honoured inv.table stores taken)⟩
    · cases step
  | remap id writable =>
    cases step
    exact ⟨inv.table, inv.frames, inv.exits⟩
  | interrupt id regs =>
    simp only [kernelStep] at step
    split at step <;> cases step
    refine ⟨inv.table, frames_update inv.frames ?_, inv.exits⟩
    intro frame saved i
    cases saved
    exact (regs i).isLt
  | leave id =>
    obtain ⟨regs, saved, rfl⟩ := Option.map_eq_some_iff.mp step
    refine ⟨inv.table, frames_update inv.frames ?_, exits_append inv.exits ?_⟩
    · intro frame none
      cases none
    · intro x member
      obtain rfl := List.mem_singleton.mp member
      exact honoured_of_same rfl (inv.frames id regs saved 31)
  | fault id =>
    simp only [kernelStep] at step
    split at step <;> cases step
    rename_i may
    exact fault_inv inv may.1.1

theorem kernel_run_inv (run : Reaches KernelBooted (Taken (kernelStep kstacks)) k) : KernelInv k := by
  apply reaches_invariant KernelInv _ _ run
  · intro k booted
    refine ⟨⟨?_, ?_⟩, ?_, ?_⟩
    · intro id live
      rw [booted.machine.tasks] at live
      exact absurd rfl live
    · intro id sig
      rw [booted.machine.tasks]
      exact Nat.two_pow_pos 64
    · intro id regs here
      rw [(booted.free id).1] at here
      cases here
    · intro x member
      rw [booted.exits] at member
      cases member
  · intro k event l inv step
    exact kernel_step_inv inv step

end Runs

/-- The kernel may store at the lower half of every task. -/
def bootKernel : Kernel :=
  ⟨bootMachine, fun _ a => decide (a < kernVaOffset), fun _ => none, fun _ => false, []⟩

theorem boot_kernel_booted : KernelBooted bootKernel :=
  ⟨boot_machine_booted, fun _ => ⟨rfl, rfl⟩, rfl⟩

end Archarch.Traps
