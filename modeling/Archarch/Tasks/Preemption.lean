import Archarch.Foundations.CyclicScan
import Archarch.Tasks.SchedulerRuns

/- The scheduler under a timer that interrupts it. Calls of user tasks and sched_tick run
   with interrupts masked and are one step each. The boot thread and the tasks of sched_create
   run with interrupts enabled, so their sched_yield and the slot initialisation of their
   sched_create_user go statement by statement. -/
namespace Archarch.Scheduling
open CyclicScan

/-- A register of struct task_context: zero, the start value of a task, or what the thread
    had in it when it was switched away. -/
inductive Word where
  | zero
  | start (id : Nat)
  | live (thread : Nat)
deriving DecidableEq

structure TaskContext where
  x19 : Word
  x20 : Word
  x21 : Word
  x22 : Word
  x23 : Word
  x24 : Word
  x25 : Word
  x26 : Word
  x27 : Word
  x28 : Word
  x29 : Word
  x30 : Word
  sp : Word
deriving DecidableEq

def sameWords (w : Word) : TaskContext := ⟨w, w, w, w, w, w, w, w, w, w, w, w, w⟩

/-- Behind context_switch with the registers of a thread. -/
def liveContext (thread : Nat) : TaskContext := sameWords (.live thread)

/-- task_wrapper or fork_child_return on the stack of the task. -/
def startContext (id : Nat) : TaskContext :=
  { sameWords .zero with x30 := .start id, sp := .start id }

/-- The thread that goes on when a context is loaded; a jump to address 0 is none. -/
def resumes (context : TaskContext) : Option Nat :=
  match context.sp with
  | .zero => none
  | .start id => if context = startContext id then some id else none
  | .live thread => if context = liveContext thread then some thread else none

structure Slot where
  task : Task
  context : TaskContext

def Slot.set (f : Task → Task) (t : Slot) : Slot := { t with task := f t.task }

def Slot.word (f : TaskContext → TaskContext) (t : Slot) : Slot := { t with context := f t.context }

/-- The slot initialisation of sched_create_user behind id = num_tasks++, in its order. -/
def createUserStores (id pgd : Nat) : List (Slot → Slot) :=
  [Slot.set fun t => { t with state := .ready },
    Slot.set fun t => { t with ticks := 0 },
    Slot.set fun t => { t with isUser := true },
    Slot.set fun t => { t with ttbr0 := pgd },
    Slot.set fun t => { t with waitForTid := -1 },
    Slot.set fun t => { t with parentTid := -1 },
    Slot.set fun t => { t with pending := 0 },
    Slot.word fun c => { c with sp := .start id },
    fun t => ⟨{ t.task with ctx := .taskWrapper }, { t.context with x30 := .start id }⟩,
    Slot.word fun c => { c with x29 := .zero },
    Slot.word fun c => { c with x19 := .zero },
    Slot.word fun c => { c with x20 := .zero },
    Slot.word fun c => { c with x21 := .zero },
    Slot.word fun c => { c with x22 := .zero },
    Slot.word fun c => { c with x23 := .zero },
    Slot.word fun c => { c with x24 := .zero },
    Slot.word fun c => { c with x25 := .zero },
    Slot.word fun c => { c with x26 := .zero },
    Slot.word fun c => { c with x27 := .zero },
    Slot.word fun c => { c with x28 := .zero }]

theorem create_user_stores_all (id pgd : Nat) (t : Slot) :
    (createUserStores id pgd).foldl (fun t store => store t) t =
      ⟨{ ctx := .taskWrapper, state := .ready, ticks := 0, isUser := true, ttbr0 := pgd
         waitForTid := -1, parentTid := -1, pending := 0 }, startContext id⟩ := rfl

/-- Where a thread is. creating: behind so many stores of sched_create_user. The others are
    the places of sched_yield: before iteration i of pick_next, behind the computation of
    idx, behind pick_next, and in switch_to behind prev = current_task, the state of prev, the
    state of next, current_task = next and mmu_switch_ttbr0. -/
inductive Inside where
  | outside
  | creating (id pgd done : Nat)
  | scanning (i : Nat)
  | looking (i idx : Nat)
  | picked (next : Nat)
  | checked (next prev : Nat)
  | left (next prev : Nat)
  | entered (next prev : Nat)
  | moved (next prev : Nat)
  | mapped (next prev : Nat)
deriving DecidableEq

/-- One executed context_switch(&tasks[saved].ctx, &tasks[loaded].ctx). -/
structure Switch where
  thread : Nat
  saved : Nat
  loaded : Nat
  content : TaskContext
deriving DecidableEq

/-- exec is the thread the processor executes and masked its PSTATE.I. -/
structure Core where
  sched : Sched
  contexts : Nat → TaskContext
  exec : Option Nat
  masked : Bool
  inside : Nat → Inside
  switches : List Switch

/-- eret from an interrupt or a system call, task_wrapper and fork_child_return unmask; behind
    a voluntary switch of a kernel thread the mask stays. -/
def unmasks (t : Task) : Bool :=
  match t.ctx with
  | .taskWrapper | .forkChildReturn | .ticked => true
  | _ => t.isUser

/-- context_switch by a thread, at a masking; after is the scheduler behind it. -/
def Core.switch (m : Core) (thread prev next : Nat) (after : Sched) (masked : Bool) : Core :=
  let content := m.contexts next
  { m with
    sched := after
    contexts := Function.update m.contexts prev (liveContext thread)
    exec := resumes content
    masked := if unmasks (m.sched.tasks next) then false else masked
    switches := m.switches ++ [⟨thread, prev, next, content⟩] }

def Core.settle (m : Core) (thread : Nat) (after : Sched) (masked : Bool) : Core :=
  let made := { m with
    contexts := if m.sched.numTasks < after.numTasks then
      Function.update m.contexts m.sched.numTasks (startContext m.sched.numTasks) else m.contexts }
  if after.currentTask = m.sched.currentTask then { made with sched := after }
  else made.switch thread m.sched.currentTask after.currentTask after masked

def Core.setInside (m : Core) (thread : Nat) (place : Inside) : Core :=
  { m with inside := Function.update m.inside thread place }

def Core.setState (m : Core) (i : Nat) (state : TaskState) : Core :=
  { m with sched := m.sched.setTask i { m.sched.tasks i with state := state } }

def Core.storeSlot (m : Core) (id : Nat) (store : Slot → Slot) : Core :=
  let slot := store ⟨m.sched.tasks id, m.contexts id⟩
  { m with
    sched := m.sched.setTask id slot.task
    contexts := Function.update m.contexts id slot.context }

def proceed (m : Core) (thread : Nat) : Inside → Core
  | .outside => m
  | .creating id pgd done =>
    match (createUserStores id pgd)[done]? with
    | some store => (m.storeSlot id store).setInside thread (.creating id pgd (done + 1))
    | none => m.setInside thread .outside
  | .scanning i =>
    if i ≤ m.sched.numTasks then
      m.setInside thread (.looking i ((m.sched.currentTask + i) % m.sched.numTasks))
    else
      m.setInside thread (.picked
        (if m.sched.state m.sched.currentTask = .running then m.sched.currentTask else 0))
  | .looking i idx =>
    m.setInside thread (if m.sched.state idx = .ready then .picked idx else .scanning (i + 1))
  | .picked next =>
    m.setInside thread (if next = m.sched.currentTask then .outside
      else .checked next m.sched.currentTask)
  | .checked next prev =>
    (if m.sched.state prev = .running then m.setState prev .ready else m).setInside thread
      (.left next prev)
  | .left next prev => (m.setState next .running).setInside thread (.entered next prev)
  | .entered next prev =>
    { m.setInside thread (.moved next prev) with sched := { m.sched with currentTask := next } }
  | .moved next prev =>
    { m.setInside thread (.mapped next prev) with
      sched := mmuSwitchTtbr0 m.sched (m.sched.tasks next).ttbr0 }
  | .mapped next prev =>
    (m.setInside thread .outside).switch thread prev next (contextSwitch m.sched prev next .yielded)
      m.masked

inductive CoreEvent where
  | call (c : SchedCall)
  | beginCreate (pgd : Nat)
  | beginYield
  | proceed
  | tick

/-- A thread with a page table of its own calls through svc, which masks interrupts. -/
def coreStep (m : Core) (event : CoreEvent) : Option Core :=
  m.exec.bind fun thread =>
    match event with
    | .call c =>
      if m.inside thread = .outside then
        some (m.settle thread (schedCall m.sched c) (m.masked || (m.sched.tasks thread).isUser))
      else none
    | .beginCreate pgd =>
      if m.inside thread = .outside ∧ (m.sched.tasks thread).isUser = false ∧
          m.sched.numTasks < schedMaxTasks ∧ pgd ≠ 0 then
        some { m.setInside thread (.creating m.sched.numTasks pgd 0) with
          sched := { m.sched with numTasks := m.sched.numTasks + 1 } }
      else none
    | .beginYield =>
      if m.inside thread = .outside ∧ (m.sched.tasks thread).isUser = false then
        some (m.setInside thread (.scanning 1))
      else none
    | .proceed =>
      if m.inside thread = .outside then none else some (proceed m thread (m.inside thread))
    | .tick => if m.masked = false then some (m.settle thread (schedTick m.sched) true) else none

/-- Behind sched_init: the boot thread is task 0, and the slots are as the loader left them. -/
structure CoreStart (m : Core) : Prop where
  init : ∃ before, m.sched = schedInit before
  contexts : ∀ i, m.contexts i = sameWords .zero
  exec : m.exec = some 0
  masked : m.masked = false
  inside : ∀ thread, m.inside thread = .outside
  switches : m.switches = []

section Picks
variable {s u : Sched} {next i k : Nat}

/-- What pick_next looks for: the first ready task behind the current one. -/
def Picks (s : Sched) (next : Nat) : Prop :=
  (∃ d, 1 ≤ d ∧ d ≤ s.numTasks ∧ next = (s.currentTask + d) % s.numTasks ∧ s.state next = .ready ∧
    ∀ e, 1 ≤ e → e < d → s.state ((s.currentTask + e) % s.numTasks) ≠ .ready) ∨
  (∀ e, 1 ≤ e → e ≤ s.numTasks → s.state ((s.currentTask + e) % s.numTasks) ≠ .ready) ∧
    next = if s.state s.currentTask = .running then s.currentTask else 0

theorem pick_next_picks (s : Sched) : Picks s (pickNext s) := by
  unfold pickNext
  dsimp only
  split
  · rename_i i found
    obtain ⟨ready, inside, before⟩ := List.find?_range_eq_some.mp found
    left
    refine ⟨i + 1, by omega, by have := List.mem_range.mp inside; omega, rfl, by simpa using ready, ?_⟩
    intro e low high
    have missed := before (e - 1) (by omega)
    simpa [show e - 1 + 1 = e by omega] using missed
  · rename_i missed
    right
    constructor
    · intro e low high
      have other := List.find?_eq_none.mp missed (e - 1) (List.mem_range.mpr (by omega))
      simpa [show e - 1 + 1 = e by omega] using other
    · rfl

theorem picks_lt (current : s.currentTask < s.numTasks) (picks : Picks s next) : next < s.numTasks := by
  rcases picks with ⟨d, _, _, rfl, _⟩ | ⟨_, rfl⟩
  · exact Nat.mod_lt _ (by omega)
  · split <;> omega

theorem picks_towards (current : s.currentTask < s.numTasks) (picks : Picks s next)
    (task : k < s.numTasks) (ready : s.state k = .ready) :
    next = k ∨ Between s.currentTask k next := by
  rcases picks with ⟨d, low, high, rfl, _, missed⟩ | ⟨missed, _⟩
  · apply scan_towards current task high _ low
    intro e first before hit
    apply missed e first before
    rw [hit]
    exact ready
  · exfalso
    by_cases above : s.currentTask < k
    · apply missed (k - s.currentTask) (by omega) (by omega)
      rw [show s.currentTask + (k - s.currentTask) = k by omega, Nat.mod_eq_of_lt task]
      exact ready
    · apply missed (k + s.numTasks - s.currentTask) (by omega) (by omega)
      rw [show s.currentTask + (k + s.numTasks - s.currentTask) = k + s.numTasks by omega,
        Nat.add_mod_right, Nat.mod_eq_of_lt task]
      exact ready

structure Prepared (s u : Sched) : Prop where
  current : u.currentTask = s.currentTask
  count : u.numTasks = s.numTasks
  state : ∀ i, u.state i = s.state i ∨ s.state i = .blocked ∧ u.state i = .ready ∨
    i = s.currentTask ∧ u.state i ≠ .unused

theorem prepared_of_wakes (wakes : Wakes s u) : Prepared s u := by
  refine ⟨wakes.currentTask, wakes.numTasks, ?_⟩
  intro i
  rcases (wakes.tasks i).2.2 with ⟨same, _⟩ | ⟨asleep, woken, _⟩
  · exact Or.inl same
  · exact Or.inr (Or.inl ⟨asleep, woken⟩)

theorem prepared_trans {t : Sched} (first : Prepared s t) (second : Prepared t u) : Prepared s u := by
  refine ⟨second.current.trans first.current, second.count.trans first.count, ?_⟩
  intro i
  rcases first.state i with same | ⟨asleep, woken⟩ | ⟨here, used⟩
  · rcases second.state i with again | ⟨asleep, woken⟩ | ⟨here, used⟩
    · exact Or.inl (again.trans same)
    · exact Or.inr (Or.inl ⟨same.symm.trans asleep, woken⟩)
    · exact Or.inr (Or.inr ⟨here.trans first.current, used⟩)
  · rcases second.state i with again | ⟨sleeps, _⟩ | ⟨here, used⟩
    · exact Or.inr (Or.inl ⟨asleep, again.trans woken⟩)
    · rw [woken] at sleeps
      cases sleeps
    · exact Or.inr (Or.inr ⟨here.trans first.current, used⟩)
  · rcases second.state i with again | ⟨_, woken⟩ | ⟨_, used⟩
    · exact Or.inr (Or.inr ⟨here, again ▸ used⟩)
    · exact Or.inr (Or.inr ⟨here, by simp [woken]⟩)
    · exact Or.inr (Or.inr ⟨here, used⟩)

theorem prepared_set_current (t : Task) (used : t.state ≠ .unused) :
    Prepared s (s.setTask s.currentTask t) := by
  refine ⟨rfl, rfl, ?_⟩
  intro i
  by_cases here : i = s.currentTask
  · right; right
    refine ⟨here, ?_⟩
    rw [here, Sched.state, set_task_same]
    exact used
  · left
    rw [Sched.state, set_task_other _ here]
    rfl

inductive CallShape (s : Sched) : Sched → Prop where
  | made (new : Task) (room : s.numTasks < schedMaxTasks) : CallShape s (addTask s new).2
  | stayed (u : Sched) (prepared : Prepared s u) : CallShape s u
  | yielded (u : Sched) (here : Resume) (prepared : Prepared s u) : CallShape s (schedYield u here)

theorem prepared_refl (s : Sched) : Prepared s s := prepared_of_wakes (wakes_refl s)

theorem tick_shape (s : Sched) : ∃ u, Prepared s u ∧ schedTick s = schedYield u .ticked :=
  ⟨_, prepared_of_wakes (tick_wakes s), rfl⟩

theorem exit_shape (s : Sched) : ∃ u, Prepared s u ∧ schedExit s = schedYield u .exited := by
  have ended : Prepared s (markFinished s) := prepared_set_current _ (by simp)
  have told := prepared_of_wakes (notify_parent_wakes (markFinished s))
  have woken := prepared_of_wakes (wake_waiters_wakes (notifyParent (markFinished s)) s.currentTask)
  exact ⟨_, prepared_trans (prepared_trans ended told) woken, rfl⟩

theorem call_shape (s : Sched) (call : SchedCall) : CallShape s (schedCall s call) := by
  have same : CallShape s s := .stayed s (prepared_refl s)
  cases call with
  | create =>
    simp only [schedCall, schedCreate]
    split
    · exact same
    · exact .made _ (by omega)
  | createUser pgd =>
    simp only [schedCall, schedCreateUser]
    split
    · exact same
    · split
      · exact same
      · exact .made _ (by omega)
  | fork pgd =>
    simp only [schedCall, schedFork]
    split
    · exact same
    · split
      · exact same
      · split
        · exact same
        · exact .made _ (by omega)
  | yield => exact .yielded s _ (prepared_refl s)
  | tick =>
    obtain ⟨u, prepared, done⟩ := tick_shape s
    rw [schedCall, done]
    exact .yielded u _ prepared
  | wait tid =>
    simp only [schedCall, schedWait]
    split
    · exact same
    · split
      · exact .stayed _ ⟨rfl, rfl, fun i => Or.inl rfl⟩
      · exact .yielded _ _ (prepared_set_current _ (by simp))
  | exit =>
    obtain ⟨u, prepared, done⟩ := exit_shape s
    rw [schedCall, done]
    exact .yielded u _ prepared
  | signal tid sig => exact .stayed _ (prepared_of_wakes (signal_send_wakes s tid sig))

theorem yield_outcome (u : Sched) (here : Resume) :
    (schedYield u here).numTasks = u.numTasks ∧
    ((schedYield u here).currentTask = u.currentTask ∧
        (∀ i, (schedYield u here).state i = u.state i) ∨
      pickNext u ≠ u.currentTask ∧ (schedYield u here).currentTask = pickNext u ∧
        ∀ i, (schedYield u here).state i = if i = u.currentTask then
            if u.state i = .running then .ready else u.state i
          else if i = pickNext u then .running else u.state i) := by
  rw [schedYield]
  by_cases same : pickNext u = u.currentTask
  · rw [switchTo, if_pos same]
    exact ⟨rfl, Or.inl ⟨rfl, fun _ => rfl⟩⟩
  · obtain ⟨current, count, _⟩ := switch_to_fields here same
    refine ⟨count, Or.inr ⟨same, current, ?_⟩⟩
    intro i
    rw [Sched.state, switch_to_tasks here same]
    split
    · rfl
    · split <;> rfl

end Picks

end Archarch.Scheduling
