import Mathlib.Data.Finset.Card
import Mathlib.Data.Finset.Range
import Archarch.Foundations.Runs
import Archarch.Tasks.SchedulerRuns
import Archarch.Tasks.Preemption

/- Which tasks can still get out of sched_wait, and when the loop in which the boot task waits for
   all the others can come to its end. -/
namespace Archarch.Scheduling
open LabelledRuns CyclicScan

def TaskState.awake (st : TaskState) : Bool := st = .ready || st = .running

/-- The tasks that exits can wake one after the other. The boot task does not exit, so nobody is
    woken by it. -/
inductive Wakeable (s : Sched) : Nat → Prop where
  | awake {i : Nat} (task : i < s.numTasks) (nonzero : i ≠ 0) (awake : (s.state i).awake = true) : Wakeable s i
  | waits {i j : Nat} (task : i < s.numTasks) (asleep : s.state i = .blocked) (target : (s.tasks i).waitForTid = j)
      (later : Wakeable s j) : Wakeable s i
  | child {i j : Nat} (task : i < s.numTasks) (asleep : s.state i = .blocked) (parent : (s.tasks j).parentTid = i)
      (later : Wakeable s j) : Wakeable s i

/-- Any call but a signal to a task that sleeps. Exits still send their SIGCHLD. -/
def quiet (s : Sched) : SchedCall → Prop
  | .signal tid _ => 0 ≤ tid → s.state tid.toNat ≠ .blocked
  | call => callable s call

def QuietRun (s : Sched) : Sched → Prop := Reaches (· = s) (Guarded quiet (Taken schedStep))

def anyAlive (s : Sched) : Bool :=
  (List.range s.numTasks).any fun i => i ≠ 0 && s.state i ≠ .finished && s.state i ≠ .unused

def bootEnds (s : Sched) : Prop := s.currentTask = 0 ∧ anyAlive s = false

structure Turned (s t : Sched) : Prop where
  numTasks : t.numTasks = s.numTasks
  waitForTid : ∀ i, (t.tasks i).waitForTid = (s.tasks i).waitForTid
  parentTid : ∀ i, (t.tasks i).parentTid = (s.tasks i).parentTid
  state : ∀ i, t.state i = s.state i ∨ (s.state i).awake = true ∧ (t.state i).awake = true

/-- sched_wait in front of its sched_yield. -/
def fallAsleep (s : Sched) (j : Nat) : Sched :=
  s.setTask s.currentTask { s.tasks s.currentTask with state := .blocked, waitForTid := j }

/-- sched_exit in front of its sched_yield. -/
def leaveTable (s : Sched) : Sched := wakeWaiters (notifyParent (markFinished s)) s.currentTask

inductive QuietMove (s t : Sched) : Prop where
  | made (new : Task) (ready : new.state = .ready) (parent : new.parentTid = -1 ∨ new.parentTid = s.currentTask)
      (same : t = (addTask s new).2)
  | turned (turned : Turned s t)
  | slept (j : Nat) (nonzero : s.currentTask ≠ 0) (target : j < s.numTasks) (turned : Turned (fallAsleep s j) t)
  | left (nonzero : s.currentTask ≠ 0) (turned : Turned (leaveTable s) t)

section Moves
variable {s t u : Sched} {i j : Nat}

theorem turned_refl (s : Sched) : Turned s s :=
  ⟨rfl, fun _ => rfl, fun _ => rfl, fun _ => Or.inl rfl⟩

theorem turned_trans (first : Turned s t) (second : Turned t u) : Turned s u := by
  refine ⟨second.numTasks.trans first.numTasks, fun i => (second.waitForTid i).trans (first.waitForTid i),
    fun i => (second.parentTid i).trans (first.parentTid i), ?_⟩
  intro i
  rcases first.state i with same | ⟨before, now⟩
  · rw [← same]
    exact second.state i
  · rcases second.state i with again | ⟨_, after⟩
    · exact Or.inr ⟨before, again ▸ now⟩
    · exact Or.inr ⟨before, after⟩

theorem turned_symm (turned : Turned s t) : Turned t s := by
  refine ⟨turned.numTasks.symm, fun i => (turned.waitForTid i).symm, fun i => (turned.parentTid i).symm, ?_⟩
  intro i
  rcases turned.state i with same | ⟨before, now⟩
  · exact Or.inl same.symm
  · exact Or.inr ⟨now, before⟩

theorem turned_awake (turned : Turned s t) (i : Nat) : (t.state i).awake = (s.state i).awake := by
  rcases turned.state i with same | ⟨before, now⟩
  · rw [same]
  · rw [before, now]

theorem turned_asleep {st : TaskState} (turned : Turned s t) (asleep : st.awake = false) (i : Nat) :
    t.state i = st ↔ s.state i = st := by
  rcases turned.state i with same | ⟨before, now⟩
  · rw [same]
  · constructor
    · rintro rfl
      rw [asleep] at now
      cases now
    · rintro rfl
      rw [asleep] at before
      cases before

theorem switch_turned {next : Nat} (here : Resume) (ready : s.state next = .ready) (ne : next ≠ s.currentTask) :
    Turned s (switchTo s next here) := by
  have tasks := switch_to_tasks here ne
  refine ⟨(switch_to_fields here ne).2.1, ?_, ?_, ?_⟩
  · intro i
    rw [tasks]
    split
    · rfl
    · split <;> rfl
  · intro i
    rw [tasks]
    split
    · rfl
    · split <;> rfl
  · intro i
    rw [Sched.state, tasks]
    split
    · dsimp only
      split
      · rename_i running
        exact Or.inr ⟨by rw [running]; rfl, rfl⟩
      · exact Or.inl rfl
    · split
      · rename_i entered
        rw [entered, ready]
        exact Or.inr ⟨rfl, rfl⟩
      · exact Or.inl rfl

theorem yield_turned (here : Resume) (inv : TableInv none s) (leaves : Leaves s) : Turned s (schedYield s here) := by
  have callers : s.state s.currentTask = .running ∨ s.currentTask ≠ 0 ∧ s.state s.currentTask ≠ .ready := by
    rcases leaves with running | ⟨nonzero, asleep | done⟩
    · exact Or.inl running
    · exact Or.inr ⟨nonzero, by simp [asleep]⟩
    · exact Or.inr ⟨nonzero, by simp [done]⟩
  rw [schedYield]
  rcases pick_next_cases inv.current (task_zero_ready inv) callers with ⟨ne, _, ready⟩ | ⟨same, _⟩
  · exact switch_turned here ready ne
  · rw [switchTo, if_pos same]
    exact ⟨rfl, fun _ => rfl, fun _ => rfl, fun _ => Or.inl rfl⟩

theorem turned_set_task {new : Task} (state : new.state = s.state i)
    (waitForTid : new.waitForTid = (s.tasks i).waitForTid) (parentTid : new.parentTid = (s.tasks i).parentTid) :
    Turned s (s.setTask i new) := by
  refine ⟨rfl, ?_, ?_, ?_⟩
  · intro k
    by_cases here : k = i
    · rw [here, set_task_same]
      exact waitForTid
    · rw [set_task_other _ here]
  · intro k
    by_cases here : k = i
    · rw [here, set_task_same]
      exact parentTid
    · rw [set_task_other _ here]
  · intro k
    left
    by_cases here : k = i
    · rw [here, Sched.state, set_task_same]
      exact state
    · rw [Sched.state, set_task_other _ here]
      rfl

theorem tick_turned (run : Running s) : Turned s (schedTick s) := by
  have counted := running_wakes run (tick_wakes s)
  have ticked : Turned s (s.setTask s.currentTask
      { s.tasks s.currentTask with ticks := (s.tasks s.currentTask).ticks + 1 }) := turned_set_task rfl rfl rfl
  exact turned_trans ticked (yield_turned .ticked counted.table (Or.inl counted.running))

theorem signal_turned {tid sig : Int} (calm : 0 ≤ tid → s.state tid.toNat ≠ .blocked) :
    Turned s (signalSend s tid sig).2 := by
  unfold signalSend
  split
  · exact turned_refl s
  split
  · exact turned_refl s
  rename_i inside
  dsimp only
  split
  · exact turned_refl s
  · have awake : (s.tasks tid.toNat).state ≠ .blocked := calm (by omega)
    rw [if_neg awake]
    exact turned_set_task rfl rfl rfl

theorem wait_moves {tid : Int} (run : Running s) (nonzero : s.currentTask ≠ 0) : QuietMove s (schedWait s tid).2 := by
  unfold schedWait
  split
  · exact .turned (turned_refl s)
  rename_i inside
  split
  · exact .turned ⟨rfl, fun _ => rfl, fun _ => rfl, fun _ => Or.inl rfl⟩
  rename_i alive
  have target : ((tid.toNat : Nat) : Int) = tid := Int.toNat_of_nonneg (by omega)
  have table := leave_inv { s.tasks s.currentTask with state := .blocked, waitForTid := (tid.toNat : Int) } none run
    nonzero rfl (Or.inl ⟨rfl, rfl, tid.toNat, rfl, by omega, alive⟩)
  have asleep : (fallAsleep s tid.toNat).state s.currentTask = .blocked := by
    rw [Sched.state, fallAsleep, set_task_same]
  refine .slept tid.toNat nonzero (by omega) ?_
  have turned := yield_turned (.waiting tid.toNat) table (Or.inr ⟨nonzero, Or.inl asleep⟩)
  rw [fallAsleep]
  rwa [target] at turned ⊢

theorem exit_turned (run : Running s) (nonzero : s.currentTask ≠ 0) : Turned (leaveTable s) (schedExit s) := by
  have table := exit_prepared run nonzero
  have wakes := exit_wakes s
  have mine := exit_finished s
  have current : (leaveTable s).currentTask = s.currentTask := wakes.currentTask
  have finished : (leaveTable s).state (leaveTable s).currentTask = .finished := by
    rw [current]
    exact mine
  exact yield_turned .exited table (Or.inr ⟨current ▸ nonzero, Or.inr finished⟩)

theorem call_moves (call : SchedCall) (run : Running s) (calm : quiet s call) : QuietMove s (schedCall s call) := by
  cases call with
  | create =>
    simp only [schedCall, schedCreate]
    split
    · exact .turned (turned_refl s)
    · exact .made _ rfl (Or.inl rfl) rfl
  | createUser pgd =>
    simp only [schedCall, schedCreateUser]
    split
    · exact .turned (turned_refl s)
    · split
      · exact .turned (turned_refl s)
      · exact .made _ rfl (Or.inl rfl) rfl
  | fork pgd =>
    simp only [schedCall, schedFork]
    split
    · exact .turned (turned_refl s)
    · split
      · exact .turned (turned_refl s)
      · split
        · exact .turned (turned_refl s)
        · exact .made _ rfl (Or.inr rfl) rfl
  | yield => exact .turned (yield_turned .yielded run.table (Or.inl run.running))
  | tick => exact .turned (tick_turned run)
  | wait tid => exact wait_moves run calm
  | exit => exact .left calm (exit_turned run calm)
  | signal tid sig => exact .turned (signal_turned calm)

theorem quiet_callable {call : SchedCall} (calm : quiet s call) : callable s call := by
  cases call with
  | signal tid sig => trivial
  | _ => exact calm

theorem quiet_step_moves {call : SchedCall} (run : Running s) (calm : quiet s call) (step : schedStep s call = some t) :
    Running t ∧ QuietMove { s with resumed := none } t := by
  refine ⟨(step_keeps run (quiet_callable calm) step).running, ?_⟩
  cases step
  exact call_moves call (running_resumed run none) (by cases call <;> exact calm)

def FreedBy (s : Sched) (i : Nat) : Prop :=
  s.state i = .blocked ∧
    ((s.tasks i).waitForTid = s.currentTask ∨ (s.tasks s.currentTask).parentTid = i)

theorem signal_parent_tid (s : Sched) (tid sig : Int) (i : Nat) :
    ((signalSend s tid sig).2.tasks i).parentTid = (s.tasks i).parentTid := by
  unfold signalSend
  split
  · rfl
  split
  · rfl
  dsimp only
  split
  · rfl
  · by_cases here : i = tid.toNat
    · rw [here, set_task_same]
      split <;> rfl
    · rw [set_task_other _ here]

theorem sigchld_reaches (task : i < s.numTasks) (asleep : s.state i = .blocked) :
    (signalSend s i sigchld).2.state i = .ready := by
  have blocked : (s.tasks i).state = .blocked := asleep
  have live : ¬ ((s.tasks i).state = .unused ∨ (s.tasks i).state = .finished) := by
    rw [blocked]
    decide
  rw [signalSend, if_neg (by decide), if_neg (by omega), Int.toNat_natCast]
  dsimp only
  rw [if_neg live, if_pos blocked, Sched.state, set_task_same]

theorem signal_misses {tid : Int} (low : 0 ≤ tid) (ne : tid ≠ i) (sig : Int) :
    (signalSend s tid sig).2.tasks i = s.tasks i := by
  unfold signalSend
  split
  · rfl
  split
  · rfl
  dsimp only
  split
  · rfl
  · exact set_task_other _ (by omega)

theorem mark_finished_other (ne : i ≠ s.currentTask) : (markFinished s).tasks i = s.tasks i := set_task_other _ ne

theorem mark_finished_parent (s : Sched) :
    ((markFinished s).tasks (markFinished s).currentTask).parentTid = (s.tasks s.currentTask).parentTid := by
  change ((markFinished s).tasks s.currentTask).parentTid = _
  rw [markFinished, set_task_same]

theorem notify_parent_reaches (task : i < s.numTasks) (ne : i ≠ s.currentTask) (asleep : s.state i = .blocked)
    (parent : (s.tasks s.currentTask).parentTid = i) : (notifyParent (markFinished s)).state i = .ready := by
  rw [notifyParent, mark_finished_parent, parent, if_pos (Int.natCast_nonneg i)]
  exact sigchld_reaches task ((congrArg Task.state (mark_finished_other ne)).trans asleep)

theorem notify_parent_misses (ne : i ≠ s.currentTask) (other : (s.tasks s.currentTask).parentTid ≠ i) :
    (notifyParent (markFinished s)).tasks i = s.tasks i := by
  rw [notifyParent, mark_finished_parent]
  split
  · rename_i low
    exact (signal_misses low other _).trans (mark_finished_other ne)
  · exact mark_finished_other ne

theorem wake_waiters_parent (s : Sched) (me i : Nat) :
    ((wakeWaiters s me).tasks i).parentTid = (s.tasks i).parentTid := by
  rw [wakeWaiters]
  dsimp only
  split <;> rfl

theorem leave_table_frees (task : i < s.numTasks) (ne : i ≠ s.currentTask) (freed : FreedBy s i) :
    (leaveTable s).state i = .ready := by
  have wakes := wake_waiters_wakes (notifyParent (markFinished s)) s.currentTask
  by_cases parent : (s.tasks s.currentTask).parentTid = i
  · have told := notify_parent_reaches task ne freed.1 parent
    rcases (wakes.tasks i).2.2 with ⟨same, _⟩ | ⟨_, woken, _⟩
    · exact same.trans told
    · exact woken
  · have same := notify_parent_misses ne parent
    have waits := freed.2.resolve_right parent
    have number : (notifyParent (markFinished s)).numTasks = s.numTasks := (notify_parent_wakes _).numTasks
    rw [leaveTable, Sched.state, wakeWaiters]
    dsimp only
    rw [number, same, if_pos ⟨task, freed.1, waits⟩]

theorem leave_table_keeps (ne : i ≠ s.currentTask) (not : ¬ FreedBy s i) :
    (leaveTable s).state i = s.state i ∧ ((leaveTable s).tasks i).waitForTid = (s.tasks i).waitForTid := by
  have told : (notifyParent (markFinished s)).state i = s.state i ∧
      ((notifyParent (markFinished s)).tasks i).waitForTid = (s.tasks i).waitForTid := by
    by_cases parent : (s.tasks s.currentTask).parentTid = i
    · have awake : s.state i ≠ .blocked := fun asleep => not ⟨asleep, Or.inr parent⟩
      have mine := mark_finished_other ne
      rcases ((notify_parent_wakes (markFinished s)).tasks i).2.2 with ⟨state, wait⟩ | ⟨asleep, _⟩
      · exact ⟨state.trans (congrArg Task.state mine), wait.trans (congrArg Task.waitForTid mine)⟩
      · exact absurd ((congrArg Task.state mine).symm.trans asleep) awake
    · have same := notify_parent_misses ne parent
      exact ⟨congrArg Task.state same, congrArg Task.waitForTid same⟩
  have awake : ¬ (i < (notifyParent (markFinished s)).numTasks ∧
      ((notifyParent (markFinished s)).tasks i).state = .blocked ∧
        ((notifyParent (markFinished s)).tasks i).waitForTid = s.currentTask) := by
    rintro ⟨_, asleep, waits⟩
    exact not ⟨told.1.symm.trans asleep, Or.inl (told.2.symm.trans waits)⟩
  rw [leaveTable, Sched.state, wakeWaiters]
  dsimp only
  rw [if_neg awake]
  exact told

theorem leave_table_current (s : Sched) : (leaveTable s).state s.currentTask = .finished := by
  have woken := wake_waiters_wakes (notifyParent (markFinished s)) s.currentTask
  refine wakes_finished (wakes_trans (notify_parent_wakes (markFinished s)) woken) ?_
  rw [Sched.state, markFinished, set_task_same]

theorem leave_table_numTasks (s : Sched) : (leaveTable s).numTasks = s.numTasks :=
  (notify_parent_wakes (markFinished s)).numTasks

end Moves

section Waking
variable {s t : Sched} {i j : Nat}

theorem wakeable_task (wakeable : Wakeable s i) : i < s.numTasks := by
  cases wakeable with
  | awake task => exact task
  | waits task => exact task
  | child task => exact task

theorem turned_wakeable (turned : Turned s t) (wakeable : Wakeable t i) : Wakeable s i := by
  induction wakeable with
  | awake task nonzero awake =>
    rw [turned_awake turned] at awake
    exact .awake (turned.numTasks ▸ task) nonzero awake
  | waits task asleep target _ ih =>
    rw [turned.waitForTid] at target
    exact .waits (turned.numTasks ▸ task) ((turned_asleep turned rfl _).mp asleep) target ih
  | child task asleep parent _ ih =>
    rw [turned.parentTid] at parent
    exact .child (turned.numTasks ▸ task) ((turned_asleep turned rfl _).mp asleep) parent ih

theorem current_wakeable (run : Running s) (nonzero : s.currentTask ≠ 0) : Wakeable s s.currentTask :=
  .awake run.table.current nonzero (by rw [run.running]; rfl)

theorem freed_wakeable (run : Running s) (nonzero : s.currentTask ≠ 0) (task : i < s.numTasks) (freed : FreedBy s i) :
    Wakeable s i := by
  obtain ⟨asleep, waits | child⟩ := freed
  · exact .waits task asleep waits (current_wakeable run nonzero)
  · exact .child task asleep child (current_wakeable run nonzero)

theorem asleep_wakeable {target : Nat} (run : Running s) (nonzero : s.currentTask ≠ 0)
    (wakeable : Wakeable (fallAsleep s target) i) : Wakeable s i := by
  have others : ∀ {k : Nat}, k ≠ s.currentTask → (fallAsleep s target).tasks k = s.tasks k := by
    intro k ne
    exact set_task_other _ ne
  have parents : ∀ k, ((fallAsleep s target).tasks k).parentTid = (s.tasks k).parentTid := by
    intro k
    by_cases here : k = s.currentTask
    · rw [here, fallAsleep, set_task_same]
    · rw [others here]
  induction wakeable with
  | @awake i task nonzero' awake =>
    by_cases here : i = s.currentTask
    · exact here ▸ current_wakeable run nonzero
    · rw [Sched.state, others here] at awake
      exact .awake task nonzero' awake
  | @waits i j task asleep waits _ ih =>
    by_cases here : i = s.currentTask
    · exact here ▸ current_wakeable run nonzero
    · rw [Sched.state, others here] at asleep
      rw [others here] at waits
      exact .waits task asleep waits ih
  | @child i j task asleep parent _ ih =>
    by_cases here : i = s.currentTask
    · exact here ▸ current_wakeable run nonzero
    · rw [Sched.state, others here] at asleep
      rw [parents] at parent
      exact .child task asleep parent ih

theorem leave_table_parents (s : Sched) (i : Nat) : ((leaveTable s).tasks i).parentTid = (s.tasks i).parentTid := by
  rw [leaveTable, wake_waiters_parent, notifyParent]
  have marked : ((markFinished s).tasks i).parentTid = (s.tasks i).parentTid := by
    by_cases here : i = s.currentTask
    · rw [here]
      exact mark_finished_parent s
    · rw [mark_finished_other here]
  split
  · rw [signal_parent_tid, marked]
  · exact marked

theorem left_wakeable (run : Running s) (nonzero : s.currentTask ≠ 0) (wakeable : Wakeable (leaveTable s) i) :
    Wakeable s i := by
  have number := leave_table_numTasks s
  induction wakeable with
  | @awake i task nonzero' awake =>
    rw [number] at task
    by_cases here : i = s.currentTask
    · exact here ▸ current_wakeable run nonzero
    by_cases freed : FreedBy s i
    · exact freed_wakeable run nonzero task freed
    · rw [(leave_table_keeps here freed).1] at awake
      exact .awake task nonzero' awake
  | @waits i j task asleep waits _ ih =>
    rw [number] at task
    by_cases here : i = s.currentTask
    · exact here ▸ current_wakeable run nonzero
    by_cases freed : FreedBy s i
    · exact freed_wakeable run nonzero task freed
    · obtain ⟨state, wait⟩ := leave_table_keeps here freed
      exact .waits task (state ▸ asleep) (wait ▸ waits) ih
  | @child i j task asleep parent _ ih =>
    rw [number] at task
    rw [leave_table_parents] at parent
    by_cases here : i = s.currentTask
    · exact here ▸ current_wakeable run nonzero
    by_cases freed : FreedBy s i
    · exact freed_wakeable run nonzero task freed
    · exact .child task ((leave_table_keeps here freed).1 ▸ asleep) parent ih

theorem made_wakeable {new : Task} (run : Running s)
    (parent : new.parentTid = -1 ∨ new.parentTid = s.currentTask) (wakeable : Wakeable (addTask s new).2 i)
    (task : i < s.numTasks) : Wakeable s i := by
  have older : ∀ {k : Nat}, k < s.numTasks → (addTask s new).2.tasks k = s.tasks k :=
    fun low => set_task_other _ (by omega)
  have state : ∀ {k : Nat}, k < s.numTasks → (addTask s new).2.state k = s.state k :=
    fun low => congrArg Task.state (older low)
  induction wakeable with
  | awake _ nonzero awake =>
    rw [state task] at awake
    exact .awake task nonzero awake
  | @waits i j _ asleep waits _ ih =>
    rw [state task] at asleep
    rw [older task] at waits
    obtain ⟨k, target, low, _⟩ := run.table.waits i (in_table run.table task) asleep
    have same : k = j := Int.natCast_inj.mp (target.symm.trans waits)
    exact .waits task asleep waits (ih (same ▸ low))
  | @child i j _ asleep mother later ih =>
    rw [state task] at asleep
    by_cases low : j < s.numTasks
    · rw [older low] at mother
      exact .child task asleep mother (ih low)
    · have bound : j < s.numTasks + 1 := wakeable_task later
      have last : j = s.numTasks := by omega
      rw [last] at mother
      change ((s.setTask s.numTasks new).tasks s.numTasks).parentTid = i at mother
      rw [set_task_same] at mother
      rcases parent with nobody | current
      · omega
      · have mine : s.currentTask = i := Int.natCast_inj.mp (current.symm.trans mother)
        rw [← mine, run.running] at asleep
        cases asleep

theorem move_wakeable (run : Running s) (move : QuietMove s t) (wakeable : Wakeable t i) (task : i < s.numTasks) :
    Wakeable s i := by
  rcases move with ⟨new, _, parent, rfl⟩ | turned | ⟨j, nonzero, _, turned⟩ | ⟨nonzero, turned⟩
  · exact made_wakeable run parent wakeable task
  · exact turned_wakeable turned wakeable
  · exact asleep_wakeable run nonzero (turned_wakeable turned wakeable)
  · exact left_wakeable run nonzero (turned_wakeable turned wakeable)

theorem move_numTasks (move : QuietMove s t) : s.numTasks ≤ t.numTasks := by
  rcases move with ⟨new, _, _, rfl⟩ | turned | ⟨j, _, _, turned⟩ | ⟨_, turned⟩
  · exact Nat.le_succ _
  · exact Nat.le_of_eq turned.numTasks.symm
  · exact Nat.le_of_eq turned.numTasks.symm
  · exact Nat.le_of_eq (turned.numTasks.trans (leave_table_numTasks s)).symm

theorem move_sleeper (run : Running s) (move : QuietMove s t) (task : i < s.numTasks) (asleep : s.state i = .blocked)
    (lost : ¬ Wakeable s i) : t.state i = .blocked := by
  have other : i ≠ s.currentTask := by
    rintro rfl
    rw [run.running] at asleep
    cases asleep
  rcases move with ⟨new, _, _, rfl⟩ | turned | ⟨j, _, _, turned⟩ | ⟨nonzero, turned⟩
  · exact (congrArg Task.state (set_task_other new (by omega))).trans asleep
  · exact (turned_asleep turned rfl i).mpr asleep
  · exact (turned_asleep turned rfl i).mpr ((congrArg Task.state (set_task_other _ other)).trans asleep)
  · have kept := leave_table_keeps other fun freed => lost (freed_wakeable run nonzero task freed)
    exact (turned_asleep turned rfl i).mpr (kept.1.trans asleep)

structure Lost (s : Sched) (i : Nat) : Prop where
  task : i < s.numTasks
  asleep : s.state i = .blocked
  lost : ¬ Wakeable s i

theorem lost_step {call : SchedCall} (run : Running s) (lost : Lost s i) (calm : quiet s call)
    (step : schedStep s call = some t) : Lost t i := by
  obtain ⟨_, move⟩ := quiet_step_moves run calm step
  have same : Turned s { s with resumed := none } := ⟨rfl, fun _ => rfl, fun _ => rfl, fun _ => Or.inl rfl⟩
  have before := running_resumed run none
  have stuck : ¬ Wakeable { s with resumed := none } i := fun wakeable => lost.lost (turned_wakeable same wakeable)
  have task : i < { s with resumed := none }.numTasks := lost.task
  exact ⟨Nat.lt_of_lt_of_le task (move_numTasks move), move_sleeper before move task lost.asleep stuck,
    fun wakeable => stuck (move_wakeable before move wakeable task)⟩

theorem lost_run (run : Running s) (lost : Lost s i) (later : QuietRun s t) : Running t ∧ Lost t i := by
  refine reaches_invariant (fun t => Running t ∧ Lost t i) ?_ ?_ later
  · rintro _ rfl
    exact ⟨run, lost⟩
  · intro s call t inv step
    exact ⟨(quiet_step_moves inv.1 step.1 step.2).1, lost_step inv.1 inv.2 step.1 step.2⟩

theorem wakeable_left (run : Running s) (wakeable : Wakeable s i) (other : i ≠ s.currentTask) :
    Wakeable (leaveTable s) i := by
  have number := leave_table_numTasks s
  have nonzero : ∀ {k : Nat}, s.state k = .blocked → k ≠ 0 := by
    rintro _ asleep rfl
    have idle := run.table.idle
    rw [asleep] at idle
    split at idle <;> cases idle
  induction wakeable with
  | @awake i task nonzero' awake =>
    have free : ¬ FreedBy s i := by
      rintro ⟨asleep, _⟩
      rw [asleep] at awake
      cases awake
    exact .awake (number ▸ task) nonzero' ((leave_table_keeps other free).1 ▸ awake)
  | @waits i j task asleep waits _ ih =>
    by_cases freed : FreedBy s i
    · exact .awake (number ▸ task) (nonzero asleep) (by rw [leave_table_frees task other freed]; rfl)
    · obtain ⟨state, wait⟩ := leave_table_keeps other freed
      have target : j ≠ s.currentTask := by
        rintro rfl
        exact freed ⟨asleep, Or.inl waits⟩
      exact .waits (number ▸ task) (state.trans asleep) (wait.trans waits) (ih target)
  | @child i j task asleep parent _ ih =>
    by_cases freed : FreedBy s i
    · exact .awake (number ▸ task) (nonzero asleep) (by rw [leave_table_frees task other freed]; rfl)
    · have state := (leave_table_keeps other freed).1
      have mother : j ≠ s.currentTask := by
        rintro rfl
        exact freed ⟨asleep, Or.inr parent⟩
      exact .child (number ▸ task) (state.trans asleep) ((leave_table_parents s j).trans parent) (ih mother)

theorem wakeable_awake (wakeable : Wakeable s i) : ∃ k, k < s.numTasks ∧ k ≠ 0 ∧ (s.state k).awake = true := by
  induction wakeable with
  | @awake i task nonzero awake => exact ⟨i, task, nonzero, awake⟩
  | waits _ _ _ _ ih => exact ih
  | child _ _ _ _ ih => exact ih

def turnsTo (c k n : Nat) : Nat := if c < k then k - c else k + n - c

theorem turns_fewer {c k n next : Nat} (current : c < n) (low : next < n) (ahead : Between c k next) :
    turnsTo next k n < turnsTo c k n := by
  rw [Between] at ahead
  rw [turnsTo, turnsTo]
  split at ahead
  · rename_i above
    rw [if_pos above, if_pos ahead.2]
    omega
  · rename_i below
    rw [if_neg below]
    split <;> omega

theorem quiet_step (call : SchedCall) (calm : quiet s call) :
    QuietRun s (schedCall { s with resumed := none } call) :=
  Reaches.next (a := call) (Reaches.start rfl) ⟨calm, rfl⟩

theorem tick_towards {k : Nat} (run : Running s) (task : k < s.numTasks) (ready : s.state k = .ready) :
    (schedTick s).currentTask = k ∨ Between s.currentTask k (schedTick s).currentTask := by
  have turned : ∀ i, (s.setTask s.currentTask
      { s.tasks s.currentTask with ticks := (s.tasks s.currentTask).ticks + 1 }).state i = s.state i := by
    intro i
    by_cases here : i = s.currentTask
    · rw [here, Sched.state, set_task_same]
      rfl
    · rw [Sched.state, set_task_other _ here]
      rfl
  have towards := picks_towards (s := s.setTask s.currentTask
    { s.tasks s.currentTask with ticks := (s.tasks s.currentTask).ticks + 1 }) run.table.current
    (pick_next_picks _) task ((turned k).trans ready)
  have ne : pickNext (s.setTask s.currentTask
      { s.tasks s.currentTask with ticks := (s.tasks s.currentTask).ticks + 1 }) ≠ s.currentTask := by
    intro same
    rw [same] at towards
    rcases towards with here | there
    · rw [← here, run.running] at ready
      cases ready
    · exact not_between_self there
  have current := (switch_to_fields (s := s.setTask s.currentTask
    { s.tasks s.currentTask with ticks := (s.tasks s.currentTask).ticks + 1 }) .ticked ne).1
  rw [schedTick, current]
  exact towards

/-- Ticks alone give a task that is awake its turn. -/
theorem gets_turn {k : Nat} (run : Running s) (task : k < s.numTasks) (awake : (s.state k).awake = true) :
    ∃ t, QuietRun s t ∧ Running t ∧ Turned s t ∧ t.currentTask = k := by
  induction left : turnsTo s.currentTask k s.numTasks using Nat.strongRecOn generalizing s with
  | ind m ih =>
    by_cases mine : s.currentTask = k
    · exact ⟨s, Reaches.start rfl, run, turned_refl s, mine⟩
    have ready : s.state k = .ready := by
      rw [TaskState.awake, Bool.or_eq_true, decide_eq_true_eq, decide_eq_true_eq] at awake
      exact awake.resolve_right (run.table.others k (in_table run.table task) (Ne.symm mine))
    have before := running_resumed run none
    have first : QuietRun s (schedTick { s with resumed := none }) := quiet_step .tick trivial
    have turned : Turned s (schedTick { s with resumed := none }) := by
      have same : Turned s { s with resumed := none } := ⟨rfl, fun _ => rfl, fun _ => rfl, fun _ => Or.inl rfl⟩
      exact turned_trans same (tick_turned before)
    have running := (keeps_tick before).running
    rcases tick_towards before task ready with now | ahead
    · exact ⟨_, first, running, turned, now⟩
    · have number := turned.numTasks
      have fewer : turnsTo (schedTick { s with resumed := none }).currentTask k
          (schedTick { s with resumed := none }).numTasks < m := by
        rw [← left, number]
        exact turns_fewer run.table.current (Nat.lt_of_lt_of_eq running.table.current number) ahead
      obtain ⟨t, later, after, turns, here⟩ := ih _ fewer running (Nat.lt_of_lt_of_eq task number.symm)
        ((turned_awake turned k).trans awake) rfl
      exact ⟨t, reaches_append first later, after, turned_trans turned turns, here⟩

structure ExitDone (s t : Sched) : Prop where
  run : QuietRun s t
  running : Running t
  numTasks : t.numTasks = s.numTasks
  gone : t.state s.currentTask = .finished
  kept : ∀ i, i < s.numTasks → s.state i = .finished → t.state i = .finished
  others : ∀ i, Wakeable s i → i = s.currentTask ∨ Wakeable t i

theorem exit_done (run : Running s) (nonzero : s.currentTask ≠ 0) :
    ExitDone s (schedExit { s with resumed := none }) := by
  have before := running_resumed run none
  have keeps := keeps_exit before nonzero
  have turned := exit_turned before nonzero
  refine ⟨quiet_step .exit nonzero, keeps.running, turned.numTasks.trans (leave_table_numTasks _), ?_, ?_, ?_⟩
  · exact (turned_asleep turned rfl _).mpr (leave_table_current _)
  · intro i task done
    exact keeps.finished i (in_table run.table task) done
  · intro i wakeable
    by_cases mine : i = s.currentTask
    · exact Or.inl mine
    · have same : Turned { s with resumed := none } s := ⟨rfl, fun _ => rfl, fun _ => rfl, fun _ => Or.inl rfl⟩
      exact Or.inr (turned_wakeable (turned_symm turned)
        (wakeable_left before (turned_wakeable same wakeable) mine))

def unfinished (s : Sched) : Finset Nat := (Finset.range s.numTasks).filter fun i => s.state i ≠ .finished

theorem exit_fewer (run : Running s) (done : ExitDone s t) : (unfinished t).card < (unfinished s).card := by
  refine Finset.card_lt_card (Finset.ssubset_iff_of_subset ?_ |>.mpr ⟨s.currentTask, ?_, ?_⟩)
  · intro i alive
    obtain ⟨task, alive⟩ := Finset.mem_filter.mp alive
    have low : i < s.numTasks := Nat.lt_of_lt_of_eq (Finset.mem_range.mp task) done.numTasks
    exact Finset.mem_filter.mpr ⟨Finset.mem_range.mpr low, fun before => alive (done.kept i low before)⟩
  · refine Finset.mem_filter.mpr ⟨Finset.mem_range.mpr run.table.current, ?_⟩
    rw [run.running]
    decide
  · intro alive
    exact (Finset.mem_filter.mp alive).2 done.gone

/-- Turns and exits end every task that can be woken. -/
theorem wakeable_finish (run : Running s) : ∃ t, QuietRun s t ∧ Running t ∧ t.numTasks = s.numTasks ∧
    (∀ i, i < s.numTasks → s.state i = .finished → t.state i = .finished) ∧
      ∀ i, Wakeable s i → t.state i = .finished := by
  induction left : (unfinished s).card using Nat.strongRecOn generalizing s with
  | ind m ih =>
    by_cases nobody : ∀ i, ¬ Wakeable s i
    · exact ⟨s, Reaches.start rfl, run, rfl, fun _ _ done => done, fun i wakeable => absurd wakeable (nobody i)⟩
    obtain ⟨i, wakeable⟩ := not_forall_not.mp nobody
    obtain ⟨k, task, nonzero, awake⟩ := wakeable_awake wakeable
    obtain ⟨u, toTurn, running, turned, mine⟩ := gets_turn run task awake
    have done := exit_done running (mine ▸ nonzero)
    have same : (unfinished u).card = (unfinished s).card := by
      rw [unfinished, unfinished, turned.numTasks]
      refine congrArg Finset.card (Finset.filter_congr fun j _ => ?_)
      exact not_congr (turned_asleep turned rfl j)
    obtain ⟨t, later, after, number, kept, finish⟩ := ih _ (left ▸ same ▸ exit_fewer running done) done.running rfl
    have total := done.numTasks.trans turned.numTasks
    refine ⟨t, reaches_append toTurn (reaches_append done.run later), after, number.trans total, ?_, ?_⟩
    · intro j low ended
      have middle := (turned_asleep turned rfl j).mpr ended
      exact kept j (Nat.lt_of_lt_of_eq low total.symm)
        (done.kept j (Nat.lt_of_lt_of_eq low turned.numTasks.symm) middle)
    · intro j later
      rcases done.others j (turned_wakeable (turned_symm turned) later) with rfl | again
      · exact kept _ (Nat.lt_of_lt_of_eq running.table.current done.numTasks.symm) done.gone
      · exact finish j again

theorem boot_ends_finished (run : Running s) (ended : bootEnds s) {i : Nat} (task : i < s.numTasks) (nonzero : i ≠ 0) :
    s.state i = .finished := by
  have through := List.any_eq_false.mp ended.2 i (List.mem_range.mpr task)
  have used : s.state i ≠ .unused := fun free =>
    Nat.not_le_of_lt task ((run.table.unused i (in_table run.table task)).mp free)
  by_contra alive
  apply through
  rw [Bool.and_eq_true, Bool.and_eq_true]
  exact ⟨⟨decide_eq_true nonzero, decide_eq_true alive⟩, decide_eq_true used⟩

end Waking

/-- What sched_wait makes of the tasks. -/
structure WaitsSettled (s : Sched) : Prop where
  sleeper : ∀ i, i < s.numTasks → s.state i = .blocked →
    ((∀ t, QuietRun s t → t.state i = .blocked) ↔ ¬ Wakeable s i)
  boot : (∃ t, QuietRun s t ∧ bootEnds t) ↔ ∀ i, i < s.numTasks → i ≠ 0 → s.state i = .finished ∨ Wakeable s i

/-- Without a signal to it a task sleeps for ever exactly if its wait does not lead to a task that is
    awake, and the boot loop can end exactly if no task sleeps for ever. -/
theorem waits_settled (s : Sched) (run : SchedRun s) : WaitsSettled s := by
  have running := (sched_run_inv run).1
  have finish := wakeable_finish running
  constructor
  · intro i task asleep
    constructor
    · intro always wakeable
      obtain ⟨t, later, _, _, _, ends⟩ := finish
      have sleeps := always t later
      rw [ends i wakeable] at sleeps
      cases sleeps
    · intro lost t later
      exact (lost_run running ⟨task, asleep, lost⟩ later).2.asleep
  · constructor
    · rintro ⟨t, later, ended⟩ i task nonzero
      by_contra stays
      obtain ⟨alive, lost⟩ := not_or.mp stays
      have asleep : s.state i = .blocked := by
        have used := (running.table.unused i (in_table running.table task)).not.mpr (Nat.not_le_of_lt task)
        cases state : s.state i with
        | unused => exact absurd state used
        | ready => exact absurd (.awake task nonzero (by rw [state]; rfl)) lost
        | running => exact absurd (.awake task nonzero (by rw [state]; rfl)) lost
        | blocked => rfl
        | finished => exact absurd state alive
      obtain ⟨after, sleeper⟩ := lost_run running ⟨task, asleep, lost⟩ later
      have through := boot_ends_finished after ended sleeper.task nonzero
      rw [sleeper.asleep] at through
      cases through
    · intro all
      obtain ⟨t, later, after, number, kept, ends⟩ := finish
      have through : ∀ i, i < t.numTasks → i ≠ 0 → t.state i = .finished := by
        intro i task nonzero
        rw [number] at task
        rcases all i task nonzero with done | wakeable
        · exact kept i task done
        · exact ends i wakeable
      refine ⟨t, later, ?_, ?_⟩
      · by_contra nonzero
        have done := through _ after.table.current nonzero
        rw [after.running] at done
        cases done
      · refine List.any_eq_false.mpr fun i member => ?_
        rw [Bool.and_eq_true, Bool.and_eq_true]
        rintro ⟨⟨nonzero, alive⟩, _⟩
        exact of_decide_eq_true alive (through i (List.mem_range.mp member) (of_decide_eq_true nonzero))

/-- A task that waits for itself. -/
theorem self_wait_settled : ∃ s, SchedRun s ∧ s.state 1 = .blocked ∧ (s.tasks 1).waitForTid = 1 ∧ WaitsSettled s := by
  have look : (runActions (allowed callable schedStep) schedBoot [.createUser 0x40200000, .yield, .wait 1]).any (fun s =>
      decide (s.state 1 = .blocked ∧ (s.tasks 1).waitForTid = 1)) = true := by
    decide +kernel
  obtain ⟨s, done, found⟩ := (Option.any_eq_true _ _).mp look
  obtain ⟨asleep, target⟩ := of_decide_eq_true found
  have run : SchedRun s := reaches_of_allowed (Reaches.start sched_boot_starts) done
  exact ⟨s, run, asleep, target, waits_settled s run⟩

end Archarch.Scheduling
