import Archarch.Foundations.Runs
import Archarch.Tasks.TaskTable

/- Runs of the scheduler from sched_init on: any calls of the current task in any order,
   with timer ticks between them. -/
namespace Archarch.Scheduling
open LabelledRuns

/-- Task 0 is the boot context: it has no page table of its own and the boot tables are
   in use. -/
def SchedStart (s : Sched) : Prop :=
  ∃ before : Sched, (before.tasks 0).ttbr0 = 0 ∧ before.ttbr0 = before.bootL1 ∧ s = schedInit before

/-- The idle loop neither waits nor exits. -/
def callable (s : Sched) : SchedCall → Prop
  | .wait _ | .exit => s.currentTask ≠ 0
  | _ => True

instance (s : Sched) (call : SchedCall) : Decidable (callable s call) := by
  cases call <;> simp only [callable] <;> infer_instance

def SchedRun : Sched → Prop := Reaches SchedStart (Guarded callable (Taken schedStep))

section Calls
variable {s : Sched}

theorem sched_init_state (before : Sched) {i : Nat} (small : i < schedMaxTasks) :
    (schedInit before).state i = if i = 0 then .running else .unused := by
  simp [schedInit, Sched.state, small]

theorem sched_start_running (start : SchedStart s) : Running s ∧ s.resumed = none := by
  obtain ⟨before, zero, boot, rfl⟩ := start
  have state : ∀ i, i < schedMaxTasks → (schedInit before).state i = if i = 0 then .running else .unused :=
    fun i small => sched_init_state before small
  have awake : ∀ i, i < schedMaxTasks → ((schedInit before).tasks i).waitForTid = -1 := by
    intro i small
    simp [schedInit, small]
  have first : (schedInit before).state 0 = .running := by simpa using state 0 (by decide)
  refine ⟨⟨⟨Nat.one_pos, Nat.succ_le_of_lt (by decide), ?_, ?_, first, ?_, ?_, ?_, ?_⟩, first⟩, rfl⟩
  · intro i small other
    have nonzero : i ≠ 0 := other
    rw [state i small, if_neg nonzero]
    simp
  · intro i small
    have num : (schedInit before).numTasks = 1 := rfl
    rw [state i small, num]
    by_cases zero : i = 0
    · simp [zero]
    · simp only [zero, ↓reduceIte, true_iff]
      omega
  · intro i small
    rw [state i small, awake i small]
    split <;> simp
  · intro i small asleep
    rw [state i small] at asleep
    split at asleep <;> cases asleep
  · intro i small other _
    have num : (schedInit before).numTasks = 1 := rfl
    have cur : (schedInit before).currentTask = 0 := rfl
    omega
  · simp [schedInit, zero, boot, show (0 : Nat) < schedMaxTasks by decide]

theorem running_resumed (run : Running s) (r : Option Resume) : Running { s with resumed := r } :=
  ⟨⟨run.table.current, run.table.bound, run.table.others, run.table.unused, run.table.idle,
    run.table.blocked, run.table.waits, run.table.exited, run.table.ttbr0⟩, run.running⟩

theorem running_of_wakes {t : Sched} (wakes : Wakes s t) (running : s.state s.currentTask = .running) :
    t.state t.currentTask = .running := by
  rw [wakes.currentTask]
  rcases (wakes.tasks s.currentTask).2.2 with ⟨same, _⟩ | ⟨asleep, _⟩
  · rw [same]
    exact running
  · rw [running] at asleep
    cases asleep

theorem running_wakes {t : Sched} (run : Running s) (wakes : Wakes s t) : Running t :=
  ⟨table_inv_wakes run.table wakes, running_of_wakes wakes run.running⟩

theorem leave_inv (new : Task) (gone : Option Nat) (run : Running s) (nonzero : s.currentTask ≠ 0)
    (table : new.ttbr0 = (s.tasks s.currentTask).ttbr0)
    (left : new.state = .blocked ∧ gone = none ∧
        (∃ j : Nat, new.waitForTid = j ∧ j < s.numTasks ∧ s.state j ≠ .finished) ∨
      new.state = .finished ∧ gone = some s.currentTask ∧ new.waitForTid = -1) :
    TableInv gone (s.setTask s.currentTask new) := by
  have inv := run.table
  have mine : (s.setTask s.currentTask new).state s.currentTask = new.state := by
    rw [Sched.state, set_task_same]
  have kept : ∀ i, i ≠ s.currentTask → (s.setTask s.currentTask new).state i = s.state i := by
    intro i ne
    rw [Sched.state, set_task_other _ ne, Sched.state]
  refine ⟨inv.current, inv.bound, ?_, ?_, ?_, ?_, ?_, ?_, ?_⟩
  · intro i small other
    rw [kept i other]
    exact inv.others i small other
  · intro i small
    by_cases me : i = s.currentTask
    · have used := (inv.unused i small)
      rw [me, run.running] at used
      have num : (s.setTask s.currentTask new).numTasks = s.numTasks := rfl
      rw [me, mine, num, ← used]
      rcases left with ⟨state, _⟩ | ⟨state, _⟩ <;> simp [state]
    · rw [kept i me]
      exact inv.unused i small
  · rw [kept 0 (Ne.symm nonzero)]
    exact inv.idle
  · intro i small
    by_cases me : i = s.currentTask
    · rw [me, mine, set_task_same]
      rcases left with ⟨state, _, j, wait, _⟩ | ⟨state, _, wait⟩
      · rw [state, wait]
        simp only [true_iff]
        omega
      · simp [state, wait]
    · rw [kept i me, set_task_other _ me]
      exact inv.blocked i small
  · intro i small asleep
    by_cases me : i = s.currentTask
    · rw [me, set_task_same]
      rw [me, mine] at asleep
      rcases left with ⟨_, _, j, wait, inside, alive⟩ | ⟨state, _⟩
      · refine ⟨j, wait, inside, Or.inl ?_⟩
        by_cases self : j = s.currentTask
        · rw [self, mine, asleep]
          simp
        · rwa [kept j self]
      · rw [state] at asleep
        cases asleep
    · rw [kept i me] at asleep
      obtain ⟨j, target, inside, alive⟩ := inv.waits i small asleep
      refine ⟨j, by rw [set_task_other _ me]; exact target, inside, ?_⟩
      rcases alive with alive | clash
      · by_cases self : j = s.currentTask
        · rcases left with ⟨state, _⟩ | ⟨_, gone_, _⟩
          · rw [self, mine, state]
            simp
          · exact Or.inr (by rw [gone_, self])
        · rw [kept j self]
          exact Or.inl alive
      · cases clash
  · intro i inside other out
    have notMe : i ≠ s.currentTask := other
    rw [set_task_other _ notMe] at out
    rw [kept i notMe]
    exact inv.exited i inside other out
  · have here : (s.setTask s.currentTask new).tasks s.currentTask = new := set_task_same new
    have cur : (s.setTask s.currentTask new).currentTask = s.currentTask := rfl
    rw [cur, here, table]
    exact inv.ttbr0

structure CallKeeps (s t : Sched) : Prop where
  running : Running t
  resumed : t.resumed ≠ some .exited
  finished : ∀ i, i < schedMaxTasks → s.state i = .finished → t.state i = .finished

theorem keeps_add_task {new : Task} (run : Running s) (idle : s.resumed = none)
    (room : s.numTasks < schedMaxTasks) (ready : new.state = .ready) (awake : new.waitForTid = -1)
    (fresh : new.ctx ≠ .exited) : CallKeeps s (addTask s new).2 := by
  refine ⟨add_task_running run room ready awake fresh, ?_, ?_⟩
  · have same : (addTask s new).2.resumed = s.resumed := rfl
    rw [same, idle]
    simp
  · intro i small done
    have used : i ≠ s.numTasks := by
      rintro rfl
      have free := (run.table.unused _ small).mpr (Nat.le_refl _)
      rw [done] at free
      cases free
    have kept : (addTask s new).2.tasks i = s.tasks i := set_task_other new used
    rw [Sched.state, kept]
    exact done

theorem keeps_self (run : Running s) (idle : s.resumed = none) : CallKeeps s s :=
  ⟨run, by simp [idle], fun _ _ done => done⟩

theorem tick_wakes (s : Sched) : Wakes s (s.setTask s.currentTask
    { s.tasks s.currentTask with ticks := (s.tasks s.currentTask).ticks + 1 }) := by
  refine ⟨rfl, rfl, rfl, rfl, ?_⟩
  intro i
  by_cases me : i = s.currentTask
  · subst me
    simp [Sched.state]
  · simp [Sched.state, set_task_other _ me]

theorem signal_send_resumed (s : Sched) (tid sig : Int) :
    (signalSend s tid sig).2.resumed = s.resumed := by
  unfold signalSend
  split
  · rfl
  · split
    · rfl
    · simp only
      split <;> rfl

theorem keeps_tick (run : Running s) : CallKeeps s (schedTick s) := by
  have wakes := tick_wakes s
  have counted := running_wakes run wakes
  obtain ⟨after, resumed, kept⟩ := yield_running .ticked counted.table (Or.inl counted.running)
    (by simp)
  exact ⟨after, resumed, fun i _ done => kept i (wakes_finished wakes done)⟩

theorem keeps_wait {tid : Int} (run : Running s) (idle : s.resumed = none)
    (nonzero : s.currentTask ≠ 0) : CallKeeps s (schedWait s tid).2 := by
  unfold schedWait
  split
  · exact keeps_self run idle
  · rename_i inside
    simp only [not_or, Int.not_lt, Int.not_le] at inside
    split
    · exact ⟨running_resumed run _, by simp, fun _ _ done => done⟩
    · rename_i alive
      have target : ((tid.toNat : Nat) : Int) = tid := Int.toNat_of_nonneg inside.1
      have asleep := leave_inv
        { s.tasks s.currentTask with state := .blocked, waitForTid := tid } none run nonzero rfl
        (Or.inl ⟨rfl, rfl, tid.toNat, target.symm, by omega, alive⟩)
      have state : (s.setTask s.currentTask { s.tasks s.currentTask with
          state := .blocked, waitForTid := tid }).state s.currentTask = .blocked := by
        rw [Sched.state, set_task_same]
      obtain ⟨after, resumed, kept⟩ := yield_running (.waiting tid.toNat) asleep
        (Or.inr ⟨nonzero, Or.inl state⟩) (by simp)
      refine ⟨after, resumed, fun i _ done => kept i ?_⟩
      have other : i ≠ s.currentTask := by
        rintro rfl
        rw [run.running] at done
        cases done
      rw [Sched.state, set_task_other _ other]
      exact done

theorem exit_wakes (s : Sched) :
    Wakes (markFinished s) (wakeWaiters (notifyParent (markFinished s)) s.currentTask) :=
  wakes_trans (notify_parent_wakes (markFinished s))
    (wake_waiters_wakes (notifyParent (markFinished s)) s.currentTask)

theorem exit_finished (s : Sched) :
    (wakeWaiters (notifyParent (markFinished s)) s.currentTask).state s.currentTask = .finished := by
  apply wakes_finished (exit_wakes s)
  rw [Sched.state, markFinished, set_task_same]

theorem exit_prepared (run : Running s) (nonzero : s.currentTask ≠ 0) :
    TableInv none (wakeWaiters (notifyParent (markFinished s)) s.currentTask) := by
  have awake : (s.tasks s.currentTask).waitForTid = -1 := by
    by_contra waiting
    have asleep := (run.table.blocked _ (in_table run.table run.table.current)).mpr waiting
    rw [run.running] at asleep
    cases asleep
  have marked : TableInv (some s.currentTask) (markFinished s) :=
    leave_inv _ _ run nonzero rfl (Or.inr ⟨rfl, rfl, awake⟩)
  exact wake_waiters_inv (table_inv_wakes marked (notify_parent_wakes (markFinished s)))

theorem keeps_exit (run : Running s) (nonzero : s.currentTask ≠ 0) : CallKeeps s (schedExit s) := by
  have table := exit_prepared run nonzero
  have wakes := exit_wakes s
  have mine := exit_finished s
  have cur := wakes.currentTask
  have same : (markFinished s).currentTask = s.currentTask := rfl
  rw [same] at cur
  obtain ⟨after, resumed, kept⟩ := yield_running .exited table
    (Or.inr ⟨by rw [cur]; exact nonzero, Or.inr (by rw [cur]; exact mine)⟩)
    (fun _ => by rw [cur]; exact mine)
  refine ⟨after, resumed, fun i _ state => kept i (wakes_finished wakes ?_)⟩
  have other : i ≠ s.currentTask := by
    rintro rfl
    rw [run.running] at state
    cases state
  rw [Sched.state, markFinished, set_task_other _ other]
  exact state

theorem call_keeps (call : SchedCall) (run : Running s) (idle : s.resumed = none)
    (may : callable s call) : CallKeeps s (schedCall s call) := by
  cases call with
  | create =>
    simp only [schedCall, schedCreate]
    split
    · exact keeps_self run idle
    · exact keeps_add_task run idle (by omega) rfl rfl (by simp)
  | createUser pgd =>
    simp only [schedCall, schedCreateUser]
    split
    · exact keeps_self run idle
    · split
      · exact keeps_self run idle
      · exact keeps_add_task run idle (by omega) rfl rfl (by simp)
  | fork pgd =>
    simp only [schedCall, schedFork]
    split
    · exact keeps_self run idle
    · split
      · exact keeps_self run idle
      · split
        · exact keeps_self run idle
        · exact keeps_add_task run idle (by omega) rfl rfl (by simp)
  | yield =>
    obtain ⟨after, resumed, kept⟩ := yield_running .yielded run.table (Or.inl run.running)
      (by simp)
    exact ⟨after, resumed, fun i _ done => kept i done⟩
  | tick => exact keeps_tick run
  | wait tid => exact keeps_wait run idle may
  | exit => exact keeps_exit run may
  | signal tid sig =>
    have wakes := signal_send_wakes s tid sig
    refine ⟨running_wakes run wakes, ?_, fun i _ done => wakes_finished wakes done⟩
    rw [schedCall, signal_send_resumed, idle]
    simp

end Calls

theorem step_keeps {s t : Sched} {call : SchedCall} (run : Running s) (may : callable s call)
    (step : schedStep s call = some t) : CallKeeps s t := by
  cases step
  have keeps := call_keeps call (running_resumed run none) rfl (by cases call <;> exact may)
  exact ⟨keeps.running, keeps.resumed, keeps.finished⟩

theorem sched_run_inv {s : Sched} (run : SchedRun s) : Running s ∧ s.resumed ≠ some .exited := by
  refine reaches_invariant (fun s => Running s ∧ s.resumed ≠ some .exited) ?_ ?_ run
  · intro s start
    obtain ⟨running, idle⟩ := sched_start_running start
    exact ⟨running, by simp [idle]⟩
  · intro s call t inv step
    have keeps := step_keeps inv.1 step.1 step.2
    exact ⟨keeps.running, keeps.resumed⟩

structure SchedulerSound (s : Sched) : Prop where
  current : s.currentTask < s.numTasks ∧ s.numTasks ≤ schedMaxTasks
  running : ∀ i, i < schedMaxTasks → (s.state i = .running ↔ i = s.currentTask)
  ttbr0 : s.ttbr0 = if (s.tasks s.currentTask).ttbr0 = 0 then s.bootL1 else (s.tasks s.currentTask).ttbr0
  idle : s.state 0 = .ready ∨ s.state 0 = .running
  slots : ∀ i, i < schedMaxTasks → (s.state i = .unused ↔ s.numTasks ≤ i)
  blocked : ∀ i, i < schedMaxTasks → (s.state i = .blocked ↔ (s.tasks i).waitForTid ≠ -1)
  waits : ∀ i, i < schedMaxTasks → s.state i = .blocked → ∃ j : Nat, (s.tasks i).waitForTid = j ∧
    j < s.numTasks ∧ s.state j ≠ .finished
  exited : s.resumed ≠ some .exited
  finished : ∀ i t, i < schedMaxTasks → s.state i = .finished →
    Reaches (· = s) (Guarded callable (Taken schedStep)) t →
    t.state i = .finished ∧ t.currentTask ≠ i ∧ t.resumed ≠ some .exited

theorem scheduler_sound (s : Sched) (run : SchedRun s) : SchedulerSound s := by
  obtain ⟨⟨inv, running⟩, exited⟩ := sched_run_inv run
  refine ⟨⟨inv.current, inv.bound⟩, ?_, inv.ttbr0, ?_, inv.unused, inv.blocked, ?_, exited, ?_⟩
  · intro i small
    constructor
    · intro state
      by_contra other
      exact inv.others i small other state
    · rintro rfl
      exact running
  · have idle := inv.idle
    split at idle
    · exact Or.inr idle
    · exact Or.inl idle
  · intro i small asleep
    obtain ⟨j, target, inside, alive⟩ := inv.waits i small asleep
    rcases alive with alive | clash
    · exact ⟨j, target, inside, alive⟩
    · cases clash
  · intro i t small done later
    obtain ⟨after, resumed⟩ := sched_run_inv (reaches_append run later)
    have state : t.state i = .finished := by
      refine reaches_persists Running (fun u => u.state i = .finished) ?_ ?_
        ⟨inv, running⟩ done later
      · intro u call v inv step
        exact (step_keeps inv step.1 step.2).running
      · intro u call v inv done step
        exact (step_keeps inv step.1 step.2).finished i small done
    refine ⟨state, ?_, resumed⟩
    rintro rfl
    rw [after.running] at state
    cases state

/-- The zeroed task table of a kernel that has just started. -/
def schedBoot : Sched :=
  schedInit ⟨fun _ => ⟨.taskWrapper, .unused, 0, false, 0, 0, 0, 0⟩, 0, 0, 0x40100000, 0x40100000, none⟩

theorem sched_boot_starts : SchedStart schedBoot := ⟨_, rfl, rfl, rfl⟩

/-- A parent sleeps until its child has exited. -/
theorem scheduler_sound_after_exit :
    ∃ s, runActions (allowed callable schedStep) schedBoot
        [.createUser 0x40200000, .yield, .fork 0x40300000, .wait 2, .exit, .yield] = some s ∧
      s.state 2 = .finished ∧ s.resumed = some (.waiting 2) ∧ SchedulerSound s := by
  have look : (runActions (allowed callable schedStep) schedBoot
      [.createUser 0x40200000, .yield, .fork 0x40300000, .wait 2, .exit, .yield]).any (fun s =>
        decide (s.state 2 = .finished ∧ s.resumed = some (.waiting 2))) = true := by
    decide +kernel
  obtain ⟨s, run, found⟩ := (Option.any_eq_true _ _).mp look
  obtain ⟨finished, resumed⟩ := of_decide_eq_true found
  exact ⟨s, run, finished, resumed,
    scheduler_sound s (reaches_of_allowed (Reaches.start sched_boot_starts) run)⟩

end Archarch.Scheduling
