import Archarch.Tasks.Scheduler

/- What the scheduler keeps true of its task table. The current task is looked at by
   itself: in the middle of a call it may be asleep or finished already. -/
namespace Archarch.Scheduling

/-- gone is a task that has finished while tasks may still wait for it. -/
structure TableInv (gone : Option Nat) (s : Sched) : Prop where
  current : s.currentTask < s.numTasks
  bound : s.numTasks ≤ schedMaxTasks
  others : ∀ i, i < schedMaxTasks → i ≠ s.currentTask → s.state i ≠ .running
  unused : ∀ i, i < schedMaxTasks → (s.state i = .unused ↔ s.numTasks ≤ i)
  idle : s.state 0 = if s.currentTask = 0 then .running else .ready
  blocked : ∀ i, i < schedMaxTasks → (s.state i = .blocked ↔ (s.tasks i).waitForTid ≠ -1)
  waits : ∀ i, i < schedMaxTasks → s.state i = .blocked → ∃ j : Nat, (s.tasks i).waitForTid = j ∧
    j < s.numTasks ∧ (s.state j ≠ .finished ∨ gone = some j)
  exited : ∀ i, i < s.numTasks → i ≠ s.currentTask → (s.tasks i).ctx = .exited → s.state i = .finished
  ttbr0 : s.ttbr0 = if (s.tasks s.currentTask).ttbr0 = 0 then s.bootL1 else (s.tasks s.currentTask).ttbr0

section Table
variable {gone : Option Nat} {s t : Sched} {i j : Nat}

@[simp] theorem set_task_same (t : Task) : (s.setTask i t).tasks i = t := Function.update_self ..

theorem set_task_other (t : Task) (ne : j ≠ i) : (s.setTask i t).tasks j = s.tasks j :=
  Function.update_of_ne ne _ _

theorem in_table (inv : TableInv gone s) (here : i < s.numTasks) : i < schedMaxTasks :=
  Nat.lt_of_lt_of_le here inv.bound

structure Wakes (s t : Sched) : Prop where
  currentTask : t.currentTask = s.currentTask
  numTasks : t.numTasks = s.numTasks
  ttbr0 : t.ttbr0 = s.ttbr0
  bootL1 : t.bootL1 = s.bootL1
  tasks : ∀ i, (t.tasks i).ctx = (s.tasks i).ctx ∧ (t.tasks i).ttbr0 = (s.tasks i).ttbr0 ∧
    ((t.state i = s.state i ∧ (t.tasks i).waitForTid = (s.tasks i).waitForTid) ∨
      (s.state i = .blocked ∧ t.state i = .ready ∧ (t.tasks i).waitForTid = -1))

theorem table_inv_wakes (inv : TableInv gone s) (wakes : Wakes s t) : TableInv gone t := by
  obtain ⟨cur, num, reg, boot, tasks⟩ := wakes
  have state : ∀ i, t.state i = s.state i ∨ s.state i = .blocked ∧ t.state i = .ready := by
    intro i
    rcases (tasks i).2.2 with same | woken
    · exact Or.inl same.1
    · exact Or.inr ⟨woken.1, woken.2.1⟩
  refine ⟨?_, ?_, ?_, ?_, ?_, ?_, ?_, ?_, ?_⟩
  · rw [cur, num]
    exact inv.current
  · rw [num]
    exact inv.bound
  · intro i low ne
    rw [cur] at ne
    have before := inv.others i low ne
    rcases state i with same | ⟨_, now⟩
    · rwa [same]
    · simp [now]
  · intro i low
    have before := inv.unused i low
    rw [num, ← before]
    rcases state i with same | ⟨old, now⟩
    · rw [same]
    · simp [old, now]
  · rw [cur, ← inv.idle]
    rcases state 0 with same | ⟨old, now⟩
    · exact same
    · have before := inv.idle
      rw [old] at before
      split at before <;> cases before
  · intro i low
    have before := inv.blocked i low
    rcases (tasks i).2.2 with ⟨same, wait⟩ | ⟨_, now, wait⟩
    · rw [same, wait]
      exact before
    · simp [now, wait]
  · intro i low asleep
    rcases (tasks i).2.2 with ⟨same, wait⟩ | ⟨_, now, _⟩
    · rw [same] at asleep
      obtain ⟨j, target, here, alive⟩ := inv.waits i low asleep
      refine ⟨j, by rw [wait, target], by rw [num]; exact here, ?_⟩
      rcases alive with alive | special
      · rcases state j with kept | ⟨_, now⟩
        · exact Or.inl (by rw [kept]; exact alive)
        · exact Or.inl (by simp [now])
      · exact Or.inr special
    · rw [now] at asleep
      cases asleep
  · intro i here ne out
    rw [num] at here
    rw [cur] at ne
    rw [(tasks i).1] at out
    have before := inv.exited i here ne out
    rcases state i with same | ⟨old, _⟩
    · rwa [same]
    · rw [old] at before
      cases before
  · rw [reg, cur, (tasks s.currentTask).2.1, boot]
    exact inv.ttbr0

theorem wakes_refl (s : Sched) : Wakes s s :=
  ⟨rfl, rfl, rfl, rfl, fun _ => ⟨rfl, rfl, Or.inl ⟨rfl, rfl⟩⟩⟩

theorem signal_send_wakes (s : Sched) (tid sig : Int) : Wakes s (signalSend s tid sig).2 := by
  unfold signalSend
  split
  · exact wakes_refl s
  · split
    · exact wakes_refl s
    · simp only
      split
      · exact wakes_refl s
      · refine ⟨rfl, rfl, rfl, rfl, ?_⟩
        intro i
        by_cases same : i = tid.toNat
        · subst same
          simp only [Sched.state, set_task_same]
          split
          · rename_i asleep
            exact ⟨rfl, rfl, Or.inr ⟨asleep, rfl, rfl⟩⟩
          · exact ⟨rfl, rfl, Or.inl ⟨rfl, rfl⟩⟩
        · simp [Sched.state, set_task_other _ same]

theorem wakes_finished (wakes : Wakes s t) (done : s.state i = .finished) : t.state i = .finished := by
  rcases (wakes.tasks i).2.2 with ⟨same, _⟩ | ⟨asleep, _⟩
  · rw [same, done]
  · rw [done] at asleep
    cases asleep

theorem wakes_trans {u : Sched} (first : Wakes s t) (second : Wakes t u) : Wakes s u := by
  refine ⟨second.currentTask.trans first.currentTask, second.numTasks.trans first.numTasks,
    second.ttbr0.trans first.ttbr0, second.bootL1.trans first.bootL1, ?_⟩
  intro i
  obtain ⟨ctx, table, state⟩ := first.tasks i
  obtain ⟨ctx', table', state'⟩ := second.tasks i
  refine ⟨ctx'.trans ctx, table'.trans table, ?_⟩
  rcases state with ⟨same, wait⟩ | ⟨asleep, now, wait⟩
  · rw [← same, ← wait]
    exact state'
  · rcases state' with ⟨same', wait'⟩ | ⟨asleep', _⟩
    · exact Or.inr ⟨asleep, same'.trans now, wait'.trans wait⟩
    · rw [now] at asleep'
      cases asleep'

theorem notify_parent_wakes (s : Sched) : Wakes s (notifyParent s) := by
  unfold notifyParent
  simp only
  split
  · exact signal_send_wakes s _ _
  · exact wakes_refl s

theorem wake_waiters_wakes (s : Sched) (me : Nat) : Wakes s (wakeWaiters s me) := by
  refine ⟨rfl, rfl, rfl, rfl, ?_⟩
  intro i
  simp only [Sched.state, wakeWaiters]
  split
  · rename_i waiting
    exact ⟨rfl, rfl, Or.inr ⟨waiting.2.1, rfl, rfl⟩⟩
  · exact ⟨rfl, rfl, Or.inl ⟨rfl, rfl⟩⟩

/-- Waking those who wait for me is what makes it safe that I have finished. -/
theorem wake_waiters_inv {me : Nat} (inv : TableInv (some me) s) :
    TableInv none (wakeWaiters s me) := by
  have kept := table_inv_wakes inv (wake_waiters_wakes s me)
  refine ⟨kept.current, kept.bound, kept.others, kept.unused, kept.idle, kept.blocked, ?_, kept.exited,
    kept.ttbr0⟩
  intro i low asleep
  obtain ⟨j, target, here, alive⟩ := kept.waits i low asleep
  refine ⟨j, target, here, ?_⟩
  rcases alive with alive | special
  · exact Or.inl alive
  · -- a waiter for me would have been woken
    cases special
    have inTable : i < s.numTasks := by
      by_contra high
      have free := (kept.unused i low).mpr (by simpa [wakeWaiters] using high)
      rw [asleep] at free
      cases free
    simp only [Sched.state, wakeWaiters] at asleep target
    split at asleep
    · cases asleep
    · rename_i missed
      rw [if_neg missed] at target
      exact absurd ⟨inTable, asleep, target⟩ missed

end Table

structure Running (s : Sched) : Prop where
  table : TableInv none s
  running : s.state s.currentTask = .running

section Calls
variable {s t : Sched}

theorem task_zero_ready {gone : Option Nat} (inv : TableInv gone s) (nonzero : s.currentTask ≠ 0) :
    s.state 0 = .ready := by
  have idle := inv.idle
  rwa [if_neg nonzero] at idle

/-- pick_next chooses a ready task, or the caller if it can go on. Its fallback to
   task 0 is never taken: task 0 is ready whenever it is not the caller. -/
theorem pick_next_cases (current : s.currentTask < s.numTasks)
    (idle : s.currentTask ≠ 0 → s.state 0 = .ready)
    (leaves : s.state s.currentTask = .running ∨ s.currentTask ≠ 0 ∧ s.state s.currentTask ≠ .ready) :
    (pickNext s ≠ s.currentTask ∧ pickNext s < s.numTasks ∧ s.state (pickNext s) = .ready) ∨
      (pickNext s = s.currentTask ∧ s.state s.currentTask = .running) := by
  have notReady : s.state s.currentTask ≠ .ready := by
    rcases leaves with running | ⟨_, other⟩
    · simp [running]
    · exact other
  have zero : 0 < s.numTasks := Nat.lt_of_le_of_lt (Nat.zero_le _) current
  unfold pickNext
  simp only
  split
  · rename_i k found
    have ready := List.find?_some found
    simp only [decide_eq_true_eq] at ready
    refine Or.inl ⟨?_, Nat.mod_lt _ zero, ready⟩
    intro same
    rw [same] at ready
    exact notReady ready
  · rename_i noneReady
    have none_ : ∀ j, j < s.numTasks → s.state j ≠ .ready := by
      intro j here ready
      -- the index at which the scan looks at j
      have offset : ∃ k, k < s.numTasks ∧ (s.currentTask + (k + 1)) % s.numTasks = j := by
        by_cases before : s.currentTask < j
        · refine ⟨j - s.currentTask - 1, by omega, ?_⟩
          rw [show s.currentTask + (j - s.currentTask - 1 + 1) = j by omega, Nat.mod_eq_of_lt here]
        · refine ⟨j + s.numTasks - s.currentTask - 1, by omega, ?_⟩
          rw [show s.currentTask + (j + s.numTasks - s.currentTask - 1 + 1) = j + s.numTasks by omega,
            Nat.add_mod_right, Nat.mod_eq_of_lt here]
      obtain ⟨k, inside, at_⟩ := offset
      have missed := List.find?_eq_none.mp noneReady k (List.mem_range.mpr inside)
      simp only [at_, ready, decide_true, not_true_eq_false] at missed
    have running : s.state s.currentTask = .running := by
      rcases leaves with running | ⟨nonzero, _⟩
      · exact running
      · exact absurd (idle nonzero) (none_ 0 zero)
    rw [if_pos running]
    exact Or.inr ⟨rfl, running⟩

theorem switch_to_tasks {next : Nat} (here : Resume) (ne : next ≠ s.currentTask) (i : Nat) :
    (switchTo s next here).tasks i =
      if i = s.currentTask then
        { s.tasks i with
          ctx := here
          state := if s.state i = .running then .ready else s.state i }
      else if i = next then { s.tasks i with state := .running }
      else s.tasks i := by
  simp only [switchTo, ne, ↓reduceIte, contextSwitch, mmuSwitchTtbr0]
  by_cases prev : i = s.currentTask
  · subst prev
    by_cases run : s.state s.currentTask = .running
    · simp [run, Sched.setTask, Function.update_of_ne ne.symm]
    · rw [Sched.state] at run
      simp [run, Sched.setTask, Function.update_of_ne ne.symm, Sched.state]
  · by_cases entered : i = next
    · subst entered
      by_cases run : s.state s.currentTask = .running
      · simp [run, prev, Sched.setTask]
      · simp [run, prev, Sched.setTask]
    · by_cases run : s.state s.currentTask = .running
      · simp [run, prev, entered, Sched.setTask]
      · simp [run, prev, entered, Sched.setTask]

theorem switch_to_fields {next : Nat} (here : Resume) (ne : next ≠ s.currentTask) :
    (switchTo s next here).currentTask = next ∧ (switchTo s next here).numTasks = s.numTasks ∧
      (switchTo s next here).bootL1 = s.bootL1 ∧
      (switchTo s next here).ttbr0 =
        (if (s.tasks next).ttbr0 = 0 then s.bootL1 else (s.tasks next).ttbr0) ∧
      (switchTo s next here).resumed = some (s.tasks next).ctx := by
  simp only [switchTo, ne, ↓reduceIte, contextSwitch, mmuSwitchTtbr0]
  by_cases run : s.state s.currentTask = .running
  · simp [run, Sched.setTask, Function.update_of_ne ne]
  · simp [run, Sched.setTask]

/-- What a caller of sched_yield may be: the running task, or one that is not task 0 and
   has gone to sleep or finished. -/
def Leaves (s : Sched) : Prop :=
  s.state s.currentTask = .running ∨
    s.currentTask ≠ 0 ∧ (s.state s.currentTask = .blocked ∨ s.state s.currentTask = .finished)

section Switching
variable {next : Nat} {here : Resume}

theorem switch_left (leaves : Leaves s) (ne : next ≠ s.currentTask) :
    (switchTo s next here).state s.currentTask = .ready ∧ s.state s.currentTask = .running ∨
      (switchTo s next here).state s.currentTask = s.state s.currentTask ∧ s.currentTask ≠ 0 ∧
        (s.state s.currentTask = .blocked ∨ s.state s.currentTask = .finished) := by
  have left : (switchTo s next here).state s.currentTask =
      if s.state s.currentTask = .running then .ready else s.state s.currentTask := by
    simp [Sched.state, switch_to_tasks here ne]
  rcases leaves with running | ⟨nonzero, other⟩
  · exact Or.inl ⟨by rw [left, if_pos running], running⟩
  · refine Or.inr ⟨?_, nonzero, other⟩
    rcases other with other | other <;> rw [left, other, if_neg (by simp)]

theorem switch_entered (ne : next ≠ s.currentTask) : (switchTo s next here).state next = .running := by
  simp [Sched.state, switch_to_tasks here ne, ne]

theorem switch_kept (ne : next ≠ s.currentTask) {i : Nat} (prev : i ≠ s.currentTask) (other : i ≠ next) :
    (switchTo s next here).tasks i = s.tasks i := by
  rw [switch_to_tasks here ne, if_neg prev, if_neg other]

theorem switch_state_iff (leaves : Leaves s) (ne : next ≠ s.currentTask) (ready : s.state next = .ready)
    {st : TaskState} (notReady : st ≠ .ready) (notRunning : st ≠ .running) (i : Nat) :
    (switchTo s next here).state i = st ↔ s.state i = st := by
  by_cases prev : i = s.currentTask
  · rw [prev]
    rcases @switch_left _ next here leaves ne with ⟨now, before⟩ | ⟨same, _⟩
    · rw [now, before]
      exact ⟨fun same => absurd same.symm notReady, fun same => absurd same.symm notRunning⟩
    · rw [same]
  · by_cases other : i = next
    · rw [other, switch_entered ne, ready]
      exact ⟨fun same => absurd same.symm notRunning, fun same => absurd same.symm notReady⟩
    · rw [Sched.state, switch_kept ne prev other]
      exact Iff.rfl

end Switching

theorem switch_running {next : Nat} {here : Resume} (inv : TableInv none s) (leaves : Leaves s)
    (out : here = .exited → s.state s.currentTask = .finished) (ne : next ≠ s.currentTask)
    (inside : next < s.numTasks) (ready : s.state next = .ready) :
    Running (switchTo s next here) := by
  obtain ⟨cur, num, boot, reg, _⟩ := switch_to_fields here ne
  have tasks := switch_to_tasks here ne
  have entered := @switch_entered _ next here ne
  have leftState := @switch_left _ next here leaves ne
  have waitForTid : ∀ i, ((switchTo s next here).tasks i).waitForTid = (s.tasks i).waitForTid := by
    intro i
    rw [tasks]
    split
    · rfl
    · split <;> rfl
  refine ⟨⟨?_, ?_, ?_, ?_, ?_, ?_, ?_, ?_, ?_⟩, by rw [cur]; exact entered⟩
  · rw [cur, num]
    exact inside
  · rw [num]
    exact inv.bound
  · intro i small other
    rw [cur] at other
    by_cases prev : i = s.currentTask
    · rw [prev]
      rcases leftState with ⟨now, _⟩ | ⟨same, _, asleep | done⟩
      · simp [now]
      · simp [same, asleep]
      · simp [same, done]
    · rw [Sched.state, switch_kept ne prev other]
      exact inv.others i small prev
  · intro i small
    rw [num, ← inv.unused i small]
    exact switch_state_iff leaves ne ready (by simp) (by simp) i
  · rw [cur]
    by_cases zero : next = 0
    · rw [if_pos zero, ← zero]
      exact entered
    · rw [if_neg zero]
      by_cases was : s.currentTask = 0
      · rcases leftState with ⟨now, _⟩ | ⟨_, nonzero, _⟩
        · rw [← was]
          exact now
        · exact absurd was nonzero
      · rw [Sched.state, switch_kept ne (Ne.symm was) (Ne.symm zero)]
        exact task_zero_ready inv was
  · intro i small
    rw [waitForTid, ← inv.blocked i small]
    exact switch_state_iff leaves ne ready (by simp) (by simp) i
  · intro i small asleep
    have before := (switch_state_iff leaves ne ready (by simp) (by simp) i).mp asleep
    obtain ⟨j, target, here', alive⟩ := inv.waits i small before
    refine ⟨j, by rw [waitForTid, target], by rw [num]; exact here', ?_⟩
    rcases alive with alive | clash
    · exact Or.inl fun done => alive ((switch_state_iff leaves ne ready (by simp) (by simp) j).mp done)
    · cases clash
  · intro i small other gone
    rw [num] at small
    rw [cur] at other
    by_cases prev : i = s.currentTask
    · rw [prev] at gone ⊢
      have ctx : ((switchTo s next here).tasks s.currentTask).ctx = here := by simp [tasks]
      rw [ctx] at gone
      have done := out gone
      exact (switch_state_iff leaves ne ready (by simp) (by simp) _).mpr done
    · rw [switch_kept ne prev other] at gone
      rw [Sched.state, switch_kept ne prev other]
      exact inv.exited i small prev gone
  · have table : ((switchTo s next here).tasks next).ttbr0 = (s.tasks next).ttbr0 := by
      simp [tasks, ne]
    rw [reg, cur, boot, table]

theorem yield_running (here : Resume) (inv : TableInv none s) (leaves : Leaves s)
    (out : here = .exited → s.state s.currentTask = .finished) :
    Running (schedYield s here) ∧ (schedYield s here).resumed ≠ some .exited ∧
      ∀ i, s.state i = .finished → (schedYield s here).state i = .finished := by
  have callers : s.state s.currentTask = .running ∨
      s.currentTask ≠ 0 ∧ s.state s.currentTask ≠ .ready := by
    rcases leaves with running | ⟨nonzero, asleep | done⟩
    · exact Or.inl running
    · exact Or.inr ⟨nonzero, by simp [asleep]⟩
    · exact Or.inr ⟨nonzero, by simp [done]⟩
  unfold schedYield
  rcases pick_next_cases inv.current (task_zero_ready inv) callers with ⟨ne, inside, ready⟩ | ⟨same, running⟩
  · refine ⟨switch_running inv leaves out ne inside ready, ?_, ?_⟩
    · rw [(switch_to_fields here ne).2.2.2.2]
      intro gone
      have done := inv.exited _ inside ne (Option.some.inj gone)
      rw [done] at ready
      cases ready
    · intro i done
      rw [Sched.state, switch_to_tasks here ne]
      split
      · rename_i prev
        rw [if_neg (by rw [done]; simp)]
        exact done
      · split
        · rename_i entered
          rw [entered, ready] at done
          cases done
        · exact done
  · rw [switchTo, if_pos same]
    refine ⟨⟨⟨inv.current, inv.bound, inv.others, inv.unused, inv.idle, inv.blocked, inv.waits,
      inv.exited, inv.ttbr0⟩, running⟩, ?_, fun i done => done⟩
    intro gone
    rw [out (Option.some.inj gone)] at running
    cases running

theorem add_task_running {new : Task} (run : Running s) (room : s.numTasks < schedMaxTasks)
    (ready : new.state = .ready) (awake : new.waitForTid = -1) (fresh : new.ctx ≠ .exited) :
    Running (addTask s new).2 := by
  have inv := run.table
  have current := inv.current
  have at_ : ((addTask s new).2).tasks s.numTasks = new := set_task_same new
  have kept : ∀ i, i ≠ s.numTasks → ((addTask s new).2).tasks i = s.tasks i :=
    fun i ne => set_task_other new ne
  have num : ((addTask s new).2).numTasks = s.numTasks + 1 := rfl
  have cur : ((addTask s new).2).currentTask = s.currentTask := rfl
  have here : ((addTask s new).2).tasks s.currentTask = s.tasks s.currentTask := kept _ (by omega)
  refine ⟨⟨?_, room, ?_, ?_, ?_, ?_, ?_, ?_, ?_⟩, ?_⟩
  · rw [cur, num]
    omega
  · intro i small other
    by_cases new_ : i = s.numTasks
    · rw [new_, Sched.state, at_, ready]
      simp
    · rw [Sched.state, kept i new_]
      exact inv.others i small other
  · intro i small
    rw [num]
    by_cases new_ : i = s.numTasks
    · rw [new_, Sched.state, at_, ready]
      simp
    · rw [Sched.state, kept i new_]
      have before := inv.unused i small
      rw [Sched.state] at before
      rw [before]
      omega
  · rw [Sched.state, kept 0 (by omega), cur]
    exact inv.idle
  · intro i small
    by_cases new_ : i = s.numTasks
    · rw [new_, Sched.state, at_, ready, awake]
      simp
    · rw [Sched.state, kept i new_]
      exact inv.blocked i small
  · intro i small asleep
    by_cases new_ : i = s.numTasks
    · rw [new_, Sched.state, at_, ready] at asleep
      cases asleep
    · rw [Sched.state, kept i new_] at asleep
      obtain ⟨j, target, inside, alive⟩ := inv.waits i small asleep
      refine ⟨j, by rw [kept i new_, target], by rw [num]; omega, ?_⟩
      rcases alive with alive | clash
      · rw [Sched.state, kept j (by omega)]
        exact Or.inl alive
      · cases clash
  · intro i small other gone
    rw [num] at small
    by_cases new_ : i = s.numTasks
    · rw [new_, at_] at gone
      exact absurd gone fresh
    · rw [kept i new_] at gone
      rw [Sched.state, kept i new_]
      exact inv.exited i (by omega) other gone
  · rw [cur, here]
    exact inv.ttbr0
  · rw [Sched.state, cur, here]
    exact run.running

end Calls

end Archarch.Scheduling
