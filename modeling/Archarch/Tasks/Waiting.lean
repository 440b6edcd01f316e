import Archarch.Tasks.SchedulerRuns

/- Who sleeps in sched_wait, and what wakes him. A signal wakes its target at the same
   place as the end of the target of the wait does. -/
namespace Archarch.Scheduling

/-- No signal goes to a task that sleeps in sched_wait for a task still alive; that an
   exiting task tells its parent is harmless if the parent waits for just this task. -/
def noEarlyWake (s : Sched) : SchedCall → Prop
  | .signal tid sig => 1 ≤ sig → sig < nsig → 0 ≤ tid → tid < s.numTasks → s.state tid.toNat ≠ .blocked
  | .exit =>
    0 ≤ (s.tasks s.currentTask).parentTid → (s.tasks s.currentTask).parentTid < s.numTasks →
    s.state (s.tasks s.currentTask).parentTid.toNat = .blocked →
    (s.tasks (s.tasks s.currentTask).parentTid.toNat).waitForTid = s.currentTask
  | _ => True

instance (s : Sched) (call : SchedCall) : Decidable (noEarlyWake s call) :=
  match call with
  | .signal tid sig => inferInstanceAs (Decidable (1 ≤ sig → sig < nsig → 0 ≤ tid →
      tid < s.numTasks → s.state tid.toNat ≠ .blocked))
  | .exit => inferInstanceAs (Decidable (0 ≤ (s.tasks s.currentTask).parentTid →
      (s.tasks s.currentTask).parentTid < s.numTasks →
      s.state (s.tasks s.currentTask).parentTid.toNat = .blocked →
      (s.tasks (s.tasks s.currentTask).parentTid.toNat).waitForTid = s.currentTask))
  | .create | .createUser _ | .fork _ | .yield | .tick | .wait _ => isTrue trivial

/-- What pick_next relies on. -/
structure Seated (s : Sched) : Prop where
  current : s.currentTask < s.numTasks
  idle : s.currentTask ≠ 0 → s.state 0 = .ready
  fresh : ∀ i, s.numTasks ≤ i → i < schedMaxTasks → s.state i = .unused

/-- A task that is not running sleeps where it waits, and goes on there only once its
   target has finished. A slot that is not made yet has no place of its own. -/
structure Waiting (made : Nat → Prop) (s : Sched) : Prop where
  asleep : ∀ i, i < s.numTasks → i ≠ s.currentTask → s.state i = .blocked →
    ∃ tid, (s.tasks i).ctx = .waiting tid ∧ (s.tasks i).waitForTid = tid
  awake : ∀ i, i < s.numTasks → i ≠ s.currentTask → made i → ∀ tid, (s.tasks i).ctx = .waiting tid →
    s.state i = .blocked ∨ s.state tid = .finished

/-- The sched_wait that returns 0 in this state, if any, tells the truth, provided that the
    task that goes on has been made. -/
def Returns (made : Nat → Prop) (s : Sched) : Prop :=
  made s.currentTask → ∀ tid, s.resumed = some (.waiting tid) → s.state tid = .finished

structure Honest (made : Nat → Prop) (s : Sched) : Prop where
  seated : Seated s
  running : s.state s.currentTask = .running
  waiting : Waiting made s
  returns : Returns made s

section Steps
variable {made : Nat → Prop} {s t : Sched}

theorem seated_wakes (seated : Seated s) (wakes : Wakes s t) : Seated t := by
  have stays : ∀ i, s.state i ≠ .blocked → t.state i = s.state i := by
    intro i awake
    rcases (wakes.tasks i).2.2 with ⟨same, _⟩ | ⟨asleep, _⟩
    · exact same
    · exact absurd asleep awake
  refine ⟨?_, ?_, ?_⟩
  · rw [wakes.currentTask, wakes.numTasks]
    exact seated.current
  · rw [wakes.currentTask]
    intro nonzero
    have idle := seated.idle nonzero
    rw [stays 0 (by simp [idle])]
    exact idle
  · rw [wakes.numTasks]
    intro i high low
    have fresh := seated.fresh i high low
    rw [stays i (by simp [fresh])]
    exact fresh

theorem seated_set_current (seated : Seated s) (nonzero : s.currentTask ≠ 0) (new : Task) :
    Seated (s.setTask s.currentTask new) := by
  refine ⟨seated.current, ?_, ?_⟩
  · intro _
    rw [Sched.state, set_task_other _ nonzero.symm]
    exact seated.idle nonzero
  · intro i high low
    have away : i ≠ s.currentTask := Nat.ne_of_gt (Nat.lt_of_lt_of_le seated.current high)
    rw [Sched.state, set_task_other _ away]
    exact seated.fresh i high low

theorem waiting_wakes (waiting : Waiting made s) (wakes : Wakes s t)
    (due : ∀ i tid, i < s.numTasks → i ≠ s.currentTask → s.state i = .blocked →
      t.state i ≠ .blocked → (s.tasks i).ctx = .waiting tid → t.state tid = .finished) :
    Waiting made t := by
  constructor
  · intro i inside other asleep
    rw [wakes.numTasks] at inside
    rw [wakes.currentTask] at other
    rcases (wakes.tasks i).2.2 with ⟨same, wait⟩ | ⟨_, now, _⟩
    · rw [same] at asleep
      obtain ⟨tid, ctx, target⟩ := waiting.asleep i inside other asleep
      exact ⟨tid, by rw [(wakes.tasks i).1]; exact ctx, by rw [wait]; exact target⟩
    · rw [now] at asleep
      cases asleep
  · intro i inside other known tid ctx
    rw [wakes.numTasks] at inside
    rw [wakes.currentTask] at other
    rw [(wakes.tasks i).1] at ctx
    rcases waiting.awake i inside other known tid ctx with asleep | done
    · by_cases still : t.state i = .blocked
      · exact Or.inl still
      · exact Or.inr (due i tid inside other asleep still ctx)
    · exact Or.inr (wakes_finished wakes done)

theorem waiting_set_current (waiting : Waiting made s) (alive : s.state s.currentTask ≠ .finished)
    (new : Task) : Waiting made (s.setTask s.currentTask new) := by
  constructor
  · intro i inside other asleep
    have notMe : i ≠ s.currentTask := other
    rw [Sched.state, set_task_other _ notMe] at asleep
    rw [set_task_other _ notMe]
    exact waiting.asleep i inside notMe asleep
  · intro i inside other known tid ctx
    have notMe : i ≠ s.currentTask := other
    rw [set_task_other _ notMe] at ctx
    rw [Sched.state, set_task_other _ notMe]
    rcases waiting.awake i inside notMe known tid ctx with asleep | done
    · exact Or.inl asleep
    · refine Or.inr ?_
      have other' : tid ≠ s.currentTask := by
        rintro rfl
        exact alive done
      rw [Sched.state, set_task_other _ other']
      exact done

theorem seated_switch {next : Nat} (here : Resume) (seated : Seated s) (leaves : Leaves s)
    (ne : next ≠ s.currentTask) (inside : next < s.numTasks) : Seated (switchTo s next here) := by
  obtain ⟨cur, num, _⟩ := switch_to_fields here ne
  refine ⟨?_, ?_, ?_⟩
  · rw [cur, num]
    exact inside
  · rw [cur]
    intro nonzero
    by_cases was : s.currentTask = 0
    · rcases @switch_left _ next here leaves ne with ⟨now, _⟩ | ⟨_, other, _⟩
      · rw [← was]
        exact now
      · exact absurd was other
    · rw [Sched.state, switch_kept ne (Ne.symm was) (Ne.symm nonzero)]
      exact seated.idle was
  · rw [num]
    intro i high low
    have notPrev : i ≠ s.currentTask := Nat.ne_of_gt (Nat.lt_of_lt_of_le seated.current high)
    have notNext : i ≠ next := Nat.ne_of_gt (Nat.lt_of_lt_of_le inside high)
    rw [Sched.state, switch_kept ne notPrev notNext]
    exact seated.fresh i high low

theorem switch_finished {next i : Nat} (here : Resume) (ne : next ≠ s.currentTask)
    (ready : s.state next = .ready) (done : s.state i = .finished) :
    (switchTo s next here).state i = .finished := by
  have notNext : i ≠ next := by
    rintro rfl
    rw [ready] at done
    cases done
  rw [Sched.state, switch_to_tasks here ne]
  by_cases prev : i = s.currentTask
  · rw [if_pos prev]
    have asleep : s.state i ≠ .running := by simp [done]
    exact (if_neg asleep).trans done
  · rw [if_neg prev, if_neg notNext]
    exact done

theorem honest_switch {next : Nat} {here : Resume} (seated : Seated s) (waiting : Waiting made s)
    (leaves : Leaves s) (ne : next ≠ s.currentTask) (inside : next < s.numTasks)
    (ready : s.state next = .ready)
    (sleeps : s.state s.currentTask = .blocked →
      ∃ tid, here = .waiting tid ∧ (s.tasks s.currentTask).waitForTid = tid)
    (waits : ∀ tid, here = .waiting tid → s.state s.currentTask = .blocked) :
    Honest made (switchTo s next here) := by
  obtain ⟨cur, num, _, _, resumed⟩ := switch_to_fields here ne
  have tasks := switch_to_tasks here ne
  have me : (switchTo s next here).tasks s.currentTask =
      { s.tasks s.currentTask with
        ctx := here
        state := if s.state s.currentTask = .running then .ready else s.state s.currentTask } := by
    rw [tasks, if_pos rfl]
  refine ⟨seated_switch here seated leaves ne inside, by rw [cur]; exact switch_entered ne, ⟨?_, ?_⟩, ?_⟩
  · intro i small other asleep
    rw [num] at small
    rw [cur] at other
    by_cases mine : i = s.currentTask
    · rw [mine] at asleep ⊢
      rw [Sched.state, me] at asleep
      rw [me]
      simp only at asleep ⊢
      split at asleep
      · cases asleep
      · exact sleeps asleep
    · rw [Sched.state, switch_kept ne mine other] at asleep
      rw [switch_kept ne mine other]
      exact waiting.asleep i small mine asleep
  · intro i small other known tid ctx
    rw [num] at small
    rw [cur] at other
    by_cases mine : i = s.currentTask
    · rw [mine] at ctx ⊢
      rw [me] at ctx
      have asleep := waits tid ctx
      refine Or.inl ?_
      rw [Sched.state, me]
      simp [asleep]
    · rw [switch_kept ne mine other] at ctx
      rcases waiting.awake i small mine known tid ctx with asleep | done
      · refine Or.inl ?_
        rw [Sched.state, switch_kept ne mine other]
        exact asleep
      · exact Or.inr (switch_finished here ne ready done)
  · intro known tid returns
    rw [cur] at known
    rw [resumed, Option.some.injEq] at returns
    rcases waiting.awake _ inside ne known tid returns with asleep | done
    · rw [ready] at asleep
      cases asleep
    · exact switch_finished here ne ready done

theorem honest_yield {here : Resume} (seated : Seated s) (waiting : Waiting made s) (leaves : Leaves s)
    (sleeps : s.state s.currentTask = .blocked →
      ∃ tid, here = .waiting tid ∧ (s.tasks s.currentTask).waitForTid = tid)
    (waits : ∀ tid, here = .waiting tid → s.state s.currentTask = .blocked) :
    Honest made (schedYield s here) := by
  have callers : s.state s.currentTask = .running ∨
      s.currentTask ≠ 0 ∧ s.state s.currentTask ≠ .ready := by
    rcases leaves with running | ⟨nonzero, asleep | done⟩
    · exact Or.inl running
    · exact Or.inr ⟨nonzero, by simp [asleep]⟩
    · exact Or.inr ⟨nonzero, by simp [done]⟩
  rcases pick_next_cases seated.current seated.idle callers with ⟨ne, inside, ready⟩ | ⟨same, running⟩
  · exact honest_switch seated waiting leaves ne inside ready sleeps waits
  · rw [schedYield, switchTo, if_pos same]
    refine ⟨⟨seated.current, seated.idle, seated.fresh⟩, running, ⟨waiting.asleep, waiting.awake⟩, ?_⟩
    intro _ tid returns
    have asleep := waits tid (Option.some.inj returns)
    rw [running] at asleep
    cases asleep

theorem waiting_add_task {new : Task} (waiting : Waiting made s) (seated : Seated s)
    (room : s.numTasks < schedMaxTasks) (ready : new.state = .ready) (fresh : ∀ tid, new.ctx ≠ .waiting tid) :
    Waiting made (addTask s new).2 := by
  have at_ : ((addTask s new).2).tasks s.numTasks = new := set_task_same new
  have kept : ∀ i, i ≠ s.numTasks → ((addTask s new).2).tasks i = s.tasks i :=
    fun i ne => set_task_other new ne
  constructor
  · intro i small other asleep
    have small' : i < s.numTasks + 1 := small
    by_cases new_ : i = s.numTasks
    · rw [new_, Sched.state, at_, ready] at asleep
      cases asleep
    · rw [Sched.state, kept i new_] at asleep
      rw [kept i new_]
      exact waiting.asleep i (by omega) other asleep
  · intro i small other known tid ctx
    have small' : i < s.numTasks + 1 := small
    by_cases new_ : i = s.numTasks
    · rw [new_, at_] at ctx
      exact absurd ctx (fresh tid)
    · rw [kept i new_] at ctx
      rw [Sched.state, kept i new_]
      rcases waiting.awake i (by omega) other known tid ctx with asleep | done
      · exact Or.inl asleep
      · refine Or.inr ?_
        have used : tid ≠ s.numTasks := by
          rintro rfl
          rw [seated.fresh _ (Nat.le_refl _) room] at done
          cases done
        rw [Sched.state, kept tid used]
        exact done

theorem honest_quiet (seated : Seated t) (running : t.state t.currentTask = .running)
    (waiting : Waiting made t) (resumed : t.resumed = none) : Honest made t := by
  refine ⟨seated, running, waiting, ?_⟩
  intro _ tid returns
  rw [resumed] at returns
  cases returns

theorem honest_add_task {new : Task} (honest : Honest made s) (idle : s.resumed = none)
    (room : s.numTasks < schedMaxTasks) (ready : new.state = .ready) (fresh : ∀ tid, new.ctx ≠ .waiting tid) :
    Honest made (addTask s new).2 := by
  have seated := honest.seated
  have current : s.currentTask ≠ s.numTasks := Nat.ne_of_lt seated.current
  have kept : ∀ i, i ≠ s.numTasks → (addTask s new).2.state i = s.state i :=
    fun i ne => congrArg Task.state (set_task_other new ne)
  refine honest_quiet ⟨Nat.lt_succ_of_lt seated.current, ?_, ?_⟩ ?_
    (waiting_add_task honest.waiting seated room ready fresh) idle
  · intro nonzero
    rw [kept 0 (Nat.ne_of_lt (Nat.lt_of_le_of_lt (Nat.zero_le _) seated.current))]
    exact seated.idle nonzero
  · intro i high low
    rw [kept i (Nat.ne_of_gt high)]
    exact seated.fresh i (Nat.le_of_succ_le high) low
  · exact (kept _ current).trans honest.running

theorem waiting_signal {tid sig : Int} (waiting : Waiting made s)
    (guard : noEarlyWake s (.signal tid sig)) : Waiting made (signalSend s tid sig).2 := by
  refine waiting_wakes waiting (signal_send_wakes s tid sig) ?_
  intro i target _ _ asleep woken _
  refine absurd ?_ woken
  unfold signalSend
  split
  · exact asleep
  · rename_i valid
    split
    · exact asleep
    · rename_i inside
      simp only [not_or, Int.not_lt, Int.not_le] at valid inside
      have other : i ≠ tid.toNat := by
        rintro rfl
        exact guard valid.1 valid.2 inside.1 inside.2 asleep
      simp only
      split
      · exact asleep
      · rw [Sched.state, set_task_other _ other]
        exact asleep

theorem woken_parent {i : Nat} (asleep : (markFinished s).state i = .blocked)
    (told : (notifyParent (markFinished s)).state i ≠ .blocked) :
    0 ≤ (s.tasks s.currentTask).parentTid ∧ (s.tasks s.currentTask).parentTid < s.numTasks ∧
      i = (s.tasks s.currentTask).parentTid.toNat := by
  have parent : ((markFinished s).tasks s.currentTask).parentTid = (s.tasks s.currentTask).parentTid := by
    simp [markFinished]
  by_contra notParent
  refine told ?_
  have cur : (markFinished s).currentTask = s.currentTask := rfl
  have num : (markFinished s).numTasks = s.numTasks := rfl
  simp only [notifyParent, cur, parent]
  split
  · rename_i low
    unfold signalSend
    split
    · exact asleep
    · rw [num]
      split
      · exact asleep
      · rename_i high
        simp only
        split
        · exact asleep
        · rw [Sched.state, set_task_other _ (by omega)]
          exact asleep
  · exact asleep

/-- Both the signal to the parent and the end of the waits wake only tasks that wait
   for the one that has just finished. -/
theorem waiting_exit (waiting : Waiting made s) (running : s.state s.currentTask = .running)
    (guard : noEarlyWake s .exit) :
    Waiting made (wakeWaiters (notifyParent (markFinished s)) s.currentTask) := by
  have marked : Waiting made (markFinished s) := waiting_set_current waiting (by simp [running]) _
  have kept : ∀ i, i ≠ s.currentTask → (markFinished s).tasks i = s.tasks i :=
    fun i ne => set_task_other _ ne
  refine waiting_wakes marked (exit_wakes s) ?_
  intro i tid inside other asleep woken ctx
  obtain ⟨tid', ctx', target⟩ := marked.asleep i inside other asleep
  rw [ctx] at ctx'
  cases ctx'
  have notMe : i ≠ s.currentTask := other
  have forMe : (s.tasks i).waitForTid = s.currentTask → tid = s.currentTask := by
    intro wait
    rw [kept i notMe, wait] at target
    omega
  by_cases told : (notifyParent (markFinished s)).state i = .blocked
  · -- woken by the loop over the waiters
    have wait := ((notify_parent_wakes (markFinished s)).tasks i).2.2
    rcases wait with ⟨_, wait⟩ | ⟨_, now, _⟩
    · rw [forMe, exit_finished]
      by_contra notMine
      rw [kept i notMe] at wait
      refine woken ?_
      rw [Sched.state, wakeWaiters]
      simp only
      rw [if_neg]
      · exact told
      · rintro ⟨_, _, wait'⟩
        exact notMine (wait.symm.trans wait')
    · rw [told] at now
      cases now
  · -- woken by the signal to the parent
    obtain ⟨low, high, same⟩ := woken_parent asleep told
    have before : s.state i = .blocked := by
      rw [Sched.state, kept i notMe] at asleep
      exact asleep
    rw [same] at before
    have wait := guard low high before
    rw [← same] at wait
    rw [forMe wait, exit_finished]

theorem honest_exit (honest : Honest made s) (nonzero : s.currentTask ≠ 0)
    (guard : noEarlyWake s .exit) : Honest made (schedExit s) := by
  have wakes := exit_wakes s
  have cur : (wakeWaiters (notifyParent (markFinished s)) s.currentTask).currentTask = s.currentTask :=
    wakes.currentTask
  have mine := exit_finished s
  refine honest_yield (seated_wakes (seated_set_current honest.seated nonzero _) wakes)
    (waiting_exit honest.waiting honest.running guard) (Or.inr ⟨?_, Or.inr ?_⟩) ?_ ?_
  · rw [cur]
    exact nonzero
  · rw [cur]
    exact mine
  · rw [cur, mine]
    simp
  · simp

theorem honest_tick (honest : Honest made s) : Honest made (schedTick s) := by
  have wakes := tick_wakes s
  have running := running_of_wakes wakes honest.running
  exact honest_yield (seated_wakes honest.seated wakes)
    (waiting_set_current honest.waiting (by simp [honest.running]) _) (Or.inl running)
    (by simp [running]) (by simp)

theorem honest_wait {tid : Int} (honest : Honest made s) (idle : s.resumed = none)
    (nonzero : s.currentTask ≠ 0) : Honest made (schedWait s tid).2 := by
  obtain ⟨seated, running, waiting, _⟩ := honest
  unfold schedWait
  split
  · exact honest_quiet seated running waiting idle
  · rename_i inside
    simp only [not_or, Int.not_lt, Int.not_le] at inside
    split
    · rename_i done
      refine ⟨⟨seated.current, seated.idle, seated.fresh⟩, running, ⟨waiting.asleep, waiting.awake⟩, ?_⟩
      intro _ other returns
      cases returns
      exact done
    · have target : ((tid.toNat : Nat) : Int) = tid := Int.toNat_of_nonneg inside.1
      have state : (s.setTask s.currentTask { s.tasks s.currentTask with
          state := .blocked, waitForTid := tid }).state s.currentTask = .blocked := by
        rw [Sched.state, set_task_same]
      have cur : (s.setTask s.currentTask { s.tasks s.currentTask with
          state := .blocked, waitForTid := tid }).currentTask = s.currentTask := rfl
      refine honest_yield (seated_set_current seated nonzero _)
        (waiting_set_current waiting (by simp [running]) _) (Or.inr ⟨nonzero, Or.inl state⟩) ?_
        (fun _ _ => state)
      intro _
      exact ⟨tid.toNat, rfl, by rw [cur, set_task_same]; exact target.symm⟩

theorem honest_call (call : SchedCall) (honest : Honest made s) (idle : s.resumed = none)
    (may : callable s call) (guard : noEarlyWake s call) : Honest made (schedCall s call) := by
  cases call with
  | create =>
    simp only [schedCall, schedCreate]
    split
    · exact honest
    · exact honest_add_task honest idle (by omega) rfl (by simp)
  | createUser pgd =>
    simp only [schedCall, schedCreateUser]
    split
    · exact honest
    · split
      · exact honest
      · exact honest_add_task honest idle (by omega) rfl (by simp)
  | fork pgd =>
    simp only [schedCall, schedFork]
    split
    · exact honest
    · split
      · exact honest
      · split
        · exact honest
        · exact honest_add_task honest idle (by omega) rfl (by simp)
  | yield =>
    exact honest_yield honest.seated honest.waiting (Or.inl honest.running)
      (by simp [honest.running]) (by simp)
  | tick => exact honest_tick honest
  | wait tid => exact honest_wait honest idle may
  | exit => exact honest_exit honest may guard
  | signal tid sig =>
    have wakes := signal_send_wakes s tid sig
    exact honest_quiet (seated_wakes honest.seated wakes) (running_of_wakes wakes honest.running)
      (waiting_signal honest.waiting guard) ((signal_send_resumed s tid sig).trans idle)

end Steps

end Archarch.Scheduling
