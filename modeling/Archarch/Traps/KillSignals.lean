import Archarch.Traps.SignalFrames
import Archarch.Traps.TrapRuns

/- SIGKILL against the other signals: signal_deliver looks at the lowest pending one only. -/
namespace Archarch.Traps
open LabelledRuns

/-- An instruction of a task at EL0 stores a byte or traps. -/
def Event.AtEl0 (id : Nat) : Event → Prop
  | .store k _ _ => k = id
  | .trap k _ => k = id
  | _ => False

/-- The call of signal_deliver for a task finishes it, and nothing that follows runs the
    task at EL0 again. -/
def Killed (kstacks : KernelStacks) (s : Machine) (id : Nat) : Prop :=
  ∃ t, machineStep kstacks s (.deliver id) = some t ∧ (t.tasks id).phase = .finished ∧
    ∀ u, Reaches (· = t) (Taken (machineStep kstacks)) u → (u.tasks id).phase = .finished ∧
      ∀ event : Event, event.AtEl0 id → machineStep kstacks u event = none

/-- The first of the signals pending below SIGKILL, if there is one, has its default action. -/
def Unshielded (t : Task) : Prop :=
  ∀ sig, 0 < sig → sig < sigkill → t.pending.getLsbD sig = true →
    (∀ i, 0 < i → i < sig → t.pending.getLsbD i = false) → t.handlers sig = sigDfl

section Phases
variable {kstacks : KernelStacks} {s t : Machine} {id k : Nat}

structure Phases (s t : Machine) (id : Nat) : Prop where
  count : s.numTasks ≤ t.numTasks
  others : ∀ k, k ≠ id → k < s.numTasks ∨ t.numTasks ≤ k → (t.tasks k).phase = (s.tasks k).phase

theorem phases_local (step : Local s t id) : Phases s t id :=
  ⟨Nat.le_of_eq step.count.symm, fun k other _ => step.others k other⟩

theorem phases_of_tasks (same : SameTable s t) : Phases s t id :=
  ⟨Nat.le_of_eq same.2.symm, fun k _ _ => by rw [same.1]⟩

theorem phases_trans {u : Machine} (first : Phases s t id) (second : Phases t u id) : Phases s u id := by
  refine ⟨Nat.le_trans first.count second.count, ?_⟩
  intro k other place
  have old := first.count
  have new := second.count
  rw [second.others k other (by omega), first.others k other (by omega)]

theorem phases_serve {outcome : Outcome} : Phases s (serveCall kstacks s id outcome) id := by
  have same : ∀ u v, Phases u (setReg u id 0 v) id := fun u v =>
    phases_of_tasks (same_table_set_reg u id 0 v)
  unfold serveCall
  dsimp only
  split
  · split
    · refine ⟨Nat.le_succ _, ?_⟩
      intro k _ place
      have old : k ≠ s.numTasks := by
        change k < s.numTasks ∨ s.numTasks + 1 ≤ k at place
        omega
      simp only [setReg, createTask, Function.update_of_ne old]
    · exact same _ _
  · split
    · split
      · refine ⟨Nat.le_succ _, ?_⟩
        intro k _ place
        have old : k ≠ s.numTasks := by
          change k < s.numTasks ∨ s.numTasks + 1 ≤ k at place
          omega
        simp only [setReg, forkTask, Function.update_of_ne old]
      · exact same _ _
    · split
      · exact phases_trans (phases_local (local_signal_send id s _ _)) (same _ _)
      · split
        · exact phases_trans (phases_local (quiet_signal_set_handler s _ _).step) (same _ _)
        · split
          · unfold signalReturn
            exact phases_of_tasks (same_table_pop s id _ 0 34)
          · exact same _ _

theorem phases_deliver : Phases s (signalDeliver s id) id := by
  have cleared : Phases s (setTask s id { s.tasks id with pending := (s.tasks id).pending &&&
      ~~~(1#32 <<< lowestPending (s.tasks id).pending) }) id :=
    phases_local (local_set_task rfl fun other => absurd rfl other)
  have exits := fun u => phases_local (sched_exit_spec u id).1
  unfold signalDeliver
  dsimp only
  split
  · exact phases_of_tasks ⟨rfl, rfl⟩
  · split
    · exact phases_trans cleared (exits _)
    · split
      · exact cleared
      · split
        · unfold signalDefaultAction
          split
          · exact cleared
          · exact phases_trans cleared (exits _)
        · exact phases_trans cleared (phases_of_tasks (same_table_handle _ id _ _))

/-- The task an event is work for. -/
def Event.task (s : Machine) : Event → Nat
  | .create _ => s.numTasks
  | .start id | .store id _ _ | .trap id _ | .copyOut id _ _ | .serve id _ | .deliver id | .resume id => id

theorem step_phases {event : Event} (step : machineStep kstacks s event = some t) :
    Phases s t (event.task s) ∧
      (event.task s = s.numTasks ∧ t.numTasks = s.numTasks + 1 ∨
        (s.tasks (event.task s)).phase ≠ .finished ∧ (s.tasks (event.task s)).phase ≠ .idle) := by
  have here : ∀ {id : Nat} {phase : Phase}, (s.tasks id).phase = phase → phase ≠ .finished → phase ≠ .idle →
      id = s.numTasks ∧ t.numTasks = s.numTasks + 1 ∨
        (s.tasks id).phase ≠ .finished ∧ (s.tasks id).phase ≠ .idle := by
    intro id phase at_ alive busy
    rw [at_]
    exact Or.inr ⟨alive, busy⟩
  have phased := fun u id phase => phases_local (local_set_phase u id phase)
  cases event with
  | create memory =>
    simp only [machineStep] at step
    split at step
    · cases step
      refine ⟨⟨Nat.le_succ _, ?_⟩, Or.inl ⟨rfl, rfl⟩⟩
      intro k other _
      simp only [createTask, Function.update_of_ne (show k ≠ s.numTasks from other)]
    · cases step
  | start id =>
    simp only [machineStep] at step
    split at step
    · rename_i created
      cases step
      exact ⟨phased s id _, here created (by decide) (by decide)⟩
    · cases step
  | store id a byte =>
    simp only [machineStep] at step
    split at step
    · rename_i may
      cases step
      exact ⟨phases_of_tasks (same_table_store_byte s id a byte), here may.1.1 (by simp) (by simp)⟩
    · cases step
  | trap id regs =>
    simp only [machineStep] at step
    split at step
    · rename_i may
      cases step
      have saved : Phases s (saveFrame s id regs 0 34) id := by
        obtain ⟨_, tasks, count⟩ := save_frame_rest s id regs 0 34
        exact phases_of_tasks ⟨tasks, count⟩
      exact ⟨phases_trans saved (phased _ id _), here may.1.1 (by simp) (by simp)⟩
    · cases step
  | copyOut id a byte =>
    simp only [machineStep] at step
    split at step
    · rename_i may
      cases step
      exact ⟨phases_of_tasks (same_table_store_byte s id a byte), here may.1 (by decide) (by decide)⟩
    · cases step
  | serve id outcome =>
    simp only [machineStep] at step
    split at step
    · rename_i serving
      cases step
      refine ⟨?_, here serving (by decide) (by decide)⟩
      split
      · exact phases_local (sched_exit_spec s id).1
      · exact phases_trans phases_serve (phased _ id _)
    · cases step
  | deliver id =>
    simp only [machineStep] at step
    split at step
    · rename_i returning
      cases step
      refine ⟨?_, here returning (by decide) (by decide)⟩
      split
      · exact phases_deliver
      · exact phases_trans phases_deliver (phased _ id _)
    · cases step
  | resume id =>
    simp only [machineStep] at step
    split at step
    · rename_i forked
      cases step
      exact ⟨phased s id _, here forked (by decide) (by decide)⟩
    · cases step

theorem reached_bound (run : Reaches Booted (Taken (machineStep kstacks)) s) :
    ∀ k, s.numTasks ≤ k → (s.tasks k).phase = .idle := by
  apply reaches_invariant (fun u => ∀ k, u.numTasks ≤ k → (u.tasks k).phase = .idle) _ _ run
  · intro u booted k _
    rw [booted.tasks k, noTask]
  · intro u event v inv step k beyond
    obtain ⟨phases, whose⟩ := step_phases step
    have grows := phases.count
    by_cases own : k = event.task u
    · subst own
      rcases whose with ⟨new, more⟩ | ⟨_, busy⟩
      · omega
      · exact absurd (inv _ (by omega)) busy
    · rw [phases.others k own (Or.inr beyond)]
      exact inv k (by omega)

/-- A finished task stays finished, and none of its instructions is executed. -/
theorem finished_stays (inside : id < t.numTasks) (finished : (t.tasks id).phase = .finished) {u : Machine}
    (run : Reaches (· = t) (Taken (machineStep kstacks)) u) : (u.tasks id).phase = .finished ∧
      ∀ event : Event, event.AtEl0 id → machineStep kstacks u event = none := by
  have kept : (u.tasks id).phase = .finished := by
    apply reaches_persists (fun v => id < v.numTasks) (fun v => (v.tasks id).phase = .finished) _ _ inside
      finished run
    · intro v event w below step
      exact Nat.lt_of_lt_of_le below (step_phases step).1.count
    · intro v event w below now step
      obtain ⟨phases, whose⟩ := step_phases step
      have apart : id ≠ event.task v := by
        rintro rfl
        rcases whose with ⟨new, _⟩ | ⟨alive, _⟩
        · omega
        · exact alive now
      rw [phases.others id apart (Or.inl below)]
      exact now
  refine ⟨kept, ?_⟩
  intro event own
  have idle : ∀ spsr, ¬ AtEl0 (u.tasks id) spsr := by
    intro spsr user
    have at_ := user.1
    rw [kept] at at_
    cases at_
  cases event with
  | store k a byte =>
    obtain rfl : k = id := own
    simp only [machineStep]
    exact if_neg fun may => idle _ may.1
  | trap k regs =>
    obtain rfl : k = id := own
    simp only [machineStep]
    exact if_neg fun may => idle _ may.1
  | _ => cases own

theorem lowest_with_kill {pending : BitVec 32} (kill : pending.getLsbD sigkill = true) :
    0 < lowestPending pending ∧ lowestPending pending ≤ sigkill ∧
      pending.getLsbD (lowestPending pending) = true ∧
      ∀ i, 0 < i → i < lowestPending pending → pending.getLsbD i = false := by
  rw [lowest_pending_eq]
  have member : sigkill ∈ pendingSignals pending :=
    List.mem_filter.mpr ⟨List.mem_range'_1.mpr (by decide), kill⟩
  have sorted : (pendingSignals pending).Pairwise (· < ·) := List.Pairwise.filter _ List.pairwise_lt_range'
  cases signals : pendingSignals pending with
  | nil =>
    rw [signals] at member
    cases member
  | cons first rest =>
    have found : first ∈ pendingSignals pending := by
      rw [signals]
      exact List.mem_cons_self
    have least : ∀ i ∈ pendingSignals pending, first ≤ i := by
      intro i here
      rw [signals] at here sorted
      rcases List.mem_cons.mp here with same | later
      · exact Nat.le_of_eq same.symm
      · exact Nat.le_of_lt (List.rel_of_pairwise_cons sorted later)
    obtain ⟨positive, small, bit⟩ := pending_signals_lt found
    refine ⟨positive, least sigkill member, bit, ?_⟩
    intro i some below
    change i < first at below
    by_contra set
    have here : i ∈ pendingSignals pending :=
      List.mem_filter.mpr ⟨List.mem_range'_1.mpr (by omega), by simpa using set⟩
    have := least i here
    omega

theorem unshielded_iff {t : Task} (kill : t.pending.getLsbD sigkill = true) : Unshielded t ↔
    lowestPending t.pending = sigkill ∨ t.handlers (lowestPending t.pending) = sigDfl := by
  obtain ⟨some, most, bit, least⟩ := lowest_with_kill kill
  constructor
  · intro first
    by_cases lower : lowestPending t.pending = sigkill
    · exact Or.inl lower
    · exact Or.inr (first _ some (by omega) bit least)
  · intro either sig positive below set none
    have same : lowestPending t.pending = sig := by
      by_contra apart
      rcases Nat.lt_or_gt_of_ne apart with less | more
      · rw [none _ some less] at bit
        cases bit
      · rw [least sig positive more] at set
        cases set
    rw [same] at either
    exact either.resolve_left (by omega)

theorem deliver_with_kill (kill : (s.tasks id).pending.getLsbD sigkill = true)
    (returning : (s.tasks id).phase = .returning) :
    ((signalDeliver s id).tasks id).phase = .finished ↔ Unshielded (s.tasks id) := by
  obtain ⟨some, most, _⟩ := lowest_with_kill kill
  have alive : (s.tasks id).phase ≠ .finished := by
    rw [returning]
    decide
  rw [unshielded_iff kill]
  unfold signalDeliver
  dsimp only
  rw [if_neg (Nat.ne_of_gt some)]
  split
  · rename_i first
    exact ⟨fun _ => Or.inl first, fun _ => (sched_exit_spec _ id).2⟩
  · rename_i lower
    split
    · rename_i ign
      rw [set_task_self]
      refine ⟨fun finished => absurd finished alive, ?_⟩
      rintro (first | dfl)
      · exact absurd first lower
      · rw [ign] at dfl
        cases dfl
    · split
      · rename_i dfl
        refine ⟨fun _ => Or.inr dfl, fun _ => ?_⟩
        have child : lowestPending (s.tasks id).pending ≠ sigchld := by
          rw [sigkill] at most
          rw [sigchld]
          omega
        rw [signalDefaultAction, if_neg child]
        exact (sched_exit_spec _ id).2
      · rename_i dfl
        rw [(same_table_handle _ id _ _).1, set_task_self]
        refine ⟨fun finished => absurd finished alive, ?_⟩
        rintro (first | default)
        · exact absurd first lower
        · exact absurd default dfl

end Phases

theorem sigkill_ends_task_iff (kstacks : KernelStacks) (s : Machine)
    (run : Reaches Booted (Taken (machineStep kstacks)) s) (id : Nat)
    (returning : (s.tasks id).phase = .returning)
    (kill : (s.tasks id).pending.getLsbD sigkill = true) : Killed kstacks s id ↔ Unshielded (s.tasks id) := by
  have inside : id < s.numTasks := by
    by_contra beyond
    have idle := reached_bound run id (by omega)
    rw [returning] at idle
    cases idle
  rw [← deliver_with_kill kill returning]
  constructor
  · rintro ⟨t, step, finished, _⟩
    simp only [machineStep, returning, if_true] at step
    split at step
    · rename_i ends
      exact ends
    · cases step
      rw [set_phase_phase] at finished
      cases finished
  · intro ends
    have step : machineStep kstacks s (.deliver id) = some (signalDeliver s id) := by
      simp only [machineStep, returning, ends, if_true]
    refine ⟨_, step, ends, ?_⟩
    intro u rest
    exact finished_stays (Nat.lt_of_lt_of_le inside phases_deliver.count) ends rest

/-- Task 1 sets its handler for SIGHUP; task 2 sends it SIGHUP while the timer keeps it from
    running; then it sends itself SIGKILL. -/
def killEvents (handler : BitVec 64) : List Event :=
  [.create fun _ => 0, .create fun _ => 0, .start 1, .start 2,
    .trap 1 (svc 15 1 handler 0x7f0000), .serve 1 plain, .deliver 1,
    .trap 2 (svc 14 1 1 0x7f0000), .serve 2 plain,
    .trap 1 (svc 14 1 9 0x7f0000), .serve 1 plain]

theorem default_hangup_killed : ∃ s, Reaches Booted (Taken (machineStep exampleStacks)) s ∧
    lowestPending (s.tasks 1).pending = 1 ∧ Killed exampleStacks s 1 := by
  have look : (runActions (machineStep exampleStacks) bootMachine (killEvents 0)).any
      (fun s => decide ((s.tasks 1).phase = .returning ∧ (s.tasks 1).pending.getLsbD sigkill = true ∧
        lowestPending (s.tasks 1).pending = 1 ∧ (s.tasks 1).handlers 1 = sigDfl)) = true := by
    decide +kernel
  obtain ⟨s, run, found⟩ := (Option.any_eq_true _ _).mp look
  obtain ⟨returning, kill, lowest, dfl⟩ := of_decide_eq_true found
  have reached := reaches_of_actions (Reaches.start boot_machine_booted) run
  exact ⟨s, reached, lowest, (sigkill_ends_task_iff exampleStacks s reached 1 returning kill).mpr
    ((unshielded_iff kill).mpr (Or.inr (by rw [lowest]; exact dfl)))⟩

/-- A signal below SIGKILL that is ignored, or caught, takes the turn of SIGKILL. -/
theorem ignored_hangup_shields : ∃ s, Reaches Booted (Taken (machineStep exampleStacks)) s ∧
    (s.tasks 1).phase = .returning ∧ (s.tasks 1).pending.getLsbD sigkill = true ∧
    ¬ Killed exampleStacks s 1 := by
  have look : (runActions (machineStep exampleStacks) bootMachine (killEvents 1)).any
      (fun s => decide ((s.tasks 1).phase = .returning ∧ (s.tasks 1).pending.getLsbD sigkill = true ∧
        ¬ ((signalDeliver s 1).tasks 1).phase = .finished)) = true := by
    decide +kernel
  obtain ⟨s, run, found⟩ := (Option.any_eq_true _ _).mp look
  obtain ⟨returning, kill, alive⟩ := of_decide_eq_true found
  refine ⟨s, reaches_of_actions (Reaches.start boot_machine_booted) run, returning, kill, ?_⟩
  rintro ⟨t, step, finished, _⟩
  simp only [machineStep, returning, if_true, alive, if_false] at step
  cases step
  rw [set_phase_phase] at finished
  cases finished

end Archarch.Traps
