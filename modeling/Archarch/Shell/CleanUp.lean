import Archarch.Shell.Pipelines

/- What execute_line leaves behind in the shell when it returns: its descriptors, and the children
   that it has waited for. -/
namespace Archarch.Shell
open Descriptors LabelledRuns

/-- Back in main, by the end of the function or by the return behind "pipe failed". -/
def ShellPc.back : ShellPc → Bool
  | .returned | .failed => true
  | _ => false

/-- waited are the pids that execute_line has called wait with. -/
structure LineRun where
  job : JobState
  waited : List (Option Nat)

def waitCalled (s : JobState) : Event → List (Option Nat)
  | .shell _ _ _ _ =>
    match s.shell.pc with
    | .waits (pid :: _) => [pid]
    | _ => []
  | _ => []

def lineStep (job : Job) (s : LineRun) (event : Event) : Option LineRun :=
  (jobStep job s.job event).map fun t => ⟨t, s.waited ++ waitCalled s.job event⟩

def LineReached (job : Job) (start : JobState) : LineRun → Prop :=
  Reaches (· = ⟨start, []⟩) (Taken (lineStep job))

/-- The descriptors are those of the start, and wait was called on every child. -/
structure CleanedUp (job : Job) (start : JobState) (s : LineRun) : Prop where
  table : s.job.run.run.files.tables job.shell = start.run.run.files.tables job.shell
  waited : ∀ i kid, s.job.kids i = some kid → some kid.task ∈ s.waited

/-- The call of pipe fails, and it is not that of the first round. -/
def laterPipeFails (job : Job) (s : JobState) : Event → Prop
  | .shell a b c _ => s.shell.pc = .pipe ∧ s.shell.i + 1 < job.segments.length ∧ 0 < s.shell.i ∧
    (fdPipe s.run.run.files job.shell a b c).1 = none
  | _ => False

def WaitsSoFar (s : LineRun) : Prop :=
  match s.job.shell.pc with
  | .waits rest => s.waited ++ rest = s.job.shell.childPids
  | .returned | .failed | .gone => True
  | _ => s.waited = []

def ShellPc.early : ShellPc → Bool
  | .direct _ _ | .pipe | .fork | .closes _ | .closeLast => true
  | _ => false

theorem early_not_back {pc : ShellPc} (early : pc.early = true) : pc.back = false := by
  cases pc <;> first | rfl | cases early

inductive ShellMove (job : Job) (s t : JobState) (event : Event) : Prop where
  | still (same : t.shell = s.shell ∨ t.shell.pc = .gone) (quiet : waitCalled s event = [])
  | early (before : s.shell.pc.early = true) (after : t.shell.pc.early = true) (quiet : waitCalled s event = [])
  | starts (before : s.shell.pc = .closeLast) (after : t.shell = { s.shell with pc := .waits s.shell.childPids })
      (quiet : waitCalled s event = [])
  | waits (pid : Option Nat) (rest : List (Option Nat)) (before : s.shell.pc = .waits (pid :: rest))
      (after : t.shell = { s.shell with pc := .waits rest }) (called : waitCalled s event = [pid])
  | ends (before : s.shell.pc = .waits []) (after : t = { s with shell := { s.shell with pc := .returned } })
      (quiet : waitCalled s event = [])
  | direct (before : s.shell.pc = .direct .returned false)
      (after : t = { s with shell := { s.shell with pc := .returned } }) (quiet : waitCalled s event = [])
  | fails (before : s.shell.pc = .pipe) (after : t.shell = { s.shell with pc := .failed })
      (later : laterPipeFails job s event ↔ 0 < s.shell.i)
      (tables : t.run.run.files.tables = s.run.run.files.tables) (kids : t.kids = s.kids)

section Steps
variable {job : Job} {old : FdTable} {start : JobState} {s t : JobState} {event : Event}

theorem failed_pipe_move {a b c forks : Bool} {r : Option Int × FdRun} (inv : RunInv s.run.run)
    (pc : s.shell.pc = .pipe) (more : s.shell.i + 1 < job.segments.length)
    (done : perform job.fs s.run (.other (.pipe job.shell a b c)) = some r)
    (failed : (fdPipe s.run.run.files job.shell a b c).1 = none) :
    ShellMove job s { s with run := r.2, shell := { s.shell with pc := .failed } } (.shell a b c forks) := by
  obtain ⟨r', taken, _, same, _⟩ := perform_table_call inv done
  have unmoved : r.2.run.files.tables = s.run.run.files.tables := by
    rw [same]
    rcases pipe_tables taken with ⟨_, still, _⟩ | ⟨rfd, wfd, result, _⟩
    · exact still
    · rw [failed] at result
      cases result
  refine .fails pc rfl ?_ unmoved rfl
  simp only [laterPipeFails, pc, more, failed, true_and, and_true]

theorem early_waits_for_none {a b c forks : Bool} (early : s.shell.pc.early = true) :
    waitCalled s (.shell a b c forks) = [] := by
  unfold waitCalled
  cases pc : s.shell.pc with
  | waits pids =>
    rw [pc] at early
    cases early
  | _ => rfl

theorem shell_moves {a b c forks : Bool} (inv : RunInv s.run.run)
    (step : shellStep job s a b c forks = some t) : ShellMove job s t (.shell a b c forks) := by
  unfold shellStep at step
  split at step
  · rename_i pc
    have early : s.shell.pc.early = true := by rw [pc]; rfl
    unfold pipeStep at step
    split at step
    · rename_i more
      obtain ⟨r, done, same⟩ := Option.map_eq_some_iff.mp step
      split at same
      · rename_i failed
        cases same
        exact failed_pipe_move inv pc more done failed
      · cases same
        exact .early early rfl (early_waits_for_none early)
    · cases step
      exact .early early rfl (early_waits_for_none early)
  · rename_i pc
    have early : s.shell.pc.early = true := by rw [pc]; rfl
    unfold forkStep at step
    dsimp only at step
    split at step
    · obtain ⟨r, done, same⟩ := Option.map_eq_some_iff.mp step
      cases same
      exact .early early rfl (early_waits_for_none early)
    · cases step
      exact .early early rfl (early_waits_for_none early)
  · rename_i op rest pc
    have early : s.shell.pc.early = true := by rw [pc]; rfl
    obtain ⟨r, done, rfl⟩ := Option.map_eq_some_iff.mp step
    exact .early early rfl (early_waits_for_none early)
  · rename_i pc
    have early : s.shell.pc.early = true := by rw [pc]; rfl
    cases step
    refine .early early ?_ (early_waits_for_none early)
    dsimp only
    split
    · rfl
    · rfl
  · rename_i pc
    have early : s.shell.pc.early = true := by rw [pc]; rfl
    split at step
    · cases step
      exact .starts pc rfl (early_waits_for_none early)
    · obtain ⟨r, done, rfl⟩ := Option.map_eq_some_iff.mp step
      exact .starts pc rfl (early_waits_for_none early)
  · rename_i pid rest pc
    cases step
    refine .waits pid rest pc rfl ?_
    rw [waitCalled, pc]
  · rename_i pc
    cases step
    refine .ends pc rfl ?_
    rw [waitCalled, pc]
  · cases step

theorem job_step_moves (inv : RunInv s.run.run) (step : jobStep job s event = some t) :
    ShellMove job s t event := by
  cases event with
  | shell a b c forks => exact shell_moves inv step
  | direct input =>
    simp only [jobStep, directStep] at step
    split at step
    · rename_i pc
      cases step
      exact .direct pc rfl rfl
    · obtain ⟨r, _, rfl⟩ := Option.map_eq_some_iff.mp step
      exact .still (Or.inr rfl) rfl
    · rename_i pc _ _
      obtain ⟨r, _, rfl⟩ := Option.map_eq_some_iff.mp step
      refine .early ?_ rfl rfl
      rw [pc]
      rfl
    · cases step
  | kid i input => exact .still (shell_unmoved step (by simp) (by simp)) rfl
  | other call => exact .still (shell_unmoved step (by simp) (by simp)) rfl
  | killShell => exact .still (shell_unmoved step (by simp) (by simp)) rfl
  | killKid i => exact .still (shell_unmoved step (by simp) (by simp)) rfl

theorem waits_so_far_early {waited : List (Option Nat)} (before : s.shell.pc.early = true) :
    WaitsSoFar ⟨s, waited⟩ ↔ waited = [] := by
  unfold WaitsSoFar
  dsimp only
  split
  · rename_i pc
    rw [pc] at before
    cases before
  · rename_i pc
    rw [pc] at before
    cases before
  · rename_i pc
    rw [pc] at before
    cases before
  · rename_i pc
    rw [pc] at before
    cases before
  · exact Iff.rfl

theorem waits_so_far_step {waited : List (Option Nat)} (so_far : WaitsSoFar ⟨s, waited⟩)
    (move : ShellMove job s t event) : WaitsSoFar ⟨t, waited ++ waitCalled s event⟩ := by
  cases move with
  | still same quiet =>
    rw [quiet, List.append_nil]
    rcases same with same | gone
    · simp only [WaitsSoFar, same] at so_far ⊢
      exact so_far
    · simp only [WaitsSoFar, gone]
  | early before after quiet =>
    rw [quiet, List.append_nil]
    exact (waits_so_far_early after).mpr ((waits_so_far_early before).mp so_far)
  | starts before after quiet =>
    have none_ : waited = [] := (waits_so_far_early (by rw [before]; rfl)).mp so_far
    simp only [WaitsSoFar, after, quiet, none_, List.append_nil, List.nil_append]
  | waits pid rest before after called =>
    simp only [WaitsSoFar, before] at so_far
    simp only [WaitsSoFar, after, called, List.append_assoc, List.singleton_append]
    exact so_far
  | ends before after quiet =>
    subst after
    simp only [WaitsSoFar]
  | direct before after quiet =>
    subst after
    simp only [WaitsSoFar]
  | fails before after later tables kids => simp only [WaitsSoFar, after]

end Steps

section Lines
variable {job : Job} {start : JobState} {s t : LineRun} {event : Event}

theorem line_reached_job (run : LineReached job start s) : JobRun job start s.job := by
  induction run with
  | start here =>
    subst here
    exact Reaches.start rfl
  | next run taken ih =>
    obtain ⟨u, step, rfl⟩ := Option.map_eq_some_iff.mp taken
    exact Reaches.next ih step

theorem waits_so_far_start (begun : JobStart job start) : WaitsSoFar ⟨start, []⟩ := by
  simp only [WaitsSoFar, begun.shell]
  cases planLine job.line <;> simp only [startShell]

theorem line_reached_waits (begun : JobStart job start) (run : LineReached job start s) : WaitsSoFar s := by
  induction run with
  | start here =>
    subst here
    exact waits_so_far_start begun
  | next run taken ih =>
    obtain ⟨u, step, rfl⟩ := Option.map_eq_some_iff.mp taken
    have wired := (standing_run begun (line_reached_job run)).wired
    exact waits_so_far_step ih (job_step_moves wired.kept.run step)

theorem child_pid (standing : Standing job (start.run.run.files.tables job.shell) s.job) {i : Nat} {kid : Kid}
    (here : s.job.kids i = some kid) : some kid.task ∈ s.job.shell.childPids :=
  List.mem_of_getElem? ((standing.wired.placed.pids i kid.task).mpr ⟨kid, here, rfl⟩)

theorem round_table_differs {old : FdTable} {ends : Nat → Option Ends} {n : Nat} {l : Locals} {table : FdTable}
    (fits : AtPipe old ends n l table) (later : 0 < l.i) : table ≠ old := by
  obtain ⟨_, made, _, prev, same⟩ := fits
  cases fd : l.prevReadFd with
  | none =>
    have first := prev.open_.mp fd
    omega
  | some fd' =>
    obtain ⟨j, round⟩ : ∃ j, l.i = j + 1 := ⟨l.i - 1, by omega⟩
    have free := prev.free fd' fd
    have known : (ends j).isSome := (made j).mpr (by omega)
    obtain ⟨e, found⟩ := Option.isSome_iff_exists.mp known
    have held : table fd' = some (.heap e.read) := by
      rw [same, fd, roundTable, Function.update_self, round, in_ptr_succ, readPtr, found]
      rfl
    intro equal
    rw [equal, free] at held
    cases held

theorem back_clean_iff {u : JobState} (standing : Standing job (start.run.run.files.tables job.shell) s.job)
    (so_far : WaitsSoFar s) (move : ShellMove job s.job u event) (inside : s.job.shell.pc.back = false)
    (back : u.shell.pc.back = true) :
    CleanedUp job start ⟨u, s.waited ++ waitCalled s.job event⟩ ↔ ¬ laterPipeFails job s.job event := by
  have fits := standing.wired.placed.shell
  have no_pipe : s.job.shell.pc ≠ .pipe → ¬ laterPipeFails job s.job event := by
    intro other failed
    cases event with
    | shell a b c forks => exact other failed.1
    | _ => exact failed
  cases move with
  | still same quiet =>
    rcases same with same | gone
    · rw [same, inside] at back
      cases back
    · rw [gone] at back
      cases back
  | early before after quiet =>
    rw [early_not_back after] at back
    cases back
  | starts before after quiet =>
    rw [after] at back
    cases back
  | waits pid rest before after called =>
    rw [after] at back
    cases back
  | ends before after quiet =>
    subst after
    rw [ShellFits, before] at fits
    simp only [WaitsSoFar, before, List.append_nil] at so_far
    refine iff_of_true ⟨fits.2, ?_⟩ (no_pipe (by simp [before]))
    intro i kid here
    rw [quiet, List.append_nil, so_far]
    exact child_pid standing here
  | direct before after quiet =>
    subst after
    rw [ShellFits, before] at fits
    refine iff_of_true ⟨fits.2.2, ?_⟩ (no_pipe (by simp [before]))
    intro i kid here
    have known := child_pid standing here
    rw [fits.2.1] at known
    cases known
  | fails before after later tables kids =>
    rw [ShellFits, before] at fits
    rw [later]
    constructor
    · intro clean behind
      apply round_table_differs fits behind
      rw [← clean.table]
      exact (congrFun tables job.shell).symm
    · intro first
      have zero : s.job.shell.i = 0 := by omega
      have noPrev : s.job.shell.prevReadFd = none := fits.prev.open_.mpr zero
      have noPids : s.job.shell.childPids = [] := List.eq_nil_of_length_eq_zero (fits.pids.trans zero)
      constructor
      · dsimp only
        rw [tables, fits.table, noPrev]
        rfl
      · intro i kid here
        rw [kids] at here
        have known := child_pid standing here
        rw [noPids] at known
        cases known

end Lines

/-- Whenever execute_line returns, it leaves the descriptors as they were and has waited for all
    its children, exactly if it does not return from a call of pipe that fails behind the first
    round; a line that it returns from at once is one without a command. -/
theorem shell_cleans_up_iff {job : Job} {start : JobState} (begun : JobStart job start) :
    (start.shell.pc.back = true → CleanedUp job start ⟨start, []⟩) ∧
      ∀ s event t, LineReached job start s → lineStep job s event = some t → s.job.shell.pc.back = false →
        t.job.shell.pc.back = true → (CleanedUp job start t ↔ ¬ laterPipeFails job s.job event) := by
  constructor
  · intro _
    refine ⟨rfl, fun i kid here => ?_⟩
    rw [begun.kids] at here
    cases here
  · intro s event t run step inside back
    have standing := standing_run begun (line_reached_job run)
    obtain ⟨u, taken, rfl⟩ := Option.map_eq_some_iff.mp step
    exact back_clean_iff standing (line_reached_waits begun run) (job_step_moves standing.wired.kept.run taken)
      inside back

/-- A line of two commands up to its last wait, and the return. -/
theorem echo_to_wc_cleans_up : ∃ s t, LineReached (firstJob echoLine) (firstStart echoLine) s ∧
    lineStep (firstJob echoLine) s shellGoes = some t ∧ t.job.shell.pc.back = true ∧
      CleanedUp (firstJob echoLine) (firstStart echoLine) t := by
  have look : (runActions (lineStep (firstJob echoLine)) ⟨firstStart echoLine, []⟩
      (echoRun.take (echoRun.length - 1))).any (fun s =>
        decide (s.job.shell.pc.back = false ∧ s.waited.length = 2) &&
          (lineStep (firstJob echoLine) s shellGoes).any fun t => decide (t.job.shell.pc.back = true)) = true := by
    decide +kernel
  obtain ⟨s, done, found⟩ := (Option.any_eq_true _ _).mp look
  obtain ⟨before, after⟩ := (Bool.and_eq_true _ _).mp found
  obtain ⟨t, step, returned⟩ := (Option.any_eq_true _ _).mp after
  obtain ⟨inside, waited⟩ := of_decide_eq_true before
  have back := of_decide_eq_true returned
  have run : LineReached (firstJob echoLine) (firstStart echoLine) s :=
    reaches_of_actions (Reaches.start rfl) done
  have clean := (shell_cleans_up_iff (first_start echoLine)).2 s shellGoes t run step inside back
  refine ⟨s, t, run, step, back, clean.mpr ?_⟩
  intro failed
  -- two pids have been waited for, so the shell is not in front of a pipe
  have none_ : s.waited = [] := by
    have so_far := line_reached_waits (first_start echoLine) run
    rw [WaitsSoFar, failed.1] at so_far
    exact so_far
  rw [none_] at waited
  cases waited

def threeSegments : List Char := ['a', '|', 'b', '|', 'c']

/-- The pipe of the second round fails: the read end of the first stays open at descriptor 3, and
    nobody waits for the child of the first segment. -/
theorem failed_pipe_leaks : ∃ s, LineReached (firstJob threeSegments) (firstStart threeSegments) s ∧
    s.job.shell.pc.back = true ∧ s.job.run.run.files.tables 0 3 = some (.heap 0) ∧ s.waited = [] ∧
      (s.job.kids 0).isSome = true ∧ ¬ CleanedUp (firstJob threeSegments) (firstStart threeSegments) s := by
  have look : (runActions (lineStep (firstJob threeSegments)) ⟨firstStart threeSegments, []⟩
      [shellGoes, shellGoes, shellGoes, shellGoes, .shell false true true true]).any (fun s =>
        decide (s.job.shell.pc.back = true ∧ s.job.run.run.files.tables 0 3 = some (.heap 0) ∧ s.waited = [] ∧
          (s.job.kids 0).isSome = true)) = true := by
    decide +kernel
  obtain ⟨s, done, found⟩ := (Option.any_eq_true _ _).mp look
  obtain ⟨back, leaked, waited, child⟩ := of_decide_eq_true found
  refine ⟨s, reaches_of_actions (Reaches.start rfl) done, back, leaked, waited, child, ?_⟩
  intro clean
  have closed : (firstStart threeSegments).run.run.files.tables 0 3 = none := rfl
  have same : s.job.run.run.files.tables 0 3 = (firstStart threeSegments).run.run.files.tables 0 3 :=
    congrFun clean.table 3
  rw [leaked, closed] at same
  cases same

end Archarch.Shell
