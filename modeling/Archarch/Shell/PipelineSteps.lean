import Archarch.Shell.PipelineRuns

/- The steps in which a line gets its pipes and its children, and the steps of all other tasks. -/
namespace Archarch.Shell
open Descriptors LabelledRuns

section Pipes
variable {job : Job} {old : FdTable} {s : JobState} {ends : Nat → Option Ends} {i j m : Nat} {e : Ends}

theorem line_file_new (none_ : ends i = none) :
    LineFile (Function.update ends i (some e)) m ↔ LineFile ends m ∨ m = e.read ∨ m = e.write := by
  constructor
  · rintro ⟨j, d, found, which⟩
    rw [Function.update_apply] at found
    split at found
    · cases found
      exact Or.inr which
    · exact Or.inl ⟨j, d, found, which⟩
  · rintro (⟨j, d, found, which⟩ | which)
    · have other : j ≠ i := by
        rintro rfl
        rw [none_] at found
        cases found
      exact ⟨j, d, by rw [Function.update_of_ne other]; exact found, which⟩
    · exact ⟨i, e, Function.update_self _ _ _, which⟩

theorem near_new (before : j < i) (near : Near ends j m) : Near (Function.update ends i (some e)) j m := by
  rcases near with ⟨d, found, which⟩ | ⟨k, d, next, found, which⟩
  · exact Or.inl ⟨d, by rw [Function.update_of_ne (by omega)]; exact found, which⟩
  · exact Or.inr ⟨k, d, next, by rw [Function.update_of_ne (by omega)]; exact found, which⟩

theorem in_ptr_new (old : FdTable) (before : j ≤ i) : inPtr old (Function.update ends i (some e)) j = inPtr old ends j := by
  cases j with
  | zero => rfl
  | succ j => rw [in_ptr_succ, in_ptr_succ, readPtr, readPtr, Function.update_of_ne (by omega)]

theorem command_table_new (old : FdTable) (n : Nat) (before : j < i) :
    commandTable old (Function.update ends i (some e)) n j = commandTable old ends n j := by
  rw [commandTable, commandTable, in_ptr_new old (by omega), outPtr, outPtr, writePtr, writePtr,
    Function.update_of_ne (by omega)]

theorem kid_fits_new {n : Nat} {table : FdTable} {pc : KidPc} (none_ : ends i = none) (before : j < i)
    (unheld : ∀ fd m, table fd = some (.heap m) → m ≠ e.read ∧ m ≠ e.write)
    (fits : KidFits old ends n j table pc) : KidFits old (Function.update ends i (some e)) n j table pc := by
  obtain ⟨inside, input, output, whole⟩ := fits
  refine ⟨inside, ?_, ?_, ?_⟩
  · rw [in_ptr_new old (by omega)]
    exact input
  · rw [Function.update_of_ne (by omega)]
    exact output
  · cases pc with
    | wiring rest =>
      obtain ⟨carries, leads⟩ := whole
      refine ⟨?_, ?_⟩
      · intro fd m holds line
        obtain ⟨noRead, noWrite⟩ := unheld fd m holds
        rcases (line_file_new none_).mp line with before_ | new | new
        · exact near_new before (carries fd m holds before_)
        · exact absurd new noRead
        · exact absurd new noWrite
      · rw [command_table_new old n before]
        exact leads
    | command stage =>
      have opened : Opened ends (commandTable old ends n j) stage table := whole
      unfold Opened at opened
      rw [KidTable, Opened, command_table_new old n before]
      split at opened
      · exact opened
      · obtain ⟨k, m, number, vacant, free, same⟩ := opened
        have holds : table k = some (.heap m) := by rw [same, Function.update_self]
        obtain ⟨noRead, noWrite⟩ := unheld k m holds
        refine ⟨k, m, number, vacant, ?_, same⟩
        intro line
        rcases (line_file_new none_).mp line with before_ | new | new
        · exact free before_
        · exact noRead new
        · exact noWrite new
    | exited => exact whole

theorem ends_kept_new {f g : FilesRun} {caller parent : Option Nat} {task rfd wfd : Nat} (inv : RunInv f)
    (kept : EndsKept ends f.files) (framed : Framed caller parent f g)
    (made : PipeMade f.files g.files task rfd wfd) (first : ∀ j d, ends j = some d → j < i) :
    EndsKept (Function.update ends i (some (.after f.files))) g.files := by
  have before := ends_kept_framed kept framed
  have files := made.nextFile
  have pipes := made.nextPipe
  have readShape : g.files.shape f.files.nextFile = some (endShape f.files.nextPipe oRdonly) := by
    rw [made.shape, Function.update_of_ne (by omega), Function.update_self]
  have writeShape : g.files.shape (f.files.nextFile + 1) = some (endShape f.files.nextPipe oWronly) := by
    rw [made.shape, Function.update_self]
  constructor
  · intro j d found
    rw [Function.update_apply] at found
    split at found
    · cases found
      dsimp only [Ends.after]
      omega
    · exact before.old j d found
  · intro j k d e found later order
    rw [Function.update_apply] at found later
    split at later
    · cases later
      rw [if_neg (by omega)] at found
      exact (kept.old j d found).2
    · split at found
      · have low := first k e later
        omega
      · exact kept.apart j k d e found later order
  · intro j d sh found here
    rw [Function.update_apply] at found
    split at found
    · cases found
      exact (Option.some.inj (readShape.symm.trans here)).symm
    · exact before.read j d sh found here
  · intro j d sh found here
    rw [Function.update_apply] at found
    split at found
    · cases found
      exact (Option.some.inj (writeShape.symm.trans here)).symm
    · exact before.write j d sh found here
  · intro j d m flags found here
    rw [Function.update_apply] at found
    split at found
    · cases found
      dsimp only [Ends.after] at here ⊢
      by_cases second : m = f.files.nextFile + 1
      · exact Or.inr second
      · by_cases which : m = f.files.nextFile
        · exact Or.inl which
        · rw [made.shape, Function.update_of_ne second, Function.update_of_ne which] at here
          obtain ⟨p, live⟩ := (end_pipe_live inv.files.ends here).2
          have low := live_pipe_old inv.files.ends live
          omega
    · exact before.only j d m flags found here

theorem ends_none {k : Nat} (made : ∀ j, (ends j).isSome ↔ j < k) : ends k = none := by
  rw [← Option.not_isSome_iff_eq_none, made k]
  exact Nat.lt_irrefl k

theorem waits_old {f : FilesRun} {u : Nat} {c : PipeCall} (inv : RunInv f) (waiting : f.calls u = some c) :
    c.pipe < f.files.nextPipe := by
  obtain ⟨_, m, flags, _, isEnd⟩ := inv.holding u c waiting
  obtain ⟨p, live⟩ := (end_pipe_live inv.files.ends isEnd).2
  exact live_pipe_old inv.files.ends live

theorem round_free {n : Nat} {x : Nat} {prevReadFd : Option Nat} (input : (inPtr old ends n).isSome)
    (vacant : roundTable old ends n prevReadFd x = none) : old x = none ∧ prevReadFd ≠ some x := by
  cases prevReadFd with
  | none => exact ⟨vacant, by simp⟩
  | some fd =>
    rw [roundTable, Function.update_apply] at vacant
    split at vacant
    · rw [vacant] at input
      cases input
    · rename_i other
      refine ⟨vacant, ?_⟩
      rintro ⟨⟩
      exact other rfl

theorem round_input (stdin : old 0 = some .console) (made : ∀ j, j < i → (ends j).isSome) :
    (inPtr old ends i).isSome := by
  cases i with
  | zero =>
    rw [inPtr, stdin]
    rfl
  | succ k =>
    rw [in_ptr_succ, readPtr, Option.isSome_map]
    exact made k (Nat.lt_succ_self k)

theorem kid_early (placed : Placed job old s) (pids : s.shell.childPids.length = s.shell.i) {u : Nat}
    (who : KidIs s j u) : j < s.shell.i := by
  obtain ⟨low, _⟩ := List.getElem?_eq_some_iff.mp ((placed.pids j u).mpr who)
  omega

def JobState.withPipe (s : JobState) (run : FdRun) (fds : Nat × Nat) : JobState :=
  { s with
    run := run
    ends := Function.update s.ends s.shell.i (some (.after s.run.run.files))
    shell := { s.shell with pc := .fork, pipefd := some fds } }

section Made
variable {fds : Nat × Nat} {run : FdRun}

theorem made_unheld (kept : Kept job old s) {u fd : Nat} (holds : s.run.run.files.tables u fd = some (.heap m)) :
    m ≠ (Ends.after s.run.run.files).read ∧ m ≠ (Ends.after s.run.run.files).write := by
  have low := held_old kept.run.files holds
  dsimp only [Ends.after]
  omega

theorem made_unmoved (made : PipeMade s.run.run.files run.run.files job.shell fds.1 fds.2) {u : Nat}
    (other : u ≠ job.shell) : run.run.files.tables u = s.run.run.files.tables u := by
  rw [made.tables]
  exact (Function.update_of_ne other _ _).trans (Function.update_of_ne other _ _)

theorem kept_pipe (wired : Wired job old s) (pc : s.shell.pc = .pipe) (more : s.shell.i + 1 < job.segments.length)
    (tabled : Tabled (some job.shell) none s.run.run run.run)
    (pipe : PipeMade s.run.run.files run.run.files job.shell fds.1 fds.2) : Kept job old (s.withPipe run fds) := by
  have kept := wired.kept
  have fits := wired.placed.shell
  rw [ShellFits, pc] at fits
  have made := fits.made
  have none_ := ends_none made
  have framed := tabled.framed
  refine ⟨kept.stdin, kept.stdout, tabled.inv, ?_, ?_, ?_, ?_, ?_, ?_⟩
  · apply ends_kept_new kept.run kept.ends framed pipe
    intro j d found
    exact (made j).mp (by rw [found]; rfl)
  · intro j d found
    dsimp only [JobState.withPipe] at found
    rw [Function.update_apply] at found
    split at found
    · rename_i at_
      rw [at_]
      exact more
    · exact kept.within j d found
  · intro fd m holds
    obtain ⟨low, free⟩ := kept.plain fd m holds
    refine ⟨Nat.lt_of_lt_of_le low framed.nextFile, ?_⟩
    intro line
    rcases (line_file_new none_).mp line with before | new | new
    · exact free before
    · dsimp only [Ends.after] at new
      omega
    · dsimp only [Ends.after] at new
      omega
  · exact Nat.lt_of_lt_of_le kept.shellTask framed.numTasks
  · intro u foreign fd m holds line
    have other : u ≠ job.shell := fun same => foreign (Or.inl ⟨same, rfl⟩)
    have before : ¬ Party job s u := by
      rintro (⟨same, _⟩ | who)
      · exact other same
      · exact foreign (Or.inr who)
    dsimp only [JobState.withPipe] at holds
    rw [made_unmoved pipe other] at holds
    obtain ⟨noRead, noWrite⟩ := made_unheld kept holds
    rcases (line_file_new none_).mp line with old_ | new | new
    · exact kept.others u before fd m holds old_
    · exact noRead new
    · exact noWrite new
  · intro u c j e waiting found at_
    dsimp only [JobState.withPipe] at waiting found
    rw [tabled.calls] at waiting
    have low := waits_old kept.run waiting
    rw [Function.update_apply] at found
    split at found
    · cases found
      dsimp only [Ends.after] at at_
      omega
    · have side := kept.pending u c j e waiting found at_
      cases c with
      | reading q count => exact side
      | writing q rest count => exact side

theorem at_fork_pipe (wired : Wired job old s) (pc : s.shell.pc = .pipe) (more : s.shell.i + 1 < job.segments.length)
    (pipe : PipeMade s.run.run.files run.run.files job.shell fds.1 fds.2) :
    AtFork old (s.withPipe run fds).ends job.segments.length (s.withPipe run fds).shell
      (run.run.files.tables job.shell) := by
  have fits := wired.placed.shell
  rw [ShellFits, pc] at fits
  obtain ⟨inside, made, pids, prev, table⟩ := fits
  have input := round_input wired.kept.stdin fun j low => (made j).mpr low
  refine ⟨inside, ?_, pids, prev, ⟨?_, ?_⟩, ?_⟩
  · intro j
    dsimp only [JobState.withPipe]
    rw [Function.update_apply]
    split
    · rename_i at_
      rw [at_]
      simp [more]
    · rename_i other
      rw [made j]
      omega
  · simp [more, JobState.withPipe]
  · rintro rfd wfd ⟨⟩
    have vacantRead := pipe.read.2
    have vacantWrite := pipe.write.2
    rw [table] at vacantRead vacantWrite
    obtain ⟨noRead, prevRead⟩ := round_free input vacantRead
    obtain ⟨noWrite, prevWrite⟩ := round_free input vacantWrite
    exact ⟨pipe.apart, noRead, noWrite, prevRead, prevWrite⟩
  · have row : run.run.files.tables job.shell = Function.update (Function.update
        (s.run.run.files.tables job.shell) fds.1 (some (.heap s.run.run.files.nextFile))) fds.2
        (some (.heap (s.run.run.files.nextFile + 1))) := by
      rw [pipe.tables]
      simp [Files.setSlot]
    dsimp only [JobState.withPipe]
    rw [row, table, forkTable, readPtr, writePtr, Function.update_self]
    congr 2
    cases s.shell.prevReadFd with
    | none => rfl
    | some fd => rw [roundTable, roundTable, in_ptr_new old (Nat.le_refl _)]

theorem placed_pipe (wired : Wired job old s) (pc : s.shell.pc = .pipe) (more : s.shell.i + 1 < job.segments.length)
    (tabled : Tabled (some job.shell) none s.run.run run.run)
    (pipe : PipeMade s.run.run.files run.run.files job.shell fds.1 fds.2) : Placed job old (s.withPipe run fds) := by
  have placed := wired.placed
  have fits := placed.shell
  rw [ShellFits, pc] at fits
  refine ⟨at_fork_pipe wired pc more pipe, ?_, placed.named, placed.pids, placed.apart, ?_⟩
  · intro j kid found
    have fitsKid := placed.kids j kid found
    have early := kid_early placed fits.pids ⟨kid, found, rfl⟩
    dsimp only [JobState.withPipe] at found ⊢
    rw [made_unmoved pipe (placed.tasks j kid.task ⟨kid, found, rfl⟩).2]
    exact kid_fits_new (ends_none fits.made) early (fun fd m holds => made_unheld wired.kept holds) fitsKid
  · intro j u who
    obtain ⟨low, other⟩ := placed.tasks j u who
    exact ⟨Nat.lt_of_lt_of_le low tabled.framed.numTasks, other⟩

theorem logged_pipe (wired : Wired job old s) (pc : s.shell.pc = .pipe)
    (tabled : Tabled (some job.shell) none s.run.run run.run) : Logged (s.withPipe run fds) := by
  have fits := wired.placed.shell
  rw [ShellFits, pc] at fits
  obtain ⟨noWritten, noReturned⟩ := wired.kept.run.unborn s.run.run.files.nextPipe (Nat.le_refl _)
  obtain ⟨noSent, noGot⟩ := wired.logged.blank s.shell.i (ends_none fits.made)
  constructor
  · intro j e found
    dsimp only [JobState.withPipe] at found ⊢
    rw [tabled.written, tabled.returned]
    rw [Function.update_apply] at found
    split at found
    · rename_i at_
      cases found
      rw [at_]
      exact ⟨noWritten.trans noSent.symm, noReturned.trans noGot.symm⟩
    · exact wired.logged.bytes j e found
  · intro j none'
    dsimp only [JobState.withPipe] at none'
    rw [Function.update_apply] at none'
    split at none'
    · cases none'
    · exact wired.logged.blank j none'

end Made

theorem wired_pipe {fds : Nat × Nat} {r : Option Int × FdRun} {a b c : Bool} (wired : Wired job old s)
    (pc : s.shell.pc = .pipe) (more : s.shell.i + 1 < job.segments.length)
    (done : perform job.fs s.run (.other (.pipe job.shell a b c)) = some r)
    (opened : (fdPipe s.run.run.files job.shell a b c).1 = some fds) : Wired job old (s.withPipe r.2 fds) := by
  obtain ⟨r', taken, _, same, tabled⟩ := perform_table_call wired.kept.run done
  have pipe : PipeMade s.run.run.files r.2.run.files job.shell fds.1 fds.2 := by
    rcases pipe_tables taken with ⟨failed, _⟩ | ⟨rfd, wfd, result, pipe⟩
    · rw [opened] at failed
      cases failed
    · rw [opened] at result
      cases result
      rw [same]
      exact pipe
  constructor
  · exact kept_pipe wired pc more tabled pipe
  · exact placed_pipe wired pc more tabled pipe
  · exact logged_pipe wired pc tabled

theorem wired_pipe_fails {r : Option Int × FdRun} {a b c : Bool} (wired : Wired job old s)
    (pc : s.shell.pc = .pipe) (done : perform job.fs s.run (.other (.pipe job.shell a b c)) = some r)
    (failed : (fdPipe s.run.run.files job.shell a b c).1 = none) :
    Wired job old { s with run := r.2, shell := { s.shell with pc := .failed } } := by
  have fits := wired.placed.shell
  rw [ShellFits, pc] at fits
  obtain ⟨_, _, _, prev, table⟩ := fits
  obtain ⟨r', taken, _, same, tabled⟩ := perform_table_call wired.kept.run done
  have unmoved : r.2.run.files.tables = s.run.run.files.tables := by
    rcases pipe_tables taken with ⟨_, still, _⟩ | ⟨rfd, wfd, result, _⟩
    · rw [same]
      exact still
    · rw [failed] at result
      cases result
  apply wired_shell_tabled wired tabled
  · exact fun _ _ => Iff.rfl
  · dsimp only [ShellFits]
    rw [unmoved, table]
    exact round_carries (plain_clean wired) prev
  · rintro ⟨⟩

theorem wired_last_segment (wired : Wired job old s) (pc : s.shell.pc = .pipe)
    (last : ¬ s.shell.i + 1 < job.segments.length) :
    Wired job old { s with shell := { s.shell with pc := .fork, pipefd := none } } := by
  have fits := wired.placed.shell
  rw [ShellFits, pc] at fits
  obtain ⟨inside, made, pids, prev, table⟩ := fits
  apply wired_shell_tabled wired (tabled_refl wired _)
  · exact fun _ _ => Iff.rfl
  · refine ⟨inside, ?_, pids, prev, ⟨?_, ?_⟩, table⟩
    · intro j
      rw [made j]
      dsimp only
      omega
    · simp [last]
    · rintro rfd wfd ⟨⟩
  · rintro ⟨⟩

end Pipes

section Forks
variable {job : Job} {old : FdTable} {s t : JobState} {n : Nat}

theorem at_closes_of_fork {l : Locals} {table : FdTable} {ends : Nat → Option Ends} {pid : Option Nat}
    (plain : ∀ fd m, old fd = some (.heap m) → ¬ LineFile ends m) (fork : AtFork old ends n l table) :
    AtCloses old ends n { l with
        pc := .closes (parentOps l.prevReadFd l.pipefd)
        childPids := l.childPids ++ [pid] } table (parentOps l.prevReadFd l.pipefd) := by
  obtain ⟨inside, made, pids, prev, pipe, whole⟩ := fork
  refine ⟨inside, made, ?_, pipe, ?_, ?_⟩
  · rw [List.length_append, pids]
    rfl
  · rw [whole]
    exact fork_carries plain prev
  · rw [whole]
    exact parent_ops_lead prev pipe

theorem wired_fork_fails (wired : Wired job old s) (pc : s.shell.pc = .fork) :
    Wired job old { s with shell := { s.shell with
      pc := .closes (parentOps s.shell.prevReadFd s.shell.pipefd)
      childPids := s.shell.childPids ++ [none] } } := by
  have fits := wired.placed.shell
  rw [ShellFits, pc] at fits
  apply wired_shell_tabled wired (tabled_refl wired _)
  · intro j u
    dsimp only
    rw [List.getElem?_append]
    split
    · exact Iff.rfl
    · rename_i beyond
      rw [List.getElem?_eq_none (show s.shell.childPids.length ≤ j by omega)]
      constructor
      · intro found
        rcases List.getElem?_eq_some_iff.mp found with ⟨low, same⟩
        simp at same
      · rintro ⟨⟩
  · exact at_closes_of_fork (plain_clean wired) fits
  · rintro ⟨⟩

def JobState.withKid (job : Job) (s : JobState) (run : FdRun) : JobState :=
  { s with
    run := run
    kids := Function.update s.kids s.shell.i (some ⟨s.run.run.files.numTasks,
      (job.segments[s.shell.i]?).getD [], .wiring (childOps s.shell.prevReadFd s.shell.pipefd)⟩)
    shell := { s.shell with
      pc := .closes (parentOps s.shell.prevReadFd s.shell.pipefd)
      childPids := s.shell.childPids ++ [some s.run.run.files.numTasks] } }

section Forked
variable {run : FdRun} {j u : Nat}

theorem kid_is_forked (placed : Placed job old s) (pids : s.shell.childPids.length = s.shell.i) :
    KidIs (s.withKid job run) j u ↔ KidIs s j u ∨ j = s.shell.i ∧ u = s.run.run.files.numTasks := by
  unfold KidIs
  dsimp only [JobState.withKid]
  rw [Function.update_apply]
  split
  · rename_i at_
    constructor
    · rintro ⟨kid, ⟨⟩, rfl⟩
      exact Or.inr ⟨at_, rfl⟩
    · rintro (⟨kid, found, rfl⟩ | ⟨_, rfl⟩)
      · have low := kid_early placed pids ⟨kid, found, rfl⟩
        omega
      · exact ⟨_, rfl, rfl⟩
  · rename_i other
    simp [other]

theorem fork_stepped (wired : Wired job old s) (pids : s.shell.childPids.length = s.shell.i)
    (tabled : Tabled (some job.shell) (some job.shell) s.run.run run.run) :
    Stepped job (some job.shell) (some job.shell) s (s.withKid job run) := by
  have is : ∀ j u, KidIs s j u → KidIs (s.withKid job run) j u :=
    fun j u who => (kid_is_forked wired.placed pids).mpr (Or.inl who)
  refine ⟨tabled.inv, tabled.framed, rfl, is, ?_, ?_, ?_⟩
  · rintro u (⟨mine, _⟩ | ⟨j, who⟩) notParty
    · exact absurd (Or.inl ⟨mine, rfl⟩) notParty
    · exact absurd (Or.inr ⟨j, is j u who⟩) notParty
  · intro v _ _
    exact Or.inr ⟨s.shell.i, (kid_is_forked wired.placed pids).mpr (Or.inr ⟨rfl, rfl⟩)⟩
  · intro u c j e mine waiting found at_
    dsimp only [JobState.withKid] at waiting found
    rw [tabled.calls] at waiting
    have side := wired.kept.pending u c j e waiting found at_
    cases c with
    | reading q count => exact is _ _ side
    | writing q rest count => exact is _ _ side

theorem kid_fits_forked (wired : Wired job old s) (pc : s.shell.pc = .fork) :
    KidFits old s.ends job.segments.length s.shell.i (s.run.run.files.tables job.shell)
      (.wiring (childOps s.shell.prevReadFd s.shell.pipefd)) := by
  have kept := wired.kept
  have fits := wired.placed.shell
  rw [ShellFits, pc] at fits
  obtain ⟨inside, made, _, prev, pipe, whole⟩ := fits
  have input := round_input kept.stdin fun j low => (made j).mpr (Or.inl low)
  have output : s.shell.i + 1 < job.segments.length → (s.ends s.shell.i).isSome :=
    fun more => (made s.shell.i).mpr (Or.inr ⟨rfl, more⟩)
  refine ⟨inside, input, output, ?_, ?_⟩
  · rw [whole]
    exact fork_carries (plain_clean wired) prev
  · rw [whole]
    apply child_ops_lead kept.stdin kept.stdout prev pipe input
    intro more
    rw [writePtr, Option.isSome_map]
    exact output more

theorem placed_fork (wired : Wired job old s) (pc : s.shell.pc = .fork)
    (tables : run.run.files.tables = Function.update s.run.run.files.tables s.run.run.files.numTasks
      (s.run.run.files.tables job.shell))
    (numTasks : run.run.files.numTasks = s.run.run.files.numTasks + 1) : Placed job old (s.withKid job run) := by
  have kept := wired.kept
  have placed := wired.placed
  have fits := placed.shell
  rw [ShellFits, pc] at fits
  have closes := @at_closes_of_fork _ _ _ _ _ (some s.run.run.files.numTasks) (plain_clean wired) fits
  obtain ⟨inside, _, pids, _⟩ := fits
  have is : ∀ {j u}, KidIs (s.withKid job run) j u ↔ KidIs s j u ∨ j = s.shell.i ∧ u = s.run.run.files.numTasks :=
    kid_is_forked placed pids
  have unmoved : ∀ u, u < s.run.run.files.numTasks → run.run.files.tables u = s.run.run.files.tables u := by
    intro u low
    rw [tables]
    exact Function.update_of_ne (by omega) _ _
  refine ⟨?_, ?_, ?_, ?_, ?_, ?_⟩
  · dsimp only [JobState.withKid]
    rw [unmoved job.shell kept.shellTask]
    exact closes
  · intro j kid found
    dsimp only [JobState.withKid] at found ⊢
    rw [Function.update_apply] at found
    split at found
    · rename_i at_
      cases found
      dsimp only
      rw [at_, tables, Function.update_self]
      exact kid_fits_forked wired pc
    · rw [unmoved kid.task (placed.tasks j kid.task ⟨kid, found, rfl⟩).1]
      exact placed.kids j kid found
  · intro j kid found
    dsimp only [JobState.withKid] at found
    rw [Function.update_apply] at found
    split at found
    · rename_i at_
      cases found
      rw [at_, List.getElem?_eq_getElem inside]
      rfl
    · exact placed.named j kid found
  · intro j u
    rw [is]
    dsimp only [JobState.withKid]
    rw [← placed.pids j u, List.getElem?_append]
    split
    · rename_i low
      constructor
      · exact Or.inl
      · rintro (named | ⟨rfl, _⟩)
        · exact named
        · omega
    · rename_i high
      rw [List.getElem?_eq_none (show s.shell.childPids.length ≤ j by omega)]
      by_cases last : j = s.shell.i
      · rw [last, pids, Nat.sub_self]
        simp [eq_comm]
      · rw [List.getElem?_eq_none (by simp only [List.length_singleton]; omega)]
        simp [last]
  · intro j k u first second
    rcases is.mp first with one | ⟨atJ, new⟩
    · rcases is.mp second with two | ⟨atK, new⟩
      · exact placed.apart j k u one two
      · have low := (placed.tasks j u one).1
        omega
    · rcases is.mp second with two | ⟨atK, _⟩
      · have low := (placed.tasks k u two).1
        omega
      · omega
  · intro j u who
    have shellTask := kept.shellTask
    dsimp only [JobState.withKid]
    rw [numTasks]
    rcases is.mp who with one | ⟨_, new⟩
    · obtain ⟨low, other⟩ := placed.tasks j u one
      exact ⟨by omega, other⟩
    · exact ⟨by omega, by omega⟩

end Forked

theorem wired_fork {r : Option Int × FdRun} (wired : Wired job old s) (pc : s.shell.pc = .fork)
    (done : perform job.fs s.run (.other (.fork job.shell)) = some r) : Wired job old (s.withKid job r.2) := by
  have fits := wired.placed.shell
  rw [ShellFits, pc] at fits
  obtain ⟨r', taken, _, same, tabled⟩ := perform_table_call wired.kept.run done
  obtain ⟨tables, _, numTasks⟩ := fork_tables wired.kept.run wired.kept.shellTask taken
  rw [← same] at tables numTasks
  constructor
  · exact kept_stepped wired.kept (fork_stepped wired fits.pids tabled)
  · exact placed_fork wired pc tables numTasks
  · exact logged_same wired.logged rfl tabled.written tabled.returned rfl rfl

end Forks

section Others
variable {job : Job} {old : FdTable} {s t : JobState} {call : FdCall} {r : Option Int × FdRun}

theorem parent_is_caller {v : Nat} (parent : call.parent = some v) : call.caller = some v := by
  cases call with
  | other call =>
    cases call with
    | fork task => exact parent
    | _ => cases parent
  | _ => cases parent

theorem foreign_no_party (wired : Wired job old s) (from_ : foreign job s call) {u : Nat}
    (caller : call.caller = some u) : ¬ Party job s u := by
  rw [foreign, caller] at from_
  obtain ⟨noChild, returned⟩ := from_
  rintro (⟨mine, inside⟩ | ⟨i, who⟩)
  · rw [returned mine] at inside
    cases inside
  · exact noChild (List.mem_of_getElem? ((wired.placed.pids i u).mpr who))

theorem foreign_moves (wired : Wired job old s) (from_ : foreign job s call) {j : Nat} {e : Ends}
    (found : s.ends j = some e) :
    ¬ (moved s.run.run call).1 e.pipe ∧ ¬ (moved s.run.run call).2 e.pipe := by
  have unheld : ∀ u fd, call.caller = some u → ¬ EndAt s.run.run.files u fd e.pipe := by
    intro u fd caller here
    obtain ⟨m, slot, which⟩ := end_at_line wired found here
    exact wired.kept.others u (foreign_no_party wired from_ caller) _ m slot ⟨j, e, found, which⟩
  have idle : ∀ u c, call.caller = some u → s.run.run.calls u = some c → c.pipe ≠ e.pipe := by
    intro u c caller waiting at_
    have side := wired.kept.pending u c j e waiting found at_
    apply foreign_no_party wired from_ caller
    cases c with
    | reading q count => exact Or.inr ⟨j + 1, side⟩
    | writing q rest count => exact Or.inr ⟨j, side⟩
  cases call with
  | other call => exact ⟨fun none_ => none_, fun none_ => none_⟩
  | read task fd buf args space => exact ⟨unheld task fd rfl, fun none_ => none_⟩
  | write task fd src => exact ⟨fun none_ => none_, unheld task fd rfl⟩
  | resume task space =>
    constructor
    · rintro ⟨count, waiting⟩
      exact idle task _ rfl waiting rfl
    · rintro ⟨rest, count, waiting⟩
      exact idle task _ rfl waiting rfl

theorem wired_other (wired : Wired job old s) (from_ : foreign job s call)
    (done : perform job.fs s.run call = some r) : Wired job old { s with run := r.2 } := by
  obtain ⟨may, taken⟩ := perform_some done
  have kept := wired.kept
  have placed := wired.placed
  have framed := call_framed kept.run may taken
  have mine : ∀ u, some u = call.caller → ¬ Party job s u := fun u same => foreign_no_party wired from_ same.symm
  have step : Stepped job call.caller call.parent s { s with run := r.2 } := by
    refine ⟨fd_call_inv kept.run may taken, framed, rfl, fun _ _ who => who, fun u before after => absurd before after,
      ?_, ?_⟩
    · intro v parent party
      exact absurd party (foreign_no_party wired from_ (parent_is_caller parent))
    · intro u c j e caller waiting found at_
      dsimp only at waiting found
      obtain ⟨noReads, noWrites⟩ := foreign_moves wired from_ found
      rcases call_waits kept.run may taken caller waiting with before | within
      · exact kept.pending u c j e before found at_
      · cases c with
        | reading q count =>
          have same : q = e.pipe := at_
          rw [same] at within
          exact absurd within noReads
        | writing q rest count =>
          have same : q = e.pipe := at_
          rw [same] at within
          exact absurd within noWrites
  refine ⟨kept_stepped kept step, ?_, ?_⟩
  · refine ⟨?_, ?_, placed.named, placed.pids, placed.apart, ?_⟩
    · by_cases inside : s.shell.pc.isReturned = true
      · have returned : s.shell.pc = .returned := by
          cases pc : s.shell.pc <;> rw [pc] at inside <;> first | rfl | cases inside
        dsimp only [ShellFits]
        rw [returned]
        trivial
      · have other : some job.shell ≠ call.caller :=
          fun same => mine job.shell same (Or.inl ⟨rfl, Bool.eq_false_of_not_eq_true inside⟩)
        dsimp only
        rw [framed.tables job.shell other kept.shellTask]
        exact placed.shell
    · intro j kid found
      have who : KidIs s j kid.task := ⟨kid, found, rfl⟩
      have other : some kid.task ≠ call.caller := fun same => mine kid.task same (Or.inr ⟨j, who⟩)
      dsimp only
      rw [framed.tables kid.task other (placed.tasks j kid.task who).1]
      exact placed.kids j kid found
    · intro j u who
      obtain ⟨low, apart⟩ := placed.tasks j u who
      exact ⟨Nat.lt_of_lt_of_le low framed.numTasks, apart⟩
  · constructor
    · intro j e found
      obtain ⟨noReads, noWrites⟩ := foreign_moves wired from_ found
      obtain ⟨returned, written, _⟩ := histories_grow kept.run may taken e.pipe
      dsimp only
      rw [written noWrites, returned noReads]
      exact wired.logged.bytes j e found
    · exact wired.logged.blank

end Others

section Runs
variable {job : Job} {old : FdTable} {s t start : JobState}

theorem segments_some {cmdline : Text} {segments : List Text} (chain : planLine cmdline = .chain segments) :
    0 < segments.length := by
  unfold planLine at chain
  split at chain
  · cases chain
    rw [maxSegments, parseSegments]
    split
    · exact Nat.succ_pos _
    · exact Nat.one_pos
  · dsimp only at chain
    split at chain
    · cases chain
    · split at chain <;> cases chain

theorem wired_start (begun : JobStart job start) :
    Wired job (start.run.run.files.tables job.shell) start := by
  have inv := fd_reached_inv begun.reached
  have noEnds : ∀ j, start.ends j = none := fun j => by rw [begun.ends]
  have noKids : ∀ i, start.kids i = none := fun i => by rw [begun.kids]
  have noLine : ∀ m, ¬ LineFile start.ends m := by
    rintro m ⟨j, e, found, _⟩
    rw [noEnds j] at found
    cases found
  have noKid : ∀ i u, ¬ KidIs start i u := by
    rintro i u ⟨kid, found, _⟩
    rw [noKids i] at found
    cases found
  have noPids : start.shell.childPids = [] := by
    rw [begun.shell]
    rfl
  refine ⟨⟨begun.stdin, begun.stdout, inv, ?_, ?_, ?_, begun.idle.1, ?_, ?_⟩, ⟨?_, ?_, ?_, ?_, ?_, ?_⟩, ?_⟩
  · constructor <;> intro i <;> simp [noEnds]
  · intro j e found
    rw [noEnds j] at found
    cases found
  · intro fd m holds
    exact ⟨held_old inv.files holds, noLine m⟩
  · intro u _ fd m _
    exact noLine m
  · intro u c j e _ found
    rw [noEnds j] at found
    cases found
  · unfold ShellFits
    cases plan : planLine job.line with
    | nothing =>
      rw [begun.shell, plan]
      trivial
    | exit =>
      rw [begun.shell, plan]
      exact ⟨noEnds, rfl, rfl⟩
    | direct cmd =>
      rw [begun.shell, plan]
      refine ⟨noEnds, rfl, ?_⟩
      cases parseCommand cmd <;> rfl
    | chain parts =>
      rw [begun.shell, plan]
      have segments : job.segments = parts := by rw [Job.segments, plan]
      refine ⟨?_, ?_, rfl, ⟨by simp [startShell], by simp [startShell]⟩, rfl⟩
      · rw [segments]
        exact segments_some plan
      · intro j
        simp [noEnds, startShell]
  · intro i kid found
    rw [noKids i] at found
    cases found
  · intro i kid found
    rw [noKids i] at found
    cases found
  · intro i u
    rw [noPids]
    simp [noKid]
  · intro i j u first
    exact absurd first (noKid i u)
  · intro i u who
    exact absurd who (noKid i u)
  · constructor
    · intro j e found
      rw [noEnds j] at found
      cases found
    · intro j _
      rw [begun.sent, begun.got]
      exact ⟨rfl, rfl⟩

theorem wired_shell {a b c forks : Bool} (wired : Wired job old s)
    (step : shellStep job s a b c forks = some t) : Wired job old t := by
  unfold shellStep at step
  split at step
  · rename_i pc
    unfold pipeStep at step
    split at step
    · rename_i more
      obtain ⟨r, done, same⟩ := Option.map_eq_some_iff.mp step
      split at same
      · rename_i failed
        cases same
        exact wired_pipe_fails wired pc done failed
      · rename_i fds opened
        cases same
        exact wired_pipe wired pc more done opened
    · rename_i last
      cases step
      exact wired_last_segment wired pc last
  · rename_i pc
    unfold forkStep at step
    dsimp only at step
    split at step
    · obtain ⟨r, done, same⟩ := Option.map_eq_some_iff.mp step
      cases same
      exact wired_fork wired pc done
    · cases step
      exact wired_fork_fails wired pc
  · rename_i op rest pc
    obtain ⟨r, done, rfl⟩ := Option.map_eq_some_iff.mp step
    exact wired_closes wired pc done
  · rename_i pc
    cases step
    exact wired_next_round wired pc
  · rename_i pc
    obtain ⟨shut, after⟩ := wired_close_last wired pc
    rw [shut] at step
    cases step
    exact after
  · rename_i tid rest pc
    cases step
    exact wired_waits wired pc
  · rename_i pc
    cases step
    exact wired_return wired pc
  · cases step

theorem wired_step {event : Event} (wired : Wired job old s) (step : jobStep job s event = some t) :
    Wired job old t := by
  cases event with
  | shell a b c forks => exact wired_shell wired step
  | direct input => exact wired_direct wired step
  | kid i input =>
    obtain ⟨kid, here, taken⟩ := Option.bind_eq_some_iff.mp step
    exact wired_kid wired here taken
  | other call =>
    simp only [jobStep] at step
    split at step
    · rename_i from_
      obtain ⟨r, done, rfl⟩ := Option.map_eq_some_iff.mp step
      exact wired_other wired from_ done
    · cases step
  | killShell =>
    obtain ⟨r, done, rfl⟩ := Option.map_eq_some_iff.mp step
    exact wired_kill_shell wired done
  | killKid i =>
    obtain ⟨kid, here, taken⟩ := Option.bind_eq_some_iff.mp step
    obtain ⟨r, done, rfl⟩ := Option.map_eq_some_iff.mp taken
    exact wired_kill_kid wired here done

end Runs
end Archarch.Shell
