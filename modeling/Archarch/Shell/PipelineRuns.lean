import Archarch.Shell.Wiring

/- What holds in every state of a run of execute_line: which descriptors refer to the ends of the
   pipes of the line, and where the bytes in these pipes come from and go to. -/
namespace Archarch.Shell
open Descriptors LabelledRuns

structure EndsKept (ends : Nat → Option Ends) (s : Files) : Prop where
  old : ∀ i e, ends i = some e → e.write = e.read + 1 ∧ e.write < s.nextFile ∧ e.pipe < s.nextPipe
  apart : ∀ i j e f, ends i = some e → ends j = some f → i < j → e.write < f.read ∧ e.pipe < f.pipe
  read : ∀ i e sh, ends i = some e → s.shape e.read = some sh → sh = endShape e.pipe oRdonly
  write : ∀ i e sh, ends i = some e → s.shape e.write = some sh → sh = endShape e.pipe oWronly
  only : ∀ i e m flags, ends i = some e → s.shape m = some (endShape e.pipe flags) → m = e.read ∨ m = e.write

def KidIs (s : JobState) (i task : Nat) : Prop := ∃ kid, s.kids i = some kid ∧ kid.task = task

def Party (job : Job) (s : JobState) (task : Nat) : Prop :=
  (task = job.shell ∧ s.shell.pc.isReturned = false) ∨ ∃ i, KidIs s i task

def Clean (s : JobState) (task : Nat) : Prop :=
  ∀ fd m, s.run.run.files.tables task fd = some (.heap m) → ¬ LineFile s.ends m

def AtEnd (s : JobState) (j task : Nat) : PipeCall → Prop
  | .reading _ _ => KidIs s (j + 1) task
  | .writing _ _ _ => KidIs s j task

structure Kept (job : Job) (old : FdTable) (s : JobState) : Prop where
  stdin : old 0 = some .console
  stdout : old 1 = some .console
  run : RunInv s.run.run
  ends : EndsKept s.ends s.run.run.files
  within : ∀ j e, s.ends j = some e → j + 1 < job.segments.length
  plain : ∀ fd m, old fd = some (.heap m) → m < s.run.run.files.nextFile ∧ ¬ LineFile s.ends m
  shellTask : job.shell < s.run.run.files.numTasks
  others : ∀ u, ¬ Party job s u → Clean s u
  pending : ∀ u c j e, s.run.run.calls u = some c → s.ends j = some e → c.pipe = e.pipe → AtEnd s j u c

/-- A step that makes no pipe of the line, by caller; parent is the task it forks. -/
structure Stepped (job : Job) (caller parent : Option Nat) (s t : JobState) : Prop where
  inv : RunInv t.run.run
  framed : Framed caller parent s.run.run t.run.run
  ends : t.ends = s.ends
  kids : ∀ i u, KidIs s i u → KidIs t i u
  parties : ∀ u, Party job s u → ¬ Party job t u → Clean t u
  parent : ∀ v, parent = some v → Party job s v → Party job t s.run.run.files.numTasks
  waits : ∀ u c j e, caller = some u → t.run.run.calls u = some c → t.ends j = some e → c.pipe = e.pipe →
    AtEnd t j u c

section Keeping
variable {job : Job} {old : FdTable} {s t : JobState} {caller parent : Option Nat} {ends : Nat → Option Ends}

theorem line_file_old {f : Files} {m : Nat} (kept : EndsKept ends f) (line : LineFile ends m) : m < f.nextFile := by
  obtain ⟨i, e, found, which⟩ := line
  obtain ⟨next, low, _⟩ := kept.old i e found
  omega

theorem ends_kept_framed {f g : FilesRun} (kept : EndsKept ends f.files) (framed : Framed caller parent f g) :
    EndsKept ends g.files := by
  have same : ∀ m sh, m < f.files.nextFile → g.files.shape m = some sh → f.files.shape m = some sh := by
    intro m sh low here
    rcases framed.shapes m sh here with before | new
    · exact before
    · omega
  constructor
  · intro i e found
    obtain ⟨next, file, pipe⟩ := kept.old i e found
    exact ⟨next, Nat.lt_of_lt_of_le file framed.nextFile, Nat.lt_of_lt_of_le pipe framed.nextPipe⟩
  · exact kept.apart
  · intro i e sh found here
    obtain ⟨next, file, _⟩ := kept.old i e found
    exact kept.read i e sh found (same _ sh (by omega) here)
  · intro i e sh found here
    obtain ⟨_, file, _⟩ := kept.old i e found
    exact kept.write i e sh found (same _ sh file here)
  · intro i e m flags found here
    rcases framed.shapes m _ here with before | ⟨_, fresh⟩
    · exact kept.only i e m flags found before
    · have low := (kept.old i e found).2.2
      have high := fresh e.pipe rfl
      omega

theorem kept_stepped (kept : Kept job old s) (step : Stepped job caller parent s t) : Kept job old t := by
  have framed := step.framed
  constructor
  · exact kept.stdin
  · exact kept.stdout
  · exact step.inv
  · rw [step.ends]
    exact ends_kept_framed kept.ends framed
  · rw [step.ends]
    exact kept.within
  · intro fd m holds
    obtain ⟨low, free⟩ := kept.plain fd m holds
    rw [step.ends]
    exact ⟨Nat.lt_of_lt_of_le low framed.nextFile, free⟩
  · exact Nat.lt_of_lt_of_le kept.shellTask framed.numTasks
  · intro u foreign
    by_cases before : Party job s u
    · exact step.parties u before foreign
    · intro fd m holds line
      rw [step.ends] at line
      rcases framed.pointers u fd m holds with new | ⟨fd', mine⟩ | ⟨forked, v, fd', source, theirs⟩
      · have low := line_file_old kept.ends line
        omega
      · exact kept.others u before fd' m mine line
      · by_cases own : Party job s v
        · rw [forked] at foreign
          exact foreign (step.parent v source own)
        · exact kept.others v own fd' m theirs line
  · intro u c j e waiting found pipe
    by_cases mine : some u = caller
    · exact step.waits u c j e mine.symm waiting found pipe
    · rw [framed.calls u mine] at waiting
      rw [step.ends] at found
      have before := kept.pending u c j e waiting found pipe
      cases c with
      | reading q count => exact step.kids _ _ before
      | writing q rest count => exact step.kids _ _ before

end Keeping

def Stage.fd : Stage → Option Int
  | .copying fd | .putting fd | .closing fd => some fd
  | _ => none

def Opened (ends : Nat → Option Ends) (command : FdTable) (stage : Stage) (table : FdTable) : Prop :=
  match stage.fd with
  | none => table = command
  | some fd => ∃ k m : Nat, fd = k ∧ command k = none ∧ ¬ LineFile ends m ∧
    table = Function.update command k (some (.heap m))

def KidTable (old : FdTable) (ends : Nat → Option Ends) (n i : Nat) (table : FdTable) : KidPc → Prop
  | .wiring rest => Carries ends i table ∧ Leads (commandTable old ends n i) rest table
  | .command stage => Opened ends (commandTable old ends n i) stage table
  | .exited => ∀ fd, table fd = none

structure KidFits (old : FdTable) (ends : Nat → Option Ends) (n i : Nat) (table : FdTable) (pc : KidPc) :
    Prop where
  inside : i < n
  input : (inPtr old ends i).isSome
  output : i + 1 < n → (ends i).isSome
  table : KidTable old ends n i table pc

structure AtPipe (old : FdTable) (ends : Nat → Option Ends) (n : Nat) (l : Locals) (table : FdTable) : Prop where
  inside : l.i < n
  made : ∀ j, (ends j).isSome ↔ j < l.i
  pids : l.childPids.length = l.i
  prev : PrevFits old l.i l.prevReadFd
  table : table = roundTable old ends l.i l.prevReadFd

structure AtFork (old : FdTable) (ends : Nat → Option Ends) (n : Nat) (l : Locals) (table : FdTable) : Prop where
  inside : l.i < n
  made : ∀ j, (ends j).isSome ↔ j < l.i ∨ j = l.i ∧ l.i + 1 < n
  pids : l.childPids.length = l.i
  prev : PrevFits old l.i l.prevReadFd
  pipe : PipeFits old n l.i l.prevReadFd l.pipefd
  table : table = forkTable old ends l.i l.prevReadFd l.pipefd

structure AtCloses (old : FdTable) (ends : Nat → Option Ends) (n : Nat) (l : Locals) (table : FdTable)
    (rest : List FdOp) : Prop where
  inside : l.i < n
  made : ∀ j, (ends j).isSome ↔ j < l.i ∨ j = l.i ∧ l.i + 1 < n
  pids : l.childPids.length = l.i + 1
  pipe : PipeFits old n l.i l.prevReadFd l.pipefd
  carries : Carries ends l.i table
  leads : Leads (roundTable old ends (l.i + 1) (l.pipefd.map Prod.fst)) rest table

def ShellFits (old : FdTable) (ends : Nat → Option Ends) (n : Nat) (l : Locals) (table : FdTable) : Prop :=
  match l.pc with
  | .direct stage _ => (∀ j, ends j = none) ∧ l.childPids = [] ∧ Opened ends old stage table
  | .pipe => AtPipe old ends n l table
  | .fork => AtFork old ends n l table
  | .closes rest => AtCloses old ends n l table rest
  | .closeLast => l.childPids.length = n ∧ l.prevReadFd = none ∧ table = old
  | .waits _ => l.childPids.length = n ∧ table = old
  | .returned => True
  | .failed => Carries ends l.i table
  | .gone => ∀ fd, table fd = none

structure Placed (job : Job) (old : FdTable) (s : JobState) : Prop where
  shell : ShellFits old s.ends job.segments.length s.shell (s.run.run.files.tables job.shell)
  kids : ∀ i kid, s.kids i = some kid →
    KidFits old s.ends job.segments.length i (s.run.run.files.tables kid.task) kid.pc
  named : ∀ i kid, s.kids i = some kid → job.segments[i]? = some kid.segment
  pids : ∀ i task, s.shell.childPids[i]? = some (some task) ↔ KidIs s i task
  apart : ∀ i j u, KidIs s i u → KidIs s j u → i = j
  tasks : ∀ i u, KidIs s i u → u < s.run.run.files.numTasks ∧ u ≠ job.shell

structure Logged (s : JobState) : Prop where
  bytes : ∀ j e, s.ends j = some e → s.run.run.written e.pipe = s.sent j ∧ s.run.run.returned e.pipe = s.got (j + 1)
  blank : ∀ j, s.ends j = none → s.sent j = [] ∧ s.got (j + 1) = []

structure Wired (job : Job) (old : FdTable) (s : JobState) : Prop where
  kept : Kept job old s
  placed : Placed job old s
  logged : Logged s

section Calls
variable {fs : Fat16.Fs} {s : FdRun} {call : FdCall} {task : Nat} {r : Option Int × FdRun}

theorem perform_some (done : perform fs s call = some r) : callable s call ∧ fdCall fs s call = some r := by
  unfold perform at done
  split at done
  · rename_i may
    exact ⟨may, done⟩
  · cases done

structure Tabled (caller parent : Option Nat) (s t : FilesRun) : Prop where
  inv : RunInv t
  framed : Framed caller parent s t
  calls : t.calls = s.calls
  written : t.written = s.written
  returned : t.returned = s.returned

theorem perform_table_call {call : FileCall} (inv : RunInv s.run) (done : perform fs s (.other call) = some r) :
    ∃ r', fileCall s.run call = some r' ∧ r.1 = r'.1 ∧ r.2.run = r'.2 ∧
      Tabled call.caller call.parent s.run r.2.run := by
  obtain ⟨may, step⟩ := perform_some done
  obtain ⟨r', taken, same, framed, calls, written, returned⟩ := table_call_frame inv may step
  have after := fd_call_inv inv may step
  refine ⟨r', taken, ?_, same, ?_⟩
  · obtain ⟨r'', taken', rfl⟩ := Option.map_eq_some_iff.mp step
    rw [taken] at taken'
    cases taken'
    rfl
  · rw [same] at after ⊢
    exact ⟨after, framed, calls, written, returned⟩

theorem perform_op {op : FdOp} (inv : RunInv s.run) (may : task < s.run.files.numTasks)
    (ready : op.ready (s.run.files.tables task)) (done : perform fs s (op.call task) = some r) :
    Tabled (some task) none s.run r.2.run ∧
      r.2.run.files.tables task = op.apply (s.run.files.tables task) := by
  cases op with
  | dup2 oldfd newfd =>
    obtain ⟨r', taken, _, same, tabled⟩ := perform_table_call inv done
    obtain ⟨from_, apart, inside⟩ := ready
    obtain ⟨ptr, holds⟩ := Option.isSome_iff_exists.mp from_
    refine ⟨tabled, ?_⟩
    rw [same, dup2_tables inv may apart inside holds taken, FdOp.apply, holds]
    exact Function.update_self _ _ _
  | close fd =>
    obtain ⟨r', taken, _, same, tabled⟩ := perform_table_call inv done
    refine ⟨tabled, ?_⟩
    rw [same, close_tables inv taken]
    exact Function.update_self _ _ _

theorem perform_exit (inv : RunInv s.run) (done : perform fs s (.other (.exit task)) = some r) :
    Tabled (some task) none s.run r.2.run ∧ ∀ fd, r.2.run.files.tables task fd = none := by
  obtain ⟨r', taken, _, same, tabled⟩ := perform_table_call inv done
  refine ⟨tabled, ?_⟩
  rw [same]
  exact (exit_tables inv taken).1

end Calls

section Kids
variable {job : Job} {old : FdTable} {s t : JobState} {i : Nat} {kid : Kid} {pc : KidPc}

theorem kid_is_set (here : s.kids i = some kid) (kids : t.kids = setKid s i kid pc) (j u : Nat) :
    KidIs t j u ↔ KidIs s j u := by
  unfold KidIs
  rw [kids, setKid, Function.update_apply]
  split
  · rename_i at_
    rw [at_, here]
    simp
  · exact Iff.rfl

theorem party_set (here : s.kids i = some kid) (kids : t.kids = setKid s i kid pc) (shell : t.shell = s.shell)
    (u : Nat) : Party job t u ↔ Party job s u := by
  unfold Party
  rw [shell]
  simp only [kid_is_set here kids]

theorem logged_same (logged : Logged s) (ends : t.ends = s.ends) (written : t.run.run.written = s.run.run.written)
    (returned : t.run.run.returned = s.run.run.returned) (sent : t.sent = s.sent) (got : t.got = s.got) :
    Logged t := by
  constructor
  · rw [ends, written, returned, sent, got]
    exact logged.bytes
  · rw [ends, sent, got]
    exact logged.blank

theorem wired_kid_step {caller : Option Nat} (wired : Wired job old s) (here : s.kids i = some kid)
    (kids : t.kids = setKid s i kid pc) (shell : t.shell = s.shell) (ends : t.ends = s.ends)
    (inv : RunInv t.run.run) (framed : Framed caller none s.run.run t.run.run)
    (mine : ∀ u, caller = some u → u = kid.task)
    (waits : ∀ c j e, t.run.run.calls kid.task = some c → s.ends j = some e → c.pipe = e.pipe →
      AtEnd s j kid.task c) (logged : Logged t)
    (table : KidTable old s.ends job.segments.length i (t.run.run.files.tables kid.task) pc) :
    Wired job old t := by
  have placed := wired.placed
  have is := kid_is_set here kids
  have unmoved : ∀ u, u ≠ kid.task → u < s.run.run.files.numTasks →
      t.run.run.files.tables u = s.run.run.files.tables u :=
    fun u other low => framed.tables u (fun same => other (mine u same.symm)) low
  have me : KidIs s i kid.task := ⟨kid, here, rfl⟩
  have step : Stepped job caller none s t := by
    refine ⟨inv, framed, ends, fun j u => (is j u).mpr, ?_, by simp, ?_⟩
    · intro u before after
      exact absurd ((party_set here kids shell u).mpr before) after
    · intro u c j e called waiting found pipe
      have same := mine u called
      subst same
      rw [ends] at found
      have at_ := waits c j e waiting found pipe
      cases c with
      | reading q count => exact (is _ _).mpr at_
      | writing q rest count => exact (is _ _).mpr at_
  refine ⟨kept_stepped wired.kept step, ?_, logged⟩
  constructor
  · rw [shell, ends, unmoved job.shell (placed.tasks i kid.task me).2.symm wired.kept.shellTask]
    exact placed.shell
  · intro j other found
    rw [ends]
    rw [kids, setKid, Function.update_apply] at found
    split at found
    · rename_i at_
      cases found
      obtain ⟨inside, input, output, _⟩ := placed.kids i kid here
      rw [at_]
      exact ⟨inside, input, output, table⟩
    · rename_i at_
      have apart : other.task ≠ kid.task := by
        intro same
        exact at_ (placed.apart j i kid.task ⟨other, found, same⟩ me)
      rw [unmoved other.task apart (placed.tasks j other.task ⟨other, found, rfl⟩).1]
      exact placed.kids j other found
  · intro j other found
    rw [kids, setKid, Function.update_apply] at found
    split at found
    · rename_i at_
      cases found
      rw [at_]
      exact placed.named i kid here
    · exact placed.named j other found
  · intro j u
    rw [shell, is]
    exact placed.pids j u
  · intro j k u first second
    exact placed.apart j k u ((is j u).mp first) ((is k u).mp second)
  · intro j u who
    obtain ⟨low, other⟩ := placed.tasks j u ((is j u).mp who)
    exact ⟨Nat.lt_of_lt_of_le low framed.numTasks, other⟩

theorem wired_kid_tabled (wired : Wired job old s) (here : s.kids i = some kid) {run : FdRun}
    (tabled : Tabled (some kid.task) none s.run.run run.run)
    (table : KidTable old s.ends job.segments.length i (run.run.files.tables kid.task) pc) :
    Wired job old { s with run := run, kids := setKid s i kid pc } := by
  apply wired_kid_step (t := { s with run := run, kids := setKid s i kid pc }) wired here rfl rfl rfl tabled.inv
    tabled.framed
  · rintro u ⟨⟩
    rfl
  · intro c j e waiting found pipe
    dsimp only at waiting
    rw [tabled.calls] at waiting
    exact wired.kept.pending kid.task c j e waiting found pipe
  · exact logged_same wired.logged rfl tabled.written tabled.returned rfl rfl
  · exact table

end Kids

def Takes (s : FilesRun) (task : Nat) (stage : Stage) (q : Nat) : Prop :=
  EndAt s.files task 0 q ∨ (∃ fd, stage.fd = some fd ∧ EndAt s.files task fd q) ∨
    ∃ count, s.calls task = some (.reading q count)

def Puts (s : FilesRun) (task q : Nat) : Prop :=
  EndAt s.files task 1 q ∨ ∃ rest count, s.calls task = some (.writing q rest count)

structure CommandMoves (ends : Nat → Option Ends) (command : FdTable) (s t : FilesRun) (task : Nat)
    (stage next : Stage) : Prop where
  inv : RunInv t
  framed : ∃ caller, (∀ u, caller = some u → u = task) ∧ Framed caller none s t
  opened : Opened ends command next (t.files.tables task)
  returned : ∀ q, ¬ Takes s task stage q → t.returned q = s.returned q
  written : ∀ q, ¬ Puts s task q → t.written q = s.written q
  took : ∀ q, s.returned q <+: t.returned q
  put : ∀ q, s.written q <+: t.written q
  waits : ∀ c, t.calls task = some c → c.On (Takes s task stage) (Puts s task)

section Commands
variable {fs : Fat16.Fs} {s : FdRun} {ends : Nat → Option Ends} {command : FdTable} {task : Nat}
variable {stage next : Stage} {input : Input} {r : Option Int × FdRun}

theorem opened_congr {table : FdTable} (same : next.fd = stage.fd) (opened : Opened ends command stage table) :
    Opened ends command next table := by
  unfold Opened at opened ⊢
  rw [same]
  exact opened

theorem command_moves_still {t : FilesRun} (tabled : Tabled none none s.run t ∨ Tabled (some task) none s.run t)
    (opened : Opened ends command next (t.files.tables task)) :
    CommandMoves ends command s.run t task stage next := by
  have same : RunInv t ∧ (∃ caller, (∀ u, caller = some u → u = task) ∧ Framed caller none s.run t) ∧
      t.calls = s.run.calls ∧ t.written = s.run.written ∧ t.returned = s.run.returned := by
    rcases tabled with tabled | tabled
    · exact ⟨tabled.inv, ⟨none, by simp, tabled.framed⟩, tabled.calls, tabled.written, tabled.returned⟩
    · exact ⟨tabled.inv, ⟨some task, by simp, tabled.framed⟩, tabled.calls, tabled.written, tabled.returned⟩
  obtain ⟨inv, framed, calls, written, returned⟩ := same
  refine ⟨inv, framed, opened, ?_, ?_, ?_, ?_, ?_⟩
  · intro q _
    rw [returned]
  · intro q _
    rw [written]
  · intro q
    rw [returned]
  · intro q
    rw [written]
  · intro c waiting
    rw [calls] at waiting
    cases c with
    | reading q count => exact Or.inr (Or.inr ⟨count, waiting⟩)
    | writing q rest count => exact Or.inr ⟨rest, count, waiting⟩

theorem command_moves_transfer {call : FdCall} (inv : RunInv s.run) (caller : call.caller = some task)
    (transfer : ∀ c, call ≠ .other c) (reads : ∀ q, (moved s.run call).1 q → Takes s.run task stage q)
    (writes : ∀ q, (moved s.run call).2 q → Puts s.run task q) (same : next.fd = stage.fd)
    (opened : Opened ends command stage (s.run.files.tables task)) (done : perform fs s call = some r) :
    CommandMoves ends command s.run r.2.run task stage next := by
  obtain ⟨may, step⟩ := perform_some done
  have moves := transfer_moves inv may caller transfer step
  refine ⟨fd_call_inv inv may step, ⟨some task, by simp, framed_of_moves moves⟩, ?_, ?_, ?_, moves.took, moves.put, ?_⟩
  · rw [moves.tables]
    exact opened_congr same opened
  · intro q out
    exact moves.returned q fun inside => out (reads q inside)
  · intro q out
    exact moves.written q fun inside => out (writes q inside)
  · intro c waiting
    have at_ := moves.waits c waiting
    cases c with
    | reading q count => exact reads q at_
    | writing q rest count => exact writes q at_

theorem result_fd {n : Option Int} (transfers : stage = .printing ∨ stage = .counting ∨
    (∃ fd, stage = .copying fd) ∨ ∃ fd, stage = .putting fd) : (resultOf s stage n).fd = stage.fd := by
  rcases transfers with rfl | rfl | ⟨fd, rfl⟩ | ⟨fd, rfl⟩ <;> cases n <;> simp only [resultOf, answered]
  · split <;> rfl
  · split <;> rfl
  · rfl

theorem opening_moves {found : Option FatFile} {alloc : Bool} {filename : Text} (inv : RunInv s.run)
    (kept : EndsKept ends s.run.files) (opened : Opened ends command (.opening filename) (s.run.files.tables task))
    (done : perform fs s (.other (.open_ task found oRdonly alloc)) = some r) :
    CommandMoves ends command s.run r.2.run task (.opening filename) (resultOf s (.opening filename) r.1) := by
  obtain ⟨r', taken, result, same, tabled⟩ := perform_table_call inv done
  apply command_moves_still (Or.inr tabled)
  have plain : s.run.files.tables task = command := opened
  rw [result, same]
  rcases open_tables taken with ⟨failed, files⟩ | ⟨fd, f, number, inside, vacant, _, files⟩
  · rw [failed, files]
    exact plain
  · have own : r'.2.files.tables task =
        Function.update command fd (some (.heap s.run.files.nextFile)) := by
      rw [files, ← plain]
      exact Function.update_self _ _ _
    have goes : resultOf s (.opening filename) (some (fd : Int)) = .copying fd := by
      rw [resultOf, answered, if_neg (by omega)]
      exact fun name => Stage.noConfusion
    rw [number, goes, own]
    refine ⟨fd, s.run.files.nextFile, rfl, by rw [← plain]; exact vacant, ?_, rfl⟩
    intro line
    have low := line_file_old kept line
    omega

theorem closing_moves {fd : Int} (inv : RunInv s.run)
    (opened : Opened ends command (.closing fd) (s.run.files.tables task))
    (done : perform fs s (.other (.close task fd)) = some r) :
    CommandMoves ends command s.run r.2.run task (.closing fd) (resultOf s (.closing fd) r.1) := by
  obtain ⟨r', taken, result, same, tabled⟩ := perform_table_call inv done
  apply command_moves_still (Or.inr tabled)
  obtain ⟨k, m, number, vacant, _, whole⟩ := opened
  subst number
  have own : r'.2.files.tables task = command := by
    rw [close_tables inv taken]
    have row : (s.run.files.setSlot task k none).tables task =
        Function.update (s.run.files.tables task) k none := Function.update_self _ _ _
    rw [row, whole, Function.update_idem]
    exact Function.update_eq_self_iff.mpr vacant.symm
  obtain ⟨r'', closed, rfl⟩ := Option.map_eq_some_iff.mp taken
  rw [same, own, result]
  rfl

theorem write_moves {src : List Byte} (inv : RunInv s.run) (same : next.fd = stage.fd)
    (opened : Opened ends command stage (s.run.files.tables task))
    (done : perform fs s (.write task 1 src) = some r) : CommandMoves ends command s.run r.2.run task stage next := by
  apply command_moves_transfer inv rfl (by simp) _ _ same opened done
  · intro q none_
    exact False.elim none_
  · intro q here
    exact Or.inl here

theorem read_moves {fd : Int} {buf : Nat} {args : ReadArgs} {space : Space} (inv : RunInv s.run)
    (which : fd = 0 ∨ stage.fd = some fd) (same : next.fd = stage.fd)
    (opened : Opened ends command stage (s.run.files.tables task))
    (done : perform fs s (.read task fd buf args space) = some r) :
    CommandMoves ends command s.run r.2.run task stage next := by
  apply command_moves_transfer inv rfl (by simp) _ _ same opened done
  · intro q here
    rcases which with rfl | cat
    · exact Or.inl here
    · exact Or.inr (Or.inl ⟨fd, cat, here⟩)
  · intro q none_
    exact False.elim none_

theorem resume_moves {space : Space} (inv : RunInv s.run) (same : next.fd = stage.fd)
    (opened : Opened ends command stage (s.run.files.tables task))
    (done : perform fs s (.resume task space) = some r) : CommandMoves ends command s.run r.2.run task stage next := by
  apply command_moves_transfer inv rfl (by simp) _ _ same opened done
  · intro q here
    exact Or.inr (Or.inr here)
  · intro q here
    exact Or.inr here

/-- A stage that transfers bytes: what it asks for is a write, a read or to go on with one. -/
theorem transfer_step_moves {call : FdCall} (inv : RunInv s.run)
    (transfers : stage = .printing ∨ stage = .counting ∨ (∃ fd, stage = .copying fd) ∨ ∃ fd, stage = .putting fd)
    (opened : Opened ends command stage (s.run.files.tables task)) (asked : request task stage input = some call)
    (done : perform fs s call = some r) :
    CommandMoves ends command s.run r.2.run task stage (resultOf s stage r.1) := by
  have same := @result_fd s stage r.1 transfers
  rcases transfers with rfl | rfl | ⟨fd, rfl⟩ | ⟨fd, rfl⟩
  · cases input with
    | write src =>
      cases asked
      exact write_moves inv same opened done
    | resume space =>
      cases asked
      exact resume_moves inv same opened done
    | _ => cases asked
  · cases input with
    | read buf typed block space =>
      cases asked
      exact read_moves inv (Or.inl rfl) same opened done
    | resume space =>
      cases asked
      exact resume_moves inv same opened done
    | _ => cases asked
  · cases input with
    | read buf typed block space =>
      cases asked
      exact read_moves inv (Or.inr rfl) same opened done
    | resume space =>
      cases asked
      exact resume_moves inv same opened done
    | _ => cases asked
  · cases input with
    | write src =>
      cases asked
      exact write_moves inv same opened done
    | resume space =>
      cases asked
      exact resume_moves inv same opened done
    | _ => cases asked

theorem exec_moves {name : Text} {loaded : Bool} {call : FdCall} (inv : RunInv s.run)
    (low : task < s.run.files.numTasks) (opened : Opened ends command (.execing name) (s.run.files.tables task))
    (asked : request task (.execing name) (.exec loaded) = some call) (done : perform fs s call = some r) :
    CommandMoves ends command s.run r.2.run task (.execing name) (resultOf s (.execing name) r.1) := by
  cases loaded with
  | true =>
    cases asked
    obtain ⟨r', taken, result, same, tabled⟩ := perform_table_call inv done
    apply command_moves_still (Or.inl tabled)
    rw [tabled.framed.tables task (by simp [FileCall.caller]) low]
    exact opened
  | false => cases asked

/-- A step of the command without a call. -/
theorem silent_moves (inv : RunInv s.run) (opened : Opened ends command stage (s.run.files.tables task))
    (quiet : silent stage input = some next) : CommandMoves ends command s.run s.run task stage next := by
  have still : Tabled none none s.run s.run := ⟨inv, framed_refl _ _ _, rfl, rfl, rfl⟩
  apply command_moves_still (Or.inl still)
  apply @opened_congr _ _ stage _ _ _ opened
  unfold silent at quiet
  split at quiet <;> cases quiet <;> rfl

theorem command_step_moves {t : FdRun} (inv : RunInv s.run) (kept : EndsKept ends s.run.files)
    (low : task < s.run.files.numTasks) (opened : Opened ends command stage (s.run.files.tables task))
    (step : commandStep fs s task stage input = some (t, next)) :
    CommandMoves ends command s.run t.run task stage next := by
  unfold commandStep at step
  split at step
  · rename_i after quiet
    split at step
    · cases step
      exact silent_moves inv opened quiet
    · cases step
  · obtain ⟨call, asked, rest⟩ := Option.bind_eq_some_iff.mp step
    obtain ⟨r, done, same⟩ := Option.map_eq_some_iff.mp rest
    cases same
    cases stage with
    | printing => exact transfer_step_moves inv (Or.inl rfl) opened asked done
    | counting => exact transfer_step_moves inv (Or.inr (Or.inl rfl)) opened asked done
    | copying fd => exact transfer_step_moves inv (Or.inr (Or.inr (Or.inl ⟨fd, rfl⟩))) opened asked done
    | putting fd => exact transfer_step_moves inv (Or.inr (Or.inr (Or.inr ⟨fd, rfl⟩))) opened asked done
    | opening filename =>
      cases input with
      | openFile found alloc =>
        cases asked
        exact opening_moves inv kept opened done
      | _ => cases asked
    | closing fd =>
      cases input with
      | go =>
        cases asked
        exact closing_moves inv opened done
      | _ => cases asked
    | execing name =>
      cases input with
      | exec loaded => exact exec_moves inv low opened asked done
      | _ => cases asked
    | waiting tid => cases input <;> cases asked
    | returned => cases input <;> cases asked

end Commands

def endsBefore (ends : Nat → Option Ends) : Nat → Option Ends
  | 0 => none
  | i + 1 => ends i

section Sides
variable {job : Job} {old : FdTable} {s t : JobState} {i j : Nat} {kid : Kid} {stage : Stage} {e : Ends}

theorem line_file_unique {ends : Nat → Option Ends} {f : Files} {d : Ends} {m : Nat} (kept : EndsKept ends f)
    (first : ends i = some d) (second : ends j = some e) (here : m = d.read ∨ m = d.write)
    (there : m = e.read ∨ m = e.write) : i = j := by
  obtain ⟨nextD, _, _⟩ := kept.old i d first
  obtain ⟨nextE, _, _⟩ := kept.old j e second
  rcases Nat.lt_trichotomy i j with before | same | behind
  · have apart := (kept.apart i j d e first second before).1
    omega
  · exact same
  · have apart := (kept.apart j i e d second first behind).1
    omega

theorem opened_standard {ends : Nat → Option Ends} {command table : FdTable} (opened : Opened ends command stage table)
    (input : (command 0).isSome) (output : (command 1).isSome) : table 0 = command 0 ∧ table 1 = command 1 := by
  unfold Opened at opened
  split at opened
  · rw [opened]
    exact ⟨rfl, rfl⟩
  · obtain ⟨k, m, _, vacant, _, whole⟩ := opened
    have notIn : 0 ≠ k := by
      rintro rfl
      rw [vacant] at input
      cases input
    have notOut : 1 ≠ k := by
      rintro rfl
      rw [vacant] at output
      cases output
    rw [whole, Function.update_of_ne notIn, Function.update_of_ne notOut]
    exact ⟨rfl, rfl⟩

theorem command_standard (wired : Wired job old s) (here : s.kids i = some kid) (pc : kid.pc = .command stage) :
    s.run.run.files.tables kid.task 0 = inPtr old s.ends i ∧
      s.run.run.files.tables kid.task 1 = outPtr old s.ends job.segments.length i := by
  obtain ⟨inside, input, output, table⟩ := wired.placed.kids i kid here
  rw [pc] at table
  have opened : Opened s.ends (commandTable old s.ends job.segments.length i) stage _ := table
  have out : (outPtr old s.ends job.segments.length i).isSome := by
    unfold outPtr
    split
    · rename_i more
      rw [writePtr, Option.isSome_map]
      exact output more
    · rw [wired.kept.stdout]
      rfl
  have zero : commandTable old s.ends job.segments.length i 0 = inPtr old s.ends i := by
    rw [commandTable, Function.update_of_ne (by decide), Function.update_self]
  have one : commandTable old s.ends job.segments.length i 1 = outPtr old s.ends job.segments.length i := by
    rw [commandTable, Function.update_self]
  rw [← zero] at input
  rw [← one] at out
  rw [← zero, ← one]
  exact opened_standard opened input out

theorem end_at_line {task : Nat} {fd : Int} (wired : Wired job old s) (found : s.ends j = some e)
    (here : EndAt s.run.run.files task fd e.pipe) :
    ∃ m, s.run.run.files.tables task fd.toNat = some (.heap m) ∧ (m = e.read ∨ m = e.write) := by
  obtain ⟨m, flags, slot, shape⟩ := here
  exact ⟨m, (slot_some slot).2.2, wired.kept.ends.only j e m _ found shape⟩

theorem takes_side (wired : Wired job old s) (here : s.kids i = some kid) (pc : kid.pc = .command stage)
    (found : s.ends j = some e) (takes : Takes s.run.run kid.task stage e.pipe) : KidIs s (j + 1) kid.task := by
  rcases takes with standard | ⟨fd, cat, other⟩ | ⟨count, waiting⟩
  · obtain ⟨m, slot, which⟩ := end_at_line wired found standard
    have zero := (command_standard wired here pc).1
    rw [show ((0 : Int)).toNat = 0 from rfl, zero] at slot
    cases i with
    | zero =>
      rw [inPtr, wired.kept.stdin] at slot
      cases slot
    | succ i =>
      obtain ⟨d, first, same⟩ := Option.map_eq_some_iff.mp (show readPtr s.ends i = some (.heap m) from slot)
      cases same
      have same := line_file_unique wired.kept.ends first found (Or.inl rfl) which
      exact ⟨kid, by rw [← same]; exact here, rfl⟩
  · obtain ⟨m, slot, which⟩ := end_at_line wired found other
    have table := (wired.placed.kids i kid here).table
    rw [pc] at table
    have opened : Opened s.ends _ stage _ := table
    unfold Opened at opened
    rw [cat] at opened
    obtain ⟨k, m', number, _, free, whole⟩ := opened
    subst number
    rw [whole, Int.toNat_natCast, Function.update_self] at slot
    cases slot
    exact absurd ⟨j, e, found, which⟩ free
  · exact wired.kept.pending kid.task _ j e waiting found rfl

theorem puts_side (wired : Wired job old s) (here : s.kids i = some kid) (pc : kid.pc = .command stage)
    (found : s.ends j = some e) (puts : Puts s.run.run kid.task e.pipe) : KidIs s j kid.task := by
  rcases puts with standard | ⟨rest, count, waiting⟩
  · obtain ⟨m, slot, which⟩ := end_at_line wired found standard
    have one := (command_standard wired here pc).2
    rw [show ((1 : Int)).toNat = 1 from rfl, one, outPtr] at slot
    split at slot
    · obtain ⟨d, first, same⟩ := Option.map_eq_some_iff.mp slot
      cases same
      have same := line_file_unique wired.kept.ends first found (Or.inr rfl) which
      exact ⟨kid, by rw [← same]; exact here, rfl⟩
    · rw [wired.kept.stdout] at slot
      cases slot
  · exact wired.kept.pending kid.task _ j e waiting found rfl

theorem pipe_at_line {task fd m : Nat} {flags : Int} (wired : Wired job old s)
    (slot : s.run.run.files.tables task fd = some (.heap m))
    (shape : ∀ sh, s.run.run.files.shape m = some sh → sh = endShape e.pipe flags) :
    pipeAt s.run.run.files task fd = some e.pipe := by
  obtain ⟨f, live⟩ := Option.isSome_iff_exists.mp
    (wired.kept.run.files.accounted.known (task, fd) (.heap m) slot)
  have found : s.run.run.files.files m = some f := live
  have same := shape f.shape (by rw [Files.shape, found, Option.map_some])
  simp only [OpenFile.shape, endShape, Shape.mk.injEq] at same
  rw [pipeAt, slot, Option.bind_some, live, Option.bind_some, if_pos same.1, same.2.2]

theorem pipe_at_console {task fd : Nat} (wired : Wired job old s)
    (slot : s.run.run.files.tables task fd = some .console) : pipeAt s.run.run.files task fd = none := by
  obtain ⟨f, live, type⟩ := wired.kept.run.files.accounted.console
  rw [pipeAt, slot, Option.bind_some, live, Option.bind_some, type, if_neg (by decide)]

theorem pipe_at_out (wired : Wired job old s) (here : s.kids i = some kid) (pc : kid.pc = .command stage) :
    pipeAt s.run.run.files kid.task 1 = (s.ends i).map Ends.pipe := by
  have one := (command_standard wired here pc).2
  obtain ⟨_, _, output, _⟩ := wired.placed.kids i kid here
  rw [outPtr] at one
  split at one
  · rename_i more
    obtain ⟨d, found⟩ := Option.isSome_iff_exists.mp (output more)
    rw [writePtr, found] at one
    rw [found]
    exact pipe_at_line wired one fun sh => wired.kept.ends.write i d sh found
  · rename_i last
    have noPipe : s.ends i = none := by
      by_contra some_
      obtain ⟨d, found⟩ := Option.ne_none_iff_exists'.mp some_
      exact last (wired.kept.within i d found)
    rw [noPipe]
    rw [wired.kept.stdout] at one
    exact pipe_at_console wired one

theorem pipe_at_in (wired : Wired job old s) (here : s.kids i = some kid) (pc : kid.pc = .command stage) :
    pipeAt s.run.run.files kid.task 0 = (endsBefore s.ends i).map Ends.pipe := by
  have zero := (command_standard wired here pc).1
  cases i with
  | zero =>
    rw [inPtr, wired.kept.stdin] at zero
    exact pipe_at_console wired zero
  | succ i =>
    obtain ⟨_, input, _, _⟩ := wired.placed.kids (i + 1) kid here
    rw [in_ptr_succ, readPtr, Option.isSome_map] at input
    obtain ⟨d, found⟩ := Option.isSome_iff_exists.mp input
    rw [in_ptr_succ, readPtr, found] at zero
    rw [endsBefore, found]
    exact pipe_at_line wired zero fun sh => wired.kept.ends.read i d sh found

theorem logged_command {next : Stage} {command : FdTable} (wired : Wired job old s) (here : s.kids i = some kid)
    (pc : kid.pc = .command stage) (ends : t.ends = s.ends)
    (moves : CommandMoves s.ends command s.run.run t.run.run kid.task stage next)
    (sent : t.sent = Function.update s.sent i (s.sent i ++ putOut s.run.run t.run.run kid.task))
    (got : t.got = Function.update s.got i (s.got i ++ gotIn s.run.run t.run.run kid.task)) : Logged t := by
  have me : KidIs s i kid.task := ⟨kid, here, rfl⟩
  have out := pipe_at_out wired here pc
  have in_ := pipe_at_in wired here pc
  constructor
  · intro j e found
    rw [ends] at found
    obtain ⟨written, returned⟩ := wired.logged.bytes j e found
    constructor
    · rw [sent, Function.update_apply]
      split
      · rename_i at_
        rw [at_] at found written
        rw [found, Option.map_some] at out
        rw [putOut, out, ← written]
        exact (List.prefix_iff_eq_append.mp (moves.put e.pipe)).symm
      · rename_i other
        rw [← written]
        apply moves.written
        intro puts
        exact other (wired.placed.apart j i kid.task (puts_side wired here pc found puts) me)
    · rw [got, Function.update_apply]
      split
      · rename_i at_
        subst at_
        rw [endsBefore, found, Option.map_some] at in_
        rw [gotIn, in_, ← returned]
        exact (List.prefix_iff_eq_append.mp (moves.took e.pipe)).symm
      · rename_i other
        rw [← returned]
        apply moves.returned
        intro takes
        exact other (wired.placed.apart (j + 1) i kid.task (takes_side wired here pc found takes) me)
  · intro j none_
    rw [ends] at none_
    obtain ⟨noSent, noGot⟩ := wired.logged.blank j none_
    constructor
    · rw [sent, Function.update_apply]
      split
      · rename_i at_
        rw [at_] at none_ noSent
        rw [none_, Option.map_none] at out
        rw [putOut, out, noSent]
        rfl
      · exact noSent
    · rw [got, Function.update_apply]
      split
      · rename_i at_
        subst at_
        rw [endsBefore, none_, Option.map_none] at in_
        rw [gotIn, in_, noGot]
        rfl
      · exact noGot

theorem wired_kid_command {next : Stage} {input : Input} (wired : Wired job old s)
    (here : s.kids i = some kid) (pc : kid.pc = .command stage)
    (step : commandStep job.fs s.run kid.task stage input = some (t.run, next))
    (kids : t.kids = setKid s i kid (.command next)) (shell : t.shell = s.shell) (ends : t.ends = s.ends)
    (sent : t.sent = Function.update s.sent i (s.sent i ++ putOut s.run.run t.run.run kid.task))
    (got : t.got = Function.update s.got i (s.got i ++ gotIn s.run.run t.run.run kid.task)) :
    Wired job old t := by
  have table := (wired.placed.kids i kid here).table
  rw [pc] at table
  have low := (wired.placed.tasks i kid.task ⟨kid, here, rfl⟩).1
  have moves := command_step_moves wired.kept.run wired.kept.ends low table step
  obtain ⟨caller, mine, framed⟩ := moves.framed
  apply wired_kid_step wired here kids shell ends moves.inv framed mine
  · intro c j e waiting found pipe
    have at_ := moves.waits c waiting
    cases c with
    | reading q count =>
      have same : q = e.pipe := pipe
      rw [same] at at_
      exact takes_side wired here pc found at_
    | writing q rest count =>
      have same : q = e.pipe := pipe
      rw [same] at at_
      exact puts_side wired here pc found at_
  · exact logged_command wired here pc ends moves sent got
  · exact moves.opened

theorem wired_kid {input : Input} (wired : Wired job old s) (here : s.kids i = some kid)
    (step : kidStep job s i kid input = some t) : Wired job old t := by
  have table := (wired.placed.kids i kid here).table
  have low := (wired.placed.tasks i kid.task ⟨kid, here, rfl⟩).1
  unfold kidStep at step
  split at step
  · rename_i op rest pc
    obtain ⟨r, done, rfl⟩ := Option.map_eq_some_iff.mp step
    rw [pc] at table
    obtain ⟨carries, ready, leads⟩ := table
    obtain ⟨tabled, own⟩ := perform_op wired.kept.run low ready done
    apply wired_kid_tabled wired here tabled
    rw [own]
    exact ⟨carries_apply op carries, leads⟩
  · rename_i pc
    cases step
    rw [pc] at table
    have still : Tabled (some kid.task) none s.run.run s.run.run :=
      ⟨wired.kept.run, framed_refl _ _ _, rfl, rfl, rfl⟩
    apply wired_kid_tabled wired here still
    have whole : s.run.run.files.tables kid.task = commandTable old s.ends job.segments.length i := table.2
    cases parseCommand kid.segment <;> exact whole
  · obtain ⟨r, done, rfl⟩ := Option.map_eq_some_iff.mp step
    obtain ⟨tabled, gone⟩ := perform_exit wired.kept.run done
    exact wired_kid_tabled wired here tabled gone
  · rename_i stage pc _
    obtain ⟨⟨run, next⟩, done, rfl⟩ := Option.map_eq_some_iff.mp step
    exact wired_kid_command wired here pc done rfl rfl rfl rfl rfl
  · cases step

theorem wired_kill_kid {r : Option Int × FdRun} (wired : Wired job old s) (here : s.kids i = some kid)
    (done : perform job.fs s.run (.other (.exit kid.task)) = some r) :
    Wired job old { s with run := r.2, kids := setKid s i kid .exited } := by
  obtain ⟨tabled, gone⟩ := perform_exit wired.kept.run done
  exact wired_kid_tabled wired here tabled gone

end Sides
section ShellSteps
variable {job : Job} {old : FdTable} {s t : JobState}

theorem wired_shell_step {caller : Option Nat} (wired : Wired job old s) (kids : t.kids = s.kids)
    (pids : ∀ (j u : Nat), t.shell.childPids[j]? = some (some u) ↔ s.shell.childPids[j]? = some (some u)) (ends : t.ends = s.ends) (inv : RunInv t.run.run)
    (framed : Framed caller none s.run.run t.run.run) (mine : ∀ u, caller = some u → u = job.shell)
    (waits : ∀ c j e, t.run.run.calls job.shell = some c → s.ends j = some e → c.pipe = e.pipe →
      AtEnd s j job.shell c) (logged : Logged t)
    (fits : ShellFits old s.ends job.segments.length t.shell (t.run.run.files.tables job.shell))
    (leaves : t.shell.pc.isReturned = true → Clean t job.shell) : Wired job old t := by
  have placed := wired.placed
  have is : ∀ j u, KidIs t j u ↔ KidIs s j u := by
    intro j u
    unfold KidIs
    rw [kids]
  have step : Stepped job caller none s t := by
    refine ⟨inv, framed, ends, fun j u => (is j u).mpr, ?_, by simp, ?_⟩
    · rintro u (⟨rfl, _⟩ | ⟨j, who⟩) after
      · apply leaves
        by_contra inside
        exact after (Or.inl ⟨rfl, Bool.eq_false_of_not_eq_true inside⟩)
      · exact absurd (Or.inr ⟨j, (is j u).mpr who⟩) after
    · intro u c j e called waiting found pipe
      have same := mine u called
      subst same
      rw [ends] at found
      have at_ := waits c j e waiting found pipe
      cases c with
      | reading q count => exact (is _ _).mpr at_
      | writing q rest count => exact (is _ _).mpr at_
  refine ⟨kept_stepped wired.kept step, ?_, logged⟩
  constructor
  · rw [ends]
    exact fits
  · intro j kid found
    rw [kids] at found
    obtain ⟨low, other⟩ := placed.tasks j kid.task ⟨kid, found, rfl⟩
    rw [ends, framed.tables kid.task (fun same => other (mine _ same.symm)) low]
    exact placed.kids j kid found
  · rw [kids]
    exact placed.named
  · intro j u
    rw [pids, is]
    exact placed.pids j u
  · intro j k u first second
    exact placed.apart j k u ((is j u).mp first) ((is k u).mp second)
  · intro j u who
    obtain ⟨low, other⟩ := placed.tasks j u ((is j u).mp who)
    exact ⟨Nat.lt_of_lt_of_le low framed.numTasks, other⟩

theorem wired_shell_tabled {run : FdRun} {shell : Locals} (wired : Wired job old s)
    (tabled : Tabled (some job.shell) none s.run.run run.run)
    (pids : ∀ (j u : Nat), shell.childPids[j]? = some (some u) ↔ s.shell.childPids[j]? = some (some u))
    (fits : ShellFits old s.ends job.segments.length shell (run.run.files.tables job.shell))
    (leaves : shell.pc.isReturned = true → ∀ fd m, run.run.files.tables job.shell fd = some (.heap m) →
      ¬ LineFile s.ends m) : Wired job old { s with run := run, shell := shell } := by
  apply wired_shell_step (t := { s with run := run, shell := shell }) wired rfl pids rfl tabled.inv tabled.framed
  · rintro u ⟨⟩
    rfl
  · intro c j e waiting found pipe
    dsimp only at waiting
    rw [tabled.calls] at waiting
    exact wired.kept.pending job.shell c j e waiting found pipe
  · exact logged_same wired.logged rfl tabled.written tabled.returned rfl rfl
  · exact fits
  · exact leaves

theorem tabled_refl (wired : Wired job old s) (caller : Option Nat) : Tabled caller none s.run.run s.run.run :=
  ⟨wired.kept.run, framed_refl _ _ _, rfl, rfl, rfl⟩

theorem plain_clean (wired : Wired job old s) :
    ∀ fd m, old fd = some (.heap m) → ¬ LineFile s.ends m :=
  fun fd m holds => (wired.kept.plain fd m holds).2

theorem logged_no_ends (logged : Logged s) (none_ : ∀ j, s.ends j = none) (ends : t.ends = s.ends)
    (sent : t.sent = s.sent) (got : t.got = s.got) : Logged t := by
  constructor
  · intro j e found
    rw [ends, none_ j] at found
    cases found
  · intro j _
    rw [sent, got]
    exact logged.blank j (none_ j)

theorem wired_direct {input : Input} (wired : Wired job old s) (step : directStep job s input = some t) :
    Wired job old t := by
  have fits := wired.placed.shell
  have plain := plain_clean wired
  unfold ShellFits at fits
  unfold directStep at step
  split at step
  · rename_i pc
    cases step
    rw [pc] at fits
    have whole : s.run.run.files.tables job.shell = old := fits.2.2
    apply wired_shell_tabled wired (tabled_refl wired _)
    · exact fun _ _ => Iff.rfl
    · trivial
    · intro _
      rw [whole]
      exact plain
  · obtain ⟨r, done, rfl⟩ := Option.map_eq_some_iff.mp step
    obtain ⟨tabled, gone⟩ := perform_exit wired.kept.run done
    apply wired_shell_tabled wired tabled
    · exact fun _ _ => Iff.rfl
    · exact gone
    · rintro ⟨⟩
  · rename_i stage leave pc _ _
    obtain ⟨⟨run, next⟩, done, rfl⟩ := Option.map_eq_some_iff.mp step
    rw [pc] at fits
    obtain ⟨none_, pids, opened⟩ := fits
    have moves := command_step_moves wired.kept.run wired.kept.ends wired.kept.shellTask opened done
    obtain ⟨caller, mine, framed⟩ := moves.framed
    apply wired_shell_step (t := { s with run := run, shell := { s.shell with pc := .direct next leave } }) wired
      rfl (fun _ _ => Iff.rfl) rfl moves.inv framed mine
    · intro c j e _ found
      rw [none_ j] at found
      cases found
    · exact logged_no_ends wired.logged none_ rfl rfl rfl
    · exact ⟨none_, pids, moves.opened⟩
    · rintro ⟨⟩
  · cases step

theorem wired_closes {rest : List FdOp} {r : Option Int × FdRun} {op : FdOp} (wired : Wired job old s)
    (pc : s.shell.pc = .closes (op :: rest)) (done : perform job.fs s.run (op.call job.shell) = some r) :
    Wired job old { s with run := r.2, shell := { s.shell with pc := .closes rest } } := by
  have fits := wired.placed.shell
  rw [ShellFits, pc] at fits
  obtain ⟨inside, made, pids, pipe, carries, ready, leads⟩ := fits
  obtain ⟨tabled, own⟩ := perform_op wired.kept.run wired.kept.shellTask ready done
  apply wired_shell_tabled wired tabled
  · exact fun _ _ => Iff.rfl
  · rw [own]
    exact ⟨inside, made, pids, pipe, carries_apply op carries, leads⟩
  · rintro ⟨⟩

theorem wired_next_round (wired : Wired job old s) (pc : s.shell.pc = .closes []) :
    Wired job old { s with
      shell := { s.shell with
        pc := if s.shell.i + 1 < job.segments.length then .pipe else .closeLast
        i := s.shell.i + 1
        prevReadFd := s.shell.pipefd.map Prod.fst } } := by
  have fits := wired.placed.shell
  rw [ShellFits, pc] at fits
  obtain ⟨inside, made, pids, pipe, _, table⟩ := fits
  apply wired_shell_tabled wired (tabled_refl wired _)
  · exact fun _ _ => Iff.rfl
  · by_cases more : s.shell.i + 1 < job.segments.length
    · simp only [ShellFits, if_pos more]
      refine ⟨more, ?_, pids, ⟨?_, ?_⟩, table⟩
      · intro j
        rw [made j]
        dsimp only
        omega
      · cases shut : s.shell.pipefd with
        | none => exact absurd more (pipe.open_.mp shut)
        | some fds => simp
      · intro fd first
        obtain ⟨⟨rfd, wfd⟩, opened, same⟩ := Option.map_eq_some_iff.mp first
        cases same
        exact (pipe.free rfd wfd opened).2.1
    · simp only [ShellFits, if_neg more]
      have shut := pipe.open_.mpr more
      rw [shut] at table ⊢
      exact ⟨by omega, rfl, table⟩
  · dsimp only
    split <;> rintro ⟨⟩

theorem wired_close_last (wired : Wired job old s) (pc : s.shell.pc = .closeLast) :
    s.shell.prevReadFd = none ∧
      Wired job old { s with shell := { s.shell with pc := .waits s.shell.childPids } } := by
  have fits := wired.placed.shell
  rw [ShellFits, pc] at fits
  obtain ⟨pids, prev, table⟩ := fits
  refine ⟨prev, ?_⟩
  apply wired_shell_tabled wired (tabled_refl wired _)
  · exact fun _ _ => Iff.rfl
  · exact ⟨pids, table⟩
  · rintro ⟨⟩

theorem wired_waits {tid : Option Nat} {rest : List (Option Nat)} (wired : Wired job old s)
    (pc : s.shell.pc = .waits (tid :: rest)) :
    Wired job old { s with shell := { s.shell with pc := .waits rest } } := by
  have fits := wired.placed.shell
  rw [ShellFits, pc] at fits
  apply wired_shell_tabled wired (tabled_refl wired _)
  · exact fun _ _ => Iff.rfl
  · exact fits
  · rintro ⟨⟩

theorem wired_return (wired : Wired job old s) (pc : s.shell.pc = .waits []) :
    Wired job old { s with shell := { s.shell with pc := .returned } } := by
  have fits := wired.placed.shell
  rw [ShellFits, pc] at fits
  apply wired_shell_tabled wired (tabled_refl wired _)
  · exact fun _ _ => Iff.rfl
  · trivial
  · intro _
    rw [fits.2]
    exact plain_clean wired

theorem wired_kill_shell {r : Option Int × FdRun} (wired : Wired job old s)
    (done : perform job.fs s.run (.other (.exit job.shell)) = some r) :
    Wired job old { s with run := r.2, shell := { s.shell with pc := .gone } } := by
  obtain ⟨tabled, gone⟩ := perform_exit wired.kept.run done
  apply wired_shell_tabled wired tabled
  · exact fun _ _ => Iff.rfl
  · exact gone
  · rintro ⟨⟩

end ShellSteps
end Archarch.Shell
