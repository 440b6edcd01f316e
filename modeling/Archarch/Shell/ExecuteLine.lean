import Archarch.Shell.CommandLine
import Archarch.Files.CallFrames

/- execute_line and run_single_cmd of shell.c over the descriptor layer: the shell, the children
   that it forks and all other tasks take their steps in any order, one system call a step. -/
namespace Archarch.Shell
open Descriptors LabelledRuns

inductive FdOp where
  | dup2 (oldfd newfd : Nat)
  | close (fd : Nat)

def FdOp.call (task : Nat) : FdOp → FdCall
  | .dup2 oldfd newfd => .other (.dup2 task oldfd newfd)
  | .close fd => .other (.close task fd)

/-- What a child does before it runs its command; none is -1. -/
def childOps (prevReadFd : Option Nat) (pipefd : Option (Nat × Nat)) : List FdOp :=
  (match prevReadFd with
    | some fd => [.dup2 fd 0, .close fd]
    | none => []) ++
  match pipefd with
  | some (rfd, wfd) => [.dup2 wfd 1, .close wfd, .close rfd]
  | none => []

def parentOps (prevReadFd : Option Nat) (pipefd : Option (Nat × Nat)) : List FdOp :=
  (match prevReadFd with
    | some fd => [.close fd]
    | none => []) ++
  match pipefd with
  | some (_, wfd) => [.close wfd]
  | none => []

/-- Where run_single_cmd is: the built-ins write what they like to descriptor 1 (printing), wc
    reads descriptor 0 (counting), cat has a descriptor of its own. -/
inductive Stage where
  | printing
  | counting
  | opening (filename : Text)
  | copying (fd : Int)
  | putting (fd : Int)
  | closing (fd : Int)
  | execing (name : Text)
  | waiting (tid : Nat)
  | returned

def startOf : Command → Stage
  | .nothing => .returned
  | .help | .ls | .ps | .echo _ => .printing
  | .wc => .counting
  | .cat filename => .opening filename
  | .program name => .execing name

/-- What a step of a program depends on besides the descriptors: what it has in its buffers,
    what the volume and the allocators answer. -/
inductive Input where
  | go
  | write (src : List Byte)
  | read (buf : Nat) (typed : List Byte) (block : Option (Nat → Byte)) (space : Space)
  | openFile (found : Option FatFile) (alloc : Bool)
  | exec (loaded : Bool)
  | resume (space : Space)

def request (task : Nat) : Stage → Input → Option FdCall
  | .printing, .write src | .putting _, .write src => some (.write task 1 src)
  | .counting, .read buf typed block space => some (.read task 0 buf ⟨256, typed, block⟩ space)
  | .copying fd, .read buf typed block space => some (.read task fd buf ⟨4096 - 1, typed, block⟩ space)
  | .opening _, .openFile found alloc => some (.other (.open_ task found oRdonly alloc))
  | .closing fd, .go => some (.other (.close task fd))
  | .execing _, .exec true => some (.other .create)
  | .printing, .resume space | .counting, .resume space | .copying _, .resume space
  | .putting _, .resume space => some (.resume task space)
  | _, _ => none

def answered : Stage → Int → Stage
  | .counting, n => if 0 < n then .counting else .printing
  | .opening _, fd => if fd < 0 then .printing else .copying fd
  | .copying fd, n => if 0 < n then .putting fd else .closing fd
  | .putting fd, _ => .copying fd
  | .closing _, _ => .returned
  | stage, _ => stage

def resultOf (s : FdRun) : Stage → Option Int → Stage
  | .execing _, _ => .waiting s.run.files.numTasks
  | stage, none => stage
  | stage, some n => answered stage n

/-- The steps without a call on descriptors; a signal may end the wait early. -/
def silent : Stage → Input → Option Stage
  | .printing, .go => some .returned
  | .execing _, .exec false => some .printing
  | .waiting _, .go => some .returned
  | _, _ => none

def perform (fs : Fat16.Fs) (s : FdRun) (call : FdCall) : Option (Option Int × FdRun) :=
  if callable s call then fdCall fs s call else none

def commandStep (fs : Fat16.Fs) (s : FdRun) (task : Nat) (stage : Stage) (input : Input) :
    Option (FdRun × Stage) :=
  match silent stage input with
  | some next => if s.run.calls task = none then some (s, next) else none
  | none => (request task stage input).bind fun call =>
    (perform fs s call).map fun r => (r.2, resultOf s stage r.1)

inductive KidPc where
  | wiring (rest : List FdOp)
  | command (stage : Stage)
  | exited

structure Kid where
  task : Nat
  segment : Text
  pc : KidPc

/-- Where execute_line is: closes is the end of a round of the loop, waits the loop over the pids that are left. -/
inductive ShellPc where
  | direct (stage : Stage) (leave : Bool)
  | pipe
  | fork
  | closes (rest : List FdOp)
  | closeLast
  | waits (rest : List (Option Nat))
  | returned
  | failed
  | gone

def ShellPc.isReturned : ShellPc → Bool
  | .returned => true
  | _ => false

/-- The variables of execute_line. -/
structure Locals where
  pc : ShellPc
  i : Nat
  prevReadFd : Option Nat
  pipefd : Option (Nat × Nat)
  childPids : List (Option Nat)

def startShell (plan : Plan) : Locals :=
  let pc : ShellPc :=
    match plan with
    | .nothing => .returned
    | .exit => .direct .printing true
    | .direct cmd => .direct (startOf (parseCommand cmd)) false
    | .chain _ => .pipe
  ⟨pc, 0, none, none, []⟩

/-- A pipe of the line and the files that are its ends. -/
structure Ends where
  pipe : Nat
  read : Nat
  write : Nat

/-- What fd_pipe makes when all its allocations succeed. -/
def Ends.after (s : Files) : Ends := ⟨s.nextPipe, s.nextFile, s.nextFile + 1⟩

/-- ends are the pipes behind the segments; sent and got are the bytes that the command of a
    segment has put through its descriptor 1 and got from its descriptor 0. -/
structure JobState where
  run : FdRun
  shell : Locals
  kids : Nat → Option Kid
  ends : Nat → Option Ends
  sent : Nat → List Byte
  got : Nat → List Byte

structure Job where
  fs : Fat16.Fs
  shell : Nat
  line : Text

def Job.segments (job : Job) : List Text :=
  match planLine job.line with
  | .chain segments => segments
  | _ => []

def pipeAt (s : Files) (task fd : Nat) : Option Nat :=
  ((s.tables task fd).bind s.deref).bind fun f => if f.type = .pipe then f.pipe else none

def putOut (s t : FilesRun) (task : Nat) : List Byte :=
  match pipeAt s.files task 1 with
  | none => []
  | some q => (t.written q).drop (s.written q).length

def gotIn (s t : FilesRun) (task : Nat) : List Byte :=
  match pipeAt s.files task 0 with
  | none => []
  | some q => (t.returned q).drop (s.returned q).length

section Steps
variable (job : Job) (s : JobState)

def setKid (i : Nat) (kid : Kid) (pc : KidPc) : Nat → Option Kid :=
  Function.update s.kids i (some { kid with pc := pc })

def kidStep (i : Nat) (kid : Kid) (input : Input) : Option JobState :=
  match kid.pc, input with
  | .wiring (op :: rest), .go => (perform job.fs s.run (op.call kid.task)).map fun r =>
    { s with run := r.2, kids := setKid s i kid (.wiring rest) }
  | .wiring [], .go =>
    some { s with kids := setKid s i kid (.command (startOf (parseCommand kid.segment))) }
  | .command .returned, .go => (perform job.fs s.run (.other (.exit kid.task))).map fun r =>
    { s with run := r.2, kids := setKid s i kid .exited }
  | .command stage, input => (commandStep job.fs s.run kid.task stage input).map fun r =>
    { s with
      run := r.1
      kids := setKid s i kid (.command r.2)
      sent := Function.update s.sent i (s.sent i ++ putOut s.run.run r.1.run kid.task)
      got := Function.update s.got i (s.got i ++ gotIn s.run.run r.1.run kid.task) }
  | _, _ => none

/-- fork returns -1 where it fails, and the loop goes on. -/
def forkStep (forks : Bool) : Option JobState :=
  let closes : ShellPc := .closes (parentOps s.shell.prevReadFd s.shell.pipefd)
  if forks then
    (perform job.fs s.run (.other (.fork job.shell))).map fun r =>
      let task := s.run.run.files.numTasks
      let segment := (job.segments[s.shell.i]?).getD []
      { s with
        run := r.2
        kids := Function.update s.kids s.shell.i
          (some ⟨task, segment, .wiring (childOps s.shell.prevReadFd s.shell.pipefd)⟩)
        shell := { s.shell with pc := closes, childPids := s.shell.childPids ++ [some task] } }
  else some { s with shell := { s.shell with pc := closes, childPids := s.shell.childPids ++ [none] } }

def pipeStep (a b c : Bool) : Option JobState :=
  if s.shell.i + 1 < job.segments.length then
    (perform job.fs s.run (.other (.pipe job.shell a b c))).map fun r =>
      match (fdPipe s.run.run.files job.shell a b c).1 with
      | none => { s with run := r.2, shell := { s.shell with pc := .failed } }
      | some pipefd =>
        { s with
          run := r.2
          ends := Function.update s.ends s.shell.i (some (.after s.run.run.files))
          shell := { s.shell with pc := .fork, pipefd := some pipefd } }
  else some { s with shell := { s.shell with pc := .fork, pipefd := none } }

def shellStep (a b c forks : Bool) : Option JobState :=
  match s.shell.pc with
  | .pipe => pipeStep job s a b c
  | .fork => forkStep job s forks
  | .closes (op :: rest) => (perform job.fs s.run (op.call job.shell)).map fun r =>
    { s with run := r.2, shell := { s.shell with pc := .closes rest } }
  | .closes [] =>
    some { s with
      shell := { s.shell with
        pc := if s.shell.i + 1 < job.segments.length then .pipe else .closeLast
        i := s.shell.i + 1
        prevReadFd := s.shell.pipefd.map Prod.fst } }
  | .closeLast =>
    match s.shell.prevReadFd with
    | none => some { s with shell := { s.shell with pc := .waits s.shell.childPids } }
    | some fd => (perform job.fs s.run (.other (.close job.shell fd))).map fun r =>
      { s with run := r.2, shell := { s.shell with pc := .waits s.shell.childPids } }
  | .waits (_ :: rest) => some { s with shell := { s.shell with pc := .waits rest } }
  | .waits [] => some { s with shell := { s.shell with pc := .returned } }
  | _ => none

def directStep (input : Input) : Option JobState :=
  match s.shell.pc, input with
  | .direct .returned false, .go => some { s with shell := { s.shell with pc := .returned } }
  | .direct .returned true, .go => (perform job.fs s.run (.other (.exit job.shell))).map fun r =>
    { s with run := r.2, shell := { s.shell with pc := .gone } }
  | .direct stage leave, input => (commandStep job.fs s.run job.shell stage input).map fun r =>
    { s with run := r.1, shell := { s.shell with pc := .direct r.2 leave } }
  | _, _ => none

/-- Not a call of a child, and not one of the shell while it is in execute_line. -/
def foreign (call : FdCall) : Prop :=
  match call.caller with
  | none => True
  | some task => some task ∉ s.shell.childPids ∧ (task = job.shell → s.shell.pc.isReturned = true)

theorem foreign_iff (call : FdCall) :
    (call.caller.all fun task => !s.shell.childPids.contains (some task) &&
      (decide (task ≠ job.shell) || s.shell.pc.isReturned)) = true ↔ foreign job s call := by
  unfold foreign
  cases call.caller with
  | none => exact ⟨fun _ => trivial, fun _ => rfl⟩
  | some task => simp [Decidable.imp_iff_not_or]

instance (call : FdCall) : Decidable (foreign job s call) := decidable_of_iff _ (foreign_iff job s call)

/-- Steps of the shell, of a child and of any other task; a signal may end the shell or a child
    wherever it is not inside a transfer. -/
inductive Event where
  | shell (a b c forks : Bool)
  | direct (input : Input)
  | kid (i : Nat) (input : Input)
  | other (call : FdCall)
  | killShell
  | killKid (i : Nat)

def jobStep : Event → Option JobState
  | .shell a b c forks => shellStep job s a b c forks
  | .direct input => directStep job s input
  | .kid i input => (s.kids i).bind fun kid => kidStep job s i kid input
  | .other call =>
    if foreign job s call then (perform job.fs s.run call).map fun r => { s with run := r.2 } else none
  | .killShell => (perform job.fs s.run (.other (.exit job.shell))).map fun r =>
    { s with run := r.2, shell := { s.shell with pc := .gone } }
  | .killKid i => (s.kids i).bind fun kid =>
    (perform job.fs s.run (.other (.exit kid.task))).map fun r =>
      { s with run := r.2, kids := setKid s i kid .exited }

end Steps

/-- The state in which execute_line is called: both standard descriptors of the shell are the
    console. -/
structure JobStart (job : Job) (s : JobState) : Prop where
  reached : FdReached job.fs s.run
  idle : idle s.run.run job.shell
  stdin : s.run.run.files.tables job.shell 0 = some .console
  stdout : s.run.run.files.tables job.shell 1 = some .console
  shell : s.shell = startShell (planLine job.line)
  kids : s.kids = fun _ => none
  ends : s.ends = fun _ => none
  sent : s.sent = fun _ => []
  got : s.got = fun _ => []

/-- Runs from one call of execute_line. -/
def JobRun (job : Job) (start : JobState) : JobState → Prop :=
  Reaches (· = start) (Taken (jobStep job))

end Archarch.Shell
