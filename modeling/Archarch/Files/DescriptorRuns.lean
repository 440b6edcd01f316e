import Archarch.Foundations.Runs
import Archarch.Files.DescriptorOps
import Archarch.Files.PipeTransfers

/- Runs of the descriptor layer: any number of tasks, each between two calls or
   blocked at a sched_yield inside fd_read or fd_write on a pipe. -/
namespace Archarch.Descriptors
open LabelledRuns HeldReferences

/-- A call that waits: its pipe, and the count of the read or the bytes the write has
   not stored yet with its own count. -/
inductive PipeCall where
  | reading (pipe count : Nat)
  | writing (pipe : Nat) (rest : List Byte) (count : Nat)

def PipeCall.pipe : PipeCall → Nat
  | .reading q _ => q
  | .writing q _ _ => q

/-- written and returned record, for each pipe, the bytes its writes have stored and
   those its reads have returned. -/
structure FilesRun where
  files : Files
  calls : Nat → Option PipeCall
  written : Nat → List Byte
  returned : Nat → List Byte

inductive FileCall where
  | create
  | fork (task : Nat)
  | exit (task : Nat)
  | open_ (task : Nat) (found : Option FatFile) (flags : Int) (alloc : Bool)
  | pipe (task : Nat) (allocPipe allocRead allocWrite : Bool)
  | close (task : Nat) (fd : Int)
  | dup2 (task : Nat) (oldfd newfd : Int)
  | read (task : Nat) (fd : Int) (count : Nat)
  | write (task : Nat) (fd : Int) (src : List Byte)
  | resume (task : Nat)

def filesBoot : FilesRun where
  files :=
    { tables := fun _ _ => none
      numTasks := 0
      console := ⟨.console, oRdwr, 0, 0, 0, 0, 0, none⟩
      files := fun _ => none
      pipes := fun _ => none
      nextFile := 0
      nextPipe := 0
      freedFiles := []
      freedPipes := [] }
  calls := fun _ => none
  written := fun _ => []
  returned := fun _ => []

def readStep (s : FilesRun) (task q count : Nat) : Option (Option Int × FilesRun) :=
  (s.files.pipes q).map fun p =>
    match readRound p count with
    | none => (none, { s with calls := Function.update s.calls task (some (.reading q count)) })
    | some (bytes, after) =>
      (some bytes.length,
        { s with
          files := s.files.setPipe q after
          calls := Function.update s.calls task none
          returned := Function.update s.returned q (s.returned q ++ bytes) })

def stored (p : Pipe) (rest : List Byte) : List Byte :=
  rest.take (rest.length - (putBytes rest p).1.length)

def writeStep (s : FilesRun) (task q : Nat) (rest : List Byte) (count : Nat) :
    Option (Option Int × FilesRun) :=
  (s.files.pipes q).map fun p =>
    let t :=
      { s with
        files := s.files.setPipe q (writeRound p rest).2
        written := Function.update s.written q (s.written q ++ stored p rest) }
    match (writeRound p rest).1 with
    | .done => (some count, { t with calls := Function.update s.calls task none })
    | .broken => (some (-1), { t with calls := Function.update s.calls task none })
    | .yields left =>
      (none, { t with calls := Function.update s.calls task (some (.writing q left count)) })

/-- fd_read and fd_write on a descriptor that is closed or names a pipe. -/
def fdReadPipe (s : FilesRun) (task : Nat) (fd : Int) (count : Nat) :
    Option (Option Int × FilesRun) :=
  match s.files.slot task fd with
  | none => some (some (-1), s)
  | some ptr => do
    let f ← s.files.deref ptr
    match f.pipe with
    | none => some (some (-1), s)
    | some q => readStep s task q count

def fdWritePipe (s : FilesRun) (task : Nat) (fd : Int) (src : List Byte) :
    Option (Option Int × FilesRun) :=
  match s.files.slot task fd with
  | none => some (some (-1), s)
  | some ptr => do
    let f ← s.files.deref ptr
    match f.pipe with
    | none => some (some (-1), s)
    | some q => do
      let p ← s.files.pipes q
      if p.readOpen = false then some (some (-1), s) else writeStep s task q src src.length

def replied (s : FilesRun) (r : Int × Files) : Option Int × FilesRun :=
  (some r.1, { s with files := r.2 })

/-- fd_table_init, fd_table_dup and fd_table_destroy are called where a task is
   created, forked or exits; the first two on the slot behind the last task. -/
def fileCall (s : FilesRun) : FileCall → Option (Option Int × FilesRun)
  | .create =>
    let t := fdTableInit s.files s.files.numTasks
    some (none, { s with files := { t with numTasks := s.files.numTasks + 1 } })
  | .fork task =>
    (fdTableDup s.files s.files.numTasks task).map fun t =>
      (none, { s with files := { t with numTasks := s.files.numTasks + 1 } })
  | .exit task => (fdTableDestroy s.files task).map fun t => (none, { s with files := t })
  | .open_ task found flags alloc => some (replied s (fdOpen s.files task found flags alloc))
  | .pipe task a b c =>
    let r := fdPipe s.files task a b c
    some (some (if r.1 = none then -1 else 0), { s with files := r.2 })
  | .close task fd => (fdClose s.files task fd).map (replied s)
  | .dup2 task oldfd newfd => (fdDup2 s.files task oldfd newfd).map (replied s)
  | .read task fd count => fdReadPipe s task fd count
  | .write task fd src => fdWritePipe s task fd src
  | .resume task =>
    match s.calls task with
    | some (.reading q count) => readStep s task q count
    | some (.writing q rest count) => writeStep s task q rest count
    | none => none

def fileStep (s : FilesRun) (call : FileCall) : Option FilesRun := (fileCall s call).map Prod.snd

def onPipe (s : Files) (task : Nat) (fd : Int) : Bool :=
  ((s.slot task fd).bind s.deref).all fun f => decide (f.type = .pipe)

/-- A task that waits in a pipe makes no other call. -/
def enabled (s : FilesRun) : FileCall → Prop
  | .create => True
  | .fork task | .exit task | .open_ task _ _ _ | .pipe task _ _ _ | .close task _ =>
    task < s.files.numTasks ∧ s.calls task = none
  | .dup2 task oldfd newfd =>
    (task < s.files.numTasks ∧ s.calls task = none) ∧ oldfd ≠ newfd
  | .read task fd _ | .write task fd _ =>
    (task < s.files.numTasks ∧ s.calls task = none) ∧ onPipe s.files task fd = true
  | .resume task => s.calls task ≠ none

instance (s : FilesRun) (call : FileCall) : Decidable (enabled s call) := by
  cases call <;> simp only [enabled] <;> infer_instance

def FileRun : FilesRun → Prop := Reaches (· = filesBoot) (Guarded enabled (Taken fileStep))

structure RunInv (s : FilesRun) : Prop where
  files : FilesInv s.files.numTasks s.files
  holding : ∀ t c, s.calls t = some c → ∃ i m flags, s.files.tables t i = some (.heap m) ∧
    s.files.shape m = some (endShape c.pipe flags)
  fifo : ∀ q p, s.files.pipes q = some p → Fifo p (s.written q) (s.returned q)
  unborn : ∀ q, s.files.nextPipe ≤ q → s.written q = [] ∧ s.returned q = []

section Steps
variable {s : FilesRun} {t : Files} {task : Nat}

theorem fifo_ring {p q : Pipe} {w r : List Byte} (same : q.ring = p.ring) (fifo : Fifo p w r) :
    Fifo q w r := by
  simp only [Pipe.ring, Prod.mk.injEq] at same
  exact fifo_congr same.1 same.2.1 same.2.2.1 same.2.2.2 fifo

theorem slot_kept {u i m : Nat} {sh : Shape} (inv : RunInv s) (frame : Evolves task s.files t) {n : Nat}
    (after : FilesInv n { t with numTasks := n }) (other : u ≠ task) (holds : s.files.tables u i = some (.heap m))
    (here : s.files.shape m = some sh) : t.tables u i = some (.heap m) ∧ t.shape m = some sh := by
  have still : t.tables u i = some (.heap m) := by
    rw [frame.tables u other]
    exact holds
  obtain ⟨f, live⟩ := Option.isSome_iff_exists.mp (after.accounted.known (u, i) (.heap m) still)
  have found : t.files m = some f := live
  have shape : t.shape m = some f.shape := by simp [Files.shape, found]
  refine ⟨still, ?_⟩
  rcases frame.files m _ shape with old | new
  · exact shape.trans (old.symm.trans here)
  · rw [file_shape_none inv.files new] at here
    cases here

theorem run_inv_evolves (inv : RunInv s) (idle : s.calls task = none)
    (frame : Evolves task s.files t) (n : Nat) (after : FilesInv n { t with numTasks := n }) :
    RunInv { s with files := { t with numTasks := n } } := by
  refine ⟨after, ?_, ?_, ?_⟩
  · intro u c waiting
    obtain ⟨i, m, flags, holds, isEnd⟩ := inv.holding u c waiting
    have other : u ≠ task := by
      rintro rfl
      rw [idle] at waiting
      cases waiting
    have kept := slot_kept inv frame after other holds isEnd
    exact ⟨i, m, flags, kept⟩
  · intro q p open_
    rcases frame.pipes q p open_ with ⟨old, found, same⟩ | ⟨new, same⟩
    · exact fifo_ring same (inv.fifo q old found)
    · have blank := inv.unborn q new
      simp only [blank]
      exact fifo_ring same fifo_new
  · intro q later
    exact inv.unborn q (frame.nextPipe.trans later)

theorem files_inv_set_pipe {n q : Nat} {p after : Pipe} {t : Files} (inv : FilesInv n t)
    (open_ : t.pipes q = some p) (reading : after.readOpen = p.readOpen)
    (writing : after.writeOpen = p.writeOpen) : FilesInv n (t.setPipe q after) := by
  have ends := inv.ends
  have split : ∀ r g, Function.update t.pipes q (some after) r = some g →
      ∃ old, t.pipes r = some old ∧ ∀ flags, g.isOpen flags = old.isOpen flags := by
    intro r g found
    by_cases same : r = q
    · rw [same, Function.update_self] at found
      cases found
      exact ⟨p, by rw [same]; exact open_, fun flags => by simp [Pipe.isOpen, reading, writing]⟩
    · rw [Function.update_of_ne same] at found
      exact ⟨g, found, fun _ => rfl⟩
  have gone : ∀ r, Function.update t.pipes q (some after) r = none ↔ t.pipes r = none := by
    intro r
    by_cases same : r = q
    · simp [same, open_]
    · rw [Function.update_of_ne same]
  refine ⟨inv.accounted, ends.heap, ?_, ends.one, ?_, ?_, ?_, ends.once, ?_⟩
  · intro m sh found isPipe
    obtain ⟨r, flags, same, isEnd, live⟩ := ends.known m sh found isPipe
    refine ⟨r, flags, same, isEnd, ?_⟩
    rw [Option.isSome_iff_ne_none] at live ⊢
    exact fun none_ => live ((gone r).mp none_)
  · intro r g flags found isEnd
    obtain ⟨old, before, same⟩ := split r g found
    rw [same flags]
    exact ends.ends r old flags before isEnd
  · intro r g found
    obtain ⟨old, before, same⟩ := split r g found
    obtain ⟨flags, isEnd, yes⟩ := ends.open_ r old before
    exact ⟨flags, isEnd, by rw [same flags]; exact yes⟩
  · intro r later
    exact (gone r).mpr (ends.fresh r later)
  · intro r
    exact (ends.freed r).trans (and_congr_right fun _ => (gone r).symm)

theorem run_inv_transfer {q : Nat} {p after : Pipe} {w r : List Byte} (task : Nat)
    (call : Option PipeCall) (inv : RunInv s) (open_ : s.files.pipes q = some p) (reading : after.readOpen = p.readOpen)
    (writing : after.writeOpen = p.writeOpen) (fifo : Fifo after w r)
    (holding : ∀ c, call = some c → ∃ i m flags, s.files.tables task i = some (.heap m) ∧
      s.files.shape m = some (endShape c.pipe flags)) :
    RunInv ⟨s.files.setPipe q after, Function.update s.calls task call,
      Function.update s.written q w, Function.update s.returned q r⟩ := by
  have old := live_pipe_old inv.files.ends open_
  refine ⟨files_inv_set_pipe inv.files open_ reading writing, ?_, ?_, ?_⟩
  · intro u c waiting
    by_cases same : u = task
    · subst same
      simp only [Function.update_self] at waiting
      exact holding c waiting
    · simp only [Function.update_of_ne same] at waiting
      exact inv.holding u c waiting
  · intro k g found
    have now : Function.update s.files.pipes q (some after) k = some g := found
    by_cases same : k = q
    · rw [same, Function.update_self] at now
      cases now
      simp only [same, Function.update_self]
      exact fifo
    · rw [Function.update_of_ne same] at now
      simp only [Function.update_of_ne same]
      exact inv.fifo k g now
  · intro k later
    have later' : s.files.nextPipe ≤ k := later
    have other : k ≠ q := by omega
    simp only [Function.update_of_ne other]
    exact inv.unborn k later

theorem run_inv_wait {call : Option PipeCall} (inv : RunInv s)
    (holding : ∀ c, call = some c → ∃ i m flags, s.files.tables task i = some (.heap m) ∧
      s.files.shape m = some (endShape c.pipe flags)) :
    RunInv { s with calls := Function.update s.calls task call } := by
  refine ⟨inv.files, ?_, inv.fifo, inv.unborn⟩
  intro u c waiting
  by_cases same : u = task
  · subst same
    simp only [Function.update_self] at waiting
    exact holding c waiting
  · simp only [Function.update_of_ne same] at waiting
    exact inv.holding u c waiting

def Names (s : Files) (task q : Nat) : Prop :=
  ∃ i m flags, s.tables task i = some (.heap m) ∧ s.shape m = some (endShape q flags)

theorem names_live (inv : RunInv s) {q : Nat} (names : Names s.files task q) :
    ∃ p, s.files.pipes q = some p := by
  obtain ⟨_, m, flags, _, isEnd⟩ := names
  exact (end_pipe_live inv.files.ends isEnd).2

theorem read_step_inv {q : Nat} (inv : RunInv s) (names : Names s.files task q) (count : Nat) :
    ∃ r, readStep s task q count = some r ∧ RunInv r.2 := by
  obtain ⟨p, open_⟩ := names_live inv names
  simp only [readStep, open_, Option.map_some, Option.some.injEq, exists_eq_left']
  unfold readRound
  split
  · exact run_inv_wait inv (by rintro c ⟨⟩; exact names)
  · rename_i bytes after took
    have fifo := inv.fifo q p open_
    have result : after.readOpen = p.readOpen ∧ after.writeOpen = p.writeOpen ∧
        Fifo after (s.written q) (s.returned q ++ bytes) := by
      split at took
      · split at took
        · cases took
          exact ⟨rfl, rfl, by simpa using fifo⟩
        · cases took
      · have kept := take_open count p
        have taken := fifo_take fifo count
        rw [Option.some.inj took] at kept taken
        exact ⟨kept.1, kept.2, taken⟩
    obtain ⟨reading, writing, further⟩ := result
    have next := run_inv_transfer task none inv open_ reading writing further
      (by simp)
    rw [Function.update_eq_self] at next
    exact next

theorem write_step_inv {q : Nat} (inv : RunInv s) (names : Names s.files task q)
    (rest : List Byte) (count : Nat) :
    ∃ r, writeStep s task q rest count = some r ∧ RunInv r.2 := by
  obtain ⟨p, open_⟩ := names_live inv names
  have fifo := (fifo_put (inv.fifo q p open_) rest).1
  obtain ⟨reading, writing⟩ := put_open rest p
  rw [← write_round_pipe] at fifo reading writing
  have next : ∀ call : Option PipeCall, (∀ c, call = some c → c.pipe = q) →
      RunInv ⟨s.files.setPipe q (writeRound p rest).2, Function.update s.calls task call,
        Function.update s.written q (s.written q ++ stored p rest), s.returned⟩ := by
    intro call same
    have transfer := run_inv_transfer task call inv open_ reading writing fifo
      (by
        intro c here
        rw [same c here]
        exact names)
    rw [Function.update_eq_self] at transfer
    exact transfer
  simp only [writeStep, open_, Option.map_some, Option.some.injEq, exists_eq_left']
  split
  · exact next none (by simp)
  · exact next none (by simp)
  · exact next (some (.writing q _ count)) (by rintro c ⟨⟩; rfl)

theorem on_pipe_names (inv : RunInv s) {fd : Int} {ptr : FilePtr} {f : OpenFile}
    (kind : onPipe s.files task fd = true) (here : s.files.slot task fd = some ptr)
    (live : s.files.deref ptr = some f) : ∃ q, f.pipe = some q ∧ Names s.files task q := by
  simp only [onPipe, here, Option.bind_some, live, Option.all_some, decide_eq_true_eq] at kind
  cases ptr with
  | console =>
    obtain ⟨g, found, console⟩ := inv.files.accounted.console
    rw [live] at found
    cases found
    rw [kind] at console
    cases console
  | dummy =>
    rw [inv.files.accounted.dummy] at live
    cases live
  | heap m =>
    have found : s.files.files m = some f := live
    have shape : s.files.shape m = some f.shape := by simp [Files.shape, found]
    obtain ⟨q, flags, same, _, _⟩ := inv.files.ends.known m _ shape kind
    have pipe : f.pipe = some q := congrArg Shape.pipe same
    rw [same] at shape
    exact ⟨q, pipe, fd.toNat, m, flags, (slot_some here).2.2, shape⟩

theorem task_blank (inv : RunInv s) {u : Nat} (later : s.files.numTasks ≤ u) :
    s.calls u = none ∧ ∀ i, s.files.tables u i = none := by
  have blank : ∀ i, s.files.tables u i = none := by
    intro i
    by_contra full
    have inside := (mem_slots_of.mp (inv.files.accounted.blank (u, i) full)).1
    omega
  refine ⟨?_, blank⟩
  cases call : s.calls u with
  | none => rfl
  | some c =>
    obtain ⟨i, m, _, holds, _⟩ := inv.holding u c call
    rw [blank i] at holds
    cases holds

def onTables : FileCall → Bool
  | .read _ _ _ | .write _ _ _ | .resume _ => false
  | _ => true

structure TableStep (task : Nat) (s t : FilesRun) : Prop where
  idle : s.calls task = none
  inv : FilesInv t.files.numTasks t.files
  frame : Evolves task s.files { t.files with numTasks := s.files.numTasks }
  rest : t = { s with files := t.files }

theorem run_inv_table_step {u : FilesRun} (inv : RunInv s) (step : TableStep task s u) : RunInv u := by
  have after := step.inv
  rw [step.rest]
  exact run_inv_evolves inv step.idle step.frame u.files.numTasks ⟨after.accounted, after.ends⟩

theorem table_step_of_evolves (may : task < s.files.numTasks ∧ s.calls task = none)
    (after : FilesInv s.files.numTasks t) (frame : Evolves task s.files t) :
    TableStep task s { s with files := t } := by
  have same : { t with numTasks := s.files.numTasks } = t := by rw [← frame.tasks]
  constructor
  · exact may.2
  · dsimp only
    rw [frame.tasks]
    exact after
  · dsimp only
    rw [same]
    exact frame
  · rfl

/-- No call of the descriptor layer follows a pointer to a freed object. -/
theorem table_call_steps (inv : RunInv s) {call : FileCall} (may : enabled s call)
    (tables : onTables call = true) : ∃ r task, fileCall s call = some r ∧ TableStep task s r.2 := by
  cases call with
  | create =>
    obtain ⟨idle, blank⟩ := task_blank inv (Nat.le_refl _)
    have wider : FilesInv (s.files.numTasks + 1) s.files :=
      ⟨accounted_more (Nat.le_succ _) inv.files.accounted, inv.files.ends⟩
    obtain ⟨after, frame⟩ := table_init_inv wider (Nat.lt_succ_self _) blank
    exact ⟨_, s.files.numTasks, rfl, idle, ⟨after.accounted, after.ends⟩, frame, rfl⟩
  | fork task =>
    obtain ⟨idle, blank⟩ := task_blank inv (Nat.le_refl _)
    have wider : FilesInv (s.files.numTasks + 1) s.files :=
      ⟨accounted_more (Nat.le_succ _) inv.files.accounted, inv.files.ends⟩
    obtain ⟨t, run, after, frame⟩ := dup_inv task (i := 0) (k := maxFds) wider
      (Nat.lt_succ_self _) (by simp) fun j _ => blank j
    have same : { t with numTasks := s.files.numTasks } = t := by rw [← frame.tasks]
    refine ⟨_, s.files.numTasks, by rw [fileCall, fdTableDup, run]; rfl, idle,
      ⟨after.accounted, after.ends⟩, ?_, rfl⟩
    dsimp only
    rw [same]
    exact frame
  | exit task =>
    obtain ⟨t, run, after, frame⟩ := destroy_inv inv.files task 0 maxFds
    exact ⟨_, task, by rw [fileCall, fdTableDestroy, run]; rfl, table_step_of_evolves may after frame⟩
  | open_ task found flags alloc =>
    obtain ⟨after, frame⟩ := fd_open_inv inv.files may.1 found flags alloc
    exact ⟨_, task, rfl, table_step_of_evolves may after frame⟩
  | pipe task a b c =>
    obtain ⟨after, frame⟩ := fd_pipe_inv inv.files may.1 a b c
    exact ⟨_, task, rfl, table_step_of_evolves may after frame⟩
  | close task fd =>
    obtain ⟨v, t, run, after, frame⟩ := fd_close_inv inv.files task fd
    exact ⟨_, task, by rw [fileCall, run]; rfl, table_step_of_evolves may after frame⟩
  | dup2 task oldfd newfd =>
    obtain ⟨v, t, run, after, frame⟩ := fd_dup2_inv inv.files may.1.1 may.2
    exact ⟨_, task, by rw [fileCall, run]; rfl, table_step_of_evolves may.1 after frame⟩
  | read task fd count => cases tables
  | write task fd src => cases tables
  | resume task => cases tables

theorem file_call_inv (inv : RunInv s) {call : FileCall} (may : enabled s call) :
    ∃ r, fileCall s call = some r ∧ RunInv r.2 := by
  cases call with
  | read task fd count =>
    simp only [fileCall, fdReadPipe]
    cases here : s.files.slot task fd with
    | none => exact ⟨_, rfl, inv⟩
    | some ptr =>
      obtain ⟨f, live⟩ := Option.isSome_iff_exists.mp
        (inv.files.accounted.known (task, fd.toNat) ptr (slot_some here).2.2)
      obtain ⟨q, pipe, names⟩ := on_pipe_names inv may.2 here live
      simp only [live, Option.bind_eq_bind, Option.bind_some, pipe]
      exact read_step_inv inv names count
  | write task fd src =>
    simp only [fileCall, fdWritePipe]
    cases here : s.files.slot task fd with
    | none => exact ⟨_, rfl, inv⟩
    | some ptr =>
      obtain ⟨f, live⟩ := Option.isSome_iff_exists.mp
        (inv.files.accounted.known (task, fd.toNat) ptr (slot_some here).2.2)
      obtain ⟨q, pipe, names⟩ := on_pipe_names inv may.2 here live
      obtain ⟨p, open_⟩ := names_live inv names
      simp only [live, Option.bind_eq_bind, Option.bind_some, pipe, open_]
      split
      · exact ⟨_, rfl, inv⟩
      · exact write_step_inv inv names src src.length
  | resume task =>
    simp only [fileCall]
    cases waiting : s.calls task with
    | none => exact absurd waiting may
    | some c =>
      have names := inv.holding task c waiting
      cases c with
      | reading q count => exact read_step_inv inv names count
      | writing q rest count => exact write_step_inv inv names rest count
  | _ =>
    obtain ⟨r, task, result, step⟩ := table_call_steps inv may rfl
    exact ⟨r, result, run_inv_table_step inv step⟩

end Steps

theorem run_inv_boot : RunInv filesBoot := by
  refine ⟨⟨?_, ?_⟩, by simp [filesBoot], by simp [filesBoot], fun _ _ => ⟨rfl, rfl⟩⟩
  · refine ⟨?_, ?_, ?_, ?_, ?_, List.nodup_nil, ?_, ⟨_, rfl, rfl⟩, rfl⟩
    · intro x full
      exact absurd rfl full
    · intro x ptr holds
      cases holds
    · intro ptr f live
      cases ptr with
      | console =>
        cases live
        simp [holders, Files.held, filesBoot]
      | heap m => cases live
      | dummy => cases live
    · intro m f live
      cases live
    · intro m _
      rfl
    · intro m
      simp [filesBoot]
  · constructor <;> simp [filesBoot, Files.shape]

theorem file_run_inv {s : FilesRun} (run : FileRun s) : RunInv s := by
  refine reaches_invariant _ ?_ ?_ run
  · rintro s rfl
    exact run_inv_boot
  · intro s call t inv step
    obtain ⟨r, result, after⟩ := file_call_inv inv step.1
    have taken : fileStep s call = some t := step.2
    simp only [fileStep, result, Option.map_some, Option.some.injEq] at taken
    rw [← taken]
    exact after

def RefersTo (s : Files) (q : Nat) (flags : Int) : Prop :=
  ∃ t i m f, s.tables t i = some (.heap m) ∧ s.files m = some f ∧ f.type = .pipe ∧
    f.flags = flags ∧ f.pipe = some q

def slotsTo (s : Files) (ptr : FilePtr) : Finset (Nat × Nat) :=
  holders (slotsOf s.numTasks) s.held ptr

structure ReferenceCounted (s : FilesRun) : Prop where
  counts : ∀ ptr f, s.files.deref ptr = some f → f.refCount = (slotsTo s.files ptr).card
  slots : ∀ t i ptr, s.files.tables t i = some ptr → (t, i) ∈ slotsTo s.files ptr ∧
    (s.files.deref ptr).isSome ∧ ∀ m, ptr = .heap m → m ∉ s.files.freedFiles
  live : ∀ m, (s.files.files m).isSome ↔ (slotsTo s.files (.heap m)).Nonempty
  freed : ∀ m, s.files.freedFiles.count m ≤ 1 ∧ (s.files.freedFiles.count m = 1 ↔
    m < s.files.nextFile ∧ slotsTo s.files (.heap m) = ∅)
  reading : ∀ q p, s.files.pipes q = some p → (p.readOpen = true ↔ RefersTo s.files q oRdonly)
  writing : ∀ q p, s.files.pipes q = some p → (p.writeOpen = true ↔ RefersTo s.files q oWronly)
  freedPipes : ∀ q, s.files.freedPipes.count q ≤ 1 ∧ (s.files.freedPipes.count q = 1 ↔
    q < s.files.nextPipe ∧ ¬ RefersTo s.files q oRdonly ∧ ¬ RefersTo s.files q oWronly)
  blocked : ∀ t c, s.calls t = some c →
    (s.files.pipes c.pipe).isSome ∧ c.pipe ∉ s.files.freedPipes

theorem refers_to_iff {s : FilesRun} (inv : RunInv s) {q : Nat} {flags : Int} :
    RefersTo s.files q flags ↔ ∃ m, s.files.shape m = some (endShape q flags) := by
  constructor
  · rintro ⟨_, _, m, f, _, found, kind, which, pipe⟩
    exact ⟨m, by simp [Files.shape, found, OpenFile.shape, endShape, kind, which, pipe]⟩
  · rintro ⟨m, shape⟩
    obtain ⟨f, found, same⟩ := Option.map_eq_some_iff.mp shape
    have count := inv.files.accounted.counted (.heap m) f found
    have positive := inv.files.accounted.alive m f found
    rw [count] at positive
    obtain ⟨⟨t, i⟩, member⟩ := Finset.card_pos.mp (Int.natCast_pos.mp positive)
    simp only [OpenFile.shape, endShape, Shape.mk.injEq] at same
    exact ⟨t, i, m, f, (mem_holders.mp member).2, found, same.1, same.2.1, same.2.2⟩

theorem count_once {log : List Nat} (once : log.Nodup) (m : Nat) :
    log.count m ≤ 1 ∧ (log.count m = 1 ↔ m ∈ log) := by
  refine ⟨List.nodup_iff_count_le_one.mp once m, ?_, List.count_eq_one_of_mem once⟩
  intro one
  exact List.count_pos_iff.mp (by omega)

theorem reference_counted_of_inv {s : FilesRun} (inv : RunInv s) : ReferenceCounted s := by
  have counts := inv.files.accounted
  have ends := inv.files.ends
  have live : ∀ m, (s.files.files m).isSome ↔ (slotsTo s.files (.heap m)).Nonempty := by
    intro m
    constructor
    · intro alive
      obtain ⟨f, found⟩ := Option.isSome_iff_exists.mp alive
      have count := counts.counted (.heap m) f found
      have positive := counts.alive m f found
      rw [count] at positive
      exact Finset.card_pos.mp (Int.natCast_pos.mp positive)
    · rintro ⟨x, member⟩
      exact counts.known x (.heap m) (mem_holders.mp member).2
  have noPipe : ∀ q, s.files.pipes q = none ↔
      ¬ RefersTo s.files q oRdonly ∧ ¬ RefersTo s.files q oWronly := by
    intro q
    rw [refers_to_iff inv, refers_to_iff inv]
    constructor
    · intro gone
      constructor <;> rintro ⟨m, here⟩ <;>
        · obtain ⟨p, found⟩ := (end_pipe_live ends here).2
          rw [gone] at found
          cases found
    · rintro ⟨noRead, noWrite⟩
      by_contra there
      obtain ⟨p, found⟩ := Option.ne_none_iff_exists'.mp there
      obtain ⟨flags, isEnd, yes⟩ := ends.open_ q p found
      have some_ := (ends.ends q p flags found isEnd).mp yes
      rcases isEnd with rfl | rfl
      · exact noRead some_
      · exact noWrite some_
  refine ⟨counts.counted, ?_, live, ?_, ?_, ?_, ?_, ?_⟩
  · intro t i ptr holds
    have cell := counts.blank (t, i) (by simp [Files.held, holds])
    have there := counts.known (t, i) ptr holds
    refine ⟨mem_holders.mpr ⟨cell, holds⟩, there, ?_⟩
    rintro m rfl already
    rw [((counts.freed m).mp already).2] at there
    cases there
  · intro m
    obtain ⟨most, one⟩ := count_once counts.once m
    refine ⟨most, one.trans ((counts.freed m).trans (and_congr_right fun _ => ?_))⟩
    rw [← Finset.not_nonempty_iff_eq_empty, ← live, Option.not_isSome_iff_eq_none]
    exact Iff.rfl
  · intro q p found
    rw [refers_to_iff inv]
    simpa [Pipe.isOpen] using ends.ends q p oRdonly found (Or.inl rfl)
  · intro q p found
    rw [refers_to_iff inv]
    have writing := ends.ends q p oWronly found (Or.inr rfl)
    rwa [Pipe.isOpen, if_neg (by decide)] at writing
  · intro q
    obtain ⟨most, one⟩ := count_once ends.once q
    exact ⟨most, one.trans ((ends.freed q).trans (and_congr_right fun _ => noPipe q))⟩
  · intro t c waiting
    obtain ⟨p, found⟩ := names_live inv (inv.holding t c waiting)
    refine ⟨by simp [found], ?_⟩
    intro already
    rw [((ends.freed _).mp already).2] at found
    cases found

theorem file_references_counted (s : FilesRun) (run : FileRun s) :
    ReferenceCounted s ∧ ∀ call, enabled s call → (fileCall s call).isSome := by
  have inv := file_run_inv run
  refine ⟨reference_counted_of_inv inv, ?_⟩
  intro call may
  obtain ⟨r, result, _⟩ := file_call_inv inv may
  simp [result]

/-- Two tasks share a pipe, and each end goes with the second of them. -/
theorem references_counted_after_fork :
    ∃ s, runActions (allowed enabled fileStep) filesBoot
        [.create, .pipe 0 true true true, .fork 0, .close 0 3, .dup2 1 4 0, .exit 1, .exit 0] = some s ∧
      s.files.freedFiles = [1, 0] ∧ s.files.freedPipes = [0] ∧ ReferenceCounted s := by
  have look : (runActions (allowed enabled fileStep) filesBoot
      [.create, .pipe 0 true true true, .fork 0, .close 0 3, .dup2 1 4 0, .exit 1, .exit 0]).any
        (fun s => decide (s.files.freedFiles = [1, 0] ∧ s.files.freedPipes = [0])) = true := by
    decide +kernel
  obtain ⟨s, run, found⟩ := (Option.any_eq_true _ _).mp look
  obtain ⟨files, pipes⟩ := of_decide_eq_true found
  exact ⟨s, run, files, pipes,
    (file_references_counted s (reaches_of_allowed (Reaches.start rfl) run)).1⟩

def readsFrom (s : FilesRun) : FileCall → Option (Nat × Nat)
  | .read task fd count => (s.files.slot task fd).bind fun ptr => (s.files.deref ptr).bind fun f =>
    f.pipe.map fun q => (q, count)
  | .resume task =>
    match s.calls task with
    | some (.reading q count) => some (q, count)
    | _ => none
  | _ => none

structure PipesFifo (s : FilesRun) : Prop where
  bounded : ∀ q p, s.files.pipes q = some p → p.count ≤ pipeBufSize
  position : ∀ q p, s.files.pipes q = some p → p.writePos = (p.readPos + p.count) % pipeBufSize
  order : ∀ q p, s.files.pipes q = some p → s.returned q ++ p.contents = s.written q
  eof : ∀ call q count t, enabled s call → readsFrom s call = some (q, count) → 1 ≤ count →
    fileCall s call = some (some 0, t) →
    (∃ p, t.files.pipes q = some p ∧ p.count = 0) ∧ ¬ RefersTo t.files q oWronly

theorem read_step_eof {s t : FilesRun} {task q count : Nat} (asked : 1 ≤ count)
    (step : readStep s task q count = some (some 0, t)) :
    ∃ p, s.files.pipes q = some p ∧ p.count = 0 ∧ p.writeOpen = false ∧
      t.files = s.files.setPipe q p := by
  unfold readStep at step
  obtain ⟨p, open_, result⟩ := Option.map_eq_some_iff.mp step
  unfold readRound at result
  by_cases empty : p.count = 0
  · by_cases closed : p.writeOpen = false
    · simp only [empty, closed, ↓reduceIte] at result
      exact ⟨p, open_, empty, closed, by rw [← (Prod.mk.inj result).2]⟩
    · simp [empty, closed] at result
  · have took := take_nonempty (p := p) (n := count) (by omega) asked
    simp only [empty, ↓reduceIte, Prod.mk.injEq, Option.some.injEq, Int.natCast_eq_zero,
      List.length_eq_zero_iff] at result
    exact absurd result.1 took

theorem pipes_are_fifo (s : FilesRun) (run : FileRun s) : PipesFifo s := by
  have inv := file_run_inv run
  refine ⟨fun q p found => (inv.fifo q p found).bounded, fun q p found => (inv.fifo q p found).position,
    fun q p found => (inv.fifo q p found).order, ?_⟩
  intro call q count t may reads asked result
  have step : ∃ task, readStep s task q count = some (some 0, t) := by
    cases call with
    | read task fd count' =>
      simp only [readsFrom] at reads
      obtain ⟨ptr, here, reads⟩ := Option.bind_eq_some_iff.mp reads
      obtain ⟨f, live, reads⟩ := Option.bind_eq_some_iff.mp reads
      obtain ⟨q', pipe, same⟩ := Option.map_eq_some_iff.mp reads
      cases same
      refine ⟨task, ?_⟩
      simpa only [fileCall, fdReadPipe, here, live, Option.bind_eq_bind, Option.bind_some,
        pipe] using result
    | resume task =>
      refine ⟨task, ?_⟩
      simp only [readsFrom] at reads
      cases waiting : s.calls task with
      | none => exact absurd waiting may
      | some c =>
        cases c with
        | reading q' count' =>
          simp only [waiting, Option.some.injEq, Prod.mk.injEq] at reads
          simpa only [fileCall, waiting, reads.1, reads.2] using result
        | writing q' rest count' => simp [waiting] at reads
    | _ => cases reads
  obtain ⟨task, step⟩ := step
  obtain ⟨p, open_, empty, closed, files⟩ := read_step_eof asked step
  refine ⟨⟨p, by rw [files]; simp [Files.setPipe], empty⟩, ?_⟩
  intro refers
  have before : RefersTo s.files q oWronly := by
    rw [files] at refers
    exact refers
  rw [((reference_counted_of_inv inv).writing q p open_).mpr before] at closed
  cases closed

/-- A reader that waits for a writer of another task, then drains the pipe. -/
theorem fifo_after_blocked_read :
    ∃ s, runActions (allowed enabled fileStep) filesBoot
        [.create, .pipe 0 true true true, .fork 0, .read 0 3 2, .write 1 4 [7, 8, 9], .resume 0,
          .read 0 3 5] = some s ∧
      s.returned 0 = [7, 8, 9] ∧ PipesFifo s := by
  have look : (runActions (allowed enabled fileStep) filesBoot
      [.create, .pipe 0 true true true, .fork 0, .read 0 3 2, .write 1 4 [7, 8, 9], .resume 0,
        .read 0 3 5]).any (fun s => decide (s.returned 0 = [7, 8, 9])) = true := by
    decide +kernel
  obtain ⟨s, run, found⟩ := (Option.any_eq_true _ _).mp look
  exact ⟨s, run, of_decide_eq_true found,
    pipes_are_fifo s (reaches_of_allowed (Reaches.start rfl) run)⟩

end Archarch.Descriptors
