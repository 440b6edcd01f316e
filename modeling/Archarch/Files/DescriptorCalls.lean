import Archarch.Memory.Kmalloc
import Archarch.Volumes.Fat16
import Archarch.Files.DescriptorUpdates

/- fd_read and fd_write with all their branches: the type of the file decides. A read stores
   into the buffer of its caller; its stores are offsets with their bytes, in order. -/
namespace Archarch.Descriptors
open LabelledRuns KernelHeap

abbrev Stores := List (Nat × Byte)

/-- A cast of a 32-bit word to int, and of an int to a word. -/
def intOf (word : Nat) : Int := (BitVec.ofNat 32 word).toInt

def wordOf (value : Int) : Nat := (BitVec.ofInt 32 value).toNat

/-- The loop of the console branch over what uart_getc returns; none while it waits for more. -/
def consoleLoop (limit i : Nat) (stores : Stores) : List Byte → Option (Nat × Stores)
  | [] => if i < limit then none else some (i, stores)
  | c :: rest =>
    if i < limit then
      if c = 0x0D ∨ c = 0x0A then some (i + 1, stores ++ [(i, 0x0A)])
      else if c = 127 ∨ c = 8 then consoleLoop limit (i - 1) stores rest
      else if 32 ≤ c.toNat ∧ c.toNat < 127 then consoleLoop limit (i + 1) (stores ++ [(i, c)]) rest
      else consoleLoop limit i stores rest
    else some (i, stores)

/-- count - 1 is a 32-bit word. -/
def fdReadConsole (count : Nat) (typed : List Byte) : Option (Nat × Stores) :=
  consoleLoop ((count + 2 ^ 32 - 1) % 2 ^ 32) 0 [] typed

def pipeStores (s : FilesRun) (q count : Nat) : Stores :=
  match s.files.pipes q with
  | none => []
  | some p =>
    match readRound p count with
    | none => []
    | some (bytes, _) => (List.range bytes.length).zip bytes

structure Transfer where
  result : Int
  stores : Stores
  moved : Nat

def putStores (memory : Nat → Byte) (stores : Stores) : Nat → Byte :=
  stores.foldl (fun m w => Function.update m w.1 w.2) memory

/-- for (j = 0; j < actual; j++) dst[j] = tmpbuf[f->position + j]; -/
def copyBehind (position count : Nat) (second : Fat16.Progress) (tmpbuf : Nat → Byte) : Stores :=
  if intOf position < second.result then
    let actual := min ((wordOf second.result + 2 ^ 32 - position) % 2 ^ 32) count
    (List.range actual).map fun j => (j, putStores tmpbuf second.stores ((position + j) % 2 ^ 32))
  else []

/-- The branch of a FAT16 file. The first pass reads the file into the buffer of the caller, the
    second into the block that kmalloc returns, if it returns one. -/
def fdReadFile (fs : Fat16.Fs) (f : OpenFile) (count : Nat) (block : Option (Nat → Byte)) :
    Option Transfer :=
  if f.fileSize ≤ f.position then some ⟨0, [], 0⟩
  else
    let count := min count (f.fileSize - f.position)
    let pass := Fat16.fat16ReadFile fs ⟨f.firstCluster, f.fileSize⟩ ((f.position + count) % 2 ^ 32)
    pass.bind fun first =>
      if first.result < 0 then some ⟨-1, first.stores, 0⟩
      else if f.position < wordOf first.result then
        match block with
        | none => some ⟨-1, first.stores, 0⟩
        | some tmpbuf => pass.map fun second =>
          let copied := copyBehind f.position count second tmpbuf
          ⟨intOf copied.length, first.stores ++ copied, copied.length⟩
      else some ⟨0, first.stores, 0⟩

/-- What a read takes besides its descriptor: typed is what arrives on the console, block what
    kmalloc returns. -/
structure ReadArgs where
  count : Nat
  typed : List Byte
  block : Option (Nat → Byte)

/-- The result is none for a task that yields. -/
def fdRead (fs : Fat16.Fs) (s : FilesRun) (task : Nat) (fd : Int) (args : ReadArgs) :
    Option (Option Int × Stores × FilesRun) :=
  match s.files.slot task fd with
  | none => some (some (-1), [], s)
  | some ptr => (s.files.deref ptr).bind fun f =>
    match f.type with
    | .console => (fdReadConsole args.count args.typed).map fun r => (some (intOf r.1), r.2, s)
    | .pipe => (fdReadPipe s task fd args.count).map fun r =>
      (r.1, (f.pipe.map fun q => pipeStores s q args.count).getD [], r.2)
    | .file => (fdReadFile fs f args.count args.block).map fun r =>
      (some r.result, r.stores, { s with
        files := s.files.setFile ptr { f with position := (f.position + r.moved) % 2 ^ 32 } })
    | .none => some (some (-1), [], s)

def fdWrite (s : FilesRun) (task : Nat) (fd : Int) (src : List Byte) : Option (Option Int × FilesRun) :=
  match s.files.slot task fd with
  | none => some (some (-1), s)
  | some ptr => (s.files.deref ptr).bind fun f =>
    match f.type with
    | .console => some (some src.length, s)
    | .pipe => fdWritePipe s task fd src
    | .file | .none => some (some (-1), s)

/-- The memory of a task below the kernel: where it can store, and what is there. -/
structure Space where
  memory : Nat → Byte
  writable : Nat → Bool
  low : ∀ a, writable a = true → a < kernVaOffset

/-- A store where the task cannot store is a data abort in the kernel: the call does not return. -/
def Space.store (space : Space) (buf : Nat) : Stores → Option Space
  | [] => some space
  | w :: rest =>
    if space.writable ((buf + w.1) % 2 ^ 64) then
      store { space with memory := Function.update space.memory ((buf + w.1) % 2 ^ 64) w.2 } buf rest
    else none

def Space.bytes (space : Space) (buf n : Nat) : List Byte :=
  (List.range n).map fun i => space.memory ((buf + i) % 2 ^ 64)

/-- bufs are the buffers of the reads that wait; delivered are the bytes that the reads of each
    file returned, in the order of the calls. -/
structure FdRun where
  run : FilesRun
  bufs : Nat → Nat
  delivered : Nat → List Byte

/-- A task makes what it likes of its memory between two calls, so a call brings its own. -/
inductive FdCall where
  | other (call : FileCall)
  | read (task : Nat) (fd : Int) (buf : Nat) (args : ReadArgs) (space : Space)
  | write (task : Nat) (fd : Int) (src : List Byte)
  | resume (task : Nat) (space : Space)

def fdBoot : FdRun := ⟨filesBoot, fun _ => 0, fun _ => []⟩

/-- The file behind a descriptor, if it is one of the volume. -/
def fileOf (s : Files) (task : Nat) (fd : Int) : Option Nat :=
  match s.slot task fd with
  | some (.heap m) => ((s.files m).filter fun f => decide (f.type = .file)).map fun _ => m
  | _ => none

def deliver (s : FdRun) (file : Option Nat) (bytes : List Byte) : Nat → List Byte :=
  match file with
  | none => s.delivered
  | some m => Function.update s.delivered m (s.delivered m ++ bytes)

def resumeStores (s : FilesRun) (task : Nat) : Stores :=
  match s.calls task with
  | some (.reading q count) => pipeStores s q count
  | _ => []

def fdCall (fs : Fat16.Fs) (s : FdRun) : FdCall → Option (Option Int × FdRun)
  | .other call => (fileCall s.run call).map fun r => (r.1, { s with run := r.2 })
  | .read task fd buf args space => do
    let (result, stores, run) ← fdRead fs s.run task fd args
    let after ← space.store buf stores
    let bytes := after.bytes buf ((result.getD 0).toNat)
    some (result, ⟨run, Function.update s.bufs task buf, deliver s (fileOf s.run.files task fd) bytes⟩)
  | .write task fd src => (fdWrite s.run task fd src).map fun r => (r.1, { s with run := r.2 })
  | .resume task space => do
    let r ← fileCall s.run (.resume task)
    let _ ← space.store (s.bufs task) (resumeStores s.run task)
    some (r.1, { s with run := r.2 })

def fdStep (fs : Fat16.Fs) (s : FdRun) (call : FdCall) : Option FdRun := (fdCall fs s call).map Prod.snd

def idle (s : FilesRun) (task : Nat) : Prop := task < s.files.numTasks ∧ s.calls task = none

/-- fd_dup2 may be called with one descriptor twice; a buffer is a pointer below the kernel. -/
def callable (s : FdRun) : FdCall → Prop
  | .other (.dup2 task _ _) | .write task _ _ => idle s.run task
  | .other (.read _ _ _) | .other (.write _ _ _) | .other (.resume _) => False
  | .other call => enabled s.run call
  | .read task _ buf _ _ => idle s.run task ∧ buf < kernVaOffset
  | .resume task _ => s.run.calls task ≠ none

instance (s : FilesRun) (task : Nat) : Decidable (idle s task) := inferInstanceAs (Decidable (_ ∧ _))

instance (s : FdRun) (call : FdCall) : Decidable (callable s call) :=
  match call with
  | .other call => match call with
    | .dup2 task _ _ => inferInstanceAs (Decidable (idle s.run task))
    | .read _ _ _ | .write _ _ _ | .resume _ => inferInstanceAs (Decidable False)
    | .create => inferInstanceAs (Decidable (enabled s.run .create))
    | .fork task => inferInstanceAs (Decidable (enabled s.run (.fork task)))
    | .exit task => inferInstanceAs (Decidable (enabled s.run (.exit task)))
    | .open_ task found flags alloc => inferInstanceAs (Decidable (enabled s.run (.open_ task found flags alloc)))
    | .pipe task a b c => inferInstanceAs (Decidable (enabled s.run (.pipe task a b c)))
    | .close task fd => inferInstanceAs (Decidable (enabled s.run (.close task fd)))
  | .read task _ buf _ _ => inferInstanceAs (Decidable (idle s.run task ∧ buf < kernVaOffset))
  | .write task _ _ => inferInstanceAs (Decidable (idle s.run task))
  | .resume task _ => inferInstanceAs (Decidable (s.run.calls task ≠ none))

def FdReached (fs : Fat16.Fs) : FdRun → Prop := Reaches (· = fdBoot) (Guarded callable (Taken (fdStep fs)))

section Invariant
variable {fs : Fat16.Fs} {task n : Nat} {fd : Int} {ptr : FilePtr} {f g : OpenFile}

theorem files_inv_set_file {s : Files} (inv : FilesInv n s) (live : s.deref ptr = some f)
    (count : g.refCount = f.refCount) (same : g.shape = f.shape) : FilesInv n (s.setFile ptr g) := by
  have accounted := inv.accounted
  have type : g.type = f.type := congrArg Shape.type same
  have next : (s.setFile ptr g).nextFile = s.nextFile := by cases ptr <;> rfl
  have freed : (s.setFile ptr g).freedFiles = s.freedFiles := by cases ptr <;> rfl
  have split : ∀ other h, Function.update s.deref ptr (some g) other = some h →
      ∃ old, s.deref other = some old ∧ h.refCount = old.refCount ∧ h.type = old.type := by
    intro other h found
    by_cases here : other = ptr
    · rw [here, Function.update_self] at found
      cases found
      exact ⟨f, by rw [here]; exact live, count, type⟩
    · rw [Function.update_of_ne here] at found
      exact ⟨h, found, rfl, rfl⟩
  have gone : ∀ other, Function.update s.deref ptr (some g) other = none ↔ s.deref other = none := by
    intro other
    by_cases here : other = ptr
    · simp [here, live]
    · rw [Function.update_of_ne here]
  constructor
  · rw [held_set_file, deref_set_file live, next, freed]
    refine ⟨accounted.blank, ?_, ?_, ?_, ?_, accounted.once, ?_, ?_, (gone _).mpr accounted.dummy⟩
    · intro x other holds
      have alive := accounted.known x other holds
      rw [Option.isSome_iff_ne_none] at alive ⊢
      exact fun none_ => alive ((gone other).mp none_)
    · intro other h found
      obtain ⟨old, before, same, _⟩ := split other h found
      rw [same]
      exact accounted.counted other old before
    · intro m h found
      obtain ⟨old, before, same, _⟩ := split (.heap m) h found
      rw [same]
      exact accounted.alive m old before
    · intro m later
      exact (gone (.heap m)).mpr (accounted.fresh m later)
    · intro m
      exact (accounted.freed m).trans (and_congr_right fun _ => (gone (.heap m)).symm)
    · obtain ⟨old, found, kind⟩ := accounted.console
      by_cases here : FilePtr.console = ptr
      · refine ⟨g, by rw [here, Function.update_self], ?_⟩
        rw [← here, found] at live
        cases live
        exact type.trans kind
      · exact ⟨old, by rw [Function.update_of_ne here]; exact found, kind⟩
  · have shape := shape_set_file live same
    have pipes : (s.setFile ptr g).pipes = s.pipes := by cases ptr <;> rfl
    have nextPipe : (s.setFile ptr g).nextPipe = s.nextPipe := by cases ptr <;> rfl
    have freedPipes : (s.setFile ptr g).freedPipes = s.freedPipes := by cases ptr <;> rfl
    rw [shape, pipes, nextPipe, freedPipes]
    exact inv.ends

theorem run_inv_set_file {s : FilesRun} (inv : RunInv s) (live : s.files.deref ptr = some f)
    (count : g.refCount = f.refCount) (same : g.shape = f.shape) :
    RunInv { s with files := s.files.setFile ptr g } := by
  have shape := shape_set_file live same
  have tables : (s.files.setFile ptr g).tables = s.files.tables := tables_set_file
  have pipes : (s.files.setFile ptr g).pipes = s.files.pipes := by cases ptr <;> rfl
  have nextPipe : (s.files.setFile ptr g).nextPipe = s.files.nextPipe := by cases ptr <;> rfl
  have tasks : (s.files.setFile ptr g).numTasks = s.files.numTasks := by cases ptr <;> rfl
  constructor
  · rw [tasks]
    exact files_inv_set_file inv.files live count same
  · intro t c waiting
    rw [shape, tables]
    exact inv.holding t c waiting
  · rw [pipes]
    exact inv.fifo
  · rw [nextPipe]
    exact inv.unborn

theorem on_pipe_of_type {s : Files} (here : s.slot task fd = some ptr) (live : s.deref ptr = some f)
    (kind : f.type = .pipe) : onPipe s task fd = true := by
  rw [onPipe, here, Option.bind_some, live, Option.all_some]
  exact decide_eq_true kind

theorem fd_read_inv {s t : FilesRun} {args : ReadArgs} {result : Option Int} {stores : Stores}
    (inv : RunInv s) (free : idle s task) (step : fdRead fs s task fd args = some (result, stores, t)) :
    RunInv t := by
  unfold fdRead at step
  split at step
  · cases step
    exact inv
  · rename_i ptr here
    obtain ⟨f, live, rest⟩ := Option.bind_eq_some_iff.mp step
    cases kind : f.type with
    | none =>
      simp only [kind, Option.some.injEq] at rest
      cases rest
      exact inv
    | console =>
      simp only [kind] at rest
      obtain ⟨r, _, same⟩ := Option.map_eq_some_iff.mp rest
      cases same
      exact inv
    | file =>
      simp only [kind] at rest
      obtain ⟨r, _, same⟩ := Option.map_eq_some_iff.mp rest
      cases same
      have shape : (⟨.file, f.flags, f.pipe⟩ : Shape) = f.shape := by rw [OpenFile.shape, kind]
      exact run_inv_set_file inv live rfl shape
    | pipe =>
      simp only [kind] at rest
      obtain ⟨r, read, same⟩ := Option.map_eq_some_iff.mp rest
      cases same
      have may : enabled s (.read task fd args.count) := ⟨free, on_pipe_of_type here live kind⟩
      obtain ⟨r', read', after⟩ := file_call_inv inv may
      have same : fdReadPipe s task fd args.count = some r' := read'
      rw [read] at same
      cases same
      exact after

theorem fd_write_inv {s : FilesRun} {src : List Byte} {r : Option Int × FilesRun} (inv : RunInv s)
    (free : idle s task) (step : fdWrite s task fd src = some r) : RunInv r.2 := by
  unfold fdWrite at step
  split at step
  · cases step
    exact inv
  · rename_i ptr here
    obtain ⟨f, live, rest⟩ := Option.bind_eq_some_iff.mp step
    cases kind : f.type with
    | pipe =>
      simp only [kind] at rest
      have may : enabled s (.write task fd src) := ⟨free, on_pipe_of_type here live kind⟩
      obtain ⟨r', write', after⟩ := file_call_inv inv may
      have same : fdWritePipe s task fd src = some r' := write'
      rw [rest] at same
      cases same
      exact after
    | _ =>
      simp only [kind] at rest
      cases rest
      exact inv

/-- With one descriptor twice fd_dup2 reads the slot that it has just closed: it returns only if
    the descriptor is closed. -/
theorem fd_dup2_same {s : Files} {r : Int × Files} (inv : FilesInv n s)
    (step : fdDup2 s task fd fd = some r) : r = (-1, s) := by
  unfold fdDup2 at step
  split at step
  · cases step
    rfl
  · rename_i ptr here
    obtain ⟨low, high, full⟩ := slot_some here
    rw [if_neg (show ¬ (fd < 0 ∨ (maxFds : Int) ≤ fd) by rw [maxFds]; omega)] at step
    obtain ⟨t, closed, _, _, tables⟩ := fd_close_open inv here
    have closing : closeIfOpen s task fd = some t := by
      rw [closeIfOpen, full, Option.isSome_some, if_pos rfl, closed, Option.map_some]
    have vacant : t.tables task fd.toNat = none := by
      rw [tables, table_set_slot, if_pos ⟨rfl, rfl⟩]
    rw [closing] at step
    simp only [Option.bind_eq_bind, Option.bind_some, vacant, Option.bind_none] at step
    cases step

theorem callable_on_tables {s : FdRun} {call : FileCall} (may : callable s (.other call)) :
    onTables call = true := by
  cases call with
  | read task fd count => exact False.elim may
  | write task fd src => exact False.elim may
  | resume task => exact False.elim may
  | _ => rfl

theorem other_inv {s : FdRun} {call : FileCall} {r : Option Int × FilesRun} (inv : RunInv s.run)
    (may : callable s (.other call)) (step : fileCall s.run call = some r) : RunInv r.2 := by
  have taken : enabled s.run call → RunInv r.2 := by
    intro may
    obtain ⟨r', step', after⟩ := file_call_inv inv may
    rw [step] at step'
    cases step'
    exact after
  cases call with
  | dup2 task oldfd newfd =>
    by_cases same : oldfd = newfd
    · rw [same] at step
      obtain ⟨r', twice, rfl⟩ := Option.map_eq_some_iff.mp step
      rw [fd_dup2_same inv.files twice]
      exact inv
    · exact taken ⟨may, same⟩
  | read task fd count => exact False.elim may
  | write task fd src => exact False.elim may
  | resume task => exact False.elim may
  | _ => exact taken may

theorem read_parts {s : FdRun} {buf : Nat} {args : ReadArgs} {space : Space} {r : Option Int × FdRun}
    (step : fdCall fs s (.read task fd buf args space) = some r) :
    ∃ stores run after, fdRead fs s.run task fd args = some (r.1, stores, run) ∧
      space.store buf stores = some after ∧
      r.2 = ⟨run, Function.update s.bufs task buf,
        deliver s (fileOf s.run.files task fd) (after.bytes buf ((r.1.getD 0).toNat))⟩ := by
  obtain ⟨⟨result, stores, run⟩, read, rest⟩ := Option.bind_eq_some_iff.mp step
  obtain ⟨after, stored, same⟩ := Option.bind_eq_some_iff.mp rest
  cases same
  exact ⟨stores, run, after, read, stored, rfl⟩

theorem read_of_parts {s : FdRun} {buf : Nat} {args : ReadArgs} {space after : Space} {result : Option Int}
    {stores : Stores} {run : FilesRun} (read : fdRead fs s.run task fd args = some (result, stores, run))
    (stored : space.store buf stores = some after) :
    fdCall fs s (.read task fd buf args space) = some (result, ⟨run, Function.update s.bufs task buf,
      deliver s (fileOf s.run.files task fd) (after.bytes buf ((result.getD 0).toNat))⟩) := by
  rw [fdCall, read, Option.bind_eq_bind, Option.bind_some]
  dsimp only
  rw [stored]
  rfl

theorem fd_call_inv {s : FdRun} {call : FdCall} {r : Option Int × FdRun} (inv : RunInv s.run)
    (may : callable s call) (step : fdCall fs s call = some r) : RunInv r.2.run := by
  cases call with
  | other call =>
    obtain ⟨r', taken, rfl⟩ := Option.map_eq_some_iff.mp step
    exact other_inv inv may taken
  | read task fd buf args space =>
    obtain ⟨stores, run, after, read, _, same⟩ := read_parts step
    rw [same]
    exact fd_read_inv inv may.1 read
  | write task fd src =>
    obtain ⟨r', taken, rfl⟩ := Option.map_eq_some_iff.mp step
    exact fd_write_inv inv may taken
  | resume task space =>
    obtain ⟨r', taken, rest⟩ := Option.bind_eq_some_iff.mp step
    obtain ⟨_, _, same⟩ := Option.bind_eq_some_iff.mp rest
    cases same
    obtain ⟨r'', taken', after⟩ := @file_call_inv s.run inv (.resume task) may
    rw [taken] at taken'
    cases taken'
    exact after

theorem fd_step_call {s t : FdRun} {call : FdCall} (step : fdStep fs s call = some t) :
    ∃ result, fdCall fs s call = some (result, t) := by
  obtain ⟨⟨result, u⟩, taken, rfl⟩ := Option.map_eq_some_iff.mp step
  exact ⟨result, taken⟩

theorem fd_reached_inv {s : FdRun} (run : FdReached fs s) : RunInv s.run := by
  refine reaches_invariant (fun s => RunInv s.run) ?_ ?_ run
  · rintro s rfl
    exact run_inv_boot
  · intro s call t inv step
    obtain ⟨result, taken⟩ := fd_step_call step.2
    exact fd_call_inv inv step.1 taken

end Invariant
end Archarch.Descriptors
