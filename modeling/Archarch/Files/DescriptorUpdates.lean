import Mathlib.Logic.Relation
import Archarch.Files.DescriptorRuns

/- The operations of fd.c as sequences of elementary updates. What each update keeps, every
   operation keeps. -/
namespace Archarch.Descriptors
open Relation

structure SameObjects (s t : Files) : Prop where
  files : t.files = s.files
  nextFile : t.nextFile = s.nextFile
  pipes : t.pipes = s.pipes
  nextPipe : t.nextPipe = s.nextPipe

inductive Update : Files → Files → Prop where
  | rest {s t : Files} (same : SameObjects s t) : Update s t
  | count {s : Files} {m : Nat} {f : OpenFile} (refCount : Int) (live : s.files m = some f) :
      Update s (s.setFile (.heap m) { f with refCount := refCount })
  | freeFile (s : Files) (m : Nat) : Update s (s.freeFile (.heap m))
  | allocFile {s : Files} {f : OpenFile} (start : f.position = 0) : Update s (s.allocFile f)
  | closeEnd {s : Files} {q : Nat} {p : Pipe} (flags : Int) (live : s.pipes q = some p) :
      Update s (s.setPipe q (p.closeEnd flags))
  | allocPipe (s : Files) : Update s (s.allocPipe newPipe)
  | freePipe (s : Files) (q : Nat) : Update s (s.freePipe q)

abbrev Updates : Files → Files → Prop := ReflTransGen Update

section Operations
variable {s t : Files} {ptr : FilePtr} {f : OpenFile} {task fd n : Nat}

theorem updates_rest (files : t.files = s.files) (nextFile : t.nextFile = s.nextFile)
    (pipes : t.pipes = s.pipes) (nextPipe : t.nextPipe = s.nextPipe) : Updates s t :=
  ReflTransGen.single (.rest ⟨files, nextFile, pipes, nextPipe⟩)

theorem updates_set_slot (s : Files) (task fd : Nat) (v : Option FilePtr) : Updates s (s.setSlot task fd v) :=
  updates_rest rfl rfl rfl rfl

theorem updates_count (refCount : Int) (live : s.deref ptr = some f) :
    Updates s (s.setFile ptr { f with refCount := refCount }) := by
  cases ptr with
  | console => exact updates_rest rfl rfl rfl rfl
  | dummy => cases live
  | heap m => exact ReflTransGen.single (.count refCount live)

theorem updates_add_ref (step : addRef s task fd ptr = some t) : Updates s t := by
  obtain ⟨f, live, rfl⟩ := Option.map_eq_some_iff.mp step
  have slot := updates_set_slot s task fd (some ptr)
  exact ReflTransGen.trans slot (updates_count (f.refCount + 1) live)

theorem updates_dup_from {dst src i : Nat} (step : dupFrom s dst src i n = some t) : Updates s t := by
  induction n generalizing s i with
  | zero =>
    rw [← Option.some.inj step]
  | succ n ih =>
    unfold dupFrom at step
    split at step
    · have slot := updates_set_slot s dst i none
      exact ReflTransGen.trans slot (ih step)
    · obtain ⟨next, added, rest⟩ := Option.bind_eq_some_iff.mp step
      exact ReflTransGen.trans (updates_add_ref added) (ih rest)

structure EndClosed (s : Files) (f : OpenFile) (r : OpenFile × Files) : Prop where
  updates : Updates s r.2
  files : r.2.files = s.files
  console : r.2.console = s.console
  count : r.1.refCount = f.refCount
  alive : 0 < f.refCount → r.1 = f

theorem close_pipe_end_closed {r : OpenFile × Files} (step : closePipeEnd s f = some r) : EndClosed s f r := by
  unfold closePipeEnd at step
  split at step
  · cases step
    exact ⟨ReflTransGen.refl, rfl, rfl, rfl, fun _ => rfl⟩
  · split at step
    · rename_i q _ gone
      obtain ⟨p, live, closed⟩ := Option.map_eq_some_iff.mp step
      dsimp only at closed
      split at closed
      · cases closed
        have freed := ReflTransGen.single (Update.freePipe s q)
        exact ⟨freed, rfl, rfl, rfl, fun alive => absurd gone.2 (by omega)⟩
      · cases closed
        have set := ReflTransGen.single (Update.closeEnd f.flags live)
        exact ⟨set, rfl, rfl, rfl, fun _ => rfl⟩
    · cases step
      exact ⟨ReflTransGen.refl, rfl, rfl, rfl, fun _ => rfl⟩

theorem updates_fd_close {d : Int} {r : Int × Files} (step : fdClose s task d = some r) : Updates s r.2 := by
  unfold fdClose at step
  split at step
  · cases step
    exact ReflTransGen.refl
  · rename_i ptr here
    obtain ⟨f, live, rest⟩ := Option.bind_eq_some_iff.mp step
    obtain ⟨⟨g, middle⟩, ended, last⟩ := Option.bind_eq_some_iff.mp rest
    have closed := close_pipe_end_closed ended
    have slot := updates_set_slot s task d.toNat none
    have before : Updates s middle := ReflTransGen.trans slot closed.updates
    dsimp only at last
    cases ptr with
    | console =>
      rw [if_neg (by simp)] at last
      cases last
      exact ReflTransGen.trans before (updates_rest rfl rfl rfl rfl)
    | dummy => cases live
    | heap m =>
      split at last
      · cases last
        exact ReflTransGen.tail before (.freeFile middle m)
      · rename_i alive
        cases last
        have same : g = { f with refCount := f.refCount - 1 } := by
          apply closed.alive
          change 0 < f.refCount - 1
          have count : g.refCount = f.refCount - 1 := closed.count
          simp only [ne_eq, reduceCtorEq, not_false_eq_true, and_true] at alive
          omega
        have there : middle.files m = some f := by
          rw [closed.files]
          exact live
        rw [same]
        exact ReflTransGen.tail before (.count _ there)

theorem updates_destroy_from {i : Nat} (step : destroyFrom s task i n = some t) : Updates s t := by
  induction n generalizing s i with
  | zero =>
    rw [← Option.some.inj step]
  | succ n ih =>
    unfold destroyFrom at step
    split at step
    · obtain ⟨next, closed, rest⟩ := Option.bind_eq_some_iff.mp step
      exact ReflTransGen.trans (updates_fd_close closed) (ih rest)
    · exact ih step

theorem updates_fd_dup2 {oldfd newfd : Int} {r : Int × Files} (step : fdDup2 s task oldfd newfd = some r) :
    Updates s r.2 := by
  unfold fdDup2 at step
  split at step
  · cases step
    exact ReflTransGen.refl
  · split at step
    · cases step
      exact ReflTransGen.refl
    · obtain ⟨closed, closing, rest⟩ := Option.bind_eq_some_iff.mp step
      obtain ⟨ptr, _, rest⟩ := Option.bind_eq_some_iff.mp rest
      obtain ⟨added, adding, last⟩ := Option.bind_eq_some_iff.mp rest
      cases last
      have first : Updates s closed := by
        unfold closeIfOpen at closing
        split at closing
        · obtain ⟨r, closed, rfl⟩ := Option.map_eq_some_iff.mp closing
          exact updates_fd_close closed
        · rw [← Option.some.inj closing]
      exact ReflTransGen.trans first (updates_add_ref adding)

theorem updates_fd_open (found : Option FatFile) (flags : Int) (alloc : Bool) :
    Updates s (fdOpen s task found flags alloc).2 := by
  unfold fdOpen
  split
  · exact ReflTransGen.refl
  · exact ReflTransGen.refl
  · split
    · exact ReflTransGen.head (.allocFile rfl) (updates_set_slot _ _ _ _)
    · exact ReflTransGen.refl

theorem updates_fd_pipe (a b c : Bool) : Updates s (fdPipe s task a b c).2 := by
  have made : Updates s (s.allocPipe newPipe) := ReflTransGen.single (.allocPipe s)
  have first : Updates s ((s.allocPipe newPipe).allocFile (pipeEnd s.nextPipe oRdonly)) :=
    ReflTransGen.tail made (.allocFile rfl)
  unfold fdPipe
  split
  · exact ReflTransGen.refl
  · split
    · exact ReflTransGen.refl
    · dsimp only
      split
      · exact ReflTransGen.refl
      · split
        · exact ReflTransGen.tail made (.freePipe _ _)
        · split
          · have unpiped := ReflTransGen.tail first (.freePipe _ s.nextPipe)
            exact ReflTransGen.tail unpiped (.freeFile _ s.nextFile)
          · have both := ReflTransGen.tail first (.allocFile (f := pipeEnd s.nextPipe oWronly) rfl)
            exact ReflTransGen.trans both (updates_rest rfl rfl rfl rfl)

end Operations

theorem updates_table_call {s : FilesRun} {call : FileCall} {r : Option Int × FilesRun}
    (tables : onTables call = true) (step : fileCall s call = some r) : Updates s.files r.2.files := by
  cases call with
  | create =>
    cases step
    exact updates_rest rfl rfl rfl rfl
  | fork task =>
    obtain ⟨t, dup, rfl⟩ := Option.map_eq_some_iff.mp step
    exact ReflTransGen.trans (updates_dup_from dup) (updates_rest rfl rfl rfl rfl)
  | exit task =>
    obtain ⟨t, gone, rfl⟩ := Option.map_eq_some_iff.mp step
    exact updates_destroy_from gone
  | open_ task found flags alloc =>
    cases step
    exact updates_fd_open found flags alloc
  | pipe task a b c =>
    cases step
    exact updates_fd_pipe a b c
  | close task fd =>
    obtain ⟨t, closed, rfl⟩ := Option.map_eq_some_iff.mp step
    exact updates_fd_close closed
  | dup2 task oldfd newfd =>
    obtain ⟨t, moved, rfl⟩ := Option.map_eq_some_iff.mp step
    exact updates_fd_dup2 moved
  | read task fd count => cases tables
  | write task fd src => cases tables
  | resume task => cases tables

def OpenFile.extent (f : OpenFile) : FileType × Nat × Nat × Nat :=
  (f.type, f.firstCluster, f.fileSize, f.position)

structure ExtentsKept (s t : Files) : Prop where
  files : ∀ m g, t.files m = some g →
    (∃ f, s.files m = some f ∧ g.extent = f.extent) ∨ (s.nextFile ≤ m ∧ g.position = 0)
  next : s.nextFile ≤ t.nextFile

structure PipesFall (s t : Files) : Prop where
  pipes : ∀ q r, t.pipes q = some r →
    (∃ p, s.pipes q = some p ∧ r.ring = p.ring ∧ (p.writeOpen = false → r.writeOpen = false)) ∨ s.nextPipe ≤ q
  next : s.nextPipe ≤ t.nextPipe

section Frames
variable {s t u : Files}

theorem extents_of_files (same : t.files = s.files) (next : t.nextFile = s.nextFile) : ExtentsKept s t := by
  constructor
  · intro m g found
    rw [same] at found
    exact Or.inl ⟨g, found, rfl⟩
  · exact Nat.le_of_eq next.symm

theorem extents_trans (first : ExtentsKept s t) (second : ExtentsKept t u) : ExtentsKept s u := by
  constructor
  · intro m h found
    rcases second.files m h found with ⟨g, middle, same⟩ | ⟨new, start⟩
    · rcases first.files m g middle with ⟨f, old, same'⟩ | ⟨new, start⟩
      · exact Or.inl ⟨f, old, same.trans same'⟩
      · right
        have position : h.position = g.position := congrArg (fun e => e.2.2.2) same
        exact ⟨new, position.trans start⟩
    · exact Or.inr ⟨first.next.trans new, start⟩
  · exact first.next.trans second.next

theorem extents_of_update (update : Update s t) : ExtentsKept s t := by
  cases update with
  | rest same => exact extents_of_files same.files same.nextFile
  | closeEnd flags live => exact extents_of_files rfl rfl
  | allocPipe => exact extents_of_files rfl rfl
  | freePipe q => exact extents_of_files rfl rfl
  | @count m f refCount live =>
    constructor
    · intro k h found
      have now : Function.update s.files m (some { f with refCount := refCount }) k = some h := found
      by_cases here : k = m
      · rw [here, Function.update_self] at now
        cases now
        exact Or.inl ⟨f, by rw [here]; exact live, rfl⟩
      · rw [Function.update_of_ne here] at now
        exact Or.inl ⟨h, now, rfl⟩
    · exact Nat.le_refl _
  | freeFile m =>
    constructor
    · intro k h found
      have now : Function.update s.files m none k = some h := found
      by_cases here : k = m
      · rw [here, Function.update_self] at now
        cases now
      · rw [Function.update_of_ne here] at now
        exact Or.inl ⟨h, now, rfl⟩
    · exact Nat.le_refl _
  | @allocFile f start =>
    constructor
    · intro k h found
      have now : Function.update s.files s.nextFile (some f) k = some h := found
      by_cases here : k = s.nextFile
      · rw [here, Function.update_self] at now
        cases now
        exact Or.inr ⟨Nat.le_of_eq here.symm, start⟩
      · rw [Function.update_of_ne here] at now
        exact Or.inl ⟨h, now, rfl⟩
    · exact Nat.le_succ _

theorem extents_of_updates (updates : Updates s t) : ExtentsKept s t := by
  induction updates with
  | refl => exact extents_of_files rfl rfl
  | tail _ last ih => exact extents_trans ih (extents_of_update last)

theorem pipes_fall_of_pipes (same : t.pipes = s.pipes) (next : t.nextPipe = s.nextPipe) : PipesFall s t := by
  constructor
  · intro q r found
    rw [same] at found
    exact Or.inl ⟨r, found, rfl, id⟩
  · exact Nat.le_of_eq next.symm

theorem pipes_fall_trans (first : PipesFall s t) (second : PipesFall t u) : PipesFall s u := by
  constructor
  · intro q r found
    rcases second.pipes q r found with ⟨p, middle, same, shut⟩ | new
    · rcases first.pipes q p middle with ⟨o, old, same', shut'⟩ | new
      · exact Or.inl ⟨o, old, same.trans same', fun closed => shut (shut' closed)⟩
      · exact Or.inr new
    · exact Or.inr (first.next.trans new)
  · exact first.next.trans second.next

theorem close_end_falls (p : Pipe) (flags : Int) (closed : p.writeOpen = false) :
    (p.closeEnd flags).writeOpen = false := by
  unfold Pipe.closeEnd
  split
  · exact closed
  · split
    · rfl
    · exact closed

theorem pipes_fall_of_update (update : Update s t) : PipesFall s t := by
  cases update with
  | rest same => exact pipes_fall_of_pipes same.pipes same.nextPipe
  | count refCount live => exact pipes_fall_of_pipes rfl rfl
  | freeFile m => exact pipes_fall_of_pipes rfl rfl
  | allocFile start => exact pipes_fall_of_pipes rfl rfl
  | @closeEnd q p flags live =>
    constructor
    · intro k r found
      have now : Function.update s.pipes q (some (p.closeEnd flags)) k = some r := found
      by_cases here : k = q
      · rw [here, Function.update_self] at now
        cases now
        exact Or.inl ⟨p, by rw [here]; exact live, ring_close_end p flags, close_end_falls p flags⟩
      · rw [Function.update_of_ne here] at now
        exact Or.inl ⟨r, now, rfl, id⟩
    · exact Nat.le_refl _
  | allocPipe =>
    constructor
    · intro k r found
      have now : Function.update s.pipes s.nextPipe (some newPipe) k = some r := found
      by_cases here : k = s.nextPipe
      · exact Or.inr (Nat.le_of_eq here.symm)
      · rw [Function.update_of_ne here] at now
        exact Or.inl ⟨r, now, rfl, id⟩
    · exact Nat.le_succ _
  | freePipe q =>
    constructor
    · intro k r found
      have now : Function.update s.pipes q none k = some r := found
      by_cases here : k = q
      · rw [here, Function.update_self] at now
        cases now
      · rw [Function.update_of_ne here] at now
        exact Or.inl ⟨r, now, rfl, id⟩
    · exact Nat.le_refl _

theorem pipes_fall_of_updates (updates : Updates s t) : PipesFall s t := by
  induction updates with
  | refl => exact pipes_fall_of_pipes rfl rfl
  | tail _ last ih => exact pipes_fall_trans ih (pipes_fall_of_update last)

end Frames

structure RoundOn (q : Nat) (s t : FilesRun) : Prop where
  tables : t.files.tables = s.files.tables
  files : t.files.files = s.files.files
  nextFile : t.files.nextFile = s.files.nextFile
  others : ∀ k, k ≠ q → t.files.pipes k = s.files.pipes k
  writing : ∀ p r, s.files.pipes q = some p → t.files.pipes q = some r → r.writeOpen = p.writeOpen

section Rounds
variable {s : FilesRun} {task q count : Nat} {fd : Int} {r : Option Int × FilesRun}

theorem round_on_set_pipe {t : FilesRun} {p after : Pipe} (live : s.files.pipes q = some p)
    (writing : after.writeOpen = p.writeOpen) (files : t.files = s.files.setPipe q after) : RoundOn q s t := by
  rw [show t = { t with files := s.files.setPipe q after } by rw [← files]]
  refine ⟨rfl, rfl, rfl, fun k other => Function.update_of_ne other _ _, ?_⟩
  intro p' r before now
  rw [live] at before
  cases before
  have new : Function.update s.files.pipes q (some after) q = some r := now
  rw [Function.update_self] at new
  cases new
  exact writing

theorem round_on_refl {t : FilesRun} (files : t.files = s.files) : RoundOn q s t := by
  rw [show t = { t with files := s.files } by rw [← files]]
  refine ⟨rfl, rfl, rfl, fun _ _ => rfl, ?_⟩
  intro p r before now
  have same : s.files.pipes q = some r := now
  rw [before] at same
  cases same
  rfl

theorem take_count (n : Nat) (p : Pipe) : (takeBytes n p).2.count ≤ p.count := by
  induction n generalizing p with
  | zero => exact Nat.le_refl _
  | succ n ih =>
    rw [takeBytes]
    split
    · have further := ih p.pop
      have popped : p.pop.count = p.count - 1 := rfl
      dsimp only
      omega
    · exact Nat.le_refl _

theorem read_step_round (step : readStep s task q count = some r) : RoundOn q s r.2 ∧
    ∀ p after, s.files.pipes q = some p → r.2.files.pipes q = some after → after.count ≤ p.count := by
  obtain ⟨p, live, same⟩ := Option.map_eq_some_iff.mp step
  have kept : ∀ t : FilesRun, t.files = s.files → RoundOn q s t ∧
      ∀ p after, s.files.pipes q = some p → t.files.pipes q = some after → after.count ≤ p.count := by
    intro t files
    refine ⟨round_on_refl files, ?_⟩
    intro p after before now
    rw [files, before] at now
    cases now
    exact Nat.le_refl _
  cases round : readRound p count with
  | none =>
    simp only [round] at same
    rw [← same]
    exact kept _ rfl
  | some took =>
    obtain ⟨bytes, after⟩ := took
    simp only [round] at same
    have result : after.writeOpen = p.writeOpen ∧ after.count ≤ p.count := by
      unfold readRound at round
      split at round
      · split at round
        · cases round
          exact ⟨rfl, Nat.le_refl _⟩
        · cases round
      · have opened := (take_open count p).2
        have counted := take_count count p
        rw [Option.some.inj round] at opened counted
        exact ⟨opened, counted⟩
    rw [← same]
    refine ⟨round_on_set_pipe live result.1 rfl, ?_⟩
    intro p' after' before now
    rw [live] at before
    cases before
    have new : Function.update s.files.pipes q (some after) q = some after' := now
    rw [Function.update_self] at new
    cases new
    exact result.2

theorem write_step_round {rest : List Byte} (step : writeStep s task q rest count = some r) :
    RoundOn q s r.2 := by
  obtain ⟨p, live, same⟩ := Option.map_eq_some_iff.mp step
  have writing : (writeRound p rest).2.writeOpen = p.writeOpen := by
    rw [write_round_pipe]
    exact (put_open rest p).2
  dsimp only at same
  split at same <;> rw [← same] <;> exact round_on_set_pipe live writing rfl

def FdNames (s : FilesRun) (task : Nat) (fd : Int) (q : Nat) : Prop :=
  ∃ ptr f, s.files.slot task fd = some ptr ∧ s.files.deref ptr = some f ∧ f.pipe = some q

theorem fd_read_pipe_cases (step : fdReadPipe s task fd count = some r) :
    r.2 = s ∨ ∃ q, FdNames s task fd q ∧ readStep s task q count = some r := by
  unfold fdReadPipe at step
  split at step
  · cases step
    exact Or.inl rfl
  · rename_i ptr here
    obtain ⟨f, live, rest⟩ := Option.bind_eq_some_iff.mp step
    split at rest
    · cases rest
      exact Or.inl rfl
    · rename_i q pipe
      exact Or.inr ⟨q, ⟨ptr, f, here, live, pipe⟩, rest⟩

theorem fd_write_pipe_cases {src : List Byte} (step : fdWritePipe s task fd src = some r) :
    r.2 = s ∨ ∃ q, FdNames s task fd q ∧ writeStep s task q src src.length = some r := by
  unfold fdWritePipe at step
  split at step
  · cases step
    exact Or.inl rfl
  · rename_i ptr here
    obtain ⟨f, live, rest⟩ := Option.bind_eq_some_iff.mp step
    split at rest
    · cases rest
      exact Or.inl rfl
    · rename_i q pipe
      obtain ⟨p, _, rest⟩ := Option.bind_eq_some_iff.mp rest
      split at rest
      · cases rest
        exact Or.inl rfl
      · exact Or.inr ⟨q, ⟨ptr, f, here, live, pipe⟩, rest⟩

theorem resume_cases (step : fileCall s (.resume task) = some r) :
    (∃ q count, s.calls task = some (.reading q count) ∧ readStep s task q count = some r) ∨
      ∃ q rest count, s.calls task = some (.writing q rest count) ∧ writeStep s task q rest count = some r := by
  simp only [fileCall] at step
  cases waiting : s.calls task with
  | none =>
    rw [waiting] at step
    cases step
  | some c =>
    rw [waiting] at step
    cases c with
    | reading q count => exact Or.inl ⟨q, count, rfl, step⟩
    | writing q rest count => exact Or.inr ⟨q, rest, count, rfl, step⟩

end Rounds
end Archarch.Descriptors
