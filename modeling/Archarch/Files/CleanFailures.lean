import Archarch.Files.DescriptorRuns

/- fd_open and fd_pipe where they fail, and the two slots of fd_pipe where it succeeds. -/
namespace Archarch.Descriptors
open LabelledRuns

structure LowestFree (table : FdTable) (i : Nat) : Prop where
  inside : i < maxFds
  free : table i = none
  below : ∀ j, j < i → (table j).isSome

structure TwoLowest (table : FdTable) (r w : Nat) : Prop where
  first : LowestFree table r
  order : r < w
  inside : w < maxFds
  free : table w = none
  below : ∀ j, j < w → j ≠ r → (table j).isSome

def TwoFreeSlots (table : FdTable) : Prop :=
  ∃ i j, i ≠ j ∧ i < maxFds ∧ j < maxFds ∧ table i = none ∧ table j = none

/-- The serial numbers to come name no object: what kzalloc returns is not in use. -/
structure Unnamed (s : Files) : Prop where
  files : ∀ m, s.nextFile ≤ m → s.files m = none
  pipes : ∀ q, s.nextPipe ≤ q → s.pipes q = none

structure Untouched (s t : Files) : Prop where
  tables : t.tables = s.tables
  console : t.console = s.console
  files : t.files = s.files
  pipes : t.pipes = s.pipes

structure NewPipe (s t : Files) (task r w : Nat) : Prop where
  slots : TwoLowest (s.tables task) r w
  tables : ∀ u, u ≠ task → t.tables u = s.tables u
  rest : ∀ j, j ≠ r → j ≠ w → t.tables task j = s.tables task j
  console : t.console = s.console
  ends : ∃ read write q, t.tables task r = some (.heap read) ∧ t.tables task w = some (.heap write) ∧
    read ≠ write ∧ s.files read = none ∧ s.files write = none ∧ s.pipes q = none ∧
    t.files = Function.update (Function.update s.files read (some (pipeEnd q oRdonly))) write
      (some (pipeEnd q oWronly)) ∧
    t.pipes = Function.update s.pipes q (some newPipe)

structure FailsCleanly (s : Files) (task : Nat) : Prop where
  open_ : ∀ found flags alloc, (fdOpen s task found flags alloc).1 = -1 →
    Untouched s (fdOpen s task found flags alloc).2
  pipe : ∀ pipe read write, (fdPipe s task pipe read write).1 = none →
    Untouched s (fdPipe s task pipe read write).2
  pipeSucceeds : ∀ pipe read write, (fdPipe s task pipe read write).1 ≠ none ↔
    TwoFreeSlots (s.tables task) ∧ pipe = true ∧ read = true ∧ write = true
  pipeMade : ∀ pipe read write r w, (fdPipe s task pipe read write).1 = some (r, w) →
    NewPipe s (fdPipe s task pipe read write).2 task r w

section Slots
variable {table : FdTable} {i r w : Nat}

theorem find_free_fd_iff : findFreeFd table = some i ↔ LowestFree table i := by
  constructor
  · intro found
    obtain ⟨inside, free⟩ := find_free_fd_some found
    refine ⟨inside, free, ?_⟩
    intro j before
    rw [findFreeFd, List.find?_eq_some_iff_getElem] at found
    obtain ⟨_, k, small, same, first⟩ := found
    rw [List.getElem_range] at same
    subst same
    have used := first j before
    rw [List.getElem_range] at used
    cases slot : table j with
    | none =>
      rw [slot] at used
      cases used
    | some ptr => rfl
  · rintro ⟨inside, free, below⟩
    rw [findFreeFd, List.find?_eq_some_iff_getElem]
    refine ⟨by rw [free]; rfl, i, by rw [List.length_range]; exact inside, List.getElem_range _, ?_⟩
    intro j before
    rw [List.getElem_range]
    obtain ⟨ptr, used⟩ := Option.isSome_iff_exists.mp (below j before)
    rw [used]
    rfl

theorem find_free_fd_none (full : findFreeFd table = none) (inside : i < maxFds) : (table i).isSome := by
  rw [findFreeFd, List.find?_eq_none] at full
  have used := full i (List.mem_range.mpr inside)
  cases slot : table i with
  | none =>
    rw [slot] at used
    exact absurd rfl used
  | some ptr => rfl

/-- The dummy makes the second search of fd_pipe skip the slot of the first. -/
theorem pipe_slots_iff : findFreeFd table = some r ∧
    findFreeFd (Function.update table r (some .dummy)) = some w ↔ TwoLowest table r w := by
  rw [find_free_fd_iff, find_free_fd_iff]
  constructor
  · rintro ⟨first, second⟩
    have apart : w ≠ r := by
      rintro rfl
      have taken := second.free
      rw [Function.update_self] at taken
      cases taken
    have free := second.free
    rw [Function.update_of_ne apart] at free
    refine ⟨first, ?_, second.inside, free, ?_⟩
    · by_contra behind
      have used := first.below w (by omega)
      rw [free] at used
      cases used
    · intro j before other
      have used := second.below j before
      rwa [Function.update_of_ne other] at used
  · intro slots
    have apart : w ≠ r := Nat.ne_of_gt slots.order
    refine ⟨slots.first, slots.inside, ?_, ?_⟩
    · rw [Function.update_of_ne apart]
      exact slots.free
    · intro j before
      by_cases same : j = r
      · rw [same, Function.update_self]
        rfl
      · rw [Function.update_of_ne same]
        exact slots.below j before same

theorem two_free_slots_iff : TwoFreeSlots table ↔ ∃ r w, TwoLowest table r w := by
  constructor
  · rintro ⟨i, j, apart, insideI, insideJ, freeI, freeJ⟩
    cases found : findFreeFd table with
    | none =>
      have used := find_free_fd_none found insideI
      rw [freeI] at used
      cases used
    | some r =>
      cases again : findFreeFd (Function.update table r (some .dummy)) with
      | some w => exact ⟨r, w, pipe_slots_iff.mp ⟨found, again⟩⟩
      | none =>
        -- one of the two free slots is not the first one found
        obtain ⟨k, insideK, freeK, other⟩ : ∃ k, k < maxFds ∧ table k = none ∧ k ≠ r := by
          by_cases same : i = r
          · exact ⟨j, insideJ, freeJ, by omega⟩
          · exact ⟨i, insideI, freeI, same⟩
        have used := find_free_fd_none again insideK
        rw [Function.update_of_ne other, freeK] at used
        cases used
  · rintro ⟨r, w, slots⟩
    exact ⟨r, w, Nat.ne_of_lt slots.order, slots.first.inside, slots.inside, slots.first.free, slots.free⟩

end Slots

section Calls
variable {s : Files} {task r w : Nat}

theorem unnamed_of_inv {n : Nat} (inv : FilesInv n s) : Unnamed s :=
  ⟨inv.accounted.fresh, inv.ends.fresh⟩

theorem untouched_refl (s : Files) : Untouched s s := ⟨rfl, rfl, rfl, rfl⟩

theorem fd_open_fails {found : Option FatFile} {flags : Int} {alloc : Bool}
    (failed : (fdOpen s task found flags alloc).1 = -1) : Untouched s (fdOpen s task found flags alloc).2 := by
  unfold fdOpen at failed ⊢
  split
  · exact untouched_refl s
  · exact untouched_refl s
  · rename_i fd fat free
    cases alloc with
    | false => exact untouched_refl s
    | true =>
      rw [free] at failed
      change (fd : Int) = -1 at failed
      omega

theorem fd_pipe_full (few : ¬ ∃ r w, TwoLowest (s.tables task) r w) (pipe read write : Bool) :
    fdPipe s task pipe read write = (none, s) := by
  unfold fdPipe
  split
  · rfl
  · rename_i r found
    split
    · rfl
    · rename_i w again
      exact absurd ⟨r, w, pipe_slots_iff.mp ⟨found, again⟩⟩ few

def withPipe (s : Files) (task r w : Nat) : Files :=
  ((((s.allocPipe newPipe).allocFile (pipeEnd s.nextPipe oRdonly)).allocFile
    (pipeEnd s.nextPipe oWronly)).setSlot task r (some (.heap s.nextFile))).setSlot task w
      (some (.heap (s.nextFile + 1)))

theorem fd_pipe_eq (slots : TwoLowest (s.tables task) r w) (pipe read write : Bool) :
    fdPipe s task pipe read write =
      if pipe = false then (none, s)
      else if read = false then (none, (s.allocPipe newPipe).freePipe s.nextPipe)
      else if write = false then
        (none, (((s.allocPipe newPipe).allocFile (pipeEnd s.nextPipe oRdonly)).freePipe s.nextPipe).freeFile
          (.heap s.nextFile))
      else (some (r, w), withPipe s task r w) := by
  obtain ⟨found, again⟩ := pipe_slots_iff.mpr slots
  unfold fdPipe
  rw [found]
  dsimp only
  rw [again]
  rfl

theorem alloc_pipe_undone (unnamed : Unnamed s) :
    Untouched s ((s.allocPipe newPipe).freePipe s.nextPipe) := by
  refine ⟨rfl, rfl, rfl, ?_⟩
  change Function.update (Function.update s.pipes s.nextPipe _) s.nextPipe none = s.pipes
  rw [Function.update_idem, ← unnamed.pipes s.nextPipe (Nat.le_refl _), Function.update_eq_self]

theorem alloc_end_undone (unnamed : Unnamed s) (f : OpenFile) :
    Untouched s ((((s.allocPipe newPipe).allocFile f).freePipe s.nextPipe).freeFile (.heap s.nextFile)) := by
  refine ⟨rfl, rfl, ?_, (alloc_pipe_undone unnamed).pipes⟩
  change Function.update (Function.update s.files s.nextFile _) s.nextFile none = s.files
  rw [Function.update_idem, ← unnamed.files s.nextFile (Nat.le_refl _), Function.update_eq_self]

theorem with_pipe_new (unnamed : Unnamed s) (slots : TwoLowest (s.tables task) r w) :
    NewPipe s (withPipe s task r w) task r w := by
  have apart : r ≠ w := Nat.ne_of_lt slots.order
  have own : (withPipe s task r w).tables = Function.update s.tables task
      (Function.update (Function.update (s.tables task) r (some (.heap s.nextFile))) w
        (some (.heap (s.nextFile + 1)))) := by
    simp only [withPipe, Files.setSlot, Files.allocFile, Files.allocPipe, Function.update_self,
      Function.update_idem]
  constructor
  · exact slots
  · intro u other
    rw [own, Function.update_of_ne other]
  · intro j notR notW
    rw [own, Function.update_self, Function.update_of_ne notW, Function.update_of_ne notR]
  · rfl
  · refine ⟨s.nextFile, s.nextFile + 1, s.nextPipe, ?_, ?_, by omega, unnamed.files _ (Nat.le_refl _),
      unnamed.files _ (by omega), unnamed.pipes _ (Nat.le_refl _), rfl, rfl⟩
    · rw [own, Function.update_self, Function.update_of_ne apart, Function.update_self]
    · rw [own, Function.update_self, Function.update_self]

end Calls

/-- fd_open and fd_pipe leave nothing behind where they fail, and fd_pipe succeeds exactly
    where it can. -/
theorem fd_calls_fail_cleanly (s : Files) (unnamed : Unnamed s) (task : Nat) : FailsCleanly s task := by
  constructor
  · intro found flags alloc failed
    exact fd_open_fails failed
  · intro pipe read write failed
    by_cases slots : ∃ r w, TwoLowest (s.tables task) r w
    · obtain ⟨r, w, slots⟩ := slots
      rw [fd_pipe_eq slots] at failed ⊢
      cases pipe with
      | false => exact untouched_refl s
      | true =>
        cases read with
        | false => exact alloc_pipe_undone unnamed
        | true =>
          cases write with
          | false => exact alloc_end_undone unnamed _
          | true => cases failed
    · rw [fd_pipe_full slots]
      exact untouched_refl s
  · intro pipe read write
    rw [two_free_slots_iff]
    by_cases slots : ∃ r w, TwoLowest (s.tables task) r w
    · obtain ⟨r, w, here⟩ := slots
      rw [fd_pipe_eq here]
      cases pipe <;> cases read <;> cases write <;> simp
      exact ⟨r, w, here⟩
    · rw [fd_pipe_full slots]
      simp [slots]
  · intro pipe read write r w made
    by_cases slots : ∃ r w, TwoLowest (s.tables task) r w
    · obtain ⟨r', w', here⟩ := slots
      rw [fd_pipe_eq here] at made ⊢
      cases pipe with
      | false => cases made
      | true =>
        cases read with
        | false => cases made
        | true =>
          cases write with
          | false => cases made
          | true =>
            cases made
            exact with_pipe_new unnamed here
    · rw [fd_pipe_full slots] at made
      cases made

/-- Six pipes leave the first task one descriptor: a file still goes there, and a pipe does not. -/
theorem nearly_full_fails_cleanly : ∃ s, FileRun s ∧ (fdOpen s.files 0 (some ⟨2, 5⟩) 0 true).1 = 15 ∧
    (fdPipe s.files 0 true true true).1 = none ∧ (fdPipe s.files 1 true true true).1 = some (3, 4) ∧
    FailsCleanly s.files 0 := by
  have look : (runActions (allowed enabled fileStep) filesBoot
      ([.create, .create] ++ List.replicate 6 (.pipe 0 true true true))).any (fun s =>
        decide ((fdOpen s.files 0 (some ⟨2, 5⟩) 0 true).1 = 15 ∧ (fdPipe s.files 0 true true true).1 = none ∧
          (fdPipe s.files 1 true true true).1 = some (3, 4))) = true := by
    decide +kernel
  obtain ⟨s, done, found⟩ := (Option.any_eq_true _ _).mp look
  obtain ⟨opened, full, made⟩ := of_decide_eq_true found
  have run : FileRun s := reaches_of_allowed (Reaches.start rfl) done
  exact ⟨s, run, opened, full, made,
    fd_calls_fail_cleanly s.files (unnamed_of_inv (file_run_inv run).files) 0⟩

end Archarch.Descriptors
