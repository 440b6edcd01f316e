import Archarch.Files.DescriptorCalls

/- The law of fd_dup2 on every table whose counts are right. -/
namespace Archarch.Descriptors

/-- Afterwards both descriptors refer to ptr, nothing else moved, and what is referred to is there. -/
structure Duplicated (n : Nat) (s t : Files) (task : Nat) (oldfd newfd : Int) (ptr : FilePtr) : Prop where
  old : t.tables task oldfd.toNat = some ptr
  new : t.tables task newfd.toNat = some ptr
  others : ∀ u i, ¬ (u = task ∧ i = newfd.toNat) → t.tables u i = s.tables u i
  inv : FilesInv n t
  alive : ∀ u i other, t.tables u i = some other →
    (t.deref other).isSome ∧ ∀ m, other = .heap m → m ∉ t.freedFiles

def InRange (fd : Int) : Prop := 0 ≤ fd ∧ fd < maxFds

/-- An open oldfd is duplicated to a newfd in range; any other call fails and changes nothing. -/
structure Dup2Law (n : Nat) (s : Files) (task : Nat) (oldfd newfd : Int) : Prop where
  duplicates : ∀ ptr, s.slot task oldfd = some ptr → InRange newfd →
    ∃ t, fdDup2 s task oldfd newfd = some (newfd, t) ∧ Duplicated n s t task oldfd newfd ptr
  fails : s.slot task oldfd = none ∨ ¬ InRange newfd → fdDup2 s task oldfd newfd = some (-1, s)

section Law
variable {n task : Nat} {s : Files} {oldfd newfd : Int}

theorem fd_dup2_fails (bad : s.slot task oldfd = none ∨ ¬ InRange newfd) :
    fdDup2 s task oldfd newfd = some (-1, s) := by
  cases from_ : s.slot task oldfd with
  | none => rw [fdDup2, from_]
  | some ptr =>
    have outside := bad.resolve_left (by rw [from_]; exact Option.some_ne_none ptr)
    rw [fdDup2, from_]
    apply if_pos
    rw [InRange] at outside
    omega

theorem fd_dup2_duplicates {ptr : FilePtr} (inv : FilesInv n s) (inTasks : task < n) (ne : oldfd ≠ newfd)
    (from_ : s.slot task oldfd = some ptr) (range : InRange newfd) :
    ∃ t, fdDup2 s task oldfd newfd = some (newfd, t) ∧ Duplicated n s t task oldfd newfd ptr := by
  obtain ⟨low, high⟩ := range
  obtain ⟨above, below, source⟩ := slot_some from_
  obtain ⟨t, step, after, _, tables⟩ := fd_dup2_open inv inTasks ne from_ low high
  refine ⟨t, step, ?_⟩
  constructor
  · rw [tables, table_set_slot, if_neg (by omega)]
    exact source
  · rw [tables, table_set_slot, if_pos ⟨rfl, rfl⟩]
  · intro u i elsewhere
    rw [tables, table_set_slot, if_neg elsewhere]
  · exact after
  · intro u i other holds
    have live := after.accounted.known (u, i) other holds
    refine ⟨live, ?_⟩
    rintro m rfl already
    rw [((after.accounted.freed m).mp already).2] at live
    cases live

end Law

/-- The law holds but for an open descriptor that is duplicated to itself: fd_dup2 closes it first
    and then reads the slot it has just cleared. -/
theorem dup2_law_iff (n : Nat) (s : Files) (task : Nat) (oldfd newfd : Int) (inv : FilesInv n s)
    (inTasks : task < n) : Dup2Law n s task oldfd newfd ↔ ¬ (oldfd = newfd ∧ (s.slot task oldfd).isSome) := by
  constructor
  · rintro law ⟨rfl, open_⟩
    obtain ⟨ptr, from_⟩ := Option.isSome_iff_exists.mp open_
    obtain ⟨above, below, _⟩ := slot_some from_
    obtain ⟨t, step, _⟩ := law.duplicates ptr from_ ⟨above, below⟩
    have failed := congrArg Prod.fst (fd_dup2_same inv step)
    dsimp only at failed
    omega
  · intro apart
    constructor
    · intro ptr from_ range
      apply fd_dup2_duplicates inv inTasks _ from_ range
      intro same
      exact apart ⟨same, by rw [from_]; rfl⟩
    · exact fd_dup2_fails

theorem one_file_open : ∃ s, FileRun s ∧ s.files.numTasks = 1 ∧ s.files.slot 0 3 = some (.heap 0) := by
  have look : (LabelledRuns.runActions (LabelledRuns.allowed enabled fileStep) filesBoot
      [.create, .open_ 0 (some ⟨2, 2⟩) oRdonly true]).any
        (fun s => decide (s.files.numTasks = 1 ∧ s.files.slot 0 3 = some (.heap 0))) = true := by
    decide
  obtain ⟨s, run, found⟩ := (Option.any_eq_true _ _).mp look
  obtain ⟨count, slot⟩ := of_decide_eq_true found
  exact ⟨s, LabelledRuns.reaches_of_allowed (LabelledRuns.Reaches.start rfl) run, count, slot⟩

theorem dup2_to_stdin : ∃ s t, FileRun s ∧ fdDup2 s.files 0 3 0 = some (0, t) ∧
    Duplicated 1 s.files t 0 3 0 (.heap 0) := by
  obtain ⟨s, run, count, slot⟩ := one_file_open
  have inv := (file_run_inv run).files
  rw [count] at inv
  have law := (dup2_law_iff 1 s.files 0 3 0 inv (by decide)).mpr fun same => absurd same.1 (by decide)
  obtain ⟨t, step, done⟩ := law.duplicates (.heap 0) slot ⟨by decide, by decide⟩
  exact ⟨s, t, run, step, done⟩

theorem dup2_to_itself_faults : ¬ ∀ (n : Nat) (s : Files) (task : Nat) (oldfd newfd : Int), FilesInv n s →
    task < n → Dup2Law n s task oldfd newfd := by
  intro law
  obtain ⟨s, run, count, slot⟩ := one_file_open
  have inv := (file_run_inv run).files
  obtain ⟨t, step, _⟩ := (law s.files.numTasks s.files 0 3 3 inv (by omega)).duplicates (.heap 0) slot
    ⟨by decide, by decide⟩
  have failed := congrArg Prod.fst (fd_dup2_same inv step)
  cases failed

end Archarch.Descriptors
