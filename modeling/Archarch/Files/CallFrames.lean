import Archarch.Files.DescriptorCalls

/- What a call of one task leaves alone, and the tables that the calls on descriptors leave
   behind. -/
namespace Archarch.Descriptors
open LabelledRuns

section Counters
variable {s t : Files} {task fd n : Nat} {d : Int} {ptr : FilePtr} {f : OpenFile}

def Files.next (s : Files) : Nat × Nat := (s.nextFile, s.nextPipe)

@[simp] theorem next_set_slot (v : Option FilePtr) : (s.setSlot task fd v).next = s.next := rfl

@[simp] theorem next_set_file : (s.setFile ptr f).next = s.next := by
  cases ptr <;> rfl

@[simp] theorem next_free_file : (s.freeFile ptr).next = s.next := by
  cases ptr <;> rfl

theorem next_close_end {r : OpenFile × Files} (step : closePipeEnd s f = some r) : r.2.next = s.next := by
  unfold closePipeEnd at step
  split at step
  · cases step
    rfl
  · split at step
    · obtain ⟨p, _, rfl⟩ := Option.map_eq_some_iff.mp step
      dsimp only
      split <;> rfl
    · cases step
      rfl

theorem next_fd_close {r : Int × Files} (step : fdClose s task d = some r) : r.2.next = s.next := by
  unfold fdClose at step
  split at step
  · cases step
    rfl
  · obtain ⟨f, _, rest⟩ := Option.bind_eq_some_iff.mp step
    obtain ⟨⟨g, middle⟩, ended, last⟩ := Option.bind_eq_some_iff.mp rest
    have kept : middle.next = s.next := next_close_end ended
    dsimp only at last
    split at last <;> cases last
    · rw [next_free_file]
      exact kept
    · rw [next_set_file]
      exact kept

theorem next_destroy {i : Nat} (step : destroyFrom s task i n = some t) : t.next = s.next := by
  induction n generalizing s i with
  | zero => rw [← Option.some.inj step]
  | succ n ih =>
    unfold destroyFrom at step
    split at step
    · obtain ⟨middle, closed, rest⟩ := Option.bind_eq_some_iff.mp step
      exact (ih rest).trans (next_fd_close closed)
    · exact ih step

theorem next_add_ref (step : addRef s task fd ptr = some t) : t.next = s.next := by
  obtain ⟨f, _, rfl⟩ := Option.map_eq_some_iff.mp step
  rw [next_set_file, next_set_slot]

theorem next_dup {dst src i : Nat} (step : dupFrom s dst src i n = some t) : t.next = s.next := by
  induction n generalizing s i with
  | zero => rw [← Option.some.inj step]
  | succ n ih =>
    unfold dupFrom at step
    split at step
    · exact (ih step).trans (next_set_slot none)
    · obtain ⟨middle, added, rest⟩ := Option.bind_eq_some_iff.mp step
      exact (ih rest).trans (next_add_ref added)

theorem next_fd_dup2 {oldfd newfd : Int} {r : Int × Files} (step : fdDup2 s task oldfd newfd = some r) :
    r.2.next = s.next := by
  unfold fdDup2 at step
  split at step
  · cases step
    rfl
  · split at step
    · cases step
      rfl
    · obtain ⟨closed, closing, rest⟩ := Option.bind_eq_some_iff.mp step
      obtain ⟨ptr, _, rest⟩ := Option.bind_eq_some_iff.mp rest
      obtain ⟨added, adding, last⟩ := Option.bind_eq_some_iff.mp rest
      cases last
      have first : closed.next = s.next := by
        unfold closeIfOpen at closing
        split at closing
        · obtain ⟨r, gone, rfl⟩ := Option.map_eq_some_iff.mp closing
          exact next_fd_close gone
        · rw [← Option.some.inj closing]
      exact (next_add_ref adding).trans first

end Counters

section Tables
variable {n : Nat} {s t : Files}

theorem dup_tables (src : Nat) {dst i k : Nat} (inv : FilesInv n s) (fresh : dst < n) (apart : src ≠ dst)
    (inside : i + k ≤ maxFds) (blank : ∀ j, i ≤ j → s.tables dst j = none)
    (step : dupFrom s dst src i k = some t) :
    ∀ u j, t.tables u j = if u = dst ∧ i ≤ j ∧ j < i + k then s.tables src j else s.tables u j := by
  induction k generalizing s i with
  | zero =>
    intro u j
    rw [← Option.some.inj step, if_neg (by omega)]
  | succ k ih =>
    have vacant := blank i (Nat.le_refl _)
    rw [dupFrom] at step
    cases held : s.tables src i with
    | none =>
      rw [held] at step
      dsimp only at step
      rw [set_slot_vacant vacant] at step
      intro u j
      rw [ih inv (by omega) (fun j later => blank j (by omega)) step u j]
      by_cases here : u = dst ∧ j = i
      · rw [if_neg (by omega), if_pos (by omega), here.1, here.2, vacant, held]
      · by_cases mine : u = dst ∧ i + 1 ≤ j ∧ j < i + 1 + k
        · rw [if_pos mine, if_pos (by omega)]
        · rw [if_neg mine, if_neg (by omega)]
    | some ptr =>
      rw [held] at step
      obtain ⟨f, live⟩ := Option.isSome_iff_exists.mp (inv.accounted.known (src, i) ptr held)
      obtain ⟨mid, run, after, frame, tables⟩ := add_ref_inv _ inv fresh (i := i) (by omega) vacant live
      dsimp only at step
      rw [run] at step
      have still : ∀ j, i + 1 ≤ j → mid.tables dst j = none := by
        intro j later
        rw [tables, table_set_slot, if_neg (by omega)]
        exact blank j (by omega)
      intro u j
      have source : mid.tables src j = s.tables src j := congrFun (frame.tables src apart) j
      rw [ih after (by omega) still step u j, source, tables, table_set_slot]
      by_cases here : u = dst ∧ j = i
      · rw [if_neg (by omega), if_pos here, if_pos (by omega), here.2, held]
      · rw [if_neg here]
        by_cases mine : u = dst ∧ i + 1 ≤ j ∧ j < i + 1 + k
        · rw [if_pos mine, if_pos (by omega)]
        · rw [if_neg mine, if_neg (by omega)]

theorem destroy_tables {task i k : Nat} (inv : FilesInv n s) (inside : i + k ≤ maxFds)
    (step : destroyFrom s task i k = some t) :
    ∀ j, t.tables task j = if i ≤ j ∧ j < i + k then none else s.tables task j := by
  induction k generalizing s i with
  | zero =>
    intro j
    rw [← Option.some.inj step, if_neg (by omega)]
  | succ k ih =>
    rw [destroyFrom] at step
    split at step
    · rename_i full
      obtain ⟨ptr, held⟩ := Option.isSome_iff_exists.mp full
      have here : s.slot task i = some ptr := (slot_nat (by omega)).trans held
      obtain ⟨mid, run, after, _, tables⟩ := fd_close_open inv here
      rw [run] at step
      intro j
      rw [ih after (by omega) step j, tables, table_set_slot, Int.toNat_natCast]
      by_cases at_ : j = i
      · rw [if_neg (by omega), if_pos ⟨rfl, at_⟩, if_pos (by omega)]
      · by_cases mine : i + 1 ≤ j ∧ j < i + 1 + k
        · rw [if_pos mine, if_pos (by omega)]
        · rw [if_neg mine, if_neg (by omega), if_neg (by omega)]
    · rename_i vacant
      intro j
      rw [ih inv (by omega) step j]
      by_cases at_ : j = i
      · rw [if_neg (by omega), if_pos (by omega), at_]
        exact Option.not_isSome_iff_eq_none.mp vacant
      · by_cases mine : i + 1 ≤ j ∧ j < i + 1 + k
        · rw [if_pos mine, if_pos (by omega)]
        · rw [if_neg mine, if_neg (by omega)]

theorem table_beyond (inv : FilesInv n s) {task j : Nat} (beyond : maxFds ≤ j) : s.tables task j = none := by
  by_contra full
  have cell := (mem_slots_of.mp (inv.accounted.blank (task, j) full)).2
  omega

theorem held_old (inv : FilesInv n s) {u fd m : Nat} (holds : s.tables u fd = some (.heap m)) :
    m < s.nextFile := by
  by_contra later
  have known := inv.accounted.known (u, fd) (.heap m) holds
  rw [inv.accounted.fresh m (by omega)] at known
  cases known

end Tables

def FileCall.caller : FileCall → Option Nat
  | .create => none
  | .fork task | .exit task | .open_ task _ _ _ | .pipe task _ _ _ | .close task _ | .dup2 task _ _
  | .read task _ _ | .write task _ _ | .resume task => some task

/-- The task that makes a call; exec makes a task that inherits nothing. -/
def FdCall.caller : FdCall → Option Nat
  | .other call => call.caller
  | .read task _ _ _ _ | .write task _ _ | .resume task _ => some task

def FileCall.parent : FileCall → Option Nat
  | .fork task => some task
  | _ => none

def FdCall.parent : FdCall → Option Nat
  | .other call => call.parent
  | _ => none

def Inherited (parent : Option Nat) (s : Files) (u m : Nat) : Prop :=
  s.nextFile ≤ m ∨ (∃ fd, s.tables u fd = some (.heap m)) ∨
    u = s.numTasks ∧ ∃ v fd, parent = some v ∧ s.tables v fd = some (.heap m)

/-- What a call of one task does to the other tasks and to what there was before. -/
structure Framed (caller parent : Option Nat) (s t : FilesRun) : Prop where
  shapes : ∀ m sh, t.files.shape m = some sh → s.files.shape m = some sh ∨
    s.files.nextFile ≤ m ∧ ∀ q, sh.pipe = some q → s.files.nextPipe ≤ q
  nextFile : s.files.nextFile ≤ t.files.nextFile
  nextPipe : s.files.nextPipe ≤ t.files.nextPipe
  numTasks : s.files.numTasks ≤ t.files.numTasks
  tables : ∀ u, some u ≠ caller → u < s.files.numTasks → t.files.tables u = s.files.tables u
  pointers : ∀ u fd m, t.files.tables u fd = some (.heap m) → Inherited parent s.files u m
  calls : ∀ u, some u ≠ caller → t.calls u = s.calls u

section Effects
variable {s : FilesRun} {task : Nat} {r : Option Int × FilesRun}

theorem close_cases {fd : Int} (inv : RunInv s) (step : fileCall s (.close task fd) = some r) :
    s.files.slot task fd = none ∧ r.2 = s ∨
      r.2.files.tables = (s.files.setSlot task fd.toNat none).tables := by
  obtain ⟨r', closed, rfl⟩ := Option.map_eq_some_iff.mp step
  cases here : s.files.slot task fd with
  | none =>
    left
    rw [fdClose, here] at closed
    cases closed
    exact ⟨rfl, rfl⟩
  | some ptr =>
    right
    obtain ⟨t, run, _, _, tables⟩ := fd_close_open inv.files here
    rw [run] at closed
    cases closed
    exact tables

theorem close_tables {fd : Nat} (inv : RunInv s) (step : fileCall s (.close task fd) = some r) :
    r.2.files.tables = (s.files.setSlot task fd none).tables := by
  rcases close_cases inv step with ⟨here, same⟩ | tables
  · have vacant : s.files.tables task fd = none := by
      by_cases inside : fd < maxFds
      · rwa [slot_nat inside] at here
      · exact table_beyond inv.files (by omega)
    rw [set_slot_vacant vacant, same]
  · rwa [Int.toNat_natCast] at tables

theorem dup2_cases {oldfd newfd : Int} (inv : RunInv s) (may : task < s.files.numTasks)
    (apart : oldfd ≠ newfd) (step : fileCall s (.dup2 task oldfd newfd) = some r) :
    (s.files.slot task oldfd = none ∨ newfd < 0 ∨ 16 ≤ newfd) ∧ r.2 = s ∨
      ∃ ptr, s.files.slot task oldfd = some ptr ∧
        r.2.files.tables = (s.files.setSlot task newfd.toNat (some ptr)).tables := by
  obtain ⟨r', moved, rfl⟩ := Option.map_eq_some_iff.mp step
  cases from_ : s.files.slot task oldfd with
  | none =>
    rw [fdDup2, from_] at moved
    cases moved
    exact Or.inl ⟨Or.inl rfl, rfl⟩
  | some ptr =>
    by_cases inside : 0 ≤ newfd ∧ newfd < 16
    · obtain ⟨t, run, _, _, tables⟩ := fd_dup2_open inv.files may apart from_ inside.1 inside.2
      rw [run] at moved
      cases moved
      exact Or.inr ⟨ptr, rfl, tables⟩
    · have outside : newfd < 0 ∨ (maxFds : Int) ≤ newfd := by
        rw [maxFds]
        omega
      rw [fdDup2, from_] at moved
      dsimp only at moved
      rw [if_pos outside] at moved
      cases moved
      exact Or.inl ⟨Or.inr (by omega), rfl⟩

theorem dup2_tables {oldfd newfd : Nat} {ptr : FilePtr} (inv : RunInv s) (may : task < s.files.numTasks)
    (apart : oldfd ≠ newfd) (inside : newfd < maxFds) (holds : s.files.tables task oldfd = some ptr)
    (step : fileCall s (.dup2 task oldfd newfd) = some r) :
    r.2.files.tables = (s.files.setSlot task newfd (some ptr)).tables := by
  have low : oldfd < maxFds := by
    by_contra beyond
    rw [table_beyond inv.files (by omega)] at holds
    cases holds
  have from_ : s.files.slot task oldfd = some ptr := (slot_nat low).trans holds
  rw [maxFds] at inside
  rcases dup2_cases inv may (by omega) step with ⟨bad, _⟩ | ⟨ptr', same, tables⟩
  · rw [from_] at bad
    rcases bad with gone | outside
    · cases gone
    · omega
  · rw [from_] at same
    cases same
    rwa [Int.toNat_natCast] at tables

theorem open_tables {found : Option FatFile} {flags : Int} {alloc : Bool}
    (step : fileCall s (.open_ task found flags alloc) = some r) :
    r.1 = some (-1) ∧ r.2.files = s.files ∨
      ∃ (fd : Nat) (f : OpenFile), r.1 = some (fd : Int) ∧ fd < maxFds ∧ s.files.tables task fd = none ∧ f.pipe = none ∧
        r.2.files = (s.files.allocFile f).setSlot task fd (some (.heap s.files.nextFile)) := by
  cases step
  dsimp only [replied]
  unfold fdOpen
  split
  · exact Or.inl ⟨rfl, rfl⟩
  · exact Or.inl ⟨rfl, rfl⟩
  · rename_i fd fat free
    obtain ⟨inside, vacant⟩ := find_free_fd_some free
    split
    · exact Or.inr ⟨fd, _, rfl, inside, vacant, rfl, rfl⟩
    · exact Or.inl ⟨rfl, rfl⟩

structure PipeMade (s t : Files) (task rfd wfd : Nat) : Prop where
  apart : rfd ≠ wfd
  read : rfd < maxFds ∧ s.tables task rfd = none
  write : wfd < maxFds ∧ s.tables task wfd = none
  tables : t.tables = ((s.setSlot task rfd (some (.heap s.nextFile))).setSlot task wfd
    (some (.heap (s.nextFile + 1)))).tables
  shape : t.shape = Function.update (Function.update s.shape s.nextFile
    (some (endShape s.nextPipe oRdonly))) (s.nextFile + 1) (some (endShape s.nextPipe oWronly))
  nextFile : t.nextFile = s.nextFile + 2
  nextPipe : t.nextPipe = s.nextPipe + 1

theorem pipe_tables {a b c : Bool} (step : fileCall s (.pipe task a b c) = some r) :
    (fdPipe s.files task a b c).1 = none ∧ r.2.files.tables = s.files.tables ∧
        (∀ m sh, r.2.files.shape m = some sh → s.files.shape m = some sh) ∨
      ∃ rfd wfd, (fdPipe s.files task a b c).1 = some (rfd, wfd) ∧ PipeMade s.files r.2.files task rfd wfd := by
  cases step
  dsimp only
  unfold fdPipe
  split
  · exact Or.inl ⟨rfl, rfl, fun _ _ here => here⟩
  · rename_i rfd freeRead
    split
    · exact Or.inl ⟨rfl, rfl, fun _ _ here => here⟩
    · rename_i wfd freeWrite
      have read := find_free_fd_some freeRead
      have second := find_free_fd_some freeWrite
      have ne : rfd ≠ wfd := by
        rintro rfl
        simp at second
      have write : wfd < maxFds ∧ s.files.tables task wfd = none := by
        rw [Function.update_of_ne ne.symm] at second
        exact second
      dsimp only
      split
      · exact Or.inl ⟨rfl, rfl, fun _ _ here => here⟩
      · split
        · exact Or.inl ⟨rfl, rfl, fun _ _ here => here⟩
        · split
          · refine Or.inl ⟨rfl, rfl, ?_⟩
            intro m sh here
            rw [shape_free_file] at here
            by_cases new : m = s.files.nextFile
            · rw [new, Function.update_self] at here
              cases here
            · rw [Function.update_of_ne new] at here
              have made : Function.update s.files.shape s.files.nextFile
                  (some (pipeEnd s.files.nextPipe oRdonly).shape) m = some sh := by
                rw [← here]
                exact (congrFun shape_alloc_file m).symm
              rwa [Function.update_of_ne new] at made
          · refine Or.inr ⟨rfd, wfd, rfl, ne, read, write, rfl, ?_, rfl, rfl⟩
            have outer : (((s.files.allocPipe newPipe).allocFile (pipeEnd s.files.nextPipe oRdonly)).allocFile
                (pipeEnd s.files.nextPipe oWronly)).shape = Function.update ((s.files.allocPipe newPipe).allocFile
                (pipeEnd s.files.nextPipe oRdonly)).shape (s.files.nextFile + 1)
                (some (pipeEnd s.files.nextPipe oWronly).shape) := shape_alloc_file
            apply outer.trans
            rw [shape_alloc_file]
            rfl

theorem fork_tables (inv : RunInv s) (may : task < s.files.numTasks)
    (step : fileCall s (.fork task) = some r) :
    r.2.files.tables = Function.update s.files.tables s.files.numTasks (s.files.tables task) ∧
      r.2.files.next = s.files.next ∧ r.2.files.numTasks = s.files.numTasks + 1 := by
  obtain ⟨t, dup, rfl⟩ := Option.map_eq_some_iff.mp step
  obtain ⟨_, blank⟩ := task_blank inv (Nat.le_refl _)
  have wider : FilesInv (s.files.numTasks + 1) s.files :=
    ⟨accounted_more (Nat.le_succ _) inv.files.accounted, inv.files.ends⟩
  have copied := dup_tables task (i := 0) (k := maxFds) wider (Nat.lt_succ_self _) (by omega) (by omega)
    (fun j _ => blank j) dup
  have next : t.next = s.files.next := next_dup dup
  refine ⟨?_, next, rfl⟩
  funext u j
  dsimp only
  rw [copied u j]
  by_cases new : u = s.files.numTasks
  · rw [new, Function.update_self]
    by_cases inside : j < maxFds
    · rw [if_pos (by omega)]
    · rw [if_neg (by omega), blank j]
      exact (table_beyond inv.files (by omega)).symm
  · rw [Function.update_of_ne new, if_neg (by omega)]

theorem exit_tables (inv : RunInv s) (step : fileCall s (.exit task) = some r) :
    (∀ fd, r.2.files.tables task fd = none) ∧ r.2.files.next = s.files.next := by
  obtain ⟨t, gone, rfl⟩ := Option.map_eq_some_iff.mp step
  constructor
  · intro fd
    have closed := destroy_tables inv.files (by omega) gone fd
    by_cases inside : fd < maxFds
    · rw [if_pos (by omega)] at closed
      exact closed
    · rw [if_neg (by omega), table_beyond inv.files (by omega)] at closed
      exact closed
  · exact next_destroy gone

theorem shapes_of_next {n : Nat} {t : Files} (inv : FilesInv n t) (next : t.next = s.files.next)
    (frame : Evolves task s.files { t with numTasks := s.files.numTasks }) :
    ∀ m sh, t.shape m = some sh → s.files.shape m = some sh := by
  intro m sh here
  rcases frame.files m sh here with old | new
  · exact old
  · rw [Files.next, Files.next, Prod.mk.injEq] at next
    rw [file_shape_none inv (by omega)] at here
    cases here

theorem inherited_same {parent : Option Nat} {t : Files} (same : t.tables = s.files.tables) :
    ∀ u fd m, t.tables u fd = some (.heap m) → Inherited parent s.files u m := by
  intro u fd m holds
  rw [same] at holds
  exact Or.inr (Or.inl ⟨fd, holds⟩)

theorem inherited_slot {parent : Option Nat} {t : Files} {i : Nat} {v : Option FilePtr}
    (tables : t.tables = (s.files.setSlot task i v).tables)
    (from_ : ∀ m, v = some (.heap m) → Inherited parent s.files task m) :
    ∀ u fd m, t.tables u fd = some (.heap m) → Inherited parent s.files u m := by
  intro u fd m holds
  rw [tables, table_set_slot] at holds
  split at holds
  · rename_i here
    rw [here.1]
    exact from_ m holds
  · exact Or.inr (Or.inl ⟨fd, holds⟩)

theorem set_slot_others {t : Files} {i : Nat} {v : Option FilePtr}
    (tables : t.tables = (s.files.setSlot task i v).tables) :
    ∀ u, some u ≠ some task → u < s.files.numTasks → t.tables u = s.files.tables u := by
  intro u other _
  rw [tables]
  exact Function.update_of_ne (fun same => other (congrArg some same)) _ _

theorem framed_of_tables {caller parent : Option Nat} {t : FilesRun} {owner : Nat} (table : TableStep owner s t)
    (numTasks : s.files.numTasks ≤ t.files.numTasks)
    (shapes : ∀ m sh, t.files.shape m = some sh → s.files.shape m = some sh ∨
      s.files.nextFile ≤ m ∧ ∀ q, sh.pipe = some q → s.files.nextPipe ≤ q)
    (tables : ∀ u, some u ≠ caller → u < s.files.numTasks → t.files.tables u = s.files.tables u)
    (pointers : ∀ u fd m, t.files.tables u fd = some (.heap m) → Inherited parent s.files u m) :
    Framed caller parent s t := by
  refine ⟨shapes, table.frame.nextFile, table.frame.nextPipe, numTasks, tables, pointers, ?_⟩
  intro u _
  rw [table.rest]

section TableCalls
variable {caller parent : Option Nat} {t : FilesRun} {owner : Nat}

theorem framed_still (table : TableStep owner s t) (numTasks : s.files.numTasks ≤ t.files.numTasks)
    (shapes : ∀ m sh, t.files.shape m = some sh → s.files.shape m = some sh ∨
      s.files.nextFile ≤ m ∧ ∀ q, sh.pipe = some q → s.files.nextPipe ≤ q)
    (same : t.files.tables = s.files.tables) : Framed caller parent s t := by
  apply framed_of_tables table numTasks shapes
  · intro u _ _
    rw [same]
  · exact inherited_same same

theorem framed_slot {i : Nat} {v : Option FilePtr} (table : TableStep owner s t)
    (numTasks : s.files.numTasks ≤ t.files.numTasks)
    (shapes : ∀ m sh, t.files.shape m = some sh → s.files.shape m = some sh ∨
      s.files.nextFile ≤ m ∧ ∀ q, sh.pipe = some q → s.files.nextPipe ≤ q)
    (tables : t.files.tables = (s.files.setSlot task i v).tables)
    (from_ : ∀ m, v = some (.heap m) → Inherited parent s.files task m) : Framed (some task) parent s t :=
  framed_of_tables table numTasks shapes (set_slot_others tables) (inherited_slot tables from_)

theorem framed_new_task {row : FdTable} (table : TableStep owner s t) (numTasks : s.files.numTasks ≤ t.files.numTasks)
    (shapes : ∀ m sh, t.files.shape m = some sh → s.files.shape m = some sh ∨
      s.files.nextFile ≤ m ∧ ∀ q, sh.pipe = some q → s.files.nextPipe ≤ q)
    (tables : t.files.tables = Function.update s.files.tables s.files.numTasks row)
    (from_ : ∀ fd m, row fd = some (.heap m) → Inherited parent s.files s.files.numTasks m) :
    Framed caller parent s t := by
  apply framed_of_tables table numTasks shapes
  · intro u _ inside
    rw [tables]
    exact Function.update_of_ne (by omega) _ _
  · intro u fd m holds
    rw [tables] at holds
    by_cases new : u = s.files.numTasks
    · rw [new, Function.update_self] at holds
      rw [new]
      exact from_ fd m holds
    · rw [Function.update_of_ne new] at holds
      exact Or.inr (Or.inl ⟨fd, holds⟩)

theorem framed_open {found : Option FatFile} {flags : Int} {alloc : Bool} (table : TableStep owner s r.2)
    (step : fileCall s (.open_ task found flags alloc) = some r) : Framed (some task) none s r.2 := by
  rcases open_tables step with ⟨_, same⟩ | ⟨fd, f, _, _, _, plain, same⟩
  · apply framed_still table (by rw [same]) _ (by rw [same])
    intro m sh here
    rw [same] at here
    exact Or.inl here
  · have tables : r.2.files.tables = (s.files.setSlot task fd (some (.heap s.files.nextFile))).tables := by
      rw [same]
      rfl
    apply framed_slot table (by rw [same]; exact Nat.le_refl _) _ tables
    · intro m new
      cases new
      exact Or.inl (Nat.le_refl _)
    · intro m sh here
      rw [same] at here
      have made : Function.update s.files.shape s.files.nextFile (some f.shape) m = some sh := by
        rw [← here]
        exact (congrFun shape_alloc_file m).symm
      by_cases new : m = s.files.nextFile
      · right
        rw [new, Function.update_self] at made
        cases made
        refine ⟨by omega, ?_⟩
        intro q isPipe
        have none_ : f.shape.pipe = none := plain
        rw [none_] at isPipe
        cases isPipe
      · rw [Function.update_of_ne new] at made
        exact Or.inl made

theorem framed_pipe {a b c : Bool} (inv : RunInv s) (may : task < s.files.numTasks) (table : TableStep owner s r.2)
    (step : fileCall s (.pipe task a b c) = some r) : Framed (some task) none s r.2 := by
  have numTasks : s.files.numTasks ≤ r.2.files.numTasks := by
    cases step
    exact Nat.le_of_eq (fd_pipe_inv inv.files may a b c).2.tasks.symm
  rcases pipe_tables step with ⟨_, same, shapes⟩ | ⟨rfd, wfd, _, made⟩
  · exact framed_still table numTasks (fun m sh here => Or.inl (shapes m sh here)) same
  · apply framed_of_tables table numTasks
    · intro m sh here
      rw [made.shape] at here
      by_cases second : m = s.files.nextFile + 1
      · rw [second, Function.update_self] at here
        cases here
        refine Or.inr ⟨by omega, ?_⟩
        rintro q ⟨⟩
        exact Nat.le_refl _
      · rw [Function.update_of_ne second] at here
        by_cases first : m = s.files.nextFile
        · rw [first, Function.update_self] at here
          cases here
          refine Or.inr ⟨by omega, ?_⟩
          rintro q ⟨⟩
          exact Nat.le_refl _
        · rw [Function.update_of_ne first] at here
          exact Or.inl here
    · intro u other _
      have mine : u ≠ task := fun same => other (congrArg some same)
      rw [made.tables]
      exact (Function.update_of_ne mine _ _).trans (Function.update_of_ne mine _ _)
    · intro u fd m holds
      rw [made.tables, table_set_slot, table_set_slot] at holds
      split at holds
      · cases holds
        exact Or.inl (Nat.le_succ _)
      · split at holds
        · cases holds
          exact Or.inl (Nat.le_refl _)
        · exact Or.inr (Or.inl ⟨fd, holds⟩)

end TableCalls

theorem framed_table_call {call : FileCall} (inv : RunInv s) (may : enabled s call)
    (tables : onTables call = true) (step : fileCall s call = some r) : Framed call.caller call.parent s r.2 := by
  obtain ⟨r', owner, same, table⟩ := table_call_steps inv may tables
  rw [step] at same
  cases same
  have after := table.inv
  have old : r.2.files.next = s.files.next → ∀ m sh, r.2.files.shape m = some sh →
      s.files.shape m = some sh ∨ s.files.nextFile ≤ m ∧ ∀ q, sh.pipe = some q → s.files.nextPipe ≤ q := by
    intro next m sh here
    exact Or.inl (shapes_of_next after next table.frame m sh here)
  cases call with
  | read task fd count => cases tables
  | write task fd src => cases tables
  | resume task => cases tables
  | create =>
    cases step
    apply framed_new_task table (Nat.le_succ _) (old rfl) rfl
    intro fd m console
    split at console <;> cases console
  | fork task =>
    obtain ⟨copied, next, numTasks⟩ := fork_tables inv may.1 step
    apply framed_new_task table (by omega) (old next) copied
    intro fd m holds
    exact Or.inr (Or.inr ⟨rfl, task, fd, rfl, holds⟩)
  | exit task =>
    obtain ⟨gone, next⟩ := exit_tables inv step
    obtain ⟨t, run, _, frame⟩ := destroy_inv inv.files task 0 maxFds
    rw [fileCall, fdTableDestroy, run] at step
    cases step
    apply framed_of_tables table (Nat.le_of_eq frame.tasks.symm) (old next)
    · intro u other _
      exact frame.tables u fun same => other (congrArg some same)
    · intro u fd m holds
      by_cases mine : u = task
      · rw [mine, gone fd] at holds
        cases holds
      · rw [show t.tables u = s.files.tables u from frame.tables u mine] at holds
        exact Or.inr (Or.inl ⟨fd, holds⟩)
  | open_ task found flags alloc => exact framed_open table step
  | pipe task a b c => exact framed_pipe inv may.1 table step
  | close task fd =>
    have next : r.2.files.next = s.files.next := by
      obtain ⟨r', closed, rfl⟩ := Option.map_eq_some_iff.mp step
      exact next_fd_close closed
    have numTasks : s.files.numTasks ≤ r.2.files.numTasks := by
      obtain ⟨v, t, run, _, frame⟩ := fd_close_inv inv.files task fd
      rw [fileCall, run] at step
      cases step
      exact Nat.le_of_eq frame.tasks.symm
    rcases close_cases inv step with ⟨_, same⟩ | tables
    · exact framed_still table numTasks (old next) (by rw [same])
    · apply framed_slot table numTasks (old next) tables
      rintro m ⟨⟩
  | dup2 task oldfd newfd =>
    have next : r.2.files.next = s.files.next := by
      obtain ⟨r', moved, rfl⟩ := Option.map_eq_some_iff.mp step
      exact next_fd_dup2 moved
    have numTasks : s.files.numTasks ≤ r.2.files.numTasks := by
      obtain ⟨v, t, run, _, frame⟩ := fd_dup2_inv inv.files may.1.1 may.2
      rw [fileCall, run] at step
      cases step
      exact Nat.le_of_eq frame.tasks.symm
    rcases dup2_cases inv may.1.1 may.2 step with ⟨_, same⟩ | ⟨ptr, from_, tables⟩
    · exact framed_still table numTasks (old next) (by rw [same])
    · apply framed_slot table numTasks (old next) tables
      rintro m ⟨⟩
      exact Or.inr (Or.inl ⟨_, (slot_some from_).2.2⟩)

end Effects

def EndAt (s : Files) (task : Nat) (fd : Int) (q : Nat) : Prop :=
  ∃ m flags, s.slot task fd = some (.heap m) ∧ s.shape m = some (endShape q flags)

def PipeCall.On (reads writes : Nat → Prop) : PipeCall → Prop
  | .reading q _ => reads q
  | .writing q _ _ => writes q

structure Moves (task : Nat) (reads writes : Nat → Prop) (s t : FilesRun) : Prop where
  tables : t.files.tables = s.files.tables
  shape : t.files.shape = s.files.shape
  next : t.files.next = s.files.next
  numTasks : t.files.numTasks = s.files.numTasks
  calls : ∀ u, u ≠ task → t.calls u = s.calls u
  returned : ∀ q, ¬ reads q → t.returned q = s.returned q
  written : ∀ q, ¬ writes q → t.written q = s.written q
  took : ∀ q, s.returned q <+: t.returned q
  put : ∀ q, s.written q <+: t.written q
  waits : ∀ c, t.calls task = some c → c.On reads writes
  alive : ∀ q, t.returned q = s.returned q ∨ (t.files.pipes q).isSome

section Transfers
variable {s : FilesRun} {task q : Nat} {r : Option Int × FilesRun} {reads writes : Nat → Prop}

theorem moves_refl (free : s.calls task = none) : Moves task reads writes s s := by
  refine ⟨rfl, rfl, rfl, rfl, fun _ _ => rfl, fun _ _ => rfl, fun _ _ => rfl, fun _ => List.prefix_refl _,
    fun _ => List.prefix_refl _, ?_, fun _ => Or.inl rfl⟩
  intro c waiting
  rw [free] at waiting
  cases waiting

theorem moves_read {count : Nat} (may : reads q) (step : readStep s task q count = some r) :
    Moves task reads writes s r.2 := by
  obtain ⟨p, _, same⟩ := Option.map_eq_some_iff.mp step
  split at same <;> rw [← same]
  · refine ⟨rfl, rfl, rfl, rfl, fun u other => Function.update_of_ne other _ _, fun _ _ => rfl, fun _ _ => rfl,
      fun _ => List.prefix_refl _, fun _ => List.prefix_refl _, ?_, fun _ => Or.inl rfl⟩
    intro c waiting
    have now : Function.update s.calls task (some (PipeCall.reading q count)) task = some c := waiting
    rw [Function.update_self] at now
    cases now
    exact may
  · rename_i bytes after took
    refine ⟨rfl, rfl, rfl, rfl, fun u other => Function.update_of_ne other _ _, ?_, fun _ _ => rfl, ?_,
      fun _ => List.prefix_refl _, ?_, ?_⟩
    · intro k other
      have apart : k ≠ q := by
        rintro rfl
        exact other may
      exact Function.update_of_ne apart _ _
    · intro k
      dsimp only
      rw [Function.update_apply]
      split
      · rename_i here
        rw [here]
        exact List.prefix_append _ _
      · exact List.prefix_refl _
    · intro c waiting
      have now : Function.update s.calls task none task = some c := waiting
      rw [Function.update_self] at now
      cases now
    · intro k
      by_cases here : k = q
      · right
        rw [here]
        simp [Files.setPipe]
      · exact Or.inl (Function.update_of_ne here _ _)

theorem moves_write {rest : List Byte} {count : Nat} (may : writes q)
    (step : writeStep s task q rest count = some r) : Moves task reads writes s r.2 := by
  obtain ⟨p, _, same⟩ := Option.map_eq_some_iff.mp step
  dsimp only at same
  have moved : ∀ call, (∀ c, call = some c → ∃ left n, c = PipeCall.writing q left n) →
      Moves task reads writes s
        { s with
          files := s.files.setPipe q (writeRound p rest).2
          written := Function.update s.written q (s.written q ++ stored p rest)
          calls := Function.update s.calls task call } := by
    intro call mine
    refine ⟨rfl, rfl, rfl, rfl, fun u other => Function.update_of_ne other _ _, fun _ _ => rfl, ?_,
      fun _ => List.prefix_refl _, ?_, ?_, fun _ => Or.inl rfl⟩
    · intro k other
      have apart : k ≠ q := by
        rintro rfl
        exact other may
      exact Function.update_of_ne apart _ _
    · intro k
      dsimp only
      rw [Function.update_apply]
      split
      · rename_i here
        rw [here]
        exact List.prefix_append _ _
      · exact List.prefix_refl _
    · intro c waiting
      have now : Function.update s.calls task call task = some c := waiting
      rw [Function.update_self] at now
      obtain ⟨left, n, rfl⟩ := mine c now
      exact may
  split at same <;> rw [← same]
  · exact moved none (by simp)
  · exact moved none (by simp)
  · apply moved (some _)
    rintro c ⟨⟩
    exact ⟨_, _, rfl⟩

theorem end_at_of_file {fd : Int} {ptr : FilePtr} {f : OpenFile} (inv : RunInv s)
    (here : s.files.slot task fd = some ptr) (live : s.files.deref ptr = some f) (type : f.type = .pipe)
    (pipe : f.pipe = some q) : EndAt s.files task fd q := by
  cases ptr with
  | console =>
    obtain ⟨g, found, console⟩ := inv.files.accounted.console
    rw [live] at found
    cases found
    rw [type] at console
    cases console
  | dummy =>
    rw [inv.files.accounted.dummy] at live
    cases live
  | heap m =>
    have found : s.files.files m = some f := live
    have parts : f.shape = endShape q f.flags := by rw [OpenFile.shape, type, pipe]
    exact ⟨m, f.flags, here, by rw [Files.shape, found, Option.map_some, parts]⟩

theorem end_at_of_names {fd : Int} {ptr : FilePtr} {f : OpenFile} (inv : RunInv s)
    (here : s.files.slot task fd = some ptr) (live : s.files.deref ptr = some f) (type : f.type = .pipe)
    (names : FdNames s task fd q) : EndAt s.files task fd q := by
  obtain ⟨ptr', f', here', live', pipe⟩ := names
  rw [here] at here'
  cases here'
  rw [live] at live'
  cases live'
  exact end_at_of_file inv here live type pipe

theorem fd_read_moves {fs : Fat16.Fs} {fd : Int} {args : ReadArgs} {result : Option Int} {stores : Stores}
    {t : FilesRun} (inv : RunInv s) (free : s.calls task = none)
    (read : fdRead fs s task fd args = some (result, stores, t)) :
    Moves task (EndAt s.files task fd) (fun _ => False) s t := by
  unfold fdRead at read
  split at read
  · cases read
    exact moves_refl free
  · rename_i ptr here
    obtain ⟨f, live, rest⟩ := Option.bind_eq_some_iff.mp read
    cases type : f.type with
    | none =>
      simp only [type, Option.some.injEq] at rest
      cases rest
      exact moves_refl free
    | console =>
      simp only [type] at rest
      obtain ⟨r, _, same⟩ := Option.map_eq_some_iff.mp rest
      cases same
      exact moves_refl free
    | file =>
      simp only [type] at rest
      obtain ⟨r, _, same⟩ := Option.map_eq_some_iff.mp rest
      cases same
      have kept : (⟨.file, f.flags, f.pipe⟩ : Shape) = f.shape := by rw [OpenFile.shape, type]
      have still := @moves_refl _ _ (EndAt s.files task fd) (fun _ => False) free
      refine ⟨tables_set_file, shape_set_file live kept, next_set_file, ?_, still.calls, still.returned,
        still.written, still.took, still.put, still.waits, fun _ => Or.inl rfl⟩
      cases ptr <;> rfl
    | pipe =>
      simp only [type] at rest
      obtain ⟨r, piped, same⟩ := Option.map_eq_some_iff.mp rest
      cases same
      rcases fd_read_pipe_cases piped with same | ⟨q, names, round⟩
      · rw [same]
        exact moves_refl free
      · exact moves_read (end_at_of_names inv here live type names) round

theorem fd_write_moves {fd : Int} {src : List Byte} (inv : RunInv s) (free : s.calls task = none)
    (write : fdWrite s task fd src = some r) :
    Moves task (fun _ => False) (EndAt s.files task fd) s r.2 := by
  unfold fdWrite at write
  split at write
  · cases write
    exact moves_refl free
  · rename_i ptr here
    obtain ⟨f, live, rest⟩ := Option.bind_eq_some_iff.mp write
    cases type : f.type with
    | pipe =>
      simp only [type] at rest
      rcases fd_write_pipe_cases rest with same | ⟨q, names, round⟩
      · rw [same]
        exact moves_refl free
      · exact moves_write (end_at_of_names inv here live type names) round
    | _ =>
      simp only [type] at rest
      cases rest
      exact moves_refl free

theorem resume_moves (step : fileCall s (.resume task) = some r) :
    Moves task (fun q => ∃ count, s.calls task = some (.reading q count))
      (fun q => ∃ rest count, s.calls task = some (.writing q rest count)) s r.2 := by
  rcases resume_cases step with ⟨q, count, waiting, round⟩ | ⟨q, rest, count, waiting, round⟩
  · exact moves_read ⟨count, waiting⟩ round
  · exact moves_write ⟨rest, count, waiting⟩ round

theorem framed_of_moves {t : FilesRun} (moves : Moves task reads writes s t) : Framed (some task) none s t := by
  have next := moves.next
  rw [Files.next, Files.next, Prod.mk.injEq] at next
  refine ⟨?_, by omega, by omega, by rw [moves.numTasks], ?_, inherited_same moves.tables, ?_⟩
  · intro m sh here
    rw [moves.shape] at here
    exact Or.inl here
  · intro u _ _
    rw [moves.tables]
  · intro u other
    exact moves.calls u fun same => other (congrArg some same)

theorem framed_refl (caller parent : Option Nat) (s : FilesRun) : Framed caller parent s s :=
  ⟨fun _ _ here => Or.inl here, Nat.le_refl _, Nat.le_refl _, Nat.le_refl _, fun _ _ _ => rfl,
    inherited_same rfl, fun _ _ => rfl⟩

end Transfers

def moved (s : FilesRun) : FdCall → (Nat → Prop) × (Nat → Prop)
  | .other _ => (fun _ => False, fun _ => False)
  | .read task fd _ _ _ => (EndAt s.files task fd, fun _ => False)
  | .write task fd _ => (fun _ => False, EndAt s.files task fd)
  | .resume task _ => (fun q => ∃ count, s.calls task = some (.reading q count),
      fun q => ∃ rest count, s.calls task = some (.writing q rest count))

section Calls
variable {fs : Fat16.Fs} {s : FdRun} {call : FdCall} {r : Option Int × FdRun}

theorem transfer_moves {task : Nat} (inv : RunInv s.run) (may : callable s call) (caller : call.caller = some task)
    (transfer : ∀ c, call ≠ .other c) (step : fdCall fs s call = some r) :
    Moves task (moved s.run call).1 (moved s.run call).2 s.run r.2.run := by
  cases call with
  | other call => exact absurd rfl (transfer call)
  | read task fd buf args space =>
    cases caller
    obtain ⟨stores, run, after, read, _, same⟩ := read_parts step
    rw [same]
    exact fd_read_moves inv may.1.2 read
  | write task fd src =>
    cases caller
    obtain ⟨r', write, rfl⟩ := Option.map_eq_some_iff.mp step
    exact fd_write_moves inv may.2 write
  | resume task space =>
    cases caller
    obtain ⟨r', resumed, rest⟩ := Option.bind_eq_some_iff.mp step
    obtain ⟨_, _, same⟩ := Option.bind_eq_some_iff.mp rest
    cases same
    exact resume_moves resumed

theorem table_call_frame {call : FileCall} (inv : RunInv s.run) (may : callable s (.other call))
    (step : fdCall fs s (.other call) = some r) :
    ∃ r', fileCall s.run call = some r' ∧ r.2.run = r'.2 ∧ Framed call.caller call.parent s.run r'.2 ∧
      r'.2.calls = s.run.calls ∧ r'.2.written = s.run.written ∧ r'.2.returned = s.run.returned := by
  obtain ⟨r', taken, rfl⟩ := Option.map_eq_some_iff.mp step
  refine ⟨r', taken, rfl, ?_⟩
  have tables := callable_on_tables may
  have framed : enabled s.run call → Framed call.caller call.parent s.run r'.2 ∧
      r'.2.calls = s.run.calls ∧ r'.2.written = s.run.written ∧ r'.2.returned = s.run.returned := by
    intro may
    obtain ⟨r'', owner, same, table⟩ := table_call_steps inv may tables
    rw [taken] at same
    cases same
    refine ⟨framed_table_call inv may tables taken, ?_⟩
    rw [table.rest]
    exact ⟨rfl, rfl, rfl⟩
  cases call with
  | dup2 task oldfd newfd =>
    by_cases same : oldfd = newfd
    · rw [same] at taken
      obtain ⟨r'', twice, rfl⟩ := Option.map_eq_some_iff.mp taken
      rw [fd_dup2_same inv.files twice]
      exact ⟨framed_refl _ _ _, rfl, rfl, rfl⟩
    · exact framed ⟨may, same⟩
  | read task fd count => cases tables
  | write task fd src => cases tables
  | resume task => cases tables
  | _ => exact framed may

theorem call_framed (inv : RunInv s.run) (may : callable s call) (step : fdCall fs s call = some r) :
    Framed call.caller call.parent s.run r.2.run := by
  cases call with
  | other call =>
    obtain ⟨r', _, same, framed, _⟩ := table_call_frame inv may step
    rw [same]
    exact framed
  | read task fd buf args space => exact framed_of_moves (transfer_moves inv may rfl (by simp) step)
  | write task fd src => exact framed_of_moves (transfer_moves inv may rfl (by simp) step)
  | resume task space => exact framed_of_moves (transfer_moves inv may rfl (by simp) step)

theorem histories_grow (inv : RunInv s.run) (may : callable s call) (step : fdCall fs s call = some r) (q : Nat) :
    (¬ (moved s.run call).1 q → r.2.run.returned q = s.run.returned q) ∧
      (¬ (moved s.run call).2 q → r.2.run.written q = s.run.written q) ∧
      s.run.returned q <+: r.2.run.returned q ∧ s.run.written q <+: r.2.run.written q := by
  have of_moves : ∀ task, call.caller = some task → (∀ c, call ≠ .other c) →
      (¬ (moved s.run call).1 q → r.2.run.returned q = s.run.returned q) ∧
        (¬ (moved s.run call).2 q → r.2.run.written q = s.run.written q) ∧
        s.run.returned q <+: r.2.run.returned q ∧ s.run.written q <+: r.2.run.written q := by
    intro task caller transfer
    have moves := transfer_moves inv may caller transfer step
    exact ⟨moves.returned q, moves.written q, moves.took q, moves.put q⟩
  cases call with
  | other call =>
    obtain ⟨r', _, same, _, _, written, returned⟩ := table_call_frame inv may step
    rw [same, written, returned]
    exact ⟨fun _ => rfl, fun _ => rfl, List.prefix_refl _, List.prefix_refl _⟩
  | read task fd buf args space => exact of_moves task rfl (by simp)
  | write task fd src => exact of_moves task rfl (by simp)
  | resume task space => exact of_moves task rfl (by simp)

theorem call_waits {task : Nat} {c : PipeCall} (inv : RunInv s.run) (may : callable s call)
    (step : fdCall fs s call = some r) (caller : call.caller = some task) (waiting : r.2.run.calls task = some c) :
    s.run.calls task = some c ∨ c.On (moved s.run call).1 (moved s.run call).2 := by
  cases call with
  | other call =>
    obtain ⟨r', _, same, _, calls, _⟩ := table_call_frame inv may step
    rw [same, calls] at waiting
    exact Or.inl waiting
  | read task' fd buf args space => exact Or.inr ((transfer_moves inv may caller (by simp) step).waits c waiting)
  | write task' fd src => exact Or.inr ((transfer_moves inv may caller (by simp) step).waits c waiting)
  | resume task' space => exact Or.inr ((transfer_moves inv may caller (by simp) step).waits c waiting)

theorem read_step_waits {f : FilesRun} {task q count : Nat} {c : PipeCall} {r : Option Int × FilesRun}
    (step : readStep f task q count = some r) (waiting : r.2.calls task = some c) : c = .reading q count := by
  obtain ⟨p, _, same⟩ := Option.map_eq_some_iff.mp step
  split at same <;> rw [← same] at waiting
  · have now : Function.update f.calls task (some (PipeCall.reading q count)) task = some c := waiting
    rw [Function.update_self] at now
    exact (Option.some.inj now).symm
  · have now : Function.update f.calls task none task = some c := waiting
    rw [Function.update_self] at now
    cases now

def Ordered (s : FilesRun) : Prop := ∀ q, s.returned q <+: s.written q

theorem ordered_call (inv : RunInv s.run) (may : callable s call) (step : fdCall fs s call = some r)
    (ordered : Ordered s.run) : Ordered r.2.run := by
  have after := fd_call_inv inv may step
  intro q
  obtain ⟨_, _, _, put⟩ := histories_grow inv may step q
  have unread : r.2.run.returned q = s.run.returned q → r.2.run.returned q <+: r.2.run.written q := by
    intro same
    rw [same]
    exact (ordered q).trans put
  have of_moves : ∀ task, call.caller = some task → (∀ c, call ≠ .other c) →
      r.2.run.returned q <+: r.2.run.written q := by
    intro task caller transfer
    rcases (transfer_moves inv may caller transfer step).alive q with same | live
    · exact unread same
    · obtain ⟨p, found⟩ := Option.isSome_iff_exists.mp live
      rw [← (after.fifo q p found).order]
      exact List.prefix_append _ _
  cases call with
  | other call =>
    obtain ⟨r', _, same, _, _, _, returned⟩ := table_call_frame inv may step
    apply unread
    rw [same, returned]
  | read task fd buf args space => exact of_moves task rfl (by simp)
  | write task fd src => exact of_moves task rfl (by simp)
  | resume task space => exact of_moves task rfl (by simp)

theorem reached_ordered (run : FdReached fs s) : Ordered s.run := by
  have both : RunInv s.run ∧ Ordered s.run := by
    refine reaches_invariant (fun u => RunInv u.run ∧ Ordered u.run) ?_ ?_ run
    · rintro u rfl
      exact ⟨run_inv_boot, fun _ => List.prefix_refl _⟩
    · rintro u call v ⟨inv, ordered⟩ ⟨may, taken⟩
      obtain ⟨result, taken⟩ := fd_step_call taken
      exact ⟨fd_call_inv inv may taken, ordered_call inv may taken ordered⟩
  exact both.2

end Calls
end Archarch.Descriptors
