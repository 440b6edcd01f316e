import Archarch.Files.References

/- Each operation of fd.c keeps the invariant, never follows a pointer to a freed
   object, and leaves alone what belongs to other tasks. -/
namespace Archarch.Descriptors

section Slots
variable {s : Files} {task n : Nat} {fd : Int} {ptr : FilePtr}

theorem slot_some (here : s.slot task fd = some ptr) :
    0 ≤ fd ∧ fd < 16 ∧ s.tables task fd.toNat = some ptr := by
  unfold Files.slot at here
  split at here
  · cases here
  · rename_i inside
    simp only [maxFds] at inside
    exact ⟨by omega, by omega, here⟩

theorem slot_nat {i : Nat} (cell : i < maxFds) : s.slot task i = s.tables task i := by
  simp only [maxFds] at cell
  unfold Files.slot
  rw [if_neg (by simp only [maxFds]; omega), Int.toNat_natCast]

theorem find_free_fd_some {table : FdTable} {i : Nat} (found : findFreeFd table = some i) :
    i < maxFds ∧ table i = none := by
  have member := List.mem_of_find?_eq_some found
  have vacant := List.find?_some found
  exact ⟨List.mem_range.mp member, by simpa using vacant⟩

end Slots

section Steps
variable {n task : Nat} {s : Files} {ptr : FilePtr} {f : OpenFile}

theorem add_ref_inv (ptr : FilePtr) {i : Nat} (inv : FilesInv n s) (inTasks : task < n) (cell : i < maxFds)
    (vacant : s.tables task i = none) (live : s.deref ptr = some f) :
    ∃ t, addRef s task i ptr = some t ∧ FilesInv n t ∧ Evolves task s t ∧
      t.tables = (s.setSlot task i (some ptr)).tables := by
  have live' : (s.setSlot task i (some ptr)).deref ptr = some f := live
  have shape := shape_set_file (f := { f with refCount := f.refCount + 1 }) live' rfl
  refine ⟨(s.setSlot task i (some ptr)).setFile ptr { f with refCount := f.refCount + 1 },
    by simp [addRef, live], ⟨?_, ?_⟩, ?_, tables_set_file⟩
  · have counts := accounted_acquire inv.accounted (mem_slots_of.mpr ⟨inTasks, cell⟩) vacant live
    rw [held_set_file, held_set_slot, deref_set_file live', deref_set_slot]
    cases ptr <;> exact counts
  · rw [shape]
    cases ptr <;> exact inv.ends
  · refine ⟨?_, ?_, ?_, ?_, ?_, ?_⟩
    · intro u ne
      rw [tables_set_file]
      exact Function.update_of_ne ne _ _
    · intro m sh here
      rw [shape] at here
      exact Or.inl here
    · intro q p here
      exact Or.inl ⟨p, by cases ptr <;> exact here, rfl⟩
    all_goals cases ptr <;> simp [Files.setFile, Files.setSlot]

end Steps

def Files.dropPipe (s : Files) (q : Nat) (after : Option Pipe) : Files :=
  { s with
    pipes := Function.update s.pipes q after
    freedPipes := if after = none then q :: s.freedPipes else s.freedPipes }

section Close
variable {n task m q : Nat} {fd : Int} {s : Files} {ptr : FilePtr} {f : OpenFile} {p : Pipe}

theorem ring_close_end (p : Pipe) (flags : Int) : (p.closeEnd flags).ring = p.ring := by
  unfold Pipe.closeEnd
  split
  · rfl
  · split <;> rfl

theorem fd_close_shared (here : s.slot task fd = some ptr) (live : s.deref ptr = some f)
    (stays : ptr = .console ∧ f.type = .console ∨ 1 < f.refCount) :
    fdClose s task fd = some (0, (s.setSlot task fd.toNat none).setFile ptr
      { f with refCount := f.refCount - 1 }) := by
  have idle : closePipeEnd (s.setSlot task fd.toNat none) { f with refCount := f.refCount - 1 } =
      some ({ f with refCount := f.refCount - 1 }, s.setSlot task fd.toNat none) := by
    unfold closePipeEnd
    split
    · rfl
    · rw [if_neg]
      rintro ⟨isPipe, few⟩
      simp only at isPipe few
      rcases stays with ⟨_, kind⟩ | more
      · rw [kind] at isPipe
        cases isPipe
      · omega
  have kept : ¬ (f.refCount - 1 ≤ 0 ∧ ptr ≠ .console) := by
    rintro ⟨few, heap⟩
    rcases stays with ⟨same, _⟩ | more
    · exact heap same
    · omega
  simp only [fdClose, here, live, idle, Option.bind_eq_bind, Option.bind_some, kept, ↓reduceIte]

theorem fd_close_last_plain (here : s.slot task fd = some (.heap m))
    (live : s.deref (.heap m) = some f) (last : f.refCount = 1) (plain : f.type ≠ .pipe) :
    fdClose s task fd = some (0, (s.setSlot task fd.toNat none).freeFile (.heap m)) := by
  have idle : closePipeEnd (s.setSlot task fd.toNat none) { f with refCount := f.refCount - 1 } =
      some ({ f with refCount := f.refCount - 1 }, s.setSlot task fd.toNat none) := by
    unfold closePipeEnd
    split
    · rfl
    · rw [if_neg]
      exact fun both => plain both.1
  have gone : f.refCount - 1 ≤ 0 ∧ FilePtr.heap m ≠ .console := ⟨by omega, by simp⟩
  simp only [fdClose, here, live, idle, Option.bind_eq_bind, Option.bind_some]
  rw [if_pos gone]

theorem fd_close_last_end (here : s.slot task fd = some (.heap m))
    (live : s.deref (.heap m) = some f) (last : f.refCount = 1)
    (isEnd : f.shape = endShape q f.flags) (open_ : s.pipes q = some p) :
    fdClose s task fd = some (0, ((s.setSlot task fd.toNat none).dropPipe q
      (p.afterClose f.flags)).freeFile (.heap m)) := by
  simp only [OpenFile.shape, endShape, Shape.mk.injEq, true_and] at isEnd
  have found : (s.setSlot task fd.toNat none).pipes q = some p := open_
  have gone : f.refCount - 1 ≤ 0 ∧ FilePtr.heap m ≠ .console := ⟨by omega, by simp⟩
  by_cases closed : (p.closeEnd f.flags).readOpen = false ∧ (p.closeEnd f.flags).writeOpen = false
  · have step : closePipeEnd (s.setSlot task fd.toNat none) { f with refCount := f.refCount - 1 } =
        some ({ f with refCount := f.refCount - 1, pipe := none },
          (s.setSlot task fd.toNat none).freePipe q) := by
      simp [closePipeEnd, isEnd.1, isEnd.2, last, found, closed]
    have after : p.afterClose f.flags = none := by simp [Pipe.afterClose, closed]
    simp only [fdClose, here, live, step, Option.bind_eq_bind, Option.bind_some]
    rw [if_pos gone, after]
    rfl
  · have step : closePipeEnd (s.setSlot task fd.toNat none) { f with refCount := f.refCount - 1 } =
        some ({ f with refCount := f.refCount - 1 },
          (s.setSlot task fd.toNat none).setPipe q (p.closeEnd f.flags)) := by
      simp [closePipeEnd, isEnd.1, isEnd.2, last, found, closed]
    have after : p.afterClose f.flags = some (p.closeEnd f.flags) := by
      simp only [Pipe.afterClose, closed, ↓reduceIte]
    simp only [fdClose, here, live, step, Option.bind_eq_bind, Option.bind_some]
    rw [if_pos gone, after]
    rfl

/-- What fd_close does to an open descriptor, the files and the pipes. -/
structure Closes (n : Nat) (s t : Files) (task : Nat) (fd : Int) : Prop where
  closed : fdClose s task fd = some (0, t)
  inv : FilesInv n t
  evolves : Evolves task s t
  tables : t.tables = (s.setSlot task fd.toNat none).tables

theorem slot_cleared_tables (s : Files) (task i : Nat) : ∀ u, u ≠ task → (s.setSlot task i none).tables u = s.tables u :=
  fun _ ne => Function.update_of_ne ne _ _

theorem close_shared (inv : FilesInv n s) (here : s.slot task fd = some ptr) (live : s.deref ptr = some f)
    (stays : ptr = .console ∧ f.type = .console ∨ 1 < f.refCount) : ∃ t, Closes n s t task fd := by
  have holds : s.held (task, fd.toNat) = some ptr := (slot_some here).2.2
  have live' : (s.setSlot task fd.toNat none).deref ptr = some f := live
  have shape := shape_set_file (f := { f with refCount := f.refCount - 1 }) live' rfl
  refine ⟨_, fd_close_shared here live stays, ⟨?_, ?_⟩, ?_, tables_set_file⟩
  · have counts := accounted_release inv.accounted holds live (by tauto)
    rw [held_set_file, held_set_slot, deref_set_file live', deref_set_slot]
    cases ptr <;> exact counts
  · rw [shape]
    cases ptr <;> exact inv.ends
  · refine ⟨?_, ?_, ?_, ?_, ?_, ?_⟩
    · intro u ne
      rw [tables_set_file]
      exact slot_cleared_tables s task _ u ne
    · intro k sh found
      rw [shape] at found
      exact Or.inl found
    · intro q p found
      exact Or.inl ⟨p, by cases ptr <;> exact found, rfl⟩
    all_goals cases ptr <;> simp [Files.setFile, Files.setSlot]

section Last
variable {m : Nat}

theorem shape_of_live (live : s.deref (.heap m) = some f) : s.shape m = some f.shape := by
  have found : s.files m = some f := live
  simp [Files.shape, found]

theorem close_last_end (inv : FilesInv n s) (here : s.slot task fd = some (.heap m)) (live : s.deref (.heap m) = some f)
    (last : f.refCount = 1) (plain : f.type = .pipe) : ∃ t, Closes n s t task fd := by
  have holds : s.held (task, fd.toNat) = some (.heap m) := (slot_some here).2.2
  have counts := accounted_release_last inv.accounted holds live last
  have shaped := shape_of_live live
  obtain ⟨q, flags, shape, isEnd, open_⟩ := inv.ends.known m f.shape shaped plain
  obtain ⟨p, found⟩ := Option.isSome_iff_exists.mp open_
  have same : flags = f.flags := (congrArg Shape.flags shape).symm
  subst same
  refine ⟨_, fd_close_last_end here live last shape found, ⟨?_, ?_⟩, ?_, rfl⟩
  · rw [deref_free_file]
    rw [← held_set_slot] at counts
    exact counts
  · rw [shape_free_file]
    exact pipes_close_end inv.ends (shaped.trans (congrArg some shape)) found
  · refine ⟨slot_cleared_tables s task _, ?_, ?_, rfl, Nat.le_refl _, Nat.le_refl _⟩
    · intro k sh left
      rw [shape_free_file] at left
      exact Or.inl (shape_after_close left)
    · intro r p' left
      have now : Function.update s.pipes q (p.afterClose f.flags) r = some p' := left
      refine Or.inl ?_
      by_cases at_ : r = q
      · rw [at_, Function.update_self] at now
        rw [at_]
        exact ⟨p, found, by rw [(after_close_some now).1, ring_close_end]⟩
      · rw [Function.update_of_ne at_] at now
        exact ⟨p', now, rfl⟩

theorem close_last_plain (inv : FilesInv n s) (here : s.slot task fd = some (.heap m)) (live : s.deref (.heap m) = some f)
    (last : f.refCount = 1) (plain : f.type ≠ .pipe) : ∃ t, Closes n s t task fd := by
  have holds : s.held (task, fd.toNat) = some (.heap m) := (slot_some here).2.2
  have counts := accounted_release_last inv.accounted holds live last
  have shaped := shape_of_live live
  refine ⟨_, fd_close_last_plain here live last plain, ⟨?_, ?_⟩, ?_, rfl⟩
  · rw [deref_free_file]
    rw [← held_set_slot] at counts
    exact counts
  · rw [shape_free_file]
    refine pipes_plain_file inv.ends ?_ (by simp)
    intro sh found
    have same : s.shape m = some sh := found
    rw [shaped] at same
    cases same
    exact plain
  · refine ⟨slot_cleared_tables s task _, ?_, ?_, rfl, Nat.le_refl _, Nat.le_refl _⟩
    · intro k sh left
      rw [shape_free_file] at left
      exact Or.inl (shape_after_close left)
    · intro r p' left
      exact Or.inl ⟨p', left, rfl⟩

end Last

theorem fd_close_open (inv : FilesInv n s) (here : s.slot task fd = some ptr) : ∃ t, Closes n s t task fd := by
  have holds : s.held (task, fd.toNat) = some ptr := (slot_some here).2.2
  obtain ⟨f, live⟩ := Option.isSome_iff_exists.mp (inv.accounted.known (task, fd.toNat) ptr holds)
  by_cases stays : ptr = .console ∧ f.type = .console ∨ 1 < f.refCount
  · exact close_shared inv here live stays
  · -- the last reference to a file of the heap
    cases ptr with
    | console =>
      obtain ⟨g, found, kind⟩ := inv.accounted.console
      rw [live] at found
      cases found
      exact absurd (Or.inl ⟨rfl, kind⟩) stays
    | dummy =>
      rw [inv.accounted.dummy] at live
      cases live
    | heap m =>
      have positive := inv.accounted.alive m f live
      have last : f.refCount = 1 := by
        simp only [reduceCtorEq, false_and, false_or] at stays
        omega
      by_cases plain : f.type = .pipe
      · exact close_last_end inv here live last plain
      · exact close_last_plain inv here live last plain

theorem fd_close_inv (inv : FilesInv n s) (task : Nat) (fd : Int) :
    ∃ v t, fdClose s task fd = some (v, t) ∧ FilesInv n t ∧ Evolves task s t := by
  cases here : s.slot task fd with
  | none => exact ⟨-1, s, by simp [fdClose, here], inv, evolves_refl task s⟩
  | some ptr =>
    obtain ⟨t, run, after, frame, _⟩ := fd_close_open inv here
    exact ⟨0, t, run, after, frame⟩

end Close

section Tables
variable {n : Nat} {s : Files}

theorem set_slot_vacant {task i : Nat} (vacant : s.tables task i = none) :
    s.setSlot task i none = s := by
  have row : Function.update (s.tables task) i none = s.tables task :=
    Function.update_eq_self_iff.mpr vacant.symm
  rw [Files.setSlot, row, Function.update_eq_self]

theorem destroy_inv (inv : FilesInv n s) (task i k : Nat) :
    ∃ t, destroyFrom s task i k = some t ∧ FilesInv n t ∧ Evolves task s t := by
  induction k generalizing s i with
  | zero => exact ⟨s, rfl, inv, evolves_refl task s⟩
  | succ k ih =>
    rw [destroyFrom]
    split
    · obtain ⟨v, t, run, after, frame⟩ := fd_close_inv inv task i
      obtain ⟨u, rest, final, later⟩ := ih after (i + 1)
      exact ⟨u, by rw [run]; exact rest, final, evolves_trans frame later⟩
    · exact ih inv (i + 1)

theorem dup_inv (src : Nat) {dst i k : Nat} (inv : FilesInv n s) (fresh : dst < n)
    (inside : i + k ≤ maxFds) (blank : ∀ j, i ≤ j → s.tables dst j = none) :
    ∃ t, dupFrom s dst src i k = some t ∧ FilesInv n t ∧ Evolves dst s t := by
  induction k generalizing s i with
  | zero => exact ⟨s, rfl, inv, evolves_refl dst s⟩
  | succ k ih =>
    rw [dupFrom]
    cases held : s.tables src i with
    | none =>
      simp only [set_slot_vacant (blank i (Nat.le_refl _))]
      exact ih inv (by omega) fun j later => blank j (by omega)
    | some ptr =>
      obtain ⟨f, live⟩ := Option.isSome_iff_exists.mp (inv.accounted.known (src, i) ptr held)
      obtain ⟨t, run, after, frame, tables⟩ :=
        add_ref_inv _ inv fresh (i := i) (by omega) (blank i (Nat.le_refl _)) live
      have still : ∀ j, i + 1 ≤ j → t.tables dst j = none := by
        intro j later
        rw [tables, table_set_slot, if_neg (by omega)]
        exact blank j (by omega)
      obtain ⟨u, rest, final, further⟩ := ih after (by omega) still
      exact ⟨u, by simp only [run, Option.bind_some]; exact rest, final, evolves_trans frame further⟩

theorem table_init_adds {task : Nat} (blank : ∀ j, s.tables task j = none) :
    (addRef s task 0 .console).bind (fun t => (addRef t task 1 .console).bind fun u =>
      addRef u task 2 .console) = some (fdTableInit s task) := by
  have row : Function.update (Function.update (Function.update (s.tables task) 0 (some .console))
      1 (some .console)) 2 (some .console) = fun i => if i < 3 then some .console else none := by
    funext i
    simp only [Function.update_apply, blank]
    split
    · simp_all
    · split
      · simp_all
      · split
        · simp_all
        · rw [if_neg (by omega)]
  have sum : s.console.refCount + 1 + 1 + 1 = s.console.refCount + 3 := by omega
  simp [addRef, Files.deref, Files.setFile, Files.setSlot, fdTableInit, row, sum]

theorem table_init_inv {task : Nat} (inv : FilesInv n s) (fresh : task < n)
    (blank : ∀ j, s.tables task j = none) :
    FilesInv n (fdTableInit s task) ∧ Evolves task s (fdTableInit s task) := by
  have adds := table_init_adds blank
  obtain ⟨t, first, inv1, frame1, tables1⟩ := add_ref_inv .console inv fresh (i := 0)
    (by decide) (blank 0) rfl
  obtain ⟨u, second, inv2, frame2, tables2⟩ := add_ref_inv .console inv1 fresh (i := 1)
    (by decide) (by rw [tables1, table_set_slot, if_neg (by omega)]; exact blank 1) rfl
  obtain ⟨v, third, inv3, frame3, _⟩ := add_ref_inv .console inv2 fresh (i := 2)
    (by decide) (by
      rw [tables2, table_set_slot, if_neg (by omega), tables1, table_set_slot, if_neg (by omega)]
      exact blank 2) rfl
  rw [first, Option.bind_some, second, Option.bind_some, third, Option.some.injEq] at adds
  rw [← adds]
  exact ⟨inv3, evolves_trans (evolves_trans frame1 frame2) frame3⟩

end Tables

section Create
variable {n task : Nat} {s : Files} {f : OpenFile}

theorem file_shape_none {m : Nat} (inv : FilesInv n s) (later : s.nextFile ≤ m) :
    s.shape m = none := by
  have gone : s.files m = none := inv.accounted.fresh m later
  simp [Files.shape, gone]

theorem alloc_file_inv {i : Nat} (inv : FilesInv n s) (inTasks : task < n) (cell : i < maxFds)
    (vacant : s.tables task i = none) (first : f.refCount = 1)
    (plain : f.type ≠ .pipe ∧ f.type ≠ .console) :
    FilesInv n ((s.allocFile f).setSlot task i (some (.heap s.nextFile))) ∧
      Evolves task s ((s.allocFile f).setSlot task i (some (.heap s.nextFile))) := by
  have unborn := file_shape_none inv (Nat.le_refl _)
  have shape : ((s.allocFile f).setSlot task i (some (.heap s.nextFile))).shape =
      Function.update s.shape s.nextFile (some f.shape) := shape_alloc_file
  refine ⟨⟨?_, ?_⟩, ?_, ?_, ?_, rfl, Nat.le_succ _, Nat.le_refl _⟩
  · simp only [held_set_slot, deref_set_slot, deref_alloc_file]
    exact accounted_alloc (x := (task, i)) inv.accounted (mem_slots_of.mpr ⟨inTasks, cell⟩) vacant first
  · rw [shape]
    refine pipes_plain_file inv.ends (by simp [unborn]) ?_
    intro sh same
    cases same
    exact plain
  · intro u ne
    exact Function.update_of_ne ne _ _
  · intro m sh here
    rw [shape] at here
    by_cases new : m = s.nextFile
    · exact Or.inr new.ge
    · rw [Function.update_of_ne new] at here
      exact Or.inl here
  · intro q p here
    exact Or.inl ⟨p, here, rfl⟩

theorem fd_open_inv (inv : FilesInv n s) (inTasks : task < n) (found : Option FatFile) (flags : Int)
    (alloc : Bool) : FilesInv n (fdOpen s task found flags alloc).2 ∧
      Evolves task s (fdOpen s task found flags alloc).2 := by
  unfold fdOpen
  split
  · exact ⟨inv, evolves_refl task s⟩
  · exact ⟨inv, evolves_refl task s⟩
  · rename_i fd fat free
    obtain ⟨cell, vacant⟩ := find_free_fd_some free
    split
    · exact alloc_file_inv inv inTasks cell vacant rfl ⟨by simp, by simp⟩
    · exact ⟨inv, evolves_refl task s⟩

theorem pipe_unwound_inv (inv : FilesInv n s) (task : Nat) :
    FilesInv n ((s.allocPipe newPipe).freePipe s.nextPipe) ∧
      Evolves task s ((s.allocPipe newPipe).freePipe s.nextPipe) := by
  refine ⟨⟨inv.accounted, pipes_add_free inv.ends⟩, fun _ _ => rfl, fun _ _ here => Or.inl here, ?_,
    rfl, Nat.le_refl _, Nat.le_succ _⟩
  intro q p here
  have now : Function.update (Function.update s.pipes s.nextPipe (some newPipe)) s.nextPipe none q =
    some p := here
  by_cases new : q = s.nextPipe
  · simp [new] at now
  · rw [Function.update_of_ne new, Function.update_of_ne new] at now
    exact Or.inl ⟨p, now, rfl⟩

theorem file_unwound_inv (inv : FilesInv n s) (task : Nat) (f : OpenFile) :
    FilesInv n ((s.allocFile f).freeFile (.heap s.nextFile)) ∧
      Evolves task s ((s.allocFile f).freeFile (.heap s.nextFile)) := by
  have shape : ((s.allocFile f).freeFile (.heap s.nextFile)).shape = s.shape := by
    rw [shape_free_file, shape_alloc_file, Function.update_idem, Function.update_eq_self_iff]
    exact (file_shape_none inv (Nat.le_refl _)).symm
  refine ⟨⟨?_, ?_⟩, fun _ _ => rfl, ?_, fun _ p here => Or.inl ⟨p, here, rfl⟩, rfl, Nat.le_succ _,
    Nat.le_refl _⟩
  · rw [deref_free_file, deref_alloc_file]
    exact accounted_alloc_free inv.accounted
  · rw [shape]
    exact inv.ends
  · intro m sh here
    rw [shape] at here
    exact Or.inl here

theorem pipe_made_inv {rfd wfd : Nat} (inv : FilesInv n s) (inTasks : task < n)
    (read : rfd < maxFds ∧ s.tables task rfd = none)
    (write : wfd < maxFds ∧ s.tables task wfd = none) (ne : rfd ≠ wfd) :
    let both := ((s.allocPipe newPipe).allocFile (pipeEnd s.nextPipe oRdonly)).allocFile
      (pipeEnd s.nextPipe oWronly)
    let made := (both.setSlot task rfd (some (.heap s.nextFile))).setSlot task wfd
      (some (.heap (s.nextFile + 1)))
    FilesInv n made ∧ Evolves task s made := by
  intro both made
  have shape : made.shape = Function.update (Function.update s.shape s.nextFile
      (some (endShape s.nextPipe oRdonly))) (s.nextFile + 1) (some (endShape s.nextPipe oWronly)) := by
    have outer : made.shape = Function.update ((s.allocPipe newPipe).allocFile
        (pipeEnd s.nextPipe oRdonly)).shape (s.nextFile + 1)
        (some (pipeEnd s.nextPipe oWronly).shape) := shape_alloc_file
    rw [outer, shape_alloc_file]
    rfl
  have nextFile : made.nextFile = s.nextFile + 1 + 1 := rfl
  refine ⟨⟨?_, ?_⟩, ?_, ?_, ?_, rfl, by omega, Nat.le_succ _⟩
  · have first := accounted_alloc (x := (task, rfd)) (f := pipeEnd s.nextPipe oRdonly) inv.accounted
      (mem_slots_of.mpr ⟨inTasks, read.1⟩) read.2 rfl
    have second := accounted_alloc (x := (task, wfd)) (f := pipeEnd s.nextPipe oWronly) first
      (mem_slots_of.mpr ⟨inTasks, write.1⟩)
      (by rw [Function.update_of_ne (by simp [ne.symm])]; exact write.2) rfl
    have held : made.held = Function.update (Function.update s.held (task, rfd)
        (some (.heap s.nextFile))) (task, wfd) (some (.heap (s.nextFile + 1))) := by
      simp only [made, held_set_slot]
      rfl
    have deref : made.deref = Function.update (Function.update s.deref (.heap s.nextFile)
        (some (pipeEnd s.nextPipe oRdonly))) (.heap (s.nextFile + 1))
        (some (pipeEnd s.nextPipe oWronly)) := by
      simp only [made, both, deref_set_slot, deref_alloc_file]
      rfl
    rw [held, deref]
    exact second
  · rw [shape]
    exact pipes_add_pair inv.ends (by omega) (file_shape_none inv (Nat.le_refl _))
      (file_shape_none inv (Nat.le_succ _))
  · intro u other
    have outer : made.tables u = (both.setSlot task rfd (some (.heap s.nextFile))).tables u :=
      Function.update_of_ne other _ _
    rw [outer]
    exact Function.update_of_ne other _ _
  · intro m sh here
    by_cases new : s.nextFile ≤ m
    · exact Or.inr new
    · rw [shape, Function.update_of_ne (by omega), Function.update_of_ne (by omega)] at here
      exact Or.inl here
  · intro q p here
    have now : Function.update s.pipes s.nextPipe (some newPipe) q = some p := here
    by_cases new : q = s.nextPipe
    · rw [new, Function.update_self] at now
      cases now
      exact Or.inr ⟨new.ge, rfl⟩
    · rw [Function.update_of_ne new] at now
      exact Or.inl ⟨p, now, rfl⟩

theorem fd_pipe_inv (inv : FilesInv n s) (inTasks : task < n) (a b c : Bool) :
    FilesInv n (fdPipe s task a b c).2 ∧ Evolves task s (fdPipe s task a b c).2 := by
  unfold fdPipe
  split
  · exact ⟨inv, evolves_refl task s⟩
  · rename_i rfd freeRead
    split
    · exact ⟨inv, evolves_refl task s⟩
    · rename_i wfd freeWrite
      have read := find_free_fd_some freeRead
      have second := find_free_fd_some freeWrite
      have ne : rfd ≠ wfd := by
        rintro rfl
        simp at second
      have write : wfd < maxFds ∧ s.tables task wfd = none := by
        rw [Function.update_of_ne ne.symm] at second
        exact second
      simp only
      split
      · exact ⟨inv, evolves_refl task s⟩
      · split
        · exact pipe_unwound_inv inv task
        · split
          · obtain ⟨inv', frame⟩ := pipe_unwound_inv inv task
            obtain ⟨inv'', frame'⟩ := file_unwound_inv inv' task (pipeEnd s.nextPipe oRdonly)
            exact ⟨inv'', evolves_trans frame frame'⟩
          · exact pipe_made_inv inv inTasks read write ne

/-- With oldfd = newfd the file may be gone when its count is raised. -/
theorem fd_dup2_open {oldfd newfd : Int} {ptr : FilePtr} (inv : FilesInv n s) (inTasks : task < n)
    (ne : oldfd ≠ newfd) (from_ : s.slot task oldfd = some ptr) (low : 0 ≤ newfd) (high : newfd < 16) :
    ∃ t, fdDup2 s task oldfd newfd = some (newfd, t) ∧ FilesInv n t ∧ Evolves task s t ∧
      t.tables = (s.setSlot task newfd.toNat (some ptr)).tables := by
  obtain ⟨above, below, source⟩ := slot_some from_
  have apart : oldfd.toNat ≠ newfd.toNat := by omega
  -- the state once newfd has been closed if it was open
  have closed : ∃ t, closeIfOpen s task newfd = some t ∧ FilesInv n t ∧ Evolves task s t ∧
      t.tables = (s.setSlot task newfd.toNat none).tables := by
    unfold closeIfOpen
    cases target : s.tables task newfd.toNat with
    | none =>
      have same : s.setSlot task newfd.toNat none = s := set_slot_vacant target
      exact ⟨s, by simp, inv, evolves_refl task s, by rw [same]⟩
    | some old =>
      have here : s.slot task newfd = some old := by
        rw [Files.slot, if_neg (by simp only [maxFds]; omega), target]
      obtain ⟨t, run, after, frame, tables⟩ := fd_close_open inv here
      exact ⟨t, by simp [run], after, frame, tables⟩
  obtain ⟨t, run, after, frame, tables⟩ := closed
  have vacant : t.tables task newfd.toNat = none := by
    rw [tables, table_set_slot, if_pos ⟨rfl, rfl⟩]
  have still : t.tables task oldfd.toNat = some ptr := by
    rw [tables, table_set_slot, if_neg (by tauto)]
    exact source
  obtain ⟨f, live⟩ := Option.isSome_iff_exists.mp (after.accounted.known (task, _) ptr still)
  obtain ⟨u, raised, final, later, placed⟩ := add_ref_inv _ after inTasks (i := newfd.toNat)
    (by simp only [maxFds]; omega) vacant live
  refine ⟨u, ?_, final, evolves_trans frame later, ?_⟩
  · have inside : ¬ (newfd < 0 ∨ (maxFds : Int) ≤ newfd) := by
      simp only [maxFds]
      omega
    rw [fdDup2, from_]
    simp only [inside, ↓reduceIte, run, Option.bind_eq_bind, Option.bind_some, still, raised]
  · rw [placed]
    funext v i
    rw [table_set_slot, table_set_slot, tables, table_set_slot]
    split <;> rfl

theorem fd_dup2_inv {oldfd newfd : Int} (inv : FilesInv n s) (inTasks : task < n)
    (ne : oldfd ≠ newfd) :
    ∃ v t, fdDup2 s task oldfd newfd = some (v, t) ∧ FilesInv n t ∧ Evolves task s t := by
  cases from_ : s.slot task oldfd with
  | none => exact ⟨-1, s, by rw [fdDup2, from_], inv, evolves_refl task s⟩
  | some ptr =>
    by_cases outside : newfd < 0 ∨ (maxFds : Int) ≤ newfd
    · exact ⟨-1, s, by rw [fdDup2, from_]; exact if_pos outside, inv, evolves_refl task s⟩
    · simp only [maxFds] at outside
      obtain ⟨t, step, after, frame, _⟩ := fd_dup2_open inv inTasks ne from_ (by omega) (by omega)
      exact ⟨newfd, t, step, after, frame⟩

end Create

end Archarch.Descriptors
