import Mathlib.Data.Finset.Prod
import Archarch.Foundations.Holders
import Archarch.Files.PipeEnds

/- What each operation of fd.c does to the reference counts and to the ends of the
   pipes. An operation that returns keeps every count equal to the number of slots
   that refer to the file. -/
namespace Archarch.Descriptors
open HeldReferences

def Files.held (s : Files) (x : Nat × Nat) : Option FilePtr := s.tables x.1 x.2

def slotsOf (n : Nat) : Finset (Nat × Nat) := Finset.range n ×ˢ Finset.range maxFds

theorem mem_slots_of {n t i : Nat} : (t, i) ∈ slotsOf n ↔ t < n ∧ i < maxFds := by
  simp [slotsOf]

structure Accounted (n : Nat) (held : Nat × Nat → Option FilePtr) (deref : FilePtr → Option OpenFile)
    (next : Nat) (freed : List Nat) : Prop where
  blank : ∀ x, held x ≠ none → x ∈ slotsOf n
  known : ∀ x ptr, held x = some ptr → (deref ptr).isSome
  counted : ∀ ptr f, deref ptr = some f → f.refCount = (holders (slotsOf n) held ptr).card
  alive : ∀ m f, deref (.heap m) = some f → 0 < f.refCount
  fresh : ∀ m, next ≤ m → deref (.heap m) = none
  once : freed.Nodup
  freed : ∀ m, m ∈ freed ↔ m < next ∧ deref (.heap m) = none
  console : ∃ f, deref .console = some f ∧ f.type = .console
  dummy : deref .dummy = none

structure FilesInv (n : Nat) (s : Files) : Prop where
  accounted : Accounted n s.held s.deref s.nextFile s.freedFiles
  ends : PipesKept s.shape s.pipes s.nextPipe s.freedPipes

/-- The part of a pipe that only fd_read and fd_write change. -/
def Pipe.ring (p : Pipe) : (Nat → Byte) × Nat × Nat × Nat := (p.buf, p.readPos, p.writePos, p.count)

structure Evolves (task : Nat) (s t : Files) : Prop where
  tables : ∀ u, u ≠ task → t.tables u = s.tables u
  files : ∀ n sh, t.shape n = some sh → s.shape n = some sh ∨ s.nextFile ≤ n
  pipes : ∀ q p, t.pipes q = some p → (∃ old, s.pipes q = some old ∧ p.ring = old.ring) ∨
    (s.nextPipe ≤ q ∧ p.ring = newPipe.ring)
  tasks : t.numTasks = s.numTasks
  nextFile : s.nextFile ≤ t.nextFile
  nextPipe : s.nextPipe ≤ t.nextPipe

theorem evolves_refl (task : Nat) (s : Files) : Evolves task s s :=
  ⟨fun _ _ => rfl, fun _ _ here => Or.inl here, fun _ p here => Or.inl ⟨p, here, rfl⟩, rfl,
    Nat.le_refl _, Nat.le_refl _⟩

theorem evolves_trans {task : Nat} {s t u : Files} (first : Evolves task s t)
    (second : Evolves task t u) : Evolves task s u := by
  refine ⟨?_, ?_, ?_, second.tasks.trans first.tasks, first.nextFile.trans second.nextFile,
    first.nextPipe.trans second.nextPipe⟩
  · intro v ne
    rw [second.tables v ne, first.tables v ne]
  · intro n sh here
    rcases second.files n sh here with old | new
    · exact first.files n sh old
    · exact Or.inr (first.nextFile.trans new)
  · intro q p here
    rcases second.pipes q p here with ⟨mid, old, same⟩ | ⟨new, same⟩
    · rcases first.pipes q mid old with ⟨oldest, found, same'⟩ | ⟨new, same'⟩
      · exact Or.inl ⟨oldest, found, same.trans same'⟩
      · exact Or.inr ⟨new, same.trans same'⟩
    · exact Or.inr ⟨first.nextPipe.trans new, same⟩

section Access
variable {s : Files} {ptr other : FilePtr} {f g : OpenFile} {task fd n : Nat}

@[simp] theorem held_set_slot (v : Option FilePtr) :
    (s.setSlot task fd v).held = Function.update s.held (task, fd) v := by
  funext x
  obtain ⟨t, i⟩ := x
  simp only [Files.held, Files.setSlot, Function.update_apply, Prod.mk.injEq]
  by_cases same : t = task
  · by_cases cell : i = fd
    · simp [same, cell]
    · simp [same, cell]
  · simp [same]

theorem table_set_slot (v : Option FilePtr) (t i : Nat) :
    (s.setSlot task fd v).tables t i = if t = task ∧ i = fd then v else s.tables t i := by
  have cell := congrFun (show (s.setSlot task fd v).held = _ from held_set_slot v) (t, i)
  simpa only [Files.held, Function.update_apply, Prod.mk.injEq] using cell

@[simp] theorem deref_set_slot (v : Option FilePtr) : (s.setSlot task fd v).deref = s.deref := rfl

@[simp] theorem held_set_file : (s.setFile ptr f).held = s.held := by
  cases ptr <;> rfl

@[simp] theorem tables_set_file : (s.setFile ptr f).tables = s.tables := by
  cases ptr <;> rfl

theorem deref_set_file (live : s.deref ptr = some g) :
    (s.setFile ptr f).deref = Function.update s.deref ptr (some f) := by
  funext other
  cases ptr with
  | console => cases other <;> simp [Files.setFile, Files.deref]
  | heap n => cases other <;> simp [Files.setFile, Files.deref, Function.update_apply]
  | dummy => cases live

@[simp] theorem deref_free_file :
    (s.freeFile (.heap n)).deref = Function.update s.deref (.heap n) none := by
  funext other
  cases other <;> simp [Files.freeFile, Files.deref, Function.update_apply]

@[simp] theorem deref_alloc_file :
    (s.allocFile f).deref = Function.update s.deref (.heap s.nextFile) (some f) := by
  funext other
  cases other <;> simp [Files.allocFile, Files.deref, Function.update_apply]

theorem shape_set_file (live : s.deref ptr = some g) (same : f.shape = g.shape) :
    (s.setFile ptr f).shape = s.shape := by
  cases ptr with
  | console => rfl
  | heap n =>
    funext m
    by_cases at_ : m = n
    · subst at_
      have found : s.files m = some g := live
      simp [Files.shape, Files.setFile, found, same]
    · simp [Files.shape, Files.setFile, Function.update_of_ne at_]
  | dummy => rfl

@[simp] theorem shape_free_file :
    (s.freeFile (.heap n)).shape = Function.update s.shape n none := by
  funext m
  by_cases at_ : m = n
  · simp [Files.shape, Files.freeFile, at_]
  · simp [Files.shape, Files.freeFile, at_]

@[simp] theorem shape_alloc_file :
    (s.allocFile f).shape = Function.update s.shape s.nextFile (some f.shape) := by
  funext m
  by_cases at_ : m = s.nextFile
  · simp [Files.shape, Files.allocFile, at_]
  · simp [Files.shape, Files.allocFile, at_]

end Access

section Counts
variable {n m next : Nat} {held : Nat × Nat → Option FilePtr} {deref : FilePtr → Option OpenFile}
variable {freed : List Nat} {x : Nat × Nat} {ptr : FilePtr} {f g : OpenFile}

theorem accounted_more (more : n ≤ m) (inv : Accounted n held deref next freed) :
    Accounted m held deref next freed := by
  have wider : slotsOf n ⊆ slotsOf m := by
    intro x hx
    rw [mem_slots_of] at hx ⊢
    exact ⟨by omega, hx.2⟩
  refine ⟨fun x full => wider (inv.blank x full), inv.known, ?_, inv.alive, inv.fresh, inv.once,
    inv.freed, inv.console, inv.dummy⟩
  intro ptr f live
  rw [holders_more wider]
  · exact inv.counted ptr f live
  · intro x _ out
    by_contra full
    exact out (inv.blank x full)

theorem accounted_recount {v : Option FilePtr} {c : Int} (inv : Accounted n held deref next freed)
    (cell : x ∈ slotsOf n) (live : deref ptr = some f) (known : ∀ p, v = some p → p = ptr)
    (count : c = (holders (slotsOf n) (Function.update held x v) ptr).card)
    (others : ∀ p, p ≠ ptr → holders (slotsOf n) (Function.update held x v) p = holders (slotsOf n) held p)
    (alive : ptr = .console ∨ 0 < c) :
    Accounted n (Function.update held x v) (Function.update deref ptr (some { f with refCount := c })) next freed := by
  have nonempty : ∀ p, Function.update deref ptr (some { f with refCount := c }) p = none ↔ deref p = none := by
    intro p
    by_cases same : p = ptr
    · simp [same, live]
    · simp [same]
  refine ⟨?_, ?_, ?_, ?_, ?_, inv.once, ?_, ?_, ?_⟩
  · intro y full
    by_cases same : y = x
    · rw [same]
      exact cell
    · rw [Function.update_of_ne same] at full
      exact inv.blank y full
  · intro y p holds
    by_cases same : y = x
    · rw [same, Function.update_self] at holds
      rw [known p holds, Function.update_self]
      rfl
    · rw [Function.update_of_ne same] at holds
      have before := inv.known y p holds
      rw [Option.isSome_iff_ne_none] at before ⊢
      exact fun gone => before ((nonempty p).mp gone)
  · intro p g found
    by_cases same : p = ptr
    · subst same
      rw [Function.update_self] at found
      cases found
      exact count
    · rw [Function.update_of_ne same] at found
      rw [others p same]
      exact inv.counted p g found
  · intro k g found
    by_cases same : FilePtr.heap k = ptr
    · subst same
      rw [Function.update_self] at found
      cases found
      rcases alive with clash | some_
      · cases clash
      · exact some_
    · rw [Function.update_of_ne same] at found
      exact inv.alive k g found
  · intro k later
    exact (nonempty _).mpr (inv.fresh k later)
  · intro k
    rw [nonempty]
    exact inv.freed k
  · obtain ⟨g, found, kind⟩ := inv.console
    by_cases same : FilePtr.console = ptr
    · subst same
      rw [found] at live
      cases live
      exact ⟨_, Function.update_self .., kind⟩
    · exact ⟨g, by rw [Function.update_of_ne same]; exact found, kind⟩
  · exact (nonempty _).mpr inv.dummy

theorem accounted_acquire (inv : Accounted n held deref next freed) (cell : x ∈ slotsOf n)
    (vacant : held x = none) (live : deref ptr = some f) :
    Accounted n (Function.update held x (some ptr))
      (Function.update deref ptr (some { f with refCount := f.refCount + 1 })) next freed := by
  apply accounted_recount inv cell live
  · rintro p ⟨⟩
    rfl
  · have before := inv.counted ptr f live
    rw [holders_card_acquire cell vacant]
    omega
  · intro p other
    exact holders_acquire_other vacant (Ne.symm other)
  · have before := inv.counted ptr f live
    exact Or.inr (by omega)

theorem accounted_release (inv : Accounted n held deref next freed) (holds : held x = some ptr)
    (live : deref ptr = some f) (stays : ptr = .console ∨ 1 < f.refCount) :
    Accounted n (Function.update held x none)
      (Function.update deref ptr (some { f with refCount := f.refCount - 1 })) next freed := by
  have cell := inv.blank x (by simp [holds])
  apply accounted_recount inv cell live
  · intro p none_
    cases none_
  · have before := inv.counted ptr f live
    rw [holders_card_release cell holds] at before
    omega
  · intro p other
    exact holders_release_other (by rw [holds]; simpa using Ne.symm other)
  · rcases stays with console | more
    · exact Or.inl console
    · exact Or.inr (by omega)

theorem accounted_release_last (inv : Accounted n held deref next freed)
    (holds : held x = some (.heap m)) (live : deref (.heap m) = some f) (last : f.refCount = 1) :
    Accounted n (Function.update held x none) (Function.update deref (.heap m) none) next
      (m :: freed) := by
  have cell := inv.blank x (by simp [holds])
  have old : m < next := by
    by_contra high
    rw [inv.fresh m (by omega)] at live
    cases live
  have alone : ∀ y, y ≠ x → held y ≠ some (.heap m) := by
    intro y ne also
    have count := inv.counted _ f live
    rw [last, holders_card_release cell holds] at count
    have member : y ∈ holders (slotsOf n) (Function.update held x none) (.heap m) :=
      mem_holders.mpr ⟨inv.blank y (by simp [also]), by rw [Function.update_of_ne ne]; exact also⟩
    have positive := Finset.card_pos.mpr ⟨y, member⟩
    omega
  refine ⟨?_, ?_, ?_, ?_, ?_, ?_, ?_, ?_, ?_⟩
  · intro y full
    by_cases same : y = x
    · simp [same] at full
    · rw [Function.update_of_ne same] at full
      exact inv.blank y full
  · intro y p left
    by_cases same : y = x
    · simp [same] at left
    · rw [Function.update_of_ne same] at left
      have other : p ≠ .heap m := by
        rintro rfl
        exact alone y same left
      rw [Function.update_of_ne other]
      exact inv.known y p left
  · intro p g found
    by_cases same : p = .heap m
    · rw [same, Function.update_self] at found
      cases found
    · rw [Function.update_of_ne same] at found
      rw [holders_release_other (by rw [holds]; simpa using Ne.symm same)]
      exact inv.counted p g found
  · intro k g found
    by_cases same : FilePtr.heap k = .heap m
    · rw [same, Function.update_self] at found
      cases found
    · rw [Function.update_of_ne same] at found
      exact inv.alive k g found
  · intro k later
    rw [Function.update_of_ne (by simp only [ne_eq, FilePtr.heap.injEq]; omega)]
    exact inv.fresh k later
  · refine List.nodup_cons.mpr ⟨?_, inv.once⟩
    intro already
    rw [((inv.freed m).mp already).2] at live
    cases live
  · intro k
    rw [List.mem_cons, inv.freed]
    by_cases same : k = m
    · simp [same, old]
    · rw [Function.update_of_ne (by simpa using same)]
      simp [same]
  · obtain ⟨g, found, kind⟩ := inv.console
    exact ⟨g, by rw [Function.update_of_ne (by simp)]; exact found, kind⟩
  · rw [Function.update_of_ne (by simp)]
    exact inv.dummy

theorem accounted_alloc (inv : Accounted n held deref next freed) (cell : x ∈ slotsOf n)
    (vacant : held x = none) (first : f.refCount = 1) :
    Accounted n (Function.update held x (some (.heap next)))
      (Function.update deref (.heap next) (some f)) (next + 1) freed := by
  have unheld : ∀ y, held y ≠ some (.heap next) := by
    intro y holds
    have live := inv.known y _ holds
    rw [inv.fresh next (Nat.le_refl _)] at live
    cases live
  refine ⟨?_, ?_, ?_, ?_, ?_, inv.once, ?_, ?_, ?_⟩
  · intro y full
    by_cases same : y = x
    · rw [same]
      exact cell
    · rw [Function.update_of_ne same] at full
      exact inv.blank y full
  · intro y p holds
    by_cases same : y = x
    · rw [same, Function.update_self] at holds
      cases holds
      simp
    · rw [Function.update_of_ne same] at holds
      have other : p ≠ .heap next := by
        rintro rfl
        exact unheld y holds
      rw [Function.update_of_ne other]
      exact inv.known y p holds
  · intro p g found
    by_cases same : p = .heap next
    · subst same
      rw [Function.update_self] at found
      cases found
      have none_ : holders (slotsOf n) held (.heap next) = ∅ := by
        refine Finset.eq_empty_of_forall_notMem ?_
        intro y member
        exact unheld y (mem_holders.mp member).2
      rw [holders_card_acquire cell vacant, none_, first]
      rfl
    · rw [Function.update_of_ne same] at found
      rw [holders_acquire_other vacant (Ne.symm same)]
      exact inv.counted p g found
  · intro k g found
    by_cases same : FilePtr.heap k = .heap next
    · rw [same, Function.update_self] at found
      cases found
      omega
    · rw [Function.update_of_ne same] at found
      exact inv.alive k g found
  · intro k later
    rw [Function.update_of_ne (by simp only [ne_eq, FilePtr.heap.injEq]; omega)]
    exact inv.fresh k (by omega)
  · intro k
    rw [inv.freed]
    by_cases same : k = next
    · simp [same]
    · rw [Function.update_of_ne (by simpa using same), Nat.lt_succ_iff_lt_or_eq]
      simp [same]
  · obtain ⟨g, found, kind⟩ := inv.console
    exact ⟨g, by rw [Function.update_of_ne (by simp)]; exact found, kind⟩
  · rw [Function.update_of_ne (by simp)]
    exact inv.dummy

theorem accounted_alloc_free (inv : Accounted n held deref next freed) :
    Accounted n held (Function.update (Function.update deref (.heap next) (some f)) (.heap next) none)
      (next + 1) (next :: freed) := by
  have blank : Function.update (Function.update deref (.heap next) (some f)) (.heap next) none =
      deref := by
    rw [Function.update_idem, Function.update_eq_self_iff]
    exact (inv.fresh next (Nat.le_refl _)).symm
  rw [blank]
  refine ⟨inv.blank, inv.known, inv.counted, inv.alive, ?_, ?_, ?_, inv.console, inv.dummy⟩
  · intro k later
    exact inv.fresh k (by omega)
  · refine List.nodup_cons.mpr ⟨?_, inv.once⟩
    intro already
    have := ((inv.freed next).mp already).1
    omega
  · intro k
    rw [List.mem_cons, inv.freed]
    by_cases same : k = next
    · simp [same, inv.fresh]
    · rw [Nat.lt_succ_iff_lt_or_eq]
      simp [same]

end Counts

end Archarch.Descriptors
