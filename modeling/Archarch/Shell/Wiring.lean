import Archarch.Shell.ExecuteLine

/- The descriptor tables of the shell and of its children, round by round. Everything is said of
   the table that the shell had before: the command of a segment finds that table with the two
   standard descriptors replaced. -/
namespace Archarch.Shell
open Descriptors LabelledRuns

def LineFile (ends : Nat → Option Ends) (m : Nat) : Prop :=
  ∃ i e, ends i = some e ∧ (m = e.read ∨ m = e.write)

def Near (ends : Nat → Option Ends) (i m : Nat) : Prop :=
  (∃ e, ends i = some e ∧ (m = e.read ∨ m = e.write)) ∨ ∃ j e, i = j + 1 ∧ ends j = some e ∧ m = e.read

def readPtr (ends : Nat → Option Ends) (i : Nat) : Option FilePtr := (ends i).map fun e => .heap e.read

def writePtr (ends : Nat → Option Ends) (i : Nat) : Option FilePtr := (ends i).map fun e => .heap e.write

section Tables
variable (old : FdTable) (ends : Nat → Option Ends) (n : Nat)

def inPtr : Nat → Option FilePtr
  | 0 => old 0
  | i + 1 => readPtr ends i

def outPtr (i : Nat) : Option FilePtr := if i + 1 < n then writePtr ends i else old 1

def commandTable (i : Nat) : FdTable :=
  Function.update (Function.update old 0 (inPtr old ends i)) 1 (outPtr old ends n i)

def roundTable (i : Nat) : Option Nat → FdTable
  | none => old
  | some fd => Function.update old fd (inPtr old ends i)

def forkTable (i : Nat) (prevReadFd : Option Nat) : Option (Nat × Nat) → FdTable
  | none => roundTable old ends i prevReadFd
  | some (rfd, wfd) => Function.update (Function.update (roundTable old ends i prevReadFd) rfd (readPtr ends i))
    wfd (writePtr ends i)

end Tables

structure PrevFits (old : FdTable) (i : Nat) (prevReadFd : Option Nat) : Prop where
  open_ : prevReadFd = none ↔ i = 0
  free : ∀ fd, prevReadFd = some fd → old fd = none

structure PipeFits (old : FdTable) (n i : Nat) (prevReadFd : Option Nat) (pipefd : Option (Nat × Nat)) : Prop where
  open_ : pipefd = none ↔ ¬ i + 1 < n
  free : ∀ rfd wfd, pipefd = some (rfd, wfd) → rfd ≠ wfd ∧ old rfd = none ∧ old wfd = none ∧
    prevReadFd ≠ some rfd ∧ prevReadFd ≠ some wfd

def FdOp.apply (table : FdTable) : FdOp → FdTable
  | .dup2 oldfd newfd => Function.update table newfd (table oldfd)
  | .close fd => Function.update table fd none

def FdOp.ready (table : FdTable) : FdOp → Prop
  | .dup2 oldfd newfd => (table oldfd).isSome ∧ oldfd ≠ newfd ∧ newfd < maxFds
  | .close _ => True

def Leads (final : FdTable) : List FdOp → FdTable → Prop
  | [], table => table = final
  | op :: rest, table => op.ready table ∧ Leads final rest (op.apply table)

def Carries (ends : Nat → Option Ends) (i : Nat) (table : FdTable) : Prop :=
  ∀ fd m, table fd = some (.heap m) → LineFile ends m → Near ends i m

section Leading
variable {old table : FdTable} {ends : Nat → Option Ends} {n i : Nat} {prevReadFd : Option Nat}
variable {pipefd : Option (Nat × Nat)}

@[simp] theorem in_ptr_succ (old : FdTable) (ends : Nat → Option Ends) (i : Nat) :
    inPtr old ends (i + 1) = readPtr ends i := rfl

theorem child_ops_lead (stdin : old 0 = some .console) (stdout : old 1 = some .console)
    (prev : PrevFits old i prevReadFd) (pipe : PipeFits old n i prevReadFd pipefd)
    (input : (inPtr old ends i).isSome) (output : i + 1 < n → (writePtr ends i).isSome) :
    Leads (commandTable old ends n i) (childOps prevReadFd pipefd) (forkTable old ends i prevReadFd pipefd) := by
  cases prevReadFd with
  | none =>
    have first : i = 0 := prev.open_.mp rfl
    cases pipefd with
    | none =>
      have last := pipe.open_.mp rfl
      subst first
      funext x
      simp only [commandTable, forkTable, roundTable, inPtr, outPtr, Function.update_apply]
      grind
    | some fds =>
      obtain ⟨rfd, wfd⟩ := fds
      obtain ⟨apart, noRead, noWrite, _, _⟩ := pipe.free rfd wfd rfl
      have more : i + 1 < n := by
        by_contra last
        exact absurd (pipe.open_.mpr last) (by simp)
      have alive := output more
      subst first
      simp only [childOps, List.nil_append, Leads, FdOp.ready, FdOp.apply, forkTable, roundTable]
      refine ⟨⟨?_, ?_, by decide⟩, trivial, trivial, ?_⟩
      · grind [Function.update_apply]
      · grind
      · funext x
        simp only [commandTable, inPtr, outPtr, Function.update_apply]
        grind
  | some prevfd =>
    have later : i ≠ 0 := fun first => absurd (prev.open_.mpr first) (by simp)
    have noPrev := prev.free prevfd rfl
    cases pipefd with
    | none =>
      have last := pipe.open_.mp rfl
      simp only [childOps, List.append_nil, Leads, FdOp.ready, FdOp.apply, forkTable, roundTable]
      refine ⟨⟨?_, ?_, by decide⟩, trivial, ?_⟩
      · grind [Function.update_apply]
      · grind
      · funext x
        simp only [commandTable, outPtr, Function.update_apply]
        grind
    | some fds =>
      obtain ⟨rfd, wfd⟩ := fds
      obtain ⟨apart, noRead, noWrite, prevRead, prevWrite⟩ := pipe.free rfd wfd rfl
      have more : i + 1 < n := by
        by_contra last
        exact absurd (pipe.open_.mpr last) (by simp)
      have alive := output more
      simp only [childOps, List.cons_append, List.nil_append, Leads, FdOp.ready, FdOp.apply, forkTable, roundTable]
      refine ⟨⟨?_, ?_, by decide⟩, trivial, ⟨?_, ?_, by decide⟩, trivial, trivial, ?_⟩
      · grind [Function.update_apply]
      · grind
      · grind [Function.update_apply]
      · grind
      · funext x
        simp only [commandTable, outPtr, Function.update_apply]
        grind

theorem parent_ops_lead (prev : PrevFits old i prevReadFd) (pipe : PipeFits old n i prevReadFd pipefd) :
    Leads (roundTable old ends (i + 1) (pipefd.map Prod.fst)) (parentOps prevReadFd pipefd)
      (forkTable old ends i prevReadFd pipefd) := by
  cases prevReadFd with
  | none =>
    cases pipefd with
    | none => rfl
    | some fds =>
      obtain ⟨rfd, wfd⟩ := fds
      obtain ⟨apart, noRead, noWrite, _, _⟩ := pipe.free rfd wfd rfl
      refine ⟨trivial, ?_⟩
      funext x
      simp only [FdOp.apply, forkTable, roundTable, in_ptr_succ, Option.map_some, Function.update_apply]
      grind
  | some prevfd =>
    have noPrev := prev.free prevfd rfl
    cases pipefd with
    | none =>
      refine ⟨trivial, ?_⟩
      funext x
      simp only [FdOp.apply, forkTable, roundTable, Option.map_none, Function.update_apply]
      grind
    | some fds =>
      obtain ⟨rfd, wfd⟩ := fds
      obtain ⟨apart, noRead, noWrite, prevRead, prevWrite⟩ := pipe.free rfd wfd rfl
      refine ⟨trivial, trivial, ?_⟩
      funext x
      simp only [FdOp.apply, forkTable, roundTable, in_ptr_succ, Option.map_some, Function.update_apply]
      grind

theorem carries_apply (op : FdOp) (carries : Carries ends i table) : Carries ends i (op.apply table) := by
  intro fd m holds
  cases op with
  | dup2 oldfd newfd =>
    rw [FdOp.apply, Function.update_apply] at holds
    split at holds
    · exact carries oldfd m holds
    · exact carries fd m holds
  | close closed =>
    rw [FdOp.apply, Function.update_apply] at holds
    split at holds
    · cases holds
    · exact carries fd m holds

theorem round_carries (plain : ∀ fd m, old fd = some (.heap m) → ¬ LineFile ends m)
    (prev : PrevFits old i prevReadFd) : Carries ends i (roundTable old ends i prevReadFd) := by
  intro fd m holds line
  cases prevReadFd with
  | none => exact absurd line (plain fd m holds)
  | some prevfd =>
    have later : i ≠ 0 := fun first => absurd (prev.open_.mpr first) (by simp)
    rw [roundTable, Function.update_apply] at holds
    split at holds
    · obtain ⟨j, rfl⟩ := Nat.exists_eq_succ_of_ne_zero later
      obtain ⟨e, found, same⟩ := Option.map_eq_some_iff.mp (show readPtr ends j = some (.heap m) from holds)
      cases same
      exact Or.inr ⟨j, e, rfl, found, rfl⟩
    · exact absurd line (plain fd m holds)

theorem fork_carries (plain : ∀ fd m, old fd = some (.heap m) → ¬ LineFile ends m)
    (prev : PrevFits old i prevReadFd) : Carries ends i (forkTable old ends i prevReadFd pipefd) := by
  cases pipefd with
  | none => exact round_carries plain prev
  | some fds =>
    intro fd m holds line
    rw [forkTable, Function.update_apply] at holds
    split at holds
    · obtain ⟨e, found, same⟩ := Option.map_eq_some_iff.mp holds
      cases same
      exact Or.inl ⟨e, found, Or.inr rfl⟩
    · rw [Function.update_apply] at holds
      split at holds
      · obtain ⟨e, found, same⟩ := Option.map_eq_some_iff.mp holds
        cases same
        exact Or.inl ⟨e, found, Or.inl rfl⟩
      · exact round_carries plain prev fd m holds line

end Leading
end Archarch.Shell
