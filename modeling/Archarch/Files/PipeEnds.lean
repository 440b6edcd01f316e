import Archarch.Files.Descriptors

/- The two ends of each pipe: which open files are ends, and what a pipe records
   about them. Reference counts and descriptor tables play no part here. -/
namespace Archarch.Descriptors

structure Shape where
  type : FileType
  flags : Int
  pipe : Option Nat
  deriving DecidableEq

def OpenFile.shape (f : OpenFile) : Shape := ⟨f.type, f.flags, f.pipe⟩

def Files.shape (s : Files) (n : Nat) : Option Shape := (s.files n).map OpenFile.shape

abbrev endShape (q : Nat) (flags : Int) : Shape := ⟨.pipe, flags, some q⟩

def IsEnd (flags : Int) : Prop := flags = oRdonly ∨ flags = oWronly

def Pipe.isOpen (p : Pipe) (flags : Int) : Bool := if flags = oRdonly then p.readOpen else p.writeOpen

/-- Each pipe has at most one file for each end, its open flags say which of them
   there are, and it is freed when there is none. -/
structure PipesKept (shape : Nat → Option Shape) (pipes : Nat → Option Pipe) (next : Nat)
    (freed : List Nat) : Prop where
  heap : ∀ n sh, shape n = some sh → sh.type ≠ .console
  known : ∀ n sh, shape n = some sh → sh.type = .pipe →
    ∃ q flags, sh = endShape q flags ∧ IsEnd flags ∧ (pipes q).isSome
  one : ∀ n m q flags, shape n = some (endShape q flags) → shape m = some (endShape q flags) → n = m
  ends : ∀ q p flags, pipes q = some p → IsEnd flags →
    (p.isOpen flags = true ↔ ∃ n, shape n = some (endShape q flags))
  open_ : ∀ q p, pipes q = some p → ∃ flags, IsEnd flags ∧ p.isOpen flags = true
  fresh : ∀ q, next ≤ q → pipes q = none
  once : freed.Nodup
  freed : ∀ q, q ∈ freed ↔ q < next ∧ pipes q = none

def Pipe.afterClose (p : Pipe) (flags : Int) : Option Pipe :=
  if (p.closeEnd flags).readOpen = false ∧ (p.closeEnd flags).writeOpen = false then none
  else some (p.closeEnd flags)

theorem end_shape_inj {q r : Nat} {fl gl : Int} :
    endShape q fl = endShape r gl ↔ fl = gl ∧ q = r := by
  simp [endShape]

theorem close_end_open {p : Pipe} {fl gl : Int} (first : IsEnd fl) (second : IsEnd gl) :
    (p.closeEnd fl).isOpen gl = true ↔ p.isOpen gl = true ∧ gl ≠ fl := by
  rcases first with rfl | rfl <;> rcases second with rfl | rfl <;>
    simp [Pipe.closeEnd, Pipe.isOpen, oRdonly, oWronly]

theorem after_close_some {p r : Pipe} {fl : Int} (after : p.afterClose fl = some r) :
    r = p.closeEnd fl ∧ ∃ gl, IsEnd gl ∧ r.isOpen gl = true := by
  unfold Pipe.afterClose at after
  split at after
  · cases after
  · rename_i alive
    cases after
    refine ⟨rfl, ?_⟩
    by_cases reading : (p.closeEnd fl).readOpen = true
    · exact ⟨oRdonly, Or.inl rfl, by simpa [Pipe.isOpen] using reading⟩
    · refine ⟨oWronly, Or.inr rfl, ?_⟩
      simp only [Bool.not_eq_true] at reading
      simpa [Pipe.isOpen, oRdonly, oWronly, reading] using alive

theorem after_close_none {p : Pipe} {fl gl : Int} (after : p.afterClose fl = none) :
    (p.closeEnd fl).isOpen gl = false := by
  unfold Pipe.afterClose at after
  split at after
  · rename_i closed
    unfold Pipe.isOpen
    split
    · exact closed.1
    · exact closed.2
  · cases after

section Ends
variable {shape : Nat → Option Shape} {pipes : Nat → Option Pipe} {next : Nat} {freed : List Nat}

theorem end_pipe_live (kept : PipesKept shape pipes next freed) {n q : Nat} {flags : Int}
    (here : shape n = some (endShape q flags)) : IsEnd flags ∧ ∃ p, pipes q = some p := by
  obtain ⟨r, fl, same, isEnd, live⟩ := kept.known n _ here rfl
  obtain ⟨rfl, rfl⟩ := end_shape_inj.mp same
  exact ⟨isEnd, Option.isSome_iff_exists.mp live⟩

theorem live_pipe_old (kept : PipesKept shape pipes next freed) {q : Nat} {p : Pipe}
    (live : pipes q = some p) : q < next := by
  by_contra high
  rw [kept.fresh q (by omega)] at live
  cases live

theorem pipes_plain_file {n : Nat} (kept : PipesKept shape pipes next freed)
    (old : ∀ sh, shape n = some sh → sh.type ≠ .pipe) {new : Option Shape}
    (plain : ∀ sh, new = some sh → sh.type ≠ .pipe ∧ sh.type ≠ .console) :
    PipesKept (Function.update shape n new) pipes next freed := by
  have same : ∀ m q flags, Function.update shape n new m = some (endShape q flags) ↔
      shape m = some (endShape q flags) := by
    intro m q flags
    by_cases at_ : m = n
    · subst at_
      rw [Function.update_self]
      constructor
      · intro here
        exact absurd rfl (plain _ here).1
      · intro here
        exact absurd rfl (old _ here)
    · rw [Function.update_of_ne at_]
  have split : ∀ m sh, Function.update shape n new m = some sh →
      shape m = some sh ∨ sh.type ≠ .pipe ∧ sh.type ≠ .console := by
    intro m sh here
    by_cases at_ : m = n
    · subst at_
      rw [Function.update_self] at here
      exact Or.inr (plain sh here)
    · rw [Function.update_of_ne at_] at here
      exact Or.inl here
  refine ⟨?_, ?_, ?_, ?_, kept.open_, kept.fresh, kept.once, kept.freed⟩
  · intro m sh here
    rcases split m sh here with here | new
    · exact kept.heap m sh here
    · exact new.2
  · intro m sh here isPipe
    rcases split m sh here with here | new
    · exact kept.known m sh here isPipe
    · exact absurd isPipe new.1
  · intro m k q flags first second
    exact kept.one m k q flags ((same _ _ _).mp first) ((same _ _ _).mp second)
  · intro q p flags here isEnd
    simp only [same]
    exact kept.ends q p flags here isEnd

theorem pair_shapes {n m : Nat} (ne : n ≠ m) (first : shape n = none) (second : shape m = none) (k : Nat) (sh : Shape) :
    Function.update (Function.update shape n (some (endShape next oRdonly))) m (some (endShape next oWronly)) k =
      some sh ↔ shape k = some sh ∨ (k = n ∧ sh = endShape next oRdonly) ∨ (k = m ∧ sh = endShape next oWronly) := by
  by_cases atM : k = m
  · subst atM
    simp [second, ne.symm, eq_comm]
  · rw [Function.update_of_ne atM]
    by_cases atN : k = n
    · subst atN
      simp [first, atM, eq_comm]
    · simp [atM, atN]

theorem pipes_add_pair {n m : Nat} (kept : PipesKept shape pipes next freed) (ne : n ≠ m)
    (first : shape n = none) (second : shape m = none) :
    PipesKept (Function.update (Function.update shape n (some (endShape next oRdonly))) m
        (some (endShape next oWronly)))
      (Function.update pipes next (some newPipe)) (next + 1) freed := by
  have unborn : ∀ k flags, shape k ≠ some (endShape next flags) := by
    intro k flags here
    have old := live_pipe_old kept (end_pipe_live kept here).2.choose_spec
    omega
  have split := @pair_shapes _ next _ _ ne first second
  constructor
  · intro k sh here
    rcases (split k sh).mp here with here | ⟨_, rfl⟩ | ⟨_, rfl⟩
    · exact kept.heap k sh here
    · simp
    · simp
  · intro k sh here isPipe
    rcases (split k sh).mp here with here | ⟨_, rfl⟩ | ⟨_, rfl⟩
    · obtain ⟨q, flags, same, isEnd, live⟩ := kept.known k sh here isPipe
      refine ⟨q, flags, same, isEnd, ?_⟩
      obtain ⟨p, found⟩ := Option.isSome_iff_exists.mp live
      have old := live_pipe_old kept found
      rw [Function.update_of_ne (by omega)]
      exact live
    · exact ⟨next, oRdonly, rfl, Or.inl rfl, by simp⟩
    · exact ⟨next, oWronly, rfl, Or.inr rfl, by simp⟩
  · intro k l q flags left right
    simp only [split, end_shape_inj] at left right
    rcases left with left | ⟨rfl, lf, lq⟩ | ⟨rfl, lf, lq⟩ <;>
      rcases right with right | ⟨rfl, rf, rq⟩ | ⟨rfl, rf, rq⟩
    · exact kept.one k l q flags left right
    · exact absurd (rq ▸ left) (unborn k flags)
    · exact absurd (rq ▸ left) (unborn k flags)
    · exact absurd (lq ▸ right) (unborn l flags)
    · rfl
    · rw [lf] at rf
      exact absurd rf (by decide)
    · exact absurd (lq ▸ right) (unborn l flags)
    · rw [lf] at rf
      exact absurd rf (by decide)
    · rfl
  · intro q p flags here isEnd
    simp only [split, end_shape_inj]
    by_cases new : q = next
    · subst new
      rw [Function.update_self] at here
      cases here
      have yes : newPipe.isOpen flags = true := by simp [newPipe, Pipe.isOpen]
      rw [yes]
      simp only [true_iff]
      rcases isEnd with rfl | rfl
      · exact ⟨n, Or.inr (Or.inl ⟨rfl, rfl, trivial⟩)⟩
      · exact ⟨m, Or.inr (Or.inr ⟨rfl, rfl, trivial⟩)⟩
    · rw [Function.update_of_ne new] at here
      rw [kept.ends q p flags here isEnd]
      simp [new]
  · intro q p here
    by_cases new : q = next
    · subst new
      rw [Function.update_self] at here
      cases here
      exact ⟨oRdonly, Or.inl rfl, rfl⟩
    · rw [Function.update_of_ne new] at here
      exact kept.open_ q p here
  · intro q later
    rw [Function.update_of_ne (by omega)]
    exact kept.fresh q (by omega)
  · exact kept.once
  · intro q
    rw [kept.freed]
    by_cases new : q = next
    · subst new
      simp
    · rw [Function.update_of_ne new, Nat.lt_succ_iff_lt_or_eq]
      simp [new]

theorem pipes_add_free (kept : PipesKept shape pipes next freed) :
    PipesKept shape (Function.update (Function.update pipes next (some newPipe)) next none) (next + 1)
      (next :: freed) := by
  have blank : Function.update (Function.update pipes next (some newPipe)) next none = pipes := by
    rw [Function.update_idem, Function.update_eq_self_iff]
    exact (kept.fresh next (Nat.le_refl _)).symm
  rw [blank]
  refine ⟨kept.heap, kept.known, kept.one, kept.ends, kept.open_, ?_, ?_, ?_⟩
  · intro q later
    exact kept.fresh q (by omega)
  · refine List.nodup_cons.mpr ⟨?_, kept.once⟩
    intro already
    have := ((kept.freed next).mp already).1
    omega
  · intro q
    rw [List.mem_cons, kept.freed]
    by_cases new : q = next
    · subst new
      simp [kept.fresh]
    · rw [Nat.lt_succ_iff_lt_or_eq]
      simp [new]

section Closing
variable {n q : Nat} {flags : Int} {p : Pipe}

theorem shape_after_close {k : Nat} {sh : Shape} (found : Function.update shape n none k = some sh) :
    shape k = some sh := by
  by_cases at_ : k = n
  · subst at_
    rw [Function.update_self] at found
    cases found
  · rwa [Function.update_of_ne at_] at found

theorem end_after_close (kept : PipesKept shape pipes next freed) (here : shape n = some (endShape q flags))
    (k r : Nat) (fl : Int) : Function.update shape n none k = some (endShape r fl) ↔
      shape k = some (endShape r fl) ∧ ¬ (fl = flags ∧ r = q) := by
  by_cases at_ : k = n
  · subst at_
    rw [Function.update_self, here]
    simp only [reduceCtorEq, Option.some.injEq, end_shape_inj, false_iff]
    tauto
  · rw [Function.update_of_ne at_]
    constructor
    · intro other
      refine ⟨other, ?_⟩
      rintro ⟨rfl, rfl⟩
      exact at_ (kept.one k n _ _ other here)
    · exact fun both => both.1

/-- Of the pipe exactly the other end is left. -/
theorem other_end_left (kept : PipesKept shape pipes next freed) (here : shape n = some (endShape q flags))
    (live : pipes q = some p) {fl : Int} (isEnd : IsEnd fl) : (p.closeEnd flags).isOpen fl = true ↔
      ∃ k, Function.update shape n none k = some (endShape q fl) := by
  rw [close_end_open (end_pipe_live kept here).1 isEnd, kept.ends q p fl live isEnd]
  simp [end_after_close kept here]

theorem freed_after_close (kept : PipesKept shape pipes next freed) (live : pipes q = some p) :
    (if p.afterClose flags = none then q :: freed else freed).Nodup ∧
      ∀ r, r ∈ (if p.afterClose flags = none then q :: freed else freed) ↔
        r < next ∧ Function.update pipes q (p.afterClose flags) r = none := by
  have inRange := live_pipe_old kept live
  constructor
  · split
    · refine List.nodup_cons.mpr ⟨?_, kept.once⟩
      intro already
      rw [((kept.freed q).mp already).2] at live
      cases live
    · exact kept.once
  · intro r
    by_cases same : r = q
    · subst same
      rw [Function.update_self]
      cases after : p.afterClose flags with
      | none => simp [inRange]
      | some p' => simp [kept.freed, live]
    · rw [Function.update_of_ne same]
      split
      · rw [List.mem_cons, kept.freed]
        simp [same]
      · exact kept.freed r

/-- The last descriptor of one end goes: its file disappears, and the pipe with it
   if the other end is gone already. -/
theorem pipes_close_end (kept : PipesKept shape pipes next freed) (here : shape n = some (endShape q flags))
    (live : pipes q = some p) :
    PipesKept (Function.update shape n none) (Function.update pipes q (p.afterClose flags)) next
      (if p.afterClose flags = none then q :: freed else freed) := by
  have inRange := live_pipe_old kept live
  have others : ∀ r fl, r ≠ q → ((∃ k, Function.update shape n none k = some (endShape r fl)) ↔
      ∃ k, shape k = some (endShape r fl)) := by
    intro r fl ne
    simp [end_after_close kept here, ne]
  constructor
  · exact fun k sh found => kept.heap k sh (shape_after_close found)
  · intro k sh found isPipe
    obtain ⟨r, fl, same, isEnd, alive⟩ := kept.known k sh (shape_after_close found) isPipe
    refine ⟨r, fl, same, isEnd, ?_⟩
    by_cases at_ : r = q
    · subst at_ same
      rw [Function.update_self]
      have stays := (other_end_left kept here live isEnd).mpr ⟨k, found⟩
      cases after : p.afterClose flags with
      | none =>
        rw [after_close_none after] at stays
        cases stays
      | some r => rfl
    · rwa [Function.update_of_ne at_]
  · exact fun k l r fl first second => kept.one k l r fl (shape_after_close first) (shape_after_close second)
  · intro r p' fl found isEnd
    by_cases same : r = q
    · subst same
      rw [Function.update_self] at found
      rw [(after_close_some found).1]
      exact other_end_left kept here live isEnd
    · rw [Function.update_of_ne same] at found
      rw [others r _ same]
      exact kept.ends r p' fl found isEnd
  · intro r p' found
    by_cases same : r = q
    · subst same
      rw [Function.update_self] at found
      exact (after_close_some found).2
    · rw [Function.update_of_ne same] at found
      exact kept.open_ r p' found
  · intro r later
    rw [Function.update_of_ne (by omega)]
    exact kept.fresh r later
  · exact (freed_after_close kept live).1
  · exact (freed_after_close kept live).2

end Closing

end Ends

end Archarch.Descriptors
