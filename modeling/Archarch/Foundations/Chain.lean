import Mathlib.Data.List.Nodup
import Mathlib.Logic.Function.Basic

/- Singly linked chains in a memory of next pointers. Segment next a xs b says
   that following next from a visits exactly xs and then arrives at b. -/
namespace LinkedChain
variable {Addr : Type*} {next other : Addr → Addr} {stop : Addr}

def Segment (next : Addr → Addr) : Addr → List Addr → Addr → Prop
  | a, [], b => a = b
  | a, x :: xs, b => a = x ∧ Segment next (next x) xs b

@[simp] theorem segment_nil {a b : Addr} : Segment next a [] b ↔ a = b := Iff.rfl

@[simp] theorem segment_cons {a b x : Addr} {xs : List Addr} :
    Segment next a (x :: xs) b ↔ a = x ∧ Segment next (next x) xs b := Iff.rfl

instance decideSegment [DecidableEq Addr] : ∀ a xs b, Decidable (Segment next a xs b)
  | a, [], b => inferInstanceAs (Decidable (a = b))
  | a, x :: xs, b =>
    have := decideSegment (next x) xs b
    inferInstanceAs (Decidable (a = x ∧ Segment next (next x) xs b))

theorem segment_append {a b : Addr} {xs ys : List Addr} :
    Segment next a (xs ++ ys) b ↔ ∃ c, Segment next a xs c ∧ Segment next c ys b := by
  induction xs generalizing a with
  | nil => simp
  | cons x xs ih =>
    simp only [List.cons_append, segment_cons, ih]
    constructor
    · rintro ⟨here, c, first, rest⟩
      exact ⟨c, ⟨here, first⟩, rest⟩
    · rintro ⟨c, ⟨here, first⟩, rest⟩
      exact ⟨here, c, first, rest⟩

theorem segment_congr {a b : Addr} {xs : List Addr} (agree : ∀ x ∈ xs, next x = other x) :
    Segment next a xs b ↔ Segment other a xs b := by
  induction xs generalizing a with
  | nil => simp
  | cons x xs ih =>
    have here := agree x (by simp)
    have rest := ih (a := other x) (by intro y hy; exact agree y (by simp [hy]))
    rw [segment_cons, segment_cons, here, rest]

theorem segment_snoc {a b x : Addr} {xs : List Addr} :
    Segment next a (xs ++ [x]) b ↔ Segment next a xs x ∧ next x = b := by
  rw [segment_append]
  constructor
  · rintro ⟨c, first, here, last⟩
    subst here
    exact ⟨first, last⟩
  · rintro ⟨first, last⟩
    exact ⟨x, first, rfl, last⟩

theorem segment_unique {a : Addr} {xs ys : List Addr} (left : Segment next a xs stop)
    (right : Segment next a ys stop) (outside : stop ∉ xs) (outside' : stop ∉ ys) : xs = ys := by
  induction xs generalizing a ys with
  | nil =>
    cases ys with
    | nil => rfl
    | cons y ys =>
      have same : stop = y := left.symm.trans right.1
      exact absurd (by simp [same]) outside'
  | cons x xs ih =>
    cases ys with
    | nil =>
      have same : stop = x := right.symm.trans left.1
      exact absurd (by simp [same]) outside
    | cons y ys =>
      have same : x = y := left.1.symm.trans right.1
      subst same
      rw [ih left.2 right.2 (fun h => outside (by simp [h])) (fun h => outside' (by simp [h]))]

theorem segment_nodup {a : Addr} {xs : List Addr} (chain : Segment next a xs stop)
    (outside : stop ∉ xs) : xs.Nodup := by
  induction xs generalizing a with
  | nil => exact List.nodup_nil
  | cons x xs ih =>
    have tail := ih chain.2 (fun h => outside (by simp [h]))
    refine List.nodup_cons.mpr ⟨?_, tail⟩
    intro again
    obtain ⟨before, after, split⟩ := List.append_of_mem again
    have rest := chain.2
    rw [split] at rest
    obtain ⟨c, _, here, last⟩ := segment_append.mp rest
    have same := segment_unique chain.2 last (fun h => outside (by simp [h]))
      (fun h => outside (by rw [split]; simp [h]))
    have lengths := congrArg List.length same
    rw [split] at lengths
    simp only [List.length_append, List.length_cons] at lengths
    omega

/-- The first address from a that passes a test, before stop and within fuel steps;
   the outer none says the fuel ran out. -/
def findAlong [DecidableEq Addr] (next : Addr → Addr) (stop : Addr) (test : Addr → Bool) :
    Nat → Addr → Option (Option Addr)
  | 0, _ => none
  | fuel + 1, a =>
    if a = stop then some none
    else if test a then some (some a)
    else findAlong next stop test fuel (next a)

theorem find_along_segment [DecidableEq Addr] {test : Addr → Bool} {fuel : Nat} {a : Addr}
    {xs : List Addr} (chain : Segment next a xs stop) (outside : stop ∉ xs)
    (enough : xs.length < fuel) :
    findAlong next stop test fuel a = some (xs.find? test) := by
  induction xs generalizing fuel a with
  | nil =>
    cases fuel with
    | zero => simp at enough
    | succ fuel => simp [findAlong, segment_nil.mp chain]
  | cons x xs ih =>
    cases fuel with
    | zero => simp at enough
    | succ fuel =>
      obtain ⟨here, rest⟩ := chain
      subst here
      have ne : a ≠ stop := by
        rintro rfl
        exact outside (by simp)
      rw [findAlong, if_neg ne, List.find?_cons]
      cases test a with
      | true => rfl
      | false =>
        exact ih rest (fun h => outside (by simp [h])) (by simpa using enough)

theorem find_along_finds [DecidableEq Addr] {test : Addr → Bool} {fuel : Nat} {a : Addr}
    {xs : List Addr} {found : Option Addr} (chain : Segment next a xs stop) (outside : stop ∉ xs)
    (result : findAlong next stop test fuel a = some found) : xs.find? test = found := by
  induction fuel generalizing a xs with
  | zero => simp [findAlong] at result
  | succ fuel ih =>
    rw [findAlong] at result
    cases xs with
    | nil =>
      rw [if_pos (segment_nil.mp chain)] at result
      simpa using result
    | cons x xs =>
      obtain ⟨here, rest⟩ := chain
      subst here
      have ne : a ≠ stop := by
        rintro rfl
        exact outside (by simp)
      rw [if_neg ne] at result
      rw [List.find?_cons]
      cases pass : test a with
      | true => simpa [pass] using result
      | false =>
        rw [pass] at result
        exact ih rest (fun h => outside (by simp [h])) (by simpa using result)

end LinkedChain
