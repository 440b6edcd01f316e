import Mathlib.Data.List.Chain
import Mathlib.Data.List.Pairwise

/- Families of half-open address ranges that lie inside an owned region and do
   not overlap: what splitting, merging and extending a range preserve. -/
namespace ExtentLayout

structure Range where
  base : Nat
  len : Nat
  deriving DecidableEq, Repr

def Range.Has (e : Range) (x : Nat) : Prop := e.base ≤ x ∧ x < e.base + e.len

def Range.Apart (e f : Range) : Prop := e.base + e.len ≤ f.base ∨ f.base + f.len ≤ e.base

structure Layout (owned : Nat → Prop) (es : List Range) : Prop where
  inside : ∀ e ∈ es, ∀ x, e.Has x → owned x
  apart : es.Pairwise Range.Apart

theorem apart_symm {e f : Range} (apart : e.Apart f) : f.Apart e := Or.symm apart

theorem apart_no_common {e f : Range} (apart : e.Apart f) (x : Nat) : ¬ (e.Has x ∧ f.Has x) := by
  simp only [Range.Apart, Range.Has] at *
  omega

theorem apart_of_no_common {e f : Range} (he : 0 < e.len) (hf : 0 < f.len)
    (none : ∀ x, ¬ (e.Has x ∧ f.Has x)) : e.Apart f := by
  have left := none e.base
  have right := none f.base
  simp only [Range.Apart, Range.Has] at *
  omega

section Edits
variable {owned more : Nat → Prop} {pre post : List Range} {b l r : Nat}

theorem layout_split (layout : Layout owned (pre ++ ⟨b, l + r⟩ :: post)) :
    Layout owned (pre ++ ⟨b, l⟩ :: ⟨b + l, r⟩ :: post) := by
  obtain ⟨inside, apart⟩ := layout
  obtain ⟨first, mid, cross⟩ := List.pairwise_append.mp apart
  obtain ⟨here, rest⟩ := List.pairwise_cons.mp mid
  constructor
  · intro e he x hx
    simp only [List.mem_append, List.mem_cons] at he
    rcases he with he | rfl | rfl | he
    · exact inside e (by simp [he]) x hx
    · exact inside ⟨b, l + r⟩ (by simp) x (by simp only [Range.Has] at *; omega)
    · exact inside ⟨b, l + r⟩ (by simp) x (by simp only [Range.Has] at *; omega)
    · exact inside e (by simp [he]) x hx
  · refine List.pairwise_append.mpr ⟨first, ?_, ?_⟩
    · refine List.pairwise_cons.mpr ⟨?_, List.pairwise_cons.mpr ⟨?_, rest⟩⟩
      · intro e he
        rcases List.mem_cons.mp he with rfl | he
        · exact Or.inl (Nat.le_refl _)
        · have := here e he
          simp only [Range.Apart] at *
          omega
      · intro e he
        have := here e he
        simp only [Range.Apart] at *
        omega
    · intro e he f hf
      have whole := cross e he ⟨b, l + r⟩ (by simp)
      rcases List.mem_cons.mp hf with rfl | hf
      · simp only [Range.Apart] at *
        omega
      · rcases List.mem_cons.mp hf with rfl | hf
        · simp only [Range.Apart] at *
          omega
        · exact cross e he f (by simp [hf])

/-- Merging is sound only when the second range starts where the first ends. -/
theorem layout_merge (layout : Layout owned (pre ++ ⟨b, l⟩ :: ⟨b + l, r⟩ :: post))
    (positive : ∀ e ∈ pre ++ post, 0 < e.len) :
    Layout owned (pre ++ ⟨b, l + r⟩ :: post) := by
  obtain ⟨inside, apart⟩ := layout
  obtain ⟨first, mid, cross⟩ := List.pairwise_append.mp apart
  obtain ⟨here, later⟩ := List.pairwise_cons.mp mid
  obtain ⟨second, rest⟩ := List.pairwise_cons.mp later
  constructor
  · intro e he x hx
    simp only [List.mem_append, List.mem_cons] at he
    rcases he with he | rfl | he
    · exact inside e (by simp [he]) x hx
    · by_cases low : x < b + l
      · exact inside ⟨b, l⟩ (by simp) x (by simp only [Range.Has] at *; omega)
      · exact inside ⟨b + l, r⟩ (by simp) x (by simp only [Range.Has] at *; omega)
    · exact inside e (by simp [he]) x hx
  · refine List.pairwise_append.mpr ⟨first, List.pairwise_cons.mpr ⟨?_, rest⟩, ?_⟩
    · intro e he
      have h1 := here e (by simp [he])
      have h2 := second e he
      have pos := positive e (by simp [he])
      simp only [Range.Apart] at *
      omega
    · intro e he f hf
      rcases List.mem_cons.mp hf with rfl | hf
      · have h1 := cross e he ⟨b, l⟩ (by simp)
        have h2 := cross e he ⟨b + l, r⟩ (by simp)
        have pos := positive e (by simp [he])
        simp only [Range.Apart] at *
        omega
      · exact cross e he f (by simp [hf])

theorem layout_append_fresh {es : List Range} {e : Range} (layout : Layout owned es)
    (grown : ∀ x, owned x → more x) (fresh : ∀ x, e.Has x → more x ∧ ¬ owned x)
    (positive : 0 < e.len) (nonempty : ∀ f ∈ es, 0 < f.len) : Layout more (es ++ [e]) := by
  constructor
  · intro f hf x hx
    rcases List.mem_append.mp hf with hf | hf
    · exact grown x (layout.inside f hf x hx)
    · rw [List.mem_singleton.mp hf] at hx
      exact (fresh x hx).1
  · refine List.pairwise_append.mpr ⟨layout.apart, List.pairwise_singleton _ _, ?_⟩
    intro f hf g hg
    rw [List.mem_singleton.mp hg]
    refine apart_of_no_common (nonempty f hf) positive ?_
    intro x both
    exact (fresh x both.2).2 (layout.inside f hf x both.1)

end Edits

/- Ranges laid end to end, from a up to z. -/

def Tiles : Nat → List Range → Nat → Prop
  | a, [], z => a = z
  | a, e :: es, z => e.base = a ∧ Tiles (a + e.len) es z

@[simp] theorem tiles_nil {a z : Nat} : Tiles a [] z ↔ a = z := Iff.rfl

@[simp] theorem tiles_cons {a z : Nat} {e : Range} {es : List Range} :
    Tiles a (e :: es) z ↔ e.base = a ∧ Tiles (a + e.len) es z := Iff.rfl

def covered : List Range → Nat
  | [] => 0
  | e :: es => e.len + covered es

section Tilings
variable {a z : Nat} {es fs pre mid new post : List Range}

theorem tiles_append : Tiles a (es ++ fs) z ↔ ∃ m, Tiles a es m ∧ Tiles m fs z := by
  induction es generalizing a with
  | nil => simp
  | cons e es ih =>
    simp only [List.cons_append, tiles_cons, ih]
    constructor
    · rintro ⟨here, m, first, rest⟩
      exact ⟨m, ⟨here, first⟩, rest⟩
    · rintro ⟨m, ⟨here, first⟩, rest⟩
      exact ⟨here, m, first, rest⟩

theorem tiles_total (tiles : Tiles a es z) : a + covered es = z := by
  induction es generalizing a with
  | nil => exact tiles
  | cons e es ih =>
    have rest := ih tiles.2
    simp only [covered]
    omega

theorem tiles_replace (piece : ∀ x y, Tiles x mid y → Tiles x new y)
    (tiles : Tiles a (pre ++ mid ++ post) z) : Tiles a (pre ++ new ++ post) z := by
  obtain ⟨y, front, back⟩ := tiles_append.mp tiles
  obtain ⟨x, before, middle⟩ := tiles_append.mp front
  apply tiles_append.mpr
  exact ⟨y, tiles_append.mpr ⟨x, before, piece x y middle⟩, back⟩

theorem tiles_neighbours (tiles : Tiles a es z) :
    es.IsChain fun e f => f.base = e.base + e.len := by
  induction es generalizing a with
  | nil => exact List.IsChain.nil
  | cons e es ih =>
    have rest := ih tiles.2
    cases es with
    | nil => exact List.IsChain.singleton e
    | cons f es =>
      apply List.IsChain.cons_cons _ rest
      have next := tiles.2.1
      have here := tiles.1
      omega

end Tilings
end ExtentLayout
