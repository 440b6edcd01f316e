import Mathlib.Data.Finset.Card

/- Reference counting: finitely many slots, each empty or holding a reference to an
   object, and how the slots that hold one object change when a slot does. -/
namespace HeldReferences
variable {Slot Obj : Type*} [DecidableEq Obj]
variable {slots more : Finset Slot} {held : Slot → Option Obj} {a : Slot} {o p : Obj}

def holders (slots : Finset Slot) (held : Slot → Option Obj) (o : Obj) : Finset Slot :=
  slots.filter fun a => held a = some o

theorem mem_holders : a ∈ holders slots held o ↔ a ∈ slots ∧ held a = some o := by
  simp [holders]

theorem holders_more (sub : slots ⊆ more) (blank : ∀ a ∈ more, a ∉ slots → held a = none) :
    holders more held o = holders slots held o := by
  ext b
  rw [mem_holders, mem_holders]
  constructor
  · rintro ⟨member, full⟩
    by_cases old : b ∈ slots
    · exact ⟨old, full⟩
    · rw [blank b member old] at full
      cases full
  · rintro ⟨member, full⟩
    exact ⟨sub member, full⟩

variable [DecidableEq Slot]

theorem holders_release :
    holders slots (Function.update held a none) o = (holders slots held o).erase a := by
  ext b
  rw [Finset.mem_erase, mem_holders, mem_holders]
  by_cases same : b = a
  · simp [same]
  · simp [same]

theorem holders_release_other (not : held a ≠ some o) :
    holders slots (Function.update held a none) o = holders slots held o := by
  rw [holders_release]
  refine Finset.erase_eq_of_notMem ?_
  intro member
  exact not (mem_holders.mp member).2

theorem holders_acquire (member : a ∈ slots) :
    holders slots (Function.update held a (some o)) o = insert a (holders slots held o) := by
  ext b
  rw [Finset.mem_insert, mem_holders, mem_holders]
  by_cases same : b = a
  · simp [same, member]
  · simp [same]

theorem holders_acquire_other (vacant : held a = none) (ne : o ≠ p) :
    holders slots (Function.update held a (some o)) p = holders slots held p := by
  ext b
  rw [mem_holders, mem_holders]
  by_cases same : b = a
  · simp [same, vacant, ne]
  · simp [same]

theorem holders_card_release (member : a ∈ slots) (had : held a = some o) :
    (holders slots held o).card = (holders slots (Function.update held a none) o).card + 1 := by
  rw [holders_release]
  exact (Finset.card_erase_add_one (mem_holders.mpr ⟨member, had⟩)).symm

theorem holders_card_acquire (member : a ∈ slots) (vacant : held a = none) :
    (holders slots (Function.update held a (some o)) o).card = (holders slots held o).card + 1 := by
  rw [holders_acquire member]
  refine Finset.card_insert_of_notMem ?_
  intro already
  have full := (mem_holders.mp already).2
  rw [vacant] at full
  cases full

end HeldReferences
