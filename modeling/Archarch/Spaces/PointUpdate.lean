import Archarch.Spaces.UserTasks
import Archarch.Spaces.UserTables

/- mmu_map_user_page_in_pgd on any well-formed tree, whatever its leaves are: the descriptor
   of one virtual page is replaced and no other one changes. -/
namespace Archarch.AddressSpaces
open ByteMemory TranslationTables PageFrames

def tablePath (va : Nat) : List Nat := [va / 2 ^ 30 % 512, va / 2 ^ 21 % 512]

def descriptor (m : Mem) (pgd va : Nat) : Option Nat :=
  if va < vaLimit then leaf m pgd (tablePath va) (va / 2 ^ 12 % 512) else none

/-- AP[2:1] = 01 and the access flag set: EL0 may read and write. -/
def El0ReadWrite (e : Nat) : Prop := (e >>> 6) &&& 3 = 1 ∧ (e >>> 10) &&& 1 = 1

/-- The tables of one tree are pages in use, each in one place, and their entries are
    empty or lead to tables. -/
structure WellFormed (s : Phys) (pgd : Nat) : Prop where
  distinct : ∀ p q a, ValidPath p → ValidPath q → p.length < levels → q.length < levels →
    walk s.mem pgd p = some a → walk s.mem pgd q = some a → p = q
  used : ∀ p a, ValidPath p → p.length < levels → walk s.mem pgd p = some a →
    ∃ page ∈ usedSet s.pmm, a = pageToAddr page
  entries : ∀ p a i, ValidPath p → p.length + 1 < levels → walk s.mem pgd p = some a → i < 512 →
    entryAt s.mem a i = 0 ∨ (Present (entryAt s.mem a i) ∧ entryAt s.mem a i < 2 ^ 48)

section Update
variable {base : Finset Nat} {roots : Nat → Option Nat} {s t : Phys} {pgd va pa n : Nat} {r : Int}

theorem single_occurs {m : Mem} {k : Nat} {p : List Nat} {a : Nat} :
    Occurs (single n pgd) m k p a ↔ k = n ∧ ValidPath p ∧ walk m pgd p = some a := by
  constructor
  · rintro ⟨valid, root, here, found⟩
    obtain ⟨rfl, rfl⟩ := single_some.mp here
    exact ⟨rfl, valid, found⟩
  · rintro ⟨rfl, valid, found⟩
    exact ⟨valid, pgd, single_some.mpr ⟨rfl, rfl⟩, found⟩

theorem well_formed_iff : WellFormed s pgd ↔ Tables (Held ∅ s) (single 0 pgd) s.mem := by
  constructor
  · intro wf
    refine ⟨?_, ?_, ?_⟩
    · intro n k p q a first second shortP shortQ
      obtain ⟨rfl, validP, foundP⟩ := single_occurs.mp first
      obtain ⟨rfl, validQ, foundQ⟩ := single_occurs.mp second
      exact ⟨rfl, wf.distinct p q a validP validQ shortP shortQ foundP foundQ⟩
    · intro n p a here short
      obtain ⟨_, valid, found⟩ := single_occurs.mp here
      obtain ⟨page, used, rfl⟩ := wf.used p a valid short found
      exact held_page.mpr ⟨used, Finset.notMem_empty page⟩
    · intro n p a i here short small
      obtain ⟨_, valid, found⟩ := single_occurs.mp here
      exact wf.entries p a i valid short found small
  · intro tables
    refine ⟨?_, ?_, ?_⟩
    · intro p q a validP validQ shortP shortQ foundP foundQ
      exact (tables.unique 0 0 p q a (single_occurs.mpr ⟨rfl, validP, foundP⟩)
        (single_occurs.mpr ⟨rfl, validQ, foundQ⟩) shortP shortQ).2
    · intro p a valid short found
      obtain ⟨page, rfl, used, _⟩ := tables.owned 0 p a (single_occurs.mpr ⟨rfl, valid, found⟩) short
      exact ⟨page, used, rfl⟩
    · intro p a i valid short found small
      exact tables.entries 0 p a i (single_occurs.mpr ⟨rfl, valid, found⟩) short small

theorem table_path_valid (va : Nat) : ValidPath (tablePath va) := by
  refine ⟨by simp [tablePath, levels], ?_⟩
  intro i member
  simp only [tablePath, List.mem_cons, List.not_mem_nil, or_false] at member
  omega

theorem map_user_page_cases (tables : Tables (Held base s) roots s.mem)
    (sub : base ⊆ usedSet s.pmm) (root : roots n = some pgd) (aligned : pa % 4096 = 0)
    (fits : pa < 2 ^ 48) (result : mmuMapUserPageInPgd s pgd va pa = (r, t)) :
    Tables (Held base t) roots t.mem ∧
      (r = -1 ∧ (∀ k root q j, roots k = some root → ValidPath q → q.length + 1 = levels → j < 512 →
          leaf t.mem root q j = leaf s.mem root q j) ∨
        r = 0 ∧ ∀ k root q j, roots k = some root → ValidPath q → q.length + 1 = levels → j < 512 →
          leaf t.mem root q j = if k = n ∧ q = tablePath va ∧ j = va / 2 ^ 12 % 512
            then some (pageEntry pa) else leaf s.mem root q j) := by
  unfold mmuMapUserPageInPgd at result
  simp only [index_eq, Nat.shiftRight_eq_div_pow] at result
  have top : Occurs roots s.mem n [] pgd := ⟨valid_nil, pgd, root, rfl⟩
  obtain ⟨p1, same1, _⟩ := tables.owned n [] pgd top (by decide)
  subst same1
  rcases next1 : nextTable s (pageToAddr p1) (va / 2 ^ 30 % 512) with ⟨l2, s2⟩
  rw [next1] at result
  rcases next_level tables sub top (by decide) (by omega) next1 with ⟨rfl, rfl, _⟩ | ⟨made1, level1⟩
  · rw [if_page_none] at result
    cases result
    exact ⟨tables, Or.inl ⟨rfl, fun _ _ _ _ _ _ _ _ => rfl⟩⟩
  obtain ⟨p2, same2, _⟩ := level1.tables.owned n _ l2 level1.here (by simp [levels])
  subst same2
  have sub2 : base ⊆ usedSet s2.pmm := by
    rw [level1.used]
    exact sub.trans Finset.subset_union_left
  rw [if_page_some (page_to_addr_ne_zero p2)] at result
  rcases next2 : nextTable s2 (pageToAddr p2) (va / 2 ^ 21 % 512) with ⟨l3, s3⟩
  rw [next2] at result
  rcases next_level level1.tables sub2 level1.here (by simp [levels]) (by omega) next2 with
    ⟨rfl, rfl, _⟩ | ⟨made2, level2⟩
  · rw [if_page_none] at result
    cases result
    exact ⟨level1.tables, Or.inl ⟨rfl, level1.leaves⟩⟩
  obtain ⟨p3, same3, _⟩ := level2.tables.owned n _ l3 level2.here (by simp [levels])
  subst same3
  rw [if_page_some (page_to_addr_ne_zero p3)] at result
  cases result
  have entry := page_entry_eq aligned fits
  have present := present_page_entry aligned fits
  obtain ⟨linked, _⟩ := tables_link (i := va / 2 ^ 12 % 512) held_aligned level2.tables level2.here
    (by simp [levels]) (by omega) present rfl (by omega)
    (fun above => absurd above (by simp [levels]))
  refine ⟨linked, Or.inr ⟨rfl, ?_⟩⟩
  intro k root' q j here valid depth small
  have before := (level2.leaves k root' q j here valid depth small).trans
    (level1.leaves k root' q j here valid depth small)
  rw [← before]
  exact link_leaf held_aligned level2.tables level2.here (by simp [levels]) (by omega)
    (by simp [levels]) present (by omega) here valid depth small

theorem table_path_eq_iff {wa : Nat} (low : va < vaLimit) (low' : wa < vaLimit) :
    (tablePath wa = tablePath va ∧ wa / 2 ^ 12 % 512 = va / 2 ^ 12 % 512) ↔ wa / 4096 = va / 4096 := by
  simp only [vaLimit] at low low'
  simp only [tablePath, List.cons.injEq, and_true]
  omega

end Update

theorem page_entry_el0 {pa : Nat} (aligned : pa % 4096 = 0) (fits : pa < 2 ^ 48) :
    El0ReadWrite (pageEntry pa) := by
  have entry := page_entry_eq aligned fits
  constructor
  · rw [Nat.shiftRight_eq_div_pow, show (3 : Nat) = 2 ^ 2 - 1 from rfl, Nat.and_two_pow_sub_one_eq_mod]
    omega
  · rw [Nat.shiftRight_eq_div_pow, show (1 : Nat) = 2 ^ 1 - 1 from rfl, Nat.and_two_pow_sub_one_eq_mod]
    omega

/-- What a call that returns r and leaves t may do to the translations of s. -/
structure PointUpdate (s t : Phys) (pgd va pa : Nat) (r : Int) : Prop where
  result : r = 0 ∨ r = -1
  wellFormed : WellFormed t pgd
  mapped : r = 0 → ∃ e, descriptor t.mem pgd va = some e ∧ outAddr e = pa ∧ El0ReadWrite e
  others : r = 0 → ∀ wa, wa / 4096 ≠ va / 4096 → descriptor t.mem pgd wa = descriptor s.mem pgd wa
  failed : r = -1 → ∀ wa, descriptor t.mem pgd wa = descriptor s.mem pgd wa

/-- A physical address has at most 48 bits: those of an output address. -/
theorem map_user_page_is_point_update (s t : Phys) (pgd va pa : Nat) (r : Int)
    (wellFormed : WellFormed s pgd) (low : va < 2 ^ 39)
    (aligned : pa % 4096 = 0) (physical : pa < 2 ^ 48)
    (result : mmuMapUserPageInPgd s pgd va pa = (r, t)) : PointUpdate s t pgd va pa r := by
  have root : single 0 pgd 0 = some pgd := single_some.mpr ⟨rfl, rfl⟩
  obtain ⟨after, cases_⟩ := map_user_page_cases (well_formed_iff.mp wellFormed)
    (Finset.empty_subset _) root aligned physical result
  have small : ∀ wa : Nat, wa / 2 ^ 12 % 512 < 512 := fun wa => by omega
  have limit : va < vaLimit := low
  rcases cases_ with ⟨rfl, same⟩ | ⟨rfl, updated⟩
  · refine ⟨Or.inr rfl, well_formed_iff.mpr after, ?_, ?_, ?_⟩
    · intro zero
      exact absurd zero (by decide)
    · intro zero
      exact absurd zero (by decide)
    · intro _ wa
      rw [descriptor, descriptor, same 0 pgd _ _ root (table_path_valid wa) rfl (small wa)]
  · refine ⟨Or.inl rfl, well_formed_iff.mpr after, ?_, ?_, ?_⟩
    · intro _
      refine ⟨pageEntry pa, ?_, out_addr_page_entry aligned physical, page_entry_el0 aligned physical⟩
      rw [descriptor, if_pos limit, updated 0 pgd _ _ root (table_path_valid va) rfl (small va),
        if_pos ⟨rfl, rfl, rfl⟩]
    · intro _ wa other
      unfold descriptor
      split
      · rename_i low'
        rw [updated 0 pgd _ _ root (table_path_valid wa) rfl (small wa), if_neg]
        rintro ⟨_, same⟩
        exact other ((table_path_eq_iff limit low').mp same)
      · rfl
    · intro minus
      exact absurd minus (by decide)

/-- Memory full of zeros, and the first page of RAM as an empty root table. -/
def emptyTree : Phys := ⟨fun _ => 0, pmmInit 0x40001000⟩

theorem empty_tree_well_formed : WellFormed emptyTree 0x40000000 := by
  have used : 0 ∈ usedSet emptyTree.pmm := mem_used_set.mpr ⟨by rw [total_pages_eq]; decide, by decide⟩
  have root : Forest (Held ∅ emptyTree) (single 0 0x40000000) emptyTree.mem ∧ _ :=
    forest_root (fun _ _ => single_some) (held_page.mpr ⟨used, Finset.notMem_empty 0⟩)
      (fun _ _ => rfl)
  exact well_formed_iff.mpr (forest_tables root.1)

theorem map_user_page_updates_empty_tree :
    ∃ t, mmuMapUserPageInPgd emptyTree 0x40000000 0x405000 0x40010000 = (0, t) ∧
      PointUpdate emptyTree t 0x40000000 0x405000 0x40010000 0 := by
  have call : (mmuMapUserPageInPgd emptyTree 0x40000000 0x405000 0x40010000).1 = 0 := by
    decide +kernel
  have result : mmuMapUserPageInPgd emptyTree 0x40000000 0x405000 0x40010000 =
    (0, (mmuMapUserPageInPgd emptyTree 0x40000000 0x405000 0x40010000).2) := Prod.ext call rfl
  exact ⟨_, result, map_user_page_is_point_update emptyTree _ 0x40000000 0x405000 0x40010000 0
    empty_tree_well_formed (by decide) (by decide) (by decide) result⟩

end Archarch.AddressSpaces
