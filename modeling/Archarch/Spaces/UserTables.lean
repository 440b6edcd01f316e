import Archarch.Spaces.TableBuilding

/- mmu_create_user_pgd builds a tree of its own: nothing that was used before is written
   and its leaves are exactly the pages asked for. -/
namespace Archarch.AddressSpaces
open ByteMemory TranslationTables PageFrames

def single (n root : Nat) : Nat → Option Nat := fun l => if l = n then some root else none

theorem single_some {n root l r : Nat} : single n root l = some r ↔ l = n ∧ r = root := by
  unfold single
  split
  · rename_i same
    simp [same, eq_comm]
  · rename_i differs
    simp [differs]

def imagePage (codePa codePages stackPa : Nat) : List Nat → Option Nat
  | [0, 2, j] => (lastPage codeIndex 0 codePages j).map fun p => codePa + p * pageSize
  | [0, 3, j] => (lastPage (stackIndex userStackPages) 0 userStackPages j).map fun p =>
      stackPa + p * pageSize
  | _ => none

section Creation
variable {base : Finset Nat} {s t : Phys} {n l1 l2 l3 codeFirst codePages stackFirst pgd : Nat}
variable {q1 q2 q3 : Pmm}

theorem skeleton_trees (fresh1 : l1 ∉ usedSet s.pmm) (used1 : usedSet q1 = insert l1 (usedSet s.pmm))
    (fresh2 : l2 ∉ usedSet q1) (used2 : usedSet q2 = insert l2 (usedSet q1))
    (fresh3 : l3 ∉ usedSet q2) (used3 : usedSet q3 = insert l3 (usedSet q2)) {m : Mem}
    (memory : m = setEntry (zeroPage (setEntry (zeroPage (zeroPage s.mem (pageToAddr l1))
      (pageToAddr l2)) (pageToAddr l1) 0 (tableEntry (pageToAddr l2))) (pageToAddr l3))
      (pageToAddr l2) 2 (tableEntry (pageToAddr l3))) :
    Trees (usedSet s.pmm) (single n (pageToAddr l1)) ⟨m, q3⟩ ∧
      ∀ k r c, Occurs (single n (pageToAddr l1)) m k r c ↔ k = n ∧
        (r = [] ∧ c = pageToAddr l1 ∨ r = [0] ∧ c = pageToAddr l2 ∨ r = [0, 2] ∧ c = pageToAddr l3) := by
  subst memory
  have before2 : l2 ∉ usedSet s.pmm := by
    intro member
    exact fresh2 (by rw [used1]; exact Finset.mem_insert_of_mem member)
  have before3 : l3 ∉ usedSet s.pmm := by
    intro member
    exact fresh3 (by rw [used2, used1]; exact Finset.mem_insert_of_mem (Finset.mem_insert_of_mem member))
  have apart2 : l2 ≠ l1 := by
    rintro rfl
    exact fresh2 (by rw [used1]; exact Finset.mem_insert_self _ _)
  have apart3 : l3 ≠ l1 ∧ l3 ≠ l2 := by
    refine ⟨?_, ?_⟩
    · rintro rfl
      exact fresh3 (by rw [used2, used1]; exact Finset.mem_insert_of_mem (Finset.mem_insert_self _ _))
    · rintro rfl
      exact fresh3 (by rw [used2]; exact Finset.mem_insert_self _ _)
  obtain ⟨root, rootOccurs⟩ : Trees (usedSet s.pmm) (single n (pageToAddr l1))
      ⟨zeroPage s.mem (pageToAddr l1), q1⟩ ∧ _ :=
    forest_root (n := n) (fun _ _ => single_some)
      (held_page.mpr ⟨by rw [used1]; exact Finset.mem_insert_self _ _, fresh1⟩)
      (fun j hj => zero_page_entries hj)
  obtain ⟨second, secondOccurs⟩ := alloc_table_trees root fresh2 used2
  obtain ⟨linked, linkedOccurs⟩ := link_table_trees (i := 0) second
    ((secondOccurs n [] _).mpr ((rootOccurs n [] _).mpr ⟨rfl, rfl, rfl⟩)) (by decide) (by decide)
    (by rw [used2]; exact Finset.mem_insert_self _ _) before2
    (by
      intro k r found
      obtain ⟨_, _, same⟩ := (rootOccurs k r _).mp ((secondOccurs k r _).mp found)
      exact apart2 (page_to_addr_injective same))
    (fun j hj => zero_page_entries hj)
  have two : ∀ k r c, Occurs (single n (pageToAddr l1)) (setEntry (zeroPage (zeroPage s.mem
      (pageToAddr l1)) (pageToAddr l2)) (pageToAddr l1) 0 (tableEntry (pageToAddr l2))) k r c ↔
      k = n ∧ (r = [] ∧ c = pageToAddr l1 ∨ r = [0] ∧ c = pageToAddr l2) := by
    intro k r c
    rw [linkedOccurs, secondOccurs, rootOccurs]
    constructor
    · rintro (⟨⟨rfl, rfl, rfl⟩, _⟩ | ⟨rfl, rfl, rfl⟩)
      · exact ⟨rfl, Or.inl ⟨rfl, rfl⟩⟩
      · exact ⟨rfl, Or.inr ⟨rfl, rfl⟩⟩
    · rintro ⟨rfl, ⟨rfl, rfl⟩ | ⟨rfl, rfl⟩⟩
      · exact Or.inl ⟨⟨rfl, rfl, rfl⟩, fun longer => by simp at longer⟩
      · exact Or.inr ⟨rfl, rfl, rfl⟩
  obtain ⟨third, thirdOccurs⟩ := alloc_table_trees linked fresh3 used3
  obtain ⟨whole, wholeOccurs⟩ := link_table_trees (i := 2) third
    ((thirdOccurs n [0] _).mpr ((two n [0] _).mpr ⟨rfl, Or.inr ⟨rfl, rfl⟩⟩)) (by decide) (by decide)
    (by rw [used3]; exact Finset.mem_insert_self _ _) before3
    (by
      intro k r found
      obtain ⟨_, ⟨_, same⟩ | ⟨_, same⟩⟩ := (two k r _).mp ((thirdOccurs k r _).mp found)
      · exact apart3.1 (page_to_addr_injective same)
      · exact apart3.2 (page_to_addr_injective same))
    (fun j hj => zero_page_entries hj)
  refine ⟨whole, ?_⟩
  intro k r c
  rw [wholeOccurs, thirdOccurs, two]
  constructor
  · rintro (⟨⟨rfl, ⟨rfl, rfl⟩ | ⟨rfl, rfl⟩⟩, _⟩ | ⟨rfl, rfl, rfl⟩)
    · exact ⟨rfl, Or.inl ⟨rfl, rfl⟩⟩
    · exact ⟨rfl, Or.inr (Or.inl ⟨rfl, rfl⟩)⟩
    · exact ⟨rfl, Or.inr (Or.inr ⟨rfl, rfl⟩)⟩
  · rintro ⟨rfl, ⟨rfl, rfl⟩ | ⟨rfl, rfl⟩ | ⟨rfl, rfl⟩⟩
    · exact Or.inl ⟨⟨rfl, Or.inl ⟨rfl, rfl⟩⟩, fun longer => by simp at longer⟩
    · exact Or.inl ⟨⟨rfl, Or.inr ⟨rfl, rfl⟩⟩, fun longer => by simp at longer⟩
    · exact Or.inr ⟨rfl, rfl, rfl⟩

structure ImageTree (base : Finset Nat) (n pgd codePa codePages stackPa : Nat) (t : Phys) : Prop where
  trees : Trees base (single n pgd) t
  leaves : ∀ q c, q.length = levels →
    (Occurs (single n pgd) t.mem n q c ↔ imagePage codePa codePages stackPa q = some c)

theorem page_to_addr_add (first p : Nat) :
    pageToAddr (first + p) = pageToAddr first + p * pageSize := by
  rw [page_to_addr_eq, page_to_addr_eq, page_size_eq]
  omega

theorem stack_small (p : Nat) : stackIndex userStackPages p < 512 := index_lt _

theorem code_small (p : Nat) : codeIndex p < 512 := index_lt _

structure Buffers (base : Finset Nat) (s : Phys) (codeFirst codePages stackFirst : Nat) : Prop where
  sub : base ⊆ usedSet s.pmm
  code : ∀ p, p < codePages → codeFirst + p ∈ usedSet s.pmm ∧ codeFirst + p ∉ base
  stack : ∀ p, p < userStackPages → stackFirst + p ∈ usedSet s.pmm ∧ stackFirst + p ∉ base
  apart : ∀ p r, p < codePages → r < userStackPages → codeFirst + p ≠ stackFirst + r

section Leaves
variable {m k u v : Mem} {q r : Pmm}

theorem image_page_other {codePa stackPa a b j : Nat} (code : ¬ (a = 0 ∧ b = 2)) (stack : ¬ (a = 0 ∧ b = 3)) :
    imagePage codePa codePages stackPa [a, b, j] = none := by
  unfold imagePage
  split
  · rename_i same
    simp only [List.cons.injEq] at same
    exact absurd ⟨same.1, same.2.1⟩ code
  · rename_i same
    simp only [List.cons.injEq] at same
    exact absurd ⟨same.1, same.2.1⟩ stack
  · rfl

theorem path_other {a b x y j : Nat} (different : ¬ (a = x ∧ b = y)) :
    ¬ (n = n ∧ ∃ k, [a, b, j] = [x, y] ++ [k]) := by
  rintro ⟨_, k, same⟩
  simp only [List.cons_append, List.nil_append, List.cons.injEq] at same
  exact different ⟨same.1, same.2.1⟩

/-- The loop for the code adds the pages of the code and nothing else. -/
theorem code_occurs (code : Mapped base (single n l1) n [0, 2] codeFirst (lastPage codeIndex 0 codePages) m k q)
    {i : Nat} {path : List Nat} {c : Nat} (found : Occurs (single n l1) k i path c) :
    Occurs (single n l1) m i path c ∨ ∃ p, p < codePages ∧ c = pageToAddr (codeFirst + p) := by
  by_cases leaf : i = n ∧ ∃ j, path = [0, 2] ++ [j]
  · obtain ⟨rfl, j, rfl⟩ := leaf
    cases last : lastPage codeIndex 0 codePages j with
    | none => exact Or.inl ((code.unmapped j c last).mp found)
    | some p =>
      have bound := last_page_some last
      exact Or.inr ⟨p, by omega, (code.mapped j p c last).mp found⟩
  · exact Or.inl ((code.other i path c leaf).mp found)

/-- Behind both loops the leaves are the pages of the image: m had none, and between the loops only a
    table was made. -/
theorem image_leaves (none : ∀ {a b j c}, ¬ Occurs (single n l1) m n [a, b, j] c)
    (code : Mapped base (single n l1) n [0, 2] codeFirst (lastPage codeIndex 0 codePages) m k q)
    (same : ∀ {a b j c}, Occurs (single n l1) u n [a, b, j] c ↔ Occurs (single n l1) k n [a, b, j] c)
    (stack : Mapped base (single n l1) n [0, 3] stackFirst
      (lastPage (stackIndex userStackPages) 0 userStackPages) u v r)
    {path : List Nat} {c : Nat} (depth : path.length = levels) :
    Occurs (single n l1) v n path c ↔
      imagePage (pageToAddr codeFirst) codePages (pageToAddr stackFirst) path = some c := by
  obtain ⟨a, b, j, rfl⟩ := List.length_eq_three.mp depth
  by_cases inStack : a = 0 ∧ b = 3
  · obtain ⟨rfl, rfl⟩ := inStack
    simp only [imagePage]
    cases last : lastPage (stackIndex userStackPages) 0 userStackPages j with
    | some p =>
      rw [Option.map_some, Option.some.injEq, ← page_to_addr_add, eq_comm]
      exact stack.mapped j p c last
    | none =>
      refine (stack.unmapped j c last).trans (iff_of_false ?_ (by simp))
      intro found
      exact none ((code.other n [0, 3, j] c (by simp)).mp (same.mp found))
  · rw [stack.other n [a, b, j] c (path_other inStack), same]
    by_cases inCode : a = 0 ∧ b = 2
    · obtain ⟨rfl, rfl⟩ := inCode
      simp only [imagePage]
      cases last : lastPage codeIndex 0 codePages j with
      | some p =>
        rw [Option.map_some, Option.some.injEq, ← page_to_addr_add, eq_comm]
        exact code.mapped j p c last
      | none => exact (code.unmapped j c last).trans (iff_of_false none (by simp))
    · rw [image_page_other inCode inStack, code.other n [a, b, j] c (path_other inCode)]
      exact iff_of_false none (by simp)

end Leaves

theorem skeleton_image {m : Mem} (buffers : Buffers base s codeFirst codePages stackFirst)
    (grown : usedSet s.pmm ⊆ usedSet q3) (mine : l3 ∉ usedSet s.pmm) (second : l2 ∉ usedSet s.pmm)
    (trees : Trees (usedSet s.pmm) (single n (pageToAddr l1)) ⟨m, q3⟩)
    (occurs : ∀ k r c, Occurs (single n (pageToAddr l1)) m k r c ↔ k = n ∧
      (r = [] ∧ c = pageToAddr l1 ∨ r = [0] ∧ c = pageToAddr l2 ∨ r = [0, 2] ∧ c = pageToAddr l3))
    {l : Nat} {u : Phys} (next : nextTable ⟨mapPages m (pageToAddr l3) codeIndex
      (pageToAddr codeFirst) 0 codePages, q3⟩ (pageToAddr l2) 3 = (l, u)) :
    Preserves (usedSet s.pmm) ⟨m, q3⟩ u ∧ (l = 0 ∧ u.pmm = q3 ∧ freeCount q3 = 0 ∨
      l ≠ 0 ∧ freeCount q3 ≠ 0 ∧ Preserves (usedSet s.pmm) ⟨m, q3⟩ ⟨mapPages u.mem l (stackIndex userStackPages)
        (pageToAddr stackFirst) 0 userStackPages, u.pmm⟩ ∧
      ImageTree base n (pageToAddr l1) (pageToAddr codeFirst) codePages (pageToAddr stackFirst)
        ⟨mapPages u.mem l (stackIndex userStackPages) (pageToAddr stackFirst) 0 userStackPages, u.pmm⟩) := by
  have unused : ∀ {page k r}, page ∈ usedSet s.pmm →
      ¬ Occurs (single n (pageToAddr l1)) m k r (pageToAddr page) := by
    intro page k r member found
    exact (held_page.mp (trees.owned k r _ found)).2 member
  have code := map_pages_trees codeFirst (trees_base trees buffers.sub)
    ((occurs n [0, 2] _).mpr ⟨rfl, Or.inr (Or.inr ⟨rfl, rfl⟩)⟩) rfl code_small
    (p := 0) (k := codePages) (by
      intro r _ bound
      have page := buffers.code r (by omega)
      exact ⟨grown page.1, page.2, fun _ _ => unused page.1⟩)
  have table : Occurs (single n (pageToAddr l1)) (mapPages m (pageToAddr l3) codeIndex
      (pageToAddr codeFirst) 0 codePages) n [0] (pageToAddr l2) :=
    (code.other n [0] _ (by simp)).mpr ((occurs n [0] _).mpr ⟨rfl, Or.inr (Or.inl ⟨rfl, rfl⟩)⟩)
  have first := preserves_trans
    (map_pages_preserves (pageToAddr codeFirst) (m := m) (q := q3) (p := 0) (k := codePages)
      mine code_small)
    (next_table_preserves grown second (by decide) next)
  refine ⟨first, ?_⟩
  rcases next_table_trees code.trees (buffers.sub.trans grown) table (by decide) (by decide) next with
    ⟨zero, same, full⟩ | made
  · rw [same]
    exact Or.inl ⟨zero, rfl, free_count_zero_iff.mpr full⟩
  -- the second level had no entry for the stack
  have fresh : ∃ l4, l4 ∉ usedSet q3 ∧ l = pageToAddr l4 := by
    rcases made.after n _ l made.here with old | ⟨_, _, l4, fresh, same⟩
    · have before := (occurs n _ _).mp ((code.other n [0, 3] l (by simp)).mp old)
      simp at before
    · exact ⟨l4, fresh, same⟩
  obtain ⟨l4, fresh, rfl⟩ := fresh
  have room : freeCount q3 ≠ 0 := by
    intro none
    rw [free_count_zero_iff.mp none, Finset.mem_range] at fresh
    exact fresh (mem_used_set.mp (held_page.mp (made.trees.owned n _ _ made.here)).1).1
  have kept := preserves_trans first
    (map_pages_preserves (pageToAddr stackFirst) (m := u.mem) (q := u.pmm) (p := 0)
      (k := userStackPages) (fun member => fresh (grown member)) stack_small)
  have stack := map_pages_trees stackFirst made.trees made.here rfl stack_small
    (p := 0) (k := userStackPages) (by
      intro r _ bound
      have page := buffers.stack r (by omega)
      refine ⟨made.used (grown page.1), page.2, ?_⟩
      intro k path found
      rcases made.after k path _ found with old | ⟨_, _, other, unusedOther, same⟩
      · rcases code_occurs code old with old | ⟨p, bound', same⟩
        · exact unused page.1 old
        · exact buffers.apart p r bound' (by omega) (page_to_addr_injective same).symm
      · rw [← page_to_addr_injective same] at unusedOther
        exact unusedOther (grown page.1))
  refine Or.inr ⟨page_to_addr_ne_zero l4, room, kept, stack.trees, ?_⟩
  have noLeaf : ∀ {a b j c}, ¬ Occurs (single n (pageToAddr l1)) m n [a, b, j] c := by
    intro a b j c found
    have := (occurs n _ c).mp found
    simp at this
  have sameNext : ∀ {a b j c}, Occurs (single n (pageToAddr l1)) u.mem n [a, b, j] c ↔
      Occurs (single n (pageToAddr l1)) (mapPages m (pageToAddr l3) codeIndex
        (pageToAddr codeFirst) 0 codePages) n [a, b, j] c := by
    intro a b j c
    refine ⟨fun found => ?_, made.before n _ c⟩
    rcases made.after n _ c found with old | ⟨_, other, _⟩
    · exact old
    · simp at other
  exact fun path c depth => image_leaves noLeaf code sameNext stack depth

/-- What a failed mmu_create_user_pgd leaves in use: it returns the root when there was no
   page for the second level, and nothing when a later page was missing. -/
def Leftover (p q : Pmm) : Prop :=
  q = p ∧ freeCount p < 2 ∨
    usedSet q = Finset.range totalPages ∧ 2 ≤ freeCount p ∧ freeCount p < 4

theorem mmu_create_user_pgd_spec (n : Nat)
    (buffers : Buffers base s codeFirst codePages stackFirst)
    (result : mmuCreateUserPgd s (pageToAddr codeFirst) codePages (pageToAddr stackFirst)
      userStackPages = (pgd, t)) :
    Preserves (usedSet s.pmm) s t ∧ (pgd = 0 ∧ Leftover s.pmm t.pmm ∨
      pgd ≠ 0 ∧ 4 ≤ freeCount s.pmm ∧ ImageTree base n pgd (pageToAddr codeFirst) codePages (pageToAddr stackFirst) t) := by
  unfold mmuCreateUserPgd at result
  rcases alloc_table_cases s with ⟨none, full⟩ | ⟨l1, q1, inside1, fresh1, some1, used1⟩
  · rw [none, if_page_none] at result
    cases result
    have empty := free_count_zero_iff.mpr full
    exact ⟨preserves_refl _ _, Or.inl ⟨rfl, Or.inl ⟨rfl, by omega⟩⟩⟩
  have count1 := free_count_insert inside1 fresh1 used1
  have grown1 : usedSet s.pmm ⊆ usedSet q1 := by
    rw [used1]
    exact Finset.subset_insert _ _
  have first : Preserves (usedSet s.pmm) s ⟨zeroPage s.mem (pageToAddr l1), q1⟩ :=
    preserves_alloc_table (Finset.Subset.refl _) fresh1 used1
  rw [some1, if_page_some (page_to_addr_ne_zero l1)] at result
  rcases alloc_table_cases ⟨zeroPage s.mem (pageToAddr l1), q1⟩ with
    ⟨none, full⟩ | ⟨l2, q2, inside2, fresh2, some2, used2⟩
  · rw [none, if_page_none] at result
    cases result
    have empty : freeCount q1 = 0 := free_count_zero_iff.mpr full
    refine ⟨preserves_trans first (preserves_pmm ?_),
      Or.inl ⟨rfl, Or.inl ⟨alloc_table_undone some1, by omega⟩⟩⟩
    intro sub page member
    rw [pmm_free_page_used inside1]
    refine Finset.mem_erase.mpr ⟨?_, sub member⟩
    rintro rfl
    exact fresh1 member
  have count2 : freeCount q1 = freeCount q2 + 1 := free_count_insert inside2 fresh2 used2
  have grown2 : usedSet s.pmm ⊆ usedSet q2 := by
    rw [used2]
    exact grown1.trans (Finset.subset_insert _ _)
  have second := preserves_trans first (preserves_alloc_table grown1 fresh2 used2)
  rw [some2, if_page_some (page_to_addr_ne_zero l2)] at result
  dsimp only at result
  have third := preserves_trans second
    (preserves_set_entry (i := 0) (e := tableEntry (pageToAddr l2)) fresh1 (by decide))
  rcases alloc_table_cases ⟨setEntry (zeroPage (zeroPage s.mem (pageToAddr l1)) (pageToAddr l2))
      (pageToAddr l1) 0 (tableEntry (pageToAddr l2)), q2⟩ with
    ⟨none, full⟩ | ⟨l3, q3, inside3, fresh3, some3, used3⟩
  · rw [none, if_page_none] at result
    cases result
    have empty : freeCount q2 = 0 := free_count_zero_iff.mpr full
    exact ⟨third, Or.inl ⟨rfl, Or.inr ⟨full, by omega, by omega⟩⟩⟩
  have count3 : freeCount q2 = freeCount q3 + 1 := free_count_insert inside3 fresh3 used3
  have before2 : l2 ∉ usedSet s.pmm := fun member => fresh2 (grown1 member)
  have before3 : l3 ∉ usedSet s.pmm := fun member => fresh3 (grown2 member)
  have grown3 : usedSet s.pmm ⊆ usedSet q3 := by
    rw [used3]
    exact grown2.trans (Finset.subset_insert _ _)
  have apart : l3 ≠ l2 := by
    rintro rfl
    exact fresh3 (by rw [used2]; exact Finset.mem_insert_self _ _)
  have fourth := preserves_trans (preserves_trans third (preserves_alloc_table grown2 fresh3 used3))
    (preserves_set_entry (i := 2) (e := tableEntry (pageToAddr l3)) before2 (by decide))
  obtain ⟨trees, occurs⟩ := skeleton_trees (n := n) fresh1 used1 fresh2 used2 fresh3 used3 rfl
  rw [some3, if_page_some (page_to_addr_ne_zero l3), code_table_index, stack_table_index,
    map_pages_set_entry apart code_small (by decide)] at result
  rcases next : nextTable ⟨mapPages (setEntry (zeroPage (setEntry (zeroPage (zeroPage s.mem
    (pageToAddr l1)) (pageToAddr l2)) (pageToAddr l1) 0 (tableEntry (pageToAddr l2)))
    (pageToAddr l3)) (pageToAddr l2) 2 (tableEntry (pageToAddr l3))) (pageToAddr l3) codeIndex
    (pageToAddr codeFirst) 0 codePages, q3⟩ (pageToAddr l2) 3 with ⟨l, u⟩
  obtain ⟨kept, ends⟩ := skeleton_image buffers grown3 before3 before2 trees occurs next
  rw [next] at result
  rcases ends with ⟨rfl, same, empty⟩ | ⟨some4, room, kept', image⟩
  · rw [if_page_none] at result
    cases result
    refine ⟨preserves_trans fourth kept, Or.inl ⟨rfl, Or.inr ⟨?_, by omega, by omega⟩⟩⟩
    rw [same]
    exact free_count_zero_iff.mp empty
  · rw [if_page_some some4] at result
    cases result
    exact ⟨preserves_trans fourth kept', Or.inr ⟨page_to_addr_ne_zero l1, by omega, image⟩⟩

end Creation
end Archarch.AddressSpaces
