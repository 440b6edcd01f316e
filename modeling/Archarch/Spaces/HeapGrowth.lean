import Mathlib.Data.Finset.Image
import Archarch.Spaces.Isolation
import Archarch.Spaces.PointUpdate

/- The mapping loop of SYS_SBRK. Mapping k pages is one change of the tree and of the memory
   around it; changes of adjoining ranges compose, and a loop that stops early has made the
   change of a shorter range. -/
namespace Archarch.AddressSpaces
open ByteMemory TranslationTables PageFrames

def hasTable (m : Mem) (pgd b : Nat) : Bool := (walk m pgd [0, b]).isSome

def regions (va k : Nat) : Finset Nat := (Finset.range k).image fun i => (va + i * pageSize) / 2 ^ 21

def mapCost (m : Mem) (pgd va k : Nat) : Nat :=
  k + ((regions va k).filter fun b => hasTable m pgd b = false).card

def IsTable (tree : Nat → Option Nat) (m : Mem) (a : Nat) : Prop :=
  ∃ l p, p.length < levels ∧ Occurs tree m l p a

/-- Pages va, va + PAGE_SIZE, ... of task n are mapped to new pages full of zeros, and
    nothing else in the trees and the pages of data changes. -/
structure Growth (base : Finset Nat) (tree : Nat → Option Nat) (n pgd : Nat) (s : Phys) (va k : Nat)
    (t : Phys) : Prop where
  trees : Trees base tree t
  used : usedSet s.pmm ⊆ usedSet t.pmm
  taken : ∀ page ∈ usedSet t.pmm, page ∉ usedSet s.pmm →
    (∃ b, Occurs tree t.mem n [0, b] (pageToAddr page)) ∨
      ∃ i, i < k ∧ Occurs tree t.mem n (leafPath (va + i * pageSize)) (pageToAddr page)
  mapped : ∀ i, i < k → ∃ page, page ∉ usedSet s.pmm ∧
    Occurs tree t.mem n (leafPath (va + i * pageSize)) (pageToAddr page) ∧
    ∀ o, o < 4096 → t.mem (pageToAddr page + o) = 0
  others : ∀ l p c, p.length = levels → (∀ i, i < k → ¬ (l = n ∧ p = leafPath (va + i * pageSize))) →
    (Occurs tree t.mem l p c ↔ Occurs tree s.mem l p c)
  tables : ∀ l p c, p.length < levels → Occurs tree s.mem l p c → Occurs tree t.mem l p c
  made : ∀ page ∈ usedSet s.pmm, ∀ l p, p.length < levels →
    Occurs tree t.mem l p (pageToAddr page) → Occurs tree s.mem l p (pageToAddr page)
  regions : ∀ b, b < 512 → (hasTable t.mem pgd b = true ↔
    hasTable s.mem pgd b = true ∨ b ∈ regions va k)
  bytes : ∀ page ∈ usedSet s.pmm, ¬ IsTable tree s.mem (pageToAddr page) →
    ∀ o, o < 4096 → t.mem (pageToAddr page + o) = s.mem (pageToAddr page + o)
  count : freeCount s.pmm = freeCount t.pmm + mapCost s.mem pgd va k

section Regions
variable {m : Mem} {pgd va b k j : Nat}

theorem mem_regions : b ∈ regions va k ↔ ∃ i, i < k ∧ (va + i * pageSize) / 2 ^ 21 = b := by
  simp [regions]

theorem regions_add (va j k : Nat) :
    regions va (j + k) = regions va j ∪ regions (va + j * pageSize) k := by
  ext b
  rw [Finset.mem_union, mem_regions, mem_regions, mem_regions]
  constructor
  · rintro ⟨i, bound, here⟩
    by_cases low : i < j
    · exact Or.inl ⟨i, low, here⟩
    · refine Or.inr ⟨i - j, by omega, ?_⟩
      rw [← here, page_size_eq]
      omega
  · rintro (⟨i, bound, here⟩ | ⟨i, bound, here⟩)
    · exact ⟨i, by omega, here⟩
    · refine ⟨j + i, by omega, ?_⟩
      rw [← here, page_size_eq]
      omega

theorem range_le (less : j ≤ k) (low : va + k * pageSize ≤ 2 ^ 30) : va + j * pageSize ≤ 2 ^ 30 :=
  (Nat.add_le_add_left (Nat.mul_le_mul_right _ less) _).trans low

theorem regions_lt (low : va + k * pageSize ≤ 2 ^ 30) (member : b ∈ regions va k) : b < 512 := by
  obtain ⟨i, bound, here⟩ := mem_regions.mp member
  rw [page_size_eq] at low here
  omega

theorem regions_zero (va : Nat) : regions va 0 = ∅ := rfl

theorem regions_one (va : Nat) : regions va 1 = {va / 2 ^ 21} := by
  simp [regions]

theorem map_cost_zero : mapCost m pgd va 0 = 0 := rfl

theorem map_cost_one : mapCost m pgd va 1 = if hasTable m pgd (va / 2 ^ 21) then 1 else 2 := by
  rw [mapCost, regions_one, Finset.filter_singleton]
  cases hasTable m pgd (va / 2 ^ 21) <;> rfl

/-- The cost of a range when the tables for its first part have been made. -/
theorem map_cost_add {k' : Mem} (low : va + (j + k) * pageSize ≤ 2 ^ 30)
    (made : ∀ b, b < 512 → (hasTable k' pgd b = true ↔
      hasTable m pgd b = true ∨ b ∈ regions va j)) :
    mapCost m pgd va (j + k) = mapCost m pgd va j + mapCost k' pgd (va + j * pageSize) k := by
  have absent : ∀ b, b < 512 → (hasTable k' pgd b = false ↔
      hasTable m pgd b = false ∧ b ∉ regions va j) := by
    intro b small
    rw [← Bool.not_eq_true, made b small, not_or, Bool.not_eq_true]
  have small : ∀ b, b ∈ regions va j ∨ b ∈ regions (va + j * pageSize) k → b < 512 := by
    intro b member
    rw [← Finset.mem_union, ← regions_add] at member
    exact regions_lt low member
  have split : (regions va (j + k)).filter (fun b => hasTable m pgd b = false) =
      (regions va j).filter (fun b => hasTable m pgd b = false) ∪
        (regions (va + j * pageSize) k).filter (fun b => hasTable k' pgd b = false) := by
    ext b
    rw [Finset.mem_filter, Finset.mem_union, Finset.mem_filter, Finset.mem_filter, regions_add,
      Finset.mem_union]
    by_cases member : b ∈ regions va j ∨ b ∈ regions (va + j * pageSize) k
    · rw [absent b (small b member)]
      tauto
    · tauto
  have apart : Disjoint ((regions va j).filter (fun b => hasTable m pgd b = false))
      ((regions (va + j * pageSize) k).filter (fun b => hasTable k' pgd b = false)) := by
    refine Finset.disjoint_left.mpr ?_
    intro b first second
    obtain ⟨member, none⟩ := Finset.mem_filter.mp second
    exact ((absent b (small b (Or.inr member))).mp none).2 (Finset.mem_filter.mp first).1
  rw [mapCost, mapCost, mapCost, split, Finset.card_union_of_disjoint apart]
  omega

theorem map_cost_mono (less : j ≤ k) : mapCost m pgd va j ≤ mapCost m pgd va k := by
  obtain ⟨i, rfl⟩ := Nat.exists_eq_add_of_le less
  have sub : (regions va j).filter (fun b => hasTable m pgd b = false) ⊆
      (regions va (j + i)).filter (fun b => hasTable m pgd b = false) := by
    refine Finset.filter_subset_filter _ ?_
    rw [regions_add]
    exact Finset.subset_union_left
  have := Finset.card_le_card sub
  rw [mapCost, mapCost]
  omega

end Regions

section Growth
variable {base : Finset Nat} {tree : Nat → Option Nat} {n pgd va k j : Nat} {s t u : Phys}

theorem leaf_path_ne {va wa : Nat} (first : va < 2 ^ 30) (second : wa < 2 ^ 30)
    (apart : va / 4096 ≠ wa / 4096) : leafPath va ≠ leafPath wa := by
  intro same
  exact apart (leaf_path_eq (by rw [vaLimit]; omega) (by rw [vaLimit]; omega) same)

theorem leaf_not_table {page : Nat} {p : List Nat} (trees : Trees base tree s)
    (here : Occurs tree s.mem n p (pageToAddr page)) (depth : p.length = levels) :
    ¬ IsTable tree s.mem (pageToAddr page) := by
  rintro ⟨l, q, short, there⟩
  obtain ⟨_, rfl⟩ := trees.unique n l p q _ here there
  omega

theorem growth_zero (trees : Trees base tree s) : Growth base tree n pgd s va 0 s := by
  refine ⟨trees, Finset.Subset.refl _, ?_, ?_, ?_, ?_, ?_, ?_, ?_, ?_⟩
  · intro page used unused
    exact absurd used unused
  · intro i bound
    omega
  · intro l p c _ _
    exact Iff.rfl
  · intro l p c _ here
    exact here
  · intro page _ l p _ here
    exact here
  · intro b _
    simp [regions_zero]
  · intro page _ _ o _
    rfl
  · rw [map_cost_zero, Nat.add_zero]

theorem growth_trans (low : va + (j + k) * pageSize ≤ 2 ^ 30) (aligned : va % 4096 = 0)
    (first : Growth base tree n pgd s va j u)
    (second : Growth base tree n pgd u (va + j * pageSize) k t) :
    Growth base tree n pgd s va (j + k) t := by
  have place : ∀ i, va + j * pageSize + i * pageSize = va + (j + i) * pageSize := by
    intro i
    rw [page_size_eq]
    omega
  -- the pages of the first part stay where they are
  have stays : ∀ i c, i < j → (Occurs tree t.mem n (leafPath (va + i * pageSize)) c ↔
      Occurs tree u.mem n (leafPath (va + i * pageSize)) c) := by
    intro i c early
    refine second.others n _ c rfl ?_
    rintro x inside ⟨_, same⟩
    rw [place] at same
    rw [page_size_eq] at same low
    exact leaf_path_ne (by omega) (by omega) (by omega) same
  refine ⟨second.trees, first.used.trans second.used, ?_, ?_, ?_, ?_, ?_, ?_, ?_, ?_⟩
  · intro page used unused
    by_cases early : page ∈ usedSet u.pmm
    · rcases first.taken page early unused with ⟨b, here⟩ | ⟨i, bound, here⟩
      · exact Or.inl ⟨b, second.tables n _ _ (by simp [levels]) here⟩
      · exact Or.inr ⟨i, by omega, (stays i _ bound).mpr here⟩
    · rcases second.taken page used early with table | ⟨i, bound, here⟩
      · exact Or.inl table
      · rw [place] at here
        exact Or.inr ⟨j + i, by omega, here⟩
  · intro i bound
    by_cases early : i < j
    · obtain ⟨page, fresh, here, zero⟩ := first.mapped i early
      obtain ⟨other, same, used, _⟩ := first.trees.owned n _ _ here
      refine ⟨page, fresh, (stays i _ early).mpr here, ?_⟩
      intro o small
      rw [second.bytes page (by rw [page_to_addr_injective same]; exact used)
        (leaf_not_table first.trees here rfl) o small]
      exact zero o small
    · obtain ⟨page, fresh, here, zero⟩ := second.mapped (i - j) (by omega)
      rw [place, show j + (i - j) = i by omega] at here
      exact ⟨page, fun member => fresh (first.used member), here, zero⟩
  · intro l p c depth outside
    refine (second.others l p c depth ?_).trans (first.others l p c depth ?_)
    · intro x inside
      rw [place]
      exact outside (j + x) (by omega)
    · intro x inside
      exact outside x (by omega)
  · intro l p c short here
    exact second.tables l p c short (first.tables l p c short here)
  · intro page used l p short here
    exact first.made page used l p short (second.made page (first.used used) l p short here)
  · intro b small
    rw [second.regions b small, first.regions b small, regions_add, Finset.mem_union, or_assoc]
  · intro page used data o small
    have still : ¬ IsTable tree u.mem (pageToAddr page) := by
      rintro ⟨l, p, short, here⟩
      exact data ⟨l, p, short, first.made page used l p short here⟩
    rw [second.bytes page (first.used used) still o small]
    exact first.bytes page used data o small
  · rw [first.count, second.count, map_cost_add low first.regions]
    omega

end Growth

/- One page -/

section OnePage
variable {base : Finset Nat} {tree : Nat → Option Nat} {n pgd va new l c : Nat} {s t u : Phys}
variable {q : Pmm} {made : Option Nat} {r : Int}

theorem has_table_iff {m : Mem} {b : Nat} (root : tree n = some pgd) (small : b < 512) :
    hasTable m pgd b = true ↔ ∃ c, Occurs tree m n [0, b] c := by
  rw [hasTable, Option.isSome_iff_exists]
  refine exists_congr fun c => ?_
  constructor
  · intro found
    exact ⟨⟨by simp [levels], by simp [small]⟩, pgd, root, found⟩
  · rintro ⟨_, r, root', found⟩
    rw [root] at root'
    cases root'
    exact found

theorem next_table_present {p : List Nat} {i page : Nat} (trees : Trees base tree s)
    (here : Occurs tree s.mem n p (pageToAddr page)) (short : p.length + 1 < levels) (small : i < 512)
    (there : Occurs tree s.mem n (p ++ [i]) c) : nextTable s (pageToAddr page) i = (c, s) := by
  obtain ⟨present, target⟩ := (occurs_snoc here (by omega) small).mp there
  have fits := (trees.entries n p _ i here (by omega) small).resolve_left (by
    intro zero
    rw [zero] at present
    exact absurd present (by decide))
  rcases next_table_cases s (pageToAddr page) i with ⟨_, result⟩ | ⟨absent, _⟩
  · rw [result, entry_table_eq (fits.2 short), target]
  · exact absurd present absent

section Walked
variable (trees : Trees base tree s) (sub : base ⊆ usedSet s.pmm) (root : tree n = some pgd)
variable (low : va < 2 ^ 30) (inside : new < totalPages) (fresh : new ∉ usedSet s.pmm)
variable (taken : usedSet q = insert new (usedSet s.pmm))
variable (level : NextLevel (insert new base) tree n [0] (va / 2 ^ 21)
  ⟨zeroPage s.mem (pageToAddr new), q⟩ l u made)
variable (walked : Trees (insert new base) tree u)
include trees fresh taken level walked

include sub low in
theorem leaf_set_trees :
    Trees base tree ⟨setEntry u.mem l (va / 2 ^ 12 % 512) (pageEntry (pageToAddr new)), u.pmm⟩ ∧
      ∀ k r c, Occurs tree (setEntry u.mem l (va / 2 ^ 12 % 512) (pageEntry (pageToAddr new))) k r c ↔
        ((Occurs tree s.mem k r c ∨
          (k = n ∧ r = [0, va / 2 ^ 21] ∧ ∃ x, made = some x ∧ c = pageToAddr x)) ∧
            ¬ (k = n ∧ r = leafPath va)) ∨ (k = n ∧ r = leafPath va ∧ c = pageToAddr new) := by
  obtain ⟨_, cleared⟩ := alloc_table_trees trees fresh taken
  have path : leafPath va = [0] ++ [va / 2 ^ 21] ++ [va / 2 ^ 12 % 512] := by
    simp only [leafPath, List.cons_append, List.nil_append, List.cons.injEq, and_true]
    omega
  have member : new ∈ usedSet u.pmm := by
    rw [level.used, taken]
    exact Finset.mem_union_left _ (Finset.mem_insert_self _ _)
  obtain ⟨linked, exactly⟩ := set_leaf_trees (i := va / 2 ^ 12 % 512)
    (trees_base walked (Finset.subset_insert _ _)) level.here rfl (by omega) member
    (fun here => fresh (sub here)) (by
      intro k r found
      exact (held_page.mp (walked.owned k r _ found)).2 (Finset.mem_insert_self _ _))
  refine ⟨linked, ?_⟩
  intro k r c
  rw [exactly, level.occurs, cleared, path]
  exact Iff.rfl

theorem leaf_set_bytes {page o : Nat} (used : page ∈ usedSet q) (other : pageToAddr page ≠ l)
    (second : ¬ Occurs tree s.mem n [0] (pageToAddr page)) (small : o < 4096) :
    setEntry u.mem l (va / 2 ^ 12 % 512) (pageEntry (pageToAddr new)) (pageToAddr page + o) =
      zeroPage s.mem (pageToAddr new) (pageToAddr page + o) := by
  obtain ⟨_, cleared⟩ := alloc_table_trees trees fresh taken
  obtain ⟨table, rfl, _⟩ := walked.owned n _ l level.here
  have apart : page ≠ table := by
    rintro rfl
    exact other rfl
  refine Eq.trans (write64_outside ?_) (level.bytes page used ?_ o small)
  · rw [page_to_addr_eq, page_to_addr_eq]
    omega
  · intro found
    exact second ((cleared n _ _).mp found)

omit trees fresh walked in
theorem made_unused : ∀ x, made = some x → x ∉ usedSet s.pmm := by
  intro x same member
  apply (level.fresh x same).1
  rw [taken]
  exact Finset.mem_insert_of_mem member

omit walked in
theorem walked_to : Occurs tree s.mem n [0, va / 2 ^ 21] l ∨ ∃ x, made = some x := by
  obtain ⟨_, cleared⟩ := alloc_table_trees trees fresh taken
  rcases (level.occurs n _ l).mp level.here with before | ⟨_, _, x, same, _⟩
  · exact Or.inl ((cleared n _ l).mp before)
  · exact Or.inr ⟨x, same⟩

include root low inside

omit walked in
theorem leaf_cost : freeCount s.pmm = freeCount u.pmm + mapCost s.mem pgd va 1 := by
  obtain ⟨_, cleared⟩ := alloc_table_trees trees fresh taken
  have first := free_count_insert inside fresh taken
  rw [map_cost_one]
  cases hm : made with
  | none =>
    have there : hasTable s.mem pgd (va / 2 ^ 21) = true := by
      refine (has_table_iff root (by omega)).mpr ⟨l, ?_⟩
      rcases walked_to trees fresh taken level with before | ⟨x, same⟩
      · exact before
      · rw [hm] at same
        cases same
    have equal : usedSet u.pmm = usedSet q := by
      rw [level.used, hm, Option.toFinset_none, Finset.union_empty]
    have second : freeCount u.pmm = freeCount q := by rw [freeCount, freeCount, equal]
    rw [there, if_pos rfl]
    show freeCount s.pmm = freeCount u.pmm + 1
    omega
  | some x =>
    have absent : hasTable s.mem pgd (va / 2 ^ 21) = false := by
      rw [← Bool.not_eq_true, has_table_iff root (by omega)]
      rintro ⟨c, found⟩
      exact (level.fresh x hm).2.2 c ((cleared n _ c).mpr found)
    have equal : usedSet u.pmm = insert x (usedSet q) := by
      rw [level.used, hm, Option.toFinset_some, Finset.union_comm, Finset.insert_eq]
    have member : x ∈ usedSet u.pmm := by
      rw [equal]
      exact Finset.mem_insert_self _ _
    have second : freeCount q = freeCount u.pmm + 1 :=
      free_count_insert (mem_used_set.mp member).1 (level.fresh x hm).1 equal
    rw [absent, if_neg (by decide)]
    show freeCount s.pmm = freeCount u.pmm + 2
    omega

include sub

omit root inside in
theorem leaf_old_tables {page k : Nat} {r : List Nat} (member : page ∈ usedSet s.pmm) (few : r.length < levels)
    (found : Occurs tree (setEntry u.mem l (va / 2 ^ 12 % 512) (pageEntry (pageToAddr new))) k r (pageToAddr page)) :
    Occurs tree s.mem k r (pageToAddr page) := by
  obtain ⟨_, exactly⟩ := leaf_set_trees trees sub low fresh taken level walked
  rcases (exactly k r _).mp found with ⟨before | ⟨_, _, x, same, equal⟩, _⟩ | ⟨_, rfl, _⟩
  · exact before
  · rw [page_to_addr_injective equal] at member
    exact absurd member (made_unused taken level x same)
  · exact absurd few (Nat.lt_irrefl levels)

omit sub root low inside in
theorem leaf_page_zero {o : Nat} (small : o < 4096) :
    setEntry u.mem l (va / 2 ^ 12 % 512) (pageEntry (pageToAddr new)) (pageToAddr new + o) = 0 := by
  have member : new ∈ usedSet q := by
    rw [taken]
    exact Finset.mem_insert_self _ _
  refine (leaf_set_bytes trees fresh taken level walked member ?_ ?_ small).trans ?_
  · intro same
    have owned := walked.owned n _ l level.here
    rw [← same] at owned
    exact (held_page.mp owned).2 (Finset.mem_insert_self _ _)
  · exact unused_not_occurs trees fresh
  · refine fill_inside ?_
    rw [page_size_eq]
    omega

omit inside in
theorem leaf_has_table {b : Nat} (small : b < 512) :
    hasTable (setEntry u.mem l (va / 2 ^ 12 % 512) (pageEntry (pageToAddr new))) pgd b = true ↔
      hasTable s.mem pgd b = true ∨ b = va / 2 ^ 21 := by
  obtain ⟨_, exactly⟩ := leaf_set_trees trees sub low fresh taken level walked
  have short : ∀ c, ¬ (n = n ∧ [0, c] = leafPath va) := by
    rintro c ⟨_, same⟩
    simp [leafPath] at same
  rw [has_table_iff root small, has_table_iff root small]
  constructor
  · rintro ⟨c, found⟩
    rcases (exactly n _ c).mp found with ⟨before | ⟨_, same, _⟩, _⟩ | ⟨_, same, _⟩
    · exact Or.inl ⟨c, before⟩
    · simp only [List.cons.injEq, and_true, true_and] at same
      exact Or.inr same
    · simp [leafPath] at same
  · rintro (⟨c, before⟩ | rfl)
    · exact ⟨c, (exactly n _ c).mpr (Or.inl ⟨Or.inl before, short b⟩)⟩
    · rcases walked_to trees fresh taken level with before | ⟨x, same⟩
      · exact ⟨_, (exactly n _ _).mpr (Or.inl ⟨Or.inl before, short _⟩)⟩
      · exact ⟨_, (exactly n _ _).mpr (Or.inl ⟨Or.inr ⟨rfl, rfl, x, same, rfl⟩, short _⟩)⟩

theorem leaf_grows :
    Growth base tree n pgd s va 1
      ⟨setEntry u.mem l (va / 2 ^ 12 % 512) (pageEntry (pageToAddr new)), u.pmm⟩ := by
  obtain ⟨linked, exactly⟩ := leaf_set_trees trees sub low fresh taken level walked
  have here : leafPath (va + 0 * pageSize) = leafPath va := by
    rw [Nat.zero_mul, Nat.add_zero]
  have old : ∀ page, page ∈ usedSet s.pmm → page ∈ usedSet q := by
    intro page member
    rw [taken]
    exact Finset.mem_insert_of_mem member
  have used : usedSet s.pmm ⊆ usedSet u.pmm := by
    intro page member
    rw [level.used]
    exact Finset.mem_union_left _ (old page member)
  have short : ∀ {k r}, r.length < levels → ¬ (k = n ∧ r = leafPath va) := by
    rintro k r few ⟨_, rfl⟩
    exact Nat.lt_irrefl levels few
  refine ⟨linked, used, ?_, ?_, ?_, ?_, ?_, ?_, ?_, ?_⟩
  · intro page member unused
    rw [level.used, taken, Finset.mem_union, Finset.mem_insert, Option.mem_toFinset] at member
    rcases member with (rfl | before) | same
    · refine Or.inr ⟨0, Nat.one_pos, ?_⟩
      rw [here]
      exact (exactly n _ _).mpr (Or.inr ⟨rfl, rfl, rfl⟩)
    · exact absurd before unused
    · exact Or.inl ⟨va / 2 ^ 21, (exactly n _ _).mpr
        (Or.inl ⟨Or.inr ⟨rfl, rfl, page, same, rfl⟩, short (by simp [levels])⟩)⟩
  · intro i bound
    obtain rfl : i = 0 := by omega
    rw [here]
    exact ⟨new, fresh, (exactly n _ _).mpr (Or.inr ⟨rfl, rfl, rfl⟩),
      fun o small => leaf_page_zero trees fresh taken level walked small⟩
  · intro k p c depth outside
    have apart : ¬ (k = n ∧ p = leafPath va) := by
      rw [← here]
      exact outside 0 Nat.one_pos
    refine (exactly k p c).trans ?_
    constructor
    · rintro (⟨before | ⟨_, rfl, _⟩, _⟩ | ⟨rfl, rfl, _⟩)
      · exact before
      · exact absurd depth (by simp [levels])
      · exact absurd ⟨rfl, rfl⟩ apart
    · intro before
      exact Or.inl ⟨Or.inl before, apart⟩
  · intro k p c few before
    exact (exactly k p c).mpr (Or.inl ⟨Or.inl before, short few⟩)
  · intro page member k r few found
    exact leaf_old_tables trees sub low fresh taken level walked member few found
  · intro b small
    rw [regions_one, Finset.mem_singleton]
    exact leaf_has_table trees sub root low fresh taken level walked small
  · intro page member data o small
    have second : ¬ Occurs tree s.mem n [0] (pageToAddr page) :=
      fun found => data ⟨n, _, by simp [levels], found⟩
    refine (leaf_set_bytes trees fresh taken level walked (old page member) ?_ second small).trans ?_
    · rintro rfl
      rcases walked_to trees fresh taken level with before | ⟨x, same⟩
      · exact data ⟨n, _, by simp [levels], before⟩
      · rw [page_to_addr_injective (level.fresh x same).2.1] at member
        exact made_unused taken level x same member
    · exact (preserves_alloc_table (Finset.Subset.refl _) fresh taken).bytes page member o small
  · have cost := leaf_cost trees root low inside fresh taken level
    exact cost

end Walked

theorem map_user_page_grows (trees : Trees base tree s) (sub : base ⊆ usedSet s.pmm)
    (root : tree n = some pgd) (second : Occurs tree s.mem n [0] c) (low : va < 2 ^ 30)
    (inside : new < totalPages) (fresh : new ∉ usedSet s.pmm)
    (taken : usedSet q = insert new (usedSet s.pmm))
    (result : mmuMapUserPageInPgd ⟨zeroPage s.mem (pageToAddr new), q⟩ pgd va (pageToAddr new) = (r, t)) :
    (r = -1 ∧ t = ⟨zeroPage s.mem (pageToAddr new), q⟩ ∧ freeCount s.pmm < mapCost s.mem pgd va 1) ∨
      (r = 0 ∧ Growth base tree n pgd s va 1 t) := by
  have zeroed := fresh_page_trees trees fresh taken
  obtain ⟨_, cleared⟩ := alloc_table_trees trees fresh taken
  have both : insert new base ⊆ usedSet q := by
    rw [taken]
    exact Finset.insert_subset_insert _ sub
  have top : Occurs tree (zeroPage s.mem (pageToAddr new)) n [] pgd := ⟨valid_nil, pgd, root, rfl⟩
  have next : Occurs tree (zeroPage s.mem (pageToAddr new)) n ([] ++ [0]) c := (cleared n _ c).mpr second
  obtain ⟨p1, rfl, _⟩ := zeroed.owned n [] pgd top
  obtain ⟨p2, rfl, _⟩ := zeroed.owned n _ c next
  unfold mmuMapUserPageInPgd at result
  simp only [index_eq, Nat.shiftRight_eq_div_pow] at result
  have zero : va / 2 ^ 30 % 512 = 0 := by omega
  have region : va / 2 ^ 21 % 512 = va / 2 ^ 21 := by omega
  rw [zero, region, next_table_present zeroed top (by simp [levels]) (by decide) next,
    if_page_some (page_to_addr_ne_zero p2)] at result
  rcases last : nextTable ⟨zeroPage s.mem (pageToAddr new), q⟩ (pageToAddr p2) (va / 2 ^ 21) with ⟨l3, u⟩
  rw [last] at result
  rcases next_level (forest_tables zeroed) both next (by simp [levels]) (by omega) last with
    ⟨rfl, rfl, full, absent⟩ | ⟨made, level⟩
  · rw [if_page_none] at result
    cases result
    refine Or.inl ⟨rfl, rfl, ?_⟩
    have none : hasTable s.mem (pageToAddr p1) (va / 2 ^ 21) = false := by
      rw [← Bool.not_eq_true, has_table_iff root (by omega)]
      rintro ⟨c, found⟩
      exact absent c ((cleared n _ c).mpr found)
    have last : freeCount q = 0 := free_count_zero_iff.mpr full
    have count := free_count_insert inside fresh taken
    rw [map_cost_one, none, if_neg (by decide)]
    omega
  · rcases next_table_trees zeroed both next (by simp [levels]) (by omega) last with
      ⟨rfl, rfl, _⟩ | walked
    · obtain ⟨page, same, _⟩ := zeroed.owned n _ _ level.here
      exact absurd same.symm (page_to_addr_ne_zero page)
    · obtain ⟨p3, rfl, _⟩ := walked.trees.owned n _ l3 walked.here
      rw [if_page_some (page_to_addr_ne_zero p3)] at result
      cases result
      exact Or.inr ⟨rfl, leaf_grows trees sub root low inside fresh taken level walked.trees⟩

/-- The loop maps a first part of its range; it fails when the page after this part costs
    more than is left, and changes nothing more then. -/
structure Looped (base : Finset Nat) (tree : Nat → Option Nat) (n pgd : Nat) (s : Phys) (va k : Nat)
    (failed : Bool) (t : Phys) (j : Nat) (u : Phys) : Prop where
  grown : Growth base tree n pgd s va j u
  within : j ≤ k
  whole : failed = false → j = k ∧ t = u
  stopped : failed = true → j < k ∧ t.pmm = u.pmm ∧ Preserves (usedSet u.pmm) u t ∧
    freeCount u.pmm < mapCost u.mem pgd (va + j * pageSize) 1

theorem sbrk_pages_grow {k : Nat} {failed : Bool} (trees : Trees base tree s)
    (sub : base ⊆ usedSet s.pmm) (root : tree n = some pgd) (second : Occurs tree s.mem n [0] c)
    (low : va + k * pageSize ≤ 2 ^ 30) (aligned : va % 4096 = 0)
    (result : sbrkPages s pgd va k = (failed, t)) :
    ∃ j u, Looped base tree n pgd s va k failed t j u := by
  induction k generalizing s va with
  | zero =>
    cases result
    exact ⟨0, t, growth_zero trees, Nat.le_refl _, fun _ => ⟨rfl, rfl⟩, fun h => Bool.noConfusion h⟩
  | succ k ih =>
    have start : va + 0 * pageSize = va := by rw [Nat.zero_mul, Nat.add_zero]
    have bound : va < 2 ^ 30 := by
      rw [page_size_eq] at low
      omega
    rw [sbrkPages] at result
    rcases pmm_alloc_page_cases s.pmm with ⟨none, full⟩ | ⟨new, q, inside, fresh, some, taken, _, _⟩
    · rw [none, if_page_none] at result
      cases result
      refine ⟨0, s, growth_zero trees, Nat.zero_le _, fun h => Bool.noConfusion h, ?_⟩
      intro _
      have zero : freeCount s.pmm = 0 := free_count_zero_iff.mpr full
      have cost : 1 ≤ mapCost s.mem pgd va 1 := Nat.le_add_right _ _
      rw [start]
      exact ⟨Nat.succ_pos k, rfl, preserves_refl _ _, by omega⟩
    rw [some, if_page_some (page_to_addr_ne_zero new)] at result
    dsimp only at result
    rcases mapped : mmuMapUserPageInPgd ⟨zeroPage s.mem (pageToAddr new), q⟩ pgd va
      (pageToAddr new) with ⟨r, u⟩
    rw [mapped] at result
    rcases map_user_page_grows trees sub root second bound inside fresh taken mapped with
      ⟨rfl, rfl, short⟩ | ⟨rfl, one⟩
    · rw [if_pos (show (-1 : Int) < 0 by decide)] at result
      cases result
      have undone : pmmFreePage q (pageToAddr new) = s.pmm := pmm_alloc_page_undone some
      refine ⟨0, s, growth_zero trees, Nat.zero_le _, fun h => Bool.noConfusion h, ?_⟩
      intro _
      rw [start]
      refine ⟨Nat.succ_pos k, undone, ⟨fun _ => ?_, ?_⟩, short⟩
      · rw [undone]
      · exact (preserves_alloc_table (Finset.Subset.refl _) fresh taken).bytes
    · rw [if_neg (show ¬ (0 : Int) < 0 by decide)] at result
      obtain ⟨j, w, rest⟩ := ih one.trees (sub.trans one.used)
        (one.tables n _ c (by simp [levels]) second)
        (by rw [page_size_eq] at low ⊢; omega) (by rw [page_size_eq]; omega) result
      have step : va + pageSize = va + 1 * pageSize := by rw [Nat.one_mul]
      have more : ∀ i, va + (i + 1) * pageSize = va + pageSize + i * pageSize := by
        intro i
        rw [page_size_eq]
        omega
      refine ⟨j + 1, w, ?_, by have := rest.within; omega, ?_, ?_⟩
      · rw [Nat.add_comm j 1]
        refine growth_trans ?_ aligned one ?_
        · have := rest.within
          exact range_le (by omega) low
        · rw [← step]
          exact rest.grown
      · intro done
        obtain ⟨all, same⟩ := rest.whole done
        exact ⟨by omega, same⟩
      · intro stopped
        obtain ⟨early, same, kept, short⟩ := rest.stopped stopped
        rw [more]
        exact ⟨by omega, same, kept, short⟩

theorem looped_failed_iff {va k j : Nat} {failed : Bool} (low : va + k * pageSize ≤ 2 ^ 30)
    (looped : Looped base tree n pgd s va k failed t j u) :
    failed = true ↔ freeCount s.pmm < mapCost s.mem pgd va k := by
  have count := looped.grown.count
  constructor
  · intro yes
    obtain ⟨early, _, _, short⟩ := looped.stopped yes
    have bound : va + (j + 1) * pageSize ≤ 2 ^ 30 := range_le early low
    have next := map_cost_add bound looped.grown.regions
    have less : mapCost s.mem pgd va (j + 1) ≤ mapCost s.mem pgd va k := map_cost_mono early
    omega
  · intro short
    cases failed with
    | true => rfl
    | false =>
      rw [(looped.whole rfl).1] at count
      omega

end OnePage
end Archarch.AddressSpaces
