import Archarch.Spaces.PageTables

/- What the functions of mmu.c do to a forest of tables. A base is a set of pages that a
   tree may not use: the reserved pages for the trees of the tasks, all pages used before
   for a tree under construction. -/
namespace Archarch.AddressSpaces
open ByteMemory TranslationTables PageFrames

def Held (base : Finset Nat) (s : Phys) (a : Nat) : Prop :=
  ∃ page, a = pageToAddr page ∧ page ∈ usedSet s.pmm ∧ page ∉ base

abbrev Trees (base : Finset Nat) (roots : Nat → Option Nat) (s : Phys) : Prop :=
  Forest (Held base s) roots s.mem

structure Preserves (base : Finset Nat) (s t : Phys) : Prop where
  used : base ⊆ usedSet s.pmm → base ⊆ usedSet t.pmm
  bytes : ∀ page ∈ base, ∀ o, o < 4096 → t.mem (pageToAddr page + o) = s.mem (pageToAddr page + o)

section Held
variable {base more : Finset Nat} {roots : Nat → Option Nat} {s t : Phys} {page other i o a : Nat}
variable {n e : Nat} {p : List Nat}

theorem page_to_addr_lt (inside : page < totalPages) : pageToAddr page < 2 ^ 48 := by
  rw [total_pages_eq] at inside
  rw [page_to_addr_eq]
  omega

theorem page_to_addr_aligned (page : Nat) : pageToAddr page % 4096 = 0 := by
  rw [page_to_addr_eq]
  omega

theorem held_page : Held base s (pageToAddr page) ↔ page ∈ usedSet s.pmm ∧ page ∉ base := by
  constructor
  · rintro ⟨other, same, used, outside⟩
    rw [page_to_addr_injective same]
    exact ⟨used, outside⟩
  · rintro ⟨used, outside⟩
    exact ⟨page, rfl, used, outside⟩

theorem held_aligned : PageAligned (Held base s) := by
  rintro a ⟨page, rfl, used, _⟩
  exact ⟨page_to_addr_aligned page, page_to_addr_lt (mem_used_set.mp used).1⟩

theorem trees_base (trees : Trees more roots s) (sub : base ⊆ more) : Trees base roots s := by
  refine forest_own trees ?_
  intro n p a here
  obtain ⟨page, rfl, used, outside⟩ := trees.owned n p a here
  exact held_page.mpr ⟨used, fun member => outside (sub member)⟩

theorem unused_not_occurs (trees : Trees base roots s) (unused : page ∉ usedSet s.pmm) :
    ¬ Occurs roots s.mem n p (pageToAddr page) := by
  intro here
  exact unused (held_page.mp (trees.owned n p _ here)).1

theorem trees_frame (trees : Trees base roots s) (used : usedSet s.pmm ⊆ usedSet t.pmm)
    (same : ∀ page, page ∈ usedSet s.pmm → page ∉ base → ∀ o, o < 4096 →
      t.mem (pageToAddr page + o) = s.mem (pageToAddr page + o)) :
    Trees base roots t ∧ ∀ n p a, Occurs roots t.mem n p a ↔ Occurs roots s.mem n p a := by
  have tables : ∀ n p a, Occurs roots s.mem n p a → p.length < levels →
      ∀ o, o < 4096 → t.mem (a + o) = s.mem (a + o) := by
    intro n p a here _
    obtain ⟨page, rfl, member, outside⟩ := trees.owned n p a here
    exact same page member outside
  have walks : ∀ n r q, roots n = some r → ValidPath q → walk t.mem r q = walk s.mem r q :=
    fun n r q root valid => forest_frame_walk tables root valid
  have occurs : ∀ n p a, Occurs roots t.mem n p a ↔ Occurs roots s.mem n p a :=
    fun n p a => occurs_frame walks
  refine ⟨forest_own (forest_frame trees tables) ?_, occurs⟩
  intro n p a here
  obtain ⟨page, rfl, member, outside⟩ := trees.owned n p a ((occurs n p a).mp here)
  exact held_page.mpr ⟨used member, outside⟩

theorem preserves_refl (base : Finset Nat) (s : Phys) : Preserves base s s :=
  ⟨id, fun _ _ _ _ => rfl⟩

theorem preserves_trans {u : Phys} (first : Preserves base s t) (second : Preserves base t u) :
    Preserves base s u := by
  refine ⟨fun sub => second.used (first.used sub), ?_⟩
  intro page member o small
  rw [second.bytes page member o small, first.bytes page member o small]

theorem preserves_pmm {m : Mem} {p q : Pmm} (used : base ⊆ usedSet p → base ⊆ usedSet q) :
    Preserves base ⟨m, p⟩ ⟨m, q⟩ := ⟨used, fun _ _ _ _ => rfl⟩

theorem preserves_base (sub : base ⊆ more) (preserves : Preserves more s t)
    (here : more ⊆ usedSet s.pmm) : Preserves base s t :=
  ⟨fun _ => sub.trans (preserves.used here), fun page member => preserves.bytes page (sub member)⟩

theorem preserves_set_entry {q : Pmm} {m : Mem} (outside : page ∉ base) (small : i < 512) :
    Preserves base ⟨m, q⟩ ⟨setEntry m (pageToAddr page) i e, q⟩ := by
  refine ⟨id, ?_⟩
  intro other member o inside
  have apart : other ≠ page := by
    rintro rfl
    exact outside member
  refine write64_outside ?_
  rw [page_to_addr_eq, page_to_addr_eq]
  omega

theorem preserves_fill {q : Pmm} {m : Mem} {first n : Nat} {f : Nat → BitVec 8}
    (outside : ∀ page ∈ base, page < first ∨ first * 4096 + n ≤ page * 4096) :
    Preserves base ⟨m, q⟩ ⟨fill m (pageToAddr first) n f, q⟩ := by
  refine ⟨id, ?_⟩
  intro page member o inside
  have apart := outside page member
  refine fill_outside ?_
  rw [page_to_addr_eq, page_to_addr_eq]
  omega

theorem alloc_table_cases (s : Phys) :
    allocTable s = (0, s) ∧ usedSet s.pmm = Finset.range totalPages ∨
    ∃ page q, page < totalPages ∧ page ∉ usedSet s.pmm ∧
      allocTable s = (pageToAddr page, ⟨zeroPage s.mem (pageToAddr page), q⟩) ∧
      usedSet q = insert page (usedSet s.pmm) := by
  unfold allocTable
  rcases pmm_alloc_page_cases s.pmm with ⟨result, full⟩ | ⟨page, q, inside, fresh, result, used, _, _⟩
  · rw [result]
    exact Or.inl ⟨rfl, full⟩
  · rw [result]
    exact Or.inr ⟨page, q, inside, fresh, if_page_some (page_to_addr_ne_zero page) _ _ _, used⟩

theorem alloc_table_undone {t : Phys} (taken : allocTable s = (pageToAddr page, t)) :
    pmmFreePage t.pmm (pageToAddr page) = s.pmm := by
  unfold allocTable at taken
  rcases pmm_alloc_page_cases s.pmm with ⟨none, _⟩ | ⟨other, q, _, _, some, _⟩
  · rw [none, if_page_none] at taken
    exact absurd (congrArg Prod.fst taken).symm (page_to_addr_ne_zero page)
  · rw [some, if_page_some (page_to_addr_ne_zero other), Prod.mk.injEq] at taken
    obtain ⟨same, rfl⟩ := taken
    rw [← same]
    exact pmm_alloc_page_undone some

theorem preserves_alloc_table {q : Pmm} {m : Mem} {p : Pmm} (sub : base ⊆ usedSet p)
    (fresh : page ∉ usedSet p) (used : usedSet q = insert page (usedSet p)) :
    Preserves base ⟨m, p⟩ ⟨zeroPage m (pageToAddr page), q⟩ := by
  have apart : ∀ other ∈ base, other ≠ page := by
    rintro other member rfl
    exact fresh (sub member)
  refine preserves_trans (preserves_fill ?_) (preserves_pmm ?_)
  · intro other member
    have := apart other member
    rw [page_size_eq]
    omega
  · intro _ other member
    rw [used]
    exact Finset.mem_insert_of_mem (sub member)

theorem zero_page_entries {m : Mem} {j : Nat} (small : j < 512) :
    entryAt (zeroPage m a) a j = 0 := by
  refine read64_fill_zero ?_
  rw [page_size_eq]
  omega

theorem alloc_table_trees {m : Mem} {p q : Pmm} (trees : Trees base roots ⟨m, p⟩)
    (fresh : page ∉ usedSet p) (used : usedSet q = insert page (usedSet p)) :
    Trees base roots ⟨zeroPage m (pageToAddr page), q⟩ ∧
      ∀ k r c, Occurs roots (zeroPage m (pageToAddr page)) k r c ↔ Occurs roots m k r c := by
  have preserves := preserves_alloc_table (m := m) (Finset.Subset.refl _) fresh used
  refine trees_frame (t := ⟨zeroPage m (pageToAddr page), q⟩) trees ?_ ?_
  · rw [used]
    exact Finset.subset_insert _ _
  · intro other member _ o small
    exact preserves.bytes other member o small

theorem fresh_page_trees {m : Mem} {p q : Pmm} (trees : Trees base roots ⟨m, p⟩) (fresh : page ∉ usedSet p)
    (used : usedSet q = insert page (usedSet p)) :
    Trees (insert page base) roots ⟨zeroPage m (pageToAddr page), q⟩ := by
  obtain ⟨zeroed, occurs⟩ := alloc_table_trees trees fresh used
  refine forest_own zeroed ?_
  intro l path a found
  obtain ⟨other, rfl, usedOther, outside⟩ := zeroed.owned l path a found
  refine held_page.mpr ⟨usedOther, ?_⟩
  intro member
  rcases Finset.mem_insert.mp member with rfl | member
  · exact unused_not_occurs trees fresh ((occurs l path _).mp found)
  · exact outside member

theorem link_table_trees {m : Mem} {q : Pmm} (trees : Trees base roots ⟨m, q⟩)
    (here : Occurs roots m n p a) (short : p.length + 1 < levels) (small : i < 512)
    (used : page ∈ usedSet q) (outside : page ∉ base)
    (fresh : ∀ k r, ¬ Occurs roots m k r (pageToAddr page))
    (empty : ∀ j, j < 512 → entryAt m (pageToAddr page) j = 0) :
    Trees base roots ⟨setEntry m a i (tableEntry (pageToAddr page)), q⟩ ∧
      ∀ k r c, Occurs roots (setEntry m a i (tableEntry (pageToAddr page))) k r c ↔
        (Occurs roots m k r c ∧ ¬ (k = n ∧ (p ++ [i]) <+: r)) ∨
          (k = n ∧ r = p ++ [i] ∧ c = pageToAddr page) := by
  have fits := page_to_addr_lt (mem_used_set.mp used).1
  have aligned := page_to_addr_aligned page
  have entry := table_entry_eq aligned
  exact forest_link held_aligned trees here (by omega) small (present_table_entry aligned)
    (out_addr_table_entry aligned fits) (by omega) (fun _ => ⟨by omega, empty⟩)
    (held_page.mpr ⟨used, outside⟩) fresh

end Held

/- nextTable -/

theorem next_table_cases (s : Phys) (table i : Nat) :
    (Present (entryAt s.mem table i) ∧
      nextTable s table i = (entryTable (entryAt s.mem table i), s)) ∨
    ¬ Present (entryAt s.mem table i) ∧
      (nextTable s table i = (0, s) ∧ usedSet s.pmm = Finset.range totalPages ∨
        ∃ new q, new ∉ usedSet s.pmm ∧ usedSet q = insert new (usedSet s.pmm) ∧
          nextTable s table i = (pageToAddr new, ⟨setEntry (zeroPage s.mem (pageToAddr new)) table i
            (tableEntry (pageToAddr new)), q⟩)) := by
  unfold nextTable
  by_cases present : entryAt s.mem table i &&& 0x3 = 0x3
  · rw [if_pos present]
    exact Or.inl ⟨present, rfl⟩
  · rw [if_neg present]
    refine Or.inr ⟨present, ?_⟩
    rcases alloc_table_cases s with ⟨none, full⟩ | ⟨new, q, _, fresh, some, used⟩
    · rw [none]
      exact Or.inl ⟨rfl, full⟩
    · rw [some, if_page_some (page_to_addr_ne_zero new)]
      exact Or.inr ⟨new, q, fresh, used, rfl⟩

structure NextTable (base : Finset Nat) (roots : Nat → Option Nat) (n : Nat) (p : List Nat)
    (i : Nat) (s : Phys) (l : Nat) (t : Phys) : Prop where
  trees : Trees base roots t
  here : Occurs roots t.mem n (p ++ [i]) l
  used : usedSet s.pmm ⊆ usedSet t.pmm
  before : ∀ k q c, Occurs roots s.mem k q c → Occurs roots t.mem k q c
  after : ∀ k q c, Occurs roots t.mem k q c → Occurs roots s.mem k q c ∨
    (k = n ∧ q = p ++ [i] ∧ ∃ page, page ∉ usedSet s.pmm ∧ c = pageToAddr page)

structure NextLevel (base : Finset Nat) (roots : Nat → Option Nat) (n : Nat) (p : List Nat)
    (i : Nat) (s : Phys) (l : Nat) (t : Phys) (made : Option Nat) : Prop where
  tables : Tables (Held base t) roots t.mem
  here : Occurs roots t.mem n (p ++ [i]) l
  used : usedSet t.pmm = usedSet s.pmm ∪ made.toFinset
  fresh : ∀ new, made = some new → new ∉ usedSet s.pmm ∧ l = pageToAddr new ∧
    ∀ c, ¬ Occurs roots s.mem n (p ++ [i]) c
  occurs : ∀ k q c, Occurs roots t.mem k q c ↔ Occurs roots s.mem k q c ∨
    (k = n ∧ q = p ++ [i] ∧ ∃ new, made = some new ∧ c = pageToAddr new)
  leaves : ∀ k r q j, roots k = some r → ValidPath q → q.length + 1 = levels → j < 512 →
    leaf t.mem r q j = leaf s.mem r q j
  bytes : ∀ page ∈ usedSet s.pmm, ¬ Occurs roots s.mem n p (pageToAddr page) →
    ∀ o, o < 4096 → t.mem (pageToAddr page + o) = s.mem (pageToAddr page + o)

section NextTable
variable {base : Finset Nat} {roots : Nat → Option Nat} {s t : Phys} {page i l n : Nat}
variable {p : List Nat}

section FreshPage
variable {q : Pmm} {new : Nat}

theorem zeroed_frame (tables : Tables (Held base s) roots s.mem) (fresh : new ∉ usedSet s.pmm) :
    ∀ k p a, Occurs roots s.mem k p a → p.length < levels → ∀ o, o < 4096 →
      zeroPage s.mem (pageToAddr new) (a + o) = s.mem (a + o) := by
  intro k p a table short o inside
  obtain ⟨other, rfl, usedOther, _⟩ := tables.owned k p a table short
  have apart : other ≠ new := by
    rintro rfl
    exact fresh usedOther
  refine fill_outside ?_
  rw [page_to_addr_eq, page_to_addr_eq, page_size_eq]
  omega

theorem zeroed_occurs (tables : Tables (Held base s) roots s.mem) (fresh : new ∉ usedSet s.pmm) {k a : Nat}
    {p : List Nat} : Occurs roots (zeroPage s.mem (pageToAddr new)) k p a ↔ Occurs roots s.mem k p a :=
  occurs_frame fun _ _ _ root valid => forest_frame_walk (zeroed_frame tables fresh) root valid

theorem zeroed_tables (tables : Tables (Held base s) roots s.mem) (fresh : new ∉ usedSet s.pmm)
    (used : usedSet q = insert new (usedSet s.pmm)) :
    Tables (Held base ⟨zeroPage s.mem (pageToAddr new), q⟩) roots (zeroPage s.mem (pageToAddr new)) := by
  refine tables_own (tables_frame tables (zeroed_frame tables fresh)) ?_
  intro k p a table short
  obtain ⟨other, rfl, usedOther, outside⟩ := tables.owned k p a ((zeroed_occurs tables fresh).mp table) short
  exact held_page.mpr ⟨by rw [used]; exact Finset.mem_insert_of_mem usedOther, outside⟩

theorem zeroed_unused (tables : Tables (Held base s) roots s.mem) (fresh : new ∉ usedSet s.pmm) (k : Nat)
    (r : List Nat) (short : r.length < levels) :
    ¬ Occurs roots (zeroPage s.mem (pageToAddr new)) k r (pageToAddr new) := by
  intro found
  obtain ⟨other, equal, usedOther, _⟩ := tables.owned k r _ ((zeroed_occurs tables fresh).mp found) short
  rw [← page_to_addr_injective equal] at usedOther
  exact fresh usedOther

theorem next_level_there (tables : Tables (Held base s) roots s.mem)
    (here : Occurs roots s.mem n p (pageToAddr page)) (short : p.length + 1 < levels) (small : i < 512)
    (present : Present (entryAt s.mem (pageToAddr page) i)) :
    NextLevel base roots n p i s (entryTable (entryAt s.mem (pageToAddr page) i)) s none := by
  have fits := (tables.entries n p _ i here short small).resolve_left (by
    intro zero
    rw [zero] at present
    exact absurd present (by decide))
  rw [entry_table_eq fits.2]
  refine ⟨tables, (occurs_snoc here (by omega) small).mpr ⟨present, rfl⟩, ?_, ?_, ?_, ?_, ?_⟩
  · rw [Option.toFinset_none, Finset.union_empty]
  · intro new made
    cases made
  · intro k q c
    simp
  · intro k r q j _ _ _ _
    rfl
  · intro other _ _ o _
    rfl

theorem next_level_made (tables : Tables (Held base s) roots s.mem) (sub : base ⊆ usedSet s.pmm)
    (here : Occurs roots s.mem n p (pageToAddr page)) (short : p.length + 1 < levels) (small : i < 512)
    (absent : ¬ Present (entryAt s.mem (pageToAddr page) i)) (fresh : new ∉ usedSet s.pmm)
    (used : usedSet q = insert new (usedSet s.pmm)) : NextLevel base roots n p i s (pageToAddr new)
      ⟨setEntry (zeroPage s.mem (pageToAddr new)) (pageToAddr page) i (tableEntry (pageToAddr new)), q⟩
      (some new) := by
  have through : ∀ c, ¬ Occurs roots s.mem n (p ++ [i]) c :=
    fun c found => absent ((occurs_snoc here (by omega) small).mp found).1
  have outside : new ∉ base := fun member => fresh (sub member)
  have member : new ∈ usedSet q := by
    rw [used]
    exact Finset.mem_insert_self _ _
  have aligned := page_to_addr_aligned new
  have fits := page_to_addr_lt (mem_used_set.mp member).1
  have entry := table_entry_eq aligned
  have same : ∀ {k p a}, Occurs roots (zeroPage s.mem (pageToAddr new)) k p a ↔ Occurs roots s.mem k p a :=
    zeroed_occurs tables fresh
  have grown := zeroed_tables tables fresh used
  have blank : ∀ j, j < 512 → entryAt (zeroPage s.mem (pageToAddr new)) (pageToAddr new) j = 0 :=
    fun j hj => zero_page_entries hj
  have mine : Held base ⟨zeroPage s.mem (pageToAddr new), q⟩ (pageToAddr new) :=
    held_page.mpr ⟨member, outside⟩
  have unused := zeroed_unused tables fresh
  have apart : pageToAddr new ≠ pageToAddr page := by
    intro equal
    obtain rfl := page_to_addr_injective equal
    exact unused n p (by omega) (same.mpr here)
  have absent' : ¬ Present (entryAt (zeroPage s.mem (pageToAddr new)) (pageToAddr page) i) := by
    intro present
    have found := (occurs_snoc (same.mpr here) (by omega) small).mpr ⟨present, rfl⟩
    exact through _ (same.mp found)
  obtain ⟨linked, exactly⟩ := tables_link held_aligned grown (same.mpr here) (by omega) small
    (present_table_entry aligned) (out_addr_table_entry aligned fits) (by omega)
    fun _ => ⟨by omega, blank, mine, unused⟩
  refine ⟨linked, (exactly n _ _).mpr (Or.inr ⟨rfl, rfl, rfl⟩), ?_, ?_, ?_, ?_, ?_⟩
  · rw [used, Option.toFinset_some, Finset.insert_eq, Finset.union_comm]
  · rintro _ ⟨rfl⟩
    exact ⟨fresh, rfl, through⟩
  · intro k r c
    refine (exactly k r c).trans ?_
    rw [same]
    simp only [Option.some.injEq, exists_eq_left']
    constructor
    · rintro (⟨old, _⟩ | ⟨rfl, rfl, rfl⟩)
      · exact Or.inl old
      · exact Or.inr ⟨rfl, rfl, rfl⟩
    · rintro (old | ⟨rfl, rfl, rfl⟩)
      · refine Or.inl ⟨old, ?_⟩
        rintro ⟨rfl, rest, rfl⟩
        -- the entry was empty, so nothing occurred behind it
        rw [List.append_assoc, List.singleton_append] at old
        exact absent (occurs_through old here)
      · exact Or.inr ⟨rfl, rfl, rfl⟩
  · intro k r q j root valid depth bound
    exact (link_table_leaf held_aligned grown (same.mpr here) (by omega) small short absent'
      (present_table_entry aligned) (out_addr_table_entry aligned fits) (by omega) blank mine apart
      root valid depth bound).trans
        (leaf_frame (zeroed_frame tables fresh) root valid depth bound)
  · intro other usedOther notTable o inside
    have first : other ≠ page := by
      rintro rfl
      exact notTable here
    have second : other ≠ new := by
      rintro rfl
      exact fresh usedOther
    have words : pageToAddr other + o < pageToAddr page + 8 * i ∨
        pageToAddr page + 8 * i + 8 ≤ pageToAddr other + o := by
      rw [page_to_addr_eq, page_to_addr_eq]
      omega
    refine (write64_outside words).trans (fill_outside ?_)
    rw [page_to_addr_eq, page_to_addr_eq, page_size_eq]
    omega

end FreshPage

theorem next_level (tables : Tables (Held base s) roots s.mem) (sub : base ⊆ usedSet s.pmm)
    (here : Occurs roots s.mem n p (pageToAddr page)) (short : p.length + 1 < levels)
    (small : i < 512) (result : nextTable s (pageToAddr page) i = (l, t)) :
    (l = 0 ∧ t = s ∧ usedSet s.pmm = Finset.range totalPages ∧
      ∀ c, ¬ Occurs roots s.mem n (p ++ [i]) c) ∨
    ∃ made, NextLevel base roots n p i s l t made := by
  rcases next_table_cases s (pageToAddr page) i with
    ⟨present, there⟩ | ⟨absent, ⟨none, full⟩ | ⟨new, q, fresh, used, got⟩⟩
  · rw [there] at result
    cases result
    exact Or.inr ⟨_, next_level_there tables here short small present⟩
  · rw [none] at result
    cases result
    refine Or.inl ⟨rfl, rfl, full, ?_⟩
    intro c found
    exact absent ((occurs_snoc here (by omega) small).mp found).1
  · rw [got] at result
    cases result
    exact Or.inr ⟨_, next_level_made tables sub here short small absent fresh used⟩

theorem next_table_trees (trees : Trees base roots s) (sub : base ⊆ usedSet s.pmm)
    (here : Occurs roots s.mem n p (pageToAddr page)) (short : p.length + 1 < levels)
    (small : i < 512) (result : nextTable s (pageToAddr page) i = (l, t)) :
    (l = 0 ∧ t = s ∧ usedSet s.pmm = Finset.range totalPages) ∨
      NextTable base roots n p i s l t := by
  rcases next_level (forest_tables trees) sub here short small result with
    ⟨zero, same, full, _⟩ | ⟨made, level⟩
  · exact Or.inl ⟨zero, same, full⟩
  have used : usedSet s.pmm ⊆ usedSet t.pmm := by
    rw [level.used]
    exact Finset.subset_union_left
  refine Or.inr ⟨?_, level.here, used, fun k q c old => (level.occurs k q c).mpr (Or.inl old), ?_⟩
  · rcases next_table_cases s (pageToAddr page) i with
      ⟨_, there⟩ | ⟨absent, ⟨none, _⟩ | ⟨new, q, fresh, added, some⟩⟩
    · rw [there] at result
      cases result
      exact trees
    · rw [none] at result
      cases result
      exact trees
    · rw [some] at result
      cases result
      obtain ⟨cleared, occurs⟩ := alloc_table_trees trees fresh added
      refine (link_table_trees cleared ((occurs n p _).mpr here) short small
        (by rw [added]; exact Finset.mem_insert_self _ _) (fun member => fresh (sub member)) ?_
        (fun j hj => zero_page_entries hj)).1
      intro k r found
      exact unused_not_occurs trees fresh ((occurs k r _).mp found)
  · intro k q c found
    refine ((level.occurs k q c).mp found).imp_right ?_
    rintro ⟨same, path, new, made', address⟩
    exact ⟨same, path, new, (level.fresh new made').1, address⟩

theorem next_table_preserves {other : Finset Nat} (sub : other ⊆ usedSet s.pmm)
    (outside : page ∉ other) (small : i < 512)
    (result : nextTable s (pageToAddr page) i = (l, t)) : Preserves other s t := by
  rcases next_table_cases s (pageToAddr page) i with
    ⟨_, there⟩ | ⟨_, ⟨none, _⟩ | ⟨new, q, fresh, used, some⟩⟩
  · rw [there] at result
    cases result
    exact preserves_refl _ _
  · rw [none] at result
    cases result
    exact preserves_refl _ _
  · rw [some] at result
    cases result
    exact preserves_trans (preserves_alloc_table sub fresh used) (preserves_set_entry outside small)

end NextTable

def lastPage (index : Nat → Nat) (p : Nat) : Nat → Nat → Option Nat
  | 0, _ => none
  | n + 1, j => (lastPage index (p + 1) n j).or (if index p = j then some p else none)

theorem last_page_some {index : Nat → Nat} {p k j r : Nat} (found : lastPage index p k j = some r) :
    p ≤ r ∧ r < p + k ∧ index r = j := by
  induction k generalizing p with
  | zero => cases found
  | succ k ih =>
    rw [lastPage, Option.or_eq_some_iff] at found
    rcases found with later | ⟨_, now⟩
    · have := ih later
      exact ⟨by omega, by omega, this.2.2⟩
    · split at now
      · rename_i same
        cases now
        exact ⟨Nat.le_refl _, by omega, same⟩
      · cases now

section MapPages
variable {base : Finset Nat} {roots : Nat → Option Nat} {m : Mem} {q : Pmm} {page first i n a : Nat}
variable {path : List Nat} {index : Nat → Nat}

theorem set_leaf_trees (trees : Trees base roots ⟨m, q⟩) (here : Occurs roots m n path a)
    (last : path.length + 1 = levels) (small : i < 512) (used : page ∈ usedSet q)
    (outside : page ∉ base) (fresh : ∀ k r, ¬ Occurs roots m k r (pageToAddr page)) :
    Trees base roots ⟨setEntry m a i (pageEntry (pageToAddr page)), q⟩ ∧
      ∀ k r c, Occurs roots (setEntry m a i (pageEntry (pageToAddr page))) k r c ↔
        (Occurs roots m k r c ∧ ¬ (k = n ∧ r = path ++ [i])) ∨
          (k = n ∧ r = path ++ [i] ∧ c = pageToAddr page) := by
  have fits := page_to_addr_lt (mem_used_set.mp used).1
  have aligned := page_to_addr_aligned page
  have entry := page_entry_eq aligned fits
  obtain ⟨linked, exactly⟩ := forest_link held_aligned trees here (by omega) small
    (present_page_entry aligned fits) (out_addr_page_entry aligned fits) (by omega) (by omega)
    (held_page.mpr ⟨used, outside⟩) fresh
  refine ⟨linked, ?_⟩
  intro k r c
  rw [setEntry, exactly]
  refine or_congr_left (and_congr_right fun found => not_congr (and_congr_right fun _ => ?_))
  constructor
  · intro longer
    have depth := found.1.depth
    refine (longer.eq_of_length_le ?_).symm
    rw [List.length_append, List.length_singleton]
    omega
  · rintro rfl
    exact List.prefix_refl _

theorem page_address (inside : first + i < totalPages) :
    pageToAddr first + i * pageSize % 2 ^ 32 = pageToAddr (first + i) := by
  rw [total_pages_eq] at inside
  simp only [page_to_addr_eq, page_size_eq]
  omega

structure Mapped (base : Finset Nat) (roots : Nat → Option Nat) (n : Nat) (path : List Nat)
    (first : Nat) (left : Nat → Option Nat) (m k : Mem) (q : Pmm) : Prop where
  trees : Trees base roots ⟨k, q⟩
  mapped : ∀ j r c, left j = some r →
    (Occurs roots k n (path ++ [j]) c ↔ c = pageToAddr (first + r))
  unmapped : ∀ j c, left j = none →
    (Occurs roots k n (path ++ [j]) c ↔ Occurs roots m n (path ++ [j]) c)
  other : ∀ l r c, ¬ (l = n ∧ ∃ j, r = path ++ [j]) → (Occurs roots k l r c ↔ Occurs roots m l r c)

theorem map_pages_trees (first : Nat) {p k : Nat} (trees : Trees base roots ⟨m, q⟩)
    (here : Occurs roots m n path a) (last : path.length + 1 = levels) (small : ∀ j, index j < 512)
    (pages : ∀ r, p ≤ r → r < p + k → first + r ∈ usedSet q ∧ first + r ∉ base ∧
      ∀ l s, ¬ Occurs roots m l s (pageToAddr (first + r))) :
    Mapped base roots n path first (lastPage index p k) m
      (mapPages m a index (pageToAddr first) p k) q := by
  induction k generalizing m p with
  | zero =>
    refine ⟨trees, ?_, fun _ _ _ => Iff.rfl, fun _ _ _ _ => Iff.rfl⟩
    intro j r c found
    cases found
  | succ k ih =>
    obtain ⟨used, outside, fresh⟩ := pages p (Nat.le_refl _) (by omega)
    obtain ⟨linked, occurs⟩ := set_leaf_trees trees here last (small p) used outside fresh
    rw [mapPages, page_address (mem_used_set.mp used).1]
    have stays : Occurs roots (setEntry m a (index p) (pageEntry (pageToAddr (first + p)))) n path a := by
      refine (occurs n path a).mpr (Or.inl ⟨here, ?_⟩)
      rintro ⟨_, same⟩
      have := congrArg List.length same
      rw [List.length_append, List.length_singleton] at this
      omega
    have rest := ih (p := p + 1) linked stays (by
      intro r low high
      obtain ⟨used', outside', fresh'⟩ := pages r (by omega) (by omega)
      refine ⟨used', outside', ?_⟩
      intro l s found
      rcases (occurs l s _).mp found with ⟨old, _⟩ | ⟨_, _, same⟩
      · exact fresh' l s old
      · have := page_to_addr_injective same
        omega)
    have once : ∀ j c, Occurs roots (setEntry m a (index p) (pageEntry (pageToAddr (first + p)))) n
        (path ++ [j]) c ↔ if index p = j then c = pageToAddr (first + p)
          else Occurs roots m n (path ++ [j]) c := by
      intro j c
      rw [occurs]
      split
      · rename_i same
        simp [same]
      · rename_i differs
        simp [Ne.symm differs]
    refine ⟨rest.trees, ?_, ?_, ?_⟩
    · intro j r c found
      rw [lastPage, Option.or_eq_some_iff] at found
      rcases found with later | ⟨none, now⟩
      · exact rest.mapped j r c later
      · rw [rest.unmapped j c none, once]
        split at now
        · rename_i same
          cases now
          rw [if_pos same]
        · cases now
    · intro j c absent
      rw [lastPage, Option.or_eq_none_iff] at absent
      rw [rest.unmapped j c absent.1, once, if_neg]
      intro same
      rw [if_pos same] at absent
      cases absent.2
    · intro l r c other
      rw [rest.other l r c other, occurs]
      have apart : ¬ (l = n ∧ r = path ++ [index p]) := fun same => other ⟨same.1, _, same.2⟩
      have apart' : ¬ (l = n ∧ r = path ++ [index p] ∧ c = pageToAddr (first + p)) :=
        fun same => apart ⟨same.1, same.2.1⟩
      simp only [apart, apart', not_false_eq_true, and_true, or_false]

theorem map_pages_preserves (pa : Nat) {p k : Nat} (outside : page ∉ base) (small : ∀ j, index j < 512) :
    Preserves base ⟨m, q⟩ ⟨mapPages m (pageToAddr page) index pa p k, q⟩ := by
  induction k generalizing m p with
  | zero => exact preserves_refl _ _
  | succ k ih => exact preserves_trans (preserves_set_entry outside (small p)) ih

theorem map_pages_set_entry {p k pa e other : Nat} (apart : page ≠ other) (small : ∀ j, index j < 512)
    (inside : i < 512) :
    setEntry (mapPages m (pageToAddr page) index pa p k) (pageToAddr other) i e =
      mapPages (setEntry m (pageToAddr other) i e) (pageToAddr page) index pa p k := by
  induction k generalizing m p with
  | zero => rfl
  | succ k ih =>
    have bound := small p
    have words : pageToAddr page + 8 * index p + 8 ≤ pageToAddr other + 8 * i ∨
        pageToAddr other + 8 * i + 8 ≤ pageToAddr page + 8 * index p := by
      rw [page_to_addr_eq, page_to_addr_eq]
      omega
    rw [mapPages, mapPages, ih]
    simp only [setEntry, write64_comm words]

end MapPages
end Archarch.AddressSpaces
