import Archarch.Spaces.UserTasks
import Archarch.Spaces.UserTables

/- What a call does to the memory of user tasks: sched_create_user and sched_fork differ in
   what they load into the new pages only, SYS_SBRK changes one tree in place. -/
namespace Archarch.AddressSpaces
open ByteMemory TranslationTables PageFrames

section Mapping
variable {base : Finset Nat} {tree : Nat → Option Nat} {s t : Phys} {page pgd va n k : Nat} {r : Int}

theorem mmu_map_user_page_spec (trees : Trees (insert page base) tree s)
    (sub : insert page base ⊆ usedSet s.pmm) (outside : page ∉ base) (root : tree n = some pgd)
    (result : mmuMapUserPageInPgd s pgd va (pageToAddr page) = (r, t)) :
    usedSet s.pmm ⊆ usedSet t.pmm ∧
      (r = -1 ∧ Trees (insert page base) tree t ∨ r = 0 ∧ Trees base tree t) := by
  unfold mmuMapUserPageInPgd at result
  have top : Occurs tree s.mem n [] pgd := ⟨valid_nil, pgd, root, rfl⟩
  obtain ⟨p1, same1, _⟩ := trees.owned n [] pgd top
  subst same1
  rcases next1 : nextTable s (pageToAddr p1) ((va >>> 30) &&& 0x1FF) with ⟨l2, s2⟩
  rw [next1] at result
  rcases next_table_trees trees sub top (by decide) (index_lt _) next1 with ⟨rfl, rfl, _⟩ | made2
  · rw [if_page_none] at result
    cases result
    exact ⟨Finset.Subset.refl _, Or.inl ⟨rfl, trees⟩⟩
  obtain ⟨p2, same2, _⟩ := made2.trees.owned n _ l2 made2.here
  subst same2
  rw [if_page_some (page_to_addr_ne_zero p2)] at result
  rcases next2 : nextTable s2 (pageToAddr p2) ((va >>> 21) &&& 0x1FF) with ⟨l3, s3⟩
  rw [next2] at result
  rcases next_table_trees made2.trees (sub.trans made2.used) made2.here (by simp [levels])
    (index_lt _) next2 with ⟨rfl, rfl, _⟩ | made3
  · rw [if_page_none] at result
    cases result
    exact ⟨made2.used, Or.inl ⟨rfl, made2.trees⟩⟩
  obtain ⟨p3, same3, _⟩ := made3.trees.owned n _ l3 made3.here
  subst same3
  rw [if_page_some (page_to_addr_ne_zero p3)] at result
  cases result
  refine ⟨made2.used.trans made3.used, Or.inr ⟨rfl, ?_⟩⟩
  have used : page ∈ usedSet s3.pmm :=
    made3.used (made2.used (sub (Finset.mem_insert_self _ _)))
  refine (set_leaf_trees (trees_base made3.trees (Finset.subset_insert _ _)) made3.here
    (by simp [levels]) (index_lt _) used outside ?_).1
  intro l path found
  exact (held_page.mp (made3.trees.owned l path _ found)).2 (Finset.mem_insert_self _ _)

theorem sbrk_pages_spec {failed : Bool} (trees : Trees base tree s) (sub : base ⊆ usedSet s.pmm)
    (root : tree n = some pgd) (result : sbrkPages s pgd va k = (failed, t)) :
    usedSet s.pmm ⊆ usedSet t.pmm ∧ Trees base tree t := by
  induction k generalizing s va with
  | zero =>
    cases result
    exact ⟨Finset.Subset.refl _, trees⟩
  | succ k ih =>
    rw [sbrkPages] at result
    rcases pmm_alloc_page_cases s.pmm with ⟨none, _⟩ | ⟨page, q, inside, fresh, some, used, _, _⟩
    · rw [none, if_page_none] at result
      cases result
      exact ⟨Finset.Subset.refl _, trees⟩
    rw [some, if_page_some (page_to_addr_ne_zero page)] at result
    dsimp only at result
    have outside : page ∉ base := fun member => fresh (sub member)
    have grown : usedSet s.pmm ⊆ usedSet q := by
      rw [used]
      exact Finset.subset_insert _ _
    have before := fresh_page_trees trees fresh used
    have both : insert page base ⊆ usedSet q := by
      rw [used]
      exact Finset.insert_subset_insert _ sub
    rcases mapped : mmuMapUserPageInPgd ⟨zeroPage s.mem (pageToAddr page), q⟩ pgd va
      (pageToAddr page) with ⟨r, u⟩
    obtain ⟨more, ends⟩ := mmu_map_user_page_spec before both outside root mapped
    rw [mapped] at result
    rcases ends with ⟨rfl, after⟩ | ⟨rfl, after⟩
    · rw [if_pos (show (-1 : Int) < 0 by decide)] at result
      cases result
      have left := pmm_free_page_used (p := u.pmm) inside
      refine ⟨?_, ?_⟩
      · intro other member
        rw [left]
        refine Finset.mem_erase.mpr ⟨?_, more (grown member)⟩
        rintro rfl
        exact fresh member
      · refine forest_own after ?_
        intro l path a found
        obtain ⟨other, rfl, usedOther, outsideOther⟩ := after.owned l path a found
        refine held_page.mpr ⟨?_, fun member => outsideOther (Finset.mem_insert_of_mem member)⟩
        rw [left]
        refine Finset.mem_erase.mpr ⟨?_, usedOther⟩
        rintro rfl
        exact outsideOther (Finset.mem_insert_self _ _)
    · rw [if_neg (show ¬ (0 : Int) < 0 by decide)] at result
      have rest := ih after ((Finset.subset_insert _ _).trans (both.trans more)) result
      exact ⟨grown.trans (more.trans rest.1), rest.2⟩

end Mapping

/-- The common shape of sched_create_user and sched_fork behind their checks. -/
def spawn (s : System) (codePages heapBreak : Nat) (loadCode loadStack : Mem → Nat → Mem) :
    Int × System :=
  let failed : Phys → Int × System := fun phys => (-1, ⟨phys, s.tasks, s.numTasks⟩)
  ifPage (pmmAllocPages s.phys.pmm codePages) (fun pmm => failed ⟨s.phys.mem, pmm⟩) fun code pmm =>
  let mem := loadCode s.phys.mem code
  ifPage (pmmAllocPages pmm (userStackPages + 1))
    (fun pmm => failed ⟨mem, pmmFreePages pmm code codePages⟩) fun alloc pmm =>
  let stack := alloc + pageSize
  let mem := loadStack mem stack
  ifPage (mmuCreateUserPgd ⟨mem, pmm⟩ code codePages stack userStackPages)
    (fun phys => failed ⟨phys.mem, pmmFreePages (pmmFreePages phys.pmm code codePages) alloc
      (userStackPages + 1)⟩) fun pgd phys =>
  addTask s phys
    { finished := false
      isUser := true
      ttbr0 := pgd
      codePa := code
      codePages := codePages
      stackPa := stack
      heapBreak := heapBreak }

theorem sched_create_user_eq (s : System) (image : Image) : schedCreateUser s image =
    if schedMaxTasks ≤ s.numTasks then (-1, s)
    else spawn s (imagePages image.size) (userVaCode + imagePages image.size * pageSize)
      (fun m base => loadImage m base (imagePages image.size) image) fun m _ => m := rfl

theorem sched_fork_eq (s : System) (current : Nat) : schedFork s current =
    if !(s.tasks current).isUser then (-1, s)
    else if schedMaxTasks ≤ s.numTasks then (-1, s)
    else spawn s (s.tasks current).codePages (s.tasks current).heapBreak
      (fun m base => copyBytes m base (s.tasks current).codePa
        ((s.tasks current).codePages * pageSize % 2 ^ 32))
      fun m base => copyBytes m base (s.tasks current).stackPa (userStackPages * pageSize) := rfl

/-- A loader writes only to the pages it is given. -/
def LoadsInto (pages : Nat) (load : Mem → Nat → Mem) : Prop :=
  ∀ m base x, x < base ∨ base + pages * pageSize ≤ x → load m base x = m x

structure Spawned (s t : System) (codePages heapBreak : Nat) (loadCode loadStack : Mem → Nat → Mem)
    (codeFirst stackFirst pgd : Nat) : Prop where
  tasks : t.tasks = Function.update s.tasks s.numTasks ⟨false, true, pgd, pageToAddr codeFirst,
    codePages, pageToAddr stackFirst, heapBreak⟩
  count : t.numTasks = s.numTasks + 1
  preserves : Preserves (usedSet s.phys.pmm) s.phys t.phys
  tree : ImageTree (usedSet s.phys.pmm) s.numTasks pgd (pageToAddr codeFirst) codePages
    (pageToAddr stackFirst) t.phys
  code : ∀ p, p < codePages → codeFirst + p ∈ usedSet t.phys.pmm
  stack : ∀ p, p < userStackPages → stackFirst + p ∈ usedSet t.phys.pmm
  fresh : ∀ p, p < codePages → codeFirst + p ∉ usedSet s.phys.pmm
  codeBytes : ∀ p o, p < codePages → o < 4096 → t.phys.mem (pageToAddr (codeFirst + p) + o) =
    loadCode s.phys.mem (pageToAddr codeFirst) (pageToAddr (codeFirst + p) + o)
  stackBytes : ∀ p o, p < userStackPages → o < 4096 → t.phys.mem (pageToAddr (stackFirst + p) + o) =
    loadStack (loadCode s.phys.mem (pageToAddr codeFirst)) (pageToAddr stackFirst)
      (pageToAddr (stackFirst + p) + o)

structure NotSpawned (s t : System) : Prop where
  tasks : t.tasks = s.tasks
  count : t.numTasks = s.numTasks
  preserves : Preserves (usedSet s.phys.pmm) s.phys t.phys

/-- q is p after pmm_alloc_pages has taken n pages from first on. -/
structure RunTaken (p q : Pmm) (first n : Nat) : Prop where
  inside : first + n ≤ totalPages
  apart : Disjoint (usedSet p) (Finset.Ico first (first + n))
  used : usedSet q = usedSet p ∪ Finset.Ico first (first + n)

section Runs
variable {p q u : Pmm} {first n k page : Nat} {m : Mem}

theorem alloc_pages_taken (p : Pmm) (n : Nat) : pmmAllocPages p n = (0, p) ∨
    ∃ first q, pmmAllocPages p n = (pageToAddr first, q) ∧ RunTaken p q first n := by
  rcases pmm_alloc_pages_cases p n with none | ⟨first, q, _, inside, apart, some, used, _, _⟩
  · exact Or.inl none
  · exact Or.inr ⟨first, q, some, inside, apart, used⟩

theorem taken_mem (taken : RunTaken p q first n) :
    page ∈ usedSet q ↔ page ∈ usedSet p ∨ first ≤ page ∧ page < first + n := by
  rw [taken.used, Finset.mem_union, Finset.mem_Ico]

theorem taken_old (taken : RunTaken p q first n) : usedSet p ⊆ usedSet q :=
  fun _ member => (taken_mem taken).mpr (Or.inl member)

theorem taken_new (taken : RunTaken p q first n) (bound : k < n) : first + k ∈ usedSet q :=
  (taken_mem taken).mpr (Or.inr ⟨by omega, by omega⟩)

theorem taken_apart (taken : RunTaken p q first n) (member : page ∈ usedSet p) :
    page ∉ Finset.Ico first (first + n) :=
  Finset.disjoint_left.mp taken.apart member

theorem taken_fresh (taken : RunTaken p q first n) (bound : k < n) : first + k ∉ usedSet p :=
  fun member => taken_apart taken member (Finset.mem_Ico.mpr ⟨by omega, by omega⟩)

theorem taken_given_back (taken : RunTaken p q first n) (sub : usedSet p ⊆ usedSet u) :
    usedSet p ⊆ usedSet (pmmFreePages u (pageToAddr first) n) := by
  intro page member
  rw [pmm_free_pages_used taken.inside, Finset.mem_sdiff]
  exact ⟨sub member, taken_apart taken member⟩

/-- A load into the pages that were taken, or into some of them. -/
theorem preserves_load {load : Mem → Nat → Mem} {pages start : Nat} (taken : RunTaken p q first n)
    (inside : LoadsInto pages load) (low : first ≤ start) (high : start + pages ≤ first + n) :
    Preserves (usedSet p) ⟨m, p⟩ ⟨load m (pageToAddr start), q⟩ := by
  refine ⟨fun _ => taken_old taken, ?_⟩
  intro page member o small
  refine inside m _ _ ?_
  have apart := taken_apart taken member
  rw [Finset.mem_Ico] at apart
  rw [page_to_addr_eq, page_to_addr_eq, page_size_eq]
  omega

end Runs

section Spawning
variable {s t : System} {codePages heapBreak : Nat} {loadCode loadStack : Mem → Nat → Mem} {r : Int}

theorem new_buffers {p q1 q2 : Pmm} {m : Mem} {codeFirst alloc : Nat} (code : RunTaken p q1 codeFirst codePages)
    (stack : RunTaken q1 q2 alloc (userStackPages + 1)) :
    Buffers (usedSet p) ⟨m, q2⟩ codeFirst codePages (alloc + 1) := by
  have stackFresh : ∀ k, k < userStackPages → alloc + 1 + k ∉ usedSet q1 := by
    intro k bound
    rw [Nat.add_assoc]
    exact taken_fresh stack (by omega)
  refine ⟨(taken_old code).trans (taken_old stack), ?_, ?_, ?_⟩
  · intro k bound
    exact ⟨taken_old stack (taken_new code bound), taken_fresh code bound⟩
  · intro k bound
    refine ⟨?_, fun member => stackFresh k bound (taken_old code member)⟩
    rw [Nat.add_assoc]
    exact taken_new stack (by omega)
  · intro k l boundK boundL same
    refine stackFresh l boundL ?_
    rw [← same]
    exact taken_new code boundK

theorem stack_behind_guard (alloc : Nat) : pageToAddr alloc + pageSize = pageToAddr (alloc + 1) := by
  rw [page_to_addr_add, Nat.one_mul]

theorem spawn_spec (codeInside : LoadsInto codePages loadCode)
    (stackInside : LoadsInto userStackPages loadStack)
    (result : spawn s codePages heapBreak loadCode loadStack = (r, t)) :
    (r = -1 ∧ NotSpawned s t) ∨ ∃ codeFirst stackFirst pgd, r = s.numTasks ∧
      Spawned s t codePages heapBreak loadCode loadStack codeFirst stackFirst pgd := by
  unfold spawn at result
  rcases alloc_pages_taken s.phys.pmm codePages with none | ⟨codeFirst, q1, some1, code⟩
  · rw [none, if_page_none] at result
    cases result
    exact Or.inl ⟨rfl, rfl, rfl, preserves_refl _ _⟩
  rw [some1, if_page_some (page_to_addr_ne_zero codeFirst)] at result
  dsimp only at result
  have loaded : Preserves (usedSet s.phys.pmm) s.phys ⟨loadCode s.phys.mem (pageToAddr codeFirst), q1⟩ :=
    preserves_load code codeInside (Nat.le_refl _) (Nat.le_refl _)
  rcases alloc_pages_taken q1 (userStackPages + 1) with none | ⟨alloc, q2, some2, stack⟩
  · rw [none, if_page_none] at result
    cases result
    refine Or.inl ⟨rfl, rfl, rfl, preserves_trans loaded (preserves_pmm ?_)⟩
    intro sub
    exact taken_given_back code sub
  rw [some2, if_page_some (page_to_addr_ne_zero alloc), stack_behind_guard] at result
  have stacked : Preserves (usedSet q1) ⟨loadCode s.phys.mem (pageToAddr codeFirst), q1⟩
      ⟨loadStack (loadCode s.phys.mem (pageToAddr codeFirst)) (pageToAddr (alloc + 1)), q2⟩ :=
    preserves_load stack stackInside (by omega) (by omega)
  have filled := preserves_trans loaded (preserves_base (taken_old code) stacked (Finset.Subset.refl _))
  rcases made : mmuCreateUserPgd ⟨loadStack (loadCode s.phys.mem (pageToAddr codeFirst))
    (pageToAddr (alloc + 1)), q2⟩ (pageToAddr codeFirst) codePages (pageToAddr (alloc + 1))
    userStackPages with ⟨pgd, phys⟩
  obtain ⟨kept, ends⟩ := mmu_create_user_pgd_spec s.numTasks (new_buffers code stack) made
  rw [made] at result
  have older := (taken_old code).trans (taken_old stack)
  have whole := preserves_trans filled (preserves_base older kept (Finset.Subset.refl _))
  rcases ends with ⟨rfl, _⟩ | ⟨some3, _, image⟩
  · rw [if_page_none] at result
    cases result
    refine Or.inl ⟨rfl, rfl, rfl, preserves_trans whole (preserves_pmm ?_)⟩
    intro sub page member
    rw [pmm_free_pages_used stack.inside, Finset.mem_sdiff]
    exact ⟨taken_given_back code sub member, taken_apart stack (taken_old code member)⟩
  · rw [if_page_some some3] at result
    cases result
    have stays : usedSet q2 ⊆ usedSet phys.pmm := kept.used (Finset.Subset.refl _)
    have codeUsed : ∀ p, p < codePages → codeFirst + p ∈ usedSet q2 :=
      fun p bound => taken_old stack (taken_new code bound)
    have stackUsed : ∀ p, p < userStackPages → alloc + 1 + p ∈ usedSet q2 := by
      intro p bound
      rw [Nat.add_assoc]
      exact taken_new stack (by omega)
    refine Or.inr ⟨codeFirst, alloc + 1, pgd, rfl, rfl, rfl, whole, image,
      fun p bound => stays (codeUsed p bound), fun p bound => stays (stackUsed p bound),
      fun p bound => taken_fresh code bound, ?_, ?_⟩
    · intro p o bound small
      exact (kept.bytes _ (codeUsed p bound) o small).trans (stacked.bytes _ (taken_new code bound) o small)
    · intro p o bound small
      exact kept.bytes _ (stackUsed p bound) o small

end Spawning
end Archarch.AddressSpaces
