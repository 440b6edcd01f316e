import Archarch.Memory.PmmRuns
import Archarch.Spaces.Spawning

/- Every page of the trees of all tasks occurs once: nothing but the bitmap and the trees
   themselves says who owns a page. -/
namespace Archarch.AddressSpaces
open ByteMemory TranslationTables PageFrames LabelledRuns

structure Recorded (s : Phys) (task : UserTask) (codeFirst stackFirst : Nat) : Prop where
  codePa : task.codePa = pageToAddr codeFirst
  stackPa : task.stackPa = pageToAddr stackFirst
  code : ∀ p, p < task.codePages → codeFirst + p ∈ usedSet s.pmm
  stack : ∀ p, p < userStackPages → stackFirst + p ∈ usedSet s.pmm

structure SpacesInv (reserved : Nat) (s : System) : Prop where
  kernel : Finset.range reserved ⊆ usedSet s.phys.pmm
  trees : Trees (Finset.range reserved) (roots s) s.phys
  recorded : ∀ n, n < s.numTasks → (s.tasks n).isUser = true →
    ∃ codeFirst stackFirst, Recorded s.phys (s.tasks n) codeFirst stackFirst

section Steps
variable {s t : System} {n reserved : Nat}

theorem roots_some {r : Nat} :
    roots s n = some r ↔ n < s.numTasks ∧ (s.tasks n).isUser = true ∧ (s.tasks n).ttbr0 = r := by
  unfold roots
  split
  · rename_i here
    simp [here]
  · rename_i absent
    simp only [reduceCtorEq, false_iff]
    rintro ⟨low, user, _⟩
    exact absent ⟨low, user⟩

theorem recorded_grown {p q : Phys} {task : UserTask} {codeFirst stackFirst : Nat}
    (recorded : Recorded p task codeFirst stackFirst) (grown : usedSet p.pmm ⊆ usedSet q.pmm) :
    Recorded q task codeFirst stackFirst :=
  ⟨recorded.codePa, recorded.stackPa, fun p bound => grown (recorded.code p bound),
    fun p bound => grown (recorded.stack p bound)⟩

structure SameSlots (s t : System) : Prop where
  count : t.numTasks = s.numTasks
  slots : ∀ n, (t.tasks n).isUser = (s.tasks n).isUser ∧ (t.tasks n).ttbr0 = (s.tasks n).ttbr0 ∧
    (t.tasks n).codePa = (s.tasks n).codePa ∧ (t.tasks n).codePages = (s.tasks n).codePages ∧
    (t.tasks n).stackPa = (s.tasks n).stackPa

theorem same_slots_of_tasks (tasks : t.tasks = s.tasks) (count : t.numTasks = s.numTasks) :
    SameSlots s t := by
  refine ⟨count, ?_⟩
  intro n
  rw [tasks]
  exact ⟨rfl, rfl, rfl, rfl, rfl⟩

theorem same_slots_roots (same : SameSlots s t) : roots t = roots s := by
  funext n
  obtain ⟨user, root, _⟩ := same.slots n
  rw [roots, roots, same.count, user, root]

theorem spaces_inv_slots (inv : SpacesInv reserved s) (same : SameSlots s t)
    (grown : usedSet s.phys.pmm ⊆ usedSet t.phys.pmm)
    (trees : Trees (Finset.range reserved) (roots s) t.phys) : SpacesInv reserved t := by
  refine ⟨inv.kernel.trans grown, ?_, ?_⟩
  · rw [same_slots_roots same]
    exact trees
  · intro n low user
    obtain ⟨isUser, _, codePa, codePages, stackPa⟩ := same.slots n
    obtain ⟨codeFirst, stackFirst, recorded⟩ := inv.recorded n (by rw [← same.count]; exact low)
      (by rw [← isUser]; exact user)
    refine ⟨codeFirst, stackFirst, codePa.trans recorded.codePa, stackPa.trans recorded.stackPa, ?_,
      fun p bound => grown (recorded.stack p bound)⟩
    intro p bound
    exact grown (recorded.code p (by rw [← codePages]; exact bound))

theorem trees_preserved {base : Finset Nat} {tree : Nat → Option Nat} {p q : Phys}
    (trees : Trees base tree p) (preserves : Preserves (usedSet p.pmm) p q) :
    Trees base tree q ∧ ∀ n path a, Occurs tree q.mem n path a ↔ Occurs tree p.mem n path a :=
  trees_frame trees (preserves.used (Finset.Subset.refl _))
    fun page member _ o small => preserves.bytes page member o small

theorem spaces_inv_not_spawned (inv : SpacesInv reserved s) (not : NotSpawned s t) :
    SpacesInv reserved t :=
  spaces_inv_slots inv (same_slots_of_tasks not.tasks not.count)
    (not.preserves.used (Finset.Subset.refl _)) (trees_preserved inv.trees not.preserves).1

section Spawned
variable {codePages heapBreak codeFirst stackFirst pgd : Nat} {loadCode loadStack : Mem → Nat → Mem}

theorem spawned_roots (new : Spawned s t codePages heapBreak loadCode loadStack codeFirst stackFirst pgd)
    (n r : Nat) : roots t n = some r ↔ roots s n = some r ∨ single s.numTasks pgd n = some r := by
  simp only [roots_some, single_some, new.tasks, new.count, Function.update_apply]
  split
  · rename_i same
    subst same
    simp only [Nat.lt_irrefl, Nat.lt_add_one, false_and, false_or, true_and]
    exact eq_comm
  · rename_i other
    have bound : n < s.numTasks + 1 ↔ n < s.numTasks := by omega
    rw [bound]
    simp only [other, false_and, or_false]

theorem spaces_inv_spawned (inv : SpacesInv reserved s)
    (new : Spawned s t codePages heapBreak loadCode loadStack codeFirst stackFirst pgd) :
    SpacesInv reserved t := by
  have grown := new.preserves.used (Finset.Subset.refl _)
  have old : Forest (Held (Finset.range reserved) s.phys) (roots s) t.phys.mem := by
    refine forest_frame inv.trees ?_
    intro n p a here _
    obtain ⟨page, rfl, used, _⟩ := inv.trees.owned n p a here
    exact new.preserves.bytes page used
  have apart : ∀ a, Held (Finset.range reserved) s.phys a → ¬ Held (usedSet s.phys.pmm) t.phys a := by
    rintro a ⟨page, rfl, used, _⟩ other
    exact (held_page.mp other).2 used
  refine ⟨inv.kernel.trans grown, ?_, ?_⟩
  · have both := forest_union old new.tree.trees apart (fun n r => spawned_roots new n r)
    refine forest_own both ?_
    intro n p a here
    rcases both.owned n p a here with ⟨page, rfl, used, outside⟩ | ⟨page, rfl, used, outside⟩
    · exact held_page.mpr ⟨grown used, outside⟩
    · exact held_page.mpr ⟨used, fun member => outside (inv.kernel member)⟩
  · intro n low user
    rw [new.tasks] at user ⊢
    rw [new.count] at low
    by_cases here : n = s.numTasks
    · subst here
      rw [Function.update_self]
      exact ⟨codeFirst, stackFirst, rfl, rfl, new.code, new.stack⟩
    · rw [Function.update_of_ne here] at user ⊢
      obtain ⟨code, stack, recorded⟩ := inv.recorded n (by omega) user
      exact ⟨code, stack, recorded_grown recorded grown⟩

end Spawned

theorem image_pages_bound (image : Image) : image.size ≤ imagePages image.size * pageSize := by
  have small := image.small
  simp only [imagePages]
  split
  · rename_i none
    rw [page_size_eq] at none ⊢
    omega
  · rw [page_size_eq]
    omega

theorem load_image_inside (image : Image) : LoadsInto (imagePages image.size)
    fun m base => loadImage m base (imagePages image.size) image := by
  intro m base x outside
  have bound := image_pages_bound image
  have product := Nat.mod_le (imagePages image.size * pageSize) (2 ^ 32)
  simp only [loadImage]
  rw [fill_outside (by omega), fill_outside (by omega)]

theorem copy_bytes_inside {pages src size : Nat} (fits : size ≤ pages * pageSize) :
    LoadsInto pages fun m base => copyBytes m base src size := by
  intro m base x outside
  exact fill_outside (by omega)

theorem load_nothing_inside (pages : Nat) : LoadsInto pages fun m _ => m :=
  fun _ _ _ _ => rfl

theorem sched_create_user_spec {image : Image} {r : Int} (result : schedCreateUser s image = (r, t)) :
    (r = -1 ∧ NotSpawned s t) ∨ ∃ codeFirst stackFirst pgd, r = s.numTasks ∧
      Spawned s t (imagePages image.size) (userVaCode + imagePages image.size * pageSize)
        (fun m base => loadImage m base (imagePages image.size) image) (fun m _ => m)
        codeFirst stackFirst pgd := by
  rw [sched_create_user_eq] at result
  split at result
  · cases result
    exact Or.inl ⟨rfl, rfl, rfl, preserves_refl _ _⟩
  · exact spawn_spec (load_image_inside image) (load_nothing_inside _) result

theorem sched_fork_spec {current : Nat} {r : Int} (result : schedFork s current = (r, t)) :
    (r = -1 ∧ NotSpawned s t) ∨ ∃ codeFirst stackFirst pgd, r = s.numTasks ∧
      (s.tasks current).isUser = true ∧
      Spawned s t (s.tasks current).codePages (s.tasks current).heapBreak
        (fun m base => copyBytes m base (s.tasks current).codePa
          ((s.tasks current).codePages * pageSize % 2 ^ 32))
        (fun m base => copyBytes m base (s.tasks current).stackPa (userStackPages * pageSize))
        codeFirst stackFirst pgd := by
  rw [sched_fork_eq] at result
  split at result
  · cases result
    exact Or.inl ⟨rfl, rfl, rfl, preserves_refl _ _⟩
  · rename_i user
    split at result
    · cases result
      exact Or.inl ⟨rfl, rfl, rfl, preserves_refl _ _⟩
    · rcases spawn_spec (copy_bytes_inside (Nat.mod_le _ _)) (copy_bytes_inside (Nat.le_refl _))
        result with not | ⟨codeFirst, stackFirst, pgd, number, new⟩
      · exact Or.inl not
      · exact Or.inr ⟨codeFirst, stackFirst, pgd, number, by simpa using user, new⟩

theorem spaces_inv_sbrk {increment : BitVec 64} {r : BitVec 64} (inv : SpacesInv reserved s)
    (low : n < s.numTasks) (result : sysSbrk s n increment = (r, t)) : SpacesInv reserved t := by
  unfold sysSbrk at result
  dsimp only at result
  split at result
  · cases result
    exact inv
  rename_i user
  split at result
  · cases result
    exact inv
  split at result
  · cases result
    exact inv
  have root : roots s n = some (s.tasks n).ttbr0 := roots_some.mpr ⟨low, by simpa using user, rfl⟩
  rcases grown : sbrkPages s.phys (s.tasks n).ttbr0 (pageAlignUp (s.tasks n).heapBreak)
    ((pageAlignUp (((s.tasks n).heapBreak + increment.toNat) % 2 ^ 64) -
      pageAlignUp (s.tasks n).heapBreak) / pageSize) with ⟨failed, phys⟩
  obtain ⟨used, trees⟩ := sbrk_pages_spec inv.trees inv.kernel root grown
  rw [grown] at result
  dsimp only at result
  split at result
  · cases result
    exact spaces_inv_slots inv (same_slots_of_tasks rfl rfl) used trees
  · cases result
    refine spaces_inv_slots inv ⟨rfl, ?_⟩ used trees
    intro k
    by_cases here : k = n
    · subst here
      simp
    · simp [Function.update_of_ne here]

theorem spaces_inv_exit (inv : SpacesInv reserved s) : SpacesInv reserved (schedExit s n) := by
  refine spaces_inv_slots inv ⟨rfl, ?_⟩ (Finset.Subset.refl _) inv.trees
  intro k
  by_cases here : k = n
  · subst here
    simp [schedExit]
  · simp [schedExit, Function.update_of_ne here]

theorem leaf_path_valid (va : Nat) : ValidPath (leafPath va) := by
  refine ⟨Nat.le_refl _, ?_⟩
  intro i member
  simp only [leafPath, List.mem_cons, List.not_mem_nil, or_false] at member
  omega

theorem page_at_occurs {va a : Nat} (found : pageAt s n va = some a) :
    va < vaLimit ∧ Occurs (roots s) s.phys.mem n (leafPath va) a := by
  unfold pageAt at found
  split at found
  · rename_i low
    obtain ⟨root, here, reached⟩ := Option.bind_eq_some_iff.mp found
    exact ⟨low, leaf_path_valid va, root, here, reached⟩
  · cases found

theorem store_keeps_tables {va a : Nat} {byte : BitVec 8} (inv : SpacesInv reserved s)
    (found : pageAt s n va = some a) : ∀ k p b, Occurs (roots s) s.phys.mem k p b → p.length < levels →
      ∀ o, o < 4096 → Function.update s.phys.mem (a + va % 4096) byte (b + o) = s.phys.mem (b + o) := by
  intro k p b table short o small
  obtain ⟨_, here⟩ := page_at_occurs found
  obtain ⟨page, rfl, _, _⟩ := inv.trees.owned n _ a here
  -- the page written is a leaf, so it is not this table
  have apart : b ≠ pageToAddr page := by
    rintro rfl
    obtain ⟨_, same⟩ := inv.trees.unique k n p (leafPath va) _ table here
    rw [same] at short
    exact absurd short (Nat.lt_irrefl levels)
  obtain ⟨other, rfl, _, _⟩ := inv.trees.owned k p b table
  have elsewhere : pageToAddr other + o ≠ pageToAddr page + va % 4096 := by
    rw [page_to_addr_eq, page_to_addr_eq] at apart ⊢
    omega
  exact Function.update_of_ne elsewhere _ _

theorem spaces_inv_store {va : Nat} {byte : BitVec 8} (inv : SpacesInv reserved s)
    (result : userStore s n va byte = some t) : SpacesInv reserved t := by
  obtain ⟨a, found, rfl⟩ := Option.map_eq_some_iff.mp result
  refine spaces_inv_slots inv (same_slots_of_tasks rfl rfl) (Finset.Subset.refl _) ?_
  exact forest_frame inv.trees (store_keeps_tables inv found)

theorem spaces_inv_start {kernelEnd : Nat} (booted : Booted kernelEnd s) :
    SpacesInv (reservedCount kernelEnd) s := by
  have idle : ∀ k, k < s.numTasks → (s.tasks k).isUser ≠ true := by
    intro k low
    rw [booted.alone] at low
    have zero : k = 0 := by omega
    rw [zero, booted.idle]
    decide
  have nothing : ∀ k p a, ¬ Occurs (roots s) s.phys.mem k p a := by
    rintro k p a ⟨_, r, root, _⟩
    obtain ⟨low, user, _⟩ := roots_some.mp root
    exact idle k low user
  refine ⟨booted.reserved, ⟨?_, ?_, ?_⟩, fun k low user => absurd user (idle k low)⟩
  · intro k l p q a found
    exact absurd found (nothing k p a)
  · intro k p a found
    exact absurd found (nothing k p a)
  · intro k p a i found
    exact absurd found (nothing k p a)

theorem system_step_inv {action : Action} (inv : SpacesInv reserved s)
    (step : systemStep s action = some t) : SpacesInv reserved t := by
  cases action with
  | createUser image =>
    cases step
    rcases sched_create_user_spec (show schedCreateUser s image = (_, _) from rfl) with ⟨_, not⟩ | ⟨_, _, _, _, new⟩
    · exact spaces_inv_not_spawned inv not
    · exact spaces_inv_spawned inv new
  | fork current =>
    simp only [systemStep] at step
    split at step
    · cases step
      rcases sched_fork_spec (show schedFork s current = (_, _) from rfl) with ⟨_, not⟩ | ⟨_, _, _, _, _, new⟩
      · exact spaces_inv_not_spawned inv not
      · exact spaces_inv_spawned inv new
    · cases step
  | sbrk current increment =>
    simp only [systemStep] at step
    split at step
    · rename_i alive
      cases step
      exact spaces_inv_sbrk inv alive.1 rfl
    · cases step
  | exit current =>
    simp only [systemStep] at step
    split at step
    · cases step
      exact spaces_inv_exit inv
    · cases step
  | store current va byte =>
    simp only [systemStep] at step
    split at step
    · exact spaces_inv_store inv step
    · cases step

theorem ran_inv {kernelEnd : Nat} (run : Ran kernelEnd s) : SpacesInv (reservedCount kernelEnd) s := by
  refine reaches_invariant _ ?_ ?_ run
  · intro s booted
    exact spaces_inv_start booted
  · intro s action t inv step
    exact system_step_inv inv step

end Steps

theorem leaf_path_eq {va wa : Nat} (first : va < vaLimit) (second : wa < vaLimit)
    (same : leafPath va = leafPath wa) : va / 4096 = wa / 4096 := by
  simp only [leafPath, List.cons.injEq] at same
  simp only [vaLimit] at first second
  omega

/-- once and marked are about every page of every tree, tables and leaves; entries says that
   the tables hold nothing else. -/
structure Isolated (kernelEnd : Nat) (s : System) : Prop where
  once : ∀ n k p q a, Occurs (roots s) s.phys.mem n p a → Occurs (roots s) s.phys.mem k q a →
    n = k ∧ p = q
  marked : ∀ n p a, Occurs (roots s) s.phys.mem n p a → ∃ page, a = pageToAddr page ∧
    page < totalPages ∧ bitTest s.phys.pmm.bitmap page = true ∧ pageAlignUp kernelEnd ≤ a
  entries : ∀ n p a i, Occurs (roots s) s.phys.mem n p a → p.length < levels → i < 512 →
    entryAt s.phys.mem a i = 0 ∨ Present (entryAt s.phys.mem a i)
  separate : ∀ n k va wa a, pageAt s n va = some a → pageAt s k wa = some a →
    n = k ∧ va / 4096 = wa / 4096
  noTable : ∀ n k va p a, pageAt s n va = some a → Occurs (roots s) s.phys.mem k p a →
    p.length = levels

theorem address_spaces_isolated (kernelEnd : Nat) (low : ramBase ≤ kernelEnd)
    (high : kernelEnd ≤ ramEnd) (s : System) (run : Ran kernelEnd s) : Isolated kernelEnd s := by
  have inv := ran_inv run
  obtain ⟨boundary, _⟩ := reserved_count_address low high
  refine ⟨inv.trees.unique, ?_, ?_, ?_, ?_⟩
  · intro n p a here
    obtain ⟨page, rfl, used, outside⟩ := inv.trees.owned n p a here
    obtain ⟨inside, marked⟩ := mem_used_set.mp used
    rw [Finset.mem_range] at outside
    refine ⟨page, rfl, inside, marked, ?_⟩
    rw [← boundary, page_to_addr_eq, page_to_addr_eq]
    omega
  · intro n p a i here short small
    exact (inv.trees.entries n p a i here short small).imp_right And.left
  · intro n k va wa a first second
    obtain ⟨lowV, here⟩ := page_at_occurs first
    obtain ⟨lowW, there⟩ := page_at_occurs second
    obtain ⟨same, path⟩ := inv.trees.unique n k _ _ a here there
    exact ⟨same, leaf_path_eq lowV lowW path⟩
  · intro n k va p a first table
    obtain ⟨_, here⟩ := page_at_occurs first
    obtain ⟨_, path⟩ := inv.trees.unique n k _ _ a here table
    rw [← path]
    rfl

def freshSystem (kernelEnd : Nat) : System :=
  ⟨⟨fun _ => 0, pmmInit kernelEnd⟩, fun _ => idleTask, 1⟩

theorem fresh_system_booted {kernelEnd : Nat} (low : ramBase ≤ kernelEnd) (high : kernelEnd ≤ ramEnd) :
    Booted kernelEnd (freshSystem kernelEnd) :=
  ⟨rfl, rfl, by rw [freshSystem, pmm_init_used low high]⟩

theorem ran_of_actions {kernelEnd : Nat} (low : ramBase ≤ kernelEnd) (high : kernelEnd ≤ ramEnd)
    {actions : List Action} {s : System}
    (run : runActions systemStep (freshSystem kernelEnd) actions = some s) : Ran kernelEnd s :=
  reaches_of_actions (Reaches.start (fresh_system_booted low high)) run

def emptyImage : Image := ⟨fun _ => 0, 0, by decide⟩

/-- A page of code and four bytes. -/
def smallImage : Image := ⟨fun i => BitVec.ofNat 8 (i + 1), 4100, by decide⟩

theorem isolated_after_fork : ∃ s, Ran 0x40001000 s ∧ s.numTasks = 3 ∧
    pageAt s 1 0x406000 = some 0x40010000 ∧ pageAt s 2 0x401000 = some 0x40012000 ∧
    Isolated 0x40001000 s := by
  have look : (runActions systemStep (freshSystem 0x40001000)
      [.createUser smallImage, .sbrk 1 1, .fork 1, .exit 1]).any (fun s => decide (s.numTasks = 3 ∧
        pageAt s 1 0x406000 = some 0x40010000 ∧ pageAt s 2 0x401000 = some 0x40012000)) = true := by
    decide +kernel
  obtain ⟨s, run, found⟩ := (Option.any_eq_true _ _).mp look
  obtain ⟨count, heap, code⟩ := of_decide_eq_true found
  have reached : Ran 0x40001000 s := ran_of_actions (by decide) (by decide) run
  exact ⟨s, reached, count, heap, code,
    address_spaces_isolated 0x40001000 (by decide) (by decide) s reached⟩

end Archarch.AddressSpaces
