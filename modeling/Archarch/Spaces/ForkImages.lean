import Archarch.Spaces.Isolation

/- sched_fork rebuilds the child from the bases and counts in the parent's slot. The child
   is a copy exactly when the parent's table still says what the slot records; SYS_SBRK
   maps pages that the slot does not record. -/
namespace Archarch.AddressSpaces
open ByteMemory TranslationTables PageFrames LabelledRuns

def recordedPage (task : UserTask) (va : Nat) : Option Nat :=
  if va < vaLimit then imagePage task.codePa task.codePages task.stackPa (leafPath va) else none

structure Copied (s t : System) (parent child : Nat) : Prop where
  maps : ∀ va, (pageAt t child va).isSome ↔ (pageAt s parent va).isSome
  contents : ∀ va a b, pageAt t child va = some a → pageAt s parent va = some b →
    a ≠ b ∧ ∀ o, o < 4096 → t.phys.mem (a + o) = s.phys.mem (b + o)
  parentTable : ∀ p a, Occurs (roots t) t.phys.mem parent p a ↔ Occurs (roots s) s.phys.mem parent p a
  parentMemory : ∀ p a, Occurs (roots s) s.phys.mem parent p a →
    ∀ o, o < 4096 → t.phys.mem (a + o) = s.phys.mem (a + o)

structure MapsRecorded (s : System) (n : Nat) : Prop where
  maps : ∀ va, (pageAt s n va).isSome ↔ (recordedPage (s.tasks n) va).isSome
  contents : ∀ va a b, pageAt s n va = some a → recordedPage (s.tasks n) va = some b →
    ∀ o, o < 4096 → s.phys.mem (a + o) = s.phys.mem (b + o)

section Images
variable {s t : System} {n va a b : Nat}

theorem page_at_eq_some :
    pageAt s n va = some a ↔ va < vaLimit ∧ Occurs (roots s) s.phys.mem n (leafPath va) a := by
  refine ⟨page_at_occurs, ?_⟩
  rintro ⟨low, _, root, here, reached⟩
  rw [pageAt, if_pos low, here]
  exact reached

theorem image_page_pair (path : List Nat) {c d x y k : Nat} :
    (imagePage c k x path = none ∧ imagePage d k y path = none) ∨
    (∃ p, p < k ∧ imagePage c k x path = some (c + p * pageSize) ∧
      imagePage d k y path = some (d + p * pageSize)) ∨
    (∃ p, p < userStackPages ∧ imagePage c k x path = some (x + p * pageSize) ∧
      imagePage d k y path = some (y + p * pageSize)) := by
  unfold imagePage
  split
  · rename_i j
    cases last : lastPage codeIndex 0 k j with
    | none => exact Or.inl ⟨rfl, rfl⟩
    | some p =>
      have bound := last_page_some last
      exact Or.inr (Or.inl ⟨p, by omega, rfl, rfl⟩)
  · rename_i j
    cases last : lastPage (stackIndex userStackPages) 0 userStackPages j with
    | none => exact Or.inl ⟨rfl, rfl⟩
    | some p =>
      have bound := last_page_some last
      exact Or.inr (Or.inr ⟨p, by omega, rfl, rfl⟩)
  · exact Or.inl ⟨rfl, rfl⟩

section Spawned
variable {codePages heapBreak codeFirst stackFirst pgd : Nat} {loadCode loadStack : Mem → Nat → Mem}

theorem spawned_page_at
    (new : Spawned s t codePages heapBreak loadCode loadStack codeFirst stackFirst pgd) (va : Nat) :
    pageAt t s.numTasks va =
      if va < vaLimit then imagePage (pageToAddr codeFirst) codePages (pageToAddr stackFirst) (leafPath va)
      else none := by
  have root : roots t s.numTasks = some pgd :=
    (spawned_roots new _ _).mpr (Or.inr (single_some.mpr ⟨rfl, rfl⟩))
  rw [pageAt, root, Option.bind_some]
  split
  · refine Option.ext fun c => ?_
    rw [← new.tree.leaves (leafPath va) c rfl]
    constructor
    · intro reached
      exact ⟨leaf_path_valid va, pgd, single_some.mpr ⟨rfl, rfl⟩, reached⟩
    · rintro ⟨_, r, here, reached⟩
      rwa [(single_some.mp here).2] at reached
  · rfl

theorem spawned_maps_recorded
    (new : Spawned s t codePages heapBreak loadCode loadStack codeFirst stackFirst pgd) :
    MapsRecorded t s.numTasks := by
  have same : ∀ va, pageAt t s.numTasks va = recordedPage (t.tasks s.numTasks) va := by
    intro va
    rw [spawned_page_at new, recordedPage, new.tasks, Function.update_self]
  refine ⟨fun va => by rw [same], ?_⟩
  intro va a b here there o _
  rw [same va, there] at here
  cases here
  rfl

end Spawned

section Forked
variable {codeFirst stackFirst pgd : Nat}

abbrev Forked (s t : System) (n codeFirst stackFirst pgd : Nat) : Prop :=
  Spawned s t (s.tasks n).codePages (s.tasks n).heapBreak
    (fun m base => copyBytes m base (s.tasks n).codePa ((s.tasks n).codePages * pageSize % 2 ^ 32))
    (fun m base => copyBytes m base (s.tasks n).stackPa (userStackPages * pageSize))
    codeFirst stackFirst pgd

theorem forked_code_bytes {parentCode parentStack p o : Nat}
    (new : Forked s t n codeFirst stackFirst pgd)
    (recorded : Recorded s.phys (s.tasks n) parentCode parentStack) (bound : p < (s.tasks n).codePages)
    (small : o < 4096) : t.phys.mem (pageToAddr codeFirst + p * pageSize + o) =
      s.phys.mem ((s.tasks n).codePa + p * pageSize + o) := by
  have last := (mem_used_set.mp (recorded.code ((s.tasks n).codePages - 1) (by omega))).1
  have bytes := new.codeBytes p o bound small
  rw [total_pages_eq] at last
  rw [page_to_addr_add] at bytes
  rw [bytes]
  simp only [copyBytes]
  rw [page_size_eq, fill_inside (by omega)]
  congr 1
  omega

theorem forked_stack_bytes {parentCode parentStack p o : Nat}
    (new : Forked s t n codeFirst stackFirst pgd)
    (recorded : Recorded s.phys (s.tasks n) parentCode parentStack) (bound : p < userStackPages)
    (small : o < 4096) : t.phys.mem (pageToAddr stackFirst + p * pageSize + o) =
      s.phys.mem ((s.tasks n).stackPa + p * pageSize + o) := by
  have used := recorded.stack p bound
  have bytes := new.stackBytes p o bound small
  rw [page_to_addr_add] at bytes
  rw [bytes]
  have copied : copyBytes (copyBytes s.phys.mem (pageToAddr codeFirst) (s.tasks n).codePa
      ((s.tasks n).codePages * pageSize % 2 ^ 32)) (pageToAddr stackFirst) (s.tasks n).stackPa
      (userStackPages * pageSize) (pageToAddr stackFirst + p * pageSize + o) =
      copyBytes s.phys.mem (pageToAddr codeFirst) (s.tasks n).codePa
        ((s.tasks n).codePages * pageSize % 2 ^ 32) ((s.tasks n).stackPa + p * pageSize + o) := by
    rw [page_size_eq]
    refine (fill_inside (by omega)).trans ?_
    congr 1
    omega
  rw [copied]
  -- the stack of the parent is not in the new code pages
  have apart : parentStack + p < codeFirst ∨ codeFirst + (s.tasks n).codePages ≤ parentStack + p := by
    by_contra between
    refine new.fresh (parentStack + p - codeFirst) (by omega) ?_
    rwa [show codeFirst + (parentStack + p - codeFirst) = parentStack + p by omega]
  have product := Nat.mod_le ((s.tasks n).codePages * pageSize) (2 ^ 32)
  rw [page_size_eq] at product
  refine fill_outside ?_
  rw [recorded.stackPa, page_to_addr_eq, page_to_addr_eq, page_size_eq]
  omega

theorem forked_image {parentCode parentStack : Nat} (new : Forked s t n codeFirst stackFirst pgd)
    (recorded : Recorded s.phys (s.tasks n) parentCode parentStack) (va : Nat) :
    (pageAt t s.numTasks va = none ∧ recordedPage (s.tasks n) va = none) ∨
    ∃ a b, pageAt t s.numTasks va = some a ∧ recordedPage (s.tasks n) va = some b ∧
      ∀ o, o < 4096 → t.phys.mem (a + o) = s.phys.mem (b + o) := by
  rw [spawned_page_at new, recordedPage]
  split
  · rcases image_page_pair (leafPath va) (c := pageToAddr codeFirst) (d := (s.tasks n).codePa)
      (x := pageToAddr stackFirst) (y := (s.tasks n).stackPa) (k := (s.tasks n).codePages) with none | ⟨p, bound, child, parent⟩ | ⟨p, bound, child, parent⟩
    · exact Or.inl none
    · exact Or.inr ⟨_, _, child, parent, fun o small => forked_code_bytes new recorded bound small⟩
    · exact Or.inr ⟨_, _, child, parent, fun o small => forked_stack_bytes new recorded bound small⟩
  · exact Or.inl ⟨rfl, rfl⟩

end Forked

theorem fork_copies_iff_recorded (kernelEnd : Nat) (s t : System) (n child : Nat)
    (run : Ran kernelEnd s) (alive : Alive s n) (fork : schedFork s n = ((child : Int), t)) :
    Copied s t n child ↔ MapsRecorded s n := by
  have inv := ran_inv run
  rcases sched_fork_spec fork with ⟨failed, _⟩ | ⟨codeFirst, stackFirst, pgd, number, user, new⟩
  · omega
  obtain rfl : child = s.numTasks := by omega
  obtain ⟨parentCode, parentStack, recorded⟩ := inv.recorded n alive.1 user
  have image := forked_image new recorded
  constructor
  · intro copied
    refine ⟨?_, ?_⟩
    · intro va
      rw [← copied.maps va]
      rcases image va with ⟨first, second⟩ | ⟨a, b, first, second, _⟩
      · rw [first, second]
      · rw [first, second]
        exact Iff.rfl
    · intro va a b here there o small
      rcases image va with ⟨_, second⟩ | ⟨c, d, first, second, same⟩
      · rw [second] at there
        cases there
      · rw [second] at there
        cases there
        rw [← (copied.contents va c a first here).2 o small]
        exact same o small
  · intro maps
    obtain ⟨_, occurs⟩ := trees_preserved inv.trees new.preserves
    have root : roots t n = roots s n := by
      refine Option.ext fun r => ?_
      rw [spawned_roots new, or_iff_left]
      intro other
      have := (single_some.mp other).1
      have := alive.1
      omega
    refine ⟨?_, ?_, ?_, ?_⟩
    · intro va
      rw [maps.maps va]
      rcases image va with ⟨first, second⟩ | ⟨a, b, first, second, _⟩
      · rw [first, second]
      · rw [first, second]
        exact Iff.rfl
    · intro va a b here there
      obtain ⟨low, leaf⟩ := page_at_occurs there
      obtain ⟨old, rfl, used, _⟩ := inv.trees.owned n _ b leaf
      refine ⟨?_, ?_⟩
      · rintro rfl
        -- a page of the new tree was not in use before
        rw [spawned_page_at new, if_pos low] at here
        have held := new.tree.trees.owned _ _ _ ((new.tree.leaves _ _ rfl).mpr here)
        exact (held_page.mp held).2 used
      · intro o small
        rcases image va with ⟨first, _⟩ | ⟨c, d, first, second, same⟩
        · rw [first] at here
          cases here
        · rw [first] at here
          cases here
          rw [maps.contents va _ d there second o small]
          exact same o small
    · intro p a
      rw [← occurs n p a]
      refine and_congr_right fun _ => ?_
      rw [root]
    · intro p a here
      obtain ⟨page, rfl, used, _⟩ := inv.trees.owned n p a here
      exact new.preserves.bytes page used

end Images

theorem fork_of_new_task_copies : ∃ s t, Ran 0x40001000 s ∧ schedFork s 1 = (2, t) ∧
    MapsRecorded s 1 ∧ Copied s t 1 2 ∧ pageAt t 2 0x401000 = some 0x40011000 ∧
    t.phys.mem 0x40011003 = 4 := by
  have look : (runActions systemStep (freshSystem 0x40001000) [.createUser smallImage]).any
      (fun s => decide (s.numTasks = 2 ∧ Alive s 1 ∧ (schedFork s 1).1 = 2 ∧
        pageAt (schedFork s 1).2 2 0x401000 = some 0x40011000 ∧
        (schedFork s 1).2.phys.mem 0x40011003 = 4)) = true := by
    decide +kernel
  obtain ⟨s, run, found⟩ := (Option.any_eq_true _ _).mp look
  obtain ⟨count, alive, number, page, byte⟩ := of_decide_eq_true found
  have reached : Ran 0x40001000 s := ran_of_actions (by decide) (by decide) run
  have made : (schedCreateUser (freshSystem 0x40001000) smallImage).2 = s := Option.some.inj run
  have maps : MapsRecorded s 1 := by
    rcases sched_create_user_spec (t := s) (Prod.ext rfl made) with ⟨_, not⟩ | ⟨_, _, _, _, new⟩
    · rw [not.count] at count
      exact absurd count (by decide)
    · exact spawned_maps_recorded new
  have fork : schedFork s 1 = (((2 : Nat) : Int), (schedFork s 1).2) := Prod.ext number rfl
  exact ⟨s, _, reached, fork, maps,
    (fork_copies_iff_recorded 0x40001000 s _ 1 2 reached alive fork).mpr maps, page, byte⟩

/-- One byte of heap is enough: the child has the break of its parent and no page there. -/
theorem fork_drops_heap_page : ∃ s t, Ran 0x40001000 s ∧ Alive s 1 ∧ schedFork s 1 = (2, t) ∧
    (t.tasks 2).heapBreak = 0x405001 ∧ pageAt s 1 0x405000 = some 0x4000f000 ∧
    pageAt t 2 0x405000 = none ∧ ¬ Copied s t 1 2 := by
  have look : (runActions systemStep (freshSystem 0x40001000)
      [.createUser emptyImage, .sbrk 1 1]).any (fun s => decide (Alive s 1 ∧
        (schedFork s 1).1 = 2 ∧ ((schedFork s 1).2.tasks 2).heapBreak = 0x405001 ∧
        pageAt s 1 0x405000 = some 0x4000f000 ∧
        pageAt (schedFork s 1).2 2 0x405000 = none)) = true := by
    decide +kernel
  obtain ⟨s, run, found⟩ := (Option.any_eq_true _ _).mp look
  obtain ⟨alive, number, heap, parent, child⟩ := of_decide_eq_true found
  refine ⟨s, (schedFork s 1).2, ran_of_actions (by decide) (by decide) run, alive, Prod.ext number rfl, heap,
    parent, child, ?_⟩
  intro copied
  have both := copied.maps 0x405000
  rw [parent, child] at both
  exact absurd (both.mpr rfl) (by decide)

end Archarch.AddressSpaces
