import Archarch.Files.Descriptors
import Archarch.Spaces.Isolation
import Archarch.Tasks.Scheduler

/- What a failed sched_create_user or sched_fork leaves behind. Behind the checks both take
   pages for the code, five pages for the stack and its guard, and four tables one by one. -/
namespace Archarch.AddressSpaces
open ByteMemory TranslationTables PageFrames

def HoldsImage (p : Pmm) (codePages : Nat) : Prop :=
  ∃ first, firstRun p codePages = some first ∧
    FreeRun (withRun p first codePages) (userStackPages + 1)

def LacksTables (p : Pmm) (codePages : Nat) : Prop :=
  HoldsImage p codePages ∧ codePages + 7 ≤ freeCount p ∧ freeCount p < codePages + 9

section Spawning
variable {s t : System} {codePages heapBreak : Nat} {loadCode loadStack : Mem → Nat → Mem} {r : Int}

theorem first_run_taken {p : Pmm} {first n : Nat} (found : firstRun p n = some first) :
    RunTaken p (withRun p first n) first n := by
  obtain ⟨_, inside, clear⟩ := first_run_some found
  exact ⟨inside, (free_run_iff_apart inside).mpr clear,
    used_set_set_bits (q := withRun p first n) inside rfl⟩

theorem taken_count {p q : Pmm} {first n : Nat} (taken : RunTaken p q first n) : freeCount p = freeCount q + n :=
  free_count_run taken.inside taken.apart taken.used

theorem holds_image_first {p : Pmm} {first : Nat} (found : firstRun p codePages = some first) :
    HoldsImage p codePages ↔ FreeRun (withRun p first codePages) (userStackPages + 1) := by
  constructor
  · rintro ⟨other, here, run⟩
    rw [found] at here
    cases here
    exact run
  · intro run
    exact ⟨first, found, run⟩

/-- What is free when all pages were in use and the two runs have come back. -/
theorem full_given_back {p q u v : Pmm} {first alloc n k : Nat} (code : RunTaken p q first n)
    (stack : RunTaken q u alloc k) (full : usedSet v = Finset.range totalPages) :
    freeCount (pmmFreePages (pmmFreePages v (pageToAddr first) n) (pageToAddr alloc) k) = n + k := by
  have within : ∀ {low count : Nat}, low + count ≤ totalPages →
      Finset.Ico low (low + count) ⊆ Finset.range totalPages := by
    intro low count bound page member
    exact Finset.mem_range.mpr (Nat.lt_of_lt_of_le (Finset.mem_Ico.mp member).2 bound)
  have one : freeCount (pmmFreePages v (pageToAddr first) n) = n := by
    rw [free_count_released code.inside (by rw [full]; exact within code.inside),
      free_count_zero_iff.mpr full, Nat.zero_add]
  have rest : Finset.Ico alloc (alloc + k) ⊆ usedSet (pmmFreePages v (pageToAddr first) n) := by
    rw [pmm_free_pages_used code.inside, full]
    refine Finset.subset_sdiff.mpr ⟨within stack.inside, ?_⟩
    have apart := stack.apart
    rw [code.used] at apart
    exact (Finset.disjoint_union_left.mp apart).2.symm
  rw [free_count_released stack.inside rest, one]

theorem spawn_memory (result : spawn s codePages heapBreak loadCode loadStack = (r, t)) :
    r = s.numTasks ∧ HoldsImage s.phys.pmm codePages ∧ codePages + 9 ≤ freeCount s.phys.pmm ∨
    r = -1 ∧ t.tasks = s.tasks ∧ t.numTasks = s.numTasks ∧
      (t.phys.pmm = s.phys.pmm ∧
          (HoldsImage s.phys.pmm codePages → freeCount s.phys.pmm < codePages + 7) ∨
        freeCount t.phys.pmm = codePages + (userStackPages + 1) ∧
          LacksTables s.phys.pmm codePages) := by
  unfold spawn at result
  rw [pmm_alloc_pages_eq] at result
  cases found : firstRun s.phys.pmm codePages with
  | none =>
    rw [found, if_page_none] at result
    obtain ⟨rfl, rfl⟩ := Prod.mk.inj result
    refine Or.inr ⟨rfl, rfl, rfl, Or.inl ⟨rfl, ?_⟩⟩
    rintro ⟨first, other, _⟩
    rw [found] at other
    cases other
  | some first =>
    have code := first_run_taken found
    have count := taken_count code
    obtain ⟨_, inside, clear⟩ := first_run_some found
    rw [found, if_page_some (page_to_addr_ne_zero first), pmm_alloc_pages_eq] at result
    cases next : firstRun (withRun s.phys.pmm first codePages) (userStackPages + 1) with
    | none =>
      rw [next, if_page_none] at result
      obtain ⟨rfl, rfl⟩ := Prod.mk.inj result
      refine Or.inr ⟨rfl, rfl, rfl, Or.inl ⟨with_run_undone inside clear, ?_⟩⟩
      intro image
      obtain ⟨alloc, other⟩ := (first_run_exists_iff (by decide)).mpr ((holds_image_first found).mp image)
      rw [next] at other
      cases other
    | some alloc =>
      have stack := first_run_taken next
      have count' : freeCount (withRun s.phys.pmm first codePages) = freeCount
          (withRun (withRun s.phys.pmm first codePages) alloc (userStackPages + 1)) + 5 := taken_count stack
      obtain ⟨_, inside', clear'⟩ := first_run_some next
      have image : HoldsImage s.phys.pmm codePages :=
        (holds_image_first found).mpr ((first_run_exists_iff (by decide)).mp ⟨alloc, next⟩)
      rw [next, if_page_some (page_to_addr_ne_zero alloc)] at result
      dsimp only at result
      rw [stack_behind_guard] at result
      rcases made : mmuCreateUserPgd ⟨loadStack (loadCode s.phys.mem (pageToAddr first))
        (pageToAddr (alloc + 1)), withRun (withRun s.phys.pmm first codePages) alloc
          (userStackPages + 1)⟩ (pageToAddr first) codePages (pageToAddr (alloc + 1)) userStackPages
        with ⟨pgd, phys⟩
      obtain ⟨_, ends⟩ := mmu_create_user_pgd_spec s.numTasks (new_buffers code stack) made
      rw [made] at result
      rcases ends with ⟨rfl, ⟨same, few⟩ | ⟨full, two, three⟩⟩ | ⟨some, four, _⟩
      · rw [if_page_none] at result
        obtain ⟨rfl, rfl⟩ := Prod.mk.inj result
        have whole : pmmFreePages (pmmFreePages phys.pmm (pageToAddr first) codePages)
            (pageToAddr alloc) (userStackPages + 1) = s.phys.pmm := by
          rw [same]
          exact with_runs_undone inside inside' clear clear'
        refine Or.inr ⟨rfl, rfl, rfl, Or.inl ⟨?_, ?_⟩⟩
        · dsimp only
          exact whole
        · intro _
          dsimp only at few
          omega
      · rw [if_page_none] at result
        obtain ⟨rfl, rfl⟩ := Prod.mk.inj result
        dsimp only at two three
        refine Or.inr ⟨rfl, rfl, rfl, Or.inr ⟨?_, image, by omega, by omega⟩⟩
        dsimp only
        exact full_given_back code stack full
      · rw [if_page_some some] at result
        obtain ⟨rfl, rfl⟩ := Prod.mk.inj result
        dsimp only at four
        exact Or.inl ⟨rfl, image, by omega⟩

theorem create_user_succeeds {image : Image} (room : s.numTasks < schedMaxTasks)
    (holds : HoldsImage s.phys.pmm (imagePages image.size))
    (enough : imagePages image.size + 9 ≤ freeCount s.phys.pmm)
    (result : schedCreateUser s image = (r, t)) : r = s.numTasks := by
  rw [sched_create_user_eq, if_neg (by omega)] at result
  rcases spawn_memory result with ⟨number, _⟩ | ⟨_, _, _, ⟨_, few⟩ | ⟨_, _, _, few⟩⟩
  · exact number
  · have := few holds
    omega
  · omega

end Spawning

/-- A task slot is spread over three tables: its memory, its scheduling and its descriptors. -/
structure Kernel where
  system : System
  sched : Scheduling.Sched
  files : Descriptors.Files

/-- sched_create_user. Scheduling and descriptors of the new slot are filled in behind the
    last call that can fail. -/
def createUser (k : Kernel) (image : Image) : Option (Int × Kernel) :=
  let made := schedCreateUser k.system image
  if made.1 < 0 then some (made.1, { k with system := made.2 })
  else
    let id := made.1.toNat
    some (made.1, ⟨made.2, (Scheduling.schedCreateUser k.sched (made.2.tasks id).ttbr0).2,
      { Descriptors.fdTableInit k.files id with numTasks := id + 1 }⟩)

/-- sched_fork of the running task. -/
def fork (k : Kernel) : Option (Int × Kernel) :=
  let parent := k.sched.currentTask
  let made := schedFork k.system parent
  if made.1 < 0 then some (made.1, { k with system := made.2 })
  else
    let id := made.1.toNat
    (Descriptors.fdTableDup k.files id parent).map fun files =>
      (made.1, ⟨made.2, (Scheduling.schedFork k.sched (made.2.tasks id).ttbr0).2,
        { files with numTasks := id + 1 }⟩)

inductive Creation where
  | createUser (image : Image)
  | fork

def create (k : Kernel) : Creation → Option (Int × Kernel)
  | .createUser image => createUser k image
  | .fork => fork k

structure Unchanged (k l : Kernel) : Prop where
  pmm : l.system.phys.pmm = k.system.phys.pmm
  tasks : l.system.tasks = k.system.tasks
  count : l.system.numTasks = k.system.numTasks
  sched : l.sched = k.sched
  files : l.files = k.files

/-- A call that gets past its checks and finds too few pages for its tables. -/
def Leaks (k : Kernel) : Creation → Prop
  | .createUser image => k.system.numTasks < schedMaxTasks ∧
      LacksTables k.system.phys.pmm (imagePages image.size)
  | .fork => (k.system.tasks k.sched.currentTask).isUser = true ∧
      k.system.numTasks < schedMaxTasks ∧
      LacksTables k.system.phys.pmm (k.system.tasks k.sched.currentTask).codePages

structure Failure (s t : System) (leaks : Prop) : Prop where
  tasks : t.tasks = s.tasks
  count : t.numTasks = s.numTasks
  memory : t.phys.pmm = s.phys.pmm ∧ ¬ leaks ∨ t.phys.pmm ≠ s.phys.pmm ∧ leaks

section Creations
variable {s t : System} {codePages heapBreak : Nat} {loadCode loadStack : Mem → Nat → Mem} {r : Int}

theorem spawn_failure (result : spawn s codePages heapBreak loadCode loadStack = (r, t)) :
    r = s.numTasks ∧ ¬ LacksTables s.phys.pmm codePages ∨
      r = -1 ∧ Failure s t (LacksTables s.phys.pmm codePages) := by
  rcases spawn_memory result with ⟨number, _, enough⟩ | ⟨minus, tasks, count, memory⟩
  · refine Or.inl ⟨number, ?_⟩
    rintro ⟨_, _, few⟩
    omega
  · refine Or.inr ⟨minus, tasks, count, memory.imp ?_ ?_⟩
    · rintro ⟨same, few⟩
      refine ⟨same, ?_⟩
      rintro ⟨image, more, _⟩
      have := few image
      omega
    · rintro ⟨left, lacks⟩
      refine ⟨?_, lacks⟩
      intro same
      obtain ⟨_, more, _⟩ := lacks
      rw [same, userStackPages] at left
      omega

theorem create_user_failure {image : Image} (result : schedCreateUser s image = (r, t)) :
    (0 ≤ r ∧ ¬ (s.numTasks < schedMaxTasks ∧ LacksTables s.phys.pmm (imagePages image.size))) ∨
      r = -1 ∧ Failure s t
        (s.numTasks < schedMaxTasks ∧ LacksTables s.phys.pmm (imagePages image.size)) := by
  rw [sched_create_user_eq] at result
  split at result
  · rename_i full
    cases result
    refine Or.inr ⟨rfl, rfl, rfl, Or.inl ⟨rfl, ?_⟩⟩
    rintro ⟨low, _⟩
    omega
  · rename_i room
    have low : s.numTasks < schedMaxTasks := by omega
    simp only [low, true_and]
    exact (spawn_failure result).imp_left fun done => ⟨by omega, done.2⟩

theorem fork_failure {current : Nat} (result : schedFork s current = (r, t)) :
    (0 ≤ r ∧ ¬ ((s.tasks current).isUser = true ∧ s.numTasks < schedMaxTasks ∧
        LacksTables s.phys.pmm (s.tasks current).codePages)) ∨
      r = -1 ∧ Failure s t ((s.tasks current).isUser = true ∧ s.numTasks < schedMaxTasks ∧
        LacksTables s.phys.pmm (s.tasks current).codePages) := by
  rw [sched_fork_eq] at result
  split at result
  · rename_i kernel
    cases result
    refine Or.inr ⟨rfl, rfl, rfl, Or.inl ⟨rfl, ?_⟩⟩
    rintro ⟨user, _⟩
    rw [user] at kernel
    exact absurd kernel (by decide)
  · rename_i user
    split at result
    · rename_i full
      cases result
      refine Or.inr ⟨rfl, rfl, rfl, Or.inl ⟨rfl, ?_⟩⟩
      rintro ⟨_, low, _⟩
      omega
    · rename_i room
      have low : s.numTasks < schedMaxTasks := by omega
      have isUser : (s.tasks current).isUser = true := by simpa using user
      simp only [low, isUser, true_and]
      exact (spawn_failure result).imp_left fun done => ⟨by omega, done.2⟩

end Creations

theorem unchanged_iff {k : Kernel} {t : System} {leaks : Prop} (failure : Failure k.system t leaks) :
    Unchanged k { k with system := t } ↔ ¬ leaks := by
  constructor
  · intro unchanged leak
    rcases failure.memory with ⟨_, none⟩ | ⟨differs, _⟩
    · exact none leak
    · exact differs unchanged.pmm
  · intro none
    rcases failure.memory with ⟨same, _⟩ | ⟨_, leak⟩
    · exact ⟨same, failure.tasks, failure.count, rfl, rfl⟩
    · exact absurd leak none

theorem create_user_fails {k : Kernel} {image : Image} {t : System}
    (made : schedCreateUser k.system image = (-1, t)) :
    create k (.createUser image) = some (-1, { k with system := t }) := by
  simp only [create, createUser, made, show (-1 : Int) < 0 by decide, ↓reduceIte]

theorem failed_creation_leaks_nothing_iff (k : Kernel) (call : Creation) :
    (∀ l, create k call = some (-1, l) → Unchanged k l) ↔ ¬ Leaks k call := by
  cases call with
  | createUser image =>
    rcases made : schedCreateUser k.system image with ⟨r, t⟩
    rcases create_user_failure made with ⟨success, none⟩ | ⟨rfl, failure⟩
    · have positive : ¬ r < 0 := by omega
      refine iff_of_true ?_ none
      intro l result
      simp only [create, createUser, made, positive, ↓reduceIte, Option.some.injEq,
        Prod.mk.injEq] at result
      omega
    · simp only [create_user_fails made, Option.some.injEq, Prod.mk.injEq, true_and, forall_eq']
      exact unchanged_iff failure
  | fork =>
    rcases made : schedFork k.system k.sched.currentTask with ⟨r, t⟩
    rcases fork_failure made with ⟨success, none⟩ | ⟨rfl, failure⟩
    · have positive : ¬ r < 0 := by omega
      refine iff_of_true ?_ none
      intro l result
      simp only [create, fork, made, positive, ↓reduceIte, Option.map_eq_some_iff,
        Prod.mk.injEq] at result
      obtain ⟨_, _, number, _⟩ := result
      omega
    · have call : create k .fork = some (-1, { k with system := t }) := by
        simp only [create, fork, made, show (-1 : Int) < 0 by decide, ↓reduceIte]
      simp only [call, Option.some.injEq, Prod.mk.injEq, true_and, forall_eq']
      exact unchanged_iff failure

def tightPmm : Pmm :=
  ⟨fun x => if x = 0 then 0x00#8 else if x = 1 then 0xF0#8 else 0xFF#8, 12#32, 32756#32⟩

def tightKernel : Kernel :=
  ⟨⟨⟨fun _ => 0, tightPmm⟩, fun _ => idleTask, 1⟩,
    ⟨fun _ => ⟨.yielded, .running, 0, false, 0, -1, -1, 0⟩, 0, 1, 0, 0, none⟩,
    ⟨fun _ _ => none, 1, ⟨.console, 0, 1, 0, 0, 0, 0, none⟩, fun _ => none, fun _ => none, 0, 0, [], []⟩⟩

theorem tight_used : usedSet tightPmm = Finset.Ico 12 totalPages := by
  have bit : ∀ page, bitTest tightPmm.bitmap page = decide (12 ≤ page) := by
    intro page
    by_cases low : page < 16
    · have first : ∀ page, page < 16 → bitTest tightPmm.bitmap page = decide (12 ≤ page) := by decide
      exact first page low
    · have bits : ∀ i, i < 8 → (0xFF#8).getLsbD i = true := by decide
      have byte : tightPmm.bitmap (page / 8) = 0xFF#8 := by
        simp only [tightPmm]
        rw [if_neg (by omega), if_neg (by omega)]
      rw [bit_test_eq, byte, bits _ (Nat.mod_lt _ (by decide)), decide_eq_true (by omega)]
  ext page
  rw [mem_used_set, Finset.mem_Ico, bit, decide_eq_true_eq, And.comm]

theorem tight_lacks_tables : LacksTables tightPmm 5 := by
  have count : freeCount tightPmm = 12 := by
    rw [freeCount, tight_used, Nat.card_Ico, total_pages_eq]
  refine ⟨⟨0, by decide +kernel, 5, ?_, ?_⟩, by omega, by omega⟩
  · rw [total_pages_eq]
    decide
  · decide

/-- The third table is missing, and the pages of the first two stay in use. -/
theorem failed_create_user_leaks : ∃ l, create tightKernel (.createUser emptyImage) = some (-1, l) ∧
    ¬ Unchanged tightKernel l := by
  rcases made : schedCreateUser tightKernel.system emptyImage with ⟨r, t⟩
  have leak : tightKernel.system.numTasks < schedMaxTasks ∧
      LacksTables tightKernel.system.phys.pmm (imagePages emptyImage.size) := by
    have pages : imagePages emptyImage.size = 5 := by decide
    rw [pages]
    exact ⟨by decide, tight_lacks_tables⟩
  rcases create_user_failure made with ⟨_, none⟩ | ⟨rfl, failure⟩
  · exact absurd leak none
  · refine ⟨{ tightKernel with system := t }, create_user_fails made, ?_⟩
    intro unchanged
    exact (unchanged_iff failure).mp unchanged leak

end Archarch.AddressSpaces
