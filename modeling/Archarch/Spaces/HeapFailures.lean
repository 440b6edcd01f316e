import Archarch.Spaces.HeapCalls

/- What SYS_SBRK leaves behind when it returns -1. The loop undoes the page at hand and
   nothing that earlier iterations have mapped. -/
namespace Archarch.AddressSpaces
open ByteMemory TranslationTables PageFrames LabelledRuns

def TableOf (s : System) (n page : Nat) : Prop :=
  ∃ p, p.length < levels ∧ Occurs (roots s) s.phys.mem n p (pageToAddr page)

/-- The break, the mapped pages and the pages in use that are no tables of the task. -/
structure CallUndone (s t : System) (n : Nat) : Prop where
  heapBreak : (t.tasks n).heapBreak = (s.tasks n).heapBreak
  mapped : ∀ va, pageAt t n va = pageAt s n va
  pages : ∀ page, (page ∈ usedSet t.phys.pmm ∧ ¬ TableOf t n page) ↔
    (page ∈ usedSet s.phys.pmm ∧ ¬ TableOf s n page)

/-- The pages that are left do not suffice for the first page of the range, or they suffice
    for the whole range. -/
def AllOrNothing (s : System) (n : Nat) (increment : BitVec 64) : Prop :=
  Accepted s n increment →
    freeCount s.phys.pmm < mapCost s.phys.mem (s.tasks n).ttbr0 (heapStart s n) 1 ∨
      mapCost s.phys.mem (s.tasks n).ttbr0 (heapStart s n) (heapPages s n increment) ≤
        freeCount s.phys.pmm

/-- Other parts of the kernel take pages between the calls. -/
def withPmm (s : System) (pmm : Pmm) : System := { s with phys := { s.phys with pmm := pmm } }

section Failures
variable {s t : System} {n reserved j : Nat} {increment r : BitVec 64} {u : Phys} {pmm : Pmm}

theorem with_pmm_inv (inv : SpacesInv reserved s) (held : usedSet s.phys.pmm ⊆ usedSet pmm) :
    SpacesInv reserved (withPmm s pmm) := by
  refine spaces_inv_slots inv (same_slots_of_tasks rfl rfl) held ?_
  refine forest_own inv.trees ?_
  intro n p a here
  obtain ⟨page, rfl, used, outside⟩ := inv.trees.owned n p a here
  exact held_page.mpr ⟨held used, outside⟩

theorem with_pmm_ready (ready : HeapReady s n) : HeapReady (withPmm s pmm) n :=
  ⟨ready.second, ready.low⟩

theorem call_undone_refl (s : System) (n : Nat) : CallUndone s s n :=
  ⟨rfl, fun _ => rfl, fun _ => Iff.rfl⟩

theorem call_undone_of_nothing (ready : HeapReady s n) (accepted : Accepted s n increment)
    (called : Called reserved s n increment r t true 0 u) : CallUndone s t n := by
  have grown := called.looped.grown
  refine ⟨by rw [(called.failure rfl).2], ?_, ?_⟩
  · intro va
    apply called_other_page ready accepted called
    intro i bound
    omega
  · intro page
    rw [called_used called]
    have table : ∀ q, Occurs (roots t) t.phys.mem n q (pageToAddr page) ↔
        Occurs (roots s) u.mem n q (pageToAddr page) := fun q => called_occurs called
    constructor
    · rintro ⟨used, data⟩
      have before : page ∈ usedSet s.phys.pmm := by
        by_contra unused
        rcases grown.taken page used unused with ⟨b, here⟩ | ⟨i, bound, _⟩
        · exact data ⟨_, by simp [levels], (table _).mpr here⟩
        · omega
      refine ⟨before, ?_⟩
      rintro ⟨q, short, here⟩
      exact data ⟨q, short, (table q).mpr (grown.tables n q _ short here)⟩
    · rintro ⟨used, data⟩
      refine ⟨grown.used used, ?_⟩
      rintro ⟨q, short, here⟩
      exact data ⟨q, short, grown.made page used n q short ((table q).mp here)⟩

theorem call_not_undone (called : Called reserved s n increment r t true j u) (some : 0 < j) :
    ¬ CallUndone s t n := by
  intro undone
  have grown := called.looped.grown
  obtain ⟨page, fresh, here, _⟩ := grown.mapped 0 some
  obtain ⟨other, same, used, _⟩ := grown.trees.owned n _ _ here
  rw [← page_to_addr_injective same] at used
  refine fresh ((undone.pages page).mp ⟨by rw [called_used called]; exact used, ?_⟩).1
  rintro ⟨q, short, table⟩
  exact leaf_not_table grown.trees here rfl ⟨n, q, short, (called_occurs called).mp table⟩

theorem called_nothing_iff (accepted : Accepted s n increment) (ready : HeapReady s n)
    (called : Called reserved s n increment r t true j u) :
    j = 0 ↔ freeCount s.phys.pmm < mapCost s.phys.mem (s.tasks n).ttbr0 (heapStart s n) 1 := by
  have grown := called.looped.grown
  have count := grown.count
  obtain ⟨early, _, _, short⟩ := called.looped.stopped rfl
  constructor
  · rintro rfl
    have next := map_cost_add (k := 1) (range_le (by omega) (heap_range_low ready accepted)) grown.regions
    rw [Nat.zero_add] at next
    omega
  · intro expensive
    by_contra some
    have less : mapCost s.phys.mem (s.tasks n).ttbr0 (heapStart s n) 1 ≤
        mapCost s.phys.mem (s.tasks n).ttbr0 (heapStart s n) j := map_cost_mono (by omega)
    omega

theorem called_returns (ready : HeapReady s n) {failed : Bool}
    (called : Called reserved s n increment r t failed j u) : r = -1#64 ↔ failed = true := by
  cases failed with
  | true => exact ⟨fun _ => rfl, fun _ => (called.failure rfl).1⟩
  | false =>
    refine ⟨?_, fun h => Bool.noConfusion h⟩
    intro minus
    have low := ready.low
    have value := congrArg BitVec.toNat ((called.success rfl).1.symm.trans minus)
    rw [BitVec.toNat_ofNat, Nat.mod_eq_of_lt (by omega)] at value
    have top : (-1#64).toNat = 2 ^ 64 - 1 := by decide
    omega

theorem failed_call_undone_iff (inv : SpacesInv reserved s) (alive : n < s.numTasks)
    (ready : (s.tasks n).isUser = true → HeapReady s n) (result : sysSbrk s n increment = (r, t)) :
    (r = -1#64 → CallUndone s t n) ↔ AllOrNothing s n increment := by
  by_cases accepted : Accepted s n increment
  · have before := ready accepted.user
    obtain ⟨failed, j, u, called⟩ := sys_sbrk_called inv alive before accepted result
    have range := heap_range_low before accepted
    rw [called_returns before called, looped_failed_iff range called.looped]
    constructor
    · intro undone _
      by_contra neither
      obtain ⟨enough, short⟩ := not_or.mp neither
      have stops := (looped_failed_iff range called.looped).mpr (by omega)
      subst stops
      have nothing : j = 0 := by
        by_contra some
        exact call_not_undone called (by omega) (undone (by omega))
      exact enough ((called_nothing_iff accepted before called).mp nothing)
    · intro condition short
      have stops := (looped_failed_iff range called.looped).mpr short
      subst stops
      have first := (condition accepted).resolve_right (by omega)
      obtain rfl := (called_nothing_iff accepted before called).mpr first
      exact call_undone_of_nothing before accepted called
  · have same := (sys_sbrk_refused accepted).1
    rw [result] at same
    constructor
    · intro _ here
      exact absurd here accepted
    · intro _ _
      rw [show t = s from same]
      exact call_undone_refl s n

end Failures

theorem failed_sbrk_is_atomic_iff (kernelEnd : Nat) (s : System) (run : Ran kernelEnd s) (pmm : Pmm)
    (held : usedSet s.phys.pmm ⊆ usedSet pmm) (n : Nat) (alive : Alive s n) (increment : BitVec 64) :
    ((sysSbrk (withPmm s pmm) n increment).1 = -1#64 →
      CallUndone (withPmm s pmm) (sysSbrk (withPmm s pmm) n increment).2 n) ↔
    AllOrNothing (withPmm s pmm) n increment := by
  rcases result : sysSbrk (withPmm s pmm) n increment with ⟨r, t⟩
  apply failed_call_undone_iff (with_pmm_inv (ran_inv run) held) alive.1 _ result
  intro user
  exact with_pmm_ready (ran_ready run n alive.1 user)

def noneLeft : Pmm := ⟨fun _ => 0xFF#8, 0#32, 32768#32⟩

theorem none_left_used : usedSet noneLeft = Finset.range totalPages := by
  have bits : ∀ i, i < 8 → (0xFF#8).getLsbD i = true := by decide
  ext page
  rw [mem_used_set, bit_test_eq, Finset.mem_range]
  exact and_iff_left (bits _ (Nat.mod_lt _ (by decide)))

/-- Two pages of heap with no page left. -/
theorem full_sbrk_is_atomic : ∃ s t, Ran 0x40001000 s ∧ Accepted (withPmm s noneLeft) 1 8192 ∧
    sysSbrk (withPmm s noneLeft) 1 8192 = (-1#64, t) ∧ CallUndone (withPmm s noneLeft) t 1 := by
  have look : (runActions systemStep (freshSystem 0x40001000) [.createUser emptyImage]).any
      (fun s => decide (Alive s 1 ∧ Accepted s 1 8192 ∧ heapPages s 1 8192 = 2)) = true := by
    decide +kernel
  obtain ⟨s, run, found⟩ := (Option.any_eq_true _ _).mp look
  obtain ⟨alive, accepted, pages⟩ := of_decide_eq_true found
  have reached : Ran 0x40001000 s := ran_of_actions (by decide) (by decide) run
  have held : usedSet s.phys.pmm ⊆ usedSet noneLeft := by
    intro page member
    rw [none_left_used, Finset.mem_range]
    exact (mem_used_set.mp member).1
  have free : freeCount (withPmm s noneLeft).phys.pmm = 0 := by
    rw [freeCount, withPmm, none_left_used, Finset.card_range, total_pages_eq]
  have ready : HeapReady (withPmm s noneLeft) 1 :=
    with_pmm_ready (ran_ready reached 1 alive.1 accepted.user)
  have passed : Accepted (withPmm s noneLeft) 1 8192 := ⟨accepted.user, accepted.change, accepted.below⟩
  have cost : ∀ m pgd va k, k ≤ mapCost m pgd va k := fun _ _ _ _ => Nat.le_add_right _ _
  rcases result : sysSbrk (withPmm s noneLeft) 1 8192 with ⟨r, t⟩
  obtain ⟨failed, j, u, called⟩ :=
    sys_sbrk_called (with_pmm_inv (ran_inv reached) held) alive.1 ready passed result
  have whole := cost s.phys.mem (s.tasks 1).ttbr0 (heapStart s 1) (heapPages s 1 8192)
  have stops : failed = true := by
    rw [looped_failed_iff (heap_range_low ready passed) called.looped, free]
    exact lt_of_lt_of_le (by omega) whole
  have minus := (called_returns ready called).mpr stops
  have undone := failed_sbrk_is_atomic_iff 0x40001000 s reached noneLeft held 1 alive 8192
  rw [result] at undone
  refine ⟨s, t, reached, passed, by rw [result, minus], undone.mpr ?_ minus⟩
  intro _
  left
  rw [free]
  exact cost _ _ _ 1

def oneLeft : Pmm := ⟨fun x => if x = 12 then 0xEF#8 else 0xFF#8, 1#32, 32767#32⟩

theorem one_left_used : usedSet oneLeft = (Finset.range totalPages).erase 100 := by
  have bits : ∀ i, i < 8 → (0xFF#8).getLsbD i = true := by decide
  have first : ∀ i, i < 8 → (0xEF#8).getLsbD i = decide (i ≠ 4) := by decide
  have bit : ∀ page, bitTest oneLeft.bitmap page = decide (page ≠ 100) := by
    intro page
    rw [bit_test_eq]
    by_cases byte : page / 8 = 12
    · rw [show oneLeft.bitmap (page / 8) = 0xEF#8 from if_pos byte, first _ (Nat.mod_lt _ (by decide))]
      refine decide_eq_decide.mpr ?_
      omega
    · rw [show oneLeft.bitmap (page / 8) = 0xFF#8 from if_neg byte, bits _ (Nat.mod_lt _ (by decide)),
        decide_eq_true (by omega)]
  ext page
  rw [mem_used_set, Finset.mem_erase, Finset.mem_range, bit, decide_eq_true_eq, And.comm]

theorem one_left_free : freeCount oneLeft = 1 := by
  have member : 100 ∈ Finset.range totalPages := by
    rw [Finset.mem_range, total_pages_eq]
    decide
  rw [freeCount, one_left_used, Finset.card_erase_of_mem member, Finset.card_range, total_pages_eq]

/-- Two pages of heap with one page left: the first one is mapped and stays. -/
theorem failed_sbrk_keeps_first_page : ∃ s t, Ran 0x40001000 s ∧ Alive s 1 ∧
    usedSet s.phys.pmm ⊆ usedSet oneLeft ∧ sysSbrk (withPmm s oneLeft) 1 8192 = (-1#64, t) ∧
    ¬ CallUndone (withPmm s oneLeft) t 1 := by
  have look : (runActions systemStep (freshSystem 0x40001000) [.createUser emptyImage]).any
      (fun s => decide (Alive s 1 ∧ bitTest s.phys.pmm.bitmap 100 = false ∧ Accepted s 1 8192 ∧
        heapStart s 1 = 0x405000 ∧ heapPages s 1 8192 = 2 ∧
        hasTable s.phys.mem (s.tasks 1).ttbr0 2 = true)) = true := by
    decide +kernel
  obtain ⟨s, run, found⟩ := (Option.any_eq_true _ _).mp look
  obtain ⟨alive, free, accepted, start, pages, table⟩ := of_decide_eq_true found
  have reached : Ran 0x40001000 s := ran_of_actions (by decide) (by decide) run
  have held : usedSet s.phys.pmm ⊆ usedSet oneLeft := by
    intro page member
    obtain ⟨inside, used⟩ := mem_used_set.mp member
    rw [one_left_used, Finset.mem_erase, Finset.mem_range]
    refine ⟨?_, inside⟩
    rintro rfl
    rw [free] at used
    cases used
  rcases result : sysSbrk (withPmm s oneLeft) 1 8192 with ⟨r, t⟩
  have ready : HeapReady (withPmm s oneLeft) 1 :=
    with_pmm_ready (ran_ready reached 1 alive.1 accepted.user)
  have passed : Accepted (withPmm s oneLeft) 1 8192 := ⟨accepted.user, accepted.change, accepted.below⟩
  have costs : ¬ AllOrNothing (withPmm s oneLeft) 1 8192 := by
    intro condition
    have one : mapCost s.phys.mem (s.tasks 1).ttbr0 0x405000 1 = 1 := by
      rw [map_cost_one]
      exact if_pos table
    have two : 2 ≤ mapCost s.phys.mem (s.tasks 1).ttbr0 0x405000 2 := Nat.le_add_right _ _
    have left := condition passed
    rw [show heapStart (withPmm s oneLeft) 1 = 0x405000 from start,
      show heapPages (withPmm s oneLeft) 1 8192 = 2 from pages,
      show freeCount (withPmm s oneLeft).phys.pmm = 1 from one_left_free] at left
    have either : 1 < mapCost s.phys.mem (s.tasks 1).ttbr0 0x405000 1 ∨
      mapCost s.phys.mem (s.tasks 1).ttbr0 0x405000 2 ≤ 1 := left
    omega
  have undone := failed_call_undone_iff (with_pmm_inv (ran_inv reached) held) alive.1
    (fun _ => ready) result
  have neither : ¬ (r = -1#64 → CallUndone (withPmm s oneLeft) t 1) :=
    fun undoes => costs (undone.mp undoes)
  obtain ⟨rfl, kept⟩ := Classical.not_imp.mp neither
  exact ⟨s, t, reached, alive, held, result, kept⟩

end Archarch.AddressSpaces
