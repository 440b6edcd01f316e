import Archarch.Memory.PmmSpec

/- pmm_alloc_pages against its purpose: the lowest run of free pages that is long enough. -/
namespace Archarch.PageFrames

def RunAt (p : Pmm) (count first : Nat) : Prop :=
  first + count ≤ totalPages ∧ ∀ j, first ≤ j → j < first + count → bitTest p.bitmap j = false

structure LowestRun (p : Pmm) (count first : Nat) : Prop where
  run : RunAt p count first
  lowest : ∀ f, f < first → ¬ RunAt p count f

structure Took (p q : Pmm) (first count : Nat) : Prop where
  bits : ∀ b, bitTest q.bitmap b = (decide (first ≤ b ∧ b < first + count) || bitTest p.bitmap b)
  free : q.freePages = p.freePages - BitVec.ofNat 32 count
  used : q.usedPages = p.usedPages + BitVec.ofNat 32 count

structure ExactFirstFit (p : Pmm) (count : Nat) : Prop where
  succeeds : (pmmAllocPages p count).1 ≠ 0 ↔ ∃ first, RunAt p count first
  takes : (pmmAllocPages p count).1 ≠ 0 → ∃ first, LowestRun p count first ∧
    (pmmAllocPages p count).1 = pageToAddr first ∧ Took p (pmmAllocPages p count).2 first count
  fails : (pmmAllocPages p count).1 = 0 → (pmmAllocPages p count).2 = p
  single : count = 1 → pmmAllocPages p count = pmmAllocPage p
  undone : (pmmAllocPages p count).1 ≠ 0 →
    pmmFreePages (pmmAllocPages p count).2 (pmmAllocPages p count).1 count = p

section Scan
variable {m : Bitmap} {p : Pmm} {count i run start n found first : Nat}

theorem find_run_first (short : run < count) (tail : 0 < run → start + run = i)
    (result : findRun m count i run start n = some found) (low : i ≤ first + run) (below : first < found) :
    ∃ j, first ≤ j ∧ j < first + count ∧ bitTest m j = true := by
  induction n generalizing i run start with
  | zero => simp [findRun] at result
  | succ n ih =>
    rw [findRun] at result
    by_cases taken : bitTest m i = true
    · by_cases before : first ≤ i
      · exact ⟨i, before, by omega, taken⟩
      · simp only [taken, ↓reduceIte] at result
        exact ih (by omega) (by omega) result (by omega)
    · simp only [taken, Bool.false_eq_true, ↓reduceIte] at result
      have joined : (if run = 0 then i else start) + run = i := by
        split
        · omega
        · exact tail (by omega)
      by_cases done : run + 1 = count
      · simp only [done, ↓reduceIte, Option.some.injEq] at result
        omega
      · simp only [done, ↓reduceIte] at result
        exact ih (by omega) (by intro _; omega) result (by omega)

theorem first_run_lowest (found : firstRun p count = some first) : LowestRun p count first := by
  obtain ⟨positive, inside, clear⟩ := first_run_some found
  refine ⟨⟨inside, clear⟩, ?_⟩
  rintro f below ⟨_, open_⟩
  rw [firstRun, if_neg (Nat.ne_of_gt positive)] at found
  obtain ⟨j, low, high, taken⟩ := find_run_first positive (by omega) found (by omega) below
  rw [open_ j low high] at taken
  cases taken

theorem alloc_page_from_eq (p : Pmm) (i start n : Nat) : allocPageFrom p i n =
    match findRun p.bitmap 1 i 0 start n with
    | none => (0, p)
    | some first => (pageToAddr first, withRun p first 1) := by
  induction n generalizing i with
  | zero => rfl
  | succ n ih =>
    rw [allocPageFrom, findRun]
    by_cases taken : bitTest p.bitmap i = true
    · simp only [taken, ↓reduceIte]
      exact ih (i + 1)
    · rw [if_neg taken, if_neg taken]
      rfl

theorem pmm_alloc_pages_one (p : Pmm) : pmmAllocPages p 1 = pmmAllocPage p := by
  have scan : firstRun p 1 = findRun p.bitmap 1 0 0 0 totalPages := if_neg (by decide)
  have many := pmm_alloc_pages_eq p 1
  have one := alloc_page_from_eq p 0 0 totalPages
  rw [scan] at many
  cases found : findRun p.bitmap 1 0 0 0 totalPages with
  | none =>
    rw [found] at many one
    exact many.trans one.symm
  | some first =>
    rw [found] at many one
    exact many.trans one.symm

end Scan

/-- pmm_alloc_pages is an exact first fit. -/
theorem pmm_alloc_pages_first_fit (p : Pmm) (count : Nat) (positive : 1 ≤ count) : ExactFirstFit p count := by
  have runs := first_run_exists_iff (p := p) positive
  have single : count = 1 → pmmAllocPages p count = pmmAllocPage p := by
    rintro rfl
    exact pmm_alloc_pages_one p
  have answer := pmm_alloc_pages_eq p count
  cases scan : firstRun p count with
  | none =>
    rw [scan] at answer
    have nothing : ¬ ∃ first, RunAt p count first := by
      intro some
      obtain ⟨first, found⟩ := runs.mpr some
      rw [scan] at found
      cases found
    have zero : (pmmAllocPages p count).1 = 0 := by rw [answer]
    constructor
    · exact ⟨fun some => absurd zero some, fun some => absurd some nothing⟩
    · exact fun some => absurd zero some
    · intro _
      rw [answer]
    · exact single
    · exact fun some => absurd zero some
  | some first =>
    rw [scan] at answer
    have lowest := first_run_lowest scan
    have address : (pmmAllocPages p count).1 = pageToAddr first := by rw [answer]
    have some : (pmmAllocPages p count).1 ≠ 0 := by
      rw [address]
      exact page_to_addr_ne_zero first
    constructor
    · exact ⟨fun _ => ⟨first, lowest.run⟩, fun _ => some⟩
    · intro _
      refine ⟨first, lowest, address, ?_⟩
      rw [answer]
      exact ⟨bit_test_set_bits p.bitmap first count, rfl, rfl⟩
    · exact fun zero => absurd zero some
    · exact single
    · intro _
      rw [answer]
      exact with_run_undone lowest.run.1 lowest.run.2

def gappedPmm : Pmm := ⟨bitSet (bitSet (fun _ => 0) 0) 2, 32766#32, 2#32⟩

theorem gapped_first_fit : ExactFirstFit gappedPmm 2 := pmm_alloc_pages_first_fit gappedPmm 2 (by decide)

example : firstRun gappedPmm 2 = some 3 := by
  rw [firstRun, total_pages_eq]
  decide

end Archarch.PageFrames
