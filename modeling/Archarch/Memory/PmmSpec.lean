import Archarch.Memory.Pmm

/- The allocator seen as a finite set of used pages. Each operation has one
   lemma saying what it does to that set; the counters follow it for every
   bitmap whatsoever. -/
namespace Archarch.PageFrames

def usedSet (p : Pmm) : Finset Nat := (Finset.range totalPages).filter (bitTest p.bitmap · = true)

structure Counted (p : Pmm) : Prop where
  used : p.usedPages.toNat = (usedSet p).card
  free : p.freePages.toNat = totalPages - (usedSet p).card

theorem mem_used_set {p : Pmm} {page : Nat} :
    page ∈ usedSet p ↔ page < totalPages ∧ bitTest p.bitmap page = true := by
  simp [usedSet]

theorem used_set_subset (p : Pmm) : usedSet p ⊆ Finset.range totalPages := Finset.filter_subset _ _

theorem used_set_card_le (p : Pmm) : (usedSet p).card ≤ totalPages := by
  simpa using Finset.card_le_card (used_set_subset p)

theorem used_set_bit_set {p q : Pmm} {page : Nat} (inside : page < totalPages)
    (result : q.bitmap = bitSet p.bitmap page) : usedSet q = insert page (usedSet p) := by
  ext b
  simp only [Finset.mem_insert, mem_used_set, result, bit_test_bit_set, Bool.or_eq_true,
    decide_eq_true_eq]
  constructor
  · rintro ⟨hb, rfl | hit⟩
    · exact Or.inl rfl
    · exact Or.inr ⟨hb, hit⟩
  · rintro (rfl | ⟨hb, hit⟩)
    · exact ⟨inside, Or.inl rfl⟩
    · exact ⟨hb, Or.inr hit⟩

theorem used_set_bit_clear {p q : Pmm} {page : Nat}
    (result : q.bitmap = bitClear p.bitmap page) : usedSet q = (usedSet p).erase page := by
  ext b
  simp only [Finset.mem_erase, mem_used_set, result, bit_test_bit_clear, Bool.and_eq_true,
    decide_eq_true_eq]
  constructor
  · rintro ⟨hb, ne, hit⟩
    exact ⟨Ne.symm ne, hb, hit⟩
  · rintro ⟨ne, hb, hit⟩
    exact ⟨hb, Ne.symm ne, hit⟩

theorem used_set_set_bits {p q : Pmm} {first n : Nat} (inside : first + n ≤ totalPages)
    (result : q.bitmap = setBits p.bitmap first n) :
    usedSet q = usedSet p ∪ Finset.Ico first (first + n) := by
  ext b
  simp only [Finset.mem_union, Finset.mem_Ico, mem_used_set, result, bit_test_set_bits,
    Bool.or_eq_true, decide_eq_true_eq]
  constructor
  · rintro ⟨hb, range | hit⟩
    · exact Or.inr range
    · exact Or.inl ⟨hb, hit⟩
  · rintro (⟨hb, hit⟩ | range)
    · exact ⟨hb, Or.inr hit⟩
    · exact ⟨by omega, Or.inl range⟩

def freeCount (p : Pmm) : Nat := totalPages - (usedSet p).card

theorem free_count_insert {p q : Pmm} {page : Nat} (inside : page < totalPages)
    (fresh : page ∉ usedSet p) (used : usedSet q = insert page (usedSet p)) :
    freeCount p = freeCount q + 1 := by
  have more : insert page (usedSet p) ⊆ Finset.range totalPages :=
    Finset.insert_subset (Finset.mem_range.mpr inside) (used_set_subset p)
  have bound := Finset.card_le_card more
  rw [Finset.card_range, Finset.card_insert_of_notMem fresh] at bound
  rw [freeCount, freeCount, used, Finset.card_insert_of_notMem fresh]
  omega

theorem free_count_run {p q : Pmm} {first count : Nat} (inside : first + count ≤ totalPages)
    (apart : Disjoint (usedSet p) (Finset.Ico first (first + count)))
    (used : usedSet q = usedSet p ∪ Finset.Ico first (first + count)) :
    freeCount p = freeCount q + count := by
  have more : usedSet p ∪ Finset.Ico first (first + count) ⊆ Finset.range totalPages := by
    refine Finset.union_subset (used_set_subset p) ?_
    intro page member
    have bounds := Finset.mem_Ico.mp member
    exact Finset.mem_range.mpr (by omega)
  have bound := Finset.card_le_card more
  rw [Finset.card_range, Finset.card_union_of_disjoint apart, Nat.card_Ico] at bound
  rw [freeCount, freeCount, used, Finset.card_union_of_disjoint apart, Nat.card_Ico]
  omega

theorem free_count_zero_iff {p : Pmm} : freeCount p = 0 ↔ usedSet p = Finset.range totalPages := by
  constructor
  · intro none
    refine Finset.eq_of_subset_of_card_le (used_set_subset p) ?_
    rw [Finset.card_range]
    exact Nat.le_of_sub_eq_zero none
  · intro full
    rw [freeCount, full, Finset.card_range, Nat.sub_self]

/- Address arithmetic for pages of RAM. -/

theorem page_to_addr_eq (page : Nat) : pageToAddr page = 0x40000000 + page * 4096 := rfl

theorem page_to_addr_ne_zero (page : Nat) : pageToAddr page ≠ 0 := by
  rw [page_to_addr_eq]
  omega

theorem page_to_addr_injective {a b : Nat} (same : pageToAddr a = pageToAddr b) : a = b := by
  rw [page_to_addr_eq, page_to_addr_eq] at same
  omega

theorem addr_to_page_to_addr {page : Nat} (inside : page < totalPages) :
    addrToPage (pageToAddr page) = page := by
  rw [total_pages_eq] at inside
  simp only [addrToPage, page_to_addr_eq, ram_base_eq, page_size_eq]
  omega

theorem page_to_addr_in_ram {page : Nat} (inside : page < totalPages) :
    ramBase ≤ pageToAddr page ∧ pageToAddr page + pageSize ≤ ramEnd := by
  rw [total_pages_eq] at inside
  simp only [page_to_addr_eq, ram_base_eq, ram_end_eq, page_size_eq]
  omega

theorem addr_to_page_lt {addr : Nat} (low : ramBase ≤ addr) (high : addr < ramEnd) :
    addrToPage addr < totalPages := by
  rw [ram_base_eq] at low
  rw [ram_end_eq] at high
  simp only [addrToPage, ram_base_eq, page_size_eq, total_pages_eq]
  omega

/- pmm_alloc_page -/

theorem alloc_page_from_cases (p : Pmm) (i n : Nat) :
    (allocPageFrom p i n = (0, p) ∧ ∀ j, i ≤ j → j < i + n → bitTest p.bitmap j = true) ∨
    ∃ page, i ≤ page ∧ page < i + n ∧ bitTest p.bitmap page = false ∧
      (∀ j, i ≤ j → j < page → bitTest p.bitmap j = true) ∧
      allocPageFrom p i n = (pageToAddr page,
        ⟨bitSet p.bitmap page, p.freePages - 1#32, p.usedPages + 1#32⟩) := by
  induction n generalizing i with
  | zero => exact Or.inl ⟨rfl, by intro j h1 h2; omega⟩
  | succ n ih =>
    rw [allocPageFrom]
    by_cases taken : bitTest p.bitmap i = true
    · simp only [taken, ↓reduceIte]
      rcases ih (i + 1) with ⟨result, full⟩ | ⟨page, low, high, clear, before, result⟩
      · refine Or.inl ⟨result, ?_⟩
        intro j h1 h2
        by_cases first : j = i
        · rw [first]
          exact taken
        · exact full j (by omega) (by omega)
      · refine Or.inr ⟨page, by omega, by omega, clear, ?_, result⟩
        intro j h1 h2
        by_cases first : j = i
        · rw [first]
          exact taken
        · exact before j (by omega) h2
    · have clear : bitTest p.bitmap i = false := by simpa using taken
      refine Or.inr ⟨i, Nat.le_refl _, by omega, clear, ?_, by simp [clear]⟩
      intro j h1 h2
      omega

theorem pmm_alloc_page_cases (p : Pmm) :
    (pmmAllocPage p = (0, p) ∧ usedSet p = Finset.range totalPages) ∨
    ∃ page q, page < totalPages ∧ page ∉ usedSet p ∧ pmmAllocPage p = (pageToAddr page, q) ∧
      usedSet q = insert page (usedSet p) ∧
      q.freePages = p.freePages - 1#32 ∧ q.usedPages = p.usedPages + 1#32 := by
  rcases alloc_page_from_cases p 0 totalPages with ⟨result, full⟩ | ⟨page, _, high, clear, _, result⟩
  · refine Or.inl ⟨result, Finset.Subset.antisymm (used_set_subset p) ?_⟩
    intro j hj
    have bound := Finset.mem_range.mp hj
    exact mem_used_set.mpr ⟨bound, full j (Nat.zero_le _) (by omega)⟩
  · have inside : page < totalPages := by omega
    refine Or.inr ⟨page, _, inside, ?_, result, used_set_bit_set inside rfl, rfl, rfl⟩
    intro member
    rw [(mem_used_set.mp member).2] at clear
    exact Bool.noConfusion clear

/- pmm_alloc_pages: the scan keeps run clear bits just below page i. -/

theorem find_run_some {m : Bitmap} {count i run start n found : Nat} (positive : 0 < count)
    (short : run < count) (tail : 0 < run → start + run = i)
    (clear : ∀ j, start ≤ j → j < start + run → bitTest m j = false)
    (result : findRun m count i run start n = some found) :
    found + count ≤ i + n ∧ ∀ j, found ≤ j → j < found + count → bitTest m j = false := by
  induction n generalizing i run start with
  | zero => simp [findRun] at result
  | succ n ih =>
    rw [findRun] at result
    by_cases taken : bitTest m i = true
    · simp only [taken, ↓reduceIte] at result
      have later := ih (by omega) (by omega) (by intro j h1 h2; omega) result
      exact ⟨by omega, later.2⟩
    · have open_ : bitTest m i = false := by simpa using taken
      simp only [open_, Bool.false_eq_true, ↓reduceIte] at result
      have joined : (if run = 0 then i else start) + run = i := by
        split
        · omega
        · exact tail (by omega)
      have longer : ∀ j, (if run = 0 then i else start) ≤ j →
          j < (if run = 0 then i else start) + (run + 1) → bitTest m j = false := by
        intro j h1 h2
        by_cases last : j = i
        · rw [last]
          exact open_
        · by_cases zero : run = 0
          · simp only [zero, ↓reduceIte] at h1 h2
            omega
          · simp only [zero, ↓reduceIte] at h1 h2 joined
            exact clear j h1 (by omega)
      by_cases done : run + 1 = count
      · simp only [done, ↓reduceIte, Option.some.injEq] at result
        subst result
        refine ⟨by omega, ?_⟩
        intro j h1 h2
        exact longer j h1 (by omega)
      · simp only [done, ↓reduceIte] at result
        have later := ih (by omega) (by intro _; omega) longer result
        exact ⟨by omega, later.2⟩

theorem find_run_none {m : Bitmap} {count i run start n : Nat} (positive : 0 < count)
    (short : run < count) (result : findRun m count i run start n = none) {first : Nat}
    (low : i ≤ first + run) (high : first + count ≤ i + n) :
    ∃ j, first ≤ j ∧ j < first + count ∧ bitTest m j = true := by
  induction n generalizing i run start with
  | zero => omega
  | succ n ih =>
    rw [findRun] at result
    by_cases taken : bitTest m i = true
    · by_cases before : first ≤ i
      · exact ⟨i, before, by omega, taken⟩
      · simp only [taken, ↓reduceIte] at result
        exact ih (by omega) result (by omega) (by omega)
    · simp only [taken, Bool.false_eq_true, ↓reduceIte] at result
      by_cases done : run + 1 = count
      · simp [done] at result
      · simp only [done, ↓reduceIte] at result
        exact ih (by omega) result (by omega) (by omega)

/-- A run of count clear bits below totalPages. -/
def FreeRun (p : Pmm) (count : Nat) : Prop :=
  ∃ first, first + count ≤ totalPages ∧ ∀ j, first ≤ j → j < first + count → bitTest p.bitmap j = false

theorem free_run_iff_apart {p : Pmm} {first count : Nat} (inside : first + count ≤ totalPages) :
    Disjoint (usedSet p) (Finset.Ico first (first + count)) ↔
      ∀ j, first ≤ j → j < first + count → bitTest p.bitmap j = false := by
  rw [Finset.disjoint_left]
  constructor
  · intro apart j low high
    cases clear : bitTest p.bitmap j with
    | false => rfl
    | true => exact absurd (Finset.mem_Ico.mpr ⟨low, high⟩) (apart (mem_used_set.mpr ⟨by omega, clear⟩))
  · intro clear j used range
    have bounds := Finset.mem_Ico.mp range
    have open_ := clear j bounds.1 bounds.2
    rw [(mem_used_set.mp used).2] at open_
    exact Bool.noConfusion open_

def firstRun (p : Pmm) (count : Nat) : Option Nat :=
  if count = 0 then none else findRun p.bitmap count 0 0 0 totalPages

def withRun (p : Pmm) (first count : Nat) : Pmm :=
  ⟨setBits p.bitmap first count, p.freePages - BitVec.ofNat 32 count,
    p.usedPages + BitVec.ofNat 32 count⟩

theorem pmm_alloc_pages_eq (p : Pmm) (count : Nat) : pmmAllocPages p count =
    match firstRun p count with
    | none => (0, p)
    | some first => (pageToAddr first, withRun p first count) := by
  unfold pmmAllocPages firstRun
  by_cases zero : count = 0
  · simp only [zero, ↓reduceIte]
  · simp only [zero, ↓reduceIte]
    rfl

theorem first_run_some {p : Pmm} {count first : Nat} (found : firstRun p count = some first) :
    0 < count ∧ first + count ≤ totalPages ∧
      ∀ j, first ≤ j → j < first + count → bitTest p.bitmap j = false := by
  unfold firstRun at found
  split at found
  · cases found
  · have run := find_run_some (by omega) (by omega) (by omega) (by intro j h1 h2; omega) found
    exact ⟨by omega, by omega, run.2⟩

theorem first_run_exists_iff {p : Pmm} {count : Nat} (positive : 0 < count) :
    (∃ first, firstRun p count = some first) ↔ FreeRun p count := by
  constructor
  · rintro ⟨first, found⟩
    exact ⟨first, (first_run_some found).2⟩
  · rintro ⟨first, inside, clear⟩
    have zero : count ≠ 0 := by omega
    cases scan : findRun p.bitmap count 0 0 0 totalPages with
    | some found => exact ⟨found, by rw [firstRun, if_neg zero, scan]⟩
    | none =>
      obtain ⟨j, low, high, taken⟩ := find_run_none positive positive scan
        (show 0 ≤ first + 0 from Nat.zero_le _) (by omega)
      rw [clear j low high] at taken
      exact Bool.noConfusion taken

theorem pmm_alloc_pages_cases (p : Pmm) (count : Nat) :
    pmmAllocPages p count = (0, p) ∨
    ∃ first q, 0 < count ∧ first + count ≤ totalPages ∧
      Disjoint (usedSet p) (Finset.Ico first (first + count)) ∧
      pmmAllocPages p count = (pageToAddr first, q) ∧
      usedSet q = usedSet p ∪ Finset.Ico first (first + count) ∧
      q.freePages = p.freePages - BitVec.ofNat 32 count ∧
      q.usedPages = p.usedPages + BitVec.ofNat 32 count := by
  rw [pmm_alloc_pages_eq]
  cases scan : firstRun p count with
  | none => exact Or.inl rfl
  | some first =>
    obtain ⟨positive, inside, clear⟩ := first_run_some scan
    exact Or.inr ⟨first, withRun p first count, positive, inside,
      (free_run_iff_apart inside).mpr clear, rfl, used_set_set_bits inside rfl, rfl, rfl⟩

theorem pmm_alloc_pages_fails {p : Pmm} {count : Nat} (none : ¬ FreeRun p count) :
    pmmAllocPages p count = (0, p) := by
  rcases pmm_alloc_pages_cases p count with result | ⟨first, q, _, inside, apart, _⟩
  · exact result
  · exact absurd ⟨first, inside, (free_run_iff_apart inside).mp apart⟩ none

theorem pmm_alloc_pages_succeeds {p : Pmm} {count : Nat} (positive : 0 < count)
    (run : FreeRun p count) :
    ∃ first q, first + count ≤ totalPages ∧
      Disjoint (usedSet p) (Finset.Ico first (first + count)) ∧
      pmmAllocPages p count = (pageToAddr first, q) ∧
      usedSet q = usedSet p ∪ Finset.Ico first (first + count) := by
  obtain ⟨first, found⟩ := (first_run_exists_iff positive).mpr run
  obtain ⟨_, inside, clear⟩ := first_run_some found
  exact ⟨first, withRun p first count, inside, (free_run_iff_apart inside).mpr clear,
    by rw [pmm_alloc_pages_eq, found], used_set_set_bits inside rfl⟩

/- pmm_free_page and pmm_free_pages -/

theorem pmm_free_page_cases (p : Pmm) (addr : Nat) :
    pmmFreePage p addr = p ∨
    (addrToPage addr ∈ usedSet p ∧ usedSet (pmmFreePage p addr) = (usedSet p).erase (addrToPage addr) ∧
      (pmmFreePage p addr).freePages = p.freePages + 1#32 ∧
      (pmmFreePage p addr).usedPages = p.usedPages - 1#32) := by
  by_cases outside : addr < ramBase ∨ ramEnd ≤ addr
  · exact Or.inl (by simp [pmmFreePage, outside])
  · by_cases set : bitTest p.bitmap (addrToPage addr) = true
    · have result : pmmFreePage p addr =
          ⟨bitClear p.bitmap (addrToPage addr), p.freePages + 1#32, p.usedPages - 1#32⟩ := by
        simp [pmmFreePage, outside, set]
      have inside : addrToPage addr < totalPages := addr_to_page_lt (by omega) (by omega)
      rw [result]
      exact Or.inr ⟨mem_used_set.mpr ⟨inside, set⟩, used_set_bit_clear rfl, rfl, rfl⟩
    · exact Or.inl (by simp [pmmFreePage, outside, set])

theorem pmm_free_page_used {p : Pmm} {page : Nat} (inside : page < totalPages) :
    usedSet (pmmFreePage p (pageToAddr page)) = (usedSet p).erase page := by
  have bounds := page_to_addr_in_ram inside
  have outside : ¬ (pageToAddr page < ramBase ∨ ramEnd ≤ pageToAddr page) := by
    rw [page_size_eq] at bounds
    omega
  simp only [pmmFreePage, outside, ↓reduceIte, addr_to_page_to_addr inside]
  split
  · exact used_set_bit_clear rfl
  · rename_i clear
    refine (Finset.erase_eq_of_notMem ?_).symm
    intro member
    exact clear (mem_used_set.mp member).2

theorem bitmap_ext {m k : Bitmap} (same : ∀ page, bitTest m page = bitTest k page) : m = k := by
  funext x
  apply BitVec.eq_of_getLsbD_eq
  intro i small
  have bit := same (8 * x + i)
  have byte : (8 * x + i) / 8 = x := by omega
  have place : (8 * x + i) % 8 = i := by omega
  rwa [bit_test_eq, bit_test_eq, byte, place] at bit

structure Released (p q : Pmm) (first count : Nat) : Prop where
  bits : ∀ b, bitTest q.bitmap b = (bitTest p.bitmap b && !decide (first ≤ b ∧ b < first + count))
  free : q.freePages = p.freePages + BitVec.ofNat 32 count
  used : q.usedPages = p.usedPages - BitVec.ofNat 32 count

theorem pmm_free_page_released {p : Pmm} {page : Nat} (inside : page < totalPages)
    (set : bitTest p.bitmap page = true) : Released p (pmmFreePage p (pageToAddr page)) page 1 := by
  have bounds := page_to_addr_in_ram inside
  have outside : ¬ (pageToAddr page < ramBase ∨ ramEnd ≤ pageToAddr page) := by
    rw [page_size_eq] at bounds
    omega
  have result : pmmFreePage p (pageToAddr page) =
      ⟨bitClear p.bitmap page, p.freePages + 1#32, p.usedPages - 1#32⟩ := by
    simp only [pmmFreePage, outside, ↓reduceIte, addr_to_page_to_addr inside, set]
  rw [result]
  refine ⟨?_, rfl, rfl⟩
  intro b
  rw [bit_test_bit_clear, Bool.and_comm]
  congr 1
  rw [Bool.eq_iff_iff]
  simp only [decide_eq_true_eq, Bool.not_eq_true', decide_eq_false_iff_not]
  omega

theorem free_pages_from_released {p : Pmm} {first i n : Nat} (inside : first + i + n ≤ totalPages)
    (set : ∀ j, first + i ≤ j → j < first + i + n → bitTest p.bitmap j = true) :
    Released p (freePagesFrom p (pageToAddr first) i n) (first + i) n := by
  induction n generalizing p i with
  | zero =>
    refine ⟨?_, ?_, ?_⟩
    · intro b
      have none : decide (first + i ≤ b ∧ b < first + i + 0) = false := by
        apply decide_eq_false
        omega
      rw [freePagesFrom, none, Bool.not_false, Bool.and_true]
    · rw [freePagesFrom, BitVec.add_zero]
    · rw [freePagesFrom, BitVec.sub_zero]
  | succ n ih =>
    have step : (pageToAddr first + i * pageSize % 2 ^ 32) % 2 ^ 64 = pageToAddr (first + i) := by
      rw [total_pages_eq] at inside
      simp only [page_to_addr_eq, page_size_eq]
      omega
    have one := pmm_free_page_released (by omega) (set (first + i) (Nat.le_refl _) (by omega))
    rw [freePagesFrom, step]
    have rest := ih (p := pmmFreePage p (pageToAddr (first + i))) (i := i + 1) (by omega) (by
      intro j low high
      rw [one.bits, set j (by omega) (by omega), Bool.true_and, Bool.not_eq_true',
        decide_eq_false_iff_not]
      omega)
    have count : BitVec.ofNat 32 1 + BitVec.ofNat 32 n = BitVec.ofNat 32 (n + 1) := by
      rw [← BitVec.ofNat_add, Nat.add_comm]
    refine ⟨?_, ?_, ?_⟩
    · intro b
      rw [rest.bits, one.bits, Bool.and_assoc, ← Bool.not_or]
      congr 2
      rw [Bool.eq_iff_iff]
      simp only [Bool.or_eq_true, decide_eq_true_eq]
      omega
    · rw [rest.free, one.free, BitVec.add_assoc, count]
    · rw [rest.used, one.used, BitVec.sub_sub, count]

theorem pmm_free_pages_released {p : Pmm} {first count : Nat} (inside : first + count ≤ totalPages)
    (set : ∀ j, first ≤ j → j < first + count → bitTest p.bitmap j = true) :
    Released p (pmmFreePages p (pageToAddr first) count) first count :=
  free_pages_from_released (i := 0) inside set

theorem free_pages_from_used {p : Pmm} {first i n : Nat} (inside : first + i + n ≤ totalPages) :
    usedSet (freePagesFrom p (pageToAddr first) i n) =
      usedSet p \ Finset.Ico (first + i) (first + i + n) := by
  induction n generalizing p i with
  | zero => simp [freePagesFrom]
  | succ n ih =>
    have step : (pageToAddr first + i * pageSize % 2 ^ 32) % 2 ^ 64 = pageToAddr (first + i) := by
      rw [total_pages_eq] at inside
      simp only [page_to_addr_eq, page_size_eq]
      omega
    rw [freePagesFrom, step, ih (by omega), pmm_free_page_used (by omega)]
    ext b
    simp only [Finset.mem_sdiff, Finset.mem_erase, Finset.mem_Ico]
    constructor
    · rintro ⟨⟨ne, used⟩, out⟩
      exact ⟨used, by omega⟩
    · rintro ⟨used, out⟩
      exact ⟨⟨by omega, used⟩, by omega⟩

theorem pmm_free_pages_used {p : Pmm} {first count : Nat} (inside : first + count ≤ totalPages) :
    usedSet (pmmFreePages p (pageToAddr first) count) =
      usedSet p \ Finset.Ico first (first + count) := by
  have all : usedSet (freePagesFrom p (pageToAddr first) 0 count) = _ :=
    free_pages_from_used (by omega)
  rwa [Nat.add_zero] at all

theorem free_count_released {p : Pmm} {first count : Nat} (inside : first + count ≤ totalPages)
    (used : Finset.Ico first (first + count) ⊆ usedSet p) :
    freeCount (pmmFreePages p (pageToAddr first) count) = freeCount p + count := by
  have left : usedSet (pmmFreePages p (pageToAddr first) count) = _ := pmm_free_pages_used inside
  refine free_count_run inside ?_ ?_
  · rw [left]
    exact Finset.sdiff_disjoint
  · rw [left, Finset.sdiff_union_of_subset used]

theorem with_runs_undone {p : Pmm} {first count alloc more : Nat} (inside : first + count ≤ totalPages)
    (inside' : alloc + more ≤ totalPages)
    (clear : ∀ j, first ≤ j → j < first + count → bitTest p.bitmap j = false)
    (clear' : ∀ j, alloc ≤ j → j < alloc + more →
      bitTest (withRun p first count).bitmap j = false) :
    pmmFreePages (pmmFreePages (withRun (withRun p first count) alloc more) (pageToAddr first) count)
      (pageToAddr alloc) more = p := by
  have bits : ∀ b, bitTest (withRun (withRun p first count) alloc more).bitmap b =
      (decide (alloc ≤ b ∧ b < alloc + more) ||
        (decide (first ≤ b ∧ b < first + count) || bitTest p.bitmap b)) := by
    intro b
    rw [withRun, bit_test_set_bits, withRun, bit_test_set_bits]
  have apart : ∀ j, alloc ≤ j → j < alloc + more →
      ¬ (first ≤ j ∧ j < first + count) ∧ bitTest p.bitmap j = false := by
    intro j low high
    have free := clear' j low high
    rw [withRun, bit_test_set_bits, Bool.or_eq_false_iff, decide_eq_false_iff_not] at free
    exact free
  have one := pmm_free_pages_released (p := withRun (withRun p first count) alloc more) inside (by
    intro j low high
    rw [bits, decide_eq_true (p := first ≤ j ∧ j < first + count) ⟨low, high⟩, Bool.true_or,
      Bool.or_true])
  have two := pmm_free_pages_released
    (p := pmmFreePages (withRun (withRun p first count) alloc more) (pageToAddr first) count) inside' (by
    intro j low high
    rw [one.bits, bits, decide_eq_true (p := alloc ≤ j ∧ j < alloc + more) ⟨low, high⟩, Bool.true_or,
      Bool.true_and, Bool.not_eq_true', decide_eq_false_iff_not]
    exact (apart j low high).1)
  rw [Pmm.mk.injEq]
  refine ⟨bitmap_ext fun b => ?_, ?_, ?_⟩
  · rw [two.bits, one.bits, bits]
    by_cases inRun : first ≤ b ∧ b < first + count
    · have open_ := clear b inRun.1 inRun.2
      simp [inRun, open_]
    · by_cases inMore : alloc ≤ b ∧ b < alloc + more
      · have open_ := (apart b inMore.1 inMore.2).2
        simp [inMore, open_]
      · simp [inRun, inMore]
  · rw [two.free, one.free]
    simp only [withRun]
    rw [BitVec.sub_add_comm, BitVec.sub_add_cancel, BitVec.sub_add_cancel]
  · rw [two.used, one.used]
    simp only [withRun]
    rw [BitVec.add_assoc, BitVec.add_comm (BitVec.ofNat 32 count), ← BitVec.add_assoc,
      BitVec.add_sub_cancel, BitVec.add_sub_cancel]

theorem with_run_undone {p : Pmm} {first count : Nat} (inside : first + count ≤ totalPages)
    (clear : ∀ j, first ≤ j → j < first + count → bitTest p.bitmap j = false) :
    pmmFreePages (withRun p first count) (pageToAddr first) count = p := by
  have nothing : withRun (withRun p first count) 0 0 = withRun p first count := by
    rw [withRun, setBits, BitVec.sub_zero, BitVec.add_zero]
  have both := with_runs_undone inside (show 0 + 0 ≤ totalPages by omega) clear (by
    intro j low high
    omega)
  rwa [nothing] at both

theorem pmm_alloc_page_undone {p q : Pmm} {page : Nat}
    (taken : pmmAllocPage p = (pageToAddr page, q)) : pmmFreePage q (pageToAddr page) = p := by
  rcases alloc_page_from_cases p 0 totalPages with ⟨none, _⟩ | ⟨other, _, high, clear, _, result⟩
  · rw [pmmAllocPage, none] at taken
    exact absurd (congrArg Prod.fst taken).symm (page_to_addr_ne_zero page)
  · rw [pmmAllocPage, result, Prod.mk.injEq] at taken
    obtain ⟨same, rfl⟩ := taken
    obtain rfl := page_to_addr_injective same
    have set : bitTest (bitSet p.bitmap other) other = true := by
      rw [bit_test_bit_set, decide_eq_true rfl, Bool.true_or]
    have back := pmm_free_page_released
      (p := ⟨bitSet p.bitmap other, p.freePages - 1#32, p.usedPages + 1#32⟩) (by omega) set
    have bits : (pmmFreePage ⟨bitSet p.bitmap other, p.freePages - 1#32, p.usedPages + 1#32⟩
        (pageToAddr other)).bitmap = p.bitmap := by
      refine bitmap_ext fun b => ?_
      rw [back.bits, bit_test_bit_set]
      by_cases here : other = b
      · subst here
        rw [clear]
        simp
      · have outside : ¬ (other ≤ b ∧ b < other + 1) := by omega
        rw [decide_eq_false here, decide_eq_false outside, Bool.false_or, Bool.not_false, Bool.and_true]
    rw [Pmm.mk.injEq]
    refine ⟨bits, back.free.trans ?_, back.used.trans ?_⟩
    · exact BitVec.sub_add_cancel _ _
    · exact BitVec.add_sub_cancel _ _

end Archarch.PageFrames
