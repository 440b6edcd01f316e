import Archarch.Memory.PmmSpec

/- pmm_mark_used: the pages it marks against the frames that meet the range. -/
namespace Archarch.PageFrames

/-- Masking with ~(PAGE_SIZE - 1). -/
def pageAlignDown (a : Nat) : Nat := a / pageSize * pageSize

/-- for (i = first; n > 0; i++, n--) if (!bit_test(i)) { ... } -/
def markFrom (p : Pmm) (i : Nat) : Nat → Pmm
  | 0 => p
  | n + 1 =>
    markFrom
      (if bitTest p.bitmap i then p
        else ⟨bitSet p.bitmap i, p.freePages - 1#32, p.usedPages + 1#32⟩) (i + 1) n

def pmmMarkUsed (p : Pmm) (start stop : Nat) : Pmm :=
  let start := if start < ramBase then ramBase else start
  let stop := if ramEnd < stop then ramEnd else stop
  let first := addrToPage (pageAlignDown start)
  let last := addrToPage (pageAlignUp stop)
  markFrom p first (min last totalPages - first)

def Meets (start stop page : Nat) : Prop :=
  ∃ a, start ≤ a ∧ a < stop ∧ pageToAddr page ≤ a ∧ a < pageToAddr page + pageSize

def newlyMarked (p q : Pmm) : Finset Nat := usedSet q \ usedSet p

structure MarksExactly (p : Pmm) (start stop : Nat) : Prop where
  pages : ∀ page, page < totalPages → (bitTest (pmmMarkUsed p start stop).bitmap page = true ↔
    bitTest p.bitmap page = true ∨ Meets start stop page)
  free : (pmmMarkUsed p start stop).freePages =
    p.freePages - BitVec.ofNat 32 (newlyMarked p (pmmMarkUsed p start stop)).card
  used : (pmmMarkUsed p start stop).usedPages =
    p.usedPages + BitVec.ofNat 32 (newlyMarked p (pmmMarkUsed p start stop)).card
  apart : (∀ page, page < totalPages → ¬ Meets start stop page) → pmmMarkUsed p start stop = p

/-- A page of RAM that pmm_mark_used marks though the range does not meet it: the range ends
    a page or more below RAM, it begins behind RAM at an address whose page index loses its
    high bits, or it is empty and inside a page. -/
def Stray (start stop page : Nat) : Prop :=
  page < totalPages ∧ (stop + pageSize ≤ ramBase ∨
    ramEnd ≤ start ∧ (start - ramBase) / pageSize % 2 ^ 32 ≤ page ∨
    start = stop ∧ ramBase ≤ start ∧ start < ramEnd ∧ start % pageSize ≠ 0 ∧
      (start - ramBase) / pageSize = page)

section Marking
variable {p : Pmm} {start stop page i n : Nat}

def freeIn (p : Pmm) (i n : Nat) : Finset Nat := (Finset.Ico i (i + n)).filter fun j => bitTest p.bitmap j = false

theorem bit_test_mark_from (b : Nat) : bitTest (markFrom p i n).bitmap b =
    (decide (i ≤ b ∧ b < i + n) || bitTest p.bitmap b) := by
  induction n generalizing p i with
  | zero =>
    have none : ¬ (i ≤ b ∧ b < i + 0) := by omega
    rw [markFrom, decide_eq_false none, Bool.false_or]
  | succ n ih =>
    rw [markFrom, ih]
    have one : bitTest (if bitTest p.bitmap i then p
        else ⟨bitSet p.bitmap i, p.freePages - 1#32, p.usedPages + 1#32⟩ : Pmm).bitmap b =
        (decide (i = b) || bitTest p.bitmap b) := by
      split
      · rename_i set
        by_cases same : i = b
        · subst same
          simp [set]
        · simp [same]
      · exact bit_test_bit_set p.bitmap i b
    rw [one, ← Bool.or_assoc]
    congr 1
    rw [Bool.eq_iff_iff]
    simp only [Bool.or_eq_true, decide_eq_true_eq]
    omega

theorem free_in_rest {q : Pmm} (same : ∀ j, j ≠ i → bitTest q.bitmap j = bitTest p.bitmap j) :
    freeIn q (i + 1) n = (freeIn p i (n + 1)).erase i := by
  ext j
  simp only [freeIn, Finset.mem_erase, Finset.mem_filter, Finset.mem_Ico]
  constructor
  · rintro ⟨place, clear⟩
    rw [same j (by omega)] at clear
    exact ⟨by omega, by omega, clear⟩
  · rintro ⟨other, place, clear⟩
    rw [same j other]
    exact ⟨by omega, clear⟩

theorem mark_from_counts : (markFrom p i n).freePages = p.freePages - BitVec.ofNat 32 (freeIn p i n).card ∧
    (markFrom p i n).usedPages = p.usedPages + BitVec.ofNat 32 (freeIn p i n).card := by
  induction n generalizing p i with
  | zero =>
    have none : freeIn p i 0 = ∅ := by simp [freeIn]
    rw [none, Finset.card_empty]
    exact ⟨(BitVec.sub_zero _).symm, (BitVec.add_zero _).symm⟩
  | succ n ih =>
    rw [markFrom]
    by_cases set : bitTest p.bitmap i = true
    · rw [if_pos set]
      have rest : freeIn p (i + 1) n = freeIn p i (n + 1) := by
        rw [free_in_rest fun _ _ => rfl]
        apply Finset.erase_eq_of_notMem
        simp [freeIn, set]
      rw [← rest]
      exact ih
    · rw [if_neg set]
      have clear : bitTest p.bitmap i = false := by simpa using set
      obtain ⟨free, used⟩ := ih (i := i + 1)
        (p := ⟨bitSet p.bitmap i, p.freePages - 1#32, p.usedPages + 1#32⟩)
      have rest := free_in_rest (p := p) (i := i) (n := n)
        (q := ⟨bitSet p.bitmap i, p.freePages - 1#32, p.usedPages + 1#32⟩) (by
          intro j other
          rw [bit_test_bit_set, decide_eq_false (Ne.symm other), Bool.false_or])
      have member : i ∈ freeIn p i (n + 1) := by simp [freeIn, clear]
      have card := Finset.card_erase_add_one member
      rw [rest] at free used
      rw [← card, BitVec.ofNat_add]
      constructor
      · rw [free, BitVec.sub_sub, BitVec.add_comm]
      · rw [used, BitVec.add_assoc, BitVec.add_comm (1#32)]

theorem newly_marked_eq (inside : i + n ≤ totalPages) : newlyMarked p (markFrom p i n) = freeIn p i n := by
  ext j
  rw [newlyMarked, Finset.mem_sdiff, mem_used_set, mem_used_set, bit_test_mark_from, freeIn,
    Finset.mem_filter, Finset.mem_Ico, Bool.or_eq_true, decide_eq_true_eq]
  constructor
  · rintro ⟨⟨small, place | set⟩, old⟩
    · refine ⟨place, ?_⟩
      cases bit : bitTest p.bitmap j with
      | false => rfl
      | true => exact absurd ⟨small, bit⟩ old
    · exact absurd ⟨small, set⟩ old
  · rintro ⟨place, clear⟩
    refine ⟨⟨by omega, Or.inl place⟩, ?_⟩
    rintro ⟨_, set⟩
    rw [clear] at set
    cases set

theorem mark_from_nothing (full : freeIn p i n = ∅) : markFrom p i n = p := by
  obtain ⟨free, used⟩ := mark_from_counts (p := p) (i := i) (n := n)
  rw [full, Finset.card_empty] at free used
  rw [Pmm.mk.injEq]
  refine ⟨bitmap_ext fun b => ?_, free.trans (BitVec.sub_zero _), used.trans (BitVec.add_zero _)⟩
  rw [bit_test_mark_from]
  by_cases place : i ≤ b ∧ b < i + n
  · have set : bitTest p.bitmap b = true := by
      by_contra clear
      have member : b ∈ freeIn p i n :=
        Finset.mem_filter.mpr ⟨Finset.mem_Ico.mpr place, by simpa using clear⟩
      rw [full] at member
      cases member
    rw [set, Bool.or_true]
  · rw [decide_eq_false place, Bool.false_or]

theorem meets_iff : Meets start stop page ↔
    start < stop ∧ pageToAddr page < stop ∧ start < pageToAddr page + pageSize := by
  unfold Meets
  rw [page_size_eq]
  constructor
  · rintro ⟨a, low, high, from_, to_⟩
    omega
  · rintro ⟨some, before, behind⟩
    rcases Nat.le_total start (pageToAddr page) with first | inside
    · exact ⟨pageToAddr page, first, before, Nat.le_refl _, by omega⟩
    · exact ⟨start, Nat.le_refl _, some, inside, behind⟩

/-- The first page of the loop and the page it ends before. -/
def firstMarked (start : Nat) : Nat := addrToPage (pageAlignDown (if start < ramBase then ramBase else start))

def lastMarked (stop : Nat) : Nat := addrToPage (pageAlignUp (if ramEnd < stop then ramEnd else stop))

theorem mark_used_eq (p : Pmm) (start stop : Nat) : pmmMarkUsed p start stop =
    markFrom p (firstMarked start) (min (lastMarked stop) totalPages - firstMarked start) := rfl

theorem first_marked_eq (word : start < 2 ^ 64) :
    firstMarked start = (start - ramBase) / pageSize % 2 ^ 32 := by
  rw [firstMarked, addrToPage, pageAlignDown, ram_base_eq, page_size_eq]
  split <;> omega

theorem last_marked_eq : lastMarked stop =
    (min stop ramEnd + 4095 + 2 ^ 64 - ramBase) % 2 ^ 64 / pageSize % 2 ^ 32 := by
  rw [lastMarked, addrToPage, pageAlignUp, ram_base_eq, page_size_eq, ram_end_eq]
  split <;> omega

theorem marked_iff (order : start ≤ stop) (word : stop < 2 ^ 64) (inside : page < totalPages) :
    firstMarked start ≤ page ∧ page < lastMarked stop ↔ Meets start stop page ∨ Stray start stop page := by
  rw [meets_iff, Stray, first_marked_eq (by omega), last_marked_eq, page_to_addr_eq]
  simp only [page_size_eq, ram_base_eq, ram_end_eq, total_pages_eq] at inside ⊢
  by_cases below : stop + 4096 ≤ 0x40000000
  · omega
  · by_cases beyond : 0x48000000 ≤ start
    · omega
    · omega

theorem stray_not_met (stray : Stray start stop page) : ¬ Meets start stop page := by
  rw [meets_iff, page_to_addr_eq]
  simp only [Stray, page_size_eq, ram_base_eq, ram_end_eq, total_pages_eq] at stray ⊢
  omega

end Marking

/-- pmm_mark_used marks exactly the given range if and only if the stray pages are in use
    already. -/
theorem marks_exactly_iff (p : Pmm) (start stop : Nat) (order : start ≤ stop) (word : stop < 2 ^ 64) :
    MarksExactly p start stop ↔ ∀ page, Stray start stop page → bitTest p.bitmap page = true := by
  have places : ∀ page, page < totalPages → (firstMarked start ≤ page ∧
      page < firstMarked start + (min (lastMarked stop) totalPages - firstMarked start) ↔
      Meets start stop page ∨ Stray start stop page) := by
    intro page inside
    rw [← marked_iff order word inside]
    omega
  have marked : ∀ page, page < totalPages → (bitTest (pmmMarkUsed p start stop).bitmap page = true ↔
      (Meets start stop page ∨ Stray start stop page) ∨ bitTest p.bitmap page = true) := by
    intro page inside
    rw [mark_used_eq, bit_test_mark_from, Bool.or_eq_true, decide_eq_true_eq, places page inside]
  constructor
  · intro exact_ page stray
    have after := (marked page stray.1).mpr (Or.inl (Or.inr stray))
    exact ((exact_.pages page stray.1).mp after).resolve_right (stray_not_met stray)
  · intro old
    obtain ⟨free, used⟩ := mark_from_counts (p := p) (i := firstMarked start)
      (n := min (lastMarked stop) totalPages - firstMarked start)
    by_cases some : firstMarked start ≤ totalPages
    · have counted : newlyMarked p (pmmMarkUsed p start stop) =
          freeIn p (firstMarked start) (min (lastMarked stop) totalPages - firstMarked start) := by
        rw [mark_used_eq]
        exact newly_marked_eq (by omega)
      constructor
      · intro page inside
        rw [marked page inside]
        constructor
        · rintro ((meets | stray) | set)
          · exact Or.inr meets
          · exact Or.inl (old page stray)
          · exact Or.inl set
        · rintro (set | meets)
          · exact Or.inr set
          · exact Or.inl (Or.inl meets)
      · rw [counted]
        exact free
      · rw [counted]
        exact used
      · intro nowhere
        apply mark_from_nothing
        apply Finset.filter_eq_empty_iff.mpr
        intro page member clear
        have range := Finset.mem_Ico.mp member
        have inside : page < totalPages := by omega
        rcases (places page inside).mp range with meets | stray
        · exact nowhere page inside meets
        · rw [old page stray] at clear
          cases clear
    · -- the loop body is never entered
      have same : pmmMarkUsed p start stop = p := by
        rw [mark_used_eq, Nat.sub_eq_zero_of_le (by omega), markFrom]
      have nothing : newlyMarked p (pmmMarkUsed p start stop) = ∅ := by
        rw [same, newlyMarked, Finset.sdiff_self]
      have unmet : ∀ page, page < totalPages → ¬ Meets start stop page := by
        intro page inside meets
        have range := (places page inside).mpr (Or.inl meets)
        omega
      constructor
      · intro page inside
        rw [same]
        exact ⟨Or.inl, fun either => either.resolve_right (unmet page inside)⟩
      · rw [nothing, same, Finset.card_empty, BitVec.sub_zero]
      · rw [nothing, same, Finset.card_empty, BitVec.add_zero]
      · exact fun _ => same

def freshPmm : Pmm := ⟨fun _ => 0, 32768#32, 0#32⟩

theorem reserves_straddling_range : MarksExactly freshPmm 0x3FFFF800 0x40001001 := by
  apply (marks_exactly_iff freshPmm 0x3FFFF800 0x40001001 (by decide) (by decide)).mpr
  intro page stray
  simp only [Stray, page_size_eq, ram_base_eq, ram_end_eq, total_pages_eq] at stray
  omega

/-- The registers of the UART of the board, 0x09000000 up to 0x09001000, lie below RAM. -/
theorem uart_reservation_marks_ram : ¬ MarksExactly freshPmm 0x09000000 0x09001000 := by
  intro exact_
  have stray : Stray 0x09000000 0x09001000 0 := by
    simp only [Stray, page_size_eq, ram_base_eq, total_pages_eq]
    omega
  have marked := (@marked_iff 0x09000000 0x09001000 _ (by decide) (by decide) stray.1).mpr
    (Or.inr stray)
  have set : bitTest (pmmMarkUsed freshPmm 0x09000000 0x09001000).bitmap 0 = true := by
    rw [mark_used_eq, bit_test_mark_from, Bool.or_eq_true, decide_eq_true_eq, total_pages_eq]
    omega
  rcases (exact_.pages 0 stray.1).mp set with old | meets
  · cases old
  · exact stray_not_met stray meets

end Archarch.PageFrames
