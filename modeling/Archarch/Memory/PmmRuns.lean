import Archarch.Foundations.Runs
import Archarch.Memory.PmmSpec

/- Histories of the page allocator. The ledger records the ranges handed out and
   not yet given back; the kernel itself keeps no such record. -/
namespace Archarch.PageFrames
open LabelledRuns

theorem counted_pmm_alloc_page {p : Pmm} (counted : Counted p) : Counted (pmmAllocPage p).2 := by
  rcases pmm_alloc_page_cases p with ⟨result, _⟩ | ⟨page, q, inside, fresh, result, used, f, u⟩
  · rw [result]
    exact counted
  · have grown : (usedSet q).card = (usedSet p).card + 1 := by
      rw [used, Finset.card_insert_of_notMem fresh]
    have bound := used_set_card_le q
    have hu := counted.used
    have hf := counted.free
    rw [total_pages_eq] at bound hf
    rw [result]
    constructor
    · rw [u, grown, BitVec.toNat_add]
      simp only [BitVec.toNat_ofNat]
      omega
    · rw [f, grown, total_pages_eq, BitVec.toNat_sub]
      simp only [BitVec.toNat_ofNat]
      omega

theorem counted_pmm_alloc_pages {p : Pmm} (counted : Counted p) (count : Nat) :
    Counted (pmmAllocPages p count).2 := by
  rcases pmm_alloc_pages_cases p count with result | ⟨first, q, _, inside, apart, result, used, f, u⟩
  · rw [result]
    exact counted
  · have grown : (usedSet q).card = (usedSet p).card + count := by
      rw [used, Finset.card_union_of_disjoint apart]
      simp
    have bound := used_set_card_le q
    have hu := counted.used
    have hf := counted.free
    rw [total_pages_eq] at bound hf inside
    rw [result]
    constructor
    · rw [u, grown, BitVec.toNat_add]
      simp only [BitVec.toNat_ofNat]
      omega
    · rw [f, grown, total_pages_eq, BitVec.toNat_sub]
      simp only [BitVec.toNat_ofNat]
      omega

theorem counted_pmm_free_page {p : Pmm} (counted : Counted p) (addr : Nat) :
    Counted (pmmFreePage p addr) := by
  rcases pmm_free_page_cases p addr with result | ⟨member, used, f, u⟩
  · rw [result]
    exact counted
  · have shrunk := Finset.card_erase_of_mem member
    have positive := Finset.card_pos.mpr ⟨_, member⟩
    have bound := used_set_card_le p
    have hu := counted.used
    have hf := counted.free
    rw [total_pages_eq] at bound hf
    constructor
    · rw [u, used, shrunk, BitVec.toNat_sub]
      simp only [BitVec.toNat_ofNat]
      omega
    · rw [f, used, shrunk, total_pages_eq, BitVec.toNat_add]
      simp only [BitVec.toNat_ofNat]
      omega

theorem counted_pmm_free_pages {p : Pmm} (counted : Counted p) (addr count : Nat) :
    Counted (pmmFreePages p addr count) := by
  unfold pmmFreePages
  generalize 0 = i
  induction count generalizing p i with
  | zero => exact counted
  | succ n ih => exact ih (counted_pmm_free_page counted _) (i + 1)

/- pmm_init reserves exactly the pages below PAGE_ALIGN_UP(kernel_end). -/

section Init
variable {kernelEnd : Nat}

theorem reserved_count_address (low : ramBase ≤ kernelEnd) (high : kernelEnd ≤ ramEnd) :
    pageToAddr (reservedCount kernelEnd) = pageAlignUp kernelEnd ∧
      reservedCount kernelEnd ≤ totalPages := by
  rw [ram_base_eq] at low
  rw [ram_end_eq] at high
  simp only [reservedCount, pageAlignUp, page_to_addr_eq, page_size_eq, ram_base_eq, total_pages_eq]
  omega

theorem pmm_init_used (low : ramBase ≤ kernelEnd) (high : kernelEnd ≤ ramEnd) :
    usedSet (pmmInit kernelEnd) = Finset.range (reservedCount kernelEnd) := by
  have bound := (reserved_count_address low high).2
  ext b
  simp only [mem_used_set, pmm_init_bitmap, bit_test_set_bits, Finset.mem_range, Bool.or_eq_true,
    decide_eq_true_eq]
  have blank : bitTest (fun _ => 0) b = false := by simp [bit_test_eq]
  simp only [blank, Bool.false_eq_true, or_false]
  omega

theorem counted_pmm_init (low : ramBase ≤ kernelEnd) (high : kernelEnd ≤ ramEnd) :
    Counted (pmmInit kernelEnd) := by
  have bound := (reserved_count_address low high).2
  have card : (usedSet (pmmInit kernelEnd)).card = reservedCount kernelEnd := by
    rw [pmm_init_used low high, Finset.card_range]
  rw [total_pages_eq] at bound
  constructor
  · rw [card, pmm_init_used_pages, BitVec.toNat_add, BitVec.toNat_ofNat, BitVec.toNat_ofNat]
    omega
  · rw [card, pmm_init_free_pages, total_pages_eq, BitVec.toNat_sub, BitVec.toNat_ofNat,
      BitVec.toNat_ofNat]
    omega

end Init

abbrev Extent := Nat × Nat

structure Ledger where
  pmm : Pmm
  outstanding : List Extent

inductive Call where
  | allocPage
  | allocPages (count : Nat)
  | freePage (addr : Nat)
  | freePages (addr count : Nat)

def record (addr count : Nat) (q : Pmm) (outstanding : List Extent) : Ledger :=
  ⟨q, if addr = 0 then outstanding else (addr, count) :: outstanding⟩

/-- A range is given back at most once and as a whole; pmm_free_page takes a
   single page, pmm_free_pages a range of any length. -/
def ledgerStep (s : Ledger) : Call → Option Ledger
  | .allocPage => some (record (pmmAllocPage s.pmm).1 1 (pmmAllocPage s.pmm).2 s.outstanding)
  | .allocPages count =>
    some (record (pmmAllocPages s.pmm count).1 count (pmmAllocPages s.pmm count).2 s.outstanding)
  | .freePage addr =>
    if (addr, 1) ∈ s.outstanding then
      some ⟨pmmFreePage s.pmm addr, s.outstanding.erase (addr, 1)⟩
    else none
  | .freePages addr count =>
    if (addr, count) ∈ s.outstanding then
      some ⟨pmmFreePages s.pmm addr count, s.outstanding.erase (addr, count)⟩
    else none

def Apart (r t : Extent) : Prop := r.1 + r.2 * pageSize ≤ t.1 ∨ t.1 + t.2 * pageSize ≤ r.1

def Extent.Covers (r : Extent) (page : Nat) : Prop :=
  r.1 ≤ pageToAddr page ∧ pageToAddr page < r.1 + r.2 * pageSize

instance : Std.Symm Apart where
  symm _ _ apart := Or.symm apart

structure LedgerInv (reserved : Nat) (s : Ledger) : Prop where
  located : ∀ r ∈ s.outstanding, ∃ first, r.1 = pageToAddr first ∧ 0 < r.2 ∧ reserved ≤ first ∧
    first + r.2 ≤ totalPages
  apart : s.outstanding.Pairwise Apart
  marked : ∀ page, page ∈ usedSet s.pmm ↔
    page < reserved ∨ ∃ r ∈ s.outstanding, Extent.Covers r page
  counted : Counted s.pmm

theorem covers_first {first count page : Nat} :
    Extent.Covers (pageToAddr first, count) page ↔ first ≤ page ∧ page < first + count := by
  simp only [Extent.Covers, page_to_addr_eq, page_size_eq]
  omega

theorem outstanding_nodup {reserved : Nat} {s : Ledger} (inv : LedgerInv reserved s) :
    s.outstanding.Nodup := by
  refine List.Pairwise.imp_of_mem ?_ inv.apart
  intro a b ha hb apart same
  obtain ⟨first, _, positive, _⟩ := inv.located a ha
  subst same
  simp only [Apart, page_size_eq] at apart
  omega

theorem ledger_grow {reserved first count : Nat} {s : Ledger} {q : Pmm}
    (inv : LedgerInv reserved s) (positive : 0 < count) (inside : first + count ≤ totalPages)
    (fresh : ∀ page, first ≤ page → page < first + count → page ∉ usedSet s.pmm)
    (used : ∀ page, page ∈ usedSet q ↔ page ∈ usedSet s.pmm ∨ first ≤ page ∧ page < first + count)
    (counted : Counted q) :
    LedgerInv reserved (record (pageToAddr first) count q s.outstanding) := by
  have step : record (pageToAddr first) count q s.outstanding =
      ⟨q, (pageToAddr first, count) :: s.outstanding⟩ := by
    simp [record, page_to_addr_ne_zero]
  have above : reserved ≤ first := by
    by_contra below
    exact fresh first (Nat.le_refl _) (by omega) ((inv.marked first).mpr (Or.inl (by omega)))
  rw [step]
  refine ⟨?_, ?_, ?_, counted⟩
  · intro r hr
    rcases List.mem_cons.mp hr with rfl | old
    · exact ⟨first, rfl, positive, above, inside⟩
    · exact inv.located r old
  · refine List.pairwise_cons.mpr ⟨?_, inv.apart⟩
    intro r hr
    obtain ⟨other, address, nonempty, _, _⟩ := inv.located r hr
    -- a page in both ranges would have been used before this call
    have clash : ∀ page, first ≤ page → page < first + count →
        ¬ (other ≤ page ∧ page < other + r.2) := by
      intro page h1 h2 shared
      refine fresh page h1 h2 ((inv.marked page).mpr (Or.inr ⟨r, hr, ?_⟩))
      have : r = (pageToAddr other, r.2) := by rw [← address]
      rw [this]
      exact covers_first.mpr shared
    have left := clash first
    have right := clash other
    simp only [Apart, address, page_to_addr_eq, page_size_eq]
    omega
  · intro page
    rw [used, inv.marked]
    simp only [List.mem_cons, exists_eq_or_imp, covers_first]
    rw [or_assoc, or_comm (b := first ≤ page ∧ page < first + count)]

theorem ledger_shrink {reserved first count : Nat} {s : Ledger} {q : Pmm}
    (inv : LedgerInv reserved s) (member : (pageToAddr first, count) ∈ s.outstanding)
    (used : ∀ page, page ∈ usedSet q ↔
      page ∈ usedSet s.pmm ∧ ¬ (first ≤ page ∧ page < first + count))
    (counted : Counted q) :
    LedgerInv reserved ⟨q, s.outstanding.erase (pageToAddr first, count)⟩ := by
  have nodup := outstanding_nodup inv
  refine ⟨?_, ?_, ?_, counted⟩
  · intro r hr
    exact inv.located r (List.mem_of_mem_erase hr)
  · exact inv.apart.sublist List.erase_sublist
  · intro page
    rw [used, inv.marked]
    constructor
    · rintro ⟨low | ⟨r, hr, covers⟩, out⟩
      · exact Or.inl low
      · refine Or.inr ⟨r, (nodup.mem_erase_iff).mpr ⟨?_, hr⟩, covers⟩
        rintro rfl
        exact out (covers_first.mp covers)
    · obtain ⟨own, address, _, above, _⟩ := inv.located _ member
      have same := page_to_addr_injective address
      rintro (low | ⟨r, hr, covers⟩)
      · exact ⟨Or.inl low, by omega⟩
      · have parts := (nodup.mem_erase_iff).mp hr
        refine ⟨Or.inr ⟨r, parts.2, covers⟩, ?_⟩
        intro inside
        -- two different outstanding ranges would share this page
        have split := inv.apart.forall parts.2 member parts.1
        have shared := covers_first.mpr inside
        simp only [Apart, Extent.Covers] at split covers shared
        omega

theorem ledger_start {kernelEnd : Nat} (low : ramBase ≤ kernelEnd) (high : kernelEnd ≤ ramEnd) :
    LedgerInv (reservedCount kernelEnd) ⟨pmmInit kernelEnd, []⟩ := by
  refine ⟨by simp, List.Pairwise.nil, ?_, counted_pmm_init low high⟩
  intro page
  rw [pmm_init_used low high]
  simp

theorem ledger_step_inv {reserved : Nat} {s t : Ledger} {call : Call}
    (inv : LedgerInv reserved s) (step : ledgerStep s call = some t) : LedgerInv reserved t := by
  cases call with
  | allocPage =>
    have counted := counted_pmm_alloc_page inv.counted
    rcases pmm_alloc_page_cases s.pmm with ⟨result, _⟩ | ⟨page, q, inside, fresh, result, used, _, _⟩
    · rw [ledgerStep, result] at step
      cases step
      exact inv
    · rw [result] at counted
      rw [ledgerStep, result] at step
      cases step
      refine ledger_grow inv Nat.one_pos (by omega) ?_ ?_ counted
      · intro other h1 h2
        have : other = page := by omega
        rw [this]
        exact fresh
      · intro other
        rw [used, Finset.mem_insert]
        constructor
        · rintro (rfl | old)
          · exact Or.inr ⟨Nat.le_refl _, by omega⟩
          · exact Or.inl old
        · rintro (old | ⟨h1, h2⟩)
          · exact Or.inr old
          · exact Or.inl (by omega)
  | allocPages count =>
    have counted := counted_pmm_alloc_pages inv.counted count
    rcases pmm_alloc_pages_cases s.pmm count with
      result | ⟨first, q, positive, inside, apart, result, used, _, _⟩
    · rw [ledgerStep, result] at step
      cases step
      exact inv
    · rw [result] at counted
      rw [ledgerStep, result] at step
      cases step
      refine ledger_grow inv positive inside ?_ ?_ counted
      · intro page h1 h2 member
        exact Finset.disjoint_left.mp apart member (Finset.mem_Ico.mpr ⟨h1, h2⟩)
      · intro page
        rw [used, Finset.mem_union, Finset.mem_Ico]
  | freePage addr =>
    simp only [ledgerStep] at step
    split at step
    · rename_i member
      cases step
      obtain ⟨first, address, _, _, inside⟩ := inv.located _ member
      simp only at address inside
      subst address
      refine ledger_shrink inv member ?_ (counted_pmm_free_page inv.counted _)
      intro page
      rw [pmm_free_page_used (by omega), Finset.mem_erase]
      constructor
      · rintro ⟨ne, used⟩
        exact ⟨used, by omega⟩
      · rintro ⟨used, out⟩
        exact ⟨by omega, used⟩
    · cases step
  | freePages addr count =>
    simp only [ledgerStep] at step
    split at step
    · rename_i member
      cases step
      obtain ⟨first, address, _, _, inside⟩ := inv.located _ member
      simp only at address inside
      subst address
      refine ledger_shrink inv member ?_ (counted_pmm_free_pages inv.counted _ _)
      intro page
      rw [pmm_free_pages_used inside, Finset.mem_sdiff, Finset.mem_Ico]
    · cases step

/-- The states of the allocator after pmm_init(kernel_end) and any sequence of calls. -/
def Allocated (kernelEnd : Nat) : Ledger → Prop :=
  Reaches (· = ⟨pmmInit kernelEnd, []⟩) (Taken ledgerStep)

theorem allocated_inv {kernelEnd : Nat} (low : ramBase ≤ kernelEnd) (high : kernelEnd ≤ ramEnd)
    {s : Ledger} (run : Allocated kernelEnd s) : LedgerInv (reservedCount kernelEnd) s := by
  refine reaches_invariant _ ?_ ?_ run
  · rintro s rfl
    exact ledger_start low high
  · intro s call t inv step
    exact ledger_step_inv inv step

structure HandsOutOnce (kernelEnd : Nat) (s : Ledger) : Prop where
  disjoint : s.outstanding.Pairwise Apart
  inside : ∀ r ∈ s.outstanding,
    pageAlignUp kernelEnd ≤ r.1 ∧ 0 < r.2 ∧ r.1 + r.2 * pageSize ≤ ramEnd
  bitmap : ∀ page, page < totalPages → (bitTest s.pmm.bitmap page = true ↔
    pageToAddr page < pageAlignUp kernelEnd ∨ ∃ r ∈ s.outstanding, Extent.Covers r page)
  used : s.pmm.usedPages.toNat = ((Finset.range totalPages).filter
    (bitTest s.pmm.bitmap · = true)).card
  free : s.pmm.usedPages.toNat ≤ totalPages ∧
    s.pmm.freePages.toNat = totalPages - s.pmm.usedPages.toNat

theorem pmm_never_hands_out_twice (kernelEnd : Nat) (low : ramBase ≤ kernelEnd)
    (high : kernelEnd ≤ ramEnd) (s : Ledger) (run : Allocated kernelEnd s) :
    HandsOutOnce kernelEnd s := by
  have inv := allocated_inv low high run
  obtain ⟨boundary, _⟩ := reserved_count_address low high
  refine ⟨inv.apart, ?_, ?_, inv.counted.used, ?_⟩
  · intro r hr
    obtain ⟨first, address, positive, above, inside⟩ := inv.located r hr
    rw [total_pages_eq] at inside
    rw [← boundary, address]
    simp only [page_to_addr_eq, page_size_eq, ram_end_eq]
    omega
  · intro page hp
    have marked := inv.marked page
    rw [mem_used_set] at marked
    have reserved : pageToAddr page < pageAlignUp kernelEnd ↔ page < reservedCount kernelEnd := by
      rw [← boundary]
      simp only [page_to_addr_eq]
      omega
    rw [reserved]
    constructor
    · intro set
      exact marked.mp ⟨hp, set⟩
    · intro owned
      exact (marked.mpr owned).2
  · have bound := used_set_card_le s.pmm
    have used := inv.counted.used
    exact ⟨by omega, by rw [inv.counted.free, used]⟩

theorem hands_out_once_after_three_calls :
    ∃ s, runActions ledgerStep ⟨pmmInit 0x40001000, []⟩
        [.allocPage, .allocPages 3, .freePage 0x40001000] = some s ∧
      s.outstanding = [(0x40002000, 3)] ∧ HandsOutOnce 0x40001000 s := by
  have ranges : (runActions ledgerStep ⟨pmmInit 0x40001000, []⟩
      [.allocPage, .allocPages 3, .freePage 0x40001000]).map Ledger.outstanding =
        some [(0x40002000, 3)] := by decide +kernel
  obtain ⟨s, run, out⟩ := Option.map_eq_some_iff.mp ranges
  refine ⟨s, run, out, ?_⟩
  exact pmm_never_hands_out_twice 0x40001000 (by decide) (by decide) s
    (reaches_of_actions (Reaches.start rfl) run)

end Archarch.PageFrames
