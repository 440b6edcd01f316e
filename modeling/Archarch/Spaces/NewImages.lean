import Archarch.Spaces.ForkImages
import Archarch.Spaces.SpawnFailures

/- What a task made by sched_create_user finds in its address space. The table for the code
   has 512 entries and the loop of mmu_create_user_pgd takes its index modulo 512. -/
namespace Archarch.AddressSpaces
open ByteMemory TranslationTables PageFrames LabelledRuns

structure SeesImage (t : System) (n : Nat) (image : Image) : Prop where
  code : ∀ p, p < (t.tasks n).codePages →
    pageAt t n (userVaCode + p * pageSize) = some ((t.tasks n).codePa + p * pageSize)
  stack : ∀ p, p < userStackPages →
    pageAt t n (stackVaBase userStackPages + p * pageSize) = some ((t.tasks n).stackPa + p * pageSize)
  only : ∀ va a, pageAt t n va = some a →
    (∃ p, p < (t.tasks n).codePages ∧ va / pageSize = userVaCode / pageSize + p) ∨
    ∃ p, p < userStackPages ∧ va / pageSize = stackVaBase userStackPages / pageSize + p
  bytes : ∀ i, i < (t.tasks n).codePages * pageSize → ∃ a, pageAt t n (userVaCode + i) = some a ∧
    t.phys.mem (a + i % pageSize) = if i < image.size then image.bytes i else 0

/- Which page the loop of mmu_create_user_pgd leaves at an entry. -/

theorem last_page_found {index : Nat → Nat} {p k j r : Nat} (low : p ≤ r) (high : r < p + k)
    (same : index r = j) : ∃ last, lastPage index p k j = some last := by
  induction k generalizing p with
  | zero => omega
  | succ k ih =>
    rw [lastPage]
    by_cases here : p = r
    · cases lastPage index (p + 1) k j with
      | some last => exact ⟨last, rfl⟩
      | none => exact ⟨p, by rw [here, if_pos same]; rfl⟩
    · obtain ⟨last, found⟩ := ih (p := p + 1) (by omega) (by omega)
      exact ⟨last, by rw [found]; rfl⟩

theorem last_page_once {index : Nat → Nat} {p k r : Nat} (low : p ≤ r) (high : r < p + k)
    (once : ∀ x, p ≤ x → x < p + k → index x = index r → x = r) :
    lastPage index p k (index r) = some r := by
  obtain ⟨last, found⟩ := last_page_found low high rfl
  have bounds := last_page_some found
  rw [found, once last bounds.1 bounds.2.1 bounds.2.2]

theorem stack_index_eq {p : Nat} (bound : p < userStackPages) :
    stackIndex userStackPages p = 508 + p := by
  have base : stackVaBase userStackPages = 0x7FC000 := rfl
  rw [stackIndex, index_eq, base, Nat.shiftRight_eq_div_pow, page_size_eq]
  simp only [userStackPages] at bound
  omega

section Images
variable {codePa codePages stackPa va p : Nat}

theorem image_page_code (fits : codePages ≤ 512) (bound : p < codePages)
    (here : va / 4096 = 1024 + p) :
    imagePage codePa codePages stackPa (leafPath va) = some (codePa + p * pageSize) := by
  have path : leafPath va = [0, 2, codeIndex p] := by
    rw [code_index_eq]
    simp only [leafPath, List.cons.injEq, and_true]
    omega
  have entry : lastPage codeIndex 0 codePages (codeIndex p) = some p := by
    apply last_page_once (Nat.zero_le _) (by omega)
    intro x _ high same
    rw [code_index_eq, code_index_eq] at same
    omega
  rw [path, imagePage, entry, Option.map_some]

theorem image_page_stack (bound : p < userStackPages) (here : va / 4096 = 2044 + p) :
    imagePage codePa codePages stackPa (leafPath va) = some (stackPa + p * pageSize) := by
  have index := stack_index_eq bound
  have path : leafPath va = [0, 3, stackIndex userStackPages p] := by
    rw [index]
    simp only [userStackPages] at bound
    simp only [leafPath, List.cons.injEq, and_true]
    omega
  have entry : lastPage (stackIndex userStackPages) 0 userStackPages (stackIndex userStackPages p) =
      some p := by
    apply last_page_once (Nat.zero_le _) (by omega)
    intro x _ high same
    rw [index, stack_index_eq (by omega)] at same
    omega
  rw [path, imagePage, entry, Option.map_some]

theorem image_page_only {a : Nat} (low : va < vaLimit)
    (found : imagePage codePa codePages stackPa (leafPath va) = some a) :
    (∃ p, p < codePages ∧ va / 4096 = 1024 + p % 512) ∨
      ∃ p, p < userStackPages ∧ va / 4096 = 2044 + p := by
  have inside : va < 2 ^ 39 := low
  unfold imagePage at found
  split at found
  · rename_i j path
    obtain ⟨p, last, _⟩ := Option.map_eq_some_iff.mp found
    have bounds := last_page_some last
    rw [code_index_eq] at bounds
    simp only [leafPath, List.cons.injEq, and_true] at path
    exact Or.inl ⟨p, by omega, by omega⟩
  · rename_i j path
    obtain ⟨p, last, _⟩ := Option.map_eq_some_iff.mp found
    have bounds := last_page_some last
    have index := stack_index_eq (show p < userStackPages by omega)
    simp only [leafPath, List.cons.injEq, and_true] at path
    exact Or.inr ⟨p, by omega, by omega⟩
  · cases found

end Images

theorem image_pages_eq (image : Image) :
    imagePages image.size = max 1 ((image.size + 4095) / 4096) + 4 := by
  have small := image.small
  simp only [imagePages]
  split
  · rename_i none
    rw [page_size_eq] at none
    omega
  · rename_i some
    rw [page_size_eq] at some ⊢
    omega

theorem image_pages_fit_iff (image : Image) : imagePages image.size ≤ 512 ↔ image.size ≤ 508 * 4096 := by
  rw [image_pages_eq]
  omega

theorem load_image_bytes (image : Image) {m : Mem} {base i : Nat}
    (inside : i < imagePages image.size * 4096) :
    loadImage m base (imagePages image.size) image (base + i) =
      if i < image.size then image.bytes i else 0 := by
  have small := image.small
  have bound := image_pages_bound image
  have product : imagePages image.size * pageSize % 2 ^ 32 = imagePages image.size * 4096 := by
    rw [image_pages_eq, page_size_eq]
    omega
  rw [page_size_eq] at bound
  rw [loadImage, product]
  split
  · rename_i code
    rw [fill_outside (by omega), fill_inside (by omega), Nat.add_sub_cancel_left]
  · exact fill_inside (by omega)

theorem spawned_page_512 {s t : System} {codePages heapBreak codeFirst stackFirst pgd : Nat}
    {loadCode loadStack : Mem → Nat → Mem}
    (new : Spawned s t codePages heapBreak loadCode loadStack codeFirst stackFirst pgd) :
    pageAt t s.numTasks (userVaCode + 512 * pageSize) = none := by
  have address : userVaCode + 512 * pageSize = 0x600000 := rfl
  cases found : pageAt t s.numTasks (userVaCode + 512 * pageSize) with
  | none => rfl
  | some a =>
    rw [spawned_page_at new, if_pos (by decide)] at found
    rcases image_page_only (by decide) found with ⟨p, _, here⟩ | ⟨p, bound, here⟩
    · omega
    · omega

theorem new_process_sees_image_iff (s t : System) (image : Image) (r : Int)
    (made : schedCreateUser s image = (r, t)) (success : 0 ≤ r) :
    SeesImage t s.numTasks image ↔ image.size ≤ 508 * 4096 := by
  rcases sched_create_user_spec made with ⟨failed, _⟩ | ⟨codeFirst, stackFirst, pgd, _, new⟩
  · omega
  have maps := spawned_page_at new
  have slot : t.tasks s.numTasks = ⟨false, true, pgd, pageToAddr codeFirst, imagePages image.size,
      pageToAddr stackFirst, userVaCode + imagePages image.size * pageSize⟩ := by
    rw [new.tasks, Function.update_self]
  rw [← image_pages_fit_iff]
  constructor
  · intro sees
    by_contra large
    have page := sees.code 512 (by rw [slot]; show 512 < imagePages image.size; omega)
    rw [spawned_page_512 new] at page
    cases page
  · intro fits
    have inside : ∀ va : Nat, va < 2 ^ 23 → va < vaLimit := by
      intro va low
      rw [vaLimit]
      omega
    have code : ∀ p va, p < imagePages image.size → va / 4096 = 1024 + p →
        pageAt t s.numTasks va = some (pageToAddr codeFirst + p * pageSize) := by
      intro p va bound here
      rw [maps, if_pos (inside va (by omega))]
      exact image_page_code fits bound here
    constructor
    · intro p bound
      rw [slot] at bound ⊢
      apply code p _ bound
      rw [page_size_eq, show userVaCode = 0x400000 from rfl]
      omega
    · intro p bound
      have address : stackVaBase userStackPages + p * pageSize = 0x7FC000 + p * 4096 := rfl
      have few : p < 4 := bound
      rw [slot, maps, address, if_pos (inside _ (by omega))]
      exact image_page_stack bound (by omega)
    · intro va a found
      rw [maps] at found
      split at found
      · rename_i low
        rw [slot, page_size_eq, show userVaCode / 4096 = 1024 from rfl,
          show stackVaBase userStackPages / 4096 = 2044 from rfl]
        rcases image_page_only low found with ⟨p, bound, here⟩ | stack
        · exact Or.inl ⟨p, bound, by omega⟩
        · exact Or.inr stack
      · cases found
    · intro i bound
      rw [slot, page_size_eq] at bound
      have page : i / 4096 < imagePages image.size := by
        have := Nat.div_lt_of_lt_mul (Nat.mul_comm _ _ ▸ bound)
        exact this
      refine ⟨_, code (i / 4096) _ page ?_, ?_⟩
      · rw [show userVaCode = 0x400000 from rfl]
        omega
      · have byte := new.codeBytes (i / 4096) (i % 4096) page (Nat.mod_lt _ (by decide))
        have address : pageToAddr (codeFirst + i / 4096) + i % 4096 = pageToAddr codeFirst + i := by
          rw [page_to_addr_eq, page_to_addr_eq]
          omega
        rw [← page_to_addr_add, page_size_eq, byte, address]
        exact load_image_bytes image bound

theorem small_image_seen : ∃ t, schedCreateUser (freshSystem 0x40001000) smallImage = (1, t) ∧
    SeesImage t 1 smallImage := by
  have number : (schedCreateUser (freshSystem 0x40001000) smallImage).1 = 1 := by decide +kernel
  have made : schedCreateUser (freshSystem 0x40001000) smallImage =
    (1, (schedCreateUser (freshSystem 0x40001000) smallImage).2) := Prod.ext number rfl
  exact ⟨_, made, (new_process_sees_image_iff (freshSystem 0x40001000) _ smallImage 1 made
    (by decide)).mpr (by decide)⟩

/-- A program of 508 pages and one byte gets 513 pages: the last one replaces the first in
    the table for the code, and its own address is not mapped. -/
def wideImage : Image := ⟨fun _ => 0, 508 * 4096 + 1, by decide⟩

theorem free_above {p : Pmm} {n j : Nat} (low : usedSet p ⊆ Finset.range n) (above : n ≤ j) (inside : j < totalPages) :
    bitTest p.bitmap j = false := by
  by_contra set
  have used := Finset.mem_range.mp (low (mem_used_set.mpr ⟨inside, by simpa using set⟩))
  omega

theorem free_count_above {p : Pmm} {n : Nat} (low : usedSet p ⊆ Finset.range n) : totalPages - n ≤ freeCount p := by
  have count := Finset.card_le_card low
  rw [Finset.card_range] at count
  rw [freeCount]
  omega

theorem holds_image_above {p : Pmm} {n pages : Nat} (positive : 0 < pages) (low : usedSet p ⊆ Finset.range n)
    (inside : n + pages + 10 ≤ totalPages) : HoldsImage p pages := by
  have run : FreeRun p pages :=
    ⟨n, by omega, fun j above upTo => free_above low above (by omega)⟩
  obtain ⟨first, found⟩ := (first_run_exists_iff positive).mpr run
  have after : ∀ j, j < totalPages → n ≤ j → ¬ (first ≤ j ∧ j < first + pages) →
      bitTest (withRun p first pages).bitmap j = false := by
    intro j bound above outside
    rw [withRun, bit_test_set_bits, decide_eq_false outside, Bool.false_or]
    exact free_above low above bound
  refine ⟨first, found, ?_⟩
  -- the stack fits below or above the code
  by_cases below : n + 5 ≤ first
  · refine ⟨n, by rw [userStackPages]; omega, ?_⟩
    intro j above upTo
    rw [userStackPages] at upTo
    exact after j (by omega) above (by omega)
  · refine ⟨n + 5 + pages, by rw [userStackPages]; omega, ?_⟩
    intro j above upTo
    rw [userStackPages] at upTo
    exact after j (by omega) (by omega) (by omega)

theorem wide_image_loaded : (schedCreateUser (freshSystem 0x40001000) wideImage).1 = 1 := by
  have low : usedSet (freshSystem 0x40001000).phys.pmm ⊆ Finset.range 1 := by
    have reserved : reservedCount 0x40001000 = 1 := by decide
    rw [freshSystem, pmm_init_used (by decide) (by decide), reserved]
  have pages : imagePages wideImage.size = 513 := by decide
  have total := total_pages_eq
  have enough := free_count_above low
  rcases made : schedCreateUser (freshSystem 0x40001000) wideImage with ⟨r, t⟩
  refine create_user_succeeds (by decide) ?_ ?_ made
  · rw [pages]
    exact holds_image_above (by decide) low (by omega)
  · rw [pages]
    omega

theorem wide_image_not_seen : ∃ t, schedCreateUser (freshSystem 0x40001000) wideImage = (1, t) ∧
    ¬ SeesImage t 1 wideImage := by
  have loaded := wide_image_loaded
  rcases made : schedCreateUser (freshSystem 0x40001000) wideImage with ⟨r, t⟩
  rw [made] at loaded
  obtain rfl : r = 1 := loaded
  refine ⟨t, rfl, ?_⟩
  intro sees
  rcases sched_create_user_spec made with ⟨failed, _⟩ | ⟨_, _, _, _, new⟩
  · exact absurd failed (by decide)
  · have number : (freshSystem 0x40001000).numTasks = 1 := rfl
    have tasks := new.tasks
    have none := spawned_page_512 new
    rw [number] at tasks none
    have pages : imagePages wideImage.size = 513 := by decide
    have slot : (t.tasks 1).codePages = 513 := by rw [tasks, Function.update_self, pages]
    have page := sees.code 512 (by omega)
    rw [none] at page
    cases page

end Archarch.AddressSpaces
