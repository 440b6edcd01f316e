import Mathlib.Data.List.Find
import Archarch.Memory.HeapRuns

/- When kmalloc returns. It retries after heap_grow whether or not the heap grew,
   so a request that nothing can satisfy is retried for ever. -/
namespace Archarch.KernelHeap
open PageFrames LinkedChain FixedWidth LabelledRuns

/-- Some free block takes the rounded size. -/
def Fits (h : Heap) (size : Nat) : Prop :=
  ∃ bs b, Represents h bs ∧ b ∈ bs ∧ b.free = true ∧ align16 size ≤ b.size

/-- The page allocator has as many contiguous free pages as heap_grow would ask for. -/
def Growable (p : Pmm) (size : Nat) : Prop := FreeRun p (pagesNeeded (align16 size))

def Given (h : Heap) (size ptr : Nat) : Prop :=
  16 ∣ ptr ∧ ∃ bs b, Represents h bs ∧ b ∈ bs ∧ b.free = false ∧ ptr = b.addr + 32 ∧ size ≤ b.size

structure Answer (k : Arena) (size ptr : Nat) (after : Arena) : Prop where
  block : ptr = 0 ∨ Given after.heap size ptr
  null : ¬ Fits k.heap size → ¬ Growable k.pmm size → ptr = 0

/-- The call ends after some number of rounds, with NULL or a block. -/
def Answers (k : Arena) (size : Nat) : Prop :=
  ∃ fuel ptr after, kmalloc fuel k size = (some ptr, after) ∧ Answer k size ptr after

/- Sizes: a file size of 32 bits stays far from the wrap of a 64-bit sum. -/

theorem align16_bounds {size : Nat} (word : size ≤ 2 ^ 32) :
    size ≤ align16 size ∧ align16 size < size + 16 ∧ align16 size ≤ 2 ^ 32 := by
  rw [align16, add64_eq (by omega)]
  omega

theorem align16_twice {size : Nat} (word : size ≤ 2 ^ 32) :
    align16 (align16 size) = align16 size := by
  have bounds := align16_bounds word
  obtain ⟨m, multiple⟩ := align16_multiple size
  rw [align16, add64_eq (by omega)]
  omega

theorem pages_needed_enough {size : Nat} (word : size ≤ 2 ^ 32) :
    4 ≤ pagesNeeded size ∧ size ≤ pagesNeeded size * 4096 - 32 := by
  have sum : add64 (add64 size headerSize) (pageSize - 1) = size + 4127 := by
    rw [header_size_eq, page_size_eq, add64_eq (a := size) (by omega), add64_eq (by omega)]
  have pages : low32 (add64 (add64 size headerSize) (pageSize - 1) / pageSize) =
      (size + 4127) / 4096 := by
    rw [sum, page_size_eq]
    exact low32_eq (by omega)
  simp only [pagesNeeded, pages]
  split <;> omega

/- Requests that nothing can satisfy. -/

theorem heap_grow_fails {k : Arena} {n : Nat} (none : ¬ FreeRun k.pmm n) : heapGrow k n = k := by
  simp [heapGrow, pmm_alloc_pages_fails none]

theorem kmalloc_keeps_trying {k : Arena} {bs : List Block} (rep : Represents k.heap bs) (fuel : Nat)
    {size : Nat} (word : size ≤ 2 ^ 32) (positive : size ≠ 0) (full : ¬ Fits k.heap size)
    (stuck : ¬ Growable k.pmm size) : (kmalloc fuel k size).1 = none := by
  induction fuel generalizing size with
  | zero => rfl
  | succ fuel ih =>
    have bounds := align16_bounds word
    have again := align16_twice word
    simp only [kmalloc, positive, ↓reduceIte]
    cases search : findFit k.heap.mem (align16 size) (fuel + 1) k.heap.heapStart with
    | none => rfl
    | some found =>
      cases found with
      | none =>
        -- heap_grow changes nothing, and rounding the rounded size changes nothing
        have same : heapGrow k (pagesNeeded (align16 size)) = k := heap_grow_fails stuck
        simp only [same]
        apply ih bounds.2.2 (by omega)
        · rw [Fits, again]
          exact full
        · rw [Growable, again]
          exact stuck
      | some curr =>
        obtain ⟨pre, b, post, shape, _, fits⟩ := find_fit_block rep search
        exact absurd ⟨bs, b, rep, by simp [shape], fits.1, fits.2⟩ full

/- Requests the heap can satisfy, at once or after growing. -/

section Arena
variable {k : Arena} {pages : Finset Nat} {live : List Nat} {bs : List Block}

theorem find_fit_represented (rep : Represents k.heap bs) (size : Nat) {fuel : Nat}
    (enough : bs.length < fuel) :
    findFit k.heap.mem size fuel k.heap.heapStart =
      some ((bs.find? fun b => b.free && decide (size ≤ b.size)).map Block.addr) := by
  have search : findFit k.heap.mem size fuel k.heap.heapStart = some ((addrs bs).find? _) :=
    find_along_segment rep.chain (represents_outside rep) (by simpa [addrs] using enough)
  rw [search, addrs, List.find?_map]
  refine congrArg some (congrArg (Option.map Block.addr) (List.find?_congr ?_))
  intro b hb
  have cell := rep.cells b hb
  simp only [Function.comp_apply, cell.2.1, cell.2.2]

theorem kmalloc_gives (inv : ArenaInv k pages live bs) (aligned : ∀ b ∈ bs, Aligned16 b)
    {size : Nat} (positive : size ≠ 0) (fit : ∃ b ∈ bs, b.free = true ∧ align16 size ≤ b.size)
    {fuel : Nat} (enough : bs.length ≤ fuel) :
    ∃ ptr after, kmalloc (fuel + 1) k size = (some ptr, after) ∧
      Given after.heap (align16 size) ptr := by
  obtain ⟨b, first⟩ : ∃ b, bs.find? (fun b => b.free && decide (align16 size ≤ b.size)) = some b := by
    obtain ⟨c, hc, open_, room⟩ := fit
    exact Option.isSome_iff_exists.mp (List.find?_isSome.mpr ⟨c, hc, by simp [open_, room]⟩)
  have hb := List.mem_of_find?_eq_some first
  have passes := List.find?_some first
  simp only [Bool.and_eq_true, decide_eq_true_eq] at passes
  obtain ⟨open_, room⟩ := passes
  have search := find_fit_represented inv.rep (align16 size) (show bs.length < fuel + 1 by omega)
  rw [first, Option.map_some] at search
  have small := arena_small inv b hb
  have even := aligned b hb
  obtain ⟨pre, post, split⟩ := List.append_of_mem hb
  have shape : bs = pre ++ [b] ++ post := by
    rw [split]
    simp
  rw [shape] at inv
  have done := arena_take_block inv open_ room
  obtain ⟨got, large, member⟩ := carve_head room
  simp only [Small, kernVaOffset, ram_end_eq] at small
  have ptr : add64 b.addr headerSize = b.addr + 32 := by
    rw [header_size_eq, add64_eq (by omega)]
  refine ⟨b.addr + 32, { k with heap := takeBlock k.heap b.addr (align16 size) }, ?_, ?_, ?_⟩
  · simp only [kmalloc, positive, ↓reduceIte, search, ptr]
  · simp only [Aligned16] at even
    omega
  · refine ⟨_, ⟨b.addr, got, false⟩, done.rep, ?_, rfl, rfl, large⟩
    simp [member]

theorem given_weaken {h : Heap} {size more ptr : Nat} (less : size ≤ more)
    (given : Given h more ptr) : Given h size ptr := by
  obtain ⟨even, bs, b, rep, hb, busy, at_, room⟩ := given
  exact ⟨even, bs, b, rep, hb, busy, at_, less.trans room⟩

theorem kmalloc_gives_after_growth (inv : ArenaInv k pages live bs)
    (aligned : ∀ b ∈ bs, Aligned16 b) {size : Nat} (word : size ≤ 2 ^ 32) (positive : size ≠ 0)
    (full : ¬ Fits k.heap size) (growable : Growable k.pmm size) :
    ∃ fuel ptr after, kmalloc fuel k size = (some ptr, after) ∧
      Given after.heap (align16 size) ptr := by
  have bounds := align16_bounds word
  have pagesEnough := pages_needed_enough bounds.2.2
  obtain ⟨first, q, inside, apart, result, used⟩ := pmm_alloc_pages_succeeds (by omega) growable
  have grown := arena_grown inv (by omega) inside apart result used
  have even := aligned_grown aligned first (show 0 < pagesNeeded (align16 size) by omega)
  obtain ⟨b, hb, open_, room⟩ := grown_offers (pageVa first) (pagesNeeded (align16 size)) bs
  have fit : ∃ b ∈ grownBlocks (pageVa first) (pagesNeeded (align16 size)) bs,
      b.free = true ∧ align16 (align16 size) ≤ b.size := by
    rw [align16_twice word]
    exact ⟨b, hb, open_, pagesEnough.2.trans room⟩
  -- enough rounds for either search
  let fuel := bs.length + (grownBlocks (pageVa first) (pagesNeeded (align16 size)) bs).length
  obtain ⟨ptr, after, call, given⟩ := kmalloc_gives grown even (show align16 size ≠ 0 by omega) fit
    (show _ ≤ fuel from Nat.le_add_left _ _)
  rw [align16_twice word] at given
  refine ⟨fuel + 2, ptr, after, ?_, given⟩
  have search := find_fit_represented inv.rep (align16 size) (show bs.length < fuel + 2 by omega)
  rw [List.find?_eq_none.mpr ?_, Option.map_none] at search
  · rw [kmalloc]
    simp only [positive, ↓reduceIte, search]
    exact call
  · intro c hc pass
    simp only [Bool.and_eq_true, decide_eq_true_eq] at pass
    exact full ⟨bs, c, inv.rep, hc, pass.1, pass.2⟩

end Arena

/- Every header and size stays a multiple of 16 over a run. -/

def AlignedHeap (h : Heap) : Prop := ∀ bs, Represents h bs → ∀ b ∈ bs, Aligned16 b

theorem aligned_heap_of {h : Heap} {bs : List Block} (rep : Represents h bs)
    (aligned : ∀ b ∈ bs, Aligned16 b) : AlignedHeap h := by
  intro cs other
  rw [represents_unique other rep]
  exact aligned

theorem heap_step_aligned {s t : HeapRun} {call : HeapCall} (inv : HeapInv s)
    (aligned : AlignedHeap s.arena.heap) (guard : adjacentFrees s call)
    (step : heapStep s call = some t) : AlignedHeap t.arena.heap := by
  obtain ⟨bs, arena⟩ := inv.arena
  have before := aligned bs arena.rep
  cases call with
  | kmalloc size fuel =>
    cases step
    obtain ⟨cs, after, _, kept⟩ := arena_kmalloc fuel size arena
    exact aligned_heap_of after.rep (kept before)
  | kfree ptr fuel =>
    simp only [heapStep] at step
    split at step
    · rename_i valid
      obtain ⟨heap, run, result⟩ := Option.map_eq_some_iff.mp step
      subst result
      rcases valid with zero | own
      · simp only [kfree, zero, ↓reduceIte, Option.some.injEq] at run
        subst run
        exact aligned
      · obtain ⟨cs, after, kept⟩ := arena_kfree arena own guard run
        exact aligned_heap_of after.rep (kept before)
    · cases step
  | otherAllocPage =>
    cases step
    exact aligned
  | otherAllocPages count =>
    cases step
    exact aligned
  | otherFreePage page =>
    simp only [heapStep] at step
    split at step <;> cases step
    exact aligned
  | otherFreePages first count =>
    simp only [heapStep] at step
    split at step <;> cases step
    exact aligned

theorem heap_start_aligned {s : HeapRun} (start : HeapStart s) : AlignedHeap s.arena.heap := by
  obtain ⟨p, others, _, eq⟩ := start
  obtain ⟨bs, grown, kept⟩ := arena_heap_grow (arena_blank p) heapInitialPages
  rw [eq]
  exact aligned_heap_of grown.rep (kept (by simp))

theorem heap_run_invariant {s : HeapRun}
    (run : Reaches HeapStart (Guarded adjacentFrees (Taken heapStep)) s) :
    HeapInv s ∧ AlignedHeap s.arena.heap := by
  refine reaches_invariant (fun s => HeapInv s ∧ AlignedHeap s.arena.heap) ?_ ?_ run
  · intro s start
    exact ⟨heap_start_inv start, heap_start_aligned start⟩
  · intro s call t inv step
    exact ⟨heap_step_inv inv.1 step.1 step.2, heap_step_aligned inv.1 inv.2 step.1 step.2⟩

theorem kmalloc_answers_iff (s : HeapRun)
    (run : Reaches HeapStart (Guarded adjacentFrees (Taken heapStep)) s) (size : Nat)
    (word : size < 2 ^ 32) :
    Answers s.arena size ↔ size = 0 ∨ Fits s.arena.heap size ∨ Growable s.arena.pmm size := by
  obtain ⟨inv, aligned⟩ := heap_run_invariant run
  obtain ⟨bs, arena⟩ := inv.arena
  have even := aligned bs arena.rep
  have bounds := align16_bounds (show size ≤ 2 ^ 32 by omega)
  constructor
  · rintro ⟨fuel, ptr, after, call, _⟩
    by_contra none
    push Not at none
    have stuck := kmalloc_keeps_trying arena.rep fuel (by omega) none.1 none.2.1 none.2.2
    rw [call] at stuck
    cases stuck
  · intro possible
    by_cases zero : size = 0
    · exact ⟨1, 0, s.arena, by simp [kmalloc, zero], Or.inl rfl, fun _ _ => rfl⟩
    · by_cases fits : Fits s.arena.heap size
      · obtain ⟨cs, b, rep, hb, open_, room⟩ := fits
        rw [represents_unique rep arena.rep] at hb
        obtain ⟨ptr, after, call, given⟩ := kmalloc_gives arena even zero ⟨b, hb, open_, room⟩
          (Nat.le_refl _)
        refine ⟨_, ptr, after, call, Or.inr (given_weaken bounds.1 given), ?_⟩
        intro full
        exact absurd ⟨cs, b, rep, by rwa [represents_unique rep arena.rep], open_, room⟩ full
      · have growable : Growable s.arena.pmm size := by tauto
        obtain ⟨fuel, ptr, after, call, given⟩ := kmalloc_gives_after_growth arena even (by omega)
          zero fits growable
        exact ⟨fuel, ptr, after, call, Or.inr (given_weaken bounds.1 given),
          fun _ stuck => absurd growable stuck⟩

theorem boot_heap_represented :
    Represents (heapBoot 0x40001000).arena.heap [⟨0xFFFFFF8040001000, 65504, true⟩] := by
  decide +kernel

theorem kmalloc_answers_after_boot : Answers (heapBoot 0x40001000).arena 100 := by
  apply (kmalloc_answers_iff _ (Reaches.start (heap_boot_starts _)) 100 (by decide)).mpr
  exact Or.inr (Or.inl ⟨_, _, boot_heap_represented, List.mem_singleton.mpr rfl, rfl, by decide⟩)

/-- A file of 2^32 - 1 bytes needs more pages than there are: the first kmalloc after
    kmalloc_init never returns. -/
theorem kmalloc_never_answers : ∃ s size, Reaches HeapStart (Taken heapStep) s ∧ size < 2 ^ 32 ∧
    ¬ Answers s.arena size := by
  refine ⟨heapBoot 0x40001000, 2 ^ 32 - 1, Reaches.start (heap_boot_starts _), by decide, ?_⟩
  rintro ⟨fuel, ptr, after, call, _⟩
  have stuck := kmalloc_keeps_trying boot_heap_represented fuel (show 2 ^ 32 - 1 ≤ 2 ^ 32 by decide)
    (by decide) ?_ ?_
  · rw [call] at stuck
    cases stuck
  · rintro ⟨bs, b, rep, hb, _, room⟩
    rw [represents_unique rep boot_heap_represented, List.mem_singleton] at hb
    rw [hb] at room
    exact absurd room (by decide)
  · rintro ⟨first, inside, _⟩
    have many : pagesNeeded (align16 (2 ^ 32 - 1)) = 1048577 := by decide
    rw [many, total_pages_eq] at inside
    omega

end Archarch.KernelHeap
