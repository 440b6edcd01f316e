import Archarch.Memory.HeapAnswers

/- What a caller of kmalloc may store to: the block behind the pointer is as large as it was asked
   for, it lies in pages of the heap, and the blocks given out before stay where they are. -/
namespace Archarch.KernelHeap
open PageFrames LinkedChain FixedWidth ExtentLayout LabelledRuns

section Blocks
variable {k after : Arena} {pages : Finset Nat} {live : List Nat} {bs : List Block} {fuel size ptr : Nat}

theorem heap_grow_keeps (inv : ArenaInv k pages live bs) (n : Nat) :
    ∃ more cs, ArenaInv (heapGrow k n) more live cs ∧ ∀ c ∈ bs, c.free = false → c ∈ cs := by
  rcases pmm_alloc_pages_cases k.pmm n with result | ⟨first, q, positive, inside, apart, result, used, _, _⟩
  · have same : heapGrow k n = k := by simp [heapGrow, result]
    rw [same]
    exact ⟨pages, bs, inv, fun _ member _ => member⟩
  · exact ⟨_, _, arena_grown inv positive inside apart result used,
      fun _ member busy => grown_keeps_used member busy _⟩

structure GivesBlock (k : Arena) (live : List Nat) (bs : List Block) (size ptr : Nat) (cs : List Block) : Prop where
  inv : ∃ pages, ArenaInv k pages (ptr :: live) cs
  kept : ∀ c ∈ bs, c.free = false → c ∈ cs
  block : ∃ b ∈ cs, b.free = false ∧ ptr = b.addr + 32 ∧ size ≤ b.size

theorem take_block_gives {b : Block} {pre post : List Block} (inv : ArenaInv k pages live (pre ++ [b] ++ post))
    (open_ : b.free = true) (fit : size ≤ b.size) :
    GivesBlock { k with heap := takeBlock k.heap b.addr size } live (pre ++ [b] ++ post) size (b.addr + 32)
      (pre ++ carve size b ++ post) := by
  obtain ⟨got, large, member⟩ := carve_head fit
  refine ⟨⟨pages, arena_take_block inv open_ fit⟩, ?_, ?_⟩
  · intro c hc busy
    simp only [List.mem_append, List.mem_singleton] at hc ⊢
    rcases hc with (front | rfl) | back
    · exact Or.inl (Or.inl front)
    · rw [open_] at busy
      exact Bool.noConfusion busy
    · exact Or.inr back
  · exact ⟨_, List.mem_append_left _ (List.mem_append_right _ member), rfl, rfl, large⟩

theorem kmalloc_gives_block (inv : ArenaInv k pages live bs) (positive : 0 < size) (word : size ≤ 2 ^ 32)
    (result : kmalloc fuel k size = (some ptr, after)) :
    ∃ cs, GivesBlock after live bs size ptr cs := by
  induction fuel generalizing k size pages bs with
  | zero => cases result
  | succ fuel ih =>
    have bounds := align16_bounds word
    rw [kmalloc] at result
    rw [if_neg (Nat.ne_of_gt positive)] at result
    dsimp only at result
    cases search : findFit k.heap.mem (align16 size) (fuel + 1) k.heap.heapStart with
    | none =>
      rw [search] at result
      cases result
    | some found =>
      rw [search] at result
      cases found with
      | none =>
        obtain ⟨more, cs, grown, kept⟩ := heap_grow_keeps inv (pagesNeeded (align16 size))
        obtain ⟨ds, gives⟩ := ih grown (Nat.lt_of_lt_of_le positive bounds.1) bounds.2.2 result
        refine ⟨ds, gives.inv, fun c hc busy => gives.kept c (kept c hc busy) busy, ?_⟩
        obtain ⟨b, hb, busy, here, large⟩ := gives.block
        exact ⟨b, hb, busy, here, bounds.1.trans large⟩
      | some curr =>
        obtain ⟨pre, b, post, rfl, rfl, open_, room⟩ := find_fit_block inv.rep search
        have small := arena_small inv b (by simp)
        simp only [Small, kernVaOffset, ram_end_eq] at small
        have place : add64 b.addr headerSize = b.addr + 32 := by
          rw [header_size_eq, add64_eq (by omega)]
        cases result
        rw [place]
        have gives := take_block_gives inv open_ room
        refine ⟨_, gives.inv, gives.kept, ?_⟩
        obtain ⟨c, hc, busy, here, large⟩ := gives.block
        exact ⟨c, hc, busy, here, bounds.1.trans large⟩

theorem kmalloc_returns (inv : ArenaInv k pages live bs) (aligned : ∀ b ∈ bs, Aligned16 b) (positive : 0 < size)
    (word : size ≤ 2 ^ 32) (memory : Fits k.heap size ∨ Growable k.pmm size) :
    ∃ rounds ptr after, kmalloc rounds k size = (some ptr, after) := by
  have nonzero := Nat.ne_of_gt positive
  by_cases fits : Fits k.heap size
  · obtain ⟨cs, b, rep, hb, open_, room⟩ := fits
    rw [represents_unique rep inv.rep] at hb
    obtain ⟨ptr, after, call, _⟩ := kmalloc_gives inv aligned nonzero ⟨b, hb, open_, room⟩ (Nat.le_refl _)
    exact ⟨_, ptr, after, call⟩
  · obtain ⟨rounds, ptr, after, call, _⟩ :=
      kmalloc_gives_after_growth inv aligned word nonzero fits (memory.resolve_left fits)
    exact ⟨rounds, ptr, after, call⟩

theorem usable_eq {b : Block} (inv : ArenaInv k pages live bs) (hb : b ∈ bs) :
    usable k.heap (b.addr + 32) = ⟨b.addr + 32, b.size⟩ := by
  have low := arena_small inv b hb
  simp only [Small, kernVaOffset, ram_end_eq] at low
  have header : sub64 (b.addr + 32) headerSize = b.addr := by
    rw [header_size_eq, sub64_eq (by omega) (by omega)]
    omega
  rw [usable, header, (inv.rep.cells b hb).2.1]

end Blocks

theorem usable_owned {s : HeapRun} {p x : Nat} (inv : HeapInv s) (own : p ∈ s.live)
    (inside : (usable s.arena.heap p).Has x) : Owned s.heapPages x := by
  obtain ⟨bs, arena⟩ := inv.arena
  obtain ⟨b, hb, rfl, _⟩ := arena.owned p own
  rw [usable_eq arena hb] at inside
  refine arena.layout.inside b.range (List.mem_map_of_mem hb) x ?_
  simp only [Range.Has, Block.range] at inside ⊢
  omega

structure Buffered (s t : HeapRun) (size ptr : Nat) : Prop where
  inv : HeapInv t
  nonnull : ptr ≠ 0
  others : t.others = s.others
  live : t.live = ptr :: s.live
  room : size ≤ (usable t.arena.heap ptr).len
  kept : ∀ p ∈ s.live, usable t.arena.heap p = usable s.arena.heap p

theorem kmalloc_buffer {s : HeapRun} {fuel size ptr : Nat} {after : Arena} (inv : HeapInv s) (positive : 0 < size)
    (word : size ≤ 2 ^ 32) (result : kmalloc fuel s.arena size = (some ptr, after)) :
    ∃ t, t.arena = after ∧ Buffered s t size ptr := by
  obtain ⟨bs, arena⟩ := inv.arena
  obtain ⟨cs, ⟨pages, given⟩, kept, b, hb, _, here, large⟩ := kmalloc_gives_block arena positive word result
  subst here
  refine ⟨⟨after, s.heapPages ∪ taken s.arena.pmm after.pmm, s.others, (b.addr + 32) :: s.live⟩, rfl, ?_,
    Nat.succ_ne_zero _, rfl, rfl, ?_, ?_⟩
  · refine heap_step_inv inv (show adjacentFrees s (.kmalloc size fuel) from trivial) ?_
    rw [heapStep, result]
  · dsimp only
    rw [usable_eq given hb]
    exact large
  · intro p own
    obtain ⟨c, hc, rfl, busy⟩ := arena.owned p own
    dsimp only
    rw [usable_eq arena hc, usable_eq given (kept c hc busy)]

end Archarch.KernelHeap
