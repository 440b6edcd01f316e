import Archarch.Memory.HeapRuns

/- The heap while it only ever grows at its end: its blocks tile one stretch of
   memory, so the neighbours kfree merges are the neighbours in memory. -/
namespace Archarch.KernelHeap
open PageFrames LinkedChain FixedWidth ExtentLayout LabelledRuns

def GrowsAtEnd (k : Arena) (pages : Nat) : Prop :=
  (pmmAllocPages k.pmm pages).1 ≠ 0 ∧ k.heap.heapEnd ≠ 0 ∧
    add64 (add64 k.heap.heapEnd headerSize) (k.heap.mem k.heap.heapEnd).size =
      physToVirt (pmmAllocPages k.pmm pages).1

def KmallocGrowsAtEnd : Nat → Arena → Nat → Prop
  | 0, _, _ => True
  | fuel + 1, k, size =>
    size = 0 ∨
      (findFit k.heap.mem (align16 size) (fuel + 1) k.heap.heapStart = some none →
        GrowsAtEnd k (pagesNeeded (align16 size)) ∧
          KmallocGrowsAtEnd fuel (heapGrow k (pagesNeeded (align16 size))) (align16 size))

instance (k : Arena) (pages : Nat) : Decidable (GrowsAtEnd k pages) :=
  inferInstanceAs (Decidable ((pmmAllocPages k.pmm pages).1 ≠ 0 ∧ k.heap.heapEnd ≠ 0 ∧
    add64 (add64 k.heap.heapEnd headerSize) (k.heap.mem k.heap.heapEnd).size =
      physToVirt (pmmAllocPages k.pmm pages).1))

instance decideGrows : ∀ fuel k size, Decidable (KmallocGrowsAtEnd fuel k size)
  | 0, _, _ => isTrue trivial
  | fuel + 1, k, size =>
    have := decideGrows fuel (heapGrow k (pagesNeeded (align16 size))) (align16 size)
    inferInstanceAs (Decidable (size = 0 ∨
      (findFit k.heap.mem (align16 size) (fuel + 1) k.heap.heapStart = some none →
        GrowsAtEnd k (pagesNeeded (align16 size)) ∧
          KmallocGrowsAtEnd fuel (heapGrow k (pagesNeeded (align16 size))) (align16 size))))

def growsAtEnd (s : HeapRun) : HeapCall → Prop
  | .kmalloc size fuel => KmallocGrowsAtEnd fuel s.arena size
  | _ => True

instance (s : HeapRun) (call : HeapCall) : Decidable (growsAtEnd s call) :=
  match call with
  | .kmalloc size fuel => decideGrows fuel s.arena size
  | .kfree _ _ | .otherAllocPage | .otherAllocPages _ | .otherFreePage _ | .otherFreePages _ _ =>
    isTrue trivial

def Parted (p n : Block) : Prop := ¬ (p.free = true ∧ n.free = true)

def totalBytes : List Block → Nat
  | [] => 0
  | b :: bs => headerSize + b.size + totalBytes bs

def usedBytes : List Block → Nat
  | [] => 0
  | b :: bs => (if b.free then 0 else b.size) + usedBytes bs

@[simp] theorem used_bytes_nil : usedBytes [] = 0 := rfl

theorem used_bytes_cons (b : Block) (bs : List Block) :
    usedBytes (b :: bs) = (if b.free then 0 else b.size) + usedBytes bs := rfl

theorem used_bytes_append (bs cs : List Block) :
    usedBytes (bs ++ cs) = usedBytes bs + usedBytes cs := by
  induction bs with
  | nil => simp
  | cons b bs ih =>
    rw [List.cons_append, used_bytes_cons, used_bytes_cons, ih, Nat.add_assoc]

theorem covered_ranges (bs : List Block) : covered (bs.map Block.range) = totalBytes bs := by
  induction bs with
  | nil => rfl
  | cons b bs ih =>
    rw [List.map_cons, covered, totalBytes, ih]
    rfl

/-- What the list, the counters and the live pointers have to do with each other. -/
structure Tidy (h : Heap) (live : List Nat) (bs : List Block) : Prop where
  tiles : Tiles h.heapStart (bs.map Block.range) (h.heapStart + h.heapSize)
  parted : bs.IsChain Parted
  counted : h.totalAllocated = add64 h.totalFreed (usedBytes bs)
  word : h.totalFreed < 2 ^ 64
  given : ∀ b ∈ bs, b.free = false → b.addr + 32 ∈ live

/- The three edits of the block list. -/

section Edits
variable {a z : Nat} {pre post bs : List Block} {b : Block}

theorem tiles_carve (size : Nat) (tiles : Tiles a ((pre ++ [b] ++ post).map Block.range) z) :
    Tiles a ((pre ++ carve size b ++ post).map Block.range) z := by
  simp only [List.map_append] at tiles ⊢
  apply tiles_replace _ tiles
  intro x y piece
  unfold carve
  split
  · simp [Block.range] at piece ⊢
    omega
  · simpa [Block.range] using piece

theorem parted_carve (size : Nat) (open_ : b.free = true)
    (parted : (pre ++ [b] ++ post).IsChain Parted) :
    (pre ++ carve size b ++ post).IsChain Parted := by
  obtain ⟨front, last, after⟩ := List.isChain_append.mp parted
  obtain ⟨first, _, _⟩ := List.isChain_append.mp front
  have closed : ∀ n ∈ post.head?, n.free = false := by
    intro n hn
    have apart := after b (by simp) n hn
    simpa [Parted, open_] using apart
  have inner : (carve size b).IsChain Parted := by
    unfold carve
    split <;> simp [Parted]
  apply List.isChain_append.mpr
  refine ⟨List.isChain_append.mpr ⟨first, inner, ?_⟩, last, ?_⟩
  · intro p _ n hn
    have used : n.free = false := by
      unfold carve at hn
      split at hn <;> simp at hn <;> simp [← hn]
    simp [Parted, used]
  · intro p _ n hn
    simp [Parted, closed n hn]

theorem used_bytes_carve (size : Nat) (b : Block) :
    usedBytes (carve size b) = if size + 48 ≤ b.size then size else b.size := by
  unfold carve
  split <;> simp [used_bytes_cons]

theorem grown_at_end (init : List Block) (l : Block) (n : Nat) :
    grownBlocks (l.addr + 32 + l.size) n (init ++ [l]) =
      if l.free then init ++ [⟨l.addr, l.size + n * 4096, true⟩]
      else init ++ [l] ++ [⟨l.addr + 32 + l.size, n * 4096 - 32, true⟩] := by
  simp only [grownBlocks, List.getLast?_append, List.getLast?_singleton, Option.some_or, true_and,
    List.dropLast_concat]

theorem tiles_last {init : List Block} {l : Block}
    (tiles : Tiles a ((init ++ [l]).map Block.range) z) : l.addr + 32 + l.size = z := by
  rw [List.map_append] at tiles
  obtain ⟨m, _, here, last⟩ := tiles_append.mp tiles
  simp only [Block.range, List.map_nil, tiles_nil] at here last
  omega

theorem tiles_grown {n : Nat} {init : List Block} {l : Block} (positive : 0 < n)
    (tiles : Tiles a ((init ++ [l]).map Block.range) z) :
    Tiles a ((grownBlocks (l.addr + 32 + l.size) n (init ++ [l])).map Block.range)
      (z + n * 4096) := by
  have stop := tiles_last tiles
  rw [grown_at_end]
  split
  · rw [List.map_append] at tiles ⊢
    obtain ⟨m, first, here⟩ := tiles_append.mp tiles
    refine tiles_append.mpr ⟨m, first, ?_⟩
    simp [Block.range] at here ⊢
    omega
  · rw [List.map_append]
    refine tiles_append.mpr ⟨z, tiles, ?_⟩
    simp [Block.range]
    omega

theorem parted_grown {init : List Block} {l : Block} (n : Nat)
    (parted : (init ++ [l]).IsChain Parted) :
    (grownBlocks (l.addr + 32 + l.size) n (init ++ [l])).IsChain Parted := by
  rw [grown_at_end]
  split
  · rename_i open_
    obtain ⟨first, _, cross⟩ := List.isChain_append.mp parted
    apply List.isChain_append.mpr
    refine ⟨first, List.IsChain.singleton _, ?_⟩
    intro p hp m hm
    have apart := cross p hp l (by simp)
    simp only [List.head?_cons, Option.mem_def, Option.some.injEq] at hm
    simpa [← hm, Parted, open_] using apart
  · rename_i closed
    apply List.isChain_append.mpr
    refine ⟨parted, List.IsChain.singleton _, ?_⟩
    intro p hp m _
    simp only [List.getLast?_append, List.getLast?_singleton, Option.some_or, Option.mem_def,
      Option.some.injEq] at hp
    simp [Parted, ← hp, closed]

theorem used_bytes_grown (init : List Block) (l : Block) (n : Nat) :
    usedBytes (grownBlocks (l.addr + 32 + l.size) n (init ++ [l])) = usedBytes (init ++ [l]) := by
  rw [grown_at_end]
  split
  · rename_i open_
    simp [used_bytes_append, used_bytes_cons, open_]
  · simp [used_bytes_append, used_bytes_cons]

/- A freed block and its free neighbours become one. -/

theorem tiles_join_next (tiles : Tiles a ((b :: post).map Block.range) z) :
    Tiles a ((joinNext b post).map Block.range) z := by
  cases post with
  | nil => exact tiles
  | cons n rest =>
    simp only [joinNext]
    split
    · simp only [List.map_cons, tiles_cons, Block.range, merge] at tiles ⊢
      obtain ⟨here, next, after⟩ := tiles
      refine ⟨here, ?_⟩
      have stop : a + (32 + (b.size + 32 + n.size)) = a + (32 + b.size) + (32 + n.size) := by omega
      rw [stop]
      exact after
    · exact tiles

theorem tiles_join_prev (tiles : Tiles a ((pre ++ b :: post).map Block.range) z) :
    Tiles a ((joinPrev pre b post).map Block.range) z := by
  rcases List.eq_nil_or_concat' pre with rfl | ⟨init, p, rfl⟩
  · exact tiles
  · simp only [join_prev_concat]
    split
    · rename_i open_
      simp only [List.append_assoc, List.singleton_append, List.map_append] at tiles ⊢
      obtain ⟨m, first, rest⟩ := tiles_append.mp tiles
      apply tiles_append.mpr
      refine ⟨m, first, ?_⟩
      have joined := @tiles_join_next m z (⟨b.addr, b.size, true⟩ :: post) p
        (by simpa [Block.range] using rest)
      simpa [joinNext, merge, Block.range] using joined
    · exact tiles

theorem join_next_cons (b : Block) (post : List Block) :
    ∃ joined rest, joinNext b post = joined :: rest ∧ joined.addr = b.addr ∧ joined.free = b.free := by
  cases post with
  | nil => exact ⟨b, [], rfl, rfl, rfl⟩
  | cons n rest =>
    simp only [joinNext]
    split
    · exact ⟨_, _, rfl, rfl, rfl⟩
    · exact ⟨_, _, rfl, rfl, rfl⟩

theorem tiles_release (tiles : Tiles a ((pre ++ [b] ++ post).map Block.range) z) :
    Tiles a ((release pre b post).map Block.range) z := by
  obtain ⟨joined, rest, split, _, _⟩ := join_next_cons ⟨b.addr, b.size, true⟩ post
  rw [release, split]
  apply tiles_join_prev
  rw [← split]
  simp only [List.append_assoc, List.singleton_append, List.map_append] at tiles ⊢
  obtain ⟨m, first, here⟩ := tiles_append.mp tiles
  apply tiles_append.mpr
  refine ⟨m, first, tiles_join_next ?_⟩
  simpa [Block.range] using here

theorem parted_join_next {joined : Block} {rest : List Block}
    (parted : post.IsChain Parted) (split : joinNext b post = joined :: rest) :
    rest.IsChain Parted ∧ ∀ n ∈ rest.head?, n.free = false := by
  cases post with
  | nil =>
    cases split
    simp
  | cons n tail =>
    simp only [joinNext] at split
    split at split
    · rename_i open_
      cases split
      refine ⟨parted.tail, ?_⟩
      intro c hc
      cases rest with
      | nil => simp at hc
      | cons d rest =>
        have apart := (List.isChain_cons_cons.mp parted).1
        simp only [List.head?_cons, Option.mem_def, Option.some.injEq] at hc
        simpa [Parted, open_, ← hc] using apart
    · rename_i closed
      cases split
      refine ⟨parted, ?_⟩
      intro c hc
      simp only [List.head?_cons, Option.mem_def, Option.some.injEq] at hc
      simpa [← hc] using closed

theorem parted_join_prev {rest : List Block} (before : pre.IsChain Parted)
    (after : rest.IsChain Parted) (closed : ∀ n ∈ rest.head?, n.free = false) :
    (joinPrev pre b rest).IsChain Parted := by
  have follows : ∀ c : Block, (c :: rest).IsChain Parted := by
    intro c
    apply List.isChain_cons.mpr
    refine ⟨?_, after⟩
    intro n hn
    simp [Parted, closed n hn]
  rcases List.eq_nil_or_concat' pre with rfl | ⟨init, p, rfl⟩
  · exact follows b
  · simp only [join_prev_concat]
    obtain ⟨first, _, cross⟩ := List.isChain_append.mp before
    split
    · rename_i free
      apply List.isChain_append.mpr
      refine ⟨first, follows _, ?_⟩
      intro q hq n hn
      have apart := cross q hq p (by simp)
      simp only [List.head?_cons, Option.mem_def, Option.some.injEq] at hn
      simpa [← hn, merge, Parted, free] using apart
    · rename_i used
      apply List.isChain_append.mpr
      refine ⟨before, follows b, ?_⟩
      intro q hq n _
      simp only [List.getLast?_append, List.getLast?_singleton, Option.some_or, Option.mem_def,
        Option.some.injEq] at hq
      simp [Parted, ← hq, used]

theorem parted_release (parted : (pre ++ [b] ++ post).IsChain Parted) :
    (release pre b post).IsChain Parted := by
  obtain ⟨front, last, _⟩ := List.isChain_append.mp parted
  obtain ⟨first, _, _⟩ := List.isChain_append.mp front
  obtain ⟨joined, rest, split, _, _⟩ := join_next_cons ⟨b.addr, b.size, true⟩ post
  obtain ⟨after, closed⟩ := parted_join_next last split
  rw [release, split]
  exact parted_join_prev first after closed

theorem used_of_release {c : Block} (hc : c ∈ release pre b post) (used : c.free = false) :
    c ∈ pre ++ post := by
  obtain ⟨joined, rest, split, _, open_⟩ := join_next_cons ⟨b.addr, b.size, true⟩ post
  have later : c ∈ rest → c ∈ post := by
    intro member
    cases post with
    | nil =>
      cases split
      simp at member
    | cons n tail =>
      simp only [joinNext] at split
      split at split <;> cases split <;> simp [member]
  rw [release, split] at hc
  have elsewhere : c ≠ joined := by
    rintro rfl
    simp [open_] at used
  rcases List.eq_nil_or_concat' pre with rfl | ⟨init, p, rfl⟩
  · simp only [join_prev_nil, List.mem_cons, elsewhere, false_or] at hc
    simpa using later hc
  · simp only [join_prev_concat] at hc
    split at hc
    · rename_i free
      simp only [List.mem_append, List.mem_cons] at hc ⊢
      rcases hc with front | rfl | back
      · exact Or.inl (Or.inl front)
      · simp [merge, free] at used
      · exact Or.inr (later back)
    · simp only [List.mem_append, List.mem_cons, elsewhere, false_or] at hc ⊢
      rcases hc with front | back
      · exact Or.inl front
      · exact Or.inr (later back)

theorem used_bytes_release (pre : List Block) (b : Block) (post : List Block) :
    usedBytes (release pre b post) = usedBytes pre + usedBytes post := by
  obtain ⟨joined, rest, split, _, open_⟩ := join_next_cons ⟨b.addr, b.size, true⟩ post
  have same : usedBytes rest = usedBytes post := by
    cases post with
    | nil =>
      cases split
      rfl
    | cons n tail =>
      simp only [joinNext] at split
      split at split
      · rename_i free
        cases split
        simp [used_bytes_cons, free]
      · cases split
        rfl
  rw [release, split]
  rcases List.eq_nil_or_concat' pre with rfl | ⟨init, p, rfl⟩
  · simp [join_prev_nil, used_bytes_cons, open_, same]
  · simp only [join_prev_concat]
    split
    · rename_i free
      simp [used_bytes_append, used_bytes_cons, merge, free, same]
    · simp [used_bytes_append, used_bytes_cons, open_, same, Nat.add_assoc]

end Edits

/- The counters each operation moves. -/

theorem add64_add (a b c : Nat) : add64 (add64 a b) c = add64 a (b + c) := by
  simp only [add64]
  omega

theorem take_block_start (h : Heap) (curr size : Nat) :
    (takeBlock h curr size).heapStart = h.heapStart ∧
      (takeBlock h curr size).heapSize = h.heapSize ∧
      (takeBlock h curr size).totalFreed = h.totalFreed := by
  by_cases room : add64 (add64 size headerSize) 16 ≤ (h.mem curr).size <;> simp [takeBlock, room]

theorem take_block_allocated {h : Heap} {b : Block} {size : Nat} (cell : b.Holds h.mem)
    (fit : size ≤ b.size) (small : b.size + 64 < 2 ^ 64) :
    (takeBlock h b.addr size).totalAllocated =
      add64 h.totalAllocated (usedBytes (carve size b)) := by
  have total : add64 (add64 size headerSize) 16 = size + 48 := by
    rw [header_size_eq, add64_eq (a := size) (by omega), add64_eq (by omega)]
  rw [used_bytes_carve]
  simp only [takeBlock, total, cell.2.1]
  split <;> simp [HeaderMem.setNext, HeaderMem.setSize, cell.2.1]

theorem heap_grow_counters (k : Arena) (n : Nat) :
    (heapGrow k n).heap.totalAllocated = k.heap.totalAllocated ∧
      (heapGrow k n).heap.totalFreed = k.heap.totalFreed := by
  simp only [heapGrow, appendBlock]
  repeat' split
  all_goals exact ⟨rfl, rfl⟩

theorem heap_grow_size {k : Arena} {n : Nat} (got : (pmmAllocPages k.pmm n).1 ≠ 0)
    (nonempty : k.heap.heapEnd ≠ 0) :
    (heapGrow k n).heap.heapStart = k.heap.heapStart ∧
      (heapGrow k n).heap.heapSize = add64 k.heap.heapSize (low32 (n * pageSize)) := by
  simp only [heapGrow, appendBlock, got, nonempty, ↓reduceIte]
  split <;> exact ⟨rfl, trivial⟩

structure SameCounters (g h : Heap) : Prop where
  start : g.heapStart = h.heapStart
  size : g.heapSize = h.heapSize
  allocated : g.totalAllocated = h.totalAllocated
  freed : g.totalFreed = h.totalFreed

theorem coalesce_next_counters (h : Heap) (block : Nat) : SameCounters (coalesceNext h block) h := by
  simp only [coalesceNext]
  split
  · constructor <;> rfl
  · constructor <;> rfl

theorem coalesce_prev_counters (h : Heap) (prev block : Nat) :
    SameCounters (coalescePrev h prev block) h := by
  simp only [coalescePrev]
  split
  · constructor <;> rfl
  · constructor <;> rfl

theorem kfree_counters {fuel ptr : Nat} {h g : Heap} (nonnull : ptr ≠ 0)
    (run : kfree fuel h ptr = some g) : SameCounters g (markFree h (sub64 ptr headerSize)) := by
  simp only [kfree, nonnull, ↓reduceIte, Option.map_eq_some_iff] at run
  obtain ⟨prev, _, result⟩ := run
  have next := coalesce_next_counters (markFree h (sub64 ptr headerSize)) (sub64 ptr headerSize)
  have last := coalesce_prev_counters (coalesceNext (markFree h (sub64 ptr headerSize))
    (sub64 ptr headerSize)) prev (sub64 ptr headerSize)
  rw [← result]
  exact ⟨last.start.trans next.start, last.size.trans next.size,
    last.allocated.trans next.allocated, last.freed.trans next.freed⟩

/- The operations keep the heap tidy. -/

section Operations
variable {k : Arena} {pages : Finset Nat} {live : List Nat} {bs : List Block}

theorem tiles_adjoin {a z : Nat} (tiles : Tiles a (bs.map Block.range) z) : bs.IsChain Adjoins := by
  have chain := (List.isChain_map _).mp (tiles_neighbours tiles)
  apply chain.imp
  intro p n next
  simp only [Block.range] at next
  rw [Adjoins]
  omega

/-- In a tidy heap list neighbours are memory neighbours. -/
theorem tidy_merges_adjacent {h : Heap} (rep : Represents h bs) (tidy : Tidy h live bs)
    (ptr : Nat) : MergesAdjacent h ptr := by
  intro pre b post other _
  have chain := tiles_adjoin tidy.tiles
  rw [represents_unique rep other] at chain
  obtain ⟨front, _, after⟩ := List.isChain_append.mp chain
  obtain ⟨_, _, before⟩ := List.isChain_append.mp front
  constructor
  · intro n hn _
    exact after b (by simp) n hn
  · intro p hp _
    exact before p hp b (by simp)

theorem tidy_take_block {b : Block} {pre post : List Block} {size : Nat}
    (inv : ArenaInv k pages live (pre ++ [b] ++ post))
    (tidy : Tidy k.heap live (pre ++ [b] ++ post)) (open_ : b.free = true) (fit : size ≤ b.size) :
    Tidy (takeBlock k.heap b.addr size) ((b.addr + 32) :: live) (pre ++ carve size b ++ post) := by
  have low := arena_small inv b (by simp)
  simp only [Small, kernVaOffset, ram_end_eq] at low
  obtain ⟨start, size_, freed⟩ := take_block_start k.heap b.addr size
  have allocated := take_block_allocated (inv.rep.cells b (by simp)) fit (by omega)
  constructor
  · rw [start, size_]
    exact tiles_carve size tidy.tiles
  · exact parted_carve size open_ tidy.parted
  · rw [allocated, freed, tidy.counted, add64_add]
    simp only [used_bytes_append, used_bytes_cons, open_, ↓reduceIte, used_bytes_nil]
    apply congrArg
    omega
  · rw [freed]
    exact tidy.word
  · intro c hc used
    simp only [List.mem_append] at hc
    rcases hc with (hc | hc) | hc
    · exact List.mem_cons_of_mem _ (tidy.given c (by simp [hc]) used)
    · have here : c.addr = b.addr := by
        unfold carve at hc
        split at hc
        · simp only [List.mem_cons, List.not_mem_nil, or_false] at hc
          rcases hc with rfl | rfl
          · rfl
          · exact Bool.noConfusion used
        · rw [List.mem_singleton.mp hc]
      rw [here]
      exact List.mem_cons_self
    · exact List.mem_cons_of_mem _ (tidy.given c (by simp [hc]) used)

theorem tidy_heap_grow {n : Nat} (inv : ArenaInv k pages live bs) (tidy : Tidy k.heap live bs)
    (grows : GrowsAtEnd k n) :
    ∃ cs, ArenaInv (heapGrow k n) (pages ∪ taken k.pmm (heapGrow k n).pmm) live cs ∧
      Tidy (heapGrow k n).heap live cs ∧ (heapGrow k n).heap.heapStart = k.heap.heapStart := by
  obtain ⟨got, nonempty, contiguous⟩ := grows
  rcases pmm_alloc_pages_cases k.pmm n with result |
    ⟨first, q, positive, inside, apart, result, used, _, _⟩
  · rw [result] at got
    exact absurd rfl got
  · have grown := arena_grown inv positive inside apart result used
    obtain ⟨start, size⟩ := heap_grow_size got nonempty
    obtain ⟨allocated, freed⟩ := heap_grow_counters k n
    rcases List.eq_nil_or_concat' bs with rfl | ⟨init, l, rfl⟩
    · exact absurd (by simpa [addrs] using inv.rep.last) nonempty
    · have low := arena_small inv l (by simp)
      have cell := inv.rep.cells l (by simp)
      have last := tiles_last tidy.tiles
      simp only [Small, kernVaOffset, ram_end_eq] at low
      rw [total_pages_eq] at inside
      have final : k.heap.heapEnd = l.addr := by rw [inv.rep.last, addrs_last_concat]
      have stop : l.addr + 32 + l.size = pageVa first := by
        rw [final, cell.2.1, result, header_size_eq, add64_eq (a := l.addr) (by omega),
          add64_eq (by omega)] at contiguous
        rw [contiguous]
        apply phys_to_virt_page
        rw [total_pages_eq]
        omega
      have bytes : low32 (n * pageSize) = n * 4096 := by
        rw [page_size_eq]
        exact low32_eq (by omega)
      have sum : (heapGrow k n).heap.heapSize = k.heap.heapSize + n * 4096 := by
        rw [size, bytes]
        exact add64_eq (by omega)
      rw [← stop] at grown
      refine ⟨_, grown, ?_, start⟩
      constructor
      · rw [start, sum, ← Nat.add_assoc]
        exact tiles_grown positive tidy.tiles
      · exact parted_grown n tidy.parted
      · rw [allocated, freed, used_bytes_grown]
        exact tidy.counted
      · rw [freed]
        exact tidy.word
      · intro b hb busy
        rw [grown_at_end] at hb
        split at hb
        · simp only [List.mem_append, List.mem_singleton] at hb
          rcases hb with hb | rfl
          · exact tidy.given b (by simp [hb]) busy
          · exact Bool.noConfusion busy
        · rcases List.mem_append.mp hb with hb | hb
          · exact tidy.given b hb busy
          · rw [List.mem_singleton.mp hb] at busy
            exact Bool.noConfusion busy

theorem tidy_kmalloc (fuel size : Nat) {k : Arena} {pages : Finset Nat} {bs : List Block}
    (inv : ArenaInv k pages live bs) (tidy : Tidy k.heap live bs)
    (grows : KmallocGrowsAtEnd fuel k size) :
    ∃ cs, Represents (kmalloc fuel k size).2.heap cs ∧
      Tidy (kmalloc fuel k size).2.heap
        (match (kmalloc fuel k size).1 with
          | some (ptr + 1) => (ptr + 1) :: live
          | _ => live) cs ∧
      (kmalloc fuel k size).2.heap.heapStart = k.heap.heapStart := by
  induction fuel generalizing k size pages bs with
  | zero => exact ⟨bs, inv.rep, tidy, rfl⟩
  | succ fuel ih =>
    simp only [kmalloc]
    by_cases zero : size = 0
    · simp only [zero, ↓reduceIte]
      exact ⟨bs, inv.rep, tidy, trivial⟩
    · simp only [zero, ↓reduceIte]
      cases search : findFit k.heap.mem (align16 size) (fuel + 1) k.heap.heapStart with
      | none => exact ⟨bs, inv.rep, tidy, rfl⟩
      | some found =>
        cases found with
        | none =>
          obtain ⟨contiguous, later⟩ := (grows.resolve_left zero) search
          obtain ⟨cs, grown, neat, start⟩ := tidy_heap_grow inv tidy contiguous
          obtain ⟨ds, rep, final, same⟩ := ih _ grown neat later
          exact ⟨ds, rep, final, same.trans start⟩
        | some curr =>
          obtain ⟨pre, b, post, shape, rfl, fits⟩ := find_fit_block inv.rep search
          have small := arena_small inv b (by simp [shape])
          rw [shape] at inv tidy
          simp only [Small, kernVaOffset, ram_end_eq] at small
          have ptr : add64 b.addr headerSize = b.addr + 31 + 1 := by
            rw [header_size_eq, add64_eq (by omega)]
          simp only [ptr]
          exact ⟨_, (arena_take_block inv fits.1 fits.2).rep, tidy_take_block inv tidy fits.1 fits.2,
            (take_block_start _ _ _).1⟩

theorem tidy_kfree {fuel ptr : Nat} {heap : Heap} (inv : ArenaInv k pages live bs)
    (tidy : Tidy k.heap live bs) (own : ptr ∈ live) (run : kfree fuel k.heap ptr = some heap) :
    ∃ cs, Represents heap cs ∧ Tidy heap (live.erase ptr) cs ∧
      heap.heapStart = k.heap.heapStart := by
  have small := arena_small inv
  obtain ⟨b, hb, at_, busy⟩ := inv.owned ptr own
  obtain ⟨pre, post, split⟩ := List.append_of_mem hb
  have shape : bs = pre ++ [b] ++ post := by simp [split]
  subst shape
  have low := small b hb
  simp only [Small, kernVaOffset, ram_end_eq] at low
  have nonnull : ptr ≠ 0 := by omega
  obtain ⟨start, size, allocated, freed⟩ := kfree_counters nonnull run
  have block : sub64 ptr headerSize = b.addr := by
    rw [at_, header_size_eq, sub64_eq (by omega) (by omega)]
    omega
  have counted : heap.totalFreed = add64 k.heap.totalFreed b.size := by
    rw [freed, block, markFree, (inv.rep.cells b hb).2.1]
  refine ⟨release pre b post, represents_kfree inv.rep small at_ run, ?_, start⟩
  constructor
  · rw [start, size]
    exact tiles_release tidy.tiles
  · exact parted_release tidy.parted
  · have kept : heap.totalAllocated = k.heap.totalAllocated := allocated
    rw [kept, counted, tidy.counted, add64_add, used_bytes_release]
    simp only [used_bytes_append, used_bytes_cons, busy, Bool.false_eq_true, ↓reduceIte,
      used_bytes_nil]
    apply congrArg
    omega
  · rw [counted]
    exact add64_lt _ _
  · intro c hc used
    have before := used_of_release hc used
    have other := address_ne_of_mem inv.rep before
    have mine : c.addr + 32 ∈ live := by
      apply tidy.given c _ used
      rcases List.mem_append.mp before with front | back
      · simp [front]
      · simp [back]
    apply (inv.once.mem_erase_iff).mpr
    exact ⟨by omega, mine⟩

end Operations

/-- The walk to the predecessor ends at the block that is freed. -/
theorem kfree_returns {k : Arena} {pages : Finset Nat} {live : List Nat} {bs : List Block} {ptr : Nat}
    (inv : ArenaInv k pages live bs) (own : ptr ∈ live) :
    (kfree (bs.length + 1) k.heap ptr).isSome := by
  obtain ⟨b, hb, at_, _⟩ := inv.owned ptr own
  obtain ⟨pre, post, split⟩ := List.append_of_mem hb
  have shape : bs = pre ++ [b] ++ post := by simp [split]
  subst shape
  have small : ∀ c ∈ pre ++ [b] ++ post, c.size < 2 ^ 31 ∧ c.addr + 32 < 2 ^ 64 := by
    intro c hc
    have low := arena_small inv c hc
    simp only [Small, kernVaOffset, ram_end_eq] at low
    omega
  have low := small b (by simp)
  have nonnull : ptr ≠ 0 := by omega
  have block : sub64 ptr headerSize = b.addr := by
    rw [at_, header_size_eq, sub64_eq (by omega) (by omega)]
    omega
  have freed : Represents (markFree k.heap b.addr) (pre ++ [⟨b.addr, b.size, true⟩] ++ post) := by
    have marked := represents_set_free true inv.rep
    exact ⟨marked.chain, marked.cells, marked.last⟩
  obtain ⟨joined, rest, _, address, joinedRep⟩ := represents_coalesce_next freed (by
    intro n hn
    have := small n (by simp [hn])
    simp only
    omega)
  have walk := (represents_split_chain joinedRep).1
  rw [address] at walk
  have ends := @find_prev_ends _ _ _ 0 _ _ walk
    (show (addrs pre).length < (pre ++ [b] ++ post).length + 1 by
      simp only [addrs, List.length_map, List.length_append]
      omega)
  simp only [kfree, nonnull, ↓reduceIte, block, Option.isSome_map]
  exact Option.isSome_iff_ne_none.mpr ends

/- Whole runs. -/

/-- kmalloc_init on the page allocator p, others being pages the rest of the kernel holds. -/
def afterInit (p : Pmm) (others : Finset Nat) : HeapRun :=
  ⟨kmallocInit p, taken p (kmallocInit p).pmm, others, []⟩

structure Defragmented (h : Heap) (bs : List Block) : Prop where
  list : Represents h bs
  gapless : bs.IsChain Adjoins
  parted : bs.IsChain Parted
  size : h.heapSize = totalBytes bs
  used : sub64 h.totalAllocated h.totalFreed = usedBytes bs

structure TidyRun (first : Nat) (s : HeapRun) : Prop where
  inv : HeapInv s
  tidy : ∃ bs, Represents s.arena.heap bs ∧ Tidy s.arena.heap s.live bs
  start : s.arena.heap.heapStart = first

theorem init_heap {p : Pmm} (got : (pmmAllocPages p heapInitialPages).1 ≠ 0) :
    (kmallocInit p).heap.heapStart = physToVirt (pmmAllocPages p heapInitialPages).1 ∧
      (kmallocInit p).heap.heapSize = 65536 ∧ (kmallocInit p).heap.totalAllocated = 0 ∧
      (kmallocInit p).heap.totalFreed = 0 := by
  have size : add64 0 (low32 (heapInitialPages * pageSize)) = 65536 := by decide
  simp only [kmallocInit, heapGrow, appendBlock, got, ↓reduceIte, ne_eq, not_true_eq_false,
    false_and, size, and_self]

theorem tidy_one_block {h : Heap} {live : List Nat} {size : Nat}
    (whole : h.heapSize = 32 + size) (allocated : h.totalAllocated = 0) (freed : h.totalFreed = 0) :
    Tidy h live [⟨h.heapStart, size, true⟩] := by
  constructor
  · simp [whole, Block.range]
  · exact List.IsChain.singleton _
  · simp [allocated, freed, used_bytes_cons, add64]
  · simp [freed]
  · intro c hc busy
    rw [List.mem_singleton.mp hc] at busy
    exact Bool.noConfusion busy

theorem init_tidy (p : Pmm) :
    ∃ bs, Represents (kmallocInit p).heap bs ∧ Tidy (kmallocInit p).heap [] bs := by
  rcases pmm_alloc_pages_cases p heapInitialPages with result |
    ⟨first, q, positive, inside, apart, result, used, _, _⟩
  · have blank : kmallocInit p = ⟨p, ⟨fun _ => ⟨0, false, 0⟩, 0, 0, 0, 0, 0⟩⟩ := by
      simp [kmallocInit, heapGrow, result]
    rw [blank]
    refine ⟨[], (arena_blank p).rep, ?_⟩
    constructor <;> simp [add64]
  · have grown := arena_grown (arena_blank p) positive inside apart result used
    have va : physToVirt (pageToAddr first) = pageVa first := phys_to_virt_page (by omega)
    have one : grownBlocks (pageVa first) heapInitialPages [] = [⟨pageVa first, 65504, true⟩] := by
      simp [grownBlocks, heapInitialPages]
    obtain ⟨start, size, allocated, freed⟩ := init_heap (p := p) (by
      rw [result]
      exact page_to_addr_ne_zero first)
    rw [result, va] at start
    have rep := grown.rep
    rw [one, ← start, ← kmallocInit] at rep
    exact ⟨_, rep, tidy_one_block size allocated freed⟩

theorem tidy_after_init {p : Pmm} {others : Finset Nat} (old : others ⊆ usedSet p) :
    TidyRun (kmallocInit p).heap.heapStart (afterInit p others) :=
  ⟨heap_start_inv ⟨p, others, old, rfl⟩, init_tidy p, rfl⟩

theorem tidy_step {first : Nat} {s t : HeapRun} {call : HeapCall} (before : TidyRun first s)
    (guard : growsAtEnd s call) (step : heapStep s call = some t) : TidyRun first t := by
  obtain ⟨inv, ⟨bs, rep, tidy⟩, start⟩ := before
  have adjacent : adjacentFrees s call := by
    cases call with
    | kfree ptr fuel => exact tidy_merges_adjacent rep tidy ptr
    | _ => trivial
  suffices after : (∃ bs, Represents t.arena.heap bs ∧ Tidy t.arena.heap t.live bs) ∧
      t.arena.heap.heapStart = first from
    ⟨heap_step_inv inv adjacent step, after.1, after.2⟩
  obtain ⟨cs, arena⟩ := inv.arena
  have same := represents_unique arena.rep rep
  subst same
  cases call with
  | kmalloc size fuel =>
    cases step
    obtain ⟨ds, after, neat, kept⟩ := tidy_kmalloc fuel size arena tidy guard
    exact ⟨⟨ds, after, neat⟩, kept.trans start⟩
  | kfree ptr fuel =>
    simp only [heapStep] at step
    split at step
    · obtain ⟨heap, run, result⟩ := Option.map_eq_some_iff.mp step
      subst result
      by_cases own : ptr ∈ s.live
      · obtain ⟨ds, after, neat, kept⟩ := tidy_kfree arena tidy own run
        exact ⟨⟨ds, after, neat⟩, kept.trans start⟩
      · have zero : ptr = 0 := by tauto
        simp only [kfree, zero, ↓reduceIte, Option.some.injEq] at run
        subst run
        rw [List.erase_of_not_mem own]
        exact ⟨⟨cs, rep, tidy⟩, start⟩
    · cases step
  | otherAllocPage =>
    cases step
    exact ⟨⟨cs, rep, tidy⟩, start⟩
  | otherAllocPages count =>
    cases step
    exact ⟨⟨cs, rep, tidy⟩, start⟩
  | otherFreePage page =>
    simp only [heapStep] at step
    split at step <;> cases step
    exact ⟨⟨cs, rep, tidy⟩, start⟩
  | otherFreePages first count =>
    simp only [heapStep] at step
    split at step <;> cases step
    exact ⟨⟨cs, rep, tidy⟩, start⟩

theorem used_bytes_le (bs : List Block) : usedBytes bs ≤ totalBytes bs := by
  induction bs with
  | nil => exact Nat.le_refl 0
  | cons b bs ih =>
    rw [used_bytes_cons, totalBytes]
    split <;> omega

theorem defragmented_of_tidy {k : Arena} {pages : Finset Nat} {live : List Nat} {bs : List Block}
    (inv : ArenaInv k pages live bs) (tidy : Tidy k.heap live bs) : Defragmented k.heap bs := by
  have total : k.heap.heapSize = totalBytes bs := by
    have sum := tiles_total tidy.tiles
    rw [covered_ranges] at sum
    exact (Nat.add_left_cancel sum).symm
  have bounded : k.heap.heapSize < 2 ^ 64 := by
    rcases List.eq_nil_or_concat' bs with rfl | ⟨init, l, rfl⟩
    · simp [total, totalBytes]
    · have low := arena_small inv l (by simp)
      have stop := tiles_last tidy.tiles
      simp only [Small, kernVaOffset, ram_end_eq] at low
      omega
  refine ⟨inv.rep, tiles_adjoin tidy.tiles, tidy.parted, total, ?_⟩
  have within := used_bytes_le bs
  have word := tidy.word
  rw [tidy.counted, sub64, add64]
  omega

theorem one_block_when_drained {k : Arena} {pages : Finset Nat} {bs : List Block}
    (inv : ArenaInv k pages [] bs) (tidy : Tidy k.heap [] bs) (begun : k.heap.heapStart ≠ 0) :
    bs = [⟨k.heap.heapStart, k.heap.heapSize - headerSize, true⟩] := by
  have free : ∀ b ∈ bs, b.free = true := by
    intro b hb
    cases used : b.free with
    | true => rfl
    | false => exact absurd (tidy.given b hb used) (by simp)
  cases bs with
  | nil => exact absurd inv.rep.chain begun
  | cons b bs =>
    cases bs with
    | nil =>
      obtain ⟨here, stop⟩ := tidy.tiles
      simp only [Block.range, List.map_nil, tiles_nil] at here stop
      have open_ := free b (by simp)
      have size : b.size = k.heap.heapSize - headerSize := by
        rw [header_size_eq]
        omega
      rw [← here, ← size, ← open_]
    | cons c rest =>
      have apart := (List.isChain_cons_cons.mp tidy.parted).1
      exact absurd ⟨free b (by simp), free c (by simp)⟩ apart

theorem heap_defragments (p : Pmm) (others : Finset Nat) (old : others ⊆ usedSet p) (s : HeapRun)
    (run : Reaches (· = afterInit p others) (Guarded growsAtEnd (Taken heapStep)) s) :
    ∃ bs, Defragmented s.arena.heap bs ∧
      (∀ ptr ∈ s.live, ∃ fuel, (heapStep s (.kfree ptr fuel)).isSome) ∧
      ((pmmAllocPages p heapInitialPages).1 ≠ 0 → s.live = [] →
        bs = [⟨s.arena.heap.heapStart, s.arena.heap.heapSize - headerSize, true⟩]) := by
  have whole : TidyRun (kmallocInit p).heap.heapStart s := by
    refine reaches_invariant _ ?_ ?_ run
    · rintro s rfl
      exact tidy_after_init old
    · intro s call t before step
      exact tidy_step before step.1 step.2
  obtain ⟨inv, ⟨bs, rep, tidy⟩, start⟩ := whole
  obtain ⟨cs, arena⟩ := inv.arena
  have same := represents_unique arena.rep rep
  subst same
  refine ⟨cs, defragmented_of_tidy arena tidy, ?_, ?_⟩
  · intro ptr own
    refine ⟨cs.length + 1, ?_⟩
    simp only [heapStep, own, or_true, ↓reduceIte, Option.isSome_map]
    exact kfree_returns arena own
  · intro got drained
    rw [drained] at arena tidy
    apply one_block_when_drained arena tidy
    rw [start, (init_heap got).1]
    rcases pmm_alloc_pages_cases p heapInitialPages with result |
      ⟨first, q, positive, inside, _, result, _, _, _⟩
    · rw [result] at got
      exact absurd rfl got
    · have va : physToVirt (pageToAddr first) = pageVa first := phys_to_virt_page (by omega)
      rw [result, va, page_va_eq]
      omega

/-- Three allocations, the last of which makes the heap grow, freed in the order second,
    first, third. -/
theorem three_allocations_defragment : ∃ s : HeapRun, s.live = [] ∧ s.arena.heap.heapSize = 135168 ∧
    ∃ bs, Defragmented s.arena.heap bs ∧
      bs = [⟨s.arena.heap.heapStart, s.arena.heap.heapSize - headerSize, true⟩] := by
  have look : (runActions (allowed growsAtEnd heapStep) (afterInit (pmmInit 0x40001000) ∅)
      [.kmalloc 128 4, .kmalloc 4096 4, .kmalloc 65536 5, .kfree 0xFFFFFF80400010C0 6,
        .kfree 0xFFFFFF8040001020 6, .kfree 0xFFFFFF80400020E0 6]).any (fun s =>
      decide (s.live = [] ∧ s.arena.heap.heapSize = 135168)) = true := by decide +kernel
  obtain ⟨s, run, found⟩ := (Option.any_eq_true _ _).mp look
  obtain ⟨drained, size⟩ := of_decide_eq_true found
  have got : (pmmAllocPages (pmmInit 0x40001000) heapInitialPages).1 ≠ 0 := by decide +kernel
  obtain ⟨bs, whole, _, one⟩ := heap_defragments (pmmInit 0x40001000) ∅ (Finset.empty_subset _) s
    (reaches_of_allowed (Reaches.start rfl) run)
  exact ⟨s, drained, size, bs, whole, one got drained⟩

end Archarch.KernelHeap
