import Archarch.Memory.HeapBlocks

/- heap_grow and kfree as edits of the block list, and what they do to the layout
   of the blocks over the pages heap_grow obtained. -/
namespace Archarch.KernelHeap
open PageFrames LinkedChain FixedWidth ExtentLayout

/- The kernel address of a page, and the bytes of a set of pages. -/

def pageVa (page : Nat) : Nat := kernVaOffset + pageToAddr page

def Owned (pages : Finset Nat) (x : Nat) : Prop :=
  ∃ page ∈ pages, pageVa page ≤ x ∧ x < pageVa page + pageSize

theorem page_va_eq (page : Nat) : pageVa page = 0xFFFFFF8040000000 + page * 4096 := by
  simp only [pageVa, kernVaOffset, page_to_addr_eq]
  omega

theorem owned_iff {pages : Finset Nat} {x : Nat} :
    Owned pages x ↔ 0xFFFFFF8040000000 ≤ x ∧ (x - 0xFFFFFF8040000000) / 4096 ∈ pages := by
  constructor
  · rintro ⟨page, member, low, high⟩
    rw [page_va_eq] at low high
    rw [page_size_eq] at high
    have same : (x - 0xFFFFFF8040000000) / 4096 = page := by omega
    exact ⟨by omega, by rw [same]; exact member⟩
  · rintro ⟨low, member⟩
    refine ⟨_, member, ?_, ?_⟩
    · rw [page_va_eq]
      omega
    · rw [page_va_eq, page_size_eq]
      omega

theorem owned_mono {pages more : Finset Nat} (sub : pages ⊆ more) (x : Nat)
    (owned : Owned pages x) : Owned more x := by
  obtain ⟨page, member, bounds⟩ := owned
  exact ⟨page, sub member, bounds⟩

theorem owned_run {first n x : Nat} :
    Owned (Finset.Ico first (first + n)) x ↔ (Range.mk (pageVa first) (n * 4096)).Has x := by
  rw [owned_iff, Finset.mem_Ico]
  simp only [Range.Has, page_va_eq]
  omega

/-- Every block of a layout over RAM pages lies well inside 64 bits. -/
def Small (b : Block) : Prop := kernVaOffset ≤ b.addr ∧ b.addr + 32 + b.size ≤ kernVaOffset + ramEnd

theorem small_of_layout {pages : Finset Nat} {bs : List Block}
    (layout : Layout (Owned pages) (bs.map Block.range)) (ram : pages ⊆ Finset.range totalPages)
    {b : Block} (hb : b ∈ bs) : Small b := by
  have inside := layout.inside b.range (List.mem_map_of_mem hb)
  have first := inside b.addr ⟨Nat.le_refl _, by simp only [Block.range]; omega⟩
  have last := inside (b.addr + 32 + b.size - 1) ⟨by simp only [Block.range]; omega,
    by simp only [Block.range]; omega⟩
  rw [owned_iff] at first last
  have bound := Finset.mem_range.mp (ram last.2)
  rw [total_pages_eq] at bound
  simp only [Small, kernVaOffset, ram_end_eq]
  omega

def Aligned16 (b : Block) : Prop := 16 ∣ b.addr ∧ 16 ∣ b.size

/- heap_grow -/

theorem phys_to_virt_page {page : Nat} (inside : page < totalPages) :
    physToVirt (pageToAddr page) = pageVa page := by
  rw [total_pages_eq] at inside
  have va := page_va_eq page
  simp only [pageVa] at va ⊢
  rw [physToVirt, add64_eq, Nat.add_comm]
  omega

theorem represents_counters {h : Heap} {bs : List Block} {allocated freed size : Nat} :
    Represents { h with totalAllocated := allocated, totalFreed := freed, heapSize := size } bs ↔
      Represents h bs := by
  constructor <;> exact fun rep => ⟨rep.chain, rep.cells, rep.last⟩

def grownBlocks (va n : Nat) (bs : List Block) : List Block :=
  match bs.getLast? with
  | none => [⟨va, n * 4096 - 32, true⟩]
  | some l =>
    if l.addr + 32 + l.size = va ∧ l.free = true then
      bs.dropLast ++ [⟨l.addr, l.size + n * 4096, true⟩]
    else bs ++ [⟨va, n * 4096 - 32, true⟩]

theorem represents_append_block {h : Heap} {bs : List Block} {va grow : Nat}
    (rep : Represents h bs) (nonnull : va ≠ 0) (fits : 32 ≤ grow ∧ grow < 2 ^ 64)
    (fresh : ∀ c ∈ bs, c.addr ≠ va) :
    Represents (appendBlock h va grow) (bs ++ [⟨va, grow - 32, true⟩]) := by
  have usable : sub64 grow headerSize = grow - 32 := by
    rw [header_size_eq, sub64_eq fits.1 fits.2]
  rcases List.eq_nil_or_concat' bs with rfl | ⟨init, l, rfl⟩
  · have empty : h.heapEnd = 0 := by simpa [addrs] using rep.last
    constructor
    · simp [appendBlock, empty, addrs, links]
    · intro b hb
      have same : b = ⟨va, grow - 32, true⟩ := by simpa using hb
      subst same
      simp [appendBlock, empty, Block.Holds, nonnull, usable]
    · simp [appendBlock, empty, addrs]
  · have final : h.heapEnd = l.addr := by rw [rep.last, addrs_last_concat]
    have asLast : Represents h (init ++ [l] ++ []) := by simpa using rep
    have cell := rep.cells l (by simp)
    have ends : (h.mem l.addr).next = 0 := by
      have chain := rep.chain
      rw [addrs, List.map_append] at chain
      exact (segment_snoc.mp chain).2
    have inserted := represents_insert_after (n := ⟨va, grow - 32, true⟩) asLast nonnull
      (by simpa using fresh)
    have shape : init ++ [l] ++ [⟨va, grow - 32, true⟩] = init ++ [l, ⟨va, grow - 32, true⟩] ++ [] := by
      simp
    rw [shape]
    have nonempty : h.heapEnd ≠ 0 := by
      rw [final]
      exact cell.1
    simpa [appendBlock, nonempty, final, ends, usable, cell.1] using inserted

theorem represents_heap_grow {k : Arena} {bs : List Block} {pages first : Nat} {q : Pmm}
    (rep : Represents k.heap bs) (small : ∀ b ∈ bs, Small b)
    (taken : pmmAllocPages k.pmm pages = (pageToAddr first, q)) (positive : 0 < pages)
    (inside : first + pages ≤ totalPages) (fresh : ∀ c ∈ bs, c.addr ≠ pageVa first) :
    Represents (heapGrow k pages).heap (grownBlocks (pageVa first) pages bs) := by
  have va : physToVirt (pageToAddr first) = pageVa first := phys_to_virt_page (by omega)
  have bound := page_va_eq first
  rw [total_pages_eq] at inside
  have grow : low32 (pages * pageSize) = pages * 4096 := by
    rw [page_size_eq]
    exact low32_eq (by omega)
  have appended : Represents (appendBlock k.heap (pageVa first) (pages * 4096)) _ :=
    represents_append_block rep (by omega) (by omega) fresh
  rcases List.eq_nil_or_concat' bs with rfl | ⟨init, l, rfl⟩
  · have empty : k.heap.heapEnd = 0 := by simpa [addrs] using rep.last
    simp only [heapGrow, taken, page_to_addr_ne_zero, ↓reduceIte, va, grow, empty, ne_eq,
      not_true_eq_false, false_and, grownBlocks, List.getLast?_nil]
    exact represents_counters.mpr appended
  · have final : k.heap.heapEnd = l.addr := by rw [rep.last, addrs_last_concat]
    have cell := rep.cells l (by simp)
    have low := small l (by simp)
    simp only [Small, kernVaOffset, ram_end_eq] at low
    have stop : add64 (add64 l.addr headerSize) l.size = l.addr + 32 + l.size := by
      rw [header_size_eq, add64_eq (a := l.addr) (by omega), add64_eq (by omega)]
    simp only [heapGrow, taken, page_to_addr_ne_zero, ↓reduceIte, va, grow, final, cell.2.1,
      cell.2.2, stop, ne_eq, cell.1, not_false_eq_true, true_and, grownBlocks,
      List.getLast?_append, List.getLast?_singleton, Option.some_or]
    split
    · rename_i extends_
      have sized := represents_set_size (l.size + pages * 4096)
        (show Represents k.heap (init ++ [l] ++ []) by simpa using rep)
      have sum : add64 l.size (pages * 4096) = l.size + pages * 4096 := add64_eq (by omega)
      rw [sum]
      refine represents_counters.mpr ?_
      simpa [extends_.2, final] using sized
    · exact represents_counters.mpr appended

section Grow
variable {old new : Finset Nat} {bs : List Block} {first n : Nat}

theorem range_positive (b : Block) : 0 < b.range.len := by
  simp only [Block.range]
  omega

theorem ranges_positive (bs : List Block) : ∀ e ∈ bs.map Block.range, 0 < e.len := by
  intro e he
  obtain ⟨b, _, rfl⟩ := List.mem_map.mp he
  exact range_positive b

theorem layout_grown (layout : Layout (Owned old) (bs.map Block.range)) (positive : 0 < n)
    (fresh : Disjoint old (Finset.Ico first (first + n))) :
    Layout (Owned (old ∪ Finset.Ico first (first + n)))
      ((grownBlocks (pageVa first) n bs).map Block.range) := by
  have newRange : Block.range ⟨pageVa first, n * 4096 - 32, true⟩ = ⟨pageVa first, n * 4096⟩ := by
    simp only [Block.range, Range.mk.injEq, true_and]
    omega
  have appended : Layout (Owned (old ∪ Finset.Ico first (first + n)))
      (bs.map Block.range ++ [⟨pageVa first, n * 4096⟩]) := by
    refine layout_append_fresh layout (owned_mono Finset.subset_union_left) ?_ (by simp only; omega)
      (ranges_positive bs)
    intro x hx
    have here := owned_run.mpr hx
    refine ⟨owned_mono Finset.subset_union_right x here, ?_⟩
    intro before
    exact Finset.disjoint_left.mp fresh (owned_iff.mp before).2 (owned_iff.mp here).2
  rcases List.eq_nil_or_concat' bs with rfl | ⟨init, l, rfl⟩
  · simpa [grownBlocks, newRange] using appended
  · simp only [grownBlocks, List.getLast?_append, List.getLast?_singleton, Option.some_or]
    split
    · rename_i extends_
      have joint : Layout (Owned (old ∪ Finset.Ico first (first + n)))
          (init.map Block.range ++ ⟨l.addr, 32 + l.size⟩ :: ⟨l.addr + (32 + l.size), n * 4096⟩ :: []) := by
        have at_ : l.addr + (32 + l.size) = pageVa first := by omega
        rw [at_]
        simpa [Block.range] using appended
      have merged := layout_merge joint (by simpa using ranges_positive init)
      simpa [Block.range, Nat.add_assoc] using merged
    · simpa [newRange] using appended

theorem grown_keeps_used {b : Block} (hb : b ∈ bs) (used : b.free = false) (va : Nat) :
    b ∈ grownBlocks va n bs := by
  rcases List.eq_nil_or_concat' bs with rfl | ⟨init, l, rfl⟩
  · simp at hb
  · simp only [grownBlocks, List.getLast?_append, List.getLast?_singleton, Option.some_or]
    split
    · rename_i extends_
      rcases List.mem_append.mp hb with hb | hb
      · simp [hb]
      · rw [List.mem_singleton.mp hb, extends_.2] at used
        exact Bool.noConfusion used
    · simp only [List.mem_append] at hb ⊢
      exact Or.inl hb

theorem grown_offers (va n : Nat) (bs : List Block) :
    ∃ b ∈ grownBlocks va n bs, b.free = true ∧ n * 4096 - 32 ≤ b.size := by
  rcases List.eq_nil_or_concat' bs with rfl | ⟨init, l, rfl⟩
  · exact ⟨⟨va, n * 4096 - 32, true⟩, List.mem_singleton.mpr rfl, rfl, Nat.le_refl _⟩
  · simp only [grownBlocks, List.getLast?_append, List.getLast?_singleton, Option.some_or]
    split
    · refine ⟨⟨l.addr, l.size + n * 4096, true⟩, by simp, rfl, ?_⟩
      change n * 4096 - 32 ≤ l.size + n * 4096
      omega
    · exact ⟨⟨va, n * 4096 - 32, true⟩, by simp, rfl, Nat.le_refl _⟩

theorem aligned_grown (aligned : ∀ b ∈ bs, Aligned16 b) (first : Nat) (positive : 0 < n) :
    ∀ b ∈ grownBlocks (pageVa first) n bs, Aligned16 b := by
  have fresh : Aligned16 ⟨pageVa first, n * 4096 - 32, true⟩ := by
    simp only [Aligned16, page_va_eq]
    omega
  have appended : ∀ b ∈ bs ++ [⟨pageVa first, n * 4096 - 32, true⟩], Aligned16 b := by
    intro b hb
    rcases List.mem_append.mp hb with old | new
    · exact aligned b old
    · rw [List.mem_singleton.mp new]
      exact fresh
  rcases List.eq_nil_or_concat' bs with rfl | ⟨init, l, rfl⟩
  · exact appended
  · simp only [grownBlocks, List.getLast?_append, List.getLast?_singleton, Option.some_or]
    split
    · intro b hb
      rcases List.mem_append.mp hb with old | new
      · apply aligned
        simpa using Or.inl old
      · have last := aligned l (by simp)
        rw [List.mem_singleton.mp new]
        simp only [Aligned16] at last ⊢
        omega
    · exact appended

end Grow

/- Taking a block for an allocation. -/

theorem layout_carve {owned : Nat → Prop} {pre post : List Block} {b : Block} (size : Nat)
    (layout : Layout owned ((pre ++ [b] ++ post).map Block.range)) :
    Layout owned ((pre ++ carve size b ++ post).map Block.range) := by
  unfold carve
  split
  · rename_i room
    have whole : Layout owned
        (pre.map Block.range ++ ⟨b.addr, (32 + size) + (32 + (b.size - size - 32))⟩ ::
          post.map Block.range) := by
      have len : (32 + size) + (32 + (b.size - size - 32)) = 32 + b.size := by omega
      rw [len]
      simpa [Block.range] using layout
    simpa [Block.range, Nat.add_assoc] using layout_split whole
  · simpa [Block.range] using layout

theorem carve_head {size : Nat} {b : Block} (fit : size ≤ b.size) :
    ∃ got, size ≤ got ∧ ⟨b.addr, got, false⟩ ∈ carve size b := by
  unfold carve
  split
  · exact ⟨size, Nat.le_refl _, by simp⟩
  · exact ⟨b.size, fit, by simp⟩

theorem aligned_carve {size : Nat} {b c : Block} (multiple : 16 ∣ size) (aligned : Aligned16 b)
    (hc : c ∈ carve size b) : Aligned16 c := by
  unfold carve at hc
  split at hc
  · simp only [List.mem_cons, List.not_mem_nil, or_false] at hc
    simp only [Aligned16] at aligned
    rcases hc with rfl | rfl
    · exact ⟨aligned.1, multiple⟩
    · constructor
      · change 16 ∣ b.addr + 32 + size
        omega
      · change 16 ∣ b.size - size - 32
        omega
  · rw [List.mem_singleton.mp hc]
    exact aligned

/- kfree: the freed block takes over its successor, then its predecessor takes it
   over, each only if that neighbour in the list is free. -/

def merge (p n : Block) : Block := ⟨p.addr, p.size + 32 + n.size, p.free⟩

def joinNext (b : Block) : List Block → List Block
  | [] => [b]
  | n :: rest => if n.free then merge b n :: rest else b :: n :: rest

def joinPrev (pre : List Block) (b : Block) (rest : List Block) : List Block :=
  match pre.getLast? with
  | none => b :: rest
  | some p => if p.free then pre.dropLast ++ merge p b :: rest else pre ++ b :: rest

def release (pre : List Block) (b : Block) (post : List Block) : List Block :=
  match joinNext ⟨b.addr, b.size, true⟩ post with
  | [] => pre
  | joined :: rest => joinPrev pre joined rest

theorem join_prev_nil (b : Block) (rest : List Block) : joinPrev [] b rest = b :: rest := rfl

theorem join_prev_concat (init : List Block) (p b : Block) (rest : List Block) :
    joinPrev (init ++ [p]) b rest =
      if p.free then init ++ merge p b :: rest else init ++ [p] ++ b :: rest := by
  simp only [joinPrev, List.getLast?_append, List.getLast?_singleton, Option.some_or,
    List.dropLast_concat]

theorem aligned_merge {p n : Block} (left : Aligned16 p) (right : Aligned16 n) :
    Aligned16 (merge p n) := by
  simp only [Aligned16, merge] at left right ⊢
  omega

theorem aligned_join_next {b c : Block} {post : List Block} (aligned : Aligned16 b)
    (rest : ∀ n ∈ post, Aligned16 n) (hc : c ∈ joinNext b post) : Aligned16 c := by
  cases post with
  | nil =>
    rw [List.mem_singleton.mp hc]
    exact aligned
  | cons n tail =>
    simp only [joinNext] at hc
    split at hc
    · rcases List.mem_cons.mp hc with rfl | later
      · exact aligned_merge aligned (rest n (by simp))
      · exact rest c (by simp [later])
    · rcases List.mem_cons.mp hc with rfl | later
      · exact aligned
      · exact rest c later

theorem aligned_join_prev {b c : Block} {pre rest : List Block} (aligned : Aligned16 b)
    (before : ∀ p ∈ pre, Aligned16 p) (after : ∀ n ∈ rest, Aligned16 n)
    (hc : c ∈ joinPrev pre b rest) : Aligned16 c := by
  rcases List.eq_nil_or_concat' pre with rfl | ⟨init, p, rfl⟩
  · simp only [join_prev_nil, List.mem_cons] at hc
    rcases hc with rfl | later
    · exact aligned
    · exact after c later
  · rw [join_prev_concat] at hc
    split at hc
    · simp only [List.mem_append, List.mem_cons] at hc
      rcases hc with front | rfl | later
      · exact before c (by simp [front])
      · exact aligned_merge (before p (by simp)) aligned
      · exact after c later
    · simp only [List.mem_append, List.mem_cons] at hc
      rcases hc with front | rfl | later
      · exact before c (by simpa using front)
      · exact aligned
      · exact after c later

theorem aligned_release {b c : Block} {pre post : List Block}
    (aligned : ∀ d ∈ pre ++ [b] ++ post, Aligned16 d) (hc : c ∈ release pre b post) :
    Aligned16 c := by
  have joins : ∀ d ∈ joinNext ⟨b.addr, b.size, true⟩ post, Aligned16 d := by
    intro d hd
    have freed : Aligned16 ⟨b.addr, b.size, true⟩ := aligned b (by simp)
    exact aligned_join_next freed (fun n hn => aligned n (by simp [hn])) hd
  have before : ∀ p ∈ pre, Aligned16 p := fun p hp => aligned p (by simp [hp])
  unfold release at hc
  cases split : joinNext ⟨b.addr, b.size, true⟩ post with
  | nil =>
    rw [split] at hc
    exact before c hc
  | cons joined rest =>
    rw [split] at hc joins
    exact aligned_join_prev (joins joined (by simp)) before (fun n hn => joins n (by simp [hn])) hc

theorem find_prev_segment {m : HeaderMem} {block fuel prev curr found : Nat} {xs : List Nat}
    (chain : Segment (links m) curr xs block) (nonnull : 0 ∉ xs) (absent : block ∉ xs)
    (result : findPrev m block fuel prev curr = some found) : found = xs.getLastD prev := by
  induction fuel generalizing prev curr xs with
  | zero => simp [findPrev] at result
  | succ fuel ih =>
    rw [findPrev] at result
    cases xs with
    | nil =>
      rw [if_pos (Or.inr (segment_nil.mp chain))] at result
      simpa using result.symm
    | cons x xs =>
      obtain ⟨here, rest⟩ := chain
      subst here
      have going : ¬ (curr = 0 ∨ curr = block) := by
        rintro (zero | found)
        · exact nonnull (by simp [zero])
        · exact absent (by simp [found])
      rw [if_neg going] at result
      rw [List.getLastD_cons]
      exact ih rest (fun h => nonnull (by simp [h])) (fun h => absent (by simp [h])) result

theorem find_prev_ends {m : HeaderMem} {block fuel prev curr : Nat} {xs : List Nat}
    (chain : Segment (links m) curr xs block) (enough : xs.length < fuel) :
    findPrev m block fuel prev curr ≠ none := by
  induction xs generalizing fuel prev curr with
  | nil =>
    cases fuel with
    | zero => simp at enough
    | succ fuel => simp [findPrev, segment_nil.mp chain]
  | cons x xs ih =>
    cases fuel with
    | zero => simp at enough
    | succ fuel =>
      rw [findPrev]
      split
      · simp
      · have here := chain.1
        subst here
        exact ih chain.2 (by simpa using enough)

theorem represents_split_chain {h : Heap} {pre post : List Block} {b : Block}
    (rep : Represents h (pre ++ [b] ++ post)) :
    Segment (links h.mem) h.heapStart (addrs pre) b.addr ∧ 0 ∉ addrs pre ∧ b.addr ∉ addrs pre ∧
      (h.mem b.addr).next = (addrs post).headD 0 := by
  have chain := rep.chain
  have outside := represents_outside rep
  simp only [addrs, List.map_append, List.map_cons, List.append_assoc,
    List.singleton_append] at chain outside
  obtain ⟨c, before, here, after⟩ := segment_append.mp chain
  subst here
  refine ⟨before, ?_, ?_, ?_⟩
  · intro member
    exact outside (List.mem_append.mpr (Or.inl member))
  · intro member
    obtain ⟨c, hc, same⟩ := List.mem_map.mp member
    exact address_ne_of_mem rep (List.mem_append.mpr (Or.inl hc)) same
  · cases post with
    | nil => simpa [links, addrs] using after
    | cons n rest =>
      simp only [List.map_cons, segment_cons] at after
      simpa [addrs, links] using after.1

theorem represents_coalesce_next {h : Heap} {pre post : List Block} {b : Block}
    (rep : Represents h (pre ++ [b] ++ post)) (fits : ∀ n ∈ post, b.size + (32 + n.size) < 2 ^ 64) :
    ∃ joined rest, joinNext b post = joined :: rest ∧ joined.addr = b.addr ∧
      Represents (coalesceNext h b.addr) (pre ++ [joined] ++ rest) := by
  have next := (represents_split_chain rep).2.2.2
  cases post with
  | nil =>
    have final : (h.mem b.addr).next = 0 := by simpa [addrs] using next
    refine ⟨b, [], rfl, rfl, ?_⟩
    simpa [coalesceNext, final] using rep
  | cons n rest =>
    have at_ : (h.mem b.addr).next = n.addr := by simpa [addrs] using next
    have cell := rep.cells n (by simp)
    by_cases open_ : n.free = true
    · refine ⟨merge b n, rest, by simp [joinNext, open_], rfl, ?_⟩
      have taken : coalesceNext h b.addr = absorb h b.addr n.addr := by
        simp [coalesceNext, at_, cell.1, cell.2.2, open_]
      rw [taken]
      exact represents_absorb (by simpa using rep) (fits n (by simp))
    · refine ⟨b, n :: rest, by simp [joinNext, open_], rfl, ?_⟩
      have kept : coalesceNext h b.addr = h := by
        simp [coalesceNext, at_, cell.2.2, open_]
      rw [kept]
      exact rep

theorem represents_coalesce_prev {h : Heap} {pre post : List Block} {b : Block} {fuel prev : Nat}
    (rep : Represents h (pre ++ [b] ++ post)) (fits : ∀ p ∈ pre, p.size + (32 + b.size) < 2 ^ 64)
    (search : findPrev h.mem b.addr fuel 0 h.heapStart = some prev) :
    Represents (coalescePrev h prev b.addr) (joinPrev pre b post) := by
  obtain ⟨walk, nonnull, absent, _⟩ := represents_split_chain rep
  have last := find_prev_segment walk nonnull absent search
  rcases List.eq_nil_or_concat' pre with rfl | ⟨init, p, rfl⟩
  · have none : prev = 0 := by simpa [addrs] using last
    simpa [coalescePrev, none, joinPrev] using rep
  · have at_ : prev = p.addr := by rw [last, addrs_last_concat]
    have cell := rep.cells p (by simp)
    by_cases open_ : p.free = true
    · have taken : coalescePrev h prev b.addr = absorb h p.addr b.addr := by
        simp [coalescePrev, at_, cell.1, cell.2.2, open_]
      have merged := represents_absorb
        (show Represents h (init ++ [p, b] ++ post) by simpa using rep) (fits p (by simp))
      rw [taken]
      simpa [joinPrev, open_, merge] using merged
    · have kept : coalescePrev h prev b.addr = h := by
        simp [coalescePrev, at_, cell.2.2, open_]
      rw [kept]
      simpa [joinPrev, open_] using rep

theorem join_next_size {b joined : Block} {post rest : List Block}
    (split : joinNext b post = joined :: rest) :
    joined.size = b.size ∨ ∃ n ∈ post, joined.size = b.size + 32 + n.size := by
  cases post with
  | nil =>
    cases split
    exact Or.inl rfl
  | cons n tail =>
    simp only [joinNext] at split
    split at split <;> cases split
    · exact Or.inr ⟨n, by simp, rfl⟩
    · exact Or.inl rfl

theorem represents_kfree {h g : Heap} {pre post : List Block} {b : Block} {fuel ptr : Nat}
    (rep : Represents h (pre ++ [b] ++ post)) (small : ∀ c ∈ pre ++ [b] ++ post, Small c)
    (pointer : ptr = b.addr + 32) (run : kfree fuel h ptr = some g) :
    Represents g (release pre b post) := by
  have bound : ∀ c ∈ pre ++ [b] ++ post, c.size < 2 ^ 31 ∧ kernVaOffset ≤ c.addr ∧
      c.addr < 2 ^ 64 - 2 ^ 32 := by
    intro c hc
    have low := small c hc
    simp only [Small, kernVaOffset, ram_end_eq] at low ⊢
    omega
  have low := bound b (by simp)
  have block : sub64 ptr headerSize = b.addr := by
    rw [pointer, header_size_eq, sub64_eq (by omega) (by omega)]
    omega
  have nonzero : ptr ≠ 0 := by omega
  have freed : Represents (markFree h b.addr) (pre ++ [⟨b.addr, b.size, true⟩] ++ post) := by
    have marked := represents_set_free true rep
    exact ⟨marked.chain, marked.cells, marked.last⟩
  obtain ⟨joined, rest, split, address, second⟩ := represents_coalesce_next freed (by
    intro n hn
    have := bound n (by simp [hn])
    simp only
    omega)
  have size := join_next_size split
  simp only [kfree, nonzero, ↓reduceIte, block, Option.map_eq_some_iff] at run
  obtain ⟨prev, search, result⟩ := run
  rw [← address] at search result second
  rw [← result, release, split]
  refine represents_coalesce_prev second ?_ search
  intro p hp
  have := bound p (by simp [hp])
  rcases size with same | ⟨n, hn, grown⟩
  · simp only at same
    omega
  · have := bound n (by simp [hn])
    simp only at grown
    omega

end Archarch.KernelHeap
