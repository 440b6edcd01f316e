import Archarch.Foundations.Runs
import Archarch.Memory.HeapOps

/- Heap safety over whole histories: kmalloc and kfree interleaved with page
   allocations and releases by the rest of the kernel. heapPages, others and live
   are the record of who owns what; the kernel keeps none of them. -/
namespace Archarch.KernelHeap
open PageFrames LinkedChain FixedWidth ExtentLayout LabelledRuns

def Adjoins (p n : Block) : Prop := n.addr = p.addr + 32 + p.size

theorem layout_release {owned : Nat → Prop} {pre post : List Block} {b : Block}
    (layout : Layout owned ((pre ++ [b] ++ post).map Block.range))
    (after : ∀ n ∈ post.head?, n.free = true → Adjoins b n)
    (before : ∀ p ∈ pre.getLast?, p.free = true → Adjoins p b) :
    Layout owned ((release pre b post).map Block.range) := by
  have stage : ∃ joined rest, joinNext ⟨b.addr, b.size, true⟩ post = joined :: rest ∧
      joined.addr = b.addr ∧ Layout owned ((pre ++ [joined] ++ rest).map Block.range) := by
    cases post with
    | nil => exact ⟨_, _, rfl, rfl, by simpa [Block.range] using layout⟩
    | cons n rest =>
      by_cases open_ : n.free = true
      · have adjoins := after n (by simp) open_
        refine ⟨merge ⟨b.addr, b.size, true⟩ n, rest, by simp [joinNext, open_], rfl, ?_⟩
        have split : Layout owned (pre.map Block.range ++
            ⟨b.addr, 32 + b.size⟩ :: ⟨b.addr + (32 + b.size), 32 + n.size⟩ :: rest.map Block.range) := by
          have at_ : b.addr + (32 + b.size) = n.addr := by
            rw [adjoins]
            omega
          rw [at_]
          simpa [Block.range] using layout
        have merged := layout_merge split (by
          rw [← List.map_append]
          exact ranges_positive _)
        have sum : 32 + b.size + (32 + n.size) = 32 + (b.size + 32 + n.size) := by omega
        rw [sum] at merged
        simpa [Block.range, merge] using merged
      · exact ⟨⟨b.addr, b.size, true⟩, n :: rest, by simp [joinNext, open_], rfl,
          by simpa [Block.range] using layout⟩
  obtain ⟨joined, rest, split, address, second⟩ := stage
  rw [release, split]
  rcases List.eq_nil_or_concat' pre with rfl | ⟨init, p, rfl⟩
  · simpa [join_prev_nil] using second
  · simp only [join_prev_concat]
    by_cases open_ : p.free = true
    · have adjoins := before p (by simp) open_
      rw [if_pos open_]
      have parts : Layout owned (init.map Block.range ++ ⟨p.addr, 32 + p.size⟩ ::
          ⟨p.addr + (32 + p.size), 32 + joined.size⟩ :: rest.map Block.range) := by
        have at_ : p.addr + (32 + p.size) = joined.addr := by
          rw [address, adjoins]
          omega
        rw [at_]
        simpa [Block.range] using second
      have merged := layout_merge parts (by
        rw [← List.map_append]
        exact ranges_positive _)
      have sum : 32 + p.size + (32 + joined.size) = 32 + (p.size + 32 + joined.size) := by omega
      rw [sum] at merged
      simpa [Block.range, merge] using merged
    · rw [if_neg open_]
      simpa using second

theorem release_keeps_used {pre post : List Block} {b c : Block} (hc : c ∈ pre ++ post)
    (used : c.free = false) : c ∈ release pre b post := by
  have stage : ∃ joined rest, joinNext ⟨b.addr, b.size, true⟩ post = joined :: rest ∧
      (c ∈ post → c ∈ rest) := by
    cases post with
    | nil => exact ⟨_, _, rfl, id⟩
    | cons n rest =>
      by_cases open_ : n.free = true
      · refine ⟨merge ⟨b.addr, b.size, true⟩ n, rest, by simp [joinNext, open_], ?_⟩
        intro member
        rcases List.mem_cons.mp member with rfl | later
        · rw [open_] at used
          exact Bool.noConfusion used
        · exact later
      · exact ⟨⟨b.addr, b.size, true⟩, n :: rest, by simp [joinNext, open_], id⟩
  obtain ⟨joined, rest, split, keep⟩ := stage
  rw [release, split]
  rcases List.mem_append.mp hc with front | back
  · rcases List.eq_nil_or_concat' pre with rfl | ⟨init, p, rfl⟩
    · simp at front
    · simp only [join_prev_concat]
      by_cases open_ : p.free = true
      · rw [if_pos open_]
        rcases List.mem_append.mp front with front | last
        · simp [front]
        · rw [List.mem_singleton.mp last, open_] at used
          exact Bool.noConfusion used
      · rw [if_neg open_]
        simp only [List.mem_append] at front ⊢
        exact Or.inl front
  · have later := keep back
    simp only [joinPrev]
    split
    · simp [later]
    · split <;> simp [later]

structure HeapRun where
  arena : Arena
  heapPages : Finset Nat
  others : Finset Nat
  live : List Nat

inductive HeapCall where
  | kmalloc (size fuel : Nat)
  | kfree (ptr fuel : Nat)
  | otherAllocPage
  | otherAllocPages (count : Nat)
  | otherFreePage (page : Nat)
  | otherFreePages (first count : Nat)

/-- The pages one call marked used. -/
def taken (before after : Pmm) : Finset Nat := usedSet after \ usedSet before

def otherTakes (s : HeapRun) (q : Pmm) : HeapRun :=
  { s with arena := { s.arena with pmm := q }, others := s.others ∪ taken s.arena.pmm q }

/-- kfree gets a live pointer or NULL, the rest of the kernel frees pages of its
   own, and nobody else calls the page allocator. A kmalloc that has not returned
   within its fuel leaves the state it has reached. -/
def heapStep (s : HeapRun) : HeapCall → Option HeapRun
  | .kmalloc size fuel =>
    let result := kmalloc fuel s.arena size
    some
      { s with
        arena := result.2
        heapPages := s.heapPages ∪ taken s.arena.pmm result.2.pmm
        live := match result.1 with
          | some (ptr + 1) => (ptr + 1) :: s.live
          | _ => s.live }
  | .kfree ptr fuel =>
    if ptr = 0 ∨ ptr ∈ s.live then
      (kfree fuel s.arena.heap ptr).map fun heap =>
        { s with arena := { s.arena with heap := heap }, live := s.live.erase ptr }
    else none
  | .otherAllocPage => some (otherTakes s (pmmAllocPage s.arena.pmm).2)
  | .otherAllocPages count => some (otherTakes s (pmmAllocPages s.arena.pmm count).2)
  | .otherFreePage page =>
    if page ∈ s.others then
      some
        { s with
          arena := { s.arena with pmm := pmmFreePage s.arena.pmm (pageToAddr page) }
          others := s.others.erase page }
    else none
  | .otherFreePages first count =>
    if Finset.Ico first (first + count) ⊆ s.others then
      some
        { s with
          arena := { s.arena with pmm := pmmFreePages s.arena.pmm (pageToAddr first) count }
          others := s.others \ Finset.Ico first (first + count) }
    else none

/-- kmalloc_init on any page allocator, the rest of the kernel already holding
   some of the pages in use. -/
def HeapStart (s : HeapRun) : Prop :=
  ∃ p others, others ⊆ usedSet p ∧
    s = ⟨kmallocInit p, taken p (kmallocInit p).pmm, others, []⟩

def usable (h : Heap) (ptr : Nat) : Range := ⟨ptr, (h.mem (sub64 ptr headerSize)).size⟩

structure HeapSafe (s : HeapRun) : Prop where
  blocks : ∃ bs, Represents s.arena.heap bs ∧ Layout (Owned s.heapPages) (bs.map Block.range)
  live : s.live.Pairwise fun p q => (usable s.arena.heap p).Apart (usable s.arena.heap q)
  others : ∀ p ∈ s.live, ∀ x, (usable s.arena.heap p).Has x → ¬ Owned s.others x

/-- Each merge kfree(ptr) would make joins blocks that adjoin in memory. -/
def MergesAdjacent (h : Heap) (ptr : Nat) : Prop :=
  ∀ pre b post, Represents h (pre ++ [b] ++ post) → ptr = b.addr + 32 →
    (∀ n ∈ post.head?, n.free = true → Adjoins b n) ∧
    (∀ p ∈ pre.getLast?, p.free = true → Adjoins p b)

def adjacentFrees (s : HeapRun) : HeapCall → Prop
  | .kfree ptr _ => MergesAdjacent s.arena.heap ptr
  | _ => True

structure ArenaInv (k : Arena) (pages : Finset Nat) (live : List Nat) (bs : List Block) : Prop where
  rep : Represents k.heap bs
  layout : Layout (Owned pages) (bs.map Block.range)
  marked : pages ⊆ usedSet k.pmm
  owned : ∀ p ∈ live, ∃ b ∈ bs, p = b.addr + 32 ∧ b.free = false
  once : live.Nodup

section Arena
variable {k : Arena} {pages : Finset Nat} {live : List Nat} {bs : List Block}

theorem arena_small (inv : ArenaInv k pages live bs) : ∀ b ∈ bs, Small b := by
  intro b hb
  exact small_of_layout inv.layout (inv.marked.trans (used_set_subset _)) hb

theorem heap_grow_used (k : Arena) (n : Nat) : usedSet k.pmm ⊆ usedSet (heapGrow k n).pmm := by
  rcases pmm_alloc_pages_cases k.pmm n with result | ⟨first, q, _, _, _, result, used, _, _⟩
  · simp [heapGrow, result]
  · have pmm : (heapGrow k n).pmm = q := by simp [heapGrow, result, page_to_addr_ne_zero]
    rw [pmm, used]
    exact Finset.subset_union_left

theorem arena_grown {first n : Nat} {q : Pmm} (inv : ArenaInv k pages live bs) (positive : 0 < n)
    (inside : first + n ≤ totalPages) (apart : Disjoint (usedSet k.pmm) (Finset.Ico first (first + n)))
    (result : pmmAllocPages k.pmm n = (pageToAddr first, q))
    (used : usedSet q = usedSet k.pmm ∪ Finset.Ico first (first + n)) :
    ArenaInv (heapGrow k n) (pages ∪ taken k.pmm (heapGrow k n).pmm) live
      (grownBlocks (pageVa first) n bs) := by
  have pmm : (heapGrow k n).pmm = q := by simp [heapGrow, result, page_to_addr_ne_zero]
  have got : taken k.pmm q = Finset.Ico first (first + n) := by
    rw [taken, used, Finset.union_sdiff_left]
    exact Finset.sdiff_eq_self_of_disjoint apart.symm
  have fresh : Disjoint pages (Finset.Ico first (first + n)) :=
    Finset.disjoint_of_subset_left inv.marked apart
  have elsewhere : ∀ c ∈ bs, c.addr ≠ pageVa first := by
    intro c hc same
    have here := inv.layout.inside c.range (List.mem_map_of_mem hc) c.addr
      ⟨Nat.le_refl _, by simp only [Block.range]; omega⟩
    obtain ⟨low, member⟩ := owned_iff.mp here
    have page : (c.addr - 0xFFFFFF8040000000) / 4096 = first := by
      rw [same, page_va_eq]
      omega
    rw [page] at member
    exact Finset.disjoint_left.mp fresh member (Finset.mem_Ico.mpr ⟨Nat.le_refl _, by omega⟩)
  refine ⟨?_, ?_, ?_, ?_, inv.once⟩
  · exact represents_heap_grow inv.rep (arena_small inv) result positive inside elsewhere
  · rw [pmm, got]
    exact layout_grown inv.layout positive fresh
  · rw [pmm, got, used]
    exact Finset.union_subset_union_left inv.marked
  · intro p hp
    obtain ⟨b, hb, at_, busy⟩ := inv.owned p hp
    exact ⟨b, grown_keeps_used hb busy _, at_, busy⟩

theorem arena_heap_grow (inv : ArenaInv k pages live bs) (n : Nat) :
    ∃ cs, ArenaInv (heapGrow k n) (pages ∪ taken k.pmm (heapGrow k n).pmm) live cs ∧
      ((∀ b ∈ bs, Aligned16 b) → ∀ b ∈ cs, Aligned16 b) := by
  rcases pmm_alloc_pages_cases k.pmm n with result | ⟨first, q, positive, inside, apart, result, used, _, _⟩
  · have same : heapGrow k n = k := by simp [heapGrow, result]
    rw [same]
    have none : taken k.pmm k.pmm = ∅ := Finset.sdiff_self _
    rw [none, Finset.union_empty]
    exact ⟨bs, inv, id⟩
  · exact ⟨grownBlocks (pageVa first) n bs, arena_grown inv positive inside apart result used,
      fun aligned => aligned_grown aligned first positive⟩

theorem arena_take_block {b : Block} {pre post : List Block} {size : Nat}
    (inv : ArenaInv k pages live (pre ++ [b] ++ post)) (open_ : b.free = true)
    (fit : size ≤ b.size) :
    ArenaInv { k with heap := takeBlock k.heap b.addr size } pages ((b.addr + 32) :: live)
      (pre ++ carve size b ++ post) := by
  have low := arena_small inv b (by simp)
  simp only [Small, kernVaOffset, ram_end_eq] at low
  have kept : ∀ c ∈ pre ++ [b] ++ post, c.free = false → c ∈ pre ++ carve size b ++ post := by
    intro c hc used
    simp only [List.mem_append, List.mem_singleton] at hc ⊢
    rcases hc with (hc | rfl) | hc
    · exact Or.inl (Or.inl hc)
    · rw [open_] at used
      exact Bool.noConfusion used
    · exact Or.inr hc
  have apart : ∀ c ∈ pre ++ post, ¬ b.range.Has c.addr := by
    intro c hc inside
    have ne := address_ne_of_mem inv.rep hc
    have mid := inv.layout.apart
    have mem : c ∈ pre ++ [b] ++ post := by
      rcases List.mem_append.mp hc with hc | hc <;> simp [hc]
    have instSymm : Std.Symm Range.Apart := ⟨fun _ _ h => apart_symm h⟩
    have split := mid.forall (List.mem_map_of_mem mem) (List.mem_map_of_mem (f := Block.range)
      (show b ∈ pre ++ [b] ++ post by simp)) (by
        intro same
        exact ne (congrArg Range.base same))
    exact apart_no_common split c.addr
      ⟨⟨Nat.le_refl _, by simp only [Block.range]; omega⟩, inside⟩
  refine ⟨?_, layout_carve size inv.layout, inv.marked, ?_, ?_⟩
  · exact represents_take_block inv.rep fit (by omega) apart
  · intro p hp
    rcases List.mem_cons.mp hp with rfl | old
    · obtain ⟨got, _, member⟩ := carve_head fit
      exact ⟨_, List.mem_append.mpr (Or.inl (List.mem_append.mpr (Or.inr member))), rfl, rfl⟩
    · obtain ⟨c, hc, at_, busy⟩ := inv.owned p old
      exact ⟨c, kept c hc busy, at_, busy⟩
  · refine List.nodup_cons.mpr ⟨?_, inv.once⟩
    intro already
    obtain ⟨c, hc, at_, busy⟩ := inv.owned _ already
    simp only [List.append_assoc, List.singleton_append, List.mem_append, List.mem_cons] at hc
    have address : c.addr = b.addr := by omega
    rcases hc with hc | rfl | hc
    · exact address_ne_of_mem inv.rep (List.mem_append.mpr (Or.inl hc)) address
    · rw [open_] at busy
      exact Bool.noConfusion busy
    · exact address_ne_of_mem inv.rep (List.mem_append.mpr (Or.inr hc)) address

end Arena

theorem find_fit_block {h : Heap} {bs : List Block} {size fuel curr : Nat} (rep : Represents h bs)
    (search : findFit h.mem size fuel h.heapStart = some (some curr)) :
    ∃ pre b post, bs = pre ++ [b] ++ post ∧ curr = b.addr ∧ b.free = true ∧ size ≤ b.size := by
  have first := find_along_finds rep.chain (represents_outside rep) search
  obtain ⟨b, hb, rfl⟩ := List.mem_map.mp (List.mem_of_find?_eq_some first)
  have cell := rep.cells b hb
  have fits := List.find?_some first
  simp only [cell.2.1, cell.2.2, Bool.and_eq_true, decide_eq_true_eq] at fits
  obtain ⟨pre, post, split⟩ := List.append_of_mem hb
  exact ⟨pre, b, post, by simp [split], rfl, fits⟩

/-- A whole call of kmalloc, however many rounds it takes. -/
theorem arena_kmalloc (fuel size : Nat) {k : Arena} {pages : Finset Nat} {live : List Nat}
    {bs : List Block} (inv : ArenaInv k pages live bs) :
    ∃ cs, ArenaInv (kmalloc fuel k size).2 (pages ∪ taken k.pmm (kmalloc fuel k size).2.pmm)
      (match (kmalloc fuel k size).1 with
        | some (ptr + 1) => (ptr + 1) :: live
        | _ => live) cs ∧ usedSet k.pmm ⊆ usedSet (kmalloc fuel k size).2.pmm ∧
      ((∀ b ∈ bs, Aligned16 b) → ∀ b ∈ cs, Aligned16 b) := by
  have idle : pages ∪ taken k.pmm k.pmm = pages := by
    rw [taken, Finset.sdiff_self, Finset.union_empty]
  induction fuel generalizing k size pages bs with
  | zero =>
    simp only [kmalloc, idle]
    exact ⟨bs, inv, Finset.Subset.refl _, id⟩
  | succ fuel ih =>
    simp only [kmalloc]
    by_cases zero : size = 0
    · simp only [zero, ↓reduceIte, idle]
      exact ⟨bs, inv, Finset.Subset.refl _, id⟩
    · simp only [zero, ↓reduceIte]
      cases search : findFit k.heap.mem (align16 size) (fuel + 1) k.heap.heapStart with
      | none =>
        simp only [idle]
        exact ⟨bs, inv, Finset.Subset.refl _, id⟩
      | some found =>
        cases found with
        | none =>
          -- no fit: the heap is grown and the call retries
          obtain ⟨cs, grown, even⟩ := arena_heap_grow inv (pagesNeeded (align16 size))
          have more := heap_grow_used k (pagesNeeded (align16 size))
          have settled : ∀ q : Finset Nat, q ∪ taken (heapGrow k (pagesNeeded (align16 size))).pmm
              (heapGrow k (pagesNeeded (align16 size))).pmm = q := by
            intro q
            rw [taken, Finset.sdiff_self, Finset.union_empty]
          obtain ⟨ds, final, rest, kept⟩ := ih _ grown (settled _)
          refine ⟨ds, ?_, more.trans rest, fun aligned => kept (even aligned)⟩
          have together : ∀ {a b c : Finset Nat}, a ⊆ b → b ⊆ c →
              pages ∪ (b \ a) ∪ (c \ b) = pages ∪ (c \ a) := by
            intro a b c ab bc
            ext x
            have hab := @ab x
            have hbc := @bc x
            simp only [Finset.mem_union, Finset.mem_sdiff]
            tauto
          simp only [taken] at final ⊢
          rw [together more rest] at final
          exact final
        | some curr =>
          obtain ⟨pre, b, post, shape, rfl, fits⟩ := find_fit_block inv.rep search
          have small := arena_small inv b (by simp [shape])
          rw [shape] at inv
          have done := arena_take_block inv fits.1 fits.2
          simp only [Small, kernVaOffset, ram_end_eq] at small
          have ptr : add64 b.addr headerSize = b.addr + 31 + 1 := by
            rw [header_size_eq, add64_eq (by omega)]
          simp only [ptr, idle]
          refine ⟨_, done, Finset.Subset.refl _, ?_⟩
          intro aligned c hc
          rw [shape] at aligned
          simp only [List.mem_append] at hc
          rcases hc with (hc | hc) | hc
          · exact aligned c (by simp [hc])
          · exact aligned_carve (align16_multiple size) (aligned b (by simp)) hc
          · exact aligned c (by simp [hc])

theorem arena_kfree {fuel ptr : Nat} {k : Arena} {heap : Heap} {pages : Finset Nat}
    {live : List Nat} {bs : List Block} (inv : ArenaInv k pages live bs) (own : ptr ∈ live)
    (adjacent : MergesAdjacent k.heap ptr) (run : kfree fuel k.heap ptr = some heap) :
    ∃ cs, ArenaInv { k with heap := heap } pages (live.erase ptr) cs ∧
      ((∀ b ∈ bs, Aligned16 b) → ∀ b ∈ cs, Aligned16 b) := by
  have small := arena_small inv
  obtain ⟨b, hb, at_, _⟩ := inv.owned ptr own
  obtain ⟨pre, post, split⟩ := List.append_of_mem hb
  have shape : bs = pre ++ [b] ++ post := by rw [split]; simp
  subst shape
  have joins := adjacent pre b post inv.rep at_
  refine ⟨release pre b post, ⟨represents_kfree inv.rep small at_ run,
    layout_release inv.layout joins.1 joins.2, inv.marked, ?_, inv.once.erase _⟩,
    fun aligned c hc => aligned_release aligned hc⟩
  intro p hp
  obtain ⟨ne, member⟩ := (inv.once.mem_erase_iff).mp hp
  obtain ⟨c, hc, here, busy⟩ := inv.owned p member
  refine ⟨c, release_keeps_used ?_ busy, here, busy⟩
  simp only [List.append_assoc, List.singleton_append, List.mem_append, List.mem_cons] at hc ⊢
  rcases hc with hc | rfl | hc
  · exact Or.inl hc
  · exact absurd (here.trans at_.symm) ne
  · exact Or.inr hc

structure HeapInv (s : HeapRun) : Prop where
  arena : ∃ bs, ArenaInv s.arena s.heapPages s.live bs
  othersUsed : s.others ⊆ usedSet s.arena.pmm
  apart : Disjoint s.heapPages s.others

theorem taken_apart {before after : Pmm} {pages : Finset Nat} (old : pages ⊆ usedSet before) :
    Disjoint (taken before after) pages :=
  Finset.disjoint_of_subset_right old Finset.sdiff_disjoint

theorem arena_other {k : Arena} {q : Pmm} {pages : Finset Nat} {live : List Nat} {bs : List Block}
    (inv : ArenaInv k pages live bs) (marked : pages ⊆ usedSet q) :
    ArenaInv { k with pmm := q } pages live bs :=
  ⟨inv.rep, inv.layout, marked, inv.owned, inv.once⟩

theorem heap_inv_other_takes {s : HeapRun} {q : Pmm} (inv : HeapInv s)
    (more : usedSet s.arena.pmm ⊆ usedSet q) : HeapInv (otherTakes s q) := by
  obtain ⟨bs, arena⟩ := inv.arena
  refine ⟨⟨bs, arena_other arena (arena.marked.trans more)⟩, ?_, ?_⟩
  · exact Finset.union_subset (inv.othersUsed.trans more) Finset.sdiff_subset
  · exact Finset.disjoint_union_right.mpr ⟨inv.apart, (taken_apart arena.marked).symm⟩

theorem heap_inv_other_frees {s : HeapRun} {q : Pmm} {freed : Finset Nat} (inv : HeapInv s)
    (own : freed ⊆ s.others) (used : usedSet q = usedSet s.arena.pmm \ freed) :
    HeapInv { s with arena := { s.arena with pmm := q }, others := s.others \ freed } := by
  obtain ⟨bs, arena⟩ := inv.arena
  refine ⟨⟨bs, arena_other arena ?_⟩, ?_, ?_⟩
  · rw [used]
    intro x hx
    refine Finset.mem_sdiff.mpr ⟨arena.marked hx, ?_⟩
    intro gone
    exact Finset.disjoint_left.mp inv.apart hx (own gone)
  · rw [used]
    exact Finset.sdiff_subset_sdiff inv.othersUsed (Finset.Subset.refl _)
  · exact Finset.disjoint_of_subset_right Finset.sdiff_subset inv.apart

theorem heap_step_inv {s t : HeapRun} {call : HeapCall} (inv : HeapInv s)
    (guard : adjacentFrees s call) (step : heapStep s call = some t) : HeapInv t := by
  obtain ⟨bs, arena⟩ := inv.arena
  cases call with
  | kmalloc size fuel =>
    cases step
    obtain ⟨cs, after, more, _⟩ := arena_kmalloc fuel size arena
    refine ⟨⟨cs, after⟩, inv.othersUsed.trans more, ?_⟩
    exact Finset.disjoint_union_left.mpr ⟨inv.apart, taken_apart inv.othersUsed⟩
  | kfree ptr fuel =>
    simp only [heapStep] at step
    split at step
    · rename_i valid
      obtain ⟨heap, run, result⟩ := Option.map_eq_some_iff.mp step
      subst result
      by_cases own : ptr ∈ s.live
      · obtain ⟨cs, after, _⟩ := arena_kfree arena own guard run
        exact ⟨⟨cs, after⟩, inv.othersUsed, inv.apart⟩
      · have zero : ptr = 0 := by tauto
        simp only [kfree, zero, ↓reduceIte, Option.some.injEq] at run
        subst run
        rw [List.erase_of_not_mem own]
        exact ⟨⟨bs, arena⟩, inv.othersUsed, inv.apart⟩
    · cases step
  | otherAllocPage =>
    cases step
    refine heap_inv_other_takes inv ?_
    rcases pmm_alloc_page_cases s.arena.pmm with ⟨result, _⟩ | ⟨page, q, _, _, result, used, _, _⟩
    · rw [result]
    · rw [result, used]
      exact Finset.subset_insert _ _
  | otherAllocPages count =>
    cases step
    refine heap_inv_other_takes inv ?_
    rcases pmm_alloc_pages_cases s.arena.pmm count with result | ⟨first, q, _, _, _, result, used, _, _⟩
    · rw [result]
    · rw [result, used]
      exact Finset.subset_union_left
  | otherFreePage page =>
    simp only [heapStep] at step
    split at step
    · rename_i own
      cases step
      have inside := Finset.mem_range.mp (used_set_subset _ (inv.othersUsed own))
      have used := pmm_free_page_used (p := s.arena.pmm) inside
      rw [Finset.erase_eq] at used ⊢
      exact heap_inv_other_frees inv (Finset.singleton_subset_iff.mpr own) used
    · cases step
  | otherFreePages first count =>
    simp only [heapStep] at step
    split at step
    · rename_i own
      cases step
      by_cases none : count = 0
      · subst none
        have same : pmmFreePages s.arena.pmm (pageToAddr first) 0 = s.arena.pmm := rfl
        simp only [same, Nat.add_zero, Finset.Ico_self, Finset.sdiff_empty]
        exact ⟨⟨bs, arena⟩, inv.othersUsed, inv.apart⟩
      · have last := Finset.mem_range.mp (used_set_subset _ (inv.othersUsed (own
          (Finset.mem_Ico.mpr (show first ≤ first + count - 1 ∧ first + count - 1 < first + count by
            omega)))))
        exact heap_inv_other_frees inv own (pmm_free_pages_used (by omega))
    · cases step

theorem arena_blank (p : Pmm) :
    ArenaInv ⟨p, ⟨fun _ => ⟨0, false, 0⟩, 0, 0, 0, 0, 0⟩⟩ ∅ [] [] :=
  ⟨⟨rfl, by simp, rfl⟩, ⟨by simp, List.Pairwise.nil⟩, by simp, by simp, List.nodup_nil⟩

theorem heap_start_inv {s : HeapRun} (start : HeapStart s) : HeapInv s := by
  obtain ⟨p, others, old, eq⟩ := start
  obtain ⟨bs, grown, _⟩ := arena_heap_grow (arena_blank p) heapInitialPages
  have more := heap_grow_used ⟨p, ⟨fun _ => ⟨0, false, 0⟩, 0, 0, 0, 0, 0⟩⟩ heapInitialPages
  rw [eq, kmallocInit]
  rw [Finset.empty_union] at grown
  exact ⟨⟨bs, grown⟩, old.trans more, taken_apart old⟩

theorem heap_safe_of_inv {s : HeapRun} (inv : HeapInv s) : HeapSafe s := by
  obtain ⟨bs, arena⟩ := inv.arena
  have area : ∀ p ∈ s.live, ∃ b ∈ bs, p = b.addr + 32 ∧ usable s.arena.heap p = ⟨b.addr + 32, b.size⟩ := by
    intro p hp
    obtain ⟨b, hb, at_, _⟩ := arena.owned p hp
    have low := arena_small arena b hb
    simp only [Small, kernVaOffset, ram_end_eq] at low
    have header : sub64 p headerSize = b.addr := by
      rw [at_, header_size_eq, sub64_eq (by omega) (by omega)]
      omega
    exact ⟨b, hb, at_, by rw [usable, header, (arena.rep.cells b hb).2.1, at_]⟩
  refine ⟨⟨bs, arena.rep, arena.layout⟩, ?_, ?_⟩
  · refine List.Pairwise.imp_of_mem ?_ arena.once
    intro p q hp hq ne
    obtain ⟨b, hb, atB, areaB⟩ := area p hp
    obtain ⟨c, hc, atC, areaC⟩ := area q hq
    have instSymm : Std.Symm Range.Apart := ⟨fun _ _ h => apart_symm h⟩
    have split := arena.layout.apart.forall (List.mem_map_of_mem hb) (List.mem_map_of_mem hc) (by
      intro same
      have base := congrArg Range.base same
      simp only [Block.range] at base
      omega)
    rw [areaB, areaC]
    simp only [Range.Apart, Block.range] at split ⊢
    omega
  · intro p hp x inside foreign
    obtain ⟨b, hb, _, areaB⟩ := area p hp
    rw [areaB] at inside
    have mine := arena.layout.inside b.range (List.mem_map_of_mem hb) x (by
      simp only [Range.Has, Block.range] at inside ⊢
      omega)
    exact Finset.disjoint_left.mp inv.apart (owned_iff.mp mine).2 (owned_iff.mp foreign).2

theorem heap_safe_when_merges_adjacent (s : HeapRun)
    (run : Reaches HeapStart (Guarded adjacentFrees (Taken heapStep)) s) : HeapSafe s := by
  refine heap_safe_of_inv (reaches_invariant _ ?_ ?_ run)
  · intro s start
    exact heap_start_inv start
  · intro s call t inv step
    exact heap_step_inv inv step.1 step.2

/-- kmalloc_init in a kernel whose own image ends at kernelEnd. -/
def heapBoot (kernelEnd : Nat) : HeapRun :=
  ⟨kmallocInit (pmmInit kernelEnd),
    taken (pmmInit kernelEnd) (kmallocInit (pmmInit kernelEnd)).pmm, ∅, []⟩

theorem heap_boot_starts (kernelEnd : Nat) : HeapStart (heapBoot kernelEnd) :=
  ⟨pmmInit kernelEnd, ∅, Finset.empty_subset _, rfl⟩

theorem heap_safe_after_adjacent_free :
    ∃ s t, heapStep (heapBoot 0x40001000) (.kmalloc 100 4) = some s ∧
      heapStep s (.kfree 0xFFFFFF8040001020 4) = some t ∧ HeapSafe t := by
  have look : (heapStep (heapBoot 0x40001000) (.kmalloc 100 4)).any (fun s =>
        decide (Represents s.arena.heap
          [⟨0xFFFFFF8040001000, 112, false⟩, ⟨0xFFFFFF8040001090, 65360, true⟩]) &&
        (heapStep s (.kfree 0xFFFFFF8040001020 4)).isSome) = true := by decide +kernel
  obtain ⟨s, first, found⟩ := (Option.any_eq_true _ _).mp look
  rw [Bool.and_eq_true, decide_eq_true_eq] at found
  obtain ⟨t, second⟩ := Option.isSome_iff_exists.mp found.2
  have adjacent : MergesAdjacent s.arena.heap 0xFFFFFF8040001020 := by
    intro pre b post rep at_
    have shape := represents_unique rep found.1
    cases pre with
    | nil =>
      simp only [List.nil_append, List.singleton_append, List.cons.injEq] at shape
      obtain ⟨rfl, rfl⟩ := shape
      simp [Adjoins]
    | cons c pre =>
      have member : b ∈ pre ++ [b] ++ post := by simp
      have rest : pre ++ [b] ++ post = [⟨0xFFFFFF8040001090, 65360, true⟩] := by
        simpa using (List.cons.inj shape).2
      rw [rest, List.mem_singleton] at member
      rw [member] at at_
      exact absurd at_ (by decide)
  refine ⟨s, t, first, second, heap_safe_when_merges_adjacent t ?_⟩
  have called : Guarded adjacentFrees (Taken heapStep) (heapBoot 0x40001000) (.kmalloc 100 4) s :=
    ⟨trivial, first⟩
  have freed : Guarded adjacentFrees (Taken heapStep) s (.kfree 0xFFFFFF8040001020 4) t :=
    ⟨adjacent, second⟩
  exact Reaches.next (Reaches.next (Reaches.start (heap_boot_starts _)) called) freed

theorem kfree_heap_pages {s t : HeapRun} {ptr fuel : Nat}
    (step : heapStep s (.kfree ptr fuel) = some t) : t.heapPages = s.heapPages := by
  simp only [heapStep] at step
  split at step
  · obtain ⟨heap, _, same⟩ := Option.map_eq_some_iff.mp step
    rw [← same]
  · cases step

/-- kfree takes list neighbours for memory neighbours. Here the rest of the kernel
   holds the page between the first sixteen pages and those the heap grows by, and
   freeing the allocation of 65536 bytes puts that page inside a heap block. -/
theorem kfree_swallows_foreign_page : ∃ s, Reaches HeapStart (Taken heapStep) s ∧ ¬ HeapSafe s := by
  have look : (runActions heapStep (heapBoot 0x40000000)
      [.otherAllocPage, .kmalloc 65536 3, .kfree 0xFFFFFF8040011020 3]).any (fun s =>
        decide (Represents s.arena.heap [⟨0xFFFFFF8040000000, 135136, true⟩])) = true := by
    decide +kernel
  obtain ⟨s, run, found⟩ := (Option.any_eq_true _ _).mp look
  refine ⟨s, reaches_of_actions (Reaches.start (heap_boot_starts _)) run, ?_⟩
  intro safe
  obtain ⟨bs, rep, layout⟩ := safe.blocks
  rw [represents_unique rep (of_decide_eq_true found)] at layout
  have inside := layout.inside ⟨0xFFFFFF8040000000, 135168⟩ (by simp [Block.range])
    0xFFFFFF8040010000 (by simp [Range.Has])
  have member : 16 ∈ s.heapPages := (owned_iff.mp inside).2
  -- the heap never obtained page 16: it was free after kmalloc_init, in use before the growth
  have pages : s.heapPages = (heapBoot 0x40000000).heapPages ∪
      taken (pmmAllocPage (heapBoot 0x40000000).arena.pmm).2
        (kmalloc 3 ⟨(pmmAllocPage (heapBoot 0x40000000).arena.pmm).2,
          (heapBoot 0x40000000).arena.heap⟩ 65536).2.pmm := by
    obtain ⟨s1, first, run1⟩ := Option.bind_eq_some_iff.mp run
    obtain ⟨s2, second, run2⟩ := Option.bind_eq_some_iff.mp run1
    obtain ⟨s3, third, done⟩ := Option.bind_eq_some_iff.mp run2
    have last : s3 = s := Option.some.inj done
    rw [← last, kfree_heap_pages third, ← Option.some.inj second, ← Option.some.inj first]
    rfl
  have free : bitTest (heapBoot 0x40000000).arena.pmm.bitmap 16 = false := by decide +kernel
  have given : bitTest (pmmAllocPage (heapBoot 0x40000000).arena.pmm).2.bitmap 16 = true := by
    decide +kernel
  rw [pages, Finset.mem_union] at member
  rcases member with early | late
  · have set := (mem_used_set.mp (Finset.mem_sdiff.mp early).1).2
    exact Bool.noConfusion (free.symm.trans set)
  · refine (Finset.mem_sdiff.mp late).2 (mem_used_set.mpr ⟨?_, given⟩)
    rw [total_pages_eq]
    decide

end Archarch.KernelHeap
