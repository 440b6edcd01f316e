import Archarch.Spaces.HeapGrowth
import Archarch.Spaces.NewImages

/- SYS_SBRK on a system whose trees are in order: what a call that passes the checks does to
   the task that makes it, and what other steps leave alone. -/
namespace Archarch.AddressSpaces
open ByteMemory TranslationTables PageFrames LabelledRuns

def newBreak (s : System) (n : Nat) (increment : BitVec 64) : Nat :=
  ((s.tasks n).heapBreak + increment.toNat) % 2 ^ 64

def heapStart (s : System) (n : Nat) : Nat := pageAlignUp (s.tasks n).heapBreak

def heapPages (s : System) (n : Nat) (increment : BitVec 64) : Nat :=
  (pageAlignUp (newBreak s n increment) - heapStart s n) / pageSize

structure Accepted (s : System) (n : Nat) (increment : BitVec 64) : Prop where
  user : (s.tasks n).isUser = true
  change : increment ≠ 0
  below : newBreak s n increment < userVaGuard

instance (s : System) (n : Nat) (increment : BitVec 64) : Decidable (Accepted s n increment) :=
  decidable_of_iff ((s.tasks n).isUser = true ∧ increment ≠ 0 ∧ newBreak s n increment < userVaGuard)
    ⟨fun h => ⟨h.1, h.2.1, h.2.2⟩, fun h => ⟨h.user, h.change, h.below⟩⟩

/-- What the loop relies on: the table of the second level is there, since the stack needs
    it, and the break is low. -/
structure HeapReady (s : System) (n : Nat) : Prop where
  second : ∃ c, Occurs (roots s) s.phys.mem n [0] c
  low : (s.tasks n).heapBreak < 2 ^ 29

structure Called (reserved : Nat) (s : System) (n : Nat) (increment : BitVec 64) (r : BitVec 64)
    (t : System) (failed : Bool) (j : Nat) (u : Phys) : Prop where
  looped : Looped (Finset.range reserved) (roots s) n (s.tasks n).ttbr0 s.phys (heapStart s n)
    (heapPages s n increment) failed t.phys j u
  count : t.numTasks = s.numTasks
  failure : failed = true → r = -1#64 ∧ t.tasks = s.tasks
  success : failed = false → r = BitVec.ofNat 64 (s.tasks n).heapBreak ∧ t.tasks =
    Function.update s.tasks n { s.tasks n with heapBreak := newBreak s n increment }

section Breaks
variable {s t : System} {n : Nat} {increment r : BitVec 64} {reserved : Nat}

theorem user_va_guard_eq : userVaGuard = 0x7FB000 := rfl
theorem user_va_code_eq : userVaCode = 0x400000 := rfl

theorem page_align_up_eq {a : Nat} (low : a < 2 ^ 63) : pageAlignUp a = (a + 4095) / 4096 * 4096 := by
  rw [pageAlignUp, page_size_eq, Nat.mod_eq_of_lt (by omega)]

theorem page_align_up_mono {a b : Nat} (small : b < 2 ^ 63) (less : a ≤ b) :
    pageAlignUp a ≤ pageAlignUp b := by
  rw [page_align_up_eq small, page_align_up_eq (by omega)]
  omega

theorem heap_start_eq (ready : HeapReady s n) :
    heapStart s n = ((s.tasks n).heapBreak + 4095) / 4096 * 4096 := by
  have low := ready.low
  rw [heapStart, page_align_up_eq (by omega)]

theorem heap_end_eq (accepted : Accepted s n increment) :
    pageAlignUp (newBreak s n increment) = (newBreak s n increment + 4095) / 4096 * 4096 := by
  have below := accepted.below
  rw [user_va_guard_eq] at below
  rw [page_align_up_eq (by omega)]

theorem heap_pages_below (ready : HeapReady s n) (accepted : Accepted s n increment) {i : Nat}
    (bound : i < heapPages s n increment) :
    heapStart s n + i * 4096 + 4096 ≤ (newBreak s n increment + 4095) / 4096 * 4096 := by
  rw [heapPages, page_size_eq, heap_end_eq accepted, heap_start_eq ready] at bound
  rw [heap_start_eq ready]
  omega

theorem heap_range_low (ready : HeapReady s n) (accepted : Accepted s n increment) :
    heapStart s n + heapPages s n increment * pageSize ≤ 2 ^ 30 := by
  have low := ready.low
  have below := accepted.below
  rw [user_va_guard_eq] at below
  rw [heapPages, page_size_eq, heap_end_eq accepted, heap_start_eq ready]
  omega

theorem heap_start_aligned (s : System) (n : Nat) : heapStart s n % 4096 = 0 := by
  rw [heapStart, pageAlignUp, page_size_eq]
  omega

theorem sys_sbrk_refused (refused : ¬ Accepted s n increment) :
    (sysSbrk s n increment).2 = s ∧ ((sysSbrk s n increment).1 = -1#64 ∨
      increment = 0 ∧ (sysSbrk s n increment).1 = BitVec.ofNat 64 (s.tasks n).heapBreak) := by
  unfold sysSbrk
  dsimp only
  split
  · exact ⟨rfl, Or.inl rfl⟩
  rename_i user
  split
  · rename_i zero
    exact ⟨rfl, Or.inr ⟨zero, rfl⟩⟩
  rename_i change
  split
  · exact ⟨rfl, Or.inl rfl⟩
  rename_i below
  exact absurd ⟨by simpa using user, change, by rw [newBreak]; omega⟩ refused

theorem sys_sbrk_called (inv : SpacesInv reserved s) (alive : n < s.numTasks) (ready : HeapReady s n)
    (accepted : Accepted s n increment) (result : sysSbrk s n increment = (r, t)) :
    ∃ failed j u, Called reserved s n increment r t failed j u := by
  have below := accepted.below
  unfold sysSbrk at result
  dsimp only at result
  rw [if_neg (by simp [accepted.user]), if_neg accepted.change,
    if_neg (by rw [newBreak] at below; omega)] at result
  rcases grown : sbrkPages s.phys (s.tasks n).ttbr0 (heapStart s n) (heapPages s n increment) with
    ⟨failed, phys⟩
  have root : roots s n = some (s.tasks n).ttbr0 := roots_some.mpr ⟨alive, accepted.user, rfl⟩
  obtain ⟨c, second⟩ := ready.second
  obtain ⟨j, u, looped⟩ := sbrk_pages_grow inv.trees inv.kernel root second
    (heap_range_low ready accepted) (heap_start_aligned s n) grown
  rw [heapStart, heapPages, newBreak, heapStart] at grown
  rw [grown] at result
  refine ⟨failed, j, u, ?_⟩
  cases failed with
  | true =>
    rw [if_pos rfl] at result
    cases result
    exact ⟨looped, rfl, fun _ => ⟨rfl, rfl⟩, fun h => Bool.noConfusion h⟩
  | false =>
    dsimp only at result
    rw [if_neg Bool.false_ne_true] at result
    cases result
    exact ⟨looped, rfl, fun h => Bool.noConfusion h, fun _ => ⟨rfl, rfl⟩⟩

end Breaks

section Called
variable {s t : System} {n reserved j k va : Nat} {increment r : BitVec 64} {failed : Bool} {u : Phys}

theorem leaf_path_congr {wa : Nat} (same : va / 4096 = wa / 4096) : leafPath va = leafPath wa := by
  simp only [leafPath, List.cons.injEq, and_true]
  omega

theorem page_at_congr {wa : Nat} (same : va / 4096 = wa / 4096) : pageAt s n va = pageAt s n wa := by
  have limit : va < vaLimit ↔ wa < vaLimit := by
    rw [vaLimit]
    omega
  rw [pageAt, pageAt, leaf_path_congr same]
  simp only [limit]

theorem called_used (called : Called reserved s n increment r t failed j u) :
    usedSet t.phys.pmm = usedSet u.pmm := by
  cases failed with
  | true => rw [(called.looped.stopped rfl).2.1]
  | false => rw [(called.looped.whole rfl).2]

theorem called_memory (called : Called reserved s n increment r t failed j u) :
    Preserves (usedSet u.pmm) u t.phys := by
  cases failed with
  | true => exact (called.looped.stopped rfl).2.2.1
  | false =>
    rw [(called.looped.whole rfl).2]
    exact preserves_refl _ _

theorem called_slot (called : Called reserved s n increment r t failed j u) (k : Nat) :
    (t.tasks k).isUser = (s.tasks k).isUser ∧ (t.tasks k).ttbr0 = (s.tasks k).ttbr0 ∧
      (t.tasks k).codePa = (s.tasks k).codePa ∧ (t.tasks k).codePages = (s.tasks k).codePages ∧
      (t.tasks k).stackPa = (s.tasks k).stackPa := by
  cases failed with
  | true =>
    rw [(called.failure rfl).2]
    exact ⟨rfl, rfl, rfl, rfl, rfl⟩
  | false =>
    rw [(called.success rfl).2]
    by_cases here : k = n
    · subst here
      simp
    · simp [Function.update_of_ne here]

theorem called_roots (called : Called reserved s n increment r t failed j u) : roots t = roots s :=
  same_slots_roots ⟨called.count, called_slot called⟩

theorem called_occurs (called : Called reserved s n increment r t failed j u) {l a : Nat} {p : List Nat} :
    Occurs (roots t) t.phys.mem l p a ↔ Occurs (roots s) u.mem l p a := by
  rw [called_roots called]
  exact (trees_preserved called.looped.grown.trees (called_memory called)).2 l p a

theorem called_other_page (ready : HeapReady s n) (accepted : Accepted s n increment)
    (called : Called reserved s n increment r t failed j u)
    (other : ∀ i, i < j → ¬ (k = n ∧ va / 4096 = heapStart s n / 4096 + i)) :
    pageAt t k va = pageAt s k va := by
  refine Option.ext fun a => ?_
  rw [page_at_eq_some, page_at_eq_some]
  refine and_congr_right fun low => ?_
  rw [called_occurs called]
  refine called.looped.grown.others k _ a rfl ?_
  rintro i bound ⟨rfl, same⟩
  have within := called.looped.within
  have below := heap_pages_below ready accepted (show i < heapPages s k increment by omega)
  have guard := accepted.below
  rw [user_va_guard_eq] at guard
  refine other i bound ⟨rfl, ?_⟩
  have inside : heapStart s k + i * pageSize < vaLimit := by
    rw [page_size_eq, vaLimit]
    omega
  have pages := leaf_path_eq low inside same
  have aligned := heap_start_aligned s k
  rw [pages, page_size_eq]
  omega

theorem called_new_page (ready : HeapReady s n) (accepted : Accepted s n increment)
    (called : Called reserved s n increment r t failed j u) {i : Nat} (bound : i < j)
    (here : va / 4096 = heapStart s n / 4096 + i) :
    ∃ page, page ∉ usedSet s.phys.pmm ∧ page ∈ usedSet t.phys.pmm ∧
      pageAt t n va = some (pageToAddr page) ∧
      ∀ o, o < 4096 → t.phys.mem (pageToAddr page + o) = 0 := by
  have within := called.looped.within
  have below := heap_pages_below ready accepted (show i < heapPages s n increment by omega)
  have guard := accepted.below
  rw [user_va_guard_eq] at guard
  obtain ⟨page, fresh, found, zero⟩ := called.looped.grown.mapped i bound
  obtain ⟨other, same, used, _⟩ := called.looped.grown.trees.owned n _ _ found
  rw [← page_to_addr_injective same] at used
  have aligned := heap_start_aligned s n
  have path : leafPath va = leafPath (heapStart s n + i * pageSize) := by
    refine leaf_path_congr ?_
    rw [page_size_eq]
    omega
  refine ⟨page, fresh, by rw [called_used called]; exact used, ?_, ?_⟩
  · rw [page_at_eq_some, called_occurs called, path]
    refine ⟨?_, found⟩
    rw [vaLimit]
    omega
  · intro o small
    rw [(called_memory called).bytes page used o small]
    exact zero o small

theorem called_bytes (inv : SpacesInv reserved s)
    (called : Called reserved s n increment r t failed j u) {a o : Nat}
    (found : pageAt s k va = some a) (small : o < 4096) :
    t.phys.mem (a + o) = s.phys.mem (a + o) := by
  obtain ⟨_, here⟩ := page_at_occurs found
  obtain ⟨page, rfl, used, _⟩ := inv.trees.owned k _ a here
  rw [(called_memory called).bytes page (called.looped.grown.used used) o small]
  exact called.looped.grown.bytes page used (leaf_not_table inv.trees here rfl) o small

end Called

structure Untouched (s t : System) (n : Nat) : Prop where
  slot : ∃ finished, t.tasks n = { s.tasks n with finished := finished }
  root : roots t n = roots s n
  leaves : ∀ p c, p.length = levels →
    (Occurs (roots t) t.phys.mem n p c ↔ Occurs (roots s) s.phys.mem n p c)
  tables : ∀ p c, p.length < levels → Occurs (roots s) s.phys.mem n p c →
    Occurs (roots t) t.phys.mem n p c

section Untouched
variable {s t : System} {n reserved : Nat}

theorem untouched_of_occurs (slot : ∃ finished, t.tasks n = { s.tasks n with finished := finished })
    (root : roots t n = roots s n)
    (same : ∀ p c, Occurs (roots s) t.phys.mem n p c ↔ Occurs (roots s) s.phys.mem n p c) :
    Untouched s t n := by
  have occurs : ∀ p c, Occurs (roots t) t.phys.mem n p c ↔ Occurs (roots s) s.phys.mem n p c := by
    intro p c
    rw [← same p c, Occurs, Occurs, root]
  exact ⟨slot, root, fun p c _ => occurs p c, fun p c _ => (occurs p c).mpr⟩

theorem untouched_page_at (same : Untouched s t n) (va : Nat) : pageAt t n va = pageAt s n va := by
  refine Option.ext fun a => ?_
  rw [page_at_eq_some, page_at_eq_some, same.leaves (leafPath va) a rfl]

theorem not_spawned_untouched (inv : SpacesInv reserved s) (not : NotSpawned s t) : Untouched s t n := by
  apply untouched_of_occurs ⟨(s.tasks n).finished, by rw [not.tasks]⟩
  · rw [same_slots_roots (same_slots_of_tasks not.tasks not.count)]
  · exact (trees_preserved inv.trees not.preserves).2 n

theorem spawned_untouched {codePages heapBreak codeFirst stackFirst pgd : Nat}
    {loadCode loadStack : Mem → Nat → Mem} (inv : SpacesInv reserved s) (low : n < s.numTasks)
    (new : Spawned s t codePages heapBreak loadCode loadStack codeFirst stackFirst pgd) :
    Untouched s t n := by
  have other : n ≠ s.numTasks := by omega
  apply untouched_of_occurs ⟨(s.tasks n).finished, by rw [new.tasks, Function.update_of_ne other]⟩
  · refine Option.ext fun r => ?_
    rw [spawned_roots new, or_iff_left]
    intro found
    exact other (single_some.mp found).1
  · exact (trees_preserved inv.trees new.preserves).2 n

theorem exit_untouched (k : Nat) : Untouched s (schedExit s k) n := by
  apply untouched_of_occurs
  · by_cases here : n = k
    · subst here
      exact ⟨true, by simp [schedExit]⟩
    · exact ⟨(s.tasks n).finished, by simp [schedExit, Function.update_of_ne here]⟩
  · rw [same_slots_roots]
    refine ⟨rfl, ?_⟩
    intro l
    by_cases here : l = k
    · subst here
      simp [schedExit]
    · simp [schedExit, Function.update_of_ne here]
  · intro p c
    exact Iff.rfl

theorem store_untouched {k va : Nat} {byte : BitVec 8} (inv : SpacesInv reserved s)
    (result : userStore s k va byte = some t) : Untouched s t n := by
  obtain ⟨a, found, rfl⟩ := Option.map_eq_some_iff.mp result
  apply untouched_of_occurs
  · exact ⟨(s.tasks n).finished, rfl⟩
  · exact congrFun (same_slots_roots (same_slots_of_tasks rfl rfl)) n
  · intro p c
    exact occurs_frame fun l r q root valid =>
      forest_frame_walk (store_keeps_tables inv found) root valid

theorem called_untouched {k j : Nat} {increment r : BitVec 64} {failed : Bool} {u : Phys} (other : n ≠ k)
    (called : Called reserved s k increment r t failed j u) : Untouched s t n := by
  refine ⟨⟨(s.tasks n).finished, ?_⟩, by rw [called_roots called], ?_, ?_⟩
  · cases failed with
    | true => rw [(called.failure rfl).2]
    | false => rw [(called.success rfl).2, Function.update_of_ne other]
  · intro p c depth
    rw [called_occurs called]
    apply called.looped.grown.others n p c depth
    rintro i _ ⟨same, _⟩
    exact other same
  · intro p c short here
    rw [called_occurs called]
    exact called.looped.grown.tables n p c short here

theorem untouched_refl (s : System) (n : Nat) : Untouched s s n :=
  untouched_of_occurs ⟨(s.tasks n).finished, rfl⟩ rfl fun _ _ => Iff.rfl

def AllReady (s : System) : Prop := ∀ n, n < s.numTasks → (s.tasks n).isUser = true → HeapReady s n

theorem sbrk_step {k : Nat} {increment : BitVec 64} (inv : SpacesInv reserved s) (ready : AllReady s)
    (step : systemStep s (.sbrk k increment) = some t) : Alive s k ∧
      (t = s ∧ ¬ Accepted s k increment ∨ Accepted s k increment ∧ HeapReady s k ∧
        ∃ r failed j u, sysSbrk s k increment = (r, t) ∧ Called reserved s k increment r t failed j u) := by
  simp only [systemStep] at step
  split at step
  · rename_i alive
    rcases result : sysSbrk s k increment with ⟨r, t'⟩
    rw [result] at step
    cases step
    refine ⟨alive, ?_⟩
    by_cases accepted : Accepted s k increment
    · have before := ready k alive.1 accepted.user
      obtain ⟨failed, j, u, called⟩ := sys_sbrk_called inv alive.1 before accepted result
      exact Or.inr ⟨accepted, before, r, failed, j, u, rfl, called⟩
    · have same := (sys_sbrk_refused accepted).1
      rw [result] at same
      exact Or.inl ⟨same, accepted⟩
  · cases step

theorem step_untouched {action : Action} (inv : SpacesInv reserved s) (ready : AllReady s)
    (low : n < s.numTasks) (step : systemStep s action = some t)
    (other : ∀ increment, action ≠ .sbrk n increment) : Untouched s t n := by
  cases action with
  | createUser image =>
    cases step
    rcases sched_create_user_spec (show schedCreateUser s image = (_, _) from rfl) with ⟨_, not⟩ | ⟨_, _, _, _, new⟩
    · exact not_spawned_untouched inv not
    · exact spawned_untouched inv low new
  | fork current =>
    simp only [systemStep] at step
    split at step
    · cases step
      rcases sched_fork_spec (show schedFork s current = (_, _) from rfl) with ⟨_, not⟩ | ⟨_, _, _, _, _, new⟩
      · exact not_spawned_untouched inv not
      · exact spawned_untouched inv low new
    · cases step
  | sbrk current increment =>
    have apart : n ≠ current := by
      rintro rfl
      exact other increment rfl
    obtain ⟨_, ⟨rfl, _⟩ | ⟨_, _, _, _, _, _, _, called⟩⟩ := sbrk_step inv ready step
    · exact untouched_refl t n
    · exact called_untouched apart called
  | exit current =>
    simp only [systemStep] at step
    split at step
    · cases step
      exact exit_untouched current
    · cases step
  | store current va byte =>
    simp only [systemStep] at step
    split at step
    · exact store_untouched inv step
    · cases step

/- Readiness in runs -/

theorem ready_untouched (same : Untouched s t n) (ready : HeapReady s n) : HeapReady t n := by
  obtain ⟨c, second⟩ := ready.second
  obtain ⟨finished, slot⟩ := same.slot
  refine ⟨⟨c, same.tables _ c (by simp [levels]) second⟩, ?_⟩
  rw [slot]
  exact ready.low

theorem ready_called {j : Nat} {increment r : BitVec 64} {failed : Bool} {u : Phys}
    (ready : HeapReady s n) (accepted : Accepted s n increment)
    (called : Called reserved s n increment r t failed j u) : HeapReady t n := by
  obtain ⟨c, second⟩ := ready.second
  refine ⟨⟨c, ?_⟩, ?_⟩
  · rw [called_occurs called]
    exact called.looped.grown.tables n _ c (by simp [levels]) second
  · cases failed with
    | true =>
      rw [(called.failure rfl).2]
      exact ready.low
    | false =>
      have below := accepted.below
      rw [user_va_guard_eq] at below
      rw [(called.success rfl).2, Function.update_self]
      show newBreak s n increment < 2 ^ 29
      omega

section Spawned
variable {codePages heapBreak codeFirst stackFirst pgd : Nat} {loadCode loadStack : Mem → Nat → Mem}

theorem spawned_pages_le (new : Spawned s t codePages heapBreak loadCode loadStack codeFirst stackFirst pgd) :
    codePages ≤ totalPages := by
  by_contra large
  have last := (mem_used_set.mp (new.code (codePages - 1) (by omega))).1
  omega

theorem spawned_tables (new : Spawned s t codePages heapBreak loadCode loadStack codeFirst stackFirst pgd)
    {p q : List Nat} {c : Nat} (depth : (p ++ q).length = levels)
    (leaf : imagePage (pageToAddr codeFirst) codePages (pageToAddr stackFirst) (p ++ q) = some c) :
    ∃ a, Occurs (roots t) t.phys.mem s.numTasks p a := by
  obtain ⟨a, valid, r, here, found⟩ := occurs_prefix ((new.tree.leaves _ c depth).mpr leaf)
  exact ⟨a, valid, r, (spawned_roots new _ _).mpr (Or.inr here), found⟩

theorem ready_spawned (new : Spawned s t codePages heapBreak loadCode loadStack codeFirst stackFirst pgd)
    (low : heapBreak < 2 ^ 29) : HeapReady t s.numTasks := by
  -- the first page of the stack is mapped
  refine ⟨spawned_tables new (q := [3, 508]) rfl rfl, ?_⟩
  rw [new.tasks, Function.update_self]
  exact low

end Spawned

def Origin (s : System) (action : Action) (codePages heapBreak : Nat) : Prop :=
  (∃ image, action = .createUser image ∧ codePages = imagePages image.size ∧
      heapBreak = userVaCode + codePages * pageSize) ∨
    ∃ k, action = .fork k ∧ Alive s k ∧ (s.tasks k).isUser = true ∧
      codePages = (s.tasks k).codePages ∧ heapBreak = (s.tasks k).heapBreak

theorem not_spawned_low (not : NotSpawned s t) (low : n < t.numTasks) : n < s.numTasks := by
  rwa [not.count] at low

theorem spawned_low {codePages heapBreak codeFirst stackFirst pgd : Nat}
    {loadCode loadStack : Mem → Nat → Mem}
    (new : Spawned s t codePages heapBreak loadCode loadStack codeFirst stackFirst pgd)
    (low : n < t.numTasks) : n < s.numTasks ∨ n = s.numTasks := by
  rw [new.count] at low
  omega

theorem step_new_task {action : Action} (inv : SpacesInv reserved s) (ready : AllReady s)
    (step : systemStep s action = some t) (low : n < t.numTasks) :
    n < s.numTasks ∨ n = s.numTasks ∧ ∃ codePages heapBreak loadCode loadStack codeFirst stackFirst pgd,
      Origin s action codePages heapBreak ∧
        Spawned s t codePages heapBreak loadCode loadStack codeFirst stackFirst pgd := by
  cases action with
  | createUser image =>
    cases step
    rcases sched_create_user_spec (show schedCreateUser s image = (_, _) from rfl) with
      ⟨_, not⟩ | ⟨codeFirst, stackFirst, pgd, _, new⟩
    · exact Or.inl (not_spawned_low not low)
    · refine (spawned_low new low).imp_right ?_
      intro here
      exact ⟨here, _, _, _, _, codeFirst, stackFirst, pgd, Or.inl ⟨image, rfl, rfl, rfl⟩, new⟩
  | fork current =>
    simp only [systemStep] at step
    split at step
    · rename_i alive
      cases step
      rcases sched_fork_spec (show schedFork s current = (_, _) from rfl) with
        ⟨_, not⟩ | ⟨codeFirst, stackFirst, pgd, _, user, new⟩
      · exact Or.inl (not_spawned_low not low)
      · refine (spawned_low new low).imp_right ?_
        intro here
        exact ⟨here, _, _, _, _, codeFirst, stackFirst, pgd,
          Or.inr ⟨current, rfl, alive, user, rfl, rfl⟩, new⟩
    · cases step
  | sbrk current increment =>
    obtain ⟨_, ⟨rfl, _⟩ | ⟨_, _, _, _, _, _, _, called⟩⟩ := sbrk_step inv ready step
    · exact Or.inl low
    · rw [called.count] at low
      exact Or.inl low
  | exit current =>
    simp only [systemStep] at step
    split at step
    · cases step
      exact Or.inl low
    · cases step
  | store current va byte =>
    simp only [systemStep] at step
    split at step
    · obtain ⟨a, _, rfl⟩ := Option.map_eq_some_iff.mp step
      exact Or.inl low
    · cases step

theorem origin_low {action : Action} {codePages heapBreak : Nat} (ready : AllReady s)
    (pages : codePages ≤ totalPages) (origin : Origin s action codePages heapBreak) :
    heapBreak < 2 ^ 29 := by
  rw [total_pages_eq] at pages
  rcases origin with ⟨_, _, _, rfl⟩ | ⟨k, _, alive, user, _, rfl⟩
  · rw [user_va_code_eq, page_size_eq]
    omega
  · exact (ready k alive.1 user).low

theorem all_ready_step {action : Action} (inv : SpacesInv reserved s) (ready : AllReady s)
    (step : systemStep s action = some t) : AllReady t := by
  intro n low user
  rcases step_new_task inv ready step low with old | ⟨rfl, _, _, _, _, _, _, _, origin, new⟩
  · by_cases call : ∃ increment, action = .sbrk n increment
    · obtain ⟨increment, rfl⟩ := call
      obtain ⟨_, ⟨rfl, _⟩ | ⟨accepted, before, _, _, _, _, _, called⟩⟩ := sbrk_step inv ready step
      · exact ready n old user
      · exact ready_called before accepted called
    · have same := step_untouched inv ready old step fun increment called => call ⟨increment, called⟩
      obtain ⟨finished, slot⟩ := same.slot
      rw [slot] at user
      exact ready_untouched same (ready n old user)
  · exact ready_spawned new (origin_low ready (spawned_pages_le new) origin)

theorem all_ready_start {kernelEnd : Nat} (booted : Booted kernelEnd s) : AllReady s := by
  intro n low user
  rw [booted.alone] at low
  have zero : n = 0 := by omega
  rw [zero, booted.idle] at user
  exact absurd user (by decide)

theorem ran_ready {kernelEnd : Nat} (run : Ran kernelEnd s) : AllReady s := by
  have both : SpacesInv (reservedCount kernelEnd) s ∧ AllReady s := by
    refine reaches_invariant (fun s => SpacesInv (reservedCount kernelEnd) s ∧ AllReady s) ?_ ?_ run
    · intro s booted
      exact ⟨spaces_inv_start booted, all_ready_start booted⟩
    · intro s action t inv step
      exact ⟨system_step_inv inv.1 step, all_ready_step inv.1 inv.2 step⟩
  exact both.2

end Untouched
end Archarch.AddressSpaces
