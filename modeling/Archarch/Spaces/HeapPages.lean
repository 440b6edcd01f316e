import Archarch.Spaces.HeapCalls

/- Growing the heap of one task. The break moves by bytes and the loop maps whole pages from
   the next page boundary on, so a call relies on the page of the old break being mapped.
   sched_fork copies the break of the parent and not the page it lies in. -/
namespace Archarch.AddressSpaces
open ByteMemory TranslationTables PageFrames LabelledRuns

/-- A call with a positive increment that does not wrap, and succeeds. -/
structure GrowCall (s : System) (n : Nat) (increment : BitVec 64) : Prop where
  positive : increment ≠ 0
  small : (s.tasks n).heapBreak + increment.toNat < 2 ^ 64
  success : (sysSbrk s n increment).1 ≠ -1#64

instance (s : System) (n : Nat) (increment : BitVec 64) : Decidable (GrowCall s n increment) :=
  decidable_of_iff (increment ≠ 0 ∧ (s.tasks n).heapBreak + increment.toNat < 2 ^ 64 ∧
    (sysSbrk s n increment).1 ≠ -1#64) ⟨fun h => ⟨h.1, h.2.1, h.2.2⟩, fun h => ⟨h.positive, h.small, h.success⟩⟩

/-- Task n makes such calls only; other tasks may do anything. -/
def GrowsOnly (n : Nat) (s : System) : Action → Prop
  | .sbrk current increment => current = n → GrowCall s n increment
  | _ => True

instance (n : Nat) (s : System) (action : Action) : Decidable (GrowsOnly n s action) :=
  match action with
  | .sbrk current increment => inferInstanceAs (Decidable (current = n → GrowCall s n increment))
  | .createUser _ | .fork _ | .exit _ | .store _ _ _ => isTrue trivial

/-- The state right after task n was made. -/
structure JustMade (kernelEnd : Nat) (s : System) (n : Nat) : Prop where
  made : ∃ before action, Ran kernelEnd before ∧ systemStep before action = some s ∧
    before.numTasks = n
  low : n < s.numTasks

abbrev GrownFrom (s0 : System) (n : Nat) : System → Prop :=
  Reaches (· = s0) (Guarded (GrowsOnly n) (Taken systemStep))

/-- A call from s that returns r and leaves t, when the break was that of s0 at first. -/
structure GrowthCorrect (s0 s : System) (n : Nat) (increment r : BitVec 64) (t : System) : Prop where
  returned : r.toNat = (s.tasks n).heapBreak
  advanced : (t.tasks n).heapBreak = (s.tasks n).heapBreak + increment.toNat
  mapped : ∀ va, (s0.tasks n).heapBreak ≤ va → va < (t.tasks n).heapBreak → (pageAt t n va).isSome
  distinct : ∀ va wa a, pageAt t n va = some a → pageAt t n wa = some a → va / 4096 = wa / 4096
  zero : ∀ va a, pageAt s n va = none → pageAt t n va = some a →
    ∀ o, o < 4096 → t.phys.mem (a + o) = 0
  kept : ∀ va a, pageAt s n va = some a → pageAt t n va = some a ∧
    ∀ o, o < 4096 → t.phys.mem (a + o) = s.phys.mem (a + o)
  guard : ∀ va, userVaGuard ≤ va → va < userVaGuard + pageSize → pageAt t n va = none

/-- The page of the first break is mapped, or the break is at its start. -/
def FirstPage (s0 : System) (n : Nat) : Prop :=
  (s0.tasks n).heapBreak % pageSize = 0 ∨ (pageAt s0 n (s0.tasks n).heapBreak).isSome

/-- No page that the call maps is mapped already. -/
def FreshRange (s : System) (n : Nat) (increment : BitVec 64) : Prop :=
  ∀ va, heapStart s n ≤ va → va < pageAlignUp (newBreak s n increment) → pageAt s n va = none

structure Growing (s0 : System) (n : Nat) (s : System) : Prop where
  low : n < s.numTasks
  user : (s.tasks n).isUser = true
  lower : (s0.tasks n).heapBreak ≤ (s.tasks n).heapBreak
  first : ∀ va, va < heapStart s0 n → pageAt s n va = pageAt s0 n va
  mapped : ∀ va, heapStart s0 n ≤ va → va < heapStart s n → (pageAt s n va).isSome
  guard : ∀ va, userVaGuard ≤ va → va < userVaGuard + pageSize → pageAt s n va = none

section Calls
variable {kernelEnd reserved n j : Nat} {s0 s t : System} {increment r : BitVec 64} {u : Phys}

theorem grow_call_accepted (call : GrowCall s n increment) : Accepted s n increment := by
  by_contra refused
  rcases (sys_sbrk_refused refused).2 with minus | ⟨zero, _⟩
  · exact call.success minus
  · exact call.positive zero

theorem grow_call_break (call : GrowCall s n increment) :
    newBreak s n increment = (s.tasks n).heapBreak + increment.toNat := Nat.mod_eq_of_lt call.small

theorem grow_call_called (inv : SpacesInv reserved s) (low : n < s.numTasks) (ready : HeapReady s n)
    (call : GrowCall s n increment) (result : sysSbrk s n increment = (r, t)) :
    ∃ u, Called reserved s n increment r t false (heapPages s n increment) u := by
  obtain ⟨failed, j, u, called⟩ := sys_sbrk_called inv low ready (grow_call_accepted call) result
  have success := call.success
  rw [result] at success
  cases failed with
  | true => exact absurd (called.failure rfl).1 success
  | false =>
    obtain ⟨rfl, _⟩ := called.looped.whole rfl
    exact ⟨u, called⟩

theorem in_range_iff (ready : HeapReady s n) (accepted : Accepted s n increment) (va : Nat) :
    (∃ i, i < heapPages s n increment ∧ va / 4096 = heapStart s n / 4096 + i) ↔
      heapStart s n ≤ va ∧ va < pageAlignUp (newBreak s n increment) := by
  have start := heap_start_eq ready
  have finish := heap_end_eq accepted
  rw [heapPages, page_size_eq]
  constructor
  · rintro ⟨i, bound, here⟩
    omega
  · rintro ⟨first, last⟩
    exact ⟨va / 4096 - heapStart s n / 4096, by omega, by omega⟩

theorem grown_inside (ready : HeapReady s n) (accepted : Accepted s n increment)
    (called : Called reserved s n increment r t false (heapPages s n increment) u) {va : Nat}
    (first : heapStart s n ≤ va) (last : va < pageAlignUp (newBreak s n increment)) :
    ∃ page, page ∉ usedSet s.phys.pmm ∧ pageAt t n va = some (pageToAddr page) ∧
      ∀ o, o < 4096 → t.phys.mem (pageToAddr page + o) = 0 := by
  obtain ⟨i, bound, here⟩ := (in_range_iff ready accepted va).mpr ⟨first, last⟩
  obtain ⟨page, fresh, _, found, zero⟩ := called_new_page ready accepted called bound here
  exact ⟨page, fresh, found, zero⟩

theorem grown_outside (ready : HeapReady s n) (accepted : Accepted s n increment)
    (called : Called reserved s n increment r t false (heapPages s n increment) u) {va : Nat}
    (outside : ¬ (heapStart s n ≤ va ∧ va < pageAlignUp (newBreak s n increment))) :
    pageAt t n va = pageAt s n va := by
  apply called_other_page ready accepted called
  rintro i bound ⟨_, here⟩
  exact outside ((in_range_iff ready accepted va).mp ⟨i, bound, here⟩)

theorem grown_heap_start (called : Called reserved s n increment r t false j u) :
    heapStart t n = pageAlignUp (newBreak s n increment) := by
  rw [heapStart, (called.success rfl).2, Function.update_self]

theorem growing_untouched (same : Untouched s t n) (growing : Growing s0 n s) : Growing s0 n t := by
  obtain ⟨finished, slot⟩ := same.slot
  have start : heapStart t n = heapStart s n := by rw [heapStart, heapStart, slot]
  have root : roots t n = some (s.tasks n).ttbr0 := by
    rw [same.root]
    exact roots_some.mpr ⟨growing.low, growing.user, rfl⟩
  obtain ⟨low, user, _⟩ := roots_some.mp root
  refine ⟨low, user, ?_, ?_, ?_, ?_⟩
  · rw [slot]
    exact growing.lower
  · intro va bound
    rw [untouched_page_at same]
    exact growing.first va bound
  · intro va first last
    rw [untouched_page_at same]
    rw [start] at last
    exact growing.mapped va first last
  · intro va first last
    rw [untouched_page_at same]
    exact growing.guard va first last

theorem growing_called (ready : HeapReady s n) (ready0 : HeapReady s0 n) (call : GrowCall s n increment)
    (called : Called reserved s n increment r t false (heapPages s n increment) u)
    (growing : Growing s0 n s) : Growing s0 n t := by
  have accepted := grow_call_accepted call
  have finish := grown_heap_start called
  have lower := growing.lower
  have below := accepted.below
  have advance := grow_call_break call
  have start := heap_start_eq ready
  have start0 := heap_start_eq ready0
  have top := heap_end_eq accepted
  rw [user_va_guard_eq] at below
  refine ⟨by rw [called.count]; exact growing.low, ?_, ?_, ?_, ?_, ?_⟩
  · rw [(called_slot called n).1]
    exact growing.user
  · rw [(called.success rfl).2, Function.update_self]
    show _ ≤ newBreak s n increment
    omega
  · intro va bound
    rw [grown_outside ready accepted called (by omega)]
    exact growing.first va bound
  · intro va first last
    rw [finish] at last
    by_cases inside : heapStart s n ≤ va
    · obtain ⟨page, _, found, _⟩ := grown_inside ready accepted called inside last
      rw [found]
      rfl
    · rw [grown_outside ready accepted called (by omega)]
      exact growing.mapped va first (by omega)
  · intro va first last
    rw [user_va_guard_eq] at first
    rw [grown_outside ready accepted called (by omega)]
    exact growing.guard va (by rw [user_va_guard_eq]; exact first) last

theorem just_made_ran (made : JustMade kernelEnd s0 n) : Ran kernelEnd s0 := by
  obtain ⟨before, action, run, step, _⟩ := made.made
  exact Reaches.next run step

theorem growing_start (made : JustMade kernelEnd s0 n) : Growing s0 n s0 := by
  obtain ⟨before, action, run, step, rfl⟩ := made.made
  rcases step_new_task (ran_inv run) (ran_ready run) step made.low with
    old | ⟨_, codePages, heapBreak, _, _, codeFirst, stackFirst, pgd, _, new⟩
  · exact absurd old (Nat.lt_irrefl _)
  · refine ⟨made.low, ?_, Nat.le_refl _, fun _ _ => rfl, ?_, ?_⟩
    · rw [new.tasks, Function.update_self]
    · intro va first last
      omega
    · intro va first last
      rw [spawned_page_at new]
      split
      · rename_i inside
        cases found : imagePage (pageToAddr codeFirst) codePages (pageToAddr stackFirst) (leafPath va) with
        | none => rfl
        | some a =>
          rw [user_va_guard_eq] at first
          rw [user_va_guard_eq, page_size_eq] at last
          rcases image_page_only inside found with ⟨p, _, here⟩ | ⟨p, _, here⟩ <;> omega
      · rfl

theorem growing_run (made : JustMade kernelEnd s0 n) (grown : GrownFrom s0 n s) :
    Ran kernelEnd s ∧ Growing s0 n s := by
  refine reaches_invariant (fun s => Ran kernelEnd s ∧ Growing s0 n s) ?_ ?_ grown
  · rintro s rfl
    exact ⟨just_made_ran made, growing_start made⟩
  · rintro s action t ⟨run, growing⟩ ⟨only, step⟩
    have inv := ran_inv run
    have ready := ran_ready run
    refine ⟨Reaches.next run step, ?_⟩
    by_cases mine : ∃ increment, action = .sbrk n increment
    · obtain ⟨increment, rfl⟩ := mine
      have call : GrowCall s n increment := only rfl
      obtain ⟨_, ⟨_, refused⟩ | ⟨_, here, r, _, _, _, result, _⟩⟩ := sbrk_step inv ready step
      · exact absurd (grow_call_accepted call) refused
      · obtain ⟨u, called⟩ := grow_call_called inv growing.low here call result
        have made0 := growing_start made
        exact growing_called here (ran_ready (just_made_ran made) n made0.low made0.user) call called growing
    · have same := step_untouched inv ready growing.low step fun increment called => mine ⟨increment, called⟩
      exact growing_untouched same growing

end Calls
theorem sbrk_growth_correct_iff (kernelEnd : Nat) (s0 s t : System) (n : Nat)
    (made : JustMade kernelEnd s0 n) (grown : GrownFrom s0 n s) (increment r : BitVec 64)
    (call : GrowCall s n increment) (result : sysSbrk s n increment = (r, t)) :
    GrowthCorrect s0 s n increment r t ↔ FirstPage s0 n ∧ FreshRange s n increment := by
  obtain ⟨run, growing⟩ := growing_run made grown
  have inv := ran_inv run
  have ready := ran_ready run n growing.low growing.user
  have made0 := growing_start made
  have ready0 := ran_ready (just_made_ran made) n made0.low made0.user
  have accepted := grow_call_accepted call
  obtain ⟨u, called⟩ := grow_call_called inv growing.low ready call result
  have after := growing_called ready ready0 call called growing
  have heapBreak : (t.tasks n).heapBreak = (s.tasks n).heapBreak + increment.toNat := by
    rw [(called.success rfl).2, Function.update_self, ← grow_call_break call]
  have positive : 0 < increment.toNat := by
    have := call.positive
    bv_omega
  have lower := growing.lower
  have start0 := heap_start_eq ready0
  constructor
  · intro correct
    constructor
    · by_cases aligned : (s0.tasks n).heapBreak % pageSize = 0
      · exact Or.inl aligned
      · refine Or.inr ?_
        rw [page_size_eq] at aligned
        rw [← after.first _ (by omega)]
        exact correct.mapped _ (Nat.le_refl _) (by omega)
    · intro va first last
      cases found : pageAt s n va with
      | none => rfl
      | some a =>
        -- a page mapped before would have been replaced by one that was free
        obtain ⟨page, fresh, there, _⟩ := grown_inside ready accepted called first last
        rw [(correct.kept va a found).1] at there
        cases there
        obtain ⟨other, same, used, _⟩ := inv.trees.owned n _ _ (page_at_occurs found).2
        rw [← page_to_addr_injective same] at used
        exact absurd used fresh
  · rintro ⟨firstPage, free⟩
    have after' := spaces_inv_sbrk inv growing.low result
    refine ⟨?_, heapBreak, ?_, ?_, ?_, ?_, after.guard⟩
    · have low := ready.low
      rw [(called.success rfl).1, BitVec.toNat_ofNat, Nat.mod_eq_of_lt (by omega)]
    · intro va first last
      by_cases below : va < heapStart s0 n
      · rw [after.first va below, page_at_congr (show va / 4096 = (s0.tasks n).heapBreak / 4096 by omega)]
        refine firstPage.resolve_left ?_
        rw [page_size_eq]
        omega
      · refine after.mapped va (by omega) ?_
        have small : (t.tasks n).heapBreak < 2 ^ 63 := by
          have below := accepted.below
          rw [user_va_guard_eq, grow_call_break call] at below
          omega
        rw [heapStart, page_align_up_eq small]
        omega
    · intro va wa a first second
      obtain ⟨low, here⟩ := page_at_occurs first
      obtain ⟨low', there⟩ := page_at_occurs second
      obtain ⟨_, same⟩ := after'.trees.unique n n _ _ a here there
      exact leaf_path_eq low low' same
    · intro va a none found
      by_cases inside : heapStart s n ≤ va ∧ va < pageAlignUp (newBreak s n increment)
      · obtain ⟨page, _, there, zero⟩ := grown_inside ready accepted called inside.1 inside.2
        rw [there] at found
        cases found
        exact zero
      · rw [grown_outside ready accepted called inside, none] at found
        cases found
    · intro va a found
      refine ⟨?_, fun o small => called_bytes inv called found small⟩
      rw [grown_outside ready accepted called]
      · exact found
      · rintro ⟨first, last⟩
        rw [free va first last] at found
        cases found

theorem second_growth_correct : ∃ s0 s t r, JustMade 0x40001000 s0 1 ∧ GrownFrom s0 1 s ∧
    sysSbrk s 1 0x1000 = (r, t) ∧ (t.tasks 1).heapBreak = 0x406001 ∧
    GrowthCorrect s0 s 1 0x1000 r t := by
  have look : (systemStep (freshSystem 0x40001000) (.createUser emptyImage)).any (fun s0 =>
      decide (1 < s0.numTasks ∧ (s0.tasks 1).heapBreak % pageSize = 0) &&
        (runActions (allowed (GrowsOnly 1) systemStep) s0 [.sbrk 1 1]).any fun s =>
          decide (GrowCall s 1 0x1000 ∧ heapStart s 1 = 0x406000 ∧ newBreak s 1 0x1000 = 0x406001 ∧
            pageAt s 1 0x406000 = none)) = true := by
    decide +kernel
  obtain ⟨s0, step, found⟩ := (Option.any_eq_true _ _).mp look
  obtain ⟨first, rest⟩ := (Bool.and_eq_true _ _).mp found
  obtain ⟨low, aligned⟩ := of_decide_eq_true first
  obtain ⟨s, run, last⟩ := (Option.any_eq_true _ _).mp rest
  obtain ⟨call, start, finish, free⟩ := of_decide_eq_true last
  have made : JustMade 0x40001000 s0 1 :=
    ⟨⟨_, _, Reaches.start (fresh_system_booted (by decide) (by decide)), step, rfl⟩, low⟩
  have grown : GrownFrom s0 1 s := reaches_of_allowed (Reaches.start rfl) run
  rcases result : sysSbrk s 1 0x1000 with ⟨r, t⟩
  have fresh : FreshRange s 1 0x1000 := by
    intro va low high
    rw [start] at low
    rw [finish, show pageAlignUp 0x406001 = 0x407000 by decide] at high
    rw [page_at_congr (show va / 4096 = 0x406000 / 4096 by omega)]
    exact free
  have correct := (sbrk_growth_correct_iff 0x40001000 s0 s t 1 made grown 0x1000 r call result).mpr
    ⟨Or.inl aligned, fresh⟩
  refine ⟨s0, s, t, r, made, grown, result, ?_, correct⟩
  rw [correct.advanced, ← grow_call_break call]
  exact finish

/-- The child of a task with one byte of heap: its break lies in a page that is not mapped,
    and its first call does not map this page either. -/
theorem growth_after_fork_incorrect : ∃ s0 t r, JustMade 0x40001000 s0 2 ∧ GrowCall s0 2 1 ∧
    sysSbrk s0 2 1 = (r, t) ∧ ¬ GrowthCorrect s0 s0 2 1 r t := by
  have look : (runActions systemStep (freshSystem 0x40001000) [.createUser emptyImage, .sbrk 1 1]).any
      (fun s => decide (s.numTasks = 2) && (systemStep s (.fork 1)).any fun s0 =>
        decide (2 < s0.numTasks ∧ GrowCall s0 2 1 ∧ (s0.tasks 2).heapBreak = 0x405001 ∧
          ((sysSbrk s0 2 1).2.tasks 2).heapBreak = 0x405002 ∧
          pageAt (sysSbrk s0 2 1).2 2 0x405001 = none)) = true := by
    decide +kernel
  obtain ⟨s, run, found⟩ := (Option.any_eq_true _ _).mp look
  obtain ⟨first, rest⟩ := (Bool.and_eq_true _ _).mp found
  obtain ⟨s0, step, last⟩ := (Option.any_eq_true _ _).mp rest
  obtain ⟨low, call, start, finish, hole⟩ := of_decide_eq_true last
  have made : JustMade 0x40001000 s0 2 :=
    ⟨⟨s, _, ran_of_actions (by decide) (by decide) run, step, of_decide_eq_true first⟩, low⟩
  refine ⟨s0, (sysSbrk s0 2 1).2, (sysSbrk s0 2 1).1, made, call, rfl, ?_⟩
  intro correct
  have mapped := correct.mapped 0x405001 (by rw [start]) (by rw [finish]; decide)
  rw [hole] at mapped
  cases mapped

end Archarch.AddressSpaces
