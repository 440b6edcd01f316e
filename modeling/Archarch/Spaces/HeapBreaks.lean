import Archarch.Spaces.HeapCalls

/- Where the break of a task can go. SYS_SBRK checks new_break from above only, so a call
   moves the break back as readily as forward, while the pages it leaves stay mapped. -/
namespace Archarch.AddressSpaces
open ByteMemory TranslationTables PageFrames LabelledRuns

def imageEnd (s : System) (n : Nat) : Nat := userVaCode + (s.tasks n).codePages * pageSize

/-- A system with the highest break that each task has had. -/
structure Watched where
  system : System
  high : Nat → Nat

def watch (w : Watched) (t : System) : Watched where
  system := t
  high n := if n < w.system.numTasks then max (w.high n) (t.tasks n).heapBreak else (t.tasks n).heapBreak

def watchedStep (w : Watched) (action : Action) : Option Watched :=
  (systemStep w.system action).map (watch w)

/-- A call that is accepted does not take the break back behind the image, and has pages to
    map only where the break has been highest. -/
def KeepsUp (w : Watched) : Action → Prop
  | .sbrk n increment => imageEnd w.system n < userVaGuard → Accepted w.system n increment →
      imageEnd w.system n ≤ newBreak w.system n increment ∧
        (pageAlignUp (newBreak w.system n increment) ≤ heapStart w.system n ∨
          pageAlignUp (w.high n) ≤ heapStart w.system n)
  | _ => True

instance (w : Watched) (action : Action) : Decidable (KeepsUp w action) := by
  cases action <;> unfold KeepsUp <;> infer_instance

/-- The pages of a task lie below its highest break or behind the guard page. When no page
    is left, none will be mapped any more. -/
structure InRegion (w : Watched) (n : Nat) : Prop where
  code : 0 < (w.system.tasks n).codePages
  lower : imageEnd w.system n ≤ (w.system.tasks n).heapBreak
  highest : (w.system.tasks n).heapBreak ≤ w.high n
  upper : w.high n < userVaGuard
  tables : ∀ b, b = 2 ∨ b = 3 → ∃ c, Occurs (roots w.system) w.system.phys.mem n [0, b] c
  mapped : freeCount w.system.phys.pmm = 0 ∨ ∀ va a, pageAt w.system n va = some a →
    va < pageAlignUp (w.high n) ∨ userVaGuard + pageSize ≤ va

structure RegionInv (reserved : Nat) (w : Watched) : Prop where
  spaces : SpacesInv reserved w.system
  ready : AllReady w.system
  region : ∀ n, n < w.system.numTasks → (w.system.tasks n).isUser = true →
    imageEnd w.system n < userVaGuard → InRegion w n

section Steps
variable {w : Watched} {s t : System} {n reserved j : Nat} {increment r : BitVec 64} {u : Phys}

theorem free_count_mono {p q : Pmm} (grown : usedSet p ⊆ usedSet q) : freeCount q ≤ freeCount p := by
  have := Finset.card_le_card grown
  rw [freeCount, freeCount]
  omega

theorem step_used {action : Action} (inv : SpacesInv reserved s) (ready : AllReady s)
    (step : systemStep s action = some t) : usedSet s.phys.pmm ⊆ usedSet t.phys.pmm := by
  cases action with
  | createUser image =>
    cases step
    rcases sched_create_user_spec (show schedCreateUser s image = (_, _) from rfl) with ⟨_, not⟩ | ⟨_, _, _, _, new⟩
    · exact not.preserves.used (Finset.Subset.refl _)
    · exact new.preserves.used (Finset.Subset.refl _)
  | fork current =>
    simp only [systemStep] at step
    split at step
    · cases step
      rcases sched_fork_spec (show schedFork s current = (_, _) from rfl) with ⟨_, not⟩ | ⟨_, _, _, _, _, new⟩
      · exact not.preserves.used (Finset.Subset.refl _)
      · exact new.preserves.used (Finset.Subset.refl _)
    · cases step
  | sbrk current increment =>
    obtain ⟨_, ⟨rfl, _⟩ | ⟨_, _, _, _, _, _, _, called⟩⟩ := sbrk_step inv ready step
    · exact Finset.Subset.refl _
    · rw [called_used called]
      exact called.looped.grown.used
  | exit current =>
    simp only [systemStep] at step
    split at step
    · cases step
      exact Finset.Subset.refl _
    · cases step
  | store current va byte =>
    simp only [systemStep] at step
    split at step
    · obtain ⟨a, _, rfl⟩ := Option.map_eq_some_iff.mp step
      exact Finset.Subset.refl _
    · cases step

theorem called_stops_empty (ready : HeapReady s n) (low : n < s.numTasks)
    (accepted : Accepted s n increment) (lower : userVaCode ≤ (s.tasks n).heapBreak)
    (tables : ∀ b, b = 2 ∨ b = 3 → ∃ c, Occurs (roots s) s.phys.mem n [0, b] c)
    (called : Called reserved s n increment r t true j u) : freeCount t.phys.pmm = 0 := by
  obtain ⟨early, same, _, short⟩ := called.looped.stopped rfl
  have guard := accepted.below
  have below := heap_pages_below ready accepted early
  have start := heap_start_eq ready
  rw [user_va_guard_eq] at guard
  rw [user_va_code_eq] at lower
  have root : roots s n = some (s.tasks n).ttbr0 := roots_some.mpr ⟨low, accepted.user, rfl⟩
  have region : (heapStart s n + j * pageSize) / 2 ^ 21 = 2 ∨ (heapStart s n + j * pageSize) / 2 ^ 21 = 3 := by
    rw [page_size_eq]
    omega
  obtain ⟨c, here⟩ := tables _ region
  have there : hasTable u.mem (s.tasks n).ttbr0 ((heapStart s n + j * pageSize) / 2 ^ 21) = true :=
    (has_table_iff root (by omega)).mpr ⟨c, called.looped.grown.tables n _ c (by simp [levels]) here⟩
  rw [map_cost_one, if_pos there] at short
  rw [same]
  omega

theorem watch_high_old (t : System) (low : n < w.system.numTasks) :
    (watch w t).high n = max (w.high n) (t.tasks n).heapBreak := if_pos low

theorem watch_high_new (w : Watched) (t : System) :
    (watch w t).high w.system.numTasks = (t.tasks w.system.numTasks).heapBreak :=
  if_neg (Nat.lt_irrefl _)

theorem untouched_image_end (same : Untouched s t n) : imageEnd t n = imageEnd s n := by
  obtain ⟨finished, slot⟩ := same.slot
  rw [imageEnd, imageEnd, slot]

theorem in_region_untouched (low : n < w.system.numTasks) (same : Untouched w.system t n)
    (grown : usedSet w.system.phys.pmm ⊆ usedSet t.phys.pmm) (region : InRegion w n) :
    InRegion (watch w t) n := by
  obtain ⟨finished, slot⟩ := same.slot
  have heapBreak : (t.tasks n).heapBreak = (w.system.tasks n).heapBreak := by rw [slot]
  have high : (watch w t).high n = w.high n := by
    rw [watch_high_old t low, heapBreak]
    exact Nat.max_eq_left region.highest
  have bounds := region.highest
  refine ⟨?_, ?_, ?_, by rw [high]; exact region.upper, ?_, ?_⟩
  · show 0 < (t.tasks n).codePages
    rw [slot]
    exact region.code
  · show imageEnd t n ≤ (t.tasks n).heapBreak
    rw [untouched_image_end same, heapBreak]
    exact region.lower
  · rw [high]
    exact heapBreak.trans_le bounds
  · intro b here
    obtain ⟨c, found⟩ := region.tables b here
    exact ⟨c, same.tables _ c (by simp [levels]) found⟩
  · rw [high]
    refine region.mapped.imp ?_ ?_
    · intro none
      exact Nat.eq_zero_of_le_zero ((free_count_mono grown).trans_eq none)
    · intro mapped va a found
      exact mapped va a ((untouched_page_at same va).symm.trans found)

theorem in_region_unmapped {failed : Bool} (region : InRegion w n)
    (accepted : Accepted w.system n increment) (ready : HeapReady w.system n)
    (keeps : KeepsUp w (.sbrk n increment)) (fits : imageEnd w.system n < userVaGuard)
    (called : Called reserved w.system n increment r t failed j u) {i va : Nat} (bound : i < j)
    (here : va / 4096 = heapStart w.system n / 4096 + i) : pageAt w.system n va = none := by
  have within := called.looped.within
  have below := heap_pages_below ready accepted (show i < heapPages w.system n increment by omega)
  have guard := accepted.below
  have start := heap_start_eq ready
  have aligned := heap_start_aligned w.system n
  have finish := heap_end_eq accepted
  rw [user_va_guard_eq] at guard
  obtain ⟨_, back | top⟩ := keeps fits accepted
  · omega
  · rcases region.mapped with none | mapped
    · have count := called.looped.grown.count
      have cost : j ≤ mapCost w.system.phys.mem (w.system.tasks n).ttbr0 (heapStart w.system n) j :=
        Nat.le_add_right _ _
      omega
    · cases found : pageAt w.system n va with
      | none => rfl
      | some a =>
        have place := mapped va a found
        rw [user_va_guard_eq, page_size_eq] at place
        omega

theorem called_keeps_pages {failed : Bool} (region : InRegion w n)
    (accepted : Accepted w.system n increment) (ready : HeapReady w.system n)
    (keeps : KeepsUp w (.sbrk n increment)) (fits : imageEnd w.system n < userVaGuard)
    (called : Called reserved w.system n increment r t failed j u) {k va a : Nat}
    (found : pageAt w.system k va = some a) : pageAt t k va = some a := by
  rw [called_other_page ready accepted called, found]
  rintro i bound ⟨rfl, here⟩
  rw [in_region_unmapped region accepted ready keeps fits called bound here] at found
  cases found

theorem called_high {failed : Bool} (low : n < w.system.numTasks) (region : InRegion w n)
    (called : Called reserved w.system n increment r t failed j u) :
    (watch w t).high n = if failed then w.high n else max (w.high n) (newBreak w.system n increment) := by
  rw [watch_high_old t low]
  cases failed with
  | true =>
    rw [(called.failure rfl).2, if_pos rfl]
    exact Nat.max_eq_left region.highest
  | false => rw [(called.success rfl).2, Function.update_self, if_neg Bool.false_ne_true]

theorem in_region_called {failed : Bool} (low : n < w.system.numTasks) (region : InRegion w n)
    (accepted : Accepted w.system n increment) (ready : HeapReady w.system n)
    (keeps : KeepsUp w (.sbrk n increment)) (fits : imageEnd w.system n < userVaGuard)
    (called : Called reserved w.system n increment r t failed j u) : InRegion (watch w t) n := by
  have high := called_high low region called
  have upper := region.upper
  have highest := region.highest
  have lower := region.lower
  have slot := called_slot called n
  have same : imageEnd t n = imageEnd w.system n := by rw [imageEnd, imageEnd, slot.2.2.2.1]
  have tables : ∀ b, b = 2 ∨ b = 3 → ∃ c, Occurs (roots t) t.phys.mem n [0, b] c := by
    intro b here
    obtain ⟨c, found⟩ := region.tables b here
    exact ⟨c, (called_occurs called).mpr (called.looped.grown.tables n _ c (by simp [levels]) found)⟩
  have code : 0 < (t.tasks n).codePages := by
    rw [slot.2.2.2.1]
    exact region.code
  cases failed with
  | true =>
    rw [if_pos rfl] at high
    have tasks := (called.failure rfl).2
    refine ⟨code, ?_, ?_, by rw [high]; exact upper, tables, Or.inl ?_⟩
    · show imageEnd t n ≤ (t.tasks n).heapBreak
      rw [same, tasks]
      exact lower
    · rw [high]
      show (t.tasks n).heapBreak ≤ w.high n
      rw [tasks]
      exact highest
    · refine called_stops_empty ready low accepted ?_ region.tables called
      rw [imageEnd] at lower
      omega
  | false =>
    rw [if_neg Bool.false_ne_true] at high
    have heapBreak : (t.tasks n).heapBreak = newBreak w.system n increment := by
      rw [(called.success rfl).2, Function.update_self]
    have below := accepted.below
    have marked : (watch w t).high n < userVaGuard := by
      rw [high]
      exact Nat.max_lt.mpr ⟨upper, below⟩
    refine ⟨code, ?_, ?_, marked, tables, ?_⟩
    · show imageEnd t n ≤ (t.tasks n).heapBreak
      rw [same, heapBreak]
      exact (keeps fits accepted).1
    · show (t.tasks n).heapBreak ≤ _
      rw [high, heapBreak]
      exact Nat.le_max_right _ _
    · refine region.mapped.imp ?_ ?_
      · intro none
        refine Nat.eq_zero_of_le_zero ((free_count_mono ?_).trans_eq none)
        rw [watch, called_used called]
        exact called.looped.grown.used
      · intro mapped va a found
        have small : (watch w t).high n < 2 ^ 63 := by
          rw [user_va_guard_eq] at marked
          omega
        by_cases made : ∃ i, i < j ∧ va / 4096 = heapStart w.system n / 4096 + i
        · obtain ⟨i, bound, here⟩ := made
          have within := called.looped.within
          have inside := heap_pages_below ready accepted (show i < heapPages w.system n increment by omega)
          have aligned := heap_start_aligned w.system n
          rw [← heap_end_eq accepted] at inside
          have top : pageAlignUp (newBreak w.system n increment) ≤ pageAlignUp ((watch w t).high n) :=
            page_align_up_mono small (by rw [high]; exact Nat.le_max_right _ _)
          exact Or.inl (by omega)
        · have old : pageAt w.system n va = some a := by
            rw [← called_other_page ready accepted called]
            · exact found
            · rintro i bound ⟨_, here⟩
              exact made ⟨i, bound, here⟩
          refine (mapped va a old).imp_left ?_
          intro before
          exact before.trans_le (page_align_up_mono small (by rw [high]; exact Nat.le_max_left _ _))

theorem in_region_spawned {action : Action} {codePages heapBreak codeFirst stackFirst pgd : Nat}
    {loadCode loadStack : Mem → Nat → Mem}
    (region : ∀ k, k < w.system.numTasks → (w.system.tasks k).isUser = true →
      imageEnd w.system k < userVaGuard → InRegion w k)
    (origin : Origin w.system action codePages heapBreak)
    (new : Spawned w.system t codePages heapBreak loadCode loadStack codeFirst stackFirst pgd)
    (fits : imageEnd t w.system.numTasks < userVaGuard) : InRegion (watch w t) w.system.numTasks := by
  have slot : t.tasks w.system.numTasks = ⟨false, true, pgd, pageToAddr codeFirst, codePages,
      pageToAddr stackFirst, heapBreak⟩ := by
    rw [new.tasks, Function.update_self]
  have finish : imageEnd t w.system.numTasks = userVaCode + codePages * pageSize := by
    rw [imageEnd, slot]
  rw [finish] at fits
  have start : 0 < codePages ∧ userVaCode + codePages * pageSize ≤ heapBreak ∧ heapBreak < userVaGuard := by
    rcases origin with ⟨image, _, rfl, rfl⟩ | ⟨k, _, alive, user, rfl, rfl⟩
    · exact ⟨by rw [image_pages_eq]; omega, Nat.le_refl _, fits⟩
    · have parent := region k alive.1 user fits
      have highest := parent.highest
      have upper := parent.upper
      exact ⟨parent.code, parent.lower, by omega⟩
  obtain ⟨code, lower, upper⟩ := start
  have high : (watch w t).high w.system.numTasks = heapBreak := by rw [watch_high_new, slot]
  refine ⟨?_, ?_, ?_, by rw [high]; exact upper, ?_, Or.inr ?_⟩
  · show 0 < (t.tasks w.system.numTasks).codePages
    rw [slot]
    exact code
  · show imageEnd t w.system.numTasks ≤ (t.tasks w.system.numTasks).heapBreak
    rw [finish, slot]
    exact lower
  · show (t.tasks w.system.numTasks).heapBreak ≤ _
    rw [high, slot]
  · rintro b (rfl | rfl)
    · obtain ⟨last, found⟩ := @last_page_found codeIndex 0 codePages _ _ (Nat.le_refl 0)
        (by omega) rfl
      exact spawned_tables new (q := [codeIndex 0]) rfl (by
        show (lastPage codeIndex 0 codePages (codeIndex 0)).map _ = _
        rw [found]
        rfl)
    · exact spawned_tables new (q := [508]) rfl rfl
  · intro va a found
    rw [watch, spawned_page_at new] at found
    split at found
    · rename_i low
      rw [high, page_align_up_eq (by rw [user_va_guard_eq] at upper; omega), user_va_guard_eq, page_size_eq]
      rw [user_va_code_eq, page_size_eq] at lower
      rcases image_page_only low found with ⟨p, bound, here⟩ | ⟨p, bound, here⟩
      · exact Or.inl (by omega)
      · exact Or.inr (by omega)
    · cases found

theorem region_inv_step {action : Action} {v : Watched} (inv : RegionInv reserved w)
    (keeps : KeepsUp w action) (taken : watchedStep w action = some v) : RegionInv reserved v := by
  obtain ⟨t, step, rfl⟩ := Option.map_eq_some_iff.mp taken
  have grown := step_used inv.spaces inv.ready step
  refine ⟨system_step_inv inv.spaces step, all_ready_step inv.spaces inv.ready step, ?_⟩
  intro n low user fits
  rcases step_new_task inv.spaces inv.ready step low with old | ⟨rfl, _, _, _, _, _, _, _, origin, new⟩
  · by_cases call : ∃ increment, action = .sbrk n increment
    · obtain ⟨increment, rfl⟩ := call
      obtain ⟨_, ⟨same, _⟩ | ⟨accepted, ready, _, _, _, _, _, called⟩⟩ :=
        sbrk_step inv.spaces inv.ready step
      · subst same
        exact in_region_untouched old (untouched_refl _ n) grown (inv.region n old user fits)
      · have slot := called_slot called n
        have before : imageEnd w.system n < userVaGuard := by
          rw [imageEnd, ← slot.2.2.2.1]
          exact fits
        exact in_region_called old (inv.region n old accepted.user before) accepted ready keeps before called
    · have same := step_untouched inv.spaces inv.ready old step fun increment called => call ⟨increment, called⟩
      obtain ⟨finished, slot⟩ := same.slot
      refine in_region_untouched old same grown (inv.region n old ?_ ?_)
      · rw [watch, slot] at user
        exact user
      · rw [← untouched_image_end same]
        exact fits
  · exact in_region_spawned inv.region origin new fits

theorem region_inv_start {kernelEnd : Nat} (booted : Booted kernelEnd w.system) :
    RegionInv (reservedCount kernelEnd) w := by
  refine ⟨spaces_inv_start booted, all_ready_start booted, ?_⟩
  intro n low user _
  rw [booted.alone] at low
  have zero : n = 0 := by omega
  rw [zero, booted.idle] at user
  exact absurd user (by decide)

end Steps

/-- Runs whose calls all keep up. -/
def Kept (kernelEnd : Nat) : Watched → Prop :=
  Reaches (fun w => Booted kernelEnd w.system) (Guarded KeepsUp (Taken watchedStep))

theorem kept_inv {kernelEnd : Nat} {w : Watched} (run : Kept kernelEnd w) :
    RegionInv (reservedCount kernelEnd) w := by
  refine reaches_invariant _ ?_ ?_ run
  · intro w booted
    exact region_inv_start booted
  · intro w action v inv step
    exact region_inv_step inv step.1 step.2

theorem heap_break_stays_in_region (kernelEnd : Nat) (w : Watched) (run : Kept kernelEnd w) (n : Nat)
    (low : n < w.system.numTasks) (user : (w.system.tasks n).isUser = true)
    (fits : imageEnd w.system n < userVaGuard) :
    (imageEnd w.system n ≤ (w.system.tasks n).heapBreak ∧
      (w.system.tasks n).heapBreak < userVaGuard) ∧
    ∀ increment, KeepsUp w (.sbrk n increment) → ∀ k va a, pageAt w.system k va = some a →
      pageAt (sysSbrk w.system n increment).2 k va = some a := by
  have inv := kept_inv run
  have region := inv.region n low user fits
  have highest := region.highest
  have upper := region.upper
  refine ⟨⟨region.lower, by omega⟩, ?_⟩
  intro increment keeps k va a found
  by_cases accepted : Accepted w.system n increment
  · have ready := inv.ready n low user
    rcases result : sysSbrk w.system n increment with ⟨r, t⟩
    obtain ⟨failed, j, u, called⟩ := sys_sbrk_called inv.spaces low ready accepted result
    exact called_keeps_pages region accepted ready keeps fits called found
  · rw [(sys_sbrk_refused accepted).1]
    exact found

def freshWatched : Watched := ⟨freshSystem 0x40001000, fun _ => 0⟩

/-- Growth by a byte, back by the same byte and forward by more than a page. -/
theorem region_of_growing_task : ∃ w, Kept 0x40001000 w ∧ (w.system.tasks 1).heapBreak = 0x406001 ∧
    (imageEnd w.system 1 ≤ (w.system.tasks 1).heapBreak ∧ (w.system.tasks 1).heapBreak < userVaGuard) ∧
    ∀ increment, KeepsUp w (.sbrk 1 increment) → ∀ k va a, pageAt w.system k va = some a →
      pageAt (sysSbrk w.system 1 increment).2 k va = some a := by
  have look : (runActions (allowed KeepsUp watchedStep) freshWatched [.createUser emptyImage,
      .sbrk 1 2, .sbrk 1 (-1), .sbrk 1 0x1000]).any (fun w => decide (1 < w.system.numTasks ∧
        (w.system.tasks 1).isUser = true ∧ imageEnd w.system 1 < userVaGuard ∧
        (w.system.tasks 1).heapBreak = 0x406001)) = true := by
    decide +kernel
  obtain ⟨w, run, found⟩ := (Option.any_eq_true _ _).mp look
  obtain ⟨low, user, fits, heapBreak⟩ := of_decide_eq_true found
  have start : Kept 0x40001000 freshWatched :=
    Reaches.start (fresh_system_booted (by decide) (by decide))
  have reached : Kept 0x40001000 w := reaches_of_allowed start run
  exact ⟨w, reached, heapBreak, heap_break_stays_in_region 0x40001000 w reached 1 low user fits⟩

/-- One call takes the break into the image, and the next one maps another page there. -/
theorem negative_sbrk_leaves_region : ∃ s, Ran 0x40001000 s ∧ Alive s 1 ∧
    (s.tasks 1).isUser = true ∧ imageEnd s 1 < userVaGuard ∧ (s.tasks 1).heapBreak < imageEnd s 1 ∧
    ∃ a b, pageAt s 1 0x404000 = some a ∧ pageAt (sysSbrk s 1 0x1000).2 1 0x404000 = some b ∧ a ≠ b := by
  have look : (runActions systemStep (freshSystem 0x40001000) [.createUser emptyImage,
      .sbrk 1 (-0x1000)]).any (fun s => decide (Alive s 1 ∧ (s.tasks 1).isUser = true ∧
        imageEnd s 1 < userVaGuard ∧ (s.tasks 1).heapBreak < imageEnd s 1 ∧
        pageAt s 1 0x404000 = some 0x40005000 ∧
        pageAt (sysSbrk s 1 0x1000).2 1 0x404000 = some 0x4000f000)) = true := by
    decide +kernel
  obtain ⟨s, run, found⟩ := (Option.any_eq_true _ _).mp look
  obtain ⟨alive, user, fits, back, before, after⟩ := of_decide_eq_true found
  exact ⟨s, ran_of_actions (by decide) (by decide) run, alive, user, fits, back,
    0x40005000, 0x4000f000, before, after, by decide⟩

end Archarch.AddressSpaces
