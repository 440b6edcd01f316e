import Mathlib.Tactic.IntervalCases
import Archarch.Tasks.SwitchSafety
import Archarch.Tasks.Waiting

/- When sched_wait returns 0, the task waited for should have finished: over runs in which the
   timer interrupts the boot thread anywhere. Besides a signal, a tick behind pick_next breaks
   it: the choice is switched to when the interrupted yield goes on, whatever that task does by
   then. -/
namespace Archarch.Scheduling
open LabelledRuns

/-- pick_next has chosen, and the switch to the choice is still to come. -/
def HasChosen : Inside → Prop
  | .outside | .creating _ _ _ | .scanning _ | .looking _ _ => False
  | _ => True

instance (place : Inside) : Decidable (HasChosen place) :=
  match place with
  | .outside | .creating _ _ _ | .scanning _ | .looking _ _ => isFalse id
  | .picked _ | .checked _ _ | .left _ _ | .entered _ _ | .moved _ _ | .mapped _ _ => isTrue trivial

/-- A step with the record of what the last one let go on cleared. -/
def waitStep (m : Core) (event : CoreEvent) : Option Core :=
  coreStep { m with sched := { m.sched with resumed := none } } event

/-- The sched_wait that returns 0 to a thread in this state, if any, tells the truth. -/
def WaitHonest (m : Core) : Prop :=
  m.exec ≠ none → ∀ tid, m.sched.resumed = some (.waiting tid) → m.sched.state tid = .finished

/-- The calls that the tasks make: the idle loop neither waits nor exits. -/
def sensible (m : Core) : CoreEvent → Prop
  | .call c => callable m.sched c
  | _ => True

/-- No early signal, and no tick behind a choice. -/
def undisturbed (m : Core) : CoreEvent → Prop
  | .call c => callable m.sched c ∧ noEarlyWake m.sched c
  | .tick => ∀ thread ∈ m.exec, ¬ HasChosen (m.inside thread)
  | _ => True

instance (m : Core) (event : CoreEvent) : Decidable (sensible m event) :=
  match event with
  | .call c => inferInstanceAs (Decidable (callable m.sched c))
  | .beginCreate _ | .beginYield | .proceed | .tick => isTrue trivial

instance (m : Core) (event : CoreEvent) : Decidable (undisturbed m event) :=
  match event with
  | .call c => inferInstanceAs (Decidable (callable m.sched c ∧ noEarlyWake m.sched c))
  | .tick => decidable_of_iff ((m.exec.all fun thread => !decide (HasChosen (m.inside thread))) = true)
      (by cases exec : m.exec <;> simp [undisturbed, exec])
  | .beginCreate _ | .beginYield | .proceed => isTrue trivial

/-- A slot that is taken before its link register has been stored: a switch to it jumps to 0. -/
def Unmade (inside : Nat → Inside) (i : Nat) : Prop :=
  ∃ t pgd done, inside t = .creating i pgd done ∧ done ≤ 8

def Made (inside : Nat → Inside) (i : Nat) : Prop := ¬ Unmade inside i

/-- What the threads that do not execute rely on. -/
structure Slots (m : Core) (e : Nat) : Prop where
  creating : ∀ t i pgd done, m.inside t = .creating i pgd done → i ≠ 0 ∧ i < m.sched.numTasks
  distinct : ∀ t u i, t ≠ u → creates (m.inside t) = some i → creates (m.inside u) ≠ some i
  unmade : ∀ i, Unmade m.inside i → i ≠ e ∧ (m.sched.state i = .unused ∨ m.sched.state i = .ready) ∧
    (m.contexts i).x30 = .zero
  empty : ∀ i, m.sched.numTasks ≤ i → (m.contexts i).x30 = .zero
  names : ∀ i, (m.contexts i).sp = .zero ∨ (m.contexts i).sp = .start i ∨ (m.contexts i).sp = .live i
  looking : ∀ t i idx, m.inside t = .looking i idx → idx < m.sched.numTasks
  calm : ∀ t, t ≠ e → ¬ HasChosen (m.inside t)

/-- A state in which thread e executes and no choice is pending. -/
structure Settled (m : Core) (e : Nat) : Prop where
  slots : Slots m e
  current : m.sched.currentTask = e
  seated : Seated m.sched
  running : m.sched.state e = .running
  waiting : Waiting (Made m.inside) m.sched

/-- Behind the stores of switch_to. -/
def leaving (s : Sched) : Sched := s.setTask s.currentTask { s.tasks s.currentTask with state := .ready }

def entering (s : Sched) (next : Nat) : Sched :=
  (leaving s).setTask next { (leaving s).tasks next with state := .running }

def during (s : Sched) : Inside → Sched
  | .left _ _ => leaving s
  | .entered next _ => entering s next
  | .moved next _ => { entering s next with currentTask := next }
  | .mapped next _ =>
    mmuSwitchTtbr0 { entering s next with currentTask := next } ((entering s next).tasks next).ttbr0
  | _ => s

def Chosen (s : Sched) : Inside → Prop
  | .looking _ idx => idx < s.numTasks
  | .picked next => next = s.currentTask ∨ next < s.numTasks ∧ s.state next = .ready
  | .checked next prev | .left next prev | .entered next prev | .moved next prev | .mapped next prev =>
    prev = s.currentTask ∧ next ≠ s.currentTask ∧ next < s.numTasks ∧ s.state next = .ready
  | _ => True

def WaitInv (m : Core) : Prop :=
  ∀ e, m.exec = some e →
    ∃ s, Settled { m with sched := s } e ∧ m.sched = during s (m.inside e) ∧ Chosen s (m.inside e)

/-- A step keeps the invariant, and the sched_wait that it ends returns the truth. -/
def Keeps (n : Core) : Prop := WaitInv n ∧ WaitHonest n

section Places
variable {m : Core} {e i next : Nat} {s : Sched} {place : Inside}

theorem during_calm (s : Sched) (calm : ¬ HasChosen place) : during s place = s := by
  cases place <;> first | rfl | exact absurd trivial calm

theorem chosen_calm {t : Nat} (slots : Slots m e) (calm : ¬ HasChosen (m.inside t)) :
    Chosen m.sched (m.inside t) := by
  cases here : m.inside t with
  | looking i idx => exact slots.looking t i idx here
  | outside | creating _ _ _ | scanning _ => trivial
  | picked _ | checked _ _ | left _ _ | entered _ _ | moved _ _ | mapped _ _ =>
    rw [here] at calm
    exact absurd trivial calm

theorem unmade_set_inside (plain : creates place = none)
    (unmade : Unmade (m.setInside e place).inside i) : Unmade m.inside i := by
  obtain ⟨t, pgd, done, here, early⟩ := unmade
  by_cases me : t = e
  · have now : (m.setInside e place).inside e = place := Function.update_self _ _ _
    rw [me, now] at here
    rw [here] at plain
    cases plain
  · have kept : (m.setInside e place).inside t = m.inside t := Function.update_of_ne me _ _
    exact ⟨t, pgd, done, kept ▸ here, early⟩

theorem made_set_inside (plain : creates place = none)
    (late : ∀ i pgd done, m.inside e = .creating i pgd done → 8 < done) :
    Made (m.setInside e place).inside = Made m.inside := by
  funext i
  apply propext
  constructor
  · intro made unmade
    apply made
    obtain ⟨t, pgd, done, here, early⟩ := unmade
    have other : t ≠ e := by
      rintro rfl
      exact absurd (late i pgd done here) (Nat.not_lt_of_le early)
    have kept : (m.setInside e place).inside t = m.inside t := Function.update_of_ne other _ _
    exact ⟨t, pgd, done, kept.trans here, early⟩
  · intro made unmade
    exact made (unmade_set_inside plain unmade)

theorem slots_set_inside (slots : Slots m e) (plain : creates place = none)
    (look : ∀ i idx, place = .looking i idx → idx < m.sched.numTasks) :
    Slots (m.setInside e place) e := by
  have now : (m.setInside e place).inside e = place := Function.update_self _ _ _
  have kept : ∀ t, t ≠ e → (m.setInside e place).inside t = m.inside t :=
    fun t other => Function.update_of_ne other _ _
  refine ⟨?_, ?_, ?_, slots.empty, slots.names, ?_, ?_⟩
  · intro t i pgd done here
    have other : t ≠ e := by
      rintro rfl
      rw [now] at here
      rw [here] at plain
      cases plain
    rw [kept t other] at here
    exact slots.creating t i pgd done here
  · intro t u i other first
    have notMe : t ≠ e := by
      rintro rfl
      rw [now, plain] at first
      cases first
    rw [kept t notMe] at first
    by_cases again : u = e
    · rw [again, now, plain]
      simp
    · rw [kept u again]
      exact slots.distinct t u i other first
  · intro i unmade
    exact slots.unmade i (unmade_set_inside plain unmade)
  · intro t i idx here
    by_cases me : t = e
    · rw [me, now] at here
      exact look i idx here
    · rw [kept t me] at here
      exact slots.looking t i idx here
  · intro t other
    rw [kept t other]
    exact slots.calm t other

theorem settled_set_inside (place : Inside) (settled : Settled m e) (plain : creates place = none)
    (late : ∀ i pgd done, m.inside e = .creating i pgd done → 8 < done)
    (look : ∀ i idx, place = .looking i idx → idx < m.sched.numTasks) :
    Settled (m.setInside e place) e := by
  refine ⟨slots_set_inside settled.slots plain look, settled.current, settled.seated,
    settled.running, ?_⟩
  rw [made_set_inside plain late]
  exact settled.waiting

theorem resumes_slot {f : Nat} (slots : Slots m e) (loads : resumes (m.contexts next) = some f) :
    f = next ∧ ¬ Unmade m.inside next := by
  have names := slots.names next
  rw [resumes] at loads
  have whole : f = next ∧ (m.contexts next).x30 ≠ .zero := by
    rcases names with sp | sp | sp <;> rw [sp] at loads <;> dsimp only at loads
    · cases loads
    · split at loads <;> cases loads
      rename_i context
      exact ⟨rfl, by rw [context]; simp [startContext]⟩
    · split at loads <;> cases loads
      rename_i context
      exact ⟨rfl, by rw [context]; simp [liveContext, sameWords]⟩
  exact ⟨whole.1, fun unmade => whole.2 (slots.unmade next unmade).2.2⟩

end Places

section Steps
variable {m n : Core} {e next : Nat} {s : Sched} {place : Inside}

theorem wait_inv_settled (settled : ∀ f, n.exec = some f → Settled n f ∧ ¬ HasChosen (n.inside f)) :
    WaitInv n := by
  intro f here
  obtain ⟨quiet, calm⟩ := settled f here
  exact ⟨n.sched, quiet, (during_calm _ calm).symm, chosen_calm quiet.slots calm⟩

theorem keeps_stay (settled : Settled m e) (calm : ¬ HasChosen (m.inside e)) (exec : n.exec = some e)
    (inside : n.inside = m.inside) (count : m.sched.numTasks ≤ n.sched.numTasks)
    (current : n.sched.currentTask = e)
    (states : ∀ i, Unmade m.inside i → n.sched.state i = m.sched.state i)
    (contexts : ∀ i, n.contexts i = m.contexts i ∨
      m.sched.numTasks ≤ i ∧ i < n.sched.numTasks ∧ n.contexts i = startContext i)
    (honest : Honest (Made m.inside) n.sched) : Keeps n := by
  have slots := settled.slots
  constructor
  · apply wait_inv_settled
    intro f here
    rw [exec] at here
    cases here
    refine ⟨⟨⟨?_, ?_, ?_, ?_, ?_, ?_, ?_⟩, current, honest.seated, ?_, ?_⟩, by rw [inside]; exact calm⟩
    · intro t i pgd done making
      rw [inside] at making
      obtain ⟨nonzero, low⟩ := slots.creating t i pgd done making
      exact ⟨nonzero, Nat.lt_of_lt_of_le low count⟩
    · rw [inside]
      exact slots.distinct
    · intro i unmade
      rw [inside] at unmade
      obtain ⟨other, state, link⟩ := slots.unmade i unmade
      refine ⟨other, by rw [← states i unmade] at state; exact state, ?_⟩
      rcases contexts i with same | ⟨high, _⟩
      · rw [same]
        exact link
      · obtain ⟨t, pgd, done, making, _⟩ := unmade
        exact absurd (slots.creating t i pgd done making).2 (Nat.not_lt_of_le high)
    · intro i high
      rcases contexts i with same | ⟨_, low, _⟩
      · rw [same]
        exact slots.empty i (Nat.le_trans count high)
      · exact absurd low (Nat.not_lt_of_le high)
    · intro i
      rcases contexts i with same | ⟨_, _, made⟩
      · rw [same]
        exact slots.names i
      · rw [made]
        exact Or.inr (Or.inl rfl)
    · intro t i idx looks
      rw [inside] at looks
      exact Nat.lt_of_lt_of_le (slots.looking t i idx looks) count
    · rw [inside]
      exact slots.calm
    · rw [← current]
      exact honest.running
    · rw [inside]
      exact honest.waiting
  · intro _ tid returns
    refine honest.returns ?_ tid returns
    rw [current]
    exact fun unmade => (slots.unmade e unmade).1 rfl

theorem keeps_switch (next : Nat) (settled : Settled m e) (calm : ¬ HasChosen (m.inside e))
    (inside : n.inside = m.inside)
    (contexts : n.contexts = Function.update m.contexts e (liveContext e))
    (exec : n.exec = resumes (m.contexts next)) (other : next ≠ e)
    (count : n.sched.numTasks = m.sched.numTasks) (current : n.sched.currentTask = next)
    (states : ∀ i, Unmade m.inside i → i ≠ next → n.sched.state i = m.sched.state i)
    (honest : Honest (Made m.inside) n.sched) : Keeps n := by
  have slots := settled.slots
  have kept : ∀ i, i ≠ e → n.contexts i = m.contexts i := by
    intro i away
    rw [contexts, Function.update_of_ne away]
  have low : e < m.sched.numTasks := settled.current ▸ settled.seated.current
  constructor
  · apply wait_inv_settled
    intro f here
    rw [exec] at here
    obtain ⟨rfl, made⟩ := resumes_slot slots here
    refine ⟨⟨⟨?_, ?_, ?_, ?_, ?_, ?_, ?_⟩, current, honest.seated, ?_, ?_⟩,
      by rw [inside]; exact slots.calm f other⟩
    · rw [inside, count]
      exact slots.creating
    · rw [inside]
      exact slots.distinct
    · intro i unmade
      rw [inside] at unmade
      obtain ⟨away, state, link⟩ := slots.unmade i unmade
      have notNext : i ≠ f := by
        rintro rfl
        exact made unmade
      refine ⟨notNext, by rw [← states i unmade notNext] at state; exact state, ?_⟩
      rw [kept i away]
      exact link
    · intro i high
      rw [count] at high
      rw [kept i (Nat.ne_of_gt (Nat.lt_of_lt_of_le low high))]
      exact slots.empty i high
    · intro i
      by_cases me : i = e
      · right; right
        rw [contexts, me, Function.update_self]
        rfl
      · rw [kept i me]
        exact slots.names i
    · rw [inside, count]
      exact slots.looking
    · intro t _
      rw [inside]
      by_cases me : t = e
      · rw [me]
        exact calm
      · exact slots.calm t me
    · rw [← current]
      exact honest.running
    · rw [inside]
      exact honest.waiting
  · intro executes tid returns
    obtain ⟨f, here⟩ := Option.ne_none_iff_exists'.mp executes
    rw [exec] at here
    refine honest.returns ?_ tid returns
    rw [current]
    exact (resumes_slot slots here).2

theorem prepared_unmade {u : Sched} {i : Nat} (settled : Settled m e) (prepared : Prepared m.sched u)
    (unmade : Unmade m.inside i) : u.state i = m.sched.state i := by
  obtain ⟨other, state, _⟩ := settled.slots.unmade i unmade
  rcases prepared.state i with same | ⟨asleep, _⟩ | ⟨here, _⟩
  · exact same
  · rcases state with state | state <;> rw [state] at asleep <;> cases asleep
  · rw [settled.current] at here
    exact absurd here other

theorem keeps_call (call : SchedCall) (masked : Bool) (settled : Settled m e) (exec : m.exec = some e)
    (calm : ¬ HasChosen (m.inside e)) (idle : m.sched.resumed = none) (may : callable m.sched call)
    (guard : noEarlyWake m.sched call) : Keeps (m.settle e (schedCall m.sched call) masked) := by
  have before : Honest (Made m.inside) m.sched :=
    honest_quiet settled.seated (by rw [settled.current]; exact settled.running) settled.waiting idle
  have honest := honest_call call before idle may guard
  have shape := call_shape m.sched call
  generalize schedCall m.sched call = after at honest shape ⊢
  cases shape with
  | made new room =>
    have grown : m.sched.numTasks < (addTask m.sched new).2.numTasks := Nat.lt_succ_self _
    have still : (addTask m.sched new).2.currentTask = m.sched.currentTask := rfl
    rw [Core.settle, if_pos grown]
    dsimp only
    rw [if_pos still]
    refine keeps_stay settled calm exec rfl (Nat.le_of_lt grown) settled.current ?_ ?_ honest
    · intro i unmade
      obtain ⟨t, pgd, done, making, _⟩ := unmade
      have low := (settled.slots.creating t i pgd done making).2
      exact congrArg Task.state (set_task_other new (Nat.ne_of_lt low))
    · intro i
      by_cases fresh : i = m.sched.numTasks
      · right
        rw [fresh]
        exact ⟨Nat.le_refl _, grown, Function.update_self _ _ _⟩
      · exact Or.inl (Function.update_of_ne fresh _ _)
  | stayed _ prepared =>
    have same : ¬ m.sched.numTasks < after.numTasks := by
      rw [prepared.count]
      exact Nat.lt_irrefl _
    rw [Core.settle, if_neg same]
    dsimp only
    rw [if_pos prepared.current]
    exact keeps_stay settled calm exec rfl (Nat.le_of_eq prepared.count.symm)
      (prepared.current.trans settled.current) (fun i => prepared_unmade settled prepared)
      (fun _ => Or.inl rfl) honest
  | yielded u here prepared =>
    obtain ⟨count, outcome⟩ := yield_outcome u here
    have total : (schedYield u here).numTasks = m.sched.numTasks := count.trans prepared.count
    have still : ¬ m.sched.numTasks < (schedYield u here).numTasks := by
      rw [total]
      exact Nat.lt_irrefl _
    rcases outcome with same | ⟨other, now, states⟩
    · have kept : (schedYield u here).currentTask = m.sched.currentTask := same.1.trans prepared.current
      rw [Core.settle, if_neg still]
      dsimp only
      rw [if_pos kept]
      refine keeps_stay settled calm exec rfl (Nat.le_of_eq total.symm) (kept.trans settled.current) ?_
        (fun _ => Or.inl rfl) honest
      intro i unmade
      exact (same.2 i).trans (prepared_unmade settled prepared unmade)
    · have here_ : u.currentTask = e := prepared.current.trans settled.current
      have moved : ¬ (schedYield u here).currentTask = m.sched.currentTask := by
        rw [now, ← prepared.current]
        exact other
      rw [Core.settle, if_neg still]
      dsimp only
      rw [if_neg moved]
      refine keeps_switch (schedYield u here).currentTask settled calm rfl ?_ rfl ?_ total rfl ?_ honest
      · rw [Core.switch, settled.current]
      · rw [now, ← here_]
        exact other
      · intro i unmade notNext
        have away : i ≠ e := (settled.slots.unmade i unmade).1
        rw [now] at notNext
        rw [Core.switch]
        dsimp only
        rw [states i, if_neg (by rw [here_]; exact away), if_neg notNext]
        exact prepared_unmade settled prepared unmade

theorem keeps_settled (exec : n.exec = some e) (settled : Settled n e) (calm : ¬ HasChosen (n.inside e))
    (idle : n.sched.resumed = none) : Keeps n := by
  constructor
  · apply wait_inv_settled
    intro f here
    rw [exec] at here
    cases here
    exact ⟨settled, calm⟩
  · intro _ tid returns
    rw [idle] at returns
    cases returns

def taken (m : Core) (e pgd : Nat) : Core :=
  { m.setInside e (.creating m.sched.numTasks pgd 0) with
    sched := { m.sched with numTasks := m.sched.numTasks + 1 } }

section Creations
variable {pgd i : Nat}

theorem taken_mine (m : Core) (e pgd : Nat) : (taken m e pgd).inside e = .creating m.sched.numTasks pgd 0 :=
  Function.update_self _ _ _

theorem taken_others (m : Core) (pgd : Nat) {t : Nat} (other : t ≠ e) :
    (taken m e pgd).inside t = m.inside t :=
  Function.update_of_ne other _ _

theorem taken_unmade (unmade : Unmade (taken m e pgd).inside i) : i = m.sched.numTasks ∨ Unmade m.inside i := by
  obtain ⟨t, p, done, here, early⟩ := unmade
  by_cases me : t = e
  · rw [me, taken_mine] at here
    cases here
    exact Or.inl rfl
  · rw [taken_others m pgd me] at here
    exact Or.inr ⟨t, p, done, here, early⟩

theorem taken_made (out : m.inside e = .outside) (made : Made (taken m e pgd).inside i) :
    i ≠ m.sched.numTasks ∧ Made m.inside i := by
  constructor
  · rintro rfl
    exact made ⟨e, pgd, 0, taken_mine m e pgd, Nat.zero_le _⟩
  · rintro ⟨t, p, done, here, early⟩
    have other : t ≠ e := by
      rintro rfl
      rw [out] at here
      cases here
    exact made ⟨t, p, done, (taken_others m pgd other).trans here, early⟩

theorem slots_taken (pgd : Nat) (settled : Settled m e) (room : m.sched.numTasks < schedMaxTasks) :
    Slots (taken m e pgd) e := by
  have slots := settled.slots
  have low : e < m.sched.numTasks := settled.current ▸ settled.seated.current
  have lower : ∀ t i, creates (m.inside t) = some i → i ≠ m.sched.numTasks := by
    intro t i making
    cases place : m.inside t <;> rw [place] at making <;> cases making
    exact Nat.ne_of_lt (slots.creating t i _ _ place).2
  refine ⟨?_, ?_, ?_, ?_, slots.names, ?_, ?_⟩
  · intro t i p done here
    by_cases me : t = e
    · rw [me, taken_mine] at here
      cases here
      exact ⟨Nat.ne_of_gt (Nat.lt_of_le_of_lt (Nat.zero_le _) low), Nat.lt_succ_self _⟩
    · rw [taken_others m pgd me] at here
      obtain ⟨nonzero, small⟩ := slots.creating t i p done here
      exact ⟨nonzero, Nat.lt_succ_of_lt small⟩
  · intro t u i other first
    by_cases me : t = e
    · rw [me, taken_mine] at first
      cases first
      rw [taken_others m pgd (by rintro rfl; exact other me)]
      exact fun again => lower u _ again rfl
    · rw [taken_others m pgd me] at first
      by_cases again : u = e
      · rw [again, taken_mine]
        rintro ⟨⟩
        exact lower t _ first rfl
      · rw [taken_others m pgd again]
        exact slots.distinct t u i other first
  · intro i new
    rcases taken_unmade new with rfl | before
    · exact ⟨Nat.ne_of_gt low, Or.inl (settled.seated.fresh _ (Nat.le_refl _) room),
        slots.empty _ (Nat.le_refl _)⟩
    · exact slots.unmade i before
  · intro i high
    exact slots.empty i (Nat.le_of_succ_le high)
  · intro t i idx here
    by_cases me : t = e
    · rw [me, taken_mine] at here
      cases here
    · rw [taken_others m pgd me] at here
      exact Nat.lt_succ_of_lt (slots.looking t i idx here)
  · intro t other
    rw [taken_others m pgd other]
    exact slots.calm t other

theorem settled_taken (pgd : Nat) (settled : Settled m e) (out : m.inside e = .outside)
    (room : m.sched.numTasks < schedMaxTasks) : Settled (taken m e pgd) e := by
  obtain ⟨slots, current, seated, running, waiting⟩ := settled
  have unused := seated.fresh _ (Nat.le_refl _) room
  refine ⟨slots_taken pgd ⟨slots, current, seated, running, waiting⟩ room, current, ?_, running, ⟨?_, ?_⟩⟩
  · exact ⟨Nat.lt_succ_of_lt seated.current, seated.idle,
      fun i high small => seated.fresh i (Nat.le_of_succ_le high) small⟩
  · intro i small other asleep
    have small' : i < m.sched.numTasks + 1 := small
    by_cases new : i = m.sched.numTasks
    · rw [← new] at unused
      exact absurd (unused.symm.trans asleep) (by simp)
    · exact waiting.asleep i (by omega) other asleep
  · intro i small other known
    have small' : i < m.sched.numTasks + 1 := small
    obtain ⟨notNew, before⟩ := taken_made out known
    exact waiting.awake i (by omega) other before

end Creations

/-- The stores of a slot initialisation: the ninth one sets the link register and with it the
    place of the task, and those behind it leave the task alone. -/
theorem create_user_store {id pgd done : Nat} {store : Slot → Slot}
    (next : (createUserStores id pgd)[done]? = some store) (t : Slot) :
    ((store t).task.state = t.task.state ∨ (store t).task.state = .ready) ∧
    ((store t).context.sp = t.context.sp ∨ (store t).context.sp = .start id) ∧
    (done < 8 → (store t).context.x30 = t.context.x30) ∧
    (done = 8 → (store t).task.ctx = .taskWrapper) ∧
    (8 < done → (store t).task = t.task) := by
  have low : done < 20 := (List.getElem?_eq_some_iff.mp next).1
  interval_cases done <;> cases next <;> simp [Slot.set, Slot.word]

section Stores
variable {i pgd done : Nat} {store : Slot → Slot}

def stored (m : Core) (e i pgd done : Nat) (store : Slot → Slot) : Core :=
  (m.storeSlot i store).setInside e (.creating i pgd (done + 1))

theorem stored_mine : (stored m e i pgd done store).inside e = .creating i pgd (done + 1) :=
  Function.update_self _ _ _

theorem stored_others {t : Nat} (other : t ≠ e) : (stored m e i pgd done store).inside t = m.inside t :=
  Function.update_of_ne other _ _

theorem stored_creates (here : m.inside e = .creating i pgd done) (t : Nat) :
    creates ((stored m e i pgd done store).inside t) = creates (m.inside t) := by
  by_cases me : t = e
  · rw [me, stored_mine, here]
    rfl
  · rw [stored_others me]

theorem stored_fields (e : Nat) (next : (createUserStores i pgd)[done]? = some store) :
    ((stored m e i pgd done store).sched.state i = m.sched.state i ∨
      (stored m e i pgd done store).sched.state i = .ready) ∧
    (((stored m e i pgd done store).contexts i).sp = (m.contexts i).sp ∨
      ((stored m e i pgd done store).contexts i).sp = .start i) ∧
    (done < 8 → ((stored m e i pgd done store).contexts i).x30 = (m.contexts i).x30) ∧
    (done = 8 → ((stored m e i pgd done store).sched.tasks i).ctx = .taskWrapper) ∧
    (8 < done → (stored m e i pgd done store).sched.tasks i = m.sched.tasks i) := by
  have slot : slotOf (stored m e i pgd done store) i = store (slotOf m i) := by
    simp only [slotOf, stored, Core.storeSlot, Core.setInside, set_task_same, Function.update_self]
  have fields := create_user_store next (slotOf m i)
  rw [← slot] at fields
  exact fields

theorem stored_task {j : Nat} (other : j ≠ i) :
    (stored m e i pgd done store).sched.tasks j = m.sched.tasks j :=
  set_task_other _ other

theorem stored_context {j : Nat} (other : j ≠ i) :
    (stored m e i pgd done store).contexts j = m.contexts j :=
  Function.update_of_ne other _ _

theorem unmade_done (slots : Slots m e) (here : m.inside e = .creating i pgd done)
    (unmade : Unmade m.inside i) : done ≤ 8 := by
  obtain ⟨t, p, d, making, early⟩ := unmade
  by_cases me : t = e
  · rw [me, here] at making
    cases making
    exact early
  · exact absurd (by rw [making]; rfl) (slots.distinct e t i (Ne.symm me) (by rw [here]; rfl))

theorem stored_unmade {j : Nat} (slots : Slots m e) (here : m.inside e = .creating i pgd done)
    (unmade : Unmade (stored m e i pgd done store).inside j) :
    Unmade m.inside j ∧ (j = i → done < 8) := by
  obtain ⟨t, p, d, making, early⟩ := unmade
  by_cases me : t = e
  · rw [me, stored_mine] at making
    cases making
    exact ⟨⟨e, pgd, done, here, Nat.le_of_succ_le early⟩, fun _ => early⟩
  · rw [stored_others me] at making
    refine ⟨⟨t, p, d, making, early⟩, ?_⟩
    rintro rfl
    exact absurd (by rw [making]; rfl) (slots.distinct e t j (Ne.symm me) (by rw [here]; rfl))

theorem stored_made {j : Nat} (here : m.inside e = .creating i pgd done) (other : j ≠ i)
    (made : Made (stored m e i pgd done store).inside j) : Made m.inside j := by
  rintro ⟨t, p, d, making, early⟩
  have away : t ≠ e := by
    rintro rfl
    rw [here] at making
    cases making
    exact other rfl
  exact made ⟨t, p, d, (stored_others away).trans making, early⟩

theorem stored_kept {j : Nat} (here : m.inside e = .creating i pgd done)
    (next : (createUserStores i pgd)[done]? = some store) (made : Made m.inside j) :
    (stored m e i pgd done store).sched.tasks j = m.sched.tasks j := by
  by_cases mine : j = i
  · subst mine
    have late : 8 < done := by
      by_contra early
      exact made ⟨e, pgd, done, here, Nat.le_of_not_lt early⟩
    exact (stored_fields e next).2.2.2.2 late
  · exact stored_task mine

theorem stored_state {j : Nat} (here : m.inside e = .creating i pgd done)
    (next : (createUserStores i pgd)[done]? = some store) :
    (stored m e i pgd done store).sched.state j = m.sched.state j ∨
      (stored m e i pgd done store).sched.state j = .ready ∧ Unmade m.inside j := by
  by_cases made : Made m.inside j
  · left
    exact congrArg Task.state (stored_kept here next made)
  · have unmade := not_not.mp made
    by_cases mine : j = i
    · subst mine
      rcases (stored_fields e next).1 with same | ready
      · exact Or.inl same
      · exact Or.inr ⟨ready, unmade⟩
    · exact Or.inl (congrArg Task.state (stored_task mine))

theorem slots_stored (slots : Slots m e) (here : m.inside e = .creating i pgd done)
    (next : (createUserStores i pgd)[done]? = some store) : Slots (stored m e i pgd done store) e := by
  have bound := slots.creating e i pgd done here
  have fields := @stored_fields m i pgd done store e next
  refine ⟨?_, ?_, ?_, ?_, ?_, ?_, ?_⟩
  · intro t j p d making
    by_cases me : t = e
    · rw [me, stored_mine] at making
      cases making
      exact bound
    · rw [stored_others me] at making
      exact slots.creating t j p d making
  · intro t u j other
    rw [stored_creates here, stored_creates here]
    exact slots.distinct t u j other
  · intro j unmade
    obtain ⟨before, early⟩ := stored_unmade slots here unmade
    obtain ⟨other, state, link⟩ := slots.unmade j before
    refine ⟨other, ?_, ?_⟩
    · rcases @stored_state m e i pgd done store j here next with same | ⟨ready, _⟩
      · rw [same]
        exact state
      · exact Or.inr ready
    · by_cases mine : j = i
      · rw [mine] at link ⊢
        exact (fields.2.2.1 (early mine)).trans link
      · rw [stored_context mine]
        exact link
  · intro j high
    have other : j ≠ i := Nat.ne_of_gt (Nat.lt_of_lt_of_le bound.2 high)
    rw [stored_context other]
    exact slots.empty j high
  · intro j
    by_cases mine : j = i
    · rw [mine]
      rcases fields.2.1 with same | start
      · have before := slots.names i
        rw [← same] at before
        exact before
      · exact Or.inr (Or.inl start)
    · rw [stored_context mine]
      exact slots.names j
  · intro t j idx looks
    by_cases me : t = e
    · rw [me, stored_mine] at looks
      cases looks
    · rw [stored_others me] at looks
      exact slots.looking t j idx looks
  · intro t other
    rw [stored_others other]
    exact slots.calm t other

theorem settled_stored (settled : Settled m e) (here : m.inside e = .creating i pgd done)
    (next : (createUserStores i pgd)[done]? = some store) : Settled (stored m e i pgd done store) e := by
  obtain ⟨slots, current, seated, running, waiting⟩ := settled
  have bound := slots.creating e i pgd done here
  have mine : Made m.inside e := fun unmade => (slots.unmade e unmade).1 rfl
  have state := fun j => @stored_state m e i pgd done store j here next
  -- nobody who has finished, sleeps or waits is an unmade slot
  have finished : ∀ j, m.sched.state j = .finished → (stored m e i pgd done store).sched.state j = .finished := by
    intro j ended
    rcases state j with same | ⟨_, unmade⟩
    · exact same.trans ended
    · rcases (slots.unmade j unmade).2.1 with other | other <;> rw [ended] at other <;> cases other
  refine ⟨slots_stored slots here next, current, ⟨seated.current, ?_, ?_⟩, ?_, ⟨?_, ?_⟩⟩
  · intro nonzero
    rw [Sched.state, stored_task bound.1.symm]
    exact seated.idle nonzero
  · intro j high low
    have other : j ≠ i := Nat.ne_of_gt (Nat.lt_of_lt_of_le bound.2 high)
    rw [Sched.state, stored_task other]
    exact seated.fresh j high low
  · rw [Sched.state, stored_kept here next mine]
    exact running
  · intro j small other asleep
    rcases state j with same | ⟨ready, _⟩
    · rw [same] at asleep
      have made : Made m.inside j := by
        intro unmade
        rcases (slots.unmade j unmade).2.1 with awake | awake <;> rw [asleep] at awake <;> cases awake
      rw [stored_kept here next made]
      exact waiting.asleep j small other asleep
    · rw [ready] at asleep
      cases asleep
  · intro j small other known tid ctx
    by_cases made : Made m.inside j
    · rw [stored_kept here next made] at ctx
      rw [Sched.state, stored_kept here next made]
      rcases waiting.awake j small other made tid ctx with asleep | ended
      · exact Or.inl asleep
      · exact Or.inr (finished tid ended)
    · -- the store of the link register makes the slot
      have unmade := not_not.mp made
      have same : j = i := by
        by_contra away
        exact made (stored_made here away known)
      subst same
      have last : done = 8 := by
        apply Nat.le_antisymm (unmade_done slots here unmade)
        by_contra early
        exact known ⟨e, pgd, done + 1, stored_mine, Nat.lt_of_not_le early⟩
      rw [(stored_fields e next).2.2.2.1 last] at ctx
      cases ctx

end Stores

theorem during_resumed (s : Sched) (place : Inside) : (during s place).resumed = s.resumed := by
  cases place <;> rfl

theorem switch_to_during (here : Resume) (running : s.state s.currentTask = .running)
    (other : next ≠ s.currentTask) :
    contextSwitch (during s (.mapped next s.currentTask)) s.currentTask next here = switchTo s next here := by
  rw [switchTo, if_neg other]
  dsimp only
  rw [if_pos running]
  rfl

theorem keeps_inside (place : Inside) (settled : Settled { m with sched := s } e) (exec : n.exec = some e)
    (moved : { n with sched := s } = Core.setInside { m with sched := s } e place)
    (now : n.sched = during s place) (chosen : Chosen s place) (plain : creates place = none)
    (before : creates (m.inside e) = none) (idle : s.resumed = none) : Keeps n := by
  have here : n.inside e = place := by
    have inside := congrArg Core.inside moved
    exact (congrFun inside e).trans (Function.update_self _ _ _)
  constructor
  · intro f executes
    rw [exec] at executes
    cases executes
    refine ⟨s, ?_, by rw [here]; exact now, by rw [here]; exact chosen⟩
    rw [moved]
    apply settled_set_inside place settled plain
    · intro i pgd done making
      rw [show m.inside e = _ from making] at before
      cases before
    · rintro i idx rfl
      exact chosen
  · intro _ tid returns
    rw [now, during_resumed, idle] at returns
    cases returns

theorem keeps_creating {i pgd done : Nat} (settled : Settled m e) (exec : m.exec = some e)
    (here : m.inside e = .creating i pgd done) (idle : m.sched.resumed = none) :
    Keeps (proceed m e (.creating i pgd done)) := by
  rw [proceed]
  split
  · rename_i store next
    have still : (stored m e i pgd done store).inside e = .creating i pgd (done + 1) := stored_mine
    apply keeps_settled (n := stored m e i pgd done store) exec (settled_stored settled here next) _ idle
    rw [still]
    exact id
  · rename_i all
    have last := List.getElem?_eq_none_iff.mp all
    have out : (m.setInside e .outside).inside e = .outside := Function.update_self _ _ _
    refine keeps_settled exec (settled_set_inside _ settled rfl ?_ ?_) (by rw [out]; exact id) idle
    · intro j p d making
      rw [here] at making
      cases making
      have total : (createUserStores i pgd).length = 20 := rfl
      omega
    · intro j idx clash
      cases clash

theorem keeps_scanning {i : Nat} (settled : Settled m e) (exec : m.exec = some e)
    (here : m.inside e = .scanning i) (idle : m.sched.resumed = none) : Keeps (proceed m e (.scanning i)) := by
  have before : creates (m.inside e) = none := by rw [here]; rfl
  rw [proceed]
  split
  · refine keeps_inside (s := m.sched) _ settled exec rfl rfl ?_ rfl before idle
    exact Nat.mod_lt _ (Nat.lt_of_le_of_lt (Nat.zero_le _) settled.seated.current)
  · refine keeps_inside (s := m.sched) _ settled exec rfl rfl ?_ rfl before idle
    rw [if_pos (by rw [settled.current]; exact settled.running)]
    exact Or.inl rfl

theorem keeps_looking {i idx : Nat} (settled : Settled m e) (exec : m.exec = some e)
    (here : m.inside e = .looking i idx) (idle : m.sched.resumed = none) :
    Keeps (proceed m e (.looking i idx)) := by
  have before : creates (m.inside e) = none := by rw [here]; rfl
  rw [proceed]
  split
  · rename_i ready
    exact keeps_inside (s := m.sched) _ settled exec rfl rfl
      (Or.inr ⟨settled.slots.looking e i idx here, ready⟩) rfl before idle
  · exact keeps_inside (s := m.sched) _ settled exec rfl rfl trivial rfl before idle

theorem keeps_picked (settled : Settled m e) (exec : m.exec = some e) (here : m.inside e = .picked next)
    (chosen : Chosen m.sched (.picked next)) (idle : m.sched.resumed = none) :
    Keeps (proceed m e (.picked next)) := by
  have before : creates (m.inside e) = none := by rw [here]; rfl
  rw [proceed]
  split
  · exact keeps_inside (s := m.sched) _ settled exec rfl rfl trivial rfl before idle
  · rename_i other
    obtain ⟨low, ready⟩ := chosen.resolve_left other
    exact keeps_inside (s := m.sched) _ settled exec rfl rfl ⟨rfl, other, low, ready⟩ rfl before idle

theorem keeps_mapped {prev : Nat} (settled : Settled { m with sched := s } e)
    (here : m.inside e = .mapped next prev) (now : m.sched = during s (.mapped next prev))
    (chosen : Chosen s (.mapped next prev)) : Keeps (proceed m e (.mapped next prev)) := by
  obtain ⟨rfl, other, low, ready⟩ := chosen
  have me : s.currentTask = e := settled.current
  have running : s.state s.currentTask = .running := by
    rw [me]
    exact settled.running
  have out := settled_set_inside .outside settled rfl
    (by rw [here]; intro i pgd done clash; cases clash) (by intro i idx clash; cases clash)
  have sched : (proceed m e (.mapped next s.currentTask)).sched = switchTo s next .yielded := by
    rw [← switch_to_during .yielded running other, ← now]
    rfl
  obtain ⟨current, count, _⟩ := switch_to_fields .yielded other
  have honest : Honest (Made (m.setInside e .outside).inside) (switchTo s next .yielded) :=
    honest_switch settled.seated out.waiting (Or.inl running) other low ready
      (by simp [running]) (by simp)
  have back : (Core.setInside { m with sched := s } e .outside).inside e = .outside := Function.update_self _ _ _
  refine keeps_switch _ out (by rw [back]; exact id) rfl ?_ rfl (me ▸ other) (by rw [sched]; exact count)
    (by rw [sched]; exact current) ?_ (by rw [sched]; exact honest)
  · rw [me]
    rfl
  · intro i unmade notNext
    have away : i ≠ s.currentTask := by
      rw [me]
      exact (out.slots.unmade i unmade).1
    rw [sched]
    exact congrArg Task.state (switch_kept other away notNext)

theorem keeps_proceed (inv : WaitInv m) (exec : m.exec = some e) (idle : m.sched.resumed = none) :
    Keeps (proceed m e (m.inside e)) := by
  obtain ⟨s, settled, now, chosen⟩ := inv e exec
  have quiet : s.resumed = none := by
    rw [now, during_resumed] at idle
    exact idle
  -- in front of the stores of switch_to the scheduler is the one the yield began in
  have whole : m.sched = s → Settled m e := by
    rintro rfl
    exact settled
  cases here : m.inside e with
  | outside =>
    rw [here] at now
    exact keeps_settled exec (whole now) (by rw [proceed, here]; exact id) idle
  | creating i pgd done =>
    rw [here] at now
    exact keeps_creating (whole now) exec here idle
  | scanning i =>
    rw [here] at now
    exact keeps_scanning (whole now) exec here idle
  | looking i idx =>
    rw [here] at now
    exact keeps_looking (whole now) exec here idle
  | picked next =>
    rw [here] at now chosen
    have same : m.sched = s := now
    rw [← same] at chosen
    exact keeps_picked (whole now) exec here chosen idle
  | checked next prev =>
    rw [here] at now chosen
    obtain ⟨rfl, rest⟩ := chosen
    have same : m.sched = s := now
    have running : m.sched.state s.currentTask = .running := by
      rw [same, show s.currentTask = e from settled.current]
      exact settled.running
    rw [proceed, if_pos running]
    refine keeps_inside (.left next s.currentTask) settled exec rfl ?_ ⟨rfl, rest⟩ rfl
      (by rw [here]; rfl) quiet
    show (m.setState s.currentTask .ready).sched = leaving s
    rw [Core.setState, same]
    rfl
  | left next prev =>
    rw [here] at now chosen
    have same : m.sched = leaving s := now
    refine keeps_inside (.entered next prev) settled exec rfl ?_ chosen rfl (by rw [here]; rfl) quiet
    show (m.setState next .running).sched = entering s next
    rw [Core.setState, same]
    rfl
  | entered next prev =>
    rw [here] at now chosen
    have same : m.sched = entering s next := now
    refine keeps_inside (.moved next prev) settled exec rfl ?_ chosen rfl (by rw [here]; rfl) quiet
    show { m.sched with currentTask := next } = { entering s next with currentTask := next }
    rw [same]
  | moved next prev =>
    rw [here] at now chosen
    have same : m.sched = { entering s next with currentTask := next } := now
    refine keeps_inside (.mapped next prev) settled exec rfl ?_ chosen rfl (by rw [here]; rfl) quiet
    show mmuSwitchTtbr0 m.sched (m.sched.tasks next).ttbr0 = during s (.mapped next prev)
    rw [same]
    rfl
  | mapped next prev =>
    rw [here] at now chosen
    exact keeps_mapped settled here now chosen

theorem wait_inv_clear (inv : WaitInv m) : WaitInv { m with sched := { m.sched with resumed := none } } := by
  intro e exec
  obtain ⟨s, ⟨slots, current, seated, running, waiting⟩, now, chosen⟩ := inv e exec
  refine ⟨{ s with resumed := none }, ⟨?_, current, ?_, running, ?_⟩, ?_, ?_⟩
  · exact ⟨slots.creating, slots.distinct, slots.unmade, slots.empty, slots.names, slots.looking, slots.calm⟩
  · exact ⟨seated.current, seated.idle, seated.fresh⟩
  · exact ⟨waiting.asleep, waiting.awake⟩
  · dsimp only
    rw [now]
    cases m.inside e <;> rfl
  · dsimp only
    cases place : m.inside e <;> rw [place] at chosen <;> exact chosen

theorem wait_step_keeps {event : CoreEvent} (inv : WaitInv m) (idle : m.sched.resumed = none)
    (may : undisturbed m event) (step : coreStep m event = some n) : Keeps n := by
  cases exec : m.exec with
  | none =>
    rw [coreStep, exec] at step
    cases step
  | some e =>
    have whole : ¬ HasChosen (m.inside e) → Settled m e := by
      intro calm
      obtain ⟨s, settled, now, _⟩ := inv e exec
      rw [during_calm s calm] at now
      rw [← now] at settled
      exact settled
    have calm_outside : m.inside e = .outside → ¬ HasChosen (m.inside e) := by
      intro out
      rw [out]
      exact id
    simp only [coreStep, exec, Option.bind_some] at step
    cases event with
    | call c =>
      dsimp only at step
      split at step <;> cases step
      rename_i out
      have calm := calm_outside out
      exact keeps_call c _ (whole calm) exec calm idle may.1 may.2
    | beginCreate pgd =>
      dsimp only at step
      split at step <;> cases step
      rename_i can
      have settled := whole (calm_outside can.1)
      apply keeps_settled (n := taken m e pgd) exec (settled_taken pgd settled can.1 can.2.2.1) _ idle
      rw [taken_mine]
      exact id
    | beginYield =>
      dsimp only at step
      split at step <;> cases step
      rename_i can
      have settled := whole (calm_outside can.1)
      exact keeps_inside (s := m.sched) (.scanning 1) settled exec rfl rfl trivial rfl
        (by rw [can.1]; rfl) idle
    | proceed =>
      dsimp only at step
      split at step <;> cases step
      exact keeps_proceed inv exec idle
    | tick =>
      dsimp only at step
      split at step <;> cases step
      have calm : ¬ HasChosen (m.inside e) := may e exec
      exact keeps_call .tick true (whole calm) exec calm idle trivial trivial

end Steps

theorem core_start_waits {m : Core} (start : CoreStart m) : Keeps m := by
  obtain ⟨⟨before, sched⟩, contexts, exec, _, inside, _⟩ := start
  have current : m.sched.currentTask = 0 := by rw [sched, schedInit]
  have count : m.sched.numTasks = 1 := by rw [sched, schedInit]
  have state : ∀ i, i < schedMaxTasks → m.sched.state i = if i = 0 then .running else .unused := by
    intro i low
    rw [sched]
    exact sched_init_state before low
  refine keeps_settled exec ⟨⟨?_, ?_, ?_, ?_, ?_, ?_, ?_⟩, current, ⟨?_, ?_, ?_⟩, state 0 (by decide), ⟨?_, ?_⟩⟩
    (by rw [inside]; exact id) (by rw [sched, schedInit])
  · intro t i pgd done here
    rw [inside] at here
    cases here
  · intro t u i _ here
    rw [inside] at here
    cases here
  · rintro i ⟨t, pgd, done, here, _⟩
    rw [inside] at here
    cases here
  · intro i _
    rw [contexts]
    rfl
  · intro i
    rw [contexts]
    exact Or.inl rfl
  · intro t i idx here
    rw [inside] at here
    cases here
  · intro t _
    rw [inside]
    exact id
  · rw [current, count]
    exact Nat.one_pos
  · intro nonzero
    exact absurd current nonzero
  · intro i high low
    rw [state i low, if_neg (by omega)]
  · intro i small other
    omega
  · intro i small other
    omega

theorem wait_honest_when_undisturbed (m : Core)
    (run : Reaches CoreStart (Guarded undisturbed (Taken waitStep)) m) : WaitHonest m := by
  have inv : Keeps m := by
    refine reaches_invariant Keeps (fun m start => core_start_waits start) ?_ run
    rintro m event n ⟨inv, _⟩ ⟨may, step⟩
    apply wait_step_keeps (wait_inv_clear inv) rfl _ step
    cases event with
    | call c => exact ⟨by cases c <;> exact may.1, by cases c <;> exact may.2⟩
    | beginCreate _ | beginYield | proceed => trivial
    | tick => exact may
  exact inv.2

/-- The wait for a child, a kill of a task that does not wait, and the exit of the child, all
    while a tick has interrupted the idle loop in its scan. -/
theorem wait_honest_after_exit :
    ∃ m, Reaches CoreStart (Guarded undisturbed (Taken waitStep)) m ∧
      m.exec = some 1 ∧ m.sched.resumed = some (.waiting 2) ∧ WaitHonest m := by
  have look : (runActions (allowed undisturbed waitStep) bootCore
      ([.call (.createUser 0x40200000), .beginYield, .proceed, .tick, .call (.fork 0x40300000),
        .call (.wait 2), .call (.signal 2 10), .call .exit] ++ List.replicate 7 .proceed)).any
        (fun m => decide (m.exec = some 1 ∧ m.sched.resumed = some (.waiting 2))) = true := by
    decide +kernel
  obtain ⟨m, run, found⟩ := (Option.any_eq_true _ _).mp look
  obtain ⟨executes, returns⟩ := of_decide_eq_true found
  have reached := reaches_of_allowed (Reaches.start boot_core_starts) run
  exact ⟨m, reached, executes, returns, wait_honest_when_undisturbed m reached⟩

/-- The child signals its parent with SIGUSR1 instead of exiting: the parent goes on
   behind its sched_wait while the child is still alive. -/
theorem signal_ends_wait_early :
    ¬ ∀ m, Reaches CoreStart (Guarded sensible (Taken waitStep)) m → WaitHonest m := by
  have look : (runActions (allowed sensible waitStep) bootCore
      ([.call (.createUser 0x40200000), .beginYield] ++ List.replicate 8 .proceed ++
        [.call (.fork 0x40300000), .call (.wait 2), .call (.signal 1 10), .call .yield, .beginYield] ++
        List.replicate 8 .proceed)).any
        (fun m => decide (m.exec = some 1 ∧ m.sched.resumed = some (.waiting 2) ∧ m.sched.state 2 = .ready)) =
          true := by
    decide +kernel
  obtain ⟨m, run, found⟩ := (Option.any_eq_true _ _).mp look
  obtain ⟨executes, returns, alive⟩ := of_decide_eq_true found
  intro honest
  have done := honest m (reaches_of_allowed (Reaches.start boot_core_starts) run) (by simp [executes]) 2 returns
  rw [done] at alive
  cases alive

/-- A tick comes when the idle loop has chosen task 1; task 1 forks and waits. No signal is
    sent, and the interrupted yield still switches to task 1. -/
theorem stale_choice_ends_wait :
    ∃ m, Reaches CoreStart (Guarded sensible (Taken waitStep)) m ∧ ¬ WaitHonest m := by
  have look : (runActions (allowed sensible waitStep) bootCore
      ([.call (.createUser 0x40200000), .beginYield, .proceed, .proceed, .tick, .call (.fork 0x40300000),
        .call (.wait 2), .tick] ++ List.replicate 6 .proceed)).any
        (fun m => decide (m.exec = some 1 ∧ m.sched.resumed = some (.waiting 2) ∧ m.sched.state 2 = .ready)) =
          true := by
    decide +kernel
  obtain ⟨m, run, found⟩ := (Option.any_eq_true _ _).mp look
  obtain ⟨executes, returns, alive⟩ := of_decide_eq_true found
  refine ⟨m, reaches_of_allowed (Reaches.start boot_core_starts) run, ?_⟩
  intro honest
  rw [honest (by simp [executes]) 2 returns] at alive
  cases alive

end Archarch.Scheduling
