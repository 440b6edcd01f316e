import Mathlib.Logic.Basic

/- Runs of a labelled transition system from a set of start states. A guard
   restricts the steps a run may take; the rules below turn what one step
   preserves into what a whole run preserves. -/
namespace LabelledRuns
variable {State Act : Type*}

inductive Reaches (start : State → Prop) (step : State → Act → State → Prop) : State → Prop where
  | start {s : State} (here : start s) : Reaches start step s
  | next {s t : State} {a : Act} (run : Reaches start step s) (taken : step s a t) :
      Reaches start step t

/-- The steps of a system that also meet a condition on the state before them. -/
def Guarded (guard : State → Act → Prop) (step : State → Act → State → Prop) :
    State → Act → State → Prop :=
  fun s a t => guard s a ∧ step s a t

/-- The relation of an executable step function. -/
def Taken (step : State → Act → Option State) : State → Act → State → Prop :=
  fun s a t => step s a = some t

section Rules
variable {start : State → Prop} {step : State → Act → State → Prop} {guard : State → Act → Prop}

theorem reaches_invariant (inv : State → Prop) (base : ∀ s, start s → inv s)
    (preserve : ∀ s a t, inv s → step s a t → inv t) {s : State}
    (run : Reaches start step s) : inv s := by
  induction run with
  | start here => exact base _ here
  | next run taken ih => exact preserve _ _ _ ih taken

/-- What a step never undoes stays true along the rest of a run. -/
theorem reaches_persists (inv stable : State → Prop)
    (preserve : ∀ s a t, inv s → step s a t → inv t)
    (keeps : ∀ s a t, inv s → stable s → step s a t → stable t) {s t : State}
    (holds : inv s) (now : stable s) (run : Reaches (· = s) step t) : stable t := by
  have both : inv t ∧ stable t := by
    refine reaches_invariant (fun u => inv u ∧ stable u) ?_ ?_ run
    · rintro u rfl
      exact ⟨holds, now⟩
    · intro u a v h taken
      exact ⟨preserve u a v h.1 taken, keeps u a v h.1 h.2 taken⟩
  exact both.2

theorem reaches_append {s t : State} (first : Reaches start step s)
    (rest : Reaches (· = s) step t) : Reaches start step t := by
  induction rest with
  | start here => subst here; exact first
  | next run taken ih => exact Reaches.next ih taken

end Rules

/-- Running a list of actions, for concrete runs. -/
def runActions (step : State → Act → Option State) : State → List Act → Option State
  | s, [] => some s
  | s, a :: rest => (step s a).bind fun t => runActions step t rest

theorem reaches_of_actions {start : State → Prop} {step : State → Act → Option State} :
    ∀ {actions : List Act} {s t : State}, Reaches start (Taken step) s →
      runActions step s actions = some t → Reaches start (Taken step) t := by
  intro actions
  induction actions with
  | nil =>
    intro s t run done
    cases done
    exact run
  | cons a rest ih =>
    intro s t run done
    obtain ⟨mid, first, later⟩ := Option.bind_eq_some_iff.mp done
    exact ih (Reaches.next run first) later

/-- A step function cut down to the steps a decidable condition admits. -/
def allowed (guard : State → Act → Prop) [∀ s a, Decidable (guard s a)]
    (step : State → Act → Option State) (s : State) (a : Act) : Option State :=
  if guard s a then step s a else none

theorem reaches_of_allowed {start : State → Prop} {guard : State → Act → Prop}
    [∀ s a, Decidable (guard s a)] {step : State → Act → Option State} {actions : List Act}
    {s t : State} (run : Reaches start (Guarded guard (Taken step)) s)
    (done : runActions (allowed guard step) s actions = some t) :
    Reaches start (Guarded guard (Taken step)) t := by
  induction actions generalizing s with
  | nil =>
    cases done
    exact run
  | cons a rest ih =>
    obtain ⟨mid, first, later⟩ := Option.bind_eq_some_iff.mp done
    refine ih (Reaches.next run (a := a) ?_) later
    unfold allowed at first
    split at first
    · rename_i may
      exact ⟨may, first⟩
    · cases first

end LabelledRuns
