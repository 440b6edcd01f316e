import Archarch.Tasks.SwitchSafety

/- Bounded overtaking: while a task waits ready, every other task is switched to at most once,
   if no tick comes inside a sched_yield. There pick_next has chosen, and what it chose is
   switched to when the interrupted yield goes on, however late. -/
namespace Archarch.Scheduling
open LabelledRuns CyclicScan

/-- Inside sched_yield. -/
def InYield : Inside → Prop
  | .outside | .creating _ _ _ => False
  | _ => True

instance (place : Inside) : Decidable (InYield place) :=
  match place with
  | .outside | .creating _ _ _ => isFalse id
  | .scanning _ | .looking _ _ | .picked _ | .checked _ _ | .left _ _ | .entered _ _ | .moved _ _
  | .mapped _ _ => isTrue trivial

/-- No tick comes inside a sched_yield. -/
def YieldsWhole (m : Core) : CoreEvent → Prop
  | .tick => ∀ thread ∈ m.exec, ¬ InYield (m.inside thread)
  | _ => True

instance (m : Core) (event : CoreEvent) : Decidable (YieldsWhole m event) :=
  match event with
  | .tick => decidable_of_iff ((m.exec.all fun thread => !decide (InYield (m.inside thread))) = true)
      (by cases exec : m.exec <;> simp [YieldsWhole, exec])
  | .call _ | .beginCreate _ | .beginYield | .proceed => isTrue trivial

def WaitsReady (k : Nat) (m : Core) (_ : CoreEvent) : Prop := m.sched.state k = .ready

instance (k : Nat) (m : Core) (event : CoreEvent) : Decidable (WaitsReady k m event) :=
  inferInstanceAs (Decidable (_ = _))

def WaitsWhole (k : Nat) (m : Core) (event : CoreEvent) : Prop :=
  WaitsReady k m event ∧ YieldsWhole m event

instance (k : Nat) (m : Core) (event : CoreEvent) : Decidable (WaitsWhole k m event) :=
  inferInstanceAs (Decidable (_ ∧ _))

/-- The tasks switched to on the way from m to n. -/
def dispatched (m n : Core) : List Nat := (n.switches.drop m.switches.length).map Switch.loaded

def Towards (s : Sched) (p next : Nat) : Prop :=
  ∀ k, k < s.numTasks → s.state k = .ready → next = k ∨ Between p k next

def NotReadyBelow (s : Sched) (i : Nat) : Prop :=
  ∀ d, 1 ≤ d → d < i → s.state ((s.currentTask + d) % s.numTasks) ≠ .ready

def Choosing (s : Sched) : Inside → Prop
  | .outside | .creating _ _ _ => True
  | .scanning i => 1 ≤ i ∧ NotReadyBelow s i
  | .looking i idx => 1 ≤ i ∧ i ≤ s.numTasks ∧ idx = (s.currentTask + i) % s.numTasks ∧ NotReadyBelow s i
  | .picked next => next < s.numTasks ∧ Towards s s.currentTask next
  | .checked next prev | .left next prev =>
    prev = s.currentTask ∧ next ≠ prev ∧ next < s.numTasks ∧ Towards s prev next
  | .entered next prev =>
    prev = s.currentTask ∧ next ≠ prev ∧ next < s.numTasks ∧ s.state next = .running ∧ Towards s prev next
  | .moved next prev | .mapped next prev =>
    s.currentTask = next ∧ next ≠ prev ∧ s.state next = .running ∧ Towards s prev next

structure YieldInv (m : Core) : Prop where
  current : m.sched.currentTask < m.sched.numTasks
  others : ∀ thread, m.exec ≠ some thread → ¬ InYield (m.inside thread)
  place : ∀ thread, m.exec = some thread → Choosing m.sched (m.inside thread)

def positionAt (s : Sched) : Inside → Nat
  | .moved _ prev | .mapped _ prev => prev
  | _ => s.currentTask

def position (m : Core) : Nat :=
  match m.exec with
  | some e => positionAt m.sched (m.inside e)
  | none => m.sched.currentTask

def Advances (k : Nat) (m n : Core) : Prop :=
  n.switches = m.switches ∧ position n = position m ∨
  ∃ x, n.switches = m.switches ++ [x] ∧ (x.loaded = k ∨ Between (position m) k x.loaded) ∧
    (n.sched.state k = .ready → x.loaded ≠ k ∧ position n = x.loaded)

structure StepAdvances (m n : Core) : Prop where
  inv : YieldInv n
  count : m.sched.numTasks ≤ n.sched.numTasks
  rounds : ∀ k, k < m.sched.numTasks → m.sched.state k = .ready → Advances k m n

section Positions
variable {m : Core} {e : Nat} {place : Inside}

theorem choosing_of_calm (s : Sched) (calm : ¬ InYield place) : Choosing s place := by
  cases place <;> first | exact trivial | exact absurd trivial calm

theorem position_of_calm (exec : m.exec = some e) (calm : ¬ Moved (m.inside e)) :
    position m = m.sched.currentTask := by
  rw [position, exec]
  dsimp only
  cases here : m.inside e <;> first | rfl | exact absurd (by rw [here]; trivial) calm

theorem not_moved (calm : ¬ InYield place) : ¬ Moved place := by
  cases place <;> first | exact id | exact absurd trivial calm

end Positions

section Steps
variable {e next : Nat} {m : Core} {after : Sched} {place : Inside}

theorem switch_advances {thread prev : Nat} {masked : Bool} (calm : ∀ t, ¬ InYield (m.inside t))
    (now : after.currentTask = next) (low : next < after.numTasks) :
    YieldInv (m.switch thread prev next after masked) ∧
      position (m.switch thread prev next after masked) = next := by
  have current : (m.switch thread prev next after masked).sched.currentTask = next := now
  refine ⟨⟨?_, ?_, ?_⟩, ?_⟩
  · rw [current]
    exact low
  · intro t _
    exact calm t
  · intro t _
    exact choosing_of_calm _ (calm t)
  · cases exec : (m.switch thread prev next after masked).exec with
    | none =>
      rw [position, exec]
      exact now
    | some t =>
      rw [position_of_calm exec (not_moved (calm t))]
      exact current

theorem settle_yield_advances {u : Sched} {here : Resume} (masked : Bool) (inv : YieldInv m)
    (exec : m.exec = some e) (calm : ¬ InYield (m.inside e)) (prepared : Prepared m.sched u) :
    StepAdvances m (m.settle e (schedYield u here) masked) := by
  have all : ∀ t, ¬ InYield (m.inside t) := by
    intro t
    by_cases me : m.exec = some t
    · rw [exec] at me
      cases me
      exact calm
    · exact inv.others t me
  have low : u.currentTask < u.numTasks := by
    rw [prepared.current, prepared.count]
    exact inv.current
  have before : position m = m.sched.currentTask := position_of_calm exec (not_moved calm)
  obtain ⟨count, same | ⟨other, now, states⟩⟩ := yield_outcome u here
  all_goals have grown : m.sched.numTasks ≤ (schedYield u here).numTasks :=
    Nat.le_of_eq (count.trans prepared.count).symm
  · have kept : (schedYield u here).currentTask = m.sched.currentTask := same.1.trans prepared.current
    rw [Core.settle, if_pos kept]
    refine ⟨⟨?_, inv.others, fun t _ => choosing_of_calm _ (all t)⟩, grown, fun k _ _ => Or.inl ⟨rfl, ?_⟩⟩
    · dsimp only
      rw [same.1, count]
      exact low
    · rw [before, ← kept]
      apply position_of_calm (e := e)
      · exact exec
      · exact not_moved calm
  · have moved : ¬ (schedYield u here).currentTask = m.sched.currentTask := by
      rw [now, ← prepared.current]
      exact other
    have inside : (schedYield u here).currentTask < (schedYield u here).numTasks := by
      rw [now, count]
      exact picks_lt low (pick_next_picks u)
    rw [Core.settle, if_neg moved]
    obtain ⟨after, there⟩ := @switch_advances (schedYield u here).currentTask
      { m with contexts := if m.sched.numTasks < (schedYield u here).numTasks then
        Function.update m.contexts m.sched.numTasks (startContext m.sched.numTasks) else m.contexts }
      (schedYield u here) e m.sched.currentTask masked all rfl inside
    refine ⟨after, grown, fun k task ready => Or.inr ⟨_, rfl, ?_, ?_⟩⟩
    · dsimp only
      rw [before, now]
      by_cases me : k = m.sched.currentTask
      · right
        rw [← me]
        apply between_of_ne
        rw [me, ← prepared.current]
        exact other
      · rw [← prepared.current]
        apply picks_towards low (pick_next_picks u) (by rw [prepared.count]; exact task)
        rcases prepared.state k with same | ⟨asleep, _⟩ | ⟨here, _⟩
        · rw [same]
          exact ready
        · rw [ready] at asleep
          cases asleep
        · exact absurd here me
    · intro still
      refine ⟨?_, there⟩
      dsimp only
      intro mine
      have state : (schedYield u here).state k = .running := by
        rw [states k, if_neg (by rw [← mine, now]; exact other), if_pos (by rw [← mine, now])]
      have now : (schedYield u here).state k = .ready := still
      rw [state] at now
      cases now

theorem settle_quiet (masked : Bool) (inv : YieldInv m) (exec : m.exec = some e)
    (calm : ¬ InYield (m.inside e)) (current : after.currentTask = m.sched.currentTask)
    (count : m.sched.numTasks ≤ after.numTasks) :
    StepAdvances m (m.settle e after masked) := by
  rw [Core.settle, if_pos current]
  refine ⟨⟨?_, inv.others, ?_⟩, count, fun k _ _ => Or.inl ⟨rfl, ?_⟩⟩
  · dsimp only
    rw [current]
    exact Nat.lt_of_lt_of_le inv.current count
  · intro t same
    rw [exec] at same
    cases same
    exact choosing_of_calm _ calm
  · rw [position_of_calm exec (not_moved calm), ← current]
    apply position_of_calm (e := e)
    · exact exec
    · exact not_moved calm

theorem settle_call_advances (call : SchedCall) (masked : Bool) (inv : YieldInv m) (exec : m.exec = some e)
    (calm : ¬ InYield (m.inside e)) : StepAdvances m (m.settle e (schedCall m.sched call) masked) := by
  have shape := call_shape m.sched call
  generalize schedCall m.sched call = after at shape ⊢
  cases shape with
  | made new room => exact settle_quiet masked inv exec calm rfl (Nat.le_succ _)
  | stayed _ prepared =>
    exact settle_quiet masked inv exec calm prepared.current (Nat.le_of_eq prepared.count.symm)
  | yielded u here prepared => exact settle_yield_advances masked inv exec calm prepared

theorem statement_advances {contexts : Nat → TaskContext} (inv : YieldInv m) (exec : m.exec = some e)
    (current : after.currentTask < after.numTasks) (count : m.sched.numTasks ≤ after.numTasks)
    (choosing : Choosing after place)
    (same : positionAt after place = positionAt m.sched (m.inside e)) :
    StepAdvances m { m.setInside e place with sched := after, contexts := contexts } := by
  have mine : (m.setInside e place).inside e = place := Function.update_self _ _ _
  refine ⟨⟨current, ?_, ?_⟩, count, fun k _ _ => Or.inl ⟨rfl, ?_⟩⟩
  · intro t away
    have other : t ≠ e := by
      rintro rfl
      exact away exec
    have kept : (m.setInside e place).inside t = m.inside t := Function.update_of_ne other _ _
    dsimp only
    rw [kept]
    exact inv.others t away
  · intro t here
    have me : t = e := Option.some.inj (here.symm.trans exec)
    dsimp only
    rw [me, mine]
    exact choosing
  · have before : position m = positionAt m.sched (m.inside e) := by rw [position, exec]
    rw [before, ← same, position]
    dsimp only
    rw [show (m.setInside e place).exec = some e from exec]
    dsimp only
    rw [mine]

theorem towards_set_ready {s : Sched} (towards : Towards s s.currentTask next) (other : next ≠ s.currentTask)
    (t : Task) : Towards (s.setTask s.currentTask t) s.currentTask next := by
  intro j low ready
  by_cases me : j = s.currentTask
  · right
    rw [me]
    exact between_of_ne other
  · rw [Sched.state, set_task_other _ me] at ready
    exact towards j low ready

theorem towards_set_next {s : Sched} {p : Nat} (towards : Towards s p next) (t : Task) :
    Towards (s.setTask next t) p next := by
  intro j low ready
  by_cases me : j = next
  · exact Or.inl me.symm
  · rw [Sched.state, set_task_other _ me] at ready
    exact towards j low ready

theorem scanning_advances {i : Nat} (inv : YieldInv m) (exec : m.exec = some e) (here : m.inside e = .scanning i) :
    StepAdvances m (proceed m e (.scanning i)) := by
  have current := inv.current
  have place := inv.place e exec
  rw [here] at place
  obtain ⟨some, missed⟩ := place
  rw [proceed]
  split
  · rename_i inside
    exact statement_advances inv exec current (Nat.le_refl _) ⟨some, inside, rfl, missed⟩ (by rw [here]; rfl)
  · rename_i past
    have picks : Picks m.sched
        (if m.sched.state m.sched.currentTask = .running then m.sched.currentTask else 0) :=
      Or.inr ⟨fun d low high => missed d low (by omega), rfl⟩
    exact statement_advances inv exec current (Nat.le_refl _)
      ⟨picks_lt current picks, fun j low => picks_towards current picks low⟩ (by rw [here]; rfl)

theorem looking_advances {i idx : Nat} (inv : YieldInv m) (exec : m.exec = some e)
    (here : m.inside e = .looking i idx) : StepAdvances m (proceed m e (.looking i idx)) := by
  have current := inv.current
  have place := inv.place e exec
  rw [here] at place
  obtain ⟨some, inside, index, missed⟩ := place
  rw [proceed]
  split
  · rename_i found
    have picks : Picks m.sched idx := Or.inl ⟨i, some, inside, index, found, missed⟩
    exact statement_advances inv exec current (Nat.le_refl _)
      ⟨picks_lt current picks, fun j low => picks_towards current picks low⟩ (by rw [here]; rfl)
  · rename_i not
    apply statement_advances inv exec current (Nat.le_refl _) _ (by rw [here]; rfl)
    refine ⟨by omega, ?_⟩
    intro d low high
    by_cases last : d = i
    · rw [last, ← index]
      exact not
    · exact missed d low (by omega)

/-- The switch goes to the task that the yield has chosen. -/
theorem mapped_advances {prev : Nat} (inv : YieldInv m) (exec : m.exec = some e)
    (here : m.inside e = .mapped next prev) : StepAdvances m (proceed m e (.mapped next prev)) := by
  have current := inv.current
  have place := inv.place e exec
  rw [here] at place
  obtain ⟨now, other, running, towards⟩ := place
  have calm : ∀ t, ¬ InYield ((m.setInside e .outside).inside t) := by
    intro t
    by_cases me : t = e
    · have back : (m.setInside e .outside).inside t = .outside := by
        rw [me]
        exact Function.update_self _ _ _
      rw [back]
      exact id
    · have kept : (m.setInside e .outside).inside t = m.inside t := Function.update_of_ne me _ _
      rw [kept]
      apply inv.others t
      rw [exec]
      intro same
      exact me (Option.some.inj same).symm
  obtain ⟨after, there⟩ := @switch_advances next _ (contextSwitch m.sched prev next .yielded)
    e prev m.masked calm now (now ▸ current)
  have before : position m = prev := by
    rw [position, exec]
    dsimp only
    rw [here, positionAt]
  refine ⟨after, Nat.le_refl _, fun k task ready => Or.inr ⟨_, rfl, ?_, ?_⟩⟩
  · rw [before]
    exact towards k task ready
  · intro _
    refine ⟨?_, there⟩
    rintro rfl
    rw [running] at ready
    cases ready

theorem proceed_advances (inv : YieldInv m) (exec : m.exec = some e) :
    StepAdvances m (proceed m e (m.inside e)) := by
  have place := inv.place e exec
  have current := inv.current
  cases here : m.inside e with
  | outside =>
    exact ⟨inv, Nat.le_refl _, fun _ _ _ => Or.inl ⟨rfl, rfl⟩⟩
  | creating id pgd done =>
    rw [proceed]
    split
    · exact statement_advances inv exec current (Nat.le_refl _) trivial (by rw [here]; rfl)
    · exact statement_advances inv exec current (Nat.le_refl _) trivial (by rw [here]; rfl)
  | scanning i => exact scanning_advances inv exec here
  | looking i idx => exact looking_advances inv exec here
  | picked next =>
    rw [here] at place
    rw [proceed]
    split
    · exact statement_advances inv exec current (Nat.le_refl _) trivial (by rw [here]; rfl)
    · rename_i other
      exact statement_advances inv exec current (Nat.le_refl _) ⟨rfl, other, place⟩ (by rw [here]; rfl)
  | checked next prev =>
    rw [here] at place
    obtain ⟨rfl, other, low, towards⟩ := place
    rw [proceed]
    split
    · exact statement_advances inv exec current (Nat.le_refl _) ⟨rfl, other, low, towards_set_ready towards other _⟩
        (by rw [here]; rfl)
    · exact statement_advances inv exec current (Nat.le_refl _) ⟨rfl, other, low, towards⟩ (by rw [here]; rfl)
  | left next prev =>
    rw [here] at place
    obtain ⟨rfl, other, low, towards⟩ := place
    exact statement_advances inv exec current (Nat.le_refl _)
      ⟨rfl, other, low, congrArg Task.state (set_task_same _), towards_set_next towards _⟩
      (by rw [here]; rfl)
  | entered next prev =>
    rw [here] at place
    obtain ⟨before, other, low, running, towards⟩ := place
    exact statement_advances inv exec low (Nat.le_refl _) ⟨rfl, other, running, towards⟩ (by rw [here]; exact before)
  | moved next prev =>
    rw [here] at place
    exact statement_advances inv exec current (Nat.le_refl _) place (by rw [here]; rfl)
  | mapped next prev => exact mapped_advances inv exec here

theorem core_step_advances {n : Core} {event : CoreEvent} (inv : YieldInv m) (whole : YieldsWhole m event)
    (step : coreStep m event = some n) : StepAdvances m n := by
  cases exec : m.exec with
  | none =>
    rw [coreStep, exec] at step
    cases step
  | some e =>
    simp only [coreStep, exec, Option.bind_some] at step
    cases event with
    | call c =>
      dsimp only at step
      split at step <;> cases step
      rename_i out
      exact settle_call_advances c _ inv exec (by rw [out]; exact id)
    | beginCreate pgd =>
      dsimp only at step
      split at step <;> cases step
      rename_i may
      exact statement_advances inv exec (Nat.lt_succ_of_lt inv.current) (Nat.le_succ _) trivial (by rw [may.1]; rfl)
    | beginYield =>
      dsimp only at step
      split at step <;> cases step
      rename_i may
      refine statement_advances inv exec inv.current (Nat.le_refl _) ⟨Nat.le_refl 1, ?_⟩ (by rw [may.1]; rfl)
      intro d low high
      omega
    | proceed =>
      dsimp only at step
      split at step <;> cases step
      exact proceed_advances inv exec
    | tick =>
      dsimp only at step
      split at step <;> cases step
      obtain ⟨u, prepared, done⟩ := tick_shape m.sched
      rw [done]
      exact settle_yield_advances true inv exec (whole e exec) prepared

end Steps

section Runs
variable {m n : Core} {k : Nat}

theorem core_start_yields (start : CoreStart m) : YieldInv m := by
  obtain ⟨⟨before, sched⟩, _, _, _, inside, _⟩ := start
  refine ⟨?_, ?_, ?_⟩
  · rw [sched, schedInit]
    exact Nat.one_pos
  · intro t _
    rw [inside]
    exact id
  · intro t _
    rw [inside]
    trivial

/-- Runs with no tick inside a sched_yield. -/
def WholeYieldRun : Core → Prop := Reaches CoreStart (Guarded YieldsWhole (Taken coreStep))

theorem whole_yield_inv (run : WholeYieldRun m) : YieldInv m := by
  apply reaches_invariant YieldInv _ _ run
  · intro m start
    exact core_start_yields start
  · intro m event n inv step
    exact (core_step_advances inv step.1 step.2).inv

structure Overtaken (k : Nat) (m n : Core) (met : List Switch) : Prop where
  inv : YieldInv n
  task : k < n.sched.numTasks
  log : n.switches = m.switches ++ met
  once : ∀ j, j ≠ k → (met.map Switch.loaded).count j ≤ 1
  round : n.sched.state k = .ready → Round k (position n) (met.map Switch.loaded)

theorem overtaken_step {l : Core} {event : CoreEvent} {met : List Switch} (before : Overtaken k m n met)
    (whole : YieldsWhole n event) (ready : n.sched.state k = .ready) (step : coreStep n event = some l) :
    ∃ met, Overtaken k m l met := by
  obtain ⟨inv, count, rounds⟩ := core_step_advances before.inv whole step
  have task := Nat.lt_of_lt_of_le before.task count
  have round := before.round ready
  rcases rounds k before.task ready with ⟨log, still⟩ | ⟨x, log, ahead, now⟩
  · refine ⟨met, inv, task, log.trans before.log, before.once, ?_⟩
    intro _
    rw [still]
    exact round
  · refine ⟨met ++ [x], inv, task, ?_, ?_, ?_⟩
    · rw [log, before.log, List.append_assoc]
    · rw [List.map_append]
      exact round_once round ahead
    · intro again
      obtain ⟨other, there⟩ := now again
      rw [List.map_append, there]
      exact round_append round (ahead.resolve_left other)

theorem overtaken_run (inv : YieldInv m) (task : k < m.sched.numTasks)
    (waits : Reaches (· = m) (Guarded (WaitsWhole k) (Taken coreStep)) n) :
    ∃ met, Overtaken k m n met := by
  apply reaches_invariant (fun n => ∃ met, Overtaken k m n met) _ _ waits
  · rintro n rfl
    exact ⟨[], inv, task, (List.append_nil _).symm, fun _ _ => Nat.zero_le 1, fun _ => round_nil⟩
  · rintro n event l ⟨met, before⟩ ⟨⟨ready, whole⟩, step⟩
    exact overtaken_step before whole ready step

end Runs

/-- While k waits ready, no other task is switched to twice. -/
theorem overtaken_once (m : Core) (run : WholeYieldRun m) (k : Nat) (task : k < m.sched.numTasks)
    (n : Core) (waits : Reaches (· = m) (Guarded (WaitsWhole k) (Taken coreStep)) n)
    (j : Nat) (other : j ≠ k) : (dispatched m n).count j ≤ 1 := by
  obtain ⟨met, overtaken⟩ := overtaken_run (whole_yield_inv run) task waits
  rw [dispatched, overtaken.log, List.drop_left]
  exact overtaken.once j other

/-- Task 2 forks task 3 while task 1 waits; task 3 and the idle task come before task 1. -/
theorem overtaken_by_fork : ∃ m n, WholeYieldRun m ∧
    Reaches (· = m) (Guarded (WaitsWhole 1) (Taken coreStep)) n ∧ dispatched m n = [3, 0] ∧
    (dispatched m n).count 3 ≤ 1 := by
  have look : (runActions (allowed YieldsWhole coreStep) bootCore
      [.call (.createUser 0x40200000), .call (.createUser 0x40300000), .tick, .tick]).any (fun m =>
        (runActions (allowed (WaitsWhole 1) coreStep) m
          [.call (.fork 0x40400000), .call .yield, .tick]).any fun n =>
            decide (1 < m.sched.numTasks ∧ dispatched m n = [3, 0])) = true := by
    decide +kernel
  obtain ⟨m, before, found⟩ := (Option.any_eq_true _ _).mp look
  obtain ⟨n, after, here⟩ := (Option.any_eq_true _ _).mp found
  obtain ⟨task, log⟩ := of_decide_eq_true here
  have run : WholeYieldRun m := reaches_of_allowed (Reaches.start boot_core_starts) before
  have waits : Reaches (· = m) (Guarded (WaitsWhole 1) (Taken coreStep)) n :=
    reaches_of_allowed (Reaches.start rfl) after
  exact ⟨m, n, run, waits, log, overtaken_once m run 1 task n waits 3 (by decide)⟩

/-- Task 1 waits for task 2 when a tick interrupts the idle task behind its pick_next, which
    has chosen task 2. Woken by a signal of task 2, task 1 sees the idle task twice: the second
    time behind the switch to task 2 that the interrupted sched_yield still does. -/
theorem stale_choice_overtakes : ¬ ∀ m, Reaches CoreStart (Taken coreStep) m → ∀ k, k < m.sched.numTasks →
    ∀ n, Reaches (· = m) (Guarded (WaitsReady k) (Taken coreStep)) n →
      ∀ j, j ≠ k → (dispatched m n).count j ≤ 1 := by
  have look : (runActions coreStep bootCore
      [.call (.createUser 0x40200000), .tick, .call (.fork 0x40300000), .call (.wait 2), .tick, .beginYield,
        .proceed, .proceed, .proceed, .proceed, .tick, .call (.signal 1 10)]).any (fun m =>
        (runActions (allowed (WaitsReady 1) coreStep) m
          ([.call .yield] ++ List.replicate 6 .proceed ++ [.call .yield])).any fun n =>
            decide (1 < m.sched.numTasks ∧ dispatched m n = [0, 2, 0])) = true := by
    decide +kernel
  obtain ⟨m, before, found⟩ := (Option.any_eq_true _ _).mp look
  obtain ⟨n, after, here⟩ := (Option.any_eq_true _ _).mp found
  obtain ⟨task, log⟩ := of_decide_eq_true here
  intro all
  have once := all m (reaches_of_actions (Reaches.start boot_core_starts) before) 1 task n
    (reaches_of_allowed (Reaches.start rfl) after) 0 (by decide)
  rw [log] at once
  exact absurd once (by decide)

end Archarch.Scheduling
