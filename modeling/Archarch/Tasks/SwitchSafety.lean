import Archarch.Tasks.Preemption

/- Which context a context_switch saves into and loads from when the timer interrupts the
   boot thread: a tick between current_task = next and context_switch, or in the middle of a
   slot initialisation, mixes contexts up; everywhere else it is safe. -/
namespace Archarch.Scheduling
open LabelledRuns

def Whole (context : TaskContext) (id : Nat) : Prop := context = startContext id ∨ context = liveContext id

instance (context : TaskContext) (id : Nat) : Decidable (Whole context id) :=
  inferInstanceAs (Decidable (_ ∨ _))

/-- The thread saves into its own slot and loads a whole context. -/
def SoundSwitch (x : Switch) : Prop := x.saved = x.thread ∧ Whole x.content x.loaded

instance (x : Switch) : Decidable (SoundSwitch x) := inferInstanceAs (Decidable (_ ∧ _))

def UnderWay : Inside → Nat → Prop
  | .creating id pgd done, i => id = i ∧ 0 < done ∧ done < (createUserStores id pgd).length
  | _, _ => False

/-- The places where a tick mixes contexts up. -/
def Exposed : Inside → Prop
  | .creating id pgd done => 0 < done ∧ done < (createUserStores id pgd).length
  | .moved _ _ | .mapped _ _ => True
  | _ => False

instance (place : Inside) : Decidable (Exposed place) := by
  cases place <;> simp only [Exposed] <;> infer_instance

def Placed (m : Core) : CoreEvent → Prop
  | .tick => ∀ thread ∈ m.exec, ¬ Exposed (m.inside thread)
  | _ => True

instance (m : Core) (event : CoreEvent) : Decidable (Placed m event) := by
  cases event <;> simp only [Placed] <;> infer_instance

def Used (s : Sched) (i : Nat) : Prop := i < s.numTasks ∧ s.state i ≠ .unused

structure Extends (s t : Sched) : Prop where
  count : s.numTasks ≤ t.numTasks
  state : ∀ i, i < s.numTasks → (t.state i = .unused ↔ s.state i = .unused)
  fresh : ∀ i, t.numTasks ≤ i → i < schedMaxTasks → t.state i = s.state i

def slotOf (m : Core) (id : Nat) : Slot := ⟨m.sched.tasks id, m.contexts id⟩

/-- What holds of the place of a thread while thread e executes. -/
def PlaceInv (m : Core) (e thread : Nat) : Inside → Prop
  | .outside | .scanning _ => True
  | .looking _ idx => idx < m.sched.numTasks
  | .creating id pgd done => id < m.sched.numTasks ∧ (done = 0 → m.sched.state id = .unused) ∧
      (0 < done → done < (createUserStores id pgd).length → thread = e ∧
        ∃ t, slotOf m id = ((createUserStores id pgd).take done).foldl (fun t store => store t) t)
  | .picked next => Used m.sched next
  | .checked next prev | .left next prev | .entered next prev =>
    prev = thread ∧ next ≠ thread ∧ Used m.sched next
  | .moved next prev | .mapped next prev =>
    prev = thread ∧ next ≠ thread ∧ Used m.sched next ∧ thread = e ∧ m.sched.currentTask = next

def creates : Inside → Option Nat
  | .creating id _ _ => some id
  | _ => none

structure SwitchInv (m : Core) (e : Nat) : Prop where
  exec : m.exec = some e
  mine : Used m.sched e
  zero : Used m.sched 0
  fresh : ∀ i, m.sched.numTasks ≤ i → i < schedMaxTasks → m.sched.state i = .unused
  places : ∀ thread, PlaceInv m e thread (m.inside thread)
  distinct : ∀ t u id, t ≠ u → creates (m.inside t) = some id → creates (m.inside u) ≠ some id
  whole : ∀ i, Used m.sched i → i ≠ e → ¬ UnderWay (m.inside e) i → Whole (m.contexts i) i
  sound : ∀ x ∈ m.switches, SoundSwitch x

section Places
variable {m n : Core} {e f t id : Nat} {s u : Sched} {place : Inside}

theorem resumes_whole {context : TaskContext} (whole : Whole context id) : resumes context = some id := by
  rcases whole with rfl | rfl
  · exact if_pos rfl
  · exact if_pos rfl

theorem extends_used (ext : Extends s u) (used : Used s id) : Used u id :=
  ⟨Nat.lt_of_lt_of_le used.1 ext.count, fun unused => used.2 ((ext.state id used.1).mp unused)⟩

theorem extends_refl (s : Sched) : Extends s s :=
  ⟨Nat.le_refl _, fun _ _ => Iff.rfl, fun _ _ _ => rfl⟩

theorem exposed_of_under_way {i : Nat} (under : UnderWay place i) : Exposed place := by
  cases place <;> first | exact False.elim under | exact under.2

theorem not_under_way (plain : creates place = none) (i : Nat) : ¬ UnderWay place i := by
  cases place <;> first | exact id | cases plain

/-- A place that is not exposed survives as long as used slots stay so, and the slot of a
    creation that has not begun stays unused. -/
theorem place_kept (here : PlaceInv m e t place) (calm : ¬ Exposed place)
    (count : m.sched.numTasks ≤ n.sched.numTasks) (used : ∀ i, Used m.sched i → Used n.sched i)
    (unused : ∀ i, creates place = some i → i < m.sched.numTasks → m.sched.state i = .unused →
      n.sched.state i = .unused) : PlaceInv n f t place := by
  cases place with
  | outside => trivial
  | scanning i => trivial
  | looking i idx => exact Nat.lt_of_lt_of_le here count
  | creating id pgd done =>
    obtain ⟨bound, before, _⟩ := here
    refine ⟨Nat.lt_of_lt_of_le bound count, fun none => unused id rfl bound (before none), ?_⟩
    intro some more
    exact absurd ⟨some, more⟩ calm
  | picked next => exact used next here
  | checked next prev => exact ⟨here.1, here.2.1, used next here.2.2⟩
  | left next prev => exact ⟨here.1, here.2.1, used next here.2.2⟩
  | entered next prev => exact ⟨here.1, here.2.1, used next here.2.2⟩
  | moved next prev => exact absurd trivial calm
  | mapped next prev => exact absurd trivial calm

theorem place_extends (here : PlaceInv m e t place) (calm : ¬ Exposed place)
    (ext : Extends m.sched n.sched) : PlaceInv n f t place :=
  place_kept here calm ext.count (fun _ => extends_used ext) fun i _ low => (ext.state i low).mpr

theorem calm_of_other (here : PlaceInv m e t place) (other : t ≠ e) : ¬ Exposed place := by
  intro exposed
  cases place with
  | creating id pgd done => exact other (here.2.2 exposed.1 exposed.2).1
  | moved next prev => exact other here.2.2.2.1
  | mapped next prev => exact other here.2.2.2.1
  | _ => exact exposed

end Places

section Steps
variable {m : Core} {e next : Nat} {after : Sched} {place : Inside}

theorem switch_inv_inside (inv : SwitchInv m e) (calm : ∀ i, ¬ UnderWay (m.inside e) i)
    (plain : creates place = none) (here : PlaceInv m e e place) : SwitchInv (m.setInside e place) e := by
  have mine : (m.setInside e place).inside e = place := Function.update_self _ _ _
  have others : ∀ t, t ≠ e → (m.setInside e place).inside t = m.inside t :=
    fun t other => Function.update_of_ne other _ _
  refine ⟨inv.exec, inv.mine, inv.zero, inv.fresh, ?_, ?_, ?_, inv.sound⟩
  · intro t
    by_cases same : t = e
    · subst same
      rw [mine]
      cases place <;> exact here
    · rw [others t same]
      have before := inv.places t
      exact place_extends before (calm_of_other before same) (extends_refl _)
  · intro t u id other first
    by_cases same : t = e
    · rw [same, mine, plain] at first
      cases first
    · rw [others t same] at first
      by_cases again : u = e
      · rw [again, mine, plain]
        simp
      · rw [others u again]
        exact inv.distinct t u id other first
  · intro i used other _
    exact inv.whole i used other (calm i)

theorem switch_inv_sched (inv : SwitchInv m e) (calm : ¬ Exposed (m.inside e))
    (ext : Extends m.sched after) (count : after.numTasks = m.sched.numTasks) :
    SwitchInv { m with sched := after } e := by
  have back : ∀ {i}, Used after i → Used m.sched i := by
    intro i used
    rw [Used, count] at used
    exact ⟨used.1, fun unused => used.2 ((ext.state i used.1).mpr unused)⟩
  refine ⟨inv.exec, extends_used ext inv.mine, extends_used ext inv.zero, ?_, ?_, inv.distinct, ?_, inv.sound⟩
  · intro i high low
    dsimp only at high ⊢
    rw [ext.fresh i high low]
    exact inv.fresh i (by omega) low
  · intro t
    have before := inv.places t
    by_cases same : t = e
    · subst same
      exact place_extends before calm ext
    · exact place_extends before (calm_of_other before same) ext
  · intro i used
    exact inv.whole i (back used)

theorem switch_inv_switch (inv : SwitchInv m e) (calm : ¬ Exposed (m.inside e)) (used : Used m.sched next)
    (other : next ≠ e) (ext : Extends m.sched after) (count : after.numTasks = m.sched.numTasks)
    (masked : Bool) : SwitchInv (m.switch e e next after masked) next := by
  have moved := switch_inv_sched inv calm ext count
  have still : ∀ i, ¬ UnderWay (m.inside e) i := fun i under => calm (exposed_of_under_way under)
  have whole := inv.whole next used other (still next)
  refine ⟨resumes_whole whole, extends_used ext used, moved.zero, moved.fresh, ?_, inv.distinct, ?_, ?_⟩
  · intro t
    have before := inv.places t
    by_cases same : t = e
    · subst same
      exact place_extends before calm ext
    · exact place_extends before (calm_of_other before same) ext
  · intro i here away _
    by_cases same : i = e
    · right
      rw [same]
      exact Function.update_self _ _ _
    · rw [Core.switch]
      dsimp only
      rw [Function.update_of_ne same]
      exact moved.whole i here same (still i)
  · intro x member
    rcases List.mem_append.mp member with before | last
    · exact inv.sound x before
    · rw [List.mem_singleton.mp last]
      exact ⟨rfl, whole⟩

theorem extends_prepared {s u : Sched} (prepared : Prepared s u) (current : Used s s.currentTask)
    (fresh : ∀ i, s.numTasks ≤ i → i < schedMaxTasks → s.state i = .unused) : Extends s u := by
  refine ⟨Nat.le_of_eq prepared.count.symm, ?_, ?_⟩
  · intro i _
    rcases prepared.state i with same | ⟨asleep, woken⟩ | ⟨here, used⟩
    · rw [same]
    · rw [asleep, woken]
      simp
    · constructor
      · intro unused
        exact absurd unused used
      · intro unused
        rw [here] at unused
        exact absurd unused current.2
  · intro i high low
    rw [prepared.count] at high
    rcases prepared.state i with same | ⟨asleep, _⟩ | ⟨here, _⟩
    · exact same
    · rw [fresh i high low] at asleep
      cases asleep
    · exact absurd current.1 (by omega)

theorem picks_used {u : Sched} (picks : Picks u next) (zero : Used u 0) (current : u.currentTask < u.numTasks) :
    next = u.currentTask ∨ Used u next := by
  have low := picks_lt current picks
  rcases picks with ⟨_, _, _, _, ready, _⟩ | ⟨_, choice⟩
  · exact Or.inr ⟨low, by simp [ready]⟩
  · split at choice
    · exact Or.inl choice
    · rw [choice]
      exact Or.inr zero

theorem yield_extends {s u : Sched} (here : Resume) (prepared : Prepared s u) (current : Used s s.currentTask)
    (zero : Used s 0) (fresh : ∀ i, s.numTasks ≤ i → i < schedMaxTasks → s.state i = .unused) :
    Extends s (schedYield u here) ∧ (schedYield u here).numTasks = s.numTasks ∧
      ((schedYield u here).currentTask = s.currentTask ∨ Used s (schedYield u here).currentTask) := by
  have before := extends_prepared prepared current fresh
  have back : ∀ {i}, Used u i → Used s i := by
    intro i used
    rw [Used, prepared.count] at used
    exact ⟨used.1, fun unused => used.2 ((before.state i used.1).mpr unused)⟩
  have low : u.currentTask < u.numTasks := by
    rw [prepared.current, prepared.count]
    exact current.1
  obtain ⟨count, same | ⟨other, now, states⟩⟩ := yield_outcome u here
  · obtain ⟨kept, states⟩ := same
    refine ⟨⟨?_, ?_, ?_⟩, count.trans prepared.count, Or.inl (kept.trans prepared.current)⟩
    · rw [count]
      exact before.count
    · intro i inside
      rw [states i]
      exact before.state i inside
    · intro i high small
      rw [states i]
      exact before.fresh i (by rwa [count] at high) small
  · have used := back ((picks_used (pick_next_picks u) (extends_used before zero) low).resolve_left other)
    refine ⟨⟨?_, ?_, ?_⟩, count.trans prepared.count, Or.inr (by rwa [now])⟩
    · rw [count]
      exact before.count
    · intro i inside
      rw [states i]
      split
      · rename_i me
        have mine := (before.state i inside).not.mpr (by rw [me, prepared.current]; exact current.2)
        split
        · simp [me, prepared.current, current.2]
        · exact before.state i inside
      · split
        · rename_i chosen
          rw [chosen]
          simp [used.2]
        · exact before.state i inside
    · intro i high small
      rw [count, prepared.count] at high
      have outside : i ≠ u.currentTask := by
        rw [prepared.current]
        exact Nat.ne_of_gt (Nat.lt_of_lt_of_le current.1 high)
      have notNext : i ≠ pickNext u := Nat.ne_of_gt (Nat.lt_of_lt_of_le used.1 high)
      rw [states i, if_neg outside, if_neg notNext]
      exact before.fresh i (by rw [prepared.count]; exact high) small

def Moved : Inside → Prop
  | .moved _ _ | .mapped _ _ => True
  | _ => False

theorem exposed_of_moved (moved : Moved place) : Exposed place := by
  cases place <;> first | exact False.elim moved | exact trivial

/-- The state of a run: the executing thread is the current task unless it is about to
    switch. -/
def CoreInv (m : Core) : Prop :=
  ∃ e, SwitchInv m e ∧ (¬ Moved (m.inside e) → m.sched.currentTask = e)

theorem settle_yield {u : Sched} {here : Resume} (masked : Bool) (inv : SwitchInv m e)
    (calm : ¬ Exposed (m.inside e)) (current : m.sched.currentTask = e) (prepared : Prepared m.sched u) :
    CoreInv (m.settle e (schedYield u here) masked) := by
  obtain ⟨ext, count, next⟩ := yield_extends here prepared (current ▸ inv.mine) inv.zero inv.fresh
  have made : (if m.sched.numTasks < (schedYield u here).numTasks then
      Function.update m.contexts m.sched.numTasks (startContext m.sched.numTasks) else m.contexts) =
      m.contexts := if_neg (by omega)
  rw [Core.settle, made]
  dsimp only
  split
  · rename_i same
    exact ⟨e, switch_inv_sched inv calm ext count, fun _ => same.trans current⟩
  · rename_i other
    have used := next.resolve_left other
    rw [current] at other ⊢
    exact ⟨_, switch_inv_switch inv calm used other ext count masked, fun _ => rfl⟩

theorem settle_made {new : Task} (masked : Bool) (inv : SwitchInv m e) (out : m.inside e = .outside)
    (current : m.sched.currentTask = e) :
    CoreInv (m.settle e (addTask m.sched new).2 masked) := by
  have mine : (addTask m.sched new).2.tasks m.sched.numTasks = new := set_task_same new
  have kept : ∀ i, i ≠ m.sched.numTasks → (addTask m.sched new).2.state i = m.sched.state i := by
    intro i other
    exact congrArg Task.state (set_task_other new other)
  have ext : Extends m.sched (addTask m.sched new).2 := by
    refine ⟨Nat.le_succ _, ?_, ?_⟩
    · intro i inside
      rw [kept i (Nat.ne_of_lt inside)]
    · intro i high _
      exact kept i (Nat.ne_of_gt high)
  have grown : m.sched.numTasks < (addTask m.sched new).2.numTasks := Nat.lt_succ_self _
  have still : (addTask m.sched new).2.currentTask = m.sched.currentTask := rfl
  rw [Core.settle, if_pos grown]
  dsimp only
  rw [if_pos still]
  refine ⟨e, ⟨inv.exec, extends_used ext inv.mine, extends_used ext inv.zero, ?_, ?_, inv.distinct, ?_,
    inv.sound⟩, fun _ => current⟩
  · intro i high low
    dsimp only at high ⊢
    rw [kept i (Nat.ne_of_gt high)]
    exact inv.fresh i (Nat.le_of_lt high) low
  · intro t
    have before := inv.places t
    by_cases same : t = e
    · subst same
      apply place_extends before _ ext
      rw [out]
      exact id
    · exact place_extends before (calm_of_other before same) ext
  · intro i used other quiet
    dsimp only at used ⊢
    by_cases fresh : i = m.sched.numTasks
    · rw [fresh, Function.update_self]
      exact Or.inl rfl
    · rw [Function.update_of_ne fresh]
      have low : i < m.sched.numTasks + 1 := used.1
      apply inv.whole i ⟨by omega, _⟩ other quiet
      rw [← kept i fresh]
      exact used.2

theorem core_inv_call (call : SchedCall) (masked : Bool) (inv : SwitchInv m e)
    (out : m.inside e = .outside) (current : m.sched.currentTask = e) :
    CoreInv (m.settle e (schedCall m.sched call) masked) := by
  have calm : ¬ Exposed (m.inside e) := by
    rw [out]
    exact id
  have shape := call_shape m.sched call
  generalize schedCall m.sched call = after at shape ⊢
  cases shape with
  | made new room => exact settle_made masked inv out current
  | stayed _ prepared =>
    have ext := extends_prepared prepared (current ▸ inv.mine) inv.fresh
    have made : (if m.sched.numTasks < after.numTasks then
        Function.update m.contexts m.sched.numTasks (startContext m.sched.numTasks) else m.contexts) =
        m.contexts := if_neg (by have := prepared.count; omega)
    rw [Core.settle, made]
    dsimp only
    rw [if_pos prepared.current]
    exact ⟨e, switch_inv_sched inv calm ext prepared.count, fun _ => prepared.current.trans current⟩
  | yielded u here prepared => exact settle_yield masked inv calm current prepared

theorem core_inv_create (pgd : Nat) (inv : SwitchInv m e) (out : m.inside e = .outside)
    (current : m.sched.currentTask = e) (room : m.sched.numTasks < schedMaxTasks) :
    CoreInv { m.setInside e (.creating m.sched.numTasks pgd 0) with
      sched := { m.sched with numTasks := m.sched.numTasks + 1 } } := by
  have mine : (m.setInside e (.creating m.sched.numTasks pgd 0)).inside e =
      .creating m.sched.numTasks pgd 0 := Function.update_self _ _ _
  have others : ∀ t, t ≠ e → (m.setInside e (.creating m.sched.numTasks pgd 0)).inside t = m.inside t :=
    fun t other => Function.update_of_ne other _ _
  have ext : Extends m.sched { m.sched with numTasks := m.sched.numTasks + 1 } :=
    ⟨Nat.le_succ _, fun _ _ => Iff.rfl, fun _ _ _ => rfl⟩
  have unused := inv.fresh m.sched.numTasks (Nat.le_refl _) room
  have lower : ∀ t id, creates (m.inside t) = some id → id < m.sched.numTasks := by
    intro t id making
    have here := inv.places t
    cases place : m.inside t <;> rw [place] at making here <;> cases making
    exact here.1
  refine ⟨e, ⟨inv.exec, extends_used ext inv.mine, extends_used ext inv.zero, ?_, ?_, ?_, ?_, inv.sound⟩,
    fun _ => current⟩
  · intro i high low
    exact inv.fresh i (Nat.le_of_succ_le high) low
  · intro t
    by_cases same : t = e
    · subst same
      dsimp only
      rw [mine]
      refine ⟨Nat.lt_succ_self _, fun _ => unused, ?_⟩
      intro some
      cases some
    · dsimp only
      rw [others t same]
      have before := inv.places t
      exact place_extends before (calm_of_other before same) ext
  · intro t u id other first
    dsimp only at first ⊢
    by_cases same : t = e
    · rw [same, mine] at first
      cases first
      rw [others u (by rintro rfl; exact other same)]
      intro again
      exact absurd (lower u _ again) (Nat.lt_irrefl _)
    · rw [others t same] at first
      by_cases again : u = e
      · rw [again, mine]
        rintro ⟨⟩
        exact absurd (lower t _ first) (Nat.lt_irrefl _)
      · rw [others u again]
        exact inv.distinct t u id other first
  · intro i used other quiet
    have low : i < m.sched.numTasks + 1 := used.1
    by_cases new : i = m.sched.numTasks
    · rw [new] at used
      exact absurd unused used.2
    · apply inv.whole i ⟨by omega, used.2⟩ other
      rw [out]
      exact id

theorem create_user_stores_state {id pgd : Nat} {store : Slot → Slot} (member : store ∈ createUserStores id pgd)
    (t : Slot) : (store t).task.state = t.task.state ∨ (store t).task.state = .ready := by
  simp only [createUserStores, List.mem_cons, List.not_mem_nil, or_false] at member
  rcases member with rfl | member
  · exact Or.inr rfl
  · left
    rcases member with rfl | rfl | rfl | rfl | rfl | rfl | rfl | rfl | rfl | rfl | rfl | rfl | rfl | rfl |
      rfl | rfl | rfl | rfl | rfl <;> rfl

theorem store_slot_other {id i : Nat} (store : Slot → Slot) (other : i ≠ id) :
    (m.storeSlot id store).sched.tasks i = m.sched.tasks i :=
  set_task_other _ other

theorem store_slot_same (id : Nat) (store : Slot → Slot) :
    slotOf (m.storeSlot id store) id = store (slotOf m id) := by
  simp only [slotOf, Core.storeSlot, set_task_same, Function.update_self]

theorem store_slot_used {id pgd i : Nat} {store : Slot → Slot} (member : store ∈ createUserStores id pgd)
    (used : Used m.sched i) : Used (m.storeSlot id store).sched i := by
  refine ⟨used.1, ?_⟩
  by_cases mine : i = id
  · subst mine
    have state : (m.storeSlot i store).sched.state i = (store (slotOf m i)).task.state :=
      congrArg (fun t : Slot => t.task.state) (store_slot_same i store)
    rw [state]
    rcases create_user_stores_state member (slotOf m i) with same | ready
    · rw [same]
      exact used.2
    · simp [ready]
  · rw [Sched.state, store_slot_other store mine]
    exact used.2

/-- A slot that the first stores have made is made further by the next one. -/
theorem stores_so_far {id pgd done : Nat} {store : Slot → Slot} {slot : Slot}
    (next : (createUserStores id pgd)[done]? = some store)
    (before : 0 < done → ∃ t, slot = ((createUserStores id pgd).take done).foldl (fun t store => store t) t) :
    ∃ t, store slot = ((createUserStores id pgd).take (done + 1)).foldl (fun t store => store t) t := by
  have split : (createUserStores id pgd).take (done + 1) = (createUserStores id pgd).take done ++ [store] := by
    rw [List.take_add_one, next, Option.toList_some]
  rcases Nat.eq_zero_or_pos done with zero | positive
  · refine ⟨slot, ?_⟩
    rw [split, zero]
    rfl
  · obtain ⟨t, made⟩ := before positive
    refine ⟨t, ?_⟩
    rw [split, List.foldl_append, ← made]
    rfl

/-- One store of a slot initialisation; the last one leaves a whole context. -/
theorem core_inv_store {id pgd done : Nat} {store : Slot → Slot} (inv : SwitchInv m e)
    (here : m.inside e = .creating id pgd done) (current : m.sched.currentTask = e)
    (next : (createUserStores id pgd)[done]? = some store) :
    CoreInv ((m.storeSlot id store).setInside e (.creating id pgd (done + 1))) := by
  have place := inv.places e
  rw [here] at place
  obtain ⟨bound, unused, under⟩ := place
  obtain ⟨inside, get⟩ := List.getElem?_eq_some_iff.mp next
  have kept : ∀ i, i ≠ id → (m.storeSlot id store).sched.tasks i = m.sched.tasks i :=
    fun i => store_slot_other store
  have stored : slotOf (m.storeSlot id store) id = store (slotOf m id) := store_slot_same id store
  have used : ∀ i, Used m.sched i → Used (m.storeSlot id store).sched i :=
    fun i => store_slot_used (List.mem_of_getElem? next)
  have mine : ((m.storeSlot id store).setInside e (.creating id pgd (done + 1))).inside e =
      .creating id pgd (done + 1) := Function.update_self _ _ _
  have others : ∀ t, t ≠ e →
      ((m.storeSlot id store).setInside e (.creating id pgd (done + 1))).inside t = m.inside t :=
    fun t other => Function.update_of_ne other _ _
  have partly := stores_so_far next fun positive => (under positive inside).2
  refine ⟨e, ⟨inv.exec, used e inv.mine, used 0 inv.zero, ?_, ?_, ?_, ?_, inv.sound⟩, fun _ => current⟩
  · intro i high low
    have away : i ≠ id := Nat.ne_of_gt (Nat.lt_of_lt_of_le bound high)
    exact (congrArg Task.state (kept i away)).trans (inv.fresh i high low)
  · intro t
    by_cases same : t = e
    · subst same
      rw [mine]
      refine ⟨bound, fun none => absurd none (Nat.succ_ne_zero _), fun _ _ => ⟨rfl, ?_⟩⟩
      obtain ⟨t0, whole⟩ := partly
      exact ⟨t0, stored.trans whole⟩
    · rw [others t same]
      have before := inv.places t
      apply place_kept (n := (m.storeSlot id store).setInside e (.creating id pgd (done + 1))) before
        (calm_of_other before same) (Nat.le_refl _) used
      intro i making low empty
      have away : i ≠ id := by
        rintro rfl
        exact inv.distinct e t i (Ne.symm same) (by rw [here]; rfl) making
      exact (congrArg Task.state (kept i away)).trans empty
  · intro t u i other first
    have same : ∀ t, creates (((m.storeSlot id store).setInside e (.creating id pgd (done + 1))).inside t) =
        creates (m.inside t) := by
      intro t
      by_cases me : t = e
      · rw [me, mine, here]
        rfl
      · rw [others t me]
    rw [same] at first ⊢
    exact inv.distinct t u i other first
  · intro i here_ other quiet
    rw [mine] at quiet
    by_cases me : i = id
    · subst me
      have all : done + 1 = (createUserStores i pgd).length := by
        by_contra more
        exact quiet ⟨rfl, Nat.succ_pos _, by omega⟩
      obtain ⟨t, whole⟩ := partly
      rw [all, List.take_length, create_user_stores_all] at whole
      left
      exact congrArg Slot.context (stored.trans whole)
    · have before : Used m.sched i := by
        refine ⟨here_.1, ?_⟩
        have state := here_.2
        rw [Sched.state] at state
        have same : ((m.storeSlot id store).setInside e (.creating id pgd (done + 1))).sched.tasks i =
            m.sched.tasks i := kept i me
        rwa [same] at state
      have whole := inv.whole i before other (by rw [here]; exact fun under => me under.1.symm)
      have same : ((m.storeSlot id store).setInside e (.creating id pgd (done + 1))).contexts i =
          m.contexts i := Function.update_of_ne me _ _
      rw [same]
      exact whole

theorem extends_set_state {i : Nat} {state : TaskState} (used : Used m.sched i) (live : state ≠ .unused) :
    Extends m.sched (m.setState i state).sched := by
  refine ⟨Nat.le_refl _, ?_, ?_⟩
  · intro j _
    by_cases here : j = i
    · rw [here, Core.setState, Sched.state, set_task_same]
      simp [live, used.2]
    · rw [Core.setState, Sched.state, set_task_other _ here]
      rfl
  · intro j high _
    have away : j ≠ i := Nat.ne_of_gt (Nat.lt_of_lt_of_le used.1 high)
    rw [Core.setState, Sched.state, set_task_other _ away]
    rfl

theorem context_switch_state (s : Sched) (prev next : Nat) (here : Resume) (i : Nat) :
    (contextSwitch s prev next here).state i = s.state i := by
  by_cases me : i = prev
  · rw [me]
    simp [contextSwitch, Sched.state]
  · exact congrArg Task.state (set_task_other (s := s) _ me)

theorem calm_at (here : m.inside e = place) (plain : creates place = none) : ∀ i, ¬ UnderWay (m.inside e) i :=
  not_under_way (by rw [here]; exact plain)

theorem quiet_at (here : m.inside e = place) (quiet : ¬ Exposed place) : ¬ Exposed (m.inside e) := by
  rwa [here]

/- The statements of a thread, by the place where it is. -/

theorem core_inv_creating {id pgd done : Nat} (inv : SwitchInv m e) (here : m.inside e = .creating id pgd done)
    (current : m.sched.currentTask = e) : CoreInv (proceed m e (.creating id pgd done)) := by
  rw [proceed]
  split
  · rename_i store next
    exact core_inv_store inv here current next
  · rename_i finished
    have last := List.getElem?_eq_none_iff.mp finished
    refine ⟨e, switch_inv_inside inv ?_ rfl trivial, fun _ => current⟩
    intro i under
    rw [here] at under
    exact absurd under.2.2 (Nat.not_lt_of_le last)

theorem core_inv_scanning {i : Nat} (inv : SwitchInv m e) (here : m.inside e = .scanning i)
    (current : m.sched.currentTask = e) : CoreInv (proceed m e (.scanning i)) := by
  have calm := calm_at here rfl
  rw [proceed]
  split
  · have low := Nat.mod_lt (m.sched.currentTask + i) (Nat.lt_of_le_of_lt (Nat.zero_le _) inv.zero.1)
    exact ⟨e, switch_inv_inside inv calm rfl low, fun _ => current⟩
  · refine ⟨e, switch_inv_inside inv calm rfl ?_, fun _ => current⟩
    rw [PlaceInv]
    split
    · rw [current]
      exact inv.mine
    · exact inv.zero

theorem core_inv_looking {i idx : Nat} (inv : SwitchInv m e) (here : m.inside e = .looking i idx)
    (low : idx < m.sched.numTasks) (current : m.sched.currentTask = e) : CoreInv (proceed m e (.looking i idx)) := by
  have calm := calm_at here rfl
  rw [proceed]
  split
  · rename_i ready
    exact ⟨e, switch_inv_inside inv calm rfl ⟨low, by simp [ready]⟩, fun _ => current⟩
  · exact ⟨e, switch_inv_inside inv calm rfl trivial, fun _ => current⟩

theorem core_inv_picked (inv : SwitchInv m e) (here : m.inside e = .picked next) (used : Used m.sched next)
    (current : m.sched.currentTask = e) : CoreInv (proceed m e (.picked next)) := by
  have calm := calm_at here rfl
  rw [proceed]
  split
  · exact ⟨e, switch_inv_inside inv calm rfl trivial, fun _ => current⟩
  · rename_i other
    rw [current] at other ⊢
    exact ⟨e, switch_inv_inside inv calm rfl ⟨rfl, other, used⟩, fun _ => current⟩

theorem core_inv_checked (inv : SwitchInv m e) (here : m.inside e = .checked next e) (other : next ≠ e)
    (used : Used m.sched next) (current : m.sched.currentTask = e) : CoreInv (proceed m e (.checked next e)) := by
  have calm := calm_at here rfl
  rw [proceed]
  split
  · have ext := @extends_set_state m e .ready inv.mine (by simp)
    have stored := switch_inv_sched inv (quiet_at here id) ext rfl
    exact ⟨e, switch_inv_inside (m := m.setState e .ready) stored calm rfl ⟨rfl, other, extends_used ext used⟩,
      fun _ => current⟩
  · exact ⟨e, switch_inv_inside inv calm rfl ⟨rfl, other, used⟩, fun _ => current⟩

theorem core_inv_left (inv : SwitchInv m e) (here : m.inside e = .left next e) (other : next ≠ e)
    (used : Used m.sched next) (current : m.sched.currentTask = e) : CoreInv (proceed m e (.left next e)) := by
  have ext := @extends_set_state m next .running used (by simp)
  have stored := switch_inv_sched inv (quiet_at here id) ext rfl
  exact ⟨e, switch_inv_inside (m := m.setState next .running) stored (calm_at here rfl) rfl
    ⟨rfl, other, extends_used ext used⟩, fun _ => current⟩

theorem core_inv_entered (inv : SwitchInv m e) (here : m.inside e = .entered next e) (other : next ≠ e)
    (used : Used m.sched next) : CoreInv (proceed m e (.entered next e)) := by
  have ext : Extends m.sched { m.sched with currentTask := next } :=
    ⟨Nat.le_refl _, fun _ _ => Iff.rfl, fun _ _ _ => rfl⟩
  have stored := switch_inv_sched inv (quiet_at here id) ext rfl
  refine ⟨e, switch_inv_inside (m := { m with sched := { m.sched with currentTask := next } }) stored
    (calm_at here rfl) rfl ⟨rfl, other, used, rfl, rfl⟩, ?_⟩
  intro still
  have moved : (proceed m e (.entered next e)).inside e = .moved next e := Function.update_self _ _ _
  rw [moved] at still
  exact absurd trivial still

theorem core_inv_moved (inv : SwitchInv m e) (here : m.inside e = .moved next e) (other : next ≠ e)
    (used : Used m.sched next) (now : m.sched.currentTask = next) : CoreInv (proceed m e (.moved next e)) := by
  have inv := @switch_inv_inside m e (.mapped next e) inv (calm_at here rfl) rfl ⟨rfl, other, used, rfl, now⟩
  refine ⟨e, ⟨inv.exec, inv.mine, inv.zero, inv.fresh, inv.places, inv.distinct, inv.whole, inv.sound⟩, ?_⟩
  intro still
  have moved : (proceed m e (.moved next e)).inside e = .mapped next e := Function.update_self _ _ _
  rw [moved] at still
  exact absurd trivial still

theorem core_inv_mapped (inv : SwitchInv m e) (here : m.inside e = .mapped next e) (other : next ≠ e)
    (used : Used m.sched next) (now : m.sched.currentTask = next) : CoreInv (proceed m e (.mapped next e)) := by
  have out := @switch_inv_inside m e .outside inv (calm_at here rfl) rfl trivial
  have back : (m.setInside e .outside).inside e = .outside := Function.update_self _ _ _
  have state := context_switch_state m.sched e next .yielded
  have ext : Extends m.sched (contextSwitch m.sched e next .yielded) :=
    ⟨Nat.le_refl _, fun i _ => by rw [state], fun i _ _ => state i⟩
  exact ⟨next, switch_inv_switch out (quiet_at back id) used other ext rfl m.masked, fun _ => now⟩

theorem core_inv_proceed (inv : SwitchInv m e) (current : ¬ Moved (m.inside e) → m.sched.currentTask = e) :
    CoreInv (proceed m e (m.inside e)) := by
  have place := inv.places e
  have mine : ∀ {place}, m.inside e = place → ¬ Moved place → m.sched.currentTask = e :=
    fun here still => current (here ▸ still)
  cases here : m.inside e with
  | outside => exact ⟨e, inv, current⟩
  | creating id pgd done => exact core_inv_creating inv here (mine here fun moved => moved)
  | scanning i => exact core_inv_scanning inv here (mine here id)
  | looking i idx =>
    rw [here] at place
    exact core_inv_looking inv here place (mine here id)
  | picked next =>
    rw [here] at place
    exact core_inv_picked inv here place (mine here id)
  | checked next prev =>
    rw [here] at place
    obtain ⟨rfl, other, used⟩ := place
    exact core_inv_checked inv here other used (mine here id)
  | left next prev =>
    rw [here] at place
    obtain ⟨rfl, other, used⟩ := place
    exact core_inv_left inv here other used (mine here id)
  | entered next prev =>
    rw [here] at place
    obtain ⟨rfl, other, used⟩ := place
    exact core_inv_entered inv here other used
  | moved next prev =>
    rw [here] at place
    obtain ⟨rfl, other, used, _, now⟩ := place
    exact core_inv_moved inv here other used now
  | mapped next prev =>
    rw [here] at place
    obtain ⟨rfl, other, used, _, now⟩ := place
    exact core_inv_mapped inv here other used now

theorem core_step_inv {n : Core} {event : CoreEvent} (inv : CoreInv m) (placed : Placed m event)
    (step : coreStep m event = some n) : CoreInv n := by
  obtain ⟨e, inv, current⟩ := inv
  simp only [coreStep, inv.exec, Option.bind_some] at step
  have outside : m.inside e = .outside → m.sched.currentTask = e := by
    intro out
    apply current
    rw [out]
    exact id
  cases event with
  | call c =>
    dsimp only at step
    split at step <;> cases step
    rename_i out
    exact core_inv_call c _ inv out (outside out)
  | beginCreate pgd =>
    dsimp only at step
    split at step <;> cases step
    rename_i may
    exact core_inv_create pgd inv may.1 (outside may.1) may.2.2.1
  | beginYield =>
    dsimp only at step
    split at step <;> cases step
    rename_i may
    refine ⟨e, switch_inv_inside inv ?_ rfl trivial, fun _ => outside may.1⟩
    intro i
    rw [may.1]
    exact id
  | proceed =>
    dsimp only at step
    split at step <;> cases step
    exact core_inv_proceed inv current
  | tick =>
    dsimp only at step
    split at step <;> cases step
    have calm : ¬ Exposed (m.inside e) := placed e inv.exec
    obtain ⟨u, prepared, done⟩ := tick_shape m.sched
    rw [done]
    exact settle_yield true inv calm (current fun moved => calm (exposed_of_moved moved)) prepared

end Steps

/-- Runs with no tick at an exposed place. -/
def PlacedRun : Core → Prop := Reaches CoreStart (Guarded Placed (Taken coreStep))

theorem core_start_inv {m : Core} (start : CoreStart m) : CoreInv m := by
  obtain ⟨⟨before, sched⟩, contexts, exec, _, inside, switches⟩ := start
  have state : ∀ i, i < schedMaxTasks → m.sched.state i = if i = 0 then .running else .unused := by
    intro i low
    rw [sched]
    exact sched_init_state before low
  have count : m.sched.numTasks = 1 := by rw [sched, schedInit]
  have zero : Used m.sched 0 := ⟨by omega, by simp [state 0 (by decide)]⟩
  refine ⟨0, ⟨exec, zero, zero, ?_, ?_, ?_, ?_, ?_⟩, fun _ => by rw [sched, schedInit]⟩
  · intro i high low
    rw [state i low, if_neg (by omega)]
  · intro t
    rw [inside]
    trivial
  · intro t u id _ making
    rw [inside] at making
    cases making
  · intro i used other
    exact absurd used.1 (by omega)
  · intro x member
    rw [switches] at member
    cases member

theorem placed_run_inv {m : Core} (run : PlacedRun m) : CoreInv m := by
  apply reaches_invariant CoreInv _ _ run
  · intro m start
    exact core_start_inv start
  · intro m event n inv step
    exact core_step_inv inv step.1 step.2

theorem switches_sound (m : Core) (run : PlacedRun m) : ∀ x ∈ m.switches, SoundSwitch x := by
  obtain ⟨_, inv, _⟩ := placed_run_inv run
  exact inv.sound

def bootCore : Core where
  sched := schedBoot
  contexts := fun _ => sameWords .zero
  exec := some 0
  masked := false
  inside := fun _ => .outside
  switches := []

theorem boot_core_starts : CoreStart bootCore :=
  ⟨⟨_, rfl⟩, fun _ => rfl, rfl, rfl, fun _ => rfl, rfl⟩

/-- The boot thread makes the shell and yields to it; ticks come before the first store, in
    the shell and in front of the store of prev's state. -/
theorem boot_switches_sound : ∃ m, PlacedRun m ∧
    m.switches.map (fun x => (x.thread, x.loaded)) = [(0, 1), (1, 0), (0, 1)] ∧
    ∀ x ∈ m.switches, SoundSwitch x := by
  have look : (runActions (allowed Placed coreStep) bootCore
      ([.beginCreate 0x40200000, .tick] ++ List.replicate 21 .proceed ++
        [.beginYield, .proceed, .proceed, .proceed, .tick, .tick] ++ List.replicate 5 .proceed)).any
      (fun m => decide (m.switches.map (fun x => (x.thread, x.loaded)) = [(0, 1), (1, 0), (0, 1)])) = true := by
    decide +kernel
  obtain ⟨m, run, found⟩ := (Option.any_eq_true _ _).mp look
  have reached : PlacedRun m := reaches_of_allowed (Reaches.start boot_core_starts) run
  exact ⟨m, reached, of_decide_eq_true found, switches_sound m reached⟩

/-- A tick behind the first store of the slot initialisation loads a context of zeros. -/
theorem early_tick_loads_zeros : ¬ ∀ m, Reaches CoreStart (Taken coreStep) m →
    ∀ x ∈ m.switches, SoundSwitch x := by
  have look : (runActions coreStep bootCore [.beginCreate 0x40200000, .proceed, .tick]).any
      (fun m => m.switches.any fun x => decide (¬ SoundSwitch x)) = true := by
    decide +kernel
  obtain ⟨m, run, found⟩ := (Option.any_eq_true _ _).mp look
  obtain ⟨x, member, mixed⟩ := List.any_eq_true.mp found
  intro all
  exact of_decide_eq_true mixed
    (all m (reaches_of_actions (Reaches.start boot_core_starts) run) x member)

end Archarch.Scheduling
