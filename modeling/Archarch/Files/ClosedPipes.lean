import Archarch.Files.DescriptorCalls

/- Which end of a pipe a transfer goes through. fd_read and fd_write look at the type of a file
   and not at its flags, so the results here are about runs whose programs read from read ends
   and write to write ends. -/
namespace Archarch.Descriptors
open LabelledRuns

def OnEnd (s : Files) (task : Nat) (fd : Int) (flags : Int) : Prop :=
  ∀ ptr f, s.slot task fd = some ptr → s.deref ptr = some f → f.type = .pipe → f.flags = flags

def rightEnd (s : FdRun) : FdCall → Prop
  | .read task fd _ _ _ => OnEnd s.run.files task fd oRdonly
  | .write task fd _ => OnEnd s.run.files task fd oWronly
  | _ => True

/-- Runs from a state in which every transfer names the end that it needs. -/
def RightRun (fs : Fat16.Fs) (start : FdRun) : FdRun → Prop :=
  Reaches (· = start) (Guarded (fun s call => callable s call ∧ rightEnd s call) (Taken (fdStep fs)))

def Holds (s : Files) (task q : Nat) (flags : Int) : Prop :=
  ∃ i m, s.tables task i = some (.heap m) ∧ s.shape m = some (endShape q flags)

def PipeCall.flags : PipeCall → Int
  | .reading _ _ => oRdonly
  | .writing _ _ _ => oWronly

def CallsOnEnds (s : FilesRun) : Prop :=
  ∀ t c, s.calls t = some c → Holds s.files t c.pipe c.flags

structure Plain (s t : FilesRun) : Prop where
  pipes : t.files.pipes = s.files.pipes
  nextPipe : t.files.nextPipe = s.files.nextPipe
  tables : t.files.tables = s.files.tables
  shape : t.files.shape = s.files.shape
  calls : t.calls = s.calls
  written : t.written = s.written
  returned : t.returned = s.returned

def FdCall.task : FdCall → Option Nat
  | .other _ => none
  | .read task _ _ _ _ | .write task _ _ | .resume task _ => some task

/-- All that a call can do to pipes and waiting tasks; actor is the task that moves bytes. -/
inductive Effect (actor : Option Nat) (s t : FilesRun) : Prop where
  | plain (same : Plain s t)
  | tables (task : Nat) (step : TableStep task s t) (fall : PipesFall s.files t.files)
  | reads (task q count : Nat) (result : Option Int) (mine : actor = some task) (holds : Holds s.files task q oRdonly)
      (round : readStep s task q count = some (result, t))
  | writes (task q : Nat) (rest : List Byte) (count : Nat) (result : Option Int) (mine : actor = some task)
      (holds : Holds s.files task q oWronly) (round : writeStep s task q rest count = some (result, t))

section Effects
variable {fs : Fat16.Fs} {s t : FilesRun} {task q : Nat} {fd flags : Int} {actor : Option Nat}

theorem plain_refl (s : FilesRun) : Plain s s := ⟨rfl, rfl, rfl, rfl, rfl, rfl, rfl⟩

theorem holds_of_names (inv : RunInv s) (right : OnEnd s.files task fd flags) (kind : onPipe s.files task fd = true)
    (names : FdNames s task fd q) : Holds s.files task q flags := by
  obtain ⟨ptr, f, here, live, pipe⟩ := names
  have type : f.type = .pipe := by
    rw [onPipe, here, Option.bind_some, live, Option.all_some] at kind
    exact of_decide_eq_true kind
  have which := right ptr f here live type
  obtain ⟨q', pipe', i, m, flags', slot, shape⟩ := on_pipe_names inv kind here live
  rw [pipe] at pipe'
  cases pipe'
  obtain ⟨m', found, same⟩ : ∃ m', ptr = .heap m' ∧ s.files.shape m' = some (endShape q flags) := by
    cases ptr with
    | console =>
      obtain ⟨g, found, console⟩ := inv.files.accounted.console
      rw [live] at found
      cases found
      rw [type] at console
      cases console
    | dummy =>
      rw [inv.files.accounted.dummy] at live
      cases live
    | heap m' =>
      have found : s.files.files m' = some f := live
      have parts : f.shape = endShape q flags := by rw [OpenFile.shape, type, which, pipe]
      exact ⟨m', rfl, by rw [Files.shape, found, Option.map_some, parts]⟩
  rw [found] at here
  exact ⟨fd.toNat, m', (slot_some here).2.2, same⟩

theorem fd_read_effect {args : ReadArgs} {result : Option Int} {stores : Stores} (inv : RunInv s)
    (right : OnEnd s.files task fd oRdonly) (read : fdRead fs s task fd args = some (result, stores, t)) :
    Effect (some task) s t := by
  unfold fdRead at read
  split at read
  · cases read
    exact .plain (plain_refl _)
  · rename_i ptr here
    obtain ⟨f, live, rest⟩ := Option.bind_eq_some_iff.mp read
    cases type : f.type with
    | none =>
      simp only [type, Option.some.injEq] at rest
      cases rest
      exact .plain (plain_refl _)
    | console =>
      simp only [type] at rest
      obtain ⟨r, _, same⟩ := Option.map_eq_some_iff.mp rest
      cases same
      exact .plain (plain_refl _)
    | file =>
      simp only [type] at rest
      obtain ⟨r, _, same⟩ := Option.map_eq_some_iff.mp rest
      cases same
      have kept : (⟨.file, f.flags, f.pipe⟩ : Shape) = f.shape := by rw [OpenFile.shape, type]
      refine .plain ⟨?_, ?_, tables_set_file, shape_set_file live kept, rfl, rfl, rfl⟩
      · cases ptr <;> rfl
      · cases ptr <;> rfl
    | pipe =>
      simp only [type] at rest
      obtain ⟨r, piped, same⟩ := Option.map_eq_some_iff.mp rest
      cases same
      rcases fd_read_pipe_cases piped with same | ⟨q, names, round⟩
      · rw [same]
        exact .plain (plain_refl _)
      · have holds := holds_of_names inv right (on_pipe_of_type here live type) names
        exact .reads task q args.count r.1 rfl holds round

theorem fd_write_effect {src : List Byte} {r : Option Int × FilesRun} (inv : RunInv s)
    (right : OnEnd s.files task fd oWronly) (write : fdWrite s task fd src = some r) :
    Effect (some task) s r.2 := by
  unfold fdWrite at write
  split at write
  · cases write
    exact .plain (plain_refl _)
  · rename_i ptr here
    obtain ⟨f, live, rest⟩ := Option.bind_eq_some_iff.mp write
    cases type : f.type with
    | pipe =>
      simp only [type] at rest
      rcases fd_write_pipe_cases rest with same | ⟨q, names, round⟩
      · rw [same]
        exact .plain (plain_refl _)
      · have holds := holds_of_names inv right (on_pipe_of_type here live type) names
        exact .writes task q src src.length r.1 rfl holds round
    | _ =>
      simp only [type] at rest
      cases rest
      exact .plain (plain_refl _)

theorem other_effect {s : FdRun} {call : FileCall} {r : Option Int × FilesRun} (inv : RunInv s.run)
    (may : callable s (.other call)) (step : fileCall s.run call = some r) :
    Effect none s.run r.2 := by
  have tables := callable_on_tables may
  have fall := pipes_fall_of_updates (updates_table_call tables step)
  have taken : enabled s.run call → Effect none s.run r.2 := by
    intro may
    obtain ⟨r', task, step', table⟩ := table_call_steps inv may tables
    rw [step] at step'
    cases step'
    exact .tables task table fall
  cases call with
  | dup2 task oldfd newfd =>
    by_cases same : oldfd = newfd
    · rw [same] at step
      obtain ⟨r', twice, rfl⟩ := Option.map_eq_some_iff.mp step
      rw [fd_dup2_same inv.files twice]
      exact .plain (plain_refl _)
    · exact taken ⟨may, same⟩
  | read task fd count => cases tables
  | write task fd src => cases tables
  | resume task => cases tables
  | _ => exact taken may

theorem fd_call_effect {s : FdRun} {call : FdCall} {r : Option Int × FdRun} (inv : RunInv s.run)
    (ends : CallsOnEnds s.run) (may : callable s call) (right : rightEnd s call)
    (step : fdCall fs s call = some r) : Effect call.task s.run r.2.run := by
  cases call with
  | other call =>
    obtain ⟨r', taken, rfl⟩ := Option.map_eq_some_iff.mp step
    exact other_effect inv may taken
  | read task fd buf args space =>
    obtain ⟨stores, run, after, read, _, same⟩ := read_parts step
    rw [same]
    exact fd_read_effect inv right read
  | write task fd src =>
    obtain ⟨r', taken, rfl⟩ := Option.map_eq_some_iff.mp step
    exact fd_write_effect inv right taken
  | resume task space =>
    obtain ⟨r', taken, rest⟩ := Option.bind_eq_some_iff.mp step
    obtain ⟨_, _, same⟩ := Option.bind_eq_some_iff.mp rest
    cases same
    rcases resume_cases taken with ⟨q, count, waiting, round⟩ | ⟨q, left, count, waiting, round⟩
    · exact .reads task q count r'.1 rfl (ends task _ waiting) round
    · exact .writes task q left count r'.1 rfl (ends task _ waiting) round

theorem read_step_rest {count : Nat} {r : Option Int × FilesRun} (step : readStep s task q count = some r) :
    (∀ u, u ≠ task → r.2.calls u = s.calls u) ∧ (∀ c, r.2.calls task = some c → c.pipe = q ∧ c.flags = oRdonly) ∧
      r.2.written = s.written ∧ ∀ k, k ≠ q → r.2.returned k = s.returned k := by
  obtain ⟨p, _, same⟩ := Option.map_eq_some_iff.mp step
  split at same <;> rw [← same]
  · refine ⟨fun u other => Function.update_of_ne other _ _, ?_, rfl, fun _ _ => rfl⟩
    intro c waiting
    have now : Function.update s.calls task (some (PipeCall.reading q count)) task = some c := waiting
    rw [Function.update_self] at now
    cases now
    exact ⟨rfl, rfl⟩
  · refine ⟨fun u other => Function.update_of_ne other _ _, ?_, rfl, fun k other => Function.update_of_ne other _ _⟩
    intro c waiting
    have now : Function.update s.calls task none task = some c := waiting
    rw [Function.update_self] at now
    cases now

theorem write_step_rest {rest : List Byte} {count : Nat} {r : Option Int × FilesRun}
    (step : writeStep s task q rest count = some r) :
    (∀ u, u ≠ task → r.2.calls u = s.calls u) ∧ (∀ c, r.2.calls task = some c → c.pipe = q ∧ c.flags = oWronly) ∧
      r.2.returned = s.returned ∧ ∀ k, k ≠ q → r.2.written k = s.written k := by
  obtain ⟨p, _, same⟩ := Option.map_eq_some_iff.mp step
  have settled : ∀ c, Function.update s.calls task none task = some c → c.pipe = q ∧ c.flags = oWronly := by
    intro c now
    rw [Function.update_self] at now
    cases now
  dsimp only at same
  split at same <;> rw [← same] <;>
    refine ⟨fun u other => Function.update_of_ne other _ _, ?_, rfl, fun k other => Function.update_of_ne other _ _⟩
  · exact settled
  · exact settled
  · intro c waiting
    have now : Function.update s.calls task (some (PipeCall.writing q _ count)) task = some c := waiting
    rw [Function.update_self] at now
    cases now
    exact ⟨rfl, rfl⟩

theorem calls_on_ends_round (ends : CallsOnEnds s) (round : RoundOn q s t)
    (others : ∀ u, u ≠ task → t.calls u = s.calls u)
    (mine : ∀ c, t.calls task = some c → c.pipe = q ∧ c.flags = flags) (holds : Holds s.files task q flags) :
    CallsOnEnds t := by
  have shape : t.files.shape = s.files.shape := by
    funext m
    rw [Files.shape, Files.shape, round.files]
  have kept : ∀ u k fl, Holds s.files u k fl → Holds t.files u k fl := by
    rintro u k fl ⟨i, m, slot, isEnd⟩
    exact ⟨i, m, by rw [round.tables]; exact slot, by rw [shape]; exact isEnd⟩
  intro u c waiting
  apply kept
  by_cases me : u = task
  · rw [me] at waiting ⊢
    obtain ⟨pipe, which⟩ := mine c waiting
    rw [pipe, which]
    exact holds
  · rw [others u me] at waiting
    exact ends u c waiting

theorem calls_on_ends_effect (inv : RunInv s) (ends : CallsOnEnds s) (effect : Effect actor s t) : CallsOnEnds t := by
  cases effect with
  | plain same =>
    intro u c waiting
    rw [same.calls] at waiting
    rw [Holds, same.tables, same.shape]
    exact ends u c waiting
  | tables task step fall =>
    intro u c waiting
    rw [step.rest] at waiting
    have other : u ≠ task := by
      rintro rfl
      rw [step.idle] at waiting
      cases waiting
    obtain ⟨i, m, slot, isEnd⟩ := ends u c waiting
    have kept := slot_kept inv step.frame ⟨step.inv.accounted, step.inv.ends⟩ other slot isEnd
    exact ⟨i, m, kept⟩
  | reads task q count result mine holds round =>
    obtain ⟨others, waits, _⟩ := read_step_rest round
    exact calls_on_ends_round ends (read_step_round round).1 others waits holds
  | writes task q rest count result mine holds round =>
    obtain ⟨others, waits, _⟩ := write_step_rest round
    exact calls_on_ends_round ends (write_step_round round) others waits holds

theorem not_held_closed {p : Pipe} (inv : RunInv s) (live : s.files.pipes q = some p) (closed : p.writeOpen = false) :
    ¬ Holds s.files task q oWronly := by
  rintro ⟨i, m, _, isEnd⟩
  have writing := (inv.files.ends.ends q p oWronly live (Or.inr rfl)).mpr ⟨m, isEnd⟩
  rw [Pipe.isOpen, if_neg (by decide), closed] at writing
  cases writing

structure Shut (s : FilesRun) (q count : Nat) (written : List Byte) : Prop where
  old : q < s.files.nextPipe
  pipe : ∀ p, s.files.pipes q = some p → p.writeOpen = false ∧ p.count ≤ count
  written : s.written q = written

theorem shut_effect {count : Nat} {written : List Byte} (inv : RunInv s) (effect : Effect actor s t)
    (shut : Shut s q count written) : Shut t q count written := by
  cases effect with
  | plain same =>
    refine ⟨by rw [same.nextPipe]; exact shut.old, ?_, by rw [same.written]; exact shut.written⟩
    rw [same.pipes]
    exact shut.pipe
  | tables task step fall =>
    refine ⟨Nat.lt_of_lt_of_le shut.old fall.next, ?_, by rw [step.rest]; exact shut.written⟩
    intro r found
    rcases fall.pipes q r found with ⟨p, live, ring, closed⟩ | new
    · obtain ⟨was, low⟩ := shut.pipe p live
      have same : r.count = p.count := congrArg (fun ring => ring.2.2.2) ring
      exact ⟨closed was, by rw [same]; exact low⟩
    · have old := shut.old
      omega
  | reads task k asked result mine holds round =>
    obtain ⟨on, drains⟩ := read_step_round round
    obtain ⟨_, _, histories, _⟩ := read_step_rest round
    have next : t.files.nextPipe = s.files.nextPipe := by
      obtain ⟨p, _, same⟩ := Option.map_eq_some_iff.mp round
      split at same <;> cases same <;> rfl
    refine ⟨by rw [next]; exact shut.old, ?_, (congrFun histories q).trans shut.written⟩
    intro r found
    by_cases here : q = k
    · subst here
      obtain ⟨p, live, _⟩ := Option.map_eq_some_iff.mp round
      obtain ⟨was, low⟩ := shut.pipe p live
      exact ⟨(on.writing p r live found).trans was, (drains p r live found).trans low⟩
    · rw [on.others q here] at found
      exact shut.pipe r found
  | writes task k rest asked result mine holds round =>
    have on := write_step_round round
    obtain ⟨_, _, _, histories⟩ := write_step_rest round
    have here : q ≠ k := by
      rintro rfl
      obtain ⟨p, live, _⟩ := Option.map_eq_some_iff.mp round
      exact not_held_closed inv live (shut.pipe p live).1 holds
    have next : t.files.nextPipe = s.files.nextPipe := by
      obtain ⟨p, _, same⟩ := Option.map_eq_some_iff.mp round
      dsimp only at same
      split at same <;> cases same <;> rfl
    refine ⟨by rw [next]; exact shut.old, ?_, (histories q here).trans shut.written⟩
    intro r found
    rw [on.others q here] at found
    exact shut.pipe r found

end Effects

section Runs
variable {fs : Fat16.Fs} {s t : FdRun} {q : Nat}

structure EndsInv (s : FdRun) : Prop where
  run : RunInv s.run
  calls : CallsOnEnds s.run

theorem ends_inv_boot : EndsInv fdBoot := by
  constructor
  · exact run_inv_boot
  · intro u c waiting
    cases waiting

theorem right_step_effect {call : FdCall} (inv : EndsInv s)
    (step : Guarded (fun s call => callable s call ∧ rightEnd s call) (Taken (fdStep fs)) s call t) :
    Effect call.task s.run t.run ∧ EndsInv t := by
  obtain ⟨⟨may, right⟩, taken⟩ := step
  obtain ⟨result, taken⟩ := fd_step_call taken
  have effect := fd_call_effect inv.run inv.calls may right taken
  constructor
  · exact effect
  · exact ⟨fd_call_inv inv.run may taken, calls_on_ends_effect inv.run inv.calls effect⟩

theorem right_run_inv (inv : EndsInv s) (run : RightRun fs s t) : EndsInv t := by
  refine reaches_invariant EndsInv ?_ ?_ run
  · rintro u rfl
    exact inv
  · intro u call v inv step
    exact (right_step_effect inv step).2

theorem right_run_shut {count : Nat} {written : List Byte} (inv : EndsInv s) (shut : Shut s.run q count written)
    (run : RightRun fs s t) : Shut t.run q count written := by
  have both : EndsInv t ∧ Shut t.run q count written := by
    refine reaches_invariant (fun u => EndsInv u ∧ Shut u.run q count written) ?_ ?_ run
    · rintro u rfl
      exact ⟨inv, shut⟩
    · rintro u call v ⟨inv, shut⟩ step
      obtain ⟨effect, after⟩ := right_step_effect inv step
      exact ⟨after, shut_effect inv.run effect shut⟩
  exact both.2

theorem drained_read_ends {task : Nat} {fd : Int} {buf : Nat} {args : ReadArgs} {space : Space} {p : Pipe}
    {ptr : FilePtr} {f : OpenFile} (here : s.run.files.slot task fd = some ptr)
    (live : s.run.files.deref ptr = some f) (type : f.type = .pipe) (pipe : f.pipe = some q)
    (found : s.run.files.pipes q = some p) (closed : p.writeOpen = false) (empty : p.count = 0) :
    ∃ t, fdCall fs s (.read task fd buf args space) = some (some 0, t) := by
  have round : readRound p args.count = some ([], p) := by
    rw [readRound, if_pos empty, if_pos closed]
  have stores : pipeStores s.run q args.count = [] := by
    rw [pipeStores, found]
    simp only [round]
    rfl
  have step : readStep s.run task q args.count = some (some 0,
      { s.run with
        files := s.run.files.setPipe q p
        calls := Function.update s.run.calls task none
        returned := Function.update s.run.returned q (s.run.returned q ++ []) }) := by
    rw [readStep, found, Option.map_some]
    simp only [round]
    rfl
  have piped : fdReadPipe s.run task fd args.count = readStep s.run task q args.count := by
    rw [fdReadPipe, here]
    simp only [live, Option.bind_eq_bind, Option.bind_some, pipe]
  have read := (show fdRead fs s.run task fd args = some (some 0, [], _) by
    rw [fdRead, here]
    simp only [live, Option.bind_some, type, piped, step, Option.map_some, pipe, stores]
    rfl)
  exact ⟨_, read_of_parts read rfl⟩

end Runs

/-- A pipe without a write end, from a state on: in every later state it holds no more than it
    does now, nothing more is ever written to it, and once it is empty every read ends. -/
structure NoGain (fs : Fat16.Fs) (s : FdRun) (q : Nat) (p : Pipe) : Prop where
  count : ∀ t r, RightRun fs s t → t.run.files.pipes q = some r → r.writeOpen = false ∧ r.count ≤ p.count
  written : ∀ t, RightRun fs s t → t.run.written q = s.run.written q
  drained : ∀ t r task fd buf args space ptr f, RightRun fs s t → t.run.files.pipes q = some r → r.count = 0 →
    t.run.files.slot task fd = some ptr → t.run.files.deref ptr = some f → f.type = .pipe → f.pipe = some q →
      ∃ u, fdCall fs t (.read task fd buf args space) = some (some 0, u)

structure PipesByEnds (fs : Fat16.Fs) (s : FdRun) : Prop where
  gone : ∀ q p, s.run.files.pipes q = some p → (p.writeOpen = false ↔ ¬ RefersTo s.run.files q oWronly)
  noGain : ∀ q p, s.run.files.pipes q = some p → p.writeOpen = false → NoGain fs s q p
  enters : ∀ call r q, callable s call → rightEnd s call → fdCall fs s call = some r →
    r.2.run.written q ≠ s.run.written q → ∃ task, call.task = some task ∧ Holds s.run.files task q oWronly
  leaves : ∀ call r q, callable s call → rightEnd s call → fdCall fs s call = some r →
    r.2.run.returned q ≠ s.run.returned q → ∃ task, call.task = some task ∧ Holds s.run.files task q oRdonly

theorem pipes_by_ends (fs : Fat16.Fs) (s : FdRun) (run : RightRun fs fdBoot s) : PipesByEnds fs s := by
  have inv := right_run_inv ends_inv_boot run
  constructor
  · intro q p found
    rw [← (reference_counted_of_inv inv.run).writing q p found, Bool.not_eq_true]
  · intro q p found closed
    have shut : Shut s.run q p.count (s.run.written q) := by
      refine ⟨live_pipe_old inv.run.files.ends found, ?_, rfl⟩
      intro r same
      rw [found] at same
      cases same
      exact ⟨closed, Nat.le_refl _⟩
    constructor
    · intro t r later open_
      exact (right_run_shut inv shut later).pipe r open_
    · intro t later
      exact (right_run_shut inv shut later).written
    · intro t r task fd buf args space ptr f later open_ empty here live type pipe
      have closed := ((right_run_shut inv shut later).pipe r open_).1
      exact drained_read_ends here live type pipe open_ closed empty
  · intro call r q may right step moved
    have effect := fd_call_effect inv.run inv.calls may right step
    cases effect with
    | plain same => exact absurd (congrFun same.written q) moved
    | tables task table fall => exact absurd (congrFun (congrArg FilesRun.written table.rest) q) moved
    | reads task k count result mine holds round =>
      exact absurd (congrFun (read_step_rest round).2.2.1 q) moved
    | writes task k rest count result mine holds round =>
      by_cases here : q = k
      · exact ⟨task, mine, here ▸ holds⟩
      · exact absurd ((write_step_rest round).2.2.2 q here) moved
  · intro call r q may right step moved
    have effect := fd_call_effect inv.run inv.calls may right step
    cases effect with
    | plain same => exact absurd (congrFun same.returned q) moved
    | tables task table fall => exact absurd (congrFun (congrArg FilesRun.returned table.rest) q) moved
    | writes task k rest count result mine holds round =>
      exact absurd (congrFun (write_step_rest round).2.2.1 q) moved
    | reads task k count result mine holds round =>
      by_cases here : q = k
      · exact ⟨task, mine, here ▸ holds⟩
      · exact absurd ((read_step_rest round).2.2.2 q here) moved

def noVolume : Fat16.Fs := ⟨fun _ => none, ⟨0, 0, 0, 0⟩, fun _ => 0⟩

theorem on_end_iff {s : Files} {task : Nat} {fd flags : Int} : OnEnd s task fd flags ↔
    ((s.slot task fd).bind s.deref).all (fun f => decide (f.type = .pipe → f.flags = flags)) = true := by
  constructor
  · intro right
    cases found : (s.slot task fd).bind s.deref with
    | none => rfl
    | some f =>
      obtain ⟨ptr, here, live⟩ := Option.bind_eq_some_iff.mp found
      exact decide_eq_true (right ptr f here live)
  · intro all ptr f here live
    rw [here, Option.bind_some, live, Option.all_some] at all
    exact of_decide_eq_true all

instance (s : Files) (task : Nat) (fd flags : Int) : Decidable (OnEnd s task fd flags) :=
  decidable_of_iff _ on_end_iff.symm

instance (s : FdRun) (call : FdCall) : Decidable (rightEnd s call) :=
  match call with
  | .read task fd _ _ _ => inferInstanceAs (Decidable (OnEnd s.run.files task fd oRdonly))
  | .write task fd _ => inferInstanceAs (Decidable (OnEnd s.run.files task fd oWronly))
  | .other _ | .resume _ _ => inferInstanceAs (Decidable True)

/-- A pipe with two bytes in it when its write end is closed. -/
theorem two_bytes_left : ∃ s p, RightRun noVolume fdBoot s ∧ s.run.files.pipes 0 = some p ∧ p.count = 2 ∧
    NoGain noVolume s 0 p := by
  have look : (runActions (allowed (fun s call => callable s call ∧ rightEnd s call) (fdStep noVolume)) fdBoot
      [.other .create, .other (.pipe 0 true true true), .write 0 4 [7, 8], .other (.close 0 4)]).any
        (fun s => (s.run.files.pipes 0).any fun p => decide (p.count = 2 ∧ p.writeOpen = false)) = true := by
    decide +kernel
  obtain ⟨s, run, found⟩ := (Option.any_eq_true _ _).mp look
  obtain ⟨p, live, found⟩ := (Option.any_eq_true _ _).mp found
  obtain ⟨count, closed⟩ := of_decide_eq_true found
  have reached : RightRun noVolume fdBoot s := reaches_of_allowed (Reaches.start rfl) run
  exact ⟨s, p, reached, live, count, (pipes_by_ends noVolume s reached).noGain 0 p live closed⟩

/-- A program writes to the read end of a pipe whose write end it has closed. -/
theorem closed_pipe_gains : ¬ ∀ (fs : Fat16.Fs) (s t : FdRun) (q : Nat) (p r : Pipe), FdReached fs s →
    Reaches (· = s) (Guarded callable (Taken (fdStep fs))) t → s.run.files.pipes q = some p →
      p.writeOpen = false → t.run.files.pipes q = some r → r.count ≤ p.count := by
  intro noGain
  have look : (runActions (allowed callable (fdStep noVolume)) fdBoot
      [.other .create, .other (.pipe 0 true true true), .other (.close 0 4)]).any
        (fun s => ((s.run.files.pipes 0).any fun p => decide (p.count = 0 ∧ p.writeOpen = false)) &&
          (runActions (allowed callable (fdStep noVolume)) s [.write 0 3 [7]]).any
            fun t => (t.run.files.pipes 0).any fun r => decide (r.count = 1)) = true := by
    decide +kernel
  obtain ⟨s, run, found⟩ := (Option.any_eq_true _ _).mp look
  obtain ⟨before, after⟩ := (Bool.and_eq_true _ _).mp found
  obtain ⟨p, live, shut⟩ := (Option.any_eq_true _ _).mp before
  obtain ⟨empty, closed⟩ := of_decide_eq_true shut
  obtain ⟨t, later, full⟩ := (Option.any_eq_true _ _).mp after
  obtain ⟨r, open_, one⟩ := (Option.any_eq_true _ _).mp full
  have count := noGain noVolume s t 0 p r (reaches_of_allowed (Reaches.start rfl) run)
    (reaches_of_allowed (Reaches.start rfl) later) live closed open_
  rw [empty, of_decide_eq_true one] at count
  cases count

end Archarch.Descriptors
