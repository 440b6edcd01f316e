import Archarch.Files.ClosedPipes
import Archarch.Shell.PipelineSteps

/- What the shell and its children wait for, and what wc has read once its loop has ended. -/
namespace Archarch.Shell
open Descriptors LabelledRuns

def ShellPc.inChain : ShellPc → Bool
  | .pipe | .fork | .closes _ | .closeLast | .waits _ => true
  | _ => false

def KidWaits (ends : Nat → Option Ends) (i : Nat) (c : PipeCall) : KidPc → Prop
  | .wiring _ => False
  | .command .counting => ∃ e, endsBefore ends i = some e ∧ c = .reading e.pipe 256
  | _ => True

structure Pending (job : Job) (s : JobState) : Prop where
  shell : s.shell.pc.inChain = true → s.run.run.calls job.shell = none
  kids : ∀ i kid c, s.kids i = some kid → s.run.run.calls kid.task = some c → KidWaits s.ends i c kid.pc

def actor (job : Job) (s : JobState) : Event → Option Nat
  | .shell _ _ _ _ | .direct _ | .killShell => some job.shell
  | .kid i _ | .killKid i => (s.kids i).map Kid.task
  | .other call => call.caller

section Frames
variable {fs : Fat16.Fs} {s : FdRun} {call : FdCall} {task : Nat} {r : Option Int × FdRun}
variable {stage next : Stage} {input : Input}

theorem perform_framed (inv : RunInv s.run) (done : perform fs s call = some r) :
    Framed call.caller call.parent s.run r.2.run := by
  obtain ⟨may, step⟩ := perform_some done
  exact call_framed inv may step

theorem request_caller (asked : request task stage input = some call) :
    (call.caller = some task ∨ call.caller = none) ∧ call.parent = none := by
  unfold request at asked
  split at asked <;> cases asked
  all_goals first | exact ⟨Or.inl rfl, rfl⟩ | exact ⟨Or.inr rfl, rfl⟩

theorem command_framed {t : FdRun} (inv : RunInv s.run)
    (step : commandStep fs s task stage input = some (t, next)) :
    ∃ caller, (caller = some task ∨ caller = none) ∧ Framed caller none s.run t.run := by
  unfold commandStep at step
  split at step
  · split at step
    · cases step
      exact ⟨none, Or.inr rfl, framed_refl _ _ _⟩
    · cases step
  · obtain ⟨call, asked, rest⟩ := Option.bind_eq_some_iff.mp step
    obtain ⟨r, done, same⟩ := Option.map_eq_some_iff.mp rest
    cases same
    obtain ⟨mine, parent⟩ := request_caller asked
    have framed := perform_framed inv done
    rw [parent] at framed
    exact ⟨call.caller, mine, framed⟩

end Frames

section Steps
variable {job : Job} {old : FdTable} {s t start : JobState} {event : Event}

theorem shell_step_framed {a b c forks : Bool} (inv : RunInv s.run.run)
    (step : shellStep job s a b c forks = some t) :
    t.run.run.calls = s.run.run.calls ∧
      ∃ parent, Framed (some job.shell) parent s.run.run t.run.run := by
  have still : s.run.run.calls = s.run.run.calls ∧
      ∃ parent, Framed (some job.shell) parent s.run.run s.run.run :=
    ⟨rfl, none, framed_refl _ _ _⟩
  have tabled : ∀ (call : FileCall) (r : Option Int × FdRun), call.caller = some job.shell →
      perform job.fs s.run (.other call) = some r →
      r.2.run.calls = s.run.run.calls ∧
        ∃ parent, Framed (some job.shell) parent s.run.run r.2.run := by
    intro call r caller done
    obtain ⟨_, _, _, _, tabled⟩ := perform_table_call inv done
    rw [caller] at tabled
    exact ⟨tabled.calls, _, tabled.framed⟩
  have op : ∀ (op : FdOp) (r : Option Int × FdRun), perform job.fs s.run (op.call job.shell) = some r →
      r.2.run.calls = s.run.run.calls ∧
        ∃ parent, Framed (some job.shell) parent s.run.run r.2.run := by
    intro op r done
    cases op with
    | dup2 oldfd newfd => exact tabled _ r rfl done
    | close fd => exact tabled _ r rfl done
  unfold shellStep at step
  split at step
  · unfold pipeStep at step
    split at step
    · obtain ⟨r, done, same⟩ := Option.map_eq_some_iff.mp step
      split at same <;> cases same <;> exact tabled _ r rfl done
    · cases step
      exact still
  · unfold forkStep at step
    dsimp only at step
    split at step
    · obtain ⟨r, done, rfl⟩ := Option.map_eq_some_iff.mp step
      exact tabled _ r rfl done
    · cases step
      exact still
  · obtain ⟨r, done, rfl⟩ := Option.map_eq_some_iff.mp step
    exact op _ r done
  · cases step
    exact still
  · split at step
    · cases step
      exact still
    · obtain ⟨r, done, rfl⟩ := Option.map_eq_some_iff.mp step
      exact tabled _ r rfl done
  · cases step
    exact still
  · cases step
    exact still
  · cases step

theorem exit_framed {task : Nat} {r : Option Int × FdRun} (inv : RunInv s.run.run)
    (done : perform job.fs s.run (.other (.exit task)) = some r) :
    r.2.run.calls = s.run.run.calls ∧ Framed (some task) none s.run.run r.2.run := by
  obtain ⟨tabled, _⟩ := perform_exit inv done
  exact ⟨tabled.calls, tabled.framed⟩

inductive KidMove (job : Job) (s t : JobState) (who : Option Nat) (i : Nat) (kid : Kid) : Prop where
  | made (rest : List FdOp) (none_ : s.kids i = none) (pc : kid.pc = .wiring rest)
      (free : t.run.run.calls kid.task = none)
  | still (here : s.kids i = some kid) (other : who ≠ some kid.task)
  | own (before : Kid) (input : Input) (here : s.kids i = some before) (task : kid.task = before.task)
      (segment : kid.segment = before.segment) (step : kidStep job s i before input = some t)
  | exited (before : Kid) (here : s.kids i = some before) (pc : kid.pc = .exited)

structure Change (job : Job) (s t : JobState) (who : Option Nat) : Prop where
  framed : ∃ caller parent, (caller = who ∨ caller = none) ∧ Framed caller parent s.run.run t.run.run
  ends : ∀ j e, s.ends j = some e → t.ends j = some e
  kids : ∀ i kid, t.kids i = some kid → KidMove job s t who i kid
  sent : ∀ j, t.sent j = s.sent j ∨ ∃ kid stage, s.kids j = some kid ∧ kid.pc = .command stage
  got : ∀ j, s.got j <+: t.got j
  shell : t.shell = s.shell ∨ who = some job.shell

theorem change_besides {who caller parent : Option Nat} (mine : caller = who ∨ caller = none)
    (framed : Framed caller parent s.run.run t.run.run) (kids : t.kids = s.kids)
    (ends : ∀ j e, s.ends j = some e → t.ends j = some e) (sent : t.sent = s.sent) (got : t.got = s.got)
    (others : ∀ i kid, s.kids i = some kid → who ≠ some kid.task)
    (shell : t.shell = s.shell ∨ who = some job.shell) : Change job s t who := by
  constructor
  · exact ⟨caller, parent, mine, framed⟩
  · exact ends
  · intro i kid found
    rw [kids] at found
    exact .still found (others i kid found)
  · intro j
    rw [sent]
    exact Or.inl rfl
  · intro j
    rw [got]
  · exact shell

theorem change_kid {i : Nat} {kid : Kid} {pc : KidPc} {caller parent : Option Nat} (wired : Wired job old s)
    (here : s.kids i = some kid) (mine : caller = some kid.task ∨ caller = none)
    (framed : Framed caller parent s.run.run t.run.run) (kids : t.kids = setKid s i kid pc)
    (ends : t.ends = s.ends) (shell : t.shell = s.shell)
    (moved : (∃ input, kidStep job s i kid input = some t) ∨ pc = .exited)
    (sent : ∀ j, t.sent j = s.sent j ∨ ∃ kid stage, s.kids j = some kid ∧ kid.pc = .command stage)
    (got : ∀ j, s.got j <+: t.got j) : Change job s t (some kid.task) := by
  refine ⟨⟨caller, parent, mine, framed⟩, ?_, ?_, sent, got, Or.inl shell⟩
  · intro j e found
    rw [ends]
    exact found
  · intro j other found
    rw [kids, setKid, Function.update_apply] at found
    split at found
    · rename_i at_
      cases found
      rw [at_]
      rcases moved with ⟨input, step⟩ | gone
      · exact .own kid input here rfl rfl step
      · exact .exited kid here gone
    · rename_i at_
      apply KidMove.still found
      intro same
      exact at_ (wired.placed.apart j i other.task ⟨other, found, rfl⟩ ⟨kid, here, Option.some.inj same⟩)

theorem change_own {i : Nat} {kid : Kid} {input : Input} (wired : Wired job old s)
    (here : s.kids i = some kid) (step : kidStep job s i kid input = some t) :
    Change job s t (some kid.task) := by
  have inv := wired.kept.run
  have moved : (∃ input, kidStep job s i kid input = some t) := ⟨input, step⟩
  have unsent : t.sent = s.sent → t.got = s.got →
      (∀ j, t.sent j = s.sent j ∨ ∃ kid stage, s.kids j = some kid ∧ kid.pc = .command stage) ∧
        ∀ j, s.got j <+: t.got j := by
    intro sent got
    rw [sent, got]
    exact ⟨fun _ => Or.inl rfl, fun _ => List.prefix_refl _⟩
  unfold kidStep at step
  split at step
  · rename_i op rest pc
    obtain ⟨r, done, rfl⟩ := Option.map_eq_some_iff.mp step
    obtain ⟨sent, got⟩ := unsent rfl rfl
    have framed := perform_framed inv done
    cases op with
    | dup2 oldfd newfd => exact change_kid wired here (Or.inl rfl) framed rfl rfl rfl (Or.inl moved) sent got
    | close fd => exact change_kid wired here (Or.inl rfl) framed rfl rfl rfl (Or.inl moved) sent got
  · cases step
    obtain ⟨sent, got⟩ := unsent rfl rfl
    exact change_kid wired here (Or.inr rfl) (framed_refl none none _) rfl rfl rfl (Or.inl moved) sent got
  · obtain ⟨r, done, rfl⟩ := Option.map_eq_some_iff.mp step
    obtain ⟨sent, got⟩ := unsent rfl rfl
    exact change_kid wired here (Or.inl rfl) (exit_framed inv done).2 rfl rfl rfl (Or.inl moved) sent got
  · rename_i stage pc _
    obtain ⟨⟨run, next⟩, done, rfl⟩ := Option.map_eq_some_iff.mp step
    obtain ⟨caller, mine, framed⟩ := command_framed inv done
    refine change_kid wired here mine framed rfl rfl rfl (Or.inl moved) (fun j => ?_) fun j => ?_
    · dsimp only
      rw [Function.update_apply]
      split
      · rename_i at_
        rw [at_]
        exact Or.inr ⟨kid, stage, here, pc⟩
      · exact Or.inl rfl
    · dsimp only
      rw [Function.update_apply]
      split
      · rename_i at_
        rw [at_]
        exact List.prefix_append _ _
      · exact List.prefix_refl _
  · cases step

theorem shell_apart (wired : Wired job old s) : ∀ i kid, s.kids i = some kid → some job.shell ≠ some kid.task := by
  intro i kid found same
  exact (wired.placed.tasks i kid.task ⟨kid, found, rfl⟩).2 (Option.some.inj same).symm

theorem change_shell {a b c forks : Bool} (wired : Wired job old s)
    (step : shellStep job s a b c forks = some t) : Change job s t (some job.shell) := by
  obtain ⟨calls, parent, framed⟩ := shell_step_framed wired.kept.run step
  have besides : t.kids = s.kids → (∀ j e, s.ends j = some e → t.ends j = some e) → t.sent = s.sent →
      t.got = s.got → Change job s t (some job.shell) := fun kids ends sent got =>
    change_besides (Or.inl rfl) framed kids ends sent got (shell_apart wired) (Or.inr rfl)
  have fits := wired.placed.shell
  unfold shellStep at step
  split at step
  · rename_i pc
    rw [ShellFits, pc] at fits
    unfold pipeStep at step
    split at step
    · obtain ⟨r, done, same⟩ := Option.map_eq_some_iff.mp step
      split at same
      · cases same
        exact besides rfl (fun _ _ => id) rfl rfl
      · cases same
        apply besides rfl _ rfl rfl
        intro j e found
        have other : j ≠ s.shell.i := by
          rintro rfl
          have made := (fits.made s.shell.i).mp (by rw [found]; rfl)
          omega
        dsimp only
        rw [Function.update_of_ne other]
        exact found
    · cases step
      exact besides rfl (fun _ _ => id) rfl rfl
  · rename_i pc
    rw [ShellFits, pc] at fits
    unfold forkStep at step
    dsimp only at step
    split at step
    · obtain ⟨r, done, rfl⟩ := Option.map_eq_some_iff.mp step
      refine ⟨⟨_, parent, Or.inl rfl, framed⟩, fun _ _ => id, ?_, fun _ => Or.inl rfl,
        fun _ => List.prefix_refl _, Or.inr rfl⟩
      intro i kid found
      dsimp only at found
      rw [Function.update_apply] at found
      split at found
      · rename_i at_
        cases found
        refine .made _ ?_ rfl ?_
        · cases here : s.kids i with
          | none => rfl
          | some before =>
            have early := kid_early wired.placed fits.pids ⟨before, here, rfl⟩
            omega
        · dsimp only at calls ⊢
          rw [calls]
          exact (task_blank wired.kept.run (Nat.le_refl _)).1
      · exact .still found (shell_apart wired i kid found)
    · cases step
      exact besides rfl (fun _ _ => id) rfl rfl
  · obtain ⟨r, done, rfl⟩ := Option.map_eq_some_iff.mp step
    exact besides rfl (fun _ _ => id) rfl rfl
  · cases step
    exact besides rfl (fun _ _ => id) rfl rfl
  · split at step
    · cases step
      exact besides rfl (fun _ _ => id) rfl rfl
    · obtain ⟨r, done, rfl⟩ := Option.map_eq_some_iff.mp step
      exact besides rfl (fun _ _ => id) rfl rfl
  · cases step
    exact besides rfl (fun _ _ => id) rfl rfl
  · cases step
    exact besides rfl (fun _ _ => id) rfl rfl
  · cases step

theorem job_step_change (wired : Wired job old s) (step : jobStep job s event = some t) :
    Change job s t (actor job s event) := by
  have inv := wired.kept.run
  cases event with
  | shell a b c forks => exact change_shell wired step
  | direct input =>
    simp only [jobStep] at step
    unfold directStep at step
    split at step
    · cases step
      exact change_besides (Or.inr rfl) (framed_refl none none _) rfl (fun _ _ => id) rfl rfl (shell_apart wired)
        (Or.inr rfl)
    · obtain ⟨r, done, rfl⟩ := Option.map_eq_some_iff.mp step
      exact change_besides (Or.inl rfl) (exit_framed inv done).2 rfl (fun _ _ => id) rfl rfl (shell_apart wired)
        (Or.inr rfl)
    · obtain ⟨r, done, rfl⟩ := Option.map_eq_some_iff.mp step
      obtain ⟨caller, mine, framed⟩ := command_framed inv done
      exact change_besides mine framed rfl (fun _ _ => id) rfl rfl (shell_apart wired) (Or.inr rfl)
    · cases step
  | kid i input =>
    obtain ⟨kid, here, taken⟩ := Option.bind_eq_some_iff.mp step
    rw [actor, here, Option.map_some]
    exact change_own wired here taken
  | other call =>
    simp only [jobStep] at step
    split at step
    · rename_i from_
      obtain ⟨r, done, rfl⟩ := Option.map_eq_some_iff.mp step
      have apart : ∀ i kid, s.kids i = some kid → call.caller ≠ some kid.task :=
        fun i kid found same => foreign_no_party wired from_ same (Or.inr ⟨i, kid, found, rfl⟩)
      exact change_besides (Or.inl rfl) (perform_framed inv done) rfl (fun _ _ => id) rfl rfl apart (Or.inl rfl)
    · cases step
  | killShell =>
    obtain ⟨r, done, rfl⟩ := Option.map_eq_some_iff.mp step
    exact change_besides (Or.inl rfl) (exit_framed inv done).2 rfl (fun _ _ => id) rfl rfl (shell_apart wired)
      (Or.inr rfl)
  | killKid i =>
    obtain ⟨kid, here, taken⟩ := Option.bind_eq_some_iff.mp step
    obtain ⟨r, done, rfl⟩ := Option.map_eq_some_iff.mp taken
    rw [actor, here, Option.map_some]
    exact change_kid wired here (Or.inl rfl) (exit_framed inv done).2 rfl rfl rfl (Or.inr rfl)
      (fun _ => Or.inl rfl) fun _ => List.prefix_refl _

theorem change_calls {who : Option Nat} (change : Change job s t who) {u : Nat} (other : who ≠ some u) :
    t.run.run.calls u = s.run.run.calls u := by
  obtain ⟨caller, parent, mine, framed⟩ := change.framed
  apply framed.calls
  intro same
  rcases mine with named | none_
  · exact other (named.symm.trans same.symm)
  · rw [none_] at same
    cases same

end Steps

section Counting
variable {fs : Fat16.Fs} {f : FdRun} {task q : Nat} {input : Input} {run : FdRun} {next : Stage}
variable {job : Job} {old : FdTable} {s t : JobState} {i : Nat} {kid : Kid} {e : Ends}

theorem counting_step (step : commandStep fs f task .counting input = some (run, next)) :
    ∃ n, next = resultOf f .counting n ∧
      ((f.run.calls task = none ∧ ∃ args stores, args.count = 256 ∧
          fdRead fs f.run task 0 args = some (n, stores, run.run)) ∨
        fileCall f.run (.resume task) = some (n, run.run)) := by
  unfold commandStep at step
  split at step
  · rename_i after quiet
    cases input <;> cases quiet
  · obtain ⟨call, asked, rest⟩ := Option.bind_eq_some_iff.mp step
    obtain ⟨r, done, same⟩ := Option.map_eq_some_iff.mp rest
    cases same
    obtain ⟨may, taken⟩ := perform_some done
    cases input with
    | read buf typed block space =>
      cases asked
      obtain ⟨stores, u, after, read, _, result⟩ := read_parts taken
      rw [result]
      exact ⟨r.1, rfl, Or.inl ⟨may.1.2, _, stores, rfl, read⟩⟩
    | resume space =>
      cases asked
      obtain ⟨r', resumed, stored⟩ := Option.bind_eq_some_iff.mp taken
      obtain ⟨_, _, result⟩ := Option.bind_eq_some_iff.mp stored
      cases result
      exact ⟨r'.1, rfl, Or.inr resumed⟩
    | _ => cases asked

theorem read_of_pipe {g t : FilesRun} {args : ReadArgs} {n : Option Int} {stores : Stores}
    (at_ : pipeAt g.files task 0 = some q) (read : fdRead fs g task 0 args = some (n, stores, t)) :
    readStep g task q args.count = some (n, t) := by
  obtain ⟨d, opened, pipe⟩ := Option.bind_eq_some_iff.mp at_
  obtain ⟨ptr, held, live⟩ := Option.bind_eq_some_iff.mp opened
  have slot : g.files.slot task 0 = some ptr := held
  have named : d.pipe = some q := by
    split at pipe
    · exact pipe
    · cases pipe
  have type : d.type = .pipe := by
    split at pipe
    · assumption
    · cases pipe
  rw [fdRead, slot] at read
  dsimp only at read
  rw [live, Option.bind_some] at read
  simp only [type, fdReadPipe, slot, live, named] at read
  obtain ⟨r, taken, same⟩ := Option.map_eq_some_iff.mp read
  cases same
  rw [Option.bind_eq_bind, Option.bind_some, named] at taken
  exact taken

theorem counting_reads (wired : Wired job old s) (pending : Pending job s) (here : s.kids i = some kid)
    (pc : kid.pc = .command .counting) (found : endsBefore s.ends i = some e)
    (step : commandStep job.fs s.run kid.task .counting input = some (run, next)) :
    ∃ n, next = resultOf s.run .counting n ∧ readStep s.run.run kid.task e.pipe 256 = some (n, run.run) := by
  obtain ⟨n, result, ⟨_, args, stores, count, read⟩ | resumed⟩ := counting_step step
  · refine ⟨n, result, ?_⟩
    rw [← count]
    apply read_of_pipe _ read
    rw [pipe_at_in wired here pc, found]
    rfl
  · refine ⟨n, result, ?_⟩
    cases waiting : s.run.run.calls kid.task with
    | none =>
      simp only [fileCall, waiting] at resumed
      cases resumed
    | some c =>
      have side := pending.kids i kid c here waiting
      rw [pc] at side
      obtain ⟨d, before, rfl⟩ := side
      rw [found] at before
      cases before
      simp only [fileCall, waiting] at resumed
      exact resumed

theorem counting_console (wired : Wired job old s) (pending : Pending job s) (here : s.kids i = some kid)
    (pc : kid.pc = .command .counting) (first : endsBefore s.ends i = none)
    (step : commandStep job.fs s.run kid.task .counting input = some (run, next)) :
    run.run.calls kid.task = none := by
  obtain ⟨n, _, ⟨free, args, stores, _, read⟩ | resumed⟩ := counting_step step
  · have moves := fd_read_moves wired.kept.run free read
    cases waiting : run.run.calls kid.task with
    | none => rfl
    | some c =>
      have on := moves.waits c waiting
      cases c with
      | writing q rest count => exact False.elim on
      | reading q count =>
        obtain ⟨m, flags, slot, _⟩ := on
        have holds : s.run.run.files.tables kid.task 0 = some (.heap m) := (slot_some slot).2.2
        have zero := (command_standard wired here pc).1
        obtain ⟨_, input, _, _⟩ := wired.placed.kids i kid here
        cases i with
        | zero =>
          rw [inPtr, wired.kept.stdin] at zero
          rw [zero] at holds
          cases holds
        | succ i =>
          rw [in_ptr_succ, readPtr, Option.isSome_map, show s.ends i = none from first] at input
          cases input
  · cases waiting : s.run.run.calls kid.task with
    | none =>
      simp only [fileCall, waiting] at resumed
      cases resumed
    | some c =>
      have side := pending.kids i kid c here waiting
      rw [pc] at side
      obtain ⟨d, before, _⟩ := side
      rw [first] at before
      cases before

theorem counting_before {stage : Stage} (step : commandStep fs f task stage input = some (run, .counting)) :
    stage = .counting := by
  unfold commandStep at step
  split at step
  · rename_i after quiet
    split at step
    · cases step
      unfold silent at quiet
      split at quiet <;> cases quiet
    · cases step
  · obtain ⟨call, asked, rest⟩ := Option.bind_eq_some_iff.mp step
    obtain ⟨r, done, same⟩ := Option.map_eq_some_iff.mp rest
    have goes := congrArg Prod.snd same
    dsimp only at goes
    cases stage <;> cases result : r.1 <;> rw [result] at goes <;> simp only [resultOf, answered] at goes <;>
      first | rfl | cases goes | (split at goes <;> cases goes)

end Counting

section Waiting
variable {job : Job} {old : FdTable} {s t start : JobState} {event : Event} {i : Nat} {kid after : Kid}
variable {input : Input} {c : PipeCall}

theorem kid_waits_grow {before ends : Nat → Option Ends} {pc : KidPc}
    (grow : ∀ j e, before j = some e → ends j = some e) (waits : KidWaits before i c pc) : KidWaits ends i c pc := by
  cases pc with
  | wiring rest => exact waits
  | exited => trivial
  | command stage =>
    cases stage with
    | counting =>
      obtain ⟨e, found, same⟩ := waits
      refine ⟨e, ?_, same⟩
      cases i with
      | zero => cases found
      | succ i => exact grow i e found
    | _ => trivial

theorem own_waits (wired : Wired job old s) (pending : Pending job s) (here : s.kids i = some kid)
    (step : kidStep job s i kid input = some t) (found : t.kids i = some after)
    (waiting : t.run.run.calls kid.task = some c) : KidWaits t.ends i c after.pc := by
  have inv := wired.kept.run
  have of_calls : t.run.run.calls = s.run.run.calls → ∀ rest, kid.pc = .wiring rest → KidWaits t.ends i c after.pc := by
    intro same rest pc
    rw [same] at waiting
    have side := pending.kids i kid c here waiting
    rw [pc] at side
    exact False.elim side
  have is : ∀ pc, t.kids = setKid s i kid pc → after.pc = pc := by
    intro pc kids
    rw [kids, setKid, Function.update_self] at found
    cases found
    rfl
  unfold kidStep at step
  split at step
  · rename_i op rest pc
    obtain ⟨r, done, rfl⟩ := Option.map_eq_some_iff.mp step
    apply of_calls _ _ pc
    cases op with
    | dup2 oldfd newfd =>
      obtain ⟨_, _, _, _, tabled⟩ := perform_table_call inv done
      exact tabled.calls
    | close fd =>
      obtain ⟨_, _, _, _, tabled⟩ := perform_table_call inv done
      exact tabled.calls
  · rename_i pc
    cases step
    exact of_calls rfl _ pc
  · obtain ⟨r, done, rfl⟩ := Option.map_eq_some_iff.mp step
    rw [is _ rfl]
    trivial
  · rename_i stage pc _
    obtain ⟨⟨run, next⟩, done, rfl⟩ := Option.map_eq_some_iff.mp step
    rw [is _ rfl]
    by_cases counts : next = .counting
    · subst counts
      have stages := counting_before done
      subst stages
      dsimp only at waiting
      cases before : endsBefore s.ends i with
      | none =>
        rw [counting_console wired pending here pc before done] at waiting
        cases waiting
      | some e =>
        obtain ⟨n, _, round⟩ := counting_reads wired pending here pc before done
        exact ⟨e, before, read_step_waits round waiting⟩
    · cases next with
      | counting => exact absurd rfl counts
      | _ => trivial
  · cases step

theorem shell_unmoved (step : jobStep job s event = some t) (apart : ∀ a b c forks, event ≠ .shell a b c forks)
    (other : ∀ input, event ≠ .direct input) : t.shell = s.shell ∨ t.shell.pc = .gone := by
  have of_map : ∀ {call : FdCall} {f : Option Int × FdRun → JobState}, (∀ r, (f r).shell = s.shell) →
      (perform job.fs s.run call).map f = some t → t.shell = s.shell ∨ t.shell.pc = .gone := by
    intro call f same taken
    obtain ⟨r, done, rfl⟩ := Option.map_eq_some_iff.mp taken
    exact Or.inl (same r)
  cases event with
  | shell a b c forks => exact absurd rfl (apart a b c forks)
  | direct input => exact absurd rfl (other input)
  | kid i input =>
    obtain ⟨kid, _, taken⟩ := Option.bind_eq_some_iff.mp step
    unfold kidStep at taken
    split at taken
    · exact of_map (by intro r; rfl) taken
    · cases taken
      exact Or.inl rfl
    · exact of_map (by intro r; rfl) taken
    · obtain ⟨r, _, rfl⟩ := Option.map_eq_some_iff.mp taken
      exact Or.inl rfl
    · cases taken
  | other call =>
    simp only [jobStep] at step
    split at step
    · exact of_map (by intro r; rfl) step
    · cases step
  | killShell =>
    obtain ⟨r, _, rfl⟩ := Option.map_eq_some_iff.mp step
    exact Or.inr rfl
  | killKid i =>
    obtain ⟨kid, _, taken⟩ := Option.bind_eq_some_iff.mp step
    exact of_map (by intro r; rfl) taken

theorem chain_before (wired : Wired job old s) (step : jobStep job s event = some t)
    (inside : t.shell.pc.inChain = true) :
    s.shell.pc.inChain = true ∧ t.run.run.calls job.shell = s.run.run.calls job.shell := by
  have by_other : t.shell = s.shell ∨ t.shell.pc = .gone →
      (s.shell.pc.inChain = true → actor job s event ≠ some job.shell) →
        s.shell.pc.inChain = true ∧ t.run.run.calls job.shell = s.run.run.calls job.shell := by
    rintro (same | gone) other
    · rw [same] at inside
      exact ⟨inside, change_calls (job_step_change wired step) (other inside)⟩
    · rw [gone] at inside
      cases inside
  have by_kid : ∀ j kid, s.kids j = some kid → (s.kids j).map Kid.task ≠ some job.shell := by
    intro j kid here same
    rw [here] at same
    exact shell_apart wired j kid here same.symm
  cases event with
  | shell a b c forks =>
    have calls := (shell_step_framed wired.kept.run step).1
    refine ⟨?_, by rw [calls]⟩
    simp only [jobStep, shellStep] at step
    split at step <;> first | (rename_i pc; rw [pc]; rfl) | cases step
  | direct input =>
    simp only [jobStep, directStep] at step
    split at step
    · cases step
      cases inside
    · obtain ⟨r, _, rfl⟩ := Option.map_eq_some_iff.mp step
      cases inside
    · obtain ⟨r, _, rfl⟩ := Option.map_eq_some_iff.mp step
      cases inside
    · cases step
  | kid j input =>
    obtain ⟨kid, here, _⟩ := Option.bind_eq_some_iff.mp step
    exact by_other (shell_unmoved step (by simp) (by simp)) fun _ => by_kid j kid here
  | other call =>
    apply by_other (shell_unmoved step (by simp) (by simp))
    intro before same
    simp only [jobStep] at step
    split at step
    · rename_i from_
      apply foreign_no_party wired from_ same
      refine Or.inl ⟨rfl, ?_⟩
      cases pc : s.shell.pc <;> rw [pc] at before <;> first | rfl | cases before
    · cases step
  | killShell =>
    obtain ⟨r, _, rfl⟩ := Option.map_eq_some_iff.mp step
    cases inside
  | killKid j =>
    obtain ⟨kid, here, _⟩ := Option.bind_eq_some_iff.mp step
    exact by_other (shell_unmoved step (by simp) (by simp)) fun _ => by_kid j kid here

theorem pending_step (wired : Wired job old s) (pending : Pending job s) (step : jobStep job s event = some t) :
    Pending job t := by
  have change := job_step_change wired step
  constructor
  · intro inside
    obtain ⟨before, calls⟩ := chain_before wired step inside
    rw [calls]
    exact pending.shell before
  · intro i kid c found waiting
    cases change.kids i kid found with
    | made rest none_ pc free =>
      rw [free] at waiting
      cases waiting
    | still here other =>
      rw [change_calls change other] at waiting
      exact kid_waits_grow change.ends (pending.kids i kid c here waiting)
    | own before input here task segment taken =>
      rw [task] at waiting
      exact own_waits wired pending here taken found waiting
    | exited before here pc =>
      rw [pc]
      trivial

theorem pending_start (begun : JobStart job start) : Pending job start := by
  constructor
  · intro _
    exact begun.idle.2
  · intro i kid c found
    rw [begun.kids] at found
    cases found

end Waiting

def Drained (s : JobState) (j : Nat) (e : Ends) : Prop :=
  s.got (j + 1) = s.sent j ∧ ∀ u fd, s.run.run.files.tables u fd ≠ some (.heap e.write)

def ReadAll (s : JobState) : Prop :=
  ∀ j kid stage e, s.kids (j + 1) = some kid → parseCommand kid.segment = .wc → kid.pc = .command stage →
    stage ≠ .counting → s.ends j = some e → Drained s j e

section Draining
variable {job : Job} {old : FdTable} {s t start : JobState} {event : Event} {j : Nat} {kid : Kid} {e : Ends}

theorem got_before_sent (wired : Wired job old s) (ordered : Ordered s.run.run) (j : Nat) :
    s.got (j + 1) <+: s.sent j := by
  cases found : s.ends j with
  | none =>
    obtain ⟨_, noGot⟩ := wired.logged.blank j found
    rw [noGot]
    exact List.nil_prefix
  | some e =>
    obtain ⟨sent, got⟩ := wired.logged.bytes j e found
    rw [← sent, ← got]
    exact ordered e.pipe

theorem drained_change {who : Option Nat} (wired : Wired job old s) (after : Wired job old t)
    (ordered : Ordered t.run.run) (change : Change job s t who) (found : s.ends j = some e)
    (drained : Drained s j e) : Drained t j e := by
  obtain ⟨same, unheld⟩ := drained
  obtain ⟨caller, parent, _, framed⟩ := change.framed
  have sent : t.sent j = s.sent j := by
    rcases change.sent j with still | ⟨kid, stage, here, pc⟩
    · exact still
    · have one := (command_standard wired here pc).2
      rw [outPtr, if_pos (wired.kept.within j e found), writePtr, found] at one
      exact absurd one (unheld kid.task 1)
  constructor
  · have back : t.got (j + 1) <+: s.got (j + 1) := by
      rw [same, ← sent]
      exact got_before_sent after ordered j
    have whole := back.eq_of_length_le (change.got (j + 1)).length_le
    rw [whole, same, sent]
  · intro u fd holds
    rcases framed.pointers u fd e.write holds with new | ⟨fd', mine⟩ | ⟨_, v, fd', _, theirs⟩
    · have low := (wired.kept.ends.old j e found).2.1
      omega
    · exact unheld u fd' mine
    · exact unheld v fd' theirs

theorem window_none {p : Pipe} (empty : p.count = 0) : p.contents = [] := by
  rw [Pipe.contents, empty, RingWindow.window_zero]

theorem drained_at_eof {task count : Nat} {g : FilesRun} (wired : Wired job old s) (found : s.ends j = some e)
    (asked : 1 ≤ count) (read : readStep s.run.run task e.pipe count = some (some 0, g)) : Drained s j e := by
  obtain ⟨p, live, empty, closed, _⟩ := read_step_eof asked read
  have inv := wired.kept.run
  obtain ⟨sent, got⟩ := wired.logged.bytes j e found
  constructor
  · have order := (inv.fifo e.pipe p live).order
    rw [window_none empty, List.append_nil] at order
    rw [← got, ← sent, order]
  · intro u fd holds
    obtain ⟨d, named⟩ := Option.isSome_iff_exists.mp (inv.files.accounted.known (u, fd) (.heap e.write) holds)
    have shape : s.run.run.files.shape e.write = some d.shape := by
      have here : s.run.run.files.files e.write = some d := named
      rw [Files.shape, here, Option.map_some]
    have isEnd := wired.kept.ends.write j e d.shape found shape
    exact not_held_closed inv live closed ⟨fd, e.write, holds, by rw [shape, isEnd]⟩

theorem read_step_positive {f : FilesRun} {task q count : Nat} {n : Int} {g : FilesRun}
    (step : readStep f task q count = some (some n, g)) : 0 ≤ n := by
  obtain ⟨p, _, same⟩ := Option.map_eq_some_iff.mp step
  split at same
  · cases same
  · cases same
    omega

theorem read_all_step (wired : Wired job old s) (pending : Pending job s) (ordered : Ordered t.run.run)
    (all : ReadAll s) (step : jobStep job s event = some t) : ReadAll t := by
  have after := wired_step wired step
  have change := job_step_change wired step
  intro j kid stage e found counts pc left at_
  -- the pipe in front of a child is older than the child
  have older : ∀ before, s.kids (j + 1) = some before → s.ends j = some e := by
    intro before here
    obtain ⟨_, input, _, _⟩ := wired.placed.kids (j + 1) before here
    rw [in_ptr_succ, readPtr, Option.isSome_map] at input
    obtain ⟨d, same⟩ := Option.isSome_iff_exists.mp input
    have grown := change.ends j d same
    rw [at_] at grown
    cases grown
    exact same
  cases change.kids (j + 1) kid found with
  | made rest none_ wiring free =>
    rw [pc] at wiring
    cases wiring
  | still here other =>
    exact drained_change wired after ordered change (older kid here) (all j kid stage e here counts pc left (older kid here))
  | exited before here exited =>
    rw [pc] at exited
    cases exited
  | own before input here task segment taken =>
    have first := older before here
    apply drained_change wired after ordered change first
    have is : ∀ pc', t.kids = setKid s (j + 1) before pc' → pc' = .command stage := by
      intro pc' kids
      rw [kids, setKid, Function.update_self] at found
      cases found
      exact pc
    unfold kidStep at taken
    split at taken
    · obtain ⟨r, _, rfl⟩ := Option.map_eq_some_iff.mp taken
      cases is _ rfl
    · cases taken
      have goes := KidPc.command.inj (is _ rfl)
      rw [← segment, counts] at goes
      exact absurd goes.symm left
    · obtain ⟨r, _, rfl⟩ := Option.map_eq_some_iff.mp taken
      cases is _ rfl
    · rename_i now pcBefore _
      obtain ⟨⟨run, next⟩, done, rfl⟩ := Option.map_eq_some_iff.mp taken
      have goes := KidPc.command.inj (is _ rfl)
      dsimp only at goes
      subst goes
      by_cases counting : now = .counting
      · subst counting
        obtain ⟨n, result, round⟩ := counting_reads wired pending here pcBefore first done
        cases n with
        | none => exact absurd result left
        | some n =>
          have positive := read_step_positive round
          have zero : n = 0 := by
            by_contra some_
            apply left
            rw [result, resultOf, answered, if_pos (by omega)]
            exact fun _ => Stage.noConfusion
          rw [zero] at round
          exact drained_at_eof wired first (by decide) round
      · exact all j before now e here (by rw [← segment]; exact counts) pcBefore counting first
    · cases taken

theorem read_all_start (begun : JobStart job start) : ReadAll start := by
  intro j kid stage e found
  rw [begun.kids] at found
  cases found

end Draining
end Archarch.Shell
