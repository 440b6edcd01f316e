import Archarch.Traps.StatusWords

/- Every eret to EL0 selects EL0t with the masks clear as long as SYS_SIGRET finds such a
   status word: signal_return takes the word from the stack of the program as it is. -/
namespace Archarch.Traps
open ByteMemory LabelledRuns

def sigretWord (s : Machine) (id : Nat) : Nat := (reg s id 31 + 8 * 33) % 2 ^ 64

def Catches (t : Task) : Prop :=
  lowestPending t.pending ≠ 0 ∧ lowestPending t.pending ≠ sigkill ∧
    t.handlers (lowestPending t.pending) ≠ sigIgn ∧ t.handlers (lowestPending t.pending) ≠ sigDfl

instance (t : Task) : Decidable (Catches t) := inferInstanceAs (Decidable (_ ∧ _ ∧ _ ∧ _))

/-- The condition on one step: SYS_SIGRET finds a word of EL0t, and the kernel stores
   through addresses of the program below the kernel half only. -/
def Honest (s : Machine) : Event → Prop
  | .serve id _ => reg s id 8 = sysSigret →
      ApartFromFrame s id (sigretWord s id) ∧ El0t (load64 s id (sigretWord s id))
  | .copyOut _ a _ => a < kernVaOffset
  | .deliver id => Catches (s.tasks id) → signalSp (reg s id 31) + sigframeSize ≤ kernVaOffset
  | _ => True

instance (s : Machine) (event : Event) : Decidable (Honest s event) := by
  cases event <;> simp only [Honest] <;> infer_instance

section Steps
variable {kstacks : KernelStacks} {s t : Machine} {id : Nat}

theorem phase_ne_idle {phase : Phase} (here : (s.tasks id).phase = phase) (live : phase ≠ .idle) :
    (s.tasks id).phase ≠ .idle := by
  rwa [here]

theorem status_inv_serve {outcome : Outcome} (inv : StatusInv kstacks s)
    (serving : (s.tasks id).phase = .serving) (honest : Honest s (.serve id outcome)) :
    StatusInv kstacks (serveCall kstacks s id outcome) ∧
      ((serveCall kstacks s id outcome).tasks id).phase = .serving := by
  have live := phase_ne_idle serving (by decide)
  have below : id ≠ s.numTasks := by
    have := inv.bound id live
    omega
  have quiet : ∀ {u : Machine}, Quiet s u id → StatusInv kstacks u ∧ (u.tasks id).phase = .serving :=
    fun work => ⟨status_inv_quiet inv work live, work.phase.trans serving⟩
  unfold serveCall
  dsimp only
  split
  · split
    · rename_i room
      have made := status_inv_create outcome.memory inv room.2
      have same : ((createTask kstacks s outcome.memory).tasks id).phase = .serving := by
        simp only [createTask, Function.update_of_ne below, serving]
      exact ⟨status_inv_quiet made (quiet_set_reg (by omega) _) (phase_ne_idle same (by decide)), same⟩
    · exact quiet (quiet_set_reg (by omega) _)
  · split
    · split
      · rename_i room
        have made := status_inv_fork outcome.memory inv room.2 serving
        have same : ((forkTask kstacks s id outcome.memory).tasks id).phase = .serving := by
          simp only [forkTask, Function.update_of_ne below, serving]
        exact ⟨status_inv_quiet made (quiet_set_reg (by omega) _) (phase_ne_idle same (by decide)), same⟩
      · exact quiet (quiet_set_reg (by omega) _)
    · split
      · exact quiet (quiet_trans (quiet_signal_send id s _ _) (quiet_set_reg (by omega) _))
      · split
        · exact quiet (quiet_trans (quiet_signal_set_handler s _ _) (quiet_set_reg (by omega) _))
        · split
          · rename_i sigret
            obtain ⟨apart, word⟩ := honest sigret
            obtain ⟨step, phase, status⟩ := pop_frame_spec (i := 0) (n := 34) (by omega) (by omega) apart
            rw [signalReturn]
            refine ⟨status_inv_local inv step live ?_ ?_, phase.trans serving⟩
            · intro _
              rw [status]
              exact word
            · intro spsr here
              rw [phase, serving] at here
              cases here
          · exact quiet (quiet_set_reg (by omega) _)

theorem status_inv_deliver (inv : StatusInv kstacks s) (returning : (s.tasks id).phase = .returning)
    (honest : Honest s (.deliver id)) : StatusInv kstacks (signalDeliver s id) ∧
      (((signalDeliver s id).tasks id).phase = .returning ∨
        ((signalDeliver s id).tasks id).phase = .finished) := by
  have live := phase_ne_idle returning (by decide)
  have quiet : ∀ {u : Machine}, Quiet s u id → StatusInv kstacks u ∧
      ((u.tasks id).phase = .returning ∨ (u.tasks id).phase = .finished) :=
    fun work => ⟨status_inv_quiet inv work live, Or.inl (work.phase.trans returning)⟩
  unfold signalDeliver
  dsimp only
  split
  · exact quiet (quiet_refl s id)
  rename_i some
  have cleared : Quiet s (setTask s id { s.tasks id with pending := (s.tasks id).pending &&&
      ~~~(1#32 <<< lowestPending (s.tasks id).pending) }) id := quiet_set_task rfl rfl
  have next := status_inv_quiet inv cleared live
  have liveNext := phase_ne_idle (cleared.phase.trans returning) (by decide)
  have ends := fun u => (sched_exit_spec u id).2
  split
  · exact ⟨status_inv_exit next liveNext, Or.inr (ends _)⟩
  rename_i notKill
  split
  · exact quiet cleared
  rename_i notIgn
  split
  · unfold signalDefaultAction
    split
    · exact quiet cleared
    · exact ⟨status_inv_exit next liveNext, Or.inr (ends _)⟩
  rename_i notDfl
  refine quiet (quiet_trans cleared (quiet_signal_handle ?_))
  have kernel : SameKernel s (setTask s id { s.tasks id with pending := (s.tasks id).pending &&&
      ~~~(1#32 <<< lowestPending (s.tasks id).pending) }) := same_kernel_set_task rfl
  rw [same_kernel_reg kernel id 31]
  exact honest ⟨some, notKill, notIgn, notDfl⟩

theorem status_inv_trap {regs : Nat → BitVec 64} (inv : StatusInv kstacks s)
    (user : (s.tasks id).phase = .user (spsrOf (s.tasks id))) (mode : (regs 33).toNat % 32 = 0)
    (masks : (regs 33).toNat / 64 % 16 = spsrOf (s.tasks id) / 64 % 16) :
    StatusInv kstacks (setPhase (saveFrame s id regs 0 34) id .serving) := by
  have before := inv.running id _ user
  have live := phase_ne_idle user (by simp)
  obtain ⟨saved, status⟩ := save_frame_spec id regs (s := s) (i := 0) (n := 34) (by omega) (by omega)
  refine status_inv_local inv (local_trans saved (local_set_phase _ id _)) live ?_ ?_
  · intro _
    have word : reg (setPhase (saveFrame s id regs 0 34) id .serving) id 33 =
        reg (saveFrame s id regs 0 34) id 33 := same_kernel_reg same_kernel_set_phase id 33
    rw [word, status]
    exact ⟨mode, masks.trans before.2⟩
  · intro spsr here
    rw [set_phase_phase] at here
    cases here

theorem machine_step_inv {event : Event} (inv : StatusInv kstacks s) (honest : Honest s event)
    (step : machineStep kstacks s event = some t) : StatusInv kstacks t := by
  cases event with
  | create memory =>
    simp only [machineStep] at step
    split at step
    · rename_i room
      cases step
      exact status_inv_create _ inv room
    · cases step
  | start id =>
    simp only [machineStep] at step
    split at step
    · rename_i created
      cases step
      refine status_inv_set_phase inv (phase_ne_idle created (by decide)) ?_ ?_
      · rintro (no | no | no) <;> cases no
      · intro spsr here
        cases here
        decide
    · cases step
  | store id a byte =>
    simp only [machineStep] at step
    split at step
    · rename_i may
      cases step
      obtain ⟨kmem, tasks, count⟩ := store_byte_user id byte (s := s) may.2
      exact status_inv_quiet inv (quiet_user kmem tasks count) (phase_ne_idle may.1.1 (by simp))
    · cases step
  | trap id regs =>
    simp only [machineStep] at step
    split at step
    · rename_i may
      cases step
      obtain ⟨⟨user, _⟩, mode, masks⟩ := may
      exact status_inv_trap inv user mode masks
    · cases step
  | copyOut id a byte =>
    simp only [machineStep] at step
    split at step
    · rename_i may
      cases step
      obtain ⟨kmem, tasks, count⟩ := store_byte_user id byte (s := s) honest
      exact status_inv_quiet inv (quiet_user kmem tasks count) (phase_ne_idle may.1 (by decide))
    · cases step
  | serve id outcome =>
    simp only [machineStep] at step
    split at step
    · rename_i serving
      cases step
      split
      · exact status_inv_exit inv (phase_ne_idle serving (by decide))
      · obtain ⟨served, phase⟩ := status_inv_serve inv serving honest
        refine status_inv_set_phase served (phase_ne_idle phase (by decide)) ?_ ?_
        · intro _
          exact served.saved id (Or.inl phase)
        · intro spsr here
          cases here
    · cases step
  | deliver id =>
    simp only [machineStep] at step
    split at step
    · rename_i returning
      cases step
      obtain ⟨delivered, ends⟩ := status_inv_deliver inv returning honest
      split
      · exact delivered
      · rename_i alive
        have phase := ends.resolve_right alive
        refine status_inv_set_phase delivered (phase_ne_idle phase (by decide)) ?_ ?_
        · rintro (no | no | no) <;> cases no
        · intro spsr here
          cases here
          exact delivered.saved id (Or.inr (Or.inl phase))
    · cases step
  | resume id =>
    simp only [machineStep] at step
    split at step
    · rename_i forked
      cases step
      refine status_inv_set_phase inv (phase_ne_idle forked (by decide)) ?_ ?_
      · rintro (no | no | no) <;> cases no
      · intro spsr here
        cases here
        exact inv.saved id (Or.inr (Or.inr forked))
    · cases step

end Steps

/-- Runs whose every step is honest. -/
def HonestRun (kstacks : KernelStacks) : Machine → Prop :=
  Reaches Booted (Guarded Honest (Taken (machineStep kstacks)))

theorem honest_run_inv {kstacks : KernelStacks} {s : Machine} (run : HonestRun kstacks s) :
    StatusInv kstacks s := by
  refine reaches_invariant _ ?_ ?_ run
  · intro s booted
    have idle : ∀ id, (s.tasks id).phase = .idle := fun id => by rw [booted.tasks id, noTask]
    refine ⟨fun id here => absurd (idle id) here, by rw [booted.count]; decide,
      fun id here => absurd (idle id) here, ?_, ?_⟩
    · intro id here
      rw [idle id] at here
      rcases here with no | no | no <;> cases no
    · intro id spsr here
      rw [idle id] at here
      cases here
  · intro s event t inv step
    exact machine_step_inv inv step.1 step.2

theorem eret_selects_el0t (kstacks : KernelStacks) (s : Machine) (run : HonestRun kstacks s)
    (id spsr : Nat) (user : (s.tasks id).phase = .user spsr) : El0t spsr :=
  (honest_run_inv run).running id spsr user

def exampleStacks : KernelStacks :=
  ⟨kernVaOffset + 0x40100000, 32, by decide, by decide, by decide⟩

def bootMachine : Machine := ⟨fun _ => 0, fun _ _ => 0, fun _ => noTask, 1⟩

theorem boot_machine_booted : Booted bootMachine := ⟨fun _ => rfl, rfl⟩

def svc (num x0 x1 sp : BitVec 64) (i : Nat) : BitVec 64 :=
  if i = 8 then num else if i = 0 then x0 else if i = 1 then x1 else if i = 31 then sp else 0

def plain : Outcome := ⟨0, true, fun _ => 0⟩

/-- A handler for SIGUSR1 is set, the signal sent and delivered, and the handler returns. -/
theorem el0t_after_sigreturn : ∃ s, HonestRun exampleStacks s ∧ (s.tasks 1).phase = .user 0 ∧
    reg s 1 31 = 0x7f0000 ∧ El0t 0 := by
  have look : (runActions (allowed Honest (machineStep exampleStacks)) bootMachine
      [.create fun _ => 0, .start 1,
        .trap 1 (svc 15 10 0x400100 0x7f0000), .serve 1 plain, .deliver 1,
        .trap 1 (svc 14 1 10 0x7f0000), .serve 1 plain, .deliver 1,
        .trap 1 (svc 16 0 0 0x7efee0), .serve 1 plain, .deliver 1]).any
      (fun s => decide ((s.tasks 1).phase = .user 0 ∧ reg s 1 31 = 0x7f0000)) = true := by
    decide +kernel
  obtain ⟨s, run, found⟩ := (Option.any_eq_true _ _).mp look
  obtain ⟨user, sp⟩ := of_decide_eq_true found
  have reached : HonestRun exampleStacks s :=
    reaches_of_allowed (Reaches.start boot_machine_booted) run
  exact ⟨s, reached, user, sp, eret_selects_el0t exampleStacks s reached 1 0 user⟩

/-- The program writes 5, EL1h, where SYS_SIGRET looks for the status word. -/
theorem forged_frame_selects_el1 : ∃ s, Reaches Booted (Taken (machineStep exampleStacks)) s ∧
    (s.tasks 1).phase = .user 5 ∧ ¬ El0t 5 := by
  have look : (runActions (machineStep exampleStacks) bootMachine
      [.create fun _ => 0, .start 1, .store 1 0x7f0108 5,
        .trap 1 (svc 16 0 0 0x7f0000), .serve 1 plain, .deliver 1]).any
      (fun s => decide ((s.tasks 1).phase = .user 5)) = true := by
    decide +kernel
  obtain ⟨s, run, found⟩ := (Option.any_eq_true _ _).mp look
  exact ⟨s, reaches_of_actions (Reaches.start boot_machine_booted) run, of_decide_eq_true found,
    by decide⟩

end Archarch.Traps
