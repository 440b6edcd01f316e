import Archarch.Traps.SignalFrames
import Archarch.Traps.TrapRuns

/- The chain of a trap that finds signals pending: signal_deliver sends the task to the handler
   of the lowest one, the handler comes back through SYS_SIGRET, and syscall_handler calls
   signal_deliver again. -/
namespace Archarch.Traps
open ByteMemory LabelledRuns

/-- A handler from its first instruction to its system call: what it stores and the words that
    sync_el0_entry saves. -/
structure Behaviour where
  stores : List (Nat × BitVec 8)
  regs : Nat → BitVec 64

structure Entry where
  x0 : Nat
  lr : Nat
  sp : Nat
  pc : Nat
  code : Nat
  behaviour : Behaviour

def entry (t : Machine) (id : Nat) (b : Behaviour) : Entry :=
  ⟨reg t id 0, reg t id 30, reg t id 31, reg t id 32, read64 (t.umem id) (reg t id 30), b⟩

def handlerEvents (id : Nat) (b : Behaviour) (outcome : Outcome) : List Event :=
  b.stores.map (fun w => .store id w.1 w.2) ++ [.trap id b.regs, .serve id outcome]

/-- program says what the task does at EL0 in a given state of the machine. The result has the
    handlers that ran, in order, and the state after the last eret. -/
def signalChain (kstacks : KernelStacks) (outcome : Outcome) (program : Machine → Behaviour) (id : Nat) :
    Nat → Machine → Option (List Entry × Machine)
  | 0, _ => none
  | n + 1, s =>
    (machineStep kstacks s (.deliver id)).bind fun t =>
      if (s.tasks id).pending = 0 then some ([], t)
      else
        (runActions (machineStep kstacks) t (handlerEvents id (program t) outcome)).bind fun u =>
          (signalChain kstacks outcome program id n u).map fun r => (entry t id (program t) :: r.1, r.2)

/-- A handler that comes back through the trampoline, whose two instructions put SYS_SIGRET
    into x8 and trap: it leaves SP_EL0 and its signal frame alone, and EL0 cannot change its
    own mode and masks. -/
structure ComesBack (t : Machine) (id : Nat) (b : Behaviour) : Prop where
  stores : ∀ w ∈ b.stores, w.1 < kernVaOffset ∧
    (w.1 < reg t id 31 ∨ reg t id 31 + sigframeSize ≤ w.1)
  call : (b.regs 8).toNat = sysSigret
  sp : (b.regs 31).toNat = reg t id 31
  mode : (b.regs 33).toNat % 32 = 0 ∧ (b.regs 33).toNat / 64 % 16 = reg t id 33 / 64 % 16

/-- A user task behind the switch of syscall_handler, with a frame saved at EL0, room for a
    signal frame on its stack and user handlers for everything that is pending. -/
structure Interrupted (s : Machine) (id : Nat) : Prop where
  returning : (s.tasks id).phase = .returning
  mode : reg s id 33 % 32 = 0
  room : sigframeSize ≤ reg s id 31 ∧ reg s id 31 ≤ kernVaOffset
  signals : (s.tasks id).pending.getLsbD 0 = false ∧ (s.tasks id).pending.getLsbD sigkill = false
  caught : ∀ sig, (s.tasks id).pending.getLsbD sig = true → (s.tasks id).handlers sig ≠ sigDfl ∧
    (s.tasks id).handlers sig ≠ sigIgn ∧ (s.tasks id).handlers sig < 2 ^ 64

section Chain
variable {kstacks : KernelStacks} {outcome : Outcome} {program : Machine → Behaviour} {s t u : Machine}
  {id : Nat}

theorem stores_run {spsr : Nat} (stores : List (Nat × BitVec 8)) (user : (t.tasks id).phase = .user spsr)
    (mode : spsr % 32 = 0) (low : ∀ w ∈ stores, w.1 < kernVaOffset) (rest : List Event) :
    ∃ u, runActions (machineStep kstacks) t (stores.map (fun w => Event.store id w.1 w.2) ++ rest) =
        runActions (machineStep kstacks) u rest ∧
      (∀ x, (∀ w ∈ stores, w.1 ≠ x) → u.umem id x = t.umem id x) ∧
      (∀ k, k ≠ id → u.umem k = t.umem k) ∧ u.kmem = t.kmem ∧ u.tasks = t.tasks ∧
      u.numTasks = t.numTasks := by
  induction stores generalizing t with
  | nil => exact ⟨t, rfl, fun _ _ => rfl, fun _ _ => rfl, rfl, rfl, rfl⟩
  | cons w stores ih =>
    have here := low w List.mem_cons_self
    have at_ : AtEl0 (t.tasks id) (spsrOf (t.tasks id)) := by
      rw [spsrOf, user]
      exact ⟨user, mode⟩
    have once : machineStep kstacks t (.store id w.1 w.2) = some (storeByte t id w.1 w.2) := by
      rw [machineStep, if_pos ⟨at_, here⟩]
    obtain ⟨kmem, tasks, count⟩ := store_byte_user id w.2 (s := t) here
    have memory : (storeByte t id w.1 w.2).umem = Function.update t.umem id
        (Function.update (t.umem id) w.1 w.2) := by
      rw [storeByte, if_pos here]
    obtain ⟨u, run, kept, others, kernel, same, number⟩ := ih (t := storeByte t id w.1 w.2)
      (by rw [tasks]; exact user) fun v member => low v (List.mem_cons_of_mem _ member)
    refine ⟨u, ?_, ?_, ?_, kernel.trans kmem, same.trans tasks, number.trans count⟩
    · rw [List.map_cons, List.cons_append, runActions, once, Option.bind_some]
      exact run
    · intro x apart
      rw [kept x fun v member => apart v (List.mem_cons_of_mem _ member), memory, Function.update_self]
      exact Function.update_of_ne (Ne.symm (apart w List.mem_cons_self)) _ _
    · intro k other
      rw [others k other, memory]
      exact Function.update_of_ne other _ _

structure Delivered (s t : Machine) (id sig : Nat) : Prop where
  regs : ∀ j, j < 34 → reg t id j = handlerReg s id sig ((s.tasks id).handlers sig) j
  words : ∀ j, j < 34 → read64 (t.umem id) (signalSp (reg s id 31) + 8 * j) = reg s id j
  code : read64 (t.umem id) (signalSp (reg s id 31) + 280) = sigreturnTrampoline
  user : ∀ x, x < signalSp (reg s id 31) ∨ signalSp (reg s id 31) + sigframeSize ≤ x →
    t.umem id x = s.umem id x
  others : ∀ k, k ≠ id → t.umem k = s.umem k
  task : t.tasks id = { s.tasks id with
    pending := (s.tasks id).pending &&& ~~~(1#32 <<< sig), phase := .user (reg s id 33) }
  step : Local s t id

theorem signal_deliver_eq {sig : Nat} {rest : List Nat} (ready : Interrupted s id)
    (pending : pendingSignals (s.tasks id).pending = sig :: rest) :
    signalDeliver s id = signalHandle
      (setTask s id { s.tasks id with pending := (s.tasks id).pending &&& ~~~(1#32 <<< sig) }) id sig
        ((s.tasks id).handlers sig) := by
  have lowest : lowestPending (s.tasks id).pending = sig := by
    rw [lowest_pending_eq, pending]
    rfl
  obtain ⟨positive, _, bit⟩ := pending_signals_lt (p := (s.tasks id).pending) (i := sig)
    (by rw [pending]; exact List.mem_cons_self)
  obtain ⟨notDefault, notIgnored, _⟩ := ready.caught sig bit
  have notKill : sig ≠ sigkill := by
    rintro rfl
    rw [ready.signals.2] at bit
    cases bit
  rw [signalDeliver, lowest, if_neg (by omega), if_neg notKill, if_neg notIgnored, if_neg notDefault]

theorem deliver_handled {sig : Nat} {rest : List Nat} (ready : Interrupted s id)
    (pending : pendingSignals (s.tasks id).pending = sig :: rest) :
    ∃ t, machineStep kstacks s (.deliver id) = some t ∧ Delivered s t id sig := by
  obtain ⟨_, small, bit⟩ := pending_signals_lt (p := (s.tasks id).pending) (i := sig)
    (by rw [pending]; exact List.mem_cons_self)
  have cleared := signal_deliver_eq ready pending
  generalize taken : setTask s id
    { s.tasks id with pending := (s.tasks id).pending &&& ~~~(1#32 <<< sig) } = c at cleared
  have kernel : SameKernel s c := by
    rw [← taken]
    exact same_kernel_set_task rfl
  have words : ∀ j, reg c id j = reg s id j := fun j => same_kernel_reg kernel id j
  have umem : c.umem = s.umem := by rw [← taken, setTask]
  have mine : c.tasks id =
      { s.tasks id with pending := (s.tasks id).pending &&& ~~~(1#32 <<< sig) } := by
    rw [← taken, set_task_self]
  have locally : Local s c id := by
    rw [← taken]
    exact local_set_task rfl fun other => absurd rfl other
  obtain ⟨room, low⟩ := ready.room
  have handled := @signal_handle_spec c id sig ((s.tasks id).handlers sig)
    (by rw [words]; exact room) (by rw [words]; exact low) small
    (ready.caught sig bit).2.2
  have quiet : Quiet c (signalHandle c id sig ((s.tasks id).handlers sig)) id := by
    apply quiet_signal_handle
    have below := (@signal_sp_le c id (by rw [words]; exact room)).1
    rw [words] at below ⊢
    omega
  generalize entered : signalHandle c id sig ((s.tasks id).handlers sig) = h at handled quiet cleared
  have phase : (h.tasks id).phase = .returning := by
    rw [handled.tasks, mine]
    exact ready.returning
  have status : reg h id 33 = reg s id 33 := by
    rw [quiet.status, words]
  refine ⟨setPhase h id (.user (reg s id 33)), ?_, ?_⟩
  · simp only [machineStep, ready.returning, cleared, phase, status, ↓reduceIte, reduceCtorEq]
  · have same : SameKernel h (setPhase h id (.user (reg s id 33))) := same_kernel_set_phase
    have regs := handled.regs
    have frame := handled.words
    have code := handled.code
    have user := handled.user
    have others := handled.others
    simp only [words, umem, handlerReg] at regs frame code user others
    have memory := set_phase_umem h id (.user (reg s id 33))
    rw [← memory] at frame code user others
    refine ⟨?_, frame, code, user, others, ?_, ?_⟩
    · intro j inside
      rw [same_kernel_reg same, handlerReg]
      exact regs j inside
    · rw [setPhase, set_task_self, handled.tasks, mine]
    · exact local_trans locally (local_trans quiet.step (local_set_phase h id _))

theorem sigret_run {spsr base : Nat} {b : Behaviour} (user : (u.tasks id).phase = .user spsr)
    (mode : spsr % 32 = 0) (call : (b.regs 8).toNat = sysSigret) (sp : (b.regs 31).toNat = base)
    (status : (b.regs 33).toNat % 32 = 0 ∧ (b.regs 33).toNat / 64 % 16 = spsr / 64 % 16)
    (low : base + 8 * 34 ≤ kernVaOffset) :
    ∃ v, runActions (machineStep kstacks) u [.trap id b.regs, .serve id outcome] = some v ∧
      (∀ j, j < 34 → reg v id j = read64 (u.umem id) (base + 8 * j)) ∧ v.umem = u.umem ∧
      v.tasks id = { u.tasks id with phase := .returning } ∧ Local u v id := by
  have at_ : AtEl0 (u.tasks id) (spsrOf (u.tasks id)) := by
    rw [spsrOf, user]
    exact ⟨user, mode⟩
  have masks : (b.regs 33).toNat / 64 % 16 = spsrOf (u.tasks id) / 64 % 16 := by
    rw [spsrOf, user]
    exact status.2
  have trap : machineStep kstacks u (.trap id b.regs) =
      some (setPhase (saveFrame u id b.regs 0 34) id .serving) := by
    rw [machineStep, if_pos ⟨at_, status.1, masks⟩]
  obtain ⟨umem, tasks, _⟩ := save_frame_rest u id b.regs 0 34
  have saved := (save_frame_words u id b.regs 0 34).2
  have first := local_trans (save_frame_spec id b.regs (s := u) (i := 0) (n := 34) (by omega) (by omega)).1
    (local_set_phase _ id .serving)
  have words : ∀ j, j < 34 → reg (setPhase (saveFrame u id b.regs 0 34) id .serving) id j =
      (b.regs j).toNat := by
    intro j inside
    rw [same_kernel_reg same_kernel_set_phase]
    exact saved j (by omega) (by omega)
  have memory := set_phase_umem (saveFrame u id b.regs 0 34) id .serving
  have task : (setPhase (saveFrame u id b.regs 0 34) id .serving).tasks id =
      { u.tasks id with phase := .serving } := by
    rw [setPhase, set_task_self, tasks]
  rw [umem] at memory
  generalize setPhase (saveFrame u id b.regs 0 34) id .serving = w at trap first words memory task
  obtain ⟨popped, kept, same⟩ := @signal_return_words w id base
    ((words 31 (by omega)).trans sp) low
  have number : reg w id 8 = sysSigret := (words 8 (by omega)).trans call
  have serve : serveCall kstacks w id outcome = signalReturn w id := by
    rw [serveCall, number]
    rfl
  have phase : (w.tasks id).phase = .serving := by rw [task]
  have notExit : ¬ sysSigret = sysExit := by decide
  have second : Local w (signalReturn w id) id := by
    rw [signalReturn, (words 31 (by omega)).trans sp]
    apply (pop_frame_spec (by omega) (by omega) _).1
    left
    rw [kernVaOffset] at low ⊢
    omega
  generalize signalReturn w id = x at popped kept same serve second
  refine ⟨setPhase x id .returning, ?_, ?_, ?_, ?_, ?_⟩
  · rw [runActions, trap, Option.bind_some, runActions, machineStep, if_pos phase, number, if_neg notExit,
      serve, Option.bind_some, runActions]
  · intro j inside
    rw [same_kernel_reg same_kernel_set_phase, popped j inside, memory]
  · rw [set_phase_umem, kept, memory]
  · rw [setPhase, set_task_self, same, task]
  · exact local_trans first (local_trans second (local_set_phase x id _))

/-- Between s and t the task has kept its frame, and its memory but for the stack below the
    stack pointer of the frame and for what its handlers stored. -/
structure Unchanged (s t : Machine) (id : Nat) (stores : List (Nat × BitVec 8)) : Prop where
  regs : ∀ j, j < 34 → reg t id j = reg s id j
  handlers : (t.tasks id).handlers = (s.tasks id).handlers
  memory : ∀ x, x < signalSp (reg s id 31) ∨ reg s id 31 ≤ x → (∀ w ∈ stores, w.1 ≠ x) →
    t.umem id x = s.umem id x
  others : ∀ k, k ≠ id → t.umem k = s.umem k
  step : Local s t id

theorem unchanged_trans {first second : List (Nat × BitVec 8)} (before : Unchanged s t id first)
    (after : Unchanged t u id second) : Unchanged s u id (first ++ second) := by
  have sp := before.regs 31 (by omega)
  refine ⟨fun j inside => (after.regs j inside).trans (before.regs j inside),
    after.handlers.trans before.handlers, ?_, fun k other => (after.others k other).trans (before.others k other),
    local_trans before.step after.step⟩
  intro x outside apart
  rw [after.memory x (by rw [sp]; exact outside) fun w member => apart w (List.mem_append_right _ member),
    before.memory x outside fun w member => apart w (List.mem_append_left _ member)]

/-- One round: the handler of the lowest pending signal runs, and the frame is back. -/
theorem round_unchanged {sig : Nat} {rest : List Nat} (ready : Interrupted s id)
    (pending : pendingSignals (s.tasks id).pending = sig :: rest)
    (back : ∀ t spsr, (t.tasks id).phase = .user spsr → ComesBack t id (program t)) :
    ∃ t v, machineStep kstacks s (.deliver id) = some t ∧ Delivered s t id sig ∧
      runActions (machineStep kstacks) t (handlerEvents id (program t) outcome) = some v ∧
      Unchanged s v id (program t).stores ∧ Interrupted v id ∧
      pendingSignals (v.tasks id).pending = rest := by
  obtain ⟨t, deliver, delivered⟩ := @deliver_handled kstacks s id sig rest ready pending
  obtain ⟨room, low⟩ := ready.room
  have below := (signal_sp_le room).1
  have user : (t.tasks id).phase = .user (reg s id 33) := by rw [delivered.task]
  have comes := back t _ user
  have sp : reg t id 31 = signalSp (reg s id 31) := by
    rw [delivered.regs 31 (by omega)]
    rfl
  have status : reg t id 33 = reg s id 33 := by
    rw [delivered.regs 33 (by omega)]
    rfl
  have stores := comes.stores
  rw [sp] at stores
  obtain ⟨u, run, kept, others, kmem, tasks, count⟩ := @stores_run kstacks t id _ (program t).stores user ready.mode
    (fun w member => (stores w member).1) [.trap id (program t).regs, .serve id outcome]
  rw [← tasks] at user
  have mode := comes.mode
  rw [status] at mode
  obtain ⟨v, sigret, words, memory, task, step⟩ := @sigret_run kstacks outcome u id _ _ _ user
    ready.mode comes.call (comes.sp.trans sp) mode (by rw [sigframeSize] at below; omega)
  have regs : ∀ j, j < 34 → reg v id j = reg s id j := by
    intro j inside
    have frame : ∀ o, o < 8 → u.umem id (signalSp (reg s id 31) + 8 * j + o) =
        t.umem id (signalSp (reg s id 31) + 8 * j + o) := by
      intro o small
      apply kept
      intro w member here
      have apart := (stores w member).2
      rw [sigframeSize] at apart
      omega
    rw [words j inside, read64_congr frame, delivered.words j inside]
  have mine : v.tasks id =
      { s.tasks id with pending := (s.tasks id).pending &&& ~~~(1#32 <<< sig), phase := .returning } := by
    rw [task, tasks, delivered.task]
  have stored : Local t u id :=
    ⟨count, fun k => by rw [tasks], fun k _ => by rw [tasks], fun x _ => by rw [kmem]⟩
  refine ⟨t, v, deliver, delivered, ?_, ⟨regs, by rw [mine], ?_, ?_, ?_⟩, ⟨by rw [mine], ?_, ?_, ?_, ?_⟩, ?_⟩
  · rw [handlerEvents, run, sigret]
  · intro x outside apart
    rw [memory, kept x apart]
    apply delivered.user
    omega
  · intro k other
    rw [memory, others k other, delivered.others k other]
  · exact local_trans delivered.step (local_trans stored step)
  · rw [regs 33 (by omega)]
    exact ready.mode
  · rw [regs 31 (by omega)]
    exact ready.room
  · rw [mine]
    simp only [clear_bit _ sig (show 0 < 32 by omega), clear_bit _ sig (show sigkill < 32 by decide),
      ready.signals.1, ready.signals.2, Bool.false_and, and_self]
  · intro i bit
    rw [mine] at bit ⊢
    have small : i < 32 := BitVec.lt_of_getLsbD bit
    simp only [clear_bit _ sig small, Bool.and_eq_true] at bit
    exact ready.caught i bit.1
  · rw [mine]
    exact pending_signals_clear pending

def storesOf (trace : List Entry) : List (Nat × BitVec 8) := trace.flatMap fun e => e.behaviour.stores

structure Entered (s : Machine) (id : Nat) (e : Entry) : Prop where
  pc : e.pc = (s.tasks id).handlers e.x0
  sp : e.sp = signalSp (reg s id 31) ∧ e.sp % 16 = 0 ∧ e.sp + sigframeSize ≤ reg s id 31
  lr : e.lr = e.sp + 280 ∧ e.code = sigreturnTrampoline

theorem entered_of_delivered {sig : Nat} {b : Behaviour} (room : sigframeSize ≤ reg s id 31)
    (delivered : Delivered s t id sig) : Entered s id (entry t id b) ∧ (entry t id b).x0 = sig := by
  have below := signal_sp_le room
  have x0 : reg t id 0 = sig := delivered.regs 0 (by omega)
  have lr : reg t id 30 = signalSp (reg s id 31) + 280 := delivered.regs 30 (by omega)
  have sp : reg t id 31 = signalSp (reg s id 31) := delivered.regs 31 (by omega)
  have pc : reg t id 32 = (s.tasks id).handlers sig := delivered.regs 32 (by omega)
  refine ⟨⟨?_, ?_, ?_⟩, x0⟩
  · simp only [entry, pc, x0]
  · simp only [entry, sp, true_and]
    exact ⟨below.2, below.1⟩
  · simp only [entry, lr, sp]
    exact ⟨trivial, delivered.code⟩

theorem entered_of_unchanged {e : Entry} {stores : List (Nat × BitVec 8)}
    (same : Unchanged s t id stores) (entered : Entered t id e) : Entered s id e := by
  obtain ⟨pc, sp, lr⟩ := entered
  rw [same.handlers] at pc
  rw [same.regs 31 (by omega)] at sp
  exact ⟨pc, sp, lr⟩

theorem deliver_nothing (ready : Interrupted s id) (nothing : (s.tasks id).pending = 0) :
    ∃ t, machineStep kstacks s (.deliver id) = some t ∧ Unchanged s t id [] ∧
      t.tasks id = { s.tasks id with phase := .user (reg s id 33) } := by
  have lowest : lowestPending (s.tasks id).pending = 0 := by
    rw [lowest_pending_eq, nothing]
    rfl
  have idle : signalDeliver s id = s := by rw [signalDeliver, lowest, if_pos rfl]
  refine ⟨setPhase s id (.user (reg s id 33)), ?_, ⟨?_, ?_, ?_, ?_, local_set_phase s id _⟩, ?_⟩
  · simp only [machineStep, ready.returning, idle, ↓reduceIte, reduceCtorEq]
  · intro j _
    exact same_kernel_reg same_kernel_set_phase id j
  · rw [setPhase, set_task_self]
  · intro x _ _
    rw [set_phase_umem]
  · intro k _
    rw [set_phase_umem]
  · rw [setPhase, set_task_self]

theorem chain_runs (n : Nat) (signals : List Nat) (ready : Interrupted s id)
    (pending : pendingSignals (s.tasks id).pending = signals) (fuel : signals.length < n)
    (back : ∀ t spsr, (t.tasks id).phase = .user spsr → ComesBack t id (program t)) :
    ∃ trace t, signalChain kstacks outcome program id n s = some (trace, t) ∧
      trace.map Entry.x0 = signals ∧ (∀ e ∈ trace, Entered s id e) ∧
      Unchanged s t id (storesOf trace) ∧ (t.tasks id).pending = 0 ∧
      (t.tasks id).phase = .user (reg s id 33) := by
  induction signals generalizing s n with
  | nil =>
    obtain ⟨n, rfl⟩ : ∃ m, n = m + 1 := ⟨n - 1, by omega⟩
    have nothing := (pending_signals_nil ready.signals.1).mp pending
    obtain ⟨t, deliver, same, task⟩ := @deliver_nothing kstacks s id ready nothing
    refine ⟨[], t, ?_, rfl, by simp, same, by rw [task]; exact nothing, by rw [task]⟩
    rw [signalChain, deliver, Option.bind_some, if_pos nothing]
  | cons sig rest ih =>
    obtain ⟨n, rfl⟩ : ∃ m, n = m + 1 := ⟨n - 1, by omega⟩
    obtain ⟨t, v, deliver, delivered, handler, same, again, left⟩ :=
      @round_unchanged kstacks outcome program s id sig rest ready pending back
    obtain ⟨trace, w, run, numbers, entered, later, clear, phase⟩ := ih n again left
      (by rw [List.length_cons] at fuel; omega)
    have more : (s.tasks id).pending ≠ 0 := by
      intro nothing
      rw [(pending_signals_nil ready.signals.1).mpr nothing] at pending
      cases pending
    obtain ⟨here, x0⟩ := entered_of_delivered (b := program t) ready.room.1 delivered
    refine ⟨entry t id (program t) :: trace, w, ?_, ?_, ?_, unchanged_trans same later, clear, ?_⟩
    · rw [signalChain, deliver, Option.bind_some, if_neg more, handler, Option.bind_some, run]
      rfl
    · rw [List.map_cons, x0, numbers]
    · intro e member
      rcases List.mem_cons.mp member with rfl | member
      · exact here
      · exact entered_of_unchanged same (entered e member)
    · rw [phase, same.regs 33 (by omega)]

end Chain

/-- A chain has at most 31 handlers, so 32 calls of signal_deliver are enough. -/
theorem signals_transparent (kstacks : KernelStacks) (outcome : Outcome) (program : Machine → Behaviour)
    (s : Machine) (id : Nat) (ready : Interrupted s id) (some_ : (s.tasks id).pending ≠ 0)
    (back : ∀ t spsr, (t.tasks id).phase = .user spsr → ComesBack t id (program t)) :
    ∃ trace t, signalChain kstacks outcome program id 32 s = some (trace, t) ∧ trace ≠ [] ∧
      trace.map Entry.x0 = (List.range' 1 31).filter (fun sig => (s.tasks id).pending.getLsbD sig) ∧
      (∀ e ∈ trace, e.pc = (s.tasks id).handlers e.x0 ∧ e.sp % 16 = 0 ∧
        e.lr = e.sp + 280 ∧ e.code = sigreturnTrampoline) ∧
      (t.tasks id).pending = 0 ∧ (t.tasks id).phase = .user (reg s id 33) ∧
      (∀ j, j < 34 → reg t id j = reg s id j) ∧
      (∀ x, x < signalSp (reg s id 31) ∨ reg s id 31 ≤ x →
        (∀ e ∈ trace, ∀ w ∈ e.behaviour.stores, w.1 ≠ x) → t.umem id x = s.umem id x) ∧
      (∀ k, k ≠ id → t.umem k = s.umem k) ∧
      ∀ x, ¬ (frame s id ≤ x ∧ x < frame s id + frameSize) → t.kmem x = s.kmem x := by
  have short : (pendingSignals (s.tasks id).pending).length < 32 := by
    have bound := List.length_filter_le (fun i => (s.tasks id).pending.getLsbD i) (List.range' 1 31)
    rw [List.length_range'] at bound
    rw [pendingSignals]
    omega
  obtain ⟨trace, t, run, numbers, entered, same, clear, phase⟩ := @chain_runs kstacks
    outcome program s id 32 _ ready rfl short back
  refine ⟨trace, t, run, ?_, numbers, ?_, clear, phase, same.regs, ?_, same.others, same.step.memory⟩
  · rintro rfl
    exact some_ ((pending_signals_nil ready.signals.1).mp numbers.symm)
  · intro e member
    obtain ⟨pc, sp, lr⟩ := entered e member
    exact ⟨pc, sp.2.1, lr⟩
  · intro x outside apart
    apply same.memory x outside
    intro w member
    obtain ⟨e, inTrace, stored⟩ := List.mem_flatMap.mp member
    exact apart e inTrace w stored

/-- Every handler sets a byte and comes back. -/
def flagAndReturn (t : Machine) : Behaviour where
  stores := if 0x1000 < reg t 1 31 then [(0x1000, 1)] else []
  regs i :=
    if i = 8 then 16
    else if i = 31 then BitVec.ofNat 64 (reg t 1 31)
    else if i = 33 then BitVec.ofNat 64 (reg t 1 33 / 64 % 16 * 64)
    else 0

theorem flag_comes_back (t : Machine) : ComesBack t 1 (flagAndReturn t) := by
  have fits := reg_lt t 1 31
  refine ⟨?_, rfl, ?_, ?_⟩
  · intro w member
    simp only [flagAndReturn] at member
    split at member
    · rw [List.mem_singleton.mp member, kernVaOffset]
      omega
    · cases member
  · exact (BitVec.toNat_ofNat _ _).trans (Nat.mod_eq_of_lt fits)
  · have word : ((flagAndReturn t).regs 33).toNat = reg t 1 33 / 64 % 16 * 64 :=
      (BitVec.toNat_ofNat _ _).trans (Nat.mod_eq_of_lt (by omega))
    rw [word]
    omega

/-- Task 1 returns from a system call with SIGUSR1 and signal 12 pending. -/
def signalledMachine : Machine :=
  setReg
    { bootMachine with
      tasks := Function.update bootMachine.tasks 1
        ⟨.returning, kstackTop exampleStacks 1, fun sig => 0x400000 + 16 * sig, 0x1400, none⟩
      numTasks := 2 } 1 31 0x7f0000

theorem signalled_interrupted : Interrupted signalledMachine 1 := by
  refine ⟨rfl, by decide +kernel, by decide +kernel, by decide +kernel, ?_⟩
  intro sig bit
  have small : sig < 32 := BitVec.lt_of_getLsbD bit
  have handler : (signalledMachine.tasks 1).handlers sig = 0x400000 + 16 * sig := rfl
  rw [handler, sigDfl, sigIgn]
  omega

theorem two_signals_transparent : ∃ trace t,
    signalChain exampleStacks plain flagAndReturn 1 32 signalledMachine = some (trace, t) ∧
      trace.map Entry.x0 = [10, 12] ∧ (t.tasks 1).pending = 0 ∧ reg t 1 31 = 0x7f0000 := by
  obtain ⟨trace, t, run, -, numbers, -, clear, -, regs, -⟩ := signals_transparent exampleStacks plain
    flagAndReturn signalledMachine 1 signalled_interrupted (by decide +kernel)
    fun t _ _ => flag_comes_back t
  have sp : reg signalledMachine 1 31 = 0x7f0000 := by decide +kernel
  have listed : (List.range' 1 31).filter (fun sig => (signalledMachine.tasks 1).pending.getLsbD sig) =
      [10, 12] := by decide +kernel
  exact ⟨trace, t, run, numbers.trans listed, clear, (regs 31 (by omega)).trans sp⟩

end Archarch.Traps
