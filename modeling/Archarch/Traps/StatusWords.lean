import Archarch.Traps.Signals

/- The saved status word of every task. A step that works for one task changes kernel
   memory inside the frame of this task only, provided it stores to user memory
   otherwise. -/
namespace Archarch.Traps
open ByteMemory LabelledRuns

def Saved (phase : Phase) : Prop := phase = .serving ∨ phase = .returning ∨ phase = .forked

structure StatusInv (kstacks : KernelStacks) (s : Machine) : Prop where
  bound : ∀ id, (s.tasks id).phase ≠ .idle → id < s.numTasks
  count : s.numTasks ≤ schedMaxTasks
  placed : ∀ id, (s.tasks id).phase ≠ .idle →
    stackBase kstacks id + frameSize ≤ (s.tasks id).sp ∧ (s.tasks id).sp ≤ kstackTop kstacks id
  saved : ∀ id, Saved (s.tasks id).phase → El0t (reg s id 33)
  running : ∀ id spsr, (s.tasks id).phase = .user spsr → El0t spsr

structure Local (s t : Machine) (id : Nat) : Prop where
  count : t.numTasks = s.numTasks
  sp : ∀ k, (t.tasks k).sp = (s.tasks k).sp
  others : ∀ k, k ≠ id → (t.tasks k).phase = (s.tasks k).phase
  memory : ∀ x, ¬ (frame s id ≤ x ∧ x < frame s id + frameSize) → t.kmem x = s.kmem x

section Local
variable {s t u : Machine} {id i j k v : Nat}

theorem local_frame (step : Local s t id) (k : Nat) : frame t k = frame s k := by
  rw [frame, frame, step.sp k]

theorem local_refl (s : Machine) (id : Nat) : Local s s id :=
  ⟨rfl, fun _ => rfl, fun _ _ => rfl, fun _ _ => rfl⟩

theorem local_trans (first : Local s t id) (second : Local t u id) : Local s u id := by
  refine ⟨second.count.trans first.count, fun k => (second.sp k).trans (first.sp k),
    fun k other => (second.others k other).trans (first.others k other), ?_⟩
  intro x outside
  rw [second.memory x (by rw [local_frame first]; exact outside), first.memory x outside]

theorem local_set_reg (small : i < 34) (v : Nat) : Local s (setReg s id i v) id := by
  refine ⟨rfl, fun _ => rfl, fun _ _ => rfl, ?_⟩
  intro x outside
  rw [frameSize] at outside
  exact write64_outside (by omega)

theorem local_set_task {task : Task} (sp : task.sp = (s.tasks k).sp)
    (same : k ≠ id → task.phase = (s.tasks k).phase) : Local s (setTask s k task) id := by
  refine ⟨rfl, ?_, ?_, fun _ _ => rfl⟩
  · intro j
    by_cases here : j = k
    · subst here
      rw [set_task_self]
      exact sp
    · rw [set_task_other here]
  · intro j other
    by_cases here : j = k
    · subst here
      rw [set_task_self]
      exact same other
    · rw [set_task_other here]

theorem local_set_phase (s : Machine) (id : Nat) (phase : Phase) : Local s (setPhase s id phase) id :=
  local_set_task rfl fun other => absurd rfl other

theorem frame_set_reg : frame (setReg s id i v) k = frame s k := rfl

theorem reg_set_reg (fits : v < 2 ^ 64) : reg (setReg s id i v) id i = v := read64_write64 fits

theorem reg_set_reg_apart (apart : i ≠ j) : reg (setReg s id i v) id j = reg s id j := by
  rw [reg, frame_set_reg]
  exact read64_write64_apart (by omega)

theorem reg_lt (s : Machine) (id i : Nat) : reg s id i < 2 ^ 64 := read64_lt _ _

structure SameKernel (s t : Machine) : Prop where
  kmem : t.kmem = s.kmem
  sp : ∀ k, (t.tasks k).sp = (s.tasks k).sp

theorem same_kernel_reg (same : SameKernel s t) (id i : Nat) : reg t id i = reg s id i := by
  rw [reg, reg, frame, frame, same.kmem, same.sp id]

theorem same_kernel_set_task {task : Task} (sp : task.sp = (s.tasks k).sp) :
    SameKernel s (setTask s k task) := by
  refine ⟨rfl, ?_⟩
  intro j
  by_cases here : j = k
  · subst here
    rw [set_task_self]
    exact sp
  · rw [set_task_other here]

theorem same_kernel_set_phase {phase : Phase} : SameKernel s (setPhase s id phase) :=
  same_kernel_set_task rfl

theorem set_phase_phase {phase : Phase} : ((setPhase s id phase).tasks id).phase = phase := by
  rw [setPhase, set_task_self]

theorem signal_send_spec (s : Machine) (tid sig : Int) : SameKernel s (signalSend s tid sig).2 ∧
    (signalSend s tid sig).2.numTasks = s.numTasks ∧
    ∀ k, ((signalSend s tid sig).2.tasks k).phase = (s.tasks k).phase := by
  have same : SameKernel s s ∧ s.numTasks = s.numTasks ∧ ∀ k, (s.tasks k).phase = (s.tasks k).phase :=
    ⟨⟨rfl, fun _ => rfl⟩, rfl, fun _ => rfl⟩
  unfold signalSend
  split
  · exact same
  · split
    · exact same
    · refine ⟨same_kernel_set_task rfl, rfl, ?_⟩
      intro k
      by_cases here : k = tid.toNat
      · subst here
        rw [set_task_self]
      · rw [set_task_other here]

theorem local_signal_send (id : Nat) (s : Machine) (tid sig : Int) :
    Local s (signalSend s tid sig).2 id := by
  obtain ⟨kernel, count, phases⟩ := signal_send_spec s tid sig
  exact ⟨count, kernel.sp, fun k _ => phases k, fun x _ => by rw [kernel.kmem]⟩

theorem sched_exit_spec (s : Machine) (id : Nat) : Local s (schedExit s id) id ∧
    ((schedExit s id).tasks id).phase = .finished := by
  unfold schedExit
  split
  · exact ⟨local_set_phase s id _, set_phase_phase⟩
  · rename_i parent _
    obtain ⟨_, _, phases⟩ := signal_send_spec (setPhase s id .finished) parent sigchld
    exact ⟨local_trans (local_set_phase s id _) (local_signal_send id _ _ _),
      (phases id).trans set_phase_phase⟩

/- Stores below the kernel half. -/

theorem store64_user (id v : Nat) {a : Nat} (low : a < kernVaOffset) : (store64 s id a v).kmem = s.kmem ∧
    (store64 s id a v).tasks = s.tasks ∧ (store64 s id a v).numTasks = s.numTasks := by
  rw [store64, if_pos low]
  exact ⟨rfl, rfl, rfl⟩

theorem store_byte_user (id : Nat) (byte : BitVec 8) {a : Nat} (low : a < kernVaOffset) :
    (storeByte s id a byte).kmem = s.kmem ∧ (storeByte s id a byte).tasks = s.tasks ∧
      (storeByte s id a byte).numTasks = s.numTasks := by
  rw [storeByte, if_pos low]
  exact ⟨rfl, rfl, rfl⟩

theorem push_frame_user (id : Nat) {sp n : Nat} (low : sp + 8 * (i + n) ≤ kernVaOffset) :
    (pushFrame s id sp i n).kmem = s.kmem ∧ (pushFrame s id sp i n).tasks = s.tasks ∧
      (pushFrame s id sp i n).numTasks = s.numTasks := by
  induction n generalizing s i with
  | zero => exact ⟨rfl, rfl, rfl⟩
  | succ n ih =>
    have below : (sp + 8 * i) % 2 ^ 64 < kernVaOffset := by
      rw [kernVaOffset] at low ⊢
      omega
    obtain ⟨kmem, tasks, count⟩ := store64_user id (reg s id i) (s := s) below
    obtain ⟨kmem', tasks', count'⟩ := ih (s := store64 s id ((sp + 8 * i) % 2 ^ 64) (reg s id i))
      (i := i + 1) (by omega)
    exact ⟨kmem'.trans kmem, tasks'.trans tasks, count'.trans count⟩

structure Quiet (s t : Machine) (id : Nat) : Prop where
  step : Local s t id
  phase : (t.tasks id).phase = (s.tasks id).phase
  status : reg t id 33 = reg s id 33

theorem quiet_refl (s : Machine) (id : Nat) : Quiet s s id := ⟨local_refl s id, rfl, rfl⟩

theorem quiet_trans (first : Quiet s t id) (second : Quiet t u id) : Quiet s u id :=
  ⟨local_trans first.step second.step, second.phase.trans first.phase,
    second.status.trans first.status⟩

theorem quiet_set_reg (small : i < 33) (v : Nat) : Quiet s (setReg s id i v) id :=
  ⟨local_set_reg (by omega) v, rfl, reg_set_reg_apart (by omega)⟩

theorem quiet_user (kmem : t.kmem = s.kmem) (tasks : t.tasks = s.tasks)
    (count : t.numTasks = s.numTasks) : Quiet s t id := by
  refine ⟨⟨count, ?_, ?_, ?_⟩, ?_, ?_⟩
  · intro k
    rw [tasks]
  · intro k _
    rw [tasks]
  · intro x _
    rw [kmem]
  · rw [tasks]
  · rw [reg, reg, frame, frame, kmem, tasks]

theorem quiet_set_task {task : Task} (sp : task.sp = (s.tasks k).sp)
    (phase : task.phase = (s.tasks k).phase) : Quiet s (setTask s k task) id := by
  refine ⟨local_set_task sp fun _ => phase, ?_, same_kernel_reg (same_kernel_set_task sp) id 33⟩
  by_cases here : id = k
  · subst here
    rw [set_task_self]
    exact phase
  · rw [set_task_other here]

theorem quiet_signal_send (id : Nat) (s : Machine) (tid sig : Int) :
    Quiet s (signalSend s tid sig).2 id := by
  obtain ⟨kernel, _, phases⟩ := signal_send_spec s tid sig
  exact ⟨local_signal_send id s tid sig, phases id, same_kernel_reg kernel id 33⟩

theorem quiet_signal_set_handler (s : Machine) (sig : Int) (handler : Nat) :
    Quiet s (signalSetHandler s id sig handler).2 id := by
  unfold signalSetHandler
  split
  · exact quiet_refl s id
  · exact quiet_set_task rfl rfl

theorem quiet_signal_handle {sig handler : Nat}
    (low : signalSp (reg s id 31) + sigframeSize ≤ kernVaOffset) :
    Quiet s (signalHandle s id sig handler) id := by
  have bounds := low
  rw [sigframeSize, kernVaOffset] at bounds
  obtain ⟨kmem, tasks, count⟩ := push_frame_user id (s := s)
    (i := 0) (n := 34) (show signalSp (reg s id 31) + 8 * (0 + 34) ≤ kernVaOffset by rw [kernVaOffset]; omega)
  have pushed : Quiet s _ id := quiet_user kmem tasks count
  have words : ∀ {u : Machine} (i v : Nat), i < 36 →
      Quiet u (store64 u id ((signalSp (reg s id 31) + 8 * i) % 2 ^ 64) v) id := by
    intro u i v small
    obtain ⟨kmem, tasks, count⟩ := store64_user id v (s := u)
      (a := (signalSp (reg s id 31) + 8 * i) % 2 ^ 64) (by rw [kernVaOffset]; omega)
    exact quiet_user kmem tasks count
  unfold signalHandle
  exact quiet_trans pushed (quiet_trans (words 34 sig (by omega))
    (quiet_trans (words 35 sigreturnTrampoline (by omega))
      (quiet_trans (quiet_set_reg (i := 0) (by omega) _)
        (quiet_trans (quiet_set_reg (i := 30) (by omega) _)
          (quiet_trans (quiet_set_reg (i := 31) (by omega) _)
            (quiet_set_reg (i := 32) (by omega) _))))))

/- The loops over a frame. -/

theorem save_frame_spec (id : Nat) (regs : Nat → BitVec 64) {n : Nat} (whole : i + n = 34) (some : 0 < n) :
    Local s (saveFrame s id regs i n) id ∧ reg (saveFrame s id regs i n) id 33 = (regs 33).toNat := by
  induction n generalizing s i with
  | zero => omega
  | succ n ih =>
    have first : Local s (setReg s id i (regs i).toNat) id := local_set_reg (by omega) _
    rw [saveFrame]
    by_cases last : n = 0
    · subst last
      obtain rfl : i = 33 := by omega
      exact ⟨first, reg_set_reg (regs 33).isLt⟩
    · obtain ⟨rest, status⟩ := ih (s := setReg s id i (regs i).toNat) (i := i + 1) (by omega) (by omega)
      exact ⟨local_trans first rest, status⟩

def ApartFromFrame (s : Machine) (id a : Nat) : Prop :=
  a < kernVaOffset ∨ a + 8 ≤ frame s id ∨ frame s id + frameSize ≤ a

instance (s : Machine) (id a : Nat) : Decidable (ApartFromFrame s id a) :=
  inferInstanceAs (Decidable (_ ∨ _ ∨ _))

theorem load64_set_reg {a : Nat} (small : i < 34) (apart : ApartFromFrame s id a) :
    load64 (setReg s id i v) id a = load64 s id a := by
  simp only [load64]
  split
  · rfl
  · rename_i high
    rw [ApartFromFrame, frameSize] at apart
    exact read64_write64_apart (by omega)

theorem pop_frame_spec {sp n : Nat} (whole : i + n = 34) (some : 0 < n)
    (apart : ApartFromFrame s id ((sp + 8 * 33) % 2 ^ 64)) :
    Local s (popFrame s id sp i n) id ∧
      ((popFrame s id sp i n).tasks id).phase = (s.tasks id).phase ∧
      reg (popFrame s id sp i n) id 33 = load64 s id ((sp + 8 * 33) % 2 ^ 64) := by
  induction n generalizing s i with
  | zero => omega
  | succ n ih =>
    have first : Local s (setReg s id i (load64 s id ((sp + 8 * i) % 2 ^ 64))) id :=
      local_set_reg (by omega) _
    rw [popFrame]
    by_cases last : n = 0
    · subst last
      obtain rfl : i = 33 := by omega
      refine ⟨first, rfl, reg_set_reg ?_⟩
      rw [load64]
      split
      · exact read64_lt _ _
      · exact read64_lt _ _
    · obtain ⟨rest, phase, status⟩ := ih
        (s := setReg s id i (load64 s id ((sp + 8 * i) % 2 ^ 64))) (i := i + 1)
        (by omega) (by omega) apart
      exact ⟨local_trans first rest, phase, status.trans (load64_set_reg (by omega) apart)⟩

theorem copy_frame_spec {m : Mem} {dst src n : Nat} (whole : i + n ≤ 34)
    (apart : src + frameSize ≤ dst ∨ dst + frameSize ≤ src) :
    (∀ x, ¬ (dst ≤ x ∧ x < dst + frameSize) → copyFrame m dst src i n x = m x) ∧
      ∀ j, i ≤ j → j < i + n → read64 (copyFrame m dst src i n) (dst + 8 * j) = read64 m (src + 8 * j) := by
  rw [frameSize] at apart ⊢
  induction n generalizing m i with
  | zero => exact ⟨fun _ _ => rfl, fun j low high => by omega⟩
  | succ n ih =>
    obtain ⟨outside, words⟩ := ih (m := write64 m (dst + 8 * i) (read64 m (src + 8 * i))) (i := i + 1)
      (by omega)
    -- later rounds write other words
    have keeps : ∀ {m : Mem} {i n : Nat}, i + n ≤ 34 → ∀ j, j < i →
        read64 (copyFrame m dst src i n) (dst + 8 * j) = read64 m (dst + 8 * j) := by
      intro m i n
      induction n generalizing m i with
      | zero => exact fun _ _ _ => rfl
      | succ n ih =>
        intro whole j before
        rw [copyFrame, ih (by omega) j (by omega), read64_write64_apart (by omega)]
    refine ⟨?_, ?_⟩
    · intro x out
      rw [copyFrame, outside x out]
      exact write64_outside (by omega)
    · intro j low high
      rw [copyFrame]
      by_cases first : j = i
      · subst first
        rw [keeps (by omega) j (by omega), read64_write64 (read64_lt _ _)]
      · rw [words j (by omega) (by omega), read64_write64_apart (by omega)]

end Local

/- One step. -/

section Steps
variable {kstacks : KernelStacks} {s t : Machine} {id k : Nat}

theorem stack_base_eq (kstacks : KernelStacks) (id : Nat) :
    stackBase kstacks id = kstacks.taskStacks + id * 8192 := rfl

theorem kstack_top_eq (kstacks : KernelStacks) (id : Nat) :
    kstackTop kstacks id = kstacks.taskStacks + (id + 1) * 8192 := rfl

theorem frame_within (inv : StatusInv kstacks s) (live : (s.tasks id).phase ≠ .idle) :
    kstacks.taskStacks + id * 8192 ≤ frame s id ∧
      frame s id + 272 ≤ kstacks.taskStacks + (id + 1) * 8192 := by
  have place := inv.placed id live
  rw [stack_base_eq, kstack_top_eq, frameSize] at place
  rw [frame, frameSize]
  omega

theorem reg_outside_stack (inv : StatusInv kstacks s) (live : (s.tasks k).phase ≠ .idle)
    (other : k ≠ id) (sp : (t.tasks k).sp = (s.tasks k).sp)
    (memory : ∀ x, ¬ (kstacks.taskStacks + id * 8192 ≤ x ∧ x < kstacks.taskStacks + (id + 1) * 8192) →
      t.kmem x = s.kmem x) : reg t k 33 = reg s k 33 := by
  have place := frame_within inv live
  have same : frame t k = frame s k := by rw [frame, frame, sp]
  rw [reg, reg, same]
  refine read64_congr ?_
  intro o word
  refine memory _ ?_
  omega

theorem status_inv_local (inv : StatusInv kstacks s) (step : Local s t id)
    (live : (s.tasks id).phase ≠ .idle)
    (saved : Saved (t.tasks id).phase → El0t (reg t id 33))
    (running : ∀ spsr, (t.tasks id).phase = .user spsr → El0t spsr) : StatusInv kstacks t := by
  have within := frame_within inv live
  have liveOther : ∀ k, k ≠ id → (t.tasks k).phase ≠ .idle → (s.tasks k).phase ≠ .idle := by
    intro k other here
    rwa [step.others k other] at here
  refine ⟨?_, ?_, ?_, ?_, ?_⟩
  · intro k here
    rw [step.count]
    by_cases same : k = id
    · rw [same]
      exact inv.bound id live
    · exact inv.bound k (liveOther k same here)
  · rw [step.count]
    exact inv.count
  · intro k here
    rw [step.sp k]
    by_cases same : k = id
    · rw [same]
      exact inv.placed id live
    · exact inv.placed k (liveOther k same here)
  · intro k here
    by_cases same : k = id
    · rw [same] at here ⊢
      exact saved here
    · rw [step.others k same] at here
      have liveK : (s.tasks k).phase ≠ .idle := by
        intro idle
        rw [idle] at here
        rcases here with no | no | no <;> cases no
      rw [reg_outside_stack inv liveK same (step.sp k)]
      · exact inv.saved k here
      · intro x outside
        refine step.memory x ?_
        rw [frameSize]
        omega
  · intro k spsr here
    by_cases same : k = id
    · rw [same] at here
      exact running spsr here
    · rw [step.others k same] at here
      exact inv.running k spsr here

theorem status_inv_quiet (inv : StatusInv kstacks s) (quiet : Quiet s t id)
    (live : (s.tasks id).phase ≠ .idle) : StatusInv kstacks t := by
  refine status_inv_local inv quiet.step live ?_ ?_
  · intro here
    rw [quiet.phase] at here
    rw [quiet.status]
    exact inv.saved id here
  · intro spsr here
    rw [quiet.phase] at here
    exact inv.running id spsr here

theorem status_inv_set_phase {phase : Phase} (inv : StatusInv kstacks s)
    (live : (s.tasks id).phase ≠ .idle) (saved : Saved phase → El0t (reg s id 33))
    (running : ∀ spsr, phase = .user spsr → El0t spsr) : StatusInv kstacks (setPhase s id phase) := by
  refine status_inv_local inv (local_set_phase s id phase) live ?_ ?_
  · intro here
    rw [set_phase_phase] at here
    have word : reg (setPhase s id phase) id 33 = reg s id 33 :=
      same_kernel_reg same_kernel_set_phase id 33
    rw [word]
    exact saved here
  · intro spsr here
    rw [set_phase_phase] at here
    exact running spsr here

theorem status_inv_exit (inv : StatusInv kstacks s) (live : (s.tasks id).phase ≠ .idle) :
    StatusInv kstacks (schedExit s id) := by
  obtain ⟨step, phase⟩ := sched_exit_spec s id
  refine status_inv_local inv step live ?_ ?_
  · intro here
    rw [phase] at here
    rcases here with no | no | no <;> cases no
  · intro spsr here
    rw [phase] at here
    cases here

theorem status_inv_new {task : Task} (inv : StatusInv kstacks s) (room : s.numTasks < schedMaxTasks)
    (tasks : t.tasks = Function.update s.tasks s.numTasks task) (count : t.numTasks = s.numTasks + 1)
    (placed : stackBase kstacks s.numTasks + frameSize ≤ task.sp ∧ task.sp ≤ kstackTop kstacks s.numTasks)
    (memory : ∀ x, ¬ (kstacks.taskStacks + s.numTasks * 8192 ≤ x ∧
      x < kstacks.taskStacks + (s.numTasks + 1) * 8192) → t.kmem x = s.kmem x)
    (saved : Saved task.phase → El0t (reg t s.numTasks 33))
    (running : ∀ spsr, task.phase ≠ .user spsr) : StatusInv kstacks t := by
  have self : t.tasks s.numTasks = task := by rw [tasks, Function.update_self]
  have others : ∀ k, k ≠ s.numTasks → t.tasks k = s.tasks k := by
    intro k other
    rw [tasks, Function.update_of_ne other]
  refine ⟨?_, by rw [count]; omega, ?_, ?_, ?_⟩
  · intro k here
    rw [count]
    by_cases same : k = s.numTasks
    · omega
    · rw [others k same] at here
      have := inv.bound k here
      omega
  · intro k here
    by_cases same : k = s.numTasks
    · rw [same, self]
      exact placed
    · rw [others k same] at here ⊢
      exact inv.placed k here
  · intro k here
    by_cases same : k = s.numTasks
    · rw [same, self] at here
      rw [same]
      exact saved here
    · rw [others k same] at here
      have live : (s.tasks k).phase ≠ .idle := by
        intro idle
        rw [idle] at here
        rcases here with no | no | no <;> cases no
      rw [reg_outside_stack inv live same (by rw [others k same]) memory]
      exact inv.saved k here
  · intro k spsr here
    by_cases same : k = s.numTasks
    · rw [same, self] at here
      exact absurd here (running spsr)
    · rw [others k same] at here
      exact inv.running k spsr here

theorem status_inv_create (memory : Mem) (inv : StatusInv kstacks s)
    (room : s.numTasks < schedMaxTasks) : StatusInv kstacks (createTask kstacks s memory) := by
  have depth := kstacks.room
  rw [frameSize, schedStackSize] at depth
  refine status_inv_new inv room rfl rfl ?_ (fun _ _ => rfl) ?_ ?_
  · simp only [stack_base_eq, kstack_top_eq, frameSize]
    omega
  · rintro (no | no | no) <;> cases no
  · intro spsr no
    cases no

theorem fork_task_kmem {memory : Mem} : (forkTask kstacks s id memory).kmem =
    write64 (copyFrame s.kmem (kstackTop kstacks s.numTasks - frameSize) (frame s id) 0 34)
      (kstackTop kstacks s.numTasks - frameSize) 0 := by
  rw [forkTask]

theorem fork_task_frame {memory : Mem} : frame (forkTask kstacks s id memory) s.numTasks =
    kstackTop kstacks s.numTasks - frameSize := by
  simp only [frame, forkTask, Function.update_self]

theorem status_inv_fork (memory : Mem) (inv : StatusInv kstacks s) (room : s.numTasks < schedMaxTasks)
    (serving : (s.tasks id).phase = .serving) : StatusInv kstacks (forkTask kstacks s id memory) := by
  have live : (s.tasks id).phase ≠ .idle := by
    rw [serving]
    decide
  have bound := inv.bound id live
  have within := frame_within inv live
  have apart : frame s id + frameSize ≤ kstackTop kstacks s.numTasks - frameSize ∨
      kstackTop kstacks s.numTasks - frameSize + frameSize ≤ frame s id := by
    rw [kstack_top_eq, frameSize]
    omega
  obtain ⟨outside, words⟩ := copy_frame_spec (m := s.kmem) (i := 0) (n := 34) (Nat.le_refl _) apart
  refine status_inv_new inv room rfl rfl ?_ ?_ ?_ ?_
  · simp only [stack_base_eq, kstack_top_eq, frameSize]
    omega
  · intro x out
    have first : ¬ (kstackTop kstacks s.numTasks - frameSize ≤ x ∧
        x < kstackTop kstacks s.numTasks - frameSize + frameSize) := by
      rw [kstack_top_eq, frameSize]
      omega
    rw [← outside x first, fork_task_kmem]
    rw [frameSize] at first ⊢
    rw [write64_outside (by omega)]
  · intro _
    have word : reg (forkTask kstacks s id memory) s.numTasks 33 = reg s id 33 := by
      rw [reg, fork_task_kmem, fork_task_frame, read64_write64_apart (by omega),
        words 33 (by omega) (by omega), reg]
    rw [word]
    exact inv.saved id (Or.inl serving)
  · intro spsr no
    cases no

end Steps
end Archarch.Traps
