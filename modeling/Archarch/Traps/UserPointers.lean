import Archarch.Volumes.RootDirectory
import Archarch.Files.CleanFailures
import Archarch.Files.ReadExtents
import Archarch.Spaces.Isolation
import Archarch.Spaces.PointUpdate
import Archarch.Traps.KernelExits

/- Stores of the kernel through the pointers of its callers: the buffers of SYS_READ, SYS_LISTDIR and
   SYS_PIPE and the frame that signal_deliver pushes. The kernel runs with the table of the caller in
   TTBR0 and its own in TTBR1, and looks at none of the pointers. -/
namespace Archarch.UserPointers
open AddressSpaces (System Ran Alive roots descriptor El0ReadWrite vaLimit)
open Descriptors (Files FilesRun FdRun FdTable FdReached ReadArgs findFreeFd fdPipe resumeStores
  TwoFreeSlots two_free_slots_iff pipe_slots_iff)
open Fat16 (Fs listing)
open Traps (Machine toInt lowestPending sigkill sigIgn sigDfl signalSp)

/-- What a task has when it makes a system call: its address space, its descriptors, the words of its
   register frame and its signals. -/
structure Site where
  system : System
  files : FdRun
  volume : Fs
  regs : Nat → BitVec 64
  signals : Traps.Task

/-- What a call gets from outside: characters on the console, blocks of the heap. -/
structure Supply where
  typed : List Fat16.Byte
  block : Option (Nat → Fat16.Byte)
  allocPipe : Bool
  allocRead : Bool
  allocWrite : Bool

/-- serve: the switch of syscall_handler. resume: a read that has waited at a pipe. deliver:
   signal_deliver on the way back. -/
inductive Work where
  | serve (supply : Supply)
  | resume
  | deliver

def Caught (t : Traps.Task) : Prop :=
  let sig := lowestPending t.pending
  sig ≠ 0 ∧ sig ≠ sigkill ∧ t.handlers sig ≠ sigIgn ∧ t.handlers sig ≠ sigDfl

def readArgs (site : Site) (supply : Supply) : ReadArgs :=
  ⟨(site.regs 2).toNat % 2 ^ 32, supply.typed, supply.block⟩

def pipeCall (site : Site) (n : Nat) (supply : Supply) : Option (Nat × Nat) × Files :=
  fdPipe site.files.run.files n supply.allocPipe supply.allocRead supply.allocWrite

/-- The address that comes from the caller. -/
def pointer (site : Site) (n : Nat) : Work → Nat
  | .serve _ => if (site.regs 8).toNat = Traps.sysRead then (site.regs 1).toNat else (site.regs 0).toNat
  | .resume => site.files.bufs n
  | .deliver => signalSp (site.regs 31).toNat

def Writes (site : Site) (n k : Nat) : Work → Prop
  | .serve supply =>
    let num := (site.regs 8).toNat
    if num = Traps.sysRead then
      Descriptors.Stored site.volume site.files.run n (toInt (site.regs 0).toNat) (readArgs site supply) k
    else if num = Traps.sysListdir then
      k ≤ (Fat16.sysListdir site.volume ((site.regs 1).toNat % 2 ^ 32)).length
    else if num = Traps.sysPipe then (pipeCall site n supply).1 ≠ none ∧ k < 8
    else False
  | .resume => ∃ w ∈ resumeStores site.files.run n, w.1 = k
  | .deliver => Caught site.signals ∧ k < 36 * 8

/-- Mapped in the table of the task, with EL0 allowed to write. -/
def El0Writable (s : System) (n va : Nat) : Prop :=
  ∃ pgd e, roots s n = some pgd ∧ descriptor s.phys.mem pgd va = some e ∧ El0ReadWrite e

/-- All that the kernel stores through the pointer goes where the task could store itself. -/
def Contained (site : Site) (n : Nat) (work : Work) : Prop :=
  ∀ k, Writes site n k work → El0Writable site.system n ((pointer site n work + k) % 2 ^ 64)

/-- The offsets behind the pointer that the arguments of a call, the objects it names and the state
   of the task select. -/
def Span (site : Site) (n k : Nat) : Work → Prop
  | .serve supply =>
    let num := (site.regs 8).toNat
    if num = Traps.sysRead then
      Descriptors.Reachable site.volume site.files.run n (toInt (site.regs 0).toNat) (readArgs site supply) k
    else if num = Traps.sysListdir then
      k ≤ min (((site.regs 1).toNat % 2 ^ 32 + 2 ^ 32 - 1) % 2 ^ 32) (listing site.volume).length
    else if num = Traps.sysPipe then
      TwoFreeSlots (site.files.run.files.tables n) ∧ supply.allocPipe = true ∧ supply.allocRead = true ∧
        supply.allocWrite = true ∧ k < 8
    else False
  | .resume => match site.files.run.calls n with
    | some (.reading q count) => k < Descriptors.pipeExtent site.files.run q count
    | _ => False
  | .deliver => Caught site.signals ∧ k < 36 * 8

section Pipes
variable {table : FdTable}

theorem two_free_iff : TwoFreeSlots table ↔
    ∃ r w, findFreeFd table = some r ∧ findFreeFd (Function.update table r (some .dummy)) = some w := by
  rw [two_free_slots_iff]
  exact exists_congr fun r => exists_congr fun w => pipe_slots_iff.symm

theorem pipe_made_iff {s : Files} {n : Nat} {allocPipe allocRead allocWrite : Bool} :
    (fdPipe s n allocPipe allocRead allocWrite).1 ≠ none ↔
      TwoFreeSlots (s.tables n) ∧ allocPipe = true ∧ allocRead = true ∧ allocWrite = true := by
  rw [two_free_iff, fdPipe]
  cases free : findFreeFd (s.tables n) with
  | none => simp
  | some r =>
    dsimp only
    cases again : findFreeFd (Function.update (s.tables n) r (some .dummy)) with
    | none =>
      simp [again]
    | some w =>
      cases allocPipe <;> cases allocRead <;> cases allocWrite <;> simp [again]

end Pipes

section Delivery
open Traps (store64 pushFrame setReg reg frame frameSize signalHandle signalDeliver signalSend schedExit setTask
  setPhase kernVaOffset signalDefaultAction)
variable {s t u : Machine} {id a : Nat}

def byteAt (s : Machine) (id a : Nat) : BitVec 8 := if a < kernVaOffset then s.umem id a else s.kmem a

structure Spared (s t : Machine) (id a : Nat) : Prop where
  byte : byteAt t id a = byteAt s id a
  sp : (t.tasks id).sp = (s.tasks id).sp

def OffFrame (s : Machine) (id a : Nat) : Prop := a < frame s id ∨ frame s id + frameSize ≤ a

theorem spared_trans (first : Spared s t id a) (second : Spared t u id a) : Spared s u id a :=
  ⟨second.byte.trans first.byte, second.sp.trans first.sp⟩

theorem byte_at_congr (umem : t.umem id a = s.umem id a) (kmem : t.kmem a = s.kmem a) :
    byteAt t id a = byteAt s id a := by
  rw [byteAt, byteAt, umem, kmem]

theorem spared_memory (umem : t.umem = s.umem) (kmem : t.kmem = s.kmem)
    (sp : (t.tasks id).sp = (s.tasks id).sp) : Spared s t id a := by
  constructor
  · exact byte_at_congr (by rw [umem]) (by rw [kmem])
  · exact sp

theorem spared_store64 {b v : Nat} (outside : a < b ∨ b + 8 ≤ a) : Spared s (store64 s id b v) id a := by
  rw [store64]
  split
  · refine ⟨byte_at_congr ?_ rfl, rfl⟩
    have mine : Function.update s.umem id (ByteMemory.write64 (s.umem id) b v) id =
        ByteMemory.write64 (s.umem id) b v := Function.update_self _ _ _
    exact (congrFun mine a).trans (ByteMemory.write64_outside outside)
  · exact ⟨byte_at_congr rfl (ByteMemory.write64_outside outside), rfl⟩

theorem spared_set_reg {i v : Nat} (small : i < 34) (off : OffFrame s id a) : Spared s (setReg s id i v) id a := by
  rw [OffFrame, frameSize] at off
  exact ⟨byte_at_congr rfl (ByteMemory.write64_outside (by omega)), rfl⟩

theorem off_frame_spared (off : OffFrame s id a) (spared : Spared s t id a) : OffFrame t id a := by
  rw [OffFrame, frame, spared.sp]
  exact off

theorem spared_push_frame {sp i n : Nat} (outside : ∀ j, i ≤ j → j < i + n →
    a < (sp + 8 * j) % 2 ^ 64 ∨ (sp + 8 * j) % 2 ^ 64 + 8 ≤ a) : Spared s (pushFrame s id sp i n) id a := by
  induction n generalizing s i with
  | zero => exact ⟨rfl, rfl⟩
  | succ n ih =>
    rw [pushFrame]
    apply spared_trans (spared_store64 (outside i (Nat.le_refl i) (by omega)))
    apply ih
    intro j low high
    exact outside j (by omega) (by omega)

theorem spared_handle {sig handler : Nat} (off : OffFrame s id a) (outside : ∀ j, j < 36 →
    a < (signalSp (reg s id 31) + 8 * j) % 2 ^ 64 ∨ (signalSp (reg s id 31) + 8 * j) % 2 ^ 64 + 8 ≤ a) :
    Spared s (signalHandle s id sig handler) id a := by
  rw [signalHandle]
  generalize signalSp (reg s id 31) = sp at outside
  have pushed : Spared s (pushFrame s id sp 0 34) id a :=
    spared_push_frame fun j _ high => outside j (by omega)
  have words := spared_trans (spared_trans pushed (spared_store64 (v := sig) (outside 34 (by omega))))
    (spared_store64 (v := Traps.sigreturnTrampoline) (outside 35 (by omega)))
  have zero := spared_trans words (spared_set_reg (v := sig) (i := 0) (by omega) (off_frame_spared off words))
  have link := spared_trans zero
    (spared_set_reg (v := (sp + 35 * 8) % 2 ^ 64) (i := 30) (by omega) (off_frame_spared off zero))
  have stack := spared_trans link (spared_set_reg (v := sp) (i := 31) (by omega) (off_frame_spared off link))
  exact spared_trans stack (spared_set_reg (by omega) (off_frame_spared off stack))

theorem sched_exit_memory (s : Machine) (id : Nat) : (schedExit s id).umem = s.umem ∧
    (schedExit s id).kmem = s.kmem ∧ ((schedExit s id).tasks id).sp = (s.tasks id).sp := by
  have sp := (Traps.sched_exit_spec s id).1.sp id
  have sent : ∀ (t : Machine) (tid sig : Int), (signalSend t tid sig).2.umem = t.umem ∧
      (signalSend t tid sig).2.kmem = t.kmem := by
    intro t tid sig
    unfold signalSend
    split
    · exact ⟨rfl, rfl⟩
    · split
      · exact ⟨rfl, rfl⟩
      · exact ⟨rfl, rfl⟩
  refine ⟨?_, ?_, sp⟩
  · unfold schedExit
    split
    · rfl
    · exact (sent _ _ _).1
  · unfold schedExit
    split
    · rfl
    · exact (sent _ _ _).2

theorem signal_deliver_spares (off : OffFrame s id a)
    (outside : Caught (s.tasks id) → ∀ k, k < 36 * 8 → a ≠ (signalSp (reg s id 31) + k) % 2 ^ 64) :
    Spared s (signalDeliver s id) id a := by
  rw [signalDeliver]
  dsimp only
  by_cases none : lowestPending (s.tasks id).pending = 0
  · rw [if_pos none]
    exact ⟨rfl, rfl⟩
  · rw [if_neg none]
    generalize cleared : setTask s id { s.tasks id with
      pending := (s.tasks id).pending &&& ~~~(1#32 <<< lowestPending (s.tasks id).pending) } = t
    have same : Spared s t id a := by
      subst cleared
      exact spared_memory rfl rfl (by rw [Traps.set_task_self])
    have exits : Spared s (schedExit t id) id a := by
      obtain ⟨umem, kmem, sp⟩ := sched_exit_memory t id
      exact spared_trans same (spared_memory umem kmem sp)
    by_cases kill : lowestPending (s.tasks id).pending = sigkill
    · rw [if_pos kill]
      exact exits
    · rw [if_neg kill]
      by_cases ign : (s.tasks id).handlers (lowestPending (s.tasks id).pending) = sigIgn
      · rw [if_pos ign]
        exact same
      · rw [if_neg ign]
        by_cases dfl : (s.tasks id).handlers (lowestPending (s.tasks id).pending) = sigDfl
        · rw [if_pos dfl, signalDefaultAction]
          split
          · exact same
          · exact exits
        · rw [if_neg dfl]
          have apart := outside ⟨none, kill, ign, dfl⟩
          have stack : reg t id 31 = reg s id 31 := by
            subst cleared
            exact Traps.cleared_reg s id _ 31
          apply spared_trans same
          apply spared_handle (off_frame_spared off same)
          rw [stack]
          intro j small
          by_contra inside
          have aligned : signalSp (reg s id 31) % 16 = 0 := by
            rw [signalSp]
            omega
          generalize signalSp (reg s id 31) = sp at inside aligned apart
          have here := apart (8 * j + (a - (sp + 8 * j) % 2 ^ 64)) (by omega)
          omega

/-- Outside the register frame of the task, signal_deliver changes only bytes that count as written. -/
def DeliveredOnly (site : Site) (n : Nat) : Prop :=
  ∀ (s : Machine) (a : Nat), s.tasks n = site.signals → reg s n 31 = (site.regs 31).toNat → OffFrame s n a →
    byteAt (signalDeliver s n) n a ≠ byteAt s n a →
      ∃ k, Writes site n k .deliver ∧ a = (pointer site n .deliver + k) % 2 ^ 64

theorem delivered_only (site : Site) (n : Nat) : DeliveredOnly site n := by
  intro s a signals stack off changed
  by_contra missed
  have spared : Spared s (signalDeliver s n) n a := by
    apply signal_deliver_spares off
    intro caught k small here
    rw [signals] at caught
    rw [stack] at here
    exact missed ⟨k, ⟨caught, small⟩, here⟩
  exact changed spared.byte

end Delivery

section Containment
variable {site : Site} {n k : Nat}

theorem listdir_length (fs : Fs) (buflen : Nat) : (Fat16.sysListdir fs buflen).length =
    min ((buflen + 2 ^ 32 - 1) % 2 ^ 32) (listing fs).length := by
  rw [Fat16.sys_listdir_take, List.length_take]

theorem resume_stores_iff : (∃ w ∈ resumeStores site.files.run n, w.1 = k) ↔ Span site n k .resume := by
  rw [resumeStores, Span]
  cases site.files.run.calls n with
  | none => exact Descriptors.filled_iff Descriptors.filled_nil |>.trans (by simp)
  | some call =>
    cases call with
    | reading q count => exact Descriptors.filled_iff (Descriptors.pipe_stores_filled _ q count)
    | writing q rest count => exact Descriptors.filled_iff Descriptors.filled_nil |>.trans (by simp)

theorem writes_iff (site : Site) (n k : Nat) (work : Work) : Writes site n k work ↔ Span site n k work := by
  cases work with
  | resume => exact resume_stores_iff
  | deliver => exact Iff.rfl
  | serve supply =>
    rw [Writes, Span]
    split
    · exact Descriptors.read_stored_iff
    · split
      · rw [listdir_length]
      · split
        · rw [pipeCall, pipe_made_iff, and_assoc, and_assoc, and_assoc]
        · exact Iff.rfl

theorem kernel_not_writable {s : System} {va : Nat} (high : vaLimit ≤ va) : ¬ El0Writable s n va := by
  rintro ⟨pgd, e, _, found, _⟩
  rw [descriptor, if_neg (by omega)] at found
  cases found

end Containment

/-- What the kernel stores for a task stays in the memory of the task exactly when all bytes that its
    call selects are mapped writable for it. -/
theorem user_writes_contained_iff (site : Site) (n : Nat) : DeliveredOnly site n ∧
    ∀ work, Contained site n work ↔
      ∀ k, Span site n k work → El0Writable site.system n ((pointer site n work + k) % 2 ^ 64) := by
  refine ⟨delivered_only site n, ?_⟩
  intro work
  constructor
  · intro contained k inside
    exact contained k ((writes_iff site n k work).mpr inside)
  · intro mapped k written
    exact mapped k ((writes_iff site n k work).mp written)

def kernelPipe (num : Nat) : BitVec 64 :=
  if num = 8 then 12 else if num = 0 then 0xFFFFFF8040080000 else 0

theorem pipe_writes_kernel : ¬ ∀ (site : Site) (n : Nat) (work : Work), Ran 0x40001000 site.system →
    FdReached site.volume site.files → Alive site.system n → Descriptors.idle site.files.run n →
      Contained site n work := by
  intro contained
  have born : (LabelledRuns.runActions AddressSpaces.systemStep (AddressSpaces.freshSystem 0x40001000)
      [.createUser AddressSpaces.emptyImage]).any (fun s => decide (Alive s 1)) = true := by
    decide +kernel
  have tables : (LabelledRuns.runActions (LabelledRuns.allowed Descriptors.callable
      (Descriptors.fdStep Descriptors.smallVolume)) Descriptors.fdBoot [.other .create, .other .create]).any
        (fun s => decide (Descriptors.idle s.run 1 ∧ (fdPipe s.run.files 1 true true true).1 ≠ none)) = true := by
    decide +kernel
  obtain ⟨s, run, alive⟩ := (Option.any_eq_true _ _).mp born
  obtain ⟨files, calls, found⟩ := (Option.any_eq_true _ _).mp tables
  obtain ⟨idle, made⟩ := of_decide_eq_true found
  have reached : Ran 0x40001000 s := AddressSpaces.ran_of_actions (by decide) (by decide) run
  have opened : FdReached Descriptors.smallVolume files :=
    LabelledRuns.reaches_of_allowed (LabelledRuns.Reaches.start rfl) calls
  let site : Site := ⟨s, files, Descriptors.smallVolume, kernelPipe, Traps.noTask⟩
  let supply : Supply := ⟨[], none, true, true, true⟩
  have here := contained site 1 (.serve supply) reached opened (of_decide_eq_true alive) idle 0 ⟨made, by decide⟩
  have address : (pointer site 1 (.serve supply) + 0) % 2 ^ 64 = 0xFFFFFF8040080000 := rfl
  rw [address] at here
  exact kernel_not_writable (by decide) here

end Archarch.UserPointers
