import Archarch.Files.ClosedPipes
import Archarch.Files.CallFrames
import Archarch.Files.FileReads

/- What fd_write reports of a pipe, against what the call has put into the pipe over all of its
   rounds while other tasks read, write and close. -/
namespace Archarch.Descriptors
open LabelledRuns

/-- put is what the write that a task is in has put into its pipe so far, reports what the writes that
    have returned answered, with what they put, the last one first. -/
structure WriteRun where
  fd : FdRun
  put : Nat → Nat
  reports : List (Int × Nat)

def writeBoot : WriteRun := ⟨fdBoot, fun _ => 0, []⟩

def writesTo (s : FilesRun) : FdCall → Option (Nat × Nat)
  | .write task fd _ => (s.files.slot task fd).bind fun ptr => (s.files.deref ptr).bind fun f =>
    if f.type = .pipe then f.pipe.map fun q => (task, q) else none
  | .resume task _ =>
    match s.calls task with
    | some (.writing q _ _) => some (task, q)
    | _ => none
  | _ => none

/-- The answer as an int; total is a word. -/
def reported (result : Int) : Int := intOf (wordOf result)

def writeRunStep (fs : Fat16.Fs) (s : WriteRun) (call : FdCall) : Option WriteRun :=
  (fdCall fs s.fd call).map fun r =>
    match writesTo s.fd.run call with
    | none => { s with fd := r.2 }
    | some (task, q) =>
      let put := s.put task + ((r.2.run.written q).length - (s.fd.run.written q).length)
      match r.1 with
      | none => ⟨r.2, Function.update s.put task put, s.reports⟩
      | some result => ⟨r.2, Function.update s.put task 0, (reported result, put) :: s.reports⟩

def writeMay (s : WriteRun) (call : FdCall) : Prop := callable s.fd call

instance (s : WriteRun) (call : FdCall) : Decidable (writeMay s call) :=
  inferInstanceAs (Decidable (callable s.fd call))

def WriteReached (fs : Fat16.Fs) : WriteRun → Prop :=
  Reaches (· = writeBoot) (Guarded writeMay (Taken (writeRunStep fs)))

/-- The answer is the number of bytes, or -1 and there are none. -/
def Honest (report : Int × Nat) : Prop := report.1 = report.2 ∨ report.1 = -1 ∧ report.2 = 0

instance (report : Int × Nat) : Decidable (Honest report) := inferInstanceAs (Decidable (_ ∨ _ ∧ _))

/-- A write that goes on has its length as an int if it can finish now; if it cannot and nobody can
    read any more, it has put nothing yet and finds no room. -/
def reportsRight (s : WriteRun) : FdCall → Prop
  | .resume task _ =>
    match s.fd.run.calls task with
    | some (.writing q rest count) => ∀ p, s.fd.run.files.pipes q = some p →
      if p.count + rest.length ≤ pipeBufSize then count < 2 ^ 31
      else p.readOpen = false → s.put task = 0 ∧ p.count = pipeBufSize
    | _ => True
  | _ => True

section Rounds
variable {s : FilesRun} {task q count : Nat} {rest : List Byte} {p : Pipe} {r : Option Int × FilesRun}

theorem put_bytes_left (rest : List Byte) (bounded : p.count ≤ pipeBufSize) :
    (putBytes rest p).1.length = rest.length - (pipeBufSize - p.count) := by
  induction rest generalizing p with
  | nil => simp [putBytes]
  | cons b rest ih =>
    rw [putBytes]
    by_cases room : p.count < pipeBufSize
    · have more : (p.push b).count = p.count + 1 := rfl
      have left := ih (p := p.push b) (by rw [more]; exact room)
      rw [if_pos room, left, more, List.length_cons]
      omega
    · rw [if_neg room]
      have full : pipeBufSize - p.count = 0 := by omega
      rw [full, Nat.sub_zero]

theorem write_round_done (nothing : (putBytes rest p).1 = []) : (writeRound p rest).1 = .done := by
  unfold writeRound
  split
  · rfl
  · rename_i put
    rw [put] at nothing
    cases nothing

theorem write_round_full (some_left : (putBytes rest p).1 ≠ []) :
    (writeRound p rest).1 = if p.readOpen = false then .broken else .yields (putBytes rest p).1 := by
  have opened := (put_open rest p).1
  unfold writeRound
  split
  · rename_i put
    rw [put] at some_left
    exact absurd rfl some_left
  · rename_i put
    rw [put] at opened ⊢
    rw [← opened]

structure PutRound (s : FilesRun) (task q : Nat) (rest : List Byte) (count : Nat) (p : Pipe)
    (r : Option Int × FilesRun) : Prop where
  others : ∀ u, u ≠ task → r.2.calls u = s.calls u
  puts : (r.2.written q).length = (s.written q).length + min rest.length (pipeBufSize - p.count)
  fits : p.count + rest.length ≤ pipeBufSize → r.1 = some (count : Int) ∧ r.2.calls task = none
  broken : pipeBufSize < p.count + rest.length → p.readOpen = false → r.1 = some (-1) ∧ r.2.calls task = none
  waits : pipeBufSize < p.count + rest.length → p.readOpen = true → r.1 = none ∧
    ∃ left, r.2.calls task = some (.writing q left count) ∧
      left.length = rest.length - (pipeBufSize - p.count)

theorem write_step_puts (step : writeStep s task q rest count = some r) (live : s.files.pipes q = some p)
    (bounded : p.count ≤ pipeBufSize) : PutRound s task q rest count p r := by
  have left := put_bytes_left rest bounded
  have stores : (stored p rest).length = min rest.length (pipeBufSize - p.count) := by
    rw [stored, List.length_take, left]
    omega
  rw [writeStep, live, Option.map_some] at step
  have same := Option.some.inj step
  have puts : (r.2.written q).length = (s.written q).length + min rest.length (pipeBufSize - p.count) := by
    rw [← stores, ← List.length_append, ← same]
    dsimp only
    split <;> simp only [Function.update_self]
  have others : ∀ u, u ≠ task → r.2.calls u = s.calls u := by
    intro u other
    rw [← same]
    dsimp only
    split <;> exact Function.update_of_ne other _ _
  have some_left : pipeBufSize < p.count + rest.length → (putBytes rest p).1 ≠ [] := by
    intro full nothing
    rw [nothing, List.length_nil] at left
    omega
  refine ⟨others, puts, fun fits => ?_, fun full closed => ?_, fun full open_ => ?_⟩
  · have nothing : (putBytes rest p).1 = [] := List.eq_nil_of_length_eq_zero (by omega)
    rw [write_round_done nothing] at same
    rw [← same]
    exact ⟨rfl, Function.update_self _ _ _⟩
  · rw [write_round_full (some_left full), if_pos closed] at same
    rw [← same]
    exact ⟨rfl, Function.update_self _ _ _⟩
  · rw [write_round_full (some_left full), if_neg (by simp [open_])] at same
    rw [← same]
    exact ⟨rfl, _, Function.update_self _ _ _, left⟩

end Rounds

section Calls
variable {fs : Fat16.Fs} {s : FdRun} {call : FdCall} {r : Option Int × FdRun} {task q : Nat}

theorem moves_quiet {reads writes : Nat → Prop} {before after : FilesRun}
    (moves : Moves task reads writes before after) (quiet : ∀ q, ¬ writes q)
    (free : ∀ q rest count, before.calls task ≠ some (.writing q rest count)) (u k : Nat) (rest : List Byte)
    (count : Nat) : after.calls u = some (.writing k rest count) ↔ before.calls u = some (.writing k rest count) := by
  by_cases here : u = task
  · subst here
    constructor
    · intro waiting
      exact absurd (moves.waits _ waiting) (quiet k)
    · intro waiting
      exact absurd waiting (free k rest count)
  · rw [moves.calls u here]

theorem end_at_writes {fd : Int} {src : List Byte} {s : FilesRun} (at_end : EndAt s.files task fd q) :
    writesTo s (.write task fd src) = some (task, q) := by
  obtain ⟨m, flags, here, shape⟩ := at_end
  obtain ⟨f, found, same⟩ := Option.map_eq_some_iff.mp shape
  have live : s.files.deref (.heap m) = some f := found
  have type : f.type = .pipe := congrArg Shape.type same
  have pipe : f.pipe = some q := congrArg Shape.pipe same
  simp only [writesTo, here, Option.bind_some, live, type, ↓reduceIte, pipe, Option.map_some]

theorem quiet_call (inv : RunInv s.run) (may : callable s call) (step : fdCall fs s call = some r)
    (quiet : writesTo s.run call = none) (u k : Nat) (rest : List Byte) (count : Nat) :
    r.2.run.calls u = some (.writing k rest count) ↔ s.run.calls u = some (.writing k rest count) := by
  cases call with
  | other call =>
    obtain ⟨r', _, same, _, calls, _⟩ := table_call_frame inv may step
    rw [same, calls]
  | read task fd buf args space =>
    have moves := transfer_moves inv may rfl (by simp) step
    have free : s.run.calls task = none := may.1.2
    exact moves_quiet moves (fun _ => not_false) (by simp [free]) u k rest count
  | write task fd src =>
    have moves := transfer_moves inv may rfl (by simp) step
    have free : s.run.calls task = none := may.2
    apply moves_quiet moves _ (by simp [free]) u k rest count
    intro q at_end
    rw [end_at_writes at_end] at quiet
    cases quiet
  | resume task space =>
    have moves := transfer_moves inv may rfl (by simp) step
    have free : ∀ q rest count, s.run.calls task ≠ some (.writing q rest count) := by
      intro q rest count waiting
      simp only [writesTo, waiting, reduceCtorEq] at quiet
    apply moves_quiet moves _ free u k rest count
    rintro q ⟨rest, count, waiting⟩
    exact free q rest count waiting

theorem writing_call (may : callable s call) (step : fdCall fs s call = some r)
    (writes : writesTo s.run call = some (task, q)) :
    (s.run.calls task = none ∧ r.1 = some (-1) ∧ r.2.run = s.run) ∨
      ∃ rest count p, writeStep s.run task q rest count = some (r.1, r.2.run) ∧ s.run.files.pipes q = some p ∧
        (s.run.calls task = some (.writing q rest count) ∨
          s.run.calls task = none ∧ rest.length = count ∧ p.readOpen = true) := by
  cases call with
  | other call => cases writes
  | read task fd buf args space => cases writes
  | write task' fd src =>
    obtain ⟨ptr, here, writes⟩ := Option.bind_eq_some_iff.mp writes
    obtain ⟨f, live, writes⟩ := Option.bind_eq_some_iff.mp writes
    obtain ⟨r', write, rfl⟩ := Option.map_eq_some_iff.mp step
    split at writes
    · rename_i type
      obtain ⟨q', pipe, same⟩ := Option.map_eq_some_iff.mp writes
      cases same
      have free : s.run.calls task = none := may.2
      simp only [fdWrite, here, live, Option.bind_some, type, fdWritePipe, Option.bind_eq_bind, pipe] at write
      obtain ⟨p, open_, round⟩ := Option.bind_eq_some_iff.mp write
      split at round
      · cases round
        exact Or.inl ⟨free, rfl, rfl⟩
      · rename_i reading
        exact Or.inr ⟨src, src.length, p, round, open_, Or.inr ⟨free, rfl, by simpa using reading⟩⟩
    · cases writes
  | resume task' space =>
    obtain ⟨r', resumed, later⟩ := Option.bind_eq_some_iff.mp step
    obtain ⟨_, _, same⟩ := Option.bind_eq_some_iff.mp later
    cases same
    rcases resume_cases resumed with ⟨k, count, waiting, round⟩ | ⟨k, rest, count, waiting, round⟩
    · simp only [writesTo, waiting, reduceCtorEq] at writes
    · simp only [writesTo, waiting, Option.some.injEq, Prod.mk.injEq] at writes
      obtain ⟨rfl, rfl⟩ := writes
      obtain ⟨p, open_, _⟩ := Option.map_eq_some_iff.mp round
      exact Or.inr ⟨rest, count, p, round, open_, Or.inl waiting⟩

end Calls

section Reports
variable {fs : Fat16.Fs} {s t : WriteRun} {call : FdCall} {task q : Nat}

theorem int_of_lt (word : Nat) : intOf word < 2 ^ 31 := BitVec.toInt_lt

theorem reported_iff (n : Nat) : reported (n : Int) = n ↔ n < 2 ^ 31 := by
  constructor
  · intro same
    have small := int_of_lt (wordOf n)
    rw [reported] at same
    omega
  · intro small
    rw [reported, word_of_nat (by omega), int_of_nat small]

theorem honest_count (n : Nat) : Honest (reported (n : Int), n) ↔ n < 2 ^ 31 := by
  rw [← reported_iff]
  constructor
  · rintro (same | ⟨_, nothing⟩)
    · exact same
    · have zero : n = 0 := nothing
      subst zero
      rfl
  · exact Or.inl

theorem honest_failure (n : Nat) : Honest (reported (-1), n) ↔ n = 0 := by
  have minus : reported (-1) = -1 := by decide
  rw [minus]
  constructor
  · rintro (same | ⟨_, nothing⟩)
    · have count : (-1 : Int) = n := same
      omega
    · exact nothing
  · intro nothing
    exact Or.inr ⟨rfl, nothing⟩

structure WriteInv (s : WriteRun) : Prop where
  run : RunInv s.fd.run
  going : ∀ t q rest count, s.fd.run.calls t = some (.writing q rest count) → s.put t + rest.length = count
  rests : ∀ t, (∀ q rest count, s.fd.run.calls t ≠ some (.writing q rest count)) → s.put t = 0

theorem write_inv_boot : WriteInv writeBoot := by
  refine ⟨run_inv_boot, fun t q rest count waiting => ?_, fun t free => rfl⟩
  cases waiting

theorem writes_to_resume {space : Space} {u : Nat} (writes : writesTo s.fd.run (.resume u space) = some (task, q)) :
    u = task ∧ ∃ rest count, s.fd.run.calls task = some (.writing q rest count) := by
  simp only [writesTo] at writes
  split at writes
  · rename_i k rest count waiting
    cases writes
    exact ⟨rfl, rest, count, waiting⟩
  · cases writes

theorem reports_right_first (free : s.fd.run.calls task = none) (writes : writesTo s.fd.run call = some (task, q)) :
    reportsRight s call := by
  cases call with
  | resume u space =>
    obtain ⟨_, rest, count, waiting⟩ := writes_to_resume writes
    rw [free] at waiting
    cases waiting
  | _ => trivial

theorem reports_right_round {rest : List Byte} {count : Nat} {p : Pipe}
    (waiting : s.fd.run.calls task = some (.writing q rest count)) (writes : writesTo s.fd.run call = some (task, q))
    (may : callable s.fd call) (live : s.fd.run.files.pipes q = some p) :
    reportsRight s call ↔ if p.count + rest.length ≤ pipeBufSize then count < 2 ^ 31
      else p.readOpen = false → s.put task = 0 ∧ p.count = pipeBufSize := by
  cases call with
  | other call => cases writes
  | read u fd buf args space => cases writes
  | write u fd src =>
    obtain ⟨ptr, _, writes⟩ := Option.bind_eq_some_iff.mp writes
    obtain ⟨f, _, writes⟩ := Option.bind_eq_some_iff.mp writes
    split at writes
    · obtain ⟨k, _, same⟩ := Option.map_eq_some_iff.mp writes
      cases same
      have free : s.fd.run.calls task = none := may.2
      rw [free] at waiting
      cases waiting
    · cases writes
  | resume u space =>
    obtain ⟨rfl, _⟩ := writes_to_resume writes
    simp only [reportsRight, waiting, live, Option.some.injEq, forall_eq']

theorem write_inv_round {put : Nat} {u : FdRun} {reports : List (Int × Nat)} (inv : WriteInv s)
    (after : RunInv u.run) (others : ∀ v, v ≠ task → u.run.calls v = s.fd.run.calls v)
    (going : ∀ q rest count, u.run.calls task = some (.writing q rest count) → put + rest.length = count)
    (rests : (∀ q rest count, u.run.calls task ≠ some (.writing q rest count)) → put = 0) :
    WriteInv ⟨u, Function.update s.put task put, reports⟩ := by
  refine ⟨after, fun v q rest count waiting => ?_, fun v free => ?_⟩
  · dsimp only at waiting ⊢
    by_cases here : v = task
    · subst here
      rw [Function.update_self]
      exact going q rest count waiting
    · rw [Function.update_of_ne here]
      apply inv.going v q rest count
      rw [← others v here]
      exact waiting
  · dsimp only at free ⊢
    by_cases here : v = task
    · subst here
      rw [Function.update_self]
      exact rests free
    · rw [Function.update_of_ne here]
      apply inv.rests v
      rw [← others v here]
      exact free

theorem write_inv_ended {u : FdRun} {reports : List (Int × Nat)} (inv : WriteInv s) (after : RunInv u.run)
    (others : ∀ v, v ≠ task → u.run.calls v = s.fd.run.calls v) (free : u.run.calls task = none) :
    WriteInv ⟨u, Function.update s.put task 0, reports⟩ := by
  apply write_inv_round inv after others
  · intro k rest count waiting
    rw [free] at waiting
    cases waiting
  · exact fun _ => rfl

theorem free_put_nothing (inv : WriteInv s) (free : s.fd.run.calls task = none) : s.put task = 0 :=
  inv.rests task (by simp [free])

structure Accounts (s : WriteRun) (call : FdCall) (t : WriteRun) : Prop where
  inv : WriteInv t
  reports : t.reports = s.reports ∨
    ∃ report, t.reports = report :: s.reports ∧ (Honest report ↔ reportsRight s call)

theorem quiet_accounts {r : Option Int × FdRun} (inv : WriteInv s) (may : callable s.fd call)
    (step : fdCall fs s.fd call = some r) (quiet : writesTo s.fd.run call = none) :
    Accounts s call { s with fd := r.2 } := by
  have same := quiet_call inv.run may step quiet
  refine ⟨⟨fd_call_inv inv.run may step, fun v q rest count waiting => ?_, fun v free => ?_⟩, Or.inl rfl⟩
  · exact inv.going v q rest count ((same v q rest count).mp waiting)
  · apply inv.rests v
    intro q rest count waiting
    exact free q rest count ((same v q rest count).mpr waiting)

theorem failed_accounts {r : Option Int × FdRun} (inv : WriteInv s) (after : RunInv r.2.run)
    (writes : writesTo s.fd.run call = some (task, q)) (free : s.fd.run.calls task = none)
    (same : r.2.run = s.fd.run) : Accounts s call
      ⟨r.2, Function.update s.put task 0, (reported (-1), s.put task) :: s.reports⟩ := by
  constructor
  · apply write_inv_ended inv after
    · intro v _
      rw [same]
    · rw [same, free]
  · rw [free_put_nothing inv free]
    exact Or.inr ⟨_, rfl, iff_of_true ((honest_failure 0).mpr rfl) (reports_right_first free writes)⟩

theorem writing_accounts {r : Option Int × FdRun} (inv : WriteInv s) (may : callable s.fd call)
    (step : fdCall fs s.fd call = some r) (writes : writesTo s.fd.run call = some (task, q)) :
    Accounts s call
      (let put := s.put task + ((r.2.run.written q).length - (s.fd.run.written q).length)
      match r.1 with
      | none => ⟨r.2, Function.update s.put task put, s.reports⟩
      | some result => ⟨r.2, Function.update s.put task 0, (reported result, put) :: s.reports⟩) := by
  have after := fd_call_inv inv.run may step
  rcases writing_call may step writes with ⟨free, failed, same⟩ | ⟨rest, count, p, round, live, calls⟩
  · simp only [failed, same, Nat.sub_self, Nat.add_zero]
    exact failed_accounts inv after writes free same
  · have bounded := (inv.run.fifo q p live).bounded
    have puts := write_step_puts round live bounded
    have total : s.put task + rest.length = count := by
      rcases calls with waiting | ⟨free, all, _⟩
      · exact inv.going task q rest count waiting
      · have nothing := free_put_nothing inv free
        omega
    have grown : (r.2.run.written q).length - (s.fd.run.written q).length =
        min rest.length (pipeBufSize - p.count) := by
      have length := puts.puts
      dsimp only at length
      omega
    simp only [grown]
    by_cases fits : p.count + rest.length ≤ pipeBufSize
    · obtain ⟨answer, free⟩ := puts.fits fits
      have answered : r.1 = some (count : Int) := answer
      have whole : s.put task + min rest.length (pipeBufSize - p.count) = count := by omega
      simp only [answered, whole]
      refine ⟨write_inv_ended inv after puts.others free, Or.inr ⟨_, rfl, ?_⟩⟩
      rw [honest_count]
      rcases calls with waiting | ⟨started, all, _⟩
      · rw [reports_right_round waiting writes may live, if_pos fits]
      · have small : pipeBufSize = 4096 := rfl
        exact iff_of_true (by omega) (reports_right_first started writes)
    · by_cases reading : p.readOpen = true
      · obtain ⟨answer, left, waiting, less⟩ := puts.waits (by omega) reading
        have answered : r.1 = none := answer
        simp only [answered]
        refine ⟨?_, Or.inl rfl⟩
        apply write_inv_round inv after puts.others
        · intro k rest' count' waiting'
          have both := waiting.symm.trans waiting'
          cases both
          omega
        · intro free
          exact absurd waiting (free q left count)
      · have closed : p.readOpen = false := by simpa using reading
        obtain ⟨answer, free⟩ := puts.broken (by omega) closed
        have answered : r.1 = some (-1) := answer
        simp only [answered]
        refine ⟨write_inv_ended inv after puts.others free, Or.inr ⟨_, rfl, ?_⟩⟩
        rw [honest_failure]
        rcases calls with waiting | ⟨_, _, open_⟩
        · rw [reports_right_round waiting writes may live, if_neg fits]
          constructor
          · intro nothing _
            omega
          · intro right
            have both := right closed
            omega
        · exact absurd open_ reading

theorem write_run_accounts (inv : WriteInv s) (may : callable s.fd call)
    (step : writeRunStep fs s call = some t) : Accounts s call t := by
  obtain ⟨r, taken, same⟩ := Option.map_eq_some_iff.mp step
  rw [← same]
  split
  · rename_i quiet
    exact quiet_accounts inv may taken quiet
  · rename_i task q writes
    exact writing_accounts inv may taken writes

theorem write_reached_inv (run : WriteReached fs s) : WriteInv s := by
  refine reaches_invariant WriteInv ?_ ?_ run
  · rintro s rfl
    exact write_inv_boot
  · intro s call t inv step
    exact (write_run_accounts inv step.1 step.2).inv

end Reports

/-- In every state of every run, an fd_write on a pipe that returns answers what it has put into the
    pipe exactly under the condition on its last step; a run whose steps all meet it has honest
    reports only. -/
theorem writes_report_what_they_put (fs : Fat16.Fs) :
    (∀ s, Reaches (· = writeBoot)
        (Guarded (fun s call => writeMay s call ∧ reportsRight s call) (Taken (writeRunStep fs))) s →
      ∀ report ∈ s.reports, Honest report) ∧
    ∀ s call t report, WriteReached fs s → writeMay s call → writeRunStep fs s call = some t →
      t.reports = report :: s.reports → (Honest report ↔ reportsRight s call) := by
  constructor
  · intro s run
    have both : WriteInv s ∧ ∀ report ∈ s.reports, Honest report := by
      refine reaches_invariant (fun s => WriteInv s ∧ ∀ report ∈ s.reports, Honest report) ?_ ?_ run
      · rintro s rfl
        exact ⟨write_inv_boot, fun report none_ => by cases none_⟩
      · rintro s call t ⟨inv, honest⟩ ⟨⟨may, right⟩, step⟩
        have accounts := write_run_accounts inv may step
        refine ⟨accounts.inv, ?_⟩
        rcases accounts.reports with same | ⟨report, more, iff⟩
        · rw [same]
          exact honest
        · rw [more, List.forall_mem_cons]
          exact ⟨iff.mpr right, honest⟩
    exact both.2
  · intro s call t report run may step reported
    have accounts := write_run_accounts (write_reached_inv run) may step
    rcases accounts.reports with same | ⟨other, more, iff⟩
    · rw [reported] at same
      exact absurd same (List.cons_ne_self report s.reports)
    · rw [reported] at more
      cases more
      exact iff

/-- A write of two bytes into an empty pipe. -/
theorem writes_report_two_bytes :
    (∀ report ∈ writeBoot.reports, Honest report) ∧
      ∃ s, WriteReached noVolume s ∧ (Honest (2, 2) ↔ reportsRight s (.write 0 4 [7, 8])) := by
  have look : (runActions (allowed writeMay (writeRunStep noVolume)) writeBoot
      [.other .create, .other (.pipe 0 true true true)]).any (fun s =>
        decide (writeMay s (.write 0 4 [7, 8]) ∧
          (writeRunStep noVolume s (.write 0 4 [7, 8])).any (fun t =>
            decide (t.reports = [(2, 2)] ∧ s.reports = [])) = true)) = true := by
    decide +kernel
  obtain ⟨s, run, found⟩ := (Option.any_eq_true _ _).mp look
  obtain ⟨may, writes⟩ := of_decide_eq_true found
  obtain ⟨t, step, both⟩ := (Option.any_eq_true _ _).mp writes
  obtain ⟨more, before⟩ := of_decide_eq_true both
  have reached : WriteReached noVolume s := reaches_of_allowed (Reaches.start rfl) run
  exact ⟨(writes_report_what_they_put noVolume).1 writeBoot (Reaches.start rfl), s, reached,
    (writes_report_what_they_put noVolume).2 s _ t (2, 2) reached may step (by rw [more, before])⟩

/-- 4097 bytes for a pipe of 4096. The last reader closes while the writer waits with its last byte. -/
theorem failed_write_put_bytes :
    ∃ s, WriteReached noVolume s ∧ s.reports = [(-1, 4096)] ∧ ¬ ∀ report ∈ s.reports, Honest report := by
  have look : (runActions (allowed writeMay (writeRunStep noVolume)) writeBoot
      [.other .create, .other (.pipe 0 true true true), .other (.fork 0), .other (.close 1 3),
        .other (.close 0 4), .write 1 4 (List.replicate 4097 7), .other (.close 0 3),
        .resume 1 ⟨fun _ => 0, fun _ => false, by simp⟩]).any
      (fun s => decide (s.reports = [(-1, 4096)])) = true := by
    decide +kernel
  obtain ⟨s, run, found⟩ := (Option.any_eq_true _ _).mp look
  have reports := of_decide_eq_true found
  refine ⟨s, reaches_of_allowed (Reaches.start rfl) run, reports, ?_⟩
  intro honest
  have report := honest (-1, 4096) (by simp [reports])
  exact absurd report (by decide)

end Archarch.Descriptors
