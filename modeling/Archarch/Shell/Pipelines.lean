import Archarch.Shell.PipelineWaits

/- execute_line from its call on, as a whole: the children that it makes, what their descriptors
   refer to, what goes through the pipes of the line, and who holds the ends of these. -/
namespace Archarch.Shell
open Descriptors LabelledRuns HeldReferences

def ShellPc.settled : ShellPc → Bool
  | .closeLast | .waits _ | .returned | .gone => true
  | _ => false

/-- The loop over the segments has ended. -/
def ShellPc.looped : ShellPc → Bool
  | .waits _ | .returned => true
  | _ => false

/-- The steps that the shell has left in execute_line, at most: six for each round. -/
def work (n : Nat) (l : Locals) : Nat :=
  match l.pc with
  | .pipe => (n - (l.i + 1)) * 6 + n + 7
  | .fork => (n - (l.i + 1)) * 6 + n + 6
  | .closes rest => (n - (l.i + 1)) * 6 + n + 3 + rest.length
  | .closeLast => n + 2
  | .waits rest => rest.length + 1
  | _ => 0

def afterWiring (segment : Text) : List FdOp → KidPc
  | [] => .command (startOf (parseCommand segment))
  | _ :: rest => .wiring rest

structure Connected (job : Job) (s : JobState) (i : Nat) (kid : Kid) : Prop where
  first : i = 0 → s.run.run.files.tables kid.task 0 = some .console
  input : ∀ j, i = j + 1 → ∃ e, s.ends j = some e ∧ s.run.run.files.tables kid.task 0 = some (.heap e.read) ∧
    s.run.run.files.shape e.read = some (endShape e.pipe oRdonly)
  last : ¬ i + 1 < job.segments.length → s.run.run.files.tables kid.task 1 = some .console
  output : i + 1 < job.segments.length → ∃ e, s.ends i = some e ∧
    s.run.run.files.tables kid.task 1 = some (.heap e.write) ∧
    s.run.run.files.shape e.write = some (endShape e.pipe oWronly)
  only : ∀ fd j e, s.ends j = some e →
    (s.run.run.files.tables kid.task fd = some (.heap e.read) → fd = 0 ∧ i = j + 1) ∧
      (s.run.run.files.tables kid.task fd = some (.heap e.write) → fd = 1 ∧ i = j)

/-- What execute_line makes of its line. -/
structure Pipeline (job : Job) (s : JobState) : Prop where
  cut : bar ∈ job.line → job.segments = ((job.line.splitOn bar).take 8).map trimEnd
  named : ∀ i kid, s.kids i = some kid → job.segments[i]? = some kid.segment
  all : s.shell.pc.looped = true → none ∉ s.shell.childPids → ∀ i, i < job.segments.length → (s.kids i).isSome
  direct : ∀ stage leave, s.shell.pc = .direct stage leave → (∀ j, s.ends j = none) ∧
    s.run.run.files.tables job.shell 0 = some .console ∧ s.run.run.files.tables job.shell 1 = some .console
  connected : ∀ i kid stage, s.kids i = some kid → kid.pc = .command stage → Connected job s i kid
  bytes : ∀ j e, s.ends j = some e → s.run.run.written e.pipe = s.sent j ∧ s.run.run.returned e.pipe = s.got (j + 1)
  before : ∀ j, s.got (j + 1) <+: s.sent j
  held : ∀ j e p, s.ends j = some e → s.run.run.files.pipes e.pipe = some p → s.got (j + 1) ++ p.contents = s.sent j
  drained : ReadAll s
  writers : ∀ j e u fd, s.ends j = some e → s.run.run.files.tables u fd = some (.heap e.write) →
    (u = job.shell ∧ s.shell.pc.settled = false) ∨ KidIs s j u
  readers : ∀ j e u fd, s.ends j = some e → s.run.run.files.tables u fd = some (.heap e.read) →
    (u = job.shell ∧ s.shell.pc.settled = false) ∨ KidIs s (j + 1) u ∨
      ∃ kid rest, s.kids j = some kid ∧ kid.task = u ∧ kid.pc = .wiring rest
  ended : ∀ j e kid p, s.shell.pc.settled = true → s.ends j = some e → s.kids j = some kid → kid.pc = .exited →
    s.run.run.files.pipes e.pipe = some p → p.writeOpen = false
  progress : s.shell.pc.inChain = true → ∀ a b c forks, ∃ t, jobStep job s (.shell a b c forks) = some t ∧
    work job.segments.length t.shell < work job.segments.length s.shell
  starts : ∀ i kid rest, s.kids i = some kid → kid.pc = .wiring rest → ∃ t, jobStep job s (.kid i .go) = some t ∧
    t.kids i = some { kid with pc := afterWiring kid.segment rest }

section Reaching
variable {job : Job} {old : FdTable} {s t start : JobState} {event : Event}

theorem command_step_run {fs : Fat16.Fs} {f run : FdRun} {task : Nat} {stage next : Stage} {input : Input}
    (step : commandStep fs f task stage input = some (run, next)) :
    run = f ∨ ∃ call r, perform fs f call = some r ∧ run = r.2 := by
  unfold commandStep at step
  split at step
  · split at step
    · cases step
      exact Or.inl rfl
    · cases step
  · obtain ⟨call, _, rest⟩ := Option.bind_eq_some_iff.mp step
    obtain ⟨r, done, same⟩ := Option.map_eq_some_iff.mp rest
    cases same
    exact Or.inr ⟨call, r, done, rfl⟩

theorem job_step_run (step : jobStep job s event = some t) :
    t.run = s.run ∨ ∃ call r, perform job.fs s.run call = some r ∧ t.run = r.2 := by
  have of_map : ∀ {call : FdCall} {f : Option Int × FdRun → JobState}, (∀ r, (f r).run = r.2) →
      (perform job.fs s.run call).map f = some t → t.run = s.run ∨
        ∃ call r, perform job.fs s.run call = some r ∧ t.run = r.2 := by
    intro call f same taken
    obtain ⟨r, done, rfl⟩ := Option.map_eq_some_iff.mp taken
    exact Or.inr ⟨call, r, done, same r⟩
  cases event with
  | shell a b c forks =>
    simp only [jobStep, shellStep] at step
    split at step
    · unfold pipeStep at step
      split at step
      · apply of_map _ step
        intro r
        cases (fdPipe s.run.run.files job.shell a b c).1 <;> rfl
      · cases step
        exact Or.inl rfl
    · unfold forkStep at step
      dsimp only at step
      split at step
      · exact of_map (fun _ => rfl) step
      · cases step
        exact Or.inl rfl
    · exact of_map (fun _ => rfl) step
    · cases step
      exact Or.inl rfl
    · split at step
      · cases step
        exact Or.inl rfl
      · exact of_map (fun _ => rfl) step
    · cases step
      exact Or.inl rfl
    · cases step
      exact Or.inl rfl
    · cases step
  | direct input =>
    simp only [jobStep, directStep] at step
    split at step
    · cases step
      exact Or.inl rfl
    · exact of_map (fun _ => rfl) step
    · obtain ⟨r, done, rfl⟩ := Option.map_eq_some_iff.mp step
      exact command_step_run done
    · cases step
  | kid i input =>
    obtain ⟨kid, _, taken⟩ := Option.bind_eq_some_iff.mp step
    unfold kidStep at taken
    split at taken
    · exact of_map (fun _ => rfl) taken
    · cases taken
      exact Or.inl rfl
    · exact of_map (fun _ => rfl) taken
    · obtain ⟨r, done, rfl⟩ := Option.map_eq_some_iff.mp taken
      exact command_step_run done
    · cases taken
  | other call =>
    simp only [jobStep] at step
    split at step
    · exact of_map (fun _ => rfl) step
    · cases step
  | killShell => exact of_map (fun _ => rfl) step
  | killKid i =>
    obtain ⟨kid, _, taken⟩ := Option.bind_eq_some_iff.mp step
    exact of_map (fun _ => rfl) taken

structure Standing (job : Job) (old : FdTable) (s : JobState) : Prop where
  wired : Wired job old s
  pending : Pending job s
  ordered : Ordered s.run.run
  drained : ReadAll s
  whole : s.shell.pc.looped = true → s.shell.childPids.length = job.segments.length
  single : ∀ stage leave, s.shell.pc = .direct stage leave → job.segments = []

theorem whole_step (standing : Standing job old s) (step : jobStep job s event = some t) :
    (t.shell.pc.looped = true → t.shell.childPids.length = job.segments.length) ∧
      ∀ stage leave, t.shell.pc = .direct stage leave → job.segments = [] := by
  have fits := standing.wired.placed.shell
  have unmoved : t.shell = s.shell ∨ t.shell.pc = .gone →
      (t.shell.pc.looped = true → t.shell.childPids.length = job.segments.length) ∧
        ∀ stage leave, t.shell.pc = .direct stage leave → job.segments = [] := by
    rintro (same | gone)
    · rw [same]
      exact ⟨standing.whole, standing.single⟩
    · rw [gone]
      exact ⟨fun looped => Bool.noConfusion looped, fun _ _ direct => ShellPc.noConfusion direct⟩
  cases event with
  | shell a b c forks =>
    simp only [jobStep, shellStep] at step
    split at step
    · unfold pipeStep at step
      split at step
      · obtain ⟨r, _, same⟩ := Option.map_eq_some_iff.mp step
        split at same <;> cases same <;>
          exact ⟨fun looped => Bool.noConfusion looped, fun _ _ direct => ShellPc.noConfusion direct⟩
      · cases step
        exact ⟨fun looped => Bool.noConfusion looped, fun _ _ direct => ShellPc.noConfusion direct⟩
    · unfold forkStep at step
      dsimp only at step
      split at step
      · obtain ⟨r, _, rfl⟩ := Option.map_eq_some_iff.mp step
        exact ⟨fun looped => Bool.noConfusion looped, fun _ _ direct => ShellPc.noConfusion direct⟩
      · cases step
        exact ⟨fun looped => Bool.noConfusion looped, fun _ _ direct => ShellPc.noConfusion direct⟩
    · obtain ⟨r, _, rfl⟩ := Option.map_eq_some_iff.mp step
      exact ⟨fun looped => Bool.noConfusion looped, fun _ _ direct => ShellPc.noConfusion direct⟩
    · cases step
      constructor
      · intro looped
        dsimp only at looped
        split at looped <;> cases looped
      · intro stage leave direct
        dsimp only at direct
        split at direct <;> cases direct
    · rename_i pc
      rw [ShellFits, pc] at fits
      have length : s.shell.childPids.length = job.segments.length := fits.1
      split at step
      · cases step
        exact ⟨fun _ => length, fun _ _ direct => ShellPc.noConfusion direct⟩
      · obtain ⟨r, _, rfl⟩ := Option.map_eq_some_iff.mp step
        exact ⟨fun _ => length, fun _ _ direct => ShellPc.noConfusion direct⟩
    · rename_i pc
      cases step
      exact ⟨fun _ => standing.whole (by rw [pc]; rfl), fun _ _ direct => ShellPc.noConfusion direct⟩
    · rename_i pc
      cases step
      exact ⟨fun _ => standing.whole (by rw [pc]; rfl), fun _ _ direct => ShellPc.noConfusion direct⟩
    · cases step
  | direct input =>
    simp only [jobStep, directStep] at step
    split at step
    · rename_i pc
      cases step
      rw [ShellFits, pc] at fits
      refine ⟨fun _ => ?_, fun _ _ direct => ShellPc.noConfusion direct⟩
      dsimp only
      rw [fits.2.1, standing.single _ _ pc]
      rfl
    · obtain ⟨r, _, rfl⟩ := Option.map_eq_some_iff.mp step
      exact unmoved (Or.inr rfl)
    · rename_i stage leave pc _ _
      obtain ⟨r, _, rfl⟩ := Option.map_eq_some_iff.mp step
      exact ⟨fun looped => Bool.noConfusion looped, fun _ _ _ => standing.single _ _ pc⟩
    · cases step
  | kid i input => exact unmoved (shell_unmoved step (by simp) (by simp))
  | other call => exact unmoved (shell_unmoved step (by simp) (by simp))
  | killShell => exact unmoved (shell_unmoved step (by simp) (by simp))
  | killKid i => exact unmoved (shell_unmoved step (by simp) (by simp))

theorem whole_start (begun : JobStart job start) :
    (start.shell.pc.looped = true → start.shell.childPids.length = job.segments.length) ∧
      ∀ stage leave, start.shell.pc = .direct stage leave → job.segments = [] := by
  rw [begun.shell, Job.segments]
  cases planLine job.line with
  | nothing => exact ⟨fun _ => rfl, fun _ _ _ => rfl⟩
  | exit => exact ⟨fun _ => rfl, fun _ _ _ => rfl⟩
  | direct cmd => exact ⟨fun _ => rfl, fun _ _ _ => rfl⟩
  | chain segments =>
    exact ⟨fun looped => Bool.noConfusion looped, fun _ _ direct => ShellPc.noConfusion direct⟩

theorem standing_step (standing : Standing job old s) (step : jobStep job s event = some t) :
    Standing job old t := by
  have ordered : Ordered t.run.run := by
    rcases job_step_run step with same | ⟨call, r, done, same⟩
    · rw [same]
      exact standing.ordered
    · obtain ⟨may, taken⟩ := perform_some done
      rw [same]
      exact ordered_call standing.wired.kept.run may taken standing.ordered
  constructor
  · exact wired_step standing.wired step
  · exact pending_step standing.wired standing.pending step
  · exact ordered
  · exact read_all_step standing.wired standing.pending ordered standing.drained step
  · exact (whole_step standing step).1
  · exact (whole_step standing step).2

theorem standing_run (begun : JobStart job start) (run : JobRun job start s) :
    Standing job (start.run.run.files.tables job.shell) s := by
  refine reaches_invariant (Standing job (start.run.run.files.tables job.shell)) ?_ ?_ run
  · rintro u rfl
    obtain ⟨whole, single⟩ := whole_start begun
    exact ⟨wired_start begun, pending_start begun, reached_ordered begun.reached, read_all_start begun, whole, single⟩
  · intro u event v standing step
    exact standing_step standing step

end Reaching

section Holders
variable {job : Job} {old : FdTable} {s : JobState} {i j m u fd : Nat} {kid : Kid} {stage : Stage} {e : Ends}

theorem command_line_slots (wired : Wired job old s) (here : s.kids i = some kid) (pc : kid.pc = .command stage)
    (holds : s.run.run.files.tables kid.task fd = some (.heap m)) (line : LineFile s.ends m) :
    (fd = 0 ∧ inPtr old s.ends i = some (.heap m)) ∨
      (fd = 1 ∧ outPtr old s.ends job.segments.length i = some (.heap m)) := by
  have standard : ∀ table : FdTable, table = commandTable old s.ends job.segments.length i →
      table fd = some (.heap m) → (fd = 0 ∧ inPtr old s.ends i = some (.heap m)) ∨
        (fd = 1 ∧ outPtr old s.ends job.segments.length i = some (.heap m)) := by
    intro table same at_
    rw [same, commandTable, Function.update_apply, Function.update_apply] at at_
    split at at_
    · rename_i one
      exact Or.inr ⟨one, at_⟩
    · split at at_
      · rename_i zero
        exact Or.inl ⟨zero, at_⟩
      · exact absurd line (wired.kept.plain fd m at_).2
  have table := (wired.placed.kids i kid here).table
  rw [pc] at table
  have opened : Opened s.ends (commandTable old s.ends job.segments.length i) stage _ := table
  unfold Opened at opened
  split at opened
  · exact standard _ opened holds
  · obtain ⟨k, file, _, _, free, whole⟩ := opened
    rw [whole, Function.update_apply] at holds
    split at holds
    · cases holds
      exact absurd line free
    · exact standard _ rfl holds

theorem in_ptr_line (wired : Wired job old s) (found : s.ends j = some e) (which : m = e.read ∨ m = e.write)
    (input : inPtr old s.ends i = some (.heap m)) : i = j + 1 ∧ m = e.read := by
  cases i with
  | zero =>
    rw [inPtr, wired.kept.stdin] at input
    cases input
  | succ k =>
    rw [in_ptr_succ, readPtr] at input
    obtain ⟨d, first, same⟩ := Option.map_eq_some_iff.mp input
    cases same
    have at_ := line_file_unique wired.kept.ends first found (Or.inl rfl) which
    rw [at_, found] at first
    cases first
    exact ⟨by rw [at_], rfl⟩

theorem out_ptr_line (wired : Wired job old s) (found : s.ends j = some e) (which : m = e.read ∨ m = e.write)
    (output : outPtr old s.ends job.segments.length i = some (.heap m)) : i = j ∧ m = e.write := by
  rw [outPtr] at output
  split at output
  · rw [writePtr] at output
    obtain ⟨d, first, same⟩ := Option.map_eq_some_iff.mp output
    cases same
    have at_ := line_file_unique wired.kept.ends first found (Or.inr rfl) which
    rw [at_, found] at first
    cases first
    exact ⟨at_, rfl⟩
  · rw [wired.kept.stdout] at output
    cases output

theorem ends_differ (wired : Wired job old s) (found : s.ends j = some e) : e.read ≠ e.write := by
  have next := (wired.kept.ends.old j e found).1
  omega

theorem command_connected (wired : Wired job old s) (here : s.kids i = some kid) (pc : kid.pc = .command stage) :
    Connected job s i kid := by
  obtain ⟨zero, one⟩ := command_standard wired here pc
  obtain ⟨_, input, output, _⟩ := wired.placed.kids i kid here
  have shape : ∀ task fd m, s.run.run.files.tables task fd = some (.heap m) →
      ∃ sh, s.run.run.files.shape m = some sh := by
    intro task fd m holds
    obtain ⟨d, live⟩ := Option.isSome_iff_exists.mp (wired.kept.run.files.accounted.known (task, fd) (.heap m) holds)
    have found : s.run.run.files.files m = some d := live
    exact ⟨d.shape, by rw [Files.shape, found, Option.map_some]⟩
  constructor
  · rintro rfl
    rw [zero, inPtr, wired.kept.stdin]
  · rintro j rfl
    rw [in_ptr_succ, readPtr, Option.isSome_map] at input
    obtain ⟨d, found⟩ := Option.isSome_iff_exists.mp input
    rw [in_ptr_succ, readPtr, found, Option.map_some] at zero
    obtain ⟨sh, live⟩ := shape kid.task 0 d.read zero
    refine ⟨d, found, zero, ?_⟩
    rw [live, wired.kept.ends.read j d sh found live]
  · intro last
    rw [one, outPtr, if_neg last, wired.kept.stdout]
  · intro more
    obtain ⟨d, found⟩ := Option.isSome_iff_exists.mp (output more)
    rw [outPtr, if_pos more, writePtr, found, Option.map_some] at one
    obtain ⟨sh, live⟩ := shape kid.task 1 d.write one
    refine ⟨d, found, one, ?_⟩
    rw [live, wired.kept.ends.write i d sh found live]
  · intro fd j e found
    have apart := ends_differ wired found
    constructor
    · intro holds
      rcases command_line_slots wired here pc holds ⟨j, e, found, Or.inl rfl⟩ with ⟨at_, from_⟩ | ⟨_, from_⟩
      · exact ⟨at_, (in_ptr_line wired found (Or.inl rfl) from_).1⟩
      · exact absurd (out_ptr_line wired found (Or.inl rfl) from_).2 apart
    · intro holds
      rcases command_line_slots wired here pc holds ⟨j, e, found, Or.inr rfl⟩ with ⟨_, from_⟩ | ⟨at_, from_⟩
      · exact absurd (in_ptr_line wired found (Or.inr rfl) from_).2.symm apart
      · exact ⟨at_, (out_ptr_line wired found (Or.inr rfl) from_).1⟩

theorem settled_clean (wired : Wired job old s) (settled : s.shell.pc.settled = true)
    (inside : s.shell.pc.isReturned = false) : Clean s job.shell := by
  have fits := wired.placed.shell
  intro fd m holds line
  unfold ShellFits at fits
  cases pc : s.shell.pc with
  | closeLast =>
    rw [pc] at fits
    rw [fits.2.2] at holds
    exact (wired.kept.plain fd m holds).2 line
  | waits rest =>
    rw [pc] at fits
    rw [fits.2] at holds
    exact (wired.kept.plain fd m holds).2 line
  | gone =>
    rw [pc] at fits
    have none_ : s.run.run.files.tables job.shell fd = none := fits fd
    rw [none_] at holds
    cases holds
  | returned =>
    rw [pc] at inside
    cases inside
  | _ =>
    rw [pc] at settled
    cases settled

theorem line_holders (wired : Wired job old s) (holds : s.run.run.files.tables u fd = some (.heap m))
    (line : LineFile s.ends m) : (u = job.shell ∧ s.shell.pc.settled = false) ∨
      ∃ i kid, s.kids i = some kid ∧ kid.task = u := by
  by_cases party : Party job s u
  · rcases party with ⟨rfl, inside⟩ | ⟨i, kid, here, task⟩
    · left
      refine ⟨rfl, ?_⟩
      by_contra settled
      exact settled_clean wired (Bool.eq_true_of_not_eq_false settled) inside fd m holds line
    · exact Or.inr ⟨i, kid, here, task⟩
  · exact absurd line (wired.kept.others u party fd m holds)

theorem near_write (wired : Wired job old s) (found : s.ends j = some e) (near : Near s.ends i e.write) : i = j := by
  rcases near with ⟨d, first, which⟩ | ⟨k, d, _, first, which⟩
  · exact line_file_unique wired.kept.ends first found which (Or.inr rfl)
  · have at_ := line_file_unique wired.kept.ends first found (Or.inl which) (Or.inr rfl)
    rw [at_, found] at first
    cases first
    exact absurd which.symm (ends_differ wired found)

theorem near_read (wired : Wired job old s) (found : s.ends j = some e) (near : Near s.ends i e.read) :
    i = j ∨ i = j + 1 := by
  rcases near with ⟨d, first, which⟩ | ⟨k, d, next, first, which⟩
  · exact Or.inl (line_file_unique wired.kept.ends first found which (Or.inl rfl))
  · have at_ := line_file_unique wired.kept.ends first found (Or.inl which) (Or.inl rfl)
    exact Or.inr (by rw [next, at_])

theorem kid_line_slot (wired : Wired job old s) (here : s.kids i = some kid)
    (holds : s.run.run.files.tables kid.task fd = some (.heap m)) (line : LineFile s.ends m) :
    (∃ rest, kid.pc = .wiring rest ∧ Near s.ends i m) ∨ ∃ stage, kid.pc = .command stage := by
  have fits := (wired.placed.kids i kid here).table
  cases pc : kid.pc with
  | wiring rest =>
    rw [pc] at fits
    exact Or.inl ⟨rest, rfl, fits.1 fd m holds line⟩
  | command stage => exact Or.inr ⟨stage, rfl⟩
  | exited =>
    rw [pc] at fits
    have none_ : s.run.run.files.tables kid.task fd = none := fits fd
    rw [none_] at holds
    cases holds

theorem write_holders (wired : Wired job old s) (found : s.ends j = some e)
    (holds : s.run.run.files.tables u fd = some (.heap e.write)) :
    (u = job.shell ∧ s.shell.pc.settled = false) ∨
      ∃ kid, s.kids j = some kid ∧ kid.task = u ∧ kid.pc ≠ .exited := by
  have line : LineFile s.ends e.write := ⟨j, e, found, Or.inr rfl⟩
  rcases line_holders wired holds line with shell | ⟨i, kid, here, rfl⟩
  · exact Or.inl shell
  · right
    rcases kid_line_slot wired here holds line with ⟨rest, pc, near⟩ | ⟨stage, pc⟩
    · rw [near_write wired found near] at here
      exact ⟨kid, here, rfl, by rw [pc]; exact KidPc.noConfusion⟩
    · rw [(((command_connected wired here pc).only fd j e found).2 holds).2] at here
      exact ⟨kid, here, rfl, by rw [pc]; exact KidPc.noConfusion⟩

theorem read_holders (wired : Wired job old s) (found : s.ends j = some e)
    (holds : s.run.run.files.tables u fd = some (.heap e.read)) :
    (u = job.shell ∧ s.shell.pc.settled = false) ∨ KidIs s (j + 1) u ∨
      ∃ kid rest, s.kids j = some kid ∧ kid.task = u ∧ kid.pc = .wiring rest := by
  have line : LineFile s.ends e.read := ⟨j, e, found, Or.inl rfl⟩
  rcases line_holders wired holds line with shell | ⟨i, kid, here, rfl⟩
  · exact Or.inl shell
  · right
    rcases kid_line_slot wired here holds line with ⟨rest, pc, near⟩ | ⟨stage, pc⟩
    · rcases near_read wired found near with at_ | at_
      · rw [at_] at here
        exact Or.inr ⟨kid, rest, here, rfl, pc⟩
      · rw [at_] at here
        exact Or.inl ⟨kid, here, rfl⟩
    · rw [(((command_connected wired here pc).only fd j e found).1 holds).2] at here
      exact Or.inl ⟨kid, here, rfl⟩

theorem ended_shut {p : Pipe} (wired : Wired job old s) (settled : s.shell.pc.settled = true)
    (found : s.ends j = some e) (here : s.kids j = some kid) (gone : kid.pc = .exited)
    (live : s.run.run.files.pipes e.pipe = some p) : p.writeOpen = false := by
  have inv := wired.kept.run
  by_contra isOpen
  have writing : p.isOpen oWronly = true := by
    rw [Pipe.isOpen, if_neg (by decide)]
    exact Bool.eq_true_of_not_eq_false isOpen
  obtain ⟨m, isEnd⟩ := (inv.files.ends.ends e.pipe p oWronly live (Or.inr rfl)).mp writing
  have which : m = e.write := by
    rcases wired.kept.ends.only j e m oWronly found isEnd with first | second
    · have reads := wired.kept.ends.read j e _ found (by rw [← first]; exact isEnd)
      have flags : oWronly = oRdonly := congrArg Shape.flags reads
      exact absurd flags (by decide)
    · exact second
  subst which
  obtain ⟨d, file, _⟩ := Option.map_eq_some_iff.mp isEnd
  obtain ⟨⟨u, fd⟩, slot⟩ := ((reference_counted_of_inv inv).live e.write).mp (by rw [file]; rfl)
  have holds : s.run.run.files.tables u fd = some (.heap e.write) := (mem_holders.mp slot).2
  rcases write_holders wired found holds with ⟨_, open_⟩ | ⟨other, at_, _, left⟩
  · rw [settled] at open_
    cases open_
  · rw [here] at at_
    cases at_
    exact left gone

end Holders

section Going
variable {job : Job} {old : FdTable} {s t : JobState} {i : Nat} {kid : Kid}

theorem perform_exists {fs : Fat16.Fs} {f : FdRun} {call : FileCall} (inv : RunInv f.run)
    (may : enabled f.run call) (tables : onTables call = true) : ∃ r, perform fs f (.other call) = some r := by
  obtain ⟨r, _, taken, _⟩ := table_call_steps inv may tables
  have allowed : callable f (.other call) := by
    cases call with
    | dup2 task oldfd newfd => exact may.1
    | read task fd count => cases tables
    | write task fd src => cases tables
    | resume task => cases tables
    | _ => exact may
  refine ⟨(r.1, { f with run := r.2 }), ?_⟩
  rw [perform, if_pos allowed, fdCall, taken]
  rfl

theorem op_exists {fs : Fat16.Fs} {f : FdRun} {task : Nat} {op : FdOp} (inv : RunInv f.run) (free : idle f.run task)
    (ready : op.ready (f.run.files.tables task)) : ∃ r, perform fs f (op.call task) = some r := by
  cases op with
  | dup2 oldfd newfd =>
    have apart : (oldfd : Int) ≠ newfd := fun same => ready.2.1 (Int.ofNat.inj same)
    exact perform_exists inv ⟨free, apart⟩ rfl
  | close fd => exact perform_exists inv free rfl

theorem parent_ops_length (prevReadFd : Option Nat) (pipefd : Option (Nat × Nat)) :
    (parentOps prevReadFd pipefd).length ≤ 2 := by
  cases prevReadFd <;> cases pipefd <;> simp [parentOps]

/-- In the loop the shell can always go on, whatever pipe and fork answer, and it goes on to the end. -/
theorem shell_goes_on (standing : Standing job old s) (inside : s.shell.pc.inChain = true) (a b c forks : Bool) :
    ∃ t, jobStep job s (.shell a b c forks) = some t ∧
      work job.segments.length t.shell < work job.segments.length s.shell := by
  have wired := standing.wired
  have inv := wired.kept.run
  have fits := wired.placed.shell
  have free : idle s.run.run job.shell := ⟨wired.kept.shellTask, standing.pending.shell inside⟩
  simp only [jobStep, shellStep]
  cases pc : s.shell.pc with
  | pipe =>
    rw [ShellFits, pc] at fits
    dsimp only
    unfold pipeStep
    split
    · obtain ⟨r, done⟩ := @perform_exists job.fs s.run (.pipe job.shell a b c) inv free rfl
      rw [done, Option.map_some]
      refine ⟨_, rfl, ?_⟩
      split <;> simp only [work, pc] <;> omega
    · refine ⟨_, rfl, ?_⟩
      simp only [work, pc]
      omega
  | fork =>
    have short := parent_ops_length s.shell.prevReadFd s.shell.pipefd
    dsimp only
    unfold forkStep
    dsimp only
    split
    · obtain ⟨r, done⟩ := @perform_exists job.fs s.run (.fork job.shell) inv free rfl
      rw [done, Option.map_some]
      refine ⟨_, rfl, ?_⟩
      simp only [work, pc]
      omega
    · refine ⟨_, rfl, ?_⟩
      simp only [work, pc]
      omega
  | closes rest =>
    rw [ShellFits, pc] at fits
    obtain ⟨inside, _, _, _, _, leads⟩ := fits
    cases rest with
    | nil =>
      refine ⟨_, rfl, ?_⟩
      by_cases more : s.shell.i + 1 < job.segments.length
      · simp only [work, pc, if_pos more, List.length_nil]
        omega
      · simp only [work, pc, if_neg more, List.length_nil]
        omega
    | cons op rest =>
      obtain ⟨ready, _⟩ := leads
      obtain ⟨r, done⟩ := @op_exists job.fs s.run job.shell op inv free ready
      dsimp only
      rw [done, Option.map_some]
      refine ⟨_, rfl, ?_⟩
      simp only [work, pc, List.length_cons]
      omega
  | closeLast =>
    rw [ShellFits, pc] at fits
    obtain ⟨length, none_, _⟩ := fits
    dsimp only
    rw [none_]
    refine ⟨_, rfl, ?_⟩
    simp only [work, pc, length]
    omega
  | waits rest =>
    cases rest with
    | nil =>
      refine ⟨_, rfl, ?_⟩
      simp only [work, pc]
      omega
    | cons tid rest =>
      refine ⟨_, rfl, ?_⟩
      simp only [work, pc, List.length_cons]
      omega
  | _ =>
    rw [pc] at inside
    cases inside

theorem kid_goes_on {rest : List FdOp} (standing : Standing job old s) (here : s.kids i = some kid)
    (pc : kid.pc = .wiring rest) : ∃ t, jobStep job s (.kid i .go) = some t ∧
      t.kids i = some { kid with pc := afterWiring kid.segment rest } := by
  have wired := standing.wired
  have fits := (wired.placed.kids i kid here).table
  rw [pc] at fits
  simp only [jobStep, here, Option.bind_some, kidStep, pc]
  cases rest with
  | nil => exact ⟨_, rfl, Function.update_self _ _ _⟩
  | cons op rest =>
    have low := (wired.placed.tasks i kid.task ⟨kid, here, rfl⟩).1
    have free : s.run.run.calls kid.task = none := by
      cases waiting : s.run.run.calls kid.task with
      | none => rfl
      | some c =>
        have side := standing.pending.kids i kid c here waiting
        rw [pc] at side
        exact False.elim side
    obtain ⟨r, done⟩ := @op_exists job.fs s.run kid.task op wired.kept.run ⟨low, free⟩ fits.2.1
    dsimp only
    rw [done, Option.map_some]
    exact ⟨_, rfl, Function.update_self _ _ _⟩

theorem segments_cut (bars : bar ∈ job.line) : job.segments = ((job.line.splitOn bar).take 8).map trimEnd := by
  rw [Job.segments, planLine]
  cases cut : findPipe job.line with
  | none => exact absurd bars (find_pipe_none cut)
  | some parts => exact parse_segments_eq _ _

theorem all_have_children (standing : Standing job old s) (looped : s.shell.pc.looped = true)
    (forked : none ∉ s.shell.childPids) (i : Nat) (inside : i < job.segments.length) : (s.kids i).isSome := by
  have whole := standing.whole looped
  have low : i < s.shell.childPids.length := by omega
  cases pid : s.shell.childPids[i] with
  | none =>
    apply absurd _ forked
    rw [← pid]
    exact List.getElem_mem low
  | some task =>
    obtain ⟨kid, here, _⟩ := (standing.wired.placed.pids i task).mp (by rw [List.getElem?_eq_getElem low, pid])
    rw [here]
    rfl

theorem direct_console {stage : Stage} {leave : Bool} (wired : Wired job old s) (pc : s.shell.pc = .direct stage leave) :
    (∀ j, s.ends j = none) ∧ s.run.run.files.tables job.shell 0 = some .console ∧
      s.run.run.files.tables job.shell 1 = some .console := by
  have fits := wired.placed.shell
  rw [ShellFits, pc] at fits
  obtain ⟨noEnds, _, opened⟩ := fits
  have stdin := wired.kept.stdin
  have stdout := wired.kept.stdout
  obtain ⟨zero, one⟩ := opened_standard opened (by rw [stdin]; rfl) (by rw [stdout]; rfl)
  exact ⟨noEnds, zero.trans stdin, one.trans stdout⟩

end Going

theorem pipeline_connects {job : Job} {start s : JobState} (begun : JobStart job start) (run : JobRun job start s) :
    Pipeline job s := by
  have standing := standing_run begun run
  have wired := standing.wired
  constructor
  · exact segments_cut
  · exact wired.placed.named
  · exact all_have_children standing
  · intro stage leave pc
    exact direct_console wired pc
  · intro i kid stage here pc
    exact command_connected wired here pc
  · exact wired.logged.bytes
  · exact got_before_sent wired standing.ordered
  · intro j e p found live
    obtain ⟨sent, got⟩ := wired.logged.bytes j e found
    rw [← sent, ← got]
    exact (wired.kept.run.fifo e.pipe p live).order
  · exact standing.drained
  · intro j e u fd found holds
    rcases write_holders wired found holds with shell | ⟨kid, here, task, _⟩
    · exact Or.inl shell
    · exact Or.inr ⟨kid, here, task⟩
  · intro j e u fd found holds
    exact read_holders wired found holds
  · intro j e kid p settled found here gone live
    exact ended_shut wired settled found here gone live
  · intro inside a b c forks
    exact shell_goes_on standing inside a b c forks
  · intro i kid rest here pc
    exact kid_goes_on standing here pc

def firstShell : FdRun :=
  { fdBoot with run := { filesBoot with files := { fdTableInit filesBoot.files 0 with numTasks := 1 } } }

def firstJob (line : List Char) : Job := ⟨noVolume, 0, line.map byteOf⟩

def firstStart (line : List Char) : JobState :=
  ⟨firstShell, startShell (planLine (firstJob line).line), fun _ => none, fun _ => none, fun _ => [], fun _ => []⟩

theorem first_start (line : List Char) : JobStart (firstJob line) (firstStart line) := by
  have made : Guarded callable (Taken (fdStep noVolume)) fdBoot (.other .create) firstShell := ⟨trivial, rfl⟩
  constructor
  · exact Reaches.next (Reaches.start rfl) made
  · exact ⟨Nat.one_pos, rfl⟩
  · rfl
  · rfl
  · rfl
  · rfl
  · rfl
  · rfl
  · rfl

/-- A memory of one page. -/
def page : Space :=
  ⟨fun _ => 0, fun a => decide (a < 4096), fun _ below => Nat.lt_trans (of_decide_eq_true below) (by decide)⟩

def shellGoes : Event := .shell true true true true

/-- echo runs before the shell closes anything, and wc starts before echo has exited. -/
def echoRun : List Event :=
  [shellGoes, shellGoes, .kid 0 .go, .kid 0 .go, .kid 0 .go, .kid 0 .go, .kid 0 (.write [97, 10]), .kid 0 .go,
    shellGoes, shellGoes, shellGoes, shellGoes, .kid 1 .go, .kid 1 .go, .kid 1 .go, .kid 1 (.read 0 [] none page),
    shellGoes, shellGoes, shellGoes, .kid 0 .go, .kid 1 (.read 0 [] none page), .kid 1 (.write [50, 10]), .kid 1 .go,
    .kid 1 .go, shellGoes, shellGoes, shellGoes]

def echoLine : List Char := ['e', 'c', 'h', 'o', ' ', 'a', '|', 'w', 'c']

theorem echo_to_wc_connects : ∃ s, JobRun (firstJob echoLine) (firstStart echoLine) s ∧
    s.shell.pc.isReturned = true ∧ s.sent 0 = [97, 10] ∧ s.got 1 = [97, 10] ∧ Pipeline (firstJob echoLine) s := by
  have look : (runActions (jobStep (firstJob echoLine)) (firstStart echoLine) echoRun).any
      (fun s => decide (s.shell.pc.isReturned = true ∧ s.sent 0 = [97, 10] ∧ s.got 1 = [97, 10])) = true := by
    decide +kernel
  obtain ⟨s, done, found⟩ := (Option.any_eq_true _ _).mp look
  obtain ⟨returned, sent, got⟩ := of_decide_eq_true found
  have run : JobRun (firstJob echoLine) (firstStart echoLine) s := reaches_of_actions (Reaches.start rfl) done
  exact ⟨s, run, returned, sent, got, pipeline_connects (first_start echoLine) run⟩

def nineSegments : List Char := ['a', '|', 'b', '|', 'c', '|', 'd', '|', 'e', '|', 'f', '|', 'g', '|', 'h', '|', 'w', 'c']

/-- The ninth segment of a line has no child, and a command may run while the shell still has both
    ends of its pipe. -/
theorem ninth_segment_dropped :
    (¬ ∀ (job : Job) (start s : JobState), JobStart job start → JobRun job start s →
      s.shell.pc.isReturned = true → none ∉ s.shell.childPids →
        ∀ i, i < (job.line.splitOn bar).length → (s.kids i).isSome) ∧
    ¬ ∀ (job : Job) (start s : JobState), JobStart job start → JobRun job start s →
      ∀ i kid stage e u fd, s.kids i = some kid → kid.pc = .command stage → s.ends i = some e →
        s.run.run.files.tables u fd = some (.heap e.write) → u = kid.task := by
  constructor
  · intro all
    have look : (runActions (jobStep (firstJob nineSegments)) (firstStart nineSegments)
        (List.replicate 48 shellGoes)).any (fun s => decide (s.shell.pc.isReturned = true ∧
          none ∉ s.shell.childPids ∧ 8 < ((firstJob nineSegments).line.splitOn bar).length ∧
            (s.kids 8).isSome = false)) = true := by
      decide +kernel
    obtain ⟨s, done, found⟩ := (Option.any_eq_true _ _).mp look
    obtain ⟨returned, forked, inside, none_⟩ := of_decide_eq_true found
    have run : JobRun (firstJob nineSegments) (firstStart nineSegments) s :=
      reaches_of_actions (Reaches.start rfl) done
    have some_ := all _ _ s (first_start nineSegments) run returned forked 8 inside
    rw [none_] at some_
    cases some_
  · intro alone
    have look : (runActions (jobStep (firstJob echoLine)) (firstStart echoLine) (echoRun.take 6)).any
        (fun s => (s.kids 0).any fun kid => (s.ends 0).any fun e =>
          decide (s.run.run.files.tables 0 4 = some (.heap e.write) ∧ kid.task = 1) &&
            match kid.pc with
            | .command _ => true
            | _ => false) = true := by
      decide +kernel
    obtain ⟨s, done, found⟩ := (Option.any_eq_true _ _).mp look
    obtain ⟨kid, here, found⟩ := (Option.any_eq_true _ _).mp found
    obtain ⟨e, ends, found⟩ := (Option.any_eq_true _ _).mp found
    obtain ⟨slot, inside⟩ := (Bool.and_eq_true _ _).mp found
    obtain ⟨holds, task⟩ := of_decide_eq_true slot
    have run : JobRun (firstJob echoLine) (firstStart echoLine) s :=
      reaches_of_actions (Reaches.start rfl) done
    split at inside
    · rename_i stage pc
      have same := alone _ _ s (first_start echoLine) run 0 kid stage e 0 4 here pc ends holds
      rw [task] at same
      cases same
    · cases inside

end Archarch.Shell
