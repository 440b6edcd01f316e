import Archarch.Printing.Numbers
import Archarch.Shell.Pipelines

/- builtin_wc of shell.c: its counters over the reads that bring its input in pieces, and what it
   prints at the end of a pipe. -/
namespace Archarch.Shell
open Descriptors LabelledRuns Printing

structure Counts where
  lines : BitVec 64
  words : BitVec 64
  bytes : BitVec 64
  inWord : Bool

def noCounts : Counts := ⟨0, 0, 0, false⟩

def newline : Byte := byteOf '\n'

def separates (b : Byte) : Bool := b = blank || b = newline || b = byteOf '\t'

def countByte (c : Counts) (b : Byte) : Counts :=
  let c := { c with bytes := c.bytes + 1 }
  let c := if b = newline then { c with lines := c.lines + 1 } else c
  if separates b then { c with inWord := false }
  else if !c.inWord then { c with inWord := true, words := c.words + 1 }
  else c

/-- for (i = 0; i < n; i++) over the bytes of one read. -/
def countBuffer (c : Counts) (buf : Text) : Counts := buf.foldl countByte c

def printCounts (c : Counts) : Option Text :=
  (printNum c.lines).bind fun lines => (printNum c.words).bind fun words => (printNum c.bytes).map fun bytes =>
    [blank, blank] ++ lines ++ [blank, blank] ++ words ++ [blank, blank] ++ bytes ++ [newline]

/- What wc is for. -/

def lineCount (text : Text) : Nat := text.count newline

def wordCount (text : Text) : Nat := ((text.splitOnP separates).filter fun word => word ≠ []).length

section Counting
variable {c : Counts} {text more : Text} {b : Byte}

theorem count_buffer_append (c : Counts) (text more : Text) :
    countBuffer c (text ++ more) = countBuffer (countBuffer c text) more := List.foldl_append

def laterWords (text : Text) : Nat := ((text.splitOnP separates).tail.filter fun word => word ≠ []).length

theorem split_on_cons (b : Byte) (text : Text) : (b :: text).splitOnP separates =
    if separates b then [] :: text.splitOnP separates else (text.splitOnP separates).modifyHead (b :: ·) :=
  List.splitOnP_cons_eq_if_modifyHead ..

theorem words_separated (sep : separates b = true) (text : Text) :
    wordCount (b :: text) = wordCount text ∧ laterWords (b :: text) = wordCount text := by
  rw [wordCount, laterWords, split_on_cons, if_pos sep]
  exact ⟨rfl, rfl⟩

theorem words_inside (sep : ¬ separates b = true) (text : Text) :
    wordCount (b :: text) = laterWords text + 1 ∧ laterWords (b :: text) = laterWords text := by
  rw [wordCount, laterWords, laterWords, split_on_cons, if_neg sep]
  cases pieces : text.splitOnP separates with
  | nil => exact absurd pieces (List.splitOnP_ne_nil _ _)
  | cons word words => exact ⟨rfl, rfl⟩

theorem count_byte_fields (c : Counts) (b : Byte) :
    (countByte c b).lines = c.lines + (if b = newline then 1 else 0) ∧
      (countByte c b).words = c.words + (if separates b = true ∨ c.inWord = true then 0 else 1) ∧
        (countByte c b).bytes = c.bytes + 1 ∧ (countByte c b).inWord = !separates b := by
  unfold countByte
  by_cases line : b = newline
  · have sep : separates b = true := by
      rw [line]
      decide
    simp only [if_pos line, sep, if_true, true_or]
    exact ⟨trivial, (BitVec.add_zero _).symm, trivial, rfl⟩
  · simp only [if_neg line]
    by_cases sep : separates b = true
    · simp only [sep, if_true, true_or]
      exact ⟨(BitVec.add_zero _).symm, (BitVec.add_zero _).symm, trivial, rfl⟩
    · rw [Bool.eq_false_of_not_eq_true sep]
      cases word : c.inWord
      · exact ⟨(BitVec.add_zero _).symm, rfl, rfl, rfl⟩
      · exact ⟨(BitVec.add_zero _).symm, (BitVec.add_zero _).symm, rfl, rfl⟩

theorem count_buffer_eq (c : Counts) (text : Text) :
    (countBuffer c text).lines = c.lines + BitVec.ofNat 64 (lineCount text) ∧
      (countBuffer c text).words =
        c.words + BitVec.ofNat 64 (if c.inWord = true then laterWords text else wordCount text) ∧
      (countBuffer c text).bytes = c.bytes + BitVec.ofNat 64 text.length := by
  induction text generalizing c with
  | nil =>
    have none_ : BitVec.ofNat 64 (if c.inWord = true then laterWords [] else wordCount []) = 0 := by
      split <;> rfl
    rw [none_]
    exact ⟨(BitVec.add_zero _).symm, (BitVec.add_zero _).symm, (BitVec.add_zero _).symm⟩
  | cons b text ih =>
    obtain ⟨lines, words, bytes⟩ := ih (countByte c b)
    obtain ⟨line, word, byte, inside⟩ := count_byte_fields c b
    rw [countBuffer, List.foldl_cons, ← countBuffer]
    refine ⟨?_, ?_, ?_⟩
    · rw [lines, line, BitVec.add_assoc, lineCount, lineCount, List.count_cons, Nat.add_comm, BitVec.ofNat_add]
      congr 2
      by_cases here : b = newline
      · simp [here]
      · simp [here]
    · rw [words, word, inside, BitVec.add_assoc]
      congr 1
      by_cases sep : separates b = true
      · obtain ⟨all, later⟩ := words_separated sep text
        rw [sep, if_pos (Or.inl rfl), if_neg (by decide), all, later, ite_self]
        exact BitVec.zero_add _
      · obtain ⟨all, later⟩ := words_inside sep text
        rw [Bool.eq_false_of_not_eq_true sep, if_pos (show (!false) = true from rfl), all, later]
        cases before : c.inWord
        · rw [if_neg (by simp), if_neg (by simp), Nat.add_comm, BitVec.ofNat_add]
          rfl
        · rw [if_pos (Or.inr rfl), if_pos rfl]
          exact BitVec.zero_add _
    · rw [bytes, byte, BitVec.add_assoc, List.length_cons, Nat.add_comm, BitVec.ofNat_add]
      rfl

theorem print_small {n : Nat} (small : n < 2 ^ 63) : printNum (BitVec.ofNat 64 n) = some (decimal n) := by
  have value : (BitVec.ofNat 64 n).toNat = n := by
    rw [BitVec.toNat_ofNat, Nat.mod_eq_of_lt (by omega)]
  have number : (BitVec.ofNat 64 n).toInt = n := by
    rw [BitVec.toInt_eq_toNat_of_lt (by omega), value]
  have other : BitVec.ofNat 64 n ≠ BitVec.intMin 64 := by
    intro same
    have high : (BitVec.ofNat 64 n).toNat = 2 ^ 63 := by rw [same]; rfl
    omega
  rw [print_num_eq other, signed, number, if_neg (by omega)]
  rfl

theorem line_count_le (text : Text) : lineCount text ≤ text.length := List.count_le_length

theorem word_count_le (text : Text) : wordCount text ≤ text.length ∧ laterWords text ≤ text.length := by
  induction text with
  | nil => exact ⟨Nat.le_refl 0, Nat.le_refl 0⟩
  | cons b text ih =>
    rw [List.length_cons]
    by_cases sep : separates b = true
    · obtain ⟨all, later⟩ := words_separated sep text
      omega
    · obtain ⟨all, later⟩ := words_inside sep text
      omega

/-- What wc prints for its input. -/
def report (text : Text) : Text :=
  [blank, blank] ++ decimal (lineCount text) ++ [blank, blank] ++ decimal (wordCount text) ++ [blank, blank] ++
    decimal text.length ++ [newline]

theorem print_counts_eq (small : text.length < 2 ^ 63) :
    printCounts (countBuffer noCounts text) = some (report text) := by
  obtain ⟨lines, words, bytes⟩ := count_buffer_eq noCounts text
  have fewLines := line_count_le text
  have fewWords := (word_count_le text).1
  have from_zero : ∀ n, (0 : BitVec 64) + BitVec.ofNat 64 n = BitVec.ofNat 64 n := fun n => BitVec.zero_add _
  have outside : ¬ noCounts.inWord = true := by decide
  rw [if_neg outside] at words
  rw [printCounts, lines.trans (from_zero _), words.trans (from_zero _), bytes.trans (from_zero _),
    print_small (by omega), Option.bind_some, print_small (by omega), Option.bind_some, print_small small,
    Option.map_some, report]

end Counting

/-- A line that runs, with the counters of the children that are in builtin_wc. -/
structure CountRun where
  job : JobState
  counts : Nat → Counts

/-- The child is in the loop of builtin_wc. -/
def inLoop (s : JobState) (i : Nat) : Bool :=
  (s.kids i).any fun kid => match kid.pc with
    | .command .counting => true
    | _ => false

/-- What a read of the loop has put into buf is counted before the next one. -/
def countStep (job : Job) (s : CountRun) (event : Event) : Option CountRun :=
  (jobStep job s.job event).map fun t =>
    match event with
    | .kid i _ =>
      if inLoop s.job i then
        ⟨t, Function.update s.counts i (countBuffer (s.counts i) ((t.got i).drop (s.job.got i).length))⟩
      else ⟨t, s.counts⟩
    | _ => ⟨t, s.counts⟩

def CountReached (job : Job) (start : JobState) : CountRun → Prop :=
  Reaches (· = ⟨start, fun _ => noCounts⟩) (Taken (countStep job))

structure Counted (s : CountRun) : Prop where
  fresh : ∀ i, s.job.kids i = none → s.job.got i = [] ∧ s.counts i = noCounts
  counts : ∀ j kid e, s.job.kids (j + 1) = some kid → parseCommand kid.segment = .wc → s.job.ends j = some e →
    kid.pc = .exited ∨ s.counts (j + 1) = countBuffer noCounts (s.job.got (j + 1))

section Runs
variable {job : Job} {old : FdTable} {s t start : JobState} {u v : CountRun} {event : Event}

structure Besides (s t : JobState) : Prop where
  got : t.got = s.got
  sent : t.sent = s.sent
  kids : ∀ i, t.kids i = s.kids i ∨ (s.kids i = none ∧ (t.kids i).isSome) ∨ ∃ kid, t.kids i = some kid ∧ kid.pc = .exited

theorem besides_same (got : t.got = s.got) (sent : t.sent = s.sent) (kids : t.kids = s.kids) : Besides s t :=
  ⟨got, sent, fun i => Or.inl (by rw [kids])⟩

theorem besides_shell {a b c forks : Bool} (wired : Wired job old s) (step : shellStep job s a b c forks = some t) :
    Besides s t := by
  have fits := wired.placed.shell
  have of_map : ∀ {call : FdCall} {f : Option Int × FdRun → JobState},
      (∀ r, (f r).got = s.got ∧ (f r).sent = s.sent ∧ (f r).kids = s.kids) →
        (perform job.fs s.run call).map f = some t → Besides s t := by
    intro call f same taken
    obtain ⟨r, _, rfl⟩ := Option.map_eq_some_iff.mp taken
    exact besides_same (same r).1 (same r).2.1 (same r).2.2
  have still : ∀ {shell : Locals}, some { s with shell := shell } = some t → Besides s t := by
    intro shell same
    cases same
    exact besides_same rfl rfl rfl
  unfold shellStep at step
  split at step
  · unfold pipeStep at step
    split at step
    · refine of_map ?_ step
      intro r
      split <;> exact ⟨rfl, rfl, rfl⟩
    · exact still step
  · rename_i pc
    rw [ShellFits, pc] at fits
    unfold forkStep at step
    dsimp only at step
    split at step
    · obtain ⟨r, _, rfl⟩ := Option.map_eq_some_iff.mp step
      refine ⟨rfl, rfl, ?_⟩
      intro i
      dsimp only
      by_cases here : i = s.shell.i
      · subst here
        rw [Function.update_self]
        cases before : s.kids s.shell.i with
        | none => exact Or.inr (Or.inl ⟨rfl, rfl⟩)
        | some kid => exact absurd (kid_early wired.placed fits.pids ⟨kid, before, rfl⟩) (Nat.lt_irrefl _)
      · rw [Function.update_of_ne here]
        exact Or.inl rfl
    · exact still step
  · exact of_map (by intro r; exact ⟨rfl, rfl, rfl⟩) step
  · exact still step
  · split at step
    · exact still step
    · exact of_map (by intro r; exact ⟨rfl, rfl, rfl⟩) step
  · exact still step
  · exact still step
  · cases step

theorem besides_step (wired : Wired job old s) (step : jobStep job s event = some t)
    (apart : ∀ i input, event ≠ .kid i input) : Besides s t := by
  cases event with
  | shell a b c forks => exact besides_shell wired step
  | direct input =>
    simp only [jobStep] at step
    unfold directStep at step
    split at step
    · cases step
      exact besides_same rfl rfl rfl
    · obtain ⟨r, _, rfl⟩ := Option.map_eq_some_iff.mp step
      exact besides_same rfl rfl rfl
    · obtain ⟨r, _, rfl⟩ := Option.map_eq_some_iff.mp step
      exact besides_same rfl rfl rfl
    · cases step
  | kid i input => exact absurd rfl (apart i input)
  | other call =>
    simp only [jobStep] at step
    split at step
    · obtain ⟨r, _, rfl⟩ := Option.map_eq_some_iff.mp step
      exact besides_same rfl rfl rfl
    · cases step
  | killShell =>
    obtain ⟨r, _, rfl⟩ := Option.map_eq_some_iff.mp step
    exact besides_same rfl rfl rfl
  | killKid i =>
    obtain ⟨kid, _, taken⟩ := Option.bind_eq_some_iff.mp step
    obtain ⟨r, _, rfl⟩ := Option.map_eq_some_iff.mp taken
    refine ⟨rfl, rfl, ?_⟩
    intro k
    dsimp only
    by_cases here : k = i
    · rw [setKid, here, Function.update_self]
      exact Or.inr (Or.inr ⟨_, rfl, rfl⟩)
    · rw [setKid, Function.update_of_ne here]
      exact Or.inl rfl

theorem exited_stays {i : Nat} {kid : Kid} {input : Input} (exited : kid.pc = .exited) :
    kidStep job s i kid input = none := by
  unfold kidStep
  rw [exited]

theorem kid_step_others {i : Nat} {kid : Kid} {input : Input} (step : kidStep job s i kid input = some t) :
    (∀ k, k ≠ i → t.got k = s.got k ∧ t.kids k = s.kids k) ∧ t.sent = Function.update s.sent i (t.sent i) ∧
      (∃ pc, t.kids i = some { kid with pc := pc }) ∧
        (t.got i = s.got i ∨ ∃ stage, kid.pc = .command stage) := by
  unfold kidStep at step
  have apart : ∀ {kids : Nat → Option Kid} {pc : KidPc}, kids = setKid s i kid pc →
      (∀ k, k ≠ i → kids k = s.kids k) ∧ kids i = some { kid with pc := pc } := by
    rintro _ pc rfl
    exact ⟨fun k ne => Function.update_of_ne ne _ _, Function.update_self _ _ _⟩
  split at step
  · obtain ⟨r, _, rfl⟩ := Option.map_eq_some_iff.mp step
    obtain ⟨others, mine⟩ := apart rfl
    exact ⟨fun k ne => ⟨rfl, others k ne⟩, (Function.update_eq_self i s.sent).symm, ⟨_, mine⟩, Or.inl rfl⟩
  · cases step
    obtain ⟨others, mine⟩ := apart rfl
    exact ⟨fun k ne => ⟨rfl, others k ne⟩, (Function.update_eq_self i s.sent).symm, ⟨_, mine⟩, Or.inl rfl⟩
  · obtain ⟨r, _, rfl⟩ := Option.map_eq_some_iff.mp step
    obtain ⟨others, mine⟩ := apart rfl
    exact ⟨fun k ne => ⟨rfl, others k ne⟩, (Function.update_eq_self i s.sent).symm, ⟨_, mine⟩, Or.inl rfl⟩
  · rename_i stage _ _
    obtain ⟨r, _, rfl⟩ := Option.map_eq_some_iff.mp step
    obtain ⟨others, mine⟩ := apart rfl
    refine ⟨fun k ne => ⟨Function.update_of_ne ne _ _, others k ne⟩, ?_, ⟨_, mine⟩, Or.inr ⟨stage, by assumption⟩⟩
    dsimp only
    rw [Function.update_self]
  · cases step

theorem count_step_job (step : countStep job u event = some v) : jobStep job u.job event = some v.job := by
  obtain ⟨t, done, same⟩ := Option.map_eq_some_iff.mp step
  rw [done, ← same]
  split
  · split <;> rfl
  · rfl

theorem count_step_besides (step : countStep job u event = some v) (apart : ∀ i input, event ≠ .kid i input) :
    v.counts = u.counts := by
  obtain ⟨t, _, rfl⟩ := Option.map_eq_some_iff.mp step
  split
  · exact absurd rfl (apart _ _)
  · rfl

theorem count_step_kid {i : Nat} {input : Input} (step : countStep job u (.kid i input) = some v) :
    v.counts = if inLoop u.job i then
      Function.update u.counts i (countBuffer (u.counts i) ((v.job.got i).drop (u.job.got i).length)) else u.counts := by
  obtain ⟨t, _, rfl⟩ := Option.map_eq_some_iff.mp step
  dsimp only
  by_cases counting : inLoop u.job i = true
  · rw [if_pos counting, if_pos counting]
  · rw [if_neg counting, if_neg counting]

theorem pipe_older {j : Nat} {kid : Kid} {e : Ends} (wired : Wired job old s) (step : jobStep job s event = some t)
    (here : s.kids (j + 1) = some kid) (found : t.ends j = some e) : s.ends j = some e := by
  obtain ⟨_, input, _, _⟩ := wired.placed.kids (j + 1) kid here
  rw [in_ptr_succ, readPtr, Option.isSome_map] at input
  obtain ⟨d, same⟩ := Option.isSome_iff_exists.mp input
  have grown := (job_step_change wired step).ends j d same
  rw [found] at grown
  cases grown
  exact same

theorem counted_besides (wired : Wired job old u.job) (inv : Counted u) (step : countStep job u event = some v)
    (apart : ∀ i input, event ≠ .kid i input) : Counted v := by
  have taken := count_step_job step
  have besides := besides_step wired taken apart
  have same := count_step_besides step apart
  constructor
  · intro i none_
    rcases besides.kids i with still | ⟨_, some_⟩ | ⟨kid, here, _⟩
    · rw [besides.got, same]
      exact inv.fresh i (still ▸ none_)
    · rw [none_] at some_
      cases some_
    · rw [none_] at here
      cases here
  · intro j kid e here wc found
    rw [besides.got, same]
    rcases besides.kids (j + 1) with still | ⟨none_, _⟩ | ⟨gone, there, exited⟩
    · have before := still ▸ here
      exact inv.counts j kid e before wc (pipe_older wired taken before found)
    · obtain ⟨noGot, noCount⟩ := inv.fresh (j + 1) none_
      rw [noGot, noCount]
      exact Or.inr rfl
    · rw [here] at there
      cases there
      exact Or.inl exited

theorem counted_kid {i : Nat} {input : Input} (before : Standing job old u.job) (after : Standing job old v.job)
    (inv : Counted u) (step : countStep job u (.kid i input) = some v) : Counted v := by
  have taken := count_step_job step
  obtain ⟨own, was, moved⟩ := Option.bind_eq_some_iff.mp taken
  obtain ⟨others, sent, ⟨pc, now⟩, bytes⟩ := kid_step_others moved
  have counts := count_step_kid step
  have aside : ∀ k, k ≠ i → v.counts k = u.counts k := by
    intro k ne
    rw [counts]
    split
    · exact Function.update_of_ne ne _ _
    · rfl
  constructor
  · intro k none_
    have ne : k ≠ i := by
      rintro rfl
      rw [now] at none_
      cases none_
    rw [(others k ne).1, aside k ne]
    exact inv.fresh k ((others k ne).2 ▸ none_)
  · intro j kid e here wc found
    by_cases mine : j + 1 = i
    · subst mine
      have older := pipe_older before.wired taken was found
      rw [now] at here
      cases here
      have alive : own.pc ≠ .exited := by
        intro exited
        rw [exited_stays exited] at moved
        cases moved
      have so_far := (inv.counts j own e was wc older).resolve_left alive
      by_cases counting : inLoop u.job (j + 1) = true
      · -- the loop counts what the read has brought
        have inLoop_ : own.pc = .command .counting := by
          rw [inLoop, was, Option.any_some] at counting
          split at counting
          · assumption
          · cases counting
        obtain ⟨more, grown⟩ := (job_step_change before.wired taken).got (j + 1)
        right
        rw [counts, if_pos counting, Function.update_self, so_far, ← grown, List.drop_left, ← count_buffer_append]
      · rw [counts, if_neg counting]
        rcases bytes with still | ⟨stage, inside⟩
        · rw [still]
          exact Or.inr so_far
        · -- behind the loop nothing is left to be read
          have past : stage ≠ .counting := by
            rintro rfl
            rw [inLoop, was, Option.any_some, inside] at counting
            exact counting rfl
          have drained := before.drained j own stage e was wc inside past older
          have still := drained_change before.wired after.wired after.ordered (job_step_change before.wired taken) older
            drained
          have sentSame : v.job.sent j = u.job.sent j := by
            rw [sent]
            exact Function.update_of_ne (Nat.ne_of_lt (Nat.lt_succ_self j)) _ _
          rw [still.1, sentSame, ← drained.1]
          exact Or.inr so_far
    · rw [(others (j + 1) mine).1, aside (j + 1) mine]
      have same := (others (j + 1) mine).2 ▸ here
      exact inv.counts j kid e same wc (pipe_older before.wired taken same found)

theorem counted_start (begun : JobStart job start) : Counted ⟨start, fun _ => noCounts⟩ := by
  constructor
  · intro i _
    dsimp only
    rw [begun.got]
    exact ⟨rfl, rfl⟩
  · intro j kid e here
    dsimp only at here
    rw [begun.kids] at here
    cases here

theorem counted_run (begun : JobStart job start) (run : CountReached job start u) :
    JobRun job start u.job ∧ Counted u := by
  refine reaches_invariant (fun u => JobRun job start u.job ∧ Counted u) ?_ ?_ run
  · rintro _ rfl
    exact ⟨Reaches.start rfl, counted_start begun⟩
  · intro u event v both step
    obtain ⟨before, inv⟩ := both
    have later : JobRun job start v.job := Reaches.next before (count_step_job step)
    have standing := standing_run begun before
    have after := standing_run begun later
    refine ⟨later, ?_⟩
    cases event with
    | kid i input => exact counted_kid standing after inv step
    | _ => exact counted_besides standing.wired inv step (by intro _ _ same; cases same)

end Runs

/-- The wc behind a bar prints the lines, words and bytes of all that the command in front of it has put
    into the pipe, however the reads cut it, and nobody can put more into it. -/
structure CountsWhole (s : CountRun) : Prop where
  counted : ∀ j kid stage e, s.job.kids (j + 1) = some kid → parseCommand kid.segment = .wc →
    kid.pc = .command stage → stage ≠ .counting → s.job.ends j = some e → (s.job.sent j).length < 2 ^ 63 →
      printCounts (s.counts (j + 1)) = some (report (s.job.sent j)) ∧
        ∀ u fd, s.job.run.run.files.tables u fd ≠ some (.heap e.write)

end Archarch.Shell
