import Archarch.Files.ReadExtents

/- The line that fd_read takes from the console, as an edited text: what the loop has stored and
   returns for any keys that are typed, one round for each key. -/
namespace Archarch.Descriptors

abbrev EndsLine (c : Byte) : Prop := c = 0x0D ∨ c = 0x0A
abbrev Erases (c : Byte) : Prop := c = 127 ∨ c = 8
abbrev Printable (c : Byte) : Prop := 32 ≤ c.toNat ∧ c.toNat < 127

def editKey (text : List Byte) (c : Byte) : List Byte :=
  if Erases c then text.dropLast else if Printable c then text ++ [c] else text

def edit (keys : List Byte) : List Byte := keys.foldl editKey []

structure Unfinished (count : Nat) (keys : List Byte) : Prop where
  open_line : ∀ c ∈ keys, ¬ EndsLine c
  room : ∀ front, front <+: keys → (edit front).length + 1 < count

/-- The keys that make up a line for a buffer of count bytes, and the line: it ends with a newline,
    or with the character that makes count - 1. -/
inductive Taken (count : Nat) : List Byte → List Byte → Prop where
  | ended {keys : List Byte} {c : Byte} (before : Unfinished count keys) (newline : EndsLine c) :
      Taken count (keys ++ [c]) (edit keys ++ [0x0A])
  | filled {keys : List Byte} (open_line : ∀ c ∈ keys, ¬ EndsLine c)
      (room : ∀ front, front <+: keys → front ≠ keys → (edit front).length + 1 < count)
      (full : (edit keys).length + 1 = count) : Taken count keys (edit keys)

def TypedLine (count : Nat) (typed line : List Byte) : Prop :=
  ∃ keys, keys <+: typed ∧ Taken count keys line

def textOf (memory : Nat → Byte) (i : Nat) (stores : Stores) : List Byte :=
  (List.range i).map (putStores memory stores)

/-- The call stores in front of count only, and what it returns is the number of bytes of the line
    that was typed, which the buffer then holds. -/
structure LineFaithful (count : Nat) (typed : List Byte) : Prop where
  inside : ∀ w ∈ lineStores (lineLimit count) 0 typed, w.1 < count
  returned : ∀ i stores, fdReadConsole count typed = some (i, stores) → intOf i ≤ count ∧
    ∃ line, TypedLine count typed line ∧ intOf i = line.length ∧
      ∀ memory, textOf memory line.length stores = line

/-- count - 1 is no word below 0 unless nothing is stored, and the length of the line is an int. -/
def CountFits (count : Nat) (typed : List Byte) : Prop :=
  (count = 0 → ∀ c ∈ typed, ¬ EndsLine c ∧ ¬ Printable c) ∧
    ∀ line, TypedLine count typed line → line.length < 2 ^ 31

structure LineState where
  i : Nat
  stores : Stores
  ended : Bool

def consoleStep (limit : Nat) (s : LineState) (c : Byte) : LineState :=
  if s.ended = false ∧ s.i < limit then
    if EndsLine c then ⟨s.i + 1, s.stores ++ [(s.i, 0x0A)], true⟩
    else if Erases c then { s with i := s.i - 1 }
    else if Printable c then ⟨s.i + 1, s.stores ++ [(s.i, c)], false⟩
    else s
  else s

def consoleState (limit : Nat) (typed : List Byte) : LineState :=
  typed.foldl (consoleStep limit) ⟨0, [], false⟩

abbrev LineState.Running (limit : Nat) (s : LineState) : Prop := s.ended = false ∧ s.i < limit

section Rounds
variable {limit i : Nat} {s : LineState} {c : Byte} {typed : List Byte}

theorem console_step_stopped (stopped : ¬ s.Running limit) : consoleStep limit s c = s :=
  if_neg stopped

theorem console_step_newline (running : s.Running limit) (newline : EndsLine c) :
    consoleStep limit s c = ⟨s.i + 1, s.stores ++ [(s.i, 0x0A)], true⟩ := by
  rw [consoleStep, if_pos running, if_pos newline]

theorem console_step_erase (running : s.Running limit) (other : ¬ EndsLine c) (erase : Erases c) :
    consoleStep limit s c = { s with i := s.i - 1 } := by
  rw [consoleStep, if_pos running, if_neg other, if_pos erase]

theorem console_step_char (running : s.Running limit) (other : ¬ EndsLine c) (kept : ¬ Erases c)
    (shown : Printable c) : consoleStep limit s c = ⟨s.i + 1, s.stores ++ [(s.i, c)], false⟩ := by
  rw [consoleStep, if_pos running, if_neg other, if_neg kept, if_pos shown]

theorem console_step_ignored (running : s.Running limit) (other : ¬ EndsLine c) (kept : ¬ Erases c)
    (hidden : ¬ Printable c) : consoleStep limit s c = s := by
  rw [consoleStep, if_pos running, if_neg other, if_neg kept, if_neg hidden]

theorem console_stopped (stopped : ¬ s.Running limit) (typed : List Byte) :
    typed.foldl (consoleStep limit) s = s := by
  induction typed with
  | nil => rfl
  | cons c rest ih => rw [List.foldl_cons, console_step_stopped stopped, ih]

theorem console_loop_rounds (limit : Nat) (typed : List Byte) (running : s.ended = false) :
    consoleLoop limit s.i s.stores typed =
        (if (typed.foldl (consoleStep limit) s).Running limit then none
          else some ((typed.foldl (consoleStep limit) s).i, (typed.foldl (consoleStep limit) s).stores)) ∧
      (typed.foldl (consoleStep limit) s).stores = s.stores ++ lineStores limit s.i typed := by
  induction typed generalizing s with
  | nil =>
    constructor
    · simp only [consoleLoop, List.foldl_nil, LineState.Running, running, true_and]
    · exact (List.append_nil _).symm
  | cons c rest ih =>
    rw [consoleLoop, lineStores, List.foldl_cons]
    by_cases room : s.i < limit
    · have going : s.Running limit := ⟨running, room⟩
      rw [if_pos room, if_pos room]
      by_cases newline : EndsLine c
      · have stopped : ¬ LineState.Running limit ⟨s.i + 1, s.stores ++ [(s.i, 0x0A)], true⟩ := by
          simp [LineState.Running]
        rw [if_pos newline, if_pos newline, console_step_newline going newline,
          console_stopped stopped, if_neg stopped]
        exact ⟨rfl, rfl⟩
      · rw [if_neg newline, if_neg newline]
        by_cases erase : Erases c
        · rw [if_pos erase, if_pos erase, console_step_erase going newline erase]
          exact ih (s := { s with i := s.i - 1 }) running
        · rw [if_neg erase, if_neg erase]
          by_cases shown : Printable c
          · obtain ⟨loop, stores⟩ := ih (s := ⟨s.i + 1, s.stores ++ [(s.i, c)], false⟩) rfl
            rw [if_pos shown, if_pos shown, console_step_char going newline erase shown]
            refine ⟨loop, ?_⟩
            rw [stores, List.append_assoc, List.singleton_append]
          · rw [if_neg shown, if_neg shown, console_step_ignored going newline erase shown]
            exact ih running
    · have stopped : ¬ s.Running limit := fun going => room going.2
      rw [if_neg room, if_neg room, console_step_stopped stopped, console_stopped stopped,
        if_neg stopped]
      exact ⟨rfl, (List.append_nil _).symm⟩

end Rounds

section Text
variable {memory : Nat → Byte} {i : Nat} {stores : Stores} {c : Byte} {text : List Byte}

def HoldsText (i : Nat) (stores : Stores) (text : List Byte) : Prop :=
  text.length = i ∧ ∀ memory, textOf memory i stores = text

theorem text_append (holds : HoldsText i stores text) : HoldsText (i + 1) (stores ++ [(i, c)]) (text ++ [c]) := by
  obtain ⟨length, same⟩ := holds
  constructor
  · simp [length]
  · intro memory
    have old : ∀ k ∈ List.range i, putStores memory (stores ++ [(i, c)]) k = putStores memory stores k := by
      intro k member
      have below := List.mem_range.mp member
      rw [putStores, List.foldl_append]
      exact Function.update_of_ne (by omega) _ _
    have new : putStores memory (stores ++ [(i, c)]) i = c := by
      rw [putStores, List.foldl_append]
      exact Function.update_self _ _ _
    rw [textOf, List.range_succ, List.map_append, List.map_congr_left old, List.map_singleton, new]
    exact congrArg (· ++ [c]) (same memory)

theorem text_drop (holds : HoldsText i stores text) : HoldsText (i - 1) stores text.dropLast := by
  obtain ⟨length, same⟩ := holds
  constructor
  · simp [length]
  · intro memory
    rw [← same memory, textOf, textOf, ← List.map_dropLast]
    cases i with
    | zero => rfl
    | succ i => rw [List.range_succ, List.dropLast_concat, Nat.add_sub_cancel]

end Text

section Lines
variable {count : Nat} {keys typed more line other front : List Byte} {c : Byte}

theorem edit_concat (keys : List Byte) (c : Byte) : edit (keys ++ [c]) = editKey (edit keys) c := by
  rw [edit, List.foldl_append]
  rfl

theorem erases_not_printable (erase : Erases c) : ¬ Printable c := by
  rcases erase with rfl | rfl
  · decide
  · decide

theorem unfinished_concat (unfinished : Unfinished count keys) (same : ¬ EndsLine c)
    (room : (edit (keys ++ [c])).length + 1 < count) : Unfinished count (keys ++ [c]) := by
  constructor
  · intro d member
    rcases List.mem_append.mp member with old | new
    · exact unfinished.open_line d old
    · rw [List.mem_singleton.mp new]
      exact same
  · intro front before
    rcases List.prefix_concat_iff.mp before with rfl | old
    · exact room
    · exact unfinished.room front old

theorem unfinished_before (unfinished : Unfinished count keys) (before : front <+: keys) :
    Unfinished count front :=
  ⟨fun d member => unfinished.open_line d (before.subset member),
    fun part earlier => unfinished.room part (earlier.trans before)⟩

theorem typed_line_append (typed_line : TypedLine count typed line) (more : List Byte) :
    TypedLine count (typed ++ more) line := by
  obtain ⟨keys, before, taken⟩ := typed_line
  exact ⟨keys, before.trans (List.prefix_append typed more), taken⟩

theorem taken_not_unfinished (taken : Taken count keys line) : ¬ Unfinished count keys := by
  intro unfinished
  cases taken with
  | @ended keys c before newline => exact unfinished.open_line c (by simp) newline
  | filled open_line room full =>
    have less := unfinished.room keys (List.prefix_refl keys)
    omega

theorem taken_front (taken : Taken count keys line) (before : front <+: keys) (proper : front ≠ keys) :
    Unfinished count front := by
  cases taken with
  | ended earlier newline =>
    rcases List.prefix_concat_iff.mp before with whole | inside
    · exact absurd whole proper
    · exact unfinished_before earlier inside
  | filled open_line room full =>
    constructor
    · intro d member
      exact open_line d (before.subset member)
    · intro part earlier
      apply room part (earlier.trans before)
      rintro rfl
      exact proper (before.eq_of_length_le earlier.length_le)

theorem taken_line_unique (first : Taken count keys line) (second : Taken count keys other) :
    line = other := by
  cases first with
  | @ended front c before newline =>
    generalize whole : front ++ [c] = all at second
    cases second with
    | @ended front' c' before' newline' =>
      have same := List.append_inj' whole rfl
      rw [same.1]
    | filled open_line room full =>
      subst whole
      exact absurd newline (open_line c (by simp))
  | filled open_line room full =>
    cases second with
    | @ended front c before newline => exact absurd newline (open_line c (by simp))
    | filled open_line' room' full' => rfl

theorem typed_line_unique (first : TypedLine count typed line) (second : TypedLine count typed other) :
    line = other := by
  obtain ⟨keys, before, taken⟩ := first
  obtain ⟨keys', before', taken'⟩ := second
  have same : keys = keys' := by
    by_contra different
    rcases List.prefix_or_prefix_of_prefix before before' with inside | inside
    · exact taken_not_unfinished taken (taken_front taken' inside different)
    · exact taken_not_unfinished taken' (taken_front taken inside (Ne.symm different))
  subst same
  exact taken_line_unique taken taken'

theorem typed_line_positive (typed_line : TypedLine count typed line) : 0 < count := by
  obtain ⟨keys, before, taken⟩ := typed_line
  cases taken with
  | ended earlier newline =>
    have room := earlier.room [] List.nil_prefix
    omega
  | filled open_line room full => omega

theorem unfinished_no_line (unfinished : Unfinished count typed) : ¬ TypedLine count typed line := by
  rintro ⟨keys, before, taken⟩
  exact taken_not_unfinished taken (unfinished_before unfinished before)

end Lines

structure LineInv (limit : Nat) (typed : List Byte) (s : LineState) : Prop where
  inside : ∀ w ∈ s.stores, w.1 < limit
  going : s.Running limit → Unfinished (limit + 1) typed ∧ HoldsText s.i s.stores (edit typed)
  stopped : ¬ s.Running limit → s.i ≤ limit ∧
    ∃ line, TypedLine (limit + 1) typed line ∧ HoldsText s.i s.stores line

section Invariant
variable {limit : Nat} {typed : List Byte} {s : LineState} {c : Byte}

theorem line_inv_start (limit : Nat) : LineInv limit [] ⟨0, [], false⟩ := by
  have empty : HoldsText 0 [] (edit []) := ⟨rfl, fun memory => rfl⟩
  have only : ∀ front : List Byte, front <+: [] → front = [] := fun front before =>
    List.prefix_nil.mp before
  constructor
  · intro w member
    cases member
  · intro running
    refine ⟨⟨fun c member => ?_, fun front before => ?_⟩, empty⟩
    · cases member
    · rw [only front before]
      have room := running.2
      exact Nat.succ_lt_succ room
  · intro stopped
    have none_left : limit = 0 := by
      by_contra some_left
      exact stopped ⟨rfl, Nat.pos_of_ne_zero some_left⟩
    subst none_left
    refine ⟨Nat.le_refl 0, edit [], ⟨[], List.prefix_refl [], .filled ?_ ?_ rfl⟩, empty⟩
    · intro c member
      cases member
    · intro front before proper
      exact absurd (only front before) proper

theorem line_inv_key {i : Nat} {stores : Stores} (inv : LineInv limit typed s) (running : s.Running limit)
    (same : ¬ EndsLine c) (inside : ∀ w ∈ stores, w.1 < limit) (small : i ≤ limit)
    (holds : HoldsText i stores (editKey (edit typed) c)) : LineInv limit (typed ++ [c]) ⟨i, stores, false⟩ := by
  have unfinished := (inv.going running).1
  rw [← edit_concat] at holds
  refine ⟨inside, fun still => ?_, fun full => ?_⟩
  · refine ⟨unfinished_concat unfinished same ?_, holds⟩
    have room := still.2
    rw [holds.1]
    exact Nat.succ_lt_succ room
  · have reached : i = limit := by
      by_contra below
      exact full ⟨rfl, Nat.lt_of_le_of_ne small below⟩
    refine ⟨small, edit (typed ++ [c]), ⟨typed ++ [c], List.prefix_refl _, .filled ?_ ?_ ?_⟩, holds⟩
    · intro d member
      rcases List.mem_append.mp member with old | new
      · exact unfinished.open_line d old
      · rw [List.mem_singleton.mp new]
        exact same
    · intro front before proper
      rcases List.prefix_concat_iff.mp before with whole | earlier
      · exact absurd whole proper
      · exact unfinished.room front earlier
    · rw [holds.1, reached]

theorem line_inv_step (inv : LineInv limit typed s) (c : Byte) :
    LineInv limit (typed ++ [c]) (consoleStep limit s c) := by
  by_cases running : s.Running limit
  · obtain ⟨unfinished, holds⟩ := inv.going running
    have one : ∀ b : Byte, ∀ w ∈ s.stores ++ [(s.i, b)], w.1 < limit := by
      intro b w member
      rcases List.mem_append.mp member with old | new
      · exact inv.inside w old
      · rw [List.mem_singleton.mp new]
        exact running.2
    have room := running.2
    by_cases newline : EndsLine c
    · rw [console_step_newline running newline]
      refine ⟨one 0x0A, fun still => absurd still.1 (by simp), fun _ => ⟨room, ?_⟩⟩
      exact ⟨edit typed ++ [0x0A], ⟨typed ++ [c], List.prefix_refl _, .ended unfinished newline⟩,
        text_append holds⟩
    · by_cases erase : Erases c
      · have shorter : editKey (edit typed) c = (edit typed).dropLast := if_pos erase
        rw [console_step_erase running newline erase, running.1]
        apply line_inv_key inv running newline inv.inside (by omega)
        rw [shorter]
        exact text_drop holds
      · by_cases shown : Printable c
        · have longer : editKey (edit typed) c = edit typed ++ [c] := by
            rw [editKey, if_neg erase, if_pos shown]
          rw [console_step_char running newline erase shown]
          apply line_inv_key inv running newline (one c) room
          rw [longer]
          exact text_append holds
        · have still : editKey (edit typed) c = edit typed := by
            rw [editKey, if_neg erase, if_neg shown]
          have kept : s = ⟨s.i, s.stores, false⟩ := by
            rw [← running.1]
          rw [console_step_ignored running newline erase shown, kept]
          apply line_inv_key inv running newline inv.inside (by omega)
          rw [still]
          exact holds
  · obtain ⟨small, line, typed_line, holds⟩ := inv.stopped running
    rw [console_step_stopped running]
    exact ⟨inv.inside, fun still => absurd still running,
      fun _ => ⟨small, line, typed_line_append typed_line [c], holds⟩⟩

theorem line_inv (limit : Nat) (typed : List Byte) : LineInv limit typed (consoleState limit typed) := by
  induction typed using List.reverseRecOn with
  | nil => exact line_inv_start limit
  | append_singleton typed c ih =>
    rw [consoleState, List.foldl_append]
    exact line_inv_step ih c

end Invariant

section Calls
variable {count limit i : Nat} {typed line : List Byte} {stores : Stores}

theorem fd_read_console_rounds (count : Nat) (typed : List Byte) :
    fdReadConsole count typed =
        (if (consoleState (lineLimit count) typed).Running (lineLimit count) then none
          else some ((consoleState (lineLimit count) typed).i, (consoleState (lineLimit count) typed).stores)) ∧
      (consoleState (lineLimit count) typed).stores = lineStores (lineLimit count) 0 typed := by
  have rounds := console_loop_rounds (s := ⟨0, [], false⟩) (lineLimit count) typed rfl
  rw [List.nil_append] at rounds
  exact rounds

theorem line_limit_succ (fits : limit + 1 < 2 ^ 32) : lineLimit (limit + 1) = limit := by
  simp only [lineLimit]
  omega

theorem int_of_large (large : 2 ^ 31 ≤ i) (fits : i < 2 ^ 32) : intOf i < 0 := by
  rw [intOf, BitVec.toInt_ofNat', Int.bmod_def]
  split
  · omega
  · omega

theorem console_line (fits : limit + 1 < 2 ^ 32) (typed : List Byte) :
    (∀ w ∈ lineStores (lineLimit (limit + 1)) 0 typed, w.1 < limit) ∧
      ∀ i stores, fdReadConsole (limit + 1) typed = some (i, stores) →
        i ≤ limit ∧ ∃ line, TypedLine (limit + 1) typed line ∧ HoldsText i stores line := by
  have inv := line_inv limit typed
  have rounds := fd_read_console_rounds (limit + 1) typed
  rw [line_limit_succ fits] at rounds ⊢
  obtain ⟨read, stored⟩ := rounds
  constructor
  · rw [← stored]
    exact inv.inside
  · intro i stores returned
    rw [read] at returned
    by_cases running : (consoleState limit typed).Running limit
    · rw [if_pos running] at returned
      cases returned
    · rw [if_neg running] at returned
      cases returned
      exact inv.stopped running

theorem console_line_returns (fits : limit + 1 < 2 ^ 32) (typed_line : TypedLine (limit + 1) typed line) :
    ∃ i stores, fdReadConsole (limit + 1) typed = some (i, stores) := by
  have inv := line_inv limit typed
  have rounds := (fd_read_console_rounds (limit + 1) typed).1
  rw [line_limit_succ fits] at rounds
  have stopped : ¬ (consoleState limit typed).Running limit := fun running =>
    unfinished_no_line (inv.going running).1 typed_line
  rw [if_neg stopped] at rounds
  exact ⟨_, _, rounds⟩

theorem line_stores_nil (room : 0 < limit) :
    lineStores limit 0 typed = [] ↔ ∀ c ∈ typed, ¬ EndsLine c ∧ ¬ Printable c := by
  induction typed with
  | nil => simp [lineStores]
  | cons c rest ih =>
    rw [lineStores, if_pos room, List.forall_mem_cons]
    by_cases newline : EndsLine c
    · rw [if_pos newline]
      simp [newline]
    · rw [if_neg newline]
      by_cases erase : Erases c
      · have hidden := erases_not_printable erase
        rw [if_pos erase, ih]
        simp only [newline, hidden, not_false_eq_true, and_self, true_and]
      · rw [if_neg erase]
        by_cases shown : Printable c
        · rw [if_pos shown]
          simp [shown]
        · rw [if_neg shown, ih]
          simp only [newline, shown, not_false_eq_true, and_self, true_and]

theorem console_loop_waits (room : 0 < limit) (ignored : ∀ c ∈ typed, ¬ EndsLine c ∧ ¬ Printable c) :
    consoleLoop limit 0 [] typed = none := by
  induction typed with
  | nil => rw [consoleLoop, if_pos room]
  | cons c rest ih =>
    obtain ⟨newline, shown⟩ := ignored c List.mem_cons_self
    have later := ih fun d member => ignored d (List.mem_cons_of_mem c member)
    rw [consoleLoop, if_pos room, if_neg newline, if_neg shown]
    split
    · exact later
    · exact later

end Calls

/-- The console branch of fd_read with a count of 32 bits: exactly with a count that is not 0, or
    keys that store nothing, and a line whose length is an int, it stores inside the buffer and
    returns the line that was typed. -/
theorem console_line_iff (count : Nat) (typed : List Byte) (fits : count < 2 ^ 32) :
    LineFaithful count typed ↔ CountFits count typed := by
  cases count with
  | zero =>
    have room : 0 < lineLimit 0 := by decide
    constructor
    · intro faithful
      refine ⟨fun _ => (line_stores_nil room).mp ?_, fun line typed_line => ?_⟩
      · apply List.eq_nil_iff_forall_not_mem.mpr
        intro w member
        exact Nat.not_lt_zero _ (faithful.inside w member)
      · exact absurd (typed_line_positive typed_line) (Nat.lt_irrefl 0)
    · rintro ⟨ignored, short⟩
      constructor
      · rw [(line_stores_nil room).mpr (ignored rfl)]
        intro w member
        cases member
      · intro i stores returned
        have waits : fdReadConsole 0 typed = none := console_loop_waits room (ignored rfl)
        rw [waits] at returned
        cases returned
  | succ limit =>
    obtain ⟨inside, returned⟩ := console_line fits typed
    constructor
    · intro faithful
      refine ⟨fun zero => absurd zero (Nat.succ_ne_zero limit), fun line typed_line => ?_⟩
      obtain ⟨i, stores, done⟩ := console_line_returns fits typed_line
      obtain ⟨small, text, typed_text, holds⟩ := returned i stores done
      obtain ⟨least, answer, typed_answer, number, held⟩ := faithful.returned i stores done
      have first := typed_line_unique typed_line typed_text
      subst first
      have second := typed_line_unique typed_line typed_answer
      subst second
      by_contra large
      have negative := int_of_large (i := i) (by have length := holds.1; omega) (by omega)
      omega
    · rintro ⟨-, short⟩
      constructor
      · intro w member
        exact (inside w member).trans (Nat.lt_succ_self limit)
      · intro i stores done
        obtain ⟨small, line, typed_line, holds⟩ := returned i stores done
        have length := holds.1
        subst length
        have number := int_of_nat (short line typed_line)
        refine ⟨?_, line, typed_line, number, holds.2⟩
        rw [number]
        omega

/-- "ls", a backspace, "x", a CR and one key more. -/
theorem console_line_iff_at :
    LineFaithful 8 [0x6C, 0x73, 8, 0x78, 0x0D, 0x6C] ↔ CountFits 8 [0x6C, 0x73, 8, 0x78, 0x0D, 0x6C] :=
  console_line_iff 8 _ (by decide)

/-- A CR for a buffer of no bytes: a newline goes behind the buffer, and 1 is returned. -/
theorem empty_buffer_stores :
    fdReadConsole 0 [0x0D] = some (1, [(0, 0x0A)]) ∧ ¬ LineFaithful 0 [0x0D] := by
  constructor
  · decide
  · intro faithful
    have inside := faithful.inside (0, 0x0A) (by decide)
    exact Nat.not_lt_zero 0 inside

end Archarch.Descriptors
