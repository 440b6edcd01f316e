import Archarch.Files.ReadOverflow

/- Where a call of fd_read stores behind the pointer of its caller, whatever the descriptor names and
   also while the call waits or does not end. -/
namespace Archarch.Descriptors
open KernelHeap Fat16

structure Filled (n : Nat) (stores : Stores) : Prop where
  below : ∀ w ∈ stores, w.1 < n
  whole : ∀ k, k < n → ∃ w ∈ stores, w.1 = k

def lineStores (limit i : Nat) : List Byte → Stores
  | [] => []
  | c :: rest =>
    if i < limit then
      if c = 0x0D ∨ c = 0x0A then [(i, 0x0A)]
      else if c = 127 ∨ c = 8 then lineStores limit (i - 1) rest
      else if 32 ≤ c.toNat ∧ c.toNat < 127 then (i, c) :: lineStores limit (i + 1) rest
      else lineStores limit i rest
    else []

def lineReach (limit i : Nat) : List Byte → Nat
  | [] => i
  | c :: rest =>
    if i < limit then
      if c = 0x0D ∨ c = 0x0A then i + 1
      else if c = 127 ∨ c = 8 then max i (lineReach limit (i - 1) rest)
      else if 32 ≤ c.toNat ∧ c.toNat < 127 then lineReach limit (i + 1) rest
      else lineReach limit i rest
    else i

def numbered (bytes : List Byte) : Stores := (List.range bytes.length).zip bytes

def lineLimit (count : Nat) : Nat := (count + 2 ^ 32 - 1) % 2 ^ 32

def pipeExtent (s : FilesRun) (q count : Nat) : Nat :=
  match s.files.pipes q with
  | none => 0
  | some p => min count p.count

/-- A read stores at offset k of its buffer before it yields or returns: what fdRead says, the line
    of the console as far as it has come, the first pass over a file behind some cluster. -/
def Stored (fs : Fs) (s : FilesRun) (task : Nat) (fd : Int) (args : ReadArgs) (k : Nat) : Prop :=
  (∃ result stores run, fdRead fs s task fd args = some (result, stores, run) ∧ ∃ w ∈ stores, w.1 = k) ∨
    ∃ f, (s.files.slot task fd).bind s.files.deref = some f ∧
      (f.type = .console ∧ (∃ w ∈ lineStores (lineLimit args.count) 0 args.typed, w.1 = k) ∨
        f.type = .file ∧ f.position < f.fileSize ∧ ∃ n, StoredAt (passAfter fs f.fat (passSize f args.count) n) k)

/-- Offset k is in front of what there is for the read: of the line as far as it was ever typed, of
    the bytes in the pipe, of the sectors of the file from its start to the end of what was asked
    for. -/
def Reachable (fs : Fs) (s : FilesRun) (task : Nat) (fd : Int) (args : ReadArgs) (k : Nat) : Prop :=
  match (s.files.slot task fd).bind s.files.deref with
  | none => False
  | some f =>
    match f.type with
    | .console => k < lineReach (lineLimit args.count) 0 args.typed
    | .pipe => k < (f.pipe.map fun q => pipeExtent s q args.count).getD 0
    | .file => f.position < f.fileSize ∧ k < passLength (min f.fileSize (passSize f args.count)) ∧
      Good fs f.fat (k / 512)
    | .none => False

section Filling
variable {n m : Nat} {stores more : Stores}

theorem filled_nil : Filled 0 [] := ⟨by simp, fun k bound => by omega⟩

theorem filled_iff {k : Nat} (filled : Filled n stores) : (∃ w ∈ stores, w.1 = k) ↔ k < n := by
  constructor
  · rintro ⟨w, member, rfl⟩
    exact filled.below w member
  · exact filled.whole k

theorem filled_append (first : Filled n stores) (second : ∀ w ∈ more, w.1 < m)
    (rest : ∀ k, n ≤ k → k < m → ∃ w ∈ more, w.1 = k) : Filled (max n m) (stores ++ more) := by
  constructor
  · intro w member
    rcases List.mem_append.mp member with old | new
    · exact (first.below w old).trans_le (Nat.le_max_left _ _)
    · exact (second w new).trans_le (Nat.le_max_right _ _)
  · intro k bound
    by_cases old : k < n
    · obtain ⟨w, member, here⟩ := first.whole k old
      exact ⟨w, List.mem_append_left _ member, here⟩
    · obtain ⟨w, member, here⟩ := rest k (by omega) (by omega)
      exact ⟨w, List.mem_append_right _ member, here⟩

theorem filled_numbered (bytes : List Byte) : Filled bytes.length (numbered bytes) := by
  have length : (List.range bytes.length).length ≤ bytes.length := by rw [List.length_range]
  constructor
  · intro w member
    exact List.mem_range.mp (List.of_mem_zip member).1
  · intro k bound
    have offsets : (numbered bytes).map Prod.fst = List.range bytes.length := List.map_fst_zip length
    have here : k ∈ (numbered bytes).map Prod.fst := by
      rw [offsets]
      exact List.mem_range.mpr bound
    exact List.mem_map.mp here

end Filling

section Console

theorem console_loop_stores {limit i j : Nat} {stores out : Stores} {typed : List Byte}
    (ends : consoleLoop limit i stores typed = some (j, out)) : out = stores ++ lineStores limit i typed := by
  induction typed generalizing i stores with
  | nil =>
    rw [consoleLoop] at ends
    split at ends
    · cases ends
    · cases ends
      exact (List.append_nil _).symm
  | cons c rest ih =>
    rw [consoleLoop] at ends
    rw [lineStores]
    by_cases room : i < limit
    · rw [if_pos room] at ends ⊢
      by_cases newline : c = 0x0D ∨ c = 0x0A
      · rw [if_pos newline] at ends ⊢
        cases ends
        rfl
      · rw [if_neg newline] at ends ⊢
        by_cases erase : c = 127 ∨ c = 8
        · rw [if_pos erase] at ends ⊢
          exact ih ends
        · rw [if_neg erase] at ends ⊢
          by_cases shown : 32 ≤ c.toNat ∧ c.toNat < 127
          · rw [if_pos shown] at ends ⊢
            rw [ih ends, List.append_assoc, List.singleton_append]
          · rw [if_neg shown] at ends ⊢
            exact ih ends
    · rw [if_neg room] at ends ⊢
      cases ends
      exact (List.append_nil _).symm

theorem line_reach_ge (limit i : Nat) (typed : List Byte) : i ≤ lineReach limit i typed := by
  induction typed generalizing i with
  | nil => exact Nat.le_refl _
  | cons c rest ih =>
    rw [lineReach]
    split
    · split
      · omega
      · split
        · exact Nat.le_max_left _ _
        · split
          · exact (Nat.le_succ i).trans (ih (i + 1))
          · exact ih i
    · exact Nat.le_refl _

theorem line_filled {limit i top : Nat} {stores : Stores} (typed : List Byte) (filled : Filled top stores)
    (before : i ≤ top) : Filled (max top (lineReach limit i typed)) (stores ++ lineStores limit i typed) := by
  induction typed generalizing i top stores with
  | nil =>
    rw [lineReach, lineStores, List.append_nil, Nat.max_eq_left before]
    exact filled
  | cons c rest ih =>
    rw [lineReach, lineStores]
    have one : ∀ b : Byte, Filled (max top (i + 1)) (stores ++ [(i, b)]) := by
      intro b
      apply filled_append filled
      · intro w member
        rw [List.mem_singleton.mp member]
        exact Nat.lt_succ_self i
      · intro k low high
        exact ⟨(i, b), List.mem_singleton_self _, by show i = k; omega⟩
    by_cases room : i < limit
    · rw [if_pos room, if_pos room]
      by_cases newline : c = 0x0D ∨ c = 0x0A
      · rw [if_pos newline, if_pos newline]
        exact one 0x0A
      · rw [if_neg newline, if_neg newline]
        by_cases erase : c = 127 ∨ c = 8
        · rw [if_pos erase, if_pos erase, ← Nat.max_assoc, Nat.max_eq_left before]
          exact ih filled (by omega)
        · rw [if_neg erase, if_neg erase]
          by_cases shown : 32 ≤ c.toNat ∧ c.toNat < 127
          · rw [if_pos shown, if_pos shown]
            have later := ih (i := i + 1) (one c) (Nat.le_max_right _ _)
            have past := line_reach_ge limit (i + 1) rest
            rw [Nat.max_assoc, Nat.max_eq_right past, List.append_assoc, List.singleton_append] at later
            exact later
          · rw [if_neg shown, if_neg shown]
            exact ih filled before
    · rw [if_neg room, if_neg room, List.append_nil, Nat.max_eq_left before]
      exact filled

end Console

section Reads
variable {fs : Fs} {s : FilesRun} {task : Nat} {fd : Int} {args : ReadArgs} {stores : Stores}

theorem take_bytes_length (n : Nat) (p : Pipe) : (takeBytes n p).1.length = min n p.count := by
  induction n generalizing p with
  | zero => exact (Nat.zero_min _).symm
  | succ n ih =>
    rw [takeBytes]
    split
    · have popped : p.pop.count = p.count - 1 := rfl
      rw [List.length_cons, ih, popped]
      omega
    · show 0 = _
      omega

theorem pipe_stores_filled (s : FilesRun) (q count : Nat) :
    Filled (pipeExtent s q count) (pipeStores s q count) := by
  rw [pipeExtent, pipeStores]
  cases s.files.pipes q with
  | none => exact filled_nil
  | some p =>
    dsimp only
    rw [readRound]
    by_cases empty : p.count = 0
    · rw [if_pos empty, empty, Nat.min_zero]
      split
      · rename_i closed
        split at closed
        · cases closed
        · exact filled_nil
      · rename_i bytes _ closed
        split at closed
        · cases closed
          exact filled_nil
        · cases closed
    · rw [if_neg empty, ← take_bytes_length]
      exact filled_numbered _

theorem stored_line {typed : List Byte} {limit k : Nat} :
    (∃ w ∈ lineStores limit 0 typed, w.1 = k) ↔ k < lineReach limit 0 typed := by
  have line := @line_filled limit _ _ _ typed filled_nil (Nat.le_refl 0)
  rw [Nat.zero_max, List.nil_append] at line
  exact filled_iff line

theorem file_stored_iff {f : OpenFile} {k : Nat} (found : (s.files.slot task fd).bind s.files.deref = some f)
    (type : f.type = .file) : Stored fs s task fd args k ↔
      f.position < f.fileSize ∧ ∃ n, StoredAt (passAfter fs f.fat (passSize f args.count) n) k := by
  constructor
  · rintro (⟨result, stores, run, read, w, member, rfl⟩ | ⟨f', found', kind⟩)
    · obtain ⟨ptr, slot, live⟩ := Option.bind_eq_some_iff.mp found
      rw [fdRead, slot] at read
      dsimp only at read
      rw [live, Option.bind_some, type] at read
      obtain ⟨r, transfer, same⟩ := Option.map_eq_some_iff.mp read
      cases same
      exact read_file_stored transfer member
    · cases found.symm.trans found'
      rcases kind with ⟨console, _⟩ | ⟨_, stored⟩
      · rw [type] at console
        cases console
      · exact stored
  · intro stored
    exact Or.inr ⟨f, found, Or.inr ⟨type, stored⟩⟩

theorem console_stored_iff {f : OpenFile} {k : Nat} (found : (s.files.slot task fd).bind s.files.deref = some f)
    (type : f.type = .console) : Stored fs s task fd args k ↔
      ∃ w ∈ lineStores (lineLimit args.count) 0 args.typed, w.1 = k := by
  constructor
  · rintro (⟨result, stores, run, read, here⟩ | ⟨f', found', kind⟩)
    · obtain ⟨ptr, slot, live⟩ := Option.bind_eq_some_iff.mp found
      rw [fdRead, slot] at read
      dsimp only at read
      rw [live, Option.bind_some, type] at read
      obtain ⟨r, line, same⟩ := Option.map_eq_some_iff.mp read
      cases same
      have all : r.2 = lineStores (lineLimit args.count) 0 args.typed := console_loop_stores line
      rw [← all]
      exact here
    · cases found.symm.trans found'
      rcases kind with ⟨_, stored⟩ | ⟨file, _⟩
      · exact stored
      · rw [type] at file
        cases file
  · intro stored
    exact Or.inr ⟨f, found, Or.inl ⟨type, stored⟩⟩

theorem pipe_stored_iff {f : OpenFile} {k : Nat} (found : (s.files.slot task fd).bind s.files.deref = some f)
    (type : f.type = .pipe) : Stored fs s task fd args k ↔
      k < (f.pipe.map fun q => pipeExtent s q args.count).getD 0 := by
  obtain ⟨ptr, slot, live⟩ := Option.bind_eq_some_iff.mp found
  have call : fdRead fs s task fd args = (fdReadPipe s task fd args.count).map fun r =>
      (r.1, (f.pipe.map fun q => pipeStores s q args.count).getD [], r.2) := by
    rw [fdRead, slot]
    dsimp only
    rw [live, Option.bind_some, type]
  have stores : (∃ w ∈ (f.pipe.map fun q => pipeStores s q args.count).getD [], w.1 = k) ↔
      k < (f.pipe.map fun q => pipeExtent s q args.count).getD 0 := by
    cases f.pipe with
    | none => exact filled_iff filled_nil
    | some q => exact filled_iff (pipe_stores_filled s q args.count)
  constructor
  · rintro (⟨result, _, run, read, here⟩ | ⟨f', found', kind⟩)
    · rw [call] at read
      obtain ⟨r, _, same⟩ := Option.map_eq_some_iff.mp read
      cases same
      exact stores.mp here
    · cases found.symm.trans found'
      rcases kind with ⟨console, _⟩ | ⟨file, _⟩
      · rw [type] at console
        cases console
      · rw [type] at file
        cases file
  · intro inside
    left
    have here := stores.mpr inside
    have returns : ∃ r, fdReadPipe s task fd args.count = some r := by
      cases ends : f.pipe with
      | none =>
        rw [ends] at inside
        cases inside
      | some q =>
        rw [ends, Option.map_some, Option.getD_some, pipeExtent] at inside
        cases pipe : s.files.pipes q with
        | none =>
          rw [pipe] at inside
          cases inside
        | some p =>
          rw [fdReadPipe, slot]
          simp only [live, ends, readStep, pipe, Option.map_some, Option.bind_eq_bind, Option.bind_some]
          exact ⟨_, rfl⟩
    obtain ⟨r, read⟩ := returns
    refine ⟨r.1, _, r.2, ?_, here⟩
    rw [call, read]
    rfl

/-- The offsets at which a read stores. -/
theorem read_stored_iff {k : Nat} : Stored fs s task fd args k ↔ Reachable fs s task fd args k := by
  rw [Reachable]
  cases found : (s.files.slot task fd).bind s.files.deref with
  | none =>
    dsimp only
    constructor
    · rintro (⟨result, stores, run, read, w, member, _⟩ | ⟨f, found', _⟩)
      · rw [fdRead] at read
        cases slot : s.files.slot task fd with
        | none =>
          rw [slot] at read
          cases read
          cases member
        | some ptr =>
          rw [slot, Option.bind_some] at found
          rw [slot] at read
          dsimp only at read
          rw [found] at read
          cases read
      · rw [found] at found'
        cases found'
    · exact False.elim
  | some f =>
    dsimp only
    cases type : f.type with
    | console =>
      rw [console_stored_iff found type]
      exact stored_line
    | pipe => exact pipe_stored_iff found type
    | file =>
      rw [file_stored_iff found type, pass_stores_iff]
      rfl
    | none =>
      dsimp only
      constructor
      · rintro (⟨result, stores, run, read, w, member, _⟩ | ⟨f', found', kind⟩)
        · obtain ⟨ptr, slot, live⟩ := Option.bind_eq_some_iff.mp found
          rw [fdRead, slot] at read
          dsimp only at read
          rw [live, Option.bind_some, type] at read
          cases read
          cases member
        · cases found.symm.trans found'
          rcases kind with ⟨console, _⟩ | ⟨file, _⟩
          · rw [type] at console
            cases console
          · rw [type] at file
            cases file
      · exact False.elim

end Reads
end Archarch.Descriptors
