import Archarch.Volumes.FileContents
import Archarch.Files.DescriptorCalls

/- Sequential reads of a FAT16 file. Each fd_read stores the file from its start into the buffer
   of its caller before it stores there what was asked for. -/
namespace Archarch.Descriptors
open LabelledRuns KernelHeap Fat16

def OpenFile.fat (f : OpenFile) : Fat16.FatFile := ⟨f.firstCluster, f.fileSize⟩

structure Readable (fs : Fs) (f : OpenFile) : Prop where
  type : f.type = .file
  covers : Covers fs f.fat
  small : f.fileSize < 2 ^ 31

def expected (f : OpenFile) (count : Nat) : Nat := min count (f.fileSize - f.position)

def fileStores (fs : Fs) (first position n : Nat) : Stores :=
  (List.range n).map fun j => (j, fileByte fs first (position + j))

def allStores (fs : Fs) (f : OpenFile) (n : Nat) : Stores :=
  prefixStores fs f.firstCluster (f.position + n) ++ fileStores fs f.firstCluster f.position n

section Words
variable {n : Nat}

theorem word_of_nat (small : n < 2 ^ 32) : wordOf n = n := by
  rw [wordOf, BitVec.ofInt_natCast, BitVec.toNat_ofNat, Nat.mod_eq_of_lt small]

theorem int_of_nat (small : n < 2 ^ 31) : intOf n = n := by
  rw [intOf, BitVec.toInt_eq_toNat_of_lt, BitVec.toNat_ofNat, Nat.mod_eq_of_lt (by omega)]
  rw [BitVec.toNat_ofNat]
  omega

end Words

section Transfers
variable {fs : Fs} {f : OpenFile} {count : Nat}

theorem put_stores_append (memory : Nat → Byte) (stores : Stores) (w : Nat × Byte) :
    putStores memory (stores ++ [w]) = Function.update (putStores memory stores) w.1 w.2 := by
  rw [putStores, List.foldl_append]
  rfl

theorem put_prefix {first d k : Nat} (memory : Nat → Byte) (inside : k < d) :
    putStores memory (prefixStores fs first d) k = fileByte fs first k := by
  induction d with
  | zero => cases inside
  | succ d ih =>
    have grown : prefixStores fs first (d + 1) = prefixStores fs first d ++ [(d, fileByte fs first d)] := by
      rw [prefixStores, List.range_succ, List.map_append]
      rfl
    rw [grown, put_stores_append]
    by_cases last : k = d
    · rw [last, Function.update_self]
    · rw [Function.update_of_ne last]
      exact ih (by omega)

theorem copy_behind_eq {position n : Nat} (first : Nat) (tmpbuf : Nat → Byte) (small : position + n < 2 ^ 31)
    (some_ : 0 < n) : copyBehind position n (readUpTo fs first (position + n)) tmpbuf =
      fileStores fs first position n := by
  have result : (readUpTo fs first (position + n)).result = (position + n : Nat) := read_up_to_result small
  have behind : (position + n + 2 ^ 32 - position) % 2 ^ 32 = n := by omega
  rw [copyBehind, result, int_of_nat (by omega), if_pos (by omega), word_of_nat (by omega), behind,
    Nat.min_self, fileStores]
  apply List.map_congr_left
  intro j inside
  have short : j < n := List.mem_range.mp inside
  have stored : (readUpTo fs first (position + n)).stores = prefixStores fs first (position + n) := rfl
  rw [stored, Nat.mod_eq_of_lt (by omega), put_prefix tmpbuf (by omega)]

theorem fd_read_file_end (block : Option (Nat → Byte)) (ended : f.fileSize ≤ f.position) :
    fdReadFile fs f count block = some ⟨0, [], 0⟩ := by
  rw [fdReadFile, if_pos ended]

theorem first_pass (readable : Readable fs f) (more : f.position < f.fileSize) :
    fat16ReadFile fs f.fat ((f.position + expected f count) % 2 ^ 32) =
      some (readUpTo fs f.firstCluster (f.position + expected f count)) := by
  have small := readable.small
  have upTo : f.position + expected f count ≤ f.fileSize := by
    rw [expected]
    omega
  have size : f.fat.fileSize = f.fileSize := rfl
  rw [fat16_read_file_eq readable.covers small, Nat.mod_eq_of_lt (by omega), size, Nat.min_eq_right upTo]
  rfl

theorem fd_read_file_more (block : Option (Nat → Byte)) (more : f.position < f.fileSize) :
    fdReadFile fs f count block =
      (fat16ReadFile fs f.fat ((f.position + expected f count) % 2 ^ 32)).bind fun first =>
        if first.result < 0 then some ⟨-1, first.stores, 0⟩
        else if f.position < wordOf first.result then
          match block with
          | none => some ⟨-1, first.stores, 0⟩
          | some tmpbuf =>
            (fat16ReadFile fs f.fat ((f.position + expected f count) % 2 ^ 32)).map fun second =>
              ⟨intOf (copyBehind f.position (expected f count) second tmpbuf).length,
                first.stores ++ copyBehind f.position (expected f count) second tmpbuf,
                (copyBehind f.position (expected f count) second tmpbuf).length⟩
        else some ⟨0, first.stores, 0⟩ := by
  rw [fdReadFile, if_neg (by omega)]
  rfl

/-- A read with a block of the heap moves what is left of the file, up to its count. -/
theorem fd_read_file_eq (readable : Readable fs f) (more : f.position < f.fileSize) (tmpbuf : Nat → Byte) :
    fdReadFile fs f count (some tmpbuf) =
      some ⟨(expected f count : Nat), allStores fs f (expected f count), expected f count⟩ := by
  have small := readable.small
  have pass := @first_pass fs f count readable more
  have upTo : f.position + expected f count ≤ f.fileSize := by
    rw [expected]
    omega
  rw [fd_read_file_more (some tmpbuf) more, pass]
  generalize expected f count = n at upTo
  rw [Option.bind_some, read_up_to_result (by omega), if_neg (by omega), word_of_nat (by omega)]
  by_cases some_ : 0 < n
  · have length : (fileStores fs f.firstCluster f.position n).length = n := by
      rw [fileStores, List.length_map, List.length_range]
    dsimp only
    rw [if_pos (by omega), Option.map_some, copy_behind_eq f.firstCluster tmpbuf (by omega) some_, length,
      int_of_nat (by omega)]
    rfl
  · have none : n = 0 := by omega
    rw [none, if_neg (by omega), allStores, fileStores, List.range_zero, List.map_nil, List.append_nil]
    rfl

theorem fd_read_file_no_block (readable : Readable fs f) (more : f.position < f.fileSize) :
    ∃ result stores, fdReadFile fs f count none = some ⟨result, stores, 0⟩ ∧ result.toNat = 0 := by
  have small := readable.small
  have upTo : f.position + expected f count ≤ f.fileSize := by
    rw [expected]
    omega
  rw [fd_read_file_more none more, @first_pass fs f count readable more, Option.bind_some,
    read_up_to_result (by omega), if_neg (by omega)]
  split
  · exact ⟨-1, _, rfl, rfl⟩
  · exact ⟨0, _, rfl, rfl⟩

end Transfers

/-- The task can store at span bytes from buf on. -/
def Room (space : Space) (buf span : Nat) : Prop := ∀ k, k < span → space.writable ((buf + k) % 2 ^ 64) = true

section Buffers
variable {space after : Space} {buf : Nat} {stores : Stores}

theorem store_append (space : Space) (buf : Nat) (stores more : Stores) :
    space.store buf (stores ++ more) = (space.store buf stores).bind fun after => after.store buf more := by
  induction stores generalizing space with
  | nil => rfl
  | cons w rest ih =>
    rw [List.cons_append, Space.store, Space.store]
    split
    · exact ih _
    · rfl

theorem store_writable (stored : space.store buf stores = some after) :
    after.writable = space.writable ∧ ∀ w ∈ stores, space.writable ((buf + w.1) % 2 ^ 64) = true := by
  induction stores generalizing space with
  | nil =>
    cases stored
    exact ⟨rfl, by simp⟩
  | cons w rest ih =>
    rw [Space.store] at stored
    split at stored
    · rename_i here
      obtain ⟨same, all⟩ := ih stored
      refine ⟨same, ?_⟩
      intro v member
      cases member with
      | head => exact here
      | tail _ later => exact all v later
    · cases stored

theorem store_some (all : ∀ w ∈ stores, space.writable ((buf + w.1) % 2 ^ 64) = true) :
    ∃ after, space.store buf stores = some after := by
  induction stores generalizing space with
  | nil => exact ⟨space, rfl⟩
  | cons w rest ih =>
    rw [Space.store, if_pos (all w List.mem_cons_self)]
    apply ih
    intro v member
    exact all v (List.mem_cons_of_mem w member)

theorem store_bytes {b : Nat → Byte} {n : Nat} (small : n < 2 ^ 32)
    (stored : space.store buf ((List.range n).map fun j => (j, b j)) = some after) :
    after.bytes buf n = (List.range n).map b := by
  induction n generalizing after with
  | zero => rfl
  | succ n ih =>
    rw [List.range_succ, List.map_append, store_append] at stored
    obtain ⟨middle, before, last⟩ := Option.bind_eq_some_iff.mp stored
    have bytes := ih (by omega) before
    rw [List.map_singleton, Space.store] at last
    split at last
    · rw [Space.store] at last
      cases last
      rw [Space.bytes, List.range_succ, List.map_append, List.map_append, ← bytes, Space.bytes]
      congr 1
      · apply List.map_congr_left
        intro i inside
        have short : i < n := List.mem_range.mp inside
        have apart : (buf + i) % 2 ^ 64 ≠ (buf + n) % 2 ^ 64 := by omega
        exact Function.update_of_ne apart _ _
      · rw [List.map_singleton, List.map_singleton]
        exact congrArg (fun b => [b]) (Function.update_self _ _ _)
    · cases last

theorem all_stores_writable {fs : Fs} {f : OpenFile} {n : Nat} :
    (∀ w ∈ allStores fs f n, space.writable ((buf + w.1) % 2 ^ 64) = true) ↔
      Room space buf (f.position + n) := by
  constructor
  · intro all k inside
    apply all (k, fileByte fs f.firstCluster k)
    exact List.mem_append_left _ (List.mem_map.mpr ⟨k, List.mem_range.mpr inside, rfl⟩)
  · intro room w member
    rcases List.mem_append.mp member with first | second
    · obtain ⟨k, inside, rfl⟩ := List.mem_map.mp first
      exact room k (List.mem_range.mp inside)
    · obtain ⟨j, inside, rfl⟩ := List.mem_map.mp second
      have short : j < n := List.mem_range.mp inside
      exact room j (by omega)

end Buffers

structure Delivered (fs : Fs) (s : FdRun) (m : Nat) (f : OpenFile) : Prop where
  inside : f.position ≤ f.fileSize
  bytes : s.delivered m = (contents fs f.fat).take f.position

structure DeliveryInv (fs : Fs) (s : FdRun) : Prop where
  run : RunInv s.run
  unborn : ∀ m, s.run.files.nextFile ≤ m → s.delivered m = []
  files : ∀ m f, s.run.files.files m = some f → Readable fs f → Delivered fs s m f

section Delivery
variable {fs : Fs} {s t : FdRun} {f g : OpenFile} {m n task : Nat} {fd : Int}

theorem contents_take {d : Nat} (file : Fat16.FatFile) (inside : d ≤ file.fileSize) :
    (contents fs file).take d = (List.range d).map (fileByte fs file.firstCluster) := by
  rw [contents, ← List.map_take, List.take_range, Nat.min_eq_left inside]

theorem contents_slice {position : Nat} (file : Fat16.FatFile) (inside : position + n ≤ file.fileSize) :
    ((contents fs file).drop position).take n =
      (List.range n).map fun j => fileByte fs file.firstCluster (position + j) := by
  have whole := @contents_take fs _ file inside
  rw [List.take_add, contents_take file (by omega), List.range_add, List.map_append, List.map_map] at whole
  exact List.append_cancel_left whole

theorem readable_extent (same : g.extent = f.extent) (readable : Readable fs g) :
    Readable fs f ∧ g.fat = f.fat ∧ g.position = f.position ∧ g.fileSize = f.fileSize := by
  simp only [OpenFile.extent, Prod.mk.injEq] at same
  obtain ⟨type, first, size, position⟩ := same
  have fat : g.fat = f.fat := by rw [OpenFile.fat, OpenFile.fat, first, size]
  refine ⟨⟨type ▸ readable.type, fat ▸ readable.covers, size ▸ readable.small⟩, fat, position, size⟩

theorem extents_of_round {a b : FilesRun} {q : Nat} (round : RoundOn q a b) : ExtentsKept a.files b.files :=
  extents_of_files round.files round.nextFile

theorem delivery_inv_kept (inv : DeliveryInv fs s) (run : RunInv t.run)
    (kept : ExtentsKept s.run.files t.run.files) (same : t.delivered = s.delivered) : DeliveryInv fs t := by
  constructor
  · exact run
  · intro m later
    rw [same]
    exact inv.unborn m (kept.next.trans later)
  · intro m g found readable
    rcases kept.files m g found with ⟨f, old, extent⟩ | ⟨new, start⟩
    · obtain ⟨readable, fat, position, size⟩ := readable_extent extent readable
      have before := inv.files m f old readable
      constructor
      · rw [position, size]
        exact before.inside
      · rw [same, fat, position]
        exact before.bytes
    · constructor
      · rw [start]
        exact Nat.zero_le _
      · rw [same, start]
        exact inv.unborn m new

theorem transfer_bytes {count buf : Nat} {block : Option (Nat → Byte)} {r : Transfer} {space after : Space}
    (readable : Readable fs f) (inside : f.position ≤ f.fileSize)
    (read : fdReadFile fs f count block = some r) (stored : space.store buf r.stores = some after) :
    f.position + r.moved ≤ f.fileSize ∧
      after.bytes buf r.result.toNat = ((contents fs f.fat).drop f.position).take r.moved := by
  by_cases more : f.position < f.fileSize
  · cases block with
    | none =>
      obtain ⟨result, stores, same, none_⟩ := @fd_read_file_no_block fs f count readable more
      rw [same] at read
      cases read
      constructor
      · exact inside
      · rw [none_, List.take_zero]
        rfl
    | some tmpbuf =>
      have small := readable.small
      rw [fd_read_file_eq readable more tmpbuf] at read
      cases read
      have upTo : f.position + expected f count ≤ f.fileSize := by
        rw [expected]
        omega
      dsimp only at stored ⊢
      rw [allStores, store_append] at stored
      obtain ⟨middle, _, last⟩ := Option.bind_eq_some_iff.mp stored
      constructor
      · exact upTo
      · have bytes := store_bytes (show expected f count < 2 ^ 32 by omega) last
        rw [contents_slice f.fat upTo, Int.toNat_natCast]
        exact bytes
  · rw [fd_read_file_end block (by omega)] at read
    cases read
    constructor
    · exact inside
    · rw [List.take_zero]
      rfl

theorem file_of_some (here : fileOf s.run.files task fd = some m) :
    s.run.files.slot task fd = some (.heap m) ∧ ∃ f, s.run.files.files m = some f ∧ f.type = .file := by
  unfold fileOf at here
  split at here
  · rename_i k slot
    obtain ⟨f, found, rfl⟩ := Option.map_eq_some_iff.mp here
    obtain ⟨found, type⟩ := Option.filter_eq_some_iff.mp found
    exact ⟨slot, f, found, of_decide_eq_true type⟩
  · cases here

theorem fd_read_of_file (args : ReadArgs) (here : fileOf s.run.files task fd = some m)
    (found : s.run.files.files m = some f) : fdRead fs s.run task fd args =
      (fdReadFile fs f args.count args.block).map fun r =>
        (some r.result, r.stores, { s.run with
          files := s.run.files.setFile (.heap m) { f with position := (f.position + r.moved) % 2 ^ 32 } }) := by
  obtain ⟨slot, g, same, type⟩ := file_of_some here
  rw [found] at same
  cases same
  have live : s.run.files.deref (.heap m) = some f := found
  rw [fdRead, slot]
  dsimp only
  rw [live, Option.bind_some, type]

theorem fd_read_other {args : ReadArgs} {result : Option Int} {stores : Stores} {run : FilesRun}
    (inv : RunInv s.run) (other : fileOf s.run.files task fd = none)
    (read : fdRead fs s.run task fd args = some (result, stores, run)) :
    ExtentsKept s.run.files run.files := by
  unfold fdRead at read
  split at read
  · cases read
    exact extents_of_files rfl rfl
  · rename_i ptr slot
    obtain ⟨f, live, rest⟩ := Option.bind_eq_some_iff.mp read
    cases type : f.type with
    | none =>
      simp only [type, Option.some.injEq] at rest
      cases rest
      exact extents_of_files rfl rfl
    | console =>
      simp only [type] at rest
      obtain ⟨r, _, same⟩ := Option.map_eq_some_iff.mp rest
      cases same
      exact extents_of_files rfl rfl
    | pipe =>
      simp only [type] at rest
      obtain ⟨r, piped, same⟩ := Option.map_eq_some_iff.mp rest
      cases same
      rcases fd_read_pipe_cases piped with same | ⟨q, _, round⟩
      · rw [same]
        exact extents_of_files rfl rfl
      · exact extents_of_round (read_step_round round).1
    | file =>
      cases ptr with
      | console =>
        obtain ⟨g, same, console⟩ := inv.files.accounted.console
        rw [live] at same
        cases same
        rw [type] at console
        cases console
      | dummy =>
        rw [inv.files.accounted.dummy] at live
        cases live
      | heap k =>
        have found : s.run.files.files k = some f := live
        simp [fileOf, slot, found, Option.filter, type] at other

theorem delivery_inv_read {buf : Nat} {args : ReadArgs} {space : Space} {r : Option Int × FdRun}
    (inv : DeliveryInv fs s) (may : callable s (.read task fd buf args space))
    (step : fdCall fs s (.read task fd buf args space) = some r) : DeliveryInv fs r.2 := by
  have after := fd_call_inv inv.run may step
  obtain ⟨stores, run, filled, read, stored, same⟩ := read_parts step
  cases here : fileOf s.run.files task fd with
  | none =>
    rw [here] at same
    have kept := fd_read_other inv.run here read
    apply delivery_inv_kept inv after
    · rw [same]
      exact kept
    · rw [same]
      rfl
  | some m =>
    obtain ⟨_, f, found, _⟩ := file_of_some here
    rw [fd_read_of_file args here found] at read
    obtain ⟨transfer, moved, whole⟩ := Option.map_eq_some_iff.mp read
    generalize r.1 = result at whole same
    generalize r.2 = t at same after ⊢
    cases whole
    subst same
    rw [here] at after ⊢
    have old := inv.run.files.accounted.fresh m
    constructor
    · exact after
    · intro k later
      have other : k ≠ m := by
        intro equal
        have none_ : s.run.files.files m = none := old (equal ▸ later)
        rw [found] at none_
        cases none_
      exact (Function.update_of_ne other _ _).trans (inv.unborn k later)
    · intro k g now readable
      by_cases equal : k = m
      · subst equal
        have new : Function.update s.run.files.files k
            (some { f with position := (f.position + transfer.moved) % 2 ^ 32 }) k = some g := now
        rw [Function.update_self] at new
        cases new
        have readable' : Readable fs f := ⟨readable.type, readable.covers, readable.small⟩
        have before := inv.files k f found readable'
        have small := readable'.small
        obtain ⟨upTo, bytes⟩ := transfer_bytes readable' before.inside moved stored
        have position : (f.position + transfer.moved) % 2 ^ 32 = f.position + transfer.moved :=
          Nat.mod_eq_of_lt (by omega)
        constructor
        · dsimp only
          rw [position]
          exact upTo
        · have delivered : deliver s (some k) (filled.bytes buf transfer.result.toNat) k =
              s.delivered k ++ filled.bytes buf transfer.result.toNat := Function.update_self _ _ _
          have grown : s.delivered k ++ filled.bytes buf transfer.result.toNat =
              (contents fs f.fat).take (f.position + transfer.moved) := by
            rw [List.take_add, ← bytes, before.bytes]
          dsimp only
          rw [position]
          exact delivered.trans grown
      · have old : Function.update s.run.files.files m
            (some { f with position := (f.position + transfer.moved) % 2 ^ 32 }) k = some g := now
        rw [Function.update_of_ne equal] at old
        have before := inv.files k g old readable
        have kept : deliver s (some m) (filled.bytes buf ((some transfer.result).getD 0).toNat) k =
            s.delivered k := Function.update_of_ne equal _ _
        exact ⟨before.inside, kept.trans before.bytes⟩

theorem fd_write_extents {src : List Byte} {r : Option Int × FilesRun}
    (step : fdWrite s.run task fd src = some r) : ExtentsKept s.run.files r.2.files := by
  unfold fdWrite at step
  split at step
  · cases step
    exact extents_of_files rfl rfl
  · obtain ⟨f, _, rest⟩ := Option.bind_eq_some_iff.mp step
    split at rest
    · cases rest
      exact extents_of_files rfl rfl
    · rcases fd_write_pipe_cases rest with same | ⟨q, _, round⟩
      · rw [same]
        exact extents_of_files rfl rfl
      · exact extents_of_round (write_step_round round)
    · cases rest
      exact extents_of_files rfl rfl
    · cases rest
      exact extents_of_files rfl rfl

theorem delivery_inv_call {call : FdCall} {r : Option Int × FdRun} (inv : DeliveryInv fs s)
    (may : callable s call) (step : fdCall fs s call = some r) : DeliveryInv fs r.2 := by
  have after := fd_call_inv inv.run may step
  cases call with
  | other call =>
    obtain ⟨r', taken, rfl⟩ := Option.map_eq_some_iff.mp step
    have updates := updates_table_call (callable_on_tables may) taken
    exact delivery_inv_kept inv after (extents_of_updates updates) rfl
  | read task fd buf args space => exact delivery_inv_read inv may step
  | write task fd src =>
    obtain ⟨r', taken, rfl⟩ := Option.map_eq_some_iff.mp step
    exact delivery_inv_kept inv after (fd_write_extents taken) rfl
  | resume task space =>
    obtain ⟨r', taken, rest⟩ := Option.bind_eq_some_iff.mp step
    obtain ⟨_, _, same⟩ := Option.bind_eq_some_iff.mp rest
    cases same
    rcases resume_cases taken with ⟨q, count, _, round⟩ | ⟨q, left, count, _, round⟩
    · exact delivery_inv_kept inv after (extents_of_round (read_step_round round).1) rfl
    · exact delivery_inv_kept inv after (extents_of_round (write_step_round round)) rfl

theorem delivery_inv_reached (run : FdReached fs s) : DeliveryInv fs s := by
  refine reaches_invariant (DeliveryInv fs) ?_ ?_ run
  · rintro s rfl
    refine ⟨run_inv_boot, fun _ _ => rfl, ?_⟩
    intro m f found
    cases found
  · intro s call t inv step
    obtain ⟨result, taken⟩ := fd_step_call step.2
    exact delivery_inv_call inv step.1 taken

/-- A call that returned the next bytes of file m, as many as it could. -/
structure ReadDelivers (fs : Fs) (s : FdRun) (m : Nat) (f : OpenFile) (count : Nat)
    (r : Option Int × FdRun) : Prop where
  result : r.1 = some (expected f count : Int)
  bytes : r.2.delivered m = s.delivered m ++ ((contents fs f.fat).drop f.position).take (expected f count)
  moved : ∃ g, r.2.run.files.files m = some g ∧ g.position = f.position + expected f count
  zero : r.1 = some 0 ↔ f.position = f.fileSize ∨ count = 0

structure FileRead (fs : Fs) (s : FdRun) (task : Nat) (fd : Int) (buf : Nat) (args : ReadArgs)
    (space : Space) (m : Nat) (f : OpenFile) : Prop where
  may : callable s (.read task fd buf args space)
  block : args.block.isSome
  file : fileOf s.run.files task fd = some m
  found : s.run.files.files m = some f
  readable : Readable fs f

theorem file_read_faults {buf : Nat} {args : ReadArgs} {space : Space}
    (call : FileRead fs s task fd buf args space m f) (more : f.position < f.fileSize)
    (noRoom : ¬ Room space buf (f.position + expected f args.count)) :
    fdCall fs s (.read task fd buf args space) = none := by
  obtain ⟨tmpbuf, block⟩ := Option.isSome_iff_exists.mp call.block
  have read := @fd_read_of_file fs _ _ _ _ _ args call.file call.found
  rw [block, fd_read_file_eq call.readable more tmpbuf, Option.map_some] at read
  cases returned : fdCall fs s (.read task fd buf args space) with
  | none => rfl
  | some r =>
    obtain ⟨stores, run, after, read', stored, _⟩ := read_parts returned
    rw [read] at read'
    obtain ⟨_, parts⟩ := Prod.mk.inj (Option.some.inj read')
    rw [← (Prod.mk.inj parts).1] at stored
    exact absurd (all_stores_writable.mp (store_writable stored).2) noRoom

theorem expected_zero {count : Nat} (inside : f.position ≤ f.fileSize) :
    expected f count = 0 ↔ f.position = f.fileSize ∨ count = 0 := by
  rw [expected]
  omega

theorem file_read_returns {buf : Nat} {args : ReadArgs} {space : Space}
    (call : FileRead fs s task fd buf args space m f) (inside : f.position ≤ f.fileSize)
    (enough : f.position = f.fileSize ∨ Room space buf (f.position + expected f args.count)) :
    ∃ r, fdCall fs s (.read task fd buf args space) = some r ∧ ReadDelivers fs s m f args.count r := by
  have small := call.readable.small
  obtain ⟨tmpbuf, block⟩ := Option.isSome_iff_exists.mp call.block
  have upTo : f.position + expected f args.count ≤ f.fileSize := by
    rw [expected]
    omega
  have transfer : ∃ stores after, fdReadFile fs f args.count args.block =
      some ⟨(expected f args.count : Nat), stores, expected f args.count⟩ ∧
        space.store buf stores = some after := by
    by_cases more : f.position < f.fileSize
    · have room := enough.resolve_left (by omega)
      obtain ⟨after, stored⟩ := store_some ((@all_stores_writable _ _ fs f _).mpr room)
      rw [block]
      exact ⟨_, after, fd_read_file_eq call.readable more tmpbuf, stored⟩
    · have none_ : expected f args.count = 0 := by
        rw [expected]
        omega
      rw [none_]
      exact ⟨[], space, fd_read_file_end args.block (by omega), rfl⟩
  obtain ⟨stores, after, read, stored⟩ := transfer
  obtain ⟨_, bytes⟩ := transfer_bytes call.readable inside read stored
  have whole := @fd_read_of_file fs _ _ _ _ _ args call.file call.found
  rw [read, Option.map_some] at whole
  refine ⟨_, read_of_parts whole stored, ?_⟩
  constructor
  · rfl
  · rw [call.file, ← bytes]
    exact Function.update_self _ _ _
  · refine ⟨_, Function.update_self _ _ _, ?_⟩
    exact Nat.mod_eq_of_lt (by omega)
  · rw [← expected_zero inside, Option.some.injEq]
    exact Int.natCast_eq_zero

end Delivery

/-- What sequential reads rely on: the reads so far returned the file up to its position, and the
    next one goes on from there unless its first pass leaves what the caller can store at. -/
structure SequentialReads (fs : Fs) (s : FdRun) : Prop where
  delivered : ∀ m f, s.run.files.files m = some f → Readable fs f → Delivered fs s m f
  read : ∀ task fd buf args space m f, FileRead fs s task fd buf args space m f →
    ((∃ r, fdCall fs s (.read task fd buf args space) = some r ∧ ReadDelivers fs s m f args.count r) ↔
      f.position = f.fileSize ∨ Room space buf (f.position + expected f args.count))

theorem sequential_reads (fs : Fs) (s : FdRun) (run : FdReached fs s) : SequentialReads fs s := by
  have inv := delivery_inv_reached run
  constructor
  · exact inv.files
  · intro task fd buf args space m f call
    have inside := (inv.files m f call.found call.readable).inside
    constructor
    · rintro ⟨r, returned, _⟩
      by_contra neither
      rw [not_or] at neither
      rw [file_read_faults call (by omega) neither.2] at returned
      cases returned
    · exact file_read_returns call inside

def smallVolume : Fs where
  blk _ := some fun i => BitVec.ofNat 8 (i + 1)
  bpb := ⟨1, 0, 1, 1⟩
  fatTable _ := 0xFFFF

def onePage : Space where
  memory _ := 0
  writable a := decide (4096 ≤ a ∧ a < 8192)
  low := by
    intro a inside
    have bounds := of_decide_eq_true inside
    rw [kernVaOffset]
    omega

def oneByte : ReadArgs := ⟨1, [], some fun _ => 0⟩

structure HalfRead (s : FdRun) (f : OpenFile) : Prop where
  run : FdReached smallVolume s
  delivered : s.delivered 0 = [1]
  extent : f.extent = (.file, 2, 2, 1)
  call : ∀ buf, buf < kernVaOffset → FileRead smallVolume s 0 3 buf oneByte onePage 0 f

theorem half_read : ∃ s f, HalfRead s f := by
  have look : (runActions (allowed callable (fdStep smallVolume)) fdBoot
      [.other .create, .other (.open_ 0 (some ⟨2, 2⟩) oRdonly true), .read 0 3 4096 oneByte onePage]).any
        (fun s => decide (s.delivered 0 = [1] ∧ idle s.run 0 ∧ fileOf s.run.files 0 3 = some 0 ∧
          (s.run.files.files 0).map OpenFile.extent = some (.file, 2, 2, 1))) = true := by
    decide +kernel
  obtain ⟨s, run, found⟩ := (Option.any_eq_true _ _).mp look
  obtain ⟨delivered, free, file, open_⟩ := of_decide_eq_true found
  obtain ⟨f, here, extent⟩ := Option.map_eq_some_iff.mp open_
  have parts := extent
  simp only [OpenFile.extent, Prod.mk.injEq] at parts
  obtain ⟨type, first, size, _⟩ := parts
  have readable : Readable smallVolume f := by
    refine ⟨type, ⟨by decide, ?_, fun _ _ => rfl⟩, by rw [size]; decide⟩
    intro i inside
    have one : i = 0 := by
      have bound : i * 1 * 512 < f.fileSize := inside
      omega
    have cluster : f.fat.firstCluster = 2 := first
    rw [one, clusterAt, cluster]
    decide
  refine ⟨s, f, reaches_of_allowed (Reaches.start rfl) run, delivered, extent, ?_⟩
  intro buf low
  exact ⟨⟨free, low⟩, rfl, file, here, readable⟩

theorem second_byte_read : ∃ s r, FdReached smallVolume s ∧ s.delivered 0 = [1] ∧
    fdCall smallVolume s (.read 0 3 4096 oneByte onePage) = some r ∧ r.2.delivered 0 = [1, 2] := by
  obtain ⟨s, f, half⟩ := half_read
  have extent := half.extent
  simp only [OpenFile.extent, Prod.mk.injEq] at extent
  obtain ⟨_, first, size, position⟩ := extent
  have room : Room onePage 4096 (f.position + expected f oneByte.count) := by
    intro k inside
    have next : oneByte.count = 1 := rfl
    rw [expected, size, position, next] at inside
    exact decide_eq_true (by omega)
  obtain ⟨r, returned, delivers⟩ := ((sequential_reads smallVolume s half.run).read 0 3 4096 oneByte onePage 0 f
    (half.call 4096 (by decide))).mpr (Or.inr room)
  have file : f.fat = ⟨2, 2⟩ := by rw [OpenFile.fat, first, size]
  refine ⟨s, r, half.run, half.delivered, returned, ?_⟩
  rw [delivers.bytes, half.delivered, file, expected, size, position]
  decide

/-- The buffer is the last byte of the page. The first pass stores the two bytes of the file so
    far, the second of them behind the page. -/
theorem read_faults_behind_buffer : ¬ ∀ (fs : Fs) (s : FdRun), FdReached fs s →
    ∀ task fd buf args space m f, FileRead fs s task fd buf args space m f → Room space buf args.count →
      ∃ r, fdCall fs s (.read task fd buf args space) = some r ∧ ReadDelivers fs s m f args.count r := by
  intro reads
  obtain ⟨s, f, half⟩ := half_read
  have extent := half.extent
  simp only [OpenFile.extent, Prod.mk.injEq] at extent
  obtain ⟨_, _, size, position⟩ := extent
  have call := half.call 8191 (by decide)
  have one : Room onePage 8191 oneByte.count := by
    intro k inside
    have first : k < 1 := inside
    exact decide_eq_true (by omega)
  have beyond : ¬ Room onePage 8191 (f.position + expected f oneByte.count) := by
    intro room
    have next : oneByte.count = 1 := rfl
    rw [expected, size, position, next] at room
    exact absurd (room 1 (by decide)) (by decide)
  obtain ⟨r, returned, _⟩ := reads smallVolume s half.run 0 3 8191 oneByte onePage 0 f call one
  rw [file_read_faults call (by omega) beyond] at returned
  cases returned

end Archarch.Descriptors
