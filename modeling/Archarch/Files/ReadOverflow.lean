import Archarch.Volumes.LongReads
import Archarch.Files.FileReads

/- Which reads of a FAT16 file leave the memory behind the buffer of their caller alone. -/
namespace Archarch.Descriptors
open LabelledRuns KernelHeap Fat16

def InBuffer (buf count a : Nat) : Prop := ∃ k, k < count ∧ a = (buf + k) % 2 ^ 64

def passSize (f : OpenFile) (count : Nat) : Nat := (f.position + expected f count) % 2 ^ 32

/-- Whatever the buffer of count bytes and the memory of the task, a read that returns changes no
    byte outside the buffer. -/
def StaysInside (fs : Fs) (s : FilesRun) (task : Nat) (fd : Int) (count : Nat) : Prop :=
  ∀ buf typed block (space : Space) result stores run (after : Space),
    fdRead fs s task fd ⟨count, typed, block⟩ = some (result, stores, run) →
      space.store buf stores = some after → ∀ a, ¬ InBuffer buf count a → after.memory a = space.memory a

/-- Nor does the first pass over the file behind any number of clusters, in a call that does not
    return either. -/
def NeverOutside (fs : Fs) (s : FilesRun) (task : Nat) (fd : Int) (f : OpenFile) (count : Nat) : Prop :=
  StaysInside fs s task fd count ∧ (f.position < f.fileSize → ∀ n buf (space after : Space),
    space.store buf (passAfter fs f.fat (passSize f count) n).stores = some after →
      ∀ a, ¬ InBuffer buf count a → after.memory a = space.memory a)

/-- The length of a pass of fat16_read_file that its 32-bit counter does not run over. -/
def NoWrap (f : OpenFile) (count : Nat) : Prop := f.position + expected f count ≤ 2 ^ 32 - 512

/-- The file has no more to read, the buffer takes the whole first pass, or the volume ends it
    before it gets behind the buffer. -/
def FitsBuffer (fs : Fs) (f : OpenFile) (count : Nat) : Prop :=
  f.fileSize ≤ f.position ∨ passLength (min f.fileSize (passSize f count)) ≤ count ∨
    ¬ Good fs f.fat (count / 512)

section Passes
variable {fs : Fs} {f : OpenFile} {count k : Nat} {p : Progress}

theorem copy_behind_lt {position : Nat} {tmpbuf : Nat → Byte} (fine : 0 ≤ p.result)
    (further : position < wordOf p.result) : ∀ w ∈ copyBehind position count p tmpbuf, w.1 < p.done := by
  have word : wordOf p.result ≤ p.done := by
    have value : p.result = (BitVec.ofNat 32 p.done).toInt := by
      rw [Progress.result] at fine ⊢
      split at fine
      · omega
      · rename_i succeeded
        rw [if_neg succeeded]
    rw [value, wordOf, BitVec.ofInt_toInt, BitVec.toNat_ofNat]
    exact Nat.mod_le _ _
  have small : wordOf p.result < 2 ^ 32 := (BitVec.ofInt 32 p.result).isLt
  intro w member
  rw [copyBehind] at member
  split at member
  · obtain ⟨j, inside, rfl⟩ := List.mem_map.mp member
    have short := List.mem_range.mp inside
    show j < p.done
    omega
  · cases member

theorem read_file_stored {block : Option (Nat → Byte)} {r : Transfer} {w : Nat × Byte}
    (read : fdReadFile fs f count block = some r) (member : w ∈ r.stores) :
    f.position < f.fileSize ∧ ∃ n, StoredAt (passAfter fs f.fat (passSize f count) n) w.1 := by
  by_cases ended : f.fileSize ≤ f.position
  · rw [fd_read_file_end block ended] at read
    cases read
    cases member
  · refine ⟨by omega, ?_⟩
    rw [fd_read_file_more block (by omega)] at read
    obtain ⟨first, pass, rest⟩ := Option.bind_eq_some_iff.mp read
    obtain ⟨n, after⟩ := read_file_after pass
    refine ⟨n, ?_⟩
    rw [passSize, after]
    split at rest
    · cases rest
      exact ⟨w, member, rfl⟩
    · rename_i fine
      split at rest
      · rename_i further
        cases block with
        | none =>
          cases rest
          exact ⟨w, member, rfl⟩
        | some tmpbuf =>
          obtain ⟨second, again, same⟩ := Option.map_eq_some_iff.mp rest
          rw [pass] at again
          cases again
          cases same
          rcases List.mem_append.mp member with old | copied
          · exact ⟨w, old, rfl⟩
          · exact read_file_counted pass w.1 (copy_behind_lt (by omega) further w copied)
      · cases rest
        exact ⟨w, member, rfl⟩

end Passes

section Overflow
variable {fs : Fs} {f : OpenFile} {count : Nat} {space after : Space} {buf : Nat} {stores : Stores}

theorem store_outside {a : Nat} (outside : ∀ w ∈ stores, a ≠ (buf + w.1) % 2 ^ 64)
    (stored : space.store buf stores = some after) : after.memory a = space.memory a := by
  induction stores generalizing space with
  | nil =>
    cases stored
    rfl
  | cons w rest ih =>
    rw [Space.store] at stored
    split at stored
    · have later := ih (fun v member => outside v (List.mem_cons_of_mem w member)) stored
      exact later.trans (Function.update_of_ne (outside w List.mem_cons_self) _ _)
    · cases stored

theorem pass_length (more : f.position < f.fileSize) (noWrap : NoWrap f count) :
    min f.fat.fileSize ((f.position + expected f count) % 2 ^ 32) = f.position + expected f count := by
  have upTo : f.position + expected f count ≤ f.fileSize := by
    rw [expected]
    omega
  have size : f.fat.fileSize = f.fileSize := rfl
  rw [NoWrap] at noWrap
  rw [size, Nat.mod_eq_of_lt (by omega), Nat.min_eq_right upTo]

theorem read_file_no_block {p : Progress} (more : f.position < f.fileSize)
    (pass : fat16ReadFile fs f.fat ((f.position + expected f count) % 2 ^ 32) = some p) :
    ∃ result, fdReadFile fs f count none = some ⟨result, p.stores, 0⟩ := by
  rw [fd_read_file_more none more, pass, Option.bind_some]
  split
  · exact ⟨-1, rfl⟩
  · split
    · exact ⟨-1, rfl⟩
    · exact ⟨0, rfl⟩

theorem prefix_store_lt {first d : Nat} {w : Nat × Byte} (member : w ∈ prefixStores fs first d) : w.1 < d := by
  obtain ⟨k, inside, rfl⟩ := List.mem_map.mp member
  exact List.mem_range.mp inside

theorem good_mono {file : Fat16.FatFile} {j k : Nat} (before : j ≤ k) (good : Good fs file k) : Good fs file j :=
  ⟨good.1, fun i upTo => good.2 i (upTo.trans before)⟩

theorem fitting_pass {n : Nat} (more : f.position < f.fileSize) (fits : FitsBuffer fs f count) :
    ∀ w ∈ (passAfter fs f.fat (passSize f count) n).stores, w.1 < count := by
  intro w member
  have size : f.fat.fileSize = f.fileSize := rfl
  obtain ⟨below, good⟩ := pass_stores_iff.mp ⟨n, w, member, rfl⟩
  rw [size] at below
  by_contra behind
  rcases fits with ended | short | stops
  · omega
  · omega
  · exact stops (good_mono (Nat.div_le_div_right (Nat.le_of_not_lt behind)) good)

theorem fitting_stores {block : Option (Nat → Byte)} {r : Transfer} (fits : FitsBuffer fs f count)
    (read : fdReadFile fs f count block = some r) : ∀ w ∈ r.stores, w.1 < count := by
  intro w member
  obtain ⟨more, n, v, stored, same⟩ := read_file_stored read member
  rw [← same]
  exact fitting_pass more fits v stored

theorem inside_of_stores {space after : Space} {a : Nat} (inside : ∀ w ∈ stores, w.1 < count)
    (stored : space.store buf stores = some after) (outside : ¬ InBuffer buf count a) :
    after.memory a = space.memory a := by
  apply @store_outside _ _ _ stores
  · intro w member here
    exact outside ⟨w.1, inside w member, here⟩
  · exact stored

def filled (byte : Byte) : Space where
  memory _ := byte
  writable a := decide (a < kernVaOffset)
  low _ inside := of_decide_eq_true inside

/-- What the last store to a byte leaves there does not depend on the memory before. -/
theorem store_hit {other later : Space} {a : Nat} (hit : ∃ w ∈ stores, (buf + w.1) % 2 ^ 64 = a)
    (first : space.store buf stores = some after) (second : other.store buf stores = some later) :
    after.memory a = later.memory a := by
  induction stores generalizing space other with
  | nil =>
    obtain ⟨w, member, _⟩ := hit
    cases member
  | cons w rest ih =>
    rw [Space.store] at first second
    split at first
    · split at second
      · by_cases again : ∃ v ∈ rest, (buf + v.1) % 2 ^ 64 = a
        · exact ih again first second
        · have here : (buf + w.1) % 2 ^ 64 = a := by
            obtain ⟨v, member, place⟩ := hit
            rcases List.mem_cons.mp member with same | behind
            · rw [← same]
              exact place
            · exact absurd ⟨v, behind, place⟩ again
          have missed : ∀ v ∈ rest, a ≠ (buf + v.1) % 2 ^ 64 := by
            intro v member place
            exact again ⟨v, member, place.symm⟩
          rw [store_outside missed first, store_outside missed second, here]
          simp only [Function.update_self]
      · cases second
    · cases first

theorem pass_length_le (toRead : Nat) : passLength toRead ≤ 2 ^ 32 := by
  rw [passLength, lastSector]
  split <;> omega

theorem low_pass_stored {n : Nat} (byte : Byte) :
    ∃ after, (filled byte).store 0 (passAfter fs f.fat (passSize f count) n).stores = some after := by
  apply store_some
  intro w member
  have below := (pass_stores_iff.mp ⟨n, w, member, rfl⟩).1
  have most := pass_length_le (min f.fat.fileSize (passSize f count))
  apply decide_eq_true
  rw [kernVaOffset]
  omega

theorem overflowing_pass {s : FilesRun} {task : Nat} {fd : Int} (inside : NeverOutside fs s task fd f count) :
    FitsBuffer fs f count := by
  by_contra overflow
  rw [FitsBuffer, not_or, not_or, not_not, Nat.not_le, Nat.not_le] at overflow
  obtain ⟨more, long, good⟩ := overflow
  obtain ⟨n, w, member, here⟩ := pass_stores_iff.mpr ⟨long, good⟩
  have hit : ∃ w ∈ (passAfter fs f.fat (passSize f count) n).stores, (0 + w.1) % 2 ^ 64 = count := by
    have most := pass_length_le (min f.fileSize (passSize f count))
    exact ⟨w, member, by omega⟩
  have outside : ¬ InBuffer 0 count count := by
    rintro ⟨k, short, same⟩
    have most := pass_length_le (min f.fileSize (passSize f count))
    omega
  -- a memory of other bytes than what comes to stand behind the buffer
  obtain ⟨first, stored⟩ := @low_pass_stored fs f count n 0
  obtain ⟨second, again⟩ := @low_pass_stored fs f count n (first.memory count + 1)
  have kept := inside.2 more n 0 _ second again count outside
  rw [← store_hit hit stored again] at kept
  have apart : ∀ byte : Byte, byte ≠ byte + 1 := by decide
  exact apart _ kept

theorem fits_buffer_iff (more : f.position < f.fileSize) (noWrap : NoWrap f count) :
    passLength (min f.fileSize (passSize f count)) ≤ count ↔ f.position = 0 ∨ f.fileSize ≤ count := by
  have length := pass_length more noWrap
  have size : f.fat.fileSize = f.fileSize := rfl
  have short : f.position + expected f count ≤ 512 * lastSector := noWrap
  rw [size] at length
  rw [passSize, length, passLength, if_pos short, expected]
  omega

theorem overflowing_read {s : FilesRun} {task m : Nat} {fd : Int} (here : fileOf s.files task fd = some m)
    (found : s.files.files m = some f) (more : f.position < f.fileSize) (noWrap : NoWrap f count)
    (behind : f.position ≠ 0) (part : count < f.fileSize) (good : Good fs f.fat (count / 512)) :
    ¬ StaysInside fs s task fd count := by
  intro inside
  have length := pass_length more noWrap
  have beyond : count < f.position + expected f count := by
    rw [expected]
    omega
  rw [NoWrap] at noWrap
  obtain ⟨p, run⟩ := @read_file_ends fs f.fat _ good.1 (by rw [length]; exact noWrap)
  have pass := read_file_pass (by rw [length]; exact noWrap) run
  rw [length] at pass
  obtain ⟨result, read⟩ := read_file_no_block more run
  have most := pass.most
  have reached : count < p.done := (pass.exact count beyond).mpr good
  have call := @fd_read_of_file fs ⟨s, fun _ => 0, fun _ => []⟩ f m task fd ⟨count, [], none⟩ here found
  rw [read, Option.map_some] at call
  let old := filled (fileByte fs f.firstCluster count + 1)
  have writable : ∀ w ∈ p.stores, old.writable ((0 + w.1) % 2 ^ 64) = true := by
    intro w member
    rw [pass.stores] at member
    have short := prefix_store_lt member
    apply decide_eq_true
    rw [kernVaOffset]
    omega
  obtain ⟨after, stored⟩ := store_some writable
  have changed : after.memory count = fileByte fs f.firstCluster count := by
    have stores := stored
    rw [pass.stores] at stores
    have bytes := store_bytes (by omega) stores
    have at_ : (after.bytes 0 p.done)[count]? = some (after.memory ((0 + count) % 2 ^ 64)) := by
      rw [Space.bytes, List.getElem?_map, List.getElem?_range reached]
      rfl
    rw [bytes, List.getElem?_map, List.getElem?_range reached, Option.map_some,
      Nat.mod_eq_of_lt (show 0 + count < 2 ^ 64 by omega), Nat.zero_add] at at_
    exact (Option.some.inj at_).symm
  have outside : ¬ InBuffer 0 count count := by
    rintro ⟨k, short, same⟩
    omega
  have kept := inside 0 [] none old _ _ _ after call stored count outside
  rw [changed] at kept
  have apart : ∀ byte : Byte, byte ≠ byte + 1 := by decide
  exact apart _ kept

end Overflow

/-- A read of a file stays inside its buffer if and only if it fits the buffer, and without a wrap
    of the counter that can be seen at the reads that return. -/
theorem reads_inside_iff (fs : Fs) (s : FilesRun) (task : Nat) (fd : Int) (m : Nat) (f : OpenFile) (count : Nat)
    (here : fileOf s.files task fd = some m) (found : s.files.files m = some f) :
    (NeverOutside fs s task fd f count ↔ FitsBuffer fs f count) ∧
      (NoWrap f count → (StaysInside fs s task fd count ↔ FitsBuffer fs f count)) := by
  have stays : FitsBuffer fs f count → StaysInside fs s task fd count := by
    intro fits buf typed block space result stores run after read stored a outside
    have call := @fd_read_of_file fs ⟨s, fun _ => 0, fun _ => []⟩ f m task fd ⟨count, typed, block⟩ here found
    have both := call.symm.trans read
    obtain ⟨r, moved, same⟩ := Option.map_eq_some_iff.mp both
    cases same
    exact inside_of_stores (fitting_stores fits moved) stored outside
  constructor
  · constructor
    · exact overflowing_pass
    · intro fits
      refine ⟨stays fits, ?_⟩
      intro more n buf space after stored a outside
      exact inside_of_stores (fitting_pass more fits) stored outside
  · intro noWrap
    refine ⟨?_, stays⟩
    intro inside
    by_contra overflow
    rw [FitsBuffer, not_or, not_or, not_not, Nat.not_le] at overflow
    obtain ⟨more, long, good⟩ := overflow
    rw [fits_buffer_iff more noWrap, not_or, Nat.not_le] at long
    exact overflowing_read here found more noWrap long.1 long.2 good inside

theorem first_read_inside : ∃ s f, FdReached smallVolume s ∧ s.run.files.files 0 = some f ∧ f.position = 1 ∧
    NeverOutside smallVolume s.run 0 3 f 2 := by
  obtain ⟨s, f, half⟩ := half_read
  have call := half.call 4096 (by decide)
  have extent := half.extent
  simp only [OpenFile.extent, Prod.mk.injEq] at extent
  obtain ⟨_, _, size, position⟩ := extent
  have noWrap : NoWrap f 2 := by
    rw [NoWrap, expected, size, position]
    decide
  have whole := (fits_buffer_iff (by omega) noWrap).mpr (Or.inr (by omega))
  exact ⟨s, f, half.run, call.found, position,
    (reads_inside_iff smallVolume s.run 0 3 0 f 2 call.file call.found).1.mpr (Or.inr (Or.inl whole))⟩

/-- The second of two reads of one byte stores the second byte of the file behind its buffer too. -/
theorem second_read_overflows : ¬ ∀ (fs : Fs) (s : FdRun) (task : Nat) (fd : Int) (m : Nat) (f : OpenFile)
    (count : Nat), FdReached fs s → fileOf s.run.files task fd = some m → s.run.files.files m = some f →
      StaysInside fs s.run task fd count := by
  intro inside
  obtain ⟨s, f, half⟩ := half_read
  have call := half.call 4096 (by decide)
  have extent := half.extent
  simp only [OpenFile.extent, Prod.mk.injEq] at extent
  obtain ⟨_, first, size, position⟩ := extent
  have noWrap : NoWrap f 1 := by
    rw [NoWrap, expected, size, position]
    decide
  have good : Good smallVolume f.fat (1 / 512) := by
    refine ⟨by decide, ?_⟩
    intro j upTo
    have zero : j = 0 := by omega
    have cluster : f.fat.firstCluster = 2 := first
    subst zero
    refine ⟨?_, ?_, rfl⟩
    · rw [cluster]
      decide
    · rw [cluster]
      decide
  exact overflowing_read call.file call.found (by omega) noWrap (by omega) (by omega) good
    (inside smallVolume s 0 3 0 f 1 half.run call.file call.found)

end Archarch.Descriptors
