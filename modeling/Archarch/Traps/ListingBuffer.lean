import Archarch.Files.ReadExtents
import Archarch.Volumes.RootDirectory

/- What SYS_LISTDIR stores through the pointer of its caller, for a buffer of any length. -/
namespace Archarch.Traps
open Descriptors Fat16

/-- The text, and the NUL behind it. -/
def listdirStores (fs : Fs) (buflen : Nat) : Stores :=
  numbered (Fat16.sysListdir fs buflen) ++ [((Fat16.sysListdir fs buflen).length, 0)]

/-- The stores stay in the buffer, the length that is returned is less than that of the buffer, and
    the text is the start of what a buffer with room for everything receives. -/
structure ListingBounded (fs : Fs) (buflen : Nat) : Prop where
  inside : ∀ w ∈ listdirStores fs buflen, w.1 < buflen
  shorter : 1 ≤ buflen → (Fat16.sysListdir fs buflen).length < buflen
  front : Fat16.sysListdir fs buflen <+: listing fs
  whole : ∀ large, (listing fs).length < large → large < 2 ^ 32 → Fat16.sysListdir fs large = listing fs

section Buffer
variable {fs : Fs} {buflen : Nat}

theorem listdir_whole (room : (listing fs).length < buflen) (word : buflen < 2 ^ 32) :
    Fat16.sysListdir fs buflen = listing fs := by
  have limit : (buflen + 2 ^ 32 - 1) % 2 ^ 32 = buflen - 1 := by omega
  rw [sys_listdir_take, limit, List.take_of_length_le (by omega)]

theorem listdir_shorter (some_room : 1 ≤ buflen) (word : buflen < 2 ^ 32) :
    (Fat16.sysListdir fs buflen).length < buflen := by
  have limit : (buflen + 2 ^ 32 - 1) % 2 ^ 32 = buflen - 1 := by omega
  have cut : ((listing fs).take (buflen - 1)).length ≤ buflen - 1 := List.length_take_le _ _
  rw [sys_listdir_take, limit]
  omega

theorem listdir_stores_inside (shorter : (Fat16.sysListdir fs buflen).length < buflen) :
    ∀ w ∈ listdirStores fs buflen, w.1 < buflen := by
  intro w member
  rcases List.mem_append.mp member with text | last
  · exact ((filled_numbered _).below w text).trans shorter
  · rw [List.mem_singleton.mp last]
    exact shorter

end Buffer

/-- buflen is the low word of the argument. A length of 0 has no room for the NUL, and all that
    limits the text is then the word below 0. -/
theorem listing_bounded_iff (fs : Fs) (arg1 : Nat) :
    ListingBounded fs (arg1 % 2 ^ 32) ↔ arg1 % 2 ^ 32 ≠ 0 := by
  have word : arg1 % 2 ^ 32 < 2 ^ 32 := Nat.mod_lt _ (by decide)
  generalize arg1 % 2 ^ 32 = buflen at word
  constructor
  · intro bounded empty
    have nul : ((Fat16.sysListdir fs buflen).length, 0) ∈ listdirStores fs buflen :=
      List.mem_append_right _ (List.mem_singleton_self _)
    have inside := bounded.inside _ nul
    omega
  · intro some_room
    have shorter : (Fat16.sysListdir fs buflen).length < buflen :=
      listdir_shorter (Nat.one_le_iff_ne_zero.mpr some_room) word
    refine ⟨listdir_stores_inside shorter, fun _ => shorter, ?_, fun large => listdir_whole⟩
    rw [sys_listdir_take]
    exact List.take_prefix _ _

/-- With a buffer of no bytes the whole listing and its NUL are stored. -/
theorem empty_buffer_listed :
    listdirStores (oneFile fatAttrArchive) 0 = [(0, 0x52), (1, 0x0A), (2, 0)] ∧
      ¬ ListingBounded (oneFile fatAttrArchive) 0 := by
  constructor
  · decide
  · intro bounded
    have inside := bounded.inside (0, 0x52) (by decide)
    exact Nat.not_lt_zero 0 inside

end Archarch.Traps
