import Mathlib.Data.Finset.Card
import Mathlib.Order.Interval.Finset.Nat

/- The page frame allocator of pmm.c: a packed bitmap, one bit a page, with two
   redundant 32-bit counters. Addresses are natural numbers below 2^64 and wrap
   where the C expression can; diagnostics written to the UART are left out. -/
namespace Archarch.PageFrames

def pageSize : Nat := 4096
def ramBase : Nat := 0x40000000
def ramSize : Nat := 128 * 1024 * 1024
def ramEnd : Nat := ramBase + ramSize
@[irreducible] def totalPages : Nat := ramSize / pageSize

theorem page_size_eq : pageSize = 4096 := rfl
theorem ram_base_eq : ramBase = 0x40000000 := rfl
theorem ram_end_eq : ramEnd = 0x48000000 := rfl
theorem total_pages_eq : totalPages = 32768 := by
  rw [totalPages]
  rfl

/-- Masking with ~(PAGE_SIZE - 1) clears the low twelve bits. -/
def pageAlignUp (a : Nat) : Nat := (a + (pageSize - 1)) % 2 ^ 64 / pageSize * pageSize

abbrev Bitmap := Nat → BitVec 8

structure Pmm where
  bitmap : Bitmap
  freePages : BitVec 32
  usedPages : BitVec 32

def bitSet (m : Bitmap) (page : Nat) : Bitmap :=
  Function.update m (page / 8) (m (page / 8) ||| (1#8 <<< (page % 8)))

def bitClear (m : Bitmap) (page : Nat) : Bitmap :=
  Function.update m (page / 8) (m (page / 8) &&& ~~~(1#8 <<< (page % 8)))

def bitTest (m : Bitmap) (page : Nat) : Bool :=
  (m (page / 8) >>> (page % 8)) &&& 1#8 == 1#8

def addrToPage (addr : Nat) : Nat := (addr + 2 ^ 64 - ramBase) % 2 ^ 64 / pageSize % 2 ^ 32

def pageToAddr (page : Nat) : Nat := ramBase + page * pageSize

/-- for (j = first; j < first + n; j++) bit_set(j) -/
def setBits (m : Bitmap) (first : Nat) : Nat → Bitmap
  | 0 => m
  | n + 1 => setBits (bitSet m first) (first + 1) n

def reservedCount (kernelEnd : Nat) : Nat :=
  (pageAlignUp kernelEnd + 2 ^ 64 - ramBase) % 2 ^ 64 / pageSize % 2 ^ 32

def pmmInit (kernelEnd : Nat) : Pmm :=
  let reserved := reservedCount kernelEnd
  { bitmap := setBits (fun _ => 0) 0 reserved
    freePages := BitVec.ofNat 32 totalPages - BitVec.ofNat 32 reserved
    usedPages := 0#32 + BitVec.ofNat 32 reserved }

theorem pmm_init_bitmap (kernelEnd : Nat) :
    (pmmInit kernelEnd).bitmap = setBits (fun _ => 0) 0 (reservedCount kernelEnd) := rfl

theorem pmm_init_free_pages (kernelEnd : Nat) : (pmmInit kernelEnd).freePages =
    BitVec.ofNat 32 totalPages - BitVec.ofNat 32 (reservedCount kernelEnd) := rfl

theorem pmm_init_used_pages (kernelEnd : Nat) :
    (pmmInit kernelEnd).usedPages = 0#32 + BitVec.ofNat 32 (reservedCount kernelEnd) := rfl

/-- The scan of pmm_alloc_page over pages i, i + 1, ..., i + n - 1. -/
def allocPageFrom (p : Pmm) (i : Nat) : Nat → Nat × Pmm
  | 0 => (0, p)
  | n + 1 =>
    if bitTest p.bitmap i then allocPageFrom p (i + 1) n
    else (pageToAddr i,
      { bitmap := bitSet p.bitmap i
        freePages := p.freePages - 1#32
        usedPages := p.usedPages + 1#32 })

def pmmAllocPage (p : Pmm) : Nat × Pmm := allocPageFrom p 0 totalPages

def pmmFreePage (p : Pmm) (addr : Nat) : Pmm :=
  if addr < ramBase ∨ ramEnd ≤ addr then p
  else
    let page := addrToPage addr
    if bitTest p.bitmap page then
      { bitmap := bitClear p.bitmap page
        freePages := p.freePages + 1#32
        usedPages := p.usedPages - 1#32 }
    else p

/-- The first-fit scan of pmm_alloc_pages from page i with its locals run and
   start; it stops at the first run of count clear bits. -/
def findRun (m : Bitmap) (count i run start : Nat) : Nat → Option Nat
  | 0 => none
  | n + 1 =>
    if bitTest m i then findRun m count (i + 1) 0 start n
    else
      let start := if run = 0 then i else start
      if run + 1 = count then some start else findRun m count (i + 1) (run + 1) start n

def pmmAllocPages (p : Pmm) (count : Nat) : Nat × Pmm :=
  if count = 0 then (0, p)
  else
    match findRun p.bitmap count 0 0 0 totalPages with
    | none => (0, p)
    | some start =>
      (pageToAddr start,
        { bitmap := setBits p.bitmap start count
          freePages := p.freePages - BitVec.ofNat 32 count
          usedPages := p.usedPages + BitVec.ofNat 32 count })

/-- i * PAGE_SIZE is a 32-bit product. -/
def freePagesFrom (p : Pmm) (addr i : Nat) : Nat → Pmm
  | 0 => p
  | n + 1 => freePagesFrom (pmmFreePage p ((addr + i * pageSize % 2 ^ 32) % 2 ^ 64)) addr (i + 1) n

def pmmFreePages (p : Pmm) (addr count : Nat) : Pmm := freePagesFrom p addr 0 count

/- What the packed bitmap says, bit by bit. -/

theorem bit_test_eq (m : Bitmap) (page : Nat) :
    bitTest m page = (m (page / 8)).getLsbD (page % 8) := by
  have low : page % 8 < 8 := Nat.mod_lt _ (by decide)
  rw [bitTest, Bool.eq_iff_iff, beq_iff_eq]
  constructor
  · intro h
    have := congrArg (·.getLsbD 0) h
    simpa using this
  · intro h
    apply BitVec.eq_of_getLsbD_eq
    intro i hi
    by_cases zero : i = 0
    · subst zero
      simpa using h
    · simp [zero]

theorem bit_test_bit_set (m : Bitmap) (a b : Nat) :
    bitTest (bitSet m a) b = (decide (a = b) || bitTest m b) := by
  simp only [bit_test_eq, bitSet, Function.update_apply]
  have low : b % 8 < 8 := Nat.mod_lt _ (by decide)
  split
  · rename_i same
    simp only [BitVec.getLsbD_or, BitVec.getLsbD_shiftLeft, low, same]
    by_cases eq : a = b
    · subst eq
      simp
    · have : b % 8 ≠ a % 8 := by omega
      by_cases less : b % 8 < a % 8
      · simp [eq, less]
      · have pos : b % 8 - a % 8 ≠ 0 := by omega
        simp [eq, less, BitVec.getLsbD_one, pos]
  · rename_i other
    have : a ≠ b := by intro eq; exact other (by rw [eq])
    simp [this]

theorem bit_test_bit_clear (m : Bitmap) (a b : Nat) :
    bitTest (bitClear m a) b = (decide (a ≠ b) && bitTest m b) := by
  simp only [bit_test_eq, bitClear, Function.update_apply]
  have low : b % 8 < 8 := Nat.mod_lt _ (by decide)
  split
  · rename_i same
    simp only [BitVec.getLsbD_and, BitVec.getLsbD_not, BitVec.getLsbD_shiftLeft, low, same]
    by_cases eq : a = b
    · subst eq
      simp
    · have : b % 8 ≠ a % 8 := by omega
      by_cases less : b % 8 < a % 8
      · simp [eq, less]
      · have pos : b % 8 - a % 8 ≠ 0 := by omega
        simp [eq, less, BitVec.getLsbD_one, pos]
  · rename_i other
    have : a ≠ b := by intro eq; exact other (by rw [eq])
    simp [this]

theorem bit_test_set_bits (m : Bitmap) (first n b : Nat) :
    bitTest (setBits m first n) b = (decide (first ≤ b ∧ b < first + n) || bitTest m b) := by
  induction n generalizing m first with
  | zero =>
    simp [setBits]
  | succ n ih =>
    rw [setBits, ih, bit_test_bit_set, ← Bool.or_assoc]
    congr 1
    rw [Bool.eq_iff_iff]
    simp only [Bool.or_eq_true, decide_eq_true_eq]
    omega

end Archarch.PageFrames
