import Archarch.Foundations.Chain
import Archarch.Foundations.Words
import Archarch.Memory.PmmSpec

/- The kernel heap of kmalloc.c: block headers in memory, linked through next
   (0 is NULL), grown from the page allocator. A while loop of the source is a
   recursion on fuel; where the fuel runs out the loop has not ended yet. -/
namespace Archarch.KernelHeap
open PageFrames LinkedChain FixedWidth

def kernVaOffset : Nat := 0xFFFFFF8000000000

def physToVirt (pa : Nat) : Nat := add64 pa kernVaOffset

def heapInitialPages : Nat := 16

def align16 (x : Nat) : Nat := add64 x 15 / 16 * 16

/-- sizeof(struct block_header): an 8-byte size, a padded int and a pointer. -/
def headerSize : Nat := align16 24

theorem align16_multiple (x : Nat) : 16 ∣ align16 x := Nat.dvd_mul_left _ _

theorem header_size_eq : headerSize = 32 := rfl

structure BlockHeader where
  size : Nat
  free : Bool
  next : Nat
  deriving DecidableEq, Repr

abbrev HeaderMem := Nat → BlockHeader

structure Heap where
  mem : HeaderMem
  heapStart : Nat
  heapEnd : Nat
  totalAllocated : Nat
  totalFreed : Nat
  heapSize : Nat

structure Arena where
  pmm : Pmm
  heap : Heap

def HeaderMem.setSize (m : HeaderMem) (a size : Nat) : HeaderMem :=
  Function.update m a { m a with size := size }

def HeaderMem.setFree (m : HeaderMem) (a : Nat) (free : Bool) : HeaderMem :=
  Function.update m a { m a with free := free }

def HeaderMem.setNext (m : HeaderMem) (a next : Nat) : HeaderMem :=
  Function.update m a { m a with next := next }

def appendBlock (h : Heap) (newPages growSize : Nat) : Heap :=
  let mem := Function.update h.mem newPages ⟨sub64 growSize headerSize, true, 0⟩
  if h.heapEnd = 0 then
    { h with mem := mem, heapStart := newPages, heapEnd := newPages }
  else
    { h with mem := HeaderMem.setNext mem h.heapEnd newPages, heapEnd := newPages }

def heapGrow (k : Arena) (pages : Nat) : Arena :=
  let newPagesPa := (pmmAllocPages k.pmm pages).1
  let pmm := (pmmAllocPages k.pmm pages).2
  if newPagesPa = 0 then { k with pmm := pmm }
  else
    let newPages := physToVirt newPagesPa
    let growSize := low32 (pages * pageSize)
    let h := k.heap
    let last := h.mem h.heapEnd
    let grown :=
      if h.heapEnd ≠ 0 ∧ add64 (add64 h.heapEnd headerSize) last.size = newPages ∧ last.free then
        { h with mem := HeaderMem.setSize h.mem h.heapEnd (add64 last.size growSize) }
      -- a used last block gets a successor whether or not the pages are contiguous
      else appendBlock h newPages growSize
    ⟨pmm, { grown with heapSize := add64 h.heapSize growSize }⟩

def kmallocInit (pmm : Pmm) : Arena :=
  heapGrow ⟨pmm, ⟨fun _ => ⟨0, false, 0⟩, 0, 0, 0, 0, 0⟩⟩ heapInitialPages

def findFit (m : HeaderMem) (size fuel curr : Nat) : Option (Option Nat) :=
  findAlong (fun a => (m a).next) 0 (fun a => (m a).free && decide (size ≤ (m a).size)) fuel curr

def takeBlock (h : Heap) (curr size : Nat) : Heap :=
  let old := h.mem curr
  let split :=
    if add64 (add64 size headerSize) 16 ≤ old.size then
      let newBlock := add64 (add64 curr headerSize) size
      let mem := Function.update h.mem newBlock
        ⟨sub64 (sub64 old.size size) headerSize, true, old.next⟩
      { h with
        mem := HeaderMem.setNext (HeaderMem.setSize mem curr size) curr newBlock
        heapEnd := if curr = h.heapEnd then newBlock else h.heapEnd }
    else h
  { split with
    mem := HeaderMem.setFree split.mem curr false
    totalAllocated := add64 h.totalAllocated (split.mem curr).size }

def pagesNeeded (size : Nat) : Nat :=
  let pages := low32 (add64 (add64 size headerSize) (pageSize - 1) / pageSize)
  if pages < 4 then 4 else pages

/-- The result is none while the call is still searching or retrying after fuel
   rounds; the arena is the one it has reached by then. -/
def kmalloc : Nat → Arena → Nat → Option Nat × Arena
  | 0, k, _ => (none, k)
  | fuel + 1, k, size =>
    if size = 0 then (some 0, k)
    else
      let size := align16 size
      match findFit k.heap.mem size (fuel + 1) k.heap.heapStart with
      | none => (none, k)
      | some none => kmalloc fuel (heapGrow k (pagesNeeded size)) size
      | some (some curr) => (some (add64 curr headerSize), { k with heap := takeBlock k.heap curr size })

def absorb (h : Heap) (a n : Nat) : Heap :=
  { h with
    mem := HeaderMem.setNext
      (HeaderMem.setSize h.mem a (add64 (h.mem a).size (add64 headerSize (h.mem n).size)))
      a (h.mem n).next
    heapEnd := if n = h.heapEnd then a else h.heapEnd }

/-- while (curr && curr != block) { prev = curr; curr = curr->next; } -/
def findPrev (m : HeaderMem) (block : Nat) : Nat → Nat → Nat → Option Nat
  | 0, _, _ => none
  | fuel + 1, prev, curr =>
    if curr = 0 ∨ curr = block then some prev
    else findPrev m block fuel curr (m curr).next

def markFree (h : Heap) (block : Nat) : Heap :=
  { h with
    mem := HeaderMem.setFree h.mem block true
    totalFreed := add64 h.totalFreed (h.mem block).size }

def coalesceNext (h : Heap) (block : Nat) : Heap :=
  let next := (h.mem block).next
  if next ≠ 0 ∧ (h.mem next).free then absorb h block next else h

def coalescePrev (h : Heap) (prev block : Nat) : Heap :=
  if prev ≠ 0 ∧ (h.mem prev).free then absorb h prev block else h

def kfree (fuel : Nat) (h : Heap) (ptr : Nat) : Option Heap :=
  if ptr = 0 then some h
  else
    let block := sub64 ptr headerSize
    let joined := coalesceNext (markFree h block) block
    (findPrev joined.mem block fuel 0 joined.heapStart).map fun prev =>
      coalescePrev joined prev block

end Archarch.KernelHeap
