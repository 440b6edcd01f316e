import Archarch.Foundations.Extents
import Archarch.Memory.Kmalloc

/- The heap as a list of blocks. Represents ties the linked headers to such a
   list; below it, each operation of kmalloc.c is an edit of the list. -/
namespace Archarch.KernelHeap
open PageFrames LinkedChain FixedWidth ExtentLayout

structure Block where
  addr : Nat
  size : Nat
  free : Bool
  deriving DecidableEq, Repr

def Block.range (b : Block) : Range := ⟨b.addr, 32 + b.size⟩

def Block.Holds (m : HeaderMem) (b : Block) : Prop :=
  b.addr ≠ 0 ∧ (m b.addr).size = b.size ∧ (m b.addr).free = b.free

def links (m : HeaderMem) : Nat → Nat := fun a => (m a).next

def addrs (bs : List Block) : List Nat := bs.map Block.addr

structure Represents (h : Heap) (bs : List Block) : Prop where
  chain : Segment (links h.mem) h.heapStart (addrs bs) 0
  cells : ∀ b ∈ bs, b.Holds h.mem
  last : h.heapEnd = (addrs bs).getLastD 0

instance (m : HeaderMem) (b : Block) : Decidable (b.Holds m) :=
  inferInstanceAs (Decidable (b.addr ≠ 0 ∧ (m b.addr).size = b.size ∧ (m b.addr).free = b.free))

instance (h : Heap) (bs : List Block) : Decidable (Represents h bs) :=
  decidable_of_iff (Segment (links h.mem) h.heapStart (addrs bs) 0 ∧ (∀ b ∈ bs, b.Holds h.mem) ∧
      h.heapEnd = (addrs bs).getLastD 0)
    ⟨fun ⟨chain, cells, last⟩ => ⟨chain, cells, last⟩, fun rep => ⟨rep.chain, rep.cells, rep.last⟩⟩

theorem represents_outside {h : Heap} {bs : List Block} (rep : Represents h bs) :
    0 ∉ addrs bs := by
  intro member
  obtain ⟨b, hb, zero⟩ := List.mem_map.mp member
  exact (rep.cells b hb).1 zero

theorem represents_nodup {h : Heap} {bs : List Block} (rep : Represents h bs) :
    (addrs bs).Nodup :=
  segment_nodup rep.chain (represents_outside rep)

theorem represents_unique {h : Heap} {bs cs : List Block} (left : Represents h bs)
    (right : Represents h cs) : bs = cs := by
  have same := segment_unique left.chain right.chain (represents_outside left)
    (represents_outside right)
  have blocks : ∀ {ds : List Block}, Represents h ds →
      ds = (addrs ds).map fun a => ⟨a, (h.mem a).size, (h.mem a).free⟩ := by
    intro ds rep
    rw [addrs, List.map_map]
    refine (List.map_id ds).symm.trans (List.map_congr_left ?_)
    intro b hb
    obtain ⟨_, size, free⟩ := rep.cells b hb
    simp [size, free]
  rw [blocks left, blocks right, same]

/-- A list that differs from a represented one in a single piece is represented as
   soon as that piece is linked and the memory agrees elsewhere. -/
theorem represents_replace {h g : Heap} {pre mid mid' post : List Block}
    (rep : Represents h (pre ++ mid ++ post)) (start : g.heapStart = h.heapStart)
    (agree : ∀ b ∈ pre ++ post, g.mem b.addr = h.mem b.addr)
    (piece : ∀ a z, Segment (links h.mem) a (addrs mid) z → Segment (links g.mem) a (addrs mid') z)
    (cells : ∀ b ∈ mid', b.Holds g.mem)
    (last : g.heapEnd = (addrs (pre ++ mid' ++ post)).getLastD 0) :
    Represents g (pre ++ mid' ++ post) := by
  have same : ∀ b ∈ pre ++ post, links h.mem b.addr = links g.mem b.addr := by
    intro b hb
    simp [links, agree b hb]
  have outer : ∀ {bs : List Block} {a z : Nat}, (∀ b ∈ bs, b ∈ pre ++ post) →
      Segment (links h.mem) a (addrs bs) z → Segment (links g.mem) a (addrs bs) z := by
    intro bs a z sub
    refine (segment_congr ?_).mp
    intro x hx
    obtain ⟨b, hb, rfl⟩ := List.mem_map.mp hx
    exact same b (sub b hb)
  constructor
  · have chain := rep.chain
    simp only [addrs, List.map_append] at chain ⊢
    obtain ⟨z, front, back⟩ := segment_append.mp chain
    obtain ⟨y, before, middle⟩ := segment_append.mp front
    rw [start]
    refine segment_append.mpr ⟨z, segment_append.mpr ⟨y, ?_, piece y z middle⟩, ?_⟩
    · exact outer (by intro b hb; simp [hb]) before
    · exact outer (by intro b hb; simp [hb]) back
  · intro b hb
    simp only [List.mem_append] at hb
    rcases hb with (hb | hb) | hb
    · have := rep.cells b (by simp [hb])
      simpa [Block.Holds, agree b (by simp [hb])] using this
    · exact cells b hb
    · have := rep.cells b (by simp [hb])
      simpa [Block.Holds, agree b (by simp [hb])] using this
  · exact last

/- heap_end is the address of the last block. -/

theorem addrs_last_concat (bs : List Block) (b : Block) :
    (addrs (bs ++ [b])).getLastD 0 = b.addr := by
  simp [addrs]

theorem addrs_last_tail {pre mid mid' post : List Block} (nonempty : post ≠ []) :
    (addrs (pre ++ mid ++ post)).getLastD 0 = (addrs (pre ++ mid' ++ post)).getLastD 0 := by
  rcases List.eq_nil_or_concat' post with rfl | ⟨init, c, rfl⟩
  · exact absurd rfl nonempty
  · simp only [← List.append_assoc, addrs_last_concat]

theorem end_iff_last {h : Heap} {pre post : List Block} {b : Block}
    (rep : Represents h (pre ++ [b] ++ post)) : b.addr = h.heapEnd ↔ post = [] := by
  have nodup := represents_nodup rep
  rw [rep.last]
  rcases List.eq_nil_or_concat' post with rfl | ⟨init, c, rfl⟩
  · rw [List.append_nil, addrs_last_concat]
    simp
  · rw [← List.append_assoc, addrs_last_concat]
    constructor
    · intro same
      simp [addrs, List.nodup_append, same] at nodup
    · simp

theorem address_ne_of_mem {h : Heap} {pre post : List Block} {b c : Block}
    (rep : Represents h (pre ++ [b] ++ post)) (hc : c ∈ pre ++ post) : c.addr ≠ b.addr := by
  have nodup := represents_nodup rep
  intro same
  rcases List.mem_append.mp hc with hc | hc
  · simp only [addrs, List.map_append, List.nodup_append, List.mem_append, List.mem_map] at nodup
    exact nodup.1.2.2 c.addr ⟨c, hc, rfl⟩ b.addr (by simp) same
  · simp only [addrs, List.map_append, List.nodup_append, List.mem_append, List.mem_map] at nodup
    exact nodup.2.2 b.addr (Or.inr ⟨b, by simp, rfl⟩) c.addr ⟨c, hc, rfl⟩ same.symm

/- Rewriting one header in place, next included in the piece it belongs to. -/

theorem represents_set_free {h : Heap} {pre post : List Block} {b : Block} (free : Bool)
    (rep : Represents h (pre ++ [b] ++ post)) :
    Represents { h with mem := HeaderMem.setFree h.mem b.addr free }
      (pre ++ [⟨b.addr, b.size, free⟩] ++ post) := by
  have cell := rep.cells b (by simp)
  refine represents_replace rep rfl ?_ ?_ ?_ ?_
  · intro c hc
    exact Function.update_of_ne (address_ne_of_mem rep hc) _ _
  · intro a z piece
    simpa [addrs, links, HeaderMem.setFree] using piece
  · intro c hc
    rw [List.mem_singleton.mp hc]
    exact ⟨cell.1, by simp [HeaderMem.setFree, cell.2.1], by simp [HeaderMem.setFree]⟩
  · rw [rep.last]
    simp [addrs]

theorem represents_set_size {h : Heap} {pre post : List Block} {b : Block} (size : Nat)
    (rep : Represents h (pre ++ [b] ++ post)) :
    Represents { h with mem := HeaderMem.setSize h.mem b.addr size }
      (pre ++ [⟨b.addr, size, b.free⟩] ++ post) := by
  have cell := rep.cells b (by simp)
  refine represents_replace rep rfl ?_ ?_ ?_ ?_
  · intro c hc
    exact Function.update_of_ne (address_ne_of_mem rep hc) _ _
  · intro a z piece
    simpa [addrs, links, HeaderMem.setSize] using piece
  · intro c hc
    rw [List.mem_singleton.mp hc]
    exact ⟨cell.1, by simp [HeaderMem.setSize], by simp [HeaderMem.setSize, cell.2.2]⟩
  · rw [rep.last]
    simp [addrs]

theorem represents_insert_after {h : Heap} {pre post : List Block} {b n : Block}
    (rep : Represents h (pre ++ [b] ++ post)) (nonnull : n.addr ≠ 0)
    (fresh : ∀ c ∈ pre ++ [b] ++ post, c.addr ≠ n.addr) :
    Represents
      { h with
        mem := HeaderMem.setNext
          (Function.update h.mem n.addr ⟨n.size, n.free, (h.mem b.addr).next⟩) b.addr n.addr
        heapEnd := if b.addr = h.heapEnd then n.addr else h.heapEnd }
      (pre ++ [b, n] ++ post) := by
  have cell := rep.cells b (by simp)
  have apart : b.addr ≠ n.addr := fresh b (by simp)
  refine represents_replace rep rfl ?_ ?_ ?_ ?_
  · intro c hc
    have other : c.addr ≠ n.addr := by
      refine fresh c ?_
      rcases List.mem_append.mp hc with hc | hc <;> simp [hc]
    simp [HeaderMem.setNext, Function.update_of_ne (address_ne_of_mem rep hc),
      Function.update_of_ne other]
  · intro a z piece
    simpa [addrs, links, HeaderMem.setNext, Function.update_of_ne apart.symm] using piece
  · intro c hc
    simp only [List.mem_cons, List.not_mem_nil, or_false] at hc
    rcases hc with rfl | rfl
    · exact ⟨cell.1, by simp [HeaderMem.setNext, Function.update_of_ne apart, cell.2.1],
        by simp [HeaderMem.setNext, Function.update_of_ne apart, cell.2.2]⟩
    · exact ⟨nonnull, by simp [HeaderMem.setNext, Function.update_of_ne apart.symm],
        by simp [HeaderMem.setNext, Function.update_of_ne apart.symm]⟩
  · by_cases final : post = []
    · have here := (end_iff_last rep).mpr final
      subst final
      simp [here, addrs]
    · have elsewhere := mt (end_iff_last rep).mp final
      simp only [elsewhere, ↓reduceIte]
      rw [rep.last]
      exact addrs_last_tail final

theorem represents_absorb {h : Heap} {pre post : List Block} {p n : Block}
    (rep : Represents h (pre ++ [p, n] ++ post)) (fits : p.size + (32 + n.size) < 2 ^ 64) :
    Represents (absorb h p.addr n.addr)
      (pre ++ [⟨p.addr, p.size + 32 + n.size, p.free⟩] ++ post) := by
  have cellP := rep.cells p (by simp)
  have cellN := rep.cells n (by simp)
  have asP : Represents h (pre ++ [p] ++ ([n] ++ post)) := by simpa using rep
  have sum : add64 (h.mem p.addr).size (add64 headerSize (h.mem n.addr).size) =
      p.size + 32 + n.size := by
    rw [cellP.2.1, cellN.2.1, header_size_eq, add64_eq (a := 32) (by omega), add64_eq fits]
    omega
  refine represents_replace rep rfl ?_ ?_ ?_ ?_
  · intro c hc
    have other : c.addr ≠ p.addr := by
      refine address_ne_of_mem asP ?_
      rcases List.mem_append.mp hc with hc | hc <;> simp [hc]
    simp [absorb, HeaderMem.setNext, HeaderMem.setSize, Function.update_of_ne other]
  · intro a z piece
    simp only [addrs, List.map_cons, List.map_nil, segment_cons, segment_nil] at piece ⊢
    simpa [links, absorb, HeaderMem.setNext, HeaderMem.setSize] using ⟨piece.1, piece.2.2⟩
  · intro c hc
    rw [List.mem_singleton.mp hc]
    refine ⟨cellP.1, ?_, ?_⟩
    · simp [absorb, HeaderMem.setNext, HeaderMem.setSize, sum]
    · simp [absorb, HeaderMem.setNext, HeaderMem.setSize, cellP.2.2]
  · have asN : Represents h (pre ++ [p] ++ [n] ++ post) := by simpa using rep
    by_cases final : post = []
    · have here := (end_iff_last asN).mpr final
      subst final
      simp [absorb, here, addrs]
    · have elsewhere := mt (end_iff_last asN).mp final
      simp only [absorb, elsewhere, ↓reduceIte]
      rw [rep.last]
      exact addrs_last_tail final

/- The edits kmalloc and kfree make. -/

def carve (size : Nat) (b : Block) : List Block :=
  if size + 48 ≤ b.size then
    [⟨b.addr, size, false⟩, ⟨b.addr + 32 + size, b.size - size - 32, true⟩]
  else [⟨b.addr, b.size, false⟩]

theorem represents_take_block {h : Heap} {pre post : List Block} {b : Block} {size : Nat}
    (rep : Represents h (pre ++ [b] ++ post)) (fit : size ≤ b.size)
    (small : b.addr + 32 + b.size + 64 < 2 ^ 64)
    (apart : ∀ c ∈ pre ++ post, ¬ b.range.Has c.addr) :
    Represents (takeBlock h b.addr size) (pre ++ carve size b ++ post) := by
  have cell := rep.cells b (by simp)
  have total : add64 (add64 size headerSize) 16 = size + 48 := by
    rw [header_size_eq, add64_eq (a := size) (by omega), add64_eq (by omega)]
  by_cases room : size + 48 ≤ b.size
  · have target : add64 (add64 b.addr headerSize) size = b.addr + 32 + size := by
      rw [header_size_eq, add64_eq (a := b.addr) (by omega), add64_eq (by omega)]
    have rest : sub64 (sub64 b.size size) headerSize = b.size - size - 32 := by
      rw [header_size_eq, sub64_eq (a := b.size) fit (by omega), sub64_eq (by omega) (by omega)]
    have sized := represents_set_size size rep
    have fresh : ∀ c ∈ pre ++ [⟨b.addr, size, b.free⟩] ++ post, c.addr ≠ b.addr + 32 + size := by
      intro c hc same
      simp only [List.mem_append, List.mem_singleton] at hc
      rcases hc with (hc | rfl) | hc
      · exact apart c (by simp [hc]) (by simp only [Range.Has, Block.range]; omega)
      · simp only at same
        omega
      · exact apart c (by simp [hc]) (by simp only [Range.Has, Block.range]; omega)
    have inserted := represents_insert_after (n := ⟨b.addr + 32 + size, b.size - size - 32, true⟩)
      sized (by simp) fresh
    have asHead : pre ++ [⟨b.addr, size, b.free⟩, ⟨b.addr + 32 + size, b.size - size - 32, true⟩]
        ++ post = pre ++ [⟨b.addr, size, b.free⟩] ++
          (⟨b.addr + 32 + size, b.size - size - 32, true⟩ :: post) := by simp
    rw [asHead] at inserted
    have freed := represents_set_free false inserted
    have result : carve size b = [⟨b.addr, size, false⟩, ⟨b.addr + 32 + size, b.size - size - 32, true⟩] := by
      simp [carve, room]
    rw [result]
    have asHead' : pre ++ [⟨b.addr, size, false⟩, ⟨b.addr + 32 + size, b.size - size - 32, true⟩]
        ++ post = pre ++ [⟨b.addr, size, false⟩] ++
          (⟨b.addr + 32 + size, b.size - size - 32, true⟩ :: post) := by simp
    rw [asHead']
    have ne : b.addr ≠ b.addr + 32 + size := by omega
    have memory : (takeBlock h b.addr size).mem = HeaderMem.setFree (HeaderMem.setNext
        (Function.update (HeaderMem.setSize h.mem b.addr size) (b.addr + 32 + size)
          ⟨b.size - size - 32, true, (h.mem b.addr).next⟩) b.addr (b.addr + 32 + size)) b.addr false := by
      simp only [takeBlock, total, cell.2.1, room, ↓reduceIte, target, rest, HeaderMem.setFree,
        HeaderMem.setNext, HeaderMem.setSize, Function.update_self, Function.update_of_ne ne]
      rw [Function.update_comm ne]
    refine ⟨?_, ?_, ?_⟩
    · rw [memory]
      simpa [takeBlock, total, cell.2.1, room, HeaderMem.setSize] using freed.chain
    · rw [memory]
      simpa [HeaderMem.setSize] using freed.cells
    · have last := freed.last
      simp only [takeBlock, total, cell.2.1, room, ↓reduceIte, target]
      exact last
  · have result : carve size b = [⟨b.addr, b.size, false⟩] := by simp [carve, room]
    have freed := represents_set_free false rep
    rw [result]
    refine ⟨?_, ?_, ?_⟩
    · simpa [takeBlock, total, cell.2.1, room] using freed.chain
    · simpa [takeBlock, total, cell.2.1, room] using freed.cells
    · simpa [takeBlock, total, cell.2.1, room] using freed.last

end Archarch.KernelHeap
