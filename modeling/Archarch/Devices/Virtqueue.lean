import Mathlib.Algebra.Group.Nat.Defs
import Archarch.Foundations.Chain

/- The split virtqueue of virtqueue.c. Ptr is the type of the buffer addresses a driver puts
   into descriptors; the barriers and the kick have no effect on the rings. -/
namespace Archarch.Virtqueues
open LinkedChain

def virtqMaxSize : Nat := 256
def descNone : Nat := 0xFFFF
def vringDescFNext : BitVec 16 := 1
def vringDescFWrite : BitVec 16 := 2

structure Desc (Ptr : Type) where
  addr : Ptr
  len : Nat
  flags : BitVec 16
  next : Nat

structure UsedElem where
  id : Nat
  len : Nat

/-- avail->idx is always equal to avail_idx of the driver. used->idx and the used ring belong
   to the device. -/
structure Virtqueue (Ptr : Type) where
  num : Nat
  desc : Nat → Desc Ptr
  availRing : Nat → Nat
  availIdx : BitVec 16
  usedRing : Nat → UsedElem
  usedIdx : BitVec 16
  freeHead : Nat
  lastUsedIdx : BitVec 16

structure Buf (Ptr : Type) where
  addr : Ptr
  len : Nat
  flags : BitVec 16

def virtqueueInit {Ptr : Type} (null : Ptr) (size : Nat) : Virtqueue Ptr :=
  let num := if virtqMaxSize < size then virtqMaxSize else size
  { num := num
    desc := fun i => ⟨null, 0, 0, if i + 1 = num then descNone else i + 1⟩
    availRing := fun _ => 0
    availIdx := 0
    usedRing := fun _ => ⟨0, 0⟩
    usedIdx := 0
    freeHead := 0
    lastUsedIdx := 0 }

section Driver
variable {Ptr : Type}

/-- for (i = 0; i < count; i++), which follows next but for the last round. -/
def enoughFree (q : Virtqueue Ptr) (idx : Nat) : Nat → Bool
  | 0 => true
  | n + 1 =>
    if idx = descNone then false
    else if n = 0 then true
    else enoughFree q (q.desc idx).next n

def setDesc (q : Virtqueue Ptr) (i : Nat) (d : Desc Ptr) : Virtqueue Ptr :=
  { q with desc := Function.update q.desc i d }

def setFreeHead (q : Virtqueue Ptr) (head : Nat) : Virtqueue Ptr := { q with freeHead := head }

def fillChain (q : Virtqueue Ptr) (idx : Nat) : List (Buf Ptr) → Virtqueue Ptr
  | [] => q
  | [b] => setFreeHead (setDesc q idx ⟨b.addr, b.len, b.flags, 0⟩) (q.desc idx).next
  | b :: rest =>
    fillChain (setDesc q idx ⟨b.addr, b.len, b.flags ||| vringDescFNext, (q.desc idx).next⟩)
      (q.desc idx).next rest

def publish (q : Virtqueue Ptr) (head : Nat) : Virtqueue Ptr :=
  { q with
    availRing := Function.update q.availRing (q.availIdx.toNat % q.num) head
    availIdx := q.availIdx + 1 }

/-- none stands for the result 0xFFFF. -/
def virtqueueAddChain (q : Virtqueue Ptr) (bufs : List (Buf Ptr)) : Option (Nat × Virtqueue Ptr) :=
  if enoughFree q q.freeHead bufs.length then
    some (q.freeHead, publish (fillChain q q.freeHead bufs) q.freeHead)
  else none

/-- The loop that gives a chain back; none when it is not through in so many rounds. -/
def freeChain (q : Virtqueue Ptr) (cur : Nat) : Nat → Option (Virtqueue Ptr)
  | 0 => none
  | n + 1 =>
    let d := q.desc cur
    let given := setFreeHead (setDesc q cur { d with next := q.freeHead }) cur
    if d.flags &&& vringDescFNext ≠ 0 then freeChain given d.next n else some given

/-- The result is 0 with none, and 1 with the head and the length of a used element. An
   index is of 16 bits, so the rounds are enough for each chain that repeats no descriptor. -/
def virtqueueGetUsed (q : Virtqueue Ptr) : Option (Option (Nat × Nat) × Virtqueue Ptr) :=
  if q.lastUsedIdx = q.usedIdx then some (none, q)
  else
    let e := q.usedRing (q.lastUsedIdx.toNat % q.num)
    let head := e.id % 2 ^ 16
    (freeChain q head (2 ^ 16)).map fun q =>
      (some (head, e.len), { q with lastUsedIdx := q.lastUsedIdx + 1 })

def chainAt (q : Virtqueue Ptr) (head : Nat) : Nat → List (Desc Ptr)
  | 0 => []
  | n + 1 =>
    q.desc head :: if (q.desc head).flags &&& vringDescFNext ≠ 0 then chainAt q (q.desc head).next n
      else []

def bufOf (d : Desc Ptr) : Buf Ptr := ⟨d.addr, d.len, d.flags &&& ~~~vringDescFNext⟩

def pushUsed (q : Virtqueue Ptr) (e : UsedElem) : Virtqueue Ptr :=
  { q with
    usedRing := Function.update q.usedRing (q.usedIdx.toNat % q.num) e
    usedIdx := q.usedIdx + 1 }

end Driver

/- Chains and the free list. -/

section Chains
variable {Ptr : Type} {q r : Virtqueue Ptr} {bufs : List (Buf Ptr)} {chain free l : List Nat}

def nextOf (q : Virtqueue Ptr) (i : Nat) : Nat := (q.desc i).next

theorem set_desc_self {i : Nat} {d : Desc Ptr} : (setDesc q i d).desc i = d :=
  Function.update_self _ _ _

theorem set_desc_other {i k : Nat} {d : Desc Ptr} (other : k ≠ i) :
    (setDesc q i d).desc k = q.desc k := Function.update_of_ne other _ _

structure FreeList (q : Virtqueue Ptr) (free : List Nat) : Prop where
  linked : Segment (nextOf q) q.freeHead free descNone
  inside : ∀ i ∈ free, i < descNone

theorem free_list_nodup (list : FreeList q free) : free.Nodup :=
  segment_nodup list.linked fun member => Nat.lt_irrefl _ (list.inside _ member)

def Describes (q : Virtqueue Ptr) : List Nat → List (Buf Ptr) → Prop
  | [i], [b] => q.desc i = ⟨b.addr, b.len, b.flags, 0⟩
  | i :: j :: is, b :: bs =>
    q.desc i = ⟨b.addr, b.len, b.flags ||| vringDescFNext, j⟩ ∧ Describes q (j :: is) bs
  | _, _ => False

theorem describes_congr (same : ∀ i ∈ chain, r.desc i = q.desc i) (holds : Describes q chain bufs) :
    Describes r chain bufs := by
  induction chain generalizing bufs with
  | nil => exact holds.elim
  | cons i is ih =>
    cases is with
    | nil =>
      match bufs, holds with
      | [b], here => exact (same i (by simp)).trans here
    | cons j is =>
      match bufs, holds with
      | b :: bs, here =>
        exact ⟨(same i (by simp)).trans here.1, ih (fun k hk => same k (by simp [hk])) here.2⟩

theorem describes_length (holds : Describes q chain bufs) : chain.length = bufs.length := by
  induction chain generalizing bufs with
  | nil => exact holds.elim
  | cons i is ih =>
    cases is with
    | nil =>
      match bufs, holds with
      | [b], _ => rfl
    | cons j is =>
      match bufs, holds with
      | b :: bs, here =>
        exact congrArg (· + 1) (ih here.2)

theorem enough_free_iff {idx n : Nat} (linked : Segment (nextOf q) idx l descNone)
    (inside : ∀ i ∈ l, i < descNone) : enoughFree q idx n = true ↔ n ≤ l.length := by
  induction n generalizing idx l with
  | zero => simp [enoughFree]
  | succ n ih =>
    rw [enoughFree]
    cases l with
    | nil =>
      rw [if_pos (segment_nil.mp linked)]
      simp
    | cons i is =>
      obtain ⟨rfl, rest⟩ := linked
      have bound := inside idx (by simp)
      rw [if_neg (by omega)]
      by_cases last : n = 0
      · rw [if_pos last, last]
        simp
      · rw [if_neg last]
        refine (ih rest (fun k hk => inside k (by simp [hk]))).trans ?_
        simp

structure SameRings (q r : Virtqueue Ptr) : Prop where
  num : r.num = q.num
  availRing : r.availRing = q.availRing
  availIdx : r.availIdx = q.availIdx
  usedRing : r.usedRing = q.usedRing
  usedIdx : r.usedIdx = q.usedIdx
  lastUsedIdx : r.lastUsedIdx = q.lastUsedIdx

theorem same_rings_trans {u : Virtqueue Ptr} (first : SameRings q r) (second : SameRings r u) :
    SameRings q u :=
  ⟨second.num.trans first.num, second.availRing.trans first.availRing,
    second.availIdx.trans first.availIdx, second.usedRing.trans first.usedRing,
    second.usedIdx.trans first.usedIdx, second.lastUsedIdx.trans first.lastUsedIdx⟩

theorem same_rings_set_desc (q : Virtqueue Ptr) (i : Nat) (d : Desc Ptr) :
    SameRings q (setDesc q i d) := ⟨rfl, rfl, rfl, rfl, rfl, rfl⟩

theorem same_rings_set_free_head (q : Virtqueue Ptr) (head : Nat) :
    SameRings q (setFreeHead q head) := ⟨rfl, rfl, rfl, rfl, rfl, rfl⟩

theorem segment_set_desc {a i stop : Nat} {d : Desc Ptr} (absent : i ∉ l)
    (linked : Segment (nextOf q) a l stop) : Segment (nextOf (setDesc q i d)) a l stop := by
  refine (segment_congr ?_).mp linked
  intro k member
  have other : k ≠ i := by
    rintro rfl
    exact absent member
  rw [nextOf, nextOf, set_desc_other other]

theorem fill_chain_spec {idx stop : Nat} (linked : Segment (nextOf q) idx l stop) (nodup : l.Nodup)
    (nonempty : bufs ≠ []) (enough : bufs.length ≤ l.length) :
    ∃ chain rest, l = chain ++ rest ∧ chain.length = bufs.length ∧ chain.head? = some idx ∧
      Describes (fillChain q idx bufs) chain bufs ∧
      Segment (nextOf (fillChain q idx bufs)) (fillChain q idx bufs).freeHead rest stop ∧
      (∀ i, i ∉ chain → (fillChain q idx bufs).desc i = q.desc i) ∧
      SameRings q (fillChain q idx bufs) := by
  induction bufs generalizing q idx l with
  | nil => exact absurd rfl nonempty
  | cons b bs ih =>
    cases l with
    | nil => simp at enough
    | cons i is =>
      obtain ⟨rfl, tail⟩ := linked
      obtain ⟨absent, nodupTail⟩ := List.nodup_cons.mp nodup
      cases bs with
      | nil =>
        refine ⟨[idx], is, rfl, rfl, rfl, set_desc_self, segment_set_desc absent tail, ?_,
          same_rings_trans (same_rings_set_desc q idx _) (same_rings_set_free_head _ _)⟩
        intro k outside
        exact set_desc_other (by simpa using outside)
      | cons b' bs =>
        obtain ⟨chain, rest, split, length, head, describes, left, same, rings⟩ := ih
          (q := setDesc q idx ⟨b.addr, b.len, b.flags ||| vringDescFNext, (q.desc idx).next⟩)
          (segment_set_desc absent tail) nodupTail (by simp) (by simpa using enough)
        have notHere : idx ∉ chain := by
          intro member
          exact absent (by rw [split]; exact List.mem_append_left _ member)
        refine ⟨idx :: chain, rest, by rw [split, List.cons_append], by simp [length], rfl, ?_, left, ?_,
          same_rings_trans (same_rings_set_desc q idx _) rings⟩
        · cases chain with
          | nil => simp at head
          | cons j js =>
            obtain rfl : j = nextOf q idx := Option.some.inj head
            exact ⟨(same idx notHere).trans set_desc_self, describes⟩
        · intro k outside
          rw [List.mem_cons, not_or] at outside
          exact (same k outside.2).trans (set_desc_other outside.1)

theorem has_next_flag (flags : BitVec 16) : (flags ||| vringDescFNext) &&& vringDescFNext ≠ 0 := by
  intro zero
  have bit := congrArg (fun w : BitVec 16 => w.getLsbD 0) zero
  simp [vringDescFNext] at bit

theorem without_next {flags : BitVec 16} (plain : flags &&& vringDescFNext = 0) :
    flags &&& ~~~vringDescFNext = flags ∧ (flags ||| vringDescFNext) &&& ~~~vringDescFNext = flags := by
  have low : flags[0] = false := by
    have bit := congrArg (fun w : BitVec 16 => w[0]) plain
    simpa [vringDescFNext] using bit
  have other : ∀ i : Nat, ∀ inside : i < 16, vringDescFNext[i] = decide (i = 0) := by decide
  constructor
  · apply BitVec.eq_of_getElem_eq
    intro i inside
    cases i with
    | zero => simp [low]
    | succ i => simp [other (i + 1) inside]
  · apply BitVec.eq_of_getElem_eq
    intro i inside
    cases i with
    | zero => simp [low, other 0 inside]
    | succ i => simp [other (i + 1) inside]

theorem describes_bufs (describes : Describes q chain bufs)
    (flags : ∀ b ∈ bufs, b.flags &&& vringDescFNext = 0) : chain.map (fun i => bufOf (q.desc i)) = bufs := by
  induction chain generalizing bufs with
  | nil => exact describes.elim
  | cons i is ih =>
    cases is with
    | nil =>
      match bufs, describes, flags with
      | [b], here, flags =>
        have last : q.desc i = ⟨b.addr, b.len, b.flags, 0⟩ := here
        simp [bufOf, last, (without_next (flags b (by simp))).1]
    | cons j js =>
      match bufs, describes, flags with
      | b :: bs, here, flags =>
        have rest := ih here.2 fun c member => flags c (by simp [member])
        rw [List.map_cons, rest, here.1]
        simp [bufOf, (without_next (flags b (by simp))).2]

theorem free_chain_spec {cur fuel stop : Nat} (describes : Describes q chain bufs)
    (flags : ∀ b ∈ bufs, b.flags &&& vringDescFNext = 0) (nodup : chain.Nodup)
    (head : chain.head? = some cur) (linked : Segment (nextOf q) q.freeHead free stop)
    (apart : ∀ i ∈ chain, i ∉ free) (enough : chain.length ≤ fuel) :
    ∃ r, freeChain q cur fuel = some r ∧
      Segment (nextOf r) r.freeHead (chain.reverse ++ free) stop ∧ SameRings q r ∧
      ∀ i, i ∉ chain → r.desc i = q.desc i := by
  induction chain generalizing q bufs cur free fuel with
  | nil => simp at head
  | cons i is ih =>
    obtain rfl : i = cur := Option.some.inj head
    obtain ⟨absent, nodupTail⟩ := List.nodup_cons.mp nodup
    obtain ⟨n, rfl⟩ : ∃ n, fuel = n + 1 := by
      rw [List.length_cons] at enough
      exact ⟨fuel - 1, by omega⟩
    have given : Segment (nextOf (setDesc q i { q.desc i with next := q.freeHead })) i (i :: free) stop := by
      refine ⟨rfl, ?_⟩
      rw [nextOf, set_desc_self]
      exact segment_set_desc (apart i (by simp)) linked
    have rings := same_rings_trans (same_rings_set_desc q i { q.desc i with next := q.freeHead })
      (same_rings_set_free_head _ i)
    cases is with
    | nil =>
      match bufs, describes, flags with
      | [b], here, flags =>
        have noNext : (q.desc i).flags &&& vringDescFNext = 0 := by
          rw [here]
          exact flags b (by simp)
        refine ⟨_, by rw [freeChain, if_neg (not_not.mpr noNext)], given, rings, ?_⟩
        intro k outside
        exact set_desc_other (List.mem_singleton.not.mp outside)
    | cons j js =>
      match bufs, describes, flags with
      | b :: bs, ⟨here, rest⟩, flags =>
        have hasNext : (q.desc i).flags &&& vringDescFNext ≠ 0 := by
          rw [here]
          exact has_next_flag b.flags
        have nextHere : (q.desc i).next = j := by rw [here]
        have describesRest : Describes (setFreeHead (setDesc q i { q.desc i with next := q.freeHead }) i)
            (j :: js) bs := by
          refine describes_congr ?_ rest
          intro k member
          refine set_desc_other ?_
          rintro rfl
          exact absent member
        obtain ⟨r, done, linkedR, ringsR, same⟩ := ih describesRest
          (fun c hc => flags c (by simp [hc])) nodupTail rfl given
          (fun k member inFree => by
            rcases List.mem_cons.mp inFree with rfl | inFree
            · exact absent member
            · exact apart k (by simp [member]) inFree)
          (show (j :: js).length ≤ n by simpa using enough)
        refine ⟨r, ?_, ?_, same_rings_trans rings ringsR, ?_⟩
        · rw [freeChain, if_pos hasNext, nextHere]
          exact done
        · rw [List.reverse_cons, List.append_assoc]
          exact linkedR
        · intro k outside
          rw [List.mem_cons, not_or] at outside
          exact (same k outside.2).trans (set_desc_other outside.1)

theorem chain_at_spec {cur fuel : Nat} (describes : Describes q chain bufs)
    (flags : ∀ b ∈ bufs, b.flags &&& vringDescFNext = 0) (head : chain.head? = some cur)
    (enough : chain.length ≤ fuel) : chainAt q cur fuel = chain.map q.desc := by
  induction chain generalizing bufs cur fuel with
  | nil => simp at head
  | cons i is ih =>
    obtain rfl : i = cur := Option.some.inj head
    obtain ⟨n, rfl⟩ : ∃ n, fuel = n + 1 := by
      rw [List.length_cons] at enough
      exact ⟨fuel - 1, by omega⟩
    cases is with
    | nil =>
      match bufs, describes, flags with
      | [b], here, flags =>
        have noNext : (q.desc i).flags &&& vringDescFNext = 0 := by
          rw [here]
          exact flags b (by simp)
        rw [chainAt, if_neg (not_not.mpr noNext)]
        rfl
    | cons j js =>
      match bufs, describes, flags with
      | b :: bs, ⟨here, rest⟩, flags =>
        have hasNext : (q.desc i).flags &&& vringDescFNext ≠ 0 := by
          rw [here]
          exact has_next_flag b.flags
        have nextHere : (q.desc i).next = j := by rw [here]
        rw [chainAt, if_pos hasNext, nextHere, ih rest (fun c hc => flags c (by simp [hc])) rfl
          (show (j :: js).length ≤ n by simpa using enough)]
        rfl

structure Added (q r : Virtqueue Ptr) (bufs : List (Buf Ptr)) (chain rest : List Nat) : Prop where
  length : chain.length = bufs.length
  head : chain.head? = some q.freeHead
  describes : Describes r chain bufs
  free : FreeList r rest
  num : r.num = q.num
  availRing : r.availRing (q.availIdx.toNat % q.num) = q.freeHead
  availIdx : r.availIdx = q.availIdx + 1
  older : ∀ i, i ≠ q.availIdx.toNat % q.num → r.availRing i = q.availRing i
  used : r.usedRing = q.usedRing ∧ r.usedIdx = q.usedIdx ∧ r.lastUsedIdx = q.lastUsedIdx
  same : ∀ i, i ∉ chain → r.desc i = q.desc i

theorem virtqueue_add_chain_spec (list : FreeList q free) (nonempty : bufs ≠ []) :
    (virtqueueAddChain q bufs = none ∧ free.length < bufs.length) ∨
    ∃ chain rest r, virtqueueAddChain q bufs = some (q.freeHead, r) ∧ free = chain ++ rest ∧
      Added q r bufs chain rest := by
  have iff := enough_free_iff (n := bufs.length) list.linked list.inside
  unfold virtqueueAddChain
  split
  · rename_i enough
    obtain ⟨chain, rest, split, length, head, describes, left, same, rings⟩ :=
      fill_chain_spec list.linked (free_list_nodup list) nonempty (iff.mp enough)
    refine Or.inr ⟨chain, rest, _, rfl, split, length, head,
      describes_congr (q := fillChain q q.freeHead bufs) (fun _ _ => rfl) describes,
      ⟨left, fun i member => list.inside i (by rw [split]; exact List.mem_append_right _ member)⟩,
      rings.num, ?_, ?_, ?_, ⟨rings.usedRing, rings.usedIdx, rings.lastUsedIdx⟩, same⟩
    · rw [publish, rings.availIdx, rings.num]
      exact Function.update_self _ _ _
    · rw [publish, rings.availIdx]
    · intro i other
      rw [publish, rings.availIdx, rings.num, rings.availRing]
      exact Function.update_of_ne other _ _
  · rename_i few
    rw [iff] at few
    exact Or.inl ⟨rfl, by omega⟩

theorem virtqueue_get_used_spec {head : Nat} (pending : q.lastUsedIdx ≠ q.usedIdx)
    (element : (q.usedRing (q.lastUsedIdx.toNat % q.num)).id = head)
    (describes : Describes q chain bufs) (flags : ∀ b ∈ bufs, b.flags &&& vringDescFNext = 0)
    (first : chain.head? = some head) (list : FreeList q free) (nodup : chain.Nodup)
    (inside : ∀ i ∈ chain, i < descNone) (apart : ∀ i ∈ chain, i ∉ free)
    (short : chain.length ≤ 2 ^ 16) :
    ∃ r len, virtqueueGetUsed q = some (some (head, len), r) ∧ FreeList r (chain.reverse ++ free) ∧
      r.num = q.num ∧ r.availRing = q.availRing ∧ r.availIdx = q.availIdx ∧ r.usedRing = q.usedRing ∧
      r.usedIdx = q.usedIdx ∧ r.lastUsedIdx = q.lastUsedIdx + 1 ∧
      (∀ i, i ∉ chain → r.desc i = q.desc i) ∧
      len = (q.usedRing (q.lastUsedIdx.toNat % q.num)).len := by
  have bound : head < descNone := by
    refine inside head ?_
    cases chain with
    | nil => simp at first
    | cons i is =>
      rw [← Option.some.inj first]
      simp
  have word : head % 2 ^ 16 = head := by
    rw [descNone] at bound
    omega
  obtain ⟨r, done, linked, rings, same⟩ :=
    free_chain_spec describes flags nodup first list.linked apart short
  refine ⟨{ r with lastUsedIdx := r.lastUsedIdx + 1 },
    (q.usedRing (q.lastUsedIdx.toNat % q.num)).len, ?_, ⟨linked, ?_⟩, rings.num, rings.availRing,
    rings.availIdx, rings.usedRing, rings.usedIdx, ?_, same, rfl⟩
  · rw [virtqueueGetUsed, if_neg pending]
    dsimp only
    rw [element, word, done]
    rfl
  · intro i member
    rcases List.mem_append.mp member with member | member
    · exact inside i (List.mem_reverse.mp member)
    · exact list.inside i member
  · rw [rings.lastUsedIdx]

theorem init_free_list {null : Ptr} {size : Nat} (some : 0 < size) :
    FreeList (virtqueueInit null size) (List.range (virtqueueInit null size).num) := by
  have bound : 0 < (virtqueueInit null size).num ∧ (virtqueueInit null size).num ≤ 256 := by
    simp only [virtqueueInit]
    by_cases large : virtqMaxSize < size
    · rw [if_pos large, virtqMaxSize]
      omega
    · rw [if_neg large]
      rw [virtqMaxSize] at large
      omega
  have linked : ∀ n first, first + (n + 1) = (virtqueueInit null size).num →
      Segment (nextOf (virtqueueInit null size)) first (List.range' first (n + 1)) descNone := by
    intro n
    induction n with
    | zero =>
      intro first last
      exact ⟨rfl, if_pos last⟩
    | succ n ih =>
      intro first inner
      refine ⟨rfl, ?_⟩
      have next : nextOf (virtqueueInit null size) first = first + 1 := by
        refine if_neg ?_
        intro last
        exact absurd (inner.trans last.symm) (by omega)
      rw [next]
      exact ih (first + 1) (by omega)
  obtain ⟨n, count⟩ : ∃ n, (virtqueueInit null size).num = n + 1 :=
    ⟨(virtqueueInit null size).num - 1, by omega⟩
  refine ⟨?_, ?_⟩
  · rw [List.range_eq_range', count]
    exact linked n 0 (by omega)
  · intro i member
    have := List.mem_range.mp member
    rw [descNone]
    omega

end Chains
end Archarch.Virtqueues
