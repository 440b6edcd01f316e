import Archarch.Devices.RingRuns

/- The receive buffers of virtio_net.c and virtio_input.c: a pool of slots that are all posted to a queue at the
   start, and one that is posted again as soon as it was read. A table says which slot a descriptor is for. -/
namespace Archarch.ReceiveBuffers
open Virtqueues LabelledRuns LinkedChain

abbrev Byte := BitVec 8

/-- What the two drivers do differently: how many slots there are and how long, the queue size asked for, the
    bytes in front of the payload, and the length from which on there is a payload. -/
structure Pool where
  ringSize : Nat
  bufLen : Nat
  desired : Nat
  header : Nat
  least : Nat
  power : ∃ k, k ≤ 8 ∧ desired = 2 ^ k

def virtioNetHdrSize : Nat := 12
def netMtu : Nat := 1514
def inputEventSize : Nat := 8

def netPool : Pool where
  ringSize := 16
  bufLen := virtioNetHdrSize + netMtu + 2
  desired := 256
  header := virtioNetHdrSize
  least := virtioNetHdrSize + 1
  power := ⟨8, by decide, rfl⟩

def inputPool : Pool where
  ringSize := 64
  bufLen := inputEventSize
  desired := 64
  header := 0
  least := inputEventSize
  power := ⟨6, by decide, rfl⟩

/-- A copy of length 0 is not the same as no completion for the pool, although virtio_net_rx returns 0 for both. -/
inductive Outcome
  | nothing
  | short
  | got (bytes : List Byte)
  deriving DecidableEq

/-- A queue with its device, desc_to_rxbuf or desc_to_evt, and the slots. A buffer address is the number of its
    slot. For each completion written has the head of its chain and what the device wrote; taken has for each
    completion read how much room there was and what came of it. -/
structure Receiver where
  ring : RingState (Option Nat)
  slotOf : Nat → Nat
  buffers : Nat → List Byte
  written : List (Nat × List Byte)
  taken : List (Nat × Outcome)

section Driver
variable (p : Pool)

def slotBuf (slot : Nat) : Buf (Option Nat) := ⟨some slot, p.bufLen, vringDescFWrite⟩

/-- post_rx_buffer, post_evt_buffer -/
def postBuffer (s : Receiver) (slot : Nat) : Option Receiver :=
  match virtqueueAddChain s.ring.core.queue [slotBuf p slot] with
  | none => some s
  | some (descIdx, _) =>
    (ringStep s.ring (.add [slotBuf p slot])).map fun ring =>
      { s with ring := ring, slotOf := Function.update s.slotOf descIdx slot }

def slotCount (s : Receiver) : Nat :=
  if p.ringSize > s.ring.core.queue.num then s.ring.core.queue.num else p.ringSize

/-- The first n rounds of the loop of fill_rx_queue, fill_evt_queue. -/
def fillRounds (s : Receiver) : Nat → Option Receiver
  | 0 => some s
  | n + 1 => (fillRounds s n).bind fun s => postBuffer p s n

def fillQueue (s : Receiver) : Option Receiver := fillRounds p s (slotCount p s)

/-- virtio_pci_setup_queue, for a device that allows this size. -/
def setupQueue (maxSize : Nat) (slotOf : Nat → Nat) (buffers : Nat → List Byte) : Receiver where
  ring := ⟨⟨virtqueueInit none (if p.desired > maxSize then maxSize else p.desired), []⟩, 0, [], [], [], [], []⟩
  slotOf := slotOf
  buffers := buffers
  written := []
  taken := []

def takeUsed (s : Receiver) : Option (Option (Nat × Nat) × Receiver) :=
  match virtqueueGetUsed s.ring.core.queue with
  | none => none
  | some (result, _) => (ringStep s.ring .getUsed).map fun ring => (result, { s with ring := ring })

def copyOut (room : Nat) (buffer : List Byte) (len : Nat) : Outcome :=
  if p.least ≤ len then .got ((buffer.drop p.header).take (min (len - p.header) room)) else .short

/-- The part that virtio_net_rx and virtio_input_poll have in common. -/
def receive (s : Receiver) (room : Nat) : Option (Outcome × Receiver) :=
  (takeUsed s).bind fun (used, s) =>
    match used with
    | none => some (.nothing, s)
    | some (descIdx, len) =>
      let slot := s.slotOf descIdx
      let out := copyOut p room (s.buffers slot) len
      (postBuffer p s slot).map fun s => (out, { s with taken := s.taken ++ [(room, out)] })

end Driver

/-- The device reads the next available entry, or writes into the buffer of an entry that it holds and uses it. -/
inductive DeviceEvent
  | fetch
  | complete (i : Nat) (data : List Byte)

def writeBuffer (s : Receiver) (head : Nat) (data : List Byte) : Nat → List Byte :=
  match (s.ring.core.queue.desc head).addr with
  | none => s.buffers
  | some slot => Function.update s.buffers slot (data ++ (s.buffers slot).drop data.length)

def deviceStep (s : Receiver) : DeviceEvent → Option Receiver
  | .fetch => (ringStep s.ring .fetch).map fun ring => { s with ring := ring }
  | .complete i data =>
    match s.ring.held[i]? with
    | none => none
    | some head =>
      (ringStep s.ring (.complete i data.length)).map fun ring =>
        { s with
          ring := ring
          buffers := writeBuffer s head data
          written := s.written ++ [(head, data)] }

def atDevice (s : Receiver) : List Nat := (s.ring.added.drop s.ring.seen.length).map Prod.fst ++ s.ring.held

def unconsumed (s : Receiver) : List Nat := usedHeads s.ring.core.queue

def flightDescs (s : Receiver) : List Nat := s.ring.core.inFlight.flatMap Posted.descs

structure Posting (p : Pool) (s : Receiver) (slots : List Nat) (waiting : List (Nat × List (Buf (Option Nat))))
    (arrived : List (Nat × Nat)) : Prop where
  ring : RingInv s.ring waiting arrived
  posted : ∀ c ∈ s.ring.core.inFlight, ∃ d, c.descs = [d] ∧ c.bufs = [slotBuf p (s.slotOf d)]
  table : ((flightDescs s).map s.slotOf).Perm slots
  distinct : slots.Nodup
  completed : s.ring.completed = s.written.map fun w => (w.1, w.2.length)
  holds : ∀ w ∈ s.written.drop s.ring.reported.length, w.2 <+: s.buffers (s.slotOf w.1)

structure Record (p : Pool) (s : Receiver) : Prop where
  length : s.taken.length = s.ring.reported.length
  copied : ∀ (k room : Nat) (out : Outcome), s.taken[k]? = some (room, out) →
    ∃ w, s.written[k]? = some w ∧ out = copyOut p room w.2 w.2.length

section Pools
variable {p : Pool} {s t : Receiver} {slots others : List Nat} {waiting : List (Nat × List (Buf (Option Nat)))}
  {arrived : List (Nat × Nat)} {slot d e room : Nat} {data : List Byte}

theorem heads_single {l : List (Posted (Option Nat))} (single : ∀ c ∈ l, ∃ d, c.descs = [d]) :
    heads l = (l.flatMap Posted.descs).map some := by
  induction l with
  | nil => rfl
  | cons c l ih =>
    obtain ⟨d, here⟩ := single c List.mem_cons_self
    have rest := ih fun c member => single c (List.mem_cons_of_mem _ member)
    simp only [heads, List.map_cons, List.flatMap_cons, here, List.head?_cons, List.singleton_append] at rest ⊢
    rw [rest]

theorem flight_perm (posting : Posting p s slots waiting arrived) :
    (waiting.map Prod.fst ++ s.ring.held ++ arrived.map Prod.fst).Perm (flightDescs s) := by
  have share := posting.ring.share
  rw [heads_single fun c member => (posting.posted c member).imp fun _ single => single.1] at share
  have bare := share.filterMap id
  simpa [flightDescs] using bare

theorem flight_nodup (posting : Posting p s slots waiting arrived) : (flightDescs s).Nodup := by
  obtain ⟨free, core⟩ := posting.ring.core
  exact (List.nodup_append.mp (partition_nodup core)).2.1

theorem flight_count (posting : Posting p s slots waiting arrived) : (flightDescs s).length = slots.length := by
  have count := posting.table.length_eq
  rwa [List.length_map] at count

theorem flight_chain (posting : Posting p s slots waiting arrived) (member : d ∈ flightDescs s) :
    ∃ c ∈ s.ring.core.inFlight, c.descs = [d] ∧ c.bufs = [slotBuf p (s.slotOf d)] := by
  obtain ⟨c, inFlight, inside⟩ := List.mem_flatMap.mp member
  obtain ⟨d', single, bufs⟩ := posting.posted c inFlight
  rw [single, List.mem_singleton] at inside
  subst inside
  exact ⟨c, inFlight, single, bufs⟩

theorem flight_desc (posting : Posting p s slots waiting arrived) (member : d ∈ flightDescs s) :
    s.ring.core.queue.desc d = ⟨some (s.slotOf d), p.bufLen, vringDescFWrite, 0⟩ := by
  obtain ⟨free, core⟩ := posting.ring.core
  obtain ⟨c, inFlight, single, bufs⟩ := flight_chain posting member
  have describes := core.describes c inFlight
  rw [single, bufs] at describes
  exact describes

theorem slot_injective (posting : Posting p s slots waiting arrived) (hd : d ∈ flightDescs s)
    (he : e ∈ flightDescs s) (same : s.slotOf d = s.slotOf e) : d = e := by
  have nodup := posting.table.nodup_iff.mpr posting.distinct
  exact List.inj_on_of_nodup_map nodup hd he same

theorem arrived_eq (posting : Posting p s slots waiting arrived) :
    arrived = (s.written.drop s.ring.reported.length).map fun w => (w.1, w.2.length) := by
  have all := posting.ring.completed
  rw [posting.completed] at all
  rw [List.map_drop, all, List.drop_left]

theorem slot_plain (p : Pool) (slot : Nat) : NoNext [slotBuf p slot] := by
  intro b member
  rw [List.mem_singleton.mp member]
  have write : vringDescFWrite &&& vringDescFNext = 0 := by decide
  exact write

def postedRing (p : Pool) (s : Receiver) (r : Virtqueue (Option Nat)) (slot : Nat) : RingState (Option Nat) :=
  { s.ring with
    core := ⟨r, ⟨[s.ring.core.queue.freeHead], [slotBuf p slot]⟩ :: s.ring.core.inFlight⟩
    added := s.ring.added ++ [(s.ring.core.queue.freeHead, [slotBuf p slot])] }

def posted (p : Pool) (s : Receiver) (r : Virtqueue (Option Nat)) (slot : Nat) : Receiver :=
  { s with
    ring := postedRing p s r slot
    slotOf := Function.update s.slotOf s.ring.core.queue.freeHead slot }

theorem posted_ring_step {r : Virtqueue (Option Nat)}
    (done : virtqueueAddChain s.ring.core.queue [slotBuf p slot] = some (s.ring.core.queue.freeHead, r)) :
    ringStep s.ring (.add [slotBuf p slot]) = some (postedRing p s r slot) := by
  simp only [ringStep, queueStep, done, Option.map_some]
  rfl

theorem post_buffer_eq {r : Virtqueue (Option Nat)}
    (done : virtqueueAddChain s.ring.core.queue [slotBuf p slot] = some (s.ring.core.queue.freeHead, r)) :
    postBuffer p s slot = some (posted p s r slot) := by
  unfold postBuffer
  rw [done]
  simp only [posted_ring_step done, Option.map_some]
  rfl

theorem posting_perm (posting : Posting p s slots waiting arrived) (same : slots.Perm others) :
    Posting p s others waiting arrived := by
  constructor
  · exact posting.ring
  · exact posting.posted
  · exact posting.table.trans same
  · exact same.nodup_iff.mp posting.distinct
  · exact posting.completed
  · exact posting.holds

theorem free_head_outside {free chain rest : List Nat} (core : Conserved s.ring.core free)
    (split : free = chain ++ rest) (single : chain = [s.ring.core.queue.freeHead]) :
    ∀ d ∈ flightDescs s, d ≠ s.ring.core.queue.freeHead := by
  intro d member same
  have isFree : s.ring.core.queue.freeHead ∈ free := by
    rw [split, single]
    exact List.mem_append_left _ (List.mem_singleton_self _)
  obtain ⟨c, inFlight, inside⟩ := List.mem_flatMap.mp member
  rw [same] at inside
  exact (in_flight_member core inFlight inside).2 isFree

/-- While a slot is not posted a descriptor is left for it. -/
theorem add_chain_succeeds (slot : Nat) (posting : Posting p s slots waiting arrived)
    (space : slots.length < s.ring.core.queue.num) : ∃ r,
      virtqueueAddChain s.ring.core.queue [slotBuf p slot] = some (s.ring.core.queue.freeHead, r) ∧
      r.num = s.ring.core.queue.num ∧ ∀ d ∈ flightDescs s, d ≠ s.ring.core.queue.freeHead := by
  obtain ⟨free, core⟩ := posting.ring.core
  have count := flight_count posting
  have total := core.partition.length_eq
  rw [List.length_append, List.length_range] at total
  rcases virtqueue_add_chain_spec core.list (List.cons_ne_nil (slotBuf p slot) []) with
    ⟨_, few⟩ | ⟨chain, rest, r, done, split, after⟩
  · rw [List.length_singleton] at few
    unfold flightDescs at count
    omega
  · obtain ⟨head, single⟩ := List.length_eq_one_iff.mp after.length
    have first := after.head
    rw [single, List.head?_cons, Option.some.injEq] at first
    subst first
    exact ⟨r, done, after.num, free_head_outside core split single⟩

theorem post_posting (posting : Posting p s slots waiting arrived) (fresh : slot ∉ slots)
    (space : slots.length < s.ring.core.queue.num) : ∃ r next, postBuffer p s slot = some (posted p s r slot) ∧
      r.num = s.ring.core.queue.num ∧ Posting p (posted p s r slot) (slot :: slots) next arrived := by
  obtain ⟨r, done, num, outside⟩ := add_chain_succeeds slot posting space
  obtain ⟨next, ring⟩ :=
    add_ring_inv posting.ring (List.cons_ne_nil _ _) (slot_plain p slot) (posted_ring_step done)
  have self : (posted p s r slot).slotOf s.ring.core.queue.freeHead = slot := Function.update_self _ _ _
  have kept : ∀ d ∈ flightDescs s, (posted p s r slot).slotOf d = s.slotOf d := by
    intro d member
    exact Function.update_of_ne (outside d member) _ _
  refine ⟨r, next, post_buffer_eq done, num, ?_⟩
  constructor
  · exact ring
  · intro c member
    rcases List.mem_cons.mp member with rfl | old
    · exact ⟨s.ring.core.queue.freeHead, rfl, by rw [self]⟩
    · obtain ⟨d, single, bufs⟩ := posting.posted c old
      have inside : d ∈ flightDescs s := by
        apply List.mem_flatMap.mpr ⟨c, old, _⟩
        rw [single]
        exact List.mem_singleton_self d
      exact ⟨d, single, by rw [kept d inside]; exact bufs⟩
  · have grown : flightDescs (posted p s r slot) = s.ring.core.queue.freeHead :: flightDescs s := rfl
    rw [grown, List.map_cons, self, List.map_congr_left kept]
    exact posting.table.cons slot
  · exact List.nodup_cons.mpr ⟨fresh, posting.distinct⟩
  · exact posting.completed
  · intro w member
    have inside : w.1 ∈ flightDescs s := by
      apply (flight_perm posting).mem_iff.mp
      apply List.mem_append_right
      rw [arrived_eq posting, List.map_map]
      exact List.mem_map_of_mem member
    rw [kept w.1 inside]
    exact posting.holds w member

theorem oldest_written {len : Nat} {rest : List (Nat × Nat)} (posting : Posting p s slots waiting arrived)
    (oldest : arrived = (d, len) :: rest) : ∃ data, data.length = len ∧
      s.written[s.ring.reported.length]? = some (d, data) ∧
      s.written.drop s.ring.reported.length = (d, data) :: s.written.drop (s.ring.reported.length + 1) := by
  have lists := arrived_eq posting
  rw [oldest] at lists
  obtain ⟨w, ws, split, here, -⟩ := List.map_eq_cons_iff.mp lists.symm
  have found : s.written[s.ring.reported.length]? = some w := by
    have first := congrArg (fun l => l[0]?) split
    simpa using first
  obtain ⟨head, data⟩ := w
  rw [Prod.mk.injEq] at here
  obtain ⟨rfl, size⟩ := here
  obtain ⟨inside, at_⟩ := List.getElem?_eq_some_iff.mp found
  refine ⟨data, size, found, ?_⟩
  rw [List.drop_eq_getElem_cons inside, at_]

theorem take_used_posting (posting : Posting p s slots waiting arrived)
    (more : s.ring.core.queue.lastUsedIdx ≠ s.ring.core.queue.usedIdx) : ∃ w rest ring others,
      s.written[s.ring.reported.length]? = some w ∧ arrived = (w.1, w.2.length) :: rest ∧
      takeUsed s = some (some (w.1, w.2.length), { s with ring := ring }) ∧ w.2 <+: s.buffers (s.slotOf w.1) ∧
      Posting p { s with ring := ring } others waiting rest ∧ slots.Perm (s.slotOf w.1 :: others) ∧
      ring.core.queue.num = s.ring.core.queue.num ∧
      ring.reported.length = s.ring.reported.length + 1 := by
  obtain ⟨free, core⟩ := posting.ring.core
  obtain ⟨c, pre, post, head, len, queue, split, first, -, -, got, -, -, -, num, -, -, done, -⟩ :=
    get_used_inv core more
  have stepped : ringStep s.ring .getUsed =
      some { s.ring with core := ⟨queue, pre ++ post⟩, reported := s.ring.reported ++ [(head, len)] } := by
    simp only [ringStep, got, done, Option.map_some]
  obtain ⟨rest, ring⟩ := get_used_ring_inv posting.ring stepped
  have oldest : arrived = (head, len) :: rest := by
    have before := posting.ring.completed
    have after := ring.completed
    rw [before, List.append_assoc] at after
    exact List.append_cancel_left after
  obtain ⟨data, rfl, found, drops⟩ := oldest_written posting oldest
  have bound : s.ring.reported.length + 1 = (s.ring.reported ++ [(head, data.length)]).length := by
    rw [List.length_append, List.length_singleton]
  obtain ⟨d, single, -⟩ := posting.posted c (by rw [split]; exact List.mem_append_right _ List.mem_cons_self)
  rw [single, List.head?_cons, Option.some.injEq] at first
  subst first
  have share : ((flightDescs s).map s.slotOf).Perm
      (s.slotOf d :: ((pre ++ post).flatMap Posted.descs).map s.slotOf) := by
    rw [flightDescs, split, List.flatMap_append, List.flatMap_append, List.flatMap_cons, single]
    simp only [List.map_append, List.singleton_append, List.map_cons]
    exact List.perm_middle
  have table := posting.table.symm.trans share
  refine ⟨(d, data), rest,
    { s.ring with core := ⟨queue, pre ++ post⟩, reported := s.ring.reported ++ [(d, data.length)] },
    ((pre ++ post).flatMap Posted.descs).map s.slotOf, found, oldest, ?_, ?_, ?_, table, num, bound.symm⟩
  · unfold takeUsed
    rw [got]
    simp only [stepped, Option.map_some]
  · exact posting.holds (d, data) (by rw [drops]; exact List.mem_cons_self)
  · constructor
    · exact ring
    · intro e member
      apply posting.posted e
      rw [split]
      rcases List.mem_append.mp member with inPre | inPost
      · exact List.mem_append_left _ inPre
      · exact List.mem_append_right _ (List.mem_cons_of_mem _ inPost)
    · exact List.Perm.refl _
    · exact (List.nodup_cons.mp (table.nodup_iff.mp posting.distinct)).2
    · exact posting.completed
    · intro w member
      apply posting.holds w
      rw [drops]
      apply List.mem_cons_of_mem
      rw [bound]
      exact member

theorem take_used_nothing (empty : s.ring.core.queue.lastUsedIdx = s.ring.core.queue.usedIdx) :
    takeUsed s = some (none, s) := by
  simp only [takeUsed, ringStep, virtqueueGetUsed, if_pos empty, Option.map_some]

theorem copy_out_written (p : Pool) (room : Nat) {buffer : List Byte} (holds : data <+: buffer) :
    copyOut p room buffer data.length = copyOut p room data data.length := by
  obtain ⟨rest, rfl⟩ := holds
  unfold copyOut
  have inside : min (data.length - p.header) room ≤ (data.drop p.header).length := by
    rw [List.length_drop]
    exact Nat.min_le_left _ _
  rw [List.drop_append, List.take_append_of_le_length inside]

theorem receive_posting (posting : Posting p s slots waiting arrived) (record : Record p s)
    (fits : slots.length ≤ s.ring.core.queue.num) (room : Nat) :
    (unconsumed s = [] ∧ s.written[s.taken.length]? = none ∧ receive p s room = some (.nothing, s)) ∨
    ∃ w t waiting' arrived', s.written[s.taken.length]? = some w ∧
      receive p s room = some (copyOut p room w.2 w.2.length, t) ∧
      t.taken = s.taken ++ [(room, copyOut p room w.2 w.2.length)] ∧ t.written = s.written ∧
      t.ring.core.queue.num = s.ring.core.queue.num ∧ Posting p t slots waiting' arrived' ∧ Record p t := by
  by_cases empty : s.ring.core.queue.lastUsedIdx = s.ring.core.queue.usedIdx
  · left
    have none : arrived = [] := (arrived_iff posting.ring).mp empty
    have lists := arrived_eq posting
    rw [none] at lists
    have behind := List.drop_eq_nil_iff.mp (List.map_eq_nil_iff.mp lists.symm)
    refine ⟨used_heads_nil.mpr empty, ?_, ?_⟩
    · rw [record.length]
      exact List.getElem?_eq_none behind
    · unfold receive
      rw [take_used_nothing empty]
      rfl
  · right
    obtain ⟨w, rest, ring, others, found, oldest, took, holds, mid, share, num, reported⟩ :=
      take_used_posting posting empty
    have apart := (List.nodup_cons.mp (share.nodup_iff.mp posting.distinct)).1
    have less := share.length_eq
    rw [List.length_cons] at less
    obtain ⟨r, next, done, kept, after⟩ := post_posting mid apart (by rw [num]; omega)
    have copied := copy_out_written p room holds
    let out := copyOut p room w.2 w.2.length
    let t := { posted p { s with ring := ring } r (s.slotOf w.1) with taken := s.taken ++ [(room, out)] }
    refine ⟨w, t, next, rest, by rw [record.length]; exact found, ?_, rfl, rfl, kept.trans num, ?_, ?_⟩
    · unfold receive
      rw [took]
      simp only [Option.bind_some]
      rw [done, copied]
      rfl
    · have again := posting_perm after share.symm
      exact ⟨again.ring, again.posted, again.table, again.distinct, again.completed, again.holds⟩
    · constructor
      · change (s.taken ++ [(room, out)]).length = ring.reported.length
        rw [List.length_append, List.length_singleton, record.length, reported]
      · intro k room' out' entry
        change (s.taken ++ [(room, out)])[k]? = some (room', out') at entry
        by_cases old : k < s.taken.length
        · rw [List.getElem?_append_left old] at entry
          exact record.copied k room' out' entry
        · rw [List.getElem?_append_right (by omega)] at entry
          obtain ⟨inside, at_⟩ := List.getElem?_eq_some_iff.mp entry
          rw [List.length_singleton] at inside
          obtain rfl : k = s.taken.length := by omega
          simp only [Nat.sub_self, List.getElem_cons_zero, Prod.mk.injEq] at at_
          obtain ⟨rfl, rfl⟩ := at_
          exact ⟨w, by rw [record.length]; exact found, rfl⟩

theorem fetch_posting (posting : Posting p s slots waiting arrived) (record : Record p s)
    (step : deviceStep s .fetch = some t) : ∃ next, Posting p t slots next arrived ∧ Record p t ∧
      t.ring.core.queue.num = s.ring.core.queue.num := by
  obtain ⟨ring, stepped, rfl⟩ := Option.map_eq_some_iff.mp step
  obtain ⟨next, after⟩ := fetch_ring_inv posting.ring stepped
  have same : ring.core = s.ring.core ∧ ring.completed = s.ring.completed ∧ ring.reported = s.ring.reported := by
    simp only [ringStep] at stepped
    split at stepped
    · cases stepped
    · cases stepped
      exact ⟨rfl, rfl, rfl⟩
  obtain ⟨core, completed, reported⟩ := same
  refine ⟨next, ⟨after, ?_, ?_, posting.distinct, ?_, ?_⟩, ⟨?_, record.copied⟩, ?_⟩
  · rw [core]
    exact posting.posted
  · simp only [flightDescs, core]
    exact posting.table
  · rw [completed]
    exact posting.completed
  · rw [reported]
    exact posting.holds
  · rw [reported]
    exact record.length
  · rw [core]

theorem write_buffer_eq {head : Nat} (data : List Byte) (posting : Posting p s slots waiting arrived)
    (member : head ∈ flightDescs s) :
    writeBuffer s head data =
      Function.update s.buffers (s.slotOf head) (data ++ (s.buffers (s.slotOf head)).drop data.length) := by
  unfold writeBuffer
  rw [flight_desc posting member]

theorem complete_posting {i : Nat} (posting : Posting p s slots waiting arrived) (record : Record p s)
    (step : deviceStep s (.complete i data) = some t) : ∃ next, Posting p t slots waiting next ∧ Record p t ∧
      t.ring.core.queue.num = s.ring.core.queue.num := by
  simp only [deviceStep] at step
  split at step
  · cases step
  rename_i head found
  obtain ⟨ring, stepped, rfl⟩ := Option.map_eq_some_iff.mp step
  obtain ⟨next, after⟩ := complete_ring_inv posting.ring stepped
  simp only [ringStep, found, Option.map_some, Option.some.injEq] at stepped
  subst stepped
  have shared := flight_perm posting
  have holds : head ∈ flightDescs s := by
    apply shared.mem_iff.mp
    apply List.mem_append_left
    exact List.mem_append_right _ (List.mem_of_getElem? found)
  have written := write_buffer_eq data posting holds
  have within : s.ring.reported.length ≤ s.written.length := by
    have lengths := congrArg List.length posting.completed
    rw [posting.ring.completed, List.length_append, List.length_map] at lengths
    omega
  refine ⟨next, ⟨after, posting.posted, posting.table, posting.distinct, ?_, ?_⟩, ⟨record.length, ?_⟩, rfl⟩
  · simp only [List.map_append, List.map_cons, List.map_nil, posting.completed]
  · intro w member
    simp only [List.drop_append_of_le_length within, List.mem_append, List.mem_singleton] at member
    simp only [written]
    rcases member with old | rfl
    · have inArrived : w.1 ∈ arrived.map Prod.fst := by
        rw [arrived_eq posting, List.map_map]
        exact List.mem_map_of_mem old
      have inFlight : w.1 ∈ flightDescs s := shared.mem_iff.mp (List.mem_append_right _ inArrived)
      have other : w.1 ≠ head := by
        intro same
        have nodup := shared.nodup_iff.mpr (flight_nodup posting)
        rw [List.nodup_append] at nodup
        exact nodup.2.2 head (List.mem_append_right _ (List.mem_of_getElem? found)) w.1 inArrived same.symm
      have apart : s.slotOf w.1 ≠ s.slotOf head := fun same => other (slot_injective posting inFlight holds same)
      rw [Function.update_of_ne apart]
      exact posting.holds w old
    · rw [Function.update_self]
      exact List.prefix_append _ _
  · intro k room out entry
    obtain ⟨w, here, same⟩ := record.copied k room out entry
    refine ⟨w, ?_, same⟩
    exact (List.getElem?_append_left (List.getElem?_eq_some_iff.mp here).1).trans here

theorem device_posting {event : DeviceEvent} (posting : Posting p s slots waiting arrived) (record : Record p s)
    (step : deviceStep s event = some t) : ∃ waiting' arrived', Posting p t slots waiting' arrived' ∧
      Record p t ∧ t.ring.core.queue.num = s.ring.core.queue.num := by
  cases event with
  | fetch =>
    obtain ⟨next, after⟩ := fetch_posting posting record step
    exact ⟨next, arrived, after⟩
  | complete i data =>
    obtain ⟨next, after⟩ := complete_posting posting record step
    exact ⟨waiting, next, after⟩

end Pools

end Archarch.ReceiveBuffers
