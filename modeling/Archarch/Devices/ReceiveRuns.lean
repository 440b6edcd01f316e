import Archarch.Devices.ReceiveBuffers

/- virtio_net_rx and virtio_input_poll between devices that complete the posted buffers in any order. No buffer is
   lost, and what the calls deliver is what the devices wrote, in the order of the used rings. -/
namespace Archarch.ReceiveBuffers
open Virtqueues LabelledRuns

def Outcome.bytes : Outcome → List Byte
  | .got bytes => bytes
  | _ => []

def virtioNetRx (s : Receiver) (bufSize : Nat) : Option (List Byte × Receiver) :=
  (receive netPool s bufSize).map fun (out, s) => (out.bytes, s)

structure VirtioInputEvent where
  type : Nat
  code : Nat
  value : Nat
  deriving DecidableEq

def littleEndian (bytes : List Byte) : Nat := bytes.foldr (fun b n => b.toNat + 256 * n) 0

def eventOf (bytes : List Byte) : VirtioInputEvent :=
  ⟨littleEndian (bytes.take 2), littleEndian ((bytes.drop 2).take 2), littleEndian ((bytes.drop 4).take 4)⟩

/-- The loop over the devices from i on, of which n are left. -/
def pollFrom (inputs : Nat → Receiver) (i : Nat) : Nat → Option (Option VirtioInputEvent × (Nat → Receiver))
  | 0 => some (none, inputs)
  | n + 1 =>
    (receive inputPool (inputs i) inputEventSize).bind fun (out, s) =>
      let inputs := Function.update inputs i s
      match out with
      | .got bytes => some (some (eventOf bytes), inputs)
      | _ => pollFrom inputs (i + 1) n

def virtioInputPoll (count : Nat) (inputs : Nat → Receiver) :
    Option (Option VirtioInputEvent × (Nat → Receiver)) :=
  pollFrom inputs 0 count

/-- count is input_dev_count. -/
structure Receivers where
  net : Receiver
  count : Nat
  inputs : Nat → Receiver

inductive ReceiveEvent
  | net (event : DeviceEvent)
  | input (i : Nat) (event : DeviceEvent)
  | rx (bufSize : Nat)
  | poll

def receiveStep (s : Receivers) : ReceiveEvent → Option Receivers
  | .net event => (deviceStep s.net event).map fun net => { s with net := net }
  | .input i event =>
    if i < s.count then
      (deviceStep (s.inputs i) event).map fun r => { s with inputs := Function.update s.inputs i r }
    else none
  | .rx bufSize => (virtioNetRx s.net bufSize).map fun (_, net) => { s with net := net }
  | .poll => (virtioInputPoll s.count s.inputs).map fun (_, inputs) => { s with inputs := inputs }

def WithinBuffer (p : Pool) : DeviceEvent → Prop
  | .fetch => True
  | .complete _ data => data.length ≤ p.bufLen

def Lawful (_ : Receivers) : ReceiveEvent → Prop
  | .net event => WithinBuffer netPool event
  | .input _ event => WithinBuffer inputPool event
  | _ => True

instance withinBufferDecidable (p : Pool) (event : DeviceEvent) : Decidable (WithinBuffer p event) :=
  match event with
  | .fetch => inferInstanceAs (Decidable True)
  | .complete _ data => inferInstanceAs (Decidable (data.length ≤ p.bufLen))

instance lawfulDecidable (s : Receivers) (event : ReceiveEvent) : Decidable (Lawful s event) :=
  match event with
  | .net event => inferInstanceAs (Decidable (WithinBuffer netPool event))
  | .input _ event => inferInstanceAs (Decidable (WithinBuffer inputPool event))
  | .rx _ => inferInstanceAs (Decidable True)
  | .poll => inferInstanceAs (Decidable True)

def Filled (p : Pool) (s : Receiver) : Prop :=
  ∃ k slotOf buffers, fillQueue p (setupQueue p (2 ^ k) slotOf buffers) = some s

def maxInputDevs : Nat := 4

structure Started (s : Receivers) : Prop where
  net : Filled netPool s.net
  count : s.count ≤ maxInputDevs
  inputs : ∀ i < s.count, Filled inputPool (s.inputs i)

/-- A call that copies a completion stays in its slot. -/
def WithinSlots (p : Pool) (s : Receiver) : Prop := ∀ w ∈ s.written, w.2.length ≤ p.bufLen

/-- Every slot is with the device or waits to be taken, for one descriptor, which has its address; what was taken is
    what was written; a slot that is being read is with the driver alone, and can be posted again. -/
structure Conserves (p : Pool) (s : Receiver) : Prop where
  slots : ((atDevice s ++ unconsumed s).map s.slotOf).Perm (List.range (slotCount p s))
  mapped : ∀ d ∈ atDevice s ++ unconsumed s,
    s.ring.core.queue.desc d = ⟨some (s.slotOf d), p.bufLen, vringDescFWrite, 0⟩
  taken : s.taken.length + (unconsumed s).length = s.written.length
  copied : ∀ (k room : Nat) (out : Outcome), s.taken[k]? = some (room, out) →
    ∃ w, s.written[k]? = some w ∧ out = copyOut p room w.2 w.2.length
  within : WithinSlots p s
  alone : unconsumed s ≠ [] → ∃ d len mid, takeUsed s = some (some (d, len), mid) ∧
    (∀ e ∈ atDevice mid ++ unconsumed mid, (mid.ring.core.queue.desc e).addr ≠ some (s.slotOf d)) ∧
      (virtqueueAddChain mid.ring.core.queue [slotBuf p (s.slotOf d)]).isSome

def oldest (s : Receiver) : Option (List Byte) := (s.written[s.taken.length]?).map Prod.snd

structure TookOne (s t : Receiver) : Prop where
  taken : t.taken.length = s.taken.length + 1
  written : t.written = s.written

/-- virtio_net_rx delivers the frame behind the header, cut to the buffer of the caller. -/
def RxDelivers (s : Receiver) : Prop :=
  ∀ bufSize, (oldest s = none ∧ virtioNetRx s bufSize = some ([], s)) ∨
    ∃ data t, oldest s = some data ∧
      virtioNetRx s bufSize = some ((data.drop virtioNetHdrSize).take bufSize, t) ∧ TookOne s t

def Passed (s t : Receiver) : Prop :=
  (oldest s = none ∧ t = s) ∨ ∃ data, oldest s = some data ∧ data.length < inputEventSize ∧ TookOne s t

structure Polled (i n : Nat) (inputs after : Nat → Receiver) (found : Option VirtioInputEvent) (stop : Nat) :
    Prop where
  bounds : i ≤ stop ∧ stop ≤ i + n
  passed : ∀ j, i ≤ j → j < stop → Passed (inputs j) (after j)
  rest : ∀ j, j < i ∨ stop < j ∨ i + n ≤ j → after j = inputs j
  result : (stop = i + n ∧ found = none) ∨ (stop < i + n ∧ ∃ data, oldest (inputs stop) = some data ∧
    inputEventSize ≤ data.length ∧ found = some (eventOf (data.take inputEventSize)) ∧
      TookOne (inputs stop) (after stop))

structure BuffersConserved (s : Receivers) : Prop where
  net : Conserves netPool s.net
  inputs : ∀ i < s.count, Conserves inputPool (s.inputs i)
  rx : RxDelivers s.net
  poll : ∃ found after stop, virtioInputPoll s.count s.inputs = some (found, after) ∧
    Polled 0 s.count s.inputs after found stop

/-- Between calls all slots are posted. -/
def Kept (p : Pool) (s : Receiver) : Prop :=
  ∃ waiting arrived, Posting p s (List.range (slotCount p s)) waiting arrived ∧ Record p s

section Filling
variable {p : Pool} {s t : Receiver} {k n : Nat} {slotOf : Nat → Nat} {buffers : Nat → List Byte}

theorem slot_count_congr (same : t.ring.core.queue.num = s.ring.core.queue.num) : slotCount p t = slotCount p s := by
  unfold slotCount
  rw [same]

theorem slot_count_le (p : Pool) (s : Receiver) : slotCount p s ≤ s.ring.core.queue.num := by
  unfold slotCount
  split <;> omega

theorem setup_power (p : Pool) (k : Nat) (slotOf : Nat → Nat) (buffers : Nat → List Byte) :
    PowerQueue (setupQueue p (2 ^ k) slotOf buffers).ring := by
  obtain ⟨j, small, desired⟩ := p.power
  have limit : 2 ^ j ≤ virtqMaxSize := Nat.pow_le_pow_right (by decide) small
  constructor
  · by_cases larger : p.desired > 2 ^ k
    · refine ⟨none, k, by omega, ?_⟩
      simp only [setupQueue, if_pos larger]
    · refine ⟨none, j, limit, ?_⟩
      rw [← desired]
      simp only [setupQueue, if_neg larger]
  · exact ⟨rfl, rfl⟩
  · exact ⟨rfl, rfl, rfl, rfl⟩

theorem setup_posting (p : Pool) (k : Nat) (slotOf : Nat → Nat) (buffers : Nat → List Byte) :
    Posting p (setupQueue p (2 ^ k) slotOf buffers) [] [] [] := by
  constructor
  · exact power_queue_inv (setup_power p k slotOf buffers)
  · exact nofun
  · exact List.Perm.nil
  · exact List.nodup_nil
  · rfl
  · exact nofun

theorem fill_posting (rounds : n ≤ slotCount p (setupQueue p (2 ^ k) slotOf buffers)) : ∃ t waiting,
    fillRounds p (setupQueue p (2 ^ k) slotOf buffers) n = some t ∧ Posting p t (List.range n) waiting [] ∧
      t.ring.core.queue.num = (setupQueue p (2 ^ k) slotOf buffers).ring.core.queue.num ∧
      t.taken = [] ∧ t.ring.reported = [] := by
  induction n with
  | zero => exact ⟨_, [], rfl, setup_posting p k slotOf buffers, rfl, rfl, rfl⟩
  | succ n ih =>
    obtain ⟨t, waiting, filled, posting, num, taken, reported⟩ := ih (by omega)
    have bound := slot_count_le p (setupQueue p (2 ^ k) slotOf buffers)
    have fresh : n ∉ List.range n := List.not_mem_range_self
    obtain ⟨r, next, done, kept, after⟩ := post_posting posting fresh (by rw [List.length_range, num]; omega)
    refine ⟨_, next, ?_, posting_perm after ?_, kept.trans num, taken, reported⟩
    · rw [fillRounds, filled]
      exact done
    · rw [List.range_succ]
      exact (List.perm_append_singleton n (List.range n)).symm

theorem filled_kept (filled : Filled p s) : Kept p s := by
  obtain ⟨k, slotOf, buffers, fill⟩ := filled
  obtain ⟨t, waiting, done, posting, num, taken, reported⟩ := fill_posting (Nat.le_refl _)
  rw [fillQueue, done] at fill
  cases fill
  refine ⟨waiting, [], ?_, ?_, ?_⟩
  · rw [slot_count_congr num]
    exact posting
  · rw [taken, reported]
    rfl
  · rw [taken]
    intro k room out entry
    cases entry

theorem fill_rounds_written : ∀ {n t}, fillRounds p s n = some t → t.written = s.written := by
  intro n
  induction n with
  | zero =>
    intro t filled
    cases filled
    rfl
  | succ n ih =>
    intro t filled
    obtain ⟨u, before, posted⟩ := Option.bind_eq_some_iff.mp filled
    rw [← ih before]
    unfold postBuffer at posted
    split at posted
    · cases posted
      rfl
    · obtain ⟨_, _, rfl⟩ := Option.map_eq_some_iff.mp posted
      rfl

theorem filled_within (filled : Filled p s) : WithinSlots p s := by
  obtain ⟨k, slotOf, buffers, fill⟩ := filled
  rw [WithinSlots, fill_rounds_written fill]
  exact nofun

end Filling

section Calls
variable {p : Pool} {s t : Receiver} {inputs after : Nat → Receiver} {i n stop room : Nat}

theorem device_kept {event : DeviceEvent} (kept : Kept p s) (step : deviceStep s event = some t) : Kept p t := by
  obtain ⟨waiting, arrived, posting, record⟩ := kept
  obtain ⟨waiting, arrived, posting, record, num⟩ := device_posting posting record step
  rw [← slot_count_congr num] at posting
  exact ⟨waiting, arrived, posting, record⟩

theorem receive_kept (kept : Kept p s) (room : Nat) :
    (unconsumed s = [] ∧ oldest s = none ∧ receive p s room = some (.nothing, s)) ∨
    ∃ data t, oldest s = some data ∧ receive p s room = some (copyOut p room data data.length, t) ∧
      TookOne s t ∧ Kept p t := by
  obtain ⟨waiting, arrived, posting, record⟩ := kept
  have fits : (List.range (slotCount p s)).length ≤ s.ring.core.queue.num := by
    rw [List.length_range]
    exact slot_count_le p s
  rcases receive_posting posting record fits room with
    ⟨empty, behind, nothing⟩ | ⟨w, t, waiting, arrived, found, done, taken, written, num, posting, record⟩
  · left
    exact ⟨empty, by rw [oldest, behind]; rfl, nothing⟩
  · right
    rw [← slot_count_congr num] at posting
    refine ⟨w.2, t, by rw [oldest, found]; rfl, done, ⟨?_, written⟩, waiting, arrived, posting, record⟩
    rw [taken, List.length_append, List.length_singleton]

theorem net_frame (data : List Byte) (bufSize : Nat) :
    (copyOut netPool bufSize data data.length).bytes = (data.drop virtioNetHdrSize).take bufSize := by
  unfold copyOut
  by_cases payload : netPool.least ≤ data.length
  · rw [if_pos payload]
    have cut := List.take_eq_take_min (l := data.drop virtioNetHdrSize) (i := bufSize)
    rw [List.length_drop, Nat.min_comm] at cut
    exact cut.symm
  · rw [if_neg payload]
    have short : data.length ≤ virtioNetHdrSize := Nat.le_of_lt_succ (Nat.lt_of_not_le payload)
    rw [List.drop_of_length_le short, List.take_nil]
    rfl

theorem rx_kept (kept : Kept netPool s) : RxDelivers s ∧ ∀ bufSize bytes t,
    virtioNetRx s bufSize = some (bytes, t) → Kept netPool t := by
  constructor
  · intro bufSize
    rcases receive_kept kept bufSize with ⟨-, none, nothing⟩ | ⟨data, t, first, done, took, -⟩
    · left
      refine ⟨none, ?_⟩
      rw [virtioNetRx, nothing]
      rfl
    · right
      refine ⟨data, t, first, ?_, took⟩
      simp only [virtioNetRx, done, Option.map_some, net_frame]
  · intro bufSize bytes t call
    rcases receive_kept kept bufSize with ⟨-, -, nothing⟩ | ⟨data, u, -, done, -, after⟩
    · rw [virtioNetRx, nothing] at call
      cases call
      exact kept
    · rw [virtioNetRx, done] at call
      cases call
      exact after

theorem input_event (data : List Byte) : copyOut inputPool inputEventSize data data.length =
    if inputEventSize ≤ data.length then .got (data.take inputEventSize) else .short := by
  unfold copyOut
  by_cases payload : inputEventSize ≤ data.length
  · have whole : min (data.length - 0) inputEventSize = inputEventSize := by omega
    rw [if_pos payload]
    exact (if_pos payload).trans (congrArg (fun n => Outcome.got (data.take n)) whole)
  · rw [if_neg payload]
    exact if_neg payload

theorem polled_next {found : Option VirtioInputEvent} {u : Receiver} (passes : Passed (inputs i) u)
    (polled : Polled (i + 1) n (Function.update inputs i u) after found stop) :
    Polled i (n + 1) inputs after found stop := by
  have bounds := polled.bounds
  have here : after i = u := by
    rw [polled.rest i (Or.inl (Nat.lt_succ_self i))]
    exact Function.update_self _ _ _
  have others : ∀ j, j ≠ i → Function.update inputs i u j = inputs j := fun j other =>
    Function.update_of_ne other _ _
  constructor
  · omega
  · intro j low high
    by_cases first : j = i
    · rw [first, here]
      exact passes
    · have passed := polled.passed j (by omega) high
      rwa [others j first] at passed
  · intro j outside
    have other : j ≠ i := by omega
    rw [polled.rest j (by omega), others j other]
  · rcases polled.result with ⟨all, none⟩ | ⟨inside, data, first, enough, event, took⟩
    · left
      exact ⟨by omega, none⟩
    · right
      rw [others stop (by omega)] at first took
      exact ⟨by omega, data, first, enough, event, took⟩

theorem poll_from_kept (kept : ∀ j, i ≤ j → j < i + n → Kept inputPool (inputs j)) :
    ∃ found after stop, pollFrom inputs i n = some (found, after) ∧ Polled i n inputs after found stop ∧
      ∀ j, i ≤ j → j < i + n → Kept inputPool (after j) := by
  induction n generalizing i inputs with
  | zero =>
    refine ⟨none, inputs, i, rfl, ?_, kept⟩
    constructor
    · omega
    · intro j low high
      omega
    · exact fun _ _ => rfl
    · exact Or.inl ⟨rfl, rfl⟩
  | succ n ih =>
    -- what is left to do when this device was passed, which left u behind
    have goOn : ∀ u, Passed (inputs i) u → Kept inputPool u →
        pollFrom inputs i (n + 1) = pollFrom (Function.update inputs i u) (i + 1) n →
        ∃ found after stop, pollFrom inputs i (n + 1) = some (found, after) ∧
          Polled i (n + 1) inputs after found stop ∧
            ∀ j, i ≤ j → j < i + (n + 1) → Kept inputPool (after j) := by
      intro u passes keptHere same
      have later : ∀ j, i + 1 ≤ j → j < i + 1 + n → Kept inputPool (Function.update inputs i u j) := by
        intro j low high
        rw [Function.update_of_ne (by omega)]
        exact kept j (by omega) (by omega)
      obtain ⟨found, after, stop, done, polled, keptAfter⟩ := ih later
      refine ⟨found, after, stop, same.trans done, polled_next passes polled, ?_⟩
      intro j low high
      by_cases first : j = i
      · rw [first, polled.rest i (Or.inl (Nat.lt_succ_self i)), Function.update_self]
        exact keptHere
      · exact keptAfter j (by omega) (by omega)
    have keptHere := kept i (Nat.le_refl i) (by omega)
    rcases receive_kept keptHere inputEventSize with
      ⟨-, none, nothing⟩ | ⟨data, t, first, done, took, keptAfter⟩
    · apply goOn (inputs i) (Or.inl ⟨none, rfl⟩) keptHere
      rw [pollFrom, nothing]
      rfl
    · rw [input_event] at done
      by_cases enough : inputEventSize ≤ data.length
      · rw [if_pos enough] at done
        refine ⟨some (eventOf (data.take inputEventSize)), Function.update inputs i t, i, ?_, ?_, ?_⟩
        · rw [pollFrom, done]
          rfl
        · constructor
          · omega
          · intro j low high
            omega
          · intro j outside
            exact Function.update_of_ne (by omega) _ _
          · right
            rw [Function.update_self]
            exact ⟨by omega, data, first, enough, rfl, took⟩
        · intro j low high
          by_cases here : j = i
          · rw [here, Function.update_self]
            exact keptAfter
          · rw [Function.update_of_ne here]
            exact kept j low high
      · rw [if_neg enough] at done
        apply goOn t (Or.inr ⟨data, first, Nat.lt_of_not_le enough, took⟩) keptAfter
        rw [pollFrom, done]
        rfl

theorem flight_places {slots : List Nat} {waiting : List (Nat × List (Buf (Option Nat)))}
    {arrived : List (Nat × Nat)} (posting : Posting p s slots waiting arrived) :
    (atDevice s ++ unconsumed s).Perm (flightDescs s) := by
  have device : atDevice s = waiting.map Prod.fst ++ s.ring.held := by
    rw [atDevice, posting.ring.added, ← seen_length, List.drop_left]
  rw [device, unconsumed, used_heads_arrived posting.ring]
  exact flight_perm posting

theorem taken_alone (kept : Kept p s) (more : unconsumed s ≠ []) : ∃ d len mid,
    takeUsed s = some (some (d, len), mid) ∧
      (∀ e ∈ atDevice mid ++ unconsumed mid, (mid.ring.core.queue.desc e).addr ≠ some (s.slotOf d)) ∧
        (virtqueueAddChain mid.ring.core.queue [slotBuf p (s.slotOf d)]).isSome := by
  obtain ⟨waiting, arrived, posting, record⟩ := kept
  obtain ⟨w, rest, ring, others, -, -, took, -, mid, share, num, -⟩ :=
    take_used_posting posting (used_heads_nil.not.mp more)
  have apart := (List.nodup_cons.mp (share.nodup_iff.mp posting.distinct)).1
  have less := share.length_eq
  rw [List.length_cons, List.length_range] at less
  have bound := slot_count_le p s
  refine ⟨w.1, w.2.length, _, took, ?_, ?_⟩
  · intro e member same
    have inFlight := (flight_places mid).mem_iff.mp member
    rw [flight_desc mid inFlight] at same
    apply apart
    rw [← Option.some.inj same]
    exact mid.table.mem_iff.mp (List.mem_map_of_mem inFlight)
  · obtain ⟨r, done, -⟩ := add_chain_succeeds (s.slotOf w.1) mid (by simp only [num]; omega)
    simp only [done, Option.isSome_some]

theorem device_within {event : DeviceEvent} (within : WithinSlots p s) (lawful : WithinBuffer p event)
    (step : deviceStep s event = some t) : WithinSlots p t := by
  cases event with
  | fetch =>
    obtain ⟨_, _, rfl⟩ := Option.map_eq_some_iff.mp step
    exact within
  | complete i data =>
    simp only [deviceStep] at step
    split at step
    · cases step
    · obtain ⟨_, _, rfl⟩ := Option.map_eq_some_iff.mp step
      intro w member
      rcases List.mem_append.mp member with before | new
      · exact within w before
      · rw [List.mem_singleton.mp new]
        exact lawful

theorem rx_written {bytes : List Byte} {bufSize : Nat} (delivers : RxDelivers s)
    (call : virtioNetRx s bufSize = some (bytes, t)) : t.written = s.written := by
  rcases delivers bufSize with ⟨_, nothing⟩ | ⟨_, u, _, done, took⟩
  · rw [nothing] at call
    cases call
    rfl
  · rw [done] at call
    cases call
    exact took.written

theorem polled_written {found : Option VirtioInputEvent} (polled : Polled i n inputs after found stop) (j : Nat) :
    (after j).written = (inputs j).written := by
  by_cases outside : j < i ∨ stop < j ∨ i + n ≤ j
  · rw [polled.rest j outside]
  · by_cases before : j < stop
    · rcases polled.passed j (by omega) before with ⟨_, same⟩ | ⟨_, _, _, took⟩
      · rw [same]
      · exact took.written
    · have last : j = stop := by omega
      subst last
      rcases polled.result with ⟨all, _⟩ | ⟨_, _, _, _, _, took⟩
      · omega
      · exact took.written

theorem kept_conserves (kept : Kept p s) (within : WithinSlots p s) : Conserves p s := by
  have alone := taken_alone kept
  obtain ⟨waiting, arrived, posting, record⟩ := kept
  have places := flight_places posting
  constructor
  · exact (places.map s.slotOf).trans posting.table
  · intro d member
    exact flight_desc posting (places.mem_iff.mp member)
  · have lengths := congrArg List.length posting.completed
    rw [posting.ring.completed, List.length_append, List.length_map] at lengths
    rw [unconsumed, used_heads_arrived posting.ring, List.length_map, record.length]
    exact lengths
  · exact record.copied
  · exact within
  · exact alone

end Calls

structure AllKept (s : Receivers) : Prop where
  net : Kept netPool s.net
  inputs : ∀ i < s.count, Kept inputPool (s.inputs i)
  netWithin : WithinSlots netPool s.net
  inputsWithin : ∀ i < s.count, WithinSlots inputPool (s.inputs i)

theorem started_kept {s : Receivers} (started : Started s) : AllKept s := by
  constructor
  · exact filled_kept started.net
  · exact fun i inside => filled_kept (started.inputs i inside)
  · exact filled_within started.net
  · exact fun i inside => filled_within (started.inputs i inside)

theorem receive_step_kept {s t : Receivers} {event : ReceiveEvent} (kept : AllKept s) (lawful : Lawful s event)
    (step : receiveStep s event = some t) : AllKept t := by
  cases event with
  | net event =>
    obtain ⟨net, done, rfl⟩ := Option.map_eq_some_iff.mp step
    exact ⟨device_kept kept.net done, kept.inputs, device_within kept.netWithin lawful done, kept.inputsWithin⟩
  | input i event =>
    simp only [receiveStep] at step
    split at step
    · rename_i inside
      obtain ⟨r, done, rfl⟩ := Option.map_eq_some_iff.mp step
      have here := device_kept (kept.inputs i inside) done
      have within := device_within (kept.inputsWithin i inside) lawful done
      refine ⟨kept.net, ?_, kept.netWithin, ?_⟩
      · intro j small
        by_cases same : j = i
        · subst same
          simp only [Function.update_self]
          exact here
        · simp only [Function.update_of_ne same]
          exact kept.inputs j small
      · intro j small
        by_cases same : j = i
        · subst same
          simp only [Function.update_self]
          exact within
        · simp only [Function.update_of_ne same]
          exact kept.inputsWithin j small
    · cases step
  | rx bufSize =>
    obtain ⟨⟨bytes, net⟩, done, rfl⟩ := Option.map_eq_some_iff.mp step
    obtain ⟨delivers, after⟩ := rx_kept kept.net
    refine ⟨after bufSize bytes net done, kept.inputs, ?_, kept.inputsWithin⟩
    rw [WithinSlots, rx_written delivers done]
    exact kept.netWithin
  | poll =>
    obtain ⟨⟨found, inputs⟩, done, rfl⟩ := Option.map_eq_some_iff.mp step
    obtain ⟨found', after, stop, call, polled, keptAfter⟩ :=
      poll_from_kept (i := 0) (n := s.count) fun j _ high => kept.inputs j (by omega)
    rw [virtioInputPoll, call] at done
    cases done
    refine ⟨kept.net, ?_, kept.netWithin, ?_⟩
    · intro j small
      exact keptAfter j (Nat.zero_le j) (by simpa using small)
    · intro j small
      rw [WithinSlots, polled_written polled j]
      exact kept.inputsWithin j small

theorem receive_run_kept {s : Receivers} (run : Reaches Started (Guarded Lawful (Taken receiveStep)) s) :
    AllKept s := by
  apply reaches_invariant AllKept _ _ run
  · exact fun s started => started_kept started
  · exact fun s event t kept taken => receive_step_kept kept taken.1 taken.2

/-- In every run the buffers of virtio-net and of each input device are conserved between the calls, and the next
    call delivers the oldest completion. -/
theorem receive_buffers_conserved {s : Receivers} (run : Reaches Started (Guarded Lawful (Taken receiveStep)) s) :
    BuffersConserved s := by
  have kept := receive_run_kept run
  constructor
  · exact kept_conserves kept.net kept.netWithin
  · exact fun i inside => kept_conserves (kept.inputs i inside) (kept.inputsWithin i inside)
  · exact (rx_kept kept.net).1
  · obtain ⟨found, after, stop, done, polled, -⟩ :=
      poll_from_kept (i := 0) (n := s.count) fun j _ high => kept.inputs j (by omega)
    exact ⟨found, after, stop, done, polled⟩

/-- Two network buffers that come back in the other order, and a key that is pressed. -/
theorem receive_buffers_conserved_out_of_order : ∃ s : Receivers,
    Reaches Started (Guarded Lawful (Taken receiveStep)) s ∧ s.net.taken = [(1, .got [7]), (100, .got [5, 6])] ∧
      (s.inputs 0).taken = [(8, .got [1, 0, 30, 0, 1, 0, 0, 0])] ∧ BuffersConserved s := by
  have look : ((fillQueue netPool (setupQueue netPool (2 ^ 1) (fun _ => 0) fun _ => [])).bind fun net =>
      (fillQueue inputPool (setupQueue inputPool (2 ^ 1) (fun _ => 0) fun _ => [])).bind fun input =>
        runActions (allowed Lawful receiveStep) ⟨net, 1, fun _ => input⟩
          [.net .fetch, .net .fetch, .net (.complete 1 (List.replicate 12 0 ++ [7, 8])), .input 0 .fetch,
            .net (.complete 0 (List.replicate 12 0 ++ [5, 6])), .rx 1,
            .input 0 (.complete 0 [1, 0, 30, 0, 1, 0, 0, 0]), .poll, .rx 100]).any
      (fun s => decide (s.net.taken = [(1, .got [7]), (100, .got [5, 6])] ∧
        (s.inputs 0).taken = [(8, .got [1, 0, 30, 0, 1, 0, 0, 0])])) = true := by
    decide +kernel
  obtain ⟨s, done, found⟩ := (Option.any_eq_true _ _).mp look
  obtain ⟨net, netFilled, done⟩ := Option.bind_eq_some_iff.mp done
  obtain ⟨input, inputFilled, done⟩ := Option.bind_eq_some_iff.mp done
  have start : Started ⟨net, 1, fun _ => input⟩ :=
    ⟨⟨1, _, _, netFilled⟩, (by decide : 1 ≤ 4), fun i _ => ⟨1, _, _, inputFilled⟩⟩
  have run := reaches_of_allowed (Reaches.start start) done
  exact ⟨s, run, (of_decide_eq_true found).1, (of_decide_eq_true found).2, receive_buffers_conserved run⟩

end Archarch.ReceiveBuffers
