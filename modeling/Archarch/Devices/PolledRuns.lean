import Archarch.Devices.PolledRequests

/- Whole runs of a polled driver. A call that times out leaves its chain behind for good: from
   then on there is one chain fewer, and with an ordered device each answer is one request
   late. A driver that never timed out calls a device as it would call a function. -/
namespace Archarch.PolledQueues
open ByteMemory LabelledRuns Virtqueues

section Specification
variable {Req : Type}

def lateCall (e : Return Req) : Bool :=
  match e.outcome with
  | .late => true
  | _ => false

def lates (log : List (Return Req)) : Nat := log.countP lateCall

def takenCall (e : Return Req) : Option Nat :=
  match e.outcome with
  | .answered taken _ => some taken
  | _ => none

def EachCall (P : Return Req → List (Return Req) → Prop) : List (Return Req) → Prop
  | [] => True
  | e :: older => P e older ∧ EachCall P older

structure Own (routine : Routine Req) (e : Return Req) (taken : Nat) (report : Report) : Prop where
  ticket : taken = e.ticket
  seen : report.seen = routine.prepare e.request e.before
  after : e.after = deviceWrites (routine.chain e.request) report.bytes report.seen
  result : e.result = routine.answer e.after report.len

def OwnAnswer (routine : Routine Req) (e : Return Req) (older : List (Return Req)) : Prop :=
  lates older = 0 → ∀ taken report, e.outcome = .answered taken report → Own routine e taken report

def RefusedWhenShort (routine : Routine Req) (num : Nat) (e : Return Req) (older : List (Return Req)) :
    Prop :=
  e.outcome = .refused ↔ num < routine.width * (lates older + 1)

def Lagging (e : Return Req) (older : List (Return Req)) : Prop :=
  ∀ taken report, e.outcome = .answered taken report → taken + lates older = e.ticket

def polls : Driver Req → Nat
  | .polling _ _ _ _ => 1
  | _ => 0

structure Accounted (routine : Routine Req) (s : System Req) : Prop where
  outstanding : s.ring.core.inFlight.length = lates s.log + polls s.driver
  free : ∃ free, FreeList s.ring.core.queue free ∧
    free.length + routine.width * (lates s.log + polls s.driver) = s.ring.core.queue.num
  moves : polls s.driver = 1 → step routine s .poll ≠ none
  refused : EachCall (RefusedWhenShort routine s.ring.core.queue.num) s.log
  once : (s.log.filterMap takenCall).Nodup
  own : EachCall (OwnAnswer routine) s.log

/-- In any order of completions, and for a device that keeps the order. -/
structure KeepsAccounts (routine : Routine Req) : Prop where
  always : ∀ s, Reaches Booted (Taken (step routine)) s → Accounted routine s
  inOrder : ∀ s, Reaches Booted (Guarded InOrder (Taken (step routine))) s → EachCall Lagging s.log

end Specification

/- What one step of the rings does to the chains in flight. -/

section Rings
variable {Ptr : Type} {s t : RingState Ptr} {waiting : List (Nat × List (Buf Ptr))}
  {arrived : List (Nat × Nat)} {bufs : List (Buf Ptr)} {head len : Nat} {queue : Virtqueue Ptr}

def waitingOf (s : RingState Ptr) : List (Nat × List (Buf Ptr)) := s.added.drop s.seen.length

def arrivedOf (s : RingState Ptr) : List (Nat × Nat) := s.completed.drop s.reported.length

theorem ring_inv_exact (inv : RingInv s waiting arrived) : RingInv s (waitingOf s) (arrivedOf s) := by
  have ready : waitingOf s = waiting := by
    rw [waitingOf, inv.added, ← seen_length, List.drop_left]
  have done : arrivedOf s = arrived := by
    rw [arrivedOf, inv.completed, List.drop_left]
  rw [ready, done]
  exact inv

structure AddedChain (s t : RingState Ptr) (head : Nat) (bufs : List (Buf Ptr)) : Prop where
  chain : ∃ c, t.core.inFlight = c :: s.core.inFlight ∧ c.descs.head? = some head ∧ c.bufs = bufs
  added : t.added = s.added ++ [(head, bufs)]
  num : t.core.queue.num = s.core.queue.num
  same : t.seen = s.seen ∧ t.held = s.held ∧ t.completed = s.completed ∧ t.reported = s.reported

theorem ring_add (inv : RingInv s waiting arrived) (nonempty : bufs ≠ [])
    (fits : virtqueueAddChain s.core.queue bufs = some (head, queue))
    (step : ringStep s (.add bufs) = some t) : AddedChain s t head bufs := by
  obtain ⟨free, core⟩ := inv.core
  rcases virtqueue_add_chain_spec core.list nonempty with ⟨full, _⟩ | ⟨chain, rest, r, done, split, after⟩
  · rw [full] at fits
    cases fits
  · rw [done] at fits
    cases fits
    have long : bufs.length ≤ free.length := by
      rw [split, List.length_append, after.length]
      exact Nat.le_add_right _ _
    simp only [ringStep, queueStep, done, Option.map_some, free_walk_eq core.list.linked long] at step
    cases step
    refine ⟨⟨_, rfl, ?_, rfl⟩, rfl, after.num, rfl, rfl, rfl, rfl⟩
    rw [split, ← after.length, List.take_left]
    exact after.head

structure TakenChain (s t : RingState Ptr) (head len : Nat) : Prop where
  chain : ∃ c pre post, s.core.inFlight = pre ++ c :: post ∧ c.descs.head? = some head ∧
    t.core.inFlight = pre ++ post
  arrived : arrivedOf s = (head, len) :: arrivedOf t
  num : t.core.queue.num = s.core.queue.num
  same : t.added = s.added ∧ t.seen = s.seen ∧ t.held = s.held

theorem ring_take (inv : RingInv s waiting arrived)
    (got : virtqueueGetUsed s.core.queue = some (some (head, len), queue))
    (step : ringStep s .getUsed = some t) : TakenChain s t head len := by
  obtain ⟨free, core⟩ := inv.core
  have pending : s.core.queue.lastUsedIdx ≠ s.core.queue.usedIdx := by
    intro empty
    rw [virtqueueGetUsed, if_pos empty] at got
    cases got
  obtain ⟨c, pre, post, head', len', queue', split, first, -, -, got', -, -, -, num, -, -, done, -⟩ :=
    get_used_inv core pending
  rw [got'] at got
  cases got
  obtain ⟨next, after⟩ := get_used_ring_inv inv step
  simp only [ringStep, got', done, Option.map_some] at step
  cases step
  have all := after.completed
  refine ⟨⟨c, pre, post, split, first, rfl⟩, ?_, num, rfl, rfl, rfl⟩
  simp only [arrivedOf]
  rw [all, List.drop_left, List.append_assoc, List.drop_left]
  rfl

theorem ring_fetch (step : ringStep s .fetch = some t) :
    ∃ head, t.held = s.held ++ [head] ∧ t.seen.length = s.seen.length + 1 ∧ t.core = s.core ∧
      t.added = s.added ∧ t.completed = s.completed ∧ t.reported = s.reported ∧
      head = s.core.queue.availRing (s.lastAvail.toNat % s.core.queue.num) := by
  simp only [ringStep] at step
  split at step
  · cases step
  · cases step
    exact ⟨_, rfl, by simp, rfl, rfl, rfl, rfl, rfl⟩

theorem ring_complete {i : Nat} (found : s.held[i]? = some head)
    (step : ringStep s (.complete i len) = some t) :
    t.core.inFlight = s.core.inFlight ∧ t.core.queue.num = s.core.queue.num ∧
      t.held = s.held.eraseIdx i ∧ t.completed = s.completed ++ [(head, len)] ∧
      t.added = s.added ∧ t.seen = s.seen ∧ t.reported = s.reported := by
  simp only [ringStep, found, Option.map_some] at step
  cases step
  exact ⟨rfl, rfl, rfl, rfl, rfl, rfl, rfl⟩

theorem arrived_after_complete (inv : RingInv s waiting arrived)
    (completed : t.completed = s.completed ++ [(head, len)]) (reported : t.reported = s.reported) :
    arrivedOf t = arrivedOf s ++ [(head, len)] := by
  have within : s.reported.length ≤ s.completed.length := by
    rw [inv.completed, List.length_append]
    exact Nat.le_add_right _ _
  rw [arrivedOf, arrivedOf, completed, reported, List.drop_append_of_le_length within]

theorem held_in_flight (inv : RingInv s waiting arrived) (holds : head ∈ s.held) :
    ∃ c ∈ s.core.inFlight, c.descs.head? = some head := by
  have shared : some head ∈ heads s.core.inFlight := by
    apply inv.share.mem_iff.mp
    apply List.mem_map_of_mem
    exact List.mem_append_left _ (List.mem_append_right _ holds)
  obtain ⟨c, member, first⟩ := List.mem_map.mp shared
  exact ⟨c, member, first⟩

end Rings

section Accounts
variable {Req : Type} {routine : Routine Req} {s t : System Req} {r : Req} {ticket : Nat} {before : Mem}

def ticketOf (s : System Req) (c : Posted Nat) : Nat := s.owner (c.descs.headD 0)

def openTickets (s : System Req) : List Nat := s.ring.core.inFlight.map (ticketOf s)

def takenNow : Driver Req → List Nat
  | .reading _ _ _ taken _ _ => [taken]
  | _ => []

def takenTickets (s : System Req) : List Nat := takenNow s.driver ++ s.log.filterMap takenCall

def Alone (routine : Routine Req) (s : System Req) (r : Req) (ticket : Nat) (before : Mem) : Prop :=
  ∃ c head, s.ring.core.inFlight = [c] ∧ c.descs.head? = some head ∧ c.bufs = routine.chain r ∧
    s.owner head = ticket ∧
    ((arrivedOf s.ring = [] ∧ s.mem = routine.prepare r before) ∨
      (arrivedOf s.ring = [(head, (s.reports head).len)] ∧
        (s.reports head).seen = routine.prepare r before ∧
        s.mem = deviceWrites (routine.chain r) (s.reports head).bytes (s.reports head).seen))

structure Answered (routine : Routine Req) (s : System Req) (r : Req) (ticket : Nat) (before : Mem)
    (taken : Nat) (report : Report) (len : Nat) : Prop where
  ticket : taken = ticket
  seen : report.seen = routine.prepare r before
  mem : s.mem = deviceWrites (routine.chain r) report.bytes report.seen
  len : len = report.len

def room (routine : Routine Req) (s : System Req) : Prop :=
  routine.width * (lates s.log + 1) ≤ s.ring.core.queue.num

def DriverInv (routine : Routine Req) (s : System Req) : Prop :=
  match s.driver with
  | .idle => True
  | .polling r ticket before left =>
    0 < left ∧ room routine s ∧ (lates s.log = 0 → Alone routine s r ticket before)
  | .reading r ticket before taken report len =>
    room routine s ∧ (lates s.log = 0 → Answered routine s r ticket before taken report len)

structure PolledInv (routine : Routine Req) (s : System Req) : Prop where
  ring : RingInv s.ring (waitingOf s.ring) (arrivedOf s.ring)
  widths : ∀ c ∈ s.ring.core.inFlight, c.bufs.length = routine.width
  posted : ∀ k ∈ openTickets s ++ takenTickets s, k < s.ring.added.length
  once : (openTickets s ++ takenTickets s).Nodup
  outstanding : s.ring.core.inFlight.length = lates s.log + polls s.driver
  driver : DriverInv routine s
  refused : EachCall (RefusedWhenShort routine s.ring.core.queue.num) s.log
  own : EachCall (OwnAnswer routine) s.log

theorem chain_nonempty (routine : Routine Req) (r : Req) : routine.chain r ≠ [] := by
  intro empty
  have width := routine.ofWidth r
  rw [empty] at width
  have positive := routine.positive
  simp at width
  omega

theorem free_count {free : List Nat} (core : Conserved s.ring.core free)
    (widths : ∀ c ∈ s.ring.core.inFlight, c.bufs.length = routine.width) :
    free.length + routine.width * s.ring.core.inFlight.length = s.ring.core.queue.num := by
  have total := core.partition.length_eq
  rw [List.length_append, List.length_range, List.length_flatMap] at total
  have each : s.ring.core.inFlight.map (fun c => c.descs.length) =
      s.ring.core.inFlight.map fun _ => routine.width := by
    apply List.map_congr_left
    intro c member
    rw [describes_length (core.describes c member), widths c member]
  rw [each, List.map_const', List.sum_replicate_nat, Nat.mul_comm] at total
  exact total

theorem head_ticket {c : Posted Nat} {head : Nat} (first : c.descs.head? = some head) :
    ticketOf s c = s.owner head := by
  rw [ticketOf, List.headD_eq_head?_getD, first]
  rfl

theorem post_refused_iff (inv : PolledInv routine s) (idle : s.driver = .idle) :
    virtqueueAddChain s.ring.core.queue (routine.chain r) = none ↔ ¬room routine s := by
  obtain ⟨free, core⟩ := inv.ring.core
  have count := free_count core inv.widths
  have outstanding := inv.outstanding
  rw [idle] at outstanding
  simp only [polls, Nat.add_zero] at outstanding
  rw [outstanding] at count
  rw [room, Nat.mul_add]
  rcases virtqueue_add_chain_spec core.list (chain_nonempty routine r) with
    ⟨full, few⟩ | ⟨chain, rest, queue, done, split, after⟩
  · rw [routine.ofWidth] at few
    exact iff_of_true full (by omega)
  · have enough := after.length
    rw [routine.ofWidth] at enough
    rw [split, List.length_append] at count
    rw [done]
    exact iff_of_false (by simp) (by omega)

theorem others_keep_tickets (s : System Req) (ticket : Nat) {ring : RingState Nat} {head : Nat} {waiting : List (Nat × List (Buf Nat))}
    {arrived : List (Nat × Nat)} {c : Posted Nat} (after : RingInv ring waiting arrived)
    (inFlight : ring.core.inFlight = c :: s.ring.core.inFlight) (first : c.descs.head? = some head) :
    ∀ d ∈ s.ring.core.inFlight, Function.update s.owner head ticket (d.descs.headD 0) = ticketOf s d := by
  obtain ⟨free, core⟩ := after.core
  have apart := (heads_nodup core).1
  rw [inFlight, heads, List.map_cons, List.nodup_cons, first] at apart
  intro d member
  obtain ⟨head', first', -⟩ := chain_seen core (inFlight ▸ List.mem_cons_of_mem c member)
  have other : head' ≠ head := by
    rintro rfl
    exact apart.1 (List.mem_map.mpr ⟨d, member, first'⟩)
  rw [head_ticket first', List.headD_eq_head?_getD, first']
  exact Function.update_of_ne other _ _

theorem added_tickets {ring : RingState Nat} {head : Nat} {waiting : List (Nat × List (Buf Nat))}
    {arrived : List (Nat × Nat)} (chain : AddedChain s.ring ring head (routine.chain r))
    (after : RingInv ring waiting arrived) :
    ring.core.inFlight.map (fun d => Function.update s.owner head s.ring.added.length (d.descs.headD 0)) =
      s.ring.added.length :: openTickets s := by
  obtain ⟨c, inFlight, first, -⟩ := chain.chain
  have here : Function.update s.owner head s.ring.added.length (c.descs.headD 0) = s.ring.added.length := by
    rw [List.headD_eq_head?_getD, first]
    exact Function.update_self _ _ _
  rw [inFlight, List.map_cons, here, List.map_congr_left (others_keep_tickets s _ after inFlight first), openTickets]

/-- While no request was given up on, the one just posted has the ring to itself. -/
theorem added_alone {ring : RingState Nat} {head : Nat} (inv : RingInv s.ring (waitingOf s.ring) (arrivedOf s.ring))
    (chain : AddedChain s.ring ring head (routine.chain r)) (alone : s.ring.core.inFlight = []) (left : Nat) :
    Alone routine
      { s with
        ring := ring
        mem := routine.prepare r s.mem
        driver := .polling r s.ring.added.length s.mem left
        owner := Function.update s.owner head s.ring.added.length }
      r s.ring.added.length s.mem := by
  obtain ⟨c, inFlight, first, bufs⟩ := chain.chain
  obtain ⟨-, -, completed, reported⟩ := chain.same
  have empty : arrivedOf s.ring = [] := by
    have total := (apart_le inv).1
    rw [alone, List.length_nil] at total
    exact List.eq_nil_of_length_eq_zero (by omega)
  refine ⟨c, head, ?_, first, bufs, Function.update_self _ _ _, Or.inl ⟨?_, rfl⟩⟩
  · rw [inFlight, alone]
  · rw [arrivedOf, completed, reported]
    exact empty

theorem post_inv (inv : PolledInv routine s) (idle : s.driver = .idle) (posts : post routine s r = some t) :
    PolledInv routine t := by
  have outstanding := inv.outstanding
  rw [idle] at outstanding
  have posted := inv.posted
  have once := inv.once
  simp only [takenTickets, idle, takenNow, List.nil_append] at posted once
  cases added : virtqueueAddChain s.ring.core.queue (routine.chain r) with
  | none =>
    have short := (post_refused_iff inv idle).mp added
    simp only [post, added, Option.some.injEq] at posts
    subst posts
    refine ⟨inv.ring, inv.widths, ?_, ?_, ?_, ?_, ⟨?_, inv.refused⟩, ⟨?_, inv.own⟩⟩
    · rw [takenTickets, idle]
      exact posted
    · rw [takenTickets, idle]
      exact once
    · simpa [lates, lateCall, idle] using outstanding
    · simp only [DriverInv, idle]
    · exact iff_of_true rfl (Nat.lt_of_not_le short)
    · intro _ taken report answered
      cases answered
  | some result =>
    obtain ⟨head, queue⟩ := result
    have fits : room routine s := by
      by_contra short
      rw [(post_refused_iff inv idle).mpr short] at added
      cases added
    simp only [post, added] at posts
    obtain ⟨ring, rung, rfl⟩ := Option.map_eq_some_iff.mp posts
    have chain := ring_add inv.ring (chain_nonempty routine r) added rung
    obtain ⟨waiting, arrived, after⟩ := ring_step_inv inv.ring
      (show Callable s.ring (.add (routine.chain r)) from ⟨chain_nonempty routine r, routine.plain r⟩) rung
    obtain ⟨c, inFlight, first, bufs⟩ := chain.chain
    have tickets := congrArg (· ++ s.log.filterMap takenCall) (added_tickets chain after)
    refine ⟨ring_inv_exact after, ?_, ?_, ?_, ?_, ?_, ?_, inv.own⟩
    · rw [inFlight]
      intro d member
      rcases List.mem_cons.mp member with rfl | old
      · rw [bufs, routine.ofWidth]
      · exact inv.widths d old
    · intro k member
      replace member := tickets ▸ member
      show k < ring.added.length
      rw [chain.added, List.length_append]
      rcases List.mem_cons.mp member with rfl | old
      · exact Nat.lt_succ_self _
      · exact Nat.lt_succ_of_lt (posted k old)
    · refine tickets ▸ List.nodup_cons.mpr ⟨?_, once⟩
      intro again
      exact Nat.lt_irrefl _ (posted _ again)
    · show ring.core.inFlight.length = lates s.log + 1
      rw [inFlight, List.length_cons, outstanding]
      rfl
    · refine ⟨routine.patient, ?_, ?_⟩
      · show routine.width * (lates s.log + 1) ≤ ring.core.queue.num
        rw [chain.num]
        exact fits
      · intro none
        rw [show lates s.log = 0 from none] at outstanding
        exact added_alone inv.ring chain (List.eq_nil_of_length_eq_zero outstanding) _
    · rw [chain.num]
      exact inv.refused

theorem taken_tickets {ring : RingState Nat} {head len : Nat} (chain : TakenChain s.ring ring head len) :
    (openTickets s).Perm (s.owner head :: ring.core.inFlight.map (ticketOf s)) ∧
      s.ring.core.inFlight.length = ring.core.inFlight.length + 1 ∧
      ∀ c ∈ ring.core.inFlight, c ∈ s.ring.core.inFlight := by
  obtain ⟨c, pre, post, split, first, rest⟩ := chain.chain
  refine ⟨?_, ?_, ?_⟩
  · rw [openTickets, split, rest, List.map_append, List.map_cons, List.map_append, head_ticket first]
    exact List.perm_middle
  · rw [split, rest, List.length_append, List.length_append, List.length_cons]
    rfl
  · intro d member
    rw [rest] at member
    rw [split]
    exact List.mem_append.mpr ((List.mem_append.mp member).imp_right (List.mem_cons_of_mem c))

theorem alone_answered {ring : RingState Nat} {head len : Nat} (alone : Alone routine s r ticket before)
    (chain : TakenChain s.ring ring head len) :
    s.owner head = ticket ∧ (s.reports head).seen = routine.prepare r before ∧
      s.mem = deviceWrites (routine.chain r) (s.reports head).bytes (s.reports head).seen ∧
      len = (s.reports head).len := by
  obtain ⟨c, head', -, -, -, owner, stage⟩ := alone
  rcases stage with ⟨none, -⟩ | ⟨one, seen, mem⟩
  · rw [chain.arrived] at none
    exact absurd none (List.cons_ne_nil _ _)
  · rw [chain.arrived] at one
    obtain ⟨same, -⟩ := List.cons.inj one
    cases same
    exact ⟨owner, seen, mem, rfl⟩

theorem poll_inv {left : Nat} (inv : PolledInv routine s) (driver : s.driver = .polling r ticket before left)
    (polled : pollUsed routine s r ticket before left = some t) : PolledInv routine t := by
  have outstanding := inv.outstanding
  have inside := inv.driver
  have posted := inv.posted
  have once := inv.once
  rw [DriverInv, driver] at inside
  rw [driver] at outstanding
  simp only [takenTickets, driver, takenNow, List.nil_append] at posted once
  obtain ⟨positive, fits, alone⟩ := inside
  unfold pollUsed at polled
  split at polled
  · cases polled
  · rename_i queue nothing
    split at polled
    · -- the last round: the chain stays in flight
      cases polled
      refine ⟨inv.ring, inv.widths, posted, once, ?_, trivial, ⟨?_, inv.refused⟩, ⟨?_, inv.own⟩⟩
      · rw [outstanding]
        simp [lates, List.countP_cons, lateCall, polls]
      · refine iff_of_false ?_ (Nat.not_lt.mpr fits)
        intro refused
        cases refused
      · intro _ taken report answered
        cases answered
    · rename_i more
      cases polled
      exact ⟨inv.ring, inv.widths, posted, once, outstanding, ⟨by omega, fits, alone⟩, inv.refused, inv.own⟩
  · rename_i head len queue got
    obtain ⟨ring, rung, rfl⟩ := Option.map_eq_some_iff.mp polled
    have chain := ring_take inv.ring got rung
    obtain ⟨waiting, arrived, after⟩ := ring_step_inv inv.ring (show Callable s.ring .getUsed from trivial) rung
    obtain ⟨tickets, count, kept⟩ := taken_tickets chain
    have moved : (openTickets s ++ s.log.filterMap takenCall).Perm
        (ring.core.inFlight.map (ticketOf s) ++ (s.owner head :: s.log.filterMap takenCall)) :=
      (tickets.append_right _).trans List.perm_middle.symm
    refine ⟨ring_inv_exact after, ?_, ?_, ?_, ?_, ⟨?_, ?_⟩, ?_, inv.own⟩
    · intro c member
      exact inv.widths c (kept c member)
    · intro k member
      show k < ring.added.length
      rw [chain.same.1]
      exact posted k (moved.mem_iff.mpr member)
    · exact moved.nodup_iff.mp once
    · show ring.core.inFlight.length = lates s.log + 0
      simp only [polls] at outstanding
      omega
    · show routine.width * (lates s.log + 1) ≤ ring.core.queue.num
      rw [chain.num]
      exact fits
    · intro none
      obtain ⟨owner, seen, mem, length⟩ := alone_answered (alone none) chain
      exact ⟨owner, seen, mem, length⟩
    · show EachCall (RefusedWhenShort routine ring.core.queue.num) s.log
      rw [chain.num]
      exact inv.refused

theorem read_inv {taken len : Nat} {report : Report} (inv : PolledInv routine s)
    (driver : s.driver = .reading r ticket before taken report len) :
    PolledInv routine { s with
      driver := .idle
      log := ⟨r, ticket, before, s.mem, .answered taken report, routine.answer s.mem len⟩ :: s.log } := by
  have outstanding := inv.outstanding
  have inside := inv.driver
  have posted := inv.posted
  have once := inv.once
  rw [DriverInv, driver] at inside
  rw [driver] at outstanding
  rw [takenTickets, driver] at posted once
  refine ⟨inv.ring, inv.widths, posted, once, ?_, trivial, ⟨?_, inv.refused⟩, ⟨?_, inv.own⟩⟩
  · rw [outstanding]
    simp [lates, lateCall, polls]
  · refine iff_of_false ?_ (Nat.not_lt.mpr inside.1)
    intro refused
    cases refused
  · intro none taken' report' answered
    cases answered
    have own := inside.2 none
    exact ⟨own.ticket, own.seen, own.mem, by rw [own.len]⟩

theorem device_inv {ring : RingState Nat} {mem : Mem} {reports : Nat → Report} {waiting : List (Nat × List (Buf Nat))}
    {arrived : List (Nat × Nat)} (inv : PolledInv routine s) (after : RingInv ring waiting arrived)
    (inFlight : ring.core.inFlight = s.ring.core.inFlight) (num : ring.core.queue.num = s.ring.core.queue.num)
    (added : ring.added = s.ring.added)
    (driver : DriverInv routine { s with ring := ring, mem := mem, reports := reports }) :
    PolledInv routine { s with ring := ring, mem := mem, reports := reports } := by
  have tickets : openTickets { s with ring := ring, mem := mem, reports := reports } = openTickets s := by
    rw [openTickets, inFlight]
    rfl
  refine ⟨ring_inv_exact after, ?_, ?_, ?_, ?_, driver, ?_, inv.own⟩
  · intro c member
    exact inv.widths c (inFlight ▸ member)
  · rw [tickets, added]
    exact inv.posted
  · rw [tickets]
    exact inv.once
  · rw [inFlight]
    exact inv.outstanding
  · rw [num]
    exact inv.refused

theorem fetch_inv {ring : RingState Nat} (inv : PolledInv routine s)
    (rung : ringStep s.ring .fetch = some ring) : PolledInv routine { s with ring := ring } := by
  obtain ⟨waiting, arrived, after⟩ := ring_step_inv inv.ring (show Callable s.ring .fetch from trivial) rung
  obtain ⟨head, -, -, core, added, completed, reported, -⟩ := ring_fetch rung
  refine device_inv inv after (by rw [core]) (by rw [core]) added ?_
  have inside := inv.driver
  unfold DriverInv at inside ⊢
  dsimp only
  cases driver : s.driver with
  | idle => trivial
  | polling r ticket before left =>
    rw [driver] at inside
    refine ⟨inside.1, ?_, ?_⟩
    · rw [room, core]
      exact inside.2.1
    · intro none
      obtain ⟨c, h, inFlight, rest⟩ := inside.2.2 none
      refine ⟨c, h, ?_, ?_⟩
      · rw [core]
        exact inFlight
      · rw [arrivedOf, completed, reported]
        exact rest
  | reading r ticket before taken report len =>
    rw [driver] at inside
    refine ⟨?_, ?_⟩
    · rw [room, core]
      exact inside.1
    · intro none
      have own := inside.2 none
      exact ⟨own.ticket, own.seen, own.mem, own.len⟩

theorem bufs_at {c : Posted Nat} {head : Nat} (inv : PolledInv routine s)
    (member : c ∈ s.ring.core.inFlight) (first : c.descs.head? = some head) : bufsAt s head = c.bufs := by
  obtain ⟨free, core⟩ := inv.ring.core
  obtain ⟨head', first', seen⟩ := chain_seen core member
  obtain rfl : head' = head := Option.some.inj (first'.symm.trans first)
  exact (seen _ (chain_length_le core member)).2

theorem complete_alone {ring : RingState Nat} {head i len : Nat} {bytes : Mem} (inv : PolledInv routine s)
    (alone : Alone routine s r ticket before) (found : s.ring.held[i]? = some head)
    (rung : ringStep s.ring (.complete i len) = some ring) :
    Alone routine { s with
      ring := ring
      mem := deviceWrites (bufsAt s head) bytes s.mem
      reports := Function.update s.reports head ⟨s.mem, bytes, len⟩ } r ticket before := by
  obtain ⟨c, h, inFlight, first, bufs, owner, stage⟩ := alone
  obtain ⟨same, -, -, completed, -, -, reported⟩ := ring_complete found rung
  have holds : head ∈ s.ring.held := List.mem_of_getElem? found
  obtain ⟨d, member, begins⟩ := held_in_flight inv.ring holds
  rw [inFlight, List.mem_singleton] at member
  subst member
  obtain rfl : h = head := Option.some.inj (first.symm.trans begins)
  have total := (apart_le inv.ring).1
  rw [inFlight, List.length_singleton] at total
  have some_ := List.length_pos_of_mem holds
  have empty : arrivedOf s.ring = [] := List.eq_nil_of_length_eq_zero (by omega)
  have prepared : s.mem = routine.prepare r before := by
    rcases stage with ⟨-, mem⟩ | ⟨one, -⟩
    · exact mem
    · rw [empty] at one
      cases one
  have view : bufsAt s h = routine.chain r := by
    rw [bufs_at inv (by rw [inFlight]; exact List.mem_singleton_self _) first, bufs]
  have report : Function.update s.reports h ⟨s.mem, bytes, len⟩ h = ⟨s.mem, bytes, len⟩ :=
    Function.update_self _ _ _
  refine ⟨d, h, ?_, first, bufs, owner, Or.inr ?_⟩
  · rw [same]
    exact inFlight
  · dsimp only
    rw [report, arrived_after_complete inv.ring completed reported, empty, view]
    exact ⟨rfl, prepared, rfl⟩

theorem complete_inv {ring : RingState Nat} {head i len : Nat} {bytes : Mem} (inv : PolledInv routine s)
    (found : s.ring.held[i]? = some head) (rung : ringStep s.ring (.complete i len) = some ring) :
    PolledInv routine { s with
      ring := ring
      mem := deviceWrites (bufsAt s head) bytes s.mem
      reports := Function.update s.reports head ⟨s.mem, bytes, len⟩ } := by
  obtain ⟨waiting, arrived, after⟩ :=
    ring_step_inv inv.ring (show Callable s.ring (.complete i len) from trivial) rung
  obtain ⟨inFlight, num, -, -, added, -, -⟩ := ring_complete found rung
  refine device_inv inv after inFlight num added ?_
  have inside := inv.driver
  unfold DriverInv at inside ⊢
  dsimp only
  cases driver : s.driver with
  | idle => trivial
  | polling r ticket before left =>
    rw [driver] at inside
    refine ⟨inside.1, ?_, ?_⟩
    · rw [room, num]
      exact inside.2.1
    · intro none
      exact complete_alone inv (inside.2.2 none) found rung
  | reading r ticket before taken report len' =>
    rw [driver] at inside
    refine ⟨?_, ?_⟩
    · rw [room, num]
      exact inside.1
    · -- with no call given up there is no chain left to complete
      intro none
      exfalso
      have outstanding := inv.outstanding
      rw [driver, none] at outstanding
      have total := (apart_le inv.ring).1
      have some_ := List.length_pos_of_mem (List.mem_of_getElem? found)
      simp only [polls] at outstanding
      omega

theorem step_inv {e : Event Req} (inv : PolledInv routine s) (taken : step routine s e = some t) :
    PolledInv routine t := by
  cases e with
  | call r =>
    simp only [step] at taken
    split at taken
    · rename_i idle
      exact post_inv inv idle taken
    · cases taken
  | poll =>
    simp only [step] at taken
    split at taken
    · rename_i driver
      exact poll_inv inv driver taken
    · cases taken
  | read =>
    simp only [step] at taken
    split at taken
    · rename_i driver
      cases taken
      exact read_inv inv driver
    · cases taken
  | store m =>
    simp only [step] at taken
    split at taken
    · rename_i idle
      cases taken
      refine ⟨inv.ring, inv.widths, inv.posted, inv.once, inv.outstanding, ?_, inv.refused, inv.own⟩
      simp only [DriverInv, idle]
    · cases taken
  | fetch =>
    simp only [step] at taken
    obtain ⟨ring, rung, rfl⟩ := Option.map_eq_some_iff.mp taken
    exact fetch_inv inv rung
  | complete i len bytes =>
    simp only [step] at taken
    split at taken
    · cases taken
    · rename_i head found
      obtain ⟨ring, rung, rfl⟩ := Option.map_eq_some_iff.mp taken
      exact complete_inv inv found rung

theorem booted_inv (start : Booted s) : PolledInv routine s := by
  have ring := ring_inv_exact (power_queue_inv start.ring)
  obtain ⟨null, k, small, core⟩ := start.ring.core
  have none : s.ring.core.inFlight = [] := by rw [core]
  have tickets : openTickets s ++ takenTickets s = [] := by
    rw [openTickets, none, takenTickets, start.driver, start.log]
    rfl
  refine ⟨ring, ?_, ?_, ?_, ?_, ?_, ?_, ?_⟩
  · simp [none]
  · simp [tickets]
  · simp [tickets]
  · rw [none, start.log, start.driver]
    rfl
  · simp only [DriverInv, start.driver]
  · rw [start.log]
    trivial
  · rw [start.log]
    trivial

theorem run_inv (run : Reaches Booted (Taken (step routine)) s) : PolledInv routine s := by
  refine reaches_invariant (PolledInv routine) ?_ ?_ run
  · intro s start
    exact booted_inv start
  · intro s e t inv taken
    exact step_inv inv taken

/-- The loop in virtqueue_get_used ends. -/
theorem get_used_ends (inv : PolledInv routine s) : virtqueueGetUsed s.ring.core.queue ≠ none := by
  obtain ⟨free, core⟩ := inv.ring.core
  by_cases empty : s.ring.core.queue.lastUsedIdx = s.ring.core.queue.usedIdx
  · simp [virtqueueGetUsed, empty]
  · obtain ⟨c, pre, post, head, len, queue, -, -, -, -, got, -⟩ := get_used_inv core empty
    simp [got]

end Accounts

/- A device that keeps the order. -/

section Order
variable {Req : Type} {routine : Routine Req} {s t : System Req} {r : Req} {ticket : Nat} {before : Mem}

def flightOrder (s : RingState Nat) : List Nat :=
  (arrivedOf s).map Prod.fst ++ s.held ++ (waitingOf s).map Prod.fst

def CurrentInv (s : System Req) : Prop :=
  match s.driver with
  | .idle => True
  | .polling _ ticket _ _ => ticket + 1 = s.ring.added.length
  | .reading _ ticket _ taken _ _ => taken + lates s.log = ticket

structure OrderInv (routine : Routine Req) (s : System Req) : Prop where
  accounts : PolledInv routine s
  order : (flightOrder s.ring).map some = (heads s.ring.core.inFlight).reverse
  ages : ∀ (i : Nat) c, s.ring.core.inFlight[i]? = some c → ticketOf s c + i + 1 = s.ring.added.length
  current : CurrentInv s
  lag : EachCall Lagging s.log

theorem order_added {ring next : RingState Nat} {head : Nat} {bufs : List (Buf Nat)} {waiting : List (Nat × List (Buf Nat))}
    {arrived : List (Nat × Nat)} (inv : RingInv ring waiting arrived) (chain : AddedChain ring next head bufs)
    (order : (flightOrder ring).map some = (heads ring.core.inFlight).reverse) :
    (flightOrder next).map some = (heads next.core.inFlight).reverse := by
  obtain ⟨c, inFlight, first, -⟩ := chain.chain
  obtain ⟨seen, held, completed, reported⟩ := chain.same
  have within : ring.seen.length ≤ ring.added.length := by
    rw [inv.added, List.length_append, seen_length]
    exact Nat.le_add_right _ _
  have longer : flightOrder next = flightOrder ring ++ [head] := by
    rw [flightOrder, flightOrder, waitingOf, waitingOf, arrivedOf, arrivedOf, chain.added, seen, held, completed,
      reported, List.drop_append_of_le_length within, List.map_append, List.append_assoc, List.append_assoc,
      List.append_assoc]
    rfl
  have front : heads next.core.inFlight = some head :: heads ring.core.inFlight := by
    rw [inFlight, ← first]
    rfl
  rw [longer, List.map_append, order, front, List.reverse_cons]
  rfl

theorem order_fetched {ring next : RingState Nat} {waiting : List (Nat × List (Buf Nat))} {arrived : List (Nat × Nat)}
    (inv : RingInv ring waiting arrived) (rung : ringStep ring .fetch = some next) :
    flightOrder next = flightOrder ring := by
  have exact_ := ring_inv_exact inv
  have more : waitingOf ring ≠ [] := by
    intro none
    simp [ringStep, (available_iff exact_).mpr none] at rung
  obtain ⟨⟨first, bufs⟩, rest, waits⟩ := List.exists_cons_of_ne_nil more
  obtain ⟨head, held, seen, core, added, completed, reported, entry⟩ := ring_fetch rung
  have oldest := exact_.avail
  rw [waits, List.length_cons, RingWindow.window_uncons, RingWindow.window_mod, List.map_cons, List.cons.injEq] at oldest
  rw [exact_.lastAvail, slot_eq exact_.divides, oldest.1] at entry
  have later : waitingOf next = rest := by
    rw [waitingOf, added, seen, ← List.tail_drop]
    exact congrArg List.tail waits
  rw [flightOrder, flightOrder, later, waits, held, arrivedOf, completed, reported, entry]
  simp [arrivedOf]

theorem order_completed {ring next : RingState Nat} {head len : Nat} {waiting : List (Nat × List (Buf Nat))}
    {arrived : List (Nat × Nat)} (inv : RingInv ring waiting arrived) (found : ring.held[0]? = some head)
    (rung : ringStep ring (.complete 0 len) = some next) : flightOrder next = flightOrder ring := by
  obtain ⟨-, -, held, completed, added, seen, reported⟩ := ring_complete found rung
  obtain ⟨rest, holds⟩ : ∃ rest, ring.held = head :: rest := by
    cases holds : ring.held with
    | nil => simp [holds] at found
    | cons h rest =>
      rw [holds] at found
      cases found
      exact ⟨rest, rfl⟩
  rw [flightOrder, flightOrder, arrived_after_complete inv completed reported, held, holds, waitingOf, added, seen]
  simp [waitingOf]

theorem order_taken {ring next : RingState Nat} {head len : Nat} {waiting : List (Nat × List (Buf Nat))}
    {arrived : List (Nat × Nat)} (inv : RingInv ring waiting arrived) (chain : TakenChain ring next head len)
    (order : (flightOrder ring).map some = (heads ring.core.inFlight).reverse) :
    ∃ c, ring.core.inFlight = next.core.inFlight ++ [c] ∧ c.descs.head? = some head ∧
      (flightOrder next).map some = (heads next.core.inFlight).reverse := by
  obtain ⟨c, pre, post, split, first, rest⟩ := chain.chain
  obtain ⟨added, seen, held⟩ := chain.same
  obtain ⟨free, core⟩ := inv.core
  have apart := (heads_nodup core).1
  have start : flightOrder ring = head :: flightOrder next := by
    rw [flightOrder, flightOrder, chain.arrived, held, waitingOf, waitingOf, added, seen]
    rfl
  have around : heads ring.core.inFlight = heads pre ++ some head :: heads post := by
    rw [split, ← first]
    exact List.map_append
  rw [around] at apart order
  rw [start, List.map_cons, List.reverse_append, List.reverse_cons] at order
  cases post with
  | nil =>
    refine ⟨c, ?_, first, ?_⟩
    · rw [split, rest, List.append_nil]
    · rw [rest, List.append_nil]
      exact (List.cons.inj order).2
  | cons d post =>
    exfalso
    have inPost : some head ∈ (heads (d :: post)).reverse := by
      have top := congrArg List.head? order
      rw [List.head?_cons, List.append_assoc, List.head?_append_of_ne_nil _ (by simp [heads])] at top
      exact List.mem_of_mem_head? top.symm
    rw [List.nodup_append] at apart
    exact (List.nodup_cons.mp apart.2.1).1 (List.mem_reverse.mp inPost)

theorem post_order (inv : OrderInv routine s) (idle : s.driver = .idle) (posts : post routine s r = some t) :
    OrderInv routine t := by
  have accounts := post_inv inv.accounts idle posts
  cases added : virtqueueAddChain s.ring.core.queue (routine.chain r) with
  | none =>
    simp only [post, added, Option.some.injEq] at posts
    subst posts
    refine ⟨accounts, inv.order, inv.ages, ?_, ⟨?_, inv.lag⟩⟩
    · simp only [CurrentInv, idle]
    · intro taken report answered
      cases answered
  | some result =>
    obtain ⟨head, queue⟩ := result
    simp only [post, added] at posts
    obtain ⟨ring, rung, rfl⟩ := Option.map_eq_some_iff.mp posts
    have chain := ring_add inv.accounts.ring (chain_nonempty routine r) added rung
    obtain ⟨c, inFlight, first, -⟩ := chain.chain
    have longer : ring.added.length = s.ring.added.length + 1 := by
      rw [chain.added, List.length_append]
      rfl
    refine ⟨accounts, order_added inv.accounts.ring chain inv.order, ?_, longer.symm, inv.lag⟩
    intro i d found
    replace found : ring.core.inFlight[i]? = some d := found
    show Function.update s.owner head s.ring.added.length (d.descs.headD 0) + i + 1 = ring.added.length
    rw [inFlight] at found
    cases i with
    | zero =>
      cases found
      rw [List.headD_eq_head?_getD, first, longer]
      exact congrArg (· + 1) (Function.update_self _ _ _)
    | succ i =>
      have age := inv.ages i d found
      have same := others_keep_tickets s s.ring.added.length accounts.ring inFlight first d
        (List.mem_of_getElem? found)
      rw [same, longer]
      omega

/-- The answer that is taken back is that of the oldest request in flight, which is as many
    requests older than the call as calls have timed out. -/
theorem poll_order {left : Nat} (inv : OrderInv routine s) (driver : s.driver = .polling r ticket before left)
    (polled : pollUsed routine s r ticket before left = some t) : OrderInv routine t := by
  have accounts := poll_inv inv.accounts driver polled
  have current := inv.current
  rw [CurrentInv, driver] at current
  unfold pollUsed at polled
  split at polled
  · cases polled
  · split at polled
    · cases polled
      refine ⟨accounts, inv.order, inv.ages, trivial, ⟨?_, inv.lag⟩⟩
      intro taken report answered
      cases answered
    · cases polled
      exact ⟨accounts, inv.order, inv.ages, current, inv.lag⟩
  · rename_i head len queue got
    obtain ⟨ring, rung, rfl⟩ := Option.map_eq_some_iff.mp polled
    have chain := ring_take inv.accounts.ring got rung
    obtain ⟨c, split, first, order⟩ := order_taken inv.accounts.ring chain inv.order
    have behind : ring.core.inFlight.length = lates s.log := accounts.outstanding
    have age := inv.ages ring.core.inFlight.length c (by rw [split]; simp)
    rw [head_ticket first, behind] at age
    refine ⟨accounts, order, ?_, ?_, inv.lag⟩
    · intro i d found
      replace found : ring.core.inFlight[i]? = some d := found
      show ticketOf s d + i + 1 = ring.added.length
      rw [chain.same.1]
      apply inv.ages i d
      rw [split, List.getElem?_append_left (List.getElem?_eq_some_iff.mp found).1]
      exact found
    · show s.owner head + lates s.log = ticket
      omega

theorem read_order {taken len : Nat} {report : Report} (inv : OrderInv routine s)
    (driver : s.driver = .reading r ticket before taken report len) :
    OrderInv routine { s with
      driver := .idle
      log := ⟨r, ticket, before, s.mem, .answered taken report, routine.answer s.mem len⟩ :: s.log } := by
  have current := inv.current
  rw [CurrentInv, driver] at current
  refine ⟨read_inv inv.accounts driver, inv.order, inv.ages, trivial, ⟨?_, inv.lag⟩⟩
  intro taken' report' answered
  cases answered
  exact current

theorem device_order {ring : RingState Nat} {mem : Mem} {reports : Nat → Report} (inv : OrderInv routine s)
    (accounts : PolledInv routine { s with ring := ring, mem := mem, reports := reports })
    (inFlight : ring.core.inFlight = s.ring.core.inFlight) (added : ring.added = s.ring.added)
    (order : flightOrder ring = flightOrder s.ring) :
    OrderInv routine { s with ring := ring, mem := mem, reports := reports } := by
  refine ⟨accounts, ?_, ?_, ?_, inv.lag⟩
  · rw [order, inFlight]
    exact inv.order
  · rw [inFlight, added]
    exact inv.ages
  · have current := inv.current
    unfold CurrentInv at current ⊢
    dsimp only
    rw [added]
    exact current

theorem step_order {e : Event Req} (inv : OrderInv routine s) (ordered : InOrder s e)
    (taken : step routine s e = some t) : OrderInv routine t := by
  cases e with
  | call r =>
    simp only [step] at taken
    split at taken
    · rename_i idle
      exact post_order inv idle taken
    · cases taken
  | poll =>
    simp only [step] at taken
    split at taken
    · rename_i driver
      exact poll_order inv driver taken
    · cases taken
  | read =>
    simp only [step] at taken
    split at taken
    · rename_i driver
      cases taken
      exact read_order inv driver
    · cases taken
  | store m =>
    have accounts := step_inv inv.accounts taken
    simp only [step] at taken
    split at taken
    · rename_i idle
      cases taken
      refine ⟨accounts, inv.order, inv.ages, ?_, inv.lag⟩
      simp only [CurrentInv, idle]
    · cases taken
  | fetch =>
    have accounts := step_inv inv.accounts taken
    simp only [step] at taken
    obtain ⟨ring, rung, rfl⟩ := Option.map_eq_some_iff.mp taken
    obtain ⟨head, -, -, core, added, -⟩ := ring_fetch rung
    exact device_order inv accounts (by rw [core]) added (order_fetched inv.accounts.ring rung)
  | complete i len bytes =>
    obtain rfl : i = 0 := ordered
    have accounts := step_inv inv.accounts taken
    simp only [step] at taken
    split at taken
    · cases taken
    · rename_i head found
      obtain ⟨ring, rung, rfl⟩ := Option.map_eq_some_iff.mp taken
      obtain ⟨inFlight, -, -, -, added, -⟩ := ring_complete found rung
      exact device_order inv accounts inFlight added (order_completed inv.accounts.ring found rung)

theorem booted_order (start : Booted s) : OrderInv routine s := by
  obtain ⟨null, k, small, core⟩ := start.ring.core
  obtain ⟨added, seen, completed, reported⟩ := start.ring.record
  have none : s.ring.core.inFlight = [] := by rw [core]
  refine ⟨booted_inv start, ?_, ?_, ?_, ?_⟩
  · rw [none, flightOrder, arrivedOf, waitingOf, completed, added, start.ring.device.2, List.drop_nil,
      List.drop_nil]
    rfl
  · intro i c found
    rw [none] at found
    cases found
  · simp only [CurrentInv, start.driver]
  · rw [start.log]
    trivial

theorem run_order (run : Reaches Booted (Guarded InOrder (Taken (step routine))) s) : OrderInv routine s := by
  refine reaches_invariant (OrderInv routine) ?_ ?_ run
  · intro s start
    exact booted_order start
  · intro s e t inv taken
    exact step_order inv taken.1 taken.2

end Order

section Routines
variable {Req : Type} {routine : Routine Req} {s : System Req}

theorem poll_moves (inv : PolledInv routine s) (polling : polls s.driver = 1) :
    step routine s .poll ≠ none := by
  cases driver : s.driver with
  | idle =>
    rw [driver] at polling
    cases polling
  | reading r ticket before taken report len =>
    rw [driver] at polling
    cases polling
  | polling r ticket before left =>
    simp only [step, driver, pollUsed]
    have ends := get_used_ends inv
    split
    · rename_i stuck
      exact absurd stuck ends
    · split <;> simp
    · rename_i head len queue got
      simp only [ringStep, got, queueStep, Option.map_some]
      simp

theorem inv_accounted (inv : PolledInv routine s) : Accounted routine s := by
  obtain ⟨free, core⟩ := inv.ring.core
  refine ⟨inv.outstanding, ⟨free, core.list, ?_⟩, poll_moves inv, inv.refused, ?_, inv.own⟩
  · rw [← inv.outstanding]
    exact free_count core inv.widths
  · have taken := (List.nodup_append.mp inv.once).2.1
    rw [takenTickets, List.nodup_append] at taken
    exact taken.2.1

theorem keeps_accounts (routine : Routine Req) : KeepsAccounts routine where
  always _ run := inv_accounted (run_inv run)
  inOrder _ run := (run_order run).lag

/-- All four routines that poll, wherever their static buffers are. -/
theorem polled_drivers_keep_accounts :
    KeepsAccounts virtioRngRead ∧ (∀ txHdr, KeepsAccounts (virtioNetTx txHdr)) ∧
      (∀ cmdBuf respBuf, KeepsAccounts (gpuSendCmd cmdBuf respBuf)) ∧
      ∀ blkReqHdr blkStatus, KeepsAccounts (blkDoRequest blkReqHdr blkStatus) :=
  ⟨keeps_accounts _, fun _ => keeps_accounts _, fun _ _ => keeps_accounts _, fun _ _ => keeps_accounts _⟩

/-- A call that gets no answer ends with its last poll. -/
theorem polls_run_out {r : Req} {ticket left : Nat} {before : Mem} {queue : Virtqueue Nat}
    (run : Reaches Booted (Taken (step routine)) s) (driver : s.driver = .polling r ticket before (left + 1))
    (nothing : virtqueueGetUsed s.ring.core.queue = some (none, queue)) :
    Reaches Booted (Taken (step routine))
      { s with driver := .idle, log := ⟨r, ticket, before, s.mem, .late, routine.late⟩ :: s.log } := by
  induction left generalizing s with
  | zero =>
    refine Reaches.next (a := .poll) run ?_
    simp only [Taken, step, driver, pollUsed, nothing]
    exact if_pos trivial
  | succ left ih =>
    have polled : step routine s .poll = some { s with driver := .polling r ticket before (left + 1) } := by
      simp only [step, driver, pollUsed, nothing]
      exact if_neg (Nat.succ_ne_zero left)
    have later : Reaches Booted (Taken (step routine)) { s with driver := .polling r ticket before (left + 1) } :=
      Reaches.next run polled
    have ends := ih later rfl nothing
    exact ends

theorem posted_driver {r : Req} {t : System Req} (posts : post routine s r = some t) :
    t.driver = s.driver ∨ t.driver = .polling r s.ring.added.length s.mem routine.timeout := by
  unfold post at posts
  dsimp only at posts
  split at posts
  · cases posts
    exact Or.inl rfl
  · obtain ⟨_, _, rfl⟩ := Option.map_eq_some_iff.mp posts
    exact Or.inr rfl

end Routines

def entropyBoot : System ReadRequest :=
  ⟨⟨⟨virtqueueInit 0 16, []⟩, 0, [], [], [], [], []⟩, fun _ => 0, .idle, fun _ => 0,
    fun _ => ⟨fun _ => 0, fun _ => 0, 0⟩, []⟩

def entropyLate (s : System ReadRequest) : System ReadRequest :=
  { s with driver := .idle, log := ⟨⟨64, 8⟩, 0, fun _ => 0, s.mem, .late, -1⟩ :: s.log }

/-- A read of the entropy device that times out, and one that takes the answer to it. -/
theorem late_entropy_accounted : ∃ s, Reaches Booted (Taken (step virtioRngRead)) s ∧
    s.log.map Return.result = [8, -1] ∧ s.log.filterMap takenCall = [0] ∧ s.mem 64 = 7 ∧ s.mem 96 = 0 ∧
    Accounted virtioRngRead s := by
  have look : (post virtioRngRead entropyBoot ⟨64, 8⟩).any (fun s =>
      decide (polls s.driver = 1 ∧ (virtqueueGetUsed s.ring.core.queue).map Prod.fst = some none) &&
        (runActions (step virtioRngRead) (entropyLate s)
          [.fetch, .complete 0 8 (fun _ => 7), .call ⟨96, 4⟩, .poll, .read]).any (fun t =>
            decide (t.log.map Return.result = [8, -1] ∧ t.log.filterMap takenCall = [0] ∧ t.mem 64 = 7 ∧
              t.mem 96 = 0))) = true := by
    decide +kernel
  obtain ⟨s, called, found⟩ := (Option.any_eq_true _ _).mp look
  obtain ⟨first, rest⟩ := (Bool.and_eq_true _ _).mp found
  obtain ⟨polling, empty⟩ := of_decide_eq_true first
  obtain ⟨t, done, last⟩ := (Option.any_eq_true _ _).mp rest
  obtain ⟨results, taken, answered, untouched⟩ := of_decide_eq_true last
  have start : Booted entropyBoot := ⟨⟨⟨0, 4, by decide, rfl⟩, ⟨rfl, rfl⟩, ⟨rfl, rfl, rfl, rfl⟩⟩, rfl, rfl⟩
  have run : Reaches Booted (Taken (step virtioRngRead)) s :=
    Reaches.next (a := .call ⟨64, 8⟩) (Reaches.start start) called
  obtain ⟨⟨_, queue⟩, nothing, rfl⟩ := Option.map_eq_some_iff.mp empty
  have driver := (posted_driver called).resolve_left (by
    intro idle
    rw [idle] at polling
    cases polling)
  have timedOut : Reaches Booted (Taken (step virtioRngRead)) (entropyLate s) :=
    polls_run_out run driver nothing
  have ends := reaches_of_actions timedOut done
  exact ⟨t, ends, results, taken, answered, untouched, polled_drivers_keep_accounts.1.always t ends⟩

end Archarch.PolledQueues
