import Archarch.Devices.BlockRequests

/- A call that starts while nothing is outstanding gets its own completion: the only chain
   the device can complete is the one the call has posted. -/
namespace Archarch.BlockDevice
open ByteMemory LabelledRuns LinkedChain Virtqueues

def header (r : Request) : BlkReq := ⟨requestType r, r.sector⟩

def Agree (s : System) (r : Request) : Prop :=
  ∀ i, i < r.count * 512 → s.mem (r.buf + i) = s.disk (r.sector * 512 + i)

def usedSlot (s : System) : Nat := s.queue.lastUsedIdx.toNat % s.queue.num

structure Quiescent (s : System) : Prop where
  queue : ∃ free, FreeList s.queue free ∧ free.length = s.queue.num
  posted : s.queue.availIdx = s.queue.lastUsedIdx
  taken : s.lastAvail = s.queue.lastUsedIdx
  done : s.queue.usedIdx = s.queue.lastUsedIdx
  inFlight : s.inFlight = []

structure Chained (s : System) (r : Request) (head : Nat) (chain free : List Nat) : Prop where
  describes : Describes s.queue chain (requestChain r)
  first : chain.head? = some head
  list : FreeList s.queue free
  nodup : chain.Nodup
  inside : ∀ i ∈ chain, i < descNone
  apart : ∀ i ∈ chain, i ∉ free
  total : chain.length + free.length = s.queue.num
  posted : s.queue.availIdx = s.queue.lastUsedIdx + 1

structure Ready (s : System) (r : Request) (ticket head : Nat) : Prop where
  taken : s.lastAvail = s.queue.lastUsedIdx
  done : s.queue.usedIdx = s.queue.lastUsedIdx
  inFlight : s.inFlight = []
  entry : s.queue.availRing (usedSlot s) = head
  ticket : s.posts (usedSlot s) = ticket
  hdr : s.hdr = header r

structure AtDevice (s : System) (r : Request) (ticket head : Nat) (chain : List Nat) : Prop where
  taken : s.lastAvail = s.queue.availIdx
  done : s.queue.usedIdx = s.queue.lastUsedIdx
  inFlight : s.inFlight = [⟨ticket, head, chain.map s.queue.desc, header r⟩]

structure Done (s : System) (r : Request) (ticket head : Nat) : Prop where
  taken : s.lastAvail = s.queue.availIdx
  done : s.queue.usedIdx = s.queue.lastUsedIdx + 1
  inFlight : s.inFlight = []
  entry : (s.queue.usedRing (usedSlot s)).id = head
  completion : s.dones (usedSlot s) = ⟨ticket, s.status⟩
  data : s.status = virtioBlkSOk → Agree s r

def Outstanding (s : System) (r : Request) (ticket : Nat) : Prop :=
  ∃ head chain free, Chained s r head chain free ∧
    (Ready s r ticket head ∨ AtDevice s r ticket head chain ∨ Done s r ticket head)

def Left (s : System) : Prop := Quiescent s ∨ s.queue.availIdx ≠ s.queue.lastUsedIdx

def DriverInv (s : System) : Prop :=
  match s.driver with
  | .idle => Left s
  | .polling r ticket _ => Outstanding s r ticket
  | .checking r ticket used =>
    Quiescent s ∧ used.ticket = ticket ∧ used.status = s.status ∧
      (s.status = virtioBlkSOk → Agree s r)
  | .returned _ _ none result => Left s ∧ result = -1
  | .returned r ticket (some used) result =>
    Quiescent s ∧ used.ticket = ticket ∧ (result = 0 → used.status = virtioBlkSOk ∧ Agree s r)

/-- A call is made only when the driver has got back every chain it has posted. -/
def Calm (s : System) : Event → Prop
  | .call _ => s.queue.availIdx = s.queue.lastUsedIdx
  | _ => True

section Steps
variable {s t : System} {r : Request} {ticket head : Nat} {chain free : List Nat}

theorem request_flags (r : Request) : ∀ b ∈ requestChain r, b.flags &&& vringDescFNext = 0 := by
  intro b member
  simp only [requestChain, List.mem_cons, List.not_mem_nil, or_false] at member
  rcases member with rfl | rfl | rfl
  · rfl
  · dsimp only
    split <;> rfl
  · rfl

theorem request_len (r : Request) : requestLen r = r.count * 512 := by
  have fits := r.fits
  rw [ramSize] at fits
  exact Nat.mod_eq_of_lt (by omega)

theorem describes_request (describes : Describes s.queue chain (requestChain r)) :
    ∃ i j k, chain = [i, j, k] ∧ (s.queue.desc j).addr = .data r.buf ∧
      (s.queue.desc j).len = requestLen r ∧ (s.queue.desc k).addr = .status := by
  have three : chain.length = 3 := describes_length describes
  match chain, three, describes with
  | [i, j, k], _, ⟨_, second, third⟩ =>
    refine ⟨i, j, k, rfl, by rw [second], by rw [second], ?_⟩
    have last : s.queue.desc k = ⟨.status, 1, vringDescFWrite, 0⟩ := third
    rw [last]

theorem start_request_inv (quiet : Quiescent s) : DriverInv (startRequest s r) := by
  obtain ⟨free, list, count⟩ := quiet.queue
  unfold startRequest
  dsimp only
  rcases virtqueue_add_chain_spec list (show requestChain r ≠ [] by simp [requestChain]) with
    ⟨full, _⟩ | ⟨chain, rest, queue, added, split, after⟩
  · rw [full]
    exact ⟨Or.inl ⟨⟨free, list, count⟩, quiet.posted, quiet.taken, quiet.done, quiet.inFlight⟩, rfl⟩
  · rw [added]
    have nodup := free_list_nodup list
    rw [split, List.nodup_append] at nodup
    refine ⟨s.queue.freeHead, chain, rest, ⟨after.describes, after.head, after.free, nodup.1, ?_, ?_, ?_, ?_⟩,
      Or.inl ⟨?_, ?_, quiet.inFlight, ?_, ?_, rfl⟩⟩
    · intro i member
      exact list.inside i (by rw [split]; exact List.mem_append_left _ member)
    · intro i member inRest
      exact nodup.2.2 i member i inRest rfl
    · rw [after.num, ← count, split, List.length_append]
    · rw [after.availIdx, after.used.2.2, quiet.posted]
    · rw [after.used.2.2]
      exact quiet.taken
    · rw [after.used.2.1, after.used.2.2]
      exact quiet.done
    · rw [usedSlot, after.used.2.2, after.num, ← quiet.posted]
      exact after.availRing
    · rw [usedSlot, after.used.2.2, after.num, ← quiet.posted]
      exact Function.update_self _ _ _

theorem outstanding_driver (driver : Driver) (waiting : Outstanding s r ticket) :
    Outstanding { s with driver := driver } r ticket := by
  obtain ⟨head, chain, free, chained, stage⟩ := waiting
  refine ⟨head, chain, free, ⟨chained.describes, chained.first, chained.list, chained.nodup,
    chained.inside, chained.apart, chained.total, chained.posted⟩, ?_⟩
  rcases stage with ready | device | done
  · exact Or.inl ⟨ready.taken, ready.done, ready.inFlight, ready.entry, ready.ticket, ready.hdr⟩
  · exact Or.inr (Or.inl ⟨device.taken, device.done, device.inFlight⟩)
  · exact Or.inr (Or.inr ⟨done.taken, done.done, done.inFlight, done.entry, done.completion, done.data⟩)

theorem poll_used_inv {timeout : Nat} (polled : pollUsed s r ticket timeout = some t)
    (waiting : Outstanding s r ticket) : DriverInv t := by
  have again := outstanding_driver (.polling r ticket (timeout - 1)) waiting
  obtain ⟨head, chain, free, chained, stage⟩ := waiting
  have empty : s.queue.usedIdx = s.queue.lastUsedIdx → DriverInv t := by
    intro same
    have nothing : virtqueueGetUsed s.queue = some (none, s.queue) := by
      rw [virtqueueGetUsed, if_pos same.symm]
    rw [pollUsed, nothing] at polled
    obtain rfl := Option.some.inj polled
    by_cases last : timeout - 1 = 0
    · simp only [last, ↓reduceIte]
      refine ⟨Or.inr ?_, rfl⟩
      show s.queue.availIdx ≠ s.queue.lastUsedIdx
      rw [chained.posted]
      bv_omega
    · simp only [last, ↓reduceIte]
      exact again
  rcases stage with ready | device | done
  · exact empty ready.done
  · exact empty device.done
  · have pending : s.queue.lastUsedIdx ≠ s.queue.usedIdx := by
      rw [done.done]
      bv_omega
    obtain ⟨queue, len, got, list, num, availRing, availIdx, usedRing, usedIdx, lastUsedIdx, _⟩ :=
      virtqueue_get_used_spec pending done.entry chained.describes (request_flags r) chained.first
        chained.list chained.nodup chained.inside chained.apart
        (by rw [describes_length chained.describes]; show 3 ≤ 2 ^ 16; decide)
    rw [pollUsed, got] at polled
    obtain rfl := Option.some.inj polled
    have completion := done.completion
    rw [usedSlot] at completion
    refine ⟨⟨⟨_, list, ?_⟩, ?_, ?_, ?_, done.inFlight⟩, ?_, ?_, done.data⟩
    · rw [num, List.length_append, List.length_reverse]
      exact chained.total
    · rw [availIdx, lastUsedIdx]
      exact chained.posted
    · rw [lastUsedIdx, ← chained.posted]
      exact done.taken
    · rw [usedIdx, lastUsedIdx]
      exact done.done
    · rw [completion]
    · rw [completion]

theorem check_status_inv {used : Completion} (quiet : Quiescent s) (own : used.ticket = ticket)
    (same : used.status = s.status) (data : s.status = virtioBlkSOk → Agree s r) :
    DriverInv (checkStatus s r ticket used) := by
  refine ⟨⟨quiet.queue, quiet.posted, quiet.taken, quiet.done, quiet.inFlight⟩, own, ?_⟩
  intro zero
  by_cases ok : s.status = virtioBlkSOk
  · exact ⟨same.trans ok, data ok⟩
  · rw [if_pos ok] at zero
    exact absurd zero (by decide)

theorem fetch_chain_ready (chained : Chained s r head chain free) (ready : Ready s r ticket head) :
    Chained (fetchChain s) r head chain free ∧ AtDevice (fetchChain s) r ticket head chain := by
  have walk : chainAt s.queue head s.queue.num = chain.map s.queue.desc :=
    chain_at_spec chained.describes (request_flags r) chained.first (by have := chained.total; omega)
  have slot : s.lastAvail.toNat % s.queue.num = usedSlot s := by rw [usedSlot, ready.taken]
  refine ⟨⟨chained.describes, chained.first, chained.list, chained.nodup, chained.inside,
    chained.apart, chained.total, chained.posted⟩, ?_, ready.done, ?_⟩
  · show s.lastAvail + 1 = s.queue.availIdx
    rw [ready.taken, chained.posted]
  · simp only [fetchChain, slot, ready.entry, ready.ticket, ready.hdr, ready.inFlight, walk]
    rfl

theorem transfer_agree {f : Fetched} {status : BitVec 8} (describes : Describes s.queue chain (requestChain r))
    (is : f = ⟨ticket, head, chain.map s.queue.desc, header r⟩) (ok : status = virtioBlkSOk) :
    Agree (transfer s f status) r := by
  obtain ⟨i, j, k, rfl, addr, len, -⟩ := describes_request describes
  subst is
  intro o small
  rw [← request_len] at small
  simp only [transfer, List.map_cons, List.map_nil, addr, len, ok, ne_eq, not_true_eq_false, ↓reduceIte]
  cases write : r.write with
  | false =>
    rw [if_pos (by simp [header, requestType, write])]
    have moved : fill s.mem r.buf (requestLen r) (fun i => s.disk (r.sector * 512 + i)) (r.buf + o) =
        s.disk (r.sector * 512 + o) := by
      rw [fill_inside (by omega), Nat.add_sub_cancel_left]
    exact moved
  | true =>
    rw [if_neg (by simp [header, requestType, write, virtioBlkTIn, virtioBlkTOut])]
    have moved : fill s.disk (r.sector * 512) (requestLen r) (fun i => s.mem (r.buf + i))
        (r.sector * 512 + o) = s.mem (r.buf + o) := by
      rw [fill_inside (by omega), Nat.add_sub_cancel_left]
    exact moved.symm

theorem write_status_of_chain {f : Fetched} {status : BitVec 8}
    (describes : Describes s.queue chain (requestChain r))
    (taken : f.chain = chain.map s.queue.desc) : writeStatus t f status = { t with status := status } := by
  obtain ⟨i, j, k, rfl, -, -, addr⟩ := describes_request describes
  rw [writeStatus, taken]
  simp only [List.map_cons, List.map_nil, addr, ↓reduceIte]

theorem transfer_rest (s : System) (f : Fetched) (status : BitVec 8) :
    ∃ mem disk, transfer s f status = { s with mem := mem, disk := disk } := by
  unfold transfer
  split
  · split
    · split
      · exact ⟨s.mem, s.disk, rfl⟩
      · split
        · exact ⟨_, s.disk, rfl⟩
        · exact ⟨s.mem, _, rfl⟩
    · exact ⟨s.mem, s.disk, rfl⟩
  · exact ⟨s.mem, s.disk, rfl⟩

theorem complete_chain_done {f : Fetched} (status : BitVec 8) (len : Nat)
    (chained : Chained s r head chain free) (device : AtDevice s r ticket head chain)
    (only : f = ⟨ticket, head, chain.map s.queue.desc, header r⟩) :
    Chained (completeChain s f [] status len) r head chain free ∧
      Done (completeChain s f [] status len) r ticket head := by
  have data : status = virtioBlkSOk → Agree (transfer s f status) r :=
    transfer_agree chained.describes only
  obtain ⟨mem, disk, moved⟩ := transfer_rest s f status
  have slot : s.queue.usedIdx.toNat % s.queue.num = usedSlot s := by rw [usedSlot, device.done]
  have state : completeChain s f [] status len = { s with
      mem := mem, disk := disk, status := status, queue := pushUsed s.queue ⟨head, len⟩
      dones := Function.update s.dones (usedSlot s) ⟨ticket, status⟩, inFlight := [] } := by
    rw [completeChain, write_status_of_chain chained.describes (by rw [only]), moved, only]
    simp only [slot]
  rw [moved] at data
  rw [state]
  refine ⟨⟨describes_congr (q := s.queue) (fun _ _ => rfl) chained.describes, chained.first,
    ⟨chained.list.linked, chained.list.inside⟩, chained.nodup, chained.inside, chained.apart,
    chained.total, chained.posted⟩, device.taken, ?_, rfl, ?_, ?_, data⟩
  · show s.queue.usedIdx + 1 = s.queue.lastUsedIdx + 1
    rw [device.done]
  · show (Function.update s.queue.usedRing (s.queue.usedIdx.toNat % s.queue.num) ⟨head, len⟩
      (usedSlot s)).id = head
    rw [slot, Function.update_self]
  · exact Function.update_self _ _ _

theorem device_step_inv (inv : DriverInv s) (driver : t.driver = s.driver)
    (avail : t.queue.availIdx = s.queue.availIdx) (last : t.queue.lastUsedIdx = s.queue.lastUsedIdx)
    (busy : ¬Quiescent s) (keeps : ∀ r ticket, Outstanding s r ticket → Outstanding t r ticket) :
    DriverInv t := by
  have left : Left s → Left t := by
    rintro (quiet | more)
    · exact absurd quiet busy
    · exact Or.inr (by rw [avail, last]; exact more)
  unfold DriverInv at inv ⊢
  rw [driver]
  split at inv
  · exact left inv
  · exact keeps _ _ inv
  · exact absurd inv.1 busy
  · exact ⟨left inv.1, inv.2⟩
  · exact absurd inv.1 busy

theorem fetch_inv (more : s.lastAvail ≠ s.queue.availIdx) (inv : DriverInv s) :
    DriverInv (fetchChain s) := by
  refine device_step_inv inv rfl rfl rfl ?_ ?_
  · intro quiet
    exact more (quiet.taken.trans quiet.posted.symm)
  · rintro r ticket ⟨head, chain, free, chained, ready | device | done⟩
    · obtain ⟨after, stage⟩ := fetch_chain_ready chained ready
      exact ⟨head, chain, free, after, Or.inr (Or.inl stage)⟩
    · exact absurd device.taken more
    · exact absurd done.taken more

theorem complete_inv {i len : Nat} {status : BitVec 8} {f : Fetched} (found : s.inFlight[i]? = some f)
    (inv : DriverInv s) : DriverInv (completeChain s f (s.inFlight.eraseIdx i) status len) := by
  obtain ⟨mem, disk, moved⟩ := transfer_rest s f status
  have busy : s.inFlight ≠ [] := by
    intro none
    rw [none] at found
    cases found
  have parts : ∀ u rest, (completeChain u f rest status len).driver = u.driver ∧
      (completeChain u f rest status len).queue.availIdx = u.queue.availIdx ∧
      (completeChain u f rest status len).queue.lastUsedIdx = u.queue.lastUsedIdx := by
    intro u rest
    obtain ⟨mem, disk, moved⟩ := transfer_rest u f status
    rw [completeChain, moved, writeStatus]
    split
    · split <;> exact ⟨rfl, rfl, rfl⟩
    · exact ⟨rfl, rfl, rfl⟩
  obtain ⟨driver, avail, last⟩ := parts s (s.inFlight.eraseIdx i)
  refine device_step_inv inv driver avail last (fun quiet => busy quiet.inFlight) ?_
  rintro r ticket ⟨head, chain, free, chained, ready | device | done⟩
  · exact absurd ready.inFlight busy
  · rw [device.inFlight] at found ⊢
    cases i with
    | zero =>
      obtain ⟨after, stage⟩ := complete_chain_done status len chained device
        (Option.some.inj found).symm
      exact ⟨head, chain, free, after, Or.inr (Or.inr stage)⟩
    | succ i => cases found
  · exact absurd done.inFlight busy

theorem system_step_inv {e : Event} (inv : DriverInv s) (calm : Calm s e)
    (step : systemStep s e = some t) : DriverInv t := by
  cases e with
  | call r =>
    cases driver : s.driver <;> simp only [systemStep, driver, reduceCtorEq] at step
    obtain rfl := Option.some.inj step
    unfold DriverInv at inv
    rw [driver] at inv
    rcases inv with quiet | more
    · exact start_request_inv quiet
    · exact absurd calm more
  | poll =>
    cases driver : s.driver <;> simp only [systemStep, driver, reduceCtorEq] at step
    unfold DriverInv at inv
    rw [driver] at inv
    exact poll_used_inv step inv
  | check =>
    cases driver : s.driver <;> simp only [systemStep, driver, reduceCtorEq] at step
    obtain rfl := Option.some.inj step
    unfold DriverInv at inv
    rw [driver] at inv
    exact check_status_inv inv.1 inv.2.1 inv.2.2.1 inv.2.2.2
  | leave =>
    cases driver : s.driver <;> simp only [systemStep, driver, reduceCtorEq] at step
    obtain rfl := Option.some.inj step
    rename_i used result
    unfold DriverInv at inv
    rw [driver] at inv
    have left : Left s := by
      cases used with
      | none => exact inv.1
      | some used => exact Or.inl inv.1
    rcases left with quiet | more
    · exact Or.inl ⟨quiet.queue, quiet.posted, quiet.taken, quiet.done, quiet.inFlight⟩
    · exact Or.inr more
  | store a byte =>
    cases driver : s.driver <;> simp only [systemStep, driver, reduceCtorEq] at step
    obtain rfl := Option.some.inj step
    unfold DriverInv at inv
    rw [driver] at inv
    rcases inv with quiet | more
    · exact Or.inl ⟨quiet.queue, quiet.posted, quiet.taken, quiet.done, quiet.inFlight⟩
    · exact Or.inr more
  | fetch =>
    simp only [systemStep] at step
    split at step
    · rename_i more
      obtain rfl := Option.some.inj step
      exact fetch_inv more inv
    · cases step
  | complete i status len =>
    obtain ⟨f, found, rfl⟩ := Option.map_eq_some_iff.mp step
    exact complete_inv found inv

end Steps

instance calmDecidable (s : System) (e : Event) : Decidable (Calm s e) := by
  cases e <;> simp only [Calm] <;> infer_instance

theorem booted_inv {s : System} (booted : Booted s) : DriverInv s := by
  obtain ⟨size, positive, queue⟩ := booted.queue
  have quiet : Quiescent s := by
    refine ⟨⟨List.range s.queue.num, ?_, List.length_range⟩, ?_, ?_, ?_, booted.device.2⟩
    · rw [queue]
      exact init_free_list positive
    · rw [queue]
      rfl
    · rw [queue]
      exact booted.device.1
    · rw [queue]
      rfl
  rw [DriverInv, booted.driver]
  exact Or.inl quiet

theorem calm_run_inv {s : System} (run : Reaches Booted (Guarded Calm (Taken systemStep)) s) :
    DriverInv s := by
  refine reaches_invariant _ ?_ ?_ run
  · intro s booted
    exact booted_inv booted
  · intro s e t inv taken
    exact system_step_inv inv taken.1 taken.2

theorem completions_are_own {s : System} (run : Reaches Booted (Guarded Calm (Taken systemStep)) s)
    {r : Request} {ticket : Nat} {used : Option Completion}
    (returned : s.driver = .returned r ticket used 0) :
    ∃ c, used = some c ∧ c.ticket = ticket ∧ c.status = virtioBlkSOk ∧
      (r.write = false → ∀ i, i < r.count * 512 → s.mem (r.buf + i) = s.disk (r.sector * 512 + i)) := by
  have inv := calm_run_inv run
  rw [DriverInv, returned] at inv
  cases used with
  | none => exact absurd inv.2 (by decide)
  | some c =>
    obtain ⟨-, own, data⟩ := inv
    obtain ⟨ok, agree⟩ := data rfl
    exact ⟨c, rfl, own, ok, fun _ => agree⟩

def emptySystem : System where
  queue := virtqueueInit .null 8
  hdr := ⟨0, 0⟩
  status := 0
  mem := fun _ => 1
  disk := fun _ => 0
  lastAvail := 0
  inFlight := []
  driver := .idle
  posted := 0
  posts := fun _ => 0
  dones := fun _ => ⟨0, 0⟩

theorem empty_system_booted : Booted emptySystem := ⟨⟨8, by decide, rfl⟩, ⟨rfl, rfl⟩, rfl⟩

def readSector (sector buf : Nat) : Request := ⟨false, sector, 1, buf, by decide⟩

theorem read_gets_own_completion :
    ∃ s, Reaches Booted (Guarded Calm (Taken systemStep)) s ∧
      s.driver = .returned (readSector 3 4096) 0 (some ⟨0, 0⟩) 0 ∧
      ∀ i, i < 512 → s.mem (4096 + i) = s.disk (3 * 512 + i) := by
  have look : (runActions (allowed Calm systemStep) emptySystem
      [.call (readSector 3 4096), .fetch, .poll, .complete 0 0 513, .poll, .check]).any
        (fun s => decide (s.driver = .returned (readSector 3 4096) 0 (some ⟨0, 0⟩) 0)) = true := by
    decide +kernel
  obtain ⟨s, done, found⟩ := (Option.any_eq_true _ _).mp look
  have returned := of_decide_eq_true found
  have run := reaches_of_allowed (Reaches.start empty_system_booted) done
  obtain ⟨c, -, -, -, data⟩ := completions_are_own run returned
  exact ⟨s, run, returned, data rfl⟩

def expired (s : System) (r : Request) (ticket : Nat) : System :=
  { s with driver := .returned r ticket none (-1) }

theorem polls_time_out {start : System → Prop} {r : Request} {ticket : Nat} (n : Nat) {s : System}
    (run : Reaches start (Taken systemStep) s) (polling : s.driver = .polling r ticket (n + 1))
    (empty : s.queue.lastUsedIdx = s.queue.usedIdx) :
    Reaches start (Taken systemStep) (expired s r ticket) := by
  have nothing : virtqueueGetUsed s.queue = some (none, s.queue) := by
    rw [virtqueueGetUsed, if_pos empty]
  induction n generalizing s with
  | zero =>
    refine Reaches.next run (a := Event.poll) ?_
    show systemStep s .poll = _
    simp only [systemStep, polling, pollUsed, nothing]
    rfl
  | succ n ih =>
    have once : systemStep s .poll = some { s with driver := .polling r ticket (n + 1) } := by
      simp only [systemStep, polling, pollUsed, nothing]
      rfl
    have later : Reaches start (Taken systemStep) { s with driver := .polling r ticket (n + 1) } :=
      Reaches.next run once
    have gone := ih later rfl empty nothing
    exact gone

/-- The first read times out while the device has it. The device completes it during the
   second one, which takes that completion for its own. -/
theorem late_completion_ends_next_call :
    ¬ ∀ s, Reaches Booted (Taken systemStep) s → ∀ r ticket used, s.driver = .returned r ticket used 0 →
      ∃ c, used = some c ∧ c.ticket = ticket ∧ c.status = virtioBlkSOk ∧
        (r.write = false → ∀ i, i < r.count * 512 → s.mem (r.buf + i) = s.disk (r.sector * 512 + i)) := by
  intro everyCall
  have look : (runActions systemStep emptySystem [.call (readSector 3 4096), .fetch]).any
      (fun s => decide (s.driver = .polling (readSector 3 4096) 0 (49999999 + 1) ∧
          s.queue.lastUsedIdx = s.queue.usedIdx) &&
        (runActions systemStep (expired s (readSector 3 4096) 0)
          [.leave, .call (readSector 5 8192), .complete 0 0 513, .poll, .check]).any
          (fun t => decide (t.driver = .returned (readSector 5 8192) 1 (some ⟨0, 0⟩) 0))) = true := by
    decide +kernel
  obtain ⟨s, first, found⟩ := (Option.any_eq_true _ _).mp look
  obtain ⟨now, later⟩ := Bool.and_eq_true_iff.mp found
  obtain ⟨polling, empty⟩ := of_decide_eq_true now
  obtain ⟨t, second, returned⟩ := (Option.any_eq_true _ _).mp later
  have run := reaches_of_actions (Reaches.start empty_system_booted) first
  have gone := reaches_of_actions (polls_time_out 49999999 run polling empty) second
  obtain ⟨c, same, own, -⟩ := everyCall t gone _ _ _ (of_decide_eq_true returned)
  rw [← Option.some.inj same] at own
  exact absurd own (by decide)

end Archarch.BlockDevice
