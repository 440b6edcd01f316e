import Archarch.Devices.Virtqueue
import Archarch.Foundations.ByteMemory
import Archarch.Foundations.Runs

/- virtio_blk.c over its request queue, and a device that takes each posted chain once and
   completes it at any later time with any status. -/
namespace Archarch.BlockDevice
open ByteMemory LabelledRuns Virtqueues

def virtioBlkTIn : Nat := 0
def virtioBlkTOut : Nat := 1
def virtioBlkSOk : BitVec 8 := 0
def statusSentinel : BitVec 8 := 0xFF
def requestTimeout : Nat := 50000000
def ramSize : Nat := 128 * 1024 * 1024

inductive Pointer where
  | null
  | header
  | data (addr : Nat)
  | status
deriving DecidableEq

/-- blk_req_hdr, but for its reserved field. -/
structure BlkReq where
  type : Nat
  sector : Nat

/-- A call of virtio_blk_read or virtio_blk_write. The buffer has count * 512 bytes of RAM. -/
structure Request where
  write : Bool
  sector : Nat
  count : Nat
  buf : Nat
  fits : count * 512 ≤ ramSize
deriving DecidableEq

def requestType (r : Request) : Nat := if r.write then virtioBlkTOut else virtioBlkTIn

def requestLen (r : Request) : Nat := r.count * 512 % 2 ^ 32

def requestChain (r : Request) : List (Buf Pointer) :=
  [⟨.header, 16, 0⟩,
    ⟨.data r.buf, requestLen r, if requestType r = virtioBlkTIn then vringDescFWrite else 0⟩,
    ⟨.status, 1, vringDescFWrite⟩]

/-- What the device remembers of a chain it has taken. ticket counts the chains posted
   before; neither the driver nor the device looks at it. -/
structure Fetched where
  ticket : Nat
  head : Nat
  chain : List (Desc Pointer)
  header : BlkReq

structure Completion where
  ticket : Nat
  status : BitVec 8
deriving DecidableEq

/-- Where blk_do_request stands: it polls with a remaining timeout, looks at the status after
   it has got a completion, or has just returned, with the completion when there was one. -/
inductive Driver where
  | idle
  | polling (r : Request) (ticket timeout : Nat)
  | checking (r : Request) (ticket : Nat) (used : Completion)
  | returned (r : Request) (ticket : Nat) (used : Option Completion) (result : Int)
deriving DecidableEq

/-- posts and dones belong to the slots of the two rings: the ticket of the chain behind an
   available entry and the completion behind a used one. -/
structure System where
  queue : Virtqueue Pointer
  hdr : BlkReq
  status : BitVec 8
  mem : Mem
  disk : Mem
  lastAvail : BitVec 16
  inFlight : List Fetched
  driver : Driver
  posted : Nat
  posts : Nat → Nat
  dones : Nat → Completion

def startRequest (s : System) (r : Request) : System :=
  let s := { s with hdr := ⟨requestType r, r.sector⟩, status := statusSentinel }
  match virtqueueAddChain s.queue (requestChain r) with
  | none => { s with driver := .returned r s.posted none (-1) }
  | some (_, queue) =>
    { s with
      queue := queue
      driver := .polling r s.posted requestTimeout
      posts := Function.update s.posts (s.queue.availIdx.toNat % s.queue.num) s.posted
      posted := s.posted + 1 }

/-- One round of the loop around virtqueue_get_used, which ends when the timeout reaches 0. -/
def pollUsed (s : System) (r : Request) (ticket timeout : Nat) : Option System :=
  match virtqueueGetUsed s.queue with
  | none => none
  | some (none, queue) =>
    some { s with
      queue := queue
      driver := if timeout - 1 = 0 then .returned r ticket none (-1) else .polling r ticket (timeout - 1) }
  | some (some _, queue) =>
    some { s with
      queue := queue
      driver := .checking r ticket (s.dones (s.queue.lastUsedIdx.toNat % s.queue.num)) }

def checkStatus (s : System) (r : Request) (ticket : Nat) (used : Completion) : System :=
  { s with driver := .returned r ticket (some used) (if s.status ≠ virtioBlkSOk then -1 else 0) }

/-- The device takes the next available entry; it reads the descriptors and the header. -/
def fetchChain (s : System) : System :=
  let slot := s.lastAvail.toNat % s.queue.num
  let head := s.queue.availRing slot
  { s with
    lastAvail := s.lastAvail + 1
    inFlight := s.inFlight ++ [⟨s.posts slot, head, chainAt s.queue head s.queue.num, s.hdr⟩] }

def transfer (s : System) (f : Fetched) (status : BitVec 8) : System :=
  match f.chain with
  | [_, d, _] =>
    match d.addr with
    | .data a =>
      if status ≠ virtioBlkSOk then s
      else if f.header.type = virtioBlkTIn then
        { s with mem := fill s.mem a d.len fun i => s.disk (f.header.sector * 512 + i) }
      else { s with disk := fill s.disk (f.header.sector * 512) d.len fun i => s.mem (a + i) }
    | _ => s
  | _ => s

def writeStatus (s : System) (f : Fetched) (status : BitVec 8) : System :=
  match f.chain with
  | [_, _, d] => if d.addr = .status then { s with status := status } else s
  | _ => s

def completeChain (s : System) (f : Fetched) (rest : List Fetched) (status : BitVec 8) (len : Nat) :
    System :=
  let s := writeStatus (transfer s f status) f status
  { s with
    queue := pushUsed s.queue ⟨f.head, len⟩
    dones := Function.update s.dones (s.queue.usedIdx.toNat % s.queue.num) ⟨f.ticket, status⟩
    inFlight := rest }

/-- leave and store belong to the caller, which goes on and fills its buffers. -/
inductive Event where
  | call (r : Request)
  | poll
  | check
  | leave
  | store (a : Nat) (byte : BitVec 8)
  | fetch
  | complete (i : Nat) (status : BitVec 8) (len : Nat)

def systemStep (s : System) : Event → Option System
  | .call r =>
    match s.driver with
    | .idle => some (startRequest s r)
    | _ => none
  | .poll =>
    match s.driver with
    | .polling r ticket timeout => pollUsed s r ticket timeout
    | _ => none
  | .check =>
    match s.driver with
    | .checking r ticket used => some (checkStatus s r ticket used)
    | _ => none
  | .leave =>
    match s.driver with
    | .returned _ _ _ _ => some { s with driver := .idle }
    | _ => none
  | .store a byte =>
    match s.driver with
    | .idle => some { s with mem := Function.update s.mem a byte }
    | _ => none
  | .fetch => if s.lastAvail ≠ s.queue.availIdx then some (fetchChain s) else none
  | .complete i status len =>
    (s.inFlight[i]?).map fun f => completeChain s f (s.inFlight.eraseIdx i) status len

/-- After virtio_blk_init, with a queue of num descriptors. -/
structure Booted (s : System) : Prop where
  queue : ∃ size, 0 < size ∧ s.queue = virtqueueInit .null size
  device : s.lastAvail = 0 ∧ s.inFlight = []
  driver : s.driver = .idle

end Archarch.BlockDevice
