import Archarch.Devices.BlockRequests
import Archarch.Devices.ReceiveBuffers
import Archarch.Foundations.ByteMemory

/- The drivers that post one chain and poll until it comes back: virtio_rng_read,
   virtio_net_tx, gpu_send_cmd and blk_do_request. They share one shape, and each is this
   shape at its own buffers, timeout and results. -/
namespace Archarch.PolledQueues
open ByteMemory LabelledRuns Virtqueues
open BlockDevice (virtioBlkTIn virtioBlkSOk statusSentinel requestTimeout)
open ReceiveBuffers (virtioNetHdrSize)

/-- prepare is what a routine writes before it posts, answer what it returns when memory and
    the length of the used element are these. Addresses are those of the descriptors. -/
structure Routine (Req : Type) where
  prepare : Req → Mem → Mem
  chain : Req → List (Buf Nat)
  width : Nat
  timeout : Nat
  refused : Int
  late : Int
  answer : Mem → Nat → Int
  positive : 0 < width
  ofWidth : ∀ r, (chain r).length = width
  plain : ∀ r, NoNext (chain r)
  patient : 0 < timeout

def writable (bufs : List (Buf Nat)) (a : Nat) : Bool :=
  bufs.any fun b => decide (b.flags &&& vringDescFWrite ≠ 0 ∧ b.addr ≤ a ∧ a < b.addr + b.len)

def deviceWrites (bufs : List (Buf Nat)) (bytes m : Mem) : Mem :=
  fun a => if writable bufs a then bytes a else m a

/-- How the device answers a chain: the memory it finds, the bytes it has for the
    writable buffers, and the length it puts into the used element. -/
structure Report where
  seen : Mem
  bytes : Mem
  len : Nat

/-- ticket is the number of chains posted before. -/
inductive Outcome where
  | refused
  | late
  | answered (taken : Nat) (report : Report)

structure Return (Req : Type) where
  request : Req
  ticket : Nat
  before : Mem
  after : Mem
  outcome : Outcome
  result : Int

/-- reading is between the end of the loop and the return. -/
inductive Driver (Req : Type) where
  | idle
  | polling (r : Req) (ticket : Nat) (before : Mem) (left : Nat)
  | reading (r : Req) (ticket : Nat) (before : Mem) (taken : Nat) (report : Report) (len : Nat)

/-- owner and reports go by the first descriptor of a chain: the ticket it was posted with,
    and the answer to it. log has the calls, the last one first. Neither the driver nor the
    device looks at the three. -/
structure System (Req : Type) where
  ring : RingState Nat
  mem : Mem
  driver : Driver Req
  owner : Nat → Nat
  reports : Nat → Report
  log : List (Return Req)

/-- store belongs to the caller, which fills its buffers; fetch and complete to the device. -/
inductive Event (Req : Type) where
  | call (r : Req)
  | poll
  | read
  | store (m : Mem)
  | fetch
  | complete (i len : Nat) (bytes : Mem)

section Steps
variable {Req : Type} (routine : Routine Req)

def post (s : System Req) (r : Req) : Option (System Req) :=
  let m := routine.prepare r s.mem
  let ticket := s.ring.added.length
  match virtqueueAddChain s.ring.core.queue (routine.chain r) with
  | none =>
    some { s with mem := m, log := ⟨r, ticket, s.mem, m, .refused, routine.refused⟩ :: s.log }
  | some (head, _) => (ringStep s.ring (.add (routine.chain r))).map fun ring =>
    { s with
      ring := ring
      mem := m
      driver := .polling r ticket s.mem routine.timeout
      owner := Function.update s.owner head ticket }

def pollUsed (s : System Req) (r : Req) (ticket : Nat) (before : Mem) (left : Nat) : Option (System Req) :=
  match virtqueueGetUsed s.ring.core.queue with
  | none => none
  | some (none, _) =>
    if left - 1 = 0 then
      some { s with
        driver := .idle
        log := ⟨r, ticket, before, s.mem, .late, routine.late⟩ :: s.log }
    else some { s with driver := .polling r ticket before (left - 1) }
  | some (some (head, len), _) => (ringStep s.ring .getUsed).map fun ring =>
    { s with
      ring := ring
      driver := .reading r ticket before (s.owner head) (s.reports head) len }

def bufsAt (s : System Req) (head : Nat) : List (Buf Nat) :=
  (chainAt s.ring.core.queue head s.ring.core.queue.num).map bufOf

def step (s : System Req) : Event Req → Option (System Req)
  | .call r =>
    match s.driver with
    | .idle => post routine s r
    | _ => none
  | .poll =>
    match s.driver with
    | .polling r ticket before left => pollUsed routine s r ticket before left
    | _ => none
  | .read =>
    match s.driver with
    | .reading r ticket before taken report len =>
      some { s with
        driver := .idle
        log := ⟨r, ticket, before, s.mem, .answered taken report, routine.answer s.mem len⟩ :: s.log }
    | _ => none
  | .store m =>
    match s.driver with
    | .idle => some { s with mem := m }
    | _ => none
  | .fetch => (ringStep s.ring .fetch).map fun ring => { s with ring := ring }
  | .complete i len bytes =>
    match s.ring.held[i]? with
    | none => none
    | some head => (ringStep s.ring (.complete i len)).map fun ring =>
      { s with
        ring := ring
        mem := deviceWrites (bufsAt s head) bytes s.mem
        reports := Function.update s.reports head ⟨s.mem, bytes, len⟩ }

end Steps

/-- After virtio_pci_setup_queue. -/
structure Booted {Req : Type} (s : System Req) : Prop where
  ring : PowerQueue s.ring
  driver : s.driver = .idle
  log : s.log = []

def InOrder {Req : Type} (_ : System Req) : Event Req → Prop
  | .complete i _ _ => i = 0
  | _ => True

/- The four routines. -/

def storeInt (m : Mem) (a n v : Nat) : Mem := fill m a n fun i => BitVec.ofNat 8 (v / 2 ^ (8 * i))

def load32 (m : Mem) (a : Nat) : Nat :=
  (m a).toNat + 2 ^ 8 * (m (a + 1)).toNat + 2 ^ 16 * (m (a + 2)).toNat + 2 ^ 24 * (m (a + 3)).toNat

structure ReadRequest where
  buf : Nat
  len : Nat

def virtioRngRead : Routine ReadRequest where
  prepare _ m := m
  chain r := [⟨r.buf, r.len % 2 ^ 32, vringDescFWrite⟩]
  width := 1
  timeout := 10000000
  refused := -1
  late := -1
  answer _ written := (BitVec.ofNat 32 written).toInt
  positive := by decide
  ofWidth _ := rfl
  plain _ := by simp [NoNext, vringDescFWrite, vringDescFNext]
  patient := by decide

structure Frame where
  frame : Nat
  len : Nat

/-- Every field of tx_hdr is 0, VIRTIO_NET_HDR_GSO_NONE too. -/
def virtioNetTx (txHdr : Nat) : Routine Frame where
  prepare _ m := fill m txHdr virtioNetHdrSize fun _ => 0
  chain r := [⟨txHdr, virtioNetHdrSize, 0⟩, ⟨r.frame, r.len % 2 ^ 32, 0⟩]
  width := 2
  timeout := 50000000
  refused := -1
  late := -1
  answer _ _ := 0
  positive := by decide
  ofWidth _ := rfl
  plain _ := by simp [NoNext]
  patient := by decide

structure Command where
  cmdLen : Nat
  respLen : Nat

/-- sizeof(resp_buf) -/
def respBufSize : Nat := 4096

/-- The result is the type in the header of the response. -/
def gpuSendCmd (cmdBuf respBuf : Nat) : Routine Command where
  prepare r m := fill m respBuf (min (r.respLen % 2 ^ 32) respBufSize) fun _ => 0
  chain r := [⟨cmdBuf, r.cmdLen % 2 ^ 32, 0⟩, ⟨respBuf, r.respLen % 2 ^ 32, vringDescFWrite⟩]
  width := 2
  timeout := 50000000
  refused := 0
  late := 0
  answer m _ := load32 m respBuf
  positive := by decide
  ofWidth _ := rfl
  plain _ := by simp [NoNext, vringDescFWrite, vringDescFNext]
  patient := by decide

structure Transfer where
  type : Nat
  sector : Nat
  buf : Nat
  len : Nat

/-- The header is the type, a reserved word and the sector. -/
def blkDoRequest (blkReqHdr blkStatus : Nat) : Routine Transfer where
  prepare r m :=
    let m := storeInt m blkReqHdr 4 r.type
    let m := storeInt m (blkReqHdr + 4) 4 0
    let m := storeInt m (blkReqHdr + 8) 8 r.sector
    Function.update m blkStatus statusSentinel
  chain r :=
    [⟨blkReqHdr, 16, 0⟩, ⟨r.buf, r.len % 2 ^ 32, if r.type = virtioBlkTIn then vringDescFWrite else 0⟩,
      ⟨blkStatus, 1, vringDescFWrite⟩]
  width := 3
  timeout := requestTimeout
  refused := -1
  late := -1
  answer m _ := if m blkStatus ≠ virtioBlkSOk then -1 else 0
  positive := by decide
  ofWidth _ := rfl
  plain r := by
    intro b member
    simp only [List.mem_cons, List.not_mem_nil, or_false] at member
    rcases member with rfl | rfl | rfl <;> dsimp only
    · decide
    · split <;> decide
    · decide
  patient := by decide

end Archarch.PolledQueues
