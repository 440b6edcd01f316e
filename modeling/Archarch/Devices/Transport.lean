import Mathlib.Data.Nat.Bitwise
import Archarch.Devices.Virtqueue
import Archarch.Foundations.Extents
import Archarch.Spaces.BootTables

/- virtio_pci.c behind the capabilities: the accesses to the common configuration that bring a
   device up. The device answers a read as it likes; what it is owed is an order of the accesses. -/
namespace Archarch.Transport
open ExtentLayout
open FixedWidth (sub64 sub64_eq)
open AddressSpaces (virtToPhys)
open KernelHeap (kernVaOffset)
open Virtqueues (Virtqueue virtqMaxSize)

inductive Reg where
  | dfSelect
  | df
  | gfSelect
  | gf
  | status
  | qSelect
  | qSize
  | qEnable
  | qNotifyOff
  | qDescLo
  | qDescHi
  | qAvailLo
  | qAvailHi
  | qUsedLo
  | qUsedHi
deriving DecidableEq

def Reg.width : Reg → Nat
  | .status => 8
  | .qSelect | .qSize | .qEnable | .qNotifyOff => 16
  | _ => 32

inductive Access where
  | read (reg : Reg) (value : Nat)
  | write (reg : Reg) (value : Nat)
deriving DecidableEq

abbrev Trace := List Access

/-- An answer depends on all accesses before. -/
abbrev Device := Trace → Reg → Nat

def mmioRead (device : Device) (t : Trace) (reg : Reg) : Nat × Trace :=
  let value := device t reg % 2 ^ reg.width
  (value, t ++ [.read reg value])

def mmioWrite (t : Trace) (reg : Reg) (value : Nat) : Trace := t ++ [.write reg (value % 2 ^ reg.width)]

def statusAcknowledge : Nat := 1
def statusDriver : Nat := 2
def statusDriverOk : Nat := 4
def statusFeaturesOk : Nat := 8
def statusFailed : Nat := 128

/-- while (mmio_read8(common + VIRTIO_COMMON_STATUS) != 0); none if it is still in there. -/
def awaitReset (device : Device) : Nat → Trace → Option Trace
  | 0, _ => none
  | rounds + 1, t =>
    let (value, t) := mmioRead device t .status
    if value ≠ 0 then awaitReset device rounds t else some t

def readFeatures (device : Device) (t : Trace) (page : Nat) : Nat × Trace :=
  mmioRead device (mmioWrite t .dfSelect page) .df

def writeFeatures (t : Trace) (page features : Nat) : Trace :=
  mmioWrite (mmioWrite t .gfSelect page) .gf features

def negotiate (device : Device) (t : Trace) (acceptedFeaturesLo requiredFeaturesHiMask : Nat) : Trace :=
  let (featLo, t) := readFeatures device t 0
  let (featHi, t) := readFeatures device t 1
  let guestLo := featLo &&& acceptedFeaturesLo
  let guestHi := featHi &&& (1 ||| requiredFeaturesHiMask)
  writeFeatures (writeFeatures t 0 guestLo) 1 guestHi

def virtioPciInitDevice (device : Device) (rounds : Nat) (t : Trace)
    (acceptedFeaturesLo requiredFeaturesHiMask : Nat) : Option (Int × Trace) :=
  (awaitReset device rounds (mmioWrite t .status 0)).map fun t =>
    let t := mmioWrite t .status statusAcknowledge
    let t := mmioWrite t .status (statusAcknowledge ||| statusDriver)
    let t := negotiate device t acceptedFeaturesLo requiredFeaturesHiMask
    let t := mmioWrite t .status (statusAcknowledge ||| statusDriver ||| statusFeaturesOk)
    let (status, t) := mmioRead device t .status
    if status &&& statusFeaturesOk = 0 then (-1, mmioWrite t .status statusFailed) else (0, t)

def virtqMaxQueues : Nat := 16
def descBytes : Nat := 16 * virtqMaxSize
def availBytes : Nat := 6 + 2 * virtqMaxSize
def usedBytes : Nat := 6 + 8 * virtqMaxSize

/-- vq_descs, vq_avail_bufs and vq_used_bufs, in the kernel's half. -/
structure RingMemory where
  descs : Nat
  availBufs : Nat
  usedBufs : Nat
  high : kernVaOffset ≤ descs ∧ kernVaOffset ≤ availBufs ∧ kernVaOffset ≤ usedBufs
  fits : descs + 16 * descBytes < 2 ^ 64 ∧ availBufs + 16 * availBytes < 2 ^ 64 ∧
    usedBufs + 16 * usedBytes < 2 ^ 64
  apart : [Range.mk descs (16 * descBytes), ⟨availBufs, 16 * availBytes⟩, ⟨usedBufs, 16 * usedBytes⟩].Pairwise
    Range.Apart

/-- struct virtqueue: the rings, where they are, and how the device is notified. -/
structure DriverQueue where
  rings : Virtqueue Nat
  desc : Nat
  avail : Nat
  used : Nat
  notifyAddr : Nat
  queueIndex : Nat

/-- next is next_queue_slot. With no slot left the virtqueue stays as it was. -/
def virtqueueInit (memory : RingMemory) (next : Nat) (vq : DriverQueue) (num queueIndex notifyAddr : Nat) :
    Nat × DriverQueue :=
  if virtqMaxQueues ≤ next then (next, vq)
  else
    (next + 1,
      { rings := Virtqueues.virtqueueInit 0 num
        desc := memory.descs + next * descBytes
        avail := memory.availBufs + next * availBytes
        used := memory.usedBufs + next * usedBytes
        notifyAddr := notifyAddr
        queueIndex := queueIndex })

def writeAddresses (t : Trace) (desc avail used : Nat) : Trace :=
  let t := mmioWrite t .qDescLo (desc % 2 ^ 32)
  let t := mmioWrite t .qDescHi (desc / 2 ^ 32)
  let t := mmioWrite t .qAvailLo (avail % 2 ^ 32)
  let t := mmioWrite t .qAvailHi (avail / 2 ^ 32)
  let t := mmioWrite t .qUsedLo (used % 2 ^ 32)
  mmioWrite t .qUsedHi (used / 2 ^ 32)

/-- notifyBase and notifyOffMul are those of the device. -/
def virtioPciSetupQueue (device : Device) (memory : RingMemory) (notifyBase notifyOffMul : Nat) (t : Trace)
    (next : Nat) (vq : DriverQueue) (queueIndex desiredSize : Nat) : Int × Trace × Nat × DriverQueue :=
  let (maxSize, t) := mmioRead device (mmioWrite t .qSelect queueIndex) .qSize
  if maxSize = 0 then (-1, t, next, vq)
  else
    let qsize := if maxSize < desiredSize then maxSize else desiredSize
    let (notifyOff, t) := mmioRead device (mmioWrite t .qSize qsize) .qNotifyOff
    let notifyAddr := (notifyBase + notifyOff * notifyOffMul) % 2 ^ 64
    let (next, vq) := virtqueueInit memory next vq qsize queueIndex notifyAddr
    let t := writeAddresses t (virtToPhys vq.desc) (virtToPhys vq.avail) (virtToPhys vq.used)
    (0, mmioWrite t .qEnable 1, next, vq)

def virtioPciSetDriverOk (t : Trace) : Trace :=
  mmioWrite t .status (statusAcknowledge ||| statusDriver ||| statusFeaturesOk ||| statusDriverOk)

/- What the device is owed. -/

structure QueueLayout where
  index : Nat
  size : Nat
  desc : Nat
  avail : Nat
  used : Nat
deriving DecidableEq

/-- What a device knows since its last reset: the features it has offered by page and those the
    driver has accepted, whether it has agreed, the queue that is selected with what was said about
    it, and the queues that are enabled. -/
structure Session where
  status : Nat
  page : Option Nat
  offered : Nat → Option Nat
  guestPage : Option Nat
  accepted : Nat → Option Nat
  agreed : Bool
  queue : Option Nat
  limit : Option Nat
  size : Option Nat
  words : Reg → Option Nat
  live : List QueueLayout

def freshSession : Session where
  status := 0
  page := none
  offered := fun _ => none
  guestPage := none
  accepted := fun _ => none
  agreed := false
  queue := none
  limit := none
  size := none
  words := fun _ => none
  live := []

def isAddress : Reg → Bool
  | .qDescLo | .qDescHi | .qAvailLo | .qAvailHi | .qUsedLo | .qUsedHi => true
  | _ => false

def address (words : Reg → Option Nat) (lo hi : Reg) : Option Nat :=
  (words lo).bind fun l => (words hi).map fun h => l + 2 ^ 32 * h

def layoutOf (s : Session) : Option QueueLayout := do
  let index ← s.queue
  let size ← s.size
  let desc ← address s.words .qDescLo .qDescHi
  let avail ← address s.words .qAvailLo .qAvailHi
  let used ← address s.words .qUsedLo .qUsedHi
  some ⟨index, size, desc, avail, used⟩

/-- The next status, one step after the other; it can fail at any time. -/
def NextStatus (s : Session) (v : Nat) : Prop :=
  v = statusFailed ∨ s.status = 0 ∧ v = 1 ∨ s.status = 1 ∧ v = 3 ∨
    s.status = 3 ∧ v = 11 ∧ (s.accepted 0).isSome ∧ (s.accepted 1).isSome ∨
    s.status = 11 ∧ v = 15 ∧ s.agreed ∧ s.live ≠ []

instance (s : Session) (v : Nat) : Decidable (NextStatus s v) := by
  unfold NextStatus
  infer_instance

/-- Features are accepted from what was offered, before the status says so; queues are set up
    when the device has agreed to the features, each with a size it allows and enabled once with
    all its addresses; DRIVER_OK comes last. -/
def observe (s : Session) : Access → Option Session
  | .write .status v =>
    if v = 0 then some freshSession
    else if NextStatus s v then some { s with status := v }
    else none
  | .read .status v => some { s with agreed := s.agreed || decide (s.status = 11 ∧ v &&& statusFeaturesOk ≠ 0) }
  | .write .dfSelect p => if s.status = 3 then some { s with page := some p } else none
  | .read .df v => s.page.map fun p => { s with offered := Function.update s.offered p (some v) }
  | .write .gfSelect p => if s.status = 3 then some { s with guestPage := some p } else none
  | .write .gf v =>
    match s.guestPage with
    | none => none
    | some p =>
      if s.status = 3 ∧ (s.offered p).any fun o => o &&& v = v then
        some { s with accepted := Function.update s.accepted p (some v) }
      else none
  | .write .qSelect i =>
    if s.status = 11 ∧ s.agreed ∧ ∀ l ∈ s.live, l.index ≠ i then
      some { s with queue := some i, limit := none, size := none, words := fun _ => none }
    else none
  | .read .qSize v => if s.queue.isSome then some { s with limit := some v } else none
  | .write .qSize v => if 0 < v ∧ s.limit.any fun l => v ≤ l then some { s with size := some v } else none
  | .read .qNotifyOff _ => if s.queue.isSome then some s else none
  | .write .qEnable v =>
    if v = 1 then (layoutOf s).map fun l => { s with queue := none, live := s.live ++ [l] } else none
  | .write r v =>
    if isAddress r ∧ s.size.isSome then some { s with words := Function.update s.words r (some v) } else none
  | .read _ _ => none

def Follows (t : Trace) (s : Session) : Prop := t.foldlM observe freshSession = some s

section Follow
variable {device : Device} {t u : Trace} {s s' : Session} {reg : Reg} {lo hi rounds : Nat} {r : Int}

theorem follows_snoc {a : Access} (follows : Follows t s) (allowed : observe s a = some s') :
    Follows (t ++ [a]) s' := by
  rw [Follows] at follows ⊢
  rw [List.foldlM_append, follows]
  simp [allowed]

theorem follows_write (reg : Reg) {v w : Nat} (follows : Follows t s) (word : v % 2 ^ reg.width = w)
    (allowed : observe s (.write reg w) = some s') : Follows (mmioWrite t reg v) s' :=
  follows_snoc follows (by rwa [word])

theorem follows_read (device : Device) (reg : Reg) (follows : Follows t s)
    (allowed : observe s (.read reg (mmioRead device t reg).1) = some s') :
    Follows (mmioRead device t reg).2 s' :=
  follows_snoc follows allowed

theorem mmio_read_lt (device : Device) (t : Trace) (reg : Reg) : (mmioRead device t reg).1 < 2 ^ reg.width :=
  Nat.mod_lt _ (Nat.two_pow_pos _)

theorem follows_status {v : Nat} (follows : Follows t s) (byte : v < 2 ^ 8) (nonzero : v ≠ 0)
    (next : NextStatus s v) : Follows (mmioWrite t .status v) { s with status := v } :=
  follows_write .status follows (Nat.mod_eq_of_lt byte) (by rw [observe, if_neg nonzero, if_pos next])

theorem reset_follows (follows : Follows t s) : Follows (mmioWrite t .status 0) freshSession :=
  follows_write .status follows (Nat.zero_mod _) (by rw [observe, if_pos rfl])

theorem await_reset_follows (follows : Follows t freshSession) (reset : awaitReset device rounds t = some u) :
    Follows u freshSession := by
  induction rounds generalizing t with
  | zero => cases reset
  | succ rounds ih =>
    have looked : Follows (mmioRead device t .status).2 freshSession := follows_read device .status follows rfl
    rw [awaitReset] at reset
    dsimp only at reset
    split at reset
    · exact ih looked reset
    · cases reset
      exact looked

theorem read_features_follows (device : Device) (page : Nat) (follows : Follows t s) (driver : s.status = 3)
    (word : page < 2 ^ 32) :
    (readFeatures device t page).1 < 2 ^ 32 ∧
      Follows (readFeatures device t page).2
        { s with
          page := some page
          offered := Function.update s.offered page (some (readFeatures device t page).1) } := by
  have selected : Follows (mmioWrite t .dfSelect page) { s with page := some page } :=
    follows_write _ follows (Nat.mod_eq_of_lt word) (if_pos driver)
  exact ⟨mmio_read_lt device _ .df, follows_read device .df selected rfl⟩

theorem write_features_follows {o : Nat} (page wanted : Nat) (follows : Follows t s) (driver : s.status = 3)
    (word : page < 2 ^ 32) (offered : s.offered page = some o) (small : o < 2 ^ 32) :
    Follows (writeFeatures t page (o &&& wanted))
      { s with
        guestPage := some page
        accepted := Function.update s.accepted page (some (o &&& wanted)) } := by
  have selected : Follows (mmioWrite t .gfSelect page) { s with guestPage := some page } :=
    follows_write _ follows (Nat.mod_eq_of_lt word) (if_pos driver)
  refine follows_write _ selected (Nat.mod_eq_of_lt (Nat.lt_of_le_of_lt Nat.and_le_left small)) ?_
  simp [observe, driver, offered, Nat.and_self_left]

structure Negotiated (s : Session) (lo hi : Nat) : Prop where
  status : s.status = 11
  agreed : s.agreed = true
  features : ∃ o, s.offered 0 = some o ∧ s.accepted 0 = some (o &&& lo)
  version : ∃ o, s.offered 1 = some o ∧ s.accepted 1 = some (o &&& (1 ||| hi))

theorem negotiate_follows (device : Device) (lo hi : Nat) (follows : Follows t s) (driver : s.status = 3) :
    ∃ s', Follows (negotiate device t lo hi) s' ∧ s'.status = 3 ∧ s'.live = s.live ∧ s'.agreed = s.agreed ∧
      (∃ o, s'.offered 0 = some o ∧ s'.accepted 0 = some (o &&& lo)) ∧
      ∃ o, s'.offered 1 = some o ∧ s'.accepted 1 = some (o &&& (1 ||| hi)) := by
  obtain ⟨lowWord, low⟩ := read_features_follows device 0 follows driver (by decide)
  obtain ⟨highWord, high⟩ := read_features_follows device 1 low driver (by decide)
  have lowDone := write_features_follows 0 lo high driver (by decide) rfl lowWord
  have highDone := write_features_follows 1 (1 ||| hi) lowDone driver (by decide) rfl highWord
  exact ⟨_, highDone, driver, rfl, rfl, ⟨_, rfl, rfl⟩, _, rfl, rfl⟩

/-- The first answer to FEATURES_OK decides. -/
theorem init_device_follows (follows : Follows t s)
    (done : virtioPciInitDevice device rounds t lo hi = some (r, u)) :
    ∃ s', Follows u s' ∧ s'.live = [] ∧ (r = 0 ∧ Negotiated s' lo hi ∨ r = -1 ∧ s'.status = statusFailed) := by
  obtain ⟨t0, reset, rest⟩ := Option.map_eq_some_iff.mp done
  have begun := await_reset_follows (reset_follows follows) reset
  have acknowledged := follows_status begun (v := statusAcknowledge) (by decide) (by decide) (by decide)
  have driver := follows_status acknowledged (v := statusAcknowledge ||| statusDriver) (by decide) (by decide)
    (by decide)
  obtain ⟨s1, negotiated, status, live, -, features, version⟩ := negotiate_follows device lo hi driver rfl
  have accepted : (s1.accepted 0).isSome ∧ (s1.accepted 1).isSome := by
    obtain ⟨o, -, low⟩ := features
    obtain ⟨p, -, high⟩ := version
    simp [low, high]
  have next : NextStatus s1 (statusAcknowledge ||| statusDriver ||| statusFeaturesOk) :=
    .inr (.inr (.inr (.inl ⟨status, rfl, accepted⟩)))
  have asked := follows_status negotiated (by decide) (by decide) next
  have looked := follows_read device .status asked rfl
  dsimp only at rest
  split at rest
  next rejected =>
    cases rest
    exact ⟨_, follows_status looked (by decide) (by decide) (.inl rfl), live, .inr ⟨rfl, rfl⟩⟩
  next kept =>
    cases rest
    refine ⟨_, looked, live, .inl ⟨rfl, rfl, ?_, features, version⟩⟩
    exact (Bool.or_eq_true _ _).mpr (.inr (decide_eq_true ⟨rfl, kept⟩))

/- The queues. -/

structure Told (vq : DriverQueue) (l : QueueLayout) : Prop where
  index : l.index = vq.queueIndex
  rings : vq.rings = Virtqueues.virtqueueInit 0 l.size
  num : vq.rings.num = l.size
  desc : l.desc = virtToPhys vq.desc
  avail : l.avail = virtToPhys vq.avail
  used : l.used = virtToPhys vq.used

structure InSlot (memory : RingMemory) (n : Nat) (l : QueueLayout) : Prop where
  slot : n < virtqMaxQueues
  positive : 0 < l.size
  size : l.size ≤ virtqMaxSize
  desc : l.desc = virtToPhys (memory.descs + n * descBytes)
  avail : l.avail = virtToPhys (memory.availBufs + n * availBytes)
  used : l.used = virtToPhys (memory.usedBufs + n * usedBytes)

def wordsOf (words : Reg → Option Nat) (desc avail used : Nat) : Reg → Option Nat
  | .qDescLo => some (desc % 2 ^ 32)
  | .qDescHi => some (desc / 2 ^ 32)
  | .qAvailLo => some (avail % 2 ^ 32)
  | .qAvailHi => some (avail / 2 ^ 32)
  | .qUsedLo => some (used % 2 ^ 32)
  | .qUsedHi => some (used / 2 ^ 32)
  | reg => words reg

theorem follows_word {v : Nat} (reg : Reg) (follows : Follows t s) (isAddr : isAddress reg = true)
    (sized : s.size.isSome) (word : v < 2 ^ 32) :
    Follows (mmioWrite t reg v) { s with words := Function.update s.words reg (some v) } := by
  cases reg <;> first
    | exact absurd isAddr (by decide)
    | exact follows_write _ follows (Nat.mod_eq_of_lt word) (if_pos ⟨isAddr, sized⟩)

theorem write_addresses_follows {desc avail used : Nat} (follows : Follows t s) (sized : s.size.isSome)
    (descWord : desc < 2 ^ 64) (availWord : avail < 2 ^ 64) (usedWord : used < 2 ^ 64) :
    Follows (writeAddresses t desc avail used) { s with words := wordsOf s.words desc avail used } := by
  have lowWord : ∀ a, a % 2 ^ 32 < 2 ^ 32 := fun a => Nat.mod_lt a (by decide)
  have highWord : ∀ a, a < 2 ^ 64 → a / 2 ^ 32 < 2 ^ 32 := fun a small => by omega
  have descLo := follows_word .qDescLo follows rfl sized (lowWord desc)
  have descHi := follows_word .qDescHi descLo rfl sized (highWord desc descWord)
  have availLo := follows_word .qAvailLo descHi rfl sized (lowWord avail)
  have availHi := follows_word .qAvailHi availLo rfl sized (highWord avail availWord)
  have usedLo := follows_word .qUsedLo availHi rfl sized (lowWord used)
  have usedHi := follows_word .qUsedHi usedLo rfl sized (highWord used usedWord)
  have same : Function.update (Function.update (Function.update (Function.update (Function.update
      (Function.update s.words .qDescLo (some (desc % 2 ^ 32))) .qDescHi (some (desc / 2 ^ 32)))
      .qAvailLo (some (avail % 2 ^ 32))) .qAvailHi (some (avail / 2 ^ 32)))
      .qUsedLo (some (used % 2 ^ 32))) .qUsedHi (some (used / 2 ^ 32)) = wordsOf s.words desc avail used := by
    funext reg
    cases reg <;> rfl
  rw [← same]
  exact usedHi

theorem layout_of_words {index size desc avail used : Nat} {words : Reg → Option Nat} (queue : s.queue = some index)
    (sized : s.size = some size) (told : s.words = wordsOf words desc avail used) :
    layoutOf s = some ⟨index, size, desc, avail, used⟩ := by
  simp [layoutOf, address, queue, sized, told, wordsOf, Nat.mod_add_div]

theorem virt_to_phys_lt (va : Nat) : virtToPhys va < 2 ^ 64 := Nat.mod_lt _ (by decide)

theorem tell_queue_follows {index size : Nat} (vq : DriverQueue) (follows : Follows t s) (queue : s.queue = some index)
    (sized : s.size = some size) :
    Follows (mmioWrite (writeAddresses t (virtToPhys vq.desc) (virtToPhys vq.avail) (virtToPhys vq.used)) .qEnable 1)
      { s with
        words := wordsOf s.words (virtToPhys vq.desc) (virtToPhys vq.avail) (virtToPhys vq.used)
        queue := none
        live := s.live ++ [⟨index, size, virtToPhys vq.desc, virtToPhys vq.avail, virtToPhys vq.used⟩] } := by
  have told := write_addresses_follows follows (by simp [sized]) (virt_to_phys_lt vq.desc)
    (virt_to_phys_lt vq.avail) (virt_to_phys_lt vq.used)
  have layout := layout_of_words (s := { s with
    words := wordsOf s.words (virtToPhys vq.desc) (virtToPhys vq.avail) (virtToPhys vq.used) }) queue sized rfl
  exact follows_write _ (w := 1) told rfl (by simp [observe, layout])

theorem virtqueue_init_room {memory : RingMemory} {next num index notify : Nat} {vq : DriverQueue}
    (room : next < virtqMaxQueues) (positive : 0 < num) (size : num ≤ virtqMaxSize) :
    ∃ vq', virtqueueInit memory next vq num index notify = (next + 1, vq') ∧
      Told vq' ⟨index, num, virtToPhys vq'.desc, virtToPhys vq'.avail, virtToPhys vq'.used⟩ ∧
      InSlot memory next ⟨index, num, virtToPhys vq'.desc, virtToPhys vq'.avail, virtToPhys vq'.used⟩ := by
  refine ⟨_, if_neg (Nat.not_le.mpr room), ?_, ?_⟩
  · exact ⟨rfl, rfl, if_neg (Nat.not_lt.mpr size), rfl, rfl, rfl⟩
  · exact ⟨room, positive, size, rfl, rfl, rfl⟩

structure SetUp (memory : RingMemory) (index next next' : Nat) (vq' : DriverQueue) (s s' : Session) : Prop where
  status : s'.status = s.status
  agreed : s'.agreed = s.agreed
  offered : s'.offered = s.offered
  accepted : s'.accepted = s.accepted
  counted : next' = if next < virtqMaxQueues then next + 1 else next
  grown : ∃ l, l.index = index ∧ s'.live = s.live ++ [l] ∧
    (next < virtqMaxQueues → Told vq' l ∧ InSlot memory next l)

theorem chosen_size {maxSize desired : Nat} (offered : maxSize ≠ 0) (positive : 0 < desired)
    (most : desired ≤ virtqMaxSize) :
    0 < (if maxSize < desired then maxSize else desired) ∧
      (if maxSize < desired then maxSize else desired) ≤ maxSize ∧
      (if maxSize < desired then maxSize else desired) ≤ virtqMaxSize := by
  split <;> omega

theorem setup_queue_follows {memory : RingMemory} {base mul next next' index desired : Nat} {vq vq' : DriverQueue}
    (follows : Follows t s) (status : s.status = 11) (agreed : s.agreed = true)
    (fresh : ∀ l ∈ s.live, l.index ≠ index) (word : index < 2 ^ 16) (positive : 0 < desired)
    (most : desired ≤ virtqMaxSize)
    (done : virtioPciSetupQueue device memory base mul t next vq index desired = (r, u, next', vq')) :
    ∃ s', Follows u s' ∧
      (r = -1 ∧ next' = next ∧ vq' = vq ∧ s'.status = s.status ∧ s'.live = s.live ∨
        r = 0 ∧ SetUp memory index next next' vq' s s') := by
  have chosen : Follows (mmioWrite t .qSelect index)
      { s with queue := some index, limit := none, size := none, words := fun _ => none } :=
    follows_write _ follows (Nat.mod_eq_of_lt word) (if_pos ⟨status, agreed, fresh⟩)
  have asked := follows_read device .qSize chosen rfl
  unfold virtioPciSetupQueue at done
  dsimp only at done
  split at done
  next missing =>
    cases done
    exact ⟨_, asked, .inl ⟨rfl, rfl, rfl, rfl, rfl⟩⟩
  next offered =>
    have size := chosen_size offered positive most
    generalize (if (mmioRead device (mmioWrite t .qSelect index) .qSize).1 < desired then
      (mmioRead device (mmioWrite t .qSelect index) .qSize).1 else desired) = qsize at done size
    have sized := follows_write .qSize asked (v := qsize)
      (Nat.mod_eq_of_lt (Nat.lt_of_le_of_lt size.2.2 (by decide))) (if_pos ⟨size.1, decide_eq_true size.2.1⟩)
    have noted := follows_read device .qNotifyOff sized rfl
    generalize taken : virtqueueInit memory next vq qsize index _ = queue at done
    obtain ⟨after, q⟩ := queue
    cases done
    refine ⟨_, tell_queue_follows q noted rfl rfl, .inr ⟨rfl, rfl, rfl, rfl, rfl, ?_, _, rfl, rfl, ?_⟩⟩
    · unfold virtqueueInit at taken
      split at taken
      next full =>
        cases taken
        rw [if_neg (Nat.not_lt.mpr full)]
      next room =>
        cases taken
        rw [if_pos (Nat.not_le.mp room)]
    · intro room
      obtain ⟨v, given, told, slot⟩ := virtqueue_init_room room size.1 size.2.2
      rw [given] at taken
      cases taken
      exact ⟨told, slot⟩

theorem driver_ok_follows (follows : Follows t s) (status : s.status = 11) (agreed : s.agreed = true)
    (live : s.live ≠ []) : Follows (virtioPciSetDriverOk t) { s with status := 15 } :=
  follows_status follows (by decide) (by decide) (.inr (.inr (.inr (.inr ⟨status, rfl, agreed, live⟩))))

end Follow

/- The ring memory. -/

def QueueLayout.ranges (l : QueueLayout) : List Range :=
  [⟨l.desc, 16 * l.size⟩, ⟨l.avail, 6 + 2 * l.size⟩, ⟨l.used, 6 + 8 * l.size⟩]

section Slots
variable {memory : RingMemory} {n k : Nat} {l m : QueueLayout}

theorem row_phys {base row : Nat} (high : kernVaOffset ≤ base) (fits : base + 16 * row < 2 ^ 64) (slot : n < 16) :
    virtToPhys (base + n * row) + kernVaOffset = base + n * row := by
  have within : n * row ≤ 16 * row := Nat.mul_le_mul_right row (Nat.le_of_lt slot)
  rw [virtToPhys, sub64_eq (by omega) (by omega)]
  omega

structure Placed (memory : RingMemory) (n : Nat) (l : QueueLayout) : Prop where
  slot : n < 16
  size : l.size ≤ 256
  desc : l.desc + kernVaOffset = memory.descs + n * 4096
  avail : l.avail + kernVaOffset = memory.availBufs + n * 518
  used : l.used + kernVaOffset = memory.usedBufs + n * 2054

theorem slot_placed (inSlot : InSlot memory n l) : Placed memory n l where
  slot := inSlot.slot
  size := inSlot.size
  desc := inSlot.desc ▸ row_phys memory.high.1 memory.fits.1 inSlot.slot
  avail := inSlot.avail ▸ row_phys memory.high.2.1 memory.fits.2.1 inSlot.slot
  used := inSlot.used ▸ row_phys memory.high.2.2 memory.fits.2.2 inSlot.slot

theorem arrays_apart (memory : RingMemory) :
    (memory.descs + 65536 ≤ memory.availBufs ∨ memory.availBufs + 8288 ≤ memory.descs) ∧
      (memory.descs + 65536 ≤ memory.usedBufs ∨ memory.usedBufs + 32864 ≤ memory.descs) ∧
      (memory.availBufs + 8288 ≤ memory.usedBufs ∨ memory.usedBufs + 32864 ≤ memory.availBufs) := by
  have apart := memory.apart
  simp only [List.pairwise_cons, List.mem_cons, List.not_mem_nil, or_false, forall_eq_or_imp, forall_eq, Range.Apart] at apart
  exact ⟨apart.1.1, apart.1.2, apart.2.1⟩

theorem queue_apart (inSlot : InSlot memory n l) : l.ranges.Pairwise Range.Apart := by
  obtain ⟨slot, size, desc, avail, used⟩ := slot_placed inSlot
  have arrays := arrays_apart memory
  simp only [QueueLayout.ranges, List.pairwise_cons, List.mem_cons, List.not_mem_nil, or_false, forall_eq_or_imp,
    forall_eq, Range.Apart, List.Pairwise.nil, and_true, false_imp_iff, implies_true]
  omega

theorem slots_apart (first : InSlot memory n l) (second : InSlot memory k m) (other : n ≠ k) :
    ∀ e ∈ l.ranges, ∀ f ∈ m.ranges, e.Apart f := by
  obtain ⟨slot, size, desc, avail, used⟩ := slot_placed first
  obtain ⟨slot', size', desc', avail', used'⟩ := slot_placed second
  have arrays := arrays_apart memory
  intro e he f hf
  simp only [QueueLayout.ranges, List.mem_cons, List.not_mem_nil, or_false] at he hf
  rcases he with rfl | rfl | rfl <;> rcases hf with rfl | rfl | rfl <;> simp only [Range.Apart] <;> omega

end Slots
end Archarch.Transport
