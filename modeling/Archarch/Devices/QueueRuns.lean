import Archarch.Devices.Virtqueue
import Archarch.Foundations.Runs

/- The driver of a virtqueue between a caller that adds chains of any length and a device
   that gives them back in any order. No descriptor is lost and no chain is damaged. -/
namespace Archarch.Virtqueues
open LabelledRuns LinkedChain
variable {Ptr : Type}

/-- A chain the driver has added and not got back: the descriptors it was put into, and
    the buffers of the call. -/
structure Posted (Ptr : Type) where
  descs : List Nat
  bufs : List (Buf Ptr)

structure QueueState (Ptr : Type) where
  queue : Virtqueue Ptr
  inFlight : List (Posted Ptr)

def heads (posted : List (Posted Ptr)) : List (Option Nat) := posted.map fun c => c.descs.head?

def freeWalk (q : Virtqueue Ptr) (idx : Nat) : Nat → List Nat
  | 0 => []
  | n + 1 => idx :: freeWalk q (nextOf q idx) n

/-- What the used ring holds between last_used_idx and used->idx. -/
def usedHeads (q : Virtqueue Ptr) : List Nat :=
  (List.range (q.usedIdx - q.lastUsedIdx).toNat).map fun i =>
    (q.usedRing ((q.lastUsedIdx + BitVec.ofNat 16 i).toNat % q.num)).id

/-- publish is the device, which leaves any used ring and any used->idx behind. -/
inductive QueueEvent (Ptr : Type) where
  | add (bufs : List (Buf Ptr))
  | getUsed
  | publish (ring : Nat → UsedElem) (idx : BitVec 16)

def setUsed (q : Virtqueue Ptr) (ring : Nat → UsedElem) (idx : BitVec 16) : Virtqueue Ptr :=
  { q with usedRing := ring, usedIdx := idx }

def queueStep (s : QueueState Ptr) : QueueEvent Ptr → Option (QueueState Ptr)
  | .add bufs =>
    match virtqueueAddChain s.queue bufs with
    | none => some s
    | some (head, queue) => some ⟨queue, ⟨freeWalk s.queue head bufs.length, bufs⟩ :: s.inFlight⟩
  | .getUsed =>
    match virtqueueGetUsed s.queue with
    | none => none
    | some (none, queue) => some ⟨queue, s.inFlight⟩
    | some (some (head, _), queue) =>
      some ⟨queue, s.inFlight.filter fun c => c.descs.head? ≠ some head⟩
  | .publish ring idx => some ⟨setUsed s.queue ring idx, s.inFlight⟩

def NoNext (bufs : List (Buf Ptr)) : Prop := ∀ b ∈ bufs, b.flags &&& vringDescFNext = 0

/-- The callers give at least one buffer and no NEXT flag; the used ring holds heads of
    chains in flight, each once. -/
def Honest (s : QueueState Ptr) : QueueEvent Ptr → Prop
  | .add bufs => bufs ≠ [] ∧ NoNext bufs
  | .getUsed => True
  | .publish ring idx => (usedHeads (setUsed s.queue ring idx)).Nodup ∧
      ∀ h ∈ usedHeads (setUsed s.queue ring idx), some h ∈ heads s.inFlight

def Initialised (s : QueueState Ptr) : Prop :=
  ∃ null size, 0 < size ∧ s = ⟨virtqueueInit null size, []⟩

structure Conserved (s : QueueState Ptr) (free : List Nat) : Prop where
  list : FreeList s.queue free
  partition : (free ++ s.inFlight.flatMap Posted.descs).Perm (List.range s.queue.num)
  small : s.queue.num ≤ virtqMaxSize
  describes : ∀ c ∈ s.inFlight, Describes s.queue c.descs c.bufs
  plain : ∀ c ∈ s.inFlight, NoNext c.bufs
  usedNodup : (usedHeads s.queue).Nodup
  used : ∀ h ∈ usedHeads s.queue, some h ∈ heads s.inFlight

section Chains
variable {s t : QueueState Ptr} {q r : Virtqueue Ptr} {free : List Nat} {c d : Posted Ptr}
  {bufs : List (Buf Ptr)}

theorem free_walk_eq {idx stop n : Nat} {l : List Nat} (linked : Segment (nextOf q) idx l stop)
    (enough : n ≤ l.length) : freeWalk q idx n = l.take n := by
  induction n generalizing idx l with
  | zero => simp [freeWalk]
  | succ n ih =>
    cases l with
    | nil => simp at enough
    | cons i is =>
      obtain ⟨rfl, rest⟩ := linked
      simp only [freeWalk, List.take_succ_cons, ih rest (by simpa using enough)]

theorem used_heads_congr (num : r.num = q.num) (ring : r.usedRing = q.usedRing)
    (idx : r.usedIdx = q.usedIdx) (last : r.lastUsedIdx = q.lastUsedIdx) : usedHeads r = usedHeads q := by
  simp only [usedHeads, num, ring, idx, last]

theorem used_heads_nil : usedHeads q = [] ↔ q.lastUsedIdx = q.usedIdx := by
  simp only [usedHeads, List.map_eq_nil_iff, List.range_eq_nil]
  constructor
  · intro zero
    bv_omega
  · intro same
    simp [same]

theorem used_heads_cons (pending : q.lastUsedIdx ≠ q.usedIdx) (num : r.num = q.num)
    (ring : r.usedRing = q.usedRing) (idx : r.usedIdx = q.usedIdx)
    (last : r.lastUsedIdx = q.lastUsedIdx + 1) :
    usedHeads q = (q.usedRing (q.lastUsedIdx.toNat % q.num)).id :: usedHeads r := by
  have count : (q.usedIdx - q.lastUsedIdx).toNat = (r.usedIdx - r.lastUsedIdx).toNat + 1 := by
    rw [idx, last]
    bv_omega
  simp only [usedHeads, count, List.range_succ_eq_map, List.map_cons, List.map_map, num, ring, last]
  congr 1
  · simp
  · apply List.map_congr_left
    intro i member
    have next : q.lastUsedIdx + BitVec.ofNat 16 (i + 1) = q.lastUsedIdx + 1 + BitVec.ofNat 16 i := by
      rw [BitVec.add_assoc, Nat.add_comm, BitVec.ofNat_add]
      rfl
    simp only [Function.comp_apply, Nat.succ_eq_add_one, next]

theorem partition_nodup (inv : Conserved s free) :
    (free ++ s.inFlight.flatMap Posted.descs).Nodup :=
  inv.partition.nodup_iff.mpr List.nodup_range

theorem partition_lt (inv : Conserved s free) {i : Nat}
    (member : i ∈ free ++ s.inFlight.flatMap Posted.descs) : i < s.queue.num :=
  List.mem_range.mp (inv.partition.mem_iff.mp member)

theorem in_flight_member (inv : Conserved s free) (member : c ∈ s.inFlight) {i : Nat}
    (inside : i ∈ c.descs) : i < descNone ∧ i ∉ free := by
  have all : i ∈ s.inFlight.flatMap Posted.descs := List.mem_flatMap.mpr ⟨c, member, inside⟩
  have bound := partition_lt inv (List.mem_append_right free all)
  have small := inv.small
  rw [virtqMaxSize] at small
  rw [descNone]
  refine ⟨by omega, ?_⟩
  intro inFree
  exact (List.nodup_append.mp (partition_nodup inv)).2.2 i inFree i all rfl

theorem chain_nodup (inv : Conserved s free) (member : c ∈ s.inFlight) : c.descs.Nodup := by
  have chains := (List.nodup_append.mp (partition_nodup inv)).2.1
  exact (List.nodup_flatMap.mp chains).1 c member

theorem chain_length_le (inv : Conserved s free) (member : c ∈ s.inFlight) :
    c.descs.length ≤ s.queue.num := by
  have within : c.descs ⊆ List.range s.queue.num := by
    intro i inside
    have all : i ∈ s.inFlight.flatMap Posted.descs := List.mem_flatMap.mpr ⟨c, member, inside⟩
    exact List.mem_range.mpr (partition_lt inv (List.mem_append_right free all))
  simpa using (chain_nodup inv member).length_le_of_subset within

theorem take_out {h : Nat} (inv : Conserved s free) (member : c ∈ s.inFlight)
    (first : c.descs.head? = some h) : ∃ pre post, s.inFlight = pre ++ c :: post ∧
      (s.inFlight.filter fun d => d.descs.head? ≠ some h) = pre ++ post ∧
      ∀ d ∈ pre ++ post, d ∈ s.inFlight ∧ ∀ i ∈ d.descs, i ∉ c.descs := by
  obtain ⟨pre, post, split⟩ := List.append_of_mem member
  have chains := (List.nodup_append.mp (partition_nodup inv)).2.1
  rw [split, List.flatMap_append, List.flatMap_cons, List.nodup_append, List.nodup_append] at chains
  have apart : ∀ d ∈ pre ++ post, ∀ i ∈ d.descs, i ∉ c.descs := by
    intro d member i inD inC
    rcases List.mem_append.mp member with inPre | inPost
    · apply chains.2.2 i (List.mem_flatMap.mpr ⟨d, inPre, inD⟩) i
      · simp [inC]
      · rfl
    · exact chains.2.1.2.2 i inC i (List.mem_flatMap.mpr ⟨d, inPost, inD⟩) rfl
  have others : ∀ d ∈ pre ++ post, d.descs.head? ≠ some h := by
    intro d member same
    exact apart d member h (List.mem_of_mem_head? same) (List.mem_of_mem_head? first)
  refine ⟨pre, post, split, ?_, ?_⟩
  · have kept := List.filter_eq_self.mpr (by simpa using others : ∀ d ∈ pre ++ post,
      decide (d.descs.head? ≠ some h) = true)
    rw [List.filter_append] at kept
    rw [split, List.filter_append, List.filter_cons, if_neg (by simp [first]), kept]
  · intro d member
    refine ⟨?_, apart d member⟩
    rw [split]
    rcases List.mem_append.mp member with inPre | inPost
    · exact List.mem_append_left _ inPre
    · exact List.mem_append_right _ (List.mem_cons_of_mem _ inPost)

theorem add_inv {head : Nat} {queue : Virtqueue Ptr} (inv : Conserved s free) (nonempty : bufs ≠ [])
    (plain : NoNext bufs) (added : virtqueueAddChain s.queue bufs = some (head, queue)) :
    bufs.length ≤ free.length ∧
      Conserved ⟨queue, ⟨free.take bufs.length, bufs⟩ :: s.inFlight⟩ (free.drop bufs.length) := by
  rcases virtqueue_add_chain_spec inv.list nonempty with ⟨full, _⟩ | ⟨chain, rest, r, done, split, after⟩
  · rw [full] at added
    cases added
  · rw [done] at added
    cases added
    have chainEq : free.take bufs.length = chain := by
      rw [split, ← after.length, List.take_left]
    have restEq : free.drop bufs.length = rest := by
      rw [split, ← after.length, List.drop_left]
    have usedEq : usedHeads queue = usedHeads s.queue :=
      used_heads_congr after.num after.used.1 after.used.2.1 after.used.2.2
    rw [chainEq, restEq]
    refine ⟨?_, after.free, ?_, ?_, ?_, ?_, ?_, ?_⟩
    · rw [split, List.length_append, after.length]
      exact Nat.le_add_right _ _
    · have old := inv.partition
      rw [split, List.append_assoc] at old
      rw [after.num, List.flatMap_cons]
      apply List.Perm.trans _ old
      exact List.perm_append_comm_assoc rest chain _
    · rw [after.num]
      exact inv.small
    · intro d member
      rcases List.mem_cons.mp member with rfl | member
      · exact after.describes
      · apply describes_congr _ (inv.describes d member)
        intro i inside
        apply after.same
        intro inChain
        exact (in_flight_member inv member inside).2 (by rw [split]; exact List.mem_append_left _ inChain)
    · intro d member
      rcases List.mem_cons.mp member with rfl | member
      · exact plain
      · exact inv.plain d member
    · rw [usedEq]
      exact inv.usedNodup
    · intro h member
      rw [usedEq] at member
      exact List.mem_cons_of_mem _ (inv.used h member)

theorem get_used_inv (inv : Conserved s free) (pending : s.queue.lastUsedIdx ≠ s.queue.usedIdx) :
    ∃ c pre post head len queue, s.inFlight = pre ++ c :: post ∧ c.descs.head? = some head ∧
      (s.queue.usedRing (s.queue.lastUsedIdx.toNat % s.queue.num)).id = head ∧
      (s.queue.usedRing (s.queue.lastUsedIdx.toNat % s.queue.num)).len = len ∧
      virtqueueGetUsed s.queue = some (some (head, len), queue) ∧
      queue.lastUsedIdx = s.queue.lastUsedIdx + 1 ∧ queue.usedIdx = s.queue.usedIdx ∧
      queue.usedRing = s.queue.usedRing ∧ queue.num = s.queue.num ∧
      queue.availRing = s.queue.availRing ∧ queue.availIdx = s.queue.availIdx ∧
      queueStep s .getUsed = some ⟨queue, pre ++ post⟩ ∧
      Conserved ⟨queue, pre ++ post⟩ (c.descs.reverse ++ free) := by
  have waits := used_heads_cons pending (r := { s.queue with lastUsedIdx := s.queue.lastUsedIdx + 1 })
    rfl rfl rfl rfl
  have inHeads := inv.used _ (by rw [waits]; exact List.mem_cons_self)
  obtain ⟨c, member, first⟩ := List.mem_map.mp inHeads
  obtain ⟨pre, post, split, out, rest⟩ := take_out inv member first
  have short := Nat.le_trans (chain_length_le inv member) inv.small
  rw [virtqMaxSize] at short
  obtain ⟨queue, len, got, list, num, availRing, availIdx, usedRing, usedIdx, lastUsedIdx, same, lenEq⟩ :=
    virtqueue_get_used_spec pending rfl (inv.describes c member) (inv.plain c member) first inv.list
      (chain_nodup inv member) (fun i inside => (in_flight_member inv member inside).1)
      (fun i inside => (in_flight_member inv member inside).2) (by omega)
  have later : usedHeads queue =
      usedHeads { s.queue with lastUsedIdx := s.queue.lastUsedIdx + 1 } :=
    used_heads_congr num usedRing usedIdx lastUsedIdx
  have nodup := inv.usedNodup
  rw [waits, ← later, List.nodup_cons] at nodup
  refine ⟨c, pre, post, _, len, queue, split, first, rfl, lenEq.symm, got, lastUsedIdx, usedIdx, usedRing,
    num, availRing, availIdx, ?_, list, ?_, ?_, ?_, ?_, nodup.2, ?_⟩
  · simp only [queueStep, got]
    rw [out]
  · have old := inv.partition
    rw [split, List.flatMap_append, List.flatMap_cons] at old
    rw [num, List.flatMap_append]
    apply List.Perm.trans _ old
    have swap : (c.descs.reverse ++ free).Perm (free ++ c.descs) :=
      List.perm_append_comm.trans (List.Perm.append_left free (List.reverse_perm _))
    apply (swap.append_right _).trans
    rw [List.append_assoc]
    exact List.Perm.append_left free (List.perm_append_comm_assoc _ _ _)
  · rw [num]
    exact inv.small
  · intro d inRest
    obtain ⟨inAll, apart⟩ := rest d inRest
    apply describes_congr _ (inv.describes d inAll)
    intro i inside
    exact same i (apart i inside)
  · intro d inRest
    exact inv.plain d (rest d inRest).1
  · intro h waitsStill
    have inAll := inv.used h (by rw [waits, ← later]; exact List.mem_cons_of_mem _ waitsStill)
    obtain ⟨d, memberD, firstD⟩ := List.mem_map.mp inAll
    rw [split] at memberD
    apply List.mem_map.mpr ⟨d, _, firstD⟩
    rcases List.mem_append.mp memberD with inPre | inPost
    · exact List.mem_append_left _ inPre
    · rcases List.mem_cons.mp inPost with rfl | inPost
      · rw [first] at firstD
        cases firstD
        exact absurd waitsStill nodup.1
      · exact List.mem_append_right _ inPost

theorem queue_step_inv {e : QueueEvent Ptr} (inv : Conserved s free) (honest : Honest s e)
    (step : queueStep s e = some t) : ∃ next, Conserved t next := by
  cases e with
  | add bufs =>
    obtain ⟨nonempty, plain⟩ := honest
    simp only [queueStep] at step
    split at step
    · cases step
      exact ⟨free, inv⟩
    · rename_i head queue added
      cases step
      obtain ⟨enough, after⟩ := add_inv inv nonempty plain added
      have start : head = s.queue.freeHead := by
        unfold virtqueueAddChain at added
        split at added
        · cases added
          rfl
        · cases added
      rw [start, free_walk_eq inv.list.linked enough]
      exact ⟨_, after⟩
  | getUsed =>
    by_cases empty : s.queue.lastUsedIdx = s.queue.usedIdx
    · rw [queueStep, virtqueueGetUsed, if_pos empty] at step
      cases step
      exact ⟨free, inv⟩
    · obtain ⟨c, pre, post, head, len, queue, -, -, -, -, -, -, -, -, -, -, -, done, after⟩ :=
        get_used_inv inv empty
      rw [done] at step
      cases step
      exact ⟨_, after⟩
  | publish ring idx =>
    cases step
    exact ⟨free, ⟨⟨inv.list.linked, inv.list.inside⟩, inv.partition, inv.small,
      fun c member => describes_congr (q := s.queue) (fun _ _ => rfl) (inv.describes c member), inv.plain,
      honest.1, honest.2⟩⟩

end Chains

theorem init_conserved {s : QueueState Ptr} (start : Initialised s) :
    Conserved s (List.range s.queue.num) := by
  obtain ⟨null, size, positive, rfl⟩ := start
  have none : usedHeads (virtqueueInit null size) = [] := used_heads_nil.mpr rfl
  refine ⟨init_free_list positive, ?_, ?_, ?_, ?_, ?_, ?_⟩
  · simp
  · simp only [virtqueueInit]
    split
    · exact Nat.le_refl _
    · omega
  · simp
  · simp
  · simp [none]
  · simp [none]

theorem queue_run_conserved {s : QueueState Ptr}
    (run : Reaches Initialised (Guarded Honest (Taken queueStep)) s) : ∃ free, Conserved s free := by
  apply reaches_invariant (fun s => ∃ free, Conserved s free) _ _ run
  · intro s start
    exact ⟨_, init_conserved start⟩
  · intro s e t inv taken
    obtain ⟨free, inv⟩ := inv
    exact queue_step_inv inv taken.1 taken.2

/-- What holds of the descriptors in a state, and of each operation that is done next. -/
structure DescriptorsConserved (s : QueueState Ptr) (free : List Nat) : Prop where
  acyclic : Segment (nextOf s.queue) s.queue.freeHead free descNone ∧ free.Nodup
  partition : (free ++ s.inFlight.flatMap Posted.descs).Perm (List.range s.queue.num)
  chains : ∀ c ∈ s.inFlight, ∃ head, c.descs.head? = some head ∧ Describes s.queue c.descs c.bufs ∧
    ∀ fuel, c.descs.length ≤ fuel → chainAt s.queue head fuel = c.descs.map s.queue.desc ∧
      (chainAt s.queue head fuel).map bufOf = c.bufs
  add : ∀ bufs, bufs ≠ [] → NoNext bufs →
    (virtqueueAddChain s.queue bufs = none ↔ free.length < bufs.length) ∧
    (free.length < bufs.length → queueStep s (.add bufs) = some s) ∧
    (bufs.length ≤ free.length → ∃ queue, virtqueueAddChain s.queue bufs = some (s.queue.freeHead, queue) ∧
      queueStep s (.add bufs) = some ⟨queue, ⟨free.take bufs.length, bufs⟩ :: s.inFlight⟩ ∧
      Segment (nextOf queue) queue.freeHead (free.drop bufs.length) descNone)
  idle : s.queue.lastUsedIdx = s.queue.usedIdx → queueStep s .getUsed = some s
  getUsed : s.queue.lastUsedIdx ≠ s.queue.usedIdx → ∃ c pre post head len queue,
    s.inFlight = pre ++ c :: post ∧ c.descs.head? = some head ∧
    virtqueueGetUsed s.queue = some (some (head, len), queue) ∧
    queueStep s .getUsed = some ⟨queue, pre ++ post⟩ ∧
    Segment (nextOf queue) queue.freeHead (c.descs.reverse ++ free) descNone

theorem chain_seen {s : QueueState Ptr} {free : List Nat} {c : Posted Ptr} (inv : Conserved s free)
    (member : c ∈ s.inFlight) : ∃ head, c.descs.head? = some head ∧
      ∀ fuel, c.descs.length ≤ fuel → chainAt s.queue head fuel = c.descs.map s.queue.desc ∧
        (chainAt s.queue head fuel).map bufOf = c.bufs := by
  have describes := inv.describes c member
  cases descs : c.descs with
  | nil =>
    rw [descs] at describes
    exact describes.elim
  | cons head rest =>
    rw [descs] at describes
    refine ⟨head, rfl, ?_⟩
    intro fuel enough
    have walk := chain_at_spec describes (inv.plain c member) rfl enough
    refine ⟨walk, ?_⟩
    rw [walk, List.map_map]
    exact describes_bufs describes (inv.plain c member)

theorem descriptors_conserved {s : QueueState Ptr}
    (run : Reaches Initialised (Guarded Honest (Taken queueStep)) s) :
    ∃ free, DescriptorsConserved s free := by
  obtain ⟨free, inv⟩ := queue_run_conserved run
  refine ⟨free, ⟨inv.list.linked, free_list_nodup inv.list⟩, inv.partition, ?_, ?_, ?_, ?_⟩
  · intro c member
    obtain ⟨head, first, seen⟩ := chain_seen inv member
    exact ⟨head, first, inv.describes c member, seen⟩
  · intro bufs nonempty plain
    rcases virtqueue_add_chain_spec inv.list nonempty with ⟨full, few⟩ | ⟨chain, rest, r, done, split, after⟩
    · refine ⟨⟨fun _ => few, fun _ => full⟩, ?_, ?_⟩
      · intro _
        simp only [queueStep, full]
      · intro enough
        omega
    · obtain ⟨enough, kept⟩ := add_inv inv nonempty plain done
      refine ⟨?_, ?_, ?_⟩
      · rw [done]
        constructor
        · intro none
          cases none
        · intro few
          omega
      · intro few
        omega
      · intro _
        refine ⟨r, done, ?_, kept.list.linked⟩
        simp only [queueStep, done, free_walk_eq inv.list.linked enough]
  · intro empty
    simp only [queueStep, virtqueueGetUsed, if_pos empty]
  · intro pending
    obtain ⟨c, pre, post, head, len, queue, split, first, -, -, got, -, -, -, -, -, -, done, after⟩ :=
      get_used_inv inv pending
    exact ⟨c, pre, post, head, len, queue, split, first, got, done, after.list.linked⟩

instance honestDecidable (s : QueueState Ptr) (e : QueueEvent Ptr) : Decidable (Honest s e) := by
  cases e <;> simp only [Honest, NoNext] <;> infer_instance

/-- Two chains are added; the device gives the second one back first. -/
theorem conserved_out_of_order : ∃ (s : QueueState Nat) (free : List Nat),
    Reaches Initialised (Guarded Honest (Taken queueStep)) s ∧ s.queue.freeHead = 2 ∧
      s.inFlight.length = 1 ∧ DescriptorsConserved s free := by
  have look : (runActions (allowed Honest queueStep) (⟨virtqueueInit 0 4, []⟩ : QueueState Nat)
      [.add [⟨100, 16, 0⟩, ⟨200, 512, vringDescFWrite⟩], .add [⟨300, 1, 0⟩],
        .publish (fun _ => ⟨2, 1⟩) 1, .getUsed]).any
        (fun s => decide (s.queue.freeHead = 2 ∧ s.inFlight.length = 1)) = true := by
    decide +kernel
  obtain ⟨s, done, found⟩ := (Option.any_eq_true _ _).mp look
  have start : Initialised (⟨virtqueueInit 0 4, []⟩ : QueueState Nat) := ⟨0, 4, by decide, rfl⟩
  have run := reaches_of_allowed (Reaches.start start) done
  obtain ⟨free, conserved⟩ := descriptors_conserved run
  exact ⟨s, free, run, (of_decide_eq_true found).1, (of_decide_eq_true found).2, conserved⟩

end Archarch.Virtqueues
