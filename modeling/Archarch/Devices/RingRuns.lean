import Archarch.Devices.QueueRuns
import Archarch.Foundations.RingWindow
import Mathlib.Data.List.Perm.Basic

/- The two rings of a virtqueue over any number of requests. Each of the four indices counts
   modulo 2^16 what one side has done; a queue whose size divides 2^16 has one slot for
   each position, and the descriptors bound how far the sides can be apart. -/
namespace Archarch.Virtqueues
open LabelledRuns RingWindow
variable {Ptr : Type}

/-- The queue, and a device that reads the available ring in order, holds what it has read
    and appends what it completes to the used ring. The four lists record what has
    happened: the chains added with their buffers, the chains the device has read with
    their descriptors, the elements it has used, and the results of virtqueue_get_used. -/
structure RingState (Ptr : Type) where
  core : QueueState Ptr
  lastAvail : BitVec 16
  held : List Nat
  added : List (Nat × List (Buf Ptr))
  seen : List (Nat × List (Desc Ptr))
  completed : List (Nat × Nat)
  reported : List (Nat × Nat)

inductive RingEvent (Ptr : Type) where
  | add (bufs : List (Buf Ptr))
  | fetch
  | complete (i : Nat) (len : Nat)
  | getUsed

def ringStep (s : RingState Ptr) : RingEvent Ptr → Option (RingState Ptr)
  | .add bufs =>
    match virtqueueAddChain s.core.queue bufs with
    | none => some s
    | some (head, _) => (queueStep s.core (.add bufs)).map fun core =>
      { s with core := core, added := s.added ++ [(head, bufs)] }
  | .fetch =>
    if s.lastAvail = s.core.queue.availIdx then none
    else
      let head := s.core.queue.availRing (s.lastAvail.toNat % s.core.queue.num)
      some { s with
        lastAvail := s.lastAvail + 1
        held := s.held ++ [head]
        seen := s.seen ++ [(head, chainAt s.core.queue head s.core.queue.num)] }
  | .complete i len =>
    (s.held[i]?).map fun head =>
      { s with
        core := ⟨pushUsed s.core.queue ⟨head, len⟩, s.core.inFlight⟩
        held := s.held.eraseIdx i
        completed := s.completed ++ [(head, len)] }
  | .getUsed =>
    match virtqueueGetUsed s.core.queue with
    | none => none
    | some (none, _) => some s
    | some (some r, _) => (queueStep s.core .getUsed).map fun core =>
      { s with core := core, reported := s.reported ++ [r] }

def Callable (_ : RingState Ptr) : RingEvent Ptr → Prop
  | .add bufs => bufs ≠ [] ∧ NoNext bufs
  | _ => True

instance callableDecidable (s : RingState Ptr) (e : RingEvent Ptr) : Decidable (Callable s e) := by
  cases e <;> simp only [Callable, NoNext] <;> infer_instance

/-- After virtqueue_init with a size that is a power of two. -/
structure PowerQueue (s : RingState Ptr) : Prop where
  core : ∃ null k, 2 ^ k ≤ virtqMaxSize ∧ s.core = ⟨virtqueueInit null (2 ^ k), []⟩
  device : s.lastAvail = 0 ∧ s.held = []
  record : s.added = [] ∧ s.seen = [] ∧ s.completed = [] ∧ s.reported = []

def seenBufs (s : RingState Ptr) : List (Nat × List (Buf Ptr)) :=
  s.seen.map fun c => (c.1, c.2.map bufOf)

/-- waiting are the chains the device has not read, arrived the completions the driver has
    not got; with the held ones they are the chains in flight. -/
structure RingInv (s : RingState Ptr) (waiting : List (Nat × List (Buf Ptr)))
    (arrived : List (Nat × Nat)) : Prop where
  core : ∃ free, Conserved s.core free
  divides : s.core.queue.num ∣ 2 ^ 16
  availIdx : s.core.queue.availIdx = BitVec.ofNat 16 s.added.length
  lastAvail : s.lastAvail = BitVec.ofNat 16 s.seen.length
  usedIdx : s.core.queue.usedIdx = BitVec.ofNat 16 s.completed.length
  lastUsedIdx : s.core.queue.lastUsedIdx = BitVec.ofNat 16 s.reported.length
  added : s.added = seenBufs s ++ waiting
  completed : s.completed = s.reported ++ arrived
  avail : window s.core.queue.num s.core.queue.availRing s.seen.length waiting.length = waiting.map Prod.fst
  used : window s.core.queue.num s.core.queue.usedRing s.reported.length arrived.length =
    arrived.map fun r => ⟨r.1, r.2⟩
  share : ((waiting.map Prod.fst ++ s.held ++ arrived.map Prod.fst).map some).Perm (heads s.core.inFlight)
  posted : ∀ e ∈ waiting, ∃ c ∈ s.core.inFlight, c.descs.head? = some e.1 ∧ c.bufs = e.2

section Positions
variable {s t : RingState Ptr} {q : Virtqueue Ptr} {m n : Nat} {waiting : List (Nat × List (Buf Ptr))}
  {arrived : List (Nat × Nat)} {free : List Nat}

theorem slot_eq (divides : q.num ∣ 2 ^ 16) (m : Nat) : (BitVec.ofNat 16 m).toNat % q.num = m % q.num := by
  rw [BitVec.toNat_ofNat, Nat.mod_mod_of_dvd m divides]

theorem index_eq_iff (near : n < 2 ^ 16) : BitVec.ofNat 16 m = BitVec.ofNat 16 (m + n) ↔ n = 0 := by
  constructor
  · intro same
    have words := congrArg BitVec.toNat same
    simp only [BitVec.toNat_ofNat] at words
    omega
  · rintro rfl
    rfl

theorem index_sub (near : n < 2 ^ 16) :
    (BitVec.ofNat 16 (m + n) - BitVec.ofNat 16 m).toNat = n := by
  simp only [BitVec.toNat_sub, BitVec.toNat_ofNat]
  omega

theorem index_succ (m : Nat) : BitVec.ofNat 16 m + 1 = BitVec.ofNat 16 (m + 1) := by
  rw [BitVec.ofNat_add]
  rfl

theorem used_heads_window (divides : q.num ∣ 2 ^ 16) (near : n < 2 ^ 16)
    (last : q.lastUsedIdx = BitVec.ofNat 16 m) (idx : q.usedIdx = BitVec.ofNat 16 (m + n)) :
    usedHeads q = (window q.num q.usedRing m n).map UsedElem.id := by
  simp only [usedHeads, window, last, idx, index_sub near, List.map_map]
  apply List.map_congr_left
  intro i _
  rw [← BitVec.ofNat_add, slot_eq divides]
  rfl

theorem heads_of_apart {l : List (Posted Ptr)} (nodup : (l.flatMap Posted.descs).Nodup)
    (nonempty : ∀ c ∈ l, c.descs ≠ []) :
    (heads l).Nodup ∧ l.length ≤ (l.flatMap Posted.descs).length := by
  induction l with
  | nil => simp [heads]
  | cons c l ih =>
    rw [List.flatMap_cons, List.nodup_append] at nodup
    obtain ⟨nodupRest, count⟩ := ih nodup.2.1 fun d member => nonempty d (List.mem_cons_of_mem _ member)
    obtain ⟨i, is, descs⟩ := List.exists_cons_of_ne_nil (nonempty c List.mem_cons_self)
    constructor
    · simp only [heads, List.map_cons, List.nodup_cons]
      refine ⟨?_, nodupRest⟩
      intro again
      obtain ⟨d, member, same⟩ := List.mem_map.mp again
      rw [descs] at same
      have inD : i ∈ d.descs := List.mem_of_mem_head? same
      exact nodup.2.2 i (by simp [descs]) i (List.mem_flatMap.mpr ⟨d, member, inD⟩) rfl
    · simp only [List.flatMap_cons, List.length_append, descs, List.length_cons]
      omega

theorem heads_nodup {core : QueueState Ptr} (inv : Conserved core free) :
    (heads core.inFlight).Nodup ∧ core.inFlight.length ≤ core.queue.num := by
  have chains := (List.nodup_append.mp (partition_nodup inv)).2.1
  have within : core.inFlight.flatMap Posted.descs ⊆ List.range core.queue.num := by
    intro i member
    exact List.mem_range.mpr (partition_lt inv (List.mem_append_right free member))
  have bound := chains.length_le_of_subset within
  rw [List.length_range] at bound
  obtain ⟨nodup, count⟩ := heads_of_apart chains (by
    intro c member none
    obtain ⟨head, first, _⟩ := chain_seen inv member
    simp [none] at first)
  exact ⟨nodup, Nat.le_trans count bound⟩

theorem apart_le (inv : RingInv s waiting arrived) :
    waiting.length + s.held.length + arrived.length = s.core.inFlight.length ∧
      s.core.inFlight.length ≤ s.core.queue.num ∧ s.core.queue.num ≤ virtqMaxSize := by
  obtain ⟨free, core⟩ := inv.core
  have share := inv.share.length_eq
  simp only [List.length_map, List.length_append, heads] at share
  exact ⟨share, (heads_nodup core).2, core.small⟩

theorem seen_length : (seenBufs s).length = s.seen.length := by simp [seenBufs]

end Positions

section Steps
variable {s t : RingState Ptr} {waiting : List (Nat × List (Buf Ptr))} {arrived : List (Nat × Nat)}
  {bufs : List (Buf Ptr)}

theorem available_iff (inv : RingInv s waiting arrived) :
    s.lastAvail = s.core.queue.availIdx ↔ waiting = [] := by
  obtain ⟨total, fits, small⟩ := apart_le inv
  rw [virtqMaxSize] at small
  rw [inv.availIdx, inv.lastAvail, inv.added, List.length_append, seen_length,
    index_eq_iff (by omega), List.length_eq_zero_iff]

theorem arrived_iff (inv : RingInv s waiting arrived) :
    s.core.queue.lastUsedIdx = s.core.queue.usedIdx ↔ arrived = [] := by
  obtain ⟨total, fits, small⟩ := apart_le inv
  rw [virtqMaxSize] at small
  rw [inv.usedIdx, inv.lastUsedIdx, inv.completed, List.length_append, index_eq_iff (by omega),
    List.length_eq_zero_iff]

theorem used_heads_arrived (inv : RingInv s waiting arrived) :
    usedHeads s.core.queue = arrived.map Prod.fst := by
  obtain ⟨total, fits, small⟩ := apart_le inv
  rw [virtqMaxSize] at small
  have usedIdx := inv.usedIdx
  rw [inv.completed, List.length_append] at usedIdx
  rw [used_heads_window inv.divides (by omega) inv.lastUsedIdx usedIdx, inv.used, List.map_map]
  rfl

theorem add_ring_inv (inv : RingInv s waiting arrived) (nonempty : bufs ≠ []) (plain : NoNext bufs)
    (step : ringStep s (.add bufs) = some t) : ∃ next, RingInv t next arrived := by
  obtain ⟨free, core⟩ := inv.core
  obtain ⟨total, fits, small⟩ := apart_le inv
  rcases virtqueue_add_chain_spec core.list nonempty with ⟨full, _⟩ | ⟨chain, rest, r, done, split, after⟩
  · simp only [ringStep, full] at step
    cases step
    exact ⟨waiting, inv⟩
  · obtain ⟨enough, kept⟩ := add_inv core nonempty plain done
    simp only [ringStep, queueStep, done, Option.map_some, free_walk_eq core.list.linked enough] at step
    cases step
    have first : (free.take bufs.length).head? = some s.core.queue.freeHead := by
      rw [split, ← after.length, List.take_left]
      exact after.head
    have slot : s.core.queue.availIdx.toNat % s.core.queue.num =
        (s.seen.length + waiting.length) % s.core.queue.num := by
      rw [inv.availIdx, slot_eq inv.divides, inv.added, List.length_append, seen_length]
    have ring : r.availRing = Function.update s.core.queue.availRing
        ((s.seen.length + waiting.length) % s.core.queue.num) s.core.queue.freeHead := by
      funext i
      by_cases here : i = (s.seen.length + waiting.length) % s.core.queue.num
      · rw [here, Function.update_self, ← slot, after.availRing]
      · rw [Function.update_of_ne here, after.older i (by rw [slot]; exact here)]
    have grown := (heads_nodup kept).2
    rw [List.length_cons, after.num] at grown
    refine ⟨waiting ++ [(s.core.queue.freeHead, bufs)], ⟨_, kept⟩, ?_, ?_, inv.lastAvail, ?_, ?_, ?_, inv.completed,
      ?_, ?_, ?_, ?_⟩
    · rw [after.num]
      exact inv.divides
    · rw [after.availIdx, inv.availIdx, index_succ, List.length_append]
      rfl
    · rw [after.used.2.1]
      exact inv.usedIdx
    · rw [after.used.2.2]
      exact inv.lastUsedIdx
    · rw [← List.append_assoc]
      exact congrArg (· ++ [(s.core.queue.freeHead, bufs)]) inv.added
    · rw [after.num, ring, List.length_append, List.map_append, ← inv.avail]
      exact window_append (by omega) _
    · rw [after.num, after.used.1]
      exact inv.used
    · have old := (inv.share.cons (some s.core.queue.freeHead))
      simp only [heads, List.map_cons, first] at old ⊢
      apply List.Perm.trans _ old
      simp only [List.map_append, List.map_cons, List.map_nil, List.append_assoc]
      exact List.perm_middle
    · intro e member
      rcases List.mem_append.mp member with old | new
      · obtain ⟨c, inFlight, same⟩ := inv.posted e old
        exact ⟨c, List.mem_cons_of_mem _ inFlight, same⟩
      · rw [List.mem_singleton.mp new]
        exact ⟨_, List.mem_cons_self, first, rfl⟩

theorem fetch_ring_inv (inv : RingInv s waiting arrived) (step : ringStep s .fetch = some t) :
    ∃ next, RingInv t next arrived := by
  obtain ⟨free, core⟩ := inv.core
  obtain ⟨total, fits, small⟩ := apart_le inv
  simp only [ringStep] at step
  split at step
  · cases step
  · rename_i more
    rw [available_iff inv] at more
    obtain ⟨⟨head, bufs⟩, rest, rfl⟩ := List.exists_cons_of_ne_nil more
    have oldest := inv.avail
    rw [List.length_cons, window_uncons, window_mod, List.map_cons, List.cons.injEq] at oldest
    have entry : s.core.queue.availRing (s.lastAvail.toNat % s.core.queue.num) = head := by
      rw [inv.lastAvail, slot_eq inv.divides]
      exact oldest.1
    obtain ⟨c, inFlight, first, same⟩ := inv.posted (head, bufs) List.mem_cons_self
    obtain ⟨head', first', seen⟩ := chain_seen core inFlight
    obtain rfl : head' = head := Option.some.inj (first'.symm.trans first)
    have view := (seen _ (chain_length_le core inFlight)).2
    rw [same] at view
    rw [entry] at step
    cases step
    refine ⟨rest, inv.core, inv.divides, inv.availIdx, ?_, inv.usedIdx, inv.lastUsedIdx, ?_, inv.completed,
      ?_, inv.used, ?_, ?_⟩
    · rw [inv.lastAvail, index_succ, List.length_append]
      rfl
    · rw [inv.added]
      simp [seenBufs, view]
    · rw [List.length_append]
      exact oldest.2
    · apply List.Perm.trans _ inv.share
      simp only [List.map_append, List.map_cons, List.append_assoc, List.cons_append, List.nil_append]
      rw [← List.append_assoc, ← List.append_assoc]
      exact List.perm_middle
    · intro e member
      exact inv.posted e (List.mem_cons_of_mem _ member)

theorem complete_ring_inv {i len : Nat} (inv : RingInv s waiting arrived)
    (step : ringStep s (.complete i len) = some t) : ∃ next, RingInv t waiting next := by
  obtain ⟨free, core⟩ := inv.core
  obtain ⟨total, fits, small⟩ := apart_le inv
  obtain ⟨head, found, rfl⟩ := Option.map_eq_some_iff.mp step
  obtain ⟨inside, at_⟩ := List.getElem?_eq_some_iff.mp found
  have holds : head ∈ s.held := List.mem_of_getElem? found
  have some_ : 0 < s.held.length := List.length_pos_of_mem holds
  rw [virtqMaxSize] at small
  have slot : s.core.queue.usedIdx.toNat % s.core.queue.num =
      (s.reported.length + arrived.length) % s.core.queue.num := by
    rw [inv.usedIdx, slot_eq inv.divides, inv.completed, List.length_append]
  have used : window s.core.queue.num (pushUsed s.core.queue ⟨head, len⟩).usedRing s.reported.length
      (arrived ++ [(head, len)]).length = (arrived ++ [(head, len)]).map fun r => ⟨r.1, r.2⟩ := by
    rw [pushUsed, slot, List.length_append, List.map_append, ← inv.used]
    exact window_append (by omega) _
  have usedIdx : (pushUsed s.core.queue ⟨head, len⟩).usedIdx =
      BitVec.ofNat 16 (s.reported.length + (arrived ++ [(head, len)]).length) := by
    rw [pushUsed, inv.usedIdx, index_succ, inv.completed]
    simp [Nat.add_assoc]
  have share : ((waiting.map Prod.fst ++ s.held.eraseIdx i ++ (arrived ++ [(head, len)]).map Prod.fst).map
      some).Perm (heads s.core.inFlight) := by
    apply List.Perm.trans _ inv.share
    apply List.Perm.map
    have erased : s.held.Perm (head :: s.held.eraseIdx i) := by
      rw [← at_]
      exact (List.getElem_cons_eraseIdx_perm inside).symm
    have swap : (s.held.eraseIdx i ++ (arrived ++ [(head, len)]).map Prod.fst).Perm
        (s.held ++ arrived.map Prod.fst) := by
      rw [List.map_append, ← List.append_assoc]
      have turned := @List.perm_append_comm _ (s.held.eraseIdx i ++ arrived.map Prod.fst) [head]
      apply List.Perm.trans turned
      exact List.Perm.append_right _ erased.symm
    rw [List.append_assoc, List.append_assoc]
    exact List.Perm.append_left _ swap
  have atUsed : usedHeads (pushUsed s.core.queue ⟨head, len⟩) =
      (arrived ++ [(head, len)]).map Prod.fst := by
    rw [used_heads_window (q := pushUsed s.core.queue ⟨head, len⟩) inv.divides (by simp; omega)
      inv.lastUsedIdx usedIdx]
    have ids := congrArg (List.map UsedElem.id) used
    rw [List.map_map] at ids
    exact ids
  have honest : Honest s.core (.publish (pushUsed s.core.queue ⟨head, len⟩).usedRing
      (pushUsed s.core.queue ⟨head, len⟩).usedIdx) := by
    have nodup := share.nodup_iff.mpr (heads_nodup core).1
    rw [List.map_append, List.nodup_append] at nodup
    refine ⟨?_, ?_⟩
    · show (usedHeads (pushUsed s.core.queue ⟨head, len⟩)).Nodup
      rw [atUsed]
      exact List.Nodup.of_map _ nodup.2.1
    · intro h member
      replace member : h ∈ usedHeads (pushUsed s.core.queue ⟨head, len⟩) := member
      rw [atUsed] at member
      exact share.mem_iff.mp (List.mem_map_of_mem (List.mem_append_right _ member))
  obtain ⟨next, kept⟩ := queue_step_inv core honest rfl
  refine ⟨arrived ++ [(head, len)], ⟨next, kept⟩, inv.divides, inv.availIdx, inv.lastAvail, ?_,
    inv.lastUsedIdx, inv.added, ?_, inv.avail, used, share, inv.posted⟩
  · rw [usedIdx, inv.completed]
    simp
  · rw [inv.completed, List.append_assoc]

theorem get_used_ring_inv (inv : RingInv s waiting arrived) (step : ringStep s .getUsed = some t) :
    ∃ next, RingInv t waiting next := by
  obtain ⟨free, core⟩ := inv.core
  by_cases empty : s.core.queue.lastUsedIdx = s.core.queue.usedIdx
  · simp only [ringStep, virtqueueGetUsed, if_pos empty] at step
    cases step
    exact ⟨arrived, inv⟩
  · have more := (arrived_iff inv).not.mp empty
    obtain ⟨⟨first, size⟩, rest, rfl⟩ := List.exists_cons_of_ne_nil more
    obtain ⟨c, pre, post, head, len, queue, split, atHead, entry, entryLen, got, lastUsedIdx, usedIdx, usedRing,
      num, availRing, availIdx, done, after⟩ := get_used_inv core empty
    have oldest := inv.used
    rw [List.length_cons, window_uncons, window_mod, List.map_cons, List.cons.injEq] at oldest
    rw [inv.lastUsedIdx, slot_eq inv.divides, oldest.1] at entry entryLen
    obtain rfl : first = head := entry
    obtain rfl : size = len := entryLen
    simp only [ringStep, got, done, Option.map_some] at step
    cases step
    have share := inv.share
    rw [split] at share
    refine ⟨rest, ⟨_, after⟩, ?_, ?_, inv.lastAvail, ?_, ?_, inv.added, ?_, ?_, ?_, ?_, ?_⟩
    · rw [num]
      exact inv.divides
    · rw [availIdx]
      exact inv.availIdx
    · rw [usedIdx]
      exact inv.usedIdx
    · rw [lastUsedIdx, inv.lastUsedIdx, index_succ, List.length_append]
      rfl
    · rw [inv.completed, List.append_assoc]
      rfl
    · rw [num, availRing]
      exact inv.avail
    · rw [num, usedRing, List.length_append]
      exact oldest.2
    · simp only [heads, List.map_append, List.map_cons, atHead] at share ⊢
      have front : (some first :: (List.map some (List.map Prod.fst waiting) ++ List.map some s.held ++
          List.map some (List.map Prod.fst rest))).Perm (some first ::
          (List.map (fun c => c.descs.head?) pre ++ List.map (fun c => c.descs.head?) post)) :=
        List.perm_middle.symm.trans (share.trans List.perm_middle)
      exact front.cons_inv
    · intro e member
      obtain ⟨d, inFlight, same, bufs⟩ := inv.posted e member
      refine ⟨d, ?_, same, bufs⟩
      rw [split] at inFlight
      rcases List.mem_append.mp inFlight with inPre | inPost
      · exact List.mem_append_left _ inPre
      · rcases List.mem_cons.mp inPost with rfl | inPost
        · -- the chain given back is not one the device has yet to read
          exfalso
          rw [atHead] at same
          have nodup := inv.share.nodup_iff.mpr (heads_nodup core).1
          rw [List.map_append, List.nodup_append, List.map_append] at nodup
          apply nodup.2.2 (some e.1) _ (some first) _ same.symm
          · exact List.mem_append_left _ (List.mem_map_of_mem (List.mem_map_of_mem member))
          · simp
        · exact List.mem_append_right _ inPost

theorem ring_step_inv {e : RingEvent Ptr} (inv : RingInv s waiting arrived) (callable : Callable s e)
    (step : ringStep s e = some t) : ∃ waiting arrived, RingInv t waiting arrived := by
  cases e with
  | add bufs =>
    obtain ⟨next, after⟩ := add_ring_inv inv callable.1 callable.2 step
    exact ⟨next, arrived, after⟩
  | fetch =>
    obtain ⟨next, after⟩ := fetch_ring_inv inv step
    exact ⟨next, arrived, after⟩
  | complete i len =>
    obtain ⟨next, after⟩ := complete_ring_inv inv step
    exact ⟨waiting, next, after⟩
  | getUsed =>
    obtain ⟨next, after⟩ := get_used_ring_inv inv step
    exact ⟨waiting, next, after⟩

end Steps

theorem power_queue_inv {s : RingState Ptr} (start : PowerQueue s) : RingInv s [] [] := by
  obtain ⟨null, k, small, core⟩ := start.core
  obtain ⟨added, seen, completed, reported⟩ := start.record
  rw [virtqMaxSize] at small
  have initialised : Initialised s.core := ⟨null, 2 ^ k, Nat.two_pow_pos k, core⟩
  have num : s.core.queue.num = 2 ^ k := by
    rw [core]
    exact if_neg (by rw [virtqMaxSize]; omega)
  have exponent : k ≤ 16 := by
    by_contra large
    have := Nat.pow_le_pow_right (show 0 < 2 by omega) (show 17 ≤ k by omega)
    omega
  refine ⟨⟨_, init_conserved initialised⟩, ?_, ?_, ?_, ?_, ?_, ?_, ?_, rfl, rfl, ?_, ?_⟩
  · rw [num]
    exact Nat.pow_dvd_pow 2 exponent
  · simp [core, virtqueueInit, added]
  · simp [start.device.1, seen]
  · simp [core, virtqueueInit, completed]
  · simp [core, virtqueueInit, reported]
  · simp [added, seenBufs, seen]
  · simp [completed, reported]
  · simp [start.device.2, core, heads]
  · simp

theorem ring_run_inv {s : RingState Ptr} (run : Reaches PowerQueue (Guarded Callable (Taken ringStep)) s) :
    ∃ waiting arrived, RingInv s waiting arrived := by
  apply reaches_invariant (fun s => ∃ waiting arrived, RingInv s waiting arrived) _ _ run
  · intro s start
    exact ⟨[], [], power_queue_inv start⟩
  · intro s e t inv taken
    obtain ⟨waiting, arrived, inv⟩ := inv
    exact ring_step_inv inv taken.1 taken.2

/-- The device sees the chains in the order of their add calls, an available entry keeps its
    chain until the device has read it, and virtqueue_get_used reports the completions in
    order, each once, until there are no more. -/
structure RingsSound (s : RingState Ptr) : Prop where
  seen : ∀ (k head : Nat) (descs : List (Desc Ptr)), s.seen[k]? = some (head, descs) →
    s.added[k]? = some (head, descs.map bufOf)
  unread : ∀ (k head : Nat) bufs, s.seen.length ≤ k → s.added[k]? = some (head, bufs) →
    s.core.queue.availRing ((BitVec.ofNat 16 k).toNat % s.core.queue.num) = head
  reported : ∀ (k : Nat) r, s.reported[k]? = some r → s.completed[k]? = some r
  empty : (∃ queue, virtqueueGetUsed s.core.queue = some (none, queue)) ↔ s.reported = s.completed
  next : s.reported ≠ s.completed → ∃ r queue core, virtqueueGetUsed s.core.queue = some (some r, queue) ∧
    s.completed[s.reported.length]? = some r ∧
    ringStep s .getUsed = some { s with core := core, reported := s.reported ++ [r] }

theorem rings_sound {s : RingState Ptr} (run : Reaches PowerQueue (Guarded Callable (Taken ringStep)) s) :
    RingsSound s := by
  obtain ⟨waiting, arrived, inv⟩ := ring_run_inv run
  obtain ⟨free, core⟩ := inv.core
  refine ⟨?_, ?_, ?_, ?_, ?_⟩
  · intro k head descs found
    have view : (seenBufs s)[k]? = some (head, descs.map bufOf) := by
      simp [seenBufs, found]
    rw [inv.added, List.getElem?_append_left (List.getElem?_eq_some_iff.mp view).1]
    exact view
  · intro k head bufs unseen found
    rw [inv.added, List.getElem?_append_right (by rw [seen_length]; exact unseen), seen_length] at found
    have cell := congrArg (fun l => l[k - s.seen.length]?) inv.avail
    simp only [List.getElem?_map, found, window] at cell
    rw [List.getElem?_range (List.getElem?_eq_some_iff.mp found).1] at cell
    rw [slot_eq inv.divides]
    have position : s.seen.length + (k - s.seen.length) = k := by omega
    simpa [position] using cell
  · intro k r found
    rw [inv.completed, List.getElem?_append_left (List.getElem?_eq_some_iff.mp found).1]
    exact found
  · constructor
    · rintro ⟨queue, nothing⟩
      by_cases empty : s.core.queue.lastUsedIdx = s.core.queue.usedIdx
      · rw [inv.completed, (arrived_iff inv).mp empty, List.append_nil]
      · obtain ⟨c, pre, post, head, len, queue', -, -, -, -, got, -⟩ := get_used_inv core empty
        rw [got] at nothing
        cases nothing
    · intro all
      rw [inv.completed, List.self_eq_append_right] at all
      exact ⟨_, if_pos ((arrived_iff inv).mpr all)⟩
  · intro more
    have waits : s.core.queue.lastUsedIdx ≠ s.core.queue.usedIdx := by
      intro empty
      rw [inv.completed, (arrived_iff inv).mp empty, List.append_nil] at more
      exact more rfl
    obtain ⟨first, rest, rfl⟩ := List.exists_cons_of_ne_nil ((arrived_iff inv).not.mp waits)
    obtain ⟨c, pre, post, head, len, queue, -, -, entry, entryLen, got, -, -, -, -, -, -, done, -⟩ :=
      get_used_inv core waits
    have oldest := inv.used
    rw [List.length_cons, window_uncons, window_mod, List.map_cons, List.cons.injEq] at oldest
    rw [inv.lastUsedIdx, slot_eq inv.divides, oldest.1] at entry entryLen
    refine ⟨(head, len), queue, ⟨queue, pre ++ post⟩, got, ?_, ?_⟩
    · rw [inv.completed, List.getElem?_append_right (Nat.le_refl _), Nat.sub_self, List.getElem?_cons_zero,
        ← entry, ← entryLen]
    · simp only [ringStep, got, done, Option.map_some]

/-- How far the driver and the device have come. -/
structure Progressed (s : RingState Ptr) (a f c r : Nat) : Prop where
  run : Reaches PowerQueue (Guarded Callable (Taken ringStep)) s
  added : s.added.length = a
  seen : s.seen.length = f
  held : c + s.held.length = f
  completed : s.completed.length = c
  reported : s.reported.length = r

section Progress
variable {s : RingState Ptr} {a f c r n : Nat}

theorem add_progress (at_ : Progressed s n n n n) (b : Buf Ptr) (plain : b.flags &&& vringDescFNext = 0) :
    ∃ t : RingState Ptr, Progressed t (n + 1) n n n := by
  obtain ⟨waiting, arrived, inv⟩ := ring_run_inv at_.run
  obtain ⟨free, core⟩ := inv.core
  have positive : 0 < s.core.queue.num := Nat.pos_of_dvd_of_pos inv.divides (by decide)
  -- all descriptors are free
  have added := congrArg List.length inv.added
  have completed := congrArg List.length inv.completed
  have flying := (apart_le inv).1
  have held := at_.held
  rw [List.length_append, seen_length, at_.added, at_.seen] at added
  rw [List.length_append, at_.completed, at_.reported] at completed
  have idle : s.core.inFlight = [] := List.eq_nil_of_length_eq_zero (by omega)
  have total := core.partition.length_eq
  rw [idle, List.flatMap_nil, List.append_nil, List.length_range] at total
  have callable : Callable s (.add [b]) := by
    refine ⟨List.cons_ne_nil _ _, ?_⟩
    intro c member
    rw [List.mem_singleton.mp member]
    exact plain
  rcases virtqueue_add_chain_spec core.list (List.cons_ne_nil b []) with ⟨_, few⟩ | ⟨chain, rest, r, done, _⟩
  · rw [List.length_singleton] at few
    omega
  · have step : ringStep s (.add [b]) = some { s with
        core := ⟨r, ⟨freeWalk s.core.queue s.core.queue.freeHead 1, [b]⟩ :: s.core.inFlight⟩
        added := s.added ++ [(s.core.queue.freeHead, [b])] } := by
      simp only [ringStep, queueStep, done, Option.map_some, List.length_singleton]
    refine ⟨_, Reaches.next at_.run ⟨callable, step⟩, ?_, at_.seen, at_.held, at_.completed, at_.reported⟩
    rw [List.length_append, at_.added, List.length_singleton]

theorem fetch_progress (at_ : Progressed s a f c r) (more : f < a) :
    ∃ t : RingState Ptr, Progressed t a (f + 1) c r := by
  obtain ⟨waiting, arrived, inv⟩ := ring_run_inv at_.run
  have held := at_.held
  have available : s.lastAvail ≠ s.core.queue.availIdx := by
    rw [Ne, available_iff inv]
    intro none
    have added := congrArg List.length inv.added
    rw [none, List.append_nil, seen_length, at_.added, at_.seen] at added
    omega
  refine ⟨_, Reaches.next (a := .fetch) at_.run ⟨trivial, if_neg available⟩, at_.added, ?_, ?_, at_.completed,
    at_.reported⟩
  · rw [List.length_append, at_.seen, List.length_singleton]
  · rw [List.length_append, List.length_singleton]
    omega

theorem complete_progress (at_ : Progressed s a f c r) (more : c < f) (len : Nat) :
    ∃ t : RingState Ptr, Progressed t a f (c + 1) r := by
  have held := at_.held
  obtain ⟨head, first⟩ : ∃ head, s.held[0]? = some head := ⟨_, List.getElem?_eq_getElem (by omega)⟩
  have step : ringStep s (.complete 0 len) = some { s with
      core := ⟨pushUsed s.core.queue ⟨head, len⟩, s.core.inFlight⟩
      held := s.held.eraseIdx 0
      completed := s.completed ++ [(head, len)] } := by
    rw [ringStep, first, Option.map_some]
  refine ⟨_, Reaches.next (a := .complete 0 len) at_.run ⟨trivial, step⟩, at_.added, at_.seen, ?_, ?_, at_.reported⟩
  · rw [List.length_eraseIdx_of_lt (by omega)]
    omega
  · rw [List.length_append, at_.completed, List.length_singleton]

theorem report_progress (at_ : Progressed s a f c r) (more : r < c) :
    ∃ t : RingState Ptr, Progressed t a f c (r + 1) := by
  have behind : s.reported ≠ s.completed := by
    intro same
    have lengths := at_.reported
    rw [same, at_.completed] at lengths
    omega
  obtain ⟨result, _, core, _, _, step⟩ := (rings_sound at_.run).next behind
  refine ⟨_, Reaches.next (a := .getUsed) at_.run ⟨trivial, step⟩, at_.added, at_.seen, at_.held, at_.completed, ?_⟩
  rw [List.length_append, at_.reported, List.length_singleton]

end Progress

/-- A queue of two descriptors whose indices have all come back to 0, and a chain more. -/
theorem rings_sound_after_wrap : ∃ s : RingState Nat,
    Reaches PowerQueue (Guarded Callable (Taken ringStep)) s ∧ s.added.length = 2 ^ 16 + 1 ∧
      s.core.queue.availIdx = 1 ∧ s.core.queue.usedIdx = 0 ∧ s.core.queue.lastUsedIdx = 0 ∧ RingsSound s := by
  have rounds : ∀ n, ∃ s : RingState Nat, Progressed s n n n n := by
    intro n
    induction n with
    | zero =>
      have start : PowerQueue (⟨⟨virtqueueInit 0 2, []⟩, 0, [], [], [], [], []⟩ : RingState Nat) :=
        ⟨⟨0, 1, by decide, rfl⟩, ⟨rfl, rfl⟩, ⟨rfl, rfl, rfl, rfl⟩⟩
      exact ⟨_, Reaches.start start, rfl, rfl, rfl, rfl, rfl⟩
    | succ n ih =>
      obtain ⟨s, idle⟩ := ih
      obtain ⟨_, added⟩ := add_progress idle ⟨100, 16, 0⟩ rfl
      obtain ⟨_, fetched⟩ := fetch_progress added (Nat.lt_succ_self n)
      obtain ⟨_, completed⟩ := complete_progress fetched (Nat.lt_succ_self n) 16
      exact report_progress completed (Nat.lt_succ_self n)
  obtain ⟨s, idle⟩ := rounds (2 ^ 16)
  obtain ⟨t, added⟩ := add_progress idle ⟨200, 16, 0⟩ rfl
  obtain ⟨waiting, arrived, inv⟩ := ring_run_inv added.run
  refine ⟨t, added.run, added.added, ?_, ?_, ?_, rings_sound added.run⟩
  · rw [inv.availIdx, added.added]
    decide
  · rw [inv.usedIdx, added.completed]
    decide
  · rw [inv.lastUsedIdx, added.reported]
    decide

end Archarch.Virtqueues
