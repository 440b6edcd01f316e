import Archarch.Devices.CommonAccess
import Archarch.Foundations.Runs

/- What the devices see of any sequence of init calls, whatever they answer: each the order that it is
   owed, with queues in memory that no other queue has. -/
namespace Archarch.BringUp
open ExtentLayout LabelledRuns Transport
open PciDevices (BarKind BarsSound Config IsVendor assignStart capType virtioPciParseCaps)
open Virtqueues (virtqMaxSize)

/-- The queues that the device of a slot has live are set up once each, the n-th of all queues in the
    n-th slot of the ring memory while there is one. -/
structure Held (memory : RingMemory) (given : List (Nat × Nat)) (slot : Nat) (s : Session) : Prop where
  distinct : (s.live.map QueueLayout.index).Nodup
  rings : ∀ l ∈ s.live, ∃ n, given[n]? = some (slot, l.index) ∧
    (given.length ≤ virtqMaxQueues → InSlot memory n l)

structure Sound (memory : RingMemory) (m : Machine) : Prop where
  next : m.next = min m.given.length virtqMaxQueues
  traces : ∀ slot, ∃ s, Follows (m.traces slot) s ∧ Held memory m.given slot s

def Agreed (m : Machine) (d : Driver) (s : Session) : Prop :=
  m.given.length ≤ virtqMaxQueues → ∀ l ∈ s.live, Told ((m.drivers d).queues l.index) l

structure Drives (w : Wishes) (s : Session) : Prop where
  status : s.status = 15
  features : ∃ o, s.offered 0 = some o ∧ s.accepted 0 = some (o &&& w.features)
  version : ∃ o, s.offered 1 = some o ∧ s.accepted 1 = some (o &&& 1)
  queues : s.live.map QueueLayout.index = w.queues.map Prod.fst

structure Worked (d : Driver) (m m' : Machine) : Prop where
  slot : (m'.drivers d).slot = (m.drivers d).slot
  traces : ∀ k, k ≠ (m.drivers d).slot → m'.traces k = m.traces k
  drivers : ∀ e, e ≠ d → m'.drivers e = m.drivers e
  assign : m'.assign = m.assign
  bars : m'.bars = m.bars
  ready : m'.ready = m.ready
  inputs : m'.inputCount = m.inputCount
  given : ∃ more, m'.given = m.given ++ more

structure Reaching (bus : Bus) (m : Machine) (d : Driver) : Prop where
  slot : (m.drivers d).slot < 32
  starts : startsAt bus m.bars (m.drivers d).vpci.commonCfg (m.drivers d).slot = true

section Sessions
variable {memory : RingMemory} {given more : List (Nat × Nat)} {slot : Nat} {s s' : Session} {t : Trace}
  {m m' m'' : Machine} {d : Driver}

theorem follows_unique (first : Follows t s) (second : Follows t s') : s = s' :=
  Option.some.inj (first.symm.trans second)

theorem held_mono (held : Held memory given slot s) : Held memory (given ++ more) slot s where
  distinct := held.distinct
  rings := by
    intro l hl
    obtain ⟨n, asked, inSlot⟩ := held.rings l hl
    have inside := (List.getElem?_eq_some_iff.mp asked).1
    refine ⟨n, by rwa [List.getElem?_append_left inside], fun few => inSlot ?_⟩
    rw [List.length_append] at few
    omega

theorem held_empty (none : s.live = []) : Held memory given slot s where
  distinct := by simp [none]
  rings := by simp [none]

theorem held_grown {l : QueueLayout} {index : Nat} (held : Held memory given slot s) (named : l.index = index)
    (grown : s'.live = s.live ++ [l]) (fresh : ∀ l ∈ s.live, l.index ≠ index)
    (inSlot : given.length < virtqMaxQueues → InSlot memory given.length l) :
    Held memory (given ++ [(slot, index)]) slot s' where
  distinct := by
    rw [grown, List.map_append, List.nodup_append]
    refine ⟨held.distinct, by simp, ?_⟩
    intro i hi j hj
    obtain ⟨k, hk, rfl⟩ := List.mem_map.mp hi
    rw [List.map_singleton, List.mem_singleton] at hj
    rw [hj, named]
    exact fresh k hk
  rings := by
    intro k hk
    rw [grown, List.mem_append, List.mem_singleton] at hk
    rcases hk with old | rfl
    · exact (held_mono held).rings k old
    · refine ⟨given.length, by simp [named], fun few => inSlot ?_⟩
      rw [List.length_append, List.length_singleton] at few
      omega

theorem worked_refl (d : Driver) (m : Machine) : Worked d m m :=
  ⟨rfl, fun _ _ => rfl, fun _ _ => rfl, rfl, rfl, rfl, rfl, [], (List.append_nil _).symm⟩

theorem worked_trans (first : Worked d m m') (second : Worked d m' m'') : Worked d m m'' where
  slot := second.slot.trans first.slot
  traces := fun k other => (second.traces k (first.slot ▸ other)).trans (first.traces k other)
  drivers := fun e other => (second.drivers e other).trans (first.drivers e other)
  assign := second.assign.trans first.assign
  bars := second.bars.trans first.bars
  ready := second.ready.trans first.ready
  inputs := second.inputs.trans first.inputs
  given := by
    obtain ⟨more, one⟩ := first.given
    obtain ⟨rest, two⟩ := second.given
    exact ⟨more ++ rest, by rw [two, one, List.append_assoc]⟩

theorem sound_of_worked (sound : Sound memory m) (worked : Worked d m m')
    (next : m'.next = min m'.given.length virtqMaxQueues) (follows : Follows (m'.traces (m.drivers d).slot) s)
    (held : Held memory m'.given (m.drivers d).slot s) : Sound memory m' where
  next := next
  traces := by
    intro k
    by_cases own : k = (m.drivers d).slot
    · exact own ▸ ⟨s, follows, held⟩
    · obtain ⟨more, grown⟩ := worked.given
      obtain ⟨u, order, old⟩ := sound.traces k
      exact ⟨u, worked.traces k own ▸ order, grown ▸ held_mono old⟩

end Sessions
/- The queues of one device. -/

structure Telling (bus : Bus) (memory : RingMemory) (w : Wishes) (d : Driver) (m : Machine) (s : Session) : Prop where
  reaching : Reaching bus m d
  follows : Follows (m.traces (m.drivers d).slot) s
  held : Held memory m.given (m.drivers d).slot s
  negotiated : Negotiated s w.features 0
  agreed : Agreed m d s

section Queues
variable {bus : Bus} {memory : RingMemory} {w : Wishes} {s s' : Session} {t : Trace} {m m' : Machine} {d : Driver}
  {r : Int} {next index size : Nat} {vq : DriverQueue} {more : List (Nat × Nat)}

structure SetUpBy (m m' : Machine) (d : Driver) (index : Nat) (t : Trace) (vq : DriverQueue)
    (more : List (Nat × Nat)) : Prop where
  drivers : m'.drivers =
    Function.update m.drivers d { m.drivers d with queues := Function.update (m.drivers d).queues index vq }
  traces : m'.traces = Function.update m.traces (m.drivers d).slot t
  assign : m'.assign = m.assign
  bars : m'.bars = m.bars
  ready : m'.ready = m.ready
  inputs : m'.inputCount = m.inputCount
  given : m'.given = m.given ++ more

theorem set_up_slot (setUp : SetUpBy m m' d index t vq more) : (m'.drivers d).slot = (m.drivers d).slot := by
  rw [setUp.drivers, Function.update_self]

theorem set_up_trace (setUp : SetUpBy m m' d index t vq more) : m'.traces (m'.drivers d).slot = t := by
  rw [set_up_slot setUp, setUp.traces, Function.update_self]

theorem set_up_worked (setUp : SetUpBy m m' d index t vq more) : Worked d m m' where
  slot := set_up_slot setUp
  traces := fun k other => by rw [setUp.traces, Function.update_of_ne other]
  drivers := fun e other => by rw [setUp.drivers, Function.update_of_ne other]
  assign := setUp.assign
  bars := setUp.bars
  ready := setUp.ready
  inputs := setUp.inputs
  given := ⟨more, setUp.given⟩

theorem set_up_reaching (setUp : SetUpBy m m' d index t vq more) (reaching : Reaching bus m d) :
    Reaching bus m' d := by
  constructor
  · rw [set_up_slot setUp]
    exact reaching.slot
  · rw [setUp.bars, setUp.drivers, Function.update_self]
    exact reaching.starts

theorem agreed_grown {l : QueueLayout} {slot : Nat} (setUp : SetUpBy m m' d index t vq [(slot, index)])
    (agreed : Agreed m d s) (fresh : ∀ l ∈ s.live, l.index ≠ index) (named : l.index = index)
    (grown : s'.live = s.live ++ [l]) (told : m.given.length < virtqMaxQueues → Told vq l) : Agreed m' d s' := by
  intro few k hk
  rw [setUp.given, List.length_append, List.length_singleton] at few
  rw [grown, List.mem_append, List.mem_singleton] at hk
  rw [setUp.drivers, Function.update_self]
  show Told (Function.update (m.drivers d).queues index vq k.index) k
  rcases hk with old | rfl
  · rw [Function.update_of_ne (fresh k old)]
    exact agreed (Nat.le_of_succ_le few) k old
  · rw [named, Function.update_self]
    exact told few

theorem setup_queue_spec (sound : Sound memory m) (telling : Telling bus memory w d m s)
    (fresh : ∀ l ∈ s.live, l.index ≠ index) (word : index < 2 ^ 16) (positive : 0 < size) (most : size ≤ virtqMaxSize)
    (done : setupQueue bus memory d (m.drivers d).slot index size m = (r, m')) :
    Worked d m m' ∧ Sound memory m' ∧ (¬ r < 0 → ∃ s', Telling bus memory w d m' s' ∧
      s'.live.map QueueLayout.index = s.live.map QueueLayout.index ++ [index]) := by
  unfold setupQueue at done
  dsimp only at done
  generalize asked : virtioPciSetupQueue _ _ _ _ _ _ _ _ _ = answer at done
  obtain ⟨q, t, next, vq⟩ := answer
  obtain ⟨rfl, made⟩ := Prod.mk.inj done
  have after : m'.next = next := by rw [← made]
  obtain ⟨s', follows, ⟨rfl, rfl, rfl, -, live⟩ | ⟨rfl, setUp⟩⟩ := setup_queue_follows telling.follows
    telling.negotiated.status telling.negotiated.agreed fresh word positive most asked
  · have kept : SetUpBy m m' d index t ((m.drivers d).queues index) [] := by
      rw [← made]
      exact ⟨rfl, rfl, rfl, rfl, rfl, rfl, (List.append_nil _).symm⟩
    have given : m'.given = m.given := by rw [kept.given, List.append_nil]
    have held : Held memory m'.given (m.drivers d).slot s' :=
      ⟨live ▸ telling.held.distinct, by rw [live, given]; exact telling.held.rings⟩
    have worked := set_up_worked kept
    have trace := set_up_trace kept
    rw [worked.slot] at trace
    exact ⟨worked, sound_of_worked sound worked (by rw [after, given, sound.next]) (trace ▸ follows) held,
      fun no => absurd (by decide : (-1 : Int) < 0) no⟩
  · have grown : SetUpBy m m' d index t vq [((m.drivers d).slot, index)] := by
      rw [← made]
      exact ⟨rfl, rfl, rfl, rfl, rfl, rfl, rfl⟩
    have worked := set_up_worked grown
    have trace := set_up_trace grown
    obtain ⟨l, named, live, room⟩ := setUp.grown
    have counted := setUp.counted
    have before := sound.next
    have length : m'.given.length = m.given.length + 1 := by
      rw [grown.given, List.length_append, List.length_singleton]
    have few : m.given.length < virtqMaxQueues → m.next = m.given.length := by omega
    have next : m'.next = min m'.given.length virtqMaxQueues := by
      rw [after, counted]
      split <;> omega
    have held : Held memory m'.given (m.drivers d).slot s' := by
      rw [grown.given]
      exact held_grown telling.held named live fresh fun lt => few lt ▸ (room (few lt ▸ lt)).2
    rw [worked.slot] at trace
    have follows' : Follows (m'.traces (m.drivers d).slot) s' := trace ▸ follows
    refine ⟨worked, sound_of_worked sound worked next follows' held, fun _ => ⟨s', ⟨?_, ?_, ?_, ?_, ?_⟩, ?_⟩⟩
    · exact set_up_reaching grown telling.reaching
    · rwa [worked.slot]
    · rwa [worked.slot]
    · exact ⟨setUp.status.trans telling.negotiated.status, setUp.agreed.trans telling.negotiated.agreed,
        by rw [setUp.offered, setUp.accepted]; exact telling.negotiated.features,
        by rw [setUp.offered, setUp.accepted]; exact telling.negotiated.version⟩
    · exact agreed_grown grown telling.agreed fresh named live fun lt => (room (few lt ▸ lt)).1
    · rw [live, List.map_append, List.map_singleton, named]

theorem setup_queues_spec {list : List (Nat × Nat)} {common : Nat} (own : (m.drivers d).slot = common) (sound : Sound memory m) (telling : Telling bus memory w d m s)
    (fresh : ∀ p ∈ list, ∀ l ∈ s.live, l.index ≠ p.1) (nodup : (list.map Prod.fst).Nodup)
    (sizes : ∀ p ∈ list, p.1 < 2 ^ 16 ∧ 0 < p.2 ∧ p.2 ≤ virtqMaxSize)
    (done : setupQueues bus memory d common list m = (r, m')) :
    Worked d m m' ∧ Sound memory m' ∧ (¬ r < 0 → ∃ s', Telling bus memory w d m' s' ∧
      s'.live.map QueueLayout.index = s.live.map QueueLayout.index ++ list.map Prod.fst) := by
  induction list generalizing m s with
  | nil =>
    cases done
    exact ⟨worked_refl d _, sound, fun _ => ⟨s, telling, by simp⟩⟩
  | cons p rest ih =>
    obtain ⟨index, size⟩ := p
    obtain ⟨word, positive, most⟩ := sizes _ (List.mem_cons_self ..)
    rw [List.map_cons, List.nodup_cons] at nodup
    rw [setupQueues] at done
    generalize asked : setupQueue bus memory d common index size m = answer at done
    obtain ⟨q, n⟩ := answer
    rw [← own] at asked
    obtain ⟨worked, after, told⟩ := setup_queue_spec sound telling (fresh _ (List.mem_cons_self ..)) word positive
      most asked
    dsimp only at done
    split at done
    next failed =>
      cases done
      exact ⟨worked, after, fun no => absurd (by decide : (-1 : Int) < 0) no⟩
    next went =>
      obtain ⟨s1, telling1, live⟩ := told went
      have still : ∀ p ∈ rest, ∀ l ∈ s1.live, l.index ≠ p.1 := by
        intro p hp l hl
        have member := List.mem_map_of_mem (f := QueueLayout.index) hl
        rw [live, List.mem_append, List.mem_singleton] at member
        rcases member with old | rfl
        · obtain ⟨k, hk, same⟩ := List.mem_map.mp old
          exact same ▸ fresh p (List.mem_cons_of_mem _ hp) k hk
        · exact fun same => nodup.1 (List.mem_map.mpr ⟨p, hp, same.symm⟩)
      obtain ⟨later, ends, rest'⟩ := ih (worked.slot.trans own) after telling1 still nodup.2
        (fun p hp => sizes p (List.mem_cons_of_mem _ hp)) done
      refine ⟨worked_trans worked later, ends, fun ok => ?_⟩
      obtain ⟨s2, telling2, live2⟩ := rest' ok
      exact ⟨s2, telling2, by rw [live2, live, List.map_cons, List.append_assoc, List.singleton_append]⟩

end Queues
/- One device. -/

section Device
variable {bus : Bus} {memory : RingMemory} {s : Session} {t : Trace} {m m' : Machine} {d : Driver} {r : Int}

theorem set_driver_worked {own : DriverState} (same : own.slot = (m.drivers d).slot) :
    Worked d m (setDriver m d own) where
  slot := (congrArg DriverState.slot (Function.update_self ..)).trans same
  traces := fun _ _ => rfl
  drivers := fun _ other => Function.update_of_ne other _ _
  assign := rfl
  bars := rfl
  ready := rfl
  inputs := rfl
  given := ⟨[], (List.append_nil _).symm⟩

theorem set_driver_sound (own : DriverState) (sound : Sound memory m) : Sound memory (setDriver m d own) :=
  ⟨sound.next, sound.traces⟩

theorem set_trace_worked (m : Machine) (d : Driver) (t : Trace) : Worked d m (setTrace m (m.drivers d).slot t) where
  slot := rfl
  traces := fun _ other => Function.update_of_ne other _ _
  drivers := fun _ _ => rfl
  assign := rfl
  bars := rfl
  ready := rfl
  inputs := rfl
  given := ⟨[], (List.append_nil _).symm⟩

theorem set_trace_self (m : Machine) (slot : Nat) (t : Trace) : (setTrace m slot t).traces slot = t :=
  Function.update_self ..

theorem set_trace_sound (d : Driver) (sound : Sound memory m) (follows : Follows t s)
    (held : Held memory m.given (m.drivers d).slot s) : Sound memory (setTrace m (m.drivers d).slot t) :=
  sound_of_worked sound (set_trace_worked m d t) sound.next
    ((set_trace_self m (m.drivers d).slot t).symm ▸ follows) held

theorem wishes_fit (d : Driver) : (wishes d).queues ≠ [] ∧ ((wishes d).queues.map Prod.fst).Nodup ∧
    ∀ p ∈ (wishes d).queues, p.1 < 2 ^ 16 ∧ 0 < p.2 ∧ p.2 ≤ virtqMaxSize := by
  cases d <;> simp only [wishes] <;> decide

def Up (m : Machine) (d : Driver) : Prop :=
  ∃ s, Follows (m.traces (m.drivers d).slot) s ∧ Drives (wishes d) s ∧ Agreed m d s

theorem drive_device_spec (sound : Sound memory m) (telling : Telling bus memory (wishes d) d m s) (empty : s.live = [])
    (done : driveDevice bus memory d (m.drivers d).slot m = (r, m')) :
    Worked d m m' ∧ Sound memory m' ∧ (¬ r < 0 → Up m' d ∧ Reaching bus m' d) := by
  obtain ⟨wanted, nodup, sizes⟩ := wishes_fit d
  unfold driveDevice at done
  generalize queues : setupQueues bus memory d (m.drivers d).slot (wishes d).queues m = answer at done
  obtain ⟨q, n⟩ := answer
  obtain ⟨worked, sound', told⟩ := setup_queues_spec rfl sound telling (by simp [empty]) nodup sizes queues
  dsimp only at done
  split at done
  next =>
    cases done
    exact ⟨worked, sound', fun no => absurd (by decide : (-1 : Int) < 0) no⟩
  next went =>
    cases done
    rw [← worked.slot]
    obtain ⟨s', telling', live⟩ := told went
    have negotiated := telling'.negotiated
    have nonempty : s'.live ≠ [] := by
      intro none
      rw [none, empty] at live
      exact wanted (List.map_eq_nil_iff.mp live.symm)
    have driven := driver_ok_follows telling'.follows negotiated.status negotiated.agreed nonempty
    have held : Held memory n.given (n.drivers d).slot { s' with status := 15 } :=
      ⟨telling'.held.distinct, telling'.held.rings⟩
    have drives : Drives (wishes d) { s' with status := 15 } :=
      ⟨rfl, negotiated.features, negotiated.version, by rw [live, empty, List.map_nil, List.nil_append]⟩
    have trace := set_trace_self n (n.drivers d).slot (virtioPciSetDriverOk (n.traces (n.drivers d).slot))
    exact ⟨worked_trans worked (set_trace_worked n d _), set_trace_sound d sound' driven held,
      fun _ => ⟨⟨_, trace.symm ▸ driven, drives, telling'.agreed⟩, telling'.reaching.slot, telling'.reaching.starts⟩⟩

theorem bring_up_spec (sound : Sound memory m) (placed : Placed m) (inside : (m.drivers d).slot < 32)
    (starts : ∀ parsed vpci, virtioPciParseCaps (bus.config (m.drivers d).slot)
      (fun i => ((m.drivers d).pci.barAddr i).toNat) (m.drivers d).vpci = some (parsed, vpci) → ¬ parsed < 0 →
        startsAt bus m.bars vpci.commonCfg (m.drivers d).slot = true)
    (done : bringUp bus memory d m = some (r, m')) :
    Worked d m m' ∧ Sound memory m' ∧ (¬ r < 0 → Up m' d ∧ Reaching bus m' d) := by
  unfold bringUp at done
  dsimp only at done
  split at done
  next => cases done
  next parsed vpci caps =>
    have own := starts parsed vpci caps
    have reaches : (setDriver m d { m.drivers d with vpci := vpci }).drivers d = { m.drivers d with vpci := vpci } :=
      Function.update_self ..
    generalize start : setDriver m d { m.drivers d with vpci := vpci } = m1 at done reaches
    have worked1 : Worked d m m1 := start ▸ set_driver_worked rfl
    have sound1 : Sound memory m1 := start ▸ set_driver_sound _ sound
    split at done
    next =>
      cases done
      exact ⟨worked1, sound1, fun no => absurd (by decide : (-1 : Int) < 0) no⟩
    next content =>
      have reaching : Reaching bus m1 d := by
        refine ⟨by rw [worked1.slot]; exact inside, ?_⟩
        rw [worked1.slot, worked1.bars, reaches]
        exact own content
      have common : commonAt bus m1.bars vpci.commonCfg = some (m1.drivers d).slot := by
        rw [worked1.bars, worked1.slot]
        exact common_at_own placed inside (own content)
      rw [common] at done
      dsimp only at done
      split at done
      next => cases done
      next answer t init =>
        obtain ⟨s0, before, held0⟩ := sound1.traces (m1.drivers d).slot
        obtain ⟨s1, follows1, empty, outcome⟩ := init_device_follows before init
        have worked2 := worked_trans worked1 (set_trace_worked m1 d t)
        have sound2 := set_trace_sound d sound1 follows1 (held_empty empty)
        have trace := set_trace_self m1 (m1.drivers d).slot t
        have same := worked2.slot.trans worked1.slot.symm
        have still : Reaching bus (setTrace m1 (m1.drivers d).slot t) d := ⟨reaching.slot, reaching.starts⟩
        generalize setTrace m1 (m1.drivers d).slot t = m2 at *
        have failed : ∀ n, some ((-1 : Int), m2) = some (r, n) →
            Worked d m n ∧ Sound memory n ∧ (¬ r < 0 → Up n d ∧ Reaching bus n d) := by
          intro n is
          cases is
          exact ⟨worked2, sound2, fun no => absurd (by decide : (-1 : Int) < 0) no⟩
        split at done
        next => exact failed m' done
        next kept =>
          split at done
          next => exact failed m' done
          next =>
            rcases outcome with ⟨-, negotiated⟩ | ⟨rejected, -⟩
            · have telling : Telling bus memory (wishes d) d m2 s1 :=
                ⟨still, by rw [same, trace]; exact follows1, held_empty empty, negotiated, by simp [Agreed, empty]⟩
              rw [← same] at done
              obtain ⟨worked, sound', up⟩ := drive_device_spec sound2 telling empty (Option.some.inj done)
              exact ⟨worked_trans worked2 worked, sound', up⟩
            · exact absurd (by rw [rejected]; decide) kept

end Device
/- All devices. -/

structure Inv (bus : Bus) (memory : RingMemory) (m : Machine) : Prop where
  sound : Sound memory m
  placed : Placed m
  reaching : ∀ d, m.ready d = true → Reaching bus m d
  up : ∀ d, m.ready d = true → Up m d
  matched : ∀ d, m.ready d = true → isDevice bus (wishes d).ids (m.drivers d).slot = true
  inputs : ∀ i, m.ready (.input i) = true ↔ i < m.inputCount
  exclusive : ∀ d e, m.ready d = true → m.ready e = true → (m.drivers d).slot = (m.drivers e).slot → d = e
  untouched : ∀ slot, (∀ d, isDevice bus (wishes d).ids slot = false) → m.traces slot = []

structure Owns (bus : Bus) (m : Machine) (d : Driver) : Prop where
  idle : m.ready d = false
  inside : (m.drivers d).slot < 32
  matched : isDevice bus (wishes d).ids (m.drivers d).slot = true
  free : ∀ e, m.ready e = true → (m.drivers e).slot ≠ (m.drivers d).slot

section System
variable {bus : Bus} {memory : RingMemory} {m m' : Machine} {d e : Driver} {r : Int} {slot : Nat}

def isInput : Driver → Bool
  | .input _ => true
  | _ => false

theorem same_device (first : isDevice bus (wishes d).ids slot = true) (second : isDevice bus (wishes e).ids slot = true) :
    d = e ∨ isInput d = true ∧ isInput e = true := by
  have one := (of_decide_eq_true first).2
  have two := (of_decide_eq_true second).2
  cases d <;> cases e <;> simp [wishes, virtioRng, virtioBlk, virtioNet, virtioGpu, virtioInput, isInput] at one two ⊢ <;>
    omega

theorem up_of_worked (other : e ≠ d) (apart : (m.drivers e).slot ≠ (m.drivers d).slot) (worked : Worked d m m')
    (up : Up m e) : Up m' e := by
  obtain ⟨s, follows, drives, agreed⟩ := up
  obtain ⟨more, grown⟩ := worked.given
  refine ⟨s, ?_, drives, ?_⟩
  · rw [worked.drivers e other, worked.traces _ apart]
    exact follows
  · intro few
    rw [worked.drivers e other]
    exact agreed (by rw [grown, List.length_append] at few; omega)

theorem reaching_of_same (bars : m'.bars (m.drivers e).slot = m.bars (m.drivers e).slot)
    (driver : m'.drivers e = m.drivers e) (reaching : Reaching bus m e) : Reaching bus m' e := by
  constructor
  · rw [driver]
    exact reaching.slot
  · rw [driver, startsAt, bars]
    exact reaching.starts

theorem inv_of_worked (inv : Inv bus memory m) (owns : Owns bus m d) (worked : Worked d m m')
    (sound : Sound memory m') : Inv bus memory m' := by
  have others : ∀ e, m'.ready e = true → e ≠ d ∧ m.ready e = true := by
    intro e is
    rw [worked.ready] at is
    exact ⟨fun same => absurd (same ▸ is) (by rw [owns.idle]; decide), is⟩
  constructor
  · exact sound
  · exact placed_of_same worked.assign worked.bars inv.placed
  · intro e is
    obtain ⟨other, was⟩ := others e is
    exact reaching_of_same (by rw [worked.bars]) (worked.drivers e other) (inv.reaching e was)
  · intro e is
    obtain ⟨other, was⟩ := others e is
    exact up_of_worked other (owns.free e was) worked (inv.up e was)
  · intro e is
    obtain ⟨other, was⟩ := others e is
    rw [worked.drivers e other]
    exact inv.matched e was
  · intro i
    rw [worked.ready, worked.inputs]
    exact inv.inputs i
  · intro e f he hf same
    obtain ⟨notE, wasE⟩ := others e he
    obtain ⟨notF, wasF⟩ := others f hf
    rw [worked.drivers e notE, worked.drivers f notF] at same
    exact inv.exclusive e f wasE wasF same
  · intro k nobody
    have other : k ≠ (m.drivers d).slot := by
      rintro rfl
      exact absurd (nobody d) (by rw [owns.matched]; decide)
    rw [worked.traces k other]
    exact inv.untouched k nobody

theorem claim_driver : ((claim bus d slot m).drivers d).slot = slot := by
  simp [claim, setDriver]

theorem claim_other (bus : Bus) (slot : Nat) (m : Machine) (other : e ≠ d) : (claim bus d slot m).drivers e = m.drivers e :=
  Function.update_of_ne other _ _

theorem ready_other (idle : m.ready d = false) (is : m.ready e = true) : e ≠ d := by
  rintro rfl
  exact absurd is (by rw [idle]; decide)

theorem claim_inv (inv : Inv bus memory m) (idle : m.ready d = false)
    (free : ∀ e, m.ready e = true → (m.drivers e).slot ≠ slot) (sound : BarsSound (claim bus d slot m).assign) :
    Inv bus memory (claim bus d slot m) := by
  constructor
  · exact ⟨inv.sound.next, inv.sound.traces⟩
  · exact claim_placed inv.placed sound
  · intro e is
    exact reaching_of_same (claim_bars_other bus d m (free e is)) (claim_other bus slot m (ready_other idle is))
      (inv.reaching e is)
  · intro e is
    obtain ⟨s, follows, drives, agreed⟩ := inv.up e is
    have same := claim_other bus slot m (ready_other idle is)
    exact ⟨s, by rw [same]; exact follows, drives, by rw [Agreed, same]; exact agreed⟩
  · intro e is
    rw [claim_other bus slot m (ready_other idle is)]
    exact inv.matched e is
  · exact inv.inputs
  · intro e f he hf same
    rw [claim_other bus slot m (ready_other idle he), claim_other bus slot m (ready_other idle hf)] at same
    exact inv.exclusive e f he hf same
  · exact inv.untouched

theorem claim_owns (idle : m.ready d = false) (inside : slot < 32) (matched : isDevice bus (wishes d).ids slot = true)
    (free : ∀ e, m.ready e = true → (m.drivers e).slot ≠ slot) : Owns bus (claim bus d slot m) d where
  idle := idle
  inside := by rwa [claim_driver]
  matched := by rwa [claim_driver]
  free := by
    intro e is
    rw [claim_driver, claim_other bus slot m (ready_other idle is)]
    exact free e is

/-- Bringing up a device of its own disturbs no other driver. -/
theorem bring_up_inv (announced : Announced bus) (inv : Inv bus memory m) (idle : m.ready d = false) (inside : slot < 32)
    (matched : isDevice bus (wishes d).ids slot = true) (free : ∀ e, m.ready e = true → (m.drivers e).slot ≠ slot)
    (done : bringUp bus memory d (claim bus d slot m) = some (r, m')) (fits : BarsSound m'.assign) :
    Inv bus memory m' ∧ Owns bus m' d ∧ m'.ready = m.ready ∧ m'.inputCount = m.inputCount ∧
      (¬ r < 0 → Up m' d ∧ Reaching bus m' d) := by
  rw [bring_up_assign done] at fits
  have claimed := claim_inv inv idle free fits
  have owns := claim_owns idle inside matched free
  obtain ⟨worked, sound, up⟩ := bring_up_spec claimed.sound claimed.placed owns.inside
    (fun _ _ caps content => by
      rw [claim_driver] at caps ⊢
      exact parsed_starts announced inv.placed fits matched caps content) done
  have ready : m'.ready = m.ready := worked.ready
  refine ⟨inv_of_worked claimed owns worked sound, ?_, ready, worked.inputs, up⟩
  refine ⟨by rw [ready, idle], by rw [worked.slot]; exact owns.inside, by rw [worked.slot]; exact owns.matched, ?_⟩
  intro e is
  rw [ready] at is
  rw [worked.slot, worked.drivers e (ready_other idle is)]
  exact owns.free e is

theorem become_ready {count : Nat} (inv : Inv bus memory m) (owns : Owns bus m d) (up : Up m d) (reaching : Reaching bus m d)
    (inputs : ∀ i, Function.update m.ready d true (.input i) = true ↔ i < count) :
    Inv bus memory { setReady m d true with inputCount := count } := by
  have split : ∀ e, Function.update m.ready d true e = true → e = d ∨ m.ready e = true := by
    intro e is
    by_cases same : e = d
    · exact .inl same
    · exact .inr (by rwa [Function.update_of_ne same] at is)
  constructor
  · exact ⟨inv.sound.next, inv.sound.traces⟩
  · exact ⟨inv.placed.tracks, inv.placed.given, inv.placed.apart⟩
  · intro e is
    rcases split e is with rfl | was
    · exact ⟨reaching.slot, reaching.starts⟩
    · exact ⟨(inv.reaching e was).slot, (inv.reaching e was).starts⟩
  · intro e is
    rcases split e is with rfl | was
    · exact up
    · exact inv.up e was
  · intro e is
    rcases split e is with rfl | was
    · exact owns.matched
    · exact inv.matched e was
  · exact inputs
  · intro e f he hf same
    rcases split e he with rfl | wasE <;> rcases split f hf with rfl | wasF
    · rfl
    · exact absurd same.symm (owns.free f wasF)
    · exact absurd same (owns.free e wasE)
    · exact inv.exclusive e f wasE wasF same
  · exact inv.untouched

theorem unready_inv (inv : Inv bus memory m) (other : isInput d = false) : Inv bus memory (setReady m d false) := by
  have was : ∀ e, Function.update m.ready d false e = true → m.ready e = true := by
    intro e is
    by_cases same : e = d
    · rw [same, Function.update_self] at is
      cases is
    · rwa [Function.update_of_ne same] at is
  constructor
  · exact ⟨inv.sound.next, inv.sound.traces⟩
  · exact ⟨inv.placed.tracks, inv.placed.given, inv.placed.apart⟩
  · exact fun e is => ⟨(inv.reaching e (was e is)).slot, (inv.reaching e (was e is)).starts⟩
  · exact fun e is => inv.up e (was e is)
  · exact fun e is => inv.matched e (was e is)
  · intro i
    have apart : Driver.input i ≠ d := by
      rintro rfl
      cases other
    show Function.update m.ready d false (.input i) = true ↔ i < m.inputCount
    rw [Function.update_of_ne apart]
    exact inv.inputs i
  · exact fun e f he hf => inv.exclusive e f (was e he) (was f hf)
  · exact inv.untouched

theorem virtio_init_inv {last : Int} (announced : Announced bus) (inv : Inv bus memory m) (single : isInput d = false)
    (done : virtioInit bus memory d last m = some (r, m')) (fits : BarsSound m'.assign) :
    Inv bus memory m' ∧ (r = 0 → m'.ready d = true) := by
  unfold virtioInit at done
  split at done
  next =>
    cases done
    exact ⟨inv, fun no => absurd no (by decide)⟩
  next slot found =>
    have matched : isDevice bus (wishes d).ids slot = true := List.find?_some found
    have inside : slot < 32 := List.mem_range.mp (List.mem_of_find?_eq_some found)
    have idle : (setReady m d false).ready d = false := Function.update_self ..
    have free : ∀ e, (setReady m d false).ready e = true → ((setReady m d false).drivers e).slot ≠ slot := by
      rintro e is rfl
      have device := (unready_inv inv single).matched e is
      rcases same_device device matched with same | ⟨-, input⟩
      · exact ready_other idle is same
      · exact absurd input (by rw [single]; decide)
    split at done
    next => cases done
    next q n brought =>
      have same : m'.assign = n.assign := by
        split at done <;> (cases done; rfl)
      obtain ⟨inv', owns, ready, count, up⟩ := bring_up_inv announced (unready_inv inv single) idle inside matched free
        brought (same ▸ fits)
      split at done
      next =>
        cases done
        exact ⟨inv', fun no => absurd no (by decide)⟩
      next went =>
        cases done
        by_cases is : r = 0
        · rw [is]
          refine ⟨become_ready inv' owns (up went).1 (up went).2 ?_, fun _ => Function.update_self ..⟩
          intro i
          rw [Function.update_of_ne (by rintro rfl; cases single)]
          exact inv'.inputs i
        · rw [decide_eq_false is]
          exact ⟨unready_inv inv' single, fun no => absurd no is⟩

theorem try_input_inv {taken : Bool} (announced : Announced bus) (inv : Inv bus memory m) (inside : slot < 32)
    (done : tryInput bus memory slot m = some (taken, m')) (fits : BarsSound m'.assign) : Inv bus memory m' := by
  unfold tryInput at done
  dsimp only at done
  split at done
  next fresh =>
    obtain ⟨matched, unclaimed⟩ := fresh
    have idle : m.ready (.input m.inputCount) = false := by
      have behind : ¬ m.ready (.input m.inputCount) = true := fun is =>
        Nat.lt_irrefl _ ((inv.inputs m.inputCount).mp is)
      exact Bool.eq_false_of_not_eq_true behind
    have free : ∀ e, m.ready e = true → (m.drivers e).slot ≠ slot := by
      intro e is same
      have device := inv.matched e is
      rw [same] at device
      cases e with
      | input i =>
        have member : i ∈ List.range m.inputCount := List.mem_range.mpr ((inv.inputs i).mp is)
        exact unclaimed (List.any_eq_true.mpr ⟨i, member, decide_eq_true same⟩)
      | rng | blk | net | gpu => exact absurd (same_device (d := .input 0) matched device) (by simp [isInput])
    split at done
    next => cases done
    next q n brought =>
      have same : m'.assign = n.assign := by
        split at done <;> (cases done; rfl)
      obtain ⟨inv', owns, ready, count, up⟩ := bring_up_inv announced inv idle inside matched free brought (same ▸ fits)
      split at done
      next =>
        cases done
        exact inv'
      next went =>
        cases done
        refine become_ready inv' owns (up went).1 (up went).2 fun i => ?_
        rw [ready, count]
        by_cases same : i = m.inputCount
        · rw [same, Function.update_self]
          exact ⟨fun _ => Nat.lt_succ_self _, fun _ => rfl⟩
        · rw [Function.update_of_ne (fun is => same (Driver.input.inj is)), inv.inputs i]
          omega
  next =>
    cases done
    exact inv

theorem find_and_init_input_inv {found : Option Nat} {slots : List Nat} (announced : Announced bus)
    (inv : Inv bus memory m) (inside : ∀ slot ∈ slots, slot < 32)
    (done : findAndInitInput bus memory slots m = some (found, m')) (fits : BarsSound m'.assign) : Inv bus memory m' := by
  induction slots generalizing m with
  | nil =>
    cases done
    exact inv
  | cons slot rest ih =>
    unfold findAndInitInput at done
    split at done
    next => cases done
    next taken n tried =>
      have here := inside slot (List.mem_cons_self ..)
      split at done
      next =>
        cases done
        exact try_input_inv announced inv here tried fits
      next =>
        have inv' := try_input_inv announced inv here tried (grown_sound (find_and_init_input_grown done) fits)
        exact ih inv' (fun k member => inside k (List.mem_cons_of_mem _ member)) done

theorem slots_inside {start : Nat} : ∀ slot ∈ List.range' start (32 - start), slot < 32 := by
  intro slot member
  rw [List.mem_range'_1] at member
  omega

theorem input_rounds_inv {rounds start : Nat} (announced : Announced bus) (inv : Inv bus memory m)
    (done : inputRounds bus memory rounds start m = some m') (fits : BarsSound m'.assign) : Inv bus memory m' := by
  induction rounds generalizing start m with
  | zero =>
    cases done
    exact inv
  | succ rounds ih =>
    unfold inputRounds at done
    split at done
    next =>
      split at done
      next => cases done
      next n found =>
        cases done
        exact find_and_init_input_inv announced inv slots_inside found fits
      next start' n found =>
        have before := grown_sound (input_rounds_grown done) fits
        exact ih (find_and_init_input_inv announced inv slots_inside found before) done
    next =>
      cases done
      exact inv

theorem forget_inputs_inv (inv : Inv bus memory m) : Inv bus memory (forgetInputs m) := by
  have was : ∀ e, (forgetInputs m).ready e = true → m.ready e = true := by
    intro e is
    cases e with
    | input i => cases is
    | rng | blk | net | gpu => exact is
  constructor
  · exact ⟨inv.sound.next, inv.sound.traces⟩
  · exact ⟨inv.placed.tracks, inv.placed.given, inv.placed.apart⟩
  · exact fun e is => ⟨(inv.reaching e (was e is)).slot, (inv.reaching e (was e is)).starts⟩
  · exact fun e is => inv.up e (was e is)
  · exact fun e is => inv.matched e (was e is)
  · exact fun i => ⟨fun is => absurd is (by simp [forgetInputs]), fun lt => absurd lt (Nat.not_lt_zero i)⟩
  · exact fun e f he hf => inv.exclusive e f (was e he) (was f hf)
  · exact inv.untouched

end System

def Reported (c : Call) (r : Int) (m : Machine) : Prop :=
  match c with
  | .rng => r = 0 → m.ready .rng = true
  | .blk => r = 0 → m.ready .blk = true
  | .net => r = 0 → m.ready .net = true
  | .gpu _ => r = 0 → m.ready .gpu = true
  | .inputs => ∀ i : Nat, i < r → m.ready (.input i) = true

def initStep (bus : Bus) (memory : RingMemory) (m : Machine) (c : Call) : Option Machine :=
  (call bus memory m c).map Prod.snd

/-- What holds of the devices and their drivers whatever was called. -/
structure BroughtUp (bus : Bus) (memory : RingMemory) (m : Machine) : Prop where
  order : ∀ slot, ∃ s, Follows (m.traces slot) s
  separate : m.given.length ≤ virtqMaxQueues → ∀ slot k s s', Follows (m.traces slot) s → Follows (m.traces k) s' →
    ∀ l ∈ s.live, ∀ l' ∈ s'.live, (slot, l.index) ≠ (k, l'.index) → ∀ e ∈ l.ranges, ∀ f ∈ l'.ranges, e.Apart f
  placed : m.given.length ≤ virtqMaxQueues → ∀ slot s, Follows (m.traces slot) s →
    ∀ l ∈ s.live, (∃ n, InSlot memory n l) ∧ l.ranges.Pairwise Range.Apart
  driven : ∀ d, m.ready d = true → isDevice bus (wishes d).ids (m.drivers d).slot = true ∧ Up m d
  reached : ∀ d, m.ready d = true → commonAt bus m.bars (m.drivers d).vpci.commonCfg = some (m.drivers d).slot
  exclusive : ∀ d e, m.ready d = true → m.ready e = true → (m.drivers d).slot = (m.drivers e).slot → d = e
  untouched : ∀ slot, (∀ d, isDevice bus (wishes d).ids slot = false) → m.traces slot = []

section Runs
variable {bus : Bus} {memory : RingMemory} {m m' : Machine} {c : Call} {r : Int}

theorem call_inv (announced : Announced bus) (inv : Inv bus memory m) (done : call bus memory m c = some (r, m'))
    (fits : BarsSound m'.assign) :
    Inv bus memory m' ∧ Reported c r m' := by
  cases c with
  | rng =>
    rw [call, virtioRngInit] at done
    exact virtio_init_inv announced inv rfl done fits
  | blk =>
    rw [call, virtioBlkInit] at done
    exact virtio_init_inv announced inv rfl done fits
  | net =>
    rw [call, virtioNetInit] at done
    exact virtio_init_inv announced inv rfl done fits
  | gpu answers =>
    rw [call, virtioGpuInit] at done
    exact virtio_init_inv announced inv rfl done fits
  | inputs =>
    obtain ⟨n, rounds, result⟩ := Option.map_eq_some_iff.mp done
    cases result
    have inv' := input_rounds_inv announced (forget_inputs_inv inv) rounds fits
    exact ⟨inv', fun i lt => (inv'.inputs i).mpr (Int.ofNat_lt.mp lt)⟩

theorem booted_inv (start : Booted m) : Inv bus memory m := by
  have none : ∀ d, ¬ m.ready d = true := fun d is => absurd is (by rw [start.ready]; decide)
  constructor
  · refine ⟨by rw [start.next, start.given]; rfl, fun slot => ⟨freshSession, ?_, held_empty rfl⟩⟩
    rw [start.traces]
    rfl
  · exact booted_placed start
  · exact fun d is => absurd is (none d)
  · exact fun d is => absurd is (none d)
  · exact fun d is => absurd is (none d)
  · exact fun i => ⟨fun is => absurd is (none _), fun lt => absurd lt (by rw [start.inputs]; exact Nat.not_lt_zero i)⟩
  · exact fun d _ is => absurd is (none d)
  · exact fun slot _ => start.traces slot

theorem inv_brought_up (inv : Inv bus memory m) : BroughtUp bus memory m where
  order := fun slot => (inv.sound.traces slot).imp fun _ h => h.1
  separate := by
    intro few slot k s s' follows follows' l hl l' hl' other
    obtain ⟨u, same, held⟩ := inv.sound.traces slot
    obtain ⟨v, same', held'⟩ := inv.sound.traces k
    obtain rfl := follows_unique same follows
    obtain rfl := follows_unique same' follows'
    obtain ⟨n, asked, inSlot⟩ := held.rings l hl
    obtain ⟨n', asked', inSlot'⟩ := held'.rings l' hl'
    refine slots_apart (inSlot few) (inSlot' few) ?_
    rintro rfl
    exact other (Option.some.inj (asked.symm.trans asked'))
  placed := by
    intro few slot s follows l hl
    obtain ⟨u, same, held⟩ := inv.sound.traces slot
    obtain rfl := follows_unique same follows
    obtain ⟨n, asked, inSlot⟩ := held.rings l hl
    exact ⟨⟨n, inSlot few⟩, queue_apart (inSlot few)⟩
  driven := fun d is => ⟨inv.matched d is, inv.up d is⟩
  reached := fun d is => common_at_own inv.placed (inv.reaching d is).slot (inv.reaching d is).starts
  exclusive := inv.exclusive
  untouched := inv.untouched

theorem run_inv (announced : Announced bus) (run : Reaches Booted (Taken (initStep bus memory)) m) :
    BarsSound m.assign → Inv bus memory m := by
  refine reaches_invariant (fun m => BarsSound m.assign → Inv bus memory m) (fun _ start _ => booted_inv start) ?_ run
  intro s t c inv taken fits
  obtain ⟨⟨r, n⟩, done, rfl⟩ := Option.map_eq_some_iff.mp taken
  exact (call_inv announced (inv (grown_sound (call_grown done) fits)) done fits).1

end Runs

theorem devices_brought_up (bus : Bus) (memory : RingMemory) (announced : Announced bus) (m : Machine)
    (run : Reaches Booted (Taken (initStep bus memory)) m) (fits : BarsSound m.assign) :
    BroughtUp bus memory m ∧
      ∀ c r m', call bus memory m c = some (r, m') → BarsSound m'.assign →
        BroughtUp bus memory m' ∧ Reported c r m' := by
  have inv := run_inv announced run fits
  refine ⟨inv_brought_up inv, fun c r m' done fits' => ?_⟩
  obtain ⟨after, reported⟩ := call_inv announced inv done fits'
  exact ⟨inv_brought_up after, reported⟩

def plainConfig (id : Nat) : Config := fun i =>
  BitVec.ofNat 8 (([(0, 0xF4), (1, 0x1A), (2, id % 256), (3, id / 256), (0x34, 0x40), (0x40, 9), (0x41, 0x50),
    (0x43, 1), (0x50, 9), (0x51, 0x64), (0x53, 2), (0x59, 0x30), (0x60, 4), (0x64, 9), (0x65, 0x74), (0x67, 3),
    (0x74, 9), (0x77, 4), (0x7D, 0x20)] : List (Nat × Nat)).lookup i |>.getD 0)

def lastStatus (t : Trace) : Nat :=
  (t.filterMap fun
    | .write .status v => some v
    | _ => none).getLastD 0

/-- An entropy device and a network device that agree to everything, with queues of eight. -/
def twoDevices : Bus where
  config slot := if slot = 1 then plainConfig 0x1044 else if slot = 2 then plainConfig 0x1041 else fun _ => 0xFF
  probes _ i := if i = 0 then .mem32 false 14 (by decide) (by decide) else .absent false
  common _ := [(0, 0)]
  device _ t
    | .status => lastStatus t
    | .df => 33
    | .qSize => 8
    | _ => 0
  rounds := 2

theorem two_devices_announced : Announced twoDevices := by
  intro slot d matched off _ vendor kind
  have vendorId := (of_decide_eq_true matched).1
  have one : ∀ off : PciDevices.Byte, (IsVendor (plainConfig 0x1044) off ∨ IsVendor (plainConfig 0x1041) off) →
      (capType (plainConfig 0x1044) off = 1 ∨ capType (plainConfig 0x1041) off = 1) → off = 0x40 := by decide +kernel
  have known : (twoDevices.config slot = plainConfig 0x1044 ∨ twoDevices.config slot = plainConfig 0x1041) := by
    simp only [twoDevices] at vendorId ⊢
    split at vendorId
    next => exact .inl (if_pos ‹_›)
    next first =>
      split at vendorId
      next => exact .inr ((if_neg first).trans (if_pos ‹_›))
      next => exact absurd vendorId (by decide)
  have size : ∀ r ∈ (twoDevices.probes slot 0).requests, 0 + commonCfgBytes ≤ r.size := by
    intro r member
    rw [List.mem_singleton.mp member]
    decide
  rcases known with same | same
  · rw [same] at vendor kind ⊢
    rw [one off (.inl vendor) (.inl kind)]
    exact ⟨by decide, List.mem_singleton_self _, size⟩
  · rw [same] at vendor kind ⊢
    rw [one off (.inr vendor) (.inr kind)]
    exact ⟨by decide, List.mem_singleton_self _, size⟩

def plainMemory : RingMemory where
  descs := 0xFFFFFF8040100000
  availBufs := 0xFFFFFF8040110000
  usedBufs := 0xFFFFFF8040112060
  high := by decide
  fits := by decide
  apart := by
    simp only [List.pairwise_cons, List.mem_cons, List.not_mem_nil, or_false, forall_eq_or_imp, forall_eq, Range.Apart,
      List.Pairwise.nil, false_imp_iff, implies_true, and_true]
    decide

def plainBoot : Machine where
  assign := assignStart
  bars _ := []
  commands _ := 0
  traces _ := []
  next := 0
  drivers _ := ⟨0, 0, 0, 0, assignStart.dev, ⟨0, 0, 0, 0, 0⟩, fun _ => ⟨Virtqueues.virtqueueInit 0 0, 0, 0, 0, 0, 0⟩⟩
  inputCount := 0
  ready _ := false
  given := []

/-- There is no block device; the network device and the entropy device come up, each behind its own address. -/
theorem devices_brought_up_two : ∃ m : Machine, Reaches Booted (Taken (initStep twoDevices plainMemory)) m ∧
    m.ready .rng = true ∧ m.ready .net = true ∧ m.given = [(2, 0), (2, 1), (1, 0)] ∧
      BroughtUp twoDevices plainMemory m := by
  let placed : List (BarKind × Range) := [(.mem, ⟨0x11000000, 0x4000⟩), (.mem, ⟨0x11004000, 0x4000⟩)]
  have look : (runActions (initStep twoDevices plainMemory) plainBoot [.blk, .net, .rng]).any
      (fun m => decide (m.ready .rng = true ∧ m.ready .net = true ∧ m.given = [(2, 0), (2, 1), (1, 0)] ∧
        m.assign.ranges = placed)) = true := by
    decide +kernel
  obtain ⟨m, done, found⟩ := (Option.any_eq_true _ _).mp look
  have start : Booted plainBoot := ⟨rfl, fun _ => rfl, fun _ => rfl, rfl, rfl, fun _ => rfl, rfl⟩
  have run := reaches_of_actions (Reaches.start start) done
  obtain ⟨rng, net, given, ranges⟩ := of_decide_eq_true found
  have fits : BarsSound m.assign := by
    rw [BarsSound, ranges]
    refine ⟨?_, ?_, ?_⟩
    · decide
    · decide
    · exact List.pairwise_pair.mpr (.inl (Nat.le_refl _))
  exact ⟨m, run, rng, net, given, (devices_brought_up twoDevices plainMemory two_devices_announced m run fits).1⟩

end Archarch.BringUp
