import Archarch.Devices.BringUp

/- A driver that was given addresses for its device reaches this device through them, while what the
   devices ask for fits into the windows. -/
namespace Archarch.BringUp
open ExtentLayout BumpAllocation Transport
open PciDevices (BarKind BarsSound VirtioPciDev Tracks barWindows barRounds requestRounds capRegion virtioPciParseCaps
  tracks_start call_serves assign_rounds_ranges assign_rounds_address parse_caps_common)
open KernelHeap (kernVaOffset)

/-- The BARs are where the allocator put them, those of two devices apart. -/
structure Placed (m : Machine) : Prop where
  tracks : ∃ next, Tracks m.assign next
  given : ∀ k, ∀ bar ∈ m.bars k, bar.2 ∈ m.assign.ranges
  apart : ∀ k l, k ≠ l → ∀ e ∈ m.bars k, ∀ f ∈ m.bars l, e.2.2.Apart f.2.2

def Grown (m m' : Machine) : Prop := ∃ more, m'.assign.ranges = m.assign.ranges ++ more

section Access
variable {bus : Bus} {m m' m'' : Machine} {d : Driver} {slot a j : Nat}

theorem grown_of_same (same : m'.assign = m.assign) : Grown m m' := ⟨[], by rw [same, List.append_nil]⟩

theorem grown_trans (first : Grown m m') (second : Grown m' m'') : Grown m m'' := by
  obtain ⟨more, one⟩ := first
  obtain ⟨rest, two⟩ := second
  exact ⟨more ++ rest, by rw [two, one, List.append_assoc]⟩

theorem grown_sound (grown : Grown m m') (sound : BarsSound m'.assign) : BarsSound m.assign := by
  obtain ⟨more, same⟩ := grown
  rw [BarsSound, same] at sound
  exact sound_of_append sound

theorem placed_of_same (assign : m'.assign = m.assign) (bars : m'.bars = m.bars) (placed : Placed m) : Placed m' where
  tracks := assign ▸ placed.tracks
  given := by
    rw [assign, bars]
    exact placed.given
  apart := bars ▸ placed.apart

theorem booted_placed (start : Booted m) : Placed m where
  tracks := ⟨_, start.assign ▸ tracks_start⟩
  given := fun k bar member => absurd member (by rw [start.bars]; exact List.not_mem_nil)
  apart := fun k _ _ e member => absurd member (by rw [start.bars]; exact List.not_mem_nil)

theorem claim_grown (bus : Bus) (d : Driver) (slot : Nat) (m : Machine) : Grown m (claim bus d slot m) :=
  (call_serves m.assign ((m.drivers d).pci, bus.probes slot)).kept

theorem claim_bars (bus : Bus) (d : Driver) (slot : Nat) (m : Machine) : (claim bus d slot m).bars slot =
    barRounds (bus.probes slot) (claim bus d slot m).assign.dev 6 0 :=
  Function.update_self ..

theorem claim_bars_other (bus : Bus) (d : Driver) (m : Machine) {k : Nat} (other : k ≠ slot) :
    (claim bus d slot m).bars k = m.bars k :=
  Function.update_of_ne other _ _

theorem claim_ranges (bus : Bus) (d : Driver) (slot : Nat) (m : Machine) :
    (claim bus d slot m).assign.ranges = m.assign.ranges ++ ((claim bus d slot m).bars slot).map Prod.snd := by
  rw [claim_bars]
  exact assign_rounds_ranges (bus.probes slot) 6 0 { m.assign with dev := (m.drivers d).pci }

theorem claim_fits {next : BarKind → Nat} (tracks : Tracks m.assign next)
    (sound : BarsSound (claim bus d slot m).assign) :
    AllFit barWindows.limit next (requestRounds (bus.probes slot) 6 0) :=
  (serves_sound_iff (call_serves m.assign ((m.drivers d).pci, bus.probes slot))
    (fun _ _ tracks => filled_sound tracks.filled) tracks).mp sound

theorem claim_placed (placed : Placed m) (sound : BarsSound (claim bus d slot m).assign) :
    Placed (claim bus d slot m) := by
  obtain ⟨next, tracks⟩ := placed.tracks
  have ranges := claim_ranges bus d slot m
  have crossed : ∀ e ∈ (claim bus d slot m).bars slot, ∀ k, k ≠ slot → ∀ f ∈ m.bars k, f.2.2.Apart e.2.2 := by
    intro e he k other f hf
    have apart := sound.apart
    rw [ranges] at apart
    exact (List.pairwise_append.mp apart).2.2 _ (placed.given k f hf) _ (List.mem_map_of_mem he)
  constructor
  · exact ⟨_, (call_serves m.assign ((m.drivers d).pci, bus.probes slot)).follows next tracks (claim_fits tracks sound)⟩
  · intro k bar member
    rw [ranges, List.mem_append]
    by_cases own : k = slot
    · exact .inr (List.mem_map_of_mem (own ▸ member))
    · rw [claim_bars_other bus d m own] at member
      exact .inl (placed.given k bar member)
  · intro k l different e he f hf
    by_cases first : k = slot
    · subst first
      rw [claim_bars_other bus d m different.symm] at hf
      exact apart_symm (crossed e he l different.symm f hf)
    · rw [claim_bars_other bus d m first] at he
      by_cases second : l = slot
      · subst second
        exact crossed f hf k first e he
      · rw [claim_bars_other bus d m second] at hf
        exact placed.apart k l different e he f hf

theorem claim_address (placed : Placed m) (sound : BarsSound (claim bus d slot m).assign) (inside : j < 6)
    (assigned : ((claim bus d slot m).drivers d).pci.barAddr j ≠ 0) :
    ∃ bar ∈ (claim bus d slot m).bars slot, bar.1 = j ∧
      (((claim bus d slot m).drivers d).pci.barAddr j).toNat = bar.2.2.base + kernVaOffset ∧
      ∃ r ∈ (bus.probes slot j).requests, bar.2.2.len = r.size := by
  obtain ⟨next, tracks⟩ := placed.tracks
  have own : ((claim bus d slot m).drivers d).pci = (claim bus d slot m).assign.dev := by
    simp only [claim, setDriver, Function.update_self]
  have entered : Tracks { m.assign with dev := (m.drivers d).pci } next :=
    ⟨tracks.mem, tracks.io, tracks.moved, tracks.filled⟩
  rw [own] at assigned ⊢
  rw [claim_bars]
  exact assign_rounds_address entered (claim_fits tracks sound) (Nat.zero_le j) inside (Nat.le_refl 6) assigned

theorem starts_once (placed : Placed m) {k l : Nat} (first : startsAt bus m.bars a k = true)
    (second : startsAt bus m.bars a l = true) : k = l := by
  by_contra different
  obtain ⟨p, -, e, he, here⟩ := by simpa only [startsAt, List.any_eq_true, decide_eq_true_eq] using first
  obtain ⟨q, -, f, hf, there⟩ := by simpa only [startsAt, List.any_eq_true, decide_eq_true_eq] using second
  have none := apart_no_common (placed.apart k l different e he f hf) (e.2.2.base + p.2)
  simp only [Range.Has, commonCfgBytes] at none here there
  omega

theorem common_at_own (placed : Placed m) (inside : slot < 32) (starts : startsAt bus m.bars a slot = true) :
    commonAt bus m.bars a = some slot := by
  unfold commonAt
  cases found : (List.range 32).find? (startsAt bus m.bars a) with
  | none => exact absurd starts (List.find?_eq_none.mp found slot (List.mem_range.mpr inside))
  | some k => rw [starts_once placed (List.find?_some found) starts]

/-- The address that the walk over the capabilities of the device finds is one of its own. -/
theorem parsed_starts {r : Int} {vpci after : VirtioPciDev} (announced : Announced bus) (placed : Placed m)
    (sound : BarsSound (claim bus d slot m).assign) (matched : isDevice bus (wishes d).ids slot = true)
    (done : virtioPciParseCaps (bus.config slot)
      (fun i => (((claim bus d slot m).drivers d).pci.barAddr i).toNat) vpci = some (r, after))
    (content : ¬ r < 0) : startsAt bus (claim bus d slot m).bars after.commonCfg slot = true := by
  obtain ⟨off, listed, ⟨-, vendor, kind, assigned⟩, address⟩ := parse_caps_common done content
  obtain ⟨inside, known, whole⟩ := announced slot d matched off listed vendor kind
  obtain ⟨bar, member, register, base, r, request, size⟩ := claim_address placed sound inside
    fun zero => assigned (congrArg BitVec.toNat zero)
  have fits := whole r request
  have within : bar.2.2.base + bar.2.2.len ≤ 0x3F000000 := by
    have ends := (sound.inside _ ((claim_placed placed sound).given slot bar member)).2
    have limit : ∀ k, barWindows.limit k ≤ 0x3F000000 := by
      intro k
      cases k <;> decide
    exact Nat.le_trans ends (limit _)
  simp only [startsAt, List.any_eq_true, decide_eq_true_eq]
  refine ⟨_, known, bar, member, register, size ▸ fits, ?_⟩
  rw [address, capRegion, base]
  have offset : kernVaOffset = 0xFFFFFF8000000000 := rfl
  rw [Nat.mod_eq_of_lt (by simp only [commonCfgBytes] at fits; omega)]
  omega

end Access
/- The init functions place BARs with claim only. -/

section Growth
variable {bus : Bus} {memory : RingMemory} {m m' : Machine} {d : Driver} {r : Int} {slot rounds start : Nat}

theorem setup_queues_assign (bus : Bus) (memory : RingMemory) (d : Driver) (common : Nat) (list : List (Nat × Nat))
    (m : Machine) : (setupQueues bus memory d common list m).2.assign = m.assign := by
  induction list generalizing m with
  | nil => rfl
  | cons p rest ih =>
    obtain ⟨index, size⟩ := p
    have here : (setupQueue bus memory d common index size m).2.assign = m.assign := rfl
    rw [setupQueues]
    generalize setupQueue bus memory d common index size m = answer at here
    obtain ⟨q, n⟩ := answer
    dsimp only at here ⊢
    split
    · exact here
    · exact (ih n).trans here

theorem drive_device_assign (bus : Bus) (memory : RingMemory) (d : Driver) (common : Nat) (m : Machine) :
    (driveDevice bus memory d common m).2.assign = m.assign := by
  have queues := setup_queues_assign bus memory d common (wishes d).queues m
  unfold driveDevice
  generalize setupQueues bus memory d common (wishes d).queues m = answer at queues
  obtain ⟨q, n⟩ := answer
  dsimp only at queues ⊢
  split
  · exact queues
  · exact queues

theorem bring_up_assign (done : bringUp bus memory d m = some (r, m')) : m'.assign = m.assign := by
  unfold bringUp at done
  dsimp only at done
  split at done
  next => cases done
  next parsed vpci caps =>
    split at done
    next =>
      cases done
      rfl
    next =>
      split at done
      next => cases done
      next common found =>
        split at done
        next => cases done
        next agreed t init =>
          split at done
          next =>
            cases done
            rfl
          next =>
            split at done
            next =>
              cases done
              rfl
            next =>
              have driven := drive_device_assign bus memory d common
                (setTrace (setDriver m d { m.drivers d with vpci := vpci }) common t)
              rw [Option.some.inj done] at driven
              exact driven

theorem virtio_init_grown {last : Int} (done : virtioInit bus memory d last m = some (r, m')) : Grown m m' := by
  unfold virtioInit at done
  split at done
  next =>
    cases done
    exact grown_of_same rfl
  next slot found =>
    split at done
    next => cases done
    next q n brought =>
      have grown := grown_trans (claim_grown bus d slot (setReady m d false)) (grown_of_same (bring_up_assign brought))
      split at done
      next =>
        cases done
        exact grown
      next =>
        cases done
        exact grown

theorem try_input_grown {taken : Bool} (done : tryInput bus memory slot m = some (taken, m')) : Grown m m' := by
  unfold tryInput at done
  dsimp only at done
  split at done
  next =>
    split at done
    next => cases done
    next q n brought =>
      have grown := grown_trans (claim_grown bus (.input m.inputCount) slot m) (grown_of_same (bring_up_assign brought))
      split at done
      next =>
        cases done
        exact grown
      next =>
        cases done
        exact grown
  next =>
    cases done
    exact grown_of_same rfl

theorem find_and_init_input_grown {found : Option Nat} {slots : List Nat}
    (done : findAndInitInput bus memory slots m = some (found, m')) : Grown m m' := by
  induction slots generalizing m with
  | nil =>
    cases done
    exact grown_of_same rfl
  | cons slot rest ih =>
    unfold findAndInitInput at done
    split at done
    next => cases done
    next taken n tried =>
      have grown := try_input_grown tried
      split at done
      next =>
        cases done
        exact grown
      next => exact grown_trans grown (ih done)

theorem input_rounds_grown (done : inputRounds bus memory rounds start m = some m') : Grown m m' := by
  induction rounds generalizing start m with
  | zero =>
    cases done
    exact grown_of_same rfl
  | succ rounds ih =>
    unfold inputRounds at done
    split at done
    next =>
      split at done
      next => cases done
      next n found =>
        cases done
        exact find_and_init_input_grown found
      next start' n found => exact grown_trans (find_and_init_input_grown found) (ih done)
    next =>
      cases done
      exact grown_of_same rfl

theorem call_grown {c : Call} (done : call bus memory m c = some (r, m')) : Grown m m' := by
  cases c with
  | rng =>
    rw [call, virtioRngInit] at done
    exact virtio_init_grown done
  | blk =>
    rw [call, virtioBlkInit] at done
    exact virtio_init_grown done
  | net =>
    rw [call, virtioNetInit] at done
    exact virtio_init_grown done
  | gpu answers =>
    rw [call, virtioGpuInit] at done
    exact virtio_init_grown done
  | inputs =>
    obtain ⟨n, rounds, result⟩ := Option.map_eq_some_iff.mp done
    cases result
    have forgotten : Grown m (forgetInputs m) := grown_of_same rfl
    exact grown_trans forgotten (input_rounds_grown rounds)

end Growth
end Archarch.BringUp
