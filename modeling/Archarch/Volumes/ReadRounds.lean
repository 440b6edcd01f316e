import Archarch.Volumes.Mounting

/- The rounds of fat16_read_file over the clusters of a chain, on any volume and for every
   length: when the loop ends, and which entries of the cached FAT it reads. -/
namespace Archarch.Fat16

/-- The call comes to an end. -/
def Ends (fs : Fs) (file : FatFile) (bufSize : Nat) : Prop :=
  ∃ fuel p, readClusters fs (min file.fileSize bufSize) fuel file.firstCluster ⟨0, [], false⟩ = some p

def tableReads (fs : Fs) (toRead : Nat) : Nat → Nat → Progress → List Nat
  | 0, _, _ => []
  | fuel + 1, cluster, p =>
    if p.done < toRead ∧ 2 ≤ cluster ∧ cluster < chainEnd then
      let p := readSectors fs toRead (firstSectorOf fs cluster) 0 p fs.bpb.sectorsPerCluster
      if p.failed then [] else cluster :: tableReads fs toRead fuel (fs.fatTable cluster).toNat p
    else []

/-- Each index that the call uses, however long it runs, is below the number of entries. -/
def StaysInTable (fs : Fs) (file : FatFile) (bufSize entries : Nat) : Prop :=
  ∀ fuel c, c ∈ tableReads fs (min file.fileSize bufSize) fuel file.firstCluster ⟨0, [], false⟩ → c < entries

/-- bytes_done behind k sectors. For more than 2^32 - 512 bytes the sum in front of the last
    chunk wraps, the chunk stays whole and bytes_done begins again at 0. -/
def doneAfter (toRead k : Nat) : Nat := if toRead ≤ 2 ^ 32 - 512 then min toRead (512 * k) else 512 * k % 2 ^ 32

def Wanted (toRead k : Nat) : Prop := 512 * k < toRead ∨ 2 ^ 32 - 512 < toRead

structure Round (fs : Fs) (first toRead i : Nat) : Prop where
  low : 2 ≤ clusterAt fs first i
  high : clusterAt fs first i < chainEnd
  wanted : Wanted toRead (i * fs.bpb.sectorsPerCluster)
  reads : ∀ s, s < fs.bpb.sectorsPerCluster → Wanted toRead (i * fs.bpb.sectorsPerCluster + s) →
    (fs.blk (firstSectorOf fs (clusterAt fs first i) + s)).isSome

/-- The rounds up to round i are all gone through. -/
def Followed (fs : Fs) (first toRead i : Nat) : Prop := ∀ l, l ≤ i → Round fs first toRead l

section Sectors
variable {fs : Fs} {toRead k j s n firstSector : Nat} {p : Progress}

theorem done_after_lt_iff : doneAfter toRead k < toRead ↔ Wanted toRead k := by
  unfold doneAfter Wanted
  split <;> omega

theorem done_after_succ (wanted : Wanted toRead k) :
    (doneAfter toRead k + (if toRead < (doneAfter toRead k + 512) % 2 ^ 32 then toRead - doneAfter toRead k
      else 512)) % 2 ^ 32 = doneAfter toRead (k + 1) := by
  unfold Wanted at wanted
  unfold doneAfter
  by_cases short : toRead ≤ 2 ^ 32 - 512
  · rw [if_pos short, if_pos short]
    split <;> omega
  · rw [if_neg short, if_neg short]
    split <;> omega

theorem done_after_full (full : ¬ Wanted toRead k) : ¬ Wanted toRead (k + j) ∧
    doneAfter toRead (k + j) = doneAfter toRead k := by
  unfold Wanted at full
  unfold Wanted doneAfter
  rw [if_pos (by omega), if_pos (by omega)]
  omega

theorem read_sectors_done (fine : p.failed = false) (done : p.done = doneAfter toRead k) :
    ((readSectors fs toRead firstSector s p n).failed = false ↔
      ∀ j, j < n → Wanted toRead (k + j) → (fs.blk (firstSector + (s + j))).isSome) ∧
    ((readSectors fs toRead firstSector s p n).failed = false →
      (readSectors fs toRead firstSector s p n).done = doneAfter toRead (k + n)) := by
  induction n generalizing s p k with
  | zero => exact ⟨⟨fun _ j inside => absurd inside (Nat.not_lt_zero j), fun _ => fine⟩, fun _ => done⟩
  | succ n ih =>
    rw [readSectors, done]
    by_cases wanted : Wanted toRead k
    · rw [if_pos (done_after_lt_iff.mpr wanted)]
      cases read : fs.blk (firstSector + s) with
      | none =>
        refine ⟨⟨fun ok => Bool.noConfusion ok, ?_⟩, fun ok => Bool.noConfusion ok⟩
        intro all
        have first := all 0 (Nat.succ_pos n) wanted
        rw [Nat.add_zero, read] at first
        cases first
      | some sector =>
        dsimp only
        obtain ⟨reads, last⟩ := ih (s := s + 1) (k := k + 1) (p := { p with
          done := (doneAfter toRead k + (if toRead < (doneAfter toRead k + 512) % 2 ^ 32 then
            toRead - doneAfter toRead k else 512)) % 2 ^ 32
          stores := p.stores ++ (List.range (if toRead < (doneAfter toRead k + 512) % 2 ^ 32 then
            toRead - doneAfter toRead k else 512)).map fun j => ((doneAfter toRead k + j) % 2 ^ 32, sector j) })
          fine (done_after_succ wanted)
        refine ⟨reads.trans ?_, ?_⟩
        · constructor
          · intro rest j inside more
            cases j with
            | zero =>
              rw [Nat.add_zero, read]
              rfl
            | succ j =>
              have sectorOf : s + (j + 1) = s + 1 + j := by omega
              have place : k + (j + 1) = k + 1 + j := by omega
              rw [place] at more
              rw [sectorOf]
              exact rest j (by omega) more
          · intro all j inside more
            have sectorOf : s + 1 + j = s + (j + 1) := by omega
            have place : k + 1 + j = k + (j + 1) := by omega
            rw [place] at more
            rw [sectorOf]
            exact all (j + 1) (by omega) more
        · intro ok
          rw [last ok, Nat.add_assoc, Nat.add_comm 1]
    · rw [if_neg fun more => wanted (done_after_lt_iff.mp more)]
      refine ⟨⟨fun _ j _ more => absurd more (done_after_full wanted).1, fun _ => fine⟩, ?_⟩
      intro _
      rw [done, (done_after_full wanted).2]

end Sectors

section Rounds
variable {fs : Fs} {first toRead i fuel : Nat} {p : Progress}

structure AtRound (fs : Fs) (toRead i : Nat) (p : Progress) : Prop where
  fine : p.failed = false
  done : p.done = doneAfter toRead (i * fs.bpb.sectorsPerCluster)

def clusterPass (fs : Fs) (first toRead i : Nat) (p : Progress) : Progress :=
  readSectors fs toRead (firstSectorOf fs (clusterAt fs first i)) 0 p fs.bpb.sectorsPerCluster

theorem round_iff (at_ : AtRound fs toRead i p) : Round fs first toRead i ↔
    (p.done < toRead ∧ 2 ≤ clusterAt fs first i ∧ clusterAt fs first i < chainEnd) ∧
      (clusterPass fs first toRead i p).failed = false := by
  obtain ⟨reads, _⟩ := @read_sectors_done fs _ _ 0 fs.bpb.sectorsPerCluster
    (firstSectorOf fs (clusterAt fs first i)) _ at_.fine at_.done
  rw [clusterPass, reads, at_.done, done_after_lt_iff]
  constructor
  · intro round
    refine ⟨⟨round.wanted, round.low, round.high⟩, ?_⟩
    intro j inside more
    rw [Nat.zero_add]
    exact round.reads j inside more
  · rintro ⟨⟨wanted, low, high⟩, all⟩
    refine ⟨low, high, wanted, ?_⟩
    intro s inside more
    have here := all s inside more
    rwa [Nat.zero_add] at here

theorem next_round (at_ : AtRound fs toRead i p) (round : Round fs first toRead i) :
    AtRound fs toRead (i + 1) (clusterPass fs first toRead i p) := by
  have fine := ((round_iff at_).mp round).2
  refine ⟨fine, ?_⟩
  have done := (@read_sectors_done fs _ _ 0 fs.bpb.sectorsPerCluster
    (firstSectorOf fs (clusterAt fs first i)) _ at_.fine at_.done).2 fine
  rw [Nat.succ_mul]
  exact done

theorem first_round (fs : Fs) (toRead : Nat) : AtRound fs toRead 0 ⟨0, [], false⟩ := by
  refine ⟨rfl, ?_⟩
  change 0 = doneAfter toRead _
  rw [Nat.zero_mul, doneAfter]
  split <;> omega

theorem last_round (at_ : AtRound fs toRead i p) (last : ¬ Round fs first toRead i)
    (enters : p.done < toRead ∧ 2 ≤ clusterAt fs first i ∧ clusterAt fs first i < chainEnd) :
    (clusterPass fs first toRead i p).failed = true := by
  by_contra fine
  exact last ((round_iff at_).mpr ⟨enters, by simpa using fine⟩)

theorem read_clusters_round (at_ : AtRound fs toRead i p) (round : Round fs first toRead i) :
    readClusters fs toRead (fuel + 1) (clusterAt fs first i) p =
      readClusters fs toRead fuel (clusterAt fs first (i + 1)) (clusterPass fs first toRead i p) := by
  obtain ⟨enters, fine⟩ := (round_iff at_).mp round
  unfold clusterPass at fine ⊢
  rw [readClusters, if_pos enters]
  dsimp only
  rw [if_neg (by rw [fine]; exact Bool.false_ne_true)]
  rfl

theorem read_clusters_last (at_ : AtRound fs toRead i p) (last : ¬ Round fs first toRead i) :
    ∃ q, readClusters fs toRead (fuel + 1) (clusterAt fs first i) p = some q := by
  rw [readClusters]
  by_cases enters : p.done < toRead ∧ 2 ≤ clusterAt fs first i ∧ clusterAt fs first i < chainEnd
  · have failed := last_round at_ last enters
    unfold clusterPass at failed
    rw [if_pos enters]
    dsimp only
    rw [if_pos failed]
    exact ⟨_, rfl⟩
  · rw [if_neg enters]
    exact ⟨_, rfl⟩

theorem table_reads_round (at_ : AtRound fs toRead i p) (round : Round fs first toRead i) :
    tableReads fs toRead (fuel + 1) (clusterAt fs first i) p =
      clusterAt fs first i ::
        tableReads fs toRead fuel (clusterAt fs first (i + 1)) (clusterPass fs first toRead i p) := by
  obtain ⟨enters, fine⟩ := (round_iff at_).mp round
  unfold clusterPass at fine ⊢
  rw [tableReads, if_pos enters]
  dsimp only
  rw [if_neg (by rw [fine]; exact Bool.false_ne_true)]
  rfl

theorem table_reads_last (at_ : AtRound fs toRead i p) (last : ¬ Round fs first toRead i) :
    tableReads fs toRead (fuel + 1) (clusterAt fs first i) p = [] := by
  rw [tableReads]
  by_cases enters : p.done < toRead ∧ 2 ≤ clusterAt fs first i ∧ clusterAt fs first i < chainEnd
  · have failed := last_round at_ last enters
    unfold clusterPass at failed
    rw [if_pos enters]
    dsimp only
    rw [if_pos failed]
  · rw [if_neg enters]

/-- Within its fuel the loop ends at the first round that it does not go through. -/
theorem read_clusters_ends_iff (at_ : AtRound fs toRead i p) :
    (∃ q, readClusters fs toRead fuel (clusterAt fs first i) p = some q) ↔
      ∃ j, i ≤ j ∧ j < i + fuel ∧ ¬ Round fs first toRead j := by
  induction fuel generalizing i p with
  | zero =>
    constructor
    · rintro ⟨q, run⟩
      cases run
    · rintro ⟨j, low, high, _⟩
      omega
  | succ fuel ih =>
    by_cases round : Round fs first toRead i
    · rw [read_clusters_round at_ round]
      refine (ih (next_round at_ round)).trans ?_
      constructor
      · rintro ⟨j, low, high, stops⟩
        exact ⟨j, by omega, by omega, stops⟩
      · rintro ⟨j, low, high, stops⟩
        have other : j ≠ i := by
          rintro rfl
          exact stops round
        exact ⟨j, by omega, by omega, stops⟩
    · exact ⟨fun _ => ⟨i, Nat.le_refl i, by omega, round⟩, fun _ => read_clusters_last at_ round⟩

theorem mem_table_reads_iff {c : Nat} (at_ : AtRound fs toRead i p) :
    c ∈ tableReads fs toRead fuel (clusterAt fs first i) p ↔
      ∃ j, i ≤ j ∧ j < i + fuel ∧ (∀ l, i ≤ l → l ≤ j → Round fs first toRead l) ∧ c = clusterAt fs first j := by
  induction fuel generalizing i p with
  | zero =>
    constructor
    · intro member
      cases member
    · rintro ⟨j, low, high, _⟩
      omega
  | succ fuel ih =>
    by_cases round : Round fs first toRead i
    · rw [table_reads_round at_ round, List.mem_cons]
      have rest := ih (next_round at_ round)
      constructor
      · rintro (same | later)
        · refine ⟨i, Nat.le_refl i, by omega, ?_, same⟩
          intro l low high
          obtain rfl : l = i := by omega
          exact round
        · obtain ⟨j, low, high, rounds, same⟩ := rest.mp later
          refine ⟨j, by omega, by omega, ?_, same⟩
          intro l from_ upTo
          by_cases here : l = i
          · rw [here]
            exact round
          · exact rounds l (by omega) upTo
      · rintro ⟨j, low, high, rounds, same⟩
        by_cases here : j = i
        · left
          rw [same, here]
        · right
          exact rest.mpr ⟨j, by omega, by omega, fun l from_ upTo => rounds l (by omega) upTo, same⟩
    · rw [table_reads_last at_ round]
      constructor
      · intro member
        cases member
      · rintro ⟨j, low, _, rounds, _⟩
        exact absurd (rounds i (Nat.le_refl i) low) round

theorem ends_iff {file : FatFile} {bufSize : Nat} : Ends fs file bufSize ↔
    ∃ i, ¬ Round fs file.firstCluster (min file.fileSize bufSize) i := by
  have rounds := fun fuel => @read_clusters_ends_iff fs file.firstCluster _ _ fuel _
    (first_round fs (min file.fileSize bufSize))
  constructor
  · rintro ⟨fuel, q, run⟩
    obtain ⟨j, _, _, stops⟩ := (rounds fuel).mp ⟨q, run⟩
    exact ⟨j, stops⟩
  · rintro ⟨j, stops⟩
    obtain ⟨q, run⟩ := (rounds (j + 1)).mpr ⟨j, Nat.zero_le j, by omega, stops⟩
    exact ⟨j + 1, q, run⟩

end Rounds

/-- The chain never leaves the range, and the loop either gets no bytes from its clusters or
    starts again at 0 before it has enough. -/
structure Endless (blk : Nat → Option Sector) (fields : BootFields) (fs : Fs) (file : FatFile)
    (toRead : Nat) : Prop where
  chain : ∀ i, 2 ≤ clusterAt fs file.firstCluster i ∧ clusterAt fs file.firstCluster i < chainEnd
  bytes : fields.sectorsPerCluster = 0 ∧ 0 < toRead ∨
    2 ^ 32 - 512 < toRead ∧ ∀ i s, s < fields.sectorsPerCluster →
      (blk (firstSectorOf fs (clusterAt fs file.firstCluster i) + s)).isSome

/-- Reading a file ends on every volume that is mounted, unless it is endless. -/
theorem read_file_ends_iff (blk : Nat → Option Sector) (alloc : Option (Nat → BitVec 16)) (fields : BootFields)
    (fs : Fs) (mount : fat16Mount blk alloc = some (fields, fs)) (file : FatFile) (bufSize : Nat) :
    Ends fs file bufSize ↔ ¬ Endless blk fields fs file (min file.fileSize bufSize) := by
  have mounted := fat16_mount_spec mount
  have perCluster : fs.bpb.sectorsPerCluster = fields.sectorsPerCluster := by
    rw [mounted.derived, derivedValues]
  rw [ends_iff, ← not_forall, not_iff_not]
  constructor
  · intro rounds
    refine ⟨fun i => ⟨(rounds i).low, (rounds i).high⟩, ?_⟩
    by_cases long : 2 ^ 32 - 512 < min file.fileSize bufSize
    · refine Or.inr ⟨long, ?_⟩
      intro i s inside
      rw [← mounted.disk]
      exact (rounds i).reads s (by rw [perCluster]; exact inside) (Or.inr long)
    · left
      have short : ∀ i, 512 * (i * fs.bpb.sectorsPerCluster) < min file.fileSize bufSize :=
        fun i => (rounds i).wanted.resolve_right long
      have some := short 0
      refine ⟨?_, by omega⟩
      rw [← perCluster]
      by_contra sectors
      have wide : min file.fileSize bufSize ≤ min file.fileSize bufSize * fs.bpb.sectorsPerCluster :=
        Nat.le_mul_of_pos_right _ (by omega)
      have enough := short (min file.fileSize bufSize)
      omega
  · intro endless i
    obtain ⟨low, high⟩ := endless.chain i
    refine ⟨low, high, ?_, ?_⟩
    · rcases endless.bytes with ⟨none, some⟩ | ⟨long, _⟩
      · left
        rw [perCluster, none, Nat.mul_zero]
        exact some
      · exact Or.inr long
    · intro s inside _
      rw [perCluster] at inside
      rcases endless.bytes with ⟨none, _⟩ | ⟨_, reads⟩
      · omega
      · rw [mounted.disk]
        exact reads i s inside

theorem small_file_ends : Ends (smallVolume 1 2 0xFFFF) ⟨2, 5⟩ 5 := by
  apply (read_file_ends_iff (smallDisk 1 2 0xFFFF) (some fun _ => 0) (bootFields (smallBoot 1))
    (smallVolume 1 2 0xFFFF) (small_volume_mounted 1 2 0xFFFF) ⟨2, 5⟩ 5).mpr
  intro endless
  rcases endless.bytes with ⟨none, _⟩ | ⟨long, _⟩
  · revert none
    decide
  · revert long
    decide

/-- A volume whose clusters have no sectors, with a cluster that links to itself. -/
theorem empty_clusters_loop : ∃ fields fs file, fat16Mount (smallDisk 0 2 2) (some fun _ => 0) = some (fields, fs) ∧
    fat16Open fs [0x52] = some file ∧ ¬ Ends fs file 5 := by
  refine ⟨_, _, ⟨2, 5⟩, small_volume_mounted 0 2 2, by decide, ?_⟩
  rw [ends_iff, not_exists]
  intro i stops
  have chain : ∀ i, clusterAt (smallVolume 0 2 2) 2 i = 2 := by
    intro i
    induction i with
    | zero => rfl
    | succ i ih =>
      rw [clusterAt, ih]
      decide
  have none : (smallVolume 0 2 2).bpb.sectorsPerCluster = 0 := by decide
  apply stops
  refine ⟨by rw [chain], by rw [chain]; decide, ?_, ?_⟩
  · left
    rw [none, Nat.mul_zero]
    decide
  · intro s inside
    rw [none] at inside
    omega

/-- fat_size_16 * 256 entries are loaded, and the call stays among them if and only if the clusters
    that it follows do. -/
theorem stays_in_table_iff (blk : Nat → Option Sector) (alloc : Option (Nat → BitVec 16)) (fields : BootFields)
    (fs : Fs) (mount : fat16Mount blk alloc = some (fields, fs)) (file : FatFile) (bufSize : Nat) :
    Mounted blk fields fs ∧ (StaysInTable fs file bufSize (fields.fatSize16 * 256) ↔
      ∀ i, Followed fs file.firstCluster (min file.fileSize bufSize) i →
        clusterAt fs file.firstCluster i < fields.fatSize16 * 256) := by
  refine ⟨fat16_mount_spec mount, ?_⟩
  have member := fun fuel c => @mem_table_reads_iff fs file.firstCluster _ _ fuel _ c
    (first_round fs (min file.fileSize bufSize))
  constructor
  · intro inside i followed
    exact inside (i + 1) _ ((member (i + 1) _).mpr
      ⟨i, Nat.zero_le i, by omega, fun l _ upTo => followed l upTo, rfl⟩)
  · intro chain fuel c used
    obtain ⟨j, _, _, rounds, rfl⟩ := (member fuel c).mp used
    exact chain j fun l upTo => rounds l (Nat.zero_le l) upTo

theorem small_file_in_table : StaysInTable (smallVolume 1 2 0xFFFF) ⟨2, 5⟩ 5 256 := by
  have size : (bootFields (smallBoot 1)).fatSize16 * 256 = 256 := by decide
  rw [← size]
  apply (stays_in_table_iff (smallDisk 1 2 0xFFFF) (some fun _ => 0) (bootFields (smallBoot 1))
    (smallVolume 1 2 0xFFFF) (small_volume_mounted 1 2 0xFFFF) ⟨2, 5⟩ 5).2.mpr
  intro i followed
  cases i with
  | zero => decide
  | succ i =>
    have beyond : ¬ clusterAt (smallVolume 1 2 0xFFFF) 2 1 < chainEnd := by decide
    exact absurd (followed 1 (by omega)).high beyond

/-- A file whose first cluster is 300, on a volume with a FAT of 256 entries. -/
theorem first_cluster_outside_table : ∃ fields fs file,
    fat16Mount (smallDisk 1 300 0) (some fun _ => 0) = some (fields, fs) ∧ fat16Open fs [0x52] = some file ∧
      ¬ StaysInTable fs file 5 (fields.fatSize16 * 256) := by
  refine ⟨_, _, ⟨300, 5⟩, small_volume_mounted 1 300 0, by decide, ?_⟩
  intro inside
  have used := inside 1 300 (by decide)
  revert used
  decide

end Archarch.Fat16
