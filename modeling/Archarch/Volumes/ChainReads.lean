import Archarch.Volumes.Mounting

/- fat16_read_file against the clusters of the chain, put together in their order. -/
namespace Archarch.Fat16

/-- The bytes of a cluster; a sector that cannot be read counts as zeros. -/
def clusterData (fs : Fs) (cluster : Nat) : List Byte :=
  (List.range fs.bpb.sectorsPerCluster).flatMap fun s =>
    (List.range 512).map ((fs.blk (firstSectorOf fs cluster + s)).getD fun _ => 0)

/-- The bytes of the first m clusters of a chain. -/
def chainData (fs : Fs) (first m : Nat) : List Byte :=
  (List.range m).flatMap fun i => clusterData fs (clusterAt fs first i)

def Progress.buffer (p : Progress) (buf : Nat → Byte) : Nat → Byte :=
  p.stores.foldl (fun b w => Function.update b w.1 w.2) buf

/-- The call returns n, the buffer begins with the first n bytes of the data, and nothing is
    stored behind them. -/
structure Delivers (p : Progress) (data : List Byte) (n : Nat) : Prop where
  result : p.result = n
  inside : ∀ buf k, k < n → data[k]? = some (p.buffer buf k)
  beyond : ∀ buf k, n ≤ k → p.buffer buf k = buf k
  offsets : ∀ w ∈ p.stores, w.1 < n

section Data
variable {fs : Fs} {first m n : Nat}

theorem flat_map_range (f : Nat → Byte) (m n : Nat) :
    ((List.range m).flatMap fun i => (List.range n).map fun j => f (n * i + j)) = (List.range (n * m)).map f := by
  induction m with
  | zero => rfl
  | succ m ih =>
    rw [List.range_succ, List.flatMap_append, ih, Nat.mul_succ, List.range_add, List.map_append, List.map_map]
    simp [Function.comp_def]

theorem cluster_data_eq (sectors : 0 < fs.bpb.sectorsPerCluster) (i : Nat) :
    clusterData fs (clusterAt fs first i) = (List.range (512 * fs.bpb.sectorsPerCluster)).map fun j =>
      fileByte fs first (512 * fs.bpb.sectorsPerCluster * i + j) := by
  rw [clusterData, ← flat_map_range]
  apply List.flatMap_congr
  intro s member
  have small : s < fs.bpb.sectorsPerCluster := List.mem_range.mp member
  apply List.map_congr_left
  intro j within
  have short : j < 512 := List.mem_range.mp within
  have place : 512 * fs.bpb.sectorsPerCluster * i + (512 * s + j) =
      512 * (fs.bpb.sectorsPerCluster * i + s) + j := by
    rw [Nat.mul_assoc]
    omega
  have sector : (512 * (fs.bpb.sectorsPerCluster * i + s) + j) / 512 = fs.bpb.sectorsPerCluster * i + s := by omega
  have offset : (512 * (fs.bpb.sectorsPerCluster * i + s) + j) % 512 = j := by omega
  have cluster : (fs.bpb.sectorsPerCluster * i + s) / fs.bpb.sectorsPerCluster = i := by
    rw [Nat.mul_add_div sectors, Nat.div_eq_of_lt small, Nat.add_zero]
  have inCluster : (fs.bpb.sectorsPerCluster * i + s) % fs.bpb.sectorsPerCluster = s := by
    rw [Nat.mul_add_mod, Nat.mod_eq_of_lt small]
  rw [fileByte, place, sector, offset, fileSector, cluster, inCluster]

theorem chain_data_eq (sectors : 0 < fs.bpb.sectorsPerCluster) (m : Nat) : chainData fs first m =
    (List.range (512 * fs.bpb.sectorsPerCluster * m)).map (fileByte fs first) := by
  rw [chainData, ← flat_map_range]
  apply List.flatMap_congr
  intro i _
  exact cluster_data_eq sectors i

theorem placed_buffer_get (buf : Nat → Byte) (d k : Nat) :
    (readUpTo fs first d).buffer buf k = if k < d then fileByte fs first k else buf k := by
  induction d with
  | zero => rfl
  | succ d ih =>
    have last : (readUpTo fs first (d + 1)).buffer buf =
        Function.update ((readUpTo fs first d).buffer buf) d (fileByte fs first d) := by
      unfold Progress.buffer readUpTo prefixStores
      rw [List.range_succ, List.map_append, List.foldl_append]
      rfl
    rw [last]
    by_cases here : k = d
    · rw [here, Function.update_self, if_pos (Nat.lt_succ_self d)]
    · rw [Function.update_of_ne here, ih]
      by_cases before : k < d
      · rw [if_pos before, if_pos (by omega)]
      · rw [if_neg before, if_neg (by omega)]

theorem read_up_to_delivers (sectors : 0 < fs.bpb.sectorsPerCluster) (small : n < 2 ^ 31)
    (part : n ≤ 512 * fs.bpb.sectorsPerCluster * m) : Delivers (readUpTo fs first n) (chainData fs first m) n := by
  constructor
  · exact read_up_to_result small
  · intro buf k inside
    rw [placed_buffer_get, if_pos inside, chain_data_eq sectors, List.getElem?_map,
      List.getElem?_range (by omega), Option.map_some]
  · intro buf k behind
    rw [placed_buffer_get, if_neg (by omega)]
  · intro w member
    obtain ⟨k, inside, rfl⟩ := List.mem_map.mp member
    exact List.mem_range.mp inside

end Data

/-- With m clusters in range, the sectors that are wanted readable and either enough clusters or
    the end of the chain behind them, the call delivers the chain up to the length. -/
theorem fat16_read_file_correct (blk : Nat → Option Sector) (alloc : Option (Nat → BitVec 16))
    (fields : BootFields) (fs : Fs) (mount : fat16Mount blk alloc = some (fields, fs))
    (sectors : 1 ≤ fs.bpb.sectorsPerCluster) (file : FatFile) (bufSize m : Nat)
    (small : min file.fileSize bufSize < 2 ^ 31)
    (chain : ∀ i, i < m → 2 ≤ clusterAt fs file.firstCluster i ∧ clusterAt fs file.firstCluster i < chainEnd)
    (reads : ∀ i s, i < m → s < fs.bpb.sectorsPerCluster →
      512 * (i * fs.bpb.sectorsPerCluster + s) < min file.fileSize bufSize →
      (blk (firstSectorOf fs (clusterAt fs file.firstCluster i) + s)).isSome)
    (ends : min file.fileSize bufSize ≤ 512 * fs.bpb.sectorsPerCluster * m ∨
      ¬ (2 ≤ clusterAt fs file.firstCluster m ∧ clusterAt fs file.firstCluster m < chainEnd)) :
    ∃ p, fat16ReadFile fs file bufSize = some p ∧ Delivers p (chainData fs file.firstCluster m)
      (min (min file.fileSize bufSize) (512 * fs.bpb.sectorsPerCluster * m)) := by
  have disk := (fat16_mount_spec mount).disk
  have bytes : 512 * (m * fs.bpb.sectorsPerCluster) = 512 * fs.bpb.sectorsPerCluster * m := by
    rw [Nat.mul_assoc, Nat.mul_comm m]
  have clusters : ChainReads fs file.firstCluster (min file.fileSize bufSize) m := by
    constructor
    · exact sectors
    · exact chain
    · intro k before wanted
      have split := Nat.div_add_mod k fs.bpb.sectorsPerCluster
      rw [Nat.mul_comm] at split
      rw [disk, fileSector]
      apply reads
      · exact Nat.div_lt_of_lt_mul (by rw [Nat.mul_comm]; exact before)
      · exact Nat.mod_lt k sectors
      · rw [split]
        exact wanted
    · rw [bytes]
      exact ends
  refine ⟨_, read_file_chain (by omega) clusters, ?_⟩
  rw [bytes]
  exact read_up_to_delivers sectors (by omega) (Nat.min_le_right _ _)

/-- A file of one cluster. -/
theorem small_file_read : ∃ p, fat16ReadFile (smallVolume 1 2 0xFFFF) ⟨2, 5⟩ 5 = some p ∧
    Delivers p (chainData (smallVolume 1 2 0xFFFF) 2 1) 5 := by
  have one : (smallVolume 1 2 0xFFFF).bpb.sectorsPerCluster = 1 := by decide
  have read := fat16_read_file_correct (smallDisk 1 2 0xFFFF) (some fun _ => 0)
    (bootFields (smallBoot 1)) (smallVolume 1 2 0xFFFF) (small_volume_mounted 1 2 0xFFFF)
    (by rw [one]) ⟨2, 5⟩ 5 1 (by decide)
    (by
      intro i before
      obtain rfl : i = 0 := by omega
      decide)
    (by
      intro i s before within wanted
      obtain rfl : i = 0 := by omega
      rw [one] at within
      obtain rfl : s = 0 := by omega
      decide)
    (Or.inl (by rw [one]; decide))
  rw [one] at read
  exact read

end Archarch.Fat16
