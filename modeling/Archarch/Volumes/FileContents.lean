import Mathlib.Data.List.Range
import Mathlib.Data.Nat.Find
import Archarch.Volumes.Fat16

/- What a chain of clusters holds, and that fat16_read_file reads it from the start. -/
namespace Archarch.Fat16

def clusterAt (fs : Fs) (first : Nat) : Nat → Nat
  | 0 => first
  | i + 1 => (fs.fatTable (clusterAt fs first i)).toNat

def fileSector (fs : Fs) (first k : Nat) : Nat :=
  firstSectorOf fs (clusterAt fs first (k / fs.bpb.sectorsPerCluster)) + k % fs.bpb.sectorsPerCluster

def fileByte (fs : Fs) (first k : Nat) : Byte :=
  ((fs.blk (fileSector fs first (k / 512))).getD fun _ => 0) (k % 512)

def contents (fs : Fs) (file : FatFile) : List Byte :=
  (List.range file.fileSize).map (fileByte fs file.firstCluster)

/-- The chain of a file covers its size, and its sectors can be read. -/
structure Covers (fs : Fs) (file : FatFile) : Prop where
  sectors : 0 < fs.bpb.sectorsPerCluster
  chain : ∀ i, i * fs.bpb.sectorsPerCluster * 512 < file.fileSize →
    2 ≤ clusterAt fs file.firstCluster i ∧ clusterAt fs file.firstCluster i < chainEnd
  reads : ∀ k, k * 512 < file.fileSize → (fs.blk (fileSector fs file.firstCluster k)).isSome

def prefixStores (fs : Fs) (first d : Nat) : List (Nat × Byte) :=
  (List.range d).map fun k => (k, fileByte fs first k)

def readUpTo (fs : Fs) (first d : Nat) : Progress := ⟨d, prefixStores fs first d, false⟩

section Reading
variable {fs : Fs} {file : FatFile} {toRead : Nat}

theorem prefix_stores_add (fs : Fs) (first d n : Nat) : prefixStores fs first (d + n) =
    prefixStores fs first d ++ (List.range n).map fun j => (d + j, fileByte fs first (d + j)) := by
  rw [prefixStores, List.range_add, List.map_append, List.map_map]
  rfl

theorem read_sector_eq {k : Nat} {sector : Sector} (small : toRead ≤ 2 ^ 32 - 512) (more : 512 * k < toRead)
    (read : fs.blk (fileSector fs file.firstCluster k) = some sector) :
    ({ readUpTo fs file.firstCluster (512 * k) with
        done := (512 * k + (if toRead < (512 * k + 512) % 2 ^ 32 then toRead - 512 * k else 512)) % 2 ^ 32
        stores := prefixStores fs file.firstCluster (512 * k) ++
          (List.range (if toRead < (512 * k + 512) % 2 ^ 32 then toRead - 512 * k else 512)).map
            fun j => ((512 * k + j) % 2 ^ 32, sector j) } : Progress) =
      readUpTo fs file.firstCluster (min toRead (512 * (k + 1))) := by
  have chunk : (if toRead < (512 * k + 512) % 2 ^ 32 then toRead - 512 * k else 512) =
      min toRead (512 * (k + 1)) - 512 * k := by
    split <;> omega
  rw [chunk]
  generalize bound : min toRead (512 * (k + 1)) - 512 * k = n
  have upTo : min toRead (512 * (k + 1)) = 512 * k + n := by omega
  rw [upTo, readUpTo, readUpTo, prefix_stores_add]
  have done : (512 * k + n) % 2 ^ 32 = 512 * k + n := Nat.mod_eq_of_lt (by omega)
  have stores : (List.range n).map (fun j => ((512 * k + j) % 2 ^ 32, sector j)) =
      (List.range n).map fun j => (512 * k + j, fileByte fs file.firstCluster (512 * k + j)) := by
    apply List.map_congr_left
    intro j inside
    have short : j < n := List.mem_range.mp inside
    have here : (512 * k + j) / 512 = k := by omega
    have offset : (512 * k + j) % 512 = j := by omega
    rw [fileByte, here, offset, read, Option.getD_some, Nat.mod_eq_of_lt (by omega)]
  rw [done, stores]

theorem read_sectors_eq (sectors : 0 < fs.bpb.sectorsPerCluster) (small : toRead ≤ 2 ^ 32 - 512)
    {i s n : Nat} (whole : s + n = fs.bpb.sectorsPerCluster)
    (reads : ∀ k, k < (i + 1) * fs.bpb.sectorsPerCluster → 512 * k < toRead →
      (fs.blk (fileSector fs file.firstCluster k)).isSome) :
    readSectors fs toRead (firstSectorOf fs (clusterAt fs file.firstCluster i)) s
        (readUpTo fs file.firstCluster (min toRead (512 * (i * fs.bpb.sectorsPerCluster + s)))) n =
      readUpTo fs file.firstCluster (min toRead (512 * ((i + 1) * fs.bpb.sectorsPerCluster))) := by
  induction n generalizing s with
  | zero =>
    have all : i * fs.bpb.sectorsPerCluster + s = (i + 1) * fs.bpb.sectorsPerCluster := by
      rw [Nat.succ_mul]
      omega
    rw [all]
    rfl
  | succ n ih =>
    generalize place : i * fs.bpb.sectorsPerCluster + s = k at ih ⊢
    have next : i * fs.bpb.sectorsPerCluster + (s + 1) = k + 1 := by omega
    have cluster : k / fs.bpb.sectorsPerCluster = i := by
      rw [← place, Nat.mul_comm, Nat.mul_add_div sectors, Nat.div_eq_of_lt (by omega), Nat.add_zero]
    have sector : k % fs.bpb.sectorsPerCluster = s := by
      rw [← place, Nat.mul_comm, Nat.mul_add_mod, Nat.mod_eq_of_lt (by omega)]
    have last : k < (i + 1) * fs.bpb.sectorsPerCluster := by
      rw [Nat.succ_mul]
      omega
    rw [readSectors]
    by_cases more : 512 * k < toRead
    · have start : min toRead (512 * k) = 512 * k := by omega
      have readable := reads k last more
      obtain ⟨data, read⟩ := Option.isSome_iff_exists.mp readable
      have disk := read
      rw [fileSector, cluster, sector] at disk
      have step := read_sector_eq small more read
      have rest := @ih (s + 1) (by omega)
      rw [next, ← step] at rest
      rw [start, if_pos (show (readUpTo fs file.firstCluster (512 * k)).done < toRead from more), disk]
      exact rest
    · have full : min toRead (512 * k) = toRead := by omega
      have end_ : min toRead (512 * ((i + 1) * fs.bpb.sectorsPerCluster)) = toRead := by omega
      rw [full, if_neg (show ¬ (readUpTo fs file.firstCluster toRead).done < toRead from Nat.lt_irrefl _), end_]

structure ChainReads (fs : Fs) (first toRead m : Nat) : Prop where
  sectors : 0 < fs.bpb.sectorsPerCluster
  chain : ∀ i, i < m → 2 ≤ clusterAt fs first i ∧ clusterAt fs first i < chainEnd
  reads : ∀ k, k < m * fs.bpb.sectorsPerCluster → 512 * k < toRead → (fs.blk (fileSector fs first k)).isSome
  ends : toRead ≤ 512 * (m * fs.bpb.sectorsPerCluster) ∨
    ¬ (2 ≤ clusterAt fs first m ∧ clusterAt fs first m < chainEnd)

theorem read_up_to_short {n : Nat} (fs : Fs) (first : Nat) (more : n < toRead) :
    (readUpTo fs first (min toRead n)).done < toRead := by
  rw [Nat.min_eq_right (Nat.le_of_lt more)]
  exact more

theorem read_clusters_eq {m : Nat} (chain : ChainReads fs file.firstCluster toRead m)
    (small : toRead ≤ 2 ^ 32 - 512) {i fuel : Nat} (within : i ≤ m) (enough : toRead < i + fuel) (some_ : 0 < fuel) :
    readClusters fs toRead fuel (clusterAt fs file.firstCluster i)
        (readUpTo fs file.firstCluster (min toRead (512 * (i * fs.bpb.sectorsPerCluster)))) =
      some (readUpTo fs file.firstCluster (min toRead (512 * (m * fs.bpb.sectorsPerCluster)))) := by
  induction fuel generalizing i with
  | zero => cases some_
  | succ fuel ih =>
    rw [readClusters]
    have grows : i * fs.bpb.sectorsPerCluster ≤ m * fs.bpb.sectorsPerCluster := Nat.mul_le_mul_right _ within
    by_cases more : 512 * (i * fs.bpb.sectorsPerCluster) < toRead
    · have enter := read_up_to_short fs file.firstCluster more
      by_cases last : i = m
      · subst last
        have stops := chain.ends.resolve_left (by omega)
        rw [if_neg fun loops => stops loops.2]
      · have valid := chain.chain i (by omega)
        have upTo : (i + 1) * fs.bpb.sectorsPerCluster ≤ m * fs.bpb.sectorsPerCluster :=
          Nat.mul_le_mul_right _ (by omega)
        have cluster := @read_sectors_eq fs file toRead chain.sectors small i 0 fs.bpb.sectorsPerCluster
          (Nat.zero_add _) fun k before wanted => chain.reads k (by omega) wanted
        rw [Nat.add_zero] at cluster
        rw [if_pos ⟨enter, valid⟩, cluster]
        dsimp only
        rw [if_neg (show ¬ (readUpTo fs file.firstCluster _).failed = true from Bool.false_ne_true)]
        have wide : i ≤ i * fs.bpb.sectorsPerCluster := Nat.le_mul_of_pos_right i chain.sectors
        exact ih (i := i + 1) (by omega) (by omega) (by omega)
    · have full : min toRead (512 * (i * fs.bpb.sectorsPerCluster)) = toRead := by omega
      have full' : min toRead (512 * (m * fs.bpb.sectorsPerCluster)) = toRead := by omega
      rw [full, full', if_neg fun loops => Nat.lt_irrefl _ loops.1]

theorem read_file_chain {bufSize m : Nat} (small : min file.fileSize bufSize ≤ 2 ^ 32 - 512)
    (chain : ChainReads fs file.firstCluster (min file.fileSize bufSize) m) : fat16ReadFile fs file bufSize =
      some (readUpTo fs file.firstCluster
        (min (min file.fileSize bufSize) (512 * (m * fs.bpb.sectorsPerCluster)))) := by
  rw [fat16ReadFile]
  have run := @read_clusters_eq fs file _ m chain small 0 (min file.fileSize bufSize + 2 ^ 16) (Nat.zero_le _)
    (by omega) (by omega)
  have none : min (min file.fileSize bufSize) (512 * (0 * fs.bpb.sectorsPerCluster)) = 0 := by omega
  rw [none] at run
  exact run

theorem chain_reads_of_covers (covers : Covers fs file) (part : toRead ≤ file.fileSize) :
    ∃ m, ChainReads fs file.firstCluster toRead m ∧ toRead ≤ 512 * (m * fs.bpb.sectorsPerCluster) := by
  have sectors := covers.sectors
  obtain ⟨m, enough, least⟩ : ∃ m, toRead ≤ 512 * (m * fs.bpb.sectorsPerCluster) ∧
      ∀ i, i < m → 512 * (i * fs.bpb.sectorsPerCluster) < toRead := by
    have some : ∃ m, toRead ≤ 512 * (m * fs.bpb.sectorsPerCluster) := by
      refine ⟨toRead, ?_⟩
      have wide : toRead ≤ toRead * fs.bpb.sectorsPerCluster := Nat.le_mul_of_pos_right toRead sectors
      omega
    classical
    refine ⟨Nat.find some, Nat.find_spec some, ?_⟩
    intro i before
    exact Nat.lt_of_not_le (Nat.find_min some before)
  refine ⟨m, ⟨sectors, ?_, ?_, Or.inl enough⟩, enough⟩
  · intro i before
    have wanted := least i before
    exact covers.chain i (by omega)
  · intro k _ wanted
    exact covers.reads k (by omega)

/-- On a covered file fat16_read_file stores the first bytes of the file. -/
theorem fat16_read_file_eq (covers : Covers fs file) (small : file.fileSize < 2 ^ 31) (bufSize : Nat) :
    fat16ReadFile fs file bufSize = some (readUpTo fs file.firstCluster (min file.fileSize bufSize)) := by
  obtain ⟨m, chain, enough⟩ := chain_reads_of_covers covers (Nat.min_le_left file.fileSize bufSize)
  rw [read_file_chain (by omega) chain, Nat.min_eq_left enough]

theorem read_up_to_result {first d : Nat} (small : d < 2 ^ 31) : (readUpTo fs first d).result = d := by
  rw [Progress.result, if_neg (show ¬ (readUpTo fs first d).failed = true from Bool.false_ne_true),
    BitVec.toInt_eq_toNat_of_lt, BitVec.toNat_ofNat]
  · have word : (readUpTo fs first d).done = d := rfl
    rw [word, Nat.mod_eq_of_lt (by omega)]
  · rw [BitVec.toNat_ofNat]
    have word : (readUpTo fs first d).done = d := rfl
    omega

end Reading
end Archarch.Fat16
