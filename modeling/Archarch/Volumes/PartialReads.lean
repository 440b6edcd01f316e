import Archarch.Volumes.FileContents

/- How far fat16_read_file gets on a volume of which nothing is known: a chain may be too short
   for its file, and a sector may fail. -/
namespace Archarch.Fat16

structure SectorThere (fs : Fs) (file : FatFile) (k : Nat) : Prop where
  low : 2 ≤ clusterAt fs file.firstCluster (k / fs.bpb.sectorsPerCluster)
  high : clusterAt fs file.firstCluster (k / fs.bpb.sectorsPerCluster) < chainEnd
  read : (fs.blk (fileSector fs file.firstCluster k)).isSome

def Good (fs : Fs) (file : FatFile) (k : Nat) : Prop :=
  0 < fs.bpb.sectorsPerCluster ∧ ∀ j, j ≤ k → SectorThere fs file j

structure Pass (fs : Fs) (file : FatFile) (toRead : Nat) (p : Progress) : Prop where
  stores : p.stores = prefixStores fs file.firstCluster p.done
  most : p.done ≤ toRead
  exact : ∀ k, k < toRead → (k < p.done ↔ Good fs file (k / 512))

section Passes
variable {fs : Fs} {file : FatFile} {toRead : Nat}

def Reached (fs : Fs) (file : FatFile) (toRead k : Nat) : Prop :=
  ∀ j, j < k → 512 * j < toRead → SectorThere fs file j

theorem pass_of_reached {k : Nat} {p : Progress} (sectors : 0 < fs.bpb.sectorsPerCluster)
    (reached : Reached fs file toRead k) (stop : toRead ≤ 512 * k ∨ ¬ SectorThere fs file k)
    (stores : p.stores = prefixStores fs file.firstCluster p.done) (done : p.done = min toRead (512 * k)) :
    Pass fs file toRead p := by
  constructor
  · exact stores
  · omega
  · intro i inside
    rw [done]
    constructor
    · intro before
      refine ⟨sectors, ?_⟩
      intro j upTo
      exact reached j (by omega) (by omega)
    · intro good
      by_contra behind
      have missing := stop.resolve_left (by omega)
      exact missing (good.2 k (by omega))

theorem read_sectors_reach (sectors : 0 < fs.bpb.sectorsPerCluster) (small : toRead ≤ 2 ^ 32 - 512) {i s n : Nat}
    (low : 2 ≤ clusterAt fs file.firstCluster i) (high : clusterAt fs file.firstCluster i < chainEnd)
    (whole : s + n = fs.bpb.sectorsPerCluster)
    (reached : Reached fs file toRead (i * fs.bpb.sectorsPerCluster + s)) :
    let p := readSectors fs toRead (firstSectorOf fs (clusterAt fs file.firstCluster i)) s
      (readUpTo fs file.firstCluster (min toRead (512 * (i * fs.bpb.sectorsPerCluster + s)))) n
    (p = readUpTo fs file.firstCluster (min toRead (512 * ((i + 1) * fs.bpb.sectorsPerCluster))) ∧
        Reached fs file toRead ((i + 1) * fs.bpb.sectorsPerCluster)) ∨
      (p.failed = true ∧ Pass fs file toRead p) := by
  induction n generalizing s with
  | zero =>
    have all : i * fs.bpb.sectorsPerCluster + s = (i + 1) * fs.bpb.sectorsPerCluster := by
      rw [Nat.succ_mul]
      omega
    rw [all] at reached ⊢
    exact Or.inl ⟨rfl, reached⟩
  | succ n ih =>
    generalize place : i * fs.bpb.sectorsPerCluster + s = k at ih reached ⊢
    have next : i * fs.bpb.sectorsPerCluster + (s + 1) = k + 1 := by omega
    have cluster : k / fs.bpb.sectorsPerCluster = i := by
      rw [← place, Nat.mul_comm, Nat.mul_add_div sectors, Nat.div_eq_of_lt (by omega), Nat.add_zero]
    have sector : k % fs.bpb.sectorsPerCluster = s := by
      rw [← place, Nat.mul_comm, Nat.mul_add_mod, Nat.mod_eq_of_lt (by omega)]
    rw [readSectors]
    by_cases more : 512 * k < toRead
    · have start : min toRead (512 * k) = 512 * k := by omega
      have disk : fs.blk (firstSectorOf fs (clusterAt fs file.firstCluster i) + s) =
          fs.blk (fileSector fs file.firstCluster k) := by
        rw [fileSector, cluster, sector]
      rw [start, if_pos (show (readUpTo fs file.firstCluster (512 * k)).done < toRead from more), disk]
      cases read : fs.blk (fileSector fs file.firstCluster k) with
      | none =>
        right
        refine ⟨rfl, pass_of_reached sectors reached (Or.inr ?_) rfl start.symm⟩
        intro there
        have found := there.read
        rw [read] at found
        cases found
      | some data =>
        have step := read_sector_eq small more read
        have there : SectorThere fs file k := by
          refine ⟨?_, ?_, by rw [read]; rfl⟩
          · rw [cluster]
            exact low
          · rw [cluster]
            exact high
        have reached' : Reached fs file toRead (k + 1) := by
          intro j before inside
          by_cases here : j = k
          · rw [here]
            exact there
          · exact reached j (by omega) inside
        have rest := @ih (s + 1) (by omega)
        rw [next, ← step] at rest
        exact rest reached'
    · have full : min toRead (512 * k) = toRead := by omega
      have last : k < (i + 1) * fs.bpb.sectorsPerCluster := by
        rw [Nat.succ_mul]
        omega
      have end_ : min toRead (512 * ((i + 1) * fs.bpb.sectorsPerCluster)) = toRead := by omega
      rw [full, if_neg (show ¬ (readUpTo fs file.firstCluster toRead).done < toRead from Nat.lt_irrefl _), end_]
      left
      refine ⟨rfl, ?_⟩
      intro j before inside
      exact reached j (by omega) inside

theorem read_clusters_pass (sectors : 0 < fs.bpb.sectorsPerCluster) (small : toRead ≤ 2 ^ 32 - 512) {i fuel : Nat}
    (enough : toRead < i + fuel) (some_ : 0 < fuel) (reached : Reached fs file toRead (i * fs.bpb.sectorsPerCluster)) :
    ∃ p, readClusters fs toRead fuel (clusterAt fs file.firstCluster i)
        (readUpTo fs file.firstCluster (min toRead (512 * (i * fs.bpb.sectorsPerCluster)))) = some p ∧
      Pass fs file toRead p := by
  induction fuel generalizing i with
  | zero => cases some_
  | succ fuel ih =>
    rw [readClusters]
    by_cases more : 512 * (i * fs.bpb.sectorsPerCluster) < toRead
    · have enter := read_up_to_short fs file.firstCluster more
      by_cases valid : 2 ≤ clusterAt fs file.firstCluster i ∧ clusterAt fs file.firstCluster i < chainEnd
      · have wide : i ≤ i * fs.bpb.sectorsPerCluster := Nat.le_mul_of_pos_right i sectors
        rw [if_pos ⟨enter, valid⟩]
        dsimp only
        rcases @read_sectors_reach fs file toRead sectors small i 0 fs.bpb.sectorsPerCluster valid.1 valid.2
            (Nat.zero_add _) reached with ⟨whole, further⟩ | ⟨failed, pass⟩
        · rw [Nat.add_zero] at whole
          rw [whole, if_neg (show ¬ (readUpTo fs file.firstCluster _).failed = true from Bool.false_ne_true)]
          exact ih (i := i + 1) (by omega) (by omega) further
        · rw [Nat.add_zero] at failed pass
          rw [if_pos failed]
          exact ⟨_, rfl, pass⟩
      · rw [if_neg fun both => valid both.2]
        refine ⟨_, rfl, pass_of_reached sectors reached (Or.inr ?_) rfl rfl⟩
        intro there
        have cluster : i * fs.bpb.sectorsPerCluster / fs.bpb.sectorsPerCluster = i := Nat.mul_div_cancel i sectors
        have low := there.low
        have high := there.high
        rw [cluster] at low high
        exact valid ⟨low, high⟩
    · have full : min toRead (512 * (i * fs.bpb.sectorsPerCluster)) = toRead := by omega
      rw [full, if_neg fun loops => Nat.lt_irrefl _ loops.1]
      exact ⟨_, rfl, pass_of_reached sectors reached (Or.inl (by omega)) rfl full.symm⟩

theorem read_clusters_no_sectors (none_ : fs.bpb.sectorsPerCluster = 0) {fuel cluster : Nat} {start p : Progress}
    (fine : start.failed = false) (read : readClusters fs toRead fuel cluster start = some p) : p = start := by
  induction fuel generalizing cluster with
  | zero => cases read
  | succ fuel ih =>
    rw [readClusters, none_, readSectors] at read
    split at read
    · dsimp only at read
      rw [if_neg (by rw [fine]; exact Bool.false_ne_true)] at read
      exact ih read
    · exact (Option.some.inj read).symm

theorem read_file_pass {bufSize : Nat} {p : Progress} (small : min file.fileSize bufSize ≤ 2 ^ 32 - 512)
    (read : fat16ReadFile fs file bufSize = some p) : Pass fs file (min file.fileSize bufSize) p := by
  rw [fat16ReadFile] at read
  generalize min file.fileSize bufSize = n at small read
  rcases Nat.eq_zero_or_pos fs.bpb.sectorsPerCluster with none_ | sectors
  · have start := read_clusters_no_sectors none_ rfl read
    rw [start]
    refine ⟨rfl, Nat.zero_le _, ?_⟩
    intro k _
    constructor
    · intro before
      cases before
    · intro good
      have positive := good.1
      omega
  · have reached : Reached fs file n (0 * fs.bpb.sectorsPerCluster) := by
      intro j before
      omega
    obtain ⟨p', run, pass⟩ := @read_clusters_pass fs file n sectors small 0 (n + 2 ^ 16) (by omega) (by omega) reached
    have zero : min n (512 * (0 * fs.bpb.sectorsPerCluster)) = 0 := by omega
    rw [zero] at run
    have same : some p' = some p := run.symm.trans read
    rw [← Option.some.inj same]
    exact pass

theorem read_file_ends {bufSize : Nat} (sectors : 0 < fs.bpb.sectorsPerCluster)
    (small : min file.fileSize bufSize ≤ 2 ^ 32 - 512) : ∃ p, fat16ReadFile fs file bufSize = some p := by
  rw [fat16ReadFile]
  generalize min file.fileSize bufSize = n at small
  have reached : Reached fs file n (0 * fs.bpb.sectorsPerCluster) := by
    intro j before
    omega
  obtain ⟨p, run, _⟩ := @read_clusters_pass fs file n sectors small 0 (n + 2 ^ 16) (by omega) (by omega) reached
  have zero : min n (512 * (0 * fs.bpb.sectorsPerCluster)) = 0 := by omega
  rw [zero] at run
  exact ⟨p, run⟩

end Passes
end Archarch.Fat16
