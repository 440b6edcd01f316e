import Archarch.Volumes.PartialReads

/- Where fat16_read_file stores for every length, when its counter wraps and when its loop does
   not end. -/
namespace Archarch.Fat16

def passFrom (fs : Fs) (toRead : Nat) : Nat → Nat → Progress → Progress
  | 0, _, p => p
  | n + 1, cluster, p =>
    if p.done < toRead ∧ 2 ≤ cluster ∧ cluster < chainEnd then
      let p := readSectors fs toRead (firstSectorOf fs cluster) 0 p fs.bpb.sectorsPerCluster
      if p.failed then p else passFrom fs toRead n (fs.fatTable cluster).toNat p
    else p

def passAfter (fs : Fs) (file : FatFile) (bufSize n : Nat) : Progress :=
  passFrom fs (min file.fileSize bufSize) n file.firstCluster ⟨0, [], false⟩

def lastSector : Nat := 2 ^ 23 - 1

def passLength (toRead : Nat) : Nat := if toRead ≤ 512 * lastSector then toRead else 2 ^ 32

def StoredAt (p : Progress) (k : Nat) : Prop := ∃ w ∈ p.stores, w.1 = k

section Growth
variable {fs : Fs} {toRead : Nat} {p q : Progress}

theorem sectors_extend (firstSector s : Nat) (p : Progress) (n : Nat) :
    p.stores <+: (readSectors fs toRead firstSector s p n).stores := by
  induction n generalizing s p with
  | zero => exact List.prefix_rfl
  | succ n ih =>
    rw [readSectors]
    split
    · split
      · exact List.prefix_rfl
      · apply List.IsPrefix.trans _ (ih _ _)
        exact List.prefix_append _ _
    · exact List.prefix_rfl

theorem pass_extends (n cluster : Nat) (p : Progress) : p.stores <+: (passFrom fs toRead n cluster p).stores := by
  induction n generalizing cluster p with
  | zero => exact List.prefix_rfl
  | succ n ih =>
    rw [passFrom]
    dsimp only
    split
    · have sectors := @sectors_extend fs toRead (firstSectorOf fs cluster) 0 p fs.bpb.sectorsPerCluster
      split
      · exact sectors
      · exact sectors.trans (ih _ _)
    · exact List.prefix_rfl

theorem pass_grows (n more cluster : Nat) (p : Progress) :
    (passFrom fs toRead n cluster p).stores <+: (passFrom fs toRead (n + more) cluster p).stores := by
  induction n generalizing cluster p with
  | zero =>
    rw [Nat.zero_add]
    exact pass_extends more cluster p
  | succ n ih =>
    rw [Nat.succ_add, passFrom, passFrom]
    dsimp only
    split
    · split
      · exact List.prefix_rfl
      · exact ih _ _
    · exact List.prefix_rfl

theorem pass_of_read {fuel cluster : Nat} (more : Nat) (read : readClusters fs toRead fuel cluster p = some q) :
    passFrom fs toRead (fuel + more) cluster p = q := by
  induction fuel generalizing p cluster with
  | zero => cases read
  | succ fuel ih =>
    rw [readClusters] at read
    rw [Nat.succ_add, passFrom]
    dsimp only at read ⊢
    split at read
    · rename_i loops
      rw [if_pos loops]
      split at read
      · rename_i failed
        rw [if_pos failed]
        exact Option.some.inj read
      · rename_i fine
        rw [if_neg fine]
        exact ih read
    · rename_i ends
      rw [if_neg ends]
      exact Option.some.inj read

theorem stored_prefix {k : Nat} (before : p.stores <+: q.stores) (stored : StoredAt p k) : StoredAt q k := by
  obtain ⟨w, member, here⟩ := stored
  exact ⟨w, before.subset member, here⟩

end Growth

section Wrap
variable {fs : Fs} {file : FatFile} {toRead : Nat}

theorem stored_read_up_to {first d k : Nat} : StoredAt (readUpTo fs first d) k ↔ k < d := by
  constructor
  · rintro ⟨w, member, rfl⟩
    obtain ⟨j, inside, rfl⟩ := List.mem_map.mp member
    exact List.mem_range.mp inside
  · intro inside
    exact ⟨_, List.mem_map.mpr ⟨k, List.mem_range.mpr inside, rfl⟩, rfl⟩

def There (fs : Fs) (file : FatFile) (k : Nat) : Prop := ∀ j, j < k → SectorThere fs file j

theorem good_of_there {k j : Nat} (sectors : 0 < fs.bpb.sectorsPerCluster) (there : There fs file k) (before : j < k) :
    Good fs file j := by
  refine ⟨sectors, ?_⟩
  intro i upTo
  exact there i (by omega)

structure Along (fs : Fs) (file : FatFile) (k : Nat) (p : Progress) : Prop where
  stores : p.stores = prefixStores fs file.firstCluster (512 * k)
  there : There fs file k
  before : k ≤ lastSector

structure Wrapped (fs : Fs) (file : FatFile) (p : Progress) : Prop where
  there : There fs file (lastSector + 1)
  whole : ∀ k, k < 2 ^ 32 → StoredAt p k

theorem along_stored {k j : Nat} {p : Progress} (along : Along fs file k p) : StoredAt p j ↔ j < 512 * k := by
  have same : StoredAt p j ↔ StoredAt (readUpTo fs file.firstCluster (512 * k)) j := by
    rw [StoredAt, along.stores]
    rfl
  exact same.trans stored_read_up_to

theorem long_sector {k : Nat} {sector : Sector} (long : 512 * lastSector < toRead) (before : k < lastSector)
    (read : fs.blk (fileSector fs file.firstCluster k) = some sector) :
    ({ readUpTo fs file.firstCluster (512 * k) with
        done := (512 * k + (if toRead < (512 * k + 512) % 2 ^ 32 then toRead - 512 * k else 512)) % 2 ^ 32
        stores := prefixStores fs file.firstCluster (512 * k) ++
          (List.range (if toRead < (512 * k + 512) % 2 ^ 32 then toRead - 512 * k else 512)).map
            fun j => ((512 * k + j) % 2 ^ 32, sector j) } : Progress) =
      readUpTo fs file.firstCluster (512 * (k + 1)) := by
  rw [lastSector] at long before
  have chunk : ∀ n, 512 * (2 ^ 23 - 1) ≤ n →
      (if n < (512 * k + 512) % 2 ^ 32 then n - 512 * k else 512) = 512 := by
    intro n far
    rw [if_neg (by omega)]
  have step := @read_sector_eq fs file (512 * (2 ^ 23 - 1)) k sector (by decide) (by omega) read
  rw [chunk _ (Nat.le_refl _)] at step
  rw [chunk toRead (by omega), step, Nat.min_eq_right (by omega)]

theorem wrapping_sector {sector : Sector} {d : Nat} (edge : d + 512 = 2 ^ 32) (there : There fs file (lastSector + 1))
    {p : Progress} (stores : p.stores = prefixStores fs file.firstCluster d ++
      (List.range 512).map fun j => ((d + j) % 2 ^ 32, sector j)) : Wrapped fs file p := by
  refine ⟨there, ?_⟩
  intro k inside
  by_cases front : k < d
  · obtain ⟨w, member, here⟩ := (@stored_read_up_to fs file.firstCluster d k).mpr front
    refine ⟨w, ?_, here⟩
    rw [stores]
    exact List.mem_append_left _ member
  · refine ⟨((d + (k - d)) % 2 ^ 32, sector (k - d)), ?_, ?_⟩
    · rw [stores]
      exact List.mem_append_right _ (List.mem_map.mpr ⟨k - d, List.mem_range.mpr (by omega), rfl⟩)
    · show (d + (k - d)) % 2 ^ 32 = k
      omega

theorem wrapped_extends {p q : Progress} (wrapped : Wrapped fs file p) (before : p.stores <+: q.stores) :
    Wrapped fs file q := by
  constructor
  · exact wrapped.there
  · intro k inside
    exact stored_prefix before (wrapped.whole k inside)

theorem long_sectors (sectors : 0 < fs.bpb.sectorsPerCluster) (long : 512 * lastSector < toRead) {i s n : Nat}
    (low : 2 ≤ clusterAt fs file.firstCluster i) (high : clusterAt fs file.firstCluster i < chainEnd)
    (whole : s + n = fs.bpb.sectorsPerCluster) (there : There fs file (i * fs.bpb.sectorsPerCluster + s))
    (before : i * fs.bpb.sectorsPerCluster + s ≤ lastSector) :
    let p := readSectors fs toRead (firstSectorOf fs (clusterAt fs file.firstCluster i)) s
      (readUpTo fs file.firstCluster (512 * (i * fs.bpb.sectorsPerCluster + s))) n
    (p = readUpTo fs file.firstCluster (512 * ((i + 1) * fs.bpb.sectorsPerCluster)) ∧
        There fs file ((i + 1) * fs.bpb.sectorsPerCluster) ∧ (i + 1) * fs.bpb.sectorsPerCluster ≤ lastSector) ∨
      (p.failed = true ∧ ∃ k, Along fs file k p ∧ ¬ SectorThere fs file k) ∨ Wrapped fs file p := by
  induction n generalizing s with
  | zero =>
    have all : i * fs.bpb.sectorsPerCluster + s = (i + 1) * fs.bpb.sectorsPerCluster := by
      rw [Nat.succ_mul]
      omega
    rw [all] at there before ⊢
    exact Or.inl ⟨rfl, there, before⟩
  | succ n ih =>
    generalize place : i * fs.bpb.sectorsPerCluster + s = k at ih there before ⊢
    have next : i * fs.bpb.sectorsPerCluster + (s + 1) = k + 1 := by omega
    have cluster : k / fs.bpb.sectorsPerCluster = i := by
      rw [← place, Nat.mul_comm, Nat.mul_add_div sectors, Nat.div_eq_of_lt (by omega), Nat.add_zero]
    have sector : k % fs.bpb.sectorsPerCluster = s := by
      rw [← place, Nat.mul_comm, Nat.mul_add_mod, Nat.mod_eq_of_lt (by omega)]
    have disk : fs.blk (firstSectorOf fs (clusterAt fs file.firstCluster i) + s) =
        fs.blk (fileSector fs file.firstCluster k) := by
      rw [fileSector, cluster, sector]
    have more : (readUpTo fs file.firstCluster (512 * k)).done < toRead := by
      show 512 * k < toRead
      omega
    rw [readSectors, if_pos more, disk]
    cases read : fs.blk (fileSector fs file.firstCluster k) with
    | none =>
      right
      left
      refine ⟨rfl, k, ⟨rfl, there, before⟩, ?_⟩
      intro here
      have found := here.read
      rw [read] at found
      cases found
    | some data =>
      have here : SectorThere fs file k := by
        refine ⟨?_, ?_, by rw [read]; rfl⟩
        · rw [cluster]
          exact low
        · rw [cluster]
          exact high
      have there' : There fs file (k + 1) := by
        intro j inside
        by_cases same : j = k
        · rw [same]
          exact here
        · exact there j (by omega)
      by_cases last : k = lastSector
      · right
        right
        apply wrapped_extends _ (sectors_extend _ _ _ _)
        have edge : 512 * k + 512 = 2 ^ 32 := by
          rw [lastSector] at last
          omega
        have there' : There fs file (lastSector + 1) := last ▸ there'
        apply wrapping_sector edge there'
        have chunk : (if toRead < (512 * k + 512) % 2 ^ 32 then toRead - 512 * k else 512) = 512 := by
          rw [edge, Nat.mod_self, if_neg (Nat.not_lt_zero _)]
        exact congrArg (fun n => prefixStores fs file.firstCluster (512 * k) ++
          (List.range n).map fun j => ((512 * k + j) % 2 ^ 32, data j)) chunk
      · have step := long_sector long (by omega) read
        have rest := @ih (s + 1) (by omega)
        rw [next, ← step] at rest
        exact rest there' (by omega)

theorem long_pass (sectors : 0 < fs.bpb.sectorsPerCluster) (long : 512 * lastSector < toRead) {i n : Nat}
    (there : There fs file (i * fs.bpb.sectorsPerCluster)) (before : i * fs.bpb.sectorsPerCluster ≤ lastSector) :
    let p := passFrom fs toRead n (clusterAt fs file.firstCluster i)
      (readUpTo fs file.firstCluster (512 * (i * fs.bpb.sectorsPerCluster)))
    (∃ k, Along fs file k p ∧ (¬ SectorThere fs file k ∨ i + n ≤ k)) ∨ Wrapped fs file p := by
  induction n generalizing i with
  | zero =>
    have wide : i ≤ i * fs.bpb.sectorsPerCluster := Nat.le_mul_of_pos_right i sectors
    exact Or.inl ⟨_, ⟨rfl, there, before⟩, Or.inr wide⟩
  | succ n ih =>
    rw [passFrom]
    have more : (readUpTo fs file.firstCluster (512 * (i * fs.bpb.sectorsPerCluster))).done < toRead := by
      show 512 * (i * fs.bpb.sectorsPerCluster) < toRead
      omega
    by_cases valid : 2 ≤ clusterAt fs file.firstCluster i ∧ clusterAt fs file.firstCluster i < chainEnd
    · rw [if_pos ⟨more, valid⟩]
      dsimp only
      rcases @long_sectors fs file toRead sectors long i 0 fs.bpb.sectorsPerCluster valid.1 valid.2 (Nat.zero_add _)
          there before with ⟨whole, there', before'⟩ | ⟨failed, k, along, missing⟩ | wrapped
      · rw [Nat.add_zero] at whole
        rw [whole, if_neg (show ¬ (readUpTo fs file.firstCluster _).failed = true from Bool.false_ne_true)]
        rcases @ih (i + 1) there' before' with ⟨k, along, stop⟩ | wrapped
        · exact Or.inl ⟨k, along, stop.imp_right fun far => by omega⟩
        · exact Or.inr wrapped
      · rw [Nat.add_zero] at failed along
        rw [if_pos failed]
        exact Or.inl ⟨k, along, Or.inl missing⟩
      · rw [Nat.add_zero] at wrapped
        right
        split
        · exact wrapped
        · exact wrapped_extends wrapped (pass_extends _ _ _)
    · rw [if_neg fun both => valid both.2]
      left
      refine ⟨_, ⟨rfl, there, before⟩, Or.inl ?_⟩
      intro here
      have cluster : i * fs.bpb.sectorsPerCluster / fs.bpb.sectorsPerCluster = i := Nat.mul_div_cancel i sectors
      have low := here.low
      have high := here.high
      rw [cluster] at low high
      exact valid ⟨low, high⟩

end Wrap

section Offsets
variable {fs : Fs} {file : FatFile} {toRead bufSize k : Nat}

theorem sectors_below {firstSector s n : Nat} {p : Progress} (below : ∀ w ∈ p.stores, w.1 < 2 ^ 32) :
    ∀ w ∈ (readSectors fs toRead firstSector s p n).stores, w.1 < 2 ^ 32 := by
  induction n generalizing s p with
  | zero => exact below
  | succ n ih =>
    rw [readSectors]
    split
    · split
      · exact below
      · apply ih
        intro w member
        rcases List.mem_append.mp member with old | new
        · exact below w old
        · obtain ⟨j, _, rfl⟩ := List.mem_map.mp new
          exact Nat.mod_lt _ (by decide)
    · exact below

theorem pass_below {n cluster : Nat} {p : Progress} (below : ∀ w ∈ p.stores, w.1 < 2 ^ 32) :
    ∀ w ∈ (passFrom fs toRead n cluster p).stores, w.1 < 2 ^ 32 := by
  induction n generalizing cluster p with
  | zero => exact below
  | succ n ih =>
    rw [passFrom]
    dsimp only
    split
    · split
      · exact sectors_below below
      · exact ih (sectors_below below)
    · exact below

def Counted (p : Progress) : Prop := ∀ k, k < p.done → StoredAt p k

theorem counted_chunk {chunk : Nat} {p : Progress} (sector : Sector) (counted : Counted p) :
    Counted { p with
      done := (p.done + chunk) % 2 ^ 32
      stores := p.stores ++ (List.range chunk).map fun j => ((p.done + j) % 2 ^ 32, sector j) } := by
  intro k inside
  have before : k < (p.done + chunk) % 2 ^ 32 := inside
  by_cases old : k < p.done
  · exact stored_prefix (List.prefix_append _ _) (counted k old)
  · refine ⟨((p.done + (k - p.done)) % 2 ^ 32, sector (k - p.done)), ?_, ?_⟩
    · exact List.mem_append_right _ (List.mem_map.mpr ⟨k - p.done, List.mem_range.mpr (by omega), rfl⟩)
    · show (p.done + (k - p.done)) % 2 ^ 32 = k
      omega

theorem sectors_counted {firstSector s n : Nat} {p : Progress} (counted : Counted p) :
    Counted (readSectors fs toRead firstSector s p n) := by
  induction n generalizing s p with
  | zero => exact counted
  | succ n ih =>
    rw [readSectors]
    split
    · split
      · exact counted
      · exact ih (counted_chunk _ counted)
    · exact counted

theorem clusters_counted {fuel cluster : Nat} {p q : Progress} (counted : Counted p)
    (read : readClusters fs toRead fuel cluster p = some q) : Counted q := by
  induction fuel generalizing p cluster with
  | zero => cases read
  | succ fuel ih =>
    rw [readClusters] at read
    dsimp only at read
    split at read
    · have later := @sectors_counted fs toRead (firstSectorOf fs cluster) 0 fs.bpb.sectorsPerCluster p counted
      split at read
      · cases read
        exact later
      · exact ih later read
    · cases read
      exact counted

theorem read_file_counted {p : Progress} (read : fat16ReadFile fs file bufSize = some p) : Counted p := by
  have start : Counted ⟨0, [], false⟩ := fun k inside => absurd inside (Nat.not_lt_zero k)
  exact clusters_counted start read

theorem read_file_after {p : Progress} (read : fat16ReadFile fs file bufSize = some p) :
    ∃ n, passAfter fs file bufSize n = p :=
  ⟨_, pass_of_read 0 read⟩

theorem pass_no_sectors (none_ : fs.bpb.sectorsPerCluster = 0) {n cluster : Nat} {p : Progress}
    (fine : p.failed = false) : passFrom fs toRead n cluster p = p := by
  induction n generalizing cluster with
  | zero => rfl
  | succ n ih =>
    rw [passFrom, none_, readSectors]
    dsimp only
    split
    · rw [if_neg (by rw [fine]; exact Bool.false_ne_true)]
      exact ih
    · rfl

theorem long_pass_stores (sectors : 0 < fs.bpb.sectorsPerCluster) (long : 512 * lastSector < toRead) :
    (∃ n, StoredAt (passFrom fs toRead n file.firstCluster ⟨0, [], false⟩) k) ↔
      k < 2 ^ 32 ∧ Good fs file (k / 512) := by
  have zero : (⟨0, [], false⟩ : Progress) =
      readUpTo fs file.firstCluster (512 * (0 * fs.bpb.sectorsPerCluster)) := by
    rw [Nat.zero_mul]
    rfl
  have start : There fs file (0 * fs.bpb.sectorsPerCluster) := by
    intro j before
    omega
  constructor
  · rintro ⟨n, stored⟩
    have below : k < 2 ^ 32 := by
      obtain ⟨w, member, rfl⟩ := stored
      exact pass_below (by simp) w member
    refine ⟨below, ?_⟩
    rw [zero] at stored
    rcases @long_pass fs file toRead sectors long 0 n start (by omega) with ⟨m, along, _⟩ | wrapped
    · have inside := (along_stored along).mp stored
      exact good_of_there sectors along.there (by omega)
    · apply good_of_there sectors wrapped.there
      rw [lastSector]
      omega
  · rintro ⟨below, good⟩
    refine ⟨2 ^ 23, ?_⟩
    rw [zero]
    rcases @long_pass fs file toRead sectors long 0 (2 ^ 23) start (by omega) with ⟨m, along, stop⟩ | wrapped
    · apply (along_stored along).mpr
      have before := along.before
      rw [lastSector] at before
      have missing := stop.resolve_right (by omega)
      by_contra behind
      exact missing (good.2 m (by omega))
    · exact wrapped.whole k below

theorem short_pass_stores (sectors : 0 < fs.bpb.sectorsPerCluster) (short : min file.fileSize bufSize ≤ 512 * lastSector) :
    (∃ n, StoredAt (passAfter fs file bufSize n) k) ↔ k < min file.fileSize bufSize ∧ Good fs file (k / 512) := by
  have small : min file.fileSize bufSize ≤ 2 ^ 32 - 512 := short
  obtain ⟨p, read⟩ := read_file_ends sectors small
  have pass := read_file_pass small read
  have reaches : ∀ n, passAfter fs file bufSize (min file.fileSize bufSize + 2 ^ 16 + n) = p := fun n => pass_of_read n read
  have stored : StoredAt p k ↔ k < p.done := by
    have same : StoredAt p k ↔ StoredAt (readUpTo fs file.firstCluster p.done) k := by
      rw [StoredAt, pass.stores]
      rfl
    exact same.trans stored_read_up_to
  have most := pass.most
  constructor
  · rintro ⟨n, at_⟩
    have grown := @pass_grows fs (min file.fileSize bufSize) n (min file.fileSize bufSize + 2 ^ 16) file.firstCluster
      ⟨0, [], false⟩
    rw [Nat.add_comm n] at grown
    have later := stored_prefix grown at_
    have whole := reaches n
    rw [passAfter] at whole
    rw [whole] at later
    have done := stored.mp later
    exact ⟨by omega, (pass.exact k (by omega)).mp done⟩
  · rintro ⟨inside, good⟩
    refine ⟨min file.fileSize bufSize + 2 ^ 16 + 0, ?_⟩
    rw [reaches 0]
    exact stored.mpr ((pass.exact k inside).mpr good)

/-- The offsets at which a pass stores, whether it ends or not: those in front of its length, as far
    as the sectors are there. -/
theorem pass_stores_iff : (∃ n, StoredAt (passAfter fs file bufSize n) k) ↔
    k < passLength (min file.fileSize bufSize) ∧ Good fs file (k / 512) := by
  rcases Nat.eq_zero_or_pos fs.bpb.sectorsPerCluster with none_ | sectors
  · constructor
    · rintro ⟨n, stored⟩
      rw [passAfter, pass_no_sectors none_ rfl] at stored
      obtain ⟨w, member, _⟩ := stored
      cases member
    · rintro ⟨_, good⟩
      have positive := good.1
      omega
  · rw [passLength]
    by_cases short : min file.fileSize bufSize ≤ 512 * lastSector
    · rw [if_pos short]
      exact short_pass_stores sectors short
    · rw [if_neg short]
      exact long_pass_stores sectors (by omega)

end Offsets
end Archarch.Fat16
