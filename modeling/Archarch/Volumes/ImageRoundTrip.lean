import Mathlib.Data.List.GetD
import Archarch.Volumes.ChainReads
import Archarch.Volumes.DiskImages
import Archarch.Volumes.RootDirectory

/- What the driver reads from a disk that was made to hold given files. -/
namespace Archarch.Fat16

def shownName (f : StoredFile) : List Byte := fat83ToStr (direntOf f)

/-- The driver finds the files, each under its name in any case, with its data, and no others. -/
structure HoldsFiles (fs : Fs) (files : List StoredFile) : Prop where
  listing : fat16ListRoot fs = files.map fun f => (shownName f, f.data.length)
  found : ∀ f ∈ files, ∀ text, SameLetters text (shownName f) →
    ∃ file, fat16Open fs text = some file ∧ file.fileSize = f.data.length ∧
      ∀ bufSize, ∃ p, fat16ReadFile fs file bufSize = some p ∧ Delivers p f.data (min f.data.length bufSize)
  absent : ∀ text, (∀ f ∈ files, toFat83 text ≠ pad 8 f.name ++ pad 3 f.ext) → fat16Open fs text = none

section Mount
variable {v : Volume} {fs : Fs} {fields : BootFields}

theorem load_fat_reads {blk : Nat → Option Sector} {reserved : Nat} {table : Nat → BitVec 16} {i n : Nat}
    (reads : ∀ k, i ≤ k → k < i + n → (blk (reserved + k)).isSome) : (loadFat blk reserved table i n).isSome := by
  induction n generalizing i table with
  | zero => rfl
  | succ n ih =>
    obtain ⟨sector, read⟩ := Option.isSome_iff_exists.mp (reads i (Nat.le_refl i) (by omega))
    rw [loadFat, read]
    exact ih fun k low high => reads k (by omega) (by omega)

theorem disk_mounts (v : Volume) (alloc : Nat → BitVec 16) :
    ∃ fs, fat16Mount v.disk (some alloc) = some (v.bootFieldsOf, fs) := by
  have size : v.bootFieldsOf.fatSize16 * 512 ≠ 0 := by
    have := v.fatWord.1
    change v.fatSectors * 512 ≠ 0
    omega
  have loads : (loadFat v.disk v.reserved alloc 0 v.fatSectors).isSome := by
    apply load_fat_reads
    intro k _ inside
    rw [disk_fat (by omega)]
    rfl
  obtain ⟨table, loaded⟩ := Option.isSome_iff_exists.mp loads
  have signature : v.bootSector 510 = 0x55 ∧ v.bootSector 511 = 0xAA := ⟨rfl, rfl⟩
  refine ⟨⟨v.disk, derivedValues v.bootFieldsOf, table⟩, ?_⟩
  rw [fat16Mount, disk_boot]
  dsimp only
  rw [if_neg (by simp [signature]), boot_fields_eq, if_neg (by simp [Volume.bootFieldsOf]), fatBlock, if_neg size]
  change Option.map _ (loadFat v.disk v.reserved alloc 0 v.fatSectors) = _
  rw [loaded]
  rfl

structure ReadsDisk (v : Volume) (fs : Fs) : Prop where
  blk : fs.blk = v.disk
  bpb : fs.bpb = ⟨v.perCluster, v.rootStart, (v.rootEntries * 32 + 511) / 512, v.dataStart⟩
  table : ∀ k, k < 256 * v.fatSectors → (fs.fatTable k).toNat = v.link k % 2 ^ 16

theorem mounted_reads_disk (mounted : Mounted v.disk v.bootFieldsOf fs) : ReadsDisk v fs := by
  refine ⟨mounted.disk, mounted.derived.trans rfl, ?_⟩
  intro k inside
  obtain ⟨sector, read, entry⟩ := mounted.table k (by
    change k < v.fatSectors * 256
    omega)
  have place : v.disk (v.reserved + k / 256) = some (v.fatSector (k / 256)) := disk_fat (by omega)
  obtain rfl := Option.some.inj (place.symm.trans read)
  have low : 256 * (k / 256) + 2 * (k % 256) / 2 = k := by omega
  have high : 256 * (k / 256) + (2 * (k % 256) + 1) / 2 = k := by omega
  have first : 2 * (k % 256) % 2 = 0 := by omega
  have second : (2 * (k % 256) + 1) % 2 = 1 := by omega
  rw [entry, entryAt, read16, Volume.fatSector, Volume.fatSector, low, high, first, second, BitVec.toNat_ofNat,
    byte_of_toNat, byte_of_toNat]
  omega

end Mount

section Chains
variable {v : Volume} {fs : Fs} {f : StoredFile} {c j : Nat}

theorem owner_eq (here : f ∈ v.files) (member : c ∈ f.clusters) : v.owner c = some f := by
  cases found : v.owner c with
  | none =>
    have none := List.find?_eq_none.mp found f here
    exact absurd (decide_eq_true member) none
  | some g =>
    have mine : c ∈ g.clusters := by
      have passes := List.find?_some found
      exact of_decide_eq_true passes
    have apart := (List.nodup_flatMap.mp v.apart).2
    have symm : Std.Symm (Function.onFun List.Disjoint StoredFile.clusters) := ⟨fun _ _ split _ first second => split second first⟩
    by_contra other
    have split := apart.forall (List.mem_of_find?_eq_some found) here (fun same => other (by rw [same]))
    exact split mine member

theorem clusters_nodup (here : f ∈ v.files) : f.clusters.Nodup := (List.nodup_flatMap.mp v.apart).1 f here

theorem link_eq (here : f ∈ v.files) (inside : j < f.clusters.length) :
    v.link f.clusters[j] = f.clusters.getD (j + 1) 0xFFFF := by
  rw [Volume.link, owner_eq here (List.getElem_mem inside)]
  dsimp only
  rw [(clusters_nodup here).idxOf_getElem]

theorem cluster_at_eq (reads : ReadsDisk v fs) (here : f ∈ v.files) (some_ : 0 < f.clusters.length)
    (inside : j ≤ f.clusters.length) : clusterAt fs (direntOf f).firstCluster j = f.clusters.getD j 0xFFFF := by
  induction j with
  | zero =>
    rw [clusterAt, List.getD_eq_getElem _ _ some_]
    change f.clusters.headD 0 = _
    rw [List.headD_eq_head?_getD, List.head?_eq_getElem?, List.getElem?_eq_getElem some_, Option.getD_some]
  | succ j ih =>
    have member := List.getElem_mem inside
    obtain ⟨low, high, inFat⟩ := (v.fits f here).range _ member
    rw [clusterAt, ih (by omega), List.getD_eq_getElem _ _ inside, reads.table _ inFat, link_eq here inside]
    apply Nat.mod_eq_of_lt
    by_cases last : j + 1 < f.clusters.length
    · rw [List.getD_eq_getElem _ _ last]
      have bound := ((v.fits f here).range _ (List.getElem_mem last)).2.1
      rw [chainEnd] at bound
      omega
    · rw [List.getD_eq_default _ _ (by omega)]
      decide

theorem file_byte_eq (reads : ReadsDisk v fs) (here : f ∈ v.files) {k : Nat} (inside : k < f.data.length) :
    (fs.blk (fileSector fs (direntOf f).firstCluster (k / 512))).isSome ∧
      fileByte fs (direntOf f).firstCluster k = f.data[k] := by
  have fits := v.fits f here
  have per := v.perClusterByte.1
  have sectors : fs.bpb.sectorsPerCluster = v.perCluster := by rw [reads.bpb]
  have index : k / 512 / v.perCluster < f.clusters.length := by
    refine Nat.div_lt_of_lt_mul (Nat.div_lt_of_lt_mul ?_)
    have room := fits.room
    rw [Nat.mul_assoc] at room
    omega
  have member := List.getElem_mem index
  obtain ⟨low, _, inFat⟩ := fits.range _ member
  have sector : fileSector fs (direntOf f).firstCluster (k / 512) = v.dataStart +
      (f.clusters[k / 512 / v.perCluster] - 2) * v.perCluster + k / 512 % v.perCluster := by
    rw [fileSector, firstSectorOf, sectors, cluster_at_eq reads here (Nat.zero_lt_of_lt index) (Nat.le_of_lt index),
      List.getD_eq_getElem _ _ index, reads.bpb]
  have read : fs.blk (fileSector fs (direntOf f).firstCluster (k / 512)) =
      some (v.dataSector f.clusters[k / 512 / v.perCluster] (k / 512 % v.perCluster)) := by
    rw [sector, reads.blk]
    exact disk_data low inFat (Nat.mod_lt _ per)
  refine ⟨by rw [read]; rfl, ?_⟩
  have place : 512 * (v.perCluster * (k / 512 / v.perCluster) + k / 512 % v.perCluster) + k % 512 = k := by
    rw [Nat.div_add_mod]
    omega
  rw [fileByte, read, Option.getD_some, Volume.dataSector, owner_eq here member]
  dsimp only
  rw [(clusters_nodup here).idxOf_getElem, place, List.getD_eq_getElem _ _ inside]

theorem contents_stored (reads : ReadsDisk v fs) (here : f ∈ v.files) :
    contents fs (file (direntOf f)) = f.data := by
  have length : (contents fs (file (direntOf f))).length = f.data.length := by
    rw [contents, List.length_map, List.length_range]
    rfl
  apply List.ext_getElem length
  intro k _ inside
  rw [← (file_byte_eq reads here inside).2]
  simp only [contents, List.getElem_map, List.getElem_range]
  rfl

theorem stored_file_covered (reads : ReadsDisk v fs) (here : f ∈ v.files) : Covers fs (file (direntOf f)) := by
  have sectors : fs.bpb.sectorsPerCluster = v.perCluster := by rw [reads.bpb]
  constructor
  · rw [sectors]
    exact v.perClusterByte.1
  · intro i wanted
    rw [sectors] at wanted
    change i * v.perCluster * 512 < f.data.length at wanted
    have room := (v.fits f here).room
    have index : i < f.clusters.length := by
      by_contra beyond
      have more : f.clusters.length * v.perCluster ≤ i * v.perCluster := Nat.mul_le_mul_right _ (by omega)
      have swap : 512 * v.perCluster * f.clusters.length = f.clusters.length * v.perCluster * 512 := by
        rw [Nat.mul_assoc, Nat.mul_comm, Nat.mul_comm v.perCluster]
      omega
    have cluster := cluster_at_eq reads here (by omega) (Nat.le_of_lt index)
    have range := (v.fits f here).range _ (List.getElem_mem index)
    have start : (file (direntOf f)).firstCluster = (direntOf f).firstCluster := rfl
    rw [start, cluster, List.getD_eq_getElem _ _ index]
    exact ⟨range.1, range.2.1⟩
  · intro k wanted
    have byte := file_byte_eq reads here wanted
    rw [Nat.mul_div_cancel _ (by decide)] at byte
    exact byte.1

theorem stored_file_read (reads : ReadsDisk v fs) (here : f ∈ v.files) (bufSize : Nat) :
    ∃ p, fat16ReadFile fs (file (direntOf f)) bufSize = some p ∧ Delivers p f.data (min f.data.length bufSize) := by
  have size := (v.fits f here).size
  have whole : min f.data.length bufSize ≤ f.data.length := Nat.min_le_left _ _
  refine ⟨_, fat16_read_file_eq (stored_file_covered reads here) size bufSize, ?_⟩
  change Delivers (readUpTo fs (direntOf f).firstCluster (min f.data.length bufSize)) _ _
  constructor
  · exact read_up_to_result (by omega)
  · intro buf k inside
    have bound : k < f.data.length := by omega
    rw [placed_buffer_get, if_pos inside, (file_byte_eq reads here bound).2, List.getElem?_eq_getElem bound]
  · intro buf k behind
    rw [placed_buffer_get, if_neg (by omega)]
  · intro w member
    obtain ⟨k, inside, rfl⟩ := List.mem_map.mp member
    exact List.mem_range.mp inside

end Chains

section Directory
variable {v : Volume} {fs : Fs} {de : Dirent}

structure Fielded (de : Dirent) : Prop where
  name : de.name.length = 8
  ext : de.ext.length = 3
  cluster : de.firstCluster < 2 ^ 16
  size : de.fileSize < 2 ^ 32

theorem list_of_bytes {α : Type} {xs : List α} {n : Nat} (fallback : α) (width : xs.length = n) :
    ((List.range n).map fun k => xs.getD k fallback) = xs := by
  apply List.ext_getElem
  · rw [List.length_map, List.length_range, width]
  · intro k first second
    rw [List.getElem_map, List.getElem_range, List.getD_eq_getElem _ _ second]

theorem dirent_at_eq {sector : Sector} {i : Nat} (fielded : Fielded de)
    (bytes : ∀ k, k < 32 → sector (32 * i + k) = direntByte de k) : direntAt sector i = de := by
  have name : ((List.range 8).map fun k => sector (32 * i + k)) = de.name := by
    rw [← list_of_bytes 0 fielded.name]
    apply List.map_congr_left
    intro k inside
    have short : k < 8 := List.mem_range.mp inside
    rw [bytes k (by omega), direntByte, if_pos short]
  have ext : ((List.range 3).map fun k => sector (32 * i + 8 + k)) = de.ext := by
    rw [← list_of_bytes 0 fielded.ext]
    apply List.map_congr_left
    intro k inside
    have short : k < 3 := List.mem_range.mp inside
    have place : 32 * i + 8 + k = 32 * i + (8 + k) := Nat.add_assoc _ _ _
    rw [place, bytes (8 + k) (by omega), direntByte, if_neg (by omega), if_pos (by omega), Nat.add_sub_cancel_left]
  have attr : sector (32 * i + 11) = de.attr := bytes 11 (by decide)
  have low : sector (32 * i + 26) = byteOf de.firstCluster 0 := bytes 26 (by decide)
  have high : sector (32 * i + 27) = byteOf de.firstCluster 1 := bytes 27 (by decide)
  have size : ∀ k, k < 4 → sector (32 * i + (28 + k)) = byteOf de.fileSize k := by
    intro k small
    rw [bytes (28 + k) (by omega), direntByte, if_neg (by omega), if_neg (by omega), if_neg (by omega), if_neg (by omega),
      if_pos (by omega), Nat.add_sub_cancel_left]
  rw [direntAt, name, ext, attr, low, high, byte_of_pair fielded.cluster]
  have word : (sector (32 * i + 28)).toNat + 2 ^ 8 * (sector (32 * i + 29)).toNat +
      2 ^ 16 * (sector (32 * i + 30)).toNat + 2 ^ 24 * (sector (32 * i + 31)).toNat = de.fileSize := by
    rw [size 0 (by decide), size 1 (by decide), size 2 (by decide), size 3 (by decide)]
    exact byte_of_word fielded.size
  rw [word]

theorem dirent_of_fielded {f : StoredFile} (here : f ∈ v.files) : Fielded (direntOf f) := by
  have fits := v.fits f here
  refine ⟨length_pad fits.legal.short, length_pad fits.legal.shortExt, ?_, Nat.lt_trans fits.size (by decide)⟩
  change f.clusters.headD 0 < 2 ^ 16
  cases clusters : f.clusters with
  | nil => decide
  | cons c rest =>
    have bound := (fits.range c (by rw [clusters]; exact List.mem_cons_self)).2.1
    rw [chainEnd] at bound
    rw [List.headD_cons]
    omega

theorem root_entry_fielded (v : Volume) (e : Nat) : Fielded (v.rootEntry e) := by
  rw [Volume.rootEntry]
  cases entry : (v.files.map direntOf)[e]? with
  | none => exact ⟨rfl, rfl, by decide, by decide⟩
  | some de =>
    obtain ⟨f, here, rfl⟩ := List.mem_map.mp (List.mem_of_getElem? entry)
    exact dirent_of_fielded here

theorem entries_from_disk (reads : ReadsDisk v fs) (s n : Nat) (inside : s + n ≤ (v.rootEntries * 32 + 511) / 512) :
    entriesFrom fs s n = (List.range' (16 * s) (16 * n)).map v.rootEntry := by
  induction n generalizing s with
  | zero => rfl
  | succ n ih =>
    have read : fs.blk (fs.bpb.rootDirSector + s) = some (v.rootSector s) := by
      rw [reads.blk, reads.bpb]
      exact disk_root (by omega)
    have sector : sectorEntries (v.rootSector s) = (List.range' (16 * s) 16).map v.rootEntry := by
      rw [sectorEntries, entriesPerSector, List.range'_eq_map_range, List.map_map]
      apply List.map_congr_left
      intro i _
      refine dirent_at_eq (root_entry_fielded v _) ?_
      intro k small
      have entry : (32 * i + k) / 32 = i := by omega
      have offset : (32 * i + k) % 32 = k := by omega
      rw [Volume.rootSector, entry, offset]
      rfl
    have split : 16 * (n + 1) = 16 + 16 * n := by omega
    have next : 16 * (s + 1) = 16 * s + 16 := by omega
    rw [entries_from_succ, sector_at_read read, sector, ih (s + 1) (by omega), split, next, ← List.map_append,
      List.range'_append_1]

theorem live_files {files : List Dirent} (goes : ∀ de ∈ files, de.continues = true ∧ de.kept = true) (rest : List Dirent)
    (ends : ∀ de ∈ rest.head?, de.first = endMark) : live (files ++ rest) = files := by
  have all : files.all Dirent.continues = true := List.all_eq_true.mpr fun de here => (goes de here).1
  have front : live files = files := by
    rw [live, List.takeWhile_eq_self_iff.mpr fun de here => (goes de here).1]
    exact List.filter_eq_self.mpr fun de here => (goes de here).2
  have back : live rest = [] := by
    cases rest with
    | nil => rfl
    | cons de rest => exact live_end (ends de rfl)
  rw [live_append, if_pos all, front, back, List.append_nil]

theorem root_entries_eq (reads : ReadsDisk v fs) : rootEntries fs = v.files.map direntOf := by
  have sectors : fs.bpb.rootDirSectors = (v.rootEntries * 32 + 511) / 512 := by rw [reads.bpb]
  have enough : v.files.length ≤ 16 * fs.bpb.rootDirSectors := by
    have := v.rootWord.1
    rw [sectors]
    omega
  obtain ⟨more, total⟩ := Nat.exists_eq_add_of_le enough
  have files : (List.range' 0 v.files.length).map v.rootEntry = v.files.map direntOf := by
    apply List.ext_getElem
    · simp
    · intro e first second
      rw [List.getElem_map, List.getElem_range', Volume.rootEntry]
      have place : 0 + 1 * e = e := by omega
      rw [place, List.getElem?_eq_getElem second, Option.getD_some]
  rw [rootEntries, entries_from_disk reads 0 _ (by omega), Nat.mul_zero, total, ← List.range'_append_1, List.map_append,
    files]
  apply live_files
  · intro de here
    obtain ⟨f, member, rfl⟩ := List.mem_map.mp here
    have fits := v.fits f member
    have first : (direntOf f).first = f.name.headD 0 := by
      change (pad 8 f.name).headD 0 = _
      have some_ := fits.legal.some
      cases name : f.name with
      | nil =>
        rw [name] at some_
        cases some_
      | cons c rest => rfl
    have typed : f.name.headD 0 ≠ endMark := by
      have some_ := fits.legal.some
      have chars := fits.legal.chars
      cases name : f.name with
      | nil =>
        rw [name] at some_
        cases some_
      | cons c rest =>
        exact (chars c (by rw [name]; exact List.mem_cons_self)).1.1
    rw [Dirent.continues, Dirent.kept, first]
    exact ⟨decide_eq_true typed, decide_eq_true fits.first⟩
  · intro de here
    cases more with
    | zero => cases here
    | succ more =>
      rw [Nat.zero_add, List.range'_succ, List.map_cons, List.head?_cons] at here
      cases here
      rw [Volume.rootEntry, List.getElem?_eq_none (by rw [List.length_map]), Option.getD_none]
      rfl

theorem root_sectors_read (reads : ReadsDisk v fs) : SectorsRead fs := by
  intro s inside
  rw [reads.bpb] at inside
  rw [reads.blk, reads.bpb, disk_root inside]
  rfl

theorem plain_dirent (f : StoredFile) : listed (direntOf f) = true ∧ openable (direntOf f) = true := by
  have attr : (direntOf f).attr = fatAttrArchive := rfl
  rw [listed, openable, attr]
  decide

theorem find_dirent {f : StoredFile} (here : f ∈ v.files) :
    (v.files.map direntOf).find? (named ((direntOf f).name ++ (direntOf f).ext)) = some (direntOf f) := by
  cases found : (v.files.map direntOf).find? (named ((direntOf f).name ++ (direntOf f).ext)) with
  | none => exact absurd (decide_eq_true rfl) (List.find?_eq_none.mp found _ (List.mem_map_of_mem here))
  | some de =>
    obtain ⟨g, member, rfl⟩ := List.mem_map.mp (List.mem_of_find?_eq_some found)
    have passes := List.find?_some found
    have same : pad 8 f.name ++ pad 3 f.ext = pad 8 g.name ++ pad 3 g.ext := of_decide_eq_true passes
    rw [List.inj_on_of_nodup_map v.names here member same]

end Directory

theorem open_stored {v : Volume} {fs : Fs} {f : StoredFile} {text : List Byte} (reads : ReadsDisk v fs) (here : f ∈ v.files)
    (same : SameLetters text (shownName f)) : fat16Open fs text = some (file (direntOf f)) := by
  have all : (v.files.map direntOf).filter openable = v.files.map direntOf := by
    apply List.filter_eq_self.mpr
    intro de member
    obtain ⟨g, _, rfl⟩ := List.mem_map.mp member
    exact (plain_dirent g).2
  rw [fat16Open, open_name_eq (root_sectors_read reads), root_entries_eq reads, all,
    to_fat83_any_case (v.fits f here).legal same, find_dirent here, Option.map_some]

theorem reads_disk_holds {v : Volume} {fs : Fs} (reads : ReadsDisk v fs) : HoldsFiles fs v.files := by
  have sectors := root_sectors_read reads
  have root := root_entries_eq reads
  constructor
  · rw [list_root_eq sectors, root, List.filter_eq_self.mpr, List.map_map]
    · rfl
    · intro de here
      obtain ⟨f, _, rfl⟩ := List.mem_map.mp here
      exact (plain_dirent f).1
  · intro f here text same
    exact ⟨file (direntOf f), open_stored reads here same, rfl, stored_file_read reads here⟩
  · intro text other
    rw [fat16Open, open_name_eq sectors, root, List.find?_eq_none.mpr, Option.map_none]
    intro de here same
    obtain ⟨f, member, rfl⟩ := List.mem_map.mp (List.mem_filter.mp here).1
    exact other f member (of_decide_eq_true same)

/-- SHELL.BIN, in one cluster behind a free one. -/
def shellFile : StoredFile :=
  ⟨[0x53, 0x48, 0x45, 0x4C, 0x4C], [0x42, 0x49, 0x4E], [0x1F, 0x20, 0x03, 0xD5], [3]⟩

/-- NOTES.TXT, in two clusters that come on the disk in the other order. -/
def notesFile : StoredFile :=
  ⟨[0x4E, 0x4F, 0x54, 0x45, 0x53], [0x54, 0x58, 0x54], List.replicate 512 0x2E ++ [0x21], [6, 5]⟩

theorem shell_file_fits : FileFits 1 1 shellFile := by
  refine ⟨⟨rfl, rfl, by decide, by decide, by decide, ?_, ?_⟩, by decide, by decide, by decide, ?_⟩
  · unfold Legal Typed
    decide
  · unfold Legal Typed
    decide
  · decide

theorem notes_file_fits : FileFits 1 1 notesFile := by
  have length : notesFile.data.length = 513 := by
    rw [notesFile, List.length_append, List.length_replicate]
    rfl
  refine ⟨⟨rfl, rfl, by decide, by decide, by decide, ?_, ?_⟩, ?_, ?_, ?_, ?_⟩
  · unfold Legal Typed
    decide
  · unfold Legal Typed
    decide
  · decide
  · rw [length]
    decide
  · rw [length]
    decide
  · decide

def shellVolume : Volume where
  perCluster := 1
  reserved := 1
  fats := 1
  rootEntries := 16
  fatSectors := 1
  files := [shellFile, notesFile]
  perClusterByte := by decide
  reservedWord := by decide
  fatsByte := by decide
  rootWord := by decide
  fatWord := by decide
  fits := by
    intro f here
    rcases List.mem_pair.mp here with rfl | rfl
    · exact shell_file_fits
    · exact notes_file_fits
  names := by decide
  apart := by decide

end Archarch.Fat16
