import Mathlib.Data.List.Nodup
import Archarch.Volumes.Mounting
import Archarch.Volumes.Names

/- The other direction of fat16.c: a disk that holds given files in the format that the driver
   reads, with any chains of clusters. The driver writes nothing; such a disk is made outside. -/
namespace Archarch.Fat16

/-- Byte k of a little-endian number. -/
def byteOf (value k : Nat) : Byte := BitVec.ofNat 8 (value / 2 ^ (8 * k))

structure StoredFile where
  name : List Byte
  ext : List Byte
  data : List Byte
  clusters : List Nat

/-- The directory entry of a file. -/
def direntOf (f : StoredFile) : Dirent :=
  ⟨pad 8 f.name, pad 3 f.ext, fatAttrArchive, f.clusters.headD 0, f.data.length⟩

structure FileFits (perCluster fatSectors : Nat) (f : StoredFile) : Prop where
  legal : LegalName (direntOf f) f.name f.ext
  first : f.name.headD 0 ≠ deletedMark
  size : f.data.length < 2 ^ 31
  room : f.data.length ≤ 512 * perCluster * f.clusters.length
  range : ∀ c ∈ f.clusters, 2 ≤ c ∧ c < chainEnd ∧ c < 256 * fatSectors

structure Volume where
  perCluster : Nat
  reserved : Nat
  fats : Nat
  rootEntries : Nat
  fatSectors : Nat
  files : List StoredFile
  perClusterByte : 0 < perCluster ∧ perCluster < 2 ^ 8
  reservedWord : 0 < reserved ∧ reserved < 2 ^ 16
  fatsByte : 0 < fats ∧ fats < 2 ^ 8
  rootWord : files.length ≤ rootEntries ∧ rootEntries < 2 ^ 16
  fatWord : 0 < fatSectors ∧ fatSectors < 2 ^ 16
  fits : ∀ f ∈ files, FileFits perCluster fatSectors f
  names : (files.map fun f => pad 8 f.name ++ pad 3 f.ext).Nodup
  apart : (files.flatMap StoredFile.clusters).Nodup

namespace Volume

def rootStart (v : Volume) : Nat := v.reserved + v.fats * v.fatSectors

def dataStart (v : Volume) : Nat := v.rootStart + (v.rootEntries * 32 + 511) / 512

def totalSectors (v : Volume) : Nat := v.dataStart + v.perCluster * (256 * v.fatSectors)

def bootSector (v : Volume) (i : Nat) : Byte :=
  if 11 ≤ i ∧ i < 13 then byteOf 512 (i - 11)
  else if i = 13 then byteOf v.perCluster 0
  else if 14 ≤ i ∧ i < 16 then byteOf v.reserved (i - 14)
  else if i = 16 then byteOf v.fats 0
  else if 17 ≤ i ∧ i < 19 then byteOf v.rootEntries (i - 17)
  else if 22 ≤ i ∧ i < 24 then byteOf v.fatSectors (i - 22)
  else if i = 510 then 0x55
  else if i = 511 then 0xAA
  else 0

def owner (v : Volume) (c : Nat) : Option StoredFile := v.files.find? fun f => decide (c ∈ f.clusters)

/-- The entry of the FAT: the next cluster of the file, or the end of the chain. -/
def link (v : Volume) (c : Nat) : Nat :=
  match v.owner c with
  | none => 0
  | some f => f.clusters.getD (f.clusters.idxOf c + 1) 0xFFFF

def fatSector (v : Volume) (i j : Nat) : Byte := byteOf (v.link (256 * i + j / 2)) (j % 2)

end Volume

def direntByte (de : Dirent) (k : Nat) : Byte :=
  if k < 8 then de.name.getD k 0
  else if k < 11 then de.ext.getD (k - 8) 0
  else if k = 11 then de.attr
  else if 26 ≤ k ∧ k < 28 then byteOf de.firstCluster (k - 26)
  else if 28 ≤ k then byteOf de.fileSize (k - 28)
  else 0

def emptyDirent : Dirent := ⟨List.replicate 8 0, List.replicate 3 0, 0, 0, 0⟩

namespace Volume

def rootEntry (v : Volume) (e : Nat) : Dirent := ((v.files.map direntOf)[e]?).getD emptyDirent

def rootSector (v : Volume) (s j : Nat) : Byte := direntByte (v.rootEntry (16 * s + j / 32)) (j % 32)

def dataSector (v : Volume) (c s j : Nat) : Byte :=
  match v.owner c with
  | none => 0
  | some f => f.data.getD (512 * (v.perCluster * f.clusters.idxOf c + s) + j) 0

/-- The sectors of the disk; behind the last one a read fails. -/
def disk (v : Volume) (n : Nat) : Option Sector :=
  if v.totalSectors ≤ n then none
  else if n = 0 then some v.bootSector
  else if n < v.reserved then some fun _ => 0
  else if n < v.rootStart then some (v.fatSector ((n - v.reserved) % v.fatSectors))
  else if n < v.dataStart then some (v.rootSector (n - v.rootStart))
  else some (v.dataSector ((n - v.dataStart) / v.perCluster + 2) ((n - v.dataStart) % v.perCluster))

def bootFieldsOf (v : Volume) : BootFields :=
  ⟨512, v.perCluster, v.reserved, v.fats, v.rootEntries, 0, 0, v.fatSectors⟩

end Volume

section Bytes
variable {value : Nat}

theorem byte_of_toNat (value k : Nat) : (byteOf value k).toNat = value / 2 ^ (8 * k) % 2 ^ 8 :=
  BitVec.toNat_ofNat _ _

theorem byte_of_zero (small : value < 2 ^ 8) : (byteOf value 0).toNat = value := by
  rw [byte_of_toNat]
  omega

theorem byte_of_pair (small : value < 2 ^ 16) : (byteOf value 0).toNat + 2 ^ 8 * (byteOf value 1).toNat = value := by
  rw [byte_of_toNat, byte_of_toNat]
  omega

theorem byte_of_word (small : value < 2 ^ 32) : (byteOf value 0).toNat + 2 ^ 8 * (byteOf value 1).toNat +
    2 ^ 16 * (byteOf value 2).toNat + 2 ^ 24 * (byteOf value 3).toNat = value := by
  simp only [byte_of_toNat]
  omega

theorem boot_fields_eq (v : Volume) : bootFields v.bootSector = v.bootFieldsOf := by
  have perCluster := byte_of_zero v.perClusterByte.2
  have fats := byte_of_zero v.fatsByte.2
  have sector := @byte_of_pair 512 (by decide)
  have reserved := byte_of_pair v.reservedWord.2
  have root := byte_of_pair v.rootWord.2
  have fat := byte_of_pair v.fatWord.2
  simp [bootFields, Volume.bootFieldsOf, read32, read16, Volume.bootSector, perCluster, fats]
  exact ⟨sector, reserved, root, fat⟩

end Bytes

section Sectors
variable {v : Volume} {k n : Nat}

theorem fat_before_root (v : Volume) (inside : k < v.fatSectors) : v.reserved + k < v.rootStart := by
  have one : v.fatSectors ≤ v.fats * v.fatSectors := Nat.le_mul_of_pos_left _ v.fatsByte.1
  rw [Volume.rootStart]
  omega

theorem root_before_data (v : Volume) (inside : k < (v.rootEntries * 32 + 511) / 512) :
    v.rootStart + k < v.dataStart := by
  rw [Volume.dataStart]
  omega

theorem data_before_end (v : Volume) : v.dataStart < v.totalSectors := by
  have some_ : 0 < v.perCluster * (256 * v.fatSectors) :=
    Nat.mul_pos v.perClusterByte.1 (Nat.mul_pos (by decide) v.fatWord.1)
  rw [Volume.totalSectors]
  omega

theorem root_le_data (v : Volume) : v.rootStart ≤ v.dataStart := Nat.le_add_right _ _

theorem disk_boot (v : Volume) : v.disk 0 = some v.bootSector := by
  have := data_before_end v
  rw [Volume.disk, if_neg (by omega), if_pos rfl]

theorem disk_fat (inside : k < v.fatSectors) : v.disk (v.reserved + k) = some (v.fatSector k) := by
  have before := fat_before_root v inside
  have ends := data_before_end v
  have root := root_le_data v
  have some_ := v.reservedWord.1
  have place : (v.reserved + k - v.reserved) % v.fatSectors = k := by
    rw [Nat.add_sub_cancel_left, Nat.mod_eq_of_lt inside]
  rw [Volume.disk, if_neg (by omega), if_neg (by omega), if_neg (by omega), if_pos before, place]

theorem disk_root (inside : k < (v.rootEntries * 32 + 511) / 512) : v.disk (v.rootStart + k) = some (v.rootSector k) := by
  have before := root_before_data v inside
  have ends := data_before_end v
  have some_ := v.reservedWord.1
  have above : v.reserved ≤ v.rootStart := Nat.le_add_right _ _
  rw [Volume.disk, if_neg (by omega), if_neg (by omega), if_neg (by omega), if_neg (by omega), if_pos before,
    Nat.add_sub_cancel_left]

theorem disk_data {c s : Nat} (valid : 2 ≤ c) (inFat : c < 256 * v.fatSectors) (inside : s < v.perCluster) :
    v.disk (v.dataStart + (c - 2) * v.perCluster + s) = some (v.dataSector c s) := by
  have root := root_le_data v
  have some_ := v.reservedWord.1
  have above : v.reserved ≤ v.rootStart := Nat.le_add_right _ _
  have last : (c - 2) * v.perCluster + s < v.perCluster * (256 * v.fatSectors) := by
    have next : (c - 2 + 1) * v.perCluster ≤ 256 * v.fatSectors * v.perCluster := Nat.mul_le_mul_right _ (by omega)
    rw [Nat.succ_mul] at next
    rw [Nat.mul_comm v.perCluster]
    omega
  have offset : v.dataStart + (c - 2) * v.perCluster + s - v.dataStart = v.perCluster * (c - 2) + s := by
    rw [Nat.mul_comm]
    omega
  rw [Volume.disk, if_neg (by rw [Volume.totalSectors]; omega), if_neg (by omega), if_neg (by omega), if_neg (by omega),
    if_neg (by omega), offset, Nat.mul_add_div v.perClusterByte.1, Nat.div_eq_of_lt inside, Nat.mul_add_mod,
    Nat.mod_eq_of_lt inside]
  have cluster : c - 2 + 0 + 2 = c := by omega
  rw [cluster]

end Sectors
end Archarch.Fat16
