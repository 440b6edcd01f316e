import Archarch.Volumes.FileContents

/- fat16_mount: the fields of the boot sector, what is computed from them and the cached FAT. -/
namespace Archarch.Fat16

def read16 (sector : Sector) (i : Nat) : Nat := (sector i).toNat + 2 ^ 8 * (sector (i + 1)).toNat

def read32 (sector : Sector) (i : Nat) : Nat := read16 sector i + 2 ^ 16 * read16 sector (i + 2)

/-- What fat16_mount copies from the boot sector. -/
structure BootFields where
  bytesPerSector : Nat
  sectorsPerCluster : Nat
  reservedSectors : Nat
  numFats : Nat
  rootEntryCount : Nat
  totalSectors16 : Nat
  totalSectors32 : Nat
  fatSize16 : Nat

def bootFields (sector : Sector) : BootFields where
  bytesPerSector := read16 sector 11
  sectorsPerCluster := (sector 13).toNat
  reservedSectors := read16 sector 14
  numFats := (sector 16).toNat
  rootEntryCount := read16 sector 17
  totalSectors16 := read16 sector 19
  totalSectors32 := read32 sector 32
  fatSize16 := read16 sector 22

def derivedValues (b : BootFields) : Bpb :=
  let rootDirSector := b.reservedSectors + b.numFats * b.fatSize16
  let rootDirSectors := (b.rootEntryCount * 32 + (b.bytesPerSector - 1)) / b.bytesPerSector
  { sectorsPerCluster := b.sectorsPerCluster
    rootDirSector := rootDirSector
    rootDirSectors := rootDirSectors
    dataStartSector := rootDirSector + rootDirSectors }

def entryAt (sector : Sector) (i : Nat) : BitVec 16 := BitVec.ofNat 16 (read16 sector (2 * i))

def putSector (table : Nat → BitVec 16) (i : Nat) (sector : Sector) (k : Nat) : BitVec 16 :=
  if 256 * i ≤ k ∧ k < 256 * (i + 1) then entryAt sector (k - 256 * i) else table k

/-- for (i = 0; i < fat_size_16; i++), with n sectors left -/
def loadFat (blk : Nat → Option Sector) (reserved : Nat) (table : Nat → BitVec 16) (i : Nat) :
    Nat → Option (Nat → BitVec 16)
  | 0 => some table
  | n + 1 =>
    match blk (reserved + i) with
    | none => none
    | some sector => loadFat blk reserved (putSector table i sector) (i + 1) n

/-- What an index into the block of kmalloc finds, inside the block and behind it; kmalloc(0)
    is NULL. -/
def fatBlock (fatBytes : Nat) (alloc : Option (Nat → BitVec 16)) : Option (Nat → BitVec 16) :=
  if fatBytes = 0 then none else alloc

def fat16Mount (blk : Nat → Option Sector) (alloc : Option (Nat → BitVec 16)) : Option (BootFields × Fs) :=
  match blk 0 with
  | none => none
  | some sector =>
    if sector 510 ≠ 0x55 ∨ sector 511 ≠ 0xAA then none
    else
      let fields := bootFields sector
      if fields.bytesPerSector ≠ 512 then none
      else
        match fatBlock (fields.fatSize16 * 512) alloc with
        | none => none
        | some table => (loadFat blk fields.reservedSectors table 0 fields.fatSize16).map fun table =>
            (fields, ⟨blk, derivedValues fields, table⟩)

section Table
variable {blk : Nat → Option Sector} {alloc : Option (Nat → BitVec 16)} {fields : BootFields} {fs : Fs}

theorem load_fat_table {reserved i n : Nat} {table loaded : Nat → BitVec 16}
    (load : loadFat blk reserved table i n = some loaded) :
    (∀ k, i ≤ k / 256 → k / 256 < i + n →
      ∃ sector, blk (reserved + k / 256) = some sector ∧ loaded k = entryAt sector (k % 256)) ∧
    ∀ k, ¬ (i ≤ k / 256 ∧ k / 256 < i + n) → loaded k = table k := by
  induction n generalizing i table with
  | zero =>
    cases load
    exact ⟨fun k low high => by omega, fun _ _ => rfl⟩
  | succ n ih =>
    rw [loadFat] at load
    cases read : blk (reserved + i) with
    | none =>
      rw [read] at load
      cases load
    | some sector =>
      rw [read] at load
      obtain ⟨inside, outside⟩ := ih load
      constructor
      · intro k low high
        by_cases here : k / 256 = i
        · refine ⟨sector, by rw [here]; exact read, ?_⟩
          have place : k - 256 * i = k % 256 := by omega
          rw [outside k (by omega), putSector, if_pos (by omega), place]
        · exact inside k (by omega) (by omega)
      · intro k apart
        rw [outside k (by omega), putSector, if_neg (by omega)]

structure Mounted (blk : Nat → Option Sector) (fields : BootFields) (fs : Fs) : Prop where
  disk : fs.blk = blk
  boot : ∃ sector, blk 0 = some sector ∧ sector 510 = 0x55 ∧ sector 511 = 0xAA ∧ fields = bootFields sector
  bytes : fields.bytesPerSector = 512
  derived : fs.bpb = derivedValues fields
  sized : 0 < fields.fatSize16
  table : ∀ k, k < fields.fatSize16 * 256 → ∃ sector, blk (fields.reservedSectors + k / 256) = some sector ∧
    fs.fatTable k = entryAt sector (k % 256)

theorem fat16_mount_spec (mount : fat16Mount blk alloc = some (fields, fs)) : Mounted blk fields fs := by
  unfold fat16Mount at mount
  split at mount
  · cases mount
  · rename_i sector boot
    split at mount
    · cases mount
    · rename_i signed
      dsimp only at mount
      split at mount
      · cases mount
      · rename_i bytes
        split at mount
        · cases mount
        · rename_i table block
          obtain ⟨loaded, load, same⟩ := Option.map_eq_some_iff.mp mount
          cases same
          constructor
          · rfl
          · have both : sector 510 = 0x55 ∧ sector 511 = 0xAA := by simpa using signed
            exact ⟨sector, boot, both.1, both.2, rfl⟩
          · exact Classical.not_not.mp bytes
          · rfl
          · unfold fatBlock at block
            split at block
            · cases block
            · rename_i size
              omega
          · intro k inside
            exact (load_fat_table load).1 k (Nat.zero_le _) (by omega)

end Table

def smallBoot (perCluster : Byte) (i : Nat) : Byte :=
  if i = 12 then 2 else if i = 13 then perCluster else if i = 14 then 1 else if i = 16 then 1
  else if i = 17 then 16 else if i = 22 then 1 else if i = 510 then 0x55 else if i = 511 then 0xAA else 0

/-- A disk with one file R of 5 bytes: its first cluster, and what cluster 2 links to. -/
def smallDisk (perCluster : Byte) (first link : BitVec 16) : Nat → Option Sector
  | 0 => some (smallBoot perCluster)
  | 1 => some fun i => if i = 4 then link.setWidth 8 else if i = 5 then (link >>> 8).setWidth 8 else 0
  | 2 => some fun i =>
    if i = 0 then 0x52 else if i < 11 then space else if i = 26 then first.setWidth 8
    else if i = 27 then (first >>> 8).setWidth 8 else if i = 28 then 5 else 0
  | _ => some fun i => BitVec.ofNat 8 i

def smallVolume (perCluster : Byte) (first link : BitVec 16) : Fs where
  blk := smallDisk perCluster first link
  bpb := derivedValues (bootFields (smallBoot perCluster))
  fatTable := putSector (fun _ => 0) 0 (((smallDisk perCluster first link) 1).getD fun _ => 0)

theorem small_volume_mounted (perCluster : Byte) (first link : BitVec 16) :
    fat16Mount (smallDisk perCluster first link) (some fun _ => 0) =
      some (bootFields (smallBoot perCluster), smallVolume perCluster first link) := by
  have signed : ¬ (smallBoot perCluster 510 ≠ 0x55 ∨ smallBoot perCluster 511 ≠ 0xAA) := by simp [smallBoot]
  have bytes : ¬ (bootFields (smallBoot perCluster)).bytesPerSector ≠ 512 := by
    simp [bootFields, read16, smallBoot]
  have size : (bootFields (smallBoot perCluster)).fatSize16 = 1 := by simp [bootFields, read16, smallBoot]
  have reserved : (bootFields (smallBoot perCluster)).reservedSectors = 1 := by
    simp [bootFields, read16, smallBoot]
  have boot : smallDisk perCluster first link 0 = some (smallBoot perCluster) := rfl
  rw [fat16Mount, boot]
  dsimp only
  rw [if_neg signed, if_neg bytes, size, reserved]
  rfl

end Archarch.Fat16
