import Mathlib.Data.List.Basic
import Archarch.Foundations.ByteMemory

/- fat16.c on a mounted volume: directory entries, names, the two scans of the root
   directory and the reading of a file. A block read that fails is none. -/
namespace Archarch.Fat16

abbrev Byte := BitVec 8
abbrev Sector := Nat → Byte

def space : Byte := 0x20
def dot : Byte := 0x2E
def endMark : Byte := 0x00
def deletedMark : Byte := 0xE5

def fatAttrReadOnly : Byte := 0x01
def fatAttrHidden : Byte := 0x02
def fatAttrSystem : Byte := 0x04
def fatAttrVolumeId : Byte := 0x08
def fatAttrDirectory : Byte := 0x10
def fatAttrArchive : Byte := 0x20
def fatAttrLfn : Byte := 0x0F

def entriesPerSector : Nat := 16
def chainEnd : Nat := 0xFFF8

structure Bpb where
  sectorsPerCluster : Nat
  rootDirSector : Nat
  rootDirSectors : Nat
  dataStartSector : Nat

structure Fs where
  blk : Nat → Option Sector
  bpb : Bpb
  fatTable : Nat → BitVec 16

structure Dirent where
  name : List Byte
  ext : List Byte
  attr : Byte
  firstCluster : Nat
  fileSize : Nat
deriving DecidableEq

def direntAt (sector : Sector) (i : Nat) : Dirent where
  name := (List.range 8).map fun k => sector (32 * i + k)
  ext := (List.range 3).map fun k => sector (32 * i + 8 + k)
  attr := sector (32 * i + 11)
  firstCluster := (sector (32 * i + 26)).toNat + 2 ^ 8 * (sector (32 * i + 27)).toNat
  fileSize := (sector (32 * i + 28)).toNat + 2 ^ 8 * (sector (32 * i + 29)).toNat +
    2 ^ 16 * (sector (32 * i + 30)).toNat + 2 ^ 24 * (sector (32 * i + 31)).toNat

def sectorEntries (sector : Sector) : List Dirent := (List.range entriesPerSector).map (direntAt sector)

def Dirent.first (de : Dirent) : Byte := de.name.headD 0

def upper (c : Byte) : Byte := if 0x61 ≤ c.toNat ∧ c.toNat ≤ 0x7A then c - 0x20 else c

/-- The 11 bytes for a C string: the name up to a dot, at most 8 of it, then at most 3 behind
    the dot. -/
def toFat83 (input : List Byte) : List Byte :=
  let name := ((input.takeWhile fun c => c ≠ dot).take 8).map upper
  let ext := (((input.dropWhile fun c => c ≠ dot).drop 1).take 3).map upper
  name ++ List.replicate (8 - name.length) space ++ ext ++ List.replicate (3 - ext.length) space

def fat83ToStr (de : Dirent) : List Byte :=
  de.name.filter (fun c => c ≠ space) ++
    if de.ext.headD 0 ≠ space then dot :: de.ext.filter (fun c => c ≠ space) else []

/-- The calls of the callback for the entries of a sector, and whether the end was met. -/
def listEntries : List Dirent → List (List Byte × Nat) × Bool
  | [] => ([], false)
  | de :: rest =>
    if de.first = endMark then ([], true)
    else if de.first = deletedMark then listEntries rest
    else if de.attr &&& (fatAttrLfn ||| fatAttrVolumeId ||| fatAttrDirectory) ≠ 0 then listEntries rest
    else ((fat83ToStr de, de.fileSize) :: (listEntries rest).1, (listEntries rest).2)

def listFrom (fs : Fs) (s : Nat) : Nat → List (List Byte × Nat)
  | 0 => []
  | n + 1 =>
    match fs.blk (fs.bpb.rootDirSector + s) with
    | none => []
    | some sector =>
      let found := listEntries (sectorEntries sector)
      if found.2 then found.1 else found.1 ++ listFrom fs (s + 1) n

/-- The calls of the callback; the result of the function is their number. -/
def fat16ListRoot (fs : Fs) : List (List Byte × Nat) := listFrom fs 0 fs.bpb.rootDirSectors

structure FatFile where
  firstCluster : Nat
  fileSize : Nat
deriving DecidableEq

inductive Search where
  | found (file : FatFile)
  | absent
  | further
deriving DecidableEq

def openEntries (fatName : List Byte) : List Dirent → Search
  | [] => .further
  | de :: rest =>
    if de.first = endMark then .absent
    else if de.first = deletedMark then openEntries fatName rest
    else if de.attr &&& (fatAttrLfn ||| fatAttrVolumeId) ≠ 0 then openEntries fatName rest
    else if fatName = de.name ++ de.ext then .found ⟨de.firstCluster, de.fileSize⟩
    else openEntries fatName rest

def openFrom (fs : Fs) (fatName : List Byte) (s : Nat) : Nat → Option FatFile
  | 0 => none
  | n + 1 =>
    match fs.blk (fs.bpb.rootDirSector + s) with
    | none => none
    | some sector =>
      match openEntries fatName (sectorEntries sector) with
      | .found file => some file
      | .absent => none
      | .further => openFrom fs fatName (s + 1) n

def fat16OpenName (fs : Fs) (fatName : List Byte) : Option FatFile :=
  openFrom fs fatName 0 fs.bpb.rootDirSectors

def fat16Open (fs : Fs) (filename : List Byte) : Option FatFile := fat16OpenName fs (toFat83 filename)

/-- SYS_LISTDIR puts characters into its buffer while pos < limit; spaces are left out. -/
def putChars (limit : Nat) : List Byte → List Byte → List Byte
  | [], text => text
  | c :: rest, text =>
    if text.length < limit then putChars limit rest (if c ≠ space then text ++ [c] else text) else text

def putEntry (limit : Nat) (de : Dirent) (text : List Byte) : List Byte :=
  let text := putChars limit de.name text
  let text := if de.ext.headD 0 ≠ space ∧ text.length < limit then putChars limit de.ext (text ++ [dot])
    else text
  if text.length < limit then text ++ [0x0A] else text

/-- The text so far behind the entries of a sector, and whether the end was met. -/
def putEntries (limit : Nat) : List Dirent → List Byte → List Byte × Bool
  | [], text => (text, false)
  | de :: rest, text =>
    if limit ≤ text.length then (text, false)
    else if de.first = endMark then (text, true)
    else if de.first = deletedMark then putEntries limit rest text
    else if de.attr &&& 0x1E ≠ 0 then putEntries limit rest text
    else putEntries limit rest (putEntry limit de text)

def putFrom (fs : Fs) (limit : Nat) (s : Nat) (text : List Byte) : Nat → List Byte
  | 0 => text
  | n + 1 =>
    if limit ≤ text.length then text
    else
      match fs.blk (fs.bpb.rootDirSector + s) with
      | none => text
      | some sector =>
        let put := putEntries limit (sectorEntries sector) text
        if put.2 then put.1 else putFrom fs limit (s + 1) put.1 n

/-- The text of SYS_LISTDIR; behind it the call stores a NUL and returns the length. -/
def sysListdir (fs : Fs) (buflen : Nat) : List Byte :=
  putFrom fs ((buflen + 2 ^ 32 - 1) % 2 ^ 32) 0 [] fs.bpb.rootDirSectors

/-- What fat16_read_file has stored, as offsets into its buffer with their bytes. -/
structure Progress where
  done : Nat
  stores : List (Nat × Byte)
  failed : Bool

/-- for (s ...; s < sectors_per_cluster && bytes_done < to_read; s++), with n sectors left. -/
def readSectors (fs : Fs) (toRead firstSector : Nat) (s : Nat) (p : Progress) : Nat → Progress
  | 0 => p
  | n + 1 =>
    if p.done < toRead then
      match fs.blk (firstSector + s) with
      | none => { p with failed := true }
      | some sector =>
        let chunk := if toRead < (p.done + 512) % 2 ^ 32 then toRead - p.done else 512
        readSectors fs toRead firstSector (s + 1)
          { p with
            done := (p.done + chunk) % 2 ^ 32
            stores := p.stores ++ (List.range chunk).map fun j => ((p.done + j) % 2 ^ 32, sector j) } n
    else p

def firstSectorOf (fs : Fs) (cluster : Nat) : Nat :=
  fs.bpb.dataStartSector + (cluster - 2) * fs.bpb.sectorsPerCluster

def readClusters (fs : Fs) (toRead : Nat) : Nat → Nat → Progress → Option Progress
  | 0, _, _ => none
  | fuel + 1, cluster, p =>
    if p.done < toRead ∧ 2 ≤ cluster ∧ cluster < chainEnd then
      let p := readSectors fs toRead (firstSectorOf fs cluster) 0 p fs.bpb.sectorsPerCluster
      if p.failed then some p else readClusters fs toRead fuel (fs.fatTable cluster).toNat p
    else some p

/-- A loop that goes on for more clusters than there are, without a byte, goes on for ever. -/
def fat16ReadFile (fs : Fs) (file : FatFile) (bufSize : Nat) : Option Progress :=
  let toRead := min file.fileSize bufSize
  readClusters fs toRead (toRead + 2 ^ 16) file.firstCluster ⟨0, [], false⟩

/-- The int that the function returns. -/
def Progress.result (p : Progress) : Int := if p.failed then -1 else (BitVec.ofNat 32 p.done).toInt

end Archarch.Fat16
