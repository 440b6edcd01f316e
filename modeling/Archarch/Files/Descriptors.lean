import Mathlib.Data.Finset.Card
import Mathlib.Logic.Function.Basic

/- The descriptor layer of fd.c. An object of the heap is named by the serial number
   of its allocation, so that a pointer to a freed object stays distinct from one to
   an object allocated later; none in place of a result is an access through NULL or
   to a freed object. -/
namespace Archarch.Descriptors

def maxFds : Nat := 16
def pipeBufSize : Nat := 4096
def oRdonly : Int := 0
def oWronly : Int := 1
def oRdwr : Int := 2

theorem pipe_buf_size_eq : pipeBufSize = 4096 := rfl

abbrev Byte := BitVec 8

structure Pipe where
  buf : Nat → Byte
  readPos : Nat
  writePos : Nat
  count : Nat
  readOpen : Bool
  writeOpen : Bool

inductive FileType where
  | none | console | file | pipe
  deriving DecidableEq, Repr

structure OpenFile where
  type : FileType
  flags : Int
  refCount : Int
  firstCluster : Nat
  fileSize : Nat
  position : Nat
  currentCluster : Nat
  pipe : Option Nat

/-- What a struct open_file pointer can point to: console_file, an object of the heap
   or the dummy on the stack of fd_pipe. -/
inductive FilePtr where
  | console
  | heap (serial : Nat)
  | dummy
  deriving DecidableEq, Repr

abbrev FdTable := Nat → Option FilePtr

/-- freedFiles and freedPipes record the calls of kfree. -/
structure Files where
  tables : Nat → FdTable
  numTasks : Nat
  console : OpenFile
  files : Nat → Option OpenFile
  pipes : Nat → Option Pipe
  nextFile : Nat
  nextPipe : Nat
  freedFiles : List Nat
  freedPipes : List Nat

/-- What fat16_open leaves in its result for a path that exists. -/
structure FatFile where
  firstCluster : Nat
  fileSize : Nat

def Files.deref (s : Files) : FilePtr → Option OpenFile
  | .console => some s.console
  | .heap n => s.files n
  | .dummy => none

def Files.setFile (s : Files) (ptr : FilePtr) (f : OpenFile) : Files :=
  match ptr with
  | .console => { s with console := f }
  | .heap n => { s with files := Function.update s.files n (some f) }
  | .dummy => s

def Files.setSlot (s : Files) (task fd : Nat) (v : Option FilePtr) : Files :=
  { s with tables := Function.update s.tables task (Function.update (s.tables task) fd v) }

def Files.setPipe (s : Files) (q : Nat) (p : Pipe) : Files :=
  { s with pipes := Function.update s.pipes q (some p) }

/-- kzalloc of an object, filled in at once. -/
def Files.allocFile (s : Files) (f : OpenFile) : Files :=
  { s with files := Function.update s.files s.nextFile (some f), nextFile := s.nextFile + 1 }

def Files.allocPipe (s : Files) (p : Pipe) : Files :=
  { s with pipes := Function.update s.pipes s.nextPipe (some p), nextPipe := s.nextPipe + 1 }

def Files.freeFile (s : Files) (ptr : FilePtr) : Files :=
  match ptr with
  | .heap n => { s with files := Function.update s.files n none, freedFiles := n :: s.freedFiles }
  | _ => s

def Files.freePipe (s : Files) (q : Nat) : Files :=
  { s with pipes := Function.update s.pipes q none, freedPipes := q :: s.freedPipes }

def findFreeFd (table : FdTable) : Option Nat :=
  (List.range maxFds).find? fun i => (table i).isNone

/-- The test in front of every descriptor operation: what fd names, if it names
   anything. -/
def Files.slot (s : Files) (task : Nat) (fd : Int) : Option FilePtr :=
  if fd < 0 ∨ (maxFds : Int) ≤ fd then none else s.tables task fd.toNat

def fdTableInit (s : Files) (task : Nat) : Files :=
  let table : FdTable := fun i => if i < 3 then some .console else none
  { s with
    tables := Function.update s.tables task table
    console := { s.console with refCount := s.console.refCount + 3 } }

def addRef (s : Files) (task fd : Nat) (ptr : FilePtr) : Option Files :=
  (s.deref ptr).map fun f =>
    (s.setSlot task fd (some ptr)).setFile ptr { f with refCount := f.refCount + 1 }

/-- The loop of fd_table_dup over descriptors i, i + 1, ..., i + n - 1. -/
def dupFrom (s : Files) (dst src i : Nat) : Nat → Option Files
  | 0 => some s
  | n + 1 =>
    match s.tables src i with
    | none => dupFrom (s.setSlot dst i none) dst src (i + 1) n
    | some ptr => (addRef s dst i ptr).bind fun t => dupFrom t dst src (i + 1) n

def fdTableDup (s : Files) (dst src : Nat) : Option Files := dupFrom s dst src 0 maxFds

def fdOpen (s : Files) (task : Nat) (found : Option FatFile) (flags : Int) (alloc : Bool) :
    Int × Files :=
  match findFreeFd (s.tables task), found with
  | none, _ => (-1, s)
  | some _, none => (-1, s)
  | some fd, some fat =>
    if alloc then
      let f : OpenFile :=
        { type := .file, flags := flags, refCount := 1, firstCluster := fat.firstCluster
          fileSize := fat.fileSize, position := 0, currentCluster := fat.firstCluster
          pipe := none }
      (fd, (s.allocFile f).setSlot task fd (some (.heap s.nextFile)))
    else (-1, s)

def Pipe.closeEnd (p : Pipe) (flags : Int) : Pipe :=
  if flags = oRdonly then { p with readOpen := false }
  else if flags = oWronly then { p with writeOpen := false }
  else p

def closePipeEnd (s : Files) (f : OpenFile) : Option (OpenFile × Files) :=
  match f.pipe with
  | none => some (f, s)
  | some q =>
    if f.type = .pipe ∧ f.refCount ≤ 0 then
      (s.pipes q).map fun p =>
        let p := p.closeEnd f.flags
        if p.readOpen = false ∧ p.writeOpen = false then ({ f with pipe := none }, s.freePipe q)
        else (f, s.setPipe q p)
    else some (f, s)

def fdClose (s : Files) (task : Nat) (fd : Int) : Option (Int × Files) :=
  match s.slot task fd with
  | none => some (-1, s)
  | some ptr => do
    let f ← s.deref ptr
    let (f, s) ← closePipeEnd (s.setSlot task fd.toNat none) { f with refCount := f.refCount - 1 }
    if f.refCount ≤ 0 ∧ ptr ≠ .console then some (0, s.freeFile ptr)
    else some (0, s.setFile ptr f)

/-- The loop of fd_table_destroy over descriptors i, i + 1, ..., i + n - 1. -/
def destroyFrom (s : Files) (task i : Nat) : Nat → Option Files
  | 0 => some s
  | n + 1 =>
    if (s.tables task i).isSome then (fdClose s task i).bind fun r => destroyFrom r.2 task (i + 1) n
    else destroyFrom s task (i + 1) n

def fdTableDestroy (s : Files) (task : Nat) : Option Files := destroyFrom s task 0 maxFds

def newPipe : Pipe := ⟨fun _ => 0, 0, 0, 0, true, true⟩

def pipeEnd (q : Nat) (flags : Int) : OpenFile :=
  { type := .pipe, flags := flags, refCount := 1, firstCluster := 0, fileSize := 0, position := 0
    currentCluster := 0, pipe := some q }

/-- The two descriptors on success, none for -1. -/
def fdPipe (s : Files) (task : Nat) (allocPipe allocRead allocWrite : Bool) :
    Option (Nat × Nat) × Files :=
  match findFreeFd (s.tables task) with
  | none => (none, s)
  | some rfd =>
    match findFreeFd (Function.update (s.tables task) rfd (some .dummy)) with
    | none => (none, s)
    | some wfd =>
      let q := s.nextPipe
      let rf := s.nextFile
      if allocPipe = false then (none, s)
      else if allocRead = false then (none, (s.allocPipe newPipe).freePipe q)
      else if allocWrite = false then
        (none, (((s.allocPipe newPipe).allocFile (pipeEnd q oRdonly)).freePipe q).freeFile (.heap rf))
      else
        let both := ((s.allocPipe newPipe).allocFile (pipeEnd q oRdonly)).allocFile (pipeEnd q oWronly)
        (some (rfd, wfd),
          (both.setSlot task rfd (some (.heap rf))).setSlot task wfd (some (.heap (rf + 1))))

/-- if (fdt->fds[fd]) fd_close(fdt, fd); -/
def closeIfOpen (s : Files) (task : Nat) (fd : Int) : Option Files :=
  if (s.tables task fd.toNat).isSome then (fdClose s task fd).map Prod.snd else some s

/-- With oldfd = newfd the slot read last is the one just closed. -/
def fdDup2 (s : Files) (task : Nat) (oldfd newfd : Int) : Option (Int × Files) :=
  match s.slot task oldfd with
  | none => some (-1, s)
  | some _ =>
    if newfd < 0 ∨ (maxFds : Int) ≤ newfd then some (-1, s)
    else do
      let s ← closeIfOpen s task newfd
      let ptr ← s.tables task oldfd.toNat
      let s ← addRef s task newfd.toNat ptr
      some (newfd, s)

end Archarch.Descriptors
