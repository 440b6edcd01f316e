import Archarch.Foundations.RingWindow
import Archarch.Files.Descriptors

/- The pipe branches of fd_read and fd_write, cut at their calls of sched_yield: one
   round runs from the call or the return of sched_yield to the next yield or the
   return of the function. -/
namespace Archarch.Descriptors
open RingWindow

def Pipe.push (p : Pipe) (b : Byte) : Pipe :=
  { p with
    buf := Function.update p.buf p.writePos b
    writePos := (p.writePos + 1) % pipeBufSize
    count := p.count + 1 }

def Pipe.pop (p : Pipe) : Pipe :=
  { p with readPos := (p.readPos + 1) % pipeBufSize, count := p.count - 1 }

/-- while (total < count && p->count > 0) -/
def takeBytes : Nat → Pipe → List Byte × Pipe
  | 0, p => ([], p)
  | n + 1, p =>
    if 0 < p.count then (p.buf p.readPos :: (takeBytes n p.pop).1, (takeBytes n p.pop).2)
    else ([], p)

/-- while (total < count && p->count < PIPE_BUF_SIZE); the bytes not written yet are
   left over. -/
def putBytes : List Byte → Pipe → List Byte × Pipe
  | [], p => ([], p)
  | b :: rest, p => if p.count < pipeBufSize then putBytes rest (p.push b) else (b :: rest, p)

def readRound (p : Pipe) (count : Nat) : Option (List Byte × Pipe) :=
  if p.count = 0 then if p.writeOpen = false then some ([], p) else none
  else some (takeBytes count p)

inductive WriteOutcome where
  | done
  | broken
  | yields (rest : List Byte)

/-- A round of fd_write. Its outer loop comes back to the test of a full buffer
   whenever bytes are left over. -/
def writeRound (p : Pipe) (rest : List Byte) : WriteOutcome × Pipe :=
  match putBytes rest p with
  | ([], p) => (.done, p)
  | (b :: left, p) => (if p.readOpen = false then .broken else .yields (b :: left), p)

def Pipe.contents (p : Pipe) : List Byte := window pipeBufSize p.buf p.readPos p.count

structure Fifo (p : Pipe) (written returned : List Byte) : Prop where
  bounded : p.count ≤ pipeBufSize
  start : p.readPos < pipeBufSize
  position : p.writePos = (p.readPos + p.count) % pipeBufSize
  order : returned ++ p.contents = written

section Transfers
variable {p : Pipe} {written returned rest : List Byte} {b : Byte} {n : Nat}

theorem fifo_new : Fifo newPipe [] [] :=
  ⟨Nat.zero_le _, by decide, by decide, rfl⟩

theorem fifo_congr {q : Pipe} (buf : q.buf = p.buf) (readPos : q.readPos = p.readPos)
    (writePos : q.writePos = p.writePos) (count : q.count = p.count)
    (fifo : Fifo p written returned) : Fifo q written returned := by
  refine ⟨?_, ?_, ?_, ?_⟩
  · rw [count]
    exact fifo.bounded
  · rw [readPos]
    exact fifo.start
  · rw [writePos, readPos, count]
    exact fifo.position
  · rw [Pipe.contents, buf, readPos, count]
    exact fifo.order

theorem fifo_push (fifo : Fifo p written returned) (room : p.count < pipeBufSize) :
    Fifo (p.push b) (written ++ [b]) returned := by
  refine ⟨room, fifo.start, ?_, ?_⟩
  · simp only [Pipe.push, fifo.position, pipe_buf_size_eq]
    omega
  · have grown : (p.push b).contents = p.contents ++ [b] := by
      simp only [Pipe.contents, Pipe.push, fifo.position]
      exact window_append room b
    rw [grown, ← List.append_assoc, fifo.order]

theorem fifo_pop (fifo : Fifo p written returned) (some_ : 0 < p.count) :
    Fifo p.pop written (returned ++ [p.buf p.readPos]) := by
  have bounded := fifo.bounded
  refine ⟨?_, Nat.mod_lt _ (by decide), ?_, ?_⟩
  · simp only [Pipe.pop]
    omega
  · simp only [Pipe.pop, fifo.position, pipe_buf_size_eq]
    omega
  · have front : p.contents = p.buf p.readPos :: p.pop.contents := by
      obtain ⟨k, hk⟩ := Nat.exists_eq_add_of_lt some_
      have count : p.count = k + 1 := by omega
      simp only [Pipe.contents, Pipe.pop, count, Nat.add_sub_cancel]
      rw [window_uncons, Nat.mod_eq_of_lt fifo.start]
    rw [List.append_assoc, List.singleton_append, ← front, fifo.order]

theorem fifo_take (fifo : Fifo p written returned) (n : Nat) :
    Fifo (takeBytes n p).2 written (returned ++ (takeBytes n p).1) := by
  induction n generalizing p returned with
  | zero => simpa [takeBytes] using fifo
  | succ n ih =>
    rw [takeBytes]
    split
    · rename_i some_
      have further := ih (fifo_pop fifo some_)
      simpa using further
    · simpa using fifo

theorem fifo_put (fifo : Fifo p written returned) (rest : List Byte) :
    Fifo (putBytes rest p).2 (written ++ rest.take (rest.length - (putBytes rest p).1.length))
        returned ∧ (putBytes rest p).1.length ≤ rest.length := by
  induction rest generalizing p written with
  | nil => simpa [putBytes] using fifo
  | cons b rest ih =>
    rw [putBytes]
    split
    · rename_i room
      obtain ⟨further, shorter⟩ := ih (fifo_push (b := b) fifo room)
      refine ⟨?_, by simp only [List.length_cons]; omega⟩
      have len : (b :: rest).length - (putBytes rest (p.push b)).1.length =
          rest.length - (putBytes rest (p.push b)).1.length + 1 := by
        simp only [List.length_cons]
        omega
      rw [len, List.take_succ_cons]
      simpa using further
    · simpa using fifo

theorem take_nonempty (some_ : 0 < p.count) (asked : 0 < n) : (takeBytes n p).1 ≠ [] := by
  cases n with
  | zero => omega
  | succ n => simp [takeBytes, some_]

theorem take_open (n : Nat) (p : Pipe) :
    (takeBytes n p).2.readOpen = p.readOpen ∧ (takeBytes n p).2.writeOpen = p.writeOpen := by
  induction n generalizing p with
  | zero => simp [takeBytes]
  | succ n ih =>
    rw [takeBytes]
    split
    · exact ih p.pop
    · simp

theorem put_open (rest : List Byte) (p : Pipe) :
    (putBytes rest p).2.readOpen = p.readOpen ∧ (putBytes rest p).2.writeOpen = p.writeOpen := by
  induction rest generalizing p with
  | nil => simp [putBytes]
  | cons b rest ih =>
    rw [putBytes]
    split
    · exact ih (p.push b)
    · simp

theorem write_round_pipe (p : Pipe) (rest : List Byte) :
    (writeRound p rest).2 = (putBytes rest p).2 := by
  unfold writeRound
  split <;> simp_all

end Transfers

end Archarch.Descriptors
