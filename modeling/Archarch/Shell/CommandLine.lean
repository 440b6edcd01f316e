import Archarch.Files.Descriptors

/- The text side of shell.c: how a command line is cut at its bars, and which command the text
   of a segment names. A C string is the list of the bytes in front of its NUL. -/
namespace Archarch.Shell
open Descriptors

abbrev Text := List Byte

def byteOf (c : Char) : Byte := BitVec.ofNat 8 c.toNat

def blank : Byte := byteOf ' '
def bar : Byte := byteOf '|'

def skipSpaces : Text → Text
  | [] => []
  | b :: rest => if b = blank then skipSpaces rest else b :: rest

/-- len walks back over the spaces at the end. -/
def trimEnd (s : Text) : Text := (skipSpaces s.reverse).reverse

/-- What is in front of the first bar and what is behind it, if there is one. -/
def findPipe : Text → Option (Text × Text)
  | [] => none
  | b :: rest => if b = bar then some ([], rest) else (findPipe rest).map fun cut => (b :: cut.1, cut.2)

/-- while (p && nseg < 8); room is what 8 leaves. -/
def parseSegments : Nat → Text → List Text
  | 0, _ => []
  | room + 1, p =>
    match findPipe p with
    | some (segment, rest) => trimEnd segment :: parseSegments room rest
    | none => [trimEnd p]

def maxSegments : Nat := 8

inductive Command where
  | nothing | help | ls | ps | wc
  | cat (filename : Text)
  | echo (text : Text)
  | program (name : Text)
  deriving DecidableEq

/-- streq and strncmp over a prefix, in the order of the tests of run_single_cmd. -/
def parseCommand (cmd : Text) : Command :=
  let cmd := skipSpaces cmd
  if cmd = [] then .nothing
  else if cmd = ['h', 'e', 'l', 'p'].map byteOf then .help
  else if cmd = ['l', 's'].map byteOf then .ls
  else if cmd = ['p', 's'].map byteOf then .ps
  else if cmd = ['w', 'c'].map byteOf then .wc
  else if ['c', 'a', 't', ' '].map byteOf <+: cmd then .cat (skipSpaces (cmd.drop 4))
  else if ['e', 'c', 'h', 'o', ' '].map byteOf <+: cmd then .echo (cmd.drop 5)
  else .program cmd

/-- What execute_line makes of a line. -/
inductive Plan where
  | nothing
  | exit
  | direct (cmd : Text)
  | chain (segments : List Text)
  deriving DecidableEq

def planLine (cmdline : Text) : Plan :=
  match findPipe cmdline with
  | some _ => .chain (parseSegments maxSegments cmdline)
  | none =>
    let cmd := skipSpaces cmdline
    if cmd = [] then .nothing
    else if cmd = ['e', 'x', 'i', 't'].map byteOf then .exit
    else .direct cmd

section Segments
variable {s segment rest : Text}

theorem find_pipe_some (cut : findPipe s = some (segment, rest)) :
    bar ∉ segment ∧ s = segment ++ bar :: rest := by
  induction s generalizing segment with
  | nil => cases cut
  | cons b s ih =>
    rw [findPipe] at cut
    split at cut
    · rename_i here
      cases cut
      rw [here]
      exact ⟨List.not_mem_nil, rfl⟩
    · rename_i other
      obtain ⟨⟨front, back⟩, found, same⟩ := Option.map_eq_some_iff.mp cut
      cases same
      obtain ⟨free, whole⟩ := ih found
      constructor
      · intro member
        rcases List.mem_cons.mp member with first | later
        · exact other first.symm
        · exact free later
      · rw [whole]
        rfl

theorem find_pipe_none (whole : findPipe s = none) : bar ∉ s := by
  induction s with
  | nil => exact List.not_mem_nil
  | cons b s ih =>
    rw [findPipe] at whole
    split at whole
    · cases whole
    · rename_i other
      intro member
      rcases List.mem_cons.mp member with first | later
      · exact other first.symm
      · exact ih (Option.map_eq_none_iff.mp whole) later

theorem parse_segments_eq (room : Nat) (p : Text) :
    parseSegments room p = ((p.splitOn bar).take room).map trimEnd := by
  induction room generalizing p with
  | zero => rfl
  | succ room ih =>
    rw [parseSegments]
    split
    · rename_i segment rest cut
      obtain ⟨free, whole⟩ := find_pipe_some cut
      have split := List.splitOn_append_cons_self_of_not_mem (a := bar) free rest
      rw [whole, split, List.take_succ_cons, List.map_cons, ih]
    · rename_i whole
      rw [List.splitOn_eq_singleton (find_pipe_none whole), List.take_succ_cons, List.take_nil]
      rfl

end Segments
end Archarch.Shell
