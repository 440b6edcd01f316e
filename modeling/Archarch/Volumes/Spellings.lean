import Archarch.Volumes.Names
import Archarch.Volumes.RootDirectory

/- The two spellings of a file name that fat16.h offers: "hello.bin" and "HELLO   BIN". -/
namespace Archarch.Fat16

/-- The entries that fat16_open comes to, in their order: the scan of n sectors from sector s
    on ends at a sector that cannot be read and at the end mark. -/
def scannedFrom (fs : Fs) (s : Nat) : Nat → List Dirent
  | 0 => []
  | n + 1 =>
    match fs.blk (fs.bpb.rootDirSector + s) with
    | none => []
    | some sector => live (sectorEntries sector) ++
      if (sectorEntries sector).all Dirent.continues then scannedFrom fs (s + 1) n else []

def visible (fs : Fs) : List Dirent := (scannedFrom fs 0 fs.bpb.rootDirSectors).filter openable

def selects (fs : Fs) (filename : List Byte) : Option Nat :=
  (visible fs).findIdx? (named (toFat83 filename))

def dottedForm (de : Dirent) : List Byte := fat83ToStr de

def paddedForm (de : Dirent) : List Byte := de.name ++ de.ext

structure BothSpellings (fs : Fs) (de : Dirent) : Prop where
  dotted : (fat16Open fs (dottedForm de)).isSome
  padded : (fat16Open fs (paddedForm de)).isSome
  same : selects fs (dottedForm de) = selects fs (paddedForm de)

section Scan
variable {fs : Fs} {fatName filename : List Byte} {de : Dirent} {name ext : List Byte}

theorem open_from_scanned {n s : Nat} : openFrom fs fatName s n =
    (((scannedFrom fs s n).filter openable).find? (named fatName)).map file := by
  induction n generalizing s with
  | zero => rfl
  | succ n ih =>
    rw [openFrom, scannedFrom]
    cases fs.blk (fs.bpb.rootDirSector + s) with
    | none => rfl
    | some sector =>
      dsimp only
      rw [open_entries_eq, List.filter_append, List.find?_append]
      cases ((live (sectorEntries sector)).filter openable).find? (named fatName) with
      | some de => rfl
      | none =>
        by_cases all : (sectorEntries sector).all Dirent.continues = true
        · rw [if_pos all, if_pos all]
          exact ih
        · rw [if_neg all, if_neg all]
          rfl

theorem open_selects : fat16Open fs filename =
    ((selects fs filename).bind fun k => (visible fs)[k]?).map file := by
  rw [fat16Open, fat16OpenName, open_from_scanned, selects, List.find?_eq_bind_findIdx?_getElem?]
  rfl

theorem open_isSome_iff : (fat16Open fs filename).isSome ↔
    ∃ de ∈ visible fs, toFat83 filename = de.name ++ de.ext := by
  rw [fat16Open, fat16OpenName, open_from_scanned, Option.isSome_map, List.find?_isSome]
  simp only [visible, named, decide_eq_true_eq]

theorem dotted_name (legal : LegalName de name ext) : toFat83 (dottedForm de) = de.name ++ de.ext :=
  to_fat83_any_case legal rfl

theorem padded_name (legal : LegalName de name ext) : toFat83 (paddedForm de) = de.name ++ pad 3 [] := by
  have width : de.name.length = 8 := by
    rw [legal.field]
    exact length_pad legal.short
  have plain : ∀ {n : Nat} {cs : List Byte}, (∀ c ∈ cs, Legal c) → ∀ c ∈ pad n cs, c ≠ dot := by
    rintro n cs chars c here rfl
    rcases List.mem_append.mp here with own | filled
    · exact (chars _ own).1.2.2 rfl
    · have blank := (List.mem_replicate.mp filled).2
      exact absurd blank (by decide)
  have noDot : ∀ c ∈ paddedForm de, c ≠ dot := by
    intro c here
    rcases List.mem_append.mp here with front | back
    · rw [legal.field] at front
      exact plain legal.chars c front
    · rw [legal.fieldExt] at back
      exact plain legal.charsExt c back
  have upperField : de.name.map upper = de.name := by
    have blank : upper space = space := by decide
    rw [legal.field, pad, List.map_append, map_upper_legal legal.chars, List.map_replicate, blank]
  have full : pad 8 de.name = de.name := by
    rw [pad, width, Nat.sub_self, List.replicate_zero, List.append_nil]
  rw [to_fat83_plain noDot, paddedForm, List.take_left' width, upperField, full]

theorem ext_blank_iff (legal : LegalName de name ext) : de.ext = pad 3 [] ↔ ext = [] := by
  rw [legal.fieldExt]
  constructor
  · intro same
    cases ext with
    | nil => rfl
    | cons c rest =>
      have first : c = space := by
        have heads := congrArg (fun cs => cs.headD 0) same
        exact heads
      exact absurd first (legal.charsExt c List.mem_cons_self).1.2.1
  · rintro rfl
    rfl

end Scan

/-- Both spellings work for a visible entry exactly when it has no extension. -/
theorem both_spellings_iff (fs : Fs) (de : Dirent) (name ext : List Byte) (here : de ∈ visible fs)
    (legal : LegalName de name ext) : BothSpellings fs de ↔ ext = [] := by
  constructor
  · rintro ⟨dotted, padded, same⟩
    obtain ⟨k, first⟩ : ∃ k, selects fs (dottedForm de) = some k := by
      cases found : selects fs (dottedForm de) with
      | some k => exact ⟨k, rfl⟩
      | none =>
        rw [open_selects, found] at dotted
        cases dotted
    have second := same.symm.trans first
    rw [selects, List.findIdx?_eq_some_iff_getElem] at first second
    obtain ⟨inside, byDots, _⟩ := first
    obtain ⟨_, byPads, _⟩ := second
    have names := (of_decide_eq_true byDots).trans (of_decide_eq_true byPads).symm
    rw [dotted_name legal, padded_name legal] at names
    exact (ext_blank_iff legal).mp (List.append_cancel_left names)
  · intro none
    have names : toFat83 (paddedForm de) = toFat83 (dottedForm de) := by
      rw [dotted_name legal, padded_name legal, (ext_blank_iff legal).mpr none]
    have opens : (fat16Open fs (dottedForm de)).isSome :=
      open_isSome_iff.mpr ⟨de, here, dotted_name legal⟩
    constructor
    · exact opens
    · rw [fat16Open, names]
      exact opens
    · rw [selects, selects, names]

theorem plain_name_both_spellings :
    BothSpellings (oneFile fatAttrArchive) (direntAt (((oneFile fatAttrArchive).blk 0).getD fun _ => 0) 0) := by
  apply (both_spellings_iff (oneFile fatAttrArchive) _ [0x52] [] ?_ ?_).mpr rfl
  · decide
  · constructor
    · decide
    · decide
    · decide
    · decide
    · decide
    · simp [Legal, Typed, space, dot]
    · simp

def helloVolume : Fs where
  blk _ := some fun i =>
    ([0x48, 0x45, 0x4C, 0x4C, 0x4F, 0x20, 0x20, 0x20, 0x42, 0x49, 0x4E, 0x20] : List Byte).getD i 0
  bpb := ⟨1, 0, 1, 1⟩
  fatTable _ := 0xFFFF

/-- The example of the header, "HELLO   BIN", is not found. -/
theorem padded_hello_not_found : ∃ de ∈ visible helloVolume,
    LegalName de [0x48, 0x45, 0x4C, 0x4C, 0x4F] [0x42, 0x49, 0x4E] ∧
      paddedForm de = [0x48, 0x45, 0x4C, 0x4C, 0x4F, 0x20, 0x20, 0x20, 0x42, 0x49, 0x4E] ∧
      fat16Open helloVolume (paddedForm de) = none ∧ ¬ BothSpellings helloVolume de := by
  have missing : fat16Open helloVolume (paddedForm (direntAt ((helloVolume.blk 0).getD fun _ => 0) 0)) = none := by
    decide
  refine ⟨direntAt ((helloVolume.blk 0).getD fun _ => 0) 0, by decide, ?_, by decide, missing, ?_⟩
  · constructor
    · decide
    · decide
    · decide
    · decide
    · decide
    · simp [Legal, Typed, space, dot]
    · simp [Legal, Typed, space, dot]
  · intro both
    have opened := both.padded
    rw [missing] at opened
    cases opened

end Archarch.Fat16
