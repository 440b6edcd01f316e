import Mathlib.Data.List.TakeWhile
import Archarch.Volumes.Fat16

/- Names in the 8.3 format: to_fat83 against fat83_to_str. -/
namespace Archarch.Fat16

/-- What the fields of a name are made of, before and after the change to uppercase. -/
def Typed (c : Byte) : Prop := c ≠ 0 ∧ c ≠ space ∧ c ≠ dot

def Legal (c : Byte) : Prop := Typed c ∧ ¬ (0x61 ≤ c.toNat ∧ c.toNat ≤ 0x7A)

def pad (n : Nat) (cs : List Byte) : List Byte := cs ++ List.replicate (n - cs.length) space

structure LegalName (de : Dirent) (name ext : List Byte) : Prop where
  field : de.name = pad 8 name
  fieldExt : de.ext = pad 3 ext
  some : 1 ≤ name.length
  short : name.length ≤ 8
  shortExt : ext.length ≤ 3
  chars : ∀ c ∈ name, Legal c
  charsExt : ∀ c ∈ ext, Legal c

/-- An entry with the 11 bytes of to_fat83. -/
def entryOf (fatName : List Byte) : Dirent := ⟨fatName.take 8, fatName.drop 8, fatAttrArchive, 0, 0⟩

def SameLetters (text other : List Byte) : Prop := text.map upper = other.map upper

section Characters
variable {c : Byte}

theorem upper_typed (typed : Typed c) : Typed (upper c) := by
  unfold Typed upper space dot at *
  split <;> bv_omega

theorem upper_legal (legal : Legal c) : upper c = c := if_neg legal.2

theorem upper_dot : upper dot = dot := by decide

theorem upper_eq_dot (same : upper c = dot) : c = dot := by
  unfold upper dot at *
  split at same <;> bv_omega

end Characters

section Texts
variable {name ext text : List Byte} {de : Dirent}

theorem map_upper_legal (chars : ∀ c ∈ name, Legal c) : name.map upper = name := by
  rw [List.map_congr_left fun c here => upper_legal (chars c here), List.map_id']

theorem no_dot_of_map (chars : ∀ c ∈ text.map upper, c ≠ dot) : ∀ c ∈ text, c ≠ dot := by
  rintro c here rfl
  exact chars _ (List.mem_map_of_mem here) upper_dot

theorem length_pad {n : Nat} (short : name.length ≤ n) : (pad n name).length = n := by
  rw [pad, List.length_append, List.length_replicate]
  omega

theorem to_fat83_eq (input : List Byte) : toFat83 input =
    pad 8 (((input.takeWhile fun c => c ≠ dot).take 8).map upper) ++
      pad 3 ((((input.dropWhile fun c => c ≠ dot).drop 1).take 3).map upper) := by
  rw [pad, pad, List.append_assoc]
  unfold toFat83
  simp only [List.append_assoc]

theorem to_fat83_plain (plain : ∀ c ∈ text, c ≠ dot) : toFat83 text =
    pad 8 ((text.take 8).map upper) ++ pad 3 [] := by
  have whole : text.takeWhile (fun c => c ≠ dot) = text := by
    apply List.takeWhile_eq_self_iff.mpr
    intro c here
    exact decide_eq_true (plain c here)
  have nothing : text.dropWhile (fun c => c ≠ dot) = [] := by
    apply List.dropWhile_eq_nil_iff.mpr
    intro c here
    exact decide_eq_true (plain c here)
  rw [to_fat83_eq, whole, nothing]
  rfl

theorem to_fat83_dotted (plain : ∀ c ∈ name, c ≠ dot) : toFat83 (name ++ dot :: ext) =
    pad 8 ((name.take 8).map upper) ++ pad 3 ((ext.take 3).map upper) := by
  have goes : ∀ c ∈ name, decide (c ≠ dot) = true := fun c here => decide_eq_true (plain c here)
  have front : (name ++ dot :: ext).takeWhile (fun c => c ≠ dot) = name := by
    rw [List.takeWhile_append_of_pos goes, List.takeWhile_cons_of_neg (by simp), List.append_nil]
  have back : (name ++ dot :: ext).dropWhile (fun c => c ≠ dot) = dot :: ext := by
    rw [List.dropWhile_append_of_pos goes, List.dropWhile_cons_of_neg (by simp)]
  rw [to_fat83_eq, front, back]
  rfl

theorem filter_pad {n : Nat} (chars : ∀ c ∈ name, Typed c) :
    (pad n name).filter (fun c => c ≠ space) = name := by
  have kept : name.filter (fun c => c ≠ space) = name :=
    List.filter_eq_self.mpr fun c here => decide_eq_true (chars c here).2.1
  rw [pad, List.filter_append, kept, List.filter_replicate, if_neg (by simp), List.append_nil]

theorem fat83_to_str_padded {n : Nat} (field : de.name = pad n name) (fieldExt : de.ext = pad 3 ext)
    (chars : ∀ c ∈ name, Typed c) (charsExt : ∀ c ∈ ext, Typed c) :
    fat83ToStr de = name ++ if ext = [] then [] else dot :: ext := by
  rw [fat83ToStr, field, fieldExt, filter_pad chars, filter_pad charsExt]
  congr 1
  cases ext with
  | nil => rfl
  | cons c rest => exact (if_pos (charsExt c List.mem_cons_self).2.1).trans (if_neg (List.cons_ne_nil _ _)).symm

theorem to_fat83_any_case (legal : LegalName de name ext) (same : SameLetters text (fat83ToStr de)) :
    toFat83 text = de.name ++ de.ext := by
  have chars : ∀ c ∈ name, c ≠ dot := fun c here => (legal.chars c here).1.2.2
  have decoded := fat83_to_str_padded legal.field legal.fieldExt (fun c here => (legal.chars c here).1)
    fun c here => (legal.charsExt c here).1
  rw [SameLetters, decoded, List.map_append, map_upper_legal legal.chars] at same
  rw [legal.field, legal.fieldExt]
  by_cases none : ext = []
  · rw [if_pos none, List.map_nil, List.append_nil] at same
    have plain : ∀ c ∈ text, c ≠ dot := no_dot_of_map (by rw [same]; exact chars)
    have short : text.length ≤ 8 := by
      rw [← List.length_map (f := upper), same]
      exact legal.short
    rw [to_fat83_plain plain, List.take_of_length_le short, same, none]
  · rw [if_neg none, List.map_cons, upper_dot, map_upper_legal legal.charsExt] at same
    obtain ⟨front, back, rfl, first, second⟩ := List.map_eq_append_iff.mp same
    obtain ⟨c, rest, rfl, mark, last⟩ := List.map_eq_cons_iff.mp second
    obtain rfl := upper_eq_dot mark
    have plain : ∀ c ∈ front, c ≠ dot := no_dot_of_map (by rw [first]; exact chars)
    have short : front.length ≤ 8 := by
      rw [← List.length_map (f := upper), first]
      exact legal.short
    have shortExt : rest.length ≤ 3 := by
      rw [← List.length_map (f := upper), last]
      exact legal.shortExt
    rw [to_fat83_dotted plain, List.take_of_length_le short, List.take_of_length_le shortExt, first, last]

theorem fat83_to_str_entry (short : name.length ≤ 8) (chars : ∀ c ∈ name, Typed c)
    (charsExt : ∀ c ∈ ext, Typed c) :
    fat83ToStr (entryOf (pad 8 (name.map upper) ++ pad 3 (ext.map upper))) =
      name.map upper ++ if ext = [] then [] else dot :: ext.map upper := by
  have width : (pad 8 (name.map upper)).length = 8 := length_pad (by rw [List.length_map]; exact short)
  have typed : ∀ {cs : List Byte}, (∀ c ∈ cs, Typed c) → ∀ c ∈ cs.map upper, Typed c := by
    intro cs all c here
    obtain ⟨d, member, rfl⟩ := List.mem_map.mp here
    exact upper_typed (all d member)
  have decoded := @fat83_to_str_padded (name.map upper) (ext.map upper)
    (entryOf (pad 8 (name.map upper) ++ pad 3 (ext.map upper))) 8
    (List.take_left' width) (List.drop_left' width) (typed chars) (typed charsExt)
  rw [decoded]
  simp only [List.map_eq_nil_iff]

end Texts

/-- The two functions on names of 1 to 8 characters and extensions of up to 3. -/
structure NamesRoundTrip : Prop where
  entry : ∀ de name ext, LegalName de name ext → ∀ text, SameLetters text (fat83ToStr de) →
    toFat83 text = de.name ++ de.ext
  plain : ∀ name : List Byte, 1 ≤ name.length → name.length ≤ 8 → (∀ c ∈ name, Typed c) →
    fat83ToStr (entryOf (toFat83 name)) = name.map upper
  dotted : ∀ name ext : List Byte, 1 ≤ name.length → name.length ≤ 8 → (∀ c ∈ name, Typed c) →
    1 ≤ ext.length → ext.length ≤ 3 → (∀ c ∈ ext, Typed c) →
    fat83ToStr (entryOf (toFat83 (name ++ dot :: ext))) = (name ++ dot :: ext).map upper
  -- a dot with nothing behind it is lost
  trailing : ∀ name : List Byte, 1 ≤ name.length → name.length ≤ 8 → (∀ c ∈ name, Typed c) →
    fat83ToStr (entryOf (toFat83 (name ++ [dot]))) = name.map upper
  fits : ∀ (sector : Sector) (i : Nat), (fat83ToStr (direntAt sector i)).length + 1 ≤ 13

theorem names_round_trip : NamesRoundTrip := by
  constructor
  · intro de name ext legal text same
    exact to_fat83_any_case legal same
  · intro name _ short chars
    have decoded := @fat83_to_str_entry _ [] short chars (by simp)
    rw [List.map_nil, if_pos rfl, List.append_nil] at decoded
    rw [to_fat83_plain fun c here => (chars c here).2.2, List.take_of_length_le short]
    exact decoded
  · intro name ext _ short chars some shortExt charsExt
    have decoded := fat83_to_str_entry short chars charsExt
    have nonempty : ext ≠ [] := by
      rintro rfl
      cases some
    rw [if_neg nonempty] at decoded
    rw [to_fat83_dotted fun c here => (chars c here).2.2, List.take_of_length_le short,
      List.take_of_length_le shortExt, decoded, List.map_append, List.map_cons, upper_dot]
  · intro name _ short chars
    have decoded := @fat83_to_str_entry _ [] short chars (by simp)
    rw [List.map_nil, if_pos rfl, List.append_nil] at decoded
    rw [to_fat83_dotted fun c here => (chars c here).2.2, List.take_of_length_le short]
    exact decoded
  · intro sector i
    have width : (direntAt sector i).name.length = 8 := by
      simp only [direntAt, List.length_map, List.length_range]
    have widthExt : (direntAt sector i).ext.length = 3 := by
      simp only [direntAt, List.length_map, List.length_range]
    have name := List.length_filter_le (fun c => c ≠ space) (direntAt sector i).name
    have ext := List.length_filter_le (fun c => c ≠ space) (direntAt sector i).ext
    rw [fat83ToStr, List.length_append]
    split
    · rw [List.length_cons]
      omega
    · rw [List.length_nil]
      omega

/-- The name "A." comes back as "A". -/
theorem trailing_dot_lost : ¬ ∀ name ext : List Byte, 1 ≤ name.length → name.length ≤ 8 →
    (∀ c ∈ name, Typed c) → ext.length ≤ 3 → (∀ c ∈ ext, Typed c) →
    fat83ToStr (entryOf (toFat83 (name ++ dot :: ext))) = (name ++ dot :: ext).map upper := by
  intro all
  have same := all [0x41] [] (by decide) (by decide) (by simp [Typed, space, dot]) (by decide) (by simp)
  revert same
  decide

end Archarch.Fat16
