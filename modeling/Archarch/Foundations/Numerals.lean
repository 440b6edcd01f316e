import Mathlib.Data.Nat.Digits.Lemmas

/- Numerals in a base: the division loop that fills a buffer from the last digit on, and the value
   of a numeral that is read from its first digit on. -/
namespace Numerals
variable {b : Nat}

/-- Digits from the last one on, in a buffer with room for so many; none is a digit too many. -/
def fill (b : Nat) : Nat → Nat → Option (List Nat)
  | 0, n => if n = 0 then some [] else none
  | room + 1, n => if n = 0 then some [] else (fill b room (n / b)).map (n % b :: ·)

def value (b : Nat) (numeral : List Nat) : Nat := numeral.foldl (fun v d => v * b + d) 0

/-- The digits of n from the first one on; that of 0 is empty. -/
def numeral (b n : Nat) : List Nat := (Nat.digits b n).reverse

def padded (b : Nat) : Nat → Nat → List Nat
  | 0, _ => []
  | w + 1, n => n / b ^ w % b :: padded b w n

section Filling
variable {room n : Nat}

theorem fill_zero (room : Nat) : fill b room 0 = some [] := by
  cases room <;> rfl

theorem fill_succ (positive : n ≠ 0) : fill b (room + 1) n = (fill b room (n / b)).map (n % b :: ·) :=
  if_neg positive

theorem fill_eq (base : 1 < b) (fits : n < b ^ room) : fill b room n = some (Nat.digits b n) := by
  induction room generalizing n with
  | zero =>
    have none_ : n = 0 := Nat.lt_one_iff.mp fits
    rw [none_, fill_zero, Nat.digits_zero]
  | succ room ih =>
    by_cases zero : n = 0
    · rw [zero, fill_zero, Nat.digits_zero]
    · have rest : n / b < b ^ room := Nat.div_lt_of_lt_mul (by rwa [Nat.pow_succ'] at fits)
      rw [fill_succ zero, ih rest, Option.map_some, Nat.digits_def' base (Nat.pos_of_ne_zero zero)]

end Filling

section Reading

theorem value_append (b : Nat) (ds : List Nat) (d : Nat) : value b (ds ++ [d]) = value b ds * b + d := by
  rw [value, List.foldl_append]
  rfl

theorem value_reverse (b : Nat) (ds : List Nat) : value b ds.reverse = Nat.ofDigits b ds := by
  induction ds with
  | nil => rfl
  | cons d ds ih =>
    rw [List.reverse_cons, value_append, ih, Nat.ofDigits_cons]
    exact Nat.add_comm _ _ |>.trans (by rw [Nat.mul_comm])

theorem value_numeral (b n : Nat) : value b (numeral b n) = n :=
  (value_reverse b _).trans (Nat.ofDigits_digits b n)

theorem foldl_padded (b : Nat) (w n v : Nat) :
    (padded b w n).foldl (fun v d => v * b + d) v = v * b ^ w + n % b ^ w := by
  induction w generalizing v with
  | zero => simp [padded, Nat.mod_one]
  | succ w ih =>
    have digit : n / b ^ w % b * b ^ w = b ^ w * (n / b ^ w % b) := Nat.mul_comm _ _
    rw [padded, List.foldl_cons, ih, Nat.pow_succ, Nat.mod_mul, Nat.add_mul, Nat.mul_assoc, Nat.mul_comm b, digit]
    omega

theorem value_padded {w n : Nat} (fits : n < b ^ w) : value b (padded b w n) = n := by
  rw [value, foldl_padded, Nat.mod_eq_of_lt fits, Nat.zero_mul, Nat.zero_add]

theorem padded_length (b w n : Nat) : (padded b w n).length = w := by
  induction w with
  | zero => rfl
  | succ w ih => rw [padded, List.length_cons, ih]

theorem padded_lt {w n d : Nat} (base : 0 < b) (member : d ∈ padded b w n) : d < b := by
  induction w with
  | zero => cases member
  | succ w ih =>
    rcases List.mem_cons.mp member with rfl | later
    · exact Nat.mod_lt _ base
    · exact ih later

end Reading
end Numerals
