import Mathlib.Algebra.Group.Nat.Defs
import Mathlib.Logic.Function.Basic

/- A memory of bytes with little-endian 64-bit words and ranges of bytes in it. -/
namespace ByteMemory

abbrev Mem := Nat → BitVec 8

def read64 (m : Mem) (a : Nat) : Nat :=
  (m a).toNat + 2 ^ 8 * (m (a + 1)).toNat + 2 ^ 16 * (m (a + 2)).toNat + 2 ^ 24 * (m (a + 3)).toNat +
    2 ^ 32 * (m (a + 4)).toNat + 2 ^ 40 * (m (a + 5)).toNat + 2 ^ 48 * (m (a + 6)).toNat +
    2 ^ 56 * (m (a + 7)).toNat

def write64 (m : Mem) (a v : Nat) : Mem :=
  fun x => if a ≤ x ∧ x < a + 8 then BitVec.ofNat 8 (v / 2 ^ (8 * (x - a))) else m x

def fill (m : Mem) (base n : Nat) (f : Nat → BitVec 8) : Mem :=
  fun x => if base ≤ x ∧ x < base + n then f (x - base) else m x

section Words
variable {m k : Mem} {a b v n base : Nat} {f : Nat → BitVec 8}

theorem read64_lt (m : Mem) (a : Nat) : read64 m a < 2 ^ 64 := by
  have b0 := (m a).isLt
  have b1 := (m (a + 1)).isLt
  have b2 := (m (a + 2)).isLt
  have b3 := (m (a + 3)).isLt
  have b4 := (m (a + 4)).isLt
  have b5 := (m (a + 5)).isLt
  have b6 := (m (a + 6)).isLt
  have b7 := (m (a + 7)).isLt
  simp only [read64]
  omega

theorem read64_congr (same : ∀ o, o < 8 → m (a + o) = k (a + o)) : read64 m a = read64 k a := by
  have first := same 0 (by omega)
  rw [Nat.add_zero] at first
  simp only [read64, first, same 1 (by omega), same 2 (by omega), same 3 (by omega),
    same 4 (by omega), same 5 (by omega), same 6 (by omega), same 7 (by omega)]

theorem write64_outside (outside : b < a ∨ a + 8 ≤ b) : write64 m a v b = m b := by
  rw [write64, if_neg (by omega)]

theorem read64_write64 (fits : v < 2 ^ 64) : read64 (write64 m a v) a = v := by
  have byte : ∀ o, o < 8 → (write64 m a v (a + o)).toNat = v / 2 ^ (8 * o) % 2 ^ 8 := by
    intro o small
    rw [write64, if_pos (by omega), Nat.add_sub_cancel_left, BitVec.toNat_ofNat]
  have first := byte 0 (by omega)
  rw [Nat.add_zero] at first
  simp only [read64, first, byte 1 (by omega), byte 2 (by omega), byte 3 (by omega),
    byte 4 (by omega), byte 5 (by omega), byte 6 (by omega), byte 7 (by omega)]
  omega

theorem read64_write64_apart (apart : a + 8 ≤ b ∨ b + 8 ≤ a) :
    read64 (write64 m a v) b = read64 m b := by
  refine read64_congr ?_
  intro o small
  exact write64_outside (by omega)

theorem write64_comm {w : Nat} (apart : a + 8 ≤ b ∨ b + 8 ≤ a) :
    write64 (write64 m a v) b w = write64 (write64 m b w) a v := by
  funext x
  simp only [write64]
  split
  · rw [if_neg (by omega)]
  · rfl

theorem fill_inside (inside : base ≤ a ∧ a < base + n) : fill m base n f a = f (a - base) := by
  rw [fill, if_pos inside]

theorem fill_outside (outside : a < base ∨ base + n ≤ a) : fill m base n f a = m a := by
  rw [fill, if_neg (by omega)]

theorem read64_fill_zero (inside : base ≤ a ∧ a + 8 ≤ base + n) :
    read64 (fill m base n fun _ => 0) a = 0 := by
  have zero : ∀ o, o < 8 → fill m base n (fun _ => 0) (a + o) = 0 := by
    intro o small
    exact fill_inside (by omega)
  have first := zero 0 (by omega)
  rw [Nat.add_zero] at first
  simp only [read64, first, zero 1 (by omega), zero 2 (by omega), zero 3 (by omega),
    zero 4 (by omega), zero 5 (by omega), zero 6 (by omega), zero 7 (by omega)]
  rfl

end Words
end ByteMemory
