import Mathlib.Algebra.Group.Nat.Defs
import Mathlib.Logic.Basic

/- Unsigned 64-bit arithmetic on natural numbers: each operation wraps as the
   machine does and is the plain operation when nothing overflows. -/
namespace FixedWidth
variable {a b : Nat}

def add64 (a b : Nat) : Nat := (a + b) % 2 ^ 64
def sub64 (a b : Nat) : Nat := (a + 2 ^ 64 - b) % 2 ^ 64
def low32 (a : Nat) : Nat := a % 2 ^ 32

theorem add64_eq (fits : a + b < 2 ^ 64) : add64 a b = a + b := Nat.mod_eq_of_lt fits

theorem sub64_eq (order : b ≤ a) (fits : a < 2 ^ 64) : sub64 a b = a - b := by
  simp only [sub64]
  omega

theorem add64_lt (a b : Nat) : add64 a b < 2 ^ 64 := Nat.mod_lt _ (by decide)

theorem low32_eq (fits : a < 2 ^ 32) : low32 a = a := Nat.mod_eq_of_lt fits

end FixedWidth
