import Mathlib.Algebra.BigOperators.Group.Finset.Basic
import Mathlib.Data.Nat.ModEq

/- One's-complement sums in base b: a sum folded with its carries added back in at the low end
   keeps its residue modulo b - 1, and only the sum 0 folds to 0. -/
namespace EndAroundCarry
variable {b s c : Nat}

theorem carry_decreases (base : 1 < b) (large : b ≤ s) : s % b + s / b < s := by
  have split := Nat.mod_add_div s b
  have positive : 0 < s / b := Nat.div_pos large (by omega)
  have twice : 2 * (s / b) ≤ b * (s / b) := Nat.mul_le_mul_right _ base
  omega

/-- The carries go back in until none is left. -/
def fold (b s : Nat) : Nat :=
  if 1 < b ∧ b ≤ s then fold b (s % b + s / b) else s
termination_by s
decreasing_by
  rename_i carry
  exact carry_decreases carry.1 carry.2

theorem fold_lt (base : 1 < b) (s : Nat) : fold b s < b := by
  fun_induction fold b s with
  | case1 s carry ih => exact ih
  | case2 s small => omega

theorem carry_modEq (b s : Nat) : s % b + s / b ≡ s [MOD b - 1] := by
  cases b with
  | zero => simp [Nat.ModEq]
  | succ a =>
    have one : a + 1 ≡ 1 [MOD a] := by simp [Nat.ModEq]
    have product : (a + 1) * (s / (a + 1)) ≡ s / (a + 1) [MOD a] := by
      simpa using one.mul_right (s / (a + 1))
    calc s % (a + 1) + s / (a + 1)
      _ ≡ s % (a + 1) + (a + 1) * (s / (a + 1)) [MOD a] := (product.symm).add_left _
      _ = s := Nat.mod_add_div s (a + 1)

theorem fold_modEq (b s : Nat) : fold b s ≡ s [MOD b - 1] := by
  fun_induction fold b s with
  | case1 s carry ih => exact ih.trans (carry_modEq b s)
  | case2 s small => exact Nat.ModEq.refl s

theorem fold_pos (positive : 0 < s) : 0 < fold b s := by
  fun_induction fold b s with
  | case1 s carry ih =>
    apply ih
    have quotient : 0 < s / b := Nat.div_pos carry.2 (by omega)
    omega
  | case2 s small => exact positive

theorem fold_full (base : 1 < b) (positive : 0 < s) (multiple : b - 1 ∣ s) : fold b s = b - 1 := by
  have residue : b - 1 ∣ fold b s :=
    ((fold_modEq b s).dvd_iff (dvd_refl (b - 1))).mpr multiple
  have least := Nat.le_of_dvd (fold_pos positive) residue
  have below := fold_lt base s
  omega

theorem fold_complement (base : 1 < b) (s : Nat) : fold b (s + (b - 1 - fold b s)) = b - 1 := by
  have below := fold_lt base s
  apply fold_full base
  · by_cases zero : s = 0
    · subst zero
      have still : fold b 0 = 0 := by
        rw [fold, if_neg (by omega)]
      omega
    · omega
  · have same := (fold_modEq b s).add_right (b - 1 - fold b s)
    have whole : fold b s + (b - 1 - fold b s) = b - 1 := by omega
    rw [whole] at same
    exact (same.dvd_iff (dvd_refl (b - 1))).mp (dvd_refl (b - 1))

theorem sum_update_zero {f g : Nat → Nat} {n i : Nat} (inside : i < n) (zero : f i = 0)
    (others : ∀ j, j ≠ i → g j = f j) : ∑ j ∈ Finset.range n, g j = ∑ j ∈ Finset.range n, f j + g i := by
  have member : i ∈ Finset.range n := Finset.mem_range.mpr inside
  have rest : ∑ j ∈ (Finset.range n).erase i, g j = ∑ j ∈ (Finset.range n).erase i, f j := by
    apply Finset.sum_congr rfl
    intro j other
    exact others j (Finset.ne_of_mem_erase other)
  rw [← Finset.add_sum_erase _ g member, ← Finset.add_sum_erase _ f member, rest, zero]
  omega

end EndAroundCarry
