import Mathlib.Logic.Function.Basic

/- Words that hold several things side by side: lanes of eight bits, single bits. -/
namespace PackedWords

def lane {w : Nat} (x : BitVec w) (k : Nat) : BitVec 8 := (x >>> (8 * k)).setWidth 8

def putLane {w : Nat} (x : BitVec w) (k : Nat) (b : BitVec 8) : BitVec w :=
  (x &&& ~~~((0xFF#8).setWidth w <<< (8 * k))) ||| (b.setWidth w <<< (8 * k))

section Lanes
variable {w : Nat} {x : BitVec w} {b : BitVec 8} {j k : Nat}

theorem lane_bit {i : Nat} (inside : i < 8) : (lane x k).getLsbD i = x.getLsbD (8 * k + i) := by
  simp [lane, inside]

theorem put_lane_bit {i : Nat} (inside : i < w) : (putLane x k b).getLsbD i =
    if 8 * k ≤ i ∧ i < 8 * k + 8 then b.getLsbD (i - 8 * k) else x.getLsbD i := by
  have ones : ∀ n, (0xFF#8).getLsbD n = decide (n < 8) := by
    intro n
    rw [show (0xFF#8) = BitVec.allOnes 8 from rfl, BitVec.getLsbD_allOnes]
  simp only [putLane, BitVec.getLsbD_or, BitVec.getLsbD_and, BitVec.getLsbD_not, BitVec.getLsbD_shiftLeft,
    BitVec.getLsbD_setWidth, inside, ones, decide_true, Bool.true_and]
  by_cases low : i < 8 * k
  · rw [if_neg (by omega)]
    simp [low]
  · have small : i - 8 * k < w := by omega
    by_cases high : i < 8 * k + 8
    · rw [if_pos (by omega)]
      have narrow : i - 8 * k < 8 := by omega
      simp [low, small, narrow]
    · rw [if_neg (by omega)]
      have wide : ¬ i - 8 * k < 8 := by omega
      simp [low, small, wide, BitVec.getLsbD_of_ge b (i - 8 * k) (by omega)]

theorem put_lane_same (room : 8 * k + 8 ≤ w) : lane (putLane x k b) k = b := by
  apply BitVec.eq_of_getLsbD_eq
  intro i inside
  rw [lane_bit inside, put_lane_bit (by omega), if_pos (by omega), Nat.add_sub_cancel_left]

theorem put_lane_other (room : 8 * j + 8 ≤ w) (other : j ≠ k) : lane (putLane x k b) j = lane x j := by
  apply BitVec.eq_of_getLsbD_eq
  intro i inside
  rw [lane_bit inside, lane_bit inside, put_lane_bit (by omega), if_neg (by omega)]

theorem set_bit (x : BitVec w) (inside : j < w) : (x ||| (1#w <<< k)).getLsbD j = (decide (j = k) || x.getLsbD j) := by
  rw [BitVec.getLsbD_or, BitVec.getLsbD_shiftLeft, BitVec.getLsbD_one, Bool.or_comm]
  by_cases same : j = k
  · subst same
    simp [inside]
    omega
  · have apart : ¬ (¬ j < k ∧ j - k = 0) := by omega
    by_cases low : j < k
    · simp [same, low]
    · have far : j - k ≠ 0 := by omega
      simp [same, low, far]

end Lanes

/- Files of words, one after another. -/

section Files
variable {w : Nat} {f : Nat → BitVec w} {i j n : Nat}

/-- for (; n > 0; i++, n--) f[i] = change(f[i]) -/
def updateFrom {w : Nat} (change : BitVec w → BitVec w) (f : Nat → BitVec w) (i : Nat) : Nat → Nat → BitVec w
  | 0 => f
  | n + 1 => updateFrom change (Function.update f i (change (f i))) (i + 1) n

theorem update_from_eq {change : BitVec w → BitVec w} :
    updateFrom change f i n j = if i ≤ j ∧ j < i + n then change (f j) else f j := by
  induction n generalizing f i with
  | zero => rw [if_neg (by omega), updateFrom]
  | succ n ih =>
    rw [updateFrom, ih]
    by_cases here : j = i
    · subst here
      rw [if_neg (by omega), if_pos (by omega), Function.update_self]
    · rw [Function.update_of_ne here]
      by_cases inside : i + 1 ≤ j ∧ j < i + 1 + n
      · rw [if_pos inside, if_pos (by omega)]
      · rw [if_neg inside, if_neg (by omega)]

end Files
end PackedWords
