import Mathlib.Data.List.Count

/- Going round from one number towards another: upwards, and after some last number from
   0 on. Where the last number is does not matter, so it may grow on the way. -/
namespace CyclicScan

/-- j lies behind c and before k on the way round. From k itself that is every other number. -/
def Between (c k j : Nat) : Prop := if c < k then c < j ∧ j < k else c < j ∨ j < k

instance (c k j : Nat) : Decidable (Between c k j) := by
  unfold Between
  infer_instance

section Orders
variable {c k j next n d : Nat}

theorem not_between_self : ¬ Between c k c := by
  unfold Between
  split <;> omega

theorem between_of_ne (other : j ≠ c) : Between c c j := by
  unfold Between
  split <;> omega

theorem between_trans (first : Between c k next) (second : Between next k j) : Between c k j := by
  unfold Between at *
  split at first <;> split at second <;> split <;> omega

/-- A scan of all n numbers behind c stops at k or before it. -/
theorem scan_towards (start : c < n) (target : k < n) (within : d ≤ n)
    (missed : ∀ e, 1 ≤ e → e < d → (c + e) % n ≠ k) (some : 1 ≤ d) :
    (c + d) % n = k ∨ Between c k ((c + d) % n) := by
  have value : (c + d) % n = if c + d < n then c + d else c + d - n := by
    split
    · rename_i low
      exact Nat.mod_eq_of_lt low
    · rename_i high
      rw [Nat.mod_eq_sub_mod (by omega), Nat.mod_eq_of_lt (by omega)]
  rw [value]
  unfold Between
  by_cases above : c < k
  · have offset : ¬ k - c < d := by
      intro later
      apply missed (k - c) (by omega) later
      rw [show c + (k - c) = k by omega, Nat.mod_eq_of_lt target]
    split <;> omega
  · have offset : ¬ k + n - c < d := by
      intro later
      apply missed (k + n - c) (by omega) later
      rw [show c + (k + n - c) = k + n by omega, Nat.add_mod_right, Nat.mod_eq_of_lt target]
    split <;> omega

end Orders

structure Round (k p : Nat) (met : List Nat) : Prop where
  once : ∀ j, j ≠ k → met.count j ≤ 1
  behind : ∀ j ∈ met, ¬ Between p k j

section Rounds
variable {k p next : Nat} {met : List Nat}

theorem round_nil : Round k p [] := by
  constructor
  · intro j _
    exact Nat.zero_le 1
  · intro j member
    cases member

/-- The next one met is ahead, so it is new. -/
theorem round_once (round : Round k p met) (ahead : next = k ∨ Between p k next) :
    ∀ j, j ≠ k → (met ++ [next]).count j ≤ 1 := by
  intro j other
  rw [List.count_append, List.count_singleton]
  by_cases here : next = j
  · subst here
    have fresh : met.count next = 0 := by
      apply List.count_eq_zero.mpr
      intro member
      exact round.behind next member (ahead.resolve_left other)
    rw [fresh]
    split <;> omega
  · rw [if_neg (by simpa using here)]
    exact round.once j other

theorem round_append (round : Round k p met) (ahead : Between p k next) : Round k next (met ++ [next]) := by
  constructor
  · exact round_once round (Or.inr ahead)
  · intro j member more
    rcases List.mem_append.mp member with before | last
    · exact round.behind j before (between_trans ahead more)
    · rw [List.mem_singleton.mp last] at more
      exact not_between_self more

end Rounds
end CyclicScan
