import Mathlib.Data.Fintype.Pigeonhole
import Mathlib.Logic.Function.Iterate

/- Following a function from a start until it comes to a place that it does not leave: over finitely
   many places it gets there exactly if no other place comes twice. -/
namespace Orbits
variable {α : Type*} {f : α → α} {x stop : α}

def NoRepeat (f : α → α) (x stop : α) : Prop :=
  ∀ m n, m < n → f^[n] x ≠ stop → f^[m] x ≠ f^[n] x

theorem stays (fixed : f stop = stop) {m n : Nat} (order : m ≤ n) (there : f^[m] x = stop) : f^[n] x = stop := by
  obtain ⟨k, rfl⟩ := Nat.exists_eq_add_of_le order
  rw [Nat.add_comm, Function.iterate_add_apply, there]
  exact Function.iterate_fixed fixed k

theorem loops {m p : Nat} (same : f^[m] x = f^[m + p] x) (k : Nat) : f^[m + k * p] x = f^[m] x := by
  induction k with
  | zero => rw [Nat.zero_mul, Nat.add_zero]
  | succ k ih =>
    have further : m + (k + 1) * p = p + (m + k * p) := by
      rw [Nat.succ_mul]
      omega
    rw [further, Function.iterate_add_apply, ih, ← Function.iterate_add_apply, Nat.add_comm, ← same]

theorem no_repeat_of_stops (fixed : f stop = stop) (stops : ∃ n, f^[n] x = stop) : NoRepeat f x stop := by
  intro m n order away same
  obtain ⟨k, there⟩ := stops
  obtain ⟨p, rfl⟩ := Nat.exists_eq_add_of_le (Nat.le_of_lt order)
  have around := loops same k
  have late : k ≤ m + k * p := by
    have once : k * 1 ≤ k * p := Nat.mul_le_mul_left k (by omega)
    omega
  apply away
  rw [← same, ← around]
  exact stays fixed late there

theorem stops_of_no_repeat [Fintype α] (fixed : f stop = stop) (once : NoRepeat f x stop) :
    f^[Fintype.card α] x = stop := by
  have many : Fintype.card α < Fintype.card (Fin (Fintype.card α + 1)) := by
    rw [Fintype.card_fin]
    exact Nat.lt_succ_self _
  obtain ⟨m, n, different, same⟩ :=
    Fintype.exists_ne_map_eq_of_card_lt (fun k : Fin (Fintype.card α + 1) => f^[k.val] x) many
  have within : ∀ k : Fin (Fintype.card α + 1), f^[k.val] x = stop → f^[Fintype.card α] x = stop :=
    fun k there => stays fixed (Nat.lt_succ_iff.mp k.isLt) there
  rcases Nat.lt_trichotomy m n with before | equal | behind
  · apply within n
    by_contra away
    exact once m n before away same
  · exact absurd (Fin.ext equal) different
  · apply within m
    by_contra away
    exact once n m behind away same.symm

theorem stops_iff [Fintype α] (fixed : f stop = stop) : (∃ n, f^[n] x = stop) ↔ NoRepeat f x stop :=
  ⟨no_repeat_of_stops fixed, fun once => ⟨Fintype.card α, stops_of_no_repeat fixed once⟩⟩

end Orbits
