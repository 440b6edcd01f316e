import Mathlib.Data.List.Basic
import Mathlib.Logic.Function.Basic

/- A ring of cap cells: window cap buf pos n is the n entries from position pos on,
   oldest first. -/
namespace RingWindow
variable {α : Type*} {cap pos n : Nat} {buf : Nat → α}

def window (cap : Nat) (buf : Nat → α) (pos n : Nat) : List α :=
  (List.range n).map fun i => buf ((pos + i) % cap)

@[simp] theorem window_zero : window cap buf pos 0 = [] := rfl

@[simp] theorem window_length : (window cap buf pos n).length = n := by simp [window]

theorem window_mod : window cap buf (pos % cap) n = window cap buf pos n := by
  simp [window]

theorem cell_ne {i j : Nat} (before : i < j) (near : j < i + cap) : i % cap ≠ j % cap := by
  intro same
  have divides : cap ∣ j - i := Nat.dvd_of_mod_eq_zero (Nat.sub_mod_eq_zero_of_mod_eq same.symm)
  have := Nat.le_of_dvd (by omega) divides
  omega

theorem window_update_outside {p : Nat} {v : α} (outside : ∀ i < n, (pos + i) % cap ≠ p) :
    window cap (Function.update buf p v) pos n = window cap buf pos n := by
  refine List.map_congr_left ?_
  intro i hi
  exact Function.update_of_ne (outside i (List.mem_range.mp hi)) _ _

theorem window_append (room : n < cap) (v : α) :
    window cap (Function.update buf ((pos + n) % cap) v) pos (n + 1) = window cap buf pos n ++ [v] := by
  have old : window cap (Function.update buf ((pos + n) % cap) v) pos n = window cap buf pos n := by
    refine window_update_outside ?_
    intro i hi
    exact cell_ne (by omega) (by omega)
  rw [← old]
  simp [window, List.range_succ]

theorem window_uncons :
    window cap buf pos (n + 1) = buf (pos % cap) :: window cap buf ((pos + 1) % cap) n := by
  rw [window_mod]
  simp only [window, List.range_succ_eq_map, List.map_cons, List.map_map, Nat.add_zero,
    List.cons.injEq, true_and]
  refine List.map_congr_left ?_
  intro i _
  simp only [Function.comp_apply]
  congr 2
  omega

end RingWindow
