import Archarch.Foundations.Extents
import Mathlib.Algebra.Group.Nat.Defs
import Mathlib.Logic.Function.Basic

/- Bump allocation with alignment: each request takes its size from the next address that is a
   multiple of it, in a window that all requests of one kind share. -/
namespace BumpAllocation
open ExtentLayout

def roundUp (n a : Nat) : Nat := (a + (n - 1)) / n * n

section Rounding
variable {n a k w : Nat}

theorem round_up_dvd : n ∣ roundUp n a := Nat.dvd_mul_left n _

theorem le_round_up (positive : 0 < n) : a ≤ roundUp n a := by
  have split := Nat.div_add_mod (a + (n - 1)) n
  have rest := Nat.mod_lt (a + (n - 1)) positive
  rw [roundUp, Nat.mul_comm]
  omega

theorem round_up_lt (positive : 0 < n) : roundUp n a < a + n := by
  have below := Nat.div_mul_le_self (a + (n - 1)) n
  rw [roundUp]
  omega

theorem mask_parts (x m : BitVec w) : (x &&& ~~~m).toNat + (x &&& m).toNat = x.toNat := by
  have disjoint : (x &&& ~~~m) &&& (x &&& m) = 0#w := by
    apply BitVec.eq_of_getElem_eq
    intro i inside
    simp only [BitVec.getElem_and, BitVec.getElem_not, BitVec.getElem_zero]
    cases m[i] <;> simp
  have joined : (x &&& ~~~m) ||| (x &&& m) = x := by
    apply BitVec.eq_of_getElem_eq
    intro i inside
    simp only [BitVec.getElem_or, BitVec.getElem_and, BitVec.getElem_not]
    cases m[i] <;> simp
  have sum := BitVec.add_eq_or_of_and_eq_zero _ _ disjoint
  rw [joined] at sum
  rw [← BitVec.toNat_add_of_and_eq_zero disjoint, sum]

theorem clear_low_bits {x m : BitVec w} (low : m.toNat = 2 ^ k - 1) :
    (x &&& ~~~m).toNat = x.toNat / 2 ^ k * 2 ^ k := by
  have parts := mask_parts x m
  have rest : (x &&& m).toNat = x.toNat % 2 ^ k := by
    rw [BitVec.toNat_and, low, Nat.and_two_pow_sub_one_eq_mod]
  have split := Nat.div_add_mod x.toNat (2 ^ k)
  rw [Nat.mul_comm]
  omega

theorem round_up_word {next size : BitVec w} (power : size.toNat = 2 ^ k)
    (room : next.toNat + 2 ^ k ≤ 2 ^ w) :
    ((next + size - 1#w) &&& ~~~(size - 1#w)).toNat = roundUp (2 ^ k) next.toNat := by
  have positive := Nat.two_pow_pos k
  have wide : 1 < 2 ^ w := by
    have := size.isLt
    omega
  have one : (1#w).toNat = 1 := by rw [BitVec.toNat_ofNat, Nat.mod_eq_of_lt wide]
  have le : 1#w ≤ size := by
    rw [BitVec.le_def, one, power]
    exact positive
  have less : (size - 1#w).toNat = 2 ^ k - 1 := by rw [BitVec.toNat_sub_of_le le, power, one]
  have moved : next + size - 1#w = next + (size - 1#w) := by
    rw [BitVec.sub_eq_add_neg, BitVec.sub_eq_add_neg, BitVec.add_assoc]
  rw [clear_low_bits less, moved, BitVec.toNat_add, less, Nat.mod_eq_of_lt (by omega), roundUp]

end Rounding

structure Request (Kind : Type*) where
  kind : Kind
  size : Nat
  positive : 0 < size

structure Windows (Kind : Type*) where
  base : Kind → Nat
  limit : Kind → Nat
  separate : ∀ k l, k ≠ l → limit k ≤ base l ∨ limit l ≤ base k

section Serving
variable {Kind : Type*}

/-- The ranges given are aligned to their size, in the window of their kind, and do not overlap. -/
structure Sound (base limit : Kind → Nat) (given : List (Kind × Range)) : Prop where
  aligned : ∀ g ∈ given, g.2.len ∣ g.2.base
  inside : ∀ g ∈ given, base g.1 ≤ g.2.base ∧ g.2.base + g.2.len ≤ limit g.1
  apart : given.Pairwise fun g h => g.2.Apart h.2

structure Filled (w : Windows Kind) (next : Kind → Nat) (given : List (Kind × Range)) : Prop where
  between : ∀ k, w.base k ≤ next k ∧ next k ≤ w.limit k
  sound : Sound w.base next given

variable {w : Windows Kind} {base limit next : Kind → Nat} {given more : List (Kind × Range)}
variable {r : Request Kind} {rs qs : List (Request Kind)}

theorem sound_widen (sound : Sound base next given) (wider : ∀ k, next k ≤ limit k) : Sound base limit given := by
  constructor
  · exact sound.aligned
  · intro g hg
    have here := sound.inside g hg
    exact ⟨here.1, Nat.le_trans here.2 (wider g.1)⟩
  · exact sound.apart

theorem sound_of_append (sound : Sound base limit (given ++ more)) : Sound base limit given := by
  constructor
  · intro g hg
    exact sound.aligned g (List.mem_append_left more hg)
  · intro g hg
    exact sound.inside g (List.mem_append_left more hg)
  · exact (List.pairwise_append.mp sound.apart).1

theorem filled_sound (filled : Filled w next given) : Sound w.base w.limit given :=
  sound_widen filled.sound fun k => (filled.between k).2

def place (next : Kind → Nat) (r : Request Kind) : Nat := roundUp r.size (next r.kind)

theorem next_le_place (next : Kind → Nat) (r : Request Kind) : next r.kind ≤ place next r :=
  le_round_up r.positive

variable [DecidableEq Kind]

def bump (next : Kind → Nat) (r : Request Kind) : Kind → Nat :=
  Function.update next r.kind (place next r + r.size)

def bumpAll (next : Kind → Nat) (rs : List (Request Kind)) : Kind → Nat := rs.foldl bump next

/-- Every request ends in its window if each is put behind the ones before it. -/
def AllFit (limit : Kind → Nat) : (Kind → Nat) → List (Request Kind) → Prop
  | _, [] => True
  | next, r :: rest => place next r + r.size ≤ limit r.kind ∧ AllFit limit (bump next r) rest

theorem bump_same (next : Kind → Nat) (r : Request Kind) : bump next r r.kind = place next r + r.size :=
  Function.update_self _ _ _

theorem bump_other {k : Kind} (other : k ≠ r.kind) : bump next r k = next k := Function.update_of_ne other _ _

theorem next_le_bump (next : Kind → Nat) (r : Request Kind) (k : Kind) : next k ≤ bump next r k := by
  by_cases same : k = r.kind
  · subst same
    rw [bump_same]
    have := next_le_place next r
    omega
  · rw [bump_other same]

theorem filled_place (filled : Filled w next given) (fits : place next r + r.size ≤ w.limit r.kind) :
    Filled w (bump next r) (given ++ [(r.kind, ⟨place next r, r.size⟩)]) := by
  have behind := next_le_place next r
  have start := filled.between r.kind
  have here := bump_same next r
  have widened := sound_widen filled.sound (next_le_bump next r)
  constructor
  · intro k
    have own := filled.between k
    by_cases same : k = r.kind
    · subst same
      omega
    · rw [bump_other same]
      exact own
  · constructor
    · intro g hg
      rcases List.mem_append.mp hg with old | new
      · exact widened.aligned g old
      · rw [List.mem_singleton.mp new]
        exact round_up_dvd
    · intro g hg
      rcases List.mem_append.mp hg with old | new
      · exact widened.inside g old
      · rw [List.mem_singleton.mp new]
        simp only [here]
        omega
    · apply List.pairwise_append.mpr
      constructor
      · exact filled.sound.apart
      constructor
      · exact List.pairwise_singleton _ _
      intro g hg h hh
      rw [List.mem_singleton.mp hh]
      have inside := filled.sound.inside g hg
      have own := filled.between g.1
      by_cases same : g.1 = r.kind
      · rw [same] at inside
        left
        simp only
        omega
      · rcases w.separate g.1 r.kind same with low | high
        · left
          simp only
          omega
        · right
          simp only
          omega

theorem all_fit_append :
    AllFit limit next (rs ++ qs) ↔ AllFit limit next rs ∧ AllFit limit (bumpAll next rs) qs := by
  induction rs generalizing next with
  | nil => simp [AllFit, bumpAll]
  | cons r rs ih =>
    simp only [List.cons_append, AllFit, ih, and_assoc]
    rfl

end Serving

section Allocators
variable {Kind : Type*} [DecidableEq Kind] {State : Type*}

/-- From s to t an allocator serves the requests rs: while they fit it keeps to the placement above, and when
    one does not fit, what it has given is no longer sound. -/
structure Serves (w : Windows Kind) (given : State → List (Kind × Range))
    (tracks : State → (Kind → Nat) → Prop) (rs : List (Request Kind)) (s t : State) : Prop where
  kept : ∃ more, given t = given s ++ more
  follows : ∀ next, tracks s next → AllFit w.limit next rs → tracks t (bumpAll next rs)
  breaks : ∀ next, tracks s next → ¬ AllFit w.limit next rs → ¬ Sound w.base w.limit (given t)

variable {w : Windows Kind} {given : State → List (Kind × Range)} {tracks : State → (Kind → Nat) → Prop}
variable {rs qs : List (Request Kind)} {s t u : State} {next : Kind → Nat}

theorem serves_nothing (same : given t = given s) (still : ∀ next, tracks s next → tracks t next) :
    Serves w given tracks [] s t := by
  constructor
  · exact ⟨[], by rw [same, List.append_nil]⟩
  · intro next here _
    exact still next here
  · intro next _ failed
    exact absurd trivial failed

theorem serves_one {r : Request Kind} {b : Nat} (gives : given t = given s ++ [(r.kind, ⟨b, r.size⟩)])
    (follows : ∀ next, tracks s next → place next r + r.size ≤ w.limit r.kind → tracks t (bump next r))
    (breaks : ∀ next, tracks s next → ¬ place next r + r.size ≤ w.limit r.kind →
      ¬ (w.base r.kind ≤ b ∧ b + r.size ≤ w.limit r.kind)) : Serves w given tracks [r] s t := by
  constructor
  · exact ⟨_, gives⟩
  · intro next here fits
    exact follows next here fits.1
  · intro next here failed sound
    have outside := breaks next here fun fits => failed ⟨fits, trivial⟩
    have member : (r.kind, (⟨b, r.size⟩ : Range)) ∈ given t := by
      rw [gives]
      exact List.mem_append_right _ (List.mem_singleton_self _)
    exact outside (sound.inside _ member)

theorem serves_append (first : Serves w given tracks rs s t) (second : Serves w given tracks qs t u) :
    Serves w given tracks (rs ++ qs) s u := by
  obtain ⟨front, begun⟩ := first.kept
  obtain ⟨back, ended⟩ := second.kept
  constructor
  · exact ⟨front ++ back, by rw [ended, begun, List.append_assoc]⟩
  · intro next here fits
    obtain ⟨fits, rest⟩ := all_fit_append.mp fits
    rw [bumpAll, List.foldl_append]
    exact second.follows _ (first.follows next here fits) rest
  · intro next here failed sound
    by_cases fits : AllFit w.limit next rs
    · have rest : ¬ AllFit w.limit (bumpAll next rs) qs := fun rest => failed (all_fit_append.mpr ⟨fits, rest⟩)
      exact second.breaks _ (first.follows next here fits) rest sound
    · rw [ended] at sound
      exact first.breaks next here fits (sound_of_append sound)

theorem serves_sound_iff (serves : Serves w given tracks rs s t)
    (held : ∀ u next, tracks u next → Sound w.base w.limit (given u)) (start : tracks s next) :
    Sound w.base w.limit (given t) ↔ AllFit w.limit next rs := by
  constructor
  · intro sound
    by_contra failed
    exact serves.breaks next start failed sound
  · intro fits
    exact held t _ (serves.follows next start fits)

end Allocators
end BumpAllocation
