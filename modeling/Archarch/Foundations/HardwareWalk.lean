import Archarch.Foundations.TranslationTables

/- The walk of the hardware, with blocks: at every level above the last one a descriptor may also
   map all that its entry covers. Level 0 is the last one, with pages of 4096 bytes. -/
namespace TranslationTables
open ByteMemory

structure Mapping where
  pa : Nat
  descriptor : Nat
  deriving DecidableEq

def span (level : Nat) : Nat := 2 ^ (12 + 9 * level)

def Block (e : Nat) : Prop := e % 4 = 1

instance (e : Nat) : Decidable (Block e) := inferInstanceAs (Decidable (e % 4 = 1))

def slot (level va : Nat) : Nat := va / span level % 512

def mappedBy (e level va : Nat) : Mapping := ⟨e % 2 ^ 48 / span level * span level + va % span level, e⟩

def hardwareWalk (m : Mem) (va : Nat) : Nat → Nat → Option Mapping
  | 0, table =>
    let e := entryAt m table (slot 0 va)
    if Present e then some (mappedBy e 0 va) else none
  | level + 1, table =>
    let e := entryAt m table (slot (level + 1) va)
    if Present e then hardwareWalk m va level (outAddr e)
    else if Block e then some (mappedBy e (level + 1) va)
    else none

section Walks
variable {m k : Mem} {va level table e : Nat}

theorem slot_lt : slot level va < 512 := Nat.mod_lt _ (by decide)

theorem span_succ : span (level + 1) = span level * 512 := by
  rw [span, span, Nat.mul_add, ← Nat.add_assoc, Nat.pow_add]

theorem slot_eq : slot level va = va % span (level + 1) / span level := by
  rw [span_succ, Nat.mod_mul_right_div_self, slot]

theorem hardware_walk_low {wa : Nat} (same : va % span (level + 1) = wa % span (level + 1)) :
    hardwareWalk m va level table = hardwareWalk m wa level table := by
  have slots : slot level va = slot level wa := by rw [slot_eq, slot_eq, same]
  have rest : va % span level = wa % span level := by
    have cut := congrArg (· % span level) same
    simpa only [span_succ, Nat.mod_mul_right_mod] using cut
  induction level generalizing table with
  | zero => rw [hardwareWalk, hardwareWalk, slots, mappedBy, mappedBy, rest]
  | succ level ih =>
    have inner : va % span level = wa % span level := by
      have cut := congrArg (· % span level) rest
      simpa only [span_succ, Nat.mod_mul_right_mod] using cut
    have lower : slot level va = slot level wa := by rw [slot_eq, slot_eq, rest]
    rw [hardwareWalk, hardwareWalk, slots, mappedBy, mappedBy, rest, ih rest lower inner]

theorem entry_at_congr {i : Nat} (small : i < 512)
    (same : ∀ o, o < 4096 → k (table + o) = m (table + o)) : entryAt k table i = entryAt m table i := by
  refine read64_congr ?_
  intro o inside
  rw [Nat.add_assoc]
  exact same _ (by omega)

theorem hardware_walk_table (entry : entryAt m table (slot (level + 1) va) = e) (present : Present e) :
    hardwareWalk m va (level + 1) table = hardwareWalk m va level (outAddr e) := by
  rw [hardwareWalk, entry]
  exact if_pos present

theorem hardware_walk_block (entry : entryAt m table (slot (level + 1) va) = e) (block : Block e) :
    hardwareWalk m va (level + 1) table = some (mappedBy e (level + 1) va) := by
  have absent : ¬ Present e := by
    rw [present_iff]
    rw [Block] at block
    omega
  rw [hardwareWalk, entry]
  rw [if_neg absent, if_pos block]

theorem hardware_walk_empty (entry : entryAt m table (slot level va) = 0) :
    hardwareWalk m va level table = none := by
  have absent : ¬ Present 0 := by decide
  have empty : ¬ Block 0 := by decide
  cases level with
  | zero =>
    rw [hardwareWalk, entry]
    exact if_neg absent
  | succ level =>
    rw [hardwareWalk, entry]
    rw [if_neg absent, if_neg empty]

theorem mapped_by_eq {base flags : Nat} (aligned : base % span level = 0)
    (below : flags % 2 ^ 48 < span level) (fits : base + flags % 2 ^ 48 < 2 ^ 48) (shape : e = base + flags) :
    mappedBy e level va = ⟨base + va % span level, e⟩ := by
  have positive : 0 < span level := Nat.two_pow_pos _
  have low : e % 2 ^ 48 = base + flags % 2 ^ 48 := by
    rw [shape]
    omega
  obtain ⟨q, multiple⟩ := Nat.dvd_of_mod_eq_zero aligned
  have cut : (base + flags % 2 ^ 48) / span level * span level = base := by
    rw [multiple, Nat.mul_add_div positive, Nat.div_eq_of_lt below, Nat.add_zero, Nat.mul_comm]
  rw [mappedBy, low, cut]

end Walks

/- Trees without blocks: the hardware finds the pages that their paths lead to. -/

def walkPath (va : Nat) : List Nat := [slot 2 va, slot 1 va, slot 0 va]

section Trees
variable {m : Mem} {own : Nat → Prop} {roots : Nat → Option Nat} {n root va : Nat}

theorem walk_path_valid (va : Nat) : ValidPath (walkPath va) := by
  refine ⟨Nat.le_refl _, ?_⟩
  intro i member
  simp only [walkPath, List.mem_cons, List.not_mem_nil, or_false] at member
  rcases member with rfl | rfl | rfl
  · exact slot_lt
  · exact slot_lt
  · exact slot_lt

theorem forest_level (forest : Forest own roots m) {p : List Nat} {a level : Nat}
    (here : Occurs roots m n p a) (short : p.length < levels) :
    hardwareWalk m va (level + 1) a =
      if Present (entryAt m a (slot (level + 1) va)) then
        hardwareWalk m va level (outAddr (entryAt m a (slot (level + 1) va)))
      else none := by
  rcases forest.entries n p a _ here short slot_lt with empty | ⟨present, _⟩
  · have absent : ¬ Present 0 := by decide
    rw [hardware_walk_empty empty, empty, if_neg absent]
  · rw [hardware_walk_table rfl present, if_pos present]

theorem forest_walk (va : Nat) (forest : Forest own roots m) (here : roots n = some root) :
    (hardwareWalk m va 2 root).map Mapping.pa = (walk m root (walkPath va)).map fun a => a + va % 4096 := by
  have top : Occurs roots m n [] root := ⟨valid_nil, root, here, rfl⟩
  rw [forest_level forest top (by decide), walkPath, walk]
  split
  · rename_i first
    have second : Occurs roots m n [slot 2 va] (outAddr (entryAt m root (slot 2 va))) :=
      (occurs_snoc top (by decide) slot_lt).mpr ⟨first, rfl⟩
    rw [forest_level forest second (by simp [levels]), walk]
    split
    · rename_i present
      rw [hardwareWalk, walk]
      split
      · rw [mappedBy, outAddr, walk]
        rfl
      · rfl
    · rfl
  · rfl

end Trees
end TranslationTables
