import Mathlib.Algebra.Group.Nat.Defs
import Mathlib.Data.List.Induction
import Archarch.Foundations.ByteMemory

/- Translation tables of three levels over a memory of bytes: a table is a page of 512
   entries, a path is the list of the indices taken from the root, a path of three
   indices leads to a page of data. A forest is a family of trees in which every page
   occurs once. -/
namespace TranslationTables
open ByteMemory

def levels : Nat := 3

def entryAt (m : Mem) (table i : Nat) : Nat := read64 m (table + 8 * i)

def Present (e : Nat) : Prop := e &&& 3 = 3

instance (e : Nat) : Decidable (Present e) := inferInstanceAs (Decidable (e &&& 3 = 3))

theorem present_iff {e : Nat} : Present e ↔ e % 4 = 3 := by
  rw [Present, show (3 : Nat) = 2 ^ 2 - 1 from rfl, Nat.and_two_pow_sub_one_eq_mod]

/-- The output address of a descriptor, bits 47 to 12. -/
def outAddr (e : Nat) : Nat := e % 2 ^ 48 / 4096 * 4096

def walk (m : Mem) : Nat → List Nat → Option Nat
  | a, [] => some a
  | a, i :: rest => if Present (entryAt m a i) then walk m (outAddr (entryAt m a i)) rest else none

structure ValidPath (p : List Nat) : Prop where
  depth : p.length ≤ levels
  indices : ∀ i ∈ p, i < 512

def Occurs (roots : Nat → Option Nat) (m : Mem) (n : Nat) (p : List Nat) (a : Nat) : Prop :=
  ValidPath p ∧ ∃ r, roots n = some r ∧ walk m r p = some a

/-- own tells which pages may occur. Every entry of a table is empty or present, and the
   entries that lead to tables have no bits above the address. -/
structure Forest (own : Nat → Prop) (roots : Nat → Option Nat) (m : Mem) : Prop where
  unique : ∀ n k p q a, Occurs roots m n p a → Occurs roots m k q a → n = k ∧ p = q
  owned : ∀ n p a, Occurs roots m n p a → own a
  entries : ∀ n p a i, Occurs roots m n p a → p.length < levels → i < 512 →
    entryAt m a i = 0 ∨
      (Present (entryAt m a i) ∧ (p.length + 1 < levels → entryAt m a i < 2 ^ 48))

structure Tables (own : Nat → Prop) (roots : Nat → Option Nat) (m : Mem) : Prop where
  unique : ∀ n k p q a, Occurs roots m n p a → Occurs roots m k q a → p.length < levels →
    q.length < levels → n = k ∧ p = q
  owned : ∀ n p a, Occurs roots m n p a → p.length < levels → own a
  entries : ∀ n p a i, Occurs roots m n p a → p.length + 1 < levels → i < 512 →
    entryAt m a i = 0 ∨ (Present (entryAt m a i) ∧ entryAt m a i < 2 ^ 48)

def leaf (m : Mem) (r : Nat) (p : List Nat) (i : Nat) : Option Nat :=
  (walk m r p).bind fun t => if Present (entryAt m t i) then some (entryAt m t i) else none

section Walks
variable {m k : Mem} {a b c i : Nat} {p q : List Nat}

theorem walk_append : walk m a (p ++ q) = (walk m a p).bind fun b => walk m b q := by
  induction p generalizing a with
  | nil => rfl
  | cons i p ih =>
    simp only [List.cons_append, walk]
    split
    · exact ih
    · rfl

theorem walk_snoc : walk m a (p ++ [i]) = some c ↔
    ∃ b, walk m a p = some b ∧ Present (entryAt m b i) ∧ outAddr (entryAt m b i) = c := by
  rw [walk_append, Option.bind_eq_some_iff]
  refine exists_congr fun b => and_congr_right fun _ => ?_
  simp only [walk]
  split
  · rename_i here
    simp [here]
  · rename_i absent
    simp [absent]

theorem valid_nil : ValidPath [] := ⟨Nat.zero_le _, by simp⟩

theorem valid_snoc : ValidPath (p ++ [i]) ↔ ValidPath p ∧ p.length < levels ∧ i < 512 := by
  constructor
  · intro valid
    have depth := valid.depth
    rw [List.length_append, List.length_singleton] at depth
    exact ⟨⟨by omega, fun j hj => valid.indices j (by simp [hj])⟩, by omega,
      valid.indices i (by simp)⟩
  · rintro ⟨valid, short, small⟩
    refine ⟨by rw [List.length_append, List.length_singleton]; omega, ?_⟩
    intro j hj
    rcases List.mem_append.mp hj with hj | hj
    · exact valid.indices j hj
    · rw [List.mem_singleton.mp hj]
      exact small

theorem walk_congr (valid : ValidPath q)
    (same : ∀ p i rest b, q = p ++ i :: rest → walk m a p = some b →
      entryAt k b i = entryAt m b i) : walk k a q = walk m a q := by
  induction q using List.reverseRecOn with
  | nil => rfl
  | append_singleton q i ih =>
    have shorter := ih (valid_snoc.mp valid).1 (by
      intro p j rest b split here
      exact same p j (rest ++ [i]) b (by rw [split]; simp) here)
    rw [walk_append, walk_append, shorter]
    cases here : walk m a q with
    | none => rfl
    | some b =>
      have entry := same q i [] b rfl here
      simp only [Option.bind_some, walk, entry]

end Walks

section Forests
variable {own more : Nat → Prop} {roots : Nat → Option Nat} {m k : Mem} {n : Nat} {a b e i : Nat}
variable {p : List Nat}

theorem forest_own (forest : Forest own roots m)
    (also : ∀ n p a, Occurs roots m n p a → more a) : Forest more roots m :=
  ⟨forest.unique, also, forest.entries⟩

theorem occurs_through {q : List Nat} {c : Nat} (there : Occurs roots m n (p ++ i :: q) c)
    (here : Occurs roots m n p a) : Present (entryAt m a i) := by
  obtain ⟨_, r, root, whole⟩ := there
  obtain ⟨_, r', root', part⟩ := here
  rw [root] at root'
  cases root'
  rw [walk_append, part, Option.bind_some, walk] at whole
  by_contra absent
  rw [if_neg absent] at whole
  cases whole

theorem occurs_prefix {q : List Nat} {c : Nat} (there : Occurs roots m n (p ++ q) c) :
    ∃ a, Occurs roots m n p a := by
  obtain ⟨valid, r, root, whole⟩ := there
  have depth := valid.depth
  rw [List.length_append] at depth
  rw [walk_append] at whole
  obtain ⟨a, part, _⟩ := Option.bind_eq_some_iff.mp whole
  exact ⟨a, ⟨by omega, fun i member => valid.indices i (List.mem_append_left q member)⟩, r, root, part⟩

theorem occurs_snoc {c : Nat} (here : Occurs roots m n p a) (short : p.length < levels)
    (small : i < 512) :
    Occurs roots m n (p ++ [i]) c ↔ Present (entryAt m a i) ∧ outAddr (entryAt m a i) = c := by
  obtain ⟨valid, r, root, part⟩ := here
  constructor
  · rintro ⟨_, r', root', whole⟩
    rw [root] at root'
    cases root'
    obtain ⟨b, reached, entry⟩ := walk_snoc.mp whole
    rw [part] at reached
    cases reached
    exact entry
  · intro entry
    exact ⟨valid_snoc.mpr ⟨valid, short, small⟩, r, root, walk_snoc.mpr ⟨a, part, entry⟩⟩

theorem forest_frame_walk (same : ∀ n p a, Occurs roots m n p a → p.length < levels →
    ∀ o, o < 4096 → k (a + o) = m (a + o)) {r : Nat} (root : roots n = some r)
    {q : List Nat} (valid : ValidPath q) : walk k r q = walk m r q := by
  refine walk_congr valid ?_
  intro p i rest b split here
  have depth := valid.depth
  have indices := valid.indices
  rw [split] at depth indices
  simp only [List.length_append, List.length_cons] at depth
  have small : i < 512 := indices i (by simp)
  have occurs : Occurs roots m n p b :=
    ⟨⟨by omega, fun j hj => indices j (by simp [hj])⟩, r, root, here⟩
  refine read64_congr ?_
  intro o word
  have byte := same n p b occurs (by omega) (8 * i + o) (by omega)
  rwa [← Nat.add_assoc] at byte

theorem occurs_frame (walks : ∀ n r q, roots n = some r → ValidPath q → walk k r q = walk m r q)
    {q : List Nat} : Occurs roots k n q a ↔ Occurs roots m n q a := by
  refine and_congr_right fun valid => exists_congr fun r => and_congr_right fun root => ?_
  rw [walks n r q root valid]

theorem forest_frame (forest : Forest own roots m)
    (same : ∀ n p a, Occurs roots m n p a → p.length < levels →
      ∀ o, o < 4096 → k (a + o) = m (a + o)) : Forest own roots k := by
  have walks : ∀ n r q, roots n = some r → ValidPath q → walk k r q = walk m r q :=
    fun n r q root valid => forest_frame_walk same root valid
  refine ⟨?_, ?_, ?_⟩
  · intro n l p q a first second
    exact forest.unique n l p q a ((occurs_frame walks).mp first) ((occurs_frame walks).mp second)
  · intro n p a here
    exact forest.owned n p a ((occurs_frame walks).mp here)
  · intro n p a i here short small
    have before := (occurs_frame walks).mp here
    have entry : entryAt k a i = entryAt m a i := by
      refine read64_congr ?_
      intro o word
      have byte := same n p a before short (8 * i + o) (by omega)
      rwa [← Nat.add_assoc] at byte
    rw [entry]
    exact forest.entries n p a i before short small

theorem leaf_frame (same : ∀ n p a, Occurs roots m n p a → p.length < levels →
    ∀ o, o < 4096 → k (a + o) = m (a + o)) {r j : Nat} (root : roots n = some r)
    {q : List Nat} (valid : ValidPath q) (depth : q.length + 1 = levels) (small : j < 512) :
    leaf k r q j = leaf m r q j := by
  rw [leaf, leaf, forest_frame_walk same root valid]
  cases reached : walk m r q with
  | none => rfl
  | some c =>
    have entry : entryAt k c j = entryAt m c j := by
      refine read64_congr ?_
      intro o word
      have byte := same n q c ⟨valid, r, root, reached⟩ (by omega) (8 * j + o) (by omega)
      rwa [← Nat.add_assoc] at byte
    rw [Option.bind_some, Option.bind_some, entry]

theorem tables_frame (tables : Tables own roots m)
    (same : ∀ n p a, Occurs roots m n p a → p.length < levels →
      ∀ o, o < 4096 → k (a + o) = m (a + o)) : Tables own roots k := by
  have occurs : ∀ {n q a}, Occurs roots k n q a ↔ Occurs roots m n q a :=
    occurs_frame fun n r q root valid => forest_frame_walk same root valid
  refine ⟨?_, ?_, ?_⟩
  · intro n l p q a first second
    exact tables.unique n l p q a (occurs.mp first) (occurs.mp second)
  · intro n p a here
    exact tables.owned n p a (occurs.mp here)
  · intro n p a i here short small
    have before := occurs.mp here
    have entry : entryAt k a i = entryAt m a i := by
      refine read64_congr ?_
      intro o word
      have byte := same n p a before (by omega) (8 * i + o) (by omega)
      rwa [← Nat.add_assoc] at byte
    rw [entry]
    exact tables.entries n p a i before short small

theorem tables_own (tables : Tables own roots m)
    (also : ∀ n p a, Occurs roots m n p a → p.length < levels → more a) : Tables more roots m :=
  ⟨tables.unique, also, tables.entries⟩

def PageAligned (own : Nat → Prop) : Prop := ∀ a, own a → a % 4096 = 0 ∧ a < 2 ^ 48

theorem forest_tables (forest : Forest own roots m) : Tables own roots m := by
  refine ⟨?_, ?_, ?_⟩
  · intro n k p q a first second _ _
    exact forest.unique n k p q a first second
  · intro n p a here _
    exact forest.owned n p a here
  · intro n p a i here short small
    refine (forest.entries n p a i here (by omega) small).imp_right ?_
    intro entry
    exact ⟨entry.1, entry.2 short⟩

/- Walks and entries of tables after one entry of a table is set: only a path through this
   entry goes elsewhere, and no other entry changes. -/
section Link
variable (aligned : PageAligned own) (tables : Tables own roots m) (here : Occurs roots m n p a)
variable (short : p.length < levels) (small : i < 512)
include aligned tables here short small

theorem link_entry_other {l j c : Nat} {q : List Nat} (there : Occurs roots m l q c)
    (table : q.length < levels) (bound : j < 512) (other : ¬ (c = a ∧ j = i)) :
    entryAt (write64 m (a + 8 * i) e) c j = entryAt m c j := by
  have first := (aligned a (tables.owned n p a here short)).1
  have second := (aligned c (tables.owned l q c there table)).1
  refine read64_write64_apart ?_
  by_cases page : c = a
  · have : j ≠ i := fun same => other ⟨page, same⟩
    omega
  · omega

theorem link_walk_other {l r : Nat} {q : List Nat} (root : roots l = some r) (valid : ValidPath q)
    (off : ¬ (l = n ∧ (p ++ [i]) <+: q)) :
    walk (write64 m (a + 8 * i) e) r q = walk m r q := by
  refine walk_congr valid ?_
  intro p' j rest b split there
  have depth := valid.depth
  have indices := valid.indices
  rw [split] at depth indices
  simp only [List.length_append, List.length_cons] at depth
  have bound : j < 512 := indices j (by simp)
  have occurs : Occurs roots m l p' b :=
    ⟨⟨by omega, fun x hx => indices x (by simp [hx])⟩, r, root, there⟩
  refine link_entry_other aligned tables here short small occurs (by omega) bound ?_
  rintro ⟨rfl, rfl⟩
  -- the same entry, so the same path
  obtain ⟨rfl, rfl⟩ := tables.unique l n p' p b occurs here (by omega) short
  exact off ⟨rfl, by rw [split]; exact ⟨rest, by simp⟩⟩

theorem link_walk_through (present : Present e) (target : outAddr e = b) (fits : e < 2 ^ 64) {r : Nat}
    (root : roots n = some r) : walk (write64 m (a + 8 * i) e) r (p ++ [i]) = some b := by
  obtain ⟨validP, r', root', reached⟩ := id here
  rw [root] at root'
  cases root'
  have entry : entryAt (write64 m (a + 8 * i) e) a i = e := read64_write64 fits
  have before : walk (write64 m (a + 8 * i) e) r p = some a := by
    rw [link_walk_other aligned tables here short small root validP]
    · exact reached
    · rintro ⟨_, longer⟩
      have len := longer.length_le
      rw [List.length_append, List.length_singleton] at len
      omega
  exact walk_snoc.mpr ⟨a, before, by rw [entry]; exact present, by rw [entry]; exact target⟩

theorem tables_link (present : Present e) (target : outAddr e = b) (fits : e < 2 ^ 64)
    (table : p.length + 1 < levels → e < 2 ^ 48 ∧ (∀ j, j < 512 → entryAt m b j = 0) ∧ own b ∧
      ∀ l q, q.length < levels → ¬ Occurs roots m l q b) :
    Tables own roots (write64 m (a + 8 * i) e) ∧
      (∀ l q c, Occurs roots (write64 m (a + 8 * i) e) l q c ↔
        (Occurs roots m l q c ∧ ¬ (l = n ∧ (p ++ [i]) <+: q)) ∨ (l = n ∧ q = p ++ [i] ∧ c = b)) := by
  obtain ⟨validP, r, root, reached⟩ := id here
  have entry : entryAt (write64 m (a + 8 * i) e) a i = e := read64_write64 fits
  have validNew : ValidPath (p ++ [i]) := valid_snoc.mpr ⟨validP, short, small⟩
  have through := link_walk_through aligned tables here short small present target fits root
  -- the new table is not the one written to, so it stays empty
  have empty : p.length + 1 < levels → ∀ j, j < 512 →
      entryAt (write64 m (a + 8 * i) e) b j = 0 := by
    intro more j smallJ
    obtain ⟨_, blank, mine, fresh⟩ := table more
    have first := (aligned a (tables.owned n p a here short)).1
    have second := (aligned b mine).1
    have apart : b ≠ a := by
      rintro rfl
      exact fresh n p short here
    refine Eq.trans (read64_write64_apart ?_) (blank j smallJ)
    omega
  have below : ∀ j rest, ValidPath (p ++ [i] ++ j :: rest) →
      walk (write64 m (a + 8 * i) e) r (p ++ [i] ++ j :: rest) = none := by
    intro j rest valid
    have depth := valid.depth
    simp only [List.length_append, List.length_cons, List.length_nil] at depth
    have smallJ : j < 512 := valid.indices j (by simp)
    rw [walk_append, through, Option.bind_some, walk, empty (by omega) j smallJ, if_neg (by decide)]
  have occurs : ∀ l q c, Occurs roots (write64 m (a + 8 * i) e) l q c ↔
      (Occurs roots m l q c ∧ ¬ (l = n ∧ (p ++ [i]) <+: q)) ∨ (l = n ∧ q = p ++ [i] ∧ c = b) := by
    intro l q c
    by_cases off : l = n ∧ (p ++ [i]) <+: q
    · obtain ⟨rfl, rest, rfl⟩ := off
      simp only [true_and, List.prefix_append, not_true_eq_false, and_false, false_or]
      constructor
      · rintro ⟨valid, r', root', found⟩
        rw [root] at root'
        cases root'
        cases rest with
        | nil =>
          rw [List.append_nil, through] at found
          exact ⟨List.append_nil _, (Option.some.inj found).symm⟩
        | cons j rest =>
          rw [below j rest valid] at found
          cases found
      · rintro ⟨same, rfl⟩
        rw [same]
        exact ⟨validNew, r, root, through⟩
    · have notNew : ¬ (l = n ∧ q = p ++ [i] ∧ c = b) := by
        rintro ⟨rfl, rfl, _⟩
        exact off ⟨rfl, List.prefix_refl _⟩
      simp only [off, notNew, not_false_eq_true, and_true, or_false]
      refine and_congr_right fun valid => exists_congr fun r' => and_congr_right fun root' => ?_
      rw [link_walk_other aligned tables here short small root' valid off]
  have deep : (p ++ [i]).length < levels → p.length + 1 < levels := by
    rw [List.length_append, List.length_singleton]
    exact id
  refine ⟨⟨?_, ?_, ?_⟩, occurs⟩
  · intro l k q q' c first second shortQ shortQ'
    rcases (occurs l q c).mp first with ⟨old, _⟩ | ⟨rfl, rfl, rfl⟩
    · rcases (occurs k q' c).mp second with ⟨old', _⟩ | ⟨_, rfl, rfl⟩
      · exact tables.unique l k q q' c old old' shortQ shortQ'
      · exact absurd old ((table (deep shortQ')).2.2.2 l q shortQ)
    · rcases (occurs k q' c).mp second with ⟨old', _⟩ | ⟨rfl, rfl, _⟩
      · exact absurd old' ((table (deep shortQ)).2.2.2 k q' shortQ')
      · exact ⟨rfl, rfl⟩
  · intro l q c found shortQ
    rcases (occurs l q c).mp found with ⟨old, _⟩ | ⟨_, rfl, rfl⟩
    · exact tables.owned l q c old shortQ
    · exact (table (deep shortQ)).2.2.1
  · intro l q c j found shortQ smallJ
    rcases (occurs l q c).mp found with ⟨old, _⟩ | ⟨rfl, rfl, rfl⟩
    · by_cases same : c = a ∧ j = i
      · obtain ⟨rfl, rfl⟩ := same
        obtain ⟨rfl, rfl⟩ := tables.unique l n q p c old here (by omega) short
        rw [entry]
        exact Or.inr ⟨present, (table shortQ).1⟩
      · rw [link_entry_other aligned tables here short small old (by omega) smallJ same]
        exact tables.entries l q c j old shortQ smallJ
    · rw [List.length_append, List.length_singleton] at shortQ
      exact Or.inl (empty (by omega) j smallJ)

theorem link_leaf_other {l r j : Nat} {q : List Nat} (root : roots l = some r) (valid : ValidPath q)
    (same : walk (write64 m (a + 8 * i) e) r q = walk m r q) (depth : q.length < levels) (bound : j < 512)
    (other : ∀ c, Occurs roots m l q c → ¬ (c = a ∧ j = i)) :
    leaf (write64 m (a + 8 * i) e) r q j = leaf m r q j := by
  rw [leaf, leaf, same]
  cases reached : walk m r q with
  | none => rfl
  | some c =>
    have there : Occurs roots m l q c := ⟨valid, r, root, reached⟩
    rw [Option.bind_some, Option.bind_some,
      link_entry_other aligned tables here short small there depth bound (other c there)]

theorem link_leaf (last : p.length + 1 = levels) (present : Present e) (fits : e < 2 ^ 64) {l r j : Nat}
    {q : List Nat} (root : roots l = some r) (valid : ValidPath q) (depth : q.length + 1 = levels)
    (bound : j < 512) : leaf (write64 m (a + 8 * i) e) r q j =
      if l = n ∧ q = p ∧ j = i then some e else leaf m r q j := by
  have same : walk (write64 m (a + 8 * i) e) r q = walk m r q := by
    apply link_walk_other aligned tables here short small root valid
    rintro ⟨_, longer⟩
    have len := longer.length_le
    rw [List.length_append, List.length_singleton] at len
    omega
  split
  · rename_i this
    obtain ⟨rfl, rfl, rfl⟩ := this
    obtain ⟨_, r', root', reached⟩ := here
    rw [root] at root'
    cases root'
    have entry : entryAt (write64 m (a + 8 * j) e) a j = e := read64_write64 fits
    rw [leaf, same, reached, Option.bind_some, entry, if_pos present]
  · rename_i other
    apply link_leaf_other aligned tables here short small root valid same (by omega) bound
    rintro c there ⟨rfl, rfl⟩
    obtain ⟨rfl, rfl⟩ := tables.unique l n q p c there here (by omega) short
    exact other ⟨rfl, rfl, rfl⟩

theorem link_table_leaf (above : p.length + 1 < levels) (absent : ¬ Present (entryAt m a i))
    (present : Present e) (target : outAddr e = b) (fits : e < 2 ^ 64)
    (blank : ∀ j, j < 512 → entryAt m b j = 0) (mine : own b) (apart : b ≠ a) {l r j : Nat}
    {q : List Nat} (root : roots l = some r) (valid : ValidPath q) (depth : q.length + 1 = levels)
    (bound : j < 512) : leaf (write64 m (a + 8 * i) e) r q j = leaf m r q j := by
  by_cases off : l = n ∧ (p ++ [i]) <+: q
  · obtain ⟨rfl, rest, rfl⟩ := off
    have first := (aligned a (tables.owned l p a here short)).1
    have second := (aligned b mine).1
    have empty : ∀ x, x < 512 → entryAt (write64 m (a + 8 * i) e) b x = 0 := by
      intro x smallX
      refine Eq.trans (read64_write64_apart ?_) (blank x smallX)
      omega
    have before : walk m r (p ++ [i]) = none := by
      obtain ⟨_, r', root', reached⟩ := id here
      rw [root] at root'
      cases root'
      rw [walk_append, reached, Option.bind_some, walk, if_neg absent]
    have through := link_walk_through aligned tables here short small present target fits root
    have old : walk m r (p ++ [i] ++ rest) = none := by
      rw [walk_append, before, Option.bind_none]
    have new : walk (write64 m (a + 8 * i) e) r (p ++ [i] ++ rest) =
        walk (write64 m (a + 8 * i) e) b rest := by
      rw [walk_append, through, Option.bind_some]
    rw [leaf, leaf, old, new, Option.bind_none]
    cases rest with
    | nil => rw [walk, Option.bind_some, empty j bound, if_neg (by decide)]
    | cons x rest =>
      rw [walk, empty x (valid.indices x (by simp)), if_neg (by decide), Option.bind_none]
  · apply link_leaf_other aligned tables here short small root valid
      (link_walk_other aligned tables here short small root valid off) (by omega) bound
    rintro c there ⟨rfl, rfl⟩
    obtain ⟨_, rfl⟩ := tables.unique l n q p c there here (by omega) short
    omega

end Link

/-- Setting an entry of a table to a new page, a table without entries unless it is a
   page of data. -/
theorem forest_link (aligned : PageAligned own) (forest : Forest own roots m)
    (here : Occurs roots m n p a) (short : p.length < levels) (small : i < 512)
    (present : Present e) (target : outAddr e = b) (fits : e < 2 ^ 64)
    (table : p.length + 1 < levels → e < 2 ^ 48 ∧ ∀ j, j < 512 → entryAt m b j = 0)
    (mine : own b) (fresh : ∀ l q, ¬ Occurs roots m l q b) :
    Forest own roots (write64 m (a + 8 * i) e) ∧
      (∀ l q c, Occurs roots (write64 m (a + 8 * i) e) l q c ↔
        (Occurs roots m l q c ∧ ¬ (l = n ∧ (p ++ [i]) <+: q)) ∨ (l = n ∧ q = p ++ [i] ∧ c = b)) := by
  have tables := forest_tables forest
  obtain ⟨linked, occurs⟩ := tables_link aligned tables here short small present target fits (by
    intro above
    obtain ⟨low, blank⟩ := table above
    exact ⟨low, blank, mine, fun l q _ => fresh l q⟩)
  have entry : entryAt (write64 m (a + 8 * i) e) a i = e := read64_write64 fits
  refine ⟨⟨?_, ?_, ?_⟩, occurs⟩
  · intro l k q q' c first second
    rcases (occurs l q c).mp first with ⟨old, _⟩ | ⟨rfl, rfl, rfl⟩
    · rcases (occurs k q' c).mp second with ⟨old', _⟩ | ⟨_, _, rfl⟩
      · exact forest.unique l k q q' c old old'
      · exact absurd old (fresh l q)
    · rcases (occurs k q' c).mp second with ⟨old', _⟩ | ⟨rfl, rfl, _⟩
      · exact absurd old' (fresh k q')
      · exact ⟨rfl, rfl⟩
  · intro l q c found
    rcases (occurs l q c).mp found with ⟨old, _⟩ | ⟨_, _, rfl⟩
    · exact forest.owned l q c old
    · exact mine
  · intro l q c j found shortQ smallJ
    by_cases above : q.length + 1 < levels
    · refine (linked.entries l q c j found above smallJ).imp_right ?_
      intro good
      exact ⟨good.1, fun _ => good.2⟩
    · rcases (occurs l q c).mp found with ⟨old, _⟩ | ⟨rfl, rfl, rfl⟩
      · by_cases same : c = a ∧ j = i
        · obtain ⟨rfl, rfl⟩ := same
          rw [entry]
          exact Or.inr ⟨present, fun more => absurd more above⟩
        · rw [link_entry_other aligned tables here short small old shortQ smallJ same]
          exact forest.entries l q c j old shortQ smallJ
      · rw [List.length_append, List.length_singleton] at shortQ
        have blank := (table (by omega)).2
        have first := (aligned a (forest.owned l p a here)).1
        have second := (aligned c mine).1
        have apart : c ≠ a := by
          rintro rfl
          exact fresh l p here
        refine Or.inl (Eq.trans (read64_write64_apart ?_) (blank j smallJ))
        omega

theorem forest_root {single : Nat → Option Nat} (alone : ∀ l r, single l = some r ↔ l = n ∧ r = b)
    (mine : own b) (empty : ∀ j, j < 512 → entryAt m b j = 0) :
    Forest own single m ∧ ∀ l q c, Occurs single m l q c ↔ l = n ∧ q = [] ∧ c = b := by
  have occurs : ∀ l q c, Occurs single m l q c ↔ l = n ∧ q = [] ∧ c = b := by
    intro l q c
    constructor
    · rintro ⟨valid, r, root, found⟩
      obtain ⟨rfl, rfl⟩ := (alone l r).mp root
      cases q with
      | nil => exact ⟨rfl, rfl, (Option.some.inj found).symm⟩
      | cons j rest =>
        rw [walk, empty j (valid.indices j (by simp)), if_neg (by decide)] at found
        cases found
    · rintro ⟨rfl, rfl, rfl⟩
      exact ⟨valid_nil, c, (alone l c).mpr ⟨rfl, rfl⟩, rfl⟩
  refine ⟨⟨?_, ?_, ?_⟩, occurs⟩
  · intro l k q q' c first second
    obtain ⟨rfl, rfl, _⟩ := (occurs l q c).mp first
    obtain ⟨rfl, rfl, _⟩ := (occurs k q' c).mp second
    exact ⟨rfl, rfl⟩
  · intro l q c found
    obtain ⟨_, _, rfl⟩ := (occurs l q c).mp found
    exact mine
  · intro l q c j found _ small
    obtain ⟨_, _, rfl⟩ := (occurs l q c).mp found
    exact Or.inl (empty j small)

theorem forest_union {other both : Nat → Option Nat} {also : Nat → Prop}
    (left : Forest own roots m) (right : Forest also other m) (apart : ∀ c, own c → ¬ also c)
    (join : ∀ l r, both l = some r ↔ roots l = some r ∨ other l = some r) :
    Forest (fun c => own c ∨ also c) both m := by
  have occurs : ∀ l q c, Occurs both m l q c ↔ Occurs roots m l q c ∨ Occurs other m l q c := by
    intro l q c
    simp only [Occurs, join]
    constructor
    · rintro ⟨valid, r, root | root, found⟩
      · exact Or.inl ⟨valid, r, root, found⟩
      · exact Or.inr ⟨valid, r, root, found⟩
    · rintro (⟨valid, r, root, found⟩ | ⟨valid, r, root, found⟩)
      · exact ⟨valid, r, Or.inl root, found⟩
      · exact ⟨valid, r, Or.inr root, found⟩
  refine ⟨?_, ?_, ?_⟩
  · intro l k q q' c first second
    rcases (occurs l q c).mp first with first | first
    · rcases (occurs k q' c).mp second with second | second
      · exact left.unique l k q q' c first second
      · exact absurd (right.owned k q' c second) (apart c (left.owned l q c first))
    · rcases (occurs k q' c).mp second with second | second
      · exact absurd (right.owned l q c first) (apart c (left.owned k q' c second))
      · exact right.unique l k q q' c first second
  · intro l q c found
    rcases (occurs l q c).mp found with found | found
    · exact Or.inl (left.owned l q c found)
    · exact Or.inr (right.owned l q c found)
  · intro l q c j found short small
    rcases (occurs l q c).mp found with found | found
    · exact left.entries l q c j found short small
    · exact right.entries l q c j found short small

end Forests

end TranslationTables
