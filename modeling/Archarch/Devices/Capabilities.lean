import Archarch.Foundations.Orbits
import Mathlib.Data.FinEnum

/- virtio_pci_parse_caps: the walk over the capability list in the configuration space of a device. The
   device says with each capability where the next one is and which BAR it is in. -/
namespace Archarch.PciDevices

abbrev Byte := BitVec 8

def pciCapPtr : Nat := 0x34
def pciCapIdVendor : Byte := 0x09
def virtioPciCapCommonCfg : Byte := 1
def virtioPciCapNotifyCfg : Byte := 2
def virtioPciCapIsrCfg : Byte := 3
def virtioPciCapDeviceCfg : Byte := 4

/-- The configuration space of the function. The fields of a capability at the end of the first 256
    bytes lie behind them. -/
abbrev Config := Nat → Byte

def configRead32 (config : Config) (offset : Nat) : Nat :=
  (config offset).toNat + 2 ^ 8 * (config (offset + 1)).toNat + 2 ^ 16 * (config (offset + 2)).toNat +
    2 ^ 24 * (config (offset + 3)).toNat

structure VirtioPciDev where
  commonCfg : Nat
  notifyBase : Nat
  notifyOffMul : Nat
  isrCfg : Nat
  deviceCfg : Nat

/-- The function behind its loop test; used are the indices into bar_addr so far. -/
structure ParseState where
  capOff : Byte
  foundCommon : Bool
  foundNotify : Bool
  foundIsr : Bool
  vpci : VirtioPciDev
  used : List Nat

section Parsing
variable (config : Config) (barAddr : Nat → Nat)

def capId (off : Byte) : Byte := config off.toNat
def capNext (off : Byte) : Byte := config (off.toNat + 1)
def capType (off : Byte) : Byte := config (off.toNat + 3)
def capBar (off : Byte) : Nat := (config (off.toNat + 4)).toNat

def capRegion (off : Byte) : Nat := (barAddr (capBar config off) + configRead32 config (off.toNat + 8)) % 2 ^ 64

/-- switch (cfg_type) -/
def takeCap (s : ParseState) : ParseState :=
  let region := capRegion config barAddr s.capOff
  if capType config s.capOff = virtioPciCapCommonCfg then
    { s with vpci := { s.vpci with commonCfg := region }, foundCommon := true }
  else if capType config s.capOff = virtioPciCapNotifyCfg then
    { s with
      vpci := { s.vpci with notifyBase := region, notifyOffMul := configRead32 config (s.capOff.toNat + 16) }
      foundNotify := true }
  else if capType config s.capOff = virtioPciCapIsrCfg then
    { s with vpci := { s.vpci with isrCfg := region }, foundIsr := true }
  else if capType config s.capOff = virtioPciCapDeviceCfg then
    { s with vpci := { s.vpci with deviceCfg := region } }
  else s

/-- The body of the loop. bar_addr has six entries; what an index behind them reads is anything. -/
def parseRound (s : ParseState) : ParseState :=
  if capId config s.capOff = pciCapIdVendor then
    let looked := { s with used := s.used ++ [capBar config s.capOff] }
    let taken := if barAddr (capBar config s.capOff) = 0 then looked else takeCap config barAddr looked
    { taken with capOff := capNext config s.capOff }
  else { s with capOff := capNext config s.capOff }

/-- while (cap_off), one round at a time. -/
def parseStep (s : ParseState) : ParseState := if s.capOff = 0 then s else parseRound config barAddr s

def parseStart (vpci : VirtioPciDev) : ParseState :=
  ⟨config pciCapPtr &&& 0xFC, false, false, false, vpci, []⟩

def parseAfter (vpci : VirtioPciDev) (n : Nat) : ParseState :=
  (parseStep config barAddr)^[n] (parseStart config vpci)

def parseResult (s : ParseState) : Int := if s.foundCommon && s.foundNotify && s.foundIsr then 0 else -1

/-- The function with its loop; none if it is still in there after 256 rounds. -/
def virtioPciParseCaps (vpci : VirtioPciDev) : Option (Int × VirtioPciDev) :=
  let s := parseAfter config barAddr vpci 256
  if s.capOff = 0 then some (parseResult s, s.vpci) else none

def nextCap (off : Byte) : Byte := if off = 0 then 0 else capNext config off

def capAt (n : Nat) : Byte := (nextCap config)^[n] (config pciCapPtr &&& 0xFC)

def OnList (off : Byte) : Prop := off ≠ 0 ∧ ∃ n, capAt config n = off

abbrev IsVendor (off : Byte) : Prop := capId config off = pciCapIdVendor

def HasCap (type : Byte) : Prop :=
  ∃ off, OnList config off ∧ IsVendor config off ∧ capType config off = type ∧ capBar config off < 6 ∧
    barAddr (capBar config off) ≠ 0

/-- The walk ends, looks into the six BARs only, and is content only with all three capabilities. -/
structure WalkSound (vpci : VirtioPciDev) : Prop where
  ends : ∃ n, (parseAfter config barAddr vpci n).capOff = 0
  inside : ∀ n, ∀ bar ∈ (parseAfter config barAddr vpci n).used, bar < 6
  found : ∀ after, virtioPciParseCaps config barAddr vpci = some (0, after) →
    HasCap config barAddr virtioPciCapCommonCfg ∧ HasCap config barAddr virtioPciCapNotifyCfg ∧
      HasCap config barAddr virtioPciCapIsrCfg

end Parsing

section Walk
variable {config : Config} {barAddr : Nat → Nat} {vpci : VirtioPciDev} {s : ParseState} {n : Nat}

theorem next_cap_end (config : Config) : nextCap config 0 = 0 := if_pos rfl

theorem parse_after_succ (n : Nat) : parseAfter config barAddr vpci (n + 1) =
    parseStep config barAddr (parseAfter config barAddr vpci n) :=
  Function.iterate_succ_apply' _ _ _

theorem cap_at_succ (n : Nat) : capAt config (n + 1) = nextCap config (capAt config n) :=
  Function.iterate_succ_apply' _ _ _

theorem take_cap_used (s : ParseState) : (takeCap config barAddr s).used = s.used := by
  unfold takeCap
  dsimp only
  split
  · rfl
  · split
    · rfl
    · split
      · rfl
      · split
        · rfl
        · rfl

structure Raised (s t : ParseState) (seen : Byte → Prop) : Prop where
  common : t.foundCommon = true → s.foundCommon = true ∨ seen virtioPciCapCommonCfg
  notify : t.foundNotify = true → s.foundNotify = true ∨ seen virtioPciCapNotifyCfg
  isr : t.foundIsr = true → s.foundIsr = true ∨ seen virtioPciCapIsrCfg

theorem raised_nothing (s : ParseState) (seen : Byte → Prop) : Raised s s seen := ⟨Or.inl, Or.inl, Or.inl⟩

theorem raised_imp {t : ParseState} {seen more : Byte → Prop} (raised : Raised s t seen)
    (weaker : ∀ type, seen type → more type) : Raised s t more := by
  constructor
  · exact fun found => (raised.common found).imp_right (weaker _)
  · exact fun found => (raised.notify found).imp_right (weaker _)
  · exact fun found => (raised.isr found).imp_right (weaker _)

theorem take_cap_raised (config : Config) (barAddr : Nat → Nat) (s : ParseState) :
    Raised s (takeCap config barAddr s) fun type => capType config s.capOff = type := by
  unfold takeCap
  dsimp only
  split
  · rename_i common
    exact ⟨fun _ => Or.inr common, Or.inl, Or.inl⟩
  · split
    · rename_i notify
      exact ⟨Or.inl, fun _ => Or.inr notify, Or.inl⟩
    · split
      · rename_i isr
        exact ⟨Or.inl, Or.inl, fun _ => Or.inr isr⟩
      · split
        · exact ⟨Or.inl, Or.inl, Or.inl⟩
        · exact ⟨Or.inl, Or.inl, Or.inl⟩

def Taking (config : Config) (barAddr : Nat → Nat) (off type : Byte) : Prop :=
  off ≠ 0 ∧ IsVendor config off ∧ capType config off = type ∧ barAddr (capBar config off) ≠ 0

theorem parse_round_raised (away : s.capOff ≠ 0) :
    Raised s (parseRound config barAddr s) (Taking config barAddr s.capOff) := by
  unfold parseRound
  split
  · rename_i vendor
    dsimp only
    split
    · exact ⟨Or.inl, Or.inl, Or.inl⟩
    · rename_i assigned
      have taken := take_cap_raised config barAddr { s with used := s.used ++ [capBar config s.capOff] }
      have raised := raised_imp taken fun type same =>
        (⟨away, vendor, same, assigned⟩ : Taking config barAddr s.capOff type)
      exact ⟨raised.common, raised.notify, raised.isr⟩
  · exact ⟨Or.inl, Or.inl, Or.inl⟩

theorem parse_step_raised (config : Config) (barAddr : Nat → Nat) (s : ParseState) :
    Raised s (parseStep config barAddr s) (Taking config barAddr s.capOff) := by
  unfold parseStep
  split
  · exact raised_nothing s _
  · rename_i away
    exact parse_round_raised away

theorem parse_step_common (found : (parseStep config barAddr s).foundCommon = true) :
    (s.foundCommon = true ∧ (parseStep config barAddr s).vpci.commonCfg = s.vpci.commonCfg) ∨
      (Taking config barAddr s.capOff virtioPciCapCommonCfg ∧
        (parseStep config barAddr s).vpci.commonCfg = capRegion config barAddr s.capOff) := by
  revert found
  unfold parseStep
  split
  · exact fun found => .inl ⟨found, rfl⟩
  · rename_i away
    unfold parseRound
    split
    · rename_i vendor
      dsimp only
      split
      · exact fun found => .inl ⟨found, rfl⟩
      · rename_i assigned
        unfold takeCap
        dsimp only
        split
        · rename_i common
          exact fun _ => .inr ⟨⟨away, vendor, common, assigned⟩, rfl⟩
        · split
          · exact fun found => .inl ⟨found, rfl⟩
          · split
            · exact fun found => .inl ⟨found, rfl⟩
            · split
              · exact fun found => .inl ⟨found, rfl⟩
              · exact fun found => .inl ⟨found, rfl⟩
    · exact fun found => .inl ⟨found, rfl⟩

theorem parse_step_moves (config : Config) (barAddr : Nat → Nat) (s : ParseState) :
    (parseStep config barAddr s).capOff = nextCap config s.capOff ∧
      (parseStep config barAddr s).used = s.used ++
        if s.capOff ≠ 0 ∧ IsVendor config s.capOff then [capBar config s.capOff] else [] := by
  by_cases done : s.capOff = 0
  · rw [parseStep, if_pos done, nextCap, if_pos done, if_neg (fun both => both.1 done), List.append_nil]
    exact ⟨done, rfl⟩
  · rw [parseStep, if_neg done, nextCap, if_neg done, parseRound]
    by_cases vendor : IsVendor config s.capOff
    · rw [if_pos vendor, if_pos ⟨done, vendor⟩]
      dsimp only
      split
      · exact ⟨rfl, rfl⟩
      · exact ⟨rfl, take_cap_used _⟩
    · rw [if_neg vendor, if_neg fun both => vendor both.2, List.append_nil]
      exact ⟨rfl, rfl⟩

def TakenBefore (config : Config) (barAddr : Nat → Nat) (n : Nat) (type : Byte) : Prop :=
  ∃ m, m < n ∧ Taking config barAddr (capAt config m) type

/-- The walk after n rounds: it is at the n-th capability, has used the BARs of those before it, and
    has a flag only for what it has taken. -/
structure WalkInv (config : Config) (barAddr : Nat → Nat) (n : Nat) (s : ParseState) : Prop where
  offset : s.capOff = capAt config n
  used : ∀ bar, bar ∈ s.used ↔
    ∃ m, m < n ∧ capAt config m ≠ 0 ∧ IsVendor config (capAt config m) ∧ bar = capBar config (capAt config m)
  common : s.foundCommon = true → TakenBefore config barAddr n virtioPciCapCommonCfg
  notify : s.foundNotify = true → TakenBefore config barAddr n virtioPciCapNotifyCfg
  isr : s.foundIsr = true → TakenBefore config barAddr n virtioPciCapIsrCfg

theorem walk_inv_start (vpci : VirtioPciDev) : WalkInv config barAddr 0 (parseStart config vpci) := by
  constructor
  · rfl
  · intro bar
    constructor
    · intro member
      cases member
    · rintro ⟨m, before, _⟩
      omega
  · intro found
    cases found
  · intro found
    cases found
  · intro found
    cases found

theorem taken_before_step {type : Byte} (offset : s.capOff = capAt config n) (before after : Bool)
    (flag : before = true → TakenBefore config barAddr n type)
    (moved : after = true → before = true ∨ Taking config barAddr s.capOff type) :
    after = true → TakenBefore config barAddr (n + 1) type := by
  intro found
  rcases moved found with old | new
  · obtain ⟨m, earlier, taken⟩ := flag old
    exact ⟨m, Nat.lt_succ_of_lt earlier, taken⟩
  · rw [offset] at new
    exact ⟨n, Nat.lt_succ_self n, new⟩

theorem walk_inv_step (inv : WalkInv config barAddr n s) :
    WalkInv config barAddr (n + 1) (parseStep config barAddr s) := by
  obtain ⟨next, used⟩ := parse_step_moves config barAddr s
  have moved := parse_step_raised config barAddr s
  constructor
  · rw [next, inv.offset, cap_at_succ]
  · intro bar
    rw [used, List.mem_append, inv.used, inv.offset]
    constructor
    · rintro (⟨m, before, rest⟩ | here)
      · exact ⟨m, Nat.lt_succ_of_lt before, rest⟩
      · split at here
        · rename_i both
          exact ⟨n, Nat.lt_succ_self n, both.1, both.2, List.mem_singleton.mp here⟩
        · cases here
    · rintro ⟨m, before, away, vendor, same⟩
      rcases Nat.lt_succ_iff_lt_or_eq.mp before with earlier | last
      · exact Or.inl ⟨m, earlier, away, vendor, same⟩
      · subst last
        right
        rw [if_pos ⟨away, vendor⟩, same]
        exact List.mem_singleton_self _
  · exact taken_before_step inv.offset _ _ inv.common moved.common
  · exact taken_before_step inv.offset _ _ inv.notify moved.notify
  · exact taken_before_step inv.offset _ _ inv.isr moved.isr

theorem walk_inv (config : Config) (barAddr : Nat → Nat) (vpci : VirtioPciDev) (n : Nat) :
    WalkInv config barAddr n (parseAfter config barAddr vpci n) := by
  induction n with
  | zero => exact walk_inv_start vpci
  | succ n ih =>
    rw [parse_after_succ]
    exact walk_inv_step ih

theorem parse_after_common (found : (parseAfter config barAddr vpci n).foundCommon = true) :
    ∃ off, OnList config off ∧ Taking config barAddr off virtioPciCapCommonCfg ∧
      (parseAfter config barAddr vpci n).vpci.commonCfg = capRegion config barAddr off := by
  induction n with
  | zero => cases found
  | succ n ih =>
    have offset := (walk_inv config barAddr vpci n).offset
    rw [parse_after_succ] at found ⊢
    rcases parse_step_common found with ⟨before, kept⟩ | ⟨taking, here⟩
    · rw [kept]
      exact ih before
    · exact ⟨_, ⟨taking.1, n, offset.symm⟩, taking, here⟩

theorem parse_caps_common {r : Int} {after : VirtioPciDev}
    (done : virtioPciParseCaps config barAddr vpci = some (r, after)) (content : ¬ r < 0) :
    ∃ off, OnList config off ∧ Taking config barAddr off virtioPciCapCommonCfg ∧
      after.commonCfg = capRegion config barAddr off := by
  unfold virtioPciParseCaps at done
  dsimp only at done
  split at done
  · obtain ⟨result, vpci'⟩ := Prod.mk.inj (Option.some.inj done)
    rw [← result] at content
    rw [← vpci']
    unfold parseResult at content
    split at content
    · rename_i flags
      simp only [Bool.and_eq_true] at flags
      exact parse_after_common flags.1.1
    · exact absurd (by decide : (-1 : Int) < 0) content
  · cases done

/-- The walk ends within 256 rounds if it ever does. -/
theorem parse_ends_iff : (virtioPciParseCaps config barAddr vpci).isSome = true ↔
    ∃ n, (parseAfter config barAddr vpci n).capOff = 0 := by
  have card : Fintype.card Byte = 256 := by
    rw [← FinEnum.card_eq_fintypeCard, FinEnum.card_bitVec]
    rfl
  simp only [(walk_inv config barAddr vpci _).offset]
  constructor
  · intro returned
    simp only [virtioPciParseCaps, (walk_inv config barAddr vpci _).offset] at returned
    split at returned
    · rename_i there
      exact ⟨256, there⟩
    · cases returned
  · intro stops
    have there := Orbits.stops_of_no_repeat (next_cap_end config)
      (Orbits.no_repeat_of_stops (next_cap_end config) stops)
    rw [card] at there
    have last : capAt config 256 = 0 := there
    simp only [virtioPciParseCaps, (walk_inv config barAddr vpci _).offset]
    rw [if_pos last]
    rfl

end Walk

/-- The device has its capabilities in a list that comes back to no offset, each vendor capability in
    one of the six BARs. -/
structure ListSound (config : Config) : Prop where
  once : Orbits.NoRepeat (nextCap config) (config pciCapPtr &&& 0xFC) 0
  bars : ∀ off, OnList config off → IsVendor config off → capBar config off < 6

end Archarch.PciDevices
