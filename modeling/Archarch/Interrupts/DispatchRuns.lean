import Archarch.Interrupts.Dispatch

/- No interrupt of a registered device is lost, whatever the order in which the devices, the handler
   and a registration take their steps. -/
namespace Archarch.Interrupts
open LabelledRuns

def Marking (devs : Nat → IrqDevEntry) (handler : Handler) (d : Nat) : Prop :=
  ∃ iar i isr, handler = .mark iar i isr ∧ isr.getLsbD 0 = true ∧ (devs i).vpci = d

structure OnLine (devs : Nat → IrqDevEntry) (count iar i : Nat) : Prop where
  inside : i < count
  active : (devs i).active = true
  line : (devs i).irqId = iar

def ackedBy : Handler → List Nat
  | .idle => []
  | .acked iar => if 1020 ≤ iar then [] else [iar]
  | .rearm iar => [iar]
  | .timerEoi iar => [iar]
  | .tick => []
  | .walk iar _ => [iar]
  | .read iar _ => [iar]
  | .mark iar _ _ => [iar]
  | .eoi iar => [iar]

def walked (count : Nat) : Handler → Option (Nat × Nat)
  | .walk iar i => some (iar, i)
  | .read iar i => some (iar, i)
  | .mark iar i _ => some (iar, i)
  | .eoi iar => some (iar, count)
  | _ => none

def Complete (s : Irq) (i : Nat) : Prop := i < s.table.count ∧ ∀ r ∈ s.main, r.slot ≠ i

/-- What holds of the dispatch at any time. -/
structure DispatchSound (pin : Nat → Nat) (s : Irq) : Prop where
  kept : ∀ d, s.owed d = true → (s.isr d).getLsbD 0 = true ∨ Marking s.table.devs s.handler d
  waiting : s.handler = .idle → ∀ i, Complete s i → s.owed (s.table.devs i).vpci = true →
    signaled pin s (s.table.devs i).irqId = true
  served : ∀ iar, s.handler = .eoi iar → ∀ i, OnLine s.table.devs s.table.count iar i →
    s.owed (s.table.devs i).vpci = true → s.fresh (s.table.devs i).vpci = true
  ended : s.active = ackedBy s.handler
  reads : ∀ iar i, s.handler = .read iar i → (s.table.devs i).vpci < pciSlots ∧ line pin (s.table.devs i).vpci = iar
  flags : ∀ f, s.table.pending f = true → ∃ i, i < s.table.count ∧ (s.table.devs i).flag = f ∧
    s.noted (s.table.devs i).vpci = true

def Filled (r : Registering) (e : IrqDevEntry) : Prop :=
  match r.place with
  | .vpci => e.active = false
  | .flag => e.active = false ∧ e.vpci = r.vpci
  | .irqId => e.active = false ∧ e.vpci = r.vpci
  | .active => e.active = false ∧ e.vpci = r.vpci ∧ e.irqId = r.irqId
  | .priority => e.active = true ∧ e.vpci = r.vpci ∧ e.irqId = r.irqId
  | .enable => e.active = true ∧ e.vpci = r.vpci ∧ e.irqId = r.irqId

def Wired (pin : Nat → Nat) (vpci irqId : Nat) : Prop := vpci < pciSlots ∧ irqId = line pin vpci ∧ irqId ≠ 0

structure TableInv (pin : Nat → Nat) (devs : Nat → IrqDevEntry) (count : Nat) (main : Option Registering) : Prop where
  few : count ≤ maxIrqDevs
  wired : ∀ i, i < count → (devs i).active = true → Wired pin (devs i).vpci (devs i).irqId
  unused : ∀ i, count ≤ i → i < maxIrqDevs → (devs i).active = false
  last : ∀ r ∈ main, r.slot + 1 = count ∧ Wired pin r.vpci r.irqId ∧ Filled r (devs r.slot)
  done : ∀ i, i < count → (∀ r ∈ main, r.slot ≠ i) → (devs i).active = true

def GicInv (devs : Nat → IrqDevEntry) (count : Nat) (main : Option Registering) (gic : Gic) : Prop :=
  ∃ r, Programmed 64 r gic ∧ (∀ id, r.priority id = 0xA0) ∧
    ∀ i, i < count → (∀ r ∈ main, r.slot ≠ i) → r.enabled (devs i).irqId = true

structure HandlerInv (devs : Nat → IrqDevEntry) (count : Nat) (handler : Handler) (active : List Nat) : Prop where
  ended : active = ackedBy handler
  reads : ∀ iar i, handler = .read iar i → OnLine devs count iar i
  marks : ∀ iar i isr, handler = .mark iar i isr → OnLine devs count iar i

structure NoticeInv (devs : Nat → IrqDevEntry) (count : Nat) (handler : Handler) (pending : Flag → Bool)
    (isr : Nat → BitVec 8) (owed fresh noted : Nat → Bool) : Prop where
  kept : ∀ d, owed d = true → (isr d).getLsbD 0 = true ∨ Marking devs handler d
  marked : ∀ iar i v, handler = .mark iar i v → (v.getLsbD 0 = true → noted (devs i).vpci = true) ∧
    (owed (devs i).vpci = true → v.getLsbD 0 = true ∨ fresh (devs i).vpci = true)
  served : ∀ iar n, walked count handler = some (iar, n) → ∀ i, i < n → OnLine devs count iar i →
    owed (devs i).vpci = true → fresh (devs i).vpci = true
  flags : ∀ f, pending f = true → ∃ i, i < count ∧ (devs i).active = true ∧ (devs i).flag = f ∧
    noted (devs i).vpci = true
  noted : ∀ d, (isr d).getLsbD 0 = true → noted d = true

structure DispatchInv (pin : Nat → Nat) (s : Irq) : Prop where
  table : TableInv pin s.table.devs s.table.count s.main
  gic : GicInv s.table.devs s.table.count s.main s.gic
  handler : HandlerInv s.table.devs s.table.count s.handler s.active
  notice : NoticeInv s.table.devs s.table.count s.handler s.table.pending s.isr s.owed s.fresh s.noted

section Bits
variable {v : BitVec 8}

theorem notification_bit (v : BitVec 8) : v &&& 1 ≠ 0 ↔ v.getLsbD 0 = true := by
  revert v
  decide

theorem notified_bit (v : BitVec 8) : (v ||| 1).getLsbD 0 = true := by
  revert v
  decide

theorem config_bit (v : BitVec 8) : (v ||| 2).getLsbD 0 = v.getLsbD 0 := by
  revert v
  decide

theorem status_nonzero (bit : v.getLsbD 0 = true) : v ≠ 0 := by
  rintro rfl
  cases bit

end Bits

section Handler
variable {devs : Nat → IrqDevEntry} {count : Nat} {h : Handler} {pending : Flag → Bool} {isr : Nat → BitVec 8}
  {owed fresh noted : Nat → Bool} {d : Nat}

theorem kept_plain (kept : ∀ d, owed d = true → (isr d).getLsbD 0 = true ∨ Marking devs h d)
    (plain : ∀ iar i v, h ≠ .mark iar i v) (d : Nat) (due : owed d = true) : (isr d).getLsbD 0 = true := by
  rcases kept d due with bit | ⟨iar, i, v, here, _⟩
  · exact bit
  · exact absurd here (plain iar i v)

theorem notice_notify (inv : NoticeInv devs count h pending isr owed fresh noted) (d : Nat) :
    NoticeInv devs count h pending (Function.update isr d (isr d ||| 1)) (Function.update owed d true)
      (Function.update fresh d true) (Function.update noted d true) := by
  have more : ∀ {f : Nat → Bool} {e : Nat}, f e = true → Function.update f d true e = true := by
    intro f e set
    by_cases here : e = d
    · rw [here, Function.update_self]
    · rw [Function.update_of_ne here, set]
  constructor
  · intro e due
    by_cases here : e = d
    · rw [here, Function.update_self]
      exact Or.inl (notified_bit _)
    · rw [Function.update_of_ne here] at due ⊢
      exact inv.kept e due
  · intro iar i v place
    obtain ⟨known, due⟩ := inv.marked iar i v place
    refine ⟨fun bit => more (known bit), ?_⟩
    intro owes
    by_cases here : (devs i).vpci = d
    · rw [here, Function.update_self]
      exact Or.inr rfl
    · rw [Function.update_of_ne here] at owes
      rcases due owes with bit | late
      · exact Or.inl bit
      · exact Or.inr (more late)
  · intro iar n place i before on owes
    by_cases here : (devs i).vpci = d
    · rw [here, Function.update_self]
    · rw [Function.update_of_ne here] at owes
      exact more (inv.served iar n place i before on owes)
  · intro f set
    obtain ⟨i, inside, active, flag, known⟩ := inv.flags f set
    exact ⟨i, inside, active, flag, more known⟩
  · intro e bit
    by_cases here : e = d
    · rw [here, Function.update_self]
    · rw [Function.update_of_ne here] at bit
      exact more (inv.noted e bit)

theorem notice_config (inv : NoticeInv devs count h pending isr owed fresh noted) (d : Nat) :
    NoticeInv devs count h pending (Function.update isr d (isr d ||| 2)) owed fresh noted := by
  have same : ∀ e, (Function.update isr d (isr d ||| 2) e).getLsbD 0 = (isr e).getLsbD 0 := by
    intro e
    by_cases here : e = d
    · rw [here, Function.update_self, config_bit]
    · rw [Function.update_of_ne here]
  refine ⟨?_, inv.marked, inv.served, inv.flags, ?_⟩
  · intro e due
    rw [same]
    exact inv.kept e due
  · intro e bit
    rw [same] at bit
    exact inv.noted e bit

theorem notice_moves {g : Handler} (inv : NoticeInv devs count h pending isr owed fresh noted)
    (before : ∀ iar i v, h ≠ .mark iar i v) (after : ∀ iar i v, g ≠ .mark iar i v)
    (served : ∀ iar n, walked count g = some (iar, n) → ∀ i, i < n → OnLine devs count iar i →
      owed (devs i).vpci = true → fresh (devs i).vpci = true) :
    NoticeInv devs count g pending isr owed fresh noted :=
  ⟨fun d due => Or.inl (kept_plain inv.kept before d due), fun iar i v here => absurd here (after iar i v), served,
    inv.flags, inv.noted⟩

theorem walk_over {iar i : Nat} (inv : NoticeInv devs count (.walk iar i) pending isr owed fresh noted)
    (off : ¬ OnLine devs count iar i) : NoticeInv devs count (.walk iar (i + 1)) pending isr owed fresh noted := by
  refine notice_moves inv (fun _ _ _ => nofun) (fun _ _ _ => nofun) ?_
  intro _ _ same j before on
  cases same
  by_cases here : j = i
  · exact absurd (here ▸ on) off
  · exact inv.served iar i rfl j (by omega) on

theorem walk_ends {iar i : Nat} (inv : NoticeInv devs count (.walk iar i) pending isr owed fresh noted) (last : ¬ i < count) :
    NoticeInv devs count (.eoi iar) pending isr owed fresh noted := by
  refine notice_moves inv (fun _ _ _ => nofun) (fun _ _ _ => nofun) ?_
  intro _ _ same j before on
  cases same
  exact inv.served iar i rfl j (by omega) on

theorem read_status {iar i : Nat} (inv : NoticeInv devs count (.read iar i) pending isr owed fresh noted) :
    NoticeInv devs count (.mark iar i (isr (devs i).vpci)) pending (Function.update isr (devs i).vpci 0) owed fresh noted := by
  have plain : ∀ iar' i' v, Handler.read iar i ≠ .mark iar' i' v := fun _ _ _ => nofun
  constructor
  · intro d due
    have bit := kept_plain inv.kept plain d due
    by_cases here : d = (devs i).vpci
    · exact Or.inr ⟨iar, i, _, rfl, here ▸ bit, here.symm⟩
    · rw [Function.update_of_ne here]
      exact Or.inl bit
  · intro iar' i' v place
    cases place
    exact ⟨inv.noted _, fun due => Or.inl (kept_plain inv.kept plain _ due)⟩
  · intro iar' n place
    cases place
    exact inv.served iar i rfl
  · exact inv.flags
  · intro d bit
    by_cases here : d = (devs i).vpci
    · rw [here, Function.update_self] at bit
      cases bit
    · rw [Function.update_of_ne here] at bit
      exact inv.noted d bit

theorem mark_flag {iar i : Nat} {v : BitVec 8} (inv : NoticeInv devs count (.mark iar i v) pending isr owed fresh noted)
    (on : OnLine devs count iar i) (bit : v.getLsbD 0 = true) :
    NoticeInv devs count (.walk iar (i + 1)) (Function.update pending (devs i).flag true) isr
      (Function.update owed (devs i).vpci false) fresh noted := by
  have other : ∀ {d : Nat}, Function.update owed (devs i).vpci false d = true → d ≠ (devs i).vpci ∧ owed d = true := by
    intro d due
    by_cases here : d = (devs i).vpci
    · rw [here, Function.update_self] at due
      cases due
    · rw [Function.update_of_ne here] at due
      exact ⟨here, due⟩
  constructor
  · intro d due
    obtain ⟨apart, before⟩ := other due
    rcases inv.kept d before with status | ⟨_, _, _, place, _, same⟩
    · exact Or.inl status
    · cases place
      exact absurd same.symm apart
  · intro _ _ _ place
    cases place
  · intro _ _ place j before here due
    cases place
    obtain ⟨apart, owes⟩ := other due
    have early : j ≠ i := by
      rintro rfl
      exact apart rfl
    exact inv.served iar i rfl j (by omega) here owes
  · intro f set
    by_cases mine : f = (devs i).flag
    · exact ⟨i, on.inside, on.active, mine.symm, (inv.marked iar i v rfl).1 bit⟩
    · rw [Function.update_of_ne mine] at set
      exact inv.flags f set
  · exact inv.noted

theorem mark_nothing {iar i : Nat} {v : BitVec 8} (inv : NoticeInv devs count (.mark iar i v) pending isr owed fresh noted)
    (none : ¬ v.getLsbD 0 = true) : NoticeInv devs count (.walk iar (i + 1)) pending isr owed fresh noted := by
  constructor
  · intro d due
    rcases inv.kept d due with status | ⟨_, _, _, place, bit, _⟩
    · exact Or.inl status
    · cases place
      exact absurd bit none
  · intro _ _ _ place
    cases place
  · intro _ _ place j before on due
    cases place
    by_cases here : j = i
    · subst here
      exact ((inv.marked iar j v rfl).2 due).resolve_left none
    · exact inv.served iar i rfl j (by omega) on due
  · exact inv.flags
  · exact inv.noted

end Handler

section Places
variable {pin : Nat → Nat} {s t : Irq}

theorem handler_plain {devs : Nat → IrqDevEntry} {count : Nat} {h : Handler} {active : List Nat}
    (ended : active = ackedBy h) (reads : ∀ iar i, h ≠ .read iar i) (marks : ∀ iar i v, h ≠ .mark iar i v) :
    HandlerInv devs count h active :=
  ⟨ended, fun iar i here => absurd here (reads iar i), fun iar i v here => absurd here (marks iar i v)⟩

/-- The interrupt that was acknowledged is none, the timer's, or one to look up. -/
theorem acked_step_inv {iar : Nat} (inv : DispatchInv pin s) (place : s.handler = .acked iar)
    (step : handlerStep s = some t) : DispatchInv pin t := by
  obtain ⟨table, gic, handler, notice⟩ := inv
  rw [handlerStep] at step
  rw [place] at step handler notice
  have moved : ∀ g : Handler, (∀ iar i v, g ≠ .mark iar i v) → walked s.table.count g = none →
      NoticeInv s.table.devs s.table.count g s.table.pending s.isr s.owed s.fresh s.noted := by
    intro g plain none
    refine notice_moves notice (fun _ _ _ => nofun) plain ?_
    intro _ _ same
    rw [none] at same
    cases same
  have ended : s.active = if 1020 ≤ iar then [] else [iar] := handler.ended
  dsimp only at step
  split at step
  · rename_i spurious
    cases step
    rw [if_pos spurious] at ended
    exact ⟨table, gic, handler_plain ended (fun _ _ => nofun) (fun _ _ _ => nofun),
      moved .idle (fun _ _ _ => nofun) rfl⟩
  rename_i real
  rw [if_neg real] at ended
  split at step
  · cases step
    exact ⟨table, gic, handler_plain ended (fun _ _ => nofun) (fun _ _ _ => nofun),
      moved (.rearm iar) (fun _ _ _ => nofun) rfl⟩
  split at step
  · cases step
    have erased : s.active.erase iar = ackedBy .idle := by
      rw [ended, ackedBy, List.erase_cons_head]
    exact ⟨table, gic, handler_plain erased (fun _ _ => nofun) (fun _ _ _ => nofun),
      moved .idle (fun _ _ _ => nofun) rfl⟩
  · cases step
    refine ⟨table, gic, handler_plain ended (fun _ _ => nofun) (fun _ _ _ => nofun), ?_⟩
    refine notice_moves notice (fun _ _ _ => nofun) (fun _ _ _ => nofun) ?_
    intro _ _ same i before
    cases same
    cases before

/-- The walk passes over an entry, stops at one for its interrupt, or has come to the end. -/
theorem walk_step_inv {iar i : Nat} (inv : DispatchInv pin s) (place : s.handler = .walk iar i)
    (step : handlerStep s = some t) : DispatchInv pin t := by
  obtain ⟨table, gic, handler, notice⟩ := inv
  rw [handlerStep] at step
  rw [place] at step handler notice
  dsimp only at step
  split at step
  · rename_i inside
    split at step
    · rename_i off
      cases step
      refine ⟨table, gic, handler_plain handler.ended (fun _ _ => nofun) (fun _ _ _ => nofun), ?_⟩
      refine walk_over notice fun on => ?_
      rw [on.active, on.line] at off
      simp at off
    · rename_i on
      cases step
      have here : OnLine s.table.devs s.table.count iar i := by
        have both : (s.table.devs i).active = true ∧ (s.table.devs i).irqId = iar := by simpa using on
        exact ⟨inside, both.1, both.2⟩
      refine ⟨table, gic, ⟨handler.ended, ?_, fun _ _ _ => nofun⟩, ?_⟩
      · intro _ _ same
        cases same
        exact here
      · exact notice_moves notice (fun _ _ _ => nofun) (fun _ _ _ => nofun) notice.served
  · rename_i last
    cases step
    exact ⟨table, gic, handler_plain handler.ended (fun _ _ => nofun) (fun _ _ _ => nofun), walk_ends notice last⟩

theorem mark_step_inv {iar i : Nat} {v : BitVec 8} (inv : DispatchInv pin s) (place : s.handler = .mark iar i v)
    (step : handlerStep s = some t) : DispatchInv pin t := by
  obtain ⟨table, gic, handler, notice⟩ := inv
  rw [handlerStep] at step
  rw [place] at step handler notice
  dsimp only at step
  have on := handler.marks iar i v rfl
  split at step
  · rename_i bit
    cases step
    exact ⟨table, gic, handler_plain handler.ended (fun _ _ => nofun) (fun _ _ _ => nofun),
      mark_flag notice on ((notification_bit v).mp bit)⟩
  · rename_i none
    cases step
    exact ⟨table, gic, handler_plain handler.ended (fun _ _ => nofun) (fun _ _ _ => nofun),
      mark_nothing notice fun bit => none ((notification_bit v).mpr bit)⟩

theorem handler_step_inv (inv : DispatchInv pin s) (step : handlerStep s = some t) : DispatchInv pin t := by
  have ⟨table, gic, handler, notice⟩ := inv
  cases place : s.handler with
  | idle =>
    rw [handlerStep, place] at step
    cases step
  | acked iar => exact acked_step_inv inv place step
  | rearm iar =>
    rw [handlerStep] at step
    rw [place] at step handler notice
    cases step
    refine ⟨table, gic, handler_plain handler.ended (fun _ _ => nofun) (fun _ _ _ => nofun), ?_⟩
    exact notice_moves notice (fun _ _ _ => nofun) (fun _ _ _ => nofun) (fun _ _ => nofun)
  | timerEoi iar =>
    rw [handlerStep] at step
    rw [place] at step handler notice
    cases step
    have erased : s.active.erase iar = ackedBy .tick := by
      rw [handler.ended, ackedBy, ackedBy, List.erase_cons_head]
    refine ⟨table, gic, handler_plain erased (fun _ _ => nofun) (fun _ _ _ => nofun), ?_⟩
    exact notice_moves notice (fun _ _ _ => nofun) (fun _ _ _ => nofun) (fun _ _ => nofun)
  | tick =>
    rw [handlerStep] at step
    rw [place] at step handler notice
    cases step
    refine ⟨table, gic, handler_plain handler.ended (fun _ _ => nofun) (fun _ _ _ => nofun), ?_⟩
    exact notice_moves notice (fun _ _ _ => nofun) (fun _ _ _ => nofun) (fun _ _ => nofun)
  | walk iar i => exact walk_step_inv inv place step
  | read iar i =>
    rw [handlerStep] at step
    rw [place] at step handler notice
    cases step
    refine ⟨table, gic, ⟨handler.ended, fun _ _ => nofun, ?_⟩, read_status notice⟩
    intro _ _ _ same
    cases same
    exact handler.reads iar i rfl
  | mark iar i v => exact mark_step_inv inv place step
  | eoi iar =>
    rw [handlerStep] at step
    rw [place] at step handler notice
    cases step
    have erased : s.active.erase iar = ackedBy .idle := by
      rw [handler.ended, ackedBy, ackedBy, List.erase_cons_head]
    refine ⟨table, gic, handler_plain erased (fun _ _ => nofun) (fun _ _ _ => nofun), ?_⟩
    exact notice_moves notice (fun _ _ _ => nofun) (fun _ _ _ => nofun) (fun _ _ => nofun)

end Places

section Registration
variable {pin : Nat → Nat} {s t : Irq} {devs : Nat → IrqDevEntry} {count : Nat} {main : Option Registering} {r : Registering}
  {pending : Flag → Bool} {isr : Nat → BitVec 8} {owed fresh noted : Nat → Bool} {gic : Gic}

theorem table_set_entry (inv : TableInv pin devs count (some r)) {e : IrqDevEntry} {place : RegisterPlace}
    (filled : Filled { r with place := place } e)
    (wired : e.active = true → e.vpci = r.vpci ∧ e.irqId = r.irqId) :
    TableInv pin (Function.update devs r.slot e) count (some { r with place := place }) := by
  obtain ⟨slot, mine, _⟩ := inv.last r rfl
  constructor
  · exact inv.few
  · intro i inside active
    by_cases here : i = r.slot
    · subst here
      rw [Function.update_self] at active ⊢
      obtain ⟨vpci, irqId⟩ := wired active
      rw [vpci, irqId]
      exact mine
    · rw [Function.update_of_ne here] at active ⊢
      exact inv.wired i inside active
  · intro i behind small
    rw [Function.update_of_ne (by omega)]
    exact inv.unused i behind small
  · intro _ same
    cases same
    refine ⟨slot, mine, ?_⟩
    rw [Function.update_self]
    exact filled
  · intro i inside apart
    have here : i ≠ r.slot := fun same => apart { r with place := place } rfl same.symm
    rw [Function.update_of_ne here]
    exact inv.done i inside fun _ same => by
      cases same
      exact fun eq => here eq.symm

theorem table_next_place (inv : TableInv pin devs count (some r)) {place : RegisterPlace}
    (filled : Filled { r with place := place } (devs r.slot)) :
    TableInv pin devs count (some { r with place := place }) := by
  obtain ⟨slot, mine, _⟩ := inv.last r rfl
  refine ⟨inv.few, inv.wired, inv.unused, ?_, ?_⟩
  · intro _ same
    cases same
    exact ⟨slot, mine, filled⟩
  · intro i inside apart
    exact inv.done i inside fun _ same => by
      cases same
      exact apart { r with place := place } rfl

theorem table_registered (inv : TableInv pin devs count (some r)) (active : (devs r.slot).active = true) :
    TableInv pin devs count none := by
  refine ⟨inv.few, inv.wired, inv.unused, nofun, ?_⟩
  intro i inside _
  by_cases here : i = r.slot
  · rw [here]
    exact active
  · exact inv.done i inside fun _ same => by
      cases same
      exact fun eq => here eq.symm

theorem gic_set_entry (inv : GicInv devs count (some r) gic) (e : IrqDevEntry) (place : RegisterPlace) :
    GicInv (Function.update devs r.slot e) count (some { r with place := place }) gic := by
  obtain ⟨asked, held, priorities, enabled⟩ := inv
  refine ⟨asked, held, priorities, ?_⟩
  intro i inside apart
  have here : i ≠ r.slot := fun same => apart { r with place := place } rfl same.symm
  rw [Function.update_of_ne here]
  exact enabled i inside fun _ same => by
    cases same
    exact fun eq => here eq.symm

theorem gic_priority (inv : GicInv devs count (some r) gic) (place : RegisterPlace) :
    GicInv devs count (some { r with place := place }) (gicSetPriority gic r.irqId 0xA0) := by
  obtain ⟨asked, held, priorities, enabled⟩ := inv
  refine ⟨asked.prioritize r.irqId 0xA0, programmed_prioritize held _ _, ?_, ?_⟩
  · intro id
    change Function.update asked.priority r.irqId 0xA0 id = 0xA0
    by_cases here : id = r.irqId
    · rw [here, Function.update_self]
    · rw [Function.update_of_ne here]
      exact priorities id
  · intro i inside apart
    exact enabled i inside fun _ same => by
      cases same
      exact apart { r with place := place } rfl

theorem gic_enabled (inv : GicInv devs count (some r) gic) (wired : (devs r.slot).irqId = r.irqId) :
    GicInv devs count none (gicEnableIrq gic r.irqId) := by
  obtain ⟨asked, held, priorities, enabled⟩ := inv
  refine ⟨asked.enable r.irqId, programmed_enable held _, priorities, ?_⟩
  intro i inside _
  change Function.update asked.enabled r.irqId true (devs i).irqId = true
  by_cases line : (devs i).irqId = r.irqId
  · rw [line, Function.update_self]
  · rw [Function.update_of_ne line]
    refine enabled i inside fun _ same => ?_
    cases same
    rintro rfl
    exact line wired

theorem notice_set_entry (inv : NoticeInv devs count .idle pending isr owed fresh noted) {i : Nat}
    (inactive : (devs i).active = false) (e : IrqDevEntry) :
    NoticeInv (Function.update devs i e) count .idle pending isr owed fresh noted := by
  refine ⟨?_, fun _ _ _ => nofun, fun _ _ => nofun, ?_, inv.noted⟩
  · intro d due
    exact Or.inl (kept_plain inv.kept (fun _ _ _ => nofun) d due)
  · intro f set
    obtain ⟨j, inside, active, flag, known⟩ := inv.flags f set
    have apart : j ≠ i := by
      rintro rfl
      rw [inactive] at active
      cases active
    refine ⟨j, inside, ?_⟩
    rw [Function.update_of_ne apart]
    exact ⟨active, flag, known⟩

theorem register_step_inv (inv : DispatchInv pin s) (idle : s.handler = .idle) (here : s.main = some r) :
    DispatchInv pin (registerStep s r) := by
  obtain ⟨table, gic, handler, notice⟩ := inv
  rw [idle] at handler notice
  rw [here] at table gic
  have filled := (table.last r rfl).2.2
  have same : ∀ {devs : Nat → IrqDevEntry}, HandlerInv devs s.table.count s.handler s.active := by
    rw [idle]
    exact handler_plain handler.ended (fun _ _ => nofun) (fun _ _ _ => nofun)
  have stays : (s.table.devs r.slot).active = false → ∀ e : IrqDevEntry,
      NoticeInv (Function.update s.table.devs r.slot e) s.table.count s.handler s.table.pending s.isr s.owed s.fresh
        s.noted := by
    intro inactive e
    rw [idle]
    exact notice_set_entry notice inactive e
  rw [registerStep]
  cases place : r.place with
  | vpci =>
    rw [Filled, place] at filled
    refine ⟨table_set_entry table ⟨filled, rfl⟩ fun active => ?_, gic_set_entry gic _ _, same, stays filled _⟩
    rw [show _ = false from filled] at active
    cases active
  | flag =>
    rw [Filled, place] at filled
    refine ⟨table_set_entry table ⟨filled.1, filled.2⟩ fun active => ?_, gic_set_entry gic _ _, same, stays filled.1 _⟩
    rw [show _ = false from filled.1] at active
    cases active
  | irqId =>
    rw [Filled, place] at filled
    refine ⟨table_set_entry table ⟨filled.1, filled.2, rfl⟩ fun active => ?_, gic_set_entry gic _ _, same,
      stays filled.1 _⟩
    rw [show _ = false from filled.1] at active
    cases active
  | active =>
    rw [Filled, place] at filled
    exact ⟨table_set_entry table ⟨rfl, filled.2.1, filled.2.2⟩ fun _ => filled.2, gic_set_entry gic _ _, same,
      stays filled.1 _⟩
  | priority =>
    rw [Filled, place] at filled
    rw [← idle] at notice
    exact ⟨table_next_place table filled, gic_priority gic _, same, notice⟩
  | enable =>
    rw [Filled, place] at filled
    rw [← idle] at notice
    exact ⟨table_registered table filled.1, gic_enabled gic filled.2.2, same, notice⟩

end Registration

section Runs
variable {pin : Nat → Nat} {s t : Irq}

theorem irq_start_inv (start : IrqStart s) : DispatchInv pin s := by
  obtain ⟨⟨before, table⟩, ⟨g, typer, lines, gic⟩, main, handler, active, quiet, left⟩ := start
  have none : s.table.count = 0 := by rw [table]; rfl
  constructor
  · rw [none, main]
    refine ⟨Nat.zero_le _, fun _ => nofun, ?_, nofun, fun _ => nofun⟩
    intro i _ small
    rw [table, irqInit]
    dsimp only
    rw [if_pos small]
  · rw [none, gic]
    refine ⟨requestedAtInit g, ?_, fun _ => rfl, fun _ => nofun⟩
    have all := programmed_init g typer
    exact ⟨all.distributor, all.interface, all.mask, fun id low => all.groups id (by omega),
      fun id low => all.enables id (by omega), fun id low => all.priorities id (by omega)⟩
  · rw [handler]
    exact handler_plain active (fun _ _ => nofun) (fun _ _ _ => nofun)
  · rw [handler]
    refine ⟨?_, fun _ _ _ => nofun, fun _ _ => nofun, ?_, left⟩
    · intro d due
      rw [quiet d] at due
      cases due
    · intro f set
      rw [table] at set
      cases set

theorem take_inv (inv : DispatchInv pin s) (idle : s.handler = .idle) (iar : Nat) :
    DispatchInv pin
      { s with
        handler := .acked iar
        active := if 1020 ≤ iar then s.active else iar :: s.active
        fresh := fun _ => false } := by
  obtain ⟨table, gic, handler, notice⟩ := inv
  rw [idle] at handler notice
  refine ⟨table, gic, handler_plain ?_ (fun _ _ => nofun) (fun _ _ _ => nofun), ?_⟩
  · rw [handler.ended]
    rfl
  · refine ⟨?_, fun _ _ _ => nofun, fun _ _ => nofun, notice.flags, notice.noted⟩
    intro d due
    exact Or.inl (kept_plain notice.kept (fun _ _ _ => nofun) d due)

/-- The entry counts from now on, but is not active until its last store. -/
theorem table_new_entry {devs : Nat → IrqDevEntry} {count d : Nat} (table : TableInv pin devs count none)
    (room : count < maxIrqDevs) (slot : d < pciSlots) (some_ : line pin d ≠ 0) (flag : Flag) :
    TableInv pin devs (count + 1) (some ⟨count, d, flag, line pin d, .vpci⟩) := by
  have fresh := table.unused count (Nat.le_refl _) room
  have older : ∀ {i : Nat}, i < count + 1 → i ≠ count → i < count := by
    intro i
    omega
  refine ⟨room, ?_, ?_, ?_, ?_⟩
  · intro i inside active
    by_cases here : i = count
    · rw [here, fresh] at active
      cases active
    · exact table.wired i (older inside here) active
  · intro i behind small
    exact table.unused i (Nat.le_of_succ_le behind) small
  · intro _ same
    cases same
    exact ⟨rfl, ⟨slot, rfl, some_⟩, fresh⟩
  · intro i inside apart
    exact table.done i (older inside (Ne.symm (apart _ rfl))) nofun

theorem register_start_inv (inv : DispatchInv pin s) (idle : s.handler = .idle) (alone : s.main = none)
    (room : s.table.count < maxIrqDevs) {d : Nat} (slot : d < pciSlots) (some_ : line pin d ≠ 0) (flag : Flag) :
    DispatchInv pin
      { s with
        table := { s.table with count := s.table.count + 1 }
        main := some ⟨s.table.count, d, flag, line pin d, .vpci⟩ } := by
  obtain ⟨table, ⟨asked, held, priorities, enabled⟩, handler, notice⟩ := inv
  rw [alone] at table enabled
  rw [idle] at handler notice
  refine ⟨table_new_entry table room slot some_ flag, ⟨asked, held, priorities, ?_⟩, ?_, ?_⟩
  · intro i inside apart
    exact enabled i (Nat.lt_of_le_of_ne (Nat.le_of_lt_succ inside) (Ne.symm (apart _ rfl))) nofun
  · rw [idle]
    exact handler_plain handler.ended (fun _ _ => nofun) (fun _ _ _ => nofun)
  · rw [idle]
    refine ⟨notice.kept, fun _ _ _ => nofun, fun _ _ => nofun, ?_, notice.noted⟩
    intro f set
    obtain ⟨i, inside, rest⟩ := notice.flags f set
    exact ⟨i, Nat.lt_succ_of_lt inside, rest⟩

theorem irq_step_inv {event : IrqEvent} (inv : DispatchInv pin s) (step : irqStep pin s event = some t) :
    DispatchInv pin t := by
  cases event with
  | handle => exact handler_step_inv inv step
  | notify d =>
    rw [irqStep] at step
    split at step <;> cases step
    exact ⟨inv.table, inv.gic, inv.handler, notice_notify inv.notice d⟩
  | configChange d =>
    rw [irqStep] at step
    split at step <;> cases step
    exact ⟨inv.table, inv.gic, inv.handler, notice_config inv.notice d⟩
  | timerFires =>
    cases step
    exact ⟨inv.table, inv.gic, inv.handler, inv.notice⟩
  | take iar =>
    rw [irqStep] at step
    split at step <;> cases step
    rename_i may
    exact take_inv inv may.1 iar
  | register flag d =>
    rw [irqStep] at step
    split at step
    · rename_i may
      obtain ⟨idle, free, slot, some_⟩ := may
      split at step
      · cases step
        exact inv
      · rename_i room
        cases step
        exact register_start_inv inv idle (Option.isNone_iff_eq_none.mp free) (Nat.lt_of_not_le room) slot some_ flag
    · cases step
  | main =>
    rw [irqStep] at step
    split at step
    · rename_i idle
      obtain ⟨r, here, rfl⟩ := Option.map_eq_some_iff.mp step
      exact register_step_inv inv idle here
    · cases step
  | registerTimer =>
    rw [irqStep] at step
    split at step <;> cases step
    exact ⟨inv.table, inv.gic, inv.handler, inv.notice⟩
  | clear flag =>
    rw [irqStep] at step
    split at step <;> cases step
    refine ⟨inv.table, inv.gic, inv.handler, inv.notice.kept, inv.notice.marked, inv.notice.served, ?_, inv.notice.noted⟩
    intro f set
    change Function.update s.table.pending flag false f = true at set
    by_cases mine : f = flag
    · rw [mine, Function.update_self] at set
      cases set
    · rw [Function.update_of_ne mine] at set
      exact inv.notice.flags f set

theorem line_bounds {d : Nat} (some_ : line pin d ≠ 0) : 35 ≤ line pin d ∧ line pin d < 39 := by
  rw [line, pciGetIrq] at some_ ⊢
  split at some_
  · exact absurd rfl some_
  · rename_i pinned
    rw [if_neg pinned, gicSpi]
    omega

theorem dispatch_inv_sound (inv : DispatchInv pin s) : DispatchSound pin s := by
  obtain ⟨table, ⟨asked, held, priorities, enabled⟩, handler, notice⟩ := inv
  refine ⟨notice.kept, ?_, ?_, handler.ended, ?_, ?_⟩
  · intro idle i complete due
    obtain ⟨small, wire, some_⟩ := table.wired i complete.1 (table.done i complete.1 complete.2)
    have bounds := line_bounds (wire ▸ some_)
    have bit : (s.isr (s.table.devs i).vpci).getLsbD 0 = true := by
      refine kept_plain notice.kept ?_ _ due
      rw [idle]
      exact fun _ _ _ => nofun
    have up : level pin s (s.table.devs i).irqId = true := by
      rw [level, Bool.or_eq_true]
      refine Or.inr (List.any_eq_true.mpr ⟨_, List.mem_range.mpr small, ?_⟩)
      rw [Bool.and_eq_true]
      exact ⟨decide_eq_true wire.symm, decide_eq_true (status_nonzero bit)⟩
    have passes : delivers s.gic (s.table.devs i).irqId = true := by
      rw [programmed_delivers held (by omega), enabled i complete.1 complete.2, priorities]
      rfl
    have quiet : s.active = [] := by
      rw [handler.ended, idle]
      rfl
    rw [signaled, up, passes, quiet]
    rfl
  · intro iar place i on due
    exact notice.served iar s.table.count (by rw [place]; rfl) i on.inside on due
  · intro iar i place
    have on := handler.reads iar i place
    obtain ⟨small, wire, _⟩ := table.wired i on.inside on.active
    exact ⟨small, wire.symm.trans on.line⟩
  · intro f set
    obtain ⟨i, inside, _, flag, known⟩ := notice.flags f set
    exact ⟨i, inside, flag, known⟩

end Runs

/-- Over every order of steps: a notification stays in the ISR status of its device or in the handler's
    hands until a flag reports it; while the handler is idle the interrupt of a registered device that
    is owed a flag is up at the CPU; the handler ends an interrupt with nothing owed on its line but
    what came after it had started; every interrupt that is acknowledged is ended; and a flag is set
    only by a device that notified. -/
theorem dispatch_loses_nothing (pin : Nat → Nat) (s : Irq) (run : IrqReached pin s) : DispatchSound pin s := by
  refine dispatch_inv_sound (reaches_invariant (DispatchInv pin) ?_ ?_ run)
  · intro s start
    exact irq_start_inv start
  · intro s event t inv step
    exact irq_step_inv inv step

def boardAtReset : Irq where
  table := irqInit ⟨fun _ => true, 5, true, fun _ => ⟨0, .rng, 0, true⟩, 3⟩
  main := none
  handler := .idle
  gic := gicInit gicAtReset 8
  active := []
  isr := fun _ => 0
  timerStatus := false
  owed := fun _ => false
  fresh := fun _ => false
  noted := fun _ => false

def diskNotifies : List IrqEvent :=
  [.register .blk 2, .main, .main, .main, .main, .main, .main, .notify 2, .take 37, .handle, .handle, .handle]

theorem disk_notice_kept : ∃ s, IrqReached (fun _ => 1) s ∧ DispatchSound (fun _ => 1) s ∧
    s.isr 2 = 0 ∧ s.owed 2 = true := by
  have known : ((runActions (irqStep fun _ => 1) boardAtReset diskNotifies).any
      fun s => s.isr 2 = 0 && s.owed 2) = true := by
    decide
  obtain ⟨s, done, holds⟩ := (Option.any_eq_true _ _).mp known
  have start : IrqStart boardAtReset := by
    refine ⟨⟨_, rfl⟩, ⟨_, 8, by decide, rfl⟩, rfl, rfl, rfl, fun _ => rfl, ?_⟩
    intro d bit
    change (0#8).getLsbD 0 = true at bit
    rw [BitVec.getLsbD_zero] at bit
    cases bit
  have run : IrqReached (fun _ => 1) s := reaches_of_actions (Reaches.start start) done
  rw [Bool.and_eq_true, decide_eq_true_eq] at holds
  exact ⟨s, run, dispatch_loses_nothing _ s run, holds⟩

end Archarch.Interrupts
