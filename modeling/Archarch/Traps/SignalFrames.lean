import Archarch.Traps.StatusWords

/- What signal_deliver and signal_return do to the words of a frame and to user memory, when
   the user stack pointer has room for a signal frame in the user half. -/
namespace Archarch.Traps
open ByteMemory

def pendingSignals (pending : BitVec 32) : List Nat :=
  (List.range' 1 31).filter fun i => pending.getLsbD i

section Pending
variable {p : BitVec 32} {sig i : Nat} {rest : List Nat}

theorem test_bit (p : BitVec 32) (i : Nat) : decide (p &&& 1#32 <<< i ≠ 0) = p.getLsbD i := by
  rw [← BitVec.twoPow_eq, BitVec.and_twoPow]
  by_cases bit : p.getLsbD i = true
  · have small : i < 32 := BitVec.lt_of_getLsbD bit
    have nonzero : BitVec.twoPow 32 i ≠ 0 := by
      intro zero
      have value := congrArg (fun w : BitVec 32 => w.getLsbD i) zero
      simp [small] at value
    rw [if_pos bit, bit]
    exact decide_eq_true nonzero
  · simp [bit]

theorem lowest_pending_eq (p : BitVec 32) : lowestPending p = (pendingSignals p).head?.getD 0 := by
  rw [lowestPending, pendingSignals, List.head?_filter]
  simp only [test_bit]

theorem clear_bit (p : BitVec 32) (sig : Nat) (small : i < 32) :
    (p &&& ~~~(1#32 <<< sig)).getLsbD i = (p.getLsbD i && decide (i ≠ sig)) := by
  rw [← BitVec.twoPow_eq, BitVec.getLsbD_and, BitVec.getLsbD_not, BitVec.getLsbD_twoPow]
  by_cases same : i = sig
  · subst same
    simp [small]
  · simp [small, same, Ne.symm same]

theorem pending_signals_lt (member : i ∈ pendingSignals p) : 0 < i ∧ i < 32 ∧ p.getLsbD i = true := by
  obtain ⟨range, bit⟩ := List.mem_filter.mp member
  have bounds := List.mem_range'_1.mp range
  exact ⟨by omega, by omega, bit⟩

theorem pending_signals_clear (pending : pendingSignals p = sig :: rest) :
    pendingSignals (p &&& ~~~(1#32 <<< sig)) = rest := by
  have both : pendingSignals (p &&& ~~~(1#32 <<< sig)) =
      (pendingSignals p).filter fun i => decide (i ≠ sig) := by
    rw [pendingSignals, pendingSignals, List.filter_filter]
    apply List.filter_congr
    intro i member
    have bounds := List.mem_range'_1.mp member
    rw [clear_bit p sig (by omega), Bool.and_comm]
  have nodup : (pendingSignals p).Nodup := List.Pairwise.filter _ List.nodup_range'
  rw [pending, List.nodup_cons] at nodup
  rw [both, pending, List.filter_cons, if_neg (by simp)]
  apply List.filter_eq_self.mpr
  intro i member
  simp only [decide_eq_true_eq]
  rintro rfl
  exact nodup.1 member

theorem pending_signals_nil (zero : p.getLsbD 0 = false) : pendingSignals p = [] ↔ p = 0 := by
  constructor
  · intro none
    apply BitVec.eq_of_getLsbD_eq
    intro i small
    have clean : (0 : BitVec 32).getLsbD i = false := BitVec.getLsbD_zero
    rw [clean]
    by_cases first : i = 0
    · rw [first]
      exact zero
    · have clear := List.filter_eq_nil_iff.mp none i (List.mem_range'_1.mpr (by omega))
      simpa using clear
  · rintro rfl
    simp [pendingSignals]

end Pending

section Words
variable {s t : Machine} {id i j k v : Nat}

theorem set_reg_umem (s : Machine) (id i v : Nat) : (setReg s id i v).umem = s.umem := by
  rw [setReg]

theorem set_reg_tasks (s : Machine) (id i v : Nat) : (setReg s id i v).tasks = s.tasks := by
  rw [setReg]

theorem set_phase_umem (s : Machine) (id : Nat) (phase : Phase) : (setPhase s id phase).umem = s.umem := by
  rw [setPhase, setTask]

theorem save_frame_rest (s : Machine) (id : Nat) (regs : Nat → BitVec 64) (i n : Nat) :
    (saveFrame s id regs i n).umem = s.umem ∧ (saveFrame s id regs i n).tasks = s.tasks ∧
      (saveFrame s id regs i n).numTasks = s.numTasks := by
  induction n generalizing s i with
  | zero => exact ⟨rfl, rfl, rfl⟩
  | succ n ih => exact ih (setReg s id i (regs i).toNat) (i + 1)

theorem save_frame_words (s : Machine) (id : Nat) (regs : Nat → BitVec 64) (i n : Nat) :
    (∀ j, j < i → reg (saveFrame s id regs i n) id j = reg s id j) ∧
      ∀ j, i ≤ j → j < i + n → reg (saveFrame s id regs i n) id j = (regs j).toNat := by
  induction n generalizing s i with
  | zero => exact ⟨fun _ _ => rfl, fun j low high => by omega⟩
  | succ n ih =>
    obtain ⟨before, words⟩ := ih (setReg s id i (regs i).toNat) (i + 1)
    constructor
    · intro j low
      exact (before j (by omega)).trans (reg_set_reg_apart (by omega))
    · intro j low high
      by_cases here : j = i
      · subst here
        exact (before j (by omega)).trans (reg_set_reg (regs j).isLt)
      · exact words j (by omega) (by omega)

theorem load64_user {a : Nat} (low : a < kernVaOffset) : load64 s id a = read64 (s.umem id) a := by
  rw [load64, if_pos low]

theorem pop_frame_eq {sp n : Nat} (low : sp + 8 * (i + n) ≤ kernVaOffset) :
    popFrame s id sp i n =
      saveFrame s id (fun j => BitVec.ofNat 64 (read64 (s.umem id) (sp + 8 * j))) i n := by
  have small := low
  rw [kernVaOffset] at small
  induction n generalizing s i with
  | zero => rfl
  | succ n ih =>
    have address : (sp + 8 * i) % 2 ^ 64 = sp + 8 * i := Nat.mod_eq_of_lt (by omega)
    have word : (BitVec.ofNat 64 (read64 (s.umem id) (sp + 8 * i))).toNat =
        read64 (s.umem id) (sp + 8 * i) := by
      rw [BitVec.toNat_ofNat]
      exact Nat.mod_eq_of_lt (read64_lt _ _)
    rw [popFrame, saveFrame, address, load64_user (by omega), word]
    exact ih (by omega) (by omega)

theorem signal_return_words {base : Nat} (sp : reg s id 31 = base) (low : base + 8 * 34 ≤ kernVaOffset) :
    (∀ j, j < 34 → reg (signalReturn s id) id j = read64 (s.umem id) (base + 8 * j)) ∧
      (signalReturn s id).umem = s.umem ∧ (signalReturn s id).tasks = s.tasks := by
  rw [signalReturn, sp, pop_frame_eq (by omega)]
  obtain ⟨umem, tasks, _⟩ := save_frame_rest s id
    (fun j => BitVec.ofNat 64 (read64 (s.umem id) (base + 8 * j))) 0 34
  refine ⟨?_, umem, tasks⟩
  intro j small
  rw [(save_frame_words s id _ 0 34).2 j (by omega) (by omega), BitVec.toNat_ofNat]
  exact Nat.mod_eq_of_lt (read64_lt _ _)

structure StoredIn (s t : Machine) (id a b : Nat) : Prop where
  inside : ∀ x, x < a ∨ b ≤ x → t.umem id x = s.umem id x
  others : ∀ k, k ≠ id → t.umem k = s.umem k
  kmem : t.kmem = s.kmem
  tasks : t.tasks = s.tasks
  count : t.numTasks = s.numTasks

theorem stored_reg {a b : Nat} (stored : StoredIn s t id a b) (k i : Nat) : reg t k i = reg s k i := by
  rw [reg, reg, frame, frame, stored.kmem, stored.tasks]

theorem stored_trans {u : Machine} {a b : Nat} (first : StoredIn s t id a b)
    (second : StoredIn t u id a b) : StoredIn s u id a b :=
  ⟨fun x out => (second.inside x out).trans (first.inside x out),
    fun k other => (second.others k other).trans (first.others k other),
    second.kmem.trans first.kmem, second.tasks.trans first.tasks, second.count.trans first.count⟩

theorem stored_store64 {a b c v : Nat} (low : c < kernVaOffset) (inside : a ≤ c ∧ c + 8 ≤ b) :
    StoredIn s (store64 s id c v) id a b ∧ (store64 s id c v).umem id = write64 (s.umem id) c v := by
  rw [store64, if_pos low]
  have mine : Function.update s.umem id (write64 (s.umem id) c v) id = write64 (s.umem id) c v :=
    Function.update_self _ _ _
  refine ⟨⟨?_, ?_, rfl, rfl, rfl⟩, mine⟩
  · intro x out
    exact (congrFun mine x).trans (write64_outside (by omega))
  · intro k other
    exact Function.update_of_ne other _ _

theorem push_frame_words {sp n : Nat} (low : sp + 8 * (i + n) ≤ kernVaOffset) :
    StoredIn s (pushFrame s id sp i n) id (sp + 8 * i) (sp + 8 * (i + n)) ∧
      ∀ j, i ≤ j → j < i + n → read64 ((pushFrame s id sp i n).umem id) (sp + 8 * j) = reg s id j := by
  have small := low
  rw [kernVaOffset] at small
  induction n generalizing s i with
  | zero => exact ⟨⟨fun _ _ => rfl, fun _ _ => rfl, rfl, rfl, rfl⟩, fun j low high => by omega⟩
  | succ n ih =>
    have address : (sp + 8 * i) % 2 ^ 64 = sp + 8 * i := Nat.mod_eq_of_lt (by omega)
    obtain ⟨first, memory⟩ := @stored_store64 s id (sp + 8 * i) (sp + 8 * (i + (n + 1)))
      (sp + 8 * i) (reg s id i) (by omega) (by omega)
    obtain ⟨rest, words⟩ := ih (s := store64 s id (sp + 8 * i) (reg s id i)) (i := i + 1) (by omega) (by omega)
    rw [pushFrame, address]
    constructor
    · apply stored_trans first
      exact ⟨fun x out => rest.inside x (by omega), rest.others, rest.kmem, rest.tasks, rest.count⟩
    · intro j above below
      by_cases here : j = i
      · subst here
        have kept : ∀ o, o < 8 → (pushFrame (store64 s id (sp + 8 * j) (reg s id j)) id sp (j + 1) n).umem id
            (sp + 8 * j + o) = (store64 s id (sp + 8 * j) (reg s id j)).umem id (sp + 8 * j + o) :=
          fun o inside => rest.inside _ (by omega)
        rw [read64_congr kept, memory]
        exact read64_write64 (reg_lt s id j)
      · rw [words j (by omega) (by omega), stored_reg first]

def handlerReg (s : Machine) (id sig handler j : Nat) : Nat :=
  if j = 0 then sig
  else if j = 30 then signalSp (reg s id 31) + 280
  else if j = 31 then signalSp (reg s id 31)
  else if j = 32 then handler
  else reg s id j

structure Handled (s t : Machine) (id sig handler base : Nat) : Prop where
  regs : ∀ j, j < 34 → reg t id j = handlerReg s id sig handler j
  words : ∀ j, j < 34 → read64 (t.umem id) (base + 8 * j) = reg s id j
  code : read64 (t.umem id) (base + 280) = sigreturnTrampoline
  user : ∀ x, x < base ∨ base + sigframeSize ≤ x → t.umem id x = s.umem id x
  others : ∀ k, k ≠ id → t.umem k = s.umem k
  tasks : t.tasks = s.tasks

theorem signal_sp_le (room : sigframeSize ≤ reg s id 31) :
    signalSp (reg s id 31) + sigframeSize ≤ reg s id 31 ∧ signalSp (reg s id 31) % 16 = 0 := by
  have fits := reg_lt s id 31
  rw [sigframeSize] at room ⊢
  rw [signalSp, sigframeSize]
  omega

theorem set_regs_words {a b c d : Nat} (fitsA : a < 2 ^ 64) (fitsB : b < 2 ^ 64) (fitsC : c < 2 ^ 64)
    (fitsD : d < 2 ^ 64) (j : Nat) :
    reg (setReg (setReg (setReg (setReg s id 0 a) id 30 b) id 31 c) id 32 d) id j =
      if j = 0 then a else if j = 30 then b else if j = 31 then c else if j = 32 then d else reg s id j := by
  by_cases pc : j = 32
  · subst pc
    rw [reg_set_reg fitsD]
    rfl
  · rw [reg_set_reg_apart (Ne.symm pc)]
    by_cases sp : j = 31
    · subst sp
      rw [reg_set_reg fitsC]
      rfl
    · rw [reg_set_reg_apart (Ne.symm sp)]
      by_cases lr : j = 30
      · subst lr
        rw [reg_set_reg fitsB]
        rfl
      · rw [reg_set_reg_apart (Ne.symm lr), if_neg lr, if_neg sp, if_neg pc]
        by_cases zero : j = 0
        · subst zero
          rw [reg_set_reg fitsA]
          rfl
        · rw [reg_set_reg_apart (Ne.symm zero), if_neg zero]

theorem signal_handle_eq {sig handler base : Nat} (place : signalSp (reg s id 31) = base)
    (below : base + 288 ≤ 2 ^ 64) : signalHandle s id sig handler =
      setReg (setReg (setReg (setReg (store64 (store64 (pushFrame s id base 0 34) id (base + 272) sig)
        id (base + 280) sigreturnTrampoline) id 0 sig) id 30 (base + 280)) id 31 base) id 32 handler := by
  have number : (base + 272) % 2 ^ 64 = base + 272 := Nat.mod_eq_of_lt (by omega)
  have code : (base + 280) % 2 ^ 64 = base + 280 := Nat.mod_eq_of_lt (by omega)
  simp only [signalHandle, place, Nat.reduceMul]
  rw [number, code]

theorem signal_handle_spec {sig handler : Nat} (room : sigframeSize ≤ reg s id 31)
    (low : reg s id 31 ≤ kernVaOffset) (small : sig < 32) (fits : handler < 2 ^ 64) :
    Handled s (signalHandle s id sig handler) id sig handler (signalSp (reg s id 31)) := by
  have below := (signal_sp_le room).1
  generalize place : signalSp (reg s id 31) = base at below
  rw [sigframeSize] at below
  have half := low
  rw [kernVaOffset] at half
  rw [signal_handle_eq place (by omega)]
  obtain ⟨pushed, words⟩ := @push_frame_words s id 0 base 34
    (show base + 8 * (0 + 34) ≤ kernVaOffset by omega)
  obtain ⟨number, first⟩ := @stored_store64 (pushFrame s id base 0 34) id (base + 272)
    (base + 280) (base + 272) sig (by omega) (by omega)
  obtain ⟨tramp, second⟩ := @stored_store64 (store64 (pushFrame s id base 0 34) id (base + 272) sig)
    id (base + 280) (base + 288) (base + 280) sigreturnTrampoline
    (by omega) (by omega)
  generalize after : store64 (store64 (pushFrame s id base 0 34) id (base + 272) sig) id (base + 280)
    sigreturnTrampoline = u at tramp second
  have frames : ∀ j, reg u id j = reg s id j := by
    intro j
    rw [stored_reg tramp, stored_reg number, stored_reg pushed]
  refine ⟨?_, ?_, ?_, ?_, ?_, ?_⟩
  · intro j _
    rw [set_regs_words (by omega) (by omega) (by omega) fits, handlerReg, place, frames]
  · intro j inside
    have kept : ∀ o, o < 8 → u.umem id (base + 8 * j + o) = (pushFrame s id base 0 34).umem id (base + 8 * j + o) :=
      fun o _ => (tramp.inside _ (by omega)).trans (number.inside _ (by omega))
    simp only [set_reg_umem]
    exact (read64_congr kept).trans (words j (by omega) (by omega))
  · simp only [set_reg_umem]
    rw [second]
    exact read64_write64 (by rw [sigreturnTrampoline]; omega)
  · intro x outside
    rw [sigframeSize] at outside
    simp only [set_reg_umem]
    rw [tramp.inside x (by omega), number.inside x (by omega), pushed.inside x (by omega)]
  · intro k other
    simp only [set_reg_umem]
    rw [tramp.others k other, number.others k other, pushed.others k other]
  · simp only [set_reg_tasks]
    rw [tramp.tasks, number.tasks, pushed.tasks]

end Words
def SameTable (s t : Machine) : Prop := t.tasks = s.tasks ∧ t.numTasks = s.numTasks

section Tables

theorem same_table_trans {s t u : Machine} (first : SameTable s t) (second : SameTable t u) :
    SameTable s u := ⟨second.1.trans first.1, second.2.trans first.2⟩

theorem same_table_set_reg (s : Machine) (id i v : Nat) : SameTable s (setReg s id i v) := by
  rw [setReg]
  exact ⟨rfl, rfl⟩

theorem same_table_store64 (s : Machine) (id a v : Nat) : SameTable s (store64 s id a v) := by
  unfold store64
  split <;> exact ⟨rfl, rfl⟩

theorem same_table_push (s : Machine) (id sp i n : Nat) : SameTable s (pushFrame s id sp i n) := by
  induction n generalizing s i with
  | zero => exact ⟨rfl, rfl⟩
  | succ n ih =>
    rw [pushFrame]
    exact same_table_trans (same_table_store64 _ _ _ _) (ih _ _)

theorem same_table_pop (s : Machine) (id sp i n : Nat) : SameTable s (popFrame s id sp i n) := by
  induction n generalizing s i with
  | zero => exact ⟨rfl, rfl⟩
  | succ n ih =>
    rw [popFrame]
    exact same_table_trans (same_table_set_reg _ _ _ _) (ih _ _)

theorem same_table_handle (s : Machine) (id sig handler : Nat) :
    SameTable s (signalHandle s id sig handler) := by
  unfold signalHandle
  apply same_table_trans (same_table_push s id (signalSp (reg s id 31)) 0 34)
  apply same_table_trans (same_table_store64 _ _ _ _)
  apply same_table_trans (same_table_store64 _ _ _ _)
  apply same_table_trans (same_table_set_reg _ _ _ _)
  apply same_table_trans (same_table_set_reg _ _ _ _)
  apply same_table_trans (same_table_set_reg _ _ _ _)
  exact same_table_set_reg _ _ _ _

theorem same_table_store_byte (s : Machine) (id a : Nat) (byte : BitVec 8) :
    SameTable s (storeByte s id a byte) := by
  unfold storeByte
  split <;> exact ⟨rfl, rfl⟩

end Tables

end Archarch.Traps
