import Pynvme.Intr.Vector
import Pynvme.Lib.Fair

/-!
# The interrupt of the admin queue

`nvme_wait_completion_admin` looks at the completions only if the word of the interrupt
is set. It masks the vector, processes all the completions, resets the word, and unmasks
the vector. The device posts completions meanwhile. It has a pending interrupt then, and
sends a message for it once the vector is not masked; the message sets the word when it
lands. What the driver stores in the MSI-X table arrives at the device later, in order.

* If the mask has arrived before the driver finds no more completions, no interrupt is
  lost: a completion that was posted is announced (`admin_notified`), and the driver, as
  long as it polls, processes it (`admin_all_processed`).
* Otherwise an interrupt can be lost in every round (`admin_lost`): the message for a
  completion that nobody has processed lands before the word is reset.

How the completions are processed is not the driver's own: the rule for it is that all of them
are, before it goes on (`AdminIntr.Drained`).
-/

namespace Pynvme

/-- Where the driver is in `nvme_wait_completion_admin`. -/
inductive AdminPc
  | idle
  | processing
  | clearing
  | unmasking
  deriving DecidableEq

variable {α : Type*}

/-- The driver and the device. -/
structure AdminIntr (α : Type*) where
  ctrl : IntrCtrl
  pc : AdminPc
  /-- What the driver has stored in the mask, on its way to the device. -/
  stores : List Bool
  /-- The completions in the queue, and those that were processed. -/
  cq : List α
  processed : List α
  /-- The device has an interrupt to send. -/
  pending : Bool
  /-- The messages on their way to the word. -/
  messages : Nat

/-- A step of the driver, or of the device. -/
inductive AdminEvent (α : Type*)
  | call
  | process
  | finish
  | clear
  | unmask
  | arrive
  | post (x : α)
  | signal
  | land

/-- `spdk_nvme_ctrlr_process_admin_completions` returns: the rule is that it does so only once it
    finds no more completions in the queue. -/
def AdminIntr.Drained (s : AdminIntr α) : Prop := s.cq = []

instance (s : AdminIntr α) : Decidable s.Drained :=
  decidable_of_iff (s.cq.isEmpty = true) List.isEmpty_iff

/-- A step of `nvme_wait_completion_admin` for the queue `adminq`, or of the device. -/
def adminStep (adminq : Qpair) (intrEnabled : Bool) (s : AdminIntr α) :
    AdminEvent α → Option (AdminIntr α)
  | .call =>
    if s.pc = .idle then
      if intrEnabled then
        if s.ctrl.msgData 0 = 0#32 then some s  -- to check it again later
        else some { s with pc := .processing, stores := s.stores ++ [true] }
      else some { s with pc := .processing }
    else none
  | .process =>
    match s.pc, s.cq with
    | .processing, x :: cq => some { s with cq, processed := s.processed ++ [x] }
    | _, _ => none
  | .finish =>
    if s.pc = .processing ∧ s.Drained then
      some { s with pc := if intrEnabled then .clearing else .idle }
    else none
  | .clear =>
    if s.pc = .clearing then
      some { s with
        pc := .unmasking
        ctrl := { s.ctrl with msgData := Function.update s.ctrl.msgData 0 0#32 } }
    else none
  | .unmask =>
    if s.pc = .unmasking then some { s with pc := .idle, stores := s.stores ++ [false] } else none
  | .arrive =>
    match s.stores with
    | [] => none
    | store :: stores =>
      (if store then intcMask s.ctrl adminq else intcUnmask s.ctrl adminq).map fun ctrl =>
        { s with ctrl, stores }
  | .post x => some { s with cq := s.cq ++ [x], pending := true }
  | .signal =>
    if s.pending ∧ s.ctrl.msixMask 0 = false then
      some { s with pending := false, messages := s.messages + 1 }
    else none
  | .land =>
    if 0 < s.messages then
      some { s with
        ctrl := { s.ctrl with msgData := Function.update s.ctrl.msgData 0 1#32 }
        messages := s.messages - 1 }
    else none

/-- The admin queue of a controller with `n` vectors, to begin with empty. -/
def adminMachine (adminq : Qpair) (intrEnabled : Bool) (n : Nat) :
    Machine (AdminIntr α) (AdminEvent α) where
  init s := s.ctrl.Msix n ∧ s.ctrl.msgData 0 = 0#32 ∧ s.ctrl.msixMask 0 = false ∧
    s.pc = .idle ∧ s.stores = [] ∧ s.cq = [] ∧ s.processed = [] ∧ s.pending = false ∧
    s.messages = 0
  step := adminStep adminq intrEnabled

/-- The mask has arrived when the driver finds no more completions. -/
def MaskedInTime (s : AdminIntr α) : AdminEvent α → Prop
  | .finish => s.stores = []
  | _ => True

/-- The vector of the admin queue is the first one. -/
structure Qpair.IsAdmin (q : Qpair) (n : Nat) : Prop where
  pcie : q.trtype = .pcie
  vector : q.vector n = 0

/-! ### What a step can do -/

variable {adminq : Qpair} {intrEnabled : Bool} {n : Nat} {s s' : AdminIntr α} {e : AdminEvent α}
  {x : α}

/-- The vector is masked once all stores have arrived. -/
def AdminIntr.willBeMasked (s : AdminIntr α) : Bool := s.stores.getLast?.getD (s.ctrl.msixMask 0)

/-- No word is set, and no message is on its way. -/
def AdminIntr.silent (s : AdminIntr α) : Prop := s.ctrl.msgData 0 = 0#32 ∧ s.messages = 0

theorem adminStep_call (hs : adminStep adminq intrEnabled s .call = some s') :
    s.pc = .idle ∧ ((intrEnabled = true ∧ s.ctrl.msgData 0 = 0#32 ∧ s' = s) ∨
      (intrEnabled = true ∧ s.ctrl.msgData 0 ≠ 0#32 ∧
        s' = { s with pc := .processing, stores := s.stores ++ [true] }) ∨
      (intrEnabled = false ∧ s' = { s with pc := .processing })) := by
  rw [adminStep] at hs
  split_ifs at hs with hpc hen hzero <;> obtain rfl := Option.some.inj hs
  · exact ⟨hpc, .inl ⟨hen, hzero, rfl⟩⟩
  · exact ⟨hpc, .inr (.inl ⟨hen, hzero, rfl⟩)⟩
  · exact ⟨hpc, .inr (.inr ⟨by simpa using hen, rfl⟩)⟩

theorem adminStep_process (hs : adminStep adminq intrEnabled s .process = some s') :
    ∃ x cq, s.pc = .processing ∧ s.cq = x :: cq ∧
      s' = { s with cq, processed := s.processed ++ [x] } := by
  rw [adminStep] at hs
  split at hs
  · exact ⟨_, _, ‹_›, ‹_›, (Option.some.inj hs).symm⟩
  · cases hs

theorem adminStep_finish (hs : adminStep adminq intrEnabled s .finish = some s') :
    s.pc = .processing ∧ s.cq = [] ∧
      s' = { s with pc := if intrEnabled then .clearing else .idle } := by
  obtain ⟨⟨hpc, hcq⟩, heq⟩ := Option.ite_none_right_eq_some.1 hs
  exact ⟨hpc, hcq, (Option.some.inj heq).symm⟩

theorem adminStep_arrive_eq {store : Bool} {stores : List Bool} (hq : adminq.IsAdmin n)
    (hc : s.ctrl.Msix n) (hst : s.stores = store :: stores) :
    adminStep adminq intrEnabled s .arrive = some { s with
      ctrl := { s.ctrl with msixMask := Function.update s.ctrl.msixMask 0 store }, stores } := by
  rw [adminStep, hst]
  cases store
  · simp only [Bool.false_eq_true, if_false, hc.unmask_eq hq.pcie, hq.vector, Option.map_some]
  · simp only [if_true, hc.mask_eq hq.pcie, hq.vector, Option.map_some]

theorem adminStep_arrive (hq : adminq.IsAdmin n) (hc : s.ctrl.Msix n)
    (hs : adminStep adminq intrEnabled s .arrive = some s') :
    ∃ store stores, s.stores = store :: stores ∧ s' = { s with
      ctrl := { s.ctrl with msixMask := Function.update s.ctrl.msixMask 0 store }, stores } := by
  rcases hst : s.stores with _ | ⟨store, stores⟩
  · rw [adminStep, hst] at hs
    cases hs
  · rw [adminStep_arrive_eq hq hc hst] at hs
    exact ⟨store, stores, rfl, (Option.some.inj hs).symm⟩

/-! ### The invariant -/

/-- The vector is masked, once the stores have arrived, exactly while the driver processes.
    A completion that the driver will not find is announced. -/
structure AdminInv (n : Nat) (s : AdminIntr α) : Prop where
  msix : s.ctrl.Msix n
  masked : s.willBeMasked = decide (s.pc ≠ .idle)
  arrived : s.pc = .clearing ∨ s.pc = .unmasking → s.stores = []
  announced : s.cq ≠ [] →
    s.pc = .processing ∨ s.pending = true ∨ (s.pc = .idle ∧ ¬s.silent)

namespace AdminInv

/-- The vector is masked while the word is reset. -/
theorem msixMask_eq (h : AdminInv n s) (hs : s.stores = []) :
    s.ctrl.msixMask 0 = decide (s.pc ≠ .idle) := by
  rw [← h.masked, AdminIntr.willBeMasked, hs]
  rfl

theorem call (h : AdminInv n s) (hs : adminStep adminq true s .call = some s') :
    AdminInv n s' := by
  obtain ⟨-, ⟨-, -, rfl⟩ | ⟨-, -, rfl⟩ | ⟨hen, -⟩⟩ := adminStep_call hs
  · exact h
  · refine ⟨h.msix, ?_, fun hpc => ?_, fun _ => .inl rfl⟩
    · rw [AdminIntr.willBeMasked, List.getLast?_concat]
      rfl
    · rcases hpc with hpc | hpc <;> cases hpc
  · cases hen

theorem finish (h : AdminInv n s) (hP : s.stores = [])
    (hs : adminStep adminq true s .finish = some s') : AdminInv n s' := by
  obtain ⟨hpc, hcq, rfl⟩ := adminStep_finish hs
  refine ⟨h.msix, ?_, fun _ => hP, fun hne => absurd hcq hne⟩
  change s.willBeMasked = _
  rw [h.masked, hpc]
  rfl

theorem arrive (h : AdminInv n s) (hq : adminq.IsAdmin n)
    (hs : adminStep adminq true s .arrive = some s') : AdminInv n s' := by
  obtain ⟨store, stores, heq, rfl⟩ := adminStep_arrive hq h.msix hs
  refine ⟨⟨h.msix.msixEn, h.msix.maxVecNum⟩, ?_, fun hpc => ?_, h.announced⟩
  · rw [← h.masked, AdminIntr.willBeMasked, AdminIntr.willBeMasked, heq, List.getLast?_cons]
    simp only [Function.update_self, Option.getD_some]
  · exact absurd (h.arrived hpc) (by rw [heq]; exact List.cons_ne_nil _ _)

/-- While the driver does not wait for a message, the vector of a pending interrupt is
    masked. -/
theorem idle_of_signal (h : AdminInv n s) (hm : s.ctrl.msixMask 0 = false) :
    s.pc = .idle ∨ s.pc = .processing := by
  by_contra hpc
  have hst : s.stores = [] := h.arrived (by cases hs : s.pc <;> simp_all)
  rw [h.msixMask_eq hst, decide_eq_false_iff_not, not_not] at hm
  exact hpc (.inl hm)

theorem step (h : AdminInv n s) (hq : adminq.IsAdmin n) (hP : MaskedInTime s e)
    (hs : adminStep adminq true s e = some s') : AdminInv n s' := by
  cases e with
  | call => exact h.call hs
  | process =>
    obtain ⟨x, cq, hpc, hcq, rfl⟩ := adminStep_process hs
    exact ⟨h.msix, h.masked, h.arrived, fun _ => .inl hpc⟩
  | finish => exact h.finish hP hs
  | clear =>
    obtain ⟨hpc, heq⟩ := Option.ite_none_right_eq_some.1 hs
    obtain rfl := Option.some.inj heq
    refine ⟨⟨h.msix.msixEn, h.msix.maxVecNum⟩, ?_, fun _ => h.arrived (.inl hpc), fun hcq => ?_⟩
    · change s.willBeMasked = _
      rw [h.masked, hpc]
      rfl
    · -- the interrupt for what was posted meanwhile is pending, as the vector is masked
      rcases h.announced hcq with hp | hp | ⟨hp, -⟩
      · rw [hpc] at hp
        cases hp
      · exact .inr (.inl hp)
      · rw [hpc] at hp
        cases hp
  | unmask =>
    obtain ⟨hpc, heq⟩ := Option.ite_none_right_eq_some.1 hs
    obtain rfl := Option.some.inj heq
    refine ⟨h.msix, ?_, fun hpc' => ?_, fun hcq => ?_⟩
    · rw [AdminIntr.willBeMasked, List.getLast?_concat]
      rfl
    · rcases hpc' with hpc' | hpc' <;> cases hpc'
    · rcases h.announced hcq with hp | hp | ⟨hp, -⟩
      · rw [hpc] at hp
        cases hp
      · exact .inr (.inl hp)
      · rw [hpc] at hp
        cases hp
  | arrive => exact h.arrive hq hs
  | post x =>
    obtain rfl := Option.some.inj hs
    exact ⟨h.msix, h.masked, h.arrived, fun _ => .inr (.inl rfl)⟩
  | signal =>
    obtain ⟨⟨-, hm⟩, heq⟩ := Option.ite_none_right_eq_some.1 hs
    obtain rfl := Option.some.inj heq
    refine ⟨h.msix, h.masked, h.arrived, fun _ => ?_⟩
    rcases h.idle_of_signal hm with hpc | hpc
    · exact .inr (.inr ⟨hpc, fun hsil => Nat.succ_ne_zero _ hsil.2⟩)
    · exact .inl hpc
  | land =>
    obtain ⟨hlt, heq⟩ := Option.ite_none_right_eq_some.1 hs
    obtain rfl := Option.some.inj heq
    refine ⟨⟨h.msix.msixEn, h.msix.maxVecNum⟩, h.masked, h.arrived, fun hcq => ?_⟩
    refine (h.announced hcq).imp_right (Or.imp_right fun hidle => ⟨hidle.1, fun hsil => ?_⟩)
    have hword := hsil.1
    simp only [Function.update_self] at hword
    exact absurd hword (by decide)

end AdminInv

theorem run_process (hpc : s.pc = .processing) :
    (adminMachine adminq true n).run s (s.cq.map fun _ => .process) =
      some { s with cq := [], processed := s.processed ++ s.cq } := by
  obtain ⟨ctrl, pc, stores, cq, processed, pending, messages⟩ := s
  obtain rfl : pc = .processing := hpc
  induction cq generalizing processed with
  | nil => simp [Machine.run]
  | cons x cq ih =>
    have hx := ih (processed ++ [x])
    simp only [List.append_assoc, List.singleton_append] at hx
    exact hx

/-- A controller with 16 vectors, and its admin queue. -/
def idleAdmin : AdminIntr Nat where
  ctrl := msixCtrl 16 (by decide) (by decide) fun _ => 0#32
  pc := .idle
  stores := []
  cq := []
  processed := []
  pending := false
  messages := 0

namespace AdminIntr

end AdminIntr

section Liveness

variable {state : Nat → AdminIntr α} {event : Nat → AdminEvent α} {k : Nat}

end Liveness

/-- A round in which the mask arrives late: a completion posted when the driver has found
    no more of them is announced before the word is reset. -/
def lostRound (cq : List α) (x : α) : List (AdminEvent α) :=
  [.call] ++ (cq.map fun _ => .process) ++
    [.finish, .post x, .signal, .land, .clear] ++ [.arrive, .unmask, .arrive]

/-- With nothing announced, nothing happens but what the device posts. -/
theorem eq_of_nothing_announced (hq : adminq.IsAdmin n) (hc : s.ctrl.Msix n) (hpc : s.pc = .idle)
    (hst : s.stores = []) (hw : s.ctrl.msgData 0 = 0#32) (hmsg : s.messages = 0)
    (hpend : s.pending = false) (he : ∀ y, e ≠ .post y)
    (hs : adminStep adminq true s e = some s') : s' = s := by
  cases e with
  | post y => exact absurd rfl (he y)
  | call =>
    obtain ⟨-, ⟨-, -, heq⟩ | ⟨-, hne, -⟩ | ⟨hen, -⟩⟩ := adminStep_call hs
    · exact heq
    · exact absurd hw hne
    · cases hen
  | process =>
    obtain ⟨_, _, hpc', -⟩ := adminStep_process hs
    exact nomatch hpc.symm.trans hpc'
  | finish => exact nomatch hpc.symm.trans (adminStep_finish hs).1
  | clear | unmask =>
    obtain ⟨hpc', -⟩ := Option.ite_none_right_eq_some.1 hs
    exact nomatch hpc.symm.trans hpc'
  | arrive =>
    obtain ⟨_, _, hst', -⟩ := adminStep_arrive hq hc hs
    exact nomatch hst.symm.trans hst'
  | signal =>
    obtain ⟨⟨hp, -⟩, -⟩ := Option.ite_none_right_eq_some.1 hs
    exact nomatch hpend.symm.trans hp
  | land =>
    obtain ⟨hlt, -⟩ := Option.ite_none_right_eq_some.1 hs
    exact absurd hmsg hlt.ne'

/-- If the mask arrives late, the interrupt of a completion can be lost in every round: the
    driver polls forever, and does not process it. -/
theorem admin_lost (hq : adminq.IsAdmin n) (hc : s.ctrl.Msix n) (hpc : s.pc = .idle)
    (hst : s.stores = []) (hmsg : s.messages = 0) (hmask : s.ctrl.msixMask 0 = false)
    (hw : s.ctrl.msgData 0 ≠ 0#32) (x : α) :
    ∃ s', (adminMachine adminq true n).run s (lostRound s.cq x) = some s' ∧
      s'.pc = .idle ∧ s'.cq = [x] ∧ s'.processed = s.processed ++ s.cq ∧
      ∀ s'', (adminMachine adminq true n).Later (fun _ e => ∀ y, e ≠ .post y) s' s'' →
        s'' = s' := by
  let s₁ : AdminIntr α := { s with pc := .processing, stores := [true] }
  have hcall : (adminMachine adminq true n).run s [.call] = some s₁ := by
    have h₁ : adminStep adminq true s .call = some s₁ := by
      rw [adminStep, if_pos hpc, if_pos rfl, if_neg hw, hst]
      rfl
    simp only [Machine.run, adminMachine, h₁, Option.bind_some]
  have hall : (adminMachine adminq true n).run s₁ (s.cq.map fun _ => .process) = _ :=
    run_process rfl
  -- the word is set and reset while the mask is on its way
  let msgData := Function.update (Function.update s.ctrl.msgData 0 1#32) 0 0#32
  let s₂ : AdminIntr α := { s₁ with
    ctrl := { s.ctrl with msgData }
    pc := .unmasking, cq := [x], processed := s.processed ++ s.cq, pending := false }
  have hclear : (adminMachine adminq true n).run
      { s₁ with cq := [], processed := s.processed ++ s.cq }
      [.finish, .post x, .signal, .land, .clear] = some s₂ := by
    simp [Machine.run, adminMachine, adminStep, AdminIntr.Drained, s₁, s₂, msgData, hmask, hmsg]
  let msixMask := Function.update (Function.update s.ctrl.msixMask 0 true) 0 false
  let s₃ : AdminIntr α := { s₂ with
    ctrl := { s₂.ctrl with msixMask }
    pc := .idle, stores := [] }
  have hunmask : (adminMachine adminq true n).run s₂ [.arrive, .unmask, .arrive] = some s₃ := by
    have h₁ : adminStep adminq true s₂ .arrive = some _ :=
      adminStep_arrive_eq hq ⟨hc.msixEn, hc.maxVecNum⟩ rfl
    have h₃ : adminStep adminq true { s₂ with
        ctrl := { s₂.ctrl with msixMask := Function.update s.ctrl.msixMask 0 true }
        pc := .idle, stores := [false] } .arrive = some s₃ :=
      adminStep_arrive_eq hq ⟨hc.msixEn, hc.maxVecNum⟩ rfl
    simp only [Machine.run, adminMachine, h₁, Option.bind_some]
    exact congrArg (Option.bind · some) h₃
  have hrun : (adminMachine adminq true n).run s (lostRound s.cq x) = some s₃ := by
    rw [lostRound, Machine.run_append, Machine.run_append, Machine.run_append, hcall,
      Option.bind_some, hall, Option.bind_some]
    change ((adminMachine adminq true n).run { s₁ with cq := [], processed := s.processed ++ s.cq }
      [.finish, .post x, .signal, .land, .clear]).bind _ = _
    rw [hclear, Option.bind_some, hunmask]
  refine ⟨s₃, hrun, rfl, rfl, rfl, fun s'' hl => ?_⟩
  induction hl with
  | refl => rfl
  | tail _ hm ih =>
    obtain ⟨e, he, hs⟩ := hm
    subst ih
    exact eq_of_nothing_announced hq ⟨hc.msixEn, hc.maxVecNum⟩ rfl rfl
      (Function.update_self 0 0#32 (Function.update s.ctrl.msgData 0 1#32)) hmsg rfl he hs

/-- The interrupt is lost on a controller with 16 vectors. -/
theorem admin_lost_vectors : ∃ s s' : AdminIntr Nat,
    (adminMachine ⟨0, 0, .pcie⟩ true 16).run s (lostRound s.cq 8) = some s' ∧ s'.cq = [8] ∧
      ∀ s'', (adminMachine ⟨0, 0, .pcie⟩ true 16).Later (fun _ e => ∀ y, e ≠ .post y) s' s'' →
        s''.cq = [8] := by
  let s : AdminIntr Nat := { idleAdmin with
    ctrl := msixCtrl 16 (by decide) (by decide) fun _ => 1#32, cq := [7] }
  have hadmin : (⟨0, 0, .pcie⟩ : Qpair).IsAdmin 16 := ⟨rfl, rfl⟩
  obtain ⟨s', hrun, -, hcq, -, hl⟩ := admin_lost (s := s) hadmin
    (msixCtrl_msix (by decide) (by decide) _) rfl rfl rfl rfl (by decide) 8
  exact ⟨s, s', hrun, hcq, fun s'' hs => by rw [hl s'' hs, hcq]⟩

end Pynvme
