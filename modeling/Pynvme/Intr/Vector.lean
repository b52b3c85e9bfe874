import Pynvme.Lib.Machine
import Pynvme.Lib.Word

/-!
# The interrupt vectors of the queues

With MSI-X, the device signals a vector by a write to its word of `msg_data`, unless
the vector is masked in the table of the device. A queue has an identifier, and the
vector the device uses for its completions; the operations of `intr_mgt.c` on a queue
look at the word of a vector (`intcIsset`), reset it (`intcClear`), and mask and unmask
a vector (`intcMask`, `intcUnmask`).

Each operation computes the vector on its own: `intcClear` takes the identifier of the
queue, and `intcIsset` keeps 8 bits of the vector. All of them act on the vector of the
queue exactly if the identifier is the vector and the 8 bits tell it from every other
vector (`intc_actsOnVector_iff`).
-/

namespace Pynvme

open Word

/-- The transport of a queue; interrupts are enabled on PCIe devices only. -/
inductive Trtype
  | pcie
  | other
  deriving DecidableEq

/-- A queue, `spdk_nvme_qpair`: its identifier, and its interrupt vector. -/
structure Qpair where
  id : Nat
  intrVector : Nat
  trtype : Trtype

/-- `intr_ctrl_t`, with the masks of the device: those of the MSI-X table, and the
    register that `INTMS` and `INTMC` give access to. The words `msg_data` are indexed
    by any number: an index beyond the array is not checked. -/
structure IntrCtrl where
  msixEn : Nat
  msiEn : Nat
  maxVecNum : Nat
  msgData : Nat → BitVec 32
  msixMask : Nat → Bool
  intm : BitVec 32
  maxVecNum_pos : 0 < maxVecNum
  maxVecNum_le : maxVecNum ≤ 2048

/-- `intc_get_vec`; `none` is a failed assertion. -/
def intcGetVec (c : IntrCtrl) (q : Qpair) : Option Nat :=
  if q.trtype = .pcie then some (u16 (q.intrVector % c.maxVecNum)) else none

/-- `intc_clear`. -/
def intcClear (c : IntrCtrl) (q : Qpair) : Option IntrCtrl :=
  if q.trtype = .pcie then
    if c.msixEn ≠ 0 then some { c with msgData := Function.update c.msgData q.id 0#32 }
    else if c.msiEn ≠ 0 then some { c with msgData := Function.update c.msgData 0 0#32 }
    else some c
  else none

/-- `intc_isset`: `vector_id` is a `uint8_t`. -/
def intcIsset (c : IntrCtrl) (q : Qpair) : Option Bool := do
  let vectorId := u8 (← intcGetVec c q)
  if c.msixEn = 1 then some (c.msgData vectorId != 0#32)
  else if c.msiEn = 1 then some (vectorId == (c.msgData 0 &&& 0xff#32).toNat)
  else some true

/-- `intc_mask`: the register is read, and ones written to `INTMS` set bits of the mask. -/
def intcMask (c : IntrCtrl) (q : Qpair) : Option IntrCtrl := do
  if q.trtype = .pcie then
    let vectorId ← intcGetVec c q
    if c.msixEn = 1 then some { c with msixMask := Function.update c.msixMask vectorId true }
    else if c.msiEn = 1 then
      let rawVal := c.intm ||| 1#32 <<< vectorId
      some { c with intm := c.intm ||| rawVal }
    else some c
  else some c

/-- `intc_unmask`: what is read of the register is overwritten by the return code 0, and
    ones written to `INTMC` reset bits of the mask. -/
def intcUnmask (c : IntrCtrl) (q : Qpair) : Option IntrCtrl := do
  if q.trtype = .pcie then
    let vectorId ← intcGetVec c q
    if c.msixEn = 1 then some { c with msixMask := Function.update c.msixMask vectorId false }
    else if c.msiEn = 1 then
      let rawVal := 0#32 ||| 1#32 <<< vectorId
      some { c with intm := c.intm &&& ~~~rawVal }
    else some c
  else some c

/-! ### The machine of the interrupts -/

/-- What happens to the interrupts of a controller: an operation on a queue, or a message
    of the device for a vector. -/
inductive IntcEvent
  | clear (q : Qpair)
  | mask (q : Qpair)
  | unmask (q : Qpair)
  | message (v : Nat)

/-- A step of the driver or of the device, which sends no message for a vector that is
    masked. The data of a message is 1, as written by `msix_intc_init`. -/
def intcStep (c : IntrCtrl) : IntcEvent → Option IntrCtrl
  | .clear q => intcClear c q
  | .mask q => intcMask c q
  | .unmask q => intcUnmask c q
  | .message v =>
    if v < c.maxVecNum ∧ c.msixMask v = false then
      some { c with msgData := Function.update c.msgData v 1#32 }
    else none

/-- MSI-X is enabled, with `n` vectors. -/
structure IntrCtrl.Msix (c : IntrCtrl) (n : Nat) : Prop where
  msixEn : c.msixEn = 1
  maxVecNum : c.maxVecNum = n

/-- The interrupts of a controller with `n` vectors, after `msix_intc_init`. -/
def intcMachine (n : Nat) : Machine IntrCtrl IntcEvent where
  init c := c.Msix n ∧ ∀ v < n, c.msgData v = 0#32 ∧ c.msixMask v = false
  step := intcStep

/-! ### What the operations act on -/

/-- The vector of a queue, on a controller with `n` vectors. -/
def Qpair.vector (q : Qpair) (n : Nat) : Nat := q.intrVector % n

variable {c c' : IntrCtrl} {q : Qpair} {n : Nat} {e : IntcEvent}

namespace IntrCtrl.Msix

theorem vector_lt (h : c.Msix n) (q : Qpair) : q.vector n < n :=
  Nat.mod_lt _ (h.maxVecNum ▸ c.maxVecNum_pos)

theorem getVec_eq (h : c.Msix n) (hq : q.trtype = .pcie) :
    intcGetVec c q = some (q.vector n) := by
  have hlt := h.vector_lt q
  have hle := h.maxVecNum ▸ c.maxVecNum_le
  rw [intcGetVec, if_pos hq, h.maxVecNum, ← Qpair.vector, u16_of_lt (by omega)]

theorem clear_eq (h : c.Msix n) (hq : q.trtype = .pcie) :
    intcClear c q = some { c with msgData := Function.update c.msgData q.id 0#32 } := by
  rw [intcClear, if_pos hq, if_pos (by simp [h.msixEn])]

theorem isset_eq (h : c.Msix n) (hq : q.trtype = .pcie) :
    intcIsset c q = some (c.msgData (u8 (q.vector n)) != 0#32) := by
  simp [intcIsset, h.getVec_eq hq, h.msixEn]

theorem mask_eq (h : c.Msix n) (hq : q.trtype = .pcie) :
    intcMask c q = some { c with msixMask := Function.update c.msixMask (q.vector n) true } := by
  simp [intcMask, h.getVec_eq hq, h.msixEn, hq]

theorem unmask_eq (h : c.Msix n) (hq : q.trtype = .pcie) :
    intcUnmask c q = some { c with msixMask := Function.update c.msixMask (q.vector n) false } := by
  simp [intcUnmask, h.getVec_eq hq, h.msixEn, hq]

/-- A clear resets the word of the identifier, and nothing else. -/
theorem of_clear (h : c.Msix n) (hq : q.trtype = .pcie) (hs : intcClear c q = some c') :
    c'.Msix n ∧ c'.msgData = Function.update c.msgData q.id 0#32 := by
  rw [h.clear_eq hq, Option.some_inj] at hs
  subst hs
  exact ⟨⟨h.msixEn, h.maxVecNum⟩, rfl⟩

/-- A step resets a word, changes the masks only, or is a message. -/
theorem step_cases (h : c.Msix n) (hs : intcStep c e = some c') :
    (∃ i, c' = { c with msgData := Function.update c.msgData i 0#32 }) ∨
    (∃ msixMask, c' = { c with msixMask }) ∨
    (∃ v, e = .message v ∧ c' = { c with msgData := Function.update c.msgData v 1#32 }) := by
  have hpcie : ∀ q : Qpair, q.trtype ≠ .pcie → intcClear c q = none ∧
      intcMask c q = some c ∧ intcUnmask c q = some c := fun q hq => by
    simp [intcClear, intcMask, intcUnmask, hq]
  cases e with
  | clear q =>
    by_cases hq : q.trtype = .pcie
    · rw [intcStep, h.clear_eq hq] at hs
      exact .inl ⟨_, (Option.some.inj hs).symm⟩
    · simp [intcStep, (hpcie q hq).1] at hs
  | mask q =>
    refine .inr (.inl ?_)
    by_cases hq : q.trtype = .pcie
    · rw [intcStep, h.mask_eq hq] at hs
      exact ⟨_, (Option.some.inj hs).symm⟩
    · rw [intcStep, (hpcie q hq).2.1] at hs
      exact ⟨_, (Option.some.inj hs).symm⟩
  | unmask q =>
    refine .inr (.inl ?_)
    by_cases hq : q.trtype = .pcie
    · rw [intcStep, h.unmask_eq hq] at hs
      exact ⟨_, (Option.some.inj hs).symm⟩
    · rw [intcStep, (hpcie q hq).2.2] at hs
      exact ⟨_, (Option.some.inj hs).symm⟩
  | message v =>
    rw [intcStep] at hs
    split_ifs at hs
    exact .inr (.inr ⟨v, rfl, (Option.some.inj hs).symm⟩)

/-- MSI-X stays enabled, and a word that is reset stays so until a message for its vector. -/
theorem step_zero {v : Nat} (h : c.Msix n) (hv : c.msgData v = 0#32)
    (he : e ≠ .message v) (hs : intcStep c e = some c') : c'.Msix n ∧ c'.msgData v = 0#32 := by
  obtain ⟨i, rfl⟩ | ⟨msixMask, rfl⟩ | ⟨i, rfl, rfl⟩ := h.step_cases hs
  · refine ⟨⟨h.msixEn, h.maxVecNum⟩, ?_⟩
    rcases eq_or_ne v i with rfl | hne
    · exact Function.update_self ..
    · exact (Function.update_of_ne hne ..).trans hv
  · exact ⟨⟨h.msixEn, h.maxVecNum⟩, hv⟩
  · refine ⟨⟨h.msixEn, h.maxVecNum⟩, (Function.update_of_ne ?_ ..).trans hv⟩
    rintro rfl
    exact he rfl

/-- The run lemma of `step_zero`. -/
theorem later_zero {v : Nat} (h : c.Msix n) (hv : c.msgData v = 0#32)
    (hl : (intcMachine n).Later (fun _ e => e ≠ .message v) c c') :
    c'.Msix n ∧ c'.msgData v = 0#32 := by
  induction hl with
  | refl => exact ⟨h, hv⟩
  | tail _ hm ih =>
    obtain ⟨e, he, hs⟩ := hm
    exact ih.1.step_zero ih.2 he hs

end IntrCtrl.Msix

/-! ### The vector of a queue -/

/-- The operations on the queue `q` act on the vector `v`, in every state of a controller
    with `n` vectors. -/
def ActsOn (n : Nat) (q : Qpair) (v : Nat) : Prop :=
  ∀ c : IntrCtrl, c.Msix n →
    intcIsset c q = some (c.msgData v != 0#32) ∧
    intcClear c q = some { c with msgData := Function.update c.msgData v 0#32 } ∧
    intcMask c q = some { c with msixMask := Function.update c.msixMask v true } ∧
    intcUnmask c q = some { c with msixMask := Function.update c.msixMask v false }

/-- The operations on the queue `q` act on its vector, on a controller with `n` vectors. -/
structure ActsOnVector (n : Nat) (q : Qpair) : Prop where
  /-- They all act on one vector, which the controller has. -/
  same : ∃ v < n, ActsOn n q v
  /-- A vector that is cleared is not set until the next interrupt of the queue. -/
  cleared : ∀ c c₁ c₂ : IntrCtrl, c.Msix n → intcClear c q = some c₁ →
    (intcMachine n).Later (fun _ e => e ≠ .message (q.vector n)) c₁ c₂ →
    intcIsset c₂ q = some false
  /-- The queues that use other vectors are not affected by a clear. -/
  others : ∀ (c c₁ : IntrCtrl) (q' : Qpair), c.Msix n → q'.trtype = .pcie →
    q'.vector n ≠ q.vector n → intcClear c q = some c₁ → intcIsset c₁ q' = intcIsset c q'

/-- The controller with `n` vectors, none of them masked, whose words are `msgData`. -/
def msixCtrl (n : Nat) (hn : 0 < n) (hle : n ≤ 2048) (msgData : Nat → BitVec 32) : IntrCtrl :=
  ⟨1, 0, n, msgData, fun _ => false, 0#32, hn, hle⟩

theorem msixCtrl_msix (hn : 0 < n) (hle : n ≤ 2048) (msgData : Nat → BitVec 32) :
    (msixCtrl n hn hle msgData).Msix n := ⟨rfl, rfl⟩

/-- The vector the operations act on is the one of the queue, and it is both the identifier
    of the queue and the 8 bits `intcIsset` keeps of it. -/
theorem ActsOn.eq {v : Nat} (h : ActsOn n q v) (hn : 0 < n) (hle : n ≤ 2048)
    (hq : q.trtype = .pcie) : q.vector n = v ∧ q.id = v ∧ u8 (q.vector n) = v := by
  -- all words but that of `v` are reset
  have hc := msixCtrl_msix hn hle (Function.update (fun _ => 0#32) v 1#32)
  obtain ⟨hset, hclear, hmask, -⟩ := h _ hc
  rw [hc.isset_eq hq, Option.some_inj] at hset
  rw [hc.clear_eq hq, Option.some_inj, IntrCtrl.mk.injEq] at hclear
  rw [hc.mask_eq hq, Option.some_inj, IntrCtrl.mk.injEq] at hmask
  refine ⟨?_, ?_, ?_⟩ <;> by_contra hne
  · have := congrFun hmask.2.2.2.2.1 v
    simp [msixCtrl, Function.update_of_ne (Ne.symm hne)] at this
  · have := congrFun hclear.2.2.2.1 v
    simp [msixCtrl, Function.update_of_ne (Ne.symm hne)] at this
  · simp [msixCtrl, Function.update_of_ne hne] at hset

theorem actsOn_vector (hid : q.id = q.vector n) (hbits : q.vector n < 256)
    (hq : q.trtype = .pcie) : ActsOn n q (q.vector n) := by
  intro c hc
  refine ⟨?_, ?_, hc.mask_eq hq, hc.unmask_eq hq⟩
  · rw [hc.isset_eq hq, u8_of_lt hbits]
  · rw [hc.clear_eq hq, hid]

/-- The operations on a queue act on its vector if and only if its identifier is the vector,
    the vector fits in 8 bits, and no other vector has the same 8 bits. -/
theorem intc_actsOnVector_iff (hn : 0 < n) (hle : n ≤ 2048) (hq : q.trtype = .pcie) :
    ActsOnVector n q ↔
      q.id = q.vector n ∧ q.vector n < 256 ∧ n ≤ q.vector n + 256 := by
  constructor
  · rintro ⟨⟨v, hv, hacts⟩, -, hothers⟩
    obtain ⟨hvec, hid, hbits⟩ := hacts.eq hn hle hq
    have hlt : v < 256 := by
      rw [← hbits, u8]
      exact Nat.mod_lt _ (by decide)
    rw [hvec]
    refine ⟨hid, hlt, ?_⟩
    -- otherwise `v + 256` is a vector, whose word is not what is read for its queues
    by_contra hgt
    let q' : Qpair := ⟨0, v + 256, .pcie⟩
    have hvec' : q'.vector n = v + 256 := Nat.mod_eq_of_lt (Nat.lt_of_not_le hgt)
    have hbits' : u8 (v + 256) = v := by
      rw [u8]
      omega
    have hc := msixCtrl_msix hn hle fun _ => 1#32
    have hclear := hc.clear_eq hq
    obtain ⟨hc₁, hdata⟩ := hc.of_clear hq hclear
    have h := hothers _ _ q' hc rfl (by omega) hclear
    rw [hc₁.isset_eq rfl, hc.isset_eq rfl, hdata, hvec', hbits', hid] at h
    simp [msixCtrl] at h
  · rintro ⟨hid, hlt, hgt⟩
    refine ⟨⟨_, Nat.mod_lt _ hn, actsOn_vector hid hlt hq⟩, ?_, ?_⟩
    · intro c c₁ c₂ hc hclear hl
      obtain ⟨hc₁, hdata⟩ := hc.of_clear hq hclear
      obtain ⟨hc₂, hzero⟩ := hc₁.later_zero (by rw [hdata, hid, Function.update_self]) hl
      rw [hc₂.isset_eq hq, u8_of_lt hlt, hzero]
      rfl
    · intro c c₁ q' hc hq' hne hclear
      obtain ⟨hc₁, hdata⟩ := hc.of_clear hq hclear
      have hlt' := hc.vector_lt q'
      have hne' : u8 (q'.vector n) ≠ q.vector n := by
        rw [u8]
        omega
      rw [hc₁.isset_eq hq', hc.isset_eq hq', hdata, hid, Function.update_of_ne hne']

/-- The first queue of a controller with 16 vectors, which uses the vector 1. -/
theorem intc_actsOnVector_first : ActsOnVector 16 ⟨1, 1, .pcie⟩ :=
  (intc_actsOnVector_iff (by decide) (by decide) rfl).2 (by decide)

/-- The vector chosen by the user is not the identifier of the queue: a clear leaves it set.
    There are more queues than vectors: the clear is beyond the vectors. The vector does not
    fit in 8 bits: another one is looked at. -/
theorem intc_not_actsOnVector :
    ¬ActsOnVector 16 ⟨1, 3, .pcie⟩ ∧ ¬ActsOnVector 16 ⟨17, 17, .pcie⟩ ∧
      ¬ActsOnVector 512 ⟨300, 300, .pcie⟩ := by
  refine ⟨fun h => ?_, fun h => ?_, fun h => ?_⟩
  · have := h.cleared (msixCtrl 16 (by decide) (by decide) fun _ => 1#32) _ _
      (msixCtrl_msix ..) rfl .refl
    exact absurd this (by decide)
  · have := h.cleared (msixCtrl 16 (by decide) (by decide) fun _ => 1#32) _ _
      (msixCtrl_msix ..) rfl .refl
    exact absurd this (by decide)
  · have := h.cleared (msixCtrl 512 (by decide) (by decide) fun _ => 1#32) _ _
      (msixCtrl_msix ..) rfl .refl
    exact absurd this (by decide)

end Pynvme
