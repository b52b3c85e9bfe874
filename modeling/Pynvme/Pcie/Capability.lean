import Pynvme.Lib.While
import Pynvme.Script.Python

/-!
# The list of capabilities

The capabilities of a PCIe function are a list in its configuration space: the byte
`0x34` points to the first one, and a capability has its id in its first byte, and in
its second one a pointer to the next, 0 in the last one. The driver looks for a
capability twice: in C, to set up the interrupts (`pcieFindCapBaseAddr`), and in Python,
for the scripts (`pcieCapOffset`).

Both walk along the pointers until they find the id or a 0. They find the same
(`cap_walks_agree`), and they come to an end exactly if they meet no pointer twice before
(`cap_walks_terminate_iff`).

The configuration space has any contents, and does not change during a walk.
-/

namespace Pynvme

open While

/-! ### The walk in C -/

/-- The loop of `pcie_find_cap_base_addr` ends at 0, or at a capability with the id. -/
def findCapStop (cfg : Bytes) (cid nextOffset : BitVec 8) : Option (BitVec 8) :=
  if nextOffset = 0#8 then some nextOffset
  else if cfg nextOffset.toNat = cid then some nextOffset
  else none

/-- The pointer of a capability. -/
def findCapNext (cfg : Bytes) (nextOffset : BitVec 8) : BitVec 8 := cfg (nextOffset.toNat + 1)

/-- `pcie_find_cap_base_addr`, if it returns within `n` iterations. -/
def pcieFindCapBaseAddr (cfg : Bytes) (cid : BitVec 8) (n : Nat) : Option (BitVec 8) :=
  run (findCapStop cfg cid) (findCapNext cfg) n (cfg 0x34)

/-! ### The walk in Python -/

/-- `Pcie.__getitem__` of a slice. -/
def pcieGetitem (cfg : Bytes) (start stop : Nat) : List (BitVec 8) :=
  ((List.range stop).drop start).map cfg

/-- `Pcie.register`, of at most 8 bytes. -/
def pcieRegister (cfg : Bytes) (offset byteCount : Nat) : Nat :=
  intFromBytes (pcieGetitem cfg offset (offset + byteCount))

/-- The loop of `Pcie.cap_offset` ends at 0 without a result, or with the offset of a
    capability with the id. -/
def capOffsetStop (cfg : Bytes) (capId nextOffset : Nat) : Option (Option Nat) :=
  if nextOffset = 0 then some none
  else if pcieRegister cfg nextOffset 2 % 256 = capId then some (some nextOffset)
  else none

/-- The pointer in the register of a capability. -/
def capOffsetNext (cfg : Bytes) (nextOffset : Nat) : Nat := pcieRegister cfg nextOffset 2 >>> 8

/-- `Pcie.cap_offset`, if it returns within `n` iterations. -/
def pcieCapOffset (cfg : Bytes) (capId : Nat) (n : Nat) : Option (Option Nat) :=
  run (capOffsetStop cfg capId) (capOffsetNext cfg) n (pcieRegister cfg 0x34 1)

/-! ### The list -/

/-- The pointers of the list, from the first one on. -/
def capPointer (cfg : Bytes) (k : Nat) : BitVec 8 := (findCapNext cfg)^[k] (cfg 0x34)

/-- The capability at `offset` is the first one of the list with the id. -/
def FirstCapability (cfg : Bytes) (cid offset : BitVec 8) : Prop :=
  ∃ k, capPointer cfg k = offset ∧ offset ≠ 0#8 ∧ cfg offset.toNat = cid ∧
    ∀ i < k, capPointer cfg i ≠ 0#8 ∧ cfg (capPointer cfg i).toNat ≠ cid

variable {cfg : Bytes} {cid p : BitVec 8}

theorem pcieRegister_one (cfg : Bytes) (offset : Nat) :
    pcieRegister cfg offset 1 = (cfg offset).toNat := by
  simp [pcieRegister, pcieGetitem, intFromBytes, List.range_succ]

theorem pcieRegister_two (cfg : Bytes) (offset : Nat) :
    pcieRegister cfg offset 2 = (cfg offset).toNat + 256 * (cfg (offset + 1)).toNat := by
  simp [pcieRegister, pcieGetitem, intFromBytes, List.range_succ]

/-! ### The two walks -/

/-- What `Pcie.cap_offset` makes of a pointer that ends the walk. -/
def capOffsetResult (p : BitVec 8) : Option Nat := if p = 0#8 then none else some p.toNat

theorem capOffsetStop_toNat (cfg : Bytes) (cid p : BitVec 8) :
    capOffsetStop cfg cid.toNat p.toNat = (findCapStop cfg cid p).map capOffsetResult := by
  have hid : pcieRegister cfg p.toNat 2 % 256 = (cfg p.toNat).toNat := by
    have := (cfg p.toNat).isLt
    rw [pcieRegister_two]
    omega
  rw [capOffsetStop, findCapStop, hid]
  by_cases h0 : p = 0#8
  · simp [h0, capOffsetResult]
  · have hpos : p.toNat ≠ 0 := fun h => h0 (BitVec.eq_of_toNat_eq h)
    rw [if_neg hpos, if_neg h0]
    by_cases hc : cfg p.toNat = cid
    · rw [if_pos (congrArg BitVec.toNat hc), if_pos hc, Option.map_some, capOffsetResult, if_neg h0]
    · rw [if_neg fun h => hc (BitVec.eq_of_toNat_eq h), if_neg hc, Option.map_none]

theorem capOffsetNext_toNat (cfg : Bytes) (p : BitVec 8) :
    capOffsetNext cfg p.toNat = (findCapNext cfg p).toNat := by
  have := (cfg p.toNat).isLt
  rw [capOffsetNext, pcieRegister_two, findCapNext, Nat.shiftRight_eq_div_pow]
  omega

theorem findCapStop_ne_none_iff :
    findCapStop cfg cid p ≠ none ↔ p = 0#8 ∨ cfg p.toNat = cid := by
  rw [findCapStop]
  split_ifs with h0 hc
  · simp [h0]
  · simp [hc]
  · simp [h0, hc]

theorem findCapStop_eq_some_iff {o : BitVec 8} :
    findCapStop cfg cid p = some o ↔ p = o ∧ (p = 0#8 ∨ cfg p.toNat = cid) := by
  rw [findCapStop]
  split_ifs with h0 hc
  · simp [h0]
  · simp [hc]
  · simp [h0, hc]

/-! ### Termination -/

/-- The walk in C comes to an end. -/
def FindCapTerminates (cfg : Bytes) (cid : BitVec 8) : Prop :=
  ∃ n, (pcieFindCapBaseAddr cfg cid n).isSome

/-- The walk in Python comes to an end. -/
def CapOffsetTerminates (cfg : Bytes) (capId : Nat) : Prop :=
  ∃ n, (pcieCapOffset cfg capId n).isSome

theorem findCapTerminates_iff :
    FindCapTerminates cfg cid ↔ Halts (findCapStop cfg cid) (findCapNext cfg) (cfg 0x34) := by
  simp only [FindCapTerminates, Halts, While.Returns, Option.isSome_iff_exists]
  exact exists_comm

theorem capOffsetTerminates_iff :
    CapOffsetTerminates cfg cid.toNat ↔ FindCapTerminates cfg cid := by
  rw [findCapTerminates_iff, ← halts_map_iff (capOffsetStop_toNat cfg cid)
    fun p _ => capOffsetNext_toNat cfg p, ← pcieRegister_one]
  simp only [CapOffsetTerminates, Halts, While.Returns, Option.isSome_iff_exists]
  exact exists_comm

/-- Both walks come to an end if and only if no pointer is met twice before a 0 or the
    id. -/
theorem cap_walks_terminate_iff (cfg : Bytes) (cid : BitVec 8) :
    (FindCapTerminates cfg cid ∧ CapOffsetTerminates cfg cid.toNat) ↔
      ∀ i j, i < j → capPointer cfg i = capPointer cfg j →
        ∃ k < j, capPointer cfg k = 0#8 ∨ cfg (capPointer cfg k).toNat = cid := by
  have hfinite : Finite (BitVec 8) :=
    Finite.of_injective BitVec.toFin fun _ _ => BitVec.eq_of_toFin_eq
  rw [capOffsetTerminates_iff, and_self_iff, findCapTerminates_iff, halts_iff_of_finite]
  simp only [findCapStop_ne_none_iff, capPointer]

/-- The only capability points to itself. -/
def selfPointing : Bytes := fun a =>
  if a = 0x34 ∨ a = 0x41 then 0x40#8 else if a = 0x40 then 1#8 else 0#8

/-- The walks for another capability do not come to an end. -/
theorem cap_walks_not_terminate :
    ¬FindCapTerminates selfPointing 5#8 ∧ ¬CapOffsetTerminates selfPointing 5 := by
  have hloop : findCapNext selfPointing 0x40#8 = 0x40#8 := rfl
  have hwalk : ¬FindCapTerminates selfPointing 5#8 := by
    rw [findCapTerminates_iff, halts_iff]
    rintro ⟨k, hk⟩
    rw [show selfPointing 0x34 = 0x40#8 from rfl, Function.iterate_fixed hloop] at hk
    exact hk rfl
  exact ⟨hwalk, fun h => hwalk (capOffsetTerminates_iff.1 h)⟩

/-! ### Agreement -/

/-- The walk in C returns an offset. -/
def FindCapReturns (cfg : Bytes) (cid offset : BitVec 8) : Prop :=
  ∃ n, pcieFindCapBaseAddr cfg cid n = some offset

/-- The walk in Python returns an offset, or `None`. -/
def CapOffsetReturns (cfg : Bytes) (capId : Nat) (result : Option Nat) : Prop :=
  ∃ n, pcieCapOffset cfg capId n = some result

theorem capOffsetReturns_iff {result : Option Nat} : CapOffsetReturns cfg cid.toNat result ↔
    ∃ offset, FindCapReturns cfg cid offset ∧ capOffsetResult offset = result := by
  have h := returns_map_iff (a := cfg 0x34) (c := result) (capOffsetStop_toNat cfg cid)
    fun p _ => capOffsetNext_toNat cfg p
  rwa [← pcieRegister_one] at h

/-- A pointer that is not 0 is returned if it is that of the first capability with the
    id. -/
theorem findCapReturns_iff {offset : BitVec 8} (h0 : offset ≠ 0#8) :
    FindCapReturns cfg cid offset ↔ FirstCapability cfg cid offset := by
  have hnone : ∀ p, findCapStop cfg cid p = none ↔ p ≠ 0#8 ∧ cfg p.toNat ≠ cid := fun p => by
    rw [← not_iff_not, ← ne_eq, findCapStop_ne_none_iff]
    tauto
  refine Iff.trans returns_iff (exists_congr fun k => ?_)
  simp only [findCapStop_eq_some_iff, hnone, capPointer]
  constructor
  · rintro ⟨⟨rfl, hid⟩, hbefore⟩
    exact ⟨rfl, h0, hid.resolve_left h0, hbefore⟩
  · rintro ⟨rfl, -, hid, hbefore⟩
    exact ⟨⟨rfl, .inr hid⟩, hbefore⟩

/-- The walks return the same: an offset that is not 0, which is that of the first
    capability with the id, or 0 and `None`; and one returns if the other does. -/
theorem cap_walks_agree (cfg : Bytes) (cid : BitVec 8) :
    (∀ offset, offset ≠ 0#8 →
      (FindCapReturns cfg cid offset ↔ CapOffsetReturns cfg cid.toNat (some offset.toNat)) ∧
      (FindCapReturns cfg cid offset ↔ FirstCapability cfg cid offset)) ∧
    (FindCapReturns cfg cid 0#8 ↔ CapOffsetReturns cfg cid.toNat none) ∧
    (∀ n, CapOffsetReturns cfg cid.toNat (some n) →
      ∃ offset, offset ≠ 0#8 ∧ offset.toNat = n ∧ FirstCapability cfg cid offset) ∧
    ((∃ k, capPointer cfg k = 0#8 ∨ cfg (capPointer cfg k).toNat = cid) →
      ∃ offset, FindCapReturns cfg cid offset) := by
  have hresult : ∀ p n, capOffsetResult p = some n ↔ p ≠ 0#8 ∧ p.toNat = n := fun p n => by
    rw [capOffsetResult]
    split_ifs with h0 <;> simp [h0]
  have hsome : ∀ n, CapOffsetReturns cfg cid.toNat (some n) ↔
      ∃ offset, FindCapReturns cfg cid offset ∧ offset ≠ 0#8 ∧ offset.toNat = n := fun n => by
    simp only [capOffsetReturns_iff, hresult]
  refine ⟨fun offset h0 => ⟨?_, findCapReturns_iff h0⟩, ?_, ?_, ?_⟩
  · rw [hsome]
    constructor
    · exact fun h => ⟨offset, h, h0, rfl⟩
    · rintro ⟨offset', h, -, heq⟩
      exact BitVec.eq_of_toNat_eq heq ▸ h
  · rw [capOffsetReturns_iff]
    constructor
    · exact fun h => ⟨0#8, h, rfl⟩
    · rintro ⟨offset, h, hnone⟩
      have hzero : offset = 0#8 := by
        by_contra h0
        rw [capOffsetResult, if_neg h0] at hnone
        cases hnone
      exact hzero ▸ h
  · intro n hn
    obtain ⟨offset, h, h0, heq⟩ := (hsome n).1 hn
    exact ⟨offset, h0, heq, (findCapReturns_iff h0).1 h⟩
  · rintro ⟨k, hk⟩
    exact halts_iff.2 ⟨k, findCapStop_ne_none_iff.2 hk⟩

end Pynvme
