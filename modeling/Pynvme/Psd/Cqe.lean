import Pynvme.Lib.Word
import Pynvme.Script.Python

/-!
# Completion entries

A completion entry (`CQE`) is four dwords. The dword 3 has the command identifier, the phase
tag, and the status field, which the accessors give as a whole and part by part.

The parts tile the dword, but the mask of the whole status field is 0x8fff for 0x7fff: it
leaves out three of its bits (`cqe_accessors_iff`).
-/

namespace Pynvme.Psd

/-- `CQE`: a list of four dwords. -/
structure Cqe where
  dwords : List Nat
  length_dwords : dwords.length = 4

/-- `CQE.__init__` -/
def cqeInit (arg : List Nat) : Except PyError Cqe :=
  if h : arg.length = 4 then .ok ⟨arg, h⟩ else .error (.assertion "")

namespace Cqe

variable (c : Cqe)

/-- The element `i` of the list. -/
def dword (i : Fin 4) : Nat := c.dwords.get (i.cast c.length_dwords.symm)

/-- `CQE.cid` -/
def cid : Nat := c.dword 3 &&& 0xffff

/-- `CQE.p` -/
def p : Nat := c.dword 3 >>> 16 &&& 0x1

/-- `CQE.status` -/
def status : Nat := c.dword 3 >>> 17 &&& 0x8fff

/-- `CQE.sc` -/
def sc : Nat := c.dword 3 >>> 17 &&& 0xff

/-- `CQE.sct` -/
def sct : Nat := c.dword 3 >>> 25 &&& 0x7

/-- `CQE.crd` -/
def crd : Nat := c.dword 3 >>> 28 &&& 0x3

/-- `CQE.m` -/
def m : Nat := c.dword 3 >>> 30 &&& 0x1

/-- `CQE.dnr` -/
def dnr : Nat := c.dword 3 >>> 31 &&& 0x1

/-! ### Fields -/

open Word (field)

theorem cid_eq : c.cid = field (c.dword 3) 0 16 := Word.shiftRight_and _ 0 16

theorem p_eq : c.p = field (c.dword 3) 16 1 := Word.shiftRight_and _ 16 1

theorem sc_eq : c.sc = field (c.dword 3) 17 8 := Word.shiftRight_and _ 17 8

theorem sct_eq : c.sct = field (c.dword 3) 25 3 := Word.shiftRight_and _ 25 3

theorem crd_eq : c.crd = field (c.dword 3) 28 2 := Word.shiftRight_and _ 28 2

theorem m_eq : c.m = field (c.dword 3) 30 1 := Word.shiftRight_and _ 30 1

theorem dnr_eq : c.dnr = field (c.dword 3) 31 1 := Word.shiftRight_and _ 31 1

/-- The mask keeps the 12 low bits of the status field, and one that is above it. -/
theorem status_eq (h : c.dword 3 < 2 ^ 32) : c.status = field (c.dword 3) 17 12 := by
  have hlt : c.dword 3 >>> 17 < 2 ^ 15 := by
    rw [Nat.shiftRight_eq_div_pow]
    omega
  have hmask : (2 ^ 15 - 1 &&& 0x8fff : Nat) = 2 ^ 12 - 1 := by decide
  rw [status, ← Nat.and_two_pow_sub_one_of_lt_two_pow hlt, Nat.and_assoc, hmask,
    Word.shiftRight_and]

/-- The parts of the status field. -/
def statusParts : Nat := c.sc ||| c.sct <<< 8 ||| c.crd <<< 11 ||| c.m <<< 13 ||| c.dnr <<< 14

/-- The parts of the dword 3. -/
def parts : Nat :=
  c.cid ||| c.p <<< 16 ||| c.sc <<< 17 ||| c.sct <<< 25 ||| c.crd <<< 28 ||| c.m <<< 30 |||
    c.dnr <<< 31

theorem statusParts_eq : c.statusParts = field (c.dword 3) 17 15 := by
  rw [statusParts, sc_eq, sct_eq, crd_eq, m_eq, dnr_eq]
  rw [Word.field_or _ 17 8 3, Word.field_or _ 17 11 2, Word.field_or _ 17 13 1,
    Word.field_or _ 17 14 1]

theorem parts_eq (h : c.dword 3 < 2 ^ 32) : c.parts = c.dword 3 := by
  rw [parts, cid_eq, p_eq, sc_eq, sct_eq, crd_eq, m_eq, dnr_eq]
  rw [Word.field_or _ 0 16 1, Word.field_or _ 0 17 8, Word.field_or _ 0 25 3,
    Word.field_or _ 0 28 2, Word.field_or _ 0 30 1, Word.field_or _ 0 31 1, Word.field_of_lt h]

end Cqe

/-- The parts always give the dword 3, and the status is the status field if its three high
    bits are 0. -/
theorem cqe_accessors_iff (c : Cqe) (h : c.dword 3 < 2 ^ 32) :
    c.parts = c.dword 3 ∧ (c.status = c.statusParts ↔ c.dword 3 < 2 ^ 29) := by
  refine ⟨c.parts_eq h, ?_⟩
  rw [c.status_eq h, c.statusParts_eq, Word.field, Word.field]
  omega

/-- A status with a command retry delay of 2. -/
theorem cqe_accessors_retry_delay :
    (let c : Cqe := ⟨[0, 0, 0, 2 ^ 29], rfl⟩; c.parts = c.dword 3 ∧ ¬c.status = c.statusParts) := by
  have h := cqe_accessors_iff ⟨[0, 0, 0, 2 ^ 29], rfl⟩ (by decide)
  exact ⟨h.1, fun hstatus => absurd (h.2.1 hstatus) (by decide)⟩

/-- The status is not the status field of every entry: it is 0 if only the bit "do not retry"
    is set. -/
theorem cqe_status_do_not_retry :
    ¬∀ c : Cqe, (∀ i, c.dword i < 2 ^ 32) → c.status = c.statusParts := by
  intro h
  exact absurd (h ⟨[0, 0, 0, 2 ^ 31], rfl⟩ (by decide)) (by decide)

end Pynvme.Psd
