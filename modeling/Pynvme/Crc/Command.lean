import Pynvme.Crc.Buffer

/-!
# IO commands

The submission queue entry of an IO command (`NvmeCmd`), its encoders and its
decoders. A command over a range of LBAs carries the starting LBA in dwords 10
and 11, and the number of blocks, less one, in the low half of dword 12; a DSM
command carries the number of its ranges, less one, in dword 10, and the ranges
in its buffer.

Reads and writes, and the commands of the ioworkers, are built by `ns_cmd_io`
(`nsCmdIo`); the other commands of scripts by the methods of `Namespace`, as
raw dwords, which Cython checks to fit 32 bits (`sendIoRaw`).
-/

namespace Pynvme

open Word

/-- The fields of `struct spdk_nvme_cmd` the driver reads. -/
structure NvmeCmd where
  opc : BitVec 8
  cdw10 : BitVec 32
  cdw11 : BitVec 32
  cdw12 : BitVec 32
  cdw13 : BitVec 32 := 0#32
  cdw14 : BitVec 32 := 0#32
  cdw15 : BitVec 32 := 0#32
  deriving DecidableEq

/-- A request: the command, the queue it is sent to (`0` is the admin queue), and
    the memory its payload points to (not read for commands without data). -/
structure Request where
  cmd : NvmeCmd
  qpairId : Nat
  buf : Bytes

namespace NvmeCmd

/-- The starting LBA, `*(uint64_t*)&cmd.cdw10`. -/
def slba (cmd : NvmeCmd) : Nat := cmd.cdw10.toNat + cmd.cdw11.toNat * 2 ^ 32

/-- The 16-bit field of the number of blocks, less one. -/
def nlbField (cmd : NvmeCmd) : Nat := u16 cmd.cdw12.toNat

/-- The number of ranges of a DSM command, `(uint8_t)cmd.cdw10+1`. -/
def dsmCount (cmd : NvmeCmd) : Nat := cmd.cdw10.toNat % 2 ^ 8 + 1

theorem slba_lt (cmd : NvmeCmd) : cmd.slba < 2 ^ 64 := by
  have := cmd.cdw10.isLt
  have := cmd.cdw11.isLt
  unfold slba
  omega

theorem nlbField_lt (cmd : NvmeCmd) : cmd.nlbField < 2 ^ 16 := u16_lt _

end NvmeCmd

/-! ### Encoders -/

/-- What `ns_cmd_io` hands over to `nvme_send_cmd_raw`, and the token it leaves. -/
structure Submission where
  cmd : NvmeCmd
  buf : Bytes
  len : Nat
  token : Nat

/-- `ns_cmd_io`, on the buffer `buf` of `len` bytes; `none` is a failed assertion. -/
def nsCmdIo (opcode : BitVec 8) (lbaSize : Nat) (buf : Bytes) (len lba lbaCount ioFlags : Nat)
    (dword13 dword14 dword15 : BitVec 32) (token : Nat) : Option Submission :=
  if ioFlags &&& 0xffff ≠ 0 ∨ len < u32 (lbaCount * lbaSize) then none
  else
    let cmd : NvmeCmd :=
      { opc := opcode
        cdw10 := BitVec.ofNat 32 lba
        cdw11 := BitVec.ofNat 32 (lba / 2 ^ 32)
        cdw12 := BitVec.ofNat 32 ioFlags ||| BitVec.ofNat 32 (lbaCount + 2 ^ 32 - 1)
        cdw13 := dword13
        cdw14 := dword14
        cdw15 := dword15 }
    -- without data to transfer, no buffer is passed on
    let len := if opcode &&& 3#8 = 0#8 then 0 else min len (u32 (lbaCount * lbaSize))
    if opcode = 9#8 then
      -- trim operation: only single range
      some { cmd := { cmd with cdw10 := 0#32, cdw11 := 4#32, cdw12 := 0#32 }
             buf := (buf.writeLe 4 4 lbaCount).writeLe 8 8 lba
             len := lbaSize
             token }
    else if opcode = 1#8 then
      some { cmd, len
             buf := bufferFillRawdata buf token lba lbaCount lbaSize
             token := u64 (token + lbaCount) }
    else some { cmd, buf, len, token }

/-- `Namespace.send_io_raw` on the dwords of a command: Cython raises on those
    that are not unsigned 32-bit integers. -/
def sendIoRaw (opcode : BitVec 8) (cdw10 cdw11 cdw12 : Nat) : Option NvmeCmd :=
  if cdw10 < 2 ^ 32 ∧ cdw11 < 2 ^ 32 ∧ cdw12 < 2 ^ 32 then
    some { opc := opcode
           cdw10 := BitVec.ofNat 32 cdw10
           cdw11 := BitVec.ofNat 32 cdw11
           cdw12 := BitVec.ofNat 32 cdw12 }
  else none

/-- The raw commands over a range of LBAs. (A count of `0` is encoded as `-1`,
    and raises.) -/
def sendRange (opcode : BitVec 8) (lba lbaCount ioFlags : Nat) : Option NvmeCmd :=
  if lbaCount = 0 then none
  else sendIoRaw opcode (lba &&& 0xffffffff) (lba >>> 32) ((lbaCount - 1) ||| (ioFlags <<< 16))

namespace Namespace

/-- `Namespace.write_uncorrectable`. -/
def writeUncorrectable (lba lbaCount : Nat) : Option NvmeCmd := sendRange 4#8 lba lbaCount 0

/-- `Namespace.compare`. -/
def compare (lba lbaCount ioFlags : Nat) : Option NvmeCmd := sendRange 5#8 lba lbaCount ioFlags

/-- `Namespace.write_zeroes`. -/
def writeZeroes (lba lbaCount ioFlags : Nat) : Option NvmeCmd := sendRange 8#8 lba lbaCount ioFlags

/-- `Namespace.dsm`, with a buffer whose offset is 0. -/
def dsm (rangeCount attr : Nat) : Option NvmeCmd :=
  if rangeCount = 0 then none else sendIoRaw 9#8 (rangeCount - 1) attr 0

/-- `Namespace.flush`. -/
def flush : Option NvmeCmd := sendIoRaw 0#8 0 0 0

end Namespace

/-! ### Decoding what was encoded -/

variable {lba lbaCount ioFlags lbaSize len token : Nat} {opcode : BitVec 8} {buf : Bytes}

theorem slba_ofNat (hl : lba < 2 ^ 64) :
    (BitVec.ofNat 32 lba).toNat + (BitVec.ofNat 32 (lba / 2 ^ 32)).toNat * 2 ^ 32 = lba := by
  simp only [BitVec.toNat_ofNat]
  omega

theorem or_flags_mod (hc : 1 ≤ lbaCount) (hc' : lbaCount ≤ 2 ^ 16) (hf : ioFlags % 2 ^ 16 = 0) :
    (ioFlags ||| (lbaCount - 1)) % 2 ^ 16 = lbaCount - 1 := by
  rw [Nat.or_mod_two_pow, hf, Nat.zero_or, Nat.mod_eq_of_lt (by omega)]

/-- A command of `ns_cmd_io` other than a trim carries its range. -/
theorem nsCmdIo_range {d13 d14 d15 : BitVec 32} {s : Submission} (hop : opcode ≠ 9#8)
    (hl : lba < 2 ^ 64) (hc : 1 ≤ lbaCount) (hc' : lbaCount ≤ 2 ^ 16)
    (h : nsCmdIo opcode lbaSize buf len lba lbaCount ioFlags d13 d14 d15 token = some s) :
    s.cmd.opc = opcode ∧ s.cmd.slba = lba ∧ s.cmd.nlbField = lbaCount - 1 := by
  have hcmd : ioFlags % 2 ^ 16 = 0 ∧ s.cmd.opc = opcode ∧ s.cmd.cdw10 = BitVec.ofNat 32 lba ∧
      s.cmd.cdw11 = BitVec.ofNat 32 (lba / 2 ^ 32) ∧
      s.cmd.cdw12 = BitVec.ofNat 32 ioFlags ||| BitVec.ofNat 32 (lbaCount + 2 ^ 32 - 1) := by
    simp only [nsCmdIo, if_neg hop] at h
    split at h
    · cases h
    · rename_i hg
      have hf : ioFlags % 2 ^ 16 = 0 := by
        rw [← Nat.and_two_pow_sub_one_eq_mod]
        exact not_not.1 fun hne => hg (.inl hne)
      split at h <;> cases h <;> exact ⟨hf, rfl, rfl, rfl, rfl⟩
  obtain ⟨hf, hopc, h10, h11, h12⟩ := hcmd
  refine ⟨hopc, ?_, ?_⟩
  · rw [NvmeCmd.slba, h10, h11, slba_ofNat hl]
  · have hlow : (lbaCount + 2 ^ 32 - 1) % 2 ^ 32 = lbaCount - 1 := by omega
    rw [NvmeCmd.nlbField, h12, BitVec.toNat_or, BitVec.toNat_ofNat, BitVec.toNat_ofNat, hlow, u16]
    exact or_flags_mod hc hc' (by omega)

/-- A trim of `ns_cmd_io` carries its range in its buffer. -/
theorem nsCmdIo_trim {d13 d14 d15 : BitVec 32} {s : Submission} (hl : lba < 2 ^ 64)
    (hc : lbaCount < 2 ^ 32)
    (h : nsCmdIo 9#8 lbaSize buf len lba lbaCount ioFlags d13 d14 d15 token = some s) :
    s.cmd.opc = 9#8 ∧ s.cmd.dsmCount = 1 ∧ dsmRange s.buf 0 = ⟨lba, lbaCount⟩ := by
  simp only [nsCmdIo, if_true] at h
  split at h
  · cases h
  · cases h
    refine ⟨rfl, rfl, ?_⟩
    have hlba : ((buf.writeLe 4 4 lbaCount).writeLe 8 8 lba).readLe 8 8 = lba :=
      Bytes.readLe_writeLe_self hl
    have hcount : ((buf.writeLe 4 4 lbaCount).writeLe 8 8 lba).readLe 4 4 = lbaCount := by
      rw [Bytes.readLe_writeLe_of_disjoint (.inl (by decide)), Bytes.readLe_writeLe_self hc]
    simp only [dsmRange, hlba, hcount]

theorem dsm_count {cmd : NvmeCmd} {n attr : Nat} (hn : 1 ≤ n) (hn' : n ≤ 256)
    (h : Namespace.dsm n attr = some cmd) : cmd.opc = 9#8 ∧ cmd.dsmCount = n := by
  simp only [Namespace.dsm, sendIoRaw, if_neg (show n ≠ 0 by omega)] at h
  split at h
  · cases h
    refine ⟨rfl, ?_⟩
    simp only [NvmeCmd.dsmCount, BitVec.toNat_ofNat]
    omega
  · cases h

theorem sendRange_range {cmd : NvmeCmd} (hl : lba < 2 ^ 64) (hc : 1 ≤ lbaCount)
    (hc' : lbaCount ≤ 2 ^ 16) (h : sendRange opcode lba lbaCount ioFlags = some cmd) :
    cmd.opc = opcode ∧ cmd.slba = lba ∧ cmd.nlbField = lbaCount - 1 := by
  simp only [sendRange, sendIoRaw, if_neg (show lbaCount ≠ 0 by omega)] at h
  split at h
  · rename_i hfit
    cases h
    refine ⟨rfl, ?_, ?_⟩
    · have hlow : lba &&& 0xffffffff = lba % 2 ^ 32 := Nat.and_two_pow_sub_one_eq_mod lba 32
      simp only [NvmeCmd.slba, hlow, Nat.shiftRight_eq_div_pow, BitVec.toNat_ofNat]
      omega
    · simp only [NvmeCmd.nlbField, u16, BitVec.toNat_ofNat]
      rw [Nat.mod_eq_of_lt hfit.2.2, Nat.or_comm]
      exact or_flags_mod hc hc' (by rw [Nat.shiftLeft_eq, Nat.mul_mod_left])
  · cases h

end Pynvme
