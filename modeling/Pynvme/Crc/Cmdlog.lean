import Pynvme.Crc.Command

/-!
# Locking, updating and verifying at submission and completion

A request is sent to the device only when `crc32_lock_lba` has locked its LBAs
(`crc32LockLba`); at its completion, `cmdlog_cmd_cpl` updates the CRC table for
write-like commands and verifies the data of reads (`cmdlogCmdCpl`), and then
`crc32_unlock_lba` clears the locks (`crc32UnlockLba`).

`cmdlogVerifyCrc_eq_zero_iff` is the verdict of the verification, exactly: the
second attempt that a failed verification of the LBAs makes, with the LBA found
in the buffer, never changes it.
-/

namespace Pynvme

open Word

/-- The status of a completion: the status code and its type. -/
structure Status where
  sc : BitVec 8
  sct : BitVec 3
  deriving DecidableEq

/-- The status of a successful completion. -/
def Status.success : Status := ⟨0#8, 0#3⟩

/-- `spdk_nvme_cpl_is_error`. -/
def Status.isError (s : Status) : Bool := s.sc != 0#8 || s.sct != 0#3

/-- The vendor specific status that reports a failed verification. -/
def Status.verifyFail : Status := ⟨0x81#8, 7#3⟩

/-- The commands that cover the range of LBAs in their dwords: write, read, write
    uncorrectable, compare and write zeroes. -/
def isRangeOpc (opc : BitVec 8) : Bool :=
  opc == 1#8 || opc == 2#8 || opc == 4#8 || opc == 5#8 || opc == 8#8

/-- The commands that cover the ranges of LBAs in their buffer. -/
def isDsmOpc (opc : BitVec 8) : Bool := opc == 9#8

/-! ### Locks -/

/-- `crc32_lock_lba`, for a request to the namespace `ns`: the namespace after
    the attempt, and if it succeeded. -/
def crc32LockLba (ns : Ns) (req : Request) : Ns × Bool :=
  if req.qpairId = 0 then (ns, true)
  else if isRangeOpc req.cmd.opc then
    if crc32CheckLockBits ns req.cmd.slba (req.cmd.nlbField + 1) then (ns, false)
    else (crc32SetLockBits ns req.cmd.slba (req.cmd.nlbField + 1) true, true)
  else if isDsmOpc req.cmd.opc then
    if (List.range req.cmd.dsmCount).any fun i =>
      crc32CheckLockBits ns (dsmRange req.buf i).startingLba (dsmRange req.buf i).length
    then (ns, false)
    else (forLoop req.cmd.dsmCount (fun i ns => crc32SetLockBits ns
      (dsmRange req.buf i).startingLba (dsmRange req.buf i).length true) ns, true)
  -- other no data command like flush
  else (ns, true)

/-- `crc32_unlock_lba`. -/
def crc32UnlockLba (ns : Ns) (req : Request) : Ns :=
  if req.qpairId = 0 then ns
  else if isRangeOpc req.cmd.opc then
    crc32SetLockBits ns req.cmd.slba (req.cmd.nlbField + 1) false
  else if isDsmOpc req.cmd.opc then
    forLoop req.cmd.dsmCount (fun i ns => crc32SetLockBits ns
      (dsmRange req.buf i).startingLba (dsmRange req.buf i).length false) ns
  else ns

/-! ### Completions -/

variable (crc32c : List (BitVec 8) → BitVec 32)

/-- The number of blocks as `cmdlog_update_crc_io` and `cmdlog_verify_crc` decode
    it, in 16 bits. -/
def NvmeCmd.lbaCount (cmd : NvmeCmd) : Nat := u16 (cmd.nlbField + 1)

/-- `cmdlog_update_crc_io`. -/
def cmdlogUpdateCrcIo (cmd : NvmeCmd) (ns : Ns) (buf : Bytes) : Ns :=
  if cmd.opc = 1#8 then bufferUpdateCrc crc32c ns buf cmd.slba cmd.lbaCount ns.sectorSize
  else if cmd.opc = 4#8 then crc32Clear ns cmd.slba (cmd.lbaCount * 4) true
  else if cmd.opc = 8#8 then crc32Clear ns cmd.slba (cmd.lbaCount * 4) false
  else if cmd.opc = 9#8 then crc32ClearRanges ns buf cmd.dsmCount
  else ns

/-- `cmdlog_update_crc`: on the admin queue, a sanitize clears the tables. -/
def cmdlogUpdateCrc (ns : Ns) (req : Request) : Ns :=
  if req.qpairId = 0 then
    if req.cmd.opc = 0x84#8 then crc32Clear ns 0 ns.tableSize false else ns
  else cmdlogUpdateCrcIo crc32c req.cmd ns req.buf

/-- `cmdlog_verify_crc`. -/
def cmdlogVerifyCrc (ns : Ns) (req : Request) : Int :=
  if req.qpairId ≠ 0 ∧ req.cmd.opc = 2#8 then
    let lba := req.cmd.slba
    let lbaCount := req.cmd.lbaCount
    if (ns.crcTable.map CrcTable.enabled).getD false then
      if bufferVerifyLba req.buf lba lbaCount ns.sectorSize = 0 then
        bufferVerifyData crc32c ns req.buf lba lbaCount ns.sectorSize
      else
        -- lba wrong, verify crc with expected lba, instead of given lba
        let expectedLba := req.buf.readLe 0 8
        let ret := bufferVerifyData crc32c ns req.buf expectedLba lbaCount ns.sectorSize
        if ret = 0 then -2 else ret
    else 0
  else 0

/-- What `cmdlog_cmd_cpl` does to the table, and to the status of the completion. -/
def cmdlogCmdCpl (ns : Ns) (req : Request) (status : Status) : Ns × Status :=
  if !status.isError || req.cmd.opc == 4#8 then
    let ns := cmdlogUpdateCrc crc32c ns req
    (ns, if cmdlogVerifyCrc crc32c ns req ≠ 0 then .verifyFail else status)
  else (ns, status)

variable {crc32c} {ns : Ns} {req : Request}

@[simp] theorem shape_clearRanges (buf : Bytes) (count : Nat) :
    (crc32ClearRanges ns buf count).shape = ns.shape :=
  forLoop_induction (I := fun _ (ns' : Ns) => ns'.shape = ns.shape) rfl fun _ _ _ h => by
    rw [shape_clear, h]

@[simp] theorem shape_updateCrcIo (cmd : NvmeCmd) (buf : Bytes) :
    (cmdlogUpdateCrcIo crc32c cmd ns buf).shape = ns.shape := by
  unfold cmdlogUpdateCrcIo
  split_ifs <;> simp

/-! ### The verdict on a read -/

/-- A failed verification of the LBAs is never made good by the second attempt,
    whatever the LBA found in the buffer. -/
theorem cmdlogVerifyCrc_eq_zero_iff_verify (hq : req.qpairId ≠ 0) (hop : req.cmd.opc = 2#8)
    (hen : ns.crcTable.map CrcTable.enabled = some true) :
    cmdlogVerifyCrc crc32c ns req = 0 ↔
      bufferVerifyLba req.buf req.cmd.slba req.cmd.lbaCount ns.sectorSize = 0 ∧
        bufferVerifyData crc32c ns req.buf req.cmd.slba req.cmd.lbaCount ns.sectorSize = 0 := by
  simp only [cmdlogVerifyCrc, hq, hop, hen, ne_eq, not_false_eq_true, and_self, if_true,
    Option.getD_some]
  split_ifs with hlba hdata
  · simp [hlba]
  · simp [hlba]
  · simp [hlba, hdata]

/-- The verification of a read of `n` blocks at `lba` accepts its buffer exactly
    when every sector carries its LBA, or none, and every sector of the table
    matches its entry, unless it has no mapping. -/
theorem cmdlogVerifyCrc_eq_zero_iff {lba n : Nat} (hq : req.qpairId ≠ 0) (hop : req.cmd.opc = 2#8)
    (hlba : req.cmd.slba = lba) (hn : req.cmd.nlbField + 1 = n) (hn' : n < 2 ^ 16)
    (hen : ns.crcTable.map CrcTable.enabled = some true) :
    cmdlogVerifyCrc crc32c ns req = 0 ↔
      (∀ i < n, req.buf.readLe (i * ns.sectorSize) 8 = u64 (lba + i) ∨
        req.buf.readLe (i * ns.sectorSize) 8 = 0 ∨
        req.buf.readLe (i * ns.sectorSize) 8 = 2 ^ 64 - 1) ∧
      ∀ i < n, u64 (lba + i) < ns.entries →
        crcOf (ns.entry (u64 (lba + i))) = 0#32 ∨
        (crcOf (ns.entry (u64 (lba + i))) ≠ 0x7fffffff#32 ∧
          crcOf (ns.entry (u64 (lba + i))) =
            bufferCalcCsum crc32c req.buf (i * ns.sectorSize) ns.sectorSize) := by
  have hcount : req.cmd.lbaCount = n := by
    rw [NvmeCmd.lbaCount, hn, u16_of_lt hn']
  rw [cmdlogVerifyCrc_eq_zero_iff_verify hq hop hen, hlba, hcount, bufferVerifyLba_eq_zero_iff,
    bufferVerifyData_eq_zero_iff]
  refine and_congr (forall₂_congr fun i _ => ?_) (forall₂_congr fun i _ => ?_)
  · simp [lbaMatches, or_assoc]
  · exact verifySector_eq_none_iff

/-- A read of two blocks from a formatted namespace, with the wrong LBA in its
    second sector, is not accepted. -/
theorem cmdlogVerifyCrc_wrong_lba :
    let ns := Ns.formatted 8 512 8 (by decide) (by decide) (by decide)
    let req : Request :=
      ⟨⟨2#8, 3#32, 0#32, 1#32, 0#32, 0#32, 0#32⟩, 1, Bytes.writeLe (fun _ => 0#8) 512 8 7⟩
    cmdlogVerifyCrc (fun _ => 0#32) ns req ≠ 0 := by
  intro ns req h
  have hv := (cmdlogVerifyCrc_eq_zero_iff (show req.qpairId ≠ 0 by decide) rfl
    (show req.cmd.slba = 3 by decide) (show req.cmd.nlbField + 1 = 2 by decide) (by decide) rfl).1 h
  have hword : req.buf.readLe (1 * ns.sectorSize) 8 = 7 := by decide
  have := hv.1 1 (by decide)
  rw [hword] at this
  revert this
  decide

end Pynvme
