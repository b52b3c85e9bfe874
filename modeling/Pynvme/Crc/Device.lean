import Pynvme.Crc.Lock

/-!
# A device, and the commands it executes

What the data verification assumes of a drive: a sector holds what was last
written there; a sector marked uncorrectable cannot be read or compared, until it
is written again; a deallocated one reads as zeros, as ones, or as before. Every
command is executed at once. Of its buffer the device gets, or fills, as many bytes
as were handed over with the request: nothing is assumed of what is behind them.

The scripts and the ioworkers build the commands (`IoCmd`), by `ns_cmd_io` or by
the methods of `Namespace` (`IoCmd.build`). A request whose buffer is handed over with
all the data of its command is *carried* (`Request.Carried`).
-/

namespace Pynvme

open Word

instance (req : Request) (lba : Nat) : Decidable (req.Covers lba) :=
  inferInstanceAs (Decidable (if isRangeOpc req.cmd.opc then _ else if isDsmOpc req.cmd.opc then
    ∃ i < req.cmd.dsmCount, _ else False))

/-! ### Execution -/

/-- The contents of the sectors, and those that are marked uncorrectable. -/
structure Device where
  media : Nat → Bytes
  uncorr : Nat → Bool

/-- What a deallocated sector reads as. -/
inductive Deallocated
  | zeros
  | ones
  | kept
  deriving DecidableEq

/-- What is left to the device: the status of a command that fails, the data it
    has transferred by then, the sectors after a deallocation, and what it takes for
    the data behind those it gets. -/
structure Outcome where
  error : Status
  data : Bytes
  sector : Nat → Deallocated
  rest : Bytes

/-- The first `len` bytes of `data`, over those of `old`. -/
def transfer (len : Nat) (data old : Bytes) : Bytes := fun a => if a < len then data a else old a

namespace Device

/-- A sector of the command is uncorrectable. -/
def Unreadable (dev : Device) (cmd : NvmeCmd) : Prop :=
  ∃ i < cmd.nlbField + 1, dev.uncorr (cmd.slba + i) = true

instance (dev : Device) (cmd : NvmeCmd) : Decidable (dev.Unreadable cmd) :=
  inferInstanceAs (Decidable (∃ i < cmd.nlbField + 1, _))

/-- The sectors of the command hold the data of the buffer. -/
def Holds (dev : Device) (sectorSize : Nat) (cmd : NvmeCmd) (buf : Bytes) : Prop :=
  ∀ i < cmd.nlbField + 1, ∀ b < sectorSize,
    dev.media (cmd.slba + i) b = buf (i * sectorSize + b)

instance (dev : Device) (sectorSize : Nat) (cmd : NvmeCmd) (buf : Bytes) :
    Decidable (dev.Holds sectorSize cmd buf) :=
  inferInstanceAs (Decidable (∀ i < cmd.nlbField + 1, ∀ b < sectorSize, _))

/-- The buffer after a read. -/
def readInto (dev : Device) (sectorSize : Nat) (req : Request) : Bytes := fun a =>
  if a < (req.cmd.nlbField + 1) * sectorSize then
    dev.media (req.cmd.slba + a / sectorSize) (a % sectorSize)
  else req.buf a

/-- The execution of a request with `len` bytes of its buffer: the device, the request
    with the data in its buffer, and the status. -/
def exec (dev : Device) (sectorSize len : Nat) (req : Request) (o : Outcome) :
    Device × Request × Status :=
  let sent : Request := { req with buf := transfer len req.buf o.rest }
  if req.cmd.opc = 1#8 then
    ({ media := fun j b => if req.Covers j then sent.buf ((j - req.cmd.slba) * sectorSize + b)
        else dev.media j b
       uncorr := fun j => if req.Covers j then false else dev.uncorr j }, req, .success)
  else if req.cmd.opc = 2#8 then
    if dev.Unreadable req.cmd then (dev, req.withData (transfer len o.data req.buf), o.error)
    else (dev, req.withData (transfer len (dev.readInto sectorSize req) req.buf), .success)
  else if req.cmd.opc = 4#8 then
    ({ dev with uncorr := fun j => if req.Covers j then true else dev.uncorr j }, req, .success)
  else if req.cmd.opc = 5#8 then
    if dev.Unreadable req.cmd ∨ ¬dev.Holds sectorSize req.cmd sent.buf then (dev, req, o.error)
    else (dev, req, .success)
  else if req.cmd.opc = 8#8 then
    ({ media := fun j b => if req.Covers j then 0#8 else dev.media j b
       uncorr := fun j => if req.Covers j then false else dev.uncorr j }, req, .success)
  -- the attribute Deallocate of a DSM command is bit 2 of dword 11
  else if req.cmd.opc = 9#8 ∧ req.cmd.cdw11.getLsbD 2 then
    ({ media := fun j b => if sent.Covers j then
          match o.sector j with
          | .zeros => 0#8
          | .ones => 0xff#8
          | .kept => dev.media j b
        else dev.media j b
       uncorr := fun j => if sent.Covers j ∧ o.sector j ≠ .kept then false else dev.uncorr j },
      req, .success)
  else (dev, req, .success)

end Device

/-! ### Building commands -/

/-- The IO commands of the scripts and the ioworkers, with their parameters; `len` is the
    size of the buffer. -/
inductive IoCmd
  | io (opcode : BitVec 8) (buf : Bytes) (len lba lbaCount ioFlags : Nat)
      (dword13 dword14 dword15 : BitVec 32)
  | writeUncorrectable (lba lbaCount : Nat)
  | compare (buf : Bytes) (len lba lbaCount ioFlags : Nat)
  | writeZeroes (lba lbaCount ioFlags : Nat)
  | dsm (buf : Bytes) (len rangeCount attr : Nat)
  | flush

/-- What `nvme_send_cmd_raw` gets for a command: the request, and the number of bytes of
    its buffer; and the token for the next write. -/
structure Built where
  req : Request
  len : Nat
  token : Nat

/-- The request of a command, for the queue `q`; `none` is a failed assertion, or an
    exception. -/
def IoCmd.build (ns : Ns) (q token : Nat) : IoCmd → Option Built
  | .io opcode buf len lba lbaCount ioFlags d13 d14 d15 =>
    (nsCmdIo opcode ns.sectorSize buf len lba lbaCount ioFlags d13 d14 d15 token).map fun s =>
      ⟨⟨s.cmd, q, s.buf⟩, s.len, s.token⟩
  | .writeUncorrectable lba lbaCount =>
    (Namespace.writeUncorrectable lba lbaCount).map fun cmd => ⟨⟨cmd, q, fun _ => 0#8⟩, 0, token⟩
  | .compare buf len lba lbaCount ioFlags =>
    (Namespace.compare lba lbaCount ioFlags).map fun cmd => ⟨⟨cmd, q, buf⟩, len, token⟩
  | .writeZeroes lba lbaCount ioFlags =>
    (Namespace.writeZeroes lba lbaCount ioFlags).map fun cmd =>
      ⟨⟨cmd, q, fun _ => 0#8⟩, 0, token⟩
  | .dsm buf len rangeCount attr =>
    -- most range count is 256B
    if len ≤ 4096 then (Namespace.dsm rangeCount attr).map fun cmd => ⟨⟨cmd, q, buf⟩, len, token⟩
    else none
  | .flush => Namespace.flush.map fun cmd => ⟨⟨cmd, q, fun _ => 0#8⟩, 0, token⟩

/-- The range of a command lies inside the namespace, and has `1` to `65535` blocks. -/
def InsideNs (ns : Ns) (lba lbaCount : Nat) : Prop :=
  1 ≤ lbaCount ∧ lbaCount ≤ 65535 ∧ lba + lbaCount ≤ ns.numSectors

/-- The commands considered: their ranges lie inside the namespace, and have at
    most `65535` blocks; those of a DSM command are in its buffer. -/
def IoCmd.Inside (ns : Ns) : IoCmd → Prop
  | .io opcode _ _ lba lbaCount _ _ _ _ =>
    (isRangeOpc opcode = true ∨ isDsmOpc opcode = true) ∧ InsideNs ns lba lbaCount
  | .writeUncorrectable lba lbaCount => InsideNs ns lba lbaCount
  | .compare _ _ lba lbaCount _ => InsideNs ns lba lbaCount
  | .writeZeroes lba lbaCount _ => InsideNs ns lba lbaCount
  | .dsm buf len rangeCount _ => 1 ≤ rangeCount ∧ rangeCount * 16 ≤ len ∧ ∀ i < rangeCount,
      (dsmRange buf i).length ≤ 65535 ∧
        (dsmRange buf i).startingLba + (dsmRange buf i).length ≤ ns.numSectors
  | .flush => True

/-- The number of bytes that `ns_cmd_io` reads or writes fits in 32 bits. -/
def IoCmd.FitsLength (ns : Ns) : IoCmd → Prop
  | .io opcode _ _ _ lbaCount _ _ _ _ =>
    opcode = 1#8 ∨ opcode = 2#8 → lbaCount * ns.sectorSize < 2 ^ 32
  | _ => True

/-! ### What a built request carries -/

/-- What holds of the requests that are built, for sectors of `sectorSize` bytes:
    their LBAs are below `2 ^ 62`, and the sectors of a write carry their LBAs. -/
structure Request.Good (sectorSize : Nat) (req : Request) : Prop where
  small : req.Small
  lt : ∀ j, req.Covers j → j < 2 ^ 62
  stamped : req.cmd.opc = 1#8 → ∀ i < req.cmd.nlbField + 1,
    req.buf.readLe (i * sectorSize) 8 = req.cmd.slba + i

variable {ns : Ns} {req : Request} {lba lbaCount sectorSize : Nat}

theorem Request.covers_of_isRangeOpc (h : isRangeOpc req.cmd.opc = true) {j : Nat} :
    req.Covers j ↔ req.cmd.slba ≤ j ∧ j < req.cmd.slba + (req.cmd.nlbField + 1) := by
  rw [Request.Covers, if_pos h]

theorem Request.covers_of_isDsmOpc (h : isDsmOpc req.cmd.opc = true) {j : Nat} :
    req.Covers j ↔ ∃ i < req.cmd.dsmCount, (dsmRange req.buf i).startingLba ≤ j ∧
      j < (dsmRange req.buf i).startingLba + (dsmRange req.buf i).length := by
  rw [Request.Covers, isRangeOpc_of_isDsmOpc h, if_neg Bool.false_ne_true, if_pos h]

theorem Request.good_of_range (hns : ns.numSectors < 2 ^ 62) (hq : req.qpairId ≠ 0)
    (hop : isRangeOpc req.cmd.opc = true) (hin : InsideNs ns lba lbaCount)
    (hslba : req.cmd.slba = lba) (hnlb : req.cmd.nlbField = lbaCount - 1)
    (hst : req.cmd.opc = 1#8 → ∀ i < lbaCount, req.buf.readLe (i * sectorSize) 8 = lba + i) :
    req.Good sectorSize := by
  obtain ⟨h1, h2, h3⟩ := hin
  have hn : req.cmd.nlbField + 1 = lbaCount := by omega
  refine ⟨⟨hq, fun _ => by omega, fun hd => ?_⟩, fun j hj => ?_, fun h => ?_⟩
  · rw [isRangeOpc_of_isDsmOpc hd] at hop
    cases hop
  · rw [Request.covers_of_isRangeOpc hop] at hj
    omega
  · rw [hn, hslba]
    exact hst h

theorem Request.good_of_sendRange {opc : BitVec 8} {cmd : NvmeCmd} {buf : Bytes} {q ioFlags : Nat}
    (hns : ns.numSectors < 2 ^ 62) (hq : q ≠ 0) (hop : isRangeOpc opc = true) (hne : opc ≠ 1#8)
    (hin : InsideNs ns lba lbaCount) (h : sendRange opc lba lbaCount ioFlags = some cmd) :
    Request.Good sectorSize ⟨cmd, q, buf⟩ := by
  obtain ⟨h1, h2, h3⟩ := hin
  obtain ⟨hopc, hslba, hnlb⟩ := sendRange_range (by omega) h1 (by omega) h
  exact good_of_range hns hq (by rw [hopc]; exact hop) ⟨h1, h2, h3⟩ hslba hnlb fun hw =>
    absurd (hopc.symm.trans hw) hne

theorem Request.good_of_dsm (hns : ns.numSectors < 2 ^ 62) (hq : req.qpairId ≠ 0)
    (hop : req.cmd.opc = 9#8) (hin : ∀ i < req.cmd.dsmCount, (dsmRange req.buf i).length ≤ 65535 ∧
      (dsmRange req.buf i).startingLba + (dsmRange req.buf i).length ≤ ns.numSectors) :
    req.Good sectorSize := by
  have hd : isDsmOpc req.cmd.opc = true := by rw [hop]; rfl
  refine ⟨⟨hq, fun hr => ?_, fun _ i hi => ?_⟩, fun j hj => ?_, fun h => ?_⟩
  · rw [isRangeOpc_of_isDsmOpc hd] at hr
    cases hr
  · have := hin i hi
    omega
  · obtain ⟨i, hi, hs, hlt⟩ := (Request.covers_of_isDsmOpc hd).1 hj
    have := hin i hi
    omega
  · rw [hop] at h
    exact absurd h (by decide)

/-- The data of a request for sectors of `sectorSize` bytes, or its ranges, are in the
    `len` bytes of the buffer that are handed over. -/
structure Request.Carried (sectorSize len : Nat) (req : Request) : Prop where
  data : req.cmd.opc = 1#8 ∨ req.cmd.opc = 2#8 → (req.cmd.nlbField + 1) * sectorSize ≤ len
  ranges : isDsmOpc req.cmd.opc = true → req.cmd.dsmCount * 16 ≤ len

theorem Request.carried_of_sendRange {opc : BitVec 8} {cmd : NvmeCmd} {buf : Bytes}
    {q ioFlags len : Nat} (hop : isRangeOpc opc = true) (h1 : opc ≠ 1#8) (h2 : opc ≠ 2#8)
    (hin : InsideNs ns lba lbaCount) (hns : ns.numSectors < 2 ^ 62)
    (h : sendRange opc lba lbaCount ioFlags = some cmd) :
    Request.Carried sectorSize len ⟨cmd, q, buf⟩ := by
  obtain ⟨hn, hn', hle⟩ := hin
  obtain ⟨rfl, -, -⟩ := sendRange_range (by omega) hn (by omega) h
  refine ⟨fun hdata => hdata.elim (absurd · h1) (absurd · h2), fun hd => ?_⟩
  rw [isRangeOpc_of_isDsmOpc hd] at hop
  cases hop

/-- The bytes of a read or a write that `ns_cmd_io` hands over, in 32 bits. -/
theorem nsCmdIo_len {opcode : BitVec 8} {buf : Bytes} {len ioFlags token : Nat}
    {d13 d14 d15 : BitVec 32} {s : Submission} (hop : opcode = 1#8 ∨ opcode = 2#8)
    (h : nsCmdIo opcode sectorSize buf len lba lbaCount ioFlags d13 d14 d15 token = some s) :
    s.len = u32 (lbaCount * sectorSize) := by
  simp only [nsCmdIo] at h
  split at h
  · cases h
  · rename_i hguard
    have hmin : min len (u32 (lbaCount * sectorSize)) = u32 (lbaCount * sectorSize) := by
      omega
    rcases hop with rfl | rfl
    · rw [if_neg (by decide), if_pos rfl] at h
      cases h
      rw [if_neg (by decide)]
      exact hmin
    · rw [if_neg (by decide), if_neg (by decide)] at h
      cases h
      rw [if_neg (by decide)]
      exact hmin

theorem nsCmdIo_trim_len {buf : Bytes} {len ioFlags token : Nat} {d13 d14 d15 : BitVec 32}
    {s : Submission} (h : nsCmdIo 9#8 sectorSize buf len lba lbaCount ioFlags d13 d14 d15 token =
      some s) : s.len = sectorSize := by
  simp only [nsCmdIo, if_true] at h
  split at h
  · cases h
  · cases h
    rfl

theorem nsCmdIo_write {buf : Bytes} {len ioFlags token : Nat} {d13 d14 d15 : BitVec 32}
    {s : Submission} (h : nsCmdIo 1#8 sectorSize buf len lba lbaCount ioFlags d13 d14 d15 token =
      some s) : s.buf = bufferFillRawdata buf token lba lbaCount sectorSize := by
  simp only [nsCmdIo] at h
  split at h
  · cases h
  · rw [if_neg (by decide), if_pos trivial] at h
    cases h
    rfl

/-- The requests of the commands considered. -/
theorem IoCmd.good_of_build {c : IoCmd} {q token : Nat} {b : Built} (hns : ns.numSectors < 2 ^ 62)
    (hsize : 16 ≤ ns.sectorSize) (hq : q ≠ 0) (hin : c.Inside ns) (hfit : c.FitsLength ns)
    (h : c.build ns q token = some b) :
    b.req.Good ns.sectorSize ∧ b.req.Carried ns.sectorSize b.len := by
  cases c with
  | io opcode buf len lba lbaCount ioFlags d13 d14 d15 =>
    obtain ⟨s, hs, rfl⟩ := Option.map_eq_some_iff.1 h
    obtain ⟨hop, h1, h2, h3⟩ := hin
    rcases hop with hop | hop
    · have hne := ne_dsm_of_isRangeOpc hop
      obtain ⟨hopc, hslba, hnlb⟩ := nsCmdIo_range hne (by omega) h1 (by omega) hs
      refine ⟨Request.good_of_range hns hq (by rw [hopc]; exact hop) ⟨h1, h2, h3⟩ hslba hnlb
        fun hw i hi => ?_, ⟨fun hdata => ?_, fun hd => ?_⟩⟩
      · obtain rfl : opcode = 1#8 := hopc.symm.trans hw
        have hle := Nat.mul_le_mul_right ns.sectorSize (Nat.sub_le lbaCount 1)
        rw [nsCmdIo_write hs, bufferFillRawdata_lba hsize (hle.trans_lt (hfit (.inl rfl))) hi,
          u64_of_lt (by omega)]
      · rw [hopc] at hdata
        have hlt : lbaCount * ns.sectorSize < 2 ^ 32 := hfit hdata
        dsimp only
        rw [hnlb, Nat.sub_add_cancel h1, nsCmdIo_len hdata hs, u32_of_lt hlt]
      · rw [hopc, isRangeOpc_of_isDsmOpc hd] at *
        cases hop
    · obtain rfl : opcode = 9#8 := by simpa [isDsmOpc] using hop
      obtain ⟨hopc, hcount, hrange⟩ := nsCmdIo_trim (by omega) (by omega) hs
      refine ⟨Request.good_of_dsm hns hq hopc fun i hi => ?_, ⟨fun hdata => ?_, fun _ => ?_⟩⟩
      · obtain rfl : i = 0 := Nat.lt_one_iff.1 (hcount ▸ hi)
        rw [hrange]
        exact ⟨h2, h3⟩
      · dsimp only at hdata
        rw [hopc] at hdata
        exact absurd hdata (by decide)
      · dsimp only
        rw [hcount, nsCmdIo_trim_len hs]
        exact hsize
  | writeUncorrectable lba lbaCount =>
    obtain ⟨cmd, hs, rfl⟩ := Option.map_eq_some_iff.1 h
    exact ⟨Request.good_of_sendRange hns hq rfl (by decide) hin hs,
      Request.carried_of_sendRange rfl (by decide) (by decide) hin hns hs⟩
  | compare buf len lba lbaCount ioFlags =>
    obtain ⟨cmd, hs, rfl⟩ := Option.map_eq_some_iff.1 h
    exact ⟨Request.good_of_sendRange hns hq rfl (by decide) hin hs,
      Request.carried_of_sendRange rfl (by decide) (by decide) hin hns hs⟩
  | writeZeroes lba lbaCount ioFlags =>
    obtain ⟨cmd, hs, rfl⟩ := Option.map_eq_some_iff.1 h
    exact ⟨Request.good_of_sendRange hns hq rfl (by decide) hin hs,
      Request.carried_of_sendRange rfl (by decide) (by decide) hin hns hs⟩
  | dsm buf len rangeCount attr =>
    obtain ⟨hle, h⟩ := Option.ite_none_right_eq_some.1 h
    obtain ⟨cmd, hs, rfl⟩ := Option.map_eq_some_iff.1 h
    obtain ⟨h1, h2, h3⟩ := hin
    obtain ⟨hopc, hcount⟩ := dsm_count h1 (by omega) hs
    refine ⟨Request.good_of_dsm hns hq hopc fun i hi => h3 i (hcount ▸ hi), fun hdata => ?_,
      fun _ => hcount.symm ▸ h2⟩
    dsimp only at hdata
    rw [hopc] at hdata
    exact absurd hdata (by decide)
  | flush =>
    obtain rfl := Option.some.inj h
    refine ⟨⟨⟨hq, fun h => ?_, fun h => ?_⟩, fun j hj => ?_, fun h => ?_⟩, fun h => ?_, fun h => ?_⟩
    · simp [isRangeOpc] at h
    · simp [isDsmOpc] at h
    · simp [Request.Covers, isRangeOpc, isDsmOpc] at hj
    · simp at h
    · simp at h
    · simp [isDsmOpc] at h

/-! ### What an execution does -/

/-- The commands that change the sectors they cover. -/
def Request.Mutates (req : Request) : Prop :=
  req.cmd.opc = 1#8 ∨ req.cmd.opc = 4#8 ∨ req.cmd.opc = 8#8 ∨ req.cmd.opc = 9#8

variable {dev dev' : Device} {o : Outcome} {status : Status} {len j : Nat}

/-- An execution changes the data of a read, and no other buffer. -/
theorem Device.exec_request (dev : Device) (sectorSize len : Nat) (req : Request) (o : Outcome) :
    ∃ buf, (dev.exec sectorSize len req o).2.1 = req.withData buf ∧
      (req.cmd.opc ≠ 2#8 → buf = req.buf) := by
  have hself : req = req.withData req.buf := by
    rw [Request.withData]
    split_ifs <;> rfl
  rw [Device.exec]
  dsimp only
  split_ifs with h1 h2 h3 h4 h5 h6 h7 h8
  · exact ⟨_, hself, fun _ => rfl⟩
  · exact ⟨_, rfl, fun h => absurd h2 h⟩
  · exact ⟨_, rfl, fun h => absurd h2 h⟩
  all_goals exact ⟨_, hself, fun _ => rfl⟩

theorem Device.exec_of_not_mutates (h : ¬req.Mutates) :
    (dev.exec sectorSize len req o).1 = dev := by
  simp only [Request.Mutates, not_or] at h
  obtain ⟨h1, h4, h8, h9⟩ := h
  rw [Device.exec]
  dsimp only
  rw [if_neg h1]
  split_ifs with h2 hu h5 hm h7
  · rfl
  · rfl
  · rfl
  · rfl
  · exact absurd h7.1 h9
  · rfl

theorem transfer_of_lt {data old : Bytes} {a : Nat} (h : a < len) :
    transfer len data old a = data a :=
  if_pos h

/-- The device gets all ranges of a DSM command that is carried. -/
theorem Request.Carried.covers (h : req.Carried sectorSize len) {rest : Bytes} :
    { req with buf := transfer len req.buf rest }.Covers j ↔ req.Covers j := by
  by_cases hd : isDsmOpc req.cmd.opc = true
  · have hrange : ∀ i < req.cmd.dsmCount,
        dsmRange (transfer len req.buf rest) i = dsmRange req.buf i := fun i hi => by
      have hle := h.ranges hd
      simp only [dsmRange]
      rw [Bytes.readLe_congr fun k hk => transfer_of_lt (by omega),
        Bytes.readLe_congr fun k hk => transfer_of_lt (by omega)]
    simp only [Request.Covers, isRangeOpc_of_isDsmOpc hd, hd, if_true, Bool.false_eq_true, if_false]
    exact exists_congr fun i => and_congr_right fun hi => by rw [hrange i hi]
  · simp only [Request.Covers, hd, Bool.false_eq_true, if_false]

/-- An execution changes no sector that its request does not cover. -/
theorem Device.exec_of_not_covers (hcar : req.Carried sectorSize len) (h : ¬req.Covers j) :
    (dev.exec sectorSize len req o).1.media j = dev.media j ∧
      (dev.exec sectorSize len req o).1.uncorr j = dev.uncorr j := by
  rw [Device.exec]
  dsimp only
  split_ifs <;> simp [h, hcar.covers]

/-- The first words of the sectors are their LBAs, or those of sectors without data. -/
def Device.Stamped (dev : Device) : Prop := ∀ j, lbaMatches ((dev.media j).readLe 0 8) j = true

theorem lbaMatches_zeros (j : Nat) : lbaMatches (Bytes.readLe (fun _ => 0#8) 0 8) j = true := by
  simp [lbaMatches, Bytes.readLe_zeros]

theorem lbaMatches_ones (j : Nat) : lbaMatches (Bytes.readLe (fun _ => 0xff#8) 0 8) j = true := by
  have : Bytes.readLe (fun _ => 0xff#8) 0 8 = 2 ^ 64 - 1 := by decide
  simp [lbaMatches, this]

/-- The bytes of the sectors of a read or a write are among those handed over. -/
theorem Request.Carried.offset_lt (h : req.Carried sectorSize len)
    (hop : req.cmd.opc = 1#8 ∨ req.cmd.opc = 2#8) {i b : Nat} (hi : i < req.cmd.nlbField + 1)
    (hb : b < sectorSize) : i * sectorSize + b < len :=
  calc i * sectorSize + b < i * sectorSize + sectorSize := by omega
    _ ≤ (req.cmd.nlbField + 1) * sectorSize := sector_add_le sectorSize hi
    _ ≤ len := h.data hop

theorem Device.Stamped.exec (h : dev.Stamped) (hsize : 8 ≤ sectorSize) (hg : req.Good sectorSize)
    (hcar : req.Carried sectorSize len) : (dev.exec sectorSize len req o).1.Stamped := by
  intro j
  by_cases hc : req.Covers j
  · have hj := h j
    rw [Device.exec]
    dsimp only
    split_ifs with h1 h2 h3 h4 h5 h6 h7
    · obtain ⟨hs, hlt⟩ := (Request.covers_of_isRangeOpc (by rw [h1]; rfl)).1 hc
      have hword : Bytes.readLe (fun b => transfer len req.buf o.rest
          ((j - req.cmd.slba) * sectorSize + b)) 0 8 =
          req.buf.readLe ((j - req.cmd.slba) * sectorSize) 8 :=
        Bytes.readLe_congr fun k hk => by
          rw [Nat.zero_add]
          exact transfer_of_lt (hcar.offset_lt (.inl h1) (by omega) (by omega))
      simp only [hc, if_true]
      rw [hword, hg.stamped h1 _ (by omega)]
      simp [lbaMatches, Nat.add_sub_cancel' hs]
    · exact hj
    · exact hj
    · exact hj
    · exact hj
    · exact hj
    · simpa only [hc, if_true] using lbaMatches_zeros j
    · simp only [hcar.covers, hc, if_true]
      rcases ho : o.sector j
      · exact lbaMatches_zeros j
      · exact lbaMatches_ones j
      · exact hj
    · exact hj
  · rw [(Device.exec_of_not_covers hcar hc).1]
    exact h j

end Pynvme
