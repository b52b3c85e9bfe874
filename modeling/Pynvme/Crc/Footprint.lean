import Pynvme.Crc.Lock
import Mathlib.Data.Set.Basic

/-!
# Who touches which LBAs

A command names its LBAs once, when it is encoded; five decoders read them back,
each with integers of its own width: the check of the locks, the locking and the
unlocking, the update of the checksums, and the verification of a read.

The footprint of each of them is the set of entries it looks at or changes, found
by probing it with a table that tells: an entry is *tested* if a lock on it alone
makes the attempt fail, *locked* if an attempt locks it, *unlocked* if its lock is
cleared, *updated* if a completion may change it, and *verified* if a read fails
when this entry alone is marked uncorrectable.

All of them are to be the encoded ranges, clipped to the table (`Agree`). They are,
exactly under the conditions of `FitsWidths` (`agree_iff`): the 16-bit counts cut
ranges of `65536` blocks or more, and the 64-bit byte offsets wrap from LBA
`2 ^ 62` on.
-/

namespace Pynvme

open Word

variable (crc32c : List (BitVec 8) → BitVec 32)

/-! ### Footprints -/

/-- The namespace with the entries `d` in its table. -/
def Ns.probe (ns : Ns) (d : Nat → BitVec 32) : Ns := ns.mapData fun _ => d

/-- The entries whose locks `crc32_lock_lba` tests. -/
def tested (ns : Ns) (req : Request) : Set Nat :=
  {j | (crc32LockLba (ns.probe fun k => if k = j then lockBit else 0#32) req).2 = false}

/-- The entries `crc32_lock_lba` locks, none being locked before. -/
def locked (ns : Ns) (req : Request) : Set Nat :=
  {j | isLocked ((crc32LockLba (ns.probe fun _ => 0#32) req).1.entry j) = true}

/-- The entries `crc32_unlock_lba` unlocks, all being locked before. -/
def unlocked (ns : Ns) (req : Request) : Set Nat :=
  {j | isLocked ((crc32UnlockLba (ns.probe fun _ => lockBit) req).entry j) = false}

/-- The entries `cmdlog_update_crc_io` may change. -/
def updated (ns : Ns) (req : Request) : Set Nat :=
  {j | ∃ d, (cmdlogUpdateCrcIo crc32c req.cmd (ns.probe d) req.buf).entry j ≠ d j}

/-- The entries `cmdlog_verify_crc` checks, on a buffer without LBAs. -/
def verified (ns : Ns) (req : Request) : Set Nat :=
  {j | cmdlogVerifyCrc crc32c (ns.probe fun k => if k = j then uncorrCrc else 0#32)
    { req with buf := fun _ => 0#8 } ≠ 0}

/-! ### Encoded ranges -/

/-- The ranges `rs`, each a starting LBA and a number of blocks, that an encoder
    has put into a request for `ns`. -/
inductive Encodes (ns : Ns) : Request → List (Nat × Nat) → Prop
  /-- By `ns_cmd_io`, for the commands over a range. -/
  | io {opc : BitVec 8} {buf : Bytes} {len lba lbaCount ioFlags token q : Nat}
      {d13 d14 d15 : BitVec 32} {s : Submission} : isRangeOpc opc = true → lba < ns.numSectors →
      1 ≤ lbaCount → lbaCount ≤ 65536 →
      nsCmdIo opc ns.sectorSize buf len lba lbaCount ioFlags d13 d14 d15 token = some s →
      Encodes ns ⟨s.cmd, q, s.buf⟩ [(lba, lbaCount)]
  /-- By `ns_cmd_io`, for a trim. -/
  | trim {buf : Bytes} {len lba lbaCount ioFlags token q : Nat} {d13 d14 d15 : BitVec 32}
      {s : Submission} : lba < ns.numSectors → 1 ≤ lbaCount → lbaCount ≤ 65536 →
      nsCmdIo 9#8 ns.sectorSize buf len lba lbaCount ioFlags d13 d14 d15 token = some s →
      Encodes ns ⟨s.cmd, q, s.buf⟩ [(lba, lbaCount)]
  /-- By `Namespace.write_uncorrectable`, `compare` or `write_zeroes`. -/
  | raw {opc : BitVec 8} {cmd : NvmeCmd} {buf : Bytes} {lba lbaCount ioFlags q : Nat} :
      isRangeOpc opc = true → lba < ns.numSectors → 1 ≤ lbaCount → lbaCount ≤ 65536 →
      sendRange opc lba lbaCount ioFlags = some cmd → Encodes ns ⟨cmd, q, buf⟩ [(lba, lbaCount)]
  /-- By `Namespace.dsm`, with the ranges of the buffer. -/
  | dsm {cmd : NvmeCmd} {buf : Bytes} {attr q n : Nat} : 1 ≤ n → n ≤ 256 →
      Namespace.dsm n attr = some cmd →
      Encodes ns ⟨cmd, q, buf⟩ ((List.range n).map fun i =>
        ((dsmRange buf i).startingLba, (dsmRange buf i).length))

/-- The LBAs of the ranges `rs`, clipped to the table. -/
def clipped (ns : Ns) (rs : List (Nat × Nat)) : Set Nat :=
  {j | j < ns.entries ∧ ∃ r ∈ rs, r.1 ≤ j ∧ j < r.1 + r.2}

/-- All consumers of a request agree with its encoder. -/
structure Agree (ns : Ns) (req : Request) (rs : List (Nat × Nat)) : Prop where
  tested : tested ns req = clipped ns rs
  locked : locked ns req = clipped ns rs
  unlocked : unlocked ns req = clipped ns rs
  updated : req.cmd.opc = 1#8 ∨ req.cmd.opc = 4#8 ∨ req.cmd.opc = 8#8 ∨ req.cmd.opc = 9#8 →
    updated crc32c ns req = clipped ns rs
  verified : req.cmd.opc = 2#8 → ns.crcTable.map CrcTable.enabled = some true →
    verified crc32c ns req = clipped ns rs

/-- The byte offsets of a range do not wrap into the table: it is empty, starts
    beyond the table (also as a wrapped offset sees it), or ends below `2 ^ 62`. -/
def NoWrap (ns : Ns) (r : Nat × Nat) : Prop :=
  r.2 = 0 ∨ ns.entries ≤ r.1 % 2 ^ 62 ∨ (r.1 < ns.entries ∧ r.1 + r.2 < 2 ^ 62)

/-- The commands whose LBAs are used one by one, as indices of the table. -/
def Ns.UsesLbas (ns : Ns) (opc : BitVec 8) : Prop :=
  opc = 1#8 ∨ (opc = 2#8 ∧ ns.crcTable.map CrcTable.enabled = some true)

/-- No width cuts or wraps a range of the request that meets the table. -/
structure FitsWidths (ns : Ns) (req : Request) (rs : List (Nat × Nat)) : Prop where
  offset : ∀ r ∈ rs, NoWrap ns r
  /-- The 16-bit counts lose nothing: what they cut from a range is, in the table,
      part of what they leave of the ranges. -/
  count : ∀ r ∈ rs, ∀ j < ns.entries, r.1 ≤ j → j < r.1 + r.2 →
    ∃ r' ∈ rs, r'.1 ≤ j ∧ j < r'.1 + r'.2 % 65536
  /-- The LBAs of a write, or of a read that is verified, do not wrap into the table. -/
  lba : ns.UsesLbas req.cmd.opc → ∀ r ∈ rs, ns.entries = 0 ∨ r.1 + r.2 % 65536 ≤ 2 ^ 64

/-! ### What the decoders see -/

variable {crc32c} {ns : Ns} {req : Request} {rs : List (Nat × Nat)} {j : Nat}

/-- The ranges of a request, as its raw fields give them. -/
def Request.ranges (req : Request) : List (Nat × Nat) :=
  if isRangeOpc req.cmd.opc then [(req.cmd.slba, req.cmd.nlbField + 1)]
  else if isDsmOpc req.cmd.opc then (List.range req.cmd.dsmCount).map fun i =>
    ((dsmRange req.buf i).startingLba, (dsmRange req.buf i).length)
  else []

/-- The raw fields give back what was encoded. -/
theorem Encodes.ranges_eq (h : Encodes ns req rs) : rs = req.ranges := by
  have hnsze := ns.numSectors_lt
  cases h with
  | io hop hl hc hc' hs =>
    have hne := ne_dsm_of_isRangeOpc hop
    obtain ⟨hopc, hslba, hnlb⟩ := nsCmdIo_range hne (by omega) hc (by omega) hs
    have hr := hopc.symm ▸ hop
    simp only [Request.ranges, hr, if_true, hslba, hnlb, Nat.sub_add_cancel hc]
  | trim hl hc hc' hs =>
    obtain ⟨hopc, hcount, hrange⟩ := nsCmdIo_trim (by omega) (by omega) hs
    simp [Request.ranges, hopc, hcount, hrange, isRangeOpc, isDsmOpc]
  | raw hop hl hc hc' hs =>
    obtain ⟨hopc, hslba, hnlb⟩ := sendRange_range (by omega) hc (by omega) hs
    have hr := hopc.symm ▸ hop
    simp only [Request.ranges, hr, if_true, hslba, hnlb, Nat.sub_add_cancel hc]
  | dsm hn hn' hs =>
    obtain ⟨hopc, hcount⟩ := dsm_count hn hn' hs
    simp [Request.ranges, hopc, hcount, isRangeOpc, isDsmOpc]

theorem Request.ranges_bounds : ∀ r ∈ req.ranges, r.1 < 2 ^ 64 ∧ r.2 < 2 ^ 32 := by
  intro r hr
  simp only [Request.ranges] at hr
  split_ifs at hr
  · obtain rfl := List.mem_singleton.1 hr
    have := req.cmd.slba_lt
    have := req.cmd.nlbField_lt
    omega
  · obtain ⟨i, _, rfl⟩ := List.mem_map.1 hr
    exact ⟨req.buf.readLe_lt _ 8, dsmRange_length_lt _ _⟩
  · cases hr

theorem Request.locks_iff_ranges :
    req.Locks ns j ↔ ∃ r ∈ req.ranges, LockSpan ns r.1 r.2 j := by
  simp only [Request.Locks, Request.ranges]
  split_ifs <;> simp [RangesSpan]

theorem lockLba_eq_false_iff (hq : req.qpairId ≠ 0) : (crc32LockLba ns req).2 = false ↔
    ∃ j, (∃ r ∈ req.ranges, CheckSpan ns r.1 r.2 j) ∧ isLocked (ns.entry j) = true := by
  simp only [crc32LockLba, Request.ranges, if_neg hq]
  split_ifs with hr hc hd hany
  · simpa using checkLockBits_iff.1 hc
  · simpa using mt checkLockBits_iff.2 hc
  · obtain ⟨i, hi, hc⟩ := List.any_eq_true.1 hany
    obtain ⟨k, hk, hl⟩ := checkLockBits_iff.1 hc
    simp only [true_iff]
    exact ⟨k, ⟨_, List.mem_map.2 ⟨i, hi, rfl⟩, hk⟩, hl⟩
  · simp only [false_iff]
    rintro ⟨k, ⟨_, hr, hk⟩, hl⟩
    obtain ⟨i, hi, rfl⟩ := List.mem_map.1 hr
    exact hany (List.any_eq_true.2 ⟨i, hi, checkLockBits_iff.2 ⟨k, hk, hl⟩⟩)
  · simp

/-! ### The footprints of the decoders -/

theorem shape_probe (d : Nat → BitVec 32) : (ns.probe d).shape = ns.shape := ns.shape_mapData _

theorem entry_probe (ht : ns.crcTable.isSome) (d : Nat → BitVec 32) (j : Nat) :
    (ns.probe d).entry j = d j := by
  obtain ⟨t, ht⟩ := Option.isSome_iff_exists.1 ht
  exact entry_mapData ht _ j

theorem checkSpan_of_shape {ns' : Ns} {slba nlb : Nat} (h : ns.shape = ns'.shape) :
    CheckSpan ns slba nlb j ↔ CheckSpan ns' slba nlb j := by
  simp only [CheckSpan, lockNlb, Ns.tableSize_of_shape h, Ns.entries_of_shape h,
    Ns.isSome_of_shape h]

theorem mem_tested (ht : ns.crcTable.isSome) (hq : req.qpairId ≠ 0) :
    j ∈ tested ns req ↔ ∃ r ∈ req.ranges, CheckSpan ns r.1 r.2 j := by
  simp only [tested, Set.mem_ofPred_eq, lockLba_eq_false_iff hq, entry_probe ht,
    checkSpan_of_shape (shape_probe _)]
  constructor
  · rintro ⟨k, hk, hl⟩
    split_ifs at hl with hkj
    · exact hkj ▸ hk
    · simp at hl
  · exact fun h => ⟨j, h, by simp only [if_true]; decide⟩

theorem mem_locked (ht : ns.crcTable.isSome) (hq : req.qpairId ≠ 0) :
    j ∈ locked ns req ↔ ∃ r ∈ req.ranges, LockSpan ns r.1 r.2 j := by
  have hok : (crc32LockLba (ns.probe fun _ => 0#32) req).2 = true := by
    rw [← Bool.not_eq_false, lockLba_eq_false_iff hq]
    rintro ⟨k, -, hl⟩
    simp [entry_probe ht] at hl
  simp only [locked, Set.mem_ofPred_eq]
  rw [lockLba_isLocked hq hok, entry_probe ht, Request.locks_iff_ranges]
  simp [lockSpan_of_shape (shape_probe fun _ => 0#32)]

theorem mem_unlocked (ht : ns.crcTable.isSome) (hq : req.qpairId ≠ 0) :
    j ∈ unlocked ns req ↔ ∃ r ∈ req.ranges, LockSpan ns r.1 r.2 j := by
  simp only [unlocked, Set.mem_ofPred_eq]
  rw [← Bool.not_eq_true, unlockLba_isLocked hq, entry_probe ht, Request.locks_iff_ranges]
  simp [lockSpan_of_shape (shape_probe fun _ => lockBit),
    show isLocked lockBit = true by decide]

/-- The entries an update overwrites are those it may change: none of the values
    it stores is a lock alone. -/
theorem mem_updated_of {P : Prop} (ht : ns.crcTable.isSome)
    (hyes : P → ∀ d,
      isLocked ((cmdlogUpdateCrcIo crc32c req.cmd (ns.probe d) req.buf).entry j) = false)
    (hno : ¬P → ∀ d, (cmdlogUpdateCrcIo crc32c req.cmd (ns.probe d) req.buf).entry j =
      (ns.probe d).entry j) :
    j ∈ updated crc32c ns req ↔ P := by
  simp only [updated, Set.mem_ofPred_eq]
  constructor
  · rintro ⟨d, hd⟩
    by_contra hP
    exact hd ((hno hP d).trans (entry_probe ht d j))
  · intro hP
    refine ⟨fun _ => lockBit, fun he => ?_⟩
    have hclear := hyes hP fun _ => lockBit
    rw [he] at hclear
    change isLocked lockBit = false at hclear
    exact absurd hclear (by decide)

theorem mem_updated_write (ht : ns.crcTable.isSome) (hop : req.cmd.opc = 1#8) :
    j ∈ updated crc32c ns req ↔ j < ns.entries ∧ Span req.cmd.slba req.cmd.lbaCount j := by
  have hn : req.cmd.lbaCount ≤ 2 ^ 64 := by
    have := u16_lt (req.cmd.nlbField + 1)
    rw [NvmeCmd.lbaCount]
    omega
  have hN : ∀ d, (ns.probe d).entries = ns.entries := fun d => Ns.entries_of_shape (shape_probe d)
  have ht' : ∀ d, (ns.probe d).crcTable.isSome := fun d => by
    rw [Ns.isSome_of_shape (shape_probe d)]
    exact ht
  refine mem_updated_of ht ?_ ?_
  · rintro ⟨hj, i, hi, rfl⟩ d
    simp only [cmdlogUpdateCrcIo, hop, if_true]
    rw [entry_updateCrc hn (ht' d) hi (by rw [hN]; exact hj)]
    exact (bufferCalcCsum_ne _ _ _).2.2
  · intro h d
    simp only [cmdlogUpdateCrcIo, hop, if_true]
    refine entry_updateCrc_of_not hn ?_
    rintro ⟨_, hj, hspan⟩
    rw [hN] at hj
    exact h ⟨hj, hspan⟩

theorem mem_updated_clear (ht : ns.crcTable.isSome) (hop : req.cmd.opc = 4#8 ∨ req.cmd.opc = 8#8) :
    j ∈ updated crc32c ns req ↔ ClearSpan ns req.cmd.slba (req.cmd.lbaCount * 4) j := by
  have hn : req.cmd.lbaCount * 4 ≤ 2 ^ 64 := by
    have := u16_lt (req.cmd.nlbField + 1)
    rw [NvmeCmd.lbaCount]
    omega
  refine mem_updated_of ht ?_ ?_
  · intro h d
    have hspan := (clearSpan_of_shape (shape_probe d)).2 h
    rcases hop with hop | hop <;> simp [cmdlogUpdateCrcIo, hop, entry_clear hn hspan]
  · intro h d
    have hspan := mt (clearSpan_of_shape (shape_probe d)).1 h
    rcases hop with hop | hop <;> simp [cmdlogUpdateCrcIo, hop, entry_clear_of_not hspan]

theorem mem_updated_dsm (ht : ns.crcTable.isSome) (hop : req.cmd.opc = 9#8) :
    j ∈ updated crc32c ns req ↔ ∃ r ∈ req.ranges, ClearSpan ns r.1 (r.2 * 4) j := by
  have hranges : (∃ r ∈ req.ranges, ClearSpan ns r.1 (r.2 * 4) j) ↔ ∃ i < req.cmd.dsmCount,
      ClearSpan ns (dsmRange req.buf i).startingLba ((dsmRange req.buf i).length * 4) j := by
    have hr : isRangeOpc req.cmd.opc = false := by rw [hop]; rfl
    have hd : isDsmOpc req.cmd.opc = true := by rw [hop]; rfl
    simp only [Request.ranges, hr, hd, Bool.false_eq_true, if_false, if_true, List.mem_map,
      List.mem_range, exists_exists_and_eq_and]
  have hupd : ∀ ns, cmdlogUpdateCrcIo crc32c req.cmd ns req.buf =
      crc32ClearRanges ns req.buf req.cmd.dsmCount := fun ns => by
    rw [cmdlogUpdateCrcIo, if_neg (by rw [hop]; decide), if_neg (by rw [hop]; decide),
      if_neg (by rw [hop]; decide), if_pos hop]
  rw [hranges]
  refine mem_updated_of ht ?_ ?_
  · rintro ⟨i, hi, hspan⟩ d
    rw [hupd, entry_clearRanges ⟨i, hi, (clearSpan_of_shape (shape_probe d)).2 hspan⟩]
    exact isLocked_zero
  · intro h d
    rw [hupd]
    refine entry_clearRanges_of_not fun i hi hspan => h ⟨i, hi, ?_⟩
    exact (clearSpan_of_shape (shape_probe d)).1 hspan

theorem mem_verified (ht : ns.crcTable.map CrcTable.enabled = some true) (hq : req.qpairId ≠ 0)
    (hop : req.cmd.opc = 2#8) :
    j ∈ verified crc32c ns req ↔ j < ns.entries ∧ Span req.cmd.slba req.cmd.lbaCount j := by
  have hsome : ns.crcTable.isSome := by simpa using congrArg Option.isSome ht
  set probe := ns.probe fun k => if k = j then uncorrCrc else 0#32 with hprobe
  have hshape : probe.shape = ns.shape := shape_probe _
  have hen : probe.crcTable.map CrcTable.enabled = some true :=
    (congrArg (·.2.2.2) hshape).trans ht
  have hentry : ∀ k, crcOf (probe.entry k) = if k = j then uncorrCrc else 0#32 := by
    intro k
    rw [hprobe, entry_probe hsome]
    split_ifs <;> decide
  simp only [verified, Set.mem_ofPred_eq, ne_eq]
  set read : Request := { req with buf := fun _ => 0#8 } with hread
  have hv : cmdlogVerifyCrc crc32c probe read = 0 ↔ _ :=
    cmdlogVerifyCrc_eq_zero_iff_verify hq hop hen
  rw [← hprobe, hv, bufferVerifyLba_eq_zero_iff, bufferVerifyData_eq_zero_iff]
  have hlba : ∀ i < req.cmd.lbaCount, lbaMatches (Bytes.readLe (fun _ => 0#8)
      (i * probe.sectorSize) 8) (u64 (req.cmd.slba + i)) := fun i _ => by
    simp [Bytes.readLe_zeros, lbaMatches]
  simp only [verifySector_eq_none_iff, hentry, Ns.entries_of_shape hshape]
  constructor
  · intro h
    by_contra hno
    refine h ⟨hlba, fun i hi hlt => .inl ?_⟩
    rw [if_neg]
    rintro rfl
    exact hno ⟨hlt, i, hi, rfl⟩
  · rintro ⟨hj, i, hi, rfl⟩ ⟨_, hdata⟩
    rcases hdata i hi hj with h0 | ⟨hu, _⟩
    · rw [if_pos rfl] at h0
      exact absurd h0 (by decide)
    · rw [if_pos rfl] at hu
      exact hu rfl

/-! ### Any starting LBA

From `2 ^ 62` on the byte offset of the first entry wraps, and its guard sees the
starting LBA modulo `2 ^ 62`. -/

theorem u64_mul_four_lt_iff {s : Nat} :
    u64 (s * 4) < ns.tableSize ↔ s % 2 ^ 62 < ns.entries := by
  rw [ns.tableSize_eq]
  simp only [u64]
  omega

theorem lockNlb_zero {s : Nat} (hs : s < 2 ^ 64) (hg : s % 2 ^ 62 < ns.entries) :
    lockNlb ns s 0 = 0 := by
  rw [lockNlb, if_neg]
  rw [ns.tableSize_eq, Nat.add_zero, u64_of_lt hs]
  simp only [u64]
  omega

theorem not_lockSpan_zero {s : Nat} (hs : s < 2 ^ 64) : ¬LockSpan ns s 0 j := by
  rintro ⟨_, hg, hspan⟩
  rw [lockNlb_zero hs (u64_mul_four_lt_iff.1 hg)] at hspan
  exact not_span_zero _ _ hspan

/-- A wrapped offset lets the range of an LBA beyond the table pass, and its lock
    is set out of bounds. -/
theorem lockSpan_self_of_wrap {s n : Nat} (ht : ns.crcTable.isSome) (hs : s < 2 ^ 64)
    (hs' : 2 ^ 62 ≤ s) (hg : s % 2 ^ 62 < ns.entries) (hn : 0 < n) : LockSpan ns s n s := by
  have hN := ns.entries_lt
  refine ⟨ht, u64_mul_four_lt_iff.2 hg, 0, ?_, (u64_of_lt hs).symm⟩
  rw [lockNlb]
  split_ifs
  · simp only [u64]
    omega
  · exact hn

theorem NoWrap.lockSpan_iff {r : Nat × Nat} (ht : ns.crcTable.isSome) (hs : r.1 < 2 ^ 64)
    (h : NoWrap ns r) : LockSpan ns r.1 r.2 j ↔ j < ns.entries ∧ r.1 ≤ j ∧ j < r.1 + r.2 := by
  rcases h with h0 | hge | ⟨hlt, hb⟩
  · rw [h0]
    simp only [not_lockSpan_zero hs, false_iff]
    omega
  · have hg : ¬u64 (r.1 * 4) < ns.tableSize := by
      rw [u64_mul_four_lt_iff]
      omega
    simp only [LockSpan, hg, false_and, and_false, false_iff]
    have := Nat.mod_le r.1 (2 ^ 62)
    omega
  · rw [lockSpan_iff_of_lt ht hlt hb]
    omega

/-- Otherwise an entry beyond the table, or beyond the range, is locked. -/
theorem noWrap_of_lockSpan {r : Nat × Nat} (ht : ns.crcTable.isSome) (hs : r.1 < 2 ^ 64)
    (hn : r.2 < 2 ^ 32) (h : ∀ j, LockSpan ns r.1 r.2 j → j < ns.entries) : NoWrap ns r := by
  have hN := ns.entries_lt
  by_contra hno
  simp only [NoWrap, not_or, not_and, Nat.not_le, Nat.not_lt] at hno
  obtain ⟨h0, hg, hb⟩ := hno
  rcases Nat.lt_or_ge r.1 (2 ^ 62) with hlt | hge
  · rw [Nat.mod_eq_of_lt hlt] at hg
    have hwrap := h (2 ^ 62 - 1) ((lockSpan_iff_of_wrap ht hg (hb hg) (by omega)).2 (by
      have := hb hg
      omega))
    omega
  · have := h _ (lockSpan_self_of_wrap ht hs hge hg (Nat.pos_of_ne_zero h0))
    omega

/-- The 16-bit counters of the check see the number of blocks modulo `65536`. -/
theorem checkSpan_iff_mod {s n : Nat} (hs : s < 2 ^ 64) (h : s < 2 ^ 62 ∨ n % 65536 = 0) :
    CheckSpan ns s n j ↔ LockSpan ns s (n % 65536) j := by
  rcases h with h | h
  · have hn : n % 65536 < 65536 := Nat.mod_lt n (by decide)
    rw [← checkSpan_iff_lockSpan h hn]
    simp only [CheckSpan, u16, Nat.reducePow, Nat.mod_mod]
  · rw [h]
    simp only [not_lockSpan_zero hs, iff_false]
    rintro ⟨_, hg, hspan⟩
    rw [show u16 n = 0 from h, lockNlb_zero hs (u64_mul_four_lt_iff.1 hg)] at hspan
    exact not_span_zero _ _ hspan

theorem NoWrap.mod {r : Nat × Nat} (h : NoWrap ns r) : NoWrap ns (r.1, r.2 % 65536) := by
  have := Nat.mod_le r.2 65536
  rcases h with h0 | hge | ⟨hlt, hb⟩
  · exact .inl (by simp [h0])
  · exact .inr (.inl hge)
  · exact .inr (.inr ⟨hlt, by simp only; omega⟩)

theorem NoWrap.checkSpan_iff {r : Nat × Nat} (ht : ns.crcTable.isSome) (hs : r.1 < 2 ^ 64)
    (h : NoWrap ns r) :
    CheckSpan ns r.1 r.2 j ↔ j < ns.entries ∧ r.1 ≤ j ∧ j < r.1 + r.2 % 65536 := by
  have hmod : LockSpan ns r.1 (r.2 % 65536) j ↔ j < ns.entries ∧ r.1 ≤ j ∧ j < r.1 + r.2 % 65536 :=
    NoWrap.lockSpan_iff (r := (r.1, r.2 % 65536)) ht hs h.mod
  by_cases hg : r.1 % 2 ^ 62 < ns.entries
  · rw [← hmod]
    refine checkSpan_iff_mod hs ?_
    rcases h with h0 | hge | ⟨hlt, _⟩
    · exact .inr (by simp [h0])
    · omega
    · have := ns.entries_lt
      exact .inl (by omega)
  · have hg' : ¬u64 (r.1 * 4) < ns.tableSize := mt u64_mul_four_lt_iff.1 hg
    have := Nat.mod_le r.1 (2 ^ 62)
    simp only [CheckSpan, hg', false_and, and_false, false_iff]
    omega

theorem NoWrap.clearSpan_iff {r : Nat × Nat} (ht : ns.crcTable.isSome) (hs : r.1 < 2 ^ 64)
    (hn : r.2 < 2 ^ 32) (h : NoWrap ns r) :
    ClearSpan ns r.1 (r.2 * 4) j ↔ j < ns.entries ∧ r.1 ≤ j ∧ j < r.1 + r.2 := by
  rcases Nat.lt_or_ge r.1 (2 ^ 62) with hlt | hge
  · rw [clearSpan_iff_lockSpan hlt hn, h.lockSpan_iff ht hs]
  · have hN := ns.entries_lt
    constructor
    · rintro ⟨_, hg, hspan⟩
      rw [u64_mul_four_lt_iff] at hg
      rcases h with h0 | hge' | ⟨hlt, _⟩
      · rw [h0, Nat.zero_mul, clearLen, if_neg, Nat.zero_div] at hspan
        · exact absurd hspan (not_span_zero _ _)
        · rw [ns.tableSize_eq]
          simp only [u64]
          omega
      · omega
      · omega
    · omega

/-! ### The agreement -/

/-- A set of entries, found range by range, is that of the clipped ranges. -/
theorem eq_clipped_iff {A : Set Nat} {F : Nat × Nat → Nat → Prop}
    (hA : ∀ j, j ∈ A ↔ ∃ r ∈ rs, F r j)
    (hF : ∀ r ∈ rs, ∀ j, F r j ↔ j < ns.entries ∧ r.1 ≤ j ∧ j < r.1 + r.2) :
    A = clipped ns rs := by
  ext j
  rw [hA j]
  constructor
  · rintro ⟨r, hr, hj⟩
    obtain ⟨hN, hspan⟩ := (hF r hr j).1 hj
    exact ⟨hN, r, hr, hspan⟩
  · rintro ⟨hN, r, hr, hspan⟩
    exact ⟨r, hr, (hF r hr j).2 ⟨hN, hspan⟩⟩

/-- The blocks the 16-bit counts leave cover the ranges. -/
theorem FitsWidths.mem_clipped_iff (h : FitsWidths ns req rs) : j ∈ clipped ns rs ↔
    ∃ r ∈ rs, j < ns.entries ∧ r.1 ≤ j ∧ j < r.1 + r.2 % 65536 := by
  constructor
  · rintro ⟨hN, r, hr, hs, hj⟩
    obtain ⟨r', hr', hspan⟩ := h.count r hr j hN hs hj
    exact ⟨r', hr', hN, hspan⟩
  · rintro ⟨r, hr, hN, hs, hj⟩
    have := Nat.mod_le r.2 65536
    exact ⟨hN, r, hr, hs, by omega⟩

theorem Request.ranges_of_isRangeOpc (h : isRangeOpc req.cmd.opc = true) :
    req.ranges = [(req.cmd.slba, req.cmd.nlbField + 1)] := by
  rw [Request.ranges, if_pos h]

theorem Ns.UsesLbas.isRangeOpc {opc : BitVec 8} (h : ns.UsesLbas opc) : isRangeOpc opc = true := by
  rcases h with rfl | ⟨rfl, _⟩ <;> rfl

/-- The entries of a read or a write are, without wrapping, those its 16-bit count
    leaves. -/
theorem FitsWidths.span_iff_mem_clipped (h : FitsWidths ns req req.ranges)
    (hop : ns.UsesLbas req.cmd.opc) :
    j < ns.entries ∧ Span req.cmd.slba req.cmd.lbaCount j ↔ j ∈ clipped ns req.ranges := by
  have hr := hop.isRangeOpc
  have hlba := h.lba hop
  rw [h.mem_clipped_iff]
  rw [Request.ranges_of_isRangeOpc hr] at hlba ⊢
  simp only [List.mem_singleton, forall_eq, exists_eq_left] at hlba ⊢
  refine and_congr_right fun hj => ?_
  rcases hlba with h0 | hfit
  · omega
  · exact span_iff hfit

/-- So are those a write uncorrectable or a write zeroes clears. -/
theorem FitsWidths.clearSpan_iff_mem_clipped (h : FitsWidths ns req req.ranges)
    (ht : ns.crcTable.isSome) (hop : req.cmd.opc = 4#8 ∨ req.cmd.opc = 8#8) :
    ClearSpan ns req.cmd.slba (req.cmd.lbaCount * 4) j ↔ j ∈ clipped ns req.ranges := by
  have hr : isRangeOpc req.cmd.opc = true := by
    rcases hop with hop | hop <;> rw [hop] <;> rfl
  have hoff := h.offset
  have hlt := u16_lt (req.cmd.nlbField + 1)
  rw [h.mem_clipped_iff]
  rw [Request.ranges_of_isRangeOpc hr] at hoff ⊢
  simp only [List.mem_singleton, forall_eq, exists_eq_left] at hoff ⊢
  exact hoff.mod.clearSpan_iff ht req.cmd.slba_lt (show u16 (req.cmd.nlbField + 1) < 2 ^ 32 by
    omega)

/-- Without a cut or a wrap, the decoders agree with the encoder. -/
theorem FitsWidths.agree (hsome : ns.crcTable.isSome) (hq : req.qpairId ≠ 0)
    (h : FitsWidths ns req req.ranges) : Agree crc32c ns req req.ranges := by
  have hb : ∀ r ∈ req.ranges, r.1 < 2 ^ 64 ∧ r.2 < 2 ^ 32 := Request.ranges_bounds
  have hlock : ∀ r ∈ req.ranges, ∀ j, LockSpan ns r.1 r.2 j ↔
      j < ns.entries ∧ r.1 ≤ j ∧ j < r.1 + r.2 :=
    fun r hr j => (h.offset r hr).lockSpan_iff hsome (hb r hr).1
  refine ⟨?_, eq_clipped_iff (fun j => mem_locked hsome hq) hlock,
    eq_clipped_iff (fun j => mem_unlocked hsome hq) hlock, fun hop => ?_, fun hop ht => ?_⟩
  · ext j
    rw [mem_tested hsome hq, h.mem_clipped_iff]
    exact exists_congr fun r => and_congr_right fun hr =>
      (h.offset r hr).checkSpan_iff hsome (hb r hr).1
  · rcases hop with hop | hop | hop | hop
    · ext j
      rw [mem_updated_write hsome hop, h.span_iff_mem_clipped (.inl hop)]
    · ext j
      rw [mem_updated_clear hsome (.inl hop), h.clearSpan_iff_mem_clipped hsome (.inl hop)]
    · ext j
      rw [mem_updated_clear hsome (.inr hop), h.clearSpan_iff_mem_clipped hsome (.inr hop)]
    · exact eq_clipped_iff (fun j => mem_updated_dsm hsome hop) fun r hr j =>
        (h.offset r hr).clearSpan_iff hsome (hb r hr).1 (hb r hr).2
  · ext j
    rw [mem_verified ht hq hop, h.span_iff_mem_clipped (.inr ⟨hop, ht⟩)]

/-- Where the decoders agree, the locks show that no offset wraps, the check that
    no count is cut, and the updates and verdicts that no LBA wraps. -/
theorem Agree.fitsWidths (hsome : ns.crcTable.isSome) (hq : req.qpairId ≠ 0)
    (h : Agree crc32c ns req req.ranges) : FitsWidths ns req req.ranges := by
  have hb : ∀ r ∈ req.ranges, r.1 < 2 ^ 64 ∧ r.2 < 2 ^ 32 := Request.ranges_bounds
  have hoff : ∀ r ∈ req.ranges, NoWrap ns r := fun r hr =>
    noWrap_of_lockSpan hsome (hb r hr).1 (hb r hr).2 fun j hj => by
      have hmem := (mem_locked hsome hq).2 ⟨r, hr, hj⟩
      rw [h.locked] at hmem
      exact hmem.1
  refine ⟨hoff, fun r hr j hj hs hlt => ?_, fun hop r hr => ?_⟩
  · have hmem : j ∈ clipped ns req.ranges := ⟨hj, r, hr, hs, hlt⟩
    rw [← h.tested] at hmem
    obtain ⟨r', hr', hspan⟩ := (mem_tested hsome hq).1 hmem
    exact ⟨r', hr', (((hoff r' hr').checkSpan_iff hsome (hb r' hr').1).1 hspan).2⟩
  · have hopc := hop.isRangeOpc
    rw [Request.ranges_of_isRangeOpc hopc] at hr
    obtain rfl := List.mem_singleton.1 hr
    by_contra hno
    rw [not_or, Nat.not_le] at hno
    obtain ⟨h0, hwrap⟩ := hno
    -- The range wraps to entry 0, which is not one of its LBAs.
    have hslba := req.cmd.slba_lt
    have hspan : 0 < ns.entries ∧ Span req.cmd.slba req.cmd.lbaCount 0 := by
      refine ⟨Nat.pos_of_ne_zero h0, 2 ^ 64 - req.cmd.slba, ?_, ?_⟩
      · change _ < (req.cmd.nlbField + 1) % 65536
        simp only at hwrap
        omega
      · rw [Nat.add_sub_cancel' (Nat.le_of_lt hslba)]
        rfl
    have hmem : 0 ∈ clipped ns req.ranges := by
      rcases hop with hop | ⟨hop, ht⟩
      · rw [← h.updated (.inl hop)]
        exact (mem_updated_write hsome hop).2 hspan
      · rw [← h.verified hop ht]
        exact (mem_verified ht hq hop).2 hspan
    rw [Request.ranges_of_isRangeOpc hopc] at hmem
    obtain ⟨_, _, hr, hle, _⟩ := hmem
    obtain rfl := List.mem_singleton.1 hr
    have := Nat.mod_lt (req.cmd.nlbField + 1) (show 0 < 65536 by decide)
    simp only at hwrap hle
    omega

/-- The five decoders agree with the encoder of a request on its LBAs exactly when
    none of their integers cuts or wraps one of its ranges. -/
theorem agree_iff (ht : ns.crcTable.isSome) (hq : req.qpairId ≠ 0)
    (h : Encodes ns req rs) : Agree crc32c ns req rs ↔ FitsWidths ns req rs := by
  obtain rfl := h.ranges_eq
  exact ⟨Agree.fitsWidths ht hq, FitsWidths.agree ht hq⟩

/-- A write zeroes of four blocks at LBA 6 of a table of eight entries touches the
    entries 6 and 7, for all of its decoders. -/
theorem agree_iff_writeZeroes :
    let ns := Ns.formatted 16 512 8 (by decide) (by decide) (by decide)
    let req : Request := ⟨⟨8#8, 6#32, 0#32, 3#32, 0#32, 0#32, 0#32⟩, 1, fun _ => 0#8⟩
    Encodes ns req [(6, 4)] ∧ Agree (fun _ => 0#32) ns req [(6, 4)] := by
  intro ns req
  have henc : Encodes ns req [(6, 4)] := .raw (show isRangeOpc 8#8 = true from rfl)
    (by decide) (by decide) (by decide) (show Namespace.writeZeroes 6 4 0 = some req.cmd from rfl)
  refine ⟨henc, (agree_iff rfl (by decide) henc).2 ⟨?_, ?_, fun hop => ?_⟩⟩
  · rintro r hr
    obtain rfl := List.mem_singleton.1 hr
    exact .inr (.inr ⟨by decide, by decide⟩)
  · rintro r hr j _ hs hlt
    obtain rfl := List.mem_singleton.1 hr
    exact ⟨_, hr, hs, hlt⟩
  · rcases hop with hop | ⟨hop, _⟩ <;> exact absurd hop (by decide)

/-- A write zeroes of `65536` blocks, which `Namespace.write_zeroes` encodes, locks
    its entries without having tested a single one. -/
theorem writeZeroes_not_agree :
    let ns := Ns.formatted (2 ^ 17) 512 8 (by decide) (by decide) (by decide)
    let req : Request := ⟨⟨8#8, 0#32, 0#32, 65535#32, 0#32, 0#32, 0#32⟩, 1, fun _ => 0#8⟩
    Encodes ns req [(0, 65536)] ∧ tested ns req = ∅ ∧ 0 ∈ clipped ns [(0, 65536)] ∧
      ¬Agree (fun _ => 0#32) ns req [(0, 65536)] := by
  intro ns req
  have hmem : 0 ∈ clipped ns [(0, 65536)] := ⟨by decide, _, List.mem_singleton_self _, by decide⟩
  have hempty : tested ns req = ∅ := by
    ext j
    rw [mem_tested rfl (by decide)]
    simp only [Set.mem_empty_iff_false, iff_false]
    rintro ⟨r, hr, hspan⟩
    rw [Request.ranges_of_isRangeOpc (by decide)] at hr
    obtain rfl := List.mem_singleton.1 hr
    have := (NoWrap.checkSpan_iff rfl (by decide) (.inr (.inr (by decide)))).1 hspan
    obtain ⟨_, _, hlt⟩ := this
    exact absurd hlt (by simp [req, NvmeCmd.slba, NvmeCmd.nlbField, u16])
  refine ⟨.raw (show isRangeOpc 8#8 = true from rfl) (by decide) (by decide)
    (by decide) (show Namespace.writeZeroes 0 65536 0 = some req.cmd from rfl), hempty, hmem,
    fun h => ?_⟩
  rw [← h.tested, hempty] at hmem
  exact hmem

end Pynvme
