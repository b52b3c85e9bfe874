import Pynvme.Crc.Cmdlog
import Pynvme.Lib.Machine

/-!
# The locks of the LBAs

The driver serialises the commands that overlap: a command is sent once
`crc32_lock_lba` has found none of its LBAs locked and has locked them all, and
its completion, after updating the table, unlocks them. The lock is a bit of the
entry that holds the checksum, so an update of the entry clears it too.

* What one lock, unlock or update does to the table (`lockLba_isLocked`,
  `unlockLba_isLocked`, `Request.Small.updateCrc_entry`), entry by entry.
* The machine of the lock attempts and the completions (`lockMachine`), with any
  number of holders. In every state it reaches, the locked entries are those the
  holders cover, no entry being covered by two of them
  (`lock_mutual_exclusion`).
-/

namespace Pynvme

open Word

variable {crc32c : List (BitVec 8) → BitVec 32} {ns ns' : Ns} {req : Request}
  {slba nlb j : Nat} {lock : Bool}

/-! ### One call -/

theorem isLocked_setLockBits (hn : nlb ≤ 2 ^ 64) :
    isLocked ((crc32SetLockBits ns slba nlb true).entry j) = true ↔
      isLocked (ns.entry j) = true ∨ LockSpan ns slba nlb j := by
  by_cases h : LockSpan ns slba nlb j
  · simp [entry_setLockBits hn h, h]
  · simp [entry_setLockBits_of_not h, h]

theorem isLocked_clearLockBits (hn : nlb ≤ 2 ^ 64) :
    isLocked ((crc32SetLockBits ns slba nlb false).entry j) = true ↔
      isLocked (ns.entry j) = true ∧ ¬LockSpan ns slba nlb j := by
  by_cases h : LockSpan ns slba nlb j
  · simp [entry_setLockBits hn h, h]
  · simp [entry_setLockBits_of_not h, h]

theorem crcOf_setLockBits (hn : nlb ≤ 2 ^ 64) :
    crcOf ((crc32SetLockBits ns slba nlb lock).entry j) = crcOf (ns.entry j) := by
  by_cases h : LockSpan ns slba nlb j
  · rw [entry_setLockBits hn h]
    cases lock <;> simp
  · rw [entry_setLockBits_of_not h]

theorem dsmRange_length_lt (buf : Bytes) (i : Nat) : (dsmRange buf i).length < 2 ^ 32 :=
  buf.readLe_lt _ 4

/-- Locking or unlocking the first `n` ranges of a DSM buffer. -/
def setLockRanges (ns : Ns) (buf : Bytes) (n : Nat) (lock : Bool) : Ns :=
  forLoop n (fun i ns => crc32SetLockBits ns (dsmRange buf i).startingLba (dsmRange buf i).length
    lock) ns

/-- The ranges visit the entry `j`. -/
def RangesSpan (ns : Ns) (buf : Bytes) (n j : Nat) : Prop :=
  ∃ i < n, LockSpan ns (dsmRange buf i).startingLba (dsmRange buf i).length j

theorem shape_setLockRanges (buf : Bytes) (n : Nat) :
    (setLockRanges ns buf n lock).shape = ns.shape :=
  forLoop_induction (I := fun _ (ns' : Ns) => ns'.shape = ns.shape) rfl fun _ _ _ h => by
    rw [shape_setLockBits, h]

theorem rangesSpan_succ {buf : Bytes} {n : Nat} : RangesSpan ns buf (n + 1) j ↔
    RangesSpan ns buf n j ∨ LockSpan ns (dsmRange buf n).startingLba (dsmRange buf n).length j := by
  constructor
  · rintro ⟨i, hi, h⟩
    rcases Nat.lt_succ_iff_lt_or_eq.1 hi with hlt | rfl
    · exact .inl ⟨i, hlt, h⟩
    · exact .inr h
  · rintro (⟨i, hi, h⟩ | h)
    · exact ⟨i, Nat.lt_succ_of_lt hi, h⟩
    · exact ⟨n, Nat.lt_succ_self n, h⟩

theorem isLocked_setLockRanges (buf : Bytes) (n : Nat) :
    isLocked ((setLockRanges ns buf n true).entry j) = true ↔
      isLocked (ns.entry j) = true ∨ RangesSpan ns buf n j := by
  induction n with
  | zero => simp [setLockRanges, RangesSpan]
  | succ n ih =>
    have hlen := dsmRange_length_lt buf n
    have hshape : (setLockRanges ns buf n true).shape = ns.shape := shape_setLockRanges buf n
    change isLocked ((crc32SetLockBits (setLockRanges ns buf n true) _ _ true).entry j) = true ↔ _
    rw [isLocked_setLockBits (by omega), ih, lockSpan_of_shape hshape, rangesSpan_succ, or_assoc]

theorem isLocked_clearLockRanges (buf : Bytes) (n : Nat) :
    isLocked ((setLockRanges ns buf n false).entry j) = true ↔
      isLocked (ns.entry j) = true ∧ ¬RangesSpan ns buf n j := by
  induction n with
  | zero => simp [setLockRanges, RangesSpan]
  | succ n ih =>
    have hlen := dsmRange_length_lt buf n
    have hshape : (setLockRanges ns buf n false).shape = ns.shape := shape_setLockRanges buf n
    change isLocked ((crc32SetLockBits (setLockRanges ns buf n false) _ _ false).entry j) = true ↔ _
    rw [isLocked_clearLockBits (by omega), ih, lockSpan_of_shape hshape, rangesSpan_succ, not_or,
      and_assoc]

theorem crcOf_setLockRanges (buf : Bytes) (n : Nat) :
    crcOf ((setLockRanges ns buf n lock).entry j) = crcOf (ns.entry j) :=
  forLoop_induction (I := fun _ (ns' : Ns) => crcOf (ns'.entry j) = crcOf (ns.entry j)) rfl
    fun i _ _ h => by
      have hlen := dsmRange_length_lt buf i
      rw [crcOf_setLockBits (by omega), h]

/-- The entries whose lock the request takes. -/
def Request.Locks (ns : Ns) (req : Request) (j : Nat) : Prop :=
  if isRangeOpc req.cmd.opc then LockSpan ns req.cmd.slba (req.cmd.nlbField + 1) j
  else if isDsmOpc req.cmd.opc then RangesSpan ns req.buf req.cmd.dsmCount j
  else False

theorem Request.locks_of_shape (h : ns.shape = ns'.shape) : req.Locks ns j ↔ req.Locks ns' j := by
  simp only [Request.Locks, RangesSpan, lockSpan_of_shape h]

theorem lockLba_isLocked (hq : req.qpairId ≠ 0) (h : (crc32LockLba ns req).2 = true) :
    isLocked ((crc32LockLba ns req).1.entry j) = true ↔
      isLocked (ns.entry j) = true ∨ req.Locks ns j := by
  have hn := req.cmd.nlbField_lt
  simp only [crc32LockLba, if_neg hq, Request.Locks] at h ⊢
  split_ifs at h ⊢
  · exact isLocked_setLockBits (by omega)
  · exact isLocked_setLockRanges _ _
  · simp

theorem unlockLba_isLocked (hq : req.qpairId ≠ 0) :
    isLocked ((crc32UnlockLba ns req).entry j) = true ↔
      isLocked (ns.entry j) = true ∧ ¬req.Locks ns j := by
  have hn := req.cmd.nlbField_lt
  simp only [crc32UnlockLba, if_neg hq, Request.Locks]
  split_ifs
  · exact isLocked_clearLockBits (by omega)
  · exact isLocked_clearLockRanges _ _
  · simp

theorem lockLba_of_false (h : (crc32LockLba ns req).2 = false) : (crc32LockLba ns req).1 = ns := by
  simp only [crc32LockLba] at h ⊢
  split_ifs at h ⊢ <;> rfl

theorem isLocked_of_lockLba (h : isLocked ((crc32LockLba ns req).1.entry j) = true) :
    isLocked (ns.entry j) = true ∨
      ((crc32LockLba ns req).2 = true ∧ req.qpairId ≠ 0 ∧ req.Locks ns j) := by
  rcases hl : (crc32LockLba ns req).2 with _ | _
  · rw [lockLba_of_false hl] at h
    exact .inl h
  · by_cases hq : req.qpairId = 0
    · rw [crc32LockLba, if_pos hq] at h
      exact .inl h
    · exact ((lockLba_isLocked hq hl).1 h).imp_right fun hL => ⟨rfl, hq, hL⟩

theorem isLocked_of_unlockLba (h : isLocked ((crc32UnlockLba ns req).entry j) = true) :
    isLocked (ns.entry j) = true ∧ ¬(req.qpairId ≠ 0 ∧ req.Locks ns j) := by
  by_cases hq : req.qpairId = 0
  · rw [crc32UnlockLba, if_pos hq] at h
    exact ⟨h, fun hne => hne.1 hq⟩
  · obtain ⟨hl, hL⟩ := (unlockLba_isLocked hq).1 h
    exact ⟨hl, fun hne => hL hne.2⟩

theorem crcOf_lockLba (ns : Ns) (req : Request) (j : Nat) :
    crcOf ((crc32LockLba ns req).1.entry j) = crcOf (ns.entry j) := by
  have hn := req.cmd.nlbField_lt
  simp only [crc32LockLba]
  split_ifs <;> first | rfl | exact crcOf_setLockBits (by omega) | exact crcOf_setLockRanges _ _

theorem crcOf_unlockLba (ns : Ns) (req : Request) (j : Nat) :
    crcOf ((crc32UnlockLba ns req).entry j) = crcOf (ns.entry j) := by
  have hn := req.cmd.nlbField_lt
  simp only [crc32UnlockLba]
  split_ifs <;> first | rfl | exact crcOf_setLockBits (by omega) | exact crcOf_setLockRanges _ _

@[simp] theorem shape_lockLba (ns : Ns) (req : Request) :
    (crc32LockLba ns req).1.shape = ns.shape := by
  simp only [crc32LockLba]
  split_ifs <;> first | rfl | exact shape_setLockBits | exact shape_setLockRanges _ _

@[simp] theorem shape_unlockLba (ns : Ns) (req : Request) :
    (crc32UnlockLba ns req).shape = ns.shape := by
  simp only [crc32UnlockLba]
  split_ifs <;> first | rfl | exact shape_setLockBits | exact shape_setLockRanges _ _

/-! ### Requests below `2 ^ 62` -/

/-- The LBAs a request covers: those of its range, or of its DSM ranges. -/
def Request.Covers (req : Request) (lba : Nat) : Prop :=
  if isRangeOpc req.cmd.opc then
    req.cmd.slba ≤ lba ∧ lba < req.cmd.slba + (req.cmd.nlbField + 1)
  else if isDsmOpc req.cmd.opc then
    ∃ i < req.cmd.dsmCount, (dsmRange req.buf i).startingLba ≤ lba ∧
      lba < (dsmRange req.buf i).startingLba + (dsmRange req.buf i).length
  else False

/-- A request of an IO queue whose ranges start below `2 ^ 62` and have at most
    `65535` blocks. -/
structure Request.Small (req : Request) : Prop where
  io : req.qpairId ≠ 0
  range : isRangeOpc req.cmd.opc = true → req.cmd.slba < 2 ^ 62 ∧ req.cmd.nlbField + 1 ≤ 65535
  ranges : isDsmOpc req.cmd.opc = true → ∀ i < req.cmd.dsmCount,
    (dsmRange req.buf i).startingLba < 2 ^ 62 ∧ (dsmRange req.buf i).length ≤ 65535

theorem isRangeOpc_of_isDsmOpc {opc : BitVec 8} (h : isDsmOpc opc = true) :
    isRangeOpc opc = false := by
  obtain rfl : opc = 9#8 := by simpa [isDsmOpc] using h
  rfl

theorem ne_dsm_of_isRangeOpc {opc : BitVec 8} (h : isRangeOpc opc = true) : opc ≠ 9#8 := by
  rintro rfl
  cases h

/-- In the table, the entries a request locks are those of the LBAs it covers. -/
theorem Request.Small.locks_iff (h : req.Small) (ht : ns.crcTable.isSome) (hj : j < ns.entries) :
    req.Locks ns j ↔ req.Covers j := by
  unfold Request.Locks Request.Covers
  split_ifs with hr hd
  · obtain ⟨hs, hn⟩ := h.range hr
    exact lockSpan_iff ht hs (by omega) hj
  · refine exists_congr fun i => and_congr_right fun hi => ?_
    obtain ⟨hs, hn⟩ := h.ranges hd i hi
    exact lockSpan_iff ht hs (by omega) hj
  · rfl

/-- A successful attempt has found no entry it locks locked. -/
theorem Request.Small.not_isLocked (h : req.Small) (hl : (crc32LockLba ns req).2 = true)
    (hj : req.Locks ns j) : isLocked (ns.entry j) = false := by
  rw [Bool.eq_false_iff]
  intro hlocked
  simp only [crc32LockLba, if_neg h.io] at hl
  simp only [Request.Locks] at hj
  split_ifs at hl hj with hr hc hd hany
  · obtain ⟨hs, hn⟩ := h.range hr
    exact hc (checkLockBits_iff.2 ⟨j, (checkSpan_iff_lockSpan hs (by omega)).2 hj, hlocked⟩)
  · obtain ⟨i, hi, hspan⟩ := hj
    obtain ⟨hs, hn⟩ := h.ranges hd i hi
    refine hany (List.any_eq_true.2 ⟨i, List.mem_range.2 hi, ?_⟩)
    exact checkLockBits_iff.2 ⟨j, (checkSpan_iff_lockSpan hs (by omega)).2 hspan, hlocked⟩

/-! ### The update of the table at a completion -/

theorem entry_clearRanges_of_not {buf : Bytes} {n : Nat}
    (h : ∀ i < n, ¬ClearSpan ns (dsmRange buf i).startingLba ((dsmRange buf i).length * 4) j) :
    (crc32ClearRanges ns buf n).entry j = ns.entry j := by
  refine (forLoop_induction (n := n)
    (I := fun _ (ns' : Ns) => ns'.shape = ns.shape ∧ ns'.entry j = ns.entry j) ⟨rfl, rfl⟩
    fun i hi ns' hns' => ⟨by rw [shape_clear, hns'.1], ?_⟩).2
  rw [entry_clear_of_not fun hs => h i hi ((clearSpan_of_shape hns'.1).1 hs), hns'.2]

theorem entry_clearRanges {buf : Bytes} {n : Nat}
    (h : ∃ i < n, ClearSpan ns (dsmRange buf i).startingLba ((dsmRange buf i).length * 4) j) :
    (crc32ClearRanges ns buf n).entry j = 0#32 := by
  induction n with
  | zero => simp at h
  | succ n ih =>
    have hlen := dsmRange_length_lt buf n
    have hshape : (crc32ClearRanges ns buf n).shape = ns.shape := shape_clearRanges buf n
    change (crc32Clear (crc32ClearRanges ns buf n) _ _ false).entry j = 0#32
    by_cases hlast : ClearSpan ns (dsmRange buf n).startingLba ((dsmRange buf n).length * 4) j
    · rw [entry_clear (by omega) ((clearSpan_of_shape hshape).2 hlast)]
      rfl
    · rw [entry_clear_of_not (mt (clearSpan_of_shape hshape).1 hlast)]
      obtain ⟨i, hi, hspan⟩ := h
      rcases Nat.lt_succ_iff_lt_or_eq.1 hi with hlt | rfl
      · exact ih ⟨i, hlt, hspan⟩
      · exact absurd hspan hlast

theorem lbaCount_eq {cmd : NvmeCmd} (h : cmd.nlbField + 1 ≤ 65535) :
    cmd.lbaCount = cmd.nlbField + 1 := u16_of_lt (by omega)

/-- The completion of a request updates no other entry than those it covers. -/
theorem Request.Small.updateCrc_entry (h : req.Small) (ht : ns.crcTable.isSome)
    (hj : j < ns.entries) (hc : ¬req.Covers j) :
    (cmdlogUpdateCrc crc32c ns req).entry j = ns.entry j := by
  have hL : ¬req.Locks ns j := fun hL => hc ((h.locks_iff ht hj).1 hL)
  have hrange : isRangeOpc req.cmd.opc = true → req.cmd.slba < 2 ^ 62 ∧
      req.cmd.lbaCount = req.cmd.nlbField + 1 ∧ req.cmd.nlbField + 1 < 2 ^ 16 ∧
      ¬LockSpan ns req.cmd.slba (req.cmd.nlbField + 1) j := by
    intro hr
    obtain ⟨hs, hn⟩ := h.range hr
    exact ⟨hs, lbaCount_eq hn, by omega, by simpa [Request.Locks, hr] using hL⟩
  simp only [cmdlogUpdateCrc, if_neg h.io, cmdlogUpdateCrcIo]
  split_ifs with h1 h4 h8 h9
  · obtain ⟨hs, hn, hlt, hspan⟩ := hrange (by rw [h1]; rfl)
    refine entry_updateCrc_of_not (by omega) fun ⟨_, _, hu⟩ => hspan ?_
    rw [hn] at hu
    exact (lockSpan_iff ht hs (by omega) hj).2 ((span_iff (by omega)).1 hu)
  · obtain ⟨hs, hn, hlt, hspan⟩ := hrange (by rw [h4]; rfl)
    exact entry_clear_of_not fun hcl => hspan ((clearSpan_iff_lockSpan hs (by omega)).1 (hn ▸ hcl))
  · obtain ⟨hs, hn, hlt, hspan⟩ := hrange (by rw [h8]; rfl)
    exact entry_clear_of_not fun hcl => hspan ((clearSpan_iff_lockSpan hs (by omega)).1 (hn ▸ hcl))
  · have hd : isDsmOpc req.cmd.opc = true := by rw [h9]; rfl
    refine entry_clearRanges_of_not fun i hi hcl => hL ?_
    obtain ⟨hs, hn⟩ := h.ranges hd i hi
    simp only [Request.Locks, isRangeOpc_of_isDsmOpc hd, hd, if_true, Bool.false_eq_true,
      if_false]
    exact ⟨i, hi, (clearSpan_iff_lockSpan hs (by omega)).1 hcl⟩
  · rfl

theorem Request.Small.cmdCpl_entry (h : req.Small) (ht : ns.crcTable.isSome)
    (hj : j < ns.entries) (hc : ¬req.Covers j) (status : Status) :
    (cmdlogCmdCpl crc32c ns req status).1.entry j = ns.entry j := by
  simp only [cmdlogCmdCpl]
  split_ifs
  · exact h.updateCrc_entry ht hj hc
  · exact h.updateCrc_entry ht hj hc
  · rfl

variable (crc32c ns req) in
theorem shape_cmdCpl (status : Status) :
    (cmdlogCmdCpl crc32c ns req status).1.shape = ns.shape := by
  simp only [cmdlogCmdCpl, cmdlogUpdateCrc]
  split_ifs <;> simp

theorem isLocked_of_clear {lba len : Nat} {uncorr : Bool} (hl : len ≤ 2 ^ 64)
    (h : isLocked ((crc32Clear ns lba len uncorr).entry j) = true) :
    isLocked (ns.entry j) = true := by
  by_cases hs : ClearSpan ns lba len j
  · rw [entry_clear hl hs] at h
    split_ifs at h <;> simp at h
  · rwa [entry_clear_of_not hs] at h

theorem isLocked_of_bufferUpdateCrc {buf : Bytes} {lba lbaCount lbaSize : Nat}
    (hn : lbaCount ≤ 2 ^ 64)
    (h : isLocked ((bufferUpdateCrc crc32c ns buf lba lbaCount lbaSize).entry j) = true) :
    isLocked (ns.entry j) = true := by
  by_cases hs : UpdateSpan ns lba lbaCount j
  · obtain ⟨ht, hj, i, hi, rfl⟩ := hs
    rw [entry_updateCrc hn ht hi hj, (bufferCalcCsum_ne _ _ _).2.2] at h
    cases h
  · rwa [entry_updateCrc_of_not hn hs] at h

theorem isLocked_of_clearRanges {buf : Bytes} {n : Nat}
    (h : isLocked ((crc32ClearRanges ns buf n).entry j) = true) :
    isLocked (ns.entry j) = true := by
  by_cases hs : ∃ i < n, ClearSpan ns (dsmRange buf i).startingLba ((dsmRange buf i).length * 4) j
  · rw [entry_clearRanges hs] at h
    cases h
  · rwa [entry_clearRanges_of_not fun i hi hc => hs ⟨i, hi, hc⟩] at h

theorem isLocked_of_updateCrcIo {cmd : NvmeCmd} {buf : Bytes}
    (h : isLocked ((cmdlogUpdateCrcIo crc32c cmd ns buf).entry j) = true) :
    isLocked (ns.entry j) = true := by
  have hn : cmd.lbaCount < 2 ^ 16 := u16_lt _
  rw [cmdlogUpdateCrcIo] at h
  split_ifs at h
  · exact isLocked_of_bufferUpdateCrc (by omega) h
  · exact isLocked_of_clear (by omega) h
  · exact isLocked_of_clear (by omega) h
  · exact isLocked_of_clearRanges h
  · exact h

/-- The update of the table at a completion locks nothing. -/
theorem isLocked_of_cmdCpl {status : Status}
    (h : isLocked ((cmdlogCmdCpl crc32c ns req status).1.entry j) = true) :
    isLocked (ns.entry j) = true := by
  have hupdate : isLocked ((cmdlogUpdateCrc crc32c ns req).entry j) = true →
      isLocked (ns.entry j) = true := by
    intro h
    have ht := ns.tableSize_lt
    rw [cmdlogUpdateCrc] at h
    split_ifs at h
    · exact isLocked_of_clear (by omega) h
    · exact h
    · exact isLocked_of_updateCrcIo h
  rw [cmdlogCmdCpl] at h
  split_ifs at h
  · exact hupdate h
  · exact h

/-! ### The invariant of the locks -/

/-- The invariant, for a table in which the entries `stray` were locked to begin
    with: besides those, the locked entries are those covered by the holders,
    and no entry is covered by two holders. -/
structure LockInv (stray : Nat → Prop) (ns : Ns) (holders : Nat → Option Request) : Prop where
  table : ns.crcTable.isSome
  small : ∀ {k req}, holders k = some req → req.Small
  locked : ∀ j < ns.entries, isLocked (ns.entry j) = true ↔
    stray j ∨ ∃ k req, holders k = some req ∧ req.Covers j
  not_stray : ∀ {k req}, holders k = some req → ∀ j < ns.entries, req.Covers j → ¬stray j
  disjoint : ∀ {k k' req req'}, k ≠ k' → holders k = some req → holders k' = some req' →
    ∀ j < ns.entries, req.Covers j → ¬req'.Covers j

namespace LockInv

variable {stray : Nat → Prop} {holders : Nat → Option Request} {k : Nat}

/-- Nobody holds a lock. -/
theorem init (ht : ns.crcTable.isSome) :
    LockInv (fun j => isLocked (ns.entry j) = true) ns fun _ => none where
  table := ht
  small h := nomatch h
  locked j _ := by simp
  not_stray h := nomatch h
  disjoint _ h := nomatch h

/-- A successful attempt adds a holder. -/
theorem acquire (h : LockInv stray ns holders) (hk : holders k = none) (hs : req.Small)
    (hl : (crc32LockLba ns req).2 = true) :
    LockInv stray (crc32LockLba ns req).1 (Function.update holders k (some req)) := by
  have hshape := shape_lockLba ns req
  have hN : (crc32LockLba ns req).1.entries = ns.entries := Ns.entries_of_shape hshape
  -- What the new holder covers was not locked before, hence neither stray nor held.
  have hfree : ∀ j < ns.entries, req.Covers j → ¬(stray j ∨ ∃ k req, holders k = some req ∧
      req.Covers j) := by
    intro j hj hc
    rw [← h.locked j hj, hs.not_isLocked hl ((hs.locks_iff h.table hj).2 hc)]
    exact Bool.false_ne_true
  refine ⟨by rw [Ns.isSome_of_shape hshape]; exact h.table, fun {i r} hr => ?_, fun j hj => ?_,
    fun {i r} hr j hj hc => ?_, fun {i i' r r'} hne hr hr' j hj hc hc' => ?_⟩
  · rcases update_eq_some_iff.1 hr with ⟨-, ⟨⟩⟩ | ⟨-, hr⟩
    · exact hs
    · exact h.small hr
  · rw [hN] at hj
    rw [lockLba_isLocked hs.io hl, h.locked j hj, hs.locks_iff h.table hj, or_assoc]
    refine or_congr_right ⟨?_, ?_⟩
    · rintro (⟨i, r, hr, hc⟩ | hc)
      · have hi : i ≠ k := fun hi => by simp [hi ▸ hr] at hk
        exact ⟨i, r, by rwa [Function.update_of_ne hi], hc⟩
      · exact ⟨k, req, Function.update_self _ _ _, hc⟩
    · rintro ⟨i, r, hr, hc⟩
      rcases update_eq_some_iff.1 hr with ⟨-, ⟨⟩⟩ | ⟨-, hr⟩
      · exact .inr hc
      · exact .inl ⟨i, r, hr, hc⟩
  · rw [hN] at hj
    rcases update_eq_some_iff.1 hr with ⟨-, ⟨⟩⟩ | ⟨-, hr⟩
    · exact fun hst => hfree j hj hc (.inl hst)
    · exact h.not_stray hr j hj hc
  · rw [hN] at hj
    rcases update_eq_some_iff.1 hr with ⟨rfl, ⟨⟩⟩ | ⟨-, hr⟩
    · rw [Function.update_of_ne (Ne.symm hne)] at hr'
      exact hfree j hj hc (.inr ⟨i', r', hr', hc'⟩)
    · rcases update_eq_some_iff.1 hr' with ⟨-, ⟨⟩⟩ | ⟨-, hr'⟩
      · exact hfree j hj hc' (.inr ⟨i, r, hr, hc⟩)
      · exact h.disjoint hne hr hr' j hj hc hc'

/-- A holder may change its buffer, as long as it covers the same LBAs. -/
theorem replace (h : LockInv stray ns holders) {req' : Request} (hk : holders k = some req)
    (hs : req'.Small) (hc : ∀ j, req'.Covers j ↔ req.Covers j) :
    LockInv stray ns (Function.update holders k (some req')) := by
  -- Every holder covers what it covered before.
  have hold : ∀ {i r}, Function.update holders k (some req') i = some r →
      ∃ r₀, holders i = some r₀ ∧ (∀ j, r.Covers j ↔ r₀.Covers j) ∧ r.Small := by
    intro i r hr
    rcases update_eq_some_iff.1 hr with ⟨rfl, ⟨⟩⟩ | ⟨-, hr⟩
    · exact ⟨req, hk, hc, hs⟩
    · exact ⟨r, hr, fun _ => Iff.rfl, h.small hr⟩
  refine ⟨h.table, fun hr => ?_, fun j hj => ?_, fun hr j hj hcov => ?_,
    fun hne hr hr' j hj hcov hcov' => ?_⟩
  · obtain ⟨_, _, _, hsmall⟩ := hold hr
    exact hsmall
  · rw [h.locked j hj]
    refine or_congr_right ⟨?_, ?_⟩
    · rintro ⟨i, r, hr, hcov⟩
      rcases eq_or_ne i k with rfl | hi
      · obtain rfl : req = r := Option.some.inj (hk.symm.trans hr)
        exact ⟨i, req', Function.update_self _ _ _, (hc j).2 hcov⟩
      · exact ⟨i, r, by rwa [Function.update_of_ne hi], hcov⟩
    · rintro ⟨i, r, hr, hcov⟩
      obtain ⟨r₀, hr₀, hiff, _⟩ := hold hr
      exact ⟨i, r₀, hr₀, (hiff j).1 hcov⟩
  · obtain ⟨r₀, hr₀, hiff, _⟩ := hold hr
    exact h.not_stray hr₀ j hj ((hiff j).1 hcov)
  · obtain ⟨r₀, hr₀, hiff, _⟩ := hold hr
    obtain ⟨r₀', hr₀', hiff', _⟩ := hold hr'
    exact h.disjoint hne hr₀ hr₀' j hj ((hiff j).1 hcov) ((hiff' j).1 hcov')

/-- A completion, having changed only entries its request covers, unlocks them. -/
theorem release (h : LockInv stray ns holders) (hk : holders k = some req)
    (hshape : ns'.shape = ns.shape)
    (hkeep : ∀ j < ns.entries, ¬req.Covers j → ns'.entry j = ns.entry j) :
    LockInv stray (crc32UnlockLba ns' req) (Function.update holders k none) := by
  have hs := h.small hk
  have hshape' := (shape_unlockLba ns' req).trans hshape
  have hN : (crc32UnlockLba ns' req).entries = ns.entries := Ns.entries_of_shape hshape'
  have ht' : ns'.crcTable.isSome := by rw [Ns.isSome_of_shape hshape]; exact h.table
  have hold : ∀ {i r}, Function.update holders k none i = some r → i ≠ k ∧ holders i = some r := by
    intro i r hr
    rcases update_eq_some_iff.1 hr with ⟨-, ⟨⟩⟩ | hr
    exact hr
  refine ⟨by rw [Ns.isSome_of_shape hshape']; exact h.table, fun hr => h.small (hold hr).2,
    fun j hj => ?_, fun hr j hj => ?_, fun hne hr hr' j hj => ?_⟩
  · rw [hN] at hj
    have hlocks := hs.locks_iff ht' (Ns.entries_of_shape hshape ▸ hj : j < ns'.entries)
    rw [unlockLba_isLocked hs.io, hlocks]
    constructor
    · rintro ⟨hl, hc⟩
      rw [hkeep j hj hc, h.locked j hj] at hl
      rcases hl with hst | ⟨i, r, hr, hcov⟩
      · exact .inl hst
      · have hi : i ≠ k := by
          rintro rfl
          obtain rfl : req = r := Option.some.inj (hk.symm.trans hr)
          exact hc hcov
        exact .inr ⟨i, r, by rwa [Function.update_of_ne hi], hcov⟩
    · intro hl
      have hc : ¬req.Covers j := by
        intro hc
        rcases hl with hst | ⟨i, r, hr, hcov⟩
        · exact h.not_stray hk j hj hc hst
        · exact h.disjoint (hold hr).1 (hold hr).2 hk j hj hcov hc
      refine ⟨?_, hc⟩
      rw [hkeep j hj hc, h.locked j hj]
      exact hl.imp_right fun ⟨i, r, hr, hcov⟩ => ⟨i, r, (hold hr).2, hcov⟩
  · exact h.not_stray (hold hr).2 j (hN ▸ hj)
  · exact h.disjoint hne (hold hr).2 (hold hr').2 j (hN ▸ hj)

end LockInv

/-! ### The machine of the locks -/

/-- The table, and the requests that hold locks in it. -/
structure LockState where
  ns : Ns
  holders : Nat → Option Request

/-- An attempt of the request `k` to lock its LBAs, or the completion of the
    holder `k`, with any status and any data in its buffer. (The ranges of a DSM
    command are not data: they stay.) -/
inductive LockEvent
  | lock (k : Nat) (req : Request)
  | complete (k : Nat) (status : Status) (buf : Bytes)

/-- A request at its completion, with the data its buffer holds by then. -/
def Request.withData (req : Request) (buf : Bytes) : Request :=
  if isDsmOpc req.cmd.opc then req else { req with buf }

variable (crc32c) in
/-- The step of the locks: a completion updates the table, and then unlocks. -/
def lockStep (s : LockState) : LockEvent → Option LockState
  | .lock k req =>
    match s.holders k with
    | some _ => none
    | none =>
      let attempt := crc32LockLba s.ns req
      some ⟨attempt.1, if attempt.2 then Function.update s.holders k (some req) else s.holders⟩
  | .complete k status buf =>
    match s.holders k with
    | none => none
    | some req =>
      let ns := (cmdlogCmdCpl crc32c s.ns (req.withData buf) status).1
      some ⟨crc32UnlockLba ns (req.withData buf), Function.update s.holders k none⟩

variable (crc32c) in
/-- The machine of the locks of `ns`, to begin with held by nobody. -/
def lockMachine (ns : Ns) : Machine LockState LockEvent where
  init s := s = ⟨ns, fun _ => none⟩
  step := lockStep crc32c

/-- The attempts considered: requests of IO queues over ranges that start below
    `2 ^ 62` and have at most `65535` blocks. -/
def LockRule (_ : LockState) : LockEvent → Prop
  | .lock _ req => req.Small
  | .complete _ _ _ => True

theorem Request.withData_covers (req : Request) (buf : Bytes) (lba : Nat) :
    (req.withData buf).Covers lba ↔ req.Covers lba := by
  unfold Request.withData
  split_ifs with hd
  · rfl
  · simp only [Request.Covers, hd, Bool.false_eq_true, if_false]

theorem Request.Small.withData (h : req.Small) (buf : Bytes) : (req.withData buf).Small := by
  unfold Request.withData
  split_ifs with hd
  · exact h
  · exact ⟨h.io, h.range, fun hd' => absurd hd' hd⟩

theorem lockStep_inv {stray : Nat → Prop} {s s' : LockState} {e : LockEvent}
    (h : LockInv stray s.ns s.holders) (hr : LockRule s e) (hstep : lockStep crc32c s e = some s') :
    LockInv stray s'.ns s'.holders ∧ s'.ns.shape = s.ns.shape := by
  cases e with
  | lock k req =>
    simp only [lockStep] at hstep
    split at hstep
    · cases hstep
    · rename_i hk
      cases hstep
      refine ⟨?_, shape_lockLba _ _⟩
      rcases hl : (crc32LockLba s.ns req).2 with _ | _
      · simpa [lockLba_of_false hl] using h
      · exact h.acquire hk hr hl
  | complete k status buf =>
    simp only [lockStep] at hstep
    split at hstep
    · cases hstep
    · rename_i req hk
      cases hstep
      have hs := (h.small hk).withData buf
      have h' := h.replace hk hs (req.withData_covers buf)
      have hshape : (cmdlogCmdCpl crc32c s.ns (req.withData buf) status).1.shape = s.ns.shape :=
        shape_cmdCpl _ _ _ status
      refine ⟨?_, (shape_unlockLba _ _).trans hshape⟩
      have := h'.release (Function.update_self _ _ _) hshape fun j hj hc =>
        hs.cmdCpl_entry h.table hj hc status
      simpa using this

/-- In every state reached, whatever the order of the attempts and the
    completions, the locked entries are those the holders cover, besides those
    locked to begin with, and two holders cover no common entry. A failed attempt
    changes nothing, and neither locking nor unlocking changes a checksum. -/
theorem lock_mutual_exclusion (ns : Ns) (ht : ns.crcTable.isSome) :
    (∀ s, (lockMachine crc32c ns).Reachable LockRule s →
      (∀ j < ns.entries, isLocked (s.ns.entry j) = true ↔
        isLocked (ns.entry j) = true ∨ ∃ k req, s.holders k = some req ∧ req.Covers j) ∧
      ((∀ j < ns.entries, isLocked (ns.entry j) = false) → ∀ j < ns.entries,
        (isLocked (s.ns.entry j) = true ↔ ∃ k req, s.holders k = some req ∧ req.Covers j)) ∧
      ∀ k k' req req', k ≠ k' → s.holders k = some req → s.holders k' = some req' →
        ∀ j < ns.entries, req.Covers j → ¬req'.Covers j) ∧
    (∀ ns req, (crc32LockLba ns req).2 = false → (crc32LockLba ns req).1 = ns) ∧
    ∀ ns req j, crcOf ((crc32LockLba ns req).1.entry j) = crcOf (ns.entry j) ∧
      crcOf ((crc32UnlockLba ns req).entry j) = crcOf (ns.entry j) := by
  refine ⟨fun s hs => ?_, fun ns req => lockLba_of_false,
    fun ns req j => ⟨crcOf_lockLba ns req j, crcOf_unlockLba ns req j⟩⟩
  obtain ⟨hinv, hshape⟩ : LockInv (fun j => isLocked (ns.entry j) = true) s.ns s.holders ∧
      s.ns.shape = ns.shape := by
    refine hs.invariant (I := fun s => LockInv _ s.ns s.holders ∧ s.ns.shape = ns.shape) ?_ ?_
    · rintro _ rfl
      exact ⟨.init ht, rfl⟩
    · intro s e s' ⟨hinv, hshape⟩ hr hstep
      obtain ⟨hinv', hshape'⟩ := lockStep_inv hinv hr hstep
      exact ⟨hinv', hshape'.trans hshape⟩
  have hN : s.ns.entries = ns.entries := Ns.entries_of_shape hshape
  refine ⟨fun j hj => hinv.locked j (hN ▸ hj), fun hfree j hj => ?_,
    fun k k' req req' hne hk hk' j hj => hinv.disjoint hne hk hk' j (hN ▸ hj)⟩
  rw [hinv.locked j (hN ▸ hj), hfree j hj]
  simp

/-- A write of four blocks at LBA 0 of an unlocked table locks its four entries. -/
theorem lock_mutual_exclusion_write :
    let ns := Ns.formatted 8 512 8 (by decide) (by decide) (by decide)
    let req : Request := ⟨⟨1#8, 0#32, 0#32, 3#32, 0#32, 0#32, 0#32⟩, 1, fun _ => 0#8⟩
    ∀ j < 8, isLocked ((crc32LockLba ns req).1.entry j) = true ↔ j < 4 := by
  intro ns req j hj
  have hsmall : req.Small := ⟨by decide, fun _ => by decide, fun h => absurd h (by decide)⟩
  have hreach : (lockMachine (fun _ => 0#32) ns).Reachable LockRule
      ⟨(crc32LockLba ns req).1, Function.update (fun _ => none) 0 (some req)⟩ :=
    .step (.init rfl) (show LockRule _ (.lock 0 req) from hsmall)
      (by simp [lockMachine, lockStep, show (crc32LockLba ns req).2 = true by decide])
  have hN : ns.entries = 8 := by decide
  have h := ((lock_mutual_exclusion ns rfl).1 _ hreach).2.1
    (fun i _ => show isLocked (ns.entry i) = false by simp [ns, Ns.formatted, Ns.entry]) j (hN ▸ hj)
  have hcov : req.Covers j ↔ j < 4 := by
    simp only [Request.Covers, show isRangeOpc req.cmd.opc = true by decide, if_true,
      show req.cmd.slba = 0 by decide, show req.cmd.nlbField = 3 by decide]
    omega
  rw [h, ← hcov]
  constructor
  · rintro ⟨k, r, hr, hc⟩
    dsimp only at hr
    rcases update_eq_some_iff.1 hr with ⟨-, ⟨⟩⟩ | ⟨-, ⟨⟩⟩
    exact hc
  · exact fun hc => ⟨0, req, by simp, hc⟩

end Pynvme
