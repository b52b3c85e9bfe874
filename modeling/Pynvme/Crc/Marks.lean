import Pynvme.Crc.Lock

/-!
# Marked LBAs

The CRC table has a reserved checksum for the LBAs that are uncorrectable. A write
uncorrectable marks its LBAs, whatever its status; a write, a write zeroes or a DSM command
that succeeds removes the marks of its LBAs.

`marks_of_reachable`: with any number of commands in flight, and in any order of their
completions, the marked LBAs are those of this set.
-/

namespace Pynvme

open Word

variable {crc32c : List (BitVec 8) → BitVec 32} {ns : Ns} {req : Request} {status : Status}
  {buf : Bytes} {marked : Set Nat} {j lba len lbaCount lbaSize n : Nat}

/-! ### The set -/

/-- The commands that write to their LBAs what is read from them afterwards. -/
def isWriteOpc (opc : BitVec 8) : Bool := opc == 1#8 || opc == 8#8 || opc == 9#8

/-- The marked LBAs after the completion of a request. -/
def Request.marks (req : Request) (status : Status) (marked : Set Nat) : Set Nat :=
  if req.cmd.opc = 4#8 then marked ∪ {lba | req.Covers lba}
  else if isWriteOpc req.cmd.opc ∧ status.isError = false then marked \ {lba | req.Covers lba}
  else marked

/-- The marked LBAs after an event of the locks. -/
def recordMarks (marked : Set Nat) (s : LockState) (e : LockEvent) (_ : LockState) : Set Nat :=
  match e with
  | .lock _ _ => marked
  | .complete k status _ => ((s.holders k).map fun req => req.marks status marked).getD marked

/-- The LBAs that are marked in a table, whether they are locked or not. -/
def Ns.markedLbas (ns : Ns) : Set Nat := {lba | crcOf (ns.entry lba) = uncorrCrc}

theorem Request.mem_marks_of_not (h : ¬req.Covers lba) :
    lba ∈ req.marks status marked ↔ lba ∈ marked := by
  unfold Request.marks
  split_ifs
  · exact or_iff_left h
  · exact and_iff_left h
  · rfl

theorem Request.mem_marks_congr {marked' : Set Nat} (h : lba ∈ marked ↔ lba ∈ marked') :
    lba ∈ req.marks status marked ↔ lba ∈ req.marks status marked' := by
  unfold Request.marks
  split_ifs
  · exact or_congr_left h
  · exact and_congr_left fun _ => h
  · exact h

/-- A command that covers no marked LBA, and is not a write uncorrectable, changes no mark. -/
theorem Request.marks_eq (hopc : req.cmd.opc ≠ 4#8) (h : ∀ lba ∈ marked, ¬req.Covers lba) :
    req.marks status marked = marked := by
  rw [Request.marks, if_neg hopc]
  split_ifs
  · exact Set.ext fun lba => and_iff_left_of_imp (h lba)
  · rfl

/-- The data of a command is not in what it marks. -/
theorem Request.withData_marks (req : Request) (buf : Bytes) :
    (req.withData buf).marks status marked = req.marks status marked := by
  have hcmd : (req.withData buf).cmd = req.cmd := by
    unfold Request.withData
    split_ifs <;> rfl
  simp only [Request.marks, hcmd, Request.withData_covers]

/-! ### A completion -/

theorem crcOf_csum_ne (buf : Bytes) (off len : Nat) :
    crcOf (bufferCalcCsum crc32c buf off len) ≠ uncorrCrc := by
  rw [crcOf_of_not_isLocked (bufferCalcCsum_ne _ _ _).2.2]
  exact (bufferCalcCsum_ne _ _ _).2.1

/-- What the completion of a write leaves in the entries it covers. -/
theorem crcOf_bufferUpdateCrc_ne (hn : lbaCount ≤ 2 ^ 64) (h : UpdateSpan ns lba lbaCount j) :
    crcOf ((bufferUpdateCrc crc32c ns buf lba lbaCount lbaSize).entry j) ≠ uncorrCrc := by
  obtain ⟨ht, hj, i, hi, rfl⟩ := h
  rw [entry_updateCrc hn ht hi hj]
  exact crcOf_csum_ne _ _ _

/-- The range of a small request, as the loops of the table visit it. -/
theorem Request.Small.spans (h : req.Small) (hr : isRangeOpc req.cmd.opc = true)
    (ht : ns.crcTable.isSome) (hj : j < ns.entries) (hc : req.Covers j) :
    UpdateSpan ns req.cmd.slba req.cmd.lbaCount j ∧
      ClearSpan ns req.cmd.slba (req.cmd.lbaCount * 4) j := by
  obtain ⟨hs, hn⟩ := h.range hr
  rw [Request.Covers, if_pos hr] at hc
  rw [lbaCount_eq hn]
  exact ⟨⟨ht, hj, (span_iff (by omega)).2 hc⟩,
    (clearSpan_iff_lockSpan hs (by omega)).2 ((lockSpan_iff ht hs (by omega) hj).2 hc)⟩

theorem Request.Small.clearSpan_ranges (h : req.Small) (hd : isDsmOpc req.cmd.opc = true)
    (ht : ns.crcTable.isSome) (hj : j < ns.entries) (hc : req.Covers j) :
    ∃ i < req.cmd.dsmCount,
      ClearSpan ns (dsmRange req.buf i).startingLba ((dsmRange req.buf i).length * 4) j := by
  rw [Request.Covers, isRangeOpc_of_isDsmOpc hd, if_neg Bool.false_ne_true, if_pos hd] at hc
  obtain ⟨i, hi, hc⟩ := hc
  obtain ⟨hs, hn⟩ := h.ranges hd i hi
  exact ⟨i, hi, (clearSpan_iff_lockSpan hs (by omega)).2 ((lockSpan_iff ht hs (by omega) hj).2 hc)⟩

variable (crc32c) in
/-- The update of the table, of the entries that the request covers. -/
theorem Request.Small.crcOf_updateCrc (h : req.Small) (ht : ns.crcTable.isSome)
    (hj : j < ns.entries) (hc : req.Covers j) :
    crcOf ((cmdlogUpdateCrc crc32c ns req).entry j) = uncorrCrc ↔
      req.cmd.opc = 4#8 ∨ (isWriteOpc req.cmd.opc = false ∧ j ∈ ns.markedLbas) := by
  have hcount : req.cmd.lbaCount < 2 ^ 16 := u16_lt _
  rw [cmdlogUpdateCrc, if_neg h.io, cmdlogUpdateCrcIo]
  split_ifs with h1 h4 h8 h9
  · obtain ⟨hspan, -⟩ := h.spans (by rw [h1]; rfl) ht hj hc
    refine iff_of_false (crcOf_bufferUpdateCrc_ne (by omega) hspan) ?_
    rw [h1]
    simp [isWriteOpc]
  · obtain ⟨-, hspan⟩ := h.spans (by rw [h4]; rfl) ht hj hc
    rw [entry_clear (by omega) hspan]
    exact iff_of_true rfl (.inl h4)
  · obtain ⟨-, hspan⟩ := h.spans (by rw [h8]; rfl) ht hj hc
    rw [entry_clear (by omega) hspan, h8]
    simp [isWriteOpc, uncorrCrc, crcOf]
  · rw [entry_clearRanges (h.clearSpan_ranges (by rw [h9]; rfl) ht hj hc), h9]
    simp [isWriteOpc, uncorrCrc, crcOf]
  · simp [isWriteOpc, h1, h4, h8, h9, Ns.markedLbas]

variable (crc32c) in
/-- A completion marks, and removes marks, as `Request.marks` says. -/
theorem Request.Small.markedLbas_cmdCpl (h : req.Small) (ht : ns.crcTable.isSome)
    (hj : j < ns.entries) (status : Status) :
    j ∈ (cmdlogCmdCpl crc32c ns req status).1.markedLbas ↔
      j ∈ req.marks status ns.markedLbas := by
  by_cases hc : req.Covers j
  · have hmem : j ∈ {lba | req.Covers lba} := hc
    have hupdate := h.crcOf_updateCrc crc32c ht hj hc
    simp only [cmdlogCmdCpl, Request.marks]
    by_cases h4 : req.cmd.opc = 4#8
    · simp [h4, hmem, Ns.markedLbas, hupdate]
    · rcases hstatus : status.isError with _ | _
      · rcases hwrite : isWriteOpc req.cmd.opc with _ | _ <;>
          simp [h4, hc, hwrite, Ns.markedLbas, hupdate]
      · simp [h4]
  · rw [Request.mem_marks_of_not hc, Ns.markedLbas, Set.mem_ofPred_eq, h.cmdCpl_entry ht hj hc]
    rfl

/-! ### The runs -/

variable {s s' : LockState} {e : LockEvent}

/-- The marked LBAs are those of the set, and the locks are as before. -/
structure MarksInv (ns : Ns) (s : LockState) (marked : Set Nat) : Prop where
  locks : LockInv (fun lba => isLocked (ns.entry lba) = true) s.ns s.holders
  shape : s.ns.shape = ns.shape
  marks : ∀ lba < ns.entries, lba ∈ s.ns.markedLbas ↔ lba ∈ marked

theorem MarksInv.step (h : MarksInv ns s marked) (hr : LockRule s e)
    (hs : lockStep crc32c s e = some s') : MarksInv ns s' (recordMarks marked s e s') := by
  obtain ⟨hlocks, hshape⟩ := lockStep_inv h.locks hr hs
  refine ⟨hlocks, hshape.trans h.shape, fun lba hlba => ?_⟩
  have hmarks := h.marks lba hlba
  cases e with
  | lock k req =>
    simp only [lockStep] at hs
    split at hs
    · cases hs
    · obtain rfl := Option.some.inj hs
      rw [Ns.markedLbas, Set.mem_ofPred_eq, crcOf_lockLba]
      exact hmarks
  | complete k status buf =>
    simp only [lockStep] at hs
    split at hs
    · cases hs
    · rename_i req hk
      obtain rfl := Option.some.inj hs
      have hin : lba < s.ns.entries := Ns.entries_of_shape h.shape ▸ hlba
      have hcpl := ((h.locks.small hk).withData buf).markedLbas_cmdCpl crc32c
        h.locks.table hin status
      rw [Request.withData_marks, Request.mem_marks_congr hmarks] at hcpl
      rw [recordMarks, hk, Ns.markedLbas, Set.mem_ofPred_eq, crcOf_unlockLba]
      exact hcpl

theorem marksInv_of_reachable (ht : ns.crcTable.isSome)
    (h : ((lockMachine crc32c ns).withHistory ns.markedLbas recordMarks).Reachable
      (fun x e => LockRule x.1 e) (s, marked)) : MarksInv ns s marked := by
  refine h.invariant (I := fun x => MarksInv ns x.1 x.2) ?_ ?_
  · rintro ⟨s, marked⟩ ⟨hinit, hmarked⟩
    obtain rfl : s = ⟨ns, fun _ => none⟩ := hinit
    obtain rfl : marked = ns.markedLbas := hmarked
    exact ⟨.init ht, rfl, fun _ _ => Iff.rfl⟩
  · rintro ⟨s, marked⟩ e ⟨s', marked'⟩ hinv hr hstep
    obtain ⟨hs, rfl⟩ := Machine.withHistory_step.1 hstep
    exact hinv.step hr hs

/-- The checksum without the lock. -/
theorem eq_uncorrCrc_iff {e : BitVec 32} :
    e = uncorrCrc ↔ crcOf e = uncorrCrc ∧ isLocked e = false := by
  constructor
  · rintro rfl
    exact ⟨rfl, rfl⟩
  · rintro ⟨hcrc, hlocked⟩
    rwa [crcOf_of_not_isLocked hlocked] at hcrc

/-- In every run of the locks, the LBAs with the reserved checksum are those that were marked by a
    write uncorrectable, and not written since. An entry is the reserved checksum itself, which
    a sequential workload skips, if in addition no command in flight covers it. -/
theorem marks_of_reachable (ht : ns.crcTable.isSome)
    (hfree : ∀ lba < ns.entries, isLocked (ns.entry lba) = false)
    (h : ((lockMachine crc32c ns).withHistory ns.markedLbas recordMarks).Reachable
      (fun x e => LockRule x.1 e) (s, marked)) (hlba : lba < ns.entries) :
    (crcOf (s.ns.entry lba) = uncorrCrc ↔ lba ∈ marked) ∧
      (s.ns.entry lba = uncorrCrc ↔
        lba ∈ marked ∧ ¬∃ k req, s.holders k = some req ∧ req.Covers lba) := by
  obtain ⟨hlocks, hshape, hmarks⟩ := marksInv_of_reachable ht h
  have hlocked := hlocks.locked lba (Ns.entries_of_shape hshape ▸ hlba)
  rw [hfree lba hlba] at hlocked
  refine ⟨hmarks lba hlba, ?_⟩
  rw [eq_uncorrCrc_iff, ← hmarks lba hlba, ← Bool.not_eq_true, hlocked]
  simp [Ns.markedLbas]

/-- A write uncorrectable of the LBAs 2 and 3. -/
def markTwo : Request := ⟨⟨4#8, 2#32, 0#32, 1#32, 0#32, 0#32, 0#32⟩, 1, fun _ => 0#8⟩

/-- A write zeroes of the LBAs 3 to 6. -/
def zeroFour : Request := ⟨⟨8#8, 3#32, 0#32, 3#32, 0#32, 0#32, 0#32⟩, 2, fun _ => 0#8⟩

/-- Both of them, one after the other. The first one fails. -/
def markEvents : List LockEvent :=
  [.lock 0 markTwo, .complete 0 .verifyFail fun _ => 0#8, .lock 1 zeroFour,
    .complete 1 .success fun _ => 0#8]

/-- The namespace of their LBAs. -/
def markNs : Ns := .formatted 9 16384 9 (by decide) (by decide) (by decide)

/-- The LBA 2 stays marked. -/
theorem marks_of_reachable_two : ∃ s marked,
    ((lockMachine (fun _ => 0#32) markNs).withHistory markNs.markedLbas recordMarks).Reachable
      (fun x e => LockRule x.1 e) (s, marked) ∧
    ∀ lba < 9, crcOf (s.ns.entry lba) = uncorrCrc ↔ lba = 2 := by
  have hstart : ((lockMachine (fun _ => 0#32) markNs).withHistory markNs.markedLbas
      recordMarks).Reachable (fun x e => LockRule x.1 e)
      (⟨markNs, fun _ => none⟩, markNs.markedLbas) := .init ⟨rfl, rfl⟩
  have hsmall : markTwo.Small ∧ zeroFour.Small :=
    ⟨⟨by decide, fun _ => by decide, fun h => absurd h (by decide)⟩,
      ⟨by decide, fun _ => by decide, fun h => absurd h (by decide)⟩⟩
  obtain ⟨⟨s, marked⟩, hreach, hmarked⟩ := hstart.exists_run (f := Prod.snd)
    (t := zeroFour.marks .success (markTwo.marks .verifyFail markNs.markedLbas)) markEvents
    (Machine.admits_of_forall (by simp [markEvents, LockRule, hsmall]) _) rfl
  obtain rfl : marked = _ := hmarked
  refine ⟨s, _, hreach, fun lba hlba => ?_⟩
  have hfree : ∀ lba < markNs.entries, isLocked (markNs.entry lba) = false := by decide
  have hclear : lba ∉ markNs.markedLbas :=
    (by decide : ∀ lba < markNs.entries, crcOf (markNs.entry lba) ≠ uncorrCrc) lba hlba
  have htwo : markTwo.Covers lba ↔ 2 ≤ lba ∧ lba < 4 := Iff.rfl
  have hfour : zeroFour.Covers lba ↔ 3 ≤ lba ∧ lba < 7 := Iff.rfl
  have hmem : lba ∈ zeroFour.marks .success (markTwo.marks .verifyFail markNs.markedLbas) ↔
      (lba ∈ markNs.markedLbas ∨ markTwo.Covers lba) ∧ ¬zeroFour.Covers lba := Iff.rfl
  rw [(marks_of_reachable rfl hfree hreach hlba).1, hmem, htwo, hfour, or_iff_right hclear]
  omega

end Pynvme
