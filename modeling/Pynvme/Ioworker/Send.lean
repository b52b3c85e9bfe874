import Pynvme.Ioworker.State

/-!
# Sending an IO

An ioworker draws the operation, the size and the LBA of its next IO: the LBA is
that of a sequential cursor, or random in the region or in a section of it, rounded
up to the alignment of the size, or down if that would leave the region. A replayed
IO takes all of them from the sequence, after they were drawn.

Every draw of `random()` is given (`Draws`).
-/

namespace Pynvme

open Word

/-- The macro `ALIGN_UP`, on 64-bit integers. -/
def alignUp (n a : Nat) : Nat := if n % a ≠ 0 then u64 (n + a - n % a) else n

/-- The macro `ALIGN_DOWN`. -/
def alignDown (n a : Nat) : Nat := n - n % a

/-- What `random()` gives: for the operation, the size, the choice between
    sequential and random, the section, and the LBA. -/
structure Draws where
  op : Nat
  size : Nat
  mode : Nat
  sect : Nat
  lba : Nat

/-- The draw makes the IO a random one. -/
def Draws.isRandom (d : Draws) (args : Args) : Bool := d.mode % 100 < args.lbaRandom

/-- `ioworker_send_one_lba_sequential`. -/
def ioworkerSendOneLbaSequential (args : Args) (g : Gctx) : Nat :=
  if g.sequentialLba ≥ args.regionEnd then args.regionStart else g.sequentialLba

/-- The section `ioworker_send_one_lba_random` draws from. -/
def randomSection (args : Args) (g : Gctx) (d : Draws) : Section :=
  if g.distribution then g.dlTable.getD (d.sect % 10000) ⟨0, 0⟩
  else ⟨args.regionStart, args.regionEnd⟩

/-- `ioworker_send_one_lba_random`. -/
def ioworkerSendOneLbaRandom (args : Args) (g : Gctx) (d : Draws) : Except Abort Nat :=
  let s := randomSection args g d
  if s.lbaEnd = s.lbaStart then .ok s.lbaStart
  else if s.lbaEnd > s.lbaStart then .ok (d.lba % (s.lbaEnd - s.lbaStart) + s.lbaStart)
  else .error .lbaRandom

/-- `ioworker_send_one_size`: the size and its alignment. -/
def ioworkerSendOneSize (args : Args) (g : Gctx) (d : Draws) : Except Abort (Nat × Nat) :=
  if args.lbaSizeRatioSum = 0 then .error .divisionByZero
  else
    let si := g.slTable.getD (d.size % args.lbaSizeRatioSum) 0
    let e := args.lbaSizeList.getD si ⟨0, 0, 0⟩
    .ok (e.size, u16 e.align)

/-- The LBA before the alignment, of `ioworker_send_one_lba`: a sequential one is
    moved behind the LBAs marked uncorrectable. -/
def ioworkerRawLba (ns : Ns) (args : Args) (g : Gctx) (d : Draws) : Except Abort Nat :=
  if d.isRandom args then ioworkerSendOneLbaRandom args g d
  else
    match crc32SkipUncorr ns (ioworkerSendOneLbaSequential args g) with
    | none => .error .endlessLoop
    | some lba => .ok lba

/-- The alignment of `ioworker_send_one_lba`. -/
def ioworkerAlignLba (regionEnd lba lbaAlign : Nat) : Except Abort Nat :=
  if lbaAlign = 0 then .error .divisionByZero
  else
    let up := alignUp lba lbaAlign
    if up ≥ regionEnd then
      let down := alignDown (u64 (up + 2 ^ 64 - 1)) lbaAlign
      if down < regionEnd then .ok down else .error .lba
    else .ok up

/-- The cursor after a sequential IO at `lba`. -/
def nextSequentialLba (args : Args) (lba lbaCount : Nat) : Nat :=
  if args.lbaStepValid then ((lba + args.lbaStep) % 2 ^ 64).toNat else u64 (lba + lbaCount)

/-- `ioworker_send_one_lba`: the LBA, and the cursor it leaves. The parameter
    `lba_count` has 16 bits. -/
def ioworkerSendOneLba (ns : Ns) (args : Args) (g : Gctx) (lbaAlign lbaCount : Nat) (d : Draws) :
    Except Abort (Nat × Nat) := do
  let raw ← ioworkerRawLba ns args g d
  let lba ← ioworkerAlignLba args.regionEnd raw lbaAlign
  return (lba, if d.isRandom args then g.sequentialLba
    else nextSequentialLba args lba (u16 lbaCount))

/-- What `ioworker_send_one` passes to `ns_cmd_io`; `index` is the entry of the
    sequence. -/
structure Io where
  opcode : Nat
  lba : Nat
  count : Nat
  buf : Nat
  len : Nat
  index : Nat
  deriving DecidableEq

/-- What `ioworker_send_one` has computed when it calls `ns_cmd_io`: the IO, the
    operation, the cursor, and the size that was drawn. -/
structure Prepared where
  io : Io
  opIndex : Nat
  sequentialLba : Nat
  size : Nat

/-- The IO that `ioworker_send_one` makes of what was drawn, or is replayed. -/
def ioworkerSendOneIo (ns : Ns) (args : Args) (ctx : IoCtx) (io : IoSeq) : Except Abort Io :=
  -- truncate the tail out of the region
  let count := u32 (min io.nlba (u64 (args.regionEnd + 2 ^ 64 - io.slba)))
  if io.slba ≤ args.regionEnd then
    .ok {
      opcode := io.op
      lba := io.slba
      count
      buf := if io.op = 1 then ctx.writeBuf else ctx.dataBuf
      len := u32 (count * ns.sectorSize)
      index := ctx.ioSequenceIndex }
  else .error .send

/-- What is sent instead of what was drawn, if a sequence is replayed. -/
def ioworkerReplayOne (g : Gctx) (ctx : IoCtx) (opIndex : Nat) (drawn : IoSeq) : Nat × IoSeq :=
  match g.ioSequence with
  | none => (opIndex, drawn)
  | some seq =>
    let e := seq.getD ctx.ioSequenceIndex ⟨0, 0, 0, 0⟩
    (0, { e with op := e.op % 2 ^ 8 })

/-- `ioworker_send_one` until it calls `ns_cmd_io`. -/
def ioworkerSendOnePrepare (ns : Ns) (args : Args) (g : Gctx) (ctx : IoCtx) (d : Draws) :
    Except Abort Prepared := do
  let opIndex := g.opTable.getD (d.op % 100) 0
  let (size, lbaAlign) ← ioworkerSendOneSize args g d
  let (lba, sequentialLba) ← ioworkerSendOneLba ns args g lbaAlign size d
  let drawn : IoSeq := ⟨lba, 0, (args.opList.map Prod.fst).getD opIndex 0 % 2 ^ 8, size⟩
  let (opIndex, io) := ioworkerReplayOne g ctx opIndex drawn
  let io ← ioworkerSendOneIo ns args ctx io
  return { io, opIndex, sequentialLba, size }

/-! ### What is sent -/

variable {ns : Ns} {args : Args} {g : Gctx} {ctx : IoCtx} {d : Draws} {p : Prepared} {why : Abort}

theorem ioworkerSendOneIo_eq_ok {io : IoSeq} {io' : Io}
    (h : ioworkerSendOneIo ns args ctx io = .ok io') :
    io.slba ≤ args.regionEnd ∧ io'.lba = io.slba ∧
      io'.count = u32 (min io.nlba (u64 (args.regionEnd + 2 ^ 64 - io.slba))) ∧
      io'.index = ctx.ioSequenceIndex := by
  simp only [ioworkerSendOneIo] at h
  split at h
  · obtain rfl := Except.ok.inj h
    exact ⟨by assumption, rfl, rfl, rfl⟩
  · cases h

theorem ioworkerSendOneIo_opcode {io : IoSeq} {io' : Io}
    (h : ioworkerSendOneIo ns args ctx io = .ok io') : io'.opcode = io.op := by
  simp only [ioworkerSendOneIo] at h
  split at h
  · obtain rfl := Except.ok.inj h
    rfl
  · cases h

/-- A write goes to the write buffer of the context, and all else to the data buffer. -/
theorem ioworkerSendOneIo_buf {io : IoSeq} {io' : Io}
    (h : ioworkerSendOneIo ns args ctx io = .ok io') :
    io'.buf = (if io'.opcode = 1 then ctx.writeBuf else ctx.dataBuf) ∧
      io'.len = u32 (io'.count * ns.sectorSize) := by
  simp only [ioworkerSendOneIo] at h
  split at h
  · obtain rfl := Except.ok.inj h
    exact ⟨rfl, rfl⟩
  · cases h

theorem ioworkerSendOneIo_eq_error {io : IoSeq}
    (h : ioworkerSendOneIo ns args ctx io = .error why) :
    why = .send ∧ args.regionEnd < io.slba := by
  simp only [ioworkerSendOneIo] at h
  split at h
  · cases h
  · exact ⟨(Except.error.inj h).symm, by omega⟩

/-- The IO has the size and the LBA that were drawn, or those of the entry that is
    replayed, but for what is out of the region. -/
theorem ioworkerSendOnePrepare_eq_ok (h : ioworkerSendOnePrepare ns args g ctx d = .ok p) :
    ∃ align raw lba opIndex op, ioworkerSendOneSize args g d = .ok (p.size, align) ∧
      ioworkerRawLba ns args g d = .ok raw ∧ ioworkerAlignLba args.regionEnd raw align = .ok lba ∧
      (p.sequentialLba = if d.isRandom args then g.sequentialLba
        else nextSequentialLba args lba (u16 p.size)) ∧
      ioworkerSendOneIo ns args ctx
        (ioworkerReplayOne g ctx opIndex ⟨lba, 0, op, p.size⟩).2 = .ok p.io := by
  obtain ⟨⟨size, align⟩, hsize, h⟩ := Except.bind_eq_ok.1 h
  obtain ⟨⟨lba, cursor⟩, hlba, h⟩ := Except.bind_eq_ok.1 h
  obtain ⟨raw, hraw, hlba⟩ := Except.bind_eq_ok.1 hlba
  obtain ⟨lba', halign, hlba⟩ := Except.bind_eq_ok.1 hlba
  cases Except.pure_eq_ok.1 hlba
  obtain ⟨io, hio, h⟩ := Except.bind_eq_ok.1 h
  obtain rfl := Except.pure_eq_ok.1 h
  exact ⟨align, raw, lba, _, _, hsize, hraw, halign, rfl, hio⟩

/-- The replayed IO is that of the entry. -/
theorem ioworkerSendOnePrepare_index (h : ioworkerSendOnePrepare ns args g ctx d = .ok p) :
    p.io.index = ctx.ioSequenceIndex := by
  obtain ⟨⟨size, align⟩, -, h⟩ := Except.bind_eq_ok.1 h
  obtain ⟨⟨lba, cursor⟩, -, h⟩ := Except.bind_eq_ok.1 h
  obtain ⟨io, hio, h⟩ := Except.bind_eq_ok.1 h
  obtain rfl := Except.pure_eq_ok.1 h
  exact (ioworkerSendOneIo_eq_ok hio).2.2.2

/-- An IO that cannot be sent: no size or no LBA was found, or the LBA is out of the
    region. -/
theorem ioworkerSendOnePrepare_eq_error
    (h : ioworkerSendOnePrepare ns args g ctx d = .error why) :
    ioworkerSendOneSize args g d = .error why ∨
      ∃ size align, ioworkerSendOneSize args g d = .ok (size, align) ∧
        (ioworkerRawLba ns args g d = .error why ∨
          ∃ raw, ioworkerRawLba ns args g d = .ok raw ∧
            (ioworkerAlignLba args.regionEnd raw align = .error why ∨
              ∃ lba opIndex op, ioworkerAlignLba args.regionEnd raw align = .ok lba ∧
                ioworkerSendOneIo ns args ctx
                  (ioworkerReplayOne g ctx opIndex ⟨lba, 0, op, size⟩).2 = .error why)) := by
  rcases Except.bind_eq_error.1 h with h | ⟨⟨size, align⟩, hsize, h⟩
  · exact .inl h
  refine .inr ⟨size, align, hsize, ?_⟩
  rcases Except.bind_eq_error.1 h with h | ⟨⟨lba, cursor⟩, hlba, h⟩
  · rcases Except.bind_eq_error.1 h with h | ⟨raw, hraw, h⟩
    · exact .inl h
    · rcases Except.bind_eq_error.1 h with h | ⟨_, _, h⟩
      · exact .inr ⟨raw, hraw, .inl h⟩
      · cases h
  · obtain ⟨raw, hraw, hlba⟩ := Except.bind_eq_ok.1 hlba
    obtain ⟨lba', halign, hlba⟩ := Except.bind_eq_ok.1 hlba
    cases Except.pure_eq_ok.1 hlba
    rcases Except.bind_eq_error.1 h with h | ⟨_, _, h⟩
    · exact .inr ⟨raw, hraw, .inr ⟨lba, _, _, halign, h⟩⟩
    · cases h

theorem ioworkerSendOneSize_eq_error (h : ioworkerSendOneSize args g d = .error why) :
    why = .divisionByZero := by
  rw [ioworkerSendOneSize] at h
  split_ifs at h
  exact (Except.error.inj h).symm

theorem ioworkerRawLba_eq_error (h : ioworkerRawLba ns args g d = .error why) :
    (why = .lbaRandom ∧ d.isRandom args = true ∧
      (randomSection args g d).lbaEnd < (randomSection args g d).lbaStart) ∨
    why = .endlessLoop := by
  rw [ioworkerRawLba] at h
  split_ifs at h with hr
  · simp only [ioworkerSendOneLbaRandom] at h
    split_ifs at h
    exact .inl ⟨(Except.error.inj h).symm, hr, by omega⟩
  · split at h
    · exact .inr (Except.error.inj h).symm
    · cases h

theorem ioworkerAlignLba_eq_error {regionEnd lba lbaAlign : Nat}
    (h : ioworkerAlignLba regionEnd lba lbaAlign = .error why) :
    why = .divisionByZero ∨ why = .lba := by
  simp only [ioworkerAlignLba] at h
  split_ifs at h
  · exact .inl (Except.error.inj h).symm
  · exact .inr (Except.error.inj h).symm

/-- The sending of an IO trips none of the assertions on the arguments and the count. -/
theorem ioworkerSendOnePrepare_error_ne (h : ioworkerSendOnePrepare ns args g ctx d = .error why) :
    why ≠ .isFinish ∧ why ≠ .entry := by
  rcases ioworkerSendOnePrepare_eq_error h with h | ⟨_, _, _, h | ⟨_, _, h | ⟨_, _, _, _, h⟩⟩⟩
  · simp [ioworkerSendOneSize_eq_error h]
  · rcases ioworkerRawLba_eq_error h with ⟨h, -⟩ | h <;> simp [h]
  · rcases ioworkerAlignLba_eq_error h with h | h <;> simp [h]
  · simp [(ioworkerSendOneIo_eq_error h).1]

end Pynvme
