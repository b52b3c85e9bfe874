import Pynvme.Ioworker.Send
import Pynvme.Lib.Loop
import Pynvme.Lib.Machine

/-!
# The loop of an ioworker

`ioworker_entry` checks and revises its arguments, queues a first batch of
contexts (`ioworkerStart`), and then loops: it sends the context at the head of
the pending list when its time has come, checks the time and the termination
signal, and processes completions, whose callback (`ioworkerOneCb`) decides if
the worker is finished, and queues the context again if it is not.

The loop is a machine (`ioworkerMachine`): its events are the steps of an
iteration, with what the clock, the random numbers, the driver and the device
give. No submission completes synchronously. The state also records, for the
specifications, the IOs passed to `ns_cmd_io`, the completions, and the contexts
in flight and those whose submission failed (`Worker`).
-/

namespace Pynvme

open Word

/-! ### State -/

/-- What a worker is given besides its arguments: the namespace, the largest
    transfer of the controller, the readings of the clock at the start, and if the
    buffers can be allocated. -/
structure Env where
  ns : Ns
  maxXferSize : Nat
  testStart : Timeval
  sequenceStart : Timeval
  batchTime : Nat → Timeval
  poolAllocated : Bool

/-- Where the worker is: at the head of the loop, after the sending part, after the
    checks, or in the processing of completions, with the number of those so far. It
    is refused before the loop, has left the loop, or was aborted. -/
inductive Pc
  | head
  | sent
  | checked
  | polling (completions : Nat)
  | refused (ret : Int)
  | exited (ret : Int)
  | aborted (why : Abort)
  deriving DecidableEq

/-- A completion: its context and status, and the readings of the clock in the
    callback. -/
structure Completion where
  ctx : Nat
  status : Status
  now : Timeval
  now' : Timeval

/-- The variables of `ioworker_entry` and of its callbacks; the contexts in flight
    and those lost by a failed submission; what was passed to `ns_cmd_io`, with what
    it returned; and the completions. -/
structure Worker where
  env : Env
  args : Args
  rets : Rets
  g : Gctx
  ioCtx : Nat → IoCtx
  seconds : Nat
  headIo : Option Nat
  now : Timeval
  cpuTime : Timeval
  inFlight : List Nat
  lost : List Nat
  issued : List (Prepared × Int)
  completions : List Completion
  pc : Pc

/-! ### Completions -/

/-- `ioworker_send_one_is_finish`. -/
def ioworkerSendOneIsFinish (args : Args) (g : Gctx) (now : Timeval) : Except Abort Bool :=
  -- touch the end of the trace
  if ∃ seq ∈ g.ioSequence, seq.length ≤ g.ioSequenceIndex then .ok true
  -- limit by io count, and/or time, which happens first
  else if g.ioCountSent = args.ioCount then .ok true
  else if g.ioCountSent < args.ioCount then .ok (now.gt g.dueTime)
  else .error .isFinish

/-- `ioworker_get_duration`, in milliseconds. -/
def ioworkerGetDuration (start now : Timeval) : Except Abort Nat :=
  if now.gt start then
    let diff := now.sub start
    .ok (u32 (u32 (diff.sec * 1000).toNat + ((diff.usec + 500) / 1000).toNat))
  else .error .duration

/-- `ioworker_update_rets`: the latency, and the results. -/
def ioworkerUpdateRets (ctx : IoCtx) (rets : Rets) (now : Timeval) : Nat × Rets :=
  let latency := (now.sub ctx.timeSent).toUs
  (latency,
    { rets with
      latencyMaxUs := max latency rets.latencyMaxUs
      ioCountRead := if ctx.opcode = 2 then rets.ioCountRead + 1 else rets.ioCountRead
      ioCountNonread := if ctx.opcode = 2 then rets.ioCountNonread else rets.ioCountNonread + 1 })

/-- The array after adding one to the element `i`. -/
def increment (a : Nat → Nat) (i : Nat) : Nat → Nat := Function.update a i (a i + 1)

/-- The context and the globals when the next IO is prepared: a replayed one takes
    the next entry of the sequence, a throttled one the next due time. -/
def ioworkerNextIo (g : Gctx) (ctx : IoCtx) : Gctx × IoCtx :=
  match g.ioSequence with
  | some seq =>
    match seq[g.ioSequenceIndex]? with
    | some e =>
      ({ g with ioSequenceIndex := g.ioSequenceIndex + 1 },
        { ctx with
          timeSent := g.ioSequenceStart.addUsecond e.timestamp
          ioSequenceIndex := g.ioSequenceIndex })
    | none => (g, ctx)
  | none =>
    if g.ioDelayTime.usec ≠ 0 then
      let due := g.ioDueTime.add g.ioDelayTime
      ({ g with ioDueTime := due }, { ctx with timeSent := due })
    else (g, ctx)

/-- `ioworker_update_io_count_per_second`, if a second has passed. -/
def ioworkerUpdateIoCountPerSecond (args : Args) (rets : Rets) (g : Gctx) (now : Timeval) :
    Args × Gctx :=
  match args.ioCounterPerSecond with
  | none => (args, g)
  | some counter =>
    if now.gt g.timeNextSec then
      let current := rets.ioCountRead + rets.ioCountNonread
      ({ args with ioCounterPerSecond := some (Function.update counter g.lastSec
          (u32 (current - g.ioCountTillLastSec))) },
        { g with
          timeNextSec := g.timeNextSec.addUsecond 1000000
          lastSec := u32 (g.lastSec + 1)
          ioCountTillLastSec := current })
    else (args, g)

/-- The command of a completed IO in `cmdlog_list`, where the oldest is overwritten. -/
def ioworkerLogCmd (args : Args) (g : Gctx) (cmd : Cmdlog) : Args × Gctx :=
  if args.cmdlogList.length ≠ 0 then
    let i := if g.currentCmdlogIndex = args.cmdlogList.length then 0 else g.currentCmdlogIndex
    ({ args with cmdlogList := args.cmdlogList.set i cmd }, { g with currentCmdlogIndex := i + 1 })
  else (args, g)

/-- The error code of a status, `(status >> 1) & 0x7ff`. -/
def Status.errorCode (s : Status) : Nat := s.sc.toNat + s.sct.toNat * 2 ^ 8

/-- `ioworker_one_cb` for the context `k`, until it checks if all io are sent. -/
def ioworkerCountOne (w : Worker) (k : Nat) (status : Status) (now : Timeval) : Worker :=
  let (latency, rets) := ioworkerUpdateRets (w.ioCtx k) w.rets now
  let args := { w.args with
    opList := w.args.opList.modify (w.ioCtx k).opIndex fun (op, count) => (op, count + 1)
    ioCounterPerLatency :=
      w.args.ioCounterPerLatency.map fun c => increment c (min 999999 latency) }
  let g := { w.g with
    ioCountCplt := u64 (w.g.ioCountCplt + 1)
    totalLatencyUs := u64 (w.g.totalLatencyUs + latency) }
  let (g, ctx) := ioworkerNextIo g (w.ioCtx k)
  -- terminate ioworker when any error happen, only keep the first error code
  let rets := { rets with
    error := if status.isError ∧ rets.error = 0 then status.errorCode else rets.error }
  let (args, g) := ioworkerUpdateIoCountPerSecond args rets g now
  { w with args, rets, g, ioCtx := Function.update w.ioCtx k ctx }

/-- The finish flag, after a completion with this status. -/
def ioworkerIsFinished (args : Args) (g : Gctx) (status : Status) (now : Timeval) :
    Except Abort Bool :=
  if g.flagFinish || status.isError then .ok true else ioworkerSendOneIsFinish args g now

/-- The rest of `ioworker_one_cb`: the context is queued again, unless the worker is
    finished. -/
def ioworkerQueueOne (w : Worker) (k : Nat) (finish : Bool) : Worker :=
  let g := { w.g with
    flagFinish := finish
    ioCountSent := if finish then w.g.ioCountSent else u64 (w.g.ioCountSent + 1)
    pendingIoList := if finish then w.g.pendingIoList else w.g.pendingIoList ++ [k] }
  let (args, g) := ioworkerLogCmd w.args g (w.ioCtx k).cmd
  { w with args, g }

/-- `ioworker_one_cb`, for the context `k`; the clock is read twice. -/
def ioworkerOneCb (w : Worker) (k : Nat) (status : Status) (now now' : Timeval) :
    Except Abort Worker := do
  let w' := ioworkerCountOne w k status now
  let finish ← ioworkerIsFinished w'.args w'.g status now'
  return { ioworkerQueueOne w' k finish with
    inFlight := w.inFlight.erase k
    completions := w.completions ++ [⟨k, status, now, now'⟩] }

/-! ### The start -/

/-- The arguments with the largest size of an IO: that of a replayed one is unknown,
    so set to max transfer size. -/
def ioworkerSizeArgs (env : Env) (args : Args) : Args :=
  if args.ioSequence.isSome then { args with lbaSizeMax := env.maxXferSize / env.ns.sectorSize }
  else args

/-- The arguments, as `ioworker_entry` revises them. -/
def ioworkerReviseArgs (nsze : Nat) (args : Args) : Args :=
  let ioCount := if args.ioCount = 0 then 2 ^ 64 - 1 else args.ioCount
  -- adjust region to start_lba's region, but included here
  let regionStart := alignUp args.regionStart args.lbaAlignMax
  { args with
    ioCount
    -- run ioworker for 1000hr at most (due to 32-bit mseconds)
    seconds := if args.seconds = 0 ∨ args.seconds > 1000 * 3600 then 1000 * 3600 else args.seconds
    regionStart
    regionEnd := min nsze args.regionEnd
    lbaStart := if args.lbaStart < regionStart then regionStart else args.lbaStart
    -- reserve one depth in the queue
    qdepth := (if ioCount < args.qdepth then ioCount + 1 else args.qdepth) - 1 }

/-- The global context before the first batch, for the revised arguments. -/
def ioworkerInitGctx (env : Env) (args : Args) : Gctx where
  dueTime := env.testStart.addUsecond (1000000 * args.seconds)
  ioDueTime := env.testStart
  ioDelayTime := ⟨0, if args.iops = 0 then 0 else (1000000 / args.iops : Nat)⟩
  timeNextSec := env.testStart.addUsecond 1000000
  ioCountTillLastSec := 0
  sequentialLba := args.lbaStart
  ioCountSent := 0
  ioCountCplt := 0
  totalLatencyUs := 0
  lastSec := 0
  currentCmdlogIndex := 0
  flagFinish := false
  ioSequence := args.ioSequence
  ioSequenceIndex := 0
  ioSequenceStart := env.sequenceStart
  distribution := args.distribution.isSome
  dlTable := (args.distribution.map (ioworkerDistributionInit env.ns.numSectors args)).getD []
  slTable := ioworkerIosizeInit args
  opTable := ioworkerOpInit args
  pendingIoList := []

/-- The worker before the first batch, for the revised arguments. -/
def ioworkerInit (env : Env) (args : Args) (pc : Pc) : Worker where
  env := env
  args := args
  rets := {}
  g := ioworkerInitGctx env args
  ioCtx _ := ⟨0, 0, 0, 0, ⟨0, 0⟩, ⟨0, 0, 0⟩, 0⟩
  seconds := args.seconds
  headIo := none
  now := ⟨0, 0⟩
  cpuTime := ⟨0, 0⟩
  inFlight := []
  lost := []
  issued := []
  completions := []
  pc := pc

/-- The context `i` of the first batch: its buffers, and its place in the pending
    list, unless there is nothing left to replay. -/
def ioworkerBatchOne (i : Nat) (w : Worker) : Worker :=
  let bufferSize := u32 (w.args.lbaSizeMax * w.env.ns.sectorSize)
  let ctx := { w.ioCtx i with
    dataBuf := u32 (bufferSize * 2 * i)
    writeBuf := u32 (bufferSize * 2 * i) + bufferSize }
  if ∃ seq ∈ w.g.ioSequence, seq.length ≤ w.g.ioSequenceIndex then
    { w with ioCtx := Function.update w.ioCtx i ctx }
  else
    let (g, ctx) := ioworkerNextIo w.g { ctx with timeSent := w.env.batchTime i }
    { w with
      g := { g with
        pendingIoList := g.pendingIoList ++ [i]
        ioCountSent := u64 (g.ioCountSent + 1) }
      ioCtx := Function.update w.ioCtx i ctx }

/-- The assertion of `buffer_init`, which fills the buffers: the value of a random
    pattern is a percentage. -/
def BufferInitAsserts (ptype pvalue : Nat) : Prop := ptype = 0xbeef → pvalue ≤ 100

instance (ptype pvalue : Nat) : Decidable (BufferInitAsserts ptype pvalue) :=
  inferInstanceAs (Decidable (_ → _))

/-- `ioworker_entry` until its loop. -/
def ioworkerStart (env : Env) (args : Args) : Worker :=
  if args.lbaSizeMax = 0 ∨ args.regionEnd ≤ args.regionStart ∨ 2050 / 2 < args.qdepth ∨
      1024 * 1024 ≤ args.cmdlogList.length then
    ioworkerInit env args (.aborted .entry)
  else if args.ioSequence.isSome ∧ env.ns.sectorSize = 0 then
    ioworkerInit env args (.aborted .divisionByZero)
  else
    let args := ioworkerSizeArgs env args
    -- check io size
    if u32 (args.lbaSizeMax * env.ns.sectorSize) > env.maxXferSize then
      { ioworkerInit env args (.refused (-2)) with rets := { error := 2 } }
    else if args.lbaAlignMax = 0 then ioworkerInit env args (.aborted .divisionByZero)
    else
      let w := ioworkerInit env (ioworkerReviseArgs env.ns.numSectors args) .head
      if (w.g.distribution ∧ w.g.dlTable.length ≠ 10000) ∨ 10000 < args.lbaSizeRatioSum ∨
          w.g.slTable.length ≠ args.lbaSizeRatioSum ∨ w.g.opTable.length ≠ 100 then
        { w with pc := .aborted .entry }
      else if !env.poolAllocated then { w with pc := .refused (-5) }
      else if ¬BufferInitAsserts args.ptype args.pvalue then { w with pc := .aborted .entry }
      else
        let w := forLoop w.args.qdepth ioworkerBatchOne w
        { w with headIo := w.g.pendingIoList.head? }

/-! ### The loop -/

/-- The condition of the loop. -/
def Worker.Continues (w : Worker) : Prop :=
  w.g.ioCountSent ≠ w.g.ioCountCplt ∨ w.g.flagFinish ≠ true ∨ w.headIo ≠ none

instance (w : Worker) : Decidable w.Continues :=
  inferInstanceAs (Decidable (_ ∨ _ ∨ _))

/-- The end of `ioworker_entry`, after the loop. -/
def ioworkerFinal (w : Worker) (ret : Int) : Worker :=
  if w.now.sec = 0 then { w with pc := .aborted .now }
  else
    match ioworkerGetDuration w.env.testStart w.now with
    | .error why => { w with pc := .aborted why }
    | .ok duration =>
      let total := w.rets.ioCountRead + w.rets.ioCountNonread
      if total = 0 then { w with pc := .aborted .divisionByZero }
      else
        { w with
          rets := { w.rets with
            mseconds := u32 (duration + 1)
            cpuUsage := w.cpuTime.toUs / 1000
            latencyAverageUs := u32 (w.g.totalLatencyUs / total) }
          -- the oldest command first
          args := { w.args with
            cmdlogList := w.args.cmdlogList.drop w.g.currentCmdlogIndex ++
              w.args.cmdlogList.take w.g.currentCmdlogIndex }
          pc := .exited ret }

/-- `ioworker_add_cpu_time`. -/
def ioworkerAddCpuTime (start now cpuTime : Timeval) : Timeval := (now.sub start).add cpuTime

/-- The context `k`, at the head of the pending list, is passed to `ns_cmd_io`,
    which returns `rc`. -/
def ioworkerSendOne (w : Worker) (k : Nat) (p : Prepared) (rc : Int) (timeSent : Timeval) :
    Worker :=
  let ctx := { w.ioCtx k with cmd := ⟨p.io.lba, p.io.count, p.io.opcode⟩ }
  let g := { w.g with sequentialLba := p.sequentialLba }
  if rc ≠ 0 then
    { w with
      g := { g with flagFinish := true }
      ioCtx := Function.update w.ioCtx k ctx
      lost := w.lost ++ [k]
      issued := w.issued ++ [(p, rc)] }
  else
    { w with
      g
      ioCtx := Function.update w.ioCtx k
        { ctx with opcode := p.io.opcode, opIndex := p.opIndex, timeSent }
      inFlight := w.inFlight ++ [k]
      issued := w.issued ++ [(p, rc)] }

/-- The steps of an iteration, and what the outside gives: the clock, the CRC table,
    the random numbers, and what the driver and the device return. -/
inductive IowEvent
  | send (now : Timeval) (table : Nat → BitVec 32) (d : Draws) (rc : Int) (timeSent after : Timeval)
  | check (terminate : Bool)
  | poll (now : Timeval)
  | complete (k : Nat) (status : Status) (now now' : Timeval)
  | next (after : Timeval)
  | leave

/-- The namespace of a worker, with the present contents of its CRC table. -/
def Worker.nsWith (w : Worker) (table : Nat → BitVec 32) : Ns := w.env.ns.mapData fun _ => table

/-- A step of the loop. -/
def ioworkerStep (w : Worker) : IowEvent → Option Worker
  -- check time and send all pending io
  | .send now table d rc timeSent after =>
    if w.pc = .head ∧ w.Continues then
      let w := { w with now, pc := .sent }
      match w.headIo with
      | none => some w
      | some k =>
        if now.gt (w.ioCtx k).timeSent then
          match ioworkerSendOnePrepare (w.nsWith table) w.args w.g (w.ioCtx k) d with
          | .error why => some { w with pc := .aborted why }
          | .ok p =>
            let w := ioworkerSendOne w k p rc timeSent
            some { w with
              g := { w.g with pendingIoList := w.g.pendingIoList.tail }
              cpuTime := ioworkerAddCpuTime now after w.cpuTime }
        else some w
    else none
  | .check terminate =>
    if w.pc = .sent then
      match ioworkerGetDuration w.env.testStart w.now with
      | .error why => some { w with pc := .aborted why }
      | .ok duration =>
        -- exceed 30 seconds more than the expected test time, abort ioworker
        if duration > (w.seconds + 30) * 1000 then some (ioworkerFinal w (-4))
        else if terminate then some (ioworkerFinal w (-7))
        else some { w with pc := .checked }
    else none
  | .poll now => if w.pc = .checked then some { w with now, pc := .polling 0 } else none
  | .complete k status now now' =>
    match w.pc with
    | .polling n =>
      if k ∈ w.inFlight then
        match ioworkerOneCb w k status now now' with
        | .error why => some { w with pc := .aborted why }
        | .ok w => some { w with pc := .polling (n + 1) }
      else none
    | _ => none
  | .next after =>
    match w.pc with
    | .polling n => some { w with
        cpuTime := if n = 0 then w.cpuTime else ioworkerAddCpuTime w.now after w.cpuTime
        -- update the head io after process completion
        headIo := w.g.pendingIoList.head?
        pc := .head }
    | _ => none
  | .leave => if w.pc = .head ∧ ¬w.Continues then some (ioworkerFinal w 0) else none

/-- The machine of an ioworker. -/
def ioworkerMachine (env : Env) (args : Args) : Machine Worker IowEvent where
  init w := w = ioworkerStart env args
  step := ioworkerStep

end Pynvme
