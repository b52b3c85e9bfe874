import Pynvme.Ioworker.Accounting
import Pynvme.Ioworker.Stats

/-!
# The history of an ioworker

The statistics of a worker are computed from its contexts, when IOs complete. What
they are to be compared with are the IOs themselves: those that were accepted by the
driver, with the times of their submission, and of these the ones that have
completed. A worker does not keep them, so they are recorded along its runs
(`History`).

An IO in flight is the one its context describes, and the statistics are those of the
IOs that have completed (`recorded_of_reachable`).
-/

namespace Pynvme

open Word

/-! ### The record -/

/-- An IO that was accepted: what was prepared of it, the draw of its operation, and the
    time. -/
structure SentIo where
  prepared : Prepared
  opDraw : Nat
  timeSent : Timeval

/-- An IO that has completed, of the context `ctx`. -/
structure DoneIo where
  ctx : Nat
  sent : SentIo
  now : Timeval

/-- The latest IO of every context, the IOs completed, and the latest reading of the
    clock. -/
structure History where
  sent : Nat → Option SentIo
  done : List DoneIo
  clock : Timeval

/-- The readings of the clock in a step. -/
def IowEvent.readings : IowEvent → List Timeval
  | .send now _ _ _ timeSent after => [now, timeSent, after]
  | .check _ => []
  | .poll now => [now]
  | .complete _ _ now now' => [now, now']
  | .next after => [after]
  | .leave => []

/-- The IO that a step passed to the driver. -/
def passed (w w' : Worker) : Option Prepared :=
  ((w'.issued.drop w.issued.length).head?).map Prod.fst

/-- The history after a step. -/
def History.record (hist : History) (w : Worker) (e : IowEvent) (w' : Worker) : History :=
  let hist := { hist with clock := e.readings.getLast?.getD hist.clock }
  match e with
  | .send _ _ d rc timeSent _ =>
    match w.headIo, passed w w' with
    | some k, some p =>
      if rc = 0 then { hist with sent := Function.update hist.sent k (some ⟨p, d.op, timeSent⟩) }
      else hist
    | _, _ => hist
  | .complete k _ now _ =>
    if w.completions.length < w'.completions.length then
      { hist with done := hist.done ++ (hist.sent k).toList.map fun x => ⟨k, x, now⟩ }
    else hist
  | _ => hist

/-- The machine of an ioworker with its history. -/
def ioworkerHistory (env : Env) (args : Args) : Machine (Worker × History) IowEvent :=
  (ioworkerMachine env args).withHistory ⟨fun _ => none, [], env.testStart⟩ History.record

/-- The start, with nothing recorded. -/
theorem ioworkerHistory_start (env : Env) (args : Args) {P : Worker × History → IowEvent → Prop} :
    (ioworkerHistory env args).Reachable P
      (ioworkerStart env args, ⟨fun _ => none, [], env.testStart⟩) :=
  .init ⟨rfl, rfl⟩

/-! ### The operation of an IO -/

/-- The index of the operation that is drawn. -/
def drawnIndex (args : Args) (opDraw : Nat) : Nat := (ioworkerOpInit args).getD (opDraw % 100) 0

/-- The operation at an index of `op_list`. -/
def opAt (args : Args) (i : Nat) : Nat := (args.opList.map Prod.fst).getD i 0

/-- The operation of an IO and the index of its counter: a replayed IO is counted with the
    first operation. -/
structure SentIo.Described (args : Args) (x : SentIo) : Prop where
  opIndex : x.prepared.opIndex = if args.ioSequence.isSome then 0 else drawnIndex args x.opDraw
  opcode : x.prepared.io.opcode = (match args.ioSequence with
    | none => opAt args (drawnIndex args x.opDraw)
    | some seq => (seq.getD x.prepared.io.index ⟨0, 0, 0, 0⟩).op) % 2 ^ 8

theorem ioworkerSendOnePrepare_described {ns : Ns} {args args₀ : Args} {g : Gctx} {ctx : IoCtx}
    {d : Draws} {p : Prepared} {timeSent : Timeval}
    (h : ioworkerSendOnePrepare ns args g ctx d = .ok p)
    (hseq : g.ioSequence = args₀.ioSequence) (htable : g.opTable = ioworkerOpInit args₀)
    (hops : args.opList.map Prod.fst = args₀.opList.map Prod.fst) :
    (⟨p, d.op, timeSent⟩ : SentIo).Described args₀ := by
  have hindex := ioworkerSendOnePrepare_index h
  obtain ⟨⟨size, align⟩, -, h⟩ := Except.bind_eq_ok.1 h
  obtain ⟨⟨lba, cursor⟩, -, h⟩ := Except.bind_eq_ok.1 h
  obtain ⟨io, hio, h⟩ := Except.bind_eq_ok.1 h
  obtain rfl := Except.pure_eq_ok.1 h
  have hop := ioworkerSendOneIo_opcode hio
  dsimp only at hindex
  rcases hs : args₀.ioSequence with _ | seq
  · rw [hs] at hseq
    simp only [hseq] at hop
    constructor
    · simp [hseq, hs, drawnIndex, htable]
    · simp only [hs, hop, opAt, drawnIndex, hops, htable]
  · rw [hs] at hseq
    simp only [hseq] at hop
    constructor
    · simp [hseq, hs]
    · simp only [hs, hop, hindex]

/-! ### The contexts -/

variable {env : Env} {args : Args} {w w' : Worker} {e : IowEvent} {k : Nat}

/-- The context has what the statistics need of the IO `x`. -/
structure IoCtx.Holds (ctx : IoCtx) (x : SentIo) : Prop where
  opcode : ctx.opcode = x.prepared.io.opcode
  opIndex : ctx.opIndex = x.prepared.opIndex
  timeSent : ctx.timeSent = x.timeSent

/-- What the sending of a context does to the contexts. -/
theorem ioworkerStep_send_ioCtx {now timeSent after : Timeval} {table : Nat → BitVec 32} {d : Draws}
    {rc : Int} {p : Prepared}
    (h : ioworkerStep w (.send now table d rc timeSent after) = some w')
    (hs : Sends w w' k now table d p rc) :
    (∀ i ≠ k, w'.ioCtx i = w.ioCtx i) ∧
      (rc = 0 → (w'.ioCtx k).Holds ⟨p, d.op, timeSent⟩) ∧
      (rc ≠ 0 → ∀ x, (w.ioCtx k).Holds x → (w'.ioCtx k).Holds x) ∧
      (w'.ioCtx k).cmd = ⟨p.io.lba, p.io.count, p.io.opcode⟩ := by
  have hissued := congrArg List.length hs.issued
  rw [List.length_append, List.length_singleton] at hissued
  obtain ⟨-, rfl | ⟨k', hk', -, ⟨why, -, rfl⟩ | ⟨p', w₁, hp', rfl, rfl⟩⟩⟩ := ioworkerStep_send_eq h
  · dsimp only at hissued
    omega
  · dsimp only at hissued
    omega
  · obtain rfl : k = k' := Option.some.inj (hs.headIo.symm.trans hk')
    obtain rfl : p = p' := Except.ok.inj (hs.prepared.symm.trans hp')
    dsimp only
    by_cases hrc : rc = 0
    · simp only [ioworkerSendOne, if_neg (not_not.2 hrc)]
      rw [Function.update_self]
      exact ⟨fun i hi => Function.update_of_ne hi _ _, fun _ => ⟨rfl, rfl, rfl⟩,
        fun hne => absurd hrc hne, rfl⟩
    · simp only [ioworkerSendOne, if_pos hrc]
      rw [Function.update_self]
      exact ⟨fun i hi => Function.update_of_ne hi _ _, fun h0 => absurd h0 hrc,
        fun _ x hx => ⟨hx.opcode, hx.opIndex, hx.timeSent⟩, rfl⟩

/-! ### The statistics of the IOs completed -/

/-- The operation of an IO. -/
def DoneIo.opcode (x : DoneIo) : Nat := x.sent.prepared.io.opcode

/-- The index of the counter of an IO. -/
def DoneIo.opIndex (x : DoneIo) : Nat := x.sent.prepared.opIndex

/-- The latency of an IO, in microseconds of 32 bits. -/
def DoneIo.latencyUs (x : DoneIo) : Nat := (x.now.sub x.sent.timeSent).toUs

/-- The statistics of the IOs `done`, for a worker with the arguments `args`. -/
structure StatsOf (args : Args) (done : List DoneIo) (s : Stats) : Prop where
  opTable : s.opTable = ioworkerOpInit args
  read : s.ioCountRead = done.countP fun x => x.opcode = 2
  nonread : s.ioCountNonread = done.countP fun x => x.opcode ≠ 2
  latencyMax : s.latencyMaxUs = (done.map DoneIo.latencyUs).foldl max 0
  total : s.totalLatencyUs = u64 (done.map DoneIo.latencyUs).sum
  ops : s.opList = args.opList.mapIdx fun i e => (e.1, e.2 + done.countP fun x => x.opIndex = i)
  perLatency : s.ioCounterPerLatency = args.ioCounterPerLatency.map fun c i =>
    c i + done.countP fun x => min 999999 x.latencyUs = i

theorem Stats.nextSecond_keeps (s : Stats) (now : Timeval) :
    ∃ c next last till, s.nextSecond now = { s with
      ioCounterPerSecond := c
      timeNextSec := next
      lastSec := last
      ioCountTillLastSec := till } := by
  rw [Stats.nextSecond]
  split
  · exact ⟨_, _, _, _, rfl⟩
  · split_ifs <;> exact ⟨_, _, _, _, rfl⟩

theorem ioworkerInitStats_statsOf (env : Env) (args : Args) :
    StatsOf args [] (ioworkerInitStats env args) := by
  refine ⟨rfl, rfl, rfl, rfl, rfl, ?_, ?_⟩
  · refine List.ext_getElem? fun i => ?_
    simp [ioworkerInitStats]
  · simp [ioworkerInitStats]

theorem StatsOf.countOne {done : List DoneIo} {s : Stats} (h : StatsOf args done s) {ctx : IoCtx}
    {x : DoneIo} (hctx : ctx.Holds x.sent) :
    StatsOf args (done ++ [x]) (s.countOne ctx x.now) := by
  have hop : ctx.opcode = x.opcode := hctx.opcode
  have hindex : ctx.opIndex = x.opIndex := hctx.opIndex
  have hlatency : ctx.latencyUs x.now = x.latencyUs := by
    rw [IoCtx.latencyUs, hctx.timeSent]
    rfl
  obtain ⟨c, next, last, till, hnext⟩ := (s.addOne ctx x.now).nextSecond_keeps x.now
  rw [Stats.countOne, hnext]
  constructor
  case opTable => exact h.opTable
  case read =>
    simp only [Stats.addOne, hop, h.read, List.countP_append, List.countP_singleton]
    split_ifs <;> simp_all
  case nonread =>
    simp only [Stats.addOne, hop, h.nonread, List.countP_append, List.countP_singleton]
    split_ifs <;> simp_all
  case latencyMax =>
    simp only [Stats.addOne, hlatency, h.latencyMax, List.map_append, List.foldl_append]
    exact Nat.max_comm _ _
  case total =>
    simp only [Stats.addOne, hlatency, h.total, List.map_append, List.sum_append, u64]
    simp
  case ops =>
    refine List.ext_getElem? fun i => ?_
    simp only [Stats.addOne, hindex, h.ops, List.getElem?_modify, List.getElem?_mapIdx,
      List.countP_append, List.countP_singleton]
    rcases args.opList[i]? with _ | e
    · simp
    · by_cases hi : x.opIndex = i <;> simp [hi, Nat.add_assoc]
  case perLatency =>
    simp only [Stats.addOne, hlatency, h.perLatency, Option.map_map]
    congr 1
    funext c i
    simp only [Function.comp, increment, List.countP_append, List.countP_singleton]
    by_cases hi : min 999999 x.latencyUs = i
    · subst hi
      simp [Nat.add_assoc]
    · rw [Function.update_of_ne (Ne.symm hi)]
      simp [hi]

/-! ### The history of a run -/

variable {hist : History} {status : Status} {now now' timeSent after : Timeval}
  {table : Nat → BitVec 32} {d : Draws} {p : Prepared} {rc : Int}

variable (hist timeSent after) in
theorem History.record_of_sends (hs : Sends w w' k now table d p rc) :
    (hist.record w (.send now table d rc timeSent after) w').sent =
        (if rc = 0 then Function.update hist.sent k (some ⟨p, d.op, timeSent⟩) else hist.sent) ∧
      (hist.record w (.send now table d rc timeSent after) w').done = hist.done := by
  have hpassed : passed w w' = some p := by
    rw [passed, hs.issued, List.drop_left]
    rfl
  simp only [History.record, hs.headIo, hpassed]
  split_ifs <;> exact ⟨rfl, rfl⟩

theorem History.record_of_completes (hc : Completes w w' k status now now') {x : SentIo}
    (hx : hist.sent k = some x) :
    (hist.record w (.complete k status now now') w').sent = hist.sent ∧
      (hist.record w (.complete k status now now') w').done = hist.done ++ [⟨k, x, now⟩] := by
  have hlt : w.completions.length < w'.completions.length := by
    rw [hc.completions, List.length_append, List.length_singleton]
    omega
  simp [History.record, hlt, hx]

variable (hist) in
theorem History.record_of_movesOn (hm : MovesOn w w' e) :
    (hist.record w e w').sent = hist.sent ∧ (hist.record w e w').done = hist.done := by
  cases e with
  | send now table d rc timeSent after =>
    have hpassed : passed w w' = none := by
      rw [passed, hm.issued, List.drop_length]
      rfl
    rw [History.record]
    dsimp only
    rw [hpassed]
    split
    · rename_i h
      cases h
    · exact ⟨rfl, rfl⟩
  | complete k status now now' => simp [History.record, hm.completions]
  | _ => exact ⟨rfl, rfl⟩

/-- The history records what the worker has in its contexts and its statistics. -/
structure Recorded (args : Args) (w : Worker) (hist : History) : Prop where
  flight : ∀ k ∈ w.inFlight, ∃ x, hist.sent k = some x ∧ (w.ioCtx k).Holds x ∧ x.Described args
  described : ∀ x ∈ hist.done, x.sent.Described args
  count : hist.done.length = w.completions.length
  stats : StatsOf args hist.done w.stats

theorem StatsOf.keys {done : List DoneIo} {s : Stats} (h : StatsOf args done s) :
    s.opList.map Prod.fst = args.opList.map Prod.fst := by
  rw [h.ops]
  refine List.ext_getElem? fun i => ?_
  simp only [List.getElem?_map, List.getElem?_mapIdx]
  cases args.opList[i]? <;> rfl

theorem Recorded.sends (h : Recorded args w hist) (hseq : w.g.ioSequence = args.ioSequence)
    (hstep : ioworkerStep w (.send now table d rc timeSent after) = some w')
    (hs : Sends w w' k now table d p rc) :
    Recorded args w' (hist.record w (.send now table d rc timeSent after) w') := by
  obtain ⟨hsent, hdone⟩ := hist.record_of_sends timeSent after hs
  obtain ⟨hstats, hcompletions⟩ := ioworkerStep_stats hstep (by simp)
  obtain ⟨hother, hsame, hfailed, -⟩ := ioworkerStep_send_ioCtx hstep hs
  have hdescribed : (⟨p, d.op, timeSent⟩ : SentIo).Described args :=
    ioworkerSendOnePrepare_described hs.prepared hseq h.stats.opTable h.stats.keys
  constructor
  case flight =>
    rw [hs.inFlight, hsent]
    by_cases hrc : rc = 0
    · rw [if_neg (not_not.2 hrc), if_pos hrc]
      intro i hi
      rcases eq_or_ne i k with rfl | hik
      · rw [Function.update_self]
        exact ⟨_, rfl, hsame hrc, hdescribed⟩
      · rw [Function.update_of_ne hik, hother i hik]
        exact h.flight i (by simpa [hik] using hi)
    · rw [if_pos hrc, if_neg hrc]
      intro i hi
      obtain ⟨x, hx, hholds, hdesc⟩ := h.flight i hi
      rcases eq_or_ne i k with rfl | hik
      · exact ⟨x, hx, hfailed hrc x hholds, hdesc⟩
      · rw [hother i hik]
        exact ⟨x, hx, hholds, hdesc⟩
  case described =>
    rw [hdone]
    exact h.described
  case count => rw [hdone, hcompletions, h.count]
  case stats =>
    rw [hdone, hstats]
    exact h.stats

theorem Recorded.completes (h : Recorded args w hist) (hnodup : w.inFlight.Nodup)
    (hstep : ioworkerStep w (.complete k status now now') = some w') (hk : k ∈ w.inFlight)
    (hc : Completes w w' k status now now') :
    Recorded args w' (hist.record w (.complete k status now now') w') := by
  obtain ⟨x, hx, hholds, hdesc⟩ := h.flight k hk
  obtain ⟨hsent, hdone⟩ := History.record_of_completes hc hx
  have hstats : w'.stats = w.stats.countOne (w.ioCtx k) now := by
    rcases (ioworkerStep_complete_stats hstep).1 with ⟨hst, -⟩ | ⟨-, hsame, -⟩
    · exact hst
    · rw [hc.completions] at hsame
      simp at hsame
  constructor
  case flight =>
    rw [hc.inFlight, hsent]
    intro i hi
    have hik : i ≠ k := fun hik => hnodup.not_mem_erase (hik ▸ hi)
    rw [hc.other i hik]
    exact h.flight i (List.mem_of_mem_erase hi)
  case described =>
    rw [hdone, List.forall_mem_append, List.forall_mem_singleton]
    exact ⟨h.described, hdesc⟩
  case count =>
    rw [hdone, hc.completions, List.length_append, List.length_append, h.count]
    rfl
  case stats =>
    rw [hdone, hstats]
    exact h.stats.countOne (x := ⟨k, x, now⟩) hholds

theorem Recorded.movesOn (h : Recorded args w hist) (hstep : ioworkerStep w e = some w')
    (hm : MovesOn w w' e) : Recorded args w' (hist.record w e w') := by
  obtain ⟨hsent, hdone⟩ := hist.record_of_movesOn hm
  have hstats : w'.stats = w.stats := by
    by_cases he : ∀ k status now now', e ≠ .complete k status now now'
    · exact (ioworkerStep_stats hstep he).1
    · push Not at he
      obtain ⟨k, status, now, now', rfl⟩ := he
      rcases (ioworkerStep_complete_stats hstep).1 with ⟨-, hmore⟩ | ⟨hst, -⟩
      · rw [hm.completions] at hmore
        simp at hmore
      · exact hst
  constructor
  case flight =>
    rw [hm.inFlight, hm.ioCtx, hsent]
    exact h.flight
  case described =>
    rw [hdone]
    exact h.described
  case count => rw [hdone, hm.completions, h.count]
  case stats =>
    rw [hdone, hstats]
    exact h.stats

theorem ioworkerStart_recorded (env : Env) {args : Args} (hq : args.qdepth < 2 ^ 32)
    (hhist : hist.done = []) : Recorded args (ioworkerStart env args) hist := by
  obtain ⟨hstats, hcompletions, -⟩ := ioworkerStart_stats env args
  have hflight : (ioworkerStart env args).inFlight = [] := by
    rcases ioworkerStart_cases env hq with hr | hs
    · exact hr.inFlight
    · exact hs.inFlight
  refine ⟨?_, ?_, ?_, ?_⟩
  · simp [hflight]
  · simp [hhist]
  · simp [hhist, hcompletions]
  · rw [hhist, hstats]
    exact ioworkerInitStats_statsOf env args

/-- A run with its history is a run, and the history records it. -/
theorem recorded_of_reachable (hargs : args.Valid) {P : Worker × History → IowEvent → Prop}
    {x : Worker × History} (h : (ioworkerHistory env args).Reachable P x) :
    (ioworkerMachine env args).Reachable (fun _ _ => True) x.1 ∧ Recorded args x.1 x.2 := by
  refine h.invariant (I := fun x =>
    (ioworkerMachine env args).Reachable (fun _ _ => True) x.1 ∧ Recorded args x.1 x.2) ?_ ?_
  · rintro ⟨w, hist⟩ ⟨rfl, rfl⟩
    exact ⟨.init rfl, ioworkerStart_recorded env hargs.qdepth_lt rfl⟩
  · rintro ⟨w, hist⟩ e ⟨w', hist'⟩ ⟨hreach, hrec⟩ - hs
    obtain ⟨hstep, rfl⟩ := Machine.withHistory_step.1 hs
    refine ⟨.step hreach trivial hstep, ?_⟩
    have hstep' : ioworkerStep w e = some w' := hstep
    rcases accounted_of_reachable hargs hreach with hr | ⟨hw, -, -, hseq⟩
    · exact absurd hstep' hr.no_step
    rcases ioworkerStep_cases hstep' with ⟨k, now, table, d, rc, timeSent, after, p, rfl, hsends⟩ |
      ⟨k, status, now, now', n, rfl, hk, -, -, hc⟩ | hm
    · exact hrec.sends hseq hstep' hsends
    · exact hrec.completes hw.nodup_inFlight hstep' hk hc
    · exact hrec.movesOn hstep' hm

/-- An invariant of the runs with their history: a step may use the record and the accounting
    of the state before it. -/
theorem ioworkerHistory_invariant (hargs : args.Valid) {P : Worker × History → IowEvent → Prop}
    {I : Worker → History → Prop} {x : Worker × History}
    (h : (ioworkerHistory env args).Reachable P x)
    (hinit : I (ioworkerStart env args) ⟨fun _ => none, [], env.testStart⟩)
    (hstep : ∀ w hist e w', I w hist → P (w, hist) e → Recorded args w hist → Accounted w →
      w.args.qdepth ≤ args.qdepth → ioworkerStep w e = some w' → I w' (hist.record w e w')) :
    I x.1 x.2 := by
  have hI : (ioworkerHistory env args).Reachable P x ∧ I x.1 x.2 := by
    refine h.invariant (I := fun x => (ioworkerHistory env args).Reachable P x ∧ I x.1 x.2) ?_ ?_
    · rintro ⟨w, hist⟩ hw
      refine ⟨.init hw, ?_⟩
      obtain ⟨rfl, rfl⟩ := hw
      exact hinit
    · rintro ⟨w, hist⟩ e ⟨w', hist'⟩ ⟨hreach, hw⟩ hP hs
      refine ⟨.step hreach hP hs, ?_⟩
      obtain ⟨hrun, hrec⟩ := recorded_of_reachable hargs hreach
      obtain ⟨hs', rfl⟩ := Machine.withHistory_step.1 hs
      rcases accounted_of_reachable hargs hrun with hr | ⟨hacc, -, hq, -⟩
      · exact absurd hs' hr.no_step
      · dsimp only at hq
        exact hstep w hist e w' hw hP hrec hacc (by omega) hs'
  exact hI.2

end Pynvme
