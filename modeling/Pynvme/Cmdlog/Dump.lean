import Pynvme.Cmdlog.Window

/-!
# Listing the command log

Scripts print the log of a queue (`log_cmd_dump`), and a client of the RPC server gets
its latest commands (`rpc_get_cmdlog`). Both go back from the tail, and skip the slots
that were not written yet, which have no time; the head of the ring is not used.

`cmdlog_dumps_newest`: both list the latest commands, the newest first, each with its
own completion.

The time of a completion is that of the command and the latency. `log_cmd_dump` adds all
of the latency as microseconds, of which `timeradd` carries one second at most: the two
readers show the same time exactly for a command that takes less than the rest of its
second and one more (`cmdlog_cpl_time_iff`).
-/

namespace Pynvme

/-! ### The readers -/

/-- A command that is listed: its slot or its number, the command with its time, and its
    completion with the time of that. -/
structure LogLine where
  number : Nat
  cmd : NvmeCmd
  cid : BitVec 16
  timeCmd : Timeval
  cpl : Option (Timeval × Cpl)

/-- The line for an entry; `toTime` makes a time of its latency. -/
def LogEntry.line (e : LogEntry) (number : Nat) (toTime : Nat → Timeval) : LogLine where
  number := number
  cmd := e.cmd
  cid := e.cid
  timeCmd := e.timeCmd
  -- a completed command
  cpl := if e.cplLatencyUs ≠ 0 then some (e.timeCmd.add (toTime e.cplLatencyUs), e.cpl) else none

/-- The index before `i` in the ring. -/
def prevIndex (i : Nat) : Nat := (if i = 0 then cmdLogDepth else i) - 1

/-- The loop of the readers over `count` slots, down from `index`; `seq` numbers them. -/
def cmdlogWalk (s : CmdLog) (line : Nat → Nat → LogEntry → LogLine) : Nat → Nat → Nat → List LogLine
  | 0, _, _ => []
  | count + 1, seq, index =>
    -- get the next index to read log
    let index := prevIndex index
    match s.mem (.ring index) with
    | none => cmdlogWalk s line count (seq + 1) index
    | some e =>
      -- no timeval, empty slot, not print
      if e.timeCmd.gt ⟨0, 0⟩ then line seq index e :: cmdlogWalk s line count (seq + 1) index
      else cmdlogWalk s line count (seq + 1) index

/-- `log_cmd_dump`. The lines have the indices of the slots. -/
def logCmdDump (s : CmdLog) (count : Nat) : List LogLine :=
  let dumpCount := if count = 0 ∨ count > cmdLogDepth then cmdLogDepth else count
  cmdlogWalk s (fun _ index e => e.line index fun latency => ⟨0, latency⟩) dumpCount 0 s.tailIndex

/-- `rpc_get_cmdlog`. The lines are numbered from 1. -/
def rpcGetCmdlog (s : CmdLog) : List LogLine :=
  cmdlogWalk s (fun seq _ e => e.line seq fun latency =>
    ⟨(latency / 1000000 : Nat), (latency % 1000000 : Nat)⟩) 128 1 s.tailIndex

/-! ### The commands listed -/

variable {s : LogState} {hist : List LogRecord}

/-- The line for a command of the history, with its own completion, if it has a latency. -/
def LogRecord.line (y : LogRecord) (number : Nat) (toTime : Nat → Timeval) : LogLine where
  number := number
  cmd := y.x.cmd
  cid := y.x.cid
  timeCmd := y.time
  cpl := y.cpl.bind fun (cpl, now) =>
    if y.latencyUs now ≠ 0 then some (y.time.add (toTime (y.latencyUs now)), cpl) else none

theorem LogRecord.Shown.line_eq {y : LogRecord} {e : LogEntry} (h : y.Shown e) (number : Nat)
    (toTime : Nat → Timeval) : e.line number toTime = y.line number toTime := by
  have hcpl : (e.line number toTime).cpl = (y.line number toTime).cpl := by
    rcases hy : y.cpl with _ | ⟨cpl, now⟩
    · simp [LogEntry.line, LogRecord.line, hy, (h.opened hy).2]
    · obtain ⟨-, hcpl, hlatency⟩ := h.closed cpl now hy
      have htime : e.timeCmd = y.time := h.records.timeCmd
      simp [LogEntry.line, LogRecord.line, hy, hcpl, hlatency, htime]
  rw [LogLine.mk.injEq]
  exact ⟨rfl, h.records.cmd, h.records.cid, h.records.timeCmd, hcpl⟩

/-- What the loop lists, if it finds the records `l` and then slots that were not written. -/
theorem cmdlogWalk_eq {log : CmdLog} {line : Nat → Nat → LogEntry → LogLine}
    {l : List LogRecord} {out : Nat → LogRecord → LogLine} {count seq index : Nat}
    (hfound : ∀ k < count, ∀ y, l[k]? = some y → ∃ e,
      log.mem (.ring (prevIndex^[k + 1] index)) = some e ∧ e.timeCmd.gt ⟨0, 0⟩ = true ∧
        line (seq + k) (prevIndex^[k + 1] index) e = out k y)
    (hzero : ∀ k < count, l.length ≤ k →
      log.mem (.ring (prevIndex^[k + 1] index)) = some .zero) :
    cmdlogWalk log line count seq index = (l.take count).mapIdx out := by
  induction count generalizing l out seq index with
  | zero => simp [cmdlogWalk]
  | succ count ih =>
    rw [cmdlogWalk]
    cases l with
    | nil =>
      have hfirst := hzero 0 (by omega) (by simp)
      rw [Function.iterate_one] at hfirst
      have hrest : cmdlogWalk log line count (seq + 1) (prevIndex index) =
          (([] : List LogRecord).take count).mapIdx out :=
        ih (by simp) fun k hk _ => hzero (k + 1) (by omega) (by simp)
      simpa [hfirst, LogEntry.zero, Timeval.gt] using hrest
    | cons y l =>
      obtain ⟨e, he, htime, hline⟩ := hfound 0 (by omega) y rfl
      rw [Function.iterate_one] at he hline
      have hrest : cmdlogWalk log line count (seq + 1) (prevIndex index) =
          (l.take count).mapIdx fun k => out (k + 1) := by
        refine ih (fun k hk y hy => ?_) fun k hk hle => ?_
        · rw [Nat.add_right_comm]
          exact hfound (k + 1) (by omega) y hy
        · exact hzero (k + 1) (by omega) (by simpa using hle)
      simp only [he, htime, if_true, hrest, List.take_succ_cons, List.mapIdx_cons]
      rw [← hline]
      rfl

/-! ### The runs -/

/-- The rule that no command is submitted at the time zero, or before. -/
def SubmitTimed (_ : LogState × List LogRecord) : LogEvent → Prop
  | .add _ _ _ now => now.gt ⟨0, 0⟩ = true
  | .complete _ _ _ => True

theorem time_of_reachable {a : LogState × List LogRecord}
    (h : cmdlogHistory.Reachable SubmitTimed a) : ∀ y ∈ a.2, y.time.gt ⟨0, 0⟩ = true := by
  refine h.invariant (I := fun a => ∀ y ∈ a.2, y.time.gt ⟨0, 0⟩ = true) ?_ ?_
  · rintro ⟨s, hist⟩ ⟨-, rfl⟩
    simp
  · rintro ⟨s, hist⟩ e ⟨s', hist'⟩ hI htimed hs
    obtain ⟨-, rfl⟩ := Machine.withHistory_step.1 hs
    dsimp only at hI ⊢
    cases e with
    | add r x alloc now =>
      rw [recordLog]
      split_ifs
      · rw [List.forall_mem_append, List.forall_mem_singleton]
        exact ⟨hI, htimed⟩
      · exact hI
    | complete r cpl now =>
      intro y' hy'
      obtain ⟨y, hy, rfl⟩ := List.mem_map.1 hy'
      have htime : (y.close r cpl now).time = y.time := by
        rw [LogRecord.close]
        split_ifs <;> rfl
      rw [htime]
      exact hI y hy

/-- The walk from the tail, over no more slots than there are. -/
theorem cmdlogWalk_of_reachable (h : cmdlogHistory.Reachable SubmitTimed (s, hist))
    {line : Nat → Nat → LogEntry → LogLine} {out : Nat → LogRecord → LogLine} {count seq : Nat}
    (hcount : count ≤ cmdLogDepth)
    (hline : ∀ k y e, y.Shown e →
      line (seq + k) ((hist.length - (k + 1)) % cmdLogDepth) e = out k y) :
    cmdlogWalk s.log line count seq s.log.tailIndex = (hist.reverse.take count).mapIdx out := by
  obtain ⟨-, hw⟩ := window_of_reachable h
  have hprev : prevIndex = Ring.prev cmdLogDepth := rfl
  rw [hw.tail]
  refine cmdlogWalk_eq (fun k hk y hy => ?_) fun k hk hle => ?_
  · have hlt : k < hist.length := by
      have := (List.getElem?_eq_some_iff.1 hy).1
      simpa using this
    obtain ⟨e, he, hshown⟩ := (hw.holds.newest (hk.trans_le hcount)).1 y hy
    have htime : e.timeCmd = y.time := hshown.records.timeCmd
    refine ⟨e, he, ?_, ?_⟩
    · rw [htime]
      exact time_of_reachable h y (List.mem_reverse.1 (List.mem_of_getElem? hy))
    · rw [hprev, Ring.prev_iterate (by decide) hlt]
      exact hline k y e hshown
  · exact (hw.holds.newest (hk.trans_le hcount)).2 (by simpa using hle)

/-- In every run whose commands have nonzero times, both readers list the latest commands of
    the history from the newest on, as many as are asked for or kept, and each with its own
    completion, if it has completed; no two open commands are of the same request. -/
theorem cmdlog_dumps_newest (h : cmdlogHistory.Reachable SubmitTimed (s, hist)) (count : Nat) :
    logCmdDump s.log count =
      (hist.reverse.take (if 1 ≤ count ∧ count ≤ cmdLogDepth then count else cmdLogDepth)).mapIdx
        (fun k y => y.line ((hist.length - (k + 1)) % cmdLogDepth) fun latency => ⟨0, latency⟩) ∧
    rpcGetCmdlog s.log = (hist.reverse.take 128).mapIdx (fun k y => y.line (k + 1) fun latency =>
      ⟨(latency / 1000000 : Nat), (latency % 1000000 : Nat)⟩) ∧
    hist.Pairwise fun y z => y.cpl = none → z.cpl = none → y.req ≠ z.req := by
  refine ⟨?_, ?_, (window_of_reachable h).2.single⟩
  · have hcount : (if count = 0 ∨ count > cmdLogDepth then cmdLogDepth else count) =
        if 1 ≤ count ∧ count ≤ cmdLogDepth then count else cmdLogDepth := by
      split_ifs <;> omega
    rw [logCmdDump, hcount]
    refine cmdlogWalk_of_reachable h ?_ fun k y e hshown => hshown.line_eq _ _
    split_ifs <;> omega
  · refine cmdlogWalk_of_reachable h (by decide) fun k y e hshown => ?_
    rw [Nat.add_comm 1 k]
    exact hshown.line_eq _ _

/-- After one command more than the ring has slots, all slots are listed. -/
theorem cmdlog_dumps_newest_round :
    ∃ s hist, cmdlogHistory.Reachable SubmitTimed (s, hist) ∧ hist.length = cmdLogDepth + 1 ∧
      (logCmdDump s.log 0).length = cmdLogDepth ∧ (rpcGetCmdlog s.log).length = 128 := by
  obtain ⟨s, hist, hs, hlen, -⟩ := exists_commands (P := SubmitTimed)
    ⟨LogEntry.zero.cmd, 3#16, 512⟩ ⟨1, 0⟩ ⟨0#32, 3#16, .success⟩ (fun _ => rfl) (fun _ => trivial)
    (cmdLogDepth + 1)
  obtain ⟨hdump, hrpc, -⟩ := cmdlog_dumps_newest hs 0
  refine ⟨s, hist, hs, hlen, ?_, ?_⟩
  · simp [hdump, hlen]
  · simp [hrpc, hlen, cmdLogDepth]

/-! ### The time of a completion -/

/-- The time of a completion in `log_cmd_dump`. -/
def logCmdDumpTime (timeCmd : Timeval) (cplLatencyUs : Nat) : Timeval :=
  timeCmd.add ⟨0, cplLatencyUs⟩

/-- The time of a completion in `rpc_get_cmdlog`. -/
def rpcGetCmdlogTime (timeCmd : Timeval) (cplLatencyUs : Nat) : Timeval :=
  timeCmd.add ⟨(cplLatencyUs / 1000000 : Nat), (cplLatencyUs % 1000000 : Nat)⟩

variable {log : CmdLog} {line : Nat → Nat → LogEntry → LogLine} {l : LogLine}
  {count seq index latency : Nat} {t : Timeval} {cpl : Cpl}

/-- A line is that of an entry of the ring. -/
theorem exists_of_mem_cmdlogWalk (h : l ∈ cmdlogWalk log line count seq index) :
    ∃ (k : Nat) (e : LogEntry), log.mem (.ring (prevIndex^[k + 1] index)) = some e ∧
      l = line (seq + k) (prevIndex^[k + 1] index) e := by
  induction count generalizing seq index with
  | zero => cases h
  | succ count ih =>
    have hrest : l ∈ cmdlogWalk log line count (seq + 1) (prevIndex index) →
        ∃ (k : Nat) (e : LogEntry), log.mem (.ring (prevIndex^[k + 1] index)) = some e ∧
          l = line (seq + k) (prevIndex^[k + 1] index) e := fun hl => by
      obtain ⟨k, e, he, hline⟩ := ih hl
      refine ⟨k + 1, e, he, ?_⟩
      rw [hline, Nat.add_right_comm, Nat.add_assoc]
      rfl
    rw [cmdlogWalk] at h
    split at h
    · exact hrest h
    · rename_i e he
      split at h
      · rcases List.mem_cons.1 h with rfl | h
        · exact ⟨0, e, he, rfl⟩
        · exact hrest h
      · exact hrest h

theorem LogEntry.line_cpl {e : LogEntry} {number : Nat} {toTime : Nat → Timeval}
    (h : (e.line number toTime).cpl = some (t, cpl)) :
    t = e.timeCmd.add (toTime e.cplLatencyUs) ∧ cpl = e.cpl := by
  rw [LogEntry.line] at h
  obtain ⟨-, h⟩ := Option.ite_none_right_eq_some.1 h
  obtain ⟨rfl, rfl⟩ := Prod.mk.inj (Option.some.inj h)
  exact ⟨rfl, rfl⟩

/-- The time that `log_cmd_dump` lists with a completion. -/
theorem time_of_mem_logCmdDump (h : l ∈ logCmdDump log count) (hcpl : l.cpl = some (t, cpl)) :
    ∃ e, log.mem (.ring l.number) = some e ∧ t = logCmdDumpTime e.timeCmd e.cplLatencyUs ∧
      cpl = e.cpl := by
  obtain ⟨k, e, he, rfl⟩ := exists_of_mem_cmdlogWalk h
  exact ⟨e, he, LogEntry.line_cpl hcpl⟩

/-- The time that `rpc_get_cmdlog` lists with a completion. -/
theorem time_of_mem_rpcGetCmdlog (h : l ∈ rpcGetCmdlog log) (hcpl : l.cpl = some (t, cpl)) :
    ∃ e, log.mem (.ring (prevIndex^[l.number] log.tailIndex)) = some e ∧
      t = rpcGetCmdlogTime e.timeCmd e.cplLatencyUs ∧ cpl = e.cpl := by
  obtain ⟨k, e, he, rfl⟩ := exists_of_mem_cmdlogWalk h
  refine ⟨e, ?_, LogEntry.line_cpl hcpl⟩
  rw [← he, LogEntry.line, Nat.add_comm 1 k]

/-- The readers show the same time, which is normalised, and is that of the command and the
    latency. -/
structure SameCplTime (timeCmd : Timeval) (latency : Nat) : Prop where
  same : logCmdDumpTime timeCmd latency = rpcGetCmdlogTime timeCmd latency
  normal : (logCmdDumpTime timeCmd latency).Normal
  us : (logCmdDumpTime timeCmd latency).us = timeCmd.us + latency

theorem logCmdDumpTime_us (timeCmd : Timeval) (latency : Nat) :
    (logCmdDumpTime timeCmd latency).us = timeCmd.us + latency := by
  rw [logCmdDumpTime, Timeval.add_us]
  simp only [Timeval.us]
  omega

theorem rpcGetCmdlogTime_us (timeCmd : Timeval) (latency : Nat) :
    (rpcGetCmdlogTime timeCmd latency).us = timeCmd.us + latency := by
  rw [rpcGetCmdlogTime, Timeval.add_us]
  simp only [Timeval.us]
  omega

theorem rpcGetCmdlogTime_normal (h : t.Normal) (latency : Nat) :
    (rpcGetCmdlogTime t latency).Normal := by
  obtain ⟨h0, h1⟩ := h
  rw [rpcGetCmdlogTime, Timeval.add]
  split_ifs <;> constructor <;> dsimp only at * <;> omega

/-- `timeradd` carries one second. -/
theorem logCmdDumpTime_normal_iff (h : t.Normal) :
    (logCmdDumpTime t latency).Normal ↔ t.usec + latency < 2000000 := by
  obtain ⟨h0, h1⟩ := h
  rw [logCmdDumpTime, Timeval.add, Timeval.Normal]
  split_ifs <;> dsimp only at * <;> omega

/-- A normalised time is fixed by its microseconds. -/
theorem Timeval.eq_of_us_eq {a b : Timeval} (ha : a.Normal) (hb : b.Normal) (h : a.us = b.us) :
    a = b := by
  obtain ⟨sec, usec⟩ := a
  obtain ⟨sec', usec'⟩ := b
  simp only [Timeval.us, Timeval.Normal] at h ha hb
  rw [Timeval.mk.injEq]
  omega

/-- For every submit time that is normalised, and every latency, the readers show the same and
    right time if and only if its microseconds and the latency are less than two seconds. -/
theorem cmdlog_cpl_time_iff (h : t.Normal) (latency : Nat) :
    SameCplTime t latency ↔ t.usec + latency < 2000000 := by
  rw [← logCmdDumpTime_normal_iff h]
  refine ⟨fun hs => hs.normal, fun hn => ⟨?_, hn, logCmdDumpTime_us t latency⟩⟩
  refine Timeval.eq_of_us_eq hn (rpcGetCmdlogTime_normal h latency) ?_
  rw [logCmdDumpTime_us, rpcGetCmdlogTime_us]

/-- A command of 100 microseconds, at the end of a second. -/
theorem cmdlog_cpl_time_carry : SameCplTime ⟨1, 999950⟩ 100 :=
  (cmdlog_cpl_time_iff (by decide) 100).2 (by decide)

/-- A format that takes 5 seconds: 4 of them are left in the microseconds. -/
theorem cmdlog_cpl_time_slow : logCmdDumpTime ⟨1, 0⟩ 5000000 = ⟨2, 4000000⟩ ∧
    rpcGetCmdlogTime ⟨1, 0⟩ 5000000 = ⟨6, 0⟩ ∧ ¬SameCplTime ⟨1, 0⟩ 5000000 :=
  ⟨rfl, rfl, fun h => absurd h.same (by decide)⟩

end Pynvme
