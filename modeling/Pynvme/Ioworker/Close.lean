import Pynvme.Ioworker.OpCounter
import Pynvme.Ioworker.Percentile
import Mathlib.Data.List.Sort

/-!
# Closing an ioworker

The process of a worker (`_IOWorker._ioworker`) puts a tuple on the queue in any case: after
the run of the worker, after an exception on the way, and after a signal that ends it. It
transfers the outputs one by one, so that a part of them may be missing (`workerResult`). The
process of the script takes the tuple, and collects the outputs in its own objects
(`_IOWorker.close`, `ioworkerClose`), before it updates the counters of the operations and
releases the queue.

The collection of the IOs per second computes their consistency, which needs the data of a
second, and some IOs; that of the percentiles needs percentages between 0 and 100.
`ioworker_close_iff`: closing yields the result if and only if these are given, or not
requested.
-/

namespace Pynvme

/-! ### The process of the worker -/

/-- A command of the log: LBA, count and opcode. -/
abbrev CmdTuple := Nat × Nat × Nat

/-- What a script requests: the operations, and the outputs. -/
structure WorkerRequest where
  opPercentage : List (Nat × Nat)
  outputIoPerSecond : Option (List Nat)
  outputPercentileLatency : Option (List (ℚ × Option Nat))
  outputCmdlogList : Option (List (Option CmdTuple))

/-- How the process of a worker goes: whether it comes to `ioworker_entry`, what this returns
    and leaves in its arguments, how many values are transferred then, whether an `Exception` is
    raised, and whether an IO has timed out. -/
structure WorkerRun where
  entered : Bool
  code : Int
  rets : Rets
  ioCounterPerSecond : List Nat
  ioCounterPerLatency : List Nat
  cmdlogList : List CmdTuple
  opCounter : List Nat
  transferred : Nat
  raised : Bool
  timeout : Bool

/-- The outputs, as the process of the worker has them. -/
structure WorkerOutputs where
  ioPerSecond : Option (List Nat)
  ioPerLatency : Option (List Nat)
  cmdlogList : Option (List (Option CmdTuple))
  opPercentage : List (Nat × Nat)

/-- `d[k] = v` -/
def dictSet {α β : Type} [DecidableEq α] (k : α) (v : β) (d : List (α × β)) : List (α × β) :=
  if k ∈ d.map Prod.fst then d.map fun e => if e.1 = k then (k, v) else e else d ++ [(k, v)]

/-- The transfers from the arguments of the worker to the outputs. -/
inductive Transfer
  | second (count : Nat)
  | latencies
  | latency (count : Nat)
  | cmdlog (i : Nat) (cmd : CmdTuple)
  | op (k count : Nat)

/-- The outputs after a transfer. -/
def Transfer.apply (o : WorkerOutputs) : Transfer → WorkerOutputs
  | .second count => { o with ioPerSecond := o.ioPerSecond.map (· ++ [count]) }
  | .latencies => { o with ioPerLatency := some [] }
  | .latency count => { o with ioPerLatency := o.ioPerLatency.map (· ++ [count]) }
  | .cmdlog i cmd => { o with cmdlogList := o.cmdlogList.map (·.set i (some cmd)) }
  | .op k count => { o with opPercentage := dictSet k count o.opPercentage }

variable (req : WorkerRequest) (run : WorkerRun)

/-- The outputs before the transfers. -/
def initialOutputs : WorkerOutputs where
  ioPerSecond := req.outputIoPerSecond
  ioPerLatency := none
  cmdlogList := req.outputCmdlogList
  opPercentage := req.opPercentage

/-- The transfers after `ioworker_entry`, in their order. -/
def workerTransfers : List Transfer :=
  (if req.outputIoPerSecond.isSome then run.ioCounterPerSecond.map .second else []) ++
  (if req.outputPercentileLatency.isSome then
    .latencies :: run.ioCounterPerLatency.map .latency else []) ++
  (if req.outputCmdlogList.getD [] ≠ [] then
    (run.cmdlogList.take (req.outputCmdlogList.getD []).length).mapIdx fun i cmd => .cmdlog i cmd
    else []) ++
  (req.opPercentage.zip run.opCounter).map fun e => .op e.1.1 e.2

/-- The outputs when the tuple is put on the queue. -/
def workerOutputs : WorkerOutputs :=
  ((workerTransfers req run).take (if run.entered then run.transferred else 0)).foldl
    Transfer.apply (initialOutputs req)

/-- The error when the tuple is put on the queue. -/
def workerError : Int :=
  -- io cmd error
  let error := if run.code = 0 ∧ run.rets.error ≠ 0 then -6 else run.code
  let error := if run.entered then error else 0
  let error := if run.raised then -1 else error
  let error := if run.timeout then -3 else error
  if error = -7 then 0 else error

/-- The tuple on the queue, without the process identifier. -/
structure WorkerResult where
  error : Int
  rets : Rets
  outputs : WorkerOutputs

/-- `_IOWorker._ioworker` -/
def workerResult : WorkerResult where
  error := workerError run
  rets := if run.entered then run.rets else {}
  outputs := workerOutputs req run

/-! ### The process of the script -/

/-- The outputs of an `_IOWorker`. -/
structure HostOutputs where
  ioPerSecond : Option (List Nat)
  percentileLatency : Option (List (ℚ × Option Nat))
  cmdlogList : Option (List (Option CmdTuple))

/-- A warning. -/
inductive IoWarning
  | host (error : Int) (text : String)
  | device (sct sc : Nat)

/-- An `_IOWorker`: its outputs, the counters of the operations, the warnings so far, and whether
    it has its queue. -/
structure IoWorker where
  outputs : HostOutputs
  opCounter : List (Nat × Int)
  warnings : List IoWarning
  queue : Bool

/-- What `_IOWorker.close` returns. -/
structure CloseRets where
  rets : Rets
  iopsConsistency : Option ℚ
  latencyDistribution : Option (List Nat)
  ioCountWrite : Int
  cpuUsage : ℚ

/-- `_error_strings` -/
def errorStrings : List String :=
  ["no error", "init fail in pyx", "io_size is larger than MDTS", "io timeout", "ioworker timeout",
    "buffer pool alloc fail", "io cmd error", "sudden terminated", "illegal error code"]

/-- The warnings of `_IOWorker.close`. -/
def closeWarnings (error : Int) (retsError : Nat) : Except PyError (List IoWarning) :=
  match pyListGet errorStrings (min (errorStrings.length - 1) (-error)) with
  | .error e => .error e
  | .ok text => .ok ((if error ≠ 0 then [.host error text] else []) ++
      (if retsError ≠ 0 then [.device (retsError >>> 8 &&& 0x7) (retsError &&& 0xff)] else []))

/-- `_IOWorker.iops_consistency`, of the 99.9% slowest second. -/
def iopsConsistency (ioPerSecond : List Nat) : Except PyError ℚ :=
  if ioPerSecond = [] then .error (.assertion "output list is empty")
  else
    let average : ℚ := (ioPerSecond.sum : ℚ) / ioPerSecond.length
    let index := ioPerSecond.length * 999 / 10 / 100
    match pyListGet (ioPerSecond.mergeSort (fun a b => decide (b ≤ a))) index with
    | .error e => .error e
    | .ok slowest => if average = 0 then .error .zeroDivision else .ok (slowest / average)

/-- The collection of the IOs per second, with their consistency. -/
def collectPerSecond (mseconds : Nat) (returned : Option (List Nat)) :
    Option (List Nat) → Except PyError (Option ℚ) × Option (List Nat)
  | none => (.ok none, none)
  | some l =>
    if l.length ≠ 0 then (.error (.assertion ""), some l)
    else
      match returned with
      | none => (.error .type, some l)
      | some returned =>
        let l := l ++ returned.take (mseconds / 1000)
        match iopsConsistency l with
        | .error e => (.error e, some l)
        | .ok consistency => (.ok (some consistency), some l)

/-- The percentile latency of a percentage. -/
def setPercentile (hist : List Nat) (k : ℚ) (d : List (ℚ × Option Nat)) :
    Except PyError Unit × List (ℚ × Option Nat) :=
  if ¬(k > 0 ∧ k < 100) then (.error (.assertion "percentile should be in (0, 100)"), d)
  else
    match findPercentileLatency k hist with
    | .error e => (.error e, d)
    | .ok l => (.ok (), dictSet k (some l) d)

/-- The collection of the percentile latencies. -/
def collectPercentiles (returned : Option (List Nat)) (d : Option (List (ℚ × Option Nat))) :
    Except PyError Unit × Option (List (ℚ × Option Nat)) :=
  match returned with
  | none => (.ok (), d)
  | some hist =>
    match d with
    | none => (.error .type, none)
    | some d =>
      let (r, d) := pyFor (setPercentile hist) (d.map Prod.fst) d
      (r, some d)

/-- `self.output_cmdlog_list[i] = v` -/
def setCmdlog (x : Option CmdTuple × Nat) (l : List (Option CmdTuple)) :
    Except PyError Unit × List (Option CmdTuple) :=
  match pyListSet l x.2 x.1 with
  | .error e => (.error e, l)
  | .ok l => (.ok (), l)

/-- The collection of the commands. -/
def collectCmdlog (returned l : Option (List (Option CmdTuple))) :
    Except PyError Unit × Option (List (Option CmdTuple)) :=
  match l with
  | none => (.ok (), none)
  | some [] => (.ok (), some [])
  | some l =>
    match returned with
    | none => (.error .type, some l)
    | some returned =>
      let (r, l) := pyFor setCmdlog returned.zipIdx l
      (r, some l)

/-- The collection of the outputs. It returns the consistency of the IOs per second. -/
def collectOutputs (res : WorkerResult) (o : HostOutputs) :
    Except PyError (Option ℚ) × HostOutputs :=
  match collectPerSecond res.rets.mseconds res.outputs.ioPerSecond o.ioPerSecond with
  | (.error e, l) => (.error e, { o with ioPerSecond := l })
  | (.ok consistency, l) =>
    match collectPercentiles res.outputs.ioPerLatency o.percentileLatency with
    | (.error e, d) => (.error e, { o with ioPerSecond := l, percentileLatency := d })
    | (.ok _, d) =>
      match collectCmdlog res.outputs.cmdlogList o.cmdlogList with
      | (.error e, c) => (.error e, ⟨l, d, c⟩)
      | (.ok _, c) => (.ok consistency, ⟨l, d, c⟩)

/-- `self.op_counter[k] = op_counter[k]-self.op_counter[k]`, for every operation. -/
def updateOpCounter (opCounter : List (Nat × Int)) (child : List (Nat × Nat)) :
    Except PyError (List (Nat × Int)) :=
  opCounter.mapM fun e =>
    match child.lookup e.1 with
    | none => .error .key
    | some count => .ok (e.1, count - e.2)

/-- `_IOWorker.close`, on the tuple of the queue. -/
def ioworkerClose (res : WorkerResult) (w : IoWorker) : Except PyError CloseRets × IoWorker :=
  match closeWarnings res.error res.rets.error with
  | .error e => (.error e, w)
  | .ok warnings =>
    let w := { w with warnings := w.warnings ++ warnings }
    match collectOutputs res w.outputs with
    | (.error e, o) => (.error e, { w with outputs := o })
    | (.ok consistency, o) =>
      let w := { w with outputs := o }
      match updateOpCounter w.opCounter res.outputs.opPercentage with
      | .error e => (.error e, w)
      | .ok counters =>
        let rets : CloseRets :=
          { rets := res.rets
            iopsConsistency := consistency
            latencyDistribution := res.outputs.ioPerLatency
            -- back-compatibility
            ioCountWrite := ioCountWrite counters
            cpuUsage := if res.rets.mseconds ≠ 0 then res.rets.cpuUsage / res.rets.mseconds else 0 }
        -- release child process resources
        (.ok rets, { w with opCounter := counters, queue := false })

/-- The `_IOWorker` of a request. -/
def hostWorker : IoWorker where
  outputs := ⟨req.outputIoPerSecond, req.outputPercentileLatency, req.outputCmdlogList⟩
  opCounter := req.opPercentage.map fun e => (e.1, (e.2 : Int))
  warnings := []
  queue := true

/-- Closing yields the result, with the errors reported, the counters of the operations updated
    and the queue released. -/
def Closes : Prop :=
  ∃ rets w, ioworkerClose (workerResult req run) (hostWorker req) = (.ok rets, w) ∧
    (workerError run ≠ 0 → .host (workerError run)
      (errorStrings.getD (-workerError run).toNat "") ∈ w.warnings) ∧
    ((workerResult req run).rets.error ≠ 0 →
      .device ((workerResult req run).rets.error >>> 8 &&& 0x7)
        ((workerResult req run).rets.error &&& 0xff) ∈ w.warnings) ∧
    w.opCounter = closeCounters req.opPercentage (workerOutputs req run).opPercentage ∧
    w.queue = false

/-- The IOs per second are not requested, or there are IOs in the seconds that are collected, and
    the list for them is empty; the percentiles are between 0 and 100, if latencies are returned. -/
structure Closable : Prop where
  perSecond : ∀ l, req.outputIoPerSecond = some l → l = [] ∧
    0 < (((workerOutputs req run).ioPerSecond.getD []).take
      ((workerResult req run).rets.mseconds / 1000)).sum
  percentile : ∀ d, req.outputPercentileLatency = some d →
    ∀ hist, (workerOutputs req run).ioPerLatency = some hist →
      ∀ e ∈ d, 0 < e.1 ∧ e.1 < 100 ∧ hist ≠ []

variable {req run}

/-! ### The tuple -/

/-- The outputs that were requested are there, with the operations of the request. -/
structure WorkerOutputs.Of (req : WorkerRequest) (o : WorkerOutputs) : Prop where
  perSecond : o.ioPerSecond.isSome = req.outputIoPerSecond.isSome
  perLatency : o.ioPerLatency.isSome → req.outputPercentileLatency.isSome
  cmdlog : o.cmdlogList.map List.length = req.outputCmdlogList.map List.length
  keys : o.opPercentage.map Prod.fst = req.opPercentage.map Prod.fst

/-- A transfer to an output that was requested. -/
def Transfer.To (req : WorkerRequest) : Transfer → Prop
  | .latencies => req.outputPercentileLatency.isSome
  | .op k _ => k ∈ req.opPercentage.map Prod.fst
  | _ => True

theorem keys_dictSet {α β : Type} [DecidableEq α] {k : α} {v : β} {d : List (α × β)}
    (h : k ∈ d.map Prod.fst) : (dictSet k v d).map Prod.fst = d.map Prod.fst := by
  rw [dictSet, if_pos h, List.map_map]
  refine List.map_congr_left fun e _ => ?_
  rw [Function.comp_apply]
  split_ifs with he
  · exact he.symm
  · rfl

theorem WorkerOutputs.Of.apply {o : WorkerOutputs} (h : o.Of req) {t : Transfer} (ht : t.To req) :
    (t.apply o).Of req := by
  cases t with
  | second count =>
    refine ⟨?_, h.perLatency, h.cmdlog, h.keys⟩
    rw [← h.perSecond, Transfer.apply, Option.isSome_map]
  | latencies => exact ⟨h.perSecond, fun _ => ht, h.cmdlog, h.keys⟩
  | latency count =>
    refine ⟨h.perSecond, fun hsome => h.perLatency ?_, h.cmdlog, h.keys⟩
    rwa [Transfer.apply, Option.isSome_map] at hsome
  | cmdlog i cmd =>
    refine ⟨h.perSecond, h.perLatency, ?_, h.keys⟩
    rw [← h.cmdlog, Transfer.apply, Option.map_map]
    exact congrArg (Option.map · o.cmdlogList) (funext fun l => List.length_set)
  | op k count =>
    refine ⟨h.perSecond, h.perLatency, h.cmdlog, ?_⟩
    rw [← h.keys]
    exact keys_dictSet (h.keys ▸ ht)

theorem to_of_mem_workerTransfers {t : Transfer} (h : t ∈ workerTransfers req run) : t.To req := by
  simp only [workerTransfers, List.mem_append] at h
  rcases h with ((h | h) | h) | h
  · split_ifs at h
    · obtain ⟨count, -, rfl⟩ := List.mem_map.1 h
      trivial
    · cases h
  · split_ifs at h with hsome
    · rcases List.mem_cons.1 h with rfl | h
      · exact hsome
      · obtain ⟨count, -, rfl⟩ := List.mem_map.1 h
        trivial
    · cases h
  · split_ifs at h
    · obtain ⟨i, hi, rfl⟩ := List.mem_mapIdx.1 h
      trivial
    · cases h
  · obtain ⟨⟨e, count⟩, he, rfl⟩ := List.mem_map.1 h
    exact List.mem_map_of_mem (List.of_mem_zip he).1

/-- Whenever the tuple is put on the queue, it has the outputs that were requested. -/
theorem workerOutputs_of (req : WorkerRequest) (run : WorkerRun) :
    (workerOutputs req run).Of req := by
  have hfold : ∀ (ts : List Transfer) (o : WorkerOutputs), o.Of req → (∀ t ∈ ts, t.To req) →
      (ts.foldl Transfer.apply o).Of req := by
    intro ts
    induction ts with
    | nil => exact fun o ho _ => ho
    | cons t ts ih =>
      intro o ho hts
      obtain ⟨ht, hts⟩ := List.forall_mem_cons.1 hts
      exact ih _ (ho.apply ht) hts
  refine hfold _ _ ⟨rfl, fun h => ?_, rfl, rfl⟩ fun t ht =>
    to_of_mem_workerTransfers (List.mem_of_mem_take ht)
  cases h

theorem workerError_bounds (h : -7 ≤ run.code ∧ run.code ≤ 0) :
    -6 ≤ workerError run ∧ workerError run ≤ 0 := by
  rw [workerError]
  split_ifs <;> omega

/-! ### The collection -/

variable {l returned hist : List Nat} {d : List (ℚ × Option Nat)} {k : ℚ} {error : Int}
  {retsError : Nat}

theorem closeWarnings_ok (h : -8 ≤ error ∧ error ≤ 0) (retsError : Nat) :
    ∃ warnings, closeWarnings error retsError = .ok warnings ∧
      (error ≠ 0 → .host error (errorStrings.getD (-error).toNat "") ∈ warnings) ∧
      (retsError ≠ 0 → .device (retsError >>> 8 &&& 0x7) (retsError &&& 0xff) ∈ warnings) := by
  obtain ⟨n, hn⟩ := Int.eq_ofNat_of_zero_le (a := -error) (by omega)
  have hlen : errorStrings.length = 9 := rfl
  have hlt : n < errorStrings.length := by omega
  have hindex : min ((errorStrings.length : Int) - 1) (-error) = n := by
    rw [hn, hlen]
    omega
  have htext : errorStrings.getD (-error).toNat "" = errorStrings[n] := by
    rw [hn, Int.toNat_natCast, List.getD_eq_getElem _ _ hlt]
  refine ⟨_, by rw [closeWarnings, hindex, pyListGet_eq hlt], fun hne => ?_, fun hne => ?_⟩
  · rw [htext, if_pos hne]
    exact List.mem_append_left _ (List.mem_singleton_self _)
  · rw [if_pos hne]
    exact List.mem_append_right _ (List.mem_singleton_self _)

/-- The consistency needs an IO. -/
theorem iopsConsistency_ok_iff : (∃ q, iopsConsistency l = .ok q) ↔ 0 < l.sum := by
  rw [iopsConsistency]
  split_ifs with hnil
  · simp [hnil]
  · have hlen : 0 < l.length := List.length_pos_iff.2 hnil
    have hindex : l.length * 999 / 10 / 100 < (l.mergeSort fun a b => decide (b ≤ a)).length := by
      rw [List.length_mergeSort]
      omega
    have haverage : (l.sum : ℚ) / l.length = 0 ↔ ¬0 < l.sum := by
      rw [div_eq_zero_iff, Nat.cast_eq_zero, Nat.cast_eq_zero]
      omega
    simp only [pyListGet_eq hindex, haverage]
    by_cases hsum : 0 < l.sum
    · simp [hsum]
    · simp [hsum]

theorem collectPerSecond_ok_iff {mseconds : Nat} {returned o : Option (List Nat)}
    (h : returned.isSome = o.isSome) :
    (∃ c o', collectPerSecond mseconds returned o = (.ok c, o')) ↔
      ∀ l, o = some l → l = [] ∧ 0 < ((returned.getD []).take (mseconds / 1000)).sum := by
  rcases o with _ | l
  · simp [collectPerSecond]
  · obtain ⟨returned, rfl⟩ := Option.isSome_iff_exists.1 h
    rw [collectPerSecond]
    split_ifs with hlen
    · have hne : l ≠ [] := fun hnil => hlen (by rw [hnil]; rfl)
      simp [hne]
    · obtain rfl : l = [] := List.length_eq_zero_iff.1 (not_not.1 hlen)
      simp only [List.nil_append, Option.getD_some, Option.some.injEq, forall_eq', true_and]
      rw [← iopsConsistency_ok_iff]
      rcases iopsConsistency (returned.take (mseconds / 1000)) with e | q <;> simp

/-- A percentage of a list that is not empty has a latency. -/
theorem findPercentileLatency_ok_iff (h0 : 0 ≤ k) (h100 : k ≤ 100) :
    (∃ l, findPercentileLatency k hist = .ok l) ↔ hist ≠ [] := by
  constructor
  · rintro ⟨l, hl⟩ rfl
    cases hl
  · intro hne
    have hnonneg : (0 : ℚ) ≤ hist.sum * k / 100 := by positivity
    obtain ⟨t, ht⟩ := Int.eq_ofNat_of_zero_le (Int.floor_nonneg.2 hnonneg)
    have hle : t ≤ hist.sum := by
      have hfloor : (t : ℚ) ≤ hist.sum * k / 100 := by
        have := Int.floor_le ((hist.sum : ℚ) * k / 100)
        rw [ht] at this
        exact_mod_cast this
      have hmul : (hist.sum : ℚ) * k ≤ hist.sum * 100 :=
        mul_le_mul_of_nonneg_left h100 (Nat.cast_nonneg _)
      have hcast : (t : ℚ) ≤ hist.sum := by linarith
      exact_mod_cast hcast
    obtain ⟨i, hi⟩ := Cumulative.exists_isFirst hne hle
    have hi₀ : Cumulative.IsFirst hist (t - 0) i := by rwa [Nat.sub_zero]
    refine ⟨0 + i, ?_⟩
    rw [findPercentileLatency, ht]
    exact findLatency_of_isFirst hi₀

theorem setPercentile_ok_iff :
    (∃ d', setPercentile hist k d = (.ok (), d')) ↔ 0 < k ∧ k < 100 ∧ hist ≠ [] := by
  by_cases hk : k > 0 ∧ k < 100
  · rw [setPercentile, if_neg (not_not.2 hk)]
    obtain ⟨h0, h100⟩ := hk
    have hiff : (∃ l, findPercentileLatency k hist = .ok l) ↔ hist ≠ [] :=
      findPercentileLatency_ok_iff h0.le h100.le
    rcases hfind : findPercentileLatency k hist with e | l
    · rw [hfind] at hiff
      simp only [Prod.mk.injEq, reduceCtorEq, false_and, exists_const, false_iff]
      exact fun h => absurd (hiff.2 h.2.2) (by simp)
    · rw [hfind] at hiff
      simp only [Prod.mk.injEq, true_and, exists_eq', true_iff]
      exact ⟨h0, h100, hiff.1 ⟨l, rfl⟩⟩
  · rw [setPercentile, if_pos hk]
    simp only [Prod.mk.injEq, reduceCtorEq, false_and, exists_const, false_iff]
    exact fun h => hk ⟨h.1, h.2.1⟩

theorem collectPercentiles_ok_iff {o : Option (List (ℚ × Option Nat))}
    {returned : Option (List Nat)} (h : returned.isSome → o.isSome) :
    (∃ o', collectPercentiles returned o = (.ok (), o')) ↔
      ∀ d, o = some d → ∀ hist, returned = some hist →
        ∀ e ∈ d, 0 < e.1 ∧ e.1 < 100 ∧ hist ≠ [] := by
  rcases returned with _ | hist
  · simp [collectPercentiles]
  · obtain ⟨d, rfl⟩ := Option.isSome_iff_exists.1 (h rfl)
    simp only [collectPercentiles, Option.some.injEq, forall_eq']
    constructor
    · rintro ⟨o', ho⟩ e he
      have hfor : pyFor (setPercentile hist) (d.map Prod.fst) d =
          (.ok (), (pyFor (setPercentile hist) (d.map Prod.fst) d).2) :=
        Prod.ext (Prod.mk.inj ho).1 rfl
      obtain ⟨d₁, d₂, hset⟩ := exists_of_pyFor hfor e.1 (List.mem_map_of_mem he)
      exact setPercentile_ok_iff.1 ⟨d₂, hset⟩
    · intro hall
      have hset : ∀ k ∈ d.map Prod.fst, ∀ d₁, True →
          ∃ d₂, setPercentile hist k d₁ = (.ok (), d₂) ∧ True := fun k hk d₁ _ => by
        obtain ⟨e, he, rfl⟩ := List.mem_map.1 hk
        obtain ⟨d₂, hset⟩ := (setPercentile_ok_iff (d := d₁)).2 (hall e he)
        exact ⟨d₂, hset, trivial⟩
      obtain ⟨d', hfor, -⟩ := pyFor_of_forall (s := d) trivial hset
      exact ⟨some d', by rw [hfor]⟩

theorem collectCmdlog_ok {returned o : Option (List (Option CmdTuple))}
    (h : returned.map List.length = o.map List.length) :
    ∃ o', collectCmdlog returned o = (.ok (), o') := by
  rcases o with _ | _ | ⟨x, l⟩
  · exact ⟨none, rfl⟩
  · exact ⟨some [], rfl⟩
  · rcases returned with _ | returned
    · cases h
    · rw [Option.map_some, Option.map_some, Option.some.injEq] at h
      have hset : ∀ y ∈ returned.zipIdx, ∀ l₁ : List (Option CmdTuple),
          l₁.length = returned.length →
            ∃ l₂, setCmdlog y l₁ = (.ok (), l₂) ∧ l₂.length = returned.length := by
        intro y hy l₁ hl₁
        have hlt : y.2 < l₁.length := by
          have := (List.mem_zipIdx hy).2.1
          omega
        refine ⟨l₁.set y.2 y.1, ?_, by rw [List.length_set, hl₁]⟩
        rw [setCmdlog, pyListSet_eq hlt]
      obtain ⟨l', hfor, -⟩ := pyFor_of_forall (s := x :: l) h.symm hset
      refine ⟨some l', ?_⟩
      simp only [collectCmdlog, hfor]

/-- The outputs are collected if each of them is. -/
theorem collectOutputs_ok_iff {res : WorkerResult} {o : HostOutputs} :
    (∃ c o', collectOutputs res o = (.ok c, o')) ↔
      (∃ c l, collectPerSecond res.rets.mseconds res.outputs.ioPerSecond o.ioPerSecond =
        (.ok c, l)) ∧
      (∃ d, collectPercentiles res.outputs.ioPerLatency o.percentileLatency = (.ok (), d)) ∧
      ∃ c, collectCmdlog res.outputs.cmdlogList o.cmdlogList = (.ok (), c) := by
  rw [collectOutputs]
  rcases collectPerSecond res.rets.mseconds res.outputs.ioPerSecond o.ioPerSecond with ⟨e | c, l⟩
  · simp
  rcases collectPercentiles res.outputs.ioPerLatency o.percentileLatency with ⟨e | u, d⟩
  · simp
  rcases collectCmdlog res.outputs.cmdlogList o.cmdlogList with ⟨e | u', c'⟩ <;> simp

/-- The counters of the operations are updated if the worker has returned each of them. -/
theorem updateOpCounter_eq {ops : List (Nat × Nat)} {child : List (Nat × Nat)}
    (h : ∀ e ∈ ops, e.1 ∈ child.map Prod.fst) :
    updateOpCounter (ops.map fun e => (e.1, (e.2 : Int))) child =
      .ok (closeCounters ops child) := by
  induction ops with
  | nil => rfl
  | cons e ops ih =>
    obtain ⟨he, hops⟩ := List.forall_mem_cons.1 h
    obtain ⟨count, hcount⟩ : ∃ count, child.lookup e.1 = some count := by
      rw [← Option.isSome_iff_exists, List.lookup_isSome_iff]
      obtain ⟨e', he', heq⟩ := List.mem_map.1 he
      exact ⟨e', he', by simp [heq]⟩
    have hrest := ih hops
    rw [updateOpCounter] at hrest ⊢
    rw [List.map_cons, List.mapM_cons, hrest]
    simp only [hcount]
    simp only [closeCounters, List.map_cons, hcount]
    rfl

/-- Closing yields the result if the outputs are collected, and the rest cannot raise. -/
theorem ioworkerClose_ok_iff {res : WorkerResult} {w w' : IoWorker} {warnings : List IoWarning}
    {counters : List (Nat × Int)}
    (hwarnings : closeWarnings res.error res.rets.error = .ok warnings)
    (hcounters : updateOpCounter w.opCounter res.outputs.opPercentage = .ok counters) :
    (∃ rets, ioworkerClose res w = (.ok rets, w')) ↔
      ∃ c o, collectOutputs res w.outputs = (.ok c, o) ∧
        w' = ⟨o, counters, w.warnings ++ warnings, false⟩ := by
  simp only [ioworkerClose, hwarnings]
  rcases collectOutputs res w.outputs with ⟨e | c, o⟩
  · simp
  · simp only [hcounters, Prod.mk.injEq, Except.ok.injEq, exists_and_right, exists_eq', true_and]
    constructor
    · rintro rfl
      exact ⟨c, o, ⟨rfl, rfl⟩, rfl⟩
    · rintro ⟨c', o', ⟨-, rfl⟩, rfl⟩
      rfl

/-- What a run returns can be collected exactly if the requested outputs can. -/
theorem collectOutputs_iff_closable :
    (∃ c o, collectOutputs (workerResult req run) (hostWorker req).outputs = (.ok c, o)) ↔
      Closable req run := by
  have hof := workerOutputs_of req run
  refine collectOutputs_ok_iff.trans ⟨fun h => ⟨?_, ?_⟩, fun h => ⟨?_, ?_, ?_⟩⟩
  · exact (collectPerSecond_ok_iff hof.perSecond).1 h.1
  · exact (collectPercentiles_ok_iff hof.perLatency).1 h.2.1
  · exact (collectPerSecond_ok_iff hof.perSecond).2 h.perSecond
  · exact (collectPercentiles_ok_iff hof.perLatency).2 h.percentile
  · exact collectCmdlog_ok hof.cmdlog

/-- Closing yields the result of every run, with the errors reported, the counters updated and the
    queue released, if and only if the requested outputs can be collected. -/
theorem ioworker_close_iff (hcode : -7 ≤ run.code ∧ run.code ≤ 0) :
    Closes req run ↔ Closable req run := by
  have hof := workerOutputs_of req run
  have herror := workerError_bounds hcode
  have hbounds : -8 ≤ workerError run ∧ workerError run ≤ 0 := ⟨by omega, herror.2⟩
  obtain ⟨warnings, hwarnings, hhost, hdevice⟩ :=
    closeWarnings_ok hbounds (workerResult req run).rets.error
  have hkeys : ∀ e ∈ req.opPercentage, e.1 ∈ (workerOutputs req run).opPercentage.map Prod.fst :=
    fun e he => by
      rw [hof.keys]
      exact List.mem_map_of_mem he
  have hclose : ∀ w', (∃ rets, ioworkerClose (workerResult req run) (hostWorker req) =
      (.ok rets, w')) ↔ _ := fun w' => ioworkerClose_ok_iff hwarnings (updateOpCounter_eq hkeys)
  rw [← collectOutputs_iff_closable]
  constructor
  · rintro ⟨rets, w, hw, -⟩
    obtain ⟨c, o, hc, -⟩ := (hclose w).1 ⟨rets, hw⟩
    exact ⟨c, o, hc⟩
  · rintro ⟨c, o, hc⟩
    obtain ⟨rets, hw⟩ := (hclose _).2 ⟨c, o, hc, rfl⟩
    exact ⟨rets, _, hw, fun hne => hhost hne, fun hne => hdevice hne, rfl, rfl⟩

/-- A worker that reads for two seconds, with the IOs of each of them. -/
theorem ioworker_close_two_seconds :
    Closes ⟨[(2, 100)], some [], some [(50, none)], none⟩
      ⟨true, 0, { mseconds := 2001 }, [3, 4], [0, 7], [], [107], 6, false, false⟩ := by
  refine (ioworker_close_iff (by decide)).2 ⟨fun l hl => ?_, fun d hd hist hhist e he => ?_⟩
  · obtain rfl := Option.some.inj hl
    exact ⟨rfl, by decide⟩
  · obtain rfl := Option.some.inj hd
    obtain rfl := Option.some.inj hhist
    obtain rfl := List.mem_singleton.1 he
    exact ⟨by norm_num, by norm_num, by decide⟩

/-- A worker that fails to start, with its IOs per second requested: there is no result, and the
    failure is not returned. -/
theorem ioworker_close_init_fails :
    ¬Closes ⟨[(2, 100)], some [], none, none⟩
      ⟨false, 0, {}, [], [], [], [], 0, true, false⟩ := by
  rintro ⟨rets, w, hw, -⟩
  have hraise : (ioworkerClose (workerResult ⟨[(2, 100)], some [], none, none⟩
      ⟨false, 0, {}, [], [], [], [], 0, true, false⟩)
      (hostWorker ⟨[(2, 100)], some [], none, none⟩)).1 =
        .error (.assertion "output list is empty") := rfl
  rw [hw] at hraise
  cases hraise

end Pynvme
