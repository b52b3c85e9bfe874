import Pynvme.Ioworker.Accounting

/-!
# The replay of a sequence

A worker with a sequence gives every context the index of the next entry when it
queues it, in the first batch and in the callbacks. So the entries passed to
`ns_cmd_io` and those of the queued contexts are, in this order, the entries sent so
far (`Replayed`).

The callback looks for the end of the sequence after it has taken the next entry: the
last entry is taken and not queued, unless the first batch holds it. All entries are
replayed if and only if the whole sequence fits in the first batch
(`ioworker_replay_iff`).
-/

namespace Pynvme

open Word

variable {env : Env} {args : Args} {w w' : Worker} {k : Nat} {status : Status} {now now' : Timeval}
  {table : Nat → BitVec 32} {d : Draws} {p : Prepared} {rc : Int} {e : IowEvent}
  {seq : List IoSeq}

/-- The indices of the sequence that were passed to `ns_cmd_io`. -/
def Worker.issuedIndices (w : Worker) : List Nat := w.issued.map fun x => x.1.io.index

/-- The indices of the contexts that are queued. -/
def Worker.pendingIndices (w : Worker) : List Nat :=
  w.g.pendingIoList.map fun k => (w.ioCtx k).ioSequenceIndex

/-- The rule of an undisturbed replay: every submission and every completion
    succeeds, before the due time. -/
def Undisturbed (w : Worker) : IowEvent → Prop
  | .send _ _ _ rc _ _ => rc = 0
  | .complete _ status _ now' => status.isError = false ∧ now'.gt w.g.dueTime = false
  | _ => True

/-- The replay of `seq`, in a state of the loop. -/
structure Replayed (seq : List IoSeq) (w : Worker) : Prop where
  accounted : Accounted w
  sequence : w.g.ioSequence = some seq
  order : w.issuedIndices ++ w.pendingIndices = List.range w.g.ioCountSent
  index : w.g.flagFinish = false → w.g.ioSequenceIndex = w.g.ioCountSent
  batch : seq.length ≤ w.args.qdepth → w.g.ioCountSent = seq.length
  short : w.args.qdepth < seq.length → w.g.ioCountSent < seq.length

theorem Sends.replayed (h : Sends w w' k now table d p rc) (hrc : rc = 0) (hw : Replayed seq w) :
    Replayed seq w' := by
  obtain ⟨hqdepth, -, -, hseq⟩ := Worker.limits_eq h.settings
  have hsent : w'.g.ioCountSent = w.g.ioCountSent := congrArg Control.ioCountSent h.control
  have hindex : w'.g.ioSequenceIndex = w.g.ioSequenceIndex :=
    congrArg Control.ioSequenceIndex h.control
  have hflag : w'.g.flagFinish = (w.g.flagFinish || decide (rc ≠ 0)) :=
    congrArg Control.flagFinish h.control
  have hpending : w'.g.pendingIoList = w.g.pendingIoList.tail :=
    congrArg Control.pendingIoList h.control
  have hcons := h.pendingIoList_eq (hw.accounted.head h.pc)
  constructor
  case accounted => exact h.accounted hw.accounted
  case sequence => exact hseq.trans hw.sequence
  case order =>
    have horder := hw.order
    rw [Worker.pendingIndices, hcons, List.map_cons] at horder
    rw [hsent, ← horder, Worker.issuedIndices, Worker.issuedIndices, Worker.pendingIndices,
      h.issued, hpending, List.map_append, List.append_assoc]
    simp only [List.map_cons, List.map_nil, List.singleton_append, h.index,
      ioworkerSendOnePrepare_index h.prepared]
  case index =>
    rw [hflag, hindex, hsent]
    intro hfin
    exact hw.index (by simpa [hrc] using hfin)
  case batch => rw [hqdepth, hsent]; exact hw.batch
  case short => rw [hqdepth, hsent]; exact hw.short

theorem MovesOn.replayed (h : MovesOn w w' e) (hw : Replayed seq w) : Replayed seq w' := by
  obtain ⟨hqdepth, -, -, hseq⟩ := Worker.limits_eq h.settings
  have hsent : w'.g.ioCountSent = w.g.ioCountSent := congrArg Control.ioCountSent h.control
  have hindex : w'.g.ioSequenceIndex = w.g.ioSequenceIndex :=
    congrArg Control.ioSequenceIndex h.control
  have hflag : w'.g.flagFinish = w.g.flagFinish := congrArg Control.flagFinish h.control
  have hpending : w'.g.pendingIoList = w.g.pendingIoList := congrArg Control.pendingIoList h.control
  constructor
  case accounted => exact h.accounted hw.accounted
  case sequence => exact hseq.trans hw.sequence
  case order =>
    rw [Worker.issuedIndices, Worker.pendingIndices, h.issued, hpending, h.ioCtx, hsent]
    exact hw.order
  case index => rw [hflag, hindex, hsent]; exact hw.index
  case batch => rw [hqdepth, hsent]; exact hw.batch
  case short => rw [hqdepth, hsent]; exact hw.short

/-- A context that is queued again takes an entry, and one after it is left. -/
theorem Completes.next_lt (h : Completes w w' k status now now') (hseq : w.g.ioSequence = some seq)
    (hfin : w'.g.flagFinish = false) : w.g.replays = true ∧ w.g.nextIndex < seq.length := by
  obtain ⟨hflag, hstatus, -⟩ := h.queued hfin
  have hnext : w.g.nextIndex < seq.length := by
    by_contra hle
    have := (h.decides hflag hstatus).2 (.inl ⟨seq, hseq, by omega⟩)
    exact absurd (this.symm.trans hfin) (by decide)
  refine ⟨?_, hnext⟩
  by_contra hne
  rw [Gctx.nextIndex, if_neg hne] at hnext
  exact hne (by simp [Gctx.replays, hseq, hnext])

/-- It takes the entry after those sent so far. -/
theorem Completes.takes (h : Completes w w' k status now now') (hw : Replayed seq w)
    (hfin : w'.g.flagFinish = false) :
    w.g.replays = true ∧ w.g.ioSequenceIndex = w.g.ioCountSent ∧
      w.g.ioCountSent + 1 < seq.length ∧ w.g.nextIndex = w.g.ioCountSent + 1 := by
  obtain ⟨hreplays, hnext⟩ := h.next_lt hw.sequence hfin
  have hindex := hw.index (h.queued hfin).1
  have heq : w.g.nextIndex = w.g.ioCountSent + 1 := by
    rw [Gctx.nextIndex, if_pos hreplays, hindex]
  exact ⟨hreplays, hindex, by omega, heq⟩

theorem Completes.pendingIndices (h : Completes w w' k status now now') (hk : k ∈ w.inFlight)
    (hw : Accounted w) :
    w.g.pendingIoList.map (fun i => (w'.ioCtx i).ioSequenceIndex) = w.pendingIndices := by
  refine List.map_congr_left fun i hi => ?_
  have hne : i ≠ k := by
    rintro rfl
    have hnodup := hw.nodup
    rw [Worker.contexts, List.append_assoc, List.nodup_append] at hnodup
    exact hnodup.2.2 i hi i (List.mem_append_left _ hk) rfl
  rw [h.other i hne]

theorem Completes.replayed (h : Completes w w' k status now now') (hk : k ∈ w.inFlight) {n : Nat}
    (hpc : w'.pc = .polling n) (hw : Replayed seq w) : Replayed seq w' := by
  obtain ⟨hqdepth, -, -, hseq⟩ := Worker.limits_eq h.settings
  have hsent := h.sent hw.accounted
  have hindex : w'.g.ioSequenceIndex = w.g.nextIndex := congrArg Control.ioSequenceIndex h.control
  have hpending : w'.g.pendingIoList =
      if w'.g.flagFinish then w.g.pendingIoList else w.g.pendingIoList ++ [k] :=
    congrArg Control.pendingIoList h.control
  have hissued : w'.issuedIndices = w.issuedIndices := by
    rw [Worker.issuedIndices, h.issued, Worker.issuedIndices]
  have hkeep := h.pendingIndices hk hw.accounted
  have haccounted := h.accounted hk hpc hw.accounted
  have hsequence := hseq.trans hw.sequence
  cases hfin : w'.g.flagFinish with
  | true =>
    rw [hfin, if_pos rfl] at hsent hpending
    refine ⟨haccounted, hsequence, ?_, by simp [hfin], ?_, ?_⟩
    · rw [hissued, Worker.pendingIndices, hpending, hkeep, hsent]
      exact hw.order
    · rw [hqdepth, hsent]; exact hw.batch
    · rw [hqdepth, hsent]; exact hw.short
  | false =>
    obtain ⟨hreplays, hidx, hlt, hnext⟩ := h.takes hw hfin
    rw [hfin, if_neg Bool.false_ne_true] at hsent hpending
    refine ⟨haccounted, hsequence, ?_, ?_, ?_, ?_⟩
    · rw [hissued, Worker.pendingIndices, hpending, List.map_append, hkeep, ← List.append_assoc,
        hw.order, hsent, List.range_succ, List.map_singleton, h.ctxIndex hreplays, hidx]
    · rw [hindex, hnext, hsent]
      exact fun _ => rfl
    · intro hle
      have := hw.batch (hqdepth ▸ hle)
      omega
    · rw [hsent]
      exact fun _ => hlt

theorem Starts.replayed (hargs : args.Valid) (hseq : args.ioSequence = some seq)
    (h : Starts env args w) : Replayed seq w := by
  have hcount : batchCount args.ioSequence w.args.qdepth = min w.args.qdepth seq.length := by
    rw [hseq]
    rfl
  have hsent : w.g.ioCountSent = batchCount args.ioSequence w.args.qdepth :=
    congrArg Control.ioCountSent h.control
  have hindex : w.g.ioSequenceIndex =
      if args.ioSequence.isSome then batchCount args.ioSequence w.args.qdepth else 0 :=
    congrArg Control.ioSequenceIndex h.control
  have hpending : w.g.pendingIoList = List.range (batchCount args.ioSequence w.args.qdepth) :=
    congrArg Control.pendingIoList h.control
  have hsome : args.ioSequence.isSome = true := by rw [hseq]; rfl
  constructor
  case accounted => exact h.accounted hargs
  case sequence => exact (Worker.limits_of_settings h.settings).2.2.trans hseq
  case order =>
    rw [Worker.issuedIndices, Worker.pendingIndices, h.issued, hpending, hsent, List.map_nil,
      List.nil_append]
    refine (List.map_congr_left fun i hi => ?_).trans (List.map_id _)
    exact h.index hsome i (List.mem_range.1 hi)
  case index =>
    intro _
    rw [hindex, hsent, if_pos hsome]
  case batch => omega
  case short => omega

theorem replayed_of_reachable (hargs : args.Valid) (hseq : args.ioSequence = some seq)
    (h : (ioworkerMachine env args).Reachable Undisturbed w) : Refuses w ∨ Replayed seq w := by
  refine ioworker_invariant hargs.qdepth_lt h (fun w => Starts.replayed hargs hseq) ?_ ?_ ?_
  · exact fun w w' k now table d p rc timeSent after hw hP hs => hs.replayed hP hw
  · exact fun w w' k status now now' n hw _ hk _ hpc hc => hc.replayed hk hpc hw
  · exact fun w w' e hw _ hm => hm.replayed hw

/-- In every undisturbed run that returns success, the entries passed to `ns_cmd_io`
    are all those of the sequence, in order, if and only if they fit in the queue and
    in the count. -/
theorem ioworker_replay_iff (hargs : args.Admitted) (hseq : args.ioSequence = some seq)
    (h : (ioworkerMachine env args).Reachable Undisturbed w) (hpc : w.pc = .exited 0) :
    w.issuedIndices = List.range seq.length ↔
      seq.length ≤ args.qdepth - 1 ∧ (args.ioCount = 0 ∨ seq.length ≤ args.ioCount) := by
  have hv := hargs.valid
  rcases replayed_of_reachable hv hseq h with hr | hw
  · rcases hr.pc with ⟨_, hpc'⟩ | hpc' | hpc' <;> simp [hpc'] at hpc
  rcases accounted_of_reachable hv h with hr | ⟨ha, -, hqdepth, -⟩
  · rcases hr.pc with ⟨_, hpc'⟩ | hpc' | hpc' <;> simp [hpc'] at hpc
  -- Nothing is queued at the end: what was issued is all that was sent.
  have hissued : w.issuedIndices = List.range w.g.ioCountSent := by
    obtain ⟨-, hnil⟩ := ha.exited hpc
    rw [Worker.contexts, List.append_eq_nil_iff, List.append_eq_nil_iff] at hnil
    rw [← hw.order, Worker.pendingIndices, hnil.1.1, List.map_nil, List.append_nil]
  have hlimit : seq.length ≤ args.limit ↔ args.ioCount = 0 ∨ seq.length ≤ args.ioCount := by
    have := (hv.sequence seq hseq).2
    rw [Args.limit]
    split_ifs <;> omega
  have hbatch := hw.batch
  have hshort := hw.short
  rw [hissued, ← hlimit]
  constructor
  · intro heq
    have hlen := congrArg List.length heq
    rw [List.length_range, List.length_range] at hlen
    omega
  · intro hle
    rw [hbatch (by omega)]

/-! ### Short sequences -/

/-- The parameters for a sequence of `n` reads, and a queue of two entries. -/
def reads (n : Nat) : PyArgs :=
  { readOnce with ioCount := 0, ioSequence := some (List.replicate n ⟨0, 2, 0, 8⟩) }

/-- Their arguments. -/
def readsArgs (n : Nat) : Args :=
  { readOnceArgs with ioCount := 0, ioSequence := some (List.replicate n ⟨0, 0, 2, 8⟩) }

/-- The run of a replay in which the first read completes. -/
theorem readsArgs_run {n : Nat} {f : Worker → Pc × List Nat} {t : Pc × List Nat}
    (hdue : (ioworkerStart (plainEnv 8) (readsArgs n)).g.dueTime = ⟨3600001, 0⟩)
    (hrun : ((ioworkerMachine (plainEnv 8) (readsArgs n)).run
      (ioworkerStart (plainEnv 8) (readsArgs n))
      (iteration 2 ⟨0, 0, 0, 0, 0⟩ 0 [0] ++ [.leave])).map f = some t) :
    ∃ w, (ioworkerMachine (plainEnv 8) (readsArgs n)).Reachable Undisturbed w ∧
      f w = t := by
  have hstart : (ioworkerMachine (plainEnv 8) (readsArgs n)).Reachable Undisturbed
      (ioworkerStart (plainEnv 8) (readsArgs n)) := .init rfl
  have ha : (ioworkerMachine (plainEnv 8) (readsArgs n)).Admits Undisturbed
      (ioworkerStart (plainEnv 8) (readsArgs n))
      (iteration 2 ⟨0, 0, 0, 0, 0⟩ 0 [0] ++ [.leave]) := by
    refine Machine.admits_of_invariant (I := fun w => w.g.dueTime = ⟨3600001, 0⟩) hdue ?_ ?_
    · intro w e w' hw hs
      exact (congrArg Settings.dueTime (ioworkerStep_settings hs)).trans hw
    · intro e he w hw
      simp only [iteration, List.map_cons, List.map_nil, List.cons_append, List.nil_append,
        List.mem_cons, List.not_mem_nil, or_false] at he
      rcases he with rfl | rfl | rfl | rfl | rfl | rfl
      · rfl
      · trivial
      · trivial
      · refine ⟨rfl, ?_⟩
        rw [hw]
        decide
      · trivial
      · trivial
  exact hstart.exists_run _ ha hrun

/-- One read is replayed. -/
theorem ioworker_replay_iff_one :
    ∃ w, (ioworkerMachine (plainEnv 8) (readsArgs 1)).Reachable Undisturbed w ∧
      w.pc = .exited 0 ∧ w.issuedIndices = [0] := by
  have hadmitted : (readsArgs 1).Admitted := ⟨1, reads 1, _, rfl, rfl⟩
  obtain ⟨w, hw, hf⟩ := readsArgs_run (n := 1) (f := fun w => (w.pc, w.issuedIndices))
    (t := (.exited 0, [0])) rfl rfl
  simp only [Prod.mk.injEq] at hf
  exact ⟨w, hw, hf.1, (ioworker_replay_iff hadmitted rfl hw hf.1).2 (by decide)⟩

/-- Of two reads, for which the queue has one place, only the first is replayed. -/
theorem ioworker_replay_two :
    (readsArgs 2).Admitted ∧
      ∃ w, (ioworkerMachine (plainEnv 8) (readsArgs 2)).Reachable Undisturbed w ∧
        w.pc = .exited 0 ∧ w.issuedIndices ≠ List.range 2 := by
  refine ⟨⟨1, reads 2, _, rfl, rfl⟩, ?_⟩
  obtain ⟨w, hw, hf⟩ := readsArgs_run (n := 2) (f := fun w => (w.pc, w.issuedIndices))
    (t := (.exited 0, [0])) rfl rfl
  simp only [Prod.mk.injEq] at hf
  exact ⟨w, hw, hf.1, by rw [hf.2]; decide⟩

end Pynvme
