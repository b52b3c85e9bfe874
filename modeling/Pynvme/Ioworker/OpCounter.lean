import Pynvme.Ioworker.Statistics

/-!
# The counters of the operations

A script gives the operations of an ioworker with their percentages (`op_percentage`),
and finds the numbers of the IOs in their place when the worker has returned:
`_IOWorker.close` subtracts the percentages from what the worker has counted
(`closeCounters`).

The worker counts an IO at the index of its operation in the list, where a replayed IO
always has the index 0, and sends the low 8 bits of the operation. So the counters are
right if and only if each IO that has completed is of the operation it is counted with
(`ioworker_counters_iff`).
-/

namespace Pynvme

open Word

variable {env : Env} {args : Args} {w : Worker} {hist : History}

/-- The counters that `_IOWorker.close` computes, from those before and after the run. -/
def closeCounters (opCounter child : List (Nat × Nat)) : List (Nat × Int) :=
  opCounter.map fun e => (e.1, ((child.lookup e.1).getD 0 : Int) - e.2)

/-- The result `io_count_write`. -/
def ioCountWrite (counters : List (Nat × Int)) : Int := (counters.lookup 1).getD 0

/-- The counters and the number of writes are those of the IOs `done`. -/
def CountersRight (counters : List (Nat × Int)) (done : List DoneIo) : Prop :=
  (∀ e ∈ counters, e.2 = done.countP fun x => x.opcode = e.1) ∧
    ioCountWrite counters = done.countP fun x => x.opcode = 1

/-- An IO is of the operation it is counted with: its operation has 8 bits, or it is
    replayed and has the first of the operations. -/
def CountedAsSent (args : Args) (x : SentIo) : Prop :=
  match args.ioSequence with
  | none => opAt args (drawnIndex args x.opDraw) < 2 ^ 8
  | some seq => (seq.getD x.prepared.io.index ⟨0, 0, 0, 0⟩).op % 2 ^ 8 = opAt args 0

theorem countedAsSent_iff {x : SentIo} (h : x.Described args) :
    CountedAsSent args x ↔ opAt args x.prepared.opIndex = x.prepared.io.opcode := by
  rw [CountedAsSent, h.opIndex, h.opcode]
  rcases args.ioSequence with _ | seq
  · simp only [Option.isSome_none, Bool.false_eq_true, if_false]
    omega
  · simp only [Option.isSome_some, if_true]
    exact eq_comm

theorem lookup_of_mem {β : Type} {l : List (Nat × β)} (h : (l.map Prod.fst).Nodup) {k : Nat} {b : β}
    (hmem : (k, b) ∈ l) : l.lookup k = some b := by
  induction l with
  | nil => cases hmem
  | cons e l ih =>
    rw [List.map_cons, List.nodup_cons] at h
    rcases List.mem_cons.1 hmem with rfl | hmem
    · exact List.lookup_cons_self
    · have hne : k ≠ e.1 := fun heq => h.1 (heq ▸ List.mem_map_of_mem hmem)
      rw [List.lookup_cons, beq_false_of_ne hne]
      exact ih h.2 hmem

/-- The counters, by the indices of the operations. -/
def counters (args : Args) (done : List DoneIo) : List (Nat × Int) :=
  args.opList.mapIdx fun i e => (e.1, (done.countP fun x => x.opIndex = i : Int))

/-- The counters are the numbers of the IOs counted at their indices. -/
theorem closeCounters_eq (hkeys : (args.opList.map Prod.fst).Nodup)
    (h : StatsOf args hist.done w.stats) :
    closeCounters args.opList w.args.opList = counters args hist.done := by
  have hops : w.args.opList = _ := h.ops
  have hnodup : (w.args.opList.map Prod.fst).Nodup := h.keys ▸ hkeys
  refine List.ext_getElem (by simp [closeCounters, counters]) fun i hi _ => ?_
  have hlen : i < args.opList.length := by simpa [closeCounters] using hi
  have hmem : (args.opList[i].1, args.opList[i].2 + hist.done.countP fun x => x.opIndex = i) ∈
      w.args.opList := by
    rw [hops]
    exact List.mem_iff_getElem.2 ⟨i, by simpa using hlen, by simp⟩
  simp only [closeCounters, counters, List.getElem_map, List.getElem_mapIdx,
    lookup_of_mem hnodup hmem, Option.getD_some]
  congr 1
  push_cast
  omega

theorem opAt_eq {i : Nat} (hi : i < args.opList.length) : opAt args i = args.opList[i].1 := by
  simp [opAt, hi]

theorem opAt_inj (hkeys : (args.opList.map Prod.fst).Nodup) {i j : Nat}
    (hi : i < args.opList.length) (hj : j < args.opList.length) :
    opAt args i = opAt args j ↔ i = j := by
  have hi' : i < (args.opList.map Prod.fst).length := by rwa [List.length_map]
  have hj' : j < (args.opList.map Prod.fst).length := by rwa [List.length_map]
  rw [opAt, opAt, List.getD_eq_getElem _ _ hi', List.getD_eq_getElem _ _ hj',
    hkeys.getElem_inj_iff]

/-- The IOs counted at an index are those of the operation there, if each is counted with its
    own. -/
theorem countP_opIndex_eq (hkeys : (args.opList.map Prod.fst).Nodup) {done : List DoneIo}
    (hlt : ∀ x ∈ done, x.opIndex < args.opList.length)
    (h : ∀ x ∈ done, opAt args x.opIndex = x.opcode) {i : Nat} (hi : i < args.opList.length) :
    done.countP (fun x => x.opIndex = i) = done.countP fun x => x.opcode = opAt args i := by
  refine List.countP_congr fun x hx => ?_
  simp only [decide_eq_true_eq, ← h x hx, opAt_inj hkeys (hlt x hx) hi]

/-- If every index has counted the IOs of its operation, each IO was counted with its own. -/
theorem opAt_eq_opcode {done : List DoneIo} (hdesc : ∀ x ∈ done, x.sent.Described args)
    (hlt : ∀ x ∈ done, x.opIndex < args.opList.length)
    (h : ∀ i < args.opList.length,
      done.countP (fun x => x.opIndex = i) = done.countP fun x => x.opcode = opAt args i) :
    ∀ x ∈ done, opAt args x.opIndex = x.opcode := by
  intro x hx
  have hcount := h _ (hlt x hx)
  rcases hseq : args.ioSequence with _ | seq
  -- Another operation would be one of more than 8 bits, which no IO has.
  · have hop : x.opcode = opAt args x.opIndex % 2 ^ 8 := by
      have hidx : x.opIndex = drawnIndex args x.sent.opDraw := by
        have := (hdesc x hx).opIndex
        rwa [hseq] at this
      rw [hidx]
      have := (hdesc x hx).opcode
      rwa [hseq] at this
    by_contra hne
    have hnone : done.countP (fun y => y.opcode = opAt args x.opIndex) = 0 := by
      refine List.countP_eq_zero.2 fun y hy => ?_
      have := (hdesc y hy).opcode
      rw [hseq] at this
      have hlow : y.opcode < 2 ^ 8 := by
        rw [DoneIo.opcode, this]
        exact Nat.mod_lt _ (by decide)
      simp only [decide_eq_true_eq]
      omega
    rw [hnone, List.countP_eq_zero] at hcount
    exact hcount x hx (by simp)
  -- All IOs have the same index, and so the same operation.
  · have hidx : ∀ y ∈ done, y.opIndex = 0 := fun y hy => by
      have := (hdesc y hy).opIndex
      rwa [hseq] at this
    have hall : done.countP (fun y => y.opIndex = x.opIndex) = done.length :=
      List.countP_eq_length.2 fun y hy => by simp [hidx y hy, hidx x hx]
    rw [hall] at hcount
    have := List.countP_eq_length.1 hcount.symm x hx
    simpa using (of_decide_eq_true this).symm

theorem mem_counters {done : List DoneIo} {e : Nat × Int} :
    e ∈ counters args done ↔ ∃ i < args.opList.length,
      e = (opAt args i, (done.countP fun x => x.opIndex = i : Int)) := by
  rw [counters, List.mem_mapIdx]
  constructor
  · rintro ⟨i, hi, rfl⟩
    exact ⟨i, hi, by rw [opAt_eq hi]⟩
  · rintro ⟨i, hi, rfl⟩
    exact ⟨i, hi, by rw [opAt_eq hi]⟩

theorem counters_keys (args : Args) (done : List DoneIo) :
    (counters args done).map Prod.fst = args.opList.map Prod.fst := by
  refine List.ext_getElem (by simp [counters]) fun i _ _ => ?_
  simp [counters]

/-- The number of writes is right, if each IO was counted with its own operation. -/
theorem ioCountWrite_eq (hkeys : (args.opList.map Prod.fst).Nodup) {done : List DoneIo}
    (hlt : ∀ x ∈ done, x.opIndex < args.opList.length)
    (h : ∀ x ∈ done, opAt args x.opIndex = x.opcode) :
    ioCountWrite (counters args done) = done.countP fun x => x.opcode = 1 := by
  by_cases hone : ∃ i < args.opList.length, opAt args i = 1
  · obtain ⟨i, hi, hop⟩ := hone
    have hmem : (1, (done.countP fun x => x.opIndex = i : Int)) ∈ counters args done :=
      mem_counters.2 ⟨i, hi, by rw [hop]⟩
    rw [ioCountWrite, lookup_of_mem (by rwa [counters_keys]) hmem, Option.getD_some,
      countP_opIndex_eq hkeys hlt h hi, hop]
  · push Not at hone
    have hnone : (counters args done).lookup 1 = none := by
      refine List.lookup_eq_none_iff.2 fun e he => ?_
      obtain ⟨i, hi, rfl⟩ := mem_counters.1 he
      simpa using (hone i hi).symm
    have hzero : done.countP (fun x => x.opcode = 1) = 0 :=
      List.countP_eq_zero.2 fun x hx => by simpa [← h x hx] using hone _ (hlt x hx)
    rw [ioCountWrite, hnone, hzero]
    rfl

/-- When the counters of a worker are right: each IO that has completed is of the operation
    it is counted with. The operations are the keys of a dictionary, so that they are
    distinct. -/
theorem ioworker_counters_iff (hargs : args.Admitted) (hkeys : (args.opList.map Prod.fst).Nodup)
    {P : Worker × History → IowEvent → Prop}
    (h : (ioworkerHistory env args).Reachable P (w, hist)) :
    CountersRight (closeCounters args.opList w.args.opList) hist.done ↔
      ∀ x ∈ hist.done, CountedAsSent args x.sent := by
  obtain ⟨-, hrec⟩ := recorded_of_reachable hargs.valid h
  dsimp only at hrec
  have hlt : ∀ x ∈ hist.done, x.opIndex < args.opList.length :=
    fun x hx => opIndex_lt hargs.valid (hrec.described x hx)
  have hiff : (∀ x ∈ hist.done, CountedAsSent args x.sent) ↔
      ∀ x ∈ hist.done, opAt args x.opIndex = x.opcode :=
    forall₂_congr fun x hx => countedAsSent_iff (hrec.described x hx)
  rw [closeCounters_eq hkeys hrec.stats, hiff]
  constructor
  · rintro ⟨hright, -⟩
    refine opAt_eq_opcode hrec.described hlt fun i hi => ?_
    have hcounter := hright _ (mem_counters.2 ⟨i, hi, rfl⟩)
    dsimp only at hcounter
    exact_mod_cast hcounter
  · intro hall
    refine ⟨fun e he => ?_, ioCountWrite_eq hkeys hlt hall⟩
    obtain ⟨i, hi, rfl⟩ := mem_counters.1 he
    dsimp only
    exact_mod_cast countP_opIndex_eq hkeys hlt hall hi

/-! ### A write that is replayed -/

/-- The parameters for the replay of one write. -/
def replayWrite : PyArgs := { readOnce with ioCount := 0, ioSequence := some [⟨0, 1, 0, 8⟩] }

/-- Their arguments. -/
def replayWriteArgs : Args :=
  { readOnceArgs with ioCount := 0, ioSequence := some [⟨0, 0, 1, 8⟩] }

/-- The write completes, and is counted as a read. -/
theorem ioworker_counters_replay :
    replayWriteArgs.Admitted ∧ (replayWriteArgs.opList.map Prod.fst).Nodup ∧
    ∃ w hist, (ioworkerHistory (plainEnv 8) replayWriteArgs).Reachable (fun _ _ => True) (w, hist) ∧
      w.pc = .exited 0 ∧ hist.done.map DoneIo.opcode = [1] ∧
      closeCounters replayWriteArgs.opList w.args.opList = [(2, 1), (1, 0)] ∧
      ¬CountersRight (closeCounters replayWriteArgs.opList w.args.opList) hist.done := by
  refine ⟨⟨1, replayWrite, _, rfl, rfl⟩, by decide, ?_⟩
  have hstart := ioworkerHistory_start (plainEnv 8) replayWriteArgs (P := fun _ _ => True)
  obtain ⟨⟨w, hist⟩, hx, hf⟩ := hstart.exists_run
    (f := fun x => (x.1.pc, x.2.done.map DoneIo.opcode, x.1.args.opList))
    (t := (.exited 0, [1], [(2, 101), (1, 0)]))
    (iteration 2 ⟨0, 0, 0, 0, 0⟩ 0 [0] ++ [.leave]) (Machine.admits_of_forall (by simp) _) rfl
  simp only [Prod.mk.injEq] at hf
  obtain ⟨hpc, hdone, hops⟩ := hf
  refine ⟨w, hist, hx, hpc, hdone, by rw [hops]; rfl, fun hright => ?_⟩
  rw [hops] at hright
  have hwrites := hright.2
  have hone : hist.done.countP (fun x => x.opcode = 1) = 1 := by
    have hmap := List.countP_map (p := fun n => decide (n = 1)) (f := DoneIo.opcode)
      (l := hist.done)
    rw [hdone] at hmap
    exact hmap.symm
  rw [hone] at hwrites
  exact absurd hwrites (by decide)

/-- The read of a worker that reads once is counted as a read. -/
theorem ioworker_counters_read :
    ∃ w hist, (ioworkerHistory (plainEnv 8) readOnceArgs).Reachable (fun _ _ => True) (w, hist) ∧
      hist.done.length = 1 ∧
      CountersRight (closeCounters readOnceArgs.opList w.args.opList) hist.done := by
  have hstart := ioworkerHistory_start (plainEnv 8) readOnceArgs (P := fun _ _ => True)
  obtain ⟨⟨w, hist⟩, hx, hf⟩ := hstart.exists_run
    (f := fun x => x.2.done.map fun y => y.sent.opDraw) (t := [0])
    (iteration 2 ⟨0, 0, 0, 0, 0⟩ 0 [0] ++ [.leave]) (Machine.admits_of_forall (by simp) _) rfl
  refine ⟨w, hist, hx, by simpa using congrArg List.length hf, ?_⟩
  refine (ioworker_counters_iff readOnceArgs_admitted (by decide) hx).2 fun x hxd => ?_
  have hdraw : x.sent.opDraw ∈ hist.done.map fun y => y.sent.opDraw := List.mem_map_of_mem hxd
  dsimp only at hf
  rw [hf, List.mem_singleton] at hdraw
  change opAt readOnceArgs (drawnIndex readOnceArgs x.sent.opDraw) < 2 ^ 8
  rw [hdraw]
  decide

end Pynvme
