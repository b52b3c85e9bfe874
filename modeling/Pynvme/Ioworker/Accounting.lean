import Pynvme.Ioworker.Start

/-!
# The accounting of an ioworker

An IO is counted as sent when its context is queued, and as completed in its
callback. In between the context is queued, or in flight, or its submission failed
and it is lost (`Worker.contexts`); in every state the counters differ by the number
of these contexts, and no context is in two places (`Accounted`).

* `ioworker_accounting`: the accounting of the runs in which every submission
  succeeds, from the counters in every state to the results of a normal exit;
* `ioworker_continues_iff`: where nothing is left to do, the loop ends unless a
  submission has failed, and then it waits for its timeout.
-/

namespace Pynvme

open Word

variable {env : Env} {args : Args} {w w' : Worker} {k : Nat} {status : Status} {now now' : Timeval}
  {table : Nat → BitVec 32} {d : Draws} {p : Prepared} {rc : Int} {e : IowEvent}

/-! ### Contexts -/

/-- The contexts counted as sent and not as completed. -/
def Worker.contexts (w : Worker) : List Nat := w.g.pendingIoList ++ w.inFlight ++ w.lost

/-- The context that is sent is the head of the pending list. -/
theorem Sends.pendingIoList_eq (h : Sends w w' k now table d p rc)
    (hhead : w.headIo = w.g.pendingIoList.head?) :
    w.g.pendingIoList = k :: w.g.pendingIoList.tail :=
  List.eq_cons_of_mem_head? (hhead.symm.trans h.headIo)

/-- Sending moves it. -/
theorem Sends.contexts_perm (h : Sends w w' k now table d p rc)
    (hhead : w.headIo = w.g.pendingIoList.head?) : w'.contexts.Perm w.contexts := by
  have hpending : w'.g.pendingIoList = w.g.pendingIoList.tail :=
    congrArg Control.pendingIoList h.control
  obtain ⟨rest, hrest⟩ : ∃ rest, w.g.pendingIoList = k :: rest := ⟨_, h.pendingIoList_eq hhead⟩
  rw [Worker.contexts, Worker.contexts, h.inFlight, h.lost, hpending, hrest, List.tail_cons]
  refine List.perm_iff_count.2 fun a => ?_
  split_ifs <;> simp only [List.count_append, List.count_cons, List.count_nil] <;> omega

/-- A completion takes the context out, or queues it again. -/
theorem Completes.contexts_perm (h : Completes w w' k status now now') (hk : k ∈ w.inFlight) :
    w.contexts.Perm (if w'.g.flagFinish then k :: w'.contexts else w'.contexts) := by
  have hpending : w'.g.pendingIoList =
      if w'.g.flagFinish then w.g.pendingIoList else w.g.pendingIoList ++ [k] :=
    congrArg Control.pendingIoList h.control
  rw [Worker.contexts, Worker.contexts, h.inFlight, h.lost, hpending]
  refine List.perm_iff_count.2 fun a => ?_
  have herase := (List.perm_cons_erase hk).count_eq a
  rw [List.count_cons] at herase
  split_ifs <;> simp only [List.count_append, List.count_cons, List.count_nil] <;> omega

/-! ### Errors -/

/-- The error code of the first failing completion, 0 if there is none. -/
def firstError (l : List Completion) : Nat :=
  ((l.find? fun c => c.status.isError).map fun c => c.status.errorCode).getD 0

theorem Status.errorCode_ne_zero (h : status.isError = true) : status.errorCode ≠ 0 := by
  intro h0
  obtain ⟨hsc, hsct⟩ : status.sc.toNat = 0 ∧ status.sct.toNat = 0 := by
    rw [Status.errorCode] at h0
    omega
  have hz : status.isError = false := by
    rw [Status.isError, BitVec.eq_of_toNat_eq (x := status.sc) (y := 0#8) hsc,
      BitVec.eq_of_toNat_eq (x := status.sct) (y := 0#3) hsct]
    rfl
  exact absurd (h.symm.trans hz) (by decide)

theorem firstError_append {l : List Completion} {rets : Rets} (c : Completion)
    (h : rets.error = firstError l) : rets.errorAfter c.status = firstError (l ++ [c]) := by
  rw [Rets.errorAfter, h, firstError, firstError, List.find?_append]
  rcases hf : l.find? fun c => c.status.isError with _ | c'
  · cases hc : c.status.isError <;> simp [hf, hc]
  · have herr : c'.status.isError = true := (List.find?_some hf :)
    simp [hf, Status.errorCode_ne_zero herr]

/-! ### The invariant -/

/-- The accounting, in a state of the loop. -/
structure Accounted (w : Worker) : Prop where
  count : w.g.ioCountSent = w.g.ioCountCplt + w.contexts.length
  completed : w.g.ioCountCplt = w.completions.length
  nodup : w.contexts.Nodup
  lt : ∀ i ∈ w.contexts, i < w.args.qdepth
  le : w.g.ioCountSent ≤ w.args.ioCount
  bound : w.args.ioCount < 2 ^ 64
  head : w.pc = .head → w.headIo = w.g.pendingIoList.head?
  exited : w.pc = .exited 0 → w.g.flagFinish = true ∧ w.contexts = []
  counted : w.pc ≠ .aborted .isFinish
  error : w.rets.error = firstError w.completions
  failed : w.lost ≠ [] → w.g.flagFinish = true
  finish : w.g.flagFinish = true → w.g.ioSequence = none → w.lost = [] →
    (∀ c ∈ w.completions, c.status.isError = false ∧ c.now'.gt w.g.dueTime = false) →
    w.g.ioCountSent = w.args.ioCount

/-- What of the settings the accounting depends on. -/
theorem Worker.limits_eq (h : w'.settings = w.settings) :
    w'.args.qdepth = w.args.qdepth ∧ w'.args.ioCount = w.args.ioCount ∧
      w'.g.dueTime = w.g.dueTime ∧ w'.g.ioSequence = w.g.ioSequence :=
  ⟨(congrArg (fun s => s.args.qdepth) h :), (congrArg (fun s => s.args.ioCount) h :),
    congrArg Settings.dueTime h, congrArg Settings.ioSequence h⟩

theorem Accounted.nodup_inFlight (h : Accounted w) : w.inFlight.Nodup :=
  (List.nodup_append'.1 (List.nodup_append'.1 h.nodup).1).2.1

/-- The context that is sent is not in flight. -/
theorem Sends.notMem_inFlight (h : Sends w w' k now table d p rc) (hw : Accounted w) :
    k ∉ w.inFlight := by
  have hpending : k ∈ w.g.pendingIoList := by
    rw [h.pendingIoList_eq (hw.head h.pc)]
    exact List.mem_cons_self
  exact (List.nodup_append'.1 (List.nodup_append'.1 hw.nodup).1).2.2 hpending

theorem Sends.accounted (h : Sends w w' k now table d p rc) (hw : Accounted w) : Accounted w' := by
  obtain ⟨hqdepth, hcount, hdue, hseq⟩ := Worker.limits_eq h.settings
  have hperm := h.contexts_perm (hw.head h.pc)
  have hsent : w'.g.ioCountSent = w.g.ioCountSent := congrArg Control.ioCountSent h.control
  have hcplt : w'.g.ioCountCplt = w.g.ioCountCplt := congrArg Control.ioCountCplt h.control
  have hflag : w'.g.flagFinish = (w.g.flagFinish || decide (rc ≠ 0)) :=
    congrArg Control.flagFinish h.control
  have hpc := h.pc'
  constructor
  case count => rw [hsent, hcplt, hperm.length_eq, hw.count]
  case completed => rw [hcplt, h.completions, hw.completed]
  case nodup => exact hperm.nodup_iff.2 hw.nodup
  case lt => exact fun i hi => hqdepth ▸ hw.lt i (hperm.mem_iff.1 hi)
  case le => rw [hsent, hcount]; exact hw.le
  case bound => rw [hcount]; exact hw.bound
  case head => simp [hpc]
  case exited => simp [hpc]
  case counted => simp [hpc]
  case error => rw [h.error, h.completions, hw.error]
  case failed =>
    rw [hflag, h.lost]
    intro hne
    split_ifs at hne with hrc
    · simp [hrc]
    · simp [hw.failed hne]
  case finish =>
    rw [hflag, h.lost, hseq, h.completions, hdue, hsent, hcount]
    intro hfin hnone hlost hall
    split_ifs at hlost with hrc
    · simp at hlost
    · exact hw.finish (by simpa [not_not.1 hrc] using hfin) hnone hlost hall

/-- The context is queued again only if that is the count of another IO. -/
theorem Completes.queued (h : Completes w w' k status now now') (hfin : w'.g.flagFinish = false) :
    w.g.flagFinish = false ∧ status.isError = false ∧ w.g.ioCountSent ≠ w.args.ioCount := by
  have hflag : w.g.flagFinish = false := by
    by_contra hne
    exact absurd (h.finishes (.inl (by simpa using hne))) (by simp [hfin])
  have hstatus : status.isError = false := by
    by_contra hne
    exact absurd (h.finishes (.inr (by simpa using hne))) (by simp [hfin])
  refine ⟨hflag, hstatus, fun he => ?_⟩
  exact absurd ((h.decides hflag hstatus).2 (.inr (.inl he))) (by simp [hfin])

theorem Completes.sent (h : Completes w w' k status now now') (hw : Accounted w) :
    w'.g.ioCountSent = if w'.g.flagFinish then w.g.ioCountSent else w.g.ioCountSent + 1 := by
  have hsent : w'.g.ioCountSent =
      if w'.g.flagFinish then w.g.ioCountSent else u64 (w.g.ioCountSent + 1) :=
    congrArg Control.ioCountSent h.control
  rw [hsent]
  split_ifs with hfin
  · rfl
  · obtain ⟨-, -, hne⟩ := h.queued (by simpa using hfin)
    have := hw.le
    have := hw.bound
    exact u64_of_lt (by omega)

theorem Completes.accounted (h : Completes w w' k status now now') (hk : k ∈ w.inFlight)
    {n : Nat} (hpc : w'.pc = .polling n) (hw : Accounted w) : Accounted w' := by
  obtain ⟨hqdepth, hcount, hdue, hseq⟩ := Worker.limits_eq h.settings
  have hperm := h.contexts_perm hk
  have hsent := h.sent hw
  have hcplt : w'.g.ioCountCplt = w.g.ioCountCplt + 1 := by
    have hu : w'.g.ioCountCplt = u64 (w.g.ioCountCplt + 1) := congrArg Control.ioCountCplt h.control
    have hpos : 0 < w.contexts.length :=
      List.length_pos_of_mem (List.mem_append_left _ (List.mem_append_right _ hk))
    have := hw.count
    have := hw.le
    have := hw.bound
    rw [hu, u64_of_lt (by omega)]
  constructor
  case count =>
    have hlen := hperm.length_eq
    have := hw.count
    rw [hsent, hcplt]
    split_ifs at hlen ⊢
    · rw [List.length_cons] at hlen
      omega
    · omega
  case completed => rw [hcplt, h.completions, hw.completed, List.length_append]; rfl
  case nodup =>
    have hnd := hperm.nodup_iff.1 hw.nodup
    split_ifs at hnd
    · exact hnd.of_cons
    · exact hnd
  case lt =>
    intro i hi
    rw [hqdepth]
    refine hw.lt i (hperm.mem_iff.2 ?_)
    split_ifs
    · exact List.mem_cons_of_mem _ hi
    · exact hi
  case le =>
    rw [hsent, hcount]
    have := hw.le
    split_ifs with hfin
    · exact this
    · obtain ⟨-, -, hne⟩ := h.queued (by simpa using hfin)
      omega
  case bound => rw [hcount]; exact hw.bound
  case head => simp [hpc]
  case exited => simp [hpc]
  case counted => simp [hpc]
  case error =>
    rw [h.error, h.completions]
    exact firstError_append ⟨k, status, now, now'⟩ hw.error
  case failed =>
    rw [h.lost]
    exact fun hne => h.finishes (.inl (hw.failed hne))
  case finish =>
    rw [h.lost, hseq, h.completions, hdue, hcount]
    intro hfin hnone hlost hall
    rw [hsent, if_pos hfin]
    obtain ⟨hall, hlast⟩ := List.forall_mem_append.1 hall
    obtain ⟨hstatus, hnow⟩ := hlast _ (List.mem_singleton_self _)
    cases hflag : w.g.flagFinish with
    | true => exact hw.finish hflag hnone hlost hall
    | false =>
      -- The flag is set by this very callback, for the count.
      rcases (h.decides hflag hstatus).1 hfin with ⟨seq, hmem, -⟩ | he | ⟨-, hgt⟩
      · simp [hnone] at hmem
      · exact he
      · exact absurd (hgt.symm.trans hnow) (by decide)

theorem MovesOn.accounted (h : MovesOn w w' e) (hw : Accounted w) : Accounted w' := by
  obtain ⟨hqdepth, hcount, hdue, hseq⟩ := Worker.limits_eq h.settings
  have hsent : w'.g.ioCountSent = w.g.ioCountSent := congrArg Control.ioCountSent h.control
  have hcplt : w'.g.ioCountCplt = w.g.ioCountCplt := congrArg Control.ioCountCplt h.control
  have hflag : w'.g.flagFinish = w.g.flagFinish := congrArg Control.flagFinish h.control
  have hpending : w'.g.pendingIoList = w.g.pendingIoList := congrArg Control.pendingIoList h.control
  have hctx : w'.contexts = w.contexts := by
    rw [Worker.contexts, Worker.contexts, hpending, h.inFlight, h.lost]
  constructor
  case count => rw [hsent, hcplt, hctx, hw.count]
  case completed => rw [hcplt, h.completions, hw.completed]
  case nodup => rw [hctx]; exact hw.nodup
  case lt => rw [hctx, hqdepth]; exact hw.lt
  case le => rw [hsent, hcount]; exact hw.le
  case bound => rw [hcount]; exact hw.bound
  case head => rw [hpending]; exact h.headIo
  case exited =>
    intro hpc
    rcases h.exited 0 hpc with hne | ⟨-, hhead, hstop⟩
    · exact absurd rfl hne
    · rw [Worker.Continues] at hstop
      push Not at hstop
      obtain ⟨heq, hfin, -⟩ := hstop
      have := hw.count
      rw [hflag, hctx]
      exact ⟨hfin, List.length_eq_zero_iff.1 (by omega)⟩
  case counted =>
    intro hpc
    rcases h.aborted _ hpc with h | ⟨⟨h, -⟩ | ⟨h, -⟩, -⟩ | ⟨-, hlt⟩ |
      ⟨_, _, _, _, _, _, _, -, -, -, h⟩
    · cases h
    · cases h
    · cases h
    · exact absurd hw.le (by omega)
    · exact (ioworkerSendOnePrepare_error_ne h).1 rfl
  case error => rw [h.error, h.completions, hw.error]
  case failed => rw [hflag, h.lost]; exact hw.failed
  case finish =>
    rw [hflag, h.lost, hseq, h.completions, hdue, hsent, hcount]
    exact hw.finish

/-! ### The start -/

/-- The number of IOs to send: `io_count`, where 0 is no limit. -/
def Args.limit (args : Args) : Nat := if args.ioCount = 0 then 2 ^ 64 - 1 else args.ioCount

theorem Worker.limits_of_settings (h : w.settings = ioworkerSettings env args) :
    w.args.ioCount = args.limit ∧ w.args.qdepth = min args.limit (args.qdepth - 1) ∧
      w.g.ioSequence = args.ioSequence := by
  obtain ⟨m, hm⟩ := ioworkerSizeArgs_eq env args
  rw [ioworkerSettings, hm] at h
  obtain ⟨hqdepth, hcount, -, hseq⟩ := Worker.limits_eq h
  refine ⟨hcount, hqdepth.trans ?_, hseq⟩
  simp only [ioworkerInit, ioworkerReviseArgs, Args.limit]
  split_ifs <;> omega

theorem Starts.accounted (hargs : args.Valid) (h : Starts env args w) : Accounted w := by
  obtain ⟨hcount, hqdepth, -⟩ := Worker.limits_of_settings h.settings
  have hle := batchCount_le args.ioSequence w.args.qdepth
  have hsent : w.g.ioCountSent = batchCount args.ioSequence w.args.qdepth :=
    congrArg Control.ioCountSent h.control
  have hcplt : w.g.ioCountCplt = 0 := congrArg Control.ioCountCplt h.control
  have hflag : w.g.flagFinish = false := congrArg Control.flagFinish h.control
  have hctx : w.contexts = List.range (batchCount args.ioSequence w.args.qdepth) := by
    have hpending : w.g.pendingIoList = List.range (batchCount args.ioSequence w.args.qdepth) :=
      congrArg Control.pendingIoList h.control
    rw [Worker.contexts, hpending, h.inFlight, h.lost, List.append_nil, List.append_nil]
  constructor
  case count => rw [hsent, hcplt, hctx, List.length_range, Nat.zero_add]
  case completed => rw [hcplt, h.completions]; rfl
  case nodup => rw [hctx]; exact List.nodup_range
  case lt =>
    rw [hctx]
    intro i hi
    have := List.mem_range.1 hi
    omega
  case le => omega
  case bound =>
    have := hargs.ioCount
    rw [hcount, Args.limit]
    split_ifs <;> omega
  case head => exact fun _ => h.headIo
  case exited => simp [h.pc]
  case counted => simp [h.pc]
  case error => rw [h.error, h.completions]; rfl
  case failed => simp [h.lost]
  case finish => simp [hflag]

/-! ### Runs -/

/-- The accounting holds in every state of every run, with the limits the arguments
    give. -/
theorem accounted_of_reachable (hargs : args.Valid) {P : Worker → IowEvent → Prop}
    (h : (ioworkerMachine env args).Reachable P w) : Refuses w ∨ (Accounted w ∧
      w.args.ioCount = args.limit ∧ w.args.qdepth = min args.limit (args.qdepth - 1) ∧
      w.g.ioSequence = args.ioSequence) := by
  rcases settings_of_reachable hargs.qdepth_lt h with hr | hset
  · exact .inl hr
  have hor : Refuses w ∨ Accounted w := by
    refine ioworker_invariant hargs.qdepth_lt h (fun w => Starts.accounted hargs) ?_ ?_ ?_
    · exact fun w w' k now table d p rc timeSent after hw _ hs => hs.accounted hw
    · exact fun w w' k status now now' n hw _ hk _ hpc hc => hc.accounted hk hpc hw
    · exact fun w w' e hw _ hm => hm.accounted hw
  exact hor.imp_right fun ha => ⟨ha, Worker.limits_of_settings hset⟩

/-- The finish flag stays, and nothing is sent after it is set. -/
theorem ioworkerStep_finished (h : ioworkerStep w e = some w') (hfin : w.g.flagFinish = true) :
    w'.g.flagFinish = true ∧ w'.g.ioCountSent = w.g.ioCountSent := by
  rcases ioworkerStep_cases h with ⟨_, _, _, _, _, _, _, _, -, hs⟩ |
    ⟨_, _, _, _, _, -, -, -, -, hc⟩ | hm
  · have hflag := congrArg Control.flagFinish hs.control
    refine ⟨?_, congrArg Control.ioCountSent hs.control⟩
    simpa [Gctx.control, hfin] using hflag
  · have hflag := hc.finishes (.inl hfin)
    refine ⟨hflag, ?_⟩
    have hsent := congrArg Control.ioCountSent hc.control
    simpa [Gctx.control, hflag] using hsent
  · exact ⟨(congrArg Control.flagFinish hm.control).trans hfin,
      congrArg Control.ioCountSent hm.control⟩

theorem finished_of_later {P : Worker → IowEvent → Prop}
    (hl : (ioworkerMachine env args).Later P w w') (hfin : w.g.flagFinish = true) :
    w'.g.flagFinish = true ∧ w'.g.ioCountSent = w.g.ioCountSent := by
  refine hl.relates (I := fun _ => True) (R := fun w w' => w.g.flagFinish = true →
    w'.g.flagFinish = true ∧ w'.g.ioCountSent = w.g.ioCountSent) trivial ?_ ?_ ?_ hfin
  · exact fun _ h => ⟨h, rfl⟩
  · intro w₁ w₂ w₃ h₁₂ h₂₃ h
    obtain ⟨h₂, hs₂⟩ := h₁₂ h
    obtain ⟨h₃, hs₃⟩ := h₂₃ h₂
    exact ⟨h₃, hs₃.trans hs₂⟩
  · exact fun w e w' _ _ hs => ⟨trivial, ioworkerStep_finished hs⟩

/-- The rule that every submission succeeds. -/
def Submits (_ : Worker) : IowEvent → Prop
  | .send _ _ _ rc _ _ => rc = 0
  | _ => True

theorem lost_of_submits (hargs : args.Valid) (h : (ioworkerMachine env args).Reachable Submits w) :
    w.lost = [] := by
  have hor : Refuses w ∨ w.lost = [] := by
    refine ioworker_invariant hargs.qdepth_lt h (fun w hw => hw.lost) ?_ ?_ ?_
    · intro w w' k now table d p rc timeSent after hw hP hs
      obtain rfl : rc = 0 := hP
      rw [hs.lost, if_neg (not_not.2 rfl), hw]
    · exact fun w w' k status now now' n hw _ _ _ _ hc => hc.lost.trans hw
    · exact fun w w' e hw _ hm => hm.lost.trans hw
  exact hor.elim Refuses.lost id

/-- The accounting of an ioworker whose submissions all succeed. In every state of
    its loop, the IOs sent are those completed, queued and in flight; no context is
    in two places; no more IOs are sent than asked for; the finish flag stays, and
    ends the sending; the error is that of the first failing completion. A normal
    exit leaves nothing queued or in flight, and without a sequence, an error or the
    end of the time all IOs asked for were completed. -/
theorem ioworker_accounting (hargs : args.Admitted)
    (h : (ioworkerMachine env args).Reachable Submits w) :
    w.g.ioCountSent = w.g.ioCountCplt + w.g.pendingIoList.length + w.inFlight.length ∧
    (w.g.pendingIoList ++ w.inFlight).Nodup ∧
    (∀ i ∈ w.g.pendingIoList ++ w.inFlight, i < args.qdepth - 1) ∧
    w.g.ioCountSent ≤ args.limit ∧ w.pc ≠ .aborted .isFinish ∧
    (w.g.flagFinish = true → ∀ w', (ioworkerMachine env args).Later Submits w w' →
      w'.g.flagFinish = true ∧ w'.g.ioCountSent = w.g.ioCountSent) ∧
    ((∀ ret, w.pc ≠ .refused ret) → w.rets.error = firstError w.completions) ∧
    (w.pc = .exited 0 → w.g.pendingIoList = [] ∧ w.inFlight = [] ∧
      (args.ioSequence = none →
        (∀ c ∈ w.completions, c.status.isError = false ∧ c.now'.gt w.g.dueTime = false) →
        w.g.ioCountCplt = args.limit ∧ w.completions.length = args.limit)) := by
  have hv := hargs.valid
  rcases accounted_of_reachable hv h with hr | ⟨hw, hcount, hqdepth, hseq⟩
  · have hpc : w.pc ≠ .exited 0 ∧ w.pc ≠ .aborted .isFinish := by
      rcases hr.pc with ⟨_, hpc⟩ | hpc | hpc <;> simp [hpc]
    refine ⟨?_, ?_, ?_, ?_, hpc.2, fun hfin w' hl => finished_of_later hl hfin, ?_,
      fun h => absurd h hpc.1⟩
    · rw [hr.sent, hr.cplt, hr.pending, hr.inFlight]
      rfl
    · rw [hr.pending, hr.inFlight]
      exact List.nodup_nil
    · simp [hr.pending, hr.inFlight]
    · simp [hr.sent]
    · rw [hr.completions]
      exact hr.error
  · have hlost := lost_of_submits hv h
    have hctx : w.contexts = w.g.pendingIoList ++ w.inFlight := by
      rw [Worker.contexts, hlost, List.append_nil]
    refine ⟨?_, hctx ▸ hw.nodup, ?_, hcount ▸ hw.le, hw.counted,
      fun hfin w' hl => finished_of_later hl hfin, fun _ => hw.error, ?_⟩
    · rw [hw.count, hctx, List.length_append, Nat.add_assoc]
    · rw [← hctx]
      intro i hi
      have := hw.lt i hi
      omega
    · intro hpc
      obtain ⟨hfin, hnil⟩ := hw.exited hpc
      rw [hctx, List.append_eq_nil_iff] at hnil
      refine ⟨hnil.1, hnil.2, fun hnone hall => ?_⟩
      have hall := hw.finish hfin (hseq.trans hnone) hlost hall
      have hcplt : w.g.ioCountCplt = args.limit := by
        rw [← hcount, ← hall, hw.count, hctx, hnil.1, hnil.2]
        rfl
      exact ⟨hcplt, hw.completed.symm.trans hcplt⟩

/-! ### A worker that reads once -/

/-- The parameters of a worker that sends one IO, a read. -/
def readOnce : PyArgs := { lbaRandom := .bool false, qdepth := 2, ioCount := 1 }

/-- Its arguments. -/
def readOnceArgs : Args where
  lbaStart := 0
  lbaSizeMax := 8
  lbaAlignMax := 1
  lbaSizeRatioSum := 1
  lbaSizeList := [⟨8, 1, 1⟩]
  regionStart := 0
  regionEnd := 2 ^ 64 - 1
  lbaRandom := 0
  lbaStep := 0
  lbaStepValid := false
  iops := 0
  ioCount := 1
  seconds := 1000 * 3600
  qdepth := 2
  pvalue := 100
  ptype := 0xbeef
  ioSequence := none
  ioCounterPerSecond := none
  ioCounterPerLatency := none
  distribution := none
  cmdlogList := []
  opList := [(2, 100), (1, 0)]

theorem readOnceArgs_admitted : readOnceArgs.Admitted := ⟨1, readOnce, _, rfl, rfl⟩

/-- A namespace of `nsze` sectors, with no CRC table. -/
def plainNs (nsze : Nat) : Ns where
  numSectors := u64 nsze
  sectorSize := 512
  crcTable := none
  tableSize := 0
  numSectors_lt := u64_lt nsze
  sectorSize_lt := by decide
  tableSize_lt := by decide
  four_dvd_tableSize := by decide

/-- A worker on such a namespace, started at the time of one second. -/
def plainEnv (nsze : Nat) : Env where
  ns := plainNs nsze
  maxXferSize := 4096
  testStart := ⟨1, 0⟩
  sequenceStart := ⟨1, 0⟩
  batchTime _ := ⟨1, 0⟩
  poolAllocated := true

/-- An iteration of the loop at the time of `t` seconds: the submission returns `rc`,
    and the contexts `ks` complete with success. -/
def iteration (t : Int) (d : Draws) (rc : Int) (ks : List Nat) : List IowEvent :=
  [.send ⟨t, 0⟩ (fun _ => 0#32) d rc ⟨t, 0⟩ ⟨t, 0⟩, .check false, .poll ⟨t, 0⟩] ++
    ks.map (.complete · .success ⟨t, 0⟩ ⟨t, 0⟩) ++ [.next ⟨t, 0⟩]

/-- The read is sent, and completes. -/
theorem ioworker_accounting_read :
    ∃ w, (ioworkerMachine (plainEnv 8) readOnceArgs).Reachable Submits w ∧
      w.pc = .exited 0 ∧ w.inFlight = [] ∧ w.completions.length = 1 := by
  have hstart : (ioworkerMachine (plainEnv 8) readOnceArgs).Reachable Submits _ :=
    .init rfl
  obtain ⟨w, hw, hf⟩ := hstart.exists_run (f := fun w => (w.pc, w.completions, w.g.dueTime))
    (t := (.exited 0, [⟨0, .success, ⟨2, 0⟩, ⟨2, 0⟩⟩], ⟨3600001, 0⟩))
    (iteration 2 ⟨0, 0, 0, 0, 0⟩ 0 [0] ++ [.leave])
    (Machine.admits_of_forall (by simp [iteration, Submits]) _) rfl
  simp only [Prod.mk.injEq] at hf
  obtain ⟨hpc, hcompletions, hdue⟩ := hf
  obtain ⟨-, -, -, -, -, -, -, hexit⟩ := ioworker_accounting readOnceArgs_admitted hw
  obtain ⟨-, hflight, hall⟩ := hexit hpc
  refine ⟨w, hw, hpc, hflight, (hall rfl ?_).2⟩
  rw [hcompletions, hdue]
  decide

/-! ### Failed submissions -/

theorem lost_iff_of_reachable (hargs : args.Valid) {P : Worker → IowEvent → Prop}
    (h : (ioworkerMachine env args).Reachable P w) :
    w.lost = [] ↔ ∀ x ∈ w.issued, x.2 = 0 := by
  have hor : Refuses w ∨ (w.lost = [] ↔ ∀ x ∈ w.issued, x.2 = 0) := by
    refine ioworker_invariant (I := fun w => w.lost = [] ↔ ∀ x ∈ w.issued, x.2 = 0)
      hargs.qdepth_lt h ?_ ?_ ?_ ?_
    · intro w hw
      simp [hw.lost, hw.issued]
    · intro w w' k now table d p rc timeSent after hw _ hs
      rw [hs.lost, hs.issued, List.forall_mem_append, List.forall_mem_singleton]
      by_cases hrc : rc = 0
      · rw [if_neg (not_not.2 hrc), hw, and_iff_left hrc]
      · simp [hrc]
    · intro w w' k status now now' n hw _ _ _ _ hc
      rw [hc.lost, hc.issued, hw]
    · intro w w' e hw _ hm
      rw [hm.lost, hm.issued, hw]
  refine hor.elim (fun hr => ?_) id
  simp [hr.lost, hr.issued]

/-- In a state at the head of the loop with the finish flag set, nothing queued and
    nothing in flight, the loop ends if and only if no submission has failed; and a
    worker one of whose submissions failed does not return success. -/
theorem ioworker_continues_iff (hargs : args.Admitted)
    (h : (ioworkerMachine env args).Reachable (fun _ _ => True) w) :
    (w.pc = .head → w.g.flagFinish = true → w.g.pendingIoList = [] → w.inFlight = [] →
      (¬w.Continues ↔ ∀ x ∈ w.issued, x.2 = 0)) ∧
    (∀ ret, w.pc = .exited ret → (∃ x ∈ w.issued, x.2 ≠ 0) → ret ≠ 0 ∨ w.rets.error ≠ 0) := by
  have hv := hargs.valid
  have hlost := lost_iff_of_reachable hv h
  rcases accounted_of_reachable hv h with hr | ⟨hw, -⟩
  · have hpc : ∀ ret, w.pc ≠ .head ∧ w.pc ≠ .exited ret := by
      intro ret
      rcases hr.pc with ⟨_, hpc⟩ | hpc | hpc <;> simp [hpc]
    exact ⟨fun h => absurd h (hpc 0).1, fun ret h => absurd h (hpc ret).2⟩
  · refine ⟨fun hpc hfin hpending hflight => ?_, fun ret hpc hfailed => .inl ?_⟩
    · have hhead : w.headIo = none := by
        rw [hw.head hpc, hpending]
        rfl
      have hctx : w.contexts = w.lost := by
        rw [Worker.contexts, hpending, hflight]
        rfl
      have hcount := hw.count
      rw [← hlost, ← List.length_eq_zero_iff, Worker.Continues, hfin, hhead]
      rw [hctx] at hcount
      simp only [ne_eq, not_true, or_false, not_not]
      omega
    · rintro rfl
      obtain ⟨x, hx, hne⟩ := hfailed
      obtain ⟨-, hnil⟩ := hw.exited hpc
      rw [Worker.contexts, List.append_eq_nil_iff] at hnil
      exact hne (hlost.1 hnil.2 x hx)

/-- The submission of the read fails: nothing is left to do, and the loop goes on. -/
theorem ioworker_continues_failed :
    ∃ w, (ioworkerMachine (plainEnv 8) readOnceArgs).Reachable (fun _ _ => True) w ∧
      w.pc = .head ∧ w.g.flagFinish = true ∧ w.g.pendingIoList = [] ∧ w.inFlight = [] ∧
      w.Continues := by
  have hstart : (ioworkerMachine (plainEnv 8) readOnceArgs).Reachable
      (fun _ _ => True) _ := .init rfl
  obtain ⟨w, hw, hf⟩ := hstart.exists_run
    (f := fun w => (w.pc, w.g.flagFinish, w.g.pendingIoList, w.inFlight, w.g.ioCountSent,
      w.g.ioCountCplt))
    (t := (.head, true, [], [], 1, 0))
    (iteration 2 ⟨0, 0, 0, 0, 0⟩ (-1) []) (Machine.admits_of_forall (by simp) _) rfl
  simp only [Prod.mk.injEq] at hf
  obtain ⟨hpc, hfin, hpending, hflight, hsent, hcplt⟩ := hf
  exact ⟨w, hw, hpc, hfin, hpending, hflight, .inl (by omega)⟩

/-- After a read that succeeds the loop ends. -/
theorem ioworker_continues_iff_read :
    ∃ w, (ioworkerMachine (plainEnv 8) readOnceArgs).Reachable (fun _ _ => True) w ∧
      w.pc = .head ∧ ¬w.Continues := by
  have hstart : (ioworkerMachine (plainEnv 8) readOnceArgs).Reachable
      (fun _ _ => True) _ := .init rfl
  obtain ⟨w, hw, hf⟩ := hstart.exists_run
    (f := fun w => (w.pc, w.g.flagFinish, w.g.pendingIoList, w.inFlight, w.issued.map Prod.snd))
    (t := (.head, true, [], [], [0]))
    (iteration 2 ⟨0, 0, 0, 0, 0⟩ 0 [0]) (Machine.admits_of_forall (by simp) _) rfl
  simp only [Prod.mk.injEq] at hf
  obtain ⟨hpc, hfin, hpending, hflight, hissued⟩ := hf
  obtain ⟨hcontinues, -⟩ := ioworker_continues_iff readOnceArgs_admitted hw
  refine ⟨w, hw, hpc, (hcontinues hpc hfin hpending hflight).2 ?_⟩
  intro x hx
  have hmem : x.2 ∈ w.issued.map Prod.snd := List.mem_map_of_mem hx
  rw [hissued] at hmem
  exact List.mem_singleton.1 hmem

end Pynvme
