import Pynvme.Ioworker.Stats
import Pynvme.Ioworker.Accounting
import Pynvme.Lib.Schedule
import Mathlib.Algebra.Order.Field.Rat
import Mathlib.Algebra.Order.Field.Basic

/-!
# The throttle of an ioworker

With the parameter `iops`, the IOs of a worker are scheduled at times that are apart by
the delay `1000000 / iops` of whole microseconds: each context that is queued gets the
next due time, in the first batch and in the callbacks.

By a time of `t` microseconds after the start, no more than `iops * t / 1000000` IOs
should be scheduled, and a queue of them. The delay is rounded down, so that the rate
is too high unless `iops` divides `1000000`: `throttle_iff` tells how many IOs it takes
to exceed the bound.
-/

namespace Pynvme

open Word

/-! ### The schedule -/

/-- The time for which a context that was just queued is scheduled. In a worker with a delay, this
    is its `timeSent`. In a free run, `timeSent` is only the time when the context is queued first,
    or was last sent; the time here is the due time, which then stays at the start. -/
def Worker.scheduled (w : Worker) (k : Nat) : Timeval :=
  if w.g.ioDelayTime.usec ≠ 0 then (w.ioCtx k).timeSent else w.g.ioDueTime

/-- The schedule after a step: a callback may queue its context. -/
def recordScheduled (sched : List Timeval) (w : Worker) (e : IowEvent) (w' : Worker) :
    List Timeval :=
  match e with
  | .complete k _ _ _ =>
    if w.g.pendingIoList.length < w'.g.pendingIoList.length then sched ++ [w'.scheduled k]
    else sched
  | _ => sched

/-- The machine of an ioworker with its schedule, that of the first batch at the start. -/
def ioworkerThrottle (env : Env) (args : Args) : Machine (Worker × List Timeval) IowEvent :=
  (ioworkerMachine env args).withHistory
    ((ioworkerStart env args).g.pendingIoList.map (ioworkerStart env args).scheduled)
    recordScheduled

variable {env : Env} {args : Args} {w w' : Worker} {e : IowEvent} {sched : List Timeval} {k : Nat}
  {status : Status} {now now' : Timeval}

/-! ### The due time -/

/-- The due time and the delay. -/
def Gctx.throttle (g : Gctx) : Timeval × Timeval := (g.ioDueTime, g.ioDelayTime)

theorem ioworkerUpdateIoCountPerSecond_throttle {args args' : Args} {rets : Rets} {g g' : Gctx}
    (h : ioworkerUpdateIoCountPerSecond args rets g now = (args', g')) :
    g'.throttle = g.throttle := by
  rw [ioworkerUpdateIoCountPerSecond] at h
  split at h
  · cases h
    rfl
  · split_ifs at h <;> cases h <;> rfl

theorem ioworkerLogCmd_throttle {args args' : Args} {g g' : Gctx} {cmd : Cmdlog}
    (h : ioworkerLogCmd args g cmd = (args', g')) : g'.throttle = g.throttle := by
  simp only [ioworkerLogCmd] at h
  split_ifs at h <;> cases h <;> rfl

/-- Without a sequence, the due time moves on by the delay. -/
theorem ioworkerNextIo_throttle {g g' : Gctx} {ctx ctx' : IoCtx}
    (h : ioworkerNextIo g ctx = (g', ctx')) (hseq : g.ioSequence = none)
    (hsec : g.ioDelayTime.sec = 0) :
    g'.ioDelayTime = g.ioDelayTime ∧ g'.ioDueTime.us = g.ioDueTime.us + g.ioDelayTime.usec ∧
      (g.ioDelayTime.usec ≠ 0 → ctx'.timeSent = g'.ioDueTime) := by
  simp only [ioworkerNextIo, hseq] at h
  split_ifs at h with hdelay
  · cases h
    refine ⟨rfl, ?_, fun _ => rfl⟩
    rw [Timeval.add_us]
    simp only [Timeval.us, hsec]
    omega
  · cases h
    exact ⟨rfl, by omega, fun h => absurd h hdelay⟩

theorem ioworkerCountOne_throttle (hseq : w.g.ioSequence = none)
    (hsec : w.g.ioDelayTime.sec = 0) (k : Nat) (status : Status) (now : Timeval) :
    (ioworkerCountOne w k status now).g.ioDelayTime = w.g.ioDelayTime ∧
      (ioworkerCountOne w k status now).g.ioDueTime.us =
        w.g.ioDueTime.us + w.g.ioDelayTime.usec ∧
      (ioworkerCountOne w k status now).scheduled k =
        (ioworkerCountOne w k status now).g.ioDueTime := by
  simp only [ioworkerCountOne]
  generalize hn : ioworkerNextIo _ (w.ioCtx k) = p
  obtain ⟨g, ctx⟩ := p
  obtain ⟨hdelay, hdue, htime⟩ := ioworkerNextIo_throttle hn hseq hsec
  dsimp only at hdelay hdue htime ⊢
  generalize hs : ioworkerUpdateIoCountPerSecond _ _ g now = q
  obtain ⟨args, g'⟩ := q
  obtain ⟨hdue', hdelay'⟩ := Prod.mk.inj (ioworkerUpdateIoCountPerSecond_throttle hs)
  dsimp only
  refine ⟨hdelay'.trans hdelay, by rw [hdue', hdue], ?_⟩
  rw [Worker.scheduled]
  dsimp only
  split_ifs with hzero
  · rw [Function.update_self, hdue']
    exact htime (by rwa [hdelay', hdelay] at hzero)
  · rfl

/-- A callback moves the due time on by the delay, and that is the time of its context. -/
theorem ioworkerOneCb_throttle (hseq : w.g.ioSequence = none) (hsec : w.g.ioDelayTime.sec = 0)
    (h : ioworkerOneCb w k status now now' = .ok w') :
    w'.g.ioDelayTime = w.g.ioDelayTime ∧
      w'.g.ioDueTime.us = w.g.ioDueTime.us + w.g.ioDelayTime.usec ∧
      w'.scheduled k = w'.g.ioDueTime := by
  obtain ⟨hdelay, hdue, htime⟩ := ioworkerCountOne_throttle hseq hsec k status now
  obtain ⟨finish, -, hw⟩ := Except.bind_eq_ok.1 h
  obtain rfl := Except.pure_eq_ok.1 hw
  rw [ioworkerQueueOne]
  dsimp only
  generalize hl : ioworkerLogCmd _ _ _ = r
  obtain ⟨args, g⟩ := r
  obtain ⟨hdue', hdelay'⟩ := Prod.mk.inj (ioworkerLogCmd_throttle hl)
  dsimp only at hdue' hdelay' ⊢
  rw [Worker.scheduled] at htime ⊢
  dsimp only
  rw [hdelay', hdue']
  exact ⟨hdelay, hdue, htime⟩

/-! ### The runs -/

/-- The delay of a worker, in microseconds. -/
def Args.delayUs (args : Args) : Nat := 1000000 / args.iops

/-- The schedule of a worker is that of the delay, and until it is finished the due time is the
    last one of it. -/
structure Throttled (env : Env) (args : Args) (w : Worker) (sched : List Timeval) : Prop where
  sequence : w.g.ioSequence = none
  delay : w.g.ioDelayTime = ⟨0, args.delayUs⟩
  spaced : Schedule.Spaced env.testStart.us args.delayUs (sched.map Timeval.us)
  due : w.g.flagFinish = false →
    w.g.ioDueTime.us = env.testStart.us + sched.length * args.delayUs

/-- The first batch. -/
structure BatchThrottled (env : Env) (args : Args) (i : Nat) (w : Worker) : Prop where
  sequence : w.g.ioSequence = none
  delay : w.g.ioDelayTime = ⟨0, args.delayUs⟩
  pending : w.g.pendingIoList = List.range i
  due : w.g.ioDueTime.us = env.testStart.us + i * args.delayUs
  scheduled : ∀ j < i, (w.scheduled j).us = env.testStart.us + (j + 1) * args.delayUs

theorem ioworkerBatchOne_throttled {i : Nat} (h : BatchThrottled env args i w) :
    BatchThrottled env args (i + 1) (ioworkerBatchOne i w) := by
  have hmore : ¬∃ seq ∈ w.g.ioSequence, seq.length ≤ w.g.ioSequenceIndex := by simp [h.sequence]
  rw [ioworkerBatchOne]
  dsimp only
  rw [if_neg hmore]
  generalize hn : ioworkerNextIo w.g _ = r
  obtain ⟨g, ctx⟩ := r
  obtain ⟨hdelay, hdue, htime⟩ := ioworkerNextIo_throttle hn h.sequence (by rw [h.delay])
  have hcontrol := (ioworkerNextIo_spec hn).1
  have hpending : g.pendingIoList = w.g.pendingIoList := congrArg Control.pendingIoList hcontrol
  have hseq : g.ioSequence = w.g.ioSequence := congrArg Control.ioSequence hcontrol
  rw [h.delay] at hdelay hdue htime
  dsimp only at hdue htime
  have hdue' : g.ioDueTime.us = env.testStart.us + (i + 1 : Nat) * args.delayUs := by
    rw [hdue, h.due]
    push_cast
    rw [Int.add_mul, Int.one_mul, Int.add_assoc]
  constructor
  case sequence => exact hseq.trans h.sequence
  case delay => exact hdelay
  case pending => rw [hpending, h.pending, List.range_succ]
  case due => exact hdue'
  case scheduled =>
    intro j hj
    rw [Worker.scheduled]
    dsimp only
    rw [hdelay]
    dsimp only
    split_ifs with hzero
    · rcases eq_or_ne j i with rfl | hne
      · rw [Function.update_self, htime hzero, hdue']
        push_cast
        rfl
      · have hold := h.scheduled j (by omega)
        rw [Worker.scheduled, h.delay, if_pos hzero] at hold
        rw [Function.update_of_ne hne, hold]
    · rw [hdue', not_not.1 hzero]
      simp

theorem ioworkerStart_throttled (env : Env) (hseq : args.ioSequence = none)
    (hiops : args.iops ≠ 0) : ∃ i, BatchThrottled env args i (ioworkerStart env args) := by
  refine ioworkerStart_induction (I := BatchThrottled env args) env args ?_ ?_ ?_
  · intro _ _ _ _ _ _ _ pc error _
    refine ⟨hseq, ?_, rfl, ?_, by simp⟩
    · simp [ioworkerInit, ioworkerInitGctx, Args.delayUs, hiops]
    · simp [ioworkerInit, ioworkerInitGctx]
  · exact fun i w hw => ioworkerBatchOne_throttled hw
  · exact fun i w headIo hw => ⟨hw.sequence, hw.delay, hw.pending, hw.due, hw.scheduled⟩

/-- What was queued is scheduled, at the start. -/
theorem BatchThrottled.throttled {i : Nat} (h : BatchThrottled env args i w) :
    Throttled env args w (w.g.pendingIoList.map w.scheduled) := by
  refine ⟨h.sequence, h.delay, fun j x hx => ?_, fun _ => ?_⟩
  · rw [h.pending, List.getElem?_map, List.getElem?_map, Option.map_map] at hx
    obtain ⟨j', hj', rfl⟩ := Option.map_eq_some_iff.1 hx
    obtain ⟨hlt, rfl⟩ := List.getElem?_eq_some_iff.1 hj'
    rw [List.length_range] at hlt
    rw [List.getElem_range]
    exact h.scheduled j hlt
  · rw [h.due, h.pending, List.length_map, List.length_range]

theorem ioworkerFinal_g (w : Worker) (ret : Int) : (ioworkerFinal w ret).g = w.g := by
  rw [ioworkerFinal]
  split_ifs
  · rfl
  · split
    · rfl
    · dsimp only
      split_ifs <;> rfl

/-- The steps that are no completions schedule nothing. -/
theorem Throttled.quiet (h : Throttled env args w sched) (hstep : ioworkerStep w e = some w')
    (he : ∀ k status now now', e ≠ .complete k status now now') : Throttled env args w' sched := by
  have hrun : w'.g.flagFinish = false → w.g.flagFinish = false := by
    intro hfin
    by_contra hne
    rw [(ioworkerStep_finished hstep (by simpa using hne)).1] at hfin
    cases hfin
  rcases ioworkerStep_frame hstep he with ⟨ret, rfl⟩ | ⟨-, -, ⟨lba, flag, pending, hg⟩, -⟩
  · have hg := ioworkerFinal_g w ret
    exact ⟨by rw [hg, h.sequence], by rw [hg, h.delay], h.spaced, by rw [hg]; exact h.due⟩
  · refine ⟨by rw [hg]; exact h.sequence, by rw [hg]; exact h.delay, h.spaced, fun hfin => ?_⟩
    have hdue : w'.g.ioDueTime = w.g.ioDueTime := by rw [hg]
    rw [hdue]
    exact h.due (hrun hfin)

/-- A callback schedules its context, unless the worker is finished. -/
theorem Throttled.complete (h : Throttled env args w sched)
    (hstep : ioworkerStep w (.complete k status now now') = some w') :
    Throttled env args w' (recordScheduled sched w (.complete k status now now') w') := by
  obtain ⟨n, -, -, ⟨why, -, rfl⟩ | ⟨w₁, hcb, rfl⟩⟩ := ioworkerStep_complete_eq hstep
  · rw [recordScheduled, if_neg (Nat.lt_irrefl _)]
    exact ⟨h.sequence, h.delay, h.spaced, h.due⟩
  · have hc := ioworkerOneCb_eq_ok hcb
    obtain ⟨hdelay, hdue, htime⟩ := ioworkerOneCb_throttle h.sequence (by rw [h.delay]) hcb
    have hseq : w₁.g.ioSequence = w.g.ioSequence := congrArg Control.ioSequence hc.control
    have hpending : w₁.g.pendingIoList =
        if w₁.g.flagFinish then w.g.pendingIoList else w.g.pendingIoList ++ [k] :=
      congrArg Control.pendingIoList hc.control
    rw [h.delay] at hdelay hdue
    rw [recordScheduled]
    dsimp only at hdue ⊢
    cases hfin : w₁.g.flagFinish with
    | false =>
      have hrun : w.g.flagFinish = false := by
        by_contra hne
        rw [hc.finishes (.inl (by simpa using hne))] at hfin
        cases hfin
      have hnext : w₁.g.ioDueTime.us = env.testStart.us + (sched.length + 1) * args.delayUs := by
        rw [hdue, h.due hrun, Int.add_mul, Int.one_mul, Int.add_assoc]
      rw [hpending, hfin, if_pos (by simp)]
      refine ⟨hseq.trans h.sequence, hdelay, ?_, fun _ => ?_⟩
      · rw [List.map_append]
        refine h.spaced.concat ?_
        rw [List.length_map, ← hnext]
        exact congrArg Timeval.us htime
      · rw [List.length_append, List.length_singleton]
        exact_mod_cast hnext
    | true =>
      rw [hpending, hfin, if_neg (by simp)]
      exact ⟨hseq.trans h.sequence, hdelay, h.spaced,
        fun hf => absurd (hfin.symm.trans hf) (by decide)⟩

theorem throttled_of_reachable (hseq : args.ioSequence = none) (hiops : args.iops ≠ 0)
    {P : Worker × List Timeval → IowEvent → Prop} {x : Worker × List Timeval}
    (h : (ioworkerThrottle env args).Reachable P x) : Throttled env args x.1 x.2 := by
  refine h.invariant (I := fun x => Throttled env args x.1 x.2) ?_ ?_
  · rintro ⟨w, sched⟩ ⟨rfl, rfl⟩
    obtain ⟨i, hi⟩ := ioworkerStart_throttled env hseq hiops
    exact hi.throttled
  · rintro ⟨w, sched⟩ e ⟨w', sched'⟩ hw - hs
    obtain ⟨hstep, rfl⟩ := Machine.withHistory_step.1 hs
    have hstep' : ioworkerStep w e = some w' := hstep
    cases e with
    | complete k status now now' => exact hw.complete hstep'
    | _ => exact hw.quiet hstep' (by simp)

/-! ### The rate -/

/-- By every time after the start, at most as many IOs are scheduled as the rate allows, and a
    queue of them. -/
def RateKept (env : Env) (args : Args) (sched : List Timeval) : Prop :=
  ∀ t : Nat, ((sched.countP fun x => x.us ≤ env.testStart.us + t : Nat) : ℚ) ≤
    (args.iops * t / 1000000 : ℚ) + args.qdepth

theorem rateKept_iff {sched : List Timeval} : RateKept env args sched ↔
    ∀ t, Schedule.due env.testStart.us (sched.map Timeval.us) t * 1000000 ≤
      args.iops * t + args.qdepth * 1000000 := by
  refine forall_congr' fun t => ?_
  rw [Schedule.due, List.countP_map, div_add' _ _ _ (by norm_num), le_div_iff₀ (by norm_num)]
  exact_mod_cast Iff.rfl

/-- In every state of every run of a throttled worker, the IOs that were scheduled so far keep
    the rate if and only if the microseconds that the delay lacks, for all of them, are not
    more than the time of a queue at that rate. -/
theorem throttle_iff (hargs : args.Admitted) (hiops : args.iops ≠ 0)
    {P : Worker × List Timeval → IowEvent → Prop}
    (h : (ioworkerThrottle env args).Reachable P (w, sched)) :
    RateKept env args sched ↔
      sched.length * (1000000 % args.iops) ≤ args.qdepth * 1000000 := by
  have hw : Throttled env args w sched :=
    throttled_of_reachable (hargs.ioSequence_eq_none hiops) hiops h
  rw [rateKept_iff, hw.spaced.rate_iff, List.length_map]

/-- The arguments of a worker that sends eight IOs at the rate `iops`. -/
def throttledArgs (iops : Nat) : Args := { readOnceArgs with ioCount := 8, iops := iops }

/-- A rate that divides a second is kept. -/
theorem throttle_kept :
    (throttledArgs 1000).Admitted ∧ ∃ w sched,
      (ioworkerThrottle (plainEnv 8) (throttledArgs 1000)).Reachable (fun _ _ => True) (w, sched) ∧
      sched = [⟨1, 1000⟩, ⟨1, 2000⟩] ∧ RateKept (plainEnv 8) (throttledArgs 1000) sched := by
  have hadmitted : (throttledArgs 1000).Admitted :=
    ⟨1, { readOnce with ioCount := 8, iops := 1000 }, _, rfl, rfl⟩
  have hinit : (ioworkerThrottle (plainEnv 8) (throttledArgs 1000)).Reachable (fun _ _ => True)
      (ioworkerStart (plainEnv 8) (throttledArgs 1000), [⟨1, 1000⟩]) := .init ⟨rfl, rfl⟩
  obtain ⟨⟨w, sched⟩, hx, hf⟩ := hinit.exists_run (f := Prod.snd) (t := [⟨1, 1000⟩, ⟨1, 2000⟩])
    (iteration 2 ⟨0, 0, 0, 0, 0⟩ 0 [0]) (Machine.admits_of_forall (by simp) _) rfl
  refine ⟨hadmitted, w, sched, hx, hf, (throttle_iff hadmitted (by decide) hx).2 ?_⟩
  exact Nat.zero_le _

/-- At 600000 IOs per second the delay is one microsecond: six IOs are due by 6 microseconds,
    in which the rate allows 3.6, and the queue 2. -/
theorem throttle_not_kept :
    (throttledArgs 600000).Admitted ∧ ∃ w sched,
      (ioworkerThrottle (plainEnv 8) (throttledArgs 600000)).Reachable (fun _ _ => True)
        (w, sched) ∧
      sched.length = 6 ∧ ¬RateKept (plainEnv 8) (throttledArgs 600000) sched := by
  refine ⟨⟨1, { readOnce with ioCount := 8, iops := 600000 }, _, rfl, rfl⟩, ?_⟩
  have hinit : (ioworkerThrottle (plainEnv 8) (throttledArgs 600000)).Reachable (fun _ _ => True)
      (ioworkerStart (plainEnv 8) (throttledArgs 600000), [⟨1, 1⟩]) := .init ⟨rfl, rfl⟩
  obtain ⟨⟨w, sched⟩, hx, hf⟩ := hinit.exists_run (f := Prod.snd)
    (t := [⟨1, 1⟩, ⟨1, 2⟩, ⟨1, 3⟩, ⟨1, 4⟩, ⟨1, 5⟩, ⟨1, 6⟩])
    ([2, 3, 4, 5, 6].flatMap fun t => iteration t ⟨0, 0, 0, 0, 0⟩ 0 [0])
    (Machine.admits_of_forall (by simp) _) rfl
  dsimp only at hf
  refine ⟨w, sched, hx, by rw [hf]; rfl, fun hkept => ?_⟩
  rw [hf, rateKept_iff] at hkept
  exact absurd (hkept 6) (by decide)

end Pynvme
