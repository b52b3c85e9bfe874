import Pynvme.Ioworker.History

/-!
# The CPU time of an ioworker

A worker adds up the time that it is busy: from the reading of the clock before an IO
is sent, or before completions are processed, to a reading after it
(`ioworker_add_cpu_time`). It reports the sum and the duration of the test, both in
milliseconds; the sum goes through `timeval_to_us`, which has 32 bits.

`cpu_time_iff`: the report is right exactly if the worker was busy for less than `2 ^ 32`
microseconds, a little more than an hour, and the duration fits, as that of the longest
test does.
-/

namespace Pynvme

open Word

/-! ### Busy intervals -/

/-- The interval that a step adds to the busy time: that of the sending of an IO, or of the
    processing of completions, if there was one. -/
def busyInterval (w : Worker) (e : IowEvent) (w' : Worker) : Option (Timeval × Timeval) :=
  match e with
  | .send now _ _ _ _ after =>
    if w.issued.length < w'.issued.length then some (now, after) else none
  | .next after => if w.pc = .polling 0 then none else some (w.now, after)
  | _ => none

/-- The machine of an ioworker with its busy intervals. -/
def ioworkerBusy (env : Env) (args : Args) :
    Machine (Worker × List (Timeval × Timeval)) IowEvent :=
  (ioworkerMachine env args).withHistory [] fun busy w e w' =>
    busy ++ (busyInterval w e w').toList

/-- The time of the intervals, in microseconds. -/
def busyTime (busy : List (Timeval × Timeval)) : Int := (busy.map fun i => i.2.us - i.1.us).sum

/-- The microseconds are at most a second, as `timeval_gettimeofday` gives them. -/
def Timeval.Reading (t : Timeval) : Prop := 0 ≤ t.usec ∧ t.usec ≤ 1000000

theorem Timeval.zero_reading : (⟨0, 0⟩ : Timeval).Reading := ⟨Int.le_refl 0, by decide⟩

/-- The rule that the clock is that of the driver, and does not go back within a busy
    interval. -/
def BusyForward (x : Worker × List (Timeval × Timeval)) (e : IowEvent) : Prop :=
  (∀ t ∈ e.readings, t.Reading) ∧
    match e with
    | .send now _ _ _ _ after => now.us ≤ after.us
    | .next after => x.1.now.us ≤ after.us
    | _ => True

/-! ### The steps -/

variable {env : Env} {args : Args} {w w' : Worker} {e : IowEvent}
  {busy : List (Timeval × Timeval)}

theorem ioworkerAddCpuTime_us (start now cpuTime : Timeval) :
    (ioworkerAddCpuTime start now cpuTime).us = cpuTime.us + (now.us - start.us) := by
  rw [ioworkerAddCpuTime, Timeval.add_us, Timeval.sub_us]
  omega

theorem busyTime_append (busy busy' : List (Timeval × Timeval)) :
    busyTime (busy ++ busy') = busyTime busy + busyTime busy' := by
  simp [busyTime]

/-- The results that a worker reports of the time. -/
def Worker.TimeReported (w : Worker) : Prop :=
  ∃ duration, ioworkerGetDuration w.env.testStart w.now = .ok duration ∧
    w.rets.mseconds = u32 (duration + 1) ∧ w.rets.cpuUsage = w.cpuTime.toUs / 1000

theorem ioworkerFinal_times (w : Worker) (ret : Int) :
    (ioworkerFinal w ret).cpuTime = w.cpuTime ∧
      ∀ ret', (ioworkerFinal w ret).pc = .exited ret' → (ioworkerFinal w ret).TimeReported := by
  rw [ioworkerFinal]
  split_ifs
  · exact ⟨rfl, by simp⟩
  · split
    · exact ⟨rfl, by simp⟩
    · rename_i duration hduration
      dsimp only
      split_ifs
      · exact ⟨rfl, by simp⟩
      · exact ⟨rfl, fun _ _ => ⟨duration, hduration, rfl, rfl⟩⟩

/-- A step adds its interval to the busy time. -/
theorem ioworkerStep_cpuTime (h : ioworkerStep w e = some w') :
    w'.cpuTime.us = w.cpuTime.us + busyTime (busyInterval w e w').toList := by
  cases e with
  | send now table d rc timeSent after =>
    obtain ⟨-, rfl | ⟨k, -, -, ⟨why, -, rfl⟩ | ⟨p, w₁, -, rfl, rfl⟩⟩⟩ := ioworkerStep_send_eq h
    · simp [busyInterval, busyTime]
    · simp [busyInterval, busyTime]
    · rw [ioworkerSendOne]
      dsimp only
      split_ifs <;> simp [busyInterval, busyTime, ioworkerAddCpuTime_us]
  | check terminate =>
    obtain ⟨-, ⟨why, -, rfl⟩ | ⟨ret, -, rfl⟩ | rfl⟩ := ioworkerStep_check_eq h
    · simp [busyInterval, busyTime]
    · simp [busyInterval, busyTime, (ioworkerFinal_times w ret).1]
    · simp [busyInterval, busyTime]
  | poll now =>
    obtain ⟨-, ⟨⟩⟩ := Option.ite_none_right_eq_some.1 h
    simp [busyInterval, busyTime]
  | complete k status now now' =>
    obtain ⟨n, -, -, ⟨why, -, rfl⟩ | ⟨w₁, hcb, rfl⟩⟩ := ioworkerStep_complete_eq h
    · simp [busyInterval, busyTime]
    · obtain ⟨finish, -, hw⟩ := Except.bind_eq_ok.1 hcb
      obtain rfl := Except.pure_eq_ok.1 hw
      simp [busyInterval, busyTime, ioworkerQueueOne, ioworkerCountOne]
  | next after =>
    obtain ⟨n, hn, rfl⟩ := ioworkerStep_next_eq h
    rcases Nat.eq_zero_or_pos n with rfl | hpos
    · simp [busyInterval, busyTime, hn]
    · simp [busyInterval, busyTime, hn, Nat.ne_of_gt hpos, ioworkerAddCpuTime_us]
  | leave =>
    obtain ⟨-, ⟨⟩⟩ := Option.ite_none_right_eq_some.1 h
    simp [busyInterval, busyTime, (ioworkerFinal_times w 0).1]

/-- A worker that has just left the loop has reported its times. -/
theorem ioworkerStep_timeReported {ret : Int} (h : ioworkerStep w e = some w')
    (hpc : w'.pc = .exited ret) : w'.TimeReported := by
  by_cases he : ∀ k status now now', e ≠ .complete k status now now'
  · rcases ioworkerStep_frame h he with ⟨ret', rfl⟩ | ⟨-, -, -, hrun⟩
    · exact (ioworkerFinal_times w ret').2 ret hpc
    · exact absurd hpc (hrun ret)
  · push Not at he
    obtain ⟨k, status, now, now', rfl⟩ := he
    exact absurd hpc ((ioworkerStep_complete_stats h).2.2 ret)

/-- The interval of a step is not negative. -/
theorem BusyForward.nonneg (h : BusyForward (w, busy) e) (w' : Worker) :
    0 ≤ busyTime (busyInterval w e w').toList := by
  obtain ⟨-, hforward⟩ := h
  cases e with
  | send now table d rc timeSent after =>
    rw [busyInterval]
    split_ifs
    · simp [busyTime, hforward]
    · simp [busyTime]
  | next after =>
    rw [busyInterval]
    split_ifs
    · simp [busyTime]
    · simp [busyTime, hforward]
  | _ => simp [busyInterval, busyTime]

/-! ### The runs -/

/-- The times of a worker with these busy intervals. -/
structure CpuTimed (env : Env) (w : Worker) (busy : List (Timeval × Timeval)) : Prop where
  cpuTime : w.cpuTime.us = busyTime busy
  nonneg : 0 ≤ busyTime busy
  env_eq : w.env = env
  now : w.now.Reading
  reported : ∀ ret, w.pc = .exited ret → w.TimeReported

theorem CpuTimed.toUs (h : CpuTimed env w busy) :
    w.cpuTime.toUs = (busyTime busy % 2 ^ 32).toNat := by
  rw [← h.cpuTime]
  rfl

theorem ioworkerStart_cpuTimed (env : Env) (args : Args) :
    CpuTimed env (ioworkerStart env args) [] := by
  refine (ioworkerStart_induction (I := fun _ w => CpuTimed env w []) env args ?_ ?_ ?_).elim
    fun _ h => h
  · exact fun _ _ _ _ _ _ _ _ _ hpc =>
      ⟨rfl, Int.le_refl 0, rfl, Timeval.zero_reading, fun ret h => absurd h (hpc ret)⟩
  · intro i w hw
    rw [ioworkerBatchOne]
    dsimp only
    split_ifs <;> exact ⟨hw.cpuTime, hw.nonneg, hw.env_eq, hw.now, hw.reported⟩
  · exact fun _ _ _ hw => ⟨hw.cpuTime, hw.nonneg, hw.env_eq, hw.now, hw.reported⟩

/-- The clock that the loop keeps is one of the readings of a step, or stays. -/
theorem ioworkerStep_now (h : ioworkerStep w e = some w') :
    w'.now = w.now ∨ w'.now ∈ e.readings := by
  rcases ioworkerStep_cases h with ⟨k, now, table, d, rc, timeSent, after, p, rfl, hs⟩ |
    ⟨k, status, now, now', n, rfl, -, -, -, hc⟩ | hm
  · exact .inr (by simp [IowEvent.readings, hs.clock])
  · exact .inl hc.clock
  · have hclock := hm.clock
    cases e <;> simp_all [IowEvent.clock, IowEvent.readings]

theorem cpuTimed_of_reachable {x : Worker × List (Timeval × Timeval)}
    (h : (ioworkerBusy env args).Reachable BusyForward x) : CpuTimed env x.1 x.2 := by
  refine h.invariant (I := fun x => CpuTimed env x.1 x.2) ?_ ?_
  · rintro ⟨w, busy⟩ ⟨rfl, rfl⟩
    exact ioworkerStart_cpuTimed env args
  · rintro ⟨w, busy⟩ e ⟨w', busy'⟩ hw hforward hs
    obtain ⟨hstep, rfl⟩ := Machine.withHistory_step.1 hs
    have hstep' : ioworkerStep w e = some w' := hstep
    have henv : w'.env = w.env := congrArg Settings.env (ioworkerStep_settings hstep')
    dsimp only at hw ⊢
    constructor
    case cpuTime => rw [ioworkerStep_cpuTime hstep', busyTime_append, hw.cpuTime]
    case nonneg =>
      rw [busyTime_append]
      exact Int.add_nonneg hw.nonneg (hforward.nonneg w')
    case env_eq => rw [henv, hw.env_eq]
    case now =>
      rcases ioworkerStep_now hstep' with hnow | hnow
      · rw [hnow]
        exact hw.now
      · exact hforward.1 _ hnow
    case reported => exact fun ret hpc => ioworkerStep_timeReported hstep' hpc

/-! ### The report -/

/-- The time that the test took, in microseconds. -/
def Worker.elapsedUs (w : Worker) : Int := w.now.us - w.env.testStart.us

/-- The duration in milliseconds, rounded to the nearest, and the rest of it modulo `2 ^ 32`. -/
theorem ioworkerGetDuration_eq {duration : Nat} (hstart : w.env.testStart.Reading)
    (hnow : w.now.Reading) (h : ioworkerGetDuration w.env.testStart w.now = .ok duration) :
    0 ≤ w.elapsedUs ∧ (duration : Int) = (w.elapsedUs + 500) / 1000 % 2 ^ 32 := by
  rw [ioworkerGetDuration] at h
  split_ifs at h with hgt
  obtain rfl := Except.ok.inj h
  have hsub := Timeval.sub_us w.now w.env.testStart
  -- The clock is later, so that nothing of the difference is negative.
  have hdiff : 0 ≤ (w.now.sub w.env.testStart).sec ∧ 0 ≤ (w.now.sub w.env.testStart).usec := by
    have := Timeval.gt_iff.1 hgt
    obtain ⟨hs, hs'⟩ := hstart
    obtain ⟨hn, hn'⟩ := hnow
    rw [Timeval.sub]
    split_ifs <;> dsimp only <;> omega
  rw [Worker.elapsedUs, ← hsub]
  generalize w.now.sub w.env.testStart = diff at hdiff
  simp only [Timeval.us, u32]
  omega

/-- The report of a worker with these busy intervals is right: the busy time in milliseconds,
    rounded down, and the duration in milliseconds, rounded to the nearest, plus 1; and nothing
    is lost in between. -/
structure Worker.TimesRight (w : Worker) (busy : List (Timeval × Timeval)) : Prop where
  cpuTime : (w.cpuTime.toUs : Int) = busyTime busy
  cpuUsage : (w.rets.cpuUsage : Int) = busyTime busy / 1000
  duration : ∃ duration, ioworkerGetDuration w.env.testStart w.now = .ok duration ∧
    (duration : Int) = (w.elapsedUs + 500) / 1000
  mseconds : (w.rets.mseconds : Int) = (w.elapsedUs + 500) / 1000 + 1

/-- A worker that has returned has reported the times right if and only if it was busy for less
    than `2 ^ 32` microseconds, and its duration has less than `2 ^ 32` milliseconds, as every
    one has up to 1000 hours and 30 seconds. -/
theorem cpu_time_iff {ret : Int} (hstart : env.testStart.Reading)
    (h : (ioworkerBusy env args).Reachable BusyForward (w, busy)) (hpc : w.pc = .exited ret) :
    w.TimesRight busy ↔ busyTime busy < 2 ^ 32 ∧ (w.elapsedUs + 500) / 1000 + 1 < 2 ^ 32 := by
  have hw : CpuTimed env w busy := cpuTimed_of_reachable h
  obtain ⟨duration, hduration, hmseconds, husage⟩ := hw.reported ret hpc
  obtain ⟨hpos, hvalue⟩ := ioworkerGetDuration_eq (hw.env_eq ▸ hstart) hw.now hduration
  have hnonneg := hw.nonneg
  rw [hw.toUs] at husage
  constructor
  · intro hright
    have hcpu := hright.cpuTime
    have hms := hright.mseconds
    rw [hw.toUs] at hcpu
    rw [hmseconds, u32] at hms
    omega
  · rintro ⟨hbusy, hlen⟩
    constructor
    case cpuTime =>
      rw [hw.toUs]
      omega
    case cpuUsage =>
      rw [husage]
      omega
    case duration => exact ⟨duration, hduration, by omega⟩
    case mseconds =>
      rw [hmseconds, u32]
      omega

/-! ### Busy for more than an hour -/

/-- The worker that reads once and has its busy intervals. -/
def readOnceBusy : Machine (Worker × List (Timeval × Timeval)) IowEvent :=
  ioworkerBusy (plainEnv 8) readOnceArgs

/-- The read is sent, which takes from 2 seconds to `t` seconds, and completes. -/
def busyRead (t : Int) : List IowEvent :=
  [.send ⟨2, 0⟩ (fun _ => 0#32) ⟨0, 0, 0, 0, 0⟩ 0 ⟨2, 0⟩ ⟨t, 0⟩, .check false, .poll ⟨t, 0⟩,
    .complete 0 .success ⟨t, 0⟩ ⟨t, 0⟩]

/-- The run is one under the rule, whatever it gives. -/
theorem exists_busyRead {t : Int} (ht : 2 ≤ t)
    (hrun : (readOnceBusy.run (ioworkerStart (plainEnv 8) readOnceArgs, []) (busyRead t)).map
      (fun x => (x.1.now, (readOnceBusy.run x [.next ⟨t, 0⟩, .leave]).map fun y =>
        (y.1.pc, y.1.now, y.2))) =
      some (⟨t, 0⟩, some (.exited 0, ⟨t, 0⟩, [(⟨2, 0⟩, ⟨t, 0⟩), (⟨t, 0⟩, ⟨t, 0⟩)]))) :
    ∃ w busy, readOnceBusy.Reachable BusyForward (w, busy) ∧ w.pc = .exited 0 ∧
      w.elapsedUs = (t - 1) * 1000000 ∧ busyTime busy = (t - 2) * 1000000 := by
  have hinit : readOnceBusy.Reachable BusyForward
      (ioworkerStart (plainEnv 8) readOnceArgs, []) := .init ⟨rfl, rfl⟩
  have hadmits : readOnceBusy.Admits BusyForward
      (ioworkerStart (plainEnv 8) readOnceArgs, []) (busyRead t) := by
    refine Machine.admits_of_forall (fun e he x => ?_) _
    simp only [busyRead, List.mem_cons, List.not_mem_nil, or_false] at he
    rcases he with rfl | rfl | rfl | rfl <;>
      simp [BusyForward, IowEvent.readings, Timeval.Reading, Timeval.us]
    omega
  obtain ⟨x, hx, hf⟩ := hinit.exists_run (busyRead t) hadmits hrun
  obtain ⟨hnow, hrest⟩ := Prod.mk.inj hf
  have hrule : readOnceBusy.Admits BusyForward x [.next ⟨t, 0⟩, .leave] := by
    refine ⟨⟨?_, ?_⟩, fun y _ => ⟨⟨?_, trivial⟩, fun _ _ => trivial⟩⟩
    · simp [IowEvent.readings, Timeval.Reading]
    · exact Int.le_of_eq (congrArg Timeval.us hnow)
    · simp [IowEvent.readings]
  obtain ⟨⟨w, busy⟩, hw, hg⟩ := hx.exists_run _ hrule hrest
  simp only [Prod.mk.injEq] at hg
  obtain ⟨hpc, hlast, rfl⟩ := hg
  have henv : w.env = plainEnv 8 := (cpuTimed_of_reachable hw).env_eq
  refine ⟨w, _, hw, hpc, ?_, ?_⟩
  · rw [Worker.elapsedUs, henv, hlast]
    simp only [Timeval.us, plainEnv]
    omega
  · simp only [busyTime, List.map_cons, List.map_nil, List.sum_cons, List.sum_nil, Timeval.us]
    omega

/-- The worker is busy for five seconds. -/
theorem cpu_time_five_seconds :
    ∃ w busy, readOnceBusy.Reachable BusyForward (w, busy) ∧ w.pc = .exited 0 ∧
      busyTime busy = 5000000 ∧ w.TimesRight busy := by
  obtain ⟨w, busy, hw, hpc, helapsed, hbusy⟩ := exists_busyRead (t := 7) (by decide) rfl
  have hstart : (plainEnv 8).testStart.Reading := ⟨Int.le_refl 0, by decide⟩
  exact ⟨w, busy, hw, hpc, by omega, (cpu_time_iff hstart hw hpc).2 (by omega)⟩

/-- The worker is busy for 5000 seconds of its 1000 hours, and reports 705. -/
theorem cpu_time_wraps :
    ∃ w busy, readOnceBusy.Reachable BusyForward (w, busy) ∧ w.pc = .exited 0 ∧
      busyTime busy = 5000 * 1000000 ∧ busyTime busy ≤ (1000 * 3600 + 30) * 1000000 ∧
      w.rets.cpuUsage = 705032 ∧ ¬w.TimesRight busy := by
  obtain ⟨w, busy, hw, hpc, -, hbusy⟩ := exists_busyRead (t := 5002) (by decide) rfl
  have htimed := cpuTimed_of_reachable hw
  obtain ⟨duration, -, -, husage⟩ := htimed.reported 0 hpc
  have husage' : w.rets.cpuUsage = 705032 := by
    rw [husage, htimed.toUs, hbusy]
    rfl
  refine ⟨w, busy, hw, hpc, by omega, by omega, husage', fun hright => ?_⟩
  have := hright.cpuUsage
  omega

end Pynvme
