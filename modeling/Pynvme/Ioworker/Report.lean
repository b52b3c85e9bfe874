import Pynvme.Ioworker.Accounting
import Pynvme.Ioworker.Stats

/-!
# The report of an ioworker

A worker reports when it leaves its loop: since nothing is left to do, or by a break,
when its time is up or it is told to terminate. The average of the latencies is their
sum divided by the number of the completions, and only the first way out has waited
for one (`completions_of_leaves`).

`ioworker_report_divides`: the report divides by zero exactly if a break comes before
the first completion.
-/

namespace Pynvme

open Word

variable {env : Env} {args : Args} {w w' : Worker} {e : IowEvent}

/-! ### Reports -/

/-- The step breaks out of the loop: the time is up, or the signal to terminate is
    seen. -/
def Worker.Breaks (w : Worker) : IowEvent → Prop
  | .check terminate => w.pc = .sent ∧
      ∃ duration, ioworkerGetDuration w.env.testStart w.now = .ok duration ∧
        (duration > (w.seconds + 30) * 1000 ∨ terminate = true)
  | _ => False

/-- The step leaves the loop, and reports. -/
def Worker.Reports (w : Worker) (e : IowEvent) : Prop :=
  w.Breaks e ∨ (e = .leave ∧ w.pc = .head ∧ ¬w.Continues)

/-- The rule that the loop is broken only after an IO has completed. -/
def BreaksLate (w : Worker) (e : IowEvent) : Prop := w.Breaks e → w.completions ≠ []

theorem Worker.Reports.step (h : w.Reports e) :
    ∃ ret, ioworkerStep w e = some (ioworkerFinal w ret) := by
  rcases h with hb | ⟨rfl, hpc, hstop⟩
  · cases e with
    | check terminate =>
      obtain ⟨hpc, duration, hduration, hor⟩ := hb
      simp only [ioworkerStep, if_pos hpc, hduration]
      split_ifs with htime hterm
      · exact ⟨_, rfl⟩
      · exact ⟨_, rfl⟩
      · exact absurd (hor.resolve_left htime) hterm
    | _ => exact hb.elim
  · exact ⟨0, if_pos ⟨hpc, hstop⟩⟩

/-- The report divides by zero if nothing was counted, after its assertions on the
    clock. -/
theorem ioworkerFinal_divisionByZero (w : Worker) (ret : Int) :
    (ioworkerFinal w ret).pc = .aborted .divisionByZero ↔
      w.now.sec ≠ 0 ∧ w.now.gt w.env.testStart = true ∧
        w.rets.ioCountRead + w.rets.ioCountNonread = 0 := by
  rw [ioworkerFinal]
  split_ifs with hnow
  · simp [hnow]
  · split
    · rename_i why hwhy
      obtain ⟨rfl, hgt⟩ := ioworkerGetDuration_eq_error hwhy
      simp [hgt]
    · rename_i duration hduration
      have hgt : w.now.gt w.env.testStart = true := by
        rw [ioworkerGetDuration] at hduration
        split_ifs at hduration with hgt
        exact hgt
      dsimp only
      split_ifs with htotal
      · simp [hnow, hgt, htotal]
      · simp only [false_iff, not_and]
        exact fun _ _ => htotal

/-! ### Completions -/

theorem Stats.count_nextSecond (s : Stats) (now : Timeval) :
    (s.nextSecond now).count = s.count := by
  rw [Stats.nextSecond]
  split
  · rfl
  · split_ifs <;> rfl

theorem count_of_reachable {P : Worker → IowEvent → Prop}
    (h : (ioworkerMachine env args).Reachable P w) : w.stats.count = w.completions.length :=
  stats_of_reachable (I := fun s l => s.count = l.length) h rfl fun s l ctx c hs => by
    rw [Stats.countOne, Stats.count_nextSecond, Stats.count_addOne, hs, List.length_append]
    rfl

/-- Only a completion or a failed submission sets the finish flag. -/
theorem finished_of_reachable (hargs : args.Valid) {P : Worker → IowEvent → Prop}
    (h : (ioworkerMachine env args).Reachable P w) (hfin : w.g.flagFinish = true) :
    w.completions ≠ [] ∨ w.lost ≠ [] := by
  have hor : Refuses w ∨ (w.g.flagFinish = true → w.completions ≠ [] ∨ w.lost ≠ []) := by
    refine ioworker_invariant (I := fun w => w.g.flagFinish = true →
      w.completions ≠ [] ∨ w.lost ≠ []) hargs.qdepth_lt h ?_ ?_ ?_ ?_
    · intro w hw hfin
      have hflag : w.g.flagFinish = false := congrArg Control.flagFinish hw.control
      exact absurd (hfin.symm.trans hflag) (by decide)
    · intro w w' k now table d p rc timeSent after hw _ hs hfin
      have hflag : w'.g.flagFinish = (w.g.flagFinish || decide (rc ≠ 0)) :=
        congrArg Control.flagFinish hs.control
      rw [hs.completions, hs.lost]
      by_cases hrc : rc = 0
      · rw [if_neg (not_not.2 hrc)]
        exact hw (by simpa [hrc, hfin] using hflag.symm)
      · simp [hrc]
    · intro w w' k status now now' n _ _ _ _ _ hc _
      simp [hc.completions]
    · intro w w' e hw _ hm hfin
      rw [hm.completions, hm.lost]
      exact hw ((congrArg Control.flagFinish hm.control).symm.trans hfin)
  rcases hor with hr | hw
  · exact absurd (hfin.symm.trans hr.flagFinish) (by decide)
  · exact hw hfin

/-- A worker with nothing left to do has completed something. -/
theorem completions_of_leaves (hargs : args.Valid) {P : Worker → IowEvent → Prop}
    (h : (ioworkerMachine env args).Reachable P w) (hstop : ¬w.Continues) : w.completions ≠ [] := by
  rw [Worker.Continues] at hstop
  push Not at hstop
  obtain ⟨hsent, hfin, -⟩ := hstop
  rcases accounted_of_reachable hargs h with hr | ⟨hw, -⟩
  · exact absurd (hfin.symm.trans hr.flagFinish) (by decide)
  · -- No submission has failed, since its context would still be counted as sent.
    have hlost : w.lost = [] := by
      have hcount := hw.count
      rw [Worker.contexts, List.length_append] at hcount
      exact List.length_eq_zero_iff.1 (by omega)
    exact (finished_of_reachable hargs h hfin).resolve_right (not_not.2 hlost)

/-- In every run that breaks the loop only after an IO has completed, the divisor of
    the report is not zero; a break before that has the divisor zero, and divides by it
    unless an assertion on the clock fails. -/
theorem ioworker_report_divides (hargs : args.Admitted)
    (h : (ioworkerMachine env args).Reachable BreaksLate w) (hrep : w.Reports e)
    (hs : ioworkerStep w e = some w') :
    (w.rets.ioCountRead + w.rets.ioCountNonread ≠ 0 ↔ BreaksLate w e) ∧
    (BreaksLate w e → w'.pc ≠ .aborted .divisionByZero) ∧
    (¬BreaksLate w e → w.now.sec ≠ 0 → w.now.gt w.env.testStart = true →
      w'.pc = .aborted .divisionByZero) := by
  have hcount : w.rets.ioCountRead + w.rets.ioCountNonread = w.completions.length :=
    count_of_reachable h
  have hiff : w.rets.ioCountRead + w.rets.ioCountNonread ≠ 0 ↔ BreaksLate w e := by
    rw [hcount, ne_eq, List.length_eq_zero_iff]
    refine ⟨fun hne _ => hne, fun hlate => ?_⟩
    rcases hrep with hb | ⟨-, -, hstop⟩
    · exact hlate hb
    · exact completions_of_leaves hargs.valid h hstop
  obtain ⟨ret, hret⟩ := hrep.step
  obtain rfl := Option.some.inj (hret.symm.trans hs)
  have hdivides := ioworkerFinal_divisionByZero w ret
  exact ⟨hiff, fun hlate hpc => hiff.2 hlate (hdivides.1 hpc).2.2,
    fun hearly hsec hgt => hdivides.2 ⟨hsec, hgt, not_not.1 (mt hiff.1 hearly)⟩⟩

/-- The sending of the read. -/
def sendRead : IowEvent := .send ⟨2, 0⟩ (fun _ => 0#32) ⟨0, 0, 0, 0, 0⟩ 0 ⟨2, 0⟩ ⟨2, 0⟩

/-- The rest of its iteration. -/
def completeRead : List IowEvent :=
  [.check false, .poll ⟨2, 0⟩, .complete 0 .success ⟨2, 0⟩ ⟨2, 0⟩, .next ⟨2, 0⟩]

/-- The read is reported after it has completed. -/
theorem ioworker_report_divides_read :
    ∃ w, (ioworkerMachine (plainEnv 8) readOnceArgs).Reachable BreaksLate w ∧
      w.Reports .leave ∧ w.rets.ioCountRead + w.rets.ioCountNonread ≠ 0 := by
  have hinit : (ioworkerMachine (plainEnv 8) readOnceArgs).Reachable BreaksLate _ := .init rfl
  obtain ⟨w₁, hw₁, hf₁⟩ := hinit.exists_run
    (f := fun w => (w.env.testStart, w.now, w.seconds,
      ((ioworkerMachine (plainEnv 8) readOnceArgs).run w completeRead).map fun w =>
        (w.pc, w.g.flagFinish, w.headIo, w.g.ioCountSent, w.g.ioCountCplt)))
    (t := (⟨1, 0⟩, ⟨2, 0⟩, 3600000, some (.head, true, none, 1, 1)))
    [sendRead] ⟨False.elim, fun _ _ => trivial⟩ rfl
  simp only [Prod.mk.injEq] at hf₁
  obtain ⟨hstart, hnow, hseconds, hrun⟩ := hf₁
  -- Only the check could break the loop, and the time is not up.
  have hcheck : BreaksLate w₁ (.check false) := by
    rintro ⟨-, duration, hduration, hor⟩
    rw [hstart, hnow] at hduration
    obtain rfl : 1000 = duration := Except.ok.inj hduration
    rw [hseconds] at hor
    exact absurd hor (by decide)
  obtain ⟨w, hw, hf⟩ := hw₁.exists_run completeRead
    ⟨hcheck, fun _ _ => ⟨False.elim, fun _ _ => ⟨False.elim, fun _ _ => ⟨False.elim,
      fun _ _ => trivial⟩⟩⟩⟩ hrun
  simp only [Prod.mk.injEq] at hf
  obtain ⟨hpc, hfin, hhead, hsent, hcplt⟩ := hf
  have hrep : w.Reports .leave := .inr ⟨rfl, hpc, by simp [Worker.Continues, *]⟩
  obtain ⟨ret, hs⟩ := hrep.step
  exact ⟨w, hw, hrep, (ioworker_report_divides readOnceArgs_admitted hw hrep hs).1.2 False.elim⟩

/-- The worker is told to terminate in its first iteration: the read is in flight, and
    the report divides by zero. -/
theorem ioworker_report_divides_by_zero :
    readOnceArgs.Admitted ∧ ∃ w e w',
      (ioworkerMachine (plainEnv 8) readOnceArgs).Reachable (fun _ _ => True) w ∧ w.Reports e ∧
      ioworkerStep w e = some w' ∧ w.rets.ioCountRead + w.rets.ioCountNonread = 0 ∧
      w'.pc = .aborted .divisionByZero := by
  have hstart : (ioworkerMachine (plainEnv 8) readOnceArgs).Reachable
      (fun _ _ => True) _ := .init rfl
  obtain ⟨w, hw, hf⟩ := hstart.exists_run
    (f := fun w => (w.pc, w.env.testStart, w.now, w.rets.ioCountRead + w.rets.ioCountNonread))
    (t := (.sent, ⟨1, 0⟩, ⟨2, 0⟩, 0))
    [sendRead] (Machine.admits_of_forall (by simp) _) rfl
  simp only [Prod.mk.injEq] at hf
  obtain ⟨hpc, hstart, hnow, hzero⟩ := hf
  have hrep : w.Reports (.check true) := .inl ⟨hpc, 1000, by rw [hstart, hnow]; rfl, .inr rfl⟩
  obtain ⟨ret, hs⟩ := hrep.step
  refine ⟨readOnceArgs_admitted, w, _, _, hw, hrep, hs, hzero, ?_⟩
  rw [ioworkerFinal_divisionByZero, hstart, hnow]
  exact ⟨by decide, rfl, hzero⟩

end Pynvme
