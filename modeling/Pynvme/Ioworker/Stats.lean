import Pynvme.Ioworker.Start

/-!
# The statistics of an ioworker

The callback of a completion updates the statistics of the worker (`Stats`) from
the context of the IO and the time: the counts of the reads and of the others, the
latencies, the counters of the operations and the histograms. Nothing else changes
them (`ioworkerStep_stats`).

The operation, the index of its counter and the time of an IO are those that were
set in its context when it was sent, since nothing changes the context while the IO
is in flight (`ioworkerStep_ioCtx`).
-/

namespace Pynvme

open Word

/-- The statistics of a worker, and what is needed to update them; the table of the
    operations, which tells the counter of an IO. -/
structure Stats where
  opTable : List Nat
  ioCountRead : Nat
  ioCountNonread : Nat
  latencyMaxUs : Nat
  totalLatencyUs : Nat
  opList : List (Nat × Nat)
  ioCounterPerLatency : Option (Nat → Nat)
  ioCounterPerSecond : Option (Nat → Nat)
  timeNextSec : Timeval
  lastSec : Nat
  ioCountTillLastSec : Nat

/-- The statistics of a worker. -/
def Worker.stats (w : Worker) : Stats where
  opTable := w.g.opTable
  ioCountRead := w.rets.ioCountRead
  ioCountNonread := w.rets.ioCountNonread
  latencyMaxUs := w.rets.latencyMaxUs
  totalLatencyUs := w.g.totalLatencyUs
  opList := w.args.opList
  ioCounterPerLatency := w.args.ioCounterPerLatency
  ioCounterPerSecond := w.args.ioCounterPerSecond
  timeNextSec := w.g.timeNextSec
  lastSec := w.g.lastSec
  ioCountTillLastSec := w.g.ioCountTillLastSec

/-- The number of the completions that were counted. -/
def Stats.count (s : Stats) : Nat := s.ioCountRead + s.ioCountNonread

/-- The slot of the last second is closed, if that second has passed. -/
def Stats.nextSecond (s : Stats) (now : Timeval) : Stats :=
  match s.ioCounterPerSecond with
  | none => s
  | some counter =>
    if now.gt s.timeNextSec then
      { s with
        ioCounterPerSecond := some (Function.update counter s.lastSec
          (u32 (s.count - s.ioCountTillLastSec)))
        timeNextSec := s.timeNextSec.addUsecond 1000000
        lastSec := u32 (s.lastSec + 1)
        ioCountTillLastSec := s.count }
    else s

/-- The latency of the IO of a context that completes at `now`. -/
def IoCtx.latencyUs (ctx : IoCtx) (now : Timeval) : Nat := (now.sub ctx.timeSent).toUs

/-- An IO is counted, besides the seconds. -/
def Stats.addOne (s : Stats) (ctx : IoCtx) (now : Timeval) : Stats :=
  { s with
    ioCountRead := if ctx.opcode = 2 then s.ioCountRead + 1 else s.ioCountRead
    ioCountNonread := if ctx.opcode = 2 then s.ioCountNonread else s.ioCountNonread + 1
    latencyMaxUs := max (ctx.latencyUs now) s.latencyMaxUs
    totalLatencyUs := u64 (s.totalLatencyUs + ctx.latencyUs now)
    opList := s.opList.modify ctx.opIndex fun e => (e.1, e.2 + 1)
    ioCounterPerLatency :=
      s.ioCounterPerLatency.map fun c => increment c (min 999999 (ctx.latencyUs now)) }

/-- What a completion at `now` of the IO of a context does. -/
def Stats.countOne (s : Stats) (ctx : IoCtx) (now : Timeval) : Stats :=
  (s.addOne ctx now).nextSecond now

theorem Stats.count_addOne (s : Stats) (ctx : IoCtx) (now : Timeval) :
    (s.addOne ctx now).count = s.count + 1 := by
  simp only [Stats.count, Stats.addOne]
  split_ifs <;> omega

variable {w w' : Worker} {e : IowEvent} {k : Nat} {status : Status} {now now' : Timeval}

theorem ioworkerNextIo_keeps {g g' : Gctx} {ctx ctx' : IoCtx}
    (h : ioworkerNextIo g ctx = (g', ctx')) :
    g'.opTable = g.opTable ∧ g'.totalLatencyUs = g.totalLatencyUs ∧
      g'.timeNextSec = g.timeNextSec ∧ g'.lastSec = g.lastSec ∧
      g'.ioCountTillLastSec = g.ioCountTillLastSec := by
  rw [ioworkerNextIo] at h
  split at h
  · split at h <;> cases h <;> exact ⟨rfl, rfl, rfl, rfl, rfl⟩
  · split_ifs at h <;> cases h <;> exact ⟨rfl, rfl, rfl, rfl, rfl⟩

theorem ioworkerUpdateIoCountPerSecond_stats {w : Worker} {args args' : Args} {rets : Rets}
    {g g' : Gctx} (h : ioworkerUpdateIoCountPerSecond args rets g now = (args', g')) :
    Worker.stats { w with args := args', rets := rets, g := g' } =
      (Worker.stats { w with args := args, rets := rets, g := g }).nextSecond now := by
  rw [ioworkerUpdateIoCountPerSecond] at h
  split at h
  · rename_i hc
    cases h
    simp only [Stats.nextSecond, Worker.stats, hc]
  · rename_i c hc
    split_ifs at h with hgt
    · cases h
      simp only [Stats.nextSecond, Worker.stats, Stats.count, hc, if_pos hgt]
    · cases h
      simp only [Stats.nextSecond, Worker.stats, hc, if_neg hgt]

theorem ioworkerCountOne_stats (w : Worker) (k : Nat) (status : Status) (now : Timeval) :
    (ioworkerCountOne w k status now).stats = w.stats.countOne (w.ioCtx k) now := by
  simp only [ioworkerCountOne]
  generalize hn : ioworkerNextIo _ (w.ioCtx k) = p
  obtain ⟨g, ctx⟩ := p
  obtain ⟨hop, hlatency, hnext, hsec, htill⟩ := ioworkerNextIo_keeps hn
  dsimp only
  generalize hs : ioworkerUpdateIoCountPerSecond _ _ g now = q
  obtain ⟨args, g'⟩ := q
  refine (ioworkerUpdateIoCountPerSecond_stats (w := w) hs).trans
    (congrArg (fun s => Stats.nextSecond s now) ?_)
  simp only [Worker.stats, Stats.addOne, hop, hlatency, hnext, hsec, htill]
  rfl

theorem ioworkerLogCmd_keeps {args args' : Args} {g g' : Gctx} {cmd : Cmdlog}
    (h : ioworkerLogCmd args g cmd = (args', g')) (w : Worker) :
    Worker.stats { w with args := args', g := g' } =
      Worker.stats { w with args := args, g := g } := by
  simp only [ioworkerLogCmd] at h
  split_ifs at h <;> cases h <;> rfl

theorem ioworkerQueueOne_stats (w : Worker) (k : Nat) (finish : Bool) :
    (ioworkerQueueOne w k finish).stats = w.stats := by
  rw [ioworkerQueueOne]
  dsimp only
  generalize hl : ioworkerLogCmd w.args _ _ = r
  obtain ⟨args, g⟩ := r
  exact ioworkerLogCmd_keeps hl w

theorem ioworkerOneCb_stats (h : ioworkerOneCb w k status now now' = .ok w') :
    w'.stats = w.stats.countOne (w.ioCtx k) now := by
  obtain ⟨finish, -, hw⟩ := Except.bind_eq_ok.1 h
  obtain rfl := Except.pure_eq_ok.1 hw
  exact (ioworkerQueueOne_stats _ k finish).trans (ioworkerCountOne_stats w k status now)

theorem ioworkerFinal_stats (w : Worker) (ret : Int) : (ioworkerFinal w ret).stats = w.stats := by
  rw [ioworkerFinal]
  split_ifs
  · rfl
  · split
    · rfl
    · dsimp only
      split_ifs <;> rfl

/-- A completion is counted, unless its callback is aborted. -/
theorem ioworkerStep_complete_stats (h : ioworkerStep w (.complete k status now now') = some w') :
    ((w'.stats = w.stats.countOne (w.ioCtx k) now ∧
      w'.completions = w.completions ++ [⟨k, status, now, now'⟩]) ∨
    (w'.stats = w.stats ∧ w'.completions = w.completions ∧ ∃ why, w'.pc = .aborted why)) ∧
    w'.rets.latencyAverageUs = w.rets.latencyAverageUs ∧ ∀ ret, w'.pc ≠ .exited ret := by
  obtain ⟨n, -, -, ⟨why, -, rfl⟩ | ⟨w₁, hcb, rfl⟩⟩ := ioworkerStep_complete_eq h
  · exact ⟨.inr ⟨rfl, rfl, why, rfl⟩, rfl, by simp⟩
  · have hstats := ioworkerOneCb_stats hcb
    have hcompletions := (ioworkerOneCb_eq_ok hcb).completions
    obtain ⟨finish, -, hw⟩ := Except.bind_eq_ok.1 hcb
    obtain rfl := Except.pure_eq_ok.1 hw
    exact ⟨.inl ⟨hstats, hcompletions⟩, rfl, by simp⟩

/-- Of the arguments, the results and the globals, the other steps change only what the
    sending of an IO does, but for the last one. -/
theorem ioworkerStep_frame (h : ioworkerStep w e = some w')
    (he : ∀ k status now now', e ≠ .complete k status now now') :
    (∃ ret, w' = ioworkerFinal w ret) ∨
      (w'.args = w.args ∧ w'.rets = w.rets ∧ (∃ lba flag pending, w'.g = { w.g with
        sequentialLba := lba
        flagFinish := flag
        pendingIoList := pending }) ∧ ∀ ret, w'.pc ≠ .exited ret) := by
  cases e with
  | send now table d rc timeSent after =>
    obtain ⟨-, rfl | ⟨k, -, -, ⟨why, -, rfl⟩ | ⟨p, w₁, -, rfl, rfl⟩⟩⟩ := ioworkerStep_send_eq h
    · exact .inr ⟨rfl, rfl, ⟨_, _, _, rfl⟩, by simp⟩
    · exact .inr ⟨rfl, rfl, ⟨_, _, _, rfl⟩, by simp⟩
    · refine .inr ?_
      rw [ioworkerSendOne]
      dsimp only
      split_ifs <;> exact ⟨rfl, rfl, ⟨_, _, _, rfl⟩, by simp⟩
  | check terminate =>
    obtain ⟨-, ⟨why, -, rfl⟩ | ⟨ret, -, rfl⟩ | rfl⟩ := ioworkerStep_check_eq h
    · exact .inr ⟨rfl, rfl, ⟨_, _, _, rfl⟩, by simp⟩
    · exact .inl ⟨ret, rfl⟩
    · exact .inr ⟨rfl, rfl, ⟨_, _, _, rfl⟩, by simp⟩
  | poll now =>
    obtain ⟨-, ⟨⟩⟩ := Option.ite_none_right_eq_some.1 h
    exact .inr ⟨rfl, rfl, ⟨_, _, _, rfl⟩, by simp⟩
  | complete k status now now' => exact absurd rfl (he k status now now')
  | next after =>
    obtain ⟨n, -, rfl⟩ := ioworkerStep_next_eq h
    exact .inr ⟨rfl, rfl, ⟨_, _, _, rfl⟩, by simp⟩
  | leave =>
    obtain ⟨-, ⟨⟩⟩ := Option.ite_none_right_eq_some.1 h
    exact .inl ⟨0, rfl⟩

/-- The other steps change nothing of the statistics and the results, but for the last one. -/
theorem ioworkerStep_quiet (h : ioworkerStep w e = some w')
    (he : ∀ k status now now', e ≠ .complete k status now now') :
    (∃ ret, w' = ioworkerFinal w ret) ∨
      (w'.stats = w.stats ∧ w'.rets = w.rets ∧ ∀ ret, w'.pc ≠ .exited ret) := by
  rcases ioworkerStep_frame h he with hfinal | ⟨hargs, hrets, ⟨lba, flag, pending, hg⟩, hpc⟩
  · exact .inl hfinal
  · refine .inr ⟨?_, hrets, hpc⟩
    simp only [Worker.stats, hargs, hrets, hg]

theorem ioworkerStep_stats (h : ioworkerStep w e = some w')
    (he : ∀ k status now now', e ≠ .complete k status now now') :
    w'.stats = w.stats ∧ w'.completions = w.completions := by
  refine ⟨?_, ?_⟩
  · rcases ioworkerStep_quiet h he with ⟨ret, rfl⟩ | ⟨hstats, -⟩
    · exact ioworkerFinal_stats w ret
    · exact hstats
  · rcases ioworkerStep_cases h with ⟨_, _, _, _, _, _, _, _, -, hs⟩ |
      ⟨k, status, now, now', _, hc, -⟩ | hm
    · exact hs.completions
    · exact absurd hc (he k status now now')
    · exact hm.completions

theorem ioworkerStep_aborted {why : Abort} (h : w.pc = .aborted why) : ioworkerStep w e = none := by
  cases e <;> simp [ioworkerStep, h]

theorem ioworkerStep_exited {ret : Int} (h : w.pc = .exited ret) : ioworkerStep w e = none := by
  cases e <;> simp [ioworkerStep, h]

/-! ### The start -/

/-- The statistics before the first completion. -/
def ioworkerInitStats (env : Env) (args : Args) : Stats where
  opTable := ioworkerOpInit args
  ioCountRead := 0
  ioCountNonread := 0
  latencyMaxUs := 0
  totalLatencyUs := 0
  opList := args.opList
  ioCounterPerLatency := args.ioCounterPerLatency
  ioCounterPerSecond := args.ioCounterPerSecond
  timeNextSec := env.testStart.addUsecond 1000000
  lastSec := 0
  ioCountTillLastSec := 0

theorem ioworkerBatchOne_stats (i : Nat) (w : Worker) : (ioworkerBatchOne i w).stats = w.stats := by
  rw [ioworkerBatchOne]
  dsimp only
  split_ifs
  · rfl
  · generalize hn : ioworkerNextIo w.g _ = r
    obtain ⟨g, ctx⟩ := r
    obtain ⟨hop, hlatency, hnext, hsec, htill⟩ := ioworkerNextIo_keeps hn
    simp only [Worker.stats, hop, hlatency, hnext, hsec, htill]

theorem ioworkerBatchOne_keeps (i : Nat) (w : Worker) :
    (ioworkerBatchOne i w).completions = w.completions ∧ (ioworkerBatchOne i w).rets = w.rets ∧
      (ioworkerBatchOne i w).pc = w.pc := by
  rw [ioworkerBatchOne]
  dsimp only
  split_ifs <;> exact ⟨rfl, rfl, rfl⟩

/-- Nothing is counted before the loop. -/
theorem ioworkerStart_stats (env : Env) (args : Args) :
    (ioworkerStart env args).stats = ioworkerInitStats env args ∧
      (ioworkerStart env args).completions = [] ∧
      (ioworkerStart env args).rets.latencyAverageUs = 0 ∧
      ∀ ret, (ioworkerStart env args).pc ≠ .exited ret := by
  refine (ioworkerStart_induction (I := fun _ w => w.stats = ioworkerInitStats env args ∧
    w.completions = [] ∧ w.rets.latencyAverageUs = 0 ∧ ∀ ret, w.pc ≠ .exited ret)
    env args ?_ ?_ ?_).elim fun _ h => h
  · exact fun _ _ _ _ _ _ _ _ _ hpc => ⟨rfl, rfl, rfl, hpc⟩
  · intro i w hw
    obtain ⟨hcompletions, hrets, hpc⟩ := ioworkerBatchOne_keeps i w
    rw [ioworkerBatchOne_stats, hcompletions, hrets, hpc]
    exact hw
  · exact fun _ _ _ hw => hw

/-- What the completions add to the statistics. -/
theorem stats_of_reachable {P : Worker → IowEvent → Prop} {env : Env} {args : Args}
    {I : Stats → List Completion → Prop}
    (h : (ioworkerMachine env args).Reachable P w)
    (hinit : I (ioworkerInitStats env args) [])
    (hcount : ∀ s l ctx c, I s l → I (s.countOne ctx c.now) (l ++ [c])) :
    I w.stats w.completions := by
  refine h.invariant (I := fun w => I w.stats w.completions) ?_ ?_
  · rintro _ rfl
    obtain ⟨hstats, hcompletions, -⟩ := ioworkerStart_stats env args
    rwa [hstats, hcompletions]
  · intro w e w' hI _ hs
    by_cases he : ∀ k status now now', e ≠ .complete k status now now'
    · rwa [(ioworkerStep_stats hs he).1, (ioworkerStep_stats hs he).2]
    · push Not at he
      obtain ⟨k, status, now, now', rfl⟩ := he
      rcases (ioworkerStep_complete_stats hs).1 with ⟨hst, hc⟩ | ⟨hst, hc, -⟩
      · rw [hst, hc]
        exact hcount w.stats w.completions (w.ioCtx k) ⟨k, status, now, now'⟩ hI
      · rwa [hst, hc]

end Pynvme
