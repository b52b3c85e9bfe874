import Pynvme.Ioworker.Accounting
import Pynvme.Ioworker.Stats
import Pynvme.Lib.Levels

/-!
# The table of the IOs per second

With `output_io_per_second`, an ioworker keeps a table with a slot for every second
of its time limit. A completion after the end of the second of the current slot
closes the slot, with the number of the IOs counted since the one before was closed:
the completion closes one slot, however late it is.

* The table is overrun exactly by runs with one more late completion than the table
  has slots (`perSecond_in_range_iff`).
* After a stall, the slots are closed one by one by the completions that come later,
  which are missing in the slots of their own seconds (`perSecond_attributed_iff`).
-/

namespace Pynvme

open Word

/-! ### Time -/

/-- The time `n` seconds after `t`. -/
def Timeval.after (t : Timeval) (n : Nat) : Timeval := ⟨t.sec + n, t.usec⟩

theorem Timeval.after_addUsecond {t : Timeval} (h : t.Normal) (n : Nat) :
    (t.after n).addUsecond 1000000 = t.after (n + 1) := by
  have hsec : ((1000000 / 1000000 : Nat) : Int) = 1 := rfl
  have husec : ((1000000 % 1000000 : Nat) : Int) = 0 := rfl
  obtain ⟨h0, hlt⟩ := h
  rw [Timeval.addUsecond, hsec, husec, Timeval.add, Timeval.after, Timeval.after]
  dsimp only
  rw [if_neg (by omega), Int.add_zero, Int.add_assoc, Int.natCast_succ]

/-- The slots are closed by the completions after their ends: those of `times` close
    this many. -/
def slotsClosed (start : Timeval) (times : List Timeval) : Nat :=
  levels (fun n t => t.gt (start.after (n + 1)) = true) times

theorem slotsClosed_concat (start : Timeval) (times : List Timeval) (t : Timeval) :
    slotsClosed start (times ++ [t]) =
      if t.gt (start.after (slotsClosed start times + 1)) = true then slotsClosed start times + 1
      else slotsClosed start times :=
  levels_concat

/-! ### The slot that is written -/

/-- The index at which the table is written by a completion at `now`. -/
def Stats.written (s : Stats) (now : Timeval) : Option Nat :=
  match s.ioCounterPerSecond with
  | none => none
  | some _ => if now.gt s.timeNextSec then some s.lastSec else none

theorem Stats.written_addOne (s : Stats) (ctx : IoCtx) (now now' : Timeval) :
    (s.addOne ctx now).written now' = s.written now' := rfl

theorem Stats.nextSecond_of_none {s : Stats} {now : Timeval} (h : s.written now = none) :
    s.nextSecond now = s := by
  rw [Stats.nextSecond]
  cases hc : s.ioCounterPerSecond with
  | none => rfl
  | some c =>
    rw [Stats.written, hc] at h
    dsimp only at h ⊢
    split_ifs at h with hgt
    rw [if_neg hgt]

theorem Stats.nextSecond_of_some {s : Stats} {now : Timeval} {i : Nat}
    (h : s.written now = some i) :
    i = s.lastSec ∧ now.gt s.timeNextSec = true ∧ ∃ c, s.ioCounterPerSecond = some c ∧
      s.nextSecond now = { s with
        ioCounterPerSecond := some (Function.update c i (u32 (s.count - s.ioCountTillLastSec)))
        timeNextSec := s.timeNextSec.addUsecond 1000000
        lastSec := u32 (i + 1)
        ioCountTillLastSec := s.count } := by
  rw [Stats.written] at h
  split at h
  · cases h
  · rename_i c hc
    split_ifs at h with hgt
    obtain rfl := Option.some.inj h
    refine ⟨rfl, hgt, c, hc, ?_⟩
    simp only [Stats.nextSecond, hc, if_pos hgt]

/-- A step that writes the table does it at an index below `size`. -/
def WritesBelow (size : Nat) (w : Worker) : IowEvent → Prop
  | .complete _ _ now _ => ∀ i ∈ w.stats.written now, i < size
  | _ => True

/-- The time at which an IO completes by an event. -/
def IowEvent.completedAt : IowEvent → Option Timeval
  | .complete _ _ now _ => some now
  | _ => none

/-- There are `n` of the completions, in their order, each of them later than the end
    of another second after the start. -/
def LateCompletions (start : Timeval) (n : Nat) (times : List Timeval) : Prop :=
  ∃ late : List Timeval, late.Sublist times ∧ late.length = n ∧
    ∀ k (hk : k < late.length), late[k].gt (start.after (k + 1)) = true

theorem lateCompletions_iff {start : Timeval} {n : Nat} {times : List Timeval} :
    LateCompletions start n times ↔ n ≤ slotsClosed start times :=
  (le_levels_iff (p := fun n (t : Timeval) => t.gt (start.after (n + 1)) = true)).symm

variable {env : Env} {args : Args} {w w' : Worker} {e : IowEvent} {start : Timeval} {size : Nat}

/-- The slots closed by the completions `times` of a worker with a table. -/
structure SlotsOf (start : Timeval) (times : List Timeval) (s : Stats) : Prop where
  table : s.ioCounterPerSecond.isSome
  lastSec : s.lastSec = slotsClosed start times
  next : s.timeNextSec = start.after (s.lastSec + 1)

theorem SlotsOf.written_eq {s : Stats} {times : List Timeval} (h : SlotsOf start times s)
    (now : Timeval) :
    s.written now = if now.gt (start.after (slotsClosed start times + 1)) = true
      then some s.lastSec else none := by
  obtain ⟨c, hc⟩ := Option.isSome_iff_exists.1 h.table
  rw [Stats.written, hc, h.next, h.lastSec]

/-- A completion writes the table in range if it does not close too many slots. -/
theorem SlotsOf.written_lt_iff {s : Stats} {times : List Timeval} (h : SlotsOf start times s)
    (hle : s.lastSec ≤ size) (now : Timeval) :
    (∀ i ∈ s.written now, i < size) ↔ slotsClosed start (times ++ [now]) ≤ size := by
  rw [h.written_eq, slotsClosed_concat, ← h.lastSec]
  split_ifs
  · simp only [Option.mem_def, Option.some.injEq, forall_eq']
    exact Nat.lt_iff_add_one_le
  · simpa using hle

theorem SlotsOf.nextSecond {s : Stats} {times : List Timeval} (h : SlotsOf start times s)
    (hstart : start.Normal) (hlt : s.lastSec + 1 < 2 ^ 32) (now : Timeval) :
    SlotsOf start (times ++ [now]) (s.nextSecond now) := by
  have hwritten := h.written_eq now
  rcases hw : s.written now with _ | i
  · rw [Stats.nextSecond_of_none hw]
    rw [hw] at hwritten
    refine ⟨h.table, ?_, h.next⟩
    rw [slotsClosed_concat]
    split_ifs at hwritten ⊢
    exact h.lastSec
  · obtain ⟨rfl, hgt, c', -, heq⟩ := Stats.nextSecond_of_some hw
    rw [heq]
    rw [hw] at hwritten
    refine ⟨rfl, ?_, ?_⟩
    · rw [slotsClosed_concat]
      split_ifs at hwritten ⊢
      rw [← h.lastSec]
      exact u32_of_lt hlt
    · dsimp only
      rw [h.next, Timeval.after_addUsecond hstart, u32_of_lt hlt]

/-- A completion moves the slots on, if their number is not too large. -/
theorem SlotsOf.countOne {s : Stats} {times : List Timeval} (h : SlotsOf start times s)
    (hstart : start.Normal) (hlt : s.lastSec + 1 < 2 ^ 32) (ctx : IoCtx) (now : Timeval) :
    SlotsOf start (times ++ [now]) (s.countOne ctx now) := by
  have h' : SlotsOf start times (s.addOne ctx now) := ⟨h.table, h.lastSec, h.next⟩
  exact h'.nextSecond hstart hlt now

theorem ioworkerInitStats_slotsOf (hstart : env.testStart.Normal)
    (htable : args.ioCounterPerSecond.isSome) :
    SlotsOf env.testStart [] (ioworkerInitStats env args) := by
  refine ⟨htable, rfl, ?_⟩
  have h := Timeval.after_addUsecond hstart 0
  rwa [show env.testStart.after 0 = env.testStart by simp [Timeval.after]] at h

theorem eq_of_completedAt {now : Timeval} (h : e.completedAt = some now) :
    ∃ k status now', e = .complete k status now now' := by
  cases e with
  | complete k status _ now' =>
    obtain rfl := Option.some.inj h
    exact ⟨k, status, now', rfl⟩
  | _ => cases h

theorem ne_complete_of_completedAt (h : e.completedAt = none) (k : Nat) (status : Status)
    (now now' : Timeval) : e ≠ .complete k status now now' := by
  rintro rfl
  cases h

theorem writesBelow_of_completedAt (h : e.completedAt = none) : WritesBelow size w e := by
  cases e with
  | complete k status now now' => cases h
  | _ => trivial

/-- The rule on the writes along a run from a state with the slots of the completions so
    far, if they are not overrun yet. -/
theorem SlotsOf.admits_iff {times : List Timeval} {es : List IowEvent}
    (h : SlotsOf env.testStart times w.stats) (hstart : env.testStart.Normal)
    (hsize : size + 1 < 2 ^ 32) (hle : w.stats.lastSec ≤ size)
    (hrun : (ioworkerMachine env args).run w es = some w') :
    (ioworkerMachine env args).Admits (WritesBelow size) w es ↔
      slotsClosed env.testStart (times ++ es.filterMap IowEvent.completedAt) ≤ size := by
  induction es generalizing w times with
  | nil =>
    rw [List.filterMap_nil, List.append_nil, ← h.lastSec]
    exact iff_of_true trivial hle
  | cons e es ih =>
    obtain ⟨w₁, hstep, hrest⟩ := Option.bind_eq_some_iff.1 hrun
    have hadm : (ioworkerMachine env args).Admits (WritesBelow size) w (e :: es) ↔
        WritesBelow size w e ∧ (ioworkerMachine env args).Admits (WritesBelow size) w₁ es := by
      refine and_congr_right fun _ => ⟨fun h => h w₁ hstep, ?_⟩
      rintro h w₂ hw₂
      obtain rfl := Option.some.inj (hstep.symm.trans hw₂)
      exact h
    rw [hadm]
    rcases he : e.completedAt with _ | now
    · have hst := (ioworkerStep_stats hstep (ne_complete_of_completedAt he)).1
      rw [List.filterMap_cons_none he, and_iff_right (writesBelow_of_completedAt he)]
      exact ih (by rwa [hst]) (by rwa [hst]) hrest
    obtain ⟨k, status, now', rfl⟩ := eq_of_completedAt he
    have hwrites : WritesBelow size w (.complete k status now now') ↔
        slotsClosed env.testStart (times ++ [now]) ≤ size := h.written_lt_iff hle now
    rw [List.filterMap_cons_some he, List.append_cons, hwrites]
    by_cases hclosed : slotsClosed env.testStart (times ++ [now]) ≤ size
    · rw [and_iff_right hclosed]
      rcases (ioworkerStep_complete_stats hstep).1 with ⟨hst, -⟩ | ⟨-, -, why, hwhy⟩
      · have h₁ : SlotsOf env.testStart (times ++ [now]) w₁.stats := by
          rw [hst]
          exact h.countOne hstart (by omega) (w.ioCtx k) now
        exact ih h₁ (h₁.lastSec.trans_le hclosed) hrest
      -- The callback is aborted, and the run ends.
      · cases es with
        | nil =>
          rw [List.filterMap_nil, List.append_nil]
          exact iff_of_true trivial hclosed
        | cons e es =>
          obtain ⟨w₂, hstep', -⟩ := Option.bind_eq_some_iff.1 hrest
          have hnone : ioworkerStep w₁ e = none := ioworkerStep_aborted hwhy
          rw [show ioworkerStep w₁ e = some w₂ from hstep'] at hnone
          cases hnone
    · have hmono : slotsClosed env.testStart (times ++ [now]) ≤
          slotsClosed env.testStart (times ++ [now] ++ es.filterMap IowEvent.completedAt) :=
        levels_le_append
      exact iff_of_false (fun h => hclosed h.1) (fun h => hclosed (hmono.trans h))

theorem writesBelow_of_no_table (h : w.stats.ioCounterPerSecond = none) : WritesBelow size w e := by
  cases e with
  | complete k status now now' =>
    intro i hi
    rw [Stats.written, h] at hi
    cases hi
  | _ => trivial

theorem ioworkerStep_no_table (hs : ioworkerStep w e = some w')
    (h : w.stats.ioCounterPerSecond = none) : w'.stats.ioCounterPerSecond = none := by
  rcases he : e.completedAt with _ | now
  · rw [(ioworkerStep_stats hs (ne_complete_of_completedAt he)).1, h]
  · obtain ⟨k, status, now', rfl⟩ := eq_of_completedAt he
    rcases (ioworkerStep_complete_stats hs).1 with ⟨hst, -⟩ | ⟨hst, -⟩
    · have hw : (w.stats.addOne (w.ioCtx k) now).written now = none := by
        rw [Stats.written_addOne, Stats.written, h]
      rw [hst, Stats.countOne, Stats.nextSecond_of_none hw]
      exact h
    · rw [hst, h]

/-- When a run writes the table in range only: none is kept, or there are not, in order,
    one completion after the end of every second of the time limit and then another one,
    a second later. -/
theorem perSecond_in_range_iff (hargs : args.Admitted) (hstart : env.testStart.Normal)
    {es : List IowEvent}
    (hrun : (ioworkerMachine env args).run (ioworkerStart env args) es = some w) :
    (ioworkerMachine env args).Admits (WritesBelow args.seconds) (ioworkerStart env args) es ↔
      args.ioCounterPerSecond = none ∨
        ¬LateCompletions env.testStart (args.seconds + 1) (es.filterMap IowEvent.completedAt) := by
  obtain ⟨hstats, -⟩ := ioworkerStart_stats env args
  rcases htable : args.ioCounterPerSecond with _ | c
  · refine iff_of_true ?_ (.inl rfl)
    refine Machine.admits_of_invariant (I := fun w => w.stats.ioCounterPerSecond = none) ?_
      (fun w e w' h hs => ioworkerStep_no_table hs h) fun e _ w h => writesBelow_of_no_table h
    rw [hstats]
    exact htable
  · have hslots : SlotsOf env.testStart [] (ioworkerStart env args).stats := by
      rw [hstats]
      exact ioworkerInitStats_slotsOf hstart (by rw [htable, Option.isSome_some])
    have hle : (ioworkerStart env args).stats.lastSec ≤ args.seconds := by
      rw [hstats]
      exact Nat.zero_le _
    have hseconds := hargs.seconds_le
    rw [hslots.admits_iff hstart (by omega) hle hrun, List.nil_append, lateCompletions_iff,
      or_iff_right (Option.some_ne_none c), Nat.not_le, Nat.lt_succ_iff]

/-! ### A worker that is late -/

/-- The parameters of a worker with two IOs at a time and a limit of one second. -/
def oneSecond : PyArgs :=
  { lbaRandom := .bool false, qdepth := 3, time := 1, outputIoPerSecond := true }

/-- Its arguments. -/
def oneSecondArgs : Args :=
  { readOnceArgs with
    ioCount := 0
    seconds := 1
    qdepth := 3
    ioCounterPerSecond := some fun _ => 0 }

theorem oneSecondArgs_admitted : oneSecondArgs.Admitted := ⟨2, oneSecond, _, rfl, rfl⟩

/-- Both IOs complete two seconds after the time limit. -/
def lateRun : List IowEvent :=
  iteration 2 ⟨0, 0, 0, 0, 0⟩ 0 [] ++ iteration 2 ⟨0, 0, 0, 0, 0⟩ 0 [] ++
    iteration 4 ⟨0, 0, 0, 0, 0⟩ 0 [0, 1] ++ [.leave]

/-- The table of one slot is written at the index 1. -/
theorem perSecond_out_of_range :
    ∃ w, (ioworkerMachine (plainEnv 64) oneSecondArgs).run
        (ioworkerStart (plainEnv 64) oneSecondArgs) lateRun = some w ∧
      w.pc = .exited 0 ∧ w.g.lastSec = 2 ∧
      ¬(ioworkerMachine (plainEnv 64) oneSecondArgs).Admits (WritesBelow 1)
        (ioworkerStart (plainEnv 64) oneSecondArgs) lateRun := by
  have hrun : ((ioworkerMachine (plainEnv 64) oneSecondArgs).run
      (ioworkerStart (plainEnv 64) oneSecondArgs) lateRun).map (fun w => (w.pc, w.g.lastSec)) =
        some (.exited 0, 2) := rfl
  obtain ⟨w, hw, hf⟩ := Option.map_eq_some_iff.1 hrun
  obtain ⟨hpc, hlast⟩ := Prod.mk.inj hf
  refine ⟨w, hw, hpc, hlast, ?_⟩
  have hslots : SlotsOf (plainEnv 64).testStart []
      (ioworkerStart (plainEnv 64) oneSecondArgs).stats := ⟨rfl, rfl, rfl⟩
  rw [hslots.admits_iff (by decide) (by decide) (by decide) hw]
  decide

/-- Both IOs complete in time. -/
theorem perSecond_in_range_in_time :
    (ioworkerMachine (plainEnv 64) oneSecondArgs).Admits (WritesBelow 1)
      (ioworkerStart (plainEnv 64) oneSecondArgs)
      (iteration 2 ⟨0, 0, 0, 0, 0⟩ 0 [] ++ iteration 2 ⟨0, 0, 0, 0, 0⟩ 0 [0, 1]) := by
  have hrun : ∃ w, (ioworkerMachine (plainEnv 64) oneSecondArgs).run
      (ioworkerStart (plainEnv 64) oneSecondArgs)
      (iteration 2 ⟨0, 0, 0, 0, 0⟩ 0 [] ++ iteration 2 ⟨0, 0, 0, 0, 0⟩ 0 [0, 1]) = some w :=
    ⟨_, rfl⟩
  obtain ⟨w, hw⟩ := hrun
  refine (perSecond_in_range_iff oneSecondArgs_admitted (by decide) hw).2 (.inr ?_)
  rw [lateCompletions_iff]
  decide

/-! ### The seconds of the completions -/

/-- The number of the completions in the second `s` after the start, its end included. -/
def completedIn (start : Timeval) (times : List Timeval) (s : Nat) : Nat :=
  times.countP fun t => t.gt (start.after s) && !t.gt (start.after (s + 1))

/-- The number of the completions until `n` seconds after the start. -/
def completedUntil (start : Timeval) (times : List Timeval) (n : Nat) : Nat :=
  times.countP fun t => !t.gt (start.after n)

/-- How many of the completions after the second `s` are spent on the slots before its own
    is closed. -/
def lag (start : Timeval) (times : List Timeval) : Nat → Nat
  | 0 => 0
  | s + 1 => lag start times s + 1 - completedIn start times (s + 1)

/-- The number of the completions when `n` slots are closed. -/
def closing (start : Timeval) (times : List Timeval) : Nat → Nat
  | 0 => 0
  | s + 1 => completedUntil start times (s + 1) + lag start times s + 1

/-- The times do not go back. -/
def NonDecreasing (times : List Timeval) : Prop := times.Pairwise fun a b => a.gt b = false

theorem Timeval.gt_of_after {t : Timeval} {m n : Nat} (hle : m ≤ n)
    (h : t.gt (start.after n) = true) : t.gt (start.after m) = true := by
  rw [Timeval.gt_iff, Timeval.after] at h ⊢
  dsimp only at h ⊢
  omega

theorem Timeval.gt_of_not_gt {a b c : Timeval} (hab : a.gt b = false) (h : a.gt c = true) :
    b.gt c = true := by
  rw [← Bool.not_eq_true, Timeval.gt_iff] at hab
  rw [Timeval.gt_iff] at h ⊢
  omega

theorem completedUntil_succ (start : Timeval) (times : List Timeval) (s : Nat) :
    completedUntil start times (s + 1) =
      completedUntil start times s + completedIn start times s := by
  induction times with
  | nil => rfl
  | cons t times ih =>
    have hafter : t.gt (start.after (s + 1)) = true → t.gt (start.after s) = true :=
      Timeval.gt_of_after (Nat.le_succ s)
    simp only [completedUntil, completedIn, List.countP_cons] at ih ⊢
    rcases h : t.gt (start.after (s + 1)) <;> rcases h' : t.gt (start.after s) <;>
      simp [h, h'] at hafter ⊢ <;> omega

/-- A slot is closed by the first completion after the end of its second, but at most one
    by a completion. -/
theorem closing_succ (start : Timeval) (times : List Timeval) (n : Nat) :
    closing start times (n + 1) =
      max (closing start times n) (completedUntil start times (n + 1)) + 1 := by
  rcases n with _ | s
  · simp [closing, lag]
  · have huntil := completedUntil_succ start times (s + 1)
    simp only [closing, lag]
    omega

variable (start) in
theorem gt_after_iff {times : List Timeval} (h : NonDecreasing times) {n : Nat}
    (hn : n < times.length) (m : Nat) :
    times[n].gt (start.after m) = true ↔ completedUntil start times m ≤ n := by
  have hpair : times.Pairwise fun a b =>
      (!b.gt (start.after m)) = true → (!a.gt (start.after m)) = true := by
    refine h.imp fun {a b} hab hb => ?_
    by_contra ha
    rw [Timeval.gt_of_not_gt hab (by simpa using ha)] at hb
    cases hb
  have hiff := getElem_iff_lt_countP hpair hn
  rw [← Nat.not_lt, completedUntil, ← hiff]
  simp

/-- The statistics after the first `n` of the completions at `times`. -/
structure Closed (start : Timeval) (times : List Timeval) (n : Nat) (s : Stats) : Prop where
  count : s.count = n
  table : ∀ c ∈ s.ioCounterPerSecond, ∀ i < s.lastSec,
    c i = u32 (closing start times (i + 1) - closing start times i)
  till : s.ioCountTillLastSec = closing start times s.lastSec
  lower : closing start times s.lastSec ≤ n
  upper : n < closing start times (s.lastSec + 1)

theorem Closed.countOne {times : List Timeval} {n : Nat} {s : Stats} (h : Closed start times n s)
    (hs : SlotsOf start (times.take n) s) (htimes : NonDecreasing times) (hn : n < times.length)
    (hlt : s.lastSec + 1 < 2 ^ 32) (ctx : IoCtx) :
    Closed start times (n + 1) (s.countOne ctx times[n]) := by
  have hcount : (s.addOne ctx times[n]).count = n + 1 := by rw [Stats.count_addOne, h.count]
  have hgt := gt_after_iff start htimes hn (s.lastSec + 1)
  have hclosing := closing_succ start times s.lastSec
  have hlower := h.lower
  have hupper := h.upper
  rw [← hs.next] at hgt
  rw [Stats.countOne]
  rcases hw : (s.addOne ctx times[n]).written times[n] with _ | i
  -- The slot stays open: there are more completions in its second.
  · rw [Stats.nextSecond_of_none hw]
    have huntil : n < completedUntil start times (s.lastSec + 1) := by
      by_contra hle
      obtain ⟨c, hc⟩ := Option.isSome_iff_exists.1 hs.table
      rw [Stats.written_addOne, Stats.written, hc] at hw
      dsimp only at hw
      rw [if_pos (hgt.2 (Nat.le_of_not_lt hle))] at hw
      cases hw
    refine ⟨hcount, h.table, h.till, Nat.le_succ_of_le hlower, ?_⟩
    change n + 1 < closing start times (s.lastSec + 1)
    omega
  -- The slot is closed: this is the first completion after it.
  · obtain ⟨rfl, hlate, c, hc, heq⟩ := Stats.nextSecond_of_some hw
    have huntil : completedUntil start times (s.lastSec + 1) ≤ n := hgt.1 hlate
    have hlast : closing start times (s.lastSec + 1) = n + 1 := by omega
    rw [heq, hcount]
    dsimp only [Stats.addOne]
    rw [u32_of_lt hlt]
    refine ⟨hcount, ?_, hlast.symm, hlast.le, ?_⟩
    · intro c' hc' i hi
      obtain rfl := Option.some.inj hc'
      rcases eq_or_ne i s.lastSec with rfl | hne
      · rw [Function.update_self, hlast, ← h.till]
      · rw [Function.update_of_ne hne]
        exact h.table c hc i (by dsimp only at hi; omega)
    · have hnext := closing_succ start times (s.lastSec + 1)
      dsimp only
      omega

theorem closing_strictMono (start : Timeval) (times : List Timeval) :
    StrictMono (closing start times) :=
  strictMono_nat_of_lt_succ fun n => by
    rw [closing_succ]
    omega

/-- The statistics after all the completions, if these do not overrun the table. -/
theorem closed_of_reachable {P : Worker → IowEvent → Prop} (hargs : args.Admitted)
    (hstart : env.testStart.Normal) (htable : args.ioCounterPerSecond.isSome)
    (h : (ioworkerMachine env args).Reachable P w)
    (htimes : NonDecreasing (w.completions.map Completion.now))
    (hrange : ¬LateCompletions env.testStart (args.seconds + 1)
      (w.completions.map Completion.now)) :
    SlotsOf env.testStart (w.completions.map Completion.now) w.stats ∧
      Closed env.testStart (w.completions.map Completion.now) w.completions.length w.stats := by
  -- All prefixes of the completions, with the slots of the whole of them.
  suffices hI : ∀ times, w.completions.map Completion.now <+: times → NonDecreasing times →
      ¬LateCompletions env.testStart (args.seconds + 1) times →
      SlotsOf env.testStart (w.completions.map Completion.now) w.stats ∧
        Closed env.testStart times w.completions.length w.stats from
    hI _ (List.prefix_refl _) htimes hrange
  have hseconds := hargs.seconds_le
  refine stats_of_reachable (I := fun s l => ∀ times, l.map Completion.now <+: times →
    NonDecreasing times → ¬LateCompletions env.testStart (args.seconds + 1) times →
    SlotsOf env.testStart (l.map Completion.now) s ∧
      Closed env.testStart times l.length s) h ?_ ?_
  · intro times _ _ _
    refine ⟨ioworkerInitStats_slotsOf hstart htable, rfl, ?_, rfl, Nat.le_refl 0, ?_⟩
    · exact fun c _ i hi => absurd hi (Nat.not_lt_zero i)
    · exact Nat.succ_pos _
  · intro s l ctx c hI times hpre htimes hrange
    rw [List.map_append] at hpre
    obtain ⟨hslots, hclosed⟩ := hI times ((List.prefix_append _ _).trans hpre) htimes hrange
    obtain ⟨rest, rfl⟩ := hpre
    have hlen : l.length = (l.map Completion.now).length := (List.length_map _).symm
    have hlast : s.lastSec ≤ args.seconds := by
      rw [lateCompletions_iff, Nat.not_le, List.append_assoc] at hrange
      have hle : slotsClosed env.testStart (l.map Completion.now) ≤
          slotsClosed env.testStart (l.map Completion.now ++
            ([c].map Completion.now ++ rest)) := levels_le_append
      have := hslots.lastSec
      omega
    refine ⟨?_, ?_⟩
    · rw [List.map_append]
      exact hslots.countOne hstart (by omega) ctx c.now
    · have hn : l.length < (l.map Completion.now ++ [c].map Completion.now ++ rest).length := by
        simp
      have hget : (l.map Completion.now ++ [c].map Completion.now ++ rest)[l.length] = c.now := by
        simp
      have htake : (l.map Completion.now ++ [c].map Completion.now ++ rest).take l.length =
          l.map Completion.now := by
        rw [List.append_assoc, List.take_left' hlen.symm]
      have hc := hclosed.countOne (by rwa [htake]) htimes hn (by omega) ctx
      rw [hget] at hc
      rwa [List.length_append, List.length_singleton]

/-- The slots differ by at most one from the numbers of the completions in their seconds. -/
def Attributed (start : Timeval) (times : List Timeval) (s : Stats) : Prop :=
  ∀ c ∈ s.ioCounterPerSecond, ∀ i < s.lastSec,
    c i ≤ completedIn start times i + 1 ∧ completedIn start times i ≤ c i + 1

/-- The second `s` has at most two completions, unless its slot was opened by the first or
    the second of them; a slot has 32 bits. -/
def InStep (start : Timeval) (times : List Timeval) : Nat → Prop
  | 0 => completedIn start times 0 + 1 < 2 ^ 32
  | s + 1 => (completedIn start times (s + 1) ≤ 2 ∨ lag start times s ≤ 1) ∧
      completedIn start times (s + 1) < 2 ^ 32 + lag start times s

theorem inStep_iff {times : List Timeval} (hafter : ∀ t ∈ times, t.gt start = true) (s : Nat) :
    (u32 (closing start times (s + 1) - closing start times s) ≤ completedIn start times s + 1 ∧
      completedIn start times s ≤
        u32 (closing start times (s + 1) - closing start times s) + 1) ↔
      InStep start times s := by
  have huntil := completedUntil_succ start times s
  rcases s with _ | s
  · have hzero : completedUntil start times 0 = 0 := by
      refine List.countP_eq_zero.2 fun t ht => ?_
      have h0 : start.after 0 = start := by simp [Timeval.after]
      simp [h0, hafter t ht]
    rw [InStep, closing, closing, lag, u32]
    omega
  · rw [InStep, closing, closing, lag, u32]
    omega

/-- When the slots of a worker whose table is not overrun show the completions of their
    seconds: the completions that close the slots of a stall are at most one of a second
    with more than two. -/
theorem perSecond_attributed_iff (hargs : args.Admitted) (hstart : env.testStart.Normal)
    (htable : args.ioCounterPerSecond.isSome)
    (h : (ioworkerMachine env args).Reachable (fun _ _ => True) w)
    (htimes : NonDecreasing (w.completions.map Completion.now))
    (hafter : ∀ t ∈ w.completions.map Completion.now, t.gt env.testStart = true)
    (hrange : ¬LateCompletions env.testStart (args.seconds + 1)
      (w.completions.map Completion.now)) :
    Attributed env.testStart (w.completions.map Completion.now) w.stats ↔
      ∀ s, closing env.testStart (w.completions.map Completion.now) (s + 1) ≤
        w.completions.length → InStep env.testStart (w.completions.map Completion.now) s := by
  obtain ⟨hslots, hclosed⟩ := closed_of_reachable hargs hstart htable h htimes hrange
  obtain ⟨c, hc⟩ := Option.isSome_iff_exists.1 hslots.table
  have hmono := closing_strictMono env.testStart (w.completions.map Completion.now)
  have hlt : ∀ s, s < w.stats.lastSec ↔
      closing env.testStart (w.completions.map Completion.now) (s + 1) ≤ w.completions.length :=
    fun s => ⟨fun hs => (hmono.monotone hs).trans hclosed.lower,
      fun hle => Nat.succ_lt_succ_iff.1 (hmono.lt_iff_lt.1 (hle.trans_lt hclosed.upper))⟩
  rw [Attributed, hc]
  simp only [Option.mem_def, Option.some.injEq, forall_eq', ← hlt, ← inStep_iff hafter]
  refine forall₂_congr fun s hs => ?_
  rw [hclosed.table c hc s hs]

/-! ### A worker that stalls -/

/-- The parameters of a worker with six IOs. -/
def sixReads : PyArgs :=
  { lbaRandom := .bool false, qdepth := 7, time := 10, ioCount := 6, outputIoPerSecond := true }

/-- Its arguments. -/
def sixReadsArgs : Args :=
  { readOnceArgs with
    ioCount := 6
    seconds := 10
    qdepth := 7
    ioCounterPerSecond := some fun _ => 0 }

theorem sixReadsArgs_admitted : sixReadsArgs.Admitted := ⟨6, sixReads, _, rfl, rfl⟩

/-- After three seconds without a completion, five in the next one, and then the last. -/
def stalledRun : List IowEvent :=
  (List.replicate 6 (iteration 2 ⟨0, 0, 0, 0, 0⟩ 0 [])).flatten ++
    iteration 5 ⟨0, 0, 0, 0, 0⟩ 0 [0, 1, 2, 3, 4] ++ iteration 6 ⟨0, 0, 0, 0, 0⟩ 0 [5] ++ [.leave]

/-- Three of the five completions are in the slots of the seconds without any. -/
theorem perSecond_stalled :
    ∃ w, (ioworkerMachine (plainEnv 64) sixReadsArgs).Reachable (fun _ _ => True) w ∧
      w.pc = .exited 0 ∧ NonDecreasing (w.completions.map Completion.now) ∧ 3 < w.g.lastSec ∧
      completedIn (plainEnv 64).testStart (w.completions.map Completion.now) 3 = 5 ∧
      w.args.ioCounterPerSecond.map (· 3) = some 3 := by
  have hstart : (ioworkerMachine (plainEnv 64) sixReadsArgs).Reachable (fun _ _ => True) _ :=
    .init rfl
  obtain ⟨w, hw, hf⟩ := hstart.exists_run
    (f := fun w => (w.pc, w.completions.map Completion.now, w.g.lastSec,
      w.args.ioCounterPerSecond.map (· 3)))
    (t := (.exited 0, [⟨5, 0⟩, ⟨5, 0⟩, ⟨5, 0⟩, ⟨5, 0⟩, ⟨5, 0⟩, ⟨6, 0⟩], 4, some 3))
    stalledRun (Machine.admits_of_forall (by simp) _) rfl
  simp only [Prod.mk.injEq] at hf
  obtain ⟨hpc, htimes, hlast, hcounter⟩ := hf
  refine ⟨w, hw, hpc, ?_, by omega, ?_, hcounter⟩
  · rw [htimes, NonDecreasing]
    decide
  · rw [htimes]
    decide

/-- The IOs complete in three seconds, without a stall. -/
theorem perSecond_attributed_steady :
    ∃ w, (ioworkerMachine (plainEnv 64) sixReadsArgs).Reachable (fun _ _ => True) w ∧
      w.g.lastSec = 2 ∧
      Attributed (plainEnv 64).testStart (w.completions.map Completion.now) w.stats := by
  have hstart : (ioworkerMachine (plainEnv 64) sixReadsArgs).Reachable (fun _ _ => True) _ :=
    .init rfl
  obtain ⟨w, hw, hf⟩ := hstart.exists_run
    (f := fun w => (w.completions.map Completion.now, w.g.lastSec))
    (t := ([⟨2, 0⟩, ⟨2, 0⟩, ⟨2, 0⟩, ⟨3, 0⟩, ⟨3, 0⟩, ⟨4, 0⟩], 2))
    ((List.replicate 6 (iteration 2 ⟨0, 0, 0, 0, 0⟩ 0 [])).flatten ++
      iteration 2 ⟨0, 0, 0, 0, 0⟩ 0 [0, 1, 2] ++ iteration 3 ⟨0, 0, 0, 0, 0⟩ 0 [3, 4] ++
      iteration 4 ⟨0, 0, 0, 0, 0⟩ 0 [5])
    (Machine.admits_of_forall (by simp) _) rfl
  obtain ⟨htimes, hlast⟩ := Prod.mk.inj hf
  refine ⟨w, hw, hlast, ?_⟩
  refine (perSecond_attributed_iff sixReadsArgs_admitted (by decide) rfl hw ?_ ?_ ?_).2 ?_
  · rw [htimes, NonDecreasing]
    decide
  · rw [htimes]
    decide
  · rw [htimes, lateCompletions_iff]
    decide
  · have hlen : w.completions.length = 6 := by
      have := congrArg List.length htimes
      simpa using this
    rw [htimes, hlen]
    intro s hs
    have hs2 : s < 2 := by
      by_contra hge
      have hmono := (closing_strictMono (plainEnv 64).testStart
        [⟨2, 0⟩, ⟨2, 0⟩, ⟨2, 0⟩, ⟨3, 0⟩, ⟨3, 0⟩, ⟨4, 0⟩]).monotone (show 3 ≤ s + 1 by omega)
      exact absurd (hmono.trans hs) (by decide)
    rcases s with _ | _ | s
    · rw [InStep]
      decide
    · rw [InStep]
      decide
    · omega

end Pynvme
