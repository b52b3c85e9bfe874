import Pynvme.Ioworker.Lba
import Pynvme.Ioworker.Accounting
import Pynvme.Lib.Rounds

/-!
# Sequential workloads

A sequential workload goes round its region: an IO starts where the one before ended,
and at the start of the region after one that ended with the region. The cursor of the
worker is moved by the size that was drawn, not by that of the IO, which is truncated
at the end of the region; the next IO finds the cursor beyond the end and starts anew,
unless the cursor has wrapped in 64 bits before (`ioworker_sequential_wraps`).

`ioworker_sequential`: in the runs whose cursor does not wrap, or wraps to the start of
the region, the IOs from one visit of the start of the region to the next tile it; and
when the count of the IOs is that of `fillCount`, all the IOs together tile it.
-/

namespace Pynvme

open Word Multiple

variable {env : Env} {args : Args} {w w' : Worker} {d : Draws} {p : Prepared} {e : LbaSize}
  {c k : Nat} {now : Timeval} {table : Nat → BitVec 32} {rc : Int}

/-! ### The cursor -/

theorem roundUp_one (n : Nat) : roundUp n 1 = n := by
  rw [roundUp, if_pos (Nat.mod_one n)]

theorem fit_one {n : Nat} (h : c < n) : fit n c 1 = c := by
  rw [fit, roundUp_one, if_pos h]

theorem alignUp_one (n : Nat) : alignUp n 1 = n := by
  rw [alignUp, if_neg (not_not.2 (Nat.mod_one n))]

/-- The arguments of a sequential workload. -/
structure Args.Sequential (env : Env) (args : Args) : Prop where
  valid : args.Valid
  sequence : args.ioSequence = none
  random : args.lbaRandom = 0
  step : args.lbaStepValid = false
  align : ∀ e ∈ args.lbaSizeList, e.align = 1
  start : args.lbaStart ≤ args.regionStart
  nsze : args.regionEnd ≤ env.ns.numSectors

/-- The region is that of the arguments, and no IO is random. -/
theorem Args.Sequential.region (h : args.Sequential env)
    (hw : w.settings = ioworkerSettings env args) :
    w.args.regionStart = args.regionStart ∧ w.args.regionEnd = args.regionEnd ∧
      w.args.lbaStepValid = false ∧ d.isRandom w.args = false := by
  have hc := Configured.of_settings hw
  obtain ⟨e, he, hmax⟩ := h.valid.alignMax
  refine ⟨?_, ?_, hc.lbaStepValid.trans h.step, ?_⟩
  · rw [hc.regionStart, ← hmax, h.align e he, alignUp_one]
  · rw [hc.regionEnd, Nat.min_eq_right h.nsze]
  · rw [Draws.isRandom, Worker.lbaRandom_eq hw, h.random]
    exact decide_eq_false (Nat.not_lt_zero _)

/-- The rule that the cursor does not wrap, or wraps to the start of the region. -/
def CursorFits (w : Worker) : IowEvent → Prop
  | .send _ _ d _ _ _ => ∀ size a, ioworkerSendOneSize w.args w.g d = .ok (size, a) →
      w.cursor + size < 2 ^ 64 ∨ w.cursor + size = 2 ^ 64 + w.args.regionStart
  | _ => True

/-- What is sent of a sequential workload: from the cursor on, what was drawn of the region
    that is left. -/
structure SendsNext (args : Args) (w w' : Worker) (p : Prepared) : Prop where
  size : ∃ e ∈ args.lbaSizeList, e.size = p.size
  lba : p.io.lba = w.cursor
  lt : w.cursor < args.regionEnd
  count : p.io.count = min p.size (args.regionEnd - w.cursor)
  cursor : w'.cursor = wrap args.regionStart args.regionEnd (w.cursor + p.io.count)

theorem Sends.next (h : Sends w w' k now table d p rc) (hs : args.Sequential env)
    (hw : w.settings = ioworkerSettings env args)
    (hun : ∀ lba < w.env.ns.numSectors, table lba ≠ uncorrCrc)
    (hfits : ∀ size a, ioworkerSendOneSize w.args w.g d = .ok (size, a) →
      w.cursor + size < 2 ^ 64 ∨ w.cursor + size = 2 ^ 64 + w.args.regionStart) :
    SendsNext args w w' p := by
  have hc := Configured.of_settings hw
  obtain ⟨hstart, hend, hstep, hrandom⟩ := hs.region (d := d) hw
  have hregion := hs.valid.region
  have hover : ∀ size a, ioworkerSendOneSize w.args w.g d = .ok (size, a) →
      roundUp (w.args.regionEnd - 1) a < 2 ^ 64 := by
    intro size a hsize
    obtain ⟨e, he, -, rfl⟩ := hc.size_mem hs.valid hsize
    rw [hs.align e he, roundUp_one]
    omega
  obtain ⟨e, he, c, hdrawn⟩ := hc.drawn hs.valid hs.sequence (by omega) (hc.env_eq ▸ hun) hover
    h.prepared
  obtain rfl := hdrawn.sequential hrandom
  have hlt := hdrawn.raw_lt
  have hlba : p.io.lba = w.cursor := by rw [hdrawn.lba, hs.align e he, fit_one hlt]
  have hsize := hs.valid.size e he
  -- The count, which is truncated at the end of the region.
  have hcount : p.io.count = min p.size (args.regionEnd - w.cursor) := by
    obtain ⟨a, raw, lba, opIndex, op, -, -, -, -, hio⟩ := ioworkerSendOnePrepare_eq_ok h.prepared
    rw [ioworkerReplayOne, hc.ioSequence, hs.sequence] at hio
    obtain ⟨-, hlba', hcount, -⟩ := ioworkerSendOneIo_eq_ok hio
    dsimp only at hlba' hcount
    have hu : u64 (w.args.regionEnd + 2 ^ 64 - lba) = w.args.regionEnd - lba := by
      rw [u64]
      omega
    rw [hcount, hu, u32_of_lt (by have := hdrawn.size; omega), ← hlba', hlba, hend]
  refine ⟨⟨e, he, hdrawn.size.symm⟩, hlba, hend ▸ hlt, hcount, ?_⟩
  -- The cursor of the next IO.
  have hargs : w'.args.regionStart = w.args.regionStart ∧ w'.args.regionEnd = w.args.regionEnd :=
    ⟨(congrArg (fun s => s.args.regionStart) h.settings :),
      (congrArg (fun s => s.args.regionEnd) h.settings :)⟩
  have hseq : w'.g.sequentialLba = u64 (w.cursor + p.size) := by
    have hcursor : w'.g.sequentialLba = p.sequentialLba := congrArg Control.sequentialLba h.control
    rw [hcursor, hdrawn.cursor, hrandom, if_neg Bool.false_ne_true, nextSequentialLba, hstep,
      if_neg Bool.false_ne_true, hlba, u16_of_lt (by have := hdrawn.size; omega)]
  have hfit := hfits _ _ hdrawn.entry
  rw [← hdrawn.size] at hfit
  rw [Worker.cursor, hseq, hargs.1, hargs.2, hstart, hend, hcount, wrap]
  rw [hstart] at hfit
  rw [hend] at hlt
  rw [u64]
  split_ifs <;> omega

/-! ### The runs -/

/-- The intervals of the LBAs that the IOs cover. -/
def Worker.intervals (w : Worker) : List (Nat × Nat) :=
  w.issued.map fun x => (x.1.io.lba, x.1.io.count)

/-- The IOs of a sequential workload go round the region. -/
structure GoesRound (env : Env) (args : Args) (w : Worker) : Prop where
  settings : w.settings = ioworkerSettings env args
  follows : Follows (wrap args.regionStart args.regionEnd) args.regionStart w.intervals w.cursor
  sizes : ∀ x ∈ w.intervals, ∃ e ∈ args.lbaSizeList,
    x.2 = min e.size (args.regionEnd - x.1) ∧ x.1 < args.regionEnd

theorem Starts.goesRound (h : Starts env args w) (hs : args.Sequential env) :
    GoesRound env args w := by
  have hnil : w.intervals = [] := by rw [Worker.intervals, h.issued, List.map_nil]
  obtain ⟨hstart, hend, -⟩ := hs.region (d := ⟨0, 0, 0, 0, 0⟩) h.settings
  refine ⟨h.settings, ?_, by simp [hnil]⟩
  have hlba : w.g.sequentialLba = args.regionStart := by
    obtain ⟨m, hm⟩ := ioworkerSizeArgs_eq env args
    have hcursor : w.g.sequentialLba = w.args.lbaStart := congrArg Control.sequentialLba h.control
    rw [h.args_eq, hm] at hstart hcursor
    rw [hcursor]
    simp only [ioworkerReviseArgs] at hstart ⊢
    have hle := hs.start
    split_ifs <;> omega
  have hlt : w.g.sequentialLba < w.args.regionEnd := by
    rw [hlba, hend]
    exact hs.valid.region.1
  rw [hnil, Worker.cursor, if_pos hlt, hlba]
  rfl

theorem GoesRound.sends (hw : GoesRound env args w) (h : Sends w w' k now table d p rc)
    (hn : SendsNext args w w' p) : GoesRound env args w' := by
  have hintervals : w'.intervals = w.intervals ++ [(p.io.lba, p.io.count)] := by
    rw [Worker.intervals, h.issued, List.map_append]
    rfl
  refine ⟨h.settings.trans hw.settings, ?_, ?_⟩
  · rw [hintervals, hn.cursor, ← hn.lba]
    exact hw.follows.concat hn.lba
  · rw [hintervals, List.forall_mem_append, List.forall_mem_singleton]
    obtain ⟨e, he, hsize⟩ := hn.size
    exact ⟨hw.sizes, e, he, by rw [hn.count, hn.lba, hsize], hn.lba ▸ hn.lt⟩

/-- A step that does not send keeps the cursor. -/
theorem GoesRound.of_eq (hw : GoesRound env args w) (hset : w'.settings = w.settings)
    (hissued : w'.issued = w.issued) (hlba : w'.g.sequentialLba = w.g.sequentialLba) :
    GoesRound env args w' := by
  have hintervals : w'.intervals = w.intervals := by
    rw [Worker.intervals, hissued, Worker.intervals]
  have hcursor : w'.cursor = w.cursor := by
    have hstart : w'.args.regionStart = w.args.regionStart :=
      (congrArg (fun s => s.args.regionStart) hset :)
    have hend : w'.args.regionEnd = w.args.regionEnd :=
      (congrArg (fun s => s.args.regionEnd) hset :)
    rw [Worker.cursor, Worker.cursor, hlba, hstart, hend]
  refine ⟨hset.trans hw.settings, ?_, ?_⟩
  · rw [hintervals, hcursor]
    exact hw.follows
  · rw [hintervals]
    exact hw.sizes

theorem goesRound_of_reachable (hs : args.Sequential env)
    (h : (ioworkerMachine env args).Reachable (fun w e => NoUncorr w e ∧ CursorFits w e) w) :
    Refuses w ∨ GoesRound env args w := by
  refine ioworker_invariant hs.valid.qdepth_lt h (fun w hw => hw.goesRound hs) ?_ ?_ ?_
  · exact fun w w' k now table d p rc timeSent after hw hP hsends =>
      hw.sends hsends (hsends.next hs hw.settings hP.1 hP.2)
  · exact fun w w' k status now now' n hw _ _ _ _ hc =>
      hw.of_eq hc.settings hc.issued (congrArg Control.sequentialLba hc.control)
  · exact fun w w' e hw _ hm =>
      hw.of_eq hm.settings hm.issued (congrArg Control.sequentialLba hm.control)

/-! ### The count of one pass -/

/-- Every IO passed to `ns_cmd_io` has completed, or is in flight, or its submission failed. -/
theorem issued_length_of_reachable (hargs : args.Valid) {P : Worker → IowEvent → Prop}
    (h : (ioworkerMachine env args).Reachable P w) :
    w.issued.length = w.completions.length + w.inFlight.length + w.lost.length := by
  have hor : Refuses w ∨
      w.issued.length = w.completions.length + w.inFlight.length + w.lost.length := by
    refine ioworker_invariant (I := fun w => w.issued.length =
      w.completions.length + w.inFlight.length + w.lost.length) hargs.qdepth_lt h ?_ ?_ ?_ ?_
    · intro w hw
      simp [hw.issued, hw.completions, hw.inFlight, hw.lost]
    · intro w w' k now table d p rc timeSent after hw _ hs
      rw [hs.issued, hs.completions, hs.inFlight, hs.lost, List.length_append, hw]
      split_ifs <;> simp only [List.length_append, List.length_singleton] <;> omega
    · intro w w' k status now now' n hw _ hk _ _ hc
      have hpos := List.length_pos_of_mem hk
      rw [hc.issued, hc.completions, hc.inFlight, hc.lost, List.length_append, hw,
        List.length_singleton, List.length_erase_of_mem hk]
      omega
    · intro w w' e hw _ hm
      rw [hm.issued, hm.completions, hm.inFlight, hm.lost, hw]
  rcases hor with hr | hw
  · simp [hr.issued, hr.completions, hr.inFlight, hr.lost]
  · exact hw

/-- Intervals of the length `n`, or of all of `l` if that is shorter, cover `l` with the number of
    `n` in `l`, rounded up, and not with one less. -/
theorem fill_bounds {l n : Nat} (hl : 0 < l) (hn : 0 < n) :
    min n l * ((l + n - 1) / n - 1) < l ∧ l ≤ min n l * ((l + n - 1) / n) ∧
      0 < (l + n - 1) / n := by
  rcases Nat.lt_or_ge l n with hlt | hge
  · have hone : (l + n - 1) / n = 1 := Nat.div_eq_of_lt_le (by omega) (by omega)
    rw [hone, Nat.min_eq_right (by omega)]
    omega
  · have hpos : 0 < (l + n - 1) / n := Nat.div_pos (by omega) hn
    have hle := Nat.mul_div_le (l + n - 1) n
    have hlt := Nat.lt_mul_div_succ (l + n - 1) hn
    rw [Nat.min_eq_left hge, Nat.mul_sub_one]
    rw [Nat.mul_succ] at hlt
    have hn' : n ≤ n * ((l + n - 1) / n) := Nat.le_mul_of_pos_right n hpos
    omega

/-- All the sizes are that of the parameter, clipped to the region. -/
theorem fill_sizes {mqes : Nat} {q : PyArgs} {params : WorkerParams} {n : Int}
    (hparams : Namespace.ioworker mqes q = .ok params) (hargs : ioworkerArgs params = .ok args)
    (hsize : q.ioSize = .int n) :
    ∀ e ∈ args.lbaSizeList, (e.size : Int) = min n (q.regionEnd - q.regionStart) := by
  intro e he
  have hsizes := (Namespace.ioworker_from hparams).sizes
  rw [sizeDict, hsize] at hsizes
  obtain ⟨a, hmem, hae⟩ := Except.exists_of_mapM (ioworkerArgs_converted hargs).sizes he
  have hfst := (List.of_mem_zip hmem).1
  rw [← Except.ok.inj hsizes, List.mem_singleton] at hfst
  rw [← (convertSize_eq_ok hae).1, hfst]

/-- The count with which a fill of the region is started. -/
theorem fill_ioCount {mqes : Nat} {q : PyArgs} {params : WorkerParams} {n : Int}
    (hparams : Namespace.ioworker mqes q = .ok params) (hargs : ioworkerArgs params = .ok args)
    (hrandom : args.lbaRandom = 0) (hsize : q.ioSize = .int n) (htime : q.time = 0)
    (hcount : q.ioCount = 0) (hend : q.regionEnd ≠ 0xffffffffffffffff) (hn : 0 < n) :
    (args.ioCount : Int) = (q.regionEnd - q.regionStart + n - 1) / n := by
  have hp := Namespace.ioworker_from hparams
  have ha := ioworkerArgs_converted hargs
  have hfill := hp.ioCount
  have hzero : (q.lbaRandom.percentage == 0 && q.regionEnd != 0xffffffffffffffff) = true := by
    simp [← hp.random, ha.lbaRandom, hrandom, hend]
  rw [fillCount, hsize, hzero] at hfill
  dsimp only at hfill
  rw [if_pos ⟨htime, hcount⟩, if_neg hn.ne', ha.ioCount] at hfill
  rw [← Except.ok.inj hfill, Int.fdiv_eq_ediv_of_nonneg _ hn.le]

/-- With the count of `fillCount`, the IOs of the one size, but for the last, fill less than the
    region, and all of them fill it. -/
theorem fill_args {mqes : Nat} {q : PyArgs} {params : WorkerParams} {n : Int}
    (hparams : Namespace.ioworker mqes q = .ok params) (hargs : ioworkerArgs params = .ok args)
    (hrandom : args.lbaRandom = 0) (hsize : q.ioSize = .int n) (htime : q.time = 0)
    (hcount : q.ioCount = 0) (hend : q.regionEnd ≠ 0xffffffffffffffff) :
    ∃ size, (∀ e ∈ args.lbaSizeList, e.size = size) ∧
      size * (args.ioCount - 1) < args.regionEnd - args.regionStart ∧
      args.regionEnd - args.regionStart ≤ size * args.ioCount ∧ 0 < args.ioCount := by
  have hp := Namespace.ioworker_from hparams
  have ha := ioworkerArgs_converted hargs
  have hv := ioworkerArgs_valid hp.toChecked hargs
  have hrs := hp.bounds.1.symm.trans ha.regionStart
  have hre := hp.bounds.2.symm.trans ha.regionEnd
  have hregion := hv.region.1
  have hclip := fill_sizes hparams hargs hsize
  have hn : 0 < n := by
    obtain ⟨e, he, -⟩ := hv.sizeMax
    have := hclip e he
    have := hv.size e he
    omega
  have hio := fill_ioCount hparams hargs hrandom hsize htime hcount hend hn
  obtain ⟨m, rfl⟩ := Int.eq_ofNat_of_zero_le hn.le
  have hlen : q.regionEnd - q.regionStart = (args.regionEnd - args.regionStart : Nat) := by omega
  have hdiv : args.ioCount = (args.regionEnd - args.regionStart + m - 1) / m := by
    have hcast : (args.regionEnd - args.regionStart : Nat) + (m : Int) - 1 =
        (args.regionEnd - args.regionStart + m - 1 : Nat) := by omega
    rw [hlen, hcast, ← Int.natCast_ediv] at hio
    exact_mod_cast hio
  obtain ⟨hlt, hle, hpos⟩ := fill_bounds (l := args.regionEnd - args.regionStart) (n := m)
    (by omega) (by omega)
  refine ⟨min m (args.regionEnd - args.regionStart), fun e he => ?_, ?_⟩
  · have := hclip e he
    omega
  · rw [hdiv]
    exact ⟨hlt, hle, hpos⟩

/-- No more IOs are passed to `ns_cmd_io` than asked for, and as many by a worker that returns
    0, without an error or the end of the time. -/
theorem issued_le_of_reachable (hargs : args.Valid) (hseq : args.ioSequence = none)
    (hcount : 0 < args.ioCount) {P : Worker → IowEvent → Prop}
    (h : (ioworkerMachine env args).Reachable P w) :
    w.issued.length ≤ args.ioCount ∧ (w.pc = .exited 0 →
      (∀ c ∈ w.completions, c.status.isError = false ∧ c.now'.gt w.g.dueTime = false) →
      w.issued.length = args.ioCount) := by
  have hlen := issued_length_of_reachable hargs h
  have hlimit : args.limit = args.ioCount := if_neg hcount.ne'
  rcases accounted_of_reachable hargs h with hr | ⟨hw, hio, -, hnone⟩
  · have hpc : w.pc ≠ .exited 0 := by
      rcases hr.pc with ⟨_, hpc⟩ | hpc | hpc <;> simp [hpc]
    exact ⟨by simp [hr.issued], fun h => absurd h hpc⟩
  · have hsent := hw.count
    have hle := hw.le
    have hcompleted := hw.completed
    rw [Worker.contexts, List.length_append, List.length_append] at hsent
    refine ⟨by omega, fun hpc hall => ?_⟩
    obtain ⟨hfin, hnil⟩ := hw.exited hpc
    rw [Worker.contexts, List.append_eq_nil_iff, List.append_eq_nil_iff] at hnil
    obtain ⟨⟨hpending, hflight⟩, hlost⟩ := hnil
    have hall := hw.finish hfin (hnone.trans hseq) hlost hall
    rw [hpending, hflight, hlost] at hsent
    rw [hflight, hlost] at hlen
    simp only [List.length_nil] at hsent hlen
    omega

/-- A sequential workload, whose cursor does not wrap but to the start of the region: the IOs
    start at the start of the region, each where the one before ended, and at the start of
    the region after one that ended with the region. Those from one visit of the start to the
    next tile the region; and if the count is that of one pass, no LBA is covered twice, and
    all are when the worker returns 0, without an error or the end of the time. -/
theorem ioworker_sequential {mqes : Nat} {q : PyArgs} {params : WorkerParams}
    (hparams : Namespace.ioworker mqes q = .ok params) (hargs : ioworkerArgs params = .ok args)
    (hseq : args.ioSequence = none) (hrandom : args.lbaRandom = 0)
    (hstep : args.lbaStepValid = false) (halign : ∀ e ∈ args.lbaSizeList, e.align = 1)
    (hstart : args.lbaStart ≤ args.regionStart) (hnsze : args.regionEnd ≤ env.ns.numSectors)
    (h : (ioworkerMachine env args).Reachable (fun w e => NoUncorr w e ∧ CursorFits w e) w) :
    (∀ x ∈ w.intervals.head?, x.1 = args.regionStart) ∧
    (∀ l₁ x y l₂, w.intervals = l₁ ++ x :: y :: l₂ →
      y.1 = if x.1 + x.2 = args.regionEnd then args.regionStart else x.1 + x.2) ∧
    (∀ l₁ x l₂ y l₃, w.intervals = l₁ ++ (x :: l₂) ++ y :: l₃ →
      x.1 = args.regionStart → y.1 = args.regionStart → (∀ z ∈ l₂, z.1 ≠ args.regionStart) →
      (x :: l₂).Pairwise (fun x y => interval x ∩ interval y = ∅) ∧
        ⋃ z ∈ x :: l₂, interval z = Set.Ico args.regionStart args.regionEnd) ∧
    (∀ n, q.ioSize = .int n → q.time = 0 → q.ioCount = 0 → q.regionEnd ≠ 0xffffffffffffffff →
      w.intervals.Pairwise (fun x y => interval x ∩ interval y = ∅) ∧
      (w.pc = .exited 0 →
        (∀ c ∈ w.completions, c.status.isError = false ∧ c.now'.gt w.g.dueTime = false) →
        ⋃ z ∈ w.intervals, interval z = Set.Ico args.regionStart args.regionEnd)) := by
  have hv := ioworkerArgs_valid (Namespace.ioworker_from hparams).toChecked hargs
  have hs : args.Sequential env := ⟨hv, hseq, hrandom, hstep, halign, hstart, hnsze⟩
  -- Of a refused worker there are no IOs.
  have hor : ∃ c, Follows (wrap args.regionStart args.regionEnd) args.regionStart w.intervals c ∧
      ∀ x ∈ w.intervals, ∃ e ∈ args.lbaSizeList,
        x.2 = min e.size (args.regionEnd - x.1) ∧ x.1 < args.regionEnd := by
    rcases goesRound_of_reachable hs h with hr | hw
    · have hnil : w.intervals = [] := by rw [Worker.intervals, hr.issued, List.map_nil]
      rw [hnil]
      exact ⟨_, rfl, by simp⟩
    · exact ⟨_, hw.follows, hw.sizes⟩
  obtain ⟨c, hfollows, hsizes⟩ := hor
  have hpos : ∀ x ∈ w.intervals, 0 < x.2 := by
    intro x hx
    obtain ⟨e, he, hx2, hlt⟩ := hsizes x hx
    have := hv.size e he
    omega
  refine ⟨?_, ?_, ?_, ?_⟩
  · intro x hx
    obtain ⟨l, hl⟩ := List.head?_eq_some_iff.1 hx
    rw [hl] at hfollows
    exact hfollows.1
  · intro l₁ x y l₂ hl
    rw [hl] at hfollows
    obtain ⟨m, -, -, hy, -⟩ := follows_append.1 hfollows
    exact hy
  · intro l₁ x l₂ y l₃ hl hx hy hvisit
    rw [hl, follows_append] at hfollows
    obtain ⟨m, hfollows, hm, -⟩ := hfollows
    obtain ⟨m', -, hround⟩ := follows_append.1 hfollows
    obtain rfl : m' = args.regionStart := hround.1.symm.trans hx
    obtain rfl : m = args.regionStart := hm.symm.trans hy
    have htiles := hround.tiles_round (Nat.le_refl _) (fun z hz => hpos z ?_) hvisit
    · exact ⟨htiles.pairwise_disjoint, htiles.iUnion_eq⟩
    · rw [hl]
      exact List.mem_append_left _ (List.mem_append_right _ hz)
  · intro n hsize htime hcount hend
    obtain ⟨size, hall, hlt, hle, hcpos⟩ := fill_args hparams hargs hrandom hsize htime hcount hend
    obtain ⟨hlen, hexit⟩ := issued_le_of_reachable hv hseq hcpos h
    have hlength : w.intervals.length = w.issued.length := List.length_map _
    have htiles := Follows.tiles_of_fixed (i := 0) hfollows ⟨hlt, hle⟩ (fun x hx => ?_) hcpos
      (by omega)
    · refine ⟨htiles.pairwise_disjoint, fun hpc hok => ?_⟩
      rw [if_pos (by rw [hlength, hexit hpc hok, Nat.zero_add])] at htiles
      exact htiles.iUnion_eq
    · obtain ⟨e, he, hx2, -⟩ := hsizes x hx
      rw [hx2, hall e he]

/-- In a region that ends 65535 LBAs before the end of the 64-bit addresses, the cursor does not
    wrap. -/
theorem reachable_cursorFits (hs : args.Sequential env) (hend : args.regionEnd + 65535 ≤ 2 ^ 64)
    (h : (ioworkerMachine env args).Reachable NoUncorr w) :
    (ioworkerMachine env args).Reachable (fun w e => NoUncorr w e ∧ CursorFits w e) w := by
  refine h.invariant (fun w => .init) fun w ev w' hw hun hstep => ?_
  refine hw.step ⟨hun, ?_⟩ hstep
  rcases settings_of_reachable hs.valid.qdepth_lt hw with hr | hset
  · exact absurd hstep hr.no_step
  have hregion := hs.valid.region
  cases ev with
  | send now table d rc timeSent after =>
    intro size a hsize
    obtain ⟨e, he, rfl, -⟩ := (Configured.of_settings hset).size_mem hs.valid hsize
    obtain ⟨hS, hE, -⟩ := hs.region (d := d) hset
    have hlt := hs.valid.size e he
    have hcursor : w.cursor < args.regionEnd := by
      rw [Worker.cursor, hS, hE]
      split_ifs <;> omega
    exact .inl (by omega)
  | _ => trivial

/-- The parameters of a worker that reads the first 12 sectors once. -/
def readPass : PyArgs := { readOnce with regionEnd := 12, ioCount := 0 }

/-- Their arguments. -/
def readPassArgs : Args := { readOnceArgs with regionEnd := 12, ioCount := 2 }

/-- The second of the reads is truncated, and the worker returns 0. -/
theorem ioworker_sequential_pass :
    ∃ w, (ioworkerMachine (plainEnv 16) readPassArgs).Reachable
        (fun w e => NoUncorr w e ∧ CursorFits w e) w ∧
      w.pc = .exited 0 ∧ w.intervals = [(0, 8), (8, 4)] ∧
      ⋃ z ∈ w.intervals, interval z = Set.Ico 0 12 := by
  have hparams : ∃ params, Namespace.ioworker 1 readPass = .ok params ∧
      ioworkerArgs params = .ok readPassArgs := ⟨_, rfl, rfl⟩
  obtain ⟨params, hparams, hargs⟩ := hparams
  have hv : readPassArgs.Valid :=
    ioworkerArgs_valid (Namespace.ioworker_from hparams).toChecked hargs
  have hs : readPassArgs.Sequential (plainEnv 16) :=
    ⟨hv, rfl, rfl, rfl, by decide, by decide, by decide⟩
  have hinit : (ioworkerMachine (plainEnv 16) readPassArgs).Reachable NoUncorr _ := .init rfl
  obtain ⟨w, hw, hf⟩ := hinit.exists_run
    (f := fun w => (w.pc, w.intervals, w.completions, w.g.dueTime))
    (t := (.exited 0, [(0, 8), (8, 4)],
      [⟨0, .success, ⟨2, 0⟩, ⟨2, 0⟩⟩, ⟨0, .success, ⟨3, 0⟩, ⟨3, 0⟩⟩], ⟨3600001, 0⟩))
    (iteration 2 ⟨0, 0, 0, 0, 0⟩ 0 [0] ++ iteration 3 ⟨0, 0, 0, 0, 0⟩ 0 [0] ++ [.leave])
    (Machine.admits_of_forall (by simp [iteration, NoUncorr, uncorrCrc]) _) rfl
  simp only [Prod.mk.injEq] at hf
  obtain ⟨hpc, hintervals, hcompletions, hdue⟩ := hf
  have hw' := reachable_cursorFits hs (by decide) hw
  obtain ⟨-, -, -, hpass⟩ := ioworker_sequential hparams hargs rfl rfl rfl (by decide) (by decide)
    (by decide) hw'
  refine ⟨w, hw', hpc, hintervals, (hpass 8 rfl rfl rfl (by decide)).2 hpc ?_⟩
  rw [hcompletions, hdue]
  decide

/-- The parameters of three reads in a region at the end of the 64-bit addresses. -/
def readWrap : PyArgs :=
  { readOnce with regionStart := 2 ^ 64 - 10, regionEnd := 2 ^ 64 - 1, ioCount := 3 }

/-- Their arguments. -/
def readWrapArgs : Args := { readOnceArgs with regionStart := 2 ^ 64 - 10, ioCount := 3 }

/-- The cursor wraps after the second of the reads, which ends with the region: the third starts
    at LBA 6, before the region. -/
theorem ioworker_sequential_wraps :
    readWrapArgs.Admitted ∧ readWrapArgs.ioSequence = none ∧ readWrapArgs.lbaRandom = 0 ∧
      readWrapArgs.lbaStepValid = false ∧ (∀ e ∈ readWrapArgs.lbaSizeList, e.align = 1) ∧
      readWrapArgs.lbaStart ≤ readWrapArgs.regionStart ∧
      readWrapArgs.regionEnd ≤ (plainEnv (2 ^ 64 - 1)).ns.numSectors ∧
      ∃ w, (ioworkerMachine (plainEnv (2 ^ 64 - 1)) readWrapArgs).Reachable NoUncorr w ∧
        ∃ l₁ x y l₂, w.intervals = l₁ ++ x :: y :: l₂ ∧
          x.1 + x.2 = readWrapArgs.regionEnd ∧ y.1 = 6 ∧ y.1 < readWrapArgs.regionStart := by
  refine ⟨⟨1, readWrap, _, rfl, rfl⟩, rfl, rfl, rfl, by decide, by decide, by decide, ?_⟩
  have hinit : (ioworkerMachine (plainEnv (2 ^ 64 - 1)) readWrapArgs).Reachable NoUncorr _ :=
    .init rfl
  obtain ⟨w, hw, hf⟩ := hinit.exists_run (f := Worker.intervals)
    (t := [(2 ^ 64 - 10, 8), (2 ^ 64 - 2, 1), (6, 8)])
    (iteration 2 ⟨0, 0, 0, 0, 0⟩ 0 [0] ++ iteration 3 ⟨0, 0, 0, 0, 0⟩ 0 [0] ++
      iteration 4 ⟨0, 0, 0, 0, 0⟩ 0 [0])
    (Machine.admits_of_forall (by simp [iteration, NoUncorr, uncorrCrc]) _) rfl
  exact ⟨w, hw, [(2 ^ 64 - 10, 8)], (2 ^ 64 - 2, 1), (6, 8), [], hf, by decide, rfl, by decide⟩

end Pynvme
