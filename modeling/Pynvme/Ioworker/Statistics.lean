import Pynvme.Ioworker.History
import Mathlib.Algebra.Order.BigOperators.Group.Finset
import Mathlib.Data.List.GetD
import Mathlib.Data.List.Induction

/-!
# The consistency of the statistics

In every state of every run, the five counts that the callback of a completion updates
agree with the number of the IOs that have completed, and the latencies with those of
these IOs (`ioworker_statistics`).

The sum of the latencies has 64 bits. It does not overflow if the clock goes forward:
a context has one IO in flight at a time, so its latencies add up to no more than the
time since the start (`Busy`).
-/

namespace Pynvme

open Word

variable {env : Env} {args : Args} {w w' : Worker} {hist : History} {e : IowEvent}

/-! ### Sums of counters -/

/-- Every element is counted by one of the counters. -/
theorem sum_countP_eq_length {α : Type} (f : α → Nat) {n : Nat} {l : List α}
    (h : ∀ x ∈ l, f x < n) : ∑ i ∈ Finset.range n, l.countP (fun x => f x = i) = l.length := by
  induction l with
  | nil => simp
  | cons x l ih =>
    obtain ⟨hx, hl⟩ := List.forall_mem_cons.1 h
    simp only [List.countP_cons, decide_eq_true_eq, Finset.sum_add_distrib, ih hl, List.length_cons,
      Finset.sum_ite_eq, Finset.mem_range, if_pos hx]

/-- The counter of the operation at an index. -/
def opCounter (args : Args) (i : Nat) : Nat := (args.opList.map Prod.snd).getD i 0

theorem opCounter_eq (h : StatsOf args hist.done w.stats) {i : Nat} (hi : i < args.opList.length) :
    opCounter w.args i = opCounter args i + hist.done.countP fun x => x.opIndex = i := by
  have hops : w.args.opList = _ := h.ops
  simp [opCounter, hops, hi]

theorem opIndex_lt (hargs : args.Valid) {x : SentIo} (h : x.Described args) :
    x.prepared.opIndex < args.opList.length := by
  rw [h.opIndex]
  have hpos : 0 < args.opList.length := by
    rw [List.length_pos_iff]
    rintro hnil
    have := hargs.ops
    rw [hnil] at this
    cases this
  split_ifs
  · exact hpos
  · have hlen : x.opDraw % 100 < (ioworkerOpInit args).length := by
      rw [length_ioworkerOpInit, hargs.ops]
      exact Nat.mod_lt _ (by decide)
    rw [drawnIndex, List.getD_eq_getElem _ _ hlen]
    obtain ⟨i, hi, -, heq⟩ := mem_lookupTable.1 (List.getElem_mem hlen)
    exact heq ▸ (Nat.mod_le i _).trans_lt hi

/-! ### The average -/

theorem ioworkerFinal_average (w : Worker) (ret : Int) :
    ((ioworkerFinal w ret).rets.latencyAverageUs = w.rets.latencyAverageUs ∧
      ∀ ret', (ioworkerFinal w ret).pc ≠ .exited ret') ∨
    ((∃ ret', (ioworkerFinal w ret).pc = .exited ret') ∧ w.stats.count ≠ 0 ∧
      (ioworkerFinal w ret).rets.latencyAverageUs =
        u32 (w.stats.totalLatencyUs / w.stats.count)) := by
  rw [ioworkerFinal]
  split_ifs
  · exact .inl ⟨rfl, by simp⟩
  · split
    · exact .inl ⟨rfl, by simp⟩
    · dsimp only
      split_ifs with htotal
      · exact .inl ⟨rfl, by simp⟩
      · exact .inr ⟨⟨ret, rfl⟩, htotal, rfl⟩

/-- The average is set when the worker returns. -/
theorem ioworkerStep_average (h : ioworkerStep w e = some w') :
    (w'.rets.latencyAverageUs = w.rets.latencyAverageUs ∧ ∀ ret, w'.pc ≠ .exited ret) ∨
    ((∃ ret, w'.pc = .exited ret) ∧ w.stats.count ≠ 0 ∧ w'.stats = w.stats ∧
      w'.rets.latencyAverageUs = u32 (w.stats.totalLatencyUs / w.stats.count)) := by
  by_cases he : ∀ k status now now', e ≠ .complete k status now now'
  · rcases ioworkerStep_quiet h he with ⟨ret, rfl⟩ | ⟨-, hrets, hpc⟩
    · refine (ioworkerFinal_average w ret).imp_right fun ⟨hpc, hcount, havg⟩ => ?_
      exact ⟨hpc, hcount, ioworkerFinal_stats w ret, havg⟩
    · exact .inl ⟨by rw [hrets], hpc⟩
  · push Not at he
    obtain ⟨k, status, now, now', rfl⟩ := he
    exact .inl (ioworkerStep_complete_stats h).2

/-- The average of a worker that has returned; it is 0 before. -/
theorem average_of_reachable {P : Worker → IowEvent → Prop}
    (h : (ioworkerMachine env args).Reachable P w) :
    (w.rets.latencyAverageUs = 0 ∧ ∀ ret, w.pc ≠ .exited ret) ∨
    (w.stats.count ≠ 0 ∧
      w.rets.latencyAverageUs = u32 (w.stats.totalLatencyUs / w.stats.count)) := by
  refine (h.invariant (I := fun w =>
    (w.rets.latencyAverageUs = 0 ∧ ∀ ret, w.pc ≠ .exited ret) ∨
    ((∃ ret, w.pc = .exited ret) ∧ w.stats.count ≠ 0 ∧
      w.rets.latencyAverageUs = u32 (w.stats.totalLatencyUs / w.stats.count))) ?_ ?_).imp_right
      And.right
  · rintro _ rfl
    exact .inl (ioworkerStart_stats env args).2.2
  · intro w e w' hI _ hs
    have hs' : ioworkerStep w e = some w' := hs
    rcases hI with ⟨h0, -⟩ | ⟨⟨ret, hpc⟩, -⟩
    · rcases ioworkerStep_average hs' with ⟨havg, hpc⟩ | ⟨hpc, hcount, hstats, havg⟩
      · exact .inl ⟨havg.trans h0, hpc⟩
      · rw [hstats]
        exact .inr ⟨hpc, hcount, havg⟩
    · rw [ioworkerStep_exited hpc] at hs'
      cases hs'

/-! ### The time that is spent

The IOs of a context do not overlap, so that the latencies of each context add up to
no more than the time that has passed. -/

/-- The clock does not go back, and stays below `2 ^ 32` seconds. -/
def Forward (env : Env) (x : Worker × History) (e : IowEvent) : Prop :=
  ((x.2.clock :: e.readings).Pairwise fun a b => a.us ≤ b.us) ∧
    ∀ t ∈ e.readings, t.us ≤ env.testStart.us + 2 ^ 32 * 1000000

/-- The latencies of the IOs of the context `k`. -/
def busyUs (done : List DoneIo) (k : Nat) : Nat :=
  ((done.filter fun x => x.ctx = k).map DoneIo.latencyUs).sum

theorem DoneIo.latencyUs_le (x : DoneIo) (h : x.sent.timeSent.us ≤ x.now.us) :
    (x.latencyUs : Int) ≤ x.now.us - x.sent.timeSent.us := by
  have hsub := Timeval.sub_us x.now x.sent.timeSent
  rw [DoneIo.latencyUs, Timeval.toUs]
  rw [Timeval.us] at hsub
  omega

theorem busyUs_concat (done : List DoneIo) (x : DoneIo) (k : Nat) :
    busyUs (done ++ [x]) k = busyUs done k + if x.ctx = k then x.latencyUs else 0 := by
  simp only [busyUs, List.filter_append, List.map_append, List.sum_append]
  split_ifs with h <;> simp [h]

theorem sum_latencyUs_eq {n : Nat} {done : List DoneIo} (h : ∀ x ∈ done, x.ctx < n) :
    (done.map DoneIo.latencyUs).sum = ∑ k ∈ Finset.range n, busyUs done k := by
  induction done using List.reverseRecOn with
  | nil => simp [busyUs]
  | append_singleton done x ih =>
    rw [List.forall_mem_append, List.forall_mem_singleton] at h
    simp only [busyUs_concat, Finset.sum_add_distrib, Finset.sum_ite_eq, Finset.mem_range,
      if_pos h.2, ← ih h.1, List.map_append, List.sum_append]
    simp

theorem History.record_clock (hist : History) (w : Worker) (e : IowEvent) (w' : Worker) :
    (hist.record w e w').clock = e.readings.getLast?.getD hist.clock := by
  cases e with
  | send now table d rc timeSent after =>
    simp only [History.record]
    split
    · split_ifs <;> rfl
    · rfl
  | complete k status now now' =>
    simp only [History.record]
    split_ifs <;> rfl
  | _ => rfl

/-- What the rule says of the clock of the history. -/
theorem Forward.clock (h : Forward env (w, hist) e) (w' : Worker) :
    hist.clock.us ≤ (hist.record w e w').clock.us ∧
      (∀ t ∈ e.readings, hist.clock.us ≤ t.us ∧ t.us ≤ (hist.record w e w').clock.us) ∧
      (hist.clock.us ≤ env.testStart.us + 2 ^ 32 * 1000000 →
        (hist.record w e w').clock.us ≤ env.testStart.us + 2 ^ 32 * 1000000) := by
  obtain ⟨hpair, hbound⟩ := h
  rw [History.record_clock]
  cases e <;> simp [IowEvent.readings] at hpair hbound ⊢ <;> omega

/-- The time spent by the contexts, in a state reached with a clock that goes forward. -/
structure Busy (env : Env) (w : Worker) (hist : History) : Prop where
  clock : hist.clock.us ≤ env.testStart.us + 2 ^ 32 * 1000000
  done : ∀ k, (busyUs hist.done k : Int) ≤ hist.clock.us - env.testStart.us
  flight : ∀ k ∈ w.inFlight, ∀ x ∈ hist.sent k,
    (busyUs hist.done k : Int) ≤ x.timeSent.us - env.testStart.us ∧ x.timeSent.us ≤ hist.clock.us
  ctx : ∀ x ∈ hist.done, x.ctx < 1024

variable {k : Nat} {status : Status} {now now' timeSent after : Timeval}
  {table : Nat → BitVec 32} {d : Draws} {p : Prepared} {rc : Int}

theorem Busy.sends (h : Busy env w hist)
    (hfwd : Forward env (w, hist) (.send now table d rc timeSent after))
    (hs : Sends w w' k now table d p rc) :
    Busy env w' (hist.record w (.send now table d rc timeSent after) w') := by
  obtain ⟨hsent, hdone⟩ := hist.record_of_sends timeSent after hs
  obtain ⟨hclock, hread, hbound⟩ := hfwd.clock w'
  have htime := hread timeSent (by simp [IowEvent.readings])
  constructor
  case clock => exact hbound h.clock
  case done =>
    intro i
    have := h.done i
    rw [hdone]
    omega
  case flight =>
    rw [hs.inFlight, hsent, hdone]
    by_cases hrc : rc = 0
    · rw [if_neg (not_not.2 hrc), if_pos hrc]
      intro i hi x hx
      rcases eq_or_ne i k with rfl | hik
      · rw [Function.update_self] at hx
        obtain rfl := Option.some.inj hx
        have := h.done i
        exact ⟨by dsimp only; omega, htime.2⟩
      · rw [Function.update_of_ne hik] at hx
        have := h.flight i (by simpa [hik] using hi) x hx
        omega
    · rw [if_pos hrc, if_neg hrc]
      intro i hi x hx
      have := h.flight i hi x hx
      omega
  case ctx =>
    rw [hdone]
    exact h.ctx

theorem Busy.completes (h : Busy env w hist)
    (hfwd : Forward env (w, hist) (.complete k status now now')) (hk : k ∈ w.inFlight)
    (hlt : k < 1024) (hnodup : w.inFlight.Nodup) (hc : Completes w w' k status now now')
    {x : SentIo} (hx : hist.sent k = some x) :
    Busy env w' (hist.record w (.complete k status now now') w') := by
  obtain ⟨hsent, hdone⟩ := History.record_of_completes hc hx
  obtain ⟨hclock, hread, hbound⟩ := hfwd.clock w'
  have hnow := hread now (by simp [IowEvent.readings])
  have hflight := h.flight k hk x hx
  have hlatency := DoneIo.latencyUs_le ⟨k, x, now⟩ (by dsimp only; omega)
  dsimp only at hlatency
  constructor
  case clock => exact hbound h.clock
  case done =>
    intro i
    have := h.done i
    rw [hdone, busyUs_concat]
    split_ifs with hik
    · dsimp only at hik
      subst hik
      push_cast
      omega
    · omega
  case flight =>
    rw [hc.inFlight, hsent, hdone]
    intro i hi y hy
    have hik : k ≠ i := fun hik => hnodup.not_mem_erase (hik ▸ hi)
    have := h.flight i (List.mem_of_mem_erase hi) y hy
    rw [busyUs_concat, if_neg hik]
    omega
  case ctx =>
    rw [hdone, List.forall_mem_append, List.forall_mem_singleton]
    exact ⟨h.ctx, hlt⟩

theorem Busy.movesOn (h : Busy env w hist) (hfwd : Forward env (w, hist) e) (hm : MovesOn w w' e) :
    Busy env w' (hist.record w e w') := by
  obtain ⟨hsent, hdone⟩ := hist.record_of_movesOn hm
  obtain ⟨hclock, -, hbound⟩ := hfwd.clock w'
  constructor
  case clock => exact hbound h.clock
  case done =>
    intro i
    have := h.done i
    rw [hdone]
    omega
  case flight =>
    rw [hm.inFlight, hsent, hdone]
    intro i hi x hx
    have := h.flight i hi x hx
    omega
  case ctx =>
    rw [hdone]
    exact h.ctx

theorem busy_of_reachable (hargs : args.Valid) {x : Worker × History}
    (h : (ioworkerHistory env args).Reachable (Forward env) x) : Busy env x.1 x.2 := by
  refine ioworkerHistory_invariant (I := Busy env) hargs h ?_ ?_
  · refine ⟨by dsimp only; omega, ?_, ?_, ?_⟩ <;> simp [busyUs]
  · intro w hist e w' hbusy hfwd hrec hw hq hstep
    rcases ioworkerStep_cases hstep with ⟨k, now, table, d, rc, timeSent, after, p, rfl, hsends⟩ |
      ⟨k, status, now, now', n, rfl, hk, -, -, hc⟩ | hm
    · exact hbusy.sends hfwd hsends
    · have hlt := hw.lt k (by simp [Worker.contexts, hk])
      have := hargs.qdepth
      obtain ⟨x, hx, -⟩ := hrec.flight k hk
      exact hbusy.completes hfwd hk (by omega) hw.nodup_inFlight hc hx
    · exact hbusy.movesOn hfwd hm

/-- The latencies of all IOs fit in 64 bits, if the clock goes forward. -/
theorem sum_latencyUs_lt (hargs : args.Valid) {x : Worker × History}
    (h : (ioworkerHistory env args).Reachable (Forward env) x) :
    (x.2.done.map DoneIo.latencyUs).sum < 2 ^ 64 := by
  have hbusy := busy_of_reachable hargs h
  have hle : ∀ k ∈ Finset.range 1024, busyUs x.2.done k ≤ 2 ^ 32 * 1000000 := fun k _ => by
    have := hbusy.done k
    have := hbusy.clock
    omega
  rw [sum_latencyUs_eq hbusy.ctx]
  calc ∑ k ∈ Finset.range 1024, busyUs x.2.done k
      ≤ (Finset.range 1024).card • (2 ^ 32 * 1000000) := Finset.sum_le_card_nsmul _ _ _ hle
    _ < 2 ^ 64 := by
      rw [Finset.card_range]
      decide

/-! ### The statistics -/

theorem toUs_lt (t : Timeval) : t.toUs < 2 ^ 32 := by
  rw [Timeval.toUs]
  omega

theorem foldl_max_zero {l : List Nat} (h : l ≠ []) : l.foldl max 0 = l.max h := by
  rw [List.foldl_max_eq_max h, Nat.zero_max]

theorem le_foldl_max {l : List Nat} {n : Nat} (hn : n ∈ l) : n ≤ l.foldl max 0 := by
  rw [foldl_max_zero (List.ne_nil_of_mem hn)]
  exact List.le_max_of_mem hn

theorem foldl_max_mem {l : List Nat} (h : l ≠ []) : l.foldl max 0 ∈ l := by
  rw [foldl_max_zero h]
  exact List.max_mem h

theorem StatsOf.count {done : List DoneIo} {s : Stats} (h : StatsOf args done s) :
    s.count = done.length := by
  rw [Stats.count, h.read, h.nonread, List.length_eq_countP_add_countP (fun x => x.opcode = 2)]
  simp

theorem sum_opCounter_eq (h : StatsOf args hist.done w.stats)
    (hlt : ∀ x ∈ hist.done, x.opIndex < args.opList.length) :
    ∑ i ∈ Finset.range args.opList.length, ((opCounter w.args i : Int) - opCounter args i) =
      hist.done.length := by
  rw [← sum_countP_eq_length DoneIo.opIndex hlt, Nat.cast_sum]
  refine Finset.sum_congr rfl fun i hi => ?_
  rw [opCounter_eq h (Finset.mem_range.1 hi)]
  omega

/-- The histogram counts every IO once, and nothing above the largest latency. -/
theorem histogram_eq (hzero : ∀ c ∈ args.ioCounterPerLatency, c = fun _ => 0)
    {done : List DoneIo} {s : Stats} (h : StatsOf args done s) {c : Nat → Nat}
    (hc : c ∈ s.ioCounterPerLatency) :
    ∑ i ∈ Finset.range 1000000, c i = done.length ∧
      ∀ i, min s.latencyMaxUs 999999 < i → c i = 0 := by
  obtain ⟨c₀, hc₀, rfl⟩ : ∃ c₀, c₀ ∈ args.ioCounterPerLatency ∧ (fun i =>
      c₀ i + done.countP fun x => min 999999 x.latencyUs = i) = c := by
    rwa [Option.mem_def, h.perLatency, Option.map_eq_some_iff] at hc
  have hbuckets : ∀ i, c₀ i + done.countP (fun x => min 999999 x.latencyUs = i) =
      done.countP fun x => min 999999 x.latencyUs = i := fun i => by
    rw [hzero c₀ hc₀, Nat.zero_add]
  simp only [hbuckets]
  refine ⟨sum_countP_eq_length (fun x : DoneIo => min 999999 x.latencyUs) fun x _ => by omega,
    fun i hi => List.countP_eq_zero.2 fun x hx => ?_⟩
  have hle := le_foldl_max (List.mem_map_of_mem (f := DoneIo.latencyUs) hx)
  rw [← h.latencyMax] at hle
  simp only [decide_eq_true_eq]
  omega

theorem total_le (h : StatsOf args hist.done w.stats) :
    w.stats.totalLatencyUs ≤ w.stats.count * w.stats.latencyMaxUs := by
  have hsum : (hist.done.map DoneIo.latencyUs).sum ≤
      (hist.done.map DoneIo.latencyUs).length • w.stats.latencyMaxUs := by
    refine List.sum_le_card_nsmul _ _ fun n hn => ?_
    rw [h.latencyMax]
    exact le_foldl_max hn
  rw [List.length_map, nsmul_eq_mul, Nat.cast_id, ← h.count] at hsum
  rw [h.total]
  exact (Nat.mod_le _ _).trans hsum

/-- The statistics agree, in every state of every run: with each other, and with the IOs
    that have completed. The sum of the latencies has 64 bits, and fits if the clock goes
    forward. -/
theorem ioworker_statistics (hargs : args.Admitted) {P : Worker × History → IowEvent → Prop}
    (h : (ioworkerHistory env args).Reachable P (w, hist)) :
    w.rets.ioCountRead + w.rets.ioCountNonread = hist.done.length ∧
    w.g.ioCountCplt = hist.done.length ∧
    ∑ i ∈ Finset.range args.opList.length, ((opCounter w.args i : Int) - opCounter args i) =
      hist.done.length ∧
    (∀ c ∈ w.args.ioCounterPerLatency, ∑ i ∈ Finset.range 1000000, c i = hist.done.length ∧
      ∀ i, min w.rets.latencyMaxUs 999999 < i → c i = 0) ∧
    (∀ x ∈ hist.done, x.latencyUs ≤ w.rets.latencyMaxUs) ∧
    (hist.done ≠ [] → ∃ x ∈ hist.done, x.latencyUs = w.rets.latencyMaxUs) ∧
    w.g.totalLatencyUs = (hist.done.map DoneIo.latencyUs).sum % 2 ^ 64 ∧
    ((∀ x e, P x e → Forward env x e) →
      w.g.totalLatencyUs = (hist.done.map DoneIo.latencyUs).sum) ∧
    w.rets.latencyAverageUs ≤ w.rets.latencyMaxUs ∧
    (∀ ret, w.pc = .exited ret →
      w.rets.latencyAverageUs = w.g.totalLatencyUs / hist.done.length) := by
  have hv := hargs.valid
  obtain ⟨hrun, hrec⟩ := recorded_of_reachable hv h
  dsimp only at hrun hrec
  have hst := hrec.stats
  have hmax : w.rets.latencyMaxUs = (hist.done.map DoneIo.latencyUs).foldl max 0 := hst.latencyMax
  have htotal : w.g.totalLatencyUs = (hist.done.map DoneIo.latencyUs).sum % 2 ^ 64 := hst.total
  have hcount : w.stats.count = hist.done.length := hst.count
  have hle : ∀ x ∈ hist.done, x.latencyUs ≤ w.rets.latencyMaxUs := fun x hx => by
    rw [hmax]
    exact le_foldl_max (List.mem_map_of_mem hx)
  have hexists : hist.done ≠ [] → ∃ x ∈ hist.done, x.latencyUs = w.rets.latencyMaxUs := by
    intro hne
    rw [hmax]
    exact List.mem_map.1 (foldl_max_mem (by simpa using hne))
  -- The quotient is at most the maximum, which has 32 bits.
  have hdiv : w.g.totalLatencyUs / w.stats.count ≤ w.rets.latencyMaxUs :=
    Nat.div_le_of_le_mul (total_le hst)
  have hmaxlt : w.rets.latencyMaxUs < 2 ^ 32 := by
    by_cases hne : hist.done = []
    · rw [hmax, hne]
      decide
    · obtain ⟨x, -, hx⟩ := hexists hne
      rw [← hx]
      exact toUs_lt _
  have haverage : (w.rets.latencyAverageUs = 0 ∧ ∀ ret, w.pc ≠ .exited ret) ∨
      w.rets.latencyAverageUs = w.g.totalLatencyUs / w.stats.count := by
    refine (average_of_reachable hrun).imp_right fun havg => ?_
    rw [havg.2]
    exact u32_of_lt (hdiv.trans_lt hmaxlt)
  refine ⟨hcount, ?_, ?_, ?_, hle, hexists, htotal, ?_, ?_, ?_⟩
  · rw [hrec.count]
    rcases accounted_of_reachable hv hrun with hr | ⟨hw, -⟩
    · rw [hr.cplt, hr.completions, List.length_nil]
    · exact hw.completed
  · exact sum_opCounter_eq hst fun x hx => opIndex_lt hv (hrec.described x hx)
  · exact fun c hc => histogram_eq hargs.ioCounterPerLatency hst hc
  · intro hforward
    rw [htotal]
    exact Nat.mod_eq_of_lt (sum_latencyUs_lt hv (h.mono hforward))
  · rcases haverage with ⟨h0, -⟩ | havg
    · rw [h0]
      exact Nat.zero_le _
    · rw [havg]
      exact hdiv
  · intro ret hpc
    rcases haverage with ⟨-, hnot⟩ | havg
    · exact absurd hpc (hnot ret)
    · rw [havg, hcount]

/-- The statistics of a worker that has read once. -/
theorem ioworker_statistics_read :
    ∃ w hist, (ioworkerHistory (plainEnv 8) readOnceArgs).Reachable (fun _ _ => True) (w, hist) ∧
      w.pc = .exited 0 ∧ hist.done.length = 1 ∧
      w.rets.ioCountRead + w.rets.ioCountNonread = 1 := by
  have hstart := ioworkerHistory_start (plainEnv 8) readOnceArgs (P := fun _ _ => True)
  obtain ⟨⟨w, hist⟩, hx, hf⟩ := hstart.exists_run
    (f := fun x => (x.1.pc, x.2.done.length)) (t := (.exited 0, 1))
    (iteration 2 ⟨0, 0, 0, 0, 0⟩ 0 [0] ++ [.leave]) (Machine.admits_of_forall (by simp) _) rfl
  obtain ⟨hpc, hlen⟩ := Prod.mk.inj hf
  exact ⟨w, hist, hx, hpc, hlen, (ioworker_statistics readOnceArgs_admitted hx).1.trans hlen⟩

end Pynvme
