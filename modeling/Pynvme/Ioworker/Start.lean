import Pynvme.Ioworker.Step

/-!
# What the start of an ioworker leaves

Before its loop, an ioworker is refused or aborted with nothing sent (`Refuses`),
or it has queued its first batch (`Starts`): all its contexts, or as many as the
sequence has entries, in order.
-/

namespace Pynvme

open Word

variable {env : Env} {args : Args}

/-- The number of contexts queued of the first `i` of the batch. -/
def batchCount (seq : Option (List IoSeq)) (i : Nat) : Nat :=
  match seq with
  | none => i
  | some seq => min i seq.length

theorem batchCount_le (seq : Option (List IoSeq)) (i : Nat) : batchCount seq i ≤ i := by
  cases seq with
  | none => exact Nat.le_refl i
  | some seq => exact Nat.min_le_left _ _

theorem batchCount_zero (seq : Option (List IoSeq)) : batchCount seq 0 = 0 :=
  Nat.le_zero.1 (batchCount_le seq 0)

/-- The worker `w` after the first `i` contexts of the batch, which began with `w₀`. -/
structure Batched (w₀ w : Worker) (i : Nat) : Prop where
  frame : w = { w₀ with g := w.g, ioCtx := w.ioCtx }
  control : w.g.control = { w₀.g.control with
    ioSequenceIndex := if w₀.g.ioSequence.isSome then batchCount w₀.g.ioSequence i else 0
    ioCountSent := batchCount w₀.g.ioSequence i
    pendingIoList := List.range (batchCount w₀.g.ioSequence i) }
  index : w₀.g.ioSequence.isSome → ∀ j < batchCount w₀.g.ioSequence i,
    (w.ioCtx j).ioSequenceIndex = j

theorem Batched.sequence {w₀ w : Worker} {i : Nat} (h : Batched w₀ w i) :
    w.g.ioSequence = w₀.g.ioSequence ∧ w.g.ioSequenceIndex =
      if w₀.g.ioSequence.isSome then batchCount w₀.g.ioSequence i else 0 :=
  ⟨congrArg Control.ioSequence h.control, congrArg Control.ioSequenceIndex h.control⟩

/-- A context stays out when there is nothing left to replay. -/
theorem Batched.count_of_end {w₀ w : Worker} {i : Nat} (h : Batched w₀ w i)
    (hend : ∃ seq ∈ w.g.ioSequence, seq.length ≤ w.g.ioSequenceIndex) :
    batchCount w₀.g.ioSequence (i + 1) = batchCount w₀.g.ioSequence i := by
  obtain ⟨hseq, hidx⟩ := h.sequence
  rw [hseq, hidx] at hend
  obtain ⟨seq, hmem, hlen⟩ := hend
  simp only [Option.mem_def.1 hmem, batchCount, Option.isSome_some, if_true] at hlen ⊢
  omega

/-- Otherwise all contexts so far are queued. -/
theorem Batched.count_of_not_end {w₀ w : Worker} {i : Nat} (h : Batched w₀ w i)
    (hend : ¬∃ seq ∈ w.g.ioSequence, seq.length ≤ w.g.ioSequenceIndex) :
    batchCount w₀.g.ioSequence i = i ∧ batchCount w₀.g.ioSequence (i + 1) = i + 1 ∧
      w.g.replays = w₀.g.ioSequence.isSome := by
  obtain ⟨hseq, hidx⟩ := h.sequence
  rw [hseq, hidx] at hend
  rw [Gctx.replays, hseq, hidx]
  rcases hs : w₀.g.ioSequence with _ | seq
  · exact ⟨rfl, rfl, rfl⟩
  · have hlt : min i seq.length < seq.length := by
      by_contra hle
      exact hend ⟨seq, hs, by simpa [batchCount, hs] using hle⟩
    simp only [batchCount, Option.isSome_some, if_true, Option.any_some, decide_eq_true_eq]
    omega

theorem ioworkerBatchOne_batched {w₀ w : Worker} {i : Nat} (hi : i + 1 < 2 ^ 64)
    (h : Batched w₀ w i) : Batched w₀ (ioworkerBatchOne i w) (i + 1) := by
  rw [ioworkerBatchOne]
  dsimp only
  split_ifs with hend
  · have hcount := h.count_of_end hend
    refine ⟨?_, ?_, ?_⟩
    · rw [h.frame]
    · rw [hcount]
      exact h.control
    · rw [hcount]
      intro hs j hj
      dsimp only
      rcases eq_or_ne j i with rfl | hne
      · rw [Function.update_self]
        exact h.index hs j hj
      · rw [Function.update_of_ne hne]
        exact h.index hs j hj
  · obtain ⟨-, hidx⟩ := h.sequence
    obtain ⟨hi₀, hi₁, hrep⟩ := h.count_of_not_end hend
    generalize hn : ioworkerNextIo w.g _ = r
    obtain ⟨g, ctx⟩ := r
    obtain ⟨hg, hctx⟩ := ioworkerNextIo_spec hn
    have hg' : g.control = { w₀.g.control with
        ioSequenceIndex := if w₀.g.ioSequence.isSome then i + 1 else 0
        ioCountSent := i
        pendingIoList := List.range i } := by
      rw [hg, h.control, Gctx.nextIndex, hrep, hidx, hi₀]
      cases w₀.g.ioSequence.isSome <;> rfl
    refine ⟨?_, ?_, ?_⟩
    · rw [h.frame]
    · rw [hi₁, List.range_succ]
      simp only [Gctx.control, Control.mk.injEq] at hg' ⊢
      simp only [hg', u64_of_lt hi, and_self]
    · rw [hi₁]
      intro hs j hj
      dsimp only
      rcases eq_or_ne j i with rfl | hne
      · rw [Function.update_self, hctx (hrep.trans hs), hidx, if_pos hs, hi₀]
      · rw [Function.update_of_ne hne]
        exact h.index hs j (by omega)

/-! ### The start -/

/-- The worker is refused, or aborted, before its loop. -/
structure Refuses (w : Worker) : Prop where
  pc : (∃ ret, w.pc = .refused ret) ∨ w.pc = .aborted .entry ∨ w.pc = .aborted .divisionByZero
  error : (∀ ret, w.pc ≠ .refused ret) → w.rets.error = 0
  sent : w.g.ioCountSent = 0
  cplt : w.g.ioCountCplt = 0
  flagFinish : w.g.flagFinish = false
  pending : w.g.pendingIoList = []
  inFlight : w.inFlight = []
  lost : w.lost = []
  issued : w.issued = []
  completions : w.completions = []

/-- The worker at the start of its loop, with its first batch. -/
structure Starts (env : Env) (args : Args) (w : Worker) : Prop where
  env_eq : w.env = env
  args_eq : w.args = ioworkerReviseArgs env.ns.numSectors (ioworkerSizeArgs env args)
  seconds : w.seconds = w.args.seconds
  pc : w.pc = .head
  headIo : w.headIo = w.g.pendingIoList.head?
  error : w.rets.error = 0
  inFlight : w.inFlight = []
  lost : w.lost = []
  issued : w.issued = []
  completions : w.completions = []
  control : w.g.control = { (ioworkerInitGctx env w.args).control with
    ioSequenceIndex :=
      if args.ioSequence.isSome then batchCount args.ioSequence w.args.qdepth else 0
    ioCountSent := batchCount args.ioSequence w.args.qdepth
    pendingIoList := List.range (batchCount args.ioSequence w.args.qdepth) }
  index : args.ioSequence.isSome → ∀ j < batchCount args.ioSequence w.args.qdepth,
    (w.ioCtx j).ioSequenceIndex = j

theorem ioworkerInit_refuses {pc : Pc}
    (h : (∃ ret, pc = .refused ret) ∨ pc = .aborted .entry ∨ pc = .aborted .divisionByZero) :
    Refuses (ioworkerInit env args pc) :=
  ⟨h, fun _ => rfl, rfl, rfl, rfl, rfl, rfl, rfl, rfl, rfl⟩

theorem ioworkerSizeArgs_eq (env : Env) (args : Args) :
    ∃ m, ioworkerSizeArgs env args = { args with lbaSizeMax := m } := by
  rw [ioworkerSizeArgs]
  split_ifs
  · exact ⟨_, rfl⟩
  · exact ⟨args.lbaSizeMax, rfl⟩

/-- What holds before the first batch, for the arguments as they are revised, and is kept by
    the contexts of the batch, holds at the start. -/
theorem ioworkerStart_induction {I : Nat → Worker → Prop} (env : Env) (args : Args)
    (hinit : ∀ sizeMax ioCount seconds regionStart regionEnd lbaStart qdepth pc error,
      (∀ ret, pc ≠ .exited ret) →
      I 0 { ioworkerInit env { args with
          lbaSizeMax := sizeMax
          ioCount := ioCount
          seconds := seconds
          regionStart := regionStart
          regionEnd := regionEnd
          lbaStart := lbaStart
          qdepth := qdepth } pc with
        rets := { error := error } })
    (hbatch : ∀ i w, I i w → I (i + 1) (ioworkerBatchOne i w))
    (hhead : ∀ i w headIo, I i w → I i { w with headIo := headIo }) :
    ∃ i, I i (ioworkerStart env args) := by
  obtain ⟨m, hm⟩ := ioworkerSizeArgs_eq env args
  rw [ioworkerStart, hm]
  dsimp only
  split
  case isTrue => exact ⟨0, hinit _ _ _ _ _ _ _ _ 0 (by simp)⟩
  split
  case isTrue => exact ⟨0, hinit _ _ _ _ _ _ _ _ 0 (by simp)⟩
  split
  case isTrue => exact ⟨0, hinit _ _ _ _ _ _ _ _ 2 (by simp)⟩
  split
  case isTrue => exact ⟨0, hinit _ _ _ _ _ _ _ _ 0 (by simp)⟩
  split
  case isTrue => exact ⟨0, hinit _ _ _ _ _ _ _ (.aborted .entry) 0 (by simp)⟩
  split
  case isTrue => exact ⟨0, hinit _ _ _ _ _ _ _ (.refused (-5)) 0 (by simp)⟩
  split
  case isTrue => exact ⟨0, hinit _ _ _ _ _ _ _ (.aborted .entry) 0 (by simp)⟩
  refine ⟨_, hhead _ _ _ (forLoop_induction (I := I) ?_ fun i _ w => hbatch i w)⟩
  exact hinit _ _ _ _ _ _ _ .head 0 (by simp)

theorem ioworkerReviseArgs_qdepth_le (nsze : Nat) (args : Args) :
    (ioworkerReviseArgs nsze args).qdepth ≤ args.qdepth := by
  simp only [ioworkerReviseArgs]
  split_ifs <;> omega

theorem Args.Valid.qdepth_lt (h : args.Valid) : args.qdepth < 2 ^ 32 := by
  have := h.qdepth
  omega

/-- The first batch of a worker `w₀`. -/
theorem ioworkerBatch_starts (hq : args.qdepth < 2 ^ 32) {w₀ w : Worker}
    (hw₀ : w₀ = ioworkerInit env
      (ioworkerReviseArgs env.ns.numSectors (ioworkerSizeArgs env args)) .head)
    (hw : w = forLoop w₀.args.qdepth ioworkerBatchOne w₀) :
    Starts env args { w with headIo := w.g.pendingIoList.head? } := by
  obtain ⟨m, hm⟩ := ioworkerSizeArgs_eq env args
  have hargs : w₀.args = ioworkerReviseArgs env.ns.numSectors (ioworkerSizeArgs env args) := by
    rw [hw₀]
    rfl
  have hg₀ : w₀.g = ioworkerInitGctx env w₀.args := by
    rw [hw₀]
    rfl
  have hseq₀ : w₀.g.ioSequence = args.ioSequence := by
    rw [hw₀, hm]
    rfl
  have hb : Batched w₀ w w₀.args.qdepth := by
    rw [hw]
    refine forLoop_induction (I := fun i w => Batched w₀ w i) ?_ ?_
    · refine ⟨rfl, ?_, ?_⟩
      · rw [batchCount_zero, hw₀]
        simp only [ite_self, List.range_zero]
        rfl
      · rw [batchCount_zero]
        exact fun _ j hj => absurd hj (Nat.not_lt_zero j)
    · intro i hi w hI
      have hle := ioworkerReviseArgs_qdepth_le env.ns.numSectors (ioworkerSizeArgs env args)
      rw [← hargs, hm] at hle
      exact ioworkerBatchOne_batched (by dsimp only at hle; omega) hI
  obtain ⟨hframe, hcontrol, hindex⟩ := hb
  rw [hseq₀] at hcontrol hindex
  have hwargs : w.args = w₀.args := by rw [hframe]
  constructor
  case env_eq => rw [hframe, hw₀]; rfl
  case args_eq => exact hwargs.trans hargs
  case seconds => rw [hframe, hw₀]; rfl
  case pc => rw [hframe, hw₀]; rfl
  case headIo => rfl
  case control =>
    rw [hg₀] at hcontrol
    simpa only [hwargs] using hcontrol
  case index => simpa only [hwargs] using hindex
  all_goals
    rw [hframe, hw₀]
    rfl

theorem ioworkerStart_cases (env : Env) {args : Args} (hq : args.qdepth < 2 ^ 32) :
    Refuses (ioworkerStart env args) ∨ Starts env args (ioworkerStart env args) := by
  rw [ioworkerStart]
  split
  case isTrue => exact .inl (ioworkerInit_refuses (.inr (.inl rfl)))
  split
  case isTrue => exact .inl (ioworkerInit_refuses (.inr (.inr rfl)))
  dsimp only
  split
  case isTrue =>
    exact .inl ⟨.inl ⟨_, rfl⟩, fun h => absurd rfl (h _), rfl, rfl, rfl, rfl, rfl, rfl, rfl, rfl⟩
  split
  case isTrue => exact .inl (ioworkerInit_refuses (.inr (.inr rfl)))
  split
  case isTrue => exact .inl (ioworkerInit_refuses (.inr (.inl rfl)))
  split
  case isTrue => exact .inl (ioworkerInit_refuses (.inl ⟨_, rfl⟩))
  split
  case isTrue => exact .inl (ioworkerInit_refuses (.inr (.inl rfl)))
  exact .inr (ioworkerBatch_starts hq rfl rfl)

/-- The lookup tables of valid arguments have the lengths that are asserted. -/
theorem Args.Valid.tables (hv : args.Valid) (env : Env) {w : Worker} {m : Nat} (hw : w =
    ioworkerInit env (ioworkerReviseArgs env.ns.numSectors { args with lbaSizeMax := m }) .head) :
    ¬((w.g.distribution = true ∧ w.g.dlTable.length ≠ 10000) ∨ 10000 < args.lbaSizeRatioSum ∨
      w.g.slTable.length ≠ args.lbaSizeRatioSum ∨ w.g.opTable.length ≠ 100) := by
  rw [hw]
  rintro (⟨hd, hdl⟩ | hsum | hsl | hop)
  · obtain ⟨l, hl⟩ := Option.isSome_iff_exists.1 hd
    obtain ⟨-, -, h100, h10000⟩ := hv.distribution l hl
    refine absurd ?_ hdl
    have hdist : args.distribution = some l := hl
    simp only [ioworkerInit, ioworkerInitGctx, ioworkerReviseArgs, hdist, Option.map_some,
      Option.getD_some]
    rw [length_ioworkerDistributionInit _ _ h100, h10000]
  · exact absurd hv.ratios.2 (Nat.not_le.2 hsum)
  · exact absurd ((length_ioworkerIosizeInit args).trans hv.ratios.1) hsl
  · exact absurd ((length_ioworkerOpInit args).trans hv.ops) hop

/-- The worker does not come to its loop: it returns an error, for the size of the IOs
    or the memory of its buffers, or the sectors have no size. -/
def TurnsAway (env : Env) (args : Args) : Prop :=
  (args.ioSequence.isSome = true ∧ env.ns.sectorSize = 0) ∨
  env.maxXferSize < u32 ((ioworkerSizeArgs env args).lbaSizeMax * env.ns.sectorSize) ∨
  env.poolAllocated = false

/-- With few enough entries in `cmdlog_list`, the worker is turned away, or `buffer_init`
    fails its assertion, or the worker comes to its loop. -/
theorem ioworkerStart_pc (env : Env) (hv : args.Valid)
    (hlen : args.cmdlogList.length < 1024 * 1024) :
    ((ioworkerStart env args).pc = .aborted .entry ↔
      ¬TurnsAway env args ∧ ¬BufferInitAsserts args.ptype args.pvalue) ∧
    ((ioworkerStart env args).pc = .head ↔
      ¬TurnsAway env args ∧ BufferInitAsserts args.ptype args.pvalue) ∧
    (env.ns.sectorSize ≠ 0 → (ioworkerStart env args).pc ≠ .aborted .divisionByZero) := by
  obtain ⟨m, hm⟩ := ioworkerSizeArgs_eq env args
  have hargs : ¬(args.lbaSizeMax = 0 ∨ args.regionEnd ≤ args.regionStart ∨
      2050 / 2 < args.qdepth ∨ 1024 * 1024 ≤ args.cmdlogList.length) := by
    obtain ⟨e, he, hmax⟩ := hv.sizeMax
    have := hv.size e he
    have := hv.region
    have := hv.qdepth
    omega
  have halign : args.lbaAlignMax ≠ 0 := by
    obtain ⟨a, ha, hmax⟩ := hv.alignMax
    have := hv.align a ha
    omega
  rw [ioworkerStart, if_neg hargs]
  by_cases hsector : args.ioSequence.isSome = true ∧ env.ns.sectorSize = 0
  · rw [if_pos hsector]
    exact ⟨by simp [ioworkerInit, TurnsAway, hsector], by simp [ioworkerInit, TurnsAway, hsector],
      fun h => absurd hsector.2 h⟩
  rw [if_neg hsector]
  by_cases hsize : env.maxXferSize <
      u32 ((ioworkerSizeArgs env args).lbaSizeMax * env.ns.sectorSize)
  · simp only [gt_iff_lt, if_pos hsize]
    exact ⟨by simp [ioworkerInit, TurnsAway, hsize], by simp [ioworkerInit, TurnsAway, hsize],
      by simp [ioworkerInit]⟩
  simp only [gt_iff_lt, if_neg hsize]
  rw [hm, if_neg halign, if_neg (hv.tables env rfl)]
  by_cases hpool : env.poolAllocated = true
  · have haway : ¬TurnsAway env args := by
      rintro (h | h | h)
      · exact hsector h
      · exact hsize h
      · exact absurd (hpool.symm.trans h) (by decide)
    rw [if_neg (by simp [hpool])]
    by_cases hpattern : BufferInitAsserts args.ptype args.pvalue
    · rw [if_neg (not_not.2 hpattern)]
      have hpc := (ioworkerBatch_starts hv.qdepth_lt rfl rfl : Starts env args _).pc
      rw [hm] at hpc
      rw [hpc]
      exact ⟨by simp [hpattern], by simp [haway, hpattern], by simp⟩
    · rw [if_pos hpattern]
      exact ⟨by simp [haway, hpattern], by simp [hpattern], by simp⟩
  · have haway : TurnsAway env args := .inr (.inr (by simpa using hpool))
    rw [if_pos (by simp [hpool])]
    exact ⟨by simp [haway], by simp [haway], by simp⟩

/-- The settings of a worker in its loop. -/
def ioworkerSettings (env : Env) (args : Args) : Settings :=
  (ioworkerInit env (ioworkerReviseArgs env.ns.numSectors (ioworkerSizeArgs env args))
    .head).settings

theorem Starts.settings {w : Worker} (h : Starts env args w) :
    w.settings = ioworkerSettings env args := by
  rw [ioworkerSettings, ← h.args_eq]
  exact Worker.settings_eq h.env_eq rfl h.seconds h.control

/-! ### Induction over the runs -/

theorem Refuses.no_step {w w' : Worker} {e : IowEvent} (h : Refuses w) :
    ioworkerStep w e ≠ some w' := by
  intro hs
  rcases h.pc with ⟨ret, hpc⟩ | hpc | hpc <;>
    cases e <;> simp [ioworkerStep, hpc] at hs

/-- An invariant of the runs under a rule of a worker that comes to its loop: it holds at
    the start of the loop, and sending, completing and moving on keep it. -/
theorem Starts.invariant {P : Worker → IowEvent → Prop} {I : Worker → Prop} {w : Worker}
    (hs : Starts env args (ioworkerStart env args)) (h : (ioworkerMachine env args).Reachable P w)
    (hstart : ∀ w, Starts env args w → I w)
    (hsend : ∀ w w' k now table d p rc timeSent after, I w →
      P w (.send now table d rc timeSent after) → Sends w w' k now table d p rc → I w')
    (hcomplete : ∀ w w' k status now now' n, I w → P w (.complete k status now now') →
      k ∈ w.inFlight → w.pc = .polling n → w'.pc = .polling (n + 1) →
      Completes w w' k status now now' → I w')
    (hmove : ∀ w w' e, I w → P w e → MovesOn w w' e → I w') : I w := by
  refine h.invariant ?_ ?_
  · rintro _ rfl
    exact hstart _ hs
  · intro w e w' hI hP hstep
    rcases ioworkerStep_cases hstep with ⟨k, now, table, d, rc, timeSent, after, p, rfl, hsends⟩ |
      ⟨k, status, now, now', n, rfl, hk, hn, hn', hc⟩ | hm
    · exact hsend w w' k now table d p rc timeSent after hI hP hsends
    · exact hcomplete w w' k status now now' n hI hP hk hn hn' hc
    · exact hmove w w' e hI hP hm

/-- An invariant of the runs under a rule, of any worker. -/
theorem ioworker_invariant {P : Worker → IowEvent → Prop} {I : Worker → Prop} {w : Worker}
    (hq : args.qdepth < 2 ^ 32) (h : (ioworkerMachine env args).Reachable P w)
    (hstart : ∀ w, Starts env args w → I w)
    (hsend : ∀ w w' k now table d p rc timeSent after, I w →
      P w (.send now table d rc timeSent after) → Sends w w' k now table d p rc → I w')
    (hcomplete : ∀ w w' k status now now' n, I w → P w (.complete k status now now') →
      k ∈ w.inFlight → w.pc = .polling n → w'.pc = .polling (n + 1) →
      Completes w w' k status now now' → I w')
    (hmove : ∀ w w' e, I w → P w e → MovesOn w w' e → I w') : Refuses w ∨ I w := by
  rcases ioworkerStart_cases env hq with hr | hs
  · left
    refine h.invariant ?_ fun w e w' hr _ hstep => absurd hstep hr.no_step
    rintro _ rfl
    exact hr
  · exact .inr (hs.invariant h hstart hsend hcomplete hmove)

theorem ioworkerStep_settings {w w' : Worker} {e : IowEvent} (h : ioworkerStep w e = some w') :
    w'.settings = w.settings := by
  rcases ioworkerStep_cases h with ⟨_, _, _, _, _, _, _, _, -, hs⟩ |
    ⟨_, _, _, _, _, -, -, -, -, hc⟩ | hm
  · exact hs.settings
  · exact hc.settings
  · exact hm.settings

/-- The settings of a worker in its loop are those it started with. -/
theorem settings_of_reachable {P : Worker → IowEvent → Prop} {w : Worker}
    (hq : args.qdepth < 2 ^ 32) (h : (ioworkerMachine env args).Reachable P w) :
    Refuses w ∨ w.settings = ioworkerSettings env args := by
  refine ioworker_invariant hq h (fun w => Starts.settings) ?_ ?_ ?_
  · exact fun w w' k now table d p rc timeSent after hw _ hs => hs.settings.trans hw
  · exact fun w w' k status now now' n hw _ _ _ _ hc => hc.settings.trans hw
  · exact fun w w' e hw _ hm => hm.settings.trans hw

end Pynvme
