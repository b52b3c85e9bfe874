import Pynvme.Ioworker.Lba
import Pynvme.Ioworker.Accounting

/-!
# The region of an ioworker

The IOs of a worker are meant for its region, from `region_start` to `region_end`.

* `ioworker_contained`: with one alignment and no step, every IO lies in the region
  as `ioworker_entry` revises it, unless the alignment of its start has overflowed;
* `ioworker_starts_in_region`: with steps or several alignments, every IO starts in
  the region that was asked for, as long as no multiple of its alignment lies between
  the cursor and the region, and one lies in it.
-/

namespace Pynvme

open Word Multiple

variable {env : Env} {args : Args} {w w' : Worker} {d : Draws} {p : Prepared} {e : LbaSize}
  {c a : Nat}

/-! ### One alignment -/

/-- The start of the region, as it is aligned, is a multiple unless it overflows. -/
theorem alignUp_cases {n : Nat} (ha : 0 < a) (hn : n < 2 ^ 64) :
    a ∣ alignUp n a ∨ alignUp n a < a := by
  rcases Nat.lt_or_ge (roundUp n a) (2 ^ 64) with h | h
  · rw [alignUp_eq h]
    exact .inl (dvd_roundUp n a)
  · exact .inr (alignUp_of_overflow ha hn h)

/-- There is an LBA to align to. -/
theorem exists_aligned {n regionEnd : Nat} (ha : 0 < a) (hn : n < 2 ^ 64)
    (hregion : alignUp n a < regionEnd) (h : a ∣ alignUp n a ∨ a < regionEnd) :
    ∃ m, a ∣ m ∧ alignUp n a ≤ m ∧ m < regionEnd := by
  rcases alignUp_cases ha hn with hdvd | hlt
  · exact ⟨_, hdvd, Nat.le_refl _, hregion⟩
  · rcases h with hdvd | h
    · exact ⟨_, hdvd, Nat.le_refl _, hregion⟩
    · exact ⟨a, Nat.dvd_refl a, Nat.le_of_lt hlt, h⟩

/-- The IO is aligned, and ends in the region. -/
structure Contained (args : Args) (regionEnd a : Nat) (p : Prepared) : Prop where
  dvd : a ∣ p.io.lba
  lt : p.io.lba < regionEnd
  count : 1 ≤ p.io.count ∧ p.io.count ≤ p.size ∧ p.size ≤ args.lbaSizeMax
  tail : p.io.lba + p.io.count ≤ regionEnd

theorem Drawn.contained (h : Drawn w d p e c) (hv : args.Valid) (he : e ∈ args.lbaSizeList) :
    Contained args w.args.regionEnd e.align p where
  dvd := h.lba ▸ dvd_fit _ _ _
  lt := h.lt
  count := ⟨h.count.1, h.count.2.1, h.size ▸ (hv.size e he).2.2⟩
  tail := h.count.2.2

/-- A sequential IO leaves the cursor behind it, if it has no step. -/
theorem Drawn.le_cursor (h : Drawn w d p e c) (hstep : w.args.lbaStepValid = false)
    (hend : w.args.regionEnd ≤ 2 ^ 64 - 65536) {s : Nat} (hs : s ≤ p.io.lba)
    (hcursor : s ≤ w.g.sequentialLba) : s ≤ p.sequentialLba := by
  rw [h.cursor]
  split_ifs
  · exact hcursor
  · have hlt := h.lt
    have hu := u16_lt p.size
    rw [nextSequentialLba, hstep, if_neg Bool.false_ne_true, u64_of_lt (by omega)]
    omega

/-- The raw LBA is in the region, if the cursor is not before it. -/
theorem Drawn.le_raw (h : Drawn w d p e c) (hcursor : w.args.regionStart ≤ w.g.sequentialLba) :
    w.args.regionStart ≤ c := by
  cases hr : d.isRandom w.args with
  | true => exact h.random hr
  | false =>
    rw [h.sequential hr, Worker.cursor]
    split_ifs
    · exact hcursor
    · exact Nat.le_refl _

/-- The arguments of a synthetic workload with the alignment `a`. -/
structure Uniform (env : Env) (args : Args) (a : Nat) : Prop where
  valid : args.Valid
  sequence : args.ioSequence = none
  step : args.lbaStepValid = false
  align : ∀ e ∈ args.lbaSizeList, e.align = a
  region : alignUp args.regionStart a < min env.ns.numSectors args.regionEnd
  nsze : env.ns.numSectors ≤ 2 ^ 64 - 65536

namespace Uniform

theorem align_lt (h : Uniform env args a) : 0 < a ∧ a < 65536 ∧ args.lbaAlignMax = a := by
  obtain ⟨e, he, hmax⟩ := h.valid.alignMax
  have := h.valid.align e he
  rw [h.align e he] at this hmax
  exact ⟨this.1, this.2.1, hmax.symm⟩

theorem bounds (h : Uniform env args a) (hw : Configured env args w) :
    w.args.regionStart = alignUp args.regionStart a ∧ w.args.regionStart < w.args.regionEnd ∧
      w.args.regionEnd ≤ 2 ^ 64 - 65536 := by
  have hS := hw.regionStart
  rw [h.align_lt.2.2] at hS
  have hE := hw.regionEnd
  have := h.region
  have := h.nsze
  exact ⟨hS, by omega, by omega⟩

theorem no_overflow (h : Uniform env args a) (hw : Configured env args w) (size a' : Nat)
    (hs : ioworkerSendOneSize w.args w.g d = .ok (size, a')) :
    roundUp (w.args.regionEnd - 1) a' < 2 ^ 64 := by
  obtain ⟨e, he, -, rfl⟩ := hw.size_mem h.valid hs
  rw [h.align e he]
  obtain ⟨hpos, hlt, -⟩ := h.align_lt
  have := roundUp_lt_add hpos (w.args.regionEnd - 1)
  have := (h.bounds hw).2.2
  omega

end Uniform

/-- The IOs of a synthetic workload are contained in the region. -/
structure Contains (env : Env) (args : Args) (a : Nat) (w : Worker) : Prop where
  settings : w.settings = ioworkerSettings env args
  contained : ∀ x ∈ w.issued, Contained args (min env.ns.numSectors args.regionEnd) a x.1
  asserts : ∀ why, w.pc = .aborted why → why ≠ .lbaRandom ∧ why ≠ .lba ∧ why ≠ .send
  start : a ∣ alignUp args.regionStart a ∨ a < min env.ns.numSectors args.regionEnd →
    alignUp args.regionStart a ≤ w.g.sequentialLba ∧
      ∀ x ∈ w.issued, alignUp args.regionStart a ≤ x.1.io.lba

variable {k : Nat} {now : Timeval} {table : Nat → BitVec 32} {rc : Int} {ev : IowEvent}

theorem Sends.contains (h : Sends w w' k now table d p rc) (hu : Uniform env args a)
    (hun : ∀ lba < w.env.ns.numSectors, table lba ≠ uncorrCrc) (hw : Contains env args a w) :
    Contains env args a w' := by
  have hc := Configured.of_settings hw.settings
  obtain ⟨hS, hregion, hend⟩ := hu.bounds hc
  rw [hc.env_eq] at hun
  obtain ⟨e, he, c, hdrawn⟩ :=
    hc.drawn hu.valid hu.sequence hregion hun (hu.no_overflow hc) h.prepared
  have hcursor : w'.g.sequentialLba = p.sequentialLba := congrArg Control.sequentialLba h.control
  have hpc := h.pc'
  constructor
  case settings => exact h.settings.trans hw.settings
  case contained =>
    rw [h.issued, List.forall_mem_append, List.forall_mem_singleton]
    refine ⟨hw.contained, ?_⟩
    rw [← hc.regionEnd, ← hu.align e he]
    exact hdrawn.contained hu.valid he
  case asserts => simp [hpc]
  case start =>
    intro hcond
    obtain ⟨hle, hissued⟩ := hw.start hcond
    have hlba : alignUp args.regionStart a ≤ p.io.lba := by
      have hraw := hdrawn.le_raw (hS ▸ hle)
      have hmem := exists_aligned hu.align_lt.1
        (Nat.lt_trans hu.valid.region.1 hu.valid.region.2) hu.region hcond
      rw [← hc.regionEnd] at hmem
      rw [hS] at hraw
      rw [hdrawn.lba, hu.align e he]
      exact ((fit_mem_iff hu.align_lt.1).2 ⟨hmem, fun m _ hm => le_trans hraw hm,
        fun m _ hm => lt_trans hm hdrawn.raw_lt⟩).1
    rw [hcursor, h.issued, List.forall_mem_append, List.forall_mem_singleton]
    exact ⟨hdrawn.le_cursor (hc.lbaStepValid.trans hu.step) hend hlba hle, hissued, hlba⟩

theorem MovesOn.contains (h : MovesOn w w' ev) (hu : Uniform env args a) (hun : NoUncorr w ev)
    (hw : Contains env args a w) : Contains env args a w' := by
  have hc := Configured.of_settings hw.settings
  obtain ⟨-, hregion, -⟩ := hu.bounds hc
  have hcursor : w'.g.sequentialLba = w.g.sequentialLba := congrArg Control.sequentialLba h.control
  constructor
  case settings => exact h.settings.trans hw.settings
  case contained => rw [h.issued]; exact hw.contained
  case start => rw [hcursor, h.issued]; exact hw.start
  case asserts =>
    intro why hpc
    rcases h.aborted why hpc with rfl | ⟨⟨rfl, -⟩ | ⟨rfl, -⟩, -⟩ | ⟨rfl, -⟩ |
      ⟨k, now, table, d, rc, timeSent, after, -, -, rfl, hp⟩
    · decide
    · decide
    · decide
    · decide
    · have hun' : ∀ lba < env.ns.numSectors, table lba ≠ uncorrCrc := hc.env_eq ▸ hun
      rw [hc.prepare_error hu.valid hu.sequence hregion hun' (hu.no_overflow hc) hp]
      decide

theorem Completes.contains {status : Status} {now' : Timeval} {n : Nat}
    (h : Completes w w' k status now now') (hpc : w'.pc = .polling n)
    (hw : Contains env args a w) : Contains env args a w' := by
  have hcursor : w'.g.sequentialLba = w.g.sequentialLba := congrArg Control.sequentialLba h.control
  constructor
  case settings => exact h.settings.trans hw.settings
  case contained => rw [h.issued]; exact hw.contained
  case start => rw [hcursor, h.issued]; exact hw.start
  case asserts => simp [hpc]

theorem Starts.contains (h : Starts env args w) (hu : Uniform env args a) :
    Contains env args a w := by
  have hcursor : w.g.sequentialLba = w.args.lbaStart := congrArg Control.sequentialLba h.control
  have hc := Configured.of_settings h.settings
  constructor
  case settings => exact h.settings
  case contained => simp [h.issued]
  case asserts => simp [h.pc]
  case start =>
    intro _
    refine ⟨?_, by simp [h.issued]⟩
    rw [hcursor, ← (hu.bounds hc).1, h.args_eq]
    simp only [ioworkerReviseArgs]
    split_ifs <;> omega

theorem contains_of_reachable (hu : Uniform env args a)
    (h : (ioworkerMachine env args).Reachable NoUncorr w) :
    Refuses w ∨ Contains env args a w := by
  refine ioworker_invariant hu.valid.qdepth_lt h (fun w hw => hw.contains hu) ?_ ?_ ?_
  · exact fun w w' k now table d p rc timeSent after hw hun hs => hs.contains hu hun hw
  · exact fun w w' k status now now' n hw _ _ _ hpc hc => hc.contains hpc hw
  · exact fun w w' e hw hun hm => hm.contains hu hun hw

/-- A synthetic workload with one alignment and no step. If the start of its region,
    aligned in 64 bits, is a multiple of the alignment, or the alignment is smaller
    than the end of the region, then every IO is aligned and lies in the region, it
    is not empty and not larger than its size, and no assertion on the LBA fails. If
    not, no IO starts in the region. -/
theorem ioworker_contained (hargs : args.Admitted) (hseq : args.ioSequence = none)
    (hstep : args.lbaStepValid = false) (halign : ∀ e ∈ args.lbaSizeList, e.align = a)
    (hregion : alignUp args.regionStart a < min env.ns.numSectors args.regionEnd)
    (hnsze : env.ns.numSectors ≤ 2 ^ 64 - 65536)
    (h : (ioworkerMachine env args).Reachable NoUncorr w) :
    (a ∣ alignUp args.regionStart a ∨ a < min env.ns.numSectors args.regionEnd →
      (∀ x ∈ w.issued, a ∣ x.1.io.lba ∧ alignUp args.regionStart a ≤ x.1.io.lba ∧
        1 ≤ x.1.io.count ∧ x.1.io.count ≤ x.1.size ∧ x.1.size ≤ args.lbaSizeMax ∧
        x.1.io.lba + x.1.io.count ≤ min env.ns.numSectors args.regionEnd) ∧
      w.pc ≠ .aborted .lbaRandom ∧ w.pc ≠ .aborted .lba ∧ w.pc ≠ .aborted .send) ∧
    (∀ x ∈ w.issued, alignUp args.regionStart a ≤ x.1.io.lba →
      a ∣ alignUp args.regionStart a ∨ a < min env.ns.numSectors args.regionEnd) := by
  have hu : Uniform env args a := ⟨hargs.valid, hseq, hstep, halign, hregion, hnsze⟩
  rcases contains_of_reachable hu h with hr | hw
  · refine ⟨fun _ => ⟨by simp [hr.issued], ?_⟩, by simp [hr.issued]⟩
    rcases hr.pc with ⟨_, hpc⟩ | hpc | hpc <;> simp [hpc]
  · refine ⟨fun hcond => ⟨fun x hx => ?_, ?_⟩, fun x hx hle => ?_⟩
    · obtain ⟨hdvd, -, ⟨h1, h2, h3⟩, htail⟩ := hw.contained x hx
      exact ⟨hdvd, (hw.start hcond).2 x hx, h1, h2, h3, htail⟩
    · exact ⟨fun hpc => (hw.asserts _ hpc).1 rfl, fun hpc => (hw.asserts _ hpc).2.1 rfl,
        fun hpc => (hw.asserts _ hpc).2.2 rfl⟩
    · have hc := hw.contained x hx
      rcases Nat.eq_zero_or_pos x.1.io.lba with h0 | hpos
      · have hzero : alignUp args.regionStart a = 0 := by omega
        rw [hzero]
        exact .inl (Nat.dvd_zero a)
      · exact .inr (lt_of_le_of_lt (Nat.le_of_dvd hpos hc.dvd) hc.lt)

/-- The read of the whole namespace lies in it. -/
theorem ioworker_contained_read :
    ∃ w, (ioworkerMachine (plainEnv 8) readOnceArgs).Reachable NoUncorr w ∧
      w.issued.length = 1 ∧ ∀ x ∈ w.issued, x.1.io.lba + x.1.io.count ≤ 8 := by
  have hstart : (ioworkerMachine (plainEnv 8) readOnceArgs).Reachable NoUncorr _ := .init rfl
  obtain ⟨w, hw, hlen⟩ := hstart.exists_run (f := fun w => w.issued.length) (t := 1)
    (iteration 2 ⟨0, 0, 0, 0, 0⟩ 0 [0])
    (Machine.admits_of_forall (by simp [iteration, NoUncorr, uncorrCrc]) _) rfl
  have hall := (ioworker_contained (a := 1) readOnceArgs_admitted rfl rfl (by decide) (by decide)
    (by decide) hw).1 (.inl (Nat.one_dvd _))
  exact ⟨w, hw, hlen, fun x hx => (hall.1 x hx).2.2.2.2.2⟩

/-- The parameters of a read in a region at the end of the 64-bit addresses, with an
    alignment of 11. -/
def readAtEnd : PyArgs :=
  { readOnce with regionStart := 2 ^ 64 - 2, regionEnd := 2 ^ 64 - 1, lbaAlign := .int 11 }

/-- Their arguments. -/
def readAtEndArgs : Args :=
  { readOnceArgs with
    lbaSizeMax := 1
    lbaAlignMax := 11
    lbaSizeList := [⟨1, 1, 11⟩]
    regionStart := 2 ^ 64 - 2 }

/-- The aligned start of that region overflows to 6, which is not aligned: on a
    namespace of 8 sectors the IO starts before it, at LBA 0. -/
theorem ioworker_not_contained :
    readAtEndArgs.Admitted ∧ readAtEndArgs.ioSequence = none ∧
      readAtEndArgs.lbaStepValid = false ∧ (∀ e ∈ readAtEndArgs.lbaSizeList, e.align = 11) ∧
      alignUp readAtEndArgs.regionStart 11 <
        min (plainEnv 8).ns.numSectors readAtEndArgs.regionEnd ∧
      (plainEnv 8).ns.numSectors ≤ 2 ^ 64 - 65536 ∧
      ∃ w, (ioworkerMachine (plainEnv 8) readAtEndArgs).Reachable NoUncorr w ∧
        ∃ x ∈ w.issued, x.1.io.lba < alignUp readAtEndArgs.regionStart 11 := by
  refine ⟨⟨1, readAtEnd, _, rfl, rfl⟩, rfl, rfl, by decide, by decide, by decide, ?_⟩
  have hstart : (ioworkerMachine (plainEnv 8) readAtEndArgs).Reachable NoUncorr _ := .init rfl
  obtain ⟨w, hw, hf⟩ := hstart.exists_run
    (f := fun w => w.issued.map fun x => x.1.io.lba) (t := [0])
    (iteration 2 ⟨0, 0, 0, 0, 0⟩ 0 [0])
    (Machine.admits_of_forall (by simp [iteration, NoUncorr, uncorrCrc]) _) rfl
  have hmem : 0 ∈ w.issued.map fun x => x.1.io.lba := by simp [hf]
  obtain ⟨x, hx, h0⟩ := List.mem_map.1 hmem
  exact ⟨w, hw, x, hx, h0 ▸ by decide⟩

/-! ### Steps and several alignments -/

/-- The rule that a send stays in the region that was asked for: a multiple of its
    alignment lies in the region, none lies before it from where a sequential IO
    starts, and none of the LBAs overflows when it is aligned. -/
def StaysInRegion (args : Args) (w : Worker) : IowEvent → Prop
  | .send _ _ d _ _ _ => ∀ size a, ioworkerSendOneSize w.args w.g d = .ok (size, a) →
      (∃ m, a ∣ m ∧ args.regionStart ≤ m ∧ m < w.args.regionEnd) ∧
      (d.isRandom w.args = false → ∀ m, a ∣ m → w.cursor ≤ m → args.regionStart ≤ m) ∧
      roundUp (w.args.regionEnd - 1) a < 2 ^ 64
  | _ => True

/-- Where an IO is drawn, the rule is exact. -/
theorem Drawn.starts_iff (h : Drawn w d p e c) (ha : 0 < e.align) {s : Nat}
    (hs : s ≤ w.args.regionStart) : s ≤ p.io.lba ↔
      (∃ m, e.align ∣ m ∧ s ≤ m ∧ m < w.args.regionEnd) ∧
      (d.isRandom w.args = false → ∀ m, e.align ∣ m → w.cursor ≤ m → s ≤ m) := by
  have hiff := fit_mem_iff (n := c) (s := s) (e := w.args.regionEnd) ha
  rw [← h.lba, and_iff_left h.lt] at hiff
  have hbelow : ∀ m, e.align ∣ m → m < c → m < w.args.regionEnd :=
    fun _ _ hm => lt_trans hm h.raw_lt
  rw [hiff, and_iff_left hbelow]
  refine and_congr_right fun _ => ?_
  cases hr : d.isRandom w.args with
  | true =>
    have hraw := h.random hr
    exact ⟨fun _ hne => absurd hne (by decide), fun _ m _ hm => le_trans hs (le_trans hraw hm)⟩
  | false =>
    rw [h.sequential hr]
    exact ⟨fun hm _ => hm, fun hm => hm rfl⟩

/-- The aligned start of a region with an aligned LBA is not before it. -/
theorem regionStart_le_alignUp {n m : Nat} (ha : 0 < a) (hdvd : a ∣ m) (hn : n ≤ m)
    (hm : m < 2 ^ 64) : n ≤ alignUp n a ∧ alignUp n a ≤ m := by
  have hle := roundUp_le hdvd hn
  rw [alignUp_eq (lt_of_le_of_lt hle hm)]
  exact ⟨le_roundUp ha n, hle⟩

/-- In every run whose sends all meet the rule, every IO starts in the region that was
    asked for, for any step and any alignments. -/
theorem ioworker_starts_in_region (hargs : args.Admitted) (hseq : args.ioSequence = none)
    (hregion : ∃ m, args.lbaAlignMax ∣ m ∧ args.regionStart ≤ m ∧
      m < min env.ns.numSectors args.regionEnd)
    (h : (ioworkerMachine env args).Reachable
      (fun w e => NoUncorr w e ∧ StaysInRegion args w e) w) :
    ∀ x ∈ w.issued, args.regionStart ≤ x.1.io.lba ∧ x.1.io.lba < args.regionEnd := by
  have hv := hargs.valid
  obtain ⟨m, hdvd, hm, hlt⟩ := hregion
  obtain ⟨e₀, he₀, hmax⟩ := hv.alignMax
  have hpos : 0 < args.lbaAlignMax := hmax ▸ (hv.align e₀ he₀).1
  have hstart := regionStart_le_alignUp hpos hdvd hm (by have := hv.region; omega)
  have hor : Refuses w ∨ (w.settings = ioworkerSettings env args ∧
      ∀ x ∈ w.issued, args.regionStart ≤ x.1.io.lba ∧ x.1.io.lba < args.regionEnd) := by
    refine ioworker_invariant (I := fun w => w.settings = ioworkerSettings env args ∧
      ∀ x ∈ w.issued, args.regionStart ≤ x.1.io.lba ∧ x.1.io.lba < args.regionEnd)
      hv.qdepth_lt h ?_ ?_ ?_ ?_
    · exact fun w hw => ⟨hw.settings, by simp [hw.issued]⟩
    · intro w w' k now table d p rc timeSent after ⟨hset, hw⟩ ⟨hun, hstays⟩ hs
      refine ⟨hs.settings.trans hset, ?_⟩
      rw [hs.issued, List.forall_mem_append, List.forall_mem_singleton]
      refine ⟨hw, ?_⟩
      have hc := Configured.of_settings hset
      have hS := hc.regionStart
      have hE := hc.regionEnd
      obtain ⟨e, he, c, hdrawn⟩ := hc.drawn hv hseq (by omega) (hc.env_eq ▸ hun)
        (fun size a hsize => (hstays size a hsize).2.2) hs.prepared
      obtain ⟨hmem, hcursor, -⟩ := hstays _ _ hdrawn.entry
      have hlba := (hdrawn.starts_iff (hv.align e he).1 (by omega)).2 ⟨hmem, hcursor⟩
      refine ⟨hlba, lt_of_lt_of_le hdrawn.lt ?_⟩
      rw [hE]
      exact Nat.min_le_right _ _
    · intro w w' k status now now' n ⟨hset, hw⟩ _ _ _ _ hc
      exact ⟨hc.settings.trans hset, hc.issued ▸ hw⟩
    · intro w w' e ⟨hset, hw⟩ _ hm
      exact ⟨hm.settings.trans hset, hm.issued ▸ hw⟩
  rcases hor with hr | ⟨-, hw⟩
  · simp [hr.issued]
  · exact hw

/-- The parameters of two reads in the region from 8 to 16, the second one step of 8
    back. -/
def readBack : PyArgs :=
  { readOnce with regionStart := 8, regionEnd := 16, lbaStep := some (-8), ioCount := 2 }

/-- Their arguments. -/
def readBackArgs : Args :=
  { readOnceArgs with
    regionStart := 8
    regionEnd := 16
    lbaStep := -8
    lbaStepValid := true
    ioCount := 2 }

theorem readBackArgs_admitted : readBackArgs.Admitted := ⟨1, readBack, _, rfl, rfl⟩

/-- The first of the reads starts in the region. -/
theorem ioworker_starts_in_region_first :
    ∃ w, (ioworkerMachine (plainEnv 16) readBackArgs).Reachable
        (fun w e => NoUncorr w e ∧ StaysInRegion readBackArgs w e) w ∧
      w.issued.length = 1 ∧ ∀ x ∈ w.issued, 8 ≤ x.1.io.lba := by
  have hstart : (ioworkerMachine (plainEnv 16) readBackArgs).Reachable
      (fun w e => NoUncorr w e ∧ StaysInRegion readBackArgs w e)
      (ioworkerStart (plainEnv 16) readBackArgs) := .init rfl
  have hstays : StaysInRegion readBackArgs (ioworkerStart (plainEnv 16) readBackArgs)
      (.send ⟨2, 0⟩ (fun _ => 0#32) ⟨0, 0, 0, 0, 0⟩ 0 ⟨2, 0⟩ ⟨2, 0⟩) := by
    intro size a hs
    obtain ⟨-, rfl⟩ : 8 = size ∧ 1 = a := Prod.mk.inj (Except.ok.inj hs)
    have hcursor : (ioworkerStart (plainEnv 16) readBackArgs).cursor = 8 := rfl
    rw [hcursor]
    exact ⟨⟨8, Nat.one_dvd 8, by decide, by decide⟩, fun _ m _ hm => hm, by decide⟩
  obtain ⟨w, hw, hlen⟩ := hstart.exists_run (f := fun w => w.issued.length) (t := 1)
    [.send ⟨2, 0⟩ (fun _ => 0#32) ⟨0, 0, 0, 0, 0⟩ 0 ⟨2, 0⟩ ⟨2, 0⟩]
    ⟨⟨by simp [NoUncorr, uncorrCrc], hstays⟩, fun _ _ => trivial⟩ rfl
  have hall := ioworker_starts_in_region readBackArgs_admitted rfl
    ⟨8, by decide, by decide, by decide⟩ hw
  exact ⟨w, hw, hlen, fun x hx => (hall x hx).1⟩

/-- The second of the reads starts at LBA 0, before the region. -/
theorem ioworker_starts_before_region :
    readBackArgs.Admitted ∧ readBackArgs.ioSequence = none ∧ readBackArgs.lbaStepValid = true ∧
      (∃ m, readBackArgs.lbaAlignMax ∣ m ∧ readBackArgs.regionStart ≤ m ∧
        m < min (plainEnv 16).ns.numSectors readBackArgs.regionEnd) ∧
      ∃ w, (ioworkerMachine (plainEnv 16) readBackArgs).Reachable NoUncorr w ∧
        ∃ x ∈ w.issued, x.1.io.lba < readBackArgs.regionStart := by
  refine ⟨readBackArgs_admitted, rfl, rfl, ⟨8, by decide, by decide, by decide⟩, ?_⟩
  have hstart : (ioworkerMachine (plainEnv 16) readBackArgs).Reachable NoUncorr _ := .init rfl
  obtain ⟨w, hw, hf⟩ := hstart.exists_run (f := fun w => w.issued.map fun x => x.1.io.lba)
    (t := [8, 0]) (iteration 2 ⟨0, 0, 0, 0, 0⟩ 0 [0] ++ iteration 3 ⟨0, 0, 0, 0, 0⟩ 0 [0])
    (Machine.admits_of_forall (by simp [iteration, NoUncorr, uncorrCrc]) _) rfl
  have hmem : 0 ∈ w.issued.map fun x => x.1.io.lba := by simp [hf]
  obtain ⟨x, hx, h0⟩ := List.mem_map.1 hmem
  exact ⟨w, hw, x, hx, h0 ▸ by decide⟩

end Pynvme
