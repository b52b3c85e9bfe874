import Pynvme.Ioworker.Region

/-!
# Regions without an aligned LBA

The assertion of `ioworker_entry` that the region is not empty comes before it aligns
the start of the region and clips its end to the namespace. If that leaves nothing, a
sequential IO starts from the aligned start, behind the region, and is rounded down
across the end: into the region if it has a multiple of the alignment of the IO, and
else before it. A random IO trips an assertion, unless the aligned start is just the
end.

`ioworker_lands_in_region` says when all IOs land in the region that was asked for
and no assertion fails.
-/

namespace Pynvme

open Word Multiple

variable {env : Env} {args : Args} {w w' : Worker} {d : Draws} {p : Prepared} {c a k : Nat}
  {now : Timeval} {table : Nat → BitVec 32} {rc : Int} {ev : IowEvent} {why : Abort}

/-! ### The rules -/

/-- The rule that the clock is behind the start of the worker. -/
def ClockRuns (w : Worker) (e : IowEvent) : Prop :=
  ∀ now ∈ e.clock, now.gt w.env.testStart = true ∧ now.sec ≠ 0

/-- Where the IO starts in an empty region: at its start, or behind the bad LBAs. -/
def Worker.startLba (w : Worker) (table : Nat → BitVec 32) (d : Draws) : Option Nat :=
  if d.isRandom w.args then some w.args.regionStart
  else crc32SkipUncorr (w.nsWith table) w.cursor

/-- The entry that the context at the head of the pending list replays. -/
def Worker.headEntry (w : Worker) (seq : List IoSeq) : IoSeq :=
  seq.getD (w.headIo.elim 0 fun k => (w.ioCtx k).ioSequenceIndex) ⟨0, 0, 0, 0⟩

/-- The rule that a send lands in the region that was asked for. A random one needs
    that the aligned start is the end; no multiple of the alignment lies from the end
    to where the IO starts, which does not overflow when it is aligned. Then, an IO
    that is drawn needs a multiple in the region, and none before it from where it
    starts; one that is replayed needs to be in the region itself. -/
def LandsInRegion (args : Args) (w : Worker) : IowEvent → Prop
  | .send _ table d _ _ _ => ∀ size a, ioworkerSendOneSize w.args w.g d = .ok (size, a) →
      (d.isRandom w.args = true → w.args.regionStart = w.args.regionEnd) ∧
      ∃ c, w.startLba table d = some c ∧ roundUp c a < 2 ^ 64 ∧
        (∀ m, a ∣ m → m < c → m < w.args.regionEnd) ∧
        match w.g.ioSequence with
        | none => (∃ m, a ∣ m ∧ args.regionStart ≤ m ∧ m < w.args.regionEnd) ∧
            ∀ m, a ∣ m → c ≤ m → args.regionStart ≤ m
        | some seq => args.regionStart ≤ (w.headEntry seq).slba ∧
            (w.headEntry seq).slba < w.args.regionEnd
  | _ => True

/-! ### A send -/

/-- In an empty region that is not before LBA 0 there is no distribution, and the
    raw LBA is that of the rule. -/
theorem Configured.rawLba_of_empty (h : Configured env args w) (hv : args.Valid)
    (hempty : w.args.regionEnd ≤ w.args.regionStart) (hpos : 0 < w.args.regionEnd)
    (hrandom : d.isRandom w.args = true → w.args.regionStart = w.args.regionEnd)
    (hc : w.startLba table d = some c) :
    ioworkerRawLba (w.nsWith table) w.args w.g d = .ok c := by
  rw [ioworkerRawLba]
  rw [Worker.startLba] at hc
  cases hr : d.isRandom w.args with
  | true =>
    rw [hr, if_pos rfl] at hc
    have hdist : w.g.distribution = false := by
      rw [h.distribution]
      rcases hd : args.distribution with _ | l
      · rfl
      · have hS : w.args.regionStart = 0 := by
          rw [h.regionStart, (hv.distribution l hd).1, alignUp, Nat.zero_mod]
          rfl
        omega
    have heq : (randomSection w.args w.g d).lbaEnd = (randomSection w.args w.g d).lbaStart := by
      rw [randomSection, hdist]
      exact (hrandom hr).symm
    rw [if_pos rfl, ioworkerSendOneLbaRandom, if_pos heq, ← Option.some.inj hc, randomSection,
      hdist]
    rfl
  | false =>
    rw [hr, if_neg Bool.false_ne_true] at hc
    rw [if_neg Bool.false_ne_true, ioworkerSendOneLbaSequential_eq, hc]

/-- What is sent under the rule: the LBA is found and aligned, and it, or what is
    replayed instead of it, is in the region. -/
theorem Configured.target_of_lands (h : Configured env args w) (hv : args.Valid)
    (hempty : w.args.regionEnd ≤ w.args.regionStart) (hk : w.headIo = some k)
    {timeSent after : Timeval} (hlands : LandsInRegion args w (.send now table d rc timeSent after))
    {size : Nat}
    (hsize : ioworkerSendOneSize w.args w.g d = .ok (size, a)) :
    ∃ c lba, ioworkerRawLba (w.nsWith table) w.args w.g d = .ok c ∧
      ioworkerAlignLba w.args.regionEnd c a = .ok lba ∧
      ∀ opIndex op, args.regionStart ≤
          (ioworkerReplayOne w.g (w.ioCtx k) opIndex ⟨lba, 0, op, size⟩).2.slba ∧
        (ioworkerReplayOne w.g (w.ioCtx k) opIndex ⟨lba, 0, op, size⟩).2.slba <
          w.args.regionEnd := by
  obtain ⟨hrandom, c, hc, hover, habove, htarget⟩ := hlands size a hsize
  obtain ⟨e, he, -, rfl⟩ := h.size_mem hv hsize
  have ha := (hv.align e he).1
  have hpos : 0 < w.args.regionEnd := by
    split at htarget
    · obtain ⟨⟨m, -, -, hm⟩, -⟩ := htarget
      omega
    · omega
  have hfit : fit w.args.regionEnd c e.align < w.args.regionEnd :=
    ((fit_mem_iff (s := 0) ha).2 ⟨⟨0, Nat.dvd_zero _, Nat.le_refl 0, hpos⟩,
      fun _ _ _ => Nat.zero_le _, habove⟩).2
  refine ⟨c, fit w.args.regionEnd c e.align, h.rawLba_of_empty hv hempty hpos hrandom hc, ?_, ?_⟩
  · rw [ioworkerAlignLba_eq ha hover, if_pos hfit]
  · intro opIndex op
    cases hseq : w.g.ioSequence with
    | none =>
      rw [hseq] at htarget
      rw [ioworkerReplayOne, hseq]
      exact (fit_mem_iff ha).2 ⟨htarget.1, htarget.2, habove⟩
    | some seq =>
      rw [hseq] at htarget
      rw [ioworkerReplayOne, hseq]
      simpa only [Worker.headEntry, hk, Option.elim_some] using htarget

/-- The IO lies in the region from `s` to `e`. -/
structure Landed (s e : Nat) (p : Prepared) : Prop where
  le : s ≤ p.io.lba
  lt : p.io.lba < e
  tail : p.io.lba + p.io.count ≤ e

theorem Sends.landed {timeSent after : Timeval} (h : Sends w w' k now table d p rc)
    (hc : Configured env args w) (hv : args.Valid)
    (hempty : w.args.regionEnd ≤ w.args.regionStart)
    (hlands : LandsInRegion args w (.send now table d rc timeSent after)) :
    Landed args.regionStart w.args.regionEnd p := by
  obtain ⟨a, raw, lba, opIndex, op, hsize, hraw, halign, -, hio⟩ :=
    ioworkerSendOnePrepare_eq_ok h.prepared
  obtain ⟨c, lba', hraw', halign', htarget⟩ := hc.target_of_lands hv hempty h.headIo hlands hsize
  obtain rfl : c = raw := Except.ok.inj (hraw'.symm.trans hraw)
  obtain rfl : lba' = lba := Except.ok.inj (halign'.symm.trans halign)
  obtain ⟨hle, hlt⟩ := htarget opIndex op
  obtain ⟨-, hlba, hcount, -⟩ := ioworkerSendOneIo_eq_ok hio
  rw [← hlba] at hle hlt
  refine ⟨hle, hlt, ?_⟩
  rw [hcount, ← hlba]
  exact truncate_le hlt

/-- The sending under the rule trips no assertion. -/
theorem Configured.prepare_error_of_lands {timeSent after : Timeval} (h : Configured env args w)
    (hv : args.Valid) (hempty : w.args.regionEnd ≤ w.args.regionStart) (hk : w.headIo = some k)
    (hlands : LandsInRegion args w (.send now table d rc timeSent after))
    (hp : ioworkerSendOnePrepare (w.nsWith table) w.args w.g (w.ioCtx k) d = .error why) :
    why = .divisionByZero := by
  rcases ioworkerSendOnePrepare_eq_error hp with hp | ⟨size, a, hsize, hp⟩
  · exact ioworkerSendOneSize_eq_error hp
  obtain ⟨c, lba, hraw, halign, htarget⟩ := h.target_of_lands hv hempty hk hlands hsize
  rcases hp with hp | ⟨raw, hraw', hp | ⟨lba', opIndex, op, halign', hp⟩⟩
  · rw [hraw] at hp
    cases hp
  · obtain rfl : c = raw := Except.ok.inj (hraw.symm.trans hraw')
    rw [halign] at hp
    cases hp
  · obtain rfl : c = raw := Except.ok.inj (hraw.symm.trans hraw')
    obtain rfl : lba = lba' := Except.ok.inj (halign.symm.trans halign')
    have hlt := (htarget opIndex op).2
    have hgt := (ioworkerSendOneIo_eq_error hp).2
    omega

/-! ### The runs -/

/-- All IOs have landed in the region, no assertion on the LBA or the clock has
    failed, and the clock was read, but for the start. -/
structure Lands (env : Env) (args : Args) (w : Worker) : Prop where
  settings : w.settings = ioworkerSettings env args
  landed : ∀ x ∈ w.issued, Landed args.regionStart w.args.regionEnd x.1
  asserts : ∀ why, w.pc = .aborted why → why = .divisionByZero ∨ why = .isFinish
  clock : (w.pc = .head ∧ w.g.flagFinish = false) ∨
    (w.now.gt w.env.testStart = true ∧ w.now.sec ≠ 0)

theorem Worker.regionEnd_eq (h : w'.settings = w.settings) :
    w'.args.regionEnd = w.args.regionEnd ∧ w'.env = w.env :=
  ⟨(congrArg (fun s => s.args.regionEnd) h :), congrArg Settings.env h⟩

theorem Lands.clock_of_ne (h : Lands env args w) (hpc : w.pc = .head → ¬w.Continues) :
    w.now.gt w.env.testStart = true ∧ w.now.sec ≠ 0 := by
  rcases h.clock with ⟨hhead, hflag⟩ | hclock
  · exact absurd (.inr (.inl (by simp [hflag]))) (hpc hhead)
  · exact hclock

theorem Sends.lands {timeSent after : Timeval} (h : Sends w w' k now table d p rc)
    (hv : args.Valid) (hempty : w.args.regionEnd ≤ w.args.regionStart)
    (hclock : ClockRuns w (.send now table d rc timeSent after))
    (hlands : LandsInRegion args w (.send now table d rc timeSent after))
    (hw : Lands env args w) : Lands env args w' := by
  obtain ⟨hE, henv⟩ := Worker.regionEnd_eq h.settings
  have hpc := h.pc'
  constructor
  case settings => exact h.settings.trans hw.settings
  case landed =>
    rw [h.issued, hE, List.forall_mem_append, List.forall_mem_singleton]
    exact ⟨hw.landed, h.landed (Configured.of_settings hw.settings) hv hempty hlands⟩
  case asserts => simp [hpc]
  case clock =>
    rw [h.clock, henv]
    exact .inr (hclock now rfl)

theorem Completes.lands {status : Status} {now' : Timeval} {n : Nat}
    (h : Completes w w' k status now now') (hn : w.pc = .polling n) (hpc : w'.pc = .polling (n + 1))
    (hw : Lands env args w) : Lands env args w' := by
  obtain ⟨hE, henv⟩ := Worker.regionEnd_eq h.settings
  constructor
  case settings => exact h.settings.trans hw.settings
  case landed => rw [h.issued, hE]; exact hw.landed
  case asserts => simp [hpc]
  case clock =>
    rw [h.clock, henv]
    exact .inr (hw.clock_of_ne (by simp [hn]))

theorem MovesOn.lands (h : MovesOn w w' ev) (hv : args.Valid)
    (hempty : w.args.regionEnd ≤ w.args.regionStart) (hclock : ClockRuns w ev)
    (hlands : LandsInRegion args w ev) (hw : Lands env args w) : Lands env args w' := by
  obtain ⟨hE, henv⟩ := Worker.regionEnd_eq h.settings
  constructor
  case settings => exact h.settings.trans hw.settings
  case landed => rw [h.issued, hE]; exact hw.landed
  case asserts =>
    intro why hpc
    rcases h.aborted why hpc with rfl | ⟨hfailed, hat⟩ | ⟨rfl, -⟩ |
      ⟨k, now, table, d, rc, timeSent, after, -, hk, rfl, hp⟩
    · exact .inl rfl
    -- The clock is tested in an iteration, or after one that has set the flag.
    · have hok := hw.clock_of_ne fun hhead => by
        rcases hat with hsent | ⟨-, hstop⟩
        · exact absurd (hhead.symm.trans hsent) (by decide)
        · exact hstop
      rcases hfailed with ⟨-, hgt⟩ | ⟨-, hzero⟩
      · exact absurd (hok.1.symm.trans hgt) (by decide)
      · exact absurd hzero hok.2
    · exact .inr rfl
    · have hc := Configured.of_settings hw.settings
      exact .inl (hc.prepare_error_of_lands hv hempty hk hlands hp)
  case clock =>
    rw [h.clock, henv]
    cases hnow : ev.clock with
    | none => exact .inr (hw.clock_of_ne fun hhead => h.leaves hhead hnow)
    | some now => exact .inr (hclock now hnow)

theorem Starts.lands (h : Starts env args w) : Lands env args w where
  settings := h.settings
  landed := by simp [h.issued]
  asserts := by simp [h.pc]
  clock := .inl ⟨h.pc, congrArg Control.flagFinish h.control⟩

/-- The assertions of `ioworker_entry` fail at the start. -/
theorem start_of_entry {P : Worker → IowEvent → Prop}
    (h : (ioworkerMachine env args).Reachable P w) (hpc : w.pc = .aborted .entry) :
    (ioworkerStart env args).pc = .aborted .entry := by
  revert hpc
  refine h.invariant
    (I := fun w => w.pc = .aborted .entry → (ioworkerStart env args).pc = .aborted .entry) ?_ ?_
  · rintro _ rfl
    exact id
  · intro w e w' _ _ hs hpc
    obtain ⟨_, _, _, _, _, _, _, -, -, -, hp⟩ := ioworkerStep_prepare_of_aborted hs hpc (by decide)
    exact absurd rfl (ioworkerSendOnePrepare_error_ne hp).2

/-- In a region that `ioworker_entry` makes an empty one: in every run whose sends all
    meet the rule, all IOs lie in the region that was asked for, and no assertion
    fails, but for the one of `buffer_init` on a pattern of more than 100 percent. (A
    worker that completes nothing divides by zero at its end.) -/
theorem ioworker_lands_in_region (hargs : args.Admitted)
    (hempty : min env.ns.numSectors args.regionEnd ≤ alignUp args.regionStart args.lbaAlignMax)
    (hlen : args.cmdlogList.length < 1024 * 1024)
    (h : (ioworkerMachine env args).Reachable
      (fun w e => ClockRuns w e ∧ LandsInRegion args w e) w) :
    (∀ x ∈ w.issued, args.regionStart ≤ x.1.io.lba ∧ x.1.io.lba < args.regionEnd ∧
      x.1.io.lba + x.1.io.count ≤ args.regionEnd) ∧
    ∀ why, w.pc = .aborted why → why = .divisionByZero ∨
      (why = .entry ∧ ¬BufferInitAsserts args.ptype args.pvalue) := by
  have hv := hargs.valid
  have hempty' : ∀ w : Worker, w.settings = ioworkerSettings env args →
      w.args.regionEnd ≤ w.args.regionStart := by
    intro w hset
    have hc := Configured.of_settings hset
    rw [hc.regionEnd, hc.regionStart]
    exact hempty
  have hor : Refuses w ∨ Lands env args w := by
    refine ioworker_invariant hv.qdepth_lt h (fun w => Starts.lands) ?_ ?_ ?_
    · exact fun w w' k now table d p rc timeSent after hw ⟨hclock, hlands⟩ hs =>
        hs.lands hv (hempty' w hw.settings) hclock hlands hw
    · exact fun w w' k status now now' n hw _ _ hn hpc hc => hc.lands hn hpc hw
    · exact fun w w' e hw ⟨hclock, hlands⟩ hm =>
        hm.lands hv (hempty' w hw.settings) hclock hlands hw
  rcases hor with hr | hw
  · refine ⟨by simp [hr.issued], fun why hpc => ?_⟩
    rcases hr.pc with ⟨_, hpc'⟩ | hpc' | hpc'
    · rw [hpc'] at hpc
      cases hpc
    · exact .inr ⟨Pc.aborted.inj (hpc.symm.trans hpc'),
        ((ioworkerStart_pc env hv hlen).1.1 (start_of_entry h hpc')).2⟩
    · exact .inl (Pc.aborted.inj (hpc.symm.trans hpc'))
  · have hE : w.args.regionEnd ≤ args.regionEnd := by
      rw [(Configured.of_settings hw.settings).regionEnd]
      exact Nat.min_le_right _ _
    refine ⟨fun x hx => ?_, fun why hpc => .inl ((hw.asserts why hpc).resolve_right ?_)⟩
    · obtain ⟨hle, hlt, htail⟩ := hw.landed x hx
      exact ⟨hle, lt_of_lt_of_le hlt hE, le_trans htail hE⟩
    · rintro rfl
      rcases accounted_of_reachable hv h with hr | ⟨ha, -⟩
      · rcases hr.pc with ⟨_, hpc'⟩ | hpc' | hpc' <;> simp [hpc'] at hpc
      · exact ha.counted hpc

/-! ### A region of seven LBAs -/

/-- The parameters of a read in the region from 1 to 8, with the alignments `aligns`
    of the sizes 1 and 2. -/
def readOdd (aligns : List Int) : PyArgs :=
  { readOnce with
    ioSize := .list [1, 2], regionStart := 1, regionEnd := 8, lbaAlign := .list aligns }

/-- Their arguments. -/
def readOddArgs (a₁ a₂ : Nat) : Args :=
  { readOnceArgs with
    lbaSizeMax := 2
    lbaAlignMax := max a₁ a₂
    lbaSizeRatioSum := 2
    lbaSizeList := [⟨1, 1, a₁⟩, ⟨2, 1, a₂⟩]
    regionStart := 1
    regionEnd := 8 }

/-- The sending of that read. -/
def sendOdd : IowEvent := .send ⟨2, 0⟩ (fun _ => 0#32) ⟨0, 0, 0, 0, 0⟩ 0 ⟨2, 0⟩ ⟨2, 0⟩

theorem sendOdd_clock (h : w.env = plainEnv 8) : ClockRuns w sendOdd := by
  intro now hnow
  obtain rfl : ⟨2, 0⟩ = now := Option.some.inj hnow
  rw [h]
  decide

/-- With the alignments 1 and 8, an IO of the size 1 lands in the region. -/
theorem ioworker_lands_in_region_small :
    ∃ w, (ioworkerMachine (plainEnv 8) (readOddArgs 1 8)).Reachable
        (fun w e => ClockRuns w e ∧ LandsInRegion (readOddArgs 1 8) w e) w ∧
      w.issued.length = 1 ∧ ∀ x ∈ w.issued, 1 ≤ x.1.io.lba := by
  have hadmitted : (readOddArgs 1 8).Admitted := ⟨1, readOdd [1, 8], _, rfl, rfl⟩
  have hstart : (ioworkerMachine (plainEnv 8) (readOddArgs 1 8)).Reachable
      (fun w e => ClockRuns w e ∧ LandsInRegion (readOddArgs 1 8) w e)
      (ioworkerStart (plainEnv 8) (readOddArgs 1 8)) := .init rfl
  have hlands : LandsInRegion (readOddArgs 1 8) (ioworkerStart (plainEnv 8) (readOddArgs 1 8))
      sendOdd := by
    intro size a hs
    obtain ⟨-, rfl⟩ : 1 = size ∧ 1 = a := Prod.mk.inj (Except.ok.inj hs)
    refine ⟨fun hr => absurd hr (by decide), 8, rfl, by decide, fun m _ hm => hm, ?_⟩
    exact ⟨⟨1, Nat.one_dvd 1, by decide, by decide⟩, fun m _ hm => le_trans (by decide) hm⟩
  obtain ⟨w, hw, hlen⟩ := hstart.exists_run (f := fun w => w.issued.length) (t := 1) [sendOdd]
    ⟨⟨sendOdd_clock rfl, hlands⟩, fun _ _ => trivial⟩ rfl
  have hall := (ioworker_lands_in_region hadmitted (by decide) (by decide) hw).1
  exact ⟨w, hw, hlen, fun x hx => (hall x hx).1⟩

/-- With the alignment 8, for which the region has no LBA, the IO goes to LBA 0. -/
theorem ioworker_lands_before_region :
    (readOddArgs 8 8).Admitted ∧
      min (plainEnv 8).ns.numSectors (readOddArgs 8 8).regionEnd ≤
        alignUp (readOddArgs 8 8).regionStart (readOddArgs 8 8).lbaAlignMax ∧
      ∃ w, (ioworkerMachine (plainEnv 8) (readOddArgs 8 8)).Reachable ClockRuns w ∧
        ∃ x ∈ w.issued, x.1.io.lba < (readOddArgs 8 8).regionStart := by
  refine ⟨⟨1, readOdd [8, 8], _, rfl, rfl⟩, by decide, ?_⟩
  have hstart : (ioworkerMachine (plainEnv 8) (readOddArgs 8 8)).Reachable ClockRuns
      (ioworkerStart (plainEnv 8) (readOddArgs 8 8)) := .init rfl
  obtain ⟨w, hw, hf⟩ := hstart.exists_run
    (f := fun w => w.issued.map fun x => x.1.io.lba) (t := [0])
    [sendOdd] ⟨sendOdd_clock rfl, fun _ _ => trivial⟩ rfl
  have hmem : 0 ∈ w.issued.map fun x => x.1.io.lba := by simp [hf]
  obtain ⟨x, hx, h0⟩ := List.mem_map.1 hmem
  exact ⟨w, hw, x, hx, h0 ▸ by decide⟩

end Pynvme
