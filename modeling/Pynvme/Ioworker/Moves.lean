import Pynvme.Ioworker.Lba
import Pynvme.Ioworker.Accounting
import Pynvme.Lib.Rounds

/-!
# Sequential workloads with an alignment

The IOs of a sequential workload start at the multiples of its alignment: at the next
one after the IO before, or at the last one of the region if that is too far, and at the
start of the region when the IO before has reached its end.

`ioworker_keeps_moving`: if an IO at the last aligned LBA of the region reaches the end of
the region, the workload goes up in the region and returns to its start again and again.
Two consecutive IOs start at the same LBA only if each of them fills the region.
-/

namespace Pynvme

open Word Multiple

/-- A sequential workload with IOs of the size `n` and the alignment `a`, in the region from
    `s` to `e`: an IO at the last aligned LBA of the region reaches its end, and neither the
    cursor behind it nor an aligned LBA overflows. -/
structure Strides (env : Env) (args : Args) (s e n a : Nat) : Prop where
  valid : args.Valid
  sequence : args.ioSequence = none
  random : args.lbaRandom = 0
  step : args.lbaStepValid = false
  sizes : ∀ x ∈ args.lbaSizeList, x.size = n ∧ x.align = a
  regionStart : alignUp args.regionStart a = s
  regionEnd : min env.ns.numSectors args.regionEnd = e
  dvd : a ∣ s
  region : s < e
  reach : e ≤ roundDown (e - 1) a + n
  cursor_lt : roundDown (e - 1) a + n < 2 ^ 64
  align_lt : roundUp (e - 1) a < 2 ^ 64

variable {env : Env} {args : Args} {w w' : Worker} {d : Draws} {p : Prepared}
  {s e n a k : Nat} {now : Timeval} {table : Nat → BitVec 32} {rc : Int} {ev : IowEvent}

namespace Strides

theorem bounds (h : Strides env args s e n a) : 0 < a ∧ 0 < n ∧ n < 2 ^ 16 := by
  obtain ⟨x, hx, -⟩ := h.valid.alignMax
  obtain ⟨hsize, halign⟩ := h.sizes x hx
  have := h.valid.size x hx
  have := h.valid.align x hx
  omega

/-- The region of the worker, in which no IO is random. -/
theorem worker (h : Strides env args s e n a) (hw : w.settings = ioworkerSettings env args) :
    w.args.regionStart = s ∧ w.args.regionEnd = e ∧ w.args.lbaStepValid = false ∧
      d.isRandom w.args = false := by
  have hc := Configured.of_settings hw
  obtain ⟨x, hx, hmax⟩ := h.valid.alignMax
  refine ⟨?_, hc.regionEnd.trans h.regionEnd, hc.lbaStepValid.trans h.step, ?_⟩
  · rw [hc.regionStart, ← hmax, (h.sizes x hx).2, h.regionStart]
  · rw [Draws.isRandom, Worker.lbaRandom_eq hw, h.random]
    exact decide_eq_false (Nat.not_lt_zero _)

theorem no_overflow (h : Strides env args s e n a) (hw : w.settings = ioworkerSettings env args)
    (size a' : Nat) (hs : ioworkerSendOneSize w.args w.g d = .ok (size, a')) :
    roundUp (w.args.regionEnd - 1) a' < 2 ^ 64 := by
  obtain ⟨x, hx, -, rfl⟩ := (Configured.of_settings hw).size_mem h.valid hs
  rw [(h.sizes x hx).2, (h.worker (d := d) hw).2.1]
  exact h.align_lt

end Strides

/-- The starts of the IOs. -/
def Worker.starts (w : Worker) : List Nat := w.issued.map fun x => x.1.io.lba

/-- An IO starts where the cursor is rounded to, and leaves the cursor behind it. -/
theorem Sends.strides (h : Sends w w' k now table d p rc) (hs : Strides env args s e n a)
    (hw : w.settings = ioworkerSettings env args)
    (hun : ∀ lba < w.env.ns.numSectors, table lba ≠ uncorrCrc) :
    p.io.lba = stride s e a w.g.sequentialLba ∧ w'.g.sequentialLba = p.io.lba + n := by
  have hc := Configured.of_settings hw
  obtain ⟨hstart, hend, hstep, hrandom⟩ := hs.worker (d := d) hw
  have hregion : w.args.regionStart < w.args.regionEnd := by
    rw [hstart, hend]
    exact hs.region
  obtain ⟨x, hx, c, hdrawn⟩ := hc.drawn hs.valid hs.sequence hregion (hc.env_eq ▸ hun)
    (hs.no_overflow hw) h.prepared
  obtain ⟨hsize, halign⟩ := hs.sizes x hx
  have hlba : p.io.lba = stride s e a w.g.sequentialLba := by
    rw [hdrawn.lba, hdrawn.sequential hrandom, Worker.cursor, hstart, hend, halign, stride]
  refine ⟨hlba, ?_⟩
  -- the LBA is not behind the last multiple of the region
  have hle : p.io.lba ≤ roundDown (e - 1) a := by
    have hlt := hdrawn.lt
    rw [hend] at hlt
    refine le_roundDown ?_ (Nat.le_pred_of_lt hlt)
    rw [hlba, stride]
    exact dvd_fit _ _ _
  have hfits := hs.cursor_lt
  have hcursor : w'.g.sequentialLba = p.sequentialLba := congrArg Control.sequentialLba h.control
  rw [hcursor, hdrawn.cursor, hrandom, if_neg Bool.false_ne_true, nextSequentialLba, hstep,
    if_neg Bool.false_ne_true, hdrawn.size, hsize, u16_of_lt hs.bounds.2.2,
    u64_of_lt (by omega)]

/-! ### The runs -/

/-- The IOs of a worker stride through the region. -/
structure Strode (env : Env) (args : Args) (s e n a : Nat) (w : Worker) : Prop where
  settings : w.settings = ioworkerSettings env args
  cursor : s ≤ w.g.sequentialLba
  follows : ∃ c, Follows (stride s e a) c (w.starts.map fun x => (x, n))
    (stride s e a w.g.sequentialLba)
  starts : ∀ x ∈ w.starts, a ∣ x ∧ s ≤ x ∧ x < e
  asserts : ∀ why, w.pc = .aborted why → why ≠ .lba ∧ why ≠ .send

theorem Starts.strode (h : Starts env args w) (hs : Strides env args s e n a) :
    Strode env args s e n a w := by
  have hnil : w.starts = [] := by rw [Worker.starts, h.issued, List.map_nil]
  have hcursor : w.g.sequentialLba = w.args.lbaStart := congrArg Control.sequentialLba h.control
  constructor
  case settings => exact h.settings
  case cursor =>
    rw [hcursor, ← (hs.worker (d := ⟨0, 0, 0, 0, 0⟩) h.settings).1, h.args_eq]
    simp only [ioworkerReviseArgs]
    split_ifs <;> omega
  case follows => rw [hnil]; exact ⟨_, rfl⟩
  case starts => simp [hnil]
  case asserts => simp [h.pc]

theorem Strode.sends (hw : Strode env args s e n a w) (h : Sends w w' k now table d p rc)
    (hs : Strides env args s e n a)
    (hun : ∀ lba < w.env.ns.numSectors, table lba ≠ uncorrCrc) :
    Strode env args s e n a w' := by
  obtain ⟨hlba, hcursor⟩ := h.strides hs hw.settings hun
  have hmem := stride_mem hs.bounds.1 hs.dvd hs.region hw.cursor
  rw [← hlba] at hmem
  have hstarts : w'.starts = w.starts ++ [p.io.lba] := by
    rw [Worker.starts, h.issued, List.map_append]
    rfl
  have hpc := h.pc'
  constructor
  case settings => exact h.settings.trans hw.settings
  case cursor => rw [hcursor]; omega
  case follows =>
    obtain ⟨c, hfollows⟩ := hw.follows
    refine ⟨c, ?_⟩
    rw [hstarts, List.map_append, hcursor]
    exact hfollows.concat hlba
  case starts =>
    rw [hstarts, List.forall_mem_append, List.forall_mem_singleton]
    exact ⟨hw.starts, hmem⟩
  case asserts => simp [hpc]

/-- A step that does not send keeps the cursor. -/
theorem Strode.of_eq (hw : Strode env args s e n a w) (hset : w'.settings = w.settings)
    (hissued : w'.issued = w.issued) (hlba : w'.g.sequentialLba = w.g.sequentialLba)
    (hasserts : ∀ why, w'.pc = .aborted why → why ≠ .lba ∧ why ≠ .send) :
    Strode env args s e n a w' := by
  have hstarts : w'.starts = w.starts := by rw [Worker.starts, hissued, Worker.starts]
  refine ⟨hset.trans hw.settings, ?_, ?_, ?_, hasserts⟩
  · rw [hlba]
    exact hw.cursor
  · rw [hstarts, hlba]
    exact hw.follows
  · rw [hstarts]
    exact hw.starts

theorem Strode.moves (hw : Strode env args s e n a w) (h : MovesOn w w' ev)
    (hs : Strides env args s e n a) (hun : NoUncorr w ev) : Strode env args s e n a w' := by
  refine hw.of_eq h.settings h.issued (congrArg Control.sequentialLba h.control) ?_
  intro why hpc
  rcases h.aborted why hpc with rfl | ⟨⟨rfl, -⟩ | ⟨rfl, -⟩, -⟩ | ⟨rfl, -⟩ |
    ⟨k, now, table, d, rc, timeSent, after, -, -, rfl, hp⟩
  · decide
  · decide
  · decide
  · decide
  · have hc := Configured.of_settings hw.settings
    obtain ⟨hstart, hend, -⟩ := hs.worker (d := d) hw.settings
    have hregion : w.args.regionStart < w.args.regionEnd := by
      rw [hstart, hend]
      exact hs.region
    have hun' : ∀ lba < env.ns.numSectors, table lba ≠ uncorrCrc := hc.env_eq ▸ hun
    rw [hc.prepare_error hs.valid hs.sequence hregion hun' (hs.no_overflow hw.settings) hp]
    decide

theorem strode_of_reachable (hs : Strides env args s e n a)
    (h : (ioworkerMachine env args).Reachable NoUncorr w) :
    Refuses w ∨ Strode env args s e n a w := by
  refine ioworker_invariant hs.valid.qdepth_lt h (fun w hw => hw.strode hs) ?_ ?_ ?_
  · exact fun w w' k now table d p rc timeSent after hw hun hsends => hw.sends hsends hs hun
  · intro w w' k status now now' n hw _ _ _ hpc hc
    exact hw.of_eq hc.settings hc.issued (congrArg Control.sequentialLba hc.control)
      (by simp [hpc])
  · exact fun w w' ev hw hun hm => hw.moves hm hs hun

/-- A sequential workload of one size and alignment, without a step, in a region in which an
    IO at the last aligned LBA reaches the end. Two consecutive IOs start at the same LBA
    exactly if that is the start of the region and an IO fills the region; as many IOs as the
    region has LBAs include one at its start; and no assertion on the LBA fails. -/
theorem ioworker_keeps_moving (hargs : args.Admitted) (hseq : args.ioSequence = none)
    (hrandom : args.lbaRandom = 0) (hstep : args.lbaStepValid = false)
    (hsizes : ∀ x ∈ args.lbaSizeList, x.size = n ∧ x.align = a)
    (hstart : alignUp args.regionStart a = s) (hend : min env.ns.numSectors args.regionEnd = e)
    (hdvd : a ∣ s) (hregion : s < e) (hreach : e ≤ roundDown (e - 1) a + n)
    (hcursor : roundDown (e - 1) a + n < 2 ^ 64) (halign : roundUp (e - 1) a < 2 ^ 64)
    (h : (ioworkerMachine env args).Reachable NoUncorr w) :
    (∀ l₁ x y l₂, w.starts = l₁ ++ x :: y :: l₂ → (x = y ↔ x = s ∧ e ≤ s + n)) ∧
    (∀ l₁ l₂ l₃, w.starts = l₁ ++ l₂ ++ l₃ → l₂.length = e - s → s ∈ l₂) ∧
    w.pc ≠ .aborted .lba ∧ w.pc ≠ .aborted .send := by
  have hs : Strides env args s e n a := ⟨hargs.valid, hseq, hrandom, hstep, hsizes, hstart, hend,
    hdvd, hregion, hreach, hcursor, halign⟩
  obtain ⟨ha, hn, -⟩ := hs.bounds
  rcases strode_of_reachable hs h with hr | hw
  · have hnil : w.starts = [] := by rw [Worker.starts, hr.issued, List.map_nil]
    refine ⟨fun l₁ x y l₂ hl => ?_, fun l₁ l₂ l₃ hl hlen => ?_, ?_⟩
    · simp [hnil] at hl
    · rw [hnil] at hl
      obtain rfl : l₂ = [] := by simp_all
      rw [List.length_nil] at hlen
      omega
    · rcases hr.pc with ⟨_, hpc⟩ | hpc | hpc <;> simp [hpc]
  · obtain ⟨c, hfollows⟩ := hw.follows
    refine ⟨fun l₁ x y l₂ hl => ?_, fun l₁ l₂ l₃ hl hlen => ?_,
      fun hpc => (hw.asserts _ hpc).1 rfl, fun hpc => (hw.asserts _ hpc).2 rfl⟩
    · rw [hl, List.map_append, List.map_cons, List.map_cons] at hfollows
      obtain ⟨m, -, -, hy, -⟩ := follows_append.1 hfollows
      rw [← stride_eq_iff ha hdvd hregion hreach hn, ← hy]
      exact eq_comm
    · rw [hl, List.map_append, List.map_append, follows_append] at hfollows
      obtain ⟨m, hfollows, -⟩ := hfollows
      obtain ⟨m', -, hfollows⟩ := follows_append.1 hfollows
      have hin : ∀ x ∈ l₂, s ≤ x ∧ x < e := fun x hx =>
        (hw.starts x (by rw [hl]; simp [hx])).2
      obtain ⟨y, hy, hys⟩ := hfollows.visits ha hdvd hregion hreach hn (by simp)
        (by simpa using hin) (by rw [List.length_map, hlen])
      obtain ⟨x, hx, rfl⟩ := List.mem_map.1 hy
      exact hys ▸ hx

/-- The parameters of three reads of 8 sectors in the region from 0 to 12, with an alignment
    of 5. -/
def readAligned : PyArgs :=
  { readOnce with regionEnd := 12, lbaAlign := .int 5, ioCount := 3 }

/-- Their arguments. -/
def readAlignedArgs : Args :=
  { readOnceArgs with
    regionEnd := 12
    lbaAlignMax := 5
    lbaSizeList := [⟨8, 1, 5⟩]
    ioCount := 3 }

/-- The third of them is back at the start of the region. -/
theorem ioworker_keeps_moving_aligned :
    ∃ w, (ioworkerMachine (plainEnv 16) readAlignedArgs).Reachable NoUncorr w ∧
      w.starts = [0, 10, 0] ∧ ∀ l₁ x y l₂, w.starts = l₁ ++ x :: y :: l₂ → x ≠ y := by
  have hinit : (ioworkerMachine (plainEnv 16) readAlignedArgs).Reachable NoUncorr _ := .init rfl
  obtain ⟨w, hw, hf⟩ := hinit.exists_run (f := Worker.starts) (t := [0, 10, 0])
    (iteration 2 ⟨0, 0, 0, 0, 0⟩ 0 [0] ++ iteration 3 ⟨0, 0, 0, 0, 0⟩ 0 [0] ++
      iteration 4 ⟨0, 0, 0, 0, 0⟩ 0 [0])
    (Machine.admits_of_forall (by simp [iteration, NoUncorr, uncorrCrc]) _) rfl
  have hmoves := (ioworker_keeps_moving (n := 8) (a := 5) (s := 0) (e := 12)
    ⟨1, readAligned, _, rfl, rfl⟩ rfl rfl rfl (by decide) (by decide) (by decide) (by decide)
    (by decide) (by decide) (by decide) (by decide) hw).1
  refine ⟨w, hw, hf, fun l₁ x y l₂ hl hxy => ?_⟩
  exact absurd ((hmoves l₁ x y l₂ hl).1 hxy).2 (by decide)

/-! ### The same LBA again -/

/-- The parameters of two reads of 8 sectors, which fill the region from 0 to 8. -/
def readFilling : PyArgs := { readOnce with regionEnd := 8, ioCount := 2 }

/-- Their arguments. -/
def readFillingArgs : Args := { readOnceArgs with regionEnd := 8, ioCount := 2 }

/-- The parameters of three reads of one sector in the region from 0 to 7, with an alignment
    of 4. -/
def readSparse : PyArgs :=
  { readOnce with ioSize := .int 1, regionEnd := 7, lbaAlign := .int 4, ioCount := 3 }

/-- Their arguments. -/
def readSparseArgs : Args :=
  { readOnceArgs with
    regionEnd := 7
    lbaSizeMax := 1
    lbaAlignMax := 4
    lbaSizeList := [⟨1, 1, 4⟩]
    ioCount := 3 }

/-- Both regions have two aligned LBAs. In the first one, each read fills the region; in the
    second one, the cursor 5 behind the read at 4 is rounded up to 8, which is too far, and
    down to 4 again. -/
theorem ioworker_not_keeps_moving :
    (readFillingArgs.Admitted ∧ (1 ∣ 0 ∧ 1 ∣ 1 ∧ 1 < 8) ∧
      ∃ w, (ioworkerMachine (plainEnv 16) readFillingArgs).Reachable NoUncorr w ∧
        w.starts = [0, 0]) ∧
    (readSparseArgs.Admitted ∧ (4 ∣ 0 ∧ 4 ∣ 4 ∧ 4 < 7) ∧
      ∃ w, (ioworkerMachine (plainEnv 16) readSparseArgs).Reachable NoUncorr w ∧
        w.starts = [0, 4, 4]) := by
  refine ⟨⟨⟨1, readFilling, _, rfl, rfl⟩, by decide, ?_⟩,
    ⟨⟨1, readSparse, _, rfl, rfl⟩, by decide, ?_⟩⟩
  · have hinit : (ioworkerMachine (plainEnv 16) readFillingArgs).Reachable NoUncorr _ := .init rfl
    exact hinit.exists_run (f := Worker.starts) (t := [0, 0])
      (iteration 2 ⟨0, 0, 0, 0, 0⟩ 0 [0] ++ iteration 3 ⟨0, 0, 0, 0, 0⟩ 0 [0])
      (Machine.admits_of_forall (by simp [iteration, NoUncorr, uncorrCrc]) _) rfl
  · have hinit : (ioworkerMachine (plainEnv 16) readSparseArgs).Reachable NoUncorr _ := .init rfl
    exact hinit.exists_run (f := Worker.starts) (t := [0, 4, 4])
      (iteration 2 ⟨0, 0, 0, 0, 0⟩ 0 [0] ++ iteration 3 ⟨0, 0, 0, 0, 0⟩ 0 [0] ++
        iteration 4 ⟨0, 0, 0, 0, 0⟩ 0 [0])
      (Machine.admits_of_forall (by simp [iteration, NoUncorr, uncorrCrc]) _) rfl

end Pynvme
