import Pynvme.Ioworker.Skip
import Pynvme.Zns.Zone

/-!
# Workloads in zones

`Zone.ioworker` runs a sequential workload from the start of the first zone to the end of the
last one. The LBAs between the capacity of a zone and the next zone are marked, and skipped.

* `zone_ioworker`: while the LBAs between the zones are marked, IOs of a size that divides the
  capacity fill one zone after the other, up to the end of the region. Written to zones that
  were opened, all of them start at the write pointer of their zone, and none goes beyond its
  capacity.
* `zone_ioworker_pass`: so they do in one pass, with the marks of `Zone.__init__` and what the
  IOs themselves make of them.
-/

namespace Pynvme

open Word

namespace Zone

variable {z : Zone} {n k i b lba : Nat}

/-! ### Where the IOs start -/

/-- The IOs of the size `n` that fill a zone. -/
def perZone (z : Zone) (n : Nat) : Nat := z.capacity / n

/-- The start of the IO `k`, if IOs of the size `n` fill one zone after the other. -/
def ioStart (z : Zone) (n k : Nat) : Nat :=
  z.slba + k / z.perZone n * z.zsze + k % z.perZone n * n

theorem ioStart_zero (z : Zone) (n : Nat) : z.ioStart n 0 = z.slba := by simp [ioStart]

/-- IOs of the size `n` fill the capacity of a zone. -/
structure Fills (z : Zone) (n : Nat) : Prop where
  dvd : n ∣ z.capacity
  capacity_pos : 0 < z.capacity
  capacity_le : z.capacity ≤ z.zsze

namespace Fills

variable (h : z.Fills n)
include h

theorem perZone_mul : z.perZone n * n = z.capacity := Nat.div_mul_cancel h.dvd

theorem size_pos : 0 < n := Nat.pos_of_dvd_of_pos h.dvd h.capacity_pos

theorem perZone_pos : 0 < z.perZone n :=
  Nat.pos_of_mul_pos_right (h.perZone_mul ▸ h.capacity_pos)

theorem ioStart_add (hb : b < z.perZone n) :
    z.ioStart n (z.perZone n * i + b) = z.slba + i * z.zsze + b * n := by
  rw [ioStart, Nat.mul_add_div h.perZone_pos, Nat.mul_add_mod, Nat.div_eq_of_lt hb,
    Nat.mod_eq_of_lt hb, Nat.add_zero]

/-- The zone and the number in it of an IO. -/
theorem exists_ioStart (k : Nat) : ∃ i b, b < z.perZone n ∧ k = z.perZone n * i + b ∧
    z.ioStart n k = z.slba + i * z.zsze + b * n ∧ b * n + n ≤ z.capacity := by
  have hb := Nat.mod_lt k h.perZone_pos
  refine ⟨k / z.perZone n, k % z.perZone n, hb, (Nat.div_add_mod k _).symm, rfl, ?_⟩
  rw [← Nat.succ_mul, ← h.perZone_mul]
  exact Nat.mul_le_mul_right n hb

/-- The next IO starts where this one ends, or in the next zone if the zone is full. -/
theorem ioStart_succ (hb : b < z.perZone n) :
    z.ioStart n (z.perZone n * i + b + 1) = if b + 1 < z.perZone n
      then z.ioStart n (z.perZone n * i + b) + n else z.slba + (i + 1) * z.zsze := by
  split_ifs with hlt
  · rw [Nat.add_assoc, h.ioStart_add hlt, h.ioStart_add hb, Nat.add_one_mul,
      Nat.add_assoc _ (b * n)]
  · have hnext : z.perZone n * i + b + 1 = z.perZone n * (i + 1) + 0 := by
      rw [Nat.mul_add_one]
      omega
    rw [hnext, h.ioStart_add h.perZone_pos, Nat.zero_mul, Nat.add_zero]

/-- The last IO of a zone fills it. -/
theorem last_mul_add (hb : b < z.perZone n) (hge : ¬b + 1 < z.perZone n) :
    b * n + n = z.capacity := by
  have hlast : b + 1 = z.perZone n := by omega
  rw [← Nat.add_one_mul, hlast, h.perZone_mul]

theorem ioStart_add_le (k : Nat) : z.ioStart n k + n ≤ z.ioStart n (k + 1) := by
  obtain ⟨i, b, hb, rfl, hk, hle⟩ := h.exists_ioStart k
  have hcap := h.capacity_le
  rw [h.ioStart_succ hb]
  split_ifs
  · exact Nat.le_refl _
  · rw [hk, Nat.add_one_mul]
    omega

/-- What is between the end of an IO and the next one is not in a zone. -/
theorem gap_of_lt (hlt : z.ioStart n k < z.elba) (hle : z.ioStart n k + n ≤ lba)
    (hnext : lba < z.ioStart n (k + 1)) : z.Gap lba := by
  obtain ⟨i, b, hb, rfl, hk, -⟩ := h.exists_ioStart k
  rw [h.ioStart_succ hb] at hnext
  split_ifs at hnext with hmore
  · omega
  · have hfull := h.last_mul_add hb hmore
    rw [Nat.add_one_mul] at hnext
    refine ⟨z.slba + i * z.zsze, mem_slbaList.2 ⟨i, rfl, ?_⟩, ?_, ?_⟩ <;> omega

/-- An IO is in a zone. -/
theorem not_gap (hle : z.ioStart n k ≤ lba) (hlt : lba < z.ioStart n k + n) : ¬z.Gap lba := by
  rintro ⟨s, hs, hge, hnext⟩
  obtain ⟨j, rfl, -⟩ := mem_slbaList.1 hs
  obtain ⟨i, b, -, -, hk, hend⟩ := h.exists_ioStart k
  have hcap := h.capacity_le
  rw [hk] at hle hlt
  rcases Nat.lt_trichotomy i j with hij | rfl | hij
  · have hmul := Nat.mul_le_mul_right z.zsze (Nat.succ_le_of_lt hij)
    rw [Nat.succ_mul] at hmul
    omega
  · omega
  · have hmul := Nat.mul_le_mul_right z.zsze (Nat.succ_le_of_lt hij)
    rw [Nat.succ_mul] at hmul
    omega

end Fills

/-! ### The ioworker -/

variable {env : Env} {args : Args} {w w' : Worker} {d : Draws} {p : Prepared} {now : Timeval}
  {table : Nat → BitVec 32} {rc : Int} {m : Nat}

/-- The parameters that `Zone.ioworker` hands over to `Namespace.ioworker`, of those it has. -/
def ioworker (z : Zone) (offsetStart : Int) (q : PyArgs) : PyArgs :=
  { q with regionStart := z.slba, regionEnd := z.elba, lbaStart := offsetStart + z.slba }

/-- A sequential workload of IOs of the size `n` in the zones, which the table covers. -/
structure Arguments (z : Zone) (n : Nat) (env : Env) (args : Args) : Prop where
  sequential : args.Sequential env
  size : ∀ e ∈ args.lbaSizeList, e.size = n
  start : args.regionStart = z.slba
  stop : args.regionEnd = z.elba
  table : env.ns.crcTable.isSome
  covers : z.elba ≤ env.ns.entries

/-- The arguments are those of `Zone.ioworker`. -/
theorem arguments_of_ioworker {mqes : Nat} {q : PyArgs} {params : WorkerParams}
    {offsetStart : Int} (hparams : Namespace.ioworker mqes (z.ioworker offsetStart q) = .ok params)
    (hargs : ioworkerArgs params = .ok args) (hseq : args.ioSequence = none)
    (hrandom : args.lbaRandom = 0) (hstep : args.lbaStepValid = false)
    (halign : ∀ e ∈ args.lbaSizeList, e.align = 1) (hstart : args.lbaStart ≤ args.regionStart)
    (hsize : q.ioSize = .int n) (hn : z.slba + n ≤ z.elba) (hnsze : z.elba ≤ env.ns.numSectors)
    (ht : env.ns.crcTable.isSome) (hcovers : z.elba ≤ env.ns.entries) :
    z.Arguments n env args := by
  have hp := Namespace.ioworker_from hparams
  have ha := ioworkerArgs_converted hargs
  have hS : (z.slba : Int) = args.regionStart := hp.bounds.1.symm.trans ha.regionStart
  have hE : (z.elba : Int) = args.regionEnd := hp.bounds.2.symm.trans ha.regionEnd
  refine ⟨⟨ioworkerArgs_valid hp.toChecked hargs, hseq, hrandom, hstep, halign, hstart, by omega⟩,
    fun e he => ?_, by omega, by omega, ht, hcovers⟩
  have hclip : (e.size : Int) = min (n : Int) ((z.elba : Int) - z.slba) :=
    fill_sizes hparams hargs hsize e he
  omega

/-- The table marks the LBAs between the zones. -/
def TableRule (z : Zone) (w : Worker) : IowEvent → Prop
  | .send _ table _ _ _ _ => ∀ lba < w.env.ns.entries, (table lba = uncorrCrc ↔ z.Gap lba)
  | _ => True

/-- From the cursor to the next IO there is no zone. -/
def CursorAt (z : Zone) (n m : Nat) (w : Worker) : Prop :=
  w.cursor ≤ z.ioStart n m ∧ ∀ lba, w.cursor ≤ lba → lba < z.ioStart n m → z.Gap lba

/-- The skip goes from the cursor to the start of the IO. -/
theorem CursorAt.firstGood {ns : Ns} (h : z.CursorAt n m w) (hf : z.Fills n)
    (htable : ∀ lba < ns.entries, (ns.entry lba = uncorrCrc ↔ z.Gap lba))
    (hlt : z.ioStart n m < ns.entries) : FirstGood ns w.cursor (z.ioStart n m) := by
  obtain ⟨hle, hgap⟩ := h
  have hN := ns.entries_lt
  have hu : u64 (w.cursor + (z.ioStart n m - w.cursor)) = z.ioStart n m := by
    rw [Nat.add_sub_cancel' hle]
    exact u64_of_lt (by omega)
  refine ⟨z.ioStart n m - w.cursor, by omega, hu.symm, ?_, fun i hi => ?_⟩
  · exact mt (htable _ hlt).1 (hf.not_gap (Nat.le_refl _) (Nat.lt_add_of_pos_right hf.size_pos))
  · have hi' : w.cursor + i < z.ioStart n m := by omega
    rw [u64_of_lt (by omega), htable _ (by omega)]
    exact hgap _ (Nat.le_add_right _ _) hi'

theorem sends_inZone {k : Nat} (h : Sends w w' k now table d p rc) (ha : z.Arguments n env args)
    (hf : z.Fills n) (hw : w.settings = ioworkerSettings env args)
    (htable : ∀ lba < w.env.ns.entries, (table lba = uncorrCrc ↔ z.Gap lba))
    (hlt : z.ioStart n m < z.elba) (hcursor : z.CursorAt n m w) :
    p.io.lba = z.ioStart n m ∧ p.io.count = min n (z.elba - z.ioStart n m) ∧
      w'.g.sequentialLba = z.ioStart n m + n := by
  have hc := Configured.of_settings hw
  have hcovers := ha.covers
  have hN := env.ns.entries_lt
  obtain ⟨hstart, hend, hstep, hrandom⟩ := ha.sequential.region (d := d) hw
  rw [ha.stop] at hend
  obtain ⟨a, raw, lba, opIndex, op, hsize, hraw, halign, hseq, hio⟩ :=
    ioworkerSendOnePrepare_eq_ok h.prepared
  obtain ⟨e, he, hesize, rfl⟩ := hc.size_mem ha.sequential.valid hsize
  have hn : p.size = n := hesize.symm.trans (ha.size e he)
  have hn16 := (ha.sequential.valid.size e he).2.1
  rw [ha.size e he] at hn16
  -- the table of the worker is that of the event
  have hshape : (w.nsWith table).shape = env.ns.shape := by
    rw [Worker.nsWith, Ns.shape_mapData, hc.env_eq]
  have hentries : (w.nsWith table).entries = env.ns.entries := Ns.entries_of_shape hshape
  have hsome : (w.nsWith table).crcTable.isSome := by
    rw [Ns.isSome_of_shape hshape]
    exact ha.table
  have hentry (lba : Nat) : (w.nsWith table).entry lba = table lba := by
    obtain ⟨t, ht⟩ := Option.isSome_iff_exists.1 ha.table
    rw [← hc.env_eq] at ht
    exact entry_mapData ht _ lba
  have hfirst : FirstGood (w.nsWith table) w.cursor (z.ioStart n m) := by
    refine hcursor.firstGood hf (fun lba hlba => ?_) (by omega)
    rw [hentry, htable lba (by rwa [hc.env_eq, ← hentries])]
  have hskip : crc32SkipUncorr (w.nsWith table) w.cursor = some (z.ioStart n m) :=
    (skipUncorr_eq_some_iff hsome (by have := hcursor.1; omega)).2 hfirst
  rw [ioworkerRawLba, hrandom, if_neg Bool.false_ne_true, ioworkerSendOneLbaSequential_eq,
    hskip] at hraw
  obtain rfl := Except.ok.inj hraw
  rw [ha.sequential.align e he, ioworkerAlignLba_one, hend, if_pos hlt] at halign
  obtain rfl := Except.ok.inj halign
  rw [ioworkerReplayOne, hc.ioSequence, ha.sequential.sequence] at hio
  obtain ⟨-, hlba, hcount, -⟩ := ioworkerSendOneIo_eq_ok hio
  dsimp only at hlba hcount
  have hleft : u64 (w.args.regionEnd + 2 ^ 64 - z.ioStart n m) = z.elba - z.ioStart n m := by
    rw [hend, u64]
    omega
  refine ⟨hlba, ?_, ?_⟩
  · rw [hcount, hleft, hn, u32_of_lt (by omega)]
  · have hnext : w'.g.sequentialLba = p.sequentialLba := congrArg Control.sequentialLba h.control
    rw [hnext, hseq, hrandom, if_neg Bool.false_ne_true, nextSequentialLba, hstep,
      if_neg Bool.false_ne_true, hn, u16_of_lt (by omega), u64_of_lt (by omega)]

/-- The IOs so far fill one zone after the other, as far as they start in the region, and the
    cursor is at the next one. -/
structure InZones (z : Zone) (n : Nat) (env : Env) (args : Args) (w : Worker) : Prop where
  settings : w.settings = ioworkerSettings env args
  ios : ∀ k < w.intervals.length, z.ioStart n k < z.elba →
    w.intervals[k]? = some (z.ioStart n k, min n (z.elba - z.ioStart n k))
  cursor : z.ioStart n w.intervals.length < z.elba → z.CursorAt n w.intervals.length w

theorem starts_inZones (h : Starts env args w) (ha : z.Arguments n env args) :
    z.InZones n env args w := by
  have hnil : w.intervals = [] := by rw [Worker.intervals, h.issued, List.map_nil]
  refine ⟨h.settings, by simp [hnil], fun _ => ?_⟩
  have hfollows := (h.goesRound ha.sequential).follows
  rw [hnil, ha.start] at hfollows
  have hcursor : z.slba = w.cursor := hfollows
  rw [hnil, CursorAt, List.length_nil, ioStart_zero, ← hcursor]
  exact ⟨Nat.le_refl _, fun lba hle hlt => absurd hle (Nat.not_le.2 hlt)⟩

theorem InZones.sends {k : Nat} (hw : z.InZones n env args w)
    (h : Sends w w' k now table d p rc) (ha : z.Arguments n env args) (hf : z.Fills n)
    (htable : ∀ lba < w.env.ns.entries, (table lba = uncorrCrc ↔ z.Gap lba)) :
    z.InZones n env args w' := by
  have hintervals : w'.intervals = w.intervals ++ [(p.io.lba, p.io.count)] := by
    rw [Worker.intervals, h.issued, List.map_append]
    rfl
  have hlen : w'.intervals.length = w.intervals.length + 1 := by rw [hintervals]; simp
  have hsend := fun hlt => sends_inZone h ha hf hw.settings htable hlt (hw.cursor hlt)
  refine ⟨h.settings.trans hw.settings, fun i hi hlt => ?_, fun hlt => ?_⟩
  · rw [hlen] at hi
    rcases Nat.lt_succ_iff_lt_or_eq.1 hi with hi | rfl
    · rw [hintervals, List.getElem?_append_left hi]
      exact hw.ios i hi hlt
    · obtain ⟨hlba, hcount, -⟩ := hsend hlt
      rw [hintervals, List.getElem?_concat_length, hlba, hcount]
  · rw [hlen] at hlt ⊢
    have hle := hf.ioStart_add_le w.intervals.length
    have hlt' : z.ioStart n w.intervals.length < z.elba := by omega
    obtain ⟨-, -, hseq⟩ := hsend hlt'
    obtain ⟨-, hend, -⟩ :=
      ha.sequential.region (d := d) (h.settings.trans hw.settings : w'.settings = _)
    have hcursor : w'.cursor = z.ioStart n w.intervals.length + n := by
      rw [Worker.cursor, hseq, hend, ha.stop, if_pos (Nat.lt_of_le_of_lt hle hlt)]
    rw [CursorAt, hcursor]
    exact ⟨hle, fun lba => hf.gap_of_lt hlt'⟩

theorem InZones.of_eq (hw : z.InZones n env args w) (hset : w'.settings = w.settings)
    (hissued : w'.issued = w.issued) (hlba : w'.g.sequentialLba = w.g.sequentialLba) :
    z.InZones n env args w' := by
  have hintervals : w'.intervals = w.intervals := by
    rw [Worker.intervals, hissued, Worker.intervals]
  have hcursor : w'.cursor = w.cursor := by
    have hstart : w'.args.regionStart = w.args.regionStart :=
      (congrArg (fun s => s.args.regionStart) hset :)
    have hend : w'.args.regionEnd = w.args.regionEnd :=
      (congrArg (fun s => s.args.regionEnd) hset :)
    rw [Worker.cursor, Worker.cursor, hlba, hstart, hend]
  refine ⟨hset.trans hw.settings, ?_, ?_⟩
  · rw [hintervals]
    exact hw.ios
  · rw [hintervals, CursorAt, hcursor]
    exact hw.cursor

theorem inZones_of_reachable (ha : z.Arguments n env args) (hf : z.Fills n)
    (h : (ioworkerMachine env args).Reachable z.TableRule w) :
    Refuses w ∨ z.InZones n env args w := by
  refine ioworker_invariant ha.sequential.valid.qdepth_lt h (fun w hw => starts_inZones hw ha)
    ?_ ?_ ?_
  · exact fun w w' k now table d p rc timeSent after hw hr hs => hw.sends hs ha hf hr
  · exact fun w w' k status now now' n hw _ _ _ _ hc =>
      hw.of_eq hc.settings hc.issued (congrArg Control.sequentialLba hc.control)
  · exact fun w w' e hw _ hm =>
      hw.of_eq hm.settings hm.issued (congrArg Control.sequentialLba hm.control)

theorem ios_of_reachable (ha : z.Arguments n env args) (hf : z.Fills n)
    (h : (ioworkerMachine env args).Reachable z.TableRule w) (hk : k < w.intervals.length)
    (hlt : z.ioStart n k < z.elba) :
    w.intervals[k]? = some (z.ioStart n k, min n (z.elba - z.ioStart n k)) := by
  rcases inZones_of_reachable ha hf h with hr | hw
  · rw [Worker.intervals, hr.issued] at hk
    exact absurd hk (Nat.not_lt_zero k)
  · exact hw.ios k hk hlt

end Zone

/-! ### The write pointers -/

namespace ZnsDevice

/-- A zone takes a write at its write pointer, up to its capacity. -/
def write (dev : ZnsDevice) (lba count : Nat) : Option ZnsDevice :=
  let s := dev.start lba
  match (dev.zone s).state with
  | .readOnly | .full | .offline => none
  | state =>
    if lba = (dev.zone s).wp ∧ lba + count ≤ s + dev.capacity s then
      some { dev with
        zone := Function.update dev.zone s
          ⟨if lba + count = s + dev.capacity s then .full
            else if state = .explicitlyOpened then .explicitlyOpened else .implicitlyOpened,
            lba + count⟩
        empty_wp := fun i hi => by
          rcases eq_or_ne i s with rfl | hne
          · rw [Function.update_self] at hi
            dsimp only at hi
            split_ifs at hi
          · rw [Function.update_of_ne hne] at hi ⊢
            exact dev.empty_wp i hi }
    else none

/-- A write at the write pointer of a zone that was opened. -/
theorem write_opened {dev : ZnsDevice} {s lba : Nat} (count : Nat) (hs : dev.start lba = s)
    (hzone : dev.zone s = ⟨.explicitlyOpened, lba⟩) (hle : lba + count ≤ s + dev.capacity s) :
    ∃ dev', dev.write lba count = some dev' ∧ dev'.zsze = dev.zsze ∧
      dev'.capacity = dev.capacity ∧ dev'.zone = Function.update dev.zone s
        ⟨if lba + count = s + dev.capacity s then .full else .explicitlyOpened, lba + count⟩ := by
  subst hs
  simp only [write, hzone, true_and, if_pos hle]
  exact ⟨_, rfl, rfl, rfl, rfl⟩

theorem start_add {dev : ZnsDevice} {slba i r : Nat} (h : dev.start slba = slba)
    (hr : r < dev.zsze) : dev.start (slba + i * dev.zsze + r) = slba + i * dev.zsze := by
  have hdiv : (slba + i * dev.zsze + r) / dev.zsze = slba / dev.zsze + i := by
    have heq : slba + i * dev.zsze + r = dev.zsze * (slba / dev.zsze + i) + r := by
      rw [Nat.mul_add, Nat.mul_comm _ (slba / dev.zsze), Nat.mul_comm dev.zsze i]
      exact congrArg (· + i * dev.zsze + r) h.symm
    rw [heq, Nat.mul_add_div dev.zsze_pos, Nat.div_eq_of_lt hr, Nat.add_zero]
  rw [start, hdiv, Nat.add_mul]
  exact congrArg (· + i * dev.zsze) h

end ZnsDevice

namespace Zone

variable {z : Zone} {dev dev' : ZnsDevice} {env : Env} {args : Args} {w : Worker}
  {n m i b : Nat}

/-- The LBAs that the first `m` IOs write to the zone `i`. -/
def written (z : Zone) (n i m : Nat) : Nat := min (m - z.perZone n * i) (z.perZone n) * n

/-- The zone `i` after the first `m` IOs. -/
def zoneAfter (z : Zone) (n i m : Nat) : ZoneDesc :=
  ⟨if z.written n i m = z.capacity then .full else .explicitlyOpened,
    z.slba + i * z.zsze + z.written n i m⟩

/-- The device has the zones, with the capacity of the first one for all of them. -/
structure OnDevice (z : Zone) (dev : ZnsDevice) : Prop where
  zsze : dev.zsze = z.zsze
  start : dev.start z.slba = z.slba
  capacity : ∀ s ∈ z.slbaList, dev.capacity s = z.capacity

/-- What the IO `m` writes, and what it leaves. -/
theorem written_succ (hb : b < z.perZone n) :
    z.written n i (z.perZone n * i + b) = b * n ∧
      z.written n i (z.perZone n * i + b + 1) = b * n + n ∧
      ∀ j, j ≠ i →
        z.written n j (z.perZone n * i + b + 1) = z.written n j (z.perZone n * i + b) := by
  refine ⟨?_, ?_, fun j hj => ?_⟩
  · rw [written, Nat.add_sub_cancel_left, Nat.min_eq_left hb.le]
  · rw [written, Nat.add_assoc, Nat.add_sub_cancel_left, Nat.min_eq_left hb, Nat.succ_mul]
  · rw [written, written]
    congr 1
    rcases Nat.lt_or_gt_of_ne hj with hlt | hgt
    · have hmul := Nat.mul_le_mul_left (z.perZone n) (Nat.succ_le_of_lt hlt)
      rw [Nat.mul_succ] at hmul
      omega
    · have hmul := Nat.mul_le_mul_left (z.perZone n) (Nat.succ_le_of_lt hgt)
      rw [Nat.mul_succ] at hmul
      omega

/-- The write of the IO `m`, after those before it. -/
theorem write_zoneAfter (hd : z.OnDevice dev) (hf : z.Fills n) (hlt : z.ioStart n m < z.elba)
    (h : ∀ i, z.slba + i * z.zsze < z.elba → dev.zone (z.slba + i * z.zsze) = z.zoneAfter n i m) :
    ∃ dev', dev.write (z.ioStart n m) n = some dev' ∧ z.OnDevice dev' ∧
      ∀ i, z.slba + i * z.zsze < z.elba →
        dev'.zone (z.slba + i * z.zsze) = z.zoneAfter n i (m + 1) := by
  obtain ⟨i, b, hb, rfl, hstart, hend⟩ := hf.exists_ioStart m
  obtain ⟨hw, hw', hother⟩ := written_succ (i := i) hb
  have hn := hf.size_pos
  have hcap := hf.capacity_le
  have hin : z.slba + i * z.zsze < z.elba := by omega
  have hcapacity := hd.capacity _ (mem_slbaList.2 ⟨i, rfl, hin⟩)
  have hs : dev.start (z.ioStart n (z.perZone n * i + b)) = z.slba + i * z.zsze := by
    rw [hstart, ← hd.zsze]
    exact ZnsDevice.start_add hd.start (by rw [hd.zsze]; omega)
  have hzone : dev.zone (z.slba + i * z.zsze) =
      ⟨.explicitlyOpened, z.ioStart n (z.perZone n * i + b)⟩ := by
    rw [h i hin, zoneAfter, hw, if_neg (by omega), hstart]
  obtain ⟨dev', hwrite, hzsze, hcapacity', hzone'⟩ :=
    ZnsDevice.write_opened n hs hzone (by rw [hcapacity, hstart]; omega)
  refine ⟨dev', hwrite, ⟨hzsze.trans hd.zsze, ?_, ?_⟩, fun j hj => ?_⟩
  · rw [ZnsDevice.start_of_zsze hzsze, hd.start]
  · rw [hcapacity']
    exact hd.capacity
  · rw [hzone']
    rcases eq_or_ne j i with rfl | hne
    · rw [Function.update_self, zoneAfter, hw', hcapacity, hstart]
      simp only [Nat.add_assoc, Nat.add_left_cancel_iff]
    · have hdiff : z.slba + j * z.zsze ≠ z.slba + i * z.zsze := fun heq =>
        hne (Nat.eq_of_mul_eq_mul_right z.zsze_pos (Nat.add_left_cancel heq))
      rw [Function.update_of_ne hdiff, h j hj, zoneAfter, zoneAfter, hother j hne]

/-- In one pass, the IOs end in the region. -/
theorem ioStart_add_le_elba (hf : z.Fills n) (hwhole : ∀ s ∈ z.slbaList, s + z.capacity ≤ z.elba)
    (hm : m < z.slbaList.length * z.perZone n) : z.ioStart n m + n ≤ z.elba := by
  obtain ⟨i, b, -, rfl, hstart, hend⟩ := hf.exists_ioStart m
  have hi : i < z.slbaList.length := by
    by_contra hge
    have hmul := Nat.mul_le_mul_left (z.perZone n) (Nat.le_of_not_lt hge)
    rw [Nat.mul_comm _ z.slbaList.length] at hmul
    omega
  have hzone : z.slbaList[i] = z.slba + i * z.zsze := by simp [slbaList]
  have hle := hwhole _ (List.getElem_mem hi)
  rw [hzone] at hle
  omega

/-- The first IOs of one pass, written one after the other. -/
theorem foldlM_write {l : List (Nat × Nat)} (hf : z.Fills n) (hd : z.OnDevice dev)
    (hopen : ∀ s ∈ z.slbaList, dev.zone s = ⟨.explicitlyOpened, s⟩)
    (hl : ∀ k < l.length, l[k]? = some (z.ioStart n k, n) ∧ z.ioStart n k < z.elba)
    (hm : m ≤ l.length) :
    ∃ dev', (l.take m).foldlM (fun dev x => dev.write x.1 x.2) dev = some dev' ∧
      z.OnDevice dev' ∧ ∀ i, z.slba + i * z.zsze < z.elba →
        dev'.zone (z.slba + i * z.zsze) = z.zoneAfter n i m := by
  induction m with
  | zero =>
    refine ⟨dev, rfl, hd, fun i hi => ?_⟩
    have hcap := hf.capacity_pos
    rw [hopen _ (mem_slbaList.2 ⟨i, rfl, hi⟩), zoneAfter, written, Nat.zero_sub, Nat.zero_min,
      Nat.zero_mul, if_neg hcap.ne, Nat.add_zero]
  | succ m ih =>
    obtain ⟨dev₁, hfold, hd₁, hzones⟩ := ih (Nat.le_of_succ_le hm)
    obtain ⟨hio, hlt⟩ := hl m hm
    obtain ⟨dev₂, hwrite, hd₂, hzones₂⟩ := write_zoneAfter hd₁ hf hlt hzones
    refine ⟨dev₂, ?_, hd₂, hzones₂⟩
    rw [List.take_add_one, hio, Option.toList_some, List.foldlM_append, hfold]
    exact Option.bind_eq_some_iff.2 ⟨dev₁, rfl, Option.bind_eq_some_iff.2 ⟨dev₂, hwrite, rfl⟩⟩

/-- The IOs of at most one pass, written one after the other to zones that were opened. -/
theorem foldlM_write_pass {l : List (Nat × Nat)} (hf : z.Fills n) (hd : z.OnDevice dev)
    (hopen : ∀ s ∈ z.slbaList, dev.zone s = ⟨.explicitlyOpened, s⟩)
    (hl : ∀ k < l.length, l[k]? = some (z.ioStart n k, n) ∧ z.ioStart n k < z.elba) :
    ∃ dev', l.foldlM (fun dev x => dev.write x.1 x.2) dev = some dev' ∧
      (∀ i, z.slba + i * z.zsze < z.elba →
        dev'.zone (z.slba + i * z.zsze) = z.zoneAfter n i l.length) ∧
      (l.length = z.slbaList.length * z.perZone n →
        ∀ s ∈ z.slbaList, dev'.zone s = ⟨.full, s + z.capacity⟩) := by
  obtain ⟨dev', hfold, -, hzones⟩ := foldlM_write hf hd hopen hl (Nat.le_refl _)
  rw [List.take_length] at hfold
  refine ⟨dev', hfold, hzones, fun hall s hs => ?_⟩
  obtain ⟨j, hj, hjs⟩ := List.getElem_of_mem hs
  have hzone : z.slbaList[j] = z.slba + j * z.zsze := by simp [slbaList]
  have hfull : z.written n j l.length = z.capacity := by
    have hmul := Nat.mul_le_mul_right (z.perZone n) (Nat.succ_le_of_lt hj)
    rw [Nat.succ_mul, Nat.mul_comm j] at hmul
    rw [written, hall, Nat.min_eq_right (by omega), hf.perZone_mul]
  obtain rfl : s = z.slba + j * z.zsze := hjs.symm.trans hzone
  obtain ⟨_, -, hin⟩ := mem_slbaList.1 hs
  rw [hzones j hin, zoneAfter, hfull, if_pos rfl]

/-- The IOs of at most one pass are not truncated. -/
theorem ios_of_pass (ha : z.Arguments n env args) (hf : z.Fills n)
    (hwhole : ∀ s ∈ z.slbaList, s + z.capacity ≤ z.elba)
    (h : (ioworkerMachine env args).Reachable z.TableRule w)
    (hpass : w.intervals.length ≤ z.slbaList.length * z.perZone n) :
    ∀ k < w.intervals.length,
      w.intervals[k]? = some (z.ioStart n k, n) ∧ z.ioStart n k < z.elba := by
  intro k hk
  have hn := hf.size_pos
  have hle := ioStart_add_le_elba hf hwhole (Nat.lt_of_lt_of_le hk hpass)
  have hlt : z.ioStart n k < z.elba := by omega
  rw [ios_of_reachable ha hf h hk hlt, Nat.min_eq_left (by omega)]
  exact ⟨rfl, hlt⟩

/-- The IOs of the workload, whose size divides the capacity, fill the zones one after the other,
    as far as they start in the region; the last of them is truncated at its end. Written in this
    order to zones that were opened, in one pass, each of them starts at the write pointer of its
    zone and ends in its capacity, and all zones are full in the end. -/
theorem zone_ioworker (ha : z.Arguments n env args) (hf : z.Fills n)
    (h : (ioworkerMachine env args).Reachable z.TableRule w) :
    (∀ k < w.intervals.length, z.ioStart n k < z.elba →
      w.intervals[k]? = some (z.ioStart n k, min n (z.elba - z.ioStart n k))) ∧
    ∀ dev, z.OnDevice dev → (∀ s ∈ z.slbaList, dev.zone s = ⟨.explicitlyOpened, s⟩) →
      (∀ s ∈ z.slbaList, s + z.capacity ≤ z.elba) →
      w.intervals.length ≤ z.slbaList.length * z.perZone n →
      ∃ dev', w.intervals.foldlM (fun dev x => dev.write x.1 x.2) dev = some dev' ∧
        (∀ i, z.slba + i * z.zsze < z.elba →
          dev'.zone (z.slba + i * z.zsze) = z.zoneAfter n i w.intervals.length) ∧
        (w.intervals.length = z.slbaList.length * z.perZone n →
          ∀ s ∈ z.slbaList, dev'.zone s = ⟨.full, s + z.capacity⟩) :=
  ⟨fun _ => ios_of_reachable ha hf h, fun _ hd hopen hwhole hpass =>
    foldlM_write_pass hf hd hopen (ios_of_pass ha hf hwhole h hpass)⟩

/-- Two zones of 20 LBAs, of which 16 can be written. -/
def shortPair : Zone := ⟨0, 40, 16, 20, Nat.succ_pos _⟩

/-- A device with them, all opened. -/
def openedDevice : ZnsDevice :=
  { zonedDevice with
    capacity := fun _ => 16
    zone := fun s => ⟨.explicitlyOpened, s⟩
    capacity_le := fun _ => by decide
    empty_wp := fun _ h => nomatch h }

/-- A worker on their namespace. -/
def zonedEnv : Env := { plainEnv 40 with ns := zonedNs, maxXferSize := 65536 }

/-- The parameters of four writes. -/
def writePass : PyArgs := { readOnce with readPercentage := 0, ioCount := 4 }

/-- Their arguments. -/
def writePassArgs : Args :=
  { readOnceArgs with regionEnd := 40, ioCount := 4, opList := [(2, 0), (1, 100)] }

/-- The table of the namespace, in which the LBAs behind the zones are marked. -/
def zonedTable (lba : Nat) : BitVec 32 :=
  if 16 ≤ lba ∧ lba < 20 ∨ 36 ≤ lba ∧ lba < 40 then uncorrCrc else 0#32

/-- One of the writes is sent, and completes, at the time of `t` seconds. -/
def writeOnce (t : Int) : List IowEvent :=
  [.send ⟨t, 0⟩ zonedTable ⟨0, 0, 0, 0, 0⟩ 0 ⟨t, 0⟩ ⟨t, 0⟩, .check false, .poll ⟨t, 0⟩,
    .complete 0 .success ⟨t, 0⟩ ⟨t, 0⟩, .next ⟨t, 0⟩]

theorem zonedTable_iff : zonedTable lba = uncorrCrc ↔ shortPair.Gap lba := by
  have hlist : shortPair.slbaList = [0, 20] := by decide
  rw [zonedTable, Gap, hlist]
  simp only [shortPair, List.mem_cons, List.not_mem_nil, or_false, exists_eq_or_imp,
    exists_eq_left, Nat.zero_add]
  split_ifs with hgap
  · exact iff_of_true rfl hgap
  · exact iff_of_false (by decide) hgap

/-- Four writes fill both zones. -/
theorem zone_ioworker_pair : ∃ w dev',
    (ioworkerMachine zonedEnv writePassArgs).Reachable shortPair.TableRule w ∧
    w.intervals = [(0, 8), (8, 8), (20, 8), (28, 8)] ∧
    w.intervals.foldlM (fun dev x => dev.write x.1 x.2) openedDevice = some dev' ∧
    dev'.zone 0 = ⟨.full, 16⟩ ∧ dev'.zone 20 = ⟨.full, 36⟩ := by
  have hparams : ∃ params, Namespace.ioworker 1 (shortPair.ioworker 0 writePass) = .ok params ∧
      ioworkerArgs params = .ok writePassArgs := ⟨_, rfl, rfl⟩
  obtain ⟨params, hparams, hargs⟩ := hparams
  have ha : shortPair.Arguments 8 zonedEnv writePassArgs :=
    arguments_of_ioworker hparams hargs rfl rfl rfl (by decide) (by decide) rfl (by decide)
      (by decide) rfl (by decide)
  have hinit : (ioworkerMachine zonedEnv writePassArgs).Reachable shortPair.TableRule _ := .init rfl
  have hadmits : (ioworkerMachine zonedEnv writePassArgs).Admits shortPair.TableRule
      (ioworkerStart zonedEnv writePassArgs)
      (writeOnce 2 ++ writeOnce 3 ++ writeOnce 4 ++ writeOnce 5) := by
    refine Machine.admits_of_forall (fun e he w => ?_) _
    have hsend : ∀ t, ∀ e ∈ writeOnce t, shortPair.TableRule w e := by
      intro t e he
      simp only [writeOnce, List.mem_cons, List.not_mem_nil, or_false] at he
      rcases he with rfl | rfl | rfl | rfl | rfl
      · exact fun lba _ => zonedTable_iff
      all_goals trivial
    simp only [List.mem_append] at he
    rcases he with ((he | he) | he) | he <;> exact hsend _ e he
  obtain ⟨w, hw, hintervals⟩ := hinit.exists_run (f := Worker.intervals)
    (t := [(0, 8), (8, 8), (20, 8), (28, 8)]) _ hadmits rfl
  obtain ⟨-, hdevice⟩ := zone_ioworker ha ⟨⟨2, rfl⟩, by decide, by decide⟩ hw
  have hlist : shortPair.slbaList = [0, 20] := by decide
  have hlen : w.intervals.length = shortPair.slbaList.length * shortPair.perZone 8 := by
    rw [hintervals]
    rfl
  obtain ⟨dev', hfold, -, hfull⟩ := hdevice openedDevice ⟨rfl, rfl, fun _ _ => rfl⟩
    (fun _ _ => rfl) (by rw [hlist]; decide) hlen.le
  exact ⟨w, dev', hw, hintervals, hfold, hfull hlen 0 (by simp [hlist]),
    hfull hlen 20 (by simp [hlist])⟩

/-! ### From the marks to the writes -/

section Pass

variable {crc32c : List (BitVec 8) → BitVec 32} {ns : Ns}

/-- A read or a write of the LBAs of an IO that was sent. -/
def Issued (w : Worker) (req : Request) : Prop :=
  req.qpairId ≠ 0 ∧ (req.cmd.opc = 1#8 ∨ req.cmd.opc = 2#8) ∧
    (req.cmd.slba, req.cmd.nlbField + 1) ∈ w.intervals

/-- The IOs of one pass are in the zones. -/
theorem Issued.serves {req : Request} (h : Issued w req) (hf : z.Fills n) (hn : n < 0x10000)
    (helba : z.elba ≤ 2 ^ 62) (hl : ∀ k < w.intervals.length,
      w.intervals[k]? = some (z.ioStart n k, n) ∧ z.ioStart n k < z.elba) : z.Serves req := by
  obtain ⟨hq, hopc, hmem⟩ := h
  have hrange : isRangeOpc req.cmd.opc = true := by rcases hopc with h | h <;> rw [h] <;> rfl
  obtain ⟨k, hk, hio⟩ := List.getElem_of_mem hmem
  obtain ⟨hio', hlt⟩ := hl k hk
  rw [List.getElem?_eq_getElem hk, hio, Option.some.injEq, Prod.mk.injEq] at hio'
  obtain ⟨hslba, hnlb⟩ := hio'
  have hn16 : n ≤ 65535 := by omega
  refine ⟨⟨hq, fun _ => ⟨by omega, by omega⟩, fun hd => ?_⟩, ?_, fun lba hgap hc => ?_⟩
  · rw [isRangeOpc_of_isDsmOpc hd] at hrange
    cases hrange
  · rcases hopc with h | h <;> rw [h] <;> decide
  · rw [Request.Covers, if_pos hrange, hslba, hnlb] at hc
    exact hf.not_gap hc.1 hc.2 hgap

end Pass

end Zone

end Pynvme
