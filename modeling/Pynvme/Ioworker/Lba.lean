import Pynvme.Ioworker.Start

/-!
# The choice of the LBA

The LBA of an IO is chosen in two steps. A *raw* LBA is that of the cursor, or random
in the region or a section; in a region that is not empty it is below the end of the
region (`Configured.rawLba`). It is then rounded into the region
(`ioworkerAlignLba_eq`): the result is in the region if there is a multiple of the
alignment in it, and none on the way from the raw LBA to it (`Multiple.fit_mem_iff`).
-/

namespace Pynvme

open Word Multiple

variable {env : Env} {args : Args} {w : Worker} {d : Draws} {table : Nat → BitVec 32}

/-! ### Alignment -/

theorem alignUp_eq {n a : Nat} (h : roundUp n a < 2 ^ 64) : alignUp n a = roundUp n a := by
  rw [alignUp]
  rw [roundUp] at h ⊢
  by_cases h0 : n % a = 0
  · rw [if_neg (not_not.2 h0), if_pos h0]
  · rw [if_neg h0] at h ⊢
    rw [if_pos h0, u64_of_lt h]

/-- Where the aligned LBA overflows, it is at the start of the addresses. -/
theorem alignUp_of_overflow {n a : Nat} (ha : 0 < a) (hn : n < 2 ^ 64) (h : 2 ^ 64 ≤ roundUp n a) :
    alignUp n a < a := by
  have hlt := roundUp_lt_add ha n
  have h0 : n % a ≠ 0 := by
    intro h0
    rw [roundUp, if_pos h0] at h
    omega
  rw [roundUp, if_neg h0] at h hlt
  rw [alignUp, if_pos h0, u64]
  omega

/-- The alignment rounds into the region, and its assertion holds if that is possible. -/
theorem ioworkerAlignLba_eq {regionEnd lba a : Nat} (ha : 0 < a) (h : roundUp lba a < 2 ^ 64) :
    ioworkerAlignLba regionEnd lba a = if fit regionEnd lba a < regionEnd
      then .ok (fit regionEnd lba a) else .error .lba := by
  simp only [ioworkerAlignLba, alignUp_eq h, if_neg (Nat.pos_iff_ne_zero.1 ha)]
  by_cases hup : roundUp lba a < regionEnd
  · have hfit : fit regionEnd lba a = roundUp lba a := if_pos hup
    rw [hfit, if_neg (Nat.not_le.2 hup), if_pos hup]
  · have hfit : fit regionEnd lba a = roundDown (roundUp lba a - 1) a := if_neg hup
    rw [hfit, if_pos (Nat.not_lt.1 hup)]
    rcases Nat.eq_zero_or_pos (roundUp lba a) with h0 | hpos
    · obtain rfl : regionEnd = 0 := by omega
      rw [if_neg (Nat.not_lt_zero _), if_neg (Nat.not_lt_zero _)]
    · have hpred : u64 (roundUp lba a + 2 ^ 64 - 1) = roundUp lba a - 1 := by
        rw [u64]
        omega
      rw [hpred]
      rfl

/-! ### Settings -/

/-- What of the settings the choice of the LBA depends on. -/
structure Configured (env : Env) (args : Args) (w : Worker) : Prop where
  env_eq : w.env = env
  regionStart : w.args.regionStart = alignUp args.regionStart args.lbaAlignMax
  regionEnd : w.args.regionEnd = min env.ns.numSectors args.regionEnd
  lbaStepValid : w.args.lbaStepValid = args.lbaStepValid
  lbaSizeList : w.args.lbaSizeList = args.lbaSizeList
  lbaSizeRatioSum : w.args.lbaSizeRatioSum = args.lbaSizeRatioSum
  ioSequence : w.g.ioSequence = args.ioSequence
  slTable : w.g.slTable = ioworkerIosizeInit args
  distribution : w.g.distribution = args.distribution.isSome
  dlTable : ∀ l ∈ args.distribution, w.g.dlTable =
    ioworkerDistributionInit env.ns.numSectors w.args l

theorem Configured.of_settings (h : w.settings = ioworkerSettings env args) :
    Configured env args w := by
  obtain ⟨m, hm⟩ := ioworkerSizeArgs_eq env args
  rw [ioworkerSettings, hm] at h
  constructor
  case env_eq => exact congrArg Settings.env h
  case regionStart => exact (congrArg (fun s => s.args.regionStart) h :)
  case regionEnd => exact (congrArg (fun s => s.args.regionEnd) h :)
  case lbaStepValid => exact (congrArg (fun s => s.args.lbaStepValid) h :)
  case lbaSizeList => exact (congrArg (fun s => s.args.lbaSizeList) h :)
  case lbaSizeRatioSum => exact (congrArg (fun s => s.args.lbaSizeRatioSum) h :)
  case ioSequence => exact congrArg Settings.ioSequence h
  case slTable => exact congrArg Settings.slTable h
  case distribution => exact congrArg Settings.distribution h
  case dlTable =>
    intro l hl
    have hend : w.args.regionEnd = min env.ns.numSectors args.regionEnd :=
      (congrArg (fun s => s.args.regionEnd) h :)
    have htable := congrArg Settings.dlTable h
    simp only [Worker.settings, ioworkerInit, ioworkerInitGctx, ioworkerReviseArgs,
      Option.mem_def.1 hl, Option.map_some, Option.getD_some] at htable
    rw [htable]
    simp only [ioworkerDistributionInit, hend]

theorem Worker.lbaRandom_eq (h : w.settings = ioworkerSettings env args) :
    w.args.lbaRandom = args.lbaRandom := by
  obtain ⟨m, hm⟩ := ioworkerSizeArgs_eq env args
  rw [ioworkerSettings, hm] at h
  exact (congrArg (fun s => s.args.lbaRandom) h :)

/-- A lookup in a table with the index reduced to its length finds an entry. -/
theorem getD_mem {α : Type} {l : List α} {n : Nat} (hn : l.length = n) (h0 : n ≠ 0) (i : Nat)
    (a : α) :
    l.getD (i % n) a ∈ l := by
  have hlt : i % n < l.length := by
    rw [hn]
    exact Nat.mod_lt i (Nat.pos_of_ne_zero h0)
  rw [List.getD_eq_getElem?_getD, List.getElem?_eq_getElem hlt, Option.getD_some]
  exact List.getElem_mem hlt

/-- The size and the alignment are those of an entry of the list. -/
theorem Configured.size_mem (h : Configured env args w) (hv : args.Valid) {size a : Nat}
    (hs : ioworkerSendOneSize w.args w.g d = .ok (size, a)) :
    ∃ e ∈ args.lbaSizeList, e.size = size ∧ e.align = a := by
  simp only [ioworkerSendOneSize, h.lbaSizeRatioSum, h.slTable, h.lbaSizeList] at hs
  split_ifs at hs with h0
  have hlen : (ioworkerIosizeInit args).length = args.lbaSizeRatioSum :=
    (length_ioworkerIosizeInit args).trans hv.ratios.1
  obtain ⟨i, hi, -, hsi⟩ := mem_lookupTable.1 (getD_mem hlen h0 d.size 0)
  rw [hsi, id_eq, List.getD_eq_getElem?_getD, List.getElem?_eq_getElem hi, Option.getD_some] at hs
  obtain ⟨hsize, halign⟩ := Prod.mk.inj (Except.ok.inj hs)
  refine ⟨_, List.getElem_mem hi, hsize, ?_⟩
  rw [← halign, u16_of_lt (hv.align _ (List.getElem_mem hi)).2.1]

/-- The section `i` of a namespace of `lbaMax` sectors. -/
def distributionSection (lbaMax : Nat) (args : Args) (i : Nat) : Section where
  lbaStart := lbaMax / 100 * i
  lbaEnd := if i = 99 then args.regionEnd else lbaMax / 100 * i + lbaMax / 100

/-- The section of a distributed IO has a weight. -/
theorem randomSection_eq {g : Gctx} {l : List Nat} {nsze : Nat} (hg : g.distribution = true)
    (htable : g.dlTable = ioworkerDistributionInit nsze args l) (hl : l.length = 100)
    (hsum : l.sum = 10000) (d : Draws) :
    ∃ i < 100, 0 < l.getD i 0 ∧ randomSection args g d = distributionSection nsze args i := by
  have hlen : g.dlTable.length = 10000 := by
    rw [htable, length_ioworkerDistributionInit _ _ hl, hsum]
  have hmem := getD_mem hlen (by decide) d.sect ⟨0, 0⟩
  rw [htable] at hmem
  obtain ⟨i, hi, hw, hs⟩ := mem_lookupTable.1 hmem
  refine ⟨i, hi, hw, ?_⟩
  rw [randomSection, hg, if_pos rfl, htable, hs]
  rfl

/-- The region of a worker with a distribution is the namespace. -/
theorem Configured.region_of_distribution (h : Configured env args w) (hv : args.Valid)
    {l : List Nat} (hl : args.distribution = some l) :
    w.args.regionStart = 0 ∧ w.args.regionEnd = env.ns.numSectors := by
  obtain ⟨hstart, hend, -⟩ := hv.distribution l hl
  have hns := env.ns.numSectors_lt
  constructor
  · rw [h.regionStart, hstart, alignUp, Nat.zero_mod]
    rfl
  · rw [h.regionEnd, hend]
    omega

/-- Its sections are those of the namespace. -/
theorem Configured.section_of_distribution (h : Configured env args w) (hv : args.Valid)
    {l : List Nat} (hl : args.distribution = some l) (d : Draws) :
    ∃ i < 100, randomSection w.args w.g d = distributionSection env.ns.numSectors w.args i := by
  obtain ⟨-, -, hlen, hsum⟩ := hv.distribution l hl
  have hg : w.g.distribution = true := by rw [h.distribution, hl, Option.isSome_some]
  obtain ⟨i, hi, -, hs⟩ := randomSection_eq hg (h.dlTable l hl) hlen hsum d
  exact ⟨i, hi, hs⟩

/-- The bounds of the sections of a distribution. -/
theorem distribution_section {nsze i : Nat} (hpos : 0 < nsze) (hi : i < 100) :
    nsze / 100 * i < nsze ∧ nsze / 100 * i + nsze / 100 ≤ nsze := by
  have hmul : nsze / 100 * (i + 1) ≤ nsze / 100 * 100 := Nat.mul_le_mul_left _ hi
  rw [Nat.mul_succ] at hmul
  rcases Nat.eq_zero_or_pos (nsze / 100) with h0 | h0
  · rw [h0, Nat.zero_mul]
    omega
  · omega

/-- The section of a random IO lies in the region, if that is not empty. -/
theorem Configured.section_within (h : Configured env args w) (hv : args.Valid)
    (hregion : w.args.regionStart < w.args.regionEnd) :
    w.args.regionStart ≤ (randomSection w.args w.g d).lbaStart ∧
      (randomSection w.args w.g d).lbaStart ≤ (randomSection w.args w.g d).lbaEnd ∧
      (randomSection w.args w.g d).lbaStart < w.args.regionEnd ∧
      (randomSection w.args w.g d).lbaEnd ≤ w.args.regionEnd := by
  rcases hd : args.distribution with _ | l
  · rw [randomSection, h.distribution, hd]
    exact ⟨Nat.le_refl _, Nat.le_of_lt hregion, hregion, Nat.le_refl _⟩
  · obtain ⟨hS, hE⟩ := h.region_of_distribution hv hd
    obtain ⟨i, hi, hs⟩ := h.section_of_distribution hv hd d
    rw [hS, hE] at hregion
    have hsec := distribution_section hregion hi
    simp only [hs, distributionSection, hS, hE]
    split_ifs <;> omega

/-! ### The raw LBA -/

theorem crc32SkipUncorr_of_ne {ns : Ns} {slba : Nat}
    (h : ∀ t ∈ ns.crcTable, t.data slba ≠ uncorrCrc) : crc32SkipUncorr ns slba = some slba := by
  rw [crc32SkipUncorr]
  split
  · rfl
  · rename_i t ht
    split_ifs
    · rw [show 2 ^ 64 = (2 ^ 64 - 1) + 1 from rfl, crc32SkipUncorr.skip, if_neg (h t ht)]
    · rfl

/-- The rule that no LBA of the namespace is marked uncorrectable. -/
def NoUncorr (w : Worker) : IowEvent → Prop
  | .send _ table _ _ _ _ => ∀ lba < w.env.ns.numSectors, table lba ≠ uncorrCrc
  | _ => True

/-- Where a sequential IO starts: at the cursor, or at the start of the region. -/
def Worker.cursor (w : Worker) : Nat :=
  if w.g.sequentialLba < w.args.regionEnd then w.g.sequentialLba else w.args.regionStart

theorem ioworkerSendOneLbaSequential_eq (w : Worker) :
    ioworkerSendOneLbaSequential w.args w.g = w.cursor := by
  rw [ioworkerSendOneLbaSequential, Worker.cursor]
  split_ifs <;> first | rfl | omega

/-- In a region that is not empty the raw LBA is found, and below its end. -/
theorem Configured.rawLba (h : Configured env args w) (hv : args.Valid)
    (hregion : w.args.regionStart < w.args.regionEnd)
    (hun : ∀ lba < env.ns.numSectors, table lba ≠ uncorrCrc) :
    ∃ c, ioworkerRawLba (w.nsWith table) w.args w.g d = .ok c ∧ c < w.args.regionEnd ∧
      (d.isRandom w.args = true → w.args.regionStart ≤ c) ∧
      (d.isRandom w.args = false → c = w.cursor) := by
  rw [ioworkerRawLba]
  cases hr : d.isRandom w.args with
  | true =>
    obtain ⟨hS, hle, hlt, hE⟩ := h.section_within (d := d) hv hregion
    rw [if_pos rfl]
    simp only [ioworkerSendOneLbaRandom]
    by_cases heq : (randomSection w.args w.g d).lbaEnd = (randomSection w.args w.g d).lbaStart
    · rw [if_pos heq]
      exact ⟨_, rfl, hlt, fun _ => hS, by simp⟩
    · rw [if_neg heq, if_pos (by omega)]
      have hpos : 0 < (randomSection w.args w.g d).lbaEnd -
          (randomSection w.args w.g d).lbaStart := by omega
      have hmod := Nat.mod_lt d.lba hpos
      exact ⟨_, rfl, by omega, fun _ => by omega, by simp⟩
  | false =>
    rw [if_neg Bool.false_ne_true]
    have hlt : w.cursor < w.args.regionEnd := by
      rw [Worker.cursor]
      split_ifs <;> assumption
    have hskip : crc32SkipUncorr (w.nsWith table) w.cursor = some w.cursor := by
      refine crc32SkipUncorr_of_ne fun t ht => ?_
      have hdata : t.data = table := by
        rw [Worker.nsWith, Ns.mapData] at ht
        obtain ⟨t', -, rfl⟩ := Option.mem_map.1 ht
        rfl
      have hE := h.regionEnd
      rw [hdata]
      exact hun _ (by omega)
    rw [ioworkerSendOneLbaSequential_eq, hskip]
    exact ⟨_, rfl, hlt, by simp, fun _ => rfl⟩

/-! ### The IO -/

/-- The IO `p` was drawn with the size `e` from the raw LBA `c`. -/
structure Drawn (w : Worker) (d : Draws) (p : Prepared) (e : LbaSize) (c : Nat) : Prop where
  entry : ioworkerSendOneSize w.args w.g d = .ok (e.size, e.align)
  size : p.size = e.size
  raw_lt : c < w.args.regionEnd
  random : d.isRandom w.args = true → w.args.regionStart ≤ c
  sequential : d.isRandom w.args = false → c = w.cursor
  lba : p.io.lba = fit w.args.regionEnd c e.align
  lt : p.io.lba < w.args.regionEnd
  count : 1 ≤ p.io.count ∧ p.io.count ≤ p.size ∧ p.io.lba + p.io.count ≤ w.args.regionEnd
  cursor : p.sequentialLba = if d.isRandom w.args then w.g.sequentialLba
    else nextSequentialLba w.args p.io.lba (u16 p.size)

/-- An IO that starts in the region ends in it, after its tail is truncated. -/
theorem truncate_le {regionEnd lba n : Nat} (hlba : lba < regionEnd) :
    lba + u32 (min n (u64 (regionEnd + 2 ^ 64 - lba))) ≤ regionEnd := by
  have hu : u64 (regionEnd + 2 ^ 64 - lba) ≤ regionEnd - lba := by
    rw [u64]
    omega
  have hm : u32 (min n (u64 (regionEnd + 2 ^ 64 - lba))) ≤ min n (u64 (regionEnd + 2 ^ 64 - lba)) :=
    Nat.mod_le _ _
  omega

theorem truncate_count {regionEnd lba size : Nat} (hend : regionEnd < 2 ^ 64)
    (hlba : lba < regionEnd) (hsize : 1 ≤ size ∧ size < 0x10000) :
    1 ≤ u32 (min size (u64 (regionEnd + 2 ^ 64 - lba))) ∧
      u32 (min size (u64 (regionEnd + 2 ^ 64 - lba))) ≤ size := by
  have hu : u64 (regionEnd + 2 ^ 64 - lba) = regionEnd - lba := by
    rw [u64]
    omega
  rw [hu, u32_of_lt (by omega)]
  omega

/-- Below the end of the region, rounding up overflows only if it does at its end. -/
theorem roundUp_lt_of_lt {c e a : Nat} (ha : 0 < a) (hc : c < e)
    (h : roundUp (e - 1) a < 2 ^ 64) : roundUp c a < 2 ^ 64 :=
  lt_of_le_of_lt (roundUp_mono ha (Nat.le_pred_of_lt hc)) h

variable {ctx : IoCtx} {p : Prepared} {why : Abort}

/-- What is drawn in a region that is not empty. -/
theorem Configured.drawn (h : Configured env args w) (hv : args.Valid)
    (hseq : args.ioSequence = none) (hregion : w.args.regionStart < w.args.regionEnd)
    (hun : ∀ lba < env.ns.numSectors, table lba ≠ uncorrCrc)
    (hover : ∀ size a, ioworkerSendOneSize w.args w.g d = .ok (size, a) →
      roundUp (w.args.regionEnd - 1) a < 2 ^ 64)
    (hp : ioworkerSendOnePrepare (w.nsWith table) w.args w.g ctx d = .ok p) :
    ∃ e ∈ args.lbaSizeList, ∃ c, Drawn w d p e c := by
  obtain ⟨a, raw, lba, opIndex, op, hsize, hraw, halign, hcursor, hio⟩ :=
    ioworkerSendOnePrepare_eq_ok hp
  obtain ⟨e, he, hesize, rfl⟩ := h.size_mem hv hsize
  obtain ⟨c, hc, hlt, hrandom, hsequential⟩ := h.rawLba (d := d) hv hregion hun
  obtain rfl : c = raw := Except.ok.inj (hc.symm.trans hraw)
  have ha := (hv.align e he).1
  rw [ioworkerAlignLba_eq ha (roundUp_lt_of_lt ha hlt (hover _ _ hsize)),
    if_pos (fit_lt ha hlt)] at halign
  obtain rfl := Except.ok.inj halign
  rw [ioworkerReplayOne, h.ioSequence, hseq] at hio
  obtain ⟨-, hlba, hcount, -⟩ := ioworkerSendOneIo_eq_ok hio
  dsimp only at hlba hcount
  have hE : w.args.regionEnd < 2 ^ 64 := by
    have := env.ns.numSectors_lt
    have := h.regionEnd
    omega
  refine ⟨e, he, c, ?_⟩
  constructor
  case entry => rw [hesize]; exact hsize
  case size => exact hesize.symm
  case raw_lt => exact hlt
  case random => exact hrandom
  case sequential => exact hsequential
  case lba => exact hlba
  case lt => rw [hlba]; exact fit_lt ha hlt
  case count =>
    rw [hlba, hcount]
    have hs : 1 ≤ p.size ∧ p.size < 0x10000 := by
      have := hv.size e he
      omega
    obtain ⟨hpos, hle⟩ := truncate_count hE (fit_lt ha hlt) hs
    exact ⟨hpos, hle, truncate_le (fit_lt ha hlt)⟩
  case cursor => rw [hlba]; exact hcursor

/-- No assertion on the LBA fails in a region that is not empty. -/
theorem Configured.prepare_error (h : Configured env args w) (hv : args.Valid)
    (hseq : args.ioSequence = none) (hregion : w.args.regionStart < w.args.regionEnd)
    (hun : ∀ lba < env.ns.numSectors, table lba ≠ uncorrCrc)
    (hover : ∀ size a, ioworkerSendOneSize w.args w.g d = .ok (size, a) →
      roundUp (w.args.regionEnd - 1) a < 2 ^ 64)
    (hp : ioworkerSendOnePrepare (w.nsWith table) w.args w.g ctx d = .error why) :
    why = .divisionByZero := by
  obtain ⟨c, hc, hlt, -⟩ := h.rawLba (d := d) hv hregion hun
  rcases ioworkerSendOnePrepare_eq_error hp with hp | ⟨size, a, hsize, hp⟩
  · exact ioworkerSendOneSize_eq_error hp
  obtain ⟨e, he, -, rfl⟩ := h.size_mem hv hsize
  have ha := (hv.align e he).1
  rcases hp with hp | ⟨raw, hraw, hp⟩
  · rw [hc] at hp
    cases hp
  obtain rfl : c = raw := Except.ok.inj (hc.symm.trans hraw)
  rw [ioworkerAlignLba_eq ha (roundUp_lt_of_lt ha hlt (hover _ _ hsize)),
    if_pos (fit_lt ha hlt)] at hp
  rcases hp with hp | ⟨lba, opIndex, op, hlba, hp⟩
  · cases hp
  · obtain rfl := Except.ok.inj hlba
    rw [ioworkerReplayOne, h.ioSequence, hseq] at hp
    have hfit := fit_lt ha hlt
    have hlt' := (ioworkerSendOneIo_eq_error hp).2
    dsimp only at hlt'
    omega

end Pynvme
