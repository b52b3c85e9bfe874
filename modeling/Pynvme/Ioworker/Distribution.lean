import Pynvme.Ioworker.Lba
import Pynvme.Ioworker.Accounting

/-!
# Distributed IOs

The LBAs of a distributed workload are drawn in two steps: a section of the namespace by
its weight, and an LBA of the section. The LBA is then aligned in the namespace, with no
regard to the section: it is rounded up, and leaves the section if there is no aligned LBA
in it from the drawn one on.

`ioworker_stays_in_section_iff`: an IO stays in its section exactly if the drawn LBA is
rounded up to an LBA of the section, or up beyond the namespace, and so down.
-/

namespace Pynvme

open Word Multiple

/-- The LBA is in the section. -/
def Section.Contains (s : Section) (lba : Nat) : Prop := s.lbaStart ≤ lba ∧ lba < s.lbaEnd

instance (s : Section) (lba : Nat) : Decidable (s.Contains lba) :=
  inferInstanceAs (Decidable (_ ∧ _))

/-- The arguments and the context of a worker with the distribution `l`, on a namespace of at
    least 100 sectors. -/
structure Distributes (ns : Ns) (args : Args) (g : Gctx) (l : List Nat) : Prop where
  nsze : 100 ≤ ns.numSectors
  weights : l.length = 100 ∧ l.sum = 10000
  regionEnd : args.regionEnd = ns.numSectors
  distribution : g.distribution = true
  dlTable : g.dlTable = ioworkerDistributionInit ns.numSectors args l

variable {ns : Ns} {args : Args} {g : Gctx} {d : Draws} {l : List Nat} {a i j lba lbaCount : Nat}

/-- This is what `ioworker_entry` makes of arguments with a distribution. -/
theorem Configured.distributes {env : Env} {w : Worker} (h : Configured env args w)
    (hv : args.Valid) (hl : args.distribution = some l) (hnsze : 100 ≤ env.ns.numSectors) :
    Distributes env.ns w.args w.g l := by
  obtain ⟨-, -, hlen, hsum⟩ := hv.distribution l hl
  refine ⟨hnsze, ⟨hlen, hsum⟩, (h.region_of_distribution hv hl).2, ?_, h.dlTable l hl⟩
  rw [h.distribution, hl, Option.isSome_some]

namespace Distributes

/-- The bounds of a section. -/
theorem bounds (h : Distributes ns args g l) (hi : i < 100) :
    (distributionSection ns.numSectors args i).lbaStart <
        (distributionSection ns.numSectors args i).lbaEnd ∧
      (distributionSection ns.numSectors args i).lbaEnd ≤ ns.numSectors := by
  have hnsze := h.nsze
  have hsec := distribution_section (show 0 < ns.numSectors by omega) hi
  simp only [distributionSection, h.regionEnd]
  split_ifs <;> omega

/-- An LBA is in one section only. -/
theorem eq_of_contains (hi : i < 100) (hj : j < 100)
    (hlba : (distributionSection ns.numSectors args i).Contains lba)
    (hlba' : (distributionSection ns.numSectors args j).Contains lba) : i = j := by
  -- a section ends before the later ones start
  have hsep : ∀ i j, i < j → j < 100 → (distributionSection ns.numSectors args i).Contains lba →
      ¬(distributionSection ns.numSectors args j).Contains lba := by
    intro i j hij hj hlba hlba'
    have hle : ns.numSectors / 100 * (i + 1) ≤ ns.numSectors / 100 * j :=
      Nat.mul_le_mul_left _ hij
    have hlt := hlba.2
    simp only [distributionSection, if_neg (show i ≠ 99 by omega)] at hlt
    have hge := hlba'.1
    simp only [distributionSection] at hge
    rw [Nat.mul_succ] at hle
    omega
  rcases Nat.lt_trichotomy i j with hlt | rfl | hlt
  · exact absurd hlba' (hsep i j hlt hj hlba)
  · rfl
  · exact absurd hlba (hsep j i hlt hi hlba')

/-- The section of a slot has a weight. -/
theorem slot (h : Distributes ns args g l) (d : Draws) : ∃ i < 100, 0 < l.getD i 0 ∧
    randomSection args g d = distributionSection ns.numSectors args i :=
  randomSection_eq h.distribution h.dlTable h.weights.1 h.weights.2 d

end Distributes

/-! ### The alignment of a drawn LBA -/

/-- The LBA drawn in the section. -/
def Section.draw (s : Section) (d : Draws) : Nat := d.lba % (s.lbaEnd - s.lbaStart) + s.lbaStart

theorem Section.contains_draw {s : Section} (h : s.lbaStart < s.lbaEnd) (d : Draws) :
    s.Contains (s.draw d) := by
  have hlt : d.lba % (s.lbaEnd - s.lbaStart) < s.lbaEnd - s.lbaStart := Nat.mod_lt _ (by omega)
  simp only [Section.Contains, Section.draw]
  omega

/-- Rounding into the namespace, up to `e`, stays in a section with an aligned LBA exactly if
    rounding up ends in it or beyond the namespace. -/
theorem Section.contains_fit_iff {s : Section} {e n : Nat} (ha : 0 < a) (hn : s.Contains n)
    (he : s.lbaEnd ≤ e) (haligned : ∃ m, a ∣ m ∧ s.Contains m) :
    s.Contains (fit e n a) ↔ roundUp n a < s.lbaEnd ∨ e ≤ roundUp n a := by
  obtain ⟨hstart, hend⟩ := hn
  have hup := le_roundUp ha n
  rw [fit]
  split_ifs with hlt
  · simp only [Section.Contains]
    omega
  · -- rounded down, to the last aligned LBA before `n`
    obtain ⟨m, hm, hms, hme⟩ := haligned
    have hge : m ≤ roundDown (roundUp n a - 1) a := le_roundDown hm (by omega)
    have hle := roundDown_le (roundUp n a - 1) a
    have hbelow : roundDown (roundUp n a - 1) a < n :=
      (lt_roundUp_iff ha (dvd_roundDown _ a)).1 (by omega)
    simp only [Section.Contains]
    omega

/-! ### The LBA of an IO -/

/-- An LBA near the end of the addresses is in the last section, which starts far from their
    start. -/
theorem Distributes.lt_lbaStart (h : Distributes ns args g l) (hi : i < 100)
    (hlba : (distributionSection ns.numSectors args i).Contains lba)
    (hend : 2 ^ 64 ≤ lba + 2 ^ 16) :
    2 ^ 16 < (distributionSection ns.numSectors args i).lbaStart := by
  have hnsze := ns.numSectors_lt
  have hlt := Nat.lt_of_lt_of_le hlba.2 (h.bounds hi).2
  have hin := hlba.2
  simp only [distributionSection] at hin ⊢
  split_ifs at hin with h99
  · subst h99
    omega
  · have hmul : ns.numSectors / 100 * (i + 1) ≤ ns.numSectors / 100 * 99 :=
      Nat.mul_le_mul_left _ (by omega)
    rw [Nat.mul_succ] at hmul
    omega

/-- The LBA of an IO of the section `i` is in it, and in no section without a weight. -/
def StaysInSection (ns : Ns) (args : Args) (g : Gctx) (l : List Nat) (lbaAlign lbaCount : Nat)
    (d : Draws) (i : Nat) : Prop :=
  ∃ lba cursor, ioworkerSendOneLba ns args g lbaAlign lbaCount d = .ok (lba, cursor) ∧
    (distributionSection ns.numSectors args i).Contains lba ∧
    ∀ j < 100, l.getD j 0 = 0 → ¬(distributionSection ns.numSectors args j).Contains lba

/-- The LBA is that of the section, aligned in the namespace. -/
theorem Distributes.sendOneLba_iff (h : Distributes ns args g l) (hrandom : d.isRandom args = true)
    (hi : i < 100) (hslot : randomSection args g d = distributionSection ns.numSectors args i) :
    (∃ cursor, ioworkerSendOneLba ns args g a lbaCount d = .ok (lba, cursor)) ↔
      ioworkerAlignLba ns.numSectors ((distributionSection ns.numSectors args i).draw d) a =
        .ok lba := by
  have hlt := (h.bounds hi).1
  have hraw : ioworkerRawLba ns args g d =
      .ok ((distributionSection ns.numSectors args i).draw d) := by
    rw [ioworkerRawLba, if_pos hrandom]
    simp only [ioworkerSendOneLbaRandom, hslot]
    rw [if_neg hlt.ne', if_pos hlt]
    rfl
  constructor
  · rintro ⟨cursor, hsend⟩
    obtain ⟨raw, hraw', hsend⟩ := Except.bind_eq_ok.1 hsend
    obtain ⟨lba', halign, hsend⟩ := Except.bind_eq_ok.1 hsend
    cases Except.pure_eq_ok.1 hsend
    obtain rfl := Except.ok.inj (hraw.symm.trans hraw')
    rwa [h.regionEnd] at halign
  · intro halign
    refine ⟨_, Except.bind_eq_ok.2 ⟨_, hraw, Except.bind_eq_ok.2 ⟨lba, ?_, rfl⟩⟩⟩
    rwa [h.regionEnd]

/-- A distributed IO of a section that has an aligned LBA stays in it if and only if the drawn
    LBA is rounded up to an LBA of the section, or beyond the namespace without an
    overflow. -/
theorem ioworker_stays_in_section_iff (h : Distributes ns args g l)
    (hrandom : d.isRandom args = true) (ha : 0 < a) (ha16 : a < 2 ^ 16) (hi : i < 100)
    (hslot : randomSection args g d = distributionSection ns.numSectors args i)
    (haligned : ∃ m, a ∣ m ∧ (distributionSection ns.numSectors args i).Contains m) :
    StaysInSection ns args g l a lbaCount d i ↔
      roundUp ((distributionSection ns.numSectors args i).draw d) a <
          (distributionSection ns.numSectors args i).lbaEnd ∨
        (ns.numSectors ≤ roundUp ((distributionSection ns.numSectors args i).draw d) a ∧
          roundUp ((distributionSection ns.numSectors args i).draw d) a < 2 ^ 64) := by
  have hnsze := ns.numSectors_lt
  obtain ⟨hlt, hle⟩ := h.bounds hi
  have hdraw := Section.contains_draw hlt d
  -- a section that contains the LBA has a weight
  have hweight : ∀ lba, (distributionSection ns.numSectors args i).Contains lba →
      ∀ j < 100, l.getD j 0 = 0 → ¬(distributionSection ns.numSectors args j).Contains lba := by
    intro lba hlba j hj h0 hlba'
    obtain ⟨i', hi', hw, hs⟩ := h.slot d
    rw [hslot] at hs
    obtain rfl := Distributes.eq_of_contains hi hj hlba hlba'
    obtain rfl := Distributes.eq_of_contains hi hi' hlba (hs ▸ hlba)
    omega
  have hstays : StaysInSection ns args g l a lbaCount d i ↔
      ∃ lba, ioworkerAlignLba ns.numSectors ((distributionSection ns.numSectors args i).draw d) a =
        .ok lba ∧ (distributionSection ns.numSectors args i).Contains lba := by
    constructor
    · rintro ⟨lba, cursor, hsend, hin, -⟩
      exact ⟨lba, (h.sendOneLba_iff hrandom hi hslot).1 ⟨cursor, hsend⟩, hin⟩
    · rintro ⟨lba, halign, hin⟩
      obtain ⟨cursor, hsend⟩ := (h.sendOneLba_iff hrandom hi hslot).2 halign
      exact ⟨lba, cursor, hsend, hin, hweight lba hin⟩
  rw [hstays]
  rcases Nat.lt_or_ge (roundUp ((distributionSection ns.numSectors args i).draw d) a) (2 ^ 64)
    with hfits | hover
  · have hfit := fit_lt ha (Nat.lt_of_lt_of_le hdraw.2 hle)
    rw [ioworkerAlignLba_eq ha hfits, if_pos hfit, and_iff_left hfits,
      ← Section.contains_fit_iff ha hdraw hle haligned]
    constructor
    · rintro ⟨lba, hok, hin⟩
      obtain rfl := Except.ok.inj hok
      exact hin
    · exact fun hin => ⟨_, rfl, hin⟩
  · -- the aligned LBA is before the section
    have hup := alignUp_of_overflow ha (by have := hdraw.2; omega) hover
    have hbound := roundUp_lt_add ha ((distributionSection ns.numSectors args i).draw d)
    have hfar := h.lt_lbaStart hi hdraw (by omega)
    have hdrawn := hdraw.2
    refine iff_of_false ?_ (by omega)
    rintro ⟨lba, hok, hin⟩
    simp only [ioworkerAlignLba, if_neg (Nat.pos_iff_ne_zero.1 ha)] at hok
    rw [if_neg (by omega)] at hok
    obtain rfl := Except.ok.inj hok
    have := hin.1
    omega

/-! ### The first section only -/

/-- All weight is on the first section. -/
def firstOnly : List Nat := 10000 :: List.replicate 99 0

/-- The arguments of a random read on a namespace of 1000 sectors. -/
def readFirstArgs : Args :=
  { readOnceArgs with regionEnd := 1000, lbaRandom := 100, distribution := some firstOnly }

/-- Their context. -/
def readFirstGctx : Gctx := ioworkerInitGctx (plainEnv 1000) readFirstArgs

theorem readFirst_distributes :
    Distributes (plainNs 1000) readFirstArgs readFirstGctx firstOnly where
  nsze := by decide
  weights := by decide
  regionEnd := rfl
  distribution := rfl
  dlTable := by
    rw [readFirstGctx, ioworkerInitGctx, show readFirstArgs.distribution = some firstOnly from rfl,
      Option.map_some, Option.getD_some]
    rfl

theorem readFirst_slot (d : Draws) :
    randomSection readFirstArgs readFirstGctx d = distributionSection 1000 readFirstArgs 0 := by
  have hfirst : ∀ i < 100, 0 < firstOnly.getD i 0 → i = 0 := by decide
  obtain ⟨i, hi, hw, hs⟩ := readFirst_distributes.slot d
  obtain rfl := hfirst i hi hw
  exact hs

/-- The LBA 3 of the first section is aligned to 8. -/
theorem ioworker_stays_in_first_section :
    StaysInSection (plainNs 1000) readFirstArgs readFirstGctx firstOnly 8 8 ⟨0, 0, 0, 0, 3⟩ 0 :=
  (ioworker_stays_in_section_iff readFirst_distributes rfl (by decide) (by decide) (by decide)
    (readFirst_slot _) ⟨0, by decide, by decide, by decide⟩).2 (.inl (by decide))

/-- The LBA 9 of the first section, which ends at 10, is aligned to 16: the IO starts in the
    second section, whose weight is 0. -/
theorem ioworker_leaves_first_section :
    Distributes (plainNs 1000) readFirstArgs readFirstGctx firstOnly ∧
    randomSection readFirstArgs readFirstGctx ⟨0, 0, 0, 0, 9⟩ =
      distributionSection 1000 readFirstArgs 0 ∧
    (8 ∣ 0 ∧ (distributionSection 1000 readFirstArgs 0).Contains 0) ∧
    ¬StaysInSection (plainNs 1000) readFirstArgs readFirstGctx firstOnly 8 8 ⟨0, 0, 0, 0, 9⟩ 0 ∧
    (∃ cursor, ioworkerSendOneLba (plainNs 1000) readFirstArgs readFirstGctx 8 8
        ⟨0, 0, 0, 0, 9⟩ = .ok (16, cursor)) ∧
    firstOnly.getD 1 0 = 0 ∧ (distributionSection 1000 readFirstArgs 1).Contains 16 := by
  refine ⟨readFirst_distributes, readFirst_slot _, by decide, ?_, ?_, rfl, by decide⟩
  · rintro ⟨lba, cursor, hsend, hin, -⟩
    have halign := (readFirst_distributes.sendOneLba_iff rfl (by decide) (readFirst_slot _)).1
      ⟨cursor, hsend⟩
    obtain rfl : 16 = lba := Except.ok.inj halign
    exact absurd hin.2 (by decide)
  · exact (readFirst_distributes.sendOneLba_iff rfl (by decide) (readFirst_slot _)).2 rfl

end Pynvme
