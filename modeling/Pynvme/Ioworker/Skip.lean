import Pynvme.Ioworker.Sequential

/-!
# Uncorrectable LBAs

A sequential workload is to skip the LBAs that the CRC table marks as uncorrectable,
such as those between two zones: `crc32_skip_uncorr` goes up from the cursor to the first
LBA that is not marked (`skipUncorr_eq_some_iff`). It goes on beyond the end of the region,
where the LBA is then taken for one that the alignment has moved too far, and moved back by
one: to a marked LBA, or to one that is still out of the region.

`ioworker_skips_uncorr_iff`: an IO starts at an LBA of the region that is not marked
exactly if the first such LBA from the cursor on is in the region.
-/

namespace Pynvme

open Word

variable {ns : Ns} {args : Args} {g : Gctx} {d : Draws} {c r lbaCount : Nat}

/-! ### The skip -/

/-- Going up from `c`, in 64 bits, `r` is the first LBA not marked as uncorrectable. -/
def FirstGood (ns : Ns) (c r : Nat) : Prop :=
  ∃ n < 2 ^ 64, r = u64 (c + n) ∧ ns.entry r ≠ uncorrCrc ∧
    ∀ m < n, ns.entry (u64 (c + m)) = uncorrCrc

/-- The word `n` words behind the next one. -/
theorem u64_succ_add (c n : Nat) : u64 (u64 (c + 1) + n) = u64 (c + (n + 1)) := by
  simp only [u64]
  omega

/-- One more word that is marked. -/
theorem marked_succ_iff {t : CrcTable} {n : Nat} (hc : c < 2 ^ 64) :
    (∀ m < n + 1, t.data (u64 (c + m)) = uncorrCrc) ↔
      t.data c = uncorrCrc ∧ ∀ m < n, t.data (u64 (u64 (c + 1) + m)) = uncorrCrc := by
  have hfirst : u64 (c + 0) = c := u64_of_lt hc
  constructor
  · intro hall
    have h0 := hall 0 (Nat.succ_pos n)
    rw [hfirst] at h0
    refine ⟨h0, fun m hm => ?_⟩
    rw [u64_succ_add]
    exact hall (m + 1) (Nat.succ_lt_succ hm)
  · rintro ⟨h0, hall⟩ m hm
    rcases m with _ | m
    · rwa [hfirst]
    · rw [← u64_succ_add]
      exact hall m (Nat.lt_of_succ_lt_succ hm)

/-- The loop stops at the first word that is not marked. -/
theorem skip_eq_some_iff {t : CrcTable} {fuel : Nat} (hc : c < 2 ^ 64) :
    crc32SkipUncorr.skip t fuel c = some r ↔
      ∃ n < fuel, r = u64 (c + n) ∧ t.data r ≠ uncorrCrc ∧
        ∀ m < n, t.data (u64 (c + m)) = uncorrCrc := by
  induction fuel generalizing c with
  | zero => simp [crc32SkipUncorr.skip]
  | succ fuel ih =>
    rw [crc32SkipUncorr.skip]
    split_ifs with hmark
    · rw [ih (u64_lt _)]
      constructor
      · rintro ⟨n, hn, hr, hgood, hall⟩
        rw [u64_succ_add] at hr
        exact ⟨n + 1, by omega, hr, hgood, (marked_succ_iff hc).2 ⟨hmark, hall⟩⟩
      · rintro ⟨n, hn, hr, hgood, hall⟩
        rcases n with _ | n
        · rw [hr, Nat.add_zero, u64_of_lt hc] at hgood
          exact absurd hmark hgood
        · rw [← u64_succ_add] at hr
          exact ⟨n, by omega, hr, hgood, ((marked_succ_iff hc).1 hall).2⟩
    · constructor
      · intro h
        obtain rfl := Option.some.inj h
        exact ⟨0, by omega, (u64_of_lt hc).symm, hmark, fun m hm => absurd hm (Nat.not_lt_zero m)⟩
      · rintro ⟨n, hn, hr, hgood, hall⟩
        rcases n with _ | n
        · rw [hr, Nat.add_zero, u64_of_lt hc]
        · exact absurd ((marked_succ_iff hc).1 hall).1 hmark

theorem skipUncorr_eq_some_iff (ht : ns.crcTable.isSome) (hc : c < ns.entries) :
    crc32SkipUncorr ns c = some r ↔ FirstGood ns c r := by
  obtain ⟨t, ht⟩ := Option.isSome_iff_exists.1 ht
  have hN := ns.entries_lt
  have hguard : u64 (c * 4) < ns.tableSize := (u64_mul_four_lt (by omega)).2 hc
  simp only [crc32SkipUncorr, ht, if_pos hguard]
  rw [skip_eq_some_iff (by omega)]
  simp only [FirstGood, entry_of_some ht]

/-- The LBA before the first one that is not marked, if the skip has gone on. -/
theorem FirstGood.prev_marked (h : FirstGood ns c r) (hc : c < 2 ^ 64) (hne : r ≠ c) :
    ns.entry (u64 (r + 2 ^ 64 - 1)) = uncorrCrc := by
  obtain ⟨n, hn, rfl, -, hall⟩ := h
  have hpos : n ≠ 0 := by
    rintro rfl
    exact hne (u64_of_lt hc)
  have hprev : u64 (u64 (c + n) + 2 ^ 64 - 1) = u64 (c + (n - 1)) := by
    simp only [u64]
    omega
  rw [hprev]
  exact hall (n - 1) (by omega)

/-- When the LBA has wrapped, all before it are marked. -/
theorem FirstGood.marked_of_wrap (h : FirstGood ns c r) (hc : c < 2 ^ 64) (hwrap : r < c)
    {j : Nat} (hj : j < r) : ns.entry j = uncorrCrc := by
  obtain ⟨n, hn, rfl, -, hall⟩ := h
  have hbefore : j = u64 (c + (j + 2 ^ 64 - c)) ∧ j + 2 ^ 64 - c < n := by
    simp only [u64] at hwrap hj ⊢
    omega
  rw [hbefore.1]
  exact hall _ hbefore.2

/-! ### The LBA -/

theorem alignDown_one (n : Nat) : alignDown n 1 = n := by
  rw [alignDown, Nat.mod_one, Nat.sub_zero]

/-- Without an alignment, an LBA out of the region is moved back by one. -/
theorem ioworkerAlignLba_one {regionEnd lba : Nat} : ioworkerAlignLba regionEnd lba 1 =
    if lba < regionEnd then .ok lba
    else if u64 (lba + 2 ^ 64 - 1) < regionEnd then .ok (u64 (lba + 2 ^ 64 - 1))
    else .error .lba := by
  simp only [ioworkerAlignLba, alignUp_one, alignDown_one]
  rw [if_neg Nat.one_ne_zero]
  by_cases hlt : lba < regionEnd
  · rw [if_pos hlt, if_neg (Nat.not_le.2 hlt)]
  · rw [if_neg hlt, if_pos (Nat.not_lt.1 hlt)]

/-- What is to be returned for a sequential IO: an LBA of the region that is not marked, and
    the first one in the region if all from the cursor to its end are. -/
def SkipsUncorr (ns : Ns) (args : Args) (g : Gctx) (lbaCount : Nat) (d : Draws) : Prop :=
  ∃ lba cursor, ioworkerSendOneLba ns args g 1 lbaCount d = .ok (lba, cursor) ∧
    args.regionStart ≤ lba ∧ lba < args.regionEnd ∧ ns.entry lba ≠ uncorrCrc ∧
    ((∀ j, ioworkerSendOneLbaSequential args g ≤ j → j < args.regionEnd →
        ns.entry j = uncorrCrc) →
      ∀ j, args.regionStart ≤ j → j < lba → ns.entry j = uncorrCrc)

/-- A sequential IO without an alignment, on a table that covers the region: it skips the
    marked LBAs if and only if the first one from the cursor on that is not marked is in
    the region. -/
theorem ioworker_skips_uncorr_iff (hrandom : d.isRandom args = false)
    (ht : ns.crcTable.isSome) (hcover : args.regionEnd ≤ ns.entries)
    (hgood : ∃ j, args.regionStart ≤ j ∧ j < args.regionEnd ∧ ns.entry j ≠ uncorrCrc) :
    SkipsUncorr ns args g lbaCount d ↔
      ∃ r, FirstGood ns (ioworkerSendOneLbaSequential args g) r ∧
        args.regionStart ≤ r ∧ r < args.regionEnd := by
  have hN := ns.entries_lt
  have hc : ioworkerSendOneLbaSequential args g < args.regionEnd := by
    obtain ⟨j, hj, hlt, -⟩ := hgood
    rw [ioworkerSendOneLbaSequential]
    split_ifs <;> omega
  set c := ioworkerSendOneLbaSequential args g
  have hraw : ∀ r, ioworkerRawLba ns args g d = .ok r ↔ FirstGood ns c r := by
    intro r
    rw [← skipUncorr_eq_some_iff ht (Nat.lt_of_lt_of_le hc hcover), ioworkerRawLba, hrandom,
      if_neg Bool.false_ne_true]
    cases crc32SkipUncorr ns c <;> simp
  constructor
  · rintro ⟨lba, cursor, hsend, hS, hE, hmark, -⟩
    obtain ⟨r, hr, hsend⟩ := Except.bind_eq_ok.1 hsend
    obtain ⟨lba', halign, hsend⟩ := Except.bind_eq_ok.1 hsend
    cases Except.pure_eq_ok.1 hsend
    have hfirst := (hraw r).1 hr
    rw [ioworkerAlignLba_one] at halign
    split_ifs at halign with hlt hdown
    · obtain rfl := Except.ok.inj halign
      exact ⟨r, hfirst, hS, hlt⟩
    · -- the first LBA behind the region, and the one before it is marked
      obtain rfl := Except.ok.inj halign
      have hne : r ≠ c := by
        rintro rfl
        exact hlt hc
      exact absurd (hfirst.prev_marked (by omega) hne) hmark
  · rintro ⟨r, hfirst, hS, hE⟩
    have halign : ioworkerAlignLba args.regionEnd r 1 = .ok r := by
      rw [ioworkerAlignLba_one, if_pos hE]
    refine ⟨r, _, Except.bind_eq_ok.2 ⟨r, (hraw r).2 hfirst,
      Except.bind_eq_ok.2 ⟨r, halign, rfl⟩⟩, hS, hE, ?_, fun hmarked j _ hj => ?_⟩
    · obtain ⟨n, -, -, hgood, -⟩ := hfirst
      exact hgood
    · have hwrap : r < c := by
        by_contra hge
        obtain ⟨n, -, -, hgood, -⟩ := hfirst
        exact hgood (hmarked r (Nat.not_lt.1 hge) hE)
      exact hfirst.marked_of_wrap (by omega) hwrap hj

/-! ### A run of marked LBAs -/

/-- A namespace of 32 sectors with its table, in which the LBAs from `first` to `last` are
    marked. -/
def markedNs (first last : Nat) : Ns :=
  (Ns.formatted 32 2048 32 (by decide) (by decide) (by decide)).mapData fun _ lba =>
    if first ≤ lba ∧ lba ≤ last then uncorrCrc else 0#32

/-- The arguments of reads in the region from 0 to 8. -/
def readRegionArgs : Args := { readOnceArgs with regionEnd := 8 }

/-- The cursor is at 4. -/
def cursorAtFour : Gctx :=
  { ioworkerInitGctx (plainEnv 32) readRegionArgs with sequentialLba := 4 }

/-- A run in the middle of the region is skipped. -/
theorem ioworker_skips_uncorr_middle :
    SkipsUncorr (markedNs 4 5) readRegionArgs cursorAtFour 8 ⟨0, 0, 0, 0, 0⟩ :=
  (ioworker_skips_uncorr_iff rfl rfl (by decide) ⟨0, by decide, by decide, by decide⟩).2
    ⟨6, ⟨2, by decide, by decide, by decide, by decide⟩, by decide, by decide⟩

/-- A run up to the end of the region is not: the IO starts at 7, which is marked. One that
    goes beyond it trips the assertion. In both regions the LBA 0 is not marked. -/
theorem ioworker_not_skips_uncorr :
    ¬SkipsUncorr (markedNs 4 7) readRegionArgs cursorAtFour 8 ⟨0, 0, 0, 0, 0⟩ ∧
    ¬SkipsUncorr (markedNs 4 9) readRegionArgs cursorAtFour 8 ⟨0, 0, 0, 0, 0⟩ ∧
    (markedNs 4 7).entry 0 ≠ uncorrCrc ∧ (markedNs 4 9).entry 0 ≠ uncorrCrc := by
  refine ⟨?_, ?_, by decide, by decide⟩
  · rintro ⟨lba, cursor, hsend, -, -, hmark, -⟩
    have h7 : ioworkerSendOneLba (markedNs 4 7) readRegionArgs cursorAtFour 1 8
        ⟨0, 0, 0, 0, 0⟩ = .ok (7, 15) := rfl
    obtain ⟨rfl, -⟩ := Prod.mk.inj (Except.ok.inj (hsend.symm.trans h7))
    exact hmark rfl
  · rintro ⟨lba, cursor, hsend, -⟩
    have habort : ioworkerSendOneLba (markedNs 4 9) readRegionArgs cursorAtFour 1 8
        ⟨0, 0, 0, 0, 0⟩ = .error .lba := rfl
    cases hsend.symm.trans habort

/-! ### The entries that are read

The size of the table is compared with the cursor once, before the loop: where all entries
from the cursor on are marked, the loop reads the memory behind the table. -/

/-- The entries that `crc32_skip_uncorr` reads, one each time that the condition of its
    loop is tested. -/
def crc32SkipUncorrReads (ns : Ns) (slba : Nat) : List Nat :=
  match ns.crcTable with
  | none => []
  | some t => if u64 (slba * 4) < ns.tableSize then reads t (2 ^ 64) slba else []
where
  reads (t : CrcTable) : Nat → Nat → List Nat
    | 0, _ => []
    | fuel + 1, slba =>
      slba :: if t.data slba = uncorrCrc then reads t fuel (u64 (slba + 1)) else []

/-- The loop reads all entries up to the first one that is not marked. -/
theorem mem_reads {t : CrcTable} {fuel j : Nat} (hc : c < 2 ^ 64) :
    j ∈ crc32SkipUncorrReads.reads t fuel c ↔
      ∃ n < fuel, j = u64 (c + n) ∧ ∀ m < n, t.data (u64 (c + m)) = uncorrCrc := by
  induction fuel generalizing c with
  | zero => simp [crc32SkipUncorrReads.reads]
  | succ fuel ih =>
    rw [crc32SkipUncorrReads.reads, List.mem_cons]
    constructor
    · rintro (rfl | hj)
      · exact ⟨0, by omega, (u64_of_lt hc).symm, fun m hm => absurd hm (Nat.not_lt_zero m)⟩
      · split_ifs at hj with hmark
        · obtain ⟨n, hn, hr, hall⟩ := (ih (u64_lt _)).1 hj
          rw [u64_succ_add] at hr
          exact ⟨n + 1, by omega, hr, (marked_succ_iff hc).2 ⟨hmark, hall⟩⟩
        · exact absurd hj List.not_mem_nil
    · rintro ⟨n, hn, hr, hall⟩
      rcases n with _ | n
      · exact .inl (hr.trans (u64_of_lt hc))
      · obtain ⟨hmark, hall⟩ := (marked_succ_iff hc).1 hall
        rw [← u64_succ_add] at hr
        rw [if_pos hmark, ih (u64_lt _)]
        exact .inr ⟨n, by omega, hr, hall⟩

/-- The LBAs from `slba` on at which the skip is to stop: behind the table, or at an entry
    that is not marked. -/
def stopsAt (ns : Ns) (slba : Nat) : Set Nat :=
  {j | slba ≤ j ∧ (ns.entries ≤ j ∨ ns.entry j ≠ uncorrCrc)}

/-- The skip ends, at the first LBA it is to stop at, and reads entries of the table only. -/
structure SkipsInTable (ns : Ns) (slba : Nat) : Prop where
  stops : ∃ r, crc32SkipUncorr ns slba = some r ∧ IsLeast (stopsAt ns slba) r
  reads : ∀ j ∈ crc32SkipUncorrReads ns slba, j < ns.entries

/-- A skip that does not enter the loop. -/
theorem skipsInTable_of_stop (hskip : crc32SkipUncorr ns c = some c)
    (hreads : crc32SkipUncorrReads ns c = []) (hstop : c ∈ stopsAt ns c) :
    SkipsInTable ns c where
  stops := ⟨c, hskip, hstop, fun _ hj => hj.1⟩
  reads := by simp [hreads]

theorem exists_isLeast_stopsAt (ns : Ns) (c : Nat) : ∃ r, IsLeast (stopsAt ns c) r := by
  classical
  have hne : ∃ j, j ∈ stopsAt ns c := ⟨c + ns.entries, by omega, .inl (by omega)⟩
  exact ⟨Nat.find hne, Nat.find_spec hne, fun _ hj => Nat.find_min' hne hj⟩

/-- All entries before the first stop are marked. -/
theorem marked_of_isLeast_stopsAt (hr : IsLeast (stopsAt ns c) r) {j : Nat} (hj : c ≤ j)
    (hlt : j < r) : ns.entry j = uncorrCrc := by
  by_contra hgood
  exact Nat.not_le.2 hlt (hr.2 ⟨hj, .inr hgood⟩)

/-- The loop stops in the table if an entry of it, from the cursor on, is not marked. -/
theorem skipsInTable_of_good (ht : ns.crcTable.isSome) {j : Nat} (hcj : c ≤ j)
    (hjN : j < ns.entries) (hgood : ns.entry j ≠ uncorrCrc) : SkipsInTable ns c := by
  have hN := ns.entries_lt
  have hc : c < ns.entries := Nat.lt_of_le_of_lt hcj hjN
  obtain ⟨r, hr⟩ := exists_isLeast_stopsAt ns c
  have hrN : r < ns.entries := Nat.lt_of_le_of_lt (hr.2 ⟨hcj, .inr hgood⟩) hjN
  have hrgood : ns.entry r ≠ uncorrCrc := hr.1.2.resolve_left (Nat.not_le.2 hrN)
  have hcr : c ≤ r := hr.1.1
  constructor
  · refine ⟨r, (skipUncorr_eq_some_iff ht hc).2 ⟨r - c, by omega, ?_, hrgood, fun m hm => ?_⟩, hr⟩
    · rw [u64_of_lt (by omega)]
      omega
    · rw [u64_of_lt (by omega)]
      exact marked_of_isLeast_stopsAt hr (by omega) (by omega)
  · intro i hi
    obtain ⟨t, ht⟩ := Option.isSome_iff_exists.1 ht
    simp only [crc32SkipUncorrReads, ht, if_pos ((u64_mul_four_lt (by omega)).2 hc)] at hi
    obtain ⟨n, -, rfl, hall⟩ := (mem_reads (by omega)).1 hi
    have hn : c + n ≤ r := by
      by_contra hgt
      -- the loop would have gone on at `r`
      have hmark := hall (r - c) (by omega)
      rw [u64_of_lt (by omega), Nat.add_sub_cancel' hcr, ← entry_of_some ht] at hmark
      exact hrgood hmark
    rw [u64_of_lt (by omega)]
    omega

/-- With all entries from the cursor on marked, the one behind the table is read. -/
theorem entries_mem_reads (ht : ns.crcTable.isSome) (hc : c < ns.entries)
    (hall : ∀ j, c ≤ j → j < ns.entries → ns.entry j = uncorrCrc) :
    ns.entries ∈ crc32SkipUncorrReads ns c := by
  have hN := ns.entries_lt
  obtain ⟨t, ht⟩ := Option.isSome_iff_exists.1 ht
  simp only [crc32SkipUncorrReads, ht, if_pos ((u64_mul_four_lt (by omega)).2 hc)]
  refine (mem_reads (by omega)).2 ⟨ns.entries - c, by omega, ?_, fun m hm => ?_⟩
  · rw [u64_of_lt (by omega)]
    omega
  · rw [u64_of_lt (by omega), ← entry_of_some ht]
    exact hall _ (by omega) (by omega)

/-- The skip stays in the table if and only if it starts behind it, or an entry from there
    on is not marked. -/
theorem crc32_skip_uncorr_iff (hc : c < 2 ^ 62) :
    SkipsInTable ns c ↔
      ns.entries ≤ c ∨ ∃ j, c ≤ j ∧ j < ns.entries ∧ ns.entry j ≠ uncorrCrc := by
  rcases Nat.lt_or_ge c ns.entries with hlt | hge
  · rcases htable : ns.crcTable with _ | t
    · have hzero : ns.entry c ≠ uncorrCrc := by
        simp [Ns.entry, htable, uncorrCrc]
      refine iff_of_true ?_ (.inr ⟨c, Nat.le_refl c, hlt, hzero⟩)
      apply skipsInTable_of_stop
      · simp only [crc32SkipUncorr, htable]
      · simp only [crc32SkipUncorrReads, htable]
      · exact ⟨Nat.le_refl c, .inr hzero⟩
    · have ht : ns.crcTable.isSome := by simp [htable]
      constructor
      · intro h
        by_contra hnone
        push Not at hnone
        exact absurd (h.reads _ (entries_mem_reads ht hlt hnone.2)) (Nat.lt_irrefl _)
      · rintro (hge | ⟨j, hcj, hjN, hgood⟩)
        · exact absurd hge (Nat.not_le.2 hlt)
        · exact skipsInTable_of_good ht hcj hjN hgood
  · refine iff_of_true ?_ (.inl hge)
    have hguard : ¬u64 (c * 4) < ns.tableSize := fun h =>
      absurd ((u64_mul_four_lt hc).1 h) (Nat.not_lt.2 hge)
    apply skipsInTable_of_stop
    · rcases htable : ns.crcTable with _ | t <;> simp [crc32SkipUncorr, htable, hguard]
    · rcases htable : ns.crcTable with _ | t <;> simp [crc32SkipUncorrReads, htable, hguard]
    · exact ⟨Nat.le_refl c, .inl hge⟩

/-- Two marked LBAs in the middle of the table. -/
theorem crc32_skip_uncorr_middle : SkipsInTable (markedNs 4 5) 4 :=
  (crc32_skip_uncorr_iff (by decide)).2 (.inr ⟨6, by decide, by decide, by decide⟩)

/-- The last two of the 32 LBAs are marked: the word behind the table is read. -/
theorem crc32_skip_uncorr_tail : ¬SkipsInTable (markedNs 30 31) 30 := fun h =>
  absurd (h.reads 32 (entries_mem_reads rfl (by decide) (by decide))) (by decide)

end Pynvme
