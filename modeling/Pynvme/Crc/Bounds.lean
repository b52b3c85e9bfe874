import Pynvme.Crc.Footprint
import Mathlib.Data.List.Basic

/-!
# The bounds of the CRC table

Five functions of `driver.c` index the CRC table by LBAs (`TableAccess`). A script can
send a command for any 64-bit LBA: its LBAs are locked before it is sent, and those of a
write uncorrectable are marked even if the device rejects it. So the functions have to
keep to the table on their own.

The entries a function touches are those it may change, or whose value may make a
difference for its result. It is in bounds if all of them are LBAs of the range, and are
in the table (`InBounds`).

Two of the functions compare an LBA with the number of entries, and the other three a
byte offset, of 64 bits, with the size of the table: from the LBA `2 ^ 62` on, the offset
wraps. `crcTable_inBounds_iff` says exactly when a function is in bounds.
-/

namespace Pynvme

open Word

/-- An access to the table, with the length of its range; `len` is in bytes of the table. -/
inductive TableAccess
  | clear (len : BitVec 64) (uncorr : Bool)
  | setLockBits (nlb : BitVec 64) (lock : Bool)
  | checkLockBits (nlb : BitVec 16)
  | updateCrc (buf : Bytes) (lbaCount lbaSize : BitVec 32)
  | verifyData (buf : Bytes) (lbaCount lbaSize : BitVec 32)

/-- The number of LBAs of the range. -/
def TableAccess.blocks : TableAccess → Nat
  | .clear len _ => len.toNat / 4
  | .setLockBits nlb _ => nlb.toNat
  | .checkLockBits nlb => nlb.toNat
  | .updateCrc _ lbaCount _ => lbaCount.toNat
  | .verifyData _ lbaCount _ => lbaCount.toNat

/-- The function `f` writes the entry `j`: for some entries of the table, it changes it. -/
def Writes (f : Ns → Ns) (ns : Ns) (j : Nat) : Prop :=
  ∃ d, (f (ns.probe d)).entry j ≠ (ns.probe d).entry j

/-- The function `f` reads the entry `j`: for some entries of the table, its result depends
    on it. -/
def Reads {α : Type} (f : Ns → α) (ns : Ns) (j : Nat) : Prop :=
  ∃ d e, f (ns.probe d) ≠ f (ns.probe (Function.update d j e))

variable (crc32c : List (BitVec 8) → BitVec 32)

/-- An access to the range from `lba` on touches the entry `j`. -/
def TableAccess.Touches (ns : Ns) (lba : Nat) (j : Nat) : TableAccess → Prop
  | .clear len uncorr => Writes (fun ns => crc32Clear ns lba len.toNat uncorr) ns j
  | .setLockBits nlb lock => Writes (fun ns => crc32SetLockBits ns lba nlb.toNat lock) ns j
  | .checkLockBits nlb => Reads (fun ns => crc32CheckLockBits ns lba nlb.toNat) ns j
  | .updateCrc buf lbaCount lbaSize =>
    Writes (fun ns => bufferUpdateCrc crc32c ns buf lba lbaCount.toNat lbaSize.toNat) ns j
  | .verifyData buf lbaCount lbaSize =>
    Reads (fun ns => bufferVerifyData crc32c ns buf lba lbaCount.toNat lbaSize.toNat) ns j

/-- An access to the range from `lba` on is in bounds. -/
structure TableAccess.InBounds (ns : Ns) (lba : BitVec 64) (a : TableAccess) : Prop where
  /-- It touches only its LBAs, and only in the table. -/
  index : ∀ j, a.Touches crc32c ns lba.toNat j →
    lba.toNat ≤ j ∧ j < lba.toNat + a.blocks ∧ j < ns.entries
  /-- If all its LBAs are outside of the table, it touches no entry. -/
  outside : (∀ i < a.blocks, ns.entries ≤ lba.toNat + i) → ∀ j, ¬a.Touches crc32c ns lba.toNat j

/-- The byte offsets of a range of the table do not wrap into it: the range has no entry, or
    its start is beyond the table, or it is in the table and the offset of its end does not
    wrap, or is beyond the table nevertheless. -/
def OffsetsFit (ns : Ns) (lba bytes : Nat) : Prop :=
  bytes < 4 ∨ ns.tableSize ≤ u64 (lba * 4) ∨
    (lba < ns.entries ∧ (lba * 4 + bytes < 2 ^ 64 ∨ ns.tableSize < u64 (lba * 4 + bytes)))

/-- The LBAs of a range do not wrap into the table. -/
def LbasFit (ns : Ns) (lba lbaCount : Nat) : Prop := ns.entries = 0 ∨ lba + lbaCount ≤ 2 ^ 64

/-- The condition for an access to be in bounds. -/
def TableAccess.Fits (ns : Ns) (lba : BitVec 64) : TableAccess → Prop
  | .clear len _ => OffsetsFit ns lba.toNat len.toNat
  | .setLockBits nlb _ => OffsetsFit ns lba.toNat (nlb.toNat * 4)
  | .checkLockBits nlb => OffsetsFit ns lba.toNat (nlb.toNat * 4)
  | .updateCrc _ lbaCount _ => LbasFit ns lba.toNat lbaCount.toNat
  | .verifyData _ lbaCount _ => LbasFit ns lba.toNat lbaCount.toNat

/-! ### What is touched -/

variable {crc32c} {ns : Ns} {lba len nlb lbaCount lbaSize j : Nat} {uncorr lock : Bool}
  {buf : Bytes}

/-- Without a table nothing is touched. -/
theorem probe_of_none (h : ns.crcTable = none) (d : Nat → BitVec 32) : ns.probe d = ns :=
  mapData_of_none h _

theorem isSome_of_reads {α : Type} {f : Ns → α} (h : Reads f ns j) : ns.crcTable.isSome := by
  obtain ⟨d, e, hd⟩ := h
  rcases hc : ns.crcTable with _ | t
  · rw [probe_of_none hc, probe_of_none hc] at hd
    exact absurd rfl hd
  · rfl

/-- A function that writes is known by the entries it overwrites, `P`, each with a value
    that is not always the old one. -/
theorem writes_iff {f : Ns → Ns} {P : Prop} (ht : P → ns.crcTable.isSome)
    (hyes : P → ∃ e, ∀ d, d j = e → (f (ns.probe d)).entry j ≠ e)
    (hno : ¬P → ∀ d, (f (ns.probe d)).entry j = (ns.probe d).entry j) : Writes f ns j ↔ P := by
  constructor
  · rintro ⟨d, hd⟩
    by_contra hP
    exact hd (hno hP d)
  · intro hP
    obtain ⟨e, he⟩ := hyes hP
    refine ⟨fun _ => e, ?_⟩
    rw [entry_probe (ht hP)]
    exact he _ rfl

theorem writes_clear_iff (hl : len ≤ 2 ^ 64) :
    Writes (fun ns => crc32Clear ns lba len uncorr) ns j ↔ ClearSpan ns lba len j := by
  refine writes_iff (fun h => h.1) (fun h => ?_) fun h d => ?_
  · refine ⟨lockBit, fun d hd => ?_⟩
    have hspan := (clearSpan_of_shape (shape_probe d)).2 h
    rw [entry_clear hl hspan]
    cases uncorr <;> decide
  · exact entry_clear_of_not (mt (clearSpan_of_shape (shape_probe d)).1 h)

theorem writes_setLockBits_iff (hn : nlb ≤ 2 ^ 64) :
    Writes (fun ns => crc32SetLockBits ns lba nlb lock) ns j ↔ LockSpan ns lba nlb j := by
  refine writes_iff (fun h => h.1) (fun h => ?_) fun h d => ?_
  · refine ⟨if lock then 0#32 else lockBit, fun d hd => ?_⟩
    have hspan := (lockSpan_of_shape (shape_probe d)).2 h
    rw [entry_setLockBits hn hspan, entry_probe h.1, hd]
    cases lock <;> decide
  · exact entry_setLockBits_of_not (mt (lockSpan_of_shape (shape_probe d)).1 h)

theorem writes_updateCrc_iff (hn : lbaCount ≤ 2 ^ 64) :
    Writes (fun ns => bufferUpdateCrc crc32c ns buf lba lbaCount lbaSize) ns j ↔
      UpdateSpan ns lba lbaCount j := by
  have hspan : ∀ d, UpdateSpan (ns.probe d) lba lbaCount j ↔ UpdateSpan ns lba lbaCount j :=
    fun d => by
      simp only [UpdateSpan, Ns.isSome_of_shape (shape_probe d),
        Ns.entries_of_shape (shape_probe d)]
  refine writes_iff (fun h => h.1) (fun h => ⟨lockBit, fun d _ he => ?_⟩) fun h d => ?_
  · -- no checksum is a lock alone
    obtain ⟨ht, hj, i, hi, rfl⟩ := (hspan d).2 h
    rw [entry_updateCrc hn ht hi hj] at he
    have hlock : isLocked (bufferCalcCsum crc32c buf (i * lbaSize) lbaSize) = false :=
      (bufferCalcCsum_ne _ _ _).2.2
    rw [he] at hlock
    exact absurd hlock (by decide)
  · exact entry_updateCrc_of_not hn (mt (hspan d).1 h)

/-- What the entries of the probe are when one of them is replaced. -/
theorem entry_probe_update (ht : ns.crcTable.isSome) (d : Nat → BitVec 32) (e : BitVec 32)
    (k : Nat) : (ns.probe (Function.update d j e)).entry k =
      if k = j then e else (ns.probe d).entry k := by
  rw [entry_probe ht, entry_probe ht, Function.update_apply]

theorem reads_checkLockBits_iff :
    Reads (fun ns => crc32CheckLockBits ns lba nlb) ns j ↔ CheckSpan ns lba nlb j := by
  have hspan : ∀ d k, CheckSpan (ns.probe d) lba nlb k ↔ CheckSpan ns lba nlb k :=
    fun d k => checkSpan_of_shape (shape_probe d)
  constructor
  · intro h
    have ht := isSome_of_reads h
    obtain ⟨d, e, hne⟩ := h
    by_contra hno
    refine hne (Bool.eq_iff_iff.2 ?_)
    rw [checkLockBits_iff, checkLockBits_iff]
    refine exists_congr fun k => ?_
    rw [hspan, hspan]
    refine and_congr_right fun hk => ?_
    rw [entry_probe_update ht, if_neg fun hkj : k = j => hno (hkj ▸ hk)]
  · intro h
    refine ⟨fun _ => 0#32, lockBit, fun he => ?_⟩
    have hset : crc32CheckLockBits (ns.probe (Function.update (fun _ => 0#32) j lockBit)) lba nlb =
        true :=
      checkLockBits_iff.2 ⟨j, (hspan _ j).2 h, by rw [entry_probe h.1, Function.update_self]; rfl⟩
    obtain ⟨k, -, hk⟩ := checkLockBits_iff.1 (he.trans hset)
    rw [entry_probe h.1] at hk
    cases hk

theorem reads_verifyData_iff :
    Reads (fun ns => bufferVerifyData crc32c ns buf lba lbaCount lbaSize) ns j ↔
      UpdateSpan ns lba lbaCount j := by
  have hN : ∀ d, (ns.probe d).entries = ns.entries := fun d => Ns.entries_of_shape (shape_probe d)
  constructor
  · intro h
    have ht := isSome_of_reads h
    obtain ⟨d, e, hne⟩ := h
    by_contra hno
    -- no sector is judged by the entry
    have hsector : ∀ i ∈ List.range lbaCount,
        verifySector crc32c (ns.probe d) buf lba lbaSize i =
          verifySector crc32c (ns.probe (Function.update d j e)) buf lba lbaSize i := by
      intro i hi
      by_cases hlt : u64 (lba + i) < ns.entries
      · have hentry : (ns.probe (Function.update d j e)).entry (u64 (lba + i)) =
            (ns.probe d).entry (u64 (lba + i)) := by
          rw [entry_probe_update ht, if_neg]
          rintro rfl
          exact hno ⟨ht, hlt, i, List.mem_range.1 hi, rfl⟩
        simp only [verifySector, hN, hentry]
      · simp only [verifySector, hN, if_neg hlt]
    refine hne ?_
    simp only [bufferVerifyData, ← List.head?_filterMap]
    rw [List.filterMap_congr hsector]
  · rintro ⟨ht, hj, i, hi, rfl⟩
    refine ⟨fun _ => 0#32, uncorrCrc, fun he => ?_⟩
    have hzero : bufferVerifyData crc32c (ns.probe fun _ => 0#32) buf lba lbaCount lbaSize = 0 := by
      refine bufferVerifyData_eq_zero_iff.2 fun k _ => verifySector_eq_none_iff.2 fun _ => .inl ?_
      rw [entry_probe ht]
      decide
    have hsector := bufferVerifyData_eq_zero_iff.1 (he.symm.trans hzero) i hi
    rcases verifySector_eq_none_iff.1 hsector (by rwa [hN]) with h0 | ⟨hu, -⟩
    · rw [entry_probe ht, Function.update_self] at h0
      exact absurd h0 (by decide)
    · rw [entry_probe ht, Function.update_self] at hu
      exact absurd hu (by decide)

/-! ### The bounds -/

/-- The `m` entries from an LBA on are in a range of `n` and in the table. -/
theorem forall_span_iff {m n : Nat} (hlba : lba < 2 ^ 64) :
    (∀ j, Span lba m j → lba ≤ j ∧ j < lba + n ∧ j < ns.entries) ↔
      m = 0 ∨ (lba + m ≤ ns.entries ∧ m ≤ n) := by
  have hN := ns.entries_lt
  constructor
  · intro h
    rcases Nat.eq_zero_or_pos m with hm | hm
    · exact .inl hm
    · have hfirst := h lba ⟨0, hm, (u64_of_lt hlba).symm⟩
      have hle : lba + m ≤ ns.entries := by
        by_contra hgt
        -- the entry after the table is visited
        have hend := h ns.entries
          ⟨ns.entries - lba, by omega, by rw [Nat.add_sub_cancel' (by omega), u64_of_lt (by omega)]⟩
        omega
      have hlast := h (lba + (m - 1)) ⟨m - 1, by omega, (u64_of_lt (by omega)).symm⟩
      exact .inr ⟨hle, by omega⟩
  · rintro (rfl | ⟨hle, hmn⟩) j hj
    · exact absurd hj (not_span_zero _ _)
    · rw [span_iff (by omega)] at hj
      omega

theorem clear_fits_iff (hlba : lba < 2 ^ 64) (hlen : len < 2 ^ 64)
    (hg : u64 (lba * 4) < ns.tableSize) :
    clearLen ns lba len / 4 = 0 ∨
        (lba + clearLen ns lba len / 4 ≤ ns.entries ∧ clearLen ns lba len / 4 ≤ len / 4) ↔
      OffsetsFit ns lba len := by
  have hN := ns.entries_lt
  have hsize := ns.tableSize_eq
  simp only [OffsetsFit, clearLen]
  by_cases hc : u64 (u64 (lba * 4) + len) > ns.tableSize
  · simp only [if_pos hc]
    simp only [u64] at hg hc ⊢
    omega
  · simp only [if_neg hc]
    simp only [u64] at hg hc ⊢
    omega

theorem lock_fits_iff (hlba : lba < 2 ^ 64) (hnlb : nlb < 2 ^ 64)
    (hg : u64 (lba * 4) < ns.tableSize) :
    lockNlb ns lba nlb = 0 ∨
        (lba + lockNlb ns lba nlb ≤ ns.entries ∧ lockNlb ns lba nlb ≤ nlb) ↔
      OffsetsFit ns lba (nlb * 4) := by
  have hN := ns.entries_lt
  have hsize := ns.tableSize_eq
  simp only [OffsetsFit, lockNlb]
  by_cases hc : u64 (u64 (lba + nlb) * 4) > ns.tableSize
  · simp only [if_pos hc]
    simp only [u64] at hg hc ⊢
    omega
  · simp only [if_neg hc]
    simp only [u64] at hg hc ⊢
    omega

theorem check_fits_iff (hlba : lba < 2 ^ 64) (hnlb : nlb < 2 ^ 16)
    (hg : u64 (lba * 4) < ns.tableSize) :
    u16 (lockNlb ns lba nlb) = 0 ∨
        (lba + u16 (lockNlb ns lba nlb) ≤ ns.entries ∧ u16 (lockNlb ns lba nlb) ≤ nlb) ↔
      OffsetsFit ns lba (nlb * 4) := by
  have hN := ns.entries_lt
  have hsize := ns.tableSize_eq
  simp only [OffsetsFit, lockNlb]
  by_cases hc : u64 (u64 (lba + nlb) * 4) > ns.tableSize
  · simp only [if_pos hc]
    simp only [u64, u16] at hg hc ⊢
    omega
  · simp only [if_neg hc]
    simp only [u64, u16] at hg hc ⊢
    omega

/-- An access is in bounds if the entries of its loop are. -/
theorem inBounds_iff_forall {lba : BitVec 64} {a : TableAccess} {P : Nat → Prop}
    (h : ∀ j, a.Touches crc32c ns lba.toNat j ↔ P j) : a.InBounds crc32c ns lba ↔
      ∀ j, P j → lba.toNat ≤ j ∧ j < lba.toNat + a.blocks ∧ j < ns.entries := by
  constructor
  · exact fun hb j hj => hb.index j ((h j).2 hj)
  · intro hb
    refine ⟨fun j hj => hb j ((h j).1 hj), fun hout j hj => ?_⟩
    obtain ⟨hle, hlt, hN⟩ := hb j ((h j).1 hj)
    have := hout (j - lba.toNat) (by omega)
    omega

/-- The functions that compare byte offsets. -/
theorem forall_guarded_iff {m n bytes : Nat} (hlba : lba < 2 ^ 64)
    (hfits : u64 (lba * 4) < ns.tableSize →
      ((m = 0 ∨ (lba + m ≤ ns.entries ∧ m ≤ n)) ↔ OffsetsFit ns lba bytes)) :
    (∀ j, (ns.crcTable.isSome ∧ u64 (lba * 4) < ns.tableSize ∧ Span lba m j) →
        lba ≤ j ∧ j < lba + n ∧ j < ns.entries) ↔
      (ns.crcTable.isSome → OffsetsFit ns lba bytes) := by
  by_cases hg : u64 (lba * 4) < ns.tableSize
  · rw [← hfits hg, ← forall_span_iff hlba]
    exact ⟨fun h ht j hj => h j ⟨ht, hg, hj⟩, fun h j hj => h hj.1 j hj.2.2⟩
  · exact ⟨fun _ _ => .inr (.inl (Nat.not_lt.1 hg)), fun _ j hj => absurd hj.2.1 hg⟩

/-- The functions that compare LBAs. -/
theorem forall_updateSpan_iff (hlba : lba < 2 ^ 64) (hcount : lbaCount ≤ 2 ^ 64) :
    (∀ j, UpdateSpan ns lba lbaCount j → lba ≤ j ∧ j < lba + lbaCount ∧ j < ns.entries) ↔
      (ns.crcTable.isSome → LbasFit ns lba lbaCount) := by
  constructor
  · intro h ht
    by_contra hno
    simp only [LbasFit, not_or] at hno
    -- the range wraps to the entry 0
    have hzero := h 0 ⟨ht, by omega, 2 ^ 64 - lba, by omega, by
      rw [Nat.add_sub_cancel' (by omega)]
      rfl⟩
    omega
  · rintro h j ⟨ht, hj, i, hi, rfl⟩
    have hfits := h ht
    simp only [LbasFit] at hfits
    rw [u64_of_lt (by omega)] at hj ⊢
    omega

/-- A function is in bounds if and only if no offset or LBA wraps into the table. -/
theorem crcTable_inBounds_iff (ns : Ns) (lba : BitVec 64) (a : TableAccess) :
    a.InBounds crc32c ns lba ↔ (ns.crcTable.isSome → a.Fits ns lba) := by
  have hlba := lba.isLt
  cases a with
  | clear len uncorr =>
    have hlen := len.isLt
    exact Iff.trans (inBounds_iff_forall fun j => writes_clear_iff (Nat.le_of_lt hlen))
      (forall_guarded_iff hlba (clear_fits_iff hlba hlen))
  | setLockBits nlb lock =>
    have hnlb := nlb.isLt
    exact Iff.trans (inBounds_iff_forall fun j => writes_setLockBits_iff (Nat.le_of_lt hnlb))
      (forall_guarded_iff hlba (lock_fits_iff hlba hnlb))
  | checkLockBits nlb =>
    have hnlb := nlb.isLt
    refine Iff.trans (inBounds_iff_forall fun j => reads_checkLockBits_iff) ?_
    simp only [CheckSpan, u16_of_lt hnlb]
    exact forall_guarded_iff hlba (check_fits_iff hlba hnlb)
  | updateCrc buf lbaCount lbaSize =>
    have hcount : lbaCount.toNat ≤ 2 ^ 64 := Nat.le_trans (Nat.le_of_lt lbaCount.isLt) (by decide)
    exact Iff.trans (inBounds_iff_forall fun j => writes_updateCrc_iff hcount)
      (forall_updateSpan_iff hlba hcount)
  | verifyData buf lbaCount lbaSize =>
    have hcount : lbaCount.toNat ≤ 2 ^ 64 := Nat.le_trans (Nat.le_of_lt lbaCount.isLt) (by decide)
    exact Iff.trans (inBounds_iff_forall fun j => reads_verifyData_iff)
      (forall_updateSpan_iff hlba hcount)

/-! ### The gaps -/

/-- A namespace of 64 sectors with its table. -/
def tableNs : Ns := .formatted 64 1024 64 (by decide) (by decide) (by decide)

/-- The LBA `2 ^ 62` is outside of the table, but its byte offset is 0. It is marked as
    uncorrectable, locked, and its lock is checked. A write that ends beyond the last LBA
    updates the entry 0. -/
theorem crcTable_not_inBounds :
    ¬(TableAccess.clear 4#64 true).InBounds (fun _ => 0#32) tableNs 0x4000000000000000#64 ∧
    ¬(TableAccess.setLockBits 1#64 true).InBounds (fun _ => 0#32) tableNs 0x4000000000000000#64 ∧
    ¬(TableAccess.checkLockBits 1#16).InBounds (fun _ => 0#32) tableNs 0x4000000000000000#64 ∧
    ¬(TableAccess.updateCrc (fun _ => 0#8) 2#32 4096#32).InBounds (fun _ => 0#32) tableNs
      0xffffffffffffffff#64 := by
  refine ⟨fun h => ?_, fun h => ?_, fun h => ?_, fun h => ?_⟩
  · have := h.index (2 ^ 62) ((writes_clear_iff (by decide)).2
      ⟨rfl, by decide, 0, by decide, by decide⟩)
    exact absurd this.2.2 (by decide)
  · have := h.index (2 ^ 62) ((writes_setLockBits_iff (by decide)).2
      ⟨rfl, by decide, 0, by decide, by decide⟩)
    exact absurd this.2.2 (by decide)
  · have := h.index (2 ^ 62) (reads_checkLockBits_iff.2
      ⟨rfl, by decide, 0, by decide, by decide⟩)
    exact absurd this.2.2 (by decide)
  · have := h.index 0 ((writes_updateCrc_iff (by decide)).2
      ⟨rfl, by decide, 1, by decide, by decide⟩)
    exact absurd this.1 (by decide)

end Pynvme
