import Pynvme.Crc.Table

/-!
# Data buffers and their checksums

The data verification of the driver: every sector of a write buffer is stamped
with its LBA, in the first 64-bit word, and with a token, in the last one
(`bufferFillRawdata`); when the write completes, the checksums of its sectors go
to the CRC table (`bufferUpdateCrc`); when a read completes, the LBAs found in
its buffer are compared with those it asked for (`bufferVerifyLba`), and the
checksums of its sectors with the table (`bufferVerifyData`).

The CRC-32C routine is a parameter, a function of the bytes it is given.
-/

namespace Pynvme

open Word

/-- The value of a `uint32_t` converted to `int`, and then to `size_t`. -/
def intToSize (len : Nat) : Nat := if len < 2 ^ 31 then len else len + 2 ^ 64 - 2 ^ 32

variable (crc32c : List (BitVec 8) → BitVec 32)

/-- `buffer_calc_csum`, of the bytes of `buf` from `off` on. -/
def bufferCalcCsum (buf : Bytes) (off len : Nat) : BitVec 32 :=
  let crc := crc32c (buf.slice off (intToSize len)) >>> 1
  let crc := if crc = 0#32 then 1#32 else crc
  if crc = 0x7fffffff#32 then 0x7ffffffe#32 else crc

/-- The loop of `buffer_fill_rawdata` over the sectors; the offset of a sector is
    a product of 32-bit integers. -/
def bufferFillRawdata (buf : Bytes) (token lba lbaCount lbaSize : Nat) : Bytes :=
  forLoop lbaCount (fun i buf =>
    let ptr := u32 (i * lbaSize)
    (buf.writeLe ptr 8 (u64 (lba + i))).writeLe (ptr + 8 * (lbaSize / 8 - 1)) 8
      (u64 (token + i))) buf

/-- `buffer_update_crc`. -/
def bufferUpdateCrc (ns : Ns) (buf : Bytes) (lbaFirst lbaCount lbaSize : Nat) : Ns :=
  ns.mapData (forLoop lbaCount (modifyCell (fun i => u64 (lbaFirst + i)) fun i e =>
    if u64 (lbaFirst + i) < ns.entries then bufferCalcCsum crc32c buf (i * lbaSize) lbaSize
    else e))

/-- The first word of a sector excuses it from the verification of its LBA: it
    is the LBA, or the sector has no mapping. -/
def lbaMatches (expected lba : Nat) : Bool :=
  expected == lba || expected == 0 || expected == 2 ^ 64 - 1

/-- `buffer_verify_lba`. -/
def bufferVerifyLba (buf : Bytes) (lbaFirst lbaCount lbaSize : Nat) : Int :=
  if (List.range lbaCount).all fun i =>
    lbaMatches (buf.readLe (i * lbaSize) 8) (u64 (lbaFirst + i)) then 0 else -2

/-- The verdict of `buffer_verify_data` on the sector `i`, if it ends the loop. -/
def verifySector (ns : Ns) (buf : Bytes) (lbaFirst lbaSize i : Nat) : Option Int :=
  let lba := u64 (lbaFirst + i)
  if lba < ns.entries then
    let expected := crcOf (ns.entry lba)
    if expected = 0#32 then none
    else if expected = uncorrCrc then some (-1)
    else if bufferCalcCsum crc32c buf (i * lbaSize) lbaSize ≠ expected then some (-3)
    else none
  else none

/-- `buffer_verify_data`. -/
def bufferVerifyData (ns : Ns) (buf : Bytes) (lbaFirst lbaCount lbaSize : Nat) : Int :=
  ((List.range lbaCount).findSome? (verifySector crc32c ns buf lbaFirst lbaSize)).getD 0

/-! ### Checksums -/

variable {crc32c} {ns : Ns} {buf buf' : Bytes} {off off' len lba lbaCount lbaSize token i j : Nat}

theorem bufferCalcCsum_ne (buf : Bytes) (off len : Nat) :
    bufferCalcCsum crc32c buf off len ≠ 0#32 ∧ bufferCalcCsum crc32c buf off len ≠ uncorrCrc ∧
      isLocked (bufferCalcCsum crc32c buf off len) = false := by
  have h31 : isLocked (crc32c (buf.slice off (intToSize len)) >>> 1) = false := by
    rw [Bool.eq_false_iff, ne_eq, isLocked_iff]
    simp
  simp only [bufferCalcCsum]
  generalize crc32c (buf.slice off (intToSize len)) >>> 1 = c at h31
  split_ifs with h0 h7 h7
  · exact absurd h7 (by decide)
  · exact ⟨by decide, by decide, by decide⟩
  · exact ⟨by decide, by decide, by decide⟩
  · exact ⟨h0, h7, h31⟩

/-- The checksum depends on the bytes of the sector only. -/
theorem bufferCalcCsum_congr (hlen : len < 2 ^ 31)
    (h : ∀ k < len, buf (off + k) = buf' (off' + k)) :
    bufferCalcCsum crc32c buf off len = bufferCalcCsum crc32c buf' off' len := by
  rw [bufferCalcCsum, bufferCalcCsum, intToSize, if_pos hlen, Bytes.slice_congr h]

/-! ### Stamps -/

/-- The offset of a sector, while that of the last one does not exceed 32 bits. -/
theorem u32_sector (hfit : (lbaCount - 1) * lbaSize < 2 ^ 32) (hi : i < lbaCount) :
    u32 (i * lbaSize) = i * lbaSize := by
  have hle : i * lbaSize ≤ (lbaCount - 1) * lbaSize := Nat.mul_le_mul_right _ (by omega)
  exact u32_of_lt (Nat.lt_of_le_of_lt hle hfit)

/-- A sector ends before the later ones start. -/
theorem sector_add_le (lbaSize : Nat) (h : i < j) : i * lbaSize + lbaSize ≤ j * lbaSize := by
  rw [← Nat.succ_mul]
  exact Nat.mul_le_mul_right _ h

/-- While no offset exceeds 32 bits, every sector of a write buffer starts with
    its own LBA. -/
theorem bufferFillRawdata_lba (hsize : 16 ≤ lbaSize) (hfit : (lbaCount - 1) * lbaSize < 2 ^ 32)
    (hi : i < lbaCount) :
    (bufferFillRawdata buf token lba lbaCount lbaSize).readLe (i * lbaSize) 8 = u64 (lba + i) := by
  refine forLoop_induction (n := lbaCount)
    (I := fun n (b : Bytes) => ∀ i < n, b.readLe (i * lbaSize) 8 = u64 (lba + i))
    (fun _ h => absurd h (Nat.not_lt_zero _)) (fun n hn b ih i hi => ?_) i hi
  simp only [u32_sector hfit hn]
  rcases Nat.lt_succ_iff_lt_or_eq.1 hi with hlt | rfl
  -- An earlier sector ends before this one starts.
  · have hsep := sector_add_le lbaSize hlt
    rw [Bytes.readLe_writeLe_of_disjoint (by omega), Bytes.readLe_writeLe_of_disjoint (by omega),
      ih i hlt]
  · rw [Bytes.readLe_writeLe_of_disjoint (by omega), Bytes.readLe_writeLe_self (u64_lt _)]

/-- It ends with its own token. -/
theorem bufferFillRawdata_token (hsize : 16 ≤ lbaSize)
    (hfit : (lbaCount - 1) * lbaSize < 2 ^ 32) (hi : i < lbaCount) :
    (bufferFillRawdata buf token lba lbaCount lbaSize).readLe
      (i * lbaSize + 8 * (lbaSize / 8 - 1)) 8 = u64 (token + i) := by
  refine forLoop_induction (n := lbaCount)
    (I := fun n (b : Bytes) => ∀ i < n,
      b.readLe (i * lbaSize + 8 * (lbaSize / 8 - 1)) 8 = u64 (token + i))
    (fun _ h => absurd h (Nat.not_lt_zero _)) (fun n hn b ih i hi => ?_) i hi
  simp only [u32_sector hfit hn]
  rcases Nat.lt_succ_iff_lt_or_eq.1 hi with hlt | rfl
  · have hsep := sector_add_le lbaSize hlt
    rw [Bytes.readLe_writeLe_of_disjoint (by omega), Bytes.readLe_writeLe_of_disjoint (by omega),
      ih i hlt]
  · exact Bytes.readLe_writeLe_self (u64_lt _)

/-- The bytes between the stamps are kept. -/
theorem bufferFillRawdata_of_not_mem (hfit : (lbaCount - 1) * lbaSize < 2 ^ 32)
    (h : ∀ i < lbaCount, ¬(i * lbaSize ≤ j ∧ j < i * lbaSize + 8) ∧
      ¬(i * lbaSize + 8 * (lbaSize / 8 - 1) ≤ j ∧ j < i * lbaSize + 8 * (lbaSize / 8 - 1) + 8)) :
    bufferFillRawdata buf token lba lbaCount lbaSize j = buf j := by
  refine forLoop_induction (n := lbaCount) (I := fun _ (b : Bytes) => b j = buf j) rfl
    fun n hn b ih => ?_
  simp only [u32_sector hfit hn]
  rw [Bytes.writeLe_of_not_mem (h n hn).2, Bytes.writeLe_of_not_mem (h n hn).1, ih]

/-! ### The table -/

/-- `buffer_update_crc` overwrites the entry `j`. -/
def UpdateSpan (ns : Ns) (lba lbaCount j : Nat) : Prop :=
  ns.crcTable.isSome ∧ j < ns.entries ∧ Span lba lbaCount j

theorem entry_updateCrc (hn : lbaCount ≤ 2 ^ 64) (ht : ns.crcTable.isSome) (hi : i < lbaCount)
    (hj : u64 (lba + i) < ns.entries) :
    (bufferUpdateCrc crc32c ns buf lba lbaCount lbaSize).entry (u64 (lba + i)) =
      bufferCalcCsum crc32c buf (i * lbaSize) lbaSize := by
  rw [bufferUpdateCrc, entry_loop_of_span hn ht hi, if_pos hj]

theorem entry_updateCrc_of_not (hn : lbaCount ≤ 2 ^ 64) (h : ¬UpdateSpan ns lba lbaCount j) :
    (bufferUpdateCrc crc32c ns buf lba lbaCount lbaSize).entry j = ns.entry j := by
  by_cases hs : ns.crcTable.isSome ∧ Span lba lbaCount j
  · obtain ⟨ht, i, hi, rfl⟩ := hs
    have hj : ¬u64 (lba + i) < ns.entries := fun hj => h ⟨ht, hj, i, hi, rfl⟩
    rw [bufferUpdateCrc, entry_loop_of_span hn ht hi, if_neg hj]
  · exact entry_loop_of_not_span fun ht hspan => hs ⟨ht, hspan⟩

@[simp] theorem shape_updateCrc :
    (bufferUpdateCrc crc32c ns buf lba lbaCount lbaSize).shape = ns.shape :=
  ns.shape_mapData _

/-! ### The verdicts -/

theorem bufferVerifyLba_eq_zero_iff : bufferVerifyLba buf lba lbaCount lbaSize = 0 ↔
    ∀ i < lbaCount, lbaMatches (buf.readLe (i * lbaSize) 8) (u64 (lba + i)) := by
  unfold bufferVerifyLba
  split_ifs with h
  · simpa using h
  · simpa using h

theorem verifySector_eq_none_iff : verifySector crc32c ns buf lba lbaSize i = none ↔
    (u64 (lba + i) < ns.entries → crcOf (ns.entry (u64 (lba + i))) = 0#32 ∨
      (crcOf (ns.entry (u64 (lba + i))) ≠ uncorrCrc ∧
        crcOf (ns.entry (u64 (lba + i))) = bufferCalcCsum crc32c buf (i * lbaSize) lbaSize)) := by
  simp only [verifySector]
  split_ifs with hlt h0 hu hc
  · simp [h0]
  · simp [hlt, hu, show uncorrCrc ≠ 0#32 by decide]
  · simp [hlt, h0, Ne.symm hc]
  · simp [hu, not_not.1 hc]
  · simp [hlt]

theorem verifySector_ne_some_zero : verifySector crc32c ns buf lba lbaSize i ≠ some 0 := by
  simp only [verifySector]
  split_ifs <;> simp

theorem bufferVerifyData_eq_zero_iff : bufferVerifyData crc32c ns buf lba lbaCount lbaSize = 0 ↔
    ∀ i < lbaCount, verifySector crc32c ns buf lba lbaSize i = none := by
  rw [bufferVerifyData]
  constructor
  · intro h
    rcases hf : (List.range lbaCount).findSome? (verifySector crc32c ns buf lba lbaSize) with _ | v
    · exact fun i hi => List.findSome?_eq_none_iff.1 hf i (List.mem_range.2 hi)
    · rw [hf, Option.getD_some] at h
      obtain ⟨i, _, hi⟩ := List.exists_of_findSome?_eq_some hf
      exact absurd (h ▸ hi) verifySector_ne_some_zero
  · intro h
    rw [List.findSome?_eq_none_iff.2 fun i hi => h i (List.mem_range.1 hi), Option.getD_none]

end Pynvme
