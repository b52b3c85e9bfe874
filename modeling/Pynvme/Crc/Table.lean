import Pynvme.Lib.Bytes
import Pynvme.Lib.Loop
import Pynvme.Lib.Word

/-!
# The CRC table of a namespace

The driver keeps, in shared memory, a 32-bit entry for every LBA of a namespace
(or only for the first ones): the checksum of the data last written there, in
the low 31 bits, and a lock, in bit 31. Two checksums are reserved: `0` for an
LBA without data to verify, and `0x7fffffff` for an uncorrectable one.

A namespace (`Ns`) holds its table, if the memory was large enough, and the size
of the table in bytes. The functions below follow `driver.c`: all of them guard
their accesses by comparing byte offsets, computed in 64 bits, with that size,
and clip the length of a range at the end of the table.

The table is a function of the index that the code uses, so that an access beyond
its end is one to the memory that follows it. An index from `2 ^ 62` on is an index
of its own, although its address, of 64 bits, wraps around to that of an entry.
-/

namespace Pynvme

open Word

/-- `crc_table_t`: the flag enabling the verification, and the entries. -/
structure CrcTable where
  enabled : Bool
  data : Nat → BitVec 32

/-- What the driver knows of a namespace: its format, and its CRC table, of
    `tableSize` bytes. -/
structure Ns where
  numSectors : Nat
  sectorSize : Nat
  crcTable : Option CrcTable
  tableSize : Nat
  numSectors_lt : numSectors < 2 ^ 64
  sectorSize_lt : sectorSize < 2 ^ 32
  tableSize_lt : tableSize < 2 ^ 64
  four_dvd_tableSize : 4 ∣ tableSize

namespace Ns

/-- The number of entries of the table, `table_size/sizeof(uint32_t)`. -/
def entries (ns : Ns) : Nat := ns.tableSize / 4

/-- The namespace after changing the entries of its table, if it has one. -/
def mapData (ns : Ns) (f : (Nat → BitVec 32) → Nat → BitVec 32) : Ns :=
  { ns with crcTable := ns.crcTable.map fun t => { t with data := f t.data } }

/-- The entry of an LBA; `0` without a table. -/
def entry (ns : Ns) (lba : Nat) : BitVec 32 := (ns.crcTable.map fun t => t.data lba).getD 0#32

/-- A namespace after a format, with the verification enabled: all entries of its
    table are cleared. -/
def formatted (numSectors sectorSize entries : Nat) (hn : numSectors < 2 ^ 64)
    (hs : sectorSize < 2 ^ 32) (he : entries < 2 ^ 62) : Ns where
  numSectors := numSectors
  sectorSize := sectorSize
  crcTable := some ⟨true, fun _ => 0#32⟩
  tableSize := 4 * entries
  numSectors_lt := hn
  sectorSize_lt := hs
  tableSize_lt := by omega
  four_dvd_tableSize := ⟨entries, rfl⟩

theorem tableSize_eq (ns : Ns) : ns.tableSize = 4 * ns.entries :=
  (Nat.mul_div_cancel' ns.four_dvd_tableSize).symm

theorem entries_lt (ns : Ns) : ns.entries < 2 ^ 62 := by
  have := ns.tableSize_lt
  have := ns.tableSize_eq
  omega

/-- The format of a namespace: all but the entries of its table. -/
def shape (ns : Ns) : Nat × Nat × Nat × Option Bool :=
  (ns.numSectors, ns.sectorSize, ns.tableSize, ns.crcTable.map CrcTable.enabled)

@[simp] theorem shape_mapData (ns : Ns) (f) : (ns.mapData f).shape = ns.shape := by
  simp [shape, mapData, Function.comp_def]

variable {ns ns' : Ns}

theorem tableSize_of_shape (h : ns.shape = ns'.shape) : ns.tableSize = ns'.tableSize :=
  congrArg (·.2.2.1) h

theorem sectorSize_of_shape (h : ns.shape = ns'.shape) : ns.sectorSize = ns'.sectorSize :=
  congrArg (·.2.1) h

theorem entries_of_shape (h : ns.shape = ns'.shape) : ns.entries = ns'.entries :=
  congrArg (· / 4) (tableSize_of_shape h)

theorem isSome_of_shape (h : ns.shape = ns'.shape) : ns.crcTable.isSome = ns'.crcTable.isSome := by
  have := congrArg (·.2.2.2.isSome) h
  simpa [shape] using this

end Ns

/-- The lock of an entry, bit 31. -/
def lockBit : BitVec 32 := 0x80000000#32

/-- The reserved checksum of an uncorrectable LBA. -/
def uncorrCrc : BitVec 32 := 0x7fffffff#32

/-- The checksum of an entry: all but the lock. -/
def crcOf (e : BitVec 32) : BitVec 32 := 0x7fffffff#32 &&& e

/-- The test `e & 0x80000000`. -/
def isLocked (e : BitVec 32) : Bool := e &&& lockBit != 0#32

theorem getElem_lockBit : ∀ i (h : i < 32), lockBit[i] = decide (i = 31) := by decide

theorem getElem_crcMask : ∀ i (h : i < 32), (0x7fffffff#32)[i] = decide (i ≠ 31) := by decide

theorem isLocked_iff (e : BitVec 32) : isLocked e = true ↔ e[31] = true := by
  rw [isLocked, bne_iff_ne, ne_eq, not_iff_comm]
  constructor
  · intro h
    ext i hi
    by_cases h31 : i = 31 <;> simp_all [getElem_lockBit]
  · intro h h31
    have := congrArg (fun b : BitVec 32 => b[31]) h
    simp [getElem_lockBit, h31] at this

@[simp] theorem isLocked_or (e : BitVec 32) : isLocked (e ||| lockBit) = true := by
  simp [isLocked_iff, getElem_lockBit]

@[simp] theorem isLocked_andNot (e : BitVec 32) : isLocked (e &&& ~~~lockBit) = false := by
  rw [Bool.eq_false_iff, ne_eq, isLocked_iff]
  simp [getElem_lockBit]

@[simp] theorem isLocked_zero : isLocked 0#32 = false := rfl

@[simp] theorem isLocked_uncorrCrc : isLocked uncorrCrc = false := rfl

@[simp] theorem crcOf_or (e : BitVec 32) : crcOf (e ||| lockBit) = crcOf e := by
  ext i hi
  by_cases h31 : i = 31 <;> simp [crcOf, getElem_lockBit, getElem_crcMask, h31]

@[simp] theorem crcOf_andNot (e : BitVec 32) : crcOf (e &&& ~~~lockBit) = crcOf e := by
  ext i hi
  by_cases h31 : i = 31 <;> simp [crcOf, getElem_lockBit, getElem_crcMask, h31]

theorem crcOf_of_not_isLocked {e : BitVec 32} (h : isLocked e = false) : crcOf e = e := by
  have h31 : e[31] = false := by
    rw [Bool.eq_false_iff]
    exact fun h31 => Bool.eq_false_iff.1 h ((isLocked_iff e).2 h31)
  ext i hi
  by_cases hi31 : i = 31
  · subst hi31
    simp [crcOf, getElem_crcMask, h31]
  · simp [crcOf, getElem_crcMask, hi31]

/-! ### Clearing entries -/

/-- The bytes of the table, from the entry of `lba` on, that are cleared: a
    range that ends beyond the table is clipped. -/
def clearLen (ns : Ns) (lba len : Nat) : Nat :=
  if u64 (u64 (lba * 4) + len) > ns.tableSize then ns.tableSize - u64 (lba * 4) else len

/-- `crc32_clear`: `len` is in bytes of the table. -/
def crc32Clear (ns : Ns) (lba len : Nat) (uncorr : Bool) : Ns :=
  let c := if uncorr then uncorrCrc else 0#32
  if u64 (lba * 4) < ns.tableSize then
    ns.mapData
      (forLoop (clearLen ns lba len / 4) (modifyCell (fun i => u64 (lba + i)) fun _ _ => c))
  else ns

/-- `struct spdk_nvme_dsm_range`: 4 bytes of attributes, the length in blocks,
    and the starting LBA. -/
structure DsmRange where
  startingLba : Nat
  length : Nat
  deriving DecidableEq

/-- The range `ranges[i]` of a DSM buffer. -/
def dsmRange (buf : Bytes) (i : Nat) : DsmRange where
  startingLba := buf.readLe (16 * i + 8) 8
  length := buf.readLe (16 * i + 4) 4

/-- `crc32_clear_ranges`. -/
def crc32ClearRanges (ns : Ns) (buf : Bytes) (count : Nat) : Ns :=
  forLoop count (fun i ns =>
    crc32Clear ns (dsmRange buf i).startingLba ((dsmRange buf i).length * 4) false) ns

/-! ### Locks -/

/-- The number of blocks from `slba` on whose locks are visited: a range that
    ends beyond the table is clipped. -/
def lockNlb (ns : Ns) (slba nlb : Nat) : Nat :=
  if u64 (u64 (slba + nlb) * 4) > ns.tableSize then u64 (ns.entries + 2 ^ 64 - slba) else nlb

/-- `crc32_set_lock_bits`. -/
def crc32SetLockBits (ns : Ns) (slba nlb : Nat) (lock : Bool) : Ns :=
  if u64 (slba * 4) < ns.tableSize then
    ns.mapData (forLoop (lockNlb ns slba nlb) (modifyCell (fun i => u64 (slba + i)) fun _ e =>
      if lock then e ||| lockBit else e &&& ~~~lockBit))
  else ns

/-- `crc32_check_lock_bits`: its parameter `nlb` and its loop counter have 16 bits. -/
def crc32CheckLockBits (ns : Ns) (slba nlb : Nat) : Bool :=
  match ns.crcTable with
  | none => false
  | some t =>
    if u64 (slba * 4) < ns.tableSize then
      (List.range (u16 (lockNlb ns slba (u16 nlb)))).any fun i => isLocked (t.data (u64 (slba + i)))
    else false

/-- `crc32_skip_uncorr`: the loop visits the words of the memory one after the
    other, and never ends if all `2 ^ 64` of them are `0x7fffffff`. -/
def crc32SkipUncorr (ns : Ns) (slba : Nat) : Option Nat :=
  match ns.crcTable with
  | none => some slba
  | some t => if u64 (slba * 4) < ns.tableSize then skip t (2 ^ 64) slba else some slba
where
  skip (t : CrcTable) : Nat → Nat → Option Nat
    | 0, _ => none
    | fuel + 1, slba =>
      if t.data slba = uncorrCrc then skip t fuel (u64 (slba + 1)) else some slba

/-! ### The entries the loops visit -/

variable {ns : Ns} {slba nlb lba len j : Nat} {lock uncorr : Bool}

/-- `crc32_set_lock_bits` visits the entry `j`. -/
def LockSpan (ns : Ns) (slba nlb j : Nat) : Prop :=
  ns.crcTable.isSome ∧ u64 (slba * 4) < ns.tableSize ∧ Span slba (lockNlb ns slba nlb) j

/-- `crc32_check_lock_bits` visits the entry `j`, if it finds none locked before. -/
def CheckSpan (ns : Ns) (slba nlb j : Nat) : Prop :=
  ns.crcTable.isSome ∧ u64 (slba * 4) < ns.tableSize ∧
    Span slba (u16 (lockNlb ns slba (u16 nlb))) j

/-- `crc32_clear` overwrites the entry `j`. -/
def ClearSpan (ns : Ns) (lba len j : Nat) : Prop :=
  ns.crcTable.isSome ∧ u64 (lba * 4) < ns.tableSize ∧ Span lba (clearLen ns lba len / 4) j

theorem entry_of_some {t : CrcTable} (h : ns.crcTable = some t) (j : Nat) :
    ns.entry j = t.data j := by
  simp [Ns.entry, h]

theorem entry_mapData {t : CrcTable} (h : ns.crcTable = some t)
    (f : (Nat → BitVec 32) → Nat → BitVec 32) (j : Nat) : (ns.mapData f).entry j = f t.data j := by
  simp [Ns.entry, Ns.mapData, h]

theorem mapData_of_none (h : ns.crcTable = none) (f : (Nat → BitVec 32) → Nat → BitVec 32) :
    ns.mapData f = ns := by
  obtain ⟨_, _, _, _, _, _, _, _⟩ := ns
  subst h
  rfl

/-- A loop over `n` entries from `s` on changes the entry `j` of the table only
    if it visits it, and then by the function of its iteration. -/
theorem entry_loop_of_span {s n : Nat} (hn : n ≤ 2 ^ 64) (ht : ns.crcTable.isSome)
    {f : Nat → BitVec 32 → BitVec 32} {i : Nat} (hi : i < n) :
    (ns.mapData (forLoop n (modifyCell (fun i => u64 (s + i)) f))).entry (u64 (s + i)) =
      f i (ns.entry (u64 (s + i))) := by
  obtain ⟨t, ht⟩ := Option.isSome_iff_exists.1 ht
  rw [entry_mapData ht, entry_of_some ht]
  exact forLoop_modify_apply (u64_add_injective hn) hi

theorem entry_loop_of_not_span {s n : Nat} {f : Nat → BitVec 32 → BitVec 32}
    (h : ns.crcTable.isSome → ¬Span s n j) :
    (ns.mapData (forLoop n (modifyCell (fun i => u64 (s + i)) f))).entry j = ns.entry j := by
  rcases hc : ns.crcTable with _ | t
  · rw [mapData_of_none hc]
  · rw [entry_mapData hc, entry_of_some hc]
    exact forLoop_modify_of_ne fun i hi he => h (by simp [hc]) ⟨i, hi, he⟩

theorem lockNlb_le (h : nlb ≤ 2 ^ 64) : lockNlb ns slba nlb ≤ 2 ^ 64 := by
  unfold lockNlb
  split_ifs
  · exact Nat.le_of_lt (u64_lt _)
  · exact h

theorem clearLen_le (h : len ≤ 2 ^ 64) : clearLen ns lba len ≤ 2 ^ 64 := by
  have := ns.tableSize_lt
  unfold clearLen
  split_ifs <;> omega

theorem entry_setLockBits (hn : nlb ≤ 2 ^ 64) (h : LockSpan ns slba nlb j) :
    (crc32SetLockBits ns slba nlb lock).entry j =
      if lock then ns.entry j ||| lockBit else ns.entry j &&& ~~~lockBit := by
  obtain ⟨ht, hg, i, hi, rfl⟩ := h
  rw [crc32SetLockBits, if_pos hg, entry_loop_of_span (lockNlb_le hn) ht hi]

theorem entry_setLockBits_of_not (h : ¬LockSpan ns slba nlb j) :
    (crc32SetLockBits ns slba nlb lock).entry j = ns.entry j := by
  by_cases hg : u64 (slba * 4) < ns.tableSize
  · rw [crc32SetLockBits, if_pos hg]
    exact entry_loop_of_not_span fun ht hs => h ⟨ht, hg, hs⟩
  · rw [crc32SetLockBits, if_neg hg]

theorem entry_clear (hl : len ≤ 2 ^ 64) (h : ClearSpan ns lba len j) :
    (crc32Clear ns lba len uncorr).entry j = if uncorr then uncorrCrc else 0#32 := by
  obtain ⟨ht, hg, i, hi, rfl⟩ := h
  have hle : clearLen ns lba len / 4 ≤ 2 ^ 64 := Nat.le_trans (Nat.div_le_self _ _) (clearLen_le hl)
  simp only [crc32Clear, if_pos hg]
  rw [entry_loop_of_span hle ht hi]

theorem entry_clear_of_not (h : ¬ClearSpan ns lba len j) :
    (crc32Clear ns lba len uncorr).entry j = ns.entry j := by
  by_cases hg : u64 (lba * 4) < ns.tableSize
  · simp only [crc32Clear, if_pos hg]
    exact entry_loop_of_not_span fun ht hs => h ⟨ht, hg, hs⟩
  · simp only [crc32Clear, if_neg hg]

theorem checkLockBits_iff : crc32CheckLockBits ns slba nlb = true ↔
    ∃ j, CheckSpan ns slba nlb j ∧ isLocked (ns.entry j) := by
  unfold crc32CheckLockBits
  rcases hc : ns.crcTable with _ | t
  · simp [CheckSpan, hc]
  · simp only [CheckSpan, hc, Option.isSome_some, true_and]
    split_ifs with hg
    · simp only [List.any_eq_true, List.mem_range, hg, true_and]
      constructor
      · rintro ⟨i, hi, hl⟩
        exact ⟨_, ⟨i, hi, rfl⟩, by rwa [entry_of_some hc]⟩
      · rintro ⟨_, ⟨i, hi, rfl⟩, hl⟩
        exact ⟨i, hi, by rwa [entry_of_some hc] at hl⟩
    · simp [hg]

/-! ### Ranges below `2 ^ 62`

There the byte offset of the first entry does not wrap, and the loops visit, in
the table, exactly the entries of the range. (The offset of the end may still
wrap, for a range over the last LBA below `2 ^ 62`; the range is then not
clipped, and the loops go on beyond the table.) -/

theorem u64_mul_four_lt (hs : slba < 2 ^ 62) :
    u64 (slba * 4) < ns.tableSize ↔ slba < ns.entries := by
  rw [u64_of_lt (by omega), ns.tableSize_eq]
  omega

theorem lockNlb_of_le (hs : slba < ns.entries) (hn : slba + nlb ≤ ns.entries) :
    lockNlb ns slba nlb = nlb := by
  have := ns.entries_lt
  rw [lockNlb, if_neg]
  rw [ns.tableSize_eq]
  simp only [u64]
  omega

theorem lockNlb_of_gt (hs : slba < ns.entries) (hn : ns.entries < slba + nlb)
    (hb : slba + nlb < 2 ^ 62) : lockNlb ns slba nlb = ns.entries - slba := by
  rw [lockNlb, if_pos]
  · have := ns.entries_lt
    simp only [u64]
    omega
  · rw [ns.tableSize_eq]
    simp only [u64]
    omega

theorem lockNlb_of_wrap (hs : slba < ns.entries) (hb : 2 ^ 62 ≤ slba + nlb) (hn : nlb ≤ 2 ^ 62) :
    lockNlb ns slba nlb = nlb := by
  have := ns.entries_lt
  rw [lockNlb, if_neg]
  rw [ns.tableSize_eq]
  simp only [u64]
  omega

theorem lockSpan_iff_of_lt (ht : ns.crcTable.isSome) (hs : slba < ns.entries)
    (hb : slba + nlb < 2 ^ 62) :
    LockSpan ns slba nlb j ↔ slba ≤ j ∧ j < slba + nlb ∧ j < ns.entries := by
  have hN := ns.entries_lt
  have hg := (u64_mul_four_lt (by omega : slba < 2 ^ 62)).2 hs
  simp only [LockSpan, ht, hg, true_and]
  rcases Nat.lt_or_ge ns.entries (slba + nlb) with h | h
  · rw [lockNlb_of_gt hs h hb, span_iff (by omega)]
    omega
  · rw [lockNlb_of_le hs h, span_iff (by omega)]
    omega

theorem lockSpan_iff_of_wrap (ht : ns.crcTable.isSome) (hs : slba < ns.entries)
    (hb : 2 ^ 62 ≤ slba + nlb) (hn : nlb ≤ 2 ^ 62) :
    LockSpan ns slba nlb j ↔ slba ≤ j ∧ j < slba + nlb := by
  have hN := ns.entries_lt
  have hg := (u64_mul_four_lt (by omega : slba < 2 ^ 62)).2 hs
  simp only [LockSpan, ht, hg, true_and]
  rw [lockNlb_of_wrap hs hb hn, span_iff (by omega)]

theorem lockSpan_iff (ht : ns.crcTable.isSome) (hs : slba < 2 ^ 62) (hn : nlb ≤ 2 ^ 62)
    (hj : j < ns.entries) : LockSpan ns slba nlb j ↔ slba ≤ j ∧ j < slba + nlb := by
  rcases Nat.lt_or_ge slba ns.entries with hlt | hge
  · rcases Nat.lt_or_ge (slba + nlb) (2 ^ 62) with hb | hb
    · rw [lockSpan_iff_of_lt ht hlt hb]
      omega
    · exact lockSpan_iff_of_wrap ht hlt hb hn
  · have hg : ¬u64 (slba * 4) < ns.tableSize := fun h =>
      absurd ((u64_mul_four_lt hs).1 h) (Nat.not_lt.2 hge)
    simp only [LockSpan, hg, false_and, and_false, false_iff]
    omega

/-- With at most `65535` blocks, the narrow counters of the check lose nothing. -/
theorem checkSpan_iff_lockSpan (hs : slba < 2 ^ 62) (hn : nlb < 2 ^ 16) :
    CheckSpan ns slba nlb j ↔ LockSpan ns slba nlb j := by
  have hle : u64 (slba * 4) < ns.tableSize → u16 (lockNlb ns slba nlb) = lockNlb ns slba nlb := by
    intro hg
    have hlt := (u64_mul_four_lt hs).1 hg
    apply u16_of_lt
    rcases Nat.lt_or_ge (slba + nlb) (2 ^ 62) with hb | hb
    · rcases Nat.lt_or_ge ns.entries (slba + nlb) with h | h
      · rw [lockNlb_of_gt hlt h hb]
        omega
      · rwa [lockNlb_of_le hlt h]
    · rwa [lockNlb_of_wrap hlt hb (by omega)]
  simp only [CheckSpan, LockSpan, u16_of_lt hn]
  refine and_congr_right fun _ => and_congr_right fun hg => ?_
  rw [hle hg]

/-- Clearing `nlb` entries visits what locking them does. -/
theorem clearSpan_iff_lockSpan (hs : slba < 2 ^ 62) (hn : nlb < 2 ^ 32) :
    ClearSpan ns slba (nlb * 4) j ↔ LockSpan ns slba nlb j := by
  simp only [ClearSpan, LockSpan]
  refine and_congr_right fun _ => and_congr_right fun hg => ?_
  have hlt := (u64_mul_four_lt hs).1 hg
  have hN := ns.entries_lt
  have hoff : u64 (slba * 4) = slba * 4 := u64_of_lt (by omega)
  have hlen : clearLen ns slba (nlb * 4) / 4 = lockNlb ns slba nlb := by
    rw [clearLen, hoff, ns.tableSize_eq]
    rcases Nat.lt_or_ge (slba + nlb) (2 ^ 62) with hb | hb
    · rcases Nat.lt_or_ge ns.entries (slba + nlb) with h | h
      · rw [lockNlb_of_gt hlt h hb, if_pos (by simp only [u64]; omega)]
        omega
      · rw [lockNlb_of_le hlt h, if_neg (by simp only [u64]; omega)]
        omega
    · rw [lockNlb_of_wrap hlt hb (by omega), if_neg (by simp only [u64]; omega)]
      omega
  rw [hlen]

/-! ### The format of the namespace is kept -/

@[simp] theorem shape_setLockBits : (crc32SetLockBits ns slba nlb lock).shape = ns.shape := by
  unfold crc32SetLockBits
  split_ifs
  · exact ns.shape_mapData _
  · exact ns.shape_mapData _
  · rfl

@[simp] theorem shape_clear : (crc32Clear ns lba len uncorr).shape = ns.shape := by
  simp only [crc32Clear]
  split_ifs
  · exact ns.shape_mapData _
  · exact ns.shape_mapData _
  · rfl

theorem lockSpan_of_shape {ns' : Ns} (h : ns.shape = ns'.shape) :
    LockSpan ns slba nlb j ↔ LockSpan ns' slba nlb j := by
  simp only [LockSpan, lockNlb, Ns.tableSize_of_shape h, Ns.entries_of_shape h,
    Ns.isSome_of_shape h]

theorem clearSpan_of_shape {ns' : Ns} (h : ns.shape = ns'.shape) :
    ClearSpan ns lba len j ↔ ClearSpan ns' lba len j := by
  simp only [ClearSpan, clearLen, Ns.tableSize_of_shape h, Ns.isSome_of_shape h]

end Pynvme
