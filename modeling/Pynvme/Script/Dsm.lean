import Pynvme.Crc.Footprint
import Pynvme.Script.Buffer
import Mathlib.Data.List.GetD

/-!
# The ranges of a DSM command

A script sets the ranges of a DSM command one by one, in any order, in a buffer
(`Buffer.set_dsm_range`), with `struct.pack`, and Python writes the bytes of a record. The
driver reads the records as structures of C, at the completion of the command. The offset of
the buffer, from which the command takes its data, is 0, as it is unless a script sets it.

`dsm_ranges_round_trip`: each record is the one that was set last at its index, both for
Python and for the driver, and the CRC table is cleared in the union of the ranges.
-/

namespace Pynvme

/-! ### The encoder -/

/-- `struct.pack("<LLQ", attr, lba_count, lba)`. -/
def structPackLLQ (attr lbaCount lba : Int) : Except PyError (List (BitVec 8)) := do
  let attr ← structField 4 attr
  let lbaCount ← structField 4 lbaCount
  let lba ← structField 8 lba
  return attr ++ lbaCount ++ lba

/-- `Buffer.set_dsm_range`. -/
def bufferSetDsmRange (size : Nat) (m : Memory) (index lba lbaCount attr : Int) :
    Except PyError Unit × Memory :=
  match structPackLLQ attr lbaCount lba with
  | .error e => (.error e, m)
  | .ok value =>
    bufferSetitem size m (.slice ⟨some (index * 16), some ((index + 1) * 16), none⟩) (.bytes value)

/-- A call of `Buffer.set_dsm_range`. -/
structure DsmSet where
  index : Nat
  lba : Nat
  lbaCount : Nat
  attr : Nat

/-- The call, on a buffer of `size` bytes. -/
def DsmSet.call (size : Nat) (c : DsmSet) (m : Memory) : Except PyError Unit × Memory :=
  bufferSetDsmRange size m c.index c.lba c.lbaCount c.attr

/-- The calls of a script, one after the other. -/
def setDsmRanges (size : Nat) : List DsmSet → Memory → Except PyError Unit × Memory :=
  pyFor (DsmSet.call size)

/-! ### The records -/

/-- The index is one of the 256 of the buffer, and the fields fit. -/
structure DsmSet.Valid (c : DsmSet) : Prop where
  index : c.index < 256
  lba : c.lba < 2 ^ 64
  lbaCount : c.lbaCount < 2 ^ 32
  attr : c.attr < 2 ^ 32

/-- The bytes of the record. -/
def DsmSet.record (c : DsmSet) : List (BitVec 8) :=
  Bytes.ofLe 4 c.attr ++ Bytes.ofLe 4 c.lbaCount ++ Bytes.ofLe 8 c.lba

variable {size : Nat} {c : DsmSet} {calls : List DsmSet} {m : Memory} {i k : Nat}

@[simp] theorem DsmSet.length_record (c : DsmSet) : c.record.length = 16 := by simp [record]

theorem structField_eq {n v : Nat} (h : v < 256 ^ n) :
    structField n v = .ok (Bytes.ofLe n v) := by
  rw [structField, if_pos ⟨Int.natCast_nonneg v, by exact_mod_cast h⟩, Int.toNat_natCast]

theorem DsmSet.Valid.pack (h : c.Valid) : structPackLLQ c.attr c.lbaCount c.lba = .ok c.record := by
  rw [structPackLLQ, structField_eq (show c.attr < 256 ^ 4 from h.attr),
    structField_eq (show c.lbaCount < 256 ^ 4 from h.lbaCount),
    structField_eq (show c.lba < 256 ^ 8 from h.lba)]
  rfl

/-- A call writes the bytes of its record, and no others. -/
theorem DsmSet.Valid.call (hsize : 4096 ≤ size) (h : c.Valid) (m : Memory) :
    ∃ m', c.call size m = (.ok (), m') ∧
      ∀ i, ∀ k < 16, m'.bytes (16 * i + k : Nat) =
        if c.index = i then c.record.getD k 0#8 else m.bytes (16 * i + k : Nat) := by
  have hindex := h.index
  have hlen := c.length_record
  rw [DsmSet.call, bufferSetDsmRange, h.pack]
  obtain ⟨m', hset⟩ : ∃ m', bufferSetBytes size (c.index * 16 : Int) c.record m = (.ok (), m') :=
    bufferSetBytes_of_fits (by omega) (by rw [hlen]; omega) m
  obtain ⟨hwritten, hother⟩ := bufferSetBytes_ok hset
  refine ⟨m', hset, fun i k hk => ?_⟩
  split_ifs with hi
  · have hbyte := hwritten k (by omega)
    rw [List.getD_eq_getElem _ _ (by omega), ← hbyte, ← hi]
    congr 1
    omega
  · exact hother _ fun j hj => by omega

/-- The call that set the record of an index last. -/
def lastSet (calls : List DsmSet) (i : Nat) : Option DsmSet := calls.reverse.find? (·.index = i)

/-- After the calls, each record is the last one set at its index, and the others are as
    before. -/
theorem setDsmRanges_spec (hsize : 4096 ≤ size) (h : ∀ c ∈ calls, c.Valid) (m : Memory) :
    ∃ m', setDsmRanges size calls m = (.ok (), m') ∧
      ∀ i, ∀ k < 16, m'.bytes (16 * i + k : Nat) =
        match lastSet calls i with
        | some c => c.record.getD k 0#8
        | none => m.bytes (16 * i + k : Nat) := by
  induction calls generalizing m with
  | nil => exact ⟨m, rfl, fun _ _ _ => rfl⟩
  | cons c calls ih =>
    obtain ⟨hc, hcalls⟩ := List.forall_mem_cons.1 h
    obtain ⟨m₁, hset, hfirst⟩ := hc.call hsize m
    obtain ⟨m', hrest, hspec⟩ := ih hcalls m₁
    refine ⟨m', (pyFor_cons hset).trans hrest, fun i k hk => ?_⟩
    have hlast : lastSet (c :: calls) i =
        (lastSet calls i).or (if c.index = i then some c else none) := by
      simp only [lastSet, List.reverse_cons, List.find?_append, List.find?_singleton,
        decide_eq_true_eq]
    rw [hspec i k hk, hfirst i k hk, hlast]
    rcases lastSet calls i with _ | c'
    · dsimp only
      split_ifs <;> rfl
    · rfl

/-! ### The decoders -/

/-- The record `i` is that of the call `c`, as the structure of the driver and as the fields
    that `Buffer.data` gives. -/
structure DsmSet.Decoded (c : DsmSet) (m : Memory) (i : Nat) : Prop where
  range : dsmRange m.data i = ⟨c.lba, c.lbaCount⟩
  attributes : m.data.readLe (16 * i) 4 = c.attr
  attr : (bufferData 4096 m (.int (16 * i + 3)) (.int (16 * i))).1 = .ok c.attr
  lbaCount : (bufferData 4096 m (.int (16 * i + 7)) (.int (16 * i + 4))).1 = .ok c.lbaCount
  lba : (bufferData 4096 m (.int (16 * i + 15)) (.int (16 * i + 8))).1 = .ok c.lba

/-- The word that begins in the record `i` at the byte `a`, if the bytes of `v` are there. -/
theorem readLe_record {l : List (BitVec 8)} {a n v : Nat} (ha : a + n ≤ 16)
    (h : ∀ k < 16, m.bytes (16 * i + k : Nat) = l.getD k 0#8)
    (hl : ∀ k < n, l.getD (a + k) 0#8 = BitVec.ofNat 8 (v / 256 ^ k)) (hv : v < 256 ^ n) :
    m.data.readLe (16 * i + a) n = v := by
  rw [Bytes.readLe_eq_of_ofLe (v := v), Nat.mod_eq_of_lt hv]
  intro k hk
  rw [← hl k hk, ← h (a + k) (by omega), Memory.data, Nat.add_assoc]

theorem DsmSet.Valid.decoded (h : c.Valid) (hi : i < 256)
    (hm : ∀ k < 16, m.bytes (16 * i + k : Nat) = c.record.getD k 0#8) : c.Decoded m i := by
  have hattr : m.data.readLe (16 * i) 4 = c.attr := by
    refine readLe_record (a := 0) (by decide) hm (fun k hk => ?_) h.attr
    rw [DsmSet.record, List.append_assoc, List.getD_append _ _ _ _ (by simp; omega)]
    simp [List.getD_eq_getElem?_getD, hk]
  have hcount : m.data.readLe (16 * i + 4) 4 = c.lbaCount := by
    refine readLe_record (by decide) hm (fun k hk => ?_) h.lbaCount
    rw [DsmSet.record, List.append_assoc, List.getD_append_right _ _ _ _ (by simp)]
    rw [List.getD_append _ _ _ _ (by simp; omega)]
    simp [List.getD_eq_getElem?_getD, hk]
  have hlba : m.data.readLe (16 * i + 8) 8 = c.lba := by
    refine readLe_record (by decide) hm (fun k hk => ?_) h.lba
    rw [DsmSet.record, List.getD_append_right _ _ _ _ (by simp)]
    simp [List.getD_eq_getElem?_getD, hk]
  constructor
  case range => rw [dsmRange, hcount, hlba]
  case attributes => exact hattr
  case attr =>
    rw [← hattr]
    exact (bufferData_eq (by omega) (by omega) (by omega) m).1
  case lbaCount =>
    rw [← hcount]
    exact (bufferData_eq (by omega) (by omega) (by omega) m).1
  case lba =>
    rw [← hlba]
    exact (bufferData_eq (by omega) (by omega) (by omega) m).1

/-! ### The table -/

variable {crc32c : List (BitVec 8) → BitVec 32} {ns : Ns} {cmd : NvmeCmd} {attr qpairId j : Nat}

/-- The union of the first `k` ranges. -/
def dsmUnion (buf : Bytes) (k : Nat) : Set Nat :=
  {j | ∃ i < k, (dsmRange buf i).startingLba ≤ j ∧
    j < (dsmRange buf i).startingLba + (dsmRange buf i).length}

/-- The completion of a DSM over ranges inside of the namespace clears the entries of their
    union that the table has. -/
theorem entry_cmdCpl_dsm {buf : Bytes} (hk : 1 ≤ k) (hk' : k ≤ 256)
    (hcmd : Namespace.dsm k attr = some cmd) (hns : ns.numSectors < 2 ^ 62)
    (hin : ∀ i < k, (dsmRange buf i).startingLba + (dsmRange buf i).length ≤ ns.numSectors)
    (hq : qpairId ≠ 0) (j : Nat) :
    (j < ns.entries ∧ j ∈ dsmUnion buf k →
      (cmdlogCmdCpl crc32c ns ⟨cmd, qpairId, buf⟩ .success).1.entry j = 0#32) ∧
    (¬(j < ns.entries ∧ j ∈ dsmUnion buf k) →
      (cmdlogCmdCpl crc32c ns ⟨cmd, qpairId, buf⟩ .success).1.entry j = ns.entry j) := by
  obtain ⟨hop, hcount⟩ := dsm_count hk hk' hcmd
  have hupdate : (cmdlogCmdCpl crc32c ns ⟨cmd, qpairId, buf⟩ .success).1 =
      crc32ClearRanges ns buf k := by
    simp [cmdlogCmdCpl, cmdlogUpdateCrc, cmdlogUpdateCrcIo, hq, hop, hcount, Status.isError,
      Status.success]
  have hspan : ∀ i < k, ns.crcTable.isSome →
      (ClearSpan ns (dsmRange buf i).startingLba ((dsmRange buf i).length * 4) j ↔
        j < ns.entries ∧ (dsmRange buf i).startingLba ≤ j ∧
          j < (dsmRange buf i).startingLba + (dsmRange buf i).length) := by
    intro i hi ht
    have hrange := hin i hi
    have hlen := dsmRange_length_lt buf i
    refine NoWrap.clearSpan_iff (r := ((dsmRange buf i).startingLba, (dsmRange buf i).length)) ht
      (by dsimp only; omega) hlen ?_
    rw [NoWrap]
    dsimp only
    omega
  rw [hupdate]
  constructor
  · rintro ⟨hent, i, hi, hlo, hhi⟩
    by_cases ht : ns.crcTable.isSome
    · exact entry_clearRanges ⟨i, hi, (hspan i hi ht).2 ⟨hent, hlo, hhi⟩⟩
    -- Without a table, all entries are 0.
    · rw [entry_clearRanges_of_not fun i _ hclear => ht hclear.1, Ns.entry,
        Option.not_isSome_iff_eq_none.1 ht]
      rfl
  · intro hj
    refine entry_clearRanges_of_not fun i hi hclear => hj ?_
    obtain ⟨hent, hlo, hhi⟩ := (hspan i hi hclear.1).1 hclear
    exact ⟨hent, i, hi, hlo, hhi⟩

/-- After any calls of `set_dsm_range` on a buffer of 4096 bytes, each record is the last one
    set at its index, for the driver and for `Buffer.data`, and those never set are as before;
    and a DSM over the first `k` records, whose ranges are in a namespace of fewer than `2 ^ 62`
    sectors, clears the entries of the table in the union of the ranges, and no others. -/
theorem dsm_ranges_round_trip (hcalls : ∀ c ∈ calls, c.Valid) (bytes : Int → BitVec 8) :
    ∃ m, setDsmRanges 4096 calls (.fresh bytes) = (.ok (), m) ∧
      (∀ i < 256,
        (∀ c, lastSet calls i = some c → c.Decoded m i) ∧
        (lastSet calls i = none → ∀ k < 16, m.bytes (16 * i + k : Nat) =
          bytes (16 * i + k : Nat))) ∧
      ∀ (crc32c : List (BitVec 8) → BitVec 32) (ns : Ns) (k attr qpairId : Nat) (cmd : NvmeCmd),
        1 ≤ k → k ≤ 256 → Namespace.dsm k attr = some cmd → ns.numSectors < 2 ^ 62 →
        (∀ i < k, (dsmRange m.data i).startingLba + (dsmRange m.data i).length ≤
          ns.numSectors) →
        qpairId ≠ 0 → ∀ j,
          (j < ns.entries ∧ j ∈ dsmUnion m.data k →
            (cmdlogCmdCpl crc32c ns ⟨cmd, qpairId, m.data⟩ .success).1.entry j = 0#32) ∧
          (¬(j < ns.entries ∧ j ∈ dsmUnion m.data k) →
            (cmdlogCmdCpl crc32c ns ⟨cmd, qpairId, m.data⟩ .success).1.entry j = ns.entry j) := by
  obtain ⟨m, hrun, hspec⟩ := setDsmRanges_spec (Nat.le_refl 4096) hcalls (.fresh bytes)
  refine ⟨m, hrun, fun i hi => ⟨fun c hc => ?_, fun hnone k hk => ?_⟩, ?_⟩
  · have hmem : c ∈ calls := List.mem_reverse.1 (List.mem_of_find?_eq_some hc)
    refine (hcalls c hmem).decoded hi fun k hk => ?_
    rw [hspec i k hk, hc]
  · rw [hspec i k hk, hnone]
    rfl
  · intro crc32c ns k attr qpairId cmd hk hk' hcmd hns hin hq j
    exact entry_cmdCpl_dsm hk hk' hcmd hns hin hq j

/-- The first of two records is set twice, and a DSM over both clears the entries of their
    last ranges. -/
theorem dsm_ranges_round_trip_twice :
    ∃ m, setDsmRanges 4096 [⟨0, 5, 1, 0⟩, ⟨1, 2, 2, 0⟩, ⟨0, 0, 1, 0⟩] (.fresh fun _ => 0#8) =
        (.ok (), m) ∧
      dsmRange m.data 0 = ⟨0, 1⟩ ∧ dsmRange m.data 1 = ⟨2, 2⟩ := by
  have hcalls : ∀ c ∈ ([⟨0, 5, 1, 0⟩, ⟨1, 2, 2, 0⟩, ⟨0, 0, 1, 0⟩] : List DsmSet), c.Valid := by
    simp only [List.mem_cons, List.not_mem_nil, or_false, forall_eq_or_imp, forall_eq]
    exact ⟨⟨by decide, by decide, by decide, by decide⟩,
      ⟨by decide, by decide, by decide, by decide⟩, by decide, by decide, by decide, by decide⟩
  obtain ⟨m, hrun, hrecords, -⟩ := dsm_ranges_round_trip hcalls (fun _ => 0#8)
  exact ⟨m, hrun, ((hrecords 0 (by decide)).1 _ rfl).range,
    ((hrecords 1 (by decide)).1 _ rfl).range⟩

end Pynvme
