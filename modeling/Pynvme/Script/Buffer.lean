import Pynvme.Lib.Slice
import Pynvme.Script.Python

/-!
# The buffers of the scripts

A `Buffer` is memory for the data of commands, which scripts access as a sequence of bytes,
by an index or by a slice. The accesses are those of Cython to memory: the model has the
bytes around the buffer as well, and records what is accessed (`Memory`).

An index is compared with the size only, so that a negative one is an access before the
buffer. A slice is read as Python has it, but written from its start on, whatever its end
and its step are: `buffer_indexing_iff` tells for which indices and slices the buffer is a
sequence of Python.
-/

namespace Pynvme

/-! ### Memory -/

/-- The memory of a buffer and around it, with addresses relative to the first byte of the
    buffer, and the addresses that were accessed. -/
structure Memory where
  bytes : Int → BitVec 8
  touched : List Int

namespace Memory

/-- Memory that was not accessed yet. -/
def fresh (bytes : Int → BitVec 8) : Memory := ⟨bytes, []⟩

/-- The memory after reading the byte at `a`. -/
def touch (m : Memory) (a : Int) : Memory := { m with touched := m.touched ++ [a] }

/-- The memory after writing the byte at `a`. -/
def store (m : Memory) (a : Int) (b : BitVec 8) : Memory :=
  { bytes := Function.update m.bytes a b, touched := m.touched ++ [a] }

/-- The bytes from the first one of the buffer on. -/
def data (m : Memory) : Bytes := fun k => m.bytes k

variable {m : Memory} {a a' : Int} {b : BitVec 8}

@[simp] theorem store_self : (m.store a b).bytes a = b := Function.update_self _ _ _

theorem store_of_ne (h : a' ≠ a) : (m.store a b).bytes a' = m.bytes a' :=
  Function.update_of_ne h _ _

end Memory

/-! ### Accesses -/

/-- An index of a buffer. -/
inductive PyIndex
  | num (n : PyNumber)
  | slice (s : Slice)

/-- What an index stands for: a byte, or the bytes of a slice. -/
inductive PyItem
  | byte (b : BitVec 8)
  | bytes (l : List (BitVec 8))
  deriving DecidableEq

/-- The check of an integer index, and its conversion to `Py_ssize_t`. -/
def bufferCheckIndex (size : Nat) (i : Int) : Except PyError Unit :=
  if i ≥ size then .error .index else if i < -2 ^ 63 then .error .overflow else .ok ()

/-- `Buffer.__getitem__`, of an integer. -/
def bufferGetByte (size : Nat) (i : Int) (m : Memory) : Except PyError (BitVec 8) × Memory :=
  match bufferCheckIndex size i with
  | .error e => (.error e, m)
  | .ok _ => (.ok (m.bytes i), m.touch i)

/-- The bytes at the indices of a slice, one after the other. -/
def bufferGetBytes (size : Nat) : List Int → Memory → Except PyError (List (BitVec 8)) × Memory
  | [], m => (.ok [], m)
  | i :: indices, m =>
    match bufferGetByte size i m with
    | (.error e, m) => (.error e, m)
    | (.ok b, m) =>
      match bufferGetBytes size indices m with
      | (.error e, m) => (.error e, m)
      | (.ok l, m) => (.ok (b :: l), m)

/-- `Buffer.__getitem__`. -/
def bufferGetitem (size : Nat) (m : Memory) : PyIndex → Except PyError PyItem × Memory
  | .slice s =>
    -- `slice.indices` raises on a step of 0
    if s.stride = 0 then (.error .value, m)
    else
      match bufferGetBytes size (s.select size) m with
      | (.error e, m) => (.error e, m)
      | (.ok l, m) => (.ok (.bytes l), m)
  | .num (.int i) =>
    match bufferGetByte size i m with
    | (.error e, m) => (.error e, m)
    | (.ok b, m) => (.ok (.byte b), m)
  | .num (.float _) => (.error .type, m)

/-- `Buffer.__setitem__`, at an integer. -/
def bufferSetByte (size : Nat) (i : Int) (b : BitVec 8) (m : Memory) :
    Except PyError Unit × Memory :=
  match bufferCheckIndex size i with
  | .error e => (.error e, m)
  | .ok _ => (.ok (), m.store i b)

/-- The bytes of a value are written from `start` on. -/
def bufferSetBytes (size : Nat) : Int → List (BitVec 8) → Memory → Except PyError Unit × Memory
  | _, [], m => (.ok (), m)
  | start, b :: value, m =>
    match bufferSetByte size start b m with
    | (.error e, m) => (.error e, m)
    | (.ok _, m) => bufferSetBytes size (start + 1) value m

/-- The start of a slice, as `Buffer.__setitem__` takes it. -/
def bufferSetStart (s : Slice) : Int := s.start.getD 0

/-- `Buffer.__setitem__`. -/
def bufferSetitem (size : Nat) (m : Memory) : PyIndex → PyItem → Except PyError Unit × Memory
  | .slice s, .bytes value => bufferSetBytes size (bufferSetStart s) value m
  | .num (.int i), .byte b => bufferSetByte size i b m
  | _, _ => (.error .type, m)

/-- `Buffer.data`, of an integer field. -/
def bufferData (size : Nat) (m : Memory) (byteEnd byteBegin : PyNumber) :
    Except PyError Nat × Memory :=
  match byteEnd, byteBegin with
  | .int byteEnd, .int byteBegin =>
    match bufferGetitem size m (.slice ⟨some byteBegin, some (byteEnd + 1), none⟩) with
    | (.ok (.bytes value), m) => (.ok (intFromBytes value), m)
    | (.ok (.byte _), m) => (.error .type, m)
    | (.error e, m) => (.error e, m)
  -- the bounds of a slice must be integers
  | _, _ => (.error .type, m)

/-! ### What is read and written -/

variable {size : Nat} {m m' : Memory} {i start a : Int} {b : BitVec 8} {value : List (BitVec 8)}
  {indices : List Int} {s : Slice}

theorem bufferCheckIndex_eq_ok {u : Unit} :
    bufferCheckIndex size i = .ok u ↔ -2 ^ 63 ≤ i ∧ i < size := by
  rw [bufferCheckIndex]
  split_ifs <;> simp only [true_iff, false_iff] <;> omega

/-- The indices of the buffer are read without an error. -/
theorem bufferGetBytes_eq (h : ∀ i ∈ indices, 0 ≤ i ∧ i < size) (m : Memory) :
    bufferGetBytes size indices m =
      (.ok (indices.map m.bytes), { m with touched := m.touched ++ indices }) := by
  induction indices generalizing m with
  | nil => simp [bufferGetBytes]
  | cons i indices ih =>
    obtain ⟨hi, hrest⟩ := List.forall_mem_cons.1 h
    have hcheck : bufferCheckIndex size i = .ok () := bufferCheckIndex_eq_ok.2 (by omega)
    simp [bufferGetBytes, bufferGetByte, hcheck, ih hrest, Memory.touch]

/-- What is written, if nothing raises. -/
theorem bufferSetBytes_ok {u : Unit} (h : bufferSetBytes size start value m = (.ok u, m')) :
    (∀ k, (hk : k < value.length) → m'.bytes (start + k) = value[k]) ∧
      ∀ a, (∀ k < value.length, a ≠ start + k) → m'.bytes a = m.bytes a := by
  induction value generalizing start m with
  | nil =>
    obtain rfl : m = m' := (Prod.mk.inj h).2
    exact ⟨fun k hk => absurd hk (Nat.not_lt_zero k), fun _ _ => rfl⟩
  | cons b value ih =>
    rcases hcheck : bufferCheckIndex size start with e | u
    · simp [bufferSetBytes, bufferSetByte, hcheck] at h
    · simp only [bufferSetBytes, bufferSetByte, hcheck] at h
      obtain ⟨hwritten, hother⟩ := ih h
      constructor
      · intro k hk
        rcases k with _ | k
        · have hself := hother start fun k _ => by omega
          simpa using hself
        · have hnext := hwritten k (by simpa using hk)
          rw [List.getElem_cons_succ, ← hnext]
          congr 1
          omega
      · intro a ha
        have hne : a ≠ start := by simpa using ha 0 (by simp)
        have hrest : ∀ k < value.length, a ≠ start + 1 + k := fun k hk => by
          have := ha (k + 1) (by simpa using hk)
          omega
        rw [hother a hrest, Memory.store_of_ne hne]

/-- A value is written part by part. -/
theorem bufferSetBytes_append (l : List (BitVec 8)) :
    bufferSetBytes size start (value ++ l) m =
      match bufferSetBytes size start value m with
      | (.error e, m) => (.error e, m)
      | (.ok _, m) => bufferSetBytes size (start + value.length) l m := by
  induction value generalizing start m with
  | nil => simp [bufferSetBytes]
  | cons b value ih =>
    rcases hset : bufferSetByte size start b m with ⟨e | u, m'⟩
    · simp only [List.cons_append, bufferSetBytes, hset]
    · have hpos : start + 1 + (value.length : Int) = start + ((value.length + 1 : Nat) : Int) := by
        omega
      simp only [List.cons_append, bufferSetBytes, hset, ih, List.length_cons, hpos]

/-- A value that fits is written without an error. -/
theorem bufferSetBytes_of_fits (h0 : 0 ≤ start) (h : start + value.length ≤ size) (m : Memory) :
    ∃ m', bufferSetBytes size start value m = (.ok (), m') := by
  induction value generalizing start m with
  | nil => exact ⟨m, rfl⟩
  | cons b value ih =>
    rw [List.length_cons] at h
    have hcheck : bufferCheckIndex size start = .ok () := bufferCheckIndex_eq_ok.2 (by omega)
    simp only [bufferSetBytes, bufferSetByte, hcheck]
    exact ih (by omega) (by omega) _

/-- What was accessed before a value is written stays so. -/
theorem mem_touched_setBytes (h : a ∈ m.touched) :
    a ∈ (bufferSetBytes size start value m).2.touched := by
  induction value generalizing start m with
  | nil => exact h
  | cons b value ih =>
    rcases hcheck : bufferCheckIndex size start with e | u
    · simpa [bufferSetBytes, bufferSetByte, hcheck] using h
    · simp only [bufferSetBytes, bufferSetByte, hcheck]
      exact ih (List.mem_append_left _ h)

/-- From an index of the buffer on, only bytes of the buffer are accessed. -/
theorem touched_setBytes (h0 : 0 ≤ start) (hm : ∀ a ∈ m.touched, 0 ≤ a ∧ a < size) :
    ∀ a ∈ (bufferSetBytes size start value m).2.touched, 0 ≤ a ∧ a < size := by
  induction value generalizing start m with
  | nil => exact hm
  | cons b value ih =>
    rcases hcheck : bufferCheckIndex size start with e | u
    · simpa [bufferSetBytes, bufferSetByte, hcheck] using hm
    · simp only [bufferSetBytes, bufferSetByte, hcheck]
      refine ih (by omega) fun a ha => ?_
      rcases List.mem_append.1 ha with ha | ha
      · exact hm a ha
      · obtain rfl := List.mem_singleton.1 ha
        exact ⟨h0, (bufferCheckIndex_eq_ok.1 hcheck).2⟩

/-- The bytes that a slice selects are read. -/
theorem bufferGetitem_slice (hstep : s.stride ≠ 0) (m : Memory) :
    bufferGetitem size m (.slice s) = (.ok (.bytes ((s.select size).map m.bytes)),
      { m with touched := m.touched ++ s.select size }) := by
  have hbounds : ∀ i ∈ s.select size, 0 ≤ i ∧ i < size :=
    fun i hi => Slice.bounds_of_mem_select hstep hi
  rw [bufferGetitem, if_neg hstep, bufferGetBytes_eq hbounds]

/-- A field of `n` bytes is the word there, in little endian. -/
theorem bufferData_eq {byteEnd byteBegin : Int} {a n : Nat} (hbegin : byteBegin = a)
    (hend : byteEnd + 1 = a + n) (h : a + n ≤ size) (m : Memory) :
    (bufferData size m (.int byteEnd) (.int byteBegin)).1 = .ok (m.data.readLe a n) ∧
      (bufferData size m (.int byteEnd) (.int byteBegin)).2.bytes = m.bytes := by
  have hstep : (⟨some (a : Int), some ((a : Int) + n), none⟩ : Slice).stride ≠ 0 := by
    simp [Slice.stride]
  have hbytes : ((List.range n).map fun k : Nat => (a : Int) + k).map m.bytes =
      m.data.slice a n := by
    simp [Bytes.slice, Memory.data]
  rw [bufferData, hbegin, hend, bufferGetitem_slice hstep, Slice.select_span h, hbytes]
  dsimp only
  exact ⟨by rw [intFromBytes_slice], rfl⟩

/-! ### Sequences -/

/-- An access touches only bytes of the buffer, or raises `IndexError` without touching any. -/
def SafeAccess {α : Type} (size : Nat) (r : Except PyError α × Memory) : Prop :=
  (∀ a ∈ r.2.touched, 0 ≤ a ∧ a < size) ∨ (r.1 = .error .index ∧ r.2.touched = [])

/-- Every value with as many bytes as the slice selects is assigned to it without an error, and
    read back; the bytes that are not selected stay. -/
def SliceRoundTrips (size : Nat) (s : Slice) : Prop :=
  ∀ (bytes : Int → BitVec 8) (value : List (BitVec 8)), value.length = (s.select size).length →
    ∃ m, bufferSetitem size (.fresh bytes) (.slice s) (.bytes value) = (.ok (), m) ∧
      (bufferGetitem size m (.slice s)).1 = .ok (.bytes value) ∧
      ∀ a, a ∉ s.select size → m.bytes a = bytes a

variable {bytes : Int → BitVec 8}

/-- An access to a byte before the buffer is not safe. -/
theorem not_safeAccess {α : Type} {r : Except PyError α × Memory} (h : a ∈ r.2.touched)
    (ha : a < 0) : ¬SafeAccess size r := by
  rintro (hall | ⟨-, hnone⟩)
  · have := (hall a h).1
    omega
  · rw [hnone] at h
    cases h

/-- The access to a byte, unless the check of the index raises. -/
theorem safeAccess_byte_iff {α : Type} {r : Except PyError α × Memory}
    (h : r.2.touched = if -2 ^ 63 ≤ i ∧ i < size then [i] else []) :
    SafeAccess size r ↔ 0 ≤ i ∨ i < -2 ^ 63 := by
  split_ifs at h with hcheck
  · constructor
    · intro hsafe
      by_contra hneg
      exact not_safeAccess (a := i) (by simp [h]) (by omega) hsafe
    · intro hpos
      left
      rw [h]
      simp only [List.mem_singleton, forall_eq]
      omega
  · exact iff_of_true (.inl (by simp [h])) (by omega)

theorem touched_getitem_int : (bufferGetitem size (.fresh bytes) (.num (.int i))).2.touched =
    if -2 ^ 63 ≤ i ∧ i < size then [i] else [] := by
  rw [bufferGetitem, bufferGetByte, bufferCheckIndex]
  split_ifs <;> first | rfl | omega

theorem touched_setitem_int :
    (bufferSetitem size (.fresh bytes) (.num (.int i)) (.byte b)).2.touched =
    if -2 ^ 63 ≤ i ∧ i < size then [i] else [] := by
  rw [bufferSetitem, bufferSetByte, bufferCheckIndex]
  split_ifs <;> first | rfl | omega

/-- A slice is always read within the buffer. -/
theorem safeAccess_getitem_slice (size : Nat) (bytes : Int → BitVec 8) (s : Slice) :
    SafeAccess size (bufferGetitem size (.fresh bytes) (.slice s)) := by
  left
  by_cases hstep : s.stride = 0
  · simp [bufferGetitem, hstep, Memory.fresh]
  · rw [bufferGetitem_slice hstep]
    exact fun i hi => Slice.bounds_of_mem_select hstep (by simpa [Memory.fresh] using hi)

/-- A value is written within the buffer, unless it is written from a negative start on. -/
theorem safeAccess_setitem_slice_iff :
    SafeAccess size (bufferSetitem size (.fresh bytes) (.slice s) (.bytes value)) ↔
      value = [] ∨ 0 ≤ bufferSetStart s ∨ bufferSetStart s < -2 ^ 63 := by
  rw [bufferSetitem]
  generalize bufferSetStart s = start
  rcases value with _ | ⟨b, value⟩
  · exact iff_of_true (.inl (by simp [bufferSetBytes, Memory.fresh])) (.inl rfl)
  · rcases Int.lt_or_le start 0 with hneg | hpos
    · have hequiv : (b :: value = [] ∨ 0 ≤ start ∨ start < -2 ^ 63) ↔ start < -2 ^ 63 := by
        simp only [reduceCtorEq, false_or]
        omega
      rw [hequiv]
      constructor
      · intro hsafe
        by_contra hfits
        have hcheck : bufferCheckIndex size start = .ok () :=
          bufferCheckIndex_eq_ok.2 (by omega)
        refine not_safeAccess (a := start) ?_ hneg hsafe
        simp only [bufferSetBytes, bufferSetByte, hcheck]
        exact mem_touched_setBytes (by simp [Memory.store])
      · intro hover
        have hcheck : bufferCheckIndex size start = .error .overflow := by
          rw [bufferCheckIndex, if_neg (by omega), if_pos hover]
        exact .inl (by simp [bufferSetBytes, bufferSetByte, hcheck, Memory.fresh])
    · exact iff_of_true (.inl (touched_setBytes hpos (by simp [Memory.fresh])))
        (.inr (.inl hpos))

/-- The `k`th byte of a value is written to the `k`th index that the slice selects. -/
def WritesSelected (size : Nat) (s : Slice) : Prop :=
  ∀ k < s.count size, bufferSetStart s + k = s.first size + (k : Int) * s.stride

theorem writesSelected_of_roundTrips (hstep : s.stride ≠ 0) (h : SliceRoundTrips size s) :
    WritesSelected size s := by
  intro k hk
  -- All bytes are 0, and only the `k`th one of the value is 1.
  have hlen : ((List.replicate (s.count size) 0#8).set k 1#8).length = s.count size := by simp
  obtain ⟨m, hset, hget, -⟩ := h (fun _ => 0#8) ((List.replicate (s.count size) 0#8).set k 1#8)
    (by simp)
  obtain ⟨hwritten, hother⟩ := bufferSetBytes_ok hset
  rw [bufferGetitem_slice hstep, Except.ok.injEq, PyItem.bytes.injEq] at hget
  have hone : m.bytes (s.first size + (k : Int) * s.stride) = 1#8 := by
    have hk' : k < ((s.select size).map m.bytes).length := by simpa using hk
    have := List.getElem_of_eq hget hk'
    simpa [hk] using this
  by_contra hne
  by_cases hin : ∃ j < s.count size, s.first size + (k : Int) * s.stride = bufferSetStart s + j
  · obtain ⟨j, hj, heq⟩ := hin
    have hjk : k ≠ j := fun hjk => hne (by rw [heq, hjk])
    have hzero := hwritten j (by rw [hlen]; exact hj)
    rw [← heq, hone, List.getElem_set_ne hjk, List.getElem_replicate] at hzero
    exact absurd hzero (by decide)
  · push Not at hin
    have hzero := hother _ fun j hj => hin j (by rwa [hlen] at hj)
    rw [hone] at hzero
    exact absurd hzero (by simp [Memory.fresh])

/-- The bytes of a value are in the buffer, if they are written to the indices selected. -/
theorem WritesSelected.set_ok (h : WritesSelected size s) (hstep : s.stride ≠ 0)
    (hlen : value.length = s.count size) (m : Memory) :
    ∃ m', bufferSetBytes size (bufferSetStart s) value m = (.ok (), m') := by
  have hbounds : ∀ k < s.count size, 0 ≤ bufferSetStart s + k ∧ bufferSetStart s + k < size :=
    fun k hk => Slice.bounds_of_mem_select hstep (Slice.mem_select.2 ⟨k, hk, h k hk⟩)
  rcases Nat.eq_zero_or_pos (s.count size) with hzero | hpos
  · obtain rfl := List.length_eq_zero_iff.1 (hlen.trans hzero)
    exact ⟨m, rfl⟩
  · have hfirst := hbounds 0 hpos
    have hlast := hbounds (s.count size - 1) (by omega)
    exact bufferSetBytes_of_fits (by omega) (by omega) m

theorem sliceRoundTrips_iff (hstep : s.stride ≠ 0) :
    SliceRoundTrips size s ↔ WritesSelected size s := by
  refine ⟨writesSelected_of_roundTrips hstep, fun h bytes value hlen => ?_⟩
  rw [Slice.length_select] at hlen
  obtain ⟨m, hset⟩ := h.set_ok hstep hlen (.fresh bytes)
  obtain ⟨hwritten, hother⟩ := bufferSetBytes_ok hset
  refine ⟨m, hset, ?_, fun a ha => ?_⟩
  · rw [bufferGetitem_slice hstep, Except.ok.injEq, PyItem.bytes.injEq]
    refine List.ext_getElem (by simp [hlen]) fun k hk hk' => ?_
    rw [List.getElem_map, Slice.getElem_select, ← h k (hlen ▸ hk'), hwritten k hk']
  · refine hother a fun k hk heq => ha ?_
    exact Slice.mem_select.2 ⟨k, hlen ▸ hk, by rw [heq, h k (hlen ▸ hk)]⟩

/-- The slices that are written as they are read: those that select nothing, and those that
    start where they are written from, and select one byte, or all from there on. -/
theorem writesSelected_iff : WritesSelected size s ↔ s.count size = 0 ∨
    (bufferSetStart s = s.first size ∧ (s.count size = 1 ∨ s.stride = 1)) := by
  constructor
  · intro h
    rcases Nat.eq_zero_or_pos (s.count size) with hzero | hpos
    · exact .inl hzero
    · have hfirst := h 0 hpos
      refine .inr ⟨by simpa using hfirst, ?_⟩
      rcases Nat.lt_or_ge 1 (s.count size) with htwo | hone
      · have hsecond := h 1 htwo
        right
        omega
      · left
        omega
  · rintro (hzero | ⟨hfirst, hone | hstep⟩) k hk
    · omega
    · obtain rfl : k = 0 := by omega
      simpa using hfirst
    · rw [hfirst, hstep, Int.mul_one]

/-- When the accesses to a buffer follow the rules of Python: an index that is not negative (or
    does not fit in 64 bits), every slice that is read, and a slice that is assigned to, if its
    bytes are written from its first one on, and it is one byte or has no gaps. -/
theorem buffer_indexing_iff (size : Nat) :
    (∀ bytes i, SafeAccess size (bufferGetitem size (.fresh bytes) (.num (.int i))) ↔
      0 ≤ i ∨ i < -2 ^ 63) ∧
    (∀ bytes i b, SafeAccess size (bufferSetitem size (.fresh bytes) (.num (.int i)) (.byte b)) ↔
      0 ≤ i ∨ i < -2 ^ 63) ∧
    (∀ bytes s, SafeAccess size (bufferGetitem size (.fresh bytes) (.slice s))) ∧
    (∀ bytes s value,
      SafeAccess size (bufferSetitem size (.fresh bytes) (.slice s) (.bytes value)) ↔
        value = [] ∨ 0 ≤ s.start.getD 0 ∨ s.start.getD 0 < -2 ^ 63) ∧
    ∀ s : Slice, s.stride ≠ 0 → (SliceRoundTrips size s ↔ s.count size = 0 ∨
      (s.start.getD 0 = s.first size ∧ (s.count size = 1 ∨ s.stride = 1))) :=
  ⟨fun _ _ => safeAccess_byte_iff touched_getitem_int,
    fun _ _ _ => safeAccess_byte_iff touched_setitem_int,
    safeAccess_getitem_slice size, fun _ _ _ => safeAccess_setitem_slice_iff,
    fun _ hstep => (sliceRoundTrips_iff hstep).trans writesSelected_iff⟩

/-- The last byte is not found by the index `-1`, and the last four not assigned by the
    slice `-4:`. -/
theorem buffer_indexing_negative :
    ¬SafeAccess 4096 (bufferGetitem 4096 (.fresh fun _ => 0#8) (.num (.int (-1)))) ∧
      ¬SliceRoundTrips 4096 ⟨some (-4), none, none⟩ := by
  constructor
  · rw [safeAccess_byte_iff touched_getitem_int]
    decide
  · rw [sliceRoundTrips_iff (by decide), writesSelected_iff]
    decide

end Pynvme
