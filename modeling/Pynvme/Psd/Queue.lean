import Pynvme.Psd.Cqe
import Pynvme.Psd.PrpList
import Pynvme.Script.Buffer

/-!
# Queues

The entries of a submission queue (`IOSQ`) and of a completion queue (`IOCQ`) are in the
linear memory of a buffer, or of a chain of PRP lists. For the latter, the buffer and the
offset of an entry are looked up, and the offset is divided by the size of an entry: the
quotient is a float, and every access with it raises. For the former, the offset of the
buffer is left out, though the queue is created at this offset.

`queue_entries_iff`: entries land at the right place if and only if the queue is one buffer,
with offset 0.
-/

namespace Pynvme.Psd

/-- An `IOSQ`. -/
structure IoSq where
  queue : Ref
  sqeList : List (Option (List Int))

/-- An `IOCQ`. -/
structure IoCq where
  queue : Ref
  qsize : Nat

section

variable (objects : Ref → PrpObject)

/-- `len(buf)` -/
def bufLen (buf : Ref) : Nat :=
  match objects buf with
  | .buffer b => b.size
  | .list _ => 4096

/-- `isinstance(buf, PRP)` -/
def isPrp (buf : Ref) : Bool :=
  match objects buf with
  | .buffer b => b.isPrp
  | .list _ => true

/-- The queue buffer with the entry `index`, of `size` bytes, and the index there. -/
def locateEntry (depth : Nat) (queue : Ref) (index size : Int) :
    Except PyError (Ref × PyNumber) :=
  match objects queue with
  | .list l =>
    -- find the PRP entry in non-contig queue
    match findBufferByOffset objects depth l (index * size) 0 with
    | .error e => .error e
    | .ok none => .error .type
    | .ok (some (buf, offset)) =>
      match pyTrueDiv offset size with
      | .error e => .error e
      | .ok index => .ok (buf, index)
  | .buffer _ => .ok (queue, .int index)

/-! ### Submission queues -/

/-- `buf[index*64 + i*4 + j] = b` -/
def storeByte (size : Nat) (index : PyNumber) (i : Nat) (x : BitVec 8 × Nat) (m : Memory) :
    Except PyError Unit × Memory :=
  bufferSetitem size m (.num (index.mulAdd 64 (i * 4 + x.2))) (.byte x.1)

/-- The loop over the bytes of the dword `i`. -/
def storeDword (size : Nat) (index : PyNumber) (x : Int × Nat) (m : Memory) :
    Except PyError Unit × Memory :=
  match intToBytes 4 x.1 with
  | .error e => (.error e, m)
  | .ok bytes => pyFor (storeByte size index x.2) bytes.zipIdx m

/-- `IOSQ.__setitem__` -/
def iosqSetitem (depth : Nat) (sq : IoSq) (index : Int) (cmd : List Int) (mem : Ref → Memory) :
    Except PyError Unit × IoSq × (Ref → Memory) :=
  if cmd.length ≠ 16 then (.error (.assertion ""), sq, mem)
  else if index ≥ sq.sqeList.length then (.error (.assertion ""), sq, mem)
  else
    -- track the cmd in the queue
    match pyListSet sq.sqeList index (some cmd) with
    | .error e => (.error e, sq, mem)
    | .ok sqeList =>
      let sq := { sq with sqeList := sqeList }
      -- locate the queue buffer
      match locateEntry objects depth sq.queue index 64 with
      | .error e => (.error e, sq, mem)
      | .ok (buf, index) =>
        if isPrp objects buf then
          let (r, m) := pyFor (storeDword (bufLen objects buf) index) cmd.zipIdx (mem buf)
          (r, sq, Function.update mem buf m)
        else (.error (.assertion ""), sq, mem)

/-! ### Completion queues -/

/-- `cpl[i] = buf.data(index*16 + i*4 + 3, index*16 + i*4)` -/
def loadDword (size : Nat) (index : PyNumber) (i : Nat) (s : List Nat × Memory) :
    Except PyError Unit × List Nat × Memory :=
  match bufferData size s.2 (index.mulAdd 16 (i * 4 + 3)) (index.mulAdd 16 (i * 4)) with
  | (.error e, m) => (.error e, s.1, m)
  | (.ok v, m) => (.ok (), s.1.set i v, m)

/-- `IOCQ.__getitem__` -/
def iocqGetitem (depth : Nat) (cq : IoCq) (index : Int) (mem : Ref → Memory) :
    Except PyError Cqe × (Ref → Memory) :=
  if index ≥ cq.qsize then (.error (.assertion ""), mem)
  else
    match locateEntry objects depth cq.queue index 16 with
    | .error e => (.error e, mem)
    | .ok (buf, index) =>
      if isPrp objects buf then
        match pyFor (loadDword (bufLen objects buf) index) (List.range 4)
            ([0, 0, 0, 0], mem buf) with
        | (.error e, _, m) => (.error e, Function.update mem buf m)
        | (.ok _, cpl, m) => (cqeInit cpl, Function.update mem buf m)
      else (.error (.assertion ""), mem)

/-! ### The linear memory -/

/-- The memory `queue` of a queue has the buffers `bufs`. -/
inductive Backs : Ref → List Ref → Prop
  | buffer {queue : Ref} {b : PrpBuffer} (hqueue : objects queue = .buffer b) (hprp : b.isPrp)
      (hoffset : b.offset ≤ b.size) : Backs queue [queue]
  | list {queue : Ref} {l : PrpList} {n : Nat} {bufs : List Ref} (hqueue : objects queue = .list l)
      (hchain : Chain objects n l bufs) : Backs queue bufs

/-- The bytes of a linear memory. -/
def linear (bytes : List (Ref × Nat)) (mem : Ref → Memory) : Bytes := fun k =>
  match bytes[k]? with
  | some (buf, p) => (mem buf).bytes p
  | none => 0#8

/-- Every command is stored at its index, and no other byte changes. -/
def Stores (depth : Nat) (queue : Ref) (bufs : List Ref) (qsize : Nat) : Prop :=
  ∀ (sq : IoSq) (index : Nat) (cmd : List Int) (mem : Ref → Memory), sq.queue = queue →
    sq.sqeList.length = qsize → index < qsize → cmd.length = 16 →
    (∀ dword ∈ cmd, 0 ≤ dword ∧ dword < 2 ^ 32) → ∃ mem',
      iosqSetitem objects depth sq index cmd mem =
        (.ok (), { sq with sqeList := sq.sqeList.set index (some cmd) }, mem') ∧
      (∀ i, (hi : i < cmd.length) →
        (linear (areas objects bufs) mem').readLe (index * 64 + i * 4) 4 = cmd[i]) ∧
      ∀ buf a,
        (∀ k < 64, ∀ p : Nat, (areas objects bufs)[index * 64 + k]? = some (buf, p) → a ≠ p) →
        (mem' buf).bytes a = (mem buf).bytes a

/-- Every completion is read at its index. -/
def Loads (depth : Nat) (queue : Ref) (bufs : List Ref) (qsize : Nat) : Prop :=
  ∀ (cq : IoCq) (index : Nat) (mem : Ref → Memory), cq.queue = queue → cq.qsize = qsize →
    index < qsize → ∃ mem' cqe, iocqGetitem objects depth cq index mem = (.ok cqe, mem') ∧
      (∀ i : Fin 4,
        cqe.dword i = (linear (areas objects bufs) mem).readLe (index * 16 + i * 4) 4) ∧
      ∀ buf, (mem' buf).bytes = (mem buf).bytes

end

variable {objects : Ref → PrpObject} {queue buf : Ref} {b : PrpBuffer} {l : PrpList}
  {bufs : List Ref} {depth qsize size i : Nat} {index : Int} {pos : PyNumber} {q : ℚ}
  {cmd : List Int} {m m' : Memory} {mem : Ref → Memory} {bytes : List (BitVec 8)}

/-! ### Accesses -/

theorem iosqSetitem_eq {sq : IoSq} {index : Nat} (hcmd : cmd.length = 16)
    (hindex : index < sq.sqeList.length) :
    iosqSetitem objects depth sq index cmd mem =
      match locateEntry objects depth sq.queue index 64 with
      | .error e => (.error e, { sq with sqeList := sq.sqeList.set index (some cmd) }, mem)
      | .ok (buf, pos) =>
        if isPrp objects buf then
          ((pyFor (storeDword (bufLen objects buf) pos) cmd.zipIdx (mem buf)).1,
            { sq with sqeList := sq.sqeList.set index (some cmd) },
            Function.update mem buf
              (pyFor (storeDword (bufLen objects buf) pos) cmd.zipIdx (mem buf)).2)
        else
          (.error (.assertion ""), { sq with sqeList := sq.sqeList.set index (some cmd) },
            mem) := by
  have hlist := pyListSet_eq (x := some cmd) hindex
  rw [iosqSetitem, if_neg (by simp [hcmd]), if_neg (by simp [hindex])]
  simp only [hlist]

theorem iocqGetitem_eq {cq : IoCq} {index : Nat} (hindex : index < cq.qsize) :
    iocqGetitem objects depth cq index mem =
      match locateEntry objects depth cq.queue index 16 with
      | .error e => (.error e, mem)
      | .ok (buf, pos) =>
        if isPrp objects buf then
          match pyFor (loadDword (bufLen objects buf) pos) (List.range 4)
              ([0, 0, 0, 0], mem buf) with
          | (.error e, _, m) => (.error e, Function.update mem buf m)
          | (.ok _, cpl, m) => (cqeInit cpl, Function.update mem buf m)
        else (.error (.assertion ""), mem) := by
  rw [iocqGetitem, if_neg (by simp [hindex])]

/-! ### Lists -/

/-- The index in a buffer of a list is a float. -/
theorem locateEntry_list {entrySize : Int} (hqueue : objects queue = .list l)
    (h : locateEntry objects depth queue index entrySize = .ok (buf, pos)) :
    ∃ q, pos = .float q := by
  simp only [locateEntry, hqueue] at h
  split at h
  case h_1 | h_2 => cases h
  case h_3 offset hfind =>
    rw [pyTrueDiv] at h
    split_ifs at h with hsize
    obtain ⟨-, hpos⟩ := Prod.mk.inj (Except.ok.inj h)
    exact ⟨_, hpos.symm⟩

theorem iocqGetitem_list {cq : IoCq} {index : Nat} {p : Int} (hqueue : objects cq.queue = .list l)
    (hindex : index < cq.qsize)
    (hfind : findBufferByOffset objects depth l (index * 16) 0 = .ok (some (buf, p)))
    (hprp : isPrp objects buf) : (iocqGetitem objects depth cq index mem).1 = .error .type := by
  have hlocate : locateEntry objects depth cq.queue index 16 = .ok (buf, .float (p / 16)) := by
    simp [locateEntry, hqueue, hfind, pyTrueDiv]
  rw [iocqGetitem_eq hindex, hlocate]
  simp only [hprp, if_true]
  rfl

theorem not_stores_list (hqueue : objects queue = .list l) (hqsize : 0 < qsize) :
    ¬Stores objects depth queue bufs qsize := by
  intro h
  obtain ⟨mem', hset, -⟩ := h ⟨queue, List.replicate qsize none⟩ 0 (List.replicate 16 0)
    (fun _ => .fresh fun _ => 0#8) rfl (by simp) hqsize (by simp) (by simp)
  rw [iosqSetitem_eq (by simp) (by simpa using hqsize)] at hset
  split at hset
  case h_1 => cases (Prod.mk.inj hset).1
  case h_2 buf pos hlocate =>
    obtain ⟨q, rfl⟩ := locateEntry_list hqueue hlocate
    -- The first byte of the first dword raises.
    split_ifs at hset <;> cases (Prod.mk.inj hset).1

theorem not_loads_list (hqueue : objects queue = .list l) (hqsize : 0 < qsize) :
    ¬Loads objects depth queue bufs qsize := by
  intro h
  obtain ⟨mem', cqe, hget, -⟩ := h ⟨queue, qsize⟩ 0 (fun _ => .fresh fun _ => 0#8) rfl rfl hqsize
  rw [iocqGetitem_eq hqsize] at hget
  split at hget
  case h_1 => cases (Prod.mk.inj hget).1
  case h_2 buf pos hlocate =>
    obtain ⟨q, rfl⟩ := locateEntry_list hqueue hlocate
    split_ifs at hget <;> cases (Prod.mk.inj hget).1

/-! ### Buffers -/

/-- The bytes of a command. -/
def cmdBytes (cmd : List Int) : List (BitVec 8) := cmd.flatMap fun dword => Bytes.ofLe 4 dword.toNat

theorem length_cmdBytes (cmd : List Int) : (cmdBytes cmd).length = cmd.length * 4 := by
  simp [cmdBytes, List.length_flatMap, List.map_const']

theorem pyFor_storeByte (size : Nat) (bytes : List (BitVec 8)) (index : Int) (i j : Nat)
    (m : Memory) :
    pyFor (storeByte size (.int index) i) (bytes.zipIdx j) m =
      bufferSetBytes size (index * 64 + (i * 4 + j)) bytes m := by
  induction bytes generalizing j m with
  | nil => rfl
  | cons x bytes ih =>
    have hpos : index * 64 + ((i : Int) * 4 + (j + 1 : Nat)) = index * 64 + (i * 4 + j) + 1 := by
      omega
    rw [List.zipIdx_cons, pyFor, bufferSetBytes]
    have hstore : storeByte size (.int index) i (x, j) m =
        bufferSetByte size (index * 64 + (i * 4 + j)) x m := rfl
    rw [hstore]
    rcases bufferSetByte size (index * 64 + (i * 4 + j)) x m with ⟨e | u, m'⟩
    · rfl
    · dsimp only
      rw [ih, hpos]

/-- A command is stored as its bytes. -/
theorem pyFor_storeDword (h : ∀ dword ∈ cmd, 0 ≤ dword ∧ dword < 2 ^ 32) (index : Int) (i : Nat)
    (m : Memory) : pyFor (storeDword size (.int index)) (cmd.zipIdx i) m =
      bufferSetBytes size (index * 64 + i * 4) (cmdBytes cmd) m := by
  induction cmd generalizing i m with
  | nil => rfl
  | cons dword cmd ih =>
    obtain ⟨hdword, hcmd⟩ := List.forall_mem_cons.1 h
    have hbytes : intToBytes 4 dword = .ok (Bytes.ofLe 4 dword.toNat) := by
      rw [intToBytes, if_pos ⟨hdword.1, by omega⟩]
    have hpos : index * 64 + (((i + 1 : Nat) : Int)) * 4 =
        index * 64 + i * 4 + ((Bytes.ofLe 4 dword.toNat).length : Int) := by
      rw [Bytes.length_ofLe]
      omega
    have hstore : storeDword size (.int index) (dword, i) m =
        bufferSetBytes size (index * 64 + i * 4) (Bytes.ofLe 4 dword.toNat) m := by
      have hfirst := pyFor_storeByte size (Bytes.ofLe 4 dword.toNat) index i 0 m
      simp only [storeDword, hbytes]
      rw [hfirst, Nat.cast_zero, Int.add_zero]
    rw [List.zipIdx_cons, pyFor, hstore, cmdBytes, List.flatMap_cons, bufferSetBytes_append]
    rcases bufferSetBytes size (index * 64 + i * 4) (Bytes.ofLe 4 dword.toNat) m with ⟨e | u, m'⟩
    · rfl
    · dsimp only
      rw [ih hcmd, hpos]
      rfl

theorem isPrp_buffer (h : objects buf = .buffer b) : isPrp objects buf = b.isPrp := by
  rw [isPrp, h]

theorem bufLen_buffer (h : objects buf = .buffer b) : bufLen objects buf = b.size := by
  rw [bufLen, h]

theorem locateEntry_buffer (hqueue : objects queue = .buffer b) (entrySize : Int) :
    locateEntry objects depth queue index entrySize = .ok (queue, .int index) := by
  rw [locateEntry, hqueue]

/-- In a buffer, a command is stored at its index from the first byte of the buffer on. -/
theorem iosqSetitem_buffer (depth : Nat) (mem : Ref → Memory) {sq : IoSq} {index : Nat}
    (hqueue : objects sq.queue = .buffer b) (hprp : b.isPrp) (hindex : index < sq.sqeList.length)
    (hfits : index * 64 + 64 ≤ b.size) (hcmd : cmd.length = 16)
    (hdwords : ∀ dword ∈ cmd, 0 ≤ dword ∧ dword < 2 ^ 32) :
    ∃ m', iosqSetitem objects depth sq index cmd mem =
        (.ok (), { sq with sqeList := sq.sqeList.set index (some cmd) },
          Function.update mem sq.queue m') ∧
      (∀ k, (hk : k < (cmdBytes cmd).length) →
        m'.bytes (index * 64 + k : Nat) = (cmdBytes cmd)[k]) ∧
      ∀ a, (∀ k < 64, a ≠ (index * 64 + k : Nat)) → m'.bytes a = (mem sq.queue).bytes a := by
  have hlen : (cmdBytes cmd).length = 64 := by rw [length_cmdBytes, hcmd]
  obtain ⟨m', hset⟩ : ∃ m', bufferSetBytes b.size (index * 64 + (0 : Nat) * 4) (cmdBytes cmd)
      (mem sq.queue) = (.ok (), m') :=
    bufferSetBytes_of_fits (by omega) (by omega) _
  obtain ⟨hwritten, hother⟩ := bufferSetBytes_ok hset
  refine ⟨m', ?_, fun k hk => ?_, fun a ha => ?_⟩
  · rw [iosqSetitem_eq hcmd hindex, locateEntry_buffer hqueue]
    simp only [isPrp_buffer hqueue, hprp, if_true, bufLen_buffer hqueue]
    rw [pyFor_storeDword hdwords, hset]
  · rw [← hwritten k hk]
    congr 1
  · refine hother a fun k hk heq => ha k (by omega) ?_
    omega

theorem loadDword_int {index i : Nat} (hfits : index * 16 + i * 4 + 4 ≤ size) (cpl : List Nat)
    (m : Memory) : ∃ m', loadDword size (.int index) i (cpl, m) =
        (.ok (), cpl.set i (m.data.readLe (index * 16 + i * 4) 4), m') ∧ m'.bytes = m.bytes := by
  have hend : (index : Int) * 16 + (i * 4 + 3) + 1 = (index * 16 + i * 4 : Nat) + (4 : Nat) := by
    omega
  have hbegin : (index : Int) * 16 + i * 4 = (index * 16 + i * 4 : Nat) := by omega
  obtain ⟨hdata, hbytes⟩ := bufferData_eq hbegin hend hfits m
  refine ⟨_, ?_, hbytes⟩
  rw [loadDword]
  simp only [PyNumber.mulAdd]
  split
  case h_1 e m' heq => rw [heq] at hdata; cases hdata
  case h_2 v m' heq =>
    rw [heq] at hdata
    rw [heq, Except.ok.inj hdata]

/-- In a buffer, a completion is read at its index from the first byte of the buffer on. -/
theorem iocqGetitem_buffer (depth : Nat) (mem : Ref → Memory) {cq : IoCq} {index : Nat}
    (hqueue : objects cq.queue = .buffer b) (hprp : b.isPrp) (hindex : index < cq.qsize)
    (hfits : index * 16 + 16 ≤ b.size) :
    ∃ m' cqe, iocqGetitem objects depth cq index mem =
        (.ok cqe, Function.update mem cq.queue m') ∧
      (∀ i : Fin 4, cqe.dword i = (mem cq.queue).data.readLe (index * 16 + i * 4) 4) ∧
      m'.bytes = (mem cq.queue).bytes := by
  let word (i : Nat) : Nat := (mem cq.queue).data.readLe (index * 16 + i * 4) 4
  have hload : ∀ i < 4, ∀ (cpl : List Nat) (m : Memory), m.bytes = (mem cq.queue).bytes → ∃ m',
      loadDword b.size (.int index) i (cpl, m) =
          (.ok (), cpl.set i (word i), m') ∧ m'.bytes = (mem cq.queue).bytes := by
    intro i hi cpl m hm
    have hdword : index * 16 + i * 4 + 4 ≤ b.size := by omega
    obtain ⟨m', hstep, hbytes⟩ := loadDword_int hdword cpl m
    have hdata : m.data = (mem cq.queue).data := funext fun k => congrFun hm k
    exact ⟨m', by rw [hstep, hdata], hbytes.trans hm⟩
  obtain ⟨m₀, h₀, hm₀⟩ := hload 0 (by decide) [0, 0, 0, 0] (mem cq.queue) rfl
  obtain ⟨m₁, h₁, hm₁⟩ := hload 1 (by decide) _ m₀ hm₀
  obtain ⟨m₂, h₂, hm₂⟩ := hload 2 (by decide) _ m₁ hm₁
  obtain ⟨m₃, h₃, hm₃⟩ := hload 3 (by decide) _ m₂ hm₂
  refine ⟨m₃, ⟨[word 0, word 1, word 2, word 3], rfl⟩, ?_, fun i => ?_, hm₃⟩
  · rw [iocqGetitem_eq hindex, locateEntry_buffer hqueue]
    simp only [isPrp_buffer hqueue, hprp, if_true, bufLen_buffer hqueue]
    have hrange : List.range 4 = [0, 1, 2, 3] := rfl
    rw [hrange, pyFor_cons h₀, pyFor_cons h₁, pyFor_cons h₂, pyFor_cons h₃]
    rfl
  · match i with
    | 0 | 1 | 2 | 3 => rfl

/-! ### The linear memory of a buffer -/

theorem linear_buffer {k : Nat} (hqueue : objects queue = .buffer b) (hk : k < b.size - b.offset)
    (mem : Ref → Memory) :
    linear (areas objects [queue]) mem k = (mem queue).bytes (b.offset + k : Nat) := by
  rw [linear, areas_cons hqueue, areas_nil, List.append_nil, PrpBuffer.getElem?_area hk]

theorem stores_buffer (hqueue : objects queue = .buffer b) (hprp : b.isPrp) (hoffset : b.offset = 0)
    (hfits : qsize * 64 ≤ b.size) : Stores objects depth queue [queue] qsize := by
  rintro sq index cmd mem rfl rfl hindex hcmd hdwords
  obtain ⟨m', hset, hwritten, hother⟩ := iosqSetitem_buffer depth mem hqueue hprp hindex (by omega)
    hcmd hdwords
  refine ⟨_, hset, fun i hi => ?_, fun buf a ha => ?_⟩
  · have hdword := hdwords _ (List.getElem_mem hi)
    have hbyte : ∀ k < 4, linear (areas objects [sq.queue]) (Function.update mem sq.queue m')
        (index * 64 + i * 4 + k) = BitVec.ofNat 8 (cmd[i].toNat / 256 ^ k) := by
      intro k hk
      have hlen : i * 4 + k < (cmdBytes cmd).length := by rw [length_cmdBytes]; omega
      have hget : (cmdBytes cmd)[i * 4 + k] = BitVec.ofNat 8 (cmd[i].toNat / 256 ^ k) := by
        have hflat := Bytes.getElem?_flatMap (l := cmd) (i := i)
          (fun dword => Bytes.length_ofLe 4 dword.toNat) hk
        rw [← cmdBytes, List.getElem?_eq_getElem hlen, List.getElem?_eq_getElem hi] at hflat
        simpa [hk] using hflat
      rw [linear_buffer hqueue (by omega), Function.update_self, ← hget, ← hwritten _ hlen, hoffset]
      congr 2
      omega
    rw [Bytes.readLe_eq_of_ofLe hbyte, Nat.mod_eq_of_lt (by omega)]
    omega
  · by_cases hbuf : buf = sq.queue
    · subst hbuf
      rw [Function.update_self]
      refine hother a fun k hk heq => ha k hk (index * 64 + k) ?_ heq
      rw [areas_cons hqueue, areas_nil, List.append_nil,
        PrpBuffer.getElem?_area (show index * 64 + k < _ by omega), hoffset, Nat.zero_add]
    · rw [Function.update_of_ne hbuf]

theorem loads_buffer (hqueue : objects queue = .buffer b) (hprp : b.isPrp) (hoffset : b.offset = 0)
    (hfits : qsize * 16 ≤ b.size) : Loads objects depth queue [queue] qsize := by
  rintro cq index mem rfl rfl hindex
  obtain ⟨m', cqe, hget, hdwords, hbytes⟩ := iocqGetitem_buffer depth mem hqueue hprp hindex
    (by omega)
  refine ⟨_, cqe, hget, fun i => ?_, fun buf => ?_⟩
  · rw [hdwords i]
    refine Bytes.readLe_congr fun k hk => ?_
    rw [linear_buffer hqueue (by omega), hoffset, Nat.zero_add]
    rfl
  · by_cases hbuf : buf = cq.queue
    · rw [hbuf, Function.update_self, hbytes]
    · rw [Function.update_of_ne hbuf]

/-- A dword without its last byte. -/
theorem readLe_lt_of_zero {bytes : Bytes} {a : Nat} (h : bytes (a + 3) = 0#8) :
    bytes.readLe a 4 < 2 ^ 24 := by
  rw [Bytes.readLe, h]
  simpa using Bytes.readLe_lt bytes a 3

/-- The last byte of the first entry is not stored, from another offset on. -/
theorem not_stores_offset (hqueue : objects queue = .buffer b) (hprp : b.isPrp)
    (hoffset : b.offset ≠ 0) (hqsize : 0 < qsize) (hfits : qsize * 64 ≤ b.size - b.offset) :
    ¬Stores objects depth queue [queue] qsize := by
  intro h
  have hcmd : (List.replicate 16 (2 ^ 24 : Int)).length = 16 := List.length_replicate
  have hdwords : ∀ dword ∈ List.replicate 16 (2 ^ 24 : Int), 0 ≤ dword ∧ dword < 2 ^ 32 :=
    fun dword hdword => by
      rw [List.eq_of_mem_replicate hdword]
      decide
  obtain ⟨sq, rfl, rfl⟩ : ∃ sq : IoSq, sq.queue = queue ∧ sq.sqeList.length = qsize :=
    ⟨⟨queue, List.replicate qsize none⟩, rfl, List.length_replicate⟩
  obtain ⟨m', hset, -, hother⟩ := iosqSetitem_buffer depth (fun _ => .fresh fun _ => 0#8) hqueue
    hprp hqsize (by omega) hcmd hdwords
  obtain ⟨mem', hset', hstored, -⟩ := h sq 0 _ (fun _ => .fresh fun _ => 0#8) rfl rfl hqsize hcmd
    hdwords
  obtain rfl := (Prod.mk.inj (Prod.mk.inj (hset.symm.trans hset')).2).2
  have hlast := hstored 15 (by simp)
  have hzero : linear (areas objects [sq.queue])
      (Function.update (fun _ => .fresh fun _ => 0#8) sq.queue m') (0 * 64 + 15 * 4 + 3) = 0#8 := by
    rw [linear_buffer hqueue (by omega), Function.update_self]
    exact hother _ fun k hk => by omega
  have hlow := readLe_lt_of_zero hzero
  rw [List.getElem_replicate] at hlast
  exact absurd (Int.ofNat.inj hlast) (Nat.ne_of_lt hlow)

/-- The last byte of the first entry is not loaded, from another offset on. -/
theorem not_loads_offset (hqueue : objects queue = .buffer b) (hprp : b.isPrp)
    (hoffset : b.offset ≠ 0) (hqsize : 0 < qsize) (hfits : qsize * 16 ≤ b.size - b.offset) :
    ¬Loads objects depth queue [queue] qsize := by
  intro h
  let mem (_ : Ref) : Memory := .fresh fun a => if a = (b.offset + 15 : Nat) then 1#8 else 0#8
  have hqueue' : objects (IoCq.mk queue qsize).queue = .buffer b := hqueue
  obtain ⟨m', cqe, hget, hdwords, -⟩ := iocqGetitem_buffer depth mem hqueue' hprp hqsize (by omega)
  obtain ⟨mem', cqe', hget', hloaded, -⟩ := h ⟨queue, qsize⟩ 0 mem rfl rfl hqsize
  obtain rfl : cqe = cqe' := Except.ok.inj (Prod.mk.inj (hget.symm.trans hget')).1
  have hbyte : ∀ k < 4, linear (areas objects [queue]) mem (0 * 16 + 3 * 4 + k) =
      if k = 3 then 1#8 else 0#8 := fun k hk => by
    rw [linear_buffer hqueue (by omega)]
    simp only [mem, Memory.fresh, Nat.cast_inj]
    congr 1
    rw [eq_iff_iff]
    omega
  have hdword : (linear (areas objects [queue]) mem).readLe (0 * 16 + 3 * 4) 4 = 2 ^ 24 := by
    rw [Bytes.readLe_eq_of_ofLe (v := 2 ^ 24)]
    · rfl
    · intro k hk
      rw [hbyte k hk]
      revert k
      decide
  have hlast : (mem queue).data ((0 * 16 + 3 * 4) + 3) = 0#8 := by
    simp only [mem, Memory.data, Memory.fresh]
    rw [if_neg (by omega)]
  have hlow := readLe_lt_of_zero hlast
  have heq := (hdwords 3).symm.trans ((hloaded 3).trans hdword)
  exact absurd heq (Nat.ne_of_lt hlow)

/-- The queue is one buffer, and starts with it. -/
def Contiguous (objects : Ref → PrpObject) (queue : Ref) : Prop :=
  ∃ b, objects queue = .buffer b ∧ b.offset = 0

/-- Entries land at the right place of a queue, and no access raises, if and only if the queue is
    one buffer with offset 0. -/
theorem queue_entries_iff (hback : Backs objects queue bufs) (hqsize : 0 < qsize) :
    (qsize * 64 ≤ (bufs.map (room objects)).sum →
      (Stores objects depth queue bufs qsize ↔ Contiguous objects queue)) ∧
    (qsize * 16 ≤ (bufs.map (room objects)).sum →
      (Loads objects depth queue bufs qsize ↔ Contiguous objects queue)) := by
  cases hback with
  | list hqueue hchain =>
    have hnot : ¬Contiguous objects queue := by
      rintro ⟨b, hb, -⟩
      rw [hqueue] at hb
      cases hb
    exact ⟨fun _ => iff_of_false (not_stores_list hqueue hqsize) hnot,
      fun _ => iff_of_false (not_loads_list hqueue hqsize) hnot⟩
  | @buffer b hqueue hprp hoffset =>
    have hroom : ([queue].map (room objects)).sum = b.size - b.offset := by simp [room, hqueue]
    have hiff : Contiguous objects queue ↔ b.offset = 0 := by simp [Contiguous, hqueue]
    rw [hroom, hiff]
    constructor
    · intro hfits
      refine ⟨fun h => ?_, fun hzero => stores_buffer hqueue hprp hzero (by omega)⟩
      by_contra hne
      exact not_stores_offset hqueue hprp hne hqsize hfits h
    · intro hfits
      refine ⟨fun h => ?_, fun hzero => loads_buffer hqueue hprp hzero (by omega)⟩
      by_contra hne
      exact not_loads_offset hqueue hprp hne hqsize hfits h

/-- A submission queue of four entries in one page. -/
theorem queue_entries_page : Stores (fun _ => .buffer ⟨true, 4096, 0⟩) 0 0 [0] 4 :=
  ((queue_entries_iff (.buffer (b := ⟨true, 4096, 0⟩) rfl rfl (by decide)) (by decide)).1
    (by decide)).2 ⟨_, rfl, rfl⟩

/-- A completion queue of four entries, in the chain of two lists, is not read. -/
theorem queue_entries_list_raises : Backs twoLists 0 [1, 3, 4, 5, 6] ∧
    4 * 16 ≤ ([1, 3, 4, 5, 6].map (room twoLists)).sum ∧
    ¬Loads twoLists 2 0 [1, 3, 4, 5, 6] 4 ∧
      ∀ mem, (iocqGetitem twoLists 2 ⟨0, 4⟩ (0 : Nat) mem).1 = .error .type := by
  refine ⟨.list rfl chain_twoLists, by decide, not_loads_list rfl (by decide), fun mem => ?_⟩
  have hfind : findBufferByOffset twoLists 2 firstList ((0 : Nat) * 16) 0 =
      .ok (some (1, ((4096 - 64 : Nat) : Int))) := by
    obtain ⟨buf, p, hfind, hget⟩ := findBufferByOffset_of_chain chain_twoLists (o := 0) (by decide)
      (by decide : 1 < 2)
    have harea : (areas twoLists [1, 3, 4, 5, 6])[0]? = some (1, 4096 - 64) := by decide +kernel
    obtain ⟨rfl, rfl⟩ := Prod.mk.inj (Option.some.inj (hget.symm.trans harea))
    exact hfind
  exact iocqGetitem_list (l := firstList) rfl (by decide) hfind rfl

end Pynvme.Psd
