import Pynvme.Psd.Queue
import Pynvme.Lib.Machine

/-!
# The memory of the PRP lists

`PRPList.__setitem__` keeps a buffer in `buf_list` for the script, and writes its physical
address to the page of the list for the device. The device reads a transfer from the page on:
each entry is the address of a page of the transfer, from the offset of the address on, but
the last entry of a page, with more than a page left to transfer, is the address of a further
list (`DeviceReads`).

The entries in memory are those of `buf_list`, as long as no offset is changed of a buffer
that is in a list (`prp_entries_of_reachable`). Then the device transfers, one after the
other, the bytes that `find_buffer_by_offset` finds (`prp_device_reads`).
-/

namespace Pynvme.Psd

open Word

/-- The buffers and lists of a script, and their memory. -/
structure PrpState where
  objects : Ref → PrpObject
  mem : Ref → Memory

/-- `buf.offset` -/
def PrpObject.offset : PrpObject → Nat
  | .buffer b => b.offset
  | .list l => l.offset

/-- `buf.offset = offset` -/
def PrpObject.setOffset (offset : Nat) : PrpObject → PrpObject
  | .buffer b => .buffer { b with offset }
  | .list l => .list { l with offset }

/-- `super(PRPList, self).__setitem__(index*8 + i, b)` -/
def storeAddrByte (index : Int) (x : BitVec 8 × Nat) (m : Memory) : Except PyError Unit × Memory :=
  bufferSetitem 4096 m (.num (.int (index * 8 + x.2))) (.byte x.1)

/-- `PRPList.__setitem__`, of a buffer with the physical address `addr`. -/
def prpListSetitem (addr : Nat) (l : PrpList) (index : Int) (buf : Ref) (m : Memory) :
    Except PyError Unit × PrpList × Memory :=
  if index < prpPerList then
    match pyIndex prpPerList index with
    | .error e => (.error e, l, m)
    | .ok i =>
      let l := { l with bufList := l.bufList.setIfInBounds i (some buf) }
      -- fill PRP into PRP List
      match intToBytes 8 addr with
      | .error e => (.error e, l, m)
      | .ok bytes =>
        let (r, m) := pyFor (storeAddrByte index) bytes.zipIdx m
        (r, l, m)
  else (.error (.assertion "4K PRP List contains 512 PRP entries only"), l, m)

section

variable (base : Ref → Nat)

/-- `Buffer.phys_addr`, an `unsigned long`. -/
def physAddr (objects : Ref → PrpObject) (buf : Ref) : Nat := u64 (base buf + (objects buf).offset)

/-- A script inserts a buffer into a list, or sets an offset, or the memory of a buffer
    changes. -/
inductive PrpEvent
  | insert (list : Ref) (index : Int) (buf : Ref)
  | offset (buf : Ref) (offset : Nat)
  | data (buf : Ref) (m : Memory)

def prpStep (s : PrpState) : PrpEvent → Option PrpState
  | .insert list index buf =>
    match s.objects list with
    | .buffer _ => none
    | .list l =>
      let (_, l, m) := prpListSetitem (physAddr base s.objects buf) l index buf (s.mem list)
      some ⟨Function.update s.objects list (.list l), Function.update s.mem list m⟩
  | .offset buf offset =>
    some { s with objects := Function.update s.objects buf ((s.objects buf).setOffset offset) }
  | .data buf m =>
    match s.objects buf with
    | .buffer _ => some { s with mem := Function.update s.mem buf m }
    | .list _ => none

/-- The lists, to begin with empty, of a script whose buffers are at `base`. -/
def prpMachine : Machine PrpState PrpEvent where
  init s := ∀ list l, s.objects list = .list l → ∀ buf, some buf ∉ l.bufList.toList
  step := prpStep base

end

/-- The entries are set inside the lists, and the offset of a buffer is set before it is in
    one. -/
def PrpRule (s : PrpState) : PrpEvent → Prop
  | .insert _ index _ => 0 ≤ index ∧ index < prpPerList
  | .offset buf _ => ∀ list l, s.objects list = .list l → some buf ∉ l.bufList.toList
  | .data _ _ => True

/-! ### The entries in memory -/

variable {base : Ref → Nat} {s s' : PrpState} {list buf : Ref} {l : PrpList} {i len : Nat}
  {m : Memory} {e : PrpEvent}

theorem pyFor_storeAddrByte (bytes : List (BitVec 8)) (index : Int) (j : Nat) (m : Memory) :
    pyFor (storeAddrByte index) (bytes.zipIdx j) m =
      bufferSetBytes 4096 (index * 8 + j) bytes m := by
  induction bytes generalizing j m with
  | nil => rfl
  | cons x bytes ih =>
    have hstore : storeAddrByte index (x, j) m = bufferSetByte 4096 (index * 8 + j) x m := rfl
    rw [List.zipIdx_cons, pyFor, bufferSetBytes, hstore]
    rcases bufferSetByte 4096 (index * 8 + j) x m with ⟨e | u, m'⟩
    · rfl
    · dsimp only
      rw [ih, Nat.cast_add, Nat.cast_one, Int.add_assoc]

/-- An entry is set, in the list and in its memory, and no other entry changes. -/
theorem prpListSetitem_eq {addr : Nat} (haddr : addr < 2 ^ 64) (hi : i < prpPerList) (l : PrpList)
    (buf : Ref) (m : Memory) : ∃ m', prpListSetitem addr l i buf m =
        (.ok (), { l with bufList := l.bufList.setIfInBounds i (some buf) }, m') ∧
      m'.data.readLe (8 * i) 8 = addr ∧
      ∀ j, j ≠ i → m'.data.readLe (8 * j) 8 = m.data.readLe (8 * j) 8 := by
  have hpow : (256 : Nat) ^ 8 = 2 ^ 64 := rfl
  have hbytes : intToBytes 8 addr = .ok (Bytes.ofLe 8 addr) := by
    have hfits : (addr : Int) < 256 ^ 8 := by omega
    rw [intToBytes, if_pos ⟨Int.natCast_nonneg addr, hfits⟩, Int.toNat_natCast]
  have hi' : i < 512 := hi
  obtain ⟨m', hset⟩ : ∃ m', bufferSetBytes 4096 (i * 8 + (0 : Nat)) (Bytes.ofLe 8 addr) m =
      (.ok (), m') :=
    bufferSetBytes_of_fits (by omega) (by rw [Bytes.length_ofLe]; omega) _
  obtain ⟨hwritten, hother⟩ := bufferSetBytes_ok hset
  rw [Bytes.length_ofLe] at hother
  refine ⟨m', ?_, ?_, fun j hj => Bytes.readLe_congr fun k hk => ?_⟩
  · rw [prpListSetitem, if_pos (by exact_mod_cast hi), hbytes, pyIndex_eq hi]
    dsimp only
    rw [pyFor_storeAddrByte, hset]
  · rw [Bytes.readLe_eq_of_ofLe (v := addr)]
    · exact Nat.mod_eq_of_lt (haddr.trans_eq hpow.symm)
    · intro k hk
      have hpos : ((8 * i + k : Nat) : Int) = i * 8 + (0 : Nat) + k := by omega
      rw [Memory.data, hpos, hwritten k (by rwa [Bytes.length_ofLe]), Bytes.getElem_ofLe]
  · refine hother _ fun k' hk' heq => hj ?_
    omega

/-- The entries in the memory of the lists are the addresses of the buffers. -/
def Coherent (base : Ref → Nat) (s : PrpState) : Prop :=
  ∀ list l i buf, s.objects list = .list l → l.bufList.toList[i]? = some (some buf) →
    (s.mem list).data.readLe (8 * i) 8 = physAddr base s.objects buf

theorem physAddr_congr {objects objects' : Ref → PrpObject}
    (h : (objects buf).offset = (objects' buf).offset) :
    physAddr base objects buf = physAddr base objects' buf := by
  rw [physAddr, physAddr, h]

theorem physAddr_lt (objects : Ref → PrpObject) (buf : Ref) : physAddr base objects buf < 2 ^ 64 :=
  Nat.mod_lt _ (by decide)

/-- A buffer is inserted, in the list and in its memory. -/
theorem prpStep_insert (base : Ref → Nat) (buf : Ref) (hlist : s.objects list = .list l)
    (hi : i < prpPerList) :
    ∃ m, prpStep base s (.insert list i buf) = some
        ⟨Function.update s.objects list
          (.list { l with bufList := l.bufList.setIfInBounds i (some buf) }),
        Function.update s.mem list m⟩ ∧
      m.data.readLe (8 * i) 8 = physAddr base s.objects buf ∧
      ∀ j, j ≠ i → m.data.readLe (8 * j) 8 = (s.mem list).data.readLe (8 * j) 8 := by
  obtain ⟨m, hset, hentry, hother⟩ :=
    prpListSetitem_eq (physAddr_lt s.objects buf) hi l buf (s.mem list)
  exact ⟨m, by rw [prpStep]; simp only [hlist, hset], hentry, hother⟩

theorem Coherent.insert (h : Coherent base s) (hi : i < prpPerList)
    (hstep : prpStep base s (.insert list i buf) = some s') : Coherent base s' := by
  rcases hlist : s.objects list with b | l
  · simp [prpStep, hlist] at hstep
  obtain ⟨m, hset, hentry, hother⟩ := prpStep_insert base buf hlist hi
  obtain rfl := Option.some.inj (hset.symm.trans hstep)
  have hoffset : ∀ r, ((Function.update s.objects list
      (.list { l with bufList := l.bufList.setIfInBounds i (some buf) })) r).offset =
        (s.objects r).offset := by
    intro r
    rcases eq_or_ne r list with rfl | hr
    · rw [Function.update_self, hlist]
      rfl
    · rw [Function.update_of_ne hr]
  intro list' l' j r hlist' hget
  rw [physAddr_congr (hoffset r)]
  dsimp only at hlist' ⊢
  rcases eq_or_ne list' list with rfl | hne
  · rw [Function.update_self, PrpObject.list.injEq] at hlist'
    subst hlist'
    rw [Function.update_self]
    rw [Vector.toList_setIfInBounds, List.getElem?_set] at hget
    split_ifs at hget with hj
    · obtain rfl := hj
      obtain rfl := Option.some.inj (Option.some.inj hget)
      exact hentry
    · rw [hother j (Ne.symm hj)]
      exact h list' l j r hlist hget
  · rw [Function.update_of_ne hne] at hlist' ⊢
    exact h list' l' j r hlist' hget

theorem Coherent.offset {offset : Nat} (h : Coherent base s)
    (hfree : ∀ list l, s.objects list = .list l → some buf ∉ l.bufList.toList) :
    Coherent base
      { s with objects := Function.update s.objects buf ((s.objects buf).setOffset offset) } := by
  -- The list, before it gets a new offset, has the same entries.
  have hold : ∀ list l,
      Function.update s.objects buf ((s.objects buf).setOffset offset) list = .list l →
        ∃ l₀, s.objects list = .list l₀ ∧ l₀.bufList = l.bufList := by
    intro list l hlist
    rcases eq_or_ne list buf with rfl | hne
    · rw [Function.update_self] at hlist
      rcases hobj : s.objects list with b | l₀
      · simp [hobj, PrpObject.setOffset] at hlist
      · rw [hobj, PrpObject.setOffset, PrpObject.list.injEq] at hlist
        exact ⟨l₀, rfl, hlist ▸ rfl⟩
    · rw [Function.update_of_ne hne] at hlist
      exact ⟨l, hlist, rfl⟩
  intro list l i r hlist hget
  obtain ⟨l₀, hlist₀, hbufs⟩ := hold list l hlist
  rw [← hbufs] at hget
  have hr : r ≠ buf := fun heq => hfree list l₀ hlist₀ (heq ▸ List.mem_of_getElem? hget)
  rw [h list l₀ i r hlist₀ hget]
  exact physAddr_congr (by dsimp only; rw [Function.update_of_ne hr])

theorem Coherent.step (h : Coherent base s) (hrule : PrpRule s e)
    (hstep : prpStep base s e = some s') : Coherent base s' := by
  cases e with
  | insert list index buf =>
    obtain ⟨i, rfl⟩ := Int.eq_ofNat_of_zero_le hrule.1
    exact h.insert (by exact_mod_cast hrule.2) hstep
  | offset buf offset =>
    obtain rfl := Option.some.inj hstep
    exact h.offset hrule
  | data buf m =>
    rw [prpStep] at hstep
    split at hstep
    case h_1 b hbuf =>
      obtain rfl := Option.some.inj hstep
      intro list l i r hlist hget
      have hne : list ≠ buf := by
        rintro rfl
        simp [hbuf] at hlist
      rw [← h list l i r hlist hget]
      dsimp only
      rw [Function.update_of_ne hne]
    case h_2 => cases hstep

/-- In every state, the entries in memory are the addresses of the buffers of the list. -/
theorem prp_entries_of_reachable (h : (prpMachine base).Reachable PrpRule s) : Coherent base s :=
  h.invariant
    (fun _ hinit list l _ buf hlist hget =>
      absurd (List.mem_of_getElem? hget) (hinit list l hlist buf))
    fun _ _ _ hs hrule hstep => hs.step hrule hstep

/-! ### The device -/

/-- A device that transfers `len` bytes from the entry at `a` on accesses the bytes at `addrs`,
    one after the other, in the memory `phys`. -/
inductive DeviceReads (phys : Bytes) : Nat → Nat → List Nat → Prop
  | done (a : Nat) : DeviceReads phys a 0 []
  | data {a e len : Nat} {addrs : List Nat} (hentry : phys.readLe a 8 = e) (hlen : 0 < len)
      (hdata : ¬(a % 4096 = 4088 ∧ 4096 < len))
      (h : DeviceReads phys (a + 8) (len - (4096 - e % 4096)) addrs) :
      DeviceReads phys a len (List.range' e (min len (4096 - e % 4096)) ++ addrs)
  | list {a e len : Nat} {addrs : List Nat} (hentry : phys.readLe a 8 = e)
      (hlast : a % 4096 = 4088) (hlen : 4096 < len) (h : DeviceReads phys e len addrs) :
      DeviceReads phys a len addrs

/-- The entries `entries`, and at most `n` further lists, have the pages `bufs` of a transfer of
    `len` bytes. The last entry of a list is a further list if and only if more than a page is
    left. -/
inductive Covers (objects : Ref → PrpObject) : Nat → List (Option Ref) → Nat → List Ref → Prop
  | done (n : Nat) (entries : List (Option Ref)) : Covers objects n entries 0 []
  | buffer {n len : Nat} {buf : Ref} {b : PrpBuffer} {entries : List (Option Ref)}
      {bufs : List Ref} (hbuf : objects buf = .buffer b) (hsize : b.size = 4096)
      (hoffset : b.offset < 4096) (hlen : 0 < len) (hlast : entries = [] → len ≤ 4096)
      (h : Covers objects n entries (len - (4096 - b.offset)) bufs) :
      Covers objects n (some buf :: entries) len (buf :: bufs)
  | list {n len : Nat} {buf : Ref} {l : PrpList} {bufs : List Ref} (hbuf : objects buf = .list l)
      (hstart : l.offset < 4096) (haligned : l.offset % 8 = 0) (hlen : 4096 < len)
      (h : Covers objects n l.visited len bufs) : Covers objects (n + 1) [some buf] len bufs

/-- The pages of the lists are in the memory `phys`. -/
def Mapped (base : Ref → Nat) (s : PrpState) (phys : Bytes) : Prop :=
  ∀ list l, s.objects list = .list l → ∀ k < 4096, phys (base list + k) = (s.mem list).data k

variable {objects : Ref → PrpObject} {entries : List (Option Ref)} {bufs : List Ref} {n : Nat}
  {phys : Bytes}

/-- The walk through the entries comes to the pages, which have the bytes of the transfer. -/
theorem Covers.walk (h : Covers objects n entries len bufs) :
    Walk objects n entries bufs ∧ len ≤ (bufs.map (room objects)).sum := by
  induction h with
  | done n entries => exact ⟨.stop n entries, Nat.zero_le _⟩
  | @buffer n len buf b entries bufs hbuf hsize hoffset hlen hlast h ih =>
    refine ⟨.buffer hbuf (hsize ▸ hoffset.le) ih.1, ?_⟩
    have hroom : room objects buf = 4096 - b.offset := by simp only [room, hbuf, hsize]
    rw [List.map_cons, List.sum_cons, hroom]
    omega
  | list hbuf _ _ _ _ ih => exact ⟨.list hbuf ih.1, ih.2⟩

/-- The bytes of a transfer are those of its pages, up to its length. -/
def transferred (base : Ref → Nat) (objects : Ref → PrpObject) (bufs : List Ref) (len : Nat) :
    List Nat :=
  ((areas objects bufs).take len).map fun x => base x.1 + x.2

theorem transferred_cons {b : PrpBuffer} (hbuf : objects buf = .buffer b) (hsize : b.size = 4096) :
    transferred base objects (buf :: bufs) len =
      List.range' (base buf + b.offset) (min len (4096 - b.offset)) ++
        transferred base objects bufs (len - (4096 - b.offset)) := by
  have harea : ((b.area buf).take len).map (fun x => base x.1 + x.2) =
      List.range' (base buf + b.offset) (min len (4096 - b.offset)) := by
    refine List.ext_getElem (by simp [hsize]) fun j hj _ => ?_
    simp [PrpBuffer.area, Nat.add_assoc]
  rw [transferred, areas_cons hbuf, List.take_append, List.map_append, harea,
    PrpBuffer.length_area, hsize, transferred]

theorem physAddr_eq {a : Nat} (hbase : base buf % 4096 = 0 ∧ base buf < 2 ^ 64)
    (hoffset : (objects buf).offset = a) (ha : a < 4096) :
    physAddr base objects buf = base buf + a := by
  rw [physAddr, hoffset, u64, Nat.mod_eq_of_lt]
  omega

/-- The entries of a list, from the `k`th on, are those that the device reads in its page. -/
theorem Covers.deviceReads (hcoherent : Coherent base s)
    (hbase : ∀ r, base r % 4096 = 0 ∧ base r < 2 ^ 64) (hphys : Mapped base s phys)
    (h : Covers s.objects n entries len bufs) :
    ∀ {list l k}, s.objects list = .list l → entries = l.bufList.toList.drop k →
      DeviceReads phys (base list + 8 * k) len (transferred base s.objects bufs len) := by
  have hread : ∀ {list l k r}, s.objects list = .list l →
      l.bufList.toList[k]? = some (some r) →
        phys.readLe (base list + 8 * k) 8 = physAddr base s.objects r := by
    intro list l k r hlist hget
    have hk : k < 512 := by simpa using (List.getElem?_eq_some_iff.1 hget).1
    rw [← hcoherent list l k r hlist hget]
    refine Bytes.readLe_congr fun j hj => ?_
    rw [Nat.add_assoc]
    exact hphys list l hlist _ (by omega)
  induction h with
  | done n entries => exact fun _ _ => .done _
  | @buffer n len buf b entries bufs hbuf hsize hoffset hlen hlast h ih =>
    intro list l k hlist hentries
    have hget : l.bufList.toList[k]? = some (some buf) := by
      rw [← List.head?_drop, ← hentries]
      rfl
    have hrest : entries = l.bufList.toList.drop (k + 1) := by
      rw [← List.tail_drop, ← hentries]
      rfl
    have hentry : phys.readLe (base list + 8 * k) 8 = base buf + b.offset := by
      rw [hread hlist hget]
      exact physAddr_eq (hbase buf) (by rw [hbuf, PrpObject.offset]) hoffset
    have hmod : (base buf + b.offset) % 4096 = b.offset := by
      have := (hbase buf).1
      omega
    have hdata : ¬((base list + 8 * k) % 4096 = 4088 ∧ 4096 < len) := by
      -- More than a page is left in front of a further entry only.
      rintro ⟨hpage, hmore⟩
      have hk : k < 512 := by simpa using (List.getElem?_eq_some_iff.1 hget).1
      have hbaseList := (hbase list).1
      have hend : entries = [] := by
        rw [hrest, List.drop_eq_nil_iff, Vector.length_toList, prpPerList]
        omega
      have := hlast hend
      omega
    have hnext : DeviceReads phys (base list + 8 * k + 8)
        (len - (4096 - (base buf + b.offset) % 4096))
        (transferred base s.objects bufs (len - (4096 - b.offset))) := by
      rw [hmod, Nat.add_assoc]
      exact ih hlist hrest
    have hreads := DeviceReads.data hentry hlen hdata hnext
    rwa [hmod, ← transferred_cons hbuf hsize] at hreads
  | @list n len buf l' bufs hbuf hstart haligned hlen h ih =>
    intro list l k hlist hentries
    have hget : l.bufList.toList[k]? = some (some buf) := by
      rw [← List.head?_drop, ← hentries]
      rfl
    have hk : k + 1 = 512 := by
      have hlength := congrArg List.length hentries
      rw [List.length_drop, Vector.length_toList, List.length_singleton, prpPerList] at hlength
      omega
    have hentry : phys.readLe (base list + 8 * k) 8 = base buf + 8 * (l'.offset / 8) := by
      rw [hread hlist hget, physAddr_eq (hbase buf) (by rw [hbuf, PrpObject.offset]) hstart]
      omega
    have hpage := (hbase list).1
    exact .list hentry (by omega) hlen (ih hbuf rfl)

/-- The device accesses the bytes in one way only. -/
theorem DeviceReads.unique {a : Nat} {addrs addrs' : List Nat} (h : DeviceReads phys a len addrs)
    (h' : DeviceReads phys a len addrs') : addrs' = addrs := by
  induction h generalizing addrs' with
  | done a =>
    cases h' with
    | done => rfl
    | data _ hlen => exact absurd hlen (Nat.lt_irrefl 0)
    | list _ _ hlen => exact absurd hlen (Nat.not_lt_zero _)
  | data hentry hlen hdata _ ih =>
    cases h' with
    | done => exact absurd hlen (Nat.lt_irrefl 0)
    | data hentry' _ _ h' =>
      subst hentry hentry'
      rw [ih h']
    | list _ hlast hmore => exact absurd ⟨hlast, hmore⟩ hdata
  | list hentry hlast hlen _ ih =>
    cases h' with
    | done => exact absurd hlen (Nat.not_lt_zero _)
    | data _ _ hdata => exact absurd ⟨hlast, hlen⟩ hdata
    | list hentry' _ _ h' =>
      subst hentry hentry'
      exact ih h'

/-- A transfer with the chain of lists from `list` on: the device accesses bytes at the addresses
    `addrs` and at no other ones, and the script finds the same bytes. -/
theorem prp_device_reads {depth : Nat} (h : (prpMachine base).Reachable PrpRule s)
    (hbase : ∀ r, base r % 4096 = 0 ∧ base r < 2 ^ 64) (hphys : Mapped base s phys)
    (hlist : s.objects list = .list l) (hstart : l.offset < 4096) (haligned : l.offset % 8 = 0)
    (hcovers : Covers s.objects n l.visited len bufs) (hdepth : n < depth) :
    ∃ addrs, addrs.length = len ∧
      (∀ addrs', DeviceReads phys (physAddr base s.objects list) len addrs' ↔ addrs' = addrs) ∧
      ∀ o < len, ∃ buf p : Nat,
        findBufferByOffset s.objects depth l o 0 = .ok (some (buf, (p : Int))) ∧
        addrs[o]? = some (base buf + p) := by
  obtain ⟨hwalk, hlen⟩ := hcovers.walk
  have hreads : DeviceReads phys (physAddr base s.objects list) len
      (transferred base s.objects bufs len) := by
    have hpage := hcovers.deviceReads (prp_entries_of_reachable h) hbase hphys hlist rfl
    rw [physAddr_eq (hbase list) (by rw [hlist, PrpObject.offset]) hstart]
    rwa [Nat.mul_div_cancel' (Nat.dvd_of_mod_eq_zero haligned)] at hpage
  refine ⟨_, ?_, fun addrs' => ⟨hreads.unique, fun heq => heq ▸ hreads⟩, fun o ho => ?_⟩
  · rw [transferred, List.length_map, List.length_take, length_areas, Nat.min_eq_left hlen]
  · obtain ⟨buf, p, hfind, hget⟩ := findBufferByOffset_of_chain hwalk (ho.trans_le hlen) hdepth
    refine ⟨buf, p, hfind, ?_⟩
    rw [transferred, List.getElem?_map, List.getElem?_take_of_lt ho, hget]
    rfl

/-- A run goes on with a buffer that is inserted. -/
theorem reachable_insert (list buf : Ref) (h : (prpMachine base).Reachable PrpRule s)
    (hlist : s.objects list = .list l) (hi : i < prpPerList) :
    ∃ mem, (prpMachine base).Reachable PrpRule ⟨Function.update s.objects list
      (.list { l with bufList := l.bufList.setIfInBounds i (some buf) }), mem⟩ := by
  obtain ⟨m, hstep, -⟩ := prpStep_insert base buf hlist hi
  have hrule : PrpRule s (.insert list i buf) :=
    ⟨Int.natCast_nonneg i, Int.ofNat_lt.2 hi⟩
  exact ⟨_, h.step hrule hstep⟩

/-- Pages one after the other. -/
def pageBase (r : Ref) : Nat := if r < 8 then 4096 * (r + 1) else 0

/-- Two empty lists, the first one used from its last entry but one on, the last 64 bytes of a
    page, and pages. -/
def emptyLists : Ref → PrpObject
  | 0 => .list ⟨4096 - 16, Vector.replicate prpPerList none⟩
  | 1 => .buffer ⟨true, 4096, 4096 - 64⟩
  | 2 => .list ⟨0, Vector.replicate prpPerList none⟩
  | _ => .buffer ⟨true, 4096, 0⟩

/-- The first list with its entries: 64 bytes, and the further list. -/
def filledFirst : PrpList :=
  ⟨4096 - 16, ((Vector.replicate prpPerList none).setIfInBounds 510 (some 1)).setIfInBounds 511
    (some 2)⟩

/-- The further list, of two pages. -/
def filledSecond : PrpList :=
  ⟨0, ((Vector.replicate prpPerList none).setIfInBounds 0 (some 3)).setIfInBounds 1 (some 4)⟩

def filledLists : Ref → PrpObject :=
  Function.update (Function.update emptyLists 0 (.list filledFirst)) 2 (.list filledSecond)

theorem reachable_filledLists :
    ∃ mem, (prpMachine pageBase).Reachable PrpRule ⟨filledLists, mem⟩ := by
  have hinit : (prpMachine pageBase).Reachable PrpRule
      ⟨emptyLists, fun _ => Memory.fresh fun _ => 0⟩ := by
    refine .init fun list l hlist buf hbuf => ?_
    have hempty : l.bufList = Vector.replicate prpPerList none := by
      match list with
      | 0 => exact (PrpObject.list.inj hlist) ▸ rfl
      | 2 => exact (PrpObject.list.inj hlist) ▸ rfl
      | 1 => cases hlist
      | _ + 3 => cases hlist
    simp [hempty] at hbuf
  obtain ⟨m₁, h₁⟩ := reachable_insert 0 1 hinit rfl (by decide : 510 < prpPerList)
  obtain ⟨m₂, h₂⟩ := reachable_insert 0 2 h₁ rfl (by decide : 511 < prpPerList)
  obtain ⟨m₃, h₃⟩ := reachable_insert 2 3 h₂ rfl (by decide : 0 < prpPerList)
  obtain ⟨m₄, h₄⟩ := reachable_insert 2 4 h₃ rfl (by decide : 1 < prpPerList)
  rw [Function.update_idem, Function.update_idem] at h₄
  exact ⟨m₄, h₄⟩

theorem covers_filledLists : Covers filledLists 1 filledFirst.visited 4170 [1, 3, 4] := by
  have hfirst : filledFirst.visited = [some 1, some 2] := by decide +kernel
  have hsecond : filledSecond.visited = some 3 :: some 4 :: filledSecond.visited.drop 2 := by
    decide +kernel
  rw [hfirst]
  refine .buffer (b := ⟨true, 4096, 4096 - 64⟩) rfl rfl (by decide) (by decide) (by simp)
    (.list (l := filledSecond) rfl (by decide) rfl (by decide) ?_)
  rw [hsecond]
  exact .buffer (b := ⟨true, 4096, 0⟩) rfl rfl (by decide) (by decide) (by simp)
    (.buffer (b := ⟨true, 4096, 0⟩) rfl rfl (by decide) (by decide) (fun _ => by decide)
      (.done 0 _))

/-- The first 64 bytes are in the one page, and the others in the pages of the further list. -/
theorem prp_device_reads_filled_lists : ∃ mem phys,
    (prpMachine pageBase).Reachable PrpRule ⟨filledLists, mem⟩ ∧
      ∃ addrs, addrs.length = 4170 ∧
      (∀ addrs', DeviceReads phys (physAddr pageBase filledLists 0) 4170 addrs' ↔
        addrs' = addrs) := by
  obtain ⟨mem, h⟩ := reachable_filledLists
  refine ⟨mem, fun a => (mem (a / 4096 - 1)).data (a % 4096), h, ?_⟩
  have hpage : ∀ r : Nat, r < 8 → pageBase r = 4096 * (r + 1) := fun r hr => if_pos hr
  have hbase : ∀ r : Nat, pageBase r % 4096 = 0 ∧ pageBase r < 2 ^ 64 := by
    intro r
    rcases Nat.lt_or_ge r 8 with hr | hr
    · rw [hpage r hr]
      omega
    · rw [pageBase, if_neg (Nat.not_lt.2 hr)]
      decide
  have hphys : Mapped pageBase ⟨filledLists, mem⟩
      fun a => (mem (a / 4096 - 1)).data (a % 4096) := by
    intro (list : Nat) l hlist k hk
    have hlt : list < 8 := by
      by_contra hge
      obtain ⟨r, rfl⟩ : ∃ r, list = r + 3 := ⟨list - 3, by omega⟩
      cases hlist
    have haddr : (pageBase list + k) / 4096 - 1 = list ∧ (pageBase list + k) % 4096 = k := by
      rw [hpage list hlt]
      omega
    dsimp only
    rw [haddr.1, haddr.2]
  have hfirst : (⟨filledLists, mem⟩ : PrpState).objects 0 = .list filledFirst := rfl
  obtain ⟨addrs, hlen, hreads, -⟩ := prp_device_reads h hbase hphys hfirst (by decide) rfl
    covers_filledLists (by decide : 1 < 2)
  exact ⟨addrs, hlen, hreads⟩

end Pynvme.Psd
