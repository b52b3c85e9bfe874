import Pynvme.Script.Python

/-!
# PRP lists

The memory of a queue, or of the data of a command, is a buffer (`PRP`), or the buffers of
a PRP list: a page that has the addresses of 512 others. The last entry may be a further
list, so that lists form a chain. The offset of a buffer, or of a list, is where it starts
in its page.

The bytes of the buffers of a chain, from their offsets on and one buffer after the other,
are a linear memory (`areas`), and `PRPList.find_buffer_by_offset` finds its bytes
(`find_buffer_by_offset_exact`).
-/

namespace Pynvme.Psd

/-- A reference to an object. -/
abbrev Ref := Nat

/-- A buffer: whether it is a `PRP`, `len(buf)` and `buf.offset`. -/
structure PrpBuffer where
  isPrp : Bool
  size : Nat
  offset : Nat

/-- `PRPList.prp_per_list` -/
abbrev prpPerList : Nat := 512

/-- A list: its offset and `buf_list`. -/
structure PrpList where
  offset : Nat
  bufList : Vector (Option Ref) prpPerList

/-- What a reference refers to. -/
inductive PrpObject
  | buffer (b : PrpBuffer)
  | list (l : PrpList)

/-- The entries that the walk through a list visits, unless it ends before. -/
def PrpList.visited (l : PrpList) : List (Option Ref) := l.bufList.toList.drop (l.offset / 8)

/-- The last entry. -/
def PrpList.last (l : PrpList) : Option Ref := l.bufList[prpPerList - 1]

section

variable (objects : Ref → PrpObject)

/-- The loop of `PRPList.find_buffer_by_offset` over entries, with `follow` for the call on a
    further list. -/
def findInEntries (follow : PrpList → Int → Except PyError (Option (Ref × Int)))
    (last : Option Ref) (offset : Int) :
    List (Option Ref) → Int → Except PyError (Option (Ref × Int))
  | [], _ => .ok none
  | none :: _, _ => .error (.assertion "")
  | some buf :: entries, start =>
    match objects buf with
    -- the last entry could be another PRPList
    | .list l => if some buf = last then follow l start else .error (.assertion "")
    | .buffer b =>
      let origStart := start
      let start := start + (b.size - b.offset)
      if start > offset then .ok (some (buf, b.offset + offset - origStart))
      else findInEntries follow last offset entries start

/-- `PRPList.find_buffer_by_offset`, with at most `depth` calls one in the other. -/
def findBufferByOffset : Nat → PrpList → Int → Int → Except PyError (Option (Ref × Int))
  | 0, _, _, _ => .error .recursion
  | depth + 1, l, offset, start =>
    findInEntries objects (fun l start => findBufferByOffset depth l offset start) l.last offset
      l.visited start

/-! ### Linear memory -/

/-- The bytes of a buffer from its offset on. -/
def PrpBuffer.area (b : PrpBuffer) (buf : Ref) : List (Ref × Nat) :=
  (List.range' b.offset (b.size - b.offset)).map fun p => (buf, p)

/-- The bytes of an object from its offset on, if it is a buffer. -/
def area (buf : Ref) : List (Ref × Nat) :=
  match objects buf with
  | .buffer b => b.area buf
  | .list _ => []

/-- `len(buf) - buf.offset`, of a buffer. -/
def room (buf : Ref) : Nat :=
  match objects buf with
  | .buffer b => b.size - b.offset
  | .list _ => 0

/-- The bytes of buffers, one buffer after the other. -/
def areas (bufs : List Ref) : List (Ref × Nat) := bufs.flatMap (area objects)

/-- The walk through the entries `entries`, and then through at most `n` further lists, comes
    to the buffers `bufs`, one after the other. A further list is the last entry of its list.
    The walk may stop at any entry. -/
inductive Walk : Nat → List (Option Ref) → List Ref → Prop
  | stop (n : Nat) (entries : List (Option Ref)) : Walk n entries []
  | buffer {n : Nat} {buf : Ref} {b : PrpBuffer} {entries : List (Option Ref)} {bufs : List Ref}
      (hbuf : objects buf = .buffer b) (hoffset : b.offset ≤ b.size)
      (hwalk : Walk n entries bufs) : Walk n (some buf :: entries) (buf :: bufs)
  | list {n : Nat} {buf : Ref} {l : PrpList} {bufs : List Ref} (hbuf : objects buf = .list l)
      (hwalk : Walk n l.visited bufs) : Walk (n + 1) [some buf] bufs

/-- The buffers of the chain of lists from `l` on, which has at most `n` further lists. -/
def Chain (n : Nat) (l : PrpList) (bufs : List Ref) : Prop := Walk objects n l.visited bufs

end

variable {objects : Ref → PrpObject} {buf : Ref} {b : PrpBuffer} {bufs : List Ref} {n p : Nat}
  {entries : List (Option Ref)}

@[simp] theorem PrpBuffer.length_area (b : PrpBuffer) (buf : Ref) :
    (b.area buf).length = b.size - b.offset := by
  simp [PrpBuffer.area]

theorem PrpBuffer.getElem?_area {k : Nat} (h : k < b.size - b.offset) :
    (b.area buf)[k]? = some (buf, b.offset + k) := by
  simp [PrpBuffer.area, h]

@[simp] theorem areas_nil : areas objects [] = [] := rfl

theorem areas_cons (h : objects buf = .buffer b) :
    areas objects (buf :: bufs) = b.area buf ++ areas objects bufs := by
  simp [areas, area, h]

/-- The bytes are in the buffers, from the offset on. -/
theorem mem_areas (h : (buf, p) ∈ areas objects bufs) :
    ∃ b, objects buf = .buffer b ∧ b.offset ≤ p ∧ p < b.size := by
  obtain ⟨buf', -, hp⟩ := List.mem_flatMap.1 h
  rw [area] at hp
  split at hp
  case h_1 b hbuf =>
    obtain ⟨p', hp', heq⟩ := List.mem_map.1 hp
    obtain ⟨rfl, rfl⟩ := Prod.mk.inj heq
    rw [List.mem_range'_1] at hp'
    exact ⟨b, hbuf, by omega, by omega⟩
  case h_2 => cases hp

/-- Only the last entry of a list is after all others. -/
theorem PrpList.last_eq {l : PrpList} {entry : Option Ref} (h : [entry] <:+ l.bufList.toList) :
    l.last = entry := by
  obtain ⟨before, hbefore⟩ := h
  have hlen : before.length = prpPerList - 1 := by
    have := congrArg List.length hbefore
    simp only [List.length_append, List.length_singleton, Vector.length_toList] at this
    omega
  have hget : l.bufList.toList[prpPerList - 1]? = some entry := by
    rw [← hbefore, ← hlen, List.getElem?_concat_length]
  rw [PrpList.last]
  simpa using hget

/-- From a walk on, the byte at the linear offset `o` is found, if `start` is the linear offset
    of the first byte of the walk. -/
theorem findInEntries_of_walk (h : Walk objects n entries bufs) :
    ∀ {l : PrpList} {depth o start : Nat}, entries <:+ l.bufList.toList → n ≤ depth → start ≤ o →
      o - start < (areas objects bufs).length → ∃ buf p : Nat,
        findInEntries objects (fun l start => findBufferByOffset objects depth l o start) l.last o
            entries start = .ok (some (buf, (p : Int))) ∧
          (areas objects bufs)[o - start]? = some (buf, p) := by
  induction h with
  | stop n entries =>
    intro l depth o start _ _ _ ho
    exact absurd ho (Nat.not_lt_zero _)
  | @buffer n buf b entries bufs hbuf hoffset hwalk ih =>
    intro l depth o start hentries hdepth hstart ho
    rw [areas_cons hbuf, List.length_append, PrpBuffer.length_area] at ho
    simp only [findInEntries, hbuf, areas_cons hbuf]
    rcases Nat.lt_or_ge (o - start) (b.size - b.offset) with hin | hout
    · -- The byte is in this buffer.
      refine ⟨buf, b.offset + (o - start), ?_, ?_⟩
      · rw [if_pos (by omega), Except.ok.injEq, Option.some.injEq, Prod.mk.injEq]
        exact ⟨rfl, by omega⟩
      · rw [List.getElem?_append_left (by simpa using hin), PrpBuffer.getElem?_area hin]
    · have hstart' : start + (b.size - b.offset) ≤ o := by omega
      obtain ⟨buf', p, hfind, hget⟩ := ih ((List.suffix_cons _ _).trans hentries) hdepth hstart'
        (by omega)
      refine ⟨buf', p, ?_, ?_⟩
      · rw [if_neg (by omega), ← hfind]
        congr 1
        omega
      · rw [List.getElem?_append_right (by simpa using hout), PrpBuffer.length_area, ← hget]
        congr 1
        omega
  | @list n buf l' bufs hbuf hwalk ih =>
    intro l depth o start hentries hdepth hstart ho
    obtain ⟨depth, rfl⟩ : ∃ k, depth = k + 1 := ⟨depth - 1, by omega⟩
    simp only [findInEntries, hbuf, PrpList.last_eq hentries, if_true, findBufferByOffset]
    exact ih (List.drop_suffix _ _) (by omega) hstart ho

/-- The linear memory has as many bytes as its buffers have from their offsets on. -/
theorem length_areas (bufs : List Ref) :
    (areas objects bufs).length = (bufs.map (room objects)).sum := by
  induction bufs with
  | nil => rfl
  | cons buf bufs ih =>
    rw [List.map_cons, List.sum_cons, ← ih, areas, List.flatMap_cons, List.length_append, area,
      room]
    split <;> simp [areas]

theorem findBufferByOffset_of_chain {l : PrpList} {depth o : Nat} (h : Chain objects n l bufs)
    (ho : o < (bufs.map (room objects)).sum) (hdepth : n < depth) :
    ∃ buf p : Nat, findBufferByOffset objects depth l o 0 = .ok (some (buf, (p : Int))) ∧
      (areas objects bufs)[o]? = some (buf, p) := by
  obtain ⟨depth, rfl⟩ : ∃ k, depth = k + 1 := ⟨depth - 1, by omega⟩
  have hlt : o - 0 < (areas objects bufs).length := by rwa [length_areas, Nat.sub_zero]
  exact findInEntries_of_walk h (List.drop_suffix _ _) (by omega) (Nat.zero_le o) hlt

/-- The byte at a linear offset of a chain is found, in one of its buffers and not before the
    offset of the buffer. -/
theorem find_buffer_by_offset_exact {l : PrpList} {depth o : Nat} (h : Chain objects n l bufs)
    (ho : o < (bufs.map (room objects)).sum) (hdepth : n < depth) :
    ∃ buf p b, findBufferByOffset objects depth l o 0 = .ok (some (buf, (p : Nat))) ∧
      (areas objects bufs)[o]? = some (buf, p) ∧
      objects buf = .buffer b ∧ b.offset ≤ p ∧ p < b.size := by
  obtain ⟨buf, p, hfind, hget⟩ := findBufferByOffset_of_chain h ho hdepth
  obtain ⟨b, hbuf, hoffset, hsize⟩ := mem_areas (List.mem_of_getElem? hget)
  exact ⟨buf, p, b, hfind, hget, hbuf, hoffset, hsize⟩

/-- A list with its last two entries: the last 64 bytes of a page, and a further list. -/
def firstList : PrpList :=
  ⟨4096 - 16, ((Vector.replicate prpPerList none).set 510 (some 1)).set 511 (some 2)⟩

/-- A list of four pages. -/
def secondList : PrpList :=
  ⟨0, ((((Vector.replicate prpPerList none).set 0 (some 3)).set 1 (some 4)).set 2 (some 5)).set 3
    (some 6)⟩

/-- The two lists and their pages. -/
def twoLists : Ref → PrpObject
  | 0 => .list firstList
  | 1 => .buffer ⟨true, 4096, 4096 - 64⟩
  | 2 => .list secondList
  | _ => .buffer ⟨true, 4096, 0⟩

theorem chain_twoLists : Chain twoLists 1 firstList [1, 3, 4, 5, 6] := by
  have hfirst : firstList.visited = [some 1, some 2] := by decide +kernel
  have hsecond : secondList.visited =
      some 3 :: some 4 :: some 5 :: some 6 :: secondList.visited.drop 4 := by decide +kernel
  rw [Chain, hfirst]
  refine .buffer (b := ⟨true, 4096, 4096 - 64⟩) rfl (by decide) (.list (l := secondList) rfl ?_)
  rw [hsecond]
  have hpage : ∀ {entries bufs} (k : Nat), Walk twoLists 0 entries bufs →
      Walk twoLists 0 (some (k + 3) :: entries) ((k + 3) :: bufs) := fun k hwalk =>
    .buffer (b := ⟨true, 4096, 0⟩) rfl (Nat.zero_le _) hwalk
  exact hpage 0 (hpage 1 (hpage 2 (hpage 3 (.stop 0 _))))

/-- The first page has 64 bytes, so that the byte at offset 80 is in the second one. -/
theorem find_buffer_by_offset_two_lists :
    findBufferByOffset twoLists 2 firstList (80 : Nat) 0 = .ok (some (3, 16)) := by
  obtain ⟨buf, p, b, hfind, hget, -⟩ :=
    find_buffer_by_offset_exact chain_twoLists (o := 80) (by decide) (by decide : 1 < 2)
  have harea : (areas twoLists [1, 3, 4, 5, 6])[80]? = some (3, 16) := by decide +kernel
  obtain ⟨rfl, rfl⟩ := Prod.mk.inj (Option.some.inj (hget.symm.trans harea))
  exact hfind

end Pynvme.Psd
