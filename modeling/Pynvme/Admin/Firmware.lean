import Pynvme.Admin.Command
import Pynvme.Lib.Chunks

/-!
# Firmware download

`Controller.downfw` sends the image file in chunks of 4096 bytes, through one buffer, and each
command has the whole buffer. The chunk at the end of the file may be shorter: the rest of the
buffer then has bytes of the chunk before. The offset of a chunk is a dword, in units of four
bytes.

`downfw_iff`: the image is transferred exactly if and only if it has at most 2^34 bytes, and
those that are sent again after its end are 0.
-/

namespace Pynvme

open Chunks

/-- `Controller.fw_download` -/
def fwDownload (q : AdminQueue) (buf : AdminBuffer) (offset : Int) (size : Option Int) :
    Except PyError AdminCmd :=
  -- the same size of buffer
  let size := size.getD buf.len
  sendAdminRaw q (some buf) 0x11 0 (size >>> (2 : Nat) - 1) (offset >>> (2 : Nat)) 0 0 0 0

/-- `Controller.fw_commit` -/
def fwCommit (q : AdminQueue) (slot action : Int) : Except PyError AdminCmd := do
  pyAssert (slot < 8) ("invalid fw slot: " ++ toString slot)
  pyAssert (action < 8) ("invalid fw commit action: " ++ toString action)
  sendAdminRaw q none 0x10 0 (action <<< (3 : Nat) + slot) 0 0 0 0 0

/-- `buf[:] = chunk`, with the buffer, and the commands that were sent. -/
def setChunk (chunk : List (BitVec 8)) (s : Memory × List AdminCmd) :
    Except PyError Unit × Memory × List AdminCmd :=
  let (r, mem) := bufferSetitem 4096 s.1 (.slice ⟨none, none, none⟩) (.bytes chunk)
  (r, mem, s.2)

/-- The command is sent, or its encoding raises. -/
def recordCmd (r : Except PyError AdminCmd) (s : Memory × List AdminCmd) :
    Except PyError AdminCmd × Memory × List AdminCmd :=
  match r with
  | .error e => (.error e, s)
  | .ok cmd => (.ok cmd, s.1, s.2 ++ [cmd])

/-- `self.fw_download(buf, 4096*i)` -/
def sendChunk (q : AdminQueue) (i : Nat) (s : Memory × List AdminCmd) :
    Except PyError AdminCmd × Memory × List AdminCmd :=
  recordCmd (fwDownload q ⟨4096, 4096, 0, s.1⟩ (4096 * i) none) s

/-- The body of the loop of `Controller.downfw`, on a chunk and its index. -/
def downloadChunk (q : AdminQueue) (x : List (BitVec 8) × Nat) (s : Memory × List AdminCmd) :
    Except PyError Unit × Memory × List AdminCmd :=
  pyThen (setChunk x.1 s) fun _ s => pyThen (sendChunk q x.2 s) fun cmd s => (q.waitdone cmd, s)

/-- `Controller.downfw` -/
def downfw (q : AdminQueue) (file : List (BitVec 8)) (slot action : Int) :
    Except PyError Unit × Memory × List AdminCmd :=
  -- `iter(lambda: f.read(4096), b'')`
  pyThen (pyFor (downloadChunk q) (chunks 4096 file).zipIdx (.fresh fun _ => 0#8, [])) fun _ s =>
    pyThen (recordCmd (fwCommit q slot action) s) fun cmd s => (q.waitdone cmd, s)

/-! ### The image -/

namespace AdminCmd

variable (cmd : AdminCmd)

/-- The offset of a chunk, of the dword 11. -/
def fwOffset : Nat := cmd.cdw11.toNat * 4

/-- The size of a chunk, of the dword 10. -/
def fwSize : Nat := (cmd.cdw10.toNat + 1) * 4

/-- The image after a command. -/
def fwWrite (image : Bytes) : Bytes := fun p =>
  if cmd.fwOffset ≤ p ∧ p < cmd.fwOffset + cmd.fwSize then
    match cmd.buf with
    | some bytes => bytes (p - cmd.fwOffset)
    | none => 0#8
  else image p

end AdminCmd

/-- The image after commands, on zeros. -/
def fwImage (sent : List AdminCmd) : Bytes :=
  sent.foldl (fun image cmd => cmd.fwWrite image) fun _ => 0#8

/-- Each chunk begins where the one before ends. -/
def Contiguous : Nat → List AdminCmd → Prop
  | _, [] => True
  | p, cmd :: sent => cmd.fwOffset = p ∧ Contiguous (p + cmd.fwSize) sent

/-- `Controller.downfw` transfers the file, in contiguous chunks, and zeros after its end. -/
def Downloads (q : AdminQueue) (file : List (BitVec 8)) (slot action : Int) : Prop :=
  ∃ mem sent commit, downfw q file slot action = (.ok (), mem, sent ++ [commit]) ∧
    (∀ cmd ∈ sent, cmd.opcode = 0x11) ∧ Contiguous 0 sent ∧
    (∀ p, (hp : p < file.length) → fwImage sent p = file[p]) ∧
    ∀ p ≥ file.length, fwImage sent p = 0#8

/-! ### Chunks -/

/-- The commands carry the buffers `l` from the chunk `i` on. -/
inductive Carries : Nat → List Bytes → List AdminCmd → Prop
  | nil (i : Nat) : Carries i [] []
  | cons {i : Nat} {m : Bytes} {l : List Bytes} {cmd : AdminCmd} {sent : List AdminCmd}
      (hopcode : cmd.opcode = 0x11) (hoffset : cmd.fwOffset = 4096 * i) (hsize : cmd.fwSize = 4096)
      (hbuf : cmd.buf = some m) (hcarries : Carries (i + 1) l sent) :
      Carries i (m :: l) (cmd :: sent)

variable {q : AdminQueue} {i : Nat} {l : List Bytes} {sent : List AdminCmd} {mem : Memory}
  {chunk file : List (BitVec 8)} {slot action : Int}

theorem Carries.opcode (h : Carries i l sent) : ∀ cmd ∈ sent, cmd.opcode = 0x11 := by
  induction h with
  | nil i => simp
  | cons hopcode _ _ _ _ ih => exact List.forall_mem_cons.2 ⟨hopcode, ih⟩

theorem Carries.contiguous (h : Carries i l sent) : Contiguous (4096 * i) sent := by
  induction h with
  | nil i => trivial
  | @cons i m l cmd sent hopcode hoffset hsize hbuf hcarries ih =>
    exact ⟨hoffset, by rw [hsize]; exact ih⟩

theorem Carries.foldl_fwWrite (h : Carries i l sent) (image : Bytes) :
    sent.foldl (fun image cmd => cmd.fwWrite image) image = place 4096 (4096 * i) l image := by
  induction h generalizing image with
  | nil i => rfl
  | @cons i m l cmd sent hopcode hoffset hsize hbuf hcarries ih =>
    rw [List.foldl_cons, ih, place]
    congr 1
    funext p
    simp only [AdminCmd.fwWrite, hoffset, hsize, hbuf]

theorem fwDownload_shift (i : Nat) : (4096 * (i : Int)) >>> (2 : Nat) = (1024 * i : Nat) := by
  rw [Int.shiftRight_eq_div_pow]
  omega

theorem sendChunk_ok (hq : q.Accepts) (hi : i < 2 ^ 22) (mem : Memory) (sent : List AdminCmd) :
    ∃ cmd, sendChunk q i (mem, sent) = (.ok cmd, mem, sent ++ [cmd]) ∧ cmd.opcode = 0x11 ∧
      cmd.fwOffset = 4096 * i ∧ cmd.fwSize = 4096 ∧ cmd.buf = some mem.data := by
  have hdword : (BitVec.ofNat 32 (1024 * i)).toNat = 1024 * i := by
    rw [BitVec.toNat_ofNat, Nat.mod_eq_of_lt (by omega)]
  have hsize : (4096 : Int) >>> (2 : Nat) - 1 = (1023#32).toNat := by decide
  have hdata : (some mem.data : Option Bytes) =
      (some (⟨4096, 4096, 0, mem⟩ : AdminBuffer)).map fun buf k =>
        buf.mem.data (buf.offset + k) := by
    simp only [Option.map_some, Nat.zero_add]
  have hcmd : fwDownload q ⟨4096, 4096, 0, mem⟩ (4096 * i) none =
      .ok ⟨0x11, 0, 1023, BitVec.ofNat 32 (1024 * i), 0, 0, 0, 0, some mem.data, 4096⟩ :=
    (sendAdminRaw_eq_ok hq).2 ⟨rfl, rfl, hsize, by rw [fwDownload_shift, hdword], rfl, rfl, rfl,
      rfl, hdata, rfl⟩
  refine ⟨⟨0x11, 0, 1023, BitVec.ofNat 32 (1024 * i), 0, 0, 0, 0, some mem.data, 4096⟩, ?_, rfl, ?_,
    rfl, rfl⟩
  · rw [sendChunk, hcmd, recordCmd]
  · rw [AdminCmd.fwOffset, hdword]
    omega

theorem recordCmd_eq_ok {r : Except PyError AdminCmd} {cmd : AdminCmd}
    {s s' : Memory × List AdminCmd} (h : recordCmd r s = (.ok cmd, s')) : r = .ok cmd := by
  rcases r with e | cmd'
  · cases (Prod.mk.inj h).1
  · exact (Prod.mk.inj h).1

theorem lt_of_sendChunk (hq : q.Accepts) {cmd : AdminCmd} {s s' : Memory × List AdminCmd}
    (h : sendChunk q i s = (.ok cmd, s')) : i < 2 ^ 22 := by
  obtain ⟨-, -, -, hcdw11, -⟩ := (sendAdminRaw_eq_ok hq).1 (recordCmd_eq_ok h)
  rw [fwDownload_shift, Nat.cast_inj] at hcdw11
  have := cmd.cdw11.isLt
  omega

/-- The chunk overwrites the first bytes of the buffer. -/
theorem setChunk_ok (hchunk : chunk.length ≤ 4096) (mem : Memory) (sent : List AdminCmd) :
    ∃ mem', setChunk chunk (mem, sent) = (.ok (), mem', sent) ∧
      mem'.data = overwrite chunk mem.data := by
  have hfits : (0 : Int) + chunk.length ≤ (4096 : Nat) := by omega
  obtain ⟨mem', hset⟩ := bufferSetBytes_of_fits (Int.le_refl 0) hfits mem
  obtain ⟨hwritten, hother⟩ := bufferSetBytes_ok hset
  have hitem : bufferSetitem 4096 mem (.slice ⟨none, none, none⟩) (.bytes chunk) = (.ok (), mem') :=
    hset
  refine ⟨mem', by rw [setChunk, hitem], funext fun k => ?_⟩
  rw [overwrite]
  rcases Nat.lt_or_ge k chunk.length with hk | hk
  · rw [List.getD_eq_getElem _ _ hk, ← hwritten k hk, Memory.data, Int.zero_add]
  · rw [List.getD_eq_default _ _ hk]
    exact hother k fun j hj => by omega

/-- Chunks are written to the buffer, and sent with all of it. -/
theorem pyFor_downloadChunk (hq : q.Accepts) {cs : List (List (BitVec 8))}
    (hcs : ∀ chunk ∈ cs, chunk.length ≤ 4096) {i : Nat} (hi : i + cs.length ≤ 2 ^ 22) (mem : Memory)
    (sent : List AdminCmd) :
    ∃ mem' sent', pyFor (downloadChunk q) (cs.zipIdx i) (mem, sent) =
        (.ok (), mem', sent ++ sent') ∧ Carries i (contents mem.data cs) sent' := by
  induction cs generalizing i mem sent with
  | nil => exact ⟨mem, [], by simp [pyFor], .nil i⟩
  | cons chunk cs ih =>
    obtain ⟨hchunk, hcs⟩ := List.forall_mem_cons.1 hcs
    rw [List.length_cons] at hi
    obtain ⟨mem₁, hset, hdata⟩ := setChunk_ok hchunk mem sent
    obtain ⟨cmd, hcmd, hopcode, hoffset, hsize, hbuf⟩ :=
      sendChunk_ok hq (i := i) (by omega) mem₁ sent
    have hbody : downloadChunk q (chunk, i) (mem, sent) = (.ok (), mem₁, sent ++ [cmd]) := by
      rw [downloadChunk, pyThen_eq hset, pyThen_eq hcmd, hq.waitdone]
    obtain ⟨mem', sent', hrest, hcarries⟩ := ih hcs (i := i + 1) (by omega) mem₁ (sent ++ [cmd])
    refine ⟨mem', cmd :: sent', ?_, ?_⟩
    · rw [List.zipIdx_cons, pyFor_cons hbody, hrest, List.append_assoc, List.singleton_append]
    · rw [contents, ← hdata]
      exact .cons hopcode hoffset hsize hbuf hcarries

/-- The offset of the chunk 2^22 does not fit. -/
theorem le_of_pyFor_downloadChunk (hq : q.Accepts) {cs : List (List (BitVec 8))} {u : Unit}
    {s s' : Memory × List AdminCmd} (h : pyFor (downloadChunk q) (cs.zipIdx i) s = (.ok u, s')) :
    cs = [] ∨ i + cs.length ≤ 2 ^ 22 := by
  induction cs generalizing i s with
  | nil => exact .inl rfl
  | cons chunk cs ih =>
    right
    rw [List.zipIdx_cons] at h
    obtain ⟨s₁, hbody, hrest⟩ := pyFor_cons_eq_ok.1 h
    obtain ⟨_, _, -, hthen⟩ := pyThen_eq_ok.1 hbody
    obtain ⟨_, _, hcmd, -⟩ := pyThen_eq_ok.1 hthen
    have hi := lt_of_sendChunk hq hcmd
    rw [List.length_cons]
    rcases ih hrest with rfl | hle
    · rw [List.length_nil]
      omega
    · omega

/-! ### The transfer -/

/-- If the last chunk is shorter than the buffer, the bytes of the chunk before that are sent with
    it are 0. -/
def ResendsZeros (file : List (BitVec 8)) : Prop :=
  file.length % 4096 ≠ 0 → ∀ i, file.length ≤ i + 4096 → i < file.length / 4096 * 4096 →
    file.getD i 0#8 = 0#8

theorem length_le_of_mem_chunks {α : Type} {n : Nat} {l c : List α} (h : c ∈ chunks n l) :
    c.length ≤ n := by
  induction l using chunks.induct (n := n) with
  | case1 l hl =>
    rw [chunks, if_pos hl] at h
    cases h
  | case2 l hl ih =>
    rw [chunks, if_neg hl] at h
    rcases List.mem_cons.1 h with rfl | h
    · exact List.length_take_le n l
    · exact ih h

theorem fwCommit_ok (hq : q.Accepts) (hslot : 0 ≤ slot ∧ slot < 8)
    (haction : 0 ≤ action ∧ action < 8) :
    ∃ cmd, fwCommit q slot action = .ok cmd := by
  have hshift : action <<< (3 : Nat) = action * 8 := Int.shiftLeft_eq action 3
  obtain ⟨cdw10, hcdw10⟩ := exists_dword (v := action <<< (3 : Nat) + slot) (by omega) (by omega)
  refine ⟨⟨0x10, 0, cdw10, 0, 0, 0, 0, 0, none, 0⟩, ?_⟩
  simp only [fwCommit, Except.bind_eq_ok, pyAssert_eq_ok, sendAdminRaw_eq_ok hq]
  exact ⟨(), hslot.2, (), haction.2, rfl, rfl, hcdw10, rfl, rfl, rfl, rfl, rfl, rfl, rfl⟩

/-- The image of a file: its bytes, and then those of the chunk before the last one. -/
theorem fwImage_of_carries (h : Carries 0 (contents (fun _ => 0#8) (chunks 4096 file)) sent)
    (p : Nat) : fwImage sent p =
      if 4096 * (chunks 4096 file).length ≤ p then 0#8
      else file.getD p (if file.length < 4096 then 0#8 else file.getD (p - 4096) 0#8) := by
  rw [fwImage, h.foldl_fwWrite, Nat.mul_zero, place_contents (by decide)]
  simp only [Nat.not_lt_zero, false_or, Nat.zero_add, Nat.sub_zero]

/-- The image is that of the file if and only if the bytes that are sent again are 0. -/
theorem fwImage_exact_iff (h : Carries 0 (contents (fun _ => 0#8) (chunks 4096 file)) sent) :
    ((∀ p, (hp : p < file.length) → fwImage sent p = file[p]) ∧
      ∀ p ≥ file.length, fwImage sent p = 0#8) ↔ ResendsZeros file := by
  have hlen : (chunks 4096 file).length = (file.length + 4095) / 4096 :=
    length_chunks (by decide) file
  have hfile : ∀ p, (hp : p < file.length) → fwImage sent p = file[p] := fun p hp => by
    rw [fwImage_of_carries h, if_neg (by omega), List.getD_eq_getElem _ _ hp]
  constructor
  · rintro ⟨-, hzero⟩ hmod i hi hi'
    have hp := hzero (i + 4096) hi
    rwa [fwImage_of_carries h, if_neg (by omega), List.getD_eq_default _ _ hi,
      if_neg (by omega), Nat.add_sub_cancel] at hp
  · refine fun hresends => ⟨hfile, fun p hp => ?_⟩
    rw [fwImage_of_carries h]
    split_ifs with hout hone
    · rfl
    · rw [List.getD_eq_default _ _ hp]
    · rw [List.getD_eq_default _ _ hp]
      exact hresends (by omega) (p - 4096) (by omega) (by omega)

/-- What is sent of a file is determined, as long as the offsets fit. -/
theorem downfw_ok (hq : q.Accepts) {commit : AdminCmd}
    (hcommit : fwCommit q slot action = .ok commit) (hle : file.length ≤ 2 ^ 34) : ∃ mem sent,
      downfw q file slot action = (.ok (), mem, sent ++ [commit]) ∧
        Carries 0 (contents (fun _ => 0#8) (chunks 4096 file)) sent := by
  have hlen : (chunks 4096 file).length = (file.length + 4095) / 4096 :=
    length_chunks (by decide) file
  have hfits : 0 + (chunks 4096 file).length ≤ 2 ^ 22 := by omega
  obtain ⟨mem, sent, hfor, hcarries⟩ := pyFor_downloadChunk hq
    (fun _ => length_le_of_mem_chunks) hfits (.fresh fun _ => 0#8) []
  refine ⟨mem, sent, ?_, hcarries⟩
  have hrecord : recordCmd (fwCommit q slot action) (mem, sent) =
      (.ok commit, mem, sent ++ [commit]) := by
    rw [hcommit, recordCmd]
  rw [downfw, pyThen_eq hfor, List.nil_append, pyThen_eq hrecord, hq.waitdone]

/-- A file longer than 2^34 bytes has a chunk whose offset does not fit. -/
theorem length_le_of_downfw (hq : q.Accepts) {mem : Memory} {u : Unit}
    (h : downfw q file slot action = (.ok u, mem, sent)) : file.length ≤ 2 ^ 34 := by
  have hlen : (chunks 4096 file).length = (file.length + 4095) / 4096 :=
    length_chunks (by decide) file
  obtain ⟨_, _, hfor, -⟩ := pyThen_eq_ok.1 h
  rcases le_of_pyFor_downloadChunk hq hfor with hnil | hle
  · rw [hnil, List.length_nil] at hlen
    omega
  · omega

theorem resendsZeros_of_downloads (hq : q.Accepts) (hslot : 0 ≤ slot ∧ slot < 8)
    (haction : 0 ≤ action ∧ action < 8) (h : Downloads q file slot action) :
    file.length ≤ 2 ^ 34 ∧ ResendsZeros file := by
  obtain ⟨mem, sent, commit, hdown, -, -, hfile, hzero⟩ := h
  have hle := length_le_of_downfw hq hdown
  obtain ⟨commit', hcommit⟩ := fwCommit_ok hq hslot haction
  obtain ⟨mem', sent', hdown', hcarries⟩ := downfw_ok hq hcommit hle
  have hsent : sent ++ [commit] = sent' ++ [commit'] :=
    (Prod.mk.inj (Prod.mk.inj (hdown.symm.trans hdown')).2).2
  obtain ⟨rfl, -⟩ := List.append_inj' hsent rfl
  exact ⟨hle, (fwImage_exact_iff hcarries).1 ⟨hfile, hzero⟩⟩

/-- A file is downloaded exactly if and only if it has at most 2^34 bytes, and those that are sent
    again are 0. -/
theorem downfw_iff (hq : q.Accepts) (hslot : 0 ≤ slot ∧ slot < 8)
    (haction : 0 ≤ action ∧ action < 8) (file : List (BitVec 8)) :
    Downloads q file slot action ↔ file.length ≤ 2 ^ 34 ∧ ResendsZeros file := by
  refine ⟨resendsZeros_of_downloads hq hslot haction, fun ⟨hle, hresends⟩ => ?_⟩
  obtain ⟨commit, hcommit⟩ := fwCommit_ok hq hslot haction
  obtain ⟨mem, sent, hdown, hcarries⟩ := downfw_ok hq hcommit hle
  obtain ⟨hfile, hzero⟩ := (fwImage_exact_iff hcarries).2 hresends
  exact ⟨mem, sent, commit, hdown, hcarries.opcode, hcarries.contiguous, hfile, hzero⟩

/-- A file of one chunk and a half, of zeros and then ones. -/
theorem downfw_zeros : Downloads ⟨fun _ => 0, fun _ => .ok ()⟩
    (List.replicate 4096 0#8 ++ List.replicate 2048 1#8) 0 1 := by
  have hlen : (List.replicate 4096 0#8 ++ List.replicate 2048 1#8).length = 6144 := by
    rw [List.length_append, List.length_replicate, List.length_replicate]
  refine (downfw_iff ⟨fun _ => rfl, fun _ => rfl⟩ (by decide) (by decide) _).2
    ⟨by rw [hlen]; decide, fun _ i _ hi => ?_⟩
  have hi' : i < (List.replicate 4096 0#8).length := by
    rw [hlen] at hi
    rw [List.length_replicate]
    omega
  rw [List.getD_append _ _ _ _ hi', List.getD_eq_getElem _ _ hi', List.getElem_replicate]

/-- A file of 4097 ones: 4095 of them are sent again. -/
theorem downfw_resends :
    ¬Downloads ⟨fun _ => 0, fun _ => .ok ()⟩ (List.replicate 4097 1#8) 0 1 := by
  intro h
  have hlen : (List.replicate 4097 1#8).length = 4097 := List.length_replicate
  obtain ⟨-, hresends⟩ := resendsZeros_of_downloads ⟨fun _ => rfl, fun _ => rfl⟩ (by decide)
    (by decide) h
  have hone := hresends (by rw [hlen]; decide) 1 (by rw [hlen]) (by rw [hlen]; decide)
  rw [List.getD_eq_getElem _ _ (by rw [hlen]; decide), List.getElem_replicate] at hone
  exact absurd hone (by decide)

end Pynvme
