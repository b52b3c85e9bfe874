import Pynvme.Lib.Word
import Pynvme.Script.Buffer

/-!
# Admin commands

The methods of `Controller` build an admin command by its dwords, which are Python integers,
and `Controller.send_admin_raw` hands them over to the driver as `unsigned int`: Cython raises
on those that do not fit in 32 bits.

`Controller.getlogpage` splits the number of dwords and the offset of a request over several
dwords of the command. It masks all but the low dword of the offset: `getlogpage_iff` tells
that exactly the requests with an offset below 2^32 are submitted, with the fields that the
request has.
-/

namespace Pynvme

/-- A buffer of an admin command: `len(buf)`, `buf.size`, `buf.offset` and the memory. -/
structure AdminBuffer where
  len : Nat
  size : Nat
  offset : Nat
  mem : Memory

/-- The arguments of `nvme_send_cmd_raw`: the dwords of a command, and the bytes from its
    buffer on. -/
structure AdminCmd where
  opcode : BitVec 32
  nsid : BitVec 32
  cdw10 : BitVec 32
  cdw11 : BitVec 32
  cdw12 : BitVec 32
  cdw13 : BitVec 32
  cdw14 : BitVec 32
  cdw15 : BitVec 32
  buf : Option Bytes
  size : Nat

/-- The admin queue: what `nvme_send_cmd_raw` returns for a command, and how the call of
    `waitdone` for it ends. -/
structure AdminQueue where
  send : AdminCmd → Int
  waitdone : AdminCmd → Except PyError Unit

/-- Every command is submitted, and completes. -/
structure AdminQueue.Accepts (q : AdminQueue) : Prop where
  send : ∀ cmd, q.send cmd = 0
  waitdone : ∀ cmd, q.waitdone cmd = .ok ()

/-- The conversion of a Python integer to `unsigned int`. -/
def toDword (v : Int) : Except PyError (BitVec 32) :=
  match toUnsigned 32 v with
  | .error e => .error e
  | .ok n => .ok (BitVec.ofNat 32 n)

/-- `Controller.send_admin_raw`. It returns the command. -/
def sendAdminRaw (q : AdminQueue) (buf : Option AdminBuffer)
    (opcode nsid cdw10 cdw11 cdw12 cdw13 cdw14 cdw15 : Int) : Except PyError AdminCmd := do
  let opcode ← toDword opcode
  let nsid ← toDword nsid
  let cdw10 ← toDword cdw10
  let cdw11 ← toDword cdw11
  let cdw12 ← toDword cdw12
  let cdw13 ← toDword cdw13
  let cdw14 ← toDword cdw14
  let cdw15 ← toDword cdw15
  let cmd : AdminCmd :=
    { opcode, nsid, cdw10, cdw11, cdw12, cdw13, cdw14, cdw15
      buf := buf.map fun buf k => buf.mem.data (buf.offset + k)
      size := (buf.map (·.size)).getD 0 }
  pyAssert (q.send cmd = 0) ("error in submitting admin commands, " ++ toString (q.send cmd))
  return cmd

/-- `Controller.getlogpage` -/
def getlogpage (q : AdminQueue) (lid : Int) (buf : AdminBuffer) (size : Option Int)
    (offset nsid : Int) : Except PyError AdminCmd := do
  -- the same size of buffer
  let size := size.getD buf.len
  pyAssert (size % 4 = 0) "size must be dword aligned"
  pyAssert (offset % 4 = 0) "offset must be dword aligned"
  -- zero-based dword number
  let dwords := size >>> (2 : Nat) - 1
  pyAssert (0 ≤ dwords) ""
  pyAssert (dwords < 2 ^ 32) "32-bit field"
  pyAssert (0 ≤ offset) ""
  pyAssert (offset < 2 ^ 64) "64-bit field"
  let dwords := dwords.toNat
  sendAdminRaw q (some buf) 0x2 nsid (((dwords &&& 0xffff) <<< 16 : Nat) + lid)
    (dwords >>> 16 &&& 0xffff : Nat) offset (offset >>> (32 : Nat)) 0 0

/-! ### Dwords -/

variable {q : AdminQueue} {v : Int} {d : BitVec 32}

theorem toDword_eq_ok : toDword v = .ok d ↔ v = d.toNat := by
  rw [toDword]
  rcases h : toUnsigned 32 v with e | n
  · have hnot : v ≠ d.toNat := fun hv => by
      rw [toUnsigned_eq_ok.2 ⟨hv, d.isLt⟩] at h
      cases h
    simp [hnot]
  · obtain ⟨hv, hn⟩ := toUnsigned_eq_ok.1 h
    rw [Except.ok.injEq, hv, Nat.cast_inj]
    constructor
    · rintro rfl
      rw [BitVec.toNat_ofNat, Nat.mod_eq_of_lt hn]
    · rintro rfl
      exact BitVec.ofNat_toNat 32 d |>.trans (BitVec.setWidth_eq d)

/-- What fits is a dword. -/
theorem exists_dword (h : 0 ≤ v) (h' : v < 2 ^ 32) : ∃ d : BitVec 32, v = d.toNat :=
  ⟨BitVec.ofNat 32 v.toNat, by rw [BitVec.toNat_ofNat, Nat.mod_eq_of_lt (by omega)]; omega⟩

/-- A command is submitted if its dwords fit, and the queue takes it. -/
theorem sendAdminRaw_eq_ok_iff {buf : Option AdminBuffer} {cmd : AdminCmd}
    {opcode nsid cdw10 cdw11 cdw12 cdw13 cdw14 cdw15 : Int} :
    sendAdminRaw q buf opcode nsid cdw10 cdw11 cdw12 cdw13 cdw14 cdw15 = .ok cmd ↔
      (opcode = cmd.opcode.toNat ∧ nsid = cmd.nsid.toNat ∧ cdw10 = cmd.cdw10.toNat ∧
      cdw11 = cmd.cdw11.toNat ∧ cdw12 = cmd.cdw12.toNat ∧ cdw13 = cmd.cdw13.toNat ∧
      cdw14 = cmd.cdw14.toNat ∧ cdw15 = cmd.cdw15.toNat ∧
      cmd.buf = buf.map (fun buf k => buf.mem.data (buf.offset + k)) ∧
      cmd.size = (buf.map (·.size)).getD 0) ∧ q.send cmd = 0 := by
  simp only [sendAdminRaw, Except.bind_eq_ok, Except.pure_eq_ok, toDword_eq_ok, pyAssert_eq_ok]
  constructor
  · rintro ⟨_, h1, _, h2, _, h3, _, h4, _, h5, _, h6, _, h7, _, h8, _, hsend, rfl⟩
    exact ⟨⟨h1, h2, h3, h4, h5, h6, h7, h8, rfl, rfl⟩, hsend⟩
  · rintro ⟨⟨h1, h2, h3, h4, h5, h6, h7, h8, hbuf, hsize⟩, hsend⟩
    have hcmd : (⟨cmd.opcode, cmd.nsid, cmd.cdw10, cmd.cdw11, cmd.cdw12, cmd.cdw13, cmd.cdw14,
        cmd.cdw15, buf.map fun buf k => buf.mem.data (buf.offset + k),
        (buf.map (·.size)).getD 0⟩ : AdminCmd) = cmd := by
      rw [← hbuf, ← hsize]
    refine ⟨_, h1, _, h2, _, h3, _, h4, _, h5, _, h6, _, h7, _, h8, (), ?_, hcmd⟩
    rw [hcmd, hsend]

theorem sendAdminRaw_eq_ok (hq : q.Accepts) {buf : Option AdminBuffer} {cmd : AdminCmd}
    {opcode nsid cdw10 cdw11 cdw12 cdw13 cdw14 cdw15 : Int} :
    sendAdminRaw q buf opcode nsid cdw10 cdw11 cdw12 cdw13 cdw14 cdw15 = .ok cmd ↔
      opcode = cmd.opcode.toNat ∧ nsid = cmd.nsid.toNat ∧ cdw10 = cmd.cdw10.toNat ∧
      cdw11 = cmd.cdw11.toNat ∧ cdw12 = cmd.cdw12.toNat ∧ cdw13 = cmd.cdw13.toNat ∧
      cdw14 = cmd.cdw14.toNat ∧ cdw15 = cmd.cdw15.toNat ∧
      cmd.buf = buf.map (fun buf k => buf.mem.data (buf.offset + k)) ∧
      cmd.size = (buf.map (·.size)).getD 0 := by
  rw [sendAdminRaw_eq_ok_iff, and_iff_left (hq.send cmd)]

/-! ### Get Log Page -/

/-- The requests that the assertions of `Controller.getlogpage` admit, of a log page and a
    namespace. -/
structure LogRequest (lid size offset nsid : Int) : Prop where
  lid : 0 ≤ lid ∧ lid ≤ 255
  size_mod : size % 4 = 0
  size : 0 ≤ size / 4 - 1 ∧ size / 4 - 1 < 2 ^ 32
  offset_mod : offset % 4 = 0
  offset : 0 ≤ offset ∧ offset < 2 ^ 64
  nsid : 0 ≤ nsid ∧ nsid < 2 ^ 32

open Word (field)

/-- The number of dwords less one, the log page and the offset of the command. -/
structure AdminCmd.Requests (cmd : AdminCmd) (lid size offset nsid : Int) : Prop where
  opcode : cmd.opcode = 0x2
  nsid : cmd.nsid.toNat = nsid
  numd : (field cmd.cdw10.toNat 16 16 ||| field cmd.cdw11.toNat 0 16 <<< 16 : Nat) = size / 4 - 1
  lid : field cmd.cdw10.toNat 0 8 = lid
  offset : (cmd.cdw12.toNat + cmd.cdw13.toNat * 2 ^ 32 : Int) = offset

/-- `getlogpage` on an admitted request. -/
theorem getlogpage_eq {lid offset nsid : Int} {size : Option Int} {buf : AdminBuffer} {n : Nat}
    (h : LogRequest lid (size.getD buf.len) offset nsid) (hn : size.getD buf.len / 4 - 1 = n) :
    getlogpage q lid buf size offset nsid = sendAdminRaw q (some buf) 0x2 nsid
      ((field n 0 16 <<< 16 : Nat) + lid) (field n 16 16 : Nat) offset (offset >>> (32 : Nat)) 0
      0 := by
  have hdwords : size.getD buf.len >>> (2 : Nat) - 1 = n := by
    rw [← hn, Int.shiftRight_eq_div_pow]
    rfl
  have hassert : ∀ {c : Prop} [Decidable c] (message : String), c → pyAssert c message = .ok () :=
    fun message hc => pyAssert_eq_ok.2 hc
  have hlow : n &&& 0xffff = field n 0 16 := Word.shiftRight_and n 0 16
  have hhigh : n >>> 16 &&& 0xffff = field n 16 16 := Word.shiftRight_and n 16 16
  have hlt : (n : Int) < 2 ^ 32 := hn ▸ h.size.2
  simp only [getlogpage, hdwords]
  rw [hassert _ h.size_mod, hassert _ h.offset_mod, hassert _ (Int.natCast_nonneg n),
    hassert _ hlt, hassert _ h.offset.1, hassert _ h.offset.2, Int.toNat_natCast, hlow, hhigh]
  rfl

/-- The number of dwords less one is split over two dwords, the log page below its first half. -/
theorem numd_lid {cdw10 cdw11 : BitVec 32} {lid : Int} {n : Nat} (hn : n < 2 ^ 32)
    (hlid : 0 ≤ lid ∧ lid ≤ 255) (h10 : ((field n 0 16 <<< 16 : Nat) + lid : Int) = cdw10.toNat)
    (h11 : field n 16 16 = cdw11.toNat) :
    field cdw10.toNat 16 16 ||| field cdw11.toNat 0 16 <<< 16 = n ∧
      (field cdw10.toNat 0 8 : Int) = lid := by
  have hlow : field n 0 16 < 2 ^ 16 := Nat.mod_lt _ (by decide)
  have hhigh : field n 16 16 < 2 ^ 16 := Nat.mod_lt _ (by decide)
  rw [Nat.shiftLeft_eq] at h10
  constructor
  · have hcdw10 : field cdw10.toNat 16 16 = field n 0 16 := by
      rw [Word.field]
      omega
    have hcdw11 : field cdw11.toNat 0 16 = field n 16 16 := by
      rw [← h11, Word.field_of_lt hhigh]
    have hall := Word.field_or n 0 16 16
    rw [Nat.zero_add] at hall
    rw [hcdw10, hcdw11, hall, Word.field_of_lt hn]
  · have hmod : field cdw10.toNat 0 8 = cdw10.toNat % 2 ^ 8 := by rw [Word.field]; simp
    omega

/-- An admitted request is submitted, with its fields in the dwords of the command, if and only
    if its offset is below 2^32. -/
theorem getlogpage_iff (hq : q.Accepts) {lid offset nsid : Int} {size : Option Int}
    {buf : AdminBuffer} (h : LogRequest lid (size.getD buf.len) offset nsid) :
    (∃ cmd, getlogpage q lid buf size offset nsid = .ok cmd ∧
      cmd.Requests lid (size.getD buf.len) offset nsid) ↔ offset < 2 ^ 32 := by
  obtain ⟨n, hn⟩ := Int.eq_ofNat_of_zero_le h.size.1
  have hlid := h.lid
  have hsize := h.size
  have hoffset := h.offset
  have hnsid := h.nsid
  have hlow : field n 0 16 < 2 ^ 16 := Nat.mod_lt _ (by decide)
  have hhigh : field n 16 16 < 2 ^ 16 := Nat.mod_lt _ (by decide)
  have hshift : field n 0 16 <<< 16 = field n 0 16 * 2 ^ 16 := Nat.shiftLeft_eq _ _
  simp only [getlogpage_eq h hn, sendAdminRaw_eq_ok hq]
  constructor
  · rintro ⟨cmd, ⟨-, -, -, -, hcdw12, -⟩, -⟩
    have := cmd.cdw12.isLt
    omega
  · intro hlt
    obtain ⟨dnsid, hdnsid⟩ := exists_dword hnsid.1 hnsid.2
    obtain ⟨cdw10, hcdw10⟩ := exists_dword (v := (field n 0 16 <<< 16 : Nat) + lid) (by omega)
      (by omega)
    obtain ⟨cdw11, hcdw11⟩ := exists_dword (v := (field n 16 16 : Nat)) (by omega) (by omega)
    obtain ⟨cdw12, hcdw12⟩ := exists_dword hoffset.1 hlt
    have hcdw13 : offset >>> (32 : Nat) = 0 := by
      rw [Int.shiftRight_eq_div_pow]
      omega
    obtain ⟨hnumd, hlid'⟩ := numd_lid (by omega) hlid hcdw10 (Nat.cast_inj.1 hcdw11)
    refine ⟨⟨0x2, dnsid, cdw10, cdw11, cdw12, 0, 0, 0, _, _⟩,
      ⟨rfl, hdnsid, hcdw10, hcdw11, hcdw12, hcdw13, rfl, rfl, rfl, rfl⟩, rfl, hdnsid.symm, ?_,
      hlid', ?_⟩
    · rw [hn]
      exact congrArg Nat.cast hnumd
    · simp [hcdw12]

/-- The first 512 bytes of the log page 2. -/
theorem getlogpage_smart : ∃ cmd, getlogpage ⟨fun _ => 0, fun _ => .ok ()⟩ 2
      ⟨512, 512, 0, .fresh fun _ => 0#8⟩ none 0 0xffffffff = .ok cmd ∧
    cmd.Requests 2 512 0 0xffffffff :=
  (getlogpage_iff ⟨fun _ => rfl, fun _ => rfl⟩
    ⟨by decide, by decide, by decide, by decide, by decide, by decide⟩).2 (by decide)

/-- A request at 4 GiB is admitted, and raises. -/
theorem getlogpage_raises : LogRequest 2 512 (2 ^ 32) 0xffffffff ∧
    getlogpage ⟨fun _ => 0, fun _ => .ok ()⟩ 2 ⟨512, 512, 0, .fresh fun _ => 0#8⟩ none (2 ^ 32)
      0xffffffff = .error .overflow :=
  ⟨⟨by decide, by decide, by decide, by decide, by decide, by decide⟩, rfl⟩

end Pynvme
