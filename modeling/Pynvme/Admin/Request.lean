import Mathlib.Data.Int.Bitwise
import Pynvme.Admin.Firmware

/-!
# The fields of admin commands

The methods of `Controller` put their arguments, Python integers of any size, into the fields of
a command by shifts and sums. Few of them are checked: a sum that fits in 32 bits is submitted,
whatever the arguments were. `decode` finds the fields in a command, as NVMe defines them.

* `admin_decode_iff`: what is decoded from the command is what the script has asked for, if and
  only if every argument fits in its field. Others are submitted too, as another request.
-/

namespace Pynvme

open Word (field field_high field_low)

/-- The dwords of a feature. -/
structure FeatureDwords where
  cdw11 : Int
  cdw12 : Int
  cdw13 : Int
  cdw14 : Int
  cdw15 : Int

section

variable (q : AdminQueue) (buf : Option AdminBuffer)

/-- `Controller.abort` -/
def abort (cid sqid : Int) : Except PyError AdminCmd :=
  sendAdminRaw q none 0x8 0 (cid <<< (16 : Nat) + sqid) 0 0 0 0 0

/-- `Controller.identify` -/
def identify (nsid cns cntid csi nvmsetid : Int) : Except PyError AdminCmd := do
  match buf with
  -- `len(None)`
  | none => .error .type
  | some buf => do
    pyAssert (4096 ≤ buf.len) ""
    sendAdminRaw q (some buf) 0x6 nsid (Int.lor (cntid <<< (16 : Nat)) cns)
      (Int.lor (csi <<< (24 : Nat)) nvmsetid) 0 0 0 0

/-- `Controller.getfeatures` -/
def getfeatures (fid sel : Int) (d : FeatureDwords) : Except PyError AdminCmd :=
  sendAdminRaw q buf 0xa 1 (sel <<< (8 : Nat) + fid) d.cdw11 d.cdw12 d.cdw13 d.cdw14 d.cdw15

/-- `Controller.setfeatures` -/
def setfeatures (fid sv : Int) (d : FeatureDwords) : Except PyError AdminCmd :=
  sendAdminRaw q buf 0x9 0xffffffff (sv <<< (31 : Nat) + fid) d.cdw11 d.cdw12 d.cdw13 d.cdw14
    d.cdw15

/-- `Controller.mi_send` and `Controller.mi_receive`. -/
def mi (admOpcode opcode dword0 dword1 mtype : Int) : Except PyError AdminCmd := do
  pyAssert (mtype = 1 ∨ mtype = 4) ""
  sendAdminRaw q buf admOpcode 0 (Int.lor (mtype <<< (11 : Nat)) 4) opcode dword0 dword1 0 0

/-- `Controller.mi_send` -/
def miSend : Int → Int → Int → Int → Except PyError AdminCmd := mi q buf 0x1d

/-- `Controller.mi_receive` -/
def miReceive : Int → Int → Int → Int → Except PyError AdminCmd := mi q buf 0x1e

/-- `Controller.sanitize` -/
def sanitize (option pattern : Int) : Except PyError AdminCmd :=
  sendAdminRaw q none 0x84 0 option pattern 0 0 0 0

/-- `Controller.dst` -/
def dst (stc nsid : Int) : Except PyError AdminCmd := sendAdminRaw q none 0x14 nsid stc 0 0 0 0 0

/-- `Controller.aer`, without the callback. -/
def aer : Except PyError AdminCmd := sendAdminRaw q none 0xc 0 0 0 0 0 0 0

/-- `Controller.security_receive` and `Controller.security_send`. -/
def security (opcode spsp secp nssf : Int) (size : Option Int) : Except PyError AdminCmd := do
  pyAssert (spsp < 64 * 1024) ""
  match buf with
  | none => .error (.assertion "")
  | some buf => do
    -- the same size of buffer
    let size := size.getD buf.len
    sendAdminRaw q (some buf) opcode 0 (secp <<< (24 : Nat) + spsp <<< (8 : Nat) + nssf) size 0 0 0
      0

/-- `Controller.security_receive` -/
def securityReceive : Int → Int → Int → Option Int → Except PyError AdminCmd := security q buf 0x82

/-- `Controller.security_send` -/
def securitySend : Int → Int → Int → Option Int → Except PyError AdminCmd := security q buf 0x81

end

/-! ### Requests -/

/-- What a script asks for by one of the methods. -/
inductive AdminRequest
  | abort (cid sqid : Int)
  | identify (nsid cns cntid csi nvmsetid : Int)
  | getfeatures (fid sel : Int) (d : FeatureDwords)
  | setfeatures (fid sv : Int) (d : FeatureDwords)
  | miSend (opcode dword0 dword1 mtype : Int)
  | miReceive (opcode dword0 dword1 mtype : Int)
  | sanitize (option pattern : Int)
  | dst (stc nsid : Int)
  | fwCommit (slot action : Int)
  | aer
  | securityReceive (spsp secp nssf size : Int)
  | securitySend (spsp secp nssf size : Int)

def AdminRequest.submit (q : AdminQueue) (buf : Option AdminBuffer) :
    AdminRequest → Except PyError AdminCmd
  | .abort cid sqid => Pynvme.abort q cid sqid
  | .identify nsid cns cntid csi nvmsetid => Pynvme.identify q buf nsid cns cntid csi nvmsetid
  | .getfeatures fid sel d => Pynvme.getfeatures q buf fid sel d
  | .setfeatures fid sv d => Pynvme.setfeatures q buf fid sv d
  | .miSend opcode dword0 dword1 mtype => Pynvme.miSend q buf opcode dword0 dword1 mtype
  | .miReceive opcode dword0 dword1 mtype => Pynvme.miReceive q buf opcode dword0 dword1 mtype
  | .sanitize option pattern => Pynvme.sanitize q option pattern
  | .dst stc nsid => Pynvme.dst q stc nsid
  | .fwCommit slot action => Pynvme.fwCommit q slot action
  | .aer => Pynvme.aer q
  | .securityReceive spsp secp nssf size => Pynvme.securityReceive q buf spsp secp nssf size
  | .securitySend spsp secp nssf size => Pynvme.securitySend q buf spsp secp nssf size

/-- An argument fits in a field of `w` bits. -/
def FitsIn (w : Nat) (v : Int) : Prop := 0 ≤ v ∧ v < 2 ^ w

def FeatureDwords.Fits (d : FeatureDwords) : Prop :=
  FitsIn 32 d.cdw11 ∧ FitsIn 32 d.cdw12 ∧ FitsIn 32 d.cdw13 ∧ FitsIn 32 d.cdw14 ∧ FitsIn 32 d.cdw15

/-- Every argument fits in its field. -/
def AdminRequest.Fits : AdminRequest → Prop
  | .abort cid sqid => FitsIn 16 cid ∧ FitsIn 16 sqid
  | .identify nsid cns cntid csi nvmsetid =>
    FitsIn 32 nsid ∧ FitsIn 8 cns ∧ FitsIn 16 cntid ∧ FitsIn 8 csi ∧ FitsIn 16 nvmsetid
  | .getfeatures fid sel d => FitsIn 8 fid ∧ FitsIn 3 sel ∧ d.Fits
  | .setfeatures fid sv d => FitsIn 8 fid ∧ FitsIn 1 sv ∧ d.Fits
  | .miSend opcode dword0 dword1 mtype | .miReceive opcode dword0 dword1 mtype =>
    FitsIn 32 opcode ∧ FitsIn 32 dword0 ∧ FitsIn 32 dword1 ∧ FitsIn 4 mtype
  | .sanitize option pattern => FitsIn 32 option ∧ FitsIn 32 pattern
  | .dst stc nsid => FitsIn 4 stc ∧ FitsIn 32 nsid
  | .fwCommit slot action => FitsIn 3 slot ∧ FitsIn 3 action
  | .aer => True
  | .securityReceive spsp secp nssf size | .securitySend spsp secp nssf size =>
    FitsIn 16 spsp ∧ FitsIn 8 secp ∧ FitsIn 8 nssf ∧ FitsIn 32 size

/-- There is a buffer, if one is needed, and the message of NVMe-MI has a type that is used. -/
def AdminRequest.Checked (buf : Option AdminBuffer) : AdminRequest → Prop
  | .identify .. => ∃ b, buf = some b ∧ 4096 ≤ b.len
  | .miSend _ _ _ mtype | .miReceive _ _ _ mtype => mtype = 1 ∨ mtype = 4
  | .securityReceive .. | .securitySend .. => buf.isSome
  | _ => True

/-- The dwords 11 to 15 of a command. -/
def AdminCmd.feature (cmd : AdminCmd) : FeatureDwords :=
  ⟨cmd.cdw11.toNat, cmd.cdw12.toNat, cmd.cdw13.toNat, cmd.cdw14.toNat, cmd.cdw15.toNat⟩

/-- The fields of a command, by its opcode. -/
def AdminCmd.decode (cmd : AdminCmd) : Option AdminRequest :=
  let cdw10 := cmd.cdw10.toNat
  let cdw11 := cmd.cdw11.toNat
  match cmd.opcode.toNat with
  | 0x8 => some (.abort (field cdw10 16 16) (field cdw10 0 16))
  | 0x6 => some (.identify cmd.nsid.toNat (field cdw10 0 8) (field cdw10 16 16) (field cdw11 24 8)
      (field cdw11 0 16))
  | 0xa => some (.getfeatures (field cdw10 0 8) (field cdw10 8 3) cmd.feature)
  | 0x9 => some (.setfeatures (field cdw10 0 8) (field cdw10 31 1) cmd.feature)
  | 0x1d => some (.miSend cdw11 cmd.cdw12.toNat cmd.cdw13.toNat (field cdw10 11 4))
  | 0x1e => some (.miReceive cdw11 cmd.cdw12.toNat cmd.cdw13.toNat (field cdw10 11 4))
  | 0x84 => some (.sanitize cdw10 cdw11)
  | 0x14 => some (.dst (field cdw10 0 4) cmd.nsid.toNat)
  | 0x10 => some (.fwCommit (field cdw10 0 3) (field cdw10 3 3))
  | 0xc => some .aer
  | 0x82 => some (.securityReceive (field cdw10 8 16) (field cdw10 24 8) (field cdw10 0 8) cdw11)
  | 0x81 => some (.securitySend (field cdw10 8 16) (field cdw10 24 8) (field cdw10 0 8) cdw11)
  | _ => none

/-! ### Fields -/

variable {q : AdminQueue} {buf : Option AdminBuffer} {v : Int} {w : Nat} {cmd : AdminCmd}
  {req : AdminRequest}

theorem fitsIn_field (x lo : Nat) : FitsIn w (field x lo w : Nat) :=
  ⟨Int.natCast_nonneg _, by exact_mod_cast Nat.mod_lt _ (Nat.two_pow_pos w)⟩

theorem fitsIn_toNat (d : BitVec 32) : FitsIn 32 (d.toNat : Int) :=
  ⟨Int.natCast_nonneg _, by exact_mod_cast d.isLt⟩

theorem FitsIn.exists_nat (h : FitsIn w v) : ∃ n : Nat, v = n ∧ n < 2 ^ w := by
  obtain ⟨n, rfl⟩ := Int.eq_ofNat_of_zero_le h.1
  exact ⟨n, rfl, by exact_mod_cast h.2⟩

theorem AdminCmd.fits_feature (cmd : AdminCmd) : cmd.feature.Fits :=
  ⟨fitsIn_toNat _, fitsIn_toNat _, fitsIn_toNat _, fitsIn_toNat _, fitsIn_toNat _⟩

/-- What is decoded fits in the fields it comes from. -/
theorem AdminCmd.fits_of_decode (h : cmd.decode = some req) : req.Fits := by
  simp only [decode] at h
  split at h
  case h_1 => exact Option.some.inj h ▸ ⟨fitsIn_field _ _, fitsIn_field _ _⟩
  case h_2 =>
    exact Option.some.inj h ▸ ⟨fitsIn_toNat _, fitsIn_field _ _, fitsIn_field _ _,
      fitsIn_field _ _, fitsIn_field _ _⟩
  case h_3 => exact Option.some.inj h ▸ ⟨fitsIn_field _ _, fitsIn_field _ _, cmd.fits_feature⟩
  case h_4 => exact Option.some.inj h ▸ ⟨fitsIn_field _ _, fitsIn_field _ _, cmd.fits_feature⟩
  case h_5 =>
    exact Option.some.inj h ▸ ⟨fitsIn_toNat _, fitsIn_toNat _, fitsIn_toNat _, fitsIn_field _ _⟩
  case h_6 =>
    exact Option.some.inj h ▸ ⟨fitsIn_toNat _, fitsIn_toNat _, fitsIn_toNat _, fitsIn_field _ _⟩
  case h_7 => exact Option.some.inj h ▸ ⟨fitsIn_toNat _, fitsIn_toNat _⟩
  case h_8 => exact Option.some.inj h ▸ ⟨fitsIn_field _ _, fitsIn_toNat _⟩
  case h_9 => exact Option.some.inj h ▸ ⟨fitsIn_field _ _, fitsIn_field _ _⟩
  case h_10 => exact Option.some.inj h ▸ trivial
  case h_11 =>
    exact Option.some.inj h ▸ ⟨fitsIn_field _ _, fitsIn_field _ _, fitsIn_field _ _, fitsIn_toNat _⟩
  case h_12 =>
    exact Option.some.inj h ▸ ⟨fitsIn_field _ _, fitsIn_field _ _, fitsIn_field _ _, fitsIn_toNat _⟩
  case h_13 => cases h

/-- What is submitted has passed the assertions. -/
theorem AdminRequest.checked_of_submit (h : req.submit q buf = .ok cmd) : req.Checked buf := by
  cases req with
  | identify nsid cns cntid csi nvmsetid =>
    rcases buf with _ | b
    · cases h
    · obtain ⟨_, hlen, _⟩ := Except.bind_eq_ok.1 h
      exact ⟨b, rfl, pyAssert_eq_ok.1 hlen⟩
  | miSend opcode dword0 dword1 mtype | miReceive opcode dword0 dword1 mtype =>
    obtain ⟨_, hmtype, _⟩ := Except.bind_eq_ok.1 h
    have hchecked : mtype = 1 ∨ mtype = 4 := pyAssert_eq_ok.1 hmtype
    exact hchecked
  | securityReceive spsp secp nssf size | securitySend spsp secp nssf size =>
    obtain ⟨_, _, h⟩ := Except.bind_eq_ok.1 h
    rcases buf with _ | b
    · cases h
    · rfl
  | _ => trivial

/-! ### Commands -/

/-- A command is submitted with its dwords, if these fit. -/
theorem exists_sendAdminRaw (hq : q.Accepts) (buf : Option AdminBuffer)
    (opcode nsid cdw10 cdw11 cdw12 cdw13 cdw14 cdw15 : Nat)
    (h : opcode < 2 ^ 32 ∧ nsid < 2 ^ 32 ∧ cdw10 < 2 ^ 32 ∧ cdw11 < 2 ^ 32 ∧ cdw12 < 2 ^ 32 ∧
      cdw13 < 2 ^ 32 ∧ cdw14 < 2 ^ 32 ∧ cdw15 < 2 ^ 32) :
    ∃ cmd, sendAdminRaw q buf opcode nsid cdw10 cdw11 cdw12 cdw13 cdw14 cdw15 = .ok cmd ∧
      cmd.opcode.toNat = opcode ∧ cmd.nsid.toNat = nsid ∧ cmd.cdw10.toNat = cdw10 ∧
      cmd.cdw11.toNat = cdw11 ∧ cmd.cdw12.toNat = cdw12 ∧ cmd.cdw13.toNat = cdw13 ∧
      cmd.cdw14.toNat = cdw14 ∧ cmd.cdw15.toNat = cdw15 := by
  have hdword : ∀ {n}, n < 2 ^ 32 → (BitVec.ofNat 32 n).toNat = n := fun h => by
    rw [BitVec.toNat_ofNat, Nat.mod_eq_of_lt h]
  obtain ⟨hopcode, hnsid, h10, h11, h12, h13, h14, h15⟩ := h
  refine ⟨⟨.ofNat 32 opcode, .ofNat 32 nsid, .ofNat 32 cdw10, .ofNat 32 cdw11, .ofNat 32 cdw12,
    .ofNat 32 cdw13, .ofNat 32 cdw14, .ofNat 32 cdw15,
    buf.map fun buf k => buf.mem.data (buf.offset + k), (buf.map (·.size)).getD 0⟩,
    (sendAdminRaw_eq_ok hq).2 ?_, hdword hopcode, hdword hnsid, hdword h10, hdword h11, hdword h12,
    hdword h13, hdword h14, hdword h15⟩
  simp only [hdword hopcode, hdword hnsid, hdword h10, hdword h11, hdword h12, hdword h13,
    hdword h14, hdword h15, and_self]

/-- Two fields are put side by side by a shift and a sum, or by `|`. -/
theorem shiftLeft_add (hi lo k : Nat) : (hi : Int) <<< k + (lo : Int) =
    (hi * 2 ^ k + lo : Nat) := by
  rw [Int.shiftLeft_eq]
  push_cast
  rfl

theorem lor_shiftLeft {hi lo k : Nat} (h : lo < 2 ^ k) :
    Int.lor ((hi : Int) <<< k) (lo : Int) = (hi * 2 ^ k + lo : Nat) := by
  have hshift : (hi : Int) <<< k = (hi <<< k : Nat) := rfl
  rw [hshift, ← Nat.shiftLeft_eq, Nat.shiftLeft_add_eq_or_of_lt h]
  rfl

theorem FeatureDwords.Fits.exists_nat {d : FeatureDwords} (h : d.Fits) :
    ∃ c11 c12 c13 c14 c15 : Nat, d = ⟨c11, c12, c13, c14, c15⟩ ∧ c11 < 2 ^ 32 ∧ c12 < 2 ^ 32 ∧
      c13 < 2 ^ 32 ∧ c14 < 2 ^ 32 ∧ c15 < 2 ^ 32 := by
  rcases d with ⟨c11, c12, c13, c14, c15⟩
  obtain ⟨f11, f12, f13, f14, f15⟩ := h
  obtain ⟨c11, rfl, h11⟩ := f11.exists_nat
  obtain ⟨c12, rfl, h12⟩ := f12.exists_nat
  obtain ⟨c13, rfl, h13⟩ := f13.exists_nat
  obtain ⟨c14, rfl, h14⟩ := f14.exists_nat
  obtain ⟨c15, rfl, h15⟩ := f15.exists_nat
  exact ⟨c11, c12, c13, c14, c15, rfl, h11, h12, h13, h14, h15⟩

theorem abort_decode (hq : q.Accepts) {cid sqid : Int} (h : (AdminRequest.abort cid sqid).Fits) :
    ∃ cmd, abort q cid sqid = .ok cmd ∧ cmd.decode = some (.abort cid sqid) := by
  obtain ⟨fcid, fsqid⟩ := h
  obtain ⟨cid, rfl, hcid⟩ := fcid.exists_nat
  obtain ⟨sqid, rfl, hsqid⟩ := fsqid.exists_nat
  obtain ⟨cmd, hsend, hop, -, h10, -⟩ := exists_sendAdminRaw hq none 0x8 0 (cid * 2 ^ 16 + sqid)
    0 0 0 0 0 (by omega)
  refine ⟨cmd, ?_, ?_⟩
  · rw [abort, shiftLeft_add]
    exact hsend
  · simp only [AdminCmd.decode, hop, h10, field_high hcid hsqid, field_low hsqid (Nat.le_refl 16)]

theorem identify_decode (hq : q.Accepts) {nsid cns cntid csi nvmsetid : Int}
    (h : (AdminRequest.identify nsid cns cntid csi nvmsetid).Fits)
    (hbuf : (AdminRequest.identify nsid cns cntid csi nvmsetid).Checked buf) :
    ∃ cmd, identify q buf nsid cns cntid csi nvmsetid = .ok cmd ∧
      cmd.decode = some (.identify nsid cns cntid csi nvmsetid) := by
  obtain ⟨fnsid, fcns, fcntid, fcsi, fset⟩ := h
  obtain ⟨nsid, rfl, hnsid⟩ := fnsid.exists_nat
  obtain ⟨cns, rfl, hcns⟩ := fcns.exists_nat
  obtain ⟨cntid, rfl, hcntid⟩ := fcntid.exists_nat
  obtain ⟨csi, rfl, hcsi⟩ := fcsi.exists_nat
  obtain ⟨nvmsetid, rfl, hset⟩ := fset.exists_nat
  obtain ⟨b, rfl, hlen⟩ := hbuf
  have hcns' : cns < 2 ^ 16 := by omega
  have hset' : nvmsetid < 2 ^ 24 := by omega
  obtain ⟨cmd, hsend, hop, hn, h10, h11, -⟩ := exists_sendAdminRaw hq (some b) 0x6 nsid
    (cntid * 2 ^ 16 + cns) (csi * 2 ^ 24 + nvmsetid) 0 0 0 0
    (by omega)
  refine ⟨cmd, Except.bind_eq_ok.2 ⟨(), pyAssert_eq_ok.2 hlen, ?_⟩, ?_⟩
  · rw [lor_shiftLeft hcns', lor_shiftLeft hset']
    exact hsend
  · simp only [AdminCmd.decode, hop, hn, h10, h11, field_high hcntid hcns', field_high hcsi hset',
      field_low hcns (by decide : 8 ≤ 16), field_low hset (by decide : 16 ≤ 24)]

theorem getfeatures_decode (hq : q.Accepts) (buf : Option AdminBuffer) {fid sel : Int}
    {d : FeatureDwords} (h : (AdminRequest.getfeatures fid sel d).Fits) :
    ∃ cmd, getfeatures q buf fid sel d = .ok cmd ∧ cmd.decode = some (.getfeatures fid sel d) := by
  obtain ⟨ffid, fsel, hd⟩ := h
  obtain ⟨fid, rfl, hfid⟩ := ffid.exists_nat
  obtain ⟨sel, rfl, hsel⟩ := fsel.exists_nat
  obtain ⟨c11, c12, c13, c14, c15, rfl, hc11, hc12, hc13, hc14, hc15⟩ := hd.exists_nat
  obtain ⟨cmd, hsend, hop, -, h10, h11, h12, h13, h14, h15⟩ := exists_sendAdminRaw hq buf 0xa 1
    (sel * 2 ^ 8 + fid) c11 c12 c13 c14 c15 (by omega)
  refine ⟨cmd, ?_, ?_⟩
  · rw [getfeatures, shiftLeft_add]
    exact hsend
  · simp only [AdminCmd.decode, AdminCmd.feature, hop, h10, h11, h12, h13, h14, h15,
      field_high hsel hfid, field_low hfid (Nat.le_refl 8)]

theorem setfeatures_decode (hq : q.Accepts) (buf : Option AdminBuffer) {fid sv : Int}
    {d : FeatureDwords} (h : (AdminRequest.setfeatures fid sv d).Fits) :
    ∃ cmd, setfeatures q buf fid sv d = .ok cmd ∧ cmd.decode = some (.setfeatures fid sv d) := by
  obtain ⟨ffid, fsv, hd⟩ := h
  obtain ⟨fid, rfl, hfid⟩ := ffid.exists_nat
  obtain ⟨sv, rfl, hsv⟩ := fsv.exists_nat
  obtain ⟨c11, c12, c13, c14, c15, rfl, hc11, hc12, hc13, hc14, hc15⟩ := hd.exists_nat
  have hfid' : fid < 2 ^ 31 := by omega
  obtain ⟨cmd, hsend, hop, -, h10, h11, h12, h13, h14, h15⟩ := exists_sendAdminRaw hq buf 0x9
    0xffffffff (sv * 2 ^ 31 + fid) c11 c12 c13 c14 c15 (by omega)
  refine ⟨cmd, ?_, ?_⟩
  · rw [setfeatures, shiftLeft_add]
    exact hsend
  · simp only [AdminCmd.decode, AdminCmd.feature, hop, h10, h11, h12, h13, h14, h15,
      field_high hsv hfid', field_low hfid (by decide : 8 ≤ 31)]

theorem mi_dwords (hq : q.Accepts) (buf : Option AdminBuffer)
    {admOpcode opcode dword0 dword1 mtype : Nat} (hadm : admOpcode < 2 ^ 32)
    (hop : opcode < 2 ^ 32) (h0 : dword0 < 2 ^ 32) (h1 : dword1 < 2 ^ 32)
    (hmtype : (mtype : Int) = 1 ∨ (mtype : Int) = 4) :
    ∃ cmd, mi q buf admOpcode opcode dword0 dword1 mtype = .ok cmd ∧
      cmd.opcode.toNat = admOpcode ∧ field cmd.cdw10.toNat 11 4 = mtype ∧
      cmd.cdw11.toNat = opcode ∧ cmd.cdw12.toNat = dword0 ∧ cmd.cdw13.toNat = dword1 := by
  obtain ⟨cmd, hsend, hop, -, h10, h11, h12, h13, -⟩ := exists_sendAdminRaw hq buf admOpcode 0
    (mtype * 2 ^ 11 + 4) opcode dword0 dword1 0 0 (by omega)
  refine ⟨cmd, Except.bind_eq_ok.2 ⟨(), pyAssert_eq_ok.2 hmtype, ?_⟩, hop, ?_, h11, h12, h13⟩
  · have hlor : Int.lor ((mtype : Int) <<< (11 : Nat)) 4 = (mtype * 2 ^ 11 + 4 : Nat) :=
      lor_shiftLeft (by decide)
    rw [hlor]
    exact hsend
  · have hmtype' : mtype < 2 ^ 4 := by omega
    rw [h10, field_high hmtype' (by decide)]

theorem miSend_decode (hq : q.Accepts) {opcode dword0 dword1 mtype : Int}
    (h : (AdminRequest.miSend opcode dword0 dword1 mtype).Fits)
    (hmtype : (AdminRequest.miSend opcode dword0 dword1 mtype).Checked buf) :
    ∃ cmd, miSend q buf opcode dword0 dword1 mtype = .ok cmd ∧
      cmd.decode = some (.miSend opcode dword0 dword1 mtype) := by
  obtain ⟨fop, f0, f1, ftype⟩ := h
  obtain ⟨opcode, rfl, hop⟩ := fop.exists_nat
  obtain ⟨dword0, rfl, h0⟩ := f0.exists_nat
  obtain ⟨dword1, rfl, h1⟩ := f1.exists_nat
  obtain ⟨mtype, rfl, htype⟩ := ftype.exists_nat
  obtain ⟨cmd, hsend, hadm, h10, h11, h12, h13⟩ :=
    mi_dwords hq buf (by decide : 0x1d < 2 ^ 32) hop h0 h1 hmtype
  refine ⟨cmd, hsend, ?_⟩
  simp only [AdminCmd.decode, hadm, h10, h11, h12, h13]

theorem miReceive_decode (hq : q.Accepts) {opcode dword0 dword1 mtype : Int}
    (h : (AdminRequest.miReceive opcode dword0 dword1 mtype).Fits)
    (hmtype : (AdminRequest.miReceive opcode dword0 dword1 mtype).Checked buf) :
    ∃ cmd, miReceive q buf opcode dword0 dword1 mtype = .ok cmd ∧
      cmd.decode = some (.miReceive opcode dword0 dword1 mtype) := by
  obtain ⟨fop, f0, f1, ftype⟩ := h
  obtain ⟨opcode, rfl, hop⟩ := fop.exists_nat
  obtain ⟨dword0, rfl, h0⟩ := f0.exists_nat
  obtain ⟨dword1, rfl, h1⟩ := f1.exists_nat
  obtain ⟨mtype, rfl, htype⟩ := ftype.exists_nat
  obtain ⟨cmd, hsend, hadm, h10, h11, h12, h13⟩ :=
    mi_dwords hq buf (by decide : 0x1e < 2 ^ 32) hop h0 h1 hmtype
  refine ⟨cmd, hsend, ?_⟩
  simp only [AdminCmd.decode, hadm, h10, h11, h12, h13]

theorem sanitize_decode (hq : q.Accepts) {option pattern : Int}
    (h : (AdminRequest.sanitize option pattern).Fits) :
    ∃ cmd, sanitize q option pattern = .ok cmd ∧
      cmd.decode = some (.sanitize option pattern) := by
  obtain ⟨foption, fpattern⟩ := h
  obtain ⟨option, rfl, hoption⟩ := foption.exists_nat
  obtain ⟨pattern, rfl, hpattern⟩ := fpattern.exists_nat
  obtain ⟨cmd, hsend, hop, -, h10, h11, -⟩ := exists_sendAdminRaw hq none 0x84 0 option pattern
    0 0 0 0 (by omega)
  refine ⟨cmd, hsend, ?_⟩
  simp only [AdminCmd.decode, hop, h10, h11]

theorem dst_decode (hq : q.Accepts) {stc nsid : Int} (h : (AdminRequest.dst stc nsid).Fits) :
    ∃ cmd, dst q stc nsid = .ok cmd ∧ cmd.decode = some (.dst stc nsid) := by
  obtain ⟨fstc, fnsid⟩ := h
  obtain ⟨stc, rfl, hstc⟩ := fstc.exists_nat
  obtain ⟨nsid, rfl, hnsid⟩ := fnsid.exists_nat
  obtain ⟨cmd, hsend, hop, hn, h10, -⟩ := exists_sendAdminRaw hq none 0x14 nsid stc 0 0 0 0 0
    (by omega)
  have hfield : field stc 0 4 = stc := by rw [field]; omega
  refine ⟨cmd, hsend, ?_⟩
  simp only [AdminCmd.decode, hop, hn, h10, hfield]

theorem fwCommit_decode (hq : q.Accepts) {slot action : Int}
    (h : (AdminRequest.fwCommit slot action).Fits) :
    ∃ cmd, fwCommit q slot action = .ok cmd ∧ cmd.decode = some (.fwCommit slot action) := by
  obtain ⟨fslot, faction⟩ := h
  obtain ⟨slot, rfl, hslot⟩ := fslot.exists_nat
  obtain ⟨action, rfl, haction⟩ := faction.exists_nat
  obtain ⟨cmd, hsend, hop, -, h10, -⟩ := exists_sendAdminRaw hq none 0x10 0
    (action * 2 ^ 3 + slot) 0 0 0 0 0 (by omega)
  refine ⟨cmd, Except.bind_eq_ok.2 ⟨(), pyAssert_eq_ok.2 (by omega),
    Except.bind_eq_ok.2 ⟨(), pyAssert_eq_ok.2 (by omega), ?_⟩⟩, ?_⟩
  · rw [shiftLeft_add]
    exact hsend
  · simp only [AdminCmd.decode, hop, h10, field_high haction hslot,
      field_low hslot (Nat.le_refl 3)]

theorem aer_decode (hq : q.Accepts) : ∃ cmd, aer q = .ok cmd ∧ cmd.decode = some .aer := by
  obtain ⟨cmd, hsend, hop, -⟩ := exists_sendAdminRaw hq none 0xc 0 0 0 0 0 0 0 (by decide)
  exact ⟨cmd, hsend, by simp only [AdminCmd.decode, hop]⟩

theorem security_dwords (hq : q.Accepts) {b : AdminBuffer} {opcode spsp secp nssf size : Nat}
    (hop : opcode < 2 ^ 32) (hspsp : spsp < 2 ^ 16) (hsecp : secp < 2 ^ 8) (hnssf : nssf < 2 ^ 8)
    (hsize : size < 2 ^ 32) :
    ∃ cmd, security q (some b) opcode spsp secp nssf (some size) = .ok cmd ∧
      cmd.opcode.toNat = opcode ∧ field cmd.cdw10.toNat 8 16 = spsp ∧
      field cmd.cdw10.toNat 24 8 = secp ∧ field cmd.cdw10.toNat 0 8 = nssf ∧
      cmd.cdw11.toNat = size := by
  obtain ⟨cmd, hsend, hop, -, h10, h11, -⟩ := exists_sendAdminRaw hq (some b) opcode 0
    (secp * 2 ^ 24 + spsp * 2 ^ 8 + nssf) size 0 0 0 0 (by omega)
  have hsum : (secp : Int) <<< (24 : Nat) + (spsp : Int) <<< (8 : Nat) + (nssf : Int) =
      (secp * 2 ^ 24 + spsp * 2 ^ 8 + nssf : Nat) := by
    rw [Int.shiftLeft_eq, Int.shiftLeft_eq]
    push_cast
    rfl
  have hspsp' : (spsp : Int) < 64 * 1024 := by omega
  refine ⟨cmd, Except.bind_eq_ok.2 ⟨(), pyAssert_eq_ok.2 hspsp', ?_⟩, hop, ?_, ?_, ?_, h11⟩
  · simp only [Option.getD_some, hsum]
    exact hsend
  · rw [h10, field]
    omega
  · rw [h10, field]
    omega
  · rw [h10, field]
    omega

theorem securityReceive_decode (hq : q.Accepts) {spsp secp nssf size : Int}
    (h : (AdminRequest.securityReceive spsp secp nssf size).Fits)
    (hbuf : (AdminRequest.securityReceive spsp secp nssf size).Checked buf) :
    ∃ cmd, securityReceive q buf spsp secp nssf (some size) = .ok cmd ∧
      cmd.decode = some (.securityReceive spsp secp nssf size) := by
  obtain ⟨fspsp, fsecp, fnssf, fsize⟩ := h
  obtain ⟨b, rfl⟩ := Option.isSome_iff_exists.1 hbuf
  obtain ⟨spsp, rfl, hspsp⟩ := fspsp.exists_nat
  obtain ⟨secp, rfl, hsecp⟩ := fsecp.exists_nat
  obtain ⟨nssf, rfl, hnssf⟩ := fnssf.exists_nat
  obtain ⟨size, rfl, hsize⟩ := fsize.exists_nat
  obtain ⟨cmd, hsend, hop, h8, h24, h0, h11⟩ :=
    security_dwords hq (b := b) (by decide : 0x82 < 2 ^ 32) hspsp hsecp hnssf hsize
  refine ⟨cmd, hsend, ?_⟩
  simp only [AdminCmd.decode, hop, h8, h24, h0, h11]

theorem securitySend_decode (hq : q.Accepts) {spsp secp nssf size : Int}
    (h : (AdminRequest.securitySend spsp secp nssf size).Fits)
    (hbuf : (AdminRequest.securitySend spsp secp nssf size).Checked buf) :
    ∃ cmd, securitySend q buf spsp secp nssf (some size) = .ok cmd ∧
      cmd.decode = some (.securitySend spsp secp nssf size) := by
  obtain ⟨fspsp, fsecp, fnssf, fsize⟩ := h
  obtain ⟨b, rfl⟩ := Option.isSome_iff_exists.1 hbuf
  obtain ⟨spsp, rfl, hspsp⟩ := fspsp.exists_nat
  obtain ⟨secp, rfl, hsecp⟩ := fsecp.exists_nat
  obtain ⟨nssf, rfl, hnssf⟩ := fnssf.exists_nat
  obtain ⟨size, rfl, hsize⟩ := fsize.exists_nat
  obtain ⟨cmd, hsend, hop, h8, h24, h0, h11⟩ :=
    security_dwords hq (b := b) (by decide : 0x81 < 2 ^ 32) hspsp hsecp hnssf hsize
  refine ⟨cmd, hsend, ?_⟩
  simp only [AdminCmd.decode, hop, h8, h24, h0, h11]

/-! ### Decoding -/

/-- A request is submitted, and decoded from its command, if and only if its arguments fit in
    their fields and the assertions hold. -/
theorem admin_decode_iff (hq : q.Accepts) (req : AdminRequest) (buf : Option AdminBuffer) :
    (∃ cmd, req.submit q buf = .ok cmd ∧ cmd.decode = some req) ↔ req.Fits ∧ req.Checked buf := by
  constructor
  · rintro ⟨cmd, hsubmit, hdecode⟩
    exact ⟨AdminCmd.fits_of_decode hdecode, AdminRequest.checked_of_submit hsubmit⟩
  · rintro ⟨hfits, hchecked⟩
    cases req with
    | abort cid sqid => exact abort_decode hq hfits
    | identify nsid cns cntid csi nvmsetid => exact identify_decode hq hfits hchecked
    | getfeatures fid sel d => exact getfeatures_decode hq buf hfits
    | setfeatures fid sv d => exact setfeatures_decode hq buf hfits
    | miSend opcode dword0 dword1 mtype => exact miSend_decode hq hfits hchecked
    | miReceive opcode dword0 dword1 mtype => exact miReceive_decode hq hfits hchecked
    | sanitize option pattern => exact sanitize_decode hq hfits
    | dst stc nsid => exact dst_decode hq hfits
    | fwCommit slot action => exact fwCommit_decode hq hfits
    | aer => exact aer_decode hq
    | securityReceive spsp secp nssf size => exact securityReceive_decode hq hfits hchecked
    | securitySend spsp secp nssf size => exact securitySend_decode hq hfits hchecked

/-- The abort of the command 3 of the queue 5. -/
theorem admin_decode_iff_abort :
    ∃ cmd, (AdminRequest.abort 3 5).submit ⟨fun _ => 0, fun _ => .ok ()⟩ none = .ok cmd ∧
      cmd.decode = some (.abort 3 5) :=
  (admin_decode_iff ⟨fun _ => rfl, fun _ => rfl⟩ (.abort 3 5) none).2
    ⟨⟨⟨by decide, by decide⟩, by decide, by decide⟩, trivial⟩

-- the queue 2^16 does not fit: the command 1 of the admin queue is aborted
example : (AdminRequest.abort 0 0x10000).submit ⟨fun _ => 0, fun _ => .ok ()⟩ none =
    (AdminRequest.abort 1 0).submit ⟨fun _ => 0, fun _ => .ok ()⟩ none := rfl

end Pynvme
