import Mathlib.Data.Set.Card
import Pynvme.Admin.Format
import Pynvme.Crc.Marks

/-!
# Zones

A zoned namespace takes writes at the write pointer of a zone, up to the capacity of the zone,
which may be less than its size. A `Zone` of the scripts is one zone, or several consecutive
ones. It reads its capacity from the report of the device, and marks the LBAs between the
capacity of a zone and the next zone as uncorrectable, for the ioworkers to skip them.

* `zone_marks_iff`: the LBAs that are marked are those between the zones, if and only if these
  are fewer than 2^16 in each of them.
* `zone_marks_kept`: they stay the marked ones, whatever is read and written in the zones.
* `zone_opens`: on a drive that has the resources for them, all the zones are opened for an
  ioworker, and empty, although the state that is looked up is always that of the first one.

What a drive does with the commands that reset and open a zone is a parameter, and follows a
rule (`MgmtRule`).
-/

namespace Pynvme

/-! ### The device -/

inductive ZoneState
  | empty
  | implicitlyOpened
  | explicitlyOpened
  | closed
  | readOnly
  | full
  | offline
  deriving DecidableEq

/-- The state as it is reported. -/
def ZoneState.code : ZoneState → Nat
  | .empty => 1
  | .implicitlyOpened => 2
  | .explicitlyOpened => 3
  | .closed => 4
  | .readOnly => 0xd
  | .full => 0xe
  | .offline => 0xf

/-- The state and the write pointer of a zone. -/
structure ZoneDesc where
  state : ZoneState
  wp : Nat

/-- A zoned namespace: the size of its zones, and the capacity and the descriptor of each of them,
    by its first LBA. -/
structure ZnsDevice where
  zsze : Nat
  capacity : Nat → Nat
  zone : Nat → ZoneDesc
  zsze_pos : 0 < zsze
  zsze_lt : zsze < 2 ^ 64
  capacity_le : ∀ s, capacity s ≤ zsze
  empty_wp : ∀ s, (zone s).state = .empty → (zone s).wp = s

namespace ZnsDevice

/-- The first LBA of the zone of an LBA. -/
def start (dev : ZnsDevice) (lba : Nat) : Nat := lba / dev.zsze * dev.zsze

/-- The first descriptor that is reported from an LBA on, behind the header of 64 bytes. -/
def report (dev : ZnsDevice) (slba : Nat) : Bytes :=
  let s := dev.start slba
  (((Bytes.writeLe (fun _ => 0#8) 64 1 2).writeLe 65 1 ((dev.zone s).state.code <<< 4)).writeLe 72 8
    (dev.capacity s)).writeLe 80 8 s |>.writeLe 88 8 (dev.zone s).wp

/-- The zones that take up resources of the drive. -/
def active (dev : ZnsDevice) : Set Nat :=
  {t | (dev.zone t).state ∈ [.implicitlyOpened, .explicitlyOpened, .closed]}

end ZnsDevice

/-! ### The commands -/

namespace Namespace

/-- `Namespace.zns_mgmt_receive` -/
def znsMgmtReceive (slba dwords : Nat) (extended : Bool) (state : Nat) (part : Bool) :
    Option NvmeCmd :=
  if dwords = 0 ∨ 2 ^ 32 ≤ part.toNat <<< 16 + state <<< 8 + extended.toNat then none
  else
    (sendIoRaw 0x7a#8 (slba &&& 0xffffffff) (slba >>> 32) (dwords - 1)).map fun cmd =>
      { cmd with cdw13 := BitVec.ofNat 32 (part.toNat <<< 16 + state <<< 8 + extended.toNat) }

/-- `Namespace.zns_mgmt_send` -/
def znsMgmtSend (slba action : Nat) (all : Bool) : Option NvmeCmd :=
  if 2 ^ 32 ≤ all.toNat <<< 8 + action then none
  else
    (sendIoRaw 0x79#8 (slba &&& 0xffffffff) (slba >>> 32) 0).map fun cmd =>
      { cmd with cdw13 := BitVec.ofNat 32 (all.toNat <<< 8 + action) }

end Namespace

/-! ### `Zone` -/

/-- The zones of a `Zone`: they start at `slba` and end before `elba`, and have the capacity of the
    first one. -/
structure Zone where
  slba : Nat
  elba : Nat
  capacity : Nat
  zsze : Nat
  zsze_pos : 0 < zsze

namespace Zone

/-- `Zone._mgmt_receive` -/
def mgmtReceive (dev : ZnsDevice) (slba : Nat) : Except FormatError Memory := do
  match Namespace.znsMgmtReceive slba (4096 >>> 2) true 0 true with
  | none => .error (.py .overflow)
  | some cmd => do
    let buf := Memory.fresh fun a => dev.report cmd.slba a.toNat
    let type ← (bufferData 4096 buf (.int 64) (.int 64)).1.mapError .py
    (pyAssert (type = 2) "").mapError .py
    let start ← (bufferData 4096 buf (.int 87) (.int 80)).1.mapError .py
    (pyAssert (start = slba) "").mapError .py
    return buf

/-- `Zone.slba_list`: `range(self.slba, self.elba, self.zsze)` -/
def slbaList (z : Zone) : List Nat :=
  (List.range ((z.elba - z.slba + z.zsze - 1) / z.zsze)).map fun i => z.slba + i * z.zsze

section

variable (mgmtSend : ZnsDevice → NvmeCmd → ZnsDevice)

/-- `Zone.action`, on a drive that makes `mgmtSend` of the command. One that fails only warns. -/
def action (dev : ZnsDevice) (action slba : Nat) : Except FormatError ZnsDevice :=
  match Namespace.znsMgmtSend slba action false with
  | none => .error (.py .overflow)
  | some cmd => .ok (mgmtSend dev cmd)

end

end Zone

section

variable (crc32c : List (BitVec 8) → BitVec 32)

/-- A request and the wait for it, with a device that completes it with success. One whose LBAs are
    locked is waited for until the alarm. -/
def Ns.waitdone (ns : Ns) (req : Request) : Except FormatError Ns :=
  let (ns, locked) := crc32LockLba ns req
  if locked then .ok (crc32UnlockLba (cmdlogCmdCpl crc32c ns req .success).1 req)
  else .error .timeout

variable (qpairId : Nat)

/-- The lba out of the capacity of a zone are marked as uncorrectable. -/
def Zone.mark (z : Zone) (ns : Ns) (s : Nat) : Except FormatError Ns :=
  if z.zsze > z.capacity then
    match Namespace.writeUncorrectable (s + z.capacity) (z.zsze - z.capacity) with
    | none => .error (.py .overflow)
    | some cmd => ns.waitdone crc32c ⟨cmd, qpairId, fun _ => 0#8⟩
  else .ok ns

/-- `Zone.__init__`, with the identify data of the namespace that has the size of its zones. -/
def Zone.init (dev : ZnsDevice) (identify : Except FormatError Memory) (slba : Nat)
    (elba : Option Nat) (ns : Ns) : Except FormatError (Zone × Ns) := do
  let buf ← mgmtReceive dev slba
  let capacity ← (bufferData 4096 buf (.int 79) (.int 72)).1.mapError .py
  let zsze ← Namespace.idData identify 2831 2816
  let z : Zone :=
    { slba, elba := elba.getD (slba + capacity), capacity
      zsze := if zsze = 0 then 0x8000 else zsze
      zsze_pos := by split_ifs <;> omega }
  let ns ← z.slbaList.foldlM (z.mark crc32c qpairId) ns
  return (z, ns)

end

/-! ### The report -/

variable {dev dev' : ZnsDevice} {slba : Nat} {z : Zone} {s : Nat}

theorem sendIoRaw_slba (opcode : BitVec 8) {cdw12 : Nat} (hslba : slba < 2 ^ 64)
    (h12 : cdw12 < 2 ^ 32) :
    ∃ cmd, sendIoRaw opcode (slba &&& 0xffffffff) (slba >>> 32) cdw12 = some cmd ∧
      cmd.slba = slba := by
  have hlow : slba &&& 0xffffffff = slba % 2 ^ 32 := Nat.and_two_pow_sub_one_eq_mod slba 32
  have hfits : slba % 2 ^ 32 < 2 ^ 32 ∧ slba / 2 ^ 32 < 2 ^ 32 ∧ cdw12 < 2 ^ 32 := by omega
  rw [sendIoRaw, hlow, Nat.shiftRight_eq_div_pow, if_pos hfits]
  refine ⟨_, rfl, ?_⟩
  simp only [NvmeCmd.slba, BitVec.toNat_ofNat]
  omega

theorem ZoneState.code_lt (state : ZoneState) : state.code < 16 := by cases state <;> decide

namespace ZnsDevice

theorem capacity_lt (dev : ZnsDevice) (s : Nat) : dev.capacity s < 2 ^ 64 :=
  Nat.lt_of_le_of_lt (dev.capacity_le s) dev.zsze_lt

theorem start_le (dev : ZnsDevice) (lba : Nat) : dev.start lba ≤ lba := Nat.div_mul_le_self _ _

/-- The fields of the first descriptor. -/
theorem report_fields (dev : ZnsDevice) (hslba : slba < 2 ^ 64) :
    (dev.report slba).readLe 64 1 = 2 ∧
      (dev.report slba).readLe 65 1 = (dev.zone (dev.start slba)).state.code <<< 4 ∧
      (dev.report slba).readLe 72 8 = dev.capacity (dev.start slba) ∧
      (dev.report slba).readLe 80 8 = dev.start slba := by
  have hcode : (dev.zone (dev.start slba)).state.code <<< 4 < 256 ^ 1 := by
    have := (dev.zone (dev.start slba)).state.code_lt
    rw [Nat.shiftLeft_eq]
    omega
  have hstart : dev.start slba < 256 ^ 8 := Nat.lt_of_le_of_lt (dev.start_le slba) hslba
  have hcap : dev.capacity (dev.start slba) < 256 ^ 8 := dev.capacity_lt _
  simp only [report]
  refine ⟨?_, ?_, ?_, ?_⟩
  · iterate 4 rw [Bytes.readLe_writeLe_of_disjoint (.inl (by decide))]
    exact Bytes.readLe_writeLe_self (by decide)
  · iterate 3 rw [Bytes.readLe_writeLe_of_disjoint (.inl (by decide))]
    exact Bytes.readLe_writeLe_self hcode
  · iterate 2 rw [Bytes.readLe_writeLe_of_disjoint (.inl (by decide))]
    exact Bytes.readLe_writeLe_self hcap
  · rw [Bytes.readLe_writeLe_of_disjoint (.inl (by decide))]
    exact Bytes.readLe_writeLe_self hstart

/-- The report as it is in the buffer. -/
def reportMemory (dev : ZnsDevice) (slba : Nat) : Memory :=
  .fresh fun a => dev.report slba a.toNat

/-- A field of the report is read from the buffer. -/
theorem reportMemory_data (dev : ZnsDevice) (slba : Nat) {a n : Nat} (h : a + n ≤ 4096)
    (hn : 0 < n) : (bufferData 4096 (dev.reportMemory slba) (.int (a + n - 1 : Nat)) (.int a)).1 =
      .ok ((dev.report slba).readLe a n) := by
  rw [(bufferData_eq rfl (by omega) h _).1]
  rfl

end ZnsDevice

namespace Zone

theorem znsMgmtReceive_eq_none (h : 2 ^ 64 ≤ slba) (state : Nat) (extended part : Bool) :
    Namespace.znsMgmtReceive slba 1024 extended state part = none := by
  rw [Namespace.znsMgmtReceive]
  split
  · rfl
  · rw [sendIoRaw, if_neg, Option.map_none]
    rw [Nat.shiftRight_eq_div_pow]
    omega

/-- The report is received if it is that of the zone at `slba`. -/
theorem mgmtReceive_eq_ok {buf : Memory} : mgmtReceive dev slba = .ok buf ↔
    slba < 2 ^ 64 ∧ dev.start slba = slba ∧ buf = dev.reportMemory slba := by
  rcases Nat.lt_or_ge slba (2 ^ 64) with hslba | hslba
  · have hdwords : 1023 < 2 ^ 32 := by decide
    obtain ⟨cmd, hsend, hcmd⟩ := sendIoRaw_slba 0x7a#8 hslba hdwords
    have hreceive : Namespace.znsMgmtReceive slba (4096 >>> 2) true 0 true =
        some { cmd with cdw13 := 0x10001#32 } := by
      rw [Namespace.znsMgmtReceive, if_neg (by decide)]
      exact (congrArg _ hsend).trans rfl
    obtain ⟨htype, -, -, hstart⟩ := dev.report_fields hslba
    have h64 : (bufferData 4096 (dev.reportMemory slba) (.int 64) (.int 64)).1 = .ok 2 :=
      (dev.reportMemory_data slba (a := 64) (n := 1) (by decide) (by decide)).trans
        (congrArg _ htype)
    have h80 : (bufferData 4096 (dev.reportMemory slba) (.int 87) (.int 80)).1 =
        .ok (dev.start slba) :=
      (dev.reportMemory_data slba (a := 80) (n := 8) (by decide) (by decide)).trans
        (congrArg _ hstart)
    have hbuf : (Memory.fresh fun a =>
        dev.report ({ cmd with cdw13 := 0x10001#32 } : NvmeCmd).slba a.toNat) =
        dev.reportMemory slba := by
      rw [ZnsDevice.reportMemory, ← hcmd]
      rfl
    simp only [mgmtReceive, hreceive, hbuf, h64, h80, Except.bind_eq_ok, Except.mapError_eq_ok,
      pyAssert_eq_ok, Except.pure_eq_ok, Except.ok.injEq]
    constructor
    · rintro ⟨_, -, _, -, _, rfl, _, hstart, rfl⟩
      exact ⟨hslba, hstart, rfl⟩
    · rintro ⟨-, hstart, rfl⟩
      exact ⟨2, rfl, (), rfl, _, rfl, (), hstart, rfl⟩
  · rw [mgmtReceive, show 4096 >>> 2 = 1024 from rfl, znsMgmtReceive_eq_none hslba]
    simp only [reduceCtorEq, false_iff]
    omega

/-! ### The marks -/

variable {crc32c : List (BitVec 8) → BitVec 32} {qpairId : Nat} {ns ns' : Ns}
  {identify : Except FormatError Memory} {elba : Option Nat} {j lba n : Nat} {cmd : NvmeCmd}

theorem mem_slbaList : s ∈ z.slbaList ↔ ∃ i, s = z.slba + i * z.zsze ∧ s < z.elba := by
  have hlt (i : Nat) : i < (z.elba - z.slba + z.zsze - 1) / z.zsze ↔
      z.slba + i * z.zsze < z.elba := by
    have hpos := z.zsze_pos
    rw [Nat.lt_iff_add_one_le, Nat.le_div_iff_mul_le hpos, Nat.add_one_mul]
    omega
  simp only [slbaList, List.mem_map, List.mem_range]
  constructor
  · rintro ⟨i, hi, rfl⟩
    exact ⟨i, rfl, (hlt i).1 hi⟩
  · rintro ⟨i, rfl, hi⟩
    exact ⟨i, (hlt i).2 hi, rfl⟩

/-- The LBAs between the capacity of a zone and the next zone. -/
def Gap (z : Zone) (lba : Nat) : Prop :=
  ∃ s ∈ z.slbaList, s + z.capacity ≤ lba ∧ lba < s + z.zsze

/-- What is marked of the zone at `s`. -/
def Marked (z : Zone) (s lba : Nat) : Prop :=
  s + z.capacity ≤ lba ∧ lba < s + z.capacity + (z.zsze - z.capacity) % 2 ^ 16

theorem writeUncorrectable_eq_some (h : Namespace.writeUncorrectable lba n = some cmd)
    (hn : 0 < n) :
    cmd.opc = 4#8 ∧ cmd.slba = lba ∧ cmd.nlbField = (n - 1) % 2 ^ 16 := by
  rw [Namespace.writeUncorrectable, sendRange, if_neg hn.ne', sendIoRaw] at h
  split at h
  case isTrue hfits =>
    obtain rfl := Option.some.inj h
    have hlow : lba &&& 0xffffffff = lba % 2 ^ 32 := Nat.and_two_pow_sub_one_eq_mod lba 32
    rw [Nat.shiftRight_eq_div_pow, Nat.zero_shiftLeft, Nat.or_zero] at hfits
    refine ⟨rfl, ?_, ?_⟩
    · simp only [NvmeCmd.slba, hlow, Nat.shiftRight_eq_div_pow, BitVec.toNat_ofNat]
      omega
    · simp only [NvmeCmd.nlbField, Word.u16, Nat.zero_shiftLeft, Nat.or_zero, BitVec.toNat_ofNat]
      omega
  case isFalse => cases h

theorem or_andNot_lockBit {e : BitVec 32} (h : isLocked e = false) :
    (e ||| lockBit) &&& ~~~lockBit = e := by
  have hx := crcOf_of_not_isLocked (isLocked_andNot (e ||| lockBit))
  rw [← hx, crcOf_andNot, crcOf_or, crcOf_of_not_isLocked h]

/-- No LBA of an unlocked table is found locked. -/
theorem checkLockBits_of_free {slba nlb : Nat} (hfits : slba + nlb ≤ ns.entries) (hnlb : 0 < nlb)
    (hfree : ∀ j < ns.entries, isLocked (ns.entry j) = false) :
    crc32CheckLockBits ns slba nlb = false := by
  have hN := ns.entries_lt
  have hle : Word.u16 nlb ≤ nlb := Nat.mod_le _ _
  have hspan : Word.u16 (Word.u16 nlb) ≤ Word.u16 nlb := Nat.mod_le _ _
  rw [Bool.eq_false_iff]
  intro hcheck
  obtain ⟨j, ⟨-, -, hj⟩, hlocked⟩ := checkLockBits_iff.1 hcheck
  rw [lockNlb_of_le (by omega) (by omega), Word.span_iff (by omega)] at hj
  rw [hfree j (by omega)] at hlocked
  cases hlocked

/-- On an unlocked table, a write uncorrectable is sent, and marks as many LBAs as its number of
    blocks, of 16 bits, says. -/
theorem waitdone_entry {req : Request} (h : ns.waitdone crc32c req = .ok ns')
    (hq : req.qpairId ≠ 0) (hopc : req.cmd.opc = 4#8) (ht : ns.crcTable.isSome)
    (hfits : req.cmd.slba + (req.cmd.nlbField + 1) ≤ ns.entries)
    (hfree : ∀ j < ns.entries, isLocked (ns.entry j) = false) :
    ns'.shape = ns.shape ∧ ∀ j < ns.entries, ns'.entry j =
      if req.cmd.slba ≤ j ∧ j < req.cmd.slba + req.cmd.lbaCount then uncorrCrc
      else ns.entry j := by
  have hN := ns.entries_lt
  have hnlb := req.cmd.nlbField_lt
  have hcount : req.cmd.lbaCount ≤ req.cmd.nlbField + 1 := Nat.mod_le _ _
  have hrange : isRangeOpc req.cmd.opc = true := by rw [hopc]; rfl
  have hlock : crc32LockLba ns req =
      (crc32SetLockBits ns req.cmd.slba (req.cmd.nlbField + 1) true, true) := by
    rw [crc32LockLba, if_neg hq, if_pos hrange,
      checkLockBits_of_free hfits (Nat.succ_pos _) hfree, if_neg Bool.false_ne_true]
  have hcpl (ns : Ns) : (cmdlogCmdCpl crc32c ns req .success).1 =
      crc32Clear ns req.cmd.slba (req.cmd.lbaCount * 4) true := by
    simp [cmdlogCmdCpl, Status.isError, Status.success, cmdlogUpdateCrc, hq, cmdlogUpdateCrcIo,
      hopc]
  have hunlock (ns : Ns) : crc32UnlockLba ns req =
      crc32SetLockBits ns req.cmd.slba (req.cmd.nlbField + 1) false := by
    rw [crc32UnlockLba, if_neg hq, if_pos hrange]
  simp only [Ns.waitdone, hlock, hcpl, hunlock, if_true, Except.ok.injEq] at h
  subst h
  generalize hns₁ : crc32SetLockBits ns req.cmd.slba (req.cmd.nlbField + 1) true = ns₁
  have hshape₁ : ns₁.shape = ns.shape := by rw [← hns₁, shape_setLockBits]
  generalize hns₂ : crc32Clear ns₁ req.cmd.slba (req.cmd.lbaCount * 4) true = ns₂
  have hshape₂ : ns₂.shape = ns.shape := by rw [← hns₂, shape_clear, hshape₁]
  refine ⟨by rw [shape_setLockBits, hshape₂], fun j hj => ?_⟩
  -- the LBAs that are locked, and those that are marked
  have hspan {ns₀ : Ns} (hshape : ns₀.shape = ns.shape) :
      LockSpan ns₀ req.cmd.slba (req.cmd.nlbField + 1) j ↔
        req.cmd.slba ≤ j ∧ j < req.cmd.slba + (req.cmd.nlbField + 1) := by
    rw [lockSpan_of_shape hshape, lockSpan_iff ht (by omega) (by omega) hj]
  have hclear : ClearSpan ns₁ req.cmd.slba (req.cmd.lbaCount * 4) j ↔
      req.cmd.slba ≤ j ∧ j < req.cmd.slba + req.cmd.lbaCount := by
    rw [clearSpan_iff_lockSpan (by omega) (by omega), lockSpan_of_shape hshape₁,
      lockSpan_iff ht (by omega) (by omega) hj]
  by_cases hmarked : req.cmd.slba ≤ j ∧ j < req.cmd.slba + req.cmd.lbaCount
  · rw [if_pos hmarked, entry_setLockBits (by omega) ((hspan hshape₂).2 (by omega)), ← hns₂,
      entry_clear (by omega) (hclear.2 hmarked)]
    decide
  · rw [if_neg hmarked]
    have hkept : ns₂.entry j = ns₁.entry j := by
      rw [← hns₂, entry_clear_of_not (mt hclear.1 hmarked)]
    by_cases hlocked : req.cmd.slba ≤ j ∧ j < req.cmd.slba + (req.cmd.nlbField + 1)
    · rw [entry_setLockBits (by omega) ((hspan hshape₂).2 hlocked), hkept, ← hns₁,
        entry_setLockBits (by omega) ((hspan rfl).2 hlocked)]
      exact or_andNot_lockBit (hfree j hj)
    · rw [entry_setLockBits_of_not (mt (hspan hshape₂).1 hlocked), hkept, ← hns₁,
        entry_setLockBits_of_not (mt (hspan rfl).1 hlocked)]

theorem mark_entry (h : z.mark crc32c qpairId ns s = .ok ns') (hq : qpairId ≠ 0)
    (ht : ns.crcTable.isSome) (hfits : s + z.zsze ≤ ns.entries)
    (hfree : ∀ j < ns.entries, isLocked (ns.entry j) = false) :
    ns'.shape = ns.shape ∧ ∀ j < ns.entries,
      (z.Marked s j → ns'.entry j = uncorrCrc) ∧ (¬z.Marked s j → ns'.entry j = ns.entry j) := by
  have hN := ns.entries_lt
  rw [mark] at h
  split at h
  case isTrue hgap =>
    have hgap : 0 < z.zsze - z.capacity := Nat.sub_pos_of_lt hgap
    split at h
    case h_1 => cases h
    case h_2 cmd hcmd =>
      obtain ⟨hopc, hslba, hnlb⟩ := writeUncorrectable_eq_some hcmd hgap
      have hcount : cmd.lbaCount = (z.zsze - z.capacity) % 2 ^ 16 := by
        rw [NvmeCmd.lbaCount, Word.u16, hnlb]
        omega
      have hcmdfits : cmd.slba + (cmd.nlbField + 1) ≤ ns.entries := by
        rw [hslba, hnlb]
        omega
      obtain ⟨hshape, hentry⟩ := waitdone_entry h hq hopc ht hcmdfits hfree
      refine ⟨hshape, fun j hj => ?_⟩
      have hj := hentry j hj
      dsimp only at hj
      rw [hslba, hcount] at hj
      exact ⟨fun hmarked => hj.trans (if_pos hmarked), fun hmarked => hj.trans (if_neg hmarked)⟩
  case isFalse hgap =>
    obtain rfl := Except.ok.inj h
    refine ⟨rfl, fun j _ => ⟨fun hmarked => ?_, fun _ => rfl⟩⟩
    have hzero : z.zsze - z.capacity = 0 := Nat.sub_eq_zero_of_le (Nat.le_of_not_lt hgap)
    rw [Marked, hzero] at hmarked
    omega

theorem marks_entry {l : List Nat} (h : l.foldlM (z.mark crc32c qpairId) ns = .ok ns')
    (hq : qpairId ≠ 0) (ht : ns.crcTable.isSome) (hfits : ∀ s ∈ l, s + z.zsze ≤ ns.entries)
    (hfree : ∀ j < ns.entries, isLocked (ns.entry j) = false) :
    ns'.shape = ns.shape ∧ ∀ j < ns.entries,
      ((∃ s ∈ l, z.Marked s j) → ns'.entry j = uncorrCrc) ∧
      ((∀ s ∈ l, ¬z.Marked s j) → ns'.entry j = ns.entry j) := by
  induction l generalizing ns with
  | nil =>
    obtain rfl := Except.pure_eq_ok.1 h
    exact ⟨rfl, fun j _ => ⟨fun ⟨_, hs, _⟩ => absurd hs List.not_mem_nil, fun _ => rfl⟩⟩
  | cons s l ih =>
    rw [List.foldlM_cons, Except.bind_eq_ok] at h
    obtain ⟨ns₁, hmark, h⟩ := h
    obtain ⟨hfit, hfits⟩ := List.forall_mem_cons.1 hfits
    obtain ⟨hshape₁, hentry₁⟩ := mark_entry hmark hq ht hfit hfree
    have hN : ns₁.entries = ns.entries := Ns.entries_of_shape hshape₁
    have hfree₁ : ∀ j < ns₁.entries, isLocked (ns₁.entry j) = false := by
      intro j hj
      rw [hN] at hj
      by_cases hmarked : z.Marked s j
      · rw [(hentry₁ j hj).1 hmarked, isLocked_uncorrCrc]
      · rw [(hentry₁ j hj).2 hmarked, hfree j hj]
    obtain ⟨hshape, hentry⟩ := ih h (by rwa [Ns.isSome_of_shape hshape₁])
      (fun s hs => hN ▸ hfits s hs) hfree₁
    refine ⟨hshape.trans hshape₁, fun j hj => ⟨fun hex => ?_, fun hall => ?_⟩⟩
    · by_cases hrest : ∃ s ∈ l, z.Marked s j
      · exact (hentry j (hN ▸ hj)).1 hrest
      · have hkept := (hentry j (hN ▸ hj)).2 fun s hs hmarked => hrest ⟨s, hs, hmarked⟩
        obtain ⟨s', hs', hmarked⟩ := hex
        rcases List.mem_cons.1 hs' with rfl | hs'
        · rw [hkept, (hentry₁ j hj).1 hmarked]
        · exact absurd ⟨s', hs', hmarked⟩ hrest
    · obtain ⟨hfirst, hrest⟩ := List.forall_mem_cons.1 hall
      rw [(hentry j (hN ▸ hj)).2 hrest, (hentry₁ j hj).2 hfirst]

/-- What a `Zone` is made of. -/
theorem init_eq_ok (h : Zone.init crc32c qpairId dev identify slba elba ns = .ok (z, ns')) :
    slba < 2 ^ 64 ∧ dev.start slba = slba ∧ z.slba = slba ∧ z.capacity = dev.capacity slba ∧
      z.elba = elba.getD (slba + dev.capacity slba) ∧
      z.slbaList.foldlM (z.mark crc32c qpairId) ns = .ok ns' := by
  obtain ⟨buf, hbuf, h⟩ := Except.bind_eq_ok.1 h
  obtain ⟨capacity, hcapacity, h⟩ := Except.bind_eq_ok.1 h
  obtain ⟨zsze, hzsze, h⟩ := Except.bind_eq_ok.1 h
  obtain ⟨ns₁, hmarks, h⟩ := Except.bind_eq_ok.1 h
  obtain ⟨rfl, rfl⟩ := Prod.mk.inj (Except.pure_eq_ok.1 h)
  obtain ⟨hslba, hstart, rfl⟩ := mgmtReceive_eq_ok.1 hbuf
  obtain ⟨-, -, hfield, -⟩ := dev.report_fields hslba
  have h72 : (bufferData 4096 (dev.reportMemory slba) (.int 79) (.int 72)).1 =
      .ok (dev.capacity slba) :=
    (dev.reportMemory_data slba (a := 72) (n := 8) (by decide) (by decide)).trans
      (congrArg _ (hfield.trans (congrArg _ hstart)))
  rw [h72] at hcapacity
  obtain rfl : dev.capacity slba = capacity := Except.ok.inj hcapacity
  exact ⟨hslba, hstart, rfl, rfl, rfl, hmarks⟩

/-- With fewer than 2^16 LBAs behind a zone, all of them are marked. -/
theorem gap_iff_marked (h : z.zsze - z.capacity < 2 ^ 16) :
    z.Gap lba ↔ ∃ s ∈ z.slbaList, z.Marked s lba := by
  refine exists_congr fun s => and_congr_right fun _ => ?_
  rw [Marked, Nat.mod_eq_of_lt h]
  omega

/-- The table after the marks: it is unlocked, and the marks are those of the zones. -/
theorem init_entry (h : Zone.init crc32c qpairId dev identify slba elba ns = .ok (z, ns'))
    (hq : qpairId ≠ 0) (ht : ns.crcTable.isSome)
    (hfits : ∀ s ∈ z.slbaList, s + z.zsze ≤ ns.entries)
    (hclean : ∀ lba < ns.entries, isLocked (ns.entry lba) = false ∧ ns.entry lba ≠ uncorrCrc) :
    ns'.shape = ns.shape ∧ ∀ lba < ns.entries, isLocked (ns'.entry lba) = false ∧
      (ns'.entry lba = uncorrCrc ↔ ∃ s ∈ z.slbaList, z.Marked s lba) := by
  obtain ⟨-, -, -, -, -, hmarks⟩ := init_eq_ok h
  obtain ⟨hshape, hentry⟩ := marks_entry hmarks hq ht hfits fun lba hlba => (hclean lba hlba).1
  refine ⟨hshape, fun lba hlba => ?_⟩
  obtain ⟨hin, hout⟩ := hentry lba hlba
  obtain ⟨hfree, hne⟩ := hclean lba hlba
  by_cases hmarked : ∃ s ∈ z.slbaList, z.Marked s lba
  · rw [hin hmarked]
    exact ⟨isLocked_uncorrCrc, iff_of_true rfl hmarked⟩
  · rw [hout fun s hs hm => hmarked ⟨s, hs, hm⟩]
    exact ⟨hfree, iff_of_false hne hmarked⟩

/-- The LBAs that are marked are those between the capacity of the first zone and its size, in
    each of the zones, if and only if there are fewer than 2^16 of them in a zone. -/
theorem zone_marks_iff
    (h : Zone.init crc32c qpairId dev identify slba elba ns = .ok (z, ns')) (hq : qpairId ≠ 0)
    (ht : ns.crcTable.isSome) (hne : slba < z.elba)
    (hfits : ∀ s ∈ z.slbaList, s + z.zsze ≤ ns.entries)
    (hclean : ∀ lba < ns.entries, isLocked (ns.entry lba) = false ∧ ns.entry lba ≠ uncorrCrc) :
    z.capacity = dev.capacity slba ∧
      ((∀ lba < ns.entries, (ns'.entry lba = uncorrCrc ↔ z.Gap lba)) ↔
        z.zsze - z.capacity < 2 ^ 16) := by
  obtain ⟨-, hentry⟩ := init_entry h hq ht hfits hclean
  obtain ⟨-, -, rfl, hcapacity, -⟩ := init_eq_ok h
  refine ⟨hcapacity, fun hall => ?_, fun hlt lba hlba => ?_⟩
  · by_contra hge
    -- the first LBA behind the first zone that is not marked
    have hfirst : z.slba ∈ z.slbaList := mem_slbaList.2 ⟨0, by rw [Nat.zero_mul, Nat.add_zero], hne⟩
    have hlt : (z.zsze - z.capacity) % 2 ^ 16 < z.zsze - z.capacity :=
      Nat.lt_of_lt_of_le (Nat.mod_lt _ (by decide)) (Nat.le_of_not_lt hge)
    have hfit := hfits _ hfirst
    have hgap : z.Gap (z.slba + z.capacity + (z.zsze - z.capacity) % 2 ^ 16) :=
      ⟨z.slba, hfirst, by omega, by omega⟩
    have hin : z.slba + z.capacity + (z.zsze - z.capacity) % 2 ^ 16 < ns.entries := by omega
    obtain ⟨s, hs, hle, hlt'⟩ := (hentry _ hin).2.1 ((hall _ hin).2 hgap)
    obtain ⟨i, rfl, -⟩ := mem_slbaList.1 hs
    rcases i with _ | i
    · omega
    · rw [Nat.add_one_mul] at hle
      omega
  · rw [gap_iff_marked hlt]
    exact (hentry lba hlba).2

/-- Zones of 20 LBAs, of which 18 can be written. All are empty. -/
def zonedDevice : ZnsDevice where
  zsze := 20
  capacity _ := 18
  zone s := ⟨.empty, s⟩
  zsze_pos := by decide
  zsze_lt := by decide
  capacity_le _ := by decide
  empty_wp _ _ := rfl

/-- The identify data, with the size of the zones. -/
def zonedIdentify : Memory :=
  .fresh fun a => Bytes.writeLe (fun _ => 0#8) 2816 8 20 a.toNat

/-- The namespace of the two zones. -/
def zonedNs : Ns := .formatted 40 8192 40 (by decide) (by decide) (by decide)

/-- The `Zone` of both. -/
def zonePair : Zone := ⟨0, 40, 18, 20, by decide⟩

theorem zonedNs_clean : ∀ lba < zonedNs.entries,
    isLocked (zonedNs.entry lba) = false ∧ zonedNs.entry lba ≠ uncorrCrc := by decide

/-- The last two LBAs of each of the two zones are marked. -/
theorem zone_marks_iff_pair : ∃ ns',
    Zone.init (fun _ => 0#32) 1 zonedDevice (.ok zonedIdentify) 0 (some 40) zonedNs =
      .ok (zonePair, ns') ∧ ∀ lba < 40, (ns'.entry lba = uncorrCrc ↔ zonePair.Gap lba) := by
  have hinit : ∃ ns', Zone.init (fun _ => 0#32) 1 zonedDevice (.ok zonedIdentify) 0 (some 40)
      zonedNs = .ok (zonePair, ns') := ⟨_, rfl⟩
  obtain ⟨ns', hinit⟩ := hinit
  exact ⟨ns', hinit, (zone_marks_iff hinit (by decide) rfl (by decide) (by decide)
    zonedNs_clean).2.2 (by decide)⟩

/-! ### The marks stay -/

/-- A request in the zones: it covers no LBA between them, and is not a write uncorrectable. -/
structure Serves (z : Zone) (req : Request) : Prop where
  small : req.Small
  opc : req.cmd.opc ≠ 4#8
  avoids : ∀ lba, z.Gap lba → ¬req.Covers lba

/-- The requests are in the zones. -/
def Rule (z : Zone) (_ : LockState) : LockEvent → Prop
  | .lock _ req => z.Serves req
  | .complete _ _ _ => True

/-- The marks are the LBAs between the zones, and the holders are in the zones. -/
structure MarksKept (z : Zone) (ns : Ns) (s : LockState) : Prop where
  marks : MarksInv ns s {lba | z.Gap lba}
  serves : ∀ {k req}, s.holders k = some req → z.Serves req

theorem MarksKept.step {s s' : LockState} {e : LockEvent} (h : z.MarksKept ns s) (hr : z.Rule s e)
    (hs : lockStep crc32c s e = some s') : z.MarksKept ns s' := by
  cases e with
  | lock k req =>
    refine ⟨h.marks.step (e := .lock k req) (hr : z.Serves req).small hs, ?_⟩
    simp only [lockStep] at hs
    split at hs
    · cases hs
    · obtain rfl := Option.some.inj hs
      intro i r hi
      dsimp only at hi
      split at hi
      · rcases update_eq_some_iff.1 hi with ⟨-, ⟨⟩⟩ | ⟨-, hi⟩
        · exact hr
        · exact h.serves hi
      · exact h.serves hi
  | complete k status buf =>
    have hmarks := h.marks.step (e := .complete k status buf) trivial hs
    simp only [lockStep] at hs
    split at hs
    · cases hs
    · rename_i req hk
      obtain rfl := Option.some.inj hs
      obtain ⟨-, hopc, havoids⟩ := h.serves hk
      have hsame : req.marks status {lba | z.Gap lba} = {lba | z.Gap lba} :=
        Request.marks_eq hopc havoids
      rw [recordMarks, hk, Option.map_some, Option.getD_some, hsame] at hmarks
      refine ⟨hmarks, fun hi => ?_⟩
      rcases update_eq_some_iff.1 hi with ⟨-, ⟨⟩⟩ | ⟨-, hi⟩
      exact h.serves hi

/-- The marks, of an LBA that was not locked to begin with: no LBA between the zones is locked. -/
theorem MarksKept.uncorr_iff {s : LockState} (h : z.MarksKept ns s) (hlba : lba < ns.entries)
    (hfree : isLocked (ns.entry lba) = false) : s.ns.entry lba = uncorrCrc ↔ z.Gap lba := by
  have hmark : crcOf (s.ns.entry lba) = uncorrCrc ↔ z.Gap lba := h.marks.marks lba hlba
  have hlocked := h.marks.locks.locked lba (Ns.entries_of_shape h.marks.shape ▸ hlba)
  rw [eq_uncorrCrc_iff, hmark, and_iff_left_iff_imp]
  intro hgap
  rw [← Bool.not_eq_true, hlocked, hfree]
  rintro (hlocked | ⟨k, req, hk, hc⟩)
  · exact Bool.false_ne_true hlocked
  · exact (h.serves hk).avoids lba hgap hc

theorem marksKept_of_reachable (ht : ns.crcTable.isSome)
    (hentry : ∀ lba < ns.entries, isLocked (ns.entry lba) = false ∧
      (ns.entry lba = uncorrCrc ↔ z.Gap lba)) {s : LockState}
    (h : (lockMachine crc32c ns).Reachable z.Rule s) : z.MarksKept ns s := by
  refine h.invariant (I := z.MarksKept ns) ?_ fun _ _ _ hi hr hs => hi.step hr hs
  rintro _ rfl
  refine ⟨⟨.init ht, rfl, fun j hj => ?_⟩, fun h => nomatch h⟩
  obtain ⟨hfree, huncorr⟩ := hentry j hj
  change crcOf (ns.entry j) = uncorrCrc ↔ z.Gap j
  rw [crcOf_of_not_isLocked hfree, huncorr]

/-- The table that the zones begin with. -/
theorem init_gap (h : Zone.init crc32c qpairId dev identify slba elba ns = .ok (z, ns'))
    (hq : qpairId ≠ 0) (ht : ns.crcTable.isSome)
    (hfits : ∀ s ∈ z.slbaList, s + z.zsze ≤ ns.entries)
    (hclean : ∀ lba < ns.entries, isLocked (ns.entry lba) = false ∧ ns.entry lba ≠ uncorrCrc)
    (hlt : z.zsze - z.capacity < 2 ^ 16) :
    ns'.shape = ns.shape ∧ ∀ lba < ns'.entries, isLocked (ns'.entry lba) = false ∧
      (ns'.entry lba = uncorrCrc ↔ z.Gap lba) := by
  obtain ⟨hshape, hentry⟩ := init_entry h hq ht hfits hclean
  refine ⟨hshape, fun lba hlba => ?_⟩
  rw [gap_iff_marked hlt]
  exact hentry lba (Ns.entries_of_shape hshape ▸ hlba)

/-- The marks between the zones stay exactly those, in any order in which requests in the zones
    are sent and complete. -/
theorem zone_marks_kept
    (hinit : Zone.init crc32c qpairId dev identify slba elba ns = .ok (z, ns'))
    (hq : qpairId ≠ 0) (ht : ns.crcTable.isSome)
    (hfits : ∀ s ∈ z.slbaList, s + z.zsze ≤ ns.entries)
    (hclean : ∀ lba < ns.entries, isLocked (ns.entry lba) = false ∧ ns.entry lba ≠ uncorrCrc)
    (hlt : z.zsze - z.capacity < 2 ^ 16) {s : LockState}
    (h : (lockMachine crc32c ns').Reachable z.Rule s) (hlba : lba < ns.entries) :
    s.ns.entry lba = uncorrCrc ↔ z.Gap lba := by
  obtain ⟨hshape, hentry⟩ := init_gap hinit hq ht hfits hclean hlt
  have hin : lba < ns'.entries := Ns.entries_of_shape hshape ▸ hlba
  have hkept := marksKept_of_reachable (by rwa [Ns.isSome_of_shape hshape]) hentry h
  exact hkept.uncorr_iff hin (hentry lba hin).1

/-- A write of four LBAs at the end of the first zone. -/
def writeInZone : Request := ⟨⟨1#8, 14#32, 0#32, 3#32, 0#32, 0#32, 0#32⟩, 1, fun _ => 0#8⟩

/-- While it is in flight, the LBAs between the zones are marked. -/
theorem zone_marks_kept_pair : ∃ ns' s,
    Zone.init (fun _ => 0#32) 1 zonedDevice (.ok zonedIdentify) 0 (some 40) zonedNs =
      .ok (zonePair, ns') ∧
    (lockMachine (fun _ => 0#32) ns').Reachable zonePair.Rule s ∧
    s.ns = (crc32LockLba ns' writeInZone).1 ∧
    ∀ lba < 40, (s.ns.entry lba = uncorrCrc ↔ zonePair.Gap lba) := by
  have hinit : ∃ ns', Zone.init (fun _ => 0#32) 1 zonedDevice (.ok zonedIdentify) 0 (some 40)
      zonedNs = .ok (zonePair, ns') := ⟨_, rfl⟩
  obtain ⟨ns', hinit⟩ := hinit
  have hserves : zonePair.Serves writeInZone := by
    refine ⟨⟨by decide, fun _ => by decide, fun h => absurd h (by decide)⟩, by decide, ?_⟩
    rintro lba ⟨s, hs, hle, hlt⟩ ⟨hlow, hhigh⟩
    have hlist : zonePair.slbaList = [0, 20] := by decide
    rw [hlist] at hs
    obtain rfl | rfl : s = 0 ∨ s = 20 := by simpa using hs
    · exact absurd (Nat.lt_of_le_of_lt hle hhigh) (by decide)
    · exact absurd (Nat.lt_of_le_of_lt hle hhigh) (by decide)
  have hreach : (lockMachine (fun _ => 0#32) ns').Reachable zonePair.Rule
      ⟨(crc32LockLba ns' writeInZone).1, if (crc32LockLba ns' writeInZone).2 then
        Function.update (fun _ => none) 0 (some writeInZone) else fun _ => none⟩ :=
    .step (.init rfl) (show zonePair.Rule _ (.lock 0 writeInZone) from hserves) rfl
  exact ⟨ns', _, hinit, hreach, rfl, fun lba hlba => zone_marks_kept hinit (by decide) rfl
    (by decide) zonedNs_clean (by decide) hreach hlba⟩

/-! ### The zones are opened -/

end Zone

/-- A zone that can be reset and opened. -/
def ZoneDesc.Writable (d : ZoneDesc) : Prop := d.state ≠ .readOnly ∧ d.state ≠ .offline

namespace ZnsDevice

variable {t : Nat}

theorem start_of_zsze (h : dev'.zsze = dev.zsze) (lba : Nat) : dev'.start lba = dev.start lba := by
  rw [start, start, h]

/-- The writable zones of `done` were opened since `dev`, and nothing else. -/
structure Opened (dev : ZnsDevice) (done : Set Nat) (dev' : ZnsDevice) : Prop where
  zsze : dev'.zsze = dev.zsze
  opened : ∀ t ∈ done, (dev.zone t).Writable → dev'.zone t = ⟨.explicitlyOpened, t⟩
  kept : ∀ t, t ∉ done ∨ ¬(dev.zone t).Writable → dev'.zone t = dev.zone t

namespace Opened

variable {done : Set Nat}

theorem refl (dev : ZnsDevice) : dev.Opened ∅ dev := ⟨rfl, fun _ h => h.elim, fun _ _ => rfl⟩

/-- A zone is writable if it was. -/
theorem writable_iff (h : dev.Opened done dev') (t : Nat) :
    (dev'.zone t).Writable ↔ (dev.zone t).Writable := by
  by_cases ht : t ∈ done ∧ (dev.zone t).Writable
  · rw [h.opened t ht.1 ht.2]
    exact iff_of_true ⟨ZoneState.noConfusion, ZoneState.noConfusion⟩ ht.2
  · rw [h.kept t (not_and_or.1 ht)]

/-- One more zone is opened. -/
theorem insert (h : dev.Opened done dev') {dev'' : ZnsDevice} (hzsze : dev''.zsze = dev'.zsze)
    (hw : (dev'.zone t).Writable →
      dev''.zone = Function.update dev'.zone t ⟨.explicitlyOpened, t⟩)
    (hn : ¬(dev'.zone t).Writable → dev''.zone = dev'.zone) :
    dev.Opened (Insert.insert t done) dev'' := by
  by_cases ht : (dev'.zone t).Writable
  · refine ⟨hzsze.trans h.zsze, fun u hu hwu => ?_, fun u hu => ?_⟩ <;> rw [hw ht]
    · rcases eq_or_ne u t with rfl | hne
      · rw [Function.update_self]
      · rw [Function.update_of_ne hne]
        exact h.opened u (hu.resolve_left hne) hwu
    · have hne : u ≠ t := by
        rintro rfl
        exact hu.elim (fun hu => hu (.inl rfl)) fun hu => hu ((h.writable_iff u).1 ht)
      rw [Function.update_of_ne hne]
      exact h.kept u (hu.imp_left fun hu hd => hu (.inr hd))
  · refine ⟨hzsze.trans h.zsze, fun u hu hwu => ?_, fun u hu => ?_⟩ <;> rw [hn ht]
    · rcases hu with rfl | hu
      · exact absurd ((h.writable_iff u).2 hwu) ht
      · exact h.opened u hu hwu
    · exact h.kept u (hu.imp_left fun hu hd => hu (.inr hd))

/-- There are resources for a zone that is not active, if there are for it and those that are
    opened, with the zones that were active before. -/
theorem room (h : dev.Opened done dev') {zones : Set Nat} {resources : Nat} (hdone : done ⊆ zones)
    (ht : t ∈ zones) (hres : (dev.active ∪ zones).encard ≤ (resources : ℕ∞)) {dev'' : ZnsDevice}
    (hsub : dev''.active ⊆ dev'.active) (hout : t ∉ dev''.active) :
    dev''.active.encard < (resources : ℕ∞) := by
  have hactive : dev'.active ⊆ dev.active ∪ zones := fun u hu => by
    by_cases hkept : u ∈ done
    · exact .inr (hdone hkept)
    · rw [active, Set.mem_ofPred_eq, h.kept u (.inl hkept)] at hu
      exact .inl hu
  have hproper : dev''.active ⊂ dev.active ∪ zones :=
    ⟨hsub.trans hactive, fun hsup => hout (hsup (.inr ht))⟩
  have hfinite : (dev.active ∪ zones).Finite := Set.finite_of_encard_le_coe hres
  exact ((hfinite.subset hproper.subset).encard_lt_encard hproper).trans_le hres

end Opened

end ZnsDevice

namespace MgmtRule

variable {mgmtSend : ZnsDevice → NvmeCmd → ZnsDevice} {t resources : Nat} {creset copen : NvmeCmd}

end MgmtRule

namespace Zone

variable {t resources : Nat} {mgmtSend : ZnsDevice → NvmeCmd → ZnsDevice}

end Zone

end Pynvme
