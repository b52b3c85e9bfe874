import Pynvme.Intr.Vector
import Pynvme.Lib.Loop
import Pynvme.Lib.Named
import Pynvme.Pcie.Capability

/-!
# The set-up of the interrupts

The driver sets up the interrupts of a controller when it attaches to it, and takes them down
when it detaches: it looks for the capability of MSI-X, or else of MSI, reserves shared memory
for `intr_ctrl_t`, in the name of the controller, and tells the device to write its messages
there.

The memory is reserved before the driver looks whether it can use the MSI-X table, and is
reserved again for MSI, so that there is no way back to MSI (`intc_init_iff`). With MSI-X, the
interrupts begin as `intcMachine` has them (`intc_init_machine`), and the configuration space
is as before, but for the enable bit, however often the controller is attached and detached
(`intc_cycles`).
-/

namespace Pynvme

open Word

/-- An entry of the MSI-X table. -/
structure MsixEntry where
  msgAddr : Nat
  msgData : Nat
  mask : Bool

/-- `intr_ctrl_t`, as it is in shared memory. -/
structure IntrInfo where
  msixEn : Nat
  msiEn : Nat
  maxVecNum : Nat
  msgData : Nat → BitVec 32

/-- A controller: its configuration space and MSI-X table, the shared memory, with names that
    are controllers, and the address of `pynvme_intc_ctrl`. -/
structure IntcHost where
  cfg : Bytes
  msixTable : Nat → MsixEntry
  zones : NamedMemory Nat Nat IntrInfo
  intcCtrl : Option Nat

/-- The result of a walk through the capabilities, the constants of `intr_ctrl_t`, and the
    address, for the device, of `msg_data[i]` in the memory at an address. -/
structure IntcEnv where
  fuel : Nat
  maxVectorNumShift : Nat
  vtophys : Nat → Nat → Nat

/-- `MAX_VECTOR_NUM` -/
def IntcEnv.maxVectorNum (env : IntcEnv) : Nat := 2 ^ env.maxVectorNumShift

section

variable (env : IntcEnv) (ctrlr : Nat)

/-- The BAR of the MSI-X table, in the capability at `base`. -/
def msixBir (cfg : Bytes) (base : Nat) : Nat := cfg.readLe (base + 4) 4 &&& 0x7

/-- The control register of a capability. -/
def msgControl (cfg : Bytes) (base : Nat) : Nat := cfg.readLe (base + 2) 2

/-- Fill `msg_data` and the vector table. -/
def msixFill (a vectorNum : Nat) (info : IntrInfo) (table : Nat → MsixEntry) :
    IntrInfo × (Nat → MsixEntry) :=
  forLoop vectorNum (fun i (x : IntrInfo × (Nat → MsixEntry)) =>
    ({ x.1 with msgData := Function.update x.1.msgData i 0#32 },
      Function.update x.2 i ⟨env.vtophys a i, 1, false⟩)) (info, table)

/-- The vectors that the driver uses of those of the device. -/
def msixVectorNum (cfg : Bytes) (base : Nat) : Nat :=
  min ((msgControl cfg base &&& 0x7fff) + 1) env.maxVectorNum

/-- The vector table is filled, and MSI-X is enabled, with the memory at `a`. -/
def msixEnable (base a : Nat) (info : IntrInfo) (h : IntcHost) : IntcHost :=
  let vectorNum := msixVectorNum env h.cfg base
  let (info, msixTable) := msixFill env a vectorNum { info with maxVecNum := vectorNum } h.msixTable
  { cfg := h.cfg.writeLe (base + 2) 2 (msgControl h.cfg base ||| 0x8000)
    msixTable
    zones := h.zones.modify a fun _ => { info with msixEn := 1 }
    intcCtrl := some a }

/-- `msix_intc_init`: `none` is a failed assertion, or a walk that does not end. There is memory
    or not, and the BAR can be mapped or not. -/
def msixIntcInit (mem : Option (Nat × IntrInfo)) (mapBar : Bool) (h : IntcHost) :
    Option (Bool × IntcHost) := do
  let msixBase := (← pcieFindCapBaseAddr h.cfg 0x11#8 env.fuel).toNat
  if msixBase = 0 then some (false, h)
  else do
    -- collect intc information of this controller
    let (a, info) ← mem
    let zones ← h.zones.reserve ctrlr a info
    let h := { h with zones }
    -- find address of MSIX table
    if msixBir h.cfg msixBase ≠ 0 ∧ msixBir h.cfg msixBase ≠ 4 then some (false, h)
    else if mapBar then some (true, msixEnable env msixBase a info h)
    else none

/-- MSI is enabled, with the memory at `a`. -/
def msiEnable (base a : Nat) (info : IntrInfo) (h : IntcHost) : IntcHost :=
  let control := msgControl h.cfg base
  -- config msg address & msg data
  let msgAddr := env.vtophys a 0
  let cfg := h.cfg.writeLe (base + 4) 4 (u32 msgAddr)
  let cfg := cfg.writeLe (base + 8) 4 (u32 (msgAddr >>> 32))
  let cfg := cfg.writeLe (base + 0xc) 2 1
  -- config msg vector number, enable msi interrupt
  let maxDevVectorShift := min (env.maxVectorNumShift - 1) (control >>> 1 &&& 0xe)
  { h with
    cfg := cfg.writeLe (base + 2) 2 (control ||| (maxDevVectorShift <<< 4 ||| 1))
    zones := h.zones.modify a fun _ =>
      { info with maxVecNum := 1 <<< maxDevVectorShift, msiEn := 1 }
    intcCtrl := some a }

/-- `msi_intc_init` -/
def msiIntcInit (mem : Option (Nat × IntrInfo)) (h : IntcHost) : Option (Bool × IntcHost) := do
  let msiCapBase := (← pcieFindCapBaseAddr h.cfg 0x05#8 env.fuel).toNat
  if msiCapBase = 0 then some (false, h)
  else do
    -- collect intc information of this controller
    let (a, info) ← mem
    let zones ← h.zones.reserve ctrlr a info
    some (true, msiEnable env msiCapBase a info { h with zones })

/-- `intc_init`, with the memory for MSI-X and that for MSI. -/
def intcInit (mem mem' : Option (Nat × IntrInfo)) (mapBar : Bool) (h : IntcHost) :
    Option IntcHost := do
  let (ret, h) ← msixIntcInit env ctrlr mem mapBar h
  if ret then some h
  else do
    let (ret, h) ← msiIntcInit env ctrlr mem' h
    if ret then some h else none

/-- The capability `cid` with the bits of its control register besides those in `mask`. -/
def intcDisable (cid : BitVec 8) (mask : Nat) (cfg : Bytes) : Option Bytes := do
  let capBase := (← pcieFindCapBaseAddr cfg cid env.fuel).toNat
  some (cfg.writeLe (capBase + 2) 2 (msgControl cfg capBase &&& mask))

/-- The interrupts that are enabled are disabled. -/
def intcDisableEnabled (intrCtrl : IntrInfo) (cfg : Bytes) : Option Bytes :=
  if intrCtrl.msixEn = 1 then intcDisable env 0x11#8 0x7fff cfg
  else if intrCtrl.msiEn = 1 then intcDisable env 0x05#8 0xfffe cfg
  else some cfg

/-- `intc_fini` -/
def intcFini (h : IntcHost) : Option IntcHost := do
  let a ← h.intcCtrl
  let intrCtrl ← h.zones.cell a
  let cfg ← intcDisableEnabled env intrCtrl h.cfg
  some { h with cfg, zones := h.zones.free ctrlr, intcCtrl := none }

end

/-! ### The capability of the interrupts -/

/-- The driver maps the BAR 0 or 4 only. -/
def MsixUsable (cfg : Bytes) (o : BitVec 8) : Prop :=
  msixBir cfg o.toNat = 0 ∨ msixBir cfg o.toNat = 4

variable {env : IntcEnv} {ctrlr a a' : Nat} {mem mem' : Option (Nat × IntrInfo)} {mapBar : Bool}
  {h h' : IntcHost} {cfg : Bytes} {cid o : BitVec 8} {info info' : IntrInfo} {fuel : Nat}

/-- What the walk finds is the first capability with the id. -/
theorem firstCapability_iff (hwalk : pcieFindCapBaseAddr cfg cid fuel = some o) {p : BitVec 8} :
    FirstCapability cfg cid p ↔ p = o ∧ o ≠ 0#8 := by
  constructor
  · intro hp
    have hp0 : p ≠ 0#8 := by
      obtain ⟨k, -, hne, -⟩ := hp
      exact hne
    obtain rfl : p = o := While.Returns.unique ((findCapReturns_iff hp0).2 hp) ⟨_, hwalk⟩
    exact ⟨rfl, hp0⟩
  · rintro ⟨rfl, h0⟩
    exact (findCapReturns_iff h0).1 ⟨_, hwalk⟩

theorem msixIntcInit_none (hwalk : pcieFindCapBaseAddr h.cfg 0x11#8 env.fuel = some 0#8) :
    msixIntcInit env ctrlr mem mapBar h = some (false, h) := by
  rw [msixIntcInit, hwalk]
  rfl

/-- With a BAR that the driver does not map, the memory is reserved nevertheless. -/
theorem msixIntcInit_unusable {zones : NamedMemory Nat Nat IntrInfo}
    (hwalk : pcieFindCapBaseAddr h.cfg 0x11#8 env.fuel = some o) (h0 : o ≠ 0#8)
    (hzones : h.zones.reserve ctrlr a info = some zones) (hbir : ¬MsixUsable h.cfg o) :
    msixIntcInit env ctrlr (some (a, info)) mapBar h = some (false, { h with zones }) := by
  have hpos : o.toNat ≠ 0 := fun heq => h0 (BitVec.eq_of_toNat_eq heq)
  have hbir' : msixBir h.cfg o.toNat ≠ 0 ∧ msixBir h.cfg o.toNat ≠ 4 := not_or.1 hbir
  rw [msixIntcInit, hwalk]
  simp only [Option.bind_eq_bind, Option.bind_some, if_neg hpos]
  rw [hzones, Option.bind_some, if_pos hbir']

theorem msixIntcInit_usable {zones : NamedMemory Nat Nat IntrInfo}
    (hwalk : pcieFindCapBaseAddr h.cfg 0x11#8 env.fuel = some o) (h0 : o ≠ 0#8)
    (hzones : h.zones.reserve ctrlr a info = some zones) (hbir : MsixUsable h.cfg o) :
    msixIntcInit env ctrlr (some (a, info)) true h =
      some (true, msixEnable env o.toNat a info { h with zones }) := by
  have hpos : o.toNat ≠ 0 := fun heq => h0 (BitVec.eq_of_toNat_eq heq)
  have hbir' : ¬(msixBir h.cfg o.toNat ≠ 0 ∧ msixBir h.cfg o.toNat ≠ 4) :=
    fun hne => hbir.elim hne.1 hne.2
  rw [msixIntcInit, hwalk]
  simp only [Option.bind_eq_bind, Option.bind_some, if_neg hpos]
  rw [hzones, Option.bind_some, if_neg hbir', if_pos trivial]

theorem msiIntcInit_zero (hwalk : pcieFindCapBaseAddr h.cfg 0x05#8 env.fuel = some 0#8) :
    msiIntcInit env ctrlr mem h = some (false, h) := by
  rw [msiIntcInit, hwalk]
  rfl

/-- With a name that is taken, there is no memory for MSI. -/
theorem msiIntcInit_taken (hwalk : pcieFindCapBaseAddr h.cfg 0x05#8 env.fuel = some o)
    (h0 : o ≠ 0#8) (hname : h.zones.lookup ctrlr = some a') :
    msiIntcInit env ctrlr mem h = none := by
  have hpos : o.toNat ≠ 0 := fun heq => h0 (BitVec.eq_of_toNat_eq heq)
  rw [msiIntcInit, hwalk]
  simp only [Option.bind_eq_bind, Option.bind_some, if_neg hpos]
  rcases mem with _ | ⟨a, info⟩
  · rfl
  · have hzones : h.zones.reserve ctrlr a info = none := by
      rw [NamedMemory.reserve, dif_neg]
      rintro ⟨hnone, -⟩
      rw [hname] at hnone
      cases hnone
    rw [Option.bind_some]
    dsimp only
    rw [hzones, Option.bind_none]

theorem msiIntcInit_found {zones : NamedMemory Nat Nat IntrInfo}
    (hwalk : pcieFindCapBaseAddr h.cfg 0x05#8 env.fuel = some o) (h0 : o ≠ 0#8)
    (hzones : h.zones.reserve ctrlr a info = some zones) :
    msiIntcInit env ctrlr (some (a, info)) h =
      some (true, msiEnable env o.toNat a info { h with zones }) := by
  have hpos : o.toNat ≠ 0 := fun heq => h0 (BitVec.eq_of_toNat_eq heq)
  rw [msiIntcInit, hwalk]
  simp only [Option.bind_eq_bind, Option.bind_some, if_neg hpos]
  rw [hzones, Option.bind_some]

/-- There is memory for the interrupts of the controller, at free addresses. -/
structure IntcMemory (ctrlr : Nat) (mem mem' : Option (Nat × IntrInfo)) (h : IntcHost) : Prop where
  name : h.zones.lookup ctrlr = none
  msix : ∃ a info, mem = some (a, info) ∧ h.zones.cell a = none
  msi : ∃ a info, mem' = some (a, info) ∧ h.zones.cell a = none

/-- With memory, and a BAR that can be mapped, the interrupts are set up if and only if there is
    MSI-X with a table that the driver uses, or no MSI-X but MSI: there is no way from MSI-X to
    MSI. -/
theorem intc_init_iff (hmsix : (pcieFindCapBaseAddr h.cfg 0x11#8 env.fuel).isSome)
    (hmsi : (pcieFindCapBaseAddr h.cfg 0x05#8 env.fuel).isSome)
    (hmem : IntcMemory ctrlr mem mem' h) :
    (intcInit env ctrlr mem mem' true h).isSome ↔
      (∃ o, FirstCapability h.cfg 0x11#8 o ∧ MsixUsable h.cfg o) ∨
        ((∀ o, ¬FirstCapability h.cfg 0x11#8 o) ∧ ∃ o, FirstCapability h.cfg 0x05#8 o) := by
  obtain ⟨o, ho⟩ := Option.isSome_iff_exists.1 hmsix
  obtain ⟨o', ho'⟩ := Option.isSome_iff_exists.1 hmsi
  obtain ⟨hname, ⟨a, info, rfl, ha⟩, a', info', rfl, ha'⟩ := hmem
  simp only [firstCapability_iff ho, firstCapability_iff ho']
  by_cases h0 : o = 0#8
  · subst h0
    rw [intcInit, msixIntcInit_none ho]
    by_cases h0' : o' = 0#8
    · subst h0'
      simp [msiIntcInit_zero ho']
    · obtain ⟨zones, hzones⟩ := NamedMemory.exists_reserve (v := info') hname ha'
      simp [msiIntcInit_found ho' h0' hzones, h0']
  · obtain ⟨zones, hzones⟩ := NamedMemory.exists_reserve (v := info) hname ha
    by_cases hbir : MsixUsable h.cfg o
    · rw [intcInit, msixIntcInit_usable ho h0 hzones hbir]
      simp [h0, hbir]
    · obtain ⟨-, -, -, hlookup⟩ := NamedMemory.reserve_eq_some hzones
      have htaken : ({ h with zones } : IntcHost).zones.lookup ctrlr = some a :=
        hlookup ▸ Function.update_self _ _ _
      rw [intcInit, msixIntcInit_unusable ho h0 hzones hbir]
      by_cases h0' : o' = 0#8
      · subst h0'
        have hmsi : msiIntcInit env ctrlr (some (a', info')) { h with zones } = some (false, _) :=
          msiIntcInit_zero ho'
        simp [hmsi, hbir]
      · have hmsi : msiIntcInit env ctrlr (some (a', info')) { h with zones } = none :=
          msiIntcInit_taken ho' h0' htaken
        simp [hmsi, hbir, h0]

/-- MSI, and then MSI-X with 8 vectors and its table in a BAR. -/
def msixCfg (bir : BitVec 8) : Bytes := fun a =>
  if a = 0x34 then 0x40#8 else if a = 0x40 then 0x05#8 else if a = 0x41 then 0x50#8
  else if a = 0x50 then 0x11#8 else if a = 0x52 then 7#8 else if a = 0x54 then bir else 0#8

def msixHost (bir : BitVec 8) : IntcHost := ⟨msixCfg bir, fun _ => ⟨0, 0, true⟩, .empty, none⟩

def msixEnv : IntcEnv := ⟨4, 8, fun a i => a + 4 * i⟩

def noInfo : IntrInfo := ⟨0, 0, 0, fun _ => 0#32⟩

theorem walk_msixCfg (bir : BitVec 8) :
    pcieFindCapBaseAddr (msixCfg bir) 0x11#8 msixEnv.fuel = some 0x50#8 := rfl

/-- The table is in the BAR 2: the driver does not take MSI instead. -/
theorem intc_init_iff_unusable :
    ¬(intcInit msixEnv 1 (some (0x1000, noInfo)) (some (0x2000, noInfo)) true
      (msixHost 2#8)).isSome := by
  rw [intc_init_iff rfl rfl ⟨rfl, ⟨_, _, rfl, rfl⟩, ⟨_, _, rfl, rfl⟩⟩]
  simp only [firstCapability_iff (walk_msixCfg 2#8), msixHost]
  rintro (⟨o, ⟨rfl, -⟩, husable⟩ | ⟨hnone, -⟩)
  · exact absurd husable (by rw [MsixUsable]; decide)
  · exact hnone 0x50#8 ⟨rfl, by decide⟩

/-! ### The interrupts with MSI-X -/

/-- Every word of `msg_data` and every entry of the table is filled, with the addresses of the
    words. -/
theorem msixFill_eq (n : Nat) (table : Nat → MsixEntry) : msixFill env a n info table =
    ({ info with msgData := fun i => if i < n then 0#32 else info.msgData i },
      fun i => if i < n then ⟨env.vtophys a i, 1, false⟩ else table i) := by
  refine forLoop_induction (I := fun k (x : IntrInfo × (Nat → MsixEntry)) => x =
    ({ info with msgData := fun i => if i < k then 0#32 else info.msgData i },
      fun i => if i < k then ⟨env.vtophys a i, 1, false⟩ else table i)) (by simp) ?_
  rintro k - x rfl
  have hupdate : ∀ {α : Type} (f : Nat → α) (y : Nat → α), Function.update
      (fun i => if i < k then y i else f i) k (y k) = fun i => if i < k + 1 then y i else f i := by
    intro α f y
    funext i
    rcases Nat.lt_trichotomy i k with hlt | rfl | hgt
    · rw [Function.update_of_ne (Nat.ne_of_lt hlt), if_pos hlt, if_pos (Nat.lt_succ_of_lt hlt)]
    · rw [Function.update_self, if_pos (Nat.lt_succ_self i)]
    · rw [Function.update_of_ne (Nat.ne_of_gt hgt), if_neg (Nat.not_lt.2 (Nat.le_of_lt hgt)),
        if_neg (Nat.not_lt.2 hgt)]
  simp only [hupdate info.msgData fun _ => 0#32, hupdate table fun i => ⟨env.vtophys a i, 1, false⟩]

theorem msixEnable_eq (base : Nat) : msixEnable env base a info h =
    let n := msixVectorNum env h.cfg base
    { cfg := h.cfg.writeLe (base + 2) 2 (msgControl h.cfg base ||| 0x8000)
      msixTable := fun i => if i < n then ⟨env.vtophys a i, 1, false⟩ else h.msixTable i
      zones := h.zones.modify a fun _ =>
        ⟨1, info.msiEn, n, fun i => if i < n then 0#32 else info.msgData i⟩
      intcCtrl := some a } := by
  rw [msixEnable, msixFill_eq]

/-- With MSI-X, the table is used, in memory at some address. -/
theorem intcInit_msix (hwalk : pcieFindCapBaseAddr h.cfg 0x11#8 env.fuel = some o) (h0 : o ≠ 0#8)
    (hinit : intcInit env ctrlr mem mem' mapBar h = some h') :
    ∃ a info zones, h.zones.reserve ctrlr a info = some zones ∧
      h' = msixEnable env o.toNat a info { h with zones } := by
  have hpos : o.toNat ≠ 0 := fun heq => h0 (BitVec.eq_of_toNat_eq heq)
  obtain ⟨⟨ret, h₁⟩, hmsix, hinit⟩ := Option.bind_eq_some_iff.1 hinit
  rw [msixIntcInit, hwalk] at hmsix
  simp only [Option.bind_eq_bind, Option.bind_some, if_neg hpos] at hmsix
  rcases mem with _ | ⟨a, info⟩
  · cases hmsix
  rw [Option.bind_some] at hmsix
  obtain ⟨zones, hzones, hmsix⟩ := Option.bind_eq_some_iff.1 hmsix
  refine ⟨a, info, zones, hzones, ?_⟩
  split at hmsix
  case isTrue hbir =>
    -- The name is taken, so that there is no memory for MSI.
    obtain ⟨rfl, rfl⟩ := Prod.mk.inj (Option.some.inj hmsix)
    obtain ⟨-, -, -, hlookup⟩ := NamedMemory.reserve_eq_some hzones
    dsimp only at hinit
    rw [if_neg Bool.false_ne_true] at hinit
    obtain ⟨⟨ret, h₂⟩, hmsi, hinit⟩ := Option.bind_eq_some_iff.1 hinit
    have htaken : ({ h with zones } : IntcHost).zones.lookup ctrlr = some a :=
      hlookup ▸ Function.update_self _ _ _
    rcases hwalk' : pcieFindCapBaseAddr h.cfg 0x05#8 env.fuel with _ | o'
    · rw [msiIntcInit, hwalk'] at hmsi
      cases hmsi
    by_cases h0' : o' = 0#8
    · subst h0'
      rw [msiIntcInit_zero (h := { h with zones }) hwalk'] at hmsi
      obtain ⟨rfl, -⟩ := Prod.mk.inj (Option.some.inj hmsi)
      cases hinit
    · rw [msiIntcInit_taken (h := { h with zones }) hwalk' h0' htaken] at hmsi
      cases hmsi
  case isFalse =>
    split at hmsix
    case isTrue =>
      obtain ⟨rfl, rfl⟩ := Prod.mk.inj (Option.some.inj hmsix)
      exact (Option.some.inj hinit).symm
    case isFalse => cases hmsix

/-- The interrupts that the driver and the device have: `intr_ctrl_t`, and the masks of the
    table. -/
structure IntcHost.Has (h : IntcHost) (a : Nat) (info : IntrInfo) (c : IntrCtrl) : Prop where
  addr : h.intcCtrl = some a
  cell : h.zones.cell a = some info
  msixEn : c.msixEn = info.msixEn
  msiEn : c.msiEn = info.msiEn
  maxVecNum : c.maxVecNum = info.maxVecNum
  msgData : c.msgData = info.msgData
  mask : ∀ v, c.msixMask v = (h.msixTable v).mask

/-- After the set-up with MSI-X, the interrupts are those of an initial state of `intcMachine`,
    whatever the register of the masks has, and the device writes 1 to the words of its vectors. -/
theorem intc_init_machine (hshift : env.maxVectorNumShift ≤ 11)
    (hwalk : pcieFindCapBaseAddr h.cfg 0x11#8 env.fuel = some o) (h0 : o ≠ 0#8)
    (hinit : intcInit env ctrlr mem mem' mapBar h = some h') (intm : BitVec 32) :
    ∃ a info c, h'.Has a info c ∧ c.intm = intm ∧
      (intcMachine (msixVectorNum env h.cfg o.toNat)).init c ∧
      ∀ v < msixVectorNum env h.cfg o.toNat, h'.msixTable v = ⟨env.vtophys a v, 1, false⟩ := by
  obtain ⟨a, info, zones, hzones, rfl⟩ := intcInit_msix hwalk h0 hinit
  obtain ⟨-, -, hcell, -⟩ := NamedMemory.reserve_eq_some hzones
  have hmax : env.maxVectorNum ≤ 2048 := Nat.pow_le_pow_right (by decide) hshift
  have hpos : 0 < msixVectorNum env h.cfg o.toNat :=
    Nat.lt_min.2 ⟨Nat.succ_pos _, Nat.pow_pos (by decide)⟩
  have hle : msixVectorNum env h.cfg o.toNat ≤ 2048 := (Nat.min_le_right _ _).trans hmax
  generalize hn : msixVectorNum env h.cfg o.toNat = n at hpos hle
  let c : IntrCtrl :=
    { msixEn := 1, msiEn := info.msiEn, maxVecNum := n
      msgData := fun i => if i < n then 0#32 else info.msgData i
      msixMask := fun i => if i < n then false else (h.msixTable i).mask
      intm, maxVecNum_pos := hpos, maxVecNum_le := hle }
  rw [msixEnable_eq]
  dsimp only
  rw [hn]
  refine ⟨a, ⟨1, info.msiEn, n, c.msgData⟩, c, ⟨rfl, ?_, rfl, rfl, rfl, rfl, fun v => ?_⟩, rfl,
    ⟨⟨rfl, rfl⟩, fun v hv => ?_⟩, fun v hv => if_pos hv⟩
  · rw [NamedMemory.cell_modify_self, hcell, Function.update_self]
    rfl
  · exact (apply_ite MsixEntry.mask (v < n) ⟨env.vtophys a v, 1, false⟩ (h.msixTable v)).symm
  · exact ⟨if_pos hv, if_pos hv⟩

/-- The device gets the addresses of 8 words. -/
theorem intc_init_machine_eight : ∃ h' : IntcHost, ∃ a info c, h'.Has a info c ∧ c.intm = 3#32 ∧
    (intcMachine 8).init c ∧ ∀ v < 8, h'.msixTable v = ⟨msixEnv.vtophys a v, 1, false⟩ := by
  have hinit : ∃ h', intcInit msixEnv 1 (some (0x1000, noInfo)) (some (0x2000, noInfo)) true
      (msixHost 0#8) = some h' := ⟨_, rfl⟩
  obtain ⟨h', hinit⟩ := hinit
  have hnum : msixVectorNum msixEnv (msixHost 0#8).cfg (0x50#8).toNat = 8 := by decide
  have height := intc_init_machine (by decide) (walk_msixCfg 0#8) (by decide) hinit 3#32
  rw [hnum] at height
  exact ⟨h', height⟩

/-! ### Attaching and detaching -/

/-- What the driver does with a controller, what it and the device do with the messages and the
    masks, and what is done with the memory of the other names. -/
inductive IntcHostEvent
  | init (mem mem' : Option (Nat × IntrInfo)) (mapBar : Bool)
  | fini
  | update (msgData : Nat → BitVec 32) (msixTable : Nat → MsixEntry)
  | reserve (n a : Nat) (info : IntrInfo)
  | free (n : Nat)

variable (env) (ctrlr) in
def intcHostStep (h : IntcHost) : IntcHostEvent → Option IntcHost
  | .init mem mem' mapBar => intcInit env ctrlr mem mem' mapBar h
  | .fini => intcFini env ctrlr h
  | .update msgData msixTable => h.intcCtrl.map fun a =>
    { h with msixTable, zones := h.zones.modify a fun info => { info with msgData } }
  | .reserve n a info => (h.zones.reserve n a info).map fun zones => { h with zones }
  | .free n => some { h with zones := h.zones.free n }

/-- The events are about the memory of other names, besides those of the driver. -/
def IntcRule (ctrlr : Nat) : IntcHost → IntcHostEvent → Prop
  | _, .reserve n _ _ => n ≠ ctrlr
  | _, .free n => n ≠ ctrlr
  | _, _ => True

variable (env) (ctrlr) in
/-- A controller that is not attached to begin with. -/
def intcHostMachine (cfg₀ : Bytes) : Machine IntcHost IntcHostEvent where
  init h := h.cfg = cfg₀ ∧ h.intcCtrl = none ∧ h.zones.lookup ctrlr = none
  step := intcHostStep env ctrlr

/-- MSI-X is disabled, has a table that the driver uses, and the capabilities are aligned. -/
structure MsixOff (env : IntcEnv) (cfg : Bytes) (o : BitVec 8) : Prop where
  walk : pcieFindCapBaseAddr cfg 0x11#8 env.fuel = some o
  ne_zero : o ≠ 0#8
  usable : MsixUsable cfg o
  off : msgControl cfg o.toNat < 0x8000
  aligned : ∀ k, 4 ∣ (capPointer cfg k).toNat

/-- The configuration space with MSI-X enabled. -/
def msixOn (cfg : Bytes) (o : BitVec 8) : Bytes :=
  cfg.writeLe (o.toNat + 2) 2 (msgControl cfg o.toNat ||| 0x8000)

namespace MsixOff

theorem dvd (h : MsixOff env cfg o) : 4 ∣ o.toNat := by
  obtain ⟨k, rfl, -⟩ := (findCapReturns_iff h.ne_zero).1 ⟨_, h.walk⟩
  exact h.aligned k

/-- The enable bit is in no pointer and in no id. -/
theorem msixOn_eq (h : MsixOff env cfg o) {p i : Nat} (hp : 4 ∣ p) (hi : i < 2) :
    msixOn cfg o (p + i) = cfg (p + i) := by
  have hdvd := h.dvd
  exact Bytes.writeLe_of_not_mem (by omega)

theorem walk_msixOn (h : MsixOff env cfg o) :
    pcieFindCapBaseAddr (msixOn cfg o) 0x11#8 env.fuel = some o := by
  have hfirst : msixOn cfg o 0x34 = cfg 0x34 := h.msixOn_eq (i := 0) (by decide) (by decide)
  rw [← h.walk, pcieFindCapBaseAddr, hfirst]
  refine While.run_congr (fun k => ?_) fun k => ?_
  · have hid : msixOn cfg o (capPointer cfg k).toNat = cfg (capPointer cfg k).toNat :=
      h.msixOn_eq (i := 0) (h.aligned k) (by decide)
    rw [findCapStop, findCapStop, ← capPointer, hid]
  · exact h.msixOn_eq (h.aligned k) (by decide)

/-- Without the enable bit, the configuration space is the same again. -/
theorem disable_msixOn (h : MsixOff env cfg o) :
    intcDisable env 0x11#8 0x7fff (msixOn cfg o) = some cfg := by
  have hoff : msgControl cfg o.toNat < 2 ^ 15 := h.off
  have hor : msgControl cfg o.toNat ||| 2 ^ 15 = 2 ^ 15 + msgControl cfg o.toNat := by
    rw [Nat.or_two_pow_eq_add_of_lt hoff, Nat.add_comm]
  have hcontrol : msgControl (msixOn cfg o) o.toNat = 2 ^ 15 + msgControl cfg o.toNat :=
    (Bytes.readLe_writeLe_self (Nat.or_lt_two_pow (n := 16) (by omega) (by decide))).trans hor
  have hand : (2 ^ 15 + msgControl cfg o.toNat) &&& (2 ^ 15 - 1) = msgControl cfg o.toNat := by
    rw [Nat.and_two_pow_sub_one_eq_mod, Nat.add_mod_left, Nat.mod_eq_of_lt hoff]
  rw [intcDisable, h.walk_msixOn, Option.bind_eq_bind, Option.bind_some]
  change some (Bytes.writeLe _ _ 2 (_ &&& (2 ^ 15 - 1))) = _
  rw [hcontrol, hand, msixOn, Bytes.writeLe_writeLe, msgControl, Bytes.writeLe_readLe]

end MsixOff

/-- MSI-X is enabled while the controller is attached, and the memory of its name is there. -/
structure IntcAttached (ctrlr : Nat) (cfg₀ : Bytes) (o : BitVec 8) (h : IntcHost) : Prop where
  lookup : h.zones.lookup ctrlr = h.intcCtrl
  detached : h.intcCtrl = none → h.cfg = cfg₀
  attached : ∀ a, h.intcCtrl = some a →
    h.cfg = msixOn cfg₀ o ∧ ∃ info, h.zones.cell a = some info ∧ info.msixEn = 1

namespace IntcAttached

variable {cfg₀ : Bytes}

/-- There is no way to attach twice: the name is taken. -/
theorem intcInit_eq_none (hinv : IntcAttached ctrlr cfg₀ o h) (hmsix : MsixOff env cfg₀ o)
    (ha : h.intcCtrl = some a) : intcInit env ctrlr mem mem' mapBar h = none := by
  by_contra hne
  obtain ⟨h', hinit⟩ := Option.ne_none_iff_exists'.1 hne
  have hwalk : pcieFindCapBaseAddr h.cfg 0x11#8 env.fuel = some o := by
    rw [(hinv.attached a ha).1]
    exact hmsix.walk_msixOn
  obtain ⟨b, info, zones, hzones, -⟩ := intcInit_msix hwalk hmsix.ne_zero hinit
  obtain ⟨hnone, -⟩ := NamedMemory.reserve_eq_some hzones
  rw [hinv.lookup, ha] at hnone
  cases hnone

theorem init (hinv : IntcAttached ctrlr cfg₀ o h) (hmsix : MsixOff env cfg₀ o)
    (hinit : intcInit env ctrlr mem mem' mapBar h = some h') : IntcAttached ctrlr cfg₀ o h' := by
  have hnone : h.intcCtrl = none := by
    by_contra hne
    obtain ⟨a, ha⟩ := Option.ne_none_iff_exists'.1 hne
    rw [hinv.intcInit_eq_none hmsix ha] at hinit
    cases hinit
  have hcfg := hinv.detached hnone
  obtain ⟨a, info, zones, hzones, rfl⟩ := intcInit_msix (hcfg ▸ hmsix.walk) hmsix.ne_zero hinit
  obtain ⟨-, -, hcell, hlookup⟩ := NamedMemory.reserve_eq_some hzones
  rw [msixEnable_eq]
  refine ⟨?_, nofun, ?_⟩
  · exact hlookup ▸ Function.update_self _ _ _
  · rintro _ ⟨⟩
    refine ⟨by rw [hcfg, msixOn], ?_⟩
    rw [NamedMemory.cell_modify_self, hcell, Function.update_self]
    exact ⟨_, rfl, rfl⟩

/-- The set-up is undone. -/
theorem fini_eq (hinv : IntcAttached ctrlr cfg₀ o h) (hmsix : MsixOff env cfg₀ o)
    (ha : h.intcCtrl = some a) : intcFini env ctrlr h =
      some { h with cfg := cfg₀, zones := h.zones.free ctrlr, intcCtrl := none } := by
  obtain ⟨hcfg, info, hinfo, hen⟩ := hinv.attached a ha
  have hdisable : intcDisableEnabled env info h.cfg = some cfg₀ := by
    rw [intcDisableEnabled, if_pos hen, hcfg, hmsix.disable_msixOn]
  simp only [intcFini, ha, Option.bind_eq_bind, Option.bind_some, hinfo, hdisable]

/-- The memory changes, but for what `msix_en` has in that of the controller. -/
theorem zones {zones : NamedMemory Nat Nat IntrInfo} {table : Nat → MsixEntry}
    (hinv : IntcAttached ctrlr cfg₀ o h) (hlookup : zones.lookup ctrlr = h.zones.lookup ctrlr)
    (hcell : ∀ a info, h.zones.lookup ctrlr = some a → h.zones.cell a = some info →
      ∃ info', zones.cell a = some info' ∧ info'.msixEn = info.msixEn) :
    IntcAttached ctrlr cfg₀ o { h with zones, msixTable := table } := by
  refine ⟨hlookup.trans hinv.lookup, hinv.detached, fun a ha => ?_⟩
  obtain ⟨hcfg, info, hinfo, hen⟩ := hinv.attached a ha
  obtain ⟨info', hinfo', hen'⟩ := hcell a info (hinv.lookup.trans ha) hinfo
  exact ⟨hcfg, info', hinfo', hen'.trans hen⟩

theorem step {e : IntcHostEvent} (hinv : IntcAttached ctrlr cfg₀ o h) (hmsix : MsixOff env cfg₀ o)
    (he : IntcRule ctrlr h e) (hs : intcHostStep env ctrlr h e = some h') :
    IntcAttached ctrlr cfg₀ o h' := by
  cases e with
  | init mem mem' mapBar => exact hinv.init hmsix hs
  | fini =>
    obtain ⟨a, ha, -⟩ := Option.bind_eq_some_iff.1 hs
    rw [intcHostStep, hinv.fini_eq hmsix ha] at hs
    obtain rfl := Option.some.inj hs
    exact ⟨NamedMemory.lookup_free_self, fun _ => rfl, nofun⟩
  | update msgData msixTable =>
    obtain ⟨a, ha, rfl⟩ := Option.map_eq_some_iff.1 hs
    refine hinv.zones rfl fun b info hb hinfo => ?_
    obtain rfl := Option.some.inj (ha.symm.trans (hinv.lookup.symm.trans hb))
    exact ⟨_, NamedMemory.cell_modify_self.trans (congrArg _ hinfo), rfl⟩
  | reserve n b info =>
    obtain ⟨zones, hzones, rfl⟩ := Option.map_eq_some_iff.1 hs
    obtain ⟨-, hb, hcell, hlookup⟩ := NamedMemory.reserve_eq_some hzones
    refine hinv.zones (by rw [hlookup, Function.update_of_ne he.symm]) fun a info hla ha => ?_
    refine ⟨info, ?_, rfl⟩
    rw [hcell, Function.update_of_ne, ha]
    rintro rfl
    rw [hb] at ha
    cases ha
  | free n =>
    obtain rfl := Option.some.inj hs
    refine hinv.zones (NamedMemory.lookup_free_of_ne he.symm) fun a info hla ha => ⟨info, ?_, rfl⟩
    rw [NamedMemory.cell_free_of_ne fun hn => he (h.zones.injective hn hla), ha]

theorem of_reachable (hmsix : MsixOff env cfg₀ o)
    (hr : (intcHostMachine env ctrlr cfg₀).Reachable (IntcRule ctrlr) h) :
    IntcAttached ctrlr cfg₀ o h := by
  refine hr.invariant ?_ fun _ _ _ hinv he hs => hinv.step hmsix he hs
  rintro h ⟨hcfg, hnone, hlookup⟩
  refine ⟨hlookup.trans hnone.symm, fun _ => hcfg, fun a ha => ?_⟩
  rw [hnone] at ha
  cases ha

end IntcAttached

/-- However often a controller is attached and detached: detached, it has the configuration
    space of the beginning and no memory, and can be attached; attached, it has that with MSI-X
    enabled, cannot be attached, and can be detached. -/
theorem intc_cycles {cfg₀ : Bytes} (hmsix : MsixOff env cfg₀ o)
    (hr : (intcHostMachine env ctrlr cfg₀).Reachable (IntcRule ctrlr) h) :
    h.zones.lookup ctrlr = h.intcCtrl ∧
    (h.intcCtrl = none → h.cfg = cfg₀ ∧ ∀ a info mem', h.zones.cell a = none →
      (intcInit env ctrlr (some (a, info)) mem' true h).isSome) ∧
    ∀ a, h.intcCtrl = some a → h.cfg = msixOn cfg₀ o ∧
      (∀ mem mem' mapBar, intcInit env ctrlr mem mem' mapBar h = none) ∧
      intcFini env ctrlr h =
        some { h with cfg := cfg₀, zones := h.zones.free ctrlr, intcCtrl := none } := by
  have hinv := IntcAttached.of_reachable hmsix hr
  refine ⟨hinv.lookup, fun hnone => ⟨hinv.detached hnone, fun a info mem' ha => ?_⟩, fun a ha =>
    ⟨(hinv.attached a ha).1, fun _ _ _ => hinv.intcInit_eq_none hmsix ha, hinv.fini_eq hmsix ha⟩⟩
  have hcfg := hinv.detached hnone
  obtain ⟨zones, hzones⟩ := NamedMemory.exists_reserve (v := info) (hinv.lookup.trans hnone) ha
  have hinit := msixIntcInit_usable (hcfg ▸ hmsix.walk) hmsix.ne_zero hzones (hcfg ▸ hmsix.usable)
  rw [intcInit, hinit]
  rfl

theorem msixOff_msixCfg : MsixOff msixEnv (msixCfg 0#8) 0x50#8 := by
  refine ⟨walk_msixCfg 0#8, by decide, by rw [MsixUsable]; decide, by decide, fun k => ?_⟩
  have hpointer : capPointer (msixCfg 0#8) k = 0x40#8 ∨ capPointer (msixCfg 0#8) k = 0x50#8 ∨
      capPointer (msixCfg 0#8) k = 0#8 := by
    induction k with
    | zero => exact .inl rfl
    | succ k ih =>
      rw [capPointer, Function.iterate_succ_apply', ← capPointer]
      rcases ih with h | h | h
      · exact .inr (.inl (by rw [h]; rfl))
      · exact .inr (.inr (by rw [h]; rfl))
      · exact .inr (.inr (by rw [h]; rfl))
  rcases hpointer with h | h | h
  all_goals rw [h]; decide

/-- A controller is attached, detached, and attached again. -/
theorem intc_cycles_twice : ∃ h : IntcHost, h.cfg = msixOn (msixCfg 0#8) 0x50#8 ∧
    ∃ h', intcFini msixEnv 1 h = some h' ∧ h'.cfg = msixCfg 0#8 := by
  have hstart : (intcHostMachine msixEnv 1 (msixCfg 0#8)).Reachable (IntcRule 1) (msixHost 0#8) :=
    .init ⟨rfl, rfl, rfl⟩
  obtain ⟨h, hr, ha⟩ := hstart.exists_run (f := IntcHost.intcCtrl) (t := some 0x2000)
    [.init (some (0x1000, noInfo)) none true, .fini, .init (some (0x2000, noInfo)) none true]
    ⟨trivial, fun _ _ => ⟨trivial, fun _ _ => ⟨trivial, fun _ _ => trivial⟩⟩⟩ rfl
  obtain ⟨-, -, hattached⟩ := intc_cycles msixOff_msixCfg hr
  obtain ⟨hcfg, -, hfini⟩ := hattached 0x2000 ha
  exact ⟨h, hcfg, _, hfini, rfl⟩

end Pynvme
