import Pynvme.Crc.Table
import Pynvme.Lib.Except
import Pynvme.Lib.Machine
import Pynvme.Lib.Named

/-!
# The life of a CRC table

The main process reserves the memory of a CRC table when a script makes a namespace, and frees
it when the script closes the namespace. A format frees the table and reserves another one of
the same size. An ioworker looks up the table, and takes its own size from the device. After a
reset of the controller, the main process looks up the table as well.

SPDK has the structure of a namespace (`NsStruct`); whether the processes share it is left open
(`TableState`). The runs here are those in which nobody else uses the table that the main process
frees, an ioworker verifies no more LBAs than there is memory for, a namespace with a table keeps
its name, and no size wraps around (`TableRule`). In these runs, no process accesses a table that
is freed, or memory beyond a table (`crc_zone_fits`), and the verification stays enabled, or
disabled, as the script has set it, after formats and resets as well (`verify_kept`). After a
format to smaller sectors an ioworker verifies more LBAs than there is memory for
(`crc_zone_overruns_iff`).
-/

namespace Pynvme

open Word

/-- The size of a table in bytes. -/
structure TableSize where
  bytes : Nat
  lt : bytes < 2 ^ 64
  four_dvd : 4 ∣ bytes

/-- `sizeof(uint32_t)*nsze` -/
def TableSize.ofSectors (nsze : Nat) : TableSize where
  bytes := u64 (4 * nsze)
  lt := Nat.mod_lt _ (by decide)
  four_dvd := (Nat.dvd_mod_iff (by decide)).2 (Nat.dvd_mul_right 4 nsze)

/-- What the device tells of a namespace. -/
structure NsData where
  eui64 : Nat
  numSectors : Nat
  sectorSize : Nat
  numSectors_lt : numSectors < 2 ^ 64
  sectorSize_lt : sectorSize < 2 ^ 32

/-- `struct spdk_nvme_ns`, with the address of its table. -/
structure NsStruct where
  id : Nat
  data : NsData
  crcTable : Option Nat
  tableSize : TableSize

/-- The shared memory of a table: the bytes for its entries, `size`, and the table. -/
structure CrcZone where
  reserved : Nat
  size : TableSize
  table : CrcTable

/-- `_ns_uname`: a namespace of the controller, and its EUI-64. -/
def nsUname (ns : NsStruct) : Nat × Nat := (ns.id, ns.data.eui64)

/-- The shared memory, and the structures of the namespaces in the processes: two processes
    may have the same structure. -/
structure TableState where
  zones : NamedMemory (Nat × Nat) Nat CrcZone
  ns : Nat → NsStruct

/-- The namespace as a process has it. -/
def TableState.toNs (s : TableState) (k : Nat) : Ns where
  numSectors := (s.ns k).data.numSectors
  sectorSize := (s.ns k).data.sectorSize
  crcTable := ((s.ns k).crcTable.bind s.zones.cell).map CrcZone.table
  tableSize := (s.ns k).tableSize.bytes
  numSectors_lt := (s.ns k).data.numSectors_lt
  sectorSize_lt := (s.ns k).data.sectorSize_lt
  tableSize_lt := (s.ns k).tableSize.lt
  four_dvd_tableSize := (s.ns k).tableSize.four_dvd

def TableState.setNs (s : TableState) (k : Nat) (ns : NsStruct) : TableState :=
  { s with ns := Function.update s.ns k ns }

/-- An assertion fails, or memory is accessed that is freed. -/
inductive TableFault
  | assertion
  | freed
  deriving DecidableEq

/-- `ns_table_init`: there is memory at an address, with a content, or not enough. -/
def nsTableInit (primary : Bool) (k : Nat) (tableSize : TableSize) (mem : Option (Nat × CrcTable))
    (s : TableState) : Except TableFault TableState :=
  let ns := s.ns k
  if primary then
    if ns.crcTable.isSome then .error .assertion
    else
      match mem.bind fun m => (s.zones.reserve (nsUname ns) m.1
          -- `table_size+sizeof(crc_table_t)` bytes are reserved, 12 of them before the entries
          ⟨u64 (tableSize.bytes + 16) - 12, tableSize, m.2⟩).map fun zones => (m.1, zones) with
      | none => .ok (s.setNs k { ns with crcTable := none })
      | some (a, zones) =>
        .ok ({ s with zones }.setNs k { ns with crcTable := some a, tableSize })
  else
    match s.zones.lookup (nsUname ns) with
    | none => .ok (s.setNs k { ns with crcTable := none })
    | some a =>
      .ok ({ s with zones := s.zones.modify a fun z => { z with size := tableSize } }.setNs k
        { ns with crcTable := some a, tableSize })

/-- `ns_table_fini` -/
def nsTableFini (primary : Bool) (k : Nat) (s : TableState) : TableState :=
  let ns := s.ns k
  if primary then
    match s.zones.lookup (nsUname ns) with
    | none => s.setNs k { ns with crcTable := none }
    | some _ => { s with zones := s.zones.free (nsUname ns) }.setNs k { ns with crcTable := none }
  else s

/-- The size of the table of a namespace, of whose LBAs `nlbaVerify` are verified, or all. -/
def verifiedSize (data : NsData) (nlbaVerify : Nat) : TableSize :=
  .ofSectors (if 0 < nlbaVerify then min data.numSectors nlbaVerify else data.numSectors)

/-- `ns_init` -/
def nsInit (primary : Bool) (k nlbaVerify : Nat) (mem : Option (Nat × CrcTable))
    (s : TableState) : Except TableFault TableState :=
  if (s.ns k).id = 0 then .error .assertion
  else nsTableInit primary k (verifiedSize (s.ns k).data nlbaVerify) mem s

/-- The end of `ns_refresh`: the table at `a` keeps the flag, and is cleared. -/
def clearTable (enabled : Bool) (k a : Nat) (s : TableState) : TableState :=
  let ns := crc32Clear (s.toNs k) 0 (s.ns k).tableSize.bytes false
  { s with zones := s.zones.modify a fun z => { z with table := ⟨enabled, ns.entry⟩ } }

/-- `ns_refresh`, with the data of the namespace that the device has now. -/
def nsRefresh (primary : Bool) (k : Nat) (data : NsData) (mem : Option (Nat × CrcTable))
    (s : TableState) : Except TableFault TableState :=
  match (s.ns k).crcTable with
  | none => .ok s
  | some a =>
    if (s.ns k).tableSize.bytes = 0 then .error .assertion
    else
      match s.zones.cell a with
      | none => .error .freed
      | some z =>
        let s := nsTableFini primary k s
        -- `nvme_ns_construct`
        let s := s.setNs k { s.ns k with data }
        match nsTableInit primary k (s.ns k).tableSize mem s with
        | .error e => .error e
        | .ok s =>
          match (s.ns k).crcTable with
          | none => .error .assertion
          | some a => .ok (clearTable z.table.enabled k a s)

/-- `ns_verify_enable`, and what it returns. -/
def nsVerifyEnable (k : Nat) (enable : Bool) (s : TableState) :
    Except TableFault (Bool × TableState) :=
  match (s.ns k).crcTable with
  | none => .ok (false, s)
  | some a =>
    match s.zones.cell a with
    | none => .error .freed
    | some _ => .ok (true, { s with
        zones := s.zones.modify a fun z => { z with table := { z.table with enabled := enable } } })

/-- `nvme_set_ns`, of one namespace. -/
def nvmeSetNs (k id : Nat) (data : NsData) (s : TableState) : TableState :=
  let ns := { s.ns k with id, data }
  match s.zones.find (nsUname ns) with
  | none => s.setNs k ns
  | some (a, z) => s.setNs k { ns with crcTable := some a, tableSize := z.size }

/-- The entries of the table change. -/
def tableWrite (k : Nat) (data : Nat → BitVec 32) (s : TableState) :
    Except TableFault TableState :=
  match (s.ns k).crcTable with
  | none => .ok s
  | some a =>
    match s.zones.cell a with
    | none => .error .freed
    | some _ => .ok { s with
        zones := s.zones.modify a fun z => { z with table := { z.table with data } } }

/-- What a process does with the structure `k`. -/
inductive TableEvent
  /-- SPDK makes the structure of a namespace. -/
  | attach (k id : Nat) (data : NsData)
  | init (primary : Bool) (k nlbaVerify : Nat) (mem : Option (Nat × CrcTable))
  | fini (primary : Bool) (k : Nat)
  | refresh (primary : Bool) (k : Nat) (data : NsData) (mem : Option (Nat × CrcTable))
  | enable (k : Nat) (enable : Bool)
  | setNs (k id : Nat) (data : NsData)
  | write (k : Nat) (data : Nat → BitVec 32)

def tableStep (s : TableState) : TableEvent → Except TableFault TableState
  | .attach k id data => .ok (s.setNs k ⟨id, data, none, .ofSectors 0⟩)
  | .init primary k nlbaVerify mem => nsInit primary k nlbaVerify mem s
  | .fini primary k => .ok (nsTableFini primary k s)
  | .refresh primary k data mem => nsRefresh primary k data mem s
  | .enable k enable => (nsVerifyEnable k enable s).map Prod.snd
  | .setNs k id data => .ok (nvmeSetNs k id data s)
  | .write k data => tableWrite k data s

/-- The processes, to begin with without tables. -/
def tableMachine : Machine TableState TableEvent where
  init s := s.zones = .empty ∧ ∀ k, (s.ns k).crcTable = none
  step s e := (tableStep s e).toOption

/-! ### Runs in which the tables fit -/

/-- There is memory for a table with its header. -/
def TableSize.Reservable (t : TableSize) : Prop := t.bytes + 16 < 2 ^ 64

/-- The memory of a name, if it has any, has room for a table. -/
def Room (s : TableState) (n : Nat × Nat) (t : TableSize) : Prop :=
  ∀ a z, s.zones.lookup n = some a → s.zones.cell a = some z → t.bytes ≤ z.reserved

/-- No other structure has the table of the name of the structure `k`. -/
def Exclusive (s : TableState) (k : Nat) : Prop :=
  ∀ j a, j ≠ k → s.zones.lookup (nsUname (s.ns k)) = some a → (s.ns j).crcTable ≠ some a

/-- The structure keeps its name while it has a table. -/
def SameName (ns : NsStruct) (id : Nat) (data : NsData) : Prop :=
  ns.crcTable.isSome → (id, data.eui64) = nsUname ns

/-- The tables fit in memory, those of the ioworkers in that of the main process, a table that is
    freed is in no other use, and a namespace with a table has the same name after a format or a
    reset. -/
def TableRule (s : TableState) : TableEvent → Prop
  | .init primary k nlbaVerify _ =>
    (verifiedSize (s.ns k).data nlbaVerify).Reservable ∧
      (primary = false → Room s (nsUname (s.ns k)) (verifiedSize (s.ns k).data nlbaVerify))
  | .fini primary k => primary = true → Exclusive s k
  | .refresh primary k data _ =>
    (primary = true → Exclusive s k) ∧ SameName (s.ns k) (s.ns k).id data
  | .setNs k id data => SameName (s.ns k) id data
  | _ => True

/-- The structures have the tables of their names, and memory for them. -/
structure ZonesFit (s : TableState) : Prop where
  named : ∀ k a, (s.ns k).crcTable = some a → s.zones.lookup (nsUname (s.ns k)) = some a
  fits : ∀ k a z, (s.ns k).crcTable = some a → s.zones.cell a = some z →
    (s.ns k).tableSize.bytes ≤ z.reserved
  reservable : ∀ k, (s.ns k).crcTable.isSome → (s.ns k).tableSize.Reservable
  size : ∀ a z, s.zones.cell a = some z → z.size.bytes ≤ z.reserved ∧ z.size.Reservable

variable {s s' : TableState} {primary : Bool} {k id a nlbaVerify : Nat} {n : Nat × Nat}
  {data : NsData} {mem : Option (Nat × CrcTable)} {t : TableSize} {ns : NsStruct} {z : CrcZone}
  {f : CrcZone → CrcZone} {e : TableEvent}

theorem TableState.toNs_tableSize : (s.toNs k).tableSize = (s.ns k).tableSize.bytes := rfl

theorem TableState.setNs_self : (s.setNs k ns).ns k = ns := Function.update_self _ _ _

theorem TableState.setNs_of_ne {j : Nat} (h : j ≠ k) : (s.setNs k ns).ns j = s.ns j :=
  Function.update_of_ne h _ _

namespace ZonesFit

theorem live (h : ZonesFit s) (hk : (s.ns k).crcTable = some a) : ∃ z, s.zones.cell a = some z :=
  Option.isSome_iff_exists.1 (s.zones.live (h.named k a hk))

/-- There is room for what is no larger than the table as some process has it. -/
theorem room (h : ZonesFit s) (hk : (s.ns k).crcTable.isSome)
    (hle : t.bytes ≤ (s.ns k).tableSize.bytes) : Room s (nsUname (s.ns k)) t := by
  obtain ⟨a, ha⟩ := Option.isSome_iff_exists.1 hk
  intro b z hb hz
  obtain rfl : a = b := Option.some.inj ((h.named k a ha).symm.trans hb)
  exact hle.trans (h.fits k a z ha hz)

/-- A structure changes, and has no table or one that fits. -/
theorem setNs (h : ZonesFit s) (hns : ∀ a, ns.crcTable = some a →
      s.zones.lookup (nsUname ns) = some a ∧ ns.tableSize.Reservable ∧
      ∀ z, s.zones.cell a = some z → ns.tableSize.bytes ≤ z.reserved) :
    ZonesFit (s.setNs k ns) := by
  have hcases : ∀ j, (j = k ∧ (s.setNs k ns).ns j = ns) ∨
      (j ≠ k ∧ (s.setNs k ns).ns j = s.ns j) := by
    intro j
    rcases eq_or_ne j k with rfl | hj
    · exact .inl ⟨rfl, TableState.setNs_self⟩
    · exact .inr ⟨hj, TableState.setNs_of_ne hj⟩
  constructor
  · intro j a hj
    rcases hcases j with ⟨-, heq⟩ | ⟨-, heq⟩
    · rw [heq] at hj ⊢
      exact (hns a hj).1
    · rw [heq] at hj ⊢
      exact h.named j a hj
  · intro j a z hj hz
    rcases hcases j with ⟨-, heq⟩ | ⟨-, heq⟩
    · rw [heq] at hj ⊢
      exact (hns a hj).2.2 z hz
    · rw [heq] at hj ⊢
      exact h.fits j a z hj hz
  · intro j hj
    rcases hcases j with ⟨-, heq⟩ | ⟨-, heq⟩
    · rw [heq] at hj ⊢
      obtain ⟨a, ha⟩ := Option.isSome_iff_exists.1 hj
      exact (hns a ha).2.1
    · rw [heq] at hj ⊢
      exact h.reservable j hj
  · exact h.size

theorem setNs_none (h : ZonesFit s) (hns : ns.crcTable = none) : ZonesFit (s.setNs k ns) :=
  h.setNs fun a ha => by rw [hns] at ha; cases ha

/-- The memory of a table changes, and keeps its size. -/
theorem modify (h : ZonesFit s) (hf : ∀ z, s.zones.cell a = some z →
      (f z).reserved = z.reserved ∧ (f z).size.bytes ≤ z.reserved ∧ (f z).size.Reservable) :
    ZonesFit { s with zones := s.zones.modify a f } := by
  refine ⟨h.named, fun j b z hj hz => ?_, h.reservable, fun b z hz => ?_⟩
  · rcases NamedMemory.cell_modify_eq_some.1 hz with ⟨rfl, v, hv, rfl⟩ | ⟨-, hz⟩
    · rw [(hf v hv).1]
      exact h.fits j b v hj hv
    · exact h.fits j b z hj hz
  · rcases NamedMemory.cell_modify_eq_some.1 hz with ⟨rfl, v, hv, rfl⟩ | ⟨-, hz⟩
    · rw [(hf v hv).1]
      exact (hf v hv).2
    · exact h.size b z hz

/-- Memory for a table is reserved, and no structure has it yet. -/
theorem reserve {zones : NamedMemory (Nat × Nat) Nat CrcZone} (h : ZonesFit s)
    (hzones : s.zones.reserve n a z = some zones)
    (hsize : z.size.bytes ≤ z.reserved ∧ z.size.Reservable) : ZonesFit { s with zones } := by
  obtain ⟨hn, ha, hcell, hlookup⟩ := NamedMemory.reserve_eq_some hzones
  refine ⟨fun j b hj => ?_, fun j b z' hj hz' => ?_, h.reservable, fun b z' hz' => ?_⟩
  · have hold := h.named j b hj
    have hne : nsUname (s.ns j) ≠ n := fun heq => by rw [heq, hn] at hold; cases hold
    rw [hlookup, Function.update_of_ne hne]
    exact hold
  · obtain ⟨v, hv⟩ := h.live hj
    have hne : b ≠ a := fun heq => by rw [heq, ha] at hv; cases hv
    rw [hcell, Function.update_of_ne hne] at hz'
    exact h.fits j b z' hj hz'
  · rw [hcell] at hz'
    rcases eq_or_ne b a with rfl | hne
    · rw [Function.update_self, Option.some.injEq] at hz'
      exact hz' ▸ hsize
    · rw [Function.update_of_ne hne] at hz'
      exact h.size b z' hz'

/-- The memory of a name is freed that no structure has. -/
theorem free (h : ZonesFit s)
    (hn : ∀ j a, s.zones.lookup n = some a → (s.ns j).crcTable ≠ some a) :
    ZonesFit { s with zones := s.zones.free n } := by
  refine ⟨fun j a hj => ?_, fun j a z hj hz => h.fits j a z hj (NamedMemory.cell_of_cell_free hz),
    h.reservable, fun a z hz => h.size a z (NamedMemory.cell_of_cell_free hz)⟩
  have hold := h.named j a hj
  have hne : nsUname (s.ns j) ≠ n := fun heq => hn j a (heq ▸ hold) hj
  rw [NamedMemory.lookup_free_of_ne hne]
  exact hold

theorem tableFini (h : ZonesFit s) (hexcl : primary = true → Exclusive s k) :
    ZonesFit (nsTableFini primary k s) := by
  rw [nsTableFini]
  split
  case isFalse => exact h
  case isTrue hprimary =>
    have hnone : ZonesFit (s.setNs k { s.ns k with crcTable := none }) := h.setNs_none rfl
    split
    case h_1 => exact hnone
    case h_2 =>
      refine hnone.free fun j a ha => ?_
      rcases eq_or_ne j k with rfl | hj
      · rw [TableState.setNs_self]
        exact fun heq => nomatch heq
      · rw [TableState.setNs_of_ne hj]
        exact hexcl hprimary j a hj ha

theorem tableInit (h : ZonesFit s) (ht : t.Reservable)
    (hroom : primary = false → Room s (nsUname (s.ns k)) t)
    (hs : nsTableInit primary k t mem s = .ok s') : ZonesFit s' := by
  rw [nsTableInit] at hs
  split at hs
  case isTrue =>
    split at hs
    case isTrue => cases hs
    case isFalse =>
      split at hs
      case h_1 =>
        obtain rfl := Except.ok.inj hs
        exact h.setNs_none rfl
      case h_2 a zones hzones =>
        obtain rfl := Except.ok.inj hs
        simp only [Option.bind_eq_some_iff, Option.map_eq_some_iff, Prod.mk.injEq] at hzones
        obtain ⟨⟨a, table⟩, -, zones, hreserve, rfl, rfl⟩ := hzones
        have hlen : t.bytes ≤ u64 (t.bytes + 16) - 12 := by
          rw [u64, Nat.mod_eq_of_lt ht]
          omega
        obtain ⟨-, -, hcell, hlookup⟩ := NamedMemory.reserve_eq_some hreserve
        refine (h.reserve hreserve ⟨hlen, ht⟩).setNs fun b hb => ?_
        obtain rfl := Option.some.inj hb
        refine ⟨?_, ht, fun z hz => ?_⟩
        · exact hlookup ▸ Function.update_self _ _ _
        · have hz' := hcell ▸ hz
          rw [Function.update_self, Option.some.injEq] at hz'
          exact hz' ▸ hlen
  case isFalse hprimary =>
    have hroom := hroom (Bool.eq_false_iff.2 hprimary)
    split at hs
    case h_1 =>
      obtain rfl := Except.ok.inj hs
      exact h.setNs_none rfl
    case h_2 a ha =>
      obtain rfl := Except.ok.inj hs
      have hmodify : ZonesFit
          { s with zones := s.zones.modify a fun z => { z with size := t } } :=
        h.modify fun z hz => ⟨rfl, hroom a z ha hz, ht⟩
      refine hmodify.setNs fun b hb => ?_
      obtain rfl := Option.some.inj hb
      refine ⟨ha, ht, fun z hz => ?_⟩
      rcases NamedMemory.cell_modify_eq_some.1 hz with ⟨-, v, hv, rfl⟩ | ⟨hne, -⟩
      · exact hroom a v ha hv
      · exact absurd rfl hne

theorem construct (h : ZonesFit s) (hname : SameName (s.ns k) id data) :
    ZonesFit (s.setNs k { s.ns k with id, data }) := by
  refine h.setNs fun a ha => ⟨?_, h.reservable k (ha ▸ rfl), fun z hz => h.fits k a z ha hz⟩
  have hsame : nsUname { s.ns k with id, data } = nsUname (s.ns k) := hname (ha ▸ rfl)
  rw [hsame]
  exact h.named k a ha

theorem nvmeSetNs (h : ZonesFit s) (hname : SameName (s.ns k) id data) :
    ZonesFit (nvmeSetNs k id data s) := by
  rw [Pynvme.nvmeSetNs]
  split
  case h_1 => exact h.construct hname
  case h_2 a z hfind =>
    obtain ⟨hlookup, hcell⟩ := NamedMemory.find_eq_some.1 hfind
    refine h.setNs fun b hb => ?_
    obtain rfl := Option.some.inj hb
    refine ⟨hlookup, (h.size a z hcell).2, fun z' hz' => ?_⟩
    obtain rfl := Option.some.inj (hcell.symm.trans hz')
    exact (h.size a z hcell).1

end ZonesFit

theorem nsTableInit_uname (h : nsTableInit primary k t mem s = .ok s') :
    nsUname (s'.ns k) = nsUname (s.ns k) := by
  rw [nsTableInit] at h
  split at h
  · split at h
    · cases h
    · split at h
      · obtain rfl := Except.ok.inj h
        rw [TableState.setNs_self]
        rfl
      · obtain rfl := Except.ok.inj h
        rw [TableState.setNs_self]
        rfl
  · split at h
    · obtain rfl := Except.ok.inj h
      rw [TableState.setNs_self]
      rfl
    · obtain rfl := Except.ok.inj h
      rw [TableState.setNs_self]
      rfl

theorem nsTableInit_ne_freed : nsTableInit primary k t mem s ≠ .error .freed := by
  intro h
  rw [nsTableInit] at h
  split at h
  · split at h
    · cases h
    · split at h
      · cases h
      · cases h
  · split at h
    · cases h
    · cases h

/-! ### A format -/

/-- The structure while `ns_refresh` has freed its table, or a secondary process has not. -/
def refreshing (primary : Bool) (k : Nat) (data : NsData) (s : TableState) : TableState :=
  (nsTableFini primary k s).setNs k { (nsTableFini primary k s).ns k with data }

theorem nsTableFini_self : (nsTableFini primary k s).ns k =
    { s.ns k with crcTable := if primary then none else (s.ns k).crcTable } := by
  rw [nsTableFini]
  split
  case isTrue =>
    split
    · exact TableState.setNs_self
    · exact TableState.setNs_self
  case isFalse => rfl

/-- What `ns_refresh` does: nothing without a table, else it initializes the table again, keeps
    the flag and clears the entries. -/
theorem nsRefresh_eq_ok (h : nsRefresh primary k data mem s = .ok s') :
    ((s.ns k).crcTable = none ∧ s' = s) ∨
    ∃ a z s₁ b, (s.ns k).crcTable = some a ∧ s.zones.cell a = some z ∧
      nsTableInit primary k (s.ns k).tableSize mem (refreshing primary k data s) = .ok s₁ ∧
      (s₁.ns k).crcTable = some b ∧
      s' = clearTable z.table.enabled k b s₁ := by
  have hsize : ((refreshing primary k data s).ns k).tableSize = (s.ns k).tableSize := by
    rw [refreshing, TableState.setNs_self, nsTableFini_self]
  rw [nsRefresh] at h
  split at h
  case h_1 hnone => exact .inl ⟨hnone, (Except.ok.inj h).symm⟩
  case h_2 a ha =>
    split at h
    case isTrue => cases h
    case isFalse =>
      split at h
      case h_1 => cases h
      case h_2 z hz =>
        change (match nsTableInit primary k ((refreshing primary k data s).ns k).tableSize mem
          (refreshing primary k data s) with
          | .error e => _
          | .ok s => _) = _ at h
        rw [hsize] at h
        split at h
        case h_1 => cases h
        case h_2 s₁ hs₁ =>
          split at h
          case h_1 => cases h
          case h_2 b hb => exact .inr ⟨a, z, s₁, b, ha, hz, hs₁, hb, (Except.ok.inj h).symm⟩

namespace ZonesFit

theorem clearTable {enabled : Bool} (h : ZonesFit s) : ZonesFit (clearTable enabled k a s) :=
  h.modify fun z hz => ⟨rfl, h.size a z hz⟩

/-- The name and the size of the table are as before in `ns_refresh`. -/
theorem refreshInit {s₁ : TableState} (h : ZonesFit s) (hexcl : primary = true → Exclusive s k)
    (hname : nsUname { s.ns k with data } = nsUname (s.ns k)) (ha : (s.ns k).crcTable = some a)
    (hinit : nsTableInit primary k (s.ns k).tableSize mem (refreshing primary k data s) = .ok s₁) :
    ZonesFit s₁ := by
  have hfini : ZonesFit (nsTableFini primary k s) := h.tableFini hexcl
  have hrefreshing : ZonesFit (refreshing primary k data s) := by
    have hsame : SameName ((nsTableFini primary k s).ns k)
        ((nsTableFini primary k s).ns k).id data := by
      intro _
      rw [nsTableFini_self]
      exact hname
    exact hfini.construct hsame
  refine hrefreshing.tableInit (h.reservable k (ha ▸ rfl)) ?_ hinit
  rintro rfl
  have hsame : nsUname ((refreshing false k data s).ns k) = nsUname (s.ns k) := by
    rw [refreshing, TableState.setNs_self, nsTableFini_self]
    exact hname
  rw [hsame]
  exact h.room (ha ▸ rfl) le_rfl

theorem refresh (h : ZonesFit s) (hexcl : primary = true → Exclusive s k)
    (hname : SameName (s.ns k) (s.ns k).id data) (hs : nsRefresh primary k data mem s = .ok s') :
    ZonesFit s' := by
  rcases nsRefresh_eq_ok hs with ⟨-, rfl⟩ | ⟨a, z, s₁, b, ha, hz, hinit, -, rfl⟩
  · exact h
  · have hsame : nsUname { s.ns k with data } = nsUname (s.ns k) := hname (ha ▸ rfl)
    exact ZonesFit.clearTable (h.refreshInit hexcl hsame ha hinit)

theorem step (h : ZonesFit s) (hrule : TableRule s e) (hs : tableStep s e = .ok s') :
    ZonesFit s' := by
  cases e with
  | attach k id data =>
    obtain rfl := Except.ok.inj hs
    exact h.setNs_none rfl
  | init primary k nlbaVerify mem =>
    change nsInit primary k nlbaVerify mem s = .ok s' at hs
    rw [nsInit] at hs
    split at hs
    case isTrue => cases hs
    case isFalse => exact h.tableInit hrule.1 hrule.2 hs
  | fini primary k =>
    obtain rfl := Except.ok.inj hs
    exact h.tableFini hrule
  | refresh primary k data mem => exact h.refresh hrule.1 hrule.2 hs
  | enable k enable =>
    obtain ⟨⟨r, s₁⟩, hs₁, rfl⟩ := Except.map_eq_ok.1 hs
    rw [nsVerifyEnable] at hs₁
    split at hs₁
    case h_1 =>
      obtain ⟨-, rfl⟩ := Prod.mk.inj (Except.ok.inj hs₁)
      exact h
    case h_2 a ha =>
      split at hs₁
      case h_1 => cases hs₁
      case h_2 =>
        obtain ⟨-, rfl⟩ := Prod.mk.inj (Except.ok.inj hs₁)
        exact h.modify fun z hz => ⟨rfl, h.size a z hz⟩
  | setNs k id data =>
    obtain rfl := Except.ok.inj hs
    exact h.nvmeSetNs hrule
  | write k data =>
    change tableWrite k data s = .ok s' at hs
    rw [tableWrite] at hs
    split at hs
    case h_1 =>
      obtain rfl := Except.ok.inj hs
      exact h
    case h_2 a ha =>
      split at hs
      case h_1 => cases hs
      case h_2 =>
        obtain rfl := Except.ok.inj hs
        exact h.modify fun z hz => ⟨rfl, h.size a z hz⟩

/-- A step accesses no table that is freed. -/
theorem not_freed (h : ZonesFit s) (e : TableEvent) : tableStep s e ≠ .error .freed := by
  have hcell : ∀ {k a}, (s.ns k).crcTable = some a → s.zones.cell a ≠ none := by
    intro k a ha
    obtain ⟨z, hz⟩ := h.live ha
    rw [hz]
    exact Option.some_ne_none z
  intro he
  cases e with
  | attach k id data => cases he
  | init primary k nlbaVerify mem =>
    change nsInit primary k nlbaVerify mem s = .error .freed at he
    rw [nsInit] at he
    split at he
    case isTrue => cases he
    case isFalse => exact nsTableInit_ne_freed he
  | fini primary k => cases he
  | refresh primary k data mem =>
    change nsRefresh primary k data mem s = .error .freed at he
    rw [nsRefresh] at he
    split at he
    case h_1 => cases he
    case h_2 a ha =>
      split at he
      case isTrue => cases he
      case isFalse =>
        split at he
        case h_1 hnone => exact hcell ha hnone
        case h_2 =>
          dsimp only at he
          split at he
          case h_1 e hinit =>
            obtain rfl := Except.error.inj he
            exact nsTableInit_ne_freed hinit
          case h_2 =>
            split at he
            · cases he
            · cases he
  | enable k enable =>
    change (nsVerifyEnable k enable s).map Prod.snd = .error .freed at he
    rw [nsVerifyEnable] at he
    split at he
    case h_1 => cases he
    case h_2 a ha =>
      split at he
      case h_1 hnone => exact hcell ha hnone
      case h_2 => cases he
  | setNs k id data => cases he
  | write k data =>
    change tableWrite k data s = .error .freed at he
    rw [tableWrite] at he
    split at he
    case h_1 => cases he
    case h_2 a ha =>
      split at he
      case h_1 hnone => exact hcell ha hnone
      case h_2 => cases he

theorem of_reachable (h : tableMachine.Reachable TableRule s) : ZonesFit s := by
  refine h.invariant (fun s hs => ?_) fun s e s' hs hrule hstep => ?_
  · obtain ⟨hzones, hnone⟩ := hs
    refine ⟨fun k a ha => ?_, fun k a z ha => ?_, fun k hk => ?_, fun a z hz => ?_⟩
    · simp [hnone k] at ha
    · simp [hnone k] at ha
    · simp [hnone k] at hk
    · rw [hzones] at hz
      cases hz
  · exact hs.step hrule (Except.toOption_eq_some.1 hstep)

end ZonesFit

/-- In every run under the rule, no process accesses a table that is freed, and the entries of a
    table, as a process has it, are in the memory reserved for it. The rule leaves room for every
    process that verifies no more LBAs than one that has the table. -/
theorem crc_zone_fits (h : tableMachine.Reachable TableRule s) :
    (∀ e, tableStep s e ≠ .error .freed) ∧
    (∀ k a, (s.ns k).crcTable = some a → ∃ z, s.zones.cell a = some z ∧
      (s.toNs k).crcTable = some z.table ∧ ∀ j < (s.toNs k).entries, 4 * j + 4 ≤ z.reserved) ∧
    ∀ j t, (s.ns j).crcTable.isSome → t.bytes ≤ (s.ns j).tableSize.bytes →
      Room s (nsUname (s.ns j)) t := by
  have hfit := ZonesFit.of_reachable h
  refine ⟨hfit.not_freed, fun k a ha => ?_, fun j t hj => hfit.room hj⟩
  obtain ⟨z, hz⟩ := hfit.live ha
  have hsize : (s.toNs k).tableSize ≤ z.reserved := hfit.fits k a z ha hz
  refine ⟨z, hz, ?_, fun j hj => ?_⟩
  · simp only [TableState.toNs, ha, Option.bind_some, hz, Option.map_some]
  · have := (s.toNs k).tableSize_eq
    omega

/-- A namespace of 12 sectors. -/
def wideData : NsData := ⟨7, 12, 4160, by decide, by decide⟩

/-- The same namespace, formatted to 96 smaller sectors. -/
def narrowData : NsData := ⟨7, 96, 520, by decide, by decide⟩

/-- The main process and an ioworker, each with its own structure. -/
def tableStart : TableState := ⟨.empty, fun _ => ⟨1, wideData, none, .ofSectors 0⟩⟩

theorem reachable_tableStart :
    ∃ s, tableMachine.Reachable TableRule s ∧ (s.ns 0).crcTable = some 5 := by
  have hsize : 48 + 16 < 2 ^ 64 := by decide
  have hinit : tableMachine.Reachable TableRule tableStart := .init ⟨rfl, fun _ => rfl⟩
  exact hinit.exists_run [.init true 0 0 (some (5, ⟨false, fun _ => 1⟩))]
    ⟨⟨hsize, fun h => nomatch h⟩, fun _ _ => trivial⟩ rfl

/-- The main process reserves a table of 12 entries. -/
theorem crc_zone_fits_reserved : ∃ s : TableState, ∃ z,
    s.zones.cell 5 = some z ∧ (s.toNs 0).crcTable = some z.table ∧
      ∀ j < (s.toNs 0).entries, 4 * j + 4 ≤ z.reserved := by
  obtain ⟨s, h, hk⟩ := reachable_tableStart
  exact ⟨s, (crc_zone_fits h).2.1 0 5 hk⟩

/-- The table that the main process reserves: after its entries, 4 bytes are left. -/
theorem nsTableInit_reserved (ht : t.Reservable) (hs : nsTableInit true k t mem s = .ok s')
    (hk : (s'.ns k).crcTable = some a) :
    s'.ns k = { s.ns k with crcTable := some a, tableSize := t } ∧
      s'.zones.lookup (nsUname (s.ns k)) = some a ∧
      ∃ z, s'.zones.cell a = some z ∧ z.reserved = t.bytes + 4 := by
  rw [nsTableInit, if_pos rfl] at hs
  split at hs
  case isTrue => cases hs
  case isFalse =>
    split at hs
    case h_1 =>
      obtain rfl := Except.ok.inj hs
      rw [TableState.setNs_self] at hk
      cases hk
    case h_2 b zones hzones =>
      obtain rfl := Except.ok.inj hs
      rw [TableState.setNs_self] at hk ⊢
      obtain rfl := Option.some.inj hk
      simp only [Option.bind_eq_some_iff, Option.map_eq_some_iff, Prod.mk.injEq] at hzones
      obtain ⟨⟨b, table⟩, -, zones, hreserve, rfl, rfl⟩ := hzones
      obtain ⟨-, -, hcell, hlookup⟩ := NamedMemory.reserve_eq_some hreserve
      refine ⟨rfl, hlookup ▸ Function.update_self _ _ _, _, hcell ▸ Function.update_self _ _ _, ?_⟩
      dsimp only
      rw [u64, Nat.mod_eq_of_lt ht]
      omega

/-- After a format, the table of an ioworker, which shares the structure of the namespace or has
    its own, is beyond the memory if and only if the ioworker verifies at least two LBAs more
    than there were before. -/
theorem crc_zone_overruns_iff {j : Nat} {s₁ s₂ s₃ : TableState}
    (h : tableMachine.Reachable TableRule s) (hk : (s.ns k).crcTable.isSome)
    (hrefresh : tableStep s (.refresh true k data mem) = .ok s₁)
    (hs₂ : (j = k ∧ s₂ = s₁) ∨ tableStep s₁ (.attach j (s.ns k).id data) = .ok s₂)
    (hinit : tableStep s₂ (.init false j nlbaVerify none) = .ok s₃) :
    ∃ b z, (s₃.ns j).crcTable = some b ∧ s₃.zones.cell b = some z ∧
      (z.reserved < (s₃.toNs j).tableSize ↔
        (s.ns k).tableSize.bytes + 4 < (verifiedSize data nlbaVerify).bytes) := by
  have ht : (s.ns k).tableSize.Reservable := (ZonesFit.of_reachable h).reservable k hk
  obtain ⟨hnone, -⟩ | ⟨a, z, s₀, b, ha, -, hinit₀, hb, rfl⟩ := nsRefresh_eq_ok hrefresh
  · rw [hnone] at hk
    cases hk
  obtain ⟨hns, hlookup, z₀, hz₀, hreserved⟩ := nsTableInit_reserved ht hinit₀ hb
  rw [refreshing, TableState.setNs_self, nsTableFini_self] at hns hlookup
  -- The ioworker finds the table that was reserved again.
  have hzone : ∃ z', (clearTable z.table.enabled k b s₀).zones.cell b = some z' ∧
      z'.reserved = (s.ns k).tableSize.bytes + 4 :=
    ⟨_, NamedMemory.cell_modify_eq_some.2 (.inl ⟨rfl, z₀, hz₀, rfl⟩), hreserved⟩
  obtain ⟨z', hz', hreserved'⟩ := hzone
  have hs₂' : s₂.zones = (clearTable z.table.enabled k b s₀).zones ∧
      (s₂.ns j).data = data ∧ nsUname (s₂.ns j) = ((s.ns k).id, data.eui64) := by
    rcases hs₂ with ⟨rfl, rfl⟩ | hattach
    · have hsame : (clearTable z.table.enabled j b s₀).ns j = s₀.ns j := rfl
      rw [hsame, hns]
      exact ⟨rfl, rfl, rfl⟩
    · obtain rfl := Except.ok.inj hattach
      rw [TableState.setNs_self]
      exact ⟨rfl, rfl, rfl⟩
  obtain ⟨hzones, hdata, hname⟩ := hs₂'
  change nsInit false j nlbaVerify none s₂ = .ok s₃ at hinit
  rw [nsInit] at hinit
  split at hinit
  case isTrue => cases hinit
  case isFalse =>
    have hfound : s₂.zones.lookup (nsUname (s₂.ns j)) = some b := by
      rw [hzones, hname]
      exact hlookup
    rw [nsTableInit, if_neg Bool.false_ne_true, hfound, hdata] at hinit
    obtain rfl := Except.ok.inj hinit
    refine ⟨b, _, congrArg NsStruct.crcTable TableState.setNs_self,
      NamedMemory.cell_modify_eq_some.2 (.inl ⟨rfl, z', hzones ▸ hz', rfl⟩), ?_⟩
    rw [TableState.toNs_tableSize, TableState.setNs_self, hreserved']

/-- After the format, an ioworker that verifies all LBAs has a table of 96 entries, in memory for
    13 of them. -/
theorem crc_zone_overruns_format : ∃ s₃ : TableState, ∃ b z, (s₃.ns 1).crcTable = some b ∧
    s₃.zones.cell b = some z ∧ z.reserved < (s₃.toNs 1).tableSize := by
  have hsize : 48 + 16 < 2 ^ 64 := by decide
  have hinit : tableMachine.Reachable TableRule tableStart := .init ⟨rfl, fun _ => rfl⟩
  have hformat : ∀ {s s₁ s₂ s₃},
      tableStep tableStart (.init true 0 0 (some (5, ⟨false, fun _ => 1⟩))) = .ok s →
      tableStep s (.refresh true 0 narrowData (some (6, ⟨false, fun _ => 1⟩))) = .ok s₁ →
      tableStep s₁ (.attach 1 1 narrowData) = .ok s₂ →
      tableStep s₂ (.init false 1 0 none) = .ok s₃ →
      ∃ b z, (s₃.ns 1).crcTable = some b ∧ s₃.zones.cell b = some z ∧
        z.reserved < (s₃.toNs 1).tableSize := by
    intro s s₁ s₂ s₃ hs hs₁ hs₂ hs₃
    have hrule : TableRule tableStart (.init true 0 0 (some (5, ⟨false, fun _ => 1⟩))) :=
      ⟨hsize, fun h => nomatch h⟩
    have hreserved := hinit.step hrule (Except.toOption_eq_some.2 hs)
    obtain rfl := Except.ok.inj hs
    obtain ⟨b, z, hb, hz, hiff⟩ := crc_zone_overruns_iff hreserved rfl hs₁ (.inr hs₂) hs₃
    exact ⟨b, z, hb, hz, hiff.2 (by decide)⟩
  exact ⟨_, hformat rfl rfl rfl rfl⟩

/-! ### The verification -/

/-- What the script has last set for the verification of each name, if anything, since the table
    was reserved. -/
def recordEnable (wanted : Nat × Nat → Option Bool) (s : TableState) (e : TableEvent)
    (_ : TableState) : Nat × Nat → Option Bool :=
  match e with
  | .enable k enable =>
    if (s.ns k).crcTable.isSome then Function.update wanted (nsUname (s.ns k)) (some enable)
    else wanted
  | .init true k _ _ => Function.update wanted (nsUname (s.ns k)) none
  | _ => wanted

/-- The tables have the flag that the script has set. -/
def FlagsKept (zones : NamedMemory (Nat × Nat) Nat CrcZone) (wanted : Nat × Nat → Option Bool) :
    Prop :=
  ∀ n a b z, zones.lookup n = some a → wanted n = some b → zones.cell a = some z →
    z.table.enabled = b

variable {zones zones' : NamedMemory (Nat × Nat) Nat CrcZone}
  {wanted wanted' : Nat × Nat → Option Bool} {enabled : Bool}

namespace FlagsKept

theorem modify (h : FlagsKept zones wanted) (hf : ∀ z, (f z).table.enabled = z.table.enabled) :
    FlagsKept (zones.modify a f) wanted := by
  intro n c b z hn hb hz
  rcases NamedMemory.cell_modify_eq_some.1 hz with ⟨rfl, v, hv, rfl⟩ | ⟨-, hz⟩
  · rw [hf v]
    exact h n _ b v hn hb hv
  · exact h n c b z hn hb hz

theorem free (h : FlagsKept zones wanted) : FlagsKept (zones.free n) wanted := by
  intro n' a b z hn' hb hz
  have hne : n' ≠ n := by
    rintro rfl
    rw [NamedMemory.lookup_free_self] at hn'
    cases hn'
  rw [NamedMemory.lookup_free_of_ne hne] at hn'
  exact h n' a b z hn' hb (NamedMemory.cell_of_cell_free hz)

/-- The flag of a table is set, and may be recorded under its name. -/
theorem set (h : ∀ n', n' ≠ n → ∀ a b z, zones.lookup n' = some a → wanted n' = some b →
      zones.cell a = some z → z.table.enabled = b) (hn : zones.lookup n = some a)
    (hwanted : ∀ b, wanted n = some b → b = enabled) (hf : ∀ z, (f z).table.enabled = enabled) :
    FlagsKept (zones.modify a f) wanted := by
  intro n' c b z hn' hb hz
  rcases NamedMemory.cell_modify_eq_some.1 hz with ⟨rfl, v, hv, rfl⟩ | ⟨hne, hz⟩
  · obtain rfl := zones.injective hn hn'
    rw [hf v, hwanted b hb]
  · exact h n' (fun heq => hne (Option.some.inj ((heq ▸ hn').symm.trans hn))) c b z hn' hb hz

theorem mono (h : FlagsKept zones wanted) (hw : ∀ n b, wanted' n = some b → wanted n = some b) :
    FlagsKept zones wanted' := fun n a b z hn hb hz => h n a b z hn (hw n b hb) hz

theorem reserve (h : FlagsKept zones wanted) (hzones : zones.reserve n a z = some zones')
    (hwanted : wanted n = none) : FlagsKept zones' wanted := by
  obtain ⟨-, ha, hcell, hlookup⟩ := NamedMemory.reserve_eq_some hzones
  intro n' c b v hn' hb hv
  have hne : n' ≠ n := by
    rintro rfl
    rw [hwanted] at hb
    cases hb
  rw [hlookup, Function.update_of_ne hne] at hn'
  have hc : c ≠ a := by
    rintro rfl
    simpa [ha] using zones.live hn'
  rw [hcell, Function.update_of_ne hc] at hv
  exact h n' c b v hn' hb hv

theorem tableInit (h : FlagsKept s.zones wanted)
    (hwanted : primary = true → wanted (nsUname (s.ns k)) = none)
    (hs : nsTableInit primary k t mem s = .ok s') : FlagsKept s'.zones wanted := by
  rw [nsTableInit] at hs
  split at hs
  case isTrue hprimary =>
    split at hs
    case isTrue => cases hs
    case isFalse =>
      split at hs
      case h_1 =>
        obtain rfl := Except.ok.inj hs
        exact h
      case h_2 a zones hzones =>
        obtain rfl := Except.ok.inj hs
        simp only [Option.bind_eq_some_iff, Option.map_eq_some_iff, Prod.mk.injEq] at hzones
        obtain ⟨⟨a, table⟩, -, zones, hreserve, rfl, rfl⟩ := hzones
        exact h.reserve hreserve (hwanted hprimary)
  case isFalse =>
    split at hs
    case h_1 =>
      obtain rfl := Except.ok.inj hs
      exact h
    case h_2 a ha =>
      obtain rfl := Except.ok.inj hs
      exact h.modify fun _ => rfl

theorem tableFini (h : FlagsKept s.zones wanted) :
    FlagsKept (nsTableFini primary k s).zones wanted := by
  rw [nsTableFini]
  split
  case isTrue =>
    split
    case h_1 => exact h
    case h_2 => exact h.free
  case isFalse => exact h

theorem refresh (h : FlagsKept s.zones wanted) (hfit : ZonesFit s)
    (hexcl : primary = true → Exclusive s k) (hname : SameName (s.ns k) (s.ns k).id data)
    (hs : nsRefresh primary k data mem s = .ok s') : FlagsKept s'.zones wanted := by
  rcases nsRefresh_eq_ok hs with ⟨-, rfl⟩ | ⟨a, z, s₁, b, ha, hz, hinit, hb, rfl⟩
  · exact h
  have hsame : nsUname { s.ns k with data } = nsUname (s.ns k) := hname (ha ▸ rfl)
  have hfit₁ : ZonesFit s₁ := hfit.refreshInit hexcl hsame ha hinit
  have hname₁ : nsUname (s₁.ns k) = nsUname (s.ns k) := by
    rw [nsTableInit_uname hinit, refreshing, TableState.setNs_self, nsTableFini_self]
    exact hsame
  -- The tables of the other names have their flags, also while this one is initialized.
  have hother : FlagsKept s₁.zones (Function.update wanted (nsUname (s.ns k)) none) := by
    have hfree : FlagsKept (refreshing primary k data s).zones
        (Function.update wanted (nsUname (s.ns k)) none) := by
      refine h.tableFini.mono fun n b hn => ?_
      rcases eq_or_ne n (nsUname (s.ns k)) with rfl | hne
      · rw [Function.update_self] at hn
        cases hn
      · rwa [Function.update_of_ne hne] at hn
    refine hfree.tableInit (fun _ => ?_) hinit
    rw [refreshing, TableState.setNs_self, nsTableFini_self]
    exact hsame ▸ Function.update_self _ _ _
  refine FlagsKept.set (fun n' hne a' b' z' hn' hb' hz' => ?_) (hname₁ ▸ hfit₁.named k b hb)
    (fun b' hb' => (h _ a b' z (hfit.named k a ha) hb' hz).symm) fun _ => rfl
  exact hother n' a' b' z' hn' (by rwa [Function.update_of_ne hne]) hz'

theorem step (h : FlagsKept s.zones wanted) (hfit : ZonesFit s) (hrule : TableRule s e)
    (hs : tableStep s e = .ok s') : FlagsKept s'.zones (recordEnable wanted s e s') := by
  cases e with
  | attach k id data =>
    obtain rfl := Except.ok.inj hs
    exact h
  | init primary k nlbaVerify mem =>
    change nsInit primary k nlbaVerify mem s = .ok s' at hs
    rw [nsInit] at hs
    split at hs
    case isTrue => cases hs
    case isFalse =>
      cases primary with
      | false =>
        refine h.tableInit ?_ hs
        rintro ⟨⟩
      | true =>
        have hless : FlagsKept s.zones (Function.update wanted (nsUname (s.ns k)) none) := by
          refine h.mono fun n b hn => ?_
          rcases eq_or_ne n (nsUname (s.ns k)) with rfl | hne
          · rw [Function.update_self] at hn
            cases hn
          · rwa [Function.update_of_ne hne] at hn
        exact hless.tableInit (fun _ => Function.update_self _ _ _) hs
  | fini primary k =>
    obtain rfl := Except.ok.inj hs
    exact h.tableFini
  | refresh primary k data mem => exact h.refresh hfit hrule.1 hrule.2 hs
  | enable k enable =>
    obtain ⟨⟨r, s₁⟩, hs₁, rfl⟩ := Except.map_eq_ok.1 hs
    rw [nsVerifyEnable] at hs₁
    split at hs₁
    case h_1 hnone =>
      obtain ⟨-, rfl⟩ := Prod.mk.inj (Except.ok.inj hs₁)
      rw [recordEnable, hnone]
      exact h
    case h_2 a ha =>
      split at hs₁
      case h_1 => cases hs₁
      case h_2 =>
        obtain ⟨-, rfl⟩ := Prod.mk.inj (Except.ok.inj hs₁)
        rw [recordEnable, ha, Option.isSome_some, if_pos rfl]
        refine FlagsKept.set (fun n hne a b z hn hb hz => ?_) (hfit.named k a ha)
          (fun b hb => ?_) fun _ => rfl
        · rw [Function.update_of_ne hne] at hb
          exact h n a b z hn hb hz
        · rw [Function.update_self, Option.some.injEq] at hb
          exact hb.symm
  | setNs k id data =>
    obtain rfl := Except.ok.inj hs
    change FlagsKept (nvmeSetNs k id data s).zones wanted
    rw [nvmeSetNs]
    split
    · exact h
    · exact h
  | write k data =>
    change tableWrite k data s = .ok s' at hs
    rw [tableWrite] at hs
    split at hs
    case h_1 =>
      obtain rfl := Except.ok.inj hs
      exact h
    case h_2 a ha =>
      split at hs
      case h_1 => cases hs
      case h_2 =>
        obtain rfl := Except.ok.inj hs
        exact h.modify fun _ => rfl

end FlagsKept

/-- In every run under the rule, a process with a table has the verification enabled as the script
    has last set it for the namespace, since the table was reserved. -/
theorem verify_kept (h : (tableMachine.withHistory (fun _ => none) recordEnable).Reachable
      (fun x e => TableRule x.1 e) (s, wanted)) (hk : (s.ns k).crcTable.isSome)
    (hwanted : wanted (nsUname (s.ns k)) = some enabled) :
    ∃ t, (s.toNs k).crcTable = some t ∧ t.enabled = enabled := by
  obtain ⟨hfit, hkept⟩ : ZonesFit s ∧ FlagsKept s.zones wanted := by
    refine h.invariant (I := fun x => ZonesFit x.1 ∧ FlagsKept x.1.zones x.2) ?_ ?_
    · rintro ⟨s, wanted⟩ ⟨hinit, rfl⟩
      exact ⟨.of_reachable (.init hinit), fun _ _ _ _ _ hb => nomatch hb⟩
    · rintro ⟨s, wanted⟩ e ⟨s', wanted'⟩ ⟨hfit, hkept⟩ hrule hstep
      obtain ⟨hs, rfl⟩ := Machine.withHistory_step.1 hstep
      have hs' := Except.toOption_eq_some.1 hs
      exact ⟨hfit.step hrule hs', hkept.step hfit hrule hs'⟩
  obtain ⟨a, ha⟩ := Option.isSome_iff_exists.1 hk
  obtain ⟨z, hz⟩ := hfit.live ha
  refine ⟨z.table, ?_, hkept _ a enabled z (hfit.named k a ha) hwanted hz⟩
  simp only [TableState.toNs, ha, Option.bind_some, hz, Option.map_some]

/-- A format to smaller sectors, with the verification enabled, and an ioworker that verifies as
    many LBAs as before. -/
def formatRun : List TableEvent :=
  [.init true 0 0 (some (5, ⟨false, fun _ => 1⟩)), .enable 0 true,
    .refresh true 0 narrowData (some (6, ⟨false, fun _ => 1⟩)), .init false 1 12 none]

theorem formatRun_admits : (tableMachine.withHistory (fun _ => none) recordEnable).Admits
    (fun x e => TableRule x.1 e) (tableStart, fun _ => none) formatRun := by
  have hsize : 48 + 16 < 2 ^ 64 := by decide
  refine ⟨⟨hsize, fun h => nomatch h⟩, fun x hx => ?_⟩
  obtain rfl := Option.some.inj hx
  refine ⟨trivial, fun x hx => ?_⟩
  obtain rfl := Option.some.inj hx
  refine ⟨⟨fun _ j a hj _ => ?_, fun _ => rfl⟩, fun x hx => ?_⟩
  · have hother : ∀ ns : NsStruct, Function.update tableStart.ns 0 ns j = tableStart.ns j :=
      fun _ => Function.update_of_ne hj _ _
    change (Function.update tableStart.ns 0 _ j).crcTable ≠ some a
    rw [hother]
    exact fun h => nomatch h
  obtain rfl := Option.some.inj hx
  refine ⟨⟨hsize, fun _ a z ha hz => ?_⟩, fun x hx => trivial⟩
  obtain rfl := Option.some.inj ha
  obtain rfl := Option.some.inj hz
  have hle : 48 ≤ 52 := by decide
  exact hle

theorem reachable_formatRun : ∃ x,
    (tableMachine.withHistory (fun _ => none) recordEnable).Reachable
      (fun x e => TableRule x.1 e) x ∧
    ((x.1.ns 1).crcTable, x.2 (nsUname (x.1.ns 1))) = (some 6, some true) :=
  Machine.Reachable.exists_run (.init ⟨⟨rfl, fun _ => rfl⟩, rfl⟩) formatRun formatRun_admits rfl

/-- The ioworker finds the table of after the format, with the verification enabled. -/
theorem verify_kept_format : ∃ s : TableState, (s.ns 1).crcTable = some 6 ∧
    ∃ t, (s.toNs 1).crcTable = some t ∧ t.enabled = true := by
  obtain ⟨⟨s, wanted⟩, h, heq⟩ := reachable_formatRun
  obtain ⟨htable, hwanted⟩ := Prod.mk.inj heq
  exact ⟨s, htable, verify_kept h (Option.isSome_iff_exists.2 ⟨6, htable⟩) hwanted⟩

end Pynvme
