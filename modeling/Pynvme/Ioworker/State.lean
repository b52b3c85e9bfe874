import Pynvme.Ioworker.Args
import Pynvme.Crc.Cmdlog

/-!
# The state of an ioworker

The structures of `ioworker.h`, the clock, and the lookup tables that turn a
random number into an operation, a size or a section of the namespace. The
contexts of the IOs are numbered; a queue of them is a list of numbers.

A failed assertion, a division by zero or an endless loop ends the process
(`Abort`).
-/

namespace Pynvme

open Word

/-! ### Time -/

/-- `struct timeval`. -/
structure Timeval where
  sec : Int
  usec : Int
  deriving DecidableEq

namespace Timeval

/-- `timeradd`. -/
def add (a b : Timeval) : Timeval :=
  if a.usec + b.usec ≥ 1000000 then ⟨a.sec + b.sec + 1, a.usec + b.usec - 1000000⟩
  else ⟨a.sec + b.sec, a.usec + b.usec⟩

/-- `timersub`. -/
def sub (a b : Timeval) : Timeval :=
  if a.usec - b.usec < 0 then ⟨a.sec - b.sec - 1, a.usec - b.usec + 1000000⟩
  else ⟨a.sec - b.sec, a.usec - b.usec⟩

/-- `timercmp(a, b, >)`. -/
def gt (a b : Timeval) : Bool := if a.sec = b.sec then a.usec > b.usec else a.sec > b.sec

/-- `timeradd_usecond`. -/
def addUsecond (now : Timeval) (useconds : Nat) : Timeval :=
  now.add ⟨(useconds / 1000000 : Nat), (useconds % 1000000 : Nat)⟩

/-- `timeval_to_us`, in 32 bits. -/
def toUs (t : Timeval) : Nat := ((t.sec * 1000000 + t.usec) % 2 ^ 32).toNat

/-- The microseconds of a time. -/
def us (t : Timeval) : Int := t.sec * 1000000 + t.usec

/-- The microseconds are less than a second, as `gettimeofday` gives them. -/
def Normal (t : Timeval) : Prop := 0 ≤ t.usec ∧ t.usec < 1000000

instance (t : Timeval) : Decidable t.Normal := inferInstanceAs (Decidable (_ ∧ _))

theorem gt_iff {a b : Timeval} :
    a.gt b = true ↔ b.sec < a.sec ∨ (a.sec = b.sec ∧ b.usec < a.usec) := by
  rw [gt]
  split_ifs <;> rw [decide_eq_true_eq] <;> omega

theorem add_us (a b : Timeval) : (a.add b).us = a.us + b.us := by
  rw [add]
  split_ifs <;> simp only [us] <;> omega

theorem sub_us (a b : Timeval) : (a.sub b).us = a.us - b.us := by
  rw [sub]
  split_ifs <;> simp only [us] <;> omega

end Timeval

/-! ### Structures -/

/-- What ends the process: the failed assertions, by the functions they are in,
    and the traps. -/
inductive Abort
  | entry
  | isFinish
  | lbaRandom
  | lba
  | send
  | duration
  | now
  | divisionByZero
  | endlessLoop
  deriving DecidableEq

/-- `struct ioworker_rets`. -/
structure Rets where
  ioCountRead : Nat := 0
  ioCountNonread : Nat := 0
  mseconds : Nat := 0
  latencyMaxUs : Nat := 0
  error : Nat := 0
  cpuUsage : Nat := 0
  latencyAverageUs : Nat := 0

/-- `struct ioworker_io_ctx`. The buffers are offsets in the pool. -/
structure IoCtx where
  dataBuf : Nat
  writeBuf : Nat
  opcode : Nat
  opIndex : Nat
  timeSent : Timeval
  cmd : Cmdlog
  ioSequenceIndex : Nat

/-- `struct ioworker_distribution_lookup`. -/
structure Section where
  lbaStart : Nat
  lbaEnd : Nat
  deriving DecidableEq

/-- `struct ioworker_global_ctx`. -/
structure Gctx where
  dueTime : Timeval
  ioDueTime : Timeval
  ioDelayTime : Timeval
  timeNextSec : Timeval
  ioCountTillLastSec : Nat
  sequentialLba : Nat
  ioCountSent : Nat
  ioCountCplt : Nat
  totalLatencyUs : Nat
  lastSec : Nat
  currentCmdlogIndex : Nat
  flagFinish : Bool
  ioSequence : Option (List IoSeq)
  ioSequenceIndex : Nat
  ioSequenceStart : Timeval
  distribution : Bool
  dlTable : List Section
  slTable : List Nat
  opTable : List Nat
  pendingIoList : List Nat

/-! ### Lookup tables -/

/-- The table in which the value of `i < n` stands `weight i` times. -/
def lookupTable {α : Type} (n : Nat) (weight : Nat → Nat) (value : Nat → α) : List α :=
  (List.range n).flatMap fun i => List.replicate (weight i) (value i)

/-- `ioworker_iosize_init`, without its assertions: the indices of the sizes. -/
def ioworkerIosizeInit (args : Args) : List Nat :=
  lookupTable args.lbaSizeList.length (fun i => (args.lbaSizeList.map LbaSize.ratio).getD i 0) id

/-- The loop over the operations in `ioworker_entry`: their indices, of 8 bits. -/
def ioworkerOpInit (args : Args) : List Nat :=
  lookupTable args.opList.length (fun i => (args.opList.map Prod.snd).getD i 0) fun i => i % 2 ^ 8

/-- `ioworker_distribution_init`, without its assertion: the sections of a
    namespace of `lbaMax` sectors. -/
def ioworkerDistributionInit (lbaMax : Nat) (args : Args) (distribution : List Nat) :
    List Section :=
  lookupTable 100 (fun i => distribution.getD i 0) fun i =>
    { lbaStart := lbaMax / 100 * i
      lbaEnd := if i = 99 then args.regionEnd else lbaMax / 100 * i + lbaMax / 100 }

variable {α : Type} {n : Nat} {weight : Nat → Nat} {value : Nat → α}

theorem mem_lookupTable {a : α} :
    a ∈ lookupTable n weight value ↔ ∃ i < n, 0 < weight i ∧ a = value i := by
  simp only [lookupTable, List.mem_flatMap, List.mem_range, List.mem_replicate, Nat.pos_iff_ne_zero]

theorem length_lookupTable :
    (lookupTable n weight value).length = ((List.range n).map weight).sum := by
  simp [lookupTable, List.length_flatMap]

/-- The length of a table of weights given by a list. -/
theorem length_lookupTable_list (l : List Nat) (value : Nat → α) :
    (lookupTable l.length (fun i => l.getD i 0) value).length = l.sum := by
  have hmap : (List.range l.length).map (fun i => l.getD i 0) = l := by
    refine List.ext_getElem (by simp) fun i _ hi => ?_
    simp [List.getElem?_eq_getElem hi]
  rw [length_lookupTable, hmap]

theorem length_ioworkerIosizeInit (args : Args) :
    (ioworkerIosizeInit args).length = (args.lbaSizeList.map LbaSize.ratio).sum := by
  rw [← length_lookupTable_list _ id, List.length_map]
  rfl

theorem length_ioworkerOpInit (args : Args) :
    (ioworkerOpInit args).length = (args.opList.map Prod.snd).sum := by
  rw [← length_lookupTable_list _ fun i => i % 2 ^ 8, List.length_map]
  rfl

theorem length_ioworkerDistributionInit (lbaMax : Nat) (args : Args) {l : List Nat}
    (h : l.length = 100) : (ioworkerDistributionInit lbaMax args l).length = l.sum := by
  rw [← length_lookupTable_list l, h]
  rfl

end Pynvme
