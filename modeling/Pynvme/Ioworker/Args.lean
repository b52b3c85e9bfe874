import Pynvme.Script.Python
import Mathlib.Algebra.BigOperators.Ring.Finset

/-!
# The arguments of an ioworker

An ioworker is described by the parameters of `Namespace.ioworker`, in a script.
They are checked twice: by that method (`Namespace.ioworker`), and by the child
process that runs the worker (`ioworkerArgs`), where Cython converts them to the
fields of `struct ioworker_args`, and raises on what does not fit.

What is left after both are the arguments *admitted* (`Args.Admitted`), which
`ioworker_entry` gets; `Args.Admitted.valid` collects what holds of them.

The priority of the queue and the debug flag are not part of the model.
-/

namespace Pynvme

/-! ### Parameters -/

/-- The parameter `io_size`: a size, a range or a list of sizes, or a dictionary of
    sizes and their ratios. (A range is given by the list of its elements.) -/
inductive IoSize
  | int (n : Int)
  | list (l : List Int)
  | dict (d : List (Int × Int))

/-- The parameter `lba_align`. -/
inductive LbaAlign
  | none
  | int (n : Int)
  | list (l : List Int)

/-- The parameter `lba_random`. -/
inductive LbaRandom
  | bool (b : Bool)
  | int (n : Int)

/-- A line of the parameter `io_sequence`. -/
structure SequenceLine where
  timestamp : Int
  op : Int
  slba : Int
  nlba : Int

/-- The parameters of `Namespace.ioworker`. Dictionaries are lists, in the order of
    insertion; of the outputs only matters if they are asked for, and of the list
    of the commands its length. -/
structure PyArgs where
  ioSize : IoSize := .int 8
  lbaStep : Option Int := none
  lbaAlign : LbaAlign := .none
  lbaRandom : LbaRandom := .bool true
  readPercentage : Int := 100
  opPercentage : Option (List (Int × Int)) := none
  time : Int := 0
  qdepth : Int := 64
  regionStart : Int := 0
  regionEnd : Int := 0xffffffffffffffff
  iops : Int := 0
  ioCount : Int := 0
  lbaStart : Int := 0
  distribution : Option (List Int) := none
  ptype : Int := 0xbeef
  pvalue : Int := 100
  ioSequence : Option (List SequenceLine) := none
  outputIoPerSecond : Bool := false
  outputPercentileLatency : Bool := false
  outputCmdlogLen : Nat := 0

/-- What `Namespace.ioworker` hands over to the child process. -/
structure WorkerParams where
  lbaStart : Int
  lbaStep : Option Int
  lbaSize : List (Int × Int)
  lbaAlign : List Int
  lbaRandom : Int
  regionStart : Int
  regionEnd : Int
  opPercentage : List (Int × Int)
  iops : Int
  ioCount : Int
  time : Int
  qdepth : Int
  distribution : Option (List Int)
  pvalue : Int
  ptype : Int
  ioSequence : Option (List SequenceLine)
  outputIoPerSecond : Bool
  outputPercentileLatency : Bool
  outputCmdlogLen : Nat

/-- The percentage of random IO. -/
def LbaRandom.percentage : LbaRandom → Int
  | .bool true => 100
  | .bool false => 0
  | .int n => n

/-- The count of IO of a pure sequential workload that fills a region once; other
    workloads have to say when they stop. -/
def fillCount (p : PyArgs) (lbaRandom : Int) : Except PyError Int :=
  match p.ioSize, lbaRandom == 0 && p.regionEnd != 0xffffffffffffffff with
  | .int n, true =>
    if p.time = 0 ∧ p.ioCount = 0 then
      if n = 0 then .error .zeroDivision
      else .ok (Int.fdiv (p.regionEnd - p.regionStart + n - 1) n)
    else .ok p.ioCount
  | _, _ => do
    pyAssert (¬(p.ioSequence.isNone ∧ p.time = 0 ∧ p.ioCount = 0)) "when to stop the ioworker?"
    return p.ioCount

/-- The sizes, with their ratios; they are smaller than the region. -/
def sizeDict (p : PyArgs) : Except PyError (List (Int × Int)) :=
  match p.ioSize with
  | .int n => .ok [(min n (p.regionEnd - p.regionStart), 1)]
  | .list l => do
    let m ← pyMax l
    pyAssert (m < p.regionEnd - p.regionStart) "region is smaller than IO"
    return l.eraseDups.map fun i => (i, 1)
  | .dict d => do
    let m ← pyMax (d.map Prod.fst)
    pyAssert (m < p.regionEnd - p.regionStart) "region is smaller than IO"
    return d

/-- The alignments, one for every size if they are not given. -/
def LbaAlign.toList (sizes : List (Int × Int)) : LbaAlign → List Int
  | .none => sizes.map fun _ => 1
  | .int n => [n]
  | .list l => l

/-- `Namespace.ioworker`, on a controller with queues of at most `mqes + 1`
    entries. -/
def Namespace.ioworker (mqes : Nat) (p : PyArgs) : Except PyError WorkerParams := do
  pyAssert (2 ≤ p.qdepth ∧ p.qdepth ≤ 1024) "qdepth should be in [2, 1024]"
  pyAssert (p.qdepth ≤ mqes + 1) "qdepth is larger than specification"
  pyAssert (p.regionStart < p.regionEnd) "region end is not included"
  pyAssert (p.time ≤ 1000 * 3600) "worker needs a rest :)"
  pyAssert (p.readPercentage ≤ 100) "read percentage is less than 100"
  pyAssert (p.iops = 0 ∨ p.qdepth ≤ p.iops) "iops must be larger than qdepth"
  let opPercentage := p.opPercentage.getD [(2, p.readPercentage), (1, 100 - p.readPercentage)]
  pyAssert ((opPercentage.map Prod.snd).sum = 100) "op_percentage definition error"
  let lbaRandom := p.lbaRandom.percentage
  pyAssert (0 ≤ lbaRandom ∧ lbaRandom ≤ 100) "lba_random is a percentage, 0-100"
  let ioCount ← fillCount p lbaRandom
  let lbaSize ← sizeDict p
  pyAssert (∀ step ∈ p.lbaStep, -0x8000 < step ∧ step < 0x8000) "io size or step is too large"
  pyAssert (0 ∉ lbaSize.map Prod.fst) "io_size cannot be 0"
  let lbaAlign := p.lbaAlign.toList lbaSize
  pyAssert (0 ∉ lbaAlign) "lba_align cannot be 0"
  return {
    lbaStart := p.lbaStart, lbaStep := p.lbaStep, lbaSize, lbaAlign, lbaRandom,
    regionStart := p.regionStart, regionEnd := p.regionEnd, opPercentage, iops := p.iops, ioCount,
    time := p.time, qdepth := max 2 p.qdepth, distribution := p.distribution,
    pvalue := p.pvalue, ptype := p.ptype, ioSequence := p.ioSequence,
    outputIoPerSecond := p.outputIoPerSecond,
    outputPercentileLatency := p.outputPercentileLatency, outputCmdlogLen := p.outputCmdlogLen }

/-! ### C -/

/-- An entry of `lba_size_list`, with those of `lba_size_list_ratio` and
    `lba_size_list_align`. -/
structure LbaSize where
  size : Nat
  ratio : Nat
  align : Nat
  deriving DecidableEq

/-- `ioworker_ioseq`. -/
structure IoSeq where
  slba : Nat
  timestamp : Nat
  op : Nat
  nlba : Nat
  deriving DecidableEq

/-- `ioworker_cmdlog`. -/
structure Cmdlog where
  lba : Nat
  count : Nat
  opcode : Nat
  deriving DecidableEq

/-- `ioworker_args`. A null pointer is `none`, and the length of an array that of
    the list; the output counters are functions of the index. -/
structure Args where
  lbaStart : Nat
  lbaSizeMax : Nat
  lbaAlignMax : Nat
  lbaSizeRatioSum : Nat
  lbaSizeList : List LbaSize
  regionStart : Nat
  regionEnd : Nat
  lbaRandom : Nat
  lbaStep : Int
  lbaStepValid : Bool
  iops : Nat
  ioCount : Nat
  seconds : Nat
  qdepth : Nat
  pvalue : Nat
  ptype : Nat
  ioSequence : Option (List IoSeq)
  ioCounterPerSecond : Option (Nat → Nat)
  ioCounterPerLatency : Option (Nat → Nat)
  distribution : Option (List Nat)
  cmdlogList : List Cmdlog
  /-- The pairs of `op_list` and `op_counter`. -/
  opList : List (Nat × Nat)

/-- An entry of the lists of sizes. -/
def convertSize (e : (Int × Int) × Int) : Except PyError LbaSize := do
  let size ← toUnsigned 32 e.1.1
  let ratio ← toUnsigned 32 e.1.2
  let align ← toUnsigned 32 e.2
  pyAssert (size < 0x10000) "io_size is a 16bit-field in commands"
  pyAssert (align < 0x10000) "io_size is a 16bit-field in commands"
  return ⟨size, ratio, align⟩

/-- The distribution, on the full region only. -/
def convertDistribution (p : WorkerParams) : Except PyError (Option (List Nat)) :=
  match p.distribution with
  | none => .ok none
  | some d => do
    pyAssert (p.regionStart = 0) "distribution has to be on the full region"
    pyAssert (p.regionEnd = 0xffffffffffffffff) "distribution has to be on the full region"
    pyAssert (d.length = 100) "distribution on 100 equal sections"
    pyAssert (d.sum = 10000) "distribute 10000 IO on 100 sections"
    pyAssert (p.lbaRandom = 100) "distribution has to be all random IO"
    let d ← d.mapM (toUnsigned 32)
    return some d

/-- A line of the sequence. -/
def convertLine (line : SequenceLine) : Except PyError IoSeq := do
  let slba ← toUnsigned 64 line.slba
  let timestamp ← toUnsigned 32 line.timestamp
  let op ← toUnsigned 32 line.op
  let nlba ← toUnsigned 32 line.nlba
  return ⟨slba, timestamp, op, nlba⟩

/-- The sequence; an empty one is none. -/
def convertSequence (p : WorkerParams) : Except PyError (Option (List IoSeq)) :=
  match p.ioSequence with
  | none | some [] => .ok none
  | some lines => do
    pyAssert (p.iops = 0) "run sequence instead of fixed iops workload"
    let _ ← toUnsigned 32 lines.length
    let seq ← lines.mapM convertLine
    return some seq

/-- An entry of `op_list` and `op_counter`. -/
def convertOp (e : Int × Int) : Except PyError (Nat × Nat) := do
  let op ← toUnsigned 32 e.1
  let count ← toUnsigned 64 e.2
  return (op, count)

/-- The part of `_IOWorker._ioworker` that sets up the arguments of
    `ioworker_entry`. -/
def ioworkerArgs (p : WorkerParams) : Except PyError Args := do
  pyAssert (p.lbaSize.length = p.lbaAlign.length) "size and align not match"
  let sizeMax ← pyMax (p.lbaSize.map Prod.fst)
  let lbaSizeMax ← toUnsigned 32 sizeMax
  let alignMax ← pyMax p.lbaAlign
  let lbaAlignMax ← toUnsigned 32 alignMax
  let lbaSizeRatioSum ← toUnsigned 32 (p.lbaSize.map Prod.snd).sum
  pyAssert (lbaSizeRatioSum ≤ 10000) "please simplify the io_size ratios"
  let lbaSizeList ← (p.lbaSize.zip p.lbaAlign).mapM convertSize
  let distribution ← convertDistribution p
  let seconds := if p.time = 0 then 1000 * 3600 else p.time
  let ioSequence ← convertSequence p
  let opList ← p.opPercentage.mapM convertOp
  let lbaStart ← toUnsigned 64 p.lbaStart
  let lbaStep ← toShort (p.lbaStep.getD 0)
  let lbaRandom ← toUnsigned 16 p.lbaRandom
  let regionStart ← toUnsigned 64 p.regionStart
  let regionEnd ← toUnsigned 64 p.regionEnd
  let iops ← toUnsigned 32 p.iops
  let ioCount ← toUnsigned 64 p.ioCount
  let seconds ← toUnsigned 32 seconds
  let qdepth ← toUnsigned 32 p.qdepth
  let pvalue ← toUnsigned 32 p.pvalue
  let ptype ← toUnsigned 32 p.ptype
  return {
    lbaStart, lbaSizeMax, lbaAlignMax, lbaSizeRatioSum, lbaSizeList, regionStart, regionEnd,
    lbaRandom, lbaStep, lbaStepValid := p.lbaStep.isSome, iops, ioCount, seconds, qdepth, pvalue,
    ptype, ioSequence,
    ioCounterPerSecond := if p.outputIoPerSecond then some fun _ => 0 else none
    ioCounterPerLatency := if p.outputPercentileLatency then some fun _ => 0 else none
    distribution, cmdlogList := List.replicate p.outputCmdlogLen ⟨0, 0, 0⟩, opList }

/-- The arguments that `ioworker_entry` gets. -/
def Args.Admitted (args : Args) : Prop :=
  ∃ mqes p params, Namespace.ioworker mqes p = .ok params ∧ ioworkerArgs params = .ok args

/-! ### What is admitted -/

/-- What holds of the arguments admitted. -/
structure Args.Valid (args : Args) : Prop where
  qdepth : 2 ≤ args.qdepth ∧ args.qdepth ≤ 1024
  ioCount : args.ioCount < 2 ^ 64
  region : args.regionStart < args.regionEnd ∧ args.regionEnd < 2 ^ 64
  lbaStart : args.lbaStart < 2 ^ 64
  size : ∀ e ∈ args.lbaSizeList, 1 ≤ e.size ∧ e.size < 0x10000 ∧ e.size ≤ args.lbaSizeMax
  align : ∀ e ∈ args.lbaSizeList, 1 ≤ e.align ∧ e.align < 0x10000 ∧ e.align ≤ args.lbaAlignMax
  sizeMax : ∃ e ∈ args.lbaSizeList, e.size = args.lbaSizeMax
  alignMax : ∃ e ∈ args.lbaSizeList, e.align = args.lbaAlignMax
  ratios : (args.lbaSizeList.map LbaSize.ratio).sum = args.lbaSizeRatioSum ∧
    args.lbaSizeRatioSum ≤ 10000
  ops : (args.opList.map Prod.snd).sum = 100
  step : args.lbaStepValid = false → args.lbaStep = 0
  distribution : ∀ d ∈ args.distribution, args.regionStart = 0 ∧ args.regionEnd = 2 ^ 64 - 1 ∧
    d.length = 100 ∧ d.sum = 10000
  sequence : ∀ l ∈ args.ioSequence, l ≠ [] ∧ l.length < 2 ^ 32

/-- What the first check leaves to the child process. -/
structure WorkerParams.Checked (p : WorkerParams) : Prop where
  qdepth : 2 ≤ p.qdepth ∧ p.qdepth ≤ 1024
  region : p.regionStart < p.regionEnd
  size : ∀ e ∈ p.lbaSize, e.1 ≠ 0
  align : 0 ∉ p.lbaAlign
  ops : (p.opPercentage.map Prod.snd).sum = 100

/-- What the first check hands over of the parameters, and computes from them. -/
structure WorkerParams.From (params : WorkerParams) (p : PyArgs) : Prop extends params.Checked where
  bounds : params.regionStart = p.regionStart ∧ params.regionEnd = p.regionEnd
  time : params.time = p.time ∧ p.time ≤ 1000 * 3600
  random : params.lbaRandom = p.lbaRandom.percentage
  ioCount : fillCount p p.lbaRandom.percentage = .ok params.ioCount
  sizes : sizeDict p = .ok params.lbaSize

theorem Namespace.ioworker_from {mqes : Nat} {p : PyArgs} {params : WorkerParams}
    (h : Namespace.ioworker mqes p = .ok params) : params.From p := by
  simp only [Namespace.ioworker, Except.bind_eq_ok, pyAssert_eq_ok, Except.pure_eq_ok,
    exists_const] at h
  obtain ⟨⟨hq, hq'⟩, -, hr, ht, -, -, ho, -, _, hcount, sizes, hsizes, -, hs, ha, rfl⟩ := h
  refine ⟨⟨?_, hr, fun e he h0 => hs (h0 ▸ List.mem_map_of_mem he), ha, ho⟩, ⟨rfl, rfl⟩, ⟨rfl, ht⟩,
    rfl, hcount, hsizes⟩
  dsimp only
  omega

/-- A nonnegative maximum, as the conversion gives it, is that of the converted
    values. -/
theorem le_and_mem_of_max {α : Type} {l : List α} {f : α → Nat} {m : Nat}
    (h : (l.map fun a => (f a : Int)).max? = some (m : Int)) :
    (∀ a ∈ l, f a ≤ m) ∧ ∃ a ∈ l, f a = m := by
  obtain ⟨hmem, hle⟩ := List.max?_eq_some_iff.1 h
  refine ⟨fun a ha => ?_, ?_⟩
  · exact_mod_cast hle _ (List.mem_map_of_mem ha)
  · obtain ⟨a, ha, he⟩ := List.mem_map.1 hmem
    exact ⟨a, ha, by exact_mod_cast he⟩

theorem convertSize_eq_ok {e : (Int × Int) × Int} {s : LbaSize} (h : convertSize e = .ok s) :
    e.1.1 = s.size ∧ e.1.2 = s.ratio ∧ e.2 = s.align ∧ s.size < 0x10000 ∧ s.align < 0x10000 := by
  simp only [convertSize, Except.bind_eq_ok, pyAssert_eq_ok, toUnsigned_eq_ok, Except.pure_eq_ok,
    exists_const] at h
  obtain ⟨_, ⟨h1, -⟩, _, ⟨h2, -⟩, _, ⟨h3, -⟩, h4, h5, rfl⟩ := h
  exact ⟨h1, h2, h3, h4, h5⟩

theorem convertOp_eq_ok {e : Int × Int} {s : Nat × Nat} (h : convertOp e = .ok s) :
    e.2 = s.2 := by
  simp only [convertOp, Except.bind_eq_ok, toUnsigned_eq_ok, Except.pure_eq_ok] at h
  obtain ⟨_, -, _, ⟨h2, -⟩, rfl⟩ := h
  exact h2

theorem convertDistribution_eq_ok {p : WorkerParams} {d : Option (List Nat)}
    (h : convertDistribution p = .ok d) :
    ∀ l ∈ d, p.regionStart = 0 ∧ p.regionEnd = 0xffffffffffffffff ∧ l.length = 100 ∧
      l.sum = 10000 := by
  rw [convertDistribution] at h
  split at h
  · cases h
    simp
  · simp only [Except.bind_eq_ok, pyAssert_eq_ok, Except.pure_eq_ok, exists_const] at h
    obtain ⟨h0, hmax, hlen, hsum, -, l, hl, rfl⟩ := h
    have hmap := Except.map_eq_of_mapM (g := id) (k := Nat.cast) hl fun a b hab =>
      (toUnsigned_eq_ok.1 hab).1
    rw [List.map_id] at hmap
    rintro _ ⟨⟩
    refine ⟨h0, hmax, ?_, ?_⟩
    · rw [← hlen, hmap, List.length_map]
    · rw [hmap, ← Nat.cast_list_sum] at hsum
      exact_mod_cast hsum

theorem convertSequence_eq_ok {p : WorkerParams} {d : Option (List IoSeq)}
    (h : convertSequence p = .ok d) : ∀ l ∈ d, l ≠ [] ∧ l.length < 2 ^ 32 := by
  rw [convertSequence] at h
  split at h
  · cases h
    simp
  · cases h
    simp
  · rename_i lines hne _
    simp only [Except.bind_eq_ok, pyAssert_eq_ok, toUnsigned_eq_ok, Except.pure_eq_ok,
      exists_const] at h
    obtain ⟨-, n, ⟨hn, hlt⟩, l, hl, rfl⟩ := h
    have hlen := (Except.forall₂_of_mapM hl).length_eq
    rintro l' ⟨⟩
    refine ⟨fun h0 => hne ?_, by omega⟩
    exact List.length_eq_zero_iff.1 (by simpa [h0] using hlen)

theorem ioworkerArgs_valid {p : WorkerParams} {args : Args} (hp : p.Checked)
    (h : ioworkerArgs p = .ok args) : args.Valid := by
  simp only [ioworkerArgs, Except.bind_eq_ok, pyAssert_eq_ok, toUnsigned_eq_ok, toShort_eq_ok,
    pyMax_eq_ok, Except.pure_eq_ok, exists_const] at h
  obtain ⟨hlen, sizeMax, hsm, lbaSizeMax, ⟨rfl, hsm'⟩, alignMax, ham, lbaAlignMax, ⟨rfl, ham'⟩,
    ratioSum, ⟨hrs, -⟩, hrs', sizes, hsizes, dist, hdist, seq, hseq, ops, hops, lbaStart,
    ⟨hls, hls'⟩, step, ⟨hst, hst'⟩, random, ⟨hrd, -⟩, start, ⟨hrs1, hrs2⟩, stop, ⟨hre1, hre2⟩,
    iops, -, count, ⟨-, hc⟩, seconds, -, depth, ⟨hd, -⟩, pvalue, -, ptype, -, rfl⟩ := h
  -- The lists of the dictionary and of the alignments are those of the entries.
  have hzip : (p.lbaSize.zip p.lbaAlign).map Prod.fst = p.lbaSize :=
    List.map_fst_zip (by omega)
  have hzip' : (p.lbaSize.zip p.lbaAlign).map Prod.snd = p.lbaAlign :=
    List.map_snd_zip (by omega)
  have hsize : p.lbaSize.map Prod.fst = sizes.map fun e => (e.size : Int) := by
    rw [← hzip, List.map_map]
    exact Except.map_eq_of_mapM hsizes fun a b hab => (convertSize_eq_ok hab).1
  have hratio : p.lbaSize.map Prod.snd = sizes.map fun e => (e.ratio : Int) := by
    rw [← hzip, List.map_map]
    exact Except.map_eq_of_mapM hsizes fun a b hab => (convertSize_eq_ok hab).2.1
  have halign : p.lbaAlign = sizes.map fun e => (e.align : Int) := by
    rw [← hzip']
    exact Except.map_eq_of_mapM hsizes fun a b hab => (convertSize_eq_ok hab).2.2.1
  have hlt : ∀ e ∈ sizes, e.size < 0x10000 ∧ e.align < 0x10000 := fun e he => by
    obtain ⟨a, -, ha⟩ := Except.exists_of_mapM hsizes he
    exact (convertSize_eq_ok ha).2.2.2
  rw [hsize] at hsm
  rw [halign] at ham
  obtain ⟨hsle, hsmem⟩ := le_and_mem_of_max hsm
  obtain ⟨hale, hamem⟩ := le_and_mem_of_max ham
  refine ⟨?_, hc, ?_, hls', fun e he => ?_, fun e he => ?_, hsmem, hamem, ⟨?_, hrs'⟩, ?_, ?_, ?_,
    convertSequence_eq_ok hseq⟩
  · have := hp.qdepth
    dsimp only
    omega
  · have := hp.region
    dsimp only
    omega
  · have hmem : (e.size : Int) ∈ p.lbaSize.map Prod.fst := hsize ▸ List.mem_map_of_mem he
    obtain ⟨a, ha, hae⟩ := List.mem_map.1 hmem
    have := hp.size a ha
    exact ⟨by omega, (hlt e he).1, hsle e he⟩
  · have hmem : (e.align : Int) ∈ p.lbaAlign := halign ▸ List.mem_map_of_mem he
    have : (e.align : Int) ≠ 0 := fun h0 => hp.align (h0 ▸ hmem)
    exact ⟨by omega, (hlt e he).2, hale e he⟩
  · have hcast : sizes.map (fun e => (e.ratio : Int)) = (sizes.map LbaSize.ratio).map Nat.cast := by
      rw [List.map_map]
      rfl
    rw [hratio, hcast, ← Nat.cast_list_sum] at hrs
    exact_mod_cast hrs
  · have hmap : p.opPercentage.map Prod.snd = (ops.map Prod.snd).map Nat.cast := by
      rw [List.map_map]
      exact Except.map_eq_of_mapM hops fun a b hab => convertOp_eq_ok hab
    have hsum := hp.ops
    rw [hmap, ← Nat.cast_list_sum] at hsum
    exact_mod_cast hsum
  · intro hvalid
    rw [← hst]
    dsimp only at hvalid
    rw [Option.isSome_eq_false_iff, Option.isNone_iff_eq_none] at hvalid
    rw [hvalid]
    rfl
  · intro d hd
    obtain ⟨h0, hmax, hrest⟩ := convertDistribution_eq_ok hdist d hd
    refine ⟨?_, ?_, hrest⟩
    · dsimp only
      omega
    · dsimp only
      omega

/-- What the second check converts. -/
structure Args.Converted (p : WorkerParams) (args : Args) : Prop where
  regionStart : p.regionStart = args.regionStart
  regionEnd : p.regionEnd = args.regionEnd
  lbaRandom : p.lbaRandom = args.lbaRandom
  iops : p.iops = args.iops
  ioCount : p.ioCount = args.ioCount
  seconds : (if p.time = 0 then 1000 * 3600 else p.time) = (args.seconds : Int)
  sizes : (p.lbaSize.zip p.lbaAlign).mapM convertSize = .ok args.lbaSizeList
  sequence : convertSequence p = .ok args.ioSequence
  ioCounterPerLatency : ∀ c ∈ args.ioCounterPerLatency, c = fun _ => 0
  cmdlogList : args.cmdlogList = List.replicate p.outputCmdlogLen ⟨0, 0, 0⟩

theorem ioworkerArgs_converted {p : WorkerParams} {args : Args} (h : ioworkerArgs p = .ok args) :
    Args.Converted p args := by
  simp only [ioworkerArgs, Except.bind_eq_ok, pyAssert_eq_ok, toUnsigned_eq_ok,
    Except.pure_eq_ok, exists_const] at h
  obtain ⟨-, _, -, _, -, _, -, _, -, _, -, -, sizes, hsizes, _, -, seq, hseq, _, -, _, -, _, -,
    random, ⟨hrandom, -⟩, start, ⟨hstart, -⟩, stop, ⟨hstop, -⟩, iops, ⟨hiops, -⟩, count,
    ⟨hcount, -⟩, seconds, ⟨hseconds, -⟩, _, -, _, -, _, -, rfl⟩ := h
  refine ⟨hstart, hstop, hrandom, hiops, hcount, hseconds, hsizes, hseq, ?_, rfl⟩
  dsimp only
  split_ifs
  · rintro c ⟨⟩
    rfl
  · simp

/-- Both checks together. -/
theorem Args.Admitted.valid {args : Args} (h : args.Admitted) : args.Valid := by
  obtain ⟨_, _, _, hparams, hargs⟩ := h
  exact ioworkerArgs_valid (Namespace.ioworker_from hparams).toChecked hargs

/-- The time limit, that of a worker without one included. -/
theorem Args.Admitted.seconds_le {args : Args} (h : args.Admitted) :
    args.seconds ≤ 1000 * 3600 := by
  obtain ⟨_, p, params, hparams, hargs⟩ := h
  obtain ⟨heq, hle⟩ := (Namespace.ioworker_from hparams).time
  have hseconds := (ioworkerArgs_converted hargs).seconds
  split_ifs at hseconds <;> omega

/-- The histogram of the latencies is empty at first. -/
theorem Args.Admitted.ioCounterPerLatency {args : Args} (h : args.Admitted) :
    ∀ c ∈ args.ioCounterPerLatency, c = fun _ => 0 := by
  obtain ⟨_, _, _, _, hargs⟩ := h
  exact (ioworkerArgs_converted hargs).ioCounterPerLatency

/-- The log of the commands is empty at first. -/
theorem Args.Admitted.cmdlogList {args : Args} (h : args.Admitted) :
    args.cmdlogList = List.replicate args.cmdlogList.length ⟨0, 0, 0⟩ := by
  obtain ⟨_, _, _, _, hargs⟩ := h
  rw [(ioworkerArgs_converted hargs).cmdlogList, List.length_replicate]

/-- A sequence is replayed without a limit on the rate. -/
theorem Args.Admitted.ioSequence_eq_none {args : Args} (h : args.Admitted) (hiops : args.iops ≠ 0) :
    args.ioSequence = none := by
  obtain ⟨_, _, params, _, hargs⟩ := h
  have hc := ioworkerArgs_converted hargs
  have hseq := hc.sequence
  have hrate := hc.iops
  rw [convertSequence] at hseq
  split at hseq
  · exact (Except.ok.inj hseq).symm
  · exact (Except.ok.inj hseq).symm
  · simp only [Except.bind_eq_ok, pyAssert_eq_ok, exists_const] at hseq
    omega

end Pynvme
