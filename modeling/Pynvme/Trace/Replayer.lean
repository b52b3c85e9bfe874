import Pynvme.Ioworker.Args
import Pynvme.Trace.Recorder
import Mathlib.Data.List.Sort

/-!
# The replay of a trace

A recorded trace is replayed from the zip file of its files: their names are sorted, as
strings, and taken by fours, the files of the queues of a window; each four are replayed
together, by as many ioworkers, before the next. A read or a write longer than what the
drive takes at once is replayed as several ones.

As strings, the names of the windows are not in the order of their numbers: the window 10
comes before the window 2. `replays_in_order_iff` tells exactly which traces are replayed
in the order of the time.
-/

namespace Pynvme

open Decimal

/-! ### The model -/

/-- What `replay_logfile` is given by the drive: the size of a transfer, and the word of the
    LBA format; and how the times of the IOs, and that of the last one of a queue, depend on
    the accelerator. -/
structure ReplayEnv where
  mdts : Nat
  formatSupport : Nat
  time : Nat → Int
  dummyTime : Int

/-- `max_lba`, the number of blocks of a transfer. -/
def ReplayEnv.maxLba (env : ReplayEnv) : Nat :=
  let dataSize := 1 <<< (env.formatSupport >>> 16 &&& 0xff)
  env.mdts / dataSize

/-- The dictionary `opcode`, of what is recorded. -/
def TraceOp.opcode : TraceOp → Int
  | .flush => 0
  | .write => 1
  | .read => 2
  | .trims => 9

/-- The name of a file in a zip file: it is relative. -/
def arcname (path : Path) : Path := path.dropWhile (· = '/')

/-- `generate_trace_file`; `os.walk` lists the files in any order. -/
def generateTraceFile (files : List TraceFile) : List TraceFile :=
  files.map fun f => (arcname f.1, f.2)

/-- `while nlba`: the parts of an IO, in a number of iterations. -/
def splitIo (maxLba : Nat) : Nat → Nat → Nat → Option (List (Nat × Nat))
  | 0, _, nlba => if nlba = 0 then some [] else none
  | fuel + 1, slba, nlba =>
    if nlba = 0 then some []
    else
      let n := min nlba maxLba
      (splitIo maxLba fuel (slba + n) (nlba - n)).map ((slba, n) :: ·)

/-- The IOs of a line. If the loop ends, it does so after at most `nlba` iterations
    (`splitIo_zero`, `splitIo_isSome`). -/
def replayLine (env : ReplayEnv) (line : TraceLine) : Except TraceError (List SequenceLine) :=
  let io (p : Nat × Nat) : SequenceLine := ⟨env.time line.usec, line.op.opcode, p.1, p.2⟩
  if line.op = .write ∨ line.op = .read then
    match splitIo env.maxLba line.nlba line.slba line.nlba with
    | none => .error .endlessLoop
    | some parts => .ok (parts.map io)
  else .ok [io (line.slba, line.nlba)]

/-- The dummy IO at the end of a sequence, to force the ioworker to run. -/
def dummyIo (env : ReplayEnv) : SequenceLine := ⟨env.dummyTime, 0, 0, 1⟩

/-- The IOs of a file of the trace. -/
def replayFile (env : ReplayEnv) (zfile : List TraceFile) (filepath : Path) :
    Except TraceError (Path × List SequenceLine) :=
  match zfile.find? fun f => f.1 = filepath with
  | none => .error (.py .key)
  | some (_, lines) => do
    let ios ← lines.mapM (replayLine env)
    return (filepath, ios.flatten ++ [dummyIo env])

/-- The files, four at a time. -/
def replayFiles (env : ReplayEnv) (zfile : List TraceFile) :
    List Path → Except TraceError (List (List (Path × List SequenceLine)))
  | [] => .ok []
  | f₁ :: f₂ :: f₃ :: f₄ :: files => do
    let ioworkers ← [f₁, f₂, f₃, f₄].mapM (replayFile env zfile)
    let rest ← replayFiles env zfile files
    return ioworkers :: rest
  | _ => .error (.py .index)

/-- `replay_logfile`: the sequences of the ioworkers that run together, with the names of
    their files, one group after the other. -/
def replayLogfile (env : ReplayEnv) (zfile : List TraceFile) :
    Except TraceError (List (List (Path × List SequenceLine))) :=
  replayFiles env zfile ((zfile.map Prod.fst).mergeSort fun a b => decide (a ≤ b))

/-! ### The parts of an IO -/

variable {env : ReplayEnv} {maxLba fuel slba nlba : Nat} {parts : List (Nat × Nat)}

/-- The parts are not empty and not too long, and their blocks, one part after the other, are
    those of the IO. -/
structure Tiles (maxLba slba nlba : Nat) (parts : List (Nat × Nat)) : Prop where
  size : ∀ p ∈ parts, 1 ≤ p.2 ∧ p.2 ≤ maxLba
  blocks : parts.flatMap (fun p => List.range' p.1 p.2) = List.range' slba nlba

/-- With no block in a transfer, the loop never ends. -/
theorem splitIo_zero (h : nlba ≠ 0) : splitIo 0 fuel slba nlba = none := by
  induction fuel with
  | zero => rw [splitIo, if_neg h]
  | succ fuel ih =>
    simp only [splitIo, if_neg h, Nat.min_zero, Nat.add_zero, Nat.sub_zero, ih, Option.map_none]

theorem splitIo_tiles (h : splitIo maxLba fuel slba nlba = some parts) :
    Tiles maxLba slba nlba parts := by
  induction fuel generalizing slba nlba parts with
  | zero =>
    rw [splitIo] at h
    split_ifs at h with h0
    obtain rfl := Option.some.inj h
    exact ⟨by simp, by simp [h0]⟩
  | succ fuel ih =>
    by_cases h0 : nlba = 0
    · rw [splitIo, if_pos h0] at h
      obtain rfl := Option.some.inj h
      exact ⟨by simp, by simp [h0]⟩
    · have hmax : maxLba ≠ 0 := by
        rintro rfl
        rw [splitIo_zero h0] at h
        cases h
      rw [splitIo, if_neg h0, Option.map_eq_some_iff] at h
      obtain ⟨rest, hrest, rfl⟩ := h
      obtain ⟨hsize, hblocks⟩ := ih hrest
      refine ⟨List.forall_mem_cons.2 ⟨by simp only; omega, hsize⟩, ?_⟩
      rw [List.flatMap_cons, hblocks, List.range'_append_1,
        Nat.add_sub_cancel' (Nat.min_le_left _ _)]

/-- With a block in a transfer, the loop ends after at most as many iterations as there are
    blocks. -/
theorem splitIo_isSome (hmax : 1 ≤ maxLba) (h : nlba ≤ fuel) :
    (splitIo maxLba fuel slba nlba).isSome := by
  induction fuel generalizing slba nlba with
  | zero =>
    rw [splitIo, if_pos (Nat.le_zero.1 h)]
    rfl
  | succ fuel ih =>
    rw [splitIo]
    split_ifs with h0
    · rfl
    · rw [Option.isSome_map]
      exact ih (by omega)

/-! ### The sequence of a file -/

variable {timeBase : Int} {events : List TraceEvent} {zfile : List TraceFile} {line : TraceLine}
  {lines : List TraceLine} {ios seq : List SequenceLine} {w w' q q' : Nat}

/-- The number of blocks that are to be split. -/
def TraceLine.blocks (line : TraceLine) : Nat :=
  if line.op = .write ∨ line.op = .read then line.nlba else 0

/-- What is to be replayed of a line: the parts of a read or a write, or the IO itself. -/
def Replays (env : ReplayEnv) (line : TraceLine) (ios : List SequenceLine) : Prop :=
  ∃ parts : List (Nat × Nat),
    ios = parts.map (fun p => ⟨env.time line.usec, line.op.opcode, p.1, p.2⟩) ∧
    if line.op = .write ∨ line.op = .read then Tiles env.maxLba line.slba line.nlba parts
    else parts = [(line.slba, line.nlba)]

/-- The sequence of a queue: what is replayed of its lines, in their order, and a dummy IO. -/
def ReplaysQueue (env : ReplayEnv) (lines : List TraceLine) (seq : List SequenceLine) : Prop :=
  ∃ ios, List.Forall₂ (Replays env) lines ios ∧ seq = ios.flatten ++ [dummyIo env]

theorem replayLine_replays (h : replayLine env line = .ok ios) : Replays env line ios := by
  rw [replayLine] at h
  split_ifs at h with hop
  · split at h
    · cases h
    · rename_i parts hparts
      obtain rfl := Except.ok.inj h
      exact ⟨parts, rfl, by rw [if_pos hop]; exact splitIo_tiles hparts⟩
  · obtain rfl := Except.ok.inj h
    exact ⟨[(line.slba, line.nlba)], rfl, by rw [if_neg hop]⟩

theorem exists_replayLine (h : 1 ≤ env.maxLba ∨ line.blocks = 0) :
    ∃ ios, replayLine env line = .ok ios := by
  rw [replayLine]
  split_ifs with hop
  · have hsome : (splitIo env.maxLba line.nlba line.slba line.nlba).isSome := by
      rcases h with hmax | h0
      · exact splitIo_isSome hmax le_rfl
      · rw [TraceLine.blocks, if_pos hop] at h0
        rw [h0]
        rfl
    obtain ⟨parts, hparts⟩ := Option.isSome_iff_exists.1 hsome
    rw [hparts]
    exact ⟨_, rfl⟩
  · exact ⟨_, rfl⟩

/-- A read or a write with blocks has a part. -/
theorem Replays.one_le_maxLba (h : Replays env line ios) (h0 : line.blocks ≠ 0) :
    1 ≤ env.maxLba := by
  obtain ⟨parts, -, hparts⟩ := h
  rw [TraceLine.blocks] at h0
  split_ifs at h0 hparts with hop
  · rcases parts with _ | ⟨p, parts⟩
    · have hlen := congrArg List.length hparts.blocks
      simp only [List.flatMap_nil, List.length_nil, List.length_range'] at hlen
      omega
    · have := hparts.size p List.mem_cons_self
      omega
  · exact absurd rfl h0

theorem replayFile_eq_ok_iff {path : Path} {ioworker : Path × List SequenceLine}
    (h : zfile.find? (fun f => f.1 = path) = some (path, lines)) :
    replayFile env zfile path = .ok ioworker ↔
      ∃ ios, lines.mapM (replayLine env) = .ok ios ∧
        (path, ios.flatten ++ [dummyIo env]) = ioworker := by
  rw [replayFile, h]
  simp only [Except.bind_eq_ok, Except.pure_eq_ok]

/-! ### The names of the files -/

/-- The name of a file in the zip file. -/
def traceName (w q : Nat) : Path := arcname (tracePath w q)

/-- The names of the files of a window. -/
def windowNames (w : Nat) : List Path := (List.range 4).map fun i => traceName w (i + 1)

theorem slash_lt_of_mem {c : Char} {n : Nat} (h : c ∈ decimal n) : '/' < c := by
  have hdigit := isDigit_of_mem_decimal h
  rw [Char.isDigit, Bool.and_eq_true, decide_eq_true_eq, decide_eq_true_eq] at hdigit
  exact UInt32.lt_of_lt_of_le (by decide) hdigit.1

/-- The names differ behind the directory of the recorder. -/
theorem traceName_eq :
    ∃ dir : Path, ∀ w q, traceName w q = dir ++ (decimal w ++ '/' :: decimal q) := by
  refine ⟨(baseDir ++ ['/']).dropWhile (· = '/'), fun w q => ?_⟩
  obtain ⟨c, rest, hw⟩ := List.exists_cons_of_ne_nil (l := decimal w) Nat.toDigits_ne_nil
  have hc : c ≠ '/' := (slash_lt_of_mem (n := w) (by rw [hw]; exact List.mem_cons_self)).ne'
  have hpath : tracePath w q = (baseDir ++ ['/']) ++ (decimal w ++ '/' :: decimal q) := by
    simp [tracePath, windowDir, subPath]
  have hself : (decimal w ++ '/' :: decimal q).dropWhile (· = '/') =
      decimal w ++ '/' :: decimal q := by
    rw [hw, List.cons_append, List.dropWhile_cons_of_neg (by simpa using hc)]
  rw [traceName, arcname, hpath, List.dropWhile_append, hself]
  split_ifs with hempty
  · rw [List.isEmpty_iff.1 hempty, List.nil_append]
  · rfl

theorem traceName_inj : traceName w q = traceName w' q' ↔ w = w' ∧ q = q' := by
  obtain ⟨dir, hname⟩ := traceName_eq
  constructor
  · intro h
    rw [hname, hname] at h
    obtain ⟨hw, -, hq⟩ := (List.append_cons_inj_of_notMem (slash_not_mem_decimal w)
      (slash_not_mem_decimal q)).1 (List.append_cancel_left h)
    exact ⟨decimal_injective hw, decimal_injective hq⟩
  · rintro ⟨rfl, rfl⟩
    rfl

/-- The names of two windows are in the order of the decimal words. -/
theorem traceName_lt (h : decimal w < decimal w') (q q' : Nat) :
    traceName w q < traceName w' q' := by
  obtain ⟨dir, hname⟩ := traceName_eq
  rw [hname, hname]
  exact List.append_left_lt (append_sep_lt_append_sep (fun _ => slash_lt_of_mem) h _ _)

theorem traceName_lt_of_queue (h : q < q') (hq' : q' < 10) (w : Nat) :
    traceName w q < traceName w q' := by
  obtain ⟨dir, hname⟩ := traceName_eq
  have hq : decimal q < decimal q' := by
    apply decimal_lt_of_length _ h
    rw [decimal_of_lt hq', decimal_of_lt (h.trans hq')]
    rfl
  rw [hname, hname]
  exact List.append_left_lt (List.append_left_lt (.cons hq))

/-- The windows are sorted by their names. -/
def SortedByName (windows : List Nat) : Prop :=
  windows.Pairwise fun w w' => decimal w < decimal w'

theorem windowNames_sorted {windows : List Nat} (h : SortedByName windows) :
    (windows.flatMap windowNames).Pairwise (· ≤ ·) := by
  refine List.pairwise_flatMap.2 ⟨fun w _ => ?_, h.imp fun hlt => ?_⟩
  · refine List.pairwise_map.2 (List.pairwise_lt_range.imp_of_mem fun _ hj hlt => ?_)
    rw [List.mem_range] at hj
    exact (traceName_lt_of_queue (by omega) (by omega) w).le
  · intro x hx y hy
    obtain ⟨i, -, rfl⟩ := List.mem_map.1 hx
    obtain ⟨j, -, rfl⟩ := List.mem_map.1 hy
    exact (traceName_lt hlt _ _).le

/-- A list is sorted in one way only. -/
theorem mergeSort_of_perm {l l' : List Path} (h : l.Perm l') (hsorted : l'.Pairwise (· ≤ ·)) :
    l.mergeSort (fun a b => decide (a ≤ b)) = l' :=
  ((List.mergeSort_perm l _).trans h).eq_of_pairwise' (List.pairwise_mergeSort' (· ≤ ·) l) hsorted

/-! ### The groups -/

/-- Sorting and regrouping lose no name. -/
theorem replayFiles_names {paths : List Path} {groups : List (List (Path × List SequenceLine))}
    (h : replayFiles env zfile paths = .ok groups) :
    groups.flatMap (·.map Prod.fst) = paths := by
  have hname : ∀ path ioworker, replayFile env zfile path = .ok ioworker → path = ioworker.1 := by
    intro path ioworker hok
    rw [replayFile] at hok
    split at hok
    · cases hok
    · obtain ⟨ios, -, hok⟩ := Except.bind_eq_ok.1 hok
      obtain rfl := Except.pure_eq_ok.1 hok
      rfl
  induction paths using replayFiles.induct generalizing groups with
  | case1 =>
    rw [replayFiles] at h
    obtain rfl := Except.ok.inj h
    rfl
  | case2 f₁ f₂ f₃ f₄ paths ih =>
    rw [replayFiles, Except.bind_eq_ok] at h
    obtain ⟨ioworkers, hfour, h⟩ := h
    obtain ⟨rest, hrest, h⟩ := Except.bind_eq_ok.1 h
    obtain rfl := Except.pure_eq_ok.1 h
    have hnames := Except.map_eq_of_mapM (g := id) (k := Prod.fst) hfour hname
    rw [List.map_id] at hnames
    rw [List.flatMap_cons, ih hrest, ← hnames]
    rfl
  | case3 paths h0 h4 =>
    rw [replayFiles] at h
    · cases h
    · exact h0
    · exact h4

/-- The groups are the windows. -/
theorem replayFiles_flatMap {windows : List Nat}
    {groups : List (List (Path × List SequenceLine))} :
    replayFiles env zfile (windows.flatMap windowNames) = .ok groups ↔
      List.Forall₂ (fun w group => (windowNames w).mapM (replayFile env zfile) = .ok group)
        windows groups := by
  induction windows generalizing groups with
  | nil =>
    rw [List.forall₂_nil_left_iff, List.flatMap_nil, replayFiles]
    exact ⟨fun h => (Except.ok.inj h).symm, fun h => congrArg _ h.symm⟩
  | cons w windows ih =>
    have hcons : replayFiles env zfile ((w :: windows).flatMap windowNames) =
        (windowNames w).mapM (replayFile env zfile) >>= fun ioworkers =>
          replayFiles env zfile (windows.flatMap windowNames) >>= fun rest =>
            pure (ioworkers :: rest) := rfl
    rw [hcons, Except.bind_eq_ok, List.forall₂_cons_left_iff]
    simp only [Except.bind_eq_ok, Except.pure_eq_ok, ih]
    constructor
    · rintro ⟨group, hgroup, rest, hrest, rfl⟩
      exact ⟨group, rest, hgroup, hrest, rfl⟩
    · rintro ⟨group, rest, hgroup, hrest, rfl⟩
      exact ⟨group, hgroup, rest, hrest, rfl⟩

/-! ### The zip file -/

theorem map_fst_traceFiles (hzip : zfile.Perm (generateTraceFile (traceFiles timeBase events))) :
    (zfile.map Prod.fst).Perm ((traceWindows timeBase events).flatMap windowNames) := by
  have hnames : (generateTraceFile (traceFiles timeBase events)).map Prod.fst =
      (traceWindows timeBase events).flatMap windowNames := by
    simp only [generateTraceFile, traceFiles, List.map_flatMap]
    rfl
  rw [← hnames]
  exact hzip.map _

/-- A name is that of one file. -/
theorem find?_traceName (hzip : zfile.Perm (generateTraceFile (traceFiles timeBase events)))
    (hw : w ∈ traceWindows timeBase events) {i : Nat} (hi : i < 4) :
    zfile.find? (fun f => f.1 = traceName w (i + 1)) =
      some (traceName w (i + 1), queueLines timeBase events w (i + 1)) := by
  have hmem : ∀ f, f ∈ zfile ↔ ∃ w' ∈ traceWindows timeBase events, ∃ j < 4,
      (traceName w' (j + 1), queueLines timeBase events w' (j + 1)) = f := by
    intro f
    rw [hzip.mem_iff]
    simp only [generateTraceFile, traceFiles, List.map_flatMap, List.mem_flatMap, windowFiles,
      List.map_map, List.mem_map, List.mem_range, Function.comp_apply]
    rfl
  obtain ⟨f, hf⟩ : ∃ f, zfile.find? (fun f => f.1 = traceName w (i + 1)) = some f := by
    rw [← Option.isSome_iff_exists, List.find?_isSome]
    exact ⟨_, (hmem _).2 ⟨w, hw, i, hi, rfl⟩, decide_eq_true rfl⟩
  obtain ⟨w', -, j, -, rfl⟩ := (hmem f).1 (List.mem_of_find?_eq_some hf)
  have hname : traceName w' (j + 1) = traceName w (i + 1) := by
    simpa only [decide_eq_true_eq] using List.find?_some hf
  obtain ⟨rfl, hj⟩ := traceName_inj.1 hname
  rw [hf, hj]

/-! ### The order of the replay -/

/-- The four files of a window are replayed together, each of them completely. -/
def ReplaysWindow (env : ReplayEnv) (timeBase : Int) (events : List TraceEvent) (w : Nat)
    (group : List (Path × List SequenceLine)) : Prop :=
  List.Forall₂ (fun i ioworker => ioworker.1 = traceName w (i + 1) ∧
    ReplaysQueue env (queueLines timeBase events w (i + 1)) ioworker.2) (List.range 4) group

/-- The trace is replayed window by window, in the order of the time. -/
def ReplaysInOrder (env : ReplayEnv) (timeBase : Int) (events : List TraceEvent)
    (zfile : List TraceFile) : Prop :=
  ∃ windows groups, replayLogfile env zfile = .ok groups ∧
    windows.Pairwise (· < ·) ∧ (∀ w, w ∈ windows ↔ ∃ e ∈ events, e.window timeBase = w) ∧
    List.Forall₂ (ReplaysWindow env timeBase events) windows groups

/-- The names of the windows are in the order of their numbers: a smaller number is at most the
    one of as many leading digits of a larger one. -/
def NamesInOrder (timeBase : Int) (events : List TraceEvent) : Prop :=
  ∀ w ∈ traceWindows timeBase events, ∀ w' ∈ traceWindows timeBase events, w < w' →
    w ≤ w' / 10 ^ (Nat.log 10 w' - Nat.log 10 w)

/-- The number of blocks of an IO that are to be split. -/
def TraceIo.blocks : TraceIo → Nat
  | .write _ nlba | .read _ nlba => nlba
  | _ => 0

theorem exists_of_forall₂ {α β : Type} {R : α → β → Prop} {l : List α} {l' : List β} {a : α}
    (h : List.Forall₂ R l l') (ha : a ∈ l) : ∃ b, R a b := by
  induction h with
  | nil => cases ha
  | cons hab _ ih =>
    rcases List.mem_cons.1 ha with rfl | ha
    · exact ⟨_, hab⟩
    · exact ih ha

theorem forall₂_imp_of_mem {α β : Type} {R S : α → β → Prop} {l : List α} {l' : List β}
    (h : List.Forall₂ R l l') (himp : ∀ a ∈ l, ∀ b, R a b → S a b) : List.Forall₂ S l l' := by
  induction h with
  | nil => exact .nil
  | cons hab _ ih =>
    obtain ⟨ha, hl⟩ := List.forall_mem_cons.1 himp
    exact .cons (ha _ hab) (ih hl)

/-- Windows in the order of the time whose names come sorted. -/
theorem decimal_lt_of_windowNames {windows : List Nat} (hlt : windows.Pairwise (· < ·))
    (hnames : (windows.flatMap windowNames).Pairwise (· ≤ ·)) (hw : w ∈ windows)
    (hw' : w' ∈ windows) (h : w < w') : decimal w < decimal w' := by
  have hfirst : ∀ v, traceName v 1 ∈ windowNames v := fun v =>
    List.mem_map.2 ⟨0, by decide, rfl⟩
  have hboth := hlt.and (List.pairwise_flatMap.1 hnames).2
  refine List.Pairwise.forall_of_forall_of_flip (R := fun v v' => v < v' → decimal v < decimal v')
    (fun v _ hv => absurd hv (lt_irrefl v)) (hboth.imp ?_) (hboth.imp ?_) hw hw' h
  · rintro v v' ⟨hlt, hle⟩ -
    by_contra hge
    have hgt : decimal v' < decimal v :=
      lt_of_le_of_ne (not_lt.1 hge) fun heq => hlt.ne' (decimal_injective heq)
    exact not_lt.2 (hle _ (hfirst v) _ (hfirst v')) (traceName_lt hgt 1 1)
  · rintro v v' ⟨hlt, -⟩ hgt
    exact absurd hgt (lt_asymm hlt)

/-- The groups of a replay in the order of the time are sorted by their names. -/
theorem namesInOrder_of_replays (h : ReplaysInOrder env timeBase events zfile) :
    NamesInOrder timeBase events := by
  obtain ⟨windows, groups, hok, hlt, hmem, hgroups⟩ := h
  have hmem' : ∀ w, w ∈ traceWindows timeBase events ↔ w ∈ windows := fun w =>
    mem_traceWindows.trans (hmem w).symm
  have hpaths : ∀ {w group}, ReplaysWindow env timeBase events w group →
      windowNames w = group.map Prod.fst := by
    intro w group hgroup
    have himp := hgroup.imp fun _ _ hname => hname.1.symm
    rw [windowNames, ← List.forall₂_eq_eq_eq, List.forall₂_map_left_iff, List.forall₂_map_right_iff]
    exact himp
  have hnames : windows.flatMap windowNames = groups.flatMap (·.map Prod.fst) := by
    clear hok hlt hmem hmem'
    induction hgroups with
    | nil => rfl
    | cons hgroup _ ih => rw [List.flatMap_cons, List.flatMap_cons, hpaths hgroup, ih]
  have hsorted : (windows.flatMap windowNames).Pairwise (· ≤ ·) := by
    rw [hnames, replayFiles_names hok]
    exact List.pairwise_mergeSort' (· ≤ ·) _
  intro w hw w' hw' hlt'
  rw [← decimal_lt_decimal_iff hlt']
  exact decimal_lt_of_windowNames hlt hsorted ((hmem' w).1 hw) ((hmem' w').1 hw') hlt'

/-- A read or a write has a line in the file of its queue. -/
theorem exists_queueLine (timeBase : Int) {e : TraceEvent} (he : e ∈ events)
    (h0 : e.io.blocks ≠ 0) :
    ∃ line ∈ queueLines timeBase events (e.window timeBase) e.qid, line.blocks ≠ 0 := by
  have hlines : ∀ line ∈ e.lines timeBase,
      line ∈ queueLines timeBase events (e.window timeBase) e.qid := by
    intro line hline
    rw [queueLines, List.mem_flatMap]
    exact ⟨e, List.mem_filter.2 ⟨he, decide_eq_true ⟨rfl, rfl⟩⟩, hline⟩
  obtain ⟨usec, qid, io⟩ := e
  cases io with
  | write slba nlba => exact ⟨_, hlines _ List.mem_cons_self, h0⟩
  | read slba nlba => exact ⟨_, hlines _ List.mem_cons_self, h0⟩
  | trims nrange words => exact absurd rfl h0
  | flush => exact absurd rfl h0
  | other => exact absurd rfl h0

/-- The lines of an IO are split as it is. -/
theorem blocks_of_mem_lines {e : TraceEvent} (h : line ∈ e.lines timeBase)
    (h0 : e.io.blocks = 0) : line.blocks = 0 := by
  rw [TraceEvent.lines] at h
  split at h
  · rename_i lines hlines
    cases hio : e.io with
    | write slba nlba =>
      rw [hio] at hlines h0
      obtain rfl := Except.ok.inj hlines
      obtain rfl := List.mem_singleton.1 h
      exact h0
    | read slba nlba =>
      rw [hio] at hlines h0
      obtain rfl := Except.ok.inj hlines
      obtain rfl := List.mem_singleton.1 h
      exact h0
    | trims nrange words =>
      rw [hio, traceIoLines, Except.bind_eq_ok] at hlines
      obtain ⟨lines', hranges, hlines⟩ := hlines
      simp only [Except.bind_eq_ok, Except.pure_eq_ok] at hlines
      obtain ⟨_, -, _, -, rfl⟩ := hlines
      obtain ⟨i, -, hline⟩ := Except.exists_of_mapM hranges h
      simp only [Except.bind_eq_ok, Except.pure_eq_ok] at hline
      obtain ⟨_, -, _, -, rfl⟩ := hline
      rfl
    | flush =>
      rw [hio] at hlines
      obtain rfl := Except.ok.inj hlines
      obtain rfl := List.mem_singleton.1 h
      rfl
    | other =>
      rw [hio] at hlines
      obtain rfl := Except.ok.inj hlines
      exact absurd h List.not_mem_nil
  · exact absurd h List.not_mem_nil

/-- Each file of the trace is replayed. -/
theorem exists_replayFile (hzip : zfile.Perm (generateTraceFile (traceFiles timeBase events)))
    (hmax : 1 ≤ env.maxLba ∨ ∀ e ∈ events, e.io.blocks = 0)
    (hw : w ∈ traceWindows timeBase events) {i : Nat} (hi : i < 4) :
    ∃ ioworker, replayFile env zfile (traceName w (i + 1)) = .ok ioworker := by
  have hlines : ∀ line ∈ queueLines timeBase events w (i + 1),
      ∃ ios, replayLine env line = .ok ios := by
    intro line hline
    apply exists_replayLine
    refine hmax.imp_right fun h0 => ?_
    obtain ⟨e, he, hline⟩ := List.mem_flatMap.1 hline
    exact blocks_of_mem_lines hline (h0 e (List.mem_of_mem_filter he))
  obtain ⟨ios, hios⟩ := Except.exists_mapM_of_forall hlines
  exact ⟨_, (replayFile_eq_ok_iff (find?_traceName hzip hw hi)).2 ⟨ios, hios, rfl⟩⟩

/-- A group of files that is replayed is a window of the trace. -/
theorem replaysWindow_of_mapM
    (hzip : zfile.Perm (generateTraceFile (traceFiles timeBase events)))
    (hw : w ∈ traceWindows timeBase events) {group : List (Path × List SequenceLine)}
    (h : (windowNames w).mapM (replayFile env zfile) = .ok group) :
    ReplaysWindow env timeBase events w group := by
  have hfour := Except.forall₂_of_mapM h
  rw [windowNames, List.forall₂_map_left_iff] at hfour
  refine forall₂_imp_of_mem hfour fun i hi ioworker hok => ?_
  obtain ⟨ios, hios, rfl⟩ :=
    (replayFile_eq_ok_iff (find?_traceName hzip hw (List.mem_range.1 hi))).1 hok
  exact ⟨rfl, ios, (Except.forall₂_of_mapM hios).imp fun _ _ => replayLine_replays, rfl⟩

/-- A trace whose windows are in the order of their names is replayed in the order of the
    time. -/
theorem replays_of_namesInOrder (h : InOrder timeBase events)
    (hzip : zfile.Perm (generateTraceFile (traceFiles timeBase events)))
    (hnames : NamesInOrder timeBase events)
    (hmax : 1 ≤ env.maxLba ∨ ∀ e ∈ events, e.io.blocks = 0) :
    ReplaysInOrder env timeBase events zfile := by
  have hsorted := h.traceWindows_sorted
  have hbyName : SortedByName (traceWindows timeBase events) :=
    hsorted.imp_of_mem fun hw hw' hlt =>
      (decimal_lt_decimal_iff hlt).2 (hnames _ hw _ hw' hlt)
  have hlist := mergeSort_of_perm (map_fst_traceFiles hzip) (windowNames_sorted hbyName)
  obtain ⟨groups, hgroups⟩ : ∃ groups, (traceWindows timeBase events).mapM
      (fun w => (windowNames w).mapM (replayFile env zfile)) = .ok groups := by
    refine Except.exists_mapM_of_forall fun w hw =>
      Except.exists_mapM_of_forall fun name hname => ?_
    obtain ⟨i, hi, rfl⟩ := List.mem_map.1 hname
    exact exists_replayFile hzip hmax hw (List.mem_range.1 hi)
  have hgroups' := Except.forall₂_of_mapM hgroups
  refine ⟨_, groups, ?_, hsorted, fun w => mem_traceWindows,
    forall₂_imp_of_mem hgroups' fun w hw group => replaysWindow_of_mapM hzip hw⟩
  rw [replayLogfile, hlist]
  exact replayFiles_flatMap.2 hgroups'

/-- A read or a write that is replayed has a part. -/
theorem one_le_maxLba_of_replays (hall : ∀ e ∈ events, e.Recordable timeBase)
    (h : ReplaysInOrder env timeBase events zfile) {e : TraceEvent} (he : e ∈ events)
    (h0 : e.io.blocks ≠ 0) : 1 ≤ env.maxLba := by
  obtain ⟨windows, groups, -, -, hmem, hgroups⟩ := h
  obtain ⟨group, hgroup⟩ := exists_of_forall₂ hgroups ((hmem _).2 ⟨e, he, rfl⟩)
  obtain ⟨hpos, hle⟩ := (hall e he).qid
  have hqid : e.qid - 1 ∈ List.range 4 := List.mem_range.2 (by omega)
  obtain ⟨ioworker, -, ios, hios, -⟩ := exists_of_forall₂ hgroup hqid
  rw [Nat.sub_add_cancel hpos] at hios
  obtain ⟨line, hline, hblocks⟩ := exists_queueLine timeBase he h0
  obtain ⟨ios', hreplays⟩ := exists_of_forall₂ hios hline
  exact hreplays.one_le_maxLba hblocks

/-- Of a trace recorded in the order of the time, with a zip file that has its files in any
    order: it is replayed in that order, window by window and queue by queue, with the parts of
    each IO in place of it, if and only if the names of its windows are in the order of their
    numbers, and a transfer has a block, or there is no read or write to be split. -/
theorem replays_in_order_iff {files : List TraceFile} (h : InOrder timeBase events)
    (hrec : recorderRun timeBase events = .ok files)
    (hzip : zfile.Perm (generateTraceFile files)) :
    ReplaysInOrder env timeBase events zfile ↔
      NamesInOrder timeBase events ∧ (1 ≤ env.maxLba ∨ ∀ e ∈ events, e.io.blocks = 0) := by
  obtain ⟨hall, rfl⟩ := (recorderRun_eq_ok_iff h).1 hrec
  constructor
  · intro hreplays
    refine ⟨namesInOrder_of_replays hreplays, ?_⟩
    by_contra hnot
    push Not at hnot
    obtain ⟨hmax, e, he, h0⟩ := hnot
    have := one_le_maxLba_of_replays hall hreplays he h0
    omega
  · rintro ⟨hnames, hmax⟩
    exact replays_of_namesInOrder h hzip hnames hmax

/-- Up to ten windows, less than an hour, are replayed in the order of the time. -/
theorem namesInOrder_of_lt_ten (h : ∀ w ∈ traceWindows timeBase events, w < 10) :
    NamesInOrder timeBase events := by
  intro w hw w' hw' hlt
  rw [Nat.log_of_lt (h w' hw'), Nat.zero_sub, Nat.pow_zero, Nat.div_one]
  exact hlt.le

/-- Transfers of 128 KiB, of blocks of 512 bytes; the times are not scaled. -/
def plainReplay : ReplayEnv where
  mdts := 131072
  formatSupport := 9 * 2 ^ 16
  time usec := usec
  dummyTime := 300000000

/-- A read of 1000 blocks in the window `w`. -/
def readInWindow (w : Nat) : TraceEvent := ⟨300000000 * w, 1, .read 0 1000⟩

theorem window_readInWindow (w : Nat) : (readInWindow w).window 0 = w := by
  simp only [TraceEvent.window, readInWindow]
  omega

/-- Two reads in different windows are recorded. -/
theorem recorderRun_reads (h : w < w') :
    InOrder 0 [readInWindow w, readInWindow w'] ∧
    recorderRun 0 [readInWindow w, readInWindow w'] =
      .ok (traceFiles 0 [readInWindow w, readInWindow w']) ∧
    traceWindows 0 [readInWindow w, readInWindow w'] = [w, w'] := by
  have hall : ∀ v, 0 ≤ (readInWindow v).usec ∧ (readInWindow v).Recordable 0 := fun v =>
    ⟨by simp only [readInWindow]; omega, ⟨⟨le_rfl, by simp [readInWindow]⟩, _, rfl⟩⟩
  have horder : InOrder 0 [readInWindow w, readInWindow w'] := by
    refine ⟨by simp [(hall w).1, (hall w').1], ?_⟩
    simp only [List.pairwise_pair, readInWindow]
    omega
  refine ⟨horder, (recorderRun_eq_ok_iff horder).2 ⟨by simp [(hall w).2, (hall w').2], rfl⟩, ?_⟩
  simp [traceWindows, window_readInWindow, List.eraseDups_cons, h.ne']

/-- Two windows after one another. -/
theorem replays_in_order_short :
    ReplaysInOrder plainReplay 0 [readInWindow 0, readInWindow 1]
      (generateTraceFile (traceFiles 0 [readInWindow 0, readInWindow 1])) := by
  obtain ⟨horder, hrec, hwindows⟩ := recorderRun_reads (show 0 < 1 by decide)
  refine (replays_in_order_iff horder hrec (.refl _)).2 ⟨?_, .inl (by decide)⟩
  exact namesInOrder_of_lt_ten (by rw [hwindows]; decide)

/-- The window 10 is replayed before the window 2. -/
theorem not_replays_in_order :
    InOrder 0 [readInWindow 2, readInWindow 10] ∧
    recorderRun 0 [readInWindow 2, readInWindow 10] =
      .ok (traceFiles 0 [readInWindow 2, readInWindow 10]) ∧
    ¬ReplaysInOrder plainReplay 0 [readInWindow 2, readInWindow 10]
      (generateTraceFile (traceFiles 0 [readInWindow 2, readInWindow 10])) := by
  obtain ⟨horder, hrec, hwindows⟩ := recorderRun_reads (show 2 < 10 by decide)
  refine ⟨horder, hrec, fun h => ?_⟩
  have hnames := namesInOrder_of_replays h 2 (by rw [hwindows]; decide) 10
    (by rw [hwindows]; decide) (by decide)
  exact absurd hnames (by decide)

end Pynvme
