import Pynvme.Lib.Decimal
import Pynvme.Script.Python
import Mathlib.Data.List.Induction

/-!
# The recorder of IO traces

The recorder reads the IOs of a device, with their times and queues, from its input, and
writes them into files: a directory for each window of five minutes in which there is an
IO, named by the decimal word of its number, and in it a file for each of the queues 1 to
4, with a line for each IO and the time in the window.

`recorderRun_eq_ok_iff`: what the recorder has written of IOs in the order of their times.
-/

namespace Pynvme

open Decimal

/-! ### The model -/

/-- A path, or a name. -/
abbrev Path := List Char

/-- The IOs in a trace. -/
inductive TraceOp
  | flush
  | write
  | read
  | trims
  deriving DecidableEq

/-- A line of a trace file. -/
structure TraceLine where
  usec : Nat
  op : TraceOp
  slba : Nat
  nlba : Nat
  deriving DecidableEq

/-- What a line of the input says of an IO: for a trim, the number of ranges and the words
    behind it. -/
inductive TraceIo
  | write (slba nlba : Nat)
  | read (slba nlba : Nat)
  | trims (nrange : Nat) (words : List Nat)
  | flush
  | other

/-- A line of the input of the recorder. -/
structure TraceEvent where
  usec : Int
  qid : Nat
  io : TraceIo

/-- What ends the scripts: an exception, `FileExistsError`, or a loop without an end. -/
inductive TraceError
  | py (e : PyError)
  | fileExists
  | endlessLoop

/-- A file, by its path. -/
abbrev TraceFile := Path × List TraceLine

/-- The variables of `recorder_run`, and the directories that it has made. -/
structure Recorder where
  currentDir : Option Path
  dirs : List Path
  openfiles : List TraceFile

/-- `str` of an integer. -/
def pyStr : Int → Path
  | .ofNat n => decimal n
  | .negSucc n => '-' :: decimal (n + 1)

/-- The path of `name` in a directory. -/
def subPath (dir name : Path) : Path := dir ++ '/' :: name

/-- The directory of the recorder. -/
def baseDir : Path := "/tmp/pynvme_trace".toList

/-- `create_trace_file`. -/
def createTraceFile (dirnameFull dirname : Path) (s : Recorder) : Except TraceError Recorder :=
  if some dirname ≠ s.currentDir then
    -- create new folders for trace files
    if dirnameFull ∈ s.dirs then .error .fileExists
    else .ok {
      currentDir := some dirname
      dirs := s.dirs ++ [dirnameFull]
      openfiles := s.openfiles ++
        (List.range 4).map fun i => (subPath dirnameFull (decimal (i + 1)), []) }
  else .ok s

/-- The lines that `trace_io_file` writes for an IO. -/
def traceIoLines (usec : Nat) : TraceIo → Except PyError (List TraceLine)
  | .write slba nlba => .ok [⟨usec, .write, slba, nlba⟩]
  | .read slba nlba => .ok [⟨usec, .read, slba, nlba⟩]
  | .trims nrange words => do
    let lines ← (List.range nrange).mapM fun i => do
      let slba ← pyListGet words (2 * i)
      let nlba ← pyListGet words (2 * i + 1)
      return ⟨usec, .trims, slba, nlba⟩
    -- verify the trace file format
    let last ← pyListGet words (nrange * 2)
    pyAssert (last = nrange) ""
    return lines
  | .flush => .ok [⟨usec, .flush, 0, 0⟩]
  | .other => .ok []

/-- `trace_io_file`, on `openfiles[filename]`. -/
def traceIoFile (usec : Nat) (io : TraceIo) (filename : Path) (s : Recorder) :
    Except TraceError Recorder :=
  if filename ∈ s.openfiles.map Prod.fst then do
    let lines ← (traceIoLines usec io).mapError .py
    return { s with
      openfiles := s.openfiles.map fun f => if f.1 = filename then (f.1, f.2 ++ lines) else f }
  else .error (.py .key)

/-- The body of the loop of `recorder_run`. -/
def recordEvent (timeBase : Int) (s : Recorder) (e : TraceEvent) : Except TraceError Recorder := do
  let globalUsec := e.usec - timeBase
  let dirname := pyStr (globalUsec / 300000000)
  let usec := globalUsec % 300000000
  let dirnameFull := subPath baseDir dirname
  let s ← createTraceFile dirnameFull dirname s
  traceIoFile usec.toNat e.io (subPath dirnameFull (decimal e.qid)) s

/-- `recorder_run`, on the lines up to the end of the recording: the files it leaves. -/
def recorderRun (timeBase : Int) (events : List TraceEvent) :
    Except TraceError (List TraceFile) := do
  let s ← events.foldlM (recordEvent timeBase) ⟨none, [], []⟩
  return s.openfiles

/-! ### What is recorded -/

variable {timeBase : Int} {events : List TraceEvent} {e : TraceEvent} {s : Recorder}
  {w w' q q' : Nat}

/-- The window of five minutes of an IO. -/
def TraceEvent.window (timeBase : Int) (e : TraceEvent) : Nat :=
  ((e.usec - timeBase) / 300000000).toNat

/-- The lines of an IO. -/
def TraceEvent.lines (timeBase : Int) (e : TraceEvent) : List TraceLine :=
  match traceIoLines ((e.usec - timeBase) % 300000000).toNat e.io with
  | .ok lines => lines
  | .error _ => []

/-- An IO of one of the queues 1 to 4, in the format of a trace file. -/
structure TraceEvent.Recordable (timeBase : Int) (e : TraceEvent) : Prop where
  qid : 1 ≤ e.qid ∧ e.qid ≤ 4
  lines : ∃ lines, traceIoLines ((e.usec - timeBase) % 300000000).toNat e.io = .ok lines

/-- The IOs are in the order of their times, which begin with the time base. -/
structure InOrder (timeBase : Int) (events : List TraceEvent) : Prop where
  base : ∀ e ∈ events, timeBase ≤ e.usec
  usec : events.Pairwise fun e e' => e.usec ≤ e'.usec

/-- The windows in which there is an IO. -/
def traceWindows (timeBase : Int) (events : List TraceEvent) : List Nat :=
  (events.map (·.window timeBase)).eraseDups

/-- The directory of a window. -/
def windowDir (w : Nat) : Path := subPath baseDir (decimal w)

/-- The file of a queue in a window. -/
def tracePath (w q : Nat) : Path := subPath (windowDir w) (decimal q)

/-- The lines of the IOs of a queue in a window. -/
def queueLines (timeBase : Int) (events : List TraceEvent) (w q : Nat) : List TraceLine :=
  (events.filter fun e => e.window timeBase = w ∧ e.qid = q).flatMap (·.lines timeBase)

/-- The files of a window. -/
def windowFiles (timeBase : Int) (events : List TraceEvent) (w : Nat) : List TraceFile :=
  (List.range 4).map fun i => (tracePath w (i + 1), queueLines timeBase events w (i + 1))

/-- The files of all windows. -/
def traceFiles (timeBase : Int) (events : List TraceEvent) : List TraceFile :=
  (traceWindows timeBase events).flatMap (windowFiles timeBase events)

/-! ### Paths -/

theorem slash_not_mem_decimal (n : Nat) : '/' ∉ decimal n := fun h =>
  absurd (isDigit_of_mem_decimal h) (by decide)

theorem windowDir_injective : Function.Injective windowDir := fun _ _ h =>
  decimal_injective (List.cons.inj (List.append_cancel_left h)).2

theorem tracePath_inj : tracePath w q = tracePath w' q' ↔ w = w' ∧ q = q' := by
  constructor
  · intro h
    simp only [tracePath, windowDir, subPath, List.append_assoc, List.cons_append] at h
    have hrest := (List.cons.inj (List.append_cancel_left h)).2
    obtain ⟨hw, -, hq⟩ := (List.append_cons_inj_of_notMem (slash_not_mem_decimal w)
      (slash_not_mem_decimal q)).1 hrest
    exact ⟨decimal_injective hw, decimal_injective hq⟩
  · rintro ⟨rfl, rfl⟩
    rfl

/-! ### The windows -/

theorem mem_traceWindows :
    w ∈ traceWindows timeBase events ↔ ∃ e ∈ events, e.window timeBase = w := by
  rw [traceWindows, List.mem_eraseDups, List.mem_map]

theorem eraseDups_concat (l : List Nat) (a : Nat) :
    (l ++ [a]).eraseDups = if a ∈ l then l.eraseDups else l.eraseDups ++ [a] := by
  rw [List.eraseDups_append]
  split_ifs with h
  · simp [List.removeAll, h]
  · simp [List.removeAll, h, List.eraseDups_cons]

theorem traceWindows_concat (timeBase : Int) (events : List TraceEvent) (e : TraceEvent) :
    traceWindows timeBase (events ++ [e]) =
      if e.window timeBase ∈ traceWindows timeBase events then traceWindows timeBase events
      else traceWindows timeBase events ++ [e.window timeBase] := by
  simp only [traceWindows, List.map_append, List.map_cons, List.map_nil, eraseDups_concat,
    List.mem_eraseDups]

theorem InOrder.of_concat (h : InOrder timeBase (events ++ [e])) :
    InOrder timeBase events ∧ timeBase ≤ e.usec ∧
      ∀ w ∈ traceWindows timeBase events, w ≤ e.window timeBase := by
  obtain ⟨hevents, -, hlast⟩ := List.pairwise_append.1 h.usec
  refine ⟨⟨fun e he => h.base e (List.mem_append_left _ he), hevents⟩,
    h.base e (List.mem_append_right _ List.mem_cons_self), fun w hw => ?_⟩
  obtain ⟨e', he', rfl⟩ := mem_traceWindows.1 hw
  have hle := hlast e' he' e List.mem_cons_self
  simp only [TraceEvent.window]
  omega

/-- The windows are in the order of their numbers. -/
theorem InOrder.traceWindows_sorted (h : InOrder timeBase events) :
    (traceWindows timeBase events).Pairwise (· < ·) := by
  induction events using List.reverseRecOn with
  | nil => exact .nil
  | append_singleton events e ih =>
    obtain ⟨hevents, -, hlast⟩ := h.of_concat
    rw [traceWindows_concat]
    split_ifs with hw
    · exact ih hevents
    · refine List.pairwise_append.2 ⟨ih hevents, List.pairwise_singleton _ _, ?_⟩
      intro w hmem w' hw'
      obtain rfl := List.mem_singleton.1 hw'
      exact Nat.lt_of_le_of_ne (hlast w hmem) fun heq => hw (heq ▸ hmem)

/-- The window of an IO is the last one, or a new one. -/
theorem getLast?_traceWindows (h : InOrder timeBase (events ++ [e])) :
    (traceWindows timeBase events).getLast? = some (e.window timeBase) ↔
      e.window timeBase ∈ traceWindows timeBase events := by
  obtain ⟨hevents, -, hlast⟩ := h.of_concat
  refine ⟨List.mem_of_getLast?, fun hmem => ?_⟩
  obtain ⟨ws, w, hws⟩ := (List.eq_nil_or_concat' (traceWindows timeBase events)).resolve_left
    (List.ne_nil_of_mem hmem)
  have hsorted := hevents.traceWindows_sorted
  rw [hws] at hmem hsorted hlast ⊢
  rw [List.getLast?_concat]
  rcases List.mem_append.1 hmem with hbefore | hw
  · have hlt := (List.pairwise_append.1 hsorted).2.2 _ hbefore w List.mem_cons_self
    have hle := hlast w (List.mem_append_right _ List.mem_cons_self)
    omega
  · rw [List.mem_singleton.1 hw]

/-! ### The run -/

/-- The variables of the recorder after IOs. -/
def recorderState (timeBase : Int) (events : List TraceEvent) : Recorder where
  currentDir := (traceWindows timeBase events).getLast?.map decimal
  dirs := (traceWindows timeBase events).map windowDir
  openfiles := traceFiles timeBase events

theorem queueLines_concat (events : List TraceEvent) (e : TraceEvent) (w q : Nat) :
    queueLines timeBase (events ++ [e]) w q = queueLines timeBase events w q ++
      if e.window timeBase = w ∧ e.qid = q then e.lines timeBase else [] := by
  rw [queueLines, List.filter_append, List.flatMap_append, ← queueLines]
  split_ifs with h
  · simp [h]
  · simp [h]

/-- No IO has been in a window that is not there. -/
theorem queueLines_of_not_mem (h : w ∉ traceWindows timeBase events) (q : Nat) :
    queueLines timeBase events w q = [] := by
  have hfilter : (events.filter fun e => e.window timeBase = w ∧ e.qid = q) = [] := by
    rw [List.filter_eq_nil_iff]
    intro e he hw
    exact h (mem_traceWindows.2 ⟨e, he, (of_decide_eq_true hw).1⟩)
  rw [queueLines, hfilter, List.flatMap_nil]

/-- The files of the window of the next IO are there when it is written. -/
theorem createTraceFile_state (h : InOrder timeBase (events ++ [e])) :
    createTraceFile (windowDir (e.window timeBase)) (decimal (e.window timeBase))
        (recorderState timeBase events) =
      .ok { recorderState timeBase (events ++ [e]) with
        openfiles := (traceWindows timeBase (events ++ [e])).flatMap
          (windowFiles timeBase events) } := by
  have hcurrent : some (decimal (e.window timeBase)) =
      (recorderState timeBase events).currentDir ↔
        e.window timeBase ∈ traceWindows timeBase events := by
    rw [← getLast?_traceWindows h, recorderState, eq_comm, Option.map_eq_some_iff]
    constructor
    · rintro ⟨w, hw, heq⟩
      rw [hw, decimal_injective heq]
    · exact fun hw => ⟨_, hw, rfl⟩
  have hlast := getLast?_traceWindows h
  have hconcat := traceWindows_concat timeBase events e
  rw [createTraceFile]
  by_cases hw : e.window timeBase ∈ traceWindows timeBase events
  · rw [if_neg (not_not_intro (hcurrent.2 hw)), recorderState, recorderState, hconcat, if_pos hw]
    rfl
  · rw [if_pos (mt hcurrent.1 hw), if_neg]
    · simp only [recorderState, hconcat, if_neg hw, traceFiles, List.getLast?_concat,
        List.map_append, List.flatMap_append, Option.map_some, List.map_cons, List.map_nil,
        List.flatMap_cons, List.flatMap_nil, List.append_nil]
      have hfiles : (List.range 4).map (fun i =>
          (subPath (windowDir (e.window timeBase)) (decimal (i + 1)), ([] : List TraceLine))) =
            windowFiles timeBase events (e.window timeBase) := by
        simp only [windowFiles, queueLines_of_not_mem hw]
        rfl
      rw [hfiles]
    · intro hmem
      obtain ⟨w, hmem, heq⟩ := List.mem_map.1 hmem
      exact hw (windowDir_injective heq ▸ hmem)

/-- Writing the lines of an IO into its file. -/
theorem write_traceFiles (events : List TraceEvent) (e : TraceEvent) :
    ((traceWindows timeBase (events ++ [e])).flatMap (windowFiles timeBase events)).map (fun f =>
        if f.1 = tracePath (e.window timeBase) e.qid then (f.1, f.2 ++ e.lines timeBase) else f) =
      traceFiles timeBase (events ++ [e]) := by
  rw [List.map_flatMap, traceFiles]
  congr 1
  funext w
  rw [windowFiles, windowFiles, List.map_map]
  refine List.map_congr_left fun i _ => ?_
  simp only [Function.comp_apply, tracePath_inj, queueLines_concat]
  by_cases hqw : w = e.window timeBase ∧ i + 1 = e.qid
  · rw [if_pos hqw, if_pos ⟨hqw.1.symm, hqw.2.symm⟩]
  · rw [if_neg hqw, if_neg fun h => hqw ⟨h.1.symm, h.2.symm⟩, List.append_nil]

theorem tracePath_mem_iff (timeBase : Int) (events : List TraceEvent) {windows : List Nat}
    (hw : w ∈ windows) :
    tracePath w q ∈ (windows.flatMap (windowFiles timeBase events)).map Prod.fst ↔
      1 ≤ q ∧ q ≤ 4 := by
  simp only [List.mem_map, List.mem_flatMap, windowFiles, List.mem_range]
  constructor
  · rintro ⟨_, ⟨w', -, i, hi, rfl⟩, hpath⟩
    have := (tracePath_inj.1 hpath).2
    omega
  · rintro ⟨hpos, hle⟩
    refine ⟨_, ⟨w, hw, q - 1, by omega, rfl⟩, ?_⟩
    rw [Nat.sub_add_cancel hpos]

/-- A step of the recorder. -/
theorem recordEvent_eq_ok_iff (h : InOrder timeBase (events ++ [e])) :
    recordEvent timeBase (recorderState timeBase events) e = .ok s ↔
      e.Recordable timeBase ∧ recorderState timeBase (events ++ [e]) = s := by
  obtain ⟨-, hbase, -⟩ := h.of_concat
  have hname : pyStr ((e.usec - timeBase) / 300000000) = decimal (e.window timeBase) := by
    rw [TraceEvent.window]
    obtain ⟨n, hn⟩ := Int.eq_ofNat_of_zero_le
      (show 0 ≤ (e.usec - timeBase) / 300000000 by omega)
    rw [hn]
    rfl
  have hpath : subPath (subPath baseDir (decimal (e.window timeBase))) (decimal e.qid) =
      tracePath (e.window timeBase) e.qid := rfl
  have hwindow : e.window timeBase ∈ traceWindows timeBase (events ++ [e]) :=
    mem_traceWindows.2 ⟨e, List.mem_append_right events List.mem_cons_self, rfl⟩
  have hmem : tracePath (e.window timeBase) e.qid ∈ _ ↔ _ :=
    tracePath_mem_iff timeBase events hwindow
  have hcreate := createTraceFile_state h
  rw [windowDir] at hcreate
  simp only [recordEvent, hname, hcreate, hpath, Except.bind_eq_ok, Except.ok.injEq,
    exists_eq_left', traceIoFile]
  by_cases hqid : 1 ≤ e.qid ∧ e.qid ≤ 4
  · rw [if_pos (hmem.2 hqid), Except.bind_eq_ok]
    simp only [Except.mapError_eq_ok, Except.pure_eq_ok]
    have hwrite : ∀ {lines}, traceIoLines ((e.usec - timeBase) % 300000000).toNat e.io =
        .ok lines → e.lines timeBase = lines := by
      intro lines hlines
      rw [TraceEvent.lines, hlines]
    constructor
    · rintro ⟨lines, hlines, rfl⟩
      rw [← hwrite hlines, write_traceFiles]
      exact ⟨⟨hqid, lines, hlines⟩, rfl⟩
    · rintro ⟨⟨-, lines, hlines⟩, rfl⟩
      refine ⟨lines, hlines, ?_⟩
      rw [← hwrite hlines, write_traceFiles]
      rfl
  · rw [if_neg (mt hmem.1 hqid)]
    exact iff_of_false (fun herror => by cases herror) fun hrec => hqid hrec.1.qid

theorem foldlM_recordEvent_eq_ok_iff (h : InOrder timeBase events) :
    events.foldlM (recordEvent timeBase) ⟨none, [], []⟩ = .ok s ↔
      (∀ e ∈ events, e.Recordable timeBase) ∧ recorderState timeBase events = s := by
  induction events using List.reverseRecOn generalizing s with
  | nil =>
    rw [List.foldlM_nil, Except.pure_eq_ok]
    exact ⟨fun hs => ⟨by simp, hs⟩, fun hs => hs.2⟩
  | append_singleton events e ih =>
    obtain ⟨hevents, -, -⟩ := h.of_concat
    rw [List.foldlM_append, Except.bind_eq_ok]
    simp only [ih hevents, List.foldlM_cons, List.foldlM_nil, bind_pure]
    constructor
    · rintro ⟨_, ⟨hall, rfl⟩, hstep⟩
      obtain ⟨he, rfl⟩ := (recordEvent_eq_ok_iff h).1 hstep
      refine ⟨fun e' he' => ?_, rfl⟩
      rcases List.mem_append.1 he' with hbefore | hlast
      · exact hall e' hbefore
      · rwa [List.mem_singleton.1 hlast]
    · rintro ⟨hall, rfl⟩
      refine ⟨_, ⟨fun e' he' => hall e' (List.mem_append_left _ he'), rfl⟩, ?_⟩
      exact (recordEvent_eq_ok_iff h).2 ⟨hall e (by simp), rfl⟩

/-- The recorder takes IOs in the order of their times if they all are recordable, and leaves
    the files of their windows. -/
theorem recorderRun_eq_ok_iff {files : List TraceFile} (h : InOrder timeBase events) :
    recorderRun timeBase events = .ok files ↔
      (∀ e ∈ events, e.Recordable timeBase) ∧ traceFiles timeBase events = files := by
  rw [recorderRun, Except.bind_eq_ok]
  simp only [foldlM_recordEvent_eq_ok_iff h, Except.pure_eq_ok]
  constructor
  · rintro ⟨_, ⟨hall, rfl⟩, hfiles⟩
    exact ⟨hall, hfiles⟩
  · rintro ⟨hall, hfiles⟩
    exact ⟨_, ⟨hall, rfl⟩, hfiles⟩

end Pynvme
