import Pynvme.Ioworker.Close
import Pynvme.Lib.Machine

/-!
# The processes of the ioworkers

A script starts ioworkers, each in a process of its own, and closes them, in any order
(`_IOWorker.start`, `_IOWorker.close`). A worker and the script share a queue, which is a
pipe: the worker puts a token on it once it is ready to go, and its result at its end
(`_IOWorker._ioworker`). The script waits for the token; what it gets instead, as the worker
has failed before, it puts back. The processes of the workers of a namespace create and close
their resources one at a time, under the lock of the namespace. A process can die, in
`ioworker_entry` or elsewhere; what it was writing then stays incomplete, and a lock that it
had stays locked.

* What the script collects is the result of the worker, and its test whether the worker runs
  is right (`worker_protocol`).
* A worker that ends without an error keeps its resources until its result is collected, and
  once the script has closed a worker that has not died its resources are closed. No two
  processes have the lock of one namespace (`worker_holds`).
* Every run of the processes is finite. It ends with all workers at rest, unless a process has
  died, or the script puts back a result that the pipe has no room for; in these cases the
  script may hang, and then it hangs for good (`worker_terminates`).
-/

namespace Pynvme

/-! ### The processes -/

/-- A pipe: the bytes that it has room for, and those of a token. -/
structure Pipe where
  capacity : Nat
  token : Nat
  token_le : token ≤ capacity

/-- What is put on the queue. -/
inductive WorkerMsg
  | started
  | result (r : WorkerResult)

/-- Where the script is with a worker. -/
inductive ScriptPc
  | new
  | starting
  | putting (r : WorkerResult)
  | returning (r : WorkerResult)
  | started
  | collecting
  | joining (r : WorkerResult)
  | closed (r : WorkerResult)
  | aborted (r : WorkerResult)
  | failed

/-- Where the process of a worker is, or has died. -/
inductive ChildPc
  | unborn
  | init
  | creating
  | ready
  | running
  | ending
  | sending
  | waiting
  | leaving
  | closing
  | exited
  deriving DecidableEq

/-- A worker: what it is asked to do and how that goes, its namespace (the object of the
    script, which has the lock), the bytes of its result, and its queue. Of its resources
    `pcie`, `nvme0`, `nvme0n1` and `qpair` it has the first `held` ones. -/
structure WorkerProcess where
  req : WorkerRequest
  run : WorkerRun
  fwDebug : Bool
  ns : Nat
  bytes : Nat
  script : ScriptPc
  child : ChildPc
  dead : Bool
  q : List WorkerMsg
  held : Nat

/-- The error before the one of a sudden termination is cleared. -/
def workerRawError (run : WorkerRun) : Int :=
  let error := if run.code = 0 ∧ run.rets.error ≠ 0 then -6 else run.code
  let error := if run.entered then error else 0
  let error := if run.raised then -1 else error
  if run.timeout then -3 else error

/-- `fast_exit`: a worker with an error does not wait for the script. -/
def fastExit (run : WorkerRun) : Bool := workerRawError run != 0

/-- The bytes on the queue of a worker, or still to be written to it. -/
def WorkerProcess.queued (pipe : Pipe) (w : WorkerProcess) : Nat :=
  (w.q.map fun
    | .started => pipe.token
    | .result _ => w.bytes).sum

/-- There is a message, and it can be read. -/
def WorkerProcess.readable (w : WorkerProcess) : Bool :=
  match w.q with
  | [] => false
  -- the last message stays incomplete if its writer has died
  | [_] => !(w.dead && w.child == .sending)
  | _ :: _ :: _ => true

/-- The script, with the worker it is busy with, and the workers, with the one that has the
    lock of a namespace. -/
structure ProcessState where
  workers : List WorkerProcess
  current : Option Nat
  locker : Nat → Option Nat

/-- A step of the script with a worker. -/
inductive ScriptAction
  | start
  | startGet
  | startPut
  | startPutEnd
  | close
  | closeGet
  | join

/-- A step of the process of a worker. -/
inductive ChildAction
  | lock
  | create
  | fail
  | unlock
  | token
  | result
  | resultEnd
  | collected
  | lockClose
  | release
  | exit

/-- `_IOWorker.start` and `_IOWorker.close` of the worker `k`. A put ends once all is in the
    pipe, or read. -/
def scriptStep (pipe : Pipe) (k : Nat) (current : Option Nat) (w : WorkerProcess) :
    ScriptAction → Option (Option Nat × WorkerProcess)
  | .start =>
    match current, w.script with
    | none, .new => some (some k, { w with script := .starting, child := .init })
    | _, _ => none
  | .startGet =>
    if w.readable then
      match w.script, w.q with
      | .starting, .started :: q => some (none, { w with script := .started, q })
      | .starting, .result r :: q => some (current, { w with script := .putting r, q })
      | _, _ => none
    else none
  | .startPut =>
    match w.script with
    | .putting r =>
      -- one writer at a time
      if w.child = .sending then none
      else some (current, { w with script := .returning r, q := w.q ++ [.result r] })
    | _ => none
  | .startPutEnd =>
    match w.script with
    | .returning _ =>
      if w.queued pipe ≤ pipe.capacity then some (none, { w with script := .started }) else none
    | _ => none
  | .close =>
    match current, w.script with
    | none, .started => some (some k, { w with script := .collecting })
    | _, _ => none
  | .closeGet =>
    if w.readable then
      match w.script, w.q with
      | .collecting, .result r :: q => some (current, { w with script := .joining r, q })
      -- not a tuple of seven
      | .collecting, .started :: q => some (current, { w with script := .failed, q })
      | _, _ => none
    else none
  | .join =>
    match w.script with
    | .joining r =>
      if w.child = .exited ∨ w.dead then
        -- stop test when ioworker fail in debug mode
        if w.fwDebug ∧ r.error ≠ 0 then some (current, { w with script := .aborted r })
        else some (none, { w with script := .closed r })
      else none
    | _ => none

/-- `_IOWorker._ioworker` of the worker `k`. -/
def childStep (pipe : Pipe) (k : Nat) (locker : Option Nat) (w : WorkerProcess) :
    ChildAction → Option (Option Nat × WorkerProcess)
  | .lock =>
    if w.child = .init ∧ locker = none then some (some k, { w with child := .creating }) else none
  | .create =>
    if w.child = .creating ∧ w.held < 4 then some (locker, { w with held := w.held + 1 }) else none
  | .fail =>
    if w.run.entered then none
    else match w.child with
      | .init | .ready => some (locker, { w with child := .ending })
      | .creating => some (none, { w with child := .ending })
      | _ => none
  | .unlock =>
    if w.child = .creating ∧ w.held = 4 then some (none, { w with child := .ready }) else none
  | .token =>
    if w.child = .ready ∧ w.run.entered then
      some (locker, { w with child := .running, q := w.q ++ [.started] })
    else none
  | .result =>
    if w.child = .running ∨ w.child = .ending then
      some (locker, { w with child := .sending, q := w.q ++ [.result (workerResult w.req w.run)] })
    else none
  | .resultEnd =>
    if w.child = .sending ∧ w.queued pipe ≤ pipe.capacity then
      some (locker, { w with child := .waiting })
    else none
  | .collected =>
    if w.child = .waiting ∧ (fastExit w.run ∨ w.q.isEmpty) then
      if w.fwDebug ∧ workerError w.run ≠ 0 then some (locker, { w with child := .exited })
      else some (locker, { w with child := .leaving })
    else none
  | .lockClose =>
    if w.child = .leaving ∧ locker = none then some (some k, { w with child := .closing })
    else none
  | .release =>
    if w.child = .closing ∧ 0 < w.held then
      -- the controller goes with pcie
      some (locker, { w with held := if w.held ≤ 2 then 0 else w.held - 1 })
    else none
  | .exit =>
    if w.child = .closing ∧ w.held = 0 then some (none, { w with child := .exited }) else none

/-- A step of the script, or of a process, or the death of a process. -/
inductive ProcessEvent
  | script (k : Nat) (a : ScriptAction)
  | child (k : Nat) (a : ChildAction)
  | die (k : Nat)

/-- A step with the worker `k`. -/
def processStep (pipe : Pipe) (s : ProcessState) : ProcessEvent → Option ProcessState
  | .script k a => do
    let w ← s.workers[k]?
    let (current, w) ← scriptStep pipe k s.current w a
    some { s with workers := s.workers.set k w, current }
  | .child k a => do
    let w ← s.workers[k]?
    if w.dead then none
    else
      let (locker, w') ← childStep pipe k (s.locker w.ns) w a
      some { s with
        workers := s.workers.set k w'
        locker := Function.update s.locker w.ns locker }
  | .die k => do
    let w ← s.workers[k]?
    if w.dead ∨ w.child = .unborn ∨ w.child = .exited then none
    else some { s with workers := s.workers.set k { w with dead := true } }

/-- A worker that has not been started. -/
def WorkerProcess.Fresh (w : WorkerProcess) : Prop :=
  w.script = .new ∧ w.child = .unborn ∧ w.dead = false ∧ w.q = [] ∧ w.held = 0

/-- Any workers, to begin with not started. -/
def processMachine (pipe : Pipe) : Machine ProcessState ProcessEvent where
  init s := (∀ w ∈ s.workers, w.Fresh) ∧ s.current = none ∧ s.locker = fun _ => none
  step := processStep pipe

/-! ### The invariant of a worker -/

variable {pipe : Pipe} {w w' : WorkerProcess} {s s' : ProcessState} {k k' : Nat}
  {current current' : Option Nat} {locker locker' : Option Nat} {a : ChildAction}
  {added : List WorkerMsg}

namespace WorkerProcess

variable (w : WorkerProcess)

/-- The result that the worker puts on the queue. -/
def result : WorkerResult := workerResult w.req w.run

/-- The worker has put its result, or is about to. -/
def Ended : Prop := w.child ∈ [.sending, .waiting, .leaving, .closing, .exited]

instance : Decidable w.Ended := inferInstanceAs (Decidable (_ ∈ _))

/-- What the worker has put on the queue. -/
def sent : List WorkerMsg :=
  (if w.run.entered ∧ (w.child = .running ∨ w.Ended) then [.started] else []) ++
    if w.Ended then [.result w.result] else []

/-- What the script has left of it. -/
def left : List WorkerMsg :=
  match w.script with
  | .new | .starting | .returning _ => w.sent
  | .started | .collecting => if w.run.entered then w.sent.tail else w.sent
  | _ => []

/-- The script has taken the result for good. -/
def Collected : Prop :=
  match w.script with
  | .joining _ | .closed _ | .aborted _ => True
  | _ => False

/-- What the script knows of the process. -/
def ScriptInv : Prop :=
  match w.script with
  | .new => w.child = .unborn
  | .starting => w.child ≠ .unborn
  | .putting r | .returning r => r = w.result ∧ w.run.entered = false ∧ w.Ended
  | .started | .collecting => w.sent ≠ []
  | .joining r => r = w.result ∧ w.Ended
  | .closed r | .aborted r => r = w.result ∧ (w.child = .exited ∨ w.dead = true)
  | .failed => False

/-- The process does not leave with its result on the queue, if there is no error. -/
def Leaves : Prop := w.run.entered = true → fastExit w.run = true ∨ w.Collected

/-- What the process has, and what it waits for. -/
def ChildInv : Prop :=
  match w.child with
  | .unborn | .init => w.held = 0
  | .creating => w.held ≤ 4
  | .ready => w.held = 4
  | .running => w.run.entered = true ∧ w.held = 4
  | .ending => w.run.entered = false ∧ w.held ≤ 4
  | .sending | .waiting => w.held ≤ 4 ∧ (w.run.entered = true → w.held = 4)
  | .leaving | .closing => w.held ≤ 4 ∧ w.Leaves
  | .exited => (w.held = 0 ∨ w.fwDebug = true ∧ w.result.error ≠ 0) ∧ w.held ≤ 4 ∧ w.Leaves

end WorkerProcess

/-- The queue of a worker, and what the script and the process know of each other. -/
structure WorkerInv (w : WorkerProcess) : Prop where
  queue : w.q = w.left
  script : w.ScriptInv
  child : w.ChildInv

/-- What a step of the process of a worker leaves as it is, and what it puts on the queue. -/
structure ChildMoves (w w' : WorkerProcess) (added : List WorkerMsg) : Prop where
  request : w'.req = w.req ∧ w'.run = w.run ∧ w'.fwDebug = w.fwDebug ∧ w'.script = w.script
  owner : w'.ns = w.ns ∧ w'.dead = w.dead ∧ w'.bytes = w.bytes
  q : w'.q = w.q ++ added
  sent : w'.sent = w.sent ++ added
  ended : w.Ended → w'.Ended ∧ added = []
  alive : w.child ≠ .unborn ∧ w.child ≠ .exited ∧ w'.child ≠ .unborn

/-- A step that puts nothing on the queue. -/
theorem ChildMoves.of_child {child : ChildPc} {held : Nat}
    (hchild : child = .running ↔ w.child = .running)
    (hended : { w with child := child, held := held }.Ended ↔ w.Ended)
    (halive : w.child ≠ .unborn ∧ w.child ≠ .exited ∧ child ≠ .unborn) :
    ChildMoves w { w with child := child, held := held } [] where
  request := ⟨rfl, rfl, rfl, rfl⟩
  owner := ⟨rfl, rfl, rfl⟩
  q := (List.append_nil _).symm
  sent := by
    simp only [WorkerProcess.sent, hchild, hended, List.append_nil]
    rfl
  ended h := ⟨hended.2 h, rfl⟩
  alive := halive

theorem childStep_moves (h : w.ChildInv)
    (hs : childStep pipe k locker w a = some (locker', w')) :
    ∃ added, ChildMoves w w' added := by
  cases a with
  | lock =>
    obtain ⟨⟨hc, -⟩, heq⟩ := Option.ite_none_right_eq_some.1 hs
    obtain ⟨rfl, rfl⟩ := Prod.mk.inj (Option.some.inj heq)
    exact ⟨[], .of_child (by simp [hc]) (by simp [WorkerProcess.Ended, hc]) (by simp [hc])⟩
  | create =>
    obtain ⟨⟨hc, -⟩, heq⟩ := Option.ite_none_right_eq_some.1 hs
    obtain ⟨rfl, rfl⟩ := Prod.mk.inj (Option.some.inj heq)
    exact ⟨[], .of_child Iff.rfl Iff.rfl (by simp [hc])⟩
  | fail =>
    rw [childStep] at hs
    split_ifs at hs
    split at hs
    · rename_i hc
      obtain ⟨rfl, rfl⟩ := Prod.mk.inj (Option.some.inj hs)
      exact ⟨[], .of_child (by simp [hc]) (by simp [WorkerProcess.Ended, hc]) (by simp [hc])⟩
    · rename_i hc
      obtain ⟨rfl, rfl⟩ := Prod.mk.inj (Option.some.inj hs)
      exact ⟨[], .of_child (by simp [hc]) (by simp [WorkerProcess.Ended, hc]) (by simp [hc])⟩
    · rename_i hc
      obtain ⟨rfl, rfl⟩ := Prod.mk.inj (Option.some.inj hs)
      exact ⟨[], .of_child (by simp [hc]) (by simp [WorkerProcess.Ended, hc]) (by simp [hc])⟩
    · cases hs
  | unlock | resultEnd =>
    obtain ⟨⟨hc, -⟩, heq⟩ := Option.ite_none_right_eq_some.1 hs
    obtain ⟨rfl, rfl⟩ := Prod.mk.inj (Option.some.inj heq)
    exact ⟨[], .of_child (by simp [hc]) (by simp [WorkerProcess.Ended, hc]) (by simp [hc])⟩
  | token =>
    obtain ⟨⟨hc, he⟩, heq⟩ := Option.ite_none_right_eq_some.1 hs
    obtain ⟨rfl, rfl⟩ := Prod.mk.inj (Option.some.inj heq)
    refine ⟨[.started], ⟨rfl, rfl, rfl, rfl⟩, ⟨rfl, rfl, rfl⟩, rfl, ?_, fun h => ?_, by simp [hc]⟩
    · simp [WorkerProcess.sent, WorkerProcess.Ended, hc, he]
    · simp [WorkerProcess.Ended, hc] at h
  | result =>
    obtain ⟨hc, heq⟩ := Option.ite_none_right_eq_some.1 hs
    obtain ⟨rfl, rfl⟩ := Prod.mk.inj (Option.some.inj heq)
    refine ⟨[.result w.result], ⟨rfl, rfl, rfl, rfl⟩, ⟨rfl, rfl, rfl⟩, rfl, ?_, fun h => ?_, ?_⟩
    · rw [WorkerProcess.ChildInv] at h
      rcases hc with hc | hc
      · rw [hc] at h
        simp [WorkerProcess.sent, WorkerProcess.Ended, WorkerProcess.result, hc, h.1]
      · rw [hc] at h
        simp [WorkerProcess.sent, WorkerProcess.Ended, WorkerProcess.result, hc, h.1]
    · rcases hc with hc | hc <;> simp [WorkerProcess.Ended, hc] at h
    · rcases hc with hc | hc <;> simp [hc]
  | collected =>
    obtain ⟨⟨hc, -⟩, heq⟩ := Option.ite_none_right_eq_some.1 hs
    split_ifs at heq <;> obtain ⟨rfl, rfl⟩ := Prod.mk.inj (Option.some.inj heq)
    · exact ⟨[], .of_child (by simp [hc]) (by simp [WorkerProcess.Ended, hc]) (by simp [hc])⟩
    · exact ⟨[], .of_child (by simp [hc]) (by simp [WorkerProcess.Ended, hc]) (by simp [hc])⟩
  | lockClose =>
    obtain ⟨⟨hc, -⟩, heq⟩ := Option.ite_none_right_eq_some.1 hs
    obtain ⟨rfl, rfl⟩ := Prod.mk.inj (Option.some.inj heq)
    exact ⟨[], .of_child (by simp [hc]) (by simp [WorkerProcess.Ended, hc]) (by simp [hc])⟩
  | release =>
    obtain ⟨⟨hc, -⟩, heq⟩ := Option.ite_none_right_eq_some.1 hs
    obtain ⟨rfl, rfl⟩ := Prod.mk.inj (Option.some.inj heq)
    exact ⟨[], .of_child Iff.rfl Iff.rfl (by simp [hc])⟩
  | exit =>
    obtain ⟨⟨hc, -⟩, heq⟩ := Option.ite_none_right_eq_some.1 hs
    obtain ⟨rfl, rfl⟩ := Prod.mk.inj (Option.some.inj heq)
    exact ⟨[], .of_child (by simp [hc]) (by simp [WorkerProcess.Ended, hc]) (by simp [hc])⟩

/-- The queue, and what the script knows, after a step of the process. -/
theorem ChildMoves.script_inv (h : ChildMoves w w' added) (hi : WorkerInv w)
    (halive : w.dead = false) : w'.q = w'.left ∧ w'.ScriptInv := by
  obtain ⟨hreq, hrun, -, hscript⟩ := h.request
  have hresult : w'.result = w.result := by
    rw [WorkerProcess.result, hreq, hrun]
    rfl
  have hq := hi.queue
  have hs := hi.script
  rw [WorkerProcess.left] at hq ⊢
  rw [WorkerProcess.ScriptInv] at hs ⊢
  rw [h.q, h.sent, hscript, hrun, hresult, hq]
  cases hsc : w.script with
  | new =>
    rw [hsc] at hs
    exact absurd hs h.alive.1
  | starting => exact ⟨rfl, h.alive.2.2⟩
  | putting r =>
    rw [hsc] at hs
    obtain ⟨hended, rfl⟩ := h.ended hs.2.2
    exact ⟨rfl, hs.1, hs.2.1, hended⟩
  | returning r =>
    rw [hsc] at hs
    exact ⟨rfl, hs.1, hs.2.1, (h.ended hs.2.2).1⟩
  | started | collecting =>
    rw [hsc] at hs
    dsimp only at hs ⊢
    refine ⟨?_, fun hnil => hs (List.append_eq_nil_iff.1 hnil).1⟩
    split_ifs
    · exact (List.tail_append_of_ne_nil hs).symm
    · rfl
  | joining r =>
    rw [hsc] at hs
    obtain ⟨hended, rfl⟩ := h.ended hs.2
    exact ⟨rfl, hs.1, hended⟩
  | closed r | aborted r =>
    rw [hsc] at hs
    exact absurd hs.2 (by simp [h.alive.2.1, halive])
  | failed =>
    rw [hsc] at hs
    exact hs.elim

/-- Once the queue of a worker that got ready and has ended is empty, its result is collected. -/
theorem WorkerInv.collected (h : WorkerInv w) (he : w.run.entered = true) (hended : w.Ended)
    (hq : w.q = []) : w.Collected := by
  have hsent : w.sent = [.started, .result w.result] := by
    simp [WorkerProcess.sent, he, hended]
  have hq' := h.queue
  have hs := h.script
  rw [hq, WorkerProcess.left] at hq'
  rw [WorkerProcess.ScriptInv] at hs
  rw [WorkerProcess.Collected]
  cases hsc : w.script with
  | new | starting | returning r => simp [hsc, hsent] at hq'
  | started | collecting => simp [hsc, hsent, he] at hq'
  | putting r => simp [hsc, he] at hs
  | failed => simp [hsc] at hs
  | joining r | closed r | aborted r => trivial

theorem childStep_inv (h : WorkerInv w) (halive : w.dead = false)
    (hs : childStep pipe k locker w a = some (locker', w')) : WorkerInv w' := by
  obtain ⟨added, hm⟩ := childStep_moves h.child hs
  obtain ⟨hq, hscript⟩ := hm.script_inv h halive
  refine ⟨hq, hscript, ?_⟩
  have hc := h.child
  rw [WorkerProcess.ChildInv] at hc
  cases a with
  | lock =>
    obtain ⟨⟨hpc, -⟩, heq⟩ := Option.ite_none_right_eq_some.1 hs
    obtain ⟨rfl, rfl⟩ := Prod.mk.inj (Option.some.inj heq)
    rw [hpc] at hc
    exact hc.le.trans (Nat.zero_le 4)
  | create =>
    obtain ⟨⟨hpc, hlt⟩, heq⟩ := Option.ite_none_right_eq_some.1 hs
    obtain ⟨rfl, rfl⟩ := Prod.mk.inj (Option.some.inj heq)
    rw [WorkerProcess.ChildInv]
    simp only [hpc]
    exact hlt
  | fail =>
    rw [childStep] at hs
    split_ifs at hs with he
    have he : w.run.entered = false := by simpa using he
    split at hs
    · rename_i hpc
      obtain ⟨rfl, rfl⟩ := Prod.mk.inj (Option.some.inj hs)
      rw [hpc] at hc
      exact ⟨he, hc.le.trans (Nat.zero_le 4)⟩
    · rename_i hpc
      obtain ⟨rfl, rfl⟩ := Prod.mk.inj (Option.some.inj hs)
      rw [hpc] at hc
      exact ⟨he, hc.le⟩
    · rename_i hpc
      obtain ⟨rfl, rfl⟩ := Prod.mk.inj (Option.some.inj hs)
      rw [hpc] at hc
      exact ⟨he, hc⟩
    · cases hs
  | unlock =>
    obtain ⟨⟨-, hheld⟩, heq⟩ := Option.ite_none_right_eq_some.1 hs
    obtain ⟨rfl, rfl⟩ := Prod.mk.inj (Option.some.inj heq)
    exact hheld
  | token =>
    obtain ⟨⟨hpc, he⟩, heq⟩ := Option.ite_none_right_eq_some.1 hs
    obtain ⟨rfl, rfl⟩ := Prod.mk.inj (Option.some.inj heq)
    rw [hpc] at hc
    exact ⟨he, hc⟩
  | result =>
    obtain ⟨hpc, heq⟩ := Option.ite_none_right_eq_some.1 hs
    obtain ⟨rfl, rfl⟩ := Prod.mk.inj (Option.some.inj heq)
    rcases hpc with hpc | hpc <;> rw [hpc] at hc
    · exact ⟨hc.2.le, fun _ => hc.2⟩
    · exact ⟨hc.2, fun he => by rw [hc.1] at he; cases he⟩
  | resultEnd =>
    obtain ⟨⟨hpc, -⟩, heq⟩ := Option.ite_none_right_eq_some.1 hs
    obtain ⟨rfl, rfl⟩ := Prod.mk.inj (Option.some.inj heq)
    rw [hpc] at hc
    exact hc
  | collected =>
    obtain ⟨⟨hpc, hfast⟩, heq⟩ := Option.ite_none_right_eq_some.1 hs
    rw [hpc] at hc
    have hleaves : w.Leaves := by
      intro he
      refine hfast.imp_right fun hq => h.collected he ?_ (List.isEmpty_iff.1 hq)
      simp [WorkerProcess.Ended, hpc]
    split_ifs at heq with hfw <;> obtain ⟨rfl, rfl⟩ := Prod.mk.inj (Option.some.inj heq)
    · exact ⟨.inr hfw, hc.1, hleaves⟩
    · exact ⟨hc.1, hleaves⟩
  | lockClose =>
    obtain ⟨⟨hpc, -⟩, heq⟩ := Option.ite_none_right_eq_some.1 hs
    obtain ⟨rfl, rfl⟩ := Prod.mk.inj (Option.some.inj heq)
    rw [hpc] at hc
    exact hc
  | release =>
    obtain ⟨⟨hpc, -⟩, heq⟩ := Option.ite_none_right_eq_some.1 hs
    obtain ⟨rfl, rfl⟩ := Prod.mk.inj (Option.some.inj heq)
    rw [hpc] at hc
    rw [WorkerProcess.ChildInv]
    simp only [hpc]
    refine ⟨?_, hc.2⟩
    have := hc.1
    split_ifs <;> omega
  | exit =>
    obtain ⟨⟨hpc, hheld⟩, heq⟩ := Option.ite_none_right_eq_some.1 hs
    obtain ⟨rfl, rfl⟩ := Prod.mk.inj (Option.some.inj heq)
    rw [hpc] at hc
    exact ⟨.inl hheld, hc⟩

/-- What the process has after a step of the script that leaves it alone. -/
theorem WorkerProcess.ChildInv.of_script {script : ScriptPc} {q : List WorkerMsg}
    (h : w.ChildInv) (hc : w.Collected → { w with script, q }.Collected) :
    { w with script, q }.ChildInv := by
  have hleaves : w.Leaves → { w with script, q }.Leaves := fun hl he => (hl he).imp_right hc
  rw [ChildInv] at h ⊢
  dsimp only
  cases hchild : w.child with
  | leaving | closing =>
    rw [hchild] at h
    exact ⟨h.1, hleaves h.2⟩
  | exited =>
    rw [hchild] at h
    exact ⟨h.1, h.2.1, hleaves h.2.2⟩
  | _ =>
    rw [hchild] at h
    exact h

/-- The first message of a worker is its token, or its result if it has failed before. -/
theorem WorkerProcess.sent_cons {m : WorkerMsg} {q : List WorkerMsg} (h : w.sent = m :: q) :
    (m = .started ∧ w.run.entered = true) ∨
      (m = .result w.result ∧ q = [] ∧ w.run.entered = false ∧ w.Ended) := by
  by_cases he : w.run.entered = true
  · by_cases hr : w.child = .running ∨ w.Ended
    · simp only [sent, he, hr, and_self, if_true] at h
      exact .inl ⟨(List.cons.inj h).1.symm, he⟩
    · simp [sent, not_or.1 hr] at h
  · by_cases hend : w.Ended
    · simp [sent, he, hend] at h
      exact .inr ⟨h.1.symm, h.2, by simpa using he, hend⟩
    · simp [sent, he, hend] at h

/-- What is left, once the token has been taken, is the result. -/
theorem WorkerInv.left_cons {m : WorkerMsg} {q : List WorkerMsg} (h : WorkerInv w)
    (hs : w.script = .started ∨ w.script = .collecting) (hq : w.q = m :: q) :
    m = .result w.result ∧ q = [] ∧ w.Ended := by
  have hleft := h.queue
  rw [hq, WorkerProcess.left] at hleft
  have heq : m :: q = if w.run.entered then w.sent.tail else w.sent := by
    rcases hs with hs | hs <;> simpa only [hs] using hleft
  by_cases hend : w.Ended
  · by_cases he : w.run.entered = true
    · simp [WorkerProcess.sent, he, hend] at heq
      exact ⟨heq.1, heq.2, hend⟩
    · simp [WorkerProcess.sent, he, hend] at heq
      exact ⟨heq.1, heq.2, hend⟩
  · by_cases he : w.run.entered = true
    · by_cases hr : w.child = .running <;> simp [WorkerProcess.sent, he, hend, hr] at heq
    · simp [WorkerProcess.sent, he, hend] at heq

/-- What a step of the script with the worker `k` does: the worker that it is busy with, before
    and after it, and the worker after it. -/
inductive ScriptMoves (pipe : Pipe) (k : Nat) (w : WorkerProcess) :
    Option Nat → Option Nat → WorkerProcess → Prop
  | start (h : w.script = .new) :
    ScriptMoves pipe k w none (some k) { w with script := .starting, child := .init }
  | ready {current q} (h : w.script = .starting) (hread : w.readable = true)
    (hq : w.q = .started :: q) :
    ScriptMoves pipe k w current none { w with script := .started, q }
  | failed {current r q} (h : w.script = .starting) (hread : w.readable = true)
    (hq : w.q = .result r :: q) :
    ScriptMoves pipe k w current current { w with script := .putting r, q }
  | put {current r} (h : w.script = .putting r) (hwrite : w.child ≠ .sending) :
    ScriptMoves pipe k w current current
      { w with script := .returning r, q := w.q ++ [.result r] }
  | putEnd {current r} (h : w.script = .returning r) (hfits : w.queued pipe ≤ pipe.capacity) :
    ScriptMoves pipe k w current none { w with script := .started }
  | close (h : w.script = .started) :
    ScriptMoves pipe k w none (some k) { w with script := .collecting }
  | collect {current r q} (h : w.script = .collecting) (hread : w.readable = true)
    (hq : w.q = .result r :: q) :
    ScriptMoves pipe k w current current { w with script := .joining r, q }
  | garbled {current q} (h : w.script = .collecting) (hread : w.readable = true)
    (hq : w.q = .started :: q) :
    ScriptMoves pipe k w current current { w with script := .failed, q }
  | abort {current r} (h : w.script = .joining r) (hchild : w.child = .exited ∨ w.dead = true) :
    ScriptMoves pipe k w current current { w with script := .aborted r }
  | join {current r} (h : w.script = .joining r) (hchild : w.child = .exited ∨ w.dead = true) :
    ScriptMoves pipe k w current none { w with script := .closed r }

theorem scriptStep_moves {a : ScriptAction}
    (hs : scriptStep pipe k current w a = some (current', w')) :
    ScriptMoves pipe k w current current' w' := by
  cases a with
  | start =>
    simp only [scriptStep] at hs
    split at hs
    · rename_i hst
      obtain ⟨rfl, rfl⟩ := Prod.mk.inj (Option.some.inj hs)
      exact .start hst
    · cases hs
  | startGet =>
    obtain ⟨hread, hs⟩ := Option.ite_none_right_eq_some.1 hs
    split at hs
    · rename_i hst hq
      obtain ⟨rfl, rfl⟩ := Prod.mk.inj (Option.some.inj hs)
      exact .ready hst hread hq
    · rename_i hst hq
      obtain ⟨rfl, rfl⟩ := Prod.mk.inj (Option.some.inj hs)
      exact .failed hst hread hq
    · cases hs
  | startPut =>
    simp only [scriptStep] at hs
    split at hs
    · rename_i hst
      obtain ⟨hwrite, hs⟩ := Option.ite_none_left_eq_some.1 hs
      obtain ⟨rfl, rfl⟩ := Prod.mk.inj (Option.some.inj hs)
      exact .put hst hwrite
    · cases hs
  | startPutEnd =>
    simp only [scriptStep] at hs
    split at hs
    · rename_i hst
      obtain ⟨hfits, hs⟩ := Option.ite_none_right_eq_some.1 hs
      obtain ⟨rfl, rfl⟩ := Prod.mk.inj (Option.some.inj hs)
      exact .putEnd hst hfits
    · cases hs
  | close =>
    simp only [scriptStep] at hs
    split at hs
    · rename_i hst
      obtain ⟨rfl, rfl⟩ := Prod.mk.inj (Option.some.inj hs)
      exact .close hst
    · cases hs
  | closeGet =>
    obtain ⟨hread, hs⟩ := Option.ite_none_right_eq_some.1 hs
    split at hs
    · rename_i hst hq
      obtain ⟨rfl, rfl⟩ := Prod.mk.inj (Option.some.inj hs)
      exact .collect hst hread hq
    · rename_i hst hq
      obtain ⟨rfl, rfl⟩ := Prod.mk.inj (Option.some.inj hs)
      exact .garbled hst hread hq
    · cases hs
  | join =>
    simp only [scriptStep] at hs
    split at hs
    · rename_i hst
      obtain ⟨hchild, hs⟩ := Option.ite_none_right_eq_some.1 hs
      split_ifs at hs <;> obtain ⟨rfl, rfl⟩ := Prod.mk.inj (Option.some.inj hs)
      · exact .abort hst hchild
      · exact .join hst hchild
    · cases hs

theorem ScriptMoves.inv (hm : ScriptMoves pipe k w current current' w') (h : WorkerInv w) :
    WorkerInv w' := by
  have hsc := h.script
  have hq := h.queue
  rw [WorkerProcess.ScriptInv] at hsc
  rw [WorkerProcess.left] at hq
  cases hm with
  | start hst =>
    simp only [hst] at hsc hq
    have hc := h.child
    simp only [WorkerProcess.ChildInv, hsc] at hc
    refine ⟨?_, (fun hunborn => nomatch hunborn), hc⟩
    rw [WorkerProcess.left]
    simp only [hq]
    simp [WorkerProcess.sent, WorkerProcess.Ended, hsc]
  | ready hst _ hq' =>
    simp only [hst, hq'] at hq
    refine ⟨?_, ?_, h.child.of_script (by simp [WorkerProcess.Collected, hst])⟩
    · obtain ⟨-, he⟩ | ⟨hm, -⟩ := WorkerProcess.sent_cons hq.symm
      · change _ = if w.run.entered then w.sent.tail else w.sent
        rw [if_pos he, ← hq, List.tail_cons]
      · cases hm
    · change w.sent ≠ []
      rw [← hq]
      exact List.cons_ne_nil _ _
  | failed hst _ hq' =>
    simp only [hst, hq'] at hq
    obtain ⟨hm, -⟩ | ⟨hm, rfl, he, hend⟩ := WorkerProcess.sent_cons hq.symm
    · cases hm
    · obtain rfl := WorkerMsg.result.inj hm
      exact ⟨rfl, ⟨rfl, he, hend⟩, h.child.of_script (by simp [WorkerProcess.Collected, hst])⟩
  | put hst _ =>
    simp only [hst] at hsc hq
    obtain ⟨rfl, he, hend⟩ := hsc
    refine ⟨?_, ⟨rfl, he, hend⟩, h.child.of_script (by simp [WorkerProcess.Collected, hst])⟩
    change w.q ++ [.result w.result] = w.sent
    rw [hq]
    simp [WorkerProcess.sent, he, hend]
  | putEnd hst hfits =>
    simp only [hst] at hsc hq
    obtain ⟨-, he, hend⟩ := hsc
    refine ⟨?_, ?_, h.child.of_script (by simp [WorkerProcess.Collected, hst])⟩
    · change w.q = if w.run.entered then w.sent.tail else w.sent
      rw [hq, he, if_neg Bool.false_ne_true]
    · change w.sent ≠ []
      simp [WorkerProcess.sent, he, hend]
  | close hst =>
    simp only [hst] at hsc hq
    exact ⟨hq, hsc, h.child.of_script (by simp [WorkerProcess.Collected, hst])⟩
  | collect hst _ hq' =>
    obtain ⟨hm, rfl, hend⟩ := h.left_cons (.inr hst) hq'
    obtain rfl := WorkerMsg.result.inj hm
    exact ⟨rfl, ⟨rfl, hend⟩, h.child.of_script fun _ => trivial⟩
  | garbled hst _ hq' =>
    obtain ⟨hm, -⟩ := h.left_cons (.inr hst) hq'
    cases hm
  | abort hst hchild | join hst hchild =>
    simp only [hst] at hsc hq
    exact ⟨hq, ⟨hsc.1, hchild⟩, h.child.of_script fun _ => trivial⟩

/-- A process that dies leaves everything as it is. -/
theorem WorkerInv.die (h : WorkerInv w) : WorkerInv { w with dead := true } := by
  refine ⟨h.queue, ?_, h.child⟩
  have hsc := h.script
  rw [WorkerProcess.ScriptInv] at hsc ⊢
  dsimp only
  cases hst : w.script with
  | closed r | aborted r =>
    simp only [hst] at hsc
    exact ⟨hsc.1, .inr rfl⟩
  | failed => simp only [hst] at hsc
  | _ =>
    simp only [hst] at hsc
    exact hsc

/-! ### The invariant of the processes -/

/-- The process of the worker has the lock of its namespace, or died with it. -/
def WorkerProcess.Inside (w : WorkerProcess) : Prop := w.child = .creating ∨ w.child = .closing

/-- The script is busy with the worker. -/
def WorkerProcess.Busy (w : WorkerProcess) : Prop :=
  match w.script with
  | .starting | .putting _ | .returning _ | .collecting | .joining _ | .aborted _ | .failed => True
  | .new | .started | .closed _ => False

structure ProcessInv (s : ProcessState) : Prop where
  workers : ∀ w ∈ s.workers, WorkerInv w
  locker : ∀ n i, s.locker n = some i ↔ ∃ w, s.workers[i]? = some w ∧ w.ns = n ∧ w.Inside
  current : ∀ i, s.current = some i ↔ ∃ w, s.workers[i]? = some w ∧ w.Busy

theorem childStep_locker (hs : childStep pipe k locker w a = some (locker', w')) :
    (locker' = locker ∧ (w'.Inside ↔ w.Inside)) ∨ (locker = none ∧ locker' = some k ∧ w'.Inside) ∨
      (w.Inside ∧ locker' = none ∧ ¬w'.Inside) := by
  cases a with
  | lock =>
    obtain ⟨⟨-, hl⟩, heq⟩ := Option.ite_none_right_eq_some.1 hs
    obtain ⟨rfl, rfl⟩ := Prod.mk.inj (Option.some.inj heq)
    exact .inr (.inl ⟨hl, rfl, .inl rfl⟩)
  | lockClose =>
    obtain ⟨⟨-, hl⟩, heq⟩ := Option.ite_none_right_eq_some.1 hs
    obtain ⟨rfl, rfl⟩ := Prod.mk.inj (Option.some.inj heq)
    exact .inr (.inl ⟨hl, rfl, .inr rfl⟩)
  | create | release =>
    obtain ⟨-, heq⟩ := Option.ite_none_right_eq_some.1 hs
    obtain ⟨rfl, rfl⟩ := Prod.mk.inj (Option.some.inj heq)
    exact .inl ⟨rfl, Iff.rfl⟩
  | fail =>
    rw [childStep] at hs
    split_ifs at hs
    split at hs
    · rename_i hpc
      obtain ⟨rfl, rfl⟩ := Prod.mk.inj (Option.some.inj hs)
      exact .inl ⟨rfl, by simp [WorkerProcess.Inside, hpc]⟩
    · rename_i hpc
      obtain ⟨rfl, rfl⟩ := Prod.mk.inj (Option.some.inj hs)
      exact .inl ⟨rfl, by simp [WorkerProcess.Inside, hpc]⟩
    · rename_i hpc
      obtain ⟨rfl, rfl⟩ := Prod.mk.inj (Option.some.inj hs)
      exact .inr (.inr ⟨.inl hpc, rfl, by simp [WorkerProcess.Inside]⟩)
    · cases hs
  | unlock =>
    obtain ⟨⟨hpc, -⟩, heq⟩ := Option.ite_none_right_eq_some.1 hs
    obtain ⟨rfl, rfl⟩ := Prod.mk.inj (Option.some.inj heq)
    exact .inr (.inr ⟨.inl hpc, rfl, by simp [WorkerProcess.Inside]⟩)
  | token | resultEnd =>
    obtain ⟨⟨hpc, -⟩, heq⟩ := Option.ite_none_right_eq_some.1 hs
    obtain ⟨rfl, rfl⟩ := Prod.mk.inj (Option.some.inj heq)
    exact .inl ⟨rfl, by simp [WorkerProcess.Inside, hpc]⟩
  | result =>
    obtain ⟨hpc, heq⟩ := Option.ite_none_right_eq_some.1 hs
    obtain ⟨rfl, rfl⟩ := Prod.mk.inj (Option.some.inj heq)
    exact .inl ⟨rfl, by rcases hpc with hpc | hpc <;> simp [WorkerProcess.Inside, hpc]⟩
  | collected =>
    obtain ⟨⟨hpc, -⟩, heq⟩ := Option.ite_none_right_eq_some.1 hs
    split_ifs at heq <;> obtain ⟨rfl, rfl⟩ := Prod.mk.inj (Option.some.inj heq)
    · exact .inl ⟨rfl, by simp [WorkerProcess.Inside, hpc]⟩
    · exact .inl ⟨rfl, by simp [WorkerProcess.Inside, hpc]⟩
  | exit =>
    obtain ⟨⟨hpc, -⟩, heq⟩ := Option.ite_none_right_eq_some.1 hs
    obtain ⟨rfl, rfl⟩ := Prod.mk.inj (Option.some.inj heq)
    exact .inr (.inr ⟨.inr hpc, rfl, by simp [WorkerProcess.Inside]⟩)

theorem ScriptMoves.busy (hm : ScriptMoves pipe k w current current' w') :
    (current' = current ∧ (w'.Busy ↔ w.Busy)) ∨ (current = none ∧ current' = some k ∧ w'.Busy) ∨
      (w.Busy ∧ current' = none ∧ ¬w'.Busy) := by
  simp only [WorkerProcess.Busy]
  cases hm with
  | start h | close h => exact .inr (.inl ⟨rfl, rfl, trivial⟩)
  | ready h | putEnd h | join h => exact .inr (.inr ⟨by simp [h], rfl, id⟩)
  | failed h | put h | collect h | garbled h | abort h => exact .inl ⟨rfl, by simp [h]⟩

/-- The script takes a process from its beginning, and otherwise leaves it alone. -/
theorem ScriptMoves.child (hm : ScriptMoves pipe k w current current' w') (h : WorkerInv w) :
    (w'.child = w.child ∨ w.child = .unborn ∧ w'.child = .init) ∧
      w'.ns = w.ns ∧ w'.dead = w.dead ∧ w'.run = w.run := by
  have hsc := h.script
  rw [WorkerProcess.ScriptInv] at hsc
  cases hm with
  | start h =>
    simp only [h] at hsc
    exact ⟨.inr ⟨hsc, rfl⟩, rfl, rfl, rfl⟩
  | _ => exact ⟨.inl rfl, rfl, rfl, rfl⟩

theorem ScriptMoves.inside (hm : ScriptMoves pipe k w current current' w') (h : WorkerInv w) :
    w'.Inside ↔ w.Inside := by
  rcases (hm.child h).1 with hch | ⟨hch, hch'⟩
  · simp only [WorkerProcess.Inside, hch]
  · simp [WorkerProcess.Inside, hch, hch']

theorem ProcessInv.init (hw : ∀ w ∈ s.workers, w.Fresh) (hc : s.current = none)
    (hl : s.locker = fun _ => none) : ProcessInv s where
  workers w hmem := by
    obtain ⟨hsc, hch, -, hq, hheld⟩ := hw w hmem
    refine ⟨?_, ?_, ?_⟩
    · simp [WorkerProcess.left, WorkerProcess.sent, WorkerProcess.Ended, hsc, hch, hq]
    · simp [WorkerProcess.ScriptInv, hsc, hch]
    · simp [WorkerProcess.ChildInv, hch, hheld]
  locker n i := by
    rw [hl]
    refine ⟨(fun h => nomatch h), fun ⟨w, hi, _, hin⟩ => ?_⟩
    obtain ⟨-, hch, -⟩ := hw w (List.mem_of_getElem? hi)
    simp [WorkerProcess.Inside, hch] at hin
  current i := by
    rw [hc]
    refine ⟨(fun h => nomatch h), fun ⟨w, hi, hb⟩ => ?_⟩
    obtain ⟨hsc, -⟩ := hw w (List.mem_of_getElem? hi)
    simp [WorkerProcess.Busy, hsc] at hb

/-- What a step can do with the worker `k`. -/
inductive ProcessMoves (pipe : Pipe) (s s' : ProcessState) (k : Nat) (w w' : WorkerProcess) :
    ProcessEvent → Prop
  | script {a : ScriptAction} (hl : s'.locker = s.locker)
    (h : ScriptMoves pipe k w s.current s'.current w') :
    ProcessMoves pipe s s' k w w' (.script k a)
  | child {a : ChildAction} {o : Option Nat} (halive : w.dead = false)
    (hc : s'.current = s.current) (hl : s'.locker = Function.update s.locker w.ns o)
    (h : childStep pipe k (s.locker w.ns) w a = some (o, w')) :
    ProcessMoves pipe s s' k w w' (.child k a)
  | die (hlives : w.dead = false ∧ w.child ≠ .unborn ∧ w.child ≠ .exited)
    (hc : s'.current = s.current) (hl : s'.locker = s.locker) (h : w' = { w with dead := true }) :
    ProcessMoves pipe s s' k w w' (.die k)

theorem processStep_moves {e : ProcessEvent} (hs : processStep pipe s e = some s') :
    ∃ k w w', s.workers[k]? = some w ∧ s'.workers = s.workers.set k w' ∧
      ProcessMoves pipe s s' k w w' e := by
  cases e with
  | script k a =>
    obtain ⟨w, hw, hs⟩ := Option.bind_eq_some_iff.1 hs
    obtain ⟨⟨current, w'⟩, hstep, heq⟩ := Option.bind_eq_some_iff.1 hs
    obtain rfl := Option.some.inj heq
    exact ⟨k, w, w', hw, rfl, .script rfl (scriptStep_moves hstep)⟩
  | child k a =>
    obtain ⟨w, hw, hs⟩ := Option.bind_eq_some_iff.1 hs
    obtain ⟨halive, hs⟩ := Option.ite_none_left_eq_some.1 hs
    obtain ⟨⟨locker, w'⟩, hstep, heq⟩ := Option.bind_eq_some_iff.1 hs
    obtain rfl := Option.some.inj heq
    exact ⟨k, w, w', hw, rfl, .child (Bool.eq_false_iff.2 halive) rfl rfl hstep⟩
  | die k =>
    obtain ⟨w, hw, hs⟩ := Option.bind_eq_some_iff.1 hs
    obtain ⟨hlives, hs⟩ := Option.ite_none_left_eq_some.1 hs
    obtain rfl := Option.some.inj hs
    simp only [not_or, Bool.not_eq_true] at hlives
    exact ⟨k, w, _, hw, rfl, .die hlives rfl rfl rfl⟩

theorem ProcessMoves.worker {e : ProcessEvent} (hm : ProcessMoves pipe s s' k w w' e)
    (h : WorkerInv w) : WorkerInv w' := by
  cases hm with
  | script _ hm => exact hm.inv h
  | child halive _ _ hstep => exact childStep_inv h halive hstep
  | die _ _ _ heq => exact heq ▸ h.die

/-- The lock of the namespace `n`. -/
theorem ProcessMoves.lock {e : ProcessEvent} (hm : ProcessMoves pipe s s' k w w' e)
    (h : WorkerInv w) (n : Nat) :
    w'.ns = w.ns ∧ ((s'.locker n = s.locker n ∧ (w.ns = n → (w'.Inside ↔ w.Inside))) ∨
      (w.ns = n ∧ w.dead = false ∧ ((s.locker n = none ∧ s'.locker n = some k ∧ w'.Inside) ∨
        (w.Inside ∧ s'.locker n = none ∧ ¬w'.Inside)))) := by
  cases hm with
  | script hl hm => exact ⟨(hm.child h).2.1, .inl ⟨by rw [hl], fun _ => hm.inside h⟩⟩
  | child halive _ hl hstep =>
    obtain ⟨added, hmoves⟩ := childStep_moves h.child hstep
    refine ⟨hmoves.owner.1, ?_⟩
    rw [hl]
    rcases eq_or_ne w.ns n with rfl | hne
    · rw [Function.update_self]
      exact (childStep_locker hstep).imp (fun hkeep => ⟨hkeep.1, fun _ => hkeep.2⟩)
        fun hmove => ⟨rfl, halive, hmove⟩
    · rw [Function.update_of_ne hne.symm]
      exact .inl ⟨rfl, fun heq => absurd heq hne⟩
  | die _ _ hl heq =>
    subst heq
    exact ⟨rfl, .inl ⟨by rw [hl], fun _ => Iff.rfl⟩⟩

theorem ProcessMoves.busy {e : ProcessEvent} (hm : ProcessMoves pipe s s' k w w' e)
    (h : WorkerInv w) : (s'.current = s.current ∧ (w'.Busy ↔ w.Busy)) ∨
      (s.current = none ∧ s'.current = some k ∧ w'.Busy) ∨
      (w.Busy ∧ s'.current = none ∧ ¬w'.Busy) := by
  cases hm with
  | script _ hm => exact hm.busy
  | child _ hc _ hstep =>
    obtain ⟨added, hmoves⟩ := childStep_moves h.child hstep
    exact .inl ⟨hc, by simp only [WorkerProcess.Busy, hmoves.request.2.2.2]⟩
  | die _ hc _ heq =>
    subst heq
    exact .inl ⟨hc, Iff.rfl⟩

theorem ProcessInv.step {e : ProcessEvent} (h : ProcessInv s)
    (hs : processStep pipe s e = some s') : ProcessInv s' := by
  obtain ⟨k, w, w', hw, hset, hm⟩ := processStep_moves hs
  have hinv := h.workers w (List.mem_of_getElem? hw)
  refine ⟨fun v hv => ?_, fun n i => ?_, fun i => ?_⟩
  · rw [hset] at hv
    rcases List.mem_or_eq_of_mem_set hv with hv | rfl
    · exact h.workers v hv
    · exact hm.worker hinv
  · rw [hset]
    refine holder_set (P := fun w => w.ns = n ∧ w.Inside) (h.locker n) hw ?_ i
    obtain ⟨hns, ⟨hl, hin⟩ | ⟨hn, -, hmove⟩⟩ := hm.lock hinv n
    · exact .inl ⟨hl, by rw [hns]; exact and_congr_right hin⟩
    · rcases hmove with ⟨hl, hl', hin⟩ | ⟨hin, hl', hout⟩
      · exact .inr (.inl ⟨hl, hl', hns.trans hn, hin⟩)
      · exact .inr (.inr ⟨⟨hn, hin⟩, hl', fun hboth => hout hboth.2⟩)
  · rw [hset]
    exact holder_set h.current hw (hm.busy hinv) i

theorem processInv_of_reachable (h : (processMachine pipe).Reachable (fun _ _ => True) s) :
    ProcessInv s :=
  h.invariant (fun _ hs => .init hs.1 hs.2.1 hs.2.2) fun _ _ _ hi _ hs => hi.step hs

/-! ### What the script sees -/

/-- `_IOWorker.running`: there is a queue, and it is empty. -/
def WorkerProcess.isRunning (w : WorkerProcess) : Bool :=
  match w.script with
  | .closed _ => false
  | _ => w.q.isEmpty

/-- Once a start is over, the worker has put its token, or failed before. Until it is closed,
    the script finds it running exactly as long as it has not begun to put its result. What the
    script collects is this result. -/
theorem worker_protocol (h : (processMachine pipe).Reachable (fun _ _ => True) s)
    (hw : s.workers[k]? = some w) :
    (w.script = .started → (.started ∈ w.sent ∨ w.run.entered = false ∧ w.Ended) ∧
      (w.isRunning = true ↔ ¬w.Ended)) ∧
    (∀ r, w.script = .joining r ∨ w.script = .closed r ∨ w.script = .aborted r →
      r = workerResult w.req w.run) ∧ w.script ≠ .failed := by
  have hinv := (processInv_of_reachable h).workers w (List.mem_of_getElem? hw)
  have hsc := hinv.script
  rw [WorkerProcess.ScriptInv] at hsc
  refine ⟨fun hst => ?_, fun r hr => ?_, fun hf => ?_⟩
  · simp only [hst] at hsc
    refine ⟨?_, ?_⟩
    · obtain ⟨m, q, hsent⟩ := List.exists_cons_of_ne_nil hsc
      obtain ⟨rfl, -⟩ | ⟨-, -, he, hend⟩ := WorkerProcess.sent_cons hsent
      · exact .inl (by rw [hsent]; exact List.mem_cons_self)
      · exact .inr ⟨he, hend⟩
    · have hrun : w.isRunning = w.q.isEmpty := by
        rw [WorkerProcess.isRunning]
        simp only [hst]
      rw [hrun, List.isEmpty_iff]
      constructor
      · intro hq hend
        have hq' := hinv.queue
        rw [hq, WorkerProcess.left] at hq'
        by_cases he : w.run.entered = true <;> simp [hst, WorkerProcess.sent, he, hend] at hq'
      · intro hend
        rcases hq : w.q with _ | ⟨m, q⟩
        · rfl
        · exact absurd (hinv.left_cons (.inl hst) hq).2.2 hend
  · rcases hr with hr | hr | hr <;> simp only [hr] at hsc <;> exact hsc.1
  · simp only [hf] at hsc

/-- A worker that goes well. -/
def oneWorker : WorkerProcess where
  req := ⟨[(2, 100)], none, none, none⟩
  run := ⟨true, 0, {}, [], [], [], [5], 1, false, false⟩
  fwDebug := false
  ns := 0
  bytes := 300
  script := .new
  child := .unborn
  dead := false
  q := []
  held := 0

/-- A script with one worker. -/
def oneWorkerScript (w : WorkerProcess) : ProcessState := ⟨[w], none, fun _ => none⟩

theorem WorkerProcess.Fresh.init (h : w.Fresh) :
    (processMachine pipe).init (oneWorkerScript w) := by
  refine ⟨fun v hv => ?_, rfl, rfl⟩
  obtain rfl := List.mem_singleton.1 hv
  exact h

theorem oneWorker_fresh : oneWorker.Fresh := ⟨rfl, rfl, rfl, rfl, rfl⟩

/-- A pipe of 64 KiB. -/
def linuxPipe : Pipe := ⟨65536, 23, by decide⟩

/-- The worker is started, and puts its result. -/
def startAndRun : List ProcessEvent :=
  [.script 0 .start, .child 0 .lock, .child 0 .create, .child 0 .create, .child 0 .create,
    .child 0 .create, .child 0 .unlock, .child 0 .token, .script 0 .startGet, .child 0 .result,
    .child 0 .resultEnd]

/-- The worker is closed. -/
def collectAndJoin : List ProcessEvent :=
  [.script 0 .close, .script 0 .closeGet, .child 0 .collected, .child 0 .lockClose,
    .child 0 .release, .child 0 .release, .child 0 .release, .child 0 .exit, .script 0 .join]

theorem WorkerProcess.Fresh.exists_run {T : Type} {f : WorkerProcess → T} {t : T} (h : w.Fresh)
    (es : List ProcessEvent)
    (hr : (((processMachine linuxPipe).run (oneWorkerScript w) es).bind
      fun s => s.workers[0]?).map f = some t) :
    ∃ s w, (processMachine linuxPipe).Reachable (fun _ _ => True) s ∧
      s.workers[0]? = some w ∧ f w = t := by
  obtain ⟨w, hw, hf⟩ := Option.map_eq_some_iff.1 hr
  obtain ⟨s, hs, hw⟩ := Option.bind_eq_some_iff.1 hw
  exact ⟨s, w, (Machine.Reachable.init h.init).run es
    (Machine.admits_of_forall (fun _ _ _ => trivial) _) hs, hw, hf⟩

/-- The script collects the result of the worker. -/
theorem worker_protocol_one : ∃ s w r, s.workers[0]? = some w ∧ w.script = .closed r ∧
    (processMachine linuxPipe).Reachable (fun _ _ => True) s ∧ r = workerResult w.req w.run := by
  obtain ⟨s, w, hs, hw, hsc⟩ := oneWorker_fresh.exists_run (f := WorkerProcess.script)
    (startAndRun ++ collectAndJoin) rfl
  exact ⟨s, w, _, hw, hsc, hs, (worker_protocol hs hw).2.1 _ (.inr (.inl hsc))⟩

/-- A worker that got ready and has no error keeps all its resources until the script takes
    its result. A worker that the script has closed has exited with its resources closed, but
    for an error while debugging. (Both hold as long as the process has not died.) No two
    processes have the lock of one namespace. -/
theorem worker_holds (h : (processMachine pipe).Reachable (fun _ _ => True) s)
    (hw : s.workers[k]? = some w) :
    (w.dead = false → w.run.entered = true → fastExit w.run = false → ¬w.Collected →
      w.child ∉ [.unborn, .init, .creating] → w.held = 4) ∧
    (w.dead = false → ∀ r, w.script = .closed r ∨ w.script = .aborted r → w.child = .exited ∧
      (w.held = 0 ∨ w.fwDebug = true ∧ workerError w.run ≠ 0)) ∧
    ∀ k' w', s.workers[k']? = some w' → w'.ns = w.ns → w.Inside → w'.Inside → k' = k := by
  have hproc := processInv_of_reachable h
  have hinv := hproc.workers w (List.mem_of_getElem? hw)
  have hc := hinv.child
  rw [WorkerProcess.ChildInv] at hc
  refine ⟨fun _ he hfast hno hchild => ?_, fun halive r hr => ?_, fun k' w' hw' hns hin hin' => ?_⟩
  · have hleaves : ¬w.Leaves := fun hl => (hl he).elim (by simp [hfast]) hno
    cases hch : w.child with
    | unborn | init | creating => simp [hch] at hchild
    | ready => simpa only [hch] using hc
    | running =>
      simp only [hch] at hc
      exact hc.2
    | ending => simp [hch, he] at hc
    | sending | waiting =>
      simp only [hch] at hc
      exact hc.2 he
    | leaving | closing =>
      simp only [hch] at hc
      exact absurd hc.2 hleaves
    | exited =>
      simp only [hch] at hc
      exact absurd hc.2.2 hleaves
  · have hsc := hinv.script
    rw [WorkerProcess.ScriptInv] at hsc
    have hch : w.child = .exited := by
      rcases hr with hr | hr <;> simp only [hr] at hsc <;>
        exact hsc.2.resolve_right (by simp [halive])
    simp only [hch] at hc
    exact ⟨hch, hc.1⟩
  · have hk := (hproc.locker w.ns k).2 ⟨w, hw, rfl, hin⟩
    have hk' := (hproc.locker w.ns k').2 ⟨w', hw', hns, hin'⟩
    exact Option.some.inj (hk'.symm.trans hk)

/-- While its result is on the queue, the worker keeps its resources. -/
theorem worker_holds_one : ∃ s w, (processMachine linuxPipe).Reachable (fun _ _ => True) s ∧
    s.workers[0]? = some w ∧ w.child = .waiting ∧ w.held = 4 := by
  obtain ⟨s, w, hs, hw, hsum⟩ := oneWorker_fresh.exists_run
    (f := fun w => (w.script, w.child, w.dead, w.run)) startAndRun rfl
  simp only [Prod.mk.injEq] at hsum
  obtain ⟨hsc, hch, halive, hrun⟩ := hsum
  refine ⟨s, w, hs, hw, hch,
    (worker_holds hs hw).1 halive (by rw [hrun]; rfl) (by rw [hrun]; rfl) ?_ ?_⟩
  · simp [WorkerProcess.Collected, hsc]
  · simp [hch]

/-! ### No deadlock -/

/-- The steps that a worker has left at most. -/
def WorkerProcess.work (w : WorkerProcess) : Nat :=
  (match w.script with
  | .new => 7
  | .starting => 6
  | .putting _ => 5
  | .returning _ => 4
  | .started => 3
  | .collecting => 2
  | .joining _ => 1
  | .closed _ | .aborted _ | .failed => 0) +
  (match w.child with
  | .unborn => 17
  | .init => 16
  | .creating => 15 - w.held
  | .ready => 10
  | .running | .ending => 9
  | .sending => 8
  | .waiting => 7
  | .leaving => 6
  | .closing => 1 + w.held
  | .exited => 0) +
  if w.dead then 0 else 1

theorem childStep_work (h : w.ChildInv) (hs : childStep pipe k locker w a = some (locker', w')) :
    w'.work < w.work := by
  rw [WorkerProcess.ChildInv] at h
  cases a with
  | fail =>
    rw [childStep] at hs
    split_ifs at hs
    split at hs
    · rename_i hpc
      obtain ⟨rfl, rfl⟩ := Prod.mk.inj (Option.some.inj hs)
      simp only [WorkerProcess.work, hpc]
      omega
    · rename_i hpc
      obtain ⟨rfl, rfl⟩ := Prod.mk.inj (Option.some.inj hs)
      simp only [WorkerProcess.work, hpc]
      omega
    · rename_i hpc
      obtain ⟨rfl, rfl⟩ := Prod.mk.inj (Option.some.inj hs)
      simp only [hpc] at h
      simp only [WorkerProcess.work, hpc]
      omega
    · cases hs
  | result =>
    obtain ⟨hpc, heq⟩ := Option.ite_none_right_eq_some.1 hs
    obtain ⟨rfl, rfl⟩ := Prod.mk.inj (Option.some.inj heq)
    rcases hpc with hpc | hpc <;> simp only [WorkerProcess.work, hpc] <;> omega
  | collected =>
    obtain ⟨⟨hpc, -⟩, heq⟩ := Option.ite_none_right_eq_some.1 hs
    split_ifs at heq <;> obtain ⟨rfl, rfl⟩ := Prod.mk.inj (Option.some.inj heq) <;>
      simp only [WorkerProcess.work, hpc] <;> omega
  | release =>
    obtain ⟨⟨hpc, hheld⟩, heq⟩ := Option.ite_none_right_eq_some.1 hs
    obtain ⟨rfl, rfl⟩ := Prod.mk.inj (Option.some.inj heq)
    simp only [WorkerProcess.work, hpc]
    split_ifs <;> omega
  | lock | create | unlock | token | resultEnd | lockClose | exit =>
    obtain ⟨⟨hpc, hcond⟩, heq⟩ := Option.ite_none_right_eq_some.1 hs
    obtain ⟨rfl, rfl⟩ := Prod.mk.inj (Option.some.inj heq)
    simp only [hpc] at h
    simp only [WorkerProcess.work, hpc]
    omega

theorem ScriptMoves.work (hm : ScriptMoves pipe k w current current' w') (h : w.ScriptInv) :
    w'.work < w.work := by
  rw [WorkerProcess.ScriptInv] at h
  cases hm with
  | start hst =>
    simp only [hst] at h
    simp only [WorkerProcess.work, hst, h]
    omega
  | ready hst | failed hst | put hst | putEnd hst | close hst | collect hst | garbled hst
  | abort hst | join hst =>
    simp only [WorkerProcess.work, hst]
    omega

theorem ProcessMoves.work {e : ProcessEvent} (hm : ProcessMoves pipe s s' k w w' e)
    (h : WorkerInv w) : w'.work < w.work := by
  cases hm with
  | script _ hm => exact hm.work h.script
  | child _ _ _ hstep => exact childStep_work h.child hstep
  | die hlives _ _ heq =>
    subst heq
    simp [WorkerProcess.work, hlives.1]

/-- The steps that all workers have left at most. -/
def ProcessState.work (s : ProcessState) : Nat := (s.workers.map WorkerProcess.work).sum

theorem sum_map_set_lt {α : Type*} {l : List α} {f : α → Nat} {a b : α} (hk : l[k]? = some a)
    (hlt : f b < f a) : ((l.set k b).map f).sum < (l.map f).sum := by
  induction l generalizing k with
  | nil => simp at hk
  | cons c l ih =>
    cases k with
    | zero =>
      obtain rfl : c = a := by simpa using hk
      simpa using hlt
    | succ k =>
      have hk' : l[k]? = some a := by simpa using hk
      simpa using ih hk'

theorem ProcessInv.work_lt {e : ProcessEvent} (h : ProcessInv s)
    (hs : processStep pipe s e = some s') : s'.work < s.work := by
  obtain ⟨k, w, w', hw, hset, hm⟩ := processStep_moves hs
  rw [ProcessState.work, hset]
  exact sum_map_set_lt hw (hm.work (h.workers w (List.mem_of_getElem? hw)))

/-- A run takes no more steps than there are left. -/
theorem ProcessInv.run_length {es : List ProcessEvent} (h : ProcessInv s)
    (hr : (processMachine pipe).run s es = some s') : es.length + s'.work ≤ s.work := by
  induction es generalizing s with
  | nil =>
    obtain rfl : s = s' := Option.some.inj hr
    exact (Nat.zero_add _).le
  | cons e es ih =>
    obtain ⟨s₁, hs₁, hr⟩ := Option.bind_eq_some_iff.1 hr
    have hlt := h.work_lt hs₁
    have hle := ih (h.step hs₁) hr
    rw [List.length_cons]
    omega

/-- The script begins to start or to close a worker, or a process dies. -/
def ProcessEvent.Chosen : ProcessEvent → Prop
  | .script _ .start | .script _ .close | .die _ => True
  | _ => False

/-- Nothing goes on by itself. -/
def ProcessState.Stuck (pipe : Pipe) (s : ProcessState) : Prop :=
  ∀ e, ¬e.Chosen → processStep pipe s e = none

/-- A worker is at rest: it has not been started, or it is started and ended, or closed. The
    process of one that is started may wait until its result is taken. -/
def WorkerProcess.AtRest (pipe : Pipe) (w : WorkerProcess) : Prop :=
  match w.script with
  | .new => w.child = .unborn
  | .started => w.dead = true ∨ w.child = .exited ∨ w.child = .waiting ∧ fastExit w.run = false ∨
      w.child = .sending ∧ pipe.capacity < w.queued pipe
  | .closed _ | .aborted _ => w.child = .exited ∨ w.dead = true
  | _ => False

/-- The script waits for a message, or for the right to put one, of a process that has died,
    or for room in the pipe, whose only reader it is. -/
def WorkerProcess.Hangs (pipe : Pipe) (w : WorkerProcess) : Prop :=
  match w.script with
  | .starting | .collecting => w.dead = true ∧ w.readable = false
  | .putting _ => w.dead = true ∧ w.child = .sending
  | .returning _ => pipe.capacity < w.queued pipe
  | _ => False

/-- The process waits for the lock of its namespace, and a process that has died has it. -/
def ProcessState.LockedOut (s : ProcessState) (w : WorkerProcess) : Prop :=
  w.dead = false ∧ (w.child = .init ∧ w.run.entered = true ∨ w.child = .leaving) ∧
    ∃ v ∈ s.workers, v.ns = w.ns ∧ v.Inside ∧ v.dead = true

/-- Where a process that has begun to put its result waits: it has exited, or waits until the result
    is taken, or for room in the pipe. -/
def WorkerProcess.Waits (pipe : Pipe) (w : WorkerProcess) : Prop :=
  w.child = .exited ∨ w.child = .waiting ∧ fastExit w.run = false ∧ w.q ≠ [] ∨
    w.child = .sending ∧ pipe.capacity < w.queued pipe

theorem WorkerProcess.Waits.ended (h : w.Waits pipe) : w.Ended := by
  rcases h with hch | ⟨hch, -⟩ | ⟨hch, -⟩ <;> simp [Ended, hch]

theorem ProcessState.Stuck.childStep (h : s.Stuck pipe) (hw : s.workers[k]? = some w)
    (halive : w.dead = false) (a : ChildAction) :
    Pynvme.childStep pipe k (s.locker w.ns) w a = none := by
  have hno := h (.child k a) id
  simp only [processStep, hw, Option.bind_eq_bind, Option.bind_some, halive] at hno
  rcases hs : Pynvme.childStep pipe k (s.locker w.ns) w a with _ | ⟨locker, w'⟩
  · rfl
  · simp [hs] at hno

theorem ProcessState.Stuck.scriptStep (h : s.Stuck pipe) (hw : s.workers[k]? = some w)
    {a : ScriptAction} (ha : ¬(ProcessEvent.script k a).Chosen) :
    Pynvme.scriptStep pipe k s.current w a = none := by
  have hno := h (.script k a) ha
  simp only [processStep, hw, Option.bind_eq_bind, Option.bind_some] at hno
  rcases hs : Pynvme.scriptStep pipe k s.current w a with _ | ⟨current, w'⟩
  · rfl
  · simp [hs] at hno

/-- A process that lives and has the lock can take a step. -/
theorem WorkerProcess.ChildInv.inside_step (h : w.ChildInv) (hin : w.Inside) :
    ∃ a, childStep pipe k locker w a ≠ none := by
  rw [WorkerProcess.ChildInv] at h
  rcases hin with hch | hch <;> simp only [hch] at h
  · rcases Nat.lt_or_ge w.held 4 with hlt | hge
    · exact ⟨.create, by simp [childStep, hch, hlt]⟩
    · exact ⟨.unlock, by simp [childStep, hch, Nat.le_antisymm h hge]⟩
  · rcases Nat.eq_zero_or_pos w.held with h0 | hpos
    · exact ⟨.exit, by simp [childStep, hch, h0]⟩
    · exact ⟨.release, by simp [childStep, hch, hpos]⟩

/-- Where nothing goes on by itself, only a process that has died has a lock. -/
theorem ProcessInv.dead_of_stuck (h : ProcessInv s) (hst : s.Stuck pipe) {n : Nat}
    (hl : s.locker n = some k) :
    ∃ v ∈ s.workers, v.ns = n ∧ v.Inside ∧ v.dead = true := by
  obtain ⟨v, hv, hn, hin⟩ := (h.locker n k).1 hl
  refine ⟨v, List.mem_of_getElem? hv, hn, hin, ?_⟩
  by_contra halive
  obtain ⟨a, ha⟩ := (h.workers v (List.mem_of_getElem? hv)).child.inside_step hin
  exact ha (hst.childStep hv (Bool.eq_false_iff.2 halive) a)

/-- The process of a worker that lives and cannot take a step has not been started, or waits
    after it has begun to put its result, or is locked out. -/
theorem ProcessInv.child_of_stuck (h : ProcessInv s) (hst : s.Stuck pipe)
    (hw : s.workers[k]? = some w) (halive : w.dead = false) :
    w.child = .unborn ∨ w.Waits pipe ∨ s.LockedOut w := by
  have hinv := h.workers w (List.mem_of_getElem? hw)
  have hno := hst.childStep hw halive
  have hlock : s.locker w.ns ≠ none → ∃ v ∈ s.workers, v.ns = w.ns ∧ v.Inside ∧ v.dead = true :=
    fun hl => by
      obtain ⟨i, hi⟩ := Option.ne_none_iff_exists'.1 hl
      exact h.dead_of_stuck hst hi
  have hout : ¬w.Inside := fun hin => by
    obtain ⟨a, ha⟩ := hinv.child.inside_step hin
    exact ha (hno a)
  cases hch : w.child with
  | unborn => exact .inl rfl
  | exited => exact .inr (.inl (.inl hch))
  | waiting =>
    refine .inr (.inl (.inr (.inl ⟨hch, ?_⟩)))
    have hcol := hno .collected
    by_cases hx : fastExit w.run = true ∨ w.q.isEmpty = true
    · simp only [childStep, hch, hx, and_self, if_true] at hcol
      split_ifs at hcol
    · simpa [not_or] using hx
  | sending =>
    refine .inr (.inl (.inr (.inr ⟨hch, ?_⟩)))
    have hend := hno .resultEnd
    by_contra hfits
    simp [childStep, hch, Nat.le_of_not_lt hfits] at hend
  | init =>
    refine .inr (.inr ⟨halive, .inl ⟨hch, ?_⟩, hlock fun hl => ?_⟩)
    · have hfail := hno .fail
      by_contra he
      simp [childStep, hch, he] at hfail
    · simpa [childStep, hch, hl] using hno .lock
  | leaving =>
    refine .inr (.inr ⟨halive, .inr hch, hlock fun hl => ?_⟩)
    simpa [childStep, hch, hl] using hno .lockClose
  | creating => exact absurd (.inl hch) hout
  | closing => exact absurd (.inr hch) hout
  | ready =>
    by_cases he : w.run.entered = true
    · simpa [childStep, hch, he] using hno .token
    · simpa [childStep, hch, he] using hno .fail
  | running | ending => simpa [childStep, hch] using hno .result

/-- Only a message of a process that has died cannot be read. -/
theorem WorkerProcess.readable_of_alive (halive : w.dead = false) (hq : w.q ≠ []) :
    w.readable = true := by
  obtain ⟨m, q, hm⟩ := List.exists_cons_of_ne_nil hq
  cases q <;> simp [readable, hm, halive]

/-- Where nothing goes on by itself, the script does not wait for a message that it can read. -/
theorem ProcessState.Stuck.not_readable (h : s.Stuck pipe) (hw : s.workers[k]? = some w)
    (hsc : w.script = .starting ∨ w.script = .collecting) : w.readable = false := by
  by_contra hread
  rw [Bool.not_eq_false] at hread
  obtain ⟨m, q, hm⟩ : ∃ m q, w.q = m :: q := by
    refine List.exists_cons_of_ne_nil fun hq => ?_
    simp [WorkerProcess.readable, hq] at hread
  rcases hsc with hsc | hsc
  · have hget := h.scriptStep hw (a := .startGet) id
    cases m <;> simp [Pynvme.scriptStep, hread, hsc, hm] at hget
  · have hget := h.scriptStep hw (a := .closeGet) id
    cases m <;> simp [Pynvme.scriptStep, hread, hsc, hm] at hget

/-- A worker that has ended has its result on the queue until it is taken. -/
theorem WorkerInv.queue_ne_nil (h : WorkerInv w) (hend : w.Ended)
    (hsc : w.script = .starting ∨ w.script = .collecting) : w.q ≠ [] := by
  have hq := h.queue
  rw [WorkerProcess.left] at hq
  rw [hq]
  by_cases he : w.run.entered = true <;>
    rcases hsc with hsc | hsc <;> simp [hsc, WorkerProcess.sent, he, hend]

/-- Where nothing goes on by itself, and the script waits for a message of a worker, its process
    has died, or is locked out. -/
theorem ProcessInv.reading_of_stuck (h : ProcessInv s) (hst : s.Stuck pipe)
    (hw : s.workers[k]? = some w) (hborn : w.child ≠ .unborn)
    (hsc : w.script = .starting ∨ w.script = .collecting) :
    w.dead = true ∧ w.readable = false ∨ s.LockedOut w := by
  have hread := hst.not_readable hw hsc
  rcases hd : w.dead with _ | _
  · rcases (h.child_of_stuck hst hw hd).resolve_left hborn with hwaits | hout
    · have hne := (h.workers w (List.mem_of_getElem? hw)).queue_ne_nil hwaits.ended hsc
      exact absurd (WorkerProcess.readable_of_alive hd hne) (by simp [hread])
    · exact .inr hout
  · exact .inl ⟨rfl, hread⟩

/-- Where nothing goes on by itself, a worker is at rest, unless the script hangs with it, or
    its process is locked out. -/
theorem ProcessInv.rest_of_stuck (h : ProcessInv s) (hst : s.Stuck pipe)
    (hw : s.workers[k]? = some w) : w.AtRest pipe ∨ w.Hangs pipe ∨ s.LockedOut w := by
  have hinv := h.workers w (List.mem_of_getElem? hw)
  have hsc := hinv.script
  have hq := hinv.queue
  rw [WorkerProcess.ScriptInv] at hsc
  rw [WorkerProcess.left] at hq
  rw [WorkerProcess.AtRest, WorkerProcess.Hangs]
  have hchild : w.dead = false → w.child ≠ .unborn → w.Waits pipe ∨ s.LockedOut w :=
    fun halive hborn => (h.child_of_stuck hst hw halive).resolve_left hborn
  have hborn : w.sent ≠ [] → w.child ≠ .unborn := fun hne hch =>
    hne (by simp [WorkerProcess.sent, WorkerProcess.Ended, hch])
  -- the script has taken all there was
  have hempty : w.q = [] → ¬pipe.capacity < w.queued pipe := fun hq => by
    simp [WorkerProcess.queued, hq]
  cases hs : w.script with
  | new =>
    simp only [hs] at hsc
    exact .inl hsc
  | starting =>
    simp only [hs] at hsc
    exact .inr (h.reading_of_stuck hst hw hsc (.inl hs))
  | putting r =>
    simp only [hs] at hsc hq
    have hput := hst.scriptStep hw (a := .startPut) id
    have hch : w.child = .sending := by
      by_contra hch
      simp [scriptStep, hs, hch] at hput
    rcases hd : w.dead with _ | _
    · rcases hchild hd (by simp [hch]) with (hch' | hch' | hch') | hout
      · simp [hch] at hch'
      · simp [hch] at hch'
      · exact absurd hch'.2 (hempty hq)
      · exact .inr (.inr hout)
    · exact .inr (.inl ⟨rfl, hch⟩)
  | returning r =>
    have hend := hst.scriptStep hw (a := .startPutEnd) id
    refine .inr (.inl ?_)
    by_contra hfits
    simp [scriptStep, hs, Nat.le_of_not_lt hfits] at hend
  | started =>
    simp only [hs] at hsc
    rcases hd : w.dead with _ | _
    · rcases hchild hd (hborn hsc) with (hch | hch | hch) | hout
      · exact .inl (.inr (.inl hch))
      · exact .inl (.inr (.inr (.inl ⟨hch.1, hch.2.1⟩)))
      · exact .inl (.inr (.inr (.inr hch)))
      · exact .inr (.inr hout)
    · exact .inl (.inl rfl)
  | collecting =>
    simp only [hs] at hsc
    exact .inr (h.reading_of_stuck hst hw (hborn hsc) (.inr hs))
  | joining r =>
    simp only [hs] at hsc hq
    have hjoin := hst.scriptStep hw (a := .join) id
    obtain ⟨hlives, hex⟩ : w.dead = false ∧ w.child ≠ .exited := by
      rw [← Bool.not_eq_true, ← not_or]
      intro hch
      simp only [scriptStep, hs, hch.symm, if_true] at hjoin
      split_ifs at hjoin
    rcases hchild hlives fun hch => by simp [WorkerProcess.Ended, hch] at hsc with
      (hch | hch | hch) | hout
    · exact absurd hch hex
    · exact absurd hq hch.2.2
    · exact absurd hch.2 (hempty hq)
    · exact .inr (.inr hout)
  | closed r | aborted r =>
    simp only [hs] at hsc
    exact .inl hsc.2
  | failed => simp only [hs] at hsc

/-- The script takes no step with a worker that it hangs with. -/
theorem ScriptMoves.not_hangs (hm : ScriptMoves pipe k w current current' w') :
    ¬w.Hangs pipe := by
  intro h
  rw [WorkerProcess.Hangs] at h
  cases hm with
  | start hst | close hst | abort hst _ | join hst _ => simp [hst] at h
  | ready hst hread _ | failed hst hread _ | collect hst hread _ | garbled hst hread _ =>
    simp [hst, hread] at h
  | put hst hwrite => simp [hst, hwrite] at h
  | putEnd hst hfits =>
    simp only [hst] at h
    exact absurd hfits (Nat.not_le_of_lt h)

/-- The script hangs with a worker for good. -/
theorem ProcessMoves.hangs {e : ProcessEvent} (hm : ProcessMoves pipe s s' k w w' e)
    (hinv : WorkerInv w) (h : w.Hangs pipe) : w'.Hangs pipe := by
  cases hm with
  | script _ hm => exact absurd h hm.not_hangs
  | child halive _ _ hstep =>
    obtain ⟨added, hmoves⟩ := childStep_moves hinv.child hstep
    rw [WorkerProcess.Hangs] at h ⊢
    rw [hmoves.request.2.2.2]
    cases hs : w.script with
    | returning r =>
      simp only [hs] at h ⊢
      refine h.trans_le ?_
      rw [WorkerProcess.queued, WorkerProcess.queued, hmoves.q, hmoves.owner.2.2, List.map_append,
        List.sum_append]
      exact Nat.le_add_right _ _
    | _ => simp [hs, halive] at h
  | die hlives _ _ heq =>
    subst heq
    rw [WorkerProcess.Hangs] at h ⊢
    dsimp only
    cases hs : w.script with
    | returning r =>
      simp only [hs] at h
      exact h
    | _ => simp [hs, hlives.1] at h

/-- A process that waits for a lock that somebody has takes no step. -/
theorem WorkerProcess.childStep_eq_none
    (h : w.child = .init ∧ w.run.entered = true ∨ w.child = .leaving) :
    childStep pipe k (some k') w a = none := by
  rcases h with ⟨hch, he⟩ | hch
  · cases a <;> simp [childStep, hch, he]
  · cases a <;> simp [childStep, hch]

/-- What becomes of the worker `k` in a step. -/
theorem processStep_worker {e : ProcessEvent} (hs : processStep pipe s e = some s')
    (hw : s.workers[k]? = some w) :
    ∃ w', s'.workers[k]? = some w' ∧ (w' = w ∨ ProcessMoves pipe s s' k w w' e) := by
  obtain ⟨i, v, v', hv, hset, hm⟩ := processStep_moves hs
  have hlt : i < s.workers.length := (List.getElem?_eq_some_iff.1 hv).1
  rw [hset]
  rcases eq_or_ne i k with rfl | hne
  · obtain rfl := Option.some.inj (hv.symm.trans hw)
    exact ⟨v', List.getElem?_set_self hlt, .inr hm⟩
  · exact ⟨w, by rw [List.getElem?_set_ne hne, hw], .inl rfl⟩

/-- A process that has died stays where it is. -/
theorem ProcessMoves.dead {e : ProcessEvent} (hm : ProcessMoves pipe s s' k w w' e)
    (hinv : WorkerInv w) (hd : w.dead = true) :
    w'.ns = w.ns ∧ w'.dead = true ∧ (w.Inside → w'.Inside) := by
  cases hm with
  | script _ hm =>
    obtain ⟨-, hns, hdead, -⟩ := hm.child hinv
    exact ⟨hns, hdead.trans hd, (hm.inside hinv).2⟩
  | child halive => exact absurd hd (by simp [halive])
  | die hlives => exact absurd hd (by simp [hlives.1])

/-- Where a process is locked out, it stays so, until it dies as well. -/
theorem ProcessInv.lockedOut_step {e : ProcessEvent} (h : ProcessInv s)
    (hs : processStep pipe s e = some s') (hw : s.workers[k]? = some w)
    (hout : w.dead = true ∨ s.LockedOut w) :
    ∃ w', s'.workers[k]? = some w' ∧ (w'.dead = true ∨ s'.LockedOut w') := by
  have hinv : ∀ {i v}, s.workers[i]? = some v → WorkerInv v := fun hi =>
    h.workers _ (List.mem_of_getElem? hi)
  obtain ⟨w', hw', hmove⟩ := processStep_worker hs hw
  refine ⟨w', hw', ?_⟩
  rcases hout with hd | ⟨halive, hch, v, hv, hns, hin, hd⟩
  · rcases hmove with rfl | hm
    · exact .inl hd
    · exact .inl (hm.dead (hinv hw) hd).2.1
  · obtain ⟨i, hi⟩ := List.mem_iff_getElem?.1 hv
    -- the process that has died keeps the lock
    have hlock : s.locker w.ns = some i := (h.locker _ _).2 ⟨v, hi, hns, hin⟩
    have hdied : ∃ v ∈ s'.workers, v.ns = w.ns ∧ v.Inside ∧ v.dead = true := by
      obtain ⟨v', hi', hmove'⟩ := processStep_worker hs hi
      refine ⟨v', List.mem_of_getElem? hi', ?_⟩
      rcases hmove' with rfl | hm
      · exact ⟨hns, hin, hd⟩
      · obtain ⟨hns', hd', hin'⟩ := hm.dead (hinv hi) hd
        exact ⟨hns'.trans hns, hin' hin, hd'⟩
    rcases hmove with rfl | hm
    · exact .inr ⟨halive, hch, hdied⟩
    · cases hm with
      | script _ hm =>
        obtain ⟨hborn, hns', hdead, hrun⟩ := hm.child (hinv hw)
        have hsame : w'.child = w.child := hborn.resolve_right fun hb => by
          simp [hb.1] at hch
        refine .inr ⟨hdead.trans halive, ?_, by rwa [hns']⟩
        rwa [hsame, hrun]
      | child _ _ _ hstep =>
        rw [hlock, WorkerProcess.childStep_eq_none hch] at hstep
        cases hstep
      | die _ _ _ heq => exact .inl (by rw [heq])

/-- If no process has died, and the result of every worker that fails before it is ready fits
    into the pipe, nobody is locked out, and the script does not hang. -/
theorem ProcessInv.atRest_of_stuck (h : ProcessInv s) (hst : s.Stuck pipe)
    (hwell : ∀ w ∈ s.workers, w.dead = false ∧
      (w.run.entered = false → w.bytes ≤ pipe.capacity)) :
    (∀ w ∈ s.workers, w.AtRest pipe) ∧ ∀ n, s.locker n = none := by
  refine ⟨fun w hw => ?_, fun n => ?_⟩
  · obtain ⟨halive, hfits⟩ := hwell w hw
    obtain ⟨k, hk⟩ := List.mem_iff_getElem?.1 hw
    rcases h.rest_of_stuck hst hk with hrest | hhang | ⟨-, -, v, hv, -, -, hd⟩
    · exact hrest
    · have hsc := (h.workers w hw).script
      have hq := (h.workers w hw).queue
      rw [WorkerProcess.ScriptInv] at hsc
      rw [WorkerProcess.left] at hq
      rw [WorkerProcess.Hangs] at hhang
      cases hs : w.script with
      | returning r =>
        simp only [hs] at hsc hq hhang
        obtain ⟨-, he, hend⟩ := hsc
        have hbytes : w.queued pipe = w.bytes := by
          simp [WorkerProcess.queued, hq, WorkerProcess.sent, he, hend]
        have := hfits he
        omega
      | _ => simp [hs, halive] at hhang
    · exact absurd hd (by simp [(hwell v hv).1])
  · by_contra hl
    obtain ⟨i, hi⟩ := Option.ne_none_iff_exists'.1 hl
    obtain ⟨v, hv, -, -, hd⟩ := h.dead_of_stuck hst hi
    exact absurd hd (by simp [(hwell v hv).1])

/-- What every step keeps of the worker `k` holds of it in every later state. -/
theorem ProcessInv.later {R : ProcessState → WorkerProcess → Prop} (h : ProcessInv s)
    (hl : (processMachine pipe).Later (fun _ _ => True) s s')
    (hstep : ∀ s s' e w, ProcessInv s → processStep pipe s e = some s' →
      s.workers[k]? = some w → R s w → ∃ w', s'.workers[k]? = some w' ∧ R s' w')
    (hw : s.workers[k]? = some w) (hR : R s w) :
    ∃ w', s'.workers[k]? = some w' ∧ R s' w' := by
  have hlater : ∀ w, s.workers[k]? = some w → R s w →
      ∃ w', s'.workers[k]? = some w' ∧ R s' w' := by
    refine hl.relates (R := fun s s' => ∀ w, s.workers[k]? = some w → R s w →
      ∃ w' : WorkerProcess, s'.workers[k]? = some w' ∧ R s' w') h ?_ ?_ ?_
    · exact fun _ w hw hR => ⟨w, hw, hR⟩
    · intro _ _ _ h₁ h₂ w hw hR
      obtain ⟨w', hw', hR'⟩ := h₁ w hw hR
      exact h₂ w' hw' hR'
    · exact fun s e s' hi _ hs => ⟨hi.step hs, fun w => hstep s s' e w hi hs⟩
  exact hlater w hw hR

/-- No process goes on forever: the steps of a run are bounded, and where they end, every
    worker is at rest, or the script hangs with it, or it is locked out. If no process has
    died, and the result of every worker that fails before it is ready fits into the pipe, all
    workers are at rest then, nobody has a lock, and if the script is not done, it can start
    or close a worker. Otherwise the script hangs for good, and a process that is locked out
    stays so until it dies. -/
theorem worker_terminates :
    (∀ s s' es, (processMachine pipe).init s → (processMachine pipe).run s es = some s' →
      es.length ≤ 25 * s.workers.length) ∧
    (∀ s, (processMachine pipe).Reachable (fun _ _ => True) s → s.Stuck pipe →
      (∀ w ∈ s.workers, w.AtRest pipe ∨ w.Hangs pipe ∨ s.LockedOut w) ∧
      ((∀ w ∈ s.workers, w.dead = false ∧ (w.run.entered = false → w.bytes ≤ pipe.capacity)) →
        (∀ w ∈ s.workers, w.AtRest pipe) ∧ (∀ n, s.locker n = none) ∧
        ((∃ w ∈ s.workers, ∃ r, w.script = .aborted r) ∨
          ∀ k w, s.workers[k]? = some w →
            (w.script = .new → ∃ s', processStep pipe s (.script k .start) = some s') ∧
            (w.script = .started → ∃ s', processStep pipe s (.script k .close) = some s')))) ∧
    ∀ s s' (k : Nat) w, (processMachine pipe).Reachable (fun _ _ => True) s →
      (processMachine pipe).Later (fun _ _ => True) s s' → s.workers[k]? = some w →
        (w.Hangs pipe → ∃ w', s'.workers[k]? = some w' ∧ w'.Hangs pipe) ∧
        (s.LockedOut w → ∃ w', s'.workers[k]? = some w' ∧ (w'.dead = true ∨ s'.LockedOut w')) := by
  refine ⟨fun s s' es ⟨hw, hc, hl⟩ hr => ?_, fun s hs hst => ?_, fun s s' k w hs hl hw => ?_⟩
  · have hle := (ProcessInv.init hw hc hl).run_length hr
    have hfresh : ∀ n ∈ s.workers.map WorkerProcess.work, n = 25 := fun n hn => by
      obtain ⟨w, hmem, rfl⟩ := List.mem_map.1 hn
      obtain ⟨hsc, hch, halive, -⟩ := hw w hmem
      simp [WorkerProcess.work, hsc, hch, halive]
    have hwork : s.work = s.workers.length * 25 := by
      rw [ProcessState.work, List.sum_eq_card_nsmul _ 25 hfresh, List.length_map, nsmul_eq_mul,
        Nat.cast_id]
    omega
  · have hinv := processInv_of_reachable hs
    refine ⟨fun w hw => ?_, fun hwell => ?_⟩
    · obtain ⟨k, hk⟩ := List.mem_iff_getElem?.1 hw
      exact hinv.rest_of_stuck hst hk
    · obtain ⟨hrest, hlock⟩ := hinv.atRest_of_stuck hst hwell
      refine ⟨hrest, hlock, ?_⟩
      rcases hc : s.current with _ | k
      · refine .inr fun k w hw => ⟨fun hsc => ?_, fun hsc => ?_⟩
        · simp [processStep, hw, scriptStep, hc, hsc]
        · simp [processStep, hw, scriptStep, hc, hsc]
      · -- the script is not busy with a worker at rest
        obtain ⟨w, hw, hbusy⟩ := (hinv.current k).1 hc
        have hr := hrest w (List.mem_of_getElem? hw)
        rw [WorkerProcess.AtRest] at hr
        rw [WorkerProcess.Busy] at hbusy
        cases hsc : w.script with
        | aborted r => exact .inl ⟨w, List.mem_of_getElem? hw, r, hsc⟩
        | _ => simp [hsc] at hr hbusy
  · have hinv := processInv_of_reachable hs
    refine ⟨fun hhang => ?_, fun hout => ?_⟩
    · refine hinv.later (R := fun _ w => w.Hangs pipe) hl (fun s s' e w hi hstep hw hhang => ?_)
        hw hhang
      obtain ⟨w', hw', rfl | hm⟩ := processStep_worker hstep hw
      · exact ⟨w', hw', hhang⟩
      · exact ⟨w', hw', hm.hangs (hi.workers w (List.mem_of_getElem? hw)) hhang⟩
    · exact hinv.later (R := fun s w => w.dead = true ∨ s.LockedOut w) hl
        (fun s s' e w hi hstep hw hout => hi.lockedOut_step hstep hw hout) hw (.inr hout)

/-- A worker that fails before it is ready, with a result of 70000 bytes. -/
def failedWorker : WorkerProcess :=
  { oneWorker with run := { oneWorker.run with entered := false, raised := true }, bytes := 70000 }

theorem failedWorker_fresh : failedWorker.Fresh := ⟨rfl, rfl, rfl, rfl, rfl⟩

/-- The script gets the result of the worker, and puts it back. -/
def startAndFail : List ProcessEvent :=
  [.script 0 .start, .child 0 .fail, .child 0 .result, .script 0 .startGet, .child 0 .resultEnd,
    .script 0 .startPut]

/-- The worker is started, dies before it puts its result, and is closed. -/
def startAndDie : List ProcessEvent :=
  [.script 0 .start, .child 0 .lock, .child 0 .create, .child 0 .create, .child 0 .create,
    .child 0 .create, .child 0 .unlock, .child 0 .token, .script 0 .startGet, .die 0,
    .script 0 .close]

/-- The script with one worker takes 20 steps. With a failed worker whose result does not fit
    into the pipe, and with one that dies, it hangs for good. -/
theorem worker_terminates_one : (startAndRun ++ collectAndJoin).length ≤ 25 ∧
    (∃ s w, (processMachine linuxPipe).Reachable (fun _ _ => True) s ∧
      s.workers[0]? = some w ∧ w.script = .returning failedWorker.result ∧
      ∀ s', (processMachine linuxPipe).Later (fun _ _ => True) s s' →
        ∃ w', s'.workers[0]? = some w' ∧ w'.Hangs linuxPipe) ∧
    ∃ s w, (processMachine linuxPipe).Reachable (fun _ _ => True) s ∧
      s.workers[0]? = some w ∧ w.script = .collecting ∧
      ∀ s', (processMachine linuxPipe).Later (fun _ _ => True) s s' →
        ∃ w', s'.workers[0]? = some w' ∧ w'.Hangs linuxPipe := by
  refine ⟨?_, ?_, ?_⟩
  · obtain ⟨s, hs⟩ : ∃ s, (processMachine linuxPipe).run (oneWorkerScript oneWorker)
        (startAndRun ++ collectAndJoin) = some s := Option.isSome_iff_exists.1 rfl
    exact worker_terminates.1 _ _ _ oneWorker_fresh.init hs
  · obtain ⟨s, w, hs, hw, hsum⟩ := failedWorker_fresh.exists_run
      (f := fun w => (w.script, w.queued linuxPipe))
      (t := (.returning failedWorker.result, 70000)) startAndFail rfl
    obtain ⟨hsc, hqueued⟩ := Prod.mk.inj hsum
    refine ⟨s, w, hs, hw, hsc, fun s' hl => (worker_terminates.2.2 s s' 0 w hs hl hw).1 ?_⟩
    rw [WorkerProcess.Hangs, hsc, hqueued]
    exact (by decide : linuxPipe.capacity < 70000)
  · obtain ⟨s, w, hs, hw, hsum⟩ := oneWorker_fresh.exists_run
      (f := fun w => (w.script, w.dead, w.readable)) (t := (.collecting, true, false))
      startAndDie rfl
    simp only [Prod.mk.injEq] at hsum
    obtain ⟨hsc, hdead, hread⟩ := hsum
    refine ⟨s, w, hs, hw, hsc, fun s' hl => (worker_terminates.2.2 s s' 0 w hs hl hw).1 ?_⟩
    rw [WorkerProcess.Hangs, hsc]
    exact ⟨hdead, hread⟩

end Pynvme
