import Pynvme.Ioworker.Entry

/-!
# What a step of an ioworker does

Every step of the loop is of one of three kinds (`ioworkerStep_cases`): it sends an
IO (`Sends`), it processes a completion (`Completes`), or it moves on, and leaves
the queues, the counters and the records as they are (`MovesOn`).

The settings of a worker, in its arguments and its global context, never change
(`Worker.settings`).
-/

namespace Pynvme

open Word

variable {w w' : Worker} {e : IowEvent} {k : Nat} {status : Status} {now now' : Timeval}

/-! ### Settings and control -/

/-- The arguments without the outputs. -/
def Args.settings (args : Args) : Args :=
  { args with
    ioCounterPerSecond := none
    ioCounterPerLatency := none
    cmdlogList := []
    opList := [] }

/-- What of the global context decides which IOs are sent; the rest is statistics. -/
structure Control where
  dueTime : Timeval
  ioSequence : Option (List IoSeq)
  distribution : Bool
  dlTable : List Section
  slTable : List Nat
  sequentialLba : Nat
  ioSequenceIndex : Nat
  ioCountSent : Nat
  ioCountCplt : Nat
  flagFinish : Bool
  pendingIoList : List Nat

/-- The control of a global context. -/
def Gctx.control (g : Gctx) : Control where
  dueTime := g.dueTime
  ioSequence := g.ioSequence
  distribution := g.distribution
  dlTable := g.dlTable
  slTable := g.slTable
  sequentialLba := g.sequentialLba
  ioSequenceIndex := g.ioSequenceIndex
  ioCountSent := g.ioCountSent
  ioCountCplt := g.ioCountCplt
  flagFinish := g.flagFinish
  pendingIoList := g.pendingIoList

/-- What of a worker never changes. -/
structure Settings where
  env : Env
  args : Args
  seconds : Nat
  dueTime : Timeval
  ioSequence : Option (List IoSeq)
  distribution : Bool
  dlTable : List Section
  slTable : List Nat

/-- The settings of a worker: its arguments, but for the outputs, its due time, its
    sequence and its lookup tables. -/
def Worker.settings (w : Worker) : Settings where
  env := w.env
  args := w.args.settings
  seconds := w.seconds
  dueTime := w.g.dueTime
  ioSequence := w.g.ioSequence
  distribution := w.g.distribution
  dlTable := w.g.dlTable
  slTable := w.g.slTable

theorem Worker.settings_eq (henv : w'.env = w.env) (hargs : w'.args.settings = w.args.settings)
    (hseconds : w'.seconds = w.seconds) {lba index sent cplt : Nat} {flag : Bool} {l : List Nat}
    (hcontrol : w'.g.control = { w.g.control with
      sequentialLba := lba
      ioSequenceIndex := index
      ioCountSent := sent
      ioCountCplt := cplt
      flagFinish := flag
      pendingIoList := l }) : w'.settings = w.settings := by
  simp only [Gctx.control, Control.mk.injEq] at hcontrol
  obtain ⟨hdue, hseq, hdist, hdl, hsl, -⟩ := hcontrol
  simp only [Worker.settings, henv, hargs, hseconds, hdue, hseq, hdist, hdl, hsl]

/-! ### Completions -/

/-- There is an entry left to replay. -/
def Gctx.replays (g : Gctx) : Bool := g.ioSequence.any fun seq => g.ioSequenceIndex < seq.length

/-- The index after a context took the next entry, if there is one. -/
def Gctx.nextIndex (g : Gctx) : Nat :=
  if g.replays then g.ioSequenceIndex + 1 else g.ioSequenceIndex

theorem ioworkerNextIo_spec {g g' : Gctx} {ctx ctx' : IoCtx}
    (h : ioworkerNextIo g ctx = (g', ctx')) :
    g'.control = { g.control with ioSequenceIndex := g.nextIndex } ∧
      (g.replays → ctx'.ioSequenceIndex = g.ioSequenceIndex) := by
  rw [ioworkerNextIo] at h
  split at h
  · rename_i seq hseq
    split at h
    · rename_i e he
      cases h
      have hlt : g.ioSequenceIndex < seq.length := (List.getElem?_eq_some_iff.1 he).1
      have hrep : g.replays = true := by simp [Gctx.replays, hseq, hlt]
      exact ⟨by simp [Gctx.control, Gctx.nextIndex, hrep], fun _ => rfl⟩
    · rename_i he
      cases h
      have hrep : g.replays = false := by
        simp [Gctx.replays, hseq, List.getElem?_eq_none_iff.1 he]
      exact ⟨by simp [Gctx.control, Gctx.nextIndex, hrep], by simp [hrep]⟩
  · rename_i hseq
    have hrep : g.replays = false := by simp [Gctx.replays, hseq]
    split_ifs at h <;> cases h <;>
      exact ⟨by simp [Gctx.control, Gctx.nextIndex, hrep], by simp [hrep]⟩

theorem ioworkerUpdateIoCountPerSecond_spec {args args' : Args} {rets : Rets} {g g' : Gctx}
    (h : ioworkerUpdateIoCountPerSecond args rets g now = (args', g')) :
    args'.settings = args.settings ∧ g'.control = g.control := by
  rw [ioworkerUpdateIoCountPerSecond] at h
  split at h
  · cases h
    exact ⟨rfl, rfl⟩
  · split_ifs at h <;> cases h <;> exact ⟨rfl, rfl⟩

theorem ioworkerLogCmd_spec {args args' : Args} {g g' : Gctx} {cmd : Cmdlog}
    (h : ioworkerLogCmd args g cmd = (args', g')) :
    args'.settings = args.settings ∧ g'.control = g.control := by
  simp only [ioworkerLogCmd] at h
  split_ifs at h <;> cases h <;> exact ⟨rfl, rfl⟩

/-- The error code after a completion: the first one is kept. -/
def Rets.errorAfter (rets : Rets) (status : Status) : Nat :=
  if status.isError ∧ rets.error = 0 then status.errorCode else rets.error

/-- What the first part of the callback does. -/
structure Counts (w w' : Worker) (k : Nat) (status : Status) : Prop where
  settings : w'.settings = w.settings
  control : w'.g.control = { w.g.control with
    ioCountCplt := u64 (w.g.ioCountCplt + 1)
    ioSequenceIndex := w.g.nextIndex }
  error : w'.rets.error = w.rets.errorAfter status
  ctxIndex : w.g.replays → (w'.ioCtx k).ioSequenceIndex = w.g.ioSequenceIndex
  other : ∀ i ≠ k, w'.ioCtx i = w.ioCtx i
  lost : w'.lost = w.lost
  issued : w'.issued = w.issued
  clock : w'.now = w.now

theorem ioworkerCountOne_counts (w : Worker) (k : Nat) (status : Status) (now : Timeval) :
    Counts w (ioworkerCountOne w k status now) k status := by
  simp only [ioworkerCountOne]
  generalize hr : ioworkerUpdateRets (w.ioCtx k) w.rets now = r
  obtain ⟨latency, rets⟩ := r
  have herr : rets.error = w.rets.error := by
    cases hr
    rfl
  dsimp only
  generalize hn : ioworkerNextIo _ (w.ioCtx k) = p
  obtain ⟨g, ctx⟩ := p
  obtain ⟨hg, hctx⟩ := ioworkerNextIo_spec hn
  dsimp only
  generalize hs : ioworkerUpdateIoCountPerSecond _ _ g now = q
  obtain ⟨args, g'⟩ := q
  obtain ⟨hargs, hg'⟩ := ioworkerUpdateIoCountPerSecond_spec hs
  refine ⟨Worker.settings_eq rfl hargs rfl (hg'.trans hg), hg'.trans hg, ?_, ?_, ?_, rfl, rfl, rfl⟩
  · simp only [herr]
    rfl
  · intro hrep
    simpa only [Function.update_self] using hctx hrep
  · exact fun i hi => Function.update_of_ne hi _ _

/-- The finish flag is set at the end of the sequence, at the end of the count, or
    after the due time. -/
theorem ioworkerSendOneIsFinish_eq_ok {args : Args} {g : Gctx} {finish : Bool}
    (h : ioworkerSendOneIsFinish args g now = .ok finish) :
    finish = true ↔ (∃ seq ∈ g.ioSequence, seq.length ≤ g.ioSequenceIndex) ∨
      g.ioCountSent = args.ioCount ∨ (g.ioCountSent < args.ioCount ∧ now.gt g.dueTime = true) := by
  rw [ioworkerSendOneIsFinish] at h
  split_ifs at h with hseq hcount hlt
  · cases h
    exact ⟨fun _ => .inl hseq, fun _ => rfl⟩
  · cases h
    exact ⟨fun _ => .inr (.inl hcount), fun _ => rfl⟩
  · cases h
    rw [or_iff_right hseq, or_iff_right hcount, and_iff_right hlt]

theorem ioworkerSendOneIsFinish_eq_error {args : Args} {g : Gctx} {why : Abort}
    (h : ioworkerSendOneIsFinish args g now = .error why) :
    why = .isFinish ∧ args.ioCount < g.ioCountSent := by
  rw [ioworkerSendOneIsFinish] at h
  split_ifs at h
  cases h
  exact ⟨rfl, by omega⟩

theorem ioworkerQueueOne_spec (w : Worker) (k : Nat) (finish : Bool) :
    (ioworkerQueueOne w k finish).settings = w.settings ∧
      (ioworkerQueueOne w k finish).g.control = { w.g.control with
        flagFinish := finish
        ioCountSent := if finish then w.g.ioCountSent else u64 (w.g.ioCountSent + 1)
        pendingIoList := if finish then w.g.pendingIoList else w.g.pendingIoList ++ [k] } := by
  rw [ioworkerQueueOne]
  dsimp only
  generalize hl : ioworkerLogCmd w.args _ _ = r
  obtain ⟨args, g⟩ := r
  obtain ⟨hargs, hg⟩ := ioworkerLogCmd_spec hl
  exact ⟨Worker.settings_eq rfl hargs rfl hg, hg⟩

/-- What a callback does. -/
structure Completes (w w' : Worker) (k : Nat) (status : Status) (now now' : Timeval) : Prop where
  settings : w'.settings = w.settings
  control : w'.g.control = { w.g.control with
    ioCountCplt := u64 (w.g.ioCountCplt + 1)
    ioSequenceIndex := w.g.nextIndex
    flagFinish := w'.g.flagFinish
    ioCountSent := if w'.g.flagFinish then w.g.ioCountSent else u64 (w.g.ioCountSent + 1)
    pendingIoList := if w'.g.flagFinish then w.g.pendingIoList else w.g.pendingIoList ++ [k] }
  finishes : w.g.flagFinish = true ∨ status.isError = true → w'.g.flagFinish = true
  decides : w.g.flagFinish = false → status.isError = false →
    (w'.g.flagFinish = true ↔ (∃ seq ∈ w.g.ioSequence, seq.length ≤ w.g.nextIndex) ∨
      w.g.ioCountSent = w.args.ioCount ∨
      (w.g.ioCountSent < w.args.ioCount ∧ now'.gt w.g.dueTime = true))
  error : w'.rets.error = w.rets.errorAfter status
  ctxIndex : w.g.replays → (w'.ioCtx k).ioSequenceIndex = w.g.ioSequenceIndex
  other : ∀ i ≠ k, w'.ioCtx i = w.ioCtx i
  inFlight : w'.inFlight = w.inFlight.erase k
  lost : w'.lost = w.lost
  issued : w'.issued = w.issued
  completions : w'.completions = w.completions ++ [⟨k, status, now, now'⟩]
  clock : w'.now = w.now

theorem ioworkerOneCb_eq_ok (h : ioworkerOneCb w k status now now' = .ok w') :
    Completes w w' k status now now' := by
  obtain ⟨finish, hf, hw⟩ := Except.bind_eq_ok.1 h
  obtain rfl := Except.pure_eq_ok.1 hw
  have hc := ioworkerCountOne_counts w k status now
  obtain ⟨hset, hcontrol⟩ := ioworkerQueueOne_spec (ioworkerCountOne w k status now) k finish
  generalize ioworkerCountOne w k status now = c at *
  have hflag : (ioworkerQueueOne c k finish).g.flagFinish = finish :=
    congrArg Control.flagFinish hcontrol
  have hcg := hc.control
  simp only [Gctx.control, Control.mk.injEq] at hcg
  obtain ⟨hdue, hseq, -, -, -, -, hindex, hsent, hcplt, hfin, hpending⟩ := hcg
  have hcount : c.args.ioCount = w.args.ioCount :=
    (congrArg (fun s => s.args.ioCount) hc.settings :)
  rw [ioworkerIsFinished, hfin] at hf
  constructor
  case settings => exact hset.trans hc.settings
  case control => rw [hflag, hcontrol, hc.control, hsent, hpending]
  case finishes =>
    intro hor
    have hor' : (w.g.flagFinish || status.isError) = true := by simpa using hor
    rw [if_pos hor'] at hf
    exact hflag.trans (Except.ok.inj hf).symm
  case decides =>
    intro hw hst
    rw [if_neg (by simp [hw, hst])] at hf
    have hiff := ioworkerSendOneIsFinish_eq_ok hf
    rwa [← hflag, hseq, hindex, hsent, hcount, hdue] at hiff
  case error => exact hc.error
  case ctxIndex => exact hc.ctxIndex
  case other => exact hc.other
  case lost => exact hc.lost
  case issued => exact hc.issued
  case clock => exact hc.clock
  all_goals rfl

/-- A callback fails only by the assertion on the count. -/
theorem ioworkerOneCb_eq_error {why : Abort} (h : ioworkerOneCb w k status now now' = .error why) :
    why = .isFinish ∧ w.args.ioCount < w.g.ioCountSent := by
  have hc := ioworkerCountOne_counts w k status now
  rw [ioworkerOneCb] at h
  generalize ioworkerCountOne w k status now = c at *
  have hcount : c.args.ioCount = w.args.ioCount :=
    (congrArg (fun s => s.args.ioCount) hc.settings :)
  have hsent : c.g.ioCountSent = w.g.ioCountSent := congrArg Control.ioCountSent hc.control
  rcases hf : ioworkerIsFinished c.args c.g status now' with why' | finish
  · obtain rfl : why' = why := by simpa [hf, bind, Except.bind] using h
    rw [ioworkerIsFinished] at hf
    split_ifs at hf
    rw [← hcount, ← hsent]
    exact ioworkerSendOneIsFinish_eq_error hf
  · simp [hf, bind, Except.bind, pure, Except.pure] at h

/-! ### Sending -/

/-- What the sending of the context `k` does. -/
structure Sends (w w' : Worker) (k : Nat) (now : Timeval) (table : Nat → BitVec 32) (d : Draws)
    (p : Prepared) (rc : Int) : Prop where
  pc : w.pc = .head
  headIo : w.headIo = some k
  prepared : ioworkerSendOnePrepare (w.nsWith table) w.args w.g (w.ioCtx k) d = .ok p
  pc' : w'.pc = .sent
  settings : w'.settings = w.settings
  control : w'.g.control = { w.g.control with
    sequentialLba := p.sequentialLba
    flagFinish := w.g.flagFinish || decide (rc ≠ 0)
    pendingIoList := w.g.pendingIoList.tail }
  index : ∀ i, (w'.ioCtx i).ioSequenceIndex = (w.ioCtx i).ioSequenceIndex
  error : w'.rets.error = w.rets.error
  inFlight : w'.inFlight = if rc ≠ 0 then w.inFlight else w.inFlight ++ [k]
  lost : w'.lost = if rc ≠ 0 then w.lost ++ [k] else w.lost
  issued : w'.issued = w.issued ++ [(p, rc)]
  completions : w'.completions = w.completions
  clock : w'.now = now

/-- The reading of the clock in a step of the loop. -/
def IowEvent.clock : IowEvent → Option Timeval
  | .send now _ _ _ _ _ => some now
  | .poll now => some now
  | _ => none

/-- What a step keeps that neither sends nor completes. -/
structure Keeps (w w' : Worker) : Prop where
  settings : w'.settings = w.settings
  control : w'.g.control = w.g.control
  ioCtx : w'.ioCtx = w.ioCtx
  error : w'.rets.error = w.rets.error
  inFlight : w'.inFlight = w.inFlight
  lost : w'.lost = w.lost
  issued : w'.issued = w.issued
  completions : w'.completions = w.completions

/-- A step that neither sends nor completes: it keeps all of these, sets the head of
    the pending list at the head of the loop, leaves the loop with success only when
    that does not continue, and is aborted for the reasons given. -/
structure MovesOn (w w' : Worker) (e : IowEvent) : Prop extends Keeps w w' where
  headIo : w'.pc = .head → w'.headIo = w.g.pendingIoList.head?
  refused : ∀ ret, w'.pc ≠ .refused ret
  exited : ∀ ret, w'.pc = .exited ret → ret ≠ 0 ∨ (ret = 0 ∧ w.pc = .head ∧ ¬w.Continues)
  clock : w'.now = e.clock.getD w.now
  leaves : w.pc = .head → e.clock = none → ¬w.Continues
  aborted : ∀ why, w'.pc = .aborted why →
    why = .divisionByZero ∨
      (((why = .duration ∧ w.now.gt w.env.testStart = false) ∨ (why = .now ∧ w.now.sec = 0)) ∧
        (w.pc = .sent ∨ (w.pc = .head ∧ ¬w.Continues))) ∨
      (why = .isFinish ∧ w.args.ioCount < w.g.ioCountSent) ∨
      ∃ k now table d rc timeSent after, w.pc = .head ∧ w.headIo = some k ∧
        e = .send now table d rc timeSent after ∧
        ioworkerSendOnePrepare (w.nsWith table) w.args w.g (w.ioCtx k) d = .error why

theorem ioworkerGetDuration_eq_error {start : Timeval} {why : Abort}
    (h : ioworkerGetDuration start now = .error why) : why = .duration ∧ now.gt start = false := by
  rw [ioworkerGetDuration] at h
  split_ifs at h with hgt
  exact ⟨(Except.error.inj h).symm, Bool.eq_false_of_not_eq_true hgt⟩

/-- The end of the loop keeps what counts, and may be aborted. -/
theorem ioworkerFinal_spec (w : Worker) (ret : Int) :
    Keeps w (ioworkerFinal w ret) ∧ (ioworkerFinal w ret).now = w.now ∧
      ((ioworkerFinal w ret).pc = .exited ret ∨
        ∃ why, (ioworkerFinal w ret).pc = .aborted why ∧
          (why = .divisionByZero ∨ (why = .duration ∧ w.now.gt w.env.testStart = false) ∨
            (why = .now ∧ w.now.sec = 0))) := by
  rw [ioworkerFinal]
  split_ifs with hnow
  · exact ⟨⟨rfl, rfl, rfl, rfl, rfl, rfl, rfl, rfl⟩, rfl, .inr ⟨_, rfl, .inr (.inr ⟨rfl, hnow⟩)⟩⟩
  · split
    · rename_i why hwhy
      exact ⟨⟨rfl, rfl, rfl, rfl, rfl, rfl, rfl, rfl⟩, rfl,
        .inr ⟨why, rfl, .inr (.inl (ioworkerGetDuration_eq_error hwhy))⟩⟩
    · dsimp only
      split_ifs
      · exact ⟨⟨rfl, rfl, rfl, rfl, rfl, rfl, rfl, rfl⟩, rfl, .inr ⟨_, rfl, .inl rfl⟩⟩
      · exact ⟨⟨rfl, rfl, rfl, rfl, rfl, rfl, rfl, rfl⟩, rfl, .inl rfl⟩

theorem ioworkerFinal_movesOn {ret : Int} (he : e.clock = none)
    (hpc : (ret ≠ 0 ∧ w.pc = .sent) ∨ (ret = 0 ∧ w.pc = .head ∧ ¬w.Continues)) :
    MovesOn w (ioworkerFinal w ret) e := by
  obtain ⟨hkeeps, hnow, hfinal⟩ := ioworkerFinal_spec w ret
  refine ⟨hkeeps, ?_, ?_, ?_, ?_, ?_, ?_⟩
  · intro h
    rcases hfinal with hf | ⟨why, hf, -⟩ <;> rw [hf] at h <;> cases h
  · intro ret' h
    rcases hfinal with hf | ⟨why, hf, -⟩ <;> rw [hf] at h <;> cases h
  · intro ret' h
    rcases hfinal with hf | ⟨why, hf, -⟩ <;> rw [hf] at h <;> cases h
    exact hpc.imp_left And.left
  · rw [hnow, he]
    rfl
  · intro hhead _
    rcases hpc with ⟨-, hsent⟩ | ⟨-, -, hstop⟩
    · rw [hsent] at hhead
      cases hhead
    · exact hstop
  · intro why' h
    rcases hfinal with hf | ⟨why, hf, hwhy⟩ <;> rw [hf] at h <;> cases h
    rcases hwhy with rfl | hclock
    · exact .inl rfl
    · exact .inr (.inl ⟨hclock, hpc.imp And.right And.right⟩)

/-- A step to another part of the iteration. -/
theorem MovesOn.of_pc {pc : Pc} (hpc : pc = .sent ∨ pc = .checked ∨ pc = .polling 0)
    (hnow : now = e.clock.getD w.now) (hleaves : w.pc = .head → e.clock = none → ¬w.Continues) :
    MovesOn w { w with now := now, pc := pc } e := by
  refine ⟨⟨rfl, rfl, rfl, rfl, rfl, rfl, rfl, rfl⟩, ?_, ?_, ?_, hnow, hleaves, ?_⟩ <;>
    rcases hpc with rfl | rfl | rfl <;> simp

/-- A step that is aborted. -/
theorem MovesOn.of_aborted {why : Abort} (hnow : now = e.clock.getD w.now)
    (hleaves : w.pc = .head → e.clock = none → ¬w.Continues)
    (haborted : why = .divisionByZero ∨
      (((why = .duration ∧ w.now.gt w.env.testStart = false) ∨ (why = .now ∧ w.now.sec = 0)) ∧
        (w.pc = .sent ∨ (w.pc = .head ∧ ¬w.Continues))) ∨
      (why = .isFinish ∧ w.args.ioCount < w.g.ioCountSent) ∨
      ∃ k now table d rc timeSent after, w.pc = .head ∧ w.headIo = some k ∧
        e = .send now table d rc timeSent after ∧
        ioworkerSendOnePrepare (w.nsWith table) w.args w.g (w.ioCtx k) d = .error why) :
    MovesOn w { w with now := now, pc := .aborted why } e := by
  refine ⟨⟨rfl, rfl, rfl, rfl, rfl, rfl, rfl, rfl⟩, by simp, by simp, by simp, hnow, hleaves, ?_⟩
  intro why' hwhy'
  obtain rfl := Pc.aborted.inj hwhy'
  exact haborted

theorem ioworkerSendOne_sends {table : Nat → BitVec 32} {d : Draws} {p : Prepared} {rc : Int}
    {timeSent cpuTime : Timeval} (hpc : w.pc = .head) (hk : w.headIo = some k)
    (hp : ioworkerSendOnePrepare (w.nsWith table) w.args w.g (w.ioCtx k) d = .ok p)
    (hw : ioworkerSendOne { w with now := now, pc := .sent } k p rc timeSent = w') :
    Sends w { w' with
      g := { w'.g with pendingIoList := w'.g.pendingIoList.tail }
      cpuTime := cpuTime } k now table d p rc := by
  have hctx : ∀ ctx : IoCtx, ctx.ioSequenceIndex = (w.ioCtx k).ioSequenceIndex → ∀ i,
      (Function.update w.ioCtx k ctx i).ioSequenceIndex = (w.ioCtx i).ioSequenceIndex := by
    intro ctx h i
    rcases eq_or_ne i k with rfl | hi
    · rw [Function.update_self, h]
    · rw [Function.update_of_ne hi]
  rw [ioworkerSendOne] at hw
  dsimp only at hw
  split_ifs at hw with hrc
  · obtain rfl := hw
    refine ⟨hpc, hk, hp, rfl, rfl, ?_, hctx _ rfl, rfl, (if_pos hrc).symm, (if_pos hrc).symm, rfl,
      rfl, rfl⟩
    simp [Gctx.control, hrc]
  · obtain rfl := hw
    refine ⟨hpc, hk, hp, rfl, rfl, ?_, hctx _ rfl, rfl, (if_neg hrc).symm, (if_neg hrc).symm, rfl,
      rfl, rfl⟩
    simp [Gctx.control, not_not.1 hrc]

/-! ### The steps -/

/-- The states after a step that may send: nothing is sent, the preparation is aborted, or an
    IO is passed to the driver. -/
theorem ioworkerStep_send_eq {table : Nat → BitVec 32} {d : Draws} {rc : Int}
    {timeSent after : Timeval}
    (h : ioworkerStep w (.send now table d rc timeSent after) = some w') :
    w.pc = .head ∧ (w' = { w with now := now, pc := .sent } ∨ ∃ k, w.headIo = some k ∧
      now.gt (w.ioCtx k).timeSent = true ∧
      ((∃ why, ioworkerSendOnePrepare (w.nsWith table) w.args w.g (w.ioCtx k) d = .error why ∧
        w' = { w with now := now, pc := .aborted why }) ∨
      ∃ p w₁, ioworkerSendOnePrepare (w.nsWith table) w.args w.g (w.ioCtx k) d = .ok p ∧
        ioworkerSendOne { w with now := now, pc := .sent } k p rc timeSent = w₁ ∧
        w' = { w₁ with
          g := { w₁.g with pendingIoList := w₁.g.pendingIoList.tail }
          cpuTime := ioworkerAddCpuTime now after w₁.cpuTime })) := by
  obtain ⟨⟨hpc, -⟩, h⟩ := Option.ite_none_right_eq_some.1 h
  refine ⟨hpc, ?_⟩
  dsimp only at h
  split at h
  · exact .inl (Option.some.inj h).symm
  · rename_i k hk
    split_ifs at h with hgt
    · refine .inr ⟨k, hk, hgt, ?_⟩
      split at h
      · rename_i why hwhy
        exact .inl ⟨why, hwhy, (Option.some.inj h).symm⟩
      · rename_i p hp
        exact .inr ⟨p, _, hp, rfl, (Option.some.inj h).symm⟩
    · exact .inl (Option.some.inj h).symm

/-- A step that may send is aborted when the IO, whose time has come, cannot be prepared. -/
theorem ioworkerStep_send_aborted {table : Nat → BitVec 32} {d : Draws} {rc : Int}
    {timeSent after : Timeval} {why : Abort}
    (h : ioworkerStep w (.send now table d rc timeSent after) = some w')
    (hpc : w'.pc = .aborted why) :
    ∃ k, w.headIo = some k ∧ now.gt (w.ioCtx k).timeSent = true ∧
      ioworkerSendOnePrepare (w.nsWith table) w.args w.g (w.ioCtx k) d = .error why := by
  obtain ⟨-, rfl | ⟨k, hk, hgt, ⟨why', hwhy, rfl⟩ | ⟨p, w₁, -, rfl, rfl⟩⟩⟩ := ioworkerStep_send_eq h
  · cases hpc
  · cases hpc
    exact ⟨k, hk, hgt, hwhy⟩
  · rw [ioworkerSendOne] at hpc
    dsimp only at hpc
    split_ifs at hpc

/-- The states after the check of the time and of the signal to terminate. -/
theorem ioworkerStep_check_eq {terminate : Bool}
    (h : ioworkerStep w (.check terminate) = some w') :
    w.pc = .sent ∧ ((∃ why, ioworkerGetDuration w.env.testStart w.now = .error why ∧
        w' = { w with pc := .aborted why }) ∨
      (∃ ret, ret ≠ 0 ∧ w' = ioworkerFinal w ret) ∨ w' = { w with pc := .checked }) := by
  obtain ⟨hpc, h⟩ := Option.ite_none_right_eq_some.1 h
  refine ⟨hpc, ?_⟩
  split at h
  · rename_i why hwhy
    exact .inl ⟨why, hwhy, (Option.some.inj h).symm⟩
  · split_ifs at h
    · exact .inr (.inl ⟨-4, by decide, (Option.some.inj h).symm⟩)
    · exact .inr (.inl ⟨-7, by decide, (Option.some.inj h).symm⟩)
    · exact .inr (.inr (Option.some.inj h).symm)

/-- The states after a completion: its callback is aborted, or returns. -/
theorem ioworkerStep_complete_eq (h : ioworkerStep w (.complete k status now now') = some w') :
    ∃ n, w.pc = .polling n ∧ k ∈ w.inFlight ∧
      ((∃ why, ioworkerOneCb w k status now now' = .error why ∧
        w' = { w with pc := .aborted why }) ∨
      ∃ w₁, ioworkerOneCb w k status now now' = .ok w₁ ∧
        w' = { w₁ with pc := .polling (n + 1) }) := by
  rw [ioworkerStep] at h
  split at h
  · rename_i n hn
    obtain ⟨hk, h⟩ := Option.ite_none_right_eq_some.1 h
    refine ⟨n, hn, hk, ?_⟩
    split at h
    · rename_i why hwhy
      exact .inl ⟨why, hwhy, (Option.some.inj h).symm⟩
    · rename_i w₁ hw₁
      exact .inr ⟨w₁, hw₁, (Option.some.inj h).symm⟩
  · cases h

/-- The state after the last completion of an iteration. -/
theorem ioworkerStep_next_eq {after : Timeval} (h : ioworkerStep w (.next after) = some w') :
    ∃ n, w.pc = .polling n ∧ w' = { w with
      cpuTime := if n = 0 then w.cpuTime else ioworkerAddCpuTime w.now after w.cpuTime
      headIo := w.g.pendingIoList.head?
      pc := .head } := by
  rw [ioworkerStep] at h
  split at h
  · rename_i n hn
    exact ⟨n, hn, (Option.some.inj h).symm⟩
  · cases h

theorem ioworkerStep_send {table : Nat → BitVec 32} {d : Draws} {rc : Int}
    {timeSent after : Timeval}
    (h : ioworkerStep w (.send now table d rc timeSent after) = some w') :
    (∃ k p, Sends w w' k now table d p rc) ∨
      MovesOn w w' (.send now table d rc timeSent after) := by
  obtain ⟨hpc, rfl | ⟨k, hk, -, ⟨why, hwhy, rfl⟩ | ⟨p, w₁, hp, hw₁, rfl⟩⟩⟩ := ioworkerStep_send_eq h
  · exact .inr (.of_pc (.inl rfl) rfl (by simp [IowEvent.clock]))
  · exact .inr (.of_aborted rfl (by simp [IowEvent.clock])
      (.inr (.inr (.inr ⟨k, _, _, _, _, _, _, hpc, hk, rfl, hwhy⟩))))
  · exact .inl ⟨k, p, ioworkerSendOne_sends hpc hk hp hw₁⟩

theorem ioworkerStep_check {terminate : Bool} (h : ioworkerStep w (.check terminate) = some w') :
    MovesOn w w' (.check terminate) := by
  obtain ⟨hpc, ⟨why, hwhy, rfl⟩ | ⟨ret, hret, rfl⟩ | rfl⟩ := ioworkerStep_check_eq h
  · exact .of_aborted rfl (by simp [hpc])
      (.inr (.inl ⟨.inl (ioworkerGetDuration_eq_error hwhy), .inl hpc⟩))
  · exact ioworkerFinal_movesOn rfl (.inl ⟨hret, hpc⟩)
  · exact .of_pc (.inr (.inl rfl)) rfl (by simp [hpc])

theorem ioworkerStep_complete (h : ioworkerStep w (.complete k status now now') = some w') :
    (k ∈ w.inFlight ∧ (∃ n, w.pc = .polling n ∧ w'.pc = .polling (n + 1)) ∧
      Completes w w' k status now now') ∨ MovesOn w w' (.complete k status now now') := by
  obtain ⟨n, hn, hk, ⟨why, hwhy, rfl⟩ | ⟨w₁, hw₁, rfl⟩⟩ := ioworkerStep_complete_eq h
  · exact .inr (.of_aborted rfl (by simp [hn]) (.inr (.inr (.inl (ioworkerOneCb_eq_error hwhy)))))
  · have hc := ioworkerOneCb_eq_ok hw₁
    exact .inl ⟨hk, ⟨n, hn, rfl⟩, hc.settings, hc.control, hc.finishes, hc.decides, hc.error,
      hc.ctxIndex, hc.other, hc.inFlight, hc.lost, hc.issued, hc.completions, hc.clock⟩

/-- What a step can do. -/
theorem ioworkerStep_cases (h : ioworkerStep w e = some w') :
    (∃ k now table d rc timeSent after p, e = .send now table d rc timeSent after ∧
      Sends w w' k now table d p rc) ∨
    (∃ k status now now' n, e = .complete k status now now' ∧ k ∈ w.inFlight ∧
      w.pc = .polling n ∧ w'.pc = .polling (n + 1) ∧ Completes w w' k status now now') ∨
    MovesOn w w' e := by
  cases e with
  | send now table d rc timeSent after =>
    rcases ioworkerStep_send h with ⟨k, p, hs⟩ | hm
    · exact .inl ⟨k, now, table, d, rc, timeSent, after, p, rfl, hs⟩
    · exact .inr (.inr hm)
  | check terminate => exact .inr (.inr (ioworkerStep_check h))
  | poll now =>
    obtain ⟨-, ⟨⟩⟩ := Option.ite_none_right_eq_some.1 h
    exact .inr (.inr (.of_pc (.inr (.inr rfl)) rfl (by simp [IowEvent.clock])))
  | complete k status now now' =>
    rcases ioworkerStep_complete h with ⟨hk, ⟨n, hn, hn'⟩, hc⟩ | hm
    · exact .inr (.inl ⟨k, status, now, now', n, rfl, hk, hn, hn', hc⟩)
    · exact .inr (.inr hm)
  | next after =>
    obtain ⟨n, hn, rfl⟩ := ioworkerStep_next_eq h
    refine .inr (.inr ⟨⟨rfl, rfl, rfl, rfl, rfl, rfl, rfl, rfl⟩, fun _ => rfl, ?_, ?_, rfl, ?_,
      ?_⟩)
    all_goals simp [hn]
  | leave =>
    obtain ⟨hpc, ⟨⟩⟩ := Option.ite_none_right_eq_some.1 h
    exact .inr (.inr (ioworkerFinal_movesOn rfl (.inr ⟨rfl, hpc⟩)))

/-! ### Aborted steps -/

/-- But for the asserts on the clock and on the count, and the division of the report, a step
    is aborted only where an IO is prepared. -/
theorem MovesOn.prepare_of_aborted {why : Abort} (h : MovesOn w w' e)
    (hpc : w'.pc = .aborted why) (hwhy : why ∉ [.divisionByZero, .duration, .now, .isFinish]) :
    ∃ k now table d rc timeSent after, w.pc = .head ∧ w.headIo = some k ∧
      e = .send now table d rc timeSent after ∧
      ioworkerSendOnePrepare (w.nsWith table) w.args w.g (w.ioCtx k) d = .error why := by
  rcases h.aborted why hpc with rfl | ⟨⟨rfl, -⟩ | ⟨rfl, -⟩, -⟩ | ⟨rfl, -⟩ | hprepare
  · exact absurd (by decide) hwhy
  · exact absurd (by decide) hwhy
  · exact absurd (by decide) hwhy
  · exact absurd (by decide) hwhy
  · exact hprepare

theorem ioworkerStep_prepare_of_aborted {why : Abort} (h : ioworkerStep w e = some w')
    (hpc : w'.pc = .aborted why) (hwhy : why ∉ [.divisionByZero, .duration, .now, .isFinish]) :
    ∃ k now table d rc timeSent after, w.pc = .head ∧ w.headIo = some k ∧
      e = .send now table d rc timeSent after ∧
      ioworkerSendOnePrepare (w.nsWith table) w.args w.g (w.ioCtx k) d = .error why := by
  rcases ioworkerStep_cases h with ⟨_, _, _, _, _, _, _, _, -, hsends⟩ |
    ⟨_, _, _, _, _, -, -, -, hn, -⟩ | hm
  · cases hsends.pc'.symm.trans hpc
  · cases hn.symm.trans hpc
  · exact hm.prepare_of_aborted hpc hwhy

end Pynvme
