import Pynvme.Ioworker.History
import Pynvme.Lib.Ring
import Mathlib.Data.List.Rotate

/-!
# The log of the commands of an ioworker

A worker keeps the latest of its commands in `cmdlog_list`, a ring: the callback of a
completion writes the command of its IO to the next slot, and the index wraps only when
it is used again, so that it may rest at the length of the list. When the worker
returns, the list is rotated by the index.

`cmdlog_list_latest`: what is returned are the latest commands in the order of their
completion, after as many zero entries as there is room left, and nothing is written
outside of the list.
-/

namespace Pynvme

open Word

/-! ### The ring -/

/-- The entry of the log for an IO. -/
def SentIo.cmd (x : SentIo) : Cmdlog :=
  ⟨x.prepared.io.lba, x.prepared.io.count, x.prepared.io.opcode⟩

/-- The entry of the log for an IO that has completed. -/
def DoneIo.cmd (x : DoneIo) : Cmdlog := x.sent.cmd

/-- The slot of a log that is written next. -/
def cmdlogSlot (l : List Cmdlog) (index : Nat) : Nat := if index = l.length then 0 else index

variable {l : List Cmdlog} {index : Nat} {done : List DoneIo}

/-- The log, with its index, holds the commands of the IOs `done`. -/
structure LogOf (done : List DoneIo) (l : List Cmdlog) (index : Nat) : Prop where
  le : index ≤ l.length
  slot : cmdlogSlot l index = done.length % l.length
  holds : Ring.Holds l.length (fun x b => b = some x.cmd) (fun b => b = some ⟨0, 0, 0⟩)
    (fun j => l[j]?) done

theorem logOf_replicate (n : Nat) : LogOf [] (List.replicate n ⟨0, 0, 0⟩) 0 where
  le := Nat.zero_le _
  slot := by simp [cmdlogSlot]
  holds := Ring.holds_nil fun j hj => List.getElem?_replicate_of_lt (by simpa using hj)

theorem LogOf.slot_lt (h : LogOf done l index) (hpos : 0 < l.length) :
    cmdlogSlot l index < l.length := by
  rw [h.slot]
  exact Nat.mod_lt _ hpos

/-- The next command is written to its slot. -/
theorem LogOf.push (h : LogOf done l index) (hpos : 0 < l.length) (x : DoneIo) :
    LogOf (done ++ [x]) (l.set (cmdlogSlot l index) x.cmd) (cmdlogSlot l index + 1) := by
  have hlt := h.slot_lt hpos
  constructor
  case le =>
    rw [List.length_set]
    omega
  case slot =>
    rw [cmdlogSlot, List.length_set, h.slot, List.length_append, List.length_singleton]
    exact Ring.next_mod hpos done.length
  case holds =>
    have hmem : (fun j => (l.set (cmdlogSlot l index) x.cmd)[j]?) =
        Function.update (fun j => l[j]?) (done.length % l.length) (some x.cmd) := by
      funext j
      rw [← h.slot, List.getElem?_set]
      split_ifs with hj
      · rw [← hj, Function.update_self]
      · rw [Function.update_of_ne (Ne.symm hj)]
    rw [List.length_set, hmem]
    exact h.holds.push rfl

/-- Rotated by the index, the log lists the commands from the oldest on. -/
theorem LogOf.rotate (h : LogOf done l index) :
    l.drop index ++ l.take index = List.replicate (l.length - done.length) ⟨0, 0, 0⟩ ++
      (done.drop (done.length - l.length)).map DoneIo.cmd := by
  rw [← List.rotate_eq_drop_append_take h.le]
  refine List.ext_getElem? fun m => ?_
  rcases Nat.lt_or_ge m l.length with hm | hm
  · have hslot : (m + index) % l.length = (done.length + m) % l.length := by
      rw [← Nat.mod_add_mod done.length, ← h.slot, Nat.add_comm m, cmdlogSlot]
      split_ifs with hrest
      · rw [hrest, Nat.add_mod_left, Nat.zero_add]
      · rfl
    obtain ⟨hfresh, hwritten⟩ := h.holds.oldest hm
    rw [List.getElem?_rotate hm, hslot]
    rcases Nat.lt_or_ge (done.length + m) l.length with hlt | hge
    · rw [hfresh hlt, List.getElem?_append_left (by simp; omega),
        List.getElem?_replicate_of_lt (by omega)]
    · obtain ⟨x, hx, hcmd⟩ := hwritten hge
      rw [hcmd, List.getElem?_append_right (by simp; omega), List.length_replicate,
        List.getElem?_map, List.getElem?_drop,
        show done.length - l.length + (m - (l.length - done.length)) =
          done.length + m - l.length by omega, hx]
      rfl
  · rw [List.getElem?_eq_none (by simpa using hm), List.getElem?_eq_none (by simp; omega)]

/-! ### The steps -/

variable {env : Env} {args : Args} {w w' : Worker} {hist : History} {e : IowEvent} {k : Nat}
  {status : Status} {now now' timeSent after : Timeval} {table : Nat → BitVec 32} {d : Draws}
  {p : Prepared} {rc : Int}

/-- The log of a worker, with its index. -/
def Worker.log (w : Worker) : List Cmdlog × Nat := (w.args.cmdlogList, w.g.currentCmdlogIndex)

theorem ioworkerNextIo_log {g g' : Gctx} {ctx ctx' : IoCtx}
    (h : ioworkerNextIo g ctx = (g', ctx')) :
    g'.currentCmdlogIndex = g.currentCmdlogIndex ∧ ctx'.cmd = ctx.cmd := by
  rw [ioworkerNextIo] at h
  split at h
  · split at h <;> cases h <;> exact ⟨rfl, rfl⟩
  · split_ifs at h <;> cases h <;> exact ⟨rfl, rfl⟩

theorem ioworkerUpdateIoCountPerSecond_log {args args' : Args} {rets : Rets} {g g' : Gctx}
    (h : ioworkerUpdateIoCountPerSecond args rets g now = (args', g')) :
    args'.cmdlogList = args.cmdlogList ∧ g'.currentCmdlogIndex = g.currentCmdlogIndex := by
  rw [ioworkerUpdateIoCountPerSecond] at h
  split at h
  · cases h
    exact ⟨rfl, rfl⟩
  · split_ifs at h <;> cases h <;> exact ⟨rfl, rfl⟩

theorem ioworkerCountOne_log (w : Worker) (k : Nat) (status : Status) (now : Timeval) :
    (ioworkerCountOne w k status now).log = w.log ∧
      ((ioworkerCountOne w k status now).ioCtx k).cmd = (w.ioCtx k).cmd := by
  simp only [ioworkerCountOne]
  generalize hn : ioworkerNextIo _ (w.ioCtx k) = p
  obtain ⟨g, ctx⟩ := p
  obtain ⟨hindex, hcmd⟩ := ioworkerNextIo_log hn
  dsimp only
  generalize hs : ioworkerUpdateIoCountPerSecond _ _ g now = q
  obtain ⟨args, g'⟩ := q
  obtain ⟨hlist, hindex'⟩ := ioworkerUpdateIoCountPerSecond_log hs
  refine ⟨?_, ?_⟩
  · simp only [Worker.log, hlist, hindex', hindex]
  · rw [Function.update_self, hcmd]

/-- A completion writes the command of its IO to the log. -/
theorem ioworkerOneCb_log (h : ioworkerOneCb w k status now now' = .ok w')
    (hpos : 0 < w.args.cmdlogList.length) :
    w'.log = (w.args.cmdlogList.set (cmdlogSlot w.args.cmdlogList w.g.currentCmdlogIndex)
        (w.ioCtx k).cmd,
      cmdlogSlot w.args.cmdlogList w.g.currentCmdlogIndex + 1) := by
  obtain ⟨hlog, hcmd⟩ := ioworkerCountOne_log w k status now
  obtain ⟨hlist, hindex⟩ := Prod.mk.inj hlog
  obtain ⟨finish, -, hw⟩ := Except.bind_eq_ok.1 h
  obtain rfl := Except.pure_eq_ok.1 hw
  simp only [ioworkerQueueOne, ioworkerLogCmd, Worker.log, hlist, hindex, hcmd,
    if_pos (Nat.ne_of_gt hpos)]
  rfl

/-- The end of the loop rotates the log. -/
theorem ioworkerFinal_log (w : Worker) (ret : Int) :
    ((ioworkerFinal w ret).log = w.log ∧ ∀ ret', (ioworkerFinal w ret).pc ≠ .exited ret') ∨
      ((ioworkerFinal w ret).pc = .exited ret ∧ (ioworkerFinal w ret).log =
        (w.args.cmdlogList.drop w.g.currentCmdlogIndex ++
          w.args.cmdlogList.take w.g.currentCmdlogIndex, w.g.currentCmdlogIndex)) := by
  rw [ioworkerFinal]
  split_ifs
  · exact .inl ⟨rfl, by simp⟩
  · split
    · exact .inl ⟨rfl, by simp⟩
    · dsimp only
      split_ifs
      · exact .inl ⟨rfl, by simp⟩
      · exact .inr ⟨rfl, rfl⟩

/-- The log of a worker with this history: the IOs in flight are those to log, and the list
    is the ring, which is rotated when the worker has returned. -/
structure Logged (args : Args) (w : Worker) (hist : History) : Prop where
  flight : ∀ k ∈ w.inFlight, ∀ x, hist.sent k = some x → (w.ioCtx k).cmd = x.cmd
  ring : ∃ l, l.length = args.cmdlogList.length ∧ LogOf hist.done l w.g.currentCmdlogIndex ∧
    ((∀ ret, w.pc ≠ .exited ret) → w.args.cmdlogList = l) ∧
    ∀ ret, w.pc = .exited ret →
      w.args.cmdlogList = l.drop w.g.currentCmdlogIndex ++ l.take w.g.currentCmdlogIndex

/-- Where the log is not written, it stays or is rotated. -/
theorem Logged.of_quiet (h : Logged args w hist) (hstep : ioworkerStep w e = some w')
    (he : ∀ k status now now', e ≠ .complete k status now now') {hist' : History}
    (hdone : hist'.done = hist.done)
    (hflight : ∀ k ∈ w'.inFlight, ∀ x, hist'.sent k = some x → (w'.ioCtx k).cmd = x.cmd) :
    Logged args w' hist' := by
  obtain ⟨l, hlen, hring, hlist, -⟩ := h.ring
  have hrun : ∀ ret, w.pc ≠ .exited ret := by
    intro ret hpc
    rw [ioworkerStep_exited hpc] at hstep
    cases hstep
  refine ⟨hflight, l, hlen, ?_⟩
  rw [hdone]
  rcases ioworkerStep_frame hstep he with ⟨ret, rfl⟩ | ⟨hargs, -, ⟨lba, flag, pending, hg⟩, hpc⟩
  · rcases ioworkerFinal_log w ret with ⟨hlog, hpc⟩ | ⟨hpc, hlog⟩
    · obtain ⟨hlist', hindex⟩ := Prod.mk.inj hlog
      rw [hindex, hlist']
      exact ⟨hring, fun _ => hlist hrun, fun ret' h => absurd h (hpc ret')⟩
    · obtain ⟨hlist', hindex⟩ := Prod.mk.inj hlog
      rw [hindex, hlist', hlist hrun]
      exact ⟨hring, fun h => absurd hpc (h ret), fun _ _ => rfl⟩
  · rw [hg, hargs]
    exact ⟨hring, fun _ => hlist hrun, fun ret h => absurd h (hpc ret)⟩

theorem Logged.sends (h : Logged args w hist) (hw : Accounted w)
    (hstep : ioworkerStep w (.send now table d rc timeSent after) = some w')
    (hs : Sends w w' k now table d p rc) :
    Logged args w' (hist.record w (.send now table d rc timeSent after) w') := by
  obtain ⟨hsent, hdone⟩ := hist.record_of_sends timeSent after hs
  obtain ⟨hother, -, -, hcmd⟩ := ioworkerStep_send_ioCtx hstep hs
  refine h.of_quiet hstep (by simp) hdone fun i hi x hx => ?_
  rw [hs.inFlight] at hi
  rw [hsent] at hx
  by_cases hrc : rc = 0
  · rw [if_neg (not_not.2 hrc), List.mem_append, List.mem_singleton] at hi
    rw [if_pos hrc] at hx
    rcases eq_or_ne i k with rfl | hik
    · rw [Function.update_self] at hx
      obtain rfl := Option.some.inj hx
      exact hcmd
    · rw [Function.update_of_ne hik] at hx
      rw [hother i hik]
      exact h.flight i (hi.resolve_right hik) x hx
  · rw [if_pos hrc] at hi
    rw [if_neg hrc] at hx
    have hik : i ≠ k := fun hik => hs.notMem_inFlight hw (hik ▸ hi)
    rw [hother i hik]
    exact h.flight i hi x hx

theorem Logged.completes (h : Logged args w hist) (hrec : Recorded args w hist)
    (hw : Accounted w) (hpos : 0 < args.cmdlogList.length)
    (hstep : ioworkerStep w (.complete k status now now') = some w') (hk : k ∈ w.inFlight)
    (hc : Completes w w' k status now now') :
    Logged args w' (hist.record w (.complete k status now now') w') := by
  obtain ⟨x, hx, -⟩ := hrec.flight k hk
  obtain ⟨hsent, hdone⟩ := History.record_of_completes hc hx
  constructor
  case flight =>
    rw [hc.inFlight, hsent]
    intro i hi
    have hik : i ≠ k := fun hik => hw.nodup_inFlight.not_mem_erase (hik ▸ hi)
    rw [hc.other i hik]
    exact h.flight i (List.mem_of_mem_erase hi)
  case ring =>
    obtain ⟨l, hlen, hring, hlist, -⟩ := h.ring
    obtain ⟨n, hpc, -, ⟨why, -, rfl⟩ | ⟨w₁, hcb, rfl⟩⟩ := ioworkerStep_complete_eq hstep
    · -- Nothing completes in a callback that is aborted.
      have hnil := congrArg List.length hc.completions
      simp at hnil
    · have hl : w.args.cmdlogList = l := hlist (by simp [hpc])
      have hlog := ioworkerOneCb_log hcb (by rw [hl, hlen]; exact hpos)
      obtain ⟨hlist', hindex⟩ := Prod.mk.inj hlog
      rw [hl, h.flight k hk x hx] at hlist'
      rw [hl] at hindex
      refine ⟨_, (List.length_set ..).trans hlen, ?_, fun _ => hlist', by simp⟩
      rw [hdone]
      dsimp only
      rw [hindex]
      exact hring.push (hlen ▸ hpos) ⟨k, x, now⟩

theorem Logged.movesOn (h : Logged args w hist) (hstep : ioworkerStep w e = some w')
    (hm : MovesOn w w' e) : Logged args w' (hist.record w e w') := by
  obtain ⟨hsent, hdone⟩ := hist.record_of_movesOn hm
  have hflight : ∀ k ∈ w'.inFlight, ∀ x, (hist.record w e w').sent k = some x →
      (w'.ioCtx k).cmd = x.cmd := by
    rw [hm.inFlight, hm.ioCtx, hsent]
    exact h.flight
  by_cases he : ∀ k status now now', e ≠ .complete k status now now'
  · exact h.of_quiet hstep he hdone hflight
  · push Not at he
    obtain ⟨k, status, now, now', rfl⟩ := he
    obtain ⟨n, hpc, -, ⟨why, -, rfl⟩ | ⟨w₁, hcb, rfl⟩⟩ := ioworkerStep_complete_eq hstep
    · obtain ⟨l, hlen, hring, hlist, -⟩ := h.ring
      exact ⟨hflight, l, hlen, hdone ▸ hring, fun _ => hlist (by simp [hpc]), by simp⟩
    · have hmore := congrArg List.length hm.completions
      simp [(ioworkerOneCb_eq_ok hcb).completions] at hmore

/-! ### The runs -/

/-- Nothing is logged before the loop. -/
theorem ioworkerStart_log (env : Env) (args : Args) :
    (ioworkerStart env args).log = (args.cmdlogList, 0) := by
  refine (ioworkerStart_induction (I := fun _ w => w.log = (args.cmdlogList, 0))
    env args ?_ ?_ ?_).elim fun _ h => h
  · exact fun _ _ _ _ _ _ _ _ _ _ => rfl
  · intro i w hw
    rw [ioworkerBatchOne]
    dsimp only
    split_ifs
    · exact hw
    · generalize hn : ioworkerNextIo w.g _ = r
      obtain ⟨g, ctx⟩ := r
      rw [← hw, Worker.log, Worker.log, ← (ioworkerNextIo_log hn).1]
  · exact fun _ _ _ hw => hw

theorem logged_of_reachable (hargs : args.Admitted) (hpos : 0 < args.cmdlogList.length)
    {P : Worker × History → IowEvent → Prop} {x : Worker × History}
    (h : (ioworkerHistory env args).Reachable P x) : Logged args x.1 x.2 := by
  refine ioworkerHistory_invariant hargs.valid h ?_ ?_
  · obtain ⟨hlist, hindex⟩ := Prod.mk.inj (ioworkerStart_log env args)
    refine ⟨by simp, args.cmdlogList, rfl, ?_, fun _ => hlist, fun ret hpc => ?_⟩
    · rw [hindex, hargs.cmdlogList]
      exact logOf_replicate _
    · exact absurd hpc ((ioworkerStart_stats env args).2.2.2 ret)
  · intro w hist e w' hlogged _ hrec hw _ hstep
    rcases ioworkerStep_cases hstep with ⟨k, now, table, d, rc, timeSent, after, p, rfl, hsends⟩ |
      ⟨k, status, now, now', n, rfl, hk, -, -, hc⟩ | hm
    · exact hlogged.sends hw hstep hsends
    · exact hlogged.completes hrec hw hpos hstep hk hc
    · exact hlogged.movesOn hstep hm

/-- The log of a worker, of length at least one, in every state of every run: the slot that a
    completion writes is in the list, and so are the parts that the rotation copies; and the
    list of a worker that has returned are zero entries, followed by the latest commands in
    the order of their completion. -/
theorem cmdlog_list_latest (hargs : args.Admitted) (hpos : 0 < args.cmdlogList.length)
    {P : Worker × History → IowEvent → Prop}
    (h : (ioworkerHistory env args).Reachable P (w, hist)) :
    hist.done.length = w.completions.length ∧
    w.args.cmdlogList.length = args.cmdlogList.length ∧
    w.g.currentCmdlogIndex ≤ args.cmdlogList.length ∧
    (∀ cmd, (ioworkerLogCmd w.args w.g cmd).1.cmdlogList =
      w.args.cmdlogList.set (cmdlogSlot w.args.cmdlogList w.g.currentCmdlogIndex) cmd) ∧
    cmdlogSlot w.args.cmdlogList w.g.currentCmdlogIndex < args.cmdlogList.length ∧
    ∀ ret, w.pc = .exited ret → w.args.cmdlogList =
      List.replicate (args.cmdlogList.length - hist.done.length) ⟨0, 0, 0⟩ ++
        (hist.done.drop (hist.done.length - args.cmdlogList.length)).map DoneIo.cmd := by
  obtain ⟨l, hlen, hring, hlist, hrotated⟩ := (logged_of_reachable hargs hpos h).ring
  dsimp only at hring hlist hrotated
  have hlength : w.args.cmdlogList.length = l.length := by
    by_cases hrun : ∀ ret, w.pc ≠ .exited ret
    · rw [hlist hrun]
    · push Not at hrun
      obtain ⟨ret, hret⟩ := hrun
      rw [hrotated ret hret, ← List.rotate_eq_drop_append_take hring.le, List.length_rotate]
  have hslot := hring.slot_lt (by omega)
  have hcount := (recorded_of_reachable hargs.valid h).2.count
  refine ⟨hcount, by omega, by have := hring.le; omega, fun cmd => ?_, ?_, fun ret hret => ?_⟩
  · rw [ioworkerLogCmd, if_pos (by omega)]
    rfl
  · rw [cmdlogSlot, hlength]
    exact hslot.trans_eq hlen
  · rw [hrotated ret hret, hring.rotate, hlen]

/-- The parameters of a worker that reads three times, and logs two of the reads. -/
def readThrice : PyArgs := { readOnce with ioCount := 3, outputCmdlogLen := 2 }

/-- Its arguments. -/
def readThriceArgs : Args :=
  { readOnceArgs with ioCount := 3, cmdlogList := [⟨0, 0, 0⟩, ⟨0, 0, 0⟩] }

/-- Of the three reads, the last two are returned. -/
theorem cmdlog_list_latest_reads :
    ∃ w hist, (ioworkerHistory (plainEnv 64) readThriceArgs).Reachable (fun _ _ => True) (w, hist) ∧
      hist.done.map DoneIo.cmd = [⟨0, 8, 2⟩, ⟨8, 8, 2⟩, ⟨16, 8, 2⟩] ∧
      w.args.cmdlogList = [⟨8, 8, 2⟩, ⟨16, 8, 2⟩] := by
  have hstart := ioworkerHistory_start (plainEnv 64) readThriceArgs (P := fun _ _ => True)
  obtain ⟨⟨w, hist⟩, hx, hf⟩ := hstart.exists_run
    (f := fun x => (x.1.pc, x.2.done.map DoneIo.cmd))
    (t := (.exited 0, [⟨0, 8, 2⟩, ⟨8, 8, 2⟩, ⟨16, 8, 2⟩]))
    (iteration 2 ⟨0, 0, 0, 0, 0⟩ 0 [0] ++ iteration 3 ⟨0, 0, 0, 0, 0⟩ 0 [0] ++
      iteration 4 ⟨0, 0, 0, 0, 0⟩ 0 [0] ++ [.leave])
    (Machine.admits_of_forall (by simp) _) rfl
  simp only [Prod.mk.injEq] at hf
  obtain ⟨hpc, hdone⟩ := hf
  have hadmitted : readThriceArgs.Admitted := ⟨1, readThrice, _, rfl, rfl⟩
  obtain ⟨-, -, -, -, -, hexit⟩ := cmdlog_list_latest hadmitted (by decide) hx
  have hlength : hist.done.length = 3 := by simpa using congrArg List.length hdone
  refine ⟨w, hist, hx, hdone, ?_⟩
  rw [hexit 0 hpc, List.map_drop, hdone, hlength]
  rfl

end Pynvme
