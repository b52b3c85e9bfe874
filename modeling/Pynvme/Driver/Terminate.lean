import Pynvme.Driver.Cleanup
import Pynvme.Ioworker.Cmdlist

/-!
# The signal to terminate

A cleanup of the driver sets the bit `DCFG_IOW_TERM` of the configuration, which makes
every ioworker leave with -7 at its next check, polls until no secondary process is left,
and clears the bit. If a process hangs, the polls are given up and `TimeoutError` is
raised, with the bit set: it stays so until the next cleanup that finds a process and sees
it leave, and stops every ioworker that starts before.

The calls of the cleanup are told apart by a history of the driver, with the configuration
before the call and the answers that its polls have got (`driverCalls`). The secondary
processes take their steps in between, attach, leave or hang, in any order.

* `driver_cleanup_term_iff`: when a call is over, the bit is clear and the rest of the
  configuration is as before exactly if one of the polls found that no process was left,
  and the configuration was one that the driver gives back.
* `driver_term_clear`: if no call gives up, then no ioworker is stopped between calls.
-/

namespace Pynvme

open Word

/-! ### The calls -/

/-- A call of the cleanup: the configuration before it, and what it has found each time it
    looked for secondary processes, that there was none or that there were some. -/
structure CleanupCall where
  config : BitVec 64
  noSecondary : List Bool

/-- A step of the main process goes on with the call, or begins the next one. -/
def CleanupCall.record (call : CleanupCall) (s : DriverState) : DriverEvent → CleanupCall
  | .main =>
    match s.main with
    | .idle | .returned | .raised => ⟨s.config, []⟩
    | .check | .poll _ => { call with noSecondary := call.noSecondary ++ [driverNoSecondary s] }
    | _ => call
  | _ => call

/-- The driver with the last call of the cleanup. -/
def driverCalls (crc32c : List (BitVec 8) → BitVec 32) :
    Machine (DriverState × CleanupCall) DriverEvent :=
  (driverMachine crc32c).withHistory ⟨0#64, []⟩ fun call s e _ => call.record s e

/-- After the call, the signal is off, the rest of the configuration is as before, and an
    ioworker that looks at the signal is not stopped. -/
structure TermCleared (call : CleanupCall) (s : DriverState) : Prop where
  term : s.config &&& dcfgIowTerm = 0#64
  others : s.config &&& ~~~dcfgIowTerm = call.config &&& ~~~dcfgIowTerm
  worker : ∀ w w' : Worker, ioworkerStep w (.check (s.config &&& dcfgIowTerm != 0#64)) = some w' →
    w'.pc ≠ .exited (-7)

/-- The first look found no process, and the signal was off before the call; or there were
    some, and a later look found none, and the driver gives the configuration back: the
    verification is not enabled, or there is memory for it. -/
def CleanupCall.Clears (memoryEnough : Bool) (call : CleanupCall) : Prop :=
  match call.noSecondary with
  | [] => False
  | true :: _ => call.config &&& dcfgIowTerm = 0#64
  | false :: polls => true ∈ polls ∧ (call.config &&& 1#64 = 0#64 ∨ memoryEnough = true)

/-! ### The configuration -/

variable {crc32c : List (BitVec 8) → BitVec 32} {memoryEnough : Bool} {c x : BitVec 64}
  {s s' : DriverState} {call : CleanupCall} {e : DriverEvent}

/-- The bits that `driver_config` keeps. -/
def configKept (memoryEnough : Bool) : BitVec 64 :=
  if memoryEnough then BitVec.allOnes 64 else ~~~1#64

theorem driverConfig_eq : driverConfig memoryEnough x = x &&& configKept memoryEnough := by
  rw [driverConfig]
  cases memoryEnough
  case false =>
    by_cases hx : x &&& 1#64 = 0#64
    · rw [if_neg fun h => h.1 hx]
      exact (and_not_eq_self_iff.2 hx).symm
    · rw [if_pos ⟨hx, rfl⟩]
      rfl
  case true =>
    rw [if_neg (by simp)]
    exact BitVec.and_allOnes.symm

theorem and_configKept_iff :
    x &&& configKept memoryEnough = x ↔ x &&& 1#64 = 0#64 ∨ memoryEnough = true := by
  cases memoryEnough
  case false =>
    rw [configKept, if_neg (by simp), and_not_eq_self_iff]
    simp
  case true =>
    rw [configKept, if_pos rfl, BitVec.and_allOnes]
    simp

/-- The configuration while the cleanup waits. -/
def configTerm (memoryEnough : Bool) (c : BitVec 64) : BitVec 64 :=
  pcieConfig memoryEnough c none (some true)

theorem configTerm_eq :
    configTerm memoryEnough c = (c ||| dcfgIowTerm) &&& configKept memoryEnough := by
  rw [configTerm, pcieConfig, driverConfig_eq]
  rfl

theorem configTerm_term : configTerm memoryEnough c &&& dcfgIowTerm = dcfgIowTerm := by
  have hkept : configKept memoryEnough &&& dcfgIowTerm = dcfgIowTerm := by
    cases memoryEnough <;> rfl
  rw [configTerm_eq, BitVec.and_assoc, hkept]
  ext i hi
  rw [BitVec.getElem_and, BitVec.getElem_or, Bool.and_eq_right_iff_imp, Bool.or_eq_true]
  exact .inr

/-- The signal is cleared. -/
theorem pcieConfig_off : pcieConfig memoryEnough c none (some false) =
    c &&& ~~~dcfgIowTerm &&& configKept memoryEnough := driverConfig_eq

theorem pcieConfig_off_term :
    pcieConfig memoryEnough c none (some false) &&& dcfgIowTerm = 0#64 := by
  rw [pcieConfig_off, BitVec.and_assoc, BitVec.and_comm (configKept _), ← BitVec.and_assoc,
    BitVec.and_assoc c, BitVec.not_and_self]
  simp

/-- The configuration after the wait. -/
theorem pcieConfig_configTerm :
    pcieConfig memoryEnough (configTerm memoryEnough c) none (some false) =
      c &&& ~~~dcfgIowTerm &&& configKept memoryEnough := by
  have hoff : (c ||| dcfgIowTerm) &&& ~~~dcfgIowTerm = c &&& ~~~dcfgIowTerm := by
    rw [BitVec.and_or_distrib_right, BitVec.and_not_self]
    exact BitVec.or_zero
  calc pcieConfig memoryEnough (configTerm memoryEnough c) none (some false)
    _ = configTerm memoryEnough c &&& ~~~dcfgIowTerm &&& configKept memoryEnough := pcieConfig_off
    _ = (c ||| dcfgIowTerm) &&& ~~~dcfgIowTerm &&& (configKept memoryEnough &&&
        configKept memoryEnough) := by
      rw [configTerm_eq, BitVec.and_assoc (c ||| dcfgIowTerm),
        BitVec.and_comm (configKept memoryEnough), BitVec.and_assoc, BitVec.and_assoc,
        BitVec.and_assoc]
    _ = c &&& ~~~dcfgIowTerm &&& configKept memoryEnough := by rw [hoff, BitVec.and_self]

/-! ### The steps -/

/-- The signal to terminate is on: it was set, and not cleared yet. -/
def MainPc.Signals : MainPc → Prop
  | .unlock _ | .poll _ | .resume | .raised => True
  | _ => False

/-- The other processes change neither the configuration nor where the main process is. -/
theorem driverStep_secondary (h : driverStep crc32c s e = some s') (he : e ≠ .main) :
    s'.main = s.main ∧ s'.config = s.config ∧ s'.memoryEnough = s.memoryEnough := by
  rcases driverStep_cases h with ⟨rfl, -⟩ | ⟨nsid, -, rfl⟩ | ⟨k, e', w, r, -, -, -, rfl⟩ |
    ⟨k, -, rfl⟩
  · exact absurd rfl he
  · exact ⟨rfl, rfl, rfl⟩
  · exact ⟨rfl, rfl, rfl⟩
  · exact ⟨rfl, rfl, rfl⟩

/-- Where the main process is in the call, with the configuration `c`: the looks were in
    vain, up to the last one before the call clears the signal. -/
def CallAt (memoryEnough : Bool) (call : CleanupCall) (c : BitVec 64) : MainPc → Prop
  | .idle => True
  | .check => call.noSecondary = [] ∧ c = call.config
  | .terminate => call.noSecondary = [false] ∧ c = call.config
  | .unlock _ => call.noSecondary = [false] ∧ c = configTerm memoryEnough call.config
  | .poll retry => 0 < retry ∧ retry ≤ 100 ∧
      call.noSecondary = List.replicate (101 - retry) false ∧
      c = configTerm memoryEnough call.config
  | .resume => (∃ polls, call.noSecondary = false :: (polls ++ [true])) ∧
      c = configTerm memoryEnough call.config
  | .returned => (call.noSecondary = [true] ∧ c = call.config) ∨
      ((∃ polls, call.noSecondary = false :: (polls ++ [true])) ∧
        c = pcieConfig memoryEnough (configTerm memoryEnough call.config) none (some false))
  | .raised => call.noSecondary = List.replicate 101 false ∧
      c = configTerm memoryEnough call.config

theorem CallAt.main (h : CallAt s.memoryEnough call s.config s.main) :
    CallAt s.memoryEnough (call.record s .main) (mainStep s).config (mainStep s).main := by
  rcases hpc : s.main with _ | _ | _ | n | retry | _ | _ | _ <;> rw [hpc] at h <;>
    simp only [CleanupCall.record, mainStep, hpc]
  case idle => exact ⟨rfl, rfl⟩
  case check =>
    obtain ⟨hno, hc⟩ := h
    rw [hno]
    split_ifs with hnone
    · exact .inl ⟨by rw [hnone, List.nil_append], hc⟩
    · exact ⟨by rw [Bool.eq_false_iff.2 hnone, List.nil_append], hc⟩
  case terminate => exact ⟨h.1, by rw [h.2, configTerm]⟩
  case unlock =>
    split_ifs
    · exact h
    · exact ⟨by decide, le_rfl, h⟩
  case poll =>
    obtain ⟨hpos, hle, hno, hc⟩ := h
    split_ifs with hnone hlast
    · refine ⟨⟨List.replicate (100 - retry) false, ?_⟩, hc⟩
      rw [hno, hnone, show 101 - retry = 100 - retry + 1 by omega, List.replicate_succ,
        List.cons_append]
    · refine ⟨?_, hc⟩
      rw [hno, Bool.eq_false_iff.2 hnone, ← List.replicate_succ',
        show 101 - retry + 1 = 101 by omega]
    · refine ⟨by omega, by omega, ?_, hc⟩
      rw [hno, Bool.eq_false_iff.2 hnone, ← List.replicate_succ',
        show 101 - retry + 1 = 101 - (retry - 1) by omega]
  case resume => exact .inr ⟨h.1, by rw [h.2]⟩
  case returned => exact ⟨rfl, rfl⟩
  case raised => exact ⟨rfl, rfl⟩

theorem callAt_of_reachable {P : DriverState × CleanupCall → DriverEvent → Prop}
    (h : (driverCalls crc32c).Reachable P (s, call)) :
    CallAt s.memoryEnough call s.config s.main := by
  refine h.invariant (I := fun x => CallAt x.1.memoryEnough x.2 x.1.config x.1.main) ?_ ?_
  · rintro ⟨s, call⟩ ⟨⟨hpc, -⟩, -⟩
    dsimp only at hpc ⊢
    rw [hpc]
    trivial
  · rintro ⟨s, call⟩ e ⟨s', call'⟩ hI - hs
    obtain ⟨hstep, rfl⟩ := Machine.withHistory_step.1 hs
    by_cases he : e = .main
    · subst he
      obtain rfl := Option.some.inj hstep
      have hmem : (mainStep s).memoryEnough = s.memoryEnough := by
        unfold mainStep
        split <;> (try split_ifs) <;> rfl
      dsimp only
      rw [hmem]
      exact hI.main
    · obtain ⟨hmain, hconfig, hmem⟩ := driverStep_secondary hstep he
      have hcall : call.record s e = call := by cases e <;> first | rfl | exact absurd rfl he
      dsimp only at hI ⊢
      rw [hmain, hconfig, hmem, hcall]
      exact hI

/-- An ioworker that finds the signal off is not stopped by it. -/
theorem ioworkerStep_check_off {w w' : Worker} (h : ioworkerStep w (.check false) = some w') :
    w'.pc ≠ .exited (-7) := by
  obtain ⟨hpc, h⟩ := Option.ite_none_right_eq_some.1 h
  split at h
  · obtain rfl := Option.some.inj h
    simp
  · simp only [Bool.false_eq_true, if_false] at h
    split_ifs at h
    · obtain rfl := Option.some.inj h
      rcases ioworkerFinal_log w (-4) with ⟨-, hret⟩ | ⟨hret, -⟩
      · exact hret (-7)
      · simp [hret]
    · obtain rfl := Option.some.inj h
      simp

theorem termCleared_iff :
    TermCleared call s ↔ s.config &&& dcfgIowTerm = 0#64 ∧
      s.config &&& ~~~dcfgIowTerm = call.config &&& ~~~dcfgIowTerm := by
  refine ⟨fun h => ⟨h.term, h.others⟩, fun ⟨hterm, hothers⟩ => ⟨hterm, hothers, ?_⟩⟩
  intro w w' hstep
  rw [hterm] at hstep
  exact ioworkerStep_check_off hstep

/-- When a call of the cleanup is over, in any run of the driver, the signal is off, the
    rest of the configuration is as before, and a later ioworker is not stopped, exactly if
    the call has cleared the signal. -/
theorem driver_cleanup_term_iff
    (h : (driverCalls crc32c).Reachable (fun _ _ => True) (s, call))
    (hpc : s.main = .returned ∨ s.main = .raised) :
    TermCleared call s ↔ call.Clears s.memoryEnough := by
  have hat := callAt_of_reachable h
  rw [termCleared_iff]
  rcases hpc with hpc | hpc <;> rw [hpc] at hat
  case inl =>
    rcases hat with ⟨hno, hc⟩ | ⟨⟨polls, hno⟩, hc⟩
    -- There was no process, and nothing was changed.
    · rw [hc, CleanupCall.Clears, hno]
      exact and_iff_left rfl
    -- The signal was set and cleared, and `driver_config` has been called twice.
    · have hoff : s.config &&& dcfgIowTerm = 0#64 := by rw [hc, pcieConfig_off_term]
      have hon : ~~~dcfgIowTerm &&& 1#64 = 1#64 := rfl
      rw [and_iff_right hoff, and_not_eq_self_iff.2 hoff, hc, pcieConfig_configTerm,
        and_configKept_iff, BitVec.and_assoc, hon, CleanupCall.Clears, hno]
      simp
  case inr =>
    obtain ⟨hno, hc⟩ := hat
    rw [hc, configTerm_term, CleanupCall.Clears, hno, List.replicate_succ]
    simp [dcfgIowTerm]

theorem DriverState.start_calls : (driverCalls crc32c).init (.start, ⟨0#64, []⟩) :=
  ⟨DriverState.start_init, rfl⟩

/-- An ioworker sees the signal, and exits before the second poll. -/
theorem driver_cleanup_term_exit :
    ∃ s call, (driverCalls fun _ => 0#32).Reachable (fun _ _ => True) (s, call) ∧
      s.main = .returned ∧ call.noSecondary = [false, false, true] ∧ TermCleared call s := by
  obtain ⟨⟨s, call⟩, hs, hf⟩ := (Machine.Reachable.init DriverState.start_calls).exists_run
    (m := driverCalls fun _ => 0#32)
    (f := fun x => (x.1.main, x.1.memoryEnough, x.2.config, x.2.noSecondary))
    (t := (.returned, true, 1#64, [false, false, true]))
    [.attach 1, .main, .main, .main, .main, .main, .main, .secondary 0 (.send none),
      .secondary 0 (.check false), .exit 0, .main, .main]
    (Machine.admits_of_forall (fun _ _ _ => trivial) _) (by decide +kernel)
  simp only [Prod.mk.injEq] at hf
  obtain ⟨hpc, hmem, hconfig, hno⟩ := hf
  refine ⟨s, call, hs, hpc, hno, (driver_cleanup_term_iff hs (.inl hpc)).2 ?_⟩
  simp [CleanupCall.Clears, hno, hmem]

/-- An ioworker hangs until the cleanup gives up. It leaves then, and the next one is
    stopped at its first check. -/
theorem driver_cleanup_term_hangs :
    ∃ s call, (driverCalls fun _ => 0#32).Reachable (fun _ _ => True) (s, call) ∧
      s.main = .raised ∧ call.config = 1#64 ∧ s.config = 0x11#64 ∧
      s.secondaries.map (·.pc) = [.left] ∧ ¬TermCleared call s := by
  obtain ⟨⟨s, call⟩, hs, hf⟩ := (Machine.Reachable.init DriverState.start_calls).exists_run
    (m := driverCalls fun _ => 0#32)
    (f := fun x => (x.1.main, x.2.config, x.1.config, x.1.secondaries.map (·.pc)))
    (t := (.raised, 1#64, 0x11#64, [.left]))
    (.attach 1 :: List.replicate 105 .main ++
      [.secondary 0 (.send none), .secondary 0 (.check false), .exit 0,
        .attach 1, .secondary 0 (.send none), .secondary 0 (.check false)])
    (Machine.admits_of_forall (fun _ _ _ => trivial) _) (by decide +kernel)
  simp only [Prod.mk.injEq] at hf
  obtain ⟨hpc, hcall, hconfig, hleft⟩ := hf
  refine ⟨s, call, hs, hpc, hcall, hconfig, hleft, fun h => ?_⟩
  have hterm := h.term
  rw [hconfig] at hterm
  exact absurd hterm (by decide)

/-! ### The runs -/

/-- The rule that the signal is off before the first call, and that no call gives up: no
    process is left at its last poll. -/
def PollsInTime (s : DriverState) (e : DriverEvent) : Prop :=
  (s.main = .idle → s.config &&& dcfgIowTerm = 0#64) ∧
    (e = .main → s.main = .poll 1 → s.secondaries = [])

/-- The calls that are over have cleared the signal. -/
structure TermOff (s : DriverState) : Prop where
  off : s.main ≠ .idle → ¬s.main.Signals → s.config &&& dcfgIowTerm = 0#64
  polls : s.main ≠ .poll 0
  raised : s.main ≠ .raised

theorem TermOff.main (h : TermOff s) (hP : PollsInTime s .main) : TermOff (mainStep s) := by
  rcases hpc : s.main with _ | _ | _ | n | retry | _ | _ | _ <;> simp only [mainStep, hpc]
  case idle => exact ⟨fun _ _ => hP.1 hpc, by simp, by simp⟩
  case check =>
    have hoff := h.off (by simp [hpc]) (by simp [hpc, MainPc.Signals])
    split_ifs
    · exact ⟨fun _ _ => hoff, by simp, by simp⟩
    · exact ⟨fun _ _ => hoff, by simp, by simp⟩
  case terminate => exact ⟨fun _ hn => absurd trivial hn, by simp, by simp⟩
  case unlock =>
    split_ifs
    · exact ⟨fun _ hn => absurd trivial hn, by simp, by simp⟩
    · exact ⟨fun _ hn => absurd trivial hn, by simp, by simp⟩
  case poll =>
    have hpos : retry ≠ 0 := by
      rintro rfl
      exact h.polls hpc
    split_ifs with hnone hlast
    · exact ⟨fun _ hn => absurd trivial hn, by simp, by simp⟩
    · obtain rfl : retry = 1 := by omega
      exact absurd (List.isEmpty_iff.2 (hP.2 rfl hpc)) hnone
    · exact ⟨fun _ hn => absurd trivial hn, by simpa using hlast, by simp⟩
  case resume => exact ⟨fun _ _ => pcieConfig_off_term, by simp, by simp⟩
  case returned =>
    exact ⟨fun _ _ => h.off (by simp [hpc]) (by simp [hpc, MainPc.Signals]), by simp, by simp⟩
  case raised => exact absurd hpc h.raised

theorem termOff_of_reachable (h : (driverMachine crc32c).Reachable PollsInTime s) : TermOff s := by
  refine h.invariant (fun s hs => ?_) fun s e s' hI hP hs => ?_
  · exact ⟨fun hne => absurd hs.1 hne, by simp [hs.1], by simp [hs.1]⟩
  · by_cases he : e = .main
    · subst he
      obtain rfl := Option.some.inj hs
      exact hI.main hP
    · obtain ⟨hmain, hconfig, -⟩ := driverStep_secondary hs he
      refine ⟨?_, by rw [hmain]; exact hI.polls, by rw [hmain]; exact hI.raised⟩
      rw [hmain, hconfig]
      exact hI.off

/-- If no call gives up, then none raises, and no ioworker is stopped by a call that is over. -/
theorem driver_term_clear (h : (driverMachine crc32c).Reachable PollsInTime s) :
    s.main ≠ .raised ∧ (s.main = .returned → ∀ w w' : Worker,
      ioworkerStep w (.check (s.config &&& dcfgIowTerm != 0#64)) = some w' →
        w'.pc ≠ .exited (-7)) := by
  have hoff := termOff_of_reachable h
  refine ⟨hoff.raised, fun hpc w w' hstep => ?_⟩
  rw [hoff.off (by simp [hpc]) (by simp [hpc, MainPc.Signals])] at hstep
  exact ioworkerStep_check_off hstep

end Pynvme
