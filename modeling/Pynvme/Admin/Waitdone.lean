import Mathlib.Data.List.GetD
import Mathlib.Data.List.Induction
import Mathlib.Data.List.TakeWhile
import Mathlib.Tactic.Common

/-!
# Waiting for admin commands

A script sends admin commands, and waits for a number of them to complete
(`Controller.waitdone`). The admin queue also carries the asynchronous event
requests (AERs) of the driver: they complete when an event happens, in any batch
with the commands, and are sent again.

The callbacks of both kinds of completions (`cmdCb`, `aerCmdCb`) write the same
globals. `waitdone` counts every completion as one of those it waits for, and then
waits once more, by calling itself, for each one that was an event.

The device is a list of batches, what the next polls of the admin queue process; a
poll may find nothing. When the list is used up nothing completes any more, until
the alarm.
-/

namespace Pynvme

/-! ### The model -/

/-- A completion of the admin queue: of an AER, or of another command; its dword 0,
    and its status, the type and the code. -/
structure Cqe where
  aer : Bool
  cdw0 : BitVec 32
  sctSc : BitVec 11
  deriving DecidableEq

/-- The globals of the driver: the latest dword 0, the flag of `waitdone`, and the
    counters of its AERs. Recorded are the completions processed, the AERs sent, and
    the completions that were processed when a poll was made. -/
structure Admin where
  latestCqeCdw0 : BitVec 32
  reentryFlag : Bool
  aerResend : Nat
  aerWaitdone : Nat
  processed : List Cqe
  aersSent : Nat
  polls : List (List Cqe)

/-- What ends `waitdone` without a result: its assertion on the flag, a submission that
    fails, or the alarm. -/
inductive WaitError
  | reentry
  | submission
  | timeout
  /-- The bound on the depth of the calls, which is never reached. -/
  | depth
  deriving DecidableEq

/-- How a call ends: normally, with the batches that are left, or by an exception. -/
inductive WaitResult
  | returned (s : Admin) (device : List (List Cqe))
  | raised (e : WaitError) (s : Admin)

/-- `cmd_cb`. -/
def cmdCb (s : Admin) (c : Cqe) : Admin := { s with latestCqeCdw0 := c.cdw0 }

/-- `aer_cmd_cb`: an AER aborted due to the deletion of its queue is not handed on. -/
def aerCmdCb (s : Admin) (c : Cqe) : Admin :=
  let s := { s with
    aerWaitdone := s.aerWaitdone + 1
    aerResend := if c.sctSc = 0#11 then s.aerResend + 1 else s.aerResend }
  if c.sctSc ≠ 8#11 then cmdCb s c else s

/-- The callback of a completion. -/
def callback (s : Admin) (c : Cqe) : Admin :=
  let s := { s with processed := s.processed ++ [c] }
  if c.aer then aerCmdCb s c else cmdCb s c

/-- `nvme_wait_completion_admin`, which processes a batch. -/
def nvmeWaitCompletionAdmin (s : Admin) (batch : List Cqe) : Admin :=
  batch.foldl callback { s with polls := s.polls ++ [s.processed] }

/-- The loop of `waitdone`: the globals, the batches left and the number of
    completions reaped, unless the alarm ends it. -/
def waitdoneLoop (expected : Nat) : List (List Cqe) → Nat → Admin →
    Admin × Option (Nat × List (List Cqe))
  | [], reaped, s =>
    if reaped < expected then
      -- nothing completes: the handler of the alarm resets the flag, and raises
      ({ s with polls := s.polls ++ [s.processed], reentryFlag := false }, none)
    else (s, some (reaped, []))
  | batch :: device, reaped, s =>
    if reaped < expected then
      waitdoneLoop expected device (reaped + batch.length) (nvmeWaitCompletionAdmin s batch)
    else (s, some (reaped, batch :: device))

/-- `Controller.aer`, `n` times, until a submission fails; `accepts k` tells if the
    submission `k` is accepted. -/
def sendAers (accepts : Nat → Bool) : Nat → Admin → Admin × Bool
  | 0, s => (s, true)
  | n + 1, s =>
    if accepts s.aersSent then sendAers accepts n { s with aersSent := s.aersSent + 1 }
    else (s, false)

/-- The calls of `waitdone` in lieu of the AERs, one after the other. -/
def waitEach (wait : List (List Cqe) → Admin → WaitResult) :
    Nat → List (List Cqe) → Admin → WaitResult
  | 0, device, s => .returned s device
  | n + 1, device, s =>
    match wait device s with
    | .returned s device => waitEach wait n device s
    | .raised e s => .raised e s

/-- `Controller.waitdone`, to a depth of calls. It returns `latestCqeCdw0`. -/
def waitdoneDepth (accepts : Nat → Bool) : Nat → Nat → List (List Cqe) → Admin → WaitResult
  | 0, _, _, s => .raised .depth s
  | depth + 1, expected, device, s =>
    if s.reentryFlag then .raised .reentry s
    else
      match waitdoneLoop expected device 0
        { s with reentryFlag := true, aerResend := 0, aerWaitdone := 0 } with
      | (s, none) => .raised .timeout s
      | (s, some (reaped, device)) =>
        let s := { s with reentryFlag := false }
        -- send more aer commands
        match sendAers accepts s.aerResend s with
        | (s, false) => .raised .submission s
        | (s, true) =>
          if s.aerWaitdone > reaped - expected then
            -- process one more command in lieu of aer completion
            waitEach (waitdoneDepth accepts depth 1) (s.aerWaitdone - (reaped - expected)) device s
          else .returned s device

/-- `Controller.waitdone`. Every call of itself has at least one batch less. -/
def waitdone (accepts : Nat → Bool) (expected : Nat) (device : List (List Cqe)) (s : Admin) :
    WaitResult :=
  waitdoneDepth accepts (device.length + 1) expected device s

/-! ### What is counted -/

/-- The number of commands among the completions. -/
def commands (l : List Cqe) : Nat := l.countP fun c => !c.aer

/-- The number of AERs among the completions. -/
def events (l : List Cqe) : Nat := l.countP Cqe.aer

/-- The number of AERs that completed with success. -/
def goodEvents (l : List Cqe) : Nat := l.countP fun c => c.aer && c.sctSc == 0#11

/-- The dword 0 that the callbacks leave, if it was `d` before: that of the last
    completion but for the AERs aborted due to the deletion of their queue. -/
def latestCdw0 (d : BitVec 32) (l : List Cqe) : BitVec 32 :=
  l.foldl (fun d c => if c.aer && c.sctSc == 8#11 then d else c.cdw0) d

theorem commands_add_events (l : List Cqe) : commands l + events l = l.length := by
  induction l with
  | nil => rfl
  | cons c l ih => cases hc : c.aer <;> simp [commands, events, hc] at ih ⊢ <;> omega

theorem commands_append (l l' : List Cqe) : commands (l ++ l') = commands l + commands l' :=
  List.countP_append

theorem events_append (l l' : List Cqe) : events (l ++ l') = events l + events l' :=
  List.countP_append

theorem goodEvents_append (l l' : List Cqe) :
    goodEvents (l ++ l') = goodEvents l + goodEvents l' :=
  List.countP_append

/-- What the callbacks of a batch do. -/
theorem foldl_callback (s : Admin) (l : List Cqe) : l.foldl callback s =
    { s with
      latestCqeCdw0 := latestCdw0 s.latestCqeCdw0 l
      aerResend := s.aerResend + goodEvents l
      aerWaitdone := s.aerWaitdone + events l
      processed := s.processed ++ l } := by
  induction l generalizing s with
  | nil => simp [latestCdw0, goodEvents, events]
  | cons c l ih =>
    rw [List.foldl_cons, ih]
    cases hc : c.aer with
    | false => simp [callback, cmdCb, latestCdw0, goodEvents, events, hc]
    | true =>
      by_cases h0 : c.sctSc = 0#11
      · simp [callback, aerCmdCb, cmdCb, latestCdw0, goodEvents, events, hc, h0]
        omega
      · by_cases h8 : c.sctSc = 8#11
        · simp [callback, aerCmdCb, latestCdw0, goodEvents, events, hc, h8]
          omega
        · simp [callback, aerCmdCb, cmdCb, latestCdw0, goodEvents, events, hc, h0, h8]
          omega

/-! ### The polls of a call -/

/-- The number of polls the loop makes for `n` completions; the last one finds
    nothing if there are fewer. -/
def loopPolls : Nat → List (List Cqe) → Nat
  | 0, _ => 0
  | _ + 1, [] => 1
  | n + 1, batch :: device => loopPolls (n + 1 - batch.length) device + 1

/-- The number of polls until `n` batches with commands were processed. -/
def commandPolls : Nat → List (List Cqe) → Nat
  | 0, _ => 0
  | _ + 1, [] => 1
  | n + 1, batch :: device =>
    commandPolls (if commands batch = 0 then n + 1 else n) device + 1

/-- The number of commands that are missing when the loop ends. -/
def missing (expected : Nat) (device : List (List Cqe)) : Nat :=
  expected - commands (device.take (loopPolls expected device)).flatten

/-- The number of polls of `waitdone`: those of its loop, and then one batch with
    commands for each command that is missing. -/
def waitPolls (expected : Nat) (device : List (List Cqe)) : Nat :=
  let k := loopPolls expected device
  if device.length < k then k
  else k + commandPolls (missing expected device) (device.drop k)

/-- What `k` polls do, whatever happens besides. -/
structure Polled (s s' : Admin) (device : List (List Cqe)) (k : Nat) : Prop where
  processed : s'.processed = s.processed ++ (device.take k).flatten
  latest : s'.latestCqeCdw0 = latestCdw0 s.latestCqeCdw0 (device.take k).flatten
  polls : s'.polls = s.polls ++ (List.range k).map fun i => s.processed ++ (device.take i).flatten

/-- What a call does that returns. -/
structure Returns (s s' : Admin) (device device' : List (List Cqe)) (k : Nat) : Prop
    extends Polled s s' device k where
  le : k ≤ device.length
  left : device' = device.drop k
  sent : s'.aersSent = s.aersSent + goodEvents (device.take k).flatten
  flag : s'.reentryFlag = false

section Calls

variable {s s' s'' : Admin} {device device' : List (List Cqe)} {n k m : Nat}

theorem latestCdw0_append (d : BitVec 32) (l l' : List Cqe) :
    latestCdw0 d (l ++ l') = latestCdw0 (latestCdw0 d l) l' :=
  List.foldl_append

theorem Polled.refl (s : Admin) (device : List (List Cqe)) : Polled s s device 0 :=
  ⟨by simp, rfl, by simp⟩

theorem Polled.trans (h : Polled s s' device k) (h' : Polled s' s'' (device.drop k) m) :
    Polled s s'' device (k + m) := by
  have htake : ∀ i, (device.take (k + i)).flatten =
      (device.take k).flatten ++ ((device.drop k).take i).flatten := fun i => by
    rw [List.take_add, List.flatten_append]
  constructor
  case processed => rw [h'.processed, h.processed, htake, List.append_assoc]
  case latest => rw [h'.latest, h.latest, htake, latestCdw0_append]
  case polls =>
    rw [h'.polls, h.polls, h.processed, List.range_add, List.map_append, List.map_map,
      List.append_assoc]
    simp [Function.comp_def, htake]

/-- What a poll does. -/
theorem nvmeWaitCompletionAdmin_eq (s : Admin) (batch : List Cqe) :
    nvmeWaitCompletionAdmin s batch =
      { s with
        latestCqeCdw0 := latestCdw0 s.latestCqeCdw0 batch
        aerResend := s.aerResend + goodEvents batch
        aerWaitdone := s.aerWaitdone + events batch
        processed := s.processed ++ batch
        polls := s.polls ++ [s.processed] } :=
  foldl_callback _ batch

theorem nvmeWaitCompletionAdmin_polled (s : Admin) (batch : List Cqe) (device : List (List Cqe)) :
    Polled s (nvmeWaitCompletionAdmin s batch) (batch :: device) 1 := by
  rw [nvmeWaitCompletionAdmin_eq]
  constructor <;> simp

/-- What the loop does: it ends when it has reaped what is expected, or it polls for
    something that does not come. -/
theorem waitdoneLoop_spec (expected : Nat) (device : List (List Cqe)) (reaped : Nat) (s : Admin) :
    ∃ s' k, k = loopPolls (expected - reaped) device ∧ Polled s s' device k ∧
      ((k ≤ device.length ∧ expected ≤ reaped + (device.take k).flatten.length ∧
        waitdoneLoop expected device reaped s =
          (s', some (reaped + (device.take k).flatten.length, device.drop k)) ∧
        s'.aerResend = s.aerResend + goodEvents (device.take k).flatten ∧
        s'.aerWaitdone = s.aerWaitdone + events (device.take k).flatten ∧
        s'.aersSent = s.aersSent) ∨
      (k = device.length + 1 ∧ waitdoneLoop expected device reaped s = (s', none))) := by
  induction device generalizing reaped s with
  | nil =>
    by_cases h : reaped < expected
    · obtain ⟨n, hn⟩ : ∃ n, expected - reaped = n + 1 := ⟨expected - reaped - 1, by omega⟩
      refine ⟨_, 1, by rw [hn, loopPolls], ?_, .inr ⟨rfl, by rw [waitdoneLoop, if_pos h]⟩⟩
      constructor <;> simp [latestCdw0]
    · rw [Nat.sub_eq_zero_of_le (Nat.le_of_not_lt h)]
      refine ⟨s, 0, rfl, .refl s [], .inl ⟨Nat.le_refl 0, ?_, ?_, rfl, rfl, rfl⟩⟩
      · simpa using h
      · rw [waitdoneLoop, if_neg h]
        rfl
  | cons batch device ih =>
    by_cases h : reaped < expected
    · obtain ⟨n, hn⟩ : ∃ n, expected - reaped = n + 1 := ⟨expected - reaped - 1, by omega⟩
      have hn' : n + 1 - batch.length = expected - (reaped + batch.length) := by omega
      have hpoll := nvmeWaitCompletionAdmin_polled s batch device
      obtain ⟨s', k, hk, hp, hres⟩ := ih (reaped + batch.length) (nvmeWaitCompletionAdmin s batch)
      refine ⟨s', k + 1, by rw [hn, loopPolls, hn', hk], ?_, ?_⟩
      · rw [Nat.add_comm]
        exact hpoll.trans hp
      rw [waitdoneLoop, if_pos h]
      rcases hres with ⟨hle, hexp, hres, hresend, hwait, hsent⟩ | ⟨hlen, hres⟩
      · rw [nvmeWaitCompletionAdmin_eq] at hresend hwait hsent
        refine .inl ⟨by simpa using hle, ?_, ?_, ?_, ?_, hsent⟩
        · simp only [List.take_succ_cons, List.flatten_cons, List.length_append]
          omega
        · rw [hres]
          simp [Nat.add_assoc]
        · rw [hresend, List.take_succ_cons, List.flatten_cons, goodEvents_append, Nat.add_assoc]
        · rw [hwait, List.take_succ_cons, List.flatten_cons, events_append, Nat.add_assoc]
      · exact .inr ⟨by simpa using hlen, hres⟩
    · rw [Nat.sub_eq_zero_of_le (Nat.le_of_not_lt h)]
      refine ⟨s, 0, rfl, .refl s _, .inl ⟨Nat.zero_le _, ?_, ?_, rfl, rfl, rfl⟩⟩
      · simpa using h
      · rw [waitdoneLoop, if_neg h]
        rfl

/-- What the submissions do. -/
theorem sendAers_spec (accepts : Nat → Bool) (n : Nat) (s : Admin) :
    ∃ sent, sendAers accepts n s = ({ s with aersSent := s.aersSent + sent }, decide (sent = n)) ∧
      (sent ≠ n → ∃ j, accepts j = false) := by
  induction n generalizing s with
  | zero => exact ⟨0, rfl, fun h => absurd rfl h⟩
  | succ n ih =>
    by_cases h : accepts s.aersSent = true
    · obtain ⟨sent, heq, hfail⟩ := ih { s with aersSent := s.aersSent + 1 }
      refine ⟨sent + 1, ?_, fun hne => hfail fun he => hne (by rw [he])⟩
      rw [sendAers, if_pos h, heq]
      simp [Nat.add_assoc, Nat.add_comm 1]
    · refine ⟨0, ?_, fun _ => ⟨s.aersSent, by simpa using h⟩⟩
      rw [sendAers, if_neg h]
      simp

theorem loopPolls_zero (device : List (List Cqe)) : loopPolls 0 device = 0 := by
  cases device <;> rfl

theorem commandPolls_zero (device : List (List Cqe)) : commandPolls 0 device = 0 := by
  cases device <;> rfl

theorem waitPolls_one (device : List (List Cqe)) : waitPolls 1 device = commandPolls 1 device := by
  induction device with
  | nil => rfl
  | cons batch device ih =>
    rcases batch with _ | ⟨c, batch⟩
    -- An empty batch does not count.
    · rw [commandPolls, if_pos (show commands [] = 0 from rfl), ← ih]
      simp only [waitPolls, missing, loopPolls, List.length_cons, List.length_nil, Nat.sub_zero,
        Nat.zero_add, List.take_succ_cons, List.flatten_cons, List.nil_append,
        List.drop_succ_cons, Nat.add_lt_add_iff_right]
      split_ifs <;> omega
    · have hloop : loopPolls 1 ((c :: batch) :: device) = 1 := by
        simp only [loopPolls, List.length_cons]
        rw [show 0 + 1 - (batch.length + 1) = 0 by omega, loopPolls_zero]
      have hlen : ¬((c :: batch) :: device).length < 1 := by simp
      have hdrop : ((c :: batch) :: device).drop 1 = device := rfl
      simp only [waitPolls, missing, hloop, if_neg hlen, hdrop]
      simp only [List.take_succ_cons, List.take_zero, List.flatten_cons, List.flatten_nil,
        List.append_nil]
      rw [commandPolls, Nat.add_comm]
      congr 2
      split_ifs <;> omega

theorem commandPolls_succ (n : Nat) (device : List (List Cqe)) :
    commandPolls (n + 1) device =
      if device.length < commandPolls 1 device then commandPolls 1 device
      else commandPolls 1 device + commandPolls n (device.drop (commandPolls 1 device)) := by
  induction device with
  | nil => rfl
  | cons batch device ih =>
    rw [commandPolls, commandPolls]
    by_cases hb : commands batch = 0
    · simp only [if_pos hb, ih, List.length_cons, Nat.zero_add, Nat.add_lt_add_iff_right,
        List.drop_succ_cons]
      split_ifs <;> omega
    · simp only [if_neg hb]
      rw [commandPolls_zero, if_neg (by simp)]
      exact Nat.add_comm _ _

/-- How a call ends that is to make `k` polls: it makes them, unless a submission
    fails before. -/
def WaitOutcome (accepts : Nat → Bool) (s : Admin) (device : List (List Cqe)) (k : Nat) :
    WaitResult → Prop
  | .returned s' device' => Returns s s' device device' k
  | .raised .timeout s' => k = device.length + 1 ∧ Polled s s' device k
  | .raised .submission s' => (∃ j, accepts j = false) ∧ ∃ m ≤ k, Polled s s' device m
  | .raised _ _ => False

variable {accepts : Nat → Bool} {r : WaitResult}

theorem Returns.outcome (h : Returns s s' device device' k)
    (h' : WaitOutcome accepts s' device' m r) : WaitOutcome accepts s device (k + m) r := by
  have hle := h.le
  obtain rfl := h.left
  have hlen : (device.drop k).length = device.length - k := List.length_drop
  cases r with
  | returned s'' device'' =>
    have hle' := h'.le
    refine ⟨h.toPolled.trans h'.toPolled, by omega, ?_, ?_, h'.flag⟩
    · rw [h'.left, List.drop_drop]
    · rw [h'.sent, h.sent, List.take_add, List.flatten_append, goodEvents_append, Nat.add_assoc]
  | raised e s'' =>
    cases e with
    | timeout => exact ⟨by rw [h'.1]; omega, h.toPolled.trans h'.2⟩
    | submission =>
      obtain ⟨hrej, i, hi, hp⟩ := h'
      exact ⟨hrej, k + i, by omega, h.toPolled.trans hp⟩
    | reentry => exact h'
    | depth => exact h'

/-- The calls in lieu of the AERs end with as many batches with commands. -/
theorem waitEach_outcome {wait : List (List Cqe) → Admin → WaitResult}
    (hwait : ∀ device' s, device'.length ≤ device.length → s.reentryFlag = false →
      WaitOutcome accepts s device' (waitPolls 1 device') (wait device' s))
    (hflag : s.reentryFlag = false) :
    WaitOutcome accepts s device (commandPolls n device) (waitEach wait n device s) := by
  induction n generalizing device s with
  | zero =>
    rw [commandPolls_zero]
    exact ⟨.refl s device, Nat.zero_le _, rfl, rfl, hflag⟩
  | succ n ih =>
    have h₁ := hwait device s (Nat.le_refl _) hflag
    rw [waitPolls_one] at h₁
    rw [waitEach, commandPolls_succ]
    rcases hw : wait device s with ⟨s₁, device₁⟩ | ⟨e, s₁⟩
    · rw [hw] at h₁
      have hdrop : device₁.length ≤ device.length := by
        rw [h₁.left, List.length_drop]
        exact Nat.sub_le _ _
      have h₂ := ih (fun device' s hlen => hwait device' s (Nat.le_trans hlen hdrop)) h₁.flag
      rw [if_neg (Nat.not_lt.2 h₁.le), ← h₁.left]
      exact h₁.outcome h₂
    · rw [hw] at h₁
      cases e with
      | timeout => rwa [if_pos (by rw [h₁.1]; exact Nat.lt_succ_self _)]
      | submission =>
        obtain ⟨hrej, m, hm, hp⟩ := h₁
        refine ⟨hrej, m, Nat.le_trans hm ?_, hp⟩
        split_ifs <;> omega
      | reentry => exact h₁
      | depth => exact h₁

theorem waitdoneDepth_outcome {depth expected : Nat} (hdepth : device.length < depth)
    (hflag : s.reentryFlag = false) :
    WaitOutcome accepts s device (waitPolls expected device)
      (waitdoneDepth accepts depth expected device s) := by
  induction depth generalizing expected device s with
  | zero => exact absurd hdepth (Nat.not_lt_zero _)
  | succ depth ih =>
    obtain ⟨s₁, k, hk, hp, hloop⟩ := waitdoneLoop_spec expected device 0
      { s with reentryFlag := true, aerResend := 0, aerWaitdone := 0 }
    rw [Nat.sub_zero] at hk
    have hp₁ : Polled s s₁ device k := ⟨hp.processed, hp.latest, hp.polls⟩
    rw [waitdoneDepth, hflag, if_neg Bool.false_ne_true]
    rcases hloop with ⟨hle, hexp, hloop, hresend, hwait, hsent⟩ | ⟨hlen, hloop⟩
    · rw [hloop]
      dsimp only
      rw [Nat.zero_add] at hexp hresend hwait ⊢
      have hpolls : waitPolls expected device =
          k + commandPolls (missing expected device) (device.drop k) := by
        rw [waitPolls, ← hk]
        exact if_neg (Nat.not_lt.2 hle)
      obtain ⟨sent, hsend, hrej⟩ :=
        sendAers_spec accepts s₁.aerResend { s₁ with reentryFlag := false }
      rw [hsend]
      by_cases hall : sent = s₁.aerResend
      · rw [decide_eq_true hall]
        dsimp only
        have hret : Returns s
            { s₁ with reentryFlag := false, aersSent := s₁.aersSent + sent } device
            (device.drop k) k :=
          ⟨⟨hp₁.processed, hp₁.latest, hp₁.polls⟩, hle, rfl, by
            dsimp only
            rw [hall, hsent, hresend], rfl⟩
        have hcount := commands_add_events (device.take k).flatten
        have hmiss : missing expected device = expected - commands (device.take k).flatten := by
          rw [missing, hk]
        rw [hpolls]
        split_ifs with hd
        -- Each command that is missing is waited for, with at least one batch less.
        · have hnum : s₁.aerWaitdone - ((device.take k).flatten.length - expected) =
              missing expected device := by omega
          have hpos : 1 ≤ k := by
            rcases k with _ | k
            · simp only [List.take_zero, List.flatten_nil, events, List.countP_nil] at hwait
              omega
            · omega
          rw [hnum]
          refine hret.outcome (waitEach_outcome (fun device' s hlen hf => ih ?_ hf) rfl)
          rw [List.length_drop] at hlen
          omega
        · rw [show missing expected device = 0 by omega, commandPolls_zero]
          exact hret
      · rw [decide_eq_false hall]
        exact ⟨hrej hall, k, by omega, hp₁.processed, hp₁.latest, hp₁.polls⟩
    · rw [hloop]
      have hpolls : waitPolls expected device = k := by
        rw [waitPolls, ← hk]
        exact if_pos (by omega)
      rw [hpolls]
      exact ⟨hlen, hp₁⟩

variable (accepts device) in
/-- How `waitdone` ends, if it is not called by a callback. -/
theorem waitdone_outcome (expected : Nat) (hflag : s.reentryFlag = false) :
    WaitOutcome accepts s device (waitPolls expected device) (waitdone accepts expected device s) :=
  waitdoneDepth_outcome (Nat.lt_succ_self _) hflag

/-! ### Commands and events -/

/-- The loop polls while it has fewer completions than expected. -/
theorem length_lt_of_lt_loopPolls {i : Nat} (h : i < loopPolls n device) :
    (device.take i).flatten.length < n := by
  induction device generalizing n i with
  | nil =>
    rcases n with _ | n
    · simp [loopPolls] at h
    · simp
  | cons batch device ih =>
    rcases n with _ | n
    · simp [loopPolls] at h
    rcases i with _ | i
    · simp
    rw [loopPolls] at h
    have hi := ih (Nat.lt_of_succ_lt_succ h)
    rw [List.take_succ_cons, List.flatten_cons, List.length_append]
    omega

theorem le_commands_of_commandPolls (h : commandPolls n device ≤ device.length) :
    n ≤ commands (device.take (commandPolls n device)).flatten := by
  induction device generalizing n with
  | nil =>
    rcases n with _ | n
    · exact Nat.zero_le _
    · simp [commandPolls] at h
  | cons batch device ih =>
    rcases n with _ | n
    · exact Nat.zero_le _
    rw [commandPolls] at h ⊢
    have hi := ih (Nat.le_of_succ_le_succ h)
    rw [List.take_succ_cons, List.flatten_cons, commands_append]
    split_ifs at hi ⊢ <;> omega

theorem le_commands_of_waitPolls {expected : Nat} (h : waitPolls expected device ≤ device.length) :
    expected ≤ commands (device.take (waitPolls expected device)).flatten := by
  have hk : ¬device.length < loopPolls expected device := fun hlt => by
    rw [waitPolls, if_pos hlt] at h
    omega
  rw [waitPolls, if_neg hk] at h ⊢
  rw [List.take_add, List.flatten_append, commands_append]
  have hle : commandPolls (missing expected device) (device.drop (loopPolls expected device)) ≤
      (device.drop (loopPolls expected device)).length := by
    rw [List.length_drop]
    omega
  have hrest := le_commands_of_commandPolls hle
  rw [missing] at hrest ⊢
  omega

theorem outcome_of_waitdone {expected : Nat}
    (h : waitdone accepts expected device s = .returned s' device') :
    Returns s s' device device' (waitPolls expected device) := by
  have hflag : s.reentryFlag = false := by
    by_contra hf
    rw [waitdone, waitdoneDepth, if_pos (by simpa using hf)] at h
    cases h
  have ho := waitdone_outcome device accepts expected hflag
  rwa [h] at ho

/-- The AERs of the driver that are outstanding, of those sent. -/
def Admin.armed (s : Admin) : Int := s.aersSent - events s.processed

/-- The number of AERs that completed with an error. -/
def failedEvents (l : List Cqe) : Nat := l.countP fun c => c.aer && c.sctSc != 0#11

theorem goodEvents_add_failedEvents (l : List Cqe) :
    goodEvents l + failedEvents l = events l := by
  induction l with
  | nil => rfl
  | cons c l ih =>
    cases hc : c.aer
    · simpa [goodEvents, failedEvents, events, hc] using ih
    · by_cases h0 : c.sctSc = 0#11 <;>
        simp [goodEvents, failedEvents, events, hc, h0] at ih ⊢ <;> omega

/-- A call that returns has processed the next batches, with the commands that are
    expected among them; it has sent an AER for every one that completed with success,
    so that the AERs outstanding drop by those that failed. -/
theorem waitdone_reaps_and_rearms {expected : Nat}
    (h : waitdone accepts expected device s = .returned s' device') :
    ∃ k ≤ device.length, device' = device.drop k ∧
      s'.processed = s.processed ++ (device.take k).flatten ∧
      expected ≤ commands (device.take k).flatten ∧
      s'.aersSent = s.aersSent + goodEvents (device.take k).flatten ∧
      s'.armed = s.armed - failedEvents (device.take k).flatten := by
  have hret := outcome_of_waitdone h
  refine ⟨_, hret.le, hret.left, hret.processed, le_commands_of_waitPolls hret.le, hret.sent, ?_⟩
  have hevents := goodEvents_add_failedEvents (device.take (waitPolls expected device)).flatten
  rw [Admin.armed, Admin.armed, hret.sent, hret.processed, events_append]
  omega

/-- A command and an event that complete in one batch, then another command. -/
def mixedBatches : List (List Cqe) :=
  [[⟨true, 0x10#32, 0#11⟩, ⟨false, 7#32, 0#11⟩], [], [⟨false, 9#32, 0#11⟩]]

/-- The driver before the first command, with one AER outstanding. -/
def armedDriver : Admin := ⟨0#32, false, 0, 0, [], 1, []⟩

theorem waitdone_rearms_mixed :
    ∃ s', waitdone (fun _ => true) 2 mixedBatches armedDriver = .returned s' [] ∧
      2 ≤ commands s'.processed ∧ s'.armed = 1 := by
  have hrun : ∃ s', waitdone (fun _ => true) 2 mixedBatches armedDriver = .returned s' [] :=
    ⟨_, rfl⟩
  obtain ⟨s', hs⟩ := hrun
  obtain ⟨k, hk, hleft, hp, hexp, hsent, harmed⟩ := waitdone_reaps_and_rearms hs
  have hk3 : k = 3 := by
    have := congrArg List.length hleft
    simp only [mixedBatches, List.length_nil, List.length_drop, List.length_cons] at this hk
    omega
  subst hk3
  refine ⟨s', hs, ?_, ?_⟩
  · rwa [hp]
  · rw [harmed]
    decide

/-! ### Polls for nothing -/

/-- The driver when a call ends. -/
def WaitResult.state : WaitResult → Admin
  | .returned s _ => s
  | .raised _ s => s

/-- No poll since `s` was made once the expected number of commands had completed. -/
def PollsJustified (expected : Nat) (s s' : Admin) : Prop :=
  ∀ p ∈ s'.polls.drop s.polls.length, commands p < commands s.processed + expected

/-- The batches after those of the loop that have commands. -/
def laterBatches (expected : Nat) (device : List (List Cqe)) : List (List Cqe) :=
  (device.drop (loopPolls expected device)).filter fun batch => commands batch ≠ 0

/-- The commands that are missing after the loop do not all come before the last of the
    batches that are waited for. -/
def NoneTooMany (expected : Nat) (device : List (List Cqe)) : Prop :=
  missing expected device = 0 ∨
    commands ((laterBatches expected device).take (missing expected device - 1)).flatten <
      missing expected device

theorem PollsJustified.iff {expected : Nat} (h : Polled s s' device k) :
    PollsJustified expected s s' ↔ ∀ i < k, commands (device.take i).flatten < expected := by
  rw [PollsJustified, h.polls, List.drop_left]
  simp [commands_append]

theorem exists_commandPolls_eq_succ (n : Nat) (device : List (List Cqe)) :
    ∃ j, commandPolls (n + 1) device = j + 1 := by
  cases device <;> exact ⟨_, rfl⟩

/-- The commands before the last batch that is waited for. -/
theorem commands_take_commandPolls (n : Nat) (device : List (List Cqe)) :
    commands (device.take (commandPolls (n + 1) device - 1)).flatten =
      commands ((device.filter fun batch => commands batch ≠ 0).take n).flatten := by
  induction device generalizing n with
  | nil => simp
  | cons batch device ih =>
    rw [commandPolls, Nat.add_sub_cancel]
    by_cases hb : commands batch = 0
    · obtain ⟨j, hj⟩ := exists_commandPolls_eq_succ n device
      have hi := ih n
      rw [if_pos hb, List.filter_cons_of_neg (by simpa using hb), ← hi, hj, List.take_succ_cons,
        List.flatten_cons, commands_append, hb, Nat.zero_add, Nat.add_sub_cancel]
    · rw [if_neg hb, List.filter_cons_of_pos (by simpa using hb)]
      rcases n with _ | n
      · simp [commandPolls_zero]
      obtain ⟨j, hj⟩ := exists_commandPolls_eq_succ n device
      have hi := ih n
      rw [hj, Nat.add_sub_cancel] at hi
      rw [hj, List.take_succ_cons, List.take_succ_cons, List.flatten_cons, List.flatten_cons,
        commands_append, commands_append, hi]

theorem commands_take_mono {i j : Nat} (h : i ≤ j) :
    commands (device.take i).flatten ≤ commands (device.take j).flatten := by
  obtain ⟨m, rfl⟩ := Nat.exists_eq_add_of_le h
  rw [List.take_add, List.flatten_append, commands_append]
  exact Nat.le_add_right _ _

/-- The polls of a call that makes all of them. -/
theorem polls_justified_iff {expected : Nat} :
    (∀ i < waitPolls expected device, commands (device.take i).flatten < expected) ↔
      NoneTooMany expected device := by
  have hloop : ∀ i < loopPolls expected device, commands (device.take i).flatten < expected :=
    fun i hi => by
      have hlen := length_lt_of_lt_loopPolls hi
      have hcount := commands_add_events (device.take i).flatten
      omega
  rw [waitPolls, NoneTooMany]
  rcases hmiss : missing expected device with _ | d
  -- Nothing is missing, or the loop is still waiting.
  · rw [commandPolls_zero, Nat.add_zero, ite_self]
    exact iff_of_true hloop (.inl rfl)
  by_cases hk : device.length < loopPolls expected device
  · rw [if_pos hk, laterBatches, List.drop_eq_nil_of_le (Nat.le_of_lt hk)]
    exact iff_of_true hloop (.inr (by simp [commands]))
  rw [if_neg hk]
  obtain ⟨j, hj⟩ := exists_commandPolls_eq_succ d (device.drop (loopPolls expected device))
  have hcmds := commands_take_commandPolls d (device.drop (loopPolls expected device))
  rw [hj, Nat.add_sub_cancel] at hcmds
  -- The last poll is the one that has the most commands before it.
  have hlast : commands (device.take (loopPolls expected device + j)).flatten < expected ↔
      d + 1 = 0 ∨ commands ((laterBatches expected device).take (d + 1 - 1)).flatten < d + 1 := by
    rw [missing] at hmiss
    rw [List.take_add, List.flatten_append, commands_append, hcmds, laterBatches,
      Nat.add_sub_cancel]
    omega
  rw [hj, ← hlast]
  constructor
  · exact fun h => h _ (by omega)
  · intro h i hi
    exact Nat.lt_of_le_of_lt (commands_take_mono (by omega)) h

/-- When `waitdone` polls for no more than was asked: the batches it takes in place of
    the events of its loop, but for the last of them, have fewer commands than are
    missing; or it is called by a callback, and fails at once. An AER that cannot be
    sent again ends it earlier. -/
theorem waitdone_polls_justified (accepts : Nat → Bool) (expected : Nat)
    (device : List (List Cqe)) (s : Admin) :
    (s.reentryFlag = true ∨ NoneTooMany expected device →
        PollsJustified expected s (waitdone accepts expected device s).state) ∧
      ((∀ n, accepts n = true) →
        PollsJustified expected s (waitdone accepts expected device s).state →
        s.reentryFlag = true ∨ NoneTooMany expected device) := by
  cases hflag : s.reentryFlag with
  | true =>
    refine ⟨fun _ => ?_, fun _ _ => .inl rfl⟩
    rw [waitdone, waitdoneDepth, if_pos hflag, WaitResult.state, PollsJustified, List.drop_length]
    exact fun p hp => absurd hp List.not_mem_nil
  | false =>
    have ho := waitdone_outcome device accepts expected hflag
    constructor
    · intro h
      have hall := polls_justified_iff.2 (h.resolve_left Bool.false_ne_true)
      rcases hw : waitdone accepts expected device s with ⟨s', device'⟩ | ⟨e, s'⟩
      · rw [hw] at ho
        exact (PollsJustified.iff ho.toPolled).2 hall
      · rw [hw] at ho
        cases e with
        | timeout => exact (PollsJustified.iff ho.2).2 hall
        | submission =>
          obtain ⟨-, m, hm, hp⟩ := ho
          exact (PollsJustified.iff hp).2 fun i hi => hall i (Nat.lt_of_lt_of_le hi hm)
        | reentry => exact ho.elim
        | depth => exact ho.elim
    · intro hacc h
      refine .inr (polls_justified_iff.1 ?_)
      rcases hw : waitdone accepts expected device s with ⟨s', device'⟩ | ⟨e, s'⟩
      · rw [hw] at ho h
        exact (PollsJustified.iff ho.toPolled).1 h
      · rw [hw] at ho h
        cases e with
        | timeout => exact (PollsJustified.iff ho.2).1 h
        | submission =>
          obtain ⟨⟨j, hj⟩, -⟩ := ho
          exact absurd (hacc j) (by rw [hj]; exact Bool.false_ne_true)
        | reentry => exact ho.elim
        | depth => exact ho.elim

/-- Two events in the batch of the first command, then two commands at once. -/
def burstBatches : List (List Cqe) :=
  [[⟨true, 0x10#32, 0#11⟩, ⟨true, 0x11#32, 0#11⟩, ⟨false, 7#32, 0#11⟩],
    [⟨false, 8#32, 0#11⟩, ⟨false, 9#32, 0#11⟩]]

/-- A call for three commands, which have all completed, waits for one more until the
    alarm. -/
theorem waitdone_polls_after_burst :
    (∃ s', waitdone (fun _ => true) 3 burstBatches armedDriver = .raised .timeout s' ∧
      commands s'.processed = 3) ∧
    ¬PollsJustified 3 armedDriver (waitdone (fun _ => true) 3 burstBatches armedDriver).state := by
  refine ⟨⟨_, rfl, by decide⟩, fun h => ?_⟩
  exact absurd (h burstBatches.flatten (by decide)) (by decide)

/-! ### The dword 0 that is returned -/

/-- The last command of the completions. -/
def lastCommand (l : List Cqe) : Option Cqe := l.reverse.find? fun c => !c.aer

/-- The last AER after every command whose completion is handed on: one that was not
    aborted due to the deletion of its queue. -/
def lateEvent (l : List Cqe) : Option Cqe :=
  (l.reverse.takeWhile Cqe.aer).find? fun c => c.sctSc != 8#11

/-- The last batch that a call takes. -/
def lastBatch (expected : Nat) (device : List (List Cqe)) : List Cqe :=
  device.getD (waitPolls expected device - 1) []

theorem latestCdw0_eq (d : BitVec 32) (l : List Cqe) :
    latestCdw0 d l = (((lateEvent l).or (lastCommand l)).map Cqe.cdw0).getD d := by
  induction l using List.reverseRecOn generalizing d with
  | nil => rfl
  | append_singleton l c ih =>
    rw [latestCdw0_append, ih, lateEvent, lastCommand, lateEvent, lastCommand]
    cases hc : c.aer with
    | false => simp [latestCdw0, hc]
    | true =>
      by_cases h8 : c.sctSc = 8#11
      · simp [latestCdw0, hc, h8]
      · simp [latestCdw0, hc, h8]

theorem lastCommand_isSome_iff (l : List Cqe) : (lastCommand l).isSome ↔ commands l ≠ 0 := by
  simp [lastCommand, commands, List.countP_eq_zero]

theorem lastCommand_append {l : List Cqe} (h : commands l ≠ 0) (l' : List Cqe) :
    lastCommand (l' ++ l) = lastCommand l := by
  have hsome := (lastCommand_isSome_iff l).2 h
  rw [lastCommand] at hsome
  rw [lastCommand, List.reverse_append, List.find?_append, lastCommand, Option.or_of_isSome hsome]

theorem lateEvent_append {l : List Cqe} (h : commands l ≠ 0) (l' : List Cqe) :
    lateEvent (l' ++ l) = lateEvent l := by
  have hlen : (l.reverse.takeWhile Cqe.aer).length ≠ l.reverse.length := fun hlen => by
    have hall : ∀ c ∈ l, c.aer = true := by
      have heq := (List.takeWhile_sublist (l := l.reverse) Cqe.aer).eq_of_length hlen
      rw [List.takeWhile_eq_self_iff] at heq
      simpa using heq
    exact h (List.countP_eq_zero.2 fun c hc => by simp [hall c hc])
  rw [lateEvent, List.reverse_append, List.takeWhile_append, if_neg hlen, lateEvent]

theorem commands_last_of_commandPolls (n : Nat) {device : List (List Cqe)}
    (h : commandPolls (n + 1) device ≤ device.length) :
    commands (device.getD (commandPolls (n + 1) device - 1) []) ≠ 0 := by
  induction device generalizing n with
  | nil => simp [commandPolls] at h
  | cons batch device ih =>
    rw [commandPolls, List.length_cons] at h
    rw [commandPolls, Nat.add_sub_cancel]
    by_cases hb : commands batch = 0
    · rw [if_pos hb] at h ⊢
      obtain ⟨j, hj⟩ := exists_commandPolls_eq_succ n device
      have hi := ih n (Nat.le_of_succ_le_succ h)
      rw [hj, Nat.add_sub_cancel] at hi
      rwa [hj, List.getD_cons_succ]
    · rw [if_neg hb] at h ⊢
      rcases n with _ | n
      · rwa [commandPolls_zero, List.getD_cons_zero]
      · obtain ⟨j, hj⟩ := exists_commandPolls_eq_succ n device
        have hi := ih n (Nat.le_of_succ_le_succ h)
        rw [hj, Nat.add_sub_cancel] at hi
        rwa [hj, List.getD_cons_succ]

/-- A call for commands ends with a batch that has one. -/
theorem commands_lastBatch {expected : Nat} (hpos : 0 < expected)
    (h : waitPolls expected device ≤ device.length) :
    0 < waitPolls expected device ∧ commands (lastBatch expected device) ≠ 0 := by
  have hk : ¬device.length < loopPolls expected device := fun hlt => by
    rw [waitPolls, if_pos hlt] at h
    omega
  rw [lastBatch]
  rw [waitPolls, if_neg hk] at h ⊢
  rcases hmiss : missing expected device with _ | d
  -- The loop had too few completions before its last batch, and enough commands with it.
  · rw [commandPolls_zero, Nat.add_zero]
    rw [missing] at hmiss
    rcases hl : loopPolls expected device with _ | k
    · rw [hl, List.take_zero] at hmiss
      simp [commands] at hmiss
      omega
    · have hlen : (device.take k).flatten.length < expected := length_lt_of_lt_loopPolls (by omega)
      have hcount := commands_add_events (device.take k).flatten
      have hlt : k < device.length := by omega
      rw [hl, List.take_add_one, List.getElem?_eq_getElem hlt, Option.toList_some,
        List.flatten_append, commands_append, List.flatten_singleton] at hmiss
      refine ⟨Nat.succ_pos k, ?_⟩
      rw [Nat.add_sub_cancel, List.getD_eq_getElem _ _ hlt]
      omega
  · obtain ⟨j, hj⟩ := exists_commandPolls_eq_succ d (device.drop (loopPolls expected device))
    have hle : commandPolls (d + 1) (device.drop (loopPolls expected device)) ≤
        (device.drop (loopPolls expected device)).length := by
      rw [hmiss] at h
      rw [List.length_drop]
      omega
    have hlast := commands_last_of_commandPolls d hle
    rw [hj] at hlast ⊢
    refine ⟨by omega, ?_⟩
    rw [← Nat.add_assoc, Nat.add_sub_cancel]
    simpa [List.getD_eq_getElem?_getD] using hlast

theorem take_waitPolls_eq {expected : Nat} (hpos : 0 < expected)
    (h : waitPolls expected device ≤ device.length) :
    (device.take (waitPolls expected device)).flatten =
      (device.take (waitPolls expected device - 1)).flatten ++ lastBatch expected device := by
  obtain ⟨hk, -⟩ := commands_lastBatch hpos h
  obtain ⟨k, hk⟩ := Nat.exists_eq_add_of_lt hk
  have hlt : k < device.length := by omega
  rw [lastBatch, hk, Nat.zero_add, Nat.add_sub_cancel, List.take_add_one,
    List.getElem?_eq_getElem hlt, Option.toList_some, List.flatten_append,
    List.flatten_singleton, List.getD_eq_getElem _ _ hlt]

/-- When a call for at least one command returns the dword 0 of the last command that
    it processed: the AERs that come after the last command in the last batch were
    aborted due to the deletion of their queue, or the last one that was not has the
    same dword 0. -/
theorem waitdone_returns_last_command {expected : Nat} (hpos : 0 < expected)
    (h : waitdone accepts expected device s = .returned s' device') :
    (lastCommand (s'.processed.drop s.processed.length)).map Cqe.cdw0 = some s'.latestCqeCdw0 ↔
      ∀ e ∈ lateEvent (lastBatch expected device),
        (lastCommand (lastBatch expected device)).map Cqe.cdw0 = some e.cdw0 := by
  have hret := outcome_of_waitdone h
  obtain ⟨-, hcmd⟩ := commands_lastBatch hpos hret.le
  rw [hret.processed, List.drop_left, hret.latest, take_waitPolls_eq hpos hret.le,
    latestCdw0_eq, lastCommand_append hcmd, lateEvent_append hcmd]
  obtain ⟨c, hc⟩ := Option.isSome_iff_exists.1 ((lastCommand_isSome_iff _).2 hcmd)
  rcases hlate : lateEvent (lastBatch expected device) with _ | e <;> simp [hc]

/-- The command completes in one batch with a later event. -/
def eventLast : List (List Cqe) := [[⟨false, 7#32, 0#11⟩, ⟨true, 0x10#32, 0#11⟩]]

/-- The call returns the dword 0 of the event. -/
theorem waitdone_returns_event :
    ∃ s', waitdone (fun _ => true) 1 eventLast armedDriver = .returned s' [] ∧
      s'.processed = eventLast.flatten ∧ s'.latestCqeCdw0 = 0x10#32 ∧
      (lastCommand s'.processed).map Cqe.cdw0 = some 7#32 :=
  ⟨_, rfl, rfl, rfl, rfl⟩

theorem waitdone_returns_mixed :
    ∃ s', waitdone (fun _ => true) 2 mixedBatches armedDriver = .returned s' [] ∧
      (lastCommand (s'.processed.drop 0)).map Cqe.cdw0 = some s'.latestCqeCdw0 := by
  have hrun : ∃ s', waitdone (fun _ => true) 2 mixedBatches armedDriver = .returned s' [] :=
    ⟨_, rfl⟩
  obtain ⟨s', hs⟩ := hrun
  exact ⟨s', hs, (waitdone_returns_last_command (by decide) hs).2 (by decide)⟩

end Calls

end Pynvme
