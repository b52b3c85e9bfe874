import Pynvme.Cmdlog.Ring
import Pynvme.Lib.Ring

/-!
# The window of the command log

All commands that were added to the log of a queue, with their completions, are its
history (`LogRecord`); the log does not keep it. Of these commands the ring holds the
latest ones: each is in its slot, open as long as it is outstanding and then with its
own completion, since that of an overlapped command goes to its copy on the heap
(`window_of_reachable`).

The tail is the slot of the next command. The head is to be that of the oldest one:
`cmdlog_head_iff` tells when it is, as the head that `cmdlog_add_cmd` advances is
stored only where it wraps.
-/

namespace Pynvme

/-! ### The history -/

/-- A command that was added for the request `req`, and its completion with the time. -/
structure LogRecord where
  req : Nat
  x : LoggedReq
  time : Timeval
  cpl : Option (Cpl × Timeval)

/-- The record of an open command of the request `r`, when that completes. -/
def LogRecord.close (r : Nat) (cpl : Cpl) (now : Timeval) (y : LogRecord) : LogRecord :=
  if y.req = r ∧ y.cpl = none then { y with cpl := some (cpl, now) } else y

/-- The history after a step. -/
def recordLog (hist : List LogRecord) (_ : LogState) (e : LogEvent) (s' : LogState) :
    List LogRecord :=
  match e with
  | .add r x _ now => if s'.aborted = none then hist ++ [⟨r, x, now, none⟩] else hist
  | .complete r cpl now => hist.map (.close r cpl now)

/-- The command log of a queue with its history. -/
def cmdlogHistory : Machine (LogState × List LogRecord) LogEvent :=
  cmdlogMachine.withHistory [] recordLog

/-- The latency of a command, in microseconds of 32 bits. -/
def LogRecord.latencyUs (y : LogRecord) (now : Timeval) : Nat := (now.sub y.time).toUs

/-- The entry in a slot is that of the command `y`: open, or with its completion. -/
structure LogRecord.Shown (y : LogRecord) (e : LogEntry) : Prop where
  records : e.Records (y.x, y.time)
  opened : y.cpl = none → e.req = some y.req ∧ e.cplLatencyUs = 0
  closed : ∀ cpl now, y.cpl = some (cpl, now) →
    e.req = none ∧ e.cpl = cpl ∧ e.cplLatencyUs = y.latencyUs now

/-! ### The steps -/

variable {s s' : LogState} {hist : List LogRecord} {r : Nat} {x : LoggedReq} {alloc : Option Nat}
  {now : Timeval} {cpl : Cpl} {e : LogEntry}

/-- The slots of the ring. -/
def LogState.slots (s : LogState) (i : Nat) : Option LogEntry := s.log.mem (.ring i)

/-- What adding a command does to the ring, unless the process ends. -/
theorem cmdlogStep_add (h : Attached s) (hs : cmdlogStep s (.add r x alloc now) = some s') :
    (s'.aborted ≠ none ∧ alloc = none ∧ s'.log = s.log ∧ s'.outstanding = s.outstanding) ∨
    (s'.aborted = none ∧ s.outstanding r = none ∧
      s'.outstanding = Function.update s.outstanding r (some (x, now)) ∧
      s'.log.tailIndex = nextIndex s.log.tailIndex ∧
      s'.log.headIndex = (if s.log.headIndex = nextIndex s.log.tailIndex ∧
        s.log.headIndex + 1 = cmdLogDepth then 0 else s.log.headIndex) ∧
      ∃ e : LogEntry, s'.slots =
        Function.update s.slots s.log.tailIndex (some (e.link r x now))) := by
  rw [cmdlogStep] at hs
  split_ifs at hs with hcond
  obtain ⟨haborted, hr, -⟩ := hcond
  obtain rfl := Option.some.inj hs
  obtain ⟨e, he⟩ := Option.ne_none_iff_exists'.1 (h.linked.ring _ h.tail)
  rw [cmdlogAddCmd_eq he]
  rcases e.req with _ | r'
  · refine .inr ⟨haborted, hr, rfl, rfl, rfl, e, funext fun i => ?_⟩
    simp [LogState.slots, LogState.after, CmdLog.advance, Function.update_apply]
  · rcases alloc with _ | a
    · exact .inl ⟨by simp [LogState.after], rfl, rfl, rfl⟩
    · refine .inr ⟨haborted, hr, rfl, rfl, rfl, e, funext fun i => ?_⟩
      simp [LogState.slots, LogState.after, CmdLog.advance, Function.update_apply]

/-- What a completion does to the ring: it goes to the entry of its request, if that is
    there. -/
theorem cmdlogStep_complete (h : Attached s) (hs : cmdlogStep s (.complete r cpl now) = some s') :
    s'.aborted = none ∧ s'.outstanding = Function.update s.outstanding r none ∧
      s'.log.tailIndex = s.log.tailIndex ∧ s'.log.headIndex = s.log.headIndex ∧
      ∃ addr e, s.log.cmdlogEntry r = some addr ∧ s.log.mem addr = some e ∧ e.req = some r ∧
        ∀ i, s'.slots i = if addr = .ring i then
          some { e with cpl := cpl, cplLatencyUs := (now.sub e.timeCmd).toUs, req := none }
        else s.slots i := by
  rw [cmdlogStep] at hs
  split_ifs at hs with hcond
  obtain ⟨haborted, hr⟩ := hcond
  obtain rfl := Option.some.inj hs
  obtain ⟨x, hx⟩ := Option.ne_none_iff_exists'.1 hr
  obtain ⟨addr, e, haddr, he, hreq, -⟩ := h.linked.entry r x hx
  rw [cmdlogLogCpl_eq haddr he hreq]
  dsimp only
  split_ifs with hovl
  · obtain ⟨a, rfl⟩ := (h.linked.kind addr e he).1 hovl
    refine ⟨haborted, rfl, rfl, rfl, .heap a, e, haddr, he, hreq, fun i => ?_⟩
    simp [LogState.slots, LogState.after, CmdLog.dmaFree]
  · refine ⟨haborted, rfl, rfl, rfl, addr, e, haddr, he, hreq, fun i => ?_⟩
    simp [LogState.slots, LogState.after, Function.update_apply, eq_comm]

/-! ### The invariant -/

/-- The ring holds the latest commands of the history. A request has one open command at
    most, so that its completion is that of one command. -/
structure Windowed (s : LogState) (hist : List LogRecord) : Prop where
  tail : s.log.tailIndex = hist.length % cmdLogDepth
  head : s.log.headIndex = 0
  holds : Ring.Holds cmdLogDepth (fun y b => ∃ e, b = some e ∧ y.Shown e) (fun b => b = some .zero)
    s.slots hist
  opened : ∀ y ∈ hist, y.cpl = none → s.outstanding y.req ≠ none
  single : hist.Pairwise fun y z => y.cpl = none → z.cpl = none → y.req ≠ z.req

theorem LogEntry.link_shown (e : LogEntry) (r : Nat) (x : LoggedReq) (now : Timeval) :
    (⟨r, x, now, none⟩ : LogRecord).Shown (e.link r x now) where
  records := ⟨rfl, rfl, rfl, rfl⟩
  opened _ := ⟨rfl, rfl⟩
  closed := by simp

theorem LogRecord.Shown.close {y : LogRecord} (h : y.Shown e) (hreq : e.req = some r)
    (cpl : Cpl) (now : Timeval) :
    (y.close r cpl now).Shown
      { e with cpl := cpl, cplLatencyUs := (now.sub e.timeCmd).toUs, req := none } := by
  have hopen : y.cpl = none := by
    rcases hy : y.cpl with _ | ⟨cpl', now'⟩
    · rfl
    · have hnone := (h.closed cpl' now' hy).1
      rw [hreq] at hnone
      cases hnone
  have hr : y.req = r := Option.some.inj ((h.opened hopen).1.symm.trans hreq)
  have htime : e.timeCmd = y.time := h.records.timeCmd
  rw [LogRecord.close, if_pos ⟨hr, hopen⟩]
  refine ⟨⟨h.records.cmd, h.records.cid, h.records.buf, h.records.timeCmd⟩, by simp, ?_⟩
  rintro cpl' now' ⟨⟩
  exact ⟨rfl, rfl, by rw [htime]; rfl⟩

/-- The commands of other entries stay. -/
theorem LogRecord.Shown.close_of_ne {y : LogRecord} (h : y.Shown e) (hreq : e.req ≠ some r)
    (cpl : Cpl) (now : Timeval) : (y.close r cpl now).Shown e := by
  rw [LogRecord.close, if_neg]
  · exact h
  · rintro ⟨rfl, hopen⟩
    exact hreq (h.opened hopen).1

theorem LogState.Init.windowed (h : s.Init) : Windowed s [] where
  tail := h.tailIndex
  head := h.headIndex
  holds := Ring.holds_nil fun j hj => (h.ring j).trans (if_pos hj)
  opened := by simp
  single := .nil

theorem Windowed.add (h : Windowed s hist) (ha : Attached s)
    (hs : cmdlogStep s (.add r x alloc now) = some s') :
    Windowed s' (recordLog hist s (.add r x alloc now) s') := by
  rcases cmdlogStep_add ha hs with ⟨haborted, -, hlog, hout⟩ |
    ⟨haborted, hr, hout, htail, hhead, e, he⟩
  · rw [recordLog, if_neg haborted]
    have hslots : s'.slots = s.slots := funext fun i => by rw [LogState.slots, hlog, LogState.slots]
    exact ⟨by rw [hlog, h.tail], by rw [hlog, h.head], hslots ▸ h.holds, hout ▸ h.opened, h.single⟩
  · rw [recordLog, if_pos haborted]
    constructor
    case tail =>
      rw [htail, h.tail, List.length_append, nextIndex]
      exact Ring.next_mod (by decide) hist.length
    case head => rw [hhead, h.head, if_neg (by simp [cmdLogDepth])]
    case holds =>
      rw [he, h.tail]
      exact h.holds.push ⟨_, rfl, e.link_shown r x now⟩
    case opened =>
      rw [hout]
      intro y hy hopen
      rcases eq_or_ne y.req r with heq | hne
      · simp [heq]
      · rw [Function.update_of_ne hne]
        rcases List.mem_append.1 hy with hy | hy
        · exact h.opened y hy hopen
        · obtain rfl := List.mem_singleton.1 hy
          exact absurd rfl hne
    case single =>
      refine List.pairwise_append.2 ⟨h.single, List.pairwise_singleton .., fun y hy z hz => ?_⟩
      obtain rfl := List.mem_singleton.1 hz
      rintro hopen - rfl
      exact h.opened y hy hopen hr

theorem Windowed.complete (h : Windowed s hist) (ha : Attached s)
    (hs : cmdlogStep s (.complete r cpl now) = some s') :
    Windowed s' (recordLog hist s (.complete r cpl now) s') := by
  obtain ⟨-, hout, htail, hhead, addr, e, haddr, he, hreq, hslots⟩ := cmdlogStep_complete ha hs
  have hclosed : ∀ y : LogRecord, (y.close r cpl now).cpl = none →
      y.cpl = none ∧ y.req ≠ r ∧ (y.close r cpl now).req = y.req := by
    intro y hy
    rw [LogRecord.close] at hy ⊢
    split_ifs at hy ⊢ with hcond
    exact ⟨hy, fun hr => hcond ⟨hr, hy⟩, rfl⟩
  rw [recordLog]
  constructor
  case tail => rw [htail, h.tail, List.length_map]
  case head => rw [hhead, h.head]
  case holds =>
    constructor
    case written =>
      intro i y' hy' hi
      rw [List.getElem?_map, Option.map_eq_some_iff] at hy'
      obtain ⟨y, hy, rfl⟩ := hy'
      rw [List.length_map] at hi
      obtain ⟨e', he', hshown⟩ := h.holds.written i y hy hi
      rw [hslots]
      split_ifs with heq
      · -- The entry of the request is that of the command in this slot.
        have hslot : s.slots (i % cmdLogDepth) = some e := by rw [LogState.slots, ← heq, he]
        obtain rfl := Option.some.inj (he'.symm.trans hslot)
        exact ⟨_, rfl, hshown.close hreq cpl now⟩
      · refine ⟨e', he', hshown.close_of_ne (fun hr => heq ?_) cpl now⟩
        exact Option.some.inj (haddr.symm.trans (ha.linked.owner _ e' r he' hr).2)
    case fresh =>
      intro j hj hjn
      rw [List.length_map] at hj
      have hzero := h.holds.fresh j hj hjn
      rw [hslots, if_neg]
      · exact hzero
      · rintro rfl
        obtain rfl := Option.some.inj (he.symm.trans hzero)
        cases hreq
  case opened =>
    intro y' hy' hopen
    obtain ⟨y, hy, rfl⟩ := List.mem_map.1 hy'
    obtain ⟨hnone, hne, hsame⟩ := hclosed y hopen
    rw [hout, hsame, Function.update_of_ne hne]
    exact h.opened y hy hnone
  case single =>
    refine List.pairwise_map.2 (h.single.imp fun {y z} hyz hy hz => ?_)
    obtain ⟨hy, -, hyreq⟩ := hclosed y hy
    obtain ⟨hz, -, hzreq⟩ := hclosed z hz
    rw [hyreq, hzreq]
    exact hyz hy hz

/-- In every state of a run the ring holds the latest commands. -/
theorem window_of_reachable {P : LogState × List LogRecord → LogEvent → Prop}
    {a : LogState × List LogRecord} (h : cmdlogHistory.Reachable P a) :
    Attached a.1 ∧ Windowed a.1 a.2 := by
  refine h.invariant (I := fun a => Attached a.1 ∧ Windowed a.1 a.2) ?_ ?_
  · rintro ⟨s, hist⟩ ⟨hinit, rfl⟩
    exact ⟨hinit.attached, hinit.windowed⟩
  · rintro ⟨s, hist⟩ e ⟨s', hist'⟩ ⟨ha, hw⟩ - hs
    obtain ⟨hstep, rfl⟩ := Machine.withHistory_step.1 hs
    cases e with
    | add r x alloc now => exact ⟨ha.add hstep, hw.add ha hstep⟩
    | complete r cpl now => exact ⟨ha.complete hstep, hw.complete ha hstep⟩

/-- There are runs with any number of commands, which all have completed. -/
theorem exists_commands {P : LogState × List LogRecord → LogEvent → Prop} (x : LoggedReq)
    (now : Timeval) (cpl : Cpl) (hadd : ∀ a, P a (.add 0 x (some 0) now))
    (hcpl : ∀ a, P a (.complete 0 cpl now)) (n : Nat) :
    ∃ s hist, cmdlogHistory.Reachable P (s, hist) ∧ hist.length = n ∧ s.aborted = none ∧
      ∀ r, s.outstanding r = none := by
  induction n with
  | zero => exact ⟨.start, [], .init ⟨LogState.start_init, rfl⟩, rfl, rfl, fun _ => rfl⟩
  | succ n ih =>
    obtain ⟨s, hist, hs, hlen, haborted, hout⟩ := ih
    obtain ⟨hatt, -⟩ := window_of_reachable hs
    have hheap : ∀ a ∈ some 0, s.log.mem (.heap a) = none := by
      rintro a ⟨⟩
      by_contra hne
      obtain ⟨e, he⟩ := Option.ne_none_iff_exists'.1 hne
      obtain ⟨r, hr⟩ := Option.ne_none_iff_exists'.1 (hatt.linked.heap 0 e he)
      exact (hatt.linked.owner _ e r he hr).1 (hout r)
    have hstep : cmdlogStep s (.add 0 x (some 0) now) = some _ :=
      if_pos ⟨haborted, hout 0, hheap⟩
    have hs₁ := hs.step (hadd _) (Machine.withHistory_step.2 ⟨hstep, rfl⟩)
    rcases cmdlogStep_add hatt hstep with ⟨-, hnone, -⟩ | ⟨haborted₁, -, hout₁, -⟩
    · cases hnone
    obtain ⟨hatt₁, -⟩ := window_of_reachable hs₁
    have hstep₁ : cmdlogStep _ (.complete 0 cpl now) = some _ :=
      if_pos ⟨haborted₁, by simp [hout₁]⟩
    have hs₂ := hs₁.step (hcpl _) (Machine.withHistory_step.2 ⟨hstep₁, rfl⟩)
    obtain ⟨haborted₂, hout₂, -⟩ := cmdlogStep_complete hatt₁ hstep₁
    refine ⟨_, _, hs₂, ?_, haborted₂, fun r => ?_⟩
    · simp only [recordLog, List.length_map, if_pos haborted₁, List.length_append, hlen]
      rfl
    · rw [hout₂, hout₁, Function.update_idem]
      rcases eq_or_ne r 0 with rfl | hne
      · exact Function.update_self ..
      · rw [Function.update_of_ne hne, hout]

/-! ### The head -/

/-- After `n` commands, the tail is the slot of the next one, and the head that of the oldest
    one in the window. -/
def CmdLog.HeadTracks (s : CmdLog) (n : Nat) : Prop :=
  s.tailIndex = n % cmdLogDepth ∧
  s.headIndex = (if n < cmdLogDepth then 0 else (s.tailIndex + 1) % cmdLogDepth) ∧
  (0 < n → s.headIndex ≠ s.tailIndex)

/-- The head stays at the slot 0: it is that of the oldest command until the ring is full, and
    then once in every round. -/
theorem cmdlog_head_iff {P : LogState × List LogRecord → LogEvent → Prop}
    (h : cmdlogHistory.Reachable P (s, hist)) :
    s.log.HeadTracks hist.length ↔
      hist.length < cmdLogDepth ∨ (hist.length + 1) % cmdLogDepth = 0 := by
  obtain ⟨-, hw⟩ := window_of_reachable h
  have htail : s.log.tailIndex = hist.length % cmdLogDepth := hw.tail
  have hhead : s.log.headIndex = 0 := hw.head
  rw [CmdLog.HeadTracks, htail, hhead, cmdLogDepth]
  split_ifs <;> omega

/-- The head is right after the first command. -/
theorem cmdlog_head_first :
    ∃ s hist, cmdlogHistory.Reachable (fun _ _ => True) (s, hist) ∧ hist.length = 1 ∧
      s.log.HeadTracks hist.length := by
  obtain ⟨s, hist, hs, hlen, -⟩ := exists_commands (P := fun _ _ => True)
    ⟨LogEntry.zero.cmd, 1#16, 512⟩ ⟨1, 0⟩ ⟨0#32, 1#16, .success⟩ (fun _ => trivial)
    (fun _ => trivial) 1
  exact ⟨s, hist, hs, hlen, (cmdlog_head_iff hs).2 (.inl (by rw [hlen]; decide))⟩

/-- When the ring has come round, the head is the tail. -/
theorem cmdlog_head_not_tracks :
    ∃ s hist, cmdlogHistory.Reachable (fun _ _ => True) (s, hist) ∧ hist.length = cmdLogDepth ∧
      s.log.headIndex = s.log.tailIndex ∧ ¬s.log.HeadTracks hist.length := by
  obtain ⟨s, hist, hs, hlen, -⟩ := exists_commands (P := fun _ _ => True)
    ⟨LogEntry.zero.cmd, 2#16, 512⟩ ⟨1, 0⟩ ⟨0#32, 2#16, .success⟩ (fun _ => trivial)
    (fun _ => trivial) cmdLogDepth
  obtain ⟨-, hw⟩ := window_of_reachable hs
  have htail : s.log.tailIndex = 0 := by rw [hw.tail, hlen, Nat.mod_self]
  have hhead : s.log.headIndex = s.log.tailIndex := hw.head.trans htail.symm
  refine ⟨s, hist, hs, hlen, hhead, fun htracks => htracks.2.2 ?_ hhead⟩
  rw [hlen]
  decide

end Pynvme
