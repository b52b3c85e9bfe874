import Pynvme.Ioworker.State
import Pynvme.Lib.Machine

/-!
# The command log

Every queue keeps its latest commands in a ring (`cmdlog_add_cmd`). A request points
to the entry of its command, and the entry points back to the request until that
completes (`cmdlog_cmd_cpl`): the data of a read is verified with the command and the
buffer in the entry. When the ring comes round to an entry whose command is still
outstanding, the entry is moved to the heap, and freed when the command completes.

The ring and the heap are one memory, in which an address is that of an entry of the
ring or of an allocated one. The machine `cmdlogMachine` adds and completes commands
in any order; what holds of all its states is `Attached`.
-/

namespace Pynvme

/-! ### Memory -/

/-- `CMD_LOG_DEPTH`. -/
def cmdLogDepth : Nat := 2050

/-- The address of an entry. -/
inductive EntryAddr
  | ring (i : Nat)
  | heap (a : Nat)
  deriving DecidableEq

/-- What a request has when it is added: its command with its identifier, and the address
    of its payload. -/
structure LoggedReq where
  cmd : NvmeCmd
  cid : BitVec 16
  buf : Nat
  deriving DecidableEq

/-- The completion that the device returns. -/
structure Cpl where
  cdw0 : BitVec 32
  cid : BitVec 16
  status : Status
  deriving DecidableEq

/-- `struct cmd_log_entry_t`. The requests are numbered. -/
structure LogEntry where
  cmd : NvmeCmd
  cid : BitVec 16
  timeCmd : Timeval
  cpl : Cpl
  cplLatencyUs : Nat
  overlapAllocated : Bool
  buf : Nat
  req : Option Nat

/-- An entry of the memory reserved for a new table, which is zeroed. -/
def LogEntry.zero : LogEntry where
  cmd := ⟨0#8, 0#32, 0#32, 0#32, 0#32, 0#32, 0#32⟩
  cid := 0#16
  timeCmd := ⟨0, 0⟩
  cpl := ⟨0#32, 0#16, .success⟩
  cplLatencyUs := 0
  overlapAllocated := false
  buf := 0
  req := none

/-- `struct cmd_log_table_t` of a queue, with the entries on the heap, and the field
    `cmdlog_entry` of the requests. Recorded are the addresses allocated and freed. -/
structure CmdLog where
  mem : EntryAddr → Option LogEntry
  headIndex : Nat
  tailIndex : Nat
  latestLatencyUs : Nat
  latestCid : BitVec 16
  cmdlogEntry : Nat → Option EntryAddr
  allocated : List Nat
  freed : List Nat

/-- What ends the process: the assertions, on the tail and on an overlapped entry, and the
    use of a null pointer, of freed memory, or of memory that was not allocated. -/
inductive LogAbort
  | tailIndex
  | overlapped
  | nullPointer
  | freed
  | notAllocated
  deriving DecidableEq

/-! ### Commands -/

/-- The entry `e` at `slot` is overlapped before its command completes: it is kept in the
    request, in memory allocated at `alloc`. -/
def CmdLog.keepOverlapped (s : CmdLog) (e : LogEntry) (alloc : Option Nat) :
    Except LogAbort CmdLog :=
  match e.req, alloc with
  | none, _ => .ok s
  | some _, none => .error .nullPointer
  | some r, some a => .ok { s with
      mem := Function.update s.mem (.heap a) (some { e with overlapAllocated := true })
      cmdlogEntry := Function.update s.cmdlogEntry r (some (.heap a))
      allocated := s.allocated ++ [a] }

/-- The next index of the ring. -/
def nextIndex (i : Nat) : Nat := if i + 1 = cmdLogDepth then 0 else i + 1

/-- The indices after an entry was added; the head is stored only when it comes round. -/
def CmdLog.advance (s : CmdLog) : CmdLog :=
  let tail := nextIndex s.tailIndex
  { s with
    tailIndex := tail
    headIndex := if s.headIndex = tail ∧ s.headIndex + 1 = cmdLogDepth then 0 else s.headIndex }

/-- `cmdlog_add_cmd`, for the request `r`. -/
def cmdlogAddCmd (s : CmdLog) (r : Nat) (x : LoggedReq) (alloc : Option Nat) (now : Timeval) :
    Except LogAbort CmdLog :=
  let slot := EntryAddr.ring s.tailIndex
  match s.mem slot with
  | none => .error .tailIndex
  | some e => do
    let s ← { s with latestCid := x.cid }.keepOverlapped e alloc
    let e := { e with
      overlapAllocated := false
      buf := x.buf
      cplLatencyUs := 0
      cmd := x.cmd
      cid := x.cid
      timeCmd := now
      -- link req and cmdlog entry
      req := some r }
    return { s with
      mem := Function.update s.mem slot (some e)
      cmdlogEntry := Function.update s.cmdlogEntry r (some slot) }.advance

/-- `spdk_dma_free`. -/
def CmdLog.dmaFree (s : CmdLog) : EntryAddr → Except LogAbort CmdLog
  | .ring _ => .error .notAllocated
  | .heap a => .ok { s with
      mem := Function.update s.mem (.heap a) none
      freed := s.freed ++ [a] }

/-- `cmdlog_cmd_cpl`, besides the CRC table (`cmdlogCmdCpl`). -/
def cmdlogLogCpl (s : CmdLog) (r : Nat) (cpl : Cpl) (now : Timeval) : Except LogAbort CmdLog :=
  match s.cmdlogEntry r with
  | none => .ok s
  | some addr =>
    match s.mem addr with
    | none => .error .freed
    | some e =>
      -- check if the log entry is still for this completed cmd
      if e.req ≠ some r then .error .overlapped
      else
        let latency := (now.sub e.timeCmd).toUs
        let s := { s with
          mem := Function.update s.mem addr
            (some { e with cpl, cplLatencyUs := latency, req := none })
          latestLatencyUs := latency
          cmdlogEntry := Function.update s.cmdlogEntry r none }
        -- free the allocated log entry in request
        if e.overlapAllocated then s.dmaFree addr else .ok s

/-! ### The machine -/

/-- The log, what was recorded of the requests that are outstanding, and what ended the
    process. -/
structure LogState where
  log : CmdLog
  outstanding : Nat → Option (LoggedReq × Timeval)
  aborted : Option LogAbort

/-- A request is added, with the address that an allocation gives, or none; or a request
    completes. -/
inductive LogEvent
  | add (r : Nat) (x : LoggedReq) (alloc : Option Nat) (now : Timeval)
  | complete (r : Nat) (cpl : Cpl) (now : Timeval)

/-- The state after a call that adds the requests `outstanding`. -/
def LogState.after (s : LogState) (outstanding : Nat → Option (LoggedReq × Timeval)) :
    Except LogAbort CmdLog → LogState
  | .ok log => { s with log, outstanding }
  | .error why => { s with aborted := some why }

/-- A step: only requests that are not outstanding are added, and only those that are
    complete. An allocation gives memory that is not in use. -/
def cmdlogStep (s : LogState) : LogEvent → Option LogState
  | .add r x alloc now =>
    if s.aborted = none ∧ s.outstanding r = none ∧ ∀ a ∈ alloc, s.log.mem (.heap a) = none then
      some (s.after (Function.update s.outstanding r (some (x, now)))
        (cmdlogAddCmd s.log r x alloc now))
    else none
  | .complete r cpl now =>
    if s.aborted = none ∧ s.outstanding r ≠ none then
      some (s.after (Function.update s.outstanding r none) (cmdlogLogCpl s.log r cpl now))
    else none

/-- A new log, of a queue without outstanding requests. -/
structure LogState.Init (s : LogState) : Prop where
  ring : ∀ i, s.log.mem (.ring i) = if i < cmdLogDepth then some .zero else none
  heap : ∀ a, s.log.mem (.heap a) = none
  tailIndex : s.log.tailIndex = 0
  headIndex : s.log.headIndex = 0
  allocated : s.log.allocated = []
  freed : s.log.freed = []
  outstanding : ∀ r, s.outstanding r = none
  aborted : s.aborted = none

/-- The command log of a queue. -/
def cmdlogMachine : Machine LogState LogEvent where
  init := LogState.Init
  step := cmdlogStep

/-! ### What a call does -/

variable {s s' : CmdLog} {r : Nat} {x : LoggedReq} {alloc : Option Nat} {now : Timeval}

/-- The entry of a request that was added. -/
def LogEntry.link (e : LogEntry) (r : Nat) (x : LoggedReq) (now : Timeval) : LogEntry :=
  { e with
    overlapAllocated := false
    buf := x.buf
    cplLatencyUs := 0
    cmd := x.cmd
    cid := x.cid
    timeCmd := now
    req := some r }

/-- The tail stays in the ring. -/
theorem nextIndex_lt {i : Nat} (h : i < cmdLogDepth) : nextIndex i < cmdLogDepth := by
  rw [nextIndex]
  split_ifs <;> omega

/-- What adding a request does: to an entry that is free, or to one that is moved to the
    heap before. -/
theorem cmdlogAddCmd_eq {e : LogEntry} (he : s.mem (.ring s.tailIndex) = some e) :
    cmdlogAddCmd s r x alloc now =
      match e.req, alloc with
      | none, _ => .ok { s with
          latestCid := x.cid
          mem := Function.update s.mem (.ring s.tailIndex) (some (e.link r x now))
          cmdlogEntry := Function.update s.cmdlogEntry r (some (.ring s.tailIndex)) }.advance
      | some _, none => .error .nullPointer
      | some r', some a => .ok { s with
          latestCid := x.cid
          mem := Function.update
            (Function.update s.mem (.heap a) (some { e with overlapAllocated := true }))
            (.ring s.tailIndex) (some (e.link r x now))
          cmdlogEntry := Function.update (Function.update s.cmdlogEntry r' (some (.heap a))) r
            (some (.ring s.tailIndex))
          allocated := s.allocated ++ [a] }.advance := by
  rw [cmdlogAddCmd]
  simp only [he, CmdLog.keepOverlapped]
  rcases e.req with _ | r' <;> rcases alloc with _ | a <;> rfl

/-- What the completion of a request does that has an entry. -/
theorem cmdlogLogCpl_eq {addr : EntryAddr} {e : LogEntry} {cpl : Cpl}
    (haddr : s.cmdlogEntry r = some addr) (he : s.mem addr = some e) (hreq : e.req = some r) :
    cmdlogLogCpl s r cpl now =
      let latency := (now.sub e.timeCmd).toUs
      let s := { s with
        mem := Function.update s.mem addr
          (some { e with cpl := cpl, cplLatencyUs := latency, req := none })
        latestLatencyUs := latency
        cmdlogEntry := Function.update s.cmdlogEntry r none }
      if e.overlapAllocated then s.dmaFree addr else .ok s := by
  rw [cmdlogLogCpl]
  simp only [haddr, he, hreq, ne_eq, not_true, if_false]

/-! ### The invariant -/

/-- The entry holds what was recorded of a request. -/
structure LogEntry.Records (e : LogEntry) (x : LoggedReq × Timeval) : Prop where
  cmd : e.cmd = x.1.cmd
  cid : e.cid = x.1.cid
  buf : e.buf = x.1.buf
  timeCmd : e.timeCmd = x.2

/-- The entries in a memory and the outstanding requests point to each other; the entries on
    the heap are those of outstanding requests, and the only ones marked as allocated. -/
structure Linked (mem : EntryAddr → Option LogEntry) (cmdlogEntry : Nat → Option EntryAddr)
    (outstanding : Nat → Option (LoggedReq × Timeval)) : Prop where
  ring : ∀ i < cmdLogDepth, mem (.ring i) ≠ none
  entry : ∀ r x, outstanding r = some x → ∃ addr e, cmdlogEntry r = some addr ∧
    mem addr = some e ∧ e.req = some r ∧ e.Records x
  owner : ∀ addr e r, mem addr = some e → e.req = some r →
    outstanding r ≠ none ∧ cmdlogEntry r = some addr
  heap : ∀ a e, mem (.heap a) = some e → e.req ≠ none
  kind : ∀ addr e, mem addr = some e → (e.overlapAllocated = true ↔ ∃ a, addr = .heap a)

/-- Every address was freed as often as it was allocated, and once less if it is in use. -/
def Balanced (mem : EntryAddr → Option LogEntry) (allocated freed : List Nat) : Prop :=
  ∀ a, allocated.count a = freed.count a + if (mem (.heap a)).isSome then 1 else 0

section Links

variable {mem : EntryAddr → Option LogEntry} {cmdlogEntry : Nat → Option EntryAddr}
  {outstanding : Nat → Option (LoggedReq × Timeval)} {e : LogEntry} {i a : Nat}
  {addr : EntryAddr} {x : LoggedReq × Timeval}

/-- An address of a memory with one change is the changed one or another. -/
theorem eq_some_of_update {b : EntryAddr} {o : Option LogEntry} {e' : LogEntry}
    (h : Function.update mem addr o b = some e') :
    (b = addr ∧ o = some e') ∨ (b ≠ addr ∧ mem b = some e') := by
  rcases eq_or_ne b addr with rfl | hne
  · rw [Function.update_self] at h
    exact .inl ⟨rfl, h⟩
  · rw [Function.update_of_ne hne] at h
    exact .inr ⟨hne, h⟩

/-- An entry of the ring that is changed is still there. -/
theorem Linked.ring_update (h : Linked mem cmdlogEntry outstanding) {o : Option LogEntry}
    (ho : ∀ i, addr = .ring i → o ≠ none) {j : Nat} (hj : j < cmdLogDepth) :
    Function.update mem addr o (.ring j) ≠ none := by
  rcases eq_or_ne (.ring j) addr with rfl | hja
  · rw [Function.update_self]
    exact ho j rfl
  · rw [Function.update_of_ne hja]
    exact h.ring j hj

/-- An entry that is put at an address has to be of the kind of the address. -/
theorem Linked.kind_update (h : Linked mem cmdlogEntry outstanding) {o : Option LogEntry}
    (ho : ∀ e', o = some e' → (e'.overlapAllocated = true ↔ ∃ a, addr = .heap a))
    {b : EntryAddr} {e' : LogEntry} (he' : Function.update mem addr o b = some e') :
    e'.overlapAllocated = true ↔ ∃ a, b = .heap a := by
  obtain ⟨rfl, hnew⟩ | ⟨-, hold⟩ := eq_some_of_update he'
  · exact ho e' hnew
  · exact h.kind b e' hold

variable (addr) in
/-- A request is attached to an entry that no request has. -/
theorem Linked.attach (h : Linked mem cmdlogEntry outstanding)
    (hfree : ∀ e', mem addr = some e' → e'.req = none) (hout : outstanding r = none)
    (hr : e.req = some r) (hrec : e.Records x)
    (hkind : e.overlapAllocated = true ↔ ∃ a, addr = .heap a) :
    Linked (Function.update mem addr (some e)) (Function.update cmdlogEntry r (some addr))
      (Function.update outstanding r (some x)) := by
  have hne : ∀ r', outstanding r' ≠ none → r' ≠ r := by
    rintro r' hr' rfl
    exact hr' hout
  constructor
  case ring =>
    exact fun j hj => h.ring_update (fun _ _ => Option.some_ne_none e) hj
  case entry =>
    intro r' x' hx
    rcases eq_or_ne r' r with rfl | hrr
    · rw [Function.update_self] at hx
      obtain rfl := Option.some.inj hx
      exact ⟨addr, e, Function.update_self .., Function.update_self .., hr, hrec⟩
    · rw [Function.update_of_ne hrr] at hx
      obtain ⟨addr', e', haddr, he', hr', hrec'⟩ := h.entry r' x' hx
      refine ⟨addr', e', by rwa [Function.update_of_ne hrr], ?_, hr', hrec'⟩
      rw [Function.update_of_ne]
      · exact he'
      · rintro rfl
        rw [hfree e' he'] at hr'
        cases hr'
  case owner =>
    intro addr' e' r' he' hr'
    obtain ⟨rfl, hnew⟩ | ⟨-, hold⟩ := eq_some_of_update he'
    · obtain rfl := Option.some.inj hnew
      obtain rfl : r = r' := Option.some.inj (hr.symm.trans hr')
      simp
    · obtain ⟨hout', hentry⟩ := h.owner addr' e' r' hold hr'
      rw [Function.update_of_ne (hne r' hout'), Function.update_of_ne (hne r' hout')]
      exact ⟨hout', hentry⟩
  case heap =>
    intro b e' he'
    obtain ⟨-, hnew⟩ | ⟨-, hold⟩ := eq_some_of_update he'
    · obtain rfl := Option.some.inj hnew
      simp [hr]
    · exact h.heap b e' hold
  case kind =>
    intro addr' e' he'
    refine h.kind_update (fun e'' hnew => ?_) he'
    obtain rfl := Option.some.inj hnew
    exact hkind

/-- A request is detached from its entry: that stays in the ring without a request, or it is
    freed. -/
theorem Linked.detach (h : Linked mem cmdlogEntry outstanding)
    (haddr : cmdlogEntry r = some addr) (he : mem addr = some e) (hr : e.req = some r)
    {o : Option LogEntry} (hring : ∀ i, addr = .ring i → o ≠ none)
    (hfree : ∀ e', o = some e' →
      e'.req = none ∧ e'.overlapAllocated = false ∧ ∀ a, addr ≠ .heap a) :
    Linked (Function.update mem addr o) (Function.update cmdlogEntry r none)
      (Function.update outstanding r none) := by
  constructor
  case ring =>
    exact fun j hj => h.ring_update hring hj
  case entry =>
    intro r' x' hx
    rcases eq_or_ne r' r with rfl | hne
    · simp at hx
    · rw [Function.update_of_ne hne] at hx
      obtain ⟨addr', e', haddr', he', hr', hrec⟩ := h.entry r' x' hx
      refine ⟨addr', e', by rwa [Function.update_of_ne hne], ?_, hr', hrec⟩
      rw [Function.update_of_ne]
      · exact he'
      -- The other requests have other entries.
      · rintro rfl
        rw [he] at he'
        obtain rfl := Option.some.inj he'
        exact hne (Option.some.inj (hr'.symm.trans hr))
  case owner =>
    intro addr' e' r' he' hr'
    obtain ⟨rfl, hnew⟩ | ⟨hne, hold⟩ := eq_some_of_update he'
    · rw [(hfree e' hnew).1] at hr'
      cases hr'
    · obtain ⟨hout, hentry⟩ := h.owner addr' e' r' hold hr'
      have hrr : r' ≠ r := by
        rintro rfl
        exact hne (Option.some.inj (hentry.symm.trans haddr))
      rw [Function.update_of_ne hrr, Function.update_of_ne hrr]
      exact ⟨hout, hentry⟩
  case heap =>
    intro b e' he'
    obtain ⟨hb, hnew⟩ | ⟨-, hold⟩ := eq_some_of_update he'
    · exact absurd hb.symm ((hfree e' hnew).2.2 b)
    · exact h.heap b e' hold
  case kind =>
    intro addr' e' he'
    refine h.kind_update (fun e'' hnew => ?_) he'
    obtain ⟨-, hovl, hheap⟩ := hfree e'' hnew
    simp [hovl, hheap]

/-- An entry of the ring has no memory of its own. -/
theorem Linked.not_overlapAllocated (h : Linked mem cmdlogEntry outstanding)
    (he : mem (.ring i) = some e) : e.overlapAllocated = false := by
  rw [Bool.eq_false_iff]
  intro hovl
  obtain ⟨a, ha⟩ := (h.kind _ e he).1 hovl
  cases ha

/-- An entry of the ring is moved to the heap: its request is detached from the one and attached
    to the other. -/
theorem Linked.move (h : Linked mem cmdlogEntry outstanding) (he : mem (.ring i) = some e)
    (hr : e.req = some r) (ha : mem (.heap a) = none) :
    Linked (Function.update (Function.update mem (.heap a)
        (some { e with overlapAllocated := true })) (.ring i) (some { e with req := none }))
      (Function.update cmdlogEntry r (some (.heap a))) outstanding := by
  obtain ⟨hout, hentry⟩ := h.owner _ e r he hr
  obtain ⟨x, hx⟩ := Option.ne_none_iff_exists'.1 hout
  obtain ⟨addr, e', haddr, he', -, hrec⟩ := h.entry r x hx
  obtain rfl : .ring i = addr := Option.some.inj (hentry.symm.trans haddr)
  obtain rfl : e = e' := Option.some.inj (he.symm.trans he')
  have hdetached := h.detach hentry he hr (o := some { e with req := none }) (by simp)
    (by simpa using h.not_overlapAllocated he)
  have hattached := hdetached.attach (.heap a) (e := { e with overlapAllocated := true })
    (x := x) (by simp [ha]) (Function.update_self ..) hr
    ⟨hrec.cmd, hrec.cid, hrec.buf, hrec.timeCmd⟩ (by simp)
  rw [Function.update_idem, Function.update_idem, ← hx, Function.update_eq_self] at hattached
  rwa [Function.update_comm (by simp)]

/-- A request is linked to an entry of the ring that is free. -/
theorem Linked.link (h : Linked mem cmdlogEntry outstanding) (he : mem (.ring i) = some e)
    (hfree : e.req = none) (hr : outstanding r = none) (y : LoggedReq) (now : Timeval) :
    Linked (Function.update mem (.ring i) (some (e.link r y now)))
      (Function.update cmdlogEntry r (some (.ring i)))
      (Function.update outstanding r (some (y, now))) := by
  refine h.attach (.ring i) (fun e' he' => ?_) hr rfl ⟨rfl, rfl, rfl, rfl⟩
    (by simp [LogEntry.link])
  obtain rfl : e = e' := Option.some.inj (he.symm.trans he')
  exact hfree

theorem Balanced.allocate {allocated freed : List Nat} (h : Balanced mem allocated freed)
    (ha : mem (.heap a) = none) (e : LogEntry) :
    Balanced (Function.update mem (.heap a) (some e)) (allocated ++ [a]) freed := by
  intro b
  have hb := h b
  rw [List.count_append, List.count_singleton]
  rcases eq_or_ne b a with rfl | hne
  · rw [ha] at hb
    simp [hb]
  · rw [Function.update_of_ne (by simpa using hne), hb]
    simp [hne.symm]

theorem Balanced.free {allocated freed : List Nat} (h : Balanced mem allocated freed)
    (ha : mem (.heap a) = some e) :
    Balanced (Function.update mem (.heap a) none) allocated (freed ++ [a]) := by
  intro b
  have hb := h b
  rw [List.count_append, List.count_singleton]
  rcases eq_or_ne b a with rfl | hne
  · rw [ha] at hb
    simp [hb]
  · rw [Function.update_of_ne (by simpa using hne), hb]
    simp [hne.symm]

theorem Balanced.ring {allocated freed : List Nat} (h : Balanced mem allocated freed)
    (o : Option LogEntry) : Balanced (Function.update mem (.ring i) o) allocated freed := by
  intro b
  rw [Function.update_of_ne (by simp), h b]

end Links

/-! ### The runs -/

/-- The log of a queue, in any state of a run. Only a failed allocation ends the process. -/
structure Attached (s : LogState) : Prop where
  tail : s.log.tailIndex < cmdLogDepth
  linked : Linked s.log.mem s.log.cmdlogEntry s.outstanding
  balanced : Balanced s.log.mem s.log.allocated s.log.freed
  aborted : ∀ why ∈ s.aborted, why = .nullPointer

section Runs

variable {s s' : LogState} {cpl : Cpl}

theorem LogState.Init.attached (h : s.Init) : Attached s := by
  have hmem : ∀ addr e, s.log.mem addr = some e → e = .zero ∧ ∃ i, addr = .ring i := by
    intro addr e he
    rcases addr with i | a
    · rw [h.ring] at he
      split_ifs at he
      exact ⟨(Option.some.inj he).symm, i, rfl⟩
    · rw [h.heap] at he
      cases he
  refine ⟨by simp [h.tailIndex, cmdLogDepth], ?_, ?_, by simp [h.aborted]⟩
  · constructor
    case ring => simp +contextual [h.ring]
    case entry => simp [h.outstanding]
    case owner =>
      intro addr e r he hr
      obtain ⟨rfl, -⟩ := hmem addr e he
      cases hr
    case heap => simp [h.heap]
    case kind =>
      intro addr e he
      obtain ⟨rfl, i, rfl⟩ := hmem addr e he
      simp [LogEntry.zero]
  · intro a
    simp [h.allocated, h.freed, h.heap]

theorem Attached.add (h : Attached s)
    (hs : cmdlogStep s (.add r x alloc now) = some s') : Attached s' := by
  rw [cmdlogStep] at hs
  split_ifs at hs with hcond
  obtain ⟨-, hr, halloc⟩ := hcond
  obtain rfl := Option.some.inj hs
  obtain ⟨e, he⟩ := Option.ne_none_iff_exists'.1 (h.linked.ring _ h.tail)
  rw [cmdlogAddCmd_eq he]
  rcases hreq : e.req with _ | r'
  · exact ⟨nextIndex_lt h.tail, h.linked.link he hreq hr x now, h.balanced.ring _, h.aborted⟩
  · rcases alloc with _ | a
    · refine ⟨h.tail, h.linked, h.balanced, ?_⟩
      rintro why ⟨⟩
      rfl
    -- The entry is moved to the heap, which leaves its place free.
    · have ha := halloc a rfl
      have hlinked := (h.linked.move he hreq ha).link (r := r)
        (e := { e with req := none }) (Function.update_self ..) rfl hr x now
      rw [Function.update_idem, hreq] at hlinked
      exact ⟨nextIndex_lt h.tail, hlinked, (h.balanced.allocate ha _).ring _, h.aborted⟩

theorem Attached.complete (h : Attached s)
    (hs : cmdlogStep s (.complete r cpl now) = some s') : Attached s' := by
  rw [cmdlogStep] at hs
  split_ifs at hs with hcond
  obtain ⟨-, hr⟩ := hcond
  obtain rfl := Option.some.inj hs
  obtain ⟨x, hx⟩ := Option.ne_none_iff_exists'.1 hr
  obtain ⟨addr, e, haddr, he, hreq, -⟩ := h.linked.entry r x hx
  have hkind := h.linked.kind addr e he
  rw [cmdlogLogCpl_eq haddr he hreq]
  dsimp only
  split_ifs with hovl
  · obtain ⟨a, rfl⟩ := hkind.1 hovl
    have hlinked := h.linked.detach haddr he hreq (o := none) (by simp) (by simp)
    refine ⟨h.tail, ?_, ?_, h.aborted⟩
    · dsimp only [CmdLog.dmaFree, LogState.after]
      rwa [Function.update_idem]
    · dsimp only [CmdLog.dmaFree, LogState.after]
      rw [Function.update_idem]
      exact h.balanced.free he
  · rcases addr with i | a
    · refine ⟨h.tail, h.linked.detach haddr he hreq (by simp) ?_, h.balanced.ring _, h.aborted⟩
      simpa using hovl
    · exact absurd (hkind.2 ⟨a, rfl⟩) hovl

theorem attached_of_reachable {P : LogState → LogEvent → Prop} (h : cmdlogMachine.Reachable P s) :
    Attached s := by
  refine h.invariant (fun s => LogState.Init.attached) fun s e s' hI _ hs => ?_
  cases e with
  | add r x alloc now => exact hI.add hs
  | complete r cpl now => exact hI.complete hs

/-- The log of a new queue. -/
def LogState.start : LogState where
  log :=
    { mem := fun
        | .ring i => if i < cmdLogDepth then some .zero else none
        | .heap _ => none
      headIndex := 0
      tailIndex := 0
      latestLatencyUs := 0
      latestCid := 0#16
      cmdlogEntry := fun _ => none
      allocated := []
      freed := [] }
  outstanding := fun _ => none
  aborted := none

theorem LogState.start_init : LogState.start.Init := by
  constructor <;> intros <;> rfl

/-- Any number of requests can be outstanding. -/
theorem exists_outstanding (x : LoggedReq) (now : Timeval) (n : Nat) :
    ∃ s, cmdlogMachine.Reachable (fun _ _ => True) s ∧ s.aborted = none ∧
      (∀ r, s.outstanding r ≠ none ↔ r < n) ∧ ∀ a, n ≤ a → s.log.mem (.heap a) = none := by
  induction n with
  | zero => exact ⟨.start, .init LogState.start_init, rfl, by simp [LogState.start], fun _ _ => rfl⟩
  | succ n ih =>
    obtain ⟨s, hs, haborted, hout, hheap⟩ := ih
    have hn : s.outstanding n = none := by
      by_contra hne
      exact lt_irrefl n ((hout n).1 hne)
    have hatt := attached_of_reachable hs
    obtain ⟨e, he⟩ := Option.ne_none_iff_exists'.1 (hatt.linked.ring _ hatt.tail)
    obtain ⟨log, hlog, hmem⟩ : ∃ log, cmdlogAddCmd s.log n x (some n) now = .ok log ∧
        ∀ a, n + 1 ≤ a → log.mem (.heap a) = none := by
      rw [cmdlogAddCmd_eq he]
      rcases e.req with _ | r'
      · refine ⟨_, rfl, fun a ha => ?_⟩
        simpa [CmdLog.advance] using hheap a (by omega)
      · refine ⟨_, rfl, fun a ha => ?_⟩
        have hne : a ≠ n := by omega
        simpa [CmdLog.advance, hne] using hheap a (by omega)
    have hfree : ∀ a ∈ some n, s.log.mem (.heap a) = none := by simpa using hheap n le_rfl
    refine ⟨_, hs.step (e := .add n x (some n) now) trivial (if_pos ⟨haborted, hn, hfree⟩), ?_⟩
    rw [hlog]
    refine ⟨haborted, fun r => ?_, hmem⟩
    rcases eq_or_ne r n with rfl | hne
    · simp [LogState.after]
    · simp only [LogState.after, Function.update_of_ne hne, hout]
      omega

/-- In every state of every run, an outstanding request has an entry of its own, which
    points back to it and holds what was recorded of it; the entries on the heap are those of
    outstanding requests, and every address was freed once for each time it was allocated but
    for these; and no assertion fails. -/
theorem cmdlog_entries_attached (h : cmdlogMachine.Reachable (fun _ _ => True) s) :
    (∀ r x, s.outstanding r = some x → ∃ addr e, s.log.cmdlogEntry r = some addr ∧
      s.log.mem addr = some e ∧ e.req = some r ∧
      e.cmd = x.1.cmd ∧ e.cid = x.1.cid ∧ e.buf = x.1.buf ∧ e.timeCmd = x.2) ∧
    (∀ r r', s.outstanding r ≠ none → s.outstanding r' ≠ none →
      s.log.cmdlogEntry r = s.log.cmdlogEntry r' → r = r') ∧
    (∀ a, s.log.allocated.count a =
      s.log.freed.count a + if (s.log.mem (.heap a)).isSome then 1 else 0) ∧
    (∀ a, s.log.mem (.heap a) ≠ none →
      ∃ r, s.outstanding r ≠ none ∧ s.log.cmdlogEntry r = some (.heap a)) ∧
    (∀ why, s.aborted = some why → why = .nullPointer) := by
  have ha := attached_of_reachable h
  refine ⟨?_, ?_, ha.balanced, ?_, ha.aborted⟩
  · intro r x hx
    obtain ⟨addr, e, haddr, he, hreq, hrec⟩ := ha.linked.entry r x hx
    exact ⟨addr, e, haddr, he, hreq, hrec.cmd, hrec.cid, hrec.buf, hrec.timeCmd⟩
  · intro r r' hr hr' heq
    obtain ⟨x, hx⟩ := Option.ne_none_iff_exists'.1 hr
    obtain ⟨x', hx'⟩ := Option.ne_none_iff_exists'.1 hr'
    obtain ⟨addr, e, haddr, he, hreq, -⟩ := ha.linked.entry r x hx
    obtain ⟨addr', e', haddr', he', hreq', -⟩ := ha.linked.entry r' x' hx'
    obtain rfl : addr = addr' := Option.some.inj (haddr.symm.trans (heq.trans haddr'))
    obtain rfl : e = e' := Option.some.inj (he.symm.trans he')
    exact Option.some.inj (hreq.symm.trans hreq')
  · intro a hne
    obtain ⟨e, he⟩ := Option.ne_none_iff_exists'.1 hne
    obtain ⟨r, hr⟩ := Option.ne_none_iff_exists'.1 (ha.linked.heap a e he)
    exact ⟨r, ha.linked.owner _ e r he hr⟩

/-- A run in which more requests are outstanding than the ring has entries. -/
theorem cmdlog_entries_attached_beyond_depth :
    ∃ s, cmdlogMachine.Reachable (fun _ _ => True) s ∧
      (∀ r ≤ cmdLogDepth, s.outstanding r ≠ none) ∧
      (∀ r ≤ cmdLogDepth, s.log.cmdlogEntry r ≠ none) ∧
      ∀ r ≤ cmdLogDepth, ∀ r' ≤ cmdLogDepth,
        s.log.cmdlogEntry r = s.log.cmdlogEntry r' → r = r' := by
  obtain ⟨s, hs, -, hout, -⟩ :=
    exists_outstanding ⟨LogEntry.zero.cmd, 0#16, 4096⟩ ⟨0, 0⟩ (cmdLogDepth + 1)
  have hall : ∀ r ≤ cmdLogDepth, s.outstanding r ≠ none :=
    fun r hr => (hout r).2 (Nat.lt_succ_of_le hr)
  obtain ⟨hentry, hdistinct, -⟩ := cmdlog_entries_attached hs
  refine ⟨s, hs, hall, fun r hr => ?_, fun r hr r' hr' => hdistinct r r' (hall r hr) (hall r' hr')⟩
  obtain ⟨x, hx⟩ := Option.ne_none_iff_exists'.1 (hall r hr)
  obtain ⟨addr, e, haddr, -⟩ := hentry r x hx
  simp [haddr]

end Runs

end Pynvme
