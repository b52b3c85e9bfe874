import Pynvme.Crc.Footprint
import Pynvme.Lib.Fair

/-!
# The requests that wait for their locks

A request that cannot lock its LBAs, as others have locked them, waits in its queue
pair. After it has looked for completions, a process retries the first one of the
requests that wait in a queue pair (`qpair_wait_completion`, and the loop of
`ioworker_entry`): it is sent, or waits again.

The machine `retryMachine` has any number of queue pairs, of one process or of several,
that share the namespace. Of the requests submitted none is lost or sent twice
(`retry_conserves`). A request waits exactly because of an outstanding one that covers an
LBA of its own (`retry_sends_iff`), so that nothing waits forever: once no more requests
come, and as long as the commands complete and the queue pairs are polled, all requests
complete (`retry_drains`).
-/

namespace Pynvme

open Word

/-- A namespace, the commands sent and not completed, and the requests that wait in each of
    the queue pairs. A request has an identifier, its address. -/
structure RetryState where
  ns : Ns
  inFlight : List (Nat × Request)
  queuedReq : List (List (Nat × Request))

namespace RetryState

/-- The requests that wait. -/
def waiting (s : RetryState) : List (Nat × Request) := s.queuedReq.flatten

/-- The identifiers of all requests. -/
def outstanding (s : RetryState) : List Nat := (s.inFlight ++ s.waiting).map Prod.fst

/-- The command with an identifier. -/
def holders (s : RetryState) (k : Nat) : Option Request := s.inFlight.lookup k

end RetryState

/-- What `nvme_qpair_submit_request` (of SPDK) does with a request, in a queue pair: once its
    LBAs are locked it is sent, and while they cannot be it is queued, at any place of the
    requests that wait there. -/
structure SubmitsRequest (submitRequest : RetryState → Nat → Nat × Request → RetryState) :
    Prop where
  sends : ∀ s q r, (crc32LockLba s.ns r.2).2 = true → submitRequest s q r =
    { s with ns := (crc32LockLba s.ns r.2).1, inFlight := r :: s.inFlight }
  queues : ∀ s q r l, (crc32LockLba s.ns r.2).2 = false → s.queuedReq[q]? = some l →
    ∃ l', l'.Perm (r :: l) ∧ submitRequest s q r = { s with queuedReq := s.queuedReq.set q l' }

/-- A new request is submitted to the queue pair `q`, or a command completes, with a status
    and the data in its buffer, or a request that waits in the queue pair `q` is retried. -/
inductive RetryEvent
  | submit (q k : Nat) (req : Request)
  | complete (k : Nat) (status : Status) (buf : Bytes)
  | retry (q : Nat)

section Step

variable (submitRequest : RetryState → Nat → Nat × Request → RetryState)

/-- The end of `qpair_wait_completion`: retry one queued request for LBA confliction. -/
def retry (s : RetryState) (q : Nat) : RetryState :=
  match s.queuedReq[q]? with
  | some (r :: l) => submitRequest { s with queuedReq := s.queuedReq.set q l } q r
  | _ => s

/-- A step of the queue pairs. -/
def retryStep (crc32c : List (BitVec 8) → BitVec 32) (s : RetryState) :
    RetryEvent → Option RetryState
  | .submit q k req =>
    if q < s.queuedReq.length ∧ k ∉ s.outstanding then
      some (submitRequest s q (k, req))
    else none
  | .complete k status buf =>
    match s.inFlight.lookup k with
    | none => none
    | some req =>
      let req := req.withData buf
      some { s with
        ns := crc32UnlockLba (cmdlogCmdCpl crc32c s.ns req status).1 req
        inFlight := s.inFlight.filter fun r => r.1 != k }
  | .retry q => some (retry submitRequest s q)

/-- The queue pairs of the namespace `ns`, none of which has a request to begin with. -/
def retryMachine (crc32c : List (BitVec 8) → BitVec 32) (ns : Ns) :
    Machine RetryState RetryEvent where
  init s := s.ns = ns ∧ s.inFlight = [] ∧ s.waiting = []
  step := retryStep submitRequest crc32c

end Step

/-- The ranges of a request are in a namespace of `n` sectors, and have at most `65535`
    blocks. -/
structure Request.Inside (n : Nat) (req : Request) : Prop where
  small : req.Small
  lt : ∀ j, req.Covers j → j < n

/-- The requests considered are inside the namespace. -/
def RetryRule (s : RetryState) : RetryEvent → Prop
  | .submit _ _ req => req.Inside s.ns.numSectors
  | _ => True

/-! ### One attempt -/

variable {crc32c : List (BitVec 8) → BitVec 32} {ns : Ns} {req : Request} {s s' : RetryState}
  {n q k j : Nat} {e : RetryEvent}

theorem lt_entries_of_lockSpan {slba nlb : Nat} (hb : slba + nlb < 2 ^ 62)
    (h : LockSpan ns slba nlb j) : j < ns.entries := by
  have hs : slba < ns.entries := (u64_mul_four_lt (by omega)).1 h.2.1
  exact ((lockSpan_iff_of_lt h.1 hs hb).1 h).2.2

/-- A request inside the namespace locks entries of the table only. -/
theorem Request.Inside.lt_entries (h : req.Inside n) (hn : n < 2 ^ 62) (hj : req.Locks ns j) :
    j < ns.entries := by
  have hlt := h.lt
  simp only [Request.Covers] at hlt
  simp only [Request.Locks] at hj
  split_ifs at hj hlt with hr hd
  · have hlast := hlt (req.cmd.slba + req.cmd.nlbField) ⟨by omega, by omega⟩
    exact lt_entries_of_lockSpan (by omega) hj
  · obtain ⟨i, hi, hspan⟩ := hj
    have hs := (h.small.ranges hd i hi).1
    rcases Nat.eq_zero_or_pos (dsmRange req.buf i).length with h0 | hpos
    · exact lt_entries_of_lockSpan (by omega) hspan
    · have hlast := hlt ((dsmRange req.buf i).startingLba + (dsmRange req.buf i).length - 1)
        ⟨i, hi, by omega, by omega⟩
      exact lt_entries_of_lockSpan (by omega) hspan

/-- The ranges that an attempt tests are those it locks. -/
theorem Request.Small.checkSpan_iff_locks (h : req.Small) :
    (∃ r ∈ req.ranges, CheckSpan ns r.1 r.2 j) ↔ req.Locks ns j := by
  rw [Request.locks_iff_ranges]
  refine exists_congr fun r => and_congr_right fun hr => ?_
  simp only [Request.ranges] at hr
  split_ifs at hr with hop hd
  · obtain rfl := List.mem_singleton.1 hr
    obtain ⟨hs, hn⟩ := h.range hop
    exact checkSpan_iff_lockSpan hs (by dsimp only; omega)
  · obtain ⟨i, hi, rfl⟩ := List.mem_map.1 hr
    obtain ⟨hs, hn⟩ := h.ranges hd i (List.mem_range.1 hi)
    exact checkSpan_iff_lockSpan hs (by dsimp only; omega)
  · cases hr

/-- An attempt fails if and only if an entry of the table that the request covers is
    locked. -/
theorem Request.Inside.lockLba_eq_false_iff (h : req.Inside n) (hn : n < 2 ^ 62)
    (ht : ns.crcTable.isSome) : (crc32LockLba ns req).2 = false ↔
      ∃ j < ns.entries, req.Covers j ∧ isLocked (ns.entry j) = true := by
  simp only [Pynvme.lockLba_eq_false_iff h.small.io, h.small.checkSpan_iff_locks]
  constructor
  · rintro ⟨j, hL, hl⟩
    have hj := h.lt_entries hn hL
    exact ⟨j, hj, (h.small.locks_iff ht hj).1 hL, hl⟩
  · rintro ⟨j, hj, hc, hl⟩
    exact ⟨j, (h.small.locks_iff ht hj).2 hc, hl⟩

/-! ### What a step can do -/

variable {submitRequest : RetryState → Nat → Nat × Request → RetryState}

theorem retry_of_cons {r : Nat × Request} {l : List (Nat × Request)}
    (h : s.queuedReq[q]? = some (r :: l)) :
    retry submitRequest s q = submitRequest { s with queuedReq := s.queuedReq.set q l } q r := by
  rw [retry, h]

theorem retry_of_not_cons (h : ∀ r l, s.queuedReq[q]? ≠ some (r :: l)) :
    retry submitRequest s q = s := by
  rw [retry]
  split
  · exact absurd ‹_› (h _ _)
  · rfl

/-- A request is sent: it has locked its LBAs. -/
structure SendsRequest (s s' : RetryState) (r : Nat × Request) : Prop where
  locked : (crc32LockLba s.ns r.2).2 = true
  ns : s'.ns = (crc32LockLba s.ns r.2).1
  inFlight : s'.inFlight = r :: s.inFlight

/-- A request waits: an LBA of it is locked. -/
structure QueuesRequest (s s' : RetryState) (r : Nat × Request) : Prop where
  locked : (crc32LockLba s.ns r.2).2 = false
  ns : s'.ns = s.ns
  inFlight : s'.inFlight = s.inFlight

/-- The elements of lists, one of which is replaced. -/
theorem flatten_set_perm {α : Type*} {L : List (List α)} {a b : List α} (h : L[q]? = some a) :
    (a ++ (L.set q b).flatten).Perm (b ++ L.flatten) := by
  induction L generalizing q with
  | nil => simp at h
  | cons c L ih =>
    cases q with
    | zero =>
      obtain rfl : c = a := by simpa using h
      simp only [List.set_cons_zero, List.flatten_cons]
      exact List.perm_append_comm_assoc ..
    | succ q =>
      simp only [List.set_cons_succ, List.flatten_cons]
      have hq : L[q]? = some a := by simpa using h
      calc a ++ (c ++ (L.set q b).flatten)
        _ |>.Perm (c ++ (a ++ (L.set q b).flatten)) := List.perm_append_comm_assoc ..
        _ |>.Perm (c ++ (b ++ L.flatten)) := (ih hq).append_left c
        _ |>.Perm (b ++ (c ++ L.flatten)) := List.perm_append_comm_assoc ..

/-- A submission sends the request, or queues it. -/
theorem SubmitsRequest.cases {r : Nat × Request} (h : SubmitsRequest submitRequest)
    (hq : q < s.queuedReq.length) :
    (SendsRequest s (submitRequest s q r) r ∧ (submitRequest s q r).waiting = s.waiting) ∨
      (QueuesRequest s (submitRequest s q r) r ∧
        (submitRequest s q r).waiting.Perm (r :: s.waiting)) := by
  rcases hl : (crc32LockLba s.ns r.2).2 with _ | _
  · have hs := List.getElem?_eq_getElem hq
    obtain ⟨l', hperm, heq⟩ := h.queues s q r _ hl hs
    rw [heq]
    refine .inr ⟨⟨hl, rfl, rfl⟩, (List.perm_append_left_iff s.queuedReq[q]).1 ?_⟩
    calc s.queuedReq[q] ++ (s.queuedReq.set q l').flatten
      _ |>.Perm (l' ++ s.queuedReq.flatten) := flatten_set_perm hs
      _ |>.Perm (r :: s.queuedReq[q] ++ s.queuedReq.flatten) := hperm.append_right _
      _ |>.Perm (s.queuedReq[q] ++ r :: s.queuedReq.flatten) := List.perm_middle.symm
  · rw [h.sends s q r hl]
    exact .inl ⟨⟨hl, rfl, rfl⟩, rfl⟩

/-- A retry leaves an empty queue pair as it is, or submits its first request. -/
theorem SubmitsRequest.retry_cases (h : SubmitsRequest submitRequest) (s : RetryState) (q : Nat) :
    ((∀ r l, s.queuedReq[q]? ≠ some (r :: l)) ∧ retry submitRequest s q = s) ∨
      ∃ r l, s.queuedReq[q]? = some (r :: l) ∧
        ((SendsRequest s (retry submitRequest s q) r ∧
            s.waiting.Perm (r :: (retry submitRequest s q).waiting)) ∨
          (QueuesRequest s (retry submitRequest s q) r ∧
            s.waiting.Perm (retry submitRequest s q).waiting)) := by
  by_cases hcons : ∃ r l, s.queuedReq[q]? = some (r :: l)
  · obtain ⟨r, l, hq⟩ := hcons
    have hlt : q < (s.queuedReq.set q l).length := by
      rw [List.length_set]
      exact (List.getElem?_eq_some_iff.1 hq).1
    have hset : s.waiting.Perm (r :: (s.queuedReq.set q l).flatten) := by
      have hperm : (l ++ (r :: (s.queuedReq.set q l).flatten)).Perm (l ++ s.waiting) :=
        List.perm_middle.trans (flatten_set_perm (b := l) hq)
      exact ((List.perm_append_left_iff _).1 hperm).symm
    refine .inr ⟨r, l, hq, ?_⟩
    rw [retry_of_cons hq]
    rcases h.cases (s := { s with queuedReq := s.queuedReq.set q l }) (r := r) hlt with
      ⟨hsend, hw⟩ | ⟨hqueue, hw⟩
    · refine .inl ⟨⟨hsend.locked, hsend.ns, hsend.inFlight⟩, ?_⟩
      rw [hw]
      exact hset
    · exact .inr ⟨⟨hqueue.locked, hqueue.ns, hqueue.inFlight⟩, hset.trans hw.symm⟩
  · push Not at hcons
    exact .inl ⟨hcons, retry_of_not_cons hcons⟩

/-- What a step can do. -/
theorem SubmitsRequest.step_cases (hsub : SubmitsRequest submitRequest)
    (h : retryStep submitRequest crc32c s e = some s') :
    (∃ q k req, e = .submit q k req ∧ k ∉ s.outstanding ∧
      ((SendsRequest s s' (k, req) ∧ s'.waiting = s.waiting) ∨
        (QueuesRequest s s' (k, req) ∧ s'.waiting.Perm ((k, req) :: s.waiting)))) ∨
    (∃ k status buf req, e = .complete k status buf ∧ s.inFlight.lookup k = some req ∧
      s'.ns = crc32UnlockLba (cmdlogCmdCpl crc32c s.ns (req.withData buf) status).1
        (req.withData buf) ∧
      s'.inFlight = s.inFlight.filter (fun r => r.1 != k) ∧ s'.waiting = s.waiting) ∨
    (∃ q, e = .retry q ∧ s' = retry submitRequest s q) := by
  cases e with
  | submit q k req =>
    obtain ⟨⟨hq, hk⟩, ⟨⟩⟩ := Option.ite_none_right_eq_some.1 h
    exact .inl ⟨q, k, req, rfl, hk, hsub.cases hq⟩
  | complete k status buf =>
    rw [retryStep] at h
    rcases hk : s.inFlight.lookup k with _ | req
    · simp [hk] at h
    · simp only [hk, Option.some.injEq] at h
      subst h
      exact .inr (.inl ⟨k, status, buf, req, rfl, hk, rfl, rfl, rfl⟩)
  | retry q => exact .inr (.inr ⟨q, rfl, (Option.some.inj h).symm⟩)

/-! ### The invariant -/

theorem lookup_filter_ne {α : Type*} (l : List (Nat × α)) (k : Nat) :
    (fun i => (l.filter fun r => r.1 != k).lookup i) =
      Function.update (fun i => l.lookup i) k none := by
  funext i
  rcases eq_or_ne i k with rfl | hi
  · rw [Function.update_self, List.lookup_eq_none_iff]
    intro r hr
    have hne : r.1 ≠ i := by simpa using (List.mem_filter.1 hr).2
    simpa using hne.symm
  · rw [Function.update_of_ne hi]
    induction l with
    | nil => rfl
    | cons r l ih =>
      rw [List.filter_cons]
      split_ifs with hr
      · rw [List.lookup_cons, List.lookup_cons, ih]
      · obtain rfl : r.1 = k := by simpa using hr
        rw [List.lookup_cons, ih, beq_false_of_ne hi]

theorem SendsRequest.holders {r : Nat × Request} (h : SendsRequest s s' r) :
    s'.holders = Function.update s.holders r.1 (some r.2) := by
  funext i
  rw [RetryState.holders, h.inFlight, List.lookup_cons]
  rcases eq_or_ne i r.1 with rfl | hi
  · rw [Function.update_self, beq_self_eq_true]
  · rw [Function.update_of_ne hi, beq_false_of_ne hi]
    rfl

/-- The locks are those of the commands sent, the requests have different identifiers, and
    all of them are inside the namespace. -/
structure RetryInv (ns : Ns) (s : RetryState) : Prop where
  shape : s.ns.shape = ns.shape
  locks : LockInv (fun j => isLocked (ns.entry j) = true) s.ns s.holders
  nodup : s.outstanding.Nodup
  inside : ∀ r ∈ s.inFlight ++ s.waiting, r.2.Inside ns.numSectors

theorem holders_eq_none (h : k ∉ s.inFlight.map Prod.fst) : s.holders k = none := by
  rw [RetryState.holders, List.lookup_eq_none_iff]
  intro r hr
  simp only [bne_iff_ne, ne_eq]
  rintro rfl
  exact h (List.mem_map_of_mem hr)

theorem SendsRequest.locks {stray : Nat → Prop} {r : Nat × Request} (h : SendsRequest s s' r)
    (hl : LockInv stray s.ns s.holders) (hs : r.2.Small) (hk : r.1 ∉ s.inFlight.map Prod.fst) :
    LockInv stray s'.ns s'.holders := by
  rw [h.holders, h.ns]
  exact hl.acquire (holders_eq_none hk) hs h.locked

theorem QueuesRequest.holders {r : Nat × Request} (h : QueuesRequest s s' r) :
    s'.holders = s.holders := by
  funext i
  rw [RetryState.holders, h.inFlight, RetryState.holders]

namespace RetryInv

theorem init (hns : s.ns = ns) (ht : ns.crcTable.isSome) (hf : s.inFlight = [])
    (hw : s.waiting = []) : RetryInv ns s where
  shape := by rw [hns]
  locks := by
    have hnone : s.holders = fun _ => none := by
      funext k
      exact holders_eq_none (by simp [hf])
    rw [hns, hnone]
    exact .init ht
  nodup := by simp [RetryState.outstanding, hf, hw]
  inside := by simp [hf, hw]

/-- The requests after a step that submits the request `r`. -/
theorem of_cons {r : Nat × Request} (h : RetryInv ns s)
    (hw : (s'.inFlight ++ s'.waiting).Perm (r :: (s.inFlight ++ s.waiting)))
    (hr : r.2.Inside ns.numSectors) (hk : r.1 ∉ s.outstanding) :
    s'.outstanding.Nodup ∧ ∀ r ∈ s'.inFlight ++ s'.waiting, r.2.Inside ns.numSectors := by
  refine ⟨(hw.map Prod.fst).nodup_iff.2 (List.nodup_cons.2 ⟨hk, h.nodup⟩), fun r' hr' => ?_⟩
  rcases List.mem_cons.1 (hw.mem_iff.1 hr') with rfl | hr'
  · exact hr
  · exact h.inside r' hr'

/-- The requests after a step that moves some. -/
theorem of_perm (h : RetryInv ns s)
    (hw : (s'.inFlight ++ s'.waiting).Perm (s.inFlight ++ s.waiting)) :
    s'.outstanding.Nodup ∧ ∀ r ∈ s'.inFlight ++ s'.waiting, r.2.Inside ns.numSectors :=
  ⟨(hw.map Prod.fst).nodup_iff.2 h.nodup, fun r hr => h.inside r (hw.mem_iff.1 hr)⟩

theorem submit (h : RetryInv ns s) (hk : k ∉ s.outstanding) (hr : req.Inside ns.numSectors)
    (hc : (SendsRequest s s' (k, req) ∧ s'.waiting = s.waiting) ∨
      (QueuesRequest s s' (k, req) ∧ s'.waiting.Perm ((k, req) :: s.waiting))) :
    RetryInv ns s' := by
  rcases hc with ⟨hs, hw⟩ | ⟨hs, hw⟩
  · obtain ⟨hnodup, hinside⟩ := h.of_cons (by rw [hs.inFlight, hw, List.cons_append]) hr hk
    refine ⟨by rw [hs.ns, shape_lockLba, h.shape], hs.locks h.locks hr.small fun hmem => hk ?_,
      hnodup, hinside⟩
    rw [RetryState.outstanding, List.map_append]
    exact List.mem_append_left _ hmem
  · obtain ⟨hnodup, hinside⟩ := h.of_cons
      (by rw [hs.inFlight]; exact (hw.append_left _).trans List.perm_middle) hr hk
    exact ⟨by rw [hs.ns, h.shape], by rw [hs.ns, hs.holders]; exact h.locks, hnodup, hinside⟩

theorem retry (h : RetryInv ns s) (hsub : SubmitsRequest submitRequest) (q : Nat) :
    RetryInv ns (Pynvme.retry submitRequest s q) := by
  rcases hsub.retry_cases s q with ⟨-, heq⟩ | ⟨r, l, hq, ⟨hs, hw⟩ | ⟨hs, hw⟩⟩
  · rw [heq]
    exact h
  · have hmem : r ∈ s.inFlight ++ s.waiting :=
      List.mem_append_right _ (hw.mem_iff.2 List.mem_cons_self)
    have hall : (s.inFlight ++ s.waiting).Perm (r :: (s.inFlight ++
        (Pynvme.retry submitRequest s q).waiting)) := (hw.append_left _).trans List.perm_middle
    rw [← List.cons_append, ← hs.inFlight] at hall
    obtain ⟨hnodup, hinside⟩ := h.of_perm hall.symm
    refine ⟨by rw [hs.ns, shape_lockLba, h.shape],
      hs.locks h.locks (h.inside r hmem).small fun hin => ?_, hnodup, hinside⟩
    -- the identifier of a request that waits is not that of a command
    have hids := hnodup
    rw [RetryState.outstanding, hs.inFlight, List.cons_append, List.map_cons,
      List.map_append] at hids
    exact (List.nodup_cons.1 hids).1 (List.mem_append_left _ hin)
  · have hall := hw.append_left s.inFlight
    nth_rewrite 2 [← hs.inFlight] at hall
    obtain ⟨hnodup, hinside⟩ := h.of_perm hall.symm
    exact ⟨by rw [hs.ns, h.shape], by rw [hs.ns, hs.holders]; exact h.locks, hnodup, hinside⟩

end RetryInv

/-- The commands without that of the identifier `k`. -/
theorem perm_filter {l : List (Nat × Request)} (hl : (l.map Prod.fst).Nodup)
    (hk : l.lookup k = some req) : l.Perm ((k, req) :: l.filter fun r => r.1 != k) := by
  induction l with
  | nil => simp at hk
  | cons r l ih =>
    rw [List.map_cons, List.nodup_cons] at hl
    rw [List.lookup_cons] at hk
    rcases eq_or_ne k r.1 with rfl | hne
    · rw [beq_self_eq_true] at hk
      obtain rfl := Option.some.inj hk
      have hkeep : (l.filter fun r' => r'.1 != r.1) = l := List.filter_eq_self.2 fun r' hr' => by
        simp only [bne_iff_ne, ne_eq]
        exact fun heq => hl.1 (heq ▸ List.mem_map_of_mem hr')
      rw [List.filter_cons, if_neg (by simp), hkeep]
    · rw [beq_false_of_ne hne] at hk
      rw [List.filter_cons, if_pos (by simpa using hne.symm)]
      exact ((ih hl.2 hk).cons r).trans (.swap ..)

namespace RetryInv

theorem complete {status : Status} {buf : Bytes} (h : RetryInv ns s)
    (hk : s.inFlight.lookup k = some req)
    (hns : s'.ns = crc32UnlockLba (cmdlogCmdCpl crc32c s.ns (req.withData buf) status).1
      (req.withData buf))
    (hf : s'.inFlight = s.inFlight.filter fun r => r.1 != k) (hw : s'.waiting = s.waiting) :
    RetryInv ns s' := by
  have hsub : (s'.inFlight ++ s'.waiting).Sublist (s.inFlight ++ s.waiting) := by
    rw [hf, hw]
    exact List.filter_sublist.append_right _
  have hholders : s'.holders = Function.update s.holders k none := by
    funext i
    rw [RetryState.holders, hf]
    exact congrFun (lookup_filter_ne s.inFlight k) i
  -- a completion is a step of the machine of the locks
  have hstep : lockStep crc32c ⟨s.ns, s.holders⟩ (.complete k status buf) =
      some ⟨s'.ns, s'.holders⟩ := by
    rw [hns, hholders]
    simp only [lockStep, RetryState.holders, hk]
  have hrule : LockRule ⟨s.ns, s.holders⟩ (.complete k status buf) := trivial
  obtain ⟨hlocks, hshape⟩ := lockStep_inv h.locks hrule hstep
  dsimp only at hlocks hshape
  exact ⟨hshape.trans h.shape, hlocks, h.nodup.sublist (hsub.map _),
    fun r hr => h.inside r (hsub.subset hr)⟩

end RetryInv

theorem SubmitsRequest.step_inv (hsub : SubmitsRequest submitRequest) (h : RetryInv ns s)
    (hP : RetryRule s e) (hs : retryStep submitRequest crc32c s e = some s') :
    RetryInv ns s' := by
  rcases hsub.step_cases hs with ⟨q, k, req, rfl, hk, hc⟩ |
    ⟨k, status, buf, req, rfl, hk, hns, hf, hw⟩ | ⟨q, rfl, rfl⟩
  · have hnum : s.ns.numSectors = ns.numSectors := congrArg (·.1) h.shape
    exact h.submit hk (hnum ▸ hP) hc
  · exact h.complete hk hns hf hw
  · exact h.retry hsub q

theorem SubmitsRequest.inv_of_reachable (hsub : SubmitsRequest submitRequest)
    (ht : ns.crcTable.isSome)
    (h : (retryMachine submitRequest crc32c ns).Reachable RetryRule s) : RetryInv ns s :=
  h.invariant (fun _ hs => .init hs.1 ht hs.2.1 hs.2.2) fun _ _ _ => hsub.step_inv

/-! ### No request is lost -/

/-- The identifiers of the requests submitted, of those sent, and of those completed. -/
structure RetryHistory where
  submitted : List Nat
  sent : List Nat
  completed : List Nat

/-- A step sends the requests that it adds to those in flight. -/
def RetryHistory.record (h : RetryHistory) (s : RetryState) (e : RetryEvent) (s' : RetryState) :
    RetryHistory where
  submitted :=
    match e with
    | .submit _ k _ => k :: h.submitted
    | _ => h.submitted
  sent := (s'.inFlight.take (s'.inFlight.length - s.inFlight.length)).map Prod.fst ++ h.sent
  completed :=
    match e with
    | .complete k _ _ => k :: h.completed
    | _ => h.completed

/-- A request that is submitted is sent once, unless it waits, and one that is sent
    completes once, unless it is in flight. -/
structure Conserves (s : RetryState) (h : RetryHistory) : Prop where
  submitted : h.submitted.Perm (s.waiting.map Prod.fst ++ h.sent)
  sent : h.sent.Perm (s.inFlight.map Prod.fst ++ h.completed)

variable {hist : RetryHistory}

theorem SendsRequest.record_sent {r : Nat × Request} (h : SendsRequest s s' r) :
    (hist.record s e s').sent = r.1 :: hist.sent := by
  have hlen : s'.inFlight.length - s.inFlight.length = 1 := by
    rw [h.inFlight, List.length_cons, Nat.add_sub_cancel_left]
  dsimp only [RetryHistory.record]
  rw [hlen, h.inFlight]
  rfl

theorem RetryHistory.record_sent (h : s'.inFlight.length ≤ s.inFlight.length) :
    (hist.record s e s').sent = hist.sent := by
  dsimp only [RetryHistory.record]
  rw [Nat.sub_eq_zero_of_le h]
  rfl

theorem RetryInv.nodup_inFlight (h : RetryInv ns s) : (s.inFlight.map Prod.fst).Nodup := by
  have hnodup := h.nodup
  rw [RetryState.outstanding, List.map_append] at hnodup
  exact (List.nodup_append.1 hnodup).1

theorem Conserves.step (h : Conserves s hist) (hi : RetryInv ns s)
    (hsub : SubmitsRequest submitRequest) (hs : retryStep submitRequest crc32c s e = some s') :
    Conserves s' (hist.record s e s') := by
  have hlt (r : Nat × Request) (hq : QueuesRequest s s' r) :
      (hist.record s e s').sent = hist.sent :=
    RetryHistory.record_sent (le_of_eq (congrArg List.length hq.inFlight))
  rcases hsub.step_cases hs with ⟨q, k, req, rfl, hk, ⟨hc, hw⟩ | ⟨hc, hw⟩⟩ |
    ⟨k, status, buf, req, rfl, hk, hns, hf, hw⟩ | ⟨q, rfl, rfl⟩
  · refine ⟨?_, ?_⟩
    · rw [hc.record_sent, hw]
      exact (h.submitted.cons k).trans List.perm_middle.symm
    · rw [hc.record_sent, hc.inFlight]
      exact h.sent.cons k
  · refine ⟨?_, ?_⟩
    · rw [hlt _ hc]
      exact (h.submitted.cons k).trans ((hw.map Prod.fst).symm.append_right _)
    · rw [hlt _ hc, hc.inFlight]
      exact h.sent
  · have hperm := perm_filter hi.nodup_inFlight hk
    rw [← hf] at hperm
    have hle : s'.inFlight.length ≤ s.inFlight.length := by
      rw [hperm.length_eq]
      exact Nat.le_succ _
    refine ⟨?_, ?_⟩
    · rw [RetryHistory.record_sent hle, hw]
      exact h.submitted
    · rw [RetryHistory.record_sent hle]
      calc hist.sent
        _ |>.Perm (s.inFlight.map Prod.fst ++ hist.completed) := h.sent
        _ |>.Perm (k :: s'.inFlight.map Prod.fst ++ hist.completed) :=
          (hperm.map Prod.fst).append_right _
        _ |>.Perm (s'.inFlight.map Prod.fst ++ k :: hist.completed) := List.perm_middle.symm
  · rcases hsub.retry_cases s q with ⟨-, heq⟩ | ⟨r, l, hq, ⟨hc, hw⟩ | ⟨hc, hw⟩⟩
    · rw [heq]
      exact ⟨by rw [RetryHistory.record_sent le_rfl]; exact h.submitted,
        by rw [RetryHistory.record_sent le_rfl]; exact h.sent⟩
    · refine ⟨?_, ?_⟩
      · rw [hc.record_sent]
        exact (h.submitted.trans ((hw.map Prod.fst).append_right _)).trans List.perm_middle.symm
      · rw [hc.record_sent, hc.inFlight]
        exact h.sent.cons r.1
    · refine ⟨?_, ?_⟩
      · rw [hlt _ hc]
        exact h.submitted.trans ((hw.map Prod.fst).append_right _)
      · rw [hlt _ hc, hc.inFlight]
        exact h.sent

/-- A command in flight is that of its identifier. -/
theorem RetryInv.holders_eq {r : Nat × Request} (h : RetryInv ns s) (hr : r ∈ s.inFlight) :
    s.holders r.1 = some r.2 := by
  have hnodup := h.nodup_inFlight
  obtain ⟨l₁, l₂, hl⟩ := List.append_of_mem hr
  rw [RetryState.holders, List.lookup_eq_some_iff]
  refine ⟨l₁, l₂, hl, fun p hp => ?_⟩
  rw [hl, List.map_append, List.map_cons] at hnodup
  simp only [bne_iff_ne, ne_eq]
  rintro heq
  exact (List.nodup_append.1 hnodup).2.2 p.1 (List.mem_map_of_mem hp) r.1
    List.mem_cons_self heq.symm

/-- Whatever the order of the submissions, the retries and the completions, every request
    submitted is sent once or waits, and completes once or is outstanding. The commands in
    flight cover no common entry of the table. -/
theorem retry_conserves (hsub : SubmitsRequest submitRequest) (ht : ns.crcTable.isSome)
    (h : ((retryMachine submitRequest crc32c ns).withHistory ⟨[], [], []⟩
      RetryHistory.record).Reachable (fun x e => RetryRule x.1 e) (s, hist)) :
    Conserves s hist ∧ s.outstanding.Nodup ∧ ∀ r ∈ s.inFlight, ∀ r' ∈ s.inFlight,
      r.1 ≠ r'.1 → ∀ j < ns.entries, r.2.Covers j → ¬r'.2.Covers j := by
  obtain ⟨hinv, hcons⟩ : RetryInv ns s ∧ Conserves s hist := by
    refine h.invariant (I := fun x => RetryInv ns x.1 ∧ Conserves x.1 x.2) ?_ ?_
    · rintro ⟨s, hist⟩ ⟨⟨hns, hf, hw⟩, rfl⟩
      refine ⟨.init hns ht hf hw, ?_, ?_⟩
      · rw [show s.waiting = [] from hw]
        exact .nil
      · rw [show s.inFlight = [] from hf]
        exact .nil
    · rintro ⟨s, hist⟩ e ⟨s', hist'⟩ ⟨hi, hc⟩ hP hstep
      obtain ⟨hs, rfl⟩ := Machine.withHistory_step.1 hstep
      exact ⟨hsub.step_inv hi hP hs, hc.step hi hsub hs⟩
  refine ⟨hcons, hinv.nodup, fun r hr r' hr' hne j hj => ?_⟩
  have hN : s.ns.entries = ns.entries := Ns.entries_of_shape hinv.shape
  exact hinv.locks.disjoint hne (hinv.holders_eq hr) (hinv.holders_eq hr') j (hN ▸ hj)

/-- A submission that queues a request behind those that wait. -/
def submitTail (s : RetryState) (q : Nat) (r : Nat × Request) : RetryState :=
  if (crc32LockLba s.ns r.2).2 then
    { s with ns := (crc32LockLba s.ns r.2).1, inFlight := r :: s.inFlight }
  else { s with queuedReq := s.queuedReq.modify q (· ++ [r]) }

theorem submitTail_submitsRequest : SubmitsRequest submitTail where
  sends s q r h := by rw [submitTail, if_pos h]
  queues s q r l h hq := by
    refine ⟨l ++ [r], List.perm_append_singleton r l, ?_⟩
    rw [submitTail, if_neg (by rw [h]; exact Bool.false_ne_true), List.modify_eq_set, hq,
      Option.getD_some]

/-- A write of four of the eight blocks of a namespace. -/
def writeAt (lba : BitVec 32) : Request :=
  ⟨⟨1#8, lba, 0#32, 3#32, 0#32, 0#32, 0#32⟩, 1, fun _ => 0#8⟩

theorem writeAt_covers {lba : BitVec 32} :
    (writeAt lba).Covers j ↔ lba.toNat ≤ j ∧ j < lba.toNat + 4 := by
  have hslba : (writeAt lba).cmd.slba = lba.toNat := by
    simp only [writeAt, NvmeCmd.slba]
    simp
  simp only [Request.Covers, show isRangeOpc (writeAt lba).cmd.opc = true from rfl, if_true,
    hslba, show (writeAt lba).cmd.nlbField = 3 from rfl]

theorem writeAt_inside {lba : BitVec 32} (h : lba.toNat ≤ 4) : (writeAt lba).Inside 10 := by
  have hslba : (writeAt lba).cmd.slba = lba.toNat := by
    simp only [writeAt, NvmeCmd.slba]
    simp
  have hnlb : (writeAt lba).cmd.nlbField = 3 := rfl
  have hdsm : isDsmOpc (writeAt lba).cmd.opc = false := rfl
  refine ⟨⟨Nat.one_ne_zero, fun _ => ⟨by omega, by omega⟩, fun hd => ?_⟩, fun j hj => ?_⟩
  · rw [hdsm] at hd
    cases hd
  · have := writeAt_covers.1 hj
    omega

/-- Ten blocks, and one queue pair without a request. -/
def tenBlocks : RetryState :=
  ⟨Ns.formatted 10 528 10 (by decide) (by decide) (by decide), [], [[]]⟩

/-- Two writes that have the LBAs 2 and 3 in common. -/
def overlappingWrites : List RetryEvent := [.submit 0 0 (writeAt 0#32), .submit 0 1 (writeAt 2#32)]

/-- Of two writes with LBAs in common, the second one waits. -/
theorem retry_conserves_overlapping : ∃ s hist, s.inFlight.map Prod.fst = [0] ∧
    s.waiting.map Prod.fst = [1] ∧ hist.submitted = [1, 0] ∧ Conserves s hist := by
  have h₀ : ((retryMachine submitTail (fun _ => 0#32) tenBlocks.ns).withHistory ⟨[], [], []⟩
      RetryHistory.record).Reachable (fun x e => RetryRule x.1 e) (tenBlocks, ⟨[], [], []⟩) :=
    .init ⟨⟨rfl, rfl, rfl⟩, rfl⟩
  have hsum : (((retryMachine submitTail (fun _ => 0#32) tenBlocks.ns).withHistory ⟨[], [], []⟩
      RetryHistory.record).run (tenBlocks, ⟨[], [], []⟩) overlappingWrites).map
      (fun x => (x.1.inFlight.map Prod.fst, x.1.waiting.map Prod.fst, x.2.submitted)) =
      some ([0], [1], [1, 0]) := by
    decide
  obtain ⟨⟨s, hist⟩, hs, heq⟩ := h₀.exists_run overlappingWrites
    (.cons (writeAt_inside (by decide)) rfl (.cons (writeAt_inside (by decide)) rfl trivial)) hsum
  simp only [Prod.mk.injEq] at heq
  exact ⟨s, hist, heq.1, heq.2.1, heq.2.2,
    (retry_conserves submitTail_submitsRequest rfl hs).1⟩

/-! ### What waits for what -/

/-- Two requests cover a common one of the first `n` LBAs. -/
def Request.Conflicts (n : Nat) (req req' : Request) : Prop :=
  ∃ j < n, req.Covers j ∧ req'.Covers j

theorem RetryInv.isLocked_iff (h : RetryInv ns s)
    (hfree : ∀ j < ns.entries, isLocked (ns.entry j) = false) (hj : j < ns.entries) :
    isLocked (s.ns.entry j) = true ↔ ∃ r ∈ s.inFlight, r.2.Covers j := by
  have hN : s.ns.entries = ns.entries := Ns.entries_of_shape h.shape
  rw [h.locks.locked j (hN ▸ hj), hfree j hj]
  simp only [Bool.false_eq_true, false_or]
  constructor
  · rintro ⟨k, req, hk, hc⟩
    obtain ⟨l₁, l₂, hl, -⟩ := List.lookup_eq_some_iff.1 hk
    exact ⟨(k, req), by rw [hl]; exact List.mem_append_right _ List.mem_cons_self, hc⟩
  · rintro ⟨r, hr, hc⟩
    exact ⟨r.1, r.2, h.holders_eq hr, hc⟩

/-- An attempt fails exactly because of a command in flight. -/
theorem RetryInv.lockLba_eq_false_iff (h : RetryInv ns s) (hn : ns.numSectors < 2 ^ 62)
    (hfree : ∀ j < ns.entries, isLocked (ns.entry j) = false) (hr : req.Inside ns.numSectors) :
    (crc32LockLba s.ns req).2 = false ↔ ∃ r ∈ s.inFlight, req.Conflicts ns.entries r.2 := by
  rw [hr.lockLba_eq_false_iff hn h.locks.table, Ns.entries_of_shape h.shape]
  constructor
  · rintro ⟨j, hj, hc, hl⟩
    obtain ⟨r, hr, hcov⟩ := (h.isLocked_iff hfree hj).1 hl
    exact ⟨r, hr, j, hj, hc, hcov⟩
  · rintro ⟨r, hr, j, hj, hc, hcov⟩
    exact ⟨j, hj, hc, (h.isLocked_iff hfree hj).2 ⟨r, hr, hcov⟩⟩

/-- The first request that waits in a queue pair is sent by a retry exactly if no command in
    flight covers an entry of the table that it covers; else it waits again. -/
theorem retry_sends_iff (hsub : SubmitsRequest submitRequest) (ht : ns.crcTable.isSome)
    (hn : ns.numSectors < 2 ^ 62) (hfree : ∀ j < ns.entries, isLocked (ns.entry j) = false)
    (h : (retryMachine submitRequest crc32c ns).Reachable RetryRule s) {r : Nat × Request}
    {l : List (Nat × Request)} (hq : s.queuedReq[q]? = some (r :: l)) :
    let s' := retry submitRequest s q
    ((∀ r' ∈ s.inFlight, ¬r.2.Conflicts ns.entries r'.2) →
      s'.inFlight = r :: s.inFlight ∧ s.waiting.Perm (r :: s'.waiting)) ∧
    ((∃ r' ∈ s.inFlight, r.2.Conflicts ns.entries r'.2) →
      s'.inFlight = s.inFlight ∧ s.waiting.Perm s'.waiting ∧ s'.ns = s.ns) := by
  have hinv := hsub.inv_of_reachable ht h
  rcases hsub.retry_cases s q with ⟨hno, -⟩ | ⟨r', l', hq', hc⟩
  · exact absurd hq (hno r l)
  · obtain ⟨rfl, -⟩ := List.cons.inj (Option.some.inj (hq.symm.trans hq'))
    have hmem : r ∈ s.waiting :=
      List.mem_flatten.2 ⟨_, List.mem_of_getElem? hq, List.mem_cons_self⟩
    have hiff := hinv.lockLba_eq_false_iff hn hfree
      (hinv.inside r (List.mem_append_right _ hmem))
    rcases hc with ⟨hs, hw⟩ | ⟨hs, hw⟩
    · refine ⟨fun _ => ⟨hs.inFlight, hw⟩, fun hex => ?_⟩
      exact absurd (hiff.2 hex) (by rw [hs.locked]; exact Bool.true_eq_false_eq_False)
    · refine ⟨fun hno => ?_, fun _ => ⟨hs.inFlight, hw, hs.ns⟩⟩
      obtain ⟨r', hr', hconf⟩ := hiff.1 hs.locked
      exact absurd hconf (hno r' hr')

/-- The first write is sent, and the second one waits. -/
def firstSent : RetryState :=
  ⟨(crc32LockLba tenBlocks.ns (writeAt 0#32)).1, [(0, writeAt 0#32)], [[(1, writeAt 2#32)]]⟩

theorem reachable_firstSent :
    (retryMachine submitTail (fun _ => 0#32) tenBlocks.ns).Reachable RetryRule firstSent := by
  have h₁ : retryStep submitTail (fun _ => 0#32) tenBlocks (.submit 0 0 (writeAt 0#32)) =
      some { firstSent with queuedReq := [[]] } := by
    rw [retryStep, if_pos (by decide), submitTail, if_pos (by decide)]
    dsimp only [firstSent, tenBlocks]
  have h₂ : retryStep submitTail (fun _ => 0#32) { firstSent with queuedReq := [[]] }
      (.submit 0 1 (writeAt 2#32)) = some firstSent := by
    rw [retryStep, if_pos (by decide), submitTail, if_neg (by decide)]
    dsimp only [firstSent, List.modify_zero_cons, List.nil_append]
  exact .step (.step (.init ⟨rfl, rfl, rfl⟩)
    (show RetryRule _ (.submit 0 0 (writeAt 0#32)) from writeAt_inside (by decide)) h₁)
    (show RetryRule _ (.submit 0 1 (writeAt 2#32)) from writeAt_inside (by decide)) h₂

theorem tenBlocks_free : ∀ j < tenBlocks.ns.entries,
    isLocked (tenBlocks.ns.entry j) = false := fun j _ => by
  simp [tenBlocks, Ns.formatted, Ns.entry]

/-- The second of the two writes waits again. -/
theorem retry_sends_iff_overlapping :
    (retry submitTail firstSent 0).inFlight = firstSent.inFlight := by
  have hconf : (writeAt 2#32).Conflicts tenBlocks.ns.entries (writeAt 0#32) :=
    ⟨2, by decide, writeAt_covers.2 (by decide), writeAt_covers.2 (by decide)⟩
  exact ((retry_sends_iff submitTail_submitsRequest rfl (by decide) tenBlocks_free
    reachable_firstSent rfl).2 ⟨_, List.mem_singleton_self _, hconf⟩).1

/-! ### All requests complete -/

/-- No request is submitted any more. -/
def Draining (_ : RetryState) (e : RetryEvent) : Prop := ∀ q k req, e ≠ .submit q k req

/-- The steps that the requests still have to take: to be sent, and to complete. -/
def RetryState.work (s : RetryState) : Nat := 2 * s.waiting.length + s.inFlight.length

theorem RetryState.work_eq_zero : s.work = 0 ↔ s.outstanding = [] := by
  simp only [work, outstanding, List.map_eq_nil_iff, List.append_eq_nil_iff]
  rw [← List.length_eq_zero_iff, ← List.length_eq_zero_iff]
  omega

theorem RetryState.exists_queue (h : s.waiting ≠ []) :
    ∃ (q : Nat) (r : Nat × Request) (l : List (Nat × Request)),
      s.queuedReq[q]? = some (r :: l) := by
  obtain ⟨r, hr⟩ := List.exists_mem_of_ne_nil _ h
  obtain ⟨l, hl, hmem⟩ := List.mem_flatten.1 hr
  obtain ⟨q, hq⟩ := List.mem_iff_getElem?.1 hl
  cases l with
  | nil => cases hmem
  | cons r l => exact ⟨q, r, l, hq⟩

/-- A retry that sends its request has less work left. -/
theorem SendsRequest.work_lt {r : Nat × Request} (h : SendsRequest s s' r)
    (hw : s.waiting.Perm (r :: s'.waiting)) : s'.work < s.work := by
  rw [RetryState.work, RetryState.work, hw.length_eq, h.inFlight]
  simp only [List.length_cons]
  omega

theorem work_lt_of_complete {status : Status} {buf : Bytes} (h : RetryInv ns s)
    (hs : retryStep submitRequest crc32c s (.complete k status buf) = some s') :
    s'.work < s.work := by
  rw [retryStep] at hs
  rcases hk : s.inFlight.lookup k with _ | req
  · simp [hk] at hs
  · simp only [hk, Option.some.injEq] at hs
    have hlen := (perm_filter h.nodup_inFlight hk).length_eq
    rw [List.length_cons] at hlen
    subst hs
    simp only [RetryState.work, RetryState.waiting]
    omega

/-- A step other than a submission leaves no more work. -/
theorem SubmitsRequest.work_le (hsub : SubmitsRequest submitRequest) (h : RetryInv ns s)
    (hd : Draining s e) (hs : retryStep submitRequest crc32c s e = some s') :
    s'.work ≤ s.work := by
  cases e with
  | submit q k req => exact absurd rfl (hd q k req)
  | complete k status buf => exact (work_lt_of_complete h hs).le
  | retry q =>
    obtain rfl : retry submitRequest s q = s' := Option.some.inj hs
    rcases hsub.retry_cases s q with ⟨-, heq⟩ | ⟨r, l, -, ⟨hc, hw⟩ | ⟨hc, hw⟩⟩
    · rw [heq]
    · exact (hc.work_lt hw).le
    · rw [RetryState.work, RetryState.work, hw.length_eq, hc.inFlight]

/-- With no command in flight a retry sends its request. -/
theorem SubmitsRequest.work_lt_of_retry (hsub : SubmitsRequest submitRequest) (h : RetryInv ns s)
    (hn : ns.numSectors < 2 ^ 62) (hfree : ∀ j < ns.entries, isLocked (ns.entry j) = false)
    (hf : s.inFlight = []) {r : Nat × Request} {l : List (Nat × Request)}
    (hq : s.queuedReq[q]? = some (r :: l)) : (retry submitRequest s q).work < s.work := by
  rcases hsub.retry_cases s q with ⟨hno, -⟩ | ⟨r', l', hq', ⟨hc, hw⟩ | ⟨hc, hw⟩⟩
  · exact absurd hq (hno r l)
  · exact hc.work_lt hw
  · have hmem : r' ∈ s.waiting :=
      List.mem_flatten.2 ⟨_, List.mem_of_getElem? hq', List.mem_cons_self⟩
    obtain ⟨_, hr, -⟩ := (h.lockLba_eq_false_iff hn hfree
      (h.inside r' (List.mem_append_right _ hmem))).1 hc.locked
    rw [hf] at hr
    cases hr

/-- The commands in flight complete, and the queue pairs where requests wait are polled. -/
structure Served (state : Nat → RetryState) (event : Nat → RetryEvent) : Prop where
  completes : ∀ n, ∀ r ∈ (state n).inFlight, ∃ i, n ≤ i ∧ ∃ status buf,
    event i = .complete r.1 status buf
  polled : ∀ n q r l, (state n).queuedReq[q]? = some (r :: l) → ∃ i, n ≤ i ∧ event i = .retry q

/-- Nothing waits forever: when no more requests are submitted, at some time all of them have
    completed. -/
theorem retry_drains (hsub : SubmitsRequest submitRequest) (ht : ns.crcTable.isSome)
    (hn : ns.numSectors < 2 ^ 62) (hfree : ∀ j < ns.entries, isLocked (ns.entry j) = false)
    {state : Nat → RetryState} {event : Nat → RetryEvent}
    (h₀ : (retryMachine submitRequest crc32c ns).Reachable RetryRule (state 0))
    (hrun : (retryMachine submitRequest crc32c ns).IsRun Draining state event)
    (hserved : Served state event) : ∃ n, ∀ i, n ≤ i → (state i).outstanding = [] := by
  have hrule : ∀ s e, Draining s e → RetryRule s e := by
    rintro s (⟨q, k, req⟩ | _ | _) hd
    · exact absurd rfl (hd q k req)
    · trivial
    · trivial
  have hinv (n) : RetryInv ns (state n) := hsub.inv_of_reachable ht (hrun.reachable h₀ hrule n)
  have hanti : Antitone fun n => (state n).work :=
    antitone_nat_of_succ_le fun n => hsub.work_le (hinv n) (hrun.admitted n) (hrun.step n)
  have hlower : ∀ n, (state n).work ≠ 0 → ∃ k, n ≤ k ∧ (state k).work < (state n).work := by
    intro n hwork
    rcases hf : (state n).inFlight with _ | ⟨r, l⟩
    · -- nothing is in flight: until the retry of a queue pair where a request waits, which
      -- sends it, the state stays as it is
      have hw : (state n).waiting ≠ [] := by
        intro hw
        exact hwork (by rw [RetryState.work, hf, hw]; rfl)
      obtain ⟨q, r, l, hq⟩ := RetryState.exists_queue hw
      obtain ⟨i, hi, he⟩ := hserved.polled n q r l hq
      refine Machine.ensures (p := fun j => state j = state n) hi rfl (fun j _ hj => ?_)
        fun hj => ?_
      · have hs : retryStep submitRequest crc32c (state j) (event j) = some (state (j + 1)) :=
          hrun.step j
        rw [hj] at hs
        cases hev : event j with
        | submit q k req => exact absurd hev (hrun.admitted j q k req)
        | complete k status buf =>
          rw [hev] at hs
          exact .inr (work_lt_of_complete (hinv n) hs)
        | retry q' =>
          rw [hev] at hs
          obtain hs : retry submitRequest (state n) q' = state (j + 1) := Option.some.inj hs
          by_cases hcons : ∃ r l, (state n).queuedReq[q']? = some (r :: l)
          · obtain ⟨r', l', hq'⟩ := hcons
            exact .inr (hs ▸ hsub.work_lt_of_retry (hinv n) hn hfree hf hq')
          · push Not at hcons
            exact .inl (hs ▸ retry_of_not_cons hcons)
      · have hs := hrun.step i
        rw [he, hj] at hs
        obtain hs : retry submitRequest (state n) q = state (i + 1) := Option.some.inj hs
        exact hs ▸ hsub.work_lt_of_retry (hinv n) hn hfree hf hq
    · obtain ⟨i, hi, status, buf, he⟩ := hserved.completes n r (hf ▸ List.mem_cons_self)
      have hs : retryStep submitRequest crc32c (state i) (event i) = some (state (i + 1)) :=
        hrun.step i
      rw [he] at hs
      exact ⟨i + 1, Nat.le_succ_of_le hi, (work_lt_of_complete (hinv i) hs).trans_le (hanti hi)⟩
  obtain ⟨n, -, hzero⟩ : ∃ n, 0 ≤ n ∧ (state n).work = 0 := by
    refine Machine.leadsTo (p := fun _ => True) (μ := fun n => (state n).work) (fun n _ => ?_)
      trivial
    rcases eq_or_ne (state n).work 0 with hz | hz
    · exact ⟨n, le_rfl, .inl hz⟩
    · obtain ⟨k, hk, hlt⟩ := hlower n hz
      exact ⟨k, hk, .inr ⟨trivial, hlt⟩⟩
  refine ⟨n, fun i hi => RetryState.work_eq_zero.1 ?_⟩
  exact Nat.le_zero.1 (hzero ▸ hanti hi)

/-- The two writes complete, one after the other. -/
def drainEvent : Nat → RetryEvent
  | 0 => .complete 0 .success fun _ => 0#8
  | 2 => .complete 1 .success fun _ => 0#8
  | _ => .retry 0

/-- The states on the way. -/
def drainState : Nat → RetryState
  | 0 => firstSent
  | n + 1 => ((retryStep submitTail (fun _ => 0#32) (drainState n) (drainEvent n)).getD
      (drainState n))

theorem drainState_add_three (n : Nat) : drainState (n + 3) = drainState 3 := by
  have hnil : (drainState 3).queuedReq.map (·.map Prod.fst) = [[]] := by decide
  have hq : (drainState 3).queuedReq = [[]] := by simpa using hnil
  induction n with
  | zero => rfl
  | succ n ih =>
    have hstep : drainState (n + 1 + 3) = retry submitTail (drainState (n + 3)) 0 := rfl
    rw [hstep, ih]
    refine retry_of_not_cons fun r l hcons => ?_
    rw [hq] at hcons
    cases hcons

theorem drainState_isRun :
    (retryMachine submitTail (fun _ => 0#32) tenBlocks.ns).IsRun Draining drainState
      drainEvent where
  admitted n := by
    rintro q k req h
    match n, h with
    | 0, h | 1, h | 2, h | _ + 3, h => cases h
  step n := by
    have hsome : (retryStep submitTail (fun _ => 0#32) (drainState n) (drainEvent n)).isSome := by
      match n with
      | 0 => decide
      | 1 => rfl
      | 2 => decide
      | _ + 3 => rfl
    obtain ⟨s, hs⟩ := Option.isSome_iff_exists.1 hsome
    change retryStep submitTail _ (drainState n) (drainEvent n) = some (drainState (n + 1))
    rw [drainState, hs, Option.getD_some]

theorem drainState_ids (n : Nat) : (drainState n).queuedReq.length = 1 ∧
    (drainState n).inFlight.map Prod.fst = if n = 0 then [0] else if n = 2 then [1] else [] := by
  rcases n with _ | _ | _ | n
  · decide
  · decide
  · decide
  · rw [drainState_add_three, if_neg (by omega), if_neg (by omega)]
    decide

theorem drainState_served : Served drainState drainEvent where
  completes n r hr := by
    have hid := List.mem_map_of_mem (f := Prod.fst) hr
    rw [(drainState_ids n).2] at hid
    split_ifs at hid with h₀ h₂
    · rw [List.mem_singleton] at hid
      exact ⟨n, le_rfl, .success, fun _ => 0#8, by rw [hid, h₀]; rfl⟩
    · rw [List.mem_singleton] at hid
      exact ⟨n, le_rfl, .success, fun _ => 0#8, by rw [hid, h₂]; rfl⟩
    · cases hid
  polled n q r l h := by
    obtain rfl : q = 0 := by
      have hlt := (List.getElem?_eq_some_iff.1 h).1
      rw [(drainState_ids n).1] at hlt
      omega
    exact ⟨n + 3, Nat.le_add_right n 3, rfl⟩

/-- Both writes complete. -/
theorem retry_drains_overlapping : ∃ n, ∀ i, n ≤ i → (drainState i).outstanding = [] :=
  retry_drains submitTail_submitsRequest rfl (by decide) tenBlocks_free reachable_firstSent
    drainState_isRun drainState_served

end Pynvme
