import Pynvme.Crc.Lock

/-!
# The cleanup of the driver

Before it resets or closes the controller, the main process makes the ioworkers
leave (`Pcie._driver_cleanup`): it sets a bit of the configuration that all
processes share, unlocks the LBAs of all namespaces, as the commands of an ioworker
that leaves never complete, and polls until no secondary process is left.

The machine `driverMachine` is the main process, in one call of the cleanup after
another, with any number of ioworkers, which attach at any time, each in the loop of
`ioworker_entry`. An ioworker looks at the bit once in an iteration, after it has sent
a command: it may lock LBAs after they were all unlocked, and leave
(`driver_cleanup_leaks`). The rule `KeepsLocks` excludes this, and then no LBA is
locked when a cleanup returns (`driver_cleanup_unlocks`).
-/

namespace Pynvme

open Word

/-! ### The configuration -/

/-- `DCFG_IOW_TERM`. -/
def dcfgIowTerm : BitVec 64 := 0x10#64

/-- `driver_config`: the verification is enabled only if there is memory for it. -/
def driverConfig (memoryEnough : Bool) (cfgWord : BitVec 64) : BitVec 64 :=
  if cfgWord &&& 1#64 ≠ 0#64 ∧ memoryEnough = false then cfgWord &&& ~~~1#64 else cfgWord

/-- `Pcie._config`, on the configuration `c`. -/
def pcieConfig (memoryEnough : Bool) (c : BitVec 64) (verify ioworkerTerminate : Option Bool) :
    BitVec 64 :=
  let c := match verify with
    | some false => c &&& 0xfffffffffffffffe#64
    | some true => c ||| 1#64
    | none => c
  let c := match ioworkerTerminate with
    | some false => c &&& 0xffffffffffffffef#64
    | some true => c ||| 0x10#64
    | none => c
  driverConfig memoryEnough c

/-! ### An ioworker -/

/-- Where an ioworker is in an iteration of the loop of `ioworker_entry`, or that it has
    left the loop. -/
inductive LoopPc
  | send
  | check
  | collect
  | retry
  | left
  deriving DecidableEq

/-- A secondary process, which runs an ioworker on the namespace `nsid`: its commands sent
    and not completed, and those that wait for their locks. -/
structure Secondary where
  nsid : Nat
  pc : LoopPc
  outstanding : List Request
  queuedReq : List Request

/-- The steps of an ioworker. -/
inductive SecondaryEvent
  /-- Send the first pending IO, if it is due. -/
  | send (io : Option Request)
  /-- Check the time, and the signal to terminate. -/
  | check (timeout : Bool)
  /-- The `i`th of the outstanding commands completes. -/
  | complete (i : Nat) (status : Status)
  /-- There are no more completions. -/
  | collected
  /-- Retry one queued request. -/
  | retry
  /-- Everything is sent and completed. -/
  | finish

/-- `nvme_qpair_submit_request`: a request that cannot lock its LBAs is queued. -/
def Secondary.submit (w : Secondary) (ns : Ns) (req : Request) : Ns × Secondary :=
  if (crc32LockLba ns req).2 then
    ((crc32LockLba ns req).1, { w with outstanding := w.outstanding ++ [req] })
  else (ns, { w with queuedReq := w.queuedReq ++ [req] })

/-- A step of an ioworker on its namespace; `term` is the signal to terminate. -/
def secondaryStep (crc32c : List (BitVec 8) → BitVec 32) (term : Bool) (ns : Ns) (w : Secondary) :
    SecondaryEvent → Option (Ns × Secondary)
  | .send io =>
    if w.pc = .send then
      match io with
      | none => some (ns, { w with pc := .check })
      | some req => some ({ w with pc := .check }.submit ns req)
    else none
  | .check timeout =>
    if w.pc = .check then some (ns, { w with pc := if timeout || term then .left else .collect })
    else none
  | .complete i status =>
    if w.pc = .collect then
      match w.outstanding[i]? with
      | none => none
      | some req => some (crc32UnlockLba (cmdlogCmdCpl crc32c ns req status).1 req,
          { w with outstanding := w.outstanding.eraseIdx i })
    else none
  | .collected => if w.pc = .collect then some (ns, { w with pc := .retry }) else none
  | .retry =>
    if w.pc = .retry then
      match w.queuedReq with
      | [] => some (ns, { w with pc := .send })
      | req :: queuedReq => some ({ w with pc := .send, queuedReq }.submit ns req)
    else none
  | .finish =>
    if w.pc = .send ∧ w.outstanding.isEmpty ∧ w.queuedReq.isEmpty then
      some (ns, { w with pc := .left })
    else none

/-! ### The main process -/

/-- Where the main process is in `Pcie._driver_cleanup`: before it, at the first check for
    secondary processes, before the signal to terminate, in `crc32_unlock_all`, polling with
    `retry` left, before the end of the signal; it has returned, or raised `TimeoutError`. -/
inductive MainPc
  | idle
  | check
  | terminate
  | unlock (nsid : Nat)
  | poll (retry : Nat)
  | resume
  | returned
  | raised
  deriving DecidableEq

/-- The processes of the driver, with what they share: the configuration, and the namespaces
    `1` to `numNs`. -/
structure DriverState where
  main : MainPc
  memoryEnough : Bool
  config : BitVec 64
  numNs : Nat
  ns : Nat → Ns
  secondaries : List Secondary

/-- The body of the loop of `crc32_unlock_all`. -/
def crc32UnlockNs (ns : Ns) : Ns := crc32SetLockBits ns 0 (ns.tableSize / 4) false

/-- `driver_no_secondary`. -/
def driverNoSecondary (s : DriverState) : Bool := s.secondaries.isEmpty

/-- A step of the main process; when a cleanup is over, it calls the next one. -/
def mainStep (s : DriverState) : DriverState :=
  match s.main with
  | .idle | .returned | .raised => { s with main := .check }
  | .check => { s with main := if driverNoSecondary s then .returned else .terminate }
  | .terminate => { s with
      main := .unlock 1
      config := pcieConfig s.memoryEnough s.config none (some true) }
  | .unlock nsid =>
    if nsid ≤ s.numNs then
      { s with
        main := .unlock (nsid + 1)
        ns := Function.update s.ns nsid (crc32UnlockNs (s.ns nsid)) }
    else { s with main := .poll 100 }
  | .poll retry =>
    if driverNoSecondary s then { s with main := .resume }
    else if retry - 1 = 0 then { s with main := .raised }
    else { s with main := .poll (retry - 1) }
  | .resume => { s with
      main := .returned
      config := pcieConfig s.memoryEnough s.config none (some false) }

/-! ### The machine -/

/-- The main process takes a step, or a process attaches, to run an ioworker on the namespace
    `nsid`, or the process `k` takes a step in its ioworker, or exits after it. -/
inductive DriverEvent
  | main
  | attach (nsid : Nat)
  | secondary (k : Nat) (e : SecondaryEvent)
  | exit (k : Nat)

/-- A step of the driver. The commands outstanding in a process that exits are dropped. -/
def driverStep (crc32c : List (BitVec 8) → BitVec 32) (s : DriverState) :
    DriverEvent → Option DriverState
  | .main => some (mainStep s)
  | .attach nsid =>
    if 1 ≤ nsid ∧ nsid ≤ s.numNs then
      some { s with secondaries := s.secondaries ++ [⟨nsid, .send, [], []⟩] }
    else none
  | .secondary k e =>
    match s.secondaries[k]? with
    | none => none
    | some w =>
      match secondaryStep crc32c (s.config &&& dcfgIowTerm != 0#64) (s.ns w.nsid) w e with
      | none => none
      | some r => some { s with
          ns := Function.update s.ns w.nsid r.1
          secondaries := s.secondaries.set k r.2 }
  | .exit k =>
    match s.secondaries[k]? with
    | none => none
    | some w =>
      if w.pc = .left then some { s with secondaries := s.secondaries.eraseIdx k } else none

/-- No entry of a CRC table is locked. -/
def DriverState.Unlocked (s : DriverState) : Prop :=
  ∀ nsid, 1 ≤ nsid → nsid ≤ s.numNs → ∀ j < (s.ns nsid).entries,
    isLocked ((s.ns nsid).entry j) = false

/-- The driver, before the first cleanup and the first ioworker. -/
def driverMachine (crc32c : List (BitVec 8) → BitVec 32) : Machine DriverState DriverEvent where
  init s := s.main = .idle ∧ s.secondaries = [] ∧ s.Unlocked
  step := driverStep crc32c

/-! ### The rule -/

variable {crc32c : List (BitVec 8) → BitVec 32} {s s' : DriverState} {ns ns' : Ns} {req : Request}
  {w w' : Secondary} {term : Bool} {j : Nat}

/-- The cleanup in progress has unlocked the namespace. -/
def MainPc.HasUnlocked (nsid : Nat) : MainPc → Prop
  | .unlock n => nsid < n
  | .poll _ => True
  | .resume => True
  | _ => False

/-- An outstanding command of the ioworker takes the lock of the entry `j`. -/
def Secondary.Takes (w : Secondary) (ns : Ns) (j : Nat) : Prop :=
  ∃ req ∈ w.outstanding, req.qpairId ≠ 0 ∧ req.Locks ns j

/-- The rule under which the locks are not lost: nothing is locked when a cleanup finds no
    secondary process, none attaches after the last poll, and none exits with a command
    outstanding whose LBAs are locked, once the cleanup has unlocked its namespace. -/
def KeepsLocks (s : DriverState) : DriverEvent → Prop
  | .main => s.main = .check → s.secondaries = [] → s.Unlocked
  | .attach _ => s.main ≠ .resume
  | .secondary _ _ => True
  | .exit k => ∀ w, s.secondaries[k]? = some w → s.main.HasUnlocked w.nsid →
      ∀ j < (s.ns w.nsid).entries, w.Takes (s.ns w.nsid) j →
        isLocked ((s.ns w.nsid).entry j) = false

/-! ### The locks -/

theorem isLocked_unlockNs (hj : j < ns.entries) :
    isLocked ((crc32UnlockNs ns).entry j) = false := by
  have hN := ns.entries_lt
  rw [Bool.eq_false_iff, ne_eq, crc32UnlockNs, ← Ns.entries,
    isLocked_clearLockBits (by omega), not_and, not_not]
  intro hl
  have ht : ns.crcTable.isSome := by
    rw [Option.isSome_iff_ne_none]
    intro hc
    simp [Ns.entry, hc] at hl
  exact (lockSpan_iff ht (by omega) (by omega) hj).2 ⟨Nat.zero_le _, by omega⟩

/-! ### A step of an ioworker -/

/-- What a step of an ioworker does to the locks: an entry that is locked after it was locked
    by one of its commands outstanding then, or it was locked before, by no command of its. -/
structure SecondaryStep (ns ns' : Ns) (w w' : Secondary) : Prop where
  nsid : w'.nsid = w.nsid
  shape : ns'.shape = ns.shape
  locked : ∀ j, isLocked (ns'.entry j) = true →
    w'.Takes ns j ∨ (isLocked (ns.entry j) = true ∧ ¬w.Takes ns j)

/-- A step that leaves the table and the outstanding commands as they are. -/
theorem SecondaryStep.of_eq (hnsid : w'.nsid = w.nsid) (hout : w'.outstanding = w.outstanding) :
    SecondaryStep ns ns w w' where
  nsid := hnsid
  shape := rfl
  locked j hj := by
    rw [Secondary.Takes, hout]
    exact (em _).imp_right fun hne => ⟨hj, hne⟩

theorem SecondaryStep.submit (hnsid : w'.nsid = w.nsid) (hout : w'.outstanding = w.outstanding) :
    SecondaryStep ns (w'.submit ns req).1 w (w'.submit ns req).2 := by
  rw [Secondary.submit]
  split_ifs with hlock
  · refine ⟨hnsid, shape_lockLba _ _, fun j hj => ?_⟩
    by_cases hT : w.Takes ns j
    · obtain ⟨r, hr, hL⟩ := hT
      exact .inl ⟨r, List.mem_append_left _ (hout ▸ hr), hL⟩
    · rcases isLocked_of_lockLba hj with hl | ⟨-, hL⟩
      · exact .inr ⟨hl, hT⟩
      · exact .inl ⟨req, List.mem_append_right _ (List.mem_singleton.2 rfl), hL⟩
  · exact .of_eq hnsid hout

theorem SecondaryStep.complete {i : Nat} {status : Status} (hi : w.outstanding[i]? = some req) :
    SecondaryStep ns (crc32UnlockLba (cmdlogCmdCpl crc32c ns req status).1 req) w
      { w with outstanding := w.outstanding.eraseIdx i } := by
  have hshape := shape_cmdCpl crc32c ns req status
  refine ⟨rfl, (shape_unlockLba _ _).trans hshape, fun j hj => ?_⟩
  obtain ⟨hl, hL⟩ := isLocked_of_unlockLba hj
  rw [Request.locks_of_shape hshape] at hL
  by_cases hT : w.Takes ns j
  -- The command that completes does not take the lock, so another one does.
  · obtain ⟨r, hr, hLr⟩ := hT
    obtain ⟨i', hi'⟩ := List.getElem?_of_mem hr
    refine .inl ⟨r, List.mem_eraseIdx_iff_getElem?.2 ⟨i', ?_, hi'⟩, hLr⟩
    rintro rfl
    obtain rfl := Option.some.inj (hi.symm.trans hi')
    exact hL hLr
  · exact .inr ⟨isLocked_of_cmdCpl hl, hT⟩

theorem secondaryStep_locks {e : SecondaryEvent} {r : Ns × Secondary}
    (h : secondaryStep crc32c term ns w e = some r) : SecondaryStep ns r.1 w r.2 := by
  cases e with
  | send io =>
    rcases io with _ | req
    · obtain ⟨-, ⟨⟩⟩ := Option.ite_none_right_eq_some.1 h
      exact .of_eq rfl rfl
    · obtain ⟨-, ⟨⟩⟩ := Option.ite_none_right_eq_some.1 h
      exact .submit rfl rfl
  | check timeout =>
    obtain ⟨-, ⟨⟩⟩ := Option.ite_none_right_eq_some.1 h
    exact .of_eq rfl rfl
  | complete i status =>
    obtain ⟨-, h⟩ := Option.ite_none_right_eq_some.1 h
    rcases hi : w.outstanding[i]? with _ | req
    · simp [hi] at h
    · simp only [hi, Option.some.injEq] at h
      subst h
      exact .complete hi
  | collected =>
    obtain ⟨-, ⟨⟩⟩ := Option.ite_none_right_eq_some.1 h
    exact .of_eq rfl rfl
  | retry =>
    obtain ⟨-, h⟩ := Option.ite_none_right_eq_some.1 h
    rcases hq : w.queuedReq with _ | ⟨req, queuedReq⟩
    · simp only [hq, Option.some.injEq] at h
      subst h
      exact .of_eq rfl rfl
    · simp only [hq, Option.some.injEq] at h
      subst h
      exact .submit rfl rfl
  | finish =>
    obtain ⟨-, ⟨⟩⟩ := Option.ite_none_right_eq_some.1 h
    exact .of_eq rfl rfl

/-! ### The steps of the driver -/

/-- What a step of the driver can do. -/
theorem driverStep_cases {e : DriverEvent} (h : driverStep crc32c s e = some s') :
    (e = .main ∧ s' = mainStep s) ∨
    (∃ nsid, e = .attach nsid ∧
      s' = { s with secondaries := s.secondaries ++ [⟨nsid, .send, [], []⟩] }) ∨
    (∃ k e' w r, e = .secondary k e' ∧ s.secondaries[k]? = some w ∧
      secondaryStep crc32c (s.config &&& dcfgIowTerm != 0#64) (s.ns w.nsid) w e' = some r ∧
      s' = { s with
        ns := Function.update s.ns w.nsid r.1
        secondaries := s.secondaries.set k r.2 }) ∨
    ∃ k, e = .exit k ∧ s' = { s with secondaries := s.secondaries.eraseIdx k } := by
  cases e with
  | main => exact .inl ⟨rfl, (Option.some.inj h).symm⟩
  | attach nsid =>
    obtain ⟨-, ⟨⟩⟩ := Option.ite_none_right_eq_some.1 h
    exact .inr (.inl ⟨nsid, rfl, rfl⟩)
  | secondary k e' =>
    rw [driverStep] at h
    rcases hk : s.secondaries[k]? with _ | w
    · simp [hk] at h
    rw [hk] at h
    dsimp only at h
    split at h
    · cases h
    · rename_i r hr
      exact .inr (.inr (.inl ⟨k, e', w, r, rfl, hk, hr, (Option.some.inj h).symm⟩))
  | exit k =>
    rw [driverStep] at h
    split at h
    · cases h
    · obtain ⟨-, ⟨⟩⟩ := Option.ite_none_right_eq_some.1 h
      exact .inr (.inr (.inr ⟨k, rfl, rfl⟩))

/-! ### The runs -/

/-- The locks in the namespaces that the cleanup has unlocked are those of outstanding
    commands. After the last poll, there is no process to have them. -/
structure LocksTaken (s : DriverState) : Prop where
  locked : ∀ nsid, 1 ≤ nsid → nsid ≤ s.numNs → s.main.HasUnlocked nsid →
    ∀ j < (s.ns nsid).entries, isLocked ((s.ns nsid).entry j) = true →
      ∃ (k : Nat) (w : Secondary),
        s.secondaries[k]? = some w ∧ w.nsid = nsid ∧ w.Takes (s.ns nsid) j
  resume : s.main = .resume → s.secondaries = []

/-- Nothing is known of the locks before the cleanup has unlocked a namespace. -/
theorem LocksTaken.of_not_hasUnlocked (h : ∀ nsid, 1 ≤ nsid → ¬s.main.HasUnlocked nsid)
    (hr : s.main ≠ .resume) : LocksTaken s where
  locked nsid hn _ hu := absurd hu (h nsid hn)
  resume hr' := absurd hr' hr

theorem LocksTaken.main (h : LocksTaken s) : LocksTaken (mainStep s) := by
  rcases hpc : s.main with _ | _ | _ | n | retry | _ | _ | _ <;> simp only [mainStep, hpc]
  case idle => exact .of_not_hasUnlocked (fun _ _ => id) (by simp)
  case check =>
    split_ifs
    · exact .of_not_hasUnlocked (fun _ _ => id) (by simp)
    · exact .of_not_hasUnlocked (fun _ _ => id) (by simp)
  case terminate => exact .of_not_hasUnlocked (fun nsid hn => Nat.not_lt.2 hn) (by simp)
  case unlock =>
    split_ifs with hnum
    · refine ⟨fun nsid hn hle hu j hj hl => ?_, by simp⟩
      rcases eq_or_ne nsid n with rfl | hne
      · simp only [Function.update_self] at hj hl
        rw [crc32UnlockNs, Ns.entries_of_shape shape_setLockBits] at hj
        rw [isLocked_unlockNs hj] at hl
        cases hl
      · simp only [Function.update_of_ne hne] at hj hl ⊢
        refine h.locked nsid hn hle ?_ j hj hl
        rw [hpc]
        exact Nat.lt_of_le_of_ne (Nat.le_of_lt_succ hu) hne
    · refine ⟨fun nsid hn hle _ => h.locked nsid hn hle ?_, by simp⟩
      rw [hpc]
      exact Nat.lt_of_le_of_lt hle (Nat.lt_of_not_le hnum)
  case poll =>
    have hu : ∀ nsid, s.main.HasUnlocked nsid := by simp [hpc, MainPc.HasUnlocked]
    split_ifs with hnone
    · refine ⟨fun nsid hn hle _ => h.locked nsid hn hle (hu nsid), fun _ => ?_⟩
      exact List.isEmpty_iff.1 hnone
    · exact .of_not_hasUnlocked (fun _ _ => id) (by simp)
    · exact ⟨fun nsid hn hle _ => h.locked nsid hn hle (hu nsid), by simp⟩
  case resume => exact .of_not_hasUnlocked (fun _ _ => id) (by simp)
  case returned => exact .of_not_hasUnlocked (fun _ _ => id) (by simp)
  case raised => exact .of_not_hasUnlocked (fun _ _ => id) (by simp)

theorem LocksTaken.attach (h : LocksTaken s) (hr : s.main ≠ .resume) (w : Secondary) :
    LocksTaken { s with secondaries := s.secondaries ++ [w] } := by
  refine ⟨fun nsid hn hle hu j hj hl => ?_, fun hr' => absurd hr' hr⟩
  obtain ⟨k, w', hk, hw'⟩ := h.locked nsid hn hle hu j hj hl
  refine ⟨k, w', ?_, hw'⟩
  have hlt : k < s.secondaries.length := (List.getElem?_eq_some_iff.1 hk).1
  rwa [List.getElem?_append_left hlt]

theorem LocksTaken.secondary (h : LocksTaken s) {k : Nat} (hk : s.secondaries[k]? = some w)
    (hs : SecondaryStep (s.ns w.nsid) ns' w w') :
    LocksTaken { s with
      ns := Function.update s.ns w.nsid ns'
      secondaries := s.secondaries.set k w' } := by
  have hlt : k < s.secondaries.length := (List.getElem?_eq_some_iff.1 hk).1
  refine ⟨fun nsid hn hle hu j hj hl => ?_, fun hr => ?_⟩
  · dsimp only at hj hl ⊢
    rcases eq_or_ne nsid w.nsid with rfl | hne
    · rw [Function.update_self] at hj hl ⊢
      have htakes : ∀ v : Secondary, v.Takes ns' j ↔ v.Takes (s.ns w.nsid) j := fun v => by
        simp only [Secondary.Takes, Request.locks_of_shape hs.shape]
      rcases hs.locked j hl with hT | ⟨hl', hT⟩
      · exact ⟨k, w', List.getElem?_set_self hlt, hs.nsid, (htakes w').2 hT⟩
      -- The lock is that of another process.
      · rw [Ns.entries_of_shape hs.shape] at hj
        obtain ⟨i, v, hi, hv, hTv⟩ := h.locked _ hn hle hu j hj hl'
        have hik : k ≠ i := by
          rintro rfl
          obtain rfl := Option.some.inj (hk.symm.trans hi)
          exact hT hTv
        exact ⟨i, v, by rwa [List.getElem?_set_ne hik], hv, (htakes v).2 hTv⟩
    · rw [Function.update_of_ne hne] at hj hl ⊢
      obtain ⟨i, v, hi, hv, hTv⟩ := h.locked nsid hn hle hu j hj hl
      have hik : k ≠ i := by
        rintro rfl
        obtain rfl := Option.some.inj (hk.symm.trans hi)
        exact hne hv.symm
      exact ⟨i, v, by rwa [List.getElem?_set_ne hik], hv, hTv⟩
  · rw [h.resume hr] at hk
    cases hk

theorem LocksTaken.exit (h : LocksTaken s) {k : Nat} (hP : KeepsLocks s (.exit k)) :
    LocksTaken { s with secondaries := s.secondaries.eraseIdx k } := by
  refine ⟨fun nsid hn hle hu j hj hl => ?_, fun hr => ?_⟩
  · obtain ⟨i, w, hi, rfl, hT⟩ := h.locked nsid hn hle hu j hj hl
    have hik : i ≠ k := by
      rintro rfl
      rw [hP w hi hu j hj hT] at hl
      cases hl
    have hmem : w ∈ s.secondaries.eraseIdx k := List.mem_eraseIdx_iff_getElem?.2 ⟨i, hik, hi⟩
    obtain ⟨i', hi'⟩ := List.getElem?_of_mem hmem
    exact ⟨i', w, hi', rfl, hT⟩
  · dsimp only
    rw [h.resume hr, List.eraseIdx_nil]

theorem locksTaken_of_reachable (h : (driverMachine crc32c).Reachable KeepsLocks s) :
    LocksTaken s := by
  refine h.invariant (fun s hs => ?_) fun s e s' hI hP hs => ?_
  · exact .of_not_hasUnlocked (fun _ _ hu => by rwa [hs.1] at hu) (by simp [hs.1])
  · rcases driverStep_cases hs with ⟨rfl, rfl⟩ | ⟨nsid, rfl, rfl⟩ |
      ⟨k, e, w, r, rfl, hk, hr, rfl⟩ | ⟨k, rfl, rfl⟩
    · exact hI.main
    · exact hI.attach hP _
    · exact hI.secondary hk (secondaryStep_locks hr)
    · exact hI.exit hP

/-- Under the rule, no LBA is locked when a cleanup returns. -/
theorem driver_cleanup_unlocks (h : (driverMachine crc32c).Reachable KeepsLocks s)
    (hP : KeepsLocks s .main) (hs : driverStep crc32c s .main = some s')
    (hr : s'.main = .returned) : s'.Unlocked := by
  have hI := locksTaken_of_reachable h
  obtain rfl := Option.some.inj hs
  rcases hpc : s.main with _ | _ | _ | n | retry | _ | _ | _ <;> simp only [mainStep, hpc] at hr ⊢
  case check =>
    split_ifs at hr with hnone
    exact hP hpc (List.isEmpty_iff.1 hnone)
  case unlock => split_ifs at hr
  case poll => split_ifs at hr
  case resume =>
    intro nsid hn hle j hj
    rw [Bool.eq_false_iff]
    intro hl
    obtain ⟨k, w, hk, -⟩ := hI.locked nsid hn hle (by simp [hpc, MainPc.HasUnlocked]) j hj hl
    rw [hI.resume hpc] at hk
    cases hk
  all_goals cases hr

/-- A driver with one namespace of 8 sectors. -/
def DriverState.start : DriverState where
  main := .idle
  memoryEnough := true
  config := 1#64
  numNs := 1
  ns := fun _ => Ns.formatted 8 4096 8 (by decide) (by decide) (by decide)
  secondaries := []

theorem DriverState.start_init : (driverMachine crc32c).init .start :=
  ⟨rfl, rfl, fun _ _ _ _ _ => isLocked_zero⟩

/-- A read of the first sector. -/
def readFirst : Request := ⟨⟨2#8, 0#32, 0#32, 0#32, 0#32, 0#32, 0#32⟩, 1, fun _ => 0#8⟩

/-- A command sent before the cleanup is outstanding when its ioworker leaves. -/
theorem driver_cleanup_unlocks_sent :
    ∃ s s', (driverMachine fun _ => 0#32).Reachable KeepsLocks s ∧
      driverStep (fun _ => 0#32) s .main = some s' ∧ s'.main = .returned ∧ s'.Unlocked := by
  have hrun : ∃ s, (driverMachine fun _ => 0#32).Reachable KeepsLocks s ∧ s.main = .resume := by
    refine (Machine.Reachable.init DriverState.start_init).exists_run
      [.attach 1, .secondary 0 (.send (some readFirst)), .main, .main, .main, .main, .main,
        .secondary 0 (.check false), .exit 0, .main] ?_ rfl
    refine .cons nofun rfl <| .cons trivial rfl <| .cons nofun rfl <| .cons (fun _ => nofun) rfl <|
      .cons nofun rfl <| .cons nofun rfl <| .cons nofun rfl <| .cons trivial rfl <|
      .cons ?_ rfl <| .cons nofun rfl trivial
    -- The lock of the command that is dropped was cleared.
    rintro w hw - j hj -
    obtain rfl := Option.some.inj hw
    revert j
    decide +kernel
  obtain ⟨s, hs, hpc⟩ := hrun
  have hstep : driverStep (fun _ => 0#32) s .main = some (mainStep s) := rfl
  have hr : (mainStep s).main = .returned := by simp only [mainStep, hpc]
  have hP : KeepsLocks s .main := by simp [KeepsLocks, hpc]
  exact ⟨s, mainStep s, hs, hstep, hr, driver_cleanup_unlocks hs hP hstep hr⟩

/-- A command sent after its namespace was unlocked is outstanding when its ioworker leaves:
    its LBA is locked when the cleanup returns. -/
theorem driver_cleanup_leaks :
    ∃ s s', (driverMachine fun _ => 0#32).Reachable (fun _ _ => True) s ∧
      driverStep (fun _ => 0#32) s .main = some s' ∧ s'.main = .returned ∧ ¬s'.Unlocked := by
  obtain ⟨s, hs, hf⟩ := (Machine.Reachable.init DriverState.start_init).exists_run
    (m := driverMachine fun _ => 0#32)
    (f := fun s => (s.main, s.numNs, (s.ns 1).entries, isLocked ((s.ns 1).entry 0)))
    (t := (.resume, 1, 8, true))
    [.attach 1, .main, .main, .main, .main, .main, .secondary 0 (.send (some readFirst)),
      .secondary 0 (.check false), .exit 0, .main]
    (Machine.admits_of_forall (fun _ _ _ => trivial) _) (by decide +kernel)
  simp only [Prod.mk.injEq] at hf
  obtain ⟨hpc, hnum, hentries, hlocked⟩ := hf
  refine ⟨s, mainStep s, hs, rfl, by simp only [mainStep, hpc], fun hu => ?_⟩
  simp only [mainStep, hpc] at hu
  have h0 := hu 1 le_rfl hnum.ge 0 (by simp only; omega)
  rw [hlocked] at h0
  cases h0

end Pynvme
