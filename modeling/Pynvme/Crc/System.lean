import Pynvme.Crc.Device

/-!
# No false alarm

The driver and a device together: requests are built, wait until they can lock
their LBAs, are executed by the device and complete, each in its own time. A
completion that the device reports as a success is reported as a failure if the
verification of its data fails; when the device works, that must not happen.

* The machine of the driver and the device (`ioMachine`), and its rule: ranges of
  at most `65535` blocks, inside a namespace of fewer than `2 ^ 62` sectors. The device
  gets as many bytes of a buffer as were handed over with the request.
* Its invariant (`IoInv`): the LBAs are locked by the requests sent, the sectors
  of the device carry their LBAs, the data of an executed command is still in its
  sectors, and an entry of the table matches its sector, unless a command that
  changes the sector has been executed and has not completed.
* `no_false_alarm`: every completion is reported as the device did, provided that
  the number of bytes of a read or a write fits in 32 bits; otherwise less is
  transferred, and a sector may be stamped with the LBA of another (`false_alarm`).
-/

namespace Pynvme

open Word

variable {crc32c : List (BitVec 8) → BitVec 32} {ns ns' ns₀ : Ns} {req : Request}
  {dev dev' : Device} {sectorSize len n j : Nat} {status : Status} {o : Outcome}

/-! ### Executed requests -/

/-- What holds of an executed request until it completes; `n` is the number of
    entries of the table, whose LBAs are locked. -/
structure Executed (dev : Device) (sectorSize n : Nat) (req : Request) (status : Status) :
    Prop where
  /-- Only reads and compares fail. -/
  succeeds : status = .success ∨ (status.isError = true ∧ ¬req.Mutates)
  /-- The sectors of a write or a read hold the data in its buffer. -/
  data : status = .success → req.cmd.opc = 1#8 ∨ req.cmd.opc = 2#8 →
    ∀ i < req.cmd.nlbField + 1, req.cmd.slba + i < n → dev.uncorr (req.cmd.slba + i) = false ∧
      ∀ b < sectorSize, dev.media (req.cmd.slba + i) b = req.buf (i * sectorSize + b)
  /-- The sectors of a read carry their LBAs. -/
  stamps : status = .success → req.cmd.opc = 2#8 → ∀ i < req.cmd.nlbField + 1,
    lbaMatches (req.buf.readLe (i * sectorSize) 8) (req.cmd.slba + i) = true
  /-- The sectors of a write uncorrectable are marked. -/
  marked : req.cmd.opc = 4#8 → ∀ i < req.cmd.nlbField + 1, req.cmd.slba + i < n →
    dev.uncorr (req.cmd.slba + i) = true

theorem Request.covers_slba_add (h : isRangeOpc req.cmd.opc = true) {i : Nat}
    (hi : i < req.cmd.nlbField + 1) : req.Covers (req.cmd.slba + i) :=
  (Request.covers_of_isRangeOpc h).2 ⟨by omega, by omega⟩

/-- Nobody else changes the locked sectors of an executed request. -/
theorem Executed.frame (h : Executed dev sectorSize n req status)
    (hkeep : ∀ j < n, req.Covers j → dev'.media j = dev.media j ∧ dev'.uncorr j = dev.uncorr j) :
    Executed dev' sectorSize n req status := by
  refine ⟨h.succeeds, fun hst hop i hi hlt => ?_, h.stamps, fun hop i hi hlt => ?_⟩
  · have hr : isRangeOpc req.cmd.opc = true := by
      rcases hop with hop | hop <;> rw [hop] <;> rfl
    obtain ⟨hm, hu⟩ := hkeep _ hlt (Request.covers_slba_add hr hi)
    rw [hm, hu]
    exact h.data hst hop i hi hlt
  · rw [(hkeep _ hlt (Request.covers_slba_add (by rw [hop]; rfl) hi)).2]
    exact h.marked hop i hi hlt

theorem Device.readInto_apply {i b : Nat} (hi : i < req.cmd.nlbField + 1) (hb : b < sectorSize) :
    dev.readInto sectorSize req (i * sectorSize + b) = dev.media (req.cmd.slba + i) b := by
  have hlt : i * sectorSize + b < (req.cmd.nlbField + 1) * sectorSize :=
    calc i * sectorSize + b < i * sectorSize + sectorSize := by omega
      _ ≤ (req.cmd.nlbField + 1) * sectorSize := sector_add_le sectorSize hi
  have hdiv : (i * sectorSize + b) / sectorSize = i := by
    rw [Nat.mul_comm, Nat.mul_add_div (by omega), Nat.div_eq_of_lt hb, Nat.add_zero]
  have hmod : (i * sectorSize + b) % sectorSize = b := by
    rw [Nat.mul_comm, Nat.mul_add_mod, Nat.mod_eq_of_lt hb]
  rw [Device.readInto, if_pos hlt, hdiv, hmod]

theorem Request.withData_cmd (req : Request) (buf : Bytes) : (req.withData buf).cmd = req.cmd := by
  rw [Request.withData]
  split_ifs <;> rfl

theorem Request.withData_buf {buf : Bytes} (h : isDsmOpc req.cmd.opc = false) :
    (req.withData buf).buf = buf := by
  rw [Request.withData, if_neg (by rw [h]; exact Bool.false_ne_true)]

theorem Status.success_ne_of_isError (h : status.isError = true) : status ≠ .success := by
  rintro rfl
  exact absurd h (by decide)

/-- Nothing holds of the sectors of a request that is no write, write
    uncorrectable or successful read. -/
theorem Executed.of_succeeds (hs : status = .success ∨ (status.isError = true ∧ ¬req.Mutates))
    (h1 : req.cmd.opc ≠ 1#8) (h2 : req.cmd.opc = 2#8 → status ≠ .success) (h4 : req.cmd.opc ≠ 4#8) :
    Executed dev sectorSize n req status where
  succeeds := hs
  data hst hop := by
    rcases hop with hop | hop
    · exact absurd hop h1
    · exact absurd hst (h2 hop)
  stamps hst hop := absurd hst (h2 hop)
  marked hop := absurd hop h4

theorem Request.not_mutates_of (h : req.cmd.opc = 2#8 ∨ req.cmd.opc = 5#8) : ¬req.Mutates := by
  rcases h with h | h <;> simp [Request.Mutates, h]

/-- The execution of a request establishes what holds until it completes. -/
theorem Device.executed_exec (h : dev.Stamped) (hsize : 8 ≤ sectorSize)
    (hcar : req.Carried sectorSize len) (herr : o.error.isError = true) :
    Executed (dev.exec sectorSize len req o).1 sectorSize n (dev.exec sectorSize len req o).2.1
      (dev.exec sectorSize len req o).2.2 := by
  have hne := Status.success_ne_of_isError herr
  rw [Device.exec]
  dsimp only
  split_ifs with h1 h2 hu h4 h5 hm h8 h9
  · have hr : isRangeOpc req.cmd.opc = true := by rw [h1]; rfl
    refine ⟨.inl rfl, fun _ _ i hi _ => ?_, fun _ h2 => ?_, fun h4 => ?_⟩
    · have hc := Request.covers_slba_add hr hi
      refine ⟨by simp [hc], fun b hb => ?_⟩
      dsimp only
      rw [if_pos hc, Nat.add_sub_cancel_left]
      exact transfer_of_lt (hcar.offset_lt (.inl h1) hi hb)
    · exact absurd (h1.symm.trans h2) (by decide)
    · exact absurd (h1.symm.trans h4) (by decide)
  -- The data of a read that fails is not verified.
  · refine .of_succeeds (.inr ⟨herr, ?_⟩) ?_ (fun _ => hne) ?_
    · exact Request.not_mutates_of (by rw [Request.withData_cmd]; exact .inl h2)
    · rw [Request.withData_cmd, h2]; decide
    · rw [Request.withData_cmd, h2]; decide
  · have hbuf : ∀ i < req.cmd.nlbField + 1, ∀ b < sectorSize,
        (req.withData (transfer len (dev.readInto sectorSize req) req.buf)).buf
          (i * sectorSize + b) = dev.media (req.cmd.slba + i) b := fun i hi b hb => by
      rw [Request.withData_buf (by rw [h2]; rfl), transfer_of_lt (hcar.offset_lt (.inr h2) hi hb),
        Device.readInto_apply hi hb]
    refine ⟨.inl rfl, fun _ _ i hi _ => ?_, fun _ _ i hi => ?_, fun h4 => ?_⟩
    · rw [Request.withData_cmd] at hi ⊢
      refine ⟨?_, fun b hb => (hbuf i hi b hb).symm⟩
      exact Bool.eq_false_iff.2 fun hun => hu ⟨i, hi, hun⟩
    · rw [Request.withData_cmd] at hi ⊢
      have hword : (req.withData (transfer len (dev.readInto sectorSize req) req.buf)).buf.readLe
          (i * sectorSize) 8 = (dev.media (req.cmd.slba + i)).readLe 0 8 :=
        Bytes.readLe_congr fun k hk => by rw [hbuf i hi k (by omega), Nat.zero_add]
      rw [hword]
      exact h _
    · rw [Request.withData_cmd, h2] at h4
      exact absurd h4 (by decide)
  · refine ⟨.inl rfl, fun _ hop => ?_, fun _ hop => absurd hop h2, fun _ i hi _ => ?_⟩
    · exact absurd hop (by simp [h4])
    · have hc := Request.covers_slba_add (show isRangeOpc req.cmd.opc = true by rw [h4]; rfl) hi
      simp [hc]
  · exact .of_succeeds (.inr ⟨herr, Request.not_mutates_of (.inr h5)⟩) h1
      (fun hop => absurd hop h2) h4
  all_goals exact .of_succeeds (.inl rfl) h1 (fun hop => absurd hop h2) h4

theorem Request.Good.exec (h : req.Good sectorSize) :
    (dev.exec sectorSize len req o).2.1.Good sectorSize := by
  obtain ⟨buf, hreq, hbuf⟩ := dev.exec_request sectorSize len req o
  rw [hreq]
  refine ⟨h.small.withData buf, fun j hj => h.lt j ((req.withData_covers buf j).1 hj),
    fun hop => ?_⟩
  rw [req.withData_cmd] at hop ⊢
  rw [Request.withData_buf (by rw [hop]; rfl), hbuf (by rw [hop]; decide)]
  exact h.stamped hop

/-! ### Completions -/

variable (crc32c) in
/-- The checksum `c` of the LBA `j` matches the sector, unless the sector cannot
    be read. -/
def Device.Matches (dev : Device) (sectorSize j : Nat) (c : BitVec 32) : Prop :=
  dev.uncorr j = false →
    c = 0#32 ∨ (c ≠ uncorrCrc ∧ c = bufferCalcCsum crc32c (dev.media j) 0 sectorSize)

theorem Device.matches_zero : dev.Matches crc32c sectorSize j (crcOf 0#32) :=
  fun _ => .inl (by decide)

/-- The table after a successful completion. -/
theorem cmdCpl_success (hio : req.qpairId ≠ 0) :
    (cmdlogCmdCpl crc32c ns req .success).1 = cmdlogUpdateCrcIo crc32c req.cmd ns req.buf := by
  rw [cmdlogCmdCpl, if_pos (by rfl), cmdlogUpdateCrc, if_neg hio]

/-- The completion of a command that changes its sectors leaves entries that match
    them. -/
theorem Executed.matches_cmdCpl (h : Executed dev ns.sectorSize ns.entries req status)
    (hg : req.Good ns.sectorSize) (hsize : ns.sectorSize < 2 ^ 31) (ht : ns.crcTable.isSome)
    (hj : j < ns.entries) (hc : req.Covers j) (hm : req.Mutates) :
    dev.Matches crc32c ns.sectorSize j (crcOf ((cmdlogCmdCpl crc32c ns req status).1.entry j)) := by
  obtain rfl : status = .success := h.succeeds.resolve_right fun hf => hf.2 hm
  have hN := ns.entries_lt
  have hspan : isRangeOpc req.cmd.opc = true → req.cmd.slba < 2 ^ 62 ∧
      req.cmd.lbaCount = req.cmd.nlbField + 1 ∧ req.cmd.nlbField + 1 < 2 ^ 16 ∧
      ClearSpan ns req.cmd.slba (req.cmd.lbaCount * 4) j := by
    intro hr
    obtain ⟨hs, hn⟩ := hg.small.range hr
    have hL := (hg.small.locks_iff ht hj).2 hc
    rw [Request.Locks, if_pos hr] at hL
    rw [lbaCount_eq hn]
    exact ⟨hs, rfl, by omega, (clearSpan_iff_lockSpan hs (by omega)).2 hL⟩
  rw [cmdCpl_success hg.small.io, cmdlogUpdateCrcIo]
  rcases hm with hop | hop | hop | hop
  · have hr : isRangeOpc req.cmd.opc = true := by rw [hop]; rfl
    obtain ⟨hs, hn, hlt, -⟩ := hspan hr
    obtain ⟨hle, hub⟩ := (Request.covers_of_isRangeOpc hr).1 hc
    obtain ⟨i, rfl⟩ := Nat.exists_eq_add_of_le hle
    have hu : u64 (req.cmd.slba + i) = req.cmd.slba + i := u64_of_lt (by omega)
    have he : (bufferUpdateCrc crc32c ns req.buf req.cmd.slba req.cmd.lbaCount ns.sectorSize).entry
        (req.cmd.slba + i) = bufferCalcCsum crc32c req.buf (i * ns.sectorSize) ns.sectorSize := by
      rw [← hu]
      exact entry_updateCrc (by omega) ht (by omega) (by rwa [hu])
    obtain ⟨_, hne, hlock⟩ := bufferCalcCsum_ne req.buf (i * ns.sectorSize) ns.sectorSize
    rw [if_pos hop, he, crcOf_of_not_isLocked hlock]
    refine fun _ => .inr ⟨hne, bufferCalcCsum_congr hsize fun b hb => ?_⟩
    rw [Nat.zero_add]
    exact ((h.data rfl (.inl hop) i (by omega) hj).2 b hb).symm
  · have hr : isRangeOpc req.cmd.opc = true := by rw [hop]; rfl
    obtain ⟨hle, hub⟩ := (Request.covers_of_isRangeOpc hr).1 hc
    obtain ⟨i, rfl⟩ := Nat.exists_eq_add_of_le hle
    intro hu
    rw [h.marked hop i (by omega) hj] at hu
    cases hu
  · obtain ⟨hs, hn, hlt, hclear⟩ := hspan (by rw [hop]; rfl)
    rw [if_neg (by rw [hop]; decide), if_neg (by rw [hop]; decide), if_pos hop,
      entry_clear (by omega) hclear]
    exact Device.matches_zero
  · have hd : isDsmOpc req.cmd.opc = true := by rw [hop]; rfl
    have hL := (hg.small.locks_iff ht hj).2 hc
    rw [Request.Locks, isRangeOpc_of_isDsmOpc hd, if_neg Bool.false_ne_true, if_pos hd] at hL
    obtain ⟨i, hi, hspan⟩ := hL
    obtain ⟨hs, hn⟩ := hg.small.ranges hd i hi
    rw [if_neg (by rw [hop]; decide), if_neg (by rw [hop]; decide), if_neg (by rw [hop]; decide),
      if_pos hop, entry_clearRanges ⟨i, hi, (clearSpan_iff_lockSpan hs (by omega)).2 hspan⟩]
    exact Device.matches_zero

/-- Other completions leave the table as it is. -/
theorem cmdCpl_of_not_mutates (hio : req.qpairId ≠ 0) (hm : ¬req.Mutates) :
    (cmdlogCmdCpl crc32c ns req status).1 = ns := by
  simp only [Request.Mutates, not_or] at hm
  obtain ⟨h1, h4, h8, h9⟩ := hm
  have hupd : cmdlogUpdateCrc crc32c ns req = ns := by
    rw [cmdlogUpdateCrc, if_neg hio, cmdlogUpdateCrcIo, if_neg h1, if_neg h4, if_neg h8, if_neg h9]
  simp only [cmdlogCmdCpl, hupd]
  split_ifs <;> rfl

/-- A completion is reported as the device did, if the entries it covers match
    their sectors. -/
theorem Executed.status_cmdCpl (h : Executed dev ns.sectorSize ns.entries req status)
    (hg : req.Good ns.sectorSize) (hsize : ns.sectorSize < 2 ^ 31)
    (hen : ns.crcTable.map CrcTable.enabled = some true)
    (hmatch : req.cmd.opc = 2#8 → ∀ j < ns.entries, req.Covers j →
      dev.Matches crc32c ns.sectorSize j (crcOf (ns.entry j))) :
    (cmdlogCmdCpl crc32c ns req status).2 = status := by
  by_cases hop : req.cmd.opc = 2#8
  · have hr : isRangeOpc req.cmd.opc = true := by rw [hop]; rfl
    rcases h.succeeds with rfl | ⟨herr, -⟩
    · have hupd : cmdlogUpdateCrc crc32c ns req = ns := by
        simp [cmdlogUpdateCrc, cmdlogUpdateCrcIo, hop]
      have hcount : req.cmd.lbaCount = req.cmd.nlbField + 1 := lbaCount_eq (hg.small.range hr).2
      have hverify : cmdlogVerifyCrc crc32c ns req = 0 := by
        rw [cmdlogVerifyCrc_eq_zero_iff_verify hg.small.io hop hen, bufferVerifyLba_eq_zero_iff,
          bufferVerifyData_eq_zero_iff, hcount]
        have hu : ∀ i < req.cmd.nlbField + 1, u64 (req.cmd.slba + i) = req.cmd.slba + i :=
          fun i hi => u64_of_lt (by
            have := hg.lt _ (Request.covers_slba_add hr hi)
            omega)
        refine ⟨fun i hi => ?_, fun i hi => ?_⟩
        · rw [hu i hi]
          exact h.stamps rfl hop i hi
        · rw [verifySector_eq_none_iff, hu i hi]
          intro hlt
          obtain ⟨hunc, hdata⟩ := h.data rfl (.inr hop) i hi hlt
          refine (hmatch hop _ hlt (Request.covers_slba_add hr hi) hunc).imp_right fun hm => ?_
          refine ⟨hm.1, hm.2.trans (bufferCalcCsum_congr hsize fun b hb => ?_)⟩
          rw [Nat.zero_add, hdata b hb]
      simp [cmdlogCmdCpl, hupd, hverify]
    · simp [cmdlogCmdCpl, herr, hop]
  · simp only [cmdlogCmdCpl, cmdlogVerifyCrc, hop, and_false, if_false, ne_eq, not_true_eq_false]
    split_ifs <;> rfl

/-! ### The machine -/

/-- Where a request is: waiting for its locks, or sent to the device, with `len` bytes of
    its buffer; or executed, with the status of its completion. -/
inductive Phase
  | queued (len : Nat)
  | sent (len : Nat)
  | executed (status : Status)

/-- The driver and the device. The completions are recorded with the status of the
    device and the status the driver reports. -/
structure IoState where
  ns : Ns
  token : Nat
  dev : Device
  reqs : Nat → Option (Request × Phase)
  reports : List (Status × Status)

/-- The events of the request `k`. -/
inductive IoEvent
  | submit (k q : Nat) (c : IoCmd)
  | send (k : Nat)
  | exec (k : Nat) (o : Outcome)
  | complete (k : Nat)

/-- A request holds its locks from when it is sent. -/
def holder : Option (Request × Phase) → Option Request
  | none => none
  | some (_, .queued _) => none
  | some (req, _) => some req

/-- The requests that hold locks. -/
def IoState.holders (s : IoState) : Nat → Option Request := holder ∘ s.reqs

variable (crc32c) in
/-- The step of the driver and the device. A request that cannot lock its LBAs
    stays queued. -/
def ioStep (s : IoState) : IoEvent → Option IoState
  | .submit k q c =>
    match s.reqs k with
    | some _ => none
    | none => (c.build s.ns q s.token).map fun b =>
        { s with token := b.token, reqs := Function.update s.reqs k (some (b.req, .queued b.len)) }
  | .send k =>
    match s.reqs k with
    | some (req, .queued len) =>
      let attempt := crc32LockLba s.ns req
      some { s with
        ns := attempt.1
        reqs := if attempt.2 then Function.update s.reqs k (some (req, .sent len)) else s.reqs }
    | _ => none
  | .exec k o =>
    match s.reqs k with
    | some (req, .sent len) =>
      let (dev, req, status) := s.dev.exec s.ns.sectorSize len req o
      some { s with dev, reqs := Function.update s.reqs k (some (req, .executed status)) }
    | _ => none
  | .complete k =>
    match s.reqs k with
    | some (req, .executed status) =>
      let (ns, report) := cmdlogCmdCpl crc32c s.ns req status
      some { s with
        ns := crc32UnlockLba ns req
        reqs := Function.update s.reqs k none
        reports := (status, report) :: s.reports }
    | _ => none

/-- A device after a format, all of whose sectors are zero. -/
def IoState.formatted (ns : Ns) (token : Nat) : IoState where
  ns := ns
  token := token
  dev := ⟨fun _ _ => 0#8, fun _ => false⟩
  reqs _ := none
  reports := []

variable (crc32c) in
/-- The machine of a namespace and a device after a format. -/
def ioMachine (ns : Ns) : Machine IoState IoEvent where
  init s := ∃ token, s = .formatted ns token
  step := ioStep crc32c

/-- The runs considered: commands inside the namespace, on IO queues; what fails
    on the device fails with an error. -/
def IoRule (s : IoState) : IoEvent → Prop
  | .submit _ q c => q ≠ 0 ∧ c.Inside s.ns
  | .exec _ o => o.error.isError = true
  | _ => True

/-- The number of bytes of a read or a write fits in 32 bits. -/
def LengthRule (s : IoState) : IoEvent → Prop
  | .submit _ _ c => c.FitsLength s.ns
  | _ => True

/-- What is handed over to the device is all that the request needs. -/
def Phase.Carries (sectorSize : Nat) (req : Request) : Phase → Prop
  | .queued len | .sent len => req.Carried sectorSize len
  | .executed _ => True

variable (crc32c) in
/-- The invariant of the driver and the device, for a namespace formatted as `ns₀`. -/
structure IoInv (ns₀ : Ns) (s : IoState) : Prop where
  shape : s.ns.shape = ns₀.shape
  locks : LockInv (fun j => isLocked (ns₀.entry j) = true) s.ns s.holders
  good : ∀ {k req phase}, s.reqs k = some (req, phase) →
    req.Good s.ns.sectorSize ∧ phase.Carries s.ns.sectorSize req
  stamped : s.dev.Stamped
  executed : ∀ {k req status}, s.reqs k = some (req, .executed status) →
    Executed s.dev s.ns.sectorSize s.ns.entries req status
  entries : ∀ j < s.ns.entries,
    (∀ k req status, s.reqs k = some (req, .executed status) → req.Mutates → ¬req.Covers j) →
    s.dev.Matches crc32c s.ns.sectorSize j (crcOf (s.ns.entry j))
  reports : ∀ p ∈ s.reports, p.2 = p.1

/-! ### The steps keep the invariant -/

section Steps

variable {s : IoState} {k i token : Nat} {reqs : Nat → Option (Request × Phase)}
  {v : Option (Request × Phase)}

theorem executed_update_iff (hk : ∀ r st, reqs k ≠ some (r, .executed st))
    (hv : ∀ r st, v ≠ some (r, .executed st)) :
    Function.update reqs k v i = some (req, .executed status) ↔
      reqs i = some (req, .executed status) := by
  rcases eq_or_ne i k with rfl | hi
  · rw [Function.update_self]
    exact ⟨fun h => absurd h (hv _ _), fun h => absurd h (hk _ _)⟩
  · rw [Function.update_of_ne hi]

theorem good_update {sectorSize : Nat} {phase : Phase}
    (h : ∀ {k req phase}, reqs k = some (req, phase) →
      req.Good sectorSize ∧ phase.Carries sectorSize req)
    (hv : ∀ r p, v = some (r, p) → r.Good sectorSize ∧ p.Carries sectorSize r)
    (hr : Function.update reqs k v i = some (req, phase)) :
    req.Good sectorSize ∧ phase.Carries sectorSize req := by
  rcases update_eq_some_iff.1 hr with ⟨-, hr⟩ | ⟨-, hr⟩
  · exact hv _ _ hr
  · exact h hr

theorem IoInv.submit (h : IoInv crc32c ns₀ s) (hk : s.reqs k = none)
    (hg : req.Good s.ns.sectorSize) (hcar : req.Carried s.ns.sectorSize len) :
    IoInv crc32c ns₀ { s with
      token, reqs := Function.update s.reqs k (some (req, .queued len)) } := by
  have hexec : ∀ {i r st}, Function.update s.reqs k (some (req, .queued len)) i =
      some (r, .executed st) ↔ s.reqs i = some (r, .executed st) :=
    executed_update_iff (by simp [hk]) (by simp)
  have hholders : holder ∘ Function.update s.reqs k (some (req, .queued len)) = s.holders := by
    rw [IoState.holders, Function.comp_update, Function.update_eq_self_iff]
    simp [holder, hk]
  refine ⟨h.shape, ?_, good_update h.good ?_, h.stamped, fun hr => h.executed (hexec.1 hr),
    fun j hj hfree => h.entries j hj fun i r st hr => hfree i r st (hexec.2 hr), h.reports⟩
  · rw [IoState.holders, hholders]
    exact h.locks
  · intro r p hr
    cases hr
    exact ⟨hg, hcar⟩

theorem IoInv.send (h : IoInv crc32c ns₀ s) (hk : s.reqs k = some (req, .queued len))
    (hl : (crc32LockLba s.ns req).2 = true) :
    IoInv crc32c ns₀ { s with
      ns := (crc32LockLba s.ns req).1
      reqs := Function.update s.reqs k (some (req, .sent len)) } := by
  obtain ⟨hg, hcar⟩ := h.good hk
  have hshape := shape_lockLba s.ns req
  have hN : (crc32LockLba s.ns req).1.entries = s.ns.entries := Ns.entries_of_shape hshape
  have hS : (crc32LockLba s.ns req).1.sectorSize = s.ns.sectorSize := Ns.sectorSize_of_shape hshape
  have hexec : ∀ {i r st}, Function.update s.reqs k (some (req, .sent len)) i =
      some (r, .executed st) ↔ s.reqs i = some (r, .executed st) :=
    executed_update_iff (by simp [hk]) (by simp)
  refine ⟨hshape.trans h.shape, ?_, ?_, h.stamped, ?_, ?_, h.reports⟩
  · rw [IoState.holders, Function.comp_update]
    exact h.locks.acquire (by simp [IoState.holders, holder, hk]) hg.small hl
  · rw [hS]
    refine good_update h.good fun r p hr => ?_
    cases hr
    exact ⟨hg, hcar⟩
  · intro i r st hr
    rw [hS, hN]
    exact h.executed (hexec.1 hr)
  · intro j hj hfree
    rw [hS, crcOf_lockLba]
    exact h.entries j (hN ▸ hj) fun i r st hr => hfree i r st (hexec.2 hr)

theorem IoInv.exec (h : IoInv crc32c ns₀ s) (hsize : 8 ≤ s.ns.sectorSize)
    (hk : s.reqs k = some (req, .sent len)) (herr : o.error.isError = true) :
    IoInv crc32c ns₀ { s with
      dev := (s.dev.exec s.ns.sectorSize len req o).1
      reqs := Function.update s.reqs k (some ((s.dev.exec s.ns.sectorSize len req o).2.1,
        .executed (s.dev.exec s.ns.sectorSize len req o).2.2)) } := by
  obtain ⟨hg, hcar⟩ := h.good hk
  have hheld : s.holders k = some req := by simp [IoState.holders, holder, hk]
  obtain ⟨buf, hreq, -⟩ := s.dev.exec_request s.ns.sectorSize len req o
  have hcov : ∀ j, (s.dev.exec s.ns.sectorSize len req o).2.1.Covers j ↔ req.Covers j := by
    rw [hreq]
    exact req.withData_covers buf
  refine ⟨h.shape, ?_, good_update h.good ?_, h.stamped.exec hsize hg hcar, ?_, ?_, h.reports⟩
  · rw [IoState.holders, Function.comp_update]
    exact h.locks.replace hheld hg.exec.small hcov
  · intro r p hr
    cases hr
    exact ⟨hg.exec, trivial⟩
  · intro i r st hr
    dsimp only at hr ⊢
    rcases update_eq_some_iff.1 hr with ⟨-, ⟨⟩⟩ | ⟨hi, hr⟩
    · exact Device.executed_exec h.stamped hsize hcar herr
    -- The locks keep the request from the sectors of the others.
    · refine (h.executed hr).frame fun j hj hc => Device.exec_of_not_covers hcar ?_
      exact h.locks.disjoint hi (by simp [IoState.holders, holder, hr]) hheld j hj hc
  · intro j hj hfree
    have hkeep : ¬(req.Mutates ∧ req.Covers j) := fun ⟨hm, hc⟩ =>
      hfree k _ _ (Function.update_self _ _ _) (by rwa [Request.Mutates, hreq, req.withData_cmd])
        ((hcov j).2 hc)
    have hold := h.entries j hj fun i r st hr => hfree i r st (by
      dsimp only
      rw [Function.update_of_ne fun hi => by simp [hi, hk] at hr, hr])
    by_cases hm : req.Mutates
    · have hsame : (s.dev.exec s.ns.sectorSize len req o).1.media j = s.dev.media j ∧
          (s.dev.exec s.ns.sectorSize len req o).1.uncorr j = s.dev.uncorr j :=
        Device.exec_of_not_covers hcar fun hc => hkeep ⟨hm, hc⟩
      rw [Device.Matches, hsame.1, hsame.2]
      exact hold
    · rw [Device.exec_of_not_mutates hm]
      exact hold

theorem IoInv.complete (h : IoInv crc32c ns₀ s) (hsize : s.ns.sectorSize < 2 ^ 31)
    (hen : s.ns.crcTable.map CrcTable.enabled = some true)
    (hk : s.reqs k = some (req, .executed status)) :
    IoInv crc32c ns₀ { s with
      ns := crc32UnlockLba (cmdlogCmdCpl crc32c s.ns req status).1 req
      reqs := Function.update s.reqs k none
      reports := (status, (cmdlogCmdCpl crc32c s.ns req status).2) :: s.reports } := by
  obtain ⟨hg, -⟩ := h.good hk
  have hheld : s.holders k = some req := by simp [IoState.holders, holder, hk]
  have hshape : (cmdlogCmdCpl crc32c s.ns req status).1.shape = s.ns.shape :=
    shape_cmdCpl _ _ _ status
  have hshape' := (shape_unlockLba (cmdlogCmdCpl crc32c s.ns req status).1 req).trans hshape
  have hN := Ns.entries_of_shape hshape'
  have hS := Ns.sectorSize_of_shape hshape'
  have hold : ∀ {i r p}, Function.update s.reqs k none i = some (r, p) →
      s.reqs i = some (r, p) := by
    intro i r p hr
    rcases update_eq_some_iff.1 hr with ⟨-, ⟨⟩⟩ | ⟨-, hr⟩
    exact hr
  -- An entry no other request is changing matches its sector, if this one does not either.
  have hmatch : ∀ j < s.ns.entries, ¬(req.Mutates ∧ req.Covers j) →
      (∀ i r st, i ≠ k → s.reqs i = some (r, .executed st) → r.Mutates → ¬r.Covers j) →
      s.dev.Matches crc32c s.ns.sectorSize j (crcOf (s.ns.entry j)) := by
    intro j hj hreq hfree
    refine h.entries j hj fun i r st hr hm hc => ?_
    rcases eq_or_ne i k with rfl | hi
    · obtain ⟨rfl, -⟩ := Prod.mk.inj (Option.some.inj (hk.symm.trans hr))
      exact hreq ⟨hm, hc⟩
    · exact hfree i r st hi hr hm hc
  refine ⟨hshape'.trans h.shape, ?_, fun hr => ?_, h.stamped, fun hr => ?_,
    fun j hj hfree => ?_, ?_⟩
  · rw [IoState.holders, Function.comp_update]
    exact h.locks.release hheld hshape fun j hj hc =>
      hg.small.cmdCpl_entry h.locks.table hj hc status
  · rw [hS]
    exact h.good (hold hr)
  · rw [hS, hN]
    exact h.executed (hold hr)
  · rw [hN] at hj
    rw [hS, crcOf_unlockLba]
    have hfree' : ∀ i r st, i ≠ k → s.reqs i = some (r, .executed st) → r.Mutates → ¬r.Covers j :=
      fun i r st hi hr => hfree i r st ((Function.update_of_ne hi _ _).trans hr)
    by_cases hm : req.Mutates
    · by_cases hc : req.Covers j
      · exact (h.executed hk).matches_cmdCpl hg hsize h.locks.table hj hc hm
      · rw [hg.small.cmdCpl_entry h.locks.table hj hc status]
        exact hmatch j hj (fun hmc => hc hmc.2) hfree'
    · rw [cmdCpl_of_not_mutates hg.small.io hm]
      exact hmatch j hj (fun hmc => hm hmc.1) hfree'
  · intro p hp
    rcases List.mem_cons.1 hp with rfl | hp
    · refine (h.executed hk).status_cmdCpl hg hsize hen fun hop j hj hc => ?_
      have hm : ¬req.Mutates := Request.not_mutates_of (.inl hop)
      refine hmatch j hj (fun hmc => hm hmc.1) fun i r st hi hr _ hc' => ?_
      exact h.locks.disjoint hi (by simp [IoState.holders, holder, hr]) hheld j hj hc' hc
    · exact h.reports p hp

/-- Every step of the runs considered keeps the invariant. -/
theorem ioStep_inv {s' : IoState} {e : IoEvent} (h : IoInv crc32c ns₀ s)
    (hns : ns₀.numSectors < 2 ^ 62) (hsize : 16 ≤ ns₀.sectorSize) (hsize' : ns₀.sectorSize < 2 ^ 31)
    (hen : ns₀.crcTable.map CrcTable.enabled = some true) (hr : IoRule s e) (ho : LengthRule s e)
    (hstep : ioStep crc32c s e = some s') : IoInv crc32c ns₀ s' := by
  have hS : s.ns.sectorSize = ns₀.sectorSize := Ns.sectorSize_of_shape h.shape
  have hnum : s.ns.numSectors = ns₀.numSectors := congrArg (·.1) h.shape
  have hen' : s.ns.crcTable.map CrcTable.enabled = some true :=
    (congrArg (·.2.2.2) h.shape).trans hen
  cases e with
  | submit k q c =>
    simp only [ioStep] at hstep
    split at hstep
    · cases hstep
    · rename_i hk
      obtain ⟨b, hb, rfl⟩ := Option.map_eq_some_iff.1 hstep
      obtain ⟨hg, hcar⟩ := IoCmd.good_of_build (by omega) (by omega) hr.1 hr.2 ho hb
      exact h.submit hk hg hcar
  | send k =>
    simp only [ioStep] at hstep
    split at hstep
    · rename_i req len hk
      cases hstep
      rcases hl : (crc32LockLba s.ns req).2 with _ | _
      · simpa [lockLba_of_false hl] using h
      · exact h.send hk hl
    · cases hstep
  | exec k o =>
    simp only [ioStep] at hstep
    split at hstep
    · rename_i req len hk
      cases hstep
      exact h.exec (by omega) hk hr
    · cases hstep
  | complete k =>
    simp only [ioStep] at hstep
    split at hstep
    · rename_i req status hk
      cases hstep
      exact h.complete (by omega) hen' hk
    · cases hstep

end Steps

/-! ### The verification raises no false alarm -/

theorem IoInv.init {numSectors entries token : Nat} (hn : numSectors < 2 ^ 64)
    (hs : sectorSize < 2 ^ 32) (he : entries < 2 ^ 62) :
    IoInv crc32c (.formatted numSectors sectorSize entries hn hs he)
      (.formatted (.formatted numSectors sectorSize entries hn hs he) token) where
  shape := rfl
  locks := .init rfl
  good h := nomatch h
  stamped j := lbaMatches_zeros j
  executed h := nomatch h
  entries _ _ _ := Device.matches_zero
  reports _ hp := nomatch hp

/-- From a formatted namespace on, whatever the order in which the requests are
    sent, executed and completed, a completion is reported with the status the
    device gave it, as long as the number of bytes of the reads and writes fits in
    32 bits and the size of a sector in an `int`. -/
theorem no_false_alarm {numSectors entries : Nat} (hn : numSectors < 2 ^ 62)
    (hs : sectorSize < 2 ^ 31) (he : entries < 2 ^ 62) (h16 : 16 ≤ sectorSize) {s : IoState}
    (h : (ioMachine crc32c (.formatted numSectors sectorSize entries (by omega) (by omega)
      he)).Reachable (fun s e => IoRule s e ∧ LengthRule s e) s) :
    ∀ p ∈ s.reports, p.2 = p.1 := by
  have hinv :
      IoInv crc32c (.formatted numSectors sectorSize entries (by omega) (by omega) he) s := by
    refine h.invariant ?_ ?_
    · rintro _ ⟨token, rfl⟩
      exact .init (by omega) (by omega) he
    · intro s e s' hI hr hstep
      exact ioStep_inv hI hn h16 hs rfl hr.1 hr.2 hstep
  exact hinv.reports

/-! ### One command alone -/

/-- The state after a command has been built, sent, executed and completed. -/
def IoState.roundTrip (crc32c : List (BitVec 8) → BitVec 32) (s : IoState) (b : Built)
    (o : Outcome) : IoState :=
  let (dev, req, status) := s.dev.exec (crc32LockLba s.ns b.req).1.sectorSize b.len b.req o
  let (ns, report) := cmdlogCmdCpl crc32c (crc32LockLba s.ns b.req).1 req status
  { s with
    ns := crc32UnlockLba ns req
    token := b.token
    dev
    reports := (status, report) :: s.reports }

theorem reachable_roundTrip {P : IoState → IoEvent → Prop} {s : IoState} {c : IoCmd} {b : Built}
    {q : Nat} (h : (ioMachine crc32c ns).Reachable P s) (hk : s.reqs 0 = none)
    (hb : c.build s.ns q s.token = some b) (hl : (crc32LockLba s.ns b.req).2 = true)
    (hsub : P s (.submit 0 q c))
    (hP : ∀ s', P s' (.send 0) ∧ P s' (.exec 0 o) ∧ P s' (.complete 0)) :
    (ioMachine crc32c ns).Reachable P (s.roundTrip crc32c b o) := by
  have hreqs : Function.update s.reqs 0 none = s.reqs := Function.update_eq_self_iff.2 hk.symm
  refine h.run [.submit 0 q c, .send 0, .exec 0 o, .complete 0] ?_ ?_
  · exact ⟨hsub, fun _ _ => ⟨(hP _).1, fun _ _ => ⟨(hP _).2.1, fun _ _ => ⟨(hP _).2.2, fun _ _ =>
      trivial⟩⟩⟩⟩
  · simp [Machine.run, ioMachine, ioStep, IoState.roundTrip, hk, hb, hl, hreqs]

theorem shape_roundTrip {s : IoState} {b : Built} (h : b.req.Small) :
    (s.roundTrip crc32c b o).ns.shape = s.ns.shape := by
  obtain ⟨buf, hreq, -⟩ :=
    s.dev.exec_request (crc32LockLba s.ns b.req).1.sectorSize b.len b.req o
  have hsmall := hreq ▸ h.withData buf
  exact (shape_unlockLba _ _).trans ((shape_cmdCpl _ _ _ _).trans (shape_lockLba _ _))

/-- A namespace without a table: nothing is locked, and any lock succeeds. -/
theorem lockLba_of_tableSize_eq_zero (h : ns.tableSize = 0) (hq : req.qpairId ≠ 0)
    (hr : isRangeOpc req.cmd.opc = true) : crc32LockLba ns req = (ns, true) := by
  have hcheck : crc32CheckLockBits ns req.cmd.slba (req.cmd.nlbField + 1) = false := by
    rw [Bool.eq_false_iff, ne_eq, checkLockBits_iff]
    rintro ⟨j, ⟨_, hg, _⟩, _⟩
    rw [h] at hg
    exact absurd hg (Nat.not_lt_zero _)
  simp [crc32LockLba, hq, hr, hcheck, crc32SetLockBits, h]

/-- A write of one block is reported as it was executed. -/
theorem no_false_alarm_write :
    let ns := Ns.formatted 8 512 8 (by decide) (by decide) (by decide)
    ∃ s, (ioMachine (fun _ => 0#32) ns).Reachable (fun s e => IoRule s e ∧ LengthRule s e) s ∧
      s.reports.length = 1 ∧ ∀ p ∈ s.reports, p.2 = p.1 := by
  intro ns
  let c : IoCmd := .io 1#8 (fun _ => 0#8) 512 3 1 0 0#32 0#32 0#32
  let o : Outcome := ⟨⟨1#8, 0#3⟩, fun _ => 0#8, fun _ => .kept, fun _ => 0#8⟩
  let rule : IoState → IoEvent → Prop := fun s e => IoRule s e ∧ LengthRule s e
  have hinit : (ioMachine (fun _ => 0#32) ns).Reachable rule (.formatted ns 0) := .init ⟨0, rfl⟩
  have hb : c.build ns 1 0 = some _ := rfl
  have hsub : rule (.formatted ns 0) (.submit 0 1 c) :=
    ⟨⟨by decide, .inl rfl, by decide, by decide, by decide⟩,
      fun _ => (by decide : 1 * 512 < 2 ^ 32)⟩
  have hP : ∀ s', rule s' (.send 0) ∧ rule s' (.exec 0 o) ∧ rule s' (.complete 0) := fun s' =>
    ⟨⟨trivial, trivial⟩, ⟨rfl, trivial⟩, ⟨trivial, trivial⟩⟩
  have h := reachable_roundTrip hinit rfl hb (by decide) hsub hP
  exact ⟨_, h, rfl, no_false_alarm (by decide) (by decide) (by decide) (by decide) h⟩

/-- The last sector of the write of `32769` sectors of 128 KiB at LBA 0 starts at
    the offset `2 ^ 32`, which wraps: its stamp goes to the first sector. -/
theorem bufferFillRawdata_wrap (buf : Bytes) :
    (bufferFillRawdata buf 0 0 32769 131072).readLe 0 8 = 32768 := by
  rw [bufferFillRawdata, forLoop_succ]
  generalize forLoop 32768 _ buf = buf'
  have hptr : u32 (32768 * 131072) = 0 := by decide
  simp only [hptr]
  rw [Bytes.readLe_writeLe_of_disjoint (.inl (by decide)), Bytes.readLe_writeLe_self (by decide)]
  decide

/-- A successful read whose first sector carries the LBA of another is reported as
    a failed verification. -/
theorem report_of_wrong_lba (hio : req.qpairId ≠ 0) (hop : req.cmd.opc = 2#8)
    (hen : ns.crcTable.map CrcTable.enabled = some true) (hn : 0 < req.cmd.lbaCount)
    (hlba : lbaMatches (req.buf.readLe 0 8) (u64 req.cmd.slba) = false) :
    (cmdlogCmdCpl crc32c ns req .success).2 = .verifyFail := by
  have hupd : cmdlogUpdateCrc crc32c ns req = ns := by
    simp [cmdlogUpdateCrc, cmdlogUpdateCrcIo, hop]
  have hverify : cmdlogVerifyCrc crc32c ns req ≠ 0 := by
    rw [ne_eq, cmdlogVerifyCrc_eq_zero_iff_verify hio hop hen, bufferVerifyLba_eq_zero_iff]
    intro h
    have h0 := h.1 0 hn
    rw [Nat.zero_mul, Nat.add_zero, hlba] at h0
    cases h0
  simp [cmdlogCmdCpl, hupd, hverify, Status.success, Status.isError]

/-- The read of LBA 0 after that write is reported as a failed verification. -/
theorem false_alarm :
    let ns := Ns.formatted 65536 131072 0 (by decide) (by decide) (by decide)
    ∃ s, (ioMachine (fun _ => 0#32) ns).Reachable IoRule s ∧
      (Status.success, Status.verifyFail) ∈ s.reports := by
  intro ns
  let write : IoCmd := .io 1#8 (fun _ => 0#8) 4295098368 0 32769 0 0#32 0#32 0#32
  let read : IoCmd := .io 2#8 (fun _ => 0#8) 131072 0 1 0 0#32 0#32 0#32
  let o : Outcome := ⟨⟨1#8, 0#3⟩, fun _ => 0#8, fun _ => .kept, fun _ => 0#8⟩
  have hP : ∀ s', IoRule s' (.send 0) ∧ IoRule s' (.exec 0 o) ∧ IoRule s' (.complete 0) :=
    fun s' => ⟨trivial, rfl, trivial⟩
  have hinit : (ioMachine (fun _ => 0#32) ns).Reachable IoRule (.formatted ns 0) := .init ⟨0, rfl⟩
  let wreq : Request := ⟨⟨1#8, 0#32, 0#32, 32768#32, 0#32, 0#32, 0#32⟩, 1,
    bufferFillRawdata (fun _ => 0#8) 0 0 32769 131072⟩
  let rreq : Request := ⟨⟨2#8, 0#32, 0#32, 0#32, 0#32, 0#32, 0#32⟩, 1, fun _ => 0#8⟩
  -- Of the 4 GiB and 128 KiB, 128 KiB are handed over.
  have hw : write.build ns 1 0 = some ⟨wreq, 131072, 32769⟩ := by
    simp [write, wreq, ns, Ns.formatted, IoCmd.build, nsCmdIo, u32, u64]
  have hwlock : crc32LockLba ns wreq = (ns, true) :=
    lockLba_of_tableSize_eq_zero rfl (show (1 : Nat) ≠ 0 by decide)
      (show isRangeOpc 1#8 = true from rfl)
  have hwsmall : wreq.Small := by
    refine ⟨by simp [wreq], fun _ => ?_, fun h => ?_⟩
    · simp [wreq, NvmeCmd.slba, NvmeCmd.nlbField, u16]
    · simp [wreq, isDsmOpc] at h
  have h₁ := reachable_roundTrip hinit rfl hw (by
    change (crc32LockLba ns wreq).2 = true
    rw [hwlock]) ⟨by decide, .inl rfl, by decide, by decide, by decide⟩ hP
  set s₁ := (IoState.formatted ns 0).roundTrip (fun _ => 0#32) ⟨wreq, 131072, 32769⟩ o with hs₁
  have hshape : s₁.ns.shape = ns.shape := shape_roundTrip hwsmall
  have hS : s₁.ns.sectorSize = 131072 := Ns.sectorSize_of_shape hshape
  have hdev : s₁.dev = ((IoState.formatted ns 0).dev.exec 131072 131072 wreq o).1 := by
    rw [hs₁]
    change ((IoState.formatted ns 0).dev.exec (crc32LockLba ns wreq).1.sectorSize 131072 wreq
      o).1 = _
    rw [hwlock]
    rfl
  have hr : read.build s₁.ns 1 s₁.token = some ⟨rreq, 131072, s₁.token⟩ := by
    simp [read, rreq, IoCmd.build, nsCmdIo, hS, u32]
  have hrlock : crc32LockLba s₁.ns rreq = (s₁.ns, true) :=
    lockLba_of_tableSize_eq_zero (Ns.tableSize_of_shape hshape) (show (1 : Nat) ≠ 0 by decide)
      (show isRangeOpc 2#8 = true from rfl)
  have h₂ := reachable_roundTrip h₁ rfl hr (by rw [hrlock])
    ⟨by decide, .inl rfl, by decide, by decide, by
      rw [show s₁.ns.numSectors = 65536 from congrArg (·.1) hshape]
      decide⟩ hP
  refine ⟨_, h₂, ?_⟩
  have hread : ¬s₁.dev.Unreadable rreq.cmd := by
    rintro ⟨i, hi, hun⟩
    rw [hdev] at hun
    simp [Device.exec, wreq, IoState.formatted] at hun
  have hexec : s₁.dev.exec s₁.ns.sectorSize 131072 rreq o = (s₁.dev, rreq.withData
      (transfer 131072 (s₁.dev.readInto 131072 rreq) rreq.buf), .success) := by
    rw [Device.exec]
    dsimp only
    rw [if_neg (by simp [rreq]), if_pos (by simp [rreq]), if_neg hread, hS]
  -- The first sector of the device is that of the write buffer.
  have hword : (transfer 131072 (s₁.dev.readInto 131072 rreq) rreq.buf).readLe 0 8 = 32768 := by
    rw [← bufferFillRawdata_wrap fun _ => 0#8]
    refine Bytes.readLe_congr fun k hk => ?_
    have hlt : k < 131072 := by omega
    rw [transfer_of_lt (by omega)]
    simp only [Device.readInto, hdev, Device.exec]
    simp [transfer, rreq, wreq, NvmeCmd.slba, NvmeCmd.nlbField, u16, Request.Covers, isRangeOpc,
      Nat.div_eq_of_lt hlt, Nat.mod_eq_of_lt hlt, hlt]
  have hreport : (s₁.roundTrip (fun _ => 0#32) ⟨rreq, 131072, s₁.token⟩ o).reports =
      (.success, .verifyFail) :: s₁.reports := by
    have hbuf : (rreq.withData (transfer 131072 (s₁.dev.readInto 131072 rreq) rreq.buf)).buf =
        transfer 131072 (s₁.dev.readInto 131072 rreq) rreq.buf := Request.withData_buf rfl
    simp only [IoState.roundTrip, hrlock, hexec]
    rw [report_of_wrong_lba]
    · rw [Request.withData, if_neg (by simp [rreq, isDsmOpc])]
      simp [rreq]
    · rw [Request.withData_cmd]
    · exact congrArg (·.2.2.2) hshape
    · rw [Request.withData_cmd]
      simp [rreq, NvmeCmd.lbaCount, NvmeCmd.nlbField, u16]
    · rw [Request.withData_cmd, hbuf, hword]
      simp [rreq, NvmeCmd.slba, u64, lbaMatches]
  rw [hreport]
  exact List.mem_cons_self

end Pynvme
