import Pynvme.Lib.Fair

/-!
# Enabling the controller

`Controller._nvme_init` disables the controller, waits until it is disabled, sets up the admin
queue, enables the controller, waits until it is ready, and then sends the first admin commands.
`Subsystem.shutdown_notify` announces a shutdown, and waits until the controller is ready for it.
Both poll the register CSTS, which the controller changes at any time: `CSTS.RDY` follows
`CC.EN`.

* `enable_safe`: the admin queue is set up, and `CC.EN` set, while the controller is disabled,
  and commands are sent while it is ready, with an admin queue that was set up since the
  controller was disabled.
* `enable_ends`: the initialization comes to an end, and the controller is ready if it answers in
  time.
* `shutdown_shn`: the shutdown that is announced is the one that the script asks for, or, if the
  script asks for both kinds, one that does not exist.
-/

namespace Pynvme

/-- The exceptions of the initialization and of the shutdown: `NvmeEnumerateError`,
    `NvmeShutdownStatusTimeoutError`, `SystemError`, and `TimeoutError` of `waitdone`. -/
inductive NvmeError
  | enumerate (message : String)
  | shutdownStatus (message : String)
  | system
  | timeout

/-- What a script does next, in `Controller._nvme_init` or `Subsystem.shutdown_notify`, or that
    it is in neither, and whether the initialization has been successful. A poll goes on from a
    time. -/
inductive EnablePc
  | idle
  | disable
  | waitDisabled (t : Nat)
  | initAdminq
  | configure
  | enable
  | waitEnabled (t : Nat)
  | identify (retry : Bool)
  | initNs (retry : Bool)
  | setFeatures
  | getFeatures
  | initQueues
  | aer
  | ready
  | notify (abrupt : Bool)
  | writeShn (abrupt : Bool)
  | waitShutdown (t : Nat)
  | failed (e : NvmeError)

/-- The script and the controller: its registers, whether the admin queue was set up since it was
    disabled, and whether it is gone from the bus. -/
structure EnableState where
  pc : EnablePc
  cc : BitVec 32
  csts : BitVec 32
  adminq : Bool
  lost : Bool

namespace EnableState

/-- `CC.EN` -/
def en (s : EnableState) : Bool := s.cc.getLsbD 0

/-- `CSTS.RDY` -/
def rdy (s : EnableState) : Bool := s.csts.getLsbD 0

/-- `Controller.__getitem__` of a register with a value. -/
def getitem (s : EnableState) (value : BitVec 32) : Except NvmeError (BitVec 32) :=
  let value := if s.lost then BitVec.allOnes 32 else value
  if ~~~value = 0#32 then .error .system else .ok value

/-- `Controller.__setitem__` of CC. The controller is disabled if `CC.EN` falls. -/
def setCc (s : EnableState) (cc : BitVec 32) : EnableState :=
  if s.lost then s else { s with cc, adminq := s.adminq && (!s.en || cc.getLsbD 0) }

/-- An iteration of a loop that polls CSTS. -/
def poll (s : EnableState) (done : BitVec 32 → Bool) (next : EnablePc) (elapsed timeout : Nat)
    (e : NvmeError) : EnableState :=
  match s.getitem s.csts with
  | .error e => { s with pc := .failed e }
  | .ok csts =>
    if done csts then { s with pc := next }
    else if timeout < elapsed then { s with pc := .failed e }
    else s

end EnableState

/-- What a step of the script gets: the time in microseconds, the value that the driver returns,
    and whether `waitdone` does. -/
structure HostInput where
  now : Nat
  rc : Int
  completes : Bool

/-- `timeout` in `Controller._nvme_init`, from the register CAP, in microseconds. -/
def enableTimeout (cap : BitVec 64) : Nat := (cap.toNat >>> 24 &&& 0xff) * 500000

/-- `_cTIMEOUT`, in microseconds. -/
def cTimeout : Nat := 10 * 1000000

/-- An admin command, and the wait for it. -/
def waitdoneStep (s : EnableState) (x : HostInput) (next : EnablePc) : EnableState :=
  { s with pc := if x.completes then next else .failed .timeout }

/-- The value that `Subsystem.shutdown_notify` writes to CC, after it has read `cc`. -/
def shnCc (abrupt : Bool) (cc : BitVec 32) : BitVec 32 :=
  if abrupt then cc ||| 0x8000#32 else cc ||| 0x4000#32

/-- A step of the script. -/
def hostStep (cap : BitVec 64) (s : EnableState) (x : HostInput) : Option EnableState :=
  match s.pc with
  -- disable cc.en and wait csts.rdy to 0
  | .disable => some { s.setCc 0#32 with pc := .waitDisabled x.now }
  | .waitDisabled t => some (s.poll (fun csts => csts &&& 1#32 = 0#32) .initAdminq (x.now - t)
      (enableTimeout cap) (.enumerate "csts.rdy timeout after clearing cc.en"))
  -- set admin queue registers
  | .initAdminq =>
    if x.rc ≠ 0 then some { s with pc := .failed (.enumerate "fail to init admin queue") }
    else some { s with pc := .configure, adminq := true }
  -- set register cc
  | .configure => some { s.setCc 0x00460000#32 with pc := .enable }
  -- enable cc.en
  | .enable => some { s.setCc 0x00460001#32 with pc := .waitEnabled x.now }
  -- wait csts.rdy to 1
  | .waitEnabled t => some (s.poll (fun csts => csts &&& 1#32 = 1#32) (.identify false) (x.now - t)
      (enableTimeout cap) (.enumerate "csts.rdy timeout after setting cc.en"))
  -- identify controller and all namespaces
  | .identify retry => some (waitdoneStep s x (.initNs retry))
  | .initNs retry =>
    if 0 ≤ x.rc then some { s with pc := .setFeatures }
    else if retry then some { s with pc := .failed (.enumerate "retry init namespaces failed") }
    else some { s with pc := .identify true }
  -- set/get num of queues
  | .setFeatures => some (waitdoneStep s x .getFeatures)
  | .getFeatures => some (waitdoneStep s x .initQueues)
  | .initQueues => some { s with pc := .aer }
  -- send first aer cmd
  | .aer => some { s with pc := .ready }
  -- rtd3e
  | .notify abrupt => some (waitdoneStep s x (.writeShn abrupt))
  -- cc.shn
  | .writeShn abrupt =>
    match s.getitem s.cc with
    | .error e => some { s with pc := .failed e }
    | .ok cc =>
      some { s.setCc (shnCc abrupt cc) with pc := .waitShutdown x.now }
  -- csts.shst: wait shutdown processing is complete
  | .waitShutdown t => some (s.poll (fun csts => csts &&& 0xc#32 = 0x8#32) .ready (x.now - t)
      cTimeout (.shutdownStatus "csts.shst timeout"))
  | .idle | .ready | .failed _ => none

/-- What happens: the script makes a controller or resets it, announces a shutdown, or goes on,
    and the controller changes CSTS, is reset at the bus, or goes away. -/
inductive EnableEvent
  | init
  | shutdownNotify (abrupt : Bool)
  | host (x : HostInput)
  | csts (v : BitVec 32)
  | busReset
  | lose

/-- The script is not in a call. -/
def EnablePc.AtRest (pc : EnablePc) : Prop := pc = .idle ∨ pc = .ready ∨ ∃ e, pc = .failed e

def enableStep (cap : BitVec 64) (s : EnableState) : EnableEvent → Option EnableState
  | .init => some { s with pc := .disable }
  | .shutdownNotify abrupt => some { s with pc := .notify abrupt }
  | .host x => hostStep cap s x
  | .csts v => some { s with csts := v }
  | .busReset => some ⟨.idle, 0#32, 0#32, false, false⟩
  | .lose => some { s with lost := true }

/-- The script makes one call after the other, and announces a shutdown only to a controller that
    is ready. `CSTS.RDY` follows `CC.EN`. -/
def EnableRule (s : EnableState) : EnableEvent → Prop
  | .init => s.pc.AtRest
  | .shutdownNotify _ => s.pc = .ready
  | .csts v => v.getLsbD 0 = s.rdy ∨ v.getLsbD 0 = s.en
  | .busReset => s.pc.AtRest
  | _ => True

/-- The controller is in any state before the first call. -/
def enableMachine (cap : BitVec 64) : Machine EnableState EnableEvent where
  init s := s.pc = .idle ∧ s.adminq = false
  step := enableStep cap

/-! ### What holds while the script goes on -/

/-- Stages of the initialization: before the script disables the controller, until it enables it,
    and from then on. -/
inductive EnableStage
  | before
  | disabled
  | enabled
  deriving DecidableEq

def EnablePc.stage : EnablePc → EnableStage
  | .idle | .disable | .failed _ => .before
  | .waitDisabled _ | .initAdminq | .configure | .enable => .disabled
  | _ => .enabled

/-- Without writing to CC, the script fails, or goes on in the same stage. -/
def EnablePc.Goes (pc pc' : EnablePc) : Prop :=
  (∃ e, pc' = .failed e) ∨
    (pc'.stage = pc.stage ∧ pc ≠ .disable ∧ ∀ abrupt, pc ≠ .writeShn abrupt)

/-- The script has come to the commands. -/
def EnablePc.Commands : EnablePc → Prop
  | .identify _ | .initNs _ | .setFeatures | .getFeatures | .initQueues | .aer | .ready
  | .notify _ | .writeShn _ | .waitShutdown _ => True
  | _ => False

/-- The registers, as far as the script has come. -/
def EnableState.Enabling (s : EnableState) : Prop :=
  match s.pc with
  | .waitDisabled _ => s.en = false
  | .initAdminq => s.en = false ∧ s.rdy = false
  | .configure | .enable => s.en = false ∧ s.rdy = false ∧ s.adminq = true
  | .waitEnabled _ => s.en = true ∧ s.adminq = true
  | .idle | .disable | .failed _ => True
  | _ => s.en = true ∧ s.rdy = true ∧ s.adminq = true

variable {cap : BitVec 64} {s s' : EnableState} {x : HostInput} {e : EnableEvent} {pc : EnablePc}
  {cc v : BitVec 32}

theorem and_one_eq_zero_iff : v &&& 1#32 = 0#32 ↔ v.getLsbD 0 = false := by
  rw [BitVec.and_one_eq_setWidth_ofBool_getLsbD]
  cases v.getLsbD 0 <;> decide

theorem and_one_eq_one_iff : v &&& 1#32 = 1#32 ↔ v.getLsbD 0 = true := by
  rw [BitVec.and_one_eq_setWidth_ofBool_getLsbD]
  cases v.getLsbD 0 <;> decide

namespace EnableState

/-- A register is read if the controller is there, and its bits are not all set. -/
theorem getitem_cases (v : BitVec 32) :
    ((s.lost = true ∨ v = BitVec.allOnes 32) ∧ s.getitem v = .error .system) ∨
    (s.lost = false ∧ s.getitem v = .ok v) := by
  rw [getitem]
  cases s.lost
  case true => exact .inl ⟨.inl rfl, if_pos BitVec.not_allOnes⟩
  case false =>
    by_cases hv : ~~~v = 0#32
    · refine .inl ⟨.inr ?_, if_pos hv⟩
      rw [← BitVec.not_not (b := v), hv, BitVec.not_zero]
    · exact .inr ⟨rfl, if_neg hv⟩

theorem getitem_eq_ok (hv : s.getitem v = .ok cc) : s.lost = false ∧ cc = v := by
  rcases getitem_cases (s := s) v with ⟨-, hget⟩ | ⟨hlost, hget⟩
  · rw [hget] at hv
    cases hv
  · exact ⟨hlost, Except.ok.inj (hv.symm.trans hget)⟩

/-- A poll changes no register. The script leaves the loop if CSTS has the value that it waits
    for, or the poll fails, or the script stays in the loop. -/
theorem poll_cases (s : EnableState) (done : BitVec 32 → Bool) (pc : EnablePc)
    (elapsed timeout : Nat) (e : NvmeError) :
    (s.lost = false ∧ done s.csts = true ∧
      s.poll done pc elapsed timeout e = { s with pc }) ∨
    ((s.lost = true ∨ s.csts = BitVec.allOnes 32 ∨ (done s.csts = false ∧ timeout < elapsed)) ∧
      ∃ e', s.poll done pc elapsed timeout e = { s with pc := .failed e' }) ∨
    (elapsed ≤ timeout ∧ s.poll done pc elapsed timeout e = s) := by
  rw [poll]
  rcases getitem_cases (s := s) s.csts with ⟨hgone, hget⟩ | ⟨hlost, hget⟩
  · rw [hget]
    exact .inr (.inl ⟨hgone.imp_right .inl, _, rfl⟩)
  · rw [hget]
    dsimp only
    split
    case isTrue hdone => exact .inl ⟨hlost, hdone, rfl⟩
    case isFalse hdone =>
      split
      case isTrue hlate =>
        exact .inr (.inl ⟨.inr (.inr ⟨Bool.eq_false_iff.2 hdone, hlate⟩), _, rfl⟩)
      case isFalse hlate => exact .inr (.inr ⟨Nat.le_of_not_lt hlate, rfl⟩)

theorem setCc_lost : (s.setCc cc).lost = s.lost := by
  rw [setCc]
  split <;> rfl

/-- The values that the script writes to CC, and where it is then. -/
def Writes (s : EnableState) (cc : BitVec 32) (pc : EnablePc) : Prop :=
  (s.pc = .disable ∧ cc = 0#32 ∧ ∃ t, pc = .waitDisabled t) ∨
    (s.pc = .configure ∧ cc = 0x00460000#32 ∧ pc = .enable) ∨
    (s.pc = .enable ∧ cc = 0x00460001#32 ∧ ∃ t, pc = .waitEnabled t) ∨
    ∃ abrupt t, s.pc = .writeShn abrupt ∧ cc = shnCc abrupt s.cc ∧ pc = .waitShutdown t

/-- A step of the script sets up the admin queue, writes CC, or changes nothing but where the
    script is. -/
theorem hostStep_cases (hs : hostStep cap s x = some s') :
    (∃ pc, s.pc.Goes pc ∧ s' = { s with pc }) ∨
    (s.pc = .initAdminq ∧ s' = { s with pc := .configure, adminq := true }) ∨
    ∃ cc pc, s.Writes cc pc ∧ s' = { s.setCc cc with pc } := by
  cases hpc : s.pc with
  | idle | ready | failed e => simp [hostStep, hpc] at hs
  | disable =>
    simp only [hostStep, hpc, Option.some.injEq] at hs
    exact .inr (.inr ⟨_, _, .inl ⟨hpc, rfl, _, rfl⟩, hs.symm⟩)
  | configure =>
    simp only [hostStep, hpc, Option.some.injEq] at hs
    exact .inr (.inr ⟨_, _, .inr (.inl ⟨hpc, rfl, rfl⟩), hs.symm⟩)
  | enable =>
    simp only [hostStep, hpc, Option.some.injEq] at hs
    exact .inr (.inr ⟨_, _, .inr (.inr (.inl ⟨hpc, rfl, _, rfl⟩)), hs.symm⟩)
  | writeShn abrupt =>
    simp only [hostStep, hpc] at hs
    split at hs
    case h_1 => exact .inl ⟨_, .inl ⟨_, rfl⟩, (Option.some.inj hs).symm⟩
    case h_2 cc hcc =>
      obtain ⟨-, rfl⟩ := getitem_eq_ok hcc
      exact .inr (.inr ⟨_, _, .inr (.inr (.inr ⟨abrupt, _, hpc, rfl, rfl⟩)),
        (Option.some.inj hs).symm⟩)
  | initAdminq =>
    simp only [hostStep, hpc] at hs
    split at hs
    · exact .inl ⟨_, .inl ⟨_, rfl⟩, (Option.some.inj hs).symm⟩
    · exact .inr (.inl ⟨rfl, (Option.some.inj hs).symm⟩)
  | initNs retry =>
    simp only [hostStep, hpc] at hs
    split at hs
    · refine .inl ⟨_, ?_, (Option.some.inj hs).symm⟩
      exact .inr ⟨rfl, nofun, nofun⟩
    · split at hs
      · exact .inl ⟨_, .inl ⟨_, rfl⟩, (Option.some.inj hs).symm⟩
      · refine .inl ⟨_, ?_, (Option.some.inj hs).symm⟩
        exact .inr ⟨rfl, nofun, nofun⟩
  | waitDisabled t | waitEnabled t | waitShutdown t =>
    simp only [hostStep, hpc, Option.some.injEq] at hs
    subst hs
    obtain ⟨-, -, heq⟩ | ⟨-, e', heq⟩ | ⟨-, heq⟩ := poll_cases _ _ _ _ _ _
    · refine .inl ⟨_, ?_, heq⟩
      exact .inr ⟨rfl, nofun, nofun⟩
    · exact .inl ⟨_, .inl ⟨_, rfl⟩, heq⟩
    · refine .inl ⟨s.pc, ?_, heq⟩
      exact .inr ⟨congrArg EnablePc.stage hpc, nofun, nofun⟩
  | identify retry | setFeatures | getFeatures | notify abrupt =>
    simp only [hostStep, hpc, Option.some.injEq, waitdoneStep] at hs
    refine .inl ⟨_, ?_, hs.symm⟩
    cases x.completes
    · exact .inl ⟨_, rfl⟩
    · exact .inr ⟨rfl, nofun, nofun⟩
  | initQueues | aer =>
    simp only [hostStep, hpc, Option.some.injEq] at hs
    refine .inl ⟨_, ?_, hs.symm⟩
    exact .inr ⟨rfl, nofun, nofun⟩

/-- The script does not make the controller go away, nor bring it back. -/
theorem hostStep_lost (hs : hostStep cap s x = some s') : s'.lost = s.lost := by
  obtain ⟨pc, -, rfl⟩ | ⟨-, rfl⟩ | ⟨cc, pc, -, rfl⟩ := hostStep_cases hs
  · rfl
  · rfl
  · exact setCc_lost

theorem setCc_eq (hlost : s.lost = false) :
    s.setCc cc = { s with cc, adminq := s.adminq && (!s.en || cc.getLsbD 0) } := by
  rw [setCc, hlost, if_neg Bool.false_ne_true]

theorem enabling_iff (h : s.pc.Commands) :
    s.Enabling ↔ s.en = true ∧ s.rdy = true ∧ s.adminq = true := by
  rw [Enabling]
  cases hpc : s.pc <;> first | rfl | (rw [hpc] at h; exact h.elim)

theorem enabling_failed {e : NvmeError} : ({ s with pc := .failed e } : EnableState).Enabling :=
  trivial

/-- The script goes from a command to the next one. -/
theorem Enabling.next (h : s.Enabling) (hs : s.pc.Commands) (hpc : pc.Commands) :
    ({ s with pc } : EnableState).Enabling :=
  (enabling_iff hpc).2 ((enabling_iff hs).1 h)

theorem Enabling.waitdone (h : s.Enabling) (hs : s.pc.Commands) (hpc : pc.Commands) :
    (waitdoneStep s x pc).Enabling := by
  rw [waitdoneStep]
  cases x.completes
  · exact enabling_failed
  · exact h.next hs hpc

/-- A poll keeps what holds, if that is enough in the next state when the poll is done. -/
theorem Enabling.poll {done : BitVec 32 → Bool} {elapsed timeout : Nat} {e : NvmeError}
    (h : s.Enabling) (hnext : done s.csts = true →
      ({ s with pc } : EnableState).Enabling) : (s.poll done pc elapsed timeout e).Enabling := by
  obtain ⟨-, hdone, heq⟩ | ⟨-, e', heq⟩ | ⟨-, heq⟩ :=
    s.poll_cases done pc elapsed timeout e
  · rw [heq]
    exact hnext hdone
  · rw [heq]
    exact enabling_failed
  · rwa [heq]

theorem getLsbD_shnCc (abrupt : Bool) : (shnCc abrupt cc).getLsbD 0 = cc.getLsbD 0 := by
  rw [shnCc]
  split <;> simp

theorem Enabling.writeShn {abrupt : Bool} (h : s.Enabling) (hlost : s.lost = false)
    (hs : s.pc = .writeShn abrupt) (hpc : pc.Commands) :
    ({ s.setCc (shnCc abrupt s.cc) with pc } : EnableState).Enabling := by
  obtain ⟨hen, hrdy, hadminq⟩ := (enabling_iff (by rw [hs]; trivial)).1 h
  have hbit : (shnCc abrupt s.cc).getLsbD 0 = true := (getLsbD_shnCc abrupt).trans hen
  rw [setCc_eq hlost]
  refine (enabling_iff hpc).2 ⟨hbit, hrdy, ?_⟩
  simp only [hadminq, hbit, Bool.or_true, Bool.and_true]

/-- A step of the script. -/
theorem Enabling.host (h : s.Enabling) (hlost : s.lost = false)
    (hs : hostStep cap s x = some s') : s'.Enabling := by
  have henabling := h
  rw [Enabling] at henabling
  cases hpc : s.pc with
  | disable =>
    simp only [hostStep, hpc, Option.some.injEq] at hs
    subst hs
    have hbit : (0#32).getLsbD 0 = false := by decide
    rw [setCc_eq hlost]
    exact hbit
  | waitDisabled t =>
    simp only [hpc] at henabling
    simp only [hostStep, hpc, Option.some.injEq] at hs
    refine hs ▸ h.poll fun hdone => ⟨henabling, ?_⟩
    exact and_one_eq_zero_iff.1 (of_decide_eq_true hdone)
  | initAdminq =>
    simp only [hpc] at henabling
    simp only [hostStep, hpc] at hs
    split at hs
    · exact Option.some.inj hs ▸ enabling_failed
    · exact Option.some.inj hs ▸ ⟨henabling.1, henabling.2, rfl⟩
  | configure =>
    simp only [hpc] at henabling
    simp only [hostStep, hpc, Option.some.injEq] at hs
    subst hs
    have hbit : (0x00460000#32).getLsbD 0 = false := by decide
    rw [setCc_eq hlost]
    exact ⟨hbit, henabling.2.1, by simp only [henabling.1, henabling.2.2]; rfl⟩
  | enable =>
    simp only [hpc] at henabling
    simp only [hostStep, hpc, Option.some.injEq] at hs
    subst hs
    have hbit : (0x00460001#32).getLsbD 0 = true := by decide
    rw [setCc_eq hlost]
    exact ⟨hbit, by simp only [henabling.2.2, hbit, Bool.or_true, Bool.and_true]⟩
  | waitEnabled t =>
    simp only [hpc] at henabling
    simp only [hostStep, hpc, Option.some.injEq] at hs
    refine hs ▸ h.poll fun hdone => ⟨henabling.1, ?_, henabling.2⟩
    exact and_one_eq_one_iff.1 (of_decide_eq_true hdone)
  | identify retry | setFeatures | getFeatures | notify abrupt =>
    simp only [hostStep, hpc, Option.some.injEq] at hs
    exact hs ▸ h.waitdone (by rw [hpc]; trivial) trivial
  | initNs retry =>
    have hcmd : s.pc.Commands := by rw [hpc]; trivial
    simp only [hostStep, hpc] at hs
    split at hs
    case isTrue => exact Option.some.inj hs ▸ h.next hcmd trivial
    case isFalse =>
      split at hs
      · exact Option.some.inj hs ▸ enabling_failed
      · exact Option.some.inj hs ▸ h.next hcmd trivial
  | initQueues | aer =>
    simp only [hostStep, hpc, Option.some.injEq] at hs
    exact hs ▸ h.next (by rw [hpc]; trivial) trivial
  | writeShn abrupt =>
    simp only [hostStep, hpc] at hs
    split at hs
    case h_1 => exact Option.some.inj hs ▸ enabling_failed
    case h_2 cc hcc =>
      obtain ⟨-, rfl⟩ := getitem_eq_ok hcc
      exact Option.some.inj hs ▸ h.writeShn hlost hpc trivial
  | waitShutdown t =>
    simp only [hostStep, hpc, Option.some.injEq] at hs
    exact hs ▸ h.poll fun _ => h.next (by rw [hpc]; trivial) trivial
  | idle | ready | failed e => simp [hostStep, hpc] at hs

/-- A step of the controller: `CSTS.RDY` stays where it follows `CC.EN`. -/
theorem Enabling.csts (h : s.Enabling) (hv : v.getLsbD 0 = s.rdy ∨ v.getLsbD 0 = s.en) :
    ({ s with csts := v } : EnableState).Enabling := by
  have hrdy : ∀ b, s.en = b → s.rdy = b → ({ s with csts := v } : EnableState).rdy = b :=
    fun b hen hrdy => hv.elim (fun hv => hv.trans hrdy) fun hv => hv.trans hen
  rw [Enabling] at h ⊢
  cases hpc : s.pc with
  | initAdminq => simp only [hpc] at h ⊢; exact ⟨h.1, hrdy _ h.1 h.2⟩
  | configure | enable => simp only [hpc] at h ⊢; exact ⟨h.1, hrdy _ h.1 h.2.1, h.2.2⟩
  | idle | disable | failed e => trivial
  | waitDisabled t | waitEnabled t => simp only [hpc] at h ⊢; exact h
  | _ => simp only [hpc] at h ⊢; exact ⟨h.1, hrdy _ h.1 h.2.1, h.2.2⟩

theorem Enabling.step (h : s.lost = false → s.Enabling) (he : EnableRule s e)
    (hs : enableStep cap s e = some s') : s'.lost = false → s'.Enabling := by
  intro hlost'
  cases e with
  | init => exact Option.some.inj hs ▸ trivial
  | shutdownNotify abrupt =>
    obtain rfl := Option.some.inj hs
    have hready : s.pc = .ready := he
    exact (h hlost').next (by rw [hready]; trivial) trivial
  | host x =>
    have hlost : s.lost = false := (hostStep_lost hs).symm.trans hlost'
    exact (h hlost).host hlost hs
  | csts v =>
    obtain rfl := Option.some.inj hs
    exact (h hlost').csts he
  | busReset => exact Option.some.inj hs ▸ trivial
  | lose =>
    obtain rfl := Option.some.inj hs
    cases hlost'

end EnableState

theorem enabling_of_reachable (h : (enableMachine cap).Reachable EnableRule s)
    (hlost : s.lost = false) : s.Enabling := by
  refine h.invariant (I := fun s => s.lost = false → s.Enabling) ?_ ?_ hlost
  · rintro s ⟨hpc, -⟩ -
    rw [EnableState.Enabling, hpc]
    trivial
  · exact fun s e s' hi he hs => EnableState.Enabling.step hi he hs

/-- Whatever the controller does in between, until it is lost: the admin queue is set up, and CC
    is written once the controller was disabled, while it stays disabled; `CC.EN` is set after the
    admin queue was set up, and commands are sent while the controller is ready. -/
theorem enable_safe (h : (enableMachine cap).Reachable EnableRule s) (hlost : s.lost = false) :
    (s.pc = .initAdminq ∨ s.pc = .configure ∨ s.pc = .enable → s.en = false ∧ s.rdy = false) ∧
    (∀ x s', hostStep cap s x = some s' → s.en = false → s'.en = true →
      s.pc = .enable ∧ s.adminq = true) ∧
    (s.pc.Commands → s.en = true ∧ s.rdy = true ∧ s.adminq = true) := by
  have hinv := enabling_of_reachable h hlost
  refine ⟨?_, fun x s' hs hen hen' => ?_, fun hpc => (EnableState.enabling_iff hpc).1 hinv⟩
  · rintro (hpc | hpc | hpc) <;> rw [EnableState.Enabling, hpc] at hinv
    · exact hinv
    · exact ⟨hinv.1, hinv.2.1⟩
    · exact ⟨hinv.1, hinv.2.1⟩
  · obtain ⟨pc, -, rfl⟩ | ⟨-, rfl⟩ | ⟨cc, pc, hw, rfl⟩ := EnableState.hostStep_cases hs
    · exact absurd (hen.symm.trans hen') Bool.false_ne_true
    · exact absurd (hen.symm.trans hen') Bool.false_ne_true
    · have hcc : cc.getLsbD 0 = true := by rwa [EnableState.setCc_eq hlost] at hen'
      rcases hw with ⟨-, rfl, -⟩ | ⟨-, rfl, -⟩ | ⟨hpc, -⟩ | ⟨abrupt, t, -, rfl, -⟩
      · exact absurd hcc (by decide)
      · exact absurd hcc (by decide)
      · rw [EnableState.Enabling, hpc] at hinv
        exact ⟨hpc, hinv.2.2⟩
      · rw [EnableState.getLsbD_shnCc] at hcc
        exact absurd (hen.symm.trans hcc) Bool.false_ne_true

/-- A controller that was left enabled. -/
def leftEnabled : EnableState := ⟨.idle, 0x00460001#32, 1#32, false, false⟩

/-- The register CAP with a timeout of 7.5 s. -/
def shortCap : BitVec 64 := 0x0f000000#64

/-- A step of the script without an error. -/
def goesOn (now : Nat) : EnableEvent := .host ⟨now, 0, true⟩

/-- The initialization, in which the controller changes `CSTS.RDY` twice. -/
def initEvent : Nat → EnableEvent
  | 0 => .init
  | 2 => .csts 0#32
  | 7 => .csts 1#32
  | n => if n < 15 then goesOn n else .csts 1#32

/-- The states on the way. -/
def initState : Nat → EnableState
  | 0 => leftEnabled
  | n + 1 => (enableStep shortCap (initState n) (initEvent n)).getD (initState n)

theorem initState_add_fifteen (n : Nat) : initState (n + 15) = initState 15 := by
  induction n with
  | zero => rfl
  | succ n ih =>
    have hstep : initState (n + 1 + 15) = { initState (n + 15) with csts := 1#32 } := rfl
    rw [hstep, ih]
    rfl

theorem initState_isRun :
    (enableMachine shortCap).IsRun EnableRule initState initEvent where
  admitted n := by
    match n with
    | 0 => exact .inl rfl
    | 2 | 7 => exact .inr rfl
    | n + 15 => exact .inl (by rw [EnableState.rdy, initState_add_fifteen]; rfl)
    | 1 | 3 | 4 | 5 | 6 | 8 | 9 | 10 | 11 | 12 | 13 | 14 => trivial
  step n := by
    match n with
    | 0 | 1 | 2 | 3 | 4 | 5 | 6 | 7 | 8 | 9 | 10 | 11 | 12 | 13 | 14 => rfl
    | n + 15 => rfl

/-- The controller is ready after the initialization. -/
theorem enable_safe_ready : (initState 15).en = true ∧ (initState 15).rdy = true ∧
    (initState 15).adminq = true := by
  have h := initState_isRun.reachable (.init ⟨rfl, rfl⟩) (fun _ _ => id) 15
  exact (enable_safe h rfl).2.2 trivial

/-! ### The end of the initialization -/

/-- The steps that are left of the initialization, with the second try of the namespaces. -/
def EnablePc.left : EnablePc → Nat
  | .disable => 14
  | .waitDisabled _ => 13
  | .initAdminq => 12
  | .configure => 11
  | .enable => 10
  | .waitEnabled _ => 9
  | .identify false => 8
  | .initNs false => 7
  | .identify true => 6
  | .initNs true => 5
  | .setFeatures => 4
  | .getFeatures => 3
  | .initQueues => 2
  | .aer => 1
  | _ => 0

/-- The controller is there and answers the steps of the script in time, without an error. -/
structure Answers (cap : BitVec 64) (s : EnableState) (x : HostInput) : Prop where
  present : s.lost = false ∧ s.csts ≠ BitVec.allOnes 32
  driver : x.rc = 0 ∧ x.completes = true
  disabled : ∀ t, s.pc = .waitDisabled t → enableTimeout cap < x.now - t → s.rdy = false
  enabled : ∀ t, s.pc = .waitEnabled t → enableTimeout cap < x.now - t → s.rdy = true

/-- The script is in a poll, which is not late yet. -/
def EnableState.Waits (cap : BitVec 64) (s : EnableState) (x : HostInput) : Prop :=
  ∃ t, (s.pc = .waitDisabled t ∨ s.pc = .waitEnabled t) ∧ x.now - t ≤ enableTimeout cap

/-- A state of the script after a step: fewer steps are left, or it fails, for a reason, or it
    polls. -/
def EnableState.Advances (cap : BitVec 64) (s : EnableState) (x : HostInput) (s' : EnableState) :
    Prop :=
  (s'.pc.left < s.pc.left ∧ (0 < s'.pc.left ∨ s'.pc = .ready)) ∨
    (¬Answers cap s x ∧ ∃ e, s'.pc = .failed e) ∨ (s'.pc = s.pc ∧ s.Waits cap x)

namespace EnableState

theorem advances {m n : Nat} (hs : s.pc.left = m) (hs' : s'.pc.left = n)
    (hlt : (0 < n && n < m) = true) : s.Advances cap x s' := by
  rw [Bool.and_eq_true, decide_eq_true_eq, decide_eq_true_eq, ← hs', ← hs] at hlt
  exact .inl ⟨hlt.2, .inl hlt.1⟩

theorem advances_failed {e : NvmeError} (hs' : s'.pc = .failed e) (hans : ¬Answers cap s x) :
    s.Advances cap x s' := .inr (.inl ⟨hans, e, hs'⟩)

theorem advances_waitdone {m n : Nat} (hs : s.pc.left = m) (hpc : pc.left = n)
    (hlt : (0 < n && n < m) = true) : s.Advances cap x (waitdoneStep s x pc) := by
  rw [waitdoneStep]
  cases hx : x.completes
  case false => exact advances_failed rfl fun hans => by simp [hans.driver.2] at hx
  case true => exact advances hs hpc hlt

/-- A poll, if it is too late for it only when the controller does not answer. -/
theorem advances_poll {done : BitVec 32 → Bool} {t m n : Nat} {e : NvmeError}
    (hs : s.pc.left = m) (hpc : pc.left = n) (hlt : (0 < n && n < m) = true)
    (hwait : s.pc = .waitDisabled t ∨ s.pc = .waitEnabled t)
    (hdone : Answers cap s x → enableTimeout cap < x.now - t → done s.csts = true) :
    s.Advances cap x (s.poll done pc (x.now - t) (enableTimeout cap) e) := by
  obtain ⟨-, -, heq⟩ | ⟨hwhy, e', heq⟩ | ⟨hle, heq⟩ :=
    s.poll_cases done pc (x.now - t) (enableTimeout cap) e
  · rw [heq]
    exact advances hs hpc hlt
  · rw [heq]
    refine advances_failed rfl fun hans => ?_
    obtain ⟨hlost, hones⟩ := hans.present
    rcases hwhy with hlost' | hones' | ⟨hnot, hlate⟩
    · exact Bool.false_ne_true (hlost.symm.trans hlost')
    · exact hones hones'
    · exact Bool.false_ne_true (hnot.symm.trans (hdone hans hlate))
  · rw [heq]
    exact .inr (.inr ⟨rfl, t, hwait, hle⟩)

/-- A step of the script in the initialization. -/
theorem hostStep_advances (hleft : 0 < s.pc.left) (hs : hostStep cap s x = some s') :
    s.Advances cap x s' := by
  have hrank : ∀ {pc : EnablePc}, s.pc = pc → s.pc.left = pc.left := congrArg EnablePc.left
  cases hpc : s.pc with
  | disable | configure | enable =>
    simp only [hostStep, hpc, Option.some.injEq] at hs
    exact hs ▸ advances (hrank hpc) rfl rfl
  | waitDisabled t =>
    simp only [hostStep, hpc, Option.some.injEq] at hs
    refine hs ▸ advances_poll (hrank hpc) rfl rfl (.inl hpc) fun hans hlate => ?_
    exact decide_eq_true (and_one_eq_zero_iff.2 (hans.disabled t hpc hlate))
  | initAdminq =>
    simp only [hostStep, hpc] at hs
    split at hs
    case isTrue hrc =>
      obtain rfl := Option.some.inj hs
      exact advances_failed rfl fun hans => hrc hans.driver.1
    case isFalse => exact Option.some.inj hs ▸ advances (hrank hpc) rfl rfl
  | waitEnabled t =>
    simp only [hostStep, hpc, Option.some.injEq] at hs
    refine hs ▸ advances_poll (hrank hpc) rfl rfl (.inr hpc) fun hans hlate => ?_
    exact decide_eq_true (and_one_eq_one_iff.2 (hans.enabled t hpc hlate))
  | identify retry =>
    simp only [hostStep, hpc, Option.some.injEq] at hs
    cases retry <;> exact hs ▸ advances_waitdone (hrank hpc) rfl rfl
  | setFeatures | getFeatures =>
    simp only [hostStep, hpc, Option.some.injEq] at hs
    exact hs ▸ advances_waitdone (hrank hpc) rfl rfl
  | initNs retry =>
    simp only [hostStep, hpc] at hs
    split at hs
    case isTrue =>
      cases retry <;> exact Option.some.inj hs ▸ advances (hrank hpc) rfl rfl
    case isFalse hrc =>
      cases retry
      case false => exact Option.some.inj hs ▸ advances (hrank hpc) rfl rfl
      case true =>
        obtain rfl := Option.some.inj hs
        exact advances_failed rfl fun hans => hrc hans.driver.1.ge
  | initQueues =>
    simp only [hostStep, hpc, Option.some.injEq] at hs
    exact hs ▸ advances (hrank hpc) rfl rfl
  | aer =>
    simp only [hostStep, hpc, Option.some.injEq] at hs
    exact hs ▸ .inl ⟨hleft, .inr rfl⟩
  | idle | ready | notify _ | writeShn _ | waitShutdown _ | failed _ =>
    rw [hpc] at hleft
    exact absurd hleft (Nat.lt_irrefl 0)

end EnableState

/-- In the initialization, the script advances, fails for a reason, or stays where it is, as the
    controller goes on or a poll waits. -/
theorem enableStep_advances (hleft : 0 < s.pc.left) (he : EnableRule s e)
    (hs : enableStep cap s e = some s') :
    (s'.pc.left < s.pc.left ∧ (0 < s'.pc.left ∨ s'.pc = .ready)) ∨
    ((∃ x, e = .host x ∧ ¬Answers cap s x) ∧ ∃ e, s'.pc = .failed e) ∨
    (s'.pc = s.pc ∧ ∀ x, e = .host x → s.Waits cap x) := by
  have hrest : ¬s.pc.AtRest := by
    rintro (hpc | hpc | ⟨e, hpc⟩) <;> rw [hpc] at hleft <;> exact Nat.lt_irrefl 0 hleft
  cases e with
  | init => exact absurd he hrest
  | shutdownNotify abrupt => exact absurd (.inr (.inl he)) hrest
  | host x =>
    obtain hlt | ⟨hans, hfailed⟩ | ⟨hpc, hwaits⟩ := EnableState.hostStep_advances hleft hs
    · exact .inl hlt
    · exact .inr (.inl ⟨⟨x, rfl, hans⟩, hfailed⟩)
    · exact .inr (.inr ⟨hpc, fun x' hx' => EnableEvent.host.inj hx' ▸ hwaits⟩)
  | csts v => exact .inr (.inr ⟨Option.some.inj hs ▸ rfl, nofun⟩)
  | busReset => exact absurd he hrest
  | lose => exact .inr (.inr ⟨Option.some.inj hs ▸ rfl, nofun⟩)

theorem EnableState.waits_congr (h : s'.pc = s.pc) : s'.Waits cap x ↔ s.Waits cap x := by
  rw [Waits, Waits, h]

/-- From some time on, a poll is too late. -/
theorem EnableState.exists_not_waits (cap : BitVec 64) (s : EnableState) :
    ∃ now, ∀ x : HostInput, now ≤ x.now → ¬s.Waits cap x := by
  by_cases hwait : ∃ t, s.pc = .waitDisabled t ∨ s.pc = .waitEnabled t
  · obtain ⟨t, ht⟩ := hwait
    refine ⟨t + enableTimeout cap + 1, fun x hx ⟨t', ht', hle⟩ => ?_⟩
    obtain rfl : t = t' := by
      rcases ht with ht | ht <;> rcases ht' with ht' | ht' <;> rw [ht] at ht' <;> cases ht' <;> rfl
    omega
  · exact ⟨0, fun x _ ⟨t, ht, _⟩ => hwait ⟨t, ht⟩⟩

/-- An initialization comes to an end, if the script, as long as it stays somewhere, goes on there
    and the time passes. It is successful if the controller answers. -/
theorem enable_ends {state : Nat → EnableState} {event : Nat → EnableEvent} {k : Nat}
    (hrun : (enableMachine cap).IsRun EnableRule state event)
    (hpasses : ∀ n now, 0 < (state n).pc.left → ∃ i, n ≤ i ∧
      ((state i).pc = (state n).pc → ∃ x, event i = .host x ∧ now ≤ x.now))
    (hk : 0 < (state k).pc.left) :
    (∃ j, k ≤ j ∧ ((state j).pc = .ready ∨ ∃ e, (state j).pc = .failed e)) ∧
      ((∀ n x, event n = .host x → Answers cap (state n) x) →
        ∃ j, k ≤ j ∧ (state j).pc = .ready) := by
  let failed (j : Nat) : Prop :=
    (¬∀ n x, event n = .host x → Answers cap (state n) x) ∧ ∃ e, (state j).pc = .failed e
  have hend : ∃ j, k ≤ j ∧ ((state j).pc = .ready ∨ failed j) := by
    refine Machine.leadsTo (p := fun n => 0 < (state n).pc.left) (μ := fun n => (state n).pc.left)
      (fun n hn => ?_) hk
    obtain ⟨now, hnow⟩ := (state n).exists_not_waits cap
    obtain ⟨i, hi, hlate⟩ := hpasses n now hn
    have hstep (j : Nat) (hj : (state j).pc = (state n).pc) :
        ((state (j + 1)).pc = (state n).pc ∧ ∀ x, event j = .host x → (state n).Waits cap x) ∨
        (((state (j + 1)).pc = .ready ∨ failed (j + 1)) ∨
          0 < (state (j + 1)).pc.left ∧ (state (j + 1)).pc.left < (state n).pc.left) := by
      rcases enableStep_advances (hj ▸ hn) (hrun.admitted j) (hrun.step j) with
        ⟨hlt, hpos | hready⟩ | ⟨⟨x, hx, hans⟩, hfailed⟩ | ⟨hpc, hwaits⟩
      · exact .inr (.inr ⟨hpos, hj ▸ hlt⟩)
      · exact .inr (.inl (.inl hready))
      · exact .inr (.inl (.inr ⟨fun h => hans (h j x hx), hfailed⟩))
      · exact .inl ⟨hpc.trans hj, fun x hx => (EnableState.waits_congr hj).1 (hwaits x hx)⟩
    refine Machine.ensures (p := fun j => (state j).pc = (state n).pc) hi rfl (fun j _ hj => ?_)
      fun hj => ?_
    · exact (hstep j hj).imp_left And.left
    · obtain ⟨x, hx, hlate⟩ := hlate hj
      exact (hstep i hj).resolve_left fun hpc => hnow x hlate (hpc.2 x hx)
  obtain ⟨j, hj, hend⟩ := hend
  refine ⟨⟨j, hj, hend.imp_right And.right⟩, fun hans => ⟨j, hj, ?_⟩⟩
  exact hend.resolve_right fun hfailed => hfailed.1 hans

theorem initState_answers (n : Nat) (x : HostInput) (h : initEvent n = .host x) :
    Answers shortCap (initState n) x := by
  have hpresent : (initState n).lost = false ∧ (initState n).csts ≠ BitVec.allOnes 32 := by
    match n with
    | 0 | 1 | 2 | 3 | 4 | 5 | 6 | 7 | 8 | 9 | 10 | 11 | 12 | 13 | 14 => decide
    | n + 15 => exact initState_add_fifteen n ▸ by decide
  obtain ⟨hnow, hx⟩ : x.now < 15 ∧ x.rc = 0 ∧ x.completes = true := by
    match n with
    | 0 | 2 | 7 => cases h
    | n + 15 => cases h
    | 1 | 3 | 4 | 5 | 6 | 8 | 9 | 10 | 11 | 12 | 13 | 14 =>
      obtain rfl := EnableEvent.host.inj h
      exact ⟨by decide, rfl, rfl⟩
  -- No step is late.
  have hsoon : ∀ t, ¬enableTimeout shortCap < x.now - t := by
    intro t hlate
    have htimeout : enableTimeout shortCap = 7500000 := by decide
    omega
  exact ⟨hpresent, hx, fun t _ hlate => absurd hlate (hsoon t),
    fun t _ hlate => absurd hlate (hsoon t)⟩

/-- The controller is ready in the end. -/
theorem enable_ends_ready : ∃ j, 1 ≤ j ∧ (initState j).pc = .ready := by
  refine (enable_ends initState_isRun
    (fun n now hn => ⟨n + 15, Nat.le_add_right n 15, fun hpc => ?_⟩) (by decide)).2
    initState_answers
  rw [initState_add_fifteen] at hpc
  exact absurd hn (by rw [← hpc]; decide)

/-! ### The shutdown -/

/-- The kinds of shutdown that the script has announced since it has disabled the controller. -/
structure ShnAsked where
  normal : Bool
  abrupt : Bool

def ShnAsked.next (asked : ShnAsked) : EnablePc → ShnAsked
  | .disable => ⟨false, false⟩
  | .writeShn abrupt =>
    if abrupt then { asked with abrupt := true } else { asked with normal := true }
  | _ => asked

def ShnAsked.record (asked : ShnAsked) (s : EnableState) (e : EnableEvent) (_ : EnableState) :
    ShnAsked :=
  match e with
  | .host _ => asked.next s.pc
  | _ => asked

/-- CC of a controller that is enabled, with the kinds of shutdown. -/
def ShnAsked.toCc (asked : ShnAsked) : BitVec 32 :=
  0x00460001#32 ||| (if asked.normal then 0x4000#32 else 0#32) |||
    (if asked.abrupt then 0x8000#32 else 0#32)

/-- CC has the kinds that the script has announced, if any. -/
def ShnKept (s : EnableState) (asked : ShnAsked) : Prop :=
  match s.pc.stage with
  | .before => True
  | .disabled => asked = ⟨false, false⟩
  | .enabled => s.cc = asked.toCc

variable {asked : ShnAsked}

theorem ShnAsked.next_of_ne (h : pc ≠ .disable) (h' : ∀ abrupt, pc ≠ .writeShn abrupt) :
    asked.next pc = asked := by
  cases pc with
  | disable => exact absurd rfl h
  | writeShn abrupt => exact absurd rfl (h' abrupt)
  | _ => rfl

theorem ShnAsked.toCc_next (abrupt : Bool) :
    (asked.next (.writeShn abrupt)).toCc = shnCc abrupt asked.toCc := by
  obtain ⟨normal, abrupt'⟩ := asked
  cases abrupt <;> cases normal <;> cases abrupt' <;> decide

/-- A step of the script. -/
theorem ShnKept.host (h : ShnKept s asked) (hlost : s.lost = false)
    (hs : hostStep cap s x = some s') : ShnKept s' (asked.next s.pc) := by
  rw [ShnKept] at h
  obtain ⟨pc, ⟨e, rfl⟩ | ⟨hstage, hdisable, hshn⟩, rfl⟩ | ⟨hpc, rfl⟩ | ⟨cc, pc, hw, rfl⟩ :=
    EnableState.hostStep_cases hs
  · trivial
  · rw [ShnAsked.next_of_ne hdisable hshn, ShnKept, hstage]
    exact h
  · rw [hpc] at h ⊢
    exact h
  · rw [EnableState.setCc_eq hlost]
    obtain ⟨hpc, rfl, t, rfl⟩ | ⟨hpc, rfl, rfl⟩ | ⟨hpc, rfl, t, rfl⟩ |
      ⟨abrupt, t, hpc, rfl, rfl⟩ := hw <;> rw [hpc] at h ⊢
    · exact rfl
    · exact h
    · exact h ▸ rfl
    · exact (congrArg (shnCc abrupt) h).trans (ShnAsked.toCc_next abrupt).symm

theorem ShnKept.step (h : s.lost = false → ShnKept s asked) (he : EnableRule s e)
    (hs : enableStep cap s e = some s') : s'.lost = false → ShnKept s' (asked.record s e s') := by
  intro hlost'
  cases e with
  | init => exact Option.some.inj hs ▸ trivial
  | shutdownNotify abrupt =>
    obtain rfl := Option.some.inj hs
    have hkept := h hlost'
    rwa [ShnKept, show s.pc = .ready from he] at hkept
  | host x =>
    have hlost : s.lost = false := (EnableState.hostStep_lost hs).symm.trans hlost'
    exact (h hlost).host hlost hs
  | csts v =>
    obtain rfl := Option.some.inj hs
    exact h hlost'
  | busReset => exact Option.some.inj hs ▸ trivial
  | lose =>
    obtain rfl := Option.some.inj hs
    cases hlost'

/-- The kinds of shutdown that CC announces are those that the script has asked for since the
    controller was disabled, so that both of them are the reserved one. `shutdown_notify` returns
    when the shutdown is complete. -/
theorem shutdown_shn (h : ((enableMachine cap).withHistory ⟨false, false⟩ ShnAsked.record).Reachable
      (fun x e => EnableRule x.1 e) (s, asked)) (hlost : s.lost = false) (hpc : s.pc.Commands) :
    s.cc = asked.toCc ∧
      (s.cc &&& 0xc000#32 = 0xc000#32 ↔ asked.normal = true ∧ asked.abrupt = true) ∧
      ∀ t x s', s.pc = .waitShutdown t → hostStep cap s x = some s' → s'.pc = .ready →
        s.csts &&& 0xc#32 = 0x8#32 := by
  have hkept : ShnKept s asked := by
    refine h.invariant (I := fun x => x.1.lost = false → ShnKept x.1 x.2) ?_ ?_ hlost
    · rintro ⟨s, asked⟩ ⟨⟨hidle, -⟩, -⟩ -
      change s.pc = .idle at hidle
      rw [ShnKept, hidle]
      trivial
    · rintro ⟨s, asked⟩ e ⟨s', asked'⟩ hi he hstep
      obtain ⟨hs, rfl⟩ := Machine.withHistory_step.1 hstep
      exact ShnKept.step hi he hs
  have hcc : s.cc = asked.toCc := by
    rw [ShnKept] at hkept
    cases hs : s.pc <;> rw [hs] at hkept hpc <;> first | exact hpc.elim | exact hkept
  refine ⟨hcc, ?_, fun t x s' hwait hs hready => ?_⟩
  · rw [hcc]
    obtain ⟨normal, abrupt⟩ := asked
    cases normal <;> cases abrupt <;> decide
  · simp only [hostStep, hwait, Option.some.injEq] at hs
    subst hs
    obtain ⟨-, hdone, -⟩ | ⟨-, e', heq⟩ | ⟨-, heq⟩ := s.poll_cases
      (fun csts => csts &&& 0xc#32 = 0x8#32) .ready (x.now - t) cTimeout
      (.shutdownStatus "csts.shst timeout")
    · exact of_decide_eq_true hdone
    · rw [heq] at hready
      cases hready
    · rw [heq, hwait] at hready
      cases hready

/-- A normal shutdown, and then an abrupt one. -/
def shnEvents : List EnableEvent :=
  (List.range 15).map initEvent ++
    [.shutdownNotify false, goesOn 16, goesOn 17, .csts 9#32, goesOn 19,
      .shutdownNotify true, goesOn 21, goesOn 22]

/-- The kind of shutdown that is announced is reserved. -/
theorem shutdown_shn_reserved : ∃ s : EnableState, s.cc &&& 0xc000#32 = 0xc000#32 := by
  have hstart : ((enableMachine shortCap).withHistory ⟨false, false⟩ ShnAsked.record).Reachable
      (fun x e => EnableRule x.1 e) (leftEnabled, ⟨false, false⟩) := .init ⟨⟨rfl, rfl⟩, rfl⟩
  obtain ⟨⟨s, asked⟩, hs, heq⟩ := hstart.exists_run
    (f := fun x => (x.1.pc, x.1.lost, x.2)) (t := (.waitShutdown 22, false, ⟨true, true⟩))
    shnEvents
    (.cons (.inl rfl) rfl (.cons trivial rfl (.cons (.inr rfl) rfl (.cons trivial rfl
      (.cons trivial rfl (.cons trivial rfl (.cons trivial rfl (.cons (.inr rfl) rfl
      (.cons trivial rfl (.cons trivial rfl (.cons trivial rfl (.cons trivial rfl
      (.cons trivial rfl (.cons trivial rfl (.cons trivial rfl (.cons rfl rfl
      (.cons trivial rfl (.cons trivial rfl (.cons (.inl rfl) rfl (.cons trivial rfl
      (.cons rfl rfl (.cons trivial rfl (.cons trivial rfl trivial))))))))))))))))))))))) rfl
  simp only [Prod.mk.injEq] at heq
  obtain ⟨hpc, hlost, rfl⟩ := heq
  obtain ⟨-, hshn, -⟩ := shutdown_shn hs hlost (by rw [hpc]; trivial)
  exact ⟨s, hshn.2 ⟨rfl, rfl⟩⟩

end Pynvme
