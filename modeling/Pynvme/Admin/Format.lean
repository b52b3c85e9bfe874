import Pynvme.Admin.Command

/-!
# Formatting a namespace

A format takes longer than other admin commands. `Namespace.format` therefore raises the
timeout of the controller to 100 seconds, looks up the LBA format with the requested sizes,
sends the command, waits for it and refreshes the namespace, and then sets the timeout back.

What raises in between is not caught: `format_restores_timeout_iff` tells that the timeout
is the original one again exactly if all these steps succeed, or if it was not raised at
all.
-/

namespace Pynvme

/-- The timeout of a controller, in milliseconds, and the one that is registered with the
    driver, in microseconds. -/
structure Controller where
  timeout : Nat
  registered : Nat
  timeout_lt : timeout < 2 ^ 32
  registered_eq : registered = timeout * 1000

/-- What ends a call by an exception: one of Python's own, the alarm of `waitdone`, or
    `NamespaceCreationError`. -/
inductive FormatError
  | py (e : PyError)
  | timeout
  | namespaceCreation
  deriving DecidableEq

/-- What `Namespace.format` finds: the outcome of the identify command for each LBA format,
    with the data in its buffer; what `nvme_send_cmd_raw` returns for the format command, and
    how `waitdone` ends, with its dword 0; and what `ns_refresh` returns. -/
structure FormatEnv where
  nsid : BitVec 32
  identify : Nat → Except FormatError Memory
  send : AdminCmd → Int
  waitdone : AdminCmd → Except FormatError (BitVec 32)
  nsRefresh : Int

namespace Controller

/-- The setter of `Controller.timeout`. -/
def setTimeout (c : Controller) (msec : Int) : Except PyError Unit × Controller :=
  match h : toUnsigned 32 msec with
  | .error e => (.error e, c)
  | .ok timeout => (.ok (), ⟨timeout, timeout * 1000, (toUnsigned_eq_ok.1 h).2, rfl⟩)

/-- `Controller.format`; `None` is not ordered. -/
def format (send : AdminCmd → Int) (lbaf : Option Nat) (ses : Int) (nsid : BitVec 32) :
    Except PyError AdminCmd := do
  pyAssert (ses < 8) "invalid format ses"
  match lbaf with
  | none => .error .type
  | some lbaf => do
    pyAssert (lbaf < 16) "invalid format lbaf"
    sendAdminRaw ⟨send, fun _ => .ok ()⟩ none 0x80 nsid.toNat (ses <<< (9 : Nat) + lbaf) 0 0 0 0 0

end Controller

namespace Namespace

/-- `Namespace.id_data`, of an integer field. -/
def idData (identify : Except FormatError Memory) (byteEnd byteBegin : Int) :
    Except FormatError Nat := do
  let idBuf ← identify
  (bufferData 4096 idBuf (.int byteEnd) (.int byteBegin)).1.mapError .py

/-- `Namespace.get_lba_format`. -/
def getLbaFormat (env : FormatEnv) (dataSize metaSize : Int) : Except FormatError (Option Nat) :=
  loop 16 0
where
  loop : Nat → Nat → Except FormatError (Option Nat)
    | 0, _ => .ok none
    | n + 1, fid => do
      let formatSupport ← idData (env.identify fid) (128 + fid * 4 + 3) (128 + fid * 4)
      if dataSize = (1 <<< (formatSupport >>> 16 &&& 0xff) : Nat) ∧
          metaSize = (formatSupport &&& 0xffff : Nat) then .ok (some fid)
      else loop n (fid + 1)

/-- What `Namespace.format` does while the timeout is raised. -/
def formatOne (env : FormatEnv) (dataSize metaSize ses : Int) :
    Except FormatError (BitVec 32) := do
  -- only format this one namespace
  let lbaf ← getLbaFormat env dataSize metaSize
  let cmd ← (Controller.format env.send lbaf ses env.nsid).mapError .py
  let cdw0 ← env.waitdone cmd
  if 0 ≠ env.nsRefresh then .error .namespaceCreation else .ok cdw0

/-- `Namespace.format`. -/
def format (env : FormatEnv) (dataSize metaSize ses : Int) (c : Controller) :
    Except FormatError (BitVec 32) × Controller :=
  let origTimeout := c.timeout
  match c.setTimeout (max origTimeout (100 * 1000)) with
  | (.error e, c) => (.error (.py e), c)
  | (.ok _, c) =>
    match formatOne env dataSize metaSize ses with
    | .error e => (.error e, c)
    | .ok cdw0 =>
      match c.setTimeout origTimeout with
      | (.error e, c) => (.error (.py e), c)
      | (.ok _, c) => (.ok cdw0, c)

end Namespace

variable {env : FormatEnv} {dataSize metaSize ses : Int} {c : Controller} {lbaf : Option Nat}
  {fid : Nat}

/-! ### The timeout -/

/-- What is registered with the driver follows the timeout. -/
theorem Controller.eq_of_timeout {c c' : Controller} (h : c.timeout = c'.timeout) : c = c' := by
  obtain ⟨timeout, _, _, rfl⟩ := c
  obtain ⟨timeout', _, _, rfl⟩ := c'
  obtain rfl : timeout = timeout' := h
  rfl

/-- A timeout that fits in its 32 bits is set, and registered. -/
theorem Controller.setTimeout_of_ok {msec : Int} {timeout : Nat}
    (h : toUnsigned 32 msec = .ok timeout) :
    c.setTimeout msec = (.ok (), ⟨timeout, timeout * 1000, (toUnsigned_eq_ok.1 h).2, rfl⟩) := by
  rw [Controller.setTimeout]
  split
  · rename_i e he
    cases h.symm.trans he
  · rename_i timeout' hok
    obtain rfl := Except.ok.inj (h.symm.trans hok)
    rfl

/-- A format that succeeds leaves the timeout as it was, any other one the raised timeout. -/
theorem format_timeout (c : Controller) :
    (Namespace.format env dataSize metaSize ses c).2.timeout =
      match Namespace.formatOne env dataSize metaSize ses with
      | .ok _ => c.timeout
      | .error _ => max c.timeout 100000 := by
  have hlt := c.timeout_lt
  have hraise : toUnsigned 32 (max (c.timeout : Int) (100 * 1000)) =
      .ok (max c.timeout 100000) := toUnsigned_eq_ok.2 ⟨by omega, by omega⟩
  have hback : toUnsigned 32 c.timeout = .ok c.timeout := toUnsigned_eq_ok.2 ⟨rfl, hlt⟩
  simp only [Namespace.format, Controller.setTimeout_of_ok hraise]
  cases Namespace.formatOne env dataSize metaSize ses with
  | error e => rfl
  | ok cdw0 => rw [Controller.setTimeout_of_ok hback]

/-! ### The steps in between -/

/-- The data size and the metadata size of an LBA format in the Identify data. -/
def lbaFormat (idBuf : Memory) (fid : Nat) : Nat × Nat :=
  (2 ^ (idBuf.data (128 + fid * 4 + 2)).toNat, idBuf.data.readLe (128 + fid * 4) 2)

/-- The format command. -/
def formatCmd (nsid : BitVec 32) (fid : Nat) (ses : Int) : AdminCmd :=
  { opcode := 0x80, nsid, cdw10 := BitVec.ofNat 32 (fid + 2 ^ 9 * ses.toNat)
    cdw11 := 0, cdw12 := 0, cdw13 := 0, cdw14 := 0, cdw15 := 0, buf := none, size := 0 }

/-- The fields of the word of an LBA format, by its bytes. -/
theorem readLe_lbaf (m : Bytes) (a : Nat) :
    m.readLe a 4 >>> 16 &&& 0xff = (m (a + 2)).toNat ∧ m.readLe a 4 &&& 0xffff = m.readLe a 2 := by
  have hsize : m.readLe a 4 >>> 16 &&& (2 ^ 8 - 1) = _ := Word.shiftRight_and _ 16 8
  have hmeta : m.readLe a 4 >>> 0 &&& (2 ^ 16 - 1) = _ := Word.shiftRight_and _ 0 16
  have h0 := (m a).isLt
  have h1 := (m (a + 1)).isLt
  have h2 := (m (a + 2)).isLt
  have h3 := (m (a + 3)).isLt
  simp only [Word.field, Bytes.readLe, Nat.add_zero] at hsize hmeta ⊢
  constructor
  · refine hsize.trans ?_
    omega
  · refine hmeta.trans ?_
    omega

/-- The word of an LBA format is read if the identify command succeeds. -/
theorem idData_eq_ok {identify : Except FormatError Memory} {formatSupport : Nat}
    (h : fid < 16) :
    Namespace.idData identify (128 + fid * 4 + 3) (128 + fid * 4) = .ok formatSupport ↔
      ∃ idBuf, identify = .ok idBuf ∧ idBuf.data.readLe (128 + fid * 4) 4 = formatSupport := by
  rw [Namespace.idData, Except.bind_eq_ok]
  refine exists_congr fun idBuf => and_congr_right fun _ => ?_
  have hdata : (bufferData 4096 idBuf (.int (128 + fid * 4 + 3)) (.int (128 + fid * 4))).1 =
      .ok (idBuf.data.readLe (128 + fid * 4) 4) :=
    (bufferData_eq (by omega) (by omega) (by omega) idBuf).1
  rw [hdata, Except.mapError_eq_ok, Except.ok.injEq]

/-- The LBA format `fid` is identified, and has the sizes. -/
def FormatEnv.Has (env : FormatEnv) (dataSize metaSize : Int) (fid : Nat) : Prop :=
  ∃ idBuf, env.identify fid = .ok idBuf ∧ dataSize = (lbaFormat idBuf fid).1 ∧
    metaSize = (lbaFormat idBuf fid).2

/-- The LBA format `fid` is identified, and does not have the sizes. -/
def FormatEnv.Lacks (env : FormatEnv) (dataSize metaSize : Int) (fid : Nat) : Prop :=
  ∃ idBuf, env.identify fid = .ok idBuf ∧
    ¬(dataSize = (lbaFormat idBuf fid).1 ∧ metaSize = (lbaFormat idBuf fid).2)

/-- An iteration of the loop. -/
theorem getLbaFormat_loop_succ {n : Nat} {r : Option Nat} (h : fid < 16) :
    Namespace.getLbaFormat.loop env dataSize metaSize (n + 1) fid = .ok r ↔
      ∃ idBuf, env.identify fid = .ok idBuf ∧
        (if dataSize = (lbaFormat idBuf fid).1 ∧ metaSize = (lbaFormat idBuf fid).2 then
          .ok (some fid)
        else Namespace.getLbaFormat.loop env dataSize metaSize n (fid + 1)) = .ok r := by
  simp only [Namespace.getLbaFormat.loop, Except.bind_eq_ok, idData_eq_ok h]
  constructor
  · rintro ⟨_, ⟨idBuf, hid, rfl⟩, hrest⟩
    rw [(readLe_lbaf _ _).1, (readLe_lbaf _ _).2, Nat.one_shiftLeft] at hrest
    exact ⟨idBuf, hid, hrest⟩
  · rintro ⟨idBuf, hid, hrest⟩
    refine ⟨_, ⟨idBuf, hid, rfl⟩, ?_⟩
    rw [(readLe_lbaf _ _).1, (readLe_lbaf _ _).2, Nat.one_shiftLeft]
    exact hrest

/-- The loop returns the first LBA format with the sizes. -/
theorem getLbaFormat_loop_eq_some {n start : Nat} (h : start + n = 16) :
    Namespace.getLbaFormat.loop env dataSize metaSize n start = .ok (some fid) ↔
      start ≤ fid ∧ fid < 16 ∧ env.Has dataSize metaSize fid ∧
        ∀ i, start ≤ i → i < fid → env.Lacks dataSize metaSize i := by
  induction n generalizing start with
  | zero =>
    rw [Namespace.getLbaFormat.loop]
    constructor
    · intro hnone
      cases hnone
    · rintro ⟨hle, hlt, -⟩
      omega
  | succ n ih =>
    rw [getLbaFormat_loop_succ (by omega)]
    constructor
    · rintro ⟨idBuf, hid, hrest⟩
      split_ifs at hrest with hsizes
      · obtain rfl := Option.some.inj (Except.ok.inj hrest)
        exact ⟨Nat.le_refl _, by omega, ⟨idBuf, hid, hsizes⟩, fun i hi hlt => by omega⟩
      · obtain ⟨hle, hlt, hhas, hbefore⟩ := (ih (by omega)).1 hrest
        refine ⟨by omega, hlt, hhas, fun i hi hi' => ?_⟩
        rcases Nat.eq_or_lt_of_le hi with rfl | hgt
        · exact ⟨idBuf, hid, hsizes⟩
        · exact hbefore i hgt hi'
    · rintro ⟨hle, hlt, hhas, hbefore⟩
      rcases Nat.eq_or_lt_of_le hle with rfl | hgt
      · obtain ⟨idBuf, hid, hsizes⟩ := hhas
        exact ⟨idBuf, hid, if_pos hsizes⟩
      · obtain ⟨idBuf, hid, hsizes⟩ := hbefore start (Nat.le_refl _) hgt
        refine ⟨idBuf, hid, (if_neg hsizes).trans ?_⟩
        exact (ih (by omega)).2 ⟨hgt, hlt, hhas, fun i hi => hbefore i (by omega)⟩

theorem dword_eq {d d' : BitVec 32} (h : (d.toNat : Int) = d'.toNat) : d = d' :=
  BitVec.eq_of_toNat_eq (Nat.cast_inj.1 h)

/-- The command is sent if there is a format, and the field SES fits in its three bits. -/
theorem controllerFormat_eq_ok {send : AdminCmd → Int} {nsid : BitVec 32} {cmd : AdminCmd} :
    Controller.format send lbaf ses nsid = .ok cmd ↔
      ∃ fid, lbaf = some fid ∧ fid < 16 ∧ 0 ≤ ses ∧ ses < 8 ∧ send cmd = 0 ∧
        formatCmd nsid fid ses = cmd := by
  simp only [Controller.format, Except.bind_eq_ok, pyAssert_eq_ok, exists_const]
  cases lbaf with
  | none => simp
  | some fid =>
    simp only [Except.bind_eq_ok, pyAssert_eq_ok, exists_const, sendAdminRaw_eq_ok_iff,
      Int.shiftLeft_eq, Option.some.injEq, exists_eq_left']
    constructor
    · rintro ⟨hses, hfid, ⟨hop, hnsid, h10, h11, h12, h13, h14, h15, hbuf, hsize⟩, hsend⟩
      have hpos : 0 ≤ ses := by omega
      refine ⟨hfid, hpos, hses, hsend, ?_⟩
      obtain ⟨opcode, nsid', cdw10, cdw11, cdw12, cdw13, cdw14, cdw15, buf, size⟩ := cmd
      have hcdw10 : BitVec.ofNat 32 (fid + 2 ^ 9 * ses.toNat) = cdw10 := by
        apply dword_eq
        dsimp only at h10
        rw [BitVec.toNat_ofNat]
        omega
      obtain rfl : 0x80 = opcode := dword_eq hop
      obtain rfl : nsid = nsid' := dword_eq hnsid
      obtain rfl : 0 = cdw11 := dword_eq h11
      obtain rfl : 0 = cdw12 := dword_eq h12
      obtain rfl : 0 = cdw13 := dword_eq h13
      obtain rfl : 0 = cdw14 := dword_eq h14
      obtain rfl : 0 = cdw15 := dword_eq h15
      rw [formatCmd, hcdw10]
      exact congrArg₂ _ hbuf.symm hsize.symm
    · rintro ⟨hfid, hpos, hses, hsend, rfl⟩
      refine ⟨hses, hfid, ⟨rfl, rfl, ?_, rfl, rfl, rfl, rfl, rfl, rfl, rfl⟩, hsend⟩
      simp only [formatCmd, BitVec.toNat_ofNat]
      omega

/-- Each step of a format succeeds, with the LBA format `fid`. -/
structure FormatEnv.Formats (env : FormatEnv) (dataSize metaSize ses : Int) (fid : Nat) : Prop where
  fid_lt : fid < 16
  has : env.Has dataSize metaSize fid
  first : ∀ i < fid, env.Lacks dataSize metaSize i
  ses_lt : 0 ≤ ses ∧ ses < 8
  send : env.send (formatCmd env.nsid fid ses) = 0
  waitdone : ∃ cdw0, env.waitdone (formatCmd env.nsid fid ses) = .ok cdw0
  refresh : env.nsRefresh = 0

theorem formatOne_succeeds_iff :
    (∃ cdw0, Namespace.formatOne env dataSize metaSize ses = .ok cdw0) ↔
      ∃ fid, env.Formats dataSize metaSize ses fid := by
  simp only [Namespace.formatOne, Except.bind_eq_ok, Except.mapError_eq_ok,
    controllerFormat_eq_ok, Namespace.getLbaFormat]
  constructor
  · rintro ⟨cdw0, _, hfind, cmd, ⟨fid, rfl, -, hpos, hses, hsend, rfl⟩, cdw0', hwait, hrefresh⟩
    obtain ⟨-, hlt, hhas, hbefore⟩ := (getLbaFormat_loop_eq_some rfl).1 hfind
    refine ⟨fid, hlt, hhas, fun i => hbefore i (Nat.zero_le i), ⟨hpos, hses⟩, hsend,
      ⟨cdw0', hwait⟩, ?_⟩
    by_contra hne
    rw [if_pos (Ne.symm hne)] at hrefresh
    cases hrefresh
  · rintro ⟨fid, hlt, hhas, hfirst, ⟨hpos, hses⟩, hsend, ⟨cdw0, hwait⟩, hrefresh⟩
    refine ⟨cdw0, some fid, ?_, _, ⟨fid, rfl, hlt, hpos, hses, hsend, rfl⟩, cdw0, hwait, ?_⟩
    · exact (getLbaFormat_loop_eq_some rfl).2 ⟨Nat.zero_le fid, hlt, hhas, fun i _ => hfirst i⟩
    · rw [hrefresh, if_neg (not_not_intro rfl)]

/-- When `Namespace.format` returns or raises, the timeout is the original one if and only if
    that was at least 100 seconds, or all steps of the format have succeeded. -/
theorem format_restores_timeout_iff :
    (Namespace.format env dataSize metaSize ses c).2.timeout = c.timeout ↔
      100000 ≤ c.timeout ∨ ∃ fid, env.Formats dataSize metaSize ses fid := by
  rw [format_timeout, ← formatOne_succeeds_iff]
  cases Namespace.formatOne env dataSize metaSize ses with
  | ok cdw0 => simp
  | error e => simp

/-- A drive all of whose LBA formats have 512 bytes of data, and no metadata. -/
def plainDrive : FormatEnv where
  nsid := 1
  identify _ := .ok (.fresh fun i => if i % 4 = 2 then 9 else 0)
  send _ := 0
  waitdone _ := .ok 0
  nsRefresh := 0

/-- The controller after it is created: its timeout is 10 seconds. -/
def newController : Controller := ⟨10000, 10000000, by decide, rfl⟩

/-- There is no format with 8 bytes of metadata: `None < 16` raises, and the timeout stays at
    100 seconds. -/
theorem format_keeps_raised_timeout :
    (Namespace.format plainDrive 512 8 0 newController).1 = .error (.py .type) ∧
    (Namespace.format plainDrive 512 8 0 newController).2.timeout = 100000 := by
  constructor <;> rfl

end Pynvme
