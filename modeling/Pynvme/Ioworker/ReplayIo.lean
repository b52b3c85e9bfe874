import Pynvme.Crc.Command
import Pynvme.Ioworker.EmptyRegion
import Pynvme.Ioworker.Replay
import Pynvme.Ioworker.Report

/-!
# The IOs of a sequence

What a replayed entry asks for replaces the IO that was drawn; all that is done to it
is to cut off what is behind the region. The number of blocks may then be 0, more than
a command can carry, or more than the buffer of the context holds, and `ns_cmd_io` does
not notice: the length it compares with the number of blocks was computed from it.

No entry is turned down beforehand. `ioworker_replay_wellFormed`: once anything is sent,
the reads and writes of a replay are well formed, and those that cannot be have kept it
from being sent, if and only if all reads and writes of the sequence fit (`IoSeq.Fits`);
and each read or write is well formed if and only if its entry fits.
-/

namespace Pynvme

open Word

variable {env : Env} {args : Args} {w w' : Worker} {d : Draws} {p : Prepared} {k : Nat}
  {now now' : Timeval} {table : Nat → BitVec 32} {rc : Int} {ev : IowEvent} {status : Status}
  {seq : List IoSeq} {e : IoSeq} {io : Io}

/-! ### Well-formed IOs -/

/-- A read or a write. -/
def Io.IsData (io : Io) : Prop := io.opcode = 1 ∨ io.opcode = 2

/-- What `ns_cmd_io` makes of an IO whose buffer has the contents `buf`. -/
def Io.submit (ns : Ns) (io : Io) (buf : Bytes) (token : Nat) : Option Submission :=
  nsCmdIo (BitVec.ofNat 8 io.opcode) ns.sectorSize buf io.len io.lba io.count 0 0#32 0#32 0#32 token

/-- The command carries the number of blocks, less one, in the low half of dword 12 and
    nothing above it; and the IO ends in the region, and in the buffer of the context. -/
structure Io.WellFormed (ns : Ns) (args : Args) (io : Io) : Prop where
  field : ∀ buf token, ∃ s, io.submit ns buf token = some s ∧ s.cmd.cdw12.toNat < 2 ^ 16 ∧
    s.cmd.cdw12.toNat + 1 = io.count
  tail : io.lba + io.count ≤ args.regionEnd
  buffer : io.count * ns.sectorSize ≤ args.lbaSizeMax * ns.sectorSize

/-- The number of the blocks of an entry in the region. -/
def IoSeq.blocks (e : IoSeq) (env : Env) (args : Args) : Nat :=
  min e.nlba (min env.ns.numSectors args.regionEnd - e.slba)

/-- The entry has a block in the region, and no more of them than a command carries and
    the largest transfer moves. -/
structure IoSeq.Fits (e : IoSeq) (env : Env) (args : Args) : Prop where
  slba : e.slba < min env.ns.numSectors args.regionEnd
  nlba : 1 ≤ e.nlba
  field : e.blocks env args ≤ 2 ^ 16
  transfer : e.blocks env args * env.ns.sectorSize ≤
    env.maxXferSize / env.ns.sectorSize * env.ns.sectorSize

/-- An entry that is a read or a write: the opcode has 8 bits. -/
def IoSeq.IsData (e : IoSeq) : Prop := e.op % 2 ^ 8 = 1 ∨ e.op % 2 ^ 8 = 2

/-- The IO that is made of an entry is well formed. -/
def IoSeq.Possible (e : IoSeq) (ns : Ns) (args : Args) : Prop :=
  ∀ ctx, ∃ io, ioworkerSendOneIo ns args ctx { e with op := e.op % 2 ^ 8 } = .ok io ∧
    io.WellFormed ns args

/-- The replay of `seq` so far: the reads and writes that were passed on are well formed,
    and an entry for which this is impossible was rejected before anything was sent. -/
structure ReplaysWell (env : Env) (seq : List IoSeq) (w : Worker) : Prop where
  wellFormed : ∀ x ∈ w.issued, x.1.io.IsData → x.1.io.WellFormed env.ns w.args
  rejected : w.issued ≠ [] → ∀ e ∈ seq, e.IsData → e.Possible env.ns w.args

/-- What the conversion of an entry gives. -/
structure IoSeq.Converted (e : IoSeq) : Prop where
  slba : e.slba < 2 ^ 64
  nlba : e.nlba < 2 ^ 32

theorem convertSequence_converted {q : WorkerParams} {s : Option (List IoSeq)}
    (h : convertSequence q = .ok s) : ∀ l ∈ s, ∀ e ∈ l, IoSeq.Converted e := by
  rw [convertSequence] at h
  split at h
  · cases h
    simp
  · cases h
    simp
  · simp only [Except.bind_eq_ok, Except.pure_eq_ok] at h
    obtain ⟨-, -, -, -, l, hl, rfl⟩ := h
    rintro _ ⟨⟩ e he
    obtain ⟨line, -, hline⟩ := Except.exists_of_mapM hl he
    simp only [convertLine, Except.bind_eq_ok, toUnsigned_eq_ok, Except.pure_eq_ok] at hline
    obtain ⟨_, ⟨-, hslba⟩, _, -, _, -, _, ⟨-, hnlba⟩, rfl⟩ := hline
    exact ⟨hslba, hnlba⟩

theorem Args.Admitted.sequence_converted (h : args.Admitted) :
    ∀ l ∈ args.ioSequence, ∀ e ∈ l, IoSeq.Converted e := by
  obtain ⟨_, _, _, _, hargs⟩ := h
  exact convertSequence_converted (ioworkerArgs_converted hargs).sequence

/-! ### The command -/

/-- Dword 12 of a read or a write is the number of blocks, less one, in 32 bits. -/
theorem Io.submit_eq {ns : Ns} (hop : io.IsData) (hlen : io.len = u32 (io.count * ns.sectorSize))
    (buf : Bytes) (token : Nat) :
    ∃ s, io.submit ns buf token = some s ∧
      s.cmd.cdw12 = BitVec.ofNat 32 0 ||| BitVec.ofNat 32 (io.count + 2 ^ 32 - 1) := by
  have hguard : ¬((0 &&& 0xffff) ≠ 0 ∨ io.len < u32 (io.count * ns.sectorSize)) := by
    rw [hlen]
    exact fun h => h.elim (fun h => h rfl) (Nat.lt_irrefl _)
  rw [Io.submit, nsCmdIo, if_neg hguard]
  rcases hop with hop | hop
  · rw [hop]
    exact ⟨_, rfl, rfl⟩
  · rw [hop]
    exact ⟨_, rfl, rfl⟩

theorem toNat_cdw12 (n : Nat) :
    (BitVec.ofNat 32 0 ||| BitVec.ofNat 32 n).toNat = n % 2 ^ 32 := by
  rw [BitVec.toNat_or, BitVec.toNat_ofNat, BitVec.toNat_ofNat, Nat.zero_mod, Nat.zero_or]

theorem Io.field_iff (ns : Ns) (hop : io.IsData)
    (hlen : io.len = u32 (io.count * ns.sectorSize)) (hcount : io.count < 2 ^ 32) :
    (∀ buf token, ∃ s, io.submit ns buf token = some s ∧ s.cmd.cdw12.toNat < 2 ^ 16 ∧
      s.cmd.cdw12.toNat + 1 = io.count) ↔ 1 ≤ io.count ∧ io.count ≤ 2 ^ 16 := by
  constructor
  · intro h
    obtain ⟨s, -, hlt, heq⟩ := h (fun _ => 0#8) 0
    omega
  · intro hc buf token
    obtain ⟨s, hs, h12⟩ := io.submit_eq hop hlen buf token
    have hfield : s.cmd.cdw12.toNat = (io.count + 2 ^ 32 - 1) % 2 ^ 32 := by rw [h12, toNat_cdw12]
    exact ⟨s, hs, by omega, by omega⟩

/-- What is passed on for an entry: the assertion on its start holds. -/
theorem ioworkerSendOneIo_blocks {ns : Ns} {ctx : IoCtx} (hE : args.regionEnd < 2 ^ 64)
    (hnlba : e.nlba < 2 ^ 32) (h : ioworkerSendOneIo ns args ctx e = .ok io) :
    e.slba ≤ args.regionEnd ∧ io.opcode = e.op ∧ io.lba = e.slba ∧
      io.count = min e.nlba (args.regionEnd - e.slba) ∧
      io.len = u32 (io.count * ns.sectorSize) := by
  simp only [ioworkerSendOneIo] at h
  split at h
  case isFalse => cases h
  rename_i hle
  obtain rfl := Except.ok.inj h
  have hu : u64 (args.regionEnd + 2 ^ 64 - e.slba) = args.regionEnd - e.slba := by
    rw [u64]
    omega
  refine ⟨hle, rfl, rfl, ?_, rfl⟩
  dsimp only
  rw [hu, u32_of_lt (by omega)]

/-- The settings of a worker that replays. -/
theorem Worker.replay_settings (h : w.settings = ioworkerSettings env args)
    (hseq : args.ioSequence = some seq) :
    w.env = env ∧ w.args.regionEnd = min env.ns.numSectors args.regionEnd ∧
      w.args.lbaSizeMax = env.maxXferSize / env.ns.sectorSize ∧ w.g.ioSequence = some seq := by
  have hc := Configured.of_settings h
  refine ⟨hc.env_eq, hc.regionEnd, ?_, hc.ioSequence.trans hseq⟩
  have hsome : args.ioSequence.isSome = true := by
    rw [hseq]
    rfl
  rw [ioworkerSettings, ioworkerSizeArgs, if_pos hsome] at h
  exact (congrArg (fun s => s.args.lbaSizeMax) h :)

/-- The IO of an entry is well formed if and only if the entry fits. -/
theorem wellFormed_iff_fits {ctx : IoCtx} {ns : Ns} (hns : ns.sectorSize = env.ns.sectorSize)
    (hset : w.settings = ioworkerSettings env args) (hseq : args.ioSequence = some seq)
    (he : e.Converted) (hop : io.IsData)
    (hio : ioworkerSendOneIo ns w.args ctx { e with op := e.op % 2 ^ 8 } = .ok io) :
    io.WellFormed env.ns w.args ↔ e.Fits env args := by
  obtain ⟨-, hE, hmax, -⟩ := Worker.replay_settings hset hseq
  have hlt : w.args.regionEnd < 2 ^ 64 := by
    have := env.ns.numSectors_lt
    omega
  obtain ⟨hle, -, hlba, hcount, hlen⟩ := ioworkerSendOneIo_blocks
    (e := { e with op := e.op % 2 ^ 8 }) hlt he.nlba hio
  dsimp only at hle hlba hcount
  rw [hE] at hle hcount
  have hblocks : io.count = e.blocks env args := hcount
  have hnlba := he.nlba
  have hfield := Io.field_iff env.ns hop (hns ▸ hlen) (by omega)
  constructor
  · rintro ⟨hf, -, hbuffer⟩
    have hpos := (hfield.1 hf).1
    exact ⟨by omega, by omega, hblocks ▸ (hfield.1 hf).2, by rw [← hblocks, ← hmax]; exact hbuffer⟩
  · rintro ⟨hslba, hnlba, hf, htransfer⟩
    refine ⟨hfield.2 ⟨by omega, hblocks ▸ hf⟩, by omega, ?_⟩
    rw [hblocks, hmax]
    exact htransfer

theorem IoSeq.possible_iff_fits (hset : w.settings = ioworkerSettings env args)
    (hseq : args.ioSequence = some seq) (he : e.Converted) (hop : e.IsData) :
    e.Possible env.ns w.args ↔ e.Fits env args := by
  constructor
  · intro hpossible
    obtain ⟨io, hio, hwell⟩ := hpossible (w.ioCtx 0)
    have hop' : io.IsData := by rwa [Io.IsData, ioworkerSendOneIo_opcode hio]
    exact (wellFormed_iff_fits rfl hset hseq he hop' hio).1 hwell
  · intro hfit ctx
    obtain ⟨-, hE, -⟩ := Worker.replay_settings hset hseq
    have hle : e.slba ≤ w.args.regionEnd := hE ▸ hfit.slba.le
    have hmade : ∃ io, ioworkerSendOneIo env.ns w.args ctx { e with op := e.op % 2 ^ 8 } = .ok io :=
      ⟨_, if_pos hle⟩
    obtain ⟨io, hio⟩ := hmade
    have hop' : io.IsData := by rwa [Io.IsData, ioworkerSendOneIo_opcode hio]
    exact ⟨io, hio, (wellFormed_iff_fits rfl hset hseq he hop' hio).2 hfit⟩

/-! ### The runs -/

/-- What holds of the IOs of a sequence: the entries that are queued are in it, and so
    are those that were passed on, well formed if and only if they fit. -/
structure ReplaysFrom (env : Env) (args : Args) (seq : List IoSeq) (w : Worker) : Prop where
  accounted : Accounted w
  settings : w.settings = ioworkerSettings env args
  queued : ∀ i ∈ w.pendingIndices, i < seq.length
  issued : ∀ x ∈ w.issued, ∃ e, seq[x.1.io.index]? = some e ∧ x.1.io.opcode = e.op % 2 ^ 8 ∧
    (x.1.io.IsData → (x.1.io.WellFormed env.ns w.args ↔ e.Fits env args))

theorem Worker.wellFormed_congr {ns : Ns} (h : w'.settings = w.settings) :
    io.WellFormed ns w'.args ↔ io.WellFormed ns w.args := by
  have hE : w'.args.regionEnd = w.args.regionEnd := (congrArg (fun s => s.args.regionEnd) h :)
  have hmax : w'.args.lbaSizeMax = w.args.lbaSizeMax :=
    (congrArg (fun s => s.args.lbaSizeMax) h :)
  constructor
  · rintro ⟨hf, ht, hb⟩
    exact ⟨hf, hE ▸ ht, hmax ▸ hb⟩
  · rintro ⟨hf, ht, hb⟩
    exact ⟨hf, hE.symm ▸ ht, hmax.symm ▸ hb⟩

/-- The settings are kept, and so is what the entries say of the IOs. -/
theorem ReplaysFrom.issued_of_settings (hw : ReplaysFrom env args seq w)
    (h : w'.settings = w.settings) :
    ∀ x ∈ w.issued, ∃ e, seq[x.1.io.index]? = some e ∧ x.1.io.opcode = e.op % 2 ^ 8 ∧
      (x.1.io.IsData → (x.1.io.WellFormed env.ns w'.args ↔ e.Fits env args)) := by
  intro x hx
  obtain ⟨e, he, hop, hiff⟩ := hw.issued x hx
  exact ⟨e, he, hop, fun hop => (Worker.wellFormed_congr h).trans (hiff hop)⟩

theorem Sends.replaysFrom (h : Sends w w' k now table d p rc) (hseq : args.ioSequence = some seq)
    (hconv : ∀ e ∈ seq, IoSeq.Converted e) (hw : ReplaysFrom env args seq w) :
    ReplaysFrom env args seq w' := by
  obtain ⟨henv, -, -, hg⟩ := Worker.replay_settings hw.settings hseq
  have hpending : w'.g.pendingIoList = w.g.pendingIoList.tail :=
    congrArg Control.pendingIoList h.control
  have hcons := h.pendingIoList_eq (hw.accounted.head h.pc)
  have hqueued := hw.queued
  rw [Worker.pendingIndices, hcons, List.map_cons, List.forall_mem_cons] at hqueued
  constructor
  case accounted => exact h.accounted hw.accounted
  case settings => exact h.settings.trans hw.settings
  case queued =>
    rw [Worker.pendingIndices, hpending]
    simp only [h.index]
    exact hqueued.2
  case issued =>
    rw [h.issued, List.forall_mem_append, List.forall_mem_singleton]
    refine ⟨hw.issued_of_settings h.settings, ?_⟩
    obtain ⟨a, raw, lba, opIndex, op, -, -, -, -, hio⟩ := ioworkerSendOnePrepare_eq_ok h.prepared
    have hget : seq[(w.ioCtx k).ioSequenceIndex]? = some seq[(w.ioCtx k).ioSequenceIndex] :=
      List.getElem?_eq_getElem hqueued.1
    rw [ioworkerReplayOne, hg] at hio
    dsimp only at hio
    rw [List.getD_eq_getElem?_getD, hget, Option.getD_some] at hio
    refine ⟨seq[(w.ioCtx k).ioSequenceIndex], ?_, ioworkerSendOneIo_opcode hio, fun hop => ?_⟩
    · rw [ioworkerSendOnePrepare_index h.prepared, hget]
    rw [Worker.wellFormed_congr h.settings]
    refine wellFormed_iff_fits ?_ hw.settings hseq (hconv _ (List.getElem_mem _)) hop hio
    rw [← henv]
    rfl

theorem Completes.replaysFrom (h : Completes w w' k status now now') (hk : k ∈ w.inFlight) {n : Nat}
    (hpc : w'.pc = .polling n) (hseq : args.ioSequence = some seq)
    (hw : ReplaysFrom env args seq w) : ReplaysFrom env args seq w' := by
  obtain ⟨-, -, -, hg⟩ := Worker.replay_settings hw.settings hseq
  have hpending : w'.g.pendingIoList =
      if w'.g.flagFinish then w.g.pendingIoList else w.g.pendingIoList ++ [k] :=
    congrArg Control.pendingIoList h.control
  have hkeep := h.pendingIndices hk hw.accounted
  constructor
  case accounted => exact h.accounted hk hpc hw.accounted
  case settings => exact h.settings.trans hw.settings
  case queued =>
    cases hfin : w'.g.flagFinish with
    | true =>
      rw [Worker.pendingIndices, hpending, hfin, if_pos rfl, hkeep]
      exact hw.queued
    | false =>
      obtain ⟨hreplays, hnext⟩ := h.next_lt hg hfin
      rw [Worker.pendingIndices, hpending, hfin, if_neg Bool.false_ne_true, List.map_append, hkeep,
        List.forall_mem_append, List.map_singleton, List.forall_mem_singleton,
        h.ctxIndex hreplays]
      rw [Gctx.nextIndex, if_pos hreplays] at hnext
      exact ⟨hw.queued, by omega⟩
  case issued =>
    rw [h.issued]
    exact hw.issued_of_settings h.settings

theorem MovesOn.replaysFrom (h : MovesOn w w' ev) (hw : ReplaysFrom env args seq w) :
    ReplaysFrom env args seq w' := by
  have hpending : w'.g.pendingIoList = w.g.pendingIoList := congrArg Control.pendingIoList h.control
  constructor
  case accounted => exact h.accounted hw.accounted
  case settings => exact h.settings.trans hw.settings
  case queued =>
    rw [Worker.pendingIndices, hpending, h.ioCtx]
    exact hw.queued
  case issued =>
    rw [h.issued]
    exact hw.issued_of_settings h.settings

theorem Starts.replaysFrom (h : Starts env args w) (hv : args.Valid)
    (hseq : args.ioSequence = some seq) : ReplaysFrom env args seq w := by
  have hpending : w.g.pendingIoList = List.range (batchCount args.ioSequence w.args.qdepth) :=
    congrArg Control.pendingIoList h.control
  have hsome : args.ioSequence.isSome = true := by rw [hseq]; rfl
  constructor
  case accounted => exact h.accounted hv
  case settings => exact h.settings
  case queued =>
    rw [Worker.pendingIndices, hpending]
    intro n hn
    obtain ⟨i, hi, rfl⟩ := List.mem_map.1 hn
    have hi := List.mem_range.1 hi
    rw [h.index hsome i hi]
    rw [hseq] at hi
    exact lt_of_lt_of_le hi (Nat.min_le_right _ _)
  case issued => simp [h.issued]

/-- The assertion on the start of an entry holds, if they all start in the region. -/
theorem ReplaysFrom.not_aborted (hw : ReplaysFrom env args seq w)
    (hseq : args.ioSequence = some seq)
    (hle : ∀ e ∈ seq, e.slba ≤ min env.ns.numSectors args.regionEnd)
    (hs : ioworkerStep w ev = some w') : w'.pc ≠ .aborted .send := by
  intro hpc
  obtain ⟨_, now, table, d, rc, timeSent, after, hhead, -, rfl, -⟩ :=
    ioworkerStep_prepare_of_aborted hs hpc (by decide)
  obtain ⟨k, hk, hgt, hp⟩ := ioworkerStep_send_aborted hs hpc
  obtain ⟨-, hE, -, hg⟩ := Worker.replay_settings hw.settings hseq
  have hqueued : (w.ioCtx k).ioSequenceIndex < seq.length := by
    refine hw.queued _ (List.mem_map_of_mem ?_)
    exact List.mem_of_mem_head? ((hw.accounted.head hhead).symm.trans hk)
  have hslba := hle _ (List.getElem_mem hqueued)
  rcases ioworkerSendOnePrepare_eq_error hp with hp |
    ⟨size, a, -, hp | ⟨raw, -, hp | ⟨_, _, _, -, hp⟩⟩⟩
  · cases ioworkerSendOneSize_eq_error hp
  · rcases ioworkerRawLba_eq_error hp with ⟨hne, -⟩ | hne <;> cases hne
  · rcases ioworkerAlignLba_eq_error hp with hne | hne <;> cases hne
  · have hlt := (ioworkerSendOneIo_eq_error hp).2
    rw [ioworkerReplayOne, hg] at hlt
    dsimp only at hlt
    rw [List.getD_eq_getElem?_getD, List.getElem?_eq_getElem hqueued, Option.getD_some] at hlt
    omega

theorem replaysFrom_of_reachable {P : Worker → IowEvent → Prop} (hargs : args.Admitted)
    (hseq : args.ioSequence = some seq) (h : (ioworkerMachine env args).Reachable P w) :
    Refuses w ∨ ReplaysFrom env args seq w := by
  have hv := hargs.valid
  refine ioworker_invariant hv.qdepth_lt h (fun w hw => hw.replaysFrom hv hseq) ?_ ?_ ?_
  · exact fun w w' k now table d p rc timeSent after hw _ hs =>
      hs.replaysFrom hseq (hargs.sequence_converted seq hseq) hw
  · exact fun w w' k status now now' n hw _ hk _ hpc hc => hc.replaysFrom hk hpc hseq hw
  · exact fun w w' e hw _ hm => hm.replaysFrom hw

/-- In every run that replays a sequence: once anything is sent, all reads and writes are
    well formed and those that cannot be were rejected before, if and only if all reads and
    writes of the sequence fit. What is passed on is an entry of the sequence, and if that
    is a read or a write, it is well formed if and only if the entry fits. If all entries
    start in the region, none of them trips an assertion. -/
theorem ioworker_replay_wellFormed {P : Worker → IowEvent → Prop} (hargs : args.Admitted)
    (hseq : args.ioSequence = some seq) (h : (ioworkerMachine env args).Reachable P w) :
    (ReplaysWell env seq w ↔ w.issued = [] ∨ ∀ e ∈ seq, e.IsData → e.Fits env args) ∧
    (∀ x ∈ w.issued, ∃ e, seq[x.1.io.index]? = some e ∧
      (x.1.io.IsData → (x.1.io.WellFormed env.ns w.args ↔ e.Fits env args))) ∧
    ((∀ e ∈ seq, e.slba ≤ min env.ns.numSectors args.regionEnd) → w.pc ≠ .aborted .send) := by
  have hv := hargs.valid
  refine ⟨?_, ?_, fun hle => ?_⟩
  · rcases replaysFrom_of_reachable hargs hseq h with hr | hw
    · refine iff_of_true ⟨fun x hx => ?_, fun hne => absurd hr.issued hne⟩ (.inl hr.issued)
      simp [hr.issued] at hx
    · have hpossible : ∀ e ∈ seq, e.IsData → (e.Possible env.ns w.args ↔ e.Fits env args) :=
        fun e he => IoSeq.possible_iff_fits hw.settings hseq
          (hargs.sequence_converted seq hseq e he)
      constructor
      · intro hwell
        refine or_iff_not_imp_left.2 fun hne e he hop => ?_
        exact (hpossible e he hop).1 (hwell.rejected hne e he hop)
      · intro hor
        refine ⟨fun x hx hop => ?_, fun hne e he hop =>
          (hpossible e he hop).2 (hor.resolve_left hne e he hop)⟩
        have hfit := hor.resolve_left (List.ne_nil_of_mem hx)
        obtain ⟨e, he, hcode, hiff⟩ := hw.issued x hx
        exact (hiff hop).2 (hfit e (List.mem_of_getElem? he) (by rwa [IoSeq.IsData, ← hcode]))
  · rcases replaysFrom_of_reachable hargs hseq h with hr | hw
    · simp [hr.issued]
    · intro x hx
      obtain ⟨e, he, -, hiff⟩ := hw.issued x hx
      exact ⟨e, he, hiff⟩
  · cases h with
    | init hinit =>
      obtain rfl : w = ioworkerStart env args := hinit
      rcases ioworkerStart_cases env hv.qdepth_lt with hr | hs
      · rcases hr.pc with ⟨_, hpc⟩ | hpc | hpc <;> simp [hpc]
      · simp [hs.pc]
    | step hreach _ hs =>
      rcases replaysFrom_of_reachable hargs hseq hreach with hr | hw
      · exact absurd hs hr.no_step
      · exact hw.not_aborted hseq hle hs

/-! ### Short sequences of reads -/

/-- The parameters for a sequence of one read, of `nlba` blocks. -/
def readEntry (nlba : Nat) : PyArgs :=
  { readOnce with ioCount := 0, ioSequence := some [⟨0, 2, 0, nlba⟩] }

/-- Their arguments. -/
def readEntryArgs (nlba : Nat) : Args :=
  { readOnceArgs with ioCount := 0, ioSequence := some [⟨0, 0, 2, nlba⟩] }

/-- A read of all of a namespace of 8 sectors is well formed. -/
theorem ioworker_replay_wellFormed_read :
    ∃ w, (ioworkerMachine (plainEnv 8) (readEntryArgs 8)).Reachable (fun _ _ => True) w ∧
      w.issued ≠ [] ∧ ReplaysWell (plainEnv 8) [⟨0, 0, 2, 8⟩] w := by
  have hadmitted : (readEntryArgs 8).Admitted := ⟨1, readEntry 8, _, rfl, rfl⟩
  have hinit : (ioworkerMachine (plainEnv 8) (readEntryArgs 8)).Reachable (fun _ _ => True) _ :=
    .init rfl
  obtain ⟨w, hw, hlen⟩ := hinit.exists_run (f := fun w => w.issued.length) (t := 1) [sendRead]
    (Machine.admits_of_forall (by simp) _) rfl
  refine ⟨w, hw, List.ne_nil_of_length_pos (by omega), ?_⟩
  refine (ioworker_replay_wellFormed hadmitted rfl hw).1.2 (.inr fun e he _ => ?_)
  obtain rfl := List.mem_singleton.1 he
  exact ⟨by decide, by decide, by decide, by decide⟩

/-- The parameters for a sequence of a read of 8 blocks and one of no blocks. -/
def readThenNone : PyArgs :=
  { readOnce with ioCount := 0, ioSequence := some [⟨0, 2, 0, 8⟩, ⟨0, 2, 0, 0⟩] }

/-- Their arguments. -/
def readThenNoneArgs : Args :=
  { readOnceArgs with ioCount := 0, ioSequence := some [⟨0, 0, 2, 8⟩, ⟨0, 0, 2, 0⟩] }

/-- A read of no blocks carries -1 in dword 12; a read of 16 blocks overruns the buffer,
    of 8 blocks; and a read is sent although the next one has no blocks. -/
theorem ioworker_replay_not_wellFormed :
    ((readEntryArgs 0).Admitted ∧ ∃ w,
      (ioworkerMachine (plainEnv 8) (readEntryArgs 0)).Reachable (fun _ _ => True) w ∧
        ∃ x ∈ w.issued, x.1.io.IsData ∧ x.1.io.count = 0 ∧
          ¬x.1.io.WellFormed (plainNs 8) w.args) ∧
    ((readEntryArgs 16).Admitted ∧ ∃ w,
      (ioworkerMachine (plainEnv 16) (readEntryArgs 16)).Reachable (fun _ _ => True) w ∧
        ∃ x ∈ w.issued, x.1.io.IsData ∧ x.1.io.count = 16 ∧ w.args.lbaSizeMax = 8 ∧
          ¬x.1.io.WellFormed (plainNs 16) w.args) ∧
    (readThenNoneArgs.Admitted ∧ ∃ w,
      (ioworkerMachine (plainEnv 8) readThenNoneArgs).Reachable (fun _ _ => True) w ∧
        w.issued ≠ [] ∧
        ¬ReplaysWell (plainEnv 8) [⟨0, 0, 2, 8⟩, ⟨0, 0, 2, 0⟩] w) := by
  refine ⟨⟨⟨1, readEntry 0, _, rfl, rfl⟩, ?_⟩, ⟨⟨1, readEntry 16, _, rfl, rfl⟩, ?_⟩,
    ⟨⟨1, readThenNone, _, rfl, rfl⟩, ?_⟩⟩
  · have hinit : (ioworkerMachine (plainEnv 8) (readEntryArgs 0)).Reachable (fun _ _ => True) _ :=
      .init rfl
    obtain ⟨w, hw, hf⟩ := hinit.exists_run
      (f := fun w => w.issued.map fun x => (x.1.io.opcode, x.1.io.count)) (t := [(2, 0)])
      [sendRead] (Machine.admits_of_forall (by simp) _) rfl
    have hmem : (2, 0) ∈ w.issued.map fun x => (x.1.io.opcode, x.1.io.count) := by simp [hf]
    obtain ⟨x, hx, hio⟩ := List.mem_map.1 hmem
    obtain ⟨hop, hcount⟩ := Prod.mk.inj hio
    refine ⟨w, hw, x, hx, .inr hop, hcount, fun h => ?_⟩
    obtain ⟨s, -, -, heq⟩ := h.field (fun _ => 0#8) 0
    omega
  · have hinit : (ioworkerMachine (plainEnv 16) (readEntryArgs 16)).Reachable (fun _ _ => True) _ :=
      .init rfl
    obtain ⟨w, hw, hf⟩ := hinit.exists_run
      (f := fun w => (w.args.lbaSizeMax, w.issued.map fun x => (x.1.io.opcode, x.1.io.count)))
      (t := (8, [(2, 16)])) [sendRead] (Machine.admits_of_forall (by simp) _) rfl
    obtain ⟨hmax, hf⟩ := Prod.mk.inj hf
    have hmem : (2, 16) ∈ w.issued.map fun x => (x.1.io.opcode, x.1.io.count) := by simp [hf]
    obtain ⟨x, hx, hio⟩ := List.mem_map.1 hmem
    obtain ⟨hop, hcount⟩ := Prod.mk.inj hio
    refine ⟨w, hw, x, hx, .inr hop, hcount, hmax, fun h => ?_⟩
    have hbuffer := h.buffer
    rw [hcount, hmax] at hbuffer
    exact absurd hbuffer (by decide)
  · have hinit : (ioworkerMachine (plainEnv 8) readThenNoneArgs).Reachable (fun _ _ => True) _ :=
      .init rfl
    obtain ⟨w, hw, hlen⟩ := hinit.exists_run (f := fun w => w.issued.length) (t := 1) [sendRead]
      (Machine.admits_of_forall (by simp) _) rfl
    have hne : w.issued ≠ [] := List.ne_nil_of_length_pos (by omega)
    refine ⟨w, hw, hne, fun h => ?_⟩
    obtain ⟨io, hio, hwell⟩ := h.rejected hne ⟨0, 0, 2, 0⟩ (by simp) (.inr rfl) (w.ioCtx 0)
    have hcount := (ioworkerSendOneIo_eq_ok hio).2.2.1
    obtain ⟨s, -, -, heq⟩ := hwell.field (fun _ => 0#8) 0
    simp [u32] at hcount
    omega

end Pynvme
