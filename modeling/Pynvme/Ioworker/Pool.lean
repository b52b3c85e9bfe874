import Pynvme.Ioworker.Lba
import Pynvme.Ioworker.Accounting
import Pynvme.Lib.Rounds
import Mathlib.Tactic.Ring

/-!
# The buffers of an ioworker

The contexts of a worker share a pool of memory: each has a data buffer and a write
buffer, one after the other, of the largest size of an IO. All offsets and the size of
the pool are computed in 32 bits. For the largest queue and the largest transfer they
come near to `2 ^ 32`, but not beyond it.

`ioworker_buffers`: the pool has its size, no two buffers overlap or leave the pool,
and no IO that is drawn leaves its buffer.
-/

namespace Pynvme

open Word

variable {env : Env} {args : Args} {w w' : Worker} {e : IowEvent}

/-- The size of the pool, `pool_size`. -/
def ioworkerPoolSize (ns : Ns) (args : Args) : Nat :=
  u32 (u32 (args.lbaSizeMax * ns.sectorSize) * args.qdepth * 2)

/-- The largest size of an IO in bytes, which is that of a buffer. -/
def Worker.bufferSize (w : Worker) : Nat := w.args.lbaSizeMax * w.env.ns.sectorSize

/-- The data buffer, or the write buffer, of a context. -/
def Worker.buffer (w : Worker) (i : Nat) (write : Bool) : Nat :=
  if write then (w.ioCtx i).writeBuf else (w.ioCtx i).dataBuf

/-- The bytes of a buffer in the pool. -/
def Worker.area (w : Worker) (i : Nat) (write : Bool) : Set Nat :=
  Set.Ico (w.buffer i write) (w.buffer i write + w.bufferSize)

/-! ### The buffers stay -/

theorem ioworkerNextIo_buffers {g g' : Gctx} {ctx ctx' : IoCtx}
    (h : ioworkerNextIo g ctx = (g', ctx')) :
    ctx'.dataBuf = ctx.dataBuf ∧ ctx'.writeBuf = ctx.writeBuf := by
  rw [ioworkerNextIo] at h
  split at h
  · split at h <;> cases h <;> exact ⟨rfl, rfl⟩
  · split_ifs at h <;> cases h <;> exact ⟨rfl, rfl⟩

/-- A context that is updated keeps its buffers if the new one has them. -/
theorem buffers_update (ioCtx : Nat → IoCtx) (k : Nat) (ctx : IoCtx)
    (h : ctx.dataBuf = (ioCtx k).dataBuf ∧ ctx.writeBuf = (ioCtx k).writeBuf) (i : Nat) :
    (Function.update ioCtx k ctx i).dataBuf = (ioCtx i).dataBuf ∧
      (Function.update ioCtx k ctx i).writeBuf = (ioCtx i).writeBuf := by
  rcases eq_or_ne i k with rfl | hi
  · rw [Function.update_self]
    exact h
  · rw [Function.update_of_ne hi]
    exact ⟨rfl, rfl⟩

theorem ioworkerCountOne_buffers (w : Worker) (k : Nat) (status : Status) (now : Timeval)
    (i : Nat) :
    ((ioworkerCountOne w k status now).ioCtx i).dataBuf = (w.ioCtx i).dataBuf ∧
      ((ioworkerCountOne w k status now).ioCtx i).writeBuf = (w.ioCtx i).writeBuf := by
  simp only [ioworkerCountOne]
  generalize ioworkerUpdateRets (w.ioCtx k) w.rets now = r
  obtain ⟨latency, rets⟩ := r
  dsimp only
  generalize hn : ioworkerNextIo _ (w.ioCtx k) = p
  obtain ⟨g, ctx⟩ := p
  dsimp only
  exact buffers_update w.ioCtx k ctx (ioworkerNextIo_buffers hn) i

/-- No step moves a buffer. -/
theorem ioworkerStep_buffers (h : ioworkerStep w e = some w') (i : Nat) :
    (w'.ioCtx i).dataBuf = (w.ioCtx i).dataBuf ∧ (w'.ioCtx i).writeBuf = (w.ioCtx i).writeBuf := by
  rcases ioworkerStep_cases h with ⟨k, now, table, d, rc, timeSent, after, p, rfl, hs⟩ |
    ⟨k, status, now, now', n, rfl, hk, -, -, hc⟩ | hm
  · obtain ⟨-, rfl | ⟨k', -, -, ⟨why, -, rfl⟩ | ⟨p', w₁, -, rfl, rfl⟩⟩⟩ := ioworkerStep_send_eq h
    · exact ⟨rfl, rfl⟩
    · exact ⟨rfl, rfl⟩
    · rw [ioworkerSendOne]
      dsimp only
      split_ifs
      · refine buffers_update w.ioCtx k' _ ?_ i
        exact ⟨rfl, rfl⟩
      · refine buffers_update w.ioCtx k' _ ?_ i
        exact ⟨rfl, rfl⟩
  · obtain ⟨n, -, -, ⟨why, -, rfl⟩ | ⟨w₁, hcb, rfl⟩⟩ := ioworkerStep_complete_eq h
    · exact ⟨rfl, rfl⟩
    · obtain ⟨finish, -, hw⟩ := Except.bind_eq_ok.1 hcb
      obtain rfl := Except.pure_eq_ok.1 hw
      exact ioworkerCountOne_buffers w k status now i
  · rw [hm.ioCtx]
    exact ⟨rfl, rfl⟩

/-! ### The start -/

/-- The buffers as the first batch sets them. -/
def Worker.Placed (w : Worker) (n : Nat) : Prop :=
  ∀ i < n, (w.ioCtx i).dataBuf = u32 (u32 w.bufferSize * 2 * i) ∧
    (w.ioCtx i).writeBuf = u32 (u32 w.bufferSize * 2 * i) + u32 w.bufferSize

theorem ioworkerBatchOne_args (i : Nat) (w : Worker) :
    (ioworkerBatchOne i w).args = w.args ∧ (ioworkerBatchOne i w).env = w.env := by
  rw [ioworkerBatchOne]
  dsimp only
  split_ifs <;> exact ⟨rfl, rfl⟩

theorem ioworkerBatchOne_placed {i : Nat} (h : w.Placed i) :
    (ioworkerBatchOne i w).Placed (i + 1) := by
  -- Only the context `i` changes, and it keeps the buffers it is given.
  have hctx : ∃ ctx : IoCtx, (ioworkerBatchOne i w).ioCtx = Function.update w.ioCtx i ctx ∧
      ctx.dataBuf = u32 (u32 w.bufferSize * 2 * i) ∧
      ctx.writeBuf = u32 (u32 w.bufferSize * 2 * i) + u32 w.bufferSize := by
    rw [ioworkerBatchOne]
    dsimp only
    split_ifs
    · exact ⟨_, rfl, rfl, rfl⟩
    · generalize hn : ioworkerNextIo w.g _ = r
      obtain ⟨g, ctx⟩ := r
      exact ⟨ctx, rfl, ioworkerNextIo_buffers hn⟩
  obtain ⟨ctx, hioCtx, hdata, hwrite⟩ := hctx
  have hsize : (ioworkerBatchOne i w).bufferSize = w.bufferSize := by
    obtain ⟨hargs, henv⟩ := ioworkerBatchOne_args i w
    rw [Worker.bufferSize, hargs, henv, Worker.bufferSize]
  intro j hj
  rw [hsize, hioCtx]
  rcases eq_or_ne j i with rfl | hne
  · rw [Function.update_self]
    exact ⟨hdata, hwrite⟩
  · rw [Function.update_of_ne hne]
    exact h j (by omega)

/-- A worker that comes to its loop has passed the check of the size, and has queued its
    first batch. -/
theorem ioworkerStart_of_head {w₀ : Worker} (h : (ioworkerStart env args).pc = .head)
    (hw₀ : w₀ = ioworkerInit env
      (ioworkerReviseArgs env.ns.numSectors (ioworkerSizeArgs env args)) .head) :
    (∃ head, ioworkerStart env args =
      { forLoop w₀.args.qdepth ioworkerBatchOne w₀ with headIo := head }) ∧
    u32 w₀.bufferSize ≤ env.maxXferSize := by
  subst hw₀
  rw [ioworkerStart] at h ⊢
  by_cases hargs : args.lbaSizeMax = 0 ∨ args.regionEnd ≤ args.regionStart ∨
      2050 / 2 < args.qdepth ∨ 1024 * 1024 ≤ args.cmdlogList.length
  · rw [if_pos hargs] at h
    cases h
  rw [if_neg hargs] at h ⊢
  by_cases hsector : args.ioSequence.isSome = true ∧ env.ns.sectorSize = 0
  · rw [if_pos hsector] at h
    cases h
  rw [if_neg hsector] at h ⊢
  dsimp only at h ⊢
  by_cases hsize : env.maxXferSize <
      u32 ((ioworkerSizeArgs env args).lbaSizeMax * env.ns.sectorSize)
  · rw [if_pos hsize] at h
    cases h
  rw [if_neg hsize] at h ⊢
  refine ⟨?_, Nat.not_lt.1 hsize⟩
  split at h
  case isTrue => cases h
  case isFalse halign =>
    rw [if_neg halign]
    split at h
    case isTrue => cases h
    case isFalse htables =>
      rw [if_neg htables]
      split at h
      case isTrue => cases h
      case isFalse hpool =>
        rw [if_neg hpool]
        split at h
        case isTrue => cases h
        case isFalse hpattern =>
          rw [if_neg hpattern]
          exact ⟨_, rfl⟩

theorem ioworkerStart_placed (h : (ioworkerStart env args).pc = .head) :
    (ioworkerStart env args).Placed (ioworkerStart env args).args.qdepth ∧
      u32 (ioworkerStart env args).bufferSize ≤ env.maxXferSize := by
  obtain ⟨⟨head, heq⟩, hsize⟩ := ioworkerStart_of_head h rfl
  rw [heq]
  generalize hw₀ : ioworkerInit env
    (ioworkerReviseArgs env.ns.numSectors (ioworkerSizeArgs env args)) .head = w₀ at *
  obtain ⟨hplaced, hargs, henv⟩ := forLoop_induction (n := w₀.args.qdepth) (s := w₀)
    (I := fun i w => w.Placed i ∧ w.args = w₀.args ∧ w.env = w₀.env)
    ⟨fun i hi => absurd hi (Nat.not_lt_zero i), rfl, rfl⟩ fun i _ w ⟨hw, hargs, henv⟩ =>
      ⟨ioworkerBatchOne_placed hw, (ioworkerBatchOne_args i w).1.trans hargs,
        (ioworkerBatchOne_args i w).2.trans henv⟩
  refine ⟨fun i hi => hplaced i (hargs ▸ hi), ?_⟩
  rw [Worker.bufferSize]
  dsimp only
  rw [hargs, henv]
  exact hsize

/-! ### The runs -/

/-- What holds of the buffers in the loop: they are where the first batch has set them,
    and an IO uses one of them, and no more than one if it was drawn. -/
structure Pooled (env : Env) (args : Args) (w : Worker) : Prop where
  accounted : Accounted w
  settings : w.settings = ioworkerSettings env args
  placed : w.Placed w.args.qdepth
  issued : ∀ x ∈ w.issued, ∃ i < w.args.qdepth, ∃ write, x.1.io.buf = w.buffer i write ∧
    x.1.io.len = u32 (x.1.io.count * env.ns.sectorSize) ∧
    (args.ioSequence = none → x.1.io.count ≤ w.args.lbaSizeMax)

/-- The settings that the buffers depend on. -/
theorem Worker.bufferSize_eq (h : w'.settings = w.settings) :
    w'.args.qdepth = w.args.qdepth ∧ w'.args.lbaSizeMax = w.args.lbaSizeMax ∧
      w'.bufferSize = w.bufferSize := by
  have hmax : w'.args.lbaSizeMax = w.args.lbaSizeMax :=
    (congrArg (fun s => s.args.lbaSizeMax) h :)
  have henv : w'.env = w.env := congrArg Settings.env h
  exact ⟨(congrArg (fun s => s.args.qdepth) h :), hmax, by
    rw [Worker.bufferSize, hmax, henv, Worker.bufferSize]⟩

/-- What is sent from the context `k`. -/
theorem Sends.pooled {k : Nat} {now : Timeval} {table : Nat → BitVec 32} {d : Draws} {p : Prepared}
    {rc : Int} (h : Sends w w' k now table d p rc) (hv : args.Valid) (hw : Pooled env args w) :
    k < w.args.qdepth ∧ (∃ write, p.io.buf = w.buffer k write) ∧
      p.io.len = u32 (p.io.count * env.ns.sectorSize) ∧
      (args.ioSequence = none → p.io.count ≤ w.args.lbaSizeMax) := by
  obtain ⟨a, raw, lba, opIndex, op, hsize, -, -, -, hio⟩ := ioworkerSendOnePrepare_eq_ok h.prepared
  have hc := Configured.of_settings hw.settings
  obtain ⟨hbuf, hlen⟩ := ioworkerSendOneIo_buf hio
  refine ⟨hw.accounted.lt k ?_, ?_, ?_, fun hseq => ?_⟩
  · have hmem : k ∈ w.g.pendingIoList :=
      List.mem_of_mem_head? ((hw.accounted.head h.pc).symm.trans h.headIo)
    exact List.mem_append_left _ (List.mem_append_left _ hmem)
  · by_cases hop : p.io.opcode = 1
    · rw [if_pos hop] at hbuf
      exact ⟨true, hbuf⟩
    · rw [if_neg hop] at hbuf
      exact ⟨false, hbuf⟩
  · rw [hlen, ← hc.env_eq]
    rfl
  · obtain ⟨e, he, hes, -⟩ := hc.size_mem hv hsize
    rw [ioworkerReplayOne, hc.ioSequence, hseq] at hio
    have hmax : w.args.lbaSizeMax = args.lbaSizeMax := by
      have hset := hw.settings
      rw [ioworkerSettings, ioworkerSizeArgs, hseq] at hset
      exact (congrArg (fun s => s.args.lbaSizeMax) hset :)
    rw [(ioworkerSendOneIo_eq_ok hio).2.2.1, hmax]
    calc u32 (min p.size (u64 (w.args.regionEnd + 2 ^ 64 - lba)))
        ≤ min p.size (u64 (w.args.regionEnd + 2 ^ 64 - lba)) := Nat.mod_le _ _
      _ ≤ p.size := Nat.min_le_left _ _
      _ ≤ args.lbaSizeMax := hes ▸ (hv.size e he).2.2

theorem pooled_of_reachable (hv : args.Valid) (hhead : (ioworkerStart env args).pc = .head)
    {P : Worker → IowEvent → Prop} (h : (ioworkerMachine env args).Reachable P w) :
    Pooled env args w := by
  refine h.invariant ?_ ?_
  · rintro _ rfl
    have hs : Starts env args (ioworkerStart env args) := by
      refine (ioworkerStart_cases env hv.qdepth_lt).resolve_left fun hr => ?_
      rcases hr.pc with ⟨ret, hpc⟩ | hpc | hpc <;> cases hhead.symm.trans hpc
    exact ⟨hs.accounted hv, hs.settings, (ioworkerStart_placed hhead).1, by simp [hs.issued]⟩
  · intro w e w' hw _ hstep
    have hset := ioworkerStep_settings hstep
    obtain ⟨hqdepth, hmax, hsize⟩ := Worker.bufferSize_eq hset
    have hbuffers := ioworkerStep_buffers hstep
    have hbuffer : ∀ i write, w'.buffer i write = w.buffer i write := by
      intro i write
      rw [Worker.buffer, (hbuffers i).1, (hbuffers i).2, Worker.buffer]
    have hold : ∀ x ∈ w.issued, ∃ i < w'.args.qdepth, ∃ write,
        x.1.io.buf = w'.buffer i write ∧ x.1.io.len = u32 (x.1.io.count * env.ns.sectorSize) ∧
        (args.ioSequence = none → x.1.io.count ≤ w'.args.lbaSizeMax) := by
      simp only [hqdepth, hbuffer, hmax]
      exact hw.issued
    have haccounted : Accounted w' ∧ ∀ x ∈ w'.issued, x ∈ w.issued ∨
        ∃ k now table d rc, Sends w w' k now table d x.1 rc := by
      rcases ioworkerStep_cases hstep with ⟨k, now, table, d, rc, timeSent, after, p, rfl, hs⟩ |
        ⟨k, status, now, now', n, rfl, hk, -, hn, hc⟩ | hm
      · refine ⟨hs.accounted hw.accounted, ?_⟩
        rw [hs.issued, List.forall_mem_append, List.forall_mem_singleton]
        exact ⟨fun x hx => .inl hx, .inr ⟨k, now, table, d, rc, hs⟩⟩
      · exact ⟨hc.accounted hk hn hw.accounted, hc.issued ▸ fun x hx => .inl hx⟩
      · exact ⟨hm.accounted hw.accounted, hm.issued ▸ fun x hx => .inl hx⟩
    refine ⟨haccounted.1, hset.trans hw.settings, fun i hi => ?_, fun x hx => ?_⟩
    · rw [(hbuffers i).1, (hbuffers i).2, hsize]
      exact hw.placed i (hqdepth ▸ hi)
    · rcases haccounted.2 x hx with hx | ⟨k, now, table, d, rc, hs⟩
      · exact hold x hx
      · obtain ⟨hk, ⟨write, hbuf⟩, hlen, hcount⟩ := hs.pooled hv hw
        exact ⟨k, hqdepth ▸ hk, write, (hbuffer k write).symm ▸ hbuf, hlen, hmax ▸ hcount⟩

/-! ### No overflow -/

/-- The size of a buffer, within the limits of a sector and of a transfer, is exact. -/
theorem bufferSize_le (hv : args.Valid) (hsector : env.ns.sectorSize ≤ 65536)
    (hsize : u32 ((ioworkerSizeArgs env args).lbaSizeMax * env.ns.sectorSize) ≤ env.maxXferSize) :
    (ioworkerSizeArgs env args).lbaSizeMax * env.ns.sectorSize ≤ env.maxXferSize := by
  rw [ioworkerSizeArgs] at hsize ⊢
  split_ifs at hsize ⊢
  · exact Nat.div_mul_le_self _ _
  · obtain ⟨e, he, hmax⟩ := hv.sizeMax
    have hlt := (hv.size e he).2.1
    have hle : args.lbaSizeMax * env.ns.sectorSize ≤ 65535 * 65536 :=
      Nat.mul_le_mul (by omega) hsector
    rwa [u32_of_lt (by omega)] at hsize

/-- The buffers of a pool below `2 ^ 32` are its slots. -/
theorem Worker.Placed.buffer_eq {n : Nat} (h : w.Placed n) (hlt : w.bufferSize * n * 2 < 2 ^ 32)
    {i : Nat} (hi : i < n) (write : Bool) :
    w.buffer i write = (2 * i + write.toNat) * w.bufferSize := by
  have hsize : w.bufferSize ≤ w.bufferSize * n := Nat.le_mul_of_pos_right _ (by omega)
  have hoff : w.bufferSize * i ≤ w.bufferSize * n := Nat.mul_le_mul_left _ hi.le
  have hexact : u32 w.bufferSize = w.bufferSize := u32_of_lt (by omega)
  have hassoc : w.bufferSize * 2 * i = 2 * (w.bufferSize * i) := by ring
  obtain ⟨hdata, hwrite⟩ := h i hi
  rw [hexact, hassoc, u32_of_lt (by omega)] at hdata hwrite
  rw [Worker.buffer, hdata, hwrite]
  cases write with
  | false =>
    rw [if_neg Bool.false_ne_true, Bool.toNat_false]
    ring
  | true =>
    rw [if_pos rfl, Bool.toNat_true]
    ring

/-- For every worker that passes the check of the size, with sectors and transfers of at
    most 64 KiB and 2 MiB: the pool is that of two buffers for each context of the
    clamped queue. In every run, the buffers are in the pool and do not overlap, and every
    IO that is drawn is in the buffer it uses. -/
theorem ioworker_buffers (env : Env) {args : Args} (hargs : args.Admitted)
    (hsector : env.ns.sectorSize ≤ 65536) (hxfer : env.maxXferSize ≤ 2 * 1024 * 1024)
    (hsize : u32 ((ioworkerSizeArgs env args).lbaSizeMax * env.ns.sectorSize) ≤ env.maxXferSize)
    {revised : Args}
    (hrevised : revised = ioworkerReviseArgs env.ns.numSectors (ioworkerSizeArgs env args)) :
    revised.qdepth = min args.limit (args.qdepth - 1) ∧
    ioworkerPoolSize env.ns revised =
      2 * revised.qdepth * (revised.lbaSizeMax * env.ns.sectorSize) ∧
    ∀ (P : Worker → IowEvent → Prop) (w : Worker), (ioworkerStart env args).pc = .head →
      (ioworkerMachine env args).Reachable P w →
      w.bufferSize = revised.lbaSizeMax * env.ns.sectorSize ∧
      (∀ i < revised.qdepth, ∀ write,
        w.area i write ⊆ Set.Ico 0 (ioworkerPoolSize env.ns revised)) ∧
      (∀ i < revised.qdepth, ∀ j < revised.qdepth, ∀ write write',
        (i, write) ≠ (j, write') → w.area i write ∩ w.area j write' = ∅) ∧
      (args.ioSequence = none → ∀ x ∈ w.issued, ∃ i < revised.qdepth, ∃ write,
        x.1.io.buf = w.buffer i write ∧ x.1.io.len = x.1.io.count * env.ns.sectorSize ∧
        x.1.io.len ≤ w.bufferSize) := by
  have hv := hargs.valid
  obtain ⟨m, hm⟩ := ioworkerSizeArgs_eq env args
  have hq : revised.qdepth = min args.limit (args.qdepth - 1) := by
    rw [hrevised, hm]
    simp only [ioworkerReviseArgs, Args.limit]
    split_ifs <;> omega
  have hq' : revised.qdepth ≤ 1023 := by
    have := hv.qdepth
    omega
  have hmax : revised.lbaSizeMax = (ioworkerSizeArgs env args).lbaSizeMax := by
    rw [hrevised]
    rfl
  have hbytes : revised.lbaSizeMax * env.ns.sectorSize ≤ 2 * 1024 * 1024 :=
    hmax ▸ le_trans (bufferSize_le hv hsector hsize) hxfer
  have hmul : revised.lbaSizeMax * env.ns.sectorSize * revised.qdepth ≤ 2 * 1024 * 1024 * 1023 :=
    Nat.mul_le_mul hbytes hq'
  have hpool : ioworkerPoolSize env.ns revised =
      2 * revised.qdepth * (revised.lbaSizeMax * env.ns.sectorSize) := by
    rw [ioworkerPoolSize, u32_of_lt (n := revised.lbaSizeMax * env.ns.sectorSize) (by omega),
      u32_of_lt (by omega)]
    ring
  refine ⟨hq, hpool, fun P w hhead h => ?_⟩
  have hw := pooled_of_reachable hv hhead h
  have henv : w.env = env := congrArg Settings.env hw.settings
  have hqw : w.args.qdepth = revised.qdepth := by
    rw [hrevised]
    exact (congrArg (fun s => s.args.qdepth) hw.settings :)
  have hmaxw : w.args.lbaSizeMax = revised.lbaSizeMax := by
    rw [hrevised]
    exact (congrArg (fun s => s.args.lbaSizeMax) hw.settings :)
  have hbuffer : w.bufferSize = revised.lbaSizeMax * env.ns.sectorSize := by
    rw [Worker.bufferSize, henv, hmaxw]
  have hslot : ∀ i < revised.qdepth, ∀ write,
      w.buffer i write = (2 * i + write.toNat) * w.bufferSize :=
    fun i hi write => (hqw ▸ hw.placed).buffer_eq (by rw [hbuffer]; omega) hi write
  refine ⟨hbuffer, fun i hi write => ?_, fun i hi j hj write write' hne => ?_, fun hseq x hx => ?_⟩
  · rw [Worker.area, hslot i hi, hpool, ← hbuffer]
    refine Set.Ico_subset_Ico (Nat.zero_le _) ?_
    rw [← Nat.succ_mul]
    refine Nat.mul_le_mul_right _ ?_
    have := write.toNat_le
    omega
  · rw [Worker.area, Worker.area, hslot i hi, hslot j hj]
    refine slots_disjoint fun heq => hne ?_
    have := write.toNat_le
    have := write'.toNat_le
    obtain rfl : i = j := by omega
    have hbit : write = write' := by
      revert heq
      cases write <;> cases write' <;> simp
    rw [hbit]
  · obtain ⟨i, hi, write, hbuf, hlen, hcount⟩ := hw.issued x hx
    have hle : x.1.io.count * env.ns.sectorSize ≤ w.bufferSize := by
      rw [hbuffer, ← hmaxw]
      exact Nat.mul_le_mul_right _ (hcount hseq)
    rw [u32_of_lt (by omega)] at hlen
    exact ⟨i, hqw ▸ hi, write, hbuf, hlen, hlen ▸ hle⟩

/-- The arguments of the deepest queue, of IOs of 2 MiB. -/
def readDeepArgs : Args :=
  { readOnceArgs with
    lbaSizeMax := 4096, lbaSizeList := [⟨4096, 1, 1⟩], ioCount := 2000, qdepth := 1024 }

/-- Its pool is 4 MiB smaller than `2 ^ 32`; and the two buffers of the one context of a
    single read do not overlap. -/
theorem ioworker_buffers_read :
    ioworkerPoolSize (plainNs 8) (ioworkerReviseArgs 8 readDeepArgs) = 2 ^ 32 - 2 ^ 22 ∧
      ∃ w, (ioworkerMachine (plainEnv 8) readOnceArgs).Reachable (fun _ _ => True) w ∧
        w.issued.length = 1 ∧ w.area 0 false ∩ w.area 0 true = ∅ := by
  have hdeep : readDeepArgs.Admitted :=
    ⟨1023, { readOnce with ioSize := .int 4096, ioCount := 2000, qdepth := 1024 }, _, rfl, rfl⟩
  have hpool := (ioworker_buffers { plainEnv 8 with maxXferSize := 2 * 1024 * 1024 } hdeep
    (by decide) (by decide) (by decide) rfl).2.1
  refine ⟨hpool, ?_⟩
  have hinit : (ioworkerMachine (plainEnv 8) readOnceArgs).Reachable (fun _ _ => True) _ :=
    .init rfl
  obtain ⟨w, hw, hlen⟩ := hinit.exists_run (f := fun w => w.issued.length) (t := 1)
    (iteration 2 ⟨0, 0, 0, 0, 0⟩ 0 [0]) (Machine.admits_of_forall (by simp) _) rfl
  obtain ⟨-, -, hdisj, -⟩ := (ioworker_buffers (plainEnv 8) readOnceArgs_admitted (by decide)
    (by decide) (by decide) rfl).2.2 _ w rfl hw
  exact ⟨w, hw, hlen, hdisj 0 (by decide) 0 (by decide) false true (by simp)⟩

end Pynvme
