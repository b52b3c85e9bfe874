import Pynvme.Crc.Buffer
import Pynvme.Lib.Machine
import Pynvme.Lib.Rounds

/-!
# The tokens of the writes

All processes of the driver share a word, the next token. To stamp a write buffer, a
process reserves a token for each sector by one atomic addition, and then fills the
sectors one by one (`buffer_fill_rawdata`); meanwhile other processes do the same. No
data is written twice, as no token is.

The machine `tokenMachine` is the interleaving of these calls: its state keeps the word,
and every call ever made with its buffer, which belongs to the process.

`buffer_tokens_unique`: no token is stored twice, or is 0; when all calls have returned,
the stored tokens are those from 1 to the number of the sectors; and a buffer is only
changed by its LBAs and tokens.
-/

namespace Pynvme

open Word

/-- A call of `buffer_fill_rawdata` by the process `pid`, after its first `i` sectors: `data`
    was in the buffer before it, and `buf` is. -/
structure FillCall where
  pid : Nat
  data : Bytes
  lba : Nat
  lbaCount : Nat
  lbaSize : Nat
  token : Nat
  buf : Bytes
  i : Nat

/-- The shared word, and the calls from the first one on. -/
structure TokenState where
  token : Nat
  calls : List FillCall

/-- A process calls `buffer_fill_rawdata` and makes the atomic addition; or the `k`th call
    fills its next sector. -/
inductive TokenEvent
  | call (pid : Nat) (buf : Bytes) (lba lbaCount lbaSize : Nat)
  | sector (k : Nat)

/-- An iteration of the loop of `buffer_fill_rawdata`. -/
def FillCall.fill (c : FillCall) : FillCall :=
  let ptr := u32 (c.i * c.lbaSize)
  { c with
    buf := (c.buf.writeLe ptr 8 (u64 (c.lba + c.i))).writeLe (ptr + 8 * (c.lbaSize / 8 - 1)) 8
      (u64 (c.token + c.i))
    i := c.i + 1 }

/-- A step of a process, which is in one call at a time. -/
def tokenStep (s : TokenState) : TokenEvent → Option TokenState
  | .call pid buf lba lbaCount lbaSize =>
    if ∀ c ∈ s.calls, c.pid = pid → c.i = c.lbaCount then
      some ⟨u64 (s.token + lbaCount),
        s.calls ++ [⟨pid, buf, lba, lbaCount, lbaSize, s.token, buf, 0⟩]⟩
    else none
  | .sector k =>
    match s.calls[k]? with
    | none => none
    | some c => if c.i < c.lbaCount then some { s with calls := s.calls.set k c.fill } else none

/-- The processes after `driver_init_token`. -/
def tokenMachine : Machine TokenState TokenEvent where
  init s := s = ⟨1, []⟩
  step := tokenStep

/-! ### What is reserved and stored -/

/-- The tokens each call has reserved, as their first one and their number. -/
def TokenState.reserved (s : TokenState) : List (Nat × Nat) :=
  s.calls.map fun c => (c.token, c.lbaCount)

/-- The number of the sectors of all calls. -/
def TokenState.total (s : TokenState) : Nat := (s.reserved.map Prod.snd).sum

/-- The token `t` is stored in the last word of the sector `i` by the `k`th call. -/
def TokenState.Stores (s : TokenState) (k i t : Nat) : Prop :=
  ∃ c, s.calls[k]? = some c ∧ i < c.i ∧
    c.buf.readLe (i * c.lbaSize + (c.lbaSize - 8)) 8 = t

/-- The bytes of the first and the last word of the sector `i`. -/
def FillCall.stamps (c : FillCall) (i : Nat) : Set Nat :=
  Set.Ico (i * c.lbaSize) (i * c.lbaSize + 8) ∪
    Set.Ico (i * c.lbaSize + (c.lbaSize - 8)) (i * c.lbaSize + c.lbaSize)

/-- The sizes of a call: 32 bits are enough for the bytes of its buffer, and a sector is a
    sequence of words, of which the first is not the last. -/
structure SectorsFit (lbaCount lbaSize : Nat) : Prop where
  fit : lbaCount * lbaSize < 2 ^ 32
  two_words : 16 ≤ lbaSize
  words : 8 ∣ lbaSize

/-- The sizes of every call fit, and there are tokens for all sectors. -/
def TokensLast (s : TokenState) : TokenEvent → Prop
  | .call _ _ _ lbaCount lbaSize =>
    SectorsFit lbaCount lbaSize ∧ s.total + lbaCount < 2 ^ 64 - 1
  | .sector _ => True

/-- The tokens of a state are unique, and the buffers are stamped with them. -/
structure TokensUnique (s : TokenState) : Prop where
  /-- No token is stored twice. -/
  distinct : ∀ k i k' i' t, s.Stores k i t → s.Stores k' i' t → k = k' ∧ i = i'
  /-- A token is not 0, and there are not more tokens than sectors. -/
  range : ∀ k i t, s.Stores k i t → t ≠ 0 ∧ t ≤ s.total
  /-- When all calls have returned, all the tokens are stored. -/
  all : (∀ c ∈ s.calls, c.i = c.lbaCount) →
    ∀ t, t ≠ 0 → t ≤ s.total → ∃ k i, s.Stores k i t
  /-- Every sector starts with its LBA. -/
  lba : ∀ c ∈ s.calls, ∀ i < c.i, c.buf.readLe (i * c.lbaSize) 8 = u64 (c.lba + i)
  /-- No other byte is changed. -/
  frame : ∀ c ∈ s.calls, ∀ j, (∀ i < c.i, j ∉ c.stamps i) → c.buf j = c.data j

/-! ### One call -/

/-- A call so far: it has the buffer that `buffer_fill_rawdata` gives for its first sectors. -/
structure FillCall.Filled (c : FillCall) : Prop where
  sizes : SectorsFit c.lbaCount c.lbaSize
  le : c.i ≤ c.lbaCount
  buf_eq : c.buf = bufferFillRawdata c.data c.token c.lba c.i c.lbaSize

namespace FillCall.Filled

variable {c : FillCall} {i j : Nat}

theorem fill (h : c.Filled) (hi : c.i < c.lbaCount) : c.fill.Filled where
  sizes := h.sizes
  le := hi
  buf_eq := by
    simp only [FillCall.fill, h.buf_eq]
    rfl

theorem offset_lt (h : c.Filled) : (c.i - 1) * c.lbaSize < 2 ^ 32 :=
  Nat.lt_of_le_of_lt (Nat.mul_le_mul_right _ (Nat.le_trans (Nat.sub_le _ _) h.le)) h.sizes.fit

theorem last_word (h : c.Filled) : 8 * (c.lbaSize / 8 - 1) = c.lbaSize - 8 := by
  obtain ⟨n, hn⟩ := h.sizes.words
  omega

theorem lba (h : c.Filled) (hi : i < c.i) :
    c.buf.readLe (i * c.lbaSize) 8 = u64 (c.lba + i) := by
  rw [h.buf_eq]
  exact bufferFillRawdata_lba h.sizes.two_words h.offset_lt hi

theorem token (h : c.Filled) (hi : i < c.i) :
    c.buf.readLe (i * c.lbaSize + (c.lbaSize - 8)) 8 = u64 (c.token + i) := by
  rw [h.buf_eq, ← h.last_word]
  exact bufferFillRawdata_token h.sizes.two_words h.offset_lt hi

theorem frame (h : c.Filled) (hj : ∀ i < c.i, j ∉ c.stamps i) : c.buf j = c.data j := by
  rw [h.buf_eq]
  refine bufferFillRawdata_of_not_mem h.offset_lt fun i hi => ?_
  have hsize := h.sizes.two_words
  have hnot := hj i hi
  rw [stamps, Set.mem_union, Set.mem_Ico, Set.mem_Ico, not_or] at hnot
  rw [h.last_word]
  exact ⟨hnot.1, by omega⟩

end FillCall.Filled

/-! ### The reservations -/

/-- The reservations tile the tokens, from 1 to the next one. -/
structure Reserves (s : TokenState) : Prop where
  follows : Follows id 1 s.reserved s.token
  token_eq : s.token = 1 + s.total
  lt : s.total < 2 ^ 64 - 1
  filled : ∀ c ∈ s.calls, c.Filled

variable {s s' : TokenState} {e : TokenEvent} {c : FillCall} {k i t : Nat}

theorem tokenStep_cases (h : tokenStep s e = some s') :
    (∃ pid buf lba lbaCount lbaSize, e = .call pid buf lba lbaCount lbaSize ∧
      s' = ⟨u64 (s.token + lbaCount),
        s.calls ++ [⟨pid, buf, lba, lbaCount, lbaSize, s.token, buf, 0⟩]⟩) ∨
    (∃ k c, s.calls[k]? = some c ∧ c.i < c.lbaCount ∧
      s' = { s with calls := s.calls.set k c.fill }) := by
  cases e with
  | call pid buf lba lbaCount lbaSize =>
    rw [tokenStep] at h
    split_ifs at h
    exact .inl ⟨_, _, _, _, _, rfl, (Option.some.inj h).symm⟩
  | sector k =>
    rw [tokenStep] at h
    split at h
    · cases h
    · rename_i c hc
      split_ifs at h with hi
      exact .inr ⟨k, c, hc, hi, (Option.some.inj h).symm⟩

/-- A call keeps what it has reserved. -/
theorem reserved_set (hc : s.calls[k]? = some c) :
    TokenState.reserved { s with calls := s.calls.set k c.fill } = s.reserved := by
  obtain ⟨hk, rfl⟩ := List.getElem?_eq_some_iff.1 hc
  have hk' : k < (s.calls.map fun c => (c.token, c.lbaCount)).length := by rwa [List.length_map]
  have hget : (s.calls[k].fill.token, s.calls[k].fill.lbaCount) =
      (s.calls.map fun c => (c.token, c.lbaCount))[k] := by
    rw [List.getElem_map]
    rfl
  rw [TokenState.reserved, TokenState.reserved, List.map_set, hget, List.set_getElem_self]

theorem Reserves.step (h : Reserves s) (he : TokensLast s e) (hs : tokenStep s e = some s') :
    Reserves s' := by
  obtain ⟨pid, buf, lba, lbaCount, lbaSize, rfl, rfl⟩ | ⟨k, c, hc, hi, rfl⟩ := tokenStep_cases hs
  · -- the new reservation starts at the next token
    obtain ⟨hsizes, hlt⟩ := he
    have htoken := h.token_eq
    have hnext : u64 (s.token + lbaCount) = s.token + lbaCount := u64_of_lt (by omega)
    have hreserved : TokenState.reserved ⟨u64 (s.token + lbaCount),
        s.calls ++ [⟨pid, buf, lba, lbaCount, lbaSize, s.token, buf, 0⟩]⟩ =
          s.reserved ++ [(s.token, lbaCount)] := by
      rw [TokenState.reserved, TokenState.reserved, List.map_append, List.map_singleton]
    have htotal : TokenState.total ⟨u64 (s.token + lbaCount),
        s.calls ++ [⟨pid, buf, lba, lbaCount, lbaSize, s.token, buf, 0⟩]⟩ =
          s.total + lbaCount := by
      rw [TokenState.total, hreserved, List.map_append, List.sum_append]
      simp [TokenState.total]
    refine ⟨?_, ?_, ?_, fun c hc => ?_⟩
    · rw [hreserved, hnext]
      exact h.follows.concat rfl
    · have hadd : s.token + lbaCount = 1 + (s.total + lbaCount) := by omega
      rw [htotal]
      exact hnext.trans hadd
    · rwa [htotal]
    · rcases List.mem_append.1 hc with hc | hc
      · exact h.filled c hc
      · obtain rfl := List.mem_singleton.1 hc
        exact ⟨hsizes, Nat.zero_le _, rfl⟩
  · have hreserved := reserved_set hc
    have htotal : TokenState.total { s with calls := s.calls.set k c.fill } = s.total := by
      rw [TokenState.total, hreserved, TokenState.total]
    refine ⟨hreserved ▸ h.follows, htotal ▸ h.token_eq, htotal ▸ h.lt, fun c' hc' => ?_⟩
    rcases List.mem_or_eq_of_mem_set hc' with hc' | rfl
    · exact h.filled c' hc'
    · exact (h.filled c (List.mem_of_getElem? hc)).fill hi

theorem reserves_of_reachable (h : tokenMachine.Reachable TokensLast s) : Reserves s := by
  refine h.invariant ?_ fun s e s' ih he hs => ih.step he hs
  rintro _ rfl
  exact ⟨rfl, rfl, by decide, fun c hc => absurd hc List.not_mem_nil⟩

/-! ### The tokens -/

/-- A stored token is one that is reserved by its call. -/
theorem Reserves.stores_iff (h : Reserves s) (hc : s.calls[k]? = some c) (hi : i < c.i) :
    s.Stores k i t ↔ t = c.token + i := by
  have hmem := List.mem_of_getElem? hc
  have hle := (h.filled c hmem).le
  have hlt : c.token + i < s.token := by
    have hin : c.token + i ∈ ⋃ x ∈ s.reserved, interval x :=
      Set.mem_biUnion (List.mem_map_of_mem hmem) ⟨Nat.le_add_right _ _, by simp; omega⟩
    rw [h.follows.iUnion_eq] at hin
    exact hin.2
  have hword := (h.filled c hmem).token hi
  have hbound := h.lt
  have htoken := h.token_eq
  rw [u64_of_lt (by omega)] at hword
  constructor
  · rintro ⟨c', hc', -, rfl⟩
    obtain rfl := Option.some.inj (hc.symm.trans hc')
    exact hword
  · rintro rfl
    exact ⟨c, hc, hi, hword⟩

theorem Reserves.stores_eq (h : Reserves s) (hs : s.Stores k i t) :
    ∃ c, s.calls[k]? = some c ∧ i < c.i ∧ t = c.token + i ∧
      t ∈ interval (c.token, c.lbaCount) := by
  obtain ⟨c, hc, hi, hword⟩ := hs
  have ht := (h.stores_iff hc hi).1 ⟨c, hc, hi, hword⟩
  have hle := (h.filled c (List.mem_of_getElem? hc)).le
  exact ⟨c, hc, hi, ht, by rw [ht]; exact ⟨Nat.le_add_right _ _, by simp; omega⟩⟩

/-- Two calls do not reserve the same token. -/
theorem Reserves.eq_of_mem {k' : Nat} {c' : FillCall} (h : Reserves s)
    (hc : s.calls[k]? = some c) (hc' : s.calls[k']? = some c')
    (ht : t ∈ interval (c.token, c.lbaCount)) (ht' : t ∈ interval (c'.token, c'.lbaCount)) :
    k = k' := by
  have hdisj := List.pairwise_map.1 h.follows.pairwise_disjoint
  rw [List.pairwise_iff_getElem] at hdisj
  obtain ⟨hk, rfl⟩ := List.getElem?_eq_some_iff.1 hc
  obtain ⟨hk', rfl⟩ := List.getElem?_eq_some_iff.1 hc'
  rcases Nat.lt_trichotomy k k' with hlt | rfl | hlt
  · exact absurd ⟨ht, ht'⟩ (Set.eq_empty_iff_forall_notMem.1 (hdisj k k' hk hk' hlt) t)
  · rfl
  · exact absurd ⟨ht', ht⟩ (Set.eq_empty_iff_forall_notMem.1 (hdisj k' k hk' hk hlt) t)

/-- In every interleaving of the calls, the tokens are unique. -/
theorem buffer_tokens_unique (h : tokenMachine.Reachable TokensLast s) : TokensUnique s := by
  have hr := reserves_of_reachable h
  have hunion := hr.follows.iUnion_eq
  have htoken := hr.token_eq
  refine ⟨?_, ?_, ?_, fun c hc i hi => (hr.filled c hc).lba hi,
    fun c hc j hj => (hr.filled c hc).frame hj⟩
  · intro k i k' i' t hs hs'
    obtain ⟨c, hc, -, ht, hmem⟩ := hr.stores_eq hs
    obtain ⟨c', hc', -, ht', hmem'⟩ := hr.stores_eq hs'
    obtain rfl := hr.eq_of_mem hc hc' hmem hmem'
    obtain rfl := Option.some.inj (hc.symm.trans hc')
    exact ⟨rfl, by omega⟩
  · intro k i t hs
    obtain ⟨c, hc, -, -, hmem⟩ := hr.stores_eq hs
    have hin : t ∈ ⋃ x ∈ s.reserved, interval x :=
      Set.mem_biUnion (List.mem_map_of_mem (List.mem_of_getElem? hc)) hmem
    rw [hunion, Set.mem_Ico] at hin
    omega
  · intro hdone t h0 hle
    have hin : t ∈ Set.Ico 1 s.token := ⟨Nat.one_le_iff_ne_zero.2 h0, by omega⟩
    rw [← hunion] at hin
    obtain ⟨x, hx, hmem⟩ := Set.mem_iUnion₂.1 hin
    obtain ⟨c, hc, rfl⟩ := List.mem_map.1 hx
    obtain ⟨k, hk⟩ := List.mem_iff_getElem?.1 hc
    have hmem' : c.token ≤ t ∧ t < c.token + c.lbaCount := hmem
    have hi : t - c.token < c.i := by
      rw [hdone c hc]
      omega
    exact ⟨k, t - c.token, (hr.stores_iff hk hi).2 (by omega)⟩

/-- Two processes stamp their buffers, of two sectors and of one, at the same time. -/
def twoFills : List TokenEvent :=
  [.call 0 (fun _ => 0#8) 0 2 512, .call 1 (fun _ => 0#8) 8 1 512, .sector 0, .sector 1, .sector 0]

/-- The tokens 1 to 3 are stored in their buffers. -/
theorem buffer_tokens_unique_twoFills : ∃ s, tokenMachine.Reachable TokensLast s ∧
    (s.total, s.calls.map FillCall.i) = (3, [2, 1]) ∧ TokensUnique s := by
  have hstart : tokenMachine.Reachable TokensLast ⟨1, []⟩ := .init rfl
  have hadmits : tokenMachine.Admits TokensLast ⟨1, []⟩ twoFills :=
    .cons ⟨⟨by decide, by decide, by decide⟩, by decide⟩ rfl <|
      .cons ⟨⟨by decide, by decide, by decide⟩, by decide⟩ rfl <|
      ⟨trivial, fun _ _ => ⟨trivial, fun _ _ => ⟨trivial, fun _ _ => trivial⟩⟩⟩
  obtain ⟨s, hs, h⟩ := hstart.exists_run (f := fun s => (s.total, s.calls.map FillCall.i))
    twoFills hadmits rfl
  exact ⟨s, hs, h, buffer_tokens_unique hs⟩

end Pynvme
