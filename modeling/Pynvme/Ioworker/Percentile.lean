import Pynvme.Lib.Cumulative
import Pynvme.Script.Python
import Mathlib.Data.Rat.Floor

/-!
# Percentile latencies

A worker counts its IOs by latency, and `_IOWorker.find_percentile_latency` looks for the
latency that `k` percent of the IOs have at most: the first one with a cumulative count of at
least `k` percent of the total, which it rounds down.

`percentile_latency_iff`: the result is the nearest-rank percentile if and only if no
cumulative count is less than one IO short of `k` percent of the total; and it does not
decrease with `k`.
-/

namespace Pynvme

open Cumulative

/-- The loop of `_IOWorker.find_percentile_latency`, from the latency `l` on. -/
def findLatency (target : Int) : Nat → Int → List Nat → Except PyError Nat
  | _, _, [] => .error (.assertion "should find the latency in the loop")
  | l, total, c :: counts =>
    let total := total + c
    if total ≥ target then .ok l else findLatency target (l + 1) total counts

/-- `_IOWorker.find_percentile_latency`, of a percentage that is an integer, or a float that is
    multiplied without rounding. -/
def findPercentileLatency (k : ℚ) (outputIoPerLatency : List Nat) : Except PyError Nat :=
  findLatency ⌊(outputIoPerLatency.sum : ℚ) * k / 100⌋ 0 0 outputIoPerLatency

/-- The smallest latency that at least `k` percent of the IOs have at most. -/
structure NearestRank (hist : List Nat) (k l : Nat) : Prop where
  lt : l < hist.length
  enough : k * hist.sum ≤ 100 * upTo hist l
  least : ∀ l' < l, 100 * upTo hist l' < k * hist.sum

/-- The latency that is returned is the nearest-rank percentile, and that of an IO. -/
def ReturnsNearestRank (hist : List Nat) (k : Nat) : Prop :=
  ∃ l, findPercentileLatency k hist = .ok l ∧ NearestRank hist k l ∧ hist.getD l 0 ≠ 0

variable {hist counts : List Nat} {k k' l l' i t total : Nat}

theorem findLatency_of_isFirst (h : IsFirst counts (t - total) i) :
    findLatency t l total counts = .ok (l + i) := by
  induction counts generalizing l total i with
  | nil => exact absurd h.lt (Nat.not_lt_zero i)
  | cons c counts ih =>
    rw [findLatency]
    rcases Nat.lt_or_ge c (t - total) with hc | hc
    · -- The count at `l` is not enough.
      rw [if_neg (by omega)]
      rcases i with _ | i
      · have hle := h.le
        rw [upTo_cons_zero] at hle
        omega
      · have hnext : IsFirst counts (t - (total + c)) i := by
          rw [Nat.sub_add_eq]
          exact (isFirst_cons_succ hc).1 h
        have hfind := ih (l := l + 1) hnext
        rw [Nat.cast_add] at hfind
        rw [hfind, Nat.add_assoc, Nat.add_comm 1 i]
    · rw [if_pos (by omega), h.unique (isFirst_cons_zero hc), Nat.add_zero]

/-- The target is the rank, rounded down. -/
theorem floor_rank (k n : Nat) : ⌊(n : ℚ) * k / 100⌋ = (n * k / 100 : Nat) := by
  have hcast : (n : ℚ) * k / 100 = ((n * k : Nat) : ℚ) / (100 : Nat) := by push_cast; rfl
  rw [hcast, Rat.floor_natCast_div_natCast]
  rfl

/-- The first latency with a cumulative count of the rank, rounded down. -/
theorem findPercentileLatency_eq_ok (htotal : 0 < hist.sum) (hk : k ≤ 100) :
    findPercentileLatency k hist = .ok l ↔ IsFirst hist (hist.sum * k / 100) l := by
  have hne : hist ≠ [] := by
    rintro rfl
    exact absurd htotal (by decide)
  have hle : hist.sum * k / 100 ≤ hist.sum :=
    Nat.div_le_of_le_mul (by rw [Nat.mul_comm 100]; exact Nat.mul_le_mul_left _ hk)
  obtain ⟨i, hi⟩ := exists_isFirst hne hle
  have hfind : findPercentileLatency k hist = .ok i := by
    have hi₀ : IsFirst hist (hist.sum * k / 100 - 0) i := by rwa [Nat.sub_zero]
    have hfirst := findLatency_of_isFirst (l := 0) hi₀
    rw [findPercentileLatency, floor_rank]
    simpa using hfirst
  rw [hfind, Except.ok.injEq]
  exact ⟨fun heq => heq ▸ hi, fun hl => hi.unique hl⟩

/-- The nearest rank is the rank, rounded up. -/
theorem nearestRank_iff : NearestRank hist k l ↔ IsFirst hist ((hist.sum * k + 99) / 100) l := by
  have hcomm : k * hist.sum = hist.sum * k := Nat.mul_comm _ _
  constructor
  · rintro ⟨hlt, henough, hleast⟩
    refine ⟨hlt, by omega, fun j hj => ?_⟩
    have := hleast j hj
    omega
  · rintro ⟨hlt, hle, hbefore⟩
    refine ⟨hlt, by omega, fun j hj => ?_⟩
    have := hbefore j hj
    omega

theorem returnsNearestRank_iff (htotal : 0 < hist.sum) (hk : 1 ≤ k) (hk' : k ≤ 99) :
    ReturnsNearestRank hist k ↔ ∀ l < hist.length,
      ¬(100 * upTo hist l < k * hist.sum ∧ k * hist.sum < 100 * (upTo hist l + 1)) := by
  have hcomm : k * hist.sum = hist.sum * k := Nat.mul_comm _ _
  have hrank : 0 < hist.sum * k := Nat.mul_pos htotal hk
  have hequiv : ReturnsNearestRank hist k ↔
      ∃ l, IsFirst hist (hist.sum * k / 100) l ∧ IsFirst hist ((hist.sum * k + 99) / 100) l := by
    simp only [ReturnsNearestRank, findPercentileLatency_eq_ok htotal (Nat.le_succ_of_le hk'),
      nearestRank_iff]
    exact exists_congr fun l =>
      ⟨fun h => ⟨h.1, h.2.1⟩, fun h => ⟨h.1, h.2, h.2.getElem_ne_zero (by omega)⟩⟩
  obtain ⟨i, hi⟩ : ∃ i, IsFirst hist (hist.sum * k / 100) i := by
    refine exists_isFirst (fun hnil => ?_) (Nat.div_le_of_le_mul ?_)
    · rw [hnil] at htotal
      exact absurd htotal (by decide)
    · rw [Nat.mul_comm 100]
      exact Nat.mul_le_mul_left _ (by omega)
  rw [hequiv, hcomm]
  rcases Nat.eq_zero_or_pos (hist.sum * k % 100) with hzero | hpos
  · -- The rank is not rounded.
    have hsame : (hist.sum * k + 99) / 100 = hist.sum * k / 100 := by omega
    exact iff_of_true ⟨i, hi, hsame ▸ hi⟩ fun l _ => by omega
  · have hsucc : (hist.sum * k + 99) / 100 = hist.sum * k / 100 + 1 := by omega
    have hfirst : (∃ l, IsFirst hist (hist.sum * k / 100) l ∧
        IsFirst hist (hist.sum * k / 100 + 1) l) ↔ IsFirst hist (hist.sum * k / 100 + 1) i :=
      ⟨fun ⟨l, hl, hl'⟩ => hi.unique hl ▸ hl', fun hl => ⟨i, hi, hl⟩⟩
    rw [hsucc, hfirst, hi.succ_iff]
    exact forall₂_congr fun l _ => by omega

/-- The percentile latency is right if and only if no cumulative count is less than one IO short
    of the rank; and it does not decrease with the percentage. -/
theorem percentile_latency_iff (htotal : 0 < hist.sum) :
    (∀ k, 1 ≤ k → k ≤ 99 → (ReturnsNearestRank hist k ↔ ∀ l < hist.length,
      ¬(100 * upTo hist l < k * hist.sum ∧ k * hist.sum < 100 * (upTo hist l + 1)))) ∧
    ∀ k k' l l' : Nat, k ≤ k' → k' ≤ 99 → findPercentileLatency k hist = .ok l →
      findPercentileLatency k' hist = .ok l' → l ≤ l' := by
  refine ⟨fun k => returnsNearestRank_iff htotal, fun k k' l l' hle hk' hl hl' => ?_⟩
  rw [findPercentileLatency_eq_ok htotal (by omega)] at hl hl'
  exact hl.mono hl' (Nat.div_le_div_right (Nat.mul_le_mul_left _ hle))

/-- Two IOs of 3 and 5 microseconds: half of them have a latency of at most 3. -/
theorem percentile_latency_half : ReturnsNearestRank [0, 0, 0, 1, 0, 1] 50 :=
  ((percentile_latency_iff (by decide)).1 50 (by decide) (by decide)).2 (by decide)

/-- One IO of 5 microseconds: the result is 0, the latency of no IO. -/
theorem percentile_latency_one_io : findPercentileLatency 50 [0, 0, 0, 0, 0, 1] = .ok 0 ∧
    ¬ReturnsNearestRank [0, 0, 0, 0, 0, 1] 50 := by
  have hfind : findPercentileLatency ((50 : Nat) : ℚ) [0, 0, 0, 0, 0, 1] = .ok 0 :=
    (findPercentileLatency_eq_ok (by decide) (by decide)).2 ⟨by decide, by decide, by decide⟩
  refine ⟨hfind, ?_⟩
  rintro ⟨l, hl, -, hbucket⟩
  obtain rfl : 0 = l := Except.ok.inj (hfind.symm.trans hl)
  exact hbucket rfl

end Pynvme
