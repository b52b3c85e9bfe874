import Mathlib.Algebra.Order.Ring.Int
import Mathlib.Tactic.Common

/-!
# Slices

A slice `start:stop:step` of a sequence of `len` elements, as in Python: a negative bound
counts from the end, both are clipped to the sequence (`Slice.clip`), and a bound that is
left out is an end of it, in the direction of the step. The slice selects the indices from
the first bound on, up to the second, which is not selected (`Slice.select`).

Whatever the bounds are, the indices selected are in the sequence
(`Slice.bounds_of_mem_select`).
-/

/-- The bounds and the step, if they are given. -/
structure Slice where
  start : Option Int
  stop : Option Int
  step : Option Int

namespace Slice

/-- The step, 1 by default. -/
def stride (s : Slice) : Int := s.step.getD 1

/-- A given bound, in a sequence of `len` elements whose bounds are from `lower` to `upper`. -/
def clip (lower upper : Int) (len : Nat) (bound : Int) : Int :=
  if bound < 0 then max (bound + len) lower else min bound upper

/-- The first index, in a sequence of `len` elements. -/
def first (s : Slice) (len : Nat) : Int :=
  if s.stride < 0 then (s.start.map (clip (-1) (len - 1) len)).getD (len - 1)
  else (s.start.map (clip 0 len len)).getD 0

/-- The bound of the indices in the direction of the step. -/
def last (s : Slice) (len : Nat) : Int :=
  if s.stride < 0 then (s.stop.map (clip (-1) (len - 1) len)).getD (-1)
  else (s.stop.map (clip 0 len len)).getD len

/-- The number of steps from `first` that stay before `last`. -/
def count (s : Slice) (len : Nat) : Nat :=
  if s.stride < 0 then
    if s.last len < s.first len then ((s.first len - s.last len - 1) / -s.stride + 1).toNat else 0
  else
    if s.first len < s.last len then ((s.last len - s.first len - 1) / s.stride + 1).toNat else 0

/-- The indices selected, if the step is not 0. -/
def select (s : Slice) (len : Nat) : List Int :=
  (List.range (s.count len)).map fun i : Nat => s.first len + i * s.stride

variable {s : Slice} {len : Nat}

@[simp] theorem length_select (s : Slice) (len : Nat) : (s.select len).length = s.count len := by
  simp [select]

@[simp] theorem getElem_select {i : Nat} (h : i < (s.select len).length) :
    (s.select len)[i] = s.first len + i * s.stride := by
  simp [select]

theorem mem_select {a : Int} :
    a ∈ s.select len ↔ ∃ i < s.count len, a = s.first len + (i : Int) * s.stride := by
  simp only [select, List.mem_map, List.mem_range, eq_comm]

/-- The bounds of a slice down, and of a slice up, are clipped to the sequence. -/
theorem clip_bounds (len : Nat) (bound : Int) :
    (-1 ≤ clip (-1) (len - 1) len bound ∧ clip (-1) (len - 1) len bound < len) ∧
      0 ≤ clip 0 len len bound ∧ clip 0 len len bound ≤ len := by
  rw [clip, clip]
  split_ifs <;> omega

/-- The first index is in the sequence, if the slice goes down from it; else it is not below. -/
theorem first_bounds (s : Slice) (len : Nat) :
    (s.stride < 0 → s.first len < len) ∧ (0 ≤ s.stride → 0 ≤ s.first len) := by
  rw [first]
  constructor
  · intro hneg
    rw [if_pos hneg]
    rcases s.start with _ | start
    · simp
    · exact (clip_bounds len start).1.2
  · intro hpos
    rw [if_neg (Int.not_lt.2 hpos)]
    rcases s.start with _ | start
    · simp
    · exact (clip_bounds len start).2.1

/-- The bound is not beyond the sequence. -/
theorem last_bounds (s : Slice) (len : Nat) :
    (s.stride < 0 → -1 ≤ s.last len) ∧ (0 ≤ s.stride → s.last len ≤ len) := by
  rw [last]
  constructor
  · intro hneg
    rw [if_pos hneg]
    rcases s.stop with _ | stop
    · simp
    · exact (clip_bounds len stop).1.1
  · intro hpos
    rw [if_neg (Int.not_lt.2 hpos)]
    rcases s.stop with _ | stop
    · simp
    · exact (clip_bounds len stop).2.2

/-- What is selected is in the sequence. -/
theorem bounds_of_mem_select (hstep : s.stride ≠ 0) {a : Int} (h : a ∈ s.select len) :
    0 ≤ a ∧ a < len := by
  obtain ⟨i, hi, rfl⟩ := mem_select.1 h
  obtain ⟨hfirst, hfirst'⟩ := s.first_bounds len
  obtain ⟨hlast, hlast'⟩ := s.last_bounds len
  rw [count] at hi
  rcases Int.lt_or_gt_of_ne hstep with hneg | hpos
  · have := hfirst hneg
    have := hlast hneg
    rw [if_pos hneg] at hi
    split_ifs at hi with hlt
    · have hdiv := Int.ediv_mul_le (s.first len - s.last len - 1) (show -s.stride ≠ 0 by omega)
      have hle : (i : Int) ≤ (s.first len - s.last len - 1) / -s.stride := by omega
      have hmul := Int.mul_le_mul_of_nonneg_right hle (show 0 ≤ -s.stride by omega)
      have hdown : (i : Int) * s.stride ≤ 0 :=
        Int.mul_nonpos_of_nonneg_of_nonpos (by omega) (by omega)
      rw [Int.mul_neg] at hmul
      omega
    · exact absurd hi (Nat.not_lt_zero i)
  · have := hfirst' hpos.le
    have := hlast' hpos.le
    rw [if_neg (Int.not_lt.2 hpos.le)] at hi
    split_ifs at hi with hlt
    · have hdiv := Int.ediv_mul_le (s.last len - s.first len - 1) hstep
      have hle : (i : Int) ≤ (s.last len - s.first len - 1) / s.stride := by omega
      have hmul := Int.mul_le_mul_of_nonneg_right hle hpos.le
      have hup : 0 ≤ (i : Int) * s.stride := Int.mul_nonneg (by omega) hpos.le
      omega
    · exact absurd hi (Nat.not_lt_zero i)

/-- The slice of the `n` elements from `a` on. -/
theorem select_span {a n : Nat} (h : a + n ≤ len) :
    select ⟨some (a : Int), some ((a : Int) + n), none⟩ len =
      (List.range n).map fun k : Nat => (a : Int) + k := by
  have hstride : stride ⟨some (a : Int), some ((a : Int) + n), none⟩ = 1 := rfl
  have hfirst : first ⟨some (a : Int), some ((a : Int) + n), none⟩ len = a := by
    rw [first, hstride, if_neg (by decide)]
    simp only [clip, Option.map_some, Option.getD_some]
    omega
  have hlast : last ⟨some (a : Int), some ((a : Int) + n), none⟩ len = a + n := by
    rw [last, hstride, if_neg (by decide)]
    simp only [clip, Option.map_some, Option.getD_some]
    omega
  have hcount : count ⟨some (a : Int), some ((a : Int) + n), none⟩ len = n := by
    rw [count, hstride, hfirst, hlast, if_neg (by decide)]
    split_ifs <;> omega
  simp only [select, hstride, hfirst, hcount, Int.mul_one]

end Slice
