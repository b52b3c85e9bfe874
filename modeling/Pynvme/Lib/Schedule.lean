import Mathlib.Data.Int.Order.Basic
import Mathlib.Data.List.Induction
import Mathlib.Tactic.Common

/-!
# Schedules of a rate

A schedule of the rate of `n` events in `m` units of time sets the events apart by a
delay (`Spaced`). By a time `t` after the start, `n * t / m` of them should be due, or
`q` more if a burst of these is allowed.

A delay in whole units is rounded down to `m / n`, so that the events come too fast by
the rest `m % n` each, and exceed the burst when there are enough of them
(`Spaced.rate_iff`).
-/

namespace Schedule

variable {l : List Int} {start x : Int} {d t : Nat}

/-- The times follow `start`, each by `d` after the one before. -/
def Spaced (start : Int) (d : Nat) (l : List Int) : Prop :=
  ∀ (i : Nat) (x : Int), l[i]? = some x → x = start + (i + 1) * d

theorem Spaced.concat (h : Spaced start d l) (hx : x = start + (l.length + 1) * d) :
    Spaced start d (l ++ [x]) := by
  intro i y hy
  rcases Nat.lt_trichotomy i l.length with hlt | rfl | hgt
  · rw [List.getElem?_append_left hlt] at hy
    exact h i y hy
  · rw [List.getElem?_append_right (Nat.le_refl _), Nat.sub_self] at hy
    obtain rfl : x = y := Option.some.inj hy
    exact hx
  · rw [List.getElem?_eq_none (by simp; omega)] at hy
    cases hy

theorem Spaced.of_concat (h : Spaced start d (l ++ [x])) :
    Spaced start d l ∧ x = start + (l.length + 1) * d := by
  refine ⟨fun i y hy => h i y ?_, h l.length x (by simp)⟩
  rw [List.getElem?_append_left (List.getElem?_eq_some_iff.1 hy).1, hy]

/-- The number of the times that are due by `t` after the start. -/
def due (start : Int) (l : List Int) (t : Nat) : Nat := l.countP fun x => x ≤ start + t

theorem due_le_length (start : Int) (l : List Int) (t : Nat) : due start l t ≤ l.length :=
  List.countP_le_length

/-- The times that are due are not more than the delays in `t`. -/
theorem Spaced.due_mul_le (h : Spaced start d l) (t : Nat) : due start l t * d ≤ t := by
  induction l using List.reverseRecOn with
  | nil => simp [due]
  | append_singleton l x ih =>
    obtain ⟨hl, hx⟩ := h.of_concat
    rw [due, List.countP_append, List.countP_singleton]
    split_ifs with hle
    · calc (due start l t + 1) * d
          ≤ (l.length + 1) * d :=
            Nat.mul_le_mul_right d (Nat.succ_le_succ (due_le_length start l t))
        _ ≤ t := by
          rw [decide_eq_true_eq, hx] at hle
          exact_mod_cast Int.le_of_add_le_add_left hle
    · exact ih hl

/-- By the last of the times, all are due. -/
theorem Spaced.due_length (h : Spaced start d l) : due start l (l.length * d) = l.length := by
  refine List.countP_eq_length.2 fun x hx => ?_
  obtain ⟨i, hi⟩ := List.getElem?_of_mem hx
  have hlt : i + 1 ≤ l.length := (List.getElem?_eq_some_iff.1 hi).1
  have hle : (i + 1) * d ≤ l.length * d := Nat.mul_le_mul_right d hlt
  rw [decide_eq_true_eq, h i x hi]
  exact Int.add_le_add_left (by exact_mod_cast hle) start

/-- Times apart by the delay `m / n` keep the rate, with a burst of `q`, exactly if the rests of
    all of them do not add up to more than the time of the burst. -/
theorem Spaced.rate_iff {m n q : Nat} (h : Spaced start (m / n) l) :
    (∀ t, due start l t * m ≤ n * t + q * m) ↔ l.length * (m % n) ≤ q * m := by
  have hm : n * (m / n) + m % n = m := Nat.div_add_mod m n
  have hsplit : ∀ c, c * m = n * (c * (m / n)) + c * (m % n) := by
    intro c
    calc c * m = c * (n * (m / n) + m % n) := by rw [hm]
      _ = n * (c * (m / n)) + c * (m % n) := by rw [Nat.mul_add, Nat.mul_left_comm]
  constructor
  · intro hrate
    have hlast := hrate (l.length * (m / n))
    rw [h.due_length, hsplit l.length] at hlast
    omega
  · intro hrest t
    have hdelays : n * (due start l t * (m / n)) ≤ n * t := Nat.mul_le_mul_left n (h.due_mul_le t)
    have hrests : due start l t * (m % n) ≤ l.length * (m % n) :=
      Nat.mul_le_mul_right _ (due_le_length start l t)
    rw [hsplit]
    omega

end Schedule
