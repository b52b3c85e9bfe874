import Mathlib.Data.Fintype.Pigeonhole
import Mathlib.Logic.Function.Iterate
import Mathlib.Tactic.Common

/-!
# Loops without a bound

A loop goes from state to state by `next`, until a state has a result, by `stop`.
`run stop next n a` is the result of the loop from `a`, if it comes within `n`
iterations; the loop *returns* `b` if it comes within some number of them.

* `returns_iff`: the result is that of the first state that has one;
* `halts_iff_of_finite`: with finitely many states, a loop returns exactly if it comes to
  no state twice before;
* `run_map`: a loop whose states and results are images of those of another loop does
  what the other does.
-/

namespace While

variable {α β α' β' : Type*} (stop : α → Option β) (next : α → α)

/-- The result of at most `n` iterations from `a`. -/
def run : Nat → α → Option β
  | 0, _ => none
  | n + 1, a =>
    match stop a with
    | some b => some b
    | none => run n (next a)

/-- The loop from `a` returns `b`. -/
def Returns (a : α) (b : β) : Prop := ∃ n, run stop next n a = some b

/-- The loop from `a` comes to an end. -/
def Halts (a : α) : Prop := ∃ b, Returns stop next a b

variable {stop next} {a : α} {b : β}

theorem run_eq_some_iff {n : Nat} : run stop next n a = some b ↔
    ∃ k < n, stop (next^[k] a) = some b ∧ ∀ i < k, stop (next^[i] a) = none := by
  induction n generalizing a with
  | zero => simp [run]
  | succ n ih =>
    rw [run]
    cases hs : stop a with
    | some c =>
      constructor
      · rintro ⟨⟩
        exact ⟨0, Nat.succ_pos n, hs, by simp⟩
      · rintro ⟨k, -, hk, hbefore⟩
        rcases Nat.eq_zero_or_pos k with rfl | hpos
        · exact hs.symm.trans hk
        · have h0 : stop a = none := hbefore 0 hpos
          rw [hs] at h0
          cases h0
    | none =>
      dsimp only
      rw [ih]
      constructor
      · rintro ⟨k, hk, hstop, hbefore⟩
        refine ⟨k + 1, Nat.succ_lt_succ hk, hstop, fun i hi => ?_⟩
        cases i with
        | zero => exact hs
        | succ i => exact hbefore i (Nat.lt_of_succ_lt_succ hi)
      · rintro ⟨k, hk, hstop, hbefore⟩
        cases k with
        | zero =>
          have h0 : stop a = some b := hstop
          rw [hs] at h0
          cases h0
        | succ k =>
          exact ⟨k, Nat.lt_of_succ_lt_succ hk, hstop,
            fun i hi => hbefore (i + 1) (Nat.succ_lt_succ hi)⟩

/-- The result is that of the first state that has one. -/
theorem returns_iff : Returns stop next a b ↔
    ∃ k, stop (next^[k] a) = some b ∧ ∀ i < k, stop (next^[i] a) = none := by
  simp only [Returns, run_eq_some_iff]
  exact ⟨fun ⟨_, k, _, h⟩ => ⟨k, h⟩, fun ⟨k, h⟩ => ⟨k + 1, k, Nat.lt_succ_self k, h⟩⟩

/-- A loop has one result. -/
theorem Returns.unique {c : β} (hb : Returns stop next a b) (hc : Returns stop next a c) :
    b = c := by
  obtain ⟨k, hk, hbefore⟩ := returns_iff.1 hb
  obtain ⟨k', hk', hbefore'⟩ := returns_iff.1 hc
  rcases Nat.lt_trichotomy k k' with hlt | rfl | hlt
  · rw [hbefore' k hlt] at hk
    cases hk
  · exact Option.some.inj (hk.symm.trans hk')
  · rw [hbefore k' hlt] at hk'
    cases hk'

/-- Loops that agree in the states that they come to. -/
theorem run_congr {stop' : α → Option β} {next' : α → α} {n : Nat}
    (hstop : ∀ k, stop' (next^[k] a) = stop (next^[k] a))
    (hnext : ∀ k, next' (next^[k] a) = next (next^[k] a)) :
    run stop' next' n a = run stop next n a := by
  induction n generalizing a with
  | zero => rfl
  | succ n ih =>
    rw [run, run, show stop' a = stop a from hstop 0, show next' a = next a from hnext 0,
      ih (fun k => hstop (k + 1)) fun k => hnext (k + 1)]

theorem halts_iff : Halts stop next a ↔ ∃ k, stop (next^[k] a) ≠ none := by
  classical
  simp only [Halts, returns_iff]
  constructor
  · rintro ⟨b, k, hk, -⟩
    exact ⟨k, by simp [hk]⟩
  · intro h
    obtain ⟨b, hb⟩ := Option.ne_none_iff_exists'.1 (Nat.find_spec h)
    exact ⟨b, Nat.find h, hb, fun i hi => not_not.1 (Nat.find_min h hi)⟩

/-- After a repetition there are no new states. -/
theorem exists_lt_iterate_eq {i j : Nat} (hij : i < j) (h : next^[i] a = next^[j] a) (m : Nat) :
    ∃ k < j, next^[m] a = next^[k] a := by
  induction m with
  | zero => exact ⟨0, Nat.zero_lt_of_lt hij, rfl⟩
  | succ m ih =>
    obtain ⟨k, hk, hm⟩ := ih
    rw [Function.iterate_succ_apply', hm, ← Function.iterate_succ_apply' next k a]
    rcases Nat.lt_or_eq_of_le (Nat.succ_le_of_lt hk) with hlt | heq
    · exact ⟨k + 1, hlt, rfl⟩
    · exact ⟨i, hij, by rw [h, ← heq]⟩

/-- A loop with finitely many states returns if and only if no state comes twice before one
    that has a result. -/
theorem halts_iff_of_finite [Finite α] : Halts stop next a ↔
    ∀ i j, i < j → next^[i] a = next^[j] a → ∃ k < j, stop (next^[k] a) ≠ none := by
  rw [halts_iff]
  constructor
  · rintro ⟨m, hm⟩ i j hij h
    obtain ⟨k, hk, heq⟩ := exists_lt_iterate_eq hij h m
    exact ⟨k, hk, heq ▸ hm⟩
  · intro h
    obtain ⟨i, j, hne, heq⟩ := Finite.exists_ne_map_eq_of_infinite fun k => next^[k] a
    rcases Nat.lt_or_gt_of_ne hne with hij | hij
    · obtain ⟨k, -, hk⟩ := h i j hij heq
      exact ⟨k, hk⟩
    · obtain ⟨k, -, hk⟩ := h j i hij heq.symm
      exact ⟨k, hk⟩

/-! ### Simulation -/

variable {stop' : α' → Option β'} {next' : α' → α'} {f : α → α'} {g : β → β'}

theorem run_map (hstop : ∀ a, stop' (f a) = (stop a).map g)
    (hnext : ∀ a, stop a = none → next' (f a) = f (next a)) (n : Nat) (a : α) :
    run stop' next' n (f a) = (run stop next n a).map g := by
  induction n generalizing a with
  | zero => rfl
  | succ n ih =>
    rw [run, run, hstop]
    cases hs : stop a with
    | some b => rfl
    | none =>
      simp only [Option.map_none]
      rw [hnext a hs, ih]

theorem returns_map_iff (hstop : ∀ a, stop' (f a) = (stop a).map g)
    (hnext : ∀ a, stop a = none → next' (f a) = f (next a)) {c : β'} :
    Returns stop' next' (f a) c ↔ ∃ b, Returns stop next a b ∧ g b = c := by
  simp only [Returns, run_map hstop hnext, Option.map_eq_some_iff]
  exact ⟨fun ⟨n, b, hb, hg⟩ => ⟨b, ⟨n, hb⟩, hg⟩, fun ⟨b, ⟨n, hb⟩, hg⟩ => ⟨n, b, hb, hg⟩⟩

theorem halts_map_iff (hstop : ∀ a, stop' (f a) = (stop a).map g)
    (hnext : ∀ a, stop a = none → next' (f a) = f (next a)) :
    Halts stop' next' (f a) ↔ Halts stop next a := by
  simp only [Halts, returns_map_iff hstop hnext]
  exact ⟨fun ⟨_, b, hb, _⟩ => ⟨b, hb⟩, fun ⟨b, hb⟩ => ⟨g b, b, hb, rfl⟩⟩

end While
