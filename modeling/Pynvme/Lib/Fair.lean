import Mathlib.Algebra.Order.Ring.Nat
import Pynvme.Lib.Machine

/-!
# Infinite runs

An *infinite run* of a machine is a sequence of states, each the next one after the
last by an event that a rule admits (`Machine.IsRun`).

What is certain to happen in a run, under assumptions on the events that occur again and
again, is shown in two steps.

* What holds until something else does, and at some time makes it so, is followed by it
  (`Machine.ensures`).
* A measure that is lower later, as long as the goal is not reached, leads to the goal
  (`Machine.leadsTo`).
-/

namespace Machine

variable {S E : Type*} {m : Machine S E} {P : S → E → Prop}

/-- The states `state` and the events `event` are an infinite run under the rule `P`. -/
structure IsRun (m : Machine S E) (P : S → E → Prop) (state : Nat → S) (event : Nat → E) :
    Prop where
  admitted : ∀ n, P (state n) (event n)
  step : ∀ n, m.step (state n) (event n) = some (state (n + 1))

/-- The states of a run from a state that is reached are reached. -/
theorem IsRun.reachable {Q : S → E → Prop} {state : Nat → S} {event : Nat → E}
    (h : m.IsRun P state event) (h₀ : m.Reachable Q (state 0)) (hPQ : ∀ s e, P s e → Q s e)
    (n : Nat) : m.Reachable Q (state n) := by
  induction n with
  | zero => exact h₀
  | succ n ih => exact .step ih (hPQ _ _ (h.admitted n)) (h.step n)

variable {p q : Nat → Prop} {n i : Nat}

/-- What holds unless `q` does, and makes `q` hold after the time `i`, is followed by `q`. -/
theorem ensures (hi : n ≤ i) (hp : p n) (hunless : ∀ j, n ≤ j → p j → p (j + 1) ∨ q (j + 1))
    (hact : p i → q (i + 1)) : ∃ k, n ≤ k ∧ q k := by
  have hstays : ∀ j, n ≤ j → p j ∨ ∃ k, n ≤ k ∧ q k := by
    intro j hj
    induction j, hj using Nat.le_induction with
    | base => exact .inl hp
    | succ j hj ih =>
      rcases ih with hpj | hk
      · exact (hunless j hj hpj).imp_right fun hq => ⟨j + 1, Nat.le_succ_of_le hj, hq⟩
      · exact .inr hk
  rcases hstays i hi with hpi | hk
  · exact ⟨i + 1, Nat.le_succ_of_le hi, hact hpi⟩
  · exact hk

/-- The goal is reached if, until it is, the measure `μ` is lower later. -/
theorem leadsTo {μ : Nat → Nat}
    (h : ∀ n, p n → ∃ k, n ≤ k ∧ (q k ∨ p k ∧ μ k < μ n)) (hp : p n) : ∃ k, n ≤ k ∧ q k := by
  induction hv : μ n using Nat.strongRecOn generalizing n with
  | ind v ih =>
    obtain ⟨k, hnk, hq | ⟨hpk, hlt⟩⟩ := h n hp
    · exact ⟨k, hnk, hq⟩
    · obtain ⟨k', hkk', hq⟩ := ih _ (hv ▸ hlt) hpk rfl
      exact ⟨k', hnk.trans hkk', hq⟩

end Machine
