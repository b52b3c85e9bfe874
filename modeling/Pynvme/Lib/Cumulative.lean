import Mathlib.Algebra.Order.BigOperators.Group.List
import Mathlib.Algebra.Order.Ring.Nat
import Mathlib.Tactic.Common

/-!
# Cumulative counts

The counts of a list up to an index, and the first index with a cumulative count of at least
`t` (`IsFirst`). There is one for every `t` up to the total (`exists_isFirst`), it does not
decrease with `t` (`IsFirst.mono`), and it is the one for `t + 1` as well, unless `t` is a
cumulative count (`IsFirst.succ_iff`).
-/

namespace Cumulative

/-- The counts up to the index `i`. -/
def upTo (l : List Nat) (i : Nat) : Nat := (l.take (i + 1)).sum

/-- The first index with a cumulative count of at least `t`. -/
structure IsFirst (l : List Nat) (t i : Nat) : Prop where
  lt : i < l.length
  le : t ≤ upTo l i
  before : ∀ j < i, upTo l j < t

variable {l : List Nat} {c t t' i i' j : Nat}

@[simp] theorem upTo_cons_zero (c : Nat) (l : List Nat) : upTo (c :: l) 0 = c := by simp [upTo]

@[simp] theorem upTo_cons_succ (c : Nat) (l : List Nat) (i : Nat) :
    upTo (c :: l) (i + 1) = c + upTo l i := by simp [upTo]

theorem upTo_mono (h : i ≤ j) : upTo l i ≤ upTo l j :=
  (List.take_sublist_take_left (Nat.succ_le_succ h)).sum_le_sum fun _ _ => Nat.zero_le _

/-- The count at an index is the difference of two cumulative ones. -/
theorem upTo_succ (h : i + 1 < l.length) : upTo l (i + 1) = upTo l i + l[i + 1] := by
  rw [upTo, upTo, List.sum_take_succ _ _ h]

namespace IsFirst

theorem unique (h : IsFirst l t i) (h' : IsFirst l t i') : i = i' := by
  rcases Nat.lt_trichotomy i i' with hlt | heq | hlt
  · exact absurd (h'.before i hlt) (Nat.not_lt.2 h.le)
  · exact heq
  · exact absurd (h.before i' hlt) (Nat.not_lt.2 h'.le)

theorem mono (h : IsFirst l t i) (h' : IsFirst l t' i') (ht : t ≤ t') : i ≤ i' := by
  by_contra hlt
  have hbefore := h.before i' (Nat.lt_of_not_le hlt)
  have hle := h'.le
  omega

/-- The first index is that of a count that is not 0. -/
theorem getElem_ne_zero (h : IsFirst l t i) (ht : 0 < t) : l.getD i 0 ≠ 0 := by
  rw [List.getD_eq_getElem?_getD, List.getElem?_eq_getElem h.lt, Option.getD_some]
  have hle := h.le
  rcases i with _ | i
  · rcases l with _ | ⟨c, l⟩
    · exact absurd h.lt (Nat.not_lt_zero 0)
    · rw [upTo_cons_zero] at hle
      rw [List.getElem_cons_zero]
      omega
  · have hbefore := h.before i (Nat.lt_succ_self i)
    rw [upTo_succ h.lt] at hle
    omega

theorem succ_iff (h : IsFirst l t i) :
    IsFirst l (t + 1) i ↔ ∀ j < l.length, upTo l j ≠ t := by
  constructor
  · intro h' j hj heq
    rcases Nat.lt_or_ge j i with hlt | hge
    · have := h.before j hlt
      omega
    · have hmono := upTo_mono (l := l) hge
      have hle := h'.le
      omega
  · intro hne
    have hle := h.le
    have := hne i h.lt
    exact ⟨h.lt, by omega, fun j hj => Nat.lt_succ_of_lt (h.before j hj)⟩

end IsFirst

theorem isFirst_cons_zero (h : t ≤ c) : IsFirst (c :: l) t 0 :=
  ⟨Nat.succ_pos _, by rwa [upTo_cons_zero], fun _ hj => absurd hj (Nat.not_lt_zero _)⟩

theorem isFirst_cons_succ (hc : c < t) : IsFirst (c :: l) t (i + 1) ↔ IsFirst l (t - c) i := by
  constructor
  · intro h
    refine ⟨Nat.lt_of_succ_lt_succ h.lt, ?_, fun j hj => ?_⟩
    · have hle := h.le
      rw [upTo_cons_succ] at hle
      omega
    · have hbefore := h.before (j + 1) (Nat.succ_lt_succ hj)
      rw [upTo_cons_succ] at hbefore
      omega
  · intro h
    refine ⟨Nat.succ_lt_succ h.lt, ?_, fun j hj => ?_⟩
    · have hle := h.le
      rw [upTo_cons_succ]
      omega
    · rcases j with _ | j
      · rwa [upTo_cons_zero]
      · have hbefore := h.before j (Nat.lt_of_succ_lt_succ hj)
        rw [upTo_cons_succ]
        omega

theorem exists_isFirst (hl : l ≠ []) (ht : t ≤ l.sum) : ∃ i, IsFirst l t i := by
  induction l generalizing t with
  | nil => exact absurd rfl hl
  | cons c l ih =>
    rcases Nat.lt_or_ge c t with hc | hc
    · rw [List.sum_cons] at ht
      have hne : l ≠ [] := by
        rintro rfl
        rw [List.sum_nil] at ht
        omega
      obtain ⟨i, hi⟩ := ih hne (t := t - c) (by omega)
      exact ⟨i + 1, (isFirst_cons_succ hc).2 hi⟩
    · exact ⟨0, isFirst_cons_zero hc⟩

end Cumulative
