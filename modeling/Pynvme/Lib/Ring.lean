import Mathlib.Data.Nat.ModEq
import Mathlib.Logic.Function.Iterate
import Mathlib.Order.Basic
import Mathlib.Tactic.Common

/-!
# Rings

A ring has `n` slots, and the items written to it go round: item `i` to the slot
`i % n`, over the one before it. What a ring holds of the items `l` written so far are
the latest `n` ones, each in its slot, and the slots that were not written yet are as
they were at first (`Ring.Holds`). The slots may hold more than the items say: what an
item says of its slot is a relation.

Writing keeps this (`Ring.Holds.push`), and so does a change of the items and the slots
in which the two still agree. A reader that starts at the next slot to be written finds
the items from the oldest to the newest (`Ring.Holds.oldest`), and one that goes back
from it finds them from the newest on (`Ring.Holds.newest`, with `prev_iterate`).
-/

namespace Ring

variable {α β : Type*} {n : Nat}

/-- The items of one round have different slots. -/
theorem mod_ne_of_lt {i j : Nat} (hij : i < j) (hj : j < i + n) : i % n ≠ j % n := by
  intro h
  have hdvd : n ∣ j - i := (Nat.modEq_iff_dvd' (Nat.le_of_lt hij)).1 h
  exact absurd (Nat.le_of_dvd (by omega) hdvd) (by omega)

/-- The slot after `i % n`. -/
theorem next_mod (hn : 0 < n) (i : Nat) :
    (if i % n + 1 = n then 0 else i % n + 1) = (i + 1) % n := by
  have hlt := Nat.mod_lt i hn
  rw [← Nat.mod_add_mod]
  split_ifs with hwrap
  · rw [hwrap, Nat.mod_self]
  · exact (Nat.mod_eq_of_lt (by omega)).symm

/-- The slots `mem` hold the latest of the items `l`, with what `R` says of them. -/
structure Holds (n : Nat) (R : α → β → Prop) (fresh : β → Prop) (mem : Nat → β) (l : List α) :
    Prop where
  written : ∀ i x, l[i]? = some x → l.length ≤ i + n → R x (mem (i % n))
  fresh : ∀ j, l.length ≤ j → j < n → fresh (mem j)

variable {R : α → β → Prop} {fresh : β → Prop} {mem : Nat → β} {l : List α}

theorem holds_nil (h : ∀ j < n, fresh (mem j)) : Holds n R fresh mem ([] : List α) where
  written := by simp
  fresh := fun j _ hj => h j hj

/-- The next item goes to its slot. -/
theorem Holds.push (h : Holds n R fresh mem l) {x : α} {b : β} (hx : R x b) :
    Holds n R fresh (Function.update mem (l.length % n) b) (l ++ [x]) := by
  constructor
  case written =>
    intro i y hy hi
    rw [List.length_append, List.length_singleton] at hi
    rcases Nat.lt_trichotomy i l.length with hlt | rfl | hgt
    · rw [List.getElem?_append_left hlt] at hy
      rw [Function.update_of_ne (mod_ne_of_lt hlt (by omega))]
      exact h.written i y hy (by omega)
    · rw [List.getElem?_append_right (Nat.le_refl _), Nat.sub_self] at hy
      obtain rfl : x = y := Option.some.inj hy
      rwa [Function.update_self]
    · rw [List.getElem?_eq_none (by simp; omega)] at hy
      cases hy
  case fresh =>
    intro j hj hjn
    rw [List.length_append, List.length_singleton] at hj
    have hne : j ≠ l.length % n := by
      rw [Nat.mod_eq_of_lt (by omega)]
      omega
    rw [Function.update_of_ne hne]
    exact h.fresh j (by omega) hjn

/-- From the next slot on, the slots that were not written come first, and then the items
    from the oldest on. -/
theorem Holds.oldest (h : Holds n R fresh mem l) {m : Nat} (hm : m < n) :
    (l.length + m < n → fresh (mem ((l.length + m) % n))) ∧
      (n ≤ l.length + m → ∃ x, l[l.length + m - n]? = some x ∧ R x (mem ((l.length + m) % n))) := by
  constructor
  · intro hlt
    rw [Nat.mod_eq_of_lt hlt]
    exact h.fresh _ (by omega) hlt
  · intro hle
    have hi : l.length + m - n < l.length := by omega
    refine ⟨_, List.getElem?_eq_getElem hi, ?_⟩
    have hslot : (l.length + m) % n = (l.length + m - n) % n := Nat.mod_eq_sub_mod hle
    rw [hslot]
    exact h.written _ _ (List.getElem?_eq_getElem hi) (by omega)

/-! ### Going back -/

/-- The slot before `i`. -/
def prev (n i : Nat) : Nat := (if i = 0 then n else i) - 1

theorem prev_mod (hn : 0 < n) (m : Nat) : prev n ((m + 1) % n) = m % n := by
  have hlt := Nat.mod_lt m hn
  rw [← next_mod hn]
  by_cases hwrap : m % n + 1 = n
  · rw [if_pos hwrap, prev, if_pos rfl]
    omega
  · rw [if_neg hwrap, prev, if_neg (Nat.succ_ne_zero _), Nat.add_sub_cancel]

/-- The slots before that of the next item. -/
theorem prev_iterate (hn : 0 < n) {m k : Nat} (hk : k ≤ m) :
    (prev n)^[k] (m % n) = (m - k) % n := by
  induction k with
  | zero => rfl
  | succ k ih =>
    rw [Function.iterate_succ_apply', ih (by omega), show m - k = m - (k + 1) + 1 by omega,
      prev_mod hn]

/-- Going back beyond the first item, the slots were not written. -/
theorem prev_iterate_of_lt {m k : Nat} (hm : m < k) (hk : k ≤ n) :
    (prev n)^[k] (m % n) = m + n - k := by
  obtain ⟨i, rfl⟩ : ∃ i, k = m + 1 + i := ⟨k - (m + 1), by omega⟩
  induction i with
  | zero =>
    rw [Function.iterate_succ_apply', prev_iterate (by omega) (Nat.le_refl m), Nat.sub_self,
      Nat.zero_mod, prev, if_pos rfl]
    omega
  | succ i ih =>
    rw [← Nat.add_assoc, Function.iterate_succ_apply', ih (by omega) (by omega), prev,
      if_neg (by omega)]
    omega

/-- Going back from the next slot, the items come from the newest on, and then the slots that
    were not written. -/
theorem Holds.newest (h : Holds n R fresh mem l) {k : Nat} (hk : k < n) :
    (∀ x, l.reverse[k]? = some x → R x (mem ((prev n)^[k + 1] (l.length % n)))) ∧
      (l.length ≤ k → fresh (mem ((prev n)^[k + 1] (l.length % n)))) := by
  constructor
  · intro x hx
    have hlt : k < l.length := by
      by_contra hge
      rw [List.getElem?_eq_none (by simp; omega)] at hx
      cases hx
    rw [List.getElem?_reverse hlt] at hx
    rw [prev_iterate (by omega) hlt, show l.length - k.succ = l.length - 1 - k by omega]
    exact h.written _ x hx (by omega)
  · intro hle
    rw [prev_iterate_of_lt (by omega) hk]
    exact h.fresh _ (by omega) (by omega)

end Ring
