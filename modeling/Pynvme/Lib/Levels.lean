import Mathlib.Data.List.Induction
import Mathlib.Tactic.Common

/-!
# Counters that rise with a list

A *level* starts at zero, and the elements of a list raise it one by one: an
element `a` raises the level `n` by one if `p n a`, and keeps it otherwise
(`levels`).

The level reached is at least `m` exactly when `m` elements of the list, in their
order, pass the thresholds of the first `m` levels (`le_levels_iff`).

In a list in which a property `q` is never regained, the elements with `q` are as
many of the first ones as there are (`getElem_iff_lt_countP`).
-/

variable {α : Type*} {p : Nat → α → Prop} [∀ n a, Decidable (p n a)] {l l' : List α} {a : α}
  {m : Nat}

/-- The level after a list of elements. -/
def levels (p : Nat → α → Prop) [∀ n a, Decidable (p n a)] (l : List α) : Nat :=
  l.foldl (fun n a => if p n a then n + 1 else n) 0

@[simp] theorem levels_nil : levels p [] = 0 := rfl

theorem levels_concat : levels p (l ++ [a]) =
    if p (levels p l) a then levels p l + 1 else levels p l :=
  List.foldl_append

theorem levels_le_append : levels p l ≤ levels p (l ++ l') := by
  induction l' using List.reverseRecOn with
  | nil => exact Nat.le_of_eq (by rw [List.append_nil])
  | append_singleton l' a ih =>
    rw [← List.append_assoc, levels_concat]
    split_ifs <;> omega

theorem le_levels_iff : m ≤ levels p l ↔
    ∃ s : List α, s.Sublist l ∧ s.length = m ∧ ∀ k (hk : k < s.length), p k s[k] := by
  constructor
  -- The elements that raise the level.
  · intro h
    induction l using List.reverseRecOn generalizing m with
    | nil => exact ⟨[], .slnil, (Nat.le_zero.1 h).symm, fun k hk => absurd hk (Nat.not_lt_zero k)⟩
    | append_singleton l a ih =>
      by_cases hm : m ≤ levels p l
      · obtain ⟨s, hs, hlen, hp⟩ := ih hm
        exact ⟨s, hs.trans (List.sublist_append_left l [a]), hlen, hp⟩
      · rw [levels_concat] at h
        split_ifs at h with ha
        · obtain ⟨s, hs, hlen, hp⟩ := ih (Nat.le_refl _)
          have hlen' : (s ++ [a]).length = levels p l + 1 := by
            rw [List.length_append, hlen, List.length_singleton]
          refine ⟨s ++ [a], hs.append (.refl [a]), by omega, fun k hk => ?_⟩
          by_cases hk' : k < s.length
          · rw [List.getElem_append_left hk']
            exact hp k hk'
          · obtain rfl : k = s.length := by omega
            rw [List.getElem_concat_length rfl, hlen]
            exact ha
        · omega
  · rintro ⟨s, hs, rfl, hp⟩
    induction l using List.reverseRecOn generalizing s with
    | nil => exact Nat.le_of_eq (by rw [List.sublist_nil.1 hs, levels_nil, List.length_nil])
    | append_singleton l a ih =>
      obtain ⟨s₁, s₂, rfl, hs₁, hs₂⟩ := List.sublist_append_iff.1 hs
      have hle : s₁.length ≤ levels p l := ih s₁ hs₁ fun k hk => by
        have hk' := hp k (by rw [List.length_append]; omega)
        rwa [List.getElem_append_left hk] at hk'
      rw [levels_concat]
      rcases List.sublist_cons_iff.1 hs₂ with hs₂ | ⟨s₃, rfl, hs₃⟩
      · rw [List.sublist_nil.1 hs₂, List.append_nil]
        split_ifs <;> omega
      · obtain rfl := List.sublist_nil.1 hs₃
        have ha := hp s₁.length (by simp)
        rw [List.getElem_concat_length rfl] at ha
        rw [List.length_append, List.length_singleton]
        -- The last element raises the level, unless it is high enough.
        rcases Nat.lt_or_eq_of_le hle with hlt | heq
        · split_ifs <;> omega
        · exact Nat.le_of_eq (by rw [← heq, if_pos ha])

theorem getElem_iff_lt_countP {q : α → Bool} (h : l.Pairwise fun a b => q b = true → q a = true)
    {n : Nat} (hn : n < l.length) : q l[n] = true ↔ n < l.countP q := by
  induction l generalizing n with
  | nil => exact absurd hn (Nat.not_lt_zero n)
  | cons a l ih =>
    obtain ⟨hhead, htail⟩ := List.pairwise_cons.1 h
    cases ha : q a with
    | true =>
      rw [List.countP_cons_of_pos ha]
      rcases n with _ | n
      · simp [ha]
      · rw [List.getElem_cons_succ, ih htail, Nat.add_lt_add_iff_right]
    | false =>
      -- No later element has the property either.
      have hnone : ∀ b ∈ a :: l, ¬q b = true := by
        intro b hb hq
        rcases List.mem_cons.1 hb with rfl | hb
        · rw [ha] at hq
          cases hq
        · rw [hhead b hb hq] at ha
          cases ha
      rw [List.countP_eq_zero.2 hnone]
      exact iff_of_false (hnone _ (List.getElem_mem hn)) (Nat.not_lt_zero n)
