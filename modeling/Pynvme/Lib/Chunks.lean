import Mathlib.Data.List.GetD
import Mathlib.Tactic.Common

/-!
# Chunks

A list is sent in chunks of `n` elements through one buffer of `n` elements. Each chunk
overwrites the first elements of the buffer, as many as it has, and then all of the buffer is
placed where the buffer before ends.

The placed elements are those of the list, and then, if the last chunk is not the first one
and is shorter than the buffer, the rest of the chunk before (`place_contents`).
-/

namespace Chunks

variable {α : Type*}

/-- The chunks of `n` elements of a list, the last one with those that are left. -/
def chunks (n : Nat) (l : List α) : List (List α) :=
  if n = 0 ∨ l = [] then [] else l.take n :: chunks n (l.drop n)
termination_by l.length
decreasing_by
  rename_i h
  have := List.length_pos_iff.2 fun hl => h (.inr hl)
  simp only [List.length_drop]
  omega

/-- The buffer after a chunk. -/
def overwrite (chunk : List α) (m : Nat → α) : Nat → α := fun k => chunk.getD k (m k)

/-- The buffer after each of the chunks. -/
def contents (m : Nat → α) : List (List α) → List (Nat → α)
  | [] => []
  | chunk :: l => overwrite chunk m :: contents (overwrite chunk m) l

/-- Buffers of `n` elements placed from `start` on, one after the other. -/
def place (n : Nat) : Nat → List (Nat → α) → (Nat → α) → Nat → α
  | _, [], image => image
  | start, m :: l, image =>
    place n (start + n) l fun p => if start ≤ p ∧ p < start + n then m (p - start) else image p

variable {n start p : Nat} {l : List α} {m image : Nat → α}

theorem chunks_nil (n : Nat) : chunks n ([] : List α) = [] := by
  rw [chunks, if_pos (.inr rfl)]

theorem chunks_of_ne (hn : 0 < n) (hl : l ≠ []) : chunks n l = l.take n :: chunks n (l.drop n) := by
  rw [chunks, if_neg (by simp [hl, Nat.ne_of_gt hn])]

theorem length_chunks (hn : 0 < n) (l : List α) :
    (chunks n l).length = (l.length + (n - 1)) / n := by
  induction l using chunks.induct (n := n) with
  | case1 l h =>
    obtain rfl : l = [] := h.resolve_left (Nat.ne_of_gt hn)
    rw [chunks_nil, List.length_nil, List.length_nil, Nat.zero_add, Nat.div_eq_of_lt (by omega)]
  | case2 l h ih =>
    have hl : l ≠ [] := fun hl => h (.inr hl)
    have hpos := List.length_pos_iff.2 hl
    rw [chunks_of_ne hn hl, List.length_cons, ih, List.length_drop]
    rcases Nat.lt_or_ge l.length n with hlast | hmore
    · -- The last chunk.
      have hsum : l.length + (n - 1) = l.length - 1 + n := by omega
      rw [Nat.div_eq_of_lt (by omega), hsum, Nat.add_div_right _ hn, Nat.div_eq_of_lt (by omega)]
    · have hsum : l.length + (n - 1) = l.length - n + (n - 1) + n := by omega
      rw [hsum, Nat.add_div_right _ hn]

theorem getD_drop (l : List α) (n k : Nat) (d : α) : (l.drop n).getD k d = l.getD (n + k) d := by
  simp [List.getD_eq_getElem?_getD]

theorem getD_take {k : Nat} (hk : k < n) (d : α) : (l.take n).getD k d = l.getD k d := by
  simp [List.getD_eq_getElem?_getD, hk]

/-- What is placed of a list: its elements, and the elements of the buffer before in the rest of
    the last buffer. -/
theorem place_contents (hn : 0 < n) (l : List α) (start : Nat) (m image : Nat → α) (p : Nat) :
    place n start (contents m (chunks n l)) image p =
      if p < start ∨ start + n * (chunks n l).length ≤ p then image p
      else l.getD (p - start)
        (if l.length < n then m (p - start) else l.getD (p - start - n) (image p)) := by
  induction l using chunks.induct (n := n) generalizing start m image with
  | case1 l h =>
    obtain rfl : l = [] := h.resolve_left (Nat.ne_of_gt hn)
    rw [chunks_nil, contents, place, if_pos (by simp; omega)]
  | case2 l h ih =>
    have hl : l ≠ [] := fun hl => h (.inr hl)
    have hlen : n * (chunks n (l.drop n)).length ≤ l.length - n + (n - 1) := by
      rw [length_chunks hn, List.length_drop]
      exact Nat.mul_div_le _ _
    have hone : l.length - n < n → n * (chunks n (l.drop n)).length ≤ n := fun hlt => by
      have hle : (chunks n (l.drop n)).length ≤ 1 := by
        rw [length_chunks hn, List.length_drop]
        exact Nat.lt_succ_iff.1 (Nat.div_lt_of_lt_mul (by omega))
      simpa using Nat.mul_le_mul_left n hle
    have hnone : l.length ≤ n → n * (chunks n (l.drop n)).length = 0 := fun hle => by
      rw [List.drop_eq_nil_of_le hle, chunks_nil, List.length_nil, Nat.mul_zero]
    rw [chunks_of_ne hn hl, contents, place, ih, List.length_cons, Nat.mul_succ]
    simp only [getD_drop, List.length_drop]
    generalize n * (chunks n (l.drop n)).length = rest at hlen hone hnone ⊢
    rcases Nat.lt_or_ge p start with hbefore | hstart
    · rw [if_pos (by omega), if_neg (by omega), if_pos (by omega)]
    rcases Nat.lt_or_ge p (start + n) with hfirst | hnext
    · -- The first buffer.
      rw [if_pos (by omega), if_pos (by omega), if_neg (by omega), overwrite, getD_take (by omega)]
      rcases Nat.lt_or_ge (p - start) l.length with hin | hout
      · rw [List.getD_eq_getElem _ _ hin, List.getD_eq_getElem _ _ hin]
      · rw [if_pos (by omega)]
    have hfirst : ¬(start ≤ p ∧ p < start + n) := by omega
    simp only [hfirst, if_false]
    rcases Nat.lt_or_ge p (start + n + rest) with hin | hafter
    · have houtside : ¬(p < start + n ∨ start + n + rest ≤ p) := by omega
      have houtside' : ¬(p < start ∨ start + (rest + n) ≤ p) := by omega
      have hpos : n + (p - (start + n)) = p - start := by omega
      rw [if_neg houtside, if_neg houtside', hpos]
      rcases Nat.lt_or_ge (p - start) l.length with hin' | hout
      · rw [List.getD_eq_getElem _ _ hin', List.getD_eq_getElem _ _ hin']
      · have hpos' : p - (start + n) = p - start - n := by omega
        have hback : p - start - n < l.length := by omega
        rw [List.getD_eq_default _ _ hout, List.getD_eq_default _ _ hout, hpos',
          if_neg (show ¬l.length < n by omega), List.getD_eq_getElem _ _ hback]
        split_ifs with hlast
        · -- The last buffer, which had the chunk before.
          have := hone hlast
          rw [overwrite, getD_take (by omega), List.getD_eq_getElem _ _ hback]
        · have hpos'' : n + (p - start - n - n) = p - start - n := by omega
          rw [hpos'', List.getD_eq_getElem _ _ hback]
    · rw [if_pos (by omega), if_pos (by omega)]

end Chunks
