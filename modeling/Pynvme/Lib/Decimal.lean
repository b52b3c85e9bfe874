import Mathlib.Algebra.Order.Ring.Nat
import Mathlib.Data.Char
import Mathlib.Data.List.Lex
import Mathlib.Data.Nat.Log
import Mathlib.Tactic.Common

/-!
# Decimal words

Numbers that are written as decimal words (`decimal`) and compared like words, letter by
letter from the first one on, come in another order than the numbers: `10` before `2`.

* `decimal_lt_decimal_iff`: of two numbers, the word of the smaller one comes first exactly
  if it is at most the number that the leading digits of the other one make, as many as it
  has itself.
* `append_sep_lt_append_sep`: words keep their order when they are followed by a letter
  smaller than all of theirs, and more.
-/

namespace Decimal

/-! ### The order of words -/

section Words

variable {α : Type*} [LinearOrder α] {a b : List α}

/-- The order of two words of the same length is decided before they end. -/
theorem append_lt_append_of_length (hlen : a.length = b.length) (h : a < b) (c d : List α) :
    a ++ c < b ++ d := by
  induction a generalizing b with
  | nil =>
    obtain rfl := List.eq_nil_of_length_eq_zero hlen.symm
    exact absurd h (lt_irrefl _)
  | cons x a ih =>
    obtain ⟨y, b, rfl⟩ := List.exists_cons_of_ne_nil fun hb : b = [] => by simp [hb] at hlen
    rw [List.cons_append, List.cons_append, List.cons_lt_cons_iff]
    rcases List.cons_lt_cons_iff.1 h with hlt | ⟨rfl, hlt⟩
    · exact .inl hlt
    · exact .inr ⟨rfl, ih (Nat.succ.inj hlen) hlt⟩

/-- A separator that is smaller than the letters comes before what a longer word goes on
    with. -/
theorem append_sep_lt_append_sep {sep : α} (hsep : ∀ x ∈ b, sep < x) (h : a < b)
    (c d : List α) : a ++ sep :: c < b ++ sep :: d := by
  induction a generalizing b with
  | nil =>
    obtain ⟨y, b, rfl⟩ := List.exists_cons_of_ne_nil fun hb : b = [] => by simp [hb] at h
    rw [List.nil_append, List.cons_append, List.cons_lt_cons_iff]
    exact .inl (hsep y List.mem_cons_self)
  | cons x a ih =>
    obtain ⟨y, b, rfl⟩ := List.exists_cons_of_ne_nil fun hb : b = [] => by simp [hb] at h
    rw [List.cons_append, List.cons_append, List.cons_lt_cons_iff]
    rcases List.cons_lt_cons_iff.1 h with hlt | ⟨rfl, hlt⟩
    · exact .inl hlt
    · exact .inr ⟨rfl, ih (fun z hz => hsep z (List.mem_cons_of_mem _ hz)) hlt⟩

end Words

/-! ### Decimal words -/

/-- The decimal word of a number. -/
def decimal (n : Nat) : List Char := Nat.toDigits 10 n

variable {m n k : Nat}

theorem decimal_of_lt (h : n < 10) : decimal n = [n.digitChar] := Nat.toDigits_of_lt_base h

theorem decimal_of_ge (h : 10 ≤ n) : decimal n = decimal (n / 10) ++ [(n % 10).digitChar] :=
  Nat.toDigits_of_base_le (by decide) h

theorem digitChar_lt_digitChar : ∀ m < 10, ∀ n < 10, m < n → m.digitChar < n.digitChar := by
  decide

theorem isDigit_of_mem_decimal {c : Char} (h : c ∈ decimal n) : c.isDigit :=
  Nat.isDigit_of_mem_toDigits (by decide) (by decide) h

theorem decimal_injective : Function.Injective decimal := fun m n h => by
  have := congrArg (fun l => Nat.ofDigitChars 10 l 0) h
  simpa [decimal] using this

theorem length_decimal (n : Nat) : (decimal n).length = Nat.log 10 n + 1 := by
  rcases Nat.eq_zero_or_pos n with rfl | hpos
  · rfl
  · refine eq_of_forall_ge_iff fun k => ?_
    rcases k with _ | k
    · simp [decimal]
    · rw [decimal, Nat.length_toDigits_le_iff (by decide) (Nat.succ_pos k), Nat.succ_le_succ_iff,
        ← Nat.lt_succ_iff, Nat.log_lt_iff_lt_pow (by decide) hpos.ne']

/-- Words of the same length are in the order of the numbers. -/
theorem decimal_lt_of_length (hlen : (decimal m).length = (decimal n).length) (h : m < n) :
    decimal m < decimal n := by
  induction m using Nat.strongRecOn generalizing n with
  | ind m ih =>
    rw [length_decimal, length_decimal] at hlen
    rcases Nat.lt_or_ge n 10 with hn | hn
    · rw [decimal_of_lt hn, decimal_of_lt (h.trans hn), List.cons_lt_cons_iff]
      exact .inl (digitChar_lt_digitChar m (h.trans hn) n hn h)
    · have hlog : 0 < Nat.log 10 n := Nat.log_pos (by decide) hn
      have hm : 10 ≤ m := by
        by_contra hlt
        rw [Nat.log_of_lt (Nat.not_le.1 hlt)] at hlen
        omega
      have hlen' : (decimal (m / 10)).length = (decimal (n / 10)).length := by
        rw [length_decimal, length_decimal, Nat.log_div_base, Nat.log_div_base]
        omega
      rw [decimal_of_ge hm, decimal_of_ge hn]
      rcases Nat.lt_or_eq_of_le (Nat.div_le_div_right h.le) with hlt | heq
      · -- the digits but the last one decide
        exact append_lt_append_of_length hlen' (ih _ (by omega) hlen' hlt) _ _
      · rw [heq]
        apply List.append_left_lt
        rw [List.cons_lt_cons_iff]
        exact .inl (digitChar_lt_digitChar _ (by omega) _ (by omega) (by omega))

/-- The leading digits of a number, but the last `k` ones. -/
theorem decimal_div_pow (h : 10 ^ k ≤ n) :
    ∃ rest, rest.length = k ∧ decimal n = decimal (n / 10 ^ k) ++ rest := by
  induction k with
  | zero => exact ⟨[], rfl, by simp⟩
  | succ k ih =>
    have hpow : 10 ^ k * 10 ≤ n := by rwa [← Nat.pow_succ]
    obtain ⟨rest, hlen, hrest⟩ := ih (by omega)
    have hge : 10 ≤ n / 10 ^ k := by
      rwa [Nat.le_div_iff_mul_le (Nat.pow_pos (by decide)), Nat.mul_comm]
    refine ⟨((n / 10 ^ k) % 10).digitChar :: rest, by rw [List.length_cons, hlen], ?_⟩
    rw [hrest, decimal_of_ge hge, Nat.div_div_eq_div_mul, ← Nat.pow_succ, List.append_assoc,
      List.singleton_append]

/-- The words of two numbers are in their order if and only if the smaller one is at most the
    number of as many leading digits of the other one. -/
theorem decimal_lt_decimal_iff (h : m < n) :
    decimal m < decimal n ↔ m ≤ n / 10 ^ (Nat.log 10 n - Nat.log 10 m) := by
  set k := Nat.log 10 n - Nat.log 10 m with hk
  have hmono : Nat.log 10 m ≤ Nat.log 10 n := Nat.log_mono_right h.le
  have hpow : 10 ^ k ≤ n :=
    (Nat.pow_le_pow_right (by decide) (Nat.sub_le _ _)).trans (Nat.pow_log_le_self 10 (by omega))
  obtain ⟨rest, hlen, hrest⟩ := decimal_div_pow hpow
  have hlog : (decimal m).length = (decimal (n / 10 ^ k)).length := by
    rw [length_decimal, length_decimal, Nat.log_div_base_pow]
    omega
  constructor
  · intro hlt
    by_contra hgt
    have hgt' := append_lt_append_of_length hlog.symm
      (decimal_lt_of_length hlog.symm (Nat.not_le.1 hgt)) rest []
    rw [← hrest, List.append_nil] at hgt'
    exact lt_asymm hlt hgt'
  · intro hle
    rw [hrest]
    rcases Nat.lt_or_eq_of_le hle with hlt | heq
    · have hlt' := append_lt_append_of_length hlog (decimal_lt_of_length hlog hlt) [] rest
      rwa [List.append_nil] at hlt'
    · -- the word of `m` is a proper beginning of that of `n`
      rw [← heq]
      have hne : rest ≠ [] := by
        rintro rfl
        rw [List.append_nil, ← heq] at hrest
        exact h.ne (decimal_injective hrest).symm
      obtain ⟨c, rest, rfl⟩ := List.exists_cons_of_ne_nil hne
      have hnil : decimal m ++ [] < decimal m ++ c :: rest := List.append_left_lt .nil
      rwa [List.append_nil] at hnil

end Decimal
