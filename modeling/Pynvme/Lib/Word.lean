import Mathlib.Algebra.Order.Ring.Nat
import Mathlib.Tactic.Common

/-!
# Machine words and multiples

The values of fixed-width unsigned integers are natural numbers, reduced where
the machine reduces them: `u8`, `u16`, `u32` and `u64` keep the low bits. A `field` is
some of the bits of a number, and two of them side by side are one (`field_or`).

The rounding of a number to the multiples of `a`: down to the greatest multiple
not above it (`roundDown`), up to the least multiple not below it (`roundUp`).
Both are characterised by the order alone (`le_roundDown`, `roundUp_le`), so that
a bound on a rounded number is a statement about where the multiples lie. Rounding
up, or down if that is too far, hits an interval exactly when a multiple lies in it
and none before it on the way (`fit_mem_iff`).
-/

namespace Word

/-- The low 8 bits. -/
def u8 (n : Nat) : Nat := n % 2 ^ 8

/-- The low 16 bits. -/
def u16 (n : Nat) : Nat := n % 2 ^ 16

/-- The low 32 bits. -/
def u32 (n : Nat) : Nat := n % 2 ^ 32

/-- The low 64 bits. -/
def u64 (n : Nat) : Nat := n % 2 ^ 64

theorem u16_lt (n : Nat) : u16 n < 2 ^ 16 := Nat.mod_lt _ (by decide)
theorem u64_lt (n : Nat) : u64 n < 2 ^ 64 := Nat.mod_lt _ (by decide)

theorem u8_of_lt {n : Nat} (h : n < 2 ^ 8) : u8 n = n := Nat.mod_eq_of_lt h
theorem u16_of_lt {n : Nat} (h : n < 2 ^ 16) : u16 n = n := Nat.mod_eq_of_lt h
theorem u32_of_lt {n : Nat} (h : n < 2 ^ 32) : u32 n = n := Nat.mod_eq_of_lt h
theorem u64_of_lt {n : Nat} (h : n < 2 ^ 64) : u64 n = n := Nat.mod_eq_of_lt h

/-- The addresses `s, s + 1, …` of at most `2 ^ 64` words are different, also
    when they wrap. -/
theorem u64_add_injective {s n : Nat} (hn : n ≤ 2 ^ 64) :
    ∀ i < n, ∀ k < n, u64 (s + i) = u64 (s + k) → i = k := by
  intro i hi k hk h
  simp only [u64] at h
  omega

/-- `j` is one of the `n` addresses from `s` on, which wrap at `2 ^ 64`. -/
def Span (s n j : Nat) : Prop := ∃ i < n, j = u64 (s + i)

theorem not_span_zero (s j : Nat) : ¬Span s 0 j := fun ⟨_, hi, _⟩ => Nat.not_lt_zero _ hi

/-- Without wrapping, the addresses are an interval. -/
theorem span_iff {s n j : Nat} (h : s + n ≤ 2 ^ 64) : Span s n j ↔ s ≤ j ∧ j < s + n := by
  constructor
  · rintro ⟨i, hi, rfl⟩
    rw [u64_of_lt (by omega)]
    omega
  · rintro ⟨hs, hj⟩
    refine ⟨j - s, by omega, ?_⟩
    rw [show s + (j - s) = j by omega, u64_of_lt (by omega)]

/-- The field of `w` bits from the bit `lo` on. -/
def field (x lo w : Nat) : Nat := x / 2 ^ lo % 2 ^ w

theorem shiftRight_and (x lo w : Nat) : x >>> lo &&& (2 ^ w - 1) = field x lo w := by
  rw [Nat.and_two_pow_sub_one_eq_mod, Nat.shiftRight_eq_div_pow, field]

/-- Two fields side by side are one field. -/
theorem field_or (x lo v w : Nat) :
    field x lo v ||| field x (lo + v) w <<< v = field x lo (v + w) := by
  have hlow : field x lo v < 2 ^ v := Nat.mod_lt _ (Nat.two_pow_pos v)
  rw [Nat.or_comm, ← Nat.shiftLeft_add_eq_or_of_lt hlow, Nat.shiftLeft_eq, field, field, field,
    Nat.pow_add 2 v w, Nat.mod_mul, Nat.pow_add, Nat.div_div_eq_div_mul, Nat.add_comm, Nat.mul_comm]

theorem field_of_lt {x w : Nat} (h : x < 2 ^ w) : field x 0 w = x := by
  rw [field, Nat.pow_zero, Nat.div_one, Nat.mod_eq_of_lt h]

/-- Of two numbers side by side, each is a field. -/
theorem field_high {hi lo k w : Nat} (hhi : hi < 2 ^ w) (hlo : lo < 2 ^ k) :
    field (hi * 2 ^ k + lo) k w = hi := by
  rw [field, Nat.add_comm, Nat.add_mul_div_right _ _ (Nat.two_pow_pos k), Nat.div_eq_of_lt hlo,
    Nat.zero_add, Nat.mod_eq_of_lt hhi]

theorem field_low {hi lo k w : Nat} (hlo : lo < 2 ^ w) (hk : w ≤ k) :
    field (hi * 2 ^ k + lo) 0 w = lo := by
  obtain ⟨j, rfl⟩ := Nat.exists_eq_add_of_le hk
  rw [field, Nat.pow_zero, Nat.div_one, Nat.pow_add, ← Nat.mul_assoc, Nat.mul_right_comm,
    Nat.mul_add_mod_self_right, Nat.mod_eq_of_lt hlo]

/-- Clearing the bits of a mask changes nothing exactly if none is set. -/
theorem and_not_eq_self_iff {w : Nat} {x mask : BitVec w} :
    x &&& ~~~mask = x ↔ x &&& mask = 0#w := by
  constructor
  · intro h
    rw [← h, BitVec.and_assoc, BitVec.not_and_self]
    exact BitVec.and_zero
  · intro h
    calc x &&& ~~~mask
      _ = x &&& mask ||| x &&& ~~~mask := by rw [h, BitVec.zero_or]
      _ = x &&& (mask ||| ~~~mask) := BitVec.and_or_distrib_left.symm
      _ = x := by rw [BitVec.or_not_self, BitVec.and_allOnes]

end Word

/-! ## Multiples -/

namespace Multiple

/-- The greatest multiple of `a` not above `n`. -/
def roundDown (n a : Nat) : Nat := n - n % a

/-- The least multiple of `a` not below `n`. -/
def roundUp (n a : Nat) : Nat := if n % a = 0 then n else n + a - n % a

variable {n m a : Nat}

theorem dvd_roundDown (n a : Nat) : a ∣ roundDown n a := Nat.dvd_sub_mod n

theorem roundDown_le (n a : Nat) : roundDown n a ≤ n := Nat.sub_le _ _

theorem le_roundDown (hm : a ∣ m) (h : m ≤ n) : m ≤ roundDown n a := by
  obtain ⟨k, rfl⟩ := hm
  have hdm := Nat.div_add_mod n a
  have hk : a * k ≤ a * (n / a) := by
    rcases Nat.eq_zero_or_pos a with rfl | ha
    · simp
    · exact Nat.mul_le_mul_left a ((Nat.le_div_iff_mul_le ha).2 (by rwa [Nat.mul_comm]))
  rw [roundDown]
  omega

theorem dvd_roundUp (n a : Nat) : a ∣ roundUp n a := by
  rw [roundUp]
  split_ifs with h
  · exact Nat.dvd_of_mod_eq_zero h
  · have hle := Nat.mod_le n a
    rw [show n + a - n % a = (n - n % a) + a by omega]
    exact Nat.dvd_add (Nat.dvd_sub_mod n) (Nat.dvd_refl a)

theorem le_roundUp (ha : 0 < a) (n : Nat) : n ≤ roundUp n a := by
  have := Nat.mod_lt n ha
  rw [roundUp]
  split_ifs <;> omega

theorem roundUp_le (hm : a ∣ m) (h : n ≤ m) : roundUp n a ≤ m := by
  rw [roundUp]
  split_ifs with hmod
  · exact h
  -- `n` lies strictly between two multiples, and `m` is not the lower one.
  · have hlt : roundDown n a < m :=
      lt_of_le_of_ne (le_trans (roundDown_le n a) h) fun he => hmod (by
        have : roundDown n a = n := le_antisymm (roundDown_le n a) (he ▸ h)
        exact Nat.mod_eq_zero_of_dvd (this ▸ dvd_roundDown n a))
    have hle := Nat.mod_le n a
    have hstep : roundDown n a + a ≤ m := by
      obtain ⟨k, rfl⟩ := hm
      obtain ⟨j, hj⟩ := dvd_roundDown n a
      rw [hj] at hlt ⊢
      have hjk : j < k := Nat.lt_of_mul_lt_mul_left hlt
      exact (Nat.mul_succ a j) ▸ Nat.mul_le_mul_left a hjk
    rw [roundDown] at hstep
    omega

theorem roundUp_lt_add (ha : 0 < a) (n : Nat) : roundUp n a < n + a := by
  have := Nat.mod_lt n ha
  rw [roundUp]
  split_ifs <;> omega

theorem roundUp_mono (ha : 0 < a) (h : n ≤ m) : roundUp n a ≤ roundUp m a :=
  roundUp_le (dvd_roundUp m a) (le_trans h (le_roundUp ha m))

/-- The multiples below `n` are those below the least one not below `n`. -/
theorem lt_roundUp_iff (ha : 0 < a) (hm : a ∣ m) : m < roundUp n a ↔ m < n := by
  constructor
  · intro h
    by_contra hle
    exact absurd (roundUp_le hm (Nat.le_of_not_lt hle)) (Nat.not_le.2 h)
  · exact fun h => lt_of_lt_of_le h (le_roundUp ha n)

/-! ### Rounding into an interval -/

/-- The least multiple of `a` not below `n`, or the greatest one below `n` if that is
    not below `e`. -/
def fit (e n a : Nat) : Nat :=
  if roundUp n a < e then roundUp n a else roundDown (roundUp n a - 1) a

theorem dvd_fit (e n a : Nat) : a ∣ fit e n a := by
  rw [fit]
  split_ifs
  · exact dvd_roundUp n a
  · exact dvd_roundDown _ a

/-- The result is in the interval from `s` to `e` if and only if there is a multiple
    in it, and there is none on the way from `n` to it. -/
theorem fit_mem_iff {s e : Nat} (ha : 0 < a) : s ≤ fit e n a ∧ fit e n a < e ↔
    (∃ m, a ∣ m ∧ s ≤ m ∧ m < e) ∧ (∀ m, a ∣ m → n ≤ m → s ≤ m) ∧
      (∀ m, a ∣ m → m < n → m < e) := by
  have hdvd := dvd_fit e n a
  rw [fit] at hdvd ⊢
  split_ifs at hdvd ⊢ with hup
  · constructor
    · rintro ⟨hs, he⟩
      exact ⟨⟨_, hdvd, hs, he⟩, fun m hm hnm => le_trans hs (roundUp_le hm hnm),
        fun m hm hmn => lt_trans ((lt_roundUp_iff ha hm).2 hmn) he⟩
    · rintro ⟨-, hbelow, -⟩
      exact ⟨hbelow _ hdvd (le_roundUp ha n), hup⟩
  · have hle := roundDown_le (roundUp n a - 1) a
    constructor
    · rintro ⟨hs, he⟩
      refine ⟨⟨_, hdvd, hs, he⟩, fun m hm hnm => ?_, fun m hm hmn => ?_⟩
      · have := roundUp_le hm hnm
        omega
      · have := (lt_roundUp_iff ha hm).2 hmn
        exact lt_of_le_of_lt (le_roundDown hm (by omega)) he
    · rintro ⟨⟨m, hm, hsm, hme⟩, -, habove⟩
      have hle' := le_roundDown hm (show m ≤ roundUp n a - 1 by omega)
      exact ⟨le_trans hsm hle', habove _ hdvd ((lt_roundUp_iff ha hdvd).1 (by omega))⟩

theorem fit_lt {e : Nat} (ha : 0 < a) (h : n < e) : fit e n a < e :=
  ((fit_mem_iff (s := 0) ha).2 ⟨⟨0, Nat.dvd_zero a, Nat.le_refl 0, by omega⟩,
    fun _ _ _ => Nat.zero_le _, fun _ _ hm => lt_trans hm h⟩).2

end Multiple
