import Mathlib.Algebra.Order.Ring.Nat
import Mathlib.Tactic.Common

/-!
# Byte memories

A memory (or a buffer, from its first byte on) gives a byte to every offset.
Words are little endian: `readLe m a n` is the `n`-byte word at `a`, and
`writeLe m a n v` the memory after storing the low `n` bytes of `v` there.

A stored word reads back (`readLe_writeLe_self`), and a store changes no byte
outside its word (`writeLe_of_not_mem`), hence no other word
(`readLe_writeLe_of_disjoint`). The bytes of a number are those of a word with
its value (`readLe_eq_of_ofLe`).
-/

/-- A byte at every offset. -/
abbrev Bytes := Nat → BitVec 8

namespace Bytes

/-- The `n` bytes of `m` from `a` on. -/
def slice (m : Bytes) (a n : Nat) : List (BitVec 8) := (List.range n).map fun k => m (a + k)

/-- The little-endian word of `n` bytes at `a`. -/
def readLe (m : Bytes) (a : Nat) : Nat → Nat
  | 0 => 0
  | n + 1 => readLe m a n + (m (a + n)).toNat * 256 ^ n

/-- The memory after storing the `n` low bytes of `v` at `a`. -/
def writeLe (m : Bytes) (a n v : Nat) : Bytes := fun j =>
  if a ≤ j ∧ j < a + n then BitVec.ofNat 8 (v / 256 ^ (j - a)) else m j

/-- The `n` low bytes of `v`, the lowest first. -/
def ofLe (n v : Nat) : List (BitVec 8) := (List.range n).map fun k => BitVec.ofNat 8 (v / 256 ^ k)

variable {m m' : Bytes} {a b n k v j : Nat}

@[simp] theorem length_ofLe (n v : Nat) : (ofLe n v).length = n := by simp [ofLe]

@[simp] theorem getElem_ofLe (h : k < (ofLe n v).length) :
    (ofLe n v)[k] = BitVec.ofNat 8 (v / 256 ^ k) := by simp [ofLe]

theorem slice_congr (h : ∀ k < n, m (a + k) = m' (b + k)) : slice m a n = slice m' b n :=
  List.map_congr_left fun k hk => h k (List.mem_range.1 hk)

theorem readLe_congr (h : ∀ k < n, m (a + k) = m' (b + k)) : readLe m a n = readLe m' b n := by
  induction n with
  | zero => rfl
  | succ n ih =>
    rw [readLe, readLe, ih fun k hk => h k (Nat.lt_succ_of_lt hk), h n (Nat.lt_succ_self n)]

theorem readLe_zeros (a n : Nat) : readLe (fun _ => 0#8) a n = 0 := by
  induction n with
  | zero => rfl
  | succ n ih => simp [readLe, ih]

theorem readLe_lt (m : Bytes) (a n : Nat) : readLe m a n < 256 ^ n := by
  induction n with
  | zero => simp [readLe]
  | succ n ih =>
    have hb : (m (a + n)).toNat + 1 ≤ 256 := (m (a + n)).isLt
    have hmul := Nat.mul_le_mul_right (256 ^ n) hb
    rw [Nat.add_mul, Nat.one_mul] at hmul
    rw [readLe, Nat.pow_succ, Nat.mul_comm (256 ^ n) 256]
    omega

theorem writeLe_of_not_mem (h : ¬(a ≤ j ∧ j < a + n)) : writeLe m a n v j = m j := if_neg h

/-- The stored bytes are the digits of the value. -/
theorem readLe_writeLe (hk : k ≤ n) : readLe (writeLe m a n v) a k = v % 256 ^ k := by
  induction k with
  | zero => simp [readLe, Nat.mod_one]
  | succ k ih =>
    have hbyte : writeLe m a n v (a + k) = BitVec.ofNat 8 (v / 256 ^ k) := by
      rw [writeLe, if_pos (by omega), Nat.add_sub_cancel_left]
    have hdigits : v % 256 ^ (k + 1) = v % 256 ^ k + 256 ^ k * (v / 256 ^ k % 256) := by
      rw [Nat.pow_succ 256 k, Nat.mod_mul]
    rw [readLe, ih (by omega), hbyte, BitVec.toNat_ofNat, hdigits, Nat.mul_comm (256 ^ k)]

theorem readLe_writeLe_self (hv : v < 256 ^ n) : readLe (writeLe m a n v) a n = v := by
  rw [readLe_writeLe (Nat.le_refl n), Nat.mod_eq_of_lt hv]

theorem readLe_writeLe_of_disjoint (h : b + k ≤ a ∨ a + n ≤ b) :
    readLe (writeLe m a n v) b k = readLe m b k :=
  readLe_congr fun i hi => writeLe_of_not_mem (by omega)

/-- A word has the bytes that it was read from. -/
theorem ofNat_readLe_div (hk : k < n) : BitVec.ofNat 8 (readLe m a n / 256 ^ k) = m (a + k) := by
  induction n with
  | zero => exact absurd hk (Nat.not_lt_zero k)
  | succ n ih =>
    have hlt := readLe_lt m a n
    rcases Nat.lt_succ_iff_lt_or_eq.1 hk with hlow | rfl
    · -- The new byte is above the `k`th one.
      obtain ⟨j, rfl⟩ : ∃ j, n = k + 1 + j := ⟨n - (k + 1), by omega⟩
      have hpow : (m (a + (k + 1 + j))).toNat * 256 ^ (k + 1 + j) =
          256 ^ k * (256 * ((m (a + (k + 1 + j))).toNat * 256 ^ j)) := by
        rw [Nat.pow_add, Nat.pow_succ]
        ac_rfl
      rw [readLe, hpow, Nat.add_mul_div_left _ _ (Nat.pow_pos (by decide)), ← ih hlow]
      refine BitVec.eq_of_toNat_eq ?_
      rw [BitVec.toNat_ofNat, BitVec.toNat_ofNat]
      omega
    · rw [readLe, Nat.add_mul_div_right _ _ (Nat.pow_pos (by decide)), Nat.div_eq_of_lt hlt,
        Nat.zero_add, BitVec.ofNat_toNat, BitVec.setWidth_eq]

/-- A word that is stored where it was read from changes nothing. -/
theorem writeLe_readLe (m : Bytes) (a n : Nat) : writeLe m a n (readLe m a n) = m := by
  funext j
  by_cases hj : a ≤ j ∧ j < a + n
  · rw [writeLe, if_pos hj, ofNat_readLe_div (by omega), Nat.add_sub_cancel' hj.1]
  · exact writeLe_of_not_mem hj

/-- Of two words stored at the same place, the second one stays. -/
theorem writeLe_writeLe {w : Nat} : writeLe (writeLe m a n v) a n w = writeLe m a n w := by
  funext j
  by_cases hj : a ≤ j ∧ j < a + n
  · rw [writeLe, if_pos hj, writeLe, if_pos hj]
  · rw [writeLe_of_not_mem hj, writeLe_of_not_mem hj, writeLe_of_not_mem hj]

/-- The `k`th byte of the `i`th of values that have `n` bytes each. -/
theorem getElem?_flatMap {α : Type*} {f : α → List (BitVec 8)} {l : List α} {i : Nat}
    (hf : ∀ x, (f x).length = n) (hk : k < n) :
    (l.flatMap f)[i * n + k]? = l[i]?.bind fun x => (f x)[k]? := by
  induction l generalizing i with
  | nil => simp
  | cons x l ih =>
    rw [List.flatMap_cons]
    rcases i with _ | i
    · rw [List.getElem?_append_left (by rw [hf x]; omega), Nat.zero_mul, Nat.zero_add]
      rfl
    · have hpos : (i + 1) * n + k - (f x).length = i * n + k := by
        rw [hf x, Nat.succ_mul]
        omega
      rw [List.getElem?_append_right (by rw [hf x, Nat.succ_mul]; omega), hpos, ih]
      rfl

/-- The word at `a`, if the bytes of `v` are there. -/
theorem readLe_eq_of_ofLe (h : ∀ k < n, m (a + k) = BitVec.ofNat 8 (v / 256 ^ k)) :
    readLe m a n = v % 256 ^ n := by
  rw [← readLe_writeLe (m := m) (a := a) (v := v) (Nat.le_refl n)]
  refine readLe_congr fun k hk => ?_
  rw [h k hk, writeLe, if_pos (by omega), Nat.add_sub_cancel_left]

end Bytes
