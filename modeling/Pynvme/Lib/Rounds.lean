import Pynvme.Lib.Word
import Mathlib.Data.Nat.SuccPred
import Mathlib.Data.Set.Lattice
import Mathlib.Order.Interval.Set.Disjoint
import Mathlib.Order.SuccPred.IntervalSucc

/-!
# Intervals that go round a region

An interval is given by its start and its length. The intervals of a list *follow*
one another if each starts where `next` of the end of the one before is
(`Follows`).

* With the identity they *tile* what is between the first start and the last end:
  they are disjoint (`Follows.pairwise_disjoint`), and cover it (`Follows.iUnion_eq`).
* With `wrap s e`, the intervals in the region from `s` to `e` go round it. Those
  from one visit of `s` to the next tile the region (`Follows.tiles_round`), and if
  they all have the length `n` but where the region ends, these are the first
  `(e - s) / n`, rounded up (`Follows.tiles_of_fixed`).
* With `stride s e a`, each interval starts at a multiple of `a` in the region. If one of
  the length `n` at the last multiple reaches the end of the region, then an interval starts
  behind the one before or at `s` (`lt_stride`), so that `s` is visited again and again
  (`Follows.visits`).
-/

/-- The interval of a start and a length. -/
def interval (x : Nat × Nat) : Set Nat := Set.Ico x.1 (x.1 + x.2)

/-- The slots of one size, one after the other, do not overlap. -/
theorem slots_disjoint {m n s : Nat} (h : m ≠ n) :
    Set.Ico (m * s) (m * s + s) ∩ Set.Ico (n * s) (n * s + s) = ∅ := by
  have hmono : Monotone fun i => i * s := fun i j hij => Nat.mul_le_mul_right s hij
  have hdisj := Set.disjoint_iff_inter_eq_empty.1 (hmono.pairwise_disjoint_on_Ico_succ h)
  simpa only [Order.succ_eq_add_one, Nat.add_one_mul] using hdisj

/-- The intervals of the list follow one another, from `c` on, and the next one starts at
    `c'`. -/
def Follows (next : Nat → Nat) : Nat → List (Nat × Nat) → Nat → Prop
  | c, [], c' => c = c'
  | c, x :: l, c' => x.1 = c ∧ Follows next (next (x.1 + x.2)) l c'

/-- Where the region from `s` to `e` goes on after `c`. -/
def wrap (s e c : Nat) : Nat := if c = e then s else c

variable {next : Nat → Nat} {l l₁ l₂ : List (Nat × Nat)} {x : Nat × Nat} {c c' s e n k : Nat}

theorem follows_append : Follows next c (l₁ ++ l₂) c' ↔
    ∃ m, Follows next c l₁ m ∧ Follows next m l₂ c' := by
  induction l₁ generalizing c with
  | nil =>
    constructor
    · exact fun h => ⟨c, rfl, h⟩
    · rintro ⟨m, rfl, h⟩
      exact h
  | cons x l₁ ih => simp only [List.cons_append, Follows, ih, and_assoc, exists_and_left]

/-- Another interval follows. -/
theorem Follows.concat (h : Follows next c l c') (hx : x.1 = c') :
    Follows next c (l ++ [x]) (next (x.1 + x.2)) :=
  follows_append.2 ⟨c', h, hx, rfl⟩

/-! ### Tiles -/

theorem Follows.le (h : Follows id c l c') : c ≤ c' ∧ ∀ x ∈ l, c ≤ x.1 := by
  induction l generalizing c with
  | nil => exact ⟨Nat.le_of_eq h, by simp⟩
  | cons x l ih =>
    obtain ⟨rfl, h⟩ := h
    obtain ⟨hle, hall⟩ := ih h
    rw [id_eq] at hle hall
    refine ⟨by omega, fun y hy => ?_⟩
    rcases List.mem_cons.1 hy with rfl | hy
    · exact Nat.le_refl _
    · exact Nat.le_trans (Nat.le_add_right _ _) (hall y hy)

theorem Follows.pairwise_disjoint (h : Follows id c l c') :
    l.Pairwise fun x y => interval x ∩ interval y = ∅ := by
  induction l generalizing c with
  | nil => exact List.Pairwise.nil
  | cons x l ih =>
    obtain ⟨rfl, h⟩ := h
    refine List.pairwise_cons.2 ⟨fun y hy => ?_, ih h⟩
    have hle : x.1 + x.2 ≤ y.1 := h.le.2 y hy
    refine Set.eq_empty_iff_forall_notMem.2 fun a ha => ?_
    exact absurd (lt_of_lt_of_le ha.1.2 hle) (Nat.not_lt.2 ha.2.1)

theorem Follows.iUnion_eq (h : Follows id c l c') : ⋃ x ∈ l, interval x = Set.Ico c c' := by
  induction l generalizing c with
  | nil =>
    obtain rfl : c = c' := h
    simp
  | cons x l ih =>
    obtain ⟨rfl, h⟩ := h
    have hle : x.1 + x.2 ≤ c' := h.le.1
    simp only [List.mem_cons, Set.iUnion_iUnion_eq_or_left]
    rw [ih h, id_eq, interval, Set.Ico_union_Ico_eq_Ico (Nat.le_add_right _ _) hle]

/-! ### Rounds -/

/-- The intervals from one visit of `s` to the next tile the region. -/
theorem Follows.tiles_round (h : Follows (wrap s e) c (x :: l) s) (hc : s ≤ c)
    (hin : ∀ y ∈ x :: l, 0 < y.2) (hvisit : ∀ y ∈ l, y.1 ≠ s) : Follows id c (x :: l) e := by
  induction l generalizing x c with
  | nil =>
    obtain ⟨rfl, h⟩ := h
    have hpos := hin x List.mem_cons_self
    refine ⟨rfl, ?_⟩
    have hwrap : wrap s e (x.1 + x.2) = s := h
    rw [wrap] at hwrap
    split_ifs at hwrap with he
    · exact he
    · omega
  | cons y l ih =>
    obtain ⟨rfl, hy, h⟩ := h
    have hne := hvisit y List.mem_cons_self
    -- The region does not end before `y`, which would start at `s`.
    have hwrap : wrap s e (x.1 + x.2) = x.1 + x.2 := by
      rw [wrap] at hy ⊢
      split_ifs at hy ⊢
      · exact absurd hy hne
      · rfl
    rw [hwrap] at hy
    refine ⟨rfl, ih ⟨hy, h⟩ ?_ (fun z hz => hin z (List.mem_cons_of_mem _ hz))
      fun z hz => hvisit z (List.mem_cons_of_mem _ hz)⟩
    rw [id_eq]
    omega

/-- With a fixed length, `k` intervals go round the region once. -/
theorem Follows.tiles_of_fixed {i : Nat} (h : Follows (wrap s e) (s + n * i) l c')
    (hk : n * (k - 1) < e - s ∧ e - s ≤ n * k) (hfixed : ∀ x ∈ l, x.2 = min n (e - x.1))
    (hi : i < k) (hlen : i + l.length ≤ k) :
    Follows id (s + n * i) l (if i + l.length = k then e else s + n * (i + l.length)) := by
  induction l generalizing i with
  | nil => exact (if_neg (Nat.ne_of_lt hi)).symm
  | cons x l ih =>
    obtain ⟨hx, h⟩ := h
    have hsize := hfixed x List.mem_cons_self
    rw [List.length_cons] at hlen ⊢
    refine ⟨hx, ?_⟩
    rcases Nat.lt_or_ge (i + 1) k with hlt | hge
    · -- The region goes on after `x`.
      have hle : n * (i + 1) ≤ n * (k - 1) := Nat.mul_le_mul_left n (by omega)
      have hend : x.1 + x.2 = s + n * (i + 1) := by
        rw [Nat.mul_succ] at hle ⊢
        omega
      have hwrap : wrap s e (s + n * (i + 1)) = s + n * (i + 1) := if_neg (by omega)
      rw [hend, hwrap] at h
      have htiles := ih h (fun y hy => hfixed y (List.mem_cons_of_mem _ hy)) hlt (by omega)
      rw [Nat.add_assoc, Nat.add_comm 1] at htiles
      rw [id_eq, hend]
      exact htiles
    · -- It ends with `x`, the last interval.
      obtain rfl : l = [] := List.length_eq_zero_iff.1 (by omega)
      obtain rfl : k = i + 1 := by omega
      rw [Nat.add_sub_cancel, Nat.mul_succ] at hk
      rw [List.length_nil, Nat.zero_add, if_pos rfl]
      have hend : x.1 + x.2 = e := by omega
      exact hend

/-! ### Aligned rounds -/

section Stride

open Multiple

/-- Where the region from `s` to `e` goes on after `c`, rounded into it to the multiples
    of `a`. -/
def stride (s e a c : Nat) : Nat := fit e (if c < e then c else s) a

variable {a m : Nat}

theorem stride_of_le (hs : a ∣ s) (hse : s < e) (hc : e ≤ c) : stride s e a c = s := by
  have hup : roundUp s a = s := if_pos (Nat.mod_eq_zero_of_dvd hs)
  rw [stride, if_neg (Nat.not_lt.2 hc), fit, hup, if_pos hse]

theorem stride_mem (ha : 0 < a) (hs : a ∣ s) (hse : s < e) (hc : s ≤ c) :
    a ∣ stride s e a c ∧ s ≤ stride s e a c ∧ stride s e a c < e := by
  refine ⟨dvd_fit _ _ _, (fit_mem_iff ha).2 ⟨⟨s, hs, Nat.le_refl s, hse⟩, ?_, ?_⟩⟩
  · intro m _ hm
    split_ifs at hm <;> omega
  · intro m _ hm
    split_ifs at hm <;> omega

/-- In the region, the next start is behind the one before. -/
theorem lt_stride (ha : 0 < a) (hreach : e ≤ roundDown (e - 1) a + n) (hn : 0 < n)
    (hlt : m + n < e) : m < stride s e a (m + n) := by
  rw [stride, if_pos hlt, fit]
  split_ifs with hup
  · have := le_roundUp ha (m + n)
    omega
  · -- it is the last multiple of the region
    have hlast : roundDown (e - 1) a ≤ roundDown (roundUp (m + n) a - 1) a :=
      le_roundDown (dvd_roundDown _ a) (Nat.le_trans (roundDown_le _ a) (by omega))
    omega

/-- The start stays the same only at the start of a region that is not longer than the
    interval. -/
theorem stride_eq_iff (ha : 0 < a) (hs : a ∣ s) (hse : s < e)
    (hreach : e ≤ roundDown (e - 1) a + n) (hn : 0 < n) :
    stride s e a (m + n) = m ↔ m = s ∧ e ≤ s + n := by
  rcases Nat.lt_or_ge (m + n) e with hlt | hge
  · have hgt := lt_stride (s := s) ha hreach hn hlt
    omega
  · rw [stride_of_le hs hse hge]
    omega

/-- Intervals that avoid the start of the region go up in it. -/
theorem Follows.length_le (h : Follows (stride s e a) c (x :: l) c') (ha : 0 < a) (hs : a ∣ s)
    (hse : s < e) (hreach : e ≤ roundDown (e - 1) a + n) (hn : 0 < n)
    (hlen : ∀ y ∈ x :: l, y.2 = n) (hin : ∀ y ∈ x :: l, y.1 < e)
    (hvisit : ∀ y ∈ l, y.1 ≠ s) : c + (x :: l).length ≤ e := by
  induction l generalizing x c with
  | nil =>
    obtain ⟨rfl, -⟩ := h
    exact hin x List.mem_cons_self
  | cons y l ih =>
    obtain ⟨rfl, hy, h⟩ := h
    have hlt : x.1 + n < e := by
      by_contra hge
      rw [hlen x List.mem_cons_self, stride_of_le hs hse (Nat.not_lt.1 hge)] at hy
      exact hvisit y List.mem_cons_self hy
    have hgt : x.1 < y.1 := by
      rw [hy, hlen x List.mem_cons_self]
      exact lt_stride ha hreach hn hlt
    have hle := ih (c := y.1) ⟨rfl, h⟩ (fun z hz => hlen z (List.mem_cons_of_mem _ hz))
      (fun z hz => hin z (List.mem_cons_of_mem _ hz))
      fun z hz => hvisit z (List.mem_cons_of_mem _ hz)
    simp only [List.length_cons] at hle ⊢
    omega

/-- As many intervals as the region is long include one at its start. -/
theorem Follows.visits (h : Follows (stride s e a) c l c') (ha : 0 < a) (hs : a ∣ s)
    (hse : s < e) (hreach : e ≤ roundDown (e - 1) a + n) (hn : 0 < n)
    (hlen : ∀ y ∈ l, y.2 = n) (hin : ∀ y ∈ l, s ≤ y.1 ∧ y.1 < e) (hlong : e - s ≤ l.length) :
    ∃ y ∈ l, y.1 = s := by
  cases l with
  | nil =>
    rw [List.length_nil] at hlong
    omega
  | cons x l =>
    by_contra hno
    have hne : ∀ y ∈ x :: l, y.1 ≠ s := fun y hy he => hno ⟨y, hy, he⟩
    have hle := h.length_le ha hs hse hreach hn hlen (fun y hy => (hin y hy).2)
      fun y hy => hne y (List.mem_cons_of_mem _ hy)
    have hx := hin x List.mem_cons_self
    have hxne := hne x List.mem_cons_self
    have hc : x.1 = c := h.1
    omega

end Stride
