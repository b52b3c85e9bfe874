import Pynvme.Ioworker.Accounting
import Pynvme.Ioworker.Lba

/-!
# The table of the sections

A distribution gives a weight to each of the 100 sections of the namespace. The table
`dl_table`, from which the section of an IO is drawn, is filled by two nested loops, which
share the index of the next slot; that it has come to 10000 is asserted only after all has
been written (`ioworkerDistributionFill`).

`distribution_table_exact`: what is written are the first 10000 slots, in which each
section stands as often as its weight says, in order; and the sections follow one another
from the first LBA to the end of the region. The table is that of the model
(`ioworkerDistributionFill_eq`).
-/

namespace Pynvme

open Word

/-! ### The loops -/

/-- The loops of `ioworker_distribution_init` on the table, with the index of the next slot. -/
def distributionLoop (lbaMax : Nat) (args : Args) (distribution : List Nat)
    (table : Nat → Section) : (Nat → Section) × Nat :=
  let lbaSection := lbaMax / 100
  forLoop 100 (fun i s =>
    let sectionStart := u64 (lbaSection * i)
    let sectionEnd := if i = 99 then args.regionEnd else u64 (sectionStart + lbaSection)
    -- fill lookup table
    forLoop (distribution.getD i 0) (fun _ (table, lookupIndex) =>
      (Function.update table lookupIndex ⟨sectionStart, sectionEnd⟩, u32 (lookupIndex + 1))) s)
    (table, 0)

/-- The nested loops of a lookup table: the value of each `i < n` is written as often as its
    weight says. They leave the index of the next slot. -/
def fillLoop {α : Type} (n : Nat) (weight : Nat → Nat) (value : Nat → α) (table : Nat → α) :
    (Nat → α) × Nat :=
  forLoop n (fun i s => forLoop (weight i) (fun _ (table, lookupIndex) =>
    (Function.update table lookupIndex (value i), u32 (lookupIndex + 1))) s) (table, 0)

/-- `ioworker_distribution_init`, with its assertion. -/
def ioworkerDistributionFill (lbaMax : Nat) (args : Args) (distribution : List Nat)
    (table : Nat → Section) : Except Abort (Nat → Section) :=
  let (table, lookupIndex) := distributionLoop lbaMax args distribution table
  if lookupIndex = 10000 then .ok table else .error .entry

variable {α : Type} {table : Nat → α} {l : List α} {x : α}

/-- The slots have been written from the first one on, with the elements of `l`. -/
structure Written (table : Nat → α) (l : List α) (s : (Nat → α) × Nat) : Prop where
  index : s.2 = l.length
  written : ∀ j, (hj : j < l.length) → s.1 j = l[j]
  rest : ∀ j, l.length ≤ j → s.1 j = table j

theorem written_nil (table : Nat → α) : Written table [] (table, 0) :=
  ⟨rfl, by simp, fun _ _ => rfl⟩

/-- The next slot is written. -/
theorem Written.push {s : (Nat → α) × Nat} (h : Written table l s) (hlen : l.length + 1 < 2 ^ 32)
    (x : α) : Written table (l ++ [x]) (Function.update s.1 s.2 x, u32 (s.2 + 1)) := by
  constructor
  case index =>
    rw [h.index, u32_of_lt hlen, List.length_append, List.length_singleton]
  case written =>
    intro j hj
    rw [List.length_append, List.length_singleton] at hj
    dsimp only
    rw [h.index]
    rcases Nat.lt_or_eq_of_le (Nat.lt_succ_iff.1 hj) with hlt | rfl
    · rw [Function.update_of_ne (by omega), List.getElem_append_left hlt, h.written j hlt]
    · rw [Function.update_self, List.getElem_concat_length rfl]
  case rest =>
    intro j hj
    rw [List.length_append, List.length_singleton] at hj
    dsimp only
    rw [h.index, Function.update_of_ne (by omega), h.rest j (by omega)]

/-- The inner loop writes a section as often as its weight says. -/
theorem Written.replicate {s : (Nat → α) × Nat} (h : Written table l s) {n : Nat}
    (hlen : l.length + n < 2 ^ 32) (x : α) :
    Written table (l ++ List.replicate n x) (forLoop n (fun _ (t, i) =>
      (Function.update t i x, u32 (i + 1))) s) := by
  refine forLoop_induction (I := fun k s => Written table (l ++ List.replicate k x) s) ?_ ?_
  · simpa using h
  · intro k hk s hs
    rw [List.replicate_succ', ← List.append_assoc]
    exact hs.push (by simp; omega) x

/-! ### The table -/

section Tables

variable {n m : Nat} {weight : Nat → Nat} {value : Nat → α}

theorem lookupTable_succ (n : Nat) (weight : Nat → Nat) (value : Nat → α) :
    lookupTable (n + 1) weight value =
      lookupTable n weight value ++ List.replicate (weight n) (value n) := by
  simp [lookupTable, List.range_succ]

theorem length_lookupTable_mono (weight : Nat → Nat) (value : Nat → α) (h : n ≤ m) :
    (lookupTable n weight value).length ≤ (lookupTable m weight value).length := by
  induction h with
  | refl => exact Nat.le_refl _
  | step _ ih =>
    rw [lookupTable_succ, List.length_append]
    exact Nat.le_add_right_of_le ih

/-- The indices of the values are in order. -/
theorem lookupTable_sorted (n : Nat) (weight : Nat → Nat) :
    (lookupTable n weight id).Pairwise (· ≤ ·) := by
  induction n with
  | zero => exact .nil
  | succ n ih =>
    rw [lookupTable_succ]
    refine List.pairwise_append.2 ⟨ih, List.pairwise_replicate.2 (.inr le_rfl), fun i hi j hj => ?_⟩
    obtain ⟨i, hlt, -, rfl⟩ := mem_lookupTable.1 hi
    rw [List.eq_of_mem_replicate hj]
    exact hlt.le

theorem count_lookupTable (n : Nat) (weight : Nat → Nat) (i : Nat) :
    (lookupTable n weight id).count i = if i < n then weight i else 0 := by
  induction n with
  | zero => simp [lookupTable]
  | succ n ih =>
    rw [lookupTable_succ, List.count_append, ih, List.count_replicate]
    rcases Nat.lt_trichotomy i n with hlt | rfl | hgt
    · simp [hlt, Nat.lt_succ_of_lt hlt, Nat.ne_of_gt hlt]
    · simp
    · simp [Nat.not_lt_of_gt hgt, Nat.ne_of_lt hgt, Nat.not_lt.2 (Nat.succ_le_of_lt hgt)]

theorem lookupTable_eq_map (n : Nat) (weight : Nat → Nat) (value : Nat → α) :
    lookupTable n weight value = (lookupTable n weight id).map value := by
  simp [lookupTable, List.map_flatMap]

theorem lookupTable_congr {value' : Nat → α} (h : ∀ i < n, value i = value' i) :
    lookupTable n weight value = lookupTable n weight value' := by
  induction n with
  | zero => rfl
  | succ n ih =>
    rw [lookupTable_succ, lookupTable_succ, ih fun i hi => h i (Nat.lt_succ_of_lt hi),
      h n (Nat.lt_succ_self n)]

/-- The loops write the lookup table, if its slots can be counted in 32 bits. -/
theorem fillLoop_written (hlen : (lookupTable n weight value).length < 2 ^ 32)
    (table : Nat → α) :
    Written table (lookupTable n weight value) (fillLoop n weight value table) := by
  refine forLoop_induction (I := fun k s => k ≤ n → Written table (lookupTable k weight value) s)
    ?_ ?_ le_rfl
  · exact fun _ => written_nil table
  · intro i hi s hs _
    have hle := length_lookupTable_mono weight value (Nat.succ_le_of_lt hi)
    rw [lookupTable_succ, List.length_append, List.length_replicate] at hle
    rw [lookupTable_succ]
    exact (hs hi.le).replicate (by omega) _

end Tables

variable {nsze : Nat} {args : Args} {distribution : List Nat} {table : Nat → Section}

/-- A section is computed in 64 bits without overflow. -/
theorem distributionSection_eq (hnsze : nsze < 2 ^ 64) {i : Nat} (hi : i < 100) :
    (⟨u64 (nsze / 100 * i),
      if i = 99 then args.regionEnd else u64 (u64 (nsze / 100 * i) + nsze / 100)⟩ : Section) =
      distributionSection nsze args i := by
  have hmul : nsze / 100 * (i + 1) ≤ nsze / 100 * 100 := Nat.mul_le_mul_left _ hi
  rw [Nat.mul_succ] at hmul
  rw [u64_of_lt (n := nsze / 100 * i) (by omega), u64_of_lt (by omega)]
  rfl

variable (args) in
/-- The loops write the table of the model. -/
theorem distributionLoop_written (hnsze : nsze < 2 ^ 64) (hlen : distribution.length = 100)
    (hsum : distribution.sum = 10000) (table : Nat → Section) :
    Written table (ioworkerDistributionInit nsze args distribution)
      (distributionLoop nsze args distribution table) := by
  have htotal := length_ioworkerDistributionInit nsze args hlen
  have heq : ioworkerDistributionInit nsze args distribution =
      lookupTable 100 (fun i => distribution.getD i 0) fun i =>
        ⟨u64 (nsze / 100 * i),
          if i = 99 then args.regionEnd else u64 (u64 (nsze / 100 * i) + nsze / 100)⟩ :=
    lookupTable_congr fun i hi => (distributionSection_eq hnsze hi).symm
  rw [heq] at htotal ⊢
  exact fillLoop_written (by omega) table

variable (args) in
/-- `ioworker_distribution_init` fills the table that the model has. -/
theorem ioworkerDistributionFill_eq (hnsze : nsze < 2 ^ 64) (hlen : distribution.length = 100)
    (hsum : distribution.sum = 10000) (table : Nat → Section) :
    ∃ table', ioworkerDistributionFill nsze args distribution table = .ok table' ∧
      (List.range 10000).map table' = ioworkerDistributionInit nsze args distribution ∧
      ∀ j, 10000 ≤ j → table' j = table j := by
  have hw := distributionLoop_written args hnsze hlen hsum table
  have htotal : (ioworkerDistributionInit nsze args distribution).length = 10000 :=
    (length_ioworkerDistributionInit nsze args hlen).trans hsum
  refine ⟨(distributionLoop nsze args distribution table).1, ?_, ?_, ?_⟩
  · exact if_pos (hw.index.trans htotal)
  · refine List.ext_getElem (by simp [htotal]) fun j _ hj => ?_
    rw [List.getElem_map, List.getElem_range, hw.written j hj]
  · exact fun j hj => hw.rest j (htotal ▸ hj)

/-! ### The sections -/

/-- The sections follow one another, from the first LBA to the end of the region. -/
structure Partition (nsze : Nat) (args : Args) : Prop where
  ordered : ∀ i < 100, (distributionSection nsze args i).lbaStart ≤
    (distributionSection nsze args i).lbaEnd
  abut : ∀ i < 99, (distributionSection nsze args i).lbaEnd =
    (distributionSection nsze args (i + 1)).lbaStart
  first : (distributionSection nsze args 0).lbaStart = 0
  last : (distributionSection nsze args 99).lbaEnd = args.regionEnd

theorem partition_of_regionEnd (hend : 99 * (nsze / 100) ≤ args.regionEnd) :
    Partition nsze args where
  ordered := by
    intro i hi
    simp only [distributionSection]
    split_ifs with h
    · subst h
      omega
    · omega
  abut := by
    intro i hi
    simp only [distributionSection, if_neg (show i ≠ 99 by omega), Nat.mul_succ]
  first := Nat.mul_zero _
  last := rfl

/-- For a namespace of any size, a region that does not end before its last section, and 100
    weights that add up to 10000, `ioworker_distribution_init` writes the slots 0 to 9999 and no
    others; these hold the sections in order, each as often as its weight says; and the sections
    are a partition of the LBAs of the region. -/
theorem distribution_table_exact (hnsze : nsze < 2 ^ 64)
    (hend : 99 * (nsze / 100) ≤ args.regionEnd) (hlen : distribution.length = 100)
    (hsum : distribution.sum = 10000) (table : Nat → Section) :
    (∃ (table' : Nat → Section) (sec : List Nat),
      ioworkerDistributionFill nsze args distribution table = .ok table' ∧
      (∀ j, 10000 ≤ j → table' j = table j) ∧
      sec.length = 10000 ∧ (List.range 10000).map table' = sec.map (distributionSection nsze args) ∧
      (∀ i, sec.count i = if i < 100 then distribution.getD i 0 else 0) ∧
      sec.Pairwise (· ≤ ·)) ∧
    Partition nsze args := by
  refine ⟨?_, partition_of_regionEnd hend⟩
  obtain ⟨table', hfill, htable, hrest⟩ := ioworkerDistributionFill_eq args hnsze hlen hsum table
  have hmap : ioworkerDistributionInit nsze args distribution =
      (lookupTable 100 (fun i => distribution.getD i 0) id).map (distributionSection nsze args) :=
    lookupTable_eq_map _ _ _
  refine ⟨table', _, hfill, hrest, ?_, htable.trans hmap, count_lookupTable _ _,
    lookupTable_sorted _ _⟩
  rw [← hsum, ← length_ioworkerDistributionInit nsze args hlen, hmap, List.length_map]

/-- The arguments of a worker on a region of 1234567 sectors. -/
def wideArgs : Args := { readOnceArgs with regionEnd := 1234567 }

/-- The sections of a namespace of this size, with equal weights. -/
theorem distribution_table_exact_equal :
    ∃ (table' : Nat → Section) (sec : List Nat),
      ioworkerDistributionFill 1234567 wideArgs (List.replicate 100 100) (fun _ => ⟨0, 0⟩) =
        .ok table' ∧
      table' 10000 = ⟨0, 0⟩ ∧ (List.range 10000).map table' =
        sec.map (distributionSection 1234567 wideArgs) ∧ sec.count 99 = 100 := by
  obtain ⟨⟨table', sec, hfill, hrest, -, htable, hcount, -⟩, -⟩ := distribution_table_exact
    (show 1234567 < 2 ^ 64 by decide) (show 99 * (1234567 / 100) ≤ wideArgs.regionEnd by decide)
    (List.length_replicate (n := 100) (a := 100)) (by decide) (fun _ => ⟨0, 0⟩)
  exact ⟨table', sec, hfill, hrest 10000 le_rfl, htable, hcount 99⟩

end Pynvme
