import Pynvme.Ioworker.Sections

/-!
# The tables of the sizes and of the operations

Each IO takes a random slot of `sl_table` for its size, and one of `op_table` for its
operation. The tables are filled, like that of the sections, by nested loops that share the
index of the next slot: `ioworker_iosize_init` writes the index of each size as often as its
ratio says, and `ioworker_entry` that of each operation, in 8 bits, as often as its
percentage says. What has been written is counted by assertions behind the loops.

`lookup_tables_exact`: the slots that can be drawn are exactly those that are written, and
the indices in them stand in order and as often as their weights say; a size is sent with
its own alignment.
-/

namespace Pynvme

open Word

/-! ### The loops -/

/-- `ioworker_iosize_init`, with its assertions. -/
def ioworkerIosizeFill (args : Args) (slTable : Nat → Nat) : Except Abort (Nat → Nat) :=
  if args.lbaSizeRatioSum ≤ 10000 then
    let (slTable, slIndex) := fillLoop args.lbaSizeList.length
      (fun i => (args.lbaSizeList.map LbaSize.ratio).getD i 0) id slTable
    if slIndex = args.lbaSizeRatioSum then .ok slTable else .error .entry
  else .error .entry

/-- The loops of `ioworker_entry` that build the op lookup table, with their assertion. -/
def ioworkerOpFill (args : Args) (opTable : Nat → Nat) : Except Abort (Nat → Nat) :=
  let (opTable, opTableIndex) := fillLoop args.opList.length
    (fun i => (args.opList.map Prod.snd).getD i 0) (fun i => i % 2 ^ 8) opTable
  if opTableIndex = 100 then .ok opTable else .error .entry

variable {α : Type} {args : Args} {weights l : List Nat} {total : Nat}

/-- Whatever is in a table before, the slots from the first one on are written with the
    elements of `l`, and no others. -/
def Fills (fill : (Nat → α) → Except Abort (Nat → α)) (l : List α) : Prop :=
  ∀ table, ∃ table', fill table = .ok table' ∧ ∀ j, table' j = l.getD j (table j)

theorem Written.apply {table : Nat → α} {l : List α} {s : (Nat → α) × Nat}
    (h : Written table l s) (j : Nat) : s.1 j = l.getD j (table j) := by
  rw [List.getD_eq_getElem?_getD]
  rcases Nat.lt_or_ge j l.length with hlt | hge
  · rw [h.written j hlt, List.getElem?_eq_getElem hlt, Option.getD_some]
  · rw [h.rest j hge, List.getElem?_eq_none hge, Option.getD_none]

/-- Loops that write as many slots as is asserted behind them. -/
theorem fillLoop_fills {n : Nat} {weight : Nat → Nat} {value : Nat → α}
    (hlen : (lookupTable n weight value).length = total) (hlt : total < 2 ^ 32) :
    Fills (fun table =>
      let (table, index) := fillLoop n weight value table
      if index = total then .ok table else .error .entry) (lookupTable n weight value) := by
  intro table
  have hw := fillLoop_written (show (lookupTable n weight value).length < 2 ^ 32 by omega) table
  exact ⟨_, if_pos (hw.index.trans hlen), hw.apply⟩

/-- `ioworker_iosize_init` fills the table that the model has. -/
theorem ioworkerIosizeFill_fills
    (hsum : (args.lbaSizeList.map LbaSize.ratio).sum = args.lbaSizeRatioSum)
    (hle : args.lbaSizeRatioSum ≤ 10000) :
    Fills (ioworkerIosizeFill args) (ioworkerIosizeInit args) := by
  intro table
  rw [ioworkerIosizeFill, if_pos hle]
  exact fillLoop_fills ((length_ioworkerIosizeInit args).trans hsum) (by omega) table

/-- So do the loops over the operations. -/
theorem ioworkerOpFill_fills (hsum : (args.opList.map Prod.snd).sum = 100) :
    Fills (ioworkerOpFill args) (ioworkerOpInit args) :=
  fillLoop_fills ((length_ioworkerOpInit args).trans hsum) (by decide)

/-! ### The weights -/

/-- The table has `total` slots, in which the indices of the weights stand in order, each as
    often as its weight says; so each draw finds an index with a weight. -/
structure Weighted (weights : List Nat) (total : Nat) (l : List Nat) : Prop where
  length : l.length = total
  sorted : l.Pairwise (· ≤ ·)
  count : ∀ i, l.count i = weights.getD i 0
  draw : ∀ random, l.getD (random % total) 0 < weights.length ∧
    0 < weights.getD (l.getD (random % total) 0) 0

theorem lookupTable_weighted (hsum : weights.sum = total) (h0 : total ≠ 0) :
    Weighted weights total (lookupTable weights.length (fun i => weights.getD i 0) id) where
  length := (length_lookupTable_list weights id).trans hsum
  sorted := lookupTable_sorted _ _
  count i := by
    rw [count_lookupTable]
    split_ifs with hi
    · rfl
    · rw [List.getD_eq_getElem?_getD, List.getElem?_eq_none (Nat.not_lt.1 hi), Option.getD_none]
  draw random := by
    have hlen := (length_lookupTable_list weights id).trans hsum
    obtain ⟨i, hi, hpos, heq⟩ := mem_lookupTable.1 (getD_mem hlen h0 random 0)
    rw [heq]
    exact ⟨hi, hpos⟩

theorem ioworkerIosizeInit_weighted
    (hsum : (args.lbaSizeList.map LbaSize.ratio).sum = args.lbaSizeRatioSum)
    (h0 : args.lbaSizeRatioSum ≠ 0) :
    Weighted (args.lbaSizeList.map LbaSize.ratio) args.lbaSizeRatioSum
      (ioworkerIosizeInit args) := by
  have h := lookupTable_weighted hsum h0
  rwa [List.length_map] at h

/-- The indices of up to 256 operations fit in the 8 bits of a slot. -/
theorem ioworkerOpInit_weighted (hsum : (args.opList.map Prod.snd).sum = 100)
    (hnum : args.opList.length ≤ 256) :
    Weighted (args.opList.map Prod.snd) 100 (ioworkerOpInit args) := by
  have h := lookupTable_weighted hsum (by decide)
  have hid : ioworkerOpInit args =
      lookupTable args.opList.length (fun i => (args.opList.map Prod.snd).getD i 0) id :=
    lookupTable_congr fun i hi => Nat.mod_eq_of_lt (by omega)
  rwa [List.length_map, ← hid] at h

/-- The size and the alignment that are drawn are those of one entry, with a ratio. -/
theorem ioworkerSendOneSize_of_weighted {g : Gctx}
    (h : Weighted (args.lbaSizeList.map LbaSize.ratio) args.lbaSizeRatioSum g.slTable)
    (h0 : args.lbaSizeRatioSum ≠ 0) (halign : ∀ e ∈ args.lbaSizeList, e.align < 2 ^ 16)
    (d : Draws) :
    ∃ e ∈ args.lbaSizeList, 0 < e.ratio ∧
      ioworkerSendOneSize args g d = .ok (e.size, e.align) := by
  obtain ⟨hlt, hpos⟩ := h.draw d.size
  rw [List.length_map] at hlt
  rw [List.getD_eq_getElem?_getD, List.getElem?_map, List.getElem?_eq_getElem hlt] at hpos
  refine ⟨_, List.getElem_mem hlt, hpos, ?_⟩
  rw [ioworkerSendOneSize, if_neg h0]
  simp only [List.getD_eq_getElem?_getD] at hlt ⊢
  rw [List.getElem?_eq_getElem hlt, Option.getD_some, u16_of_lt (halign _ (List.getElem_mem hlt))]

/-- For ratios with a sum from 1 to 10000, alignments of 16 bits, and at most 256 percentages
    with a sum of 100: both tables are filled, with as many slots as are drawn from, and the
    weights of the indices in them are those that were asked for; and a size is sent with the
    alignment of its entry. -/
theorem lookup_tables_exact
    (hsum : (args.lbaSizeList.map LbaSize.ratio).sum = args.lbaSizeRatioSum)
    (hmin : 1 ≤ args.lbaSizeRatioSum) (hmax : args.lbaSizeRatioSum ≤ 10000)
    (halign : ∀ e ∈ args.lbaSizeList, e.align < 2 ^ 16)
    (hops : (args.opList.map Prod.snd).sum = 100) (hnum : args.opList.length ≤ 256) :
    Fills (ioworkerIosizeFill args) (ioworkerIosizeInit args) ∧
    Weighted (args.lbaSizeList.map LbaSize.ratio) args.lbaSizeRatioSum
      (ioworkerIosizeInit args) ∧
    Fills (ioworkerOpFill args) (ioworkerOpInit args) ∧
    Weighted (args.opList.map Prod.snd) 100 (ioworkerOpInit args) ∧
    ∀ (g : Gctx) (d : Draws), g.slTable = ioworkerIosizeInit args →
      ∃ e ∈ args.lbaSizeList, 0 < e.ratio ∧
        ioworkerSendOneSize args g d = .ok (e.size, e.align) := by
  have h0 : args.lbaSizeRatioSum ≠ 0 := by omega
  have hsizes := ioworkerIosizeInit_weighted hsum h0
  refine ⟨ioworkerIosizeFill_fills hsum hmax, hsizes, ioworkerOpFill_fills hops,
    ioworkerOpInit_weighted hops hnum, fun g d hg => ?_⟩
  exact ioworkerSendOneSize_of_weighted (hg ▸ hsizes) h0 halign d

/-- Three sizes with their own alignments, the second of which is never drawn, and three
    operations. -/
def mixedArgs : Args :=
  { readOnceArgs with
    lbaAlignMax := 8
    lbaSizeRatioSum := 3
    lbaSizeList := [⟨1, 1, 1⟩, ⟨4, 0, 2⟩, ⟨8, 2, 8⟩]
    opList := [(2, 70), (1, 0), (9, 30)] }

theorem lookup_tables_exact_mixed :
    (∃ table', ioworkerIosizeFill mixedArgs (fun _ => 7) = .ok table' ∧
      table' 0 = 0 ∧ table' 1 = 2 ∧ table' 2 = 2 ∧ table' 3 = 7) ∧
    (ioworkerOpInit mixedArgs).count 1 = 0 ∧ (ioworkerOpInit mixedArgs).count 2 = 30 := by
  obtain ⟨hfill, -, -, hops, -⟩ := lookup_tables_exact
    (show (mixedArgs.lbaSizeList.map LbaSize.ratio).sum = mixedArgs.lbaSizeRatioSum from rfl)
    (by decide) (by decide) (by decide) rfl (by decide)
  obtain ⟨table', hok, hslots⟩ := hfill fun _ => 7
  refine ⟨⟨table', hok, ?_, ?_, ?_, ?_⟩, hops.count 1, hops.count 2⟩
  · exact hslots 0
  · exact hslots 1
  · exact hslots 2
  · exact hslots 3

end Pynvme
