import Mathlib.Logic.Function.Basic
import Mathlib.Tactic.Common

/-!
# Counting loops

`forLoop n body s` is `for (i = 0; i < n; i++) s = body(i, s)`.

* `forLoop_induction`: a property of the state indexed by the iteration, true
  before the loop and kept by every iteration, is true after it;
* `forLoop_modify_of_ne` and `forLoop_modify_apply`: a loop over the cells
  `idx 0, idx 1, …` of an array, all different, changes each of them once and
  nothing else.
-/

/-- The state after the iterations `0, …, n - 1` of `body`. -/
def forLoop {σ : Type*} (n : Nat) (body : Nat → σ → σ) (s : σ) : σ :=
  n.fold (fun i _ => body i) s

variable {σ α : Type*}

@[simp] theorem forLoop_zero (body : Nat → σ → σ) (s : σ) : forLoop 0 body s = s := rfl

theorem forLoop_succ (n : Nat) (body : Nat → σ → σ) (s : σ) :
    forLoop (n + 1) body s = body n (forLoop n body s) := rfl

theorem forLoop_induction {n : Nat} {body : Nat → σ → σ} {s : σ} {I : Nat → σ → Prop}
    (h0 : I 0 s) (hs : ∀ i < n, ∀ s, I i s → I (i + 1) (body i s)) :
    I n (forLoop n body s) := by
  induction n with
  | zero => exact h0
  | succ n ih =>
    rw [forLoop_succ]
    exact hs n (Nat.lt_succ_self n) _ (ih fun i hi => hs i (Nat.lt_succ_of_lt hi))

/-! ### Loops over the cells of an array -/

/-- The iteration changing the cell `idx i` by `f i`. -/
def modifyCell (idx : Nat → Nat) (f : Nat → α → α) (i : Nat) (d : Nat → α) : Nat → α :=
  Function.update d (idx i) (f i (d (idx i)))

variable {n j : Nat} {idx : Nat → Nat} {f : Nat → α → α} {d : Nat → α}

theorem modifyCell_of_ne {i : Nat} (h : j ≠ idx i) : modifyCell idx f i d j = d j :=
  Function.update_of_ne h _ _

theorem modifyCell_self {i : Nat} : modifyCell idx f i d (idx i) = f i (d (idx i)) :=
  Function.update_self _ _ _

/-- The loop keeps the cells it does not visit. -/
theorem forLoop_modify_of_ne (h : ∀ i < n, j ≠ idx i) :
    forLoop n (modifyCell idx f) d j = d j :=
  forLoop_induction (I := fun _ (d' : Nat → α) => d' j = d j) rfl fun i hi d' hd' => by
    rw [modifyCell_of_ne (h i hi), hd']

/-- The loop changes a visited cell once, by its own iteration. -/
theorem forLoop_modify_apply (hinj : ∀ i < n, ∀ k < n, idx i = idx k → i = k) {i : Nat}
    (hi : i < n) : forLoop n (modifyCell idx f) d (idx i) = f i (d (idx i)) := by
  induction n with
  | zero => exact absurd hi (Nat.not_lt_zero i)
  | succ n ih =>
    have hinj' : ∀ i < n, ∀ k < n, idx i = idx k → i = k := fun i hi k hk =>
      hinj i (Nat.lt_succ_of_lt hi) k (Nat.lt_succ_of_lt hk)
    rw [forLoop_succ]
    rcases Nat.lt_succ_iff_lt_or_eq.1 hi with hlt | rfl
    · have hne : idx i ≠ idx n := fun he =>
        absurd (hinj i hi n (Nat.lt_succ_self n) he) (Nat.ne_of_lt hlt)
      rw [modifyCell_of_ne hne, ih hinj' hlt]
    · have hkeep : forLoop i (modifyCell idx f) d (idx i) = d (idx i) :=
        forLoop_modify_of_ne fun k hk he =>
          absurd (hinj i hi k (Nat.lt_succ_of_lt hk) he) (Nat.ne_of_gt hk)
      rw [modifyCell_self, hkeep]
