import Mathlib.Logic.Function.Basic
import Mathlib.Tactic.Common

/-!
# Named memory

Processes share memory by names: one of them *reserves* memory of a new name, others *look up*
the name, and a process *frees* the memory of a name. A process keeps the address that it got,
also when the memory is freed, or its name is used again.

A name has one address, which is live and of this name only (`NamedMemory`). Memory whose name
nobody frees keeps its address (`lookup_free_of_ne`, `lookup_reserve_of_ne`).
-/

/-- The live memory, and the names of it. -/
structure NamedMemory (N A V : Type*) where
  cell : A → Option V
  lookup : N → Option A
  live : ∀ {n a}, lookup n = some a → (cell a).isSome
  injective : ∀ {n n' a}, lookup n = some a → lookup n' = some a → n = n'

namespace NamedMemory

variable {N A V : Type*} {m m' : NamedMemory N A V} {n n' : N}
  {a b : A} {v w : V} {f : V → V}

/-- No memory. -/
def empty : NamedMemory N A V where
  cell _ := none
  lookup _ := none
  live h := nomatch h
  injective h := nomatch h

/-- The address of a name, and the memory there. -/
def find (m : NamedMemory N A V) (n : N) : Option (A × V) :=
  (m.lookup n).bind fun a => (m.cell a).map fun v => (a, v)

theorem find_eq_some : m.find n = some (a, v) ↔ m.lookup n = some a ∧ m.cell a = some v := by
  simp only [find, Option.bind_eq_some_iff, Option.map_eq_some_iff, Prod.mk.injEq]
  constructor
  · rintro ⟨a', hn, v', ha, rfl, rfl⟩
    exact ⟨hn, ha⟩
  · rintro ⟨hn, ha⟩
    exact ⟨a, hn, v, ha, rfl, rfl⟩

variable [DecidableEq A]

/-- The memory after changing that at `a`. -/
def modify (m : NamedMemory N A V) (a : A) (f : V → V) : NamedMemory N A V where
  cell := Function.update m.cell a ((m.cell a).map f)
  lookup := m.lookup
  live := by
    intro n b hb
    rcases eq_or_ne b a with rfl | hne
    · simpa using m.live hb
    · rw [Function.update_of_ne hne]
      exact m.live hb
  injective := m.injective

theorem cell_modify_self : (m.modify a f).cell a = (m.cell a).map f := Function.update_self _ _ _

theorem cell_modify_of_ne (h : b ≠ a) : (m.modify a f).cell b = m.cell b :=
  Function.update_of_ne h _ _

/-- What is at an address after a change. -/
theorem cell_modify_eq_some : (m.modify a f).cell b = some w ↔
    (b = a ∧ ∃ v, m.cell a = some v ∧ f v = w) ∨ (b ≠ a ∧ m.cell b = some w) := by
  rcases eq_or_ne b a with rfl | hne
  · simp [cell_modify_self]
  · simp [cell_modify_of_ne hne, hne]

variable [DecidableEq N]

/-- The memory after reserving some at `a`, if the name `n` is new. -/
def reserve (m : NamedMemory N A V) (n : N) (a : A) (v : V) : Option (NamedMemory N A V) :=
  if h : m.lookup n = none ∧ m.cell a = none then
    some {
      cell := Function.update m.cell a (some v)
      lookup := Function.update m.lookup n (some a)
      live := by
        intro n' b hb
        rcases eq_or_ne b a with rfl | hne
        · simp
        · rcases eq_or_ne n' n with rfl | hn
          · rw [Function.update_self, Option.some.injEq] at hb
            exact absurd hb.symm hne
          · rw [Function.update_of_ne hne]
            rw [Function.update_of_ne hn] at hb
            exact m.live hb
      injective := by
        have hnew : ∀ n', m.lookup n' ≠ some a := fun n' hn' => by simpa [h.2] using m.live hn'
        intro n₁ n₂ b h₁ h₂
        rcases eq_or_ne n₁ n with rfl | hn₁ <;> rcases eq_or_ne n₂ n₁ with rfl | hn₂
        · rfl
        · rw [Function.update_self, Option.some.injEq] at h₁
          rw [Function.update_of_ne hn₂, ← h₁] at h₂
          exact absurd h₂ (hnew n₂)
        · rfl
        · rw [Function.update_of_ne hn₁] at h₁
          rcases eq_or_ne n₂ n with rfl | hn
          · rw [Function.update_self, Option.some.injEq] at h₂
            exact absurd (h₂ ▸ h₁) (hnew n₁)
          · rw [Function.update_of_ne hn] at h₂
            exact m.injective h₁ h₂ }
  else none

/-- The memory after freeing that of the name `n`. -/
def free (m : NamedMemory N A V) (n : N) : NamedMemory N A V where
  cell a := if m.lookup n = some a then none else m.cell a
  lookup := Function.update m.lookup n none
  live := by
    intro n' a ha
    rcases eq_or_ne n' n with rfl | hn
    · simp at ha
    · rw [Function.update_of_ne hn] at ha
      rw [if_neg fun hna => hn (m.injective ha hna)]
      exact m.live ha
  injective := by
    intro n₁ n₂ a h₁ h₂
    rcases eq_or_ne n₁ n with rfl | hn₁
    · simp at h₁
    rcases eq_or_ne n₂ n with rfl | hn₂
    · simp at h₂
    rw [Function.update_of_ne hn₁] at h₁
    rw [Function.update_of_ne hn₂] at h₂
    exact m.injective h₁ h₂

@[simp] theorem lookup_free_self : (m.free n).lookup n = none := Function.update_self _ _ _

theorem lookup_free_of_ne (h : n' ≠ n) : (m.free n).lookup n' = m.lookup n' :=
  Function.update_of_ne h _ _

/-- Memory of another name, or of no name, is not freed. -/
theorem cell_free_of_ne (h : m.lookup n ≠ some a) : (m.free n).cell a = m.cell a := if_neg h

/-- What is not freed, was there. -/
theorem cell_of_cell_free (h : (m.free n).cell a = some v) : m.cell a = some v := by
  simp only [free] at h
  split_ifs at h
  exact h

theorem reserve_eq_some (h : m.reserve n a v = some m') :
    m.lookup n = none ∧ m.cell a = none ∧ m'.cell = Function.update m.cell a (some v) ∧
      m'.lookup = Function.update m.lookup n (some a) := by
  rw [reserve] at h
  split_ifs at h with hnew
  obtain rfl := Option.some.inj h
  exact ⟨hnew.1, hnew.2, rfl, rfl⟩

theorem exists_reserve (hn : m.lookup n = none) (ha : m.cell a = none) :
    ∃ m', m.reserve n a v = some m' := ⟨_, dif_pos ⟨hn, ha⟩⟩

end NamedMemory
