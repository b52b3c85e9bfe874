import Mathlib.Data.List.Forall2
import Mathlib.Tactic.Common

/-!
# What a successful computation has done

The rules to take apart the success of a computation with errors: a sequence of
steps succeeds when its steps succeed one after the other (`Except.bind_eq_ok`),
and so does a step for every element of a list (`Except.forall₂_of_mapM`).
-/

namespace Except

variable {ε α β : Type} {x : Except ε α} {f : α → Except ε β} {a a' : α} {b : β}

theorem bind_eq_ok : (x >>= f) = .ok b ↔ ∃ a, x = .ok a ∧ f a = .ok b := by
  rcases x with e | a
  · simp [bind, Except.bind]
  · simp [bind, Except.bind]

theorem bind_eq_error {e : ε} :
    (x >>= f) = .error e ↔ x = .error e ∨ ∃ a, x = .ok a ∧ f a = .error e := by
  rcases x with e' | a
  · simp [bind, Except.bind]
  · simp [bind, Except.bind]

theorem map_eq_ok {g : α → β} : x.map g = .ok b ↔ ∃ a, x = .ok a ∧ g a = b := by
  rcases x with e | a
  · simp [Except.map]
  · simp [Except.map]

theorem toOption_eq_some : x.toOption = some a ↔ x = .ok a := by
  rcases x with e | a'
  · simp [Except.toOption]
  · simp [Except.toOption]

theorem mapError_eq_ok {ε' : Type} {g : ε → ε'} : x.mapError g = .ok a ↔ x = .ok a := by
  rcases x with e | a'
  · simp [Except.mapError]
  · simp [Except.mapError]

theorem pure_eq_ok : (pure a : Except ε α) = .ok a' ↔ a = a' := by
  simp [pure, Except.pure]

/-- Every element of the result is that of a step. -/
theorem forall₂_of_mapM {l : List α} {l' : List β} (h : l.mapM f = .ok l') :
    List.Forall₂ (fun a b => f a = .ok b) l l' := by
  induction l generalizing l' with
  | nil =>
    rw [List.mapM_nil, pure_eq_ok] at h
    subst h
    exact .nil
  | cons a l ih =>
    rw [List.mapM_cons, bind_eq_ok] at h
    obtain ⟨b, hb, h⟩ := h
    obtain ⟨bs, hbs, h⟩ := bind_eq_ok.1 h
    obtain rfl := pure_eq_ok.1 h
    exact .cons hb (ih hbs)

/-- What every step keeps, the whole list keeps. -/
theorem map_eq_of_mapM {γ : Type} {g : α → γ} {k : β → γ} {l : List α} {l' : List β}
    (h : l.mapM f = .ok l') (hf : ∀ a b, f a = .ok b → g a = k b) : l.map g = l'.map k := by
  have h' := (forall₂_of_mapM h).imp hf
  clear h
  induction h' with
  | nil => rfl
  | cons hab _ ih => rw [List.map_cons, List.map_cons, hab, ih]

theorem exists_of_mapM {l : List α} {l' : List β} (h : l.mapM f = .ok l') (hb : b ∈ l') :
    ∃ a ∈ l, f a = .ok b := by
  have h' := forall₂_of_mapM h
  clear h
  induction h' with
  | nil => cases hb
  | cons hab _ ih =>
    rcases List.mem_cons.1 hb with rfl | hb
    · exact ⟨_, List.mem_cons_self, hab⟩
    · obtain ⟨a, ha, hfa⟩ := ih hb
      exact ⟨a, List.mem_cons_of_mem _ ha, hfa⟩

/-- The steps for a list succeed if each of them does. -/
theorem exists_mapM_of_forall {l : List α} (h : ∀ a ∈ l, ∃ b, f a = .ok b) :
    ∃ l', l.mapM f = .ok l' := by
  induction l with
  | nil => exact ⟨[], rfl⟩
  | cons a l ih =>
    obtain ⟨⟨b, hb⟩, hl⟩ := List.forall_mem_cons.1 h
    obtain ⟨l', hl'⟩ := ih hl
    exact ⟨b :: l', by rw [List.mapM_cons, hb, hl']; rfl⟩

end Except
