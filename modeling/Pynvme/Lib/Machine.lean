import Mathlib.Logic.Function.Basic
import Mathlib.Logic.Relation

/-!
# Machines

A *machine* is a set of initial states and a partial step: in a state, an event
that is enabled leads to one next state. The events carry everything the
environment decides (what a device answers, what a clock reads, which of
several parties moves), so a run is fixed by its events, and a property of
every interleaving is a property of every run.

* The runs under a *rule* `P` are those whose every event `e`, taken in the
  state `s`, satisfies `P s e` (`Machine.Reachable`); the rule `fun _ _ => True`
  gives all runs.
* A property true initially and kept by every step of a run under `P` holds in
  every state reached under `P` (`Machine.Reachable.invariant`).
* A reflexive and transitive relation kept by every step relates any state of a
  run to the later ones (`Machine.Later.relates`).

A machine can be run with a history, which records what the states do not keep
(`Machine.withHistory`).

The parties of a machine, of any number, are in slots, `Nat → Option α`; one of
them moves by an update of its slot (`update_eq_some_iff`). What only one party of a
list can have goes from one to the other as they take steps (`holder_set`).
-/

/-- A machine with the states `S` and the events `E`. -/
structure Machine (S E : Type*) where
  /-- The initial states. -/
  init : S → Prop
  /-- The state after an event, if the event is enabled. -/
  step : S → E → Option S

namespace Machine

variable {S E : Type*} (m : Machine S E) (P : S → E → Prop)

/-- A move from `s` to `s'` by an event that the rule `P` admits. -/
def Move (s s' : S) : Prop := ∃ e, P s e ∧ m.step s e = some s'

/-- The states reached by the runs under the rule `P`. -/
inductive Reachable : S → Prop
  | init {s : S} : m.init s → Reachable s
  | step {s s' : S} {e : E} : Reachable s → P s e → m.step s e = some s' → Reachable s'

/-- `s'` is reached from `s` by a run under the rule `P`. -/
def Later : S → S → Prop := Relation.ReflTransGen (m.Move P)

variable {m P} {s s' : S}

/-- An invariant of the runs under `P`: it holds initially, and every step of
    such a run keeps it. -/
theorem Reachable.invariant {I : S → Prop} (h : m.Reachable P s) (hinit : ∀ s, m.init s → I s)
    (hstep : ∀ s e s', I s → P s e → m.step s e = some s' → I s') : I s := by
  induction h with
  | init h => exact hinit _ h
  | step _ hP hs ih => exact hstep _ _ _ ih hP hs

/-- A run under a rule is a run under every weaker rule. -/
theorem Reachable.mono {Q : S → E → Prop} (h : m.Reachable P s) (hPQ : ∀ s e, P s e → Q s e) :
    m.Reachable Q s :=
  h.invariant (fun _ => .init) fun _ _ _ ih hP hs => .step ih (hPQ _ _ hP) hs

/-- A relation kept by every step from a state satisfying the invariant `I`
    relates a state of a run to the later ones. -/
theorem Later.relates {I : S → Prop} {R : S → S → Prop} (hl : m.Later P s s') (hs : I s)
    (hrefl : ∀ s, R s s) (htrans : ∀ s₁ s₂ s₃, R s₁ s₂ → R s₂ s₃ → R s₁ s₃)
    (hstep : ∀ s e s', I s → P s e → m.step s e = some s' → I s' ∧ R s s') : R s s' := by
  have h : I s' ∧ R s s' := by
    induction hl with
    | refl => exact ⟨hs, hrefl _⟩
    | tail _ hm ih =>
      obtain ⟨e, hP, he⟩ := hm
      obtain ⟨hI, hR⟩ := hstep _ _ _ ih.1 hP he
      exact ⟨hI, htrans _ _ _ ih.2 hR⟩
  exact h.2

/-! ### Runs of given events -/

variable (m) in
/-- The state after the events `es`, if they are enabled one after the other. -/
def run : S → List E → Option S
  | s, [] => some s
  | s, e :: es => (m.step s e).bind fun s' => run s' es

theorem run_append (s : S) (es es' : List E) :
    m.run s (es ++ es') = (m.run s es).bind fun s' => m.run s' es' := by
  induction es generalizing s with
  | nil => rfl
  | cons e es ih =>
    rw [List.cons_append, run, run, Option.bind_assoc]
    simp only [ih]

/-- The events of a run are admitted by the rule `P` in the states they are taken in. -/
def Admits (m : Machine S E) (P : S → E → Prop) : S → List E → Prop
  | _, [] => True
  | s, e :: es => P s e ∧ ∀ s', m.step s e = some s' → Admits m P s' es

theorem Admits.cons {e : E} {es : List E} (he : P s e) (hs : m.step s e = some s')
    (h : m.Admits P s' es) : m.Admits P s (e :: es) := by
  refine ⟨he, fun s₁ hs₁ => ?_⟩
  obtain rfl := Option.some.inj (hs.symm.trans hs₁)
  exact h

theorem Admits.append {es es' : List E} (h : m.Admits P s es)
    (h' : ∀ s', m.run s es = some s' → m.Admits P s' es') : m.Admits P s (es ++ es') := by
  induction es generalizing s with
  | nil => exact h' s rfl
  | cons e es ih =>
    refine ⟨h.1, fun s₁ hs₁ => ih (h.2 s₁ hs₁) fun s' hr => h' s' ?_⟩
    rw [Machine.run, hs₁]
    exact hr

theorem Reachable.run (h : m.Reachable P s) (es : List E) (ha : m.Admits P s es)
    (hr : m.run s es = some s') : m.Reachable P s' := by
  induction es generalizing s with
  | nil =>
    obtain rfl : s = s' := Option.some.inj hr
    exact h
  | cons e es ih =>
    obtain ⟨s₁, hs₁, hr⟩ := Option.bind_eq_some_iff.1 hr
    exact ih (.step h ha.1 hs₁) (ha.2 s₁ hs₁) hr

/-- A rule that admits the events in every state with an invariant `I` of the steps
    admits their run. -/
theorem admits_of_invariant {I : S → Prop} {es : List E} (hs : I s)
    (hstep : ∀ s e s', I s → m.step s e = some s' → I s') (h : ∀ e ∈ es, ∀ s, I s → P s e) :
    m.Admits P s es := by
  induction es generalizing s with
  | nil => trivial
  | cons e es ih =>
    obtain ⟨he, hes⟩ := List.forall_mem_cons.1 h
    exact ⟨he s hs, fun s' hs' => ih (hstep s e s' hs hs') hes⟩

theorem admits_of_forall {es : List E} (h : ∀ e ∈ es, ∀ s, P s e) (s : S) : m.Admits P s es :=
  admits_of_invariant (I := fun _ => True) trivial (fun _ _ _ _ _ => trivial)
    fun e he s _ => h e he s

/-- What a run of given events shows is true of a state that is reached. -/
theorem Reachable.exists_run {T : Type*} {f : S → T} {t : T} (h : m.Reachable P s) (es : List E)
    (ha : m.Admits P s es) (hr : (m.run s es).map f = some t) :
    ∃ s', m.Reachable P s' ∧ f s' = t := by
  obtain ⟨s', hs', ht⟩ := Option.map_eq_some_iff.1 hr
  exact ⟨s', h.run es ha hs', ht⟩

/-! ### Histories -/

variable (m) in
/-- The machine with a history, which begins with `h₀`, and is updated by `record` in
    every step. -/
def withHistory {H : Type*} (h₀ : H) (record : H → S → E → S → H) : Machine (S × H) E where
  init x := m.init x.1 ∧ x.2 = h₀
  step x e := (m.step x.1 e).map fun s' => (s', record x.2 x.1 e s')

section History

variable {H : Type*} {h₀ hist hist' : H} {record : H → S → E → S → H}

theorem withHistory_step {e : E} :
    (m.withHistory h₀ record).step (s, hist) e = some (s', hist') ↔
      m.step s e = some s' ∧ hist' = record hist s e s' := by
  simp only [withHistory, Option.map_eq_some_iff, Prod.mk.injEq]
  constructor
  · rintro ⟨s₁, hs, rfl, rfl⟩
    exact ⟨hs, rfl⟩
  · rintro ⟨hs, rfl⟩
    exact ⟨s', hs, rfl, rfl⟩

end History

end Machine

/-! ### Parties -/

/-- What is in the slots after an update. -/
theorem update_eq_some_iff {α : Type*} {f : Nat → Option α} {o : Option α} {a : α} {k i : Nat} :
    Function.update f k o i = some a ↔ (i = k ∧ o = some a) ∨ (i ≠ k ∧ f i = some a) := by
  rcases eq_or_ne i k with rfl | hi
  · simp
  · simp [hi]

/-- The party that has something, the one with `P`, after a step of the party `k`: it gets it
    while nobody has it, gives it back, or keeps it or goes without. -/
theorem holder_set {α : Type*} {P : α → Prop} {l : List α} {a a' : α} {o o' : Option Nat} {k : Nat}
    (h : ∀ i, o = some i ↔ ∃ b, l[i]? = some b ∧ P b) (hk : l[k]? = some a)
    (hstep : (o' = o ∧ (P a' ↔ P a)) ∨ (o = none ∧ o' = some k ∧ P a') ∨
      (P a ∧ o' = none ∧ ¬P a')) (i : Nat) :
    o' = some i ↔ ∃ b, (l.set k a')[i]? = some b ∧ P b := by
  have hlt : k < l.length := (List.getElem?_eq_some_iff.1 hk).1
  rcases eq_or_ne i k with rfl | hne
  · have hself : (∃ b, (l.set i a')[i]? = some b ∧ P b) ↔ P a' := by
      simp [List.getElem?_set_self hlt]
    have hold : o = some i ↔ P a := by simp [h i, hk]
    rw [hself]
    rcases hstep with ⟨rfl, hP⟩ | ⟨-, rfl, hP⟩ | ⟨-, rfl, hP⟩
    · rw [hold, hP]
    · simp [hP]
    · simp [hP]
  · rw [List.getElem?_set_ne hne.symm, ← h i]
    rcases hstep with ⟨rfl, -⟩ | ⟨rfl, rfl, -⟩ | ⟨hP, rfl, -⟩
    · rfl
    · simp [hne.symm]
    · have ho : o = some k := (h k).2 ⟨a, hk, hP⟩
      simp [ho, hne.symm]
