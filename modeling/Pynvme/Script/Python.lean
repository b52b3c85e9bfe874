import Pynvme.Lib.Bytes
import Pynvme.Lib.Except
import Mathlib.Data.Rat.Defs

/-!
# Python

What the scripts, and the classes of the driver that they use, take of Python: the
exceptions that they raise, the statement `assert`, the items of a list, statements one
after the other and loops, with the state they change up to an exception, numbers and
their bytes, and the conversions of Cython from an integer of any size to one of C, which
raise on what does not fit.
-/

namespace Pynvme

/-- The exceptions of the scripts. -/
inductive PyError
  | assertion (message : String)
  | overflow
  | zeroDivision
  | value
  | index
  | key
  | type
  | struct
  | recursion
  deriving DecidableEq

/-- The Python statement `assert`. -/
def pyAssert (c : Prop) [Decidable c] (message : String) : Except PyError Unit :=
  if c then .ok () else .error (.assertion message)

/-- The conversion of a Python integer to an unsigned one of `bits` bits. -/
def toUnsigned (bits : Nat) (v : Int) : Except PyError Nat :=
  if 0 ≤ v ∧ v < 2 ^ bits then .ok v.toNat else .error .overflow

/-- The conversion of a Python integer to a `signed short`. -/
def toShort (v : Int) : Except PyError Int :=
  if -0x8000 ≤ v ∧ v < 0x8000 then .ok v else .error .overflow

/-- The position of an index in a sequence of `n` elements. -/
def pyIndex (n : Nat) (index : Int) : Except PyError Nat :=
  let i := if index < 0 then index + n else index
  if 0 ≤ i ∧ i < n then .ok i.toNat else .error .index

/-- `l[index]` -/
def pyListGet {α : Type} (l : List α) (index : Int) : Except PyError α :=
  match pyIndex l.length index with
  | .error e => .error e
  | .ok i =>
    match l[i]? with
    | some x => .ok x
    | none => .error .index

/-- `l[index] = x` -/
def pyListSet {α : Type} (l : List α) (index : Int) (x : α) : Except PyError (List α) :=
  match pyIndex l.length index with
  | .error e => .error e
  | .ok i => .ok (l.set i x)

/-- `max` of the elements of a list. -/
def pyMax (l : List Int) : Except PyError Int :=
  match l.max? with
  | none => .error .value
  | some m => .ok m

/-- A number. -/
inductive PyNumber
  | int (n : Int)
  | float (q : ℚ)

/-- The operator `/`: the quotient of integers is a float. -/
def pyTrueDiv (n d : Int) : Except PyError PyNumber :=
  if d = 0 then .error .zeroDivision else .ok (.float (n / d))

/-- `n * a + b`, of a number `n` and integers. -/
def PyNumber.mulAdd (n : PyNumber) (a b : Int) : PyNumber :=
  match n with
  | .int n => .int (n * a + b)
  | .float q => .float (q * a + b)

/-- `int.from_bytes(value, 'little')`. -/
def intFromBytes (value : List (BitVec 8)) : Nat := value.foldr (fun b v => b.toNat + 256 * v) 0

/-- `v.to_bytes(n, byteorder='little')`. -/
def intToBytes (n : Nat) (v : Int) : Except PyError (List (BitVec 8)) :=
  if 0 ≤ v ∧ v < 256 ^ n then .ok (Bytes.ofLe n v.toNat) else .error .overflow

/-- A field of `n` bytes that `struct.pack` makes, little endian. -/
def structField (n : Nat) (v : Int) : Except PyError (List (BitVec 8)) :=
  if 0 ≤ v ∧ v < 256 ^ n then .ok (Bytes.ofLe n v.toNat) else .error .struct

/-- A statement after another one, with the state that they change. -/
def pyThen {α β σ : Type} (r : Except PyError α × σ) (f : α → σ → Except PyError β × σ) :
    Except PyError β × σ :=
  match r with
  | (.error e, s) => (.error e, s)
  | (.ok a, s) => f a s

/-- `for x in l: body`, with the state that the body changes; it ends when the body raises. -/
def pyFor {α σ : Type} (body : α → σ → Except PyError Unit × σ) :
    List α → σ → Except PyError Unit × σ
  | [], s => (.ok (), s)
  | x :: l, s =>
    match body x s with
    | (.error e, s) => (.error e, s)
    | (.ok _, s) => pyFor body l s

/-! ### Rules -/

theorem pyThen_eq {α β σ : Type} {r : Except PyError α × σ} {f : α → σ → Except PyError β × σ}
    {a : α} {s : σ} (h : r = (.ok a, s)) : pyThen r f = f a s := by
  rw [h]
  rfl

theorem pyThen_eq_ok {α β σ : Type} {r : Except PyError α × σ}
    {f : α → σ → Except PyError β × σ} {b : β} {s' : σ} :
    pyThen r f = (.ok b, s') ↔ ∃ a s, r = (.ok a, s) ∧ f a s = (.ok b, s') := by
  rcases r with ⟨e | a, s⟩ <;> simp [pyThen]

theorem pyFor_cons {α σ : Type} {body : α → σ → Except PyError Unit × σ} {x : α} {l : List α}
    {s s' : σ} (h : body x s = (.ok (), s')) : pyFor body (x :: l) s = pyFor body l s' := by
  rw [pyFor, h]

theorem pyFor_cons_eq_ok {α σ : Type} {body : α → σ → Except PyError Unit × σ} {x : α} {l : List α}
    {s s' : σ} {u : Unit} :
    pyFor body (x :: l) s = (.ok u, s') ↔
      ∃ s₁, body x s = (.ok (), s₁) ∧ pyFor body l s₁ = (.ok u, s') := by
  rw [pyFor]
  rcases body x s with ⟨e | u', s₁⟩ <;> simp

/-- A loop whose body never raises. -/
theorem pyFor_of_forall {α σ : Type} {body : α → σ → Except PyError Unit × σ} {I : σ → Prop}
    {l : List α} {s : σ} (hs : I s)
    (h : ∀ x ∈ l, ∀ s, I s → ∃ s', body x s = (.ok (), s') ∧ I s') :
    ∃ s', pyFor body l s = (.ok (), s') ∧ I s' := by
  induction l generalizing s with
  | nil => exact ⟨s, rfl, hs⟩
  | cons x l ih =>
    obtain ⟨hx, hl⟩ := List.forall_mem_cons.1 h
    obtain ⟨s₁, hbody, hs₁⟩ := hx s hs
    rw [pyFor_cons hbody]
    exact ih hs₁ hl

/-- A loop that does not raise has run its body on each element. -/
theorem exists_of_pyFor {α σ : Type} {body : α → σ → Except PyError Unit × σ} {l : List α}
    {s s' : σ} {u : Unit} (h : pyFor body l s = (.ok u, s')) :
    ∀ x ∈ l, ∃ s₁ s₂, body x s₁ = (.ok (), s₂) := by
  induction l generalizing s with
  | nil => simp
  | cons x l ih =>
    obtain ⟨s₁, hbody, hrest⟩ := pyFor_cons_eq_ok.1 h
    exact List.forall_mem_cons.2 ⟨⟨s, s₁, hbody⟩, ih hrest⟩

theorem pyAssert_eq_ok {c : Prop} [Decidable c] {message : String} {u : Unit} :
    pyAssert c message = .ok u ↔ c := by
  rw [pyAssert]
  split_ifs with h <;> simp [h]

theorem toUnsigned_eq_ok {bits n : Nat} {v : Int} :
    toUnsigned bits v = .ok n ↔ v = n ∧ n < 2 ^ bits := by
  have hpow : ((2 ^ bits : Nat) : Int) = 2 ^ bits := by simp
  rw [toUnsigned]
  split_ifs with h
  · simp only [Except.ok.injEq]
    omega
  · simp only [false_iff]
    omega

theorem toShort_eq_ok {v w : Int} : toShort v = .ok w ↔ v = w ∧ -0x8000 ≤ v ∧ v < 0x8000 := by
  rw [toShort]
  split_ifs with h
  · simp [h]
  · simp only [false_iff]
    exact fun hv => h hv.2

theorem pyIndex_eq {n i : Nat} (h : i < n) : pyIndex n i = .ok i := by
  rw [pyIndex, if_neg (Int.not_lt.2 (Int.natCast_nonneg i)), if_pos (by omega), Int.toNat_natCast]

theorem pyListGet_eq {α : Type} {l : List α} {i : Nat} (h : i < l.length) :
    pyListGet l i = .ok l[i] := by
  simp only [pyListGet, pyIndex_eq h, List.getElem?_eq_getElem h]

theorem pyListSet_eq {α : Type} {l : List α} {x : α} {i : Nat} (h : i < l.length) :
    pyListSet l i x = .ok (l.set i x) := by
  rw [pyListSet, pyIndex_eq h]

theorem pyMax_eq_ok {l : List Int} {m : Int} : pyMax l = .ok m ↔ l.max? = some m := by
  rw [pyMax]
  split <;> simp [*]

theorem intFromBytes_concat (l : List (BitVec 8)) (b : BitVec 8) :
    intFromBytes (l ++ [b]) = intFromBytes l + b.toNat * 256 ^ l.length := by
  induction l with
  | nil => simp [intFromBytes]
  | cons c l ih =>
    have hcons : ∀ l', intFromBytes (c :: l') = c.toNat + 256 * intFromBytes l' := fun _ => rfl
    rw [List.cons_append, hcons, hcons, ih, List.length_cons, Nat.pow_succ', Nat.mul_add,
      Nat.add_assoc, Nat.mul_left_comm]

/-- The bytes of a word give the word. -/
theorem intFromBytes_slice (m : Bytes) (a n : Nat) : intFromBytes (m.slice a n) = m.readLe a n := by
  induction n with
  | zero => rfl
  | succ n ih =>
    have hslice : m.slice a (n + 1) = m.slice a n ++ [m (a + n)] := by
      simp [Bytes.slice, List.range_succ]
    rw [hslice, intFromBytes_concat, ih, Bytes.readLe, Bytes.slice, List.length_map,
      List.length_range]

end Pynvme
