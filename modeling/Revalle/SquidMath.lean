import Mathlib

/-!
# Checked sums

`NaturalSum` adds integers of any types, with the conversions that C++ makes on the way. In
this model a conversion fails when it changes the value, and so does a signed operation that
overflows; only unsigned sums wrap around. No step fails, and the sums are exact
(`naturalSum_eq`).
-/

namespace SquidMath

/-- **An integer type.** -/
structure IntType where
  signed : Bool
  /-- The logarithm of its size in bytes. -/
  rank : Fin 4
deriving DecidableEq

namespace IntType

instance : Fintype IntType :=
  .ofEquiv (Bool × Fin 4)
    ⟨fun p => ⟨p.1, p.2⟩, fun T => ⟨T.signed, T.rank⟩, fun _ => rfl, fun _ => rfl⟩

variable (T : IntType)

def bits : ℕ := 8 * 2 ^ T.rank.val

/-- `std::numeric_limits<T>::max()`. -/
def max : ℤ := if T.signed then 2 ^ (T.bits - 1) - 1 else 2 ^ T.bits - 1

def min : ℤ := if T.signed then -2 ^ (T.bits - 1) else 0

/-- The values of a type. -/
def Fits (z : ℤ) : Prop := T.min ≤ z ∧ z ≤ T.max

instance (z : ℤ) : Decidable (T.Fits z) := inferInstanceAs (Decidable (_ ∧ _))

/-- The type of `+x`: what is smaller than an `int` becomes one. -/
def promoted : IntType := if T.rank < 2 then ⟨true, 2⟩ else T

/-- `std::common_type` of two promoted types: the larger one, and the unsigned one of two
types of the same size. -/
def common (A B : IntType) : IntType :=
  if A.rank = B.rank then ⟨A.signed && B.signed, A.rank⟩ else if A.rank < B.rank then B else A

end IntType

/-- **An integer with its type.** -/
structure Arg where
  type : IntType
  val : ℤ
  fits : type.Fits val

/-- A conversion, which must keep the value. -/
def convert (T : IntType) (z : ℤ) : Option ℤ := if T.Fits z then some z else none

/-- The value of an operation whose result has the given type. -/
def compute (T : IntType) (z : ℤ) : Option ℤ :=
  if T.signed then convert T z else some (z % 2 ^ T.bits)

def less (A B : IntType) (a b : ℤ) : Option Bool :=
  if 0 ≤ a ∧ b < 0 then some false
  else if a < 0 ∧ 0 ≤ b then some true
  else do
    let a ← convert (A.common B) a
    let b ← convert (A.common B) b
    return a < b

/-- Both overloads of `IncreaseSumInternal`. -/
def increaseSumInternal (S A B : IntType) (a b : ℤ) : Option (Option ℤ) :=
  let AB := A.common B
  if A.signed = false ∧ B.signed = false then do
    let sum ← compute AB ((← convert AB a) + (← convert AB b))
    if (← convert AB a) ≤ sum ∧ sum ≤ (← convert AB S.max) then
      return some (← convert S sum)
    else return none
  else if a < 0 ∨ b < 0 then return none
  else do
    if ← less A B (← compute A ((← convert A S.max) - a)) b then return none
    else return some (← convert S (← compute AB ((← convert AB a) + (← convert AB b))))

variable (S : IntType)

/-- `IncreaseSum` of two. -/
def increaseSumTwo (s : ℤ) (t : Arg) : Option (Option ℤ) := do
  increaseSumInternal S S.promoted t.type.promoted (← convert S.promoted s)
    (← convert t.type.promoted t.val)

def increaseSum (sum : ℤ) (t : Arg) : List Arg → Option (Option ℤ)
  | [] => increaseSumTwo S sum t
  | t' :: args => do
    match ← increaseSumTwo S sum t with
    | some head => increaseSum head t' args
    | none => return none

def naturalSum (t : Arg) (args : List Arg) : Option (Option ℤ) := increaseSum S 0 t args

/-- **The sum of natural numbers**, if it fits. -/
def exactSum (zs : List ℤ) : Option ℤ :=
  if (∀ z ∈ zs, 0 ≤ z) ∧ zs.sum ≤ S.max then some zs.sum else none

variable {S} {T : IntType} {s z : ℤ}

/-! ## Natural numbers that fit -/

theorem min_nonpos : ∀ T : IntType, T.min ≤ 0 := by decide

theorem max_nonneg : ∀ T : IntType, 0 ≤ T.max := by decide

/-- Promotion keeps all values. -/
theorem promoted_le : ∀ T : IntType, T.promoted.min ≤ T.min ∧ T.max ≤ T.promoted.max := by decide

/-- The common type has the natural numbers of both types. -/
theorem max_le_common : ∀ A B : IntType,
    A.promoted.max ≤ (A.promoted.common B.promoted).max ∧
      B.promoted.max ≤ (A.promoted.common B.promoted).max := by decide

theorem unsigned_of_promoted : ∀ T : IntType, T.promoted.signed = false → T.min = 0 := by decide

theorem common_unsigned : ∀ A B : IntType, A.signed = false → B.signed = false →
    (A.common B).signed = false := by decide

theorem convert_natural (h0 : 0 ≤ z) (hz : z ≤ T.max) : convert T z = some z :=
  if_pos ⟨(min_nonpos T).trans h0, hz⟩

theorem compute_natural (h0 : 0 ≤ z) (hz : z ≤ T.max) : compute T z = some z := by
  unfold compute
  split
  · exact convert_natural h0 hz
  · next hunsigned =>
    rw [IntType.max, if_neg hunsigned] at hz
    rw [Int.emod_eq_of_lt h0 (by omega)]

theorem convert_promoted (hz : T.Fits z) : convert T.promoted z = some z :=
  if_pos ⟨(promoted_le T).1.trans hz.1, hz.2.trans (promoted_le T).2⟩

/-- An unsigned sum that is not exact is below its operands. -/
theorem compute_unsigned (hT : T.signed = false) {a b : ℤ} (ha : 0 ≤ a) (hb : 0 ≤ b)
    (ha' : a ≤ T.max) (hb' : b ≤ T.max) :
    ∃ r, compute T (a + b) = some r ∧ (r = a + b ∨ r < a) := by
  rcases le_or_gt (a + b) T.max with hfits | hwraps
  · exact ⟨a + b, compute_natural (by omega) hfits, .inl rfl⟩
  · have hmax : T.max = 2 ^ T.bits - 1 := by simp [IntType.max, hT]
    refine ⟨a + b - 2 ^ T.bits, ?_, .inr (by omega)⟩
    rw [compute, hT, if_neg Bool.false_ne_true, ← Int.sub_emod_right,
      Int.emod_eq_of_lt (by omega) (by omega)]

theorem less_natural {A B : IntType} {a b : ℤ} (ha : 0 ≤ a) (hb : 0 ≤ b)
    (ha' : a ≤ (A.common B).max) (hb' : b ≤ (A.common B).max) :
    less A B a b = some (decide (a < b)) := by
  rw [less, if_neg (by omega), if_neg (by omega), convert_natural ha ha', convert_natural hb hb']
  rfl

/-! ## Sums -/

theorem exactSum_two (t : ℤ) : exactSum S [s, t] =
    if (0 ≤ s ∧ 0 ≤ t) ∧ s + t ≤ S.max then some (s + t) else none := by
  simp [exactSum]

/-- A sum can be computed from the left: a sum that does not fit is not natural, or grows. -/
theorem exactSum_cons (t : ℤ) (zs : List ℤ) :
    exactSum S (s :: t :: zs) = (exactSum S [s, t]).bind fun r => exactSum S (r :: zs) := by
  rw [exactSum_two]
  split
  · next h =>
    obtain ⟨⟨hs, ht⟩, -⟩ := h
    simp [exactSum, hs, ht, add_nonneg hs ht, add_assoc]
  · next h =>
    refine if_neg ?_
    rintro ⟨hnat, hle⟩
    obtain ⟨hs, ht, hzs⟩ : 0 ≤ s ∧ 0 ≤ t ∧ ∀ z ∈ zs, 0 ≤ z := by simpa using hnat
    have hsum := List.sum_nonneg hzs
    rw [List.sum_cons, List.sum_cons] at hle
    exact h ⟨⟨hs, ht⟩, by omega⟩

/-- **The sum of two is exact.** -/
theorem increaseSumTwo_eq (hs : S.Fits s) (t : Arg) :
    increaseSumTwo S s t = some (exactSum S [s, t.val]) := by
  obtain ⟨T, t, ht⟩ := t
  obtain ⟨hA, hB⟩ := max_le_common S T
  have hS := (promoted_le S).2
  have hmax := max_nonneg S
  rw [increaseSumTwo, convert_promoted hs, convert_promoted ht, exactSum_two]
  simp only [Option.bind_eq_bind, Option.bind_some, increaseSumInternal]
  obtain ⟨hs0, hs⟩ := hs
  obtain ⟨ht0, ht⟩ := ht
  by_cases hneg : s < 0 ∨ t < 0
  · -- only an argument of a signed type is negative
    have hsigned : ¬ (S.promoted.signed = false ∧ T.promoted.signed = false) := by
      rintro ⟨h, h'⟩
      rw [unsigned_of_promoted S h] at hs0
      rw [unsigned_of_promoted T h'] at ht0
      omega
    rw [if_neg hsigned, if_pos hneg, if_neg (by omega)]
    rfl
  obtain ⟨h0, h0'⟩ : 0 ≤ s ∧ 0 ≤ t := by omega
  have hsAB := hs.trans (hS.trans hA)
  have htAB := ht.trans ((promoted_le T).2.trans hB)
  rw [convert_natural h0 hsAB, convert_natural h0' htAB, if_neg hneg, convert_natural hmax hS,
    convert_natural hmax (hS.trans hA)]
  simp only [Option.bind_some]
  rw [compute_natural (by omega) (by omega : S.max - s ≤ S.promoted.max), Option.bind_some,
    less_natural (by omega) h0' (by omega) htAB, Option.bind_some]
  by_cases hfits : s + t ≤ S.max
  · rw [compute_natural (by omega) (hfits.trans (hS.trans hA))]
    simp [convert_natural (by omega) hfits, h0, h0', hfits, show t ≤ S.max - s by omega]
  · simp only [hfits, and_false, if_false, show S.max - s < t by omega, decide_true, if_true]
    split
    · next h =>
      obtain ⟨r, hr, hsum⟩ := compute_unsigned (common_unsigned _ _ h.1 h.2) h0 h0' hsAB htAB
      rw [hr, Option.bind_some, if_neg (by omega)]
      rfl
    · rfl

theorem fits_of_exactSum {zs : List ℤ} (h : exactSum S zs = some z) : S.Fits z := by
  obtain ⟨⟨hnat, hle⟩, hz⟩ := Option.ite_none_right_eq_some.mp h
  obtain rfl := Option.some.inj hz
  exact ⟨(min_nonpos S).trans (List.sum_nonneg hnat), hle⟩

/-- **What `IncreaseSum` computes.** -/
theorem increaseSum_eq (hs : S.Fits s) (t : Arg) (args : List Arg) :
    increaseSum S s t args = some (exactSum S (s :: (t :: args).map Arg.val)) := by
  induction args generalizing s t with
  | nil => exact increaseSumTwo_eq hs t
  | cons t' args ih =>
    rw [increaseSum, increaseSumTwo_eq hs t, List.map_cons, exactSum_cons t.val (List.map _ _)]
    cases hr : exactSum S [s, t.val] with
    | none => rfl
    | some r => exact ih (fits_of_exactSum hr) t'

/-- **`NaturalSum` is exact, and `IncreaseSum` agrees with it**; no conversion on the way changes
a value, and no signed operation overflows. -/
theorem naturalSum_eq (S : IntType) (t : Arg) (args : List Arg) :
    naturalSum S t args = some (exactSum S ((t :: args).map Arg.val)) ∧
      ∀ s : Arg, increaseSum s.type s.val t args = naturalSum s.type s (t :: args) := by
  have hsum : ∀ S zs, exactSum S (0 :: zs) = exactSum S zs := by simp [exactSum]
  have hnatural : ∀ S t args,
      naturalSum S t args = some (exactSum S ((t :: args).map Arg.val)) := by
    intro S t args
    rw [naturalSum, increaseSum_eq ⟨min_nonpos S, max_nonneg S⟩, hsum]
  refine ⟨hnatural S t args, fun s => ?_⟩
  rw [hnatural, increaseSum_eq s.fits]
  rfl

/-- Sums of bytes and a longer integer. -/
example : naturalSum ⟨false, 0⟩ ⟨⟨false, 0⟩, 200, by decide⟩ [⟨⟨true, 3⟩, 55, by decide⟩] =
    some (some 255) := by decide

end SquidMath
