import Mathlib

/-!
# Defaults

`x || y` is `y` where `x` is absent, and also where `x` counts as false: the
empty text does, and so does the number 0.
-/

/-- A type with a value that counts as false. -/
class Falsy (α : Type) where
  falsy : α

namespace Falsy

instance : Falsy String := ⟨""⟩

instance {α : Type} [Zero α] : Falsy α := ⟨0⟩

@[simp] theorem falsy_string : (falsy : String) = "" := rfl

@[simp] theorem falsy_zero {α : Type} [Zero α] : (falsy : α) = 0 := rfl

variable {α : Type} [DecidableEq α] [Falsy α]

/-- `x ? … : …`. -/
def truthy (x : Option α) : Bool :=
  match x with
  | none => false
  | some x => x ≠ falsy

/-- `x || y`. -/
def orDefault (x : Option α) (y : α) : α :=
  match x with
  | none => y
  | some x => if x = falsy then y else x

/-- `x || null`. -/
def orNull (x : Option α) : Option α := x.filter (· ≠ falsy)

theorem orDefault_ne_falsy (x : Option α) {y : α} (hy : y ≠ falsy) : orDefault x y ≠ falsy := by
  unfold orDefault
  split
  · exact hy
  · split
    · exact hy
    · assumption

end Falsy
