import Mathlib

/-!
# Programs that name the assertion they fail

A function of type `α → Except ε β` is code with assertions that are told apart.
`Yields P E r` says of its outcome `r` that a result has `P` and a failed
assertion has `E`: with `E` one says which assertions may fail at all.
-/

namespace Outcome

variable {ε α β : Type}

/-- **A result has `P`, a failed assertion has `E`.** -/
def Yields (P : α → Prop) (E : ε → Prop) : Except ε α → Prop
  | .ok a => P a
  | .error e => E e

variable {P : α → Prop} {E : ε → Prop}

@[simp] theorem yields_ok (a : α) : Yields P E (.ok a : Except ε α) ↔ P a := Iff.rfl

variable {r : Except ε α}

theorem Yields.mono {Q : α → Prop} {F : ε → Prop} (h : Yields P E r) (hPQ : ∀ a, P a → Q a)
    (hEF : ∀ e, E e → F e) : Yields Q F r := by
  cases r with
  | ok a => exact hPQ a h
  | error e => exact hEF e h

/-- A sequence: what the first part gives is good for the second. -/
theorem Yields.bind {Q : β → Prop} {f : α → Except ε β} (h : Yields P E r)
    (hf : ∀ a, P a → Yields Q E (f a)) : Yields Q E (r >>= f) := by
  cases r with
  | ok a => exact hf a h
  | error e => exact h

/-- A loop: `I` is what holds while a part of the list is still to come. -/
theorem yields_foldlM {f : α → β → Except ε α} {I : List β → α → Prop}
    (hstep : ∀ b rest a, I (b :: rest) a → Yields (I rest) E (f a b)) (l : List β) {a : α}
    (h : I l a) : Yields (I []) E (l.foldlM f a) := by
  induction l generalizing a with
  | nil => exact h
  | cons b rest ih => exact (hstep b rest a h).bind (fun _ => ih)

end Outcome
