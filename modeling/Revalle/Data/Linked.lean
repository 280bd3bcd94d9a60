import Mathlib

/-!
# Chains of nodes

Nodes that are linked by a `next` field make chains: one follows the links
from a starting node until there is no next one. A chain is *walked* up to a
given node when something else continues from there – two chains may share
their tails, and each is then walked up to where its own part ends.

`Walk next stop start c` says that walking from `start` passes exactly the
nodes of the list `c`, in that order. It is a relation because the links may
also run in a circle; where it holds the list is determined, and finite.
-/

namespace Linked

variable {α : Type} [DecidableEq α]

/-- **Walking from a node passes exactly these nodes**, the last of which is
`stop` or has no next one. -/
def Walk (next : α → Option α) (stop : Option α) : Option α → List α → Prop
  | start, [] => start = none
  | start, x :: c => start = some x ∧ if some x = stop then c = [] else Walk next stop (next x) c

variable {next next' : α → Option α} {stop start o : Option α} {x y : α} {c c1 c2 : List α}

/-- A node without a next one. -/
theorem walk_singleton (h : next x = none) : Walk next stop (some x) [x] := by
  refine ⟨rfl, ?_⟩
  split
  · rfl
  · exact h

/-- **Only the links of the chain matter.** -/
theorem Walk.congr (h : Walk next stop start c) (heq : ∀ x ∈ c, next' x = next x) :
    Walk next' stop start c := by
  induction c generalizing start with
  | nil => exact h
  | cons x c ih =>
    refine ⟨h.1, ?_⟩
    have h2 := h.2
    by_cases hs : some x = stop
    · rw [if_pos hs] at h2 ⊢
      exact h2
    · rw [if_neg hs] at h2 ⊢
      rw [heq x List.mem_cons_self]
      exact ih h2 fun z hz => heq z (List.mem_cons_of_mem x hz)

theorem Walk.eq_head? (h : Walk next stop start c) : start = c.head? := by
  cases c with
  | nil => exact h
  | cons x c => exact h.1

/-- A node of a chain is linked to the one behind it. -/
theorem Walk.next_eq (h : Walk next none start (c1 ++ x :: c2)) : next x = c2.head? := by
  induction c1 generalizing start with
  | nil =>
    have h2 := h.2
    exact h2.eq_head?
  | cons y c1 ih =>
    have h2 := h.2
    exact ih h2

/-- **Two chains can be joined**: the last node of the first one is linked to
the second. -/
theorem Walk.join (h1 : Walk next none start (c1 ++ [y])) (h₂ : Walk next none o c2)
    (hy1 : y ∉ c1) (hy2 : y ∉ c2) : Walk (Function.update next y o) none start (c1 ++ y :: c2) := by
  induction c1 generalizing start with
  | nil =>
    refine ⟨h1.1, ?_⟩
    rw [if_neg (by simp), Function.update_self]
    refine h₂.congr fun z hz => Function.update_of_ne ?_ ..
    rintro rfl
    exact hy2 hz
  | cons z c1 ih =>
    have h2 := h1.2
    refine ⟨h1.1, ?_⟩
    have hne : z ≠ y := fun he => hy1 (he ▸ List.mem_cons_self)
    rw [if_neg (by simp), Function.update_of_ne hne]
    exact ih h2 fun hmem => hy1 (List.mem_cons_of_mem z hmem)

end Linked
