import Mathlib

/-!
# Parsers that are fed in pieces

An incremental parser is called again and again, each time with what it left of
its input the last time and what has arrived since. It does not matter how the
input is cut if it does not matter for a single cut. The results need only be
the same up to an equivalence, as the state of a parser that has given up is of
no interest.
-/

namespace Incremental

/-- A parser: a call, and what the last call left of the input. -/
structure Parser (σ β : Type) where
  parse : σ → List β → σ
  remaining : σ → List β

namespace Parser

variable {σ β : Type} (P : Parser σ β)

/-- A call after more input has arrived. -/
def feed (s : σ) (x : List β) : σ := P.parse s (P.remaining s ++ x)

def feedAll (s : σ) (pieces : List (List β)) : σ := pieces.foldl P.feed s

/-- A way to cut the input in two does not matter. -/
def Joins (Same : σ → σ → Prop) (s : σ) (a b : List β) : Prop :=
  Same (P.feed (P.parse s a) b) (P.parse s (a ++ b))

/-- The cuts between pieces: all that came before, and the piece that comes. -/
def Cuts (Ok : List β → List β → Prop) (pieces : List (List β)) : Prop :=
  ∀ before x after, pieces = before ++ x :: after → before ≠ [] → Ok before.flatten x

variable {P} {s : σ}

/-- **All cuts together do not matter** if none does by itself. Of parsers that have
given up it is only asked that they do not come back. -/
theorem feedAll_same {Gone : σ → Prop} (hgone : ∀ {t}, Gone t → ∀ x, Gone (P.feed t x))
    (hstart : P.remaining s = []) (pieces : List (List β)) (hne : pieces ≠ [])
    (hcuts : Cuts (P.Joins (fun t u => t = u ∨ Gone t ∧ Gone u) s) pieces) :
    P.feedAll s pieces = P.parse s pieces.flatten ∨
      Gone (P.feedAll s pieces) ∧ Gone (P.parse s pieces.flatten) := by
  induction pieces using List.reverseRecOn with
  | nil => exact absurd rfl hne
  | append_singleton before x ih =>
    rw [feedAll, List.foldl_append, List.flatten_append, List.flatten_singleton]
    by_cases hbefore : before = []
    · subst hbefore
      show P.parse s (P.remaining s ++ x) = P.parse s ([] ++ x) ∨ _
      rw [hstart]
      exact .inl rfl
    · have hlast := hcuts before x [] rfl hbefore
      show P.feed (P.feedAll s before) x = _ ∨ Gone (P.feed (P.feedAll s before) x) ∧ _
      rcases ih hbefore fun pre y post heq => hcuts pre y (post ++ [x]) (by simp [heq])
        with heq | ⟨hparts, hwhole⟩
      · rw [heq]
        exact hlast
      · refine .inr ⟨hgone hparts x, ?_⟩
        rcases hlast with heq | ⟨-, hgone'⟩
        · exact heq ▸ hgone hwhole x
        · exact hgone'

end Parser

end Incremental
