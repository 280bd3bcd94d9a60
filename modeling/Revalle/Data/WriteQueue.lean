import Mathlib

/-!
# Writes in flight

Writes to a store take time: they are started one after the other, and they land in the
order in which they were started. What the store will have when they have landed is a
function of the store and the writes (`land`), and is not changed when the first of them
lands.
-/

/-- A write of a value under a key. -/
structure QueuedWrite (κ V : Type) where
  key : κ
  value : V
  deriving DecidableEq, Repr

namespace QueuedWrite

variable {κ V : Type} [DecidableEq κ]

/-- The store when the writes have landed. -/
def land (store : κ → Option V) (writes : List (QueuedWrite κ V)) : κ → Option V :=
  writes.foldl (fun store w => Function.update store w.key (some w.value)) store

@[simp]
theorem land_nil (store : κ → Option V) : land store [] = store := rfl

theorem land_cons (store : κ → Option V) (w : QueuedWrite κ V) (writes : List (QueuedWrite κ V)) :
    land store (w :: writes) = land (Function.update store w.key (some w.value)) writes := rfl

/-- The write that is started last has the last word. -/
theorem land_concat (store : κ → Option V) (writes : List (QueuedWrite κ V)) (w : QueuedWrite κ V) :
    land store (writes ++ [w]) = Function.update (land store writes) w.key (some w.value) := by
  simp [land, List.foldl_append]

theorem land_of_forall_ne {store : κ → Option V} {writes : List (QueuedWrite κ V)} {k : κ}
    (h : ∀ w ∈ writes, w.key ≠ k) : land store writes k = store k := by
  induction writes generalizing store with
  | nil => rfl
  | cons w writes ih =>
    rw [land_cons, ih (fun x hx => h x (List.mem_cons_of_mem _ hx))]
    exact Function.update_of_ne (Ne.symm (h w List.mem_cons_self)) _ _

/-- If all writes under a key have one value, this is what lands. -/
theorem land_eq_of_forall {store : κ → Option V} {writes : List (QueuedWrite κ V)} {k : κ} {v : V}
    (h : ∀ w ∈ writes, w.key = k → w.value = v) (hmem : ∃ w ∈ writes, w.key = k) :
    land store writes k = some v := by
  induction writes generalizing store with
  | nil =>
    obtain ⟨w, hw, -⟩ := hmem
    exact absurd hw List.not_mem_nil
  | cons w writes ih =>
    rw [land_cons]
    by_cases hrest : ∃ x ∈ writes, x.key = k
    · exact ih (fun x hx => h x (List.mem_cons_of_mem _ hx)) hrest
    · have hne : ∀ x ∈ writes, x.key ≠ k := fun x hx hk => hrest ⟨x, hx, hk⟩
      rw [land_of_forall_ne hne]
      obtain ⟨x, hx, rfl⟩ := hmem
      rcases List.mem_cons.mp hx with rfl | hx
      · rw [Function.update_self, h x List.mem_cons_self rfl]
      · exact absurd rfl (hne x hx)

end QueuedWrite
