import Revalle.Ipc.StoreMapSerial

/-!
# The arrays of a map and their indices

`Init` allocates filenos and anchors for `anchorLimit` entries. Everything else counts on
`entryLimit` entries, which is computed from the number of slices in another way: there are
`SwapFilenMax + 1` filenos up to `SwapFilenMax`, but `Init` stops one short of that.
-/

namespace Ipc.StoreMap

open Shm

variable {κ : Type} {e : Env κ} {s : StoreMap κ}

/-- The number of filenos, and of anchors, that `Init` allocates for so many slices. -/
def anchorLimit (sliceLimit : ℕ) : ℕ := min sliceLimit SwapFilenMax

/-- Whether there is an entry at the given position, and `anchorAt` accepts it. -/
def validEntry (e : Env κ) (pos : ℤ) : Bool := 0 ≤ pos && pos < e.entryLimit

/-- **A map after any relocations.** What is relocated are the names and the filenos of editions, so
these are valid. -/
inductive Relocated (e : Env κ) : StoreMap κ → Prop
  | new (k : κ) : Relocated e (.new k)
  | relocate {s : StoreMap κ} (name fileno : ℕ) (h : Relocated e s) (hname : validEntry e name)
      (hfileno : validEntry e fileno) : Relocated e (s.setFileNo name fileno)

/-- **Every name and every fileno is an index of both arrays.** -/
structure IndicesValid (e : Env κ) : Prop where
  name : ∀ key, nameByKey e key < anchorLimit e.sliceLimit
  fileno : ∀ key s, Relocated e s → s.lookup (nameByKey e key) < anchorLimit e.sliceLimit
  entry : ∀ pos, validEntry e pos → 0 ≤ pos ∧ pos < anchorLimit e.sliceLimit

theorem validEntry_iff {pos : ℤ} : validEntry e pos = true ↔ 0 ≤ pos ∧ pos < e.entryLimit := by
  rw [validEntry, Bool.and_eq_true, decide_eq_true_eq, decide_eq_true_eq]

theorem Relocated.lookup_lt (h : Relocated e s) :
    ∀ n < e.entryLimit, s.lookup n < e.entryLimit := by
  induction h with
  | new k => exact fun n hn => hn
  | relocate name fileno h hname hfileno ih =>
    intro n hn
    rw [lookup_setFileNo]
    split
    · exact Int.ofNat_lt.mp (validEntry_iff.mp hfileno).2
    · exact ih n hn

/-- **The indices are valid as long as there are fewer slices than filenos.** -/
theorem indicesValid_iff (e : Env κ) (hpos : 0 < e.sliceLimit) :
    IndicesValid e ↔ e.sliceLimit ≤ SwapFilenMax := by
  constructor
  · intro h
    by_contra hlt
    -- the last fileno is a valid entry
    have hlast : validEntry e SwapFilenMax :=
      validEntry_iff.mpr ⟨Int.natCast_nonneg _, Int.ofNat_lt.mpr (lt_min (not_le.mp hlt)
        (Nat.lt_succ_self _))⟩
    have hle := Int.ofNat_lt.mp (h.entry _ hlast).2
    exact absurd (hle.trans_le (min_le_right _ _)) (lt_irrefl _)
  · intro hle
    have hsame : anchorLimit e.sliceLimit = e.entryLimit := by
      rw [anchorLimit, Env.entryLimit, min_eq_left hle, min_eq_left (hle.trans (Nat.le_succ _))]
    have hname : ∀ key, nameByKey e key < e.entryLimit := fun key =>
      Nat.mod_lt _ (lt_min hpos (Nat.succ_pos _))
    refine ⟨fun key => ?_, fun key s h => ?_, fun pos h => ?_⟩
    · rw [hsame]
      exact hname key
    · rw [hsame]
      exact h.lookup_lt _ (hname key)
    · rw [hsame]
      exact validEntry_iff.mp h

/-- The indices of the largest map that is safe. -/
theorem indicesValid_iff_swapFilenMax :
    0 < SwapFilenMax ∧ IndicesValid (Env.plain SwapFilenMax fun _ => (.ret () : Prog Unit Unit)) :=
  ⟨by decide, (indicesValid_iff _ (by decide)).mpr le_rfl⟩

/-- **With one slice more, a key has a name behind the end of the arrays.** -/
theorem name_behind_arrays :
    ¬ IndicesValid (Env.plain (SwapFilenMax + 1) fun _ => (.ret () : Prog Unit Unit)) := by
  intro h
  exact absurd (h.name ⟨0xFFFFFF, 0⟩) (by decide)

end Ipc.StoreMap
