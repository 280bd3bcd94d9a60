import Revalle.Ipc.StoreMapCount

/-!
# Evicting a key from the transients

`Transients::evictIfFound` goes from a key to an anchor and frees or marks what is
there, without a look at its key. So it spares the entries of other keys only if
there is nothing left to do for the one that it finds.
-/

namespace Transients

open Ipc Shm Prog StoreMap ReadWriteLock StoreMapAnchor

variable {κ : Type} {e : Env κ} {s : StoreMap κ}

/-- **A map of transients**: its locks and names are in order, and an entry has at most
one slice, of which the cleaner takes no notice. -/
structure Valid (e : Env κ) (s : StoreMap κ) : Prop where
  quiet : ∀ i, (s.anchors i).lock.Quiet
  lookup_lt : ∀ key, s.lookup (nameByKey e key) < e.entryLimit
  start_lt : ∀ i, ∀ j ∈ (s.anchors i).start, j < e.sliceLimit
  next : ∀ j, (s.pool.slices j).next = none
  noteFreeMapSlice : ∀ j, e.noteFreeMapSlice j = .ret ()

/-- The entries of other keys are not freed, not marked, and what is broadcast is not
about them, after an eviction that has found the anchor `j`. -/
def Spared (key : CacheKey) (j : ℕ) (before after : ℕ → StoreMapAnchor) (broadcast : Bool) :
    Prop :=
  ∀ i, (before i).sameKey key = false →
    ((before i).empty = false → (after i).empty = false) ∧
    ((after i).waitingToBeFreed = true → (before i).waitingToBeFreed = true) ∧
    (broadcast = true → j ≠ i)

/-- **Evicting a key spares the entries of other keys.** -/
def Spares (e : Env κ) (key : CacheKey) (s : StoreMap κ) : Prop :=
  (evictIfFound e key).wlp True
    (fun broadcast s' => Spared key (s.lookup (nameByKey e key)) s.anchors s'.anchors broadcast) s

/-- There is nothing to free at an anchor, or it is marked already. -/
def Idle (a : StoreMapAnchor) : Prop :=
  if a.lock.Free then a.empty = true else a.waitingToBeFreed = true

/-- The slices of an entry can be freed. -/
theorem Valid.frees_iff (h : Valid e s) (i : ℕ) (C : Prop) :
    Frees e True (s.anchors i) (fun _ => C) s.pool ↔ C := by
  refine ⟨fun hw => ?_, fun hC => frees_of_forall fun _ => hC⟩
  unfold Frees at hw
  split at hw
  · exact hw
  · have hw := hw 1
    cases hstart : (s.anchors i).start with
    | none => rwa [hstart] at hw
    | some j =>
      rw [hstart] at hw
      simp only [freeChainLoop, wlp_bind, sliceAt, wlp_assert, wlp_load, clear, wlp_store, h.next,
        h.noteFreeMapSlice] at hw
      have := hw (h.start_lt i j hstart)
      rwa [zoom, wlp_ret, ite_self] at this

theorem spared_update_iff {key : CacheKey} {j : ℕ} {f : ℕ → StoreMapAnchor} {a : StoreMapAnchor}
    {b : Bool} : Spared key j f (Function.update f j a) b ↔ (f j).sameKey key = true ∨
      ((f j).empty = false → a.empty = false) ∧
      (a.waitingToBeFreed = true → (f j).waitingToBeFreed = true) ∧ b = false := by
  constructor
  · intro hspared
    cases hkey : (f j).sameKey key with
    | true => exact .inl rfl
    | false => simpa using hspared j hkey
  · intro hfound i hkey
    by_cases hij : i = j
    · subst hij
      simpa [hkey] using hfound
    · simp [Function.update_of_ne hij, Ne.symm hij]

/-- **Evicting a key spares the entries of other keys exactly when the anchor that is
found has the key, or there is nothing left to do for it.** -/
theorem spares_iff (h : Valid e s) (key : CacheKey) :
    Spares e key s ↔ (s.anchors (s.lookup (nameByKey e key))).sameKey key = true ∨
      Idle (s.anchors (s.lookup (nameByKey e key))) := by
  have hspares : Spares e key s ↔ _ := (wlp_bind ..).trans
    (wlp_freeEntry (h.lookup_lt key) (h.quiet _))
  rw [hspares]
  generalize s.lookup (nameByKey e key) = j
  have hfreed : ∀ p, (s.freed j p).anchors =
      Function.update s.anchors j (s.anchors j).rewound := fun _ => rfl
  have hmarked : (s.marked j).anchors = Function.update s.anchors j _ := rfl
  simp only [id, hfreed, hmarked, spared_update_iff, h.frees_iff, Idle]
  by_cases hf : (s.anchors j).lock.Free
  · have hempty : (s.anchors j).rewound.empty = true := rfl
    have hclear : (s.anchors j).rewound.waitingToBeFreed = false := rfl
    simp only [hf, hempty, hclear]
    cases (s.anchors j).empty <;> simp
  · have hempty : { s.anchors j with waitingToBeFreed := true }.empty = (s.anchors j).empty := rfl
    simp [hf, hempty]

/-- A map with one entry, to which every key leads. -/
def single : StoreMap Unit :=
  { StoreMap.new () with anchors := fun _ => { StoreMapAnchor.new with key := ⟨1, 0⟩ } }

theorem valid_single : Valid (.plain 1 fun _ => .ret ()) single :=
  ⟨fun _ => .new, fun _ => Nat.mod_lt _ (by decide), fun _ _ h => by cases h; decide, fun _ => rfl,
    fun _ => rfl⟩

theorem spares_own_key : Valid (.plain 1 fun _ => .ret ()) single ∧
    Spares (.plain 1 fun _ => .ret ()) ⟨1, 0⟩ single :=
  ⟨valid_single, (spares_iff valid_single _).mpr (.inl (by decide))⟩

/-- **The eviction of another key frees the entry.** -/
theorem not_spares_collision : ¬ Spares (.plain 1 fun _ => .ret ()) ⟨2, 0⟩ single := by
  intro hspares
  have hrun : (evictIfFound (.plain 1 fun _ => .ret ()) ⟨2, 0⟩).Runs single _ _ := .of_exec [1] rfl
  exact absurd ((hrun.of_wlp hspares 0 rfl).1 rfl) (by decide)

end Transients
