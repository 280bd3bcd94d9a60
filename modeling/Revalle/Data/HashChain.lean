import Mathlib

/-!
# Hash chains

A chain is a list of links, each of which has a hash of its own and the hash of
the link before it. Where the hash of a link determines the hash it refers to, as
a collision-free hash of both does, a chain has no two links of the same hash, and
the links alone determine in which order they stand.
-/

namespace HashChain

open List

variable {H : Type}

structure Link (H : Type) where
  prev : Option H
  hash : H
  deriving DecidableEq, Repr

/-- **Each link refers to the one before it**, the first one to `p`. -/
def Links : Option H → List (Link H) → Prop
  | _, [] => True
  | p, x :: l => x.prev = p ∧ Links (some x.hash) l

/-- The hash that the next link refers to: that of the last one, if there is one. -/
def tip : Option H → List (Link H) → Option H
  | p, [] => p
  | _, x :: l => tip (some x.hash) l

variable {l m : List (Link H)} (p : Option H)

@[simp] theorem tip_nil : tip p [] = p := rfl

@[simp] theorem tip_cons (x : Link H) (l : List (Link H)) :
    tip p (x :: l) = tip (some x.hash) l := rfl

theorem tip_eq_or_mem (l : List (Link H)) : tip p l = p ∨ ∃ x ∈ l, tip p l = some x.hash := by
  induction l generalizing p with
  | nil => exact .inl rfl
  | cons x l ih =>
    rcases ih (some x.hash) with h | ⟨y, hy, h⟩
    · exact .inr ⟨x, mem_cons_self, h⟩
    · exact .inr ⟨y, mem_cons_of_mem x hy, h⟩

theorem tip_append (l m : List (Link H)) : tip p (l ++ m) = tip (tip p l) m := by
  induction l generalizing p with
  | nil => rfl
  | cons x l ih => simp [ih]

theorem links_append (l m : List (Link H)) : Links p (l ++ m) ↔ Links p l ∧ Links (tip p l) m := by
  induction l generalizing p with
  | nil => simp [Links]
  | cons x l ih => simp [Links, ih, and_assoc]

/-- A link refers to where the chain starts or to a link of the chain. -/
theorem Links.prev_of_mem {p : Option H} (h : Links p l) {x : Link H} (hx : x ∈ l) :
    x.prev = p ∨ ∃ y ∈ l, x.prev = some y.hash := by
  induction l generalizing p with
  | nil => simp at hx
  | cons y l ih =>
    rcases mem_cons.mp hx with rfl | hx
    · exact .inl h.1
    · rcases ih h.2 hx with hprev | ⟨z, hz, hprev⟩
      · exact .inr ⟨y, mem_cons_self, hprev⟩
      · exact .inr ⟨z, mem_cons_of_mem y hz, hprev⟩

/-- **The hash of a link determines the hash it refers to.** -/
def Determined (l : List (Link H)) : Prop :=
  ∀ x ∈ l, ∀ y ∈ l, x.hash = y.hash → x.prev = y.prev

theorem Determined.subset (h : Determined m) (hlm : l ⊆ m) : Determined l :=
  fun x hx y hy => h x (hlm hx) y (hlm hy)

/-- **No two links of a chain have the same hash.** Otherwise those before them
would have the same hash as well, and so on to the start of the chain, to which
only one link refers. -/
theorem Links.nodup (h : Links none l) (hdet : Determined l) : (l.map Link.hash).Nodup := by
  induction l using reverseRecOn with
  | nil => exact nodup_nil
  | append_singleton l x ih =>
    obtain ⟨hl, hprev, -⟩ := (links_append none l [x]).mp h
    have hnodup := ih hl (hdet.subset (subset_append_left l [x]))
    rw [map_append, map_singleton, nodup_append]
    refine ⟨hnodup, nodup_singleton _, ?_⟩
    rintro a ha b hb rfl
    obtain rfl := mem_singleton.mp hb
    obtain ⟨y, hy, hyx⟩ := mem_map.mp ha
    -- `y` refers to the last link of `l`, which comes after it or is `y`
    have hyprev : y.prev = tip none l :=
      (hdet y (mem_append_left _ hy) x (mem_append_right _ mem_cons_self) hyx).trans hprev
    obtain ⟨before, after, rfl⟩ := append_of_mem hy
    rw [tip_append, tip_cons] at hyprev
    obtain ⟨hbefore, hy', -⟩ := (links_append none before (y :: after)).mp hl
    rw [hy'] at hyprev
    rw [map_append, map_cons, nodup_append] at hnodup
    have hafter : ∃ z ∈ y :: after, tip (some y.hash) after = some z.hash := by
      rcases tip_eq_or_mem (some y.hash) after with htip | ⟨z, hz, htip⟩
      · exact ⟨y, mem_cons_self, htip⟩
      · exact ⟨z, mem_cons_of_mem y hz, htip⟩
    obtain ⟨z, hz, hztip⟩ := hafter
    rcases tip_eq_or_mem none before with htip | ⟨w, hw, htip⟩
    · simp [htip, hztip] at hyprev
    · have hwz : w.hash = z.hash := by simpa [htip, hztip] using hyprev
      exact hnodup.2.2 w.hash (mem_map_of_mem hw) z.hash (mem_map_of_mem hz) hwz

/-- **The links of a chain determine their order**: a chain that is made of links of
another one, and starts where it does, is the first part of it. -/
theorem Links.isPrefix {p : Option H} (hl : Links p l) (hm : Links p m) (hlm : l ⊆ m)
    (hnodup : (m.map Link.hash).Nodup) (hp : ∀ x ∈ m, some x.hash ≠ p) : l <+: m := by
  induction l generalizing p m with
  | nil => exact nil_prefix
  | cons x l ih =>
    cases m with
    | nil => simp at hlm
    | cons y m =>
      have hxy : x = y := by
        rcases mem_cons.mp (hlm mem_cons_self) with h | h
        · exact h
        -- a later link refers to one of the chain, not to its start
        · rcases hm.2.prev_of_mem h with hprev | ⟨z, hz, hprev⟩
          · exact absurd (hprev.symm.trans hl.1) (hp y mem_cons_self)
          · exact absurd (hprev.symm.trans hl.1) (hp z (mem_cons_of_mem y hz))
      subst hxy
      rw [map_cons, nodup_cons] at hnodup
      refine (prefix_cons_inj x).mpr (ih hl.2 hm.2 (fun z hz => ?_) hnodup.2 (fun z hz heq => ?_))
      · rcases mem_cons.mp (hlm (mem_cons_of_mem x hz)) with rfl | h
        · -- `z` comes after itself in the first chain
          exfalso
          rcases hl.2.prev_of_mem hz with hprev | ⟨w, hw, hprev⟩
          · exact hp z mem_cons_self (hprev.symm.trans hl.1)
          · exact hp w (hlm (mem_cons_of_mem z hw)) (hprev.symm.trans hl.1)
        · exact h
      · exact hnodup.1 (Option.some.inj heq ▸ mem_map_of_mem hz)

end HashChain
