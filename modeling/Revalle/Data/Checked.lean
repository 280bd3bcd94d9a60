import Mathlib

/-!
# Programs with a state and assertions

Sequential code with assertions is a function of a state that either gives a
result and a new state or fails: `Checked σ α`. `Ensures x Q s` says that
`x`, run from `s`, does not fail an assertion and ends with `Q`. The rules
below take it through the constructs of such programs, so that a program is
specified by one lemma and used through it.
-/

/-- **A program with the state `σ` and a result in `α`** that may fail an
assertion. -/
abbrev Checked (σ α : Type) : Type := StateT σ Option α

namespace Checked

variable {σ α β : Type}

/-- Stop unless the condition holds. -/
def require (c : Prop) [Decidable c] : Checked σ Unit := if c then pure () else failure

/-- **`x` run from `s` ends, without failing an assertion, with `Q`.** -/
def Ensures (x : Checked σ α) (Q : α → σ → Prop) (s : σ) : Prop :=
  ∃ a s', x s = some (a, s') ∧ Q a s'

variable {Q : α → σ → Prop} {s : σ}

theorem Ensures.mono {R : α → σ → Prop} {x : Checked σ α} (h : Ensures x Q s)
    (hQR : ∀ a s', Q a s' → R a s') : Ensures x R s := by
  obtain ⟨a, s', hx, hq⟩ := h
  exact ⟨a, s', hx, hQR a s' hq⟩

theorem ensures_congr {R : α → σ → Prop} {x : Checked σ α} (h : ∀ a s', Q a s' ↔ R a s') :
    Ensures x Q s ↔ Ensures x R s :=
  exists_congr fun a => exists_congr fun s' => and_congr_right fun _ => h a s'

/-- What is run is one outcome. -/
theorem ensures_of_run {x : Checked σ α} {a : α} {s' : σ} (h : x s = some (a, s')) :
    Ensures x Q s ↔ Q a s' := by
  constructor
  · rintro ⟨b, s1, hb, hq⟩
    cases h.symm.trans hb
    exact hq
  · exact fun hq => ⟨a, s', h, hq⟩

@[simp] theorem ensures_pure (a : α) : Ensures (pure a) Q s ↔ Q a s := ensures_of_run rfl

/-- A sequence ends well when its first part ends where the second does. -/
@[simp] theorem ensures_bind (x : Checked σ α) (f : α → Checked σ β) {Q : β → σ → Prop} :
    Ensures (x >>= f) Q s ↔ Ensures x (fun a => Ensures (f a) Q) s := by
  constructor
  · rintro ⟨b, s', hb, hq⟩
    obtain ⟨⟨a, s1⟩, hx, hf⟩ := Option.bind_eq_some_iff.mp hb
    exact ⟨a, s1, hx, b, s', hf, hq⟩
  · rintro ⟨a, s1, hx, b, s', hf, hq⟩
    exact ⟨b, s', Option.bind_eq_some_iff.mpr ⟨(a, s1), hx, hf⟩, hq⟩

@[simp] theorem ensures_get {Q : σ → σ → Prop} : Ensures get Q s ↔ Q s s := ensures_pure s

variable {Q : Unit → σ → Prop}

@[simp] theorem ensures_modify (f : σ → σ) : Ensures (modify f) Q s ↔ Q () (f s) :=
  ensures_of_run rfl

@[simp] theorem ensures_set (s' : σ) : Ensures (set s') Q s ↔ Q () s' :=
  ensures_modify (fun _ => s')

@[simp] theorem ensures_discard (x : Checked σ α) :
    Ensures (discard x) Q s ↔ Ensures x (fun _ => Q ()) s :=
  (ensures_bind (Q := Q) x fun _ => pure ()).trans (ensures_congr fun _ _ => ensures_pure ())

@[simp] theorem ensures_require (c : Prop) [Decidable c] :
    Ensures (require c) Q s ↔ c ∧ Q () s := by
  unfold require
  by_cases h : c
  · rw [if_pos h, ensures_pure]
    exact (and_iff_right h).symm
  · rw [if_neg h]
    constructor
    · rintro ⟨_, _, hx, -⟩
      exact nomatch hx
    · exact fun hq => absurd hq.1 h

end Checked
