import Revalle.Data.Checked

/-!
# Programs with a state, assertions and exceptions

A program of type `Throwing σ α` ends with a result, or throws and leaves the
state it had reached behind, or does something undefined and has no outcome
at all. `Gives x Q E s` says that `x`, run from `s`, has an outcome: a result
with `Q`, or an exception in a state with `E`.
-/

/-- **A program with the state `σ` and a result in `α`** that may throw, and
that may also do something undefined. -/
abbrev Throwing (σ α : Type) : Type := ExceptT Unit (Checked σ) α

namespace Throwing

open Option

variable {σ α β : Type}

/-- Throw unless the condition holds. -/
def must (c : Prop) [Decidable c] : Throwing σ Unit := if c then pure () else throw ()

/-- What follows is undefined unless the condition holds. -/
def defined (c : Prop) [Decidable c] : Throwing σ Unit := ExceptT.lift (Checked.require c)

/-- Run `x` if the condition holds. -/
def whenever (c : Prop) [Decidable c] (x : Throwing σ Unit) : Throwing σ Unit :=
  if c then x else pure ()

/-- Run `x` between `before` and `after`; the latter also when `x` throws. -/
def bracket (before after : σ → σ) (x : Throwing σ α) : Throwing σ α :=
  ExceptT.mk do
    modify before
    let r ← x.run
    modify after
    pure r

/-- **`x` run from `s` has an outcome**, which is a result with `Q` or an
exception with `E`. -/
def Gives (x : Throwing σ α) (Q : α → σ → Prop) (E : σ → Prop) (s : σ) : Prop :=
  ∃ r s', x.run s = some (r, s') ∧
    match r with
    | .ok a => Q a s'
    | .error _ => E s'

variable {Q R : α → σ → Prop} {E F : σ → Prop} {s : σ} {x : Throwing σ α}

theorem Gives.mono (h : Gives x Q E s) (hQR : ∀ a s', Q a s' → R a s')
    (hEF : ∀ s', E s' → F s') : Gives x R F s := by
  obtain ⟨r, s', hx, hr⟩ := h
  refine ⟨r, s', hx, ?_⟩
  cases r with
  | ok a => exact hQR a s' hr
  | error u => exact hEF s' hr

theorem Gives.imp (h : Gives x Q E s) (hQR : ∀ a s', Q a s' → R a s') : Gives x R E s :=
  h.mono hQR fun _ => id

/-- What never throws need not say what it leaves when it throws. -/
theorem Gives.never (h : Gives x Q (fun _ => False) s) (hQR : ∀ a s', Q a s' → R a s') :
    Gives x R E s :=
  h.mono hQR fun _ => False.elim

/-- There is one outcome, so that what is known of it can be put together. -/
theorem Gives.and (h : Gives x Q E s) (h' : Gives x R F s) :
    Gives x (fun a s => Q a s ∧ R a s) (fun s => E s ∧ F s) s := by
  obtain ⟨r, s1, hx, hr⟩ := h
  obtain ⟨r', s2, hx', hr'⟩ := h'
  obtain ⟨rfl, rfl⟩ := Prod.mk.inj (some.inj (hx.symm.trans hx'))
  refine ⟨r, s1, hx, ?_⟩
  cases r <;> exact ⟨hr, hr'⟩

/-- What is run is one outcome. -/
theorem gives_of_run {a : α} {s' : σ} (h : x.run s = some (.ok a, s')) :
    Gives x Q E s ↔ Q a s' :=
  Checked.ensures_of_run h

@[simp] theorem gives_pure (a : α) : Gives (pure a) Q E s ↔ Q a s := gives_of_run rfl

theorem gives_of_throw {s' : σ} (h : x.run s = some (.error (), s')) : Gives x Q E s ↔ E s' :=
  Checked.ensures_of_run h

@[simp] theorem gives_throw : Gives (throw () : Throwing σ α) Q E s ↔ E s := gives_of_throw rfl

/-- What goes on with `k`, after a result or after an exception. -/
theorem gives_run_bind {y : Throwing σ β} {k : Except Unit α → Checked σ (Except Unit β)}
    {Q : β → σ → Prop} (hy : y.run = x.run >>= k)
    (hok : ∀ a s', Gives (.mk (k (.ok a))) Q E s' ↔ R a s')
    (herror : ∀ s', Gives (.mk (k (.error ()))) Q E s' ↔ F s') :
    Gives y Q E s ↔ Gives x R F s := by
  unfold Gives
  rw [hy]
  refine (Checked.ensures_bind x.run k).trans (Checked.ensures_congr fun r s' => ?_)
  cases r with
  | ok a => exact hok a s'
  | error u => exact herror s'

/-- A sequence has an outcome when its first part leads to one of the second,
or throws. -/
@[simp] theorem gives_bind (x : Throwing σ α) (f : α → Throwing σ β) {Q : β → σ → Prop} :
    Gives (x >>= f) Q E s ↔ Gives x (fun a => Gives (f a) Q E) E s :=
  gives_run_bind rfl (fun _ _ => Iff.rfl) fun _ => gives_throw

@[simp] theorem gives_get {Q : σ → σ → Prop} : Gives get Q E s ↔ Q s s :=
  gives_of_run rfl

@[simp] theorem gives_modify (f : σ → σ) {Q : Unit → σ → Prop} :
    Gives (modify f) Q E s ↔ Q () (f s) :=
  gives_of_run rfl

theorem gives_ite (c : Prop) [Decidable c] (x y : Throwing σ α) :
    Gives (if c then x else y) Q E s ↔ (c → Gives x Q E s) ∧ (¬ c → Gives y Q E s) := by
  by_cases h : c
  · simp [h]
  · simp [h]

@[simp] theorem gives_must (c : Prop) [Decidable c] {Q : Unit → σ → Prop} :
    Gives (must c) Q E s ↔ (c → Q () s) ∧ (¬ c → E s) := by
  rw [must, gives_ite, gives_pure, gives_throw]

@[simp] theorem gives_defined (c : Prop) [Decidable c] {Q : Unit → σ → Prop} :
    Gives (defined c) Q E s ↔ c ∧ Q () s := by
  unfold defined Checked.require
  by_cases h : c
  · rw [if_pos h]
    exact (gives_pure (Q := Q) (E := E) ()).trans (and_iff_right h).symm
  · rw [if_neg h]
    constructor
    · rintro ⟨_, _, hx, -⟩
      exact nomatch hx
    · exact fun hq => absurd hq.1 h

@[simp] theorem gives_whenever (c : Prop) [Decidable c] (x : Throwing σ Unit)
    {Q : Unit → σ → Prop} : Gives (whenever c x) Q E s ↔ (c → Gives x Q E s) ∧ (¬ c → Q () s) := by
  rw [whenever, gives_ite, gives_pure]

/-- An exception is caught in the state that it leaves behind. -/
@[simp] theorem gives_tryCatch (x : Throwing σ α) (handler : Unit → Throwing σ α) :
    Gives (tryCatch x handler) Q E s ↔ Gives x Q (Gives (handler ()) Q E) s :=
  gives_run_bind (ExceptT.run_tryCatch x handler) (fun _ _ => gives_pure _) fun _ => Iff.rfl

/-- What `x` does between `before` and `after` is what it does in the state
`before` makes, seen through `after`. -/
@[simp] theorem gives_bracket (before after : σ → σ) (x : Throwing σ α) :
    Gives (bracket before after x) Q E s
      ↔ Gives x (fun a s' => Q a (after s')) (fun s' => E (after s')) (before s) := by
  show Checked.Ensures _ _ _ ↔ Checked.Ensures _ _ _
  simp only [bracket, ExceptT.run_mk, Checked.ensures_bind, Checked.ensures_modify]
  exact Checked.ensures_congr fun _ _ => by
    rw [Checked.ensures_bind, Checked.ensures_modify, Checked.ensures_pure]

end Throwing
