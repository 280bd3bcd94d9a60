import Mathlib

/-!
# Programs over a shared memory

A process that works on shared memory is a *program*: it does one atomic
access at a time, and between two accesses anything may happen to the
memory. `Prog σ α` is such a program over a memory `σ` with a result in
`α`, written as a tree – each node is one access and branches on what the
access has read. Nothing else is observable between two accesses, so the
nodes of the tree are exactly the interleaving points.

A loop of the source whose number of rounds is not known in advance is a
tree of any finite depth: `pick` chooses a bound and the program stalls when
the bound is used up. A process that stalls cannot be told from one that is
never scheduled again, so over all choices the reachable memories are those
of the unbounded loop.

The same program is read in two ways. Alone, it takes a memory to a result
and a memory (`Prog.Runs`, with `Prog.wlp` for what holds after every run).
Among other processes it is read one node at a time, which is the subject of
`Revalle.Shm.Interleaving`.
-/

namespace Shm

/-- **A program over the shared memory `σ`**: a tree of atomic accesses. -/
inductive Prog (σ α : Type) : Type where
  /-- The program is done. -/
  | ret (a : α) : Prog σ α
  /-- One atomic access: the memory becomes `upd s`, and what follows may
  depend on the memory `s` the access has read. -/
  | act (upd : σ → σ) (k : σ → Prog σ α) : Prog σ α
  /-- A choice the program does not control. -/
  | pick (k : ℕ → Prog σ α) : Prog σ α
  /-- The program never continues. -/
  | stall : Prog σ α
  /-- An assertion of the program has failed. -/
  | abort : Prog σ α

namespace Prog

variable {σ τ α β γ : Type}

/-- Sequencing: run `x`, then what `f` makes of its result. -/
def bind (x : Prog σ α) (f : α → Prog σ β) : Prog σ β :=
  match x with
  | ret a => f a
  | act upd k => act upd (fun s => (k s).bind f)
  | pick k => pick (fun n => (k n).bind f)
  | stall => stall
  | abort => abort

instance : Monad (Prog σ) where
  pure := ret
  bind := bind

@[simp] theorem pure_eq (a : α) : (pure a : Prog σ α) = ret a := rfl

@[simp] theorem ret_bind (a : α) (f : α → Prog σ β) : ret a >>= f = f a := rfl

variable {s : σ} {x : Prog σ α} {a : α} {A : Prop} (upd : σ → σ)

@[simp] theorem act_bind (k : σ → Prog σ α) (f : α → Prog σ β) :
    act upd k >>= f = act upd (fun s => k s >>= f) := rfl

@[simp] theorem pick_bind (k : ℕ → Prog σ α) (f : α → Prog σ β) :
    pick k >>= f = pick (fun n => k n >>= f) := rfl

@[simp] theorem stall_bind (f : α → Prog σ β) : (stall : Prog σ α) >>= f = stall := rfl

@[simp] theorem abort_bind (f : α → Prog σ β) : (abort : Prog σ α) >>= f = abort := rfl

theorem bind_ret (x : Prog σ α) : x >>= ret = x := by
  induction x with
  | act upd k ih => exact congrArg (act upd) (funext ih)
  | pick k ih => exact congrArg pick (funext ih)
  | _ => rfl

/-! ## The accesses -/

/-- Read something off the memory, in one access. -/
def load (f : σ → β) : Prog σ β := act id (fun s => ret (f s))

/-- Change the memory, in one access. -/
def store (upd : σ → σ) : Prog σ Unit := act upd (fun _ => ret ())

/-- Read and change the memory, in one access. The value read is the one
before the change. -/
def rmw (upd : σ → σ) (f : σ → β) : Prog σ β := act upd (fun s => ret (f s))

/-- Stop the process unless the condition holds. -/
def assert (c : Prop) [Decidable c] : Prog σ Unit := if c then ret () else abort

/-- **A program over a part of the memory**, read as a program over the whole
of it: `get` finds the part and `set` puts it back. -/
def zoom (get : σ → τ) (set : τ → σ → σ) : Prog τ α → Prog σ α
  | ret a => ret a
  | act upd k => act (fun s => set (upd (get s)) s) (fun s => zoom get set (k (get s)))
  | pick k => pick (fun n => zoom get set (k n))
  | stall => stall
  | abort => abort

/-- A sequence over a part of the memory is a sequence over the whole. -/
theorem zoom_bind (get : σ → τ) (set : τ → σ → σ) (x : Prog τ α) (f : α → Prog τ β) :
    zoom get set (x >>= f) = zoom get set x >>= fun a => zoom get set (f a) := by
  induction x with
  | ret a => rfl
  | act upd k ih => exact congrArg (act _) (funext fun s => ih (get s))
  | pick k ih => exact congrArg pick (funext ih)
  | stall => rfl
  | abort => rfl

@[simp] theorem load_bind (f : σ → β) (g : β → Prog σ γ) :
    load f >>= g = act id (fun s => g (f s)) := rfl

@[simp] theorem store_bind (g : Unit → Prog σ γ) : store upd >>= g = act upd (fun _ => g ()) := rfl

@[simp] theorem rmw_bind (f : σ → β) (g : β → Prog σ γ) :
    rmw upd f >>= g = act upd (fun s => g (f s)) := rfl

@[simp] theorem assert_bind (c : Prop) [Decidable c] (g : Unit → Prog σ γ) :
    assert c >>= g = if c then g () else abort := by
  unfold assert
  split <;> rfl

/-! ## Running a program alone -/

/-- **`x` run alone from `s` can end with the result `a` and the memory
`s'`.** -/
inductive Runs : Prog σ α → σ → α → σ → Prop where
  | ret (a : α) (s : σ) : Runs (.ret a) s a s
  | act {upd : σ → σ} {k : σ → Prog σ α} {s s' : σ} {a : α} :
      Runs (k s) (upd s) a s' → Runs (.act upd k) s a s'
  | pick {k : ℕ → Prog σ α} {s s' : σ} {a : α} (n : ℕ) :
      Runs (k n) s a s' → Runs (.pick k) s a s'

/-- Runs compose. -/
theorem Runs.bind {f : α → Prog σ β} {s' s'' : σ} {b : β} (h : Runs x s a s')
    (hf : Runs (f a) s' b s'') : Runs (x >>= f) s b s'' := by
  induction h with
  | ret a s => exact hf
  | act _ ih => exact .act (ih hf)
  | pick n _ ih => exact .pick n (ih hf)

/-- **Every run of `x` alone from `s` ends well**: `Q` holds of the result and
the memory. `A` is what a failed assertion means: `False` if none may fail,
and `True` if only the runs that end matter. -/
def wlp (A : Prop) : Prog σ α → (α → σ → Prop) → σ → Prop
  | ret a, Q, s => Q a s
  | act upd k, Q, s => wlp A (k s) Q (upd s)
  | pick k, Q, s => ∀ n, wlp A (k n) Q s
  | stall, _, _ => True
  | abort, _, _ => A

/-- What `wlp` promises holds after every run. -/
theorem Runs.of_wlp {Q : α → σ → Prop} {s' : σ} (h : Runs x s a s') (hx : x.wlp A Q s) :
    Q a s' := by
  induction h with
  | ret a s => exact hx
  | act _ ih => exact ih hx
  | pick n _ ih => exact ih (hx n)

/-- A sequence ends well when its first part ends where the second does. -/
theorem wlp_bind (x : Prog σ α) (f : α → Prog σ β) (Q : β → σ → Prop) (s : σ) :
    (x >>= f).wlp A Q s ↔ x.wlp A (fun a => (f a).wlp A Q) s := by
  induction x generalizing s with
  | ret a => rfl
  | act upd k ih => exact ih s (upd s)
  | pick k ih => exact forall_congr' (fun n => ih n s)
  | stall => rfl
  | abort => rfl

/-- The postcondition may be weakened. -/
theorem wlp_mono {Q R : α → σ → Prop} (h : x.wlp A Q s) (hQR : ∀ a s', Q a s' → R a s') :
    x.wlp A R s := by
  induction x generalizing s with
  | ret a => exact hQR a s h
  | act upd k ih => exact ih s h
  | pick k ih => exact fun n => ih n (h n)
  | stall => trivial
  | abort => exact h

/-- **Running a program**, with the choices read off a list. `none` is a run
that stalls, runs out of choices or fails an assertion. -/
def exec : Prog σ α → List ℕ → σ → Option (α × σ)
  | ret a, _, s => some (a, s)
  | act upd k, ns, s => exec (k s) ns (upd s)
  | pick _, [], _ => none
  | pick k, n :: ns, s => exec (k n) ns s
  | stall, _, _ => none
  | abort, _, _ => none

/-- What a program computes is one of its runs. -/
theorem Runs.of_exec {s' : σ} (ns : List ℕ) (h : x.exec ns s = some (a, s')) : Runs x s a s' := by
  induction x generalizing s ns with
  | ret b =>
    obtain ⟨rfl, rfl⟩ : b = a ∧ s = s' := by simpa [exec] using h
    exact .ret b s
  | act upd k ih => exact .act (ih s ns h)
  | pick k ih =>
    cases ns with
    | nil => exact absurd h (by simp [exec])
    | cons n ns => exact .pick n (ih n ns h)
  | stall => exact absurd h (by simp [exec])
  | abort => exact absurd h (by simp [exec])

end Prog

end Shm
