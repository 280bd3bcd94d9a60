import Revalle.Shm.Interleaving

/-!
# Operations one after another

Some results are about a memory that one process uses, or about what whole
operations do to it when they do not overlap. Such a run is a sequence of
calls, each running to its end before the next: `System.SerialIn G` are the
memories reached that way by calls that satisfy `G`. They are among the
configurations of the interleaved family (`System.SerialIn.reachable`), so
whatever goes wrong in a serial run also goes wrong in an interleaving.

What one operation does is a statement about `Prog.wlp`, which follows the
program from access to access. The rules below take it through the accesses,
through sequences and through a part of the memory, so that a program is
specified by one lemma and used through it.
-/

namespace Shm

namespace Prog

variable {σ τ α β : Type} {A : Prop} {Q : α → σ → Prop} {s : σ}

/-! ## What the accesses do -/

@[simp] theorem wlp_ret (a : α) : (ret a : Prog σ α).wlp A Q s ↔ Q a s := Iff.rfl

@[simp] theorem wlp_act (upd : σ → σ) (k : σ → Prog σ α) :
    (act upd k).wlp A Q s ↔ (k s).wlp A Q (upd s) := Iff.rfl

@[simp] theorem wlp_pick (k : ℕ → Prog σ α) : (pick k).wlp A Q s ↔ ∀ n, (k n).wlp A Q s := Iff.rfl

@[simp] theorem wlp_load (f : σ → α) : (load f).wlp A Q s ↔ Q (f s) s := Iff.rfl

@[simp] theorem wlp_store (upd : σ → σ) {Q : Unit → σ → Prop} :
    (store upd).wlp A Q s ↔ Q () (upd s) := Iff.rfl

@[simp] theorem wlp_rmw (upd : σ → σ) (f : σ → α) : (rmw upd f).wlp A Q s ↔ Q (f s) (upd s) :=
  Iff.rfl

@[simp] theorem wlp_assert (c : Prop) [Decidable c] {Q : Unit → σ → Prop} :
    (assert c).wlp True Q s ↔ (c → Q () s) := by
  unfold assert
  by_cases h : c
  · rw [if_pos h]
    exact ⟨fun hq _ => hq, fun hq => hq h⟩
  · rw [if_neg h]
    exact ⟨fun _ h' => absurd h' h, fun _ => trivial⟩

@[simp] theorem wlp_discard (x : Prog σ β) {Q : Unit → σ → Prop} :
    (discard x).wlp A Q s ↔ x.wlp A (fun _ => Q ()) s := wlp_bind x (fun _ => pure ()) Q s

/-- When failures do not matter, what always holds holds afterwards. -/
theorem wlp_of_forall (x : Prog σ α) (hA : A) (hQ : ∀ a s, Q a s) : x.wlp A Q s := by
  induction x generalizing s with
  | ret a => exact hQ a s
  | act upd k ih => exact ih s
  | pick k ih => exact fun n => ih n
  | stall => trivial
  | abort => exact hA

/-- A program over a part of the memory does there what it does alone. -/
theorem wlp_zoom {get : σ → τ} {set : τ → σ → σ} (hget : ∀ t s, get (set t s) = t)
    (hset : ∀ t t' s, set t' (set t s) = set t' s) (hself : ∀ s, set (get s) s = s)
    (x : Prog τ α) (s : σ) :
    (zoom get set x).wlp A Q s ↔ x.wlp A (fun a t => Q a (set t s)) (get s) := by
  induction x generalizing s with
  | ret a =>
    show Q a s ↔ Q a (set (get s) s)
    rw [hself]
  | act upd k ih =>
    refine (ih (get s) (set (upd (get s)) s)).trans ?_
    rw [hget]
    simp only [hset]
    exact Iff.rfl
  | pick k ih => exact forall_congr' fun n => ih n s
  | stall => exact Iff.rfl
  | abort => exact Iff.rfl

end Prog

/-! ## Serial runs -/

variable {σ P H Op : Type} [DecidableEq P]

namespace System

variable (S : System σ P H Op)

/-- **What the family reaches when operations do not overlap**: the memory and
what every process holds, after calls that satisfy `G`. -/
inductive SerialIn (G : P → Op → σ → (P → H) → Prop) : σ → (P → H) → Prop where
  | init : SerialIn G S.init S.start
  | step {s s' : σ} {hs : P → H} {h' h'' : H} {x : Prog σ H} (p : P) (op : Op) :
      SerialIn G s hs → G p op s hs → S.call p op s (hs p) = some (h', x) → x.Runs s h'' s' →
      SerialIn G s' (Function.update hs p h'')

/-- All that is reached when operations do not overlap. -/
abbrev Serial : σ → (P → H) → Prop := S.SerialIn fun _ _ _ _ => True

variable {S}

variable {s : σ} {hs : P → H} {G : P → Op → σ → (P → H) → Prop}

/-- **What every operation keeps holds after every serial run.** -/
theorem SerialIn.invariant {I : σ → (P → H) → Prop} (hinit : I S.init S.start)
    (hcall : ∀ p op s hs h' x, I s hs → G p op s hs → S.call p op s (hs p) = some (h', x) →
      x.wlp True (fun h'' s' => I s' (Function.update hs p h'')) s) (h : S.SerialIn G s hs) :
    I s hs := by
  induction h with
  | init => exact hinit
  | step p op _ hG hc hx ih => exact hx.of_wlp (hcall p op _ _ _ _ ih hG hc)

/-- One more call, computed with the given choices. -/
theorem SerialIn.exec {s' : σ} {h' h'' : H} {x : Prog σ H} (h : S.SerialIn G s hs) (p : P)
    (op : Op) (ns : List ℕ) (hG : G p op s hs) (hc : S.call p op s (hs p) = some (h', x))
    (hx : x.exec ns s = some (h'', s')) : S.SerialIn G s' (Function.update hs p h'') :=
  .step p op h hG hc (.of_exec ns hx)

/-- **Operations that do not overlap are one of the interleavings.** -/
theorem SerialIn.reachable (h : S.SerialIn G s hs) : S.Reachable ⟨s, fun p => .idle (hs p)⟩ := by
  induction h with
  | init => exact .init trivial
  | step p op _ _ hc hx ih =>
    have hstep := ih.solo rfl hc hx
    rwa [← Function.comp_def, Function.comp_update]

end System

end Shm
