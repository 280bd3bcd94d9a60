import Revalle.Shm.Program

/-!
# Processes interleaving over a shared memory

Any number of processes work on one memory. Each is a client that, when
idle, may call an operation – which ones it may call depends on what it
holds – and then runs the operation's program one access at a time, in any
order with the accesses of the others. `System` describes such a family and
`Config` one instant of it; a `Move` is either a call or one access.

## What holds in every interleaving

An invariant of such a family relates the memory to what every process has
under way, and the latter is not in the memory. It is a *phase*: a ghost
value each process carries, which only that process changes. A `Protocol`
is an invariant over the memory, the outlines of the processes (what each
holds, and whether it is inside an operation) and their phases.

`Protocol.Safe` is the proof obligation of one program, read one access at a
time: from a memory in which the invariant holds and the process has the
phase it believes it has, the access leads to a memory in which the
invariant holds with a phase of the process's choosing. `Protocol.Safe.bind`
composes programs, so each operation of a data structure needs one lemma, and
`System.ReachableIn.invariant` puts all of them together: the invariant
holds in every reachable configuration, whatever the interleaving.
-/

namespace Shm

open Function Option

variable {σ τ P H Op Φ α β : Type}

/-! ## The processes -/

/-- What a client holds, and whether it is inside an operation. While it is,
`held` is what it holds throughout the operation. -/
structure Outline (H : Type) where
  /-- What the process holds. -/
  held : H
  /-- Whether the process is inside an operation. -/
  busy : Bool

/-- **One process**: idle, or inside an operation with a program left to
run, whose result is what the process will hold afterwards. -/
inductive Thread (σ H : Type) where
  | idle (h : H) : Thread σ H
  | running (h : H) (x : Prog σ H) : Thread σ H

namespace Thread

/-- What can be said of a process without looking at its program. -/
def outline : Thread σ H → Outline H
  | idle h => ⟨h, false⟩
  | running h _ => ⟨h, true⟩

/-- Whether the process has failed an assertion. -/
def aborted : Thread σ H → Bool
  | running _ .abort => true
  | _ => false

end Thread

/-- One instant: the memory and every process. -/
structure Config (σ P H : Type) where
  /-- The shared memory. -/
  mem : σ
  /-- The processes. -/
  thread : P → Thread σ H

/-- The outlines of all processes at an instant. -/
def Config.outline (c : Config σ P H) : P → Outline H :=
  fun p => (c.thread p).outline

/-- **A family of processes**: where it starts, and which operations an idle
process may call. A call says what the process holds during the operation
and the program of the operation. -/
structure System (σ P H Op : Type) where
  /-- The memory at the start. -/
  init : σ
  /-- What each process holds at the start. -/
  start : P → H
  /-- The program of an operation, or `none` where the process may not call
  it. -/
  call : P → Op → σ → H → Option (H × Prog σ H)

/-- What happens next: a call, or one access of a process. The number of an
`advance` answers a `Prog.pick` and is ignored elsewhere. -/
inductive Move (P Op : Type) where
  | invoke (p : P) (o : Op) : Move P Op
  | advance (p : P) (n : ℕ) : Move P Op

namespace System

variable [DecidableEq P] (S : System σ P H Op)

/-- The start of the family: every process is idle. -/
def initial : Config σ P H := ⟨S.init, fun p => .idle (S.start p)⟩

/-- **One move of the family.** -/
def step (c : Config σ P H) : Move P Op → Option (Config σ P H)
  | .invoke p o =>
    match c.thread p with
    | .idle h =>
      (S.call p o c.mem h).map
        (fun r => ⟨c.mem, Function.update c.thread p (.running r.1 r.2)⟩)
    | .running _ _ => none
  | .advance p n =>
    match c.thread p with
    | .running _ (.ret h) => some ⟨c.mem, Function.update c.thread p (.idle h)⟩
    | .running h (.act upd k) =>
      some ⟨upd c.mem, Function.update c.thread p (.running h (k c.mem))⟩
    | .running h (.pick k) =>
      some ⟨c.mem, Function.update c.thread p (.running h (k n))⟩
    | _ => none

/-- **The configurations the family can reach through configurations
satisfying `G`.** -/
inductive ReachableIn (G : Config σ P H → Prop) : Config σ P H → Prop where
  | init : G S.initial → ReachableIn G S.initial
  | step {c c' : Config σ P H} (m : Move P Op) :
      ReachableIn G c → S.step c m = some c' → G c' → ReachableIn G c'

/-- The configurations the family can reach. -/
abbrev Reachable : Config σ P H → Prop := S.ReachableIn (fun _ => True)

/-- **The same family, where every call satisfies `G`.** -/
def restrict (G : P → Op → σ → H → Prop) [∀ p o s h, Decidable (G p o s h)] : System σ P H Op :=
  { S with call := fun p o s h => if G p o s h then S.call p o s h else none }

variable {S}

/-- The last configuration of a run satisfies what all of them do. -/
theorem ReachableIn.holds {G : Config σ P H → Prop} {c : Config σ P H}
    (h : S.ReachableIn G c) : G c := by
  cases h with
  | init hG => exact hG
  | step _ _ _ hG => exact hG

/-- Several moves in a row, through configurations satisfying `G`. -/
def runIn (S : System σ P H Op) (G : Config σ P H → Prop) [DecidablePred G]
    (c : Config σ P H) : List (Move P Op) → Option (Config σ P H)
  | [] => some c
  | m :: ms => (S.step c m).bind (fun c' => if G c' then S.runIn G c' ms else none)

/-- Where a list of moves leads is reachable. -/
theorem ReachableIn.run {G : Config σ P H → Prop} [DecidablePred G] {c c' : Config σ P H}
    (h : S.ReachableIn G c) (ms : List (Move P Op)) (hr : S.runIn G c ms = some c') :
    S.ReachableIn G c' := by
  induction ms generalizing c with
  | nil => exact some.inj hr ▸ h
  | cons m ms ih =>
    obtain ⟨c1, h1, h2⟩ := bind_eq_some_iff.mp hr
    obtain ⟨hG, h2⟩ := ite_none_right_eq_some.mp h2
    exact ih (.step m h h1 hG) h2

/-- A program that runs to its end without interruption. -/
theorem Reachable.advance {s s' : σ} {thr : P → Thread σ H} {p : P} {h h' : H} {x : Prog σ H}
    (hr : S.Reachable ⟨s, update thr p (.running h x)⟩) (hx : x.Runs s h' s') :
    S.Reachable ⟨s', update thr p (.idle h')⟩ := by
  induction hx with
  | ret a s =>
    refine .step (.advance p 0) hr ?_ trivial
    simp only [System.step, update_self, update_idem]
  | act _ ih =>
    refine ih (.step (.advance p 0) hr ?_ trivial)
    simp only [System.step, update_self, update_idem]
  | pick n _ ih =>
    refine ih (.step (.advance p n) hr ?_ trivial)
    simp only [System.step, update_self, update_idem]

/-- **An operation without interruption**: what a program does when run alone
is one of the interleavings. -/
theorem Reachable.solo {c : Config σ P H} {p : P} {o : Op} {h h' h'' : H} {x : Prog σ H} {s' : σ}
    (hr : S.Reachable c) (ht : c.thread p = .idle h) (hc : S.call p o c.mem h = some (h', x))
    (hx : x.Runs c.mem h'' s') : S.Reachable ⟨s', update c.thread p (.idle h'')⟩ := by
  have hi : S.Reachable ⟨c.mem, update c.thread p (.running h' x)⟩ := by
    refine .step (.invoke p o) hr ?_ trivial
    simp only [System.step, ht, hc, map_some]
  exact hi.advance hx

end System

/-! ## Invariants with phases -/

/-- **An invariant of a family of processes**, over the memory, the outlines
and the phases. `Ok` restricts the outlines of the runs considered. -/
structure Protocol (σ P H Φ : Type) where
  /-- The invariant. -/
  Inv : σ → (P → Outline H) → (P → Φ) → Prop
  /-- What the outlines are assumed to satisfy. -/
  Ok : (P → Outline H) → Prop
  /-- What a failed assertion means: `False` if none may fail. -/
  Fail : Prop := False

namespace Protocol

variable [DecidableEq P] (π : Protocol σ P H Φ) (p : P) (v : Outline H)

/-- **The process `p` may go from the phase `φ` to `φ'` without touching the
memory.** -/
def Shift (φ φ' : Φ) : Prop :=
  ∀ s o φs, π.Inv s o φs → π.Ok o → o p = v → φs p = φ →
    π.Inv s o (Function.update φs p φ')

/-- **The process `p` may run `x` from the phase `φ`**: every access keeps
the invariant, no assertion fails (unless that is allowed), and `Q` holds of
the result and of the phase at the end. -/
def Safe : Prog σ α → Φ → (α → Φ → Prop) → Prop
  | .ret a, φ, Q => ∃ φ', π.Shift p v φ φ' ∧ Q a φ'
  | .act upd k, φ, Q =>
    ∀ s o φs, π.Inv s o φs → π.Ok o → o p = v → φs p = φ →
      ∃ φ', π.Inv (upd s) o (Function.update φs p φ') ∧ Safe (k s) φ' Q
  | .pick k, φ, Q => ∀ n, Safe (k n) φ Q
  | .stall, _, _ => True
  | .abort, _, _ => π.Fail

/-- Inside an operation. -/
abbrev SafeIn (h : H) (x : Prog σ α) (φ : Φ) (Q : α → Φ → Prop) : Prop := π.Safe p ⟨h, true⟩ x φ Q

variable {π p v}

theorem Shift.refl (φ : Φ) : π.Shift p v φ φ := by
  intro s o φs h _ _ hφ
  rw [← hφ, update_eq_self]
  exact h

theorem Shift.trans {φ1 φ2 φ3 : Φ} (h1 : π.Shift p v φ1 φ2)
    (h2 : π.Shift p v φ2 φ3) : π.Shift p v φ1 φ3 := by
  intro s o φs h hok ho hφ
  have := h2 s o _ (h1 s o φs h hok ho hφ) hok ho (update_self p φ2 φs)
  rwa [update_idem] at this

namespace Safe

/-- A finished program needs nothing more. -/
theorem ret {a : α} {φ : Φ} {Q : α → Φ → Prop} (h : Q a φ) : π.Safe p v (Prog.ret a) φ Q :=
  ⟨φ, Shift.refl φ, h⟩

/-- A program may be run from another phase, where that phase is reached
without touching the memory. -/
theorem shift {x : Prog σ α} {φ φ' : Φ} {Q : α → Φ → Prop}
    (hs : π.Shift p v φ φ') (h : π.Safe p v x φ' Q) : π.Safe p v x φ Q := by
  induction x generalizing φ φ' with
  | ret a =>
    obtain ⟨φ'', hs', hq⟩ := h
    exact ⟨φ'', hs.trans hs', hq⟩
  | act upd k ih =>
    intro s o φs hi hok ho hφ
    have h' := h s o _ (hs s o φs hi hok ho hφ) hok ho (update_self p φ' φs)
    simpa only [update_idem] using h'
  | pick k ih => exact fun n => ih n hs (h n)
  | stall => trivial
  | abort => exact h

/-- **Programs compose**: what the first one establishes is what the second
one starts from. -/
theorem bind {x : Prog σ α} {f : α → Prog σ β} {φ : Φ} {Q : α → Φ → Prop} {R : β → Φ → Prop}
    (h : π.Safe p v x φ Q) (hQ : ∀ a φ', Q a φ' → π.Safe p v (f a) φ' R) :
    π.Safe p v (x >>= f) φ R := by
  induction x generalizing φ with
  | ret a =>
    obtain ⟨φ', hs, hq⟩ := h
    exact shift hs (hQ a φ' hq)
  | act upd k ih =>
    intro s o φs hi hok ho hφ
    obtain ⟨φ', hi', hk⟩ := h s o φs hi hok ho hφ
    exact ⟨φ', hi', ih s hk⟩
  | pick k ih => exact fun n => ih n (h n)
  | stall => trivial
  | abort => exact h

/-- The postcondition may be weakened. -/
theorem mono {x : Prog σ α} {φ : Φ} {Q R : α → Φ → Prop}
    (h : π.Safe p v x φ Q) (hQR : ∀ a φ', Q a φ' → R a φ') : π.Safe p v x φ R :=
  x.bind_ret ▸ h.bind fun a φ' hq => ret (hQR a φ' hq)

end Safe

/-- **What the process `p`, inside an operation, must have at the end of it**:
it may become idle, holding `h`, and its phase becomes `φ₀`. -/
def Return (π : Protocol σ P H Φ) (p : P) (v : Outline H) (φ₀ : Φ) (h : H) (φ : Φ) : Prop :=
  ∀ s o φs, π.Inv s o φs → π.Ok o → o p = v → φs p = φ →
    π.Inv s (Function.update o p ⟨h, false⟩) (Function.update φs p φ₀)

/-- What a process owes at an instant: nothing when idle, and otherwise that
the rest of its program is safe. -/
def ThreadOk (π : Protocol σ P H Φ) (φ₀ : Φ) (p : P) : Thread σ H → Φ → Prop
  | .idle _, φ => φ = φ₀
  | .running h x, φ => π.Safe p ⟨h, true⟩ x φ (π.Return p ⟨h, true⟩ φ₀)

end Protocol

open Protocol in
/-- **The invariant holds in every reachable configuration.** It is enough
that it holds at the start and that every operation, called by any process
that may call it, is safe. -/
theorem System.ReachableIn.invariant [DecidableEq P] {S : System σ P H Op}
    {π : Protocol σ P H Φ} {φ₀ : Φ}
    (hinit : π.Inv S.init (fun p => ⟨S.start p, false⟩) (fun _ => φ₀))
    (hcall : ∀ p op s h h' x, S.call p op s h = some (h', x) →
      ∀ o φs, π.Inv s o φs → π.Ok o → o p = ⟨h, false⟩ → φs p = φ₀ →
        ∃ φ, π.Inv s (update o p ⟨h', true⟩) (update φs p φ)
          ∧ π.Safe p ⟨h', true⟩ x φ (π.Return p ⟨h', true⟩ φ₀))
    {c : Config σ P H} (hc : S.ReachableIn (fun c => π.Ok c.outline) c) :
    ∃ φs, π.Inv c.mem c.outline φs ∧ ∀ p, π.ThreadOk φ₀ p (c.thread p) (φs p) := by
  induction hc with
  | init _ => exact ⟨fun _ => φ₀, hinit, fun _ => rfl⟩
  | @step c c' m hr hs hG ih =>
    obtain ⟨φs, hi, ht⟩ := ih
    have hok : π.Ok c.outline := hr.holds
    -- a move changes the thread of one process; what the others owe is kept
    have upd : ∀ (q : P) (t : Thread σ H) (φ : Φ), π.ThreadOk φ₀ q t φ →
        ∀ r, π.ThreadOk φ₀ r (update c.thread q t r) (update φs q φ r) := by
      intro q t φ hq r
      by_cases hrq : r = q
      · subst hrq
        simpa only [update_self] using hq
      · simpa only [update_of_ne hrq] using ht r
    have out : ∀ (q : P) (t : Thread σ H) (s : σ), (⟨s, update c.thread q t⟩ : Config σ P H).outline
          = update c.outline q t.outline := by
      intro q t s
      funext r
      by_cases hrq : r = q
      · subst hrq
        simp only [Config.outline, update_self]
      · simp only [Config.outline, update_of_ne hrq]
    cases m with
    | invoke q op =>
      simp only [System.step] at hs
      split at hs
      · rename_i h hq
        obtain ⟨⟨h', x⟩, hcl, rfl⟩ := map_eq_some_iff.mp hs
        have hφ : φs q = φ₀ := by simpa only [hq, ThreadOk] using ht q
        obtain ⟨φ, hi', hx⟩ := hcall q op c.mem h h' x hcl c.outline φs hi hok
          (congrArg Thread.outline hq) hφ
        refine ⟨update φs q φ, ?_, upd q _ φ hx⟩
        rw [out]
        exact hi'
      · exact nomatch hs
    | advance q n =>
      simp only [System.step] at hs
      have htq := ht q
      split at hs
      · -- the operation returns
        rename_i h0 h hq
        cases hs
        rw [hq] at htq
        obtain ⟨φ', hsh, hret⟩ := htq
        have ho : c.outline q = ⟨h0, true⟩ := congrArg Thread.outline hq
        have h1 := hret c.mem c.outline _ (hsh c.mem c.outline φs hi hok ho rfl) hok ho
          (update_self q φ' φs)
        rw [update_idem] at h1
        refine ⟨update φs q φ₀, ?_, upd q _ φ₀ rfl⟩
        rw [out]
        exact h1
      · -- one access
        rename_i h u k hq
        cases hs
        rw [hq] at htq
        have ho : c.outline q = ⟨h, true⟩ := congrArg Thread.outline hq
        obtain ⟨φ', hi', hk⟩ := htq c.mem c.outline φs hi hok ho rfl
        refine ⟨update φs q φ', ?_, upd q _ φ' hk⟩
        rw [out, show (Thread.running h (k c.mem)).outline = c.outline q from ho.symm,
          update_eq_self]
        exact hi'
      · -- a choice
        rename_i h k hq
        cases hs
        rw [hq] at htq
        have ho : c.outline q = ⟨h, true⟩ := congrArg Thread.outline hq
        refine ⟨φs, ?_, ?_⟩
        · rw [out, show (Thread.running h (k n)).outline = c.outline q from ho.symm, update_eq_self]
          exact hi
        · have := upd q (.running h (k n)) (φs q) (htq n)
          rwa [update_eq_self] at this
      · exact nomatch hs

/-- **No process has failed an assertion**, where none may. -/
theorem Protocol.ThreadOk.not_aborted [DecidableEq P] {π : Protocol σ P H Φ} {φ₀ : Φ} {p : P}
    {t : Thread σ H} {φ : Φ} (h : π.ThreadOk φ₀ p t φ) (hfail : ¬ π.Fail) : t.aborted = false := by
  cases t with
  | idle h => rfl
  | running h x =>
    cases x with
    | abort => exact absurd h hfail
    | _ => rfl

end Shm
