import Revalle.ControlPlane.UserQuota

/-!
# Usage under concurrent calls

`recordUsage` and `updateUser` read the record of a user with one command of Redis
and write it back with another. What other calls have written in between is
overwritten. Nothing is lost if each call finds the usage, when it writes, that it
has read (`usage_counted`).
-/

namespace ControlPlane.UserManager

open Function

/-- A call that reads the record of the user and writes it back. -/
inductive Rewriting where
  | recordUsage (metrics : Metrics)
  | updateUser (updates : Updates) (h : updates.usage = none)

/-- The record that a call writes, from the one it has read. -/
def Rewriting.apply (bcrypt : Bcrypt) : Rewriting → User → User
  | .recordUsage metrics, user => { user with usage := user.usage.add metrics }
  | .updateUser updates _, user => user.assign bcrypt updates

/-- The requests and the bandwidth. -/
def Usage.counts (usage : Usage) : ℤ × ℤ := (usage.requests, usage.bandwidth)

def Rewriting.amount : Rewriting → ℤ × ℤ
  | .recordUsage metrics => (metrics.requests.getD 0, metrics.bandwidth.getD 0)
  | .updateUser _ _ => 0

theorem Rewriting.counts_apply (bcrypt : Bcrypt) (call : Rewriting) (user : User) :
    (call.apply bcrypt user).usage.counts = user.usage.counts + call.amount := by
  cases call with
  | recordUsage metrics => rfl
  | updateUser updates h => simp [apply, User.assign, h, amount]

/-- The calls under way: what is in Redis, the record that each call has read, and
the calls that have returned. -/
structure Concurrent (ι : Type) where
  store : Store
  copies : ι → Option User
  finished : Finset ι

namespace Concurrent

variable {ι : Type} [DecidableEq ι] (bcrypt : Bcrypt) (calls : ι → Rewriting) (userId : String)
  {s : Concurrent ι} {i : ι}

/-- Nothing has begun. -/
def new (store : Store) : Concurrent ι := ⟨store, fun _ => none, ∅⟩

/-- **The next command of call `i`**, with what the call does before the one after. -/
def step (s : Concurrent ι) (i : ι) : Concurrent ι :=
  if i ∈ s.finished then s
  else match s.copies i with
    | some user =>
      { s with
        store := s.store.set (userKey userId) (.record ((calls i).apply bcrypt user))
        finished := insert i s.finished }
    | none =>
      match getUser userId s.store with
      | .ok (some user) => { s with copies := update s.copies i (some user) }
      | _ => { s with finished := insert i s.finished }

def run (s : Concurrent ι) (schedule : List ι) : Concurrent ι :=
  schedule.foldl (step bcrypt calls userId) s

/-- If call `i` writes, it finds the usage that it has read. -/
def Fresh (s : Concurrent ι) (i : ι) : Prop :=
  i ∉ s.finished → ∀ user ∈ s.copies i,
    (getUser userId s.store).map (Option.map (·.usage.counts)) = .ok (some user.usage.counts)

/-- **No usage changes between a read and the write of the same call.** -/
def Undisturbed (s : Concurrent ι) : List ι → Prop
  | [] => True
  | i :: schedule => Fresh userId s i ∧ Undisturbed (step bcrypt calls userId s i) schedule

/-- The record counts the calls that have returned. -/
def Counted (start : ℤ × ℤ) (s : Concurrent ι) : Prop :=
  ∃ user, getUser userId s.store = .ok (some user) ∧
    user.usage.counts = start + ∑ i ∈ s.finished, (calls i).amount

variable {bcrypt calls userId} {start : ℤ × ℤ}

theorem Counted.step (h : Counted calls userId start s) (hfresh : Fresh userId s i) :
    Counted calls userId start (step bcrypt calls userId s i) := by
  obtain ⟨user, hget, hcounts⟩ := h
  unfold Concurrent.step
  split
  · exact ⟨user, hget, hcounts⟩
  · next hi =>
    split
    · next copy hcopy =>
      have hread : user.usage.counts = copy.usage.counts := by
        have hfresh' := hfresh hi copy hcopy
        rw [hget] at hfresh'
        simpa [Except.map] using hfresh'
      refine ⟨(calls i).apply bcrypt copy, by simp [getUser, Store.set_apply], ?_⟩
      rw [Rewriting.counts_apply, ← hread, hcounts, Finset.sum_insert hi, add_assoc,
        add_comm (calls i).amount]
    · rw [hget]
      exact ⟨user, hget, hcounts⟩

theorem Counted.run {schedule : List ι} (h : Counted calls userId start s)
    (hquiet : Undisturbed bcrypt calls userId s schedule) :
    Counted calls userId start (run bcrypt calls userId s schedule) := by
  induction schedule generalizing s with
  | nil => exact h
  | cons i schedule ih => exact ih (h.step hquiet.1) hquiet.2

/-- **No usage is lost** by calls that are not disturbed. -/
theorem usage_counted [Fintype ι] {store : Store} {user : User}
    (hget : getUser userId store = .ok (some user)) {schedule : List ι}
    (hquiet : Undisturbed bcrypt calls userId (new store) schedule)
    (hfinished : ∀ i, i ∈ (run bcrypt calls userId (new store) schedule).finished) :
    ∃ user', getUser userId (run bcrypt calls userId (new store) schedule).store =
        .ok (some user') ∧ user'.usage.counts = user.usage.counts + ∑ i, (calls i).amount := by
  have hstart : Counted calls userId user.usage.counts (new (ι := ι) store) :=
    ⟨user, hget, by simp [new]⟩
  obtain ⟨user', hget', hcounts⟩ := hstart.run hquiet
  rw [Finset.eq_univ_of_forall hfinished] at hcounts
  exact ⟨user', hget', hcounts⟩

/-- Two calls that record a request each. -/
def two : Bool → Rewriting := fun _ => .recordUsage ⟨some 1, none⟩

theorem usage_counted_two :
    ∃ user', getUser "1" (run Bcrypt.plain two "1" (new bobOnly) [true, true, false, false]).store =
      .ok (some user') ∧ user'.usage.counts = bob.usage.counts + ∑ i, (two i).amount := by
  refine usage_counted (by decide) ?_ (by decide)
  simp only [Undisturbed, Fresh]
  decide

/-- **A request is lost** when both calls read before either writes. -/
theorem request_lost :
    (∀ i, i ∈ (run Bcrypt.plain two "1" (new bobOnly) [true, false, true, false]).finished) ∧
      getUser "1" (run Bcrypt.plain two "1" (new bobOnly) [true, false, true, false]).store =
        .ok (some { bob with usage := ⟨1, 0, msPerDay⟩ }) := by
  decide

end Concurrent

end ControlPlane.UserManager
