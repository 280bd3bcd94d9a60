import Revalle.ControlPlane.UserManager

/-!
# Quotas over the periods

A user has a quota for each period, and `usage.resetAt` is the end of the
present one. `recordUsage` adds to the usage in the stored record.
`isQuotaExceeded` starts a new period when the old one is past – but in the
decoded copy that `authenticate` gave it, which nobody stores. So the stored
usage and the stored end of the period are never reset: until the first reset
point the quota is enforced, and from then on every check finds the period past
and the usage zero.
-/

namespace ControlPlane.UserManager

/-- The calls of a history, each with its time. -/
inductive UsageCall where
  | recordUsage (userId : String) (metrics : Metrics) (now : ℤ)
  | authenticate (username password : String) (now : ℤ)
  | updateUser (userId : String) (updates : Updates) (now : ℤ)

/-- A call that fails leaves the store as it was, and so does `authenticate`. -/
def UsageCall.run (bcrypt : Bcrypt) (s : Store) : UsageCall → Store
  | .recordUsage userId metrics _ => (UserManager.recordUsage userId metrics s).toOption.getD s
  | .authenticate _ _ _ => s
  | .updateUser userId updates _ => (UserManager.updateUser bcrypt userId updates s).toOption.getD s

/-- The call does not touch a quota or a usage. -/
def UsageCall.Keeps : UsageCall → Prop
  | .updateUser _ updates _ => updates.quota = none ∧ updates.usage = none
  | _ => True

/-! ## The meaning of a quota -/

/-- The `k`-th reset point of a record: its `resetAt`, and from there on the
reset dates that follow one another. -/
def User.resetPoint (u : User) : ℕ → ℤ
  | 0 => u.usage.resetAt
  | k + 1 => getNextResetDate u.quota.period (u.resetPoint k)

/-- `start` is where the period of time `t` starts: with the record itself
(`none`) before the first reset point, else at the latest reset point not after
`t`. -/
inductive User.PeriodStart (u : User) (t : ℤ) : Option ℤ → Prop
  | record : t < u.resetPoint 0 → u.PeriodStart t none
  | resetPoint (k : ℕ) : u.resetPoint 0 ≤ t → u.resetPoint k ≤ t → t < u.resetPoint (k + 1) →
    u.PeriodStart t (some (u.resetPoint k))

/-- What a call records for user `id` in the period that starts at `start`. -/
def UsageCall.recorded (id : String) (start : Option ℤ) : UsageCall → Usage → Usage
  | .recordUsage userId metrics now, usage =>
    if userId = id ∧ ∀ a ∈ start, a ≤ now then usage.add metrics else usage
  | .authenticate _ _ _, usage => usage
  | .updateUser _ _ _, usage => usage

/-- The usage recorded in the period that starts at `start`: the first period
begins with what the record has. -/
def recordedSince (u : User) (id : String) (start : Option ℤ) (calls : List UsageCall) : Usage :=
  calls.foldl (fun usage call => call.recorded id start usage)
    (if start.isNone then u.usage else ⟨0, 0, u.usage.resetAt⟩)

/-- The requests or the bandwidth reach the quota. -/
def Quota.Reached (q : Quota) (usage : Usage) : Prop :=
  (∃ n, q.requests = some n ∧ n ≤ usage.requests) ∨
    ∃ n, q.bandwidth = some n ∧ n ≤ usage.bandwidth

/-- A quota that is reached without any usage. -/
def Quota.Void (q : Quota) : Prop :=
  (∃ n, q.requests = some n ∧ n ≤ 0) ∨ ∃ n, q.bandwidth = some n ∧ n ≤ 0

/-! ## What is stored -/

/-- The record under `user:id` is a record of `u` with the usage `usage`. -/
def Holds (s : Store) (id : String) (u : User) (usage : Usage) : Prop :=
  ∃ v, s (userKey id) = some (.record v) ∧ v.quota = u.quota ∧ v.usage = usage

variable {s : Store} {u v : User} {usage : Usage} {id : String}

section

variable (h : Holds s id u usage)
include h

theorem Holds.set_of_ne {key : String} (hkey : userKey id ≠ key) (value : Value) :
    Holds (s.set key value) id u usage := by
  obtain ⟨v, hv, hquota, husage⟩ := h
  exact ⟨v, (Function.update_of_ne hkey _ _).trans hv, hquota, husage⟩

/-- Recording usage adds to what is stored, at whatever time. -/
theorem Holds.recordUsage (userId : String) (metrics : Metrics) :
    Holds ((recordUsage userId metrics s).toOption.getD s) id u
      (if userId = id then usage.add metrics else usage) := by
  by_cases hid : userId = id
  · subst hid
    obtain ⟨v, hv, hquota, rfl⟩ := h
    simp only [UserManager.recordUsage, getUser, hv, if_true]
    exact ⟨_, Function.update_self _ _ _, hquota, rfl⟩
  · rw [if_neg hid]
    have hkey : userKey id ≠ userKey userId := fun h => hid (userKey_inj.mp h).symm
    unfold UserManager.recordUsage
    split
    · exact h
    · exact h
    · exact h.set_of_ne hkey _

/-- An update that does not touch the quota or the usage keeps both. -/
theorem Holds.updateUser (bcrypt : Bcrypt) (userId : String) {updates : Updates}
    (hupdates : updates.quota = none ∧ updates.usage = none) :
    Holds ((updateUser bcrypt userId updates s).toOption.getD s) id u usage := by
  by_cases hid : userId = id
  · subst hid
    obtain ⟨v, hv, hquota, husage⟩ := h
    simp only [UserManager.updateUser, getUser, hv]
    refine ⟨_, Function.update_self _ _ _, ?_, ?_⟩
    · simp [User.assign, hupdates.1, hquota]
    · simp [User.assign, hupdates.2, husage]
  · have hkey : userKey id ≠ userKey userId := fun h => hid (userKey_inj.mp h).symm
    unfold UserManager.updateUser
    split
    · exact h
    · exact h
    · exact h.set_of_ne hkey _

/-- One call: the store follows the usage recorded since the beginning. -/
theorem Holds.step (bcrypt : Bcrypt) {call : UsageCall} (hcall : call.Keeps) :
    Holds (call.run bcrypt s) id u (call.recorded id none usage) := by
  cases call with
  | recordUsage userId metrics now => 
    simpa [UsageCall.run, UsageCall.recorded] using h.recordUsage userId metrics
  | authenticate username password now => exact h
  | updateUser userId updates now => exact h.updateUser bcrypt userId hcall

end

/-- **The stored usage is all that was ever recorded.** -/
theorem Holds.run (bcrypt : Bcrypt) {calls : List UsageCall} (hcalls : ∀ call ∈ calls, call.Keeps)
    (h : Holds s id u usage) : Holds (calls.foldl (UsageCall.run bcrypt) s) id u
      (calls.foldl (fun usage call => call.recorded id none usage) usage) := by
  induction calls generalizing s usage with
  | nil => exact h
  | cons call calls ih =>
    exact ih (fun c hc => hcalls c (List.mem_cons_of_mem _ hc))
      (h.step bcrypt (hcalls call List.mem_cons_self))

/-- Recording never moves the end of the period. -/
theorem resetAt_foldl_recorded (id : String) (start : Option ℤ) (calls : List UsageCall)
    (usage : Usage) : (calls.foldl (fun usage call => call.recorded id start usage) usage).resetAt =
      usage.resetAt := by
  induction calls generalizing usage with
  | nil => rfl
  | cons call calls ih =>
    rw [List.foldl_cons, ih]
    cases call <;> simp only [UsageCall.recorded]
    split <;> rfl

/-! ## What is checked -/

theorem isQuotaExceeded_of_le {t : ℤ} (ht : t ≤ v.usage.resetAt) :
    (isQuotaExceeded v t).1 = true ↔ v.quota.Reached v.usage := by
  have hnot : ¬t > v.usage.resetAt := not_lt.mpr ht
  simp [isQuotaExceeded, hnot, Quota.Reached, Option.any_eq_true]

/-- The username leads to the record `id`, the password fits and the account is
active: nothing but the quota stands between the user and a token. -/
structure Correct (bcrypt : Bcrypt) (s : Store) (id username password : String) : Prop where
  indexed : s (usernameKey username) = some (.text id)
  id_ne : id ≠ ""
  compare : ∀ v, s (userKey id) = some (.record v) → bcrypt.compare password v.password = true
  active : ∀ v, s (userKey id) = some (.record v) → v.status = "active"

theorem authenticate_eq_quotaExceeded {bcrypt : Bcrypt} {username password : String}
    (h : Correct bcrypt s id username password) (hv : s (userKey id) = some (.record v)) (t : ℤ) :
    authenticate bcrypt username password t s = .error .quotaExceeded ↔
      (isQuotaExceeded v t).1 = true := by
  have hget : getUserByUsername username s = .ok (some v) := by
    simp [getUserByUsername, h.indexed, h.id_ne, getUser, hv]
  simp only [authenticate, hget, h.compare v hv, h.active v hv]
  by_cases hex : (isQuotaExceeded v t).1 = true <;> simp [hex]

/-- **The quota is enforced until the first reset point, and never after it.**
Take any record of a user and any history that does not touch its quota or
usage, and let the user then authenticate with correct credentials at time `t`.
Before the first reset point the call fails with 'Quota exceeded' exactly when
what was recorded in the current period reaches the quota. After it the call
fails so exactly when the quota is not positive, whatever was recorded. -/
theorem authenticate_quota (bcrypt : Bcrypt) (s : Store) (id : String) (u : User)
    (hu : s (userKey id) = some (.record u)) (calls : List UsageCall)
    (hcalls : ∀ call ∈ calls, call.Keeps) (username password : String)
    (hcorrect : Correct bcrypt (calls.foldl (UsageCall.run bcrypt) s) id username password)
    (t : ℤ) :
    (t < u.usage.resetAt → ∀ start, u.PeriodStart t start →
      (authenticate bcrypt username password t (calls.foldl (UsageCall.run bcrypt) s) =
          .error .quotaExceeded ↔
        u.quota.Reached (recordedSince u id start calls))) ∧
    (u.usage.resetAt < t →
      (authenticate bcrypt username password t (calls.foldl (UsageCall.run bcrypt) s) =
          .error .quotaExceeded ↔ u.quota.Void)) := by
  obtain ⟨v, hv, hquota, husage⟩ := Holds.run bcrypt hcalls ⟨u, hu, rfl, rfl⟩
  have hreset : v.usage.resetAt = u.usage.resetAt := by
    rw [husage, resetAt_foldl_recorded]
  rw [authenticate_eq_quotaExceeded hcorrect hv, ← hquota]
  refine ⟨fun ht start hstart => ?_, fun ht => ?_⟩
  · cases hstart with
    | record _ =>
      rw [isQuotaExceeded_of_le (hreset ▸ ht.le), husage]
      rfl
    | resetPoint k hfirst _ _ => exact absurd ht (not_lt.mpr hfirst)
  · -- past the end of the period, the usage is not looked at
    simp [isQuotaExceeded, hreset, ht, Quota.Void, Option.any_eq_true]

/-- A user with a quota of a hundred requests a day, of which the first ends at
the time `msPerDay`. -/
def bob : User :=
  { id := "1", username := some "bob", email := none, password := "secret", role := "user"
    quota := ⟨some 100, none, some "daily"⟩, usage := ⟨0, 0, msPerDay⟩, status := "active" }

/-- A store with this user only. -/
def bobOnly : Store :=
  (Store.empty.set (userKey "1") (.record bob)).set (usernameKey "bob") (.text "1")

/-- A hundred requests at time `now`. -/
def hundredAt (now : ℤ) : List UsageCall := [.recordUsage "1" ⟨some 100, none⟩ now]

theorem correct_bob :
    Correct Bcrypt.plain ((hundredAt 1).foldl (UsageCall.run Bcrypt.plain) bobOnly)
      "1" "bob" "secret" := by
  have hbob : ((hundredAt 1).foldl (UsageCall.run Bcrypt.plain) bobOnly) (userKey "1") =
      some (.record { bob with usage := ⟨100, 0, msPerDay⟩ }) := by decide
  refine ⟨by decide, by decide, fun v hv => ?_, fun v hv => ?_⟩
  · obtain rfl := Value.record.inj (Option.some.inj (hbob.symm.trans hv))
    decide
  · obtain rfl := Value.record.inj (Option.some.inj (hbob.symm.trans hv))
    rfl

theorem authenticate_quota_bob :
    bobOnly (userKey "1") = some (.record bob) ∧ bob.PeriodStart 2 none ∧
      (authenticate Bcrypt.plain "bob" "secret" 2
          ((hundredAt 1).foldl (UsageCall.run Bcrypt.plain) bobOnly) =
          .error .quotaExceeded ↔
        bob.quota.Reached (recordedSince bob "1" none (hundredAt 1))) :=
  have hbob : bobOnly (userKey "1") = some (.record bob) := by decide
  have hstart : bob.PeriodStart 2 none := .record (by decide)
  ⟨hbob, hstart, (authenticate_quota Bcrypt.plain bobOnly "1" bob hbob (hundredAt 1)
    (by simp [hundredAt, UsageCall.Keeps]) "bob" "secret" correct_bob 2).1 (by decide) none hstart⟩

/-- **A hundred requests in the second day go unnoticed.** They reach the quota
of the day that they are recorded in, and the user authenticates. -/
theorem authenticate_second_day :
    bob.PeriodStart (msPerDay + 2) (some (bob.resetPoint 0)) ∧
      bob.quota.Reached
        (recordedSince bob "1" (some (bob.resetPoint 0)) (hundredAt (msPerDay + 1))) ∧
      authenticate Bcrypt.plain "bob" "secret" (msPerDay + 2)
          ((hundredAt (msPerDay + 1)).foldl (UsageCall.run Bcrypt.plain) bobOnly) ≠
        .error .quotaExceeded := by
  refine ⟨.resetPoint 0 (by decide) (by decide) (by decide), .inl ⟨100, rfl, by decide⟩, ?_⟩
  decide

end ControlPlane.UserManager
