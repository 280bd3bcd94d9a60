import Revalle.ControlPlane.SessionManager

/-!
# What a session is valid for

The calls of a history leave a log of what has happened to the sessions: they are created
and renewed, destroyed and evicted. The log says when a session that was created, and
neither destroyed nor evicted since, expires (`expiryOf`), and a session is valid iff that is
not in the past. A history is one whose calls have all returned.
-/

namespace ControlPlane.SessionManager

open List KeyedList Prod Option

/-! ## Histories -/

inductive Call
  | createSession (sessionId userId : String) (metadata : Metadata)
  | getSession (sessionId : String)
  | validateSession (sessionId : String)
  | updateSessionData (sessionId : String) (data : List (String × String))
  | destroySession (sessionId : String)
  | destroyUserSessions (userId : String)
  | cleanup

/-- What happens to a session. -/
inductive Happening
  | created (sessionId : String) (expiresAt : ℤ)
  | renewed (sessionId : String) (expiresAt : ℤ)
  | destroyed (sessionId : String)
  | evicted (sessionId : String)
  deriving DecidableEq, Repr

/-- The store after a call that returns, and what has happened. -/
def Call.run (options : Options) (now : ℤ) (depth : ℕ) (store : Store) :
    Call → Option (Store × List Happening)
  | .createSession sessionId userId metadata =>
    (SessionManager.createSession options now sessionId userId metadata depth store).map
      (fun r => (r.2, (toDestroy options userId store).map (fun s => .evicted s.id) ++
        [.created sessionId r.1.expiresAt]))
  | .getSession sessionId =>
    (SessionManager.getSession now sessionId depth store).map (fun r => (r.2, []))
  | .validateSession sessionId =>
    (SessionManager.validateSession options now sessionId depth store).map
      (fun r => (r.2, match r.1 with
        | .valid session => [.renewed sessionId session.expiresAt]
        | .invalid _ => []))
  | .updateSessionData sessionId data =>
    (SessionManager.updateSessionData now sessionId data depth store).map (fun r => (r.2, []))
  | .destroySession sessionId =>
    (SessionManager.destroySession now sessionId depth store).map
      (fun r => (r.2, [.destroyed sessionId]))
  | .destroyUserSessions userId =>
    (SessionManager.destroyUserSessions now userId depth store).map
      (fun r => (r.2, (getUserSessions userId store).map (fun s => .destroyed s.id)))
  | .cleanup => some ((SessionManager.cleanup now store).2, [])

/-- The calls one after the other, each at its time. -/
def runCalls (options : Options) (depth : ℕ) :
    List (ℤ × Call) → Store × List Happening → Option (Store × List Happening)
  | [], r => some r
  | (now, call) :: calls, r =>
    match call.run options now depth r.1 with
    | none => none
    | some (store, log) => runCalls options depth calls (store, r.2 ++ log)

/-- What a happening makes of the expiry of a session. -/
def Happening.expiry (sessionId : String) (o : Option ℤ) : Happening → Option ℤ
  | .created id expiresAt => if sessionId = id then some expiresAt else o
  | .renewed id expiresAt => if sessionId = id then some expiresAt else o
  | .destroyed id => if sessionId = id then none else o
  | .evicted id => if sessionId = id then none else o

/-- When a session expires that was created, and was not destroyed or evicted since. -/
def expiryOf (sessionId : String) (log : List Happening) : Option ℤ :=
  log.foldl (Happening.expiry sessionId) none

theorem expiryOf_append (sessionId : String) (log log' : List Happening) :
    expiryOf sessionId (log ++ log') =
      log'.foldl (Happening.expiry sessionId) (expiryOf sessionId log) :=
  foldl_append

/-! ## The store and the log agree -/

/-- **The invariant**: what is stored expires when the log says, and what is not stored though
it was not destroyed has expired. -/
structure Agrees (clock : ℤ) (store : Store) (log : List Happening) : Prop where
  stored : ∀ s ∈ store.toList, expiryOf s.id log = some s.expiresAt ∧ s.active = true
  missing : ∀ id e, expiryOf id log = some e → store.get id = none → e < clock

section Steps

variable {options : Options} {clock now : ℤ} {store : Store} {log : List Happening}

theorem agrees_empty (clock : ℤ) : Agrees clock empty [] where
  stored := nofun
  missing _ _ h := by simp [expiryOf] at h

variable (h : Agrees clock store log)
include h

theorem Agrees.later (hnow : clock ≤ now) : Agrees now store log :=
  ⟨h.stored, fun id e he hget => lt_of_lt_of_le (h.missing id e he hget) hnow⟩

/-- A session is removed, and the log says so. -/
theorem Agrees.erase {id : String} {x : Happening}
    (hx : ∀ id' o, x.expiry id' o = if id' = id then none else o) :
    Agrees clock (store.erase id) (log ++ [x]) := by
  have hexpiry : ∀ id', expiryOf id' (log ++ [x]) =
      if id' = id then none else expiryOf id' log := by
    intro id'
    rw [expiryOf_append]
    exact hx id' _
  constructor
  · intro s hs
    obtain ⟨hs, hid⟩ := mem_filter.mp hs
    rw [hexpiry, if_neg (of_decide_eq_true hid)]
    exact h.stored s hs
  · intro id' e he hget
    rw [hexpiry] at he
    split at he
    · exact nomatch he
    · rename_i hid
      rw [get_erase, if_neg hid] at hget
      exact h.missing id' e he hget

theorem Agrees.eraseEach (sessions : List Session) {f : String → Happening}
    (hf : ∀ id id' o, (f id).expiry id' o = if id' = id then none else o) :
    Agrees clock (eraseEach sessions store) (log ++ sessions.map (fun s => f s.id)) := by
  induction sessions generalizing store log with
  | nil =>
    rw [map_nil, append_nil]
    exact h
  | cons s sessions ih =>
    have := ih (h.erase (hf s.id))
    rwa [append_assoc] at this

/-- A session is stored, and the log says so. -/
theorem Agrees.set {s : Session} (hactive : s.active = true) {x : Happening}
    (hx : ∀ id o, x.expiry id o = if id = s.id then some s.expiresAt else o) :
    Agrees clock (store.set s) (log ++ [x]) := by
  have hexpiry : ∀ id, expiryOf id (log ++ [x]) =
      if id = s.id then some s.expiresAt else expiryOf id log := by
    intro id
    rw [expiryOf_append]
    exact hx id _
  constructor
  · intro s' hs'
    rw [hexpiry]
    rcases mem_set.mp hs' with rfl | ⟨hs', hid⟩
    · exact ⟨if_pos rfl, hactive⟩
    · rw [if_neg hid]
      exact h.stored s' hs'
  · intro id e he hget
    rw [get_set] at hget
    split at hget
    · simp at hget
    · rename_i hid
      rw [hexpiry, if_neg hid] at he
      exact h.missing id e he hget

/-- A session is stored again, with the same expiry. -/
theorem Agrees.update {s s' : Session} (hget : store.get s.id = some s) (hid : s'.id = s.id)
    (hexpires : s'.expiresAt = s.expiresAt) (hactive : s'.active = s.active) :
    Agrees clock (store.set s') log := by
  constructor
  · intro x hx
    rcases mem_set.mp hx with rfl | ⟨hx, -⟩
    · rw [hid, hexpires, hactive]
      exact h.stored s (get_eq_some_iff.mp hget).1
    · exact h.stored x hx
  · intro id e he hgetid
    rw [get_set] at hgetid
    split at hgetid
    · simp at hgetid
    · exact h.missing id e he hgetid

theorem Agrees.cleanup (hnow : clock ≤ now) : Agrees now (cleanup now store).2 log := by
  constructor
  · intro s hs
    exact h.stored s (mem_filter.mp hs).1
  · intro id e he hget
    have hget : (store.filter (fun s => decide ¬s.expiresAt < now)).get id = none := hget
    rw [KeyedList.get_filter] at hget
    cases hold : store.get id with
    | none => exact lt_of_lt_of_le (h.missing id e he hold) hnow
    | some s =>
      -- it was there until now, and had expired
      obtain ⟨hs, rfl⟩ := get_eq_some_iff.mp hold
      rw [(h.stored s hs).1] at he
      rw [hold, filter_eq_none_iff] at hget
      have := hget s rfl
      simp only [decide_not, Bool.not_eq_true', decide_eq_false_iff_not, not_not] at this
      rwa [← some.inj he]

/-- **One call.** -/
theorem Agrees.call (hnow : clock ≤ now) {call : Call} {depth : ℕ} {store' : Store}
    {log' : List Happening} (hrun : call.run options now depth store = some (store', log')) :
    Agrees now store' (log ++ log') := by
  have h := h.later hnow
  cases call with
  | createSession sessionId userId metadata =>
    obtain ⟨r, hr, heq⟩ := map_eq_some_iff.mp hrun
    obtain ⟨store1, h1, rfl⟩ := map_eq_some_iff.mp hr
    obtain rfl := destroyEach_some h1
    obtain ⟨rfl, rfl⟩ := mk.inj heq
    rw [← append_assoc]
    exact (h.eraseEach (toDestroy options userId store) (fun _ _ _ => rfl)).set rfl (fun _ _ => rfl)
  | getSession sessionId =>
    obtain ⟨r, hr, heq⟩ := map_eq_some_iff.mp hrun
    obtain ⟨-, rfl⟩ := getSession_some hr
    obtain ⟨rfl, rfl⟩ := mk.inj heq
    rw [append_nil]
    exact h
  | validateSession sessionId =>
    obtain ⟨r, hr, heq⟩ := map_eq_some_iff.mp hrun
    obtain ⟨rfl, rfl⟩ := mk.inj heq
    obtain ⟨-, rfl⟩ := validateSession_some hr
    cases hs : store.get sessionId with
    | none =>
      rw [append_nil]
      exact h
    | some s =>
      obtain ⟨hmem, rfl⟩ := get_eq_some_iff.mp hs
      have hactive := (h.stored s hmem).2
      simp only [hactive, Bool.true_eq_false, if_false]
      exact h.set (s := s.touch options now) hactive (fun _ _ => rfl)
  | updateSessionData sessionId data =>
    obtain ⟨r, hr, heq⟩ := map_eq_some_iff.mp hrun
    obtain ⟨rfl, rfl⟩ := mk.inj heq
    rw [(updateSessionData_some hr).2, append_nil]
    cases hs : store.get sessionId with
    | none => exact h
    | some s =>
      obtain ⟨-, rfl⟩ := get_eq_some_iff.mp hs
      exact h.update hs rfl rfl rfl
  | destroySession sessionId =>
    obtain ⟨r, hr, heq⟩ := map_eq_some_iff.mp hrun
    obtain ⟨-, rfl⟩ := destroySession_some hr
    obtain ⟨rfl, rfl⟩ := mk.inj heq
    exact h.erase (fun _ _ => rfl)
  | destroyUserSessions userId =>
    obtain ⟨r, hr, heq⟩ := map_eq_some_iff.mp hrun
    obtain ⟨store1, h1, rfl⟩ := map_eq_some_iff.mp hr
    obtain rfl := destroyEach_some h1
    obtain ⟨rfl, rfl⟩ := mk.inj heq
    exact h.eraseEach (getUserSessions userId store) (fun _ _ _ => rfl)
  | cleanup =>
    obtain ⟨rfl, rfl⟩ := mk.inj (some.inj hrun)
    rw [append_nil]
    exact h.cleanup le_rfl

/-- **A whole history.** -/
theorem Agrees.run {calls : List (ℤ × Call)} {depth : ℕ}
    (hord : (clock :: calls.map Prod.fst).Pairwise (· ≤ ·)) {store' : Store} {log' : List Happening}
    (hrun : runCalls options depth calls (store, log) = some (store', log'))
    (hnow : ∀ t ∈ clock :: calls.map Prod.fst, t ≤ now) : Agrees now store' log' := by
  induction calls generalizing clock store log with
  | nil =>
    obtain ⟨rfl, rfl⟩ := mk.inj (some.inj hrun)
    exact h.later (hnow clock mem_cons_self)
  | cons c calls ih =>
    obtain ⟨t, call⟩ := c
    rw [map_cons, pairwise_cons] at hord
    cases hcall : call.run options t depth store with
    | none => simp [runCalls, hcall] at hrun
    | some r =>
      simp only [runCalls, hcall] at hrun
      refine ih (h.call (hord.1 t mem_cons_self) hcall) hord.2 hrun (fun x hx => ?_)
      exact hnow x (mem_cons_of_mem _ hx)

end Steps

/-- A session is valid iff it is stored and has not expired; the call returns then. -/
theorem validateSession_valid_iff {options : Options} {now : ℤ} {store : Store}
    {log : List Happening} (h : Agrees now store log) (sessionId : String) :
    (∃ depth s store', validateSession options now sessionId depth store =
      some (.valid s, store')) ↔ ∃ e, expiryOf sessionId log = some e ∧ now ≤ e := by
  constructor
  · rintro ⟨depth, s, store', hvalid⟩
    obtain ⟨hexp, heq⟩ := validateSession_some hvalid
    cases hs : store.get sessionId with
    | none => simp [hs] at heq
    | some x =>
      obtain ⟨hmem, rfl⟩ := get_eq_some_iff.mp hs
      refine ⟨x.expiresAt, (h.stored x hmem).1, le_of_not_gt (fun hlt => ?_)⟩
      exact hexp ⟨x, hs, hlt⟩
  · rintro ⟨e, he, hle⟩
    cases hs : store.get sessionId with
    | none => exact absurd (h.missing sessionId e he hs) (not_lt.mpr hle)
    | some x =>
      obtain ⟨hmem, rfl⟩ := get_eq_some_iff.mp hs
      obtain ⟨hexpiry, hactive⟩ := h.stored x hmem
      have hxe : x.expiresAt = e := some.inj (hexpiry.symm.trans he)
      have hexp : ¬Expired store now x.id := by
        rintro ⟨y, hy, hlt⟩
        rw [hs] at hy
        rw [← some.inj hy, hxe] at hlt
        exact absurd hle (not_le.mpr hlt)
      refine ⟨1, x.touch options now, store.set (x.touch options now), ?_⟩
      unfold validateSession
      simp only [getSession_of_not_expired hexp 0, hs, hactive, Bool.true_eq_false, if_false]

/-- **Which session calls return, and what they say.** On every store, a call returns iff it
does not come to a session that has expired: the one it is given, one of the user's, or one
that is to be evicted. After every history, `validateSession` reports a session to be valid
iff it was created, was not destroyed or evicted since, and has not expired. -/
theorem session_calls (options : Options) :
    (∀ (store : Store) (now : ℤ),
      (∀ id, (∃ depth r, getSession now id depth store = some r) ↔ ¬Expired store now id) ∧
      (∀ id, (∃ depth r, validateSession options now id depth store = some r) ↔
        ¬Expired store now id) ∧
      (∀ id data, (∃ depth r, updateSessionData now id data depth store = some r) ↔
        ¬Expired store now id) ∧
      (∀ id, (∃ depth r, destroySession now id depth store = some r) ↔ ¬Expired store now id) ∧
      (∀ userId, (∃ depth r, destroyUserSessions now userId depth store = some r) ↔
        ∀ s ∈ getUserSessions userId store, ¬s.expiresAt < now) ∧
      ∀ id userId metadata,
        (∃ depth r, createSession options now id userId metadata depth store = some r) ↔
          ∀ s ∈ toDestroy options userId store, ¬s.expiresAt < now) ∧
    ∀ (calls : List (ℤ × Call)) (depth : ℕ) (store : Store) (log : List Happening) (now : ℤ),
      (calls.map Prod.fst).Pairwise (· ≤ ·) → (∀ c ∈ calls, c.1 ≤ now) →
      runCalls options depth calls (KeyedList.empty, []) = some (store, log) →
      ∀ id, (∃ depth s store', validateSession options now id depth store =
          some (.valid s, store')) ↔ ∃ e, expiryOf id log = some e ∧ now ≤ e := by
  refine ⟨fun store now => ⟨getSession_returns_iff, validateSession_returns_iff options,
    updateSessionData_returns_iff, destroySession_returns_iff, destroyUserSessions_returns_iff,
    createSession_returns_iff options⟩, fun calls depth store log now hord hnow hrun => ?_⟩
  refine validateSession_valid_iff ?_
  cases calls with
  | nil =>
    obtain ⟨rfl, rfl⟩ := mk.inj (some.inj hrun)
    exact agrees_empty now
  | cons c calls =>
    refine (agrees_empty c.1).run (List.pairwise_cons.mpr ⟨?_, hord⟩) hrun ?_
    · exact List.forall_mem_cons.mpr ⟨le_rfl, fun _ => List.rel_of_pairwise_cons hord⟩
    · exact List.forall_mem_cons.mpr ⟨hnow c List.mem_cons_self, List.forall_mem_map.mpr hnow⟩

/-- One session of a second, in a manager that allows one for each user. -/
def oneSession : List (ℤ × Call) := [(0, .createSession "s1" "u" ⟨none, none, none, []⟩)]

def storeOfOne : Store :=
  KeyedList.empty.set (newSession ⟨1, 1⟩ 0 "s1" "u" ⟨none, none, none, []⟩)

theorem session_calls_one :
    ∃ depth s store', validateSession ⟨1, 1⟩ 1000 "s1" depth storeOfOne =
      some (.valid s, store') :=
  ((session_calls ⟨1, 1⟩).2 oneSession 2 storeOfOne [.created "s1" 1000] 1000 (by decide)
    (by decide) rfl "s1").mpr ⟨1000, by decide, by decide⟩

/-- **A session that has expired**: a request with it does not return, and neither does a
new log-in of its user, who has as many sessions as are allowed. -/
theorem expired_never_returns :
    (∀ depth, runCalls ⟨1, 1⟩ depth (oneSession ++ [(1001, .getSession "s1")])
      (KeyedList.empty, []) = none) ∧
    ∀ depth, runCalls ⟨1, 1⟩ depth
      (oneSession ++ [(1001, .createSession "s2" "u" ⟨none, none, none, []⟩)])
      (KeyedList.empty, []) = none := by
  have hexp : Expired storeOfOne 1001 "s1" :=
    ⟨newSession ⟨1, 1⟩ 0 "s1" "u" ⟨none, none, none, []⟩, rfl, by decide⟩
  have hfirst : ∀ depth calls, runCalls ⟨1, 1⟩ depth (oneSession ++ calls) (KeyedList.empty, []) =
      runCalls ⟨1, 1⟩ depth calls (storeOfOne, [.created "s1" 1000]) := fun _ _ => rfl
  have hevict : toDestroy ⟨1, 1⟩ "u" storeOfOne =
      [newSession ⟨1, 1⟩ 0 "s1" "u" ⟨none, none, none, []⟩] := rfl
  constructor
  · intro depth
    rw [hfirst]
    simp only [runCalls, Call.run, (never_returns hexp depth).1, map_none]
  · intro depth
    have hloop : destroyEach 1001 depth [newSession ⟨1, 1⟩ 0 "s1" "u" ⟨none, none, none, []⟩]
        storeOfOne = none := by
      rw [destroyEach,
        show (newSession ⟨1, 1⟩ 0 "s1" "u" ⟨none, none, none, []⟩).id = "s1" from rfl,
        (never_returns hexp depth).2]
    rw [hfirst]
    simp only [runCalls, Call.run, createSession, enforceMaxSessions, hevict, hloop,
      map_none]

end ControlPlane.SessionManager
