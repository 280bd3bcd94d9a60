import Revalle.Data.Falsy
import Revalle.Data.KeyedList

/-!
# The session manager, with its sessions in memory

`getSession` finds that a session has expired and calls `destroySession`, which first calls
`getSession` to have the session for the audit log. While the expired session is in the
store, the two call each other without end: a session that has expired is destroyed by none
of the calls, and a call that comes to it does not return (`session_calls`). Only `cleanup`
removes it.

A call takes a bound on the depth of the calls nested in it. It has the value `none` if that
depth is not enough, so that a call returns iff it has a value for some depth.
-/

namespace ControlPlane.SessionManager

open List Option Falsy

/-! ## Sessions -/

inductive Device
  | unknown
  | mobile
  | apiClient
  | browser
  | other
  deriving DecidableEq, Repr

structure Session where
  id : String
  userId : String
  /-- in milliseconds, as are all times -/
  createdAt : ℤ
  expiresAt : ℤ
  lastActivity : ℤ
  ip : Option String
  userAgent : Option String
  device : Device
  location : Option String
  data : List (String × String)
  active : Bool
  deriving DecidableEq, Repr

structure Metadata where
  ip : Option String
  userAgent : Option String
  location : Option String
  data : List (String × String)
  deriving DecidableEq, Repr

structure Options where
  /-- in seconds -/
  sessionTTL : ℕ
  maxSessionsPerUser : ℕ

/-- The options as the constructor takes them. -/
def Options.of (sessionTTL maxSessionsPerUser : Option ℕ) : Options :=
  ⟨orDefault sessionTTL (24 * 60 * 60), orDefault maxSessionsPerUser 5⟩

/-- Whether one of the words occurs in the text, in any case. -/
def mentions (words : List String) (text : String) : Bool :=
  words.any (fun w => (text.toList.map Char.toLower).tails.any (fun t => w.toList.isPrefixOf t))

/-- `_parseDevice`. -/
def parseDevice (userAgent : Option String) : Device :=
  match orNull userAgent with
  | none => .unknown
  | some text =>
    if mentions ["mobile", "android", "iphone", "ipad"] text then .mobile
    else if mentions ["curl", "wget", "axios", "node-fetch", "python"] text then .apiClient
    else if mentions ["chrome", "firefox", "safari", "edge"] text then .browser
    else .other

/-- `{ ...old, ...new }`. -/
def mergeData (old new : List (String × String)) : List (String × String) :=
  new.foldl (fun data x =>
    if data.any (fun y => y.1 = x.1) then data.map (fun y => if y.1 = x.1 then x else y)
    else data ++ [x]) old

/-- The map of the sessions, by their identifiers. -/
abbrev Store := KeyedList Session.id

/-! ## The calls -/

mutual

def getSession (now : ℤ) (sessionId : String) : ℕ → Store → Option (Option Session × Store)
  | 0, _ => none
  | depth + 1, store =>
    match store.get sessionId with
    | none => some (none, store)
    | some session =>
      if session.expiresAt < now then
        (destroySession now sessionId depth store).map (fun r => (none, r.2))
      else some (some session, store)

def destroySession (now : ℤ) (sessionId : String) : ℕ → Store → Option (Bool × Store)
  | 0, _ => none
  | depth + 1, store =>
    (getSession now sessionId depth store).map (fun r => (true, r.2.erase sessionId))

end

/-- What `validateSession` returns. -/
inductive Validation
  | invalid (reason : String)
  | valid (session : Session)
  deriving DecidableEq, Repr

/-- A session that is used: it is renewed in the last quarter of its time. -/
def Session.touch (options : Options) (now : ℤ) (session : Session) : Session :=
  let totalTTL := session.expiresAt - session.createdAt
  let remaining := session.expiresAt - now
  { session with
    lastActivity := now
    expiresAt := if 4 * remaining < totalTTL then now + options.sessionTTL * 1000
      else session.expiresAt }

def validateSession (options : Options) (now : ℤ) (sessionId : String) (depth : ℕ)
    (store : Store) : Option (Validation × Store) :=
  match getSession now sessionId depth store with
  | none => none
  | some (none, store) => some (.invalid "Session not found or expired", store)
  | some (some session, store) =>
    if session.active = false then some (.invalid "Session is inactive", store)
    else some (.valid (session.touch options now), store.set (session.touch options now))

def updateSessionData (now : ℤ) (sessionId : String) (data : List (String × String))
    (depth : ℕ) (store : Store) : Option (Except String Session × Store) :=
  match getSession now sessionId depth store with
  | none => none
  | some (none, store) => some (.error "Session not found", store)
  | some (some session, store) =>
    let session := { session with data := mergeData session.data data, lastActivity := now }
    some (.ok session, store.set session)

/-- The loop `for (const session of sessions) await this.destroySession(session.id)`. -/
def destroyEach (now : ℤ) (depth : ℕ) : List Session → Store → Option Store
  | [], store => some store
  | session :: sessions, store =>
    match destroySession now session.id depth store with
    | none => none
    | some (_, store) => destroyEach now depth sessions store

/-- `getUserSessions`, which does not leave out sessions that have expired. -/
def getUserSessions (userId : String) (store : Store) : List Session :=
  store.toList.filter (fun s => s.userId = userId)

def destroyUserSessions (now : ℤ) (userId : String) (depth : ℕ) (store : Store) :
    Option (ℕ × Store) :=
  (destroyEach now depth (getUserSessions userId store) store).map
    (fun store' => ((getUserSessions userId store).length, store'))

/-- The sessions that `_enforceMaxSessions` evicts: those that were not used for the longest
time. -/
def toDestroy (options : Options) (userId : String) (store : Store) : List Session :=
  let sessions := getUserSessions userId store
  if sessions.length ≥ options.maxSessionsPerUser then
    (sessions.insertionSort (fun a b => a.lastActivity ≤ b.lastActivity)).take
      (sessions.length - options.maxSessionsPerUser + 1)
  else []

/-- `_enforceMaxSessions`. -/
def enforceMaxSessions (options : Options) (now : ℤ) (userId : String) (depth : ℕ)
    (store : Store) : Option Store :=
  destroyEach now depth (toDestroy options userId store) store

def newSession (options : Options) (now : ℤ) (sessionId userId : String)
    (metadata : Metadata) : Session where
  id := sessionId
  userId := userId
  createdAt := now
  expiresAt := now + options.sessionTTL * 1000
  lastActivity := now
  ip := orNull metadata.ip
  userAgent := orNull metadata.userAgent
  device := parseDevice metadata.userAgent
  location := orNull metadata.location
  data := metadata.data
  active := true

/-- `createSession`, with the identifier that is drawn. -/
def createSession (options : Options) (now : ℤ) (sessionId userId : String)
    (metadata : Metadata) (depth : ℕ) (store : Store) : Option (Session × Store) :=
  (enforceMaxSessions options now userId depth store).map
    (fun store => (newSession options now sessionId userId metadata,
      store.set (newSession options now sessionId userId metadata)))

def cleanup (now : ℤ) (store : Store) : ℕ × Store :=
  (store.toList.countP (fun s => s.expiresAt < now),
    store.filter (fun s => decide ¬s.expiresAt < now))

/-! ## Which calls return -/

section Returns

variable {store : Store} {now : ℤ}

/-- A session that has expired is in the store. -/
def Expired (store : Store) (now : ℤ) (sessionId : String) : Prop :=
  ∃ session, store.get sessionId = some session ∧ session.expiresAt < now

variable {sessionId : String} {depth : ℕ} (options : Options) (userId : String)

theorem getSession_of_not_expired (h : ¬Expired store now sessionId) (depth : ℕ) :
    getSession now sessionId (depth + 1) store = some (store.get sessionId, store) := by
  unfold getSession
  cases hget : store.get sessionId with
  | none => rfl
  | some session =>
    have hexp : ¬session.expiresAt < now := fun hexp => h ⟨session, hget, hexp⟩
    simp only [if_neg hexp]

/-- **The two calls do not return** for a session that has expired: each calls the other, on
the same store. -/
theorem never_returns (h : Expired store now sessionId) (depth : ℕ) :
    getSession now sessionId depth store = none ∧
      destroySession now sessionId depth store = none := by
  obtain ⟨session, hget, hexp⟩ := h
  induction depth with
  | zero => exact ⟨rfl, rfl⟩
  | succ depth ih =>
    constructor
    · rw [getSession]
      simp only [hget, if_pos hexp, ih.2, map_none]
    · rw [destroySession, ih.1]
      rfl

/-- What `getSession` does, if it returns. -/
theorem getSession_some {r : Option Session × Store}
    (h : getSession now sessionId depth store = some r) :
    ¬Expired store now sessionId ∧ r = (store.get sessionId, store) := by
  have hexp : ¬Expired store now sessionId := by
    intro hexp
    rw [(never_returns hexp depth).1] at h
    exact nomatch h
  refine ⟨hexp, ?_⟩
  cases depth with
  | zero => exact absurd h (by simp [getSession])
  | succ depth =>
    rw [getSession_of_not_expired hexp] at h
    exact (some.inj h).symm

/-- What `destroySession` does, if it returns. -/
theorem destroySession_some {r : Bool × Store}
    (h : destroySession now sessionId depth store = some r) :
    ¬Expired store now sessionId ∧ r = (true, store.erase sessionId) := by
  cases depth with
  | zero => exact absurd h (by simp [destroySession])
  | succ depth =>
    obtain ⟨r', hr', rfl⟩ := map_eq_some_iff.mp h
    obtain ⟨hexp, rfl⟩ := getSession_some hr'
    exact ⟨hexp, rfl⟩

theorem getSession_returns_iff (sessionId : String) :
    (∃ depth r, getSession now sessionId depth store = some r) ↔ ¬Expired store now sessionId := by
  constructor
  · rintro ⟨depth, r, h⟩
    exact (getSession_some h).1
  · intro h
    exact ⟨1, _, getSession_of_not_expired h 0⟩

theorem destroySession_of_not_expired (h : ¬Expired store now sessionId) :
    destroySession now sessionId 2 store = some (true, store.erase sessionId) := by
  rw [destroySession, getSession_of_not_expired h 0]
  rfl

theorem destroySession_returns_iff (sessionId : String) :
    (∃ depth r, destroySession now sessionId depth store = some r) ↔
      ¬Expired store now sessionId := by
  constructor
  · rintro ⟨depth, r, h⟩
    exact (destroySession_some h).1
  · intro h
    exact ⟨2, _, destroySession_of_not_expired h⟩

/-- What `validateSession` does when it returns. -/
theorem validateSession_some {options : Options} {r : Validation × Store}
    (h : validateSession options now sessionId depth store = some r) :
    ¬Expired store now sessionId ∧ r = match store.get sessionId with
        | none => (.invalid "Session not found or expired", store)
        | some session =>
          if session.active = false then (.invalid "Session is inactive", store)
          else (.valid (session.touch options now), store.set (session.touch options now)) := by
  unfold validateSession at h
  cases hget : getSession now sessionId depth store with
  | none => simp [hget] at h
  | some g =>
    obtain ⟨hexp, rfl⟩ := getSession_some hget
    refine ⟨hexp, ?_⟩
    rw [hget] at h
    cases hs : store.get sessionId with
    | none => simpa [hs] using h.symm
    | some session =>
      simp only [hs, ← apply_ite some] at h
      exact (some.inj h).symm

/-- What `updateSessionData` does when it returns. -/
theorem updateSessionData_some {data : List (String × String)} {r : Except String Session × Store}
    (h : updateSessionData now sessionId data depth store = some r) : ¬Expired store now sessionId ∧
      r.2 = match store.get sessionId with
        | none => store
        | some session =>
          store.set { session with data := mergeData session.data data, lastActivity := now } := by
  unfold updateSessionData at h
  cases hget : getSession now sessionId depth store with
  | none => simp [hget] at h
  | some g =>
    obtain ⟨hexp, rfl⟩ := getSession_some hget
    refine ⟨hexp, ?_⟩
    rw [hget] at h
    cases hs : store.get sessionId <;> simp only [hs, some.injEq] at h <;> rw [← h]

/-- A call that returns when the call of `getSession` in it does. -/
theorem returns_iff_of_getSession {α : Type} {call : ℕ → Option α}
    (hcall : ∀ depth, (call depth).isSome = (getSession now sessionId depth store).isSome) :
    (∃ depth r, call depth = some r) ↔ ¬Expired store now sessionId := by
  rw [← getSession_returns_iff]
  simp only [← isSome_iff_exists, hcall]

theorem validateSession_returns_iff (sessionId : String) :
    (∃ depth r, validateSession options now sessionId depth store = some r) ↔
      ¬Expired store now sessionId := by
  refine returns_iff_of_getSession fun depth => ?_
  unfold validateSession
  rcases getSession now sessionId depth store with _ | ⟨_ | session, store'⟩
  · rfl
  · rfl
  · by_cases hactive : session.active = false
    · simp only [if_pos hactive, isSome_some]
    · simp only [if_neg hactive, isSome_some]

theorem updateSessionData_returns_iff (sessionId : String) (data : List (String × String)) :
    (∃ depth r, updateSessionData now sessionId data depth store = some r) ↔
      ¬Expired store now sessionId := by
  refine returns_iff_of_getSession fun depth => ?_
  unfold updateSessionData
  rcases getSession now sessionId depth store with _ | ⟨_ | session, store'⟩ <;> rfl

/-- The store without the given sessions. -/
def eraseEach (sessions : List Session) (store : Store) : Store :=
  sessions.foldl (fun store s => store.erase s.id) store

theorem destroyEach_some {sessions : List Session} {store' : Store}
    (h : destroyEach now depth sessions store = some store') :
    store' = eraseEach sessions store := by
  induction sessions generalizing store with
  | nil => exact (some.inj h).symm
  | cons s sessions ih =>
    cases hd : destroySession now s.id depth store with
    | none => simp [destroyEach, hd] at h
    | some r =>
      obtain ⟨-, rfl⟩ := destroySession_some hd
      simp only [destroyEach, hd] at h
      exact ih h

/-- **The loop returns** iff it comes to no session that has expired. -/
theorem destroyEach_returns_iff {sessions : List Session} (hmem : ∀ s ∈ sessions, s ∈ store.toList)
    (hnodup : (sessions.map Session.id).Nodup) :
    (∃ depth store', destroyEach now depth sessions store = some store') ↔
      ∀ s ∈ sessions, ¬s.expiresAt < now := by
  induction sessions generalizing store with
  | nil => exact ⟨nofun, fun _ => ⟨0, store, rfl⟩⟩
  | cons s sessions ih =>
    rw [map_cons, nodup_cons] at hnodup
    have hget : store.get s.id = some s :=
      KeyedList.get_eq_some_iff.mpr ⟨hmem s mem_cons_self, rfl⟩
    have hexp : Expired store now s.id ↔ s.expiresAt < now := by
      constructor
      · rintro ⟨x, hx, hlt⟩
        rw [hget] at hx
        rwa [some.inj hx]
      · exact fun hlt => ⟨s, hget, hlt⟩
    -- the other sessions of the list are still there when `s` is not
    have hmem' : ∀ x ∈ sessions, x ∈ (store.erase s.id).toList := by
      intro x hx
      refine mem_filter.mpr ⟨hmem x (mem_cons_of_mem _ hx), decide_eq_true ?_⟩
      exact fun hid => hnodup.1 (hid ▸ mem_map_of_mem hx)
    rw [forall_mem_cons, ← hexp, ← ih hmem' hnodup.2]
    constructor
    · rintro ⟨depth, store', h⟩
      cases hd : destroySession now s.id depth store with
      | none => simp [destroyEach, hd] at h
      | some r =>
        obtain ⟨hs, rfl⟩ := destroySession_some hd
        simp only [destroyEach, hd] at h
        exact ⟨hs, depth, store', h⟩
    · rintro ⟨hs, depth, store', h⟩
      -- a depth that is enough for the rest of the list is enough for `s`, or the list is empty
      cases sessions with
      | nil =>
        refine ⟨2, store.erase s.id, ?_⟩
        simp only [destroyEach, destroySession_of_not_expired hs]
      | cons x sessions =>
        cases hx : destroySession now x.id depth (store.erase s.id) with
        | none => simp [destroyEach, hx] at h
        | some r =>
          refine ⟨depth, store', ?_⟩
          obtain ⟨d, rfl⟩ : ∃ d, depth = d + 2 := by
            match depth with
            | 0 => simp [destroySession] at hx
            | 1 => simp [destroySession, getSession] at hx
            | d + 2 => exact ⟨d, rfl⟩
          have hds : destroySession now s.id (d + 2) store = some (true, store.erase s.id) := by
            rw [destroySession, getSession_of_not_expired hs d]
            rfl
          rw [destroyEach, hds]
          exact h

theorem getUserSessions_mem {userId : String} :
    ∀ s ∈ getUserSessions userId store, s ∈ store.toList :=
  fun _ hs => (mem_filter.mp hs).1

theorem getUserSessions_nodup : ((getUserSessions userId store).map Session.id).Nodup :=
  store.nodup.sublist (filter_sublist.map _)

/-- A call that ends with the loop over sessions. -/
theorem returns_map_iff {α β : Type} {loop : ℕ → Option α} (f : α → β) :
    (∃ depth r, (loop depth).map f = some r) ↔ ∃ depth r, loop depth = some r := by
  simp only [← isSome_iff_exists, isSome_map]

theorem destroyUserSessions_returns_iff :
    (∃ depth r, destroyUserSessions now userId depth store = some r) ↔
      ∀ s ∈ getUserSessions userId store, ¬s.expiresAt < now := by
  rw [← destroyEach_returns_iff getUserSessions_mem (getUserSessions_nodup userId)]
  exact returns_map_iff _

theorem toDestroy_mem {options : Options} {userId : String} :
    ∀ s ∈ toDestroy options userId store, s ∈ store.toList := by
  intro s hs
  unfold toDestroy at hs
  simp only at hs
  split at hs
  · exact getUserSessions_mem s ((perm_insertionSort _ _).mem_iff.mp (mem_of_mem_take hs))
  · exact absurd hs not_mem_nil

theorem toDestroy_nodup : ((toDestroy options userId store).map Session.id).Nodup := by
  unfold toDestroy
  simp only
  split
  · have hperm : ((getUserSessions userId store).insertionSort
        (fun a b => a.lastActivity ≤ b.lastActivity)).map Session.id |>.Nodup :=
      ((perm_insertionSort _ _).map _).nodup_iff.mpr (getUserSessions_nodup userId)
    exact hperm.sublist ((take_sublist _ _).map _)
  · exact nodup_nil

theorem createSession_returns_iff (sessionId userId : String) (metadata : Metadata) :
    (∃ depth r, createSession options now sessionId userId metadata depth store = some r) ↔
      ∀ s ∈ toDestroy options userId store, ¬s.expiresAt < now := by
  rw [← destroyEach_returns_iff toDestroy_mem (toDestroy_nodup options userId)]
  exact returns_map_iff _

end Returns

end ControlPlane.SessionManager
