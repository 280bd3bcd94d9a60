import Revalle.Data.Falsy

/-!
# The user manager

`UserManager` keeps user accounts in Redis, under three families of keys:
`user:ID` has the record of a user, and `user:username:NAME` and
`user:email:EMAIL` are indexes that have identifiers. A call reads a record,
changes the decoded copy and, if it is one of the calls that write, stores the
copy again. What becomes of the indexes and of the quota is the subject of
`UserIndexes` and `UserQuota`.
-/

namespace ControlPlane.UserManager

open Falsy

/-- A text as a template string prints it. -/
def label (s : Option String) : String := s.getD "undefined"

/-! ## Dates

A date is a number of milliseconds, read in UTC. -/

def msPerDay : ℤ := 86400000

/-- The day number of a year, month (1 to 12) and day of the month. -/
def daysFromCivil (year month day : ℤ) : ℤ :=
  -- years begin in March, so that the leap day comes last
  let y := if month ≤ 2 then year - 1 else year
  let era := y / 400
  let yoe := y - era * 400
  let doy := (153 * (if month > 2 then month - 3 else month + 9) + 2) / 5 + day - 1
  let doe := yoe * 365 + yoe / 4 - yoe / 100 + doy
  era * 146097 + doe - 719468

/-- The year, month and day of the month of a day number. -/
def civilFromDays (days : ℤ) : ℤ × ℤ × ℤ :=
  let z := days + 719468
  let era := z / 146097
  let doe := z - era * 146097
  let yoe := (doe - doe / 1460 + doe / 36524 - doe / 146096) / 365
  let doy := doe - (365 * yoe + yoe / 4 - yoe / 100)
  let mp := (5 * doy + 2) / 153
  let day := doy - (153 * mp + 2) / 5 + 1
  let month := if mp < 10 then mp + 3 else mp - 9
  (yoe + era * 400 + (if month ≤ 2 then 1 else 0), month, day)

/-- `date.setMonth(date.getMonth() + 1)`: the same day of the next month, or as
many days into the month after it as that month is too short. -/
def addMonth (date : ℤ) : ℤ :=
  let (year, month, day) := civilFromDays (date / msPerDay)
  let (year, month) := if month = 12 then (year + 1, 1) else (year, month + 1)
  (daysFromCivil year month 1 + (day - 1)) * msPerDay + date % msPerDay

-- a month after 31 January 2024 is 2 March
example : addMonth (daysFromCivil 2024 1 31 * msPerDay) = daysFromCivil 2024 3 2 * msPerDay := by
  decide

def getNextResetDate (period : Option String) (now : ℤ) : ℤ :=
  if period = some "daily" then now + msPerDay
  else if period = some "weekly" then now + 7 * msPerDay
  else if period = some "monthly" then addMonth now
  else now

/-! ## Records -/

structure Quota where
  requests : Option ℤ
  bandwidth : Option ℤ
  period : Option String
  deriving DecidableEq

structure Usage where
  requests : ℤ
  bandwidth : ℤ
  resetAt : ℤ
  deriving DecidableEq

/-- A user's record. The permissions and the times of creation and update are
never read. -/
structure User where
  id : String
  username : Option String
  email : Option String
  /-- Hashed. -/
  password : String
  role : String
  quota : Quota
  usage : Usage
  status : String
  deriving DecidableEq

/-- The argument of `createUser`. -/
structure UserData where
  id : Option String
  username : Option String
  email : Option String
  password : String
  role : Option String
  quota : Option Quota
  deriving DecidableEq

/-- The argument of `updateUser`: the fields it has are assigned, to `undefined`
where a field is present and `none`. -/
structure Updates where
  id : Option String
  username : Option (Option String)
  email : Option (Option String)
  password : Option String
  role : Option String
  quota : Option Quota
  usage : Option Usage
  status : Option String
  deriving DecidableEq

/-- The argument of `recordUsage`; an absent amount counts as `0`. -/
structure Metrics where
  requests : Option ℤ
  bandwidth : Option ℤ
  deriving DecidableEq

/-- What a key of Redis has: the JSON text of a record, or an identifier. -/
inductive Value where
  | record (user : User)
  | text (s : String)
  deriving DecidableEq

/-- The strings in Redis. -/
def Store : Type := String → Option Value

def Store.empty : Store := fun _ => none

def Store.set (s : Store) (key : String) (value : Value) : Store :=
  Function.update s key (some value)

def Store.del (s : Store) (key : String) : Store := Function.update s key none

def userKey (id : String) : String := "user:" ++ id

def usernameKey (username : String) : String := "user:username:" ++ username

def emailKey (email : String) : String := "user:email:" ++ email

/-- The library `bcrypt`. -/
structure Bcrypt where
  hash : String → String
  compare : String → String → Bool

/-- The simplest such library: passwords are stored as they are. -/
def Bcrypt.plain : Bcrypt := ⟨id, fun password hashed => password = hashed⟩

inductive Failure where
  | invalidCredentials
  | notActive
  | quotaExceeded
  | userNotFound
  /-- The key of the user is that of an index. What `JSON.parse` makes of the identifier
  in it, and the call of that, is not modelled: the identifiers of calls are `Proper`. -/
  | notRecord
  deriving DecidableEq

/-! ## The calls -/

/-- `generateUserId`, at time `now` and with the random part `random`. -/
def generateUserId (now : ℤ) (random : String) : String :=
  "user-" ++ toString now ++ "-" ++ random

def defaultQuota : Quota := ⟨some 10000, some 10737418240, some "monthly"⟩

/-- The record that `createUser` writes; `generated` is what `generateUserId`
would answer. -/
def newUser (bcrypt : Bcrypt) (userData : UserData) (generated : String) (now : ℤ) : User where
  id := orDefault userData.id generated
  username := userData.username
  email := userData.email
  password := bcrypt.hash userData.password
  role := orDefault userData.role "user"
  quota := userData.quota.getD defaultQuota
  usage :=
    { requests := 0
      bandwidth := 0
      resetAt := getNextResetDate
        (some (orDefault (userData.quota.bind Quota.period) "monthly")) now }
  status := "active"

def createUser (bcrypt : Bcrypt) (userData : UserData) (generated : String) (now : ℤ)
    (s : Store) : Store :=
  let user := newUser bcrypt userData generated now
  let s := s.set (userKey user.id) (.record user)
  let s := s.set (usernameKey (label user.username)) (.text user.id)
  if truthy user.email then s.set (emailKey (label user.email)) (.text user.id) else s

/-- `getUser`: the record, or `none` for `null`. -/
def getUser (userId : String) (s : Store) : Except Failure (Option User) :=
  match s (userKey userId) with
  | none => .ok none
  | some (.record user) => .ok (some user)
  | some (.text _) => .error .notRecord

def getUserByUsername (username : String) (s : Store) : Except Failure (Option User) :=
  match s (usernameKey username) with
  | some (.text userId) => if userId = "" then .ok none else getUser userId s
  -- no record, or one that is no identifier of any user
  | _ => .ok none

/-- `isQuotaExceeded`, with the record as it leaves it. -/
def isQuotaExceeded (user : User) (now : ℤ) : Bool × User :=
  let usage :=
    if now > user.usage.resetAt then ⟨0, 0, getNextResetDate user.quota.period now⟩
    else user.usage
  -- a comparison with `undefined` is false
  let exceeded := user.quota.requests.any (fun q => usage.requests ≥ q) ||
    user.quota.bandwidth.any (fun q => usage.bandwidth ≥ q)
  (exceeded, { user with usage := usage })

/-- `authenticate`: it answers with a token for the user and the record. -/
def authenticate (bcrypt : Bcrypt) (username password : String) (now : ℤ) (s : Store) :
    Except Failure User :=
  match getUserByUsername username s with
  | .error e => .error e
  | .ok none => .error .invalidCredentials
  | .ok (some user) =>
    if ¬bcrypt.compare password user.password then .error .invalidCredentials
    else if user.status ≠ "active" then .error .notActive
    else
      let (exceeded, user) := isQuotaExceeded user now
      if exceeded then .error .quotaExceeded else .ok user

/-- `Object.assign(user, updates)`, with the password hashed before. -/
def User.assign (bcrypt : Bcrypt) (user : User) (updates : Updates) : User where
  id := updates.id.getD user.id
  username := updates.username.getD user.username
  email := updates.email.getD user.email
  password :=
    match updates.password with
    | none => user.password
    | some password => if password = "" then password else bcrypt.hash password
  role := updates.role.getD user.role
  quota := updates.quota.getD user.quota
  usage := updates.usage.getD user.usage
  status := updates.status.getD user.status

def updateUser (bcrypt : Bcrypt) (userId : String) (updates : Updates) (s : Store) :
    Except Failure Store :=
  match getUser userId s with
  | .error e => .error e
  | .ok none => .error .userNotFound
  | .ok (some user) => .ok (s.set (userKey userId) (.record (user.assign bcrypt updates)))

/-- The usage with the amounts of `metrics` added. -/
def Usage.add (usage : Usage) (metrics : Metrics) : Usage :=
  ⟨usage.requests + metrics.requests.getD 0, usage.bandwidth + metrics.bandwidth.getD 0,
    usage.resetAt⟩

def recordUsage (userId : String) (metrics : Metrics) (s : Store) : Except Failure Store :=
  match getUser userId s with
  | .error e => .error e
  | .ok none => .ok s
  | .ok (some user) =>
    .ok (s.set (userKey userId) (.record { user with usage := user.usage.add metrics }))

def deleteUser (userId : String) (s : Store) : Except Failure Store :=
  match getUser userId s with
  | .error e => .error e
  | .ok none => .ok s
  | .ok (some user) =>
    let s := s.del (userKey userId)
    let s := s.del (usernameKey (label user.username))
    .ok (if truthy user.email then s.del (emailKey (label user.email)) else s)

/-! ## Keys -/

theorem userKey_inj {a b : String} : userKey a = userKey b ↔ a = b := by
  simp [userKey]

theorem usernameKey_inj {a b : String} : usernameKey a = usernameKey b ↔ a = b := by
  simp [usernameKey]

theorem emailKey_inj {a b : String} : emailKey a = emailKey b ↔ a = b := by
  simp [emailKey]

theorem usernameKey_ne_emailKey (a b : String) : usernameKey a ≠ emailKey b := by
  intro h
  have := congrArg String.toList h
  simp [usernameKey, emailKey] at this

/-- An identifier that does not read like the rest of an index key. -/
def Proper (id : String) : Prop := ∀ s, id ≠ "username:" ++ s ∧ id ≠ "email:" ++ s

theorem Proper.userKey_ne_usernameKey {id : String} (h : Proper id) (name : String) :
    userKey id ≠ usernameKey name := by
  intro heq
  have hsplit : usernameKey name = userKey ("username:" ++ name) := by
    rfl
  exact (h name).1 (userKey_inj.mp (heq.trans hsplit))

theorem Proper.userKey_ne_emailKey {id : String} (h : Proper id) (email : String) :
    userKey id ≠ emailKey email := by
  intro heq
  have hsplit : emailKey email = userKey ("email:" ++ email) := by
    rfl
  exact (h email).2 (userKey_inj.mp (heq.trans hsplit))

theorem Store.set_apply (s : Store) (key : String) (value : Value) (k : String) :
    s.set key value k = if k = key then some value else s k :=
  Function.update_apply s key (some value) k

theorem Store.del_apply (s : Store) (key k : String) :
    s.del key k = if k = key then none else s k :=
  Function.update_apply s key none k

theorem Store.set_eq_some_iff {s : Store} {key k : String} {value v : Value} :
    s.set key value k = some v ↔ (k = key ∧ v = value) ∨ (k ≠ key ∧ s k = some v) := by
  by_cases h : k = key
  · simp [Store.set_apply, h, eq_comm]
  · simp [Store.set_apply, h]

theorem Store.del_eq_some_iff {s : Store} {key k : String} {v : Value} :
    s.del key k = some v ↔ k ≠ key ∧ s k = some v := by
  by_cases h : k = key <;> simp [Store.del_apply, h]

end ControlPlane.UserManager
