import Revalle.Data.Falsy
import Revalle.Data.KeyedList
import Revalle.Data.WindowCounter

/-!
# The manager of API keys

`APIKeyManager` issues the keys for programmatic access. A key is known by its hash only,
under which the manager keeps the metadata of the key, its limits and its usage
counters. The two entry points for a request are `validate`, which looks at everything
and counts the request, and `hasScope`, which looks at the scopes of the key.

The hash is a parameter, and so are the random bytes that `generate` draws, as hexadecimal
texts.
-/

namespace ControlPlane.ApiKeyManager

open Function Falsy

structure RateLimit where
  rpm : ℕ
  daily : ℕ
  monthly : ℕ
  deriving DecidableEq, Repr

/-- The options of `generate`. -/
structure Options where
  keyPrefix : Option String
  name : Option String
  permissions : Option (List String)
  scopes : Option (List String)
  rpm : Option ℕ
  daily : Option ℕ
  monthly : Option ℕ
  /-- in milliseconds, as are all times -/
  expiresAt : Option ℤ
  deriving DecidableEq, Repr

/-- The metadata of a key. -/
structure KeyMeta (H : Type) where
  id : String
  userId : String
  keyHash : H
  keyPrefix : String
  name : String
  permissions : List String
  scopes : List String
  rateLimit : RateLimit
  expiresAt : Option ℤ
  lastUsed : Option ℤ
  usageCount : ℕ
  createdAt : ℤ
  enabled : Bool
  deriving DecidableEq, Repr

structure Counters where
  minute : WindowCounter
  day : WindowCounter
  month : WindowCounter
  deriving DecidableEq, Repr

def Counters.new (now : ℤ) : Counters := ⟨⟨0, now⟩, ⟨0, now⟩, ⟨0, now⟩⟩

/-- The maps of the manager. -/
structure State (H : Type) where
  keys : KeyedList (KeyMeta.keyHash (H := H))
  keysByUser : String → List H
  usageLimits : H → Option RateLimit
  usageCounters : H → Option Counters

def State.init (H : Type) : State H := ⟨.empty, fun _ => [], fun _ => none, fun _ => none⟩

section

variable {H : Type} [DecidableEq H]

/-- `keys.get`. -/
def State.get (s : State H) (keyHash : H) : Option (KeyMeta H) := s.keys.get keyHash

/-- An assignment to the metadata of a key. -/
def State.modify (keyHash : H) (f : KeyMeta H → KeyMeta H) (s : State H) : State H :=
  { s with keys := s.keys.modify keyHash f }

/-! ## Keys are issued -/

/-- What a call of `generate` is given, and what it draws. -/
structure Generation where
  userId : String
  options : Options
  keyBytes : String
  idBytes : String
  deriving DecidableEq, Repr

def Generation.rawKey (g : Generation) : String :=
  orDefault g.options.keyPrefix "pns" ++ "_" ++ g.keyBytes

def Generation.id (g : Generation) (now : ℤ) : String :=
  "key-" ++ toString now ++ "-" ++ g.idBytes

def Generation.rateLimit (g : Generation) : RateLimit where
  rpm := orDefault g.options.rpm 60
  daily := orDefault g.options.daily 10000
  monthly := orDefault g.options.monthly 300000

def Generation.scopes (g : Generation) : List String :=
  g.options.scopes.getD ["nodes:read", "metrics:read"]

def Generation.keyMeta (hash : String → H) (g : Generation) (now : ℤ) : KeyMeta H where
  id := g.id now
  userId := g.userId
  keyHash := hash g.rawKey
  keyPrefix := String.ofList (g.rawKey.toList.take 8)
  name := orDefault g.options.name "API Key"
  permissions := g.options.permissions.getD ["read"]
  scopes := g.scopes
  rateLimit := g.rateLimit
  expiresAt := orNull g.options.expiresAt
  lastUsed := none
  usageCount := 0
  createdAt := now
  enabled := true

/-- `generate`. The caller gets `g.rawKey` and the metadata without the hash. -/
def generate (hash : String → H) (g : Generation) (now : ℤ) (s : State H) : State H :=
  let m := g.keyMeta hash now
  { keys := s.keys.set m
    keysByUser := update s.keysByUser g.userId (s.keysByUser g.userId ++ [m.keyHash])
    usageLimits := update s.usageLimits m.keyHash (some m.rateLimit)
    usageCounters := update s.usageCounters m.keyHash (some (.new now)) }

/-! ## Keys are used -/

/-- The body of `_checkRateLimit`, for a key that has counters and limits: the counters
afterwards, and the reason for which the request is refused. The day's counter is not
looked at when the minute's refuses. The month's is never looked at. -/
def Counters.check (limits : RateLimit) (now : ℤ) (c : Counters) : Counters × Option String :=
  let minute := c.minute.refresh 60000 now
  if minute.count ≥ limits.rpm then ({ c with minute }, some "rate_limit_minute")
  else
    let day := c.day.refresh 86400000 now
    if day.count ≥ limits.daily then ({ c with minute, day }, some "rate_limit_daily")
    else ({ c with minute, day }, none)

/-- The body of `_incrementUsage`. -/
def Counters.increment (c : Counters) : Counters := ⟨c.minute.hit, c.day.hit, c.month.hit⟩

/-- `_checkRateLimit`. -/
def checkRateLimit (keyHash : H) (now : ℤ) (s : State H) : State H × Option String :=
  match s.usageCounters keyHash, s.usageLimits keyHash with
  | some c, some limits =>
    ({ s with usageCounters := update s.usageCounters keyHash (c.check limits now).1 },
      (c.check limits now).2)
  | _, _ => (s, none)

/-- `_incrementUsage`. -/
def incrementUsage (keyHash : H) (s : State H) : State H :=
  { s with
    usageCounters := update s.usageCounters keyHash
      ((s.usageCounters keyHash).map Counters.increment) }

/-- What `validate` returns. -/
inductive Verdict
  | invalid (reason : String)
  | valid (userId : String) (permissions scopes : List String) (keyId : String)
  deriving DecidableEq, Repr

def Verdict.isValid : Verdict → Bool
  | .valid .. => true
  | .invalid _ => false

/-- `keyMeta.expiresAt && new Date(keyMeta.expiresAt) < new Date()`. -/
def KeyMeta.expired (m : KeyMeta H) (now : ℤ) : Bool :=
  match m.expiresAt with
  | none => false
  | some x => x < now

def KeyMeta.used (now : ℤ) (m : KeyMeta H) : KeyMeta H :=
  { m with lastUsed := some now, usageCount := m.usageCount + 1 }

def validate (hash : String → H) (rawKey : String) (now : ℤ) (s : State H) :
    State H × Verdict :=
  if rawKey = "" then (s, .invalid "missing_key")
  else
    match s.get (hash rawKey) with
    | none => (s, .invalid "invalid_key")
    | some m =>
      if m.enabled = false then (s, .invalid "key_disabled")
      else if m.expired now then (s, .invalid "key_expired")
      else
        match checkRateLimit (hash rawKey) now s with
        | (s, some reason) => (s, .invalid reason)
        | (s, none) =>
          (incrementUsage (hash rawKey) (s.modify (hash rawKey) (KeyMeta.used now)),
            .valid m.userId m.permissions m.scopes m.id)

/-- Whether scopes cover the one that is required: by a wildcard, by itself, or by its
namespace. -/
def covers (scopes : List String) (requiredScope : String) : Bool :=
  scopes.contains "*" || scopes.contains requiredScope ||
    scopes.contains (String.ofList (requiredScope.toList.takeWhile (· ≠ ':')) ++ ":*")

/-- `hasScope`, which looks neither at `enabled` nor at `expiresAt`. -/
def hasScope (hash : String → H) (rawKey requiredScope : String) (s : State H) : Bool :=
  match s.get (hash rawKey) with
  | none => false
  | some m => covers m.scopes requiredScope

/-! ## Keys are withdrawn -/

def KeyMeta.disabled (m : KeyMeta H) : KeyMeta H := { m with enabled := false }

def revoke (keyId : String) (s : State H) : State H × Bool :=
  match s.keys.toList.find? (fun m => m.id = keyId) with
  | some m => (s.modify m.keyHash KeyMeta.disabled, true)
  | none => (s, false)

/-- The entries under the hash of `m` are removed from all maps. -/
def State.remove (m : KeyMeta H) (s : State H) : State H where
  keys := s.keys.erase m.keyHash
  keysByUser := update s.keysByUser m.userId ((s.keysByUser m.userId).erase m.keyHash)
  usageLimits := update s.usageLimits m.keyHash none
  usageCounters := update s.usageCounters m.keyHash none

def delete (keyId : String) (s : State H) : State H × Bool :=
  match s.keys.toList.find? (fun m => m.id = keyId) with
  | some m => (s.remove m, true)
  | none => (s, false)

/-! ## Histories -/

inductive Call
  | generate (g : Generation)
  | validate (rawKey : String)
  | hasScope (rawKey requiredScope : String)
  | revoke (keyId : String)
  | delete (keyId : String)
  deriving DecidableEq, Repr

def Call.run (hash : String → H) (now : ℤ) (s : State H) : Call → State H
  | .generate g => ApiKeyManager.generate hash g now s
  | .validate rawKey => (ApiKeyManager.validate hash rawKey now s).1
  | .hasScope _ _ => s
  | .revoke keyId => (ApiKeyManager.revoke keyId s).1
  | .delete keyId => (ApiKeyManager.delete keyId s).1

/-- The calls so far, each with its time. -/
abbrev History := List (ℤ × Call)

def runFrom (hash : String → H) (s : State H) (h : History) : State H :=
  h.foldl (fun s e => e.2.run hash e.1 s) s

def run (hash : String → H) (h : History) : State H := runFrom hash (.init H) h

theorem run_concat (hash : String → H) (h : History) (e : ℤ × Call) :
    run hash (h ++ [e]) = e.2.run hash e.1 (run hash h) := by
  simp [run, runFrom, List.foldl_append]

/-! ## One key

What the manager has about one key, and what the calls do to it. -/

/-- The metadata and the counters of a key. -/
abbrev Record (H : Type) := KeyMeta H × Counters

def State.record (s : State H) (keyHash : H) : Option (Record H) :=
  (s.get keyHash).bind (fun m => (s.usageCounters keyHash).map (fun c => (m, c)))

/-- A record after a request with its key, and whether the request was admitted. -/
def Record.validated (now : ℤ) (r : Record H) : Record H × Bool :=
  if r.1.enabled = false ∨ r.1.expired now then (r, false)
  else
    match r.2.check r.1.rateLimit now with
    | (c, some _) => ((r.1, c), false)
    | (c, none) => ((r.1.used now, c.increment), true)

/-- What a call does to the record of the key `k`. -/
def Record.step (k : String) (e : ℤ × Call) (r : Record H) : Option (Record H) :=
  match e.2 with
  | .validate rawKey => if rawKey = k then some (Record.validated e.1 r).1 else some r
  | .revoke keyId => if keyId = r.1.id then some (r.1.disabled, r.2) else some r
  | .delete keyId => if keyId = r.1.id then none else some r
  | .generate _ => some r
  | .hasScope _ _ => some r

end

end ControlPlane.ApiKeyManager
