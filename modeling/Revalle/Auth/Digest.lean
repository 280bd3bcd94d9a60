import Revalle.Data.Checked

/-!
# Digest authentication

`auth/digest`: the nonces that were issued and are kept in a cache, the users, and the requests that
came with credentials. A nonce counts its references and is deleted with the last; using one that
was deleted fails here. The addresses of nonces, users and requests are numbers that are not used
again.

The responses of the clients are compared with what the right HA1 gives, which is what the helpers
reply, so a request only says whether its response is right. It also remembers whether its nonce was
stale when it was first checked, and `passed` lists the checks that ended with `Auth::Ok`.
-/

namespace Auth.Digest

open Checked

/-- `Auth::Digest::Config`. -/
structure Config where
  noncemaxduration : ℤ
  noncemaxuses : ℕ
  nonceStrictness : Bool
  checkNonceCount : Bool
  postWorkaround : Bool

/-- `digest_nonce_h`. -/
structure Nonce where
  key : String
  creationtime : ℤ
  nc : ℕ
  references : ℕ
  user : Option ℕ
  valid : Bool
  incache : Bool

/-- `Auth::CredentialState`. -/
inductive CredentialState where
  | unchecked | ok | pending | handshake | failed
  deriving DecidableEq

/-- `Auth::Digest::User`. -/
structure User where
  username : String
  nonces : List ℕ
  credentials : CredentialState
  ha1created : Bool

/-- What is to be done with a request next. -/
inductive Phase where
  | fresh | lookup | done
  deriving DecidableEq

/-- `Auth::Digest::UserRequest`. Without a nonce its user is one for logging, in no cache. -/
structure UserRequest where
  username : String
  nonce : Option ℕ
  user : ℕ
  nc : ℕ
  /-- The response is right. -/
  right : Bool
  /-- The method is not GET, and the response would be right for GET. -/
  rightForGet : Bool
  helper_queried : Bool
  phase : Phase
  wasStale : Bool

/-- A check that ended with `Auth::Ok`. -/
structure Passed where
  request : ℕ
  nonce : ℕ
  nc : ℕ
  /-- Whether the nonce, as it was before the check, `accepts` the count. -/
  valid : Bool
  pending : Bool
  wasStale : Bool

structure State where
  now : ℤ
  nonces : ℕ → Option Nonce
  next : ℕ
  /-- `digest_nonce_cache`. -/
  cache : List ℕ
  users : ℕ → Option User
  nextUser : ℕ
  requests : List (Option UserRequest)
  passed : List Passed

def State.new : State := ⟨0, fun _ => none, 0, [], fun _ => none, 0, [], []⟩

abbrev Run (α : Type) : Type := Checked State α

/-! ## Nonces -/

/-- A nonce that was not deleted. -/
def nonceAt (n : ℕ) : Run Nonce := do
  match (← get).nonces n with
  | some x => return x
  | none => failure

def setNonce (n : ℕ) (x : Option Nonce) : Run Unit :=
  modify fun s => { s with nonces := Function.update s.nonces n x }

def userAt (u : ℕ) : Run User := do
  match (← get).users u with
  | some y => return y
  | none => failure

def setUser (u : ℕ) (y : Option User) : Run Unit :=
  modify fun s => { s with users := Function.update s.users u y }

/-- `authenticateDigestNonceFindNonce`. -/
def State.findNonce (s : State) (noncehex : String) : Option ℕ :=
  s.cache.find? fun n => (s.nonces n).any (·.key = noncehex)

/-- `authenticateDigestNonceNew`, for the keys that are drawn. -/
def authenticateDigestNonceNew (keys : List String) : Run Unit :=
  modify fun s =>
    match keys.find? fun key => (s.findNonce key).isNone with
    | some key => { s with
        nonces := Function.update s.nonces s.next (some ⟨key, s.now, 0, 1, none, true, true⟩)
        cache := s.next :: s.cache
        next := s.next + 1 }
    | none => s

def authDigestNonceLink (n : ℕ) : Run Unit := do
  let x ← nonceAt n
  setNonce n (some { x with references := x.references + 1 })

def authenticateDigestNonceDelete (n : ℕ) : Run Unit := do
  let x ← nonceAt n
  require (x.references = 0)
  require (x.incache = false)
  setNonce n none

def authDigestNonceUnlink (n : ℕ) : Run Unit := do
  let x ← nonceAt n
  setNonce n (some { x with references := x.references - 1 })
  if x.references - 1 = 0 then authenticateDigestNonceDelete n else return ()

def authDigestNoncePurge (n : ℕ) : Run Unit := do
  let x ← nonceAt n
  if x.incache then
    modify fun s => { s with cache := s.cache.erase n }
    setNonce n (some { x with incache := false })
    authDigestNonceUnlink n
  else return ()

/-- What `authDigestNonceIsStale` finds of a nonce. -/
def Nonce.stale (cfg : Config) (now : ℤ) (x : Nonce) : Bool :=
  !x.valid || decide (x.creationtime + cfg.noncemaxduration < now) || decide (99999998 < x.nc) ||
    decide (cfg.noncemaxuses < x.nc)

/-- `authDigestNonceIsStale`: a nonce that is stale is no longer valid. -/
def authDigestNonceIsStale (cfg : Config) (n : ℕ) : Run Bool := do
  let x ← nonceAt n
  let stale := x.stale cfg (← get).now
  setNonce n (some { x with valid := !stale })
  return stale

/-- **When a nonce is good for a request** with the count `nc`: it is valid, the count is the next
one, or a greater one unless the nonces are strict, and the nonce is not stale with it. -/
def Nonce.accepts (cfg : Config) (now : ℤ) (nc : ℕ) (x : Nonce) : Bool :=
  let intnc := if cfg.checkNonceCount then nc else x.nc + 1
  x.valid && decide (x.nc + 1 ≤ intnc) && (!cfg.nonceStrictness || decide (intnc = x.nc + 1)) &&
    !Nonce.stale cfg now { x with nc := intnc }

def authDigestNonceIsValid (cfg : Config) (n nc : ℕ) : Run Bool := do
  let x ← nonceAt n
  let intnc := if cfg.checkNonceCount then nc else x.nc + 1
  if x.valid = false then return false
  else if (cfg.nonceStrictness = true ∧ intnc ≠ x.nc + 1) ∨ intnc < x.nc + 1 then
    setNonce n (some { x with valid := false })
    return false
  else
    setNonce n (some { x with nc := intnc })
    return !(← authDigestNonceIsStale cfg n)

/-! ## Nonces of users -/

def authDigestUserLinkNonce (u n : ℕ) : Run Unit := do
  let x ← nonceAt n
  if x.user = none then return ()
  else
    let y ← userAt u
    if n ∈ y.nonces then return ()
    else
      setUser u (some { y with nonces := y.nonces ++ [n] })
      authDigestNonceLink n
      let x ← nonceAt n
      require (x.user = none ∨ x.user = some u)
      setNonce n (some { x with user := some u })

def authDigestNonceUserUnlink (n : ℕ) : Run Unit := do
  let x ← nonceAt n
  match x.user with
  | none => return ()
  | some u =>
    let y ← userAt u
    if n ∈ y.nonces then
      setUser u (some { y with nonces := y.nonces.erase n })
      authDigestNonceUnlink n
    let x ← nonceAt n
    setNonce n (some { x with user := none })

/-- The loop of `authenticateDigestNonceCacheCleanup`. -/
def cleanupLoop (cfg : Config) : List ℕ → Run Unit
  | [] => return ()
  | n :: ns => do
    let stale ← authDigestNonceIsStale cfg n
    if stale then
      let x ← nonceAt n
      require (x.incache = true)
      setNonce n (some { x with valid := false })
      authDigestNonceUserUnlink n
      authDigestNoncePurge n
      cleanupLoop cfg ns
    else cleanupLoop cfg ns

def authenticateDigestNonceCacheCleanup (cfg : Config) : Run Unit := do
  cleanupLoop cfg (← get).cache

/-- The loop of `~User`. -/
def unlinkAll : List ℕ → Run Unit
  | [] => return ()
  | n :: ns => do
    authDigestNoncePurge n
    authDigestNonceUnlink n
    unlinkAll ns

/-! ## Requests -/

/-- What is decoded of the credentials of a request. -/
structure Credentials where
  username : String
  noncehex : String
  nc : ℕ
  right : Bool
  rightForGet : Bool

def addRequest (c : Credentials) (nonce : Option ℕ) (user : ℕ) : Run Unit :=
  modify fun s => { s with requests := s.requests ++ [some ⟨c.username, nonce, user, c.nc, c.right,
    c.rightForGet, false, if nonce = none then .done else .fresh, false⟩] }

/-- The request gets a user for logging. -/
def authDigestLogUsername (c : Credentials) : Run Unit := do
  let s ← get
  modify fun s => { s with nextUser := s.nextUser + 1 }
  addRequest c none s.nextUser

/-- `Auth::Digest::User::Cache()->lookup`. -/
def State.findUser (s : State) (username : String) : Option ℕ :=
  (List.range s.nextUser).find? fun u => (s.users u).any (·.username = username)

/-- `Config::decode`, when the nonce is good for the user. -/
def attach (c : Credentials) (n : ℕ) : Run Unit := do
  authDigestNonceLink n
  let s ← get
  match s.findUser c.username with
  | none =>
    modify fun s => { s with
      users := Function.update s.users s.nextUser (some ⟨c.username, [], .unchecked, false⟩)
      nextUser := s.nextUser + 1 }
    authDigestUserLinkNonce s.nextUser n
    addRequest c (some n) s.nextUser
  | some u =>
    let y ← userAt u
    setUser u (some { y with credentials := .unchecked })
    addRequest c (some n) u

/-- **`Config::decode`**, of credentials that are complete and well-formed. -/
def decode (c : Credentials) : Run Unit := do
  let s ← get
  match s.findNonce c.noncehex with
  | none => authDigestLogUsername c
  | some n =>
    let x ← nonceAt n
    match x.user with
    | none => attach c n
    | some v =>
      let y ← userAt v
      if y.username ≠ c.username then authDigestLogUsername c else attach c n

def setRequest (r : ℕ) (q : Option UserRequest) : Run Unit :=
  modify fun s => { s with requests := s.requests.set r q }

/-- The end of `authenticate`: the nonce is checked. -/
def checkNonce (cfg : Config) (r : ℕ) (q : UserRequest) (y : User) (n : ℕ) : Run Unit := do
  let before ← nonceAt n
  let now := (← get).now
  let valid ← authDigestNonceIsValid cfg n q.nc
  if !valid && y.credentials ≠ .pending then
    setUser q.user (some { y with credentials := .pending })
    let x ← nonceAt n
    setNonce n (some { x with valid := false })
    authDigestNoncePurge n
    setRequest r (some { q with phase := .lookup })
  else
    setUser q.user (some { y with credentials := .ok })
    modify fun s => { s with passed :=
      ⟨r, n, q.nc, before.accepts cfg now q.nc, y.credentials = .pending, q.wasStale⟩ ::
        s.passed }
    setRequest r (some { q with phase := .done })

/-- The user gets these credentials, and `module_direction` says what comes next. -/
def leave (r : ℕ) (q : UserRequest) (y : User) (credentials : CredentialState) : Run Unit := do
  setUser q.user (some { y with credentials := credentials })
  setRequest r (some { q with phase := if credentials = .pending then .lookup else .done })

/-- **`UserRequest::authenticate`**, of a request that has a nonce. -/
def authenticate (cfg : Config) (r : ℕ) (q : UserRequest) (n : ℕ) : Run Unit := do
  let y ← userAt q.user
  if y.credentials = .failed then leave r q y .failed
  else if y.ha1created = false then leave r q y .pending
  else if q.right = false ∧ q.helper_queried = false then
    leave r { q with helper_queried := true } y .pending
  else if q.right = false ∧ ¬(cfg.postWorkaround = true ∧ q.rightForGet = true) then
    leave r q y .failed
  else checkNonce cfg r q y n

/-! ## Events -/

inductive Event where
  | tick (seconds : ℕ)
  | new (keys : List String)
  | decode (c : Credentials)
  | authenticate (r : ℕ)
  | handleReply (r : ℕ)
  | destroyRequest (r : ℕ)
  | cleanup
  | destroyUser (u : ℕ)

/-- The first check of a request. -/
def firstCheck (cfg : Config) (r : ℕ) (q : UserRequest) (n : ℕ) : Run Unit := do
  let x ← nonceAt n
  authenticate cfg r { q with wasStale := x.stale cfg (← get).now } n

/-- `HandleReply`, with the HA1, and then `authenticate` again. -/
def handleReply (cfg : Config) (r : ℕ) (q : UserRequest) (n : ℕ) : Run Unit := do
  let y ← userAt q.user
  setUser q.user (some { y with ha1created := true })
  authenticate cfg r q n

/-- `~UserRequest`. -/
def destroyRequest (r : ℕ) (q : UserRequest) : Run Unit := do
  setRequest r none
  match q.nonce with
  | some n => authDigestNonceUnlink n
  | none => return ()

/-- What is done with the request `r`, if there is one in the given phase. -/
def withRequest (r : ℕ) (phase : Phase) (f : UserRequest → ℕ → Run Unit) : Run Unit := do
  match ((← get).requests[r]?).join with
  | some q =>
    match q.nonce with
    | some n => if q.phase = phase then f q n else return ()
    | none => return ()
  | none => return ()

def perform (cfg : Config) : Event → Run Unit
  | .tick seconds => modify fun s => { s with now := s.now + seconds }
  | .new keys => authenticateDigestNonceNew keys
  | .decode c => decode c
  | .authenticate r => withRequest r .fresh (firstCheck cfg r)
  | .handleReply r => withRequest r .lookup (handleReply cfg r)
  | .destroyRequest r => do
    match ((← get).requests[r]?).join with
    | some q => destroyRequest r q
    | none => return ()
  | .cleanup => authenticateDigestNonceCacheCleanup cfg
  -- a user that a request refers to is locked
  | .destroyUser u => do
    let s ← get
    match s.users u with
    | some y =>
      if s.requests.all (fun q => q.all (·.user ≠ u)) then
        unlinkAll y.nonces
        setUser u none
      else return ()
    | none => return ()

def run (cfg : Config) : List Event → Run Unit
  | [] => return ()
  | e :: es => do
    perform cfg e
    run cfg es

end Auth.Digest
