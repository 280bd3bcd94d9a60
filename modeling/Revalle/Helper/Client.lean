import Revalle.Helper.HandleRead

/-!
# The client of a stateless helper

A model of `Helper::Client` and `Helper::Session` of `src/helper.cc`: requests that are
submitted are handed to a session or queued, and are called back when their reply has been
read, when they time out, when their session is closed or when no helper is left. Requests
whose reply says that the helper is broken, and requests that time out, are tried again.

A callback may submit further requests before it returns. The functions below therefore take
what a callback does as a parameter `notify`; `Client.notify` ties the knot. Loops and callbacks
within callbacks have a bound. `none` stands for a failed assertion, for `fatalf`, and for a
bound that was too small.

Requests are told apart by the number of their submission, `key`. The fields of the client
from `submitted` on are not in the source: they record what has become of the requests.
-/

namespace Helper

inductive ResultCode
  | unknown
  | okay
  | error
  | brokenHelper
  | timedOut
  | tt
  deriving DecidableEq

structure Reply where
  result : ResultCode
  other : List UInt8
  deriving DecidableEq

/-- A request and its reply. `key` stands for the callback and its data. -/
structure Xaction where
  key : ℕ
  id : ℕ
  retries : ℕ
  dispatchTime : ℤ
  reply : Reply
  deriving DecidableEq

/-- A helper process. -/
structure Session where
  requests : List Xaction
  replyXaction : Option Xaction
  reader : Reader
  nextRequestId : ℕ
  pending : ℕ
  replies : ℕ
  timedout : ℕ
  shutdown : Bool
  closing : Bool
  deriving DecidableEq

/-- The configuration, and what the model leaves to the world. -/
structure Env where
  nMax : ℕ
  nStartup : ℕ
  nIdle : ℕ
  concurrency : ℕ
  queueSize : ℕ
  /-- Whether a persistent overload kills the process. -/
  actDie : Bool
  timeout : ℤ
  retryTimedOut : Bool
  onTimedOutResponse : List UInt8
  eom : UInt8
  /-- `Reply::finalize`, which parses the text of a reply. -/
  finalize : Reply → Reply
  /-- How many requests the callback of a request submits, for a reply. -/
  react : ℕ → Reply → ℕ
  /-- Which calls of `ipcCreate` start a process. -/
  ipcCreate : ℕ → Bool

def Env.config (env : Env) : Config := ⟨env.eom, env.concurrency⟩

/-- The client, the clock, and what has become of the requests. -/
structure Client where
  sessions : List Session
  queue : List Xaction
  nActive : ℕ
  overloadStart : ℤ
  lastRestart : ℤ
  /-- `squid_curtime` -/
  now : ℤ
  /-- `starting_up || reconfiguring` -/
  starting : Bool
  /-- How often `ipcCreate` was called. -/
  forked : ℕ
  /-- How many requests were submitted. -/
  submitted : ℕ
  /-- The requests whose callback data has become invalid. -/
  invalid : List ℕ
  /-- The requests that were called back. -/
  called : List ℕ
  /-- The requests that were deleted because their callback data was invalid. -/
  discarded : List ℕ
  /-- The requests whose reply was being read when their session was deleted. -/
  lost : List ℕ
  deriving DecidableEq

/-- `MAX_RETRIES` -/
def maxRetries : ℕ := 2

def Session.new : Session :=
  { requests := [], replyXaction := none, reader := ⟨[], false⟩, nextRequestId := 0, pending := 0,
    replies := 0, timedout := 0, shutdown := false, closing := false }

namespace Client

def new : Client :=
  { sessions := [], queue := [], nActive := 0, overloadStart := 0, lastRestart := 0, now := 0,
    starting := false, forked := 0, submitted := 0, invalid := [], called := [],
    discarded := [], lost := [] }

/-- A change of a session. -/
def modify (i : ℕ) (f : Session → Session) (c : Client) : Client :=
  { c with sessions := c.sessions.modify i f }

/-! ## Dispatch -/

section Dispatch

variable (env : Env)

/-- The loop of `GetFirstAvailable`: the position and load of the session that is selected. -/
def select : List Session → ℕ → Option (ℕ × ℕ) → Option (ℕ × ℕ)
  | [], _, selected => selected
  | srv :: rest, i, selected =>
    if selected.any (fun s => s.2 ≤ srv.pending) then select rest (i + 1) selected
    else if srv.shutdown then select rest (i + 1) selected
    else if srv.pending = 0 then some (i, 0)
    else if selected.isSome then some (i, srv.pending)
    else select rest (i + 1) (some (i, srv.pending))

def getFirstAvailable (c : Client) : Option ℕ :=
  match select c.sessions 0 none with
  | none => none
  | some (i, pending) =>
    if (if env.concurrency = 0 then 1 else env.concurrency) ≤ pending then none else some i

/-- `helperDispatch` to a session. -/
def helperDispatch (i : ℕ) (r : Xaction) (c : Client) : Client :=
  if r.key ∈ c.invalid then
    { c.modify i fun srv => { srv with nextRequestId := (srv.nextRequestId + 1) % 2 ^ 64 } with
      discarded := c.discarded ++ [r.key] }
  else
    c.modify i fun srv =>
      { srv with
        nextRequestId := (srv.nextRequestId + 1) % 2 ^ 64
        requests := srv.requests ++
          [{ r with id := (srv.nextRequestId + 1) % 2 ^ 64, dispatchTime := c.now }]
        pending := srv.pending + 1 }

/-- The loop of `helperKickQueue`. -/
def dispatchQueued : ℕ → Client → Client
  | 0, c => c
  | n + 1, c =>
    match getFirstAvailable env c, c.queue with
    | some i, r :: rest => dispatchQueued n (helperDispatch i r { c with queue := rest })
    | _, _ => c

/-- `ChildConfig::needNew` -/
def needNew (c : Client) : ℤ :=
  if c.starting then env.nStartup
  else if c.nActive + env.nIdle < env.nMax then env.nIdle
  else env.nMax - c.nActive

/-- `handleFewerServers` returns, and does not call `fatalf`. -/
def handleFewerServers (madeProgress : Bool) (c : Client) : Bool :=
  needNew env c = 0 || !(c.nActive < env.nStartup && c.lastRestart > c.now - 30) || madeProgress

/-- The loop of `openSessions`. -/
def startSessions : ℕ → Client → Client
  | 0, c => c
  | k + 1, c =>
    if env.ipcCreate c.forked then
      startSessions k { c with
        forked := c.forked + 1, sessions := c.sessions ++ [Session.new], nActive := c.nActive + 1 }
    else startSessions k { c with forked := c.forked + 1 }

def overloaded (c : Client) : Bool := env.queueSize < c.queue.length

def syncQueueStats (c : Client) : Client :=
  if overloaded env c then
    if c.overloadStart = 0 then { c with overloadStart := c.now } else c
  else { c with overloadStart := 0 }

/-- `prepSubmit`: whether the submission proceeds. -/
def prepSubmit (c : Client) : Option Bool :=
  if !overloaded env c || c.now - c.overloadStart ≤ 180 then some true
  else if env.actDie then none
  else some false

end Dispatch

/-! ## Submission -/

section Submission

variable (env : Env) (fuel : ℕ) (notify : ℕ → Reply → Client → Option Client)

/-- `callBack` -/
def callBack (r : Xaction) (c : Client) : Option Client :=
  if r.key ∈ c.invalid then some { c with discarded := c.discarded ++ [r.key] }
  else notify r.key r.reply c

def unknown (r : Xaction) : Xaction := { r with reply := { r.reply with result := .unknown } }

/-- The loop of `Client::dropQueued`. -/
def dropAll : ℕ → Client → Option Client
  | 0, _ => none
  | n + 1, c =>
    match c.queue with
    | [] => some c
    | r :: rest => (callBack notify (unknown r) { c with queue := rest }).bind (dropAll n)

def dropQueued (c : Client) : Option Client :=
  if c.queue = [] then some c
  else if c.nActive = 0 ∧ getFirstAvailable env c = none then dropAll notify fuel c
  else none

def helperKickQueue (c : Client) : Option Client :=
  let c := dispatchQueued env c.queue.length c
  if c.nActive = 0 then dropQueued env fuel notify c else some c

def openSessions (c : Client) : Option Client :=
  let started := startSessions env (needNew env c).toNat c
  if (started.sessions.length - c.sessions.length : ℤ) < needNew env c ∧
      handleFewerServers env false started = false then none
  else helperKickQueue env fuel notify { started with lastRestart := c.now }

/-- `Enqueue` -/
def enqueue (r : Xaction) (c : Client) : Option Client :=
  let c := { c with queue := c.queue ++ [r] }
  if 0 < needNew env c then openSessions env fuel notify c else some c

def submitRequest (r : Xaction) (c : Client) : Option Client :=
  (match getFirstAvailable env c with
    | some i => some (helperDispatch i r c)
    | none => enqueue env fuel notify r c).map (syncQueueStats env)

/-- `helperSubmit`, with `SubmissionFailure`, which calls back at once. -/
def helperSubmit (c : Client) : Option Client :=
  let key := c.submitted
  let c := { syncQueueStats env c with submitted := key + 1 }
  match prepSubmit env c with
  | none => none
  | some true => submitRequest env fuel notify ⟨key, 0, 0, 0, ⟨.unknown, []⟩⟩ c
  | some false => notify key ⟨.error, []⟩ c

def submitMany : ℕ → Client → Option Client
  | 0, c => some c
  | n + 1, c => (helperSubmit env fuel notify c).bind (submitMany n)

end Submission

/-- What a callback does: it submits requests. -/
def notify (env : Env) : ℕ → ℕ → Reply → Client → Option Client
  | 0, _, _, _ => none
  | fuel + 1, key, reply, c =>
    submitMany env fuel (notify env fuel) (env.react key reply)
      { c with called := c.called ++ [key] }

/-! ## Replies, timeouts and closures -/

section Sessions

variable (env : Env) (fuel : ℕ) (i : ℕ)

/-- Whether a request at the front has timed out. -/
def timedOut (c : Client) (r : Xaction) : Bool := c.now - r.dispatchTime > env.timeout

/-- The reply for a request that has timed out. -/
def timedOutReply (reply : Reply) : Reply :=
  if env.onTimedOutResponse = [] then { reply with result := .timedOut }
  else
    match accumulate reply.other env.onTimedOutResponse with
    | some other => env.finalize { reply with other := other }
    | none => { reply with result := .timedOut }

/-- The loop of `checkForTimedOutRequests`. -/
def checkForTimedOutRequests : ℕ → Client → Option Client
  | 0, _ => none
  | n + 1, c =>
    match c.sessions[i]? with
    | none => none
    | some srv =>
      match srv.requests with
      | [] => some c
      | r :: rest =>
        if timedOut env c r then
          let popped := c.modify i fun srv => { srv with requests := rest }
          let handled :=
            if env.retryTimedOut ∧ r.retries < maxRetries ∧ r.key ∉ c.invalid then
              submitRequest env fuel (notify env fuel) { r with retries := r.retries + 1 } popped
            else
              callBack (notify env fuel) { r with reply := timedOutReply env r.reply } popped
          handled.bind fun c =>
            checkForTimedOutRequests n (c.modify i fun srv =>
              { srv with pending := srv.pending - 1, timedout := srv.timedout + 1 })
        else some c

/-- The end of `helperReturnBuffer`. -/
def afterReply (c : Client) : Option Client :=
  (if env.timeout ≠ 0 ∧ env.concurrency ≠ 0 then checkForTimedOutRequests env fuel i fuel c
    else some c).bind fun c =>
      match c.sessions[i]? with
      | none => none
      | some srv =>
        if !srv.shutdown then helperKickQueue env fuel (notify env fuel) c
        else if !srv.closing && srv.pending == 0 then
          some (c.modify i fun srv => { srv with closing := true })
        else some c

/-- A reply that is complete: the request is tried again or called back. -/
def returnReply (r : Xaction) (c : Client) : Option Client :=
  let retry := r.key ∉ c.invalid ∧ (env.finalize r.reply).result = .brokenHelper ∧
    r.retries < maxRetries
  let finalized :=
    if r.key ∉ c.invalid then { r with reply := env.finalize r.reply } else r
  (if retry then some c else callBack (notify env fuel) finalized c).bind fun c =>
    let c := c.modify i fun srv =>
      { srv with pending := srv.pending - 1, replies := srv.replies + 1, replyXaction := none }
    (if retry then
        submitRequest env fuel (notify env fuel) { finalized with retries := r.retries + 1 } c
      else some c).bind (afterReply env fuel i)

/-- `helperReturnBuffer` -/
def helperReturnBuffer (text : List UInt8) (ended : Bool) (c : Client) : Option Client :=
  match c.sessions[i]? with
  | none => none
  | some srv =>
    match srv.replyXaction with
    | none => afterReply env fuel i c
    | some r =>
      match accumulate r.reply.other text with
      | none => some (c.modify i fun srv => { srv with closing := true })
      | some other =>
        let r := { r with reply := { r.reply with other := other } }
        let c := c.modify i fun srv => { srv with replyXaction := some r }
        if ended then returnReply env fuel i r c else some c

def popRequest (number : ℤ) (c : Client) : Client :=
  c.modify i fun srv =>
    match popFrom env.config Xaction.id number srv.requests with
    | none => srv
    | some (r, rest) => { srv with requests := rest, replyXaction := some r }

/-- The session for the reader. -/
def operations : Operations Client where
  expecting c := c.sessions[i]?.any fun srv => srv.pending != 0 || srv.timedout != 0
  replying c := c.sessions[i]?.any fun srv => srv.replyXaction.isSome
  popRequest := popRequest env i
  returnBuffer := helperReturnBuffer env fuel i
  closePipesSafely c := c.modify i fun srv => { srv with closing := true }
  isOpen c := c.sessions[i]?.any fun srv => !srv.closing

/-- A read of the session. That a pipe that has been closed gives none is left to the events:
`closeWritePipeSafely` may leave it open. -/
def read (data : List UInt8) (c : Client) : Option Client :=
  match c.sessions[i]? with
  | none => some c
  | some srv =>
    (helperHandleRead env.config (operations env fuel i) data srv.reader c).map fun after =>
      after.2.modify i fun srv => { srv with reader := after.1 }

/-- `handleKilledServer` -/
def handleKilledServer (srv : Session) (c : Client) : Option Client :=
  (if srv.shutdown then some c
    else if c.nActive = 0 then none
    else
      let c := { c with nActive := c.nActive - 1 }
      if !handleFewerServers env (decide (1 ≤ srv.replies)) c then none
      else if 0 < needNew env c then
        openSessions env fuel (notify env fuel)
          (c.modify i fun srv => { srv with shutdown := true })
      else some c).bind fun c =>
        if c.nActive = 0 then dropQueued env fuel (notify env fuel) c else some c

/-- The loop of `SessionBase::dropQueued`. -/
def dropRequests : ℕ → Client → Option Client
  | 0, _ => none
  | n + 1, c =>
    match c.sessions[i]? with
    | none => none
    | some srv =>
      match srv.requests with
      | [] => some c
      | r :: rest =>
        (callBack (notify env fuel) (unknown r)
          (c.modify i fun srv => { srv with requests := rest })).bind (dropRequests n)

/-- The session is deleted. Nothing is done about its `replyXaction`. -/
def delete (c : Client) : Option Client :=
  match c.sessions[i]? with
  | none => none
  | some srv =>
    if srv.requests = [] then
      some { c with
        sessions := c.sessions.eraseIdx i
        lost := c.lost ++ srv.replyXaction.toList.map Xaction.key }
    else none

/-- `HelperServerClosed` -/
def helperServerClosed (c : Client) : Option Client :=
  match c.sessions[i]? with
  | none => some c
  | some srv =>
    (handleKilledServer env fuel i srv c).bind fun c =>
      (dropRequests env fuel i fuel c).bind (delete i)

/-- `requestTimeout` -/
def requestTimeout (c : Client) : Option Client :=
  if env.timeout ≠ 0 ∧ env.concurrency ≠ 0 ∧ c.sessions[i]?.isSome then
    checkForTimedOutRequests env fuel i fuel c
  else some c

/-- A session that `helperShutdown` comes to, and the number of active sessions. -/
def shutDown (srv : Session) : Session :=
  if srv.shutdown then srv
  else { srv with shutdown := true, closing := srv.closing || srv.pending == 0 }

def helperShutdown (c : Client) : Option Client :=
  if c.nActive = (c.sessions.filter fun srv => !srv.shutdown).length then
    dropQueued env fuel (notify env fuel)
      { c with nActive := 0, sessions := c.sessions.map shutDown }
  else none

end Sessions

end Client

/-! ## Events -/

/-- What can happen to a client. A session is addressed by its position. -/
inductive Event
  | helperSubmit
  | read (i : ℕ) (data : List UInt8)
  | requestTimeout (i : ℕ)
  | helperServerClosed (i : ℕ)
  | helperShutdown
  | openSessions
  | invalidate (key : ℕ)
  | clock (now : ℤ)
  | starting (flag : Bool)

def Event.run (env : Env) (fuel : ℕ) (c : Client) : Event → Option Client
  | .helperSubmit => c.helperSubmit env fuel (Client.notify env fuel)
  | .read i data => c.read env fuel i data
  | .requestTimeout i => c.requestTimeout env fuel i
  | .helperServerClosed i => c.helperServerClosed env fuel i
  | .helperShutdown => c.helperShutdown env fuel
  | .openSessions => c.openSessions env fuel (Client.notify env fuel)
  | .invalidate key => some { c with invalid := key :: c.invalid }
  | .clock now => some { c with now := now }
  | .starting flag => some { c with starting := flag }

def runEvents (env : Env) (fuel : ℕ) : List Event → Client → Option Client
  | [], c => some c
  | e :: events, c => (e.run env fuel c).bind (runEvents env fuel events)

end Helper
