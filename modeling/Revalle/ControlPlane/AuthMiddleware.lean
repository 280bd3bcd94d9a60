import Mathlib

/-!
# Routes that need a token

The routes of the control plane that need a token list `AuthMiddleware` before their
handler. The middleware lets some requests pass without one, by their `req.path`: health
checks, and the registration and heartbeats of nodes. In a router that is mounted at
`/api/nodes`, however, `req.path` is the path after the mount point. So

* the paths of registrations and heartbeats that the middleware knows are not the paths it
  sees there, and it lets none of them pass (their routes do not list it either);
* the path of the node that is called `health` is `/health` there, and all routes `/:id`
  can be used for this node without a token.

These are the only requests of a protected route that need no token (`protected_handlers`).
Which route a request is dispatched to is for Express to say, of which we only assume that
the route is one of the router and that its path is the one of the request (`Express`).
-/

namespace ControlPlane.AuthMiddleware

/-! ## Requests and routes

Paths, without a query, are lists of characters as they are in the request. -/

abbrev Text := List Char

inductive Method
  | get
  | head
  | post
  | put
  | delete
  | other (name : String)
  deriving DecidableEq, Repr

structure Request where
  method : Method
  path : Text
  /-- the `Authorization` header -/
  authorization : Option Text
  deriving DecidableEq, Repr

/-- A segment of the path of a route: a word, or a parameter such as `:id`. -/
inductive Segment
  | word (w : String)
  | param
  deriving DecidableEq, Repr

structure Route where
  method : Method
  path : List Segment
  /-- whether `AuthMiddleware` stands before the handler -/
  auth : Bool
  deriving DecidableEq, Repr

/-- Words are compared without regard to case; a parameter is not empty. -/
def Segment.accepts (text : Text) : Segment → Bool
  | .word w => text.map Char.toLower = w.toList
  | .param => text ≠ []

/-- The values of the parameters, if a path is one of the route: the segments after their
slashes, and possibly one more slash. -/
def matchPath : List Segment → Text → Option (List Text)
  | [], path => if path = [] ∨ path = ['/'] then some [] else none
  | segment :: segments, '/' :: path =>
    if segment.accepts (path.takeWhile (· ≠ '/')) then
      (matchPath segments (path.dropWhile (· ≠ '/'))).map (fun params =>
        match segment with
        | .word _ => params
        | .param => path.takeWhile (· ≠ '/') :: params)
    else none
  | _ :: _, _ => none

/-- **What is assumed of Express**: the path that a request has in a router that is mounted
somewhere, and the route of a router that it is dispatched to. -/
structure Express where
  mountedPath : String → Text → Option Text
  dispatch : List Route → Method → Text → Option Route
  sound {routes : List Route} {method : Method} {path : Text} {route : Route}
    (h : dispatch routes method path = some route) :
    route ∈ routes ∧ matchPath route.path path ≠ none

/-- A route for `GET` is one for `HEAD` too. -/
def Route.handles (route : Route) (method : Method) : Bool :=
  route.method = method || (method = .head && route.method = .get)

/-- The first route for the method with the path. `decodes` says whether `decodeURIComponent`
takes the text of a parameter; the request fails if it does not. -/
def dispatch (decodes : Text → Bool) (routes : List Route) (method : Method) (path : Text) :
    Option Route :=
  routes.find? (fun route => route.handles method &&
    match matchPath route.path path with
    | none => false
    | some params => params.all decodes)

/-- The path in a router that is mounted at `mount`: what is left after the mount point and
one more slash, if that is followed by another or is the last. -/
def mountedPath (mount : String) (path : Text) : Option Text :=
  if mount.toList.isPrefixOf (path.map Char.toLower) then
    match path.drop mount.length with
    | [] => some ['/']
    | ['/'] => some ['/']
    | '/' :: '/' :: rest => some ('/' :: rest)
    | '/' :: rest => some ('/' :: rest)
    | _ => none
  else none

/-- A router as Express documents it. -/
def Express.documented (decodes : Text → Bool) : Express where
  mountedPath := AuthMiddleware.mountedPath
  dispatch := AuthMiddleware.dispatch decodes
  sound h := by
    refine ⟨List.mem_of_find?_eq_some h, fun hnone => ?_⟩
    have := List.find?_some h
    simp [hnone] at this

/-! ## The middleware -/

def startsWith (pre path : Text) : Bool := pre.isPrefixOf path

def includes (part path : Text) : Bool := path.tails.any part.isPrefixOf

/-- `text.replace(part, new)`: the first occurrence. -/
def replaceFirst (part new : Text) : Text → Text
  | [] => if part = [] then new else []
  | c :: text =>
    if part.isPrefixOf (c :: text) then new ++ (c :: text).drop part.length
    else c :: replaceFirst part new text

/-- What passes without a token. -/
def bypasses (path : Text) : Bool :=
  path = "/health".toList || startsWith "/api/nodes/register".toList path ||
    startsWith "/api/nodes/".toList path && includes "/heartbeat".toList path

inductive Answer
  | next
  | unauthorized (error : String)
  deriving DecidableEq, Repr

/-- `authMiddleware`. `verify` is `jwt.verify` with the configured secret. -/
def authMiddleware (verify : Text → Bool) (path : Text) (authorization : Option Text) : Answer :=
  if bypasses path then .next
  else
    match authorization.map (replaceFirst "Bearer ".toList []) with
    | none => .unauthorized "No token provided"
    | some token =>
      if token = [] then .unauthorized "No token provided"
      else if verify token then .next
      else .unauthorized "Invalid token"

/-- Whether the handler of the route a request is dispatched to runs, where `path` is
`req.path` in its router. -/
def runsHandler (verify : Text → Bool) (route : Route) (path : Text) (req : Request) : Bool :=
  !route.auth || authMiddleware verify path req.authorization = .next

/-! ## The routes -/

def nodesMount : String := "/api/nodes"

/-- The routes of `nodes.js`. -/
def nodesRouter : List Route :=
  [⟨.post, [.word "register"], false⟩,
    ⟨.get, [], true⟩,
    ⟨.get, [.param], true⟩,
    ⟨.put, [.param], true⟩,
    ⟨.delete, [.param], true⟩,
    ⟨.post, [.param, .word "heartbeat"], false⟩,
    ⟨.get, [.param, .word "metrics"], true⟩,
    ⟨.get, [.param, .word "stats"], true⟩]

/-- The routes of `server.js` that list the middleware. What stands before them can only
take a request away from them. -/
def serverRoutes : List Route :=
  [⟨.get, [.word "api", .word "load-balancer", .word "stats"], true⟩,
    ⟨.get, [.word "api", .word "metrics", .word "overview"], true⟩,
    ⟨.get, [.word "api", .word "metrics", .word "nodes", .param], true⟩,
    ⟨.get, [.word "api", .word "stats", .word "overview"], true⟩]

/-! ## Who needs no token -/

/-- The header carries a token that is accepted. -/
def CarriesToken (verify : Text → Bool) (req : Request) : Prop :=
  ∃ header, req.authorization = some header ∧ replaceFirst "Bearer ".toList [] header ≠ [] ∧
    verify (replaceFirst "Bearer ".toList [] header) = true

theorem authMiddleware_next_iff (verify : Text → Bool) (path : Text) (req : Request) :
    authMiddleware verify path req.authorization = .next ↔
      bypasses path = true ∨ CarriesToken verify req := by
  unfold authMiddleware CarriesToken
  by_cases hpass : bypasses path = true
  · simp [hpass]
  · cases req.authorization with
    | none => simp [hpass]
    | some header =>
      simp only [Option.map_some, hpass, Bool.false_eq_true, false_or, Option.some.injEq,
        exists_eq_left']
      generalize replaceFirst "Bearer ".toList [] header = token
      by_cases htoken : token = []
      · simp [htoken]
      · by_cases hverify : verify token = true
        · simp [htoken, hverify]
        · simp [htoken, hverify]

variable {route : Route}

theorem runsHandler_iff (hauth : route.auth = true) (verify : Text → Bool) (path : Text)
    (req : Request) : runsHandler verify route path req = true ↔
      bypasses path = true ∨ CarriesToken verify req := by
  rw [← authMiddleware_next_iff]
  simp [runsHandler, hauth]

/-- A path that passes is `/health`, or one under `/api/nodes/`. -/
theorem bypasses_cases {path : Text} (h : bypasses path = true) :
    path = "/health".toList ∨ ∃ rest, path = "/api/nodes/".toList ++ rest := by
  simp only [bypasses, startsWith, Bool.or_eq_true, Bool.and_eq_true, decide_eq_true_eq,
    List.isPrefixOf_iff_prefix] at h
  rcases h with (h | ⟨rest, h⟩) | ⟨⟨rest, h⟩, -⟩
  · exact .inl h
  · exact .inr ⟨"register".toList ++ rest, h.symm⟩
  · exact .inr ⟨rest, h.symm⟩

/-- **In the router of the nodes** there is no protected path under `/api/nodes/`: a path of
three segments is of no route, and the second of two would have to be a word. -/
theorem nodesRouter_not_under (hroute : route ∈ nodesRouter) (hauth : route.auth = true)
    (rest : Text) :
    matchPath route.path ("/api/nodes/".toList ++ rest) = none := by
  simp only [nodesRouter, List.mem_cons, List.not_mem_nil, or_false] at hroute
  rcases hroute with rfl | rfl | rfl | rfl | rfl | rfl | rfl | rfl
  · exact nomatch hauth
  · rfl
  · rfl
  · rfl
  · rfl
  · exact nomatch hauth
  · rfl
  · rfl

/-- **In `server.js`** no protected path is `/health` or one under `/api/nodes/`. -/
theorem serverRoutes_not_bypassed (hroute : route ∈ serverRoutes) :
    matchPath route.path "/health".toList = none ∧
      ∀ rest, matchPath route.path ("/api/nodes/".toList ++ rest) = none := by
  simp only [serverRoutes, List.mem_cons, List.not_mem_nil, or_false] at hroute
  rcases hroute with rfl | rfl | rfl | rfl <;> exact ⟨rfl, fun _ => rfl⟩

/-- **When the handler of a protected route runs.** In the router of the nodes: if the
request carries a token that is accepted, or if its path there is `/health`. In
`server.js`: only with a token. -/
theorem protected_handlers (express : Express) (verify : Text → Bool) (req : Request) :
    (∀ path route, express.mountedPath nodesMount req.path = some path →
      express.dispatch nodesRouter req.method path = some route → route.auth = true →
      (runsHandler verify route path req = true ↔
        CarriesToken verify req ∨ path = "/health".toList)) ∧
    ∀ route, express.dispatch serverRoutes req.method req.path = some route →
      route.auth = true →
      (runsHandler verify route req.path req = true ↔ CarriesToken verify req) := by
  constructor
  · intro path route _ hdispatch hauth
    obtain ⟨hmem, hmatch⟩ := express.sound hdispatch
    rw [runsHandler_iff hauth]
    constructor
    · rintro (hpass | htoken)
      · rcases bypasses_cases hpass with hhealth | ⟨rest, rfl⟩
        · exact .inr hhealth
        · exact absurd (nodesRouter_not_under hmem hauth rest) hmatch
      · exact .inl htoken
    · rintro (htoken | rfl)
      · exact .inr htoken
      · exact .inl (by decide)
  · intro route hdispatch hauth
    obtain ⟨hmem, hmatch⟩ := express.sound hdispatch
    obtain ⟨hhealth, hunder⟩ := serverRoutes_not_bypassed hmem
    rw [runsHandler_iff hauth]
    constructor
    · rintro (hpass | htoken)
      · rcases bypasses_cases hpass with hpath | ⟨rest, hpath⟩
        · exact absurd (hpath ▸ hhealth) hmatch
        · exact absurd (hpath ▸ hunder rest) hmatch
      · exact htoken
    · exact .inr

/-- A request without a header is turned away. -/
theorem protected_handlers_node :
    runsHandler (fun _ => true) ⟨.get, [.param], true⟩ "/n1".toList
      ⟨.get, "/api/nodes/n1".toList, none⟩ = false := by
  refine Bool.eq_false_iff.mpr (fun h => ?_)
  rcases ((protected_handlers (.documented fun _ => true) (fun _ => true)
      ⟨.get, "/api/nodes/n1".toList, none⟩).1 "/n1".toList ⟨.get, [.param], true⟩
      (by decide) (by decide) rfl).mp h with ⟨header, hheader, -⟩ | hhealth
  · exact nomatch hheader
  · exact nomatch hhealth

/-- **The node that is called `health`** is deleted by a request without a token, even if no
token is accepted. -/
theorem health_needs_no_token :
    (Express.documented fun _ => true).mountedPath nodesMount "/api/nodes/health".toList =
        some "/health".toList ∧
      (Express.documented fun _ => true).dispatch nodesRouter .delete "/health".toList =
        some ⟨.delete, [.param], true⟩ ∧
      runsHandler (fun _ => false) ⟨.delete, [.param], true⟩ "/health".toList
        ⟨.delete, "/api/nodes/health".toList, none⟩ = true := by
  decide

end ControlPlane.AuthMiddleware
