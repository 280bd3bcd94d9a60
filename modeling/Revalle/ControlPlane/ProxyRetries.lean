import Mathlib

/-!
# Forwarding a request

`forwardHTTP` tries again when an attempt throws. What it does after a response is part
of the attempt, and there it calls `inc` and `observe`, which the module of the metrics
does not export. So every response is followed by an exception and by the next attempt,
and no call resolves (`forwards_iff`).
-/

namespace ControlPlane.ProxyTunnel

open List

/-- What `prometheusMetrics.js` exports, with the client library or without. -/
def metricsExports : List String :=
  ["register", "httpRequestCounter", "httpRequestDuration", "proxyNodesGauge",
    "proxyActiveConnections", "proxyErrorsCounter", "proxyBytesTransferred",
    "proxyRequestsCounter", "proxyLatencyHistogram", "nodeCpuGauge", "nodeMemoryGauge",
    "nodeDiskGauge", "nodeLoadGauge", "cacheHitRatioGauge", "healthyNodesGauge", "alertsGauge",
    "usersGauge"]

/-- A call of a function of the metrics. -/
def metrics (name : String) : Except String Unit :=
  if name ∈ metricsExports then .ok () else .error ("metrics." ++ name ++ " is not a function")

/-- What a proxy node answers: so many chunks, and a complete response or an error. -/
structure Upstream (R : Type) where
  chunks : ℕ
  outcome : Except String R

/-- What becomes of a promise. -/
inductive Settled (R : Type)
  | resolved (r : R)
  | rejected (e : String)
  | pending

/-- What an attempt of `forwardHTTP` meets. -/
structure Attempt (R : Type) where
  /-- the answer of the load balancer, with a node or without -/
  node : Except String (Option String)
  upstream : Upstream R
  /-- whether the exchange still ends after its handler of `data` has thrown -/
  goesOn : Bool

/-- The totals of `connectionStats`, with the requests that were sent. -/
structure Stats (R : Type) where
  totalRequests : ℕ
  totalErrors : ℕ
  sent : List (Upstream R)

variable {R : Type} (body : Bool)

/-- `_makeHTTPRequest`. With a body, the metrics are called before anything is sent. -/
def makeHTTPRequest (a : Attempt R) (s : Stats R) : Settled R × Stats R :=
  match if body then metrics "inc" else .ok () with
  | .error e => (.rejected e, s)
  | .ok _ =>
    let s := { s with sent := s.sent ++ [a.upstream] }
    match if a.upstream.chunks = 0 then .ok () else metrics "inc", a.goesOn with
    | .error _, false => (.pending, s)
    | _, _ =>
      match a.upstream.outcome with
      | .error e => (.rejected e, s)
      | .ok r => (.resolved r, s)

/-- What `forwardHTTP` tries. The bookkeeping after a response is a part of it. -/
def attempt (a : Attempt R) (s : Stats R) : Settled R × Stats R :=
  match a.node with
  | .error e => (.rejected e, s)
  | .ok none => (.rejected "No available proxy nodes", s)
  | .ok (some _) =>
    match makeHTTPRequest body a s with
    | (.resolved r, s) =>
      let s := { s with totalRequests := s.totalRequests + 1 }
      match do metrics "inc"; metrics "observe" with
      | .error e => (.rejected e, s)
      | .ok _ => (.resolved r, s)
    | x => x

/-- The loop of `forwardHTTP`, with these attempts left. -/
def forward : List (Attempt R) → String → Stats R → Settled R × Stats R
  | [], lastError, s =>
    let s := { s with totalErrors := s.totalErrors + 1 }
    match metrics "inc" with
    | .error e => (.rejected e, s)
    | .ok _ => (.rejected lastError, s)
  | a :: attempts, _, s =>
    match attempt body a s with
    | (.rejected e, s) => forward attempts e s
    | x => x

/-- `forwardHTTP`, with one of `attempts` for each of `options.retries`. -/
def forwardHTTP (attempts : List (Attempt R)) (requests errors : ℕ) : Settled R × Stats R :=
  forward body attempts "null" ⟨requests, errors, []⟩

/-- **What forwarding is to do**, from totals of `requests` and `errors`. -/
structure Forwards (retries requests errors : ℕ) (x : Settled R × Stats R) : Prop where
  length_le : x.2.sent.length ≤ retries
  answered : ∀ l u l', x.2.sent = l ++ u :: l' → ∀ r, u.outcome = .ok r →
    l' = [] ∧ x.1 = .resolved r
  resolved : ∀ r, x.1 = .resolved r → (∃ u ∈ x.2.sent, u.outcome = .ok r) ∧
    x.2.totalRequests = requests + 1 ∧ x.2.totalErrors = errors
  rejected : ∀ e, x.1 = .rejected e → (∀ u ∈ x.2.sent, ∃ e, u.outcome = .error e) ∧
    x.2.totalRequests = requests ∧ x.2.totalErrors = errors + 1

/-- The attempt sends a request. -/
def Attempt.sends (a : Attempt R) : Bool := !body && a.node matches .ok (some _)

/-- The exchange comes to an end. -/
def Attempt.ends (a : Attempt R) : Bool := a.upstream.chunks = 0 || a.goesOn

/-- The requests that a call sends, up to one whose exchange does not end. -/
def reached : List (Attempt R) → List (Upstream R)
  | [] => []
  | a :: attempts =>
    if a.sends body then a.upstream :: if a.ends then reached attempts else [] else reached attempts

theorem metrics_inc : metrics "inc" = .error "metrics.inc is not a function" := by decide +kernel

/-- **What an attempt can do**: it never resolves. -/
theorem attempt_cases (a : Attempt R) (s : Stats R) :
    (¬a.sends body ∧ ∃ e, attempt body a s = (.rejected e, s)) ∨
    a.sends body ∧ ∃ k, ((∃ e, a.upstream.outcome = .error e) → k = 0) ∧
      let s' := ⟨s.totalRequests + k, s.totalErrors, s.sent ++ [a.upstream]⟩
      (a.ends ∧ (∃ e, attempt body a s = (.rejected e, s')) ∨
        ¬a.ends ∧ attempt body a s = (.pending, s')) := by
  unfold attempt makeHTTPRequest Attempt.sends Attempt.ends
  rw [metrics_inc]
  cases a.node with
  | error e => simp
  | ok node =>
    cases node with
    | none => simp
    | some node =>
      cases body with
      | true => simp
      | false =>
        refine .inr ⟨rfl, ?_⟩
        by_cases hchunks : a.upstream.chunks = 0 <;> cases a.goesOn <;>
          cases a.upstream.outcome <;> simp [hchunks, bind, Except.bind]

theorem length_reached (attempts : List (Attempt R)) :
    (reached body attempts).length ≤ attempts.length := by
  induction attempts with
  | nil => exact le_rfl
  | cons a attempts ih =>
    rw [reached]
    split_ifs <;> simp <;> omega

/-- **What a call can do**: it sends the requests that it comes to, and never resolves. -/
theorem forward_cases (attempts : List (Attempt R)) (lastError : String) (s : Stats R) :
    ∃ x k m, forward body attempts lastError s = (x, ⟨s.totalRequests + k, s.totalErrors + m,
        s.sent ++ reached body attempts⟩) ∧
      (∀ r, x ≠ .resolved r) ∧ (∀ e, x = .rejected e → m = 1) ∧
      ((∀ u ∈ reached body attempts, ∃ e, u.outcome = .error e) → k = 0) := by
  induction attempts generalizing lastError s with
  | nil =>
    exact ⟨.rejected "metrics.inc is not a function", 0, 1, by simp [forward, metrics_inc, reached],
      nofun, fun _ _ => rfl, fun _ => rfl⟩
  | cons a attempts ih =>
    rw [forward, reached]
    obtain ⟨ha, e, h⟩ | ⟨ha, k, hk, ⟨hends, e, h⟩ | ⟨hends, h⟩⟩ := attempt_cases body a s
    · rw [h, if_neg ha]
      exact ih e s
    · obtain ⟨x, k', m, hx, hres, hrej, hk'⟩ := ih e
        ⟨s.totalRequests + k, s.totalErrors, s.sent ++ [a.upstream]⟩
      rw [h, if_pos ha, if_pos hends]
      refine ⟨x, k + k', m, by simpa [add_assoc] using hx, hres, hrej, fun herr => ?_⟩
      rw [hk (herr _ mem_cons_self), hk' fun u hu => herr u (mem_cons_of_mem _ hu)]
    · rw [h, if_pos ha, if_neg hends]
      exact ⟨.pending, k, 0, rfl, nofun, nofun, fun herr => hk (herr _ mem_cons_self)⟩

/-- **Forwarding does what it is to do** exactly when no request that it comes to is
answered by a complete response: a response never ends a call. -/
theorem forwards_iff (attempts : List (Attempt R)) (requests errors : ℕ) :
    Forwards attempts.length requests errors (forwardHTTP body attempts requests errors) ↔
      ∀ u ∈ reached body attempts, ∃ e, u.outcome = .error e := by
  obtain ⟨x, k, m, hx, hres, hrej, hk⟩ :=
    forward_cases body attempts "null" ⟨requests, errors, []⟩
  rw [forwardHTTP, hx]
  constructor
  · intro h u hu
    cases houtcome : u.outcome with
    | error e => exact ⟨e, rfl⟩
    | ok r =>
      obtain ⟨l, l', hl⟩ := append_of_mem hu
      exact absurd (h.answered l u l' hl r houtcome).2 (hres r)
  · intro herr
    refine ⟨length_reached body attempts, fun l u l' hl r hr => ?_,
      fun r hr => absurd hr (hres r), fun e he => ⟨herr, ?_, ?_⟩⟩
    · have hl : reached body attempts = l ++ u :: l' := hl
      obtain ⟨e, he⟩ := herr u (by simp [hl])
      cases he.symm.trans hr
    · rw [hk herr, add_zero]
    · rw [hrej e he]

/-- Three nodes answer, and the call is rejected after three requests. -/
theorem not_forwards_answered : ¬Forwards 3 0 0
    (forwardHTTP false (replicate 3 ⟨.ok (some "node"), ⟨0, .ok 200⟩, true⟩) 0 0) :=
  fun h => by cases (h.answered [] _ _ rfl 200 rfl).2

end ControlPlane.ProxyTunnel
