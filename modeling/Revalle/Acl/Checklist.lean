import Revalle.Data.Checked

/-!
# Access control checks

An access list is a tree of boolean operators over tests of a transaction.
`ACLChecklist` evaluates it with short circuits, and a test may need an
answer from outside – a DNS lookup, an authentication helper. Then the check
*goes async*: the whole recursion of `doMatch` calls is unwound, leaving a
stack of breadcrumbs that says which child of which node was being matched,
and when the answer is there the recursion is entered again along the
breadcrumbs.

A node is known by its place in the tree, the list of positions that lead to
it from the root, last position first. The tests themselves are not
modelled: `World` says what each of them answers, and whether it starts a
lookup before that. A test starts its lookup once; the list of lookups that
were started is part of the state, although not of `ACLChecklist`.
-/

namespace Acl

/-- `aclMatchCode`. -/
inductive MatchCode where
  | accessDenied
  | accessAllowed
  | accessDunno
  | accessAuthRequired
deriving DecidableEq, Repr

/-- The answer of a check. -/
structure Answer where
  code : MatchCode
  /-- The matched custom access list verb, or zero. -/
  kind : ℤ
  /-- Whether no explicit rule has matched. -/
  implicit : Bool
  /-- The name of the node that was evaluated last. -/
  lastCheckedName : Option String
deriving DecidableEq, Repr

/-- An answer with the defaults of the source. -/
def Answer.ofCode (code : MatchCode) : Answer := ⟨code, 0, false, none⟩

/-- `operator ==`. -/
def Answer.same (a b : Answer) : Bool := a.code = b.code ∧ a.kind = b.kind

/-- **A node of an access list.** The operands are in evaluation order. -/
inductive Node where
  /-- A test. -/
  | leaf (name : String)
  | not (name : String) (node : Node)
  | and (name : String) (nodes : List Node)
  /-- An `OrNode`, or a `Tree` if there are actions. -/
  | or (name : String) (actions : List Answer) (nodes : List Node)

def Node.name : Node → String
  | leaf name | not name _ | and name _ | or name _ _ => name

mutual

/-- **Either all rules of a node have actions or none**, which `Tree::add`
makes sure of. -/
def Node.Valid : Node → Prop
  | .leaf _ => True
  | .not _ node => node.Valid
  | .and _ nodes => Node.AllValid nodes
  | .or _ actions nodes => (actions = [] ∨ actions.length = nodes.length) ∧ Node.AllValid nodes

def Node.AllValid : List Node → Prop
  | [] => True
  | node :: nodes => node.Valid ∧ Node.AllValid nodes

end

/-- The place of a node in the tree. -/
abbrev Path := List ℕ

/-- The node that is reached by the given positions, first position first. -/
def Node.find : Node → List ℕ → Option Node
  | node, [] => some node
  | .leaf _, _ :: _ => none
  | .not _ node, i :: path => if i = 0 then node.find path else none
  | .and _ nodes, i :: path | .or _ _ nodes, i :: path => (nodes[i]?).bind fun node =>
    node.find path

/-- The position of a child node within the tree. -/
structure Breadcrumb where
  parent : Path
  position : ℕ
deriving DecidableEq, Repr

inductive AsyncStage where
  | asyncNone
  | asyncStarting
  | asyncRunning
  | asyncFailed
deriving DecidableEq, Repr

/-- What a test does when it is evaluated for the first time. -/
inductive Lookup where
  /-- It answers. -/
  | immediate
  /-- It calls `goAsync`, and answers when it is evaluated again. -/
  | async
  /-- It calls `goAsync`, but the lookup is over before it has begun. -/
  | failed
deriving DecidableEq, Repr

/-- What is outside of the checklist. -/
structure World where
  /-- Whether a test matches. -/
  answer : Path → Bool
  lookup : Path → Lookup
  bannedActions : List Answer

/-- **The state of a check.** -/
structure Checklist where
  /-- The suspended `matches` calls. -/
  matchPath : List Breadcrumb
  /-- The location of the node running `matches` now. -/
  matchLoc : Option Breadcrumb
  /-- The location that called `goAsync`. -/
  asyncLoc : Option Breadcrumb
  asyncLoopDepth : ℕ
  asyncStage : AsyncStage
  asyncCaller : Bool
  occupied : Bool
  finished : Bool
  answer : Answer
  lastCheckedName : Option String
  /-- The position of the child that matched, for every `OrNode`. -/
  lastMatch : Path → ℕ
  /-- The lookups that were started. -/
  started : List Path
  /-- The answers that the callback has received. -/
  callbacks : List Answer

namespace Checklist

open Checked

/-- The constructor. -/
def new : Checklist :=
  ⟨[], none, none, 0, .asyncNone, false, false, false, .ofCode .accessDenied,
    none, fun _ => 0, [], []⟩

/-- An asynchronous lookup has been started and has not finished. -/
def asyncInProgress (c : Checklist) : Bool := c.asyncStage ≠ .asyncNone

/-- Whether we should continue to match tree nodes or stop. -/
def keepMatching (c : Checklist) : Bool := !c.finished && !c.asyncInProgress

end Checklist

open Checked

/-- Set the final answer. -/
def markFinished (finalAnswer : Answer) : Checked Checklist Unit := do
  require ((← get).finished = false ∧ (← get).asyncInProgress = false)
  modify fun c => { c with
    finished := true
    answer := { finalAnswer with lastCheckedName := c.lastCheckedName } }

/-- The first branch of `resumeNonBlockingCheck`: the lookup is over before
`goAsync` has returned. -/
def resumeStarting : Checked Checklist Bool := do
  if (← get).asyncStage = .asyncStarting then
    modify fun c => { c with asyncStage := .asyncFailed }
    return true
  return false

/-- Switch into the state of waiting for a lookup, which the starter is
supposed to begin. -/
def goAsync (starter : Checked Checklist Unit) : Checked Checklist Bool := do
  let c ← get
  require (c.asyncInProgress = false)
  require c.matchLoc.isSome
  if c.asyncCaller = false then
    return false
  -- allow some retries
  if c.matchLoc = c.asyncLoc ∧ c.asyncLoopDepth > 5 then
    return false
  modify fun c => { c with
    asyncLoc := c.matchLoc
    asyncLoopDepth := c.asyncLoopDepth + 1
    asyncStage := .asyncStarting }
  starter
  if (← get).asyncStage ≠ .asyncStarting then
    require ((← get).asyncStage = .asyncFailed)
    modify fun c => { c with asyncStage := .asyncNone }
    return false
  modify fun c => { c with asyncStage := .asyncRunning }
  return true

/-- **Match a child node, or resume matching it**, while maintaining the
breadcrumbs. -/
def matchChild (current : Path) (pos : ℕ) (matchesChild : Checked Checklist Bool)
    (resumeChildAt : ℕ → Checked Checklist Bool) : Checked Checklist Bool := do
  modify fun c => { c with matchLoc := some ⟨current, pos⟩, asyncLoopDepth := 0 }
  let result ← match (← get).matchPath with
    | [] => matchesChild
    | top :: path => do
      require (pos :: current = top.parent)
      modify fun c => { c with matchPath := path }
      resumeChildAt top.position
  modify fun c =>
    if c.asyncInProgress then { c with matchPath := ⟨current, pos⟩ :: c.matchPath }
    else { c with asyncLoc := none }
  modify fun c => { c with matchLoc := none }
  return result

section

variable (w : World)

/-- Whether the action is banned. -/
def bannedAction (action : Answer) : Bool := w.bannedActions.any (·.same action)

/-- `Tree::bannedAction`, which for an `OrNode` is false. -/
def bannedRule (actions : List Answer) (size pos : ℕ) : Checked Checklist Bool := do
  if actions.isEmpty then
    return false
  require (actions.length = size)
  match actions[pos]? with
  | some action => return bannedAction w action
  | none => failure

/-- What a test does. -/
def matchLeaf (at' : Path) : Checked Checklist ℤ := do
  let pending := !((← get).started.contains at')
  if pending ∧ w.lookup at' ≠ .immediate then
    modify fun c => { c with started := at' :: c.started }
    let starter := if w.lookup at' = .failed then discard resumeStarting else pure ()
    if ← goAsync starter then
      return -1
  return if w.answer at' then 1 else 0

/-- `Acl::Node::matches`, around the `match` method of the node. -/
def matchesBy (name : String) (doMatch : Checked Checklist ℤ) : Checked Checklist Bool := do
  modify fun c => { c with lastCheckedName := some name }
  return (← doMatch) = 1

/-- `InnerNode::resumeMatchingAt`, around the `doMatch` method of the node. -/
def resumeBy (doMatch : Checked Checklist ℤ) : Checked Checklist Bool := return (← doMatch) = 1

mutual

/-- **The `match` method of a test and the `doMatch` methods of the other
nodes**, starting with the given child. -/
def doMatch : Node → Path → ℕ → Checked Checklist ℤ
  | .leaf _, at', _ => matchLeaf w at'
  | .not _ node, at', start => do
    require (start = 0)
    if ← matchChild at' start (matchesBy node.name (doMatch node (start :: at') 0))
        (fun pos => resumeBy (doMatch node (start :: at') pos)) then
      return 0
    if !(← get).keepMatching then
      return -1
    return 1
  | .and _ nodes, at', start => andLoop nodes at' 0 start
  | .or _ actions nodes, at', start => do
    modify fun c => { c with lastMatch := Function.update c.lastMatch at' nodes.length }
    orLoop nodes at' (bannedRule w actions nodes.length) 0 start

/-- The loop of `AndNode::doMatch`, at position `i`. -/
def andLoop : List Node → Path → ℕ → ℕ → Checked Checklist ℤ
  | [], _, _, _ => return 1
  | node :: nodes, at', i, start =>
    if i < start then andLoop nodes at' (i + 1) start
    else do
      if !(← matchChild at' i (matchesBy node.name (doMatch node (i :: at') 0))
          (fun pos => resumeBy (doMatch node (i :: at') pos))) then
        return if (← get).keepMatching then 0 else -1
      andLoop nodes at' (i + 1) start

/-- The loop of `OrNode::doMatch`, at position `i`. -/
def orLoop : List Node → Path → (ℕ → Checked Checklist Bool) → ℕ → ℕ → Checked Checklist ℤ
  | [], _, _, _, _ => return 0
  | node :: nodes, at', banned, i, start =>
    if i < start then orLoop nodes at' banned (i + 1) start
    else do
      if ← banned i then
        orLoop nodes at' banned (i + 1) start
      else if ← matchChild at' i (matchesBy node.name (doMatch node (i :: at') 0))
          (fun pos => resumeBy (doMatch node (i :: at') pos)) then
        modify fun c => { c with lastMatch := Function.update c.lastMatch at' i }
        return 1
      else if !(← get).keepMatching then
        return -1
      else
        orLoop nodes at' banned (i + 1) start

end

/-! ## Checks -/

/-- **An access list**: the rules and either no actions or one for each. -/
structure AccessList where
  name : String
  actions : List Answer
  nodes : List Node
  valid : (Node.or name actions nodes).Valid

namespace AccessList

/-- The access list as a node. -/
def root (list : AccessList) : Node := .or list.name list.actions list.nodes

/-- The action of the rule that has matched. -/
def winningAction (list : AccessList) : Checked Checklist Answer := do
  let pos := (← get).lastMatch []
  require (pos < list.nodes.length)
  if list.actions.isEmpty then
    return .ofCode .accessAllowed
  require (list.actions.length = list.nodes.length)
  match list.actions[pos]? with
  | some action => return action
  | none => failure

/-- What action to use if no nodes matched. -/
def lastAction (list : AccessList) : Answer := list.actions.getLast?.getD (.ofCode .accessDunno)

end AccessList

/-- The inversion of the last rule action. -/
def implicitAnswer (lastAction : Answer) : Answer :=
  { Answer.ofCode
      (match lastAction.code with
        | .accessDenied => .accessAllowed
        | .accessAllowed => .accessDenied
        | _ => .accessDunno) with implicit := true }

/-- Perform or resume a match and, if it is successful, set the action. -/
def matchAndFinish (list : AccessList) : Checked Checklist Unit := do
  let result ← match (← get).matchPath with
    | [] => matchesBy list.name (doMatch w list.root [] 0)
    | top :: path => do
      modify fun c => { c with matchPath := path }
      match list.root.find top.parent.reverse with
      | some node => resumeBy (doMatch w node top.parent top.position)
      | none => failure
  if result then
    markFinished (← list.winningAction)

/-- Call the callback with the answer, and be gone. -/
def checkCallback : Checked Checklist Unit := do
  require (← get).finished
  modify fun c => { c with callbacks := c.callbacks ++ [c.answer], occupied := false }
  -- the destructor
  require ((← get).asyncInProgress = false)

def completeNonBlocking (lastAction : Answer) : Checked Checklist Unit := do
  require ((← get).asyncInProgress = false)
  if (← get).finished = false then
    markFinished (implicitAnswer lastAction)
  checkCallback

/-- **Start a check.** The caller is there until it is called back. Without an
access list there is nothing to match against. -/
def nonBlockingCheck (accessList : Option AccessList) : Checked Checklist Unit := do
  require ((← get).occupied = false)
  modify fun c => { c with
    occupied := true, asyncLoopDepth := 0, lastCheckedName := none, finished := false }
  modify fun c => { c with asyncCaller := true }
  match accessList with
  | none =>
    markFinished (.ofCode .accessDunno)
    checkCallback
  | some list =>
    matchAndFinish w list
    if (← get).asyncInProgress = false then
      completeNonBlocking list.lastAction

/-- **Resume a check** that was suspended until a lookup was over. -/
def resumeNonBlockingCheck (list : AccessList) : Checked Checklist Unit := do
  if ← resumeStarting then
    return ()
  require ((← get).asyncStage = .asyncRunning)
  modify fun c => { c with asyncStage := .asyncNone }
  require ((← get).matchPath ≠ [])
  if (← get).finished = false then
    matchAndFinish w list
  if (← get).asyncInProgress then
    require ((← get).matchPath ≠ [])
  else
    completeNonBlocking list.lastAction

end

end Acl
