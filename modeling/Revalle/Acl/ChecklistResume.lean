import Revalle.Acl.Checklist

/-!
# Suspending a check does not change its answer

A check that needs answers from outside is taken apart and put together
again at every lookup. The answer should be that of a check that has all
answers at hand: `plain` evaluates a node that way, with the same short
circuits, and `plainAnswer` is what becomes of the list.

What makes a suspended check resumable is said by `Suspended`: the
breadcrumbs lead down to the test that is being looked up, and at each node
on the way the children they skip are those that plain evaluation has gone
past. The specification of `doMatch` (`doMatch_spec`) has one precondition
for both ways in, from the beginning and along breadcrumbs, and two ways
out: with the result of plain evaluation and no breadcrumbs, or suspended.

A test starts its lookup once, so a check waits at most as often as it has
tests (`Waiting.length_le`), and then it calls back (`check_answers_once`).
-/

namespace Acl

open Checked List Option

variable (w : World)

/-! ## Evaluation without lookups -/

/-- Whether the rule at a position is not to be looked at. -/
def isBanned (actions : List Answer) (i : ℕ) : Bool := (actions[i]?).any (bannedAction w)

mutual

/-- **Plain evaluation with short circuits**: whether the node matches, and the
name of the node that was evaluated last. -/
def plain : Node → Path → Bool × String
  | .leaf name, at' => (w.answer at', name)
  | .not _ node, at' => (!(plain node (0 :: at')).1, (plain node (0 :: at')).2)
  | .and name nodes, at' => plainAnd nodes at' 0 name
  | .or name actions nodes, at' =>
    ((plainOr nodes at' actions 0 name).1.isSome, (plainOr nodes at' actions 0 name).2)

/-- The nodes from position `i` on all match. -/
def plainAnd : List Node → Path → ℕ → String → Bool × String
  | [], _, _, last => (true, last)
  | node :: nodes, at', i, _ =>
    if (plain node (i :: at')).1 then plainAnd nodes at' (i + 1) (plain node (i :: at')).2
    else (false, (plain node (i :: at')).2)

/-- The first node that matches and is not banned, from position `i` on. -/
def plainOr : List Node → Path → List Answer → ℕ → String → Option ℕ × String
  | [], _, _, _, last => (none, last)
  | node :: nodes, at', actions, i, last =>
    if isBanned w actions i then plainOr nodes at' actions (i + 1) last
    else if (plain node (i :: at')).1 then (some i, (plain node (i :: at')).2)
    else plainOr nodes at' actions (i + 1) (plain node (i :: at')).2

end

/-- **The answer of plain evaluation**: the action of the first rule that
matches and is not banned, or else the inversion of the last action. -/
def plainAnswer (list : AccessList) : Answer :=
  let r := plainOr w list.nodes [] list.actions 0 list.name
  { (match r.1 with
    | some i => (list.actions[i]?).getD (.ofCode .accessAllowed)
    | none => implicitAnswer list.lastAction) with lastCheckedName := some r.2 }

/-! ## Suspended nodes -/

mutual

/-- The tests of a node. -/
def leaves : Node → Path → List Path
  | .leaf _, at' => [at']
  | .not _ node, at' => leaves node (0 :: at')
  | .and _ nodes, at' | .or _ _ nodes, at' => leavesFrom nodes at' 0

def leavesFrom : List Node → Path → ℕ → List Path
  | [], _, _ => []
  | node :: nodes, at', i => leaves node (i :: at') ++ leavesFrom nodes at' (i + 1)

end

section

variable (started : List Path)

mutual

/-- **The breadcrumbs lead from a node down to a test that is being looked
up**, and what they skip does not need to be looked at again. -/
def Suspended : Node → Path → List Breadcrumb → Prop
  | .leaf _, at', path => path = [] ∧ at' ∈ started
  | .not _ node, at', path => ∃ path', path = ⟨at', 0⟩ :: path' ∧ Suspended node (0 :: at') path'
  | .and _ nodes, at', path =>
    ∃ pos path', path = ⟨at', pos⟩ :: path' ∧ SuspendedAnd nodes at' 0 pos path'
  | .or _ actions nodes, at', path =>
    ∃ pos path', path = ⟨at', pos⟩ :: path' ∧ SuspendedOr nodes at' actions 0 pos path'

/-- The nodes before `pos` match, and the one there is suspended. -/
def SuspendedAnd : List Node → Path → ℕ → ℕ → List Breadcrumb → Prop
  | [], _, _, _, _ => False
  | node :: nodes, at', i, pos, path =>
    (i = pos ∧ Suspended node (i :: at') path)
      ∨ (i < pos ∧ (plain w node (i :: at')).1 = true ∧ SuspendedAnd nodes at' (i + 1) pos path)

/-- The nodes before `pos` are banned or do not match, and the one there is
suspended. -/
def SuspendedOr : List Node → Path → List Answer → ℕ → ℕ → List Breadcrumb → Prop
  | [], _, _, _, _, _ => False
  | node :: nodes, at', actions, i, pos, path =>
    (i = pos ∧ isBanned w actions i = false ∧ Suspended node (i :: at') path)
      ∨ (i < pos ∧ (isBanned w actions i = true ∨ (plain w node (i :: at')).1 = false)
        ∧ SuspendedOr nodes at' actions (i + 1) pos path)

end

end

variable {w}

variable {path : List Breadcrumb} {at' : Path} {started tests : List Path} {actions : List Answer}
  {c c' : Checklist} {Q : Bool → Checklist → Prop} {list : AccessList}

theorem SuspendedAnd.le {pos : ℕ} :
    ∀ {nodes : List Node} {i : ℕ}, SuspendedAnd w started nodes at' i pos path → i ≤ pos
  | [], _, h => nomatch h
  | _ :: _, _, .inl h => h.1.le
  | _ :: _, _, .inr h => h.1.le

theorem SuspendedOr.le {pos : ℕ} : ∀ {nodes : List Node} {i : ℕ},
    SuspendedOr w started nodes at' actions i pos path → i ≤ pos
  | [], _, h => nomatch h
  | _ :: _, _, .inl h => h.1.le
  | _ :: _, _, .inr h => h.1.le

/-- The first breadcrumb of a suspended node is about that node. -/
theorem Suspended.parent {node : Node} {top : Breadcrumb}
    (h : Suspended w started node at' (top :: path)) : top.parent = at' := by
  cases node with
  | leaf name => exact nomatch h.1
  | not name node =>
    obtain ⟨_, h, -⟩ := h
    rw [cons.inj h |>.1]
  | and name nodes =>
    obtain ⟨_, _, h, -⟩ := h
    rw [cons.inj h |>.1]
  | or name actions nodes =>
    obtain ⟨_, _, h, -⟩ := h
    rw [cons.inj h |>.1]

section

variable {name : String} {node : Node} {nodes : List Node} {start : ℕ}

theorem suspended_not : Suspended w started (.not name node) at' (⟨at', start⟩ :: path) ↔
    start = 0 ∧ Suspended w started node (0 :: at') path := by
  simp [Suspended]

theorem suspended_and : Suspended w started (.and name nodes) at' (⟨at', start⟩ :: path) ↔
    SuspendedAnd w started nodes at' 0 start path := by
  simp [Suspended]

theorem suspended_or : Suspended w started (.or name actions nodes) at' (⟨at', start⟩ :: path) ↔
      SuspendedOr w started nodes at' actions 0 start path := by
  simp [Suspended]

end

/-! ## What matching a node does -/

/-- Nothing is being looked up, and there is no answer. -/
structure Ready (c : Checklist) : Prop where
  asyncStage : c.asyncStage = .asyncNone
  finished : c.finished = false
  asyncCaller : c.asyncCaller = true

/-- What matching keeps, with the tests `tests`. -/
structure Keeps (tests : List Path) (c c' : Checklist) : Prop where
  finished : c'.finished = false
  asyncCaller : c'.asyncCaller = true
  callbacks : c'.callbacks = c.callbacks
  nodup : c'.started.Nodup
  started : c'.started ⊆ tests
  le : c.started.length ≤ c'.started.length

/-- No lookup is under way. -/
theorem notInProgress (h : c.asyncStage = .asyncNone) : c.asyncInProgress = false :=
  decide_eq_false (not_not_intro h)

theorem inProgress (h : c.asyncStage = .asyncRunning) : c.asyncInProgress = true :=
  decide_eq_true (by rw [h]; decide)

theorem Keeps.trans {c1 c2 c3 : Checklist} (h1 : Keeps tests c1 c2) (h2 : Keeps tests c2 c3) :
    Keeps tests c1 c3 :=
  ⟨h2.finished, h2.asyncCaller, h2.callbacks.trans h1.callbacks, h2.nodup, h2.started,
    h1.le.trans h2.le⟩

/-- **Matching has come to an end**, with the result of plain evaluation. -/
structure Done (r : Bool × String) (result : Bool) (c' : Checklist) : Prop where
  asyncStage : c'.asyncStage = .asyncNone
  matchPath : c'.matchPath = []
  result : result = r.1
  lastCheckedName : c'.lastCheckedName = some r.2

/-- **Matching was suspended** by a new lookup. -/
structure Paused (S : List Path → List Breadcrumb → Prop) (c c' : Checklist) : Prop where
  asyncStage : c'.asyncStage = .asyncRunning
  suspended : S c'.started c'.matchPath
  lt : c.started.length < c'.started.length

/-- The number that `doMatch` returns. -/
def toInt (b : Bool) : ℤ := if b then 1 else 0

/-- **What `doMatch` does**: come to an end or be suspended. -/
def Outcome (tests : List Path) (r : Bool × String) (S : List Path → List Breadcrumb → Prop)
    (c : Checklist) (v : ℤ) (c' : Checklist) : Prop :=
  Keeps tests c c' ∧ ((∃ b, v = toInt b ∧ Done r b c') ∨ (v = -1 ∧ Paused S c c'))

theorem Outcome.congr {r : Bool × String} {S : List Path → List Breadcrumb → Prop} {v : ℤ}
    {c1 : Checklist} (h : Outcome tests r S c1 v c') (hcb : c1.callbacks = c.callbacks)
    (hstarted : c1.started = c.started) : Outcome tests r S c v c' := by
  obtain ⟨hk, h⟩ := h
  refine ⟨⟨hk.finished, hk.asyncCaller, hk.callbacks.trans hcb, hk.nodup, hk.started, ?_⟩,
    h.imp id fun hp => ⟨hp.1, hp.2.asyncStage, hp.2.suspended, ?_⟩⟩
  · exact hstarted ▸ hk.le
  · exact hstarted ▸ hp.2.lt

/-- Where `doMatch` may start: with the first child of a node that is matched
for the first time, or where the breadcrumbs say. -/
def Entry (w : World) (node : Node) (at' : Path) (start : ℕ) (c : Checklist) : Prop :=
  (start = 0 ∧ c.matchPath = [] ∧ c.lastCheckedName = some node.name)
    ∨ Suspended w c.started node at' (⟨at', start⟩ :: c.matchPath)

/-- What is there when `doMatch` is called. -/
structure Start (tests : List Path) (c : Checklist) : Prop where
  ready : Ready c
  nodup : c.started.Nodup
  started : c.started ⊆ tests

theorem Start.congr {c1 : Checklist} (h : Start tests c) (h1 : c1.asyncStage = c.asyncStage)
    (h2 : c1.finished = c.finished) (h3 : c1.asyncCaller = c.asyncCaller)
    (h4 : c1.started = c.started) : Start tests c1 :=
  ⟨⟨h1.trans h.ready.asyncStage, h2.trans h.ready.finished, h3.trans h.ready.asyncCaller⟩,
    h4 ▸ h.nodup, h4 ▸ h.started⟩

theorem Start.keeps (h : Start tests c) : Keeps tests c c :=
  ⟨h.ready.finished, h.ready.asyncCaller, rfl, h.nodup, h.started, le_rfl⟩

/-- After matching has come to an end it may go on. -/
theorem Keeps.start (h : Keeps tests c c') (hstage : c'.asyncStage = .asyncNone) : Start tests c' :=
  ⟨⟨hstage, h.finished, h.asyncCaller⟩, h.nodup, h.started⟩

/-- **What `goAsync` does** for a test that has not gone async before. -/
theorem goAsync_rule {starter : Checked Checklist Unit} (hc : Ready c) (hloc : c.matchLoc.isSome)
    (hdepth : c.asyncLoopDepth = 0) (h : Ensures starter (fun _ c' =>
        if c'.asyncStage = .asyncStarting then Q true { c' with asyncStage := .asyncRunning }
        else c'.asyncStage = .asyncFailed ∧ Q false { c' with asyncStage := .asyncNone })
      { c with asyncLoc := c.matchLoc, asyncLoopDepth := 1, asyncStage := .asyncStarting }) :
    Ensures (goAsync starter) Q c := by
  unfold goAsync
  simp only [ensures_bind, ensures_get, ensures_require]
  refine ⟨notInProgress hc.asyncStage, hloc, ?_⟩
  rw [if_neg (by rw [hc.asyncCaller]; decide), if_neg (by simp [hdepth])]
  simp only [ensures_bind, ensures_modify, hdepth]
  refine h.mono fun _ c' h' => ?_
  by_cases hstage : c'.asyncStage = .asyncStarting <;>
    simpa only [hstage, ne_eq, not_true_eq_false, not_false_eq_true, if_true, if_false,
      ensures_bind, ensures_get, ensures_require, ensures_modify, ensures_pure] using h'

/-- A test answers, or starts its lookup. -/
theorem matchLeaf_spec {name : String} (hc : Start tests c) (hat : at' ∈ tests)
    (hloc : c.matchLoc.isSome) (hdepth : c.asyncLoopDepth = 0) (hpath : c.matchPath = [])
    (hname : c.lastCheckedName = some name) :
    Ensures (matchLeaf w at')
      (Outcome tests (w.answer at', name) (fun started path => path = [] ∧ at' ∈ started) c) c := by
  unfold matchLeaf
  simp only [ensures_bind, ensures_get]
  split
  case isTrue h =>
    have hnew : at' ∉ c.started := by simpa using h.1
    have hstarted : at' :: c.started ⊆ tests := cons_subset.mpr ⟨hat, hc.started⟩
    have hkeeps : ∀ c' : Checklist, c'.finished = c.finished → c'.asyncCaller = c.asyncCaller →
        c'.callbacks = c.callbacks → c'.started = at' :: c.started → Keeps tests c c' := by
      intro c' h1 h2 h3 h4
      refine ⟨h1.trans hc.ready.finished, h2.trans hc.ready.asyncCaller, h3, ?_, ?_, ?_⟩
      · rw [h4]
        exact nodup_cons.mpr ⟨hnew, hc.nodup⟩
      · rwa [h4]
      · rw [h4]
        exact Nat.le_succ _
    have hready : Ready { c with started := at' :: c.started } :=
      ⟨hc.ready.asyncStage, hc.ready.finished, hc.ready.asyncCaller⟩
    simp only [ensures_bind, ensures_modify]
    refine goAsync_rule hready hloc hdepth ?_
    split
    case isTrue hfail =>
      simp only [resumeStarting, ensures_discard, ensures_bind, ensures_get, if_true,
        ensures_modify, ensures_pure, reduceCtorEq, if_false, Bool.false_eq_true, true_and]
      exact ⟨hkeeps _ rfl rfl rfl rfl, .inl ⟨w.answer at', rfl, rfl, hpath, rfl, hname⟩⟩
    case isFalse hrun =>
      simp only [if_true, ensures_pure]
      exact ⟨hkeeps _ rfl rfl rfl rfl, .inr ⟨rfl, rfl, ⟨hpath, mem_cons_self⟩, Nat.lt_succ_self _⟩⟩
  case isFalse h =>
    simp only [ensures_pure]
    exact ⟨hc.keeps, .inl ⟨w.answer at', rfl, hc.ready.asyncStage, hpath, rfl, hname⟩⟩

/-- What is known of a node: how it can be matched. -/
def Spec (w : World) (tests : List Path) (node : Node) (at' : Path) : Prop :=
  ∀ start c, Start tests c → c.matchLoc.isSome → c.asyncLoopDepth = 0 → Entry w node at' start c →
    Ensures (doMatch w node at' start)
      (Outcome tests (plain w node at') (Suspended w · node at') c) c

/-- **What `matchChild` does**: match the child from the beginning, or along
the breadcrumbs, and leave one more breadcrumb if it is suspended. -/
theorem matchChild_rule {i : ℕ} {node : Node} {P : ℤ → Checklist → Prop}
    (hentry : c.matchPath = [] ∨ Suspended w started node (i :: at') c.matchPath)
    (hfirst : c.matchPath = [] → Ensures (doMatch w node (i :: at') 0) P { c with
      matchPath := [], matchLoc := some ⟨at', i⟩, asyncLoopDepth := 0
      lastCheckedName := some node.name })
    (hresume : ∀ pos path, c.matchPath = ⟨i :: at', pos⟩ :: path →
      Ensures (doMatch w node (i :: at') pos) P { c with
        matchPath := path, matchLoc := some ⟨at', i⟩, asyncLoopDepth := 0 })
    (hQ : ∀ v c', P v c' → Q (decide (v = 1)) { (if c'.asyncInProgress then
      { c' with matchPath := ⟨at', i⟩ :: c'.matchPath } else { c' with asyncLoc := none }) with
        matchLoc := none }) :
    Ensures (matchChild at' i (matchesBy node.name (doMatch w node (i :: at') 0))
      (fun pos => resumeBy (doMatch w node (i :: at') pos))) Q c := by
  unfold matchChild
  simp only [ensures_bind, ensures_modify, ensures_get]
  cases hpath : c.matchPath with
  | nil =>
    simp only [matchesBy, ensures_bind, ensures_modify]
    refine (hfirst hpath).mono fun v c' hv => ?_
    simpa only [ensures_bind, ensures_modify, ensures_pure] using hQ v c' hv
  | cons top path =>
    rw [hpath] at hentry
    obtain ⟨parent, pos⟩ := top
    obtain rfl : parent = i :: at' := (hentry.resolve_left (cons_ne_nil _ _)).parent
    simp only [resumeBy, ensures_bind, ensures_modify, ensures_require, true_and]
    refine (hresume pos path hpath).mono fun v c' hv => ?_
    simpa only [ensures_bind, ensures_modify, ensures_pure] using hQ v c' hv

/-- What becomes of the specification of a child. -/
theorem matchChild_spec {i : ℕ} {node : Node} (hnode : Spec w tests node (i :: at'))
    (hc : Start tests c)
    (hentry : c.matchPath = [] ∨ Suspended w c.started node (i :: at') c.matchPath) :
    Ensures (matchChild at' i (matchesBy node.name (doMatch w node (i :: at') 0))
        (fun pos => resumeBy (doMatch w node (i :: at') pos)))
      (fun result c' => Keeps tests c c' ∧ (Done (plain w node (i :: at')) result c'
        ∨ (result = false ∧ Paused (fun started path =>
          ∃ path', path = ⟨at', i⟩ :: path' ∧
          Suspended w started node (i :: at') path') c c'))) c := by
  refine matchChild_rule hentry (P := Outcome tests (plain w node (i :: at'))
    (Suspended w · node (i :: at')) c) (fun _ => ?_) (fun pos path hpath => ?_) ?_
  · exact Ensures.mono (hnode 0 _ (hc.congr rfl rfl rfl rfl) rfl rfl (.inl ⟨rfl, rfl, rfl⟩))
      fun v c' hv => hv.congr rfl rfl
  · rw [hpath] at hentry
    have hsusp := hentry.resolve_left (cons_ne_nil _ _)
    exact Ensures.mono (hnode pos _ (hc.congr rfl rfl rfl rfl) rfl rfl (.inr hsusp))
      fun v c' hv => hv.congr rfl rfl
  · rintro v c' ⟨hk, ⟨b, rfl, hd⟩ | ⟨rfl, hp⟩⟩
    · rw [if_neg (by rw [notInProgress hd.asyncStage]; decide)]
      refine ⟨{ hk with }, .inl ⟨hd.asyncStage, hd.matchPath, ?_, hd.lastCheckedName⟩⟩
      rw [← hd.result]
      cases b <;> rfl
    · rw [if_pos (inProgress hp.asyncStage)]
      exact ⟨{ hk with }, .inr ⟨rfl, hp.asyncStage, ⟨_, rfl, hp.suspended⟩, hp.lt⟩⟩

/-- `bannedRule` of a valid node. -/
theorem bannedRule_spec {size i : ℕ} (hvalid : actions = [] ∨ actions.length = size)
    (hi : i < size) (hQ : Q (isBanned w actions i) c) :
    Ensures (bannedRule w actions size i) Q c := by
  unfold bannedRule
  rcases hvalid with rfl | hlen
  · simpa [isBanned] using hQ
  · have hlt : i < actions.length := hlen ▸ hi
    have hne : actions.isEmpty = false :=
      isEmpty_eq_false_iff.mpr (length_pos_iff.mp (Nat.zero_lt_of_lt hlt))
    unfold isBanned at hQ
    simp only [hne, Bool.false_eq_true, if_false, ensures_bind, ensures_require]
    refine ⟨hlen, ?_⟩
    rw [getElem?_eq_getElem hlt] at hQ ⊢
    simpa using hQ

/-- What the loops of `AndNode::doMatch` and `OrNode::doMatch` find to do. -/
theorem Keeps.keepMatching (h : Keeps tests c c') (hstage : c'.asyncStage = .asyncNone) :
    c'.keepMatching = true := by
  unfold Checklist.keepMatching
  rw [notInProgress hstage, h.finished]
  rfl

theorem not_keepMatching (h : c.asyncStage = .asyncRunning) : c.keepMatching = false := by
  unfold Checklist.keepMatching
  rw [inProgress h]
  exact Bool.and_false _

/-- What went on before the last step counts as well. -/
theorem Outcome.trans {r : Bool × String} {S S' : List Path → List Breadcrumb → Prop}
    {c1 : Checklist} {v : ℤ} (hk : Keeps tests c c1) (h : Outcome tests r S c1 v c')
    (hS : ∀ started path, S started path → S' started path) : Outcome tests r S' c v c' :=
  ⟨hk.trans h.1, h.2.imp id fun hp => ⟨hp.1, hp.2.asyncStage, hS _ _ hp.2.suspended,
    lt_of_le_of_lt hk.le hp.2.lt⟩⟩

/-- What the loop of `OrNode::doMatch` does from position `i` on. It also tells
which rule has won. -/
def OrOutcome (w : World) (tests : List Path) (nodes : List Node) (at' : Path)
    (actions : List Answer) (i : ℕ) (last : String) (c : Checklist) (v : ℤ)
    (c' : Checklist) : Prop :=
  Outcome tests ((plainOr w nodes at' actions i last).1.isSome,
      (plainOr w nodes at' actions i last).2)
      (fun started path => ∃ pos path', path = ⟨at', pos⟩ :: path'
        ∧ SuspendedOr w started nodes at' actions i pos path') c v c'
    ∧ (v = 1 → (plainOr w nodes at' actions i last).1 = some (c'.lastMatch at'))

/-- Where the loops may be at position `i`: there is nothing to resume, or `S` says where. -/
abbrev EntersAt (i start : ℕ) (last : String) (c : Checklist)
    (S : List Path → ℕ → List Breadcrumb → Prop) : Prop :=
  (start ≤ i ∧ c.matchPath = [] ∧ c.lastCheckedName = some last) ∨ S c.started start c.matchPath

/-- What `OrNode::doMatch` does, when its loop does what it should. -/
theorem orNode_of_loop {name : String} {nodes : List Node} {start : ℕ}
    (hloop : ∀ c1, Start tests c1 → EntersAt 0 start name c1 (SuspendedOr w · nodes at' actions 0) →
      Ensures (orLoop w nodes at' (bannedRule w actions nodes.length) 0 start)
        (OrOutcome w tests nodes at' actions 0 name c1) c1)
    (hc : Start tests c) (hentry : Entry w (.or name actions nodes) at' start c) :
    Ensures (doMatch w (.or name actions nodes) at' start)
      (OrOutcome w tests nodes at' actions 0 name c) c := by
  refine (hloop { c with lastMatch := Function.update c.lastMatch at' nodes.length }
    (hc.congr rfl rfl rfl rfl) ?_).mono fun v c' h => ⟨h.1.congr rfl rfl, h.2⟩
  exact hentry.imp (fun h => ⟨h.1.le, h.2⟩) suspended_or.mp

mutual

variable {tests : List Path}

/-- **What `doMatch` does**, for every node. -/
theorem doMatch_spec : ∀ (node : Node) (at' : Path), node.Valid →
    leaves node at' ⊆ tests → Spec w tests node at'
  | .leaf name, at', _, hleaves => by
    intro start c hc hloc hdepth hentry
    obtain ⟨-, hpath, hname⟩ := hentry.resolve_right (fun h => nomatch h.1)
    exact matchLeaf_spec hc (hleaves mem_cons_self) hloc hdepth hpath hname
  | .not name node, at', hvalid, hleaves => by
    intro start c hc _ _ hentry
    have hstart : start = 0 ∧
        (c.matchPath = [] ∨ Suspended w c.started node (0 :: at') c.matchPath) := by
      rcases hentry with ⟨h0, hpath, -⟩ | hs
      · exact ⟨h0, .inl hpath⟩
      · exact (suspended_not.mp hs).imp_right .inr
    obtain ⟨rfl, hchild⟩ := hstart
    unfold doMatch
    simp only [ensures_bind, ensures_require, true_and]
    refine (matchChild_spec (doMatch_spec node (0 :: at') hvalid hleaves) hc hchild).mono ?_
    rintro result c' ⟨hk, hd | ⟨rfl, hp⟩⟩
    · have hgo := hk.keepMatching hd.asyncStage
      have hres := hd.result
      cases result with
      | true =>
        simp only [if_true, ensures_pure]
        exact ⟨hk, .inl ⟨false, rfl, hd.asyncStage, hd.matchPath, by rw [plain, ← hres]; rfl,
          hd.lastCheckedName⟩⟩
      | false =>
        simp only [Bool.false_eq_true, if_false, ensures_bind, ensures_get, hgo, Bool.not_true,
          ensures_pure]
        exact ⟨hk, .inl ⟨true, rfl, hd.asyncStage, hd.matchPath, by rw [plain, ← hres]; rfl,
          hd.lastCheckedName⟩⟩
    · simp only [Bool.false_eq_true, if_false, ensures_bind, ensures_get,
        not_keepMatching hp.asyncStage, Bool.not_false, if_true, ensures_pure]
      exact ⟨hk, .inr ⟨rfl, hp.asyncStage, hp.suspended, hp.lt⟩⟩
  | .and name nodes, at', hvalid, hleaves => by
    intro start c hc _ _ hentry
    refine (andLoop_spec name hvalid hleaves hc
      (hentry.imp (fun h => ⟨h.1.le, h.2⟩) suspended_and.mp)).mono fun v c' h => ?_
    exact h.trans hc.keeps fun _ _ hs => hs
  | .or name actions nodes, at', hvalid, hleaves => by
    intro start c hc _ _ hentry
    exact (orNode_of_loop (fun _ => orLoop_spec hvalid.2 hleaves hvalid.1 (Nat.zero_add _)) hc
      hentry).mono fun _ _ h => h.1

/-- What the loop of `AndNode::doMatch` does. -/
theorem andLoop_spec : ∀ {nodes : List Node} {at' : Path} {i start : ℕ} (last : String) {c},
    Node.AllValid nodes → leavesFrom nodes at' i ⊆ tests → Start tests c →
    EntersAt i start last c (SuspendedAnd w · nodes at' i) →
    Ensures (andLoop w nodes at' i start) (Outcome tests (plainAnd w nodes at' i last)
      (fun started path => ∃ pos path', path = ⟨at', pos⟩ :: path'
        ∧ SuspendedAnd w started nodes at' i pos path') c) c
  | [], at', i, start, last, c, _, _, hc, hentry => by
    obtain ⟨-, hpath, hname⟩ := hentry.resolve_right id
    unfold andLoop
    rw [ensures_pure]
    exact ⟨hc.keeps, .inl ⟨true, rfl, hc.ready.asyncStage, hpath, rfl, hname⟩⟩
  | node :: nodes, at', i, start, last, c, hvalid, hleaves, hc, hentry => by
    obtain ⟨hleaf, hrest⟩ := append_subset.mp hleaves
    unfold andLoop
    by_cases hskip : i < start
    · rw [if_pos hskip]
      obtain ⟨-, hplain, hs⟩ := (hentry.resolve_left fun h => absurd hskip h.1.not_gt).resolve_left
        fun h => absurd h.1 hskip.ne
      rw [plainAnd, if_pos hplain]
      refine (andLoop_spec (plain w node (i :: at')).2 hvalid.2 hrest hc (.inr hs)).mono
        fun v c' h => ?_
      refine h.trans hc.keeps ?_
      rintro _ _ ⟨pos, path, rfl, hs'⟩
      exact ⟨pos, path, rfl, .inr ⟨hs'.le, hplain, hs'⟩⟩
    · rw [if_neg hskip, ensures_bind]
      have hchild : c.matchPath = [] ∨ Suspended w c.started node (i :: at') c.matchPath := by
        refine hentry.imp (fun h => h.2.1) fun h => ?_
        exact (h.resolve_right fun h => hskip h.1).2
      refine (matchChild_spec (doMatch_spec node (i :: at') hvalid.1 hleaf) hc hchild).mono ?_
      rintro result c' ⟨hk, hd | ⟨rfl, hp⟩⟩
      · have hres := hd.result
        cases result with
        | false =>
          simp only [Bool.not_false, if_true, ensures_bind, ensures_get,
            hk.keepMatching hd.asyncStage, ensures_pure]
          rw [plainAnd, if_neg (by rw [← hres]; decide)]
          exact ⟨hk, .inl ⟨false, rfl, hd.asyncStage, hd.matchPath, rfl, hd.lastCheckedName⟩⟩
        | true =>
          rw [plainAnd, if_pos hres.symm]
          refine (andLoop_spec _ hvalid.2 hrest (hk.start hd.asyncStage)
            (.inl ⟨by omega, hd.matchPath, hd.lastCheckedName⟩)).mono fun v c'' h => ?_
          refine h.trans hk ?_
          rintro _ _ ⟨pos, path, rfl, hs'⟩
          exact ⟨pos, path, rfl, .inr ⟨hs'.le, hres.symm, hs'⟩⟩
      · simp only [Bool.not_false, if_true, ensures_bind, ensures_get,
        not_keepMatching hp.asyncStage, ensures_pure]
        obtain ⟨path, hpath, hs⟩ := hp.suspended
        exact ⟨hk, .inr ⟨rfl, hp.asyncStage, ⟨i, path, hpath, .inl ⟨rfl, hs⟩⟩, hp.lt⟩⟩

/-- What the loop of `OrNode::doMatch` does. -/
theorem orLoop_spec : ∀ {nodes : List Node} {at' : Path} {actions : List Answer}
    {size i start : ℕ} {last : String} {c}, Node.AllValid nodes → leavesFrom nodes at' i ⊆ tests →
    (actions = [] ∨ actions.length = size) → i + nodes.length = size → Start tests c →
    EntersAt i start last c (SuspendedOr w · nodes at' actions i) →
    Ensures (orLoop w nodes at' (bannedRule w actions size) i start)
      (OrOutcome w tests nodes at' actions i last c) c
  | [], at', actions, size, i, start, last, c, _, _, _, _, hc, hentry => by
    obtain ⟨-, hpath, hname⟩ := hentry.resolve_right id
    unfold orLoop
    rw [ensures_pure]
    exact ⟨⟨hc.keeps, .inl ⟨false, rfl, hc.ready.asyncStage, hpath, rfl, hname⟩⟩,
      fun h => absurd h (by decide)⟩
  | node :: nodes, at', actions, size, i, start, last, c, hvalid, hleaves, hactions, hsize, hc,
      hentry => by
    obtain ⟨hleaf, hrest⟩ := append_subset.mp hleaves
    have hsize' : i + 1 + nodes.length = size := by
      rw [← hsize, length_cons]
      omega
    -- what goes on with the nodes after this one
    have hnext : ∀ c1 last', Keeps tests c c1 → Start tests c1 →
        (isBanned w actions i = true ∨ (plain w node (i :: at')).1 = false) →
        plainOr w (node :: nodes) at' actions i last = plainOr w nodes at' actions (i + 1) last' →
        EntersAt (i + 1) start last' c1 (SuspendedOr w · nodes at' actions (i + 1)) →
        Ensures (orLoop w nodes at' (bannedRule w actions size) (i + 1) start)
          (OrOutcome w tests (node :: nodes) at' actions i last c) c1 := by
      intro c1 last' hk hc1 hno heq hentry'
      unfold OrOutcome
      rw [heq]
      refine (orLoop_spec hvalid.2 hrest hactions hsize' hc1 hentry').mono fun v c' h =>
        ⟨h.1.trans hk ?_, h.2⟩
      rintro _ _ ⟨pos, path, rfl, hs'⟩
      exact ⟨pos, path, rfl, .inr ⟨hs'.le, hno, hs'⟩⟩
    unfold orLoop
    by_cases hskip : i < start
    · rw [if_pos hskip]
      obtain ⟨-, hno, hs⟩ := (hentry.resolve_left fun h => absurd hskip h.1.not_gt).resolve_left
        fun h => absurd h.1 hskip.ne
      by_cases hban : isBanned w actions i = true
      · exact hnext c last hc.keeps hc hno (by rw [plainOr, if_pos hban]) (.inr hs)
      · refine hnext c (plain w node (i :: at')).2 hc.keeps hc hno ?_ (.inr hs)
        rw [plainOr, if_neg hban, if_neg (by rw [hno.resolve_left hban]; decide)]
    · rw [if_neg hskip, ensures_bind]
      refine bannedRule_spec hactions (by omega) ?_
      by_cases hban : isBanned w actions i = true
      · rw [if_pos hban]
        obtain ⟨hle, hpath, hname⟩ := hentry.resolve_right fun h =>
          (h.resolve_right fun h => hskip h.1).elim fun _ h => absurd hban (by rw [h.1]; decide)
        exact hnext c last hc.keeps hc (.inl hban) (by rw [plainOr, if_pos hban])
          (.inl ⟨hle.trans (Nat.le_succ i), hpath, hname⟩)
      · rw [if_neg hban, ensures_bind]
        have hchild : c.matchPath = [] ∨ Suspended w c.started node (i :: at') c.matchPath := by
          refine hentry.imp (fun h => h.2.1) fun h => ?_
          exact (h.resolve_right fun h => hskip h.1).2.2
        refine (matchChild_spec (doMatch_spec node (i :: at') hvalid.1 hleaf) hc hchild).mono ?_
        rintro result c' ⟨hk, hd | ⟨rfl, hp⟩⟩
        · have hres := hd.result
          cases result with
          | true =>
            simp only [if_true, ensures_bind, ensures_modify, ensures_pure]
            rw [OrOutcome, plainOr, if_neg hban, if_pos hres.symm]
            refine ⟨⟨{ hk with }, .inl ⟨true, rfl, { hd with result := rfl }⟩⟩, fun _ => ?_⟩
            show some i = some (Function.update c'.lastMatch at' i at')
            rw [Function.update_self]
          | false =>
            simp only [Bool.false_eq_true, if_false, ensures_bind, ensures_get,
              hk.keepMatching hd.asyncStage, Bool.not_true]
            refine hnext c' (plain w node (i :: at')).2 hk (hk.start hd.asyncStage) (.inr hres.symm)
              ?_ (.inl ⟨by omega, hd.matchPath, hd.lastCheckedName⟩)
            rw [plainOr, if_neg hban, if_neg (by rw [← hres]; decide)]
        · simp only [Bool.false_eq_true, if_false, ensures_bind, ensures_get,
            not_keepMatching hp.asyncStage, Bool.not_false, if_true, ensures_pure]
          obtain ⟨path, hpath, hs⟩ := hp.suspended
          exact ⟨⟨hk, .inr ⟨rfl, hp.asyncStage,
            ⟨i, path, hpath, .inl ⟨rfl, Bool.eq_false_iff.mpr hban, hs⟩⟩, hp.lt⟩⟩,
            fun h => absurd h (by decide)⟩

end

/-! ## Checks -/

/-- The list is waiting for a lookup, with breadcrumbs that lead to it. -/
structure Waiting (w : World) (list : AccessList) (c : Checklist) : Prop where
  asyncStage : c.asyncStage = .asyncRunning
  finished : c.finished = false
  asyncCaller : c.asyncCaller = true
  callbacks : c.callbacks = []
  nodup : c.started.Nodup
  started : c.started ⊆ leaves list.root []
  suspended : Suspended w c.started list.root [] c.matchPath

/-- The callback has received the answer. -/
structure Answered (answer : Answer) (c : Checklist) : Prop where
  callbacks : c.callbacks = [answer]
  asyncStage : c.asyncStage = .asyncNone

/-- **What a call of `nonBlockingCheck` or `resumeNonBlockingCheck` leads to.** -/
def Progress (w : World) (list : AccessList) (c c' : Checklist) : Prop :=
  Answered (plainAnswer w list) c'
    ∨ (Waiting w list c' ∧ c.started.length < c'.started.length)

/-- `winningAction` after a match. -/
theorem winningAction_spec {Q : Answer → Checklist → Prop}
    (hlt : c.lastMatch [] < list.nodes.length)
    (hQ : Q ((list.actions[c.lastMatch []]?).getD (.ofCode .accessAllowed)) c) :
    Ensures list.winningAction Q c := by
  unfold AccessList.winningAction
  simp only [ensures_bind, ensures_get, ensures_require]
  refine ⟨hlt, ?_⟩
  rcases list.valid.1 with hnil | hlen
  · rw [hnil] at hQ ⊢
    simpa using hQ
  · have hlt' : c.lastMatch [] < list.actions.length := hlen ▸ hlt
    have hne : list.actions.isEmpty = false :=
      isEmpty_eq_false_iff.mpr (length_pos_iff.mp (Nat.zero_lt_of_lt hlt'))
    simp only [hne, Bool.false_eq_true, if_false, ensures_bind, ensures_require]
    refine ⟨hlen, ?_⟩
    rw [getElem?_eq_getElem hlt'] at hQ ⊢
    simpa using hQ

/-- The rule that wins is a rule. -/
theorem plainOr_lt {j : ℕ} : ∀ {nodes : List Node} {i : ℕ}
    {last : String}, (plainOr w nodes at' actions i last).1 = some j → j < i + nodes.length
  | [], _, _, h => nomatch h
  | node :: nodes, i, last, h => by
    have hrec : ∀ last', (plainOr w nodes at' actions (i + 1) last').1 = some j →
        j < i + (node :: nodes).length := by
      intro last' h'
      have := plainOr_lt h'
      rw [length_cons]
      omega
    unfold plainOr at h
    split at h
    · exact hrec _ h
    · split at h
      · obtain rfl := some.inj h
        rw [length_cons]
        omega
      · exact hrec _ h

/-- `completeNonBlocking` without a match. -/
theorem completeNonBlocking_spec {last answer : Answer} (hstage : c.asyncStage = .asyncNone)
    (hcb : c.callbacks = []) (hanswer : if c.finished then c.answer = answer
      else { implicitAnswer last with lastCheckedName := c.lastCheckedName } = answer) :
    Ensures (completeNonBlocking last) (fun _ => Answered answer) c := by
  have hidle := notInProgress hstage
  unfold completeNonBlocking checkCallback
  simp only [ensures_bind, ensures_get, ensures_require]
  refine ⟨hidle, ?_⟩
  cases hfin : c.finished with
  | true =>
    rw [hfin, if_pos rfl] at hanswer
    simp only [Bool.true_eq_false, if_false, ensures_bind, ensures_get, ensures_require,
      ensures_modify]
    refine ⟨hfin, ?_, ?_, hstage⟩
    · exact hidle
    · rw [hcb, hanswer]
      rfl
  | false =>
    rw [hfin, if_neg (by decide)] at hanswer
    unfold markFinished
    simp only [if_true, ensures_bind, ensures_get, ensures_require, ensures_modify]
    refine ⟨⟨hfin, hidle⟩, trivial, ?_, ?_, hstage⟩
    · exact hidle
    · rw [hcb, ← hanswer]
      rfl

/-- There is an answer, or the implicit one is right. -/
structure Decided (w : World) (list : AccessList) (c : Checklist) : Prop where
  asyncStage : c.asyncStage = .asyncNone
  callbacks : c.callbacks = []
  answer : if c.finished then c.answer = plainAnswer w list
    else { implicitAnswer list.lastAction with lastCheckedName := c.lastCheckedName }
      = plainAnswer w list

/-- There are breadcrumbs to resume matching. -/
theorem Waiting.matchPath_ne_nil (h : Waiting w list c) : c.matchPath ≠ [] := by
  obtain ⟨pos, path, hpath, -⟩ := h.suspended
  rw [hpath]
  exact cons_ne_nil _ _

/-- Setting the answer after a match of the list. -/
theorem finish_spec {v : ℤ} (hcb : c.callbacks = [])
    (h : OrOutcome w (leaves list.root []) list.nodes [] list.actions 0 list.name c v c') :
    Ensures (do if decide (v = 1) then markFinished (← list.winningAction) : Checked Checklist Unit)
      (fun _ c' => Decided w list c' ∨ (Waiting w list c' ∧ c.started.length < c'.started.length))
      c' := by
  obtain ⟨⟨hk, ⟨b, rfl, hd⟩ | ⟨rfl, hp⟩⟩, hwin⟩ := h
  · have hname : c'.lastCheckedName = some (plainOr w list.nodes [] list.actions 0 list.name).2 :=
      hd.lastCheckedName
    have hres : b = (plainOr w list.nodes [] list.actions 0 list.name).1.isSome := hd.result
    cases b with
    | true =>
      have hwin := hwin rfl
      have hlt : c'.lastMatch [] < list.nodes.length := by
        have := plainOr_lt hwin
        rwa [Nat.zero_add] at this
      simp only [show toInt true = 1 from rfl, decide_true, if_true, ensures_bind]
      refine winningAction_spec hlt ?_
      unfold markFinished
      simp only [ensures_bind, ensures_get, ensures_require, ensures_modify]
      refine ⟨⟨hk.finished, notInProgress hd.asyncStage⟩,
        .inl ⟨hd.asyncStage, hk.callbacks.trans hcb, ?_⟩⟩
      rw [if_pos rfl]
      simp only [plainAnswer, hwin, hname]
    | false =>
      have hnone : (plainOr w list.nodes [] list.actions 0 list.name).1 = none := by
        rw [← not_isSome_iff_eq_none, ← hres]
        decide
      simp only [show toInt false = 0 from rfl, show decide ((0 : ℤ) = 1) = false from rfl,
        Bool.false_eq_true, if_false, ensures_pure]
      refine .inl ⟨hd.asyncStage, hk.callbacks.trans hcb, ?_⟩
      rw [if_neg (by rw [hk.finished]; decide)]
      simp only [plainAnswer, hnone, hname]
  · simp only [show decide ((-1 : ℤ) = 1) = false from rfl, Bool.false_eq_true, if_false,
      ensures_pure]
    exact .inr ⟨⟨hp.asyncStage, hk.finished, hk.asyncCaller, hk.callbacks.trans hcb, hk.nodup,
      hk.started, hp.suspended⟩, hp.lt⟩

/-- What matching the list does, as a node that knows which rule has won. -/
theorem doMatch_root {start : ℕ} (hc : Start (leaves list.root []) c)
    (hentry : Entry w list.root [] start c) : Ensures (doMatch w list.root [] start)
      (OrOutcome w (leaves list.root []) list.nodes [] list.actions 0 list.name c) c :=
  orNode_of_loop (fun _ => orLoop_spec list.valid.2 (List.Subset.refl _) list.valid.1
    (Nat.zero_add _)) hc hentry

/-- **What `matchAndFinish` does**: match the list from the beginning, or along
the breadcrumbs. -/
theorem matchAndFinish_rule {P : ℤ → Checklist → Prop} {Q : Unit → Checklist → Prop}
    (hentry : c.matchPath = [] ∨ Suspended w started list.root [] c.matchPath)
    (hfirst : c.matchPath = [] →
      Ensures (doMatch w list.root [] 0) P { c with lastCheckedName := some list.name })
    (hresume : ∀ pos path, c.matchPath = ⟨[], pos⟩ :: path →
      Ensures (doMatch w list.root [] pos) P { c with matchPath := path })
    (hQ : ∀ v c', P v c' → Ensures
      (do if decide (v = 1) then markFinished (← list.winningAction) : Checked Checklist Unit)
      Q c') :
    Ensures (matchAndFinish w list) Q c := by
  unfold matchAndFinish
  simp only [ensures_bind, ensures_get]
  cases hpath : c.matchPath with
  | nil =>
    simp only [matchesBy, ensures_bind, ensures_modify]
    exact (hfirst hpath).mono fun v c' hv => (ensures_pure _).mpr (hQ v c' hv)
  | cons top path =>
    rw [hpath] at hentry
    obtain ⟨parent, pos⟩ := top
    obtain rfl : parent = [] := (hentry.resolve_left (cons_ne_nil _ _)).parent
    simp only [ensures_bind, ensures_modify, reverse_nil, Node.find, resumeBy]
    exact (hresume pos path hpath).mono fun v c' hv => (ensures_pure _).mpr (hQ v c' hv)

theorem matchAndFinish_spec (hc : Start (leaves list.root []) c) (hcb : c.callbacks = [])
    (hentry : c.matchPath = [] ∨ Suspended w c.started list.root [] c.matchPath) :
    Ensures (matchAndFinish w list)
      (fun _ c' => Decided w list c' ∨ (Waiting w list c' ∧ c.started.length < c'.started.length))
      c := by
  refine matchAndFinish_rule hentry (fun hpath => ?_) (fun pos path hpath => ?_)
    fun v c' h => finish_spec hcb h
  · refine Ensures.mono (doMatch_root (hc.congr rfl rfl rfl rfl) (.inl ⟨rfl, hpath, rfl⟩)) ?_
    exact fun v c' h => ⟨h.1.congr rfl rfl, h.2⟩
  · rw [hpath] at hentry
    have hsusp := hentry.resolve_left (cons_ne_nil _ _)
    refine Ensures.mono (doMatch_root (hc.congr rfl rfl rfl rfl) (.inr hsusp)) ?_
    exact fun v c' h => ⟨h.1.congr rfl rfl, h.2⟩

/-- **`nonBlockingCheck` answers or waits for a lookup.** -/
theorem nonBlockingCheck_progress (w : World) (list : AccessList) :
    Ensures (nonBlockingCheck w (some list)) (fun _ => Progress w list .new) .new := by
  unfold nonBlockingCheck
  simp only [ensures_bind, ensures_get, ensures_require, ensures_modify]
  refine ⟨rfl, ?_⟩
  refine (matchAndFinish_spec ⟨⟨rfl, rfl, rfl⟩, nodup_nil, nil_subset _⟩ rfl (.inl rfl)).mono ?_
  rintro _ c (hd | ⟨hwait, hlt⟩)
  · rw [ensures_bind, ensures_get, if_pos (notInProgress hd.asyncStage)]
    exact (completeNonBlocking_spec hd.asyncStage hd.callbacks hd.answer).mono fun _ _ => .inl
  · rw [ensures_bind, ensures_get, if_neg (by rw [inProgress hwait.asyncStage]; decide),
      ensures_pure]
    exact .inr ⟨hwait, hlt⟩

/-- **So does `resumeNonBlockingCheck`**, when the lookup is over. -/
theorem resumeNonBlockingCheck_progress (hc : Waiting w list c) :
    Ensures (resumeNonBlockingCheck w list) (fun _ => Progress w list c) c := by
  unfold resumeNonBlockingCheck resumeStarting
  simp only [ensures_bind, ensures_get, hc.asyncStage, reduceCtorEq, if_false, ensures_pure,
    Bool.false_eq_true, ensures_require, ensures_modify, true_and]
  refine ⟨hc.matchPath_ne_nil, ?_⟩
  rw [if_pos hc.finished, ensures_bind]
  refine (matchAndFinish_spec (c := { c with asyncStage := .asyncNone })
    ⟨⟨rfl, hc.finished, hc.asyncCaller⟩, hc.nodup, hc.started⟩ hc.callbacks
      (.inr hc.suspended)).mono ?_
  rintro _ c' (hd | ⟨hwait, hlt⟩)
  · rw [ensures_bind, ensures_get, if_neg (by rw [notInProgress hd.asyncStage]; decide)]
    exact (completeNonBlocking_spec hd.asyncStage hd.callbacks hd.answer).mono fun _ _ => .inl
  · rw [ensures_bind, ensures_get, if_pos (inProgress hwait.asyncStage), ensures_bind,
      ensures_get, ensures_require]
    exact ⟨hwait.matchPath_ne_nil, .inr ⟨hwait, hlt⟩⟩

/-- **A check with its lookups resumed one after another**: the state after
`nonBlockingCheck` and `k` times `resumeNonBlockingCheck`, unless an
assertion fails. -/
def run (w : World) (accessList : Option AccessList) : ℕ → Option Checklist
  | 0 => ((nonBlockingCheck w accessList) .new).map Prod.snd
  | k + 1 => (run w accessList k).bind fun c =>
    accessList.bind fun list => ((resumeNonBlockingCheck w list) c).map Prod.snd

/-- **What a check without lookups answers.** -/
def expectedAnswer (w : World) : Option AccessList → Answer
  | none => .ofCode .accessDunno
  | some list => plainAnswer w list

section

variable (w list) in
theorem run_zero : ∃ c, run w (some list) 0 = some c ∧ Progress w list .new c := by
  obtain ⟨_, c, hx, h⟩ := nonBlockingCheck_progress w list
  refine ⟨c, ?_, h⟩
  rw [run, hx]
  rfl

theorem run_succ {k : ℕ} (hrun : run w (some list) k = some c) (hwait : Waiting w list c) :
    ∃ c', run w (some list) (k + 1) = some c' ∧ Progress w list c c' := by
  obtain ⟨_, c', hx, h⟩ := resumeNonBlockingCheck_progress hwait
  refine ⟨c', ?_, h⟩
  rw [run, hrun, bind_some, bind_some, hx]
  rfl

end

/-- A check cannot wait for more lookups than there are tests. -/
theorem Waiting.length_le (h : Waiting w list c) :
    c.started.length ≤ (leaves list.root []).length :=
  (h.nodup.subperm h.started).length_le

/-- **Lookups do not change the answer of a check.** Whichever tests start a
lookup, no assertion fails, the check waits as long as lookups are resumed
one after another, and then it calls back, once, with the answer of plain
evaluation. -/
theorem check_answers_once (w : World) (accessList : Option AccessList) :
    ∃ k, (∃ c, run w accessList k = some c ∧ c.callbacks = [expectedAnswer w accessList]
        ∧ c.asyncStage = .asyncNone)
      ∧ ∀ i < k, ∃ c, run w accessList i = some c ∧ c.callbacks = []
        ∧ c.asyncStage = .asyncRunning := by
  cases accessList with
  | none => exact ⟨0, ⟨_, rfl, rfl, rfl⟩, fun i hi => absurd hi (Nat.not_lt_zero i)⟩
  | some list =>
    -- as long as the check waits, every call has started one more lookup
    let Waits (k : ℕ) : Prop :=
      ∃ c, run w (some list) k = some c ∧ Waiting w list c ∧ k < c.started.length
    have hends : ∃ k, ¬ Waits k :=
      ⟨_, fun ⟨_, _, hwait, hlt⟩ => absurd hwait.length_le hlt.not_ge⟩
    classical
    have hwaits : ∀ i < Nat.find hends, Waits i := fun i hi => not_not.mp (Nat.find_min hends hi)
    obtain ⟨c, hrun, hc⟩ : ∃ c, run w (some list) (Nat.find hends) = some c
        ∧ Answered (plainAnswer w list) c := by
      have hlast := Nat.find_spec hends
      cases hk : Nat.find hends with
      | zero =>
        obtain ⟨c, hrun, h⟩ := run_zero w list
        exact ⟨c, hrun, h.resolve_right fun h => hlast (hk ▸ ⟨c, hrun, h⟩)⟩
      | succ k =>
        obtain ⟨c, hrun, hwait, hlt⟩ := hwaits k (by omega)
        obtain ⟨c', hrun', h⟩ := run_succ hrun hwait
        refine ⟨c', hrun', h.resolve_right fun h => hlast ?_⟩
        exact hk ▸ ⟨c', hrun', h.1, lt_of_le_of_lt hlt h.2⟩
    refine ⟨Nat.find hends, ⟨c, hrun, hc.callbacks, hc.asyncStage⟩, fun i hi => ?_⟩
    obtain ⟨c, hrun, hwait, -⟩ := hwaits i hi
    exact ⟨c, hrun, hwait.callbacks, hwait.asyncStage⟩

end Acl
