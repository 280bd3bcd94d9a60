import Revalle.Acl.ChecklistResume

/-!
# A test that never has its answer

`goAsync` is meant to cut off a test that wants to go async again and again:
it counts how often the same location has called it, and refuses after some
retries. But `matchChild` sets the counter to zero for every node that it
enters, those on the way back to a suspended test included, so that the
counter is zero whenever a test calls `goAsync`.

A test that starts a lookup every time it is evaluated is one that has
forgotten the last lookup when the check is resumed (`forget`). Then the
breadcrumbs lead down to the same test and the same lookup (`doMatch_again`),
however often the check is resumed (`again_waits`).
-/

namespace Acl

open Checked Option

/-- The test that breadcrumbs lead to from a node. -/
def lookedUp : Path → List Breadcrumb → Path
  | at', [] => at'
  | _, b :: path => lookedUp (b.position :: b.parent) path

/-- **A check waits for the lookup of a test.** -/
def WaitsFor (test : Path) (c : Checklist) : Prop :=
  c.asyncStage = .asyncRunning ∧ lookedUp [] c.matchPath = test

/-- A test will start a lookup when it is evaluated again. -/
def forget (test : Path) (c : Checklist) : Checklist :=
  { c with started := c.started.filter (· ≠ test) }

/-- **A check that is resumed** `n` times, with a test that starts a lookup
every time it is evaluated. -/
def again (w : World) (list : AccessList) (test : Path) (c : Checklist) : ℕ → Option Checklist
  | 0 => some c
  | n + 1 => (again w list test c n).bind fun c =>
    ((resumeNonBlockingCheck w list) (forget test c)).map Prod.snd

/-- **The test is cut off**: it starts at most seven lookups in a row, with the
one that a check waits for. -/
def CutOff (w : World) (list : AccessList) (test : Path) (c : Checklist) : Prop :=
  ∃ n ≤ 7, ∀ c', again w list test c n = some c' → ¬ WaitsFor test c'

/-- The check waits, with the given breadcrumbs. -/
structure WaitsAt (path : List Breadcrumb) (c : Checklist) : Prop where
  asyncStage : c.asyncStage = .asyncRunning
  matchPath : c.matchPath = path
  finished : c.finished = false
  asyncCaller : c.asyncCaller = true

/-- Matching goes back to the test from a node, to start a lookup there. -/
structure Returns (test at' : Path) (c : Checklist) : Prop where
  ready : Ready c
  new : test ∉ c.started
  leads : lookedUp at' c.matchPath = test

section

variable {w : World} {T : List Path} {test : Path} {c : Checklist}
  (hlookup : w.lookup test = .async)
include hlookup

/-- The test starts a lookup. -/
theorem matchLeaf_again (hc : Returns test test c) (hloc : c.matchLoc.isSome)
    (hdepth : c.asyncLoopDepth = 0) :
    Ensures (matchLeaf w test) (fun v c' => v = -1 ∧ WaitsAt c.matchPath c') c := by
  unfold matchLeaf
  simp only [ensures_bind, ensures_get, hlookup]
  rw [if_pos (by simpa using hc.new), ensures_bind, ensures_modify, ensures_bind]
  refine goAsync_rule { hc.ready with } hloc hdepth ?_
  simp only [reduceCtorEq, if_true, if_false, ensures_pure]
  exact ⟨trivial, rfl, rfl, hc.ready.finished, hc.ready.asyncCaller⟩

/-- What `matchChild` does on the way to the test. -/
theorem matchChild_again {at' : Path} {i : ℕ} {node : Node}
    (hnode : ∀ start c, Returns test (start :: i :: at') c →
      Suspended w T node (i :: at') (⟨i :: at', start⟩ :: c.matchPath) →
      Ensures (doMatch w node (i :: at') start)
        (fun v c' => v = -1 ∧ WaitsAt (⟨i :: at', start⟩ :: c.matchPath) c') c)
    (hc : Returns test (i :: at') c) (hs : Suspended w T node (i :: at') c.matchPath) :
    Ensures (matchChild at' i (matchesBy node.name (doMatch w node (i :: at') 0))
        (fun pos => resumeBy (doMatch w node (i :: at') pos)))
      (fun result c' => result = false ∧ WaitsAt (⟨at', i⟩ :: c.matchPath) c') c := by
  obtain ⟨hready, hnew, hleads⟩ := hc
  refine matchChild_rule (.inr hs) (P := fun v c' => v = -1 ∧ WaitsAt c.matchPath c')
    (fun hpath => ?_) (fun pos path hpath => ?_) ?_
  · rw [hpath] at hs hleads ⊢
    cases node with
    | leaf name =>
      obtain rfl : i :: at' = test := hleads
      exact matchLeaf_again hlookup ⟨{ hready with }, hnew, rfl⟩ rfl rfl
    | not name node => exact absurd hs (by simp [Suspended])
    | and name nodes => exact absurd hs (by simp [Suspended])
    | or name actions nodes => exact absurd hs (by simp [Suspended])
  · rw [hpath] at hs hleads ⊢
    exact hnode pos _ ⟨{ hready with }, hnew, hleads⟩ hs
  · rintro _ c' ⟨rfl, h⟩
    rw [if_pos (inProgress h.asyncStage)]
    exact ⟨rfl, h.asyncStage, congrArg _ h.matchPath, h.finished, h.asyncCaller⟩

mutual

/-- **`doMatch` comes back to the test** along the breadcrumbs, for every node. -/
theorem doMatch_again : ∀ (node : Node) (at' : Path), node.Valid → ∀ (start : ℕ) (c : Checklist),
    Returns test (start :: at') c → Suspended w T node at' (⟨at', start⟩ :: c.matchPath) →
    Ensures (doMatch w node at' start)
      (fun v c' => v = -1 ∧ WaitsAt (⟨at', start⟩ :: c.matchPath) c') c
  | .leaf _, _, _, _, _, _, hs => nomatch hs.1
  | .not name node, at', hvalid, start, c, hc, hs => by
    obtain ⟨rfl, hs'⟩ := suspended_not.mp hs
    unfold doMatch
    simp only [ensures_bind, ensures_require, true_and]
    refine (matchChild_again hlookup (doMatch_again node (0 :: at') hvalid) hc hs').mono ?_
    rintro _ c' ⟨rfl, h⟩
    simpa [not_keepMatching h.asyncStage] using h
  | .and name nodes, at', hvalid, start, c, hc, hs => by
    exact andLoop_again nodes at' 0 start c hvalid hc (suspended_and.mp hs)
  | .or name actions nodes, at', hvalid, start, c, hc, hs => by
    unfold doMatch
    exact orLoop_again nodes at' actions nodes.length 0 start _ hvalid.2 hvalid.1 (Nat.zero_add _)
      ⟨{ hc.ready with }, hc.new, hc.leads⟩ (suspended_or.mp hs)

theorem andLoop_again : ∀ (nodes : List Node) (at' : Path) (i start : ℕ) (c : Checklist),
    Node.AllValid nodes → Returns test (start :: at') c →
    SuspendedAnd w T nodes at' i start c.matchPath →
    Ensures (andLoop w nodes at' i start)
      (fun v c' => v = -1 ∧ WaitsAt (⟨at', start⟩ :: c.matchPath) c') c
  | [], _, _, _, _, _, _, hs => nomatch hs
  | node :: nodes, at', i, start, c, hvalid, hc, hs => by
    unfold andLoop
    rcases hs with ⟨rfl, hs⟩ | ⟨hlt, -, hs⟩
    · rw [if_neg (lt_irrefl i), ensures_bind]
      refine (matchChild_again hlookup (doMatch_again node (i :: at') hvalid.1) hc hs).mono ?_
      rintro _ c' ⟨rfl, h⟩
      simp only [Bool.not_false, if_true, ensures_bind, ensures_get, not_keepMatching h.asyncStage,
        ensures_pure, Bool.false_eq_true, if_false]
      exact ⟨trivial, h⟩
    · rw [if_pos hlt]
      exact andLoop_again nodes at' (i + 1) start c hvalid.2 hc hs

theorem orLoop_again : ∀ (nodes : List Node) (at' : Path) (actions : List Answer)
    (size i start : ℕ) (c : Checklist), Node.AllValid nodes →
    (actions = [] ∨ actions.length = size) → i + nodes.length = size →
    Returns test (start :: at') c → SuspendedOr w T nodes at' actions i start c.matchPath →
    Ensures (orLoop w nodes at' (bannedRule w actions size) i start)
      (fun v c' => v = -1 ∧ WaitsAt (⟨at', start⟩ :: c.matchPath) c') c
  | [], _, _, _, _, _, _, _, _, _, _, hs => nomatch hs
  | node :: nodes, at', actions, size, i, start, c, hvalid, hactions, hsize, hc, hs => by
    rw [List.length_cons] at hsize
    unfold orLoop
    rcases hs with ⟨rfl, hban, hs⟩ | ⟨hlt, -, hs⟩
    · rw [if_neg (lt_irrefl i), ensures_bind]
      refine bannedRule_spec hactions (by omega) ?_
      rw [hban, if_neg (by decide), ensures_bind]
      refine (matchChild_again hlookup (doMatch_again node (i :: at') hvalid.1) hc hs).mono ?_
      rintro _ c' ⟨rfl, h⟩
      simpa [not_keepMatching h.asyncStage] using h
    · rw [if_pos hlt]
      exact orLoop_again nodes at' actions size (i + 1) start c hvalid.2 hactions (by omega) hc hs

end

variable {list : AccessList} {path : List Breadcrumb} (hs : Suspended w T list.root [] path)
  (hleads : lookedUp [] path = test)
include hs hleads

/-- **The check waits for the same test again** when it is resumed. -/
theorem resumeNonBlockingCheck_again (hc : WaitsAt path c) :
    Ensures (resumeNonBlockingCheck w list) (fun _ c' => WaitsAt path c') (forget test c) := by
  have hne : path ≠ [] := by
    obtain ⟨_, _, rfl, -⟩ := hs
    exact List.cons_ne_nil _ _
  have hnew : test ∉ c.started.filter (· ≠ test) := by simp
  obtain ⟨hstage, rfl, hfinished, hcaller⟩ := hc
  unfold resumeNonBlockingCheck resumeStarting
  simp only [ensures_bind, ensures_get, forget, hstage, reduceCtorEq, if_false, ensures_pure,
    Bool.false_eq_true, ensures_require, ensures_modify, true_and, hfinished, if_true]
  refine ⟨hne, Ensures.mono (matchAndFinish_rule (.inr hs)
    (P := fun v c' => v = -1 ∧ WaitsAt c.matchPath c') (Q := fun _ c' => WaitsAt c.matchPath c')
    (fun hpath => absurd hpath hne) (fun pos rest hpath => ?_) ?_) fun _ c' h => ?_⟩
  · rw [hpath] at hs hleads ⊢
    exact doMatch_again hlookup list.root [] list.valid pos _ ⟨⟨rfl, rfl, hcaller⟩, hnew, hleads⟩ hs
  · rintro _ c' ⟨rfl, h⟩
    rw [if_neg (by decide), ensures_pure]
    exact h
  · rw [ensures_bind, ensures_get, if_pos (inProgress h.asyncStage), ensures_bind, ensures_get,
      ensures_require]
    exact ⟨h.matchPath.symm ▸ hne, h⟩

/-- **It does so however often it is resumed.** -/
theorem again_waits (hc : WaitsAt path c) :
    ∀ n, ∃ c', again w list test c n = some c' ∧ WaitsAt path c'
  | 0 => ⟨c, rfl, hc⟩
  | n + 1 => by
    obtain ⟨c1, hrun, h1⟩ := again_waits hc n
    obtain ⟨_, c', hx, h'⟩ := resumeNonBlockingCheck_again hlookup hs hleads h1
    refine ⟨c', ?_, h'⟩
    rw [again, hrun, bind_some, hx]
    rfl

end

/-- A check that has been resumed some times has its answer or waits. -/
theorem run_waiting {w : World} {list : AccessList} {c : Checklist} : ∀ {k : ℕ},
    run w (some list) k = some c → Waiting w list c ∨ c.asyncStage = .asyncNone
  | 0, hrun => by
    obtain ⟨c', hrun', h⟩ := run_zero w list
    obtain rfl : c' = c := some.inj (hrun'.symm.trans hrun)
    exact h.symm.imp And.left Answered.asyncStage
  | k + 1, hrun => by
    obtain ⟨c1, hrun1, hresume⟩ := bind_eq_some_iff.mp hrun
    rcases run_waiting hrun1 with h1 | h1
    · obtain ⟨c', hrun', h⟩ := run_succ hrun1 h1
      obtain rfl : c' = c := some.inj (hrun'.symm.trans hrun)
      exact h.symm.imp And.left Answered.asyncStage
    · -- there is nothing to resume
      obtain ⟨⟨_, c'⟩, hx, -⟩ := map_eq_some_iff.mp hresume
      have hx : Ensures (resumeNonBlockingCheck w list) (fun _ _ => True) c1 := ⟨_, c', hx, trivial⟩
      unfold resumeNonBlockingCheck resumeStarting at hx
      simp [h1] at hx

/-- **A test is cut off iff it is not looked up at all.** -/
theorem cutOff_iff (w : World) (list : AccessList) (test : Path) (hlookup : w.lookup test = .async)
    (k : ℕ) (c : Checklist) (hrun : run w (some list) k = some c) :
    CutOff w list test c ↔ ¬ WaitsFor test c := by
  constructor
  · rintro ⟨n, -, hn⟩ ⟨hstage, hleads⟩
    have hwait : Waiting w list c := (run_waiting hrun).resolve_right (by rw [hstage]; decide)
    obtain ⟨c', hc', h⟩ := again_waits hlookup hwait.suspended hleads
      ⟨hstage, rfl, hwait.finished, hwait.asyncCaller⟩ n
    exact hn c' hc' ⟨h.asyncStage, h.matchPath.symm ▸ hleads⟩
  · intro h
    refine ⟨0, Nat.zero_le 7, fun c' hc' => ?_⟩
    obtain rfl : c = c' := some.inj hc'
    exact h

/-- A list with one test. -/
def slowList : AccessList := ⟨"slow", [], [.leaf "test"], .inl rfl, trivial, trivial⟩

/-- The test does not match, and goes async. -/
def slowWorld : World := ⟨fun _ => false, fun _ => .async, []⟩

theorem cutOff_iff_slow : ∃ c, run slowWorld (some slowList) 0 = some c
    ∧ (CutOff slowWorld slowList [0] c ↔ ¬ WaitsFor [0] c) :=
  ⟨_, rfl, cutOff_iff slowWorld slowList [0] rfl 0 _ rfl⟩

/-- **Eight lookups in a row.** -/
theorem slow_not_cut_off : ((List.range 8).all fun n =>
    ((run slowWorld (some slowList) 0).bind (again slowWorld slowList [0] · n)).any
      fun c => c.asyncStage = .asyncRunning ∧ lookedUp [] c.matchPath = [0]) = true := by
  decide +kernel

end Acl
