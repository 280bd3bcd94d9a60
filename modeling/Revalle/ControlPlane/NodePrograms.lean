import Revalle.ControlPlane.NodeManager
import Revalle.Shm.Interleaving

/-!
# The node manager, command by command

The calls of the node manager as programs over Redis, whose accesses are the
commands of Redis. Here the sorted set `nodes:load` counts as well, which has the
load of each node a second time.

Run one after another, the calls keep the set and the records together as long as
no update changes a load behind the back of the set and no heartbeat reports that
a load has gone down to zero: `0` is taken for a report without a load
(`mirrors_iff`).
-/

namespace ControlPlane.NodeManager

open Function List Shm Option Falsy

/-- What is in Redis: the records, `nodes:active`, and the scores of `nodes:load`. -/
structure Redis extends Store where
  load : String → Option ℚ

namespace Redis

def empty : Redis := ⟨Store.empty, fun _ => none⟩

/-! ## The commands -/

def set (id : String) (node : Node) (s : Redis) : Redis :=
  { s with node := update s.node id (some node) }

def del (id : String) (s : Redis) : Redis := { s with node := update s.node id none }

def sAdd (id : String) (s : Redis) : Redis := { s with active := insert id s.active }

def sRem (id : String) (s : Redis) : Redis := { s with active := s.active.erase id }

def zAdd (id : String) (score : ℚ) (s : Redis) : Redis :=
  { s with load := update s.load id (some score) }

def zRem (id : String) (s : Redis) : Redis := { s with load := update s.load id none }

/-! ## The calls

Each returns whether it ends without the error 'Node not found'. -/

def registerNode (nodeData : NodeData) (generated : String) (now : ℤ) : Prog Redis Bool := do
  let node := newNode nodeData generated now
  Prog.store (set node.id node)
  Prog.store (sAdd node.id)
  Prog.store (zAdd node.id node.currentLoad)
  return true

def getNode (nodeId : String) : Prog Redis (Option Node) := Prog.load (fun s => s.node nodeId)

def updateNode (nodeId : String) (updates : Node → Node) : Prog Redis Bool := do
  match ← getNode nodeId with
  | none => return false
  | some node =>
    Prog.store (set nodeId (updates node))
    return true

def removeNode (nodeId : String) : Prog Redis Bool := do
  Prog.store (del nodeId)
  Prog.store (sRem nodeId)
  Prog.store (zRem nodeId)
  return true

def updateHeartbeat (nodeId : String) (heartbeatData : HeartbeatData) (now : ℤ) :
    Prog Redis Bool := do
  match ← getNode nodeId with
  | none => return false
  | some node =>
    let node := beat heartbeatData now node
    Prog.store (zAdd nodeId node.currentLoad)
    updateNode nodeId (fun _ => node)

/-! ## One call after another -/

inductive Call where
  | registerNode (nodeData : NodeData) (generated : String) (now : ℤ)
  | updateNode (nodeId : String) (updates : Node → Node)
  | updateHeartbeat (nodeId : String) (heartbeatData : HeartbeatData) (now : ℤ)
  | removeNode (nodeId : String)

def Call.program : Call → Prog Redis Bool
  | .registerNode nodeData generated now => Redis.registerNode nodeData generated now
  | .updateNode nodeId updates => Redis.updateNode nodeId updates
  | .updateHeartbeat nodeId heartbeatData now => Redis.updateHeartbeat nodeId heartbeatData now
  | .removeNode nodeId => Redis.removeNode nodeId

/-- A call without interruption. -/
def Call.run (s : Redis) (call : Call) : Redis := ((call.program.exec [] s).map Prod.snd).getD s

def run (calls : List Call) : Redis := calls.foldl Call.run empty

/-- Whether node `id` is registered after one more call. -/
def Call.registers (id : String) (registered : Bool) : Call → Bool
  | .registerNode nodeData generated _ => orDefault nodeData.id generated = id ∨ registered
  | .removeNode nodeId => nodeId ≠ id ∧ registered
  | _ => registered

def registered (calls : List Call) (id : String) : Bool := calls.foldl (Call.registers id) false

/-- The members of `nodes:load` are the registered nodes, and their scores are the
loads in their records. -/
def Exact (registered : String → Bool) (s : Redis) : Prop :=
  ∀ id, (s.load id).isSome = registered id ∧ s.load id = (s.node id).map Node.currentLoad

/-- The load that a heartbeat reports is the load in the record. -/
def Call.Reported (s : Redis) : Call → Prop
  | .updateHeartbeat nodeId heartbeatData _ =>
    ∀ load n, heartbeatData.load = some load → s.node nodeId = some n → n.currentLoad = load
  | _ => True

/-- **What the load index is to be after a sequence of calls.** -/
def Mirrors (calls : List Call) : Prop :=
  Exact (registered calls) (run calls) ∧
    ∀ call, calls.getLast? = some call → call.Reported (run calls)

/-- **When a call keeps the load index**: an update keeps the load of the node,
and a heartbeat reports the load `0` only of a node without load. -/
def Call.Keeps (s : Redis) : Call → Prop
  | .updateNode nodeId updates =>
    ∀ n, s.node nodeId = some n → (updates n).currentLoad = n.currentLoad
  | .updateHeartbeat nodeId heartbeatData _ =>
    heartbeatData.load = some 0 → ∀ n, s.node nodeId = some n → n.currentLoad = 0
  | _ => True

variable {s s' : Redis} {r r' : String → Bool}

/-- The record and the score of one node change together. -/
theorem Exact.update (h : Exact r s) (id : String) (n : Option Node)
    (hnode : s'.node = update s.node id n)
    (hload : s'.load = update s.load id (n.map Node.currentLoad))
    (hr : ∀ id', r' id' = if id = id' then n.isSome else r id') : Exact r' s' := by
  intro id'
  rw [hload, hnode, hr]
  by_cases hid : id = id'
  · subst hid
    simp
  · rw [if_neg hid, update_of_ne (Ne.symm hid), update_of_ne (Ne.symm hid)]
    exact h id'

/-- The record of a node and its score are replaced. -/
theorem Exact.replace (h : Exact r s) {id : String} {n n' : Node} (hn : s.node id = some n)
    (hnode : s'.node = Function.update s.node id (some n'))
    (hload : s'.load = Function.update s.load id (some n'.currentLoad)) : Exact r s' := by
  refine h.update id (some n') hnode hload (fun id' => ?_)
  split
  · next hid => rw [← hid, ← (h id).1, (h id).2, hn, isSome_map, isSome_some, isSome_some]
  · rfl

theorem exact_updateNode_iff (h : Exact r s) (nodeId : String) (updates : Node → Node) :
    Exact r ((Call.updateNode nodeId updates).run s) ↔
      (Call.updateNode nodeId updates).Keeps s := by
  cases hnode : s.node nodeId with
  | none =>
    have hrun : (Call.updateNode nodeId updates).run s = s := by
      simp [Call.run, Call.program, Redis.updateNode, getNode, Prog.exec, hnode]
    rw [hrun]
    exact iff_of_true h (by simp [Call.Keeps, hnode])
  | some n =>
    have hrun : (Call.updateNode nodeId updates).run s = set nodeId (updates n) s := by
      simp [Call.run, Call.program, Redis.updateNode, getNode, Prog.exec, hnode]
    have hscore : s.load nodeId = some n.currentLoad := by rw [(h nodeId).2, hnode, map_some]
    simp only [hrun, Call.Keeps, hnode, some.injEq, forall_eq']
    constructor
    · intro h'
      have hscore' := (h' nodeId).2
      simp only [set, update_self, map_some] at hscore'
      exact some.inj (hscore'.symm.trans hscore)
    · intro hkeeps
      refine h.replace hnode rfl ?_
      rw [hkeeps, ← hscore, update_eq_self]
      rfl

theorem exact_updateHeartbeat (h : Exact r s) (nodeId : String) (heartbeatData : HeartbeatData)
    (now : ℤ) : Exact r ((Call.updateHeartbeat nodeId heartbeatData now).run s) ∧
      ((Call.updateHeartbeat nodeId heartbeatData now).Reported
          ((Call.updateHeartbeat nodeId heartbeatData now).run s) ↔
        (Call.updateHeartbeat nodeId heartbeatData now).Keeps s) := by
  cases hnode : s.node nodeId with
  | none =>
    have hrun : (Call.updateHeartbeat nodeId heartbeatData now).run s = s := by
      simp [Call.run, Call.program, Redis.updateHeartbeat, getNode, Prog.exec, hnode]
    rw [hrun]
    exact ⟨h, by simp [Call.Reported, Call.Keeps, hnode]⟩
  | some n =>
    have hrun : (Call.updateHeartbeat nodeId heartbeatData now).run s =
        set nodeId (beat heartbeatData now n)
          (zAdd nodeId (beat heartbeatData now n).currentLoad s) := by
      simp [Call.run, Call.program, Redis.updateHeartbeat, Redis.updateNode, getNode, Prog.exec,
        hnode, zAdd]
    rw [hrun]
    refine ⟨h.replace hnode rfl rfl, ?_⟩
    simp only [Call.Reported, Call.Keeps, set, update_self, hnode, some.injEq, forall_eq']
    cases hload : heartbeatData.load with
    | none => simp
    | some load => grind [beat, orDefault, falsy_zero]

/-- **One call.** -/
theorem Mirrors.step {calls : List Call} (h : Mirrors calls) (call : Call) :
    Mirrors (calls ++ [call]) ↔ call.Keeps (run calls) := by
  have hrun : run (calls ++ [call]) = call.run (run calls) := by simp [run]
  have hregistered : ∀ id, registered (calls ++ [call]) id =
      call.registers id (registered calls id) := by simp [registered]
  simp only [Mirrors, hrun, getLast?_concat, some.injEq, forall_eq']
  obtain ⟨hexact, -⟩ := h
  cases call with
  | registerNode nodeData generated now =>
    refine iff_of_true ⟨?_, trivial⟩ trivial
    refine hexact.update (orDefault nodeData.id generated) (some (newNode nodeData generated now))
      rfl rfl (fun id' => ?_)
    grind [Call.registers]
  | updateNode nodeId updates =>
    rw [funext hregistered]
    exact (and_iff_left trivial).trans (exact_updateNode_iff hexact nodeId updates)
  | updateHeartbeat nodeId heartbeatData now =>
    rw [funext hregistered]
    obtain ⟨hexact', hreported⟩ := exact_updateHeartbeat hexact nodeId heartbeatData now
    exact (and_iff_right hexact').trans hreported
  | removeNode nodeId =>
    refine iff_of_true ⟨?_, trivial⟩ trivial
    refine hexact.update nodeId none rfl rfl (fun id' => ?_)
    grind [Call.registers]

/-- **When the load index mirrors the nodes**, throughout a sequence of calls: if
and only if every call keeps it. -/
theorem mirrors_iff (calls : List Call) :
    (∀ calls', calls' <+: calls → Mirrors calls') ↔
      ∀ calls' call, calls' ++ [call] <+: calls → call.Keeps (run calls') := by
  induction calls using List.reverseRecOn with
  | nil =>
    refine iff_of_true (fun calls' h => ?_) (fun calls' call h => absurd h (by simp))
    obtain rfl := prefix_nil.mp h
    exact ⟨fun _ => ⟨rfl, rfl⟩, fun call h => nomatch h⟩
  | append_singleton calls call ih =>
    constructor
    · intro h calls' call' hstep
      rcases prefix_concat_iff.mp hstep with heq | hstep
      · obtain ⟨rfl, hcall⟩ := append_inj' heq rfl
        obtain rfl : call' = call := by simpa using hcall
        exact ((h calls' (prefix_append _ _)).step call').mp (h _ prefix_rfl)
      · exact ih.mp (fun c hc => h c (hc.trans (prefix_append _ _))) calls' call' hstep
    · intro h calls' hprefix
      have hcalls := ih.mpr (fun c c' hc => h c c' (hc.trans (prefix_append _ _)))
      rcases prefix_concat_iff.mp hprefix with rfl | hprefix
      · exact ((hcalls calls prefix_rfl).step call).mpr (h calls call prefix_rfl)
      · exact hcalls calls' hprefix

/-- The registration of a node `a`. -/
def newcomer : Call := .registerNode ⟨some "a", none, none, none, none⟩ "" 0

/-- **A load is changed behind the back of the index, and a load stays when it is
gone.** -/
theorem not_mirrors_update_zero :
    ¬Mirrors [newcomer, .updateNode "a" (fun n => { n with currentLoad := 5 })] ∧
      ¬Mirrors [newcomer, .updateHeartbeat "a" ⟨some 5, none⟩ 1,
        .updateHeartbeat "a" ⟨some 0, none⟩ 2] := by
  constructor
  · rintro ⟨hexact, -⟩
    exact absurd (hexact "a").2 (by decide +kernel)
  · rintro ⟨-, hreported⟩
    exact absurd (hreported _ rfl 0 _ rfl rfl) (by decide +kernel)

end Redis

end ControlPlane.NodeManager
