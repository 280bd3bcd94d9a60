import Revalle.Data.Falsy

/-!
# The node manager

`NodeManager` keeps the proxy nodes in Redis: a record `node:ID` for each node,
and the set `nodes:active` of the identifiers it enumerates nodes through. A
node is available when it is in the set and its record has the status `active`
and the health `healthy`; three calls and a periodic check write these.

The check marks a node without a recent heartbeat inactive and takes it out of
`nodes:active`. It also has a branch that brings an inactive node back – but it
meets only nodes that it finds through `nodes:active`, which are the active
ones, and no heartbeat puts a node back into the set. So a node that once missed
its heartbeats stays away until it registers anew; and since the same branch is
the only one that would restore the health of a node after a failed ping, such a
node is back only when a heartbeat reports it `healthy`.

The state of a node is compared with its *past*, what the history of the calls
says about it (`Past`), and the two agree after every history (`tracks_run`).
-/

namespace ControlPlane.NodeManager

open Function List Option Falsy

inductive Status where
  | active
  | inactive
  deriving DecidableEq

/-- A node's record. Its name, meta data, metrics and the times at which it was
created and updated are carried along by the program and never read. -/
structure Node where
  id : String
  host : Option String
  port : ℕ
  region : String
  status : Status
  capacity : ℚ
  currentLoad : ℚ
  health : String
  /-- In milliseconds, as are all times. -/
  lastHeartbeat : ℤ
  deriving DecidableEq

/-- The argument of `registerNode`. -/
structure NodeData where
  id : Option String
  host : Option String
  port : Option ℕ
  region : Option String
  capacity : Option ℚ

/-- The argument of `updateHeartbeat`. -/
structure HeartbeatData where
  load : Option ℚ
  health : Option String

/-- What the node manager has in Redis: the records and the set `nodes:active`.
(The sorted set `nodes:load` is written and never read.) -/
structure Store where
  node : String → Option Node
  active : Finset String

def Store.empty : Store := ⟨fun _ => none, ∅⟩

/-- How `SMEMBERS` lists a set: each member once, in an order that is the
server's and may differ from one call to the next. -/
structure Listing where
  list : Finset String → List String
  nodup (s : Finset String) : (list s).Nodup
  mem_iff (s : Finset String) (id : String) : id ∈ list s ↔ id ∈ s

/-- The members in alphabetical order. -/
def Listing.sorted : Listing where
  list s := s.sort (· ≤ ·)
  nodup s := s.sort_nodup (· ≤ ·)
  mem_iff s _ := s.mem_sort (· ≤ ·)

/-! ## The calls -/

/-- The record that `registerNode` writes; `generated` is what `generateNodeId`
would answer. -/
def newNode (nodeData : NodeData) (generated : String) (now : ℤ) : Node where
  id := orDefault nodeData.id generated
  host := nodeData.host
  port := orDefault nodeData.port 3128
  region := orDefault nodeData.region "us-east-1"
  status := .active
  capacity := orDefault nodeData.capacity 1000
  currentLoad := 0
  health := "healthy"
  lastHeartbeat := now

def registerNode (nodeData : NodeData) (generated : String) (now : ℤ) (s : Store) : Store :=
  let node := newNode nodeData generated now
  ⟨Function.update s.node node.id (some node), insert node.id s.active⟩

/-- `getAllNodes`: a member without a record is passed over. -/
def getAllNodes (listing : Listing) (s : Store) : List Node :=
  (listing.list s.active).filterMap s.node

/-- `updateNode`; `none` is the error 'Node not found'. -/
def updateNode (nodeId : String) (updates : Node → Node) (s : Store) : Option Store :=
  match s.node nodeId with
  | none => none
  | some node => some { s with node := Function.update s.node nodeId (some (updates node)) }

def removeNode (nodeId : String) (s : Store) : Store :=
  ⟨Function.update s.node nodeId none, s.active.erase nodeId⟩

/-- What a heartbeat makes of a record. -/
def beat (heartbeatData : HeartbeatData) (now : ℤ) (node : Node) : Node :=
  { node with
    lastHeartbeat := now
    currentLoad := orDefault heartbeatData.load node.currentLoad
    health := orDefault heartbeatData.health node.health }

/-- `updateHeartbeat`; `none` is the error 'Node not found'. -/
def updateHeartbeat (nodeId : String) (heartbeatData : HeartbeatData) (now : ℤ) (s : Store) :
    Option Store :=
  match s.node nodeId with
  | none => none
  -- the whole changed record is passed on as the updates
  | some node => updateNode nodeId (fun _ => beat heartbeatData now node) s

/-- The test of a missing heartbeat: none for two minutes. -/
def stale (now lastHeartbeat : ℤ) : Bool := now - lastHeartbeat > 120000

/-- The loop body of `checkNodeHealth`; `answers` says whether the ping of a
node gets an answer. -/
def checkNode (now : ℤ) (answers : String → Bool) (s : Store) (node : Node) : Option Store :=
  if stale now node.lastHeartbeat then
    if node.status = .active then do
      let s ← updateNode node.id (fun n => { n with status := .inactive, health := "unhealthy" }) s
      return { s with active := s.active.erase node.id }
    else some s
  else if answers node.id then
    if node.status ≠ .active then
      match updateNode node.id (fun n => { n with status := .active, health := "healthy" }) s with
      | some s => some { s with active := insert node.id s.active }
      -- the error is caught, and the `catch` does nothing to a node that is not active
      | none => some s
    else some s
  else
    if node.status = .active then
      updateNode node.id (fun n => { n with health := "unhealthy" }) s
    else some s

def checkNodeHealth (listing : Listing) (now : ℤ) (answers : String → Bool) (s : Store) :
    Option Store :=
  (getAllNodes listing s).foldlM (checkNode now answers) s

def getAvailableNodes (listing : Listing) (s : Store) : List Node :=
  (getAllNodes listing s).filter (fun n => n.status = .active ∧ n.health = "healthy")

/-! ## Histories -/

/-- A call, with the time at which it runs. -/
inductive Event where
  | registerNode (nodeData : NodeData) (generated : String) (now : ℤ)
  | updateHeartbeat (nodeId : String) (heartbeatData : HeartbeatData) (now : ℤ)
  | checkNodeHealth (listing : Listing) (now : ℤ) (answers : String → Bool)
  | removeNode (nodeId : String)

/-- A call that throws leaves the store as it was. -/
def Event.run (s : Store) : Event → Store
  | .registerNode nodeData generated now => NodeManager.registerNode nodeData generated now s
  | .updateHeartbeat nodeId heartbeatData now =>
    (NodeManager.updateHeartbeat nodeId heartbeatData now s).getD s
  | .checkNodeHealth listing now answers =>
    (NodeManager.checkNodeHealth listing now answers s).getD s
  | .removeNode nodeId => NodeManager.removeNode nodeId s

/-- The store after a history. -/
def run (events : List Event) : Store := events.foldl Event.run Store.empty

/-- **What a history says about a registered node**, without reference to what
the program stores. -/
structure Past where
  /-- When it registered or sent its latest heartbeat. -/
  lastHeartbeat : ℤ
  /-- The health its latest heartbeat reported, if that was one that reports any;
  registering starts afresh. -/
  reported : Option String
  /-- A check has found its heartbeats missing since it registered. -/
  missed : Bool
  /-- The health said of it last: by its registration, by a heartbeat that
  reports one, or by a ping without an answer. -/
  said : String
  deriving DecidableEq

/-- The past of a node that has just registered. -/
def Past.registered (now : ℤ) : Past := ⟨now, none, false, "healthy"⟩

def Past.heartbeat (heartbeatData : HeartbeatData) (now : ℤ) (p : Past) : Past where
  lastHeartbeat := now
  reported := heartbeatData.health.filter (· ≠ "")
  missed := p.missed
  said := orDefault heartbeatData.health p.said

def Past.check (now : ℤ) (answer : Bool) (p : Past) : Past :=
  if p.missed then p
  else if stale now p.lastHeartbeat then { p with missed := true }
  else if answer then p
  else { p with said := "unhealthy" }

/-- What an event adds to the past of node `id`. -/
def Event.past (id : String) (p : Option Past) : Event → Option Past
  | .registerNode nodeData generated now =>
    if orDefault nodeData.id generated = id then some (.registered now) else p
  | .updateHeartbeat nodeId heartbeatData now =>
    if nodeId = id then p.map (.heartbeat heartbeatData now) else p
  | .checkNodeHealth _ now answers => p.map (.check now (answers id))
  | .removeNode nodeId => if nodeId = id then none else p

/-- The past of node `id` after a history: `none` when it is not registered. -/
def past (events : List Event) (id : String) : Option Past := events.foldl (Event.past id) none

/-! ## The records follow the past -/

/-- What the store has for a node that has the past `p`. A node that missed its
heartbeats is out of reach, whatever health its record has. -/
structure Agrees (id : String) (p : Past) (n : Node) (active : Finset String) : Prop where
  id_eq : n.id = id
  lastHeartbeat : n.lastHeartbeat = p.lastHeartbeat
  status : n.status = .active ↔ p.missed = false
  mem_active : id ∈ active ↔ p.missed = false
  health : p.missed = false → n.health = p.said

/-- The store has a record of each node that is registered, and of no other. -/
def Tracks (past : Option Past) (id : String) (s : Store) : Prop :=
  match past, s.node id with
  | none, none => id ∉ s.active
  | some p, some n => Agrees id p n s.active
  | _, _ => False

variable {s : Store} {p : Option Past} {id : String} {n : Node}

/-- What a call does to other nodes does not matter. -/
theorem Tracks.frame {s' : Store} (h : Tracks p id s) (hnode : s'.node id = s.node id)
    (hactive : id ∈ s'.active ↔ id ∈ s.active) : Tracks p id s' := by
  unfold Tracks at h ⊢
  rw [hnode]
  split at h
  · exact fun hmem => h (hactive.mp hmem)
  · exact { h with mem_active := hactive.trans h.mem_active }
  · exact h

theorem tracks_some (hnode : s.node id = some n) :
    Tracks p id s ↔ ∃ q, p = some q ∧ Agrees id q n s.active := by
  cases p <;> simp [Tracks, hnode]

theorem tracks_none (hnode : s.node id = none) : Tracks p id s ↔ p = none ∧ id ∉ s.active := by
  cases p <;> simp [Tracks, hnode]

theorem tracks_registerNode (h : Tracks p id s) (nodeData : NodeData) (generated : String)
    (now : ℤ) : Tracks (Event.past id p (.registerNode nodeData generated now)) id
      (registerNode nodeData generated now s) := by
  by_cases hid : orDefault nodeData.id generated = id
  · subst hid
    rw [tracks_some (n := newNode nodeData generated now) (update_self _ _ _)]
    refine ⟨.registered now, by simp [Event.past], rfl, rfl, ?_, ?_, fun _ => rfl⟩
    · simp [newNode, Past.registered]
    · simp [registerNode, newNode, Past.registered]
  · have hne : id ≠ orDefault nodeData.id generated := fun h => hid h.symm
    simp only [Event.past, hid, if_false]
    exact h.frame (update_of_ne hne _ _) (by simp [registerNode, newNode, hne])

theorem tracks_removeNode (h : Tracks p id s) (nodeId : String) :
    Tracks (Event.past id p (.removeNode nodeId)) id (removeNode nodeId s) := by
  by_cases hid : nodeId = id
  · subst hid
    rw [tracks_none (update_self _ _ _)]
    exact ⟨by simp [Event.past], by simp [removeNode]⟩
  · have hne : id ≠ nodeId := fun h => hid h.symm
    simp only [Event.past, hid, if_false]
    exact h.frame (update_of_ne hne _ _) (by simp [removeNode, hne])

theorem updateHeartbeat_eq (nodeId : String) (heartbeatData : HeartbeatData) (now : ℤ) (s : Store) :
    (updateHeartbeat nodeId heartbeatData now s).getD s = { s with
        node := update s.node nodeId ((s.node nodeId).map (beat heartbeatData now)) } := by
  cases hnode : s.node nodeId with
  | none =>
    have hself : update s.node nodeId none = s.node := by
      rw [← hnode, update_eq_self]
    simp [updateHeartbeat, hnode, hself]
  | some node => simp [updateHeartbeat, updateNode, hnode]

theorem tracks_updateHeartbeat (h : Tracks p id s) (nodeId : String)
    (heartbeatData : HeartbeatData) (now : ℤ) :
    Tracks (Event.past id p (.updateHeartbeat nodeId heartbeatData now)) id
      ((updateHeartbeat nodeId heartbeatData now s).getD s) := by
  rw [updateHeartbeat_eq]
  by_cases hid : nodeId = id
  · subst hid
    simp only [Event.past, if_true]
    cases hnode : s.node nodeId with
    | none =>
      obtain ⟨rfl, hmem⟩ := (tracks_none hnode).mp h
      exact (tracks_none (update_self _ _ _)).mpr ⟨rfl, hmem⟩
    | some n =>
      obtain ⟨q, rfl, hq⟩ := (tracks_some hnode).mp h
      refine (tracks_some (update_self _ _ _)).mpr ⟨_, rfl, ?_⟩
      exact
        { id_eq := hq.id_eq
          lastHeartbeat := rfl
          status := hq.status
          mem_active := hq.mem_active
          health := fun hmissed => congrArg (orDefault heartbeatData.health) (hq.health hmissed) }
  · have hne : id ≠ nodeId := fun h => hid h.symm
    simp only [Event.past, hid, if_false]
    exact h.frame (update_of_ne hne _ _) Iff.rfl

/-! ## The check -/

/-- What the check makes of a record. -/
def checked (now : ℤ) (answer : Bool) (n : Node) : Node :=
  if stale now n.lastHeartbeat then { n with status := .inactive, health := "unhealthy" }
  else if answer then n
  else { n with health := "unhealthy" }

/-- One round of the loop over an active node: it changes the node's record, and
takes the node out of the set when it is stale. -/
def Store.afterCheck (s : Store) (now : ℤ) (answers : String → Bool) (n : Node) : Store :=
  ⟨Function.update s.node n.id (some (checked now (answers n.id) n)),
    if stale now n.lastHeartbeat then s.active.erase n.id else s.active⟩

theorem checkNode_eq {now : ℤ} {answers : String → Bool} (hnode : s.node n.id = some n)
    (hstatus : n.status = .active) :
    checkNode now answers s n = some (s.afterCheck now answers n) := by
  have hself : update s.node n.id (some n) = s.node := by
    rw [← hnode, update_eq_self]
  by_cases hstale : stale now n.lastHeartbeat
  · simp [checkNode, Store.afterCheck, checked, updateNode, hstale, hstatus, hnode]
  · by_cases hanswer : answers n.id
    · simp [checkNode, Store.afterCheck, checked, hstale, hstatus, hanswer, hself]
    · simp [checkNode, Store.afterCheck, checked, updateNode, hstale, hstatus, hanswer, hnode]

/-- A node that is met by the check follows its past. -/
theorem Agrees.check {p : Past} {active : Finset String} (h : Agrees id p n active)
    (hmissed : p.missed = false) (now : ℤ) (answer : Bool) :
    Agrees id (p.check now answer) (checked now answer n)
      (if stale now n.lastHeartbeat then active.erase id else active) := by
  have hlast := h.lastHeartbeat
  by_cases hstale : stale now p.lastHeartbeat
  · simp only [Past.check, checked, hmissed, hlast, hstale, if_true, Bool.false_eq_true, if_false]
    exact ⟨h.id_eq, rfl, by simp, by simp, by simp⟩
  · by_cases hanswer : answer
    · simpa [Past.check, checked, hmissed, hlast, hstale, hanswer] using h
    · simp only [Past.check, checked, hmissed, hlast, hstale, hanswer, Bool.false_eq_true, if_false]
      exact ⟨h.id_eq, rfl, hmissed ▸ h.status, hmissed ▸ h.mem_active, fun _ => rfl⟩

/-- **The loop of the check.** It meets active nodes, each once, with the records
they have when it comes to them. It runs through, leaves the nodes it does not
meet alone, and each node it meets follows its past. -/
theorem foldlM_checkNode (now : ℤ) (answers : String → Bool) {nodes : List Node}
    (hnodup : (nodes.map Node.id).Nodup)
    (hnodes : ∀ n ∈ nodes, s.node n.id = some n ∧ n.status = .active) :
    ∃ s', nodes.foldlM (checkNode now answers) s = some s' ∧ ∀ id p, Tracks p id s →
      Tracks (if id ∈ nodes.map Node.id then p.map (.check now (answers id)) else p) id s' := by
  induction nodes generalizing s with
  | nil => exact ⟨s, rfl, fun id p h => by simpa using h⟩
  | cons n nodes ih =>
    obtain ⟨hn, hnodup⟩ := nodup_cons.mp hnodup
    obtain ⟨hnode, hstatus⟩ := hnodes n mem_cons_self
    have hrest : ∀ m ∈ nodes, m.id ≠ n.id :=
      fun m hm heq => hn (heq ▸ mem_map_of_mem hm)
    have hnode' : ∀ m ∈ nodes, (s.afterCheck now answers n).node m.id = s.node m.id :=
      fun m hm => update_of_ne (hrest m hm) _ _
    obtain ⟨s', hs', htracks⟩ := ih (s := s.afterCheck now answers n) hnodup
      (fun m hm => hnode' m hm ▸ hnodes m (mem_cons_of_mem n hm))
    refine ⟨s', ?_, fun id p h => ?_⟩
    · rw [foldlM_cons, checkNode_eq hnode hstatus]
      exact hs'
    · by_cases hid : id = n.id
      · subst hid
        obtain ⟨q, rfl, hq⟩ := (tracks_some hnode).mp h
        have hmissed := hq.status.mp hstatus
        simpa [hn] using htracks n.id _ ((tracks_some (update_self _ _ _)).mpr
          ⟨_, rfl, hq.check hmissed now (answers n.id)⟩)
      · simpa [hid] using htracks id p (h.frame (update_of_ne hid _ _)
            (by simp only [Store.afterCheck]; split <;> simp [hid]))

theorem mem_getAllNodes {listing : Listing} :
    n ∈ getAllNodes listing s ↔ ∃ id ∈ s.active, s.node id = some n := by
  simp [getAllNodes, mem_filterMap, listing.mem_iff]

/-- Every node follows its past. -/
def TracksAll (past : String → Option Past) (s : Store) : Prop := ∀ id, Tracks (past id) id s

/-- A node that is in the set has an active record under its own identifier. -/
theorem TracksAll.of_mem_active {past : String → Option Past} (h : TracksAll past s)
    (hid : id ∈ s.active) :
    ∃ p n, past id = some p ∧ s.node id = some n ∧ n.id = id ∧ n.status = .active := by
  have htracks := h id
  cases hnode : s.node id with
  | none => exact absurd hid ((tracks_none hnode).mp htracks).2
  | some n =>
    obtain ⟨q, hpast, hq⟩ := (tracks_some hnode).mp htracks
    exact ⟨q, n, hpast, rfl, hq.id_eq, hq.status.mpr (hq.mem_active.mp hid)⟩

/-- The nodes that are enumerated, by their identifiers. -/
theorem TracksAll.map_id_getAllNodes {past : String → Option Past} (h : TracksAll past s)
    (listing : Listing) : (getAllNodes listing s).map Node.id = listing.list s.active := by
  have hids : ∀ ids : List String, (∀ id ∈ ids, id ∈ s.active) →
      (ids.filterMap s.node).map Node.id = ids := by
    intro ids hids
    induction ids with
    | nil => rfl
    | cons id ids ih =>
      obtain ⟨-, n, -, hnode, hid, -⟩ := h.of_mem_active (hids id mem_cons_self)
      rw [filterMap_cons_some hnode, map_cons, hid,
        ih (fun id hid => hids id (mem_cons_of_mem _ hid))]
  exact hids _ (fun id hid => (listing.mem_iff s.active id).mp hid)

/-- A check runs through, and every node follows its past. -/
theorem TracksAll.checkNodeHealth {past : String → Option Past} (h : TracksAll past s)
    (listing : Listing) (now : ℤ) (answers : String → Bool) :
    ∃ s', checkNodeHealth listing now answers s = some s' ∧
      TracksAll (fun id => (past id).map (.check now (answers id))) s' := by
  have hids := h.map_id_getAllNodes listing
  obtain ⟨s', hs', htracks⟩ := foldlM_checkNode now answers
    (hids ▸ listing.nodup s.active) (fun n hn => by
      obtain ⟨id, hid, hnode⟩ := mem_getAllNodes.mp hn
      obtain ⟨-, m, -, hm, hmid, hstatus⟩ := h.of_mem_active hid
      obtain rfl : n = m := some.inj (hnode.symm.trans hm)
      exact ⟨hmid ▸ hnode, hstatus⟩)
  refine ⟨s', hs', fun id => ?_⟩
  have hid := htracks id _ (h id)
  simp only [hids, listing.mem_iff] at hid
  by_cases hmem : id ∈ s.active
  · simpa [hmem] using hid
  · -- a node outside the set is either unknown or has missed its heartbeats
    have hpast : (past id).map (Past.check now (answers id)) = past id := by
      have htracks := h id
      cases hnode : s.node id with
      | none => rw [((tracks_none hnode).mp htracks).1]; rfl
      | some n =>
        obtain ⟨q, hq, hagrees⟩ := (tracks_some hnode).mp htracks
        have hmissed : q.missed = true :=
          Bool.not_eq_false _ ▸ (fun hf => hmem (hagrees.mem_active.mpr hf))
        rw [hq, map_some, Past.check, if_pos hmissed]
    simpa [hpast] using hid

/-- One call. -/
theorem TracksAll.step {past : String → Option Past} (h : TracksAll past s) (event : Event) :
    TracksAll (fun id => event.past id (past id)) (event.run s) := by
  cases event with
  | registerNode nodeData generated now =>
    exact fun id => tracks_registerNode (h id) nodeData generated now
  | updateHeartbeat nodeId heartbeatData now =>
    exact fun id => tracks_updateHeartbeat (h id) nodeId heartbeatData now
  | checkNodeHealth listing now answers =>
    obtain ⟨s', hs', htracks⟩ := h.checkNodeHealth listing now answers
    simpa [Event.run, Event.past, hs'] using htracks
  | removeNode nodeId => exact fun id => tracks_removeNode (h id) nodeId

/-- **After every history, the store follows the past of each node.** -/
theorem tracks_run (events : List Event) : TracksAll (past events) (run events) := by
  have hfold : ∀ (events : List Event) (past : String → Option Past) (s : Store), TracksAll past s →
        TracksAll (fun id => events.foldl (Event.past id) (past id))
          (events.foldl Event.run s) := by
    intro events
    induction events with
    | nil => exact fun past s h => h
    | cons event events ih => exact fun past s h => ih _ _ (h.step event)
  exact hfold events (fun _ => none) Store.empty (fun id => Finset.notMem_empty id)

/-- `getAvailableNodes` returns the node `id`. -/
def Available (listing : Listing) (s : Store) (id : String) : Prop :=
  ∃ n ∈ getAvailableNodes listing s, n.id = id

/-- Which nodes are available, by their past. -/
theorem TracksAll.available_iff {past : String → Option Past} (h : TracksAll past s)
    (listing : Listing) {p : Past} (hpast : past id = some p) :
    Available listing s id ↔ p.missed = false ∧ p.said = "healthy" := by
  obtain ⟨n, hnode, hagrees⟩ : ∃ n, s.node id = some n ∧ Agrees id p n s.active := by
    have htracks := h id
    cases hnode : s.node id with
    | none => exact absurd (hpast.symm.trans ((tracks_none hnode).mp htracks).1) (by simp)
    | some n =>
      obtain ⟨q, hq, hagrees⟩ := (tracks_some hnode).mp htracks
      exact ⟨n, rfl, some.inj (hpast.symm.trans hq) ▸ hagrees⟩
  constructor
  · rintro ⟨m, hm, hmid⟩
    simp only [getAvailableNodes, mem_filter, decide_eq_true_eq] at hm
    obtain ⟨id', hid', hm'⟩ := mem_getAllNodes.mp hm.1
    obtain ⟨-, m', -, hm'', hid'', -⟩ := h.of_mem_active hid'
    obtain rfl : m = m' := some.inj (hm'.symm.trans hm'')
    obtain rfl : id' = id := hid''.symm.trans hmid
    obtain rfl : n = m := some.inj (hnode.symm.trans hm')
    have hmissed := hagrees.status.mp hm.2.1
    exact ⟨hmissed, (hagrees.health hmissed).symm.trans hm.2.2⟩
  · rintro ⟨hmissed, hsaid⟩
    refine ⟨n, ?_, hagrees.id_eq⟩
    simp only [getAvailableNodes, mem_filter, decide_eq_true_eq]
    exact ⟨mem_getAllNodes.mpr ⟨id, hagrees.mem_active.mpr hmissed, hnode⟩,
      hagrees.status.mpr hmissed, (hagrees.health hmissed).trans hsaid⟩

/-- Which nodes are available right after a check. -/
theorem available_check_iff {events : List Event} {p : Past} (hpast : past events id = some p)
    (listing listing' : Listing) (now : ℤ) (answers : String → Bool) :
    Available listing' (run (events ++ [.checkNodeHealth listing now answers])) id ↔
      stale now p.lastHeartbeat = false ∧ answers id = true ∧ p.missed = false ∧
        p.said = "healthy" := by
  have hpast' : past (events ++ [.checkNodeHealth listing now answers]) id =
      some (p.check now (answers id)) := by
    rw [past, foldl_append]
    show (past events id).map (Past.check now (answers id)) = _
    rw [hpast, map_some]
  rw [(tracks_run _).available_iff listing' hpast']
  by_cases hmissed : p.missed
  · simp [Past.check, hmissed]
  · by_cases hstale : stale now p.lastHeartbeat
    · simp [Past.check, hmissed, hstale]
    · by_cases hanswer : answers id
      · simp [Past.check, hmissed, hstale, hanswer]
      · simp [Past.check, hmissed, hstale, hanswer]

/-- The latest heartbeat reported no other health than `healthy`. -/
def Past.Well (p : Past) : Prop := p.reported = none ∨ p.reported = some "healthy"

instance (p : Past) : Decidable p.Well := inferInstanceAs (Decidable (_ ∨ _))

/-- **When a healthy node comes back.** Let a check follow any history. A
registered node with a fresh heartbeat that answers the ping and whose latest
heartbeat reports nothing amiss is then available, and one with a stale heartbeat
is not, if and only if the former has not been found stale by an earlier check
since it registered, and was last said to be healthy. -/
theorem comes_back_iff (events : List Event) (listing listing' : Listing) (now : ℤ)
    (answers : String → Bool) (id : String) (p : Past) (hpast : past events id = some p) :
    ((stale now p.lastHeartbeat = false → answers id = true → p.Well →
        Available listing' (run (events ++ [.checkNodeHealth listing now answers])) id) ∧
      (stale now p.lastHeartbeat = true →
        ¬Available listing' (run (events ++ [.checkNodeHealth listing now answers])) id)) ↔
      (stale now p.lastHeartbeat = false → answers id = true → p.Well →
        p.missed = false ∧ p.said = "healthy") := by
  have hiff := available_check_iff hpast listing listing' now answers
  constructor
  · rintro ⟨hback, -⟩ hfresh hanswer hwell
    exact (hiff.mp (hback hfresh hanswer hwell)).2.2
  · intro h
    refine ⟨fun hfresh hanswer hwell => hiff.mpr ⟨hfresh, hanswer, h hfresh hanswer hwell⟩, ?_⟩
    intro hstale havailable
    simp [hstale] at hiff
    exact hiff havailable

/-- The registration of a node that gives its own identifier. -/
def register (id : String) (now : ℤ) : Event :=
  .registerNode ⟨some id, some "10.0.0.1", none, none, none⟩ "generated" now

theorem comes_back_after_registration :
    past [register "a" 0] "a" = some (.registered 0) ∧
      ((stale 60000 0 = false → true = true → (Past.registered 0).Well →
          Available .sorted
            (run ([register "a" 0] ++ [.checkNodeHealth .sorted 60000 (fun _ => true)])) "a") ∧
        (stale 60000 0 = true → ¬Available .sorted
          (run ([register "a" 0] ++ [.checkNodeHealth .sorted 60000 (fun _ => true)])) "a")) :=
  have hpast : past [register "a" 0] "a" = some (.registered 0) := by decide
  ⟨hpast, (comes_back_iff _ .sorted .sorted 60000 (fun _ => true) "a" _ hpast).mpr
    (fun _ _ _ => ⟨rfl, rfl⟩)⟩

/-- A node that is silent for two minutes and then sends healthy heartbeats again. -/
def silence : List Event :=
  [register "a" 0, .checkNodeHealth .sorted 120001 (fun _ => true),
    .updateHeartbeat "a" ⟨none, some "healthy"⟩ 120002]

/-- **A node that missed its heartbeats once does not come back.** It is
registered, its heartbeat is one millisecond old and reports it `healthy`, it
answers the ping, and it is not available. -/
theorem not_available_after_silence :
    past silence "a" = some ⟨120002, some "healthy", true, "healthy"⟩ ∧
      stale 120003 120002 = false ∧
      (⟨120002, some "healthy", true, "healthy"⟩ : Past).Well ∧
      ¬Available .sorted
        (run (silence ++ [.checkNodeHealth .sorted 120003 (fun _ => true)])) "a" := by
  have hpast : past silence "a" = some ⟨120002, some "healthy", true, "healthy"⟩ := by decide
  rw [available_check_iff hpast]
  decide

end ControlPlane.NodeManager
