import Revalle.Data.KeyedList
import Revalle.ControlPlane.NodeManager
import Revalle.ControlPlane.UserIndexes

/-!
# Backup and restore

The managers of nodes, users and configuration keep their state in Redis, in several
families of keys: the records `node:ID`, `user:ID` and `config:KEY`, the set `nodes:active`
through which nodes are enumerated, and the indexes `user:username:NAME` and
`user:email:EMAIL` through which users are found. A backup has the records, without the
passwords, and a restore writes records. What it reproduces is the subject of
`BackupRestore`; here are the calls, and what is true of the stores after every history of the
managers (`sound_run`). The metrics of a backup are never restored, and are left out.
-/

namespace ControlPlane.BackupManager

open Option Function

open NodeManager (Node Listing)
open UserManager (Failure Quota Usage User userKey usernameKey)

/-! ## What is in Redis -/

/-- The values of a family of keys, by what follows the family's name in the key. -/
abbrev Family (V : Type) := String → Option V

/-- A user's record apart from the password. -/
structure Profile where
  id : String
  username : Option String
  email : Option String
  role : String
  quota : Quota
  usage : Usage
  status : String
  deriving DecidableEq

/-- A user's record, in which the password may be missing. -/
structure Account where
  profile : Profile
  password : Option String
  deriving DecidableEq

/-- What a key `user:…` has. -/
inductive UserValue
  | record (account : Account)
  | text (s : String)
  deriving DecidableEq

/-- What `setConfig` writes. -/
structure Config (J : Type) where
  value : J
  updatedAt : ℤ
  updatedBy : String

structure Redis (J : Type) where
  /-- `node:…` -/
  node : Family Node
  /-- the set `nodes:active` -/
  active : Finset String
  /-- `user:…` -/
  user : Family UserValue
  /-- `config:…` -/
  config : Family (Config J)

def Redis.empty (J : Type) : Redis J := ⟨fun _ => none, ∅, fun _ => none, fun _ => none⟩

/-- The reply of `KEYS` for a family: each key once, in an order that is the server's. -/
structure Reply {V : Type} (f : Family V) where
  list : List String
  nodup : list.Nodup
  mem_iff : ∀ k, k ∈ list ↔ f k ≠ none

/-- The replies for the three families. -/
structure Replies {J : Type} (s : Redis J) where
  node : Reply s.node
  user : Reply s.user
  config : Reply s.config

/-! ## What the managers read -/

def getAllNodes {J : Type} (listing : Listing) (s : Redis J) : List Node :=
  NodeManager.getAllNodes listing ⟨s.node, s.active⟩

def getAvailableNodes {J : Type} (listing : Listing) (s : Redis J) : List Node :=
  NodeManager.getAvailableNodes listing ⟨s.node, s.active⟩

/-- `getUser`, of a record that may have no password. -/
def getUser {J : Type} (userId : String) (s : Redis J) : Except Failure (Option Account) :=
  match s.user userId with
  | none => .ok none
  | some (.record account) => .ok (some account)
  | some (.text _) => .error .notRecord

def getUserByUsername {J : Type} (username : String) (s : Redis J) :
    Except Failure (Option Account) :=
  match s.user ("username:" ++ username) with
  | some (.text userId) => if userId = "" then .ok none else getUser userId s
  | _ => .ok none

/-- `key.includes(part)`. -/
def includes (part key : String) : Bool := decide (part.toList <:+: key.toList)

/-- The test by which the keys of indexes are left out. -/
def isIndexKey (key : String) : Bool := includes ":username:" key || includes ":email:" key

/-- The loop that reads the users with the given identifiers. -/
def readUsers {J : Type} (s : Redis J) : List String → Except Failure (List (String × Account))
  | [] => .ok []
  | id :: ids =>
    match getUser id s, readUsers s ids with
    | .error e, _ => .error e
    | .ok _, .error e => .error e
    | .ok none, .ok users => .ok users
    | .ok (some account), .ok users => .ok ((id, account) :: users)

/-- The users among the keys `user:*`. -/
def userIds (keys : List String) : List String := keys.filter (fun k => !isIndexKey ("user:" ++ k))

def getAllUsers {J : Type} {s : Redis J} (keys : Replies s) : Except Failure (List Profile) :=
  (readUsers s (userIds keys.user.list)).map (List.map (fun x => x.2.profile))

/-! ## Backup and restore -/

/-- The properties of an object, by their names. -/
abbrev Object (V : Type) := KeyedList (fun e : String × V => e.1)

/-- `object[e.1] = e.2`. An assignment to `__proto__` makes no property. -/
def assign {V : Type} (object : Object V) (e : String × V) : Object V :=
  if e.1 = "__proto__" then object else object.set e

def toObject {V : Type} (entries : List (String × V)) : Object V :=
  entries.foldl assign KeyedList.empty

/-- What the keys of a family have. -/
def entriesOf {V : Type} (f : Family V) (keys : List String) : List (String × V) :=
  keys.filterMap (fun k => (f k).map (fun v => (k, v)))

def getAllConfigs {J : Type} {s : Redis J} (keys : Replies s) : Object (Config J) :=
  toObject (entriesOf s.config keys.config.list)

structure Backup (J : Type) where
  nodes : Object Node
  users : Object Account
  config : Object (Config J)

def backupNodes {J : Type} {s : Redis J} (keys : Replies s) : Object Node :=
  toObject (entriesOf s.node (keys.node.list.filter (fun k => !isIndexKey ("node:" ++ k))))

/-- `delete user.password`. -/
def Account.withoutPassword (account : Account) : Account := { account with password := none }

def backupUsers {J : Type} {s : Redis J} (keys : Replies s) : Except Failure (Object Account) :=
  (readUsers s (userIds keys.user.list)).map
    (fun users => toObject (users.map (fun x => (x.1, x.2.withoutPassword))))

def backupConfig {J : Type} {s : Redis J} (keys : Replies s) : Object (Config J) :=
  toObject (entriesOf s.config keys.config.list)

def createBackup {J : Type} {s : Redis J} (keys : Replies s) : Except Failure (Backup J) :=
  (backupUsers keys).map (fun users => ⟨backupNodes keys, users, backupConfig keys⟩)

/-- The loop that writes the entries of an object as keys of a family. -/
def writeAll {V W : Type} (f : Family W) (write : V → W) (object : Object V) : Family W :=
  object.toList.foldl (fun f e => update f e.1 (some (write e.2))) f

def restoreBackup {J : Type} (backup : Backup J) (s : Redis J) : Redis J :=
  { s with
    node := writeAll s.node id backup.nodes
    user := writeAll s.user UserValue.record backup.users
    config := writeAll s.config id backup.config }

/-! ## The states the managers bring about -/

/-- The stores of the managers. -/
structure Managers (J : Type) where
  nodes : NodeManager.Store
  users : UserManager.Store
  config : Family (Config J)

def Managers.empty (J : Type) : Managers J := ⟨.empty, .empty, fun _ => none⟩

inductive Step (J : Type)
  | node (event : NodeManager.Event)
  | updateNode (nodeId : String) (updates : Node → Node)
  | user (call : UserManager.Call)
  | recordUsage (userId : String) (metrics : UserManager.Metrics)
  | setConfig (key : String) (value : J) (now : ℤ)
  | resetConfig (key : String)
  | resetAllConfigs

/-- A call that throws leaves the store as it was. (`updateSystemConfig` and `setNodeConfig`
are calls of `setConfig`.) -/
def Step.run {J : Type} (bcrypt : UserManager.Bcrypt) (m : Managers J) : Step J → Managers J
  | .node event => { m with nodes := event.run m.nodes }
  | .updateNode nodeId updates =>
    { m with nodes := (NodeManager.updateNode nodeId updates m.nodes).getD m.nodes }
  | .user call => { m with users := call.run bcrypt m.users }
  | .recordUsage userId metrics =>
    { m with users := (UserManager.recordUsage userId metrics m.users).toOption.getD m.users }
  | .setConfig key value now =>
    { m with config := update m.config key (some ⟨value, now, "system"⟩) }
  | .resetConfig key => { m with config := update m.config key none }
  | .resetAllConfigs => { m with config := fun _ => none }

def runSteps {J : Type} (bcrypt : UserManager.Bcrypt) (steps : List (Step J)) : Managers J :=
  steps.foldl (Step.run bcrypt) (.empty J)

def Profile.of (u : User) : Profile :=
  ⟨u.id, u.username, u.email, u.role, u.quota, u.usage, u.status⟩

def UserValue.of : UserManager.Value → UserValue
  | .record u => .record ⟨Profile.of u, some u.password⟩
  | .text s => .text s

/-- What Redis has. -/
def Managers.redis {J : Type} (m : Managers J) : Redis J where
  node := m.nodes.node
  active := m.nodes.active
  user k := (m.users (userKey k)).map UserValue.of
  config := m.config

/-! ## There are replies -/

section Finite

variable {V : Type}

def FiniteKeys {κ : Type} (f : κ → Option V) : Prop := {k | f k ≠ none}.Finite

theorem FiniteKeys.update {κ : Type} [DecidableEq κ] {f : κ → Option V} (h : FiniteKeys f) (k : κ)
    (o : Option V) : FiniteKeys (update f k o) := by
  refine (h.insert k).subset (fun x hx => ?_)
  by_cases hxk : x = k
  · exact .inl hxk
  · refine .inr ?_
    simpa [update_of_ne hxk] using hx

theorem FiniteKeys.of_subset {κ : Type} {f g : κ → Option V} (h : FiniteKeys f)
    (hsub : ∀ k, g k ≠ none → f k ≠ none) : FiniteKeys g :=
  h.subset hsub

theorem FiniteKeys.exists_reply {f : Family V} (h : FiniteKeys f) : Nonempty (Reply f) := by
  have hfinite : {k | f k ≠ none}.Finite := h
  exact ⟨⟨hfinite.toFinset.toList, Finset.nodup_toList _, fun k => by simp⟩⟩

open NodeManager

/-- The check of a node makes no new record. -/
theorem checkNode_keys {now : ℤ} {answers : String → Bool} {s s' : NodeManager.Store} {node : Node}
    (h : checkNode now answers s node = some s') : ∀ k, s'.node k ≠ none → s.node k ≠ none := by
  have hupdate : ∀ {id updates} {s1 : NodeManager.Store}, updateNode id updates s = some s1 →
        ∀ k, s1.node k ≠ none → s.node k ≠ none := by
    intro id updates s1 h k hk
    unfold updateNode at h
    cases hnode : s.node id with
    | none => simp [hnode] at h
    | some n =>
      simp only [hnode, some.injEq] at h
      subst h
      by_cases hkid : k = id
      · rw [hkid, hnode]
        exact some_ne_none n
      · have hk : update s.node id _ k ≠ none := hk
        rwa [update_of_ne hkid] at hk
  unfold checkNode at h
  split at h
  · split at h
    · obtain ⟨s1, h1, heq⟩ := bind_eq_some_iff.mp h
      obtain rfl := some.inj heq
      exact fun k hk => hupdate h1 k hk
    · obtain rfl := some.inj h
      exact fun _ => id
  · split at h
    · split at h
      · split at h
        · rename_i h1
          obtain rfl := some.inj h
          exact fun k hk => hupdate h1 k hk
        · obtain rfl := some.inj h
          exact fun _ => id
      · obtain rfl := some.inj h
        exact fun _ => id
    · split at h
      · exact hupdate h
      · obtain rfl := some.inj h
        exact fun _ => id

theorem foldlM_checkNode_keys {now : ℤ} {answers : String → Bool} {nodes : List Node}
    {s s' : NodeManager.Store} (h : nodes.foldlM (checkNode now answers) s = some s') :
    ∀ k, s'.node k ≠ none → s.node k ≠ none := by
  induction nodes generalizing s with
  | nil =>
    obtain rfl := some.inj h
    exact fun _ => id
  | cons node nodes ih =>
    obtain ⟨s1, h1, hrest⟩ := bind_eq_some_iff.mp h
    exact fun k hk => checkNode_keys h1 k (ih hrest k hk)

theorem finite_node_event {s : NodeManager.Store} (h : FiniteKeys s.node)
    (event : NodeManager.Event) : FiniteKeys (event.run s).node := by
  cases event with
  | registerNode nodeData generated now => exact h.update _ _
  | removeNode nodeId => exact h.update _ _
  | updateHeartbeat nodeId heartbeatData now =>
    show FiniteKeys ((updateHeartbeat nodeId heartbeatData now s).getD s).node
    rw [updateHeartbeat]
    cases hnode : s.node nodeId with
    | none => exact h
    | some node =>
      simp only [updateNode, hnode]
      exact h.update _ _
  | checkNodeHealth listing now answers =>
    show FiniteKeys ((checkNodeHealth listing now answers s).getD s).node
    cases hcheck : checkNodeHealth listing now answers s with
    | none => exact h
    | some s' => exact h.of_subset (foldlM_checkNode_keys hcheck)

end Finite

/-! ## Texts are in indexes only -/

theorem includes_of_append (a part b : String) : includes part (a ++ part ++ b) = true := by
  refine decide_eq_true ⟨a.toList, b.toList, ?_⟩
  simp

theorem isIndexKey_usernameKey (name : String) : isIndexKey (usernameKey name) = true := by
  have h := includes_of_append "user" ":username:" name
  rw [isIndexKey, Bool.or_eq_true]
  exact .inl h

open UserManager

theorem isIndexKey_emailKey (email : String) : isIndexKey (emailKey email) = true := by
  have h := includes_of_append "user" ":email:" email
  rw [isIndexKey, Bool.or_eq_true]
  exact .inr h

/-- What the stores are like after every history. -/
structure Sound {J : Type} (m : Managers J) : Prop where
  nodes : FiniteKeys m.nodes.node
  users : FiniteKeys (V := UserManager.Value) m.users
  config : FiniteKeys m.config
  text : ∀ key s, m.users key = some (.text s) → isIndexKey key = true

/-- A user store with finitely many keys, and texts at the keys of indexes only. -/
def SoundUsers (s : UserManager.Store) : Prop :=
  FiniteKeys (V := UserManager.Value) s ∧ ∀ key t, s key = some (.text t) → isIndexKey key = true

variable {s : UserManager.Store}

theorem SoundUsers.record (h : SoundUsers s) (key : String) (u : User) :
    SoundUsers (s.set key (.record u)) := by
  refine ⟨h.1.update _ _, fun k t hk => ?_⟩
  rw [UserManager.Store.set_eq_some_iff] at hk
  rcases hk with ⟨-, hv⟩ | ⟨-, hk⟩
  · exact nomatch hv
  · exact h.2 k t hk

theorem SoundUsers.text (h : SoundUsers s) {key : String} (hkey : isIndexKey key = true)
    (t : String) : SoundUsers (s.set key (.text t)) := by
  refine ⟨h.1.update _ _, fun k t' hk => ?_⟩
  rw [UserManager.Store.set_eq_some_iff] at hk
  rcases hk with ⟨rfl, -⟩ | ⟨-, hk⟩
  · exact hkey
  · exact h.2 k t' hk

theorem SoundUsers.del (h : SoundUsers s) (key : String) : SoundUsers (s.del key) := by
  refine ⟨h.1.update _ _, fun k t hk => ?_⟩
  rw [UserManager.Store.del_eq_some_iff] at hk
  exact h.2 k t hk.2

theorem SoundUsers.call (h : SoundUsers s) (bcrypt : UserManager.Bcrypt) (call : UserManager.Call) :
    SoundUsers (call.run bcrypt s) := by
  cases call with
  | createUser userData random now =>
    show SoundUsers (createUser bcrypt userData _ now s)
    unfold createUser
    generalize newUser bcrypt userData _ now = u
    have htwo := (h.record (userKey u.id) u).text (isIndexKey_usernameKey (label u.username)) u.id
    show SoundUsers (if _ then _ else _)
    split
    · exact htwo.text (isIndexKey_emailKey _) _
    · exact htwo
  | updateUser userId updates =>
    show SoundUsers ((updateUser bcrypt userId updates s).toOption.getD s)
    rw [updateUser]
    split
    · exact h
    · exact h
    · exact h.record _ _
  | deleteUser userId =>
    show SoundUsers ((deleteUser userId s).toOption.getD s)
    rw [deleteUser]
    split
    · exact h
    · exact h
    · split
      · exact ((h.del _).del _).del _
      · exact (h.del _).del _

theorem Sound.step {J : Type} {m : Managers J} (h : Sound m) (bcrypt : UserManager.Bcrypt)
    (step : Step J) : Sound (step.run bcrypt m) := by
  cases step with
  | node event => exact ⟨finite_node_event h.nodes event, h.users, h.config, h.text⟩
  | updateNode nodeId updates =>
    refine ⟨?_, h.users, h.config, h.text⟩
    show FiniteKeys ((NodeManager.updateNode nodeId updates m.nodes).getD m.nodes).node
    rw [NodeManager.updateNode]
    cases m.nodes.node nodeId with
    | none => exact h.nodes
    | some node => exact h.nodes.update _ _
  | user call =>
    obtain ⟨hfinite, htext⟩ := SoundUsers.call ⟨h.users, h.text⟩ bcrypt call
    exact ⟨h.nodes, hfinite, h.config, htext⟩
  | recordUsage userId metrics =>
    have husers : SoundUsers ((recordUsage userId metrics m.users).toOption.getD m.users) := by
      rw [recordUsage]
      split
      · exact ⟨h.users, h.text⟩
      · exact ⟨h.users, h.text⟩
      · exact SoundUsers.record ⟨h.users, h.text⟩ _ _
    exact ⟨h.nodes, husers.1, h.config, husers.2⟩
  | setConfig key value now => exact ⟨h.nodes, h.users, h.config.update _ _, h.text⟩
  | resetConfig key => exact ⟨h.nodes, h.users, h.config.update _ _, h.text⟩
  | resetAllConfigs =>
    exact ⟨h.nodes, h.users, h.config.of_subset (fun _ => absurd rfl), h.text⟩

theorem sound_run {J : Type} (bcrypt : UserManager.Bcrypt) (steps : List (Step J)) :
    Sound (runSteps bcrypt steps) := by
  induction steps using List.reverseRecOn with
  | nil =>
    refine ⟨?_, ?_, ?_, fun _ _ h => absurd h (by simp [runSteps, Managers.empty,
      UserManager.Store.empty])⟩
    · exact Set.finite_empty.subset (fun _ => absurd rfl)
    · exact Set.finite_empty.subset (fun _ => absurd rfl)
    · exact Set.finite_empty.subset (fun _ => absurd rfl)
  | append_singleton steps step ih =>
    rw [runSteps, List.foldl_append]
    exact ih.step bcrypt step

/-- There are replies of `KEYS` in every state that the managers bring about. -/
theorem Sound.exists_replies {J : Type} {m : Managers J} (h : Sound m) :
    Nonempty (Replies m.redis) := by
  have huser : FiniteKeys m.redis.user := by
    refine Set.Finite.subset (Set.Finite.preimage (f := userKey)
      (fun a _ b _ hab => userKey_inj.mp hab) h.users) (fun k hk => ?_)
    intro hnone
    refine hk ?_
    show (m.users (userKey k)).map UserValue.of = none
    rw [hnone]
    rfl
  obtain ⟨nodes⟩ := FiniteKeys.exists_reply h.nodes
  obtain ⟨users⟩ := huser.exists_reply
  obtain ⟨config⟩ := FiniteKeys.exists_reply h.config
  exact ⟨⟨nodes, users, config⟩⟩

end ControlPlane.BackupManager
