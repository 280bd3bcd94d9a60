import Mathlib

/-!
# The connection pools of the proxy tunnel

`ProxyTunnel` has a pool of connections for each proxy node. `active` is to be the
number of sockets of the pool that are still open: it is incremented when a socket is
created, and decremented by a handler of the socket's `close` event.

The periodic cleanup destroys the sockets of idle connections, takes the connections
out of the pool, and decrements `active` as well. But a socket that is destroyed emits
`close` all the same, and so is counted off twice. From then on `active` is too small, by
the number of connections that cleanups have removed (`pool_accounting`), and more
sockets can be open than the pool allows.
-/

namespace ControlPlane.ProxyTunnel

open Function List

/-- Where a socket is in its life. -/
inductive Socket
  | opened
  /-- `destroyed`, by this process or since the peer has closed it -/
  | destroyed
  /-- the `close` event has been handled -/
  | closed
  deriving DecidableEq, Repr

/-- A connection of a pool, with its socket. -/
structure Conn where
  nodeId : String
  socket : Socket
  inUse : Bool
  lastUsed : ℤ
  deriving DecidableEq, Repr

/-- A pool; its connections are references. -/
structure Pool where
  connections : List ℕ
  created : ℕ
  reused : ℕ
  active : ℤ

def Pool.new : Pool := ⟨[], 0, 0, 0⟩

structure Options where
  maxConnectionsPerNode : ℕ
  /-- in milliseconds, as are all times -/
  keepAliveTimeout : ℤ

/-- The pools, and the connections that were created so far. A pool that `getPool` has
not made yet is an empty one. -/
structure Tunnel where
  pool : String → Pool
  conn : ℕ → Conn
  next : ℕ

def Tunnel.new : Tunnel := ⟨fun _ => .new, fun _ => ⟨"", .closed, false, 0⟩, 0⟩

def Tunnel.setPool (t : Tunnel) (nodeId : String) (p : Pool) : Tunnel :=
  { t with pool := Function.update t.pool nodeId p }

def Tunnel.setConn (t : Tunnel) (c : ℕ) (conn : Conn) : Tunnel :=
  { t with conn := Function.update t.conn c conn }

/-- What `getConnection` looks for. -/
def reusable (options : Options) (now : ℤ) (conn : Conn) : Bool :=
  !conn.inUse && conn.socket = .opened && now - conn.lastUsed < options.keepAliveTimeout

/-- A new connection. -/
def connect (nodeId : String) (now : ℤ) (t : Tunnel) : Tunnel :=
  let pool := t.pool nodeId
  { pool := Function.update t.pool nodeId
      { pool with
        connections := pool.connections ++ [t.next]
        created := pool.created + 1
        active := pool.active + 1 }
    conn := Function.update t.conn t.next ⟨nodeId, .opened, true, now⟩
    next := t.next + 1 }

/-- A connection is taken from the pool again. -/
def reuse (nodeId : String) (c : ℕ) (now : ℤ) (t : Tunnel) : Tunnel :=
  let pool := t.pool nodeId
  (t.setPool nodeId { pool with reused := pool.reused + 1 }).setConn c
    { t.conn c with inUse := true, lastUsed := now }

def getConnection (options : Options) (nodeId : String) (now : ℤ) (t : Tunnel) :
    Except String (ℕ × Tunnel) :=
  match (t.pool nodeId).connections.find? (fun c => reusable options now (t.conn c)) with
  | some c => .ok (c, reuse nodeId c now t)
  | none =>
    if (t.pool nodeId).active ≥ options.maxConnectionsPerNode then
      .error ("Connection pool exhausted for node " ++ nodeId)
    else .ok (t.next, connect nodeId now t)

def releaseConnection (c : ℕ) (now : ℤ) (t : Tunnel) : Tunnel :=
  t.setConn c { t.conn c with inUse := false, lastUsed := now }

/-- What a cleanup removes from its pool. -/
def gone (options : Options) (now : ℤ) (conn : Conn) : Bool :=
  !conn.inUse && (now - conn.lastUsed > options.keepAliveTimeout || conn.socket ≠ .opened)

/-- The connections that a cleanup removes from a pool. -/
def removedFrom (options : Options) (now : ℤ) (t : Tunnel) (nodeId : String) : List ℕ :=
  (t.pool nodeId).connections.filter (fun c => gone options now (t.conn c))

/-- `destroy`, which does nothing to a socket that is destroyed. -/
def Socket.destroy : Socket → Socket
  | .opened => .destroyed
  | s => s

/-- `_cleanupConnections`. A connection is in the pool of its node only. -/
def cleanupConnections (options : Options) (now : ℤ) (t : Tunnel) : Tunnel :=
  { t with
    pool := fun nodeId =>
      let pool := t.pool nodeId
      { pool with
        connections := pool.connections.filter (fun c => !gone options now (t.conn c))
        active := pool.active - (removedFrom options now t nodeId).length }
    conn := fun c =>
      if c ∈ removedFrom options now t (t.conn c).nodeId then
        { t.conn c with socket := (t.conn c).socket.destroy }
      else t.conn c }

/-- The peer closes a connection, or it fails. -/
def peerCloses (c : ℕ) (t : Tunnel) : Tunnel :=
  t.setConn c { t.conn c with socket := (t.conn c).socket.destroy }

/-- The handler of the `close` event. A socket emits the event once, after it was
destroyed. -/
def onClose (c : ℕ) (t : Tunnel) : Tunnel :=
  if (t.conn c).socket = .destroyed then
    let nodeId := (t.conn c).nodeId
    let pool := t.pool nodeId
    (t.setPool nodeId
      { pool with active := pool.active - 1, connections := pool.connections.erase c }).setConn c
      { t.conn c with socket := .closed }
  else t

inductive Event
  | getConnection (nodeId : String) (now : ℤ)
  | releaseConnection (c : ℕ) (now : ℤ)
  | cleanupConnections (now : ℤ)
  | peerCloses (c : ℕ)
  | close (c : ℕ)

/-- The state after an event. When `getConnection` throws, it has changed nothing. -/
def Event.run (options : Options) (t : Tunnel) : Event → Tunnel
  | .getConnection nodeId now =>
    match ProxyTunnel.getConnection options nodeId now t with
    | .ok (_, t) => t
    | .error _ => t
  | .releaseConnection c now => if c < t.next then ProxyTunnel.releaseConnection c now t else t
  | .cleanupConnections now => ProxyTunnel.cleanupConnections options now t
  | .peerCloses c => if c < t.next then ProxyTunnel.peerCloses c t else t
  | .close c => if c < t.next then onClose c t else t

def runEvents (options : Options) (events : List Event) : Tunnel :=
  events.foldl (Event.run options) .new

/-! ## What `active` is -/

/-- The sockets of a node whose `close` event has not been handled. -/
def openSockets (t : Tunnel) (nodeId : String) : Finset ℕ :=
  (Finset.range t.next).filter
    (fun c => (t.conn c).nodeId = nodeId ∧ (t.conn c).socket ≠ .closed)

/-- How many connections of a node an event removes. -/
def Event.removes (options : Options) (t : Tunnel) (nodeId : String) : Event → ℕ
  | .cleanupConnections now => (removedFrom options now t nodeId).length
  | _ => 0

/-- How many connections of a node the cleanups of a history have removed. -/
def removed (options : Options) (nodeId : String) : Tunnel → List Event → ℕ
  | _, [] => 0
  | t, event :: events =>
    event.removes options t nodeId + removed options nodeId (event.run options t) events

/-- **The invariant**: a pool has connections of its node only, each once, and none whose
`close` event has been handled; and `active` is off by the number `k` of the connections
that cleanups have removed. -/
structure Inv (options : Options) (k : String → ℕ) (t : Tunnel) : Prop where
  nodup : ∀ n, (t.pool n).connections.Nodup
  mem_open : ∀ n, ∀ c ∈ (t.pool n).connections, c ∈ openSockets t n
  active_eq : ∀ n, (t.pool n).active = (openSockets t n).card - k n
  active_le : ∀ n, (t.pool n).active ≤ options.maxConnectionsPerNode

section Steps

variable {options : Options} {k : String → ℕ} {t : Tunnel}

theorem mem_openSockets {n : String} {c : ℕ} : c ∈ openSockets t n ↔
      c < t.next ∧ (t.conn c).nodeId = n ∧ (t.conn c).socket ≠ .closed := by
  simp [openSockets]

theorem inv_new (options : Options) : Inv options (fun _ => 0) .new where
  nodup _ := nodup_nil
  mem_open _ c hc := by simp [Tunnel.new, Pool.new] at hc
  active_eq _ := rfl
  active_le _ := Int.natCast_nonneg _

/-- Changes of connections that keep their nodes and do not handle a `close` event. -/
theorem openSockets_congr {t' : Tunnel} (hnext : t'.next = t.next)
    (hnode : ∀ c, (t'.conn c).nodeId = (t.conn c).nodeId)
    (hsocket : ∀ c, (t'.conn c).socket = .closed ↔ (t.conn c).socket = .closed) (n : String) :
    openSockets t' n = openSockets t n := by
  ext c
  rw [mem_openSockets, mem_openSockets, hnext, hnode, Ne, hsocket]

theorem Inv.setConn (h : Inv options k t) {c : ℕ} {conn : Conn}
    (hnode : conn.nodeId = (t.conn c).nodeId)
    (hsocket : conn.socket = .closed ↔ (t.conn c).socket = .closed) :
    Inv options k (t.setConn c conn) := by
  have hopen : ∀ n, openSockets (t.setConn c conn) n = openSockets t n := by
    refine openSockets_congr rfl (fun x => ?_) (fun x => ?_)
    · show (update t.conn c conn x).nodeId = _
      by_cases hx : x = c
      · rw [hx, update_self, hnode]
      · rw [update_of_ne hx]
    · show (update t.conn c conn x).socket = .closed ↔ _
      by_cases hx : x = c
      · rw [hx, update_self, hsocket]
      · rw [update_of_ne hx]
  refine ⟨h.nodup, fun n x hx => ?_, fun n => ?_, h.active_le⟩
  · rw [hopen]
    exact h.mem_open n x hx
  · rw [hopen]
    exact h.active_eq n

theorem Socket.destroy_eq_closed (s : Socket) : s.destroy = .closed ↔ s = .closed := by
  cases s <;> simp [Socket.destroy]

/-- What the invariant says of the pool and the open sockets of one node. -/
structure Sound (options : Options) (k : ℕ) (pool : Pool) (sockets : Finset ℕ) : Prop where
  nodup : pool.connections.Nodup
  mem_open : ∀ c ∈ pool.connections, c ∈ sockets
  active_eq : pool.active = sockets.card - k
  active_le : pool.active ≤ options.maxConnectionsPerNode

theorem Inv.sound (h : Inv options k t) (n : String) :
    Sound options (k n) (t.pool n) (openSockets t n) :=
  ⟨h.nodup n, h.mem_open n, h.active_eq n, h.active_le n⟩

/-- A change of one node. -/
theorem Inv.change (h : Inv options k t) {t' : Tunnel} (nodeId : String)
    (hother : ∀ n, n ≠ nodeId → t'.pool n = t.pool n ∧ openSockets t' n = openSockets t n)
    (hnode : Sound options (k nodeId) (t'.pool nodeId) (openSockets t' nodeId)) :
    Inv options k t' := by
  have hall : ∀ n, Sound options (k n) (t'.pool n) (openSockets t' n) := by
    intro n
    by_cases hn : n = nodeId
    · rw [hn]
      exact hnode
    · rw [(hother n hn).1, (hother n hn).2]
      exact h.sound n
  exact ⟨fun n => (hall n).nodup, fun n => (hall n).mem_open, fun n => (hall n).active_eq,
    fun n => (hall n).active_le⟩

/-- Counting a reuse changes nothing that matters. -/
theorem Inv.reuse (h : Inv options k t) (nodeId : String) (c : ℕ) (now : ℤ) :
    Inv options k (reuse nodeId c now t) := by
  have hpool : Inv options k
      (t.setPool nodeId { t.pool nodeId with reused := (t.pool nodeId).reused + 1 }) := by
    refine h.change nodeId (fun n hn => ⟨update_of_ne hn _ _, rfl⟩) ?_
    show Sound _ _ (update t.pool nodeId _ nodeId) _
    rw [update_self]
    exact { h.sound nodeId with }
  exact hpool.setConn rfl Iff.rfl

theorem openSockets_connect (nodeId : String) (now : ℤ) (n : String) :
    openSockets (connect nodeId now t) n =
      if n = nodeId then insert t.next (openSockets t n) else openSockets t n := by
  ext c
  have hmem : c ∈ openSockets (connect nodeId now t) n ↔
      c = t.next ∧ n = nodeId ∨ c ∈ openSockets t n := by
    rw [mem_openSockets, mem_openSockets]
    show c < t.next + 1 ∧ (update t.conn t.next _ c).nodeId = n ∧
      (update t.conn t.next _ c).socket ≠ .closed ↔ _
    by_cases hc : c = t.next
    · subst hc
      simp [eq_comm]
    · have hlt : c < t.next + 1 ↔ c < t.next := by omega
      simp [hc, hlt]
  rw [hmem]
  split
  · rename_i hn
    simp [hn]
  · rename_i hn
    simp [hn]

theorem not_mem_openSockets_next (n : String) : t.next ∉ openSockets t n := by
  rw [mem_openSockets]
  omega

variable (h : Inv options k t)
include h

theorem Inv.connect {nodeId : String} (now : ℤ)
    (hactive : (t.pool nodeId).active < options.maxConnectionsPerNode) :
    Inv options k (connect nodeId now t) := by
  refine h.change nodeId (fun n hn => ⟨update_of_ne hn _ _, ?_⟩) ?_
  · rw [openSockets_connect, if_neg hn]
  · rw [openSockets_connect, if_pos rfl]
    show Sound _ _ (update t.pool nodeId _ nodeId) _
    rw [update_self]
    refine ⟨concat_eq_append ▸ (h.nodup nodeId).concat fun hmem => ?_, fun c hc => ?_, ?_, ?_⟩
    · exact not_mem_openSockets_next nodeId (h.mem_open nodeId _ hmem)
    · rw [Finset.mem_insert]
      rcases mem_append.mp hc with hc | hc
      · exact .inr (h.mem_open nodeId c hc)
      · exact .inl (mem_singleton.mp hc)
    · rw [Finset.card_insert_of_notMem (not_mem_openSockets_next nodeId)]
      show (t.pool nodeId).active + 1 = _
      rw [h.active_eq nodeId]
      omega
    · show (t.pool nodeId).active + 1 ≤ _
      omega

theorem Inv.getConnection (nodeId : String) (now : ℤ) :
    Inv options k ((Event.getConnection nodeId now).run options t) := by
  show Inv options k (match ProxyTunnel.getConnection options nodeId now t with
    | .ok (_, t) => t
    | .error _ => t)
  unfold ProxyTunnel.getConnection
  cases (t.pool nodeId).connections.find? (fun c => reusable options now (t.conn c)) with
  | some c => exact h.reuse nodeId c now
  | none =>
    by_cases hfull : (t.pool nodeId).active ≥ options.maxConnectionsPerNode
    · simp only [if_pos hfull]
      exact h
    · simp only [if_neg hfull]
      exact h.connect now (lt_of_not_ge hfull)

theorem Inv.cleanupConnections (now : ℤ) :
    Inv options (fun n => k n + (removedFrom options now t n).length)
      (cleanupConnections options now t) := by
  have hopen : ∀ n, openSockets (ProxyTunnel.cleanupConnections options now t) n =
      openSockets t n := by
    refine openSockets_congr rfl (fun c => ?_) (fun c => ?_)
    · show (if _ then _ else _ : Conn).nodeId = _
      split <;> rfl
    · show (if _ then _ else _ : Conn).socket = .closed ↔ _
      split
      · exact Socket.destroy_eq_closed _
      · rfl
  refine ⟨fun n => ?_, fun n c hc => ?_, fun n => ?_, fun n => ?_⟩
  · exact (h.nodup n).filter _
  · rw [hopen]
    exact h.mem_open n c (mem_filter.mp hc).1
  · rw [hopen]
    show (t.pool n).active - ((removedFrom options now t n).length : ℤ) = _
    rw [h.active_eq n]
    omega
  · show (t.pool n).active - ((removedFrom options now t n).length : ℤ) ≤ _
    have := h.active_le n
    omega

theorem Inv.onClose {c : ℕ} (hc : c < t.next) : Inv options k (onClose c t) := by
  unfold ProxyTunnel.onClose
  by_cases hsocket : (t.conn c).socket = .destroyed
  · rw [if_pos hsocket]
    generalize ht' : Tunnel.setConn _ c _ = t'
    have hmem : c ∈ openSockets t (t.conn c).nodeId := by
      rw [mem_openSockets, hsocket]
      exact ⟨hc, rfl, nofun⟩
    have hopen : ∀ n, openSockets t' n = (openSockets t n).erase c := by
      intro n
      ext x
      rw [Finset.mem_erase, mem_openSockets, mem_openSockets, ← ht']
      show x < t.next ∧ (update t.conn c _ x).nodeId = n ∧
        (update t.conn c _ x).socket ≠ .closed ↔ _
      by_cases hx : x = c
      · rw [hx, update_self]
        simp
      · simp [hx]
    have hsame : t'.pool (t.conn c).nodeId = { t.pool (t.conn c).nodeId with
          active := (t.pool (t.conn c).nodeId).active - 1
          connections := (t.pool (t.conn c).nodeId).connections.erase c } := by
      rw [← ht']
      exact update_self ..
    refine h.change (t.conn c).nodeId (fun n hn => ⟨?_, ?_⟩) ?_
    · rw [← ht']
      exact update_of_ne hn _ _
    · -- the socket is of no other node
      rw [hopen, Finset.erase_eq_of_notMem fun hcn => hn (mem_openSockets.mp hcn).2.1.symm]
    · rw [hopen, hsame]
      refine ⟨(h.nodup _).erase c, fun x hx => ?_, ?_, ?_⟩
      · obtain ⟨hxc, hx⟩ := (List.Nodup.mem_erase_iff (h.nodup _)).mp hx
        exact Finset.mem_erase.mpr ⟨hxc, h.mem_open _ x hx⟩
      · rw [Finset.card_erase_of_mem hmem]
        show (t.pool _).active - 1 = _
        have hpos : 0 < (openSockets t (t.conn c).nodeId).card := Finset.card_pos.mpr ⟨c, hmem⟩
        rw [h.active_eq _]
        omega
      · show (t.pool _).active - 1 ≤ _
        have := h.active_le (t.conn c).nodeId
        omega
  · rw [if_neg hsocket]
    exact h

/-- **One event.** -/
theorem Inv.event (event : Event) :
    Inv options (fun n => k n + event.removes options t n) (event.run options t) := by
  cases event with
  | getConnection nodeId now => exact h.getConnection nodeId now
  | releaseConnection c now =>
    show Inv options k (if c < t.next then _ else _)
    split
    · exact h.setConn rfl Iff.rfl
    · exact h
  | cleanupConnections now => exact h.cleanupConnections now
  | peerCloses c =>
    show Inv options k (if c < t.next then _ else _)
    split
    · exact h.setConn rfl (Socket.destroy_eq_closed _)
    · exact h
  | close c =>
    show Inv options k (if c < t.next then _ else _)
    split
    · rename_i hc
      exact h.onClose hc
    · exact h

/-- **A whole history.** -/
theorem Inv.run (events : List Event) : Inv options (fun n => k n + removed options n t events)
      (events.foldl (Event.run options) t) := by
  induction events generalizing k t with
  | nil => exact h
  | cons event events ih =>
    have hrun := ih (h.event event)
    simp only [Nat.add_assoc] at hrun
    exact hrun

end Steps

/-- When `getConnection` throws. -/
theorem getConnection_error_iff (options : Options) (nodeId : String) (now : ℤ) (t : Tunnel) :
    (∃ e, getConnection options nodeId now t = .error e) ↔
      (∀ c ∈ (t.pool nodeId).connections, reusable options now (t.conn c) = false) ∧
        options.maxConnectionsPerNode ≤ (t.pool nodeId).active := by
  unfold getConnection
  cases hfind : (t.pool nodeId).connections.find? (fun c => reusable options now (t.conn c)) with
  | some c =>
    have hc := mem_of_find?_eq_some hfind
    have hreusable : reusable options now (t.conn c) = true := by
      simpa using find?_some hfind
    constructor
    · simp
    · rintro ⟨hnone, -⟩
      rw [hnone c hc] at hreusable
      exact nomatch hreusable
  | none =>
    have hnone : ∀ c ∈ (t.pool nodeId).connections, reusable options now (t.conn c) = false := by
      intro c hc
      simpa using find?_eq_none.mp hfind c hc
    by_cases hfull : (t.pool nodeId).active ≥ options.maxConnectionsPerNode
    · simp only [if_pos hfull]
      exact ⟨fun _ => ⟨hnone, hfull⟩, fun _ => ⟨_, rfl⟩⟩
    · simp only [if_neg hfull]
      constructor
      · simp
      · exact fun h => absurd h.2 hfull

/-- **What the counter of a pool is**, after every history: the number of the sockets
that are still open, less the number of the connections that cleanups have removed. So
it is right iff cleanups have removed none; it never exceeds the limit; and it becomes
negative, or lets through more sockets than the limit, just by what was removed. -/
theorem pool_accounting (options : Options) (events : List Event) (nodeId : String) :
    ((runEvents options events).pool nodeId).active =
        (openSockets (runEvents options events) nodeId).card -
          (removed options nodeId .new events : ℤ) ∧
      (((runEvents options events).pool nodeId).active =
          (openSockets (runEvents options events) nodeId).card ↔
        removed options nodeId .new events = 0) ∧
      ((runEvents options events).pool nodeId).active ≤ options.maxConnectionsPerNode ∧
      ∀ now, (∃ e, getConnection options nodeId now (runEvents options events) = .error e) ↔
        (∀ c ∈ ((runEvents options events).pool nodeId).connections,
          reusable options now ((runEvents options events).conn c) = false) ∧
        options.maxConnectionsPerNode + removed options nodeId .new events ≤
          (openSockets (runEvents options events) nodeId).card := by
  have hinv := (inv_new options).run events
  have hactive : ((runEvents options events).pool nodeId).active =
      (openSockets (runEvents options events) nodeId).card -
        (removed options nodeId .new events : ℤ) := by
    have h := hinv.active_eq nodeId
    rwa [Nat.zero_add] at h
  refine ⟨hactive, ?_, hinv.active_le nodeId, fun now => ?_⟩
  · omega
  · rw [getConnection_error_iff, hactive]
    refine and_congr_right (fun _ => ?_)
    omega

/-- **A socket that is counted off twice**: an idle connection is removed by a cleanup, and
its socket is closed afterwards. Meanwhile a second socket is opened, though only one is
allowed. -/
theorem counted_off_twice :
    ((runEvents ⟨1, 60000⟩ [.getConnection "n" 0, .releaseConnection 0 0,
      .cleanupConnections 60001, .close 0]).pool "n").active = -1 ∧
    (openSockets (runEvents ⟨1, 60000⟩ [.getConnection "n" 0, .releaseConnection 0 0,
      .cleanupConnections 60001, .getConnection "n" 60001]) "n").card = 2 := by
  decide +kernel

end ControlPlane.ProxyTunnel
