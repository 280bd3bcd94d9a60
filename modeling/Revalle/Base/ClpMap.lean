import Mathlib

/-!
# A cache with capacity, lifetime and priority

`ClpMap` keeps its entries in a list, the most recently used one first, and has
an index of the list by key. The index has list iterators, so a find that moves
an entry to the front of the list does not touch the index. The memory that the
entries are counted with is kept in a counter of its own.

Every function below returns an `Option`: `none` is a failed assertion or an
iterator that leads nowhere. The specifications say that neither happens in a
map that satisfies the invariant `Inv`, and what the functions do in terms of
the list alone.
-/

namespace Base.ClpMap

open List Function

/-- The entry of a map. -/
structure Entry (K V : Type) where
  key : K
  value : V
  expires : ℤ
  memCounted : ℕ
  deriving DecidableEq

/-- A node of the list, with the position that iterators to it have. -/
structure Node (K V : Type) extends Entry K V where
  position : ℕ
  deriving DecidableEq

/-- What the map is instantiated with: `Key::length()`, `MemoryUsedBy()` and the
sizes of the types that the list and the index store. -/
structure Sizes (K V : Type) where
  keyLength : K → ℕ
  memoryUsedBy : V → ℕ
  entrySize : ℕ
  indexItemSize : ℕ

/-- **The map.** `next` is the position of the next node. -/
structure Map (K V : Type) where
  entries : List (Node K V)
  index : K → Option ℕ
  next : ℕ
  memLimit : ℕ
  memUsed : ℕ

variable {K V : Type} [DecidableEq K]

/-! ## Checked sums -/

/-- `IncreaseSum<S>(sum, t)`, where `max` is the maximum of `S`. -/
def increaseSum (max sum t : ℤ) : Option ℤ :=
  if sum < 0 ∨ t < 0 then none
  else if max - sum < t then none
  else some (sum + t)

/-- `NaturalSum<S>(args...)`. -/
def naturalSum (max : ℤ) (args : List ℤ) : Option ℤ := args.foldlM (increaseSum max) 0

/-- The maximum of `uint64_t`. -/
def maxUint64 : ℤ := 2 ^ 64 - 1

/-- The maximum of `time_t`. -/
def maxTime : ℤ := 2 ^ 63 - 1

/-- `SetToNaturalSumOrMax(expires, squid_curtime, ttl)`. -/
def expiration (curtime ttl : ℤ) : ℤ := (naturalSum maxTime [curtime, ttl]).getD maxTime

/-- `Entry::expired()`. -/
def Entry.expired (curtime : ℤ) (e : Entry K V) : Bool := e.expires < curtime

/-- `MemoryCountedFor`. -/
def memoryCountedFor (sizes : Sizes K V) (k : K) (v : V) : Option ℕ :=
  (naturalSum maxUint64 [sizes.keyLength k, sizes.entrySize, sizes.memoryUsedBy v,
    sizes.indexItemSize]).map Int.toNat

/-! ## The functions -/

/-- The node that an iterator leads to. -/
def Map.node (m : Map K V) (position : ℕ) : Option (Node K V) :=
  m.entries.find? (fun n => n.position = position)

/-- The difference of two numbers of type `uint64_t`. -/
def sub64 (a b : ℕ) : ℕ := (a + 2 ^ 64 - b) % 2 ^ 64

theorem sub64_of_le {a b : ℕ} (hba : b ≤ a) (ha : a < 2 ^ 64) : sub64 a b = a - b := by
  unfold sub64
  omega

/-- `freeMem()`. -/
def Map.freeMem (m : Map K V) : ℕ := sub64 m.memLimit m.memUsed

/-- `erase(i)`, with the index position `i` of the key. -/
def Map.erase (m : Map K V) (key : K) : Option (Map K V) := do
  let position ← m.index key
  let n ← m.node position
  guard (m.memUsed ≥ n.memCounted)
  return { m with
    entries := m.entries.filter (fun n => n.position ≠ position)
    index := update m.index key none
    memUsed := m.memUsed - n.memCounted }

/-- `find(key)`: the map it leaves behind, and the iterator that the index has
for the key. -/
def Map.find (m : Map K V) (key : K) (curtime : ℤ) : Option (Map K V × Option ℕ) :=
  match m.index key with
  | none => some (m, none)
  | some position => do
    let n ← m.node position
    if ¬n.expired curtime then
      -- splice() to the front, which does nothing to an entry that is there already
      return ({ m with entries := n :: m.entries.filter (fun n => n.position ≠ position) },
        some position)
    else
      let m ← m.erase key
      return (m, none)

/-- `get(key)`. -/
def Map.get (m : Map K V) (key : K) (curtime : ℤ) : Option (Map K V × Option V) := do
  let (m, i) ← m.find key curtime
  match i with
  | none => return (m, none)
  | some position =>
    let n ← m.node position
    return (m, some n.value)

/-- `del(key)`. -/
def Map.del (m : Map K V) (key : K) (curtime : ℤ) : Option (Map K V) := do
  let (m, i) ← m.find key curtime
  match i with
  | none => return m
  | some _ => m.erase key

/-- The loop of `trim()`; beside the map, the entries that were purged, in this
order. -/
def Map.trimLoop (wantSpace : ℕ) (curtime : ℤ) : ℕ → Map K V → Option (Map K V × List (Entry K V))
  | fuel, m =>
    if m.freeMem < wantSpace then
      match fuel with
      | 0 => none
      | fuel + 1 => do
        let last ← m.entries.getLast?
        let m ← m.del last.key curtime
        let (m, purged) ← m.trimLoop wantSpace curtime fuel
        return (m, last.toEntry :: purged)
    else some (m, [])

/-- `trim(wantSpace)`: each round removes an entry. -/
def Map.trim (m : Map K V) (wantSpace : ℕ) (curtime : ℤ) : Option (Map K V × List (Entry K V)) := do
  guard (wantSpace ≤ m.memLimit)
  m.trimLoop wantSpace curtime m.entries.length

/-- What a call answers, and what it purges for capacity. -/
structure Outcome (K V : Type) where
  added : Bool := false
  got : Option V := none
  purged : List (Entry K V) := []

/-- The end of `add()`, after the checks. -/
def Map.emplace (m : Map K V) (key : K) (v : V) (expires : ℤ) (wantSpace : ℕ) :
    Option (Map K V) := do
  let memUsed := (m.memUsed + wantSpace) % 2 ^ 64
  guard (memUsed ≥ wantSpace)
  return { m with
    entries := ⟨⟨key, v, expires, wantSpace⟩, m.next⟩ :: m.entries
    -- emplace() keeps an item that is there
    index := update m.index key (some ((m.index key).getD m.next))
    next := m.next + 1
    memUsed := memUsed }

/-- `add(key, v, ttl)`. -/
def Map.add (sizes : Sizes K V) (m : Map K V) (key : K) (v : V) (ttl curtime : ℤ) :
    Option (Map K V × Outcome K V) :=
  if m.memLimit = 0 then some (m, {})
  else do
    let m ← m.del key curtime
    if ttl < 0 then return (m, {})
    else
      match memoryCountedFor sizes key v with
      | none => return (m, {})
      | some wantSpace =>
        if wantSpace > m.memLimit ∨ wantSpace = 0 then return (m, {})
        else
          let (m, purged) ← m.trim wantSpace curtime
          let m ← m.emplace key v (expiration curtime ttl) wantSpace
          return (m, { added := true, purged := purged })

/-- `setMemLimit(newLimit)`. -/
def Map.setMemLimit (m : Map K V) (newLimit : UInt64) (curtime : ℤ) :
    Option (Map K V × Outcome K V) := do
  let (m, purged) ←
    if m.memUsed > newLimit.toNat then m.trim (sub64 m.memLimit newLimit.toNat) curtime
    else some (m, [])
  return ({ m with memLimit := newLimit.toNat }, { purged := purged })

/-- A map without entries or capacity. -/
def Map.empty : Map K V := ⟨[], fun _ => none, 0, 0, 0⟩

/-- A call of the map's users. -/
inductive Call (K V : Type) where
  | add (key : K) (v : V) (ttl : ℤ)
  | get (key : K)
  | del (key : K)
  | setMemLimit (newLimit : UInt64)

def Map.call (sizes : Sizes K V) (m : Map K V) (curtime : ℤ) :
    Call K V → Option (Map K V × Outcome K V)
  | .add key v ttl => m.add sizes key v ttl curtime
  | .get key => (m.get key curtime).map (fun (m, got) => (m, { got := got }))
  | .del key => (m.del key curtime).map (fun m => (m, {}))
  | .setMemLimit newLimit => m.setMemLimit newLimit curtime

/-! ## The invariant -/

/-- **The invariant of a map.** The index has, for each key in the list and for no
other, an iterator to the one node with this key, and the counter is the sum of
what the entries are counted with. -/
structure Inv (m : Map K V) : Prop where
  positions : (m.entries.map (fun n => n.position)).Nodup
  keys : (m.entries.map (fun n => n.key)).Nodup
  index_iff : ∀ key position, m.index key = some position ↔
    ∃ n ∈ m.entries, n.position = position ∧ n.key = key
  fresh : ∀ n ∈ m.entries, n.position < m.next
  counted_pos : ∀ n ∈ m.entries, 0 < n.memCounted
  memUsed : m.memUsed = (m.entries.map (fun n => n.memCounted)).sum
  used_le : m.memUsed ≤ m.memLimit
  limit_lt : m.memLimit < 2 ^ 64

/-- The entries, the most recently used one first. -/
def Map.contents (m : Map K V) : List (Entry K V) := m.entries.map Node.toEntry

/-- What is left of a list of entries without those of a key. -/
def without (key : K) (l : List (Entry K V)) : List (Entry K V) := l.filter (fun e => e.key ≠ key)

open Map

theorem contents_filter (m : Map K V) (key : K) :
    (m.entries.filter (fun n => n.key ≠ key)).map Node.toEntry = without key m.contents := by
  rw [without, contents, filter_map]
  rfl

theorem contents_of_entries {m m' : Map K V} {key : K}
    (h : m'.entries = m.entries.filter (fun n => n.key ≠ key)) :
    m'.contents = without key m.contents := by
  rw [← contents_filter, ← h]
  rfl

/-- The map with a new node at the front. -/
def Map.push (m : Map K V) (e : Entry K V) : Map K V :=
  { m with
    entries := ⟨e, m.next⟩ :: m.entries
    index := update m.index e.key (some m.next)
    next := m.next + 1
    memUsed := m.memUsed + e.memCounted }

/-- **What a call does to the entries**, in terms of their list alone. -/
inductive Effect (curtime : ℤ) :
    Call K V → List (Entry K V) → List (Entry K V) → Outcome K V → Prop
  /-- A value that is not accepted: the old entry of the key is gone all the same. -/
  | rejected (key : K) (v : V) (ttl : ℤ) (l : List (Entry K V)) :
    Effect curtime (.add key v ttl) l (without key l) {}
  /-- A value that is accepted: the least recently used entries make place. -/
  | added (key : K) (v : V) (ttl : ℤ) (memCounted : ℕ) {l rest purged : List (Entry K V)} :
    without key l = rest ++ purged.reverse →
    Effect curtime (.add key v ttl) l (⟨key, v, expiration curtime ttl, memCounted⟩ :: rest)
      { added := true, purged := purged }
  /-- No entry, or an expired one, which is removed. -/
  | missed {key : K} {l : List (Entry K V)} :
    (∀ e ∈ l, e.key = key → e.expired curtime = true) →
    Effect curtime (.get key) l (without key l) {}
  /-- The entry is found and becomes the most recently used one. -/
  | found {e : Entry K V} {l : List (Entry K V)} : e ∈ l → e.expired curtime = false →
    Effect curtime (.get e.key) l (e :: without e.key l) { got := some e.value }
  | deleted (key : K) (l : List (Entry K V)) : Effect curtime (.del key) l (without key l) {}
  | limited (newLimit : UInt64) {l rest purged : List (Entry K V)} : l = rest ++ purged.reverse →
    Effect curtime (.setMemLimit newLimit) l rest { purged := purged }

namespace Inv

variable {m : Map K V} (h : Inv m)
include h

variable {n : Node K V}

omit [DecidableEq K] in
theorem node_eq (hn : n ∈ m.entries) : m.node n.position = some n := by
  cases hfind : m.node n.position with
  | none =>
    have hnone := find?_eq_none.mp hfind n hn
    simp at hnone
  | some n' =>
    have hpos : n'.position = n.position := by simpa using find?_some hfind
    rw [inj_on_of_nodup_map h.positions (mem_of_find?_eq_some hfind) hn hpos]

omit [DecidableEq K] in
theorem index_eq (hn : n ∈ m.entries) : m.index n.key = some n.position :=
  (h.index_iff n.key n.position).mpr ⟨n, hn, rfl, rfl⟩

omit [DecidableEq K] in
theorem index_none {key : K} (hkey : ∀ n ∈ m.entries, n.key ≠ key) : m.index key = none := by
  cases hindex : m.index key with
  | none => rfl
  | some position =>
    obtain ⟨n, hn, -, hnkey⟩ := (h.index_iff key position).mp hindex
    exact absurd hnkey (hkey n hn)

/-- A node is the only one at its position and the only one with its key. -/
theorem filter_position (hn : n ∈ m.entries) : m.entries.filter (fun x => x.position ≠ n.position) =
      m.entries.filter (fun x => x.key ≠ n.key) := by
  refine filter_congr (fun x hx => ?_)
  have hiff : x.position = n.position ↔ x.key = n.key :=
    ⟨fun heq => by rw [inj_on_of_nodup_map h.positions hx hn heq],
      fun heq => by rw [inj_on_of_nodup_map h.keys hx hn heq]⟩
  simp [hiff]

omit h in
theorem filter_key_of_split {xs ys : List (Node K V)}
    (hkeys : ((xs ++ n :: ys).map (fun x => x.key)).Nodup) :
    (xs ++ n :: ys).filter (fun x => x.key ≠ n.key) = xs ++ ys := by
  rw [map_append, map_cons, nodup_middle, nodup_cons, ← map_append] at hkeys
  have hne : ∀ x ∈ xs ++ ys, x.key ≠ n.key := fun x hx heq =>
    hkeys.1 (heq ▸ mem_map_of_mem hx)
  rw [filter_append, filter_cons_of_neg (by simp), ← filter_append]
  exact filter_eq_self.mpr (fun x hx => by simpa using hne x hx)

/-- The map without one of its nodes. -/
theorem erase_eq (hn : n ∈ m.entries) : ∃ m', m.erase n.key = some m' ∧ Inv m' ∧
      m'.entries = m.entries.filter (fun x => x.key ≠ n.key) ∧ m'.memLimit = m.memLimit := by
  obtain ⟨xs, ys, hsplit⟩ := append_of_mem hn
  have hfilter : m.entries.filter (fun x => x.key ≠ n.key) = xs ++ ys := by
    rw [hsplit]
    exact filter_key_of_split (hsplit ▸ h.keys)
  have hused : m.memUsed = n.memCounted + ((xs ++ ys).map (fun x => x.memCounted)).sum := by
    rw [h.memUsed, hsplit]
    simp only [map_append, map_cons, sum_append, sum_cons]
    omega
  have herase : m.erase n.key = some { m with
      entries := m.entries.filter (fun x => x.key ≠ n.key)
      index := update m.index n.key none
      memUsed := m.memUsed - n.memCounted } := by
    have hge : m.memUsed ≥ n.memCounted := by omega
    simp only [erase, h.index_eq hn, h.node_eq hn, Option.bind_eq_bind, Option.bind_some,
      guard, hge, if_true, ← h.filter_position hn]
    rfl
  refine ⟨_, herase, ?_, rfl, rfl⟩
  have hsub : (m.entries.filter (fun x => x.key ≠ n.key)).Sublist m.entries := filter_sublist
  refine ⟨h.positions.sublist (hsub.map _), h.keys.sublist (hsub.map _), fun key position => ?_,
    fun x hx => h.fresh x (hsub.subset hx), fun x hx => h.counted_pos x (hsub.subset hx), ?_, ?_,
    h.limit_lt⟩
  · by_cases hkey : key = n.key
    · subst hkey
      simp only [update_self, reduceCtorEq, mem_filter, decide_eq_true_eq, false_iff]
      rintro ⟨x, ⟨-, hne⟩, -, heq⟩
      exact hne heq
    · have hne : ∀ x : Node K V, x.key = key → x.key ≠ n.key := fun x hx heq => hkey (hx ▸ heq)
      simp only [update_of_ne hkey, h.index_iff, mem_filter, decide_eq_true_eq]
      refine exists_congr (fun x => ⟨fun hx => ⟨⟨hx.1, hne x hx.2.2⟩, hx.2⟩,
        fun hx => ⟨hx.1.1, hx.2⟩⟩)
  · show m.memUsed - n.memCounted =
      ((m.entries.filter (fun x => x.key ≠ n.key)).map (fun x => x.memCounted)).sum
    rw [hfilter, hused]
    omega
  · show m.memUsed - n.memCounted ≤ m.memLimit
    have := h.used_le
    omega

/-- Moving a node to the front of the list does not touch the index. -/
theorem touch (hn : n ∈ m.entries) :
    Inv { m with entries := n :: m.entries.filter (fun x => x.key ≠ n.key) } := by
  obtain ⟨xs, ys, hsplit⟩ := append_of_mem hn
  have hperm : (n :: m.entries.filter (fun x => x.key ≠ n.key)).Perm m.entries := by
    rw [hsplit, filter_key_of_split (hsplit ▸ h.keys)]
    exact perm_middle.symm
  refine ⟨(hperm.map _).nodup_iff.mpr h.positions, (hperm.map _).nodup_iff.mpr h.keys,
    fun key position => ?_, fun x hx => h.fresh x (hperm.mem_iff.mp hx),
    fun x hx => h.counted_pos x (hperm.mem_iff.mp hx), ?_, h.used_le, h.limit_lt⟩
  · rw [h.index_iff]
    exact exists_congr (fun x => and_congr_left' hperm.mem_iff.symm)
  · rw [h.memUsed, (hperm.map _).sum_eq]

/-! ### Searching -/

theorem find_of_forall_ne {key : K} (hkey : ∀ n ∈ m.entries, n.key ≠ key) (curtime : ℤ) :
    m.find key curtime = some (m, none) := by
  simp [find, h.index_none hkey]

theorem find_of_fresh (hn : n ∈ m.entries) {curtime : ℤ} (hfresh : n.expired curtime = false) :
    m.find n.key curtime =
      some ({ m with entries := n :: m.entries.filter (fun x => x.key ≠ n.key) },
        some n.position) := by
  rw [← h.filter_position hn]
  simp [find, h.index_eq hn, h.node_eq hn, hfresh]

theorem find_of_expired (hn : n ∈ m.entries) {curtime : ℤ} (hexpired : n.expired curtime = true) :
    m.find n.key curtime = (m.erase n.key).map (fun m' => (m', none)) := by
  simp only [find, h.index_eq hn, h.node_eq hn, hexpired, Option.bind_eq_bind,
    Option.bind_some, not_true_eq_false, if_false]
  cases m.erase n.key with
  | none => rfl
  | some m' => rfl

omit h in
/-- A key that no node has, or the node that has it. -/
theorem key_cases (m : Map K V) (key : K) :
    (∀ n ∈ m.entries, n.key ≠ key) ∨ ∃ n ∈ m.entries, n.key = key := by
  by_cases hex : ∃ n ∈ m.entries, n.key = key
  · exact .inr hex
  · exact .inl (fun n hn heq => hex ⟨n, hn, heq⟩)

omit h in
theorem filter_of_forall_ne {key : K} (hkey : ∀ n ∈ m.entries, n.key ≠ key) :
    m.entries.filter (fun x => x.key ≠ key) = m.entries :=
  filter_eq_self.mpr (fun n hn => by simpa using hkey n hn)

theorem get_of_forall_ne {key : K} (hkey : ∀ n ∈ m.entries, n.key ≠ key) (curtime : ℤ) :
    m.get key curtime = some (m, none) := by
  simp [Map.get, h.find_of_forall_ne hkey]

theorem get_of_fresh (hn : n ∈ m.entries) {curtime : ℤ} (hfresh : n.expired curtime = false) :
    m.get n.key curtime =
      some ({ m with entries := n :: m.entries.filter (fun x => x.key ≠ n.key) },
        some n.value) := by
  simp only [Map.get, h.find_of_fresh hn hfresh, Option.bind_eq_bind, Option.bind_some,
    (h.touch hn).node_eq mem_cons_self]
  rfl

/-- **`get`** finds the entry of the key, unless there is none or it has expired. -/
theorem get_spec (key : K) (curtime : ℤ) : ∃ m' got, m.get key curtime = some (m', got) ∧ Inv m' ∧
      Effect curtime (.get key) m.contents m'.contents { got := got } := by
  rcases key_cases m key with hkey | ⟨n, hn, rfl⟩
  · refine ⟨m, none, h.get_of_forall_ne hkey curtime, h, ?_⟩
    have hcontents : m.contents = without key m.contents :=
      contents_of_entries (filter_of_forall_ne hkey).symm
    have hmiss : Effect curtime (.get key) m.contents (without key m.contents) {} := by
      refine .missed (fun e he hekey => ?_)
      obtain ⟨n, hn, rfl⟩ := mem_map.mp he
      exact absurd hekey (hkey n hn)
    rwa [← hcontents] at hmiss
  · cases hexpired : n.expired curtime with
    | true =>
      obtain ⟨m', herase, hinv, hentries, -⟩ := h.erase_eq hn
      refine ⟨m', none, by simp [Map.get, h.find_of_expired hn hexpired, herase], hinv, ?_⟩
      rw [contents_of_entries hentries]
      refine .missed (fun e he hkey => ?_)
      obtain ⟨n', hn', rfl⟩ := mem_map.mp he
      rwa [inj_on_of_nodup_map h.keys hn' hn hkey]
    | false =>
      refine ⟨_, some n.value, h.get_of_fresh hn hexpired, h.touch hn, ?_⟩
      have hfound : Effect curtime (.get n.key) m.contents
          (n.toEntry :: without n.key m.contents) { got := some n.value } :=
        .found (mem_map_of_mem hn) hexpired
      rwa [← contents_filter] at hfound

/-- **`del`** removes the entry of the key, if there is one. -/
theorem del_spec (key : K) (curtime : ℤ) : ∃ m', m.del key curtime = some m' ∧ Inv m' ∧
      m'.entries = m.entries.filter (fun x => x.key ≠ key) ∧ m'.memLimit = m.memLimit := by
  rcases key_cases m key with hkey | ⟨n, hn, rfl⟩
  · refine ⟨m, by simp [del, h.find_of_forall_ne hkey], h, ?_, rfl⟩
    rw [filter_of_forall_ne hkey]
  · cases hexpired : n.expired curtime with
    | true =>
      obtain ⟨m', herase, hrest⟩ := h.erase_eq hn
      exact ⟨m', by simp [del, h.find_of_expired hn hexpired, herase], hrest⟩
    | false =>
      -- the node is moved to the front first, and then removed from there
      obtain ⟨m', herase, hinv, hentries, hlimit⟩ := (h.touch hn).erase_eq mem_cons_self
      refine ⟨m', ?_, hinv, ?_, hlimit⟩
      · simpa [del, h.find_of_fresh hn hexpired] using herase
      · rw [hentries, filter_cons_of_neg (by simp), filter_filter]
        simp

/-! ### Trimming -/

omit [DecidableEq K] in
theorem freeMem_eq : m.freeMem = m.memLimit - m.memUsed := sub64_of_le h.used_le h.limit_lt

omit h in
/-- **The loop of `trim`** removes entries from the back of the list until there is
space. -/
theorem trimLoop_spec (wantSpace : ℕ) (curtime : ℤ) (fuel : ℕ) (h : Inv m)
    (hwant : wantSpace ≤ m.memLimit) (hfuel : m.entries.length ≤ fuel) :
    ∃ m' purged, m.trimLoop wantSpace curtime fuel = some (m', purged) ∧ Inv m' ∧
      m'.memLimit = m.memLimit ∧ m'.memUsed + wantSpace ≤ m.memLimit ∧
      m.contents = m'.contents ++ purged.reverse := by
  induction fuel generalizing m with
  | zero =>
    have hnil : m.entries = [] := length_eq_zero_iff.mp (Nat.le_zero.mp hfuel)
    have hused : m.memUsed = 0 := by rw [h.memUsed, hnil]; rfl
    have hspace : ¬m.freeMem < wantSpace := by rw [h.freeMem_eq]; omega
    exact ⟨m, [], by simp [trimLoop, hspace], h, rfl, by omega, by simp⟩
  | succ fuel ih =>
    by_cases hspace : m.freeMem < wantSpace
    · have hne : m.entries ≠ [] := by
        intro hnil
        have hused : m.memUsed = 0 := by rw [h.memUsed, hnil]; rfl
        rw [h.freeMem_eq] at hspace
        omega
      obtain ⟨init, last, hsplit⟩ : ∃ init last, m.entries = init ++ [last] :=
        ⟨_, _, (dropLast_append_getLast hne).symm⟩
      obtain ⟨m1, hdel, hinv1, hentries, hlimit1⟩ := h.del_spec last.key curtime
      have hinit : m1.entries = init := by
        have hkeys := h.keys
        rw [hsplit] at hkeys
        rw [hentries, hsplit, filter_key_of_split hkeys, append_nil]
      have hlength : m1.entries.length ≤ fuel := by
        rw [hinit]
        rw [hsplit, length_append, length_singleton] at hfuel
        omega
      obtain ⟨m2, purged, htrim, hinv2, hlimit2, hused2, hcontents⟩ :=
        ih hinv1 (hlimit1 ▸ hwant) hlength
      refine ⟨m2, last.toEntry :: purged, ?_, hinv2, hlimit2.trans hlimit1, hlimit1 ▸ hused2, ?_⟩
      · simp [trimLoop, hspace, hsplit, hdel, htrim]
      · rw [reverse_cons, ← append_assoc, ← hcontents, contents, contents, hsplit,
          hinit, map_append]
        rfl
    · refine ⟨m, [], by simp [trimLoop, hspace], h, rfl, ?_, by simp⟩
      rw [h.freeMem_eq] at hspace
      have := h.used_le
      omega

theorem trim_spec {wantSpace : ℕ} (hwant : wantSpace ≤ m.memLimit) (curtime : ℤ) :
    ∃ m' purged, m.trim wantSpace curtime = some (m', purged) ∧ Inv m' ∧
      m'.memLimit = m.memLimit ∧ m'.memUsed + wantSpace ≤ m.memLimit ∧
      m.contents = m'.contents ++ purged.reverse := by
  obtain ⟨m', purged, htrim, hrest⟩ :=
    trimLoop_spec wantSpace curtime _ h hwant (le_refl _)
  exact ⟨m', purged, by simp [trim, guard, hwant, htrim], hrest⟩

/-- **`setMemLimit`** purges the least recently used entries that do not fit. -/
theorem setMemLimit_spec (newLimit : UInt64) (curtime : ℤ) :
    ∃ m' o, m.setMemLimit newLimit curtime = some (m', o) ∧ Inv m' ∧
      Effect curtime (.setMemLimit newLimit) m.contents m'.contents o := by
  have hlt : newLimit.toNat < 2 ^ 64 := newLimit.toNat_lt
  by_cases hfull : m.memUsed > newLimit.toNat
  · have hsub : sub64 m.memLimit newLimit.toNat = m.memLimit - newLimit.toNat :=
      sub64_of_le (hfull.le.trans h.used_le) h.limit_lt
    obtain ⟨m', purged, htrim, hinv, hlimit, hused, hcontents⟩ :=
      h.trim_spec (Nat.sub_le m.memLimit newLimit.toNat) curtime
    refine ⟨{ m' with memLimit := newLimit.toNat }, { purged := purged }, ?_, ?_,
      .limited newLimit hcontents⟩
    · simp only [setMemLimit, hfull, if_true, hsub, htrim, Option.bind_eq_bind, Option.bind_some]
      rfl
    · exact { hinv with used_le := by show m'.memUsed ≤ newLimit.toNat; omega, limit_lt := hlt }
  · refine ⟨{ m with memLimit := newLimit.toNat }, {}, ?_, ?_,
      .limited newLimit (append_nil _).symm⟩
    · simp only [setMemLimit, hfull, if_false, Option.bind_eq_bind, Option.bind_some]
      rfl
    · exact { h with used_le := not_lt.mp hfull, limit_lt := hlt }

/-! ### Adding -/

omit [DecidableEq K] in
/-- Nothing is stored in a map without capacity. -/
theorem contents_of_memLimit_eq_zero (hlimit : m.memLimit = 0) : m.contents = [] := by
  have hsum : (m.entries.map (fun n => n.memCounted)).sum = 0 := by
    have hle := h.used_le
    have heq := h.memUsed
    omega
  rw [contents, List.map_eq_nil_iff, List.eq_nil_iff_forall_not_mem]
  intro n hn
  have hzero := List.sum_eq_zero_iff_forall_eq_nat.mp hsum n.memCounted
    (List.mem_map.mpr ⟨n, hn, rfl⟩)
  exact (h.counted_pos n hn).ne' hzero

/-- A new node at the front, for a key that the list does not have. -/
theorem push {e : Entry K V} (hkey : ∀ n ∈ m.entries, n.key ≠ e.key) (hpos : 0 < e.memCounted)
    (hfits : m.memUsed + e.memCounted ≤ m.memLimit) : Inv (m.push e) := by
  refine ⟨?_, ?_, fun key position => ?_, ?_, ?_, ?_, hfits, h.limit_lt⟩
  · refine nodup_cons.mpr ⟨fun hmem => ?_, h.positions⟩
    obtain ⟨n, hn, heq⟩ := mem_map.mp hmem
    exact (h.fresh n hn).ne heq
  · refine nodup_cons.mpr ⟨fun hmem => ?_, h.keys⟩
    obtain ⟨n, hn, heq⟩ := mem_map.mp hmem
    exact hkey n hn heq
  · by_cases heq : key = e.key
    · subst heq
      simp only [Map.push, update_self, Option.some.injEq, mem_cons, exists_eq_or_imp, and_true]
      refine ⟨.inl, fun hor => hor.resolve_right ?_⟩
      rintro ⟨n, hn, -, hnkey⟩
      exact hkey n hn hnkey
    · simp only [Map.push, update_of_ne heq, h.index_iff, mem_cons, exists_eq_or_imp]
      refine ⟨.inr, fun hor => hor.resolve_left ?_⟩
      rintro ⟨-, hkey'⟩
      exact heq hkey'.symm
  · exact forall_mem_cons.mpr ⟨Nat.lt_succ_self _, fun n hn => Nat.lt_succ_of_lt (h.fresh n hn)⟩
  · exact forall_mem_cons.mpr ⟨hpos, h.counted_pos⟩
  · show m.memUsed + e.memCounted = e.memCounted + (m.entries.map (fun n => n.memCounted)).sum
    rw [h.memUsed, Nat.add_comm]

theorem emplace_eq {e : Entry K V} (hkey : ∀ n ∈ m.entries, n.key ≠ e.key)
    (hfits : m.memUsed + e.memCounted ≤ m.memLimit) :
    m.emplace e.key e.value e.expires e.memCounted = some (m.push e) := by
  have hlt := h.limit_lt
  have hused : (m.memUsed + e.memCounted) % 2 ^ 64 = m.memUsed + e.memCounted :=
    Nat.mod_eq_of_lt (by omega)
  simp only [emplace, hused, guard, Nat.le_add_left, ge_iff_le, if_true, h.index_none hkey,
    Option.getD_none]
  rfl

/-- **`add`** removes the old entry of the key, and then either rejects the new one
or, after purging the least recently used ones, puts it to the front. -/
theorem add_spec (sizes : Sizes K V) (key : K) (v : V) (ttl curtime : ℤ) :
    ∃ m' o, m.add sizes key v ttl curtime = some (m', o) ∧ Inv m' ∧
      Effect curtime (.add key v ttl) m.contents m'.contents o := by
  by_cases hzero : m.memLimit = 0
  · refine ⟨m, {}, by simp [add, hzero], h, ?_⟩
    rw [h.contents_of_memLimit_eq_zero hzero]
    exact .rejected key v ttl []
  obtain ⟨m1, hdel, hinv1, hentries1, -⟩ := h.del_spec key curtime
  have hcontents1 : m1.contents = without key m.contents := contents_of_entries hentries1
  have hrejected : Effect curtime (.add key v ttl) m.contents m1.contents {} :=
    hcontents1 ▸ .rejected key v ttl m.contents
  by_cases httl : ttl < 0
  · exact ⟨m1, {}, by simp [add, hzero, hdel, httl], hinv1, hrejected⟩
  cases hmemory : memoryCountedFor sizes key v with
  | none => exact ⟨m1, {}, by simp [add, hzero, hdel, httl, hmemory], hinv1, hrejected⟩
  | some wantSpace =>
    by_cases hwant : wantSpace > m1.memLimit ∨ wantSpace = 0
    · exact ⟨m1, {}, by simp [add, hzero, hdel, httl, hmemory, hwant], hinv1, hrejected⟩
    · obtain ⟨hle, hpos⟩ := not_or.mp hwant
      obtain ⟨m2, purged, htrim, hinv2, hlimit2, hused2, hcontents2⟩ :=
        hinv1.trim_spec (not_lt.mp hle) curtime
      -- what is left of the old entries has other keys
      have hkey : ∀ n ∈ m2.entries, n.key ≠ key := by
        intro n hn
        have hmem : n.toEntry ∈ without key m.contents := by
          rw [← hcontents1, hcontents2]
          exact mem_append_left _ (mem_map_of_mem hn)
        simpa using (mem_filter.mp hmem).2
      have hemplace := hinv2.emplace_eq (e := ⟨key, v, expiration curtime ttl, wantSpace⟩) hkey
        (hlimit2 ▸ hused2)
      refine ⟨_, { added := true, purged := purged }, ?_,
        hinv2.push hkey (Nat.pos_of_ne_zero hpos) (hlimit2 ▸ hused2),
        .added key v ttl wantSpace (hcontents1 ▸ hcontents2)⟩
      simp [add, hzero, hdel, httl, hmemory, hwant, htrim, hemplace]

/-- **Every call runs through, keeps the invariant, and does what it should to the
list of the entries.** -/
theorem call_spec (sizes : Sizes K V) (call : Call K V) (curtime : ℤ) :
    ∃ m' o, m.call sizes curtime call = some (m', o) ∧ Inv m' ∧
      Effect curtime call m.contents m'.contents o := by
  cases call with
  | add key v ttl => exact h.add_spec sizes key v ttl curtime
  | get key =>
    obtain ⟨m', got, hget, hrest⟩ := h.get_spec key curtime
    exact ⟨m', _, by simp [call, hget], hrest⟩
  | del key =>
    obtain ⟨m', hdel, hinv, hentries, -⟩ := h.del_spec key curtime
    refine ⟨m', {}, by simp [call, hdel], hinv, ?_⟩
    rw [contents_of_entries hentries]
    exact .deleted key m.contents
  | setMemLimit newLimit => exact h.setMemLimit_spec newLimit curtime

end Inv

end Base.ClpMap
