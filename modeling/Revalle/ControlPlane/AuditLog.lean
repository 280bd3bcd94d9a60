import Revalle.Data.Falsy
import Revalle.Data.HashChain

/-!
# The audit log

`AuditLog` keeps its entries in a collection of the document database. Each entry
has a hash over some of its fields and over the hash of the entry logged before it,
and `verifyIntegrity` reads the entries in the order of their timestamps and
compares every hash with the fields, and every reference with the entry before.

What is compared are the five fields that the hash is made of. The other fields
can be changed at will; and as the entries are sorted by one of their own fields, it
does not matter under which identifier an entry is stored, so that the contents of
two entries can be exchanged. `tampering` says exactly what is noticed.

`D` is the type of the details of an entry, an arbitrary JSON value, and `H` the type of
the hashes. Timestamps are numbers of milliseconds.
-/

namespace ControlPlane.AuditLog

open HashChain List Bool Falsy

variable {D H : Type}

/-- An entry as it is stored. -/
structure Entry (D H : Type) where
  /-- `_id` -/
  id : String
  timestamp : ℤ
  action : String
  category : String
  userId : String
  username : Option String
  userRole : Option String
  ip : Option String
  userAgent : Option String
  resourceType : Option String
  resourceId : Option String
  details : D
  result : String
  severity : String
  previousHash : Option H
  hash : H
  deriving DecidableEq

/-- What `_generateHash` makes a text of. -/
structure Payload (D H : Type) where
  timestamp : ℤ
  action : String
  userId : String
  details : D
  previousHash : Option H
  deriving DecidableEq

/-- The argument of `log`. -/
structure Event (D : Type) where
  action : String
  category : Option String := none
  userId : Option String := none
  username : Option String := none
  userRole : Option String := none
  ip : Option String := none
  userAgent : Option String := none
  resourceType : Option String := none
  resourceId : Option String := none
  details : Option D := none
  result : Option String := none
  severity : Option String := none

/-! ## Writing -/

def categorizeAction (action : String) : String :=
  if action.startsWith "auth:" then "authentication"
  else if action.startsWith "access:" then "data_access"
  else if action.startsWith "config:" then "configuration"
  else if action.startsWith "node:" then "node_management"
  else if action.startsWith "security:" then "security"
  else if action.startsWith "user:" then "user_management"
  else if action.startsWith "backup:" then "backup"
  else "general"

def Entry.payload (e : Entry D H) : Payload D H :=
  ⟨e.timestamp, e.action, e.userId, e.details, e.previousHash⟩

/-- `_generateHash`, for a hash of the five fields. -/
def generateHash (digest : Payload D H → H) (e : Entry D H) : H := digest e.payload

/-- The payload of the entry that `log` makes. -/
def newPayload [Inhabited D] (event : Event D) (now : ℤ) (integrityChain : Option H) :
    Payload D H where
  timestamp := now
  action := event.action
  userId := orDefault event.userId "system"
  details := event.details.getD default
  previousHash := integrityChain

/-- The entry that `log` makes; `id` is what `_generateEntryId` answers. -/
def newEntry [Inhabited D] (digest : Payload D H → H) (event : Event D) (id : String) (now : ℤ)
    (integrityChain : Option H) : Entry D H :=
  let payload := newPayload event now integrityChain
  { id := id
    timestamp := payload.timestamp
    action := payload.action
    category := orDefault event.category (categorizeAction event.action)
    userId := payload.userId
    username := orNull event.username
    userRole := orNull event.userRole
    ip := orNull event.ip
    userAgent := orNull event.userAgent
    resourceType := orNull event.resourceType
    resourceId := orNull event.resourceId
    details := payload.details
    result := orDefault event.result "success"
    severity := orDefault event.severity "info"
    previousHash := payload.previousHash
    hash := digest payload }

/-! ## Reading -/

/-- `find` with `sort: { timestamp: 1 }`. -/
def ascending (store : List (Entry D H)) : List (Entry D H) :=
  store.insertionSort (fun a b => a.timestamp ≤ b.timestamp)

/-- `find` with `sort: { timestamp: -1 }`. -/
def descending (store : List (Entry D H)) : List (Entry D H) :=
  store.insertionSort (fun a b => b.timestamp ≤ a.timestamp)

inductive Issue (H : Type)
  /-- 'Chain break detected' -/
  | chainBreak (entryId : String) (timestamp : ℤ) (expected actual : Option H)
  /-- 'Hash mismatch - entry may have been tampered with' -/
  | hashMismatch (entryId : String) (timestamp : ℤ)
  deriving DecidableEq

structure Report (H : Type) where
  valid : Bool
  entriesChecked : ℕ
  issues : List (Issue H)
  lastHash : Option H

/-- `options.limit || 10000`. -/
def limitOf (limit : ℕ) : ℕ := if limit = 0 then 10000 else limit

section Verify

variable [DecidableEq H] (digest : Payload D H → H)

/-- What is wrong with an entry after one with the hash `previousHash`. -/
def checkEntry (previousHash : Option H) (e : Entry D H) : List (Issue H) :=
  (if e.previousHash ≠ previousHash then
    [.chainBreak e.id e.timestamp previousHash e.previousHash] else []) ++
  (if e.hash ≠ generateHash digest e then [.hashMismatch e.id e.timestamp] else [])

/-- The body of the loop. -/
def verifyEntry (r : Report H) (e : Entry D H) : Report H :=
  let found := checkEntry digest r.lastHash e
  ⟨r.valid && found.isEmpty, r.entriesChecked + 1, r.issues ++ found, some e.hash⟩

/-- The entries that `verifyIntegrity` looks at. -/
def checked (limit : ℕ) (store : List (Entry D H)) : List (Entry D H) :=
  (ascending store).take (limitOf limit)

def verifyIntegrity (limit : ℕ) (store : List (Entry D H)) : Report H :=
  (checked limit store).foldl (verifyEntry digest) ⟨true, 0, [], none⟩

end Verify

/-! ## What a report says -/

def Entry.link (e : Entry D H) : Link H := ⟨e.previousHash, e.hash⟩

/-- **The hash is that of the fields.** -/
def Sealed (digest : Payload D H → H) (e : Entry D H) : Prop := e.hash = digest e.payload

section Report

variable [DecidableEq H] {digest : Payload D H → H}

theorem checkEntry_eq_nil (p : Option H) (e : Entry D H) :
    checkEntry digest p e = [] ↔ e.link.prev = p ∧ Sealed digest e := by
  unfold checkEntry Sealed generateHash Entry.link
  by_cases hprev : e.previousHash = p
  · by_cases hhash : e.hash = digest e.payload
    · simp [hprev, hhash]
    · simp [hprev, hhash]
  · simp [hprev]

/-- What the loop finds. -/
theorem foldl_verifyEntry (l : List (Entry D H)) (r : Report H) :
    ((l.foldl (verifyEntry digest) r).valid = true ↔
      r.valid = true ∧ Links r.lastHash (l.map Entry.link) ∧ ∀ e ∈ l, Sealed digest e) ∧
    ((l.foldl (verifyEntry digest) r).issues = [] ↔
      r.issues = [] ∧ Links r.lastHash (l.map Entry.link) ∧ ∀ e ∈ l, Sealed digest e) := by
  induction l generalizing r with
  | nil => simp [Links]
  | cons e l ih =>
    obtain ⟨hvalid, hissues⟩ := ih (verifyEntry digest r e)
    have hfound : checkEntry digest r.lastHash e = [] ↔ _ := checkEntry_eq_nil r.lastHash e
    rw [List.foldl_cons, hvalid, hissues, List.map_cons, Links, List.forall_mem_cons]
    simp only [verifyEntry, and_eq_true, List.isEmpty_iff, List.append_eq_nil_iff, hfound]
    constructor
    · tauto
    · tauto

/-- **A log is right**: its entries, in the order of their timestamps, are a chain, and
their hashes are right. -/
def Right (digest : Payload D H → H) (store : List (Entry D H)) : Prop :=
  Links none ((ascending store).map Entry.link) ∧ ∀ e ∈ store, Sealed digest e

/-- The verdict is about the entries that are looked at. -/
theorem valid_iff_checked (limit : ℕ) (store : List (Entry D H)) :
    (verifyIntegrity digest limit store).valid = true ↔
      Links none ((checked limit store).map Entry.link) ∧
        ∀ e ∈ checked limit store, Sealed digest e := by
  rw [verifyIntegrity, (foldl_verifyEntry _ _).1]
  simp

/-- **A log is valid iff it is right**, if it has no more entries than are looked at. -/
theorem valid_iff (limit : ℕ) {store : List (Entry D H)} (hlimit : store.length ≤ limitOf limit) :
    (verifyIntegrity digest limit store).valid = true ↔ Right digest store := by
  have htake : checked limit store = ascending store :=
    take_of_length_le (by rwa [ascending, length_insertionSort])
  rw [valid_iff_checked, htake, Right]
  simp [ascending, mem_insertionSort]

end Report

/-! ## What the verdict depends on

Nothing but the payloads and the hashes enters the verdict. -/

/-- What is verified of an entry. -/
def Entry.seal (e : Entry D H) : Payload D H × H := (e.payload, e.hash)

/-- The order of the entries, of what is verified of them. -/
def sortSeals (l : List (Payload D H × H)) : List (Payload D H × H) :=
  l.insertionSort (fun a b => a.1.timestamp ≤ b.1.timestamp)

theorem map_seal_ascending (store : List (Entry D H)) :
    (ascending store).map Entry.seal = sortSeals (store.map Entry.seal) :=
  map_insertionSort _ _ Entry.seal store (fun _ _ _ _ => Iff.rfl)

theorem map_link (l : List (Entry D H)) :
    l.map Entry.link = (l.map Entry.seal).map (fun x => ⟨x.1.previousHash, x.2⟩) := by
  rw [map_map]
  rfl

theorem sealed_iff {digest : Payload D H → H} {l : List (Entry D H)} :
    (∀ e ∈ l, Sealed digest e) ↔ ∀ x ∈ l.map Entry.seal, x.2 = digest x.1 := by
  rw [forall_mem_map]
  rfl

theorem valid_congr [DecidableEq H] {digest : Payload D H → H} {limit : ℕ}
    {store' : List (Entry D H)} (store : List (Entry D H))
    (hseal : (checked limit store').map Entry.seal = (checked limit store).map Entry.seal) :
    (verifyIntegrity digest limit store').valid = (verifyIntegrity digest limit store).valid := by
  rw [Bool.eq_iff_iff, valid_iff_checked, valid_iff_checked, sealed_iff, sealed_iff, map_link,
    map_link, hseal]

/-! ### Sorting a part of a list -/

section Sorting

variable {α : Type} (p : α → Bool)

theorem filter_orderedInsert {r : α → α → Prop} [DecidableRel r] [IsTrans α r] (a : α)
    {l : List α} (hl : l.Pairwise r) :
    (l.orderedInsert r a).filter p =
      if p a then (l.filter p).orderedInsert r a else l.filter p := by
  induction l with
  | nil => cases hp : p a <;> simp [hp]
  | cons b l ih =>
    obtain ⟨hb, hl⟩ := pairwise_cons.mp hl
    by_cases hab : r a b
    · rw [orderedInsert_cons_of_le r l hab]
      cases hp : p a with
      | false => simp [hp]
      | true =>
        -- what is kept comes after `a` as well
        have hall : ∀ c ∈ (b :: l).filter p, r a c := fun c hc => by
          rcases mem_cons.mp (mem_of_mem_filter hc) with rfl | hc
          · exact hab
          · exact IsTrans.trans a b c hab (hb c hc)
        rw [filter_cons_of_pos hp, if_pos rfl]
        cases hkept : (b :: l).filter p with
        | nil => rfl
        | cons c kept =>
          rw [hkept] at hall
          rw [orderedInsert_cons_of_le r kept (hall c mem_cons_self)]
    · rw [orderedInsert_of_not_le r l hab]
      cases hpb : p b with
      | false => simp [hpb, ih hl]
      | true =>
        rw [filter_cons_of_pos hpb, filter_cons_of_pos hpb, ih hl]
        split
        · rw [orderedInsert_of_not_le r _ hab]
        · rfl

theorem filter_insertionSort {r : α → α → Prop} [DecidableRel r] [IsTrans α r] [Std.Total r]
    (l : List α) :
    (l.insertionSort r).filter p = (l.filter p).insertionSort r := by
  induction l with
  | nil => rfl
  | cons a l ih =>
    rw [insertionSort_cons, filter_orderedInsert p a (pairwise_insertionSort r l), ih]
    cases hp : p a with
    | false => simp [hp]
    | true => simp [hp]

/-- An element that is known by `f` is left out. -/
theorem filter_ne_eq_eraseIdx {β : Type} [DecidableEq β] {f : α → β} {l : List α}
    (hnodup : (l.map f).Nodup) {i : ℕ} (hi : i < l.length) {b : β} (hb : f l[i] = b) :
    l.filter (fun x => f x ≠ b) = l.eraseIdx i := by
  induction l generalizing i with
  | nil => rfl
  | cons a l ih =>
    obtain ⟨ha, hnodup⟩ := nodup_cons.mp hnodup
    cases i with
    | zero =>
      obtain rfl : f a = b := hb
      rw [filter_cons_of_neg (by simp), eraseIdx_cons_zero, filter_eq_self]
      exact fun x hx => decide_eq_true fun heq => ha (heq ▸ mem_map_of_mem hx)
    | succ i =>
      have hne : f a ≠ b := by
        rintro rfl
        exact ha (hb ▸ mem_map_of_mem (getElem_mem (Nat.lt_of_succ_lt_succ hi)))
      rw [filter_cons_of_pos (by simpa using hne), eraseIdx_cons_succ,
        ih hnodup (Nat.lt_of_succ_lt_succ hi) hb]

/-- The first `n` elements, where all of them are kept. -/
theorem take_filter_of_forall {l : List α} {n : ℕ} (h : ∀ x ∈ l.take n, p x = true) :
    (l.filter p).take n = l.take n := by
  induction l generalizing n with
  | nil => simp
  | cons a l ih =>
    cases n with
    | zero => rfl
    | succ n =>
      rw [take_succ_cons, forall_mem_cons] at h
      rw [filter_cons_of_pos h.1, take_succ_cons, take_succ_cons, ih h.2]

end Sorting

/-! ## Tampering -/

/-- The contents of two entries are exchanged. -/
def exchange (store : List (Entry D H)) (i j : ℕ) : List (Entry D H) :=
  match store[i]?, store[j]? with
  | some a, some b => (store.set i { b with id := a.id }).set j { a with id := b.id }
  | _, _ => store

theorem perm_map_seal_exchange {store : List (Entry D H)} {i j : ℕ} (hi : i < store.length)
    (hj : j < store.length) :
    ((exchange store i j).map Entry.seal).Perm (store.map Entry.seal) := by
  simp only [exchange, getElem?_eq_getElem hi, getElem?_eq_getElem hj, map_set]
  have hi' : i < (store.map Entry.seal).length := by rwa [length_map]
  have hj' : j < (store.map Entry.seal).length := by rwa [length_map]
  have hperm := set_set_perm hi' hj'
  rwa [getElem_map, getElem_map] at hperm

section Detection

variable {digest : Payload D H → H} {store : List (Entry D H)}

/-- The hash of an entry determines the hash it refers to. -/
theorem determined (hdigest : Function.Injective digest) (hsealed : ∀ e ∈ store, Sealed digest e) :
    Determined ((ascending store).map Entry.link) := by
  intro x hx y hy hxy
  obtain ⟨a, ha, rfl⟩ := mem_map.mp hx
  obtain ⟨b, hb, rfl⟩ := mem_map.mp hy
  have hsealed : ∀ e ∈ ascending store, e.hash = digest e.payload :=
    fun e he => hsealed e ((mem_insertionSort _).mp he)
  have hpayload : a.payload = b.payload :=
    hdigest ((hsealed a ha).symm.trans (hxy.trans (hsealed b hb)))
  exact congrArg Payload.previousHash hpayload

/-- In a log that is valid, no two entries have the same hash. -/
theorem nodup_hash (hdigest : Function.Injective digest) (hsealed : ∀ e ∈ store, Sealed digest e)
    (hlinks : Links none ((ascending store).map Entry.link)) :
    ((ascending store).map Entry.hash).Nodup := by
  have hnodup := hlinks.nodup (determined hdigest hsealed)
  rwa [map_map] at hnodup

theorem perm_ascending (store : List (Entry D H)) : (ascending store).Perm store :=
  perm_insertionSort _ store

/-- Lists of elements that are known by `f` are the same if `f` is the same on them. -/
theorem eq_of_map_eq {α β : Type} {f : α → β} {l m all : List α} (hnodup : (all.map f).Nodup)
    (hl : l ⊆ all) (hm : m ⊆ all) (h : l.map f = m.map f) : l = m := by
  have hlength : l.length = m.length := by simpa using congrArg length h
  refine ext_getElem hlength (fun n hln hmn => ?_)
  refine inj_on_of_nodup_map hnodup (hl (getElem_mem hln)) (hm (getElem_mem hmn)) ?_
  have hn := congrArg (fun l => l[n]?) h
  simpa [getElem?_eq_getElem hln, getElem?_eq_getElem hmn] using hn

section Right

variable (hdigest : Function.Injective digest) (hright : Right digest store)
include hright

/-- What is looked at of a right log is the beginning of its chain. -/
theorem Right.links_take (n : ℕ) : Links none (((ascending store).take n).map Entry.link) := by
  have hlinks := hright.1
  rw [← take_append_drop n (ascending store), map_append, links_append] at hlinks
  exact hlinks.1

theorem Right.valid [DecidableEq H] (limit : ℕ) :
    (verifyIntegrity digest limit store).valid = true :=
  (valid_iff_checked limit store).mpr ⟨hright.links_take _, fun e he =>
    hright.2 e ((mem_insertionSort _).mp (mem_of_mem_take he))⟩

include hdigest

theorem Right.nodup_hash : (store.map Entry.hash).Nodup :=
  ((perm_ascending store).map _).nodup_iff.mp (AuditLog.nodup_hash hdigest hright.2 hright.1)

/-- A chain of entries of the log is its beginning. -/
theorem Right.links_eq {l : List (Entry D H)} (hl : Links none (l.map Entry.link))
    (hsub : l.map Entry.link ⊆ (ascending store).map Entry.link) :
    l.map Entry.link = ((ascending store).take l.length).map Entry.link := by
  have hdet := determined hdigest hright.2
  have hprefix := hl.isPrefix hright.1 hsub (hright.1.nodup hdet) (fun _ _ => nofun)
  rw [prefix_iff_eq_take.mp hprefix, length_map, map_take]

variable [DecidableEq H] {limit i : ℕ} (hi : i < store.length)
include hi

/-- The entries without one of them, in their order. -/
theorem Right.ascending_eraseIdx : ascending (store.eraseIdx i) =
    (ascending store).filter (fun x => x.hash ≠ store[i].hash) := by
  rw [← filter_ne_eq_eraseIdx (hright.nodup_hash hdigest) hi rfl, ascending, ascending,
    filter_insertionSort]

omit [DecidableEq H] in
/-- An entry is known by its hash. -/
theorem Right.eq_getElem {x : Entry D H} (hx : x ∈ ascending store)
    (heq : x.hash = store[i].hash) : x = store[i] :=
  inj_on_of_nodup_map (hright.nodup_hash hdigest) ((mem_insertionSort _).mp hx) (getElem_mem hi) heq

/-- **An entry that is missing** is not noticed iff it is not looked at or the last one. -/
theorem Right.valid_eraseIdx_iff : (verifyIntegrity digest limit (store.eraseIdx i)).valid = true ↔
      store[i] ∉ checked limit store ∨ (ascending store).getLast? = some store[i] := by
  have hmem : store[i] ∈ ascending store := (mem_insertionSort _).mpr (getElem_mem hi)
  constructor
  · intro herase
    refine or_iff_not_imp_left.mpr fun hchecked => ?_
    replace hchecked := Classical.not_not.mp hchecked
    obtain ⟨hlinks, -⟩ := (valid_iff_checked ..).mp herase
    have hsub : (checked limit (store.eraseIdx i)).map Entry.link ⊆
        (ascending store).map Entry.link := by
      refine map_subset _ fun x hx => ?_
      have hx := mem_of_mem_take hx
      rw [hright.ascending_eraseIdx hdigest hi] at hx
      exact mem_of_mem_filter hx
    have heq := hright.links_eq hdigest hlinks hsub
    -- the hash of the entry is not in the chain
    have hnot : store[i] ∉ (ascending store).take (checked limit (store.eraseIdx i)).length := by
      intro hin
      have hlink : store[i].link ∈ (checked limit (store.eraseIdx i)).map Entry.link :=
        heq ▸ mem_map_of_mem hin
      obtain ⟨x, hx, hxl⟩ := mem_map.mp hlink
      have hx := mem_of_mem_take hx
      rw [hright.ascending_eraseIdx hdigest hi] at hx
      exact of_decide_eq_true (mem_filter.mp hx).2 (congrArg Link.hash hxl)
    have hlen : (checked limit (store.eraseIdx i)).length =
        min (limitOf limit) ((ascending store).length - 1) := by
      rw [checked, length_take, ascending, length_insertionSort, length_eraseIdx_of_lt hi,
        ascending, length_insertionSort]
    rw [hlen] at hnot
    rcases le_or_gt (limitOf limit) ((ascending store).length - 1) with hle | hlt
    · rw [min_eq_left hle] at hnot
      exact absurd hchecked hnot
    · rw [min_eq_right hlt.le, ← dropLast_eq_take] at hnot
      have hne : ascending store ≠ [] := ne_nil_of_mem hmem
      rw [← dropLast_append_getLast hne, mem_append, mem_singleton] at hmem
      rw [getLast?_eq_some_getLast hne, hmem.resolve_left hnot]
  · intro h
    have htake : ∃ n, checked limit (store.eraseIdx i) = (ascending store).take n := by
      rw [checked, hright.ascending_eraseIdx hdigest hi]
      rcases h with hnot | hlast
      · refine ⟨limitOf limit, take_filter_of_forall _ fun x hx => decide_eq_true fun heq => ?_⟩
        exact hnot (hright.eq_getElem hdigest hi (mem_of_mem_take hx) heq ▸ hx)
      · obtain ⟨init, hinit⟩ := getLast?_eq_some_iff.mp hlast
        have hnodup := ((perm_ascending store).map Entry.hash).nodup_iff.mpr
          (hright.nodup_hash hdigest)
        refine ⟨min (limitOf limit) init.length, ?_⟩
        rw [hinit, map_append] at hnodup
        have hself : init.filter (fun x => x.hash ≠ store[i].hash) = init := by
          refine filter_eq_self.mpr fun x hx => decide_eq_true fun heq => ?_
          exact disjoint_of_nodup_append hnodup (mem_map_of_mem hx) (heq ▸ mem_singleton.mpr rfl)
        rw [hinit, filter_append, hself, filter_cons_of_neg (by simp), filter_nil, append_nil,
          take_append_of_le_length (min_le_right ..)]
        rcases le_total (limitOf limit) init.length with hle | hle
        · rw [min_eq_left hle]
        · rw [min_eq_right hle, take_of_length_le hle, take_length]
    obtain ⟨n, htake⟩ := htake
    refine (valid_iff_checked ..).mpr ⟨htake ▸ hright.links_take n, fun x hx => ?_⟩
    rw [htake] at hx
    exact hright.2 x ((mem_insertionSort _).mp (mem_of_mem_take hx))

/-- **A change of one entry** is not noticed iff it changes nothing that is verified, or the
entry is looked at neither before nor after it. -/
theorem Right.valid_set_iff {e : Entry D H} (hhash : e.hash = store[i].hash) :
    (verifyIntegrity digest limit (store.set i e)).valid = true ↔
      e.payload = store[i].payload ∨
        (store[i] ∉ checked limit store ∧ e ∉ checked limit (store.set i e)) := by
  have hhashes : (store.set i e).map Entry.hash = store.map Entry.hash := by
    have hi' : i < (store.map Entry.hash).length := by rwa [length_map]
    have : e.hash = (store.map Entry.hash)[i] := by rw [getElem_map, hhash]
    rw [map_set, this, set_getElem_self]
  by_cases hpayload : e.payload = store[i].payload
  · -- the same is verified of the entry
    refine iff_of_true ?_ (.inl hpayload)
    have hseal : (store.set i e).map Entry.seal = store.map Entry.seal := by
      have hi' : i < (store.map Entry.seal).length := by rwa [length_map]
      have heq : e.seal = (store.map Entry.seal)[i] := by
        rw [getElem_map]
        exact Prod.ext hpayload hhash
      rw [map_set, heq, set_getElem_self]
    rw [valid_congr store, hright.valid]
    rw [checked, checked, map_take, map_take, map_seal_ascending, map_seal_ascending, hseal]
  rw [or_iff_right hpayload]
  by_cases he : e ∈ checked limit (store.set i e)
  · refine iff_of_false (fun hset => hpayload (hdigest ?_)) (fun h => h.2 he)
    have hsealed : e.hash = digest e.payload := ((valid_iff_checked ..).mp hset).2 e he
    exact hsealed.symm.trans (hhash.trans (hright.2 _ (getElem_mem hi)))
  -- what is looked at is the same as if the entry were missing
  have hsame : checked limit (store.set i e) = checked limit (store.eraseIdx i) := by
    have hi' : i < (store.set i e).length := by rwa [length_set]
    have herase := filter_ne_eq_eraseIdx (hhashes ▸ hright.nodup_hash hdigest) hi'
      (congrArg Entry.hash (getElem_set_self hi'))
    rw [eraseIdx_set_eq] at herase
    rw [← herase, checked, checked, ascending, ascending, ← filter_insertionSort]
    refine (take_filter_of_forall _ fun x hx => ?_).symm
    refine decide_eq_true fun heq => he ?_
    have hmem := (mem_insertionSort _).mp (mem_of_mem_take hx)
    have hxe := inj_on_of_nodup_map (hhashes ▸ hright.nodup_hash hdigest) hmem (mem_set hi e) heq
    exact hxe ▸ hx
  have hlong : limitOf limit < (ascending store).length := by
    by_contra hle
    refine he ?_
    rw [checked, take_of_length_le, ascending, mem_insertionSort]
    · exact mem_set hi e
    · rw [ascending, length_insertionSort] at hle ⊢
      rw [length_set]
      omega
  rw [and_iff_left he, valid_congr (store.eraseIdx i) (by rw [hsame]),
    hright.valid_eraseIdx_iff hdigest hi, or_iff_left_iff_imp]
  intro hlast
  -- the last entry is not looked at
  obtain ⟨init, hinit⟩ := getLast?_eq_some_iff.mp hlast
  have hnodup := ((perm_ascending store).map Entry.hash).nodup_iff.mpr (hright.nodup_hash hdigest)
  rw [hinit, map_append] at hnodup
  rw [hinit, length_append] at hlong
  rw [checked, hinit, take_append_of_le_length (by simpa using hlong)]
  exact fun hin => disjoint_of_nodup_append hnodup (mem_map_of_mem (mem_of_mem_take hin))
    (mem_singleton.mpr rfl)

omit hi in
/-- **Contents that are exchanged** are not noticed iff the hashes that are looked at are the
same, in the same order. -/
theorem Right.valid_exchange_iff {i j : ℕ} (hi : i < store.length) (hj : j < store.length) :
    (verifyIntegrity digest limit (exchange store i j)).valid = true ↔
      (checked limit (exchange store i j)).map Entry.hash =
        (checked limit store).map Entry.hash := by
  have hperm : ((ascending (exchange store i j)).map Entry.seal).Perm
      ((ascending store).map Entry.seal) :=
    ((perm_ascending _).map _).trans ((perm_map_seal_exchange hi hj).trans
      ((perm_ascending _).map _).symm)
  have hlength : (ascending (exchange store i j)).length = (ascending store).length := by
    simpa using hperm.length_eq
  have hsub : (checked limit (exchange store i j)).map Entry.seal ⊆
      (ascending store).map Entry.seal :=
    fun x hx => hperm.subset (map_subset _ (take_subset _ _) hx)
  constructor
  · intro hexchange
    obtain ⟨hlinks, -⟩ := (valid_iff_checked ..).mp hexchange
    have heq := hright.links_eq hdigest hlinks (by
      rw [map_link, map_link]
      exact map_subset _ hsub)
    rw [checked, length_take, hlength, ← take_eq_take_min, ← checked, ← checked] at heq
    have hhash := congrArg (map Link.hash) heq
    rwa [map_map, map_map] at hhash
  · intro hhash
    -- an entry of the log is known by its hash
    have hseal : (checked limit (exchange store i j)).map Entry.seal =
        (checked limit store).map Entry.seal := by
      have hnodup : (((ascending store).map Entry.seal).map Prod.snd).Nodup := by
        rw [map_map]
        exact ((perm_ascending store).map _).nodup_iff.mpr (hright.nodup_hash hdigest)
      refine eq_of_map_eq hnodup hsub (map_subset _ (take_subset _ _)) ?_
      rw [map_map, map_map]
      exact hhash
    rw [valid_congr _ hseal, hright.valid]

end Right

/-- **What tampering is noticed**, in a log that is right, with a hash that has no
collisions, and whatever the limit:

* a change of an entry, its hash apart, is noticed iff it changes one of the fields
  that the hash is made of and the entry is looked at, before the change or after it;
* a missing entry is noticed iff it was looked at and is not the last one;
* two entries whose contents are exchanged are noticed iff sorting by the timestamps
  does not bring those that are looked at back into their order. -/
theorem tampering [DecidableEq H] (hdigest : Function.Injective digest)
    (hright : Right digest store) (limit : ℕ) :
    (verifyIntegrity digest limit store).valid = true ∧
    (∀ (i : ℕ) (hi : i < store.length) (e : Entry D H), e.hash = store[i].hash →
      ((verifyIntegrity digest limit (store.set i e)).valid = false ↔
        e.payload ≠ store[i].payload ∧
          (store[i] ∈ checked limit store ∨ e ∈ checked limit (store.set i e)))) ∧
    (∀ (i : ℕ) (hi : i < store.length),
      ((verifyIntegrity digest limit (store.eraseIdx i)).valid = false ↔
        store[i] ∈ checked limit store ∧ (ascending store).getLast? ≠ some store[i])) ∧
    (∀ i j : ℕ, i < store.length → j < store.length →
      ((verifyIntegrity digest limit (exchange store i j)).valid = false ↔
        (checked limit (exchange store i j)).map Entry.hash ≠
          (checked limit store).map Entry.hash)) := by
  refine ⟨hright.valid limit, fun i hi e hhash => ?_, fun i hi => ?_, fun i j hi hj => ?_⟩
  · rw [← not_eq_true, hright.valid_set_iff hdigest hi hhash]
    tauto
  · rw [← not_eq_true, hright.valid_eraseIdx_iff hdigest hi]
    tauto
  · rw [← not_eq_true, hright.valid_exchange_iff hdigest hi hj]

/-- **The last hash determines the log**: logs that are valid and end with the same hash agree in
all that the hashes are made of. -/
theorem payloads_of_lastHash [DecidableEq H] {limit : ℕ} (hdigest : Function.Injective digest)
    {store' : List (Entry D H)}
    (hvalid : (verifyIntegrity digest limit store).valid)
    (hvalid' : (verifyIntegrity digest limit store').valid)
    (hlast : (verifyIntegrity digest limit store).lastHash =
      (verifyIntegrity digest limit store').lastHash) :
    ((ascending store).take (limitOf limit)).map Entry.payload =
      ((ascending store').take (limitOf limit)).map Entry.payload := by
  unfold verifyIntegrity checked at *
  generalize (ascending store).take (limitOf limit) = l at *
  generalize (ascending store').take (limitOf limit) = l' at *
  induction l using reverseRecOn generalizing l' with
  | nil =>
    rcases eq_nil_or_concat' l' with rfl | ⟨l', y, rfl⟩
    · rfl
    · simp [verifyEntry] at hlast
  | append_singleton l x ih =>
    rcases eq_nil_or_concat' l' with rfl | ⟨l', y, rfl⟩
    · simp [verifyEntry] at hlast
    simp only [foldl_append, foldl_cons, foldl_nil, verifyEntry, and_eq_true, List.isEmpty_iff,
      checkEntry_eq_nil, Option.some.injEq] at hvalid hvalid' hlast
    have hpayload : x.payload = y.payload :=
      hdigest (hvalid.2.2.symm.trans (hlast.trans hvalid'.2.2))
    -- the entries before have the same last hash too
    have hprev : x.link.prev = y.link.prev := congrArg Payload.previousHash hpayload
    have hl := ih hvalid.1 l' hvalid'.1 (hvalid.2.1.symm.trans (hprev.trans hvalid'.2.1))
    simp [hl, hpayload]

end Detection

/-! ### Two entries -/

/-- A hash without collisions: the fields themselves. -/
inductive Fields
  | first (timestamp : ℤ) (action userId details : String)
  | next (timestamp : ℤ) (action userId details : String) (previousHash : Fields)
  deriving DecidableEq

def fieldsOf (p : Payload String Fields) : Fields :=
  match p.previousHash with
  | none => .first p.timestamp p.action p.userId p.details
  | some h => .next p.timestamp p.action p.userId p.details h

theorem fieldsOf_injective : Function.Injective fieldsOf := by
  rintro ⟨t, a, u, d, p⟩ ⟨t', a', u', d', p'⟩ h
  cases p with
  | none =>
    cases p' with
    | none => simpa [fieldsOf] using h
    | some h' => simp [fieldsOf] at h
  | some h1 =>
    cases p' with
    | none => simp [fieldsOf] at h
    | some h2 => simpa [fieldsOf] using h

/-- A log-in and, later, a critical event. -/
def login : Entry String Fields :=
  newEntry fieldsOf { action := "auth:login", userId := "ann" } "audit-1" 1 none

def breach : Entry String Fields :=
  newEntry fieldsOf { action := "security:breach", severity := "critical" } "audit-2" 2
    (some login.hash)

/-- A change of what was done is noticed if the entry is looked at, and so is a log-in that is
missing. -/
theorem tampering_action :
    (verifyIntegrity fieldsOf 0 [login,
        { breach with action := "auth:login" }]).valid = false ∧
      (verifyIntegrity fieldsOf 0 [breach]).valid = false ∧
      (verifyIntegrity fieldsOf 1 [login,
        { breach with action := "auth:login" }]).valid = true := by
  have hright : Right fieldsOf [login, breach] :=
    (valid_iff 0 (by decide)).mp (by decide +kernel)
  have hall := tampering fieldsOf_injective hright 0
  have hone := tampering fieldsOf_injective hright 1
  refine ⟨?_, ?_, ?_⟩
  · exact (hall.2.1 1 (by decide) { breach with action := "auth:login" } rfl).mpr
      (by decide +kernel)
  · exact (hall.2.2.1 0 (by decide)).mpr (by decide +kernel)
  · refine eq_true_of_not_eq_false ?_
    refine mt (hone.2.1 1 (by decide) { breach with action := "auth:login" } rfl).mp ?_
    decide +kernel

theorem payloads_of_lastHash_renamed :
    ((ascending [{ login with username := some "eve" }, breach]).take (limitOf 0)).map
      Entry.payload = ((ascending [login, breach]).take (limitOf 0)).map Entry.payload :=
  payloads_of_lastHash fieldsOf_injective (by decide +kernel) (by decide +kernel) rfl

/-- **A change of the severity or of the name of the user is not noticed**, and neither
are two entries that exchange their contents. -/
theorem not_noticed :
    (verifyIntegrity fieldsOf 0 [login, breach]).valid = true ∧
      (verifyIntegrity fieldsOf 0 [login, { breach with severity := "info" }]).valid = true ∧
      (verifyIntegrity fieldsOf 0 [{ login with username := some "eve" }, breach]).valid = true ∧
      (verifyIntegrity fieldsOf 0 (exchange [login, breach] 0 1)).valid = true := by
  decide +kernel

end ControlPlane.AuditLog
