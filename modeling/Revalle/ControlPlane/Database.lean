import Mathlib

/-!
# Transactions of the document database

A collection of `Database` is a map from identifiers to documents, and documents
are objects: the map has references to them. `TransactionProxy` takes a snapshot
of a collection before it first writes to it, and `rollback` puts the snapshot
back. The snapshot is a copy of the *map*. `update` changes a document in place,
so the change shows through the snapshot as well; and the indexes of a
collection, to which insertions and updates only ever add, are in no snapshot.

So a rollback undoes what happened to the maps – insertions and deletions, and
updates of documents that the transaction itself inserted – and leaves what
happened to older documents and to the indexes (`rollback_restores`).

Values stay abstract: `V` is the type of what a field may have, a nested object
included, which the operations store and replace but never look into.
-/

namespace ControlPlane.Database

open Function Option

/-- What the operations ask of the values of the language. -/
structure Values (V : Type) where
  truthy : V → Bool
  /-- `(x || 0) + v`. -/
  increase : Option V → V → V

/-- The fields of a document; a missing field is `undefined`. -/
abbrev Doc (V : Type) : Type := String → Option V

/-- A reference to a document. -/
abbrev Ref : Type := ℕ

/-- `Object.assign(doc, fields)`. -/
def Doc.assign {V : Type} (doc fields : Doc V) : Doc V :=
  fun field => (fields field).or (doc field)

/-- The index of one field: the identifiers listed for each value. -/
abbrev Index (V : Type) : Type := V → Finset (Option V)

structure Collection (V : Type) where
  data : V → Option Ref
  /-- By the name of the field. -/
  indexes : String → Option (Index V)

/-- A collection as `_getCollection` creates it. -/
def Collection.new (V : Type) : Collection V := ⟨fun _ => none, fun _ => none⟩

/-- The database: the documents by reference, the next reference that is given
out, and the collections. -/
structure Db (V : Type) where
  heap : Ref → Doc V
  next : Ref
  collections : String → Option (Collection V)

/-- The argument of `update`, by the branch it is meant for. -/
inductive Updates (V : Type) where
  | set (fields : Doc V)
  | unset (fields : List String)
  | inc (amounts : List (String × V))
  | direct (fields : Doc V)

variable {V : Type} [DecidableEq V]

/-! ## The database -/

/-- `_getCollection`: the collection, which is created when it is missing. -/
def Db.getCollection (db : Db V) (name : String) : Collection V :=
  (db.collections name).getD (.new V)

def Db.setCollection (db : Db V) (name : String) (collection : Collection V) : Db V :=
  { db with collections := Function.update db.collections name (some collection) }

/-- The body of the loop of `_updateIndexes`. -/
def Index.add (index : Index V) (value : Option V) (id : Option V) : Index V :=
  match value with
  | none => index
  | some value => Function.update index value (insert id (index value))

/-- `_updateIndexes`, for a document of the collection. -/
def Collection.updateIndexes (collection : Collection V) (doc : Doc V) : Collection V :=
  { collection with
    indexes := fun field =>
      (collection.indexes field).map (fun index => index.add (doc field) (doc "_id")) }

/-- The identifier under which `insert` files a document. -/
def Values.idOf (js : Values V) (doc : Doc V) (generated : V) : V :=
  (((doc "id").filter js.truthy).or ((doc "_id").filter js.truthy)).getD generated

/-- The document that `insert` creates: `{ _id: id, ...doc, _createdAt, _updatedAt }`. -/
def Values.document (js : Values V) (doc : Doc V) (generated now : V) : Doc V := fun field =>
  if field = "_createdAt" ∨ field = "_updatedAt" then some now
  else if field = "_id" then (doc "_id").or (some (js.idOf doc generated))
  else doc field

/-- `insert`; `generated` is what `_generateId` answers and `now` the time. -/
def Db.insert (js : Values V) (db : Db V) (name : String) (doc : Doc V) (generated now : V) :
    Db V :=
  let collection := db.getCollection name
  let document := js.document doc generated now
  let collection :=
    { collection with
      data := Function.update collection.data (js.idOf doc generated) (some db.next) }
  { heap := Function.update db.heap db.next document
    next := db.next + 1
    collections :=
      Function.update db.collections name (some (collection.updateIndexes document)) }

/-- The branches of `update`, on the document. -/
def Values.apply (js : Values V) (updates : Updates V) (doc : Doc V) : Doc V :=
  match updates with
  | .set fields => doc.assign fields
  | .unset fields => fun field => if field ∈ fields then none else doc field
  | .inc amounts => amounts.foldl
      (fun doc (field, value) =>
        Function.update doc field (some (js.increase (doc field) value))) doc
  | .direct fields => doc.assign fields

/-- The document after `update`. -/
def Values.updated (js : Values V) (updates : Updates V) (now : V) (doc : Doc V) : Doc V :=
  Function.update (js.apply updates doc) "_updatedAt" (some now)

/-- `update`, with whether it returns: it throws when there is no such document. -/
def Db.update (js : Values V) (db : Db V) (name : String) (id : V) (updates : Updates V)
    (now : V) : Db V × Bool :=
  let collection := db.getCollection name
  match collection.data id with
  | none => (db.setCollection name collection, false)
  | some ref =>
    -- the object that the map refers to is changed itself
    let doc := js.updated updates now (db.heap ref)
    ({ db with
        heap := Function.update db.heap ref doc
        collections := Function.update db.collections name (some (collection.updateIndexes doc)) },
      true)

def Db.delete (db : Db V) (name : String) (id : V) : Db V :=
  let collection := db.getCollection name
  db.setCollection name { collection with data := Function.update collection.data id none }

/-! ## The transaction -/

inductive OpType where
  | insert
  | update
  | delete
  deriving DecidableEq

/-- A database with an open transaction. -/
structure Tx (V : Type) where
  db : Db V
  snapshots : String → Option (V → Option Ref)
  /-- The latest first. -/
  operations : List (OpType × String × V)

/-- `beginTransaction`. -/
def beginTransaction (db : Db V) : Tx V := ⟨db, fun _ => none, []⟩

/-- The first lines of each call: a snapshot is taken unless there is one. -/
def Tx.snapshot (tx : Tx V) (name : String) : Tx V :=
  let collection := tx.db.getCollection name
  { tx with
    db := tx.db.setCollection name collection
    snapshots :=
      Function.update tx.snapshots name (some ((tx.snapshots name).getD collection.data)) }

/-- A call on the transaction proxy. -/
inductive Op (V : Type) where
  | insert (name : String) (doc : Doc V) (generated now : V)
  | update (name : String) (id : V) (updates : Updates V) (now : V)
  | delete (name : String) (id : V)

/-- The collection a call is about. -/
def Op.name : Op V → String
  | .insert name _ _ _ => name
  | .update name _ _ _ => name
  | .delete name _ => name

/-- What a call does after the snapshot. -/
def Tx.perform (js : Values V) (tx : Tx V) : Op V → Tx V
  | .insert name doc generated now =>
    { tx with
      db := tx.db.insert js name doc generated now
      operations := (.insert, name, js.idOf doc generated) :: tx.operations }
  | .update name id updates now =>
    match tx.db.update js name id updates now with
    | (db, true) => { tx with db := db, operations := (.update, name, id) :: tx.operations }
    | (db, false) => { tx with db := db }
  | .delete name id =>
    { tx with
      db := tx.db.delete name id
      operations := (.delete, name, id) :: tx.operations }

def Tx.call (js : Values V) (tx : Tx V) (op : Op V) : Tx V := (tx.snapshot op.name).perform js op

/-- `rollback`. -/
def Tx.rollback (tx : Tx V) : Db V :=
  { tx.db with
    collections := fun name =>
      match tx.snapshots name with
      | none => tx.db.collections name
      | some snapshot => some { tx.db.getCollection name with data := snapshot } }

/-- The database after a transaction that is rolled back. -/
def rolledBack (js : Values V) (db : Db V) (ops : List (Op V)) : Db V :=
  (ops.foldl (Tx.call js) (beginTransaction db)).rollback

/-! ## What a rollback is to restore -/

/-- The document that a collection has under an identifier. -/
def Db.docAt (db : Db V) (name : String) (id : V) : Option (Doc V) :=
  ((db.getCollection name).data id).map db.heap

/-- The collection has the documents and the indexes that it had. -/
structure Restored (db db' : Db V) (name : String) : Prop where
  documents : ∀ id, db'.docAt name id = db.docAt name id
  indexes : (db'.getCollection name).indexes = (db.getCollection name).indexes

/-- Every reference has been given out. -/
def Db.Allocated (db : Db V) : Prop :=
  ∀ name id ref, (db.getCollection name).data id = some ref → ref < db.next

/-- The indexes of the collection already list the document. -/
def Collection.Lists (collection : Collection V) (doc : Doc V) : Prop :=
  ∀ field index value, collection.indexes field = some index → doc field = some value →
    doc "_id" ∈ index value

/-- A call that a rollback can undo, in a transaction that began when the
references below `start` had been given out: it changes no document from before
the transaction, and adds to no index. -/
def Op.Undoable (js : Values V) (start : Ref) (db : Db V) : Op V → Prop
  | .insert name doc generated now =>
    (db.getCollection name).Lists (js.document doc generated now)
  | .update name id updates now => ∀ ref, (db.getCollection name).data id = some ref →
    start ≤ ref ∧ (db.getCollection name).Lists (js.updated updates now (db.heap ref))
  | .delete _ _ => True

/-- Each call can be undone where it runs. -/
def UndoableRun (js : Values V) (start : Ref) : Tx V → List (Op V) → Prop
  | _, [] => True
  | tx, op :: ops => op.Undoable js start tx.db ∧ UndoableRun js start (tx.call js op) ops

/-! ## What a transaction leaves alone -/

omit [DecidableEq V] in
theorem getCollection_update (heap : Ref → Doc V) (next : Ref)
    (collections : String → Option (Collection V)) (name : String) (collection : Collection V)
    (name' : String) :
    (Db.mk heap next (update collections name (some collection))).getCollection name' =
      if name' = name then collection else (Db.mk heap next collections).getCollection name' := by
  by_cases h : name' = name <;> simp [Db.getCollection, h]

omit [DecidableEq V] in
/-- Taking a snapshot changes no collection. -/
theorem snapshot_getCollection (tx : Tx V) (name name' : String) :
    (tx.snapshot name).db.getCollection name' = tx.db.getCollection name' := by
  show ((tx.db.setCollection name (tx.db.getCollection name)).getCollection name') = _
  rw [Db.setCollection, getCollection_update]
  split
  · next heq => rw [heq]
  · rfl

variable {db : Db V} {name : String} {op : Op V} {tx : Tx V} (js : Values V)

theorem perform_snapshots (tx : Tx V) (op : Op V) :
    (tx.perform js op).snapshots = tx.snapshots := by
  cases op with
  | insert name doc generated now => rfl
  | update name id updates now =>
    simp only [Tx.perform]
    split <;> rfl
  | delete name id => rfl

/-- An update of a document that is not there only creates the collection. -/
theorem update_of_none {js : Values V} {id : V} (h : (db.getCollection name).data id = none)
    (updates : Updates V) (now : V) :
    db.update js name id updates now = (db.setCollection name (db.getCollection name), false) := by
  simp [Db.update, h]

/-- An update of a document changes the object and the indexes. -/
theorem update_of_some {js : Values V} {id : V} {ref : Ref}
    (h : (db.getCollection name).data id = some ref) (updates : Updates V) (now : V) :
    db.update js name id updates now =
      (⟨update db.heap ref (js.updated updates now (db.heap ref)), db.next,
        update db.collections name (some ((db.getCollection name).updateIndexes
          (js.updated updates now (db.heap ref))))⟩, true) := by
  simp [Db.update, h]

theorem perform_update_db (tx : Tx V) (name : String) (id : V) (updates : Updates V) (now : V) :
    (tx.perform js (.update name id updates now)).db = (tx.db.update js name id updates now).1 := by
  simp only [Tx.perform]
  split <;> next heq => rw [heq]

/-- A call changes one collection. -/
theorem perform_getCollection_of_ne (tx : Tx V) (h : name ≠ op.name) :
    (tx.perform js op).db.getCollection name = tx.db.getCollection name := by
  have hne := fun heap next collection =>
    (getCollection_update heap next tx.db.collections op.name collection name).trans (if_neg h)
  cases op with
  | insert name' doc generated now => exact hne _ _ _
  | update name' id updates now =>
    rw [perform_update_db]
    cases hdata : (tx.db.getCollection name').data id with
    | none =>
      rw [update_of_none hdata]
      exact hne _ _ _
    | some ref =>
      rw [update_of_some hdata]
      exact hne _ _ _
  | delete name' id => exact hne _ _ _

/-- There is a copy of each map that has been written to, as it was in `db`. -/
structure Saved (db : Db V) (tx : Tx V) : Prop where
  snapshot : ∀ name snapshot, tx.snapshots name = some snapshot →
    snapshot = (db.getCollection name).data
  untouched : ∀ name, tx.snapshots name = none →
    tx.db.getCollection name = db.getCollection name

omit [DecidableEq V] in
/-- The snapshot of a collection, when it is taken, is the map at the beginning. -/
theorem Saved.snapshot_step (h : Saved db tx) (name : String) : Saved db (tx.snapshot name) := by
  have hne : ∀ name' ≠ name, (tx.snapshot name).snapshots name' = tx.snapshots name' :=
    fun name' hne => update_of_ne hne _ _
  have hself : (tx.snapshot name).snapshots name =
      some ((tx.snapshots name).getD (tx.db.getCollection name).data) := update_self _ _ _
  refine ⟨fun name' snapshot hsnapshot => ?_, fun name' hnone => ?_⟩
  · by_cases heq : name' = name
    · subst heq
      obtain rfl := some.inj (hself.symm.trans hsnapshot)
      cases hold : tx.snapshots name' with
      | none => exact congrArg Collection.data (h.untouched name' hold)
      | some old => exact h.snapshot name' old hold
    · exact h.snapshot name' snapshot ((hne name' heq).symm.trans hsnapshot)
  · rw [snapshot_getCollection]
    by_cases heq : name' = name
    · subst heq
      exact absurd (hself.symm.trans hnone) (by simp)
    · exact h.untouched name' ((hne name' heq).symm.trans hnone)

/-- One call. -/
theorem Saved.call (h : Saved db tx) (js : Values V) (op : Op V) : Saved db (tx.call js op) := by
  have hsaved := h.snapshot_step op.name
  refine ⟨fun name snapshot hsnapshot => ?_, fun name hnone => ?_⟩
  · rw [Tx.call, perform_snapshots] at hsnapshot
    exact hsaved.snapshot name snapshot hsnapshot
  · rw [Tx.call, perform_snapshots] at hnone
    have hne : name ≠ op.name := by
      rintro rfl
      simp [Tx.snapshot] at hnone
    exact (perform_getCollection_of_ne js _ hne).trans (hsaved.untouched name hnone)

/-- **Every map can be put back**, whatever the calls were. -/
theorem Saved.run (ops : List (Op V)) (h : Saved db tx) : Saved db (ops.foldl (Tx.call js) tx) := by
  induction ops generalizing tx with
  | nil => exact h
  | cons op ops ih => exact ih (h.call js op)

omit [DecidableEq V] in
theorem Saved.begin (db : Db V) : Saved db (beginTransaction db) :=
  ⟨fun _ _ h => absurd h (by simp [beginTransaction]), fun _ _ => rfl⟩

/-- A collection that some call is about has a snapshot. -/
theorem snapshots_run {ops : List (Op V)}
    (h : (tx.snapshots name).isSome ∨ ∃ op ∈ ops, op.name = name) :
    ((ops.foldl (Tx.call js) tx).snapshots name).isSome := by
  induction ops generalizing tx with
  | nil => simpa using h
  | cons op ops ih =>
    refine ih ?_
    rw [Tx.call, perform_snapshots]
    by_cases heq : name = op.name
    · subst heq
      exact .inl (by simp [Tx.snapshot])
    · rcases h with h | ⟨op', hop', hname⟩
      · refine .inl ?_
        show (update tx.snapshots op.name _ name).isSome
        rwa [update_of_ne heq]
      · rcases List.mem_cons.mp hop' with rfl | hop'
        · exact absurd hname.symm heq
        · exact .inr ⟨op', hop', hname⟩

/-! ## What a rollback restores -/

omit [DecidableEq V] in
/-- **A rollback puts the maps back and nothing else.** -/
theorem restored_rollback_iff (h : Saved db tx) (hname : (tx.snapshots name).isSome) :
    Restored db tx.rollback name ↔
      (∀ id ref, (db.getCollection name).data id = some ref → tx.db.heap ref = db.heap ref) ∧
        (tx.db.getCollection name).indexes = (db.getCollection name).indexes := by
  obtain ⟨snapshot, hsnapshot⟩ := isSome_iff_exists.mp hname
  obtain rfl := h.snapshot name snapshot hsnapshot
  have hget : tx.rollback.getCollection name =
      ⟨(db.getCollection name).data, (tx.db.getCollection name).indexes⟩ := by
    simp [Db.getCollection, Tx.rollback, hsnapshot]
  have hdoc : ∀ id, tx.rollback.docAt name id =
      ((db.getCollection name).data id).map tx.db.heap := by
    intro id
    rw [Db.docAt, hget]
    rfl
  constructor
  · intro hrestored
    refine ⟨fun id ref href => ?_, ?_⟩
    · have hid := hrestored.documents id
      rw [hdoc, Db.docAt, href] at hid
      exact some.inj hid
    · rw [← hrestored.indexes, hget]
  · rintro ⟨hheap, hindexes⟩
    refine ⟨fun id => ?_, ?_⟩
    · rw [hdoc, Db.docAt]
      cases hdata : (db.getCollection name).data id with
      | none => rfl
      | some ref => exact congrArg some (hheap id ref hdata)
    · rw [hget]
      exact hindexes

/-- The documents that there were, and the indexes, are as they were. -/
structure Intact (db : Db V) (tx : Tx V) : Prop where
  next_le : db.next ≤ tx.db.next
  heap : ∀ ref < db.next, tx.db.heap ref = db.heap ref
  indexes : ∀ name, (tx.db.getCollection name).indexes = (db.getCollection name).indexes

theorem updateIndexes_of_lists {collection : Collection V} {doc : Doc V}
    (h : collection.Lists doc) : (collection.updateIndexes doc).indexes = collection.indexes := by
  funext field
  show (collection.indexes field).map _ = _
  cases hindex : collection.indexes field with
  | none => rfl
  | some index =>
    cases hvalue : doc field with
    | none => rfl
    | some value =>
      have hmem := h field index value hindex hvalue
      simp [Index.add, Finset.insert_eq_self.mpr hmem]

omit [DecidableEq V] in
/-- A collection is replaced by one with the same indexes. -/
theorem Intact.replace {tx' : Tx V} (h : Intact db tx) {heap : Ref → Doc V} {next : Ref}
    {collection : Collection V}
    (htx : tx'.db = ⟨heap, next, update tx.db.collections name (some collection)⟩)
    (hnext : tx.db.next ≤ next) (hheap : ∀ ref < db.next, heap ref = tx.db.heap ref)
    (hindexes : collection.indexes = (tx.db.getCollection name).indexes) : Intact db tx' := by
  refine ⟨?_, fun ref href => ?_, fun name' => ?_⟩
  · rw [htx]
    exact h.next_le.trans hnext
  · rw [htx]
    exact (hheap ref href).trans (h.heap ref href)
  · rw [htx, getCollection_update]
    split
    · next heq => rw [heq, hindexes, h.indexes]
    · exact h.indexes name'

/-- A call that can be undone leaves the old documents and the indexes alone. -/
theorem Intact.perform (h : Intact db tx) {js : Values V} (hop : op.Undoable js db.next tx.db) :
    Intact db (tx.perform js op) := by
  cases op with
  | insert name doc generated now =>
    -- the new document has a reference that was not given out before
    refine h.replace rfl (Nat.le_succ _) (fun ref href => ?_) (updateIndexes_of_lists hop)
    exact update_of_ne (Nat.ne_of_lt (Nat.lt_of_lt_of_le href h.next_le)) _ _
  | update name id updates now =>
    have hdb := perform_update_db js tx name id updates now
    cases hdata : (tx.db.getCollection name).data id with
    | none =>
      rw [update_of_none hdata] at hdb
      exact h.replace hdb (le_refl _) (fun _ _ => rfl) rfl
    | some ref =>
      rw [update_of_some hdata] at hdb
      obtain ⟨hstart, hlists⟩ := hop ref hdata
      refine h.replace hdb (le_refl _) (fun r hr => ?_) (updateIndexes_of_lists hlists)
      exact update_of_ne (Nat.ne_of_lt (Nat.lt_of_lt_of_le hr hstart)) _ _
  | delete name id => exact h.replace rfl (le_refl _) (fun _ _ => rfl) rfl

omit [DecidableEq V] in
/-- The snapshot taken before a call does not matter to whether it can be undone. -/
theorem undoable_snapshot {js : Values V} {start : Ref} (name : String)
    (h : op.Undoable js start tx.db) : op.Undoable js start (tx.snapshot name).db := by
  cases op with
  | insert name' doc generated now =>
    show ((tx.snapshot name).db.getCollection name').Lists _
    rw [snapshot_getCollection]
    exact h
  | update name' id updates now =>
    intro ref href
    rw [snapshot_getCollection] at href ⊢
    exact h ref href
  | delete name' id => trivial

theorem Intact.run {js : Values V} {ops : List (Op V)} (h : Intact db tx)
    (hops : UndoableRun js db.next tx ops) : Intact db (ops.foldl (Tx.call js) tx) := by
  induction ops generalizing tx with
  | nil => exact h
  | cons op ops ih =>
    obtain ⟨hop, hops⟩ := hops
    have hsnapshot : Intact db (tx.snapshot op.name) :=
      ⟨h.next_le, h.heap, fun name => by rw [snapshot_getCollection]; exact h.indexes name⟩
    exact ih (hsnapshot.perform (undoable_snapshot op.name hop)) hops

/-- **What a rollback restores.** For every database and every sequence of calls
on the transaction, each collection that a call is about has its documents and
indexes again after the rollback, if and only if the objects it had at the
beginning have not been changed and nothing has been added to its indexes. That
is so if each call can be undone: it updates at most documents that the
transaction itself inserted, and lists nothing new in an index. -/
theorem rollback_restores (js : Values V) (db : Db V) (hdb : db.Allocated) (ops : List (Op V)) :
    (∀ op ∈ ops, (Restored db (rolledBack js db ops) op.name ↔
      (∀ id ref, (db.getCollection op.name).data id = some ref →
        (ops.foldl (Tx.call js) (beginTransaction db)).db.heap ref = db.heap ref) ∧
      ((ops.foldl (Tx.call js) (beginTransaction db)).db.getCollection op.name).indexes =
        (db.getCollection op.name).indexes)) ∧
    (UndoableRun js db.next (beginTransaction db) ops →
      ∀ op ∈ ops, Restored db (rolledBack js db ops) op.name) := by
  have hiff := fun op (hop : op ∈ ops) => restored_rollback_iff
    ((Saved.begin db).run js ops) (snapshots_run js (.inr ⟨op, hop, rfl⟩))
  refine ⟨hiff, fun hops op hop => (hiff op hop).mpr ?_⟩
  have hintact : Intact db (ops.foldl (Tx.call js) (beginTransaction db)) :=
    Intact.run ⟨le_refl _, fun _ _ => rfl, fun _ => rfl⟩ hops
  exact ⟨fun id ref href => hintact.heap ref (hdb op.name id ref href), hintact.indexes op.name⟩

/-- Numbers, with the arithmetic of the language. -/
def numbers : Values ℤ := ⟨fun n => n ≠ 0, fun x v => x.getD 0 + v⟩

/-- A database in which the collection `c` has one document, `{ x: 1 }`, filed
under `7` and not indexed. -/
def single : Db ℤ where
  heap _ := fun field => if field = "x" then some 1 else none
  next := 1
  collections name :=
    if name = "c" then some ⟨fun id => if id = 7 then some 0 else none, fun _ => none⟩ else none

theorem allocated_single : single.Allocated := by
  intro name id ref h
  simp only [Db.getCollection, single] at h ⊢
  by_cases hname : name = "c"
  · by_cases hid : id = 7
    · simp only [hname, hid, if_true, getD_some, some.injEq] at h
      exact h ▸ Nat.zero_lt_one
    · simp [hname, hid] at h
  · simp [hname, Collection.new] at h

/-- The document `7` is deleted and another one inserted. -/
def replaceSeven : List (Op ℤ) := [.delete "c" 7, .insert "c" (fun _ => none) 8 0]

theorem undoable_replaceSeven :
    UndoableRun numbers single.next (beginTransaction single) replaceSeven :=
  ⟨trivial, fun _ _ _ h => absurd h (by
    simp [Tx.call, Tx.perform, Tx.snapshot, Op.name, Db.delete, Db.setCollection,
      Db.getCollection, beginTransaction, single]), trivial⟩

theorem rollback_restores_single :
    single.Allocated ∧ UndoableRun numbers single.next (beginTransaction single) replaceSeven ∧
      ∀ op ∈ replaceSeven, Restored single (rolledBack numbers single replaceSeven) op.name :=
  ⟨allocated_single, undoable_replaceSeven,
    (rollback_restores numbers single allocated_single replaceSeven).2 undoable_replaceSeven⟩

/-- **An update is not rolled back.** `{ $set: { x: 2 } }` on the document `7`, and
the document has `x: 2` after the rollback. -/
theorem not_restored_single :
    (rolledBack numbers single
      [.update "c" 7 (.set (fun field => if field = "x" then some 2 else none)) 0]).docAt "c" 7 ≠
      single.docAt "c" 7 := by
  intro h
  have hx := congrArg (Option.map (fun doc => doc "x")) h
  revert hx
  decide

end ControlPlane.Database
