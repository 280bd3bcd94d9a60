import Revalle.Data.KeyedList
import Revalle.Data.WriteQueue

/-!
# How collections come to their files

The database has its collections in memory. A change marks the collection dirty and sets a
timer that writes it to its file; an interval timer and `shutdown` go through all
collections and write those that are dirty. A write takes the documents as they are when it
is started, and when it has completed the collection is marked clean – also if it was
changed meanwhile. Such a change is still written by its own timer, but a shutdown does not
wait for timers: it finds the collection clean and leaves it.

* A collection that is not dirty, of which no write is in flight and for which no timer is
  set, agrees with its file after every history.
* After a shutdown the files agree with the memory if each collection was `Settled` when it
  was called; and it is, if no collection was changed while a write of it was in flight.
-/

namespace ControlPlane.DatabaseFlush

open Function List

open QueuedWrite (land land_cons land_concat land_of_forall_ne land_eq_of_forall)

/-! ## Collections and files -/

section

variable {κ D : Type} [DecidableEq κ]

/-- The documents of a collection, by their identifiers. -/
abbrev Docs (κ D : Type) := KeyedList (fun e : κ × D => e.1)

structure Collection (κ D : Type) [DecidableEq κ] where
  data : Docs κ D
  dirty : Bool
  /-- whether `writeQueue` has a timer -/
  scheduled : Bool

def Collection.new (κ D : Type) [DecidableEq κ] : Collection κ D := ⟨KeyedList.empty, false, false⟩

/-- What is written: `[...collection.data.values()]`. -/
def Collection.values (c : Collection κ D) : List D := c.data.toList.map Prod.snd

/-- A call of `_flushAll` that has started: it waits for the write with a number, of the
collection at a position, or it is done. -/
inductive Phase
  | waiting (position ticket : ℕ)
  | done
  deriving DecidableEq, Repr

structure Db (κ D : Type) [DecidableEq κ] where
  /-- the keys of `collections`, in the order of insertion -/
  names : List String
  /-- a collection that is not there is as a new one -/
  collection : String → Collection κ D
  file : String → Option (List D)
  /-- the writes in flight, in the order of their start -/
  writes : List (QueuedWrite String (List D))
  /-- how many writes have completed -/
  completed : ℕ
  runs : List Phase

/-- The state after `initialize`, with the documents that the files have. -/
def Db.opened (files : KeyedList (fun c : String × Docs κ D => c.1)) : Db κ D where
  names := files.toList.map Prod.fst
  collection name :=
    match files.get name with
    | none => .new κ D
    | some c => ⟨c.2, false, false⟩
  file name := (files.get name).map (fun c => c.2.toList.map Prod.snd)
  writes := []
  completed := 0
  runs := []

/-- `_getCollection`: a collection that is not there is created. -/
def Db.getCollection (db : Db κ D) (name : String) : Db κ D :=
  if name ∈ db.names then db else { db with names := db.names ++ [name] }

def Db.setCollection (db : Db κ D) (name : String) (c : Collection κ D) : Db κ D :=
  { db with collection := Function.update db.collection name c }

/-- The documents are changed, the collection is dirty, and `_scheduleFlush` is called. -/
def Db.change (db : Db κ D) (name : String) (data : Docs κ D) : Db κ D :=
  (db.getCollection name).setCollection name ⟨data, true, true⟩

def Db.insert (db : Db κ D) (name : String) (id : κ) (doc : D) : Db κ D :=
  db.change name ((db.collection name).data.set (id, doc))

/-- `update`; it throws if there is no document. -/
def Db.update (db : Db κ D) (name : String) (id : κ) (updates : D → D) : Db κ D :=
  match (db.collection name).data.get id with
  | none => db.getCollection name
  | some e => db.change name ((db.collection name).data.set (id, updates e.2))

def Db.delete (db : Db κ D) (name : String) (id : κ) : Db κ D :=
  match (db.collection name).data.get id with
  | none => db.getCollection name
  | some _ => db.change name ((db.collection name).data.erase id)

/-! ## Flushing -/

/-- The first part of `_flushCollection`: the write is started. -/
def Db.startWrite (db : Db κ D) (name : String) : Db κ D :=
  { db with writes := db.writes ++ [⟨name, (db.collection name).values⟩] }

/-- The second part: the oldest write completes, and the collection is clean. -/
def Db.complete (db : Db κ D) : Db κ D :=
  match db.writes with
  | [] => db
  | w :: writes =>
    { db with
      file := Function.update db.file w.key (some w.value)
      collection := Function.update db.collection w.key
        { db.collection w.key with dirty := false }
      writes := writes
      completed := db.completed + 1 }

/-- The timer that `_scheduleFlush` has set. -/
def Db.timer (db : Db κ D) (name : String) : Db κ D :=
  if (db.collection name).scheduled then
    (db.startWrite name).setCollection name { db.collection name with scheduled := false }
  else db

/-- The first dirty collection of a list, with its position. -/
def Db.firstDirty (db : Db κ D) : List String → ℕ → Option (ℕ × String)
  | [], _ => none
  | name :: names, i =>
    if (db.collection name).dirty then some (i, name) else db.firstDirty names (i + 1)

/-- The loop of `_flushAll` from a position on, until it has to wait. -/
def Db.examine (db : Db κ D) (i : ℕ) : Db κ D × Phase :=
  match db.firstDirty (db.names.drop i) i with
  | none => (db, .done)
  | some (j, name) => (db.startWrite name, .waiting j (db.completed + db.writes.length))

/-- A call of `_flushAll`, by the interval timer or by `shutdown`. -/
def Db.flushAll (db : Db κ D) : Db κ D :=
  { (db.examine 0).1 with runs := db.runs ++ [(db.examine 0).2] }

/-- A call of `_flushAll` goes on when the write it waits for has completed. -/
def Db.advance (db : Db κ D) (r : ℕ) : Db κ D :=
  match db.runs[r]? with
  | some (.waiting i ticket) =>
    if ticket < db.completed then
      { (db.examine (i + 1)).1 with runs := db.runs.set r (db.examine (i + 1)).2 }
    else db
  | _ => db

inductive Step (κ D : Type)
  | insert (name : String) (id : κ) (doc : D)
  | update (name : String) (id : κ) (updates : D → D)
  | delete (name : String) (id : κ)
  | interval
  | timer (name : String)
  | complete
  | advance (r : ℕ)

def Step.run (db : Db κ D) : Step κ D → Db κ D
  | .insert name id doc => db.insert name id doc
  | .update name id updates => db.update name id updates
  | .delete name id => db.delete name id
  | .interval => db.flushAll
  | .timer name => db.timer name
  | .complete => db.complete
  | .advance r => db.advance r

def runSteps (db : Db κ D) (steps : List (Step κ D)) : Db κ D := steps.foldl Step.run db

/-- What can happen after a shutdown. (The interval timer is cleared.) -/
def Step.isBackground : Step κ D → Bool
  | .timer _ => true
  | .complete => true
  | .advance _ => true
  | _ => false

/-! ## Agreement -/

/-- A file has the documents of the collection; a missing file has none. -/
def Agrees (file : Option (List D)) (c : Collection κ D) : Prop := file.getD [] = c.values

instance [DecidableEq D] (file : Option (List D)) (c : Collection κ D) :
    Decidable (Agrees file c) := inferInstanceAs (Decidable (_ = _))

/-- The collection that a step changes. -/
def Step.changes (db : Db κ D) : Step κ D → Option String
  | .insert name _ _ => some name
  | .update name id _ => ((db.collection name).data.get id).map (fun _ => name)
  | .delete name id => ((db.collection name).data.get id).map (fun _ => name)
  | _ => none

/-- No collection is changed while a write of it is in flight. -/
def QuietRun : Db κ D → List (Step κ D) → Prop
  | _, [] => True
  | db, step :: steps =>
    (∀ name, step.changes db = some name → ∀ w ∈ db.writes, w.key ≠ name) ∧
      QuietRun (step.run db) steps

instance decidableQuietRun : ∀ (db : Db κ D) (steps : List (Step κ D)),
    Decidable (QuietRun db steps)
  | _, [] => isTrue trivial
  | db, step :: steps =>
    haveI := decidableQuietRun (step.run db) steps
    haveI : Decidable (∀ name, step.changes db = some name → ∀ w ∈ db.writes, w.key ≠ name) :=
      inferInstanceAs (Decidable (∀ name ∈ step.changes db, ∀ w ∈ db.writes, w.key ≠ name))
    inferInstanceAs (Decidable (_ ∧ _))

/-- **When a shutdown does not lose a collection**: if what is in flight brings its file up to
date; or if it is dirty, and it is the first that is or no write of it is in flight. -/
def Settled (db : Db κ D) (name : String) : Prop :=
  Agrees (land db.file db.writes name) (db.collection name) ∨
    (db.collection name).dirty = true ∧
      ((db.firstDirty db.names 0).map Prod.snd = some name ∨ ∀ w ∈ db.writes, w.key ≠ name)

/-! ## What a step can do

Every step changes documents, or starts a write of the documents as they are, or completes
one; the rest is bookkeeping. -/

/-- The two states differ in names, timers and runs at most. -/
structure SameFiles (db db' : Db κ D) : Prop where
  file : db'.file = db.file
  writes : db'.writes = db.writes
  values : ∀ name, (db'.collection name).values = (db.collection name).values
  dirty : ∀ name, (db'.collection name).dirty = (db.collection name).dirty

variable (db : Db κ D) (name : String)

theorem sameFiles_getCollection : SameFiles db (db.getCollection name) := by
  unfold Db.getCollection
  split <;> exact ⟨rfl, rfl, fun _ => rfl, fun _ => rfl⟩

theorem collection_getCollection : (db.getCollection name).collection = db.collection := by
  unfold Db.getCollection
  split <;> rfl

theorem collection_change (data : Docs κ D) (c : String) : (db.change name data).collection c =
      if c = name then ⟨data, true, true⟩ else db.collection c := by
  show update (db.getCollection name).collection name _ c = _
  rw [collection_getCollection, update_apply]

theorem files_change (data : Docs κ D) :
    (db.change name data).file = db.file ∧ (db.change name data).writes = db.writes :=
  ⟨(sameFiles_getCollection db name).file, (sameFiles_getCollection db name).writes⟩

theorem examine_fst (i : ℕ) :
    (db.examine i).1 = db ∨ ∃ name, (db.examine i).1 = db.startWrite name := by
  unfold Db.examine
  split
  · exact .inl rfl
  · exact .inr ⟨_, rfl⟩

/-- **A rule for invariants** of the files and collections: they are kept by the changes that
the step makes, by starts of writes, by completions, by timers, and by bookkeeping. -/
theorem step_induction {P : Db κ D → Prop} {db : Db κ D} (h : P db) (step : Step κ D)
    (hchange : ∀ name data, step.changes db = some name → P (db.change name data))
    (hget : ∀ name, P (db.getCollection name)) (hstart : ∀ name, P (db.startWrite name))
    (htimer : ∀ name, P (db.timer name)) (hcomplete : P db.complete)
    (hruns : ∀ db runs, P db → P { db with runs := runs }) : P (step.run db) := by
  have hexamine : ∀ i, P (db.examine i).1 := by
    intro i
    rcases examine_fst db i with heq | ⟨name, heq⟩
    · rw [heq]
      exact h
    · rw [heq]
      exact hstart name
  cases step with
  | insert name id doc => exact hchange name _ rfl
  | update name id updates =>
    show P (db.update name id updates)
    rw [Db.update]
    split
    · exact hget name
    · rename_i e he
      exact hchange name _ (Option.map_eq_some_iff.mpr ⟨e, he, rfl⟩)
  | delete name id =>
    show P (db.delete name id)
    rw [Db.delete]
    split
    · exact hget name
    · rename_i e he
      exact hchange name _ (Option.map_eq_some_iff.mpr ⟨e, he, rfl⟩)
  | interval => exact hruns _ _ (hexamine 0)
  | timer name => exact htimer name
  | complete => exact hcomplete
  | advance r =>
    show P (db.advance r)
    rw [Db.advance]
    split
    · split
      · exact hruns _ _ (hexamine _)
      · exact h
    · exact h

/-- What is in flight lands as before when the oldest write completes. -/
theorem land_complete : land db.complete.file db.complete.writes = land db.file db.writes := by
  unfold Db.complete
  split
  · rfl
  · rename_i w writes heq
    rw [heq, land_cons]

theorem values_complete (c : String) :
    (db.complete.collection c).values = (db.collection c).values := by
  unfold Db.complete
  split
  · rfl
  · rename_i w writes heq
    show (update db.collection w.key _ c).values = _
    by_cases hc : c = w.key
    · rw [hc, update_self]
      rfl
    · rw [update_of_ne hc]

/-! ## Every change is written, or has a timer -/

/-- **The invariant.** -/
def Scheduled (db : Db κ D) : Prop :=
  ∀ c, (db.collection c).scheduled = true ∨
    Agrees (land db.file db.writes c) (db.collection c)

theorem agrees_startWrite : Agrees (land (db.startWrite name).file (db.startWrite name).writes name)
      (db.collection name) := by
  show (land db.file (db.writes ++ [⟨name, _⟩]) name).getD [] = _
  rw [land_concat, update_self]
  rfl

theorem land_startWrite_of_ne {name c : String} (hc : c ≠ name) :
    land (db.startWrite name).file (db.startWrite name).writes c = land db.file db.writes c := by
  show land db.file (db.writes ++ [⟨name, _⟩]) c = _
  rw [land_concat, update_of_ne hc]

theorem Scheduled.step {db : Db κ D} (h : Scheduled db) (step : Step κ D) :
    Scheduled (step.run db) := by
  refine step_induction h step ?_ ?_ ?_ ?_ ?_ (fun _ _ h => h)
  · intro name data _ c
    rw [collection_change, (files_change db name data).1, (files_change db name data).2]
    split
    · exact .inl rfl
    · exact h c
  · intro name c
    rw [collection_getCollection, (sameFiles_getCollection db name).file,
      (sameFiles_getCollection db name).writes]
    exact h c
  · intro name c
    by_cases hc : c = name
    · rw [hc]
      exact .inr (agrees_startWrite db name)
    · rw [land_startWrite_of_ne db hc]
      exact h c
  · intro name c
    unfold Db.timer
    split
    · show (update db.collection name _ c).scheduled = true ∨ Agrees (land
        (db.startWrite name).file (db.startWrite name).writes c) (update db.collection name _ c)
      by_cases hc : c = name
      · rw [hc, update_self]
        exact .inr (agrees_startWrite db name)
      · rw [update_of_ne hc, land_startWrite_of_ne db hc]
        exact h c
    · exact h c
  · intro c
    rw [land_complete, Agrees, values_complete]
    have hsched : (db.complete.collection c).scheduled = (db.collection c).scheduled := by
      unfold Db.complete
      split
      · rfl
      · rename_i w writes heq
        show (update db.collection w.key _ c).scheduled = _
        by_cases hc : c = w.key
        · rw [hc, update_self]
        · rw [update_of_ne hc]
    rw [hsched]
    exact h c

/-- A database that is opened has what is in its files. -/
theorem agrees_opened (files : KeyedList (fun c : String × Docs κ D => c.1)) (c : String) :
    Agrees ((Db.opened files).file c) ((Db.opened files).collection c) := by
  show ((files.get c).map _).getD [] = Collection.values (match files.get c with
    | none => _
    | some c => _)
  cases files.get c <;> rfl

theorem Scheduled.run {db : Db κ D} (h : Scheduled db) (steps : List (Step κ D)) :
    Scheduled (runSteps db steps) := by
  induction steps generalizing db with
  | nil => exact h
  | cons step steps ih => exact ih (h.step step)

/-! ## Quiet histories -/

/-- **The invariant** of a quiet history: what is in flight is what the collections have, and
a clean collection agrees with its file. -/
structure Quiet (db : Db κ D) : Prop where
  writes : ∀ w ∈ db.writes, w.value = (db.collection w.key).values
  clean : ∀ c, (db.collection c).dirty = false → Agrees (db.file c) (db.collection c)

theorem quiet_opened (files : KeyedList (fun c : String × Docs κ D => c.1)) :
    Quiet (Db.opened files) where
  writes := nofun
  clean c _ := agrees_opened files c

theorem Quiet.startWrite {db : Db κ D} (h : Quiet db) (name : String) :
    Quiet (db.startWrite name) where
  writes := forall_mem_append.mpr ⟨h.writes, forall_mem_singleton.mpr rfl⟩
  clean := h.clean

theorem Quiet.complete {db : Db κ D} (h : Quiet db) : Quiet db.complete := by
  constructor
  · intro w hw
    rw [values_complete]
    unfold Db.complete at hw
    split at hw
    · exact h.writes w hw
    · rename_i w' writes heq
      exact h.writes w (heq ▸ mem_cons_of_mem _ hw)
  · intro c hc
    rw [Agrees, values_complete]
    unfold Db.complete at hc ⊢
    split
    · rename_i heq
      rw [heq] at hc
      exact h.clean c hc
    · rename_i w writes heq
      rw [heq] at hc
      show (update db.file w.key (some w.value) c).getD [] = _
      by_cases hcw : c = w.key
      · rw [hcw, update_self, h.writes w (heq ▸ mem_cons_self)]
        rfl
      · have hc : (update db.collection w.key _ c).dirty = false := hc
        rw [update_of_ne hcw] at hc ⊢
        exact h.clean c hc

/-- A timer that fires is forgotten, and nothing else of the collection changes. -/
theorem unscheduled_collection (c : String) : (update db.collection name
        { db.collection name with scheduled := false } c).values = (db.collection c).values ∧
      (update db.collection name
        { db.collection name with scheduled := false } c).dirty = (db.collection c).dirty := by
  by_cases hc : c = name
  · rw [hc, update_self]
    exact ⟨rfl, rfl⟩
  · rw [update_of_ne hc]
    exact ⟨rfl, rfl⟩

theorem Quiet.getCollection {db : Db κ D} (h : Quiet db) (name : String) :
    Quiet (db.getCollection name) := by
  refine ⟨fun w hw => ?_, fun c hc => ?_⟩
  · rw [(sameFiles_getCollection db name).writes] at hw
    rw [collection_getCollection]
    exact h.writes w hw
  · rw [collection_getCollection] at hc ⊢
    rw [(sameFiles_getCollection db name).file]
    exact h.clean c hc

theorem Quiet.timer {db : Db κ D} (h : Quiet db) (name : String) : Quiet (db.timer name) := by
  unfold Db.timer
  split
  · have hstart := h.startWrite name
    have hcoll := unscheduled_collection db name
    refine ⟨fun w hw => ?_, fun c hc => ?_⟩
    · show w.value = (update db.collection name _ w.key).values
      rw [(hcoll w.key).1]
      exact hstart.writes w hw
    · have hc : (update db.collection name _ c).dirty = false := hc
      rw [(hcoll c).2] at hc
      show (db.file c).getD [] = (update db.collection name _ c).values
      rw [(hcoll c).1]
      exact h.clean c hc
  · exact h

/-- A quiet step. -/
theorem Quiet.step {db : Db κ D} (h : Quiet db) {step : Step κ D}
    (hquiet : ∀ name, step.changes db = some name → ∀ w ∈ db.writes, w.key ≠ name) :
    Quiet (step.run db) := by
  refine step_induction h step (fun name data hchanges => ?_) h.getCollection h.startWrite h.timer
    h.complete (fun _ _ h => ⟨h.writes, h.clean⟩)
  obtain ⟨hfile, hwrites⟩ := files_change db name data
  refine ⟨fun w hw => ?_, fun c hc => ?_⟩
  · rw [hwrites] at hw
    rw [collection_change, if_neg (hquiet name hchanges w hw)]
    exact h.writes w hw
  · rw [collection_change] at hc ⊢
    rw [hfile]
    split at hc
    · exact nomatch hc
    · rename_i hne
      rw [if_neg hne]
      exact h.clean c hc

theorem Quiet.run {db : Db κ D} (h : Quiet db) {steps : List (Step κ D)}
    (hquiet : QuietRun db steps) : Quiet (runSteps db steps) := by
  induction steps generalizing db with
  | nil => exact h
  | cons step steps ih => exact ih (h.step hquiet.1) hquiet.2

theorem Quiet.settled {db : Db κ D} (h : Quiet db) (name : String) : Settled db name := by
  by_cases hwrite : ∃ w ∈ db.writes, w.key = name
  · refine .inl ?_
    rw [Agrees, land_eq_of_forall (fun w hw hk => hk ▸ h.writes w hw) hwrite]
    rfl
  · have hne : ∀ w ∈ db.writes, w.key ≠ name := fun w hw hk => hwrite ⟨w, hw, hk⟩
    cases hdirty : (db.collection name).dirty with
    | false =>
      refine .inl ?_
      rw [land_of_forall_ne hne]
      exact h.clean name hdirty
    | true => exact .inr ⟨hdirty, .inr hne⟩

end

end ControlPlane.DatabaseFlush
