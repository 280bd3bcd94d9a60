import Revalle.Ipc.StoreMapSerial

/-!
# Counting the entries of a map

`entryCount()` is a shared counter next to the anchors. Locking an anchor
for writing increments it and five ways of letting go of an entry decrement
it, so that it is meant to be the number of anchors that have a key or are
being written.

It is not quite. `freeEntry` decrements the counter whenever it can lock the
anchor, also when there is no entry: `freeChain` skips the slices of an
empty anchor but not the decrement. `Transients::evictIfFound` frees
whatever anchor its key leads to, so evicting a key that is not there takes
one off the counter, and the counter of a new map becomes negative.

This is the only way to miscount. Between operations an anchor that is
marked or has readers also has a key or a writer (`Settled`), which is why
all other decrements are for anchors that count.
-/

namespace Ipc

open Shm Prog Finset

namespace StoreMap

variable {κ : Type}

/-- The anchor has an entry, or will have one. -/
def Live (a : StoreMapAnchor) : Prop := a.empty = false ∨ a.lock.writing = true

instance (a : StoreMapAnchor) : Decidable (Live a) := inferInstanceAs (Decidable (_ ∨ _))

/-- **The number of anchors that are not empty or locked for writing.** -/
def entries (e : Env κ) (s : StoreMap κ) : ℕ :=
  ((Finset.range e.entryLimit).filter fun i => Live (s.anchors i)).card

/-! ## The process -/

namespace Counting

/-- What a process does with a map. -/
inductive Op where
  | openForWriting (key : CacheKey)
  | setKey (fileno : ℕ) (key : CacheKey)
  | set (fileno : ℕ) (entry : StoreEntry)
  /-- Write the slices of an entry: what a writer does with `writeableEntry`
  and `writeableSlice`. -/
  | write (fileno : ℕ) (start : StoreMapSliceId) (slices : ℕ → StoreMapSlice)
  | closeForWriting (fileno : ℕ)
  | abortWriting (fileno : ℕ)
  | forgetWritingEntry (fileno : ℕ)
  | openForReading (key : CacheKey)
  | openOrCreateForReading (key : CacheKey)
  | closeForReading (fileno : ℕ)
  | closeForReadingAndFreeIdle (fileno : ℕ)
  | freeEntry (fileno : ℕ)
  /-- `Transients::evictIfFound`. -/
  | evictIfFound (key : CacheKey)
  | freeEntryByKey (key : CacheKey)
  | purgeOne
  | openForUpdating (entry : StoreEntry) (fileNoHint : ℕ)
  | closeForUpdating (update : StoreMapUpdate)
  | abortUpdating (update : StoreMapUpdate)

end Counting

/-- `Transients::evictIfFound`. -/
def evictIfFound (e : Env κ) (key : CacheKey) : Prog (StoreMap κ) Bool := do
  let index ← fileNoByKey e key
  freeEntry e index

/-- Write the slices of an entry. -/
def writeSlices (fileno : ℕ) (start : StoreMapSliceId) (slices : ℕ → StoreMapSlice) :
    Prog (StoreMap κ) Unit := do
  storeAnchor fileno ({ · with start := start })
  Prog.store fun s => s.withPool { s.pool with slices := slices }

namespace Counting

/-- The locks that an update has are held. -/
def UnderWay (u : StoreMapUpdate) (s : StoreMap κ) : Prop :=
  (s.anchors u.stale.fileNo).lock.updating = true
    ∧ 2 ≤ (s.anchors u.stale.fileNo).lock.readers.toNat
    ∧ (s.anchors u.fresh.fileNo).lock.writing = true
    ∧ (s.anchors u.fresh.fileNo).empty = false

instance (u : StoreMapUpdate) (s : StoreMap κ) : Decidable (UnderWay u s) :=
  inferInstanceAs (Decidable (_ ∧ _))

/-- **What the process may call**: filenos are valid and keys are not zero, only
anchors being written are written to, an entry has a key before its writer
closes it, and an update is closed or aborted when it is under way. -/
def Allowed (e : Env κ) (s : StoreMap κ) : Op → Prop
  | .openForWriting _ | .openForReading _ | .evictIfFound _ | .purgeOne => True
  | .setKey i key => i < e.entryLimit ∧ (s.anchors i).lock.writing = true ∧ key.Nonzero
  | .set i entry => i < e.entryLimit ∧ (s.anchors i).lock.writing = true ∧ entry.key.Nonzero
  | .write i _ _ => i < e.entryLimit ∧ (s.anchors i).lock.writing = true
  | .closeForWriting i => i < e.entryLimit ∧ (s.anchors i).empty = false
  | .abortWriting i | .forgetWritingEntry i | .closeForReading i | .closeForReadingAndFreeIdle i
  | .freeEntry i => i < e.entryLimit
  | .openOrCreateForReading key | .freeEntryByKey key => key.Nonzero
  | .openForUpdating entry _ => entry.key.Nonzero
  | .closeForUpdating u | .abortUpdating u =>
    u.stale.fileNo < e.entryLimit ∧ u.fresh.fileNo < e.entryLimit ∧ UnderWay u s

instance (e : Env κ) (s : StoreMap κ) (op : Op) : Decidable (Allowed e s op) := by
  cases op <;> unfold Allowed <;> infer_instance

/-- What a call does. -/
def body (e : Env κ) : Op → Prog (StoreMap κ) Unit
  | .openForWriting key => discard (StoreMap.openForWriting e key)
  | .setKey i key => StoreMap.setKey i key
  | .set i entry => StoreMap.set i entry
  | .write i start slices => writeSlices i start slices
  | .closeForWriting i => StoreMap.closeForWriting e i
  | .abortWriting i => StoreMap.abortWriting e i
  | .forgetWritingEntry i => StoreMap.forgetWritingEntry e i
  | .openForReading key => discard (StoreMap.openForReading e key)
  | .openOrCreateForReading key => discard (StoreMap.openOrCreateForReading e key)
  | .closeForReading i => StoreMap.closeForReading e i
  | .closeForReadingAndFreeIdle i => StoreMap.closeForReadingAndFreeIdle e i
  | .freeEntry i => discard (StoreMap.freeEntry e i)
  | .evictIfFound key => discard (StoreMap.evictIfFound e key)
  | .freeEntryByKey key => StoreMap.freeEntryByKey e key
  | .purgeOne => discard (StoreMap.purgeOne e)
  | .openForUpdating entry hint => discard (StoreMap.openForUpdating e entry hint)
  | .closeForUpdating u => discard (StoreMap.closeForUpdating e u)
  | .abortUpdating u => StoreMap.abortUpdating e u

/-- **One process using a map**, which is new at the start. -/
def system (e : Env κ) (k : κ) : System (StoreMap κ) Unit Unit Op where
  init := .new k
  start _ := ()
  call _ op s _ := if Allowed e s op then some ((), body e op) else none

end Counting

/-! ## One anchor at a time -/

/-- What holds of every anchor between operations. -/
structure Settled (a : StoreMapAnchor) : Prop where
  quiet : a.lock.Quiet
  appending : a.lock.appending = false
  reading : a.lock.readers ≠ 0 → a.empty = false
  marked : a.waitingToBeFreed = true → a.lock.writing = false → a.empty = false

/-- **What holds between operations.** -/
structure Counted (e : Env κ) (s : StoreMap κ) : Prop where
  settled : ∀ i < e.entryLimit, Settled (s.anchors i)
  names : ∀ n < e.entryLimit, s.lookup n < e.entryLimit
  count : s.count = entries e s

/-- Changing an anchor. -/
theorem entries_setAnchor {e : Env κ} {s : StoreMap κ} {i : ℕ} (hi : i < e.entryLimit)
    (a : StoreMapAnchor) : (entries e (s.setAnchor i a) : ℤ)
      = entries e s + (if Live a then 1 else 0) - if Live (s.anchors i) then 1 else 0 := by
  have hcard : ∀ t : StoreMap κ, (entries e t : ℤ) = (if Live (t.anchors i) then 1 else 0)
        + (((range e.entryLimit).erase i).filter fun j => Live (t.anchors j)).card := by
    intro t
    unfold entries
    rw [← insert_erase (mem_range.mpr hi), filter_insert]
    split
    · simp [add_comm]
    · simp
  have hrest : (((range e.entryLimit).erase i).filter fun j =>
      Live ((s.setAnchor i a).anchors j)) = ((range e.entryLimit).erase i).filter fun j =>
      Live (s.anchors j) := by
    refine filter_congr fun j hj => ?_
    rw [setAnchor_of_ne (ne_of_mem_erase hj)]
  rw [hcard (s.setAnchor i a), hcard s, hrest, setAnchor_self]
  omega

section

variable {e : Env κ} {s : StoreMap κ} {i : ℕ} {a : StoreMapAnchor}

/-- A new map has no entries. -/
theorem Counted.new (k : κ) : Counted e (.new k) where
  settled _ _ := ⟨.new, rfl, fun h => absurd rfl h, nofun⟩
  names _ hn := hn
  count := by
    have hdead : ¬ Live StoreMapAnchor.new := by decide
    simp [entries, hdead, StoreMap.new]

namespace Counted

variable (h : Counted e s)
include h

theorem withPool (p : SlicePool κ) : Counted e (s.withPool p) :=
  ⟨h.settled, h.names, h.count⟩

theorem withVictim (v : UInt32) : Counted e (s.withVictim v) :=
  ⟨h.settled, h.names, h.count⟩

theorem setFileNo {m f : ℕ} (hf : f < e.entryLimit) : Counted e (s.setFileNo m f) where
  settled := h.settled
  names n hn := by
    rw [lookup_setFileNo]
    split
    · exact hf
    · exact h.names n hn
  count := h.count

variable (hi : i < e.entryLimit)
include hi

/-- **Replacing an anchor and counting what that changes.** -/
theorem setAnchor (ha : Settled a) {n : ℤ}
    (hn : n = (if Live a then 1 else 0) - if Live (s.anchors i) then 1 else 0) :
    Counted e ((s.setAnchor i a).addCount n) where
  settled j hj := by
    by_cases hji : j = i
    · rw [hji, anchors_addCount, setAnchor_self]
      exact ha
    · rw [anchors_addCount, setAnchor_of_ne hji]
      exact h.settled j hj
  names := h.names
  count := by
    show s.count + n = entries e (s.setAnchor i a)
    rw [entries_setAnchor hi, h.count, hn]
    omega

/-- Replacing an anchor that stays what it is. -/
theorem setAnchor_of_live (ha : Settled a) (hlive : Live a) (hold : Live (s.anchors i)) :
    Counted e (s.setAnchor i a) := by
  have := h.setAnchor hi ha (n := 0) (by rw [if_pos hlive, if_pos hold]; rfl)
  rwa [addCount_zero] at this

/-- Changing the lock of an entry. -/
theorem setLock {l : ReadWriteLock} (hl : l.Quiet) (happ : l.appending = false)
    (hne : (s.anchors i).empty = false) : Counted e (s.setLock i l) :=
  h.setAnchor_of_live hi ⟨hl, happ, fun _ => hne, fun _ _ => hne⟩ (.inl hne) (.inl hne)

/-- Letting go of an entry. -/
theorem freed {l : ReadWriteLock} (hlive : Live (s.anchors i)) (hl : l.Quiet)
    (happ : l.appending = false) (hf : l.Free) (p : SlicePool κ) :
    Counted e ((s.setLock i l).freed i p) := by
  unfold StoreMap.freed
  rw [setLock_self, setAnchor_setLock]
  have hdead : ¬ Live ((s.anchors i).withLock l).rewound := by
    rintro (h | h)
    · exact nomatch h
    · exact absurd (hf.1.symm.trans h) (by decide)
  have hsettled : Settled ((s.anchors i).withLock l).rewound :=
    ⟨hl, happ, fun h => absurd hf.2 h, nofun⟩
  refine (h.setAnchor hi hsettled ?_).withPool p
  rw [if_neg hdead, if_pos hlive]
  rfl

/-- Letting go of an entry that nobody uses. -/
theorem freed_of_free (hne : (s.anchors i).empty = false) (hf : (s.anchors i).lock.Free)
    (p : SlicePool κ) : Counted e (s.freed i p) := by
  have := h.freed hi (.inl hne) (h.settled i hi).quiet (h.settled i hi).appending hf p
  rwa [setLock_eq_self] at this

theorem marked (hlive : Live (s.anchors i)) : Counted e (s.marked i) := by
  have ha := h.settled i hi
  refine h.setAnchor_of_live hi ⟨ha.quiet, ha.appending, ha.reading, fun _ hw => ?_⟩ hlive hlive
  exact hlive.resolve_right fun h => absurd (hw.symm.trans h) (by decide)

/-- Locking an anchor for writing, which is emptied if it is in use. -/
theorem opens (hf : (s.anchors i).lock.Free) : Opens e i (Counted e) s := by
  have ha := h.settled i hi
  refine ⟨fun hused => frees_of_forall fun p => ?_, fun hwt hempty => ?_⟩
  · have hne : (s.anchors i).empty = false := hused.elim (ha.marked · hf.1) id
    have hsettled : Settled ((s.anchors i).rewound.withLock (s.anchors i).lock.grabbed).unstarted :=
      ⟨ha.quiet.grabbed hf, ha.appending, fun h => absurd hf.2 h, nofun⟩
    exact (h.setAnchor_of_live hi hsettled (.inr rfl) (.inl hne)).withPool p
  · have hdead : ¬ Live (s.anchors i) := by
      rintro (h | h)
      · exact absurd (hempty.symm.trans h) (by decide)
      · exact absurd (hf.1.symm.trans h) (by decide)
    have hsettled : Settled ((s.anchors i).withLock (s.anchors i).lock.grabbed).unstarted :=
      ⟨ha.quiet.grabbed hf, ha.appending, fun h => absurd hf.2 h,
        fun h => absurd (hwt.symm.trans h) (by decide)⟩
    refine h.setAnchor hi hsettled ?_
    rw [if_pos (.inr rfl), if_neg hdead]
    rfl

/-- Giving an anchor that is being written a key. -/
theorem rekeyed (hw : (s.anchors i).lock.writing = true) {key : CacheKey} (hkey : key.Nonzero)
    (marked : Bool) (basics : Basics) : Counted e (s.setAnchor i
      { s.anchors i with key := key, waitingToBeFreed := marked, basics := basics }) := by
  have ha := h.settled i hi
  have hne := StoreMapAnchor.empty_eq_false
    (a := { s.anchors i with key := key, waitingToBeFreed := marked, basics := basics }) hkey
  exact h.setAnchor_of_live hi ⟨ha.quiet, ha.appending, fun _ => hne, fun _ _ => hne⟩
    (.inl hne) (.inr hw)

end Counted

/-! ## One operation at a time -/

variable (h : Counted e s)
include h

/-- `freeEntry` counts right when there is an entry, or somebody uses the
anchor. -/
theorem freeEntry_counted (hi : i < e.entryLimit)
    (hused : (s.anchors i).lock.Free → (s.anchors i).empty = false) :
    (freeEntry e i).wlp True (fun _ => Counted e) s := by
  refine (wlp_freeEntry hi (h.settled i hi).quiet).mpr
    ⟨fun hf => frees_of_forall fun p => h.freed_of_free hi (hused hf) hf p, fun hnf => ?_⟩
  refine h.marked hi ?_
  -- an anchor that is not free is being written or has readers
  by_cases hw : (s.anchors i).lock.writing = true
  · exact .inr hw
  · exact .inl ((h.settled i hi).reading fun hr => hnf ⟨Bool.eq_false_of_not_eq_true hw, hr⟩)

variable {key : CacheKey} {u : StoreMapUpdate}

theorem freeEntryByKey_counted (hkey : key.Nonzero)
    (hi : s.lookup (nameByKey e key) < e.entryLimit) :
    (freeEntryByKey e key).wlp True (fun _ => Counted e) s := by
  have hne : (s.anchors (s.lookup (nameByKey e key))).sameKey key = true →
      (s.anchors (s.lookup (nameByKey e key))).empty = false := by
    intro hsame
    have := of_decide_eq_true hsame
    refine StoreMapAnchor.empty_eq_false ?_
    unfold CacheKey.Nonzero
    rw [← this.1, ← this.2]
    exact hkey
  refine wlp_freeEntryByKey rfl hi (h.settled _ hi).quiet (fun _ => h)
    (fun hf hsame => ?_) fun _ hsame => ?_
  · exact frees_of_forall fun p => h.freed_of_free hi (hne hsame) hf p
  · exact h.marked hi (.inl (hne hsame))

section

variable (hi : i < e.entryLimit)
include hi

theorem openForWritingAt_counted {overwrite : Bool} :
    (openForWritingAt e i overwrite).wlp True (fun _ => Counted e) s :=
  wlp_openForWritingAt hi (h.settled i hi).quiet (fun _ => h) (h.opens hi)

theorem abortWriting_counted : (abortWriting e i).wlp True (fun _ => Counted e) s := by
  have ha := h.settled i hi
  refine wlp_abortWriting hi ha.quiet (fun hw hr => ?_) fun hw hr => ?_
  · exact frees_of_forall fun p => h.freed hi (.inr hw) ha.quiet.released rfl ⟨rfl, hr⟩ p
  · exact absurd (ha.quiet.readers_eq_zero hw ha.appending) hr

theorem forgetWritingEntry_counted : (forgetWritingEntry e i).wlp True (fun _ => Counted e) s := by
  have ha := h.settled i hi
  refine wlp_forgetWritingEntry hi ha.quiet fun hw => ?_
  exact h.freed hi (.inr hw) ha.quiet.released rfl
    ⟨rfl, ha.quiet.readers_eq_zero hw ha.appending⟩ s.pool

theorem openForReadingAt_counted : (openForReadingAt e i key).wlp True (fun _ => Counted e) s := by
  have ha := h.settled i hi
  exact wlp_openForReadingAt hi ha.quiet
    (fun hl hempty _ _ => h.setLock hi (ha.quiet.joined hl) ha.appending hempty) h

theorem closeForReading_counted : (closeForReading e i).wlp True (fun _ => Counted e) s := by
  have ha := h.settled i hi
  exact wlp_closeForReading hi fun hr =>
    h.setLock hi (ha.quiet.left hr) ha.appending (ha.reading hr)

theorem closeForReadingAndFreeIdle_counted :
    (closeForReadingAndFreeIdle e i).wlp True (fun _ => Counted e) s := by
  have ha := h.settled i hi
  refine wlp_closeForReadingAndFreeIdle hi ha.quiet (fun hr hf => ?_)
    fun hr _ => h.setLock hi (ha.quiet.left hr) ha.appending (ha.reading hr)
  exact frees_of_forall fun p =>
    h.freed hi (.inl (ha.reading hr)) (ha.quiet.left hr) ha.appending hf p

end

theorem openOrCreateForReading_counted (hkey : key.Nonzero)
    (hi : s.lookup (nameByKey e key) < e.entryLimit) :
    (openOrCreateForReading e key).wlp True (fun _ => Counted e) s := by
  have ha := h.settled _ hi
  refine wlp_openOrCreateForReading rfl hi ha.quiet
    (fun hl hempty _ _ => h.setLock hi (ha.quiet.joined hl) ha.appending hempty)
    (fun hf => (h.opens hi hf).mono fun s' hlock _ h' m => ?_) h
  have ha' := h'.settled _ hi
  have hne := StoreMapAnchor.empty_eq_false (a := { s'.anchors (s.lookup (nameByKey e key)) with
    lock := (s'.anchors (s.lookup (nameByKey e key))).lock.released.joined
    key := key, waitingToBeFreed := m }) hkey
  exact h'.setAnchor_of_live hi ⟨ha'.quiet.released.joined (.inl rfl), rfl, fun _ => hne,
    fun _ _ => hne⟩ (.inl hne) (.inr (by rw [hlock]; rfl))

theorem purgeOne_counted : (purgeOne e).wlp True (fun _ => Counted e) s :=
  wlp_purgeOne (fun i hi => (h.settled i hi).quiet) h.names h.withVictim fun v _ hi hf hempty _ =>
    frees_of_forall fun p => (h.withVictim v).freed_of_free hi hempty hf p

theorem openStale_counted {entry : StoreEntry} {name : ℕ} (hkey : entry.key.Nonzero)
    (hi : i < e.entryLimit) : (openStale e name i entry).wlp True (fun _ => Counted e) s := by
  have ha := h.settled i hi
  refine wlp_openStale hi ha.quiet h fun hw hu hempty _ _ => ?_
  have h' : Counted e (s.headersLocked i) :=
    h.setLock hi (ha.quiet.updated hw) ha.appending hempty
  refine wlp_openFresh hi (fun j hj => (h'.settled j hj).quiet) h'.names (fun v => ?_)
    fun v n hn hf => ((h'.withVictim v).opens (h'.names n hn) hf).mono fun s' hlock _ hs' m => ?_
  · rw [outdated_headersLocked hu]
    exact h.withVictim v
  · exact hs'.rekeyed (h'.names n hn) (by rw [hlock]; rfl) hkey m entry.basics

theorem openForUpdating_counted {entry : StoreEntry} {hint : ℕ}
    (hkey : entry.key.Nonzero) (hlim : 0 < e.entryLimit) :
    (openForUpdating e entry hint).wlp True (fun _ => Counted e) s := by
  unfold openForUpdating
  by_cases hh : hint < e.entryLimit
  · rw [if_pos hh]
    exact openStale_counted h hkey hh
  · rw [if_neg hh, wlp_bind, fileNoByName, wlp_load]
    exact openStale_counted h hkey (h.names _ (Nat.mod_lt _ hlim))

section

variable (hi : u.stale.fileNo < e.entryLimit) (hj : u.fresh.fileNo < e.entryLimit)
include hi hj

/-- An update keeps the number of its two anchors that count. -/
theorem swapped_counted {x : ℕ} (hne : u.stale.fileNo ≠ u.fresh.fileNo)
    (hr : 2 ≤ (s.anchors u.stale.fileNo).lock.readers.toNat)
    (hempty : (s.anchors u.fresh.fileNo).empty = false) : Counted e (s.swapped u x) := by
  have ha := h.settled _ hi
  have hb := h.settled _ hj
  have hstale : (s.anchors u.stale.fileNo).empty = false :=
    ha.reading (ReadWriteLock.readers_ne_zero hr)
  refine Counted.setFileNo (Counted.setFileNo ?_ hj) hi
  refine Counted.setAnchor_of_live (h.setAnchor_of_live hj ?_ (.inl hempty) (.inl hempty)) hi ?_
    (.inl hstale) (.inl ?_)
  · exact ⟨hb.quiet.released, rfl, fun _ => hempty, fun _ _ => hempty⟩
  · exact ⟨ha.quiet.outdated hr, ha.appending, fun _ => hstale, fun _ _ => hstale⟩
  · rw [setAnchor_of_ne hne]
    exact hstale

theorem closeForUpdating_counted (hu : Counting.UnderWay u s) :
    (closeForUpdating e u).wlp True (fun _ => Counted e) s := by
  obtain ⟨-, hr, hw, hempty⟩ := hu
  have ha := h.settled _ hi
  have hb := h.settled _ hj
  have hr0 := hb.quiet.readers_eq_zero hw hb.appending
  refine wlp_closeForUpdating hi hj ha.quiet hb.quiet hr hw hr0 h fun x y _ _ _ _ _ _ _ _ _ => ?_
  refine swapped_counted (h.withPool _) hi hj (fun hne => ?_) hr hempty
  rw [hne] at hr
  exact ReadWriteLock.readers_ne_zero hr hr0

theorem abortUpdating_counted (hu : Counting.UnderWay u s) :
    (abortUpdating e u).wlp True (fun _ => Counted e) s := by
  obtain ⟨-, hr, hw, hempty⟩ := hu
  have ha := h.settled _ hi
  refine wlp_abortUpdating hi (abortWriting_counted ?_ hj)
  exact h.setLock hi (ha.quiet.outdated hr) ha.appending
    (ha.reading (ReadWriteLock.readers_ne_zero hr))

end

end

/-! ## Whole runs -/

namespace Counting

/-- **The condition**: `freeEntry`, also on behalf of `evictIfFound`, is called
only for anchors that are not both empty and unlocked. -/
def FreesUsed (e : Env κ) (_ : Unit) (op : Op) (s : StoreMap κ) (_ : Unit → Unit) : Prop :=
  match op with
  | .freeEntry i => ¬ ((s.anchors i).lock.Free ∧ (s.anchors i).empty = true)
  | .evictIfFound key =>
    ¬ ((s.anchors (s.lookup (nameByKey e key))).lock.Free
      ∧ (s.anchors (s.lookup (nameByKey e key))).empty = true)
  | _ => True

variable {s : StoreMap κ} {e : Env κ}

/-- Every call that meets the condition counts right. -/
theorem body_counted (hlim : 0 < e.entryLimit) {op : Op} (h : Counted e s)
    (hop : Allowed e s op) (hG : FreesUsed e () op s fun _ => ()) :
    (body e op).wlp True (fun _ => Counted e) s := by
  have hname : ∀ key, s.lookup (nameByKey e key) < e.entryLimit := fun key =>
    h.names _ (Nat.mod_lt _ hlim)
  have hused : ∀ i, ¬ ((s.anchors i).lock.Free ∧ (s.anchors i).empty = true) →
      (s.anchors i).lock.Free → (s.anchors i).empty = false := fun i hn hf =>
    Bool.eq_false_of_not_eq_true fun hempty => hn ⟨hf, hempty⟩
  cases op with
  | openForWriting key =>
    refine (wlp_discard _).mpr ?_
    unfold openForWriting
    rw [wlp_bind, fileNoByKey, fileNoByName, wlp_load, wlp_bind]
    refine wlp_mono (openForWritingAt_counted h (hname key)) fun r s' h' => ?_
    cases r <;> exact h'
  | setKey i key =>
    exact wlp_setKey fun m => h.rekeyed hop.1 hop.2.1 hop.2.2 m (s.anchors i).basics
  | set i entry =>
    exact wlp_set fun m => h.rekeyed hop.1 hop.2.1 hop.2.2 m entry.basics
  | write i start slices =>
    have ha := h.settled i hop.1
    have hsettled : Settled { s.anchors i with start := start } :=
      ⟨ha.quiet, ha.appending, ha.reading, ha.marked⟩
    exact (h.setAnchor_of_live hop.1 hsettled (.inr hop.2) (.inr hop.2)).withPool _
  | closeForWriting i =>
    have hquiet := (h.settled i hop.1).quiet
    exact wlp_closeForWriting hop.1 hquiet fun _ => h.setLock hop.1 hquiet.released rfl hop.2
  | abortWriting i => exact abortWriting_counted h hop
  | forgetWritingEntry i => exact forgetWritingEntry_counted h hop
  | openForReading key =>
    refine (wlp_discard _).mpr ?_
    unfold openForReading
    rw [wlp_bind, fileNoByKey, fileNoByName, wlp_load, wlp_bind]
    refine wlp_mono (openForReadingAt_counted h (hname key)) fun r s' h' => ?_
    cases r <;> exact h'
  | openOrCreateForReading key =>
    exact (wlp_discard _).mpr (openOrCreateForReading_counted h hop (hname key))
  | closeForReading i => exact closeForReading_counted h hop
  | closeForReadingAndFreeIdle i => exact closeForReadingAndFreeIdle_counted h hop
  | freeEntry i => exact (wlp_discard _).mpr (freeEntry_counted h hop (hused i hG))
  | evictIfFound key =>
    refine (wlp_discard _).mpr ?_
    exact freeEntry_counted h (hname key) (hused _ hG)
  | freeEntryByKey key => exact freeEntryByKey_counted h hop (hname key)
  | purgeOne => exact (wlp_discard _).mpr (purgeOne_counted h)
  | openForUpdating entry hint =>
    exact (wlp_discard _).mpr (openForUpdating_counted h hop hlim)
  | closeForUpdating u =>
    exact (wlp_discard _).mpr (closeForUpdating_counted h hop.1 hop.2.1 hop.2.2)
  | abortUpdating u => exact abortUpdating_counted h hop.1 hop.2.1 hop.2.2

/-- What holds after every run that meets the condition. -/
theorem counted_of_serial (hlim : 0 < e.entryLimit) {k : κ} {hs : Unit → Unit}
    (h : (system e k).SerialIn (FreesUsed e) s hs) : Counted e s := by
  refine System.SerialIn.invariant (I := fun s _ => Counted e s) (Counted.new k) ?_ h
  intro p op s hs h' x hI hG hc
  by_cases hop : Allowed e s op
  · obtain rfl : body e op = x := by
      have := (if_pos hop).symm.trans hc
      exact congrArg Prod.snd (Option.some.inj this)
    exact body_counted hlim hI hop hG
  · exact absurd ((if_neg hop).symm.trans hc) (by simp)

/-- Freeing an entry that does not exist is counted nevertheless. -/
theorem freeEntry_miscounts {i : ℕ} (h : Counted e s) (hi : i < e.entryLimit)
    (hf : (s.anchors i).lock.Free) (hempty : (s.anchors i).empty = true) :
    (StoreMap.freeEntry e i).wlp True (fun _ s' => s'.count = entries e s' - 1) s := by
  refine (wlp_freeEntry hi (h.settled i hi).quiet).mpr
    ⟨fun _ => frees_of_forall fun p => ?_, fun hnf => absurd hf hnf⟩
  have hdead : ¬ Live (s.anchors i) := by
    rintro (h | h)
    · exact absurd (hempty.symm.trans h) (by decide)
    · exact absurd (hf.1.symm.trans h) (by decide)
  have hdead' : ¬ Live (s.anchors i).rewound := by
    rintro (h | h)
    · exact nomatch h
    · exact absurd (hf.1.symm.trans h) (by decide)
  show s.count + -1 = (entries e (s.setAnchor i (s.anchors i).rewound) : ℤ) - 1
  rw [entries_setAnchor hi, if_neg hdead, if_neg hdead', h.count]
  omega

/-- **The counter is the number of entries** after every run that never frees
an empty, unlocked anchor – and every such call miscounts. -/
theorem count_eq_entries {n : ℕ} (hn : 0 < n) {c : ℕ → Prog κ Unit} {k : κ} {s : StoreMap κ}
    {hs : Unit → Unit} (h : (system (.plain n c) k).SerialIn (FreesUsed (.plain n c)) s hs) :
    (s.count = entries (.plain n c) s ∧ 0 ≤ s.count ∧ s.count ≤ (Env.plain n c).entryLimit)
      ∧ ∀ i < (Env.plain n c).entryLimit, (s.anchors i).lock.Free → (s.anchors i).empty = true →
        ∀ r s', (StoreMap.freeEntry (.plain n c) i).Runs s r s' →
          s'.count ≠ entries (.plain n c) s' := by
  have hcounted := counted_of_serial (Env.entryLimit_pos hn) h
  refine ⟨⟨hcounted.count, ?_, ?_⟩, fun i hi hf hempty r s' hrun heq => ?_⟩
  · rw [hcounted.count]
    exact Int.natCast_nonneg _
  · rw [hcounted.count]
    have : entries (Env.plain n c) s ≤ (Finset.range (Env.plain n c).entryLimit).card :=
      Finset.card_filter_le _ _
    rw [Finset.card_range] at this
    exact_mod_cast this
  · have := hrun.of_wlp (freeEntry_miscounts hcounted hi hf hempty)
    omega

/-- A process that has written an entry, freed it and written another. -/
theorem count_eq_entries_again :
    ∃ s hs, (system (.plain 1 fun _ => .ret ()) ()).SerialIn
      (FreesUsed (.plain 1 fun _ => .ret ())) s hs
      ∧ s.count = 1 ∧ s.count = entries (.plain 1 fun _ => .ret ()) s := by
  let h := (((System.SerialIn.init (S := system (.plain 1 fun _ => .ret ()) ())
    (G := FreesUsed (.plain 1 fun _ => .ret ()))).exec () (.openForWriting ⟨1, 0⟩) []
      trivial rfl rfl).exec () (.setKey 0 ⟨1, 0⟩) [0] trivial rfl rfl).exec () (.closeForWriting 0)
      [] trivial rfl rfl
  let h' := (((h.exec () (.freeEntry 0) [1] (fun hempty => absurd hempty.2 (by decide)) rfl
    rfl).exec () (.openForWriting ⟨2, 0⟩) [] trivial rfl rfl).exec () (.setKey 0 ⟨2, 0⟩) [0]
      trivial rfl rfl).exec () (.closeForWriting 0) [] trivial rfl rfl
  exact ⟨_, _, h', rfl, (count_eq_entries (by decide) h').1.1⟩

/-- **A new map after the eviction of any key has `-1` entries.** -/
theorem count_ne_entries_of_evictIfFound :
    ∃ s hs, (system (.plain 1 fun _ => .ret ()) ()).Serial s hs
      ∧ s.count = -1 ∧ entries (.plain 1 fun _ => .ret ()) s = 0 := by
  let h := (System.SerialIn.init (S := system (.plain 1 fun _ => .ret ()) ())
    (G := fun _ _ _ _ => True)).exec () (.evictIfFound ⟨1, 0⟩) [] trivial rfl rfl
  exact ⟨_, _, h, rfl, rfl⟩

end Counting

end StoreMap

end Ipc
