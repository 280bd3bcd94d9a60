import Revalle.Ipc.ReadWriteLock

/-!
# The shared index of a cache

`Ipc::StoreMap` is an index of cache entries in shared memory, used by the
shared memory cache, by Rock cache directories and by the table of
transactions under way. It has three arrays. A *name* is the hash of a key;
`fileNos` maps names to *filenos*; an *anchor* describes the entry at a
fileno and is the only thing that is locked; and the content of an entry is
a chain of *slices* that starts at its anchor.

An update of the headers of an entry gives it a new anchor. The *stale*
anchor stays where it is, for its readers, and the *fresh* one – an anchor
taken from a victim – gets a new chain prefix that is spliced with the rest
of the stale chain. Then `fileNos` is changed so that the name of the entry
leads to the fresh anchor and the name of the victim to the stale one.

A negative slice identifier ends a chain; it is `none` here. Keys and other
plain fields of an anchor are read and written in one access: only holders
of a lock touch them. Hits are not validated, as is the default.
-/

namespace Ipc

open Shm

/-- The largest fileno. -/
def SwapFilenMax : ℕ := 0xFFFFFF

/-! ## What is in the memory -/

/-- `cache_key`, read as two words. -/
structure CacheKey where
  /-- The first eight bytes. -/
  k0 : UInt64
  /-- The other eight bytes. -/
  k1 : UInt64
deriving DecidableEq, Repr

/-- The identifier of a slice, if there is one. -/
abbrev StoreMapSliceId := Option ℕ

/-- A piece of an entry. -/
structure StoreMapSlice where
  /-- The size of the content. -/
  size : UInt32
  /-- The next piece. -/
  next : StoreMapSliceId
deriving DecidableEq, Repr

/-- What `StoreMapAnchor::set` reads of a store entry. -/
structure StoreEntry where
  key : CacheKey
  timestamp : ℤ
  lastref : ℤ
  expires : ℤ
  lastModified : ℤ
  swap_file_sz : UInt64
  refcount : UInt16
  flags : UInt16
deriving DecidableEq, Repr

/-- `StoreMapAnchor::Basics`. -/
structure Basics where
  timestamp : ℤ
  lastref : ℤ
  expires : ℤ
  lastmod : ℤ
  swap_file_sz : UInt64
  refcount : UInt16
  flags : UInt16
deriving DecidableEq, Repr

/-- `Basics::clear`. -/
def Basics.cleared : Basics := ⟨0, 0, 0, 0, 0, 0, 0⟩

/-- What is known of an entry as a whole. -/
structure StoreMapAnchor where
  /-- Protects the rest. -/
  lock : ReadWriteLock
  /-- The entry is to be freed when nobody uses it. -/
  waitingToBeFreed : Bool
  /-- The writer of an entry with readers has given up. -/
  writerHalted : Bool
  key : CacheKey
  basics : Basics
  /-- Where the chain of slices begins. -/
  start : StoreMapSliceId
  /-- Where the chain prefix that was replaced by an update ends. -/
  splicingPoint : StoreMapSliceId
deriving DecidableEq, Repr

namespace StoreMapAnchor

/-- The constructor. -/
def new : StoreMapAnchor :=
  ⟨.new, false, false, ⟨0, 0⟩, .cleared, some 0, none⟩

/-- The same anchor with another lock state. -/
def withLock (l : ReadWriteLock) (a : StoreMapAnchor) : StoreMapAnchor := { a with lock := l }

/-- Whether there is no key. -/
def empty (a : StoreMapAnchor) : Bool := a.key.k0 = 0 ∧ a.key.k1 = 0

/-- Whether the anchor has the given key. -/
def sameKey (a : StoreMapAnchor) (aKey : CacheKey) : Bool := aKey.k0 = a.key.k0 ∧ aKey.k1 = a.key.k1

end StoreMapAnchor

/-- The slices, and the state `κ` of the cleaner that is told when one is
freed. -/
structure SlicePool (κ : Type) where
  slices : ℕ → StoreMapSlice
  cleaner : κ

/-- **The memory of a map.** -/
structure StoreMap (κ : Type) where
  /-- `0` for a name that is its fileno, or one more than the fileno. -/
  fileNos : ℕ → ℕ
  anchors : ℕ → StoreMapAnchor
  /-- Current number of entries. -/
  count : ℤ
  /-- Where to search for a victim. -/
  victim : UInt32
  pool : SlicePool κ

/-- One of the two anchors of an update. -/
structure Edition where
  fileNo : ℕ
  name : ℕ
  /-- The last slice that still has headers. -/
  splicingPoint : StoreMapSliceId
deriving DecidableEq, Repr

/-- An update under way. -/
structure StoreMapUpdate where
  stale : Edition
  fresh : Edition
deriving DecidableEq, Repr

namespace StoreMap

variable {κ : Type} {β : Type}

/-- **What a process knows of a map**: its size and its cleaner. -/
structure Env (κ : Type) where
  /-- The number of slices. -/
  sliceLimit : ℕ
  /-- `StoreMapCleaner::noteFreeMapSlice`. -/
  noteFreeMapSlice : ℕ → Prog κ Unit

/-- The maximum number of entries. -/
def Env.entryLimit (e : Env κ) : ℕ := min e.sliceLimit (SwapFilenMax + 1)

/-- The memory of a new map. -/
def new (k : κ) : StoreMap κ :=
  ⟨fun _ => 0, fun _ => .new, 0, 0, ⟨fun _ => ⟨0, none⟩, k⟩⟩

/-- The same memory with other slices. -/
def withPool (p : SlicePool κ) (s : StoreMap κ) : StoreMap κ := { s with pool := p }

/-- The same memory with another place to search for victims. -/
def withVictim (v : UInt32) (s : StoreMap κ) : StoreMap κ := { s with victim := v }

/-- The fileno that a name leads to. -/
def lookup (name : ℕ) (s : StoreMap κ) : ℕ :=
  if s.fileNos name = 0 then name else s.fileNos name - 1

/-- Let a name lead to a fileno. -/
def setFileNo (name fileno : ℕ) (s : StoreMap κ) : StoreMap κ :=
  { s with fileNos := Function.update s.fileNos name (fileno + 1) }

/-- Change the number of entries. -/
def addCount (n : ℤ) (s : StoreMap κ) : StoreMap κ := { s with count := s.count + n }

/-- Replace an anchor. -/
def setAnchor (fileno : ℕ) (a : StoreMapAnchor) (s : StoreMap κ) : StoreMap κ :=
  { s with anchors := Function.update s.anchors fileno a }

/-- Change an anchor. -/
def modifyAnchor (fileno : ℕ) (f : StoreMapAnchor → StoreMapAnchor) (s : StoreMap κ) : StoreMap κ :=
  s.setAnchor fileno (f (s.anchors fileno))

/-- Replace the lock of an anchor. -/
def setLock (fileno : ℕ) (l : ReadWriteLock) (s : StoreMap κ) : StoreMap κ :=
  s.setAnchor fileno ((s.anchors fileno).withLock l)

/-- Change a slice. -/
def modifySlice (sliceId : ℕ) (f : StoreMapSlice → StoreMapSlice) (p : SlicePool κ) : SlicePool κ :=
  { p with slices := Function.update p.slices sliceId (f (p.slices sliceId)) }

/-! ## Accesses -/

/-- Read something off an anchor. -/
def loadAnchor (fileno : ℕ) (f : StoreMapAnchor → β) : Prog (StoreMap κ) β :=
  Prog.load fun s => f (s.anchors fileno)

/-- Write to an anchor. -/
def storeAnchor (fileno : ℕ) (f : StoreMapAnchor → StoreMapAnchor) : Prog (StoreMap κ) Unit :=
  Prog.store (modifyAnchor fileno f)

/-- An operation of the lock of an anchor. -/
def lockOf (fileno : ℕ) (x : Prog ReadWriteLock β) : Prog (StoreMap κ) β :=
  x.zoom (fun s => (s.anchors fileno).lock) (setLock fileno)

/-- A program over the slices. -/
def onPool (x : Prog (SlicePool κ) β) : Prog (StoreMap κ) β :=
  x.zoom (·.pool) withPool

/-- `Ipc::AssertFlagIsSet`, for the flag of headers updates. -/
def AssertFlagIsSet : Prog ReadWriteLock Unit := do
  let was ← Prog.rmw (fun l => { l with updating := true }) (·.updating)
  Prog.assert (was = true)

/-- `StoreMapAnchor::rewind`: undo the effects of `set`, but keep the lock. -/
def rewind (fileno : ℕ) : Prog (StoreMap κ) Unit := do
  let writing ← loadAnchor fileno (·.lock.writing)
  Prog.assert (writing = true)
  storeAnchor fileno ({ · with start := some 0 })
  storeAnchor fileno ({ · with splicingPoint := none })
  storeAnchor fileno ({ · with key := ⟨0, 0⟩ })
  storeAnchor fileno ({ · with basics := .cleared })
  storeAnchor fileno ({ · with waitingToBeFreed := false })
  storeAnchor fileno ({ · with writerHalted := false })

/-- `StoreMapAnchor::setKey`. Whether the key is marked for deletion is up to
the other caches. -/
def setKey (fileno : ℕ) (aKey : CacheKey) : Prog (StoreMap κ) Unit := do
  storeAnchor fileno ({ · with key := aKey })
  let marked ← Prog.pick fun n => .ret (decide (n ≠ 0))
  storeAnchor fileno ({ · with waitingToBeFreed := marked })

/-- `StoreMapAnchor::set`, with the key of the entry. -/
def set (fileno : ℕ) (entry : StoreEntry) : Prog (StoreMap κ) Unit := do
  let writing ← loadAnchor fileno (·.lock.writing)
  let readers ← loadAnchor fileno (·.lock.readers)
  Prog.assert (writing = true ∧ readers = 0)
  setKey fileno entry.key
  storeAnchor fileno ({ · with
    basics := ⟨entry.timestamp, entry.lastref, entry.expires, entry.lastModified,
      entry.swap_file_sz, entry.refcount, entry.flags⟩ })

section

variable (e : Env κ)

/-- The assertion of `anchorAt`. -/
def anchorAt (fileno : ℕ) : Prog (StoreMap κ) Unit := Prog.assert (fileno < e.entryLimit)

/-- The assertion of `sliceAt`. -/
def sliceAt (sliceId : ℕ) : Prog (SlicePool κ) Unit := Prog.assert (sliceId < e.sliceLimit)

/-- `StoreMapSlice::clear`. -/
def clear (sliceId : ℕ) : Prog (SlicePool κ) Unit := do
  Prog.store (modifySlice sliceId ({ · with size := 0 }))
  Prog.store (modifySlice sliceId ({ · with next := none }))

/-! ## Names -/

/-- The name for a key. -/
def nameByKey (key : CacheKey) : ℕ := (key.k0 + key.k1).toNat % e.entryLimit

/-- The fileno for a name. -/
def fileNoByName (name : ℕ) : Prog (StoreMap κ) ℕ := Prog.load (lookup name)

/-- Map a name to a fileno. -/
def relocate (name fileno : ℕ) : Prog (StoreMap κ) Unit := Prog.store (setFileNo name fileno)

/-- The fileno for a key. -/
def fileNoByKey (key : CacheKey) : Prog (StoreMap κ) ℕ := fileNoByName (nameByKey e key)

/-! ## Freeing -/

/-- The loop of `freeChainAt`. -/
def freeChainLoop (splicingPoint : StoreMapSliceId) :
    ℕ → StoreMapSliceId → Prog (SlicePool κ) Unit
  | _, none => .ret ()
  | 0, some _ => .stall
  | fuel + 1, some sliceId => do
    sliceAt e sliceId
    let nextId ← Prog.load fun p => (p.slices sliceId).next
    clear sliceId
    (e.noteFreeMapSlice sliceId).zoom (·.cleaner) (fun k p => { p with cleaner := k })
    -- do not free the rest of a chain that was spliced
    if some sliceId = splicingPoint then .ret () else freeChainLoop splicingPoint fuel nextId

/-- Free a chain of slices. -/
def freeChainAt (sliceId splicingPoint : StoreMapSliceId) : Prog (SlicePool κ) Unit :=
  .pick fun fuel => freeChainLoop e splicingPoint fuel sliceId

/-- **Free an entry** that is locked exclusively, and unlock it unless told
otherwise. -/
def freeChain (fileno : ℕ) (keepLocked : Bool) : Prog (StoreMap κ) Unit := do
  let empty ← loadAnchor fileno (·.empty)
  if empty = false then
    let start ← loadAnchor fileno (·.start)
    let splicingPoint ← loadAnchor fileno (·.splicingPoint)
    onPool (freeChainAt e start splicingPoint)
  rewind fileno
  if keepLocked = false then
    lockOf fileno ReadWriteLock.unlockExclusive
  Prog.store (addCount (-1))

/-- Free the entry if possible or mark it as waiting to be freed. Returns
whether it was neither empty nor marked. -/
def freeEntry (fileno : ℕ) : Prog (StoreMap κ) Bool := do
  anchorAt e fileno
  if ← lockOf fileno ReadWriteLock.lockExclusive then
    let waiting ← loadAnchor fileno (·.waitingToBeFreed)
    let result ← if waiting then pure false else loadAnchor fileno (! ·.empty)
    freeChain e fileno false
    return result
  -- mark to free the locked entry later, if not already marked
  let waiting ← Prog.rmw (modifyAnchor fileno ({ · with waitingToBeFreed := true }))
    (fun s => (s.anchors fileno).waitingToBeFreed)
  return !waiting

/-- Free the entry with the given key, if possible, or mark it. -/
def freeEntryByKey (key : CacheKey) : Prog (StoreMap κ) Unit := do
  let idx ← fileNoByKey e key
  anchorAt e idx
  if ← lockOf idx ReadWriteLock.lockExclusive then
    if ← loadAnchor idx (·.sameKey key) then
      freeChain e idx true
    lockOf idx ReadWriteLock.unlockExclusive
  else if ← lockOf idx ReadWriteLock.lockShared then
    if ← loadAnchor idx (·.sameKey key) then
      storeAnchor idx ({ · with waitingToBeFreed := true })
    lockOf idx ReadWriteLock.unlockShared
  else
    if ← loadAnchor idx (·.sameKey key) then
      storeAnchor idx ({ · with waitingToBeFreed := true })

/-! ## Writing -/

/-- **Lock an anchor for writing**, erasing the old entry. If
`overwriteExisting` is false and there is one, fail. -/
def openForWritingAt (fileno : ℕ) (overwriteExisting : Bool) : Prog (StoreMap κ) Bool := do
  anchorAt e fileno
  if ← lockOf fileno ReadWriteLock.lockExclusive then
    let writing ← loadAnchor fileno (·.lock.writing)
    let readers ← loadAnchor fileno (·.lock.readers)
    Prog.assert (writing = true ∧ readers = 0)
    let waiting ← loadAnchor fileno (·.waitingToBeFreed)
    let empty ← loadAnchor fileno (·.empty)
    -- bail if we cannot empty this position
    if waiting = false ∧ empty = false ∧ overwriteExisting = false then
      lockOf fileno ReadWriteLock.unlockExclusive
      return false
    let waiting ← loadAnchor fileno (·.waitingToBeFreed)
    let empty ← loadAnchor fileno (·.empty)
    if waiting = true ∨ empty = false then
      freeChain e fileno true
    let empty ← loadAnchor fileno (·.empty)
    Prog.assert (empty = true)
    storeAnchor fileno ({ · with start := none })
    storeAnchor fileno ({ · with splicingPoint := none })
    Prog.store (addCount 1)
    return true
  return false

/-- Lock an anchor for writing an entry with the given key. -/
def openForWriting (key : CacheKey) : Prog (StoreMap κ) (Option ℕ) := do
  let idx ← fileNoByKey e key
  if ← openForWritingAt e idx true then
    return some idx
  return none

/-- Restrict an entry being written to appending. -/
def startAppending (fileno : ℕ) : Prog (StoreMap κ) Unit := do
  anchorAt e fileno
  let writing ← loadAnchor fileno (·.lock.writing)
  Prog.assert (writing = true)
  lockOf fileno ReadWriteLock.startAppending

/-- Successfully finish writing. -/
def closeForWriting (fileno : ℕ) : Prog (StoreMap κ) Unit := do
  anchorAt e fileno
  let writing ← loadAnchor fileno (·.lock.writing)
  Prog.assert (writing = true)
  lockOf fileno ReadWriteLock.unlockExclusive

/-- Stop writing, freeing the entry if possible. -/
def abortWriting (fileno : ℕ) : Prog (StoreMap κ) Unit := do
  anchorAt e fileno
  let writing ← loadAnchor fileno (·.lock.writing)
  Prog.assert (writing = true)
  let appending ← loadAnchor fileno (·.lock.appending)
  let alone ← if appending = false then pure true
    else lockOf fileno ReadWriteLock.stopAppendingAndRestoreExclusive
  if alone then
    freeChain e fileno false
  else
    storeAnchor fileno ({ · with waitingToBeFreed := true })
    storeAnchor fileno ({ · with writerHalted := true })
    lockOf fileno ReadWriteLock.unlockExclusive

/-- Unlock and forget an entry being written. Its slices are up to the
caller. -/
def forgetWritingEntry (fileno : ℕ) : Prog (StoreMap κ) Unit := do
  anchorAt e fileno
  let writing ← loadAnchor fileno (·.lock.writing)
  Prog.assert (writing = true)
  rewind fileno
  lockOf fileno ReadWriteLock.unlockExclusive
  Prog.store (addCount (-1))

/-! ## Reading -/

/-- **Lock the entry at a fileno for reading**, if it has the given key and is
not marked. -/
def openForReadingAt (fileno : ℕ) (key : CacheKey) : Prog (StoreMap κ) Bool := do
  anchorAt e fileno
  if !(← lockOf fileno ReadWriteLock.lockShared) then
    return false
  if ← loadAnchor fileno (·.empty) then
    lockOf fileno ReadWriteLock.unlockShared
    return false
  if ← loadAnchor fileno (·.waitingToBeFreed) then
    lockOf fileno ReadWriteLock.unlockShared
    return false
  if !(← loadAnchor fileno (·.sameKey key)) then
    lockOf fileno ReadWriteLock.unlockShared
    return false
  return true

/-- Lock the entry with the given key for reading. -/
def openForReading (key : CacheKey) : Prog (StoreMap κ) (Option ℕ) := do
  let idx ← fileNoByKey e key
  if ← openForReadingAt e idx key then
    return some idx
  return none

/-- Unlock an entry after reading. -/
def closeForReading (fileno : ℕ) : Prog (StoreMap κ) Unit := do
  anchorAt e fileno
  let readers ← loadAnchor fileno (·.lock.readers)
  Prog.assert (readers ≠ 0)
  lockOf fileno ReadWriteLock.unlockShared

/-- Same as `closeForReading`, but also free the entry if it is unlocked. -/
def closeForReadingAndFreeIdle (fileno : ℕ) : Prog (StoreMap κ) Unit := do
  anchorAt e fileno
  let readers ← loadAnchor fileno (·.lock.readers)
  Prog.assert (readers ≠ 0)
  if ← lockOf fileno ReadWriteLock.unlockSharedAndSwitchToExclusive then
    let writing ← loadAnchor fileno (·.lock.writing)
    Prog.assert (writing = true)
    let readers ← loadAnchor fileno (·.lock.readers)
    Prog.assert (readers = 0)
    freeChain e fileno false

/-- `openForReading`, but create a new entry if there is no old one. -/
def openOrCreateForReading (key : CacheKey) : Prog (StoreMap κ) (Option ℕ) := do
  -- start with reading so that we do not overwrite an existing unlocked entry
  let idx ← fileNoByKey e key
  if ← openForReadingAt e idx key then
    return some idx
  let idx ← fileNoByKey e key
  if ← openForWritingAt e idx true then
    setKey idx key
    lockOf idx ReadWriteLock.switchExclusiveToShared
    let empty ← loadAnchor idx (·.empty)
    let writing ← loadAnchor idx (·.lock.writing)
    Prog.assert (empty = false ∧ writing = false)
    return some idx
  -- see if the entry created by the winner of the race is now readable
  let idx ← fileNoByKey e key
  if ← openForReadingAt e idx key then
    return some idx
  return none

/-! ## Victims -/

/-- The loop of `visitVictims`. -/
def visitLoop (visitor : ℕ → Prog (StoreMap κ) (Option β)) :
    ℕ → Prog (StoreMap κ) (Option β)
  | 0 => return none
  | tries + 1 => do
    let victim ← Prog.rmw (fun s => s.withVictim (s.victim + 1)) (·.victim + 1)
    match ← visitor (victim.toNat % e.entryLimit) with
    | some b => return some b
    | none => visitLoop visitor tries

/-- Visit names until the visitor is satisfied, for a while. -/
def visitVictims (visitor : ℕ → Prog (StoreMap κ) (Option β)) : Prog (StoreMap κ) (Option β) :=
  visitLoop e visitor (min 10000 e.entryLimit)

/-- Free an entry that has slices, if one is found. -/
def purgeVisitor (name : ℕ) : Prog (StoreMap κ) (Option Unit) := do
  let fileno ← fileNoByName name
  anchorAt e fileno
  if ← lockOf fileno ReadWriteLock.lockExclusive then
    let empty ← loadAnchor fileno (·.empty)
    let start ← if empty then pure none else loadAnchor fileno (·.start)
    if start.isSome then
      freeChain e fileno false
      return some ()
    lockOf fileno ReadWriteLock.unlockExclusive
  return none

/-- **Free an entry that has slices**, if one is found. -/
def purgeOne : Prog (StoreMap κ) Bool := do
  let found ← visitVictims e (purgeVisitor e)
  return found.isSome

/-- What `openKeyless` does with a name. -/
def keylessVisitor (name : ℕ) : Prog (StoreMap κ) (Option Edition) := do
  let fileNo ← fileNoByName name
  if ← openForWritingAt e fileNo true then
    return some ⟨fileNo, name, none⟩
  return none

/-- Find an anchor for an update and lock it for writing. -/
def openKeyless : Prog (StoreMap κ) (Option Edition) := visitVictims e (keylessVisitor e)

/-! ## Updating -/

/-- Undo an update that has a stale edition, and maybe a fresh one. -/
def abortEditions (stale : Edition) (fresh : Option Edition) : Prog (StoreMap κ) Unit := do
  lockOf stale.fileNo AssertFlagIsSet
  lockOf stale.fileNo ReadWriteLock.unlockHeaders
  closeForReading e stale.fileNo
  match fresh with
  | some fresh => abortWriting e fresh.fileNo
  | none => return ()

/-- Undo a partial update. -/
def abortUpdating (update : StoreMapUpdate) : Prog (StoreMap κ) Unit :=
  abortEditions e update.stale (some update.fresh)

/-- Find an anchor for the fresh edition of an entry, or undo the update. -/
def openFresh (stale : Edition) (entry : StoreEntry) :
    Prog (StoreMap κ) (Option StoreMapUpdate) := do
  match ← openKeyless e with
  | none =>
    abortEditions e stale none
    return none
  | some fresh =>
    set fresh.fileNo entry
    return some ⟨stale, fresh⟩

/-- Lock the entry at a fileno for an update. -/
def openStale (name fileNo : ℕ) (entry : StoreEntry) :
    Prog (StoreMap κ) (Option StoreMapUpdate) := do
  if !(← openForReadingAt e fileNo entry.key) then
    return none
  -- updating appending entries is not supported
  if ← loadAnchor fileNo (·.lock.writing) then
    closeForReading e fileNo
    return none
  if !(← lockOf fileNo ReadWriteLock.lockHeaders) then
    closeForReading e fileNo
    return none
  openFresh e ⟨fileNo, name, none⟩ entry

/-- **Lock an entry for an update of its headers**, and an anchor for its fresh
edition. A valid hint is where the entry is. -/
def openForUpdating (entry : StoreEntry) (fileNoHint : ℕ) :
    Prog (StoreMap κ) (Option StoreMapUpdate) := do
  let name := nameByKey e entry.key
  if fileNoHint < e.entryLimit then
    openStale e name fileNoHint entry
  else
    let fileNo ← fileNoByName name
    openStale e name fileNo entry

/-- Let the fresh chain prefix end with the stale chain suffix, unless it
already ends otherwise. -/
def splice (staleSplice freshSplice : ℕ) : Prog (SlicePool κ) Bool := do
  sliceAt e freshSplice
  sliceAt e staleSplice
  let suffixStart ← Prog.load fun p => (p.slices staleSplice).next
  let freshNext ← Prog.load fun p => (p.slices freshSplice).next
  if freshNext.isNone then
    Prog.store (modifySlice freshSplice ({ · with next := suffixStart }))
    return true
  return freshNext = suffixStart

/-- Delete the fresh entry if the stale one was deleted meanwhile. -/
def propagateDeletion (update : StoreMapUpdate) : Prog (StoreMap κ) Unit := do
  if ← loadAnchor update.stale.fileNo (·.waitingToBeFreed) then
    discard (freeEntry e update.fresh.fileNo)

/-- The second half of `closeForUpdating`: swap the names and unlock. -/
def supersede (update : StoreMapUpdate) (staleSplice : ℕ) : Prog (StoreMap κ) Unit := do
  let stale := update.stale
  let fresh := update.fresh
  -- make the fresh anchor readable for everybody
  lockOf fresh.fileNo ReadWriteLock.switchExclusiveToShared
  propagateDeletion e update
  relocate stale.name fresh.fileNo
  propagateDeletion e update
  -- free the stale chain prefix except for the shared suffix
  storeAnchor stale.fileNo ({ · with splicingPoint := some staleSplice })
  discard (freeEntry e stale.fileNo)
  relocate fresh.name stale.fileNo
  lockOf stale.fileNo ReadWriteLock.unlockHeaders
  closeForReading e stale.fileNo
  closeForReading e fresh.fileNo

/-- **Make an update available to others**, unlock and clean up. `false` is an
exception, before anything has changed. -/
def closeForUpdating (update : StoreMapUpdate) : Prog (StoreMap κ) Bool := do
  let stale := update.stale
  let fresh := update.fresh
  lockOf stale.fileNo AssertFlagIsSet
  match stale.splicingPoint, fresh.splicingPoint with
  | some staleSplice, some freshSplice =>
    -- the stale prefix cannot overlap with the fresh one (a weak check)
    let staleStart ← loadAnchor stale.fileNo (·.start)
    let freshStart ← loadAnchor fresh.fileNo (·.start)
    if staleStart = freshStart ∨ staleStart = some freshSplice ∨ some staleSplice = freshStart
        ∨ staleSplice = freshSplice then
      return false
    -- splice the fresh chain prefix with the stale chain suffix
    if !(← onPool (splice e staleSplice freshSplice)) then
      return false
    supersede e update staleSplice
    return true
  | _, _ => return false

/-! ## Slices -/

/-- The loop of `sliceContaining`. -/
def sliceContainingLoop (bytesNeeded : ℕ) : ℕ → ℕ → StoreMapSliceId →
    Prog (SlicePool κ) StoreMapSliceId
  | _, _, none => return none
  | 0, _, some _ => .stall
  | fuel + 1, bytesSeen, some lastSlice => do
    sliceAt e lastSlice
    let size ← Prog.load fun p => (p.slices lastSlice).size
    let bytesSeen := bytesSeen + size.toNat
    if bytesSeen ≥ bytesNeeded then
      return some lastSlice
    let next ← Prog.load fun p => (p.slices lastSlice).next
    sliceContainingLoop bytesNeeded fuel bytesSeen next

/-- The slice that contains the given byte, if the entry has that many. -/
def sliceContaining (fileno bytesNeeded : ℕ) : Prog (StoreMap κ) StoreMapSliceId := do
  anchorAt e fileno
  let start ← loadAnchor fileno (·.start)
  onPool (.pick fun fuel => sliceContainingLoop e bytesNeeded fuel 0 start)

/-- Prepare a slice for being added to a chain. -/
def prepFreeSlice (sliceId : ℕ) : Prog (SlicePool κ) Unit := do
  sliceAt e sliceId
  clear sliceId

end

end StoreMap

end Ipc
