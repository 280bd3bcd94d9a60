import Revalle.Shm.Interleaving

/-!
# The shared-exclusive lock

`Ipc::ReadWriteLock` is the lock of a shared map entry. Its state is six
atomic fields and its operations are short sequences of atomic accesses with
back-off paths: an operation announces itself in `readLevel` or
`writeLevel`, looks at what the others have announced, and then either goes
on or withdraws. Every access is one node of the program of the operation.

A lock also has an *appending* mode, in which its writer lets readers in
because it only adds to what they see, and a *headers* lock, which is a
shared lock plus the `updating` flag.

`ReadWriteLock.system` is any number of processes using one lock, each
unlocking or switching only what it holds.
-/

namespace Ipc

open Shm

/-- The fields of `Ipc::ReadWriteLock`. -/
structure ReadWriteLock where
  /-- Number of reading users. -/
  readers : UInt32
  /-- There is a writing user. -/
  writing : Bool
  /-- The writer has promised to only append. -/
  appending : Bool
  /-- A reader is updating metadata or headers. -/
  updating : Bool
  /-- Number of users reading, or trying to. -/
  readLevel : UInt32
  /-- Number of users writing, or trying to write. -/
  writeLevel : UInt32
deriving DecidableEq, Repr

namespace ReadWriteLock

/-- A new lock, held by nobody. -/
def new : ReadWriteLock := ⟨0, false, false, false, 0, 0⟩

/-! ## The operations -/

/-- The logic common to `lockExclusive` and
`unlockSharedAndSwitchToExclusive`: either finish exclusive locking or bail
properly. The caller must be the first to increment `writeLevel`. -/
def finalizeExclusive : Prog ReadWriteLock Bool := do
  let wl ← Prog.load writeLevel
  Prog.assert (wl ≠ 0)
  let app ← Prog.load appending
  Prog.assert (app = false)
  let rl ← Prog.load readLevel
  if rl = 0 then
    Prog.store (fun s => { s with writing := true })
    return true
  Prog.store (fun s => { s with writeLevel := s.writeLevel - 1 })
  return false

/-- Lock for reading or return false. -/
def lockShared : Prog ReadWriteLock Bool := do
  Prog.store (fun s => { s with readLevel := s.readLevel + 1 })
  let wl ← Prog.load writeLevel
  -- `appending` is read only when somebody is writing
  let ok ← if wl = 0 then pure true else Prog.load appending
  if ok then
    Prog.store (fun s => { s with readers := s.readers + 1 })
    return true
  Prog.store (fun s => { s with readLevel := s.readLevel - 1 })
  return false

/-- Lock for modification or return false. -/
def lockExclusive : Prog ReadWriteLock Bool := do
  let wl ← Prog.rmw (fun s => { s with writeLevel := s.writeLevel + 1 }) writeLevel
  if wl = 0 then
    finalizeExclusive
  else
    Prog.store (fun s => { s with writeLevel := s.writeLevel - 1 })
    return false

/-- Undo a successful `lockShared`. -/
def unlockShared : Prog ReadWriteLock Unit := do
  let r ← Prog.load readers
  Prog.assert (0 < r)
  Prog.store (fun s => { s with readers := s.readers - 1 })
  Prog.store (fun s => { s with readLevel := s.readLevel - 1 })

/-- Lock for a metadata update or return false. -/
def lockHeaders : Prog ReadWriteLock Bool := do
  if (← lockShared) then
    let was ← Prog.rmw (fun s => { s with updating := true }) updating
    if was = false then
      return true
    unlockShared
  return false

/-- Undo a successful `lockExclusive`. -/
def unlockExclusive : Prog ReadWriteLock Unit := do
  let w ← Prog.load writing
  Prog.assert (w = true)
  Prog.store (fun s => { s with appending := false })
  Prog.store (fun s => { s with writing := false })
  Prog.store (fun s => { s with writeLevel := s.writeLevel - 1 })

/-- Undo a successful `lockHeaders`. `AssertFlagIsSet` sets the flag it
tests. -/
def unlockHeaders : Prog ReadWriteLock Unit := do
  let was ← Prog.rmw (fun s => { s with updating := true }) updating
  Prog.assert (was = true)
  Prog.store (fun s => { s with updating := false })
  unlockShared

/-- Stop writing, start reading. -/
def switchExclusiveToShared : Prog ReadWriteLock Unit := do
  let w ← Prog.load writing
  Prog.assert (w = true)
  Prog.store (fun s => { s with readLevel := s.readLevel + 1 })
  Prog.store (fun s => { s with readers := s.readers + 1 })
  unlockExclusive

/-- Same as `unlockShared`, but also attempts to get a writer lock
beforehand. -/
def unlockSharedAndSwitchToExclusive : Prog ReadWriteLock Bool := do
  let r ← Prog.load readers
  Prog.assert (0 < r)
  let wl ← Prog.rmw (fun s => { s with writeLevel := s.writeLevel + 1 }) writeLevel
  if wl = 0 then
    unlockShared
    finalizeExclusive
  else
    unlockShared
    Prog.store (fun s => { s with writeLevel := s.writeLevel - 1 })
    return false

/-- The writer keeps its lock but also allows reading. -/
def startAppending : Prog ReadWriteLock Unit := do
  let w ← Prog.load writing
  Prog.assert (w = true)
  Prog.store (fun s => { s with appending := true })

/-- The writer keeps its lock and disallows future readers. Returns whether
access became exclusive. -/
def stopAppendingAndRestoreExclusive : Prog ReadWriteLock Bool := do
  let w ← Prog.load writing
  Prog.assert (w = true)
  let app ← Prog.load appending
  Prog.assert (app = true)
  Prog.store (fun s => { s with appending := false })
  let rl ← Prog.load readLevel
  return rl = 0

/-! ## The processes -/

/-- How a process holds the exclusive lock. -/
inductive Exclusive where
  /-- It does not. -/
  | none
  /-- It has not called `startAppending` since it got the lock, or
  `stopAppendingAndRestoreExclusive` has returned true to it since. -/
  | sole
  /-- It has called `startAppending`. -/
  | appending
  /-- `stopAppendingAndRestoreExclusive` has returned false to it. -/
  | contended
deriving DecidableEq, Repr

/-- **What a process holds of one lock.** A process may hold the shared lock
several times, and next to the exclusive one. -/
structure Holds where
  /-- How many shared locks it holds, not counting the headers lock. -/
  shared : ℕ
  /-- Whether it holds the headers lock. -/
  headers : Bool
  /-- How it holds the exclusive lock. -/
  exclusive : Exclusive
deriving DecidableEq, Repr

namespace Holds

/-- Nothing is held. -/
def nothing : Holds := ⟨0, false, .none⟩

/-- The number of shared locks held: a headers lock is a shared lock. -/
def readCount (h : Holds) : ℕ := h.shared + h.headers.toNat

end Holds

/-- The operations of the lock. -/
inductive Op where
  | lockShared
  | lockExclusive
  | lockHeaders
  | unlockShared
  | unlockExclusive
  | unlockHeaders
  | switchExclusiveToShared
  | unlockSharedAndSwitchToExclusive
  | startAppending
  | stopAppendingAndRestoreExclusive
deriving DecidableEq, Repr

/-- **Who may call what**, what the caller keeps holding meanwhile and what
it holds afterwards. An operation that gives up a lock gives it up when it
is called; one that obtains a lock has it when it returns.
`stopAppendingAndRestoreExclusive` requires the appending mode, as its
documentation does. -/
def call (op : Op) (h : Holds) : Option (Holds × Prog ReadWriteLock Holds) :=
  match op with
  | .lockShared => some (h, do
      let ok ← lockShared
      return if ok then { h with shared := h.shared + 1 } else h)
  | .lockExclusive => some (h, do
      let ok ← lockExclusive
      return if ok then { h with exclusive := .sole } else h)
  | .lockHeaders => some (h, do
      let ok ← lockHeaders
      return if ok then { h with headers := true } else h)
  | .unlockShared =>
    if h.shared = 0 then none
    else
      let h' := { h with shared := h.shared - 1 }
      some (h', do unlockShared; return h')
  | .unlockExclusive =>
    if h.exclusive = .none then none
    else
      let h' := { h with exclusive := .none }
      some (h', do unlockExclusive; return h')
  | .unlockHeaders =>
    if h.headers = false then none
    else
      let h' := { h with headers := false }
      some (h', do unlockHeaders; return h')
  | .switchExclusiveToShared =>
    if h.exclusive = .none then none
    else
      let h' := { h with exclusive := .none }
      some (h', do
        switchExclusiveToShared
        return { h' with shared := h'.shared + 1 })
  | .unlockSharedAndSwitchToExclusive =>
    if h.shared = 0 then none
    else
      let h' := { h with shared := h.shared - 1 }
      some (h', do
        let ok ← unlockSharedAndSwitchToExclusive
        return if ok then { h' with exclusive := .sole } else h')
  | .startAppending =>
    if h.exclusive = .none then none
    else
      -- from the call on, the caller no longer counts on being alone
      let h' := { h with exclusive := .contended }
      some (h', do startAppending; return { h' with exclusive := .appending })
  | .stopAppendingAndRestoreExclusive =>
    if h.exclusive = .appending then
      let h' := { h with exclusive := .contended }
      some (h', do
        let ok ← stopAppendingAndRestoreExclusive
        return if ok then { h' with exclusive := .sole } else h')
    else none

/-- **Processes sharing one lock.** At the start nobody holds anything. -/
def system (P : Type) : System ReadWriteLock P Holds Op where
  init := new
  start _ := Holds.nothing
  call _ op _ h := call op h

end ReadWriteLock

end Ipc
