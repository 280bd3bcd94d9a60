import Revalle.Shm.Interleaving

/-!
# The lockless queues

`Ipc::OneToOneUniQueue` is a fixed-capacity queue between one writer and one
reader. Its two positions, `theIn` and `theOut`, are counters that only ever
go up – each is used by one process, and is reduced modulo the capacity on
use – and `theSize`, the only field both processes change, is what hands an
item over: the writer increments it after it has copied the item in, the
reader decrements it after it has copied the item out.

A reader that finds its queue empty is *blocked* and waits for a
notification, whose two flags live in `Ipc::QueueReader`. One reader serves
many queues: `Ipc::BaseMultiQueue` pops from them in turn, and they share
its flags.

An item is a sequence of bytes and `memcpy` copies one byte at a time, so
that a copy can be interleaved with anything.
-/

namespace Ipc

open Shm

/-! ## The reading end -/

/-- The flags of `Ipc::QueueReader`. -/
structure QueueReader where
  /-- Whether the reader is blocked on `pop`. -/
  popBlocked : Bool
  /-- Whether a writer has sent and the reader has not received a
  notification. -/
  popSignal : Bool
deriving DecidableEq, Repr

/-- A new reader. -/
def QueueReader.new : QueueReader := ⟨false, false⟩

/-! ## One queue -/

/-- The constants of a queue. -/
structure QueueShape where
  /-- Maximum item size. -/
  theMaxItemSize : UInt32
  /-- Maximum number of items. -/
  theCapacity : UInt32

/-- **The variables of `Ipc::OneToOneUniQueue`**, with the history of the
queue. The history is not in the source: it grows with `theSize++` and
`--theSize`, and no access reads it. -/
structure OneToOneUniQueue where
  /-- Current `push` position. -/
  theIn : UInt32
  /-- Current `pop` position. -/
  theOut : UInt32
  /-- Number of items in the queue. -/
  theSize : UInt32
  /-- The items, byte by byte. -/
  theBuffer : ℕ → UInt8
  /-- The items handed to the queue so far. -/
  pushed : List (List UInt8)
  /-- The items taken from the queue so far. -/
  popped : List (List UInt8)

/-- A new queue, whose buffer may hold anything. -/
def OneToOneUniQueue.new (buffer : ℕ → UInt8) : OneToOneUniQueue := ⟨0, 0, 0, buffer, [], []⟩

/-- A queue together with its reader. -/
structure Channel where
  /-- The queue. -/
  queue : OneToOneUniQueue
  /-- The reader. -/
  reader : QueueReader

/-- How `push` and `pop` may throw. -/
inductive QueueError where
  | full
  | itemTooLarge
deriving DecidableEq, Repr

namespace QueueReader

/-- Mark the reader as blocked, waiting for a notification. -/
def block : Prog Channel Unit :=
  Prog.store fun s => { s with reader := { s.reader with popBlocked := true } }

/-- Remove the effects of `block`. -/
def unblock : Prog Channel Unit :=
  Prog.store fun s => { s with reader := { s.reader with popBlocked := false } }

/-- If the reader is blocked and not notified, mark the notification as sent
and not received, and return true. -/
def raiseSignal : Prog Channel Bool := do
  let blocked ← Prog.load (·.reader.popBlocked)
  if blocked then
    let was ← Prog.rmw (fun s => { s with reader := { s.reader with popSignal := true } })
      (·.reader.popSignal)
    return !was
  return false

/-- Mark a sent notification as received, which also removes the block. -/
def clearSignal : Prog Channel Unit := do
  unblock
  Prog.store fun s => { s with reader := { s.reader with popSignal := false } }

end QueueReader

namespace OneToOneUniQueue

/-- The offset of the cell of a position, in the arithmetic of the source. -/
def cell (shape : QueueShape) (i : UInt32) : ℕ :=
  (i % shape.theCapacity * shape.theMaxItemSize).toNat

/-- Copy a value into the buffer. -/
def copyIn (pos : ℕ) : List UInt8 → Prog Channel Unit
  | [] => .ret ()
  | b :: bs => do
    Prog.store fun s =>
      { s with queue := { s.queue with theBuffer := Function.update s.queue.theBuffer pos b } }
    copyIn (pos + 1) bs

/-- Copy a value of the given size out of the buffer. -/
def copyOut (pos : ℕ) : ℕ → Prog Channel (List UInt8)
  | 0 => .ret []
  | n + 1 => do
    let b ← Prog.load (·.queue.theBuffer pos)
    let bs ← copyOut (pos + 1) n
    return b :: bs

/-- The rest of `push`, once there is room. -/
def put (shape : QueueShape) (value : List UInt8) (reader : Bool) : Prog Channel Bool := do
  let i ← Prog.load (·.queue.theIn)
  Prog.store fun s => { s with queue := { s.queue with theIn := i + 1 } }
  copyIn (cell shape i) value
  let size ← Prog.rmw
    (fun s => { s with queue := { s.queue with
      theSize := s.queue.theSize + 1
      pushed := s.queue.pushed ++ [value] } })
    (·.queue.theSize)
  if size = 0 then
    if reader then QueueReader.raiseSignal else return true
  else
    return false

/-- Append an item, or throw. Returns whether the caller must notify the
reader. There need not be a reader to signal to. -/
def push (shape : QueueShape) (value : List UInt8) (reader : Bool) :
    Prog Channel (Except QueueError Bool) := do
  if shape.theMaxItemSize.toNat < value.length then
    return .error .itemTooLarge
  let size ← Prog.load (·.queue.theSize)
  if size = shape.theCapacity then
    return .error .full
  return .ok (← put shape value reader)

/-- The rest of `pop`, once there is an item. -/
def take (shape : QueueShape) (size : ℕ) (reader : Bool) : Prog Channel (List UInt8) := do
  if reader then QueueReader.unblock
  let i ← Prog.load (·.queue.theOut)
  Prog.store fun s => { s with queue := { s.queue with theOut := i + 1 } }
  let value ← copyOut (cell shape i) size
  Prog.store fun s => { s with queue := { s.queue with
    theSize := s.queue.theSize - 1
    popped := s.queue.popped ++ [value] } }
  return value

/-- Take the next item of the given size, if there is one, or throw; block
or unblock the reader as needed. -/
def pop (shape : QueueShape) (size : ℕ) (reader : Bool) :
    Prog Channel (Except QueueError (Option (List UInt8))) := do
  if shape.theMaxItemSize.toNat < size then
    return .error .itemTooLarge
  let n ← Prog.load (·.queue.theSize)
  if n = 0 then
    if reader then
      QueueReader.block
      -- a writer might have pushed before the block, and will not signal
      let n ← Prog.load (·.queue.theSize)
      if n = 0 then
        return .ok none
      else
        return .ok (some (← take shape size reader))
    else
      return .ok none
  else
    return .ok (some (← take shape size reader))

/-! ## The two processes of a queue -/

/-- The two ends of a queue. -/
inductive End where
  | writer
  | reader
deriving DecidableEq, Repr

/-- What the ends of a queue do. -/
inductive Op where
  | push (value : List UInt8)
  | pop
deriving DecidableEq, Repr

/-- The log of the writer after a `push`. -/
def pushLog (log : List (List UInt8)) (value : List UInt8) :
    Except QueueError Bool → List (List UInt8)
  | .ok _ => log ++ [value]
  | .error _ => log

/-- The log of the reader after a `pop`. -/
def popLog (log : List (List UInt8)) :
    Except QueueError (Option (List UInt8)) → List (List UInt8)
  | .ok (some value) => log ++ [value]
  | _ => log

/-- **One writer and one reader of a queue** of values of a given size, with or
without notifications. A process holds the log of its successful operations:
the values it has pushed, or the values it was returned. -/
def system (shape : QueueShape) (size : ℕ) (reader : Bool) (init : Channel) :
    System Channel End (List (List UInt8)) Op where
  init := init
  start _ := []
  call p op _ log :=
    match p, op with
    | .writer, .push value =>
      if value.length = size then
        some (log, do return pushLog log value (← push shape value reader))
      else none
    | .reader, .pop => some (log, do return popLog log (← pop shape size reader))
    | _, _ => none

end OneToOneUniQueue

/-! ## Many queues with one reader -/

/-- **What a reader shares with its writers**: a queue from each of them, the
flags, and the notifications each of them has sent and the reader has not
received. Remote processes are known by their number. -/
structure MultiQueue where
  /-- The incoming queue of each remote process. -/
  inQueue : ℕ → OneToOneUniQueue
  /-- The reader of all of them. -/
  localReader : QueueReader
  /-- How many notifications of each remote process are in flight. -/
  inFlight : ℕ → ℕ

/-- The remote processes of a reader have consecutive numbers, which are of
type `int`. -/
structure Remotes where
  /-- The first number. -/
  remotesIdOffset : ℕ
  /-- How many there are. -/
  remotesCount : ℕ
  /-- The numbers are of type `int`. -/
  fits : remotesIdOffset + remotesCount < 2 ^ 31

/-- The remote process visited after `last`. -/
def Remotes.next (r : Remotes) (last : ℕ) : ℕ :=
  if last + 1 ≥ r.remotesIdOffset + r.remotesCount then r.remotesIdOffset else last + 1

namespace BaseMultiQueue

/-- An access to the queue of one remote process and to the reader. -/
def channel (id : ℕ) {α : Type} : Prog Channel α → Prog MultiQueue α :=
  Prog.zoom (fun s => ⟨s.inQueue id, s.localReader⟩)
    (fun ch s => { s with
      inQueue := Function.update s.inQueue id ch.queue
      localReader := ch.reader })

/-- The loop of `pop`: `rounds` more remote processes are to be visited,
starting after the one visited last. Returns the one visited last. -/
def popLoop (r : Remotes) (shape : QueueShape) (size : ℕ) :
    ℕ → ℕ → Prog MultiQueue (ℕ × Except QueueError (Option (ℕ × List UInt8)))
  | 0, last => .ret (last, .ok none)
  | rounds + 1, last => do
    let id := r.next last
    match ← channel id (OneToOneUniQueue.pop shape size true) with
    | .ok (some value) => return (id, .ok (some (id, value)))
    | .ok none => popLoop r shape size rounds id
    | .error e => return (id, .error e)

/-- Pop an item from any of the incoming queues, starting after the one
visited last. -/
def pop (r : Remotes) (shape : QueueShape) (size last : ℕ) :
    Prog MultiQueue (ℕ × Except QueueError (Option (ℕ × List UInt8))) :=
  popLoop r shape size r.remotesCount last

/-- Mark the notifications received by the local process as received. -/
def clearAllReaderSignals : Prog MultiQueue Unit := channel 0 QueueReader.clearSignal

/-- Append an item to the queue from the remote process `id` to the reader. -/
def push (shape : QueueShape) (id : ℕ) (value : List UInt8) :
    Prog MultiQueue (Except QueueError Bool) :=
  channel id (OneToOneUniQueue.push shape value true)

/-! ## The processes of many queues -/

/-- A reader and its writers. -/
inductive Party where
  | reader
  | remote (id : ℕ)
deriving DecidableEq, Repr

/-- What the reader keeps between two operations. -/
structure Local where
  /-- The last remote process popped from. -/
  theLastPopProcessId : ℕ
  /-- Whether the last `pop` returned false. -/
  drained : Bool
deriving DecidableEq, Repr

/-- What the processes do. -/
inductive Op where
  /-- The reader handles what is queued at its start. -/
  | handleNewDataAtStart
  /-- The reader receives a notification of a remote process and handles
  what is queued. -/
  | handleNotification (sender : ℕ)
  /-- A remote process pushes a value and notifies the reader if it must. -/
  | broadcast (value : List UInt8)
deriving DecidableEq, Repr

/-- Pop until there is nothing to pop. The number of rounds is not bounded in
the source. -/
def handleNewData (r : Remotes) (shape : QueueShape) (size : ℕ) :
    ℕ → ℕ → Prog MultiQueue Local
  | 0, _ => .stall
  | fuel + 1, last => do
    let (last, result) ← pop r shape size last
    match result with
    | .ok (some _) => handleNewData r shape size fuel last
    | .ok none => return ⟨last, true⟩
    | .error _ => return ⟨last, false⟩

/-- Receive a notification. -/
def receive (sender : ℕ) : Prog MultiQueue Unit :=
  Prog.store fun s =>
    { s with inFlight := Function.update s.inFlight sender (s.inFlight sender - 1) }

/-- Send a notification. -/
def notify (sender : ℕ) : Prog MultiQueue Unit :=
  Prog.store fun s =>
    { s with inFlight := Function.update s.inFlight sender (s.inFlight sender + 1) }

/-- **A reader and its writers.** The reader clears its signals and pops until
there is nothing to pop, at its start and after every notification it
receives; a writer sends a notification when `push` returns true.
Notifications arrive in any order after any delay. The memory at the start
is arbitrary, as it may be what a killed predecessor has left. -/
def system (r : Remotes) (shape : QueueShape) (size : ℕ) (init : MultiQueue) :
    System MultiQueue Party Local Op where
  init := init
  start _ := ⟨2 ^ 31 - 2, false⟩
  call p op s h :=
    match p, op with
    | .reader, .handleNewDataAtStart => some ({ h with drained := false }, do
        clearAllReaderSignals
        .pick fun fuel => handleNewData r shape size fuel h.theLastPopProcessId)
    | .reader, .handleNotification sender =>
      if s.inFlight sender = 0 then none
      else some ({ h with drained := false }, do
        receive sender
        clearAllReaderSignals
        .pick fun fuel => handleNewData r shape size fuel h.theLastPopProcessId)
    | .remote id, .broadcast value =>
      if r.remotesIdOffset ≤ id ∧ id < r.remotesIdOffset + r.remotesCount then
        some (h, do
          match ← push shape id value with
          | .ok true => notify id
          | _ => pure ()
          return h)
      else none
    | _, _ => none

end BaseMultiQueue

end Ipc
