import Revalle.Data.Linked
import Revalle.Ipc.StoreMap
import Revalle.Sbuf.SBuf

/-!
# Writing an entry to a rock store

A rock store keeps an entry in slots of one size, which the shared map links to a
chain. What is written to the entry is collected in a buffer. When the buffer is
full and there is more, a slot for the rest is reserved and the buffer is written
to the current one, together with a header that names the next slot. The slot is
linked into the map as soon as the disk reports success; until then it belongs to
the request.

The disk answers when it likes: while the request is being made, later, or after
the entry was closed; in any order, and with an error if it likes. Here `replies`
says what it answers while a request is being made, and `completed` is an answer
at any other time. `slots` says what the reservations to come will give, `none`
being an exception.

Only what writes new entries is here: the writer of an update goes on with an old
chain, and is left out.
-/

namespace Rock

open Ipc Throwing

/-! ## Cells -/

/-- `sizeof(DbCellHeader)`. -/
def sizeofDbCellHeader : ℕ := 40

/-- What precedes the content of a slot on the disk. -/
structure DbCellHeader where
  key : CacheKey
  /-- the size of the whole entry, if known -/
  entrySize : ℕ
  payloadSize : ℕ
  version : ℕ
  firstSlot : ℕ
  nextSlot : Option ℕ
deriving DecidableEq, Repr

/-- The bytes of a number, the lowest first. -/
def littleEndian : ℕ → ℕ → List UInt8
  | 0, _ => []
  | n + 1, x => UInt8.ofNat x :: littleEndian n (x / 256)

/-- The header in memory. No slot is `-1`. -/
def DbCellHeader.bytes (h : DbCellHeader) : List UInt8 :=
  littleEndian 8 h.key.k0.toNat ++ littleEndian 8 h.key.k1.toNat ++ littleEndian 8 h.entrySize ++
    littleEndian 4 h.payloadSize ++ littleEndian 4 h.version ++ littleEndian 4 h.firstSlot ++
    littleEndian 4 (h.nextSlot.getD (2 ^ 32 - 1))

/-- What the store, and the entry that is written, are like. -/
structure Config where
  slotSize : ℕ
  maxObjectSize : ℕ
  /-- the number of slots -/
  sliceLimit : ℕ
  key : CacheKey
  timestamp : ℕ
deriving DecidableEq, Repr

namespace Config

/-- The capacity of `theBuf`: `MemBlob` keeps all of the memory that it is given. -/
def capacity (c : Config) : ℕ := Sbuf.grossSize (c.slotSize % 2 ^ 32)

/-- `diskOffset`. -/
def diskOffset (c : Config) (sid : ℕ) : ℕ := 16 * 1024 + c.slotSize * sid

end Config

/-- `WriteRequest`, with its buffer. -/
structure WriteRequest where
  sidPrevious : Option ℕ
  sidCurrent : ℕ
  id : ℕ
  eof : Bool
  offset : ℕ
  header : DbCellHeader
  payload : List UInt8
deriving DecidableEq, Repr

namespace WriteRequest

def buf (r : WriteRequest) : List UInt8 := r.header.bytes ++ r.payload

def len (r : WriteRequest) : ℕ := r.buf.length

end WriteRequest

/-- How the anchor of the entry is locked. -/
inductive Lock
  | writing
  | reading
  | unlocked
deriving DecidableEq, Repr

/-- **A writer**, what it uses of the map, and the disk. -/
structure Swapout where
  offset_ : ℕ := 0
  theBuf : List UInt8 := []
  sidFirst : Option ℕ := none
  sidPrevious : Option ℕ := none
  sidCurrent : Option ℕ := none
  sidNext : Option ℕ := none
  requestsSent : ℕ := 0
  repliesReceived : ℕ := 0
  theFile : Bool := true
  writeableAnchor_ : Bool := true
  lock : Lock := .writing
  waitingToBeFreed : Bool := false
  /-- where the chain of the entry begins -/
  start : Option ℕ := none
  swap_file_sz : ℕ := 0
  slices : ℕ → StoreMapSlice
  /-- the slots given to `noteFreeMapSlice` -/
  freed : List ℕ := []
  /-- what the reservations to come will give -/
  slots : List (Option ℕ)
  /-- what the reservations so far have given -/
  reserved : List ℕ := []
  /-- the requests that the disk answers while another one is being made -/
  replies : List (List (ℕ × Bool))
  /-- all requests so far -/
  sent : List WriteRequest := []
  /-- the requests without an answer -/
  inFlight : List WriteRequest := []
  disk : ℕ → UInt8

/-- What changes the state of a writer, and may throw or fail an assertion. -/
abbrev Io (α : Type) : Type := Throwing Swapout α

namespace Swapout

/-! ## Slots -/

def noteFreeMapSlice (sid : ℕ) (s : Swapout) : Swapout := { s with freed := s.freed ++ [sid] }

/-- `noteFreeMapSlice`, unless the slot is negative. -/
def noteFree : Option ℕ → Swapout → Swapout
  | some sid, s => s.noteFreeMapSlice sid
  | none, s => s

/-- `clear` of a slice. -/
def clear (sid : ℕ) (s : Swapout) : Swapout :=
  { s with slices := Function.update s.slices sid ⟨0, none⟩ }

def setNext (sid : ℕ) (next : Option ℕ) (s : Swapout) : Swapout :=
  { s with slices := Function.update s.slices sid { s.slices sid with next := next } }

def setSize (sid : ℕ) (size : UInt32) (s : Swapout) : Swapout :=
  { s with slices := Function.update s.slices sid { s.slices sid with size := size } }

/-- A map has no longer chain than it has slices. -/
def freeChainAt : ℕ → Option ℕ → Swapout → Swapout
  | 0, _, s => s
  | _ + 1, none, s => s
  | fuel + 1, some sid, s =>
    freeChainAt fuel (s.slices sid).next ((s.clear sid).noteFreeMapSlice sid)

variable (c : Config)

/-- `freeChain`. An anchor with the key zero counts as empty. -/
def freeChain (s : Swapout) : Swapout :=
  let s := if c.key.k0 = 0 ∧ c.key.k1 = 0 then s else freeChainAt c.sliceLimit s.start s
  { s with start := none, waitingToBeFreed := false, swap_file_sz := 0, lock := .unlocked }

def freeEntry (s : Swapout) : Swapout :=
  match s.lock with
  | .unlocked => s.freeChain c
  | _ => { s with waitingToBeFreed := true }

/-- `writeError`. -/
def writeError (s : Swapout) : Swapout := s.freeEntry c

/-- `finishedWriting`, with the `callBack` at its end. -/
def finishedWriting (s : Swapout) : Swapout :=
  { noteFree s.sidNext (noteFree s.sidCurrent s) with
    sidCurrent := none, sidNext := none, theFile := false }

def handleWriteCompletionProblem (r : WriteRequest) (s : Swapout) : Swapout :=
  ((s.noteFreeMapSlice r.sidCurrent).writeError c).finishedWriting

/-- The `i`-th request is done. -/
def answered (i : ℕ) (r : WriteRequest) (ok : Bool) (s : Swapout) : Swapout :=
  { s with
    inFlight := s.inFlight.eraseIdx i
    disk := if ok then Memory.write s.disk r.offset r.buf else s.disk }

/-- The request of `writeToDisk`. Without a next slot it is the last one. -/
def request (sidFirst sidCurrent : ℕ) (s : Swapout) : WriteRequest where
  sidPrevious := s.sidPrevious
  sidCurrent := sidCurrent
  id := s.requestsSent + 1
  eof := s.sidNext.isNone
  offset := c.diskOffset sidCurrent
  header :=
    { key := c.key
      entrySize := if s.sidNext.isNone then s.offset_ else 0
      payloadSize := s.theBuf.length - sizeofDbCellHeader
      version := c.timestamp
      firstSlot := sidFirst
      nextSlot := s.sidNext }
  payload := s.theBuf.drop sizeofDbCellHeader

/-- A request was made. -/
def issue (r : WriteRequest) (s : Swapout) : Swapout :=
  { s with
    requestsSent := s.requestsSent + 1, sidPrevious := s.sidCurrent, sidCurrent := s.sidNext
    sidNext := none, theBuf := [], sent := s.sent ++ [r], inFlight := s.inFlight ++ [r] }

/-- A slot was reserved. -/
def reserve (sid : ℕ) (slots : List (Option ℕ)) (s : Swapout) : Swapout :=
  { s.clear sid with slots := slots, reserved := s.reserved ++ [sid] }

end Swapout

open Swapout

variable (c : Config)

/-- `reserveSlotForWriting`. -/
def reserveSlotForWriting : Io ℕ := do
  let s ← get
  match s.slots with
  | some sid :: slots => do
    defined (sid < c.sliceLimit)
    modify (reserve sid slots)
    pure sid
  | none :: slots => do
    modify fun s => { s with slots := slots }
    throw ()
  | [] => throw ()

/-! ## Answers of the disk -/

def expectedReply (receivedId : ℕ) : Io Bool := do
  let s ← get
  must (s.requestsSent ≠ 0)
  must (receivedId ≠ 0)
  must (receivedId ≤ s.requestsSent)
  modify fun s => { s with repliesReceived := s.repliesReceived + 1 }
  pure (receivedId = s.repliesReceived + 1)

/-- The slot that was written is appended to the chain of the entry. -/
def linkSlot (r : WriteRequest) : Io Unit := do
  let s ← get
  match s.start, r.sidPrevious with
  | none, none => modify fun s => { s with start := some r.sidCurrent }
  | none, some _ => throw ()
  | some _, none => throw ()
  | some _, some sidPrevious => do
    defined (s.lock = .writing ∧ sidPrevious < c.sliceLimit)
    modify (setNext sidPrevious (some r.sidCurrent))

/-- `switchWritingToReading`, and what precedes it. -/
def completeEntry : Io Unit := do
  let s ← get
  defined (s.lock = .writing)
  defined (¬ (c.key.k0 = 0 ∧ c.key.k1 = 0))
  modify fun s =>
    { s with swap_file_sz := s.offset_, lock := .reading, writeableAnchor_ := false }

def handleWriteCompletionSuccess (r : WriteRequest) : Io Unit := do
  let s ← get
  defined (s.writeableAnchor_ = true)
  linkSlot c r
  let s ← get
  defined (s.lock = .writing ∧ r.sidCurrent < c.sliceLimit)
  modify (setSize r.sidCurrent (UInt32.ofNat (r.len - sizeofDbCellHeader)))
  let s ← get
  must ((s.slices r.sidCurrent).next = none)
  whenever (r.eof = true) do
    completeEntry c
    modify finishedWriting

/-- An answer that nobody has given up waiting for. -/
def handleWriteCompletion (ok : Bool) (r : WriteRequest) : Io Unit :=
  if ok then do
    let expected ← expectedReply r.id
    if expected then handleWriteCompletionSuccess c r
    else modify (handleWriteCompletionProblem c r)
  else modify (handleWriteCompletionProblem c r)

def writeCompleted (ok : Bool) (r : WriteRequest) : Io Unit := do
  let s ← get
  if s.theFile then handleWriteCompletion c ok r else modify (noteFreeMapSlice r.sidCurrent)

/-- The disk answers the `i`-th of the requests it has not answered. -/
def completed (i : ℕ) (ok : Bool) : Io Unit := do
  let s ← get
  match s.inFlight[i]? with
  | some r => do
    modify (answered i r ok)
    writeCompleted c ok r
  | none => pure ()

/-- The disk gives these answers. -/
def deliver : List (ℕ × Bool) → Io Unit
  | [] => pure ()
  | (i, ok) :: answers => do
    completed c i ok
    deliver answers

/-- The disk answers while a request is being made. -/
def answerNow : Io Unit := do
  let s ← get
  match s.replies with
  | [] => pure ()
  | answers :: replies => do
    modify fun s => { s with replies := replies }
    deliver c answers

/-! ## Writing -/

/-- The first slot is reserved with the first request. -/
def ensureFirst : Io Unit := do
  let s ← get
  whenever (s.sidFirst = none) do
    let sid ← reserveSlotForWriting c
    modify fun s => { s with sidFirst := some sid, sidCurrent := some sid }

def writeToDisk : Io Unit := do
  let s ← get
  defined (s.theFile = true)
  defined (sizeofDbCellHeader ≤ s.theBuf.length)
  defined (s.sidFirst = none ↔ s.sidCurrent = none)
  ensureFirst c
  let s ← get
  match s.sidFirst, s.sidCurrent with
  | some sidFirst, some sidCurrent => do
    modify fun s => s.issue (s.request c sidFirst sidCurrent)
    answerNow c
  | _, _ => defined False

/-- Space for the header, which is filled in later. -/
def startBuf : Io Unit := do
  let s ← get
  whenever (s.theBuf = []) do
    must (sizeofDbCellHeader ≤ c.capacity)
    modify fun s => { s with theBuf := List.replicate sizeofDbCellHeader 0 }

/-- `writeToBuffer`. -/
def writeToBuffer (buf : List UInt8) : Io ℕ := do
  startBuf c
  let s ← get
  let forCurrentSlot := min buf.length (c.capacity - s.theBuf.length)
  modify fun s =>
    { s with theBuf := s.theBuf ++ buf.take forCurrentSlot, offset_ := s.offset_ + forCurrentSlot }
  pure forCurrentSlot

/-- The buffer is full, and there is more. -/
def overflow : Io Unit := do
  let s ← get
  must (s.sidNext = none)
  let sid ← reserveSlotForWriting c
  modify fun s => { s with sidNext := some sid }
  writeToDisk c
  let s ← get
  must (s.sidNext = none)

/-- The loop of `tryWrite`. Every round but the first takes a byte. -/
def writeLoop : ℕ → List UInt8 → Io Unit
  | 0, _ => defined False
  | fuel + 1, buf => do
    let s ← get
    whenever (buf ≠ [] ∧ s.theFile = true) do
      let processed ← writeToBuffer c buf
      whenever (buf.drop processed ≠ []) (overflow c)
      writeLoop fuel (buf.drop processed)

def tryWrite (buf : List UInt8) : Io Unit := do
  let s ← get
  must (s.offset_ + buf.length ≤ c.maxObjectSize)
  writeLoop c (buf.length + 2) buf

def write (buf : List UInt8) : Io Bool :=
  tryCatch (do tryWrite c buf; pure true) fun _ => do
    modify (writeError c)
    modify finishedWriting
    pure false

/-- How to close. -/
inductive How
  | wroteAll
  | writerGone
deriving DecidableEq, Repr

def flush : Io Unit := do
  let s ← get
  defined (s.theBuf ≠ [])
  tryCatch (writeToDisk c) fun _ => do
    modify (writeError c)
    modify finishedWriting

def close (how : How) : Io Unit := do
  let s ← get
  whenever (s.theFile = true) do
    match how with
    | .wroteAll => flush c
    | .writerGone => do
      modify (writeError c)
      modify finishedWriting

/-- `disconnect` of an entry that was not completed. -/
def disconnect : Io Unit := do
  let s ← get
  defined (s.lock = .writing)
  modify (freeChain c)
  modify fun s => { s with writeableAnchor_ := false }

/-! ## Reading -/

/-- The reader of an entry. -/
structure Reader where
  sidCurrent : Option ℕ := none
  objOffset : ℕ := 0
deriving DecidableEq, Repr

/-- The loop of `read_`. -/
def seek (s : Swapout) (coreOff : ℕ) : ℕ → Reader → Option Reader
  | 0, _ => none
  | fuel + 1, rd =>
    match rd.sidCurrent with
    | none => some rd
    | some sid =>
      let objEnd := rd.objOffset + (s.slices sid).size.toNat
      if objEnd ≤ coreOff then seek s coreOff fuel ⟨(s.slices sid).next, objEnd⟩ else some rd

/-- `read_`, with what the disk answers. The writer of a completed entry has not
halted, so behind the end there is nothing but no error. -/
def read (s : Swapout) (len coreOff : ℕ) (rd : Reader) : Option (Reader × List UInt8) :=
  let rd := if rd.sidCurrent = none ∨ coreOff < rd.objOffset then ⟨s.start, 0⟩ else rd
  (seek s coreOff (c.sliceLimit + 1) rd).map fun rd =>
    match rd.sidCurrent with
    | none => (rd, [])
    | some sid =>
      let len := min len (rd.objOffset + (s.slices sid).size.toNat - coreOff)
      let start := c.diskOffset sid + sizeofDbCellHeader + coreOff - rd.objOffset
      (rd, Memory.window s.disk start len)

end Rock
