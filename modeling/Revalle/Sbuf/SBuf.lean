import Revalle.Data.Ascii
import Revalle.Data.Throwing
import Revalle.Data.Window

/-!
# Buffers that share their memory

An `SBuf` is a window of a `MemBlob`, and any number of them may look at one
blob. Copying a buffer copies the window only. A buffer appends in place when
its window ends where the used part of the blob ends, since nobody else can
be using what follows; for every other change of bytes it first makes sure
that it is the only one to refer to the blob.

The model follows `SBuf.cc` and `MemBlob.cc` on a heap of numbered blobs.
`Must` throws, and the state is then left as it was at that point. Reading a
blob that nobody refers to any more, or an address outside a block, is
undefined, so that a pointer into a blob is worth only as much as the `Locker`
that keeps it. Statistics and debugging output are left out.
-/

namespace Sbuf

open Ascii Memory
open Throwing (must defined whenever bracket)

/-- `SBuf::npos`, the largest `size_type`. -/
def npos : ℕ := 0xffffffff

/-- `SBuf::maxSize`. -/
def maxSize : ℕ := 0xfffffff

/-- The sum of two values of `size_type`. -/
def add32 (m n : ℕ) : ℕ := (m + n) % 2 ^ 32

/-- The difference of two values of `size_type`. -/
def sub32 (m n : ℕ) : ℕ := (m + (2 ^ 32 - n)) % 2 ^ 32

/-- The buffer sizes of the memory pools. -/
def bufSizes : List ℕ :=
  [32, 64, 128, 256, 512, 1024, 2 * 1024, 4 * 1024, 8 * 1024, 16 * 1024, 32 * 1024, 64 * 1024]

/-- The size `memFindBufSizeType` rounds an allocation up to: that of the first
pool that will do, if any. -/
def grossSize (netSize : ℕ) : ℕ := (bufSizes.find? (netSize ≤ ·)).getD netSize

theorem le_grossSize (n : ℕ) : n ≤ grossSize n := by
  unfold grossSize
  cases h : bufSizes.find? (n ≤ ·) with
  | none => exact le_rfl
  | some size =>
    have := List.find?_some h
    exact of_decide_eq_true this

/-- A `MemBlob`: the allocated block and how much of it is in use by anyone. -/
structure MemBlob where
  mem : ℕ → UInt8
  capacity : ℕ
  size : ℕ

namespace MemBlob

def spaceSize (b : MemBlob) : ℕ := b.capacity - b.size

def willFit (b : MemBlob) (n : ℕ) : Bool := n ≤ b.spaceSize

def isAppendOffset (b : MemBlob) (off : ℕ) : Bool := off = b.size

/-- Whether the user whose area ends at `off` may append `n` bytes. -/
def canAppend (b : MemBlob) (off n : ℕ) : Bool := (b.isAppendOffset off && b.willFit n) || n = 0

end MemBlob

/-- An `SBuf`: a window of a blob, which other buffers may share. -/
structure SBuf where
  store : ℕ
  off : ℕ
  len : ℕ

/-- The blob of `GetStorePrototype`, which every new buffer shares. -/
def storePrototype : ℕ := 0

/-- `SBuf()`. -/
def SBuf.empty : SBuf := ⟨storePrototype, 0, 0⟩

/-- **The buffers of a program and their blobs.** Blobs are numbered in the
order of allocation. `lockers` are the blobs that `Locker` objects hold now,
and `garbage` is what a new block contains. -/
structure Heap (V : Type) where
  sbufs : V → SBuf
  blobs : ℕ → MemBlob
  nextBlob : ℕ
  lockers : List ℕ
  garbage : ℕ → ℕ → UInt8

namespace Heap

variable {V : Type}

def store (s : Heap V) (x : V) : ℕ := (s.sbufs x).store

def off (s : Heap V) (x : V) : ℕ := (s.sbufs x).off

def length (s : Heap V) (x : V) : ℕ := (s.sbufs x).len

def isEmpty (s : Heap V) (x : V) : Bool := s.length x = 0

/-- The blob behind a buffer. -/
def blob (s : Heap V) (x : V) : MemBlob := s.blobs (s.store x)

/-- `SBuf::spaceSize`. -/
def spaceSize (s : Heap V) (x : V) : ℕ := (s.blob x).spaceSize

/-- The bytes of a buffer. -/
def content (s : Heap V) (x : V) : List UInt8 := window (s.blob x).mem (s.off x) (s.length x)

/-- `SBuf::operator []`. -/
def charAt (s : Heap V) (x : V) (pos : ℕ) : UInt8 := (s.blob x).mem (s.off x + pos)

/-- **The number of references to a blob**: one for each buffer over it and
for each locker, and one more that keeps the prototype. -/
def lockCount [Fintype V] (s : Heap V) (b : ℕ) : ℕ :=
  (Finset.univ.filter fun v => s.store v = b).card + s.lockers.count b
    + if b = storePrototype then 1 else 0

variable [DecidableEq V]

def setBuf (x : V) (f : SBuf → SBuf) (s : Heap V) : Heap V :=
  { s with sbufs := Function.update s.sbufs x (f (s.sbufs x)) }

def setBlob (b : ℕ) (f : MemBlob → MemBlob) (s : Heap V) : Heap V :=
  { s with blobs := Function.update s.blobs b (f (s.blobs b)) }

/-- The heap with one more locker of blob `b`. -/
def lock (b : ℕ) (s : Heap V) : Heap V := { s with lockers := b :: s.lockers }

/-- The heap after the newest locker is gone. -/
def unlock (s : Heap V) : Heap V := { s with lockers := s.lockers.tail }

end Heap

/-- A memory area given to a buffer: bytes that belong to no blob, or `n`
bytes of a blob. -/
inductive Area where
  | outside (data : List UInt8)
  | inside (blob off n : ℕ)

/-- The number of bytes in the area. -/
def Area.size : Area → ℕ
  | outside data => data.length
  | inside _ _ n => n

variable {V : Type} [Fintype V] [DecidableEq V]

/-- What a program over the heap may do: give a result, throw, or run into
undefined behaviour. -/
abbrev Run (V α : Type) : Type := Throwing (Heap V) α

/-! ## Blobs -/

/-- Read an area. Reading a blob that nobody refers to, or past its block, is
undefined. -/
def Area.read : Area → Run V (List UInt8)
  | outside data => pure data
  | inside b off n => do
    let s ← get
    defined (0 < s.lockCount b ∧ off + n ≤ (s.blobs b).capacity)
    pure (window (s.blobs b).mem off n)

/-- Store bytes in the block of a blob; past the block it is undefined. -/
def poke (b start : ℕ) (data : List UInt8) : Run V Unit := do
  let s ← get
  defined (start + data.length ≤ (s.blobs b).capacity)
  modify (Heap.setBlob b fun blob => { blob with mem := write blob.mem start data })

/-- `MemBlob::append`. -/
def MemBlob.append (b : ℕ) (source : Area) : Run V Unit :=
  whenever (0 < source.size) do
    let s ← get
    must ((s.blobs b).willFit source.size)
    let data ← source.read
    poke b (s.blobs b).size data
    modify (Heap.setBlob b fun blob => { blob with size := blob.size + source.size })

/-- `MemBlob::syncSize`. -/
def MemBlob.syncSize (b n : ℕ) : Run V Unit := do
  let s ← get
  must (s.lockCount b ≤ 1)
  must (n ≤ (s.blobs b).size)
  modify (Heap.setBlob b fun blob => { blob with size := n })

/-- `MemBlob::consume`. -/
def MemBlob.consume (b rawN : ℕ) : Run V Unit := do
  let s ← get
  whenever (rawN ≠ 0 ∧ (s.blobs b).size ≠ 0) do
    must (s.lockCount b ≤ 1)
    let n := min rawN (s.blobs b).size
    let size := (s.blobs b).size - n
    modify (Heap.setBlob b fun blob => { blob with size := size })
    whenever (size ≠ 0) do
      let data ← (Area.inside b n size).read
      poke b 0 data

/-- `new MemBlob(reserveSize)`. -/
def MemBlob.new (reserveSize : ℕ) : Run V ℕ := do
  let s ← get
  let b := s.nextBlob
  modify fun s =>
    { s with
      nextBlob := b + 1
      blobs := Function.update s.blobs b ⟨s.garbage b, grossSize reserveSize, 0⟩ }
  pure b

/-! ## Growing a buffer -/

/-- `SBuf::reAlloc`. -/
def reAlloc (x : V) (newsize : ℕ) : Run V Unit := do
  must (newsize ≤ maxSize)
  let newbuf ← MemBlob.new newsize
  let s ← get
  whenever (0 < s.length x) <|
    MemBlob.append newbuf (.inside (s.store x) (s.off x) (s.length x))
  modify (Heap.setBuf x fun buf => { buf with store := newbuf, off := 0 })

/-- `SBuf::cow`. -/
def cow (x : V) (newsize : ℕ) : Run V Unit := do
  let s ← get
  let newsize := if newsize = npos ∨ newsize < s.length x then s.length x else newsize
  if s.lockCount (s.store x) = 1 then
    -- the size of the blob reflects past owners
    MemBlob.syncSize (s.store x) (s.off x + s.length x)
    let s ← get
    let availableSpace := s.spaceSize x
    let neededSpace := newsize - s.length x
    if neededSpace ≤ availableSpace then
      pure ()
    else if neededSpace ≤ availableSpace + s.off x then
      -- consume idle leading space if doing so avoids reallocation
      MemBlob.consume (s.store x) (s.off x)
      modify (Heap.setBuf x fun buf => { buf with off := 0 })
      let s ← get
      defined (neededSpace ≤ s.spaceSize x)
    else
      reAlloc x newsize
  else
    reAlloc x newsize

/-- `SBuf::rawSpace`; the result is the end of the buffer, as a blob and an
offset in it. -/
def rawSpace (x : V) (minSpace : ℕ) : Run V (ℕ × ℕ) := do
  let s ← get
  must (s.length x ≤ sub32 maxSize minSpace)
  whenever (¬ (s.blob x).canAppend (s.off x + s.length x) minSpace) <|
    cow x (add32 minSpace (s.length x))
  let s ← get
  pure (s.store x, s.off x + s.length x)

/-- `SBuf::lowAppend`. -/
def lowAppend (x : V) (area : Area) : Run V Unit := do
  let _ ← rawSpace x area.size
  let s ← get
  MemBlob.append (s.store x) area
  modify (Heap.setBuf x fun buf => { buf with len := buf.len + area.size })

/-- The scope of `const Locker blobKeeper(this, otherBuffer)`: the blob of the
buffer is held when the pointer points into its block. -/
def withLocker (x : V) (otherBuffer : Area) (body : Run V Unit) : Run V Unit := do
  let s ← get
  match otherBuffer with
  | .outside _ => body
  | .inside b off _ =>
    if b = s.store x ∧ off < (s.blobs b).capacity then
      bracket (Heap.lock b) Heap.unlock body
    else
      body

/-! ## The operations of a buffer -/

/-- `SBuf::assign(const SBuf &)`. -/
def assign (x y : V) : Run V Unit :=
  modify fun s => s.setBuf x fun _ => s.sbufs y

/-- `SBuf::clear`. -/
def clear (x : V) : Run V Unit := do
  let s ← get
  whenever (s.lockCount (s.store x) = 1) <|
    modify (Heap.setBlob (s.store x) fun blob => { blob with size := 0 })
  modify (Heap.setBuf x fun buf => { buf with len := 0, off := 0 })

/-- `SBuf::append(const SBuf &)`. -/
def append (x y : V) : Run V Unit := do
  let s ← get
  if s.isEmpty x ∧ s.store x = storePrototype then
    assign x y
  else
    let area := Area.inside (s.store y) (s.off y) (s.length y)
    withLocker x area (lowAppend x area)

/-- `SBuf::append(const char *, size_type)`. -/
def appendArea (x : V) (area : Area) : Run V Unit := withLocker x area (lowAppend x area)

/-- `SBuf::assign(const char *, size_type)`. -/
def assignArea (x : V) (area : Area) : Run V Unit :=
  withLocker x area do
    clear x
    appendArea x area

/-- `SBuf::reserveCapacity`. -/
def reserveCapacity (x : V) (minCapacity : ℕ) : Run V Unit := do
  must (minCapacity ≤ maxSize)
  cow x minCapacity

/-- `SBuf::reserveSpace`. -/
def reserveSpace (x : V) (minSpace : ℕ) : Run V Unit := do
  must (minSpace ≤ maxSize)
  let s ← get
  must (s.length x ≤ maxSize - minSpace)
  reserveCapacity x (s.length x + minSpace)

/-- `SBufReservationRequirements`. -/
structure Requirements where
  idealSpace : UInt32 := 0
  minSpace : UInt32 := 0
  maxCapacity : UInt32 := UInt32.ofNat maxSize
  allowShared : Bool := true

/-- `SBuf::reserve`. -/
def reserve (x : V) (req : Requirements) : Run V ℕ := do
  let s ← get
  let mustRealloc := !req.allowShared && 1 < s.lockCount (s.store x)
  if mustRealloc = false ∧ req.minSpace.toNat ≤ s.spaceSize x then
    pure (s.spaceSize x) -- the caller is content with what we have
  else if mustRealloc = false ∧ req.maxCapacity.toNat ≤ s.length x then
    pure (s.spaceSize x) -- but we cannot reallocate
  else
    let desiredSpace := max req.minSpace.toNat req.idealSpace.toNat
    let newSpace := min desiredSpace (maxSize - s.length x)
    reserveCapacity x (min (s.length x + newSpace) req.maxCapacity.toNat)
    let s ← get
    pure (s.spaceSize x)

/-- `SBuf::rawAppendFinish`. -/
def rawAppendFinish (x : V) (start : ℕ × ℕ) (actualSize : ℕ) : Run V Unit := do
  let s ← get
  must ((s.store x, s.off x + s.length x) = start)
  must ((s.blob x).canAppend (s.off x + s.length x) actualSize)
  let newSize := s.length x + actualSize
  must (newSize ≤ min maxSize ((s.blob x).capacity - s.off x))
  modify (Heap.setBuf x fun buf => { buf with len := newSize })
  modify (Heap.setBlob (s.store x) fun blob => { blob with size := s.off x + newSize })

/-- `rawAppendStart(anticipatedSize)`, the bytes the caller then stores in the
space it got, and `rawAppendFinish`. -/
def rawAppend (x : V) (anticipatedSize : ℕ) (data : List UInt8) : Run V Unit := do
  let start ← rawSpace x anticipatedSize
  poke start.1 start.2 data
  rawAppendFinish x start data.length

/-- `vsnprintf(space, size, …)`, whose arguments format as `out`: what fits is
stored and closed with a zero, and the result is the length of `out`. A longer
text than an `int` can count is an error. -/
def vsnprintf (space : ℕ × ℕ) (size : ℕ) (out : List UInt8) : Run V ℕ := do
  whenever (0 < size) <|
    poke space.1 space.2 (out.take (size - 1) ++ [0])
  must (out.length < 2 ^ 31)
  pure out.length

/-- `SBuf::appendf`, for a format of `fmtLen` characters that formats as
`out`. -/
def appendf (x : V) (fmtLen : ℕ) (out : List UInt8) : Run V Unit := do
  let s ← get
  withLocker x (.inside (s.store x) (s.off x) (s.length x)) do
    let space ← rawSpace x (2 * fmtLen % 2 ^ 32)
    let s ← get
    let sz ← vsnprintf space (s.spaceSize x) out
    whenever (s.spaceSize x ≤ sz) do
      let space ← rawSpace x (sz * 2)
      let s ← get
      let _ ← vsnprintf space (s.spaceSize x) out
      pure ()
    modify (Heap.setBuf x fun buf => { buf with len := buf.len + sz })
    let s ← get
    modify (Heap.setBlob (s.store x) fun blob => { blob with size := blob.size + sz })

/-- `SBuf::setAt`. -/
def setAt (x : V) (pos : ℕ) (toset : UInt8) : Run V Unit := do
  let s ← get
  must (pos < s.length x)
  cow x npos
  let s ← get
  poke (s.store x) (s.off x + pos) [toset]

/-- `SBuf::c_str`. -/
def c_str (x : V) : Run V Unit := do
  let space ← rawSpace x 1
  poke space.1 space.2 [0]
  let s ← get
  modify (Heap.setBlob (s.store x) fun blob => { blob with size := blob.size + 1 })

/-- `SBuf::chop`. -/
def chop (x : V) (pos n : ℕ) : Run V Unit := do
  let s ← get
  let pos := if pos = npos ∨ s.length x < pos then s.length x else pos
  let n := if n = npos ∨ s.length x < add32 pos n then s.length x - pos else n
  if pos = s.length x ∨ n = 0 then
    clear x
  else
    modify (Heap.setBuf x fun buf => { buf with off := buf.off + pos, len := n })

/-- `SBuf::substr`, with the buffer `rv` for the result. -/
def substr (rv x : V) (pos n : ℕ) : Run V Unit := do
  assign rv x
  chop rv pos n

/-- `SBuf::consume`, with the buffer `rv` for the result. -/
def consume (rv x : V) (n : ℕ) : Run V Unit := do
  let s ← get
  let n := if n = npos then s.length x else min n (s.length x)
  substr rv x 0 n
  chop x n npos

/-- `memchr(toRemove.buf(), c, toRemove.length()) != nullptr`. -/
def Heap.hasChar (s : Heap V) (toRemove : V) (c : UInt8) : Bool := (s.content toRemove).contains c

/-- The loop of `SBuf::trim` at the end, for at most `fuel` bytes. -/
def trimEnd (x toRemove : V) : (fuel : ℕ) → Run V Unit
  | 0 => pure ()
  | fuel + 1 => do
    let s ← get
    whenever (s.isEmpty x = false ∧ s.hasChar toRemove (s.charAt x (s.length x - 1))) do
      modify (Heap.setBuf x fun buf => { buf with len := buf.len - 1 })
      trimEnd x toRemove fuel

/-- The loop of `SBuf::trim` at the beginning, for at most `fuel` bytes. -/
def trimBeginning (x toRemove : V) : (fuel : ℕ) → Run V Unit
  | 0 => pure ()
  | fuel + 1 => do
    let s ← get
    whenever (s.isEmpty x = false ∧ s.hasChar toRemove (s.charAt x 0)) do
      modify (Heap.setBuf x fun buf => { buf with len := buf.len - 1, off := buf.off + 1 })
      trimBeginning x toRemove fuel

/-- `SBuf::trim`. Every turn of a loop takes a byte off, so there are at most
as many as the buffer has bytes. -/
def trim (x toRemove : V) (atBeginning atEnd : Bool) : Run V Unit := do
  whenever atEnd do
    let s ← get
    trimEnd x toRemove (s.length x)
  whenever atBeginning do
    let s ← get
    trimBeginning x toRemove (s.length x)
  let s ← get
  whenever (s.isEmpty x) <|
    clear x

/-- The loop of `SBuf::toLower` and `SBuf::toUpper` from byte `j` on, for at
most `fuel` bytes. -/
def changeCase (x : V) (applies : UInt8 → Bool) (change : UInt8 → UInt8) :
    (fuel j : ℕ) → Run V Unit
  | 0, _ => pure ()
  | fuel + 1, j => do
    let s ← get
    whenever (j < s.length x) do
      whenever (applies (s.charAt x j)) <|
        setAt x j (change (s.charAt x j))
      changeCase x applies change fuel (j + 1)

/-- `SBuf::toLower`. -/
def toLower (x : V) : Run V Unit := do
  let s ← get
  changeCase x isupper tolower (s.length x) 0

/-- `SBuf::toUpper`. -/
def toUpper (x : V) : Run V Unit := do
  let s ← get
  changeCase x islower toupper (s.length x) 0

end Sbuf
