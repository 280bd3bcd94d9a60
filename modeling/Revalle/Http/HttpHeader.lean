import Revalle.Http.ContentLengthInterpreter

/-!
# Parsing a header block

`HttpHeader::parse` splits a block into fields, each a line with its
continuation lines, and hands every `Content-Length` to the interpreter as it
goes. Only when all fields are stored does it decide which of the framing
fields stay.

Failures are final: whatever goes wrong, the header is cleaned and the result
is zero. So the block may be cut into lines before any of them is looked at.
-/

namespace Http

open Ascii

/-- `http_hdr_owner_type`, the owners that a header can have. -/
inductive HdrOwner
  | hoHtcpReply
  | hoRequest
  | hoReply
  | hoErrorDetail
  deriving DecidableEq, Repr

/-- `Http::HdrType`. The fields that are not about framing are parsed alike,
known or not; all of them are `other`. -/
inductive HdrType
  | contentLength
  | transferEncoding
  | other
  deriving DecidableEq, Repr

/-- `HeaderLookupTable.lookup`, which ignores case. -/
def HdrType.lookup (name : List UInt8) : HdrType :=
  let name := name.map tolower
  if name = "content-length".toUTF8.data.toList then .contentLength
  else if name = "transfer-encoding".toUTF8.data.toList then .transferEncoding
  else .other

structure HttpHeaderEntry where
  id : HdrType
  value : List UInt8
  deriving DecidableEq, Repr

/-- `CharacterSet::TCHAR`. -/
def tchar (c : UInt8) : Bool :=
  isdigit c || isupper c || islower c ||
    c ∈ ([0x21, 0x23, 0x24, 0x25, 0x26, 0x27, 0x2a, 0x2b, 0x2d, 0x2e, 0x5e, 0x5f, 0x60, 0x7c,
      0x7e] : List UInt8)

def trim (text : List UInt8) : List UInt8 := (text.dropWhile isspace).rdropWhile isspace

namespace HttpHeaderEntry

def parse (relaxed : Bool) (msgType : HdrOwner) (field : List UInt8) : Option HttpHeaderEntry :=
  let name := field.takeWhile (· ≠ 0x3a)
  let value := trim (field.drop (name.length + 1))
  let stripped := name.rdropWhile isspace
  if 0x3a ∉ field ∨ name = [] then none
  else if 65534 < name.length then none
  -- whitespace between the name and the colon
  else if stripped ≠ name ∧ (msgType = .hoRequest ∨ ¬(msgType = .hoReply ∨ relaxed)) then none
  else if stripped = [] then none
  else if ¬stripped.all tchar then none
  else if 65534 < value.length then none
  else some ⟨HdrType.lookup stripped, value⟩

def getInt64 (e : HttpHeaderEntry) : ℤ :=
  match httpHeaderParseOffset e.value with
  | some (val, _) => val
  | none => -1

end HttpHeaderEntry

/-! ## Lines and fields -/

/-- The lines of a block, without their line feeds, and what follows the last
line feed. -/
def splitLines : List UInt8 → List (List UInt8) × List UInt8
  | [] => ([], [])
  | c :: cs =>
    let (lines, tail) := splitLines cs
    if c = 0x0a then ([] :: lines, tail)
    else
      match lines with
      | [] => ([], c :: tail)
      | line :: lines => ((c :: line) :: lines, tail)

/-- Whether a line goes on with the field of the line before. -/
def continues (line : List UInt8) : Bool :=
  match line with
  | [] => false
  | c :: _ => c == 0x20 || c == 0x09

/-- The lines of each field. -/
def groupFields : List (List UInt8) → List (List (List UInt8))
  | [] => []
  | line :: lines =>
    match lines, groupFields lines with
    | next :: _, field :: fields =>
      if continues next then (line :: field) :: fields else [line] :: field :: fields
    | _, fields => [line] :: fields

/-- A line of a field after the checks that are made of it. -/
structure Line where
  /-- from the start of the line to `field_end`, with spaces for bare CRs -/
  text : List UInt8
  /-- from `field_end` to the next line -/
  ending : List UInt8
  hasBareCr : Bool

def checkLine (relaxed : Bool) (owner : HdrOwner) (first : Bool) (line : List UInt8) :
    Option Line :=
  let crlf := line.getLast? = some 0x0d
  let text := if crlf then line.dropLast else line
  if crlf ∧ owner = .hoRequest ∧ text ≠ [] ∧ text.all (· == 0x0d) then none
  else if 0x0d ∈ text ∧ ¬relaxed then none
  -- a blank continuation line
  else if text.length = 1 ∧ ¬first then none
  else some
    { text := text.map fun c => if c = 0x0d then 0x20 else c
      ending := if crlf then [0x0d, 0x0a] else [0x0a]
      hasBareCr := 0x0d ∈ text }

/-- A field, up to `field_end` of its last line. -/
structure Field where
  text : List UInt8
  lines : ℕ
  hasBareCr : Bool

def readField (relaxed : Bool) (owner : HdrOwner) :
    Bool → List (List UInt8) → Option Field
  | _, [] => some ⟨[], 0, false⟩
  | first, line :: lines => do
    let l ← checkLine relaxed owner first line
    let f ← readField relaxed owner false lines
    return ⟨if lines = [] then l.text else l.text ++ l.ending ++ f.text, f.lines + 1,
      l.hasBareCr || f.hasBareCr⟩

/-! ## The header -/

structure HttpHeader where
  entries : List HttpHeaderEntry := []
  conflictingContentLength : Bool := false
  teUnsupported : Bool := false
  deriving DecidableEq, Repr

namespace HttpHeader

/-- The entries of one kind. -/
def only (hdr : HttpHeader) (id : HdrType) : List HttpHeaderEntry :=
  hdr.entries.filter (·.id = id)

/-- The bit of `mask`, which `addEntry` sets and `delById` clears. -/
def has (hdr : HttpHeader) (id : HdrType) : Bool := hdr.entries.any (·.id = id)

def addEntry (hdr : HttpHeader) (e : HttpHeaderEntry) : HttpHeader :=
  { hdr with entries := hdr.entries ++ [e] }

def delById (hdr : HttpHeader) (id : HdrType) : HttpHeader :=
  { hdr with entries := hdr.entries.filter (·.id ≠ id) }

/-- `snprintf` with `PRId64`, of a number that is not negative. -/
def xint64toa (n : ℕ) : List UInt8 := (Nat.toDigits 10 n).map fun c => c.toNat.toUInt8

/-- `none` if the assertion fails. -/
def putInt64 (hdr : HttpHeader) (id : HdrType) (number : ℤ) : Option HttpHeader :=
  if 0 ≤ number then some (hdr.addEntry ⟨id, xint64toa number.toNat⟩) else none

/-- `String::canGrowBy` of a string of the given size. -/
def canGrowBy (size growthLen : ℕ) : Bool := size + growthLen + 1 ≤ 3 * 64 * 1024 - 1

/-- `none` if the string would become too long. -/
def strListAdd (str item : List UInt8) : Option (List UInt8) :=
  let separator : List UInt8 := if str = [] then [] else [0x2c, 0x20]
  if canGrowBy str.length separator.length ∧
      canGrowBy (str.length + separator.length) item.length then
    some (str ++ separator ++ item)
  else none

def getList (hdr : HttpHeader) (id : HdrType) : Option (List UInt8) :=
  (hdr.only id).foldlM (fun s e => strListAdd s e.value) []

/-- A field of the block: the interpreter and the header after it. -/
def parseField (relaxed : Bool) (owner : HdrOwner) (lines : List (List UInt8))
    (clen : ContentLengthInterpreter) (hdr : HttpHeader) :
    Option (ContentLengthInterpreter × HttpHeader) := do
  let f ← readField relaxed owner true lines
  let e ← HttpHeaderEntry.parse relaxed owner f.text
  if (1 < f.lines ∨ f.hasBareCr) ∧ e.id ≠ .other then none
  else if e.id = .contentLength then
    let (good, clen) ← clen.checkField relaxed e.value
    if good then some (clen, hdr.addEntry e)
    else if relaxed then some (clen, hdr)
    else none
  else some (clen, hdr.addEntry e)

/-- Whether the lines are the blank line that ends a block. -/
def isBlank (relaxed : Bool) (owner : HdrOwner) (lines : List (List UInt8)) : Bool :=
  match readField relaxed owner true lines with
  | some f => f.text = []
  | none => false

/-- The loop over the fields. A blank line is good only as the last. -/
def parseFields (relaxed : Bool) (owner : HdrOwner) :
    List (List (List UInt8)) → ContentLengthInterpreter → HttpHeader →
      Option (ContentLengthInterpreter × HttpHeader)
  | [], clen, hdr => some (clen, hdr)
  | lines :: fields, clen, hdr =>
    if isBlank relaxed owner lines then
      if fields = [] then some (clen, hdr) else none
    else do
      let (clen, hdr) ← parseField relaxed owner lines clen hdr
      parseFields relaxed owner fields clen hdr

/-- What `parse` does after its loop. -/
def frame (clen : ContentLengthInterpreter) (hdr : HttpHeader) : Option HttpHeader :=
  if clen.prohibitedAndIgnored.isSome then
    some ((hdr.delById .contentLength).delById .transferEncoding)
  else if hdr.has .transferEncoding then do
    let rawTe ← hdr.getList .transferEncoding
    let hdr := hdr.delById .contentLength
    if rawTe.map tolower = "chunked".toUTF8.data.toList then some hdr
    else if rawTe.map tolower = "identity".toUTF8.data.toList then
      some (hdr.delById .transferEncoding)
    else some { hdr with teUnsupported := true }
  else if clen.sawBad then
    some { hdr.delById .contentLength with conflictingContentLength := true }
  else if clen.needsSanitizing then
    let hdr := hdr.delById .contentLength
    if clen.sawGood then hdr.putInt64 .contentLength clen.value else some hdr
  else some hdr

/-- `HttpHeader::parse` of a new header, `none` unless it succeeds. -/
def parse (relaxed : Bool) (owner : HdrOwner) (block : List UInt8)
    (clen : ContentLengthInterpreter) : Option HttpHeader :=
  if 0 ∈ block then none
  -- no path through the loop gets past a missing LF
  else if (splitLines block).2 ≠ [] then none
  else do
    let (clen, hdr) ← parseFields relaxed owner (groupFields (splitLines block).1) clen {}
    frame clen hdr

end HttpHeader

end Http
