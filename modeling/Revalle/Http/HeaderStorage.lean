import Revalle.Http.HttpHeader
import Revalle.Http.RegisteredHeaders

/-!
# How a header stores its fields

`HttpHeader` keeps the fields of a message in a vector of entries. Deleting one
leaves a gap, so that the loops that look for entries can delete them on their
way. Beside the vector there are two things that could be computed from it: a bit
for each id that says whether there is an entry with it (`mask`), and the length of
the header when packed (`len`).

Assertions are told apart by what they are about, since the calls may also be
made with arguments that they do not accept. A method that an exception leaves
returns the header as it is then, and `false`.
-/

namespace HeaderStorage

open Ascii RegisteredHeaders

/-- The assertions that can fail. -/
inductive Assertion
  /-- about the arguments of the call -/
  | argument
  /-- of the interpreter of `Content-Length` values -/
  | interpreter
  /-- `assert(len >= 0)` in `delAt` -/
  | len
  /-- `assert(count)` in `delById` -/
  | count
  /-- `assert(false)` in `findEntry` and `findLastEntry` -/
  | found
  /-- `assert(foundSameName)` in `updateOrAddStr` -/
  | sameName
  deriving DecidableEq, Repr

/-- What a C string is read up to. -/
def cString (text : List UInt8) : List UInt8 := text.takeWhile (· ≠ 0)

/-- The conversion to an `int`. -/
def toInt (n : ℤ) : ℤ := n.bmod (2 ^ 32)

/-! ## Entries -/

structure HttpHeaderEntry where
  id : HdrType
  name : List UInt8
  value : List UInt8
  deriving DecidableEq, Repr

namespace HttpHeaderEntry

/-- The constructor: known fields have the name of the table. -/
def new (anId : HdrType) (aName aValue : List UInt8) : HttpHeaderEntry where
  id := anId
  name := if anId ≠ .other then (lookup anId).nameBytes else aName
  value := cString aValue

def length (e : HttpHeaderEntry) : ℕ := e.name.length + 2 + e.value.length + 2

def clone (e : HttpHeaderEntry) : HttpHeaderEntry := new e.id e.name e.value

def parse (relaxed : Bool) (msgType : Http.HdrOwner) (field : List UInt8) :
    Option HttpHeaderEntry :=
  let name := field.takeWhile (· ≠ 0x3a)
  let value := Http.trim (field.drop (name.length + 1))
  let stripped := name.rdropWhile isspace
  if 0x3a ∉ field ∨ name = [] then none
  else if 65534 < name.length then none
  -- whitespace between the name and the colon
  else if stripped ≠ name ∧ (msgType = .hoRequest ∨ ¬(msgType = .hoReply ∨ relaxed)) then none
  else if stripped = [] then none
  else if ¬stripped.all Http.tchar then none
  else if 65534 < value.length then none
  else
    let id := (lookupName stripped).id
    let id := if id = .badHdr then .other else id
    some (new id (if id = .other then stripped else (lookup id).nameBytes) value)

end HttpHeaderEntry

/-! ## The header -/

/-- `HttpHeaderMask`, a bit for each id. -/
abbrev HttpHeaderMask : Type := HdrType → Bool

namespace HttpHeaderMask

def empty : HttpHeaderMask := fun _ => false

/-- `CBIT_SET`. -/
def set (mask : HttpHeaderMask) (id : HdrType) : HttpHeaderMask := Function.update mask id true

/-- `CBIT_CLR`. -/
def clear (mask : HttpHeaderMask) (id : HdrType) : HttpHeaderMask :=
  Function.update mask id false

end HttpHeaderMask

structure HttpHeader where
  /-- the vector, with its gaps -/
  entries : List (Option HttpHeaderEntry)
  mask : HttpHeaderMask
  owner : Http.HdrOwner
  len : ℤ
  conflictingContentLength : Bool
  teUnsupported : Bool

/-- The length of the entries when packed. -/
def packedLength (entries : List (Option HttpHeaderEntry)) : ℕ :=
  (entries.reduceOption.map HttpHeaderEntry.length).sum

/-! ### The loops that delete -/

/-- What a loop changes beside the vector. -/
structure Progress where
  mask : HttpHeaderMask
  len : ℤ
  deleted : ℕ

/-- `delAt`, which also leaves a gap. -/
def delAt (e : HttpHeaderEntry) (p : Progress) : Except Assertion Progress :=
  let len := toInt (p.len - e.length)
  if len < 0 then .error .len else .ok { p with len := len, deleted := p.deleted + 1 }

/-- **A loop with `getEntry`** that calls `delAt` for some of the entries and, for
those that it deletes and keeps, changes the mask. -/
def sweep (gone : HttpHeaderEntry → Bool)
    (onGone onKept : HttpHeaderMask → HdrType → HttpHeaderMask) :
    List (Option HttpHeaderEntry) → Progress →
      Except Assertion (List (Option HttpHeaderEntry) × Progress)
  | [], p => .ok ([], p)
  | none :: es, p => do
    let (es, p) ← sweep gone onGone onKept es p
    .ok (none :: es, p)
  | some e :: es, p =>
    if gone e then do
      let p ← delAt e p
      let (es, p) ← sweep gone onGone onKept es { p with mask := onGone p.mask e.id }
      .ok (none :: es, p)
    else do
      let (es, p) ← sweep gone onGone onKept es { p with mask := onKept p.mask e.id }
      .ok (some e :: es, p)

namespace HttpHeader

def new (owner : Http.HdrOwner) : HttpHeader := ⟨[], .empty, owner, 0, false, false⟩

def clean (h : HttpHeader) : HttpHeader :=
  { h with
    entries := []
    mask := .empty
    len := 0
    conflictingContentLength := false
    teUnsupported := false }

def addEntry (h : HttpHeader) (e : HttpHeaderEntry) : Except Assertion HttpHeader :=
  if e.name = [] then .error .argument
  else .ok { h with
    entries := h.entries ++ [some e]
    mask := if e.id = .badHdr then h.mask else h.mask.set e.id
    len := toInt (h.len + e.length) }

/-- The header after a loop. -/
def swept (h : HttpHeader) (entries : List (Option HttpHeaderEntry)) (p : Progress) : HttpHeader :=
  { h with entries := entries, mask := p.mask, len := p.len }

def delByName (h : HttpHeader) (name : List UInt8) : Except Assertion (HttpHeader × ℕ) := do
  let (entries, p) ← sweep (fun e => e.name.map tolower = name.map tolower)
    (fun mask _ => mask) .set h.entries ⟨.empty, h.len, 0⟩
  .ok (h.swept entries p, p.deleted)

def delById (h : HttpHeader) (id : HdrType) : Except Assertion (HttpHeader × ℕ) :=
  if !id.registered then .error .argument
  else if !h.mask id then .ok (h, 0)
  else do
    let (entries, p) ← sweep (fun e => e.id = id) (fun mask _ => mask) (fun mask _ => mask)
      h.entries ⟨h.mask, h.len, 0⟩
    if p.deleted = 0 then .error .count
    else .ok (h.swept entries { p with mask := p.mask.clear id }, p.deleted)

def compact (h : HttpHeader) : HttpHeader := { h with entries := h.entries.filter Option.isSome }

def refreshMask (h : HttpHeader) : HttpHeader :=
  { h with mask := h.entries.reduceOption.foldl (fun mask e => mask.set e.id) .empty }

def findEntry (h : HttpHeader) (id : HdrType) : Except Assertion (Option HttpHeaderEntry) :=
  if !id.registered || (lookup id).list then .error .argument
  else if !h.mask id then .ok none
  else
    match h.entries.reduceOption.find? (fun e => e.id = id) with
    | some e => .ok (some e)
    | none => .error .found

def findLastEntry (h : HttpHeader) (id : HdrType) : Except Assertion (Option HttpHeaderEntry) :=
  if !id.registered || (lookup id).list then .error .argument
  else if !h.mask id then .ok none
  else
    match h.entries.reduceOption.reverse.find? (fun e => e.id = id) with
    | some e => .ok (some e)
    | none => .error .found

/-- `getList` of an id that is there, `none` if the string would become too long. -/
def getList (h : HttpHeader) (id : HdrType) : Option (List UInt8) :=
  (h.entries.reduceOption.filter (fun e => e.id = id)).foldlM
    (fun s e => Http.HttpHeader.strListAdd s (cString e.value)) []

/-- `append`. -/
def append (h src : HttpHeader) : Except Assertion HttpHeader :=
  src.entries.reduceOption.foldlM (fun h e => h.addEntry e.clone) h

def skipUpdateHeader (id : HdrType) : Bool := id = .vary

/-- What `update` does first with a fresh entry. -/
def delFresh (h : HttpHeader) (e : HttpHeaderEntry) : Except Assertion HttpHeader :=
  if skipUpdateHeader e.id then .ok h
  else if e.id ≠ .other then (h.delById e.id).map Prod.fst
  else (h.delByName e.name).map Prod.fst

/-- What `update` does then with a fresh entry. -/
def addFresh (h : HttpHeader) (e : HttpHeaderEntry) : Except Assertion HttpHeader :=
  if skipUpdateHeader e.id then .ok h else h.addEntry e.clone

def update (h fresh : HttpHeader) : Except Assertion HttpHeader := do
  let h ← fresh.entries.reduceOption.foldlM delFresh h
  fresh.entries.reduceOption.foldlM addFresh h

/-! ### The put methods -/

/-- Add an entry for an id that must be known and of the given type. -/
def putTyped (type : HdrFieldType) (h : HttpHeader) (id : HdrType) (text : List UInt8) :
    Except Assertion HttpHeader :=
  if !id.registered || (lookup id).type ≠ type then .error .argument
  else h.addEntry (.new id [] text)

def putInt (h : HttpHeader) (id : HdrType) (number : ℤ) : Except Assertion HttpHeader :=
  if number < 0 then .error .argument
  else h.putTyped .ftInt id (Http.HttpHeader.xint64toa number.toNat)

def putInt64 (h : HttpHeader) (id : HdrType) (number : ℤ) : Except Assertion HttpHeader :=
  if number < 0 then .error .argument
  else h.putTyped .ftInt64 id (Http.HttpHeader.xint64toa number.toNat)

/-- `putTime`, for a way to write the time. -/
def putTime (formatRfc1123 : ℤ → List UInt8) (h : HttpHeader) (id : HdrType) (htime : ℤ) :
    Except Assertion HttpHeader :=
  if htime < 0 then .error .argument else h.putTyped .ftDate1123 id (formatRfc1123 htime)

def putStr (h : HttpHeader) (id : HdrType) (str : List UInt8) : Except Assertion HttpHeader :=
  h.putTyped .ftStr id str

/-- What `putAuth` formats. -/
def authText (authScheme realm : List UInt8) : List UInt8 :=
  cString authScheme ++ " realm=\"".toUTF8.data.toList ++ cString realm ++ "\"".toUTF8.data.toList

def putAuth (h : HttpHeader) (authScheme realm : List UInt8) : Except Assertion HttpHeader :=
  h.putStr .wwwAuthenticate (authText authScheme realm)

/-- Replace the entries of an id by one with what its object is packed into. -/
def putPacked (id : HdrType) (h : HttpHeader) (packed : List UInt8) :
    Except Assertion HttpHeader := do
  let (h, _) ← h.delById id
  h.addEntry (.new id [] packed)

def putCc (h : HttpHeader) (packed : List UInt8) : Except Assertion HttpHeader :=
  putPacked .cacheControl h packed

def putContRange (h : HttpHeader) (packed : List UInt8) : Except Assertion HttpHeader :=
  putPacked .contentRange h packed

def putRange (h : HttpHeader) (packed : List UInt8) : Except Assertion HttpHeader :=
  putPacked .range h packed

def putSc (h : HttpHeader) (packed : List UInt8) : Except Assertion HttpHeader :=
  putPacked .surrogateControl h packed

def putExt (h : HttpHeader) (name value : List UInt8) : Except Assertion HttpHeader :=
  h.addEntry (.new .other (cString name) value)

/-! ### Replacing a value in place -/

/-- The loop of `updateOrAddStr`: the first entry with the id gets the value, the
others are deleted. Neither changes `len`. -/
def syncEntries (id : HdrType) (newValue : List UInt8) (foundSameName : Bool) :
    List (Option HttpHeaderEntry) → List (Option HttpHeaderEntry) × Bool
  | [] => ([], foundSameName)
  | none :: es =>
    let (es, found) := syncEntries id newValue foundSameName es
    (none :: es, found)
  | some e :: es =>
    if e.id ≠ id then
      let (es, found) := syncEntries id newValue foundSameName es
      (some e :: es, found)
    else if foundSameName then
      let (es, found) := syncEntries id newValue foundSameName es
      (none :: es, found)
    else
      let value := if cString newValue ≠ cString e.value then newValue else e.value
      let (es, found) := syncEntries id newValue true es
      (some { e with value := value } :: es, found)

/-- `String::SizeMaxXXX()`. -/
def sizeMax : ℕ := 3 * 64 * 1024 - 1

def updateOrAddStr (h : HttpHeader) (id : HdrType) (newValue : List UInt8) :
    Except Assertion (HttpHeader × Bool) :=
  if !id.registered || (lookup id).type ≠ .ftStr then .error .argument
  else if sizeMax ≤ newValue.length then .ok (h, false)
  else if !h.mask id then do
    let h ← h.addEntry (.new id [] newValue)
    .ok (h, true)
  else
    let (entries, foundSameName) := syncEntries id newValue false h.entries
    if !foundSameName then .error .sameName else .ok ({ h with entries := entries }, true)

/-! ### Fields for one hop -/

/-- The loop of `strListIsMember`, which ends before `fuel` does if there is one
unit for each byte. -/
def listHasMember (m : List UInt8) (del : UInt8) : ℕ → List UInt8 → Bool
  | 0, _ => false
  | fuel + 1, pos =>
    match Http.strListGetItem del pos with
    | none => false
    | some (item, ilen, pos) =>
      (m.map tolower == (item.take ilen).map tolower) || listHasMember m del fuel pos

def strListIsMember (list m : List UInt8) (del : UInt8) : Bool :=
  listHasMember m del (list.length + 1) list

def removeConnectionHeaderEntries (h : HttpHeader) : Except Assertion (HttpHeader × Bool) :=
  if !h.mask .connection then .ok (h, true)
  else
    match h.getList .connection with
    | none => .ok (h, false)
    | some strConnection => do
      let (entries, p) ← sweep (fun e => strListIsMember strConnection e.name 0x2c)
        (fun mask _ => mask) (fun mask _ => mask) h.entries ⟨h.mask, h.len, 0⟩
      let h := h.swept entries p
      .ok (if p.deleted = 0 then h else h.refreshMask, true)

def removeHopByHopEntries (h : HttpHeader) : Except Assertion (HttpHeader × Bool) := do
  let (h, returned) ← h.removeConnectionHeaderEntries
  if !returned then .ok (h, false)
  else
    let (entries, p) ← sweep (fun e => (lookup e.id).hopbyhop) .clear (fun mask _ => mask)
      h.entries ⟨h.mask, h.len, 0⟩
    .ok (h.swept entries p, true)

/-! ### Parsing -/

/-- What reading the fields of a block ends with. -/
inductive Reading
  | done (clen : Http.ContentLengthInterpreter)
  | rejected
  | asserted

/-- The loop over the fields: the entries that it adds, and its end. -/
def readFields (relaxed : Bool) (owner : Http.HdrOwner) :
    List (List (List UInt8)) → Http.ContentLengthInterpreter → List HttpHeaderEntry × Reading
  | [], clen => ([], .done clen)
  | lines :: fields, clen =>
    match Http.readField relaxed owner true lines with
    | none => ([], .rejected)
    | some f =>
      -- a blank line is good only as the last
      if f.text = [] then ([], if fields = [] then .done clen else .rejected)
      else
        match HttpHeaderEntry.parse relaxed owner f.text with
        | none => ([], .rejected)
        | some e =>
          if (1 < f.lines ∨ f.hasBareCr) ∧ (e.id = .contentLength ∨ e.id = .transferEncoding) then
            ([], .rejected)
          else if e.id = .contentLength then
            match clen.checkField relaxed e.value with
            | none => ([], .asserted)
            | some (good, clen) =>
              if good then
                let (es, reading) := readFields relaxed owner fields clen
                (e :: es, reading)
              else if relaxed then readFields relaxed owner fields clen
              else ([], .rejected)
          else
            let (es, reading) := readFields relaxed owner fields clen
            (e :: es, reading)

/-- What `parse` does after its loop. -/
def frame (clen : Http.ContentLengthInterpreter) (h : HttpHeader) :
    Except Assertion (HttpHeader × Bool) :=
  if clen.prohibitedAndIgnored.isSome then do
    let (h, _) ← h.delById .contentLength
    let (h, _) ← h.delById .transferEncoding
    .ok (h, true)
  else if h.mask .transferEncoding then
    match h.getList .transferEncoding with
    | none => .ok (h, false)
    | some rawTe => do
      let (h, _) ← h.delById .contentLength
      if rawTe.map tolower = "chunked".toUTF8.data.toList then .ok (h, true)
      else if rawTe.map tolower = "identity".toUTF8.data.toList then do
        let (h, _) ← h.delById .transferEncoding
        .ok (h, true)
      else .ok ({ h with teUnsupported := true }, true)
  else if clen.sawBad then do
    let (h, _) ← h.delById .contentLength
    .ok ({ h with conflictingContentLength := true }, true)
  else if clen.needsSanitizing then do
    let (h, _) ← h.delById .contentLength
    if clen.sawGood then do
      let h ← h.putInt64 .contentLength clen.value
      .ok (h, true)
    else .ok (h, true)
  else .ok (h, true)

/-- The fields of a block. -/
def readBlock (relaxed : Bool) (owner : Http.HdrOwner) (block : List UInt8)
    (clen : Http.ContentLengthInterpreter) : List HttpHeaderEntry × Reading :=
  if 0 ∈ block then ([], .rejected)
  else
    let (lines, tail) := Http.splitLines block
    let (es, reading) := readFields relaxed owner (Http.groupFields lines) clen
    -- a missing LF is noticed after what comes before it
    (es, if tail ≠ [] then .rejected else reading)

/-- `parse`, with its result unless an exception leaves it. -/
def parse (relaxed : Bool) (h : HttpHeader) (block : List UInt8)
    (clen : Http.ContentLengthInterpreter) : Except Assertion (HttpHeader × Option Bool) := do
  let (es, reading) := readBlock relaxed h.owner block clen
  let h ← es.foldlM addEntry h
  match reading with
  | .rejected => .ok (h.clean, some false)
  | .asserted => .error .interpreter
  | .done clen => do
    let (h, returned) ← h.frame clen
    .ok (h, if returned then some true else none)

end HttpHeader

/-! ## Histories -/

/-- A call on a header. -/
inductive Call
  | addEntry (e : HttpHeaderEntry)
  | putInt (id : HdrType) (number : ℤ)
  | putInt64 (id : HdrType) (number : ℤ)
  | putTime (formatRfc1123 : ℤ → List UInt8) (id : HdrType) (htime : ℤ)
  | putStr (id : HdrType) (str : List UInt8)
  | putAuth (authScheme realm : List UInt8)
  | putCc (packed : List UInt8)
  | putContRange (packed : List UInt8)
  | putRange (packed : List UInt8)
  | putSc (packed : List UInt8)
  | putExt (name value : List UInt8)
  | delById (id : HdrType)
  | delByName (name : List UInt8)
  | update (fresh : HttpHeader)
  | append (src : HttpHeader)
  | updateOrAddStr (id : HdrType) (newValue : List UInt8)
  | removeHopByHopEntries
  | removeConnectionHeaderEntries
  | compact
  | clean
  | parse (relaxed : Bool) (block : List UInt8) (clen : Http.ContentLengthInterpreter)
  | findEntry (id : HdrType)
  | findLastEntry (id : HdrType)

/-- The header after a call. -/
def Call.run (h : HttpHeader) : Call → Except Assertion HttpHeader
  | .addEntry e => h.addEntry e
  | .putInt id number => h.putInt id number
  | .putInt64 id number => h.putInt64 id number
  | .putTime formatRfc1123 id htime => h.putTime formatRfc1123 id htime
  | .putStr id str => h.putStr id str
  | .putAuth authScheme realm => h.putAuth authScheme realm
  | .putCc packed => h.putCc packed
  | .putContRange packed => h.putContRange packed
  | .putRange packed => h.putRange packed
  | .putSc packed => h.putSc packed
  | .putExt name value => h.putExt name value
  | .delById id => (h.delById id).map Prod.fst
  | .delByName name => (h.delByName name).map Prod.fst
  | .update fresh => h.update fresh
  | .append src => h.append src
  | .updateOrAddStr id newValue => (h.updateOrAddStr id newValue).map Prod.fst
  | .removeHopByHopEntries => h.removeHopByHopEntries.map Prod.fst
  | .removeConnectionHeaderEntries => h.removeConnectionHeaderEntries.map Prod.fst
  | .compact => .ok h.compact
  | .clean => .ok h.clean
  | .parse relaxed block clen => (h.parse relaxed block clen).map Prod.fst
  | .findEntry id => (h.findEntry id).map (fun _ => h)
  | .findLastEntry id => (h.findLastEntry id).map (fun _ => h)

/-- The header after a history, which ends with the first assertion that fails. -/
def runCalls (owner : Http.HdrOwner) (calls : List Call) : Except Assertion HttpHeader :=
  calls.foldlM Call.run (HttpHeader.new owner)

end HeaderStorage
