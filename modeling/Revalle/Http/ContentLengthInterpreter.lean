import Revalle.Data.Ascii

/-!
# Finding the intended Content-Length

`ContentLengthInterpreter` reads the `Content-Length` fields of a message one
after the other, with their lists, and keeps the number that they agree on. A
string is the list of its bytes; a pointer into a string is what follows it up
to the terminating zero, so that `strtoll` may read beyond the item it is
given, as it does in the source.
-/

namespace Http

open Ascii

section

variable (relaxed : Bool)

def relaxedDelimiterCharacters (c : UInt8) : Bool :=
  c == 0x20 || c == 0x09 || c == 0x0b || c == 0x0c || c == 0x0d

def whitespaceCharacters (c : UInt8) : Bool :=
  if relaxed then relaxedDelimiterCharacters c else c == 0x20 || c == 0x09

def delimiterCharacters (c : UInt8) : Bool :=
  if relaxed then relaxedDelimiterCharacters c else c == 0x20

end

/-! ## Numbers -/

/-- The number that a string of digits stands for. -/
def digitsValue (digits : List UInt8) : ℕ :=
  digits.foldl (fun n c => 10 * n + (c.toNat - 0x30)) 0

/-- The sign that `strtoll` reads: whether it is a minus, and what follows. -/
def readSign : List UInt8 → Bool × List UInt8
  | [] => (false, [])
  | c :: cs => if c = 0x2d then (true, cs) else if c = 0x2b then (false, cs) else (false, c :: cs)

/-- `strtoll` for base ten: its result, whether it sets `ERANGE`, and what
follows the number. -/
def strtoll (start : List UInt8) : ℤ × Bool × List UInt8 :=
  let (negative, text) := readSign (start.dropWhile isspace)
  let digits := text.takeWhile isdigit
  let rest := text.dropWhile isdigit
  let res : ℤ := if negative then -digitsValue digits else digitsValue digits
  if digits = [] then (0, false, start)
  else if 2 ^ 63 ≤ res then (2 ^ 63 - 1, true, rest)
  else if res < -2 ^ 63 then (-2 ^ 63, true, rest)
  else (res, false, rest)

/-- The offset and what follows it, unless it is malformed or huge. -/
def httpHeaderParseOffset (start : List UInt8) : Option (ℤ × List UInt8) :=
  let (res, erange, rest) := strtoll start
  if erange ∧ res = 0 then none
  else if erange ∧ (res = -2 ^ 63 ∨ res = 2 ^ 63 - 1) then none
  else if rest.length = start.length then none
  else some (res, rest)

/-! ## Lists -/

/-- The search for the delimiter that ends an item, from `pos` on. -/
def skipItem (del : UInt8) : Bool → List UInt8 → List UInt8
  | _, [] => []
  | false, c :: cs =>
    if c = 0x22 then skipItem del true cs
    else if c = del ∨ c = 0x2c then c :: cs
    else skipItem del false cs
  | true, [c] => if c = 0x22 then skipItem del false [] else []
  | true, c :: d :: cs =>
    if c = 0x22 then skipItem del false (d :: cs)
    -- a quoted pair
    else if c = 0x5c then skipItem del true cs
    else skipItem del true (d :: cs)

/-- The characters before an item that are skipped. -/
def itemDelimiter (del c : UInt8) : Bool :=
  c == 0x20 || c == del || c == 0x2c || c == 0x09 || c == 0x0d || c == 0x0a

/-- The text from the next item on, the length of the item, and the position
behind it. -/
def strListGetItem (del : UInt8) (pos : List UInt8) :
    Option (List UInt8 × ℕ × List UInt8) :=
  let item := pos.dropWhile (itemDelimiter del)
  let pos := skipItem del false item
  let len := ((item.take (item.length - pos.length)).rdropWhile isspace).length
  if 0 < len then some (item, len, pos) else none

/-! ## The interpreter -/

inductive HeaderWideProblem
  | duplicate
  | conflicting
  deriving DecidableEq, Repr

structure ContentLengthInterpreter where
  value : ℤ := -1
  headerWideProblem : Option HeaderWideProblem := none
  sawBad : Bool := false
  needsSanitizing : Bool := false
  sawGood : Bool := false
  prohibitedAndIgnored : Option String := none
  deriving DecidableEq, Repr

namespace ContentLengthInterpreter

variable (relaxed : Bool)

/-- The start of the digits and the number of characters from there to the end
of the value. -/
def findDigits : List UInt8 → ℕ → Option (List UInt8 × ℕ)
  | [], _ => none
  | _ :: _, 0 => none
  | c :: cs, n + 1 =>
    if isdigit c then some (c :: cs, n + 1)
    else if whitespaceCharacters relaxed c then findDigits cs n
    else none

def goodSuffix (suffix : List UInt8) (n : ℕ) : Bool :=
  (suffix.take n).all (delimiterCharacters relaxed)

/-- What `checkValue` does with a well-formed number. -/
def checkLatest (clen : ContentLengthInterpreter) (latestValue : ℤ) :
    Bool × ContentLengthInterpreter :=
  if clen.sawGood then
    let conflicting := clen.value ≠ latestValue
    (false, { clen with
      needsSanitizing := true
      headerWideProblem :=
        if conflicting then some .conflicting
        else clen.headerWideProblem.or (some .duplicate)
      sawBad := !relaxed || conflicting })
  else (true, { clen with sawGood := true, value := latestValue })

/-- `none` if an assertion fails. -/
def checkValue (clen : ContentLengthInterpreter) (rawValue : List UInt8) (valueSize : ℕ) :
    Option (Bool × ContentLengthInterpreter) :=
  if clen.sawBad then none
  else some <|
    match findDigits relaxed rawValue valueSize with
    | none => (false, { clen with sawBad := true })
    | some (digits, n) =>
      match httpHeaderParseOffset digits with
      | none => (false, { clen with sawBad := true })
      | some (latestValue, suffix) =>
        if latestValue < 0 then (false, { clen with sawBad := true })
        else if goodSuffix relaxed suffix (n - (digits.length - suffix.length)) then
          clen.checkLatest relaxed latestValue
        else (false, { clen with sawBad := true })

/-- The loop of `checkList`; `none` also if `fuel` runs out. -/
def checkItems : ℕ → ContentLengthInterpreter → List UInt8 → Option ContentLengthInterpreter
  | 0, _, _ => none
  | fuel + 1, clen, pos =>
    match strListGetItem 0x2c pos with
    | none => some clen
    | some (item, ilen, pos) =>
      match clen.checkValue relaxed item ilen with
      | none => none
      | some (good, clen) =>
        -- keep going after a duplicate value to find conflicting ones
        if !good && clen.sawBad then some clen else checkItems fuel clen pos

def checkList (clen : ContentLengthInterpreter) (list : List UInt8) :
    Option (Bool × ContentLengthInterpreter) :=
  if clen.sawBad then none
  else if !relaxed then some (false, { clen with sawBad := true })
  else (checkItems relaxed (list.length + 1) { clen with needsSanitizing := true } list).map
    (false, ·)

/-- Whether the field is to be remembered. -/
def checkField (clen : ContentLengthInterpreter) (rawValue : List UInt8) :
    Option (Bool × ContentLengthInterpreter) :=
  if clen.sawBad then some (false, clen)
  else if 0x2c ∈ rawValue then clen.checkList relaxed rawValue
  else clen.checkValue relaxed rawValue rawValue.length

end ContentLengthInterpreter

end Http
