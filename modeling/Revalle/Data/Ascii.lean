import Mathlib

/-!
# ASCII characters

The functions of `ctype.h` in the C locale, on bytes.
-/

namespace Ascii

def isupper (c : UInt8) : Bool := 0x41 ≤ c && c ≤ 0x5a

def islower (c : UInt8) : Bool := 0x61 ≤ c && c ≤ 0x7a

def tolower (c : UInt8) : UInt8 := if isupper c then c + 0x20 else c

def toupper (c : UInt8) : UInt8 := if islower c then c - 0x20 else c

def isdigit (c : UInt8) : Bool := 0x30 ≤ c && c ≤ 0x39

def isspace (c : UInt8) : Bool := c == 0x20 || 0x09 ≤ c && c ≤ 0x0d

theorem not_isdigit_of_isspace {c : UInt8} (h : isspace c) : isdigit c = false := by
  simp only [isspace, isdigit, Bool.or_eq_true, Bool.and_eq_true, beq_iff_eq, decide_eq_true_eq,
    UInt8.le_iff_toNat_le, Bool.and_eq_false_iff, decide_eq_false_iff_not] at h ⊢
  rcases h with rfl | ⟨-, h⟩
  · exact .inl (by decide)
  · have h1 : c.toNat ≤ 13 := h
    exact .inl fun h2 : 48 ≤ c.toNat => by omega

end Ascii
