import Mathlib

/-!
# IP addresses and their order

All addresses are IPv6 addresses; those of IPv4 are mapped into them. They are
compared byte by byte, which is the order of the numbers they stand for. The
operators `<`, `<=`, `>` and `>=` are something else: for them the unspecified
addresses come before all others, and the addresses of all ones after, those
of IPv4 included.
-/

namespace Ip

open BitVec Nat

/-- The sixteen bytes of an IPv6 address, or of an IPv4 address mapped into
IPv6, most significant first. -/
abbrev Address : Type := BitVec 128

namespace Address

/-- `::`. -/
def anyAddr : Address := 0

/-- `::ffff:0.0.0.0`. -/
def v4_anyaddr : Address := 0xffff00000000

/-- All ones. -/
def v6_noaddr : Address := BitVec.allOnes 128

/-- `::ffff:255.255.255.255`. -/
def v4_noaddr : Address := 0xffffffffffff

/-- `IN6_IS_ADDR_V4MAPPED`. -/
def isIPv4 (a : Address) : Bool := a >>> 32 = 0xffff

def isAnyAddr (a : Address) : Bool := a = anyAddr || a = v4_anyaddr

def isNoAddr (a : Address) : Bool := a = v6_noaddr || a = v4_noaddr

def applyMask (a mask : Address) : Address := a &&& mask

def turnMaskedBitsOn (a mask : Address) : Address := a ||| ~~~mask

/-- A byte of the address, counted from the last one. -/
def byte (a : Address) (k : ℕ) : ℕ := a.toNat / 256 ^ k % 256

/-- The comparison of the last `k` bytes, from left to right. -/
def matchBytes (l r : Address) : (k : ℕ) → ℤ
  | 0 => 0
  | k + 1 =>
    if l.byte k < r.byte k then -1
    else if r.byte k < l.byte k then 1
    else matchBytes l r k

/-- `Ip::Address::matchIPAddr`. -/
def matchIPAddr (l r : Address) : ℤ := matchBytes l r 16

/-- `operator <`. -/
def lt (l r : Address) : Bool := if l.isAnyAddr && !r.isAnyAddr then true else l.matchIPAddr r < 0

/-- `operator <=`. -/
def le (l r : Address) : Bool := if l.isAnyAddr && !r.isAnyAddr then true else l.matchIPAddr r ≤ 0

/-- `operator >`. -/
def gt (l r : Address) : Bool := if l.isNoAddr && !r.isNoAddr then true else 0 < l.matchIPAddr r

/-- `operator >=`. -/
def ge (l r : Address) : Bool := if l.isNoAddr && !r.isNoAddr then true else 0 ≤ l.matchIPAddr r

/-! ## Addresses as numbers -/

theorem matchBytes_spec (l r : Address) (k : ℕ) :
    (matchBytes l r k < 0 ↔ l.toNat % 256 ^ k < r.toNat % 256 ^ k) ∧
      (0 < matchBytes l r k ↔ r.toNat % 256 ^ k < l.toNat % 256 ^ k) := by
  induction k with
  | zero => simp [matchBytes, mod_one]
  | succ k ih =>
    have hstep : ∀ {m n : ℕ}, m < n → m * 256 ^ k + 256 ^ k ≤ n * 256 ^ k := by
      intro m n h
      calc m * 256 ^ k + 256 ^ k = (m + 1) * 256 ^ k := (succ_mul m _).symm
        _ ≤ n * 256 ^ k := mul_le_mul_right _ h
    rw [mod_pow_succ, mod_pow_succ, matchBytes]
    have hbl : l.toNat / 256 ^ k % 256 = l.byte k := rfl
    have hbr : r.toNat / 256 ^ k % 256 = r.byte k := rfl
    rw [hbl, hbr, mul_comm, mul_comm (256 ^ k) (r.byte k)]
    rcases Nat.lt_trichotomy (l.byte k) (r.byte k) with h | h | h
    · have := hstep h
      omega
    · rw [h, if_neg (lt_irrefl _), if_neg (lt_irrefl _), ih.1, ih.2]
      omega
    · have := hstep h
      omega

/-- **Byte by byte is number by number.** -/
theorem matchIPAddr_neg {l r : Address} : l.matchIPAddr r < 0 ↔ l.toNat < r.toNat := by
  have h := (matchBytes_spec l r 16).1
  rwa [show 256 ^ 16 = 2 ^ 128 from rfl, mod_eq_of_lt l.isLt, mod_eq_of_lt r.isLt] at h

theorem matchIPAddr_pos {l r : Address} : 0 < l.matchIPAddr r ↔ r.toNat < l.toNat := by
  have h := (matchBytes_spec l r 16).2
  rwa [show 256 ^ 16 = 2 ^ 128 from rfl, mod_eq_of_lt l.isLt, mod_eq_of_lt r.isLt] at h

/-! ## Masks -/

/-- The mask of a network with `k` host bits. -/
def prefixMask (k : ℕ) : Address := BitVec.allOnes 128 <<< k

theorem and_allOnes_shiftLeft {w : ℕ} (a : BitVec w) (k : ℕ) :
    a &&& (allOnes w <<< k) = (a >>> k) <<< k := by
  ext i hi
  by_cases hik : i < k
  · simp [hik]
  · have : k + (i - k) = i := by omega
    simp [hik, this, getLsbD_eq_getElem hi]

theorem toNat_applyMask (a : Address) (k : ℕ) :
    (a.applyMask (prefixMask k)).toNat = a.toNat / 2 ^ k * 2 ^ k := by
  rw [applyMask, prefixMask, and_allOnes_shiftLeft, toNat_shiftLeft,
    toNat_ushiftRight, Nat.shiftLeft_eq, Nat.shiftRight_eq_div_pow]
  exact Nat.mod_eq_of_lt (lt_of_le_of_lt (Nat.div_mul_le_self _ _) a.isLt)

/-- A network ends before the next one begins. -/
theorem div_mul_add_le (a : Address) {k : ℕ} (hk : k ≤ 128) :
    a.toNat / 2 ^ k * 2 ^ k + 2 ^ k ≤ 2 ^ 128 := by
  have hmul : 2 ^ 128 / 2 ^ k * 2 ^ k = 2 ^ 128 := Nat.div_mul_cancel (Nat.pow_dvd_pow 2 hk)
  have hlt : a.toNat / 2 ^ k < 2 ^ 128 / 2 ^ k := by
    rw [Nat.div_lt_iff_lt_mul (Nat.pow_pos (by decide)), hmul]
    exact a.isLt
  calc a.toNat / 2 ^ k * 2 ^ k + 2 ^ k = (a.toNat / 2 ^ k + 1) * 2 ^ k := (succ_mul _ _).symm
    _ ≤ 2 ^ 128 / 2 ^ k * 2 ^ k := mul_le_mul_right _ hlt
    _ = 2 ^ 128 := hmul

theorem toNat_not_prefixMask {k : ℕ} (hk : k ≤ 128) : (~~~prefixMask k).toNat = 2 ^ k - 1 := by
  have h := toNat_applyMask v6_noaddr k
  have hle := div_mul_add_le v6_noaddr hk
  have hmod := div_add_mod' v6_noaddr.toNat (2 ^ k)
  have hall : v6_noaddr.toNat = 2 ^ 128 - 1 := rfl
  rw [applyMask, v6_noaddr, allOnes_and] at h
  rw [toNat_not, h]
  show 2 ^ 128 - 1 - v6_noaddr.toNat / 2 ^ k * 2 ^ k = 2 ^ k - 1
  omega

theorem toNat_turnMaskedBitsOn (a : Address) {k : ℕ} (hk : k ≤ 128) :
    (a.turnMaskedBitsOn (prefixMask k)).toNat = a.toNat / 2 ^ k * 2 ^ k + (2 ^ k - 1) := by
  have hsplit : a.turnMaskedBitsOn (prefixMask k)
      = a.applyMask (prefixMask k) ||| ~~~prefixMask k := by
    unfold turnMaskedBitsOn applyMask
    ext i hi
    simp only [getElem_or, getElem_and, getElem_not]
    cases a[i] <;> cases (prefixMask k)[i] <;> rfl
  have hdisj : a.applyMask (prefixMask k) &&& ~~~prefixMask k = 0#128 := by
    unfold applyMask
    ext i hi
    simp only [getElem_and, getElem_not, getElem_zero]
    cases a[i] <;> cases (prefixMask k)[i] <;> rfl
  rw [hsplit, ← add_eq_or_of_and_eq_zero _ _ hdisj, toNat_add, toNat_applyMask,
    toNat_not_prefixMask hk]
  have hle := div_mul_add_le a hk
  have hpos : 0 < 2 ^ k := Nat.pow_pos (by decide)
  omega

end Address

end Ip
