import Revalle.Ipc.Mem.PageStack

/-!
# The values of the nodes of a set of identifiers

An inner node is one 64-bit integer that packs two counters, and a leaf is
one that is read as a set of bits. The operations change them with plain
arithmetic – an addition for one counter, `x & (x - 1)` for the lowest bit –
and this module says what that arithmetic does to the counters and to the
set.
-/

namespace Ipc.Mem

open Finset Nat UInt64

/-! ## Counters -/

/-- A counter of an inner node. -/
def counterOf (v : UInt64) : Direction → ℕ
  | .left => v.toNat / 2 ^ 32
  | .right => v.toNat % 2 ^ 32

namespace IdSetInnerNode

theorem toNat_unpack_left (v : UInt64) : (Unpack v).left.toNat = counterOf v .left := by
  show ((v >>> 32).toUInt32).toNat = v.toNat / 2 ^ 32
  have := v.toNat_lt
  show v.toNat >>> 32 % 2 ^ 32 = _
  omega

theorem toNat_unpack_right (v : UInt64) : (Unpack v).right.toNat = counterOf v .right := by
  show (v.toUInt32).toNat = v.toNat % 2 ^ 32
  rw [toNat_toUInt32]

section

variable (n : IdSetInnerNode)
include n

/-- A packed node is a number with two digits. -/
theorem toNat_pack : n.pack.toNat = n.left.toNat * 2 ^ 32 + n.right.toNat := by
  have hl := n.left.toNat_lt
  have hr := n.right.toNat_lt
  show n.left.toNat <<< 32 % 2 ^ 64 ||| n.right.toNat = _
  rw [mod_eq_of_lt (by omega), ← shiftLeft_add_eq_or_of_lt hr, shiftLeft_eq]

theorem counterOf_pack_left : counterOf n.pack .left = n.left.toNat := by
  have hr := n.right.toNat_lt
  show n.pack.toNat / 2 ^ 32 = _
  rw [toNat_pack]
  omega

theorem counterOf_pack_right : counterOf n.pack .right = n.right.toNat := by
  have hr := n.right.toNat_lt
  show n.pack.toNat % 2 ^ 32 = _
  rw [toNat_pack]
  omega

theorem unpack_pack : Unpack n.pack = n := by
  have hl : (Unpack n.pack).left = n.left :=
    UInt32.toNat_inj.mp ((toNat_unpack_left _).trans (counterOf_pack_left n))
  have hr : (Unpack n.pack).right = n.right :=
    UInt32.toNat_inj.mp ((toNat_unpack_right _).trans (counterOf_pack_right n))
  cases n
  exact IdSetInnerNode.mk.injEq .. ▸ ⟨hl, hr⟩

end

theorem toNat_sub_one {a : UInt32} (ha : a ≠ 0) : (a - 1).toNat + 1 = a.toNat := by
  have hpos : 1 ≤ a.toNat := Nat.pos_of_ne_zero fun h => ha (UInt32.toNat_inj.mp h)
  rw [UInt32.toNat_sub_of_le _ _ (UInt32.le_iff_toNat_le.mpr (by rwa [UInt32.toNat_one])),
    UInt32.toNat_one, Nat.sub_add_cancel hpos]

/-- Taking one off the left counter. -/
theorem counterOf_sub_left {v : UInt64} (h : (Unpack v).left ≠ 0) (d : Direction) :
    counterOf (pack { Unpack v with left := (Unpack v).left - 1 }) d
      + (if d = .left then 1 else 0) = counterOf v d := by
  cases d with
  | left =>
    rw [counterOf_pack_left, if_pos rfl, toNat_sub_one h, toNat_unpack_left]
  | right => rw [counterOf_pack_right, if_neg nofun, toNat_unpack_right, add_zero]

/-- Taking one off the right counter. -/
theorem counterOf_sub_right {v : UInt64} (h : (Unpack v).right ≠ 0) (d : Direction) :
    counterOf (pack { Unpack v with right := (Unpack v).right - 1 }) d
      + (if d = .right then 1 else 0) = counterOf v d := by
  cases d with
  | left => rw [counterOf_pack_left, if_neg nofun, toNat_unpack_left, add_zero]
  | right =>
    rw [counterOf_pack_right, if_pos rfl, toNat_sub_one h, toNat_unpack_right]

/-- What `innerPush` adds for a direction. -/
def increment (dir : Direction) : UInt64 :=
  pack ⟨if dir = .left then 1 else 0, if dir = .right then 1 else 0⟩

theorem toNat_increment (dir : Direction) :
    (increment dir).toNat = if dir = .left then 2 ^ 32 else 1 := by
  cases dir <;> rfl

/-- Adding to a counter with room leaves the other one alone and does not
overflow. -/
theorem counterOf_add_increment {v : UInt64} {dir : Direction} (h : counterOf v dir + 1 < 2 ^ 32) :
    v ≤ 0 - 1 - increment dir
      ∧ ∀ d, counterOf (v + increment dir) d = counterOf v d + if d = dir then 1 else 0 := by
  have hv := v.toNat_lt
  have hsum : v.toNat + (increment dir).toNat < 2 ^ 64 := by
    rw [toNat_increment]
    cases dir with
    | left =>
      simp only [counterOf] at h
      rw [if_pos rfl]
      omega
    | right =>
      simp only [counterOf] at h
      rw [if_neg (by decide)]
      omega
  have hadd : (v + increment dir).toNat = v.toNat + (increment dir).toNat := by
    rw [UInt64.toNat_add, mod_eq_of_lt hsum]
  constructor
  · rw [UInt64.le_iff_toNat_le, UInt64.toNat_sub_of_le]
    · rw [show (0 - 1 : UInt64).toNat = 2 ^ 64 - 1 from rfl]
      omega
    · cases dir <;> decide
  · intro d
    cases dir <;> cases d <;>
      simp only [counterOf, hadd, toNat_increment, reduceCtorEq, if_true, if_false] at h ⊢ <;>
      omega

end IdSetInnerNode

/-! ## Bitsets -/

/-- The identifiers of a leaf, as numbers below 64. -/
def bits (v : UInt64) : Finset ℕ := (Finset.range 64).filter (v.toNat.testBit ·)

theorem mem_bits {v : UInt64} {i : ℕ} : i ∈ bits v ↔ v.toNat.testBit i = true := by
  rw [bits, mem_filter, mem_range, and_iff_right_iff_imp]
  intro h
  exact Nat.lt_of_not_le fun hle =>
    absurd (Nat.testBit_lt_two_pow (v.toNat_lt.trans_le (Nat.pow_le_pow_right Nat.two_pos hle)))
      (by rw [h]; exact Bool.noConfusion)

theorem card_bits_le (v : UInt64) : (bits v).card ≤ 64 :=
  (card_filter_le _ _).trans (card_range 64).le

/-- The mask of one identifier. -/
theorem toNat_mask (k : ℕ) : ((1 : UInt64) <<< UInt64.ofNat (k % 64)).toNat = 2 ^ (k % 64) := by
  have hk : k % 64 < 64 := Nat.mod_lt _ (by decide)
  rw [UInt64.toNat_shiftLeft, UInt64.toNat_ofNat', Nat.mod_mod_of_dvd _ (by decide),
    Nat.mod_mod, toNat_one, Nat.one_shiftLeft,
    Nat.mod_eq_of_lt (Nat.pow_lt_pow_right Nat.one_lt_two hk)]

/-- Setting a bit. -/
theorem bits_or_mask (v : UInt64) (k : ℕ) :
    bits (v ||| 1 <<< UInt64.ofNat (k % 64)) = insert (k % 64) (bits v) := by
  ext i
  rw [mem_insert, mem_bits, mem_bits, UInt64.toNat_or, toNat_mask, testBit_or,
    testBit_two_pow, Bool.or_eq_true, decide_eq_true_eq, or_comm, eq_comm]

/-- Testing a bit. -/
theorem and_mask_eq_zero (v : UInt64) (k : ℕ) :
    v &&& 1 <<< UInt64.ofNat (k % 64) = 0 ↔ k % 64 ∉ bits v := by
  rw [← UInt64.toNat_inj, UInt64.toNat_and, toNat_mask, UInt64.toNat_zero, mem_bits, and_two_pow]
  cases v.toNat.testBit (k % 64) with
  | false => simp
  | true => simp

/-- `i` is the lowest of the identifiers of a leaf. -/
def IsLowest (v : UInt64) (i : ℕ) : Prop := i ∈ bits v ∧ ∀ j < i, j ∉ bits v

/-- A number whose lowest bit is `i` loses that bit, and only that one, when it
is combined with its predecessor. -/
theorem testBit_and_sub_one {n i : ℕ} (hi : n.testBit i = true)
    (hlow : ∀ j < i, n.testBit j = false) (j : ℕ) :
    (n &&& (n - 1)).testBit j = (n.testBit j && decide (j ≠ i)) := by
  have hmod : n % 2 ^ i = 0 := by
    refine eq_of_testBit_eq fun j => ?_
    rw [testBit_mod_two_pow, zero_testBit]
    by_cases hj : j < i
    · rw [hlow j hj, Bool.and_false]
    · rw [decide_eq_false hj, Bool.false_and]
  have hodd : n / 2 ^ i % 2 = 1 := by
    rwa [testBit_eq_decide_div_mod_eq, decide_eq_true_eq] at hi
  obtain ⟨q, hq⟩ : ∃ q, n / 2 ^ i = 2 * q + 1 := ⟨n / 2 ^ i / 2, by omega⟩
  have hn : n = 2 ^ i * (2 * q + 1) := by
    rw [← hq, Nat.mul_div_cancel' (Nat.dvd_of_mod_eq_zero hmod)]
  have hpred : n - 1 = 2 ^ i * (2 * q) + (2 ^ i - 1) := by
    rw [hn, mul_add, Nat.mul_one]
    omega
  rw [testBit_and, hpred, testBit_two_pow_mul_add _ (by omega)]
  rcases lt_trichotomy j i with hj | rfl | hj
  · rw [hlow j hj, Bool.false_and, Bool.false_and]
  · simp
  · obtain ⟨k, rfl⟩ : ∃ k, j = i + (k + 1) := ⟨j - i - 1, by omega⟩
    rw [if_neg (by omega), Nat.add_sub_cancel_left, hn, Nat.testBit_two_pow_mul,
      Nat.add_sub_cancel_left, Nat.testBit_succ, Nat.testBit_succ,
      show (2 * q + 1) / 2 = q by omega, show 2 * q / 2 = q by omega]
    simp

/-- Clearing the rightmost 1. -/
theorem bits_and_sub_one {v : UInt64} {i : ℕ} (h : IsLowest v i) :
    bits (v &&& (v - 1)) = (bits v).erase i := by
  have hi := mem_bits.mp h.1
  have hpos : 1 ≤ v.toNat := Nat.pos_of_ne_zero fun h0 => by
    rw [h0, Nat.zero_testBit] at hi
    cases hi
  have hle : (1 : UInt64) ≤ v := UInt64.le_iff_toNat_le.mpr (by rwa [UInt64.toNat_one])
  have hlow : ∀ j < i, v.toNat.testBit j = false := fun j hj =>
    Bool.eq_false_iff.mpr fun ht => h.2 j hj (mem_bits.mpr ht)
  ext j
  rw [mem_erase, mem_bits, mem_bits, UInt64.toNat_and,
    UInt64.toNat_sub_of_le _ _ hle, UInt64.toNat_one,
    testBit_and_sub_one hi hlow, Bool.and_eq_true, decide_eq_true_eq, and_comm]

/-- Some bit of a nonzero value is set. -/
theorem bits_nonempty {v : UInt64} (h : v ≠ 0) : (bits v).Nonempty := by
  obtain ⟨i, hi⟩ := exists_testBit_of_ne_zero fun h0 => h (UInt64.toNat_inj.mp h0)
  exact ⟨i, mem_bits.mpr hi⟩

/-- The loop of `trailingZeros` finds the lowest bit. -/
theorem trailingZerosLoop_isLowest {x mask : UInt64} {fuel count : ℕ} (hx : (bits x).Nonempty)
    (hc : count + fuel = 64) (hm : fuel ≠ 0 → mask = 1 <<< ofNat (count % 64))
    (hlow : ∀ j < count, j ∉ bits x) : IsLowest x (IdSet.trailingZerosLoop x fuel count mask) := by
  induction fuel generalizing count mask with
  | zero =>
    obtain ⟨j, hj⟩ := hx
    have := mem_range.mp (mem_filter.mp hj).1
    exact absurd hj (hlow j (by omega))
  | succ fuel ih =>
    have hcount : count % 64 = count := mod_eq_of_lt (by omega)
    rw [IdSet.trailingZerosLoop, hm (succ_ne_zero fuel)]
    by_cases hz : x &&& 1 <<< ofNat (count % 64) = 0
    · rw [if_pos hz]
      refine ih (by omega) (fun hf => ?_) fun j hj => ?_
      · have hlt : count + 1 < 64 := by omega
        rw [← UInt64.toNat_inj, UInt64.toNat_shiftLeft, toNat_mask, toNat_mask,
          mod_eq_of_lt hlt, hcount]
        show 2 ^ count <<< 1 % 2 ^ 64 = _
        rw [Nat.shiftLeft_eq, ← Nat.pow_add,
          Nat.mod_eq_of_lt (Nat.pow_lt_pow_right Nat.one_lt_two hlt)]
      · rcases Nat.lt_succ_iff_lt_or_eq.mp hj with hlt | rfl
        · exact hlow j hlt
        · rw [and_mask_eq_zero, hcount] at hz
          exact hz
    · rw [if_neg hz]
      rw [and_mask_eq_zero, hcount, Classical.not_not] at hz
      exact ⟨hz, hlow⟩

/-- `trailingZeros` finds the lowest bit. -/
theorem trailingZeros_isLowest {x : UInt64} (hx : x ≠ 0) : IsLowest x (IdSet.trailingZeros x) := by
  rw [IdSet.trailingZeros, if_neg hx]
  exact trailingZerosLoop_isLowest (bits_nonempty hx) rfl (fun _ => rfl)
    fun j hj => absurd hj (not_lt_zero j)

end Ipc.Mem
