import Revalle.Acl.SplayInserter
import Revalle.Ip.Address

/-!
# IP address access lists

A value of an IP access list is an interval of addresses. Values are merged by
the operators of `Ip::Address`, but looked up by `matchIPAddr`, and the two
disagree about `0.0.0.0` and `255.255.255.255`: for the operators they are the
least and the greatest of all addresses, among the IPv6 addresses they are
neither. A list that has one of them beside an IPv6 address on the other side
may be out of order for the search, and a search for one of them may stop at a
range on the other side. Apart from that, a list matches the union of its values.
-/

namespace Acl

open Ip Address Nat

/-- `acl_ip_data`. -/
structure AclIpData where
  addr1 : Address
  addr2 : Address
  mask : Address
  deriving DecidableEq

namespace AclIpData

def firstAddress (d : AclIpData) : Address :=
  if d.mask.isNoAddr then d.addr1 else d.addr1.applyMask d.mask

def lastAddress (d : AclIpData) : Address :=
  let ip := if d.addr2.isAnyAddr then d.addr1 else d.addr2
  if d.mask.isNoAddr then ip else ip.turnMaskedBitsOn d.mask

/-- `Acl::SplayInserter<acl_ip_data*>::Compare`. -/
def compare (a b : AclIpData) : ℤ :=
  if a.lastAddress.lt b.firstAddress then -1
  else if a.firstAddress.gt b.lastAddress then 1
  else 0

/-- `Acl::SplayInserter<acl_ip_data*>::IsSubset`. -/
def isSubset (a b : AclIpData) : Bool :=
  b.firstAddress.le a.firstAddress && a.lastAddress.le b.lastAddress

/-- `Acl::SplayInserter<acl_ip_data*>::MakeCombinedValue`. -/
def makeCombinedValue (a b : AclIpData) : AclIpData :=
  let minLeft := if b.firstAddress.lt a.firstAddress then b.firstAddress else a.firstAddress
  let maxRight := if a.lastAddress.lt b.lastAddress then b.lastAddress else a.lastAddress
  ⟨minLeft, maxRight, Address.v6_noaddr⟩

/-- `aclIpAddrNetworkCompare`, of the client address `p` with the value `q`. -/
def networkCompare (p : Address) (q : AclIpData) : ℤ :=
  let A := p.applyMask q.mask
  if q.addr2.isAnyAddr then
    A.matchIPAddr q.addr1
  else if A.ge q.addr1 && A.le q.addr2 then
    0
  else
    A.matchIPAddr q.addr1

/-- **The values of an IP access list**: an address, a network with `k` host
bits, or a range. Parsing masks the address of a network. -/
inductive Configured : AclIpData → Prop
  | single (a : Address) : Configured ⟨a, Address.anyAddr, Address.v6_noaddr⟩
  | network (a : Address) (k : ℕ) (hpos : 0 < k) (hk : k ≤ 128) :
      Configured ⟨a.applyMask (Address.prefixMask k),
        Address.anyAddr.applyMask (Address.prefixMask k), Address.prefixMask k⟩
  | range (a b : Address) (h : a.toNat ≤ b.toNat) : Configured ⟨a, b, Address.v6_noaddr⟩

end AclIpData

/-- The data of an `ACLIP`. -/
structure ACLIP where
  data : Splay AclIpData := {}
  matchAnyIpv4 : Bool := false
  matchAnyIpv6 : Bool := false

/-- `ACLIP::match`; a search reshapes the tree. -/
def ACLIP.match (acl : ACLIP) (clientip : Address) : ACLIP × Bool :=
  if acl.matchAnyIpv4 && acl.matchAnyIpv6 then
    (acl, true)
  else if acl.matchAnyIpv4 && clientip.isIPv4 then
    (acl, true)
  else if !acl.matchAnyIpv4 && acl.matchAnyIpv6 && !clientip.isIPv4 then
    (acl, true)
  else
    let (data, result) := acl.data.find (AclIpData.networkCompare clientip)
    ({ acl with data }, result.isSome)

namespace AclIpData

/-! ## Addresses that compare as numbers -/

/-- Where `0.0.0.0`, for the operators smaller than any specified address, is no greater. -/
def Above (a : Address) : Prop := a = Address.anyAddr ∨ Address.v4_anyaddr.toNat ≤ a.toNat

/-- Where `255.255.255.255`, for the operators the greatest address, is no smaller. -/
def Below (a : Address) : Prop := a = Address.v6_noaddr ∨ a.toNat ≤ Address.v4_noaddr.toNat

instance (a : Address) : Decidable (Above a) := inferInstanceAs (Decidable (_ ∨ _))

instance (a : Address) : Decidable (Below a) := inferInstanceAs (Decidable (_ ∨ _))

section

variable {a b : Address}

open Bool

theorem toNat_ne (h : a ≠ b) : a.toNat ≠ b.toNat := fun h' => h (BitVec.eq_of_toNat_eq h')

theorem lt_of_any (h : a = v4_anyaddr → Above b) (hany : a.isAnyAddr = true)
    (hany' : b.isAnyAddr = false) : a.toNat < b.toNat := by
  simp only [isAnyAddr, or_eq_true, decide_eq_true_eq] at hany
  simp only [isAnyAddr, or_eq_false_iff, decide_eq_false_iff_not] at hany'
  rcases hany with rfl | rfl
  · exact Nat.pos_of_ne_zero (toNat_ne hany'.1)
  · have := (h rfl).resolve_left hany'.1
    have := toNat_ne hany'.2
    omega

theorem gt_of_no (h : a = v4_noaddr → Below b) (hno : a.isNoAddr = true)
    (hno' : b.isNoAddr = false) : b.toNat < a.toNat := by
  simp only [isNoAddr, or_eq_true, decide_eq_true_eq] at hno
  simp only [isNoAddr, or_eq_false_iff, decide_eq_false_iff_not] at hno'
  rcases hno with rfl | rfl
  · have h1 := toNat_ne hno'.1
    have h2 : v6_noaddr.toNat = 2 ^ 128 - 1 := rfl
    omega
  · have := (h rfl).resolve_left hno'.1
    have := toNat_ne hno'.2
    omega

theorem lt_iff (h : a = v4_anyaddr → Above b) : a.lt b = true ↔ a.toNat < b.toNat := by
  unfold lt
  split
  · next hany =>
      simp only [and_eq_true, not_eq_true'] at hany
      exact iff_of_true rfl (lt_of_any h hany.1 hany.2)
  · rw [decide_eq_true_eq, matchIPAddr_neg]

theorem gt_iff (h : a = v4_noaddr → Below b) : a.gt b = true ↔ b.toNat < a.toNat := by
  unfold gt
  split
  · next hno =>
      simp only [and_eq_true, not_eq_true'] at hno
      exact iff_of_true rfl (gt_of_no h hno.1 hno.2)
  · rw [decide_eq_true_eq, matchIPAddr_pos]

end

/-! ## Values as intervals -/

/-- The addresses of a value. -/
def den (d : AclIpData) : Set ℕ := Set.Icc d.firstAddress.toNat d.lastAddress.toNat

variable {d : AclIpData}

theorem isNoAddr_prefixMask {k : ℕ} (hpos : 0 < k) (hk : k ≤ 128) :
    (prefixMask k).isNoAddr = false := by
  have hnot := toNat_not_prefixMask hk
  rw [BitVec.toNat_not] at hnot
  have hpow : 2 ^ k = 2 * 2 ^ (k - 1) := by rw [← pow_succ', succ_eq_add_one]; congr; omega
  have hpos' : 0 < 2 ^ (k - 1) := Nat.pow_pos (by decide)
  simp only [isNoAddr, Bool.or_eq_false_iff, decide_eq_false_iff_not]
  -- the mask is even, and the addresses of all ones are odd
  constructor <;> intro heq <;> rw [heq] at hnot
  · have : v6_noaddr.toNat = 2 ^ 128 - 1 := rfl
    omega
  · have : v4_noaddr.toNat = 2 ^ 48 - 1 := rfl
    omega

section Network

variable (a : Address) {k : ℕ}

/-- The value of a network. -/
abbrev ofNetwork (a : Address) (k : ℕ) : AclIpData :=
  ⟨a.applyMask (Address.prefixMask k), Address.anyAddr.applyMask (Address.prefixMask k),
    Address.prefixMask k⟩

theorem isAnyAddr_masked (k : ℕ) : (anyAddr.applyMask (prefixMask k)).isAnyAddr = true := by
  unfold applyMask anyAddr
  rw [show (0 : Address) &&& prefixMask k = 0 from BitVec.zero_and]
  rfl

theorem network_first (hpos : 0 < k) (hk : k ≤ 128) :
    (ofNetwork a k).firstAddress.toNat = a.toNat / 2 ^ k * 2 ^ k := by
  rw [firstAddress, isNoAddr_prefixMask hpos hk, if_neg nofun,
    toNat_applyMask, toNat_applyMask, Nat.mul_div_cancel _ (Nat.pow_pos (by decide))]

theorem network_last (hpos : 0 < k) (hk : k ≤ 128) :
    (ofNetwork a k).lastAddress.toNat = a.toNat / 2 ^ k * 2 ^ k + (2 ^ k - 1) := by
  rw [lastAddress, isNoAddr_prefixMask hpos hk]
  simp only [isAnyAddr_masked, if_true, Bool.false_eq_true, if_false]
  rw [toNat_turnMaskedBitsOn _ hk, toNat_applyMask, Nat.mul_div_cancel _ (Nat.pow_pos (by decide))]

end Network

theorem single_last {a b : Address} (h : b.isAnyAddr = true) :
    (AclIpData.mk a b v6_noaddr).lastAddress = a := by
  rw [lastAddress]
  simp only [h, if_true]
  rfl

theorem range_last {a b : Address} (h : b.isAnyAddr = false) :
    (AclIpData.mk a b v6_noaddr).lastAddress = b := by
  rw [lastAddress]
  simp only [h, Bool.false_eq_true, if_false]
  rfl

theorem first_le_last (h : Configured d) : d.firstAddress.toNat ≤ d.lastAddress.toNat := by
  cases h with
  | single a => exact le_rfl
  | network a k hpos hk =>
    rw [network_first a hpos hk, network_last a hpos hk]
    exact le_add_right _ _
  | range a b hab =>
    cases hb : b.isAnyAddr
    · rwa [range_last hb]
    · rw [single_last hb]
      exact le_rfl

/-- **A search meets no wrong order.** Only ranges are searched by the operators. -/
def Meets (ip : Address) (d : AclIpData) : Prop :=
  d.addr2.isAnyAddr = false →
    (ip = v4_anyaddr → Above d.lastAddress) ∧ (ip = v4_noaddr → Below d.firstAddress)

instance (ip : Address) (d : AclIpData) : Decidable (Meets ip d) :=
  inferInstanceAs (Decidable (_ → _ ∧ _))

/-- **The value `v` is not taken to the wrong side of `w`** when one is merged after the
other. If `v` is `0.0.0.0`, `w` must not begin at a smaller IPv6 address, and if `v`
begins there, `w` must not go from such an address across it; if `v` begins at
`255.255.255.255`, no `w` that overlaps it may end at a greater IPv6 address. -/
def Apart (v w : AclIpData) : Prop :=
  (v.lastAddress = v4_anyaddr → Above w.firstAddress) ∧
  (v.firstAddress = v4_anyaddr →
    Above w.firstAddress ∨ w.lastAddress.toNat < v4_anyaddr.toNat) ∧
  (v.firstAddress = v4_noaddr →
    Below w.lastAddress ∨ v.lastAddress.toNat < w.firstAddress.toNat)

instance (v w : AclIpData) : Decidable (Apart v w) :=
  inferInstanceAs (Decidable (_ ∧ _ ∧ _))

/-- **A value that is stored**: where a special address is an end of it, it is one of a
configured value, too. -/
structure Good (values : List AclIpData) (ip : Address) (d : AclIpData) : Prop where
  configured : Configured d
  apart : ∀ v ∈ values, Apart v d
  last_any : d.lastAddress = v4_anyaddr → ∃ v ∈ values, v.lastAddress = v4_anyaddr
  first_any : d.firstAddress = v4_anyaddr → ∃ v ∈ values, v.firstAddress = v4_anyaddr
  first_no : d.firstAddress = v4_noaddr →
    ∃ v ∈ values, v.firstAddress = v4_noaddr ∧ v.lastAddress = d.lastAddress
  meets : Meets ip d

section

variable {values : List AclIpData} {ip : Address} {a b : AclIpData}

variable (ha : Good values ip a) (hb : Good values ip b)
include ha hb

theorem Good.apart_of_good : Apart a b := by
  refine ⟨fun h => ?_, fun h => ?_, fun h => ?_⟩
  · obtain ⟨v, hv, hlast⟩ := ha.last_any h
    exact (hb.apart v hv).1 hlast
  · obtain ⟨v, hv, hfirst⟩ := ha.first_any h
    exact (hb.apart v hv).2.1 hfirst
  · obtain ⟨v, hv, hfirst, hlast⟩ := ha.first_no h
    exact hlast ▸ (hb.apart v hv).2.2 hfirst

theorem precedes_iff : Precedes a.den b.den ↔ a.lastAddress.toNat < b.firstAddress.toNat := by
  have hale := first_le_last ha.configured
  have hble := first_le_last hb.configured
  constructor
  · exact fun h => h _ ⟨hale, le_rfl⟩ _ ⟨le_rfl, hble⟩
  · rintro h p ⟨-, hp⟩ q ⟨hq, -⟩
    omega

theorem compare_neg : compare a b < 0 ↔ Precedes a.den b.den := by
  rw [precedes_iff ha hb]
  unfold compare
  have hlt := lt_iff (ha.apart_of_good hb).1
  split
  · next h => exact iff_of_true (by omega) (hlt.mp h)
  · next h =>
      rw [hlt] at h
      split <;> exact iff_of_false (by omega) h

theorem compare_pos : 0 < compare a b ↔ Precedes b.den a.den := by
  rw [precedes_iff hb ha]
  have hale := first_le_last ha.configured
  have hble := first_le_last hb.configured
  have hlt := lt_iff (ha.apart_of_good hb).1
  unfold compare
  split
  · next h =>
      rw [hlt] at h
      exact iff_of_false (by omega) (by omega)
  · next hnot =>
      rw [hlt] at hnot
      have hgt := gt_iff fun h => ((ha.apart_of_good hb).2.2 h).resolve_right hnot
      split
      · next h => exact iff_of_true (by omega) (hgt.mp h)
      · next h =>
          rw [hgt] at h
          exact iff_of_false (by omega) h

end

end AclIpData

open AclIpData

end Acl
