import Revalle.Data.Falsy
import Revalle.Data.KeyedList

/-!
# The address lists of the control plane

`IPManager` has a whitelist and a blacklist of addresses. An entry is for one
address, the key it is stored under, and, if it has a `cidr`, for a range of
addresses as well; it may expire. What a lookup is to answer is plain: whether
some entry that has not expired is for the address.

The lookup looks for the key first. An entry it finds there decides, and if it
has expired it is deleted and the answer is no, though another entry's range
may hold the address. Only without such an entry are the ranges searched, and
that search does not ask whether an entry has expired. `answers_iff` says when the
answer is right all the same.

Ranges are compared in the 32-bit arithmetic of the language, in which a shift
by 32 is a shift by 0: `/0`, the range of all addresses, is taken for `/32`.
-/

namespace ControlPlane.IpManager

open List BitVec Falsy

/-! ## Ranges of addresses -/

/-- The value of a digit. -/
def digitValue (c : Char) : ℕ :=
  if '0' ≤ c ∧ c ≤ '9' then c.toNat - 48
  else if 'a' ≤ c ∧ c ≤ 'f' then c.toNat - 87
  else if 'A' ≤ c ∧ c ≤ 'F' then c.toNat - 55
  else 16

/-- The white space and the line ends of the language. -/
def isSpace (c : Char) : Bool :=
  c.toNat ∈ [9, 10, 11, 12, 13, 32, 0xa0, 0x1680, 0x2028, 0x2029, 0x202f, 0x205f, 0x3000, 0xfeff] ∨
    (0x2000 ≤ c.toNat ∧ c.toNat ≤ 0x200a)

/-- The number of the language that is nearest to `z`, the even one of two. (Beyond
the largest one it is `Infinity`, which counts as `0` in bitwise operations, as do
the multiples of `2 ^ 32` here.) -/
def toDouble (z : ℤ) : ℤ :=
  if z.natAbs < 2 ^ 53 then z
  else
    let unit : ℕ := 2 ^ (z.natAbs.log2 - 52)
    let q := z.natAbs / unit
    let r := z.natAbs % unit
    z.sign * ((if 2 * r < unit ∨ (2 * r = unit ∧ q % 2 = 0) then q else q + 1) * unit : ℕ)

theorem toDouble_of_lt {z : ℤ} (h : z.natAbs < 2 ^ 53) : toDouble z = z := if_pos h

/-- `parseInt`; `none` is `NaN`. -/
def parseInt (s : List Char) : Option ℤ :=
  let s := s.dropWhile isSpace
  let (negative, s) :=
    match s with
    | '-' :: rest => (true, rest)
    | '+' :: rest => (false, rest)
    | _ => (false, s)
  let (radix, s) :=
    match s with
    | '0' :: 'x' :: rest => (16, rest)
    | '0' :: 'X' :: rest => (16, rest)
    | _ => (10, s)
  let digits := s.takeWhile (fun c => digitValue c < radix)
  if digits = [] then none
  else
    let value : ℕ := digits.foldl (fun n c => n * radix + digitValue c) 0
    some (toDouble (if negative then -value else value))

/-- A number as the operand of a bitwise operator; `NaN` is `0`. -/
def toInt32 (x : Option ℤ) : BitVec 32 := BitVec.ofInt 32 (x.getD 0)

/-- `(acc << 8) + parseInt(octet)`. -/
def addOctet (acc : Option ℤ) (octet : List Char) : Option ℤ :=
  (parseInt octet).map (fun n => toDouble ((toInt32 acc <<< 8).toInt + n))

/-- `_ipToNumber`. -/
def ipToNumber (ip : List Char) : BitVec 32 :=
  toInt32 ((ip.splitOn '.').foldl addOctet (some 0))

/-- `-1 << (32 - parseInt(bits))`: of the shift count, five bits count. -/
def maskOf (bits : Option (List Char)) : BitVec 32 :=
  let count := toInt32 ((bits.bind parseInt).map (fun n => toDouble (32 - n)))
  BitVec.allOnes 32 <<< (count.toNat % 32)

/-- `_ipInCIDR`. -/
def ipInCIDR (ip cidr : String) : Bool :=
  let pieces := cidr.toList.splitOn '/'
  let mask := maskOf (pieces[1]?)
  let ipNum := ipToNumber ip.toList
  let cidrNum := ipToNumber (pieces.headD [])
  (ipNum &&& mask) == (cidrNum &&& mask)

/-! ### What a range is -/

/-- An IPv4 address, by its octets. -/
structure Quad where
  a : Fin 256
  b : Fin 256
  c : Fin 256
  d : Fin 256
  deriving DecidableEq

/-- The address as a number below `2 ^ 32`. -/
def Quad.number (q : Quad) : ℕ := ((q.a * 256 + q.b) * 256 + q.c) * 256 + q.d

/-- A number in decimal notation. -/
def decimal (n : ℕ) : List Char := Nat.toDigits 10 n

def Quad.chars (q : Quad) : List Char :=
  ['.'].intercalate [decimal q.a, decimal q.b, decimal q.c, decimal q.d]

/-- The dotted notation of an address. -/
def Quad.text (q : Quad) : String := String.ofList q.chars

/-- The notation `base/bits` of a range. -/
def rangeText (base : Quad) (bits : Fin 33) : String :=
  String.ofList (['/'].intercalate [base.chars, decimal bits])

/-- **The address is in the range**: the two agree in the leading bits. A text that
is no address is in no range, and a text that is no range holds no address. -/
def Contains (cidr ip : String) : Prop :=
  ∃ (q base : Quad) (bits : Fin 33), ip = q.text ∧ cidr = rangeText base bits ∧
    q.number / 2 ^ (32 - bits.val) = base.number / 2 ^ (32 - bits.val)

/-- The text is a range in which some leading bits are given. -/
def Proper (cidr : String) : Prop :=
  ∃ (base : Quad) (bits : Fin 33), bits ≠ 0 ∧ cidr = rangeText base bits

theorem parseInt_decimal_octet : ∀ n : Fin 256, parseInt (decimal n) = some (n.val : ℤ) := by
  decide +kernel

theorem parseInt_decimal_bits : ∀ n : Fin 33, parseInt (decimal n) = some (n.val : ℤ) := by
  decide +kernel

theorem separators_notMem_decimal : ∀ n : Fin 256, '.' ∉ decimal n ∧ '/' ∉ decimal n := by
  decide +kernel

theorem slash_notMem_decimal_bits : ∀ n : Fin 33, '/' ∉ decimal n := by
  decide +kernel

variable {ip : String} (q : Quad)

theorem Quad.splitOn_chars :
    q.chars.splitOn '.' = [decimal q.a, decimal q.b, decimal q.c, decimal q.d] := by
  refine splitOn_intercalate '.' ?_ (cons_ne_nil _ _)
  simp [separators_notMem_decimal]

theorem Quad.slash_notMem_chars : '/' ∉ q.chars := by
  simp [Quad.chars, intercalate, separators_notMem_decimal]

theorem splitOn_rangeText (base : Quad) (bits : Fin 33) :
    (rangeText base bits).toList.splitOn '/' = [base.chars, decimal bits] := by
  rw [rangeText, String.toList_ofList]
  refine splitOn_intercalate '/' ?_ (cons_ne_nil _ _)
  simp [base.slash_notMem_chars, slash_notMem_decimal_bits]

/-- One round of `_ipToNumber`, on the bits. -/
theorem toInt32_addOctet (acc : Option ℤ) (n : Fin 256) :
    toInt32 (addOctet acc (decimal n)) = toInt32 acc <<< 8 + BitVec.ofNat 32 n := by
  rw [addOctet, parseInt_decimal_octet, Option.map_some]
  have hle := BitVec.le_toInt (toInt32 acc <<< 8)
  have hlt := BitVec.toInt_lt (x := toInt32 acc <<< 8)
  show BitVec.ofInt 32 (toDouble ((toInt32 acc <<< 8).toInt + (n.val : ℤ))) = _
  rw [toDouble_of_lt (by omega), ofInt_add, ofInt_toInt, ofInt_natCast]

theorem Quad.number_lt : q.number < 2 ^ 32 := by
  unfold Quad.number
  omega

theorem Quad.number_injective {q q' : Quad} (h : q.number = q'.number) : q = q' := by
  unfold Quad.number at h
  cases q
  cases q'
  simp only [Quad.mk.injEq, Fin.ext_iff] at h ⊢
  omega

/-- `_ipToNumber` reads an address as its number. -/
theorem ipToNumber_chars : ipToNumber q.chars = BitVec.ofNat 32 q.number := by
  rw [ipToNumber, q.splitOn_chars]
  simp only [foldl_cons, foldl_nil, toInt32_addOctet]
  apply BitVec.eq_of_toNat_eq
  simp [toInt32, Quad.number, Nat.shiftLeft_eq]
  omega

/-- How many leading bits `_ipInCIDR` compares: the shift count of `/0` is `32`,
which is `0`. -/
def comparedBits (bits : Fin 33) : ℕ := if bits = 0 then 32 else bits

theorem maskOf_decimal (bits : Fin 33) :
    maskOf (some (decimal bits)) = allOnes 32 <<< (32 - comparedBits bits) := by
  rw [maskOf, Option.bind_some, parseInt_decimal_bits, Option.map_some,
    toDouble_of_lt (by omega), comparedBits]
  congr 1
  simp only [toInt32, Option.getD_some, toNat_ofInt]
  split <;> omega

/-- Masking off the low bits is as good as shifting them out. -/
theorem and_mask_eq_iff {w : ℕ} (x y : BitVec w) (k : ℕ) :
    x &&& (allOnes w <<< k) = y &&& (allOnes w <<< k) ↔ x >>> k = y >>> k := by
  constructor
  · intro h
    ext i hi
    have hbit := congrArg (fun z => getLsbD z (k + i)) h
    simp
    grind
  · intro h
    ext i hi
    have hbit := congrArg (fun z => getLsbD z (i - k)) h
    simp
    grind

/-- What `_ipInCIDR` compares, whatever the text of the address. -/
theorem ipInCIDR_rangeText (ip : String) (base : Quad) (bits : Fin 33) :
    ipInCIDR ip (rangeText base bits) = true ↔
      (ipToNumber ip.toList).toNat / 2 ^ (32 - comparedBits bits) =
        base.number / 2 ^ (32 - comparedBits bits) := by
  unfold ipInCIDR
  simp only [splitOn_rangeText, beq_iff_eq, headD_cons, ipToNumber_chars]
  rw [show ([base.chars, decimal bits] : List (List Char))[1]? = some (decimal bits) from rfl,
    maskOf_decimal, and_mask_eq_iff, ← BitVec.toNat_inj]
  simp only [BitVec.toNat_ushiftRight, BitVec.toNat_ofNat, Nat.shiftRight_eq_div_pow,
    Nat.mod_eq_of_lt base.number_lt]

theorem Quad.toNat_ipToNumber_text : (ipToNumber q.text.toList).toNat = q.number := by
  rw [Quad.text, String.toList_ofList, ipToNumber_chars, BitVec.toNat_ofNat,
    Nat.mod_eq_of_lt q.number_lt]

theorem Quad.number_eq_of_text_eq {q q' : Quad} (h : q.text = q'.text) : q.number = q'.number := by
  rw [← q.toNat_ipToNumber_text, h, q'.toNat_ipToNumber_text]

theorem contains_rangeText_iff {base : Quad} {bits : Fin 33} :
    Contains (rangeText base bits) ip ↔ ∃ q : Quad, ip = q.text ∧
      q.number / 2 ^ (32 - bits.val) = base.number / 2 ^ (32 - bits.val) := by
  refine ⟨?_, fun ⟨q, hq, heq⟩ => ⟨q, base, bits, hq, rfl, heq⟩⟩
  rintro ⟨q, base', bits', hq, hrange, heq⟩
  have hpieces := congrArg (fun s : String => s.toList.splitOn '/') hrange
  simp only [splitOn_rangeText, cons.injEq, and_true] at hpieces
  have hbits : bits.val = bits'.val := by
    have hparse := congrArg parseInt hpieces.2
    rw [parseInt_decimal_bits, parseInt_decimal_bits] at hparse
    exact_mod_cast Option.some.inj hparse
  have hbase : base.number = base'.number :=
    Quad.number_eq_of_text_eq (congrArg String.ofList hpieces.1)
  exact ⟨q, hq, by rw [hbits, hbase, heq]⟩

/-- **`_ipInCIDR` decides whether an address is in a range** that has leading bits. -/
theorem ipInCIDR_iff_contains {q : Quad} {cidr : String} (h : Proper cidr) :
    ipInCIDR q.text cidr = true ↔ Contains cidr q.text := by
  obtain ⟨base, bits, hbits, rfl⟩ := h
  rw [ipInCIDR_rangeText, contains_rangeText_iff, comparedBits, if_neg hbits,
    q.toNat_ipToNumber_text]
  refine ⟨fun heq => ⟨q, rfl, heq⟩, ?_⟩
  rintro ⟨q', hq, heq⟩
  rwa [Quad.number_eq_of_text_eq hq]

/-- Every number below `2 ^ 32` is that of an address. -/
theorem Quad.exists_number {k : ℕ} (hk : k < 2 ^ 32) : ∃ q : Quad, q.number = k := by
  refine ⟨⟨⟨k / 256 / 256 / 256, by omega⟩, ⟨k / 256 / 256 % 256, by omega⟩,
    ⟨k / 256 % 256, by omega⟩, ⟨k % 256, by omega⟩⟩, ?_⟩
  simp only [Quad.number]
  omega

/-- **When membership in a range is exact.** For an address in dotted notation,
unless the range is that of all addresses and does not start with the address
itself. For any other text it is not: the text is found in some range of each
length, though it is no address. -/
theorem ipInCIDR_exact_iff (a : String) :
    (∀ q : Quad, a = q.text → ∀ (b : Quad) (n : Fin 33),
      (ipInCIDR a (rangeText b n) = true ↔ Contains (rangeText b n) a) ↔ n ≠ 0 ∨ q = b) ∧
    ((¬∃ q : Quad, a = q.text) → ∃ b : Quad, ∀ n : Fin 33,
      ipInCIDR a (rangeText b n) = true ∧ ¬Contains (rangeText b n) a) := by
  refine ⟨?_, fun ha => ?_⟩
  · rintro q rfl b n
    by_cases hn : n = 0
    · subst hn
      have hcontains : Contains (rangeText b 0) q.text := contains_rangeText_iff.mpr
        ⟨q, rfl, (Nat.div_eq_of_lt q.number_lt).trans (Nat.div_eq_of_lt b.number_lt).symm⟩
      rw [iff_true_right hcontains, ipInCIDR_rangeText, q.toNat_ipToNumber_text]
      simp only [comparedBits, if_true, Nat.sub_self, pow_zero, Nat.div_one, ne_eq,
        not_true_eq_false, false_or]
      exact ⟨Quad.number_injective, congrArg Quad.number⟩
    · exact iff_of_true (ipInCIDR_iff_contains ⟨b, n, hn, rfl⟩) (.inl hn)
  · obtain ⟨b, hb⟩ := Quad.exists_number (ipToNumber a.toList).isLt
    refine ⟨b, fun n => ⟨?_, fun h => ?_⟩⟩
    · rw [ipInCIDR_rangeText, hb]
    · exact ha ((contains_rangeText_iff.mp h).imp fun _ => And.left)

/-- An IPv6 address is no IPv4 address. -/
theorem ipv6_ne_text : ¬∃ q : Quad, "::1" = q.text := by
  rintro ⟨q, hq⟩
  have hpieces := congrArg (fun s : String => (s.toList.splitOn '.').length) hq
  simp only [Quad.text, String.toList_ofList, q.splitOn_chars, length_cons, length_nil] at hpieces
  exact nomatch hpieces

theorem ipInCIDR_exact_ten :
    (ipInCIDR "10.1.2.3" (rangeText ⟨10, 0, 0, 0⟩ 8) = true ↔
      Contains (rangeText ⟨10, 0, 0, 0⟩ 8) "10.1.2.3") ∧
    ∃ b : Quad, ∀ n : Fin 33, ipInCIDR "::1" (rangeText b n) = true ∧
      ¬Contains (rangeText b n) "::1" :=
  ⟨((ipInCIDR_exact_iff "10.1.2.3").1 ⟨10, 1, 2, 3⟩ rfl ⟨10, 0, 0, 0⟩ 8).mpr (.inl (by decide)),
    (ipInCIDR_exact_iff "::1").2 ipv6_ne_text⟩

/-- **Any address is in its own `/0` only, and an IPv6 address is in IPv4 ranges.** -/
theorem ipInCIDR_slash_zero_and_ipv6 :
    ipInCIDR "1.2.3.4" (rangeText ⟨5, 6, 7, 8⟩ 0) = false ∧
      Contains (rangeText ⟨5, 6, 7, 8⟩ 0) "1.2.3.4" ∧
      ipInCIDR "::1" (rangeText ⟨0, 0, 0, 0⟩ 8) = true ∧ ¬∃ q : Quad, "::1" = q.text :=
  ⟨by decide +kernel, ⟨⟨1, 2, 3, 4⟩, ⟨5, 6, 7, 8⟩, 0, by decide, rfl, by decide⟩,
    by decide +kernel, ipv6_ne_text⟩

/-! ## The lists -/

/-- An entry of a list. Its reason, its creator and its violations are never read. -/
structure Entry where
  ip : String
  /-- In milliseconds. -/
  expiresAt : Option ℤ
  cidr : Option String
  deriving DecidableEq

/-- `entry.expiresAt && new Date(entry.expiresAt) < new Date()`. -/
def Entry.expired (now : ℤ) (e : Entry) : Bool := e.expiresAt.any (· < now)

/-- A `Map` of entries under their addresses. -/
abbrev IpMap := KeyedList Entry.ip

/-- `_cleanExpired`. -/
def cleanExpired (now : ℤ) (m : IpMap) : IpMap := m.filter (fun e => !e.expired now)

structure Config where
  maxRequestsPerMinute : ℕ
  maxRequestsPer10Min : ℕ
  maxConnectionsPerIP : ℕ
  allowCIDR : Bool
  deriving DecidableEq

/-- The configuration of the constructor. -/
def Config.default : Config := ⟨300, 2000, 50, true⟩

/-- The state of an `IPManager`, without its abuse scores, which no access
decision reads. -/
structure Manager where
  whitelist : IpMap
  blacklist : IpMap
  /-- The times of the requests in `requestCounts`. -/
  requests : String → Option (List ℤ)
  /-- `connectionTracker`. -/
  connections : String → Option ℕ
  config : Config

def Manager.init : Manager := ⟨.empty, .empty, fun _ => none, fun _ => none, .default⟩

/-- The options of an addition that an access decision depends on. -/
structure EntryOptions where
  expiresAt : Option ℤ
  cidr : Option String

/-- The entry that is added. -/
def newEntry (ip : String) (options : EntryOptions) : Entry :=
  ⟨ip, orNull options.expiresAt, orNull options.cidr⟩

def addToWhitelist (ip : String) (options : EntryOptions) (s : Manager) : Manager :=
  { s with
    whitelist := s.whitelist.set (newEntry ip options)
    blacklist := s.blacklist.erase ip }

def removeFromWhitelist (ip : String) (s : Manager) : Manager :=
  { s with whitelist := s.whitelist.erase ip }

def addToBlacklist (ip : String) (options : EntryOptions) (s : Manager) : Manager :=
  { s with blacklist := s.blacklist.set (newEntry ip options) }

def removeFromBlacklist (ip : String) (s : Manager) : Manager :=
  { s with blacklist := s.blacklist.erase ip }

def getWhitelist (now : ℤ) (s : Manager) : List Entry × Manager :=
  let whitelist := cleanExpired now s.whitelist
  (whitelist.toList, { s with whitelist := whitelist })

def getBlacklist (now : ℤ) (s : Manager) : List Entry × Manager :=
  let blacklist := cleanExpired now s.blacklist
  (blacklist.toList, { s with blacklist := blacklist })

/-- The lookup in a list, with the list as it leaves it. -/
def isListed (allowCIDR : Bool) (ip : String) (now : ℤ) (m : IpMap) : Bool × IpMap :=
  match m.get ip with
  | some entry => if entry.expired now then (false, m.erase ip) else (true, m)
  | none =>
    if allowCIDR then (m.toList.any (fun e => e.cidr.any (ipInCIDR ip)), m) else (false, m)

def isWhitelisted (ip : String) (now : ℤ) (s : Manager) : Bool × Manager :=
  let (listed, whitelist) := isListed s.config.allowCIDR ip now s.whitelist
  (listed, { s with whitelist := whitelist })

def isBlacklisted (ip : String) (now : ℤ) (s : Manager) : Bool × Manager :=
  let (listed, blacklist) := isListed s.config.allowCIDR ip now s.blacklist
  (listed, { s with blacklist := blacklist })

/-- The answer of an access check. -/
structure Access where
  allowed : Bool
  reason : Option String
  limit : Option ℕ
  deriving DecidableEq

/-- `_checkRateLimit`. -/
def checkRateLimit (ip : String) (now : ℤ) (s : Manager) : Access :=
  match s.requests ip with
  | none => ⟨true, none, none⟩
  | some requests =>
    if s.config.maxRequestsPerMinute < requests.countP (fun t => now - t < 60000) then
      ⟨false, some "rate_limit_1min", some s.config.maxRequestsPerMinute⟩
    else if s.config.maxRequestsPer10Min < requests.countP (fun t => now - t < 600000) then
      ⟨false, some "rate_limit_10min", some s.config.maxRequestsPer10Min⟩
    else ⟨true, none, none⟩

/-- `_checkConnectionLimit`. -/
def checkConnectionLimit (ip : String) (s : Manager) : Access :=
  match s.connections ip with
  | none => ⟨true, none, none⟩
  | some connections =>
    if s.config.maxConnectionsPerIP < connections then
      ⟨false, some "connection_limit", some s.config.maxConnectionsPerIP⟩
    else ⟨true, none, none⟩

/-- The limits, for an address in neither list. -/
def checkLimits (ip : String) (now : ℤ) (s : Manager) : Access :=
  let rateCheck := checkRateLimit ip now s
  if ¬rateCheck.allowed then rateCheck
  else
    let connCheck := checkConnectionLimit ip s
    if ¬connCheck.allowed then connCheck else ⟨true, some "passed", none⟩

def checkAccess (ip : String) (now : ℤ) (s : Manager) : Access × Manager :=
  let (whitelisted, s) := isWhitelisted ip now s
  if whitelisted then (⟨true, some "whitelisted", none⟩, s)
  else
    let (blacklisted, s) := isBlacklisted ip now s
    if blacklisted then (⟨false, some "blacklisted", none⟩, s)
    else (checkLimits ip now s, s)

/-- A call, with its time. -/
inductive Call where
  | addToWhitelist (ip : String) (options : EntryOptions)
  | removeFromWhitelist (ip : String)
  | addToBlacklist (ip : String) (options : EntryOptions)
  | removeFromBlacklist (ip : String)
  | isWhitelisted (ip : String) (now : ℤ)
  | isBlacklisted (ip : String) (now : ℤ)
  | getWhitelist (now : ℤ)
  | getBlacklist (now : ℤ)
  | checkAccess (ip : String) (now : ℤ)

def Call.run (s : Manager) : Call → Manager
  | .addToWhitelist ip options => IpManager.addToWhitelist ip options s
  | .removeFromWhitelist ip => IpManager.removeFromWhitelist ip s
  | .addToBlacklist ip options => IpManager.addToBlacklist ip options s
  | .removeFromBlacklist ip => IpManager.removeFromBlacklist ip s
  | .isWhitelisted ip now => (IpManager.isWhitelisted ip now s).2
  | .isBlacklisted ip now => (IpManager.isBlacklisted ip now s).2
  | .getWhitelist now => (IpManager.getWhitelist now s).2
  | .getBlacklist now => (IpManager.getBlacklist now s).2
  | .checkAccess ip now => (IpManager.checkAccess ip now s).2

/-! ## What a lookup is to answer -/

/-- The entry is for a range that holds the address. -/
def Entry.Covers (e : Entry) (ip : String) : Prop := ∃ cidr, e.cidr = some cidr ∧ Contains cidr ip

/-- **The meaning of a list**: it has an entry that has not expired, for the
address itself or for a range that holds it. -/
def Declared (m : IpMap) (ip : String) (now : ℤ) : Prop :=
  ∃ e ∈ m.toList, e.expired now = false ∧ (e.ip = ip ∨ e.Covers ip)

/-- **When the lookup answers by the meaning of the list.** An entry for the
address itself that has expired hides no range that holds it; and where there is
no such entry, an expired range holds the address only if a range that has not
expired does. -/
structure Sound (m : IpMap) (ip : String) (now : ℤ) : Prop where
  address : ∀ e ∈ m.toList, e.ip = ip → e.expired now = true →
    ∀ e' ∈ m.toList, e'.expired now = false → ¬e'.Covers ip
  ranges : (∀ e ∈ m.toList, e.ip ≠ ip) → ∀ e ∈ m.toList, e.expired now = true → e.Covers ip →
    ∃ e' ∈ m.toList, e'.expired now = false ∧ e'.Covers ip

/-- **The search of the ranges can be trusted**: until a range holds the address,
both are written in dotted notation, and the range is not that of all addresses. -/
def Scannable (ip : String) : List Entry → Prop
  | [] => True
  | e :: es =>
    (∀ cidr, e.cidr = some cidr → Proper cidr ∧ ∃ q : Quad, ip = q.text) ∧
      (¬e.Covers ip → Scannable ip es)

/-- The ranges are searched where there is no entry for the address itself. -/
def Readable (m : IpMap) (ip : String) : Prop := m.get ip = none → Scannable ip m.toList

variable {m : IpMap}

/-- The search of the ranges. -/
theorem any_ipInCIDR_iff {es : List Entry} (hscan : Scannable ip es) :
    es.any (fun e => e.cidr.any (ipInCIDR ip)) = true ↔ ∃ e ∈ es, e.Covers ip := by
  induction es with
  | nil => simp
  | cons e es ih =>
    have hhead : e.cidr.any (ipInCIDR ip) = true ↔ e.Covers ip := by
      rw [Option.any_eq_true]
      refine exists_congr (fun cidr => and_congr_right (fun hcidr => ?_))
      obtain ⟨hproper, q, rfl⟩ := hscan.1 cidr hcidr
      exact ipInCIDR_iff_contains hproper
    rw [any_cons, Bool.or_eq_true, hhead, exists_mem_cons_iff]
    by_cases hcovers : e.Covers ip
    · simp [hcovers]
    · simp [hcovers, ih (hscan.2 hcovers)]

/-- **The lookup answers by the meaning of the list exactly when it is sound.** -/
theorem isListed_iff (hread : Readable m ip) (now : ℤ) :
    ((isListed true ip now m).1 = true ↔ Declared m ip now) ↔ Sound m ip now := by
  cases hget : m.get ip with
  | some e =>
    obtain ⟨he, hip⟩ := KeyedList.get_eq_some_iff.mp hget
    have honly : ∀ e' ∈ m.toList, e'.ip = ip → e' = e := fun e' he' hip' =>
      Option.some.inj ((KeyedList.get_eq_some_iff.mpr ⟨he', hip'⟩).symm.trans hget)
    cases hexpired : e.expired now with
    | false =>
      -- an entry for the address decides, and rightly so
      have hlisted : (isListed true ip now m).1 = true := by simp [isListed, hget, hexpired]
      refine iff_of_true (iff_of_true hlisted ⟨e, he, hexpired, .inl hip⟩) ⟨?_, ?_⟩
      · intro e' he' hip' hexpired'
        rw [honly e' he' hip', hexpired] at hexpired'
        exact absurd hexpired' Bool.false_ne_true
      · exact fun hnone => absurd hip (hnone e he)
    | true =>
      have hlisted : (isListed true ip now m).1 = false := by simp [isListed, hget, hexpired]
      rw [hlisted]
      constructor
      · intro h
        refine ⟨fun _ _ _ _ e' he' hfresh hcovers => ?_, fun hnone => absurd hip (hnone e he)⟩
        exact Bool.false_ne_true (h.mpr ⟨e', he', hfresh, Or.inr hcovers⟩)
      · rintro h
        refine iff_of_false Bool.false_ne_true ?_
        rintro ⟨e', he', hfresh, hip' | hcovers⟩
        · rw [honly e' he' hip', hexpired] at hfresh
          exact Bool.false_ne_true hfresh.symm
        · exact h.address e he hip hexpired e' he' hfresh hcovers
  | none =>
    have hnone := KeyedList.get_eq_none_iff.mp hget
    have hlisted : (isListed true ip now m).1 = true ↔ ∃ e ∈ m.toList, e.Covers ip := by
      simpa [isListed, hget] using any_ipInCIDR_iff (hread hget)
    rw [hlisted]
    constructor
    · intro h
      refine ⟨fun e he hip => absurd hip (hnone e he), fun _ e he _ hcovers => ?_⟩
      obtain ⟨e', he', hfresh, hip | hcovers'⟩ := h.mp ⟨e, he, hcovers⟩
      · exact absurd hip (hnone e' he')
      · exact ⟨e', he', hfresh, hcovers'⟩
    · intro h
      constructor
      · rintro ⟨e, he, hcovers⟩
        cases hexpired : e.expired now with
        | false => exact ⟨e, he, hexpired, .inr hcovers⟩
        | true =>
          obtain ⟨e', he', hfresh, hcovers'⟩ := h.ranges hnone e he hexpired hcovers
          exact ⟨e', he', hfresh, .inr hcovers'⟩
      · rintro ⟨e, he, -, hip | hcovers⟩
        · exact absurd hip (hnone e he)
        · exact ⟨e, he, hcovers⟩

/-! ## Expired entries -/

theorem mem_filter_toList {keep : Entry → Bool} {e : Entry} :
    e ∈ (m.filter keep).toList ↔ e ∈ m.toList ∧ keep e = true := mem_filter

/-- Entries that have expired do not count. -/
theorem declared_filter {keep : Entry → Bool} {now : ℤ}
    (h : ∀ e ∈ m.toList, keep e = false → e.expired now = true) :
    Declared (m.filter keep) ip now ↔ Declared m ip now := by
  constructor
  · rintro ⟨e, he, hfresh, hfor⟩
    exact ⟨e, (mem_filter_toList.mp he).1, hfresh, hfor⟩
  · rintro ⟨e, he, hfresh, hfor⟩
    refine ⟨e, mem_filter_toList.mpr ⟨he, ?_⟩, hfresh, hfor⟩
    cases hkeep : keep e with
    | true => rfl
    | false => exact absurd (h e he hkeep) (by simp [hfresh])

/-- What a lookup deletes has expired. -/
theorem isListed_snd (allowCIDR : Bool) (ip : String) (now : ℤ) (m : IpMap) :
    ∃ keep : Entry → Bool, (isListed allowCIDR ip now m).2 = m.filter keep ∧
      ∀ e ∈ m.toList, keep e = false → e.expired now = true := by
  have hall : m = m.filter (fun _ => true) := by simp [KeyedList.filter]
  unfold isListed
  split
  · next entry hget =>
    split
    · next hexpired =>
      refine ⟨fun e => e.ip ≠ ip, rfl, fun e he hip => ?_⟩
      have heq := (KeyedList.get_eq_some_iff.mpr ⟨he, by simpa using hip⟩).symm.trans hget
      rwa [Option.some.inj heq]
    · exact ⟨fun _ => true, hall, by simp⟩
  · split
    · exact ⟨fun _ => true, hall, by simp⟩
    · exact ⟨fun _ => true, hall, by simp⟩

/-- The lookup of the address answers by the meaning of the list. -/
def Apt (m : IpMap) (ip : String) (now : ℤ) : Prop := Readable m ip ∧ Sound m ip now

theorem Apt.isListed_iff {now : ℤ} (h : Apt m ip now) :
    (isListed true ip now m).1 = true ↔ Declared m ip now :=
  (IpManager.isListed_iff h.1 now).mpr h.2

/-- Two lookups at one time agree when both are apt. -/
theorem isListed_twice {now : ℤ} (h : Apt m ip now)
    (h' : Apt (isListed true ip now m).2 ip now) :
    (isListed true ip now (isListed true ip now m).2).1 = (isListed true ip now m).1 := by
  obtain ⟨keep, heq, hkeep⟩ := isListed_snd true ip now m
  rw [heq] at h' ⊢
  rw [Bool.eq_iff_iff, h.isListed_iff, h'.isListed_iff, declared_filter hkeep]

/-- The answer of an access check, by the answers of the lookups. -/
theorem checkAccess_fst (ip : String) (now : ℤ) (s : Manager) : (checkAccess ip now s).1 =
      if (isListed s.config.allowCIDR ip now s.whitelist).1 then ⟨true, some "whitelisted", none⟩
      else if (isListed s.config.allowCIDR ip now s.blacklist).1 then
        ⟨false, some "blacklisted", none⟩ else checkLimits ip now s := by
  by_cases hwhite : (isListed s.config.allowCIDR ip now s.whitelist).1
  · simp [checkAccess, isWhitelisted, hwhite]
  · by_cases hblack : (isListed s.config.allowCIDR ip now s.blacklist).1
    · simp [checkAccess, isWhitelisted, isBlacklisted, hwhite, hblack]
    · simp only [checkAccess, isWhitelisted, isBlacklisted, hwhite, hblack]
      rfl

theorem config_run (calls : List Call) (s : Manager) :
    (calls.foldl Call.run s).config = s.config := by
  induction calls generalizing s with
  | nil => rfl
  | cons call calls ih =>
    rw [foldl_cons, ih]
    cases call with
    | checkAccess ip now =>
      simp only [Call.run, checkAccess]
      split
      · rfl
      · split <;> rfl
    | _ => rfl

/-- **When the access decisions follow the lists.** After any sequence of calls,
`isWhitelisted` answers by the meaning of the whitelist exactly when the whitelist
is sound for the address at that time, and likewise `isBlacklisted`. Two
consecutive lookups agree when both are apt, and the answer of `checkAccess`
depends on what the lists declare, in which no expired entry counts. -/
theorem answers_iff (calls : List Call) (s₀ s : Manager) (hs : s = calls.foldl Call.run s₀)
    (hconfig : s₀.config.allowCIDR = true) (ip : String) (now : ℤ) :
    (Readable s.whitelist ip → (((isWhitelisted ip now s).1 = true ↔
      Declared s.whitelist ip now) ↔ Sound s.whitelist ip now)) ∧
    (Readable s.blacklist ip → (((isBlacklisted ip now s).1 = true ↔
      Declared s.blacklist ip now) ↔ Sound s.blacklist ip now)) ∧
    (Apt s.whitelist ip now → Apt (isWhitelisted ip now s).2.whitelist ip now →
      (isWhitelisted ip now (isWhitelisted ip now s).2).1 = (isWhitelisted ip now s).1) ∧
    (Apt s.blacklist ip now → Apt (isBlacklisted ip now s).2.blacklist ip now →
      (isBlacklisted ip now (isBlacklisted ip now s).2).1 = (isBlacklisted ip now s).1) ∧
    (Apt s.whitelist ip now →
      (Declared s.whitelist ip now →
        (checkAccess ip now s).1 = ⟨true, some "whitelisted", none⟩) ∧
      (¬Declared s.whitelist ip now → Apt s.blacklist ip now →
        (Declared s.blacklist ip now →
          (checkAccess ip now s).1 = ⟨false, some "blacklisted", none⟩) ∧
        (¬Declared s.blacklist ip now → (checkAccess ip now s).1 = checkLimits ip now s))) := by
  have hcidr : s.config.allowCIDR = true := by rw [hs, config_run, hconfig]
  simp only [isWhitelisted, isBlacklisted, checkAccess_fst, hcidr]
  refine ⟨fun hread => isListed_iff hread now, fun hread => isListed_iff hread now,
    isListed_twice, isListed_twice, fun hw => ⟨fun hdecl => ?_, fun hdecl hb => ⟨fun hbl => ?_,
      fun hbl => ?_⟩⟩⟩
  · rw [if_pos (hw.isListed_iff.mpr hdecl)]
  · rw [if_neg (mt hw.isListed_iff.mp hdecl), if_pos (hb.isListed_iff.mpr hbl)]
  · rw [if_neg (mt hw.isListed_iff.mp hdecl), if_neg (mt hb.isListed_iff.mp hbl)]

/-- An entry for a network, which expires at time `10`. -/
def office : Entry := ⟨"office", some 10, some "10.0.0.0/8"⟩

/-- The state after `office` and an IPv6 address were added to the whitelist. -/
def withOffice : Manager :=
  [Call.addToWhitelist "office" ⟨some 10, some "10.0.0.0/8"⟩,
    .addToWhitelist "::1" ⟨some 0, none⟩, .isWhitelisted "10.1.2.3" 5].foldl Call.run .init

theorem toList_withOffice :
    withOffice.whitelist.toList = [office, ⟨"::1", none, none⟩] ∧
      withOffice.blacklist.toList = [] := by
  decide +kernel

/-- Nothing has expired at time `5`. -/
theorem apt_withOffice {ip : String} (hip : ip = "::1" ∨ ∃ q : Quad, ip = q.text) :
    Apt withOffice.whitelist ip 5 := by
  refine ⟨fun hnone => ?_, ⟨fun e he _ h => ?_, fun _ e he h => ?_⟩⟩
  · have hquad : ∃ q : Quad, ip = q.text := by
      refine hip.resolve_left ?_
      rintro rfl
      exact KeyedList.get_eq_none_iff.mp hnone ⟨"::1", none, none⟩
        (toList_withOffice.1 ▸ mem_cons_of_mem _ mem_cons_self) rfl
    rw [toList_withOffice.1]
    refine ⟨fun cidr hcidr => ⟨?_, hquad⟩, fun _ => ⟨nofun, fun _ => trivial⟩⟩
    exact ⟨⟨10, 0, 0, 0⟩, 8, by decide, (Option.some.inj hcidr).symm.trans (by decide)⟩
  all_goals
    rw [toList_withOffice.1, mem_pair] at he
    rcases he with rfl | rfl <;> exact absurd h (by decide)

/-- The IPv6 address is found by its key, and the other one by the range. -/
theorem answers_withOffice :
    ((isWhitelisted "::1" 5 withOffice).1 = true ↔ Declared withOffice.whitelist "::1" 5) ∧
    ((isWhitelisted "10.1.2.3" 5 withOffice).1 = true ↔
      Declared withOffice.whitelist "10.1.2.3" 5) ∧
    (checkAccess "10.1.2.3" 5 withOffice).1 = ⟨true, some "whitelisted", none⟩ := by
  have hsix := apt_withOffice (.inl rfl)
  have hfour : Apt withOffice.whitelist "10.1.2.3" 5 :=
    apt_withOffice (.inr ⟨⟨10, 1, 2, 3⟩, by decide⟩)
  have h := answers_iff _ .init withOffice rfl rfl "10.1.2.3" 5
  refine ⟨((answers_iff _ .init withOffice rfl rfl "::1" 5).1 hsix.1).mpr hsix.2,
    (h.1 hfour.1).mpr hfour.2, (h.2.2.2.2 hfour).1 ⟨office, ?_, by decide, .inr ?_⟩⟩
  · rw [toList_withOffice.1]
    exact mem_cons_self
  · exact ⟨_, rfl, ⟨10, 1, 2, 3⟩, ⟨10, 0, 0, 0⟩, 8, by decide, by decide, by decide⟩

/-- **A range goes on after it has expired.** No entry of the whitelist is for an
address in the range of the expired one, and the address is whitelisted. -/
theorem isWhitelisted_expired :
    (isWhitelisted "10.1.2.3" 11 withOffice).1 = true ∧
      ¬Declared withOffice.whitelist "10.1.2.3" 11 ∧
      (checkAccess "10.1.2.3" 11 withOffice).1 = ⟨true, some "whitelisted", none⟩ := by
  refine ⟨by decide +kernel, ?_, by decide +kernel⟩
  rintro ⟨e, he, hfresh, hfor⟩
  rw [toList_withOffice.1, mem_pair] at he
  rcases he with rfl | rfl
  · exact absurd hfresh (by decide)
  · rcases hfor with hip | ⟨cidr, hcidr, -⟩
    · exact absurd hip (by decide)
    · exact absurd hcidr nofun

end ControlPlane.IpManager
