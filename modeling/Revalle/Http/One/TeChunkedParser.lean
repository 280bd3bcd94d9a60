import Revalle.Http.One.ResponseParser

/-!
# Decoding chunks in pieces

The chunked parser is a machine: it reads the size of a chunk, its extensions one
by one, its data, the end of it, and after the last chunk the trailer. A step of
the machine looks at its own characters only, so it is the same step with more
input. A call runs the machine until it needs more input, or more space for the
data. All calls together are one run then, and however the bytes arrive, the run
ends in the same place.

This is so for all steps but two. White space may precede the first extension,
and `parseChunkMetadataSuffix` skips it first of all, whenever it is called: also
when it is called again, behind an extension, where white space may stand only
before another extension. So `5;a=b` with a space and CRLF behind it is an error,
but not if the input is cut after the space. And a trailer of 64 KB or more is
removed from the input if its end is there, and left otherwise.
-/

namespace Http.One

open Ascii List Nat

/-! ## The parts of a chunk -/

/-- `tok.skipRequired`. -/
def skipRequired (token tok : List UInt8) : Part Unit :=
  if token <+: tok then .ok () (tok.drop token.length)
  else if tok <+: token then .more
  else .error

def crLf : List UInt8 := [0x0d, 0x0a]

/-- `ParseBws_`. -/
def parseBws (bwsChars : UInt8 → Bool) (tok : List UInt8) : Part Unit :=
  match tok.dropWhile bwsChars with
  | [] => .more
  | c :: rest => .ok () (c :: rest)

/-- `CharacterSet::WSP`. -/
def wsp (c : UInt8) : Bool := c == 0x20 || c == 0x09

/-- The throwing `tok.prefix`, of tokens. -/
def parseToken (tok : List UInt8) : Part Unit :=
  match tok with
  | [] => .more
  | c :: _ =>
    if tchar c then
      match tok.dropWhile tchar with
      | [] => .more
      | d :: rest => .ok () (d :: rest)
    else .error

/-- `qdtext1p1`. -/
def qdtext (c : UInt8) : Bool :=
  c = 0x21 ∨ 0x23 ≤ c ∧ c ≤ 0x5b ∨ 0x5d ≤ c ∧ c ≤ 0x7e ∨ c = 0x09 ∨ c = 0x20 ∨ 0x80 ≤ c

/-- `qPairChars`. -/
def qPairChars (c : UInt8) : Bool := c = 0x09 ∨ c = 0x20 ∨ 0x21 ≤ c ∧ c ≤ 0x7e ∨ 0x80 ≤ c

/-- `parseQuotedStringSuffix` of HTTP/1.1. -/
def parseQuotedStringSuffix : List UInt8 → Part Unit
  | [] => .more
  | [c] =>
    if c = 0x22 then .ok () []
    else if c = 0x5c ∨ qdtext c then .more
    else .error
  | c :: d :: cs =>
    if c = 0x22 then .ok () (d :: cs)
    else if c = 0x5c then
      if qPairChars d then parseQuotedStringSuffix cs else .error
    else if qdtext c then parseQuotedStringSuffix (d :: cs)
    else .error

def tokenOrQuotedString (tok : List UInt8) : Part Unit :=
  match tok with
  | [] => .more
  | c :: rest => if c = 0x22 then parseQuotedStringSuffix rest else parseToken (c :: rest)

/-- What may follow the name of an extension. Without a value, the extension ends
with its name. -/
def parseExtensionValue (relaxed : Bool) (tok : List UInt8) : Part Unit :=
  match parseBws (whitespaceCharacters relaxed) tok with
  | .ok _ rest =>
    if rest.head? = some 0x3d then
      (parseBws (whitespaceCharacters relaxed) rest.tail).bind fun _ => tokenOrQuotedString
    else .ok () tok
  | .error => .error
  | .more => .more

/-- `parseOneChunkExtension`, its value ignored. -/
def parseOneChunkExtension (relaxed : Bool) (tok : List UInt8) : Part Unit :=
  (parseBws (whitespaceCharacters relaxed) tok).bind fun _ tok =>
    (parseToken tok).bind fun _ => parseExtensionValue relaxed

/-- A round of `parseChunkExtensions`: whether there was another extension. If not,
the CRLF is read as well. -/
def parseChunkExtension (relaxed : Bool) (tok : List UInt8) : Part Bool :=
  match parseBws (whitespaceCharacters relaxed) tok with
  | .ok _ rest =>
    if rest.head? = some 0x3b then
      (parseOneChunkExtension relaxed rest.tail).bind fun _ => .ok true
    else (skipRequired crLf tok).bind fun _ => .ok false
  | .error => .error
  | .more => .more

/-- The same from the beginning of `parseChunkMetadataSuffix`, unless the parser is
`inside` of the list already. -/
def parseChunkMetadata (relaxed inside : Bool) (tok : List UInt8) : Part Bool :=
  if inside then parseChunkExtension relaxed tok
  else (parseBws wsp tok).bind fun _ => parseChunkExtension relaxed

def isxdigit (c : UInt8) : Bool := isdigit c || 0x41 ≤ c && c ≤ 0x46 || 0x61 ≤ c && c ≤ 0x66

def xdigitValue (c : UInt8) : ℕ :=
  if isdigit c then c.toNat - 0x30 else if isupper c then c.toNat - 0x37 else c.toNat - 0x57

def xdigitsValue (digits : List UInt8) : ℕ := digits.foldl (fun n c => 16 * n + xdigitValue c) 0

def parseChunkSize (tok : List UInt8) : Part ℕ :=
  let digits := tok.takeWhile isxdigit
  if [0x30, 0x78] <+: tok ∨ [0x30, 0x58] <+: tok then .error
  else if tok = [] then .more
  else if digits = [] ∨ 2 ^ 63 ≤ xdigitsValue digits then .error
  else if digits = tok then .more
  else .ok (xdigitsValue digits) (tok.drop digits.length)

/-! ## The machine -/

inductive ChunkState
  | chunkSz
  /-- `inside` says whether this call of `parseChunkMetadataSuffix` has read an
  extension already -/
  | chunkExt (inside : Bool)
  | chunk
  | mime
  | done
  /-- after an exception -/
  | threw
  /-- after a trailer that is too large -/
  | tooLarge
  deriving DecidableEq, Repr

structure TeChunkedParser where
  /-- `parsingStage_`; the first call makes `HTTP_PARSE_CHUNK_SZ` of
  `HTTP_PARSE_NONE` -/
  stage : ChunkState := .chunkSz
  theChunkSize : ℕ := 0
  theLeftBodySize : ℕ := 0
  /-- all that was ever appended to `theOut` -/
  payload : List UInt8 := []
  mimeHeader : List UInt8 := []
  remaining : List UInt8 := []
  deriving DecidableEq, Repr

namespace TeChunkedParser

variable (relaxed : Bool)

/-- A step: the next part of the input, or one byte of data. `none` if there is
need for more input, or nothing left to do. -/
def step (p : TeChunkedParser) : Option TeChunkedParser :=
  match p.stage with
  | .chunkSz =>
    match parseChunkSize p.remaining with
    | .ok size rest =>
      some { p with
        stage := .chunkExt false, theChunkSize := size, theLeftBodySize := size
        remaining := rest }
    | .error => some { p with stage := .threw }
    | .more => none
  | .chunkExt inside =>
    match parseChunkMetadata relaxed inside p.remaining with
    | .ok true rest => some { p with stage := .chunkExt true, remaining := rest }
    | .ok false rest =>
      some { p with
        stage := if p.theChunkSize = 0 then .mime else .chunk, remaining := rest }
    | .error => some { p with stage := .threw }
    | .more => none
  | .chunk =>
    match p.theLeftBodySize, p.remaining with
    | _ + 1, [] => none
    | left + 1, c :: rest =>
      some { p with theLeftBodySize := left, payload := p.payload ++ [c], remaining := rest }
    | 0, buf =>
      match skipRequired crLf buf with
      | .ok _ rest => some { p with stage := .chunkSz, theChunkSize := 0, remaining := rest }
      | .error => some { p with stage := .threw }
      | .more => none
  | .mime =>
    match grabMimeBlock (64 * 1024) 0 p.remaining with
    | .found block rest => some { p with stage := .done, mimeHeader := block, remaining := rest }
    | .tooLarge rest => some { p with stage := .tooLarge, remaining := rest }
    | .incomplete => none
  | .done | .threw | .tooLarge => none

/-- Whether the next step is to append a byte. -/
def appends (p : TeChunkedParser) : Bool := p.stage = .chunk ∧ 0 < p.theLeftBodySize

/-- The loop of `parse`, for `space` bytes of data. -/
def run : ℕ → ℕ → TeChunkedParser → TeChunkedParser
  | 0, _, p => p
  | fuel + 1, space, p =>
    if p.appends ∧ space = 0 then p
    else
      match step relaxed p with
      | none => p
      | some q => run fuel (if p.appends then space - 1 else space) q

/-- The parser as the next call finds it: `parseChunkMetadataSuffix` starts again. -/
def restart (p : TeChunkedParser) : TeChunkedParser :=
  match p.stage with
  | .chunkExt _ => { p with stage := .chunkExt false }
  | _ => p

/-- `parse`. Every step uses some input, but for the last. -/
def parse (space : ℕ) (p : TeChunkedParser) (buf : List UInt8) : TeChunkedParser :=
  run relaxed (buf.length + 2) space { p.restart with remaining := buf }

end TeChunkedParser

/-! ## Parts are settled -/

theorem settled_skipRequired (token : List UInt8) : Settled (skipRequired token) := by
  intro a b
  unfold skipRequired
  by_cases htoken : token <+: a
  · rw [if_pos htoken, if_pos (htoken.trans (prefix_append a b)),
      drop_append_of_le_length htoken.length_le]
  · by_cases hmore : a <+: token
    · rw [if_neg htoken, if_pos hmore]
      trivial
    · obtain ⟨h1, h2⟩ := ResponseParser.not_prefix_append b htoken hmore
      rw [if_neg htoken, if_neg hmore, if_neg h1, if_neg h2]

variable {rest a : List UInt8} {α : Type}

theorem dropWhile_append_of_cons {f : UInt8 → Bool} {c : UInt8} (h : a.dropWhile f = c :: rest)
    (b : List UInt8) : (a ++ b).dropWhile f = c :: (rest ++ b) := by
  rw [dropWhile_append, h, if_neg (by simp), cons_append]

theorem settled_parseBws (bwsChars : UInt8 → Bool) : Settled (parseBws bwsChars) := by
  intro a b
  unfold parseBws
  cases h : a.dropWhile bwsChars with
  | nil => trivial
  | cons c rest =>
    rw [dropWhile_append_of_cons h b]
    rfl

theorem settled_parseToken : Settled parseToken := by
  intro a b
  cases a with
  | nil => trivial
  | cons c cs =>
    unfold parseToken
    rw [cons_append]
    by_cases hc : tchar c
    · simp only [if_pos hc]
      cases h : (c :: cs).dropWhile tchar with
      | nil => trivial
      | cons d rest =>
        have happ := dropWhile_append_of_cons h b
        rw [cons_append] at happ
        simp only [happ, cons_append]
    · simp only [if_neg hc]

theorem settled_parseQuotedStringSuffix : Settled parseQuotedStringSuffix := by
  intro a b
  fun_induction parseQuotedStringSuffix a with
  | case1 => trivial
  | case2 =>
    cases b <;> simp [parseQuotedStringSuffix]
  | case3 => trivial
  | case4 c hquote hnot =>
    obtain ⟨hslash, hqd⟩ := not_or.mp hnot
    cases b <;> simp [parseQuotedStringSuffix, hquote, hslash, hqd]
  | case5 d cs => simp [parseQuotedStringSuffix]
  | case6 d cs hpair _ ih => simpa [parseQuotedStringSuffix, hpair] using ih
  | case7 d cs hpair _ => simp [parseQuotedStringSuffix, hpair]
  | case8 c d cs hquote hslash hqd ih =>
    simpa [parseQuotedStringSuffix, hquote, hslash, hqd] using ih
  | case9 c d cs hquote hslash hqd => simp [parseQuotedStringSuffix, hquote, hslash, hqd]

theorem settled_tokenOrQuotedString : Settled tokenOrQuotedString := by
  intro a b
  cases a with
  | nil => trivial
  | cons c cs =>
    unfold tokenOrQuotedString
    rw [cons_append]
    by_cases hc : c = 0x22
    · simp only [if_pos hc]
      exact settled_parseQuotedStringSuffix cs b
    · simp only [if_neg hc]
      exact settled_parseToken (c :: cs) b

/-- What follows white space is not empty. -/
theorem parseBws_cons {bwsChars : UInt8 → Bool} (h : parseBws bwsChars a = .ok () rest) :
    ∃ c cs, rest = c :: cs := by
  unfold parseBws at h
  split at h
  · cases h
  next c cs _ =>
    cases h
    exact ⟨c, cs, rfl⟩

/-- A look behind white space, for one character that decides how to go on. -/
theorem settled_lookAhead {bwsChars : UInt8 → Bool} {c : UInt8} {f g : List UInt8 → Part α}
    (hf : Settled f) (hg : Settled g) :
    Settled fun tok => match parseBws bwsChars tok with
      | .ok _ rest => if rest.head? = some c then f rest.tail else g tok
      | .error => .error
      | .more => .more := by
  intro a b
  cases h : parseBws bwsChars a with
  | ok value rest =>
    have happ := (settled_parseBws bwsChars).ok h b
    obtain ⟨d, ds, rfl⟩ := parseBws_cons h
    simp only [h, happ, cons_append, head?_cons, tail_cons, Option.some.injEq]
    by_cases hd : d = c
    · simp only [if_pos hd]
      exact hf ds b
    · simp only [if_neg hd]
      exact hg a b
  | error =>
    have happ := (settled_parseBws bwsChars).error h b
    simp only [h, happ]
  | more => simp only [h]

section

variable (relaxed : Bool)

theorem settled_parseExtensionValue : Settled (parseExtensionValue relaxed) :=
  settled_lookAhead ((settled_parseBws _).bind fun _ => settled_tokenOrQuotedString) (settled_ok ())

theorem settled_parseOneChunkExtension : Settled (parseOneChunkExtension relaxed) :=
  (settled_parseBws _).bind fun _ =>
    settled_parseToken.bind fun _ => settled_parseExtensionValue relaxed

theorem settled_parseChunkExtension : Settled (parseChunkExtension relaxed) :=
  settled_lookAhead ((settled_parseOneChunkExtension relaxed).bind fun _ => settled_ok true)
    ((settled_skipRequired crLf).bind fun _ => settled_ok false)

theorem settled_parseChunkMetadata (inside : Bool) :
    Settled (parseChunkMetadata relaxed inside) := by
  cases inside with
  | true => exact settled_parseChunkExtension relaxed
  | false => exact (settled_parseBws wsp).bind fun _ => settled_parseChunkExtension relaxed

end

theorem xdigitsValue_le_append (d e : List UInt8) : xdigitsValue d ≤ xdigitsValue (d ++ e) := by
  have hfold : ∀ (e : List UInt8) (n : ℕ), n ≤ e.foldl (fun n c => 16 * n + xdigitValue c) n := by
    intro e
    induction e with
    | nil => exact fun n => le_rfl
    | cons c cs ih => exact fun n => le_trans (by omega) (ih (16 * n + xdigitValue c))
  rw [xdigitsValue, xdigitsValue, foldl_append]
  exact hfold e _

theorem settled_parseChunkSize : Settled parseChunkSize := by
  intro a b
  unfold parseChunkSize
  by_cases hx : [0x30, 0x78] <+: a ∨ [0x30, 0x58] <+: a
  · have hx' : [0x30, 0x78] <+: a ++ b ∨ [0x30, 0x58] <+: a ++ b :=
      hx.imp (·.trans (prefix_append a b)) (·.trans (prefix_append a b))
    simp only [if_pos hx, if_pos hx']
  · by_cases hnil : a = []
    · simp only [if_neg hx, if_pos hnil]
    · have hnil' : a ++ b ≠ [] := append_ne_nil_of_left_ne_nil hnil b
      by_cases hall : a.takeWhile isxdigit = a
      · -- there may be more digits
        by_cases hbig : 2 ^ 63 ≤ xdigitsValue a
        · have hdigits : (a ++ b).takeWhile isxdigit = a ++ b.takeWhile isxdigit :=
            takeWhile_append_of_pos (takeWhile_eq_self_iff.mp hall)
          have hbig' : 2 ^ 63 ≤ xdigitsValue (a ++ b.takeWhile isxdigit) :=
            hbig.trans (xdigitsValue_le_append _ _)
          simp only [if_neg hx, if_neg hnil, hall, hbig, or_true, if_true, hdigits, if_neg hnil',
            hbig', ite_self]
        · have hnot : ¬(a = [] ∨ 2 ^ 63 ≤ xdigitsValue a) := not_or.mpr ⟨hnil, hbig⟩
          simp only [if_neg hx, if_neg hnil, hall, if_neg hnot, if_true]
      · have hlt : (a.takeWhile isxdigit).length < a.length := by
          refine lt_of_le_of_ne (List.takeWhile_prefix _).length_le fun h => hall ?_
          exact (List.takeWhile_prefix _).eq_of_length h
        have hdigits : (a ++ b).takeWhile isxdigit = a.takeWhile isxdigit := by
          rw [takeWhile_append, if_neg (Nat.ne_of_lt hlt)]
        by_cases hbad : a.takeWhile isxdigit = [] ∨ 2 ^ 63 ≤ xdigitsValue (a.takeWhile isxdigit)
        · simp only [if_neg hx, if_neg hnil, if_pos hbad, hdigits, if_neg hnil', ite_self]
        · -- two characters tell a hexadecimal prefix
          have hlen : 2 ≤ a.length := by
            have := length_pos_of_ne_nil (not_or.mp hbad).1
            omega
          have hstart : ∀ t : List UInt8, t.length = 2 → t <+: a ++ b → t <+: a := fun t ht h =>
            prefix_of_prefix_length_le h (prefix_append a b) (ht ▸ hlen)
          have hx' : ¬([0x30, 0x78] <+: a ++ b ∨ [0x30, 0x58] <+: a ++ b) := fun h =>
            hx (h.imp (hstart _ rfl) (hstart _ rfl))
          have hall' : a.takeWhile isxdigit ≠ a ++ b := fun h => by
            have := congrArg length h
            rw [length_append] at this
            omega
          simp only [if_neg hx, if_neg hnil, if_neg hbad, if_neg hall, if_neg hx', if_neg hnil',
            hdigits, if_neg hall', drop_append_of_le_length hlt.le]

/-! ## Parts use input -/

/-- A part leaves no more than it was given. -/
def Shrinks {α : Type} (f : List UInt8 → Part α) : Prop :=
  ∀ ⦃a value rest⦄, f a = .ok value rest → rest.length ≤ a.length

theorem Shrinks.bind {β : Type} {f : List UInt8 → Part α} {g : α → List UInt8 → Part β}
    (hf : Shrinks f) (hg : ∀ v, Shrinks (g v)) : Shrinks fun tok => (f tok).bind g := by
  intro a value rest h
  obtain ⟨v, r, hpart, h⟩ := Part.of_bind_eq_ok h
  exact (hg v h).trans (hf hpart)

theorem shrinks_parseBws (bwsChars : UInt8 → Bool) : Shrinks (parseBws bwsChars) := by
  intro a value rest h
  unfold parseBws at h
  split at h
  · cases h
  next c cs heq =>
    cases h
    exact heq ▸ (dropWhile_suffix _).length_le

theorem shrinks_parseToken : Shrinks parseToken := by
  intro a value rest h
  unfold parseToken at h
  split at h
  · cases h
  · split at h
    · split at h
      · cases h
      next heq =>
        cases h
        exact heq ▸ (dropWhile_suffix _).length_le
    · cases h

theorem shrinks_parseQuotedStringSuffix : Shrinks parseQuotedStringSuffix := by
  intro a value rest h
  fun_induction parseQuotedStringSuffix a with
  | case2 | case5 =>
    cases h
    exact le_succ _
  | case6 d cs _ _ ih => exact (ih h).trans (le_add_right _ 2)
  | case8 c d cs _ _ _ ih => exact (ih h).trans (le_succ _)
  | case1 | case3 | case4 | case7 | case9 => cases h

theorem shrinks_tokenOrQuotedString : Shrinks tokenOrQuotedString := by
  intro a value rest h
  unfold tokenOrQuotedString at h
  split at h
  · cases h
  · split at h
    · exact (shrinks_parseQuotedStringSuffix h).trans (le_succ _)
    · exact shrinks_parseToken h

theorem shrinks_parseExtensionValue (relaxed : Bool) : Shrinks (parseExtensionValue relaxed) := by
  intro a value rest h
  unfold parseExtensionValue at h
  split at h
  next r hr =>
    split at h
    · have hle := Shrinks.bind (shrinks_parseBws _) (fun _ => shrinks_tokenOrQuotedString) h
      exact hle.trans (((tail_suffix _).length_le).trans (shrinks_parseBws _ hr))
    · cases h
      exact le_rfl
  · cases h
  · cases h

theorem shrinks_parseOneChunkExtension (relaxed : Bool) :
    Shrinks (parseOneChunkExtension relaxed) :=
  Shrinks.bind (shrinks_parseBws _) fun _ =>
    Shrinks.bind shrinks_parseToken fun _ => shrinks_parseExtensionValue relaxed

theorem length_skipRequired_crLf {value : Unit} (h : skipRequired crLf a = .ok value rest) :
    rest.length < a.length := by
  unfold skipRequired at h
  split at h
  next hstart =>
    cases h
    have hle : crLf.length ≤ a.length := hstart.length_le
    rw [length_drop]
    exact sub_lt (lt_of_lt_of_le (by decide) hle) (by decide)
  · split at h <;> cases h

theorem length_parseChunkExtension {relaxed more : Bool}
    (h : parseChunkExtension relaxed a = .ok more rest) : rest.length < a.length := by
  unfold parseChunkExtension at h
  split at h
  next r hr =>
    split at h
    · obtain ⟨c, cs, rfl⟩ := parseBws_cons hr
      obtain ⟨v, r, hone, h⟩ := Part.of_bind_eq_ok h
      cases h
      exact lt_of_le_of_lt (shrinks_parseOneChunkExtension relaxed hone) (shrinks_parseBws _ hr)
    · obtain ⟨v, r, hcrlf, h⟩ := Part.of_bind_eq_ok h
      cases h
      exact length_skipRequired_crLf hcrlf
  · cases h
  · cases h

theorem length_parseChunkMetadata {relaxed inside more : Bool}
    (h : parseChunkMetadata relaxed inside a = .ok more rest) : rest.length < a.length := by
  cases inside with
  | true => exact length_parseChunkExtension h
  | false =>
    obtain ⟨v, r, hbws, h⟩ := Part.of_bind_eq_ok (x := parseBws wsp a) h
    exact lt_of_lt_of_le (length_parseChunkExtension h) (shrinks_parseBws _ hbws)

theorem length_parseChunkSize {n : ℕ} (h : parseChunkSize a = .ok n rest) :
    rest.length < a.length := by
  unfold parseChunkSize at h
  simp only at h
  split at h
  · cases h
  split at h
  · cases h
  split at h
  · cases h
  next hnil hbad =>
    split at h
    · cases h
    · cases h
      rw [length_drop]
      exact sub_lt (length_pos_of_ne_nil hnil) (length_pos_of_ne_nil (not_or.mp hbad).1)

/-! ## Runs -/

namespace TeChunkedParser

open Relation

variable {relaxed : Bool} {p q : TeChunkedParser}

/-- The parser when more input has arrived. -/
def plus (p : TeChunkedParser) (b : List UInt8) : TeChunkedParser :=
  { p with remaining := p.remaining ++ b }

/-- A run of the machine. -/
def Steps (relaxed : Bool) : TeChunkedParser → TeChunkedParser → Prop :=
  ReflTransGen fun p q => step relaxed p = some q

/-- Nothing can be done without more input. -/
def Stuck (relaxed : Bool) (p : TeChunkedParser) : Prop := step relaxed p = none

/-- The end of a trailer does not come with the bytes `b` if 64 KB of it were there without. -/
def EndsInTime (trailer b : List UInt8) : Prop :=
  64 * 1024 ≤ trailer.length → headersEnd .atStart trailer = none →
    headersEnd .atStart (trailer ++ b) = none

instance (trailer b : List UInt8) : Decidable (EndsInTime trailer b) :=
  inferInstanceAs (Decidable (_ → _ → _))

/-- What is left to do: the input, and one more step to the end. -/
def measure (p : TeChunkedParser) : ℕ :=
  p.remaining.length + if p.stage = .done ∨ p.stage = .threw ∨ p.stage = .tooLarge then 0 else 1

/-- **A step is the same step with more input**, and every step uses input, but for
the last. -/
theorem step_spec (h : step relaxed p = some q) (b : List UInt8) :
    ((p.stage = .mime → EndsInTime p.remaining b) →
      step relaxed (p.plus b) = some (q.plus b)) ∧
      q.measure < p.measure ∧ q.remaining.length ≤ p.remaining.length := by
  obtain ⟨stage, size, left, payload, mime, buf⟩ := p
  cases stage with
  | chunkSz =>
    simp only [step, plus] at h ⊢
    cases hpart : parseChunkSize buf with
    | ok n rest =>
      have hlt := length_parseChunkSize hpart
      rw [hpart] at h
      cases h
      rw [settled_parseChunkSize.ok hpart b]
      exact ⟨fun _ => rfl, by simp [measure, hlt], hlt.le⟩
    | error =>
      rw [hpart] at h
      cases h
      rw [settled_parseChunkSize.error hpart b]
      exact ⟨fun _ => rfl, by simp [measure], le_rfl⟩
    | more =>
      rw [hpart] at h
      cases h
  | chunkExt inside =>
    simp only [step, plus] at h ⊢
    cases hpart : parseChunkMetadata relaxed inside buf with
    | ok more rest =>
      have hlt := length_parseChunkMetadata hpart
      rw [hpart] at h
      rw [(settled_parseChunkMetadata relaxed inside).ok hpart b]
      cases more with
      | true =>
        cases h
        exact ⟨fun _ => rfl, by simp [measure, hlt], hlt.le⟩
      | false =>
        cases h
        refine ⟨fun _ => rfl, ?_, hlt.le⟩
        by_cases hsize : size = 0 <;> simp [measure, hlt, hsize]
    | error =>
      rw [hpart] at h
      cases h
      rw [(settled_parseChunkMetadata relaxed inside).error hpart b]
      exact ⟨fun _ => rfl, by simp [measure], le_rfl⟩
    | more =>
      rw [hpart] at h
      cases h
  | chunk =>
    simp only [step, plus] at h ⊢
    cases left with
    | zero =>
      cases hpart : skipRequired crLf buf with
      | ok value rest =>
        have hlt := length_skipRequired_crLf hpart
        simp only [hpart] at h
        cases h
        simp only [(settled_skipRequired crLf).ok hpart b]
        exact ⟨fun _ => trivial, by simp [measure, hlt], hlt.le⟩
      | error =>
        simp only [hpart] at h
        cases h
        simp only [(settled_skipRequired crLf).error hpart b]
        exact ⟨fun _ => trivial, by simp [measure], le_rfl⟩
      | more =>
        simp only [hpart] at h
        cases h
    | succ left =>
      cases buf with
      | nil => cases h
      | cons c rest =>
        cases h
        exact ⟨fun _ => rfl, by simp [measure], le_succ _⟩
  | mime =>
    simp only [step, plus] at h ⊢
    have hgrab := grabMimeBlock_append (64 * 1024) 0 buf b
    have hle := length_grabMimeBlock (64 * 1024) 0 buf
    cases hpart : grabMimeBlock (64 * 1024) 0 buf with
    | found block rest =>
      rw [hpart] at h hgrab hle
      cases h
      rw [show grabMimeBlock _ _ (buf ++ b) = _ from hgrab]
      exact ⟨fun _ => rfl, by simpa [measure] using lt_succ_of_le hle, hle⟩
    | tooLarge rest =>
      rw [hpart] at h hle
      cases h
      refine ⟨fun hend => ?_, by simpa [measure] using lt_succ_of_le hle, hle⟩
      rw [grabMimeBlock_tooLarge_append hpart (hend trivial)]
    | incomplete =>
      rw [hpart] at h
      cases h
  | done => cases h
  | threw => cases h
  | tooLarge => cases h

/-- **A run is the same run with more input.** -/
theorem Steps.plus (h : Steps relaxed p q) {b : List UInt8}
    (hend : ∀ m, Steps relaxed p m → m.stage = .mime → EndsInTime m.remaining b) :
    Steps relaxed (p.plus b) (q.plus b) := by
  induction h with
  | refl => exact .refl
  | @tail m r hm hstep ih => exact ih.tail ((step_spec hstep b).1 (hend m hm))

/-- **A run has one end.** -/
theorem Steps.unique {q' : TeChunkedParser} (h : Steps relaxed p q) (h' : Steps relaxed p q')
    (hq : Stuck relaxed q) (hq' : Stuck relaxed q') : q = q' := by
  have hend : ∀ {r s}, Stuck relaxed r → Steps relaxed r s → r = s := fun hr hrs => by
    rcases ReflTransGen.cases_head hrs with heq | ⟨t, ht, -⟩
    · exact heq
    · rw [hr] at ht
      cases ht
  have hdet : Relator.RightUnique fun p q => step relaxed p = some q := fun p q r h1 h2 =>
    Option.some.inj (h1.symm.trans h2)
  rcases ReflTransGen.total_of_right_unique hdet h h' with h | h
  · exact hend hq h
  · exact (hend hq' h).symm

theorem steps_run (fuel space : ℕ) (p : TeChunkedParser) :
    Steps relaxed p (run relaxed fuel space p) := by
  induction fuel generalizing space p with
  | zero => exact .refl
  | succ fuel ih =>
    rw [run]
    split
    · exact .refl
    · cases h : step relaxed p with
      | none => exact .refl
      | some q => exact .head h (ih _ q)

theorem length_lt_of_appends (happ : p.appends = true) (h : step relaxed p = some q) :
    q.remaining.length + 1 = p.remaining.length := by
  obtain ⟨stage, size, left, payload, mime, buf⟩ := p
  have ⟨hstage, hleft⟩ := of_decide_eq_true happ
  subst hstage
  cases left with
  | zero => exact absurd hleft (lt_irrefl _)
  | succ left =>
    cases buf with
    | nil => cases h
    | cons c rest =>
      cases h
      rfl

theorem stuck_of_appends (happ : p.appends = true) (h : p.remaining = []) : Stuck relaxed p := by
  cases hstep : step relaxed p with
  | none => exact hstep
  | some q =>
    have hlen := length_lt_of_appends happ hstep
    rw [h] at hlen
    cases hlen

/-- **A call ends for want of input**, or of space that it has used. -/
theorem stuck_run {fuel : ℕ} (space : ℕ) {p : TeChunkedParser} (hfuel : p.measure < fuel) :
    Stuck relaxed (run relaxed fuel space p) ∨ (run relaxed fuel space p).appends = true ∧
      (run relaxed fuel space p).remaining.length + space ≤ p.remaining.length := by
  induction fuel generalizing space p with
  | zero => exact absurd hfuel (not_lt_zero _)
  | succ fuel ih =>
    rw [run]
    split
    next hstop => exact .inr ⟨hstop.1, by rw [hstop.2, Nat.add_zero]⟩
    · cases h : step relaxed p with
      | none => exact .inl h
      | some q =>
        obtain ⟨-, hlt, hle⟩ := step_spec h []
        refine (ih _ (lt_of_lt_of_le hlt (le_of_lt_succ hfuel))).imp_right
          (And.imp_right fun hused => ?_)
        dsimp only
        by_cases happ : p.appends = true
        · have hlen := length_lt_of_appends happ h
          rw [if_pos happ] at hused ⊢
          omega
        · rw [if_neg happ] at hused ⊢
          exact hused.trans hle

/-- With space for all of the input, a call ends for want of input. -/
theorem stuck_run_of_space {fuel space : ℕ} (hfuel : p.measure < fuel)
    (hspace : p.remaining.length ≤ space) : Stuck relaxed (run relaxed fuel space p) := by
  refine (stuck_run space hfuel).elim id fun ⟨happ, hused⟩ => stuck_of_appends happ ?_
  exact eq_nil_of_length_eq_zero (by omega)

/-! ## Feeding -/

/-- Whitespace comes next, behind a chunk extension. -/
def BeforeWsp (p : TeChunkedParser) : Prop :=
  p.stage = .chunkExt true ∧ ∃ c ∈ p.remaining.head?, wsp c = true

instance (p : TeChunkedParser) : Decidable p.BeforeWsp := by
  unfold BeforeWsp
  infer_instance

theorem parseChunkMetadata_inside {buf : List UInt8} (h : ∀ c ∈ buf.head?, wsp c = false) :
    parseChunkMetadata relaxed false buf = parseChunkMetadata relaxed true buf := by
  cases buf with
  | nil => rfl
  | cons c cs =>
    have hc : wsp c = false := h c rfl
    change (parseBws wsp (c :: cs)).bind _ = _
    have hbws : parseBws wsp (c :: cs) = .ok () (c :: cs) := by
      simp [parseBws, hc]
    rw [hbws]
    rfl

/-- Starting the metadata again makes a difference before whitespace only. -/
theorem step_restart (h : ¬ p.BeforeWsp) : step relaxed p.restart = step relaxed p := by
  obtain ⟨stage, size, left, payload, mime, buf⟩ := p
  cases stage with
  | chunkExt inside =>
    cases inside with
    | false => rfl
    | true =>
      have hbuf : ∀ c ∈ buf.head?, wsp c = false := fun c hc =>
        Bool.eq_false_iff.mpr fun hwsp => h ⟨rfl, c, hc, hwsp⟩
      simp only [step, restart, parseChunkMetadata_inside hbuf]
      rfl
  | _ => rfl

@[simp]
theorem restart_plus (b : List UInt8) : (p.plus b).restart = p.restart.plus b := by
  obtain ⟨stage⟩ := p
  cases stage <;> rfl

@[simp]
theorem restart_restart : p.restart.restart = p.restart := by
  obtain ⟨stage⟩ := p
  cases stage <;> rfl

@[simp]
theorem appends_restart : p.restart.appends = p.appends := by
  obtain ⟨stage⟩ := p
  cases stage <;> rfl

@[simp]
theorem restart_remaining : p.restart.remaining = p.remaining := by
  obtain ⟨stage⟩ := p
  cases stage <;> rfl

theorem measure_le : p.measure ≤ p.remaining.length + 1 := by
  unfold measure
  split
  · exact le_succ _
  · exact le_rfl

/-- The parser after all of the input, given in one call with space for the data. -/
def whole (relaxed : Bool) (buf : List UInt8) : TeChunkedParser :=
  parse relaxed buf.length {} buf

theorem steps_whole (buf : List UInt8) : Steps relaxed { remaining := buf } (whole relaxed buf) :=
  steps_run _ _ _

theorem stuck_whole (buf : List UInt8) : Stuck relaxed (whole relaxed buf) :=
  stuck_run_of_space (lt_succ_of_le measure_le) le_rfl

/-- What the machine finds of a trailer, if it gets to one. -/
def trailer (relaxed : Bool) : ℕ → TeChunkedParser → Option (List UInt8)
  | 0, _ => none
  | fuel + 1, p =>
    if p.stage = .mime then some p.remaining
    else (step relaxed p).bind (trailer relaxed fuel)

theorem trailer_of_steps {fuel : ℕ} (h : Steps relaxed p q) (hq : q.stage = .mime)
    (hfuel : p.measure < fuel) : trailer relaxed fuel p = some q.remaining := by
  induction h using ReflTransGen.head_induction_on generalizing fuel with
  | refl =>
    obtain _ | fuel := fuel
    · exact absurd hfuel (not_lt_zero _)
    · rw [trailer, if_pos hq]
  | @head p m hstep hrest ih =>
    obtain _ | fuel := fuel
    · exact absurd hfuel (not_lt_zero _)
    rw [trailer]
    split
    next hp =>
      -- a step from the trailer is the last
      have hlast : Stuck relaxed m ∧ m.stage ≠ .mime := by
        rw [step, hp] at hstep
        simp only at hstep
        split at hstep <;> cases hstep <;> exact ⟨rfl, nofun⟩
      rcases ReflTransGen.cases_head hrest with rfl | ⟨r, hr, -⟩
      · exact absurd hq hlast.2
      · exact absurd (hlast.1.symm.trans hr) nofun
    next =>
      rw [hstep, Option.bind_some]
      exact ih (lt_of_lt_of_le (step_spec hstep []).2.1 (le_of_lt_succ hfuel))

/-- What a parser is after the bytes `fed`: a state of the machine, but for where in
the chunk metadata it is; and the machine has stopped, or waits for space. -/
def Reached (relaxed : Bool) (fed : List UInt8) (p : TeChunkedParser) : Prop :=
  ∃ m, Steps relaxed { remaining := fed } m ∧ m.restart = p.restart ∧
    (Stuck relaxed m ∨ m.appends = true)

/-- A cut that is not followed by whitespace behind a chunk extension, or by the end of
a trailer of which 64 KB or more are before the cut. -/
def GoodCut (relaxed : Bool) (before after : List UInt8) : Prop :=
  ¬ ((whole relaxed before).plus after).BeforeWsp ∧
    ∀ t ∈ trailer relaxed (before.length + 2) { remaining := before }, EndsInTime t after

instance (before after : List UInt8) : Decidable (GoodCut relaxed before after) := by
  unfold GoodCut
  infer_instance

/-- **A call keeps to the machine.** -/
theorem Reached.parse {fed : List UInt8} (h : Reached relaxed fed p) (space : ℕ)
    {b : List UInt8} (hcut : GoodCut relaxed fed b) :
    Reached relaxed (fed ++ b) (parse relaxed space p (p.remaining ++ b)) := by
  have hplus : { p.restart with remaining := p.remaining ++ b } = p.restart.plus b := by
    rw [plus, restart_remaining]
  rw [TeChunkedParser.parse, hplus]
  obtain ⟨m, hsteps, hrestart, hend⟩ := h
  have hsteps' := hsteps.plus fun r hr hmime =>
    hcut.2 r.remaining (trailer_of_steps hr hmime (lt_succ_of_le measure_le))
  have hstep : step relaxed (p.restart.plus b) = step relaxed (m.plus b) := by
    rw [← hrestart, ← restart_plus]
    refine step_restart fun hwsp => ?_
    -- between extensions the machine does not wait for space, so it has stopped
    have hstuck : Stuck relaxed m := hend.resolve_right fun happ => by
      have happ := (of_decide_eq_true happ).1
      rw [show m.stage = .chunkExt true from hwsp.1] at happ
      cases happ
    have hwhole := hsteps.unique (steps_whole fed) hstuck (stuck_whole fed)
    exact hcut.1 (hwhole ▸ hwsp)
  have hfuel : (p.restart.plus b).measure < (p.remaining ++ b).length + 2 := by
    refine lt_succ_of_le (measure_le.trans_eq ?_)
    rw [plus, restart_remaining]
  have hrun := (@stuck_run relaxed _ space _ hfuel).imp_right And.left
  cases ReflTransGen.cases_head (steps_run _ space (p.restart.plus b)) with
  | inl hnone =>
    rw [← hnone] at hrun ⊢
    refine ⟨m.plus b, hsteps', ?_, ?_⟩
    · rw [restart_plus, restart_plus, hrestart, restart_restart]
    · rw [← hrestart, ← restart_plus, appends_restart, restart_plus, hrestart] at hrun
      exact hrun.imp_left hstep.symm.trans
  | inr hsome =>
    obtain ⟨t, ht, hrest⟩ := hsome
    exact ⟨_, hsteps'.trans (.head (hstep.symm.trans ht) hrest), rfl, hrun⟩

/-- `parse` is called with the pieces, each behind what the last call left, and with
space for so many bytes of data. -/
def feedAll (relaxed : Bool) (p : TeChunkedParser) (pieces : List (List UInt8 × ℕ)) :
    TeChunkedParser :=
  pieces.foldl (fun p piece => parse relaxed piece.2 p (p.remaining ++ piece.1)) p

/-- All cuts between the pieces are good, after the bytes `fed`. -/
def GoodCuts (relaxed : Bool) : List UInt8 → List (List UInt8 × ℕ) → Prop
  | _, [] => True
  | fed, piece :: pieces => GoodCut relaxed fed piece.1 ∧ GoodCuts relaxed (fed ++ piece.1) pieces

instance decidableGoodCuts : ∀ (fed : List UInt8) (pieces : List (List UInt8 × ℕ)),
    Decidable (GoodCuts relaxed fed pieces)
  | _, [] => isTrue trivial
  | fed, piece :: pieces =>
    haveI := decidableGoodCuts (fed ++ piece.1) pieces
    inferInstanceAs (Decidable (_ ∧ _))

theorem Reached.feedAll {pieces : List (List UInt8 × ℕ)} {fed : List UInt8} {p : TeChunkedParser}
    (h : Reached relaxed fed p) (hcuts : GoodCuts relaxed fed pieces) :
    Reached relaxed (fed ++ (pieces.map Prod.fst).flatten) (feedAll relaxed p pieces) := by
  induction pieces generalizing fed p with
  | nil =>
    rw [map_nil, flatten_nil, append_nil]
    exact h
  | cons piece pieces ih =>
    have hfed := ih (h.parse piece.2 hcuts.1) hcuts.2
    rwa [append_assoc] at hfed

/-- There is data left that the last call had no space for. -/
def NeedsSpace (p : TeChunkedParser) : Prop := p.appends = true ∧ p.remaining ≠ []

instance (p : TeChunkedParser) : Decidable p.NeedsSpace := by
  unfold NeedsSpace
  infer_instance

/-- What a parser has come to. -/
def outcome (p : TeChunkedParser) : ChunkState × List UInt8 × List UInt8 × List UInt8 :=
  (p.restart.stage, p.payload, p.mimeHeader, p.remaining)

theorem outcome_restart : p.restart.outcome = p.outcome := by
  obtain ⟨stage⟩ := p
  cases stage <;> rfl

theorem Reached.outcome {fed : List UInt8} (h : Reached relaxed fed p) (hspace : ¬ p.NeedsSpace) :
    p.outcome = (whole relaxed fed).outcome := by
  obtain ⟨m, hsteps, hrestart, hend⟩ := h
  have hstuck : Stuck relaxed m := by
    refine hend.elim id fun happ => ?_
    have hp : p.appends = true := by rwa [← appends_restart, ← hrestart, appends_restart]
    have hnil : p.remaining = [] := not_not.mp fun hne => hspace ⟨hp, hne⟩
    refine stuck_of_appends happ ?_
    rw [← restart_remaining, hrestart, restart_remaining, hnil]
  rw [← hsteps.unique (steps_whole fed) hstuck (stuck_whole fed), ← outcome_restart, ← hrestart,
    outcome_restart]

end TeChunkedParser

end Http.One
