import Revalle.Data.Incremental
import Revalle.Http.HttpHeader
import Revalle.Http.One.Parser

/-!
# Parsing a request head in pieces

The request parser goes through its stages once. What it keeps between two calls
is the stage, the fields of a request line that was accepted, and what it has
not used of the input. In the second and the third stage it starts over from
there with more input, and as a line ends at its first LF and a header block at
its first empty line, it comes to the same result.

The first stage is different. It skips empty lines before the request line, but
only once: a CR that is the last character to have arrived is not followed by an
LF yet, so it is no empty line, and from then on it belongs to the request line.
A request that begins with CRLF is rejected if the LF comes later.
-/

namespace Http.One

open Ascii Incremental List

/-! ## The request line -/

structure ProtocolVersion where
  major : ℕ
  minor : ℕ
  deriving DecidableEq, Repr

/-- What a request line consists of. -/
structure RequestLine where
  method : List UInt8
  uri : List UInt8
  version : ProtocolVersion
  deriving DecidableEq, Repr

/-- The codes that `parseStatusCode` takes. -/
inductive StatusCode
  | scNone
  | scOkay
  | scBadRequest
  | scUriTooLong
  | scRequestHeaderFieldsTooLarge
  deriving DecidableEq, Repr

/-- The configuration that the parser reads, and the names of the methods that it
knows. -/
structure RequestConfig where
  relaxed : Bool
  maxRequestHeaderSize : ℕ
  methodStr : List (List UInt8)

namespace RequestConfig

variable (cfg : RequestConfig)

/-- The image of `HttpRequestMethod(s)`. -/
def method (s : List UInt8) : List UInt8 :=
  (cfg.methodStr.find? fun image =>
    image.map tolower = s.map tolower ∧ (cfg.relaxed ∨ image = s)).getD s

/-- `skipDelimiter`: whether that many delimiters are fine. -/
def skipDelimiter (count : ℕ) : Bool := 0 < count ∧ (count ≤ 1 ∨ cfg.relaxed)

/-- The method and what follows the delimiters after it. -/
def parseMethodField (tok : List UInt8) : Option (List UInt8 × List UInt8) :=
  let methodFound := (tok.take 32).takeWhile tchar
  let tok := tok.drop methodFound.length
  let delimiters := tok.takeWhile (delimiterCharacters cfg.relaxed)
  if methodFound ≠ [] ∧ cfg.skipDelimiter delimiters.length then
    some (cfg.method methodFound, tok.drop delimiters.length)
  else none

/-- What precedes the CRs at the end of the line. -/
def skipTrailingCrs (tok : List UInt8) : Option (List UInt8) :=
  if cfg.relaxed then some (tok.rdropWhile (· = 0x0d))
  else if tok.getLast? = some 0x0d then some tok.dropLast
  else none

/-- `skipSuffix`. -/
def skipSuffix (token tok : List UInt8) : Option (List UInt8) :=
  if token <:+ tok then some (tok.take (tok.length - token.length)) else none

/-- A version other than the usual ones, and what precedes it. -/
def parseOtherVersion (tok : List UInt8) : Option (ProtocolVersion × List UInt8) := do
  let minor := tok.rtakeWhile isdigit
  let tok := tok.rdropWhile isdigit
  if minor = [] ∨ tok.getLast? ≠ some 0x2e then none
  else
    let tok := tok.dropLast
    let major := tok.rtakeWhile isdigit
    if major = [] then none
    else
      let tok ← skipSuffix [0x48, 0x54, 0x54, 0x50, 0x2f] (tok.rdropWhile isdigit)
      -- '0.0' for unsupported multiple digit version numbers
      if 1 < major.length ∨ 1 < minor.length then some (⟨0, 0⟩, tok)
      else some (⟨digitsValue major, digitsValue minor⟩, tok)

def parseHttpVersionField (method tok : List UInt8) : Option (ProtocolVersion × List UInt8) :=
  match skipSuffix [0x48, 0x54, 0x54, 0x50, 0x2f, 0x31, 0x2e, 0x31] tok with
  | some tok => some (⟨1, 1⟩, tok)
  | none =>
    match skipSuffix [0x48, 0x54, 0x54, 0x50, 0x2f, 0x31, 0x2e, 0x30] tok with
    | some tok => some (⟨1, 0⟩, tok)
    | none =>
      match parseOtherVersion tok with
      | some result => some result
      -- a GET request might use HTTP/0.9 syntax
      | none => if method = [0x47, 0x45, 0x54] then some (⟨0, 9⟩, tok) else none

/-- `UriValidCharacters()`. -/
def uriValidCharacters (c : UInt8) : Bool :=
  isdigit c || isupper c || islower c ||
    c ∈ ([0x3a, 0x2f, 0x3f, 0x23, 0x5b, 0x5d, 0x40, 0x21, 0x24, 0x26, 0x27, 0x28, 0x29, 0x2a,
      0x2b, 0x2c, 0x3b, 0x3d, 0x2d, 0x2e, 0x5f, 0x7e, 0x25] : List UInt8)

/-- With `USE_HTTP_VIOLATIONS`. -/
def requestTargetCharacters (c : UInt8) : Bool :=
  uriValidCharacters c ||
    cfg.relaxed && (delimiterCharacters true c || 0x80 ≤ c ||
      c ∈ ([0x22, 0x5c, 0x7c, 0x5e, 0x3c, 0x3e, 0x60, 0x7b, 0x7d] : List UInt8))

/-- The URI is all that is left of the line. -/
def parseUriField (tok : List UInt8) : Except StatusCode (List UInt8) :=
  let uriFound := tok.takeWhile cfg.requestTargetCharacters
  if uriFound = [] then .error .scBadRequest
  else if 64 * 1024 - 1 < uriFound.length then .error .scUriTooLong
  else if uriFound ≠ tok then .error .scBadRequest
  else .ok uriFound

/-- The fields of a request line without its LF. -/
def parseLine (line : List UInt8) : Except StatusCode RequestLine :=
  match cfg.parseMethodField line with
  | none => .error .scBadRequest
  | some (method, tok) =>
    match cfg.skipTrailingCrs tok with
    | none => .error .scBadRequest
    | some tok =>
      match parseHttpVersionField method tok with
      | none => .error .scBadRequest
      | some (version, tok) =>
        let delimiters := tok.rtakeWhile (delimiterCharacters cfg.relaxed)
        if version.major = 0 then
          (cfg.parseUriField tok).map (⟨method, ·, version⟩)
        else if cfg.skipDelimiter delimiters.length then
          (cfg.parseUriField (tok.rdropWhile (delimiterCharacters cfg.relaxed))).map
            (⟨method, ·, version⟩)
        else .error .scBadRequest

end RequestConfig

/-! ## The parser -/

/-- `ParseState`, as far as requests and responses go. -/
inductive ParseState
  | none
  | first
  | mime
  | done
  deriving DecidableEq, Repr

structure RequestParser where
  stage : ParseState := .none
  parseStatusCode : StatusCode := .scNone
  /-- `method_`, `uri_` and `msgProtocol_` -/
  line : RequestLine := ⟨[], [], ⟨0, 0⟩⟩
  mimeHeader : List UInt8 := []
  remaining : List UInt8 := []
  deriving DecidableEq, Repr

namespace RequestParser

variable (cfg : RequestConfig)

def firstLineSize (p : RequestParser) : ℕ := p.line.method.length + p.line.uri.length + 12

/-- The loop of `skipGarbageLines`. -/
def skipEmptyLines : List UInt8 → List UInt8
  | [] => []
  | c :: cs =>
    if c = 0x0a then skipEmptyLines cs
    else if c = 0x0d ∧ cs.head? = some 0x0a then skipEmptyLines cs
    else c :: cs

def skipGarbageLines (buf : List UInt8) : List UInt8 :=
  if cfg.relaxed then skipEmptyLines buf else buf

/-- The third stage. -/
def parseMime (p : RequestParser) : RequestParser :=
  if p.line.version.major = 1 then
    match grabMimeBlock cfg.maxRequestHeaderSize p.firstLineSize p.remaining with
    | .found block rest => { p with stage := .done, mimeHeader := block, remaining := rest }
    | .tooLarge rest =>
      { p with
        stage := .done
        parseStatusCode := .scRequestHeaderFieldsTooLarge
        remaining := rest }
    | .incomplete => p
  else { p with stage := .done }

/-- The second stage, and the third after it. -/
def parseFirst (p : RequestParser) : RequestParser :=
  let line := p.remaining.takeWhile (· ≠ 0x0a)
  if line = [] ∨ 0x0a ∉ p.remaining then
    if cfg.maxRequestHeaderSize ≤ p.remaining.length then
      { p with
        stage := .done
        parseStatusCode :=
          if (cfg.parseMethodField p.remaining).isNone then .scBadRequest else .scUriTooLong }
    else p
  else
    match cfg.parseLine line with
    | .error code => { p with stage := .done, parseStatusCode := code }
    | .ok fields =>
      parseMime cfg { p with
        stage := .mime
        parseStatusCode := .scOkay
        line := fields
        remaining := p.remaining.drop (line.length + 1) }

/-- `doParse`. -/
def parse (p : RequestParser) (buf : List UInt8) : RequestParser :=
  match p.stage with
  | .none =>
    let buf := skipGarbageLines cfg buf
    if buf = [] then { p with remaining := [] }
    else parseFirst cfg { p with stage := .first, remaining := buf }
  | .first => parseFirst cfg { p with remaining := buf }
  | .mime => parseMime cfg { p with remaining := buf }
  | .done => { p with remaining := buf }

/-- The parser as one that is fed in pieces. -/
def incremental : Parser RequestParser UInt8 := ⟨parse cfg, remaining⟩

/-! ## Cuts that do not matter -/

/-- The parser has finished and the request head is good. -/
def Accepted (p : RequestParser) : Prop := p.stage = .done ∧ p.parseStatusCode = .scOkay

def Rejected (p : RequestParser) : Prop := p.stage = .done ∧ p.parseStatusCode ≠ .scOkay

/-- Nobody looks at a parser that has given up. -/
def Same (p q : RequestParser) : Prop := p = q ∨ Rejected p ∧ Rejected q

/-- A cut is good unless it parts the CR and the LF of an empty line before the
request. -/
def GoodCut (before x : List UInt8) : Prop :=
  ¬(skipEmptyLines before = [0x0d] ∧ x.head? = some 0x0a)

instance (before x : List UInt8) : Decidable (GoodCut before x) := by
  unfold GoodCut
  infer_instance

variable {cfg} {p q : RequestParser} {a b : List UInt8}

theorem feed_done (h : p.stage = .done) (x : List UInt8) :
    (incremental cfg).feed p x = { p with remaining := p.remaining ++ x } := by
  show parse cfg p (p.remaining ++ x) = _
  rw [parse, h]

theorem Rejected.feed (h : Rejected p) (x : List UInt8) :
    Rejected ((incremental cfg).feed p x) := by
  rw [feed_done h.1]
  exact h

theorem skipEmptyLines_append (h : GoodCut a b) : skipEmptyLines (a ++ b) =
      if skipEmptyLines a = [] then skipEmptyLines b else skipEmptyLines a ++ b := by
  induction a with
  | nil => rfl
  | cons c cs ih =>
    rw [cons_append]
    unfold GoodCut skipEmptyLines at h
    rw [skipEmptyLines, skipEmptyLines]
    by_cases hlf : c = 0x0a
    · rw [if_pos hlf] at h
      rw [if_pos hlf, if_pos hlf]
      exact ih h
    · rw [if_neg hlf] at h
      rw [if_neg hlf, if_neg hlf]
      by_cases hcr : c = 0x0d ∧ cs.head? = some 0x0a
      · rw [if_pos hcr] at h
        have happ : (cs ++ b).head? = some 0x0a := by rw [head?_append, hcr.2]; rfl
        rw [if_pos ⟨hcr.1, happ⟩, if_pos hcr]
        exact ih h
      · rw [if_neg hcr] at h
        have happ : ¬(c = 0x0d ∧ (cs ++ b).head? = some 0x0a) := by
          rintro ⟨hc, hhead⟩
          cases cs with
          | nil => exact h ⟨by rw [hc], hhead⟩
          | cons d ds => exact hcr ⟨hc, hhead⟩
        rw [if_neg happ, if_neg hcr, if_neg (cons_ne_nil _ _), cons_append]

theorem skipGarbageLines_append (h : cfg.relaxed = true → GoodCut a b) :
    skipGarbageLines cfg (a ++ b) = if skipGarbageLines cfg a = [] then skipGarbageLines cfg b
      else skipGarbageLines cfg a ++ b := by
  unfold skipGarbageLines
  cases hr : cfg.relaxed with
  | true => exact skipEmptyLines_append (h hr)
  | false =>
    show a ++ b = if a = [] then b else a ++ b
    split
    next hnil => rw [hnil, nil_append]
    next => rfl

/-- **The third stage starts over** with more input. -/
theorem parseMime_feed (hstage : p.stage = .mime) (b : List UInt8) :
    Same ((incremental cfg).feed (parseMime cfg p) b)
      (parseMime cfg { p with remaining := p.remaining ++ b }) := by
  by_cases hmajor : p.line.version.major = 1
  · have hgrab := grabMimeBlock_append cfg.maxRequestHeaderSize p.firstLineSize p.remaining b
    have hwhole : parseMime cfg { p with remaining := p.remaining ++ b } = _ := if_pos hmajor
    have hpart : parseMime cfg p = _ := if_pos hmajor
    change _ = (match grabMimeBlock cfg.maxRequestHeaderSize p.firstLineSize (p.remaining ++ b) with
      | .found _ _ => _ | .tooLarge _ => _ | .incomplete => _) at hwhole
    cases hcase : grabMimeBlock cfg.maxRequestHeaderSize p.firstLineSize p.remaining with
    | found block rest =>
      rw [hcase] at hgrab hpart
      rw [show grabMimeBlock _ _ (p.remaining ++ b) = _ from hgrab] at hwhole
      rw [hpart, hwhole, feed_done rfl]
      exact .inl rfl
    | tooLarge rest =>
      rw [hcase] at hgrab hpart
      obtain ⟨rest', hrest⟩ := hgrab
      rw [hrest] at hwhole
      rw [hpart, hwhole]
      have hcode : StatusCode.scRequestHeaderFieldsTooLarge ≠ .scOkay := by decide
      exact .inr ⟨Rejected.feed ⟨rfl, hcode⟩ b, rfl, hcode⟩
    | incomplete =>
      rw [hcase] at hpart
      rw [hpart]
      show Same (parse cfg p (p.remaining ++ b)) _
      rw [parse, hstage]
      exact .inl rfl
  · have hpart : parseMime cfg p = { p with stage := .done } := if_neg hmajor
    have hwhole : parseMime cfg { p with remaining := p.remaining ++ b } =
        { p with stage := .done, remaining := p.remaining ++ b } := if_neg hmajor
    rw [hpart, hwhole, feed_done rfl]
    exact .inl rfl

theorem parseUriField_ne {tok : List UInt8} : cfg.parseUriField tok ≠ .error .scOkay := by
  intro h
  unfold RequestConfig.parseUriField at h
  simp only at h
  repeat' split at h
  all_goals cases h

/-- A line that is not parsed is rejected. -/
theorem parseLine_ne {line : List UInt8} : cfg.parseLine line ≠ .error .scOkay := by
  have hmap : ∀ {tok : List UInt8} (f : List UInt8 → RequestLine),
      (cfg.parseUriField tok).map f ≠ .error .scOkay := by
    intro tok f h
    cases huri : cfg.parseUriField tok with
    | error code =>
      rw [huri] at h
      exact parseUriField_ne (huri.trans (by cases h; rfl))
    | ok uri =>
      rw [huri] at h
      cases h
  intro h
  unfold RequestConfig.parseLine at h
  simp only at h
  repeat' split at h
  all_goals first | exact hmap _ h | cases h

theorem takeWhile_line (h : 0x0a ∈ a) (b : List UInt8) :
    (a ++ b).takeWhile (· ≠ (0x0a : UInt8)) = a.takeWhile (· ≠ 0x0a) ∧
      (a.takeWhile (· ≠ (0x0a : UInt8))).length + 1 ≤ a.length := by
  have hlt : (a.takeWhile (· ≠ (0x0a : UInt8))).length ≠ a.length := by
    intro heq
    have hall := takeWhile_eq_self_iff.mp (( takeWhile_prefix _).eq_of_length heq)
    simpa using hall _ h
  rw [takeWhile_append, if_neg hlt]
  exact ⟨rfl, ( takeWhile_prefix _).length_le.lt_of_ne hlt⟩

/-- **The second stage starts over** with more input. -/
theorem parseFirst_feed (hstage : p.stage = .first) (b : List UInt8)
    (hsize : (p.remaining ++ b).length < cfg.maxRequestHeaderSize) :
    Same ((incremental cfg).feed (parseFirst cfg p) b)
      (parseFirst cfg { p with remaining := p.remaining ++ b }) := by
  have hshort : ¬ cfg.maxRequestHeaderSize ≤ p.remaining.length := by
    rw [length_append] at hsize
    omega
  by_cases hline : p.remaining.takeWhile (· ≠ 0x0a) = [] ∨ 0x0a ∉ p.remaining
  · -- there is no line yet
    have hpart : parseFirst cfg p = p := (if_pos hline).trans (if_neg hshort)
    rw [hpart]
    show Same (parse cfg p (p.remaining ++ b)) _
    rw [parse, hstage]
    exact .inl rfl
  · obtain ⟨hne, hmem⟩ := not_or.mp hline
    rw [not_not] at hmem
    obtain ⟨htake, hlen⟩ := takeWhile_line hmem b
    have hline' : ¬((p.remaining ++ b).takeWhile (· ≠ 0x0a) = [] ∨ 0x0a ∉ p.remaining ++ b) := by
      rw [htake]
      rintro (h | h)
      · exact hne h
      · exact h (mem_append_left _ hmem)
    have hpart : parseFirst cfg p = _ := if_neg hline
    have hwhole : parseFirst cfg { p with remaining := p.remaining ++ b } = _ := if_neg hline'
    cases hparse : cfg.parseLine (p.remaining.takeWhile (· ≠ 0x0a)) with
    | error code =>
      have hcode : code ≠ .scOkay := fun h => parseLine_ne (h ▸ hparse)
      simp only [htake, hparse] at hpart hwhole
      rw [hpart, hwhole]
      exact .inr ⟨Rejected.feed ⟨rfl, hcode⟩ b, rfl, hcode⟩
    | ok fields =>
      simp only [htake, hparse, drop_append_of_le_length hlen] at hpart hwhole
      rw [hpart, hwhole]
      exact parseMime_feed (p := { p with
        stage := .mime, parseStatusCode := .scOkay, line := fields
        remaining := p.remaining.drop ((p.remaining.takeWhile (· ≠ 0x0a)).length + 1) }) rfl b

theorem length_skipEmptyLines_le (a : List UInt8) : (skipEmptyLines a).length ≤ a.length := by
  induction a with
  | nil => exact le_rfl
  | cons c cs ih =>
    rw [skipEmptyLines]
    split
    · exact Nat.le_succ_of_le ih
    · split
      · exact Nat.le_succ_of_le ih
      · exact le_rfl

/-- **A good cut does not matter.** -/
theorem joins_of_goodCut (hcut : cfg.relaxed = true → GoodCut a b)
    (hsize : (a ++ b).length < cfg.maxRequestHeaderSize) : (incremental cfg).Joins Same {} a b := by
  have hskip := skipGarbageLines_append hcut
  show Same ((incremental cfg).feed (parse cfg {} a) b) (parse cfg {} (a ++ b))
  by_cases hnil : skipGarbageLines cfg a = []
  · rw [if_pos hnil] at hskip
    have hpart : parse cfg {} a = {} := if_pos hnil
    rw [hpart]
    left
    show parse cfg {} b = parse cfg {} (a ++ b)
    unfold parse
    simp only [hskip]
  · rw [if_neg hnil] at hskip
    have hpart : parse cfg {} a =
        parseFirst cfg { stage := .first, remaining := skipGarbageLines cfg a } := if_neg hnil
    have hwhole : parse cfg {} (a ++ b) =
        parseFirst cfg { stage := .first, remaining := skipGarbageLines cfg a ++ b } := by
      rw [← hskip]
      exact if_neg (by rw [hskip]; exact append_ne_nil_of_left_ne_nil hnil _)
    rw [hpart, hwhole]
    refine parseFirst_feed (p := { stage := .first, remaining := skipGarbageLines cfg a }) rfl b ?_
    have hle : (skipGarbageLines cfg a).length ≤ a.length := by
      unfold skipGarbageLines
      split
      · exact length_skipEmptyLines_le a
      · exact le_rfl
    rw [length_append] at hsize ⊢
    exact lt_of_le_of_lt (Nat.add_le_add_right hle _) hsize

theorem feedAll_same_parse (pieces : List (List UInt8))
    (hcuts : cfg.relaxed = true → Parser.Cuts GoodCut pieces)
    (hsize : pieces.flatten.length < cfg.maxRequestHeaderSize) :
    Same ((incremental cfg).feedAll {} pieces) (parse cfg {} pieces.flatten) := by
  by_cases hne : pieces = []
  · subst hne
    have hnil : skipGarbageLines cfg [] = [] := by
      unfold skipGarbageLines
      split <;> rfl
    exact .inl (if_pos hnil).symm
  · refine Parser.feedAll_same Rejected.feed rfl pieces hne fun before x after heq hbefore => ?_
    refine joins_of_goodCut (fun hr => hcuts hr before x after heq hbefore) ?_
    rw [heq, flatten_append, flatten_cons, ← append_assoc, length_append] at hsize
    exact lt_of_le_of_lt (Nat.le_add_right _ _) hsize

/-- **A request head may arrive in pieces.** If no empty line before the request is
cut between its CR and its LF, the request is accepted if and only if it is when
it arrives at once, and as the same request. -/
theorem accepted_feedAll_iff (pieces : List (List UInt8))
    (hcuts : cfg.relaxed = true → Parser.Cuts GoodCut pieces)
    (hsize : pieces.flatten.length < cfg.maxRequestHeaderSize) :
    (Accepted ((incremental cfg).feedAll {} pieces) ↔ Accepted (parse cfg {} pieces.flatten)) ∧
      (Accepted (parse cfg {} pieces.flatten) →
        (incremental cfg).feedAll {} pieces = parse cfg {} pieces.flatten) := by
  rcases feedAll_same_parse pieces hcuts hsize with heq | ⟨hp, hq⟩
  · rw [heq]
    exact ⟨Iff.rfl, fun _ => rfl⟩
  · exact ⟨⟨fun h => absurd h.2 hp.2, fun h => absurd h.2 hq.2⟩, fun h => absurd h.2 hq.2⟩

/-- A relaxed parser that knows of `GET` only. -/
def relaxedConfig : RequestConfig := ⟨true, 64, [[0x47, 0x45, 0x54]]⟩

/-- `GET / HTTP/1.1` with no header fields. -/
def getRequest : List UInt8 :=
  [0x47, 0x45, 0x54, 0x20, 0x2f, 0x20, 0x48, 0x54, 0x54, 0x50, 0x2f, 0x31, 0x2e, 0x31, 0x0d, 0x0a,
    0x0d, 0x0a]

theorem accepted_feedAll_get :
    Accepted ((incremental relaxedConfig).feedAll {} [[0x0d, 0x0a], getRequest]) := by
  have hcuts : Parser.Cuts GoodCut [[0x0d, 0x0a], getRequest] := by
    intro before x after heq hbefore
    -- the only cut is the one after the empty line
    cases before with
    | nil => exact absurd rfl hbefore
    | cons y ys =>
      obtain ⟨rfl, htail⟩ := List.cons.inj heq
      cases ys with
      | nil =>
        obtain ⟨rfl, -⟩ := List.cons.inj htail
        decide
      | cons z zs =>
        have hlen := congrArg List.length htail
        simp at hlen
  exact (@accepted_feedAll_iff relaxedConfig _ (fun _ => hcuts) (by decide)).1.mpr
    ⟨by decide +kernel, by decide +kernel⟩

/-- **A cut inside of an empty line matters.** The request is accepted if it
arrives at once, and rejected if the first piece ends with the CR. -/
theorem not_accepted_feedAll_of_cut :
    Accepted (parse relaxedConfig {} [[0x0d], 0x0a :: getRequest].flatten) ∧
      ¬ Accepted ((incremental relaxedConfig).feedAll {} [[0x0d], 0x0a :: getRequest]) := by
  refine ⟨⟨by decide +kernel, by decide +kernel⟩, fun h => ?_⟩
  have hcode : ((incremental relaxedConfig).feedAll {}
      [[0x0d], 0x0a :: getRequest]).parseStatusCode = .scBadRequest := by decide +kernel
  rw [h.2] at hcode
  cases hcode

end RequestParser

end Http.One
