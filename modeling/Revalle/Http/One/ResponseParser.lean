import Revalle.Http.One.RequestParser

/-!
# Parsing a response head in pieces

The response parser has checkpoints inside of the status line: after the version
and after the status code. Between two calls it keeps what it knows and starts
over from the last checkpoint. For this to be harmless, each part must be
recognized from its own characters: whenever a part is accepted or rejected,
more input would not have changed that, and when it is neither, all of the
input so far was looked at and could go on.
-/

namespace Http.One

open Ascii Incremental List

/-- The protocols of a response, with the minor version of HTTP/1. -/
inductive ResponseProtocol
  | http (minor : ℕ)
  | icy
  deriving DecidableEq, Repr

structure ResponseConfig where
  relaxed : Bool
  maxReplyHeaderSize : ℕ

structure ResponseParser where
  stage : ParseState := .none
  /-- whether the parser gave up, with `scInvalidHeader` or `scHeaderTooLarge` -/
  failed : Bool := false
  /-- `msgProtocol_`, unless it is `PROTO_NONE` -/
  msgProtocol : Option ResponseProtocol := .none
  /-- `statusCode_`, once `completedStatus_` is set -/
  statusCode : Option ℕ := .none
  reasonPhrase : List UInt8 := []
  mimeHeader : List UInt8 := []
  remaining : List UInt8 := []
  deriving DecidableEq, Repr

namespace ResponseParser

variable (cfg : ResponseConfig)

/-- `tok.int64` with base ten, no sign and a limit: the number and what follows. -/
def int64 (limit : ℕ) (tok : List UInt8) : Option (ℕ × List UInt8) :=
  let digits := (tok.take limit).takeWhile isdigit
  if digits = [] then none else some (digitsValue digits, tok.drop digits.length)

/-- A number and the delimiter behind it. -/
def numberAndDelimiter (limit : ℕ) (tok : List UInt8) : Part ℕ :=
  match int64 limit tok with
  | none => if tok = [] then .more else .error
  | some (_, []) => .more
  | some (n, c :: rest) => if delimiterCharacters cfg.relaxed c then .ok n rest else .error

def parseResponseStatus (tok : List UInt8) : Part ℕ :=
  match numberAndDelimiter cfg 3 tok with
  | .ok code rest => if code ≤ 99 ∨ 600 ≤ code then .error else .ok code rest
  | .error => .error
  | .more => .more

/-- `CharacterSet::WSP + VCHAR + OBSTEXT`. -/
def phraseChars (c : UInt8) : Bool := c = 0x20 ∨ c = 0x09 ∨ 0x21 ≤ c ∧ c ≤ 0x7e ∨ 0x80 ≤ c

/-- `skipLineTerminator`. -/
def skipLineTerminator (tok : List UInt8) : Part Unit :=
  if cfg.relaxed ∧ tok.head? = some 0x0a then .ok () tok.tail
  else if [0x0d, 0x0a] <+: tok then .ok () (tok.drop 2)
  else if tok <+: [0x0d, 0x0a] then .more
  else .error

/-- The reason phrase with the end of its line. -/
def parseReason (tok : List UInt8) : Part (List UInt8) :=
  let reason := tok.takeWhile phraseChars
  match skipLineTerminator cfg (tok.drop reason.length) with
  | .ok _ rest => .ok reason rest
  | .error => .error
  | .more => .more

def http1magic : List UInt8 := [0x48, 0x54, 0x54, 0x50, 0x2f, 0x31, 0x2e]

def icyMagic : List UInt8 := [0x49, 0x43, 0x59, 0x20]

/-- The protocol; `none` is a response without a status line. -/
def parseMagic (tok : List UInt8) : Part (Option ResponseProtocol) :=
  if http1magic <+: tok then
    match numberAndDelimiter cfg 1 (tok.drop http1magic.length) with
    | .ok minor rest => .ok (some (.http minor)) rest
    | .error => .error
    | .more => .more
  else if icyMagic <+: tok then .ok (some .icy) (tok.drop icyMagic.length)
  else if tok <+: http1magic ∨ tok <+: icyMagic then .more
  else .ok none tok

def firstLineSize (p : ResponseParser) : ℕ :=
  match p.msgProtocol with
  | none => 0
  | some (.http minor) => 7 + (if 9 < minor then 2 else 1) + 5 + p.reasonPhrase.length + 2
  | some .icy => 4 + 1 + 5 + p.reasonPhrase.length + 2

def fail (p : ResponseParser) : ResponseParser := { p with stage := .done, failed := true }

/-- The third stage. -/
def parseMime (p : ResponseParser) : ResponseParser :=
  match grabMimeBlock cfg.maxReplyHeaderSize p.firstLineSize p.remaining with
  | .found block rest => { p with stage := .done, mimeHeader := block, remaining := rest }
  | .tooLarge rest => fail { p with remaining := rest }
  | .incomplete => p

/-- The reason phrase, and the third stage after it. -/
def readReason (p : ResponseParser) : ResponseParser :=
  match parseReason cfg p.remaining with
  | .ok reason rest =>
    parseMime cfg { p with stage := .mime, reasonPhrase := reason, remaining := rest }
  | .error => fail p
  | .more => p

/-- `parseResponseStatusAndReason`. -/
def parseResponseStatusAndReason (p : ResponseParser) : ResponseParser :=
  match p.statusCode with
  | some _ => readReason cfg p
  | none =>
    match parseResponseStatus cfg p.remaining with
    | .ok code rest => readReason cfg { p with statusCode := some code, remaining := rest }
    | .error => fail p
    | .more => p

/-- The header that is made up for a response without a status line. -/
def fakeHttpMimeBlock : List UInt8 :=
  "X-Transformed-From: HTTP/0.9\r\nMime-Version: 1.0\r\nExpires: -1\r\n\r\n".toUTF8.data.toList

/-- `parseResponseFirstLine`. -/
def parseResponseFirstLine (p : ResponseParser) : ResponseParser :=
  match p.msgProtocol with
  | some _ => parseResponseStatusAndReason cfg p
  | none =>
    match parseMagic cfg p.remaining with
    | .ok (some protocol) rest =>
      parseResponseStatusAndReason cfg { p with msgProtocol := some protocol, remaining := rest }
    | .ok none _ =>
      { p with
        stage := .done
        msgProtocol := some (.http 1)
        statusCode := some 200
        reasonPhrase := "Gatewaying".toUTF8.data.toList
        mimeHeader := fakeHttpMimeBlock }
    | .error => fail p
    | .more => p

def parse (p : ResponseParser) (buf : List UInt8) : ResponseParser :=
  match p.stage with
  | .none =>
    if buf = [] then { p with remaining := [] }
    else parseResponseFirstLine cfg { p with stage := .first, remaining := buf }
  | .first => parseResponseFirstLine cfg { p with remaining := buf }
  | .mime => parseMime cfg { p with remaining := buf }
  | .done => { p with remaining := buf }

/-- The parser as one that is fed in pieces. -/
def incremental : Parser ResponseParser UInt8 := ⟨parse cfg, remaining⟩

/-! ## Parts that are settled -/

variable {cfg} {p q : ResponseParser}

/-- Digits that do not reach the end stay as they are. -/
theorem takeWhile_take_append {limit : ℕ} {a : List UInt8} (b : List UInt8)
    (h : ((a.take limit).takeWhile isdigit).length < a.length) :
    ((a ++ b).take limit).takeWhile isdigit = (a.take limit).takeWhile isdigit := by
  rw [take_append, takeWhile_append]
  split
  · -- there is more of `a` than was taken
    rename_i hall
    have hlimit : limit - a.length = 0 := by
      rw [hall, length_take] at h
      omega
    rw [hlimit, take_zero, takeWhile_nil, append_nil, ( takeWhile_prefix _).eq_of_length hall]
  · rfl

theorem int64_append (limit : ℕ) {a : List UInt8} (b : List UInt8) (ha : a ≠ [])
    (h : ∀ n, int64 limit a ≠ some (n, [])) :
    int64 limit (a ++ b) = (int64 limit a).map fun (n, rest) => (n, rest ++ b) := by
  set d := (a.take limit).takeWhile isdigit with hd
  have hle : d.length ≤ a.length :=
    ((List.takeWhile_prefix _).length_le).trans (length_take_le' _ _)
  have hlt : d.length < a.length := by
    refine lt_of_le_of_ne hle fun heq => ?_
    by_cases hnil : d = []
    · rw [hnil] at heq
      exact ha (eq_nil_of_length_eq_zero heq.symm)
    · refine h (digitsValue d) ?_
      rw [int64, ← hd]
      simp only [if_neg hnil, heq, drop_length]
  have hd' := takeWhile_take_append b hlt
  unfold int64
  simp only [hd', ← hd]
  by_cases hnil : d = []
  · rw [if_pos hnil, if_pos hnil]
    rfl
  · rw [if_neg hnil, if_neg hnil, drop_append_of_le_length hle]
    rfl

theorem settled_numberAndDelimiter (limit : ℕ) : Settled (numberAndDelimiter cfg limit) := by
  intro a b
  by_cases ha : a = []
  · subst ha
    simp [numberAndDelimiter, int64]
  by_cases hend : ∃ n, int64 limit a = some (n, [])
  · obtain ⟨n, hn⟩ := hend
    simp [numberAndDelimiter, hn]
  · have happ := int64_append limit b ha fun n hn => hend ⟨n, hn⟩
    unfold numberAndDelimiter
    rw [happ]
    match h : int64 limit a with
    | none => simp [ha]
    | some (n, []) => exact absurd ⟨n, h⟩ hend
    | some (n, c :: rest) =>
      by_cases hc : delimiterCharacters cfg.relaxed c
      · simp [hc]
      · simp [hc]

theorem settled_parseResponseStatus : Settled (parseResponseStatus cfg) := by
  intro a b
  unfold parseResponseStatus
  cases h : numberAndDelimiter cfg 3 a with
  | ok code rest =>
    rw [(settled_numberAndDelimiter 3).ok h b]
    by_cases hcode : code ≤ 99 ∨ 600 ≤ code
    · simp only [if_pos hcode]
    · simp only [if_neg hcode]
  | error =>
    rw [(settled_numberAndDelimiter 3).error h b]
  | more => trivial

theorem skipLineTerminator_nil : skipLineTerminator cfg [] = .more := by
  simp [skipLineTerminator]

theorem settled_skipLineTerminator : Settled (skipLineTerminator cfg) := by
  intro a b
  match a with
  | [] =>
    rw [skipLineTerminator_nil]
    trivial
  | [c] =>
    by_cases hlf : cfg.relaxed ∧ c = 0x0a
    · simp [skipLineTerminator, hlf.1, hlf.2]
    · by_cases hcr : c = 0x0d
      · have hmore : skipLineTerminator cfg [c] = .more := by
          subst hcr
          simp [skipLineTerminator]
        rw [hmore]
        trivial
      · have hne : ¬ (0x0d : UInt8) = c := fun h => hcr h.symm
        simp [skipLineTerminator, hlf, hcr, hne]
  | c :: d :: cs =>
    by_cases hlf : cfg.relaxed ∧ c = 0x0a
    · simp [skipLineTerminator, hlf.1, hlf.2]
    · by_cases hcrlf : (0x0d : UInt8) = c ∧ (0x0a : UInt8) = d
      · obtain ⟨rfl, rfl⟩ := hcrlf
        simp [skipLineTerminator]
      · have hnot : ¬ (c = 0x0d ∧ d = 0x0a) := fun h => hcrlf ⟨h.1.symm, h.2.symm⟩
        simp only [skipLineTerminator, cons_append, head?_cons, Option.some.injEq,
          if_neg hlf, cons_prefix_cons, nil_prefix, and_true, if_neg hcrlf]
        rw [if_neg fun h => hnot ⟨h.1, h.2.1⟩]
        exact if_neg fun h => hnot ⟨h.1, h.2.1⟩

theorem settled_parseReason : Settled (parseReason cfg) := by
  intro a b
  set reason := a.takeWhile phraseChars with hreason
  have hrest : a.drop reason.length = a.dropWhile phraseChars := by
    conv_lhs => rw [← takeWhile_append_dropWhile (p := phraseChars) (l := a), ← hreason]
    exact drop_left
  have hpart : parseReason cfg a =
      match skipLineTerminator cfg (a.dropWhile phraseChars) with
      | .ok _ rest => .ok reason rest
      | .error => .error
      | .more => .more := by
    unfold parseReason
    simp only [← hreason, hrest]
  by_cases hnil : a.dropWhile phraseChars = []
  · -- the phrase may go on
    rw [hnil, skipLineTerminator_nil] at hpart
    rw [hpart]
    trivial
  · have htake : (a ++ b).takeWhile phraseChars = reason := by
      rw [takeWhile_append, if_neg, hreason]
      intro hlen
      refine hnil ?_
      rw [← hrest, hreason, hlen, drop_length]
    have hdrop : (a ++ b).drop reason.length = a.dropWhile phraseChars ++ b := by
      rw [drop_append_of_le_length (List.takeWhile_prefix _).length_le, hrest]
    have hwhole : parseReason cfg (a ++ b) =
        match skipLineTerminator cfg (a.dropWhile phraseChars ++ b) with
        | .ok _ rest => .ok reason rest
        | .error => .error
        | .more => .more := by
      unfold parseReason
      simp only [htake, hdrop]
    rw [hpart, hwhole]
    cases h : skipLineTerminator cfg (a.dropWhile phraseChars) with
    | ok _ rest => rw [settled_skipLineTerminator.ok h b]
    | error => rw [settled_skipLineTerminator.error h b]
    | more => trivial

/-- Neither of two texts begins the other, with more of the second neither. -/
theorem not_prefix_append {magic a : List UInt8} (b : List UInt8) (h1 : ¬ magic <+: a)
    (h2 : ¬ a <+: magic) : ¬ magic <+: a ++ b ∧ ¬ a ++ b <+: magic :=
  ⟨fun h => (List.prefix_or_prefix_of_prefix h (prefix_append a b)).elim h1 h2,
    fun h => h2 ((prefix_append a b).trans h)⟩

theorem settled_parseMagic : Settled (parseMagic cfg) := by
  intro a b
  by_cases hhttp : http1magic <+: a
  · have hdrop : (a ++ b).drop http1magic.length = a.drop http1magic.length ++ b :=
      drop_append_of_le_length hhttp.length_le
    unfold parseMagic
    rw [if_pos hhttp, if_pos (hhttp.trans (prefix_append a b)), hdrop]
    cases h : numberAndDelimiter cfg 1 (a.drop http1magic.length) with
    | ok minor rest => rw [(settled_numberAndDelimiter 1).ok h b]
    | error => rw [(settled_numberAndDelimiter 1).error h b]
    | more => trivial
  · by_cases hicy : icyMagic <+: a
    · -- the two magic prefixes exclude each other
      have hnot : ¬ http1magic <+: a ++ b := by
        intro h
        rcases prefix_or_prefix_of_prefix h (hicy.trans (prefix_append a b)) with h | h
        · revert h; decide
        · revert h; decide
      unfold parseMagic
      rw [if_neg hhttp, if_pos hicy, if_neg hnot, if_pos (hicy.trans (prefix_append a b)),
        drop_append_of_le_length hicy.length_le]
    · by_cases hmore : a <+: http1magic ∨ a <+: icyMagic
      · unfold parseMagic
        rw [if_neg hhttp, if_neg hicy, if_pos hmore]
        trivial
      · obtain ⟨hm1, hm2⟩ := not_or.mp hmore
        obtain ⟨hh, hh'⟩ := not_prefix_append b hhttp hm1
        obtain ⟨hi, hi'⟩ := not_prefix_append b hicy hm2
        unfold parseMagic
        rw [if_neg hhttp, if_neg hicy, if_neg hmore, if_neg hh, if_neg hi,
          if_neg (not_or.mpr ⟨hh', hi'⟩)]

/-! ## Cuts do not matter -/

def Rejected (p : ResponseParser) : Prop := p.stage = .done ∧ p.failed = true

/-- Nobody looks at a parser that has given up. -/
def Same (p q : ResponseParser) : Prop := p = q ∨ Rejected p ∧ Rejected q

theorem feed_done (h : p.stage = .done) (x : List UInt8) :
    (incremental cfg).feed p x = { p with remaining := p.remaining ++ x } := by
  show parse cfg p (p.remaining ++ x) = _
  rw [parse, h]

theorem feed_first (h : p.stage = .first) (x : List UInt8) : (incremental cfg).feed p x =
      parseResponseFirstLine cfg { p with remaining := p.remaining ++ x } := by
  show parse cfg p (p.remaining ++ x) = _
  rw [parse, h]

theorem Rejected.feed (h : Rejected p) (x : List UInt8) :
    Rejected ((incremental cfg).feed p x) := by
  rw [feed_done h.1]
  exact h

theorem same_fail (p q : ResponseParser) (b : List UInt8) :
    Same ((incremental cfg).feed (fail p) b) (fail q) :=
  .inr ⟨Rejected.feed ⟨rfl, rfl⟩ b, rfl, rfl⟩

/-- **The third stage starts over** with more input. -/
theorem parseMime_feed (hstage : p.stage = .mime) (b : List UInt8) :
    Same ((incremental cfg).feed (parseMime cfg p) b)
      (parseMime cfg { p with remaining := p.remaining ++ b }) := by
  have hgrab := grabMimeBlock_append cfg.maxReplyHeaderSize p.firstLineSize p.remaining b
  have hwhole : parseMime cfg { p with remaining := p.remaining ++ b } =
      match grabMimeBlock cfg.maxReplyHeaderSize p.firstLineSize (p.remaining ++ b) with
      | .found block rest => { p with stage := .done, mimeHeader := block, remaining := rest }
      | .tooLarge rest => fail { p with remaining := rest }
      | .incomplete => { p with remaining := p.remaining ++ b } := rfl
  cases hcase : grabMimeBlock cfg.maxReplyHeaderSize p.firstLineSize p.remaining with
  | found block rest =>
    rw [hcase] at hgrab
    rw [show grabMimeBlock _ _ (p.remaining ++ b) = _ from hgrab] at hwhole
    rw [hwhole, parseMime, hcase, feed_done rfl]
    exact .inl rfl
  | tooLarge rest =>
    rw [hcase] at hgrab
    obtain ⟨rest', hrest⟩ := hgrab
    rw [hrest] at hwhole
    rw [hwhole, parseMime, hcase]
    exact same_fail _ _ b
  | incomplete =>
    have hpart : parseMime cfg p = p := by rw [parseMime, hcase]
    rw [hpart]
    show Same (parse cfg p (p.remaining ++ b)) _
    rw [parse, hstage]
    exact .inl rfl

/-- **A part of the first line** that is settled, if what follows it may be cut. -/
theorem feed_part {α : Type} {part : List UInt8 → Part α} {next : α → List UInt8 → ResponseParser}
    {b : List UInt8} (hpart : Settled part) (hstage : p.stage = .first)
    (hline : ∀ r, parseResponseFirstLine cfg { p with remaining := r } = match part r with
      | .ok value rest => next value rest
      | .error => fail { p with remaining := r }
      | .more => { p with remaining := r })
    (hnext : ∀ value rest,
      Same ((incremental cfg).feed (next value rest) b) (next value (rest ++ b))) :
    Same ((incremental cfg).feed (parseResponseFirstLine cfg p) b)
      (parseResponseFirstLine cfg { p with remaining := p.remaining ++ b }) := by
  have hp : parseResponseFirstLine cfg p = _ := hline p.remaining
  cases h : part p.remaining with
  | ok value rest =>
    rw [hp, hline, h, hpart.ok h b]
    exact hnext value rest
  | error =>
    rw [hp, hline, h, hpart.error h b]
    exact same_fail _ _ b
  | more =>
    rw [hp, h, feed_first hstage]
    exact .inl rfl

/-- **After the status code.** -/
theorem readReason_feed {protocol : ResponseProtocol} {code : ℕ} (hstage : p.stage = .first)
    (hprotocol : p.msgProtocol = some protocol) (hcode : p.statusCode = some code)
    (b : List UInt8) : Same ((incremental cfg).feed (parseResponseFirstLine cfg p) b)
      (parseResponseFirstLine cfg { p with remaining := p.remaining ++ b }) := by
  refine feed_part (settled_parseReason : Settled (parseReason cfg)) hstage (fun r => ?_)
    fun reason rest => parseMime_feed
    (p := { p with stage := .mime, reasonPhrase := reason, remaining := rest }) rfl b
  simp only [parseResponseFirstLine, hprotocol, parseResponseStatusAndReason, hcode, readReason]
  cases parseReason cfg r <;> rfl

/-- **After the version.** -/
theorem parseResponseStatusAndReason_feed {protocol : ResponseProtocol} (hstage : p.stage = .first)
    (hprotocol : p.msgProtocol = some protocol) (hcode : p.statusCode = none) (b : List UInt8) :
    Same ((incremental cfg).feed (parseResponseFirstLine cfg p) b)
      (parseResponseFirstLine cfg { p with remaining := p.remaining ++ b }) := by
  refine feed_part (settled_parseResponseStatus : Settled (parseResponseStatus cfg)) hstage
    (fun r => ?_) fun code rest => readReason_feed
    (p := { p with statusCode := some code, remaining := rest }) hstage hprotocol rfl b
  simp only [parseResponseFirstLine, hprotocol, parseResponseStatusAndReason, hcode]
  cases parseResponseStatus cfg r <;> rfl

/-- **From the start of the line.** -/
theorem parseResponseFirstLine_feed (hstage : p.stage = .first) (hprotocol : p.msgProtocol = none)
    (hcode : p.statusCode = none) (b : List UInt8) :
    Same ((incremental cfg).feed (parseResponseFirstLine cfg p) b)
      (parseResponseFirstLine cfg { p with remaining := p.remaining ++ b }) := by
  cases h : parseMagic cfg p.remaining with
  | ok protocol rest =>
    have happ := settled_parseMagic.ok h b
    unfold parseResponseFirstLine
    simp only [hprotocol, h, happ]
    cases protocol with
    | some protocol =>
      exact parseResponseStatusAndReason_feed
        (p := { p with msgProtocol := some protocol, remaining := rest }) hstage rfl hcode b
    | none =>
      exact .inl rfl
  | error =>
    have happ := settled_parseMagic.error h b
    unfold parseResponseFirstLine
    simp only [hprotocol, h, happ]
    exact same_fail _ _ b
  | more =>
    have hpart : parseResponseFirstLine cfg p = p := by
      rw [parseResponseFirstLine, hprotocol]
      simp only [h]
    rw [hpart, feed_first hstage]
    exact .inl rfl

/-- **No cut matters.** -/
theorem joins (a b : List UInt8) : (incremental cfg).Joins Same {} a b := by
  show Same ((incremental cfg).feed (parse cfg {} a) b) (parse cfg {} (a ++ b))
  by_cases ha : a = []
  · subst ha
    exact .inl rfl
  · have hpart : parse cfg {} a = parseResponseFirstLine cfg { stage := .first, remaining := a } :=
      if_neg ha
    have hwhole : parse cfg {} (a ++ b) =
        parseResponseFirstLine cfg { stage := .first, remaining := a ++ b } :=
      if_neg (append_ne_nil_of_left_ne_nil ha b)
    rw [hpart, hwhole]
    exact parseResponseFirstLine_feed (p := { stage := .first, remaining := a }) rfl rfl rfl b

/-- What a caller sees of the parser. -/
inductive Outcome
  | needsMoreData
  | rejected
  | accepted (msgProtocol : Option ResponseProtocol) (statusCode : Option ℕ)
      (reasonPhrase mimeHeader remaining : List UInt8)
  deriving DecidableEq, Repr

def outcome (p : ResponseParser) : Outcome :=
  if p.stage ≠ .done then .needsMoreData
  else if p.failed then .rejected
  else .accepted p.msgProtocol p.statusCode p.reasonPhrase p.mimeHeader p.remaining

theorem Same.outcome_eq (h : Same p q) : p.outcome = q.outcome := by
  rcases h with rfl | ⟨hp, hq⟩
  · rfl
  · rw [outcome, outcome, if_neg (not_not.mpr hp.1), if_neg (not_not.mpr hq.1), if_pos hp.2,
      if_pos hq.2]

/-- **A response head may arrive in pieces**, cut anywhere: the outcome is that of
the whole. -/
theorem outcome_feedAll (cfg : ResponseConfig) (pieces : List (List UInt8)) :
    ((incremental cfg).feedAll {} pieces).outcome = (parse cfg {} pieces.flatten).outcome := by
  by_cases hne : pieces = []
  · subst hne
    rfl
  · exact Same.outcome_eq (Parser.feedAll_same Rejected.feed rfl pieces hne
      fun before x _ _ _ => joins before.flatten x)

end ResponseParser

end Http.One
