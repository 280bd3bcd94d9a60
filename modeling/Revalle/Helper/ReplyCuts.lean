import Revalle.Helper.Replies

/-!
# Replies do not depend on the reads that are cut well

The lines are compared with the reads through a machine that takes the output byte by byte
(`byte`): it keeps what has come of a line, and answers when the line ends. After a read the
reader is where the machine is (`Mid`): between two lines it has nothing; in a line it has
taken the request already, and holds the text that has come, or it ignores the line.
-/

namespace Helper.Replies

open Ascii List Option

section Cuts

variable {R : Type} {cfg : Config} {react : List (R × List UInt8) → List R}

/-! ## The machine -/

variable (cfg react) in
def byte (st : Session R × List UInt8) (c : UInt8) : Session R × List UInt8 :=
  if c = cfg.eom then (answer cfg react st.1 st.2, []) else (st.1, st.2 ++ [c])

variable {q p d t text : List UInt8} {S s : Session R} {rest : List (ℕ × R)} {i : ℤ} {x : ℕ × R}
  {ignoreToEom : Bool} {st : Session R × List UInt8} {r : Reader}

theorem foldl_byte_of_notMem (hq : cfg.eom ∉ q) (S : Session R) (p : List UInt8) :
    q.foldl (byte cfg react) (S, p) = (S, p ++ q) := by
  induction q generalizing p with
  | nil => rw [append_nil, foldl_nil]
  | cons c q ih =>
    rw [mem_cons, not_or] at hq
    rw [foldl_cons, byte, if_neg (Ne.symm hq.1), ih hq.2, append_assoc]
    rfl

theorem foldl_byte_line (hq : cfg.eom ∉ q) (S : Session R) (p d : List UInt8) :
    (q ++ cfg.eom :: d).foldl (byte cfg react) (S, p) =
      d.foldl (byte cfg react) (answer cfg react S (p ++ q), []) := by
  rw [foldl_append, foldl_byte_of_notMem hq, foldl_cons, byte, if_pos rfl]

theorem foldl_byte_lines {lines : List (List UInt8)} (hlines : ∀ line ∈ lines, cfg.eom ∉ line)
    (S : Session R) : (lines.map (· ++ [cfg.eom])).flatten.foldl (byte cfg react) (S, []) =
      (lines.foldl (answer cfg react) S, []) := by
  induction lines generalizing S with
  | nil => rfl
  | cons line lines ih =>
    rw [map_cons, flatten_cons, append_assoc, singleton_append,
      foldl_byte_line (hlines line mem_cons_self), nil_append, foldl_cons]
    exact ih (fun l hl => hlines l (mem_cons_of_mem _ hl)) _

theorem foldl_byte_snd (S : Session R) (stream : List UInt8) :
    (stream.foldl (byte cfg react) (S, [])).2 = unfinished cfg stream := by
  induction stream using reverseRecOn with
  | nil => rfl
  | append_singleton stream c ih =>
    rw [foldl_append, foldl_cons, foldl_nil, unfinished, byte, rtakeWhile_concat]
    by_cases hc : c = cfg.eom
    · rw [if_pos hc, if_neg (by simp [hc])]
    · rw [if_neg hc, if_pos (by simpa using hc)]
      rw [ih, unfinished]

variable (cfg react) in
/-- What the bytes that follow `p` make of it: lines that are well formed and fit the buffer. -/
def LinesOk : Session R → List UInt8 → List UInt8 → Prop
  | _, _, [] => True
  | S, p, c :: cs =>
    if c = cfg.eom then
      WellFormed cfg S.requests (strip cfg p) ∧ LinesOk (answer cfg react S p) [] cs
    else p.length + 2 < ReadBufSize ∧ LinesOk S (p ++ [c]) cs

theorem LinesOk.append {e : List UInt8} (h : LinesOk cfg react S p (d ++ e)) :
    LinesOk cfg react S p d ∧ LinesOk cfg react (d.foldl (byte cfg react) (S, p)).1
      (d.foldl (byte cfg react) (S, p)).2 e := by
  induction d generalizing p S with
  | nil => exact ⟨trivial, h⟩
  | cons c d ih =>
    rw [cons_append, LinesOk] at h
    rw [LinesOk, foldl_cons, byte]
    by_cases hc : c = cfg.eom
    · rw [if_pos hc] at h ⊢
      rw [if_pos hc]
      obtain ⟨hd, he⟩ := ih h.2
      exact ⟨⟨h.1, hd⟩, he⟩
    · rw [if_neg hc] at h ⊢
      rw [if_neg hc]
      obtain ⟨hd, he⟩ := ih h.2
      exact ⟨⟨h.1, hd⟩, he⟩

/-- The lengths that a part of a line goes through are bounded by the last one. -/
theorem linesOk_append_iff (hq : cfg.eom ∉ q) : LinesOk cfg react S p (q ++ d) ↔
    (q ≠ [] → (p ++ q).length + 1 < ReadBufSize) ∧ LinesOk cfg react S (p ++ q) d := by
  induction q generalizing p with
  | nil => simp
  | cons c q ih =>
    rw [mem_cons, not_or] at hq
    rw [cons_append, LinesOk, if_neg (Ne.symm hq.1), ih hq.2, append_assoc, singleton_append,
      ← and_assoc]
    refine and_congr_left fun _ => ?_
    cases q <;> simp
    omega

theorem LinesOk.length_lt (hq : cfg.eom ∉ q) (h : LinesOk cfg react S p (q ++ d))
    (hp : p.length < ReadBufSize) : (p ++ q).length < ReadBufSize := by
  by_cases hnil : q = []
  · rwa [hnil, append_nil]
  · exact Nat.lt_of_succ_lt (((linesOk_append_iff hq).mp h).1 hnil)

theorem linesOk_of_forall {lines : List (List UInt8)} {tail : List UInt8}
    (hlines : ∀ line ∈ lines, cfg.eom ∉ line ∧ line.length + 1 < ReadBufSize)
    (hwell : AllWellFormed cfg react S lines)
    (htail : cfg.eom ∉ tail ∧ tail.length + 1 < ReadBufSize) :
    LinesOk cfg react S [] ((lines.map (· ++ [cfg.eom])).flatten ++ tail) := by
  induction lines generalizing S with
  | nil =>
    have h : LinesOk cfg react S [] (tail ++ []) :=
      (linesOk_append_iff htail.1).mpr ⟨fun _ => htail.2, trivial⟩
    rwa [append_nil] at h
  | cons line lines ih =>
    obtain ⟨hmem, hlen⟩ := hlines line mem_cons_self
    rw [map_cons, flatten_cons, append_assoc, append_assoc]
    refine (linesOk_append_iff hmem).mpr ⟨fun _ => hlen, ?_⟩
    rw [nil_append, singleton_append, LinesOk, if_pos rfl]
    exact ⟨hwell.1, ih (fun l hl => hlines l (mem_cons_of_mem _ hl)) hwell.2⟩

/-! ## The session between two lines -/

/-- A session that is not in the middle of a message. -/
structure Ready (S : Session R) : Prop where
  replyXaction : S.replyXaction = none
  closing : S.closing = false
  pending : S.pending = S.requests.length

theorem Ready.foldl_dispatch (h : Ready S) (rs : List R) : Ready (rs.foldl dispatch S) := by
  induction rs generalizing S with
  | nil => exact h
  | cons r rs ih =>
    refine ih ⟨h.replyXaction, h.closing, ?_⟩
    show S.pending + 1 = (S.requests ++ [_]).length
    rw [length_append, length_singleton, h.pending]

theorem Ready.returnReply (h : Ready S) (hrest : S.requests.length = rest.length + 1) (r : R)
    (text : List UInt8) : Ready (returnReply react r text { S with requests := rest }) := by
  refine Ready.foldl_dispatch ?_ _
  refine ⟨rfl, h.closing, ?_⟩
  rw [h.pending, hrest]
  rfl

variable (cfg) in
/-- The number by which the reader takes the request. -/
def numberOf (line : List UInt8) : ℤ :=
  if cfg.concurrency = 0 then 0 else toInt (strtol line).1

variable {line : List UInt8}

omit R cfg react in
theorem eraseP_congr {α : Type} {f g : α → Bool} {l : List α} (h : ∀ x ∈ l, f x = g x) :
    l.eraseP f = l.eraseP g := by
  induction l with
  | nil => rfl
  | cons x l ih =>
    obtain ⟨hx, hl⟩ := forall_mem_cons.mp h
    rw [eraseP_cons, eraseP_cons, hx, ih hl]

theorem pop_numberOf {requests : List (ℕ × R)} (h : WellFormed cfg requests line) :
    pop cfg (numberOf cfg line) requests = requestOf cfg line requests := by
  unfold pop popFrom requestOf numberOf
  by_cases hconc : cfg.concurrency = 0
  · rw [if_pos hconc, if_pos hconc]
    cases requests <;> rfl
  · have hsame : ∀ x ∈ requests, decide (x.1 = toUInt64 (toInt (strtol line).1)) =
        decide ((x.1 : ℤ) = (strtol line).1) := fun x hx => decide_eq_decide.mpr ((h hconc).1 x hx)
    rw [if_neg hconc, if_neg hconc, if_neg hconc, find?_congr hsame, eraseP_congr hsame]

theorem Ready.answer (h : Ready S) (hline : WellFormed cfg S.requests (strip cfg line)) :
    Ready (answer cfg react S line) := by
  unfold Replies.answer
  rw [← pop_numberOf hline]
  cases hpop : pop cfg (numberOf cfg (strip cfg line)) S.requests with
  | none => exact h
  | some found => exact h.returnReply (popFrom_perm hpop).length_eq _ _

/-! ## Messages -/

/-- The text that has come is held. -/
def hold (text : List UInt8) (s : Session R) : Session R :=
  match s.replyXaction with
  | none => s
  | some (r, other) => { s with replyXaction := some (r, other ++ text) }

variable (cfg) in
/-- **Where the reader is**, when the machine has `p` of a line. -/
structure Mid (S : Session R) (p : List UInt8) (ignoreToEom : Bool) (s : Session R) : Prop where
  length_lt : p.length < ReadBufSize
  between : p = [] → ignoreToEom = false ∧ s = S
  shown : p ≠ [] → cfg.concurrency ≠ 0 → Shown p
  within : p ≠ [] →
    ignoreToEom = (popRequest cfg (numberOf cfg p) S).replyXaction.isNone ∧
    s = hold (textOf cfg p) (popRequest cfg (numberOf cfg p) S)

theorem mid_nil (S : Session R) : Mid cfg S [] false S :=
  ⟨by decide, fun _ => ⟨rfl, rfl⟩, fun h => absurd rfl h, absurd rfl⟩

theorem hold_nil (s : Session R) : hold [] s = s := by
  unfold hold
  split
  · rfl
  · rename_i r other heq
    rw [append_nil, ← heq]

theorem popRequest_of_some (h : pop cfg i S.requests = some (x, rest)) :
    popRequest cfg i S = { S with requests := rest, replyXaction := some (x.2, []) } := by
  rw [popRequest, h]

theorem popRequest_of_none (h : pop cfg i S.requests = none) : popRequest cfg i S = S := by
  rw [popRequest, h]

/-- A message that no request is for is not kept. -/
theorem returnBuffer_of_none (hS : Ready S) (t text : List UInt8) (ended : Bool)
    (hpop : pop cfg i S.requests = none) :
    returnBuffer react text ended (hold t (popRequest cfg i S)) = S := by
  rw [popRequest_of_none hpop, hold, returnBuffer]
  simp only [hS.replyXaction]

/-- A part of a message goes to the request that was taken. -/
theorem returnBuffer_of_some (ended : Bool) (hpop : pop cfg i S.requests = some (x, rest))
    (hlen : (t ++ text).length < ReadBufSize) :
    returnBuffer react text ended (hold t (popRequest cfg i S)) =
      if ended then returnReply react x.2 (t ++ text) { S with requests := rest }
      else { S with requests := rest, replyXaction := some (x.2, t ++ text) } := by
  have hfits : text.length ≤ 1024 * 1024 - (t.length + 1) := by
    rw [length_append, ReadBufSize] at hlen
    omega
  rw [popRequest_of_some hpop, hold, returnBuffer]
  simp only [nil_append, accumulate, if_pos hfits]
  cases ended <;> rfl

/-- A part of a message that is not the last one. -/
theorem returnBuffer_hold (hS : Ready S) (hlen : (t ++ text).length < ReadBufSize) :
    returnBuffer react text false (hold t (popRequest cfg i S)) =
      hold (t ++ text) (popRequest cfg i S) := by
  cases hpop : pop cfg i S.requests with
  | none =>
    rw [returnBuffer_of_none hS t text false hpop, popRequest_of_none hpop, hold]
    simp only [hS.replyXaction]
  | some found =>
    rw [returnBuffer_of_some false hpop hlen, popRequest_of_some hpop]
    rfl

/-- The last part of a message. -/
theorem returnBuffer_end (hS : Ready S) (hlen : (t ++ text).length < ReadBufSize) :
    returnBuffer react text true (hold t (popRequest cfg i S)) =
      match pop cfg i S.requests with
      | none => S
      | some (x, rest) => returnReply react x.2 (t ++ text) { S with requests := rest } := by
  cases hpop : pop cfg i S.requests with
  | none => exact returnBuffer_of_none hS t text true hpop
  | some found => exact returnBuffer_of_some true hpop hlen

/-- What follows a good cut continues the text. -/
theorem textOf_append (hshown : cfg.concurrency ≠ 0 → Shown p)
    (hq : cfg.concurrency ≠ 0 → textOf cfg p = [] → q.head?.any isspace = false) :
    numberOf cfg (p ++ q) = numberOf cfg p ∧ textOf cfg (p ++ q) = textOf cfg p ++ q := by
  unfold numberOf textOf
  by_cases hconc : cfg.concurrency = 0
  · simp only [if_pos hconc, and_self]
  · have happend := strtol_append (hshown hconc) q
    have hq := hq hconc
    rw [textOf, if_neg hconc] at hq
    simp only [if_neg hconc, happend, true_and]
    rw [dropWhile_append]
    by_cases hnil : (strtol p).2.dropWhile isspace = []
    · rw [if_pos (by rw [hnil]; rfl), hnil, nil_append]
      cases q with
      | nil => rfl
      | cons c q =>
        have hc : isspace c = false := by simpa using hq hnil
        rw [dropWhile_cons_of_neg (by simp [hc])]
    · rw [if_neg (by simpa using hnil)]

/-- The message that the reader starts with. -/
theorem channel_eq {ended : Bool} (h : cfg.concurrency ≠ 0 →
      (strtol line).2.head?.any isspace = true ∨ ended = true ∧ (strtol line).2 = []) :
    channel cfg line ended = (numberOf cfg line, some (textOf cfg line)) := by
  unfold channel numberOf textOf
  by_cases hconc : cfg.concurrency = 0
  · simp only [if_pos hconc]
  · simp only [if_neg hconc]
    rw [if_pos]
    rcases h hconc with hspace | ⟨rfl, hnil⟩
    · rw [hspace, Bool.true_or]
    · rw [hnil]
      rfl

theorem textOf_length_le (line : List UInt8) : (textOf cfg line).length ≤ line.length := by
  unfold textOf
  split
  · exact le_rfl
  · refine (length_dropWhile_le _ _).trans ?_
    unfold strtol Http.strtoll
    simp only
    have hsign : ∀ t : List UInt8, (Http.readSign t).2.length ≤ t.length := by
      rintro (_ | ⟨c, t⟩)
      · exact le_rfl
      · rw [Http.readSign]
        split_ifs <;> simp
    have hrest : ((Http.readSign (line.dropWhile isspace)).2.dropWhile isdigit).length ≤
        line.length :=
      (length_dropWhile_le _ _).trans ((hsign _).trans (length_dropWhile_le _ _))
    generalize (if (Http.readSign _).1 = true then _ else _ : ℤ) = number
    split
    · exact le_rfl
    · split
      · exact hrest
      · split <;> exact hrest

variable (cfg react) in
/-- What the reader does with a message `line` that begins or goes on. -/
theorem startMessage_mid (hS : Ready S) (hmid : Mid cfg S p ignoreToEom s) (line : List UInt8)
    (ended : Bool) (hbegin : p = [] → cfg.concurrency ≠ 0 →
      (strtol line).2.head?.any isspace = true ∨ ended = true ∧ (strtol line).2 = [])
    (happend : p ≠ [] → numberOf cfg (p ++ line) = numberOf cfg p ∧
      textOf cfg (p ++ line) = textOf cfg p ++ line) :
    ∃ t text, textOf cfg (p ++ line) = t ++ text ∧ text.length ≤ line.length ∧
      startMessage cfg (operations cfg react) line ended ignoreToEom s =
        (some text, (popRequest cfg (numberOf cfg (p ++ line)) S).replyXaction.isNone,
          hold t (popRequest cfg (numberOf cfg (p ++ line)) S)) := by
  by_cases hp : p = []
  · subst hp
    obtain ⟨rfl, rfl⟩ := hmid.between rfl
    refine ⟨[], textOf cfg line, rfl, textOf_length_le line, ?_⟩
    rw [startMessage, if_pos, channel_eq (hbegin rfl), hold_nil]
    · simp only [nil_append, Prod.mk.injEq, true_and]
      exact ⟨not_isSome _, rfl⟩
    · show (!false && !s.replyXaction.isSome) = true
      rw [hS.replyXaction]
      rfl
  · obtain ⟨hnumber, htext⟩ := happend hp
    obtain ⟨hignore, hs⟩ := hmid.within hp
    refine ⟨textOf cfg p, line, htext, le_rfl, ?_⟩
    rw [hnumber, startMessage, if_neg, hignore, hs]
    rw [hignore, hs]
    show ¬(!isNone _ && !isSome (Session.replyXaction _)) = true
    unfold hold
    split <;> rename_i heq <;> simp [heq]

/-! ## Reads -/

omit R cfg react in
theorem strchr_of_notMem {eom : UInt8} (h : eom ∉ d) : strchr eom d = none := by
  induction d with
  | nil => rfl
  | cons c d ih =>
    rw [mem_cons, not_or] at h
    rw [strchr, if_neg (Ne.symm h.1), ih h.2]
    split <;> rfl

omit R cfg react in
theorem strchr_line {eom : UInt8} (h : eom ∉ q) (h0 : 0 ∉ q) (d : List UInt8) :
    strchr eom (q ++ eom :: d) = some (q, d) := by
  induction q with
  | nil => rw [nil_append, strchr, if_pos rfl]
  | cons c q ih =>
    rw [mem_cons, not_or] at h h0
    rw [cons_append, strchr, if_neg (Ne.symm h.1), if_neg (Ne.symm h0.1), ih h.2 h0.2]
    rfl

theorem nextMessage_line (h : cfg.eom ∉ q) (h0 : 0 ∉ q) (d : List UInt8) :
    nextMessage cfg.eom (q ++ cfg.eom :: d) = (strip cfg q, some d) := by
  rw [nextMessage, strchr_line h h0, strip]
  show (if _ then _ else _) = _
  split <;> rfl

theorem strip_append (hq : q ≠ []) : strip cfg (p ++ q) = p ++ strip cfg q := by
  unfold strip
  rw [getLast?_append_of_ne_nil p hq]
  split
  · exact dropLast_append_of_ne_nil hq
  · rfl

theorem strip_sublist (q : List UInt8) : ∃ e, q = strip cfg q ++ e := by
  unfold strip
  split
  · rename_i h
    exact ⟨[0x0d], (dropLast_append_getLast? _ h.1).symm⟩
  · exact ⟨[], (append_nil q).symm⟩

/-- The text goes on behind a good cut. -/
theorem GoodCut.append (hp : p ≠ []) (h : GoodCut cfg p (q ++ d).head?) (hq : cfg.eom ∉ q) :
    numberOf cfg (p ++ q) = numberOf cfg p ∧ textOf cfg (p ++ q) = textOf cfg p ++ q := by
  refine textOf_append (fun hconc => ((h hp).1 hconc).1) (fun hconc hnil => ?_)
  cases q with
  | nil => rfl
  | cons c q =>
    rcases ((h hp).1 hconc).2 hnil with hspace | heom
    · exact hspace
    · refine absurd ?_ hq
      rw [← some.inj heom]
      exact mem_cons_self

variable (react) in
/-- **The loop** brings the reader to where the machine gets with the same bytes. -/
theorem loop_mid {roffset : ℕ} (hroffset : roffset ≤ ReadBufSize) {fuel : ℕ}
    (hfuel : d.length < fuel) (hd : d.length ≤ ReadBufSize) (h0 : 0 ∉ d) (hS : Ready S)
    (hmid : Mid cfg S p ignoreToEom s) (hcut : GoodCut cfg p d.head?)
    (hlines : LinesOk cfg react S p d)
    (hend : (d.foldl (byte cfg react) (S, p)).2 ≠ [] → cfg.concurrency ≠ 0 →
      Shown (d.foldl (byte cfg react) (S, p)).2) :
    ∃ r s', loop cfg (operations cfg react) roffset fuel d ignoreToEom s = some (r, s') ∧
      r.rbuf = [] ∧ Ready (d.foldl (byte cfg react) (S, p)).1 ∧
      Mid cfg (d.foldl (byte cfg react) (S, p)).1 (d.foldl (byte cfg react) (S, p)).2
        r.ignoreToEom s' := by
  induction fuel generalizing d S s p ignoreToEom with
  | zero => exact absurd hfuel (Nat.not_lt_zero _)
  | succ fuel ih =>
    by_cases hnil : d = []
    · subst hnil
      exact ⟨⟨[], ignoreToEom⟩, s, rfl, rfl, hS, hmid⟩
    have hhead : ¬d.headD 0 = 0 := by
      cases d with
      | nil => exact absurd rfl hnil
      | cons c d =>
        rw [mem_cons, not_or] at h0
        exact Ne.symm h0.1
    rw [loop, if_neg hhead]
    by_cases hmem : cfg.eom ∈ d
    · -- the line ends
      obtain ⟨q, d', rfl, hq⟩ := eq_append_cons_of_mem hmem
      rw [mem_append, mem_cons, not_or, not_or] at h0
      have hqlen : (p ++ q).length < ReadBufSize := hlines.length_lt hq hmid.length_lt
      rw [linesOk_append_iff hq, LinesOk, if_pos rfl] at hlines
      obtain ⟨-, hwell, hrest⟩ := hlines
      rw [foldl_byte_line hq] at hend ⊢
      obtain ⟨e, he⟩ : ∃ e, q = strip cfg q ++ e := strip_sublist q
      have hfull : strip cfg (p ++ q) = p ++ strip cfg q := by
        by_cases hqnil : q = []
        · subst hqnil
          rw [append_nil]
          by_cases hp : p = []
          · subst hp
            rfl
          · rw [strip, if_neg, strip, if_neg, append_nil]
            · exact fun h => absurd h.1 (by simp)
            · exact fun h => (hcut hp).2 ⟨h.1, h.2, by rw [h.2]; rfl⟩
        · exact strip_append hqnil
      have hstripEom : cfg.eom ∉ strip cfg q := by
        intro h
        rw [he] at hq
        exact hq (mem_append_left _ h)
      obtain ⟨t, text, htext, hlen, hstart⟩ := startMessage_mid cfg react hS hmid (strip cfg q) true
        (fun hp hconc => by
          subst hp
          obtain ⟨-, hnil | hspace⟩ := hwell hconc
          · exact .inr ⟨rfl, hnil⟩
          · exact .inl hspace)
        (fun hp => by
          refine GoodCut.append (d := e ++ cfg.eom :: d') hp ?_ hstripEom
          rw [← append_assoc, ← he]
          exact hcut)
      have hstrip : (strip cfg q).length ≤ q.length := by
        have := congrArg length he
        rw [length_append] at this
        omega
      have hfits : (t ++ text).length < ReadBufSize := by
        rw [← htext]
        refine Nat.lt_of_le_of_lt (textOf_length_le _) ?_
        rw [length_append] at hqlen ⊢
        omega
      have hreturn : returnBuffer react text true
          (hold t (popRequest cfg (numberOf cfg (p ++ strip cfg q)) S)) =
          answer cfg react S (p ++ q) := by
        have hrequest : requestOf cfg (p ++ strip cfg q) S.requests =
            pop cfg (numberOf cfg (p ++ strip cfg q)) S.requests := by
          rw [← hfull, pop_numberOf hwell]
        rw [returnBuffer_end hS hfits]
        cases hpop : pop cfg (numberOf cfg (p ++ strip cfg q)) S.requests <;>
          simp only [answer, hfull, hrequest, htext, hpop]
      rw [nextMessage_line hq h0.1]
      simp only [isSome_some, hstart]
      simp only [operations, hreturn]
      rw [length_append, length_cons] at hfuel hd
      rw [if_pos (by omega), if_pos (by omega)]
      exact ih (by omega) (by omega) h0.2.2 (hS.answer hwell) (mid_nil _)
        (absurd rfl) hrest hend
    · -- the line goes on
      rw [foldl_byte_of_notMem hmem] at hend ⊢
      have hne : p ++ d ≠ [] := fun h => hnil (append_eq_nil_iff.mp h).2
      obtain ⟨t, text, htext, hlen, hstart⟩ := startMessage_mid cfg react hS hmid d false
        (fun hp hconc => by
          subst hp
          exact .inl (hend hne hconc).2)
        (fun hp => by
          refine GoodCut.append (d := []) hp ?_ hmem
          rw [append_nil]
          exact hcut)
      rw [← append_nil d] at hlines
      have hdlen : (p ++ d).length < ReadBufSize := hlines.length_lt hmem hmid.length_lt
      have hfits : (t ++ text).length < ReadBufSize := by
        rw [← htext]
        exact Nat.lt_of_le_of_lt (textOf_length_le _) hdlen
      have hnext : nextMessage cfg.eom d = (d, none) := by
        rw [nextMessage, strchr_of_notMem hmem]
      rw [hnext]
      simp only [isSome_none, hstart]
      rw [if_pos (by omega)]
      refine ⟨_, _, rfl, rfl, hS, hdlen, fun h => absurd h hne, fun _ => hend hne, fun _ => ?_⟩
      refine ⟨rfl, ?_⟩
      rw [returnBuffer_hold hS hfits, ← htext]

theorem Mid.pending (hS : Ready S) (h : Mid cfg S p ignoreToEom s) :
    s.pending = S.pending ∧ s.returned = S.returned ∧ s.closing = false := by
  by_cases hp : p = []
  · rw [(h.between hp).2]
    exact ⟨rfl, rfl, hS.closing⟩
  · rw [(h.within hp).2]
    cases hpop : pop cfg (numberOf cfg p) S.requests with
    | none =>
      rw [popRequest_of_none hpop, hold]
      simp only [hS.replyXaction]
      exact ⟨trivial, trivial, hS.closing⟩
    | some found =>
      rw [popRequest_of_some hpop]
      exact ⟨rfl, rfl, hS.closing⟩

/-- Where nothing is outstanding, no line is for anything. -/
theorem foldl_byte_of_requests_nil (h : st.1.requests = []) (d : List UInt8) :
    (d.foldl (byte cfg react) st).1 = st.1 := by
  induction d generalizing st with
  | nil => rfl
  | cons c d ih =>
    have hbyte : (byte cfg react st c).1 = st.1 := by
      have hnone : requestOf cfg (strip cfg st.2) st.1.requests = none := by
        rw [h, requestOf]
        split <;> rfl
      unfold byte
      split
      · rw [answer, hnone]
      · rfl
    rw [foldl_cons, ih (by rw [hbyte, h]), hbyte]

variable (cfg) in
/-- The reader after a read: it is where the machine is, or it has killed a helper that
spoke when nothing was outstanding. -/
def Follows (st : Session R × List UInt8) (r : Reader) (s : Session R) : Prop :=
  s.closing = true ∧ st.1.requests = [] ∧ s.returned = st.1.returned ∨
    r.rbuf = [] ∧ Ready st.1 ∧ Mid cfg st.1 st.2 r.ignoreToEom s

theorem Follows.returned (h : Follows cfg st r s) : s.returned = st.1.returned := by
  rcases h with ⟨-, -, h⟩ | ⟨-, hS, hmid⟩
  · exact h
  · exact (hmid.pending hS).2.1

/-- A read that begins and ends well. -/
theorem helperHandleRead_mid (hne : d ≠ []) (hd : d.length < ReadBufSize) (h0 : 0 ∉ d)
    (hbuf : r.rbuf = []) (hS : Ready st.1) (hmid : Mid cfg st.1 st.2 r.ignoreToEom s)
    (hcut : GoodCut cfg st.2 d.head?) (hlines : LinesOk cfg react st.1 st.2 d)
    (hend : (d.foldl (byte cfg react) st).2 ≠ [] → cfg.concurrency ≠ 0 →
      Shown (d.foldl (byte cfg react) st).2) :
    ∃ r' s', helperHandleRead cfg (operations cfg react) d r s = some (r', s') ∧
      Follows cfg (d.foldl (byte cfg react) st) r' s' := by
  rw [helperHandleRead, if_neg hne]
  obtain ⟨hpending, hreturned, -⟩ := hmid.pending hS
  by_cases hexpecting : (!(operations cfg react).expecting s) = true
  · rw [if_pos hexpecting]
    refine ⟨_, _, rfl, .inl ?_⟩
    have hzero : s.pending = 0 := by
      have h : (!(s.pending != 0 || s.timedout != 0)) = true := hexpecting
      simp only [Bool.not_eq_true', Bool.or_eq_false_iff, bne_eq_false_iff_eq] at h
      exact h.1
    have hrequests : st.1.requests = [] := by
      rw [hpending, hS.pending] at hzero
      exact eq_nil_of_length_eq_zero hzero
    rw [foldl_byte_of_requests_nil hrequests]
    exact ⟨rfl, hrequests, hreturned⟩
  · rw [if_neg hexpecting, hbuf, nil_append]
    obtain ⟨r', s', hloop, hbuf', hS', hmid'⟩ := loop_mid react (Nat.le_of_lt hd)
      (Nat.lt_succ_self _) (Nat.le_of_lt hd) h0 hS hmid hcut hlines hend
    refine ⟨r', s', ?_, .inr ⟨hbuf', hS', hmid'⟩⟩
    rw [hloop]
    show (if _ then some (r', s') else none) = _
    rw [if_pos]
    intro _
    rw [hbuf']
    decide

variable (react) in
/-- **All reads together**, where each ends well. -/
theorem reads_follow (pieces : List (List UInt8))
    (hreads : ∀ d ∈ pieces, d ≠ [] ∧ d.length < ReadBufSize) (h0 : 0 ∉ pieces.flatten)
    (h : Follows cfg st r s) (hlines : LinesOk cfg react st.1 st.2 pieces.flatten)
    (hcuts : ∀ before after, pieces = before ++ after →
      GoodCut cfg (before.flatten.foldl (byte cfg react) st).2 after.flatten.head?) :
    ∃ r' s', reads cfg (operations cfg react) pieces (r, s) = some (r', s') ∧
      Follows cfg (pieces.flatten.foldl (byte cfg react) st) r' s' := by
  induction pieces generalizing st r s with
  | nil => exact ⟨r, s, rfl, h⟩
  | cons d pieces ih =>
    rw [flatten_cons, foldl_append]
    rcases h with ⟨hclosing, hrequests, hreturned⟩ | ⟨hbuf, hS, hmid⟩
    · -- there are no more reads
      refine ⟨r, s, ?_, .inl ⟨hclosing, ?_, ?_⟩⟩
      · rw [reads, if_neg]
        show ¬(!s.closing) = true
        rw [hclosing]
        decide
      · rw [← foldl_append, foldl_byte_of_requests_nil hrequests, hrequests]
      · rw [← foldl_append, foldl_byte_of_requests_nil hrequests, hreturned]
    · obtain ⟨hne, hd⟩ := hreads d mem_cons_self
      rw [flatten_cons, mem_append, not_or] at h0
      obtain ⟨hlines1, hlines2⟩ := hlines.append
      have hhead : (d :: pieces).flatten.head? = d.head? := by
        rw [flatten_cons, head?_append_of_ne_nil d hne]
      have hcut := hcuts [] (d :: pieces) rfl
      rw [hhead] at hcut
      have hend := hcuts [d] pieces rfl
      rw [flatten_singleton] at hend
      obtain ⟨r', s', hread, hfollows⟩ := helperHandleRead_mid hne hd h0.1 hbuf hS hmid hcut
        hlines1 fun hp hconc => ((hend hp).1 hconc).1
      obtain ⟨r'', s'', hrest, hfollows'⟩ := ih (fun e he => hreads e (mem_cons_of_mem _ he))
        h0.2 hfollows hlines2 fun before after heq => by
          have := hcuts (d :: before) after (by rw [heq]; rfl)
          rwa [flatten_cons, foldl_append] at this
      refine ⟨r'', s'', ?_, hfollows'⟩
      rw [reads, if_pos, hread]
      · exact hrest
      · show (!s.closing) = true
        rw [(hmid.pending hS).2.2]
        rfl

end Cuts

/-- **Replies do not depend on the reads**, for every session with whatever requests, whether
it knows channel numbers or not, and every output without NUL whose lines are well formed for
the requests outstanding then and fit the buffer: no assertion fails, and the texts that are
returned are those of the lines, if every read ends in a good place, and in particular if there
is a read for each line. -/
theorem reads_return_lines {R : Type} (cfg : Config)
    (react : List (R × List UInt8) → List R) (S : Session R) (hS : Ready S)
    (lines : List (List UInt8)) (tail : List UInt8) (pieces : List (List UInt8))
    (hlines : ∀ line ∈ lines, cfg.eom ∉ line ∧ line.length + 1 < ReadBufSize)
    (hwell : AllWellFormed cfg react S lines)
    (htail : cfg.eom ∉ tail ∧ tail.length + 1 < ReadBufSize)
    (hpieces : pieces.flatten = (lines.map (· ++ [cfg.eom])).flatten ++ tail)
    (hnul : 0 ∉ pieces.flatten) (hreads : ∀ d ∈ pieces, d ≠ [] ∧ d.length < ReadBufSize)
    (hcuts : ∀ before after, pieces = before ++ after →
      GoodCut cfg (unfinished cfg before.flatten) after.flatten.head?) :
    (∃ r s, reads cfg (operations cfg react) pieces (⟨[], false⟩, S) = some (r, s) ∧
      s.returned = (lines.foldl (answer cfg react) S).returned) ∧
    ∃ r s, reads cfg (operations cfg react) (lines.map (· ++ [cfg.eom])) (⟨[], false⟩, S) =
        some (r, s) ∧ s.returned = (lines.foldl (answer cfg react) S).returned := by
  have hmem : ∀ line ∈ lines, cfg.eom ∉ line := fun line hline => (hlines line hline).1
  have hstart : Follows cfg (S, []) ⟨[], false⟩ S := .inr ⟨rfl, hS, mid_nil S⟩
  have hok : LinesOk cfg react S [] ((lines.map (· ++ [cfg.eom])).flatten ++ tail) :=
    linesOk_of_forall hlines hwell htail
  rw [hpieces, List.mem_append, not_or] at hnul
  constructor
  · obtain ⟨r, s, hrun, hfollows⟩ := reads_follow react pieces hreads
      (by rw [hpieces, List.mem_append, not_or]; exact hnul) hstart (by rw [hpieces]; exact hok)
      fun before after heq => by
        rw [foldl_byte_snd]
        exact hcuts before after heq
    refine ⟨r, s, hrun, ?_⟩
    rw [hfollows.returned, hpieces, List.foldl_append, foldl_byte_lines hmem,
      foldl_byte_of_notMem htail.1]
  · have hread : ∀ d ∈ lines.map (· ++ [cfg.eom]), d ≠ [] ∧ d.length < ReadBufSize := by
      intro d hd
      obtain ⟨line, hline, rfl⟩ := List.mem_map.mp hd
      refine ⟨by simp, ?_⟩
      rw [List.length_append, List.length_singleton]
      exact (hlines line hline).2
    have hends : ∀ before after, lines.map (· ++ [cfg.eom]) = before ++ after →
        GoodCut cfg (before.flatten.foldl (byte cfg react) (S, [])).2 after.flatten.head? := by
      -- each of these reads ends a line
      intro before after heq hp
      obtain ⟨first, rest, hsplit, rfl, -⟩ := List.map_eq_append_iff.mp heq
      refine absurd ?_ hp
      rw [foldl_byte_lines fun line hline => hmem line (by
        rw [hsplit]
        exact List.mem_append_left _ hline)]
    obtain ⟨r, s, hrun, hfollows⟩ := reads_follow react _ hread hnul.1 hstart
      hok.append.1 hends
    refine ⟨r, s, hrun, ?_⟩
    rw [hfollows.returned, foldl_byte_lines hmem]

/-- A session with two requests, of a helper that may have twenty at a time. -/
def twoRequests : Session Bool :=
  ⟨[(1, false), (12, true)], none, 12, 2, 0, false, []⟩

def concurrent : Config := ⟨0x0a, 20⟩

/-- `12 OK` and `1 ERR`, where a read ends in the first text and one behind it. -/
theorem reads_return_lines_two :
    ∃ r s, reads concurrent (operations concurrent fun _ => [])
      [[0x31, 0x32, 0x20, 0x4f], [0x4b], [0x0a, 0x31, 0x20, 0x45, 0x52, 0x52, 0x0a]]
      (⟨[], false⟩, twoRequests) = some (r, s) ∧
      s.returned = [(true, [0x4f, 0x4b]), (false, [0x45, 0x52, 0x52])] :=
  (reads_return_lines concurrent (fun _ => []) twoRequests ⟨rfl, rfl, rfl⟩
    [[0x31, 0x32, 0x20, 0x4f, 0x4b], [0x31, 0x20, 0x45, 0x52, 0x52]] []
    [[0x31, 0x32, 0x20, 0x4f], [0x4b], [0x0a, 0x31, 0x20, 0x45, 0x52, 0x52, 0x0a]]
    (by decide +kernel) (by decide +kernel) (by decide +kernel) rfl (by decide +kernel)
    (by decide +kernel)
    (by
      intro before after heq
      rcases before with _ | ⟨a, _ | ⟨b, _ | ⟨c, before⟩⟩⟩
      · exact fun h => absurd rfl h
      · obtain ⟨rfl, rfl⟩ := List.cons_eq_cons.mp heq
        decide +kernel
      · obtain ⟨rfl, heq₁⟩ := List.cons_eq_cons.mp heq
        obtain ⟨rfl, rfl⟩ := List.cons_eq_cons.mp heq₁
        decide +kernel
      · obtain ⟨rfl, heq₁⟩ := List.cons_eq_cons.mp heq
        obtain ⟨rfl, heq₂⟩ := List.cons_eq_cons.mp heq₁
        obtain ⟨rfl, heq₃⟩ := List.cons_eq_cons.mp heq₂
        obtain ⟨rfl, rfl⟩ := List.append_eq_nil_iff.mp heq₃.symm
        decide +kernel)).1

/-- **A read that ends in a channel number**: of `12 OK` the first digit is read alone, and
request 1 gets `12 OK`, where request 12 gets `OK` if the line is read at once. A line that
begins with a letter fails an assertion, `4294967297 OK` goes to request 1, and without channel
numbers a read that ends between CR and LF leaves the CR in the text. -/
theorem wrong_request :
    (reads concurrent (operations concurrent fun _ => [])
      [[0x31], [0x32, 0x20, 0x4f, 0x4b, 0x0a]] (⟨[], false⟩, twoRequests)).map
        (fun st => st.2.returned) = some [(false, [0x31, 0x32, 0x20, 0x4f, 0x4b])] ∧
    (reads concurrent (operations concurrent fun _ => [])
      [[0x31, 0x32, 0x20, 0x4f, 0x4b, 0x0a]] (⟨[], false⟩, twoRequests)).map
        (fun st => st.2.returned) = some [(true, [0x4f, 0x4b])] ∧
    reads concurrent (operations concurrent fun _ => []) [[0x61, 0x0a]]
      (⟨[], false⟩, twoRequests) = none ∧
    (reads concurrent (operations concurrent fun _ => [])
      [[0x34, 0x32, 0x39, 0x34, 0x39, 0x36, 0x37, 0x32, 0x39, 0x37, 0x20, 0x4f, 0x4b, 0x0a]]
      (⟨[], false⟩, twoRequests)).map (fun st => st.2.returned) = some [(false, [0x4f, 0x4b])] ∧
    (reads ⟨0x0a, 0⟩ (operations ⟨0x0a, 0⟩ fun _ => []) [[0x4f, 0x4b, 0x0d], [0x0a]]
      (⟨[], false⟩, twoRequests)).map (fun st => st.2.returned) =
        some [(false, [0x4f, 0x4b, 0x0d])] := by
  decide +kernel

end Helper.Replies
