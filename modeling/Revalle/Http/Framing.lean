import Revalle.Http.ContentLengthItems

/-!
# Framing is unambiguous

After a header block is parsed, the length of the body must not depend on who
looks at the header. So there is at most one `Content-Length`, it is the number
that all the items of all the `Content-Length` fields of the block denote, and
there is none beside a `Transfer-Encoding`.

This needs that the interpreter sees a conflict where there is one. With a
vertical tab between two commas, what is behind it is not `shown`, and a message
that another recipient may delimit by the last of its lengths is accepted.
-/

namespace Http

open Ascii ContentLengthInterpreter List

/-! ## The fields of a block -/

/-- The field that a group of lines is parsed to. -/
def fieldOf (relaxed : Bool) (owner : HdrOwner) (lines : List (List UInt8)) :
    Option HttpHeaderEntry :=
  (readField relaxed owner true lines).bind fun f => HttpHeaderEntry.parse relaxed owner f.text

/-- The fields of a block, before any of them is dropped. -/
def fieldsOf (relaxed : Bool) (owner : HdrOwner) (block : List UInt8) : List HttpHeaderEntry :=
  (groupFields (splitLines block).1).filterMap (fieldOf relaxed owner)

/-- What the `Content-Length` items of some fields denote. -/
def lengths (fields : List HttpHeaderEntry) : List (Option ℕ) :=
  ((fields.filter (·.id = .contentLength)).flatMap fun e => items e.value).map number

/-- What those of them denote that are read. -/
def shownLengths (fields : List HttpHeaderEntry) : List (Option ℕ) :=
  ((fields.filter (·.id = .contentLength)).flatMap fun e => shown e.value).map number

theorem shownLengths_subset (fs : List HttpHeaderEntry) : shownLengths fs ⊆ lengths fs := by
  refine map_subset _ fun item hitem => ?_
  obtain ⟨e, he, hmem⟩ := mem_flatMap.mp hitem
  exact mem_flatMap.mpr ⟨e, he, shown_subset e.value hmem⟩

/-- Malformed or conflicting items. -/
def Bad (l : List (Option ℕ)) : Prop :=
  none ∈ l ∨ ∃ m n : ℕ, m ≠ n ∧ some m ∈ l ∧ some n ∈ l

theorem bad_iff {l : List (Option ℕ)} : Bad l ↔ ¬∃ n, Agree l n := by
  constructor
  · rintro h ⟨k, hk⟩
    rcases h with h | ⟨m, n, hne, hm, hn⟩
    · exact nomatch hk none h
    · exact hne ((Option.some.inj (hk _ hm)).trans (Option.some.inj (hk _ hn)).symm)
  · intro hno
    by_contra hbad
    rw [Bad, not_or] at hbad
    obtain ⟨hnone, hsame⟩ := hbad
    have hsome : ∀ x ∈ l, ∃ n, x = some n := fun x hx =>
      Option.ne_none_iff_exists'.mp (ne_of_mem_of_not_mem hx hnone)
    -- the first item denotes what all of them denote
    cases l with
    | nil => exact hno ⟨0, forall_mem_nil _⟩
    | cons x l =>
      obtain ⟨m, rfl⟩ := hsome x mem_cons_self
      refine hno ⟨m, fun y hy => ?_⟩
      obtain ⟨n, rfl⟩ := hsome y hy
      by_contra hne
      exact hsame ⟨m, n, fun h => hne (congrArg some h.symm), mem_cons_self, hy⟩

theorem shownLengths_append (fs gs : List HttpHeaderEntry) :
    shownLengths (fs ++ gs) = shownLengths fs ++ shownLengths gs := by
  rw [shownLengths, filter_append, flatMap_append, map_append]
  rfl

variable {line : List UInt8} {owner : HdrOwner} {relaxed : Bool}

theorem not_mem_splitLines (block : List UInt8) : ∀ line ∈ (splitLines block).1, 0x0a ∉ line := by
  induction block with
  | nil => exact nofun
  | cons c cs ih =>
    simp only [splitLines]
    split
    · exact forall_mem_cons.mpr ⟨not_mem_nil, ih⟩
    next hc =>
      cases hl : (splitLines cs).1 with
      | nil => exact nofun
      | cons l ls =>
        rw [hl, forall_mem_cons] at ih
        refine forall_mem_cons.mpr ⟨?_, ih.2⟩
        rw [mem_cons, not_or]
        exact ⟨Ne.symm hc, ih.1⟩

theorem flatten_groupFields (lines : List (List UInt8)) : (groupFields lines).flatten = lines := by
  induction lines with
  | nil => rfl
  | cons first lines ih =>
    unfold groupFields
    split
    next next rest field fields heq =>
      rw [heq] at ih
      split
      · rw [flatten_cons, cons_append, ← flatten_cons, ih]
      · rw [flatten_cons, ih]
        rfl
    next =>
      rw [flatten_cons, ih]
      rfl

theorem checkLine_text {first : Bool} {l : Line} (h : checkLine relaxed owner first line = some l)
    (hlf : 0x0a ∉ line) : 0x0a ∉ l.text := by
  have htext : 0x0a ∉ if line.getLast? = some 0x0d then line.dropLast else line := by
    split
    · exact fun hmem => hlf (dropLast_subset _ hmem)
    · exact hlf
  unfold checkLine at h
  simp only at h
  generalize (if line.getLast? = some 0x0d then line.dropLast else line) = text at h htext
  split at h
  · cases h
  split at h
  · cases h
  split at h
  · cases h
  cases h
  intro hmem
  obtain ⟨c, hc, heq⟩ := mem_map.mp hmem
  split at heq
  · exact nomatch heq
  · exact htext (heq ▸ hc)

/-- A field of one line has no line feed in it. -/
theorem readField_text {lines : List (List UInt8)} {f : Field}
    (h : readField relaxed owner true lines = some f) (hone : ¬ 1 < f.lines)
    (hlf : ∀ line ∈ lines, 0x0a ∉ line) : 0x0a ∉ f.text := by
  match lines with
  | [] =>
    cases h
    exact not_mem_nil
  | [line] =>
    simp only [readField, Option.bind_eq_bind, Option.bind_eq_some_iff] at h
    obtain ⟨l, hl, f', hf', hf⟩ := h
    cases hf'
    cases hf
    exact checkLine_text hl (hlf line (mem_cons_self ..))
  | line :: line' :: lines =>
    simp only [readField, Option.bind_eq_bind, Option.bind_eq_some_iff] at h
    obtain ⟨l, hl, f', ⟨l', hl', f'', hf'', hf'⟩, hf⟩ := h
    cases hf'
    cases hf
    exact absurd (Nat.succ_lt_succ (Nat.succ_pos _)) hone

theorem parse_value {field : List UInt8} {e : HttpHeaderEntry}
    (h : HttpHeaderEntry.parse relaxed owner field = some e) :
    trim e.value = e.value ∧ ∀ c ∈ e.value, c ∈ field := by
  unfold HttpHeaderEntry.parse at h
  simp only at h
  repeat' split at h
  all_goals cases h
  exact ⟨trim_trim _, fun c hc =>
    mem_of_mem_drop ((dropWhile_suffix _).subset ((List.rdropWhile_prefix _ _).subset hc))⟩

/-! ## Going through the fields -/

namespace HttpHeader

variable {relaxed : Bool} {owner : HdrOwner} {clen clen' : ContentLengthInterpreter}
  {hdr hdr' : HttpHeader} {fs : List HttpHeaderEntry}

/-- After the fields `fs`: the interpreter has read their lengths, and the header
has all their encodings and at most one of their lengths. -/
structure Parsed (clen : ContentLengthInterpreter) (hdr : HttpHeader)
    (fs : List HttpHeaderEntry) : Prop where
  reads : Reads clen (shownLengths fs)
  encodings : hdr.only .transferEncoding = fs.filter (·.id = .transferEncoding)
  single : (hdr.only .contentLength).length ≤ 1
  first : hdr.only .contentLength ≠ [] → clen.sawGood = true
  stored : ∀ e ∈ hdr.only .contentLength, trim e.value = e.value ∧ number e.value ∈ shownLengths fs
  unflagged : hdr.conflictingContentLength = false

variable {e : HttpHeaderEntry} (id : HdrType)

theorem only_addEntry (e : HttpHeaderEntry) :
    (hdr.addEntry e).only id = hdr.only id ++ if e.id = id then [e] else [] := by
  rw [only, addEntry, only, filter_append, filter_singleton]
  by_cases h : e.id = id <;> simp [h]

theorem shownLengths_of_ne (h : e.id ≠ .contentLength) : shownLengths [e] = [] := by
  rw [shownLengths, filter_singleton]
  simp [h]

theorem shownLengths_of_eq (h : e.id = .contentLength) :
    shownLengths [e] = (shown e.value).map number := by
  rw [shownLengths, filter_singleton]
  simp [h]

section

variable (h : Parsed clen hdr fs)
include h

theorem Parsed.addOther (he : e.id ≠ .contentLength) :
    Parsed clen (hdr.addEntry e) (fs ++ [e]) where
  reads := by
    rw [shownLengths_append, shownLengths_of_ne he, append_nil]
    exact h.reads
  encodings := by
    rw [only_addEntry, h.encodings, filter_append, filter_singleton]
    by_cases hte : e.id = .transferEncoding <;> simp [hte]
  single := by
    rw [only_addEntry, if_neg he, append_nil]
    exact h.single
  first := by
    rw [only_addEntry, if_neg he, append_nil]
    exact h.first
  stored := by
    rw [only_addEntry, if_neg he, append_nil, shownLengths_append, shownLengths_of_ne he,
      append_nil]
    exact h.stored
  unflagged := h.unflagged

/-- A length that is remembered is the first. -/
theorem Parsed.addLength (he : e.id = .contentLength) (htrim : trim e.value = e.value)
    (hr : FieldRead relaxed clen (shownLengths fs) e.value true clen') :
    Parsed clen' (hdr.addEntry e) (fs ++ [e]) := by
  obtain ⟨hfirst, hgood, hitems⟩ := hr.first rfl
  have hnone : hdr.only .contentLength = [] := by
    by_contra hne
    rw [h.first hne] at hfirst
    cases hfirst
  have honly : (hdr.addEntry e).only .contentLength = [e] := by
    rw [only_addEntry, hnone, if_pos he, nil_append]
  refine ⟨?_, ?_, ?_, fun _ => hgood, ?_, h.unflagged⟩
  · rw [shownLengths_append, shownLengths_of_eq he]
    exact hr.reads (.inl rfl)
  · rw [only_addEntry, h.encodings, filter_append, filter_singleton]
    simp [he]
  · rw [honly]
    exact le_rfl
  · rw [honly, shownLengths_append, shownLengths_of_eq he, hitems]
    intro x hx
    rw [mem_singleton.mp hx]
    exact ⟨htrim, mem_append_right _ (mem_singleton.mpr rfl)⟩

/-- A length that the relaxed parser does not keep is read all the same. -/
theorem Parsed.dropLength (he : e.id = .contentLength)
    (hr : FieldRead true clen (shownLengths fs) e.value false clen') :
    Parsed clen' hdr (fs ++ [e]) where
  reads := by
    rw [shownLengths_append, shownLengths_of_eq he]
    exact hr.reads (.inr rfl)
  encodings := by
    rw [h.encodings, filter_append, filter_singleton]
    simp [he]
  single := h.single
  first := fun hne => hr.keeps (h.first hne)
  stored := fun x hx => ⟨(h.stored x hx).1, by
    rw [shownLengths_append]
    exact mem_append_left _ (h.stored x hx).2⟩
  unflagged := h.unflagged

/-- **A step of the loop.** -/
theorem parseField_parsed {lines : List (List UInt8)} (hlf : ∀ line ∈ lines, 0x0a ∉ line)
    (hrun : parseField relaxed owner lines clen hdr = some (clen', hdr')) :
    clen'.prohibitedAndIgnored = clen.prohibitedAndIgnored ∧
      ∃ e, fieldOf relaxed owner lines = some e ∧ Parsed clen' hdr' (fs ++ [e]) := by
  simp only [parseField, Option.bind_eq_bind, Option.bind_eq_some_iff] at hrun
  obtain ⟨f, hf, e, he, hrun⟩ := hrun
  have hfield : fieldOf relaxed owner lines = some e := by rw [fieldOf, hf, Option.bind_some, he]
  obtain ⟨htrim, hsub⟩ := parse_value he
  split at hrun
  · cases hrun
  next hframing =>
    split at hrun
    next hid =>
      have hone : ¬ 1 < f.lines := fun hlt => hframing ⟨.inl hlt, by rw [hid]; decide⟩
      have hvlf : 0x0a ∉ e.value := fun hmem => readField_text hf hone hlf (hsub _ hmem)
      obtain ⟨good, c, hcheck, hr⟩ := checkField_reads relaxed h.reads htrim hvlf
      rw [hcheck, Option.bind_some] at hrun
      cases good with
      | true =>
        cases hrun
        exact ⟨hr.prohibited, e, hfield, h.addLength hid htrim hr⟩
      | false =>
        cases relaxed with
        | true =>
          cases hrun
          exact ⟨hr.prohibited, e, hfield, h.dropLength hid hr⟩
        | false => cases hrun
    next hid =>
      cases hrun
      exact ⟨rfl, e, hfield, h.addOther hid⟩

end

/-- **The whole loop.** -/
theorem parseFields_parsed {groups : List (List (List UInt8))} (h : Parsed clen hdr fs)
    (hlf : ∀ lines ∈ groups, ∀ line ∈ lines, 0x0a ∉ line)
    (hrun : parseFields relaxed owner groups clen hdr = some (clen', hdr')) :
    clen'.prohibitedAndIgnored = clen.prohibitedAndIgnored ∧
      Parsed clen' hdr' (fs ++ groups.filterMap (fieldOf relaxed owner)) := by
  induction groups generalizing clen hdr fs with
  | nil =>
    cases hrun
    exact ⟨rfl, by rwa [filterMap_nil, append_nil]⟩
  | cons lines groups ih =>
    rw [parseFields] at hrun
    split at hrun
    next hblank =>
      split at hrun
      next hlast =>
        cases hrun
        have hnone : fieldOf relaxed owner lines = none := by
          unfold isBlank at hblank
          unfold fieldOf
          split at hblank
          next f hf =>
            rw [hf, Option.bind_some, of_decide_eq_true hblank]
            rfl
          next => cases hblank
        rw [hlast, filterMap_cons, hnone, filterMap_nil, append_nil]
        exact ⟨rfl, h⟩
      next => cases hrun
    next =>
      simp only [Option.bind_eq_bind, Option.bind_eq_some_iff] at hrun
      obtain ⟨⟨c, g⟩, hstep, hrun⟩ := hrun
      obtain ⟨hpro, e, he, hparsed⟩ := parseField_parsed h (hlf lines (mem_cons_self ..))
        hstep
      rw [filterMap_cons, he]
      obtain ⟨hpro', hparsed'⟩ := ih hparsed
        (fun lines hl => hlf lines (mem_cons_of_mem _ hl)) hrun
      refine ⟨hpro'.trans hpro, ?_⟩
      rw [append_assoc] at hparsed'
      exact hparsed'

/-! ## The framing fields that stay -/

theorem only_delById (id' : HdrType) :
    (hdr.delById id').only id = if id = id' then [] else hdr.only id := by
  rw [only, delById, only, filter_filter]
  by_cases h : id = id'
  · rw [if_pos h, filter_eq_nil_iff]
    intro e _
    simp [h]
  · rw [if_neg h]
    refine filter_congr fun e _ => ?_
    by_cases he : e.id = id
    · simp [he, h]
    · simp [he]

theorem has_iff : hdr.has id = true ↔ hdr.only id ≠ [] := by
  rw [has, only, ne_eq, filter_eq_nil_iff, any_eq_true]
  push Not
  rfl

theorem digitsValue_append (ds : List UInt8) (c : UInt8) :
    digitsValue (ds ++ [c]) = 10 * digitsValue ds + (c.toNat - 0x30) := by
  rw [digitsValue, foldl_append]
  rfl

theorem digitChar_digit : ∀ n < 10, isdigit n.digitChar.toNat.toUInt8 = true ∧
    n.digitChar.toNat.toUInt8.toNat - 0x30 = n := by decide

/-- What is printed is read back. -/
theorem xint64toa_digits (n : ℕ) :
    xint64toa n ≠ [] ∧ (∀ c ∈ xint64toa n, isdigit c) ∧ digitsValue (xint64toa n) = n := by
  induction n using Nat.strongRecOn with
  | ind n ih =>
    rw [xint64toa, Nat.toDigits_eq_if (by decide)]
    split
    next hlt =>
      obtain ⟨hd, hv⟩ := digitChar_digit n hlt
      refine ⟨by simp, fun c hc => ?_, ?_⟩
      · rw [map_singleton, mem_singleton] at hc
        rw [hc]
        exact hd
      · show 10 * 0 + _ = n
        rw [hv, Nat.mul_zero, Nat.zero_add]
    next hge =>
      obtain ⟨-, hall, hvalue⟩ := ih (n / 10) (by omega)
      obtain ⟨hd, hv⟩ := digitChar_digit (n % 10) (Nat.mod_lt _ (by decide))
      rw [map_append, map_singleton]
      change _ ∧ (∀ c ∈ xint64toa (n / 10) ++ _, _) ∧ digitsValue (xint64toa (n / 10) ++ _) = n
      refine ⟨by simp, forall_mem_append.mpr ⟨hall, forall_mem_singleton.mpr hd⟩, ?_⟩
      · rw [digitsValue_append, hvalue, hv]
        omega

theorem getInt64_digits (hne : e.value ≠ []) (hd : ∀ c ∈ e.value, isdigit c)
    (hlt : digitsValue e.value < 2 ^ 63) : e.getInt64 = digitsValue e.value := by
  have h := httpHeaderParseOffset_digits [] hne hd nofun
  rw [append_nil, if_pos hlt] at h
  rw [HttpHeaderEntry.getInt64, h]

theorem number_eq_some {t : List UInt8} {n : ℕ} (h : number t = some n) :
    trim t ≠ [] ∧ (∀ c ∈ trim t, isdigit c) ∧ digitsValue (trim t) = n ∧ n < 2 ^ 63 := by
  unfold number at h
  split at h
  next hcond =>
    cases h
    exact ⟨hcond.1, all_eq_true.mp hcond.2.1, rfl, hcond.2.2⟩
  next => cases h

theorem lt_of_mem_shownLengths {n : ℕ} (h : some n ∈ shownLengths fs) : n < 2 ^ 63 := by
  obtain ⟨item, -, hitem⟩ := mem_map.mp h
  exact (number_eq_some hitem).2.2.2

/-- What a header says about the length of the body, given the fields of its
block. -/
structure Framed (hdr : HttpHeader) (fs : List HttpHeaderEntry) : Prop where
  exclusive : hdr.only .contentLength = [] ∨ hdr.only .transferEncoding = []
  single : (hdr.only .contentLength).length ≤ 1
  number : ∀ e ∈ hdr.only .contentLength, ∃ n : ℕ, e.getInt64 = n ∧ Agree (lengths fs) n
  rejected : Bad (lengths fs) → (∀ e ∈ fs, e.id ≠ .transferEncoding) →
    hdr.only .contentLength = [] ∧ hdr.conflictingContentLength = true

/-- **What is bad is seen**: unless there is an encoding, lengths are not prohibited
and those that are read are malformed or in conflict. -/
def Noticed (fs : List HttpHeaderEntry) (prohibited : Option String) : Prop :=
  Bad (lengths fs) → (∀ e ∈ fs, e.id ≠ .transferEncoding) →
    prohibited = none ∧ Bad (shownLengths fs)

/-- A header without a length is well framed if nothing had to be flagged. -/
theorem Framed.of_none (hnone : hdr.only .contentLength = [])
    (hflag : Bad (lengths fs) → (∀ e ∈ fs, e.id ≠ .transferEncoding) →
      hdr.conflictingContentLength = true) : Framed hdr fs where
  exclusive := .inl hnone
  single := by rw [hnone]; exact Nat.zero_le _
  number := by rw [hnone]; exact fun e he => (nomatch he)
  rejected := fun hbad hte => ⟨hnone, hflag hbad hte⟩

/-- A conflict is noted for bad lengths only. -/
theorem sawBad_of_frame (hunflagged : hdr.conflictingContentLength = false)
    (hrun : frame clen hdr = some hdr') (hflag : hdr'.conflictingContentLength = true) :
    clen.prohibitedAndIgnored = none ∧ clen.sawBad = true := by
  -- every other branch leaves the flag as it is
  have hsame : hdr'.conflictingContentLength = hdr.conflictingContentLength → False := fun h =>
    Bool.false_ne_true (hunflagged.symm.trans (h.symm.trans hflag))
  unfold frame at hrun
  split at hrun
  · cases hrun
    exact (hsame rfl).elim
  next hpro =>
    split at hrun
    · simp only [Option.bind_eq_bind, Option.bind_eq_some_iff] at hrun
      obtain ⟨rawTe, -, hrun⟩ := hrun
      split at hrun
      · cases hrun
        exact (hsame rfl).elim
      · split at hrun <;> cases hrun <;> exact (hsame rfl).elim
    · split at hrun
      next hbad => exact ⟨Option.not_isSome_iff_eq_none.mp hpro, hbad⟩
      next =>
        split at hrun
        · unfold putInt64 at hrun
          repeat' split at hrun
          all_goals cases hrun
          all_goals exact (hsame rfl).elim
        · cases hrun
          exact (hsame rfl).elim

/-- **The decision after the loop.** -/
theorem frame_framed (h : Parsed clen hdr fs) (hseen : Noticed fs clen.prohibitedAndIgnored)
    (hrun : frame clen hdr = some hdr') : Framed hdr' fs := by
  unfold frame at hrun
  split at hrun
  next hpro =>
    cases hrun
    refine .of_none ?_ fun hbad hte => ?_
    · rw [only_delById, if_neg (by decide), only_delById, if_pos rfl]
    · rw [(hseen hbad hte).1] at hpro
      cases hpro
  next hpro =>
    split at hrun
    next hte =>
      have hsome : ¬ ∀ e ∈ fs, e.id ≠ .transferEncoding := by
        intro hall
        refine (has_iff _).mp hte (h.encodings.trans (filter_eq_nil_iff.mpr ?_))
        exact fun e he => by simpa using hall e he
      simp only [Option.bind_eq_bind, Option.bind_eq_some_iff] at hrun
      obtain ⟨rawTe, -, hrun⟩ := hrun
      refine .of_none ?_ fun _ hall => absurd hall hsome
      split at hrun
      · cases hrun
        rw [only_delById, if_pos rfl]
      · split at hrun
        · cases hrun
          rw [only_delById, if_neg (by decide), only_delById, if_pos rfl]
        · cases hrun
          show (hdr.delById .contentLength).only .contentLength = []
          rw [only_delById, if_pos rfl]
    next hte =>
      have hnote : hdr.only .transferEncoding = [] := by
        by_contra hne
        exact hte ((has_iff _).mpr hne)
      split at hrun
      next hbad =>
        cases hrun
        refine .of_none ?_ fun _ _ => rfl
        show (hdr.delById .contentLength).only .contentLength = []
        rw [only_delById, if_pos rfl]
      next hbad =>
        have hnotbad : clen.sawBad = false := by simpa using hbad
        have hnofield : ∀ e ∈ fs, e.id ≠ .transferEncoding := fun e he => by
          simpa using filter_eq_nil_iff.mp (h.encodings.symm.trans hnote) e he
        -- what was read agrees, so there is nothing to reject
        have hgood : ¬Bad (lengths fs) := fun hb =>
          hbad (h.reads.sawBad_iff.mpr (bad_iff.mp (hseen hb hnofield).2))
        obtain ⟨n, hn⟩ := Classical.not_not.mp (mt bad_iff.mpr hgood)
        have hnever : ∀ {P : Prop}, Bad (lengths fs) → P := fun hb => absurd hb hgood
        split at hrun
        next hsan =>
          cases hg : clen.sawGood with
          | false =>
            rw [hg] at hrun
            cases hrun
            exact .of_none (by rw [only_delById, if_pos rfl]) hnever
          | true =>
            obtain ⟨m, hvalue, hmem, -⟩ := h.reads.good hnotbad hg
            obtain rfl : m = n := Option.some.inj (hn _ (shownLengths_subset fs hmem))
            rw [hg, if_pos rfl, putInt64, hvalue, if_pos (Int.natCast_nonneg m)] at hrun
            cases hrun
            have honly : ∀ id, ((hdr.delById .contentLength).addEntry
                ⟨.contentLength, xint64toa (m : ℤ).toNat⟩).only id =
                (if id = .contentLength then [] else hdr.only id) ++
                  if .contentLength = id then [⟨.contentLength, xint64toa m⟩] else [] := by
              intro id
              rw [only_addEntry, only_delById]
              rfl
            refine ⟨.inr ?_, ?_, ?_, hnever⟩
            · rw [honly, if_neg (by decide), if_neg (by decide), hnote, append_nil]
            · rw [honly, if_pos rfl, if_pos rfl]
              exact le_rfl
            · rw [honly, if_pos rfl, if_pos rfl, nil_append]
              intro e he
              rw [mem_singleton.mp he]
              obtain ⟨hne, hd, hv⟩ := xint64toa_digits m
              refine ⟨m, ?_, hn⟩
              rw [getInt64_digits hne hd (by rw [hv]; exact lt_of_mem_shownLengths hmem)]
              exact congrArg Nat.cast hv
        next hsan =>
          cases hrun
          refine ⟨.inr hnote, h.single, fun e he => ?_, hnever⟩
          obtain ⟨htrim, hstored⟩ := h.stored e he
          obtain ⟨hne, hd, hv, hlt⟩ := number_eq_some (hn _ (shownLengths_subset fs hstored))
          rw [htrim] at hne hd hv
          exact ⟨n, by rw [getInt64_digits hne hd (hv ▸ hlt), hv], hn⟩

/-- **Framing is unambiguous where what is bad is seen.** If a block is parsed, there
is no length beside an encoding and at most one length, which is the number that every
item of every `Content-Length` field denotes; and if there is no such number and no
encoding, no length is left and the header says so. This is what the interpreter gets
wrong only if lengths are prohibited or the conflict is hidden from it. -/
theorem framed_iff_of_parse {block : List UInt8} {prohibited : Option String}
    (hrun : parse relaxed owner block { prohibitedAndIgnored := prohibited } = some hdr) :
    Framed hdr (fieldsOf relaxed owner block) ↔
      Noticed (fieldsOf relaxed owner block) prohibited := by
  unfold parse at hrun
  split at hrun
  · cases hrun
  split at hrun
  · cases hrun
  simp only [Option.bind_eq_bind, Option.bind_eq_some_iff] at hrun
  obtain ⟨⟨c, g⟩, hloop, hframe⟩ := hrun
  have hstart : Parsed { prohibitedAndIgnored := prohibited } {} [] := by
    refine ⟨⟨nofun, fun _ _ => rfl, nofun⟩, rfl,
      Nat.zero_le _, fun hne => absurd rfl hne, fun e he => (nomatch he), rfl⟩
  obtain ⟨hpro, hparsed⟩ := parseFields_parsed hstart
    (fun lines hl line hline => not_mem_splitLines block line (by
      rw [← flatten_groupFields (splitLines block).1]
      exact mem_flatten_of_mem hl hline)) hloop
  constructor
  · intro h hbad hte
    obtain ⟨hnone, hsaw⟩ := sawBad_of_frame hparsed.unflagged hframe (h.rejected hbad hte).2
    exact ⟨hpro.symm.trans hnone, bad_iff.mpr (hparsed.reads.sawBad_iff.mp hsaw)⟩
  · intro h
    exact frame_framed hparsed (hpro ▸ h) hframe

/-- `Content-Length: 5, 5` -/
def twice : List UInt8 :=
  [0x43, 0x6f, 0x6e, 0x74, 0x65, 0x6e, 0x74, 0x2d, 0x4c, 0x65, 0x6e, 0x67, 0x74, 0x68, 0x3a,
    0x20, 0x35, 0x2c, 0x20, 0x35, 0x0d, 0x0a]

/-- `Content-Length: 5`, `Content-Length: 6`, `Content-Length: 7,VT,8` -/
def thrice : List UInt8 :=
  let name := [0x43, 0x6f, 0x6e, 0x74, 0x65, 0x6e, 0x74, 0x2d, 0x4c, 0x65, 0x6e, 0x67, 0x74, 0x68,
    0x3a, 0x20]
  name ++ [0x35, 0x0d, 0x0a] ++ name ++ [0x36, 0x0d, 0x0a] ++
    name ++ [0x37, 0x2c, 0x0b, 0x2c, 0x38, 0x0d, 0x0a]

/-- Two equal lengths, and a hidden one behind a conflict. -/
theorem framed_iff_of_parse_twice :
    (parse true .hoRequest twice {} = some { entries := [⟨.contentLength, [0x35]⟩] } ∧
      Framed { entries := [⟨.contentLength, [0x35]⟩] } (fieldsOf true .hoRequest twice)) ∧
    parse true .hoRequest thrice {} = some { conflictingContentLength := true } ∧
      Framed { conflictingContentLength := true } (fieldsOf true .hoRequest thrice) := by
  have hrun : parse true .hoRequest twice {} = some { entries := [⟨.contentLength, [0x35]⟩] } := by
    decide +kernel
  have hrun' : parse true .hoRequest thrice {} = some { conflictingContentLength := true } := by
    decide +kernel
  have hsame : lengths (fieldsOf true .hoRequest twice) = [some 5, some 5] := by decide +kernel
  have hshown : shownLengths (fieldsOf true .hoRequest thrice) = [some 5, some 6, some 7] := by
    decide +kernel
  refine ⟨⟨hrun, (framed_iff_of_parse hrun).mpr fun hbad => ?_⟩,
    hrun', (framed_iff_of_parse hrun').mpr fun _ _ => ⟨rfl, ?_⟩⟩
  · rw [hsame, bad_iff] at hbad
    exact absurd ⟨5, by simp [Agree]⟩ hbad
  · rw [hshown]
    exact .inr ⟨5, 6, by decide, by decide, by decide⟩

/-- `Content-Length: 5,VT,6` -/
def hidden : List UInt8 :=
  [0x43, 0x6f, 0x6e, 0x74, 0x65, 0x6e, 0x74, 0x2d, 0x4c, 0x65, 0x6e, 0x67, 0x74, 0x68, 0x3a,
    0x20, 0x35, 0x2c, 0x0b, 0x2c, 0x36, 0x0d, 0x0a]

/-- **A blank item hides the items behind it.** The two lengths are in conflict,
but the first is taken. In a trailer, where lengths are prohibited, they are
dropped, and the conflict is not noted. -/
theorem not_framed_of_hidden :
    (∃ hdr, parse true .hoRequest hidden {} = some hdr ∧
      Bad (lengths (fieldsOf true .hoRequest hidden)) ∧
      (∀ e ∈ fieldsOf true .hoRequest hidden, e.id ≠ .transferEncoding) ∧
      hdr.only .contentLength = [⟨.contentLength, [0x35]⟩] ∧
      hdr.conflictingContentLength = false) ∧
    ∃ hdr, parse true .hoReply hidden { prohibitedAndIgnored := some "prohibited in trailers" } =
        some hdr ∧
      Bad (lengths (fieldsOf true .hoReply hidden)) ∧ hdr.conflictingContentLength = false := by
  have hbad : Bad [some 5, some 6] := .inr ⟨5, 6, by decide, by decide, by decide⟩
  refine ⟨⟨{ entries := [⟨.contentLength, [0x35]⟩] }, by decide +kernel, ?_, by decide +kernel,
    by decide, rfl⟩, {}, by decide +kernel, ?_, rfl⟩
  · exact hbad
  · exact hbad

end HttpHeader

end Http
