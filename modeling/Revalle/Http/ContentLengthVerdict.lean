import Revalle.Http.ContentLengthItems

/-!
# The order of Content-Length fields

The interpreter reads one field after another, stops at the first bad one, and compares every number
with the first. Nevertheless its verdict depends on the items alone, not on their order or on which
of them share a field. The relaxed parser accepts any items that denote one number. The strict one
accepts neither lists nor a number that is repeated, as if what follows the first item were
malformed.
-/

namespace Http.ContentLengthInterpreter

open Ascii List

variable {relaxed : Bool} {c c' : ContentLengthInterpreter} {l l' : List (Option ℕ)}

/-- The fields one after another. -/
def checkFields (relaxed : Bool) :
    ContentLengthInterpreter → List (List UInt8) → Option ContentLengthInterpreter
  | clen, [] => some clen
  | clen, value :: values => do
    let (_, clen) ← clen.checkField relaxed value
    checkFields relaxed clen values

/-- **The verdict**: `none` if something bad was seen, or else the number, if there is one. -/
def verdict (clen : ContentLengthInterpreter) : Option (Option ℤ) :=
  if clen.sawBad then none else some (if clen.sawGood then some clen.value else none)

/-- **Fields as the header parser hands them over**, trimmed and without line ends. Only the relaxed
parser is given lists, and no item of a list is hidden. -/
def Plain (relaxed : Bool) (value : List UInt8) : Prop :=
  trim value = value ∧ 0x0a ∉ value ∧ Visible value ∧ (relaxed = true ∨ 0x2c ∉ value)

instance (relaxed : Bool) (value : List UInt8) : Decidable (Plain relaxed value) :=
  inferInstanceAs (Decidable (_ ∧ _ ∧ _ ∧ _))

/-- What items denote for the relaxed or for the strict parser. -/
def lengths (relaxed : Bool) (l : List (List UInt8)) : List (Option ℕ) :=
  if relaxed = true ∨ l.length ≤ 1 then l.map number else [none]

theorem Reads.sawGood_iff (h : Reads c l) (hbad : c.sawBad = false) :
    c.sawGood = true ↔ ∃ x, x ∈ l := by
  refine ⟨fun hgood => (h.good hbad hgood).elim fun n hn => ⟨some n, hn.2.1⟩, fun ⟨x, hx⟩ => ?_⟩
  cases hgood : c.sawGood with
  | true => rfl
  | false =>
    rw [h.nothing hbad hgood] at hx
    exact nomatch hx

/-- The same items give the same verdict. -/
theorem Reads.verdict_eq (h : Reads c l) (h' : Reads c' l') (hmem : ∀ x, x ∈ l ↔ x ∈ l') :
    c.verdict = c'.verdict := by
  have hbad : c.sawBad = c'.sawBad := Bool.eq_iff_iff.mpr (by
    rw [h.sawBad_iff, h'.sawBad_iff]
    simp only [Agree, hmem])
  unfold verdict
  rw [← hbad]
  cases hb : c.sawBad with
  | true => rfl
  | false =>
    have hb' := hbad.symm.trans hb
    have hgood : c.sawGood = c'.sawGood := Bool.eq_iff_iff.mpr (by
      rw [h.sawGood_iff hb, h'.sawGood_iff hb']
      simp only [hmem])
    rw [← hgood]
    cases hg : c.sawGood with
    | false => rfl
    | true =>
      obtain ⟨n, hn, hin, -⟩ := h.good hb hg
      obtain ⟨m, hm, -, hall⟩ := h'.good hb' (hgood.symm.trans hg)
      rw [hn, hm, Option.some.inj (hall _ ((hmem _).mp hin))]

/-- **A field more.** -/
theorem Reads.checkField {l : List (List UInt8)} (h : Reads c (lengths relaxed l))
    {value : List UInt8} (hv : Plain relaxed value) :
    ∃ good clen, c.checkField relaxed value = some (good, clen) ∧
      Reads clen (lengths relaxed (l ++ items value)) := by
  obtain ⟨htrim, hlf, hvis, hsingle⟩ := hv
  cases relaxed with
  | true =>
    obtain ⟨good, clen, hrun, hr⟩ := checkField_reads true h htrim hlf
    refine ⟨good, clen, hrun, ?_⟩
    have hreads := hr.reads (.inr rfl)
    rwa [shown_of_visible hvis, lengths, if_pos (.inl rfl), ← map_append] at hreads
  | false =>
    have hcomma := hsingle.resolve_left Bool.false_ne_true
    -- more than one item is bad, which is what the interpreter says of it
    have htwo : l ≠ [] → ∀ clen : ContentLengthInterpreter, clen.sawBad = true →
        Reads clen (lengths false (l ++ items value)) := by
      intro hl clen hbad
      rw [items, if_neg hcomma, lengths, if_neg]
      · refine ⟨?_, fun hb => absurd (hbad.symm.trans hb) (by simp),
          fun hb => absurd (hbad.symm.trans hb) (by simp)⟩
        rintro - ⟨n, hn⟩
        exact absurd (hn none mem_cons_self) (by simp)
      · simp
        omega
    cases hbad : c.sawBad with
    | true =>
      refine ⟨false, c, ?_, htwo ?_ c hbad⟩
      · rw [ContentLengthInterpreter.checkField, if_pos hbad]
      · rintro rfl
        exact h.bad hbad ⟨0, by simp [lengths, Agree]⟩
    | false =>
      refine ⟨_, _, checkField_single false hbad htrim hcomma, ?_⟩
      by_cases hl : l = []
      · subst hl
        rw [items, if_neg hcomma]
        refine h.meet hbad value fun hgood => ?_
        simpa [lengths] using (h.sawGood_iff hbad).mp hgood
      · have hgood : c.sawGood = true := by
          refine (h.sawGood_iff hbad).mpr ?_
          unfold lengths
          split
          · exact exists_mem_of_ne_nil _ (mt map_eq_nil_iff.mp hl)
          · exact ⟨none, mem_cons_self⟩
        refine htwo hl _ ?_
        cases number value with
        | none => rfl
        | some n =>
          show (checkLatest false c n).2.sawBad = true
          rw [checkLatest, hgood]
          rfl

theorem Reads.checkFields {values : List (List UInt8)} (hv : ∀ v ∈ values, Plain relaxed v)
    {c : ContentLengthInterpreter} {l : List (List UInt8)} (h : Reads c (lengths relaxed l)) :
    ∃ clen, c.checkFields relaxed values = some clen ∧
      Reads clen (lengths relaxed (l ++ values.flatMap items)) := by
  induction values generalizing c l with
  | nil => exact ⟨c, rfl, by rwa [flatMap_nil, append_nil]⟩
  | cons v values ih =>
    obtain ⟨good, c1, hrun, h1⟩ := h.checkField (hv v mem_cons_self)
    obtain ⟨clen, hrun', h'⟩ := ih (fun w hw => hv w (mem_cons_of_mem _ hw)) h1
    refine ⟨clen, ?_, ?_⟩
    · rw [ContentLengthInterpreter.checkFields, hrun]
      exact hrun'
    · rwa [flatMap_cons, ← append_assoc]

/-- White space around an item does not matter. -/
theorem number_trim (item : List UInt8) : number (trim item) = number item := by
  rw [number, number, trim_trim]

/-- **The verdict depends on the items alone.** It is good if they denote one number, and for the
strict parser if there is no second item. -/
theorem verdict_of_items (relaxed : Bool) {values values' : List (List UInt8)}
    (hv : ∀ v ∈ values, Plain relaxed v) (hv' : ∀ v ∈ values', Plain relaxed v)
    (hperm : ((values.flatMap items).map trim).Perm ((values'.flatMap items).map trim)) :
    ∃ c c' : ContentLengthInterpreter, checkFields relaxed {} values = some c ∧
      checkFields relaxed {} values' = some c' ∧ c.verdict = c'.verdict ∧
      (c.sawBad = false ↔ (∃ n, Agree ((values.flatMap items).map number) n) ∧
        (relaxed = true ∨ (values.flatMap items).length ≤ 1)) := by
  have hnew : Reads {} (lengths relaxed []) := by
    rw [lengths, if_pos (.inr (Nat.zero_le _))]
    exact ⟨nofun, fun _ _ => rfl, nofun⟩
  obtain ⟨c, hrun, h⟩ := Reads.checkFields hv hnew
  obtain ⟨c', hrun', h'⟩ := Reads.checkFields hv' hnew
  rw [List.nil_append] at h h'
  have hlength : (values.flatMap items).length = (values'.flatMap items).length := by
    simpa only [length_map] using hperm.length_eq
  have hnumber : ((values.flatMap items).map number).Perm ((values'.flatMap items).map number) := by
    simpa only [map_map, Function.comp_def, number_trim] using hperm.map number
  refine ⟨c, c', hrun, hrun', h.verdict_eq h' fun x => ?_, ?_⟩
  · unfold lengths
    rw [hlength]
    split
    · exact hnumber.mem_iff
    · rfl
  · rw [← Bool.not_eq_true, h.sawBad_iff, not_not, lengths]
    by_cases hone : relaxed = true ∨ (values.flatMap items).length ≤ 1
    · rw [if_pos hone]
      exact (and_iff_left hone).symm
    · rw [if_neg hone]
      exact iff_of_false (fun ⟨n, hn⟩ => nomatch hn none List.mem_cons_self) fun h => hone h.2

/-- Two fields with one number each, and one field with a list of both, a space between them. -/
theorem verdict_of_items_five : ∃ c c' : ContentLengthInterpreter,
    checkFields true {} [[0x35], [0x35]] = some c ∧
      checkFields true {} [[0x35, 0x2c, 0x20, 0x35]] = some c' ∧ c.verdict = c'.verdict := by
  obtain ⟨c, c', h, h', heq, -⟩ := verdict_of_items true (by decide) (by decide)
    (show List.Perm ((List.flatMap items [[0x35], [0x35]]).map trim)
      ((List.flatMap items [[0x35, 0x2c, 0x20, 0x35]]).map trim) by decide)
  exact ⟨c, c', h, h', heq⟩

/-- **The strict parser does not accept a number that is repeated.** -/
theorem strict_rejects_five_twice :
    (checkFields false {} [[0x35], [0x35]]).map (·.sawBad) = some true ∧
      [[0x35], [0x35]].map number = [some 5, some 5] := by
  decide

end Http.ContentLengthInterpreter
