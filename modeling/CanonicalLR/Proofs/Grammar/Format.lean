import CanonicalLR.Proofs.Grammar.Declared
import CanonicalLR.Proofs.Text.Written

/-!
# The format of grammar texts

Which texts declare a grammar, which one, and what is reported of all others. The format is
given by relations between a line and what it says, and between a line and what is wrong
with it; reading a text agrees with them for every text.

## Main definitions

* `IsSignificantLine` — a line that is to be read, with its number.
* `IsAlternative`, `Definition.IsWrittenAs` — how an alternative and a rule line look.
* `IsOffence` — what is wrong with a line, before all else that may be wrong.
* `Grammar.AreWrittenIn` — what the lines of a text say.
* `Grammar.Declares` — the rules and the start symbol are those of the definitions.
* `Grammar.FollowsFormat` — a text is read by the format.

## Main results

* `mem_significantLines_iff` — the lines that are read are the significant ones.
* `ofLine_eq_ok_iff`, `ofLine_eq_error_iff` — a line is read as it is written, or its first
  offence is reported.
* `ofText_followsFormat` — so is a text.
-/

namespace CanonicalLR

open Text

/-! ## The format -/

/-- A significant line: its number, counted from 1, and its trimmed form, which is neither
empty nor a comment. -/
structure IsSignificantLine (text : String) (number : Nat) (line : List Char) : Prop where
  stands : ∃ lines raw k, IsDivided '\n' lines text.toList ∧ lines[k]? = some raw ∧
    number = k + 1 ∧ IsTrimmed line raw
  nonempty : line ≠ []
  not_comment : ¬ commentMark.toList <+: line

/-- All significant lines of a text, in order. -/
structure AreSignificantLines (text : String) (lines : List (Nat × List Char)) : Prop where
  mem_iff : ∀ number line, (number, line) ∈ lines ↔ IsSignificantLine text number line
  ordered : lines.Pairwise fun a b => a.1 < b.1

/-- An alternative has at least one word, and none is `$`; what it says are its words
without `ε`. -/
def IsAlternative (names : List String) (cs : List Char) : Prop :=
  ∃ written, HasWords written cs ∧ written ≠ [] ∧ endName ∉ written ∧
    names = written.filter fun name => name != epsilonName

/-- A rule line has one word before its first arrow, which is not reserved, and alternatives
behind it. -/
def Definition.IsWrittenAs (d : Definition) (line : List Char) : Prop :=
  ∃ left right parts, IsCut arrowMark.toList left right line ∧ HasWords [d.head] left ∧
    d.head ≠ epsilonName ∧ d.head ≠ endName ∧ IsDivided alternativeMark parts right ∧
    List.Forall₂ IsAlternative d.alternatives parts

/-- What is wrong with an alternative: it is blank, or it holds `$`. -/
inductive IsBadAlternative (malformed : Error) (cs : List Char) : Error → Prop where
  | blank (h : HasWords [] cs) : IsBadAlternative malformed cs malformed
  | reserved {written : List String} (h : HasWords written cs) (hmem : endName ∈ written) :
      IsBadAlternative malformed cs (.reservedSymbol endName)

/-- The error of a line that is no rule line. -/
def malformedLine (number : Nat) (line : List Char) : Error :=
  .malformedRule number (String.ofList line)

/-- What is wrong with a line. A side that is missing, empty or no single word comes before
a reserved left-hand side, and this before the alternatives from left to right. -/
inductive IsOffence (number : Nat) (line : List Char) : Error → Prop where
  | arrow (h : ¬ arrowMark.toList <:+: line) :
      IsOffence number line (malformedLine number line)
  | left {left right : List Char} {names : List String}
      (hcut : IsCut arrowMark.toList left right line) (hleft : HasWords names left)
      (h : names.length ≠ 1) : IsOffence number line (malformedLine number line)
  | right {left right : List Char} (hcut : IsCut arrowMark.toList left right line)
      (hright : HasWords [] right) : IsOffence number line (malformedLine number line)
  | head {left right : List Char} {head : String}
      (hcut : IsCut arrowMark.toList left right line) (hleft : HasWords [head] left)
      (hright : ¬ HasWords [] right) (h : head = epsilonName ∨ head = endName) :
      IsOffence number line (.reservedSymbol head)
  | alternative {left right part : List Char} {before after : List (List Char)}
      {head : String} {e : Error}
      (hcut : IsCut arrowMark.toList left right line) (hleft : HasWords [head] left)
      (hright : ¬ HasWords [] right) (hepsilon : head ≠ epsilonName) (hend : head ≠ endName)
      (hparts : IsDivided alternativeMark (before ++ part :: after) right)
      (hbefore : ∀ cs ∈ before, ∃ names, IsAlternative names cs)
      (h : IsBadAlternative (malformedLine number line) part e) : IsOffence number line e

namespace Grammar

/-- The significant lines of a text are rule lines for the definitions, in order. -/
def AreWrittenIn (definitions : List Definition) (text : String) : Prop :=
  ∃ lines, AreSignificantLines text lines ∧
    List.Forall₂ (fun line d => Definition.IsWrittenAs d line.2) lines definitions

/-- The rules, in order and numbered from 0, are one for each alternative in reading order,
and the start symbol is the head of the first definition. -/
structure Declares (g : Grammar) (definitions : List Definition) : Prop where
  namedRules_eq : g.namedRules = productions definitions
  rule_id : ∀ (i : Nat) (r : Rule), g.rules[i]? = some r → r.id = i
  start : ∃ first rest, definitions = first :: rest ∧ g.symbols.name g.start = first.head

/-- What reading a text comes to. -/
structure FollowsFormat (text : String) : Prop where
  /-- A text declares a grammar exactly if it has significant lines and all of them are rule
  lines. -/
  accepted_iff : (∃ g, ofText text = .ok g) ↔
    (∃ number line, IsSignificantLine text number line) ∧
      ∀ number line, IsSignificantLine text number line →
        ∃ d : Definition, d.IsWrittenAs line
  /-- The grammar is the one that its significant lines declare. -/
  declares : ∀ g, ofText text = .ok g →
    ∃ definitions, AreWrittenIn definitions text ∧ g.Declares definitions
  /-- Any other text has no significant line, or the first offence is reported. -/
  refused_iff : ∀ e, ofText text = .error e ↔
    (e = .emptyGrammar ∧ ∀ number line, ¬ IsSignificantLine text number line) ∨
      ∃ number line, IsSignificantLine text number line ∧ IsOffence number line e ∧
        ∀ earlier before, earlier < number → IsSignificantLine text earlier before →
          ∃ d : Definition, d.IsWrittenAs before

end Grammar

/-! ## Significant lines -/

theorem isSignificant_iff {line : List Char} :
    isSignificant line = true ↔ line ≠ [] ∧ ¬ commentMark.toList <+: line := by
  unfold isSignificant
  rw [Bool.and_eq_true, Bool.not_eq_true', Bool.not_eq_true', ← Bool.not_eq_true,
    ← Bool.not_eq_true, List.isEmpty_iff, List.isPrefixOf_iff_prefix]

/-- **The lines that are read** are the significant ones. -/
theorem mem_significantLines_iff {text : String} {number : Nat} {line : List Char} :
    (number, line) ∈ significantLines text ↔ IsSignificantLine text number line := by
  unfold significantLines
  dsimp only
  rw [List.mem_filter, isSignificant_iff, List.mem_map]
  constructor
  · rintro ⟨⟨⟨raw, number'⟩, hmem, heq⟩, hne, hcomment⟩
    obtain ⟨rfl, rfl⟩ := Prod.mk.inj heq
    obtain ⟨k, hk⟩ := List.getElem?_of_mem hmem
    rw [List.getElem?_zipIdx] at hk
    obtain ⟨raw', hraw, hpair⟩ := Option.map_eq_some_iff.1 hk
    obtain ⟨rfl, rfl⟩ := Prod.mk.inj hpair
    exact ⟨⟨_, raw', k, fields_eq_iff.1 rfl, hraw, Nat.add_comm 1 k, isTrimmed_trim raw'⟩,
      hne, hcomment⟩
  · rintro ⟨⟨lines, raw, k, hlines, hraw, rfl, htrim⟩, hne, hcomment⟩
    refine ⟨⟨(raw, k + 1), ?_, ?_⟩, hne, hcomment⟩
    · rw [hlines.fields_eq]
      refine List.mem_of_getElem? (i := k) ?_
      rw [List.getElem?_zipIdx, hraw, Nat.add_comm 1 k]
      rfl
    · rw [htrim.trim_eq]

theorem areSignificantLines (text : String) :
    AreSignificantLines text (significantLines text) := by
  refine ⟨fun number line => mem_significantLines_iff, ?_⟩
  unfold significantLines
  refine List.Pairwise.filter _ (List.pairwise_map.2 ?_)
  have hnumbers : ((fields (· == '\n') text.toList).zipIdx 1).map Prod.snd
      = List.range' 1 (fields (· == '\n') text.toList).length := List.zipIdx_map_snd 1 _
  have hordered := List.pairwise_lt_range' (s := 1)
    (n := (fields (· == '\n') text.toList).length)
  rw [← hnumbers] at hordered
  exact List.pairwise_map.1 hordered

/-- A text has its significant lines only. -/
theorem AreSignificantLines.significantLines_eq {text : String}
    {lines : List (Nat × List Char)} (h : AreSignificantLines text lines) :
    significantLines text = lines := by
  have hread := areSignificantLines text
  have : Std.Irrefl fun a b : Nat × List Char => a.1 < b.1 := ⟨fun a => Nat.lt_irrefl a.1⟩
  have : Std.Antisymm fun a b : Nat × List Char => a.1 < b.1 :=
    ⟨fun a b hab hba => absurd hba (Nat.lt_asymm hab)⟩
  refine hread.ordered.eq_of_mem_iff h.ordered fun line => ?_
  rw [hread.mem_iff, h.mem_iff]

/-! ## Alternatives -/

/-- What is read of an alternative is what it says. -/
theorem readAlternative_of_isAlternative {malformed : Error} {cs : List Char}
    {names : List String} (h : IsAlternative names cs) :
    readAlternative malformed cs = .ok names := by
  obtain ⟨written, hwritten, hne, hend, rfl⟩ := h
  unfold readAlternative
  dsimp only
  rw [map_ofList_words_eq_iff.2 hwritten, if_neg (mt List.isEmpty_iff.1 hne), if_neg hend]

theorem readAlternative_of_isBadAlternative {malformed e : Error} {cs : List Char}
    (h : IsBadAlternative malformed cs e) : readAlternative malformed cs = .error e := by
  unfold readAlternative
  dsimp only
  cases h with
  | blank hblank =>
      rw [map_ofList_words_eq_iff.2 hblank]
      rfl
  | @reserved written hwritten hmem =>
      have hne : written ≠ [] := List.ne_nil_of_mem hmem
      rw [map_ofList_words_eq_iff.2 hwritten, if_neg (mt List.isEmpty_iff.1 hne), if_pos hmem]

/-- An alternative says something, or something is wrong with it. -/
theorem isAlternative_or_isBadAlternative (malformed : Error) (cs : List Char) :
    (∃ names, IsAlternative names cs) ∨ ∃ e, IsBadAlternative malformed cs e := by
  obtain ⟨written, hwritten⟩ := exists_hasWords cs
  by_cases hne : written = []
  · exact Or.inr ⟨_, .blank (hne ▸ hwritten)⟩
  · by_cases hend : endName ∈ written
    · exact Or.inr ⟨_, .reserved hwritten hend⟩
    · exact Or.inl ⟨_, written, hwritten, hne, hend, rfl⟩

theorem readAlternative_eq_ok_iff {malformed : Error} {cs : List Char} {names : List String} :
    readAlternative malformed cs = .ok names ↔ IsAlternative names cs := by
  refine ⟨fun h => ?_, readAlternative_of_isAlternative⟩
  rcases isAlternative_or_isBadAlternative malformed cs with ⟨names', hnames⟩ | ⟨e, he⟩
  · rw [readAlternative_of_isAlternative hnames] at h
    rw [← Except.ok.inj h]
    exact hnames
  · rw [readAlternative_of_isBadAlternative he] at h
    cases h

theorem readAlternative_eq_error_iff {malformed e : Error} {cs : List Char} :
    readAlternative malformed cs = .error e ↔ IsBadAlternative malformed cs e := by
  refine ⟨fun h => ?_, readAlternative_of_isBadAlternative⟩
  rcases isAlternative_or_isBadAlternative malformed cs with ⟨names, hnames⟩ | ⟨e', he⟩
  · rw [readAlternative_of_isAlternative hnames] at h
    cases h
  · rw [readAlternative_of_isBadAlternative he] at h
    rw [← Except.error.inj h]
    exact he

/-- The alternatives of a right-hand side, read from left to right. -/
theorem mapM_readAlternative_eq_ok_iff {malformed : Error} {parts : List (List Char)}
    {alternatives : List (List String)} :
    parts.mapM (readAlternative malformed) = .ok alternatives ↔
      List.Forall₂ IsAlternative alternatives parts := by
  rw [mapM_eq_ok_iff]
  simp only [readAlternative_eq_ok_iff]
  exact ⟨List.Forall₂.flip, List.Forall₂.flip⟩

/-! ## Lines -/

section Lines

variable {number : Nat} {line left right : List Char} {names : List String} {head : String}

theorem ofLine_of_not_infix (h : ¬ arrowMark.toList <:+: line) :
    Definition.ofLine number line = .error (malformedLine number line) := by
  have hcut : cut arrowMark.toList line = none := (cut_eq_none_iff (by decide)).2 h
  unfold Definition.ofLine
  simp only [hcut]
  rfl

theorem ofLine_of_left (hcut : IsCut arrowMark.toList left right line)
    (hleft : HasWords names left) (h : names.length ≠ 1) :
    Definition.ofLine number line = .error (malformedLine number line) := by
  unfold Definition.ofLine
  simp only [(cut_eq_some_iff (by decide)).2 hcut, map_ofList_words_eq_iff.2 hleft]
  split
  next head => exact absurd rfl h
  next => rfl

/-- A line with one word before its arrow is read from there. -/
theorem ofLine_of_head (hcut : IsCut arrowMark.toList left right line)
    (hleft : HasWords [head] left) :
    Definition.ofLine number line =
      if (words right).isEmpty then .error (malformedLine number line)
      else if isReserved head then .error (.reservedSymbol head)
      else (fields (· == alternativeMark) right).mapM
        (readAlternative (malformedLine number line)) >>= fun alternatives =>
          .ok ⟨head, alternatives⟩ := by
  unfold Definition.ofLine
  simp only [(cut_eq_some_iff (by decide)).2 hcut, map_ofList_words_eq_iff.2 hleft]
  rfl

theorem isEmpty_words_iff {cs : List Char} : (words cs).isEmpty = true ↔ HasWords [] cs := by
  rw [← map_ofList_words_eq_iff, List.isEmpty_iff, List.map_eq_nil_iff]

theorem isReserved_iff {name : String} :
    isReserved name = true ↔ name = epsilonName ∨ name = endName := by
  unfold isReserved
  rw [Bool.or_eq_true, beq_iff_eq, beq_iff_eq]

/-- A right-hand side that is read is not blank. -/
theorem not_hasWords_nil {parts : List (List Char)} {alternatives : List (List String)}
    (hparts : IsDivided alternativeMark parts right)
    (h : List.Forall₂ IsAlternative alternatives parts) : ¬ HasWords [] right := by
  intro hblank
  rw [hasWords_nil_iff] at hblank
  cases h with
  | nil => exact hparts.parts_ne_nil rfl
  | @cons names part alternatives parts hpart _ =>
      obtain ⟨written, hwritten, hne, -⟩ := hpart
      have hnil : HasWords [] part := hasWords_nil_iff.2 fun c hc =>
        hblank c (hparts.mem List.mem_cons_self hc)
      exact hne (hwritten.unique hnil)

theorem ofLine_of_isWrittenAs {d : Definition} (h : d.IsWrittenAs line) :
    Definition.ofLine number line = .ok d := by
  obtain ⟨left, right, parts, hcut, hleft, hepsilon, hend, hparts, halternatives⟩ := h
  have hright := not_hasWords_nil hparts halternatives
  have hfree : ¬ isReserved d.head = true :=
    fun h => (isReserved_iff.1 h).elim hepsilon hend
  rw [ofLine_of_head hcut hleft, if_neg (mt isEmpty_words_iff.1 hright), if_neg hfree,
    hparts.fields_eq, mapM_readAlternative_eq_ok_iff.2 halternatives]
  rfl

theorem ofLine_of_isOffence {e : Error} (h : IsOffence number line e) :
    Definition.ofLine number line = .error e := by
  cases h with
  | arrow h => exact ofLine_of_not_infix h
  | left hcut hleft h => exact ofLine_of_left hcut hleft h
  | @right left right hcut hright =>
      obtain ⟨names, hleft⟩ := exists_hasWords left
      by_cases hone : names.length = 1
      · obtain ⟨head, rfl⟩ := List.length_eq_one_iff.1 hone
        rw [ofLine_of_head hcut hleft, if_pos (isEmpty_words_iff.2 hright)]
      · exact ofLine_of_left hcut hleft hone
  | head hcut hleft hright h =>
      rw [ofLine_of_head hcut hleft, if_neg (mt isEmpty_words_iff.1 hright),
        if_pos (isReserved_iff.2 h)]
  | @alternative left right part before after head e hcut hleft hright hepsilon hend hparts
      hbefore h =>
      have hfree : ¬ isReserved head = true :=
        fun h => (isReserved_iff.1 h).elim hepsilon hend
      have hread : (before ++ part :: after).mapM
          (readAlternative (malformedLine number line)) = .error e := by
        refine mapM_eq_error_iff.2 ⟨before, part, after, rfl, ?_, fun cs hcs => ?_⟩
        · exact readAlternative_of_isBadAlternative h
        · obtain ⟨names, hnames⟩ := hbefore cs hcs
          exact ⟨names, readAlternative_of_isAlternative hnames⟩
      rw [ofLine_of_head hcut hleft, if_neg (mt isEmpty_words_iff.1 hright), if_neg hfree,
        hparts.fields_eq, hread]
      rfl

/-- A line says something, or something is wrong with it. -/
theorem isWrittenAs_or_isOffence (number : Nat) (line : List Char) :
    (∃ d : Definition, d.IsWrittenAs line) ∨ ∃ e, IsOffence number line e := by
  cases hcut : cut arrowMark.toList line with
  | none => exact Or.inr ⟨_, .arrow ((cut_eq_none_iff (by decide)).1 hcut)⟩
  | some sides =>
      obtain ⟨left, right⟩ := sides
      have hcut := isCut_of_cut_eq_some hcut
      obtain ⟨names, hleft⟩ := exists_hasWords left
      by_cases hone : names.length = 1
      · obtain ⟨head, rfl⟩ := List.length_eq_one_iff.1 hone
        by_cases hright : HasWords [] right
        · exact Or.inr ⟨_, .right hcut hright⟩
        by_cases hreserved : head = epsilonName ∨ head = endName
        · exact Or.inr ⟨_, .head hcut hleft hright hreserved⟩
        obtain ⟨hepsilon, hend⟩ := not_or.1 hreserved
        have hparts : IsDivided alternativeMark (fields (· == alternativeMark) right) right :=
          fields_eq_iff.1 rfl
        cases hread : (fields (· == alternativeMark) right).mapM
            (readAlternative (malformedLine number line)) with
        | ok alternatives =>
            exact Or.inl ⟨⟨head, alternatives⟩, left, right, _, hcut, hleft, hepsilon, hend,
              hparts, mapM_readAlternative_eq_ok_iff.1 hread⟩
        | error e =>
            obtain ⟨before, part, after, hfields, hpart, hbefore⟩ :=
              mapM_eq_error_iff.1 hread
            rw [hfields] at hparts
            refine Or.inr ⟨e, .alternative hcut hleft hright hepsilon hend hparts ?_
              (readAlternative_eq_error_iff.1 hpart)⟩
            intro cs hcs
            obtain ⟨names, hnames⟩ := hbefore cs hcs
            exact ⟨names, readAlternative_eq_ok_iff.1 hnames⟩
      · exact Or.inr ⟨_, .left hcut hleft hone⟩

/-- **A rule line** is read as it is written. -/
theorem ofLine_eq_ok_iff {d : Definition} :
    Definition.ofLine number line = .ok d ↔ d.IsWrittenAs line := by
  refine ⟨fun h => ?_, ofLine_of_isWrittenAs⟩
  rcases isWrittenAs_or_isOffence number line with ⟨d', hd⟩ | ⟨e, he⟩
  · rw [ofLine_of_isWrittenAs hd] at h
    rw [← Except.ok.inj h]
    exact hd
  · rw [ofLine_of_isOffence he] at h
    cases h

/-- **Of any other line** the first offence is reported. -/
theorem ofLine_eq_error_iff {e : Error} :
    Definition.ofLine number line = .error e ↔ IsOffence number line e := by
  refine ⟨fun h => ?_, ofLine_of_isOffence⟩
  rcases isWrittenAs_or_isOffence number line with ⟨d, hd⟩ | ⟨e', he⟩
  · rw [ofLine_of_isWrittenAs hd] at h
    cases h
  · rw [ofLine_of_isOffence he] at h
    rw [← Except.error.inj h]
    exact he

end Lines

/-! ## Texts -/

namespace Grammar

variable {text : String} {g : Grammar}

/-- A grammar declares what its definitions say. -/
theorem declares_ofDefinitions (first : Definition) (rest : List Definition) :
    (ofDefinitions first rest).Declares (first :: rest) where
  namedRules_eq := namedRules_ofDefinitions first rest
  rule_id := by
    intro i r hr
    obtain ⟨head, names, -, rfl⟩ := exists_production_of_rule hr
    rfl
  start := ⟨first, rest, rfl, (number_spec (Or.inl List.mem_cons_self)).2⟩

theorem definitionsOf_eq_ok_iff {definitions : List Definition} :
    definitionsOf text = .ok definitions ↔
      List.Forall₂ (fun line d => Definition.IsWrittenAs d line.2) (significantLines text)
        definitions := by
  unfold definitionsOf
  rw [mapM_eq_ok_iff]
  simp only [ofLine_eq_ok_iff]

/-- **The definitions of a text** are those that are written in it. -/
theorem definitionsOf_eq_ok_iff_areWrittenIn {definitions : List Definition} :
    definitionsOf text = .ok definitions ↔ AreWrittenIn definitions text := by
  rw [definitionsOf_eq_ok_iff]
  constructor
  · exact fun h => ⟨_, areSignificantLines text, h⟩
  · rintro ⟨lines, hlines, h⟩
    rw [hlines.significantLines_eq]
    exact h

/-- The definitions of a text are refused as its first line is in which something is wrong. -/
theorem definitionsOf_eq_error_iff {e : Error} :
    definitionsOf text = .error e ↔
      ∃ number line, IsSignificantLine text number line ∧ IsOffence number line e ∧
        ∀ earlier before, earlier < number → IsSignificantLine text earlier before →
          ∃ d : Definition, d.IsWrittenAs before := by
  have hordered := (areSignificantLines text).ordered
  unfold definitionsOf
  rw [mapM_eq_error_iff]
  simp only [ofLine_eq_ok_iff, ofLine_eq_error_iff]
  constructor
  · rintro ⟨front, ⟨number, line⟩, back, hlines, hoffence, hfront⟩
    refine ⟨number, line, mem_significantLines_iff.1 ?_, hoffence, ?_⟩
    · rw [hlines]
      exact List.mem_append_right _ List.mem_cons_self
    · intro earlier before hlt hbefore
      have hmem := mem_significantLines_iff.2 hbefore
      rw [hlines] at hmem hordered
      rcases List.mem_append.1 hmem with hmem | hmem
      · exact hfront _ hmem
      have hbehind := (List.pairwise_append.1 hordered).2.1
      rcases List.mem_cons.1 hmem with heq | hmem
      · obtain ⟨rfl, -⟩ := Prod.mk.inj heq
        omega
      · have hgt := (List.pairwise_cons.1 hbehind).1 _ hmem
        dsimp only at hgt
        omega
  · rintro ⟨number, line, hline, hoffence, hbefore⟩
    obtain ⟨front, back, hlines⟩ := List.append_of_mem (mem_significantLines_iff.2 hline)
    refine ⟨front, (number, line), back, hlines, hoffence, ?_⟩
    intro other hother
    have hlt : other.1 < number := by
      rw [hlines] at hordered
      exact (List.pairwise_append.1 hordered).2.2 other hother _ List.mem_cons_self
    refine hbefore other.1 other.2 hlt (mem_significantLines_iff.1 ?_)
    rw [hlines]
    exact List.mem_append_left _ hother

/-- A text without definitions declares nothing. -/
theorem definitionsOf_eq_nil_iff :
    definitionsOf text = .ok [] ↔ ∀ number line, ¬ IsSignificantLine text number line := by
  rw [definitionsOf_eq_ok_iff, List.forall₂_nil_right_iff, List.eq_nil_iff_forall_not_mem]
  constructor
  · intro h number line hline
    exact h _ (mem_significantLines_iff.2 hline)
  · intro h line hmem
    exact h line.1 line.2 (mem_significantLines_iff.1 hmem)

theorem ofText_eq_error_iff {e : Error} :
    ofText text = .error e ↔
      (e = .emptyGrammar ∧ definitionsOf text = .ok []) ∨ definitionsOf text = .error e := by
  cases hread : definitionsOf text with
  | error e' =>
      have htext : ofText text = .error e' := by
        unfold definitionsOf at hread
        unfold ofText
        rw [hread]
        rfl
      rw [htext]
      simp
  | ok definitions =>
      cases definitions with
      | nil =>
          have htext : ofText text = .error .emptyGrammar := by
            unfold definitionsOf at hread
            unfold ofText
            rw [hread]
            rfl
          rw [htext]
          simp [eq_comm]
      | cons first rest =>
          rw [ofText_of_definitionsOf hread]
          simp

/-- **Grammar texts** are read by their format: what they declare, and the first offence in
any other text. -/
theorem ofText_followsFormat (text : String) : FollowsFormat text := by
  refine
    { accepted_iff := ⟨?_, ?_⟩
      declares := ?_
      refused_iff := ?_ }
  · rintro ⟨g, hg⟩
    obtain ⟨first, rest, hread, -⟩ := exists_definitionsOf hg
    refine ⟨?_, fun number line hline => ?_⟩
    · by_contra hnone
      simp only [not_exists] at hnone
      rw [definitionsOf_eq_nil_iff.2 hnone] at hread
      cases hread
    · obtain ⟨k, hk⟩ := List.getElem?_of_mem (mem_significantLines_iff.2 hline)
      obtain ⟨d, -, hd⟩ := exists_getElem?_of_forall₂ (definitionsOf_eq_ok_iff.1 hread) hk
      exact ⟨d, hd⟩
  · rintro ⟨⟨number, line, hline⟩, hwritten⟩
    cases hread : definitionsOf text with
    | error e =>
        obtain ⟨number, line, hline, hoffence, -⟩ := definitionsOf_eq_error_iff.1 hread
        obtain ⟨d, hd⟩ := hwritten number line hline
        have hok : Definition.ofLine number line = .ok d := ofLine_of_isWrittenAs hd
        rw [ofLine_of_isOffence hoffence] at hok
        cases hok
    | ok definitions =>
        cases definitions with
        | nil => exact absurd hline (definitionsOf_eq_nil_iff.1 hread number line)
        | cons first rest => exact ⟨_, ofText_of_definitionsOf hread⟩
  · intro g hg
    obtain ⟨first, rest, hread, rfl⟩ := exists_definitionsOf hg
    exact ⟨_, definitionsOf_eq_ok_iff_areWrittenIn.1 hread, declares_ofDefinitions first rest⟩
  · intro e
    rw [ofText_eq_error_iff, definitionsOf_eq_nil_iff, definitionsOf_eq_error_iff]

/-- A reserved word on the left is reported before a blank alternative. -/
example : ofText "// S\n$ -> | x\nS" = .error (.reservedSymbol "$") := by decide +kernel

end Grammar

end CanonicalLR
