import CanonicalLR.Text.Fields
import Mathlib.Data.List.TakeWhile

/-!
# Texts as they are written

A text can be written in many ways: blanks may stand around its words, and its lines need
not be trimmed. Each way to divide a text has a relation between the text and its parts
that says how the text may look, and the function that divides the text finds the only
parts that are in this relation to it.

## Main definitions

* `IsDivided` — parts with a separator between two of them.
* `Spaced`, `HasWords` — words with blanks around them.
* `IsTrimmed` — a text without the blanks at its two ends.
* `IsCut` — the parts before and behind the first occurrence of a mark.

## Main results

* `fields_eq_iff`, `words_eq_iff`, `cut_eq_some_iff` — the function finds the parts of the
  relation.
* `isTrimmed_trim`, `IsTrimmed.trim_eq` — trimming leaves the text of the relation.
* `cut_eq_none_iff` — only a text without the mark cannot be cut.
-/

namespace CanonicalLR.Text

/-! ## Fields -/

/-- `IsDivided c parts cs`: the text is made of the parts, with the separator between two
of them and in none. -/
structure IsDivided (c : Char) (parts : List (List Char)) (cs : List Char) : Prop where
  parts_ne_nil : parts ≠ []
  joined : [c].intercalate parts = cs
  free : ∀ part ∈ parts, c ∉ part

theorem intercalate_cons_of_ne_nil (c : Char) (part : List Char) {rest : List (List Char)}
    (h : rest ≠ []) :
    [c].intercalate (part :: rest) = part ++ c :: [c].intercalate rest := by
  obtain ⟨next, more, rfl⟩ := List.exists_cons_of_ne_nil h
  rw [List.intercalate_cons_cons, List.append_assoc, List.singleton_append]

/-- The characters between the separators are those of the parts. -/
theorem mem_intercalate {c x : Char} {parts : List (List Char)}
    (h : x ∈ [c].intercalate parts) : x = c ∨ ∃ part ∈ parts, x ∈ part := by
  induction parts with
  | nil => cases h
  | cons part parts ih =>
      by_cases hlast : parts = []
      · rw [hlast, List.intercalate_singleton] at h
        exact Or.inr ⟨part, List.mem_cons_self, h⟩
      · rw [intercalate_cons_of_ne_nil c part hlast] at h
        rcases List.mem_append.1 h with h | h
        · exact Or.inr ⟨part, List.mem_cons_self, h⟩
        rcases List.mem_cons.1 h with rfl | h
        · exact Or.inl rfl
        · rcases ih h with rfl | ⟨part', hpart, hx⟩
          · exact Or.inl rfl
          · exact Or.inr ⟨part', List.mem_cons_of_mem _ hpart, hx⟩

/-- A text that is made of parts ends as the last part does. -/
theorem exists_getLast?_intercalate {c : Char} {parts : List (List Char)} (hne : parts ≠ [])
    (h : ∀ part ∈ parts, part ≠ []) :
    ∃ part ∈ parts, ([c].intercalate parts).getLast? = part.getLast? := by
  induction parts with
  | nil => exact absurd rfl hne
  | cons part parts ih =>
      by_cases hlast : parts = []
      · rw [hlast, List.intercalate_singleton]
        exact ⟨part, List.mem_cons_self, rfl⟩
      · obtain ⟨last, hmem, hsame⟩ := ih hlast fun p hp => h p (List.mem_cons_of_mem _ hp)
        have hsome : last.getLast? ≠ none := mt List.getLast?_eq_none_iff.1
          (h last (List.mem_cons_of_mem _ hmem))
        refine ⟨last, List.mem_cons_of_mem _ hmem, ?_⟩
        rw [intercalate_cons_of_ne_nil c part hlast, List.getLast?_append, List.getLast?_cons,
          hsame]
        obtain ⟨x, hx⟩ := Option.ne_none_iff_exists'.1 hsome
        rw [hx]
        rfl

/-- The fields of a text make it up. -/
theorem intercalate_fields (c : Char) (cs : List Char) :
    [c].intercalate (fields (· == c) cs) = cs := by
  induction cs with
  | nil => rfl
  | cons x cs ih =>
      simp only [fields]
      by_cases hx : (x == c) = true
      · rw [if_pos hx, intercalate_cons_of_ne_nil c [] (fields_ne_nil _ cs), ih,
          List.nil_append, eq_of_beq hx]
      · rw [if_neg hx]
        cases hfields : fields (· == c) cs with
        | nil => exact absurd hfields (fields_ne_nil _ cs)
        | cons field more =>
            rw [hfields] at ih
            rw [← ih]
            cases more with
            | nil => simp only [List.intercalate_singleton]
            | cons next more => simp only [List.intercalate_cons_cons, List.cons_append]

theorem IsDivided.fields_eq {c : Char} {parts : List (List Char)} {cs : List Char}
    (h : IsDivided c parts cs) : fields (· == c) cs = parts := by
  obtain ⟨hne, rfl, hfree⟩ := h
  have hfalse : ∀ part ∈ parts, ∀ x ∈ part, (x == c) = false := by
    intro part hpart x hx
    rw [beq_eq_false_iff_ne]
    rintro rfl
    exact hfree part hpart hx
  induction parts with
  | nil => exact absurd rfl hne
  | cons part parts ih =>
      have hpart := hfalse part List.mem_cons_self
      by_cases hlast : parts = []
      · rw [hlast, List.intercalate_singleton]
        exact fields_eq_singleton hpart
      · rw [intercalate_cons_of_ne_nil c part hlast,
          fields_append_cons hpart (beq_self_eq_true c),
          ih hlast (fun p hp => hfree p (List.mem_cons_of_mem _ hp))
            fun p hp => hfalse p (List.mem_cons_of_mem _ hp)]

/-- **The fields** of a text are the parts into which it is divided. -/
theorem fields_eq_iff {c : Char} {parts : List (List Char)} {cs : List Char} :
    fields (· == c) cs = parts ↔ IsDivided c parts cs := by
  constructor
  · rintro rfl
    refine ⟨fields_ne_nil _ cs, intercalate_fields c cs, fun part hpart hc => ?_⟩
    have hfalse := not_mem_of_mem_fields hpart c hc
    simp at hfalse
  · exact IsDivided.fields_eq

/-- The characters of a part are characters of the text. -/
theorem IsDivided.mem {c x : Char} {parts : List (List Char)} {part cs : List Char}
    (h : IsDivided c parts cs) (hpart : part ∈ parts) (hx : x ∈ part) : x ∈ cs := by
  obtain ⟨-, rfl, -⟩ := h
  induction parts with
  | nil => cases hpart
  | cons first parts ih =>
      by_cases hlast : parts = []
      · rw [hlast, List.mem_singleton] at hpart
        rw [hlast, List.intercalate_singleton, ← hpart]
        exact hx
      · rw [intercalate_cons_of_ne_nil c first hlast]
        rcases List.mem_cons.1 hpart with rfl | hpart
        · exact List.mem_append_left _ hx
        · exact List.mem_append_right _ (List.mem_cons_of_mem _ (ih hpart))

/-! ## Words -/

/-- `Spaced words cs`: the text is made of the words, with blanks around them and at least
one blank between two. -/
inductive Spaced : List (List Char) → List Char → Prop where
  | blank {gap : List Char} (hgap : ∀ c ∈ gap, isBlank c = true) : Spaced [] gap
  | word {gap word rest : List Char} {later : List (List Char)}
      (hgap : ∀ c ∈ gap, isBlank c = true) (nonempty : word ≠ [])
      (solid : ∀ c ∈ word, isBlank c = false) (apart : ∀ c ∈ rest.head?, isBlank c = true)
      (hrest : Spaced later rest) : Spaced (word :: later) (gap ++ word ++ rest)

theorem words_cons_of_isBlank {c : Char} (hc : isBlank c = true) (cs : List Char) :
    words (c :: cs) = words cs := by
  simp [words, fields, hc]

/-- Blanks in front of a text belong to no word. -/
theorem words_append_of_isBlank {gap : List Char} (hgap : ∀ c ∈ gap, isBlank c = true)
    (cs : List Char) : words (gap ++ cs) = words cs := by
  induction gap with
  | nil => rfl
  | cons c gap ih =>
      rw [List.cons_append, words_cons_of_isBlank (hgap c List.mem_cons_self)]
      exact ih fun x hx => hgap x (List.mem_cons_of_mem _ hx)

theorem Spaced.words_eq {ws : List (List Char)} {cs : List Char} (h : Spaced ws cs) :
    words cs = ws := by
  induction h with
  | @blank gap hgap =>
      have hwords := words_append_of_isBlank hgap []
      rw [List.append_nil] at hwords
      exact hwords
  | @word gap word rest later hgap nonempty solid apart _ ih =>
      rw [List.append_assoc, words_append_of_isBlank hgap]
      cases rest with
      | nil =>
          have hlater : later = [] := ih.symm
          rw [List.append_nil, words_eq_singleton nonempty solid, hlater]
      | cons c rest =>
          have hc : isBlank c = true := apart c rfl
          rw [words_cons_of_isBlank hc] at ih
          rw [words_append_cons nonempty solid hc, ih]

/-- Every text is made of words with blanks around them. -/
theorem exists_spaced (cs : List Char) : ∃ ws, Spaced ws cs := by
  let gap := cs.takeWhile isBlank
  let body := cs.dropWhile isBlank
  have hgap : ∀ c ∈ gap, isBlank c = true := fun c hc => List.mem_takeWhile_imp hc
  have hcs : gap ++ body = cs := List.takeWhile_append_dropWhile
  by_cases hbody : body = []
  · refine ⟨[], ?_⟩
    rw [← hcs, hbody, List.append_nil]
    exact .blank hgap
  · let word := body.takeWhile fun c => !isBlank c
    let rest := body.dropWhile fun c => !isBlank c
    have hsplit : word ++ rest = body := List.takeWhile_append_dropWhile
    have hhead : isBlank (body.head hbody) = false := by
      simpa using List.head_dropWhile_not isBlank hbody
    have hnonempty : word ≠ [] := by
      obtain ⟨c, more, hcons⟩ := List.exists_cons_of_ne_nil hbody
      have hc : isBlank c = false := by simpa [hcons] using hhead
      show body.takeWhile (fun c => !isBlank c) ≠ []
      rw [hcons, List.takeWhile_cons_of_pos (by rw [hc]; rfl)]
      exact List.cons_ne_nil _ _
    have hsolid : ∀ c ∈ word, isBlank c = false := by
      intro c hc
      simpa using List.mem_takeWhile_imp hc
    have hapart : ∀ c ∈ rest.head?, isBlank c = true := by
      intro c hc
      have hnot := List.head?_dropWhile_not (fun c => !isBlank c) body
      rw [show (body.dropWhile fun c => !isBlank c).head? = some c from hc] at hnot
      simpa using hnot
    have hshorter : rest.length < cs.length := by
      have hword : 0 < word.length := List.length_pos_iff.2 hnonempty
      have hlength := congrArg List.length hcs
      rw [← hsplit, List.length_append, List.length_append] at hlength
      omega
    obtain ⟨later, hlater⟩ := exists_spaced rest
    refine ⟨word :: later, ?_⟩
    rw [← hcs, ← hsplit, ← List.append_assoc]
    exact .word hgap hnonempty hsolid hapart hlater
termination_by cs.length

/-- **The words** of a text are the words of which it is made. -/
theorem words_eq_iff {ws : List (List Char)} {cs : List Char} :
    words cs = ws ↔ Spaced ws cs := by
  constructor
  · rintro rfl
    obtain ⟨ws, hws⟩ := exists_spaced cs
    rw [hws.words_eq]
    exact hws
  · exact Spaced.words_eq

/-- `HasWords names cs`: the text is made of the names, with blanks around them. -/
def HasWords (names : List String) (cs : List Char) : Prop :=
  Spaced (names.map String.toList) cs

theorem map_ofList_words_eq_iff {names : List String} {cs : List Char} :
    (words cs).map String.ofList = names ↔ HasWords names cs := by
  unfold HasWords
  rw [← words_eq_iff]
  constructor
  · rintro rfl
    rw [List.map_map]
    exact (List.map_id'' (fun _ => String.toList_ofList) _).symm
  · intro h
    rw [h, List.map_map]
    exact List.map_id'' (fun _ => String.ofList_toList) _

theorem HasWords.unique {names other : List String} {cs : List Char}
    (h : HasWords names cs) (h' : HasWords other cs) : names = other :=
  (map_ofList_words_eq_iff.2 h).symm.trans (map_ofList_words_eq_iff.2 h')

theorem exists_hasWords (cs : List Char) : ∃ names, HasWords names cs :=
  ⟨_, map_ofList_words_eq_iff.1 rfl⟩

/-- A text without words is blank. -/
theorem hasWords_nil_iff {cs : List Char} :
    HasWords [] cs ↔ ∀ c ∈ cs, isBlank c = true := by
  refine ⟨fun h => ?_, .blank⟩
  obtain ⟨hgap⟩ : Spaced [] cs := h
  exact hgap

/-- A word of a text stands in it. -/
theorem HasWords.infix_of_mem {names : List String} {name : String} {cs : List Char}
    (h : HasWords names cs) (hname : name ∈ names) : name.toList <:+: cs := by
  have hword : name.toList ∈ names.map String.toList := List.mem_map_of_mem hname
  unfold HasWords at h
  generalize names.map String.toList = ws at h hword
  induction h with
  | blank => cases hword
  | @word gap word rest later _ _ _ _ _ ih =>
      rcases List.mem_cons.1 hword with heq | hword
      · rw [heq]
        exact ⟨gap, rest, rfl⟩
      · exact (ih hword).trans (List.suffix_append _ rest).isInfix

/-- Only blanks stand before the only word of a text. -/
theorem HasWords.exists_gap {name : String} {cs : List Char} (h : HasWords [name] cs) :
    ∃ gap rest, cs = gap ++ name.toList ++ rest ∧ ∀ c ∈ gap, isBlank c = true := by
  unfold HasWords at h
  rw [List.map_singleton] at h
  cases h with
  | @word gap _ rest _ hgap _ _ _ _ => exact ⟨gap, rest, rfl, hgap⟩

/-! ## Trimmed texts -/

/-- `IsTrimmed line cs`: the line is the text without the blanks at its two ends. -/
structure IsTrimmed (line cs : List Char) : Prop where
  exists_gaps : ∃ before after, cs = before ++ line ++ after ∧
    (∀ c ∈ before, isBlank c = true) ∧ ∀ c ∈ after, isBlank c = true
  first : ∀ c ∈ line.head?, isBlank c = false
  last : ∀ c ∈ line.getLast?, isBlank c = false

theorem dropWhile_append_of_isBlank {gap : List Char} (hgap : ∀ c ∈ gap, isBlank c = true)
    {cs : List Char} (h : ∀ c ∈ cs.head?, isBlank c = false) :
    (gap ++ cs).dropWhile isBlank = cs := by
  rw [List.dropWhile_append_of_pos hgap]
  exact dropWhile_of_head_not h

theorem IsTrimmed.trim_eq {line cs : List Char} (h : IsTrimmed line cs) : trim cs = line := by
  obtain ⟨⟨before, after, rfl, hbefore, hafter⟩, first, last⟩ := h
  have hreverse : ∀ c ∈ after.reverse, isBlank c = true :=
    fun c hc => hafter c (List.mem_reverse.1 hc)
  unfold trim
  by_cases hline : line = []
  · have hall : ∀ c ∈ before ++ line ++ after, isBlank c = true := by
      intro c hc
      rw [hline, List.append_nil] at hc
      exact (List.mem_append.1 hc).elim (hbefore c) (hafter c)
    rw [List.dropWhile_eq_nil_iff.2 hall, hline]
    rfl
  · have hhead : ∀ c ∈ (line ++ after).head?, isBlank c = false := by
      intro c hc
      obtain ⟨x, more, rfl⟩ := List.exists_cons_of_ne_nil hline
      exact first c hc
    have hlast : ∀ c ∈ line.reverse.head?, isBlank c = false := by
      intro c hc
      rw [List.head?_reverse] at hc
      exact last c hc
    rw [List.append_assoc, dropWhile_append_of_isBlank hbefore hhead, List.reverse_append,
      dropWhile_append_of_isBlank hreverse hlast, List.reverse_reverse]

theorem isTrimmed_trim (cs : List Char) : IsTrimmed (trim cs) cs := by
  let body := cs.dropWhile isBlank
  have hfront : cs.takeWhile isBlank ++ body = cs := List.takeWhile_append_dropWhile
  have hback : body = trim cs ++ (body.reverse.takeWhile isBlank).reverse := by
    unfold trim
    rw [← List.reverse_append, List.takeWhile_append_dropWhile, List.reverse_reverse]
  refine ⟨⟨cs.takeWhile isBlank, (body.reverse.takeWhile isBlank).reverse, ?_, ?_, ?_⟩, ?_, ?_⟩
  · rw [List.append_assoc, ← hback, hfront]
  · exact fun c hc => List.mem_takeWhile_imp hc
  · exact fun c hc => List.mem_takeWhile_imp (List.mem_reverse.1 hc)
  · intro c hc
    have hbody : body.head? = some c := by
      rw [hback, List.head?_append, Option.mem_def.1 hc]
      rfl
    have hnot := List.head?_dropWhile_not isBlank cs
    rw [show (cs.dropWhile isBlank).head? = some c from hbody] at hnot
    simpa using hnot
  · intro c hc
    unfold trim at hc
    rw [List.getLast?_reverse] at hc
    have hnot := List.head?_dropWhile_not isBlank (cs.dropWhile isBlank).reverse
    rw [Option.mem_def.1 hc] at hnot
    simpa using hnot

/-! ## Cuts -/

/-- `IsCut mark left right cs`: the text is made of the two parts with the mark between
them, and the mark stands nowhere before. -/
structure IsCut (mark left right cs : List Char) : Prop where
  joined : cs = left ++ mark ++ right
  first : ∀ left' right', cs = left' ++ mark ++ right' → left.length ≤ left'.length

theorem IsCut.unique {mark left right left' right' cs : List Char}
    (h : IsCut mark left right cs) (h' : IsCut mark left' right' cs) :
    left = left' ∧ right = right' := by
  have hle := h.first left' right' h'.joined
  have hge := h'.first left right h.joined
  have heq := h.joined.symm.trans h'.joined
  rw [List.append_assoc, List.append_assoc] at heq
  obtain ⟨hleft, hrest⟩ := List.append_inj heq (by omega)
  exact ⟨hleft, List.append_cancel_left hrest⟩

theorem isCut_of_cut_eq_some {mark left right cs : List Char}
    (h : cut mark cs = some (left, right)) : IsCut mark left right cs := by
  refine ⟨cut_eq_some h, ?_⟩
  induction cs generalizing left with
  | nil => cases h
  | cons c cs ih =>
      intro left' right' hjoined
      unfold cut at h
      split at h
      next =>
        obtain rfl : [] = left := congrArg Prod.fst (Option.some.inj h)
        exact Nat.zero_le _
      next hnot =>
        obtain ⟨⟨before, after⟩, hparts, heq⟩ := Option.map_eq_some_iff.1 h
        obtain ⟨rfl, rfl⟩ := Prod.mk.inj heq
        cases left' with
        | nil =>
            have hstarts : mark <+: c :: cs := ⟨right', by rw [hjoined, List.nil_append]⟩
            exact absurd (List.isPrefixOf_iff_prefix.2 hstarts) hnot
        | cons x left' =>
            rw [List.cons_append, List.cons_append] at hjoined
            have htail := (List.cons.inj hjoined).2
            exact Nat.succ_le_succ (ih hparts left' right' htail)

/-- **Only a text without the mark** cannot be cut. -/
theorem cut_eq_none_iff {mark cs : List Char} (hmark : mark ≠ []) :
    cut mark cs = none ↔ ¬ mark <:+: cs := by
  induction cs with
  | nil => simpa [cut] using hmark
  | cons c cs ih =>
      unfold cut
      rw [List.infix_cons_iff, ← List.isPrefixOf_iff_prefix, not_or, ← ih]
      by_cases hstarts : mark.isPrefixOf (c :: cs) = true
      · rw [if_pos hstarts]
        simp [hstarts]
      · rw [if_neg hstarts, Option.map_eq_none_iff]
        exact (and_iff_right hstarts).symm

/-- **A cut** finds the parts around the first occurrence of the mark. -/
theorem cut_eq_some_iff {mark left right cs : List Char} (hmark : mark ≠ []) :
    cut mark cs = some (left, right) ↔ IsCut mark left right cs := by
  refine ⟨isCut_of_cut_eq_some, fun h => ?_⟩
  cases hcut : cut mark cs with
  | none =>
      have hinside : mark <:+: cs := ⟨left, right, h.joined.symm⟩
      exact absurd hinside ((cut_eq_none_iff hmark).1 hcut)
  | some parts =>
      obtain ⟨left', right'⟩ := parts
      obtain ⟨rfl, rfl⟩ := h.unique (isCut_of_cut_eq_some hcut)
      rfl

end CanonicalLR.Text
