import CanonicalLR.Text.Blank

/-!
# Fields, words and cuts

Three ways to divide a text, all on lists of characters.

* `fields` divides at every separating character and keeps empty fields: the
  lines of a grammar text are its fields at line feeds, the alternatives of a
  rule are the fields of its right-hand side at bars. A carriage return before
  a line feed stays in its line, where it is a blank.
* `words` are the non-empty fields at blanks.
* `cut` divides once, at the first occurrence of a mark.

## Main results

* `fields_ne_nil` — a text has at least one field.
* `not_mem_of_mem_fields` — no field holds a separator.
* `word_ne_nil`, `not_isBlank_of_mem_words` — a word is non-empty and holds no
  blank.
* `words_eq_singleton` — a text that is itself a word is its only word.
* `wordsOf_intercalate` — words with blanks between them are the words of the text
  that they make up.
* `cut_eq_some` — the two parts of a cut and the mark make up the text.
-/

namespace CanonicalLR.Text

/-! ## Fields -/

/-- The runs between separators, the empty ones included. -/
def fields (separates : Char → Bool) : List Char → List (List Char)
  | [] => [[]]
  | c :: cs =>
    if separates c then [] :: fields separates cs
    else match fields separates cs with
      | [] => [[c]]
      | field :: rest => (c :: field) :: rest

theorem fields_ne_nil (separates : Char → Bool) (cs : List Char) :
    fields separates cs ≠ [] := by
  cases cs with
  | nil => simp [fields]
  | cons c cs =>
    simp only [fields]
    split
    · simp
    · split <;> simp

theorem not_mem_of_mem_fields {separates : Char → Bool} {cs field : List Char}
    (h : field ∈ fields separates cs) : ∀ c ∈ field, separates c = false := by
  induction cs generalizing field with
  | nil => simp_all [fields]
  | cons c cs ih =>
    simp only [fields] at h
    split at h
    · rcases List.mem_cons.1 h with rfl | h
      · simp
      · exact ih h
    next hc =>
      have hc : separates c = false := by simpa using hc
      split at h
      · simp_all
      next first rest hrest =>
        rcases List.mem_cons.1 h with rfl | h
        · intro x hx
          rcases List.mem_cons.1 hx with rfl | hx
          · exact hc
          · exact ih (by simp [hrest]) x hx
        · exact ih (by simp [hrest, h])

/-- A text without separators is its only field. -/
theorem fields_eq_singleton {separates : Char → Bool} {cs : List Char}
    (h : ∀ c ∈ cs, separates c = false) : fields separates cs = [cs] := by
  induction cs with
  | nil => rfl
  | cons c cs ih =>
    simp [fields, h c (by simp), ih fun x hx => h x (by simp [hx])]

/-- A text that goes on behind a separator has the fields before it, and then the
fields behind it. -/
theorem fields_append {separates : Char → Bool} {c : Char} (hc : separates c = true)
    (cs rest : List Char) :
    fields separates (cs ++ c :: rest) = fields separates cs ++ fields separates rest := by
  induction cs with
  | nil => simp [fields, hc]
  | cons x cs ih =>
    simp only [List.cons_append, fields, ih]
    split
    · rfl
    · cases hfields : fields separates cs with
      | nil => exact absurd hfields (fields_ne_nil separates cs)
      | cons field more => rfl

/-- A text that goes on behind a separator has the field before it, and then the
fields behind it. -/
theorem fields_append_cons {separates : Char → Bool} {cs rest : List Char} {c : Char}
    (h : ∀ x ∈ cs, separates x = false) (hc : separates c = true) :
    fields separates (cs ++ c :: rest) = cs :: fields separates rest := by
  rw [fields_append hc, fields_eq_singleton h, List.singleton_append]

/-! ## Words -/

/-- The maximal runs of characters that are not blank. -/
def words (cs : List Char) : List (List Char) :=
  (fields isBlank cs).filter fun word => !word.isEmpty

theorem word_ne_nil {cs word : List Char} (h : word ∈ words cs) : word ≠ [] := by
  simpa using (List.mem_filter.1 h).2

theorem not_isBlank_of_mem_words {cs word : List Char} (h : word ∈ words cs) :
    ∀ c ∈ word, isBlank c = false :=
  not_mem_of_mem_fields (List.mem_filter.1 h).1

theorem words_eq_singleton {cs : List Char} (nonempty : cs ≠ [])
    (h : ∀ c ∈ cs, isBlank c = false) : words cs = [cs] := by
  simp [words, fields_eq_singleton h, nonempty]

/-- A text that goes on behind a blank has the word before it, and then the words
behind it. -/
theorem words_append_cons {word rest : List Char} {c : Char} (nonempty : word ≠ [])
    (h : ∀ x ∈ word, isBlank x = false) (hc : isBlank c = true) :
    words (word ++ c :: rest) = word :: words rest := by
  simp [words, fields_append_cons h hc, nonempty]

/-- Words that are written with a blank between two of them are read again. -/
theorem words_intercalate {c : Char} (hc : isBlank c = true) {parts : List (List Char)}
    (h : ∀ word ∈ parts, word ≠ [] ∧ ∀ x ∈ word, isBlank x = false) :
    words ([c].intercalate parts) = parts := by
  induction parts with
  | nil => rfl
  | cons word parts ih =>
    obtain ⟨nonempty, hword⟩ := h word (by simp)
    cases parts with
    | nil =>
      rw [List.intercalate_singleton]
      exact words_eq_singleton nonempty hword
    | cons next parts =>
      have hlater := ih fun x hx => h x (List.mem_cons_of_mem _ hx)
      rw [List.intercalate_cons_cons, List.append_assoc, List.singleton_append,
        words_append_cons nonempty hword hc, hlater]

/-- The words of a text, as strings. -/
def wordsOf (text : String) : List String :=
  (words text.toList).map String.ofList

theorem wordsOf_intercalate {names : List String}
    (h : ∀ name ∈ names, name.toList ≠ [] ∧ ∀ c ∈ name.toList, isBlank c = false) :
    wordsOf (" ".intercalate names) = names := by
  have hparts : ∀ word ∈ names.map String.toList,
      word ≠ [] ∧ ∀ c ∈ word, isBlank c = false := by
    intro word hword
    obtain ⟨name, hname, rfl⟩ := List.mem_map.1 hword
    exact h name hname
  have hblank : " ".toList = [' '] := rfl
  unfold wordsOf
  rw [String.toList_intercalate, hblank, words_intercalate (by decide) hparts,
    List.map_map]
  simp

/-! ## Cuts -/

/-- The parts before and after the first occurrence of `mark`, if it occurs. -/
def cut (mark : List Char) : List Char → Option (List Char × List Char)
  | [] => none
  | c :: cs =>
    if mark.isPrefixOf (c :: cs) then some ([], (c :: cs).drop mark.length)
    else (cut mark cs).map fun parts => (c :: parts.1, parts.2)

theorem cut_eq_some {mark cs left right : List Char}
    (h : cut mark cs = some (left, right)) : cs = left ++ mark ++ right := by
  induction cs generalizing left with
  | nil => simp [cut] at h
  | cons c cs ih =>
    simp only [cut] at h
    split at h
    next starts =>
      obtain ⟨rest, hrest⟩ := List.isPrefixOf_iff_prefix.1 starts
      simp only [Option.some.injEq, Prod.mk.injEq] at h
      obtain ⟨rfl, rfl⟩ := h
      simp [← hrest]
    · obtain ⟨⟨before, after⟩, hparts, heq⟩ := Option.map_eq_some_iff.1 h
      simp only [Prod.mk.injEq] at heq
      obtain ⟨rfl, rfl⟩ := heq
      simp [ih hparts]

end CanonicalLR.Text
