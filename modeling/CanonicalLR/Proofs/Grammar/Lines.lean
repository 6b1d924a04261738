import CanonicalLR.Proofs.Grammar.WellFormed

/-!
# Grammar texts line by line

A text is read line by line, and a line that can be read is read in the same way wherever
it stands. So a text with a block of lines behind it has the definitions of the text and
then those of the block.

## Main definitions

* `definitionsOf` — the definitions of a text, or the first offence in it.

## Main results

* `ofLine_eq_ok_of_eq_ok` — what a line says does not depend on its number.
* `exists_definitionsOf`, `ofText_of_definitionsOf` — the grammar of a text is that of its
  definitions.
* `definitionsOf_append` — the definitions of a text with a block of lines behind it.
-/

namespace CanonicalLR

open Text

/-! ## Lines -/

/-- What is read of an alternative does not depend on the error that would be reported. -/
theorem readAlternative_eq_ok {malformed other : Error} {cs : List Char}
    {names : List String} (h : readAlternative malformed cs = .ok names) :
    readAlternative other cs = .ok names := by
  unfold readAlternative at h ⊢
  dsimp only at h ⊢
  split at h
  · cases h
  next hne =>
    rw [if_neg hne]
    exact h

/-- **What a line says** does not depend on its number. -/
theorem ofLine_eq_ok_of_eq_ok {number other : Nat} {line : List Char} {d : Definition}
    (h : Definition.ofLine number line = .ok d) : Definition.ofLine other line = .ok d := by
  unfold Definition.ofLine at h ⊢
  dsimp only at h ⊢
  cases hcut : cut arrowMark.toList line with
  | none =>
      rw [hcut] at h
      cases h
  | some parts =>
      obtain ⟨left, right⟩ := parts
      rw [hcut] at h
      dsimp only at h ⊢
      split at h
      next head hhead =>
        by_cases hempty : (words right).isEmpty = true
        · rw [if_pos hempty] at h
          cases h
        · by_cases hreserved : isReserved head = true
          · rw [if_neg hempty, if_pos hreserved] at h
            cases h
          · rw [if_neg hempty, if_neg hreserved] at h ⊢
            obtain ⟨alternatives, halternatives, hd⟩ := exists_of_bind_eq_ok h
            have hsame := mapM_map_eq_ok
              (readAlternative (.malformedRule other (String.ofList line))) id
              (fun _ _ _ => readAlternative_eq_ok) halternatives
            rw [List.map_id] at hsame
            rw [hsame]
            exact hd
      · cases h

namespace Grammar

/-- The definitions of a text, or the first offence in it. -/
def definitionsOf (text : String) : Except Error (List Definition) :=
  (significantLines text).mapM fun line => Definition.ofLine line.1 line.2

/-- The grammar of a text is that of its definitions. -/
theorem exists_definitionsOf {text : String} {g : Grammar} (h : ofText text = .ok g) :
    ∃ first rest, definitionsOf text = .ok (first :: rest) ∧
      g = ofDefinitions first rest := by
  unfold ofText at h
  obtain ⟨definitions, hread, h⟩ := exists_of_bind_eq_ok h
  cases definitions with
  | nil => cases h
  | cons first rest => exact ⟨first, rest, hread, (Except.ok.inj h).symm⟩

theorem ofText_of_definitionsOf {text : String} {first : Definition} {rest : List Definition}
    (h : definitionsOf text = .ok (first :: rest)) :
    ofText text = .ok (ofDefinitions first rest) := by
  unfold definitionsOf at h
  unfold ofText
  rw [h]
  rfl

theorem wellFormed_of_mem_definitionsOf {text : String} {definitions : List Definition}
    (h : definitionsOf text = .ok definitions) : ∀ d ∈ definitions, d.WellFormed := by
  intro d hd
  obtain ⟨line, -, hline⟩ := exists_left_of_mem (forall₂_of_mapM_eq_ok h) hd
  exact Definition.wellFormed_ofLine hline

/-- The lines of a text are those of its first part and then those of the rest, under
later numbers. -/
theorem significantLines_append (text more : String) :
    ∃ count, significantLines (text ++ "\n" ++ more)
      = significantLines text ++ (significantLines more).map (Prod.map (· + count) id) := by
  let lines := fields (· == '\n') text.toList
  have hfields : fields (· == '\n') (text ++ "\n" ++ more).toList
      = lines ++ fields (· == '\n') more.toList := by
    rw [String.toList_append, String.toList_append, List.append_assoc]
    exact fields_append rfl text.toList more.toList
  refine ⟨lines.length, ?_⟩
  unfold significantLines
  dsimp only
  rw [hfields, List.zipIdx_append, List.map_append, List.filter_append, Nat.add_comm,
    ← List.map_snd_add_zipIdx_eq_zipIdx, List.map_map]
  congr 1
  rw [List.filter_map, List.filter_map, List.map_map]
  rfl

/-- **The definitions of a text** with a block of lines behind it. -/
theorem definitionsOf_append {text more : String} {definitions added : List Definition}
    (h : definitionsOf text = .ok definitions) (hmore : definitionsOf more = .ok added) :
    definitionsOf (text ++ "\n" ++ more) = .ok (definitions ++ added) := by
  obtain ⟨count, hlines⟩ := significantLines_append text more
  unfold definitionsOf at h hmore ⊢
  have hadded := mapM_map_eq_ok
    (fun line : Nat × List Char => Definition.ofLine line.1 line.2)
    (Prod.map (· + count) id) (fun _ _ _ => ofLine_eq_ok_of_eq_ok) hmore
  rw [hlines, List.mapM_append, h, hadded]
  rfl

end Grammar

end CanonicalLR
