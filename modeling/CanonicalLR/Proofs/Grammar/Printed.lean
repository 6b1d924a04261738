import CanonicalLR.Proofs.Grammar.Format
import CanonicalLR.Proofs.Grammar.Productions

/-!
# Printed grammars are read again

A grammar is printed with one rule a line. No name that was read from a text is misread
when it is printed: a word on the left holds no arrow and starts no comment, a word on the
right holds no bar, and an empty right-hand side is printed as `ε`, which stands for
nothing. So the printed text has the productions of the grammar, each on a line of its own,
and with them the same numbers.

## Main definitions

* `IsPrintable` — a production that is read again as it is printed.
* `printProduction` — the line of a production.

## Main results

* `isPrintable_of_mem_productions` — what was read from a text can be printed.
* `definitionsOf_printProduction` — a printed line says what was printed.
* `ofText_of_areWrittenIn` — any text with the productions of a grammar declares it.
* `ofText_render` — a printed grammar is read again.
-/

namespace CanonicalLR

open Text

/-! ## Productions as they are printed -/

/-- The words of a production are read again as they are printed. -/
structure IsPrintable (production : String × List String) : Prop where
  head : IsDeclarable production.1
  head_arrow : ¬ arrowMark.toList <:+: production.1.toList
  head_comment : ¬ commentMark.toList <+: production.1.toList
  names : ∀ name ∈ production.2, IsDeclarable name
  names_bar : ∀ name ∈ production.2, alternativeMark ∉ name.toList

/-- The right-hand side as it is printed. -/
def printNames (names : List String) : String :=
  if names.isEmpty then epsilonName else " ".intercalate names

/-- The line of a production. -/
def printProduction (production : String × List String) : String :=
  production.1 ++ " -> " ++ printNames production.2

/-- A rule is printed as the production that it is by name. -/
theorem Rule.render_eq (t : SymbolTable) (r : Rule) :
    r.render t = printProduction (t.name r.lhs, r.rhs.map t.name) := by
  unfold render printProduction printNames SymbolTable.spell Rule.isEmpty
  rw [List.isEmpty_map]

/-! ## What is read can be printed -/

/-- What stands before the first mark of a line holds no mark. -/
theorem not_isInfix_of_isCut {mark left right line word : List Char} (hmark : mark ≠ [])
    (hcut : IsCut mark left right line) (hword : word <:+: left) : ¬ mark <:+: word := by
  intro hinside
  obtain ⟨front, back, rfl⟩ := hinside.trans hword
  have hle := hcut.first front (back ++ mark ++ right) (by simp [hcut.joined])
  have hpos : 0 < mark.length := List.length_pos_iff.2 hmark
  simp only [List.length_append] at hle
  omega

/-- The only word before the mark of a trimmed line starts the line. -/
theorem head_of_isCut {mark left right line : List Char} {head : String}
    (hcut : IsCut mark left right line) (hhead : HasWords [head] left)
    (first : ∀ c ∈ line.head?, isBlank c = false) : head.toList <+: line := by
  obtain ⟨gap, rest, rfl, hgap⟩ := hhead.exists_gap
  cases gap with
  | nil =>
      refine ⟨rest ++ mark ++ right, ?_⟩
      rw [hcut.joined]
      simp
  | cons c gap =>
      have hfalse := first c (by rw [hcut.joined]; rfl)
      rw [hgap c List.mem_cons_self] at hfalse
      cases hfalse

/-- The words of an alternative hold no bar. -/
theorem not_mem_of_isAlternative {names : List String} {part : List Char}
    (h : IsAlternative names part) (hbar : alternativeMark ∉ part) :
    ∀ name ∈ names, alternativeMark ∉ name.toList := by
  obtain ⟨written, hwritten, -, -, rfl⟩ := h
  intro name hname hmem
  have hinside := hwritten.infix_of_mem (List.mem_filter.1 hname).1
  exact hbar (hinside.subset hmem)

/-- The productions of a significant line can be printed. -/
theorem isPrintable_of_isWrittenAs {text : String} {number : Nat} {line : List Char}
    {d : Definition} (hline : IsSignificantLine text number line) (hd : d.IsWrittenAs line)
    {names : List String} (hnames : names ∈ d.alternatives) : IsPrintable (d.head, names) := by
  have hread : Definition.ofLine number line = .ok d := ofLine_of_isWrittenAs hd
  have hwf : d.WellFormed := Definition.wellFormed_ofLine hread
  obtain ⟨left, right, parts, hcut, hleft, -, -, hparts, halternatives⟩ := hd
  obtain ⟨⟨-, raw, -, -, -, -, htrim⟩, -, hcomment⟩ := hline
  refine
    { head := hwf.head
      head_arrow := not_isInfix_of_isCut (by decide) hcut
        (hleft.infix_of_mem List.mem_cons_self)
      head_comment := fun h => hcomment (h.trans (head_of_isCut hcut hleft htrim.first))
      names := hwf.alternatives names hnames
      names_bar := ?_ }
  obtain ⟨part, hpart, halternative⟩ := exists_left_of_mem halternatives.flip hnames
  exact not_mem_of_isAlternative halternative (hparts.free part hpart)

/-- **What was read from a text** can be printed. -/
theorem isPrintable_of_mem_productions {text : String} {definitions : List Definition}
    (h : Grammar.definitionsOf text = .ok definitions) {production : String × List String}
    (hproduction : production ∈ productions definitions) : IsPrintable production := by
  obtain ⟨d, hd, hin⟩ := List.mem_flatMap.1 hproduction
  obtain ⟨names, hnames, rfl⟩ := List.mem_map.1 hin
  obtain ⟨⟨number, line⟩, hline, hwritten⟩ :=
    exists_left_of_mem (Grammar.definitionsOf_eq_ok_iff.1 h) hd
  exact isPrintable_of_isWrittenAs (mem_significantLines_iff.1 hline) hwritten hnames

/-! ## Printed lines are read again -/

section PrintProduction

variable {head : String} {names : List String}

theorem toList_printProduction (head : String) (names : List String) :
    (printProduction (head, names)).toList =
      (head.toList ++ [' ']) ++ arrowMark.toList ++ ' ' :: (printNames names).toList := by
  unfold printProduction
  have harrow : " -> ".toList = [' '] ++ arrowMark.toList ++ [' '] := rfl
  rw [String.toList_append, String.toList_append, harrow]
  simp

/-- The first arrow of a printed line is the one that was printed. -/
theorem isCut_printProduction (h : ¬ arrowMark.toList <:+: head.toList) :
    IsCut arrowMark.toList (head.toList ++ [' ']) (' ' :: (printNames names).toList)
      (printProduction (head, names)).toList := by
  refine ⟨toList_printProduction head names, fun left right hjoined => ?_⟩
  rw [toList_printProduction, List.append_assoc, List.append_assoc, List.append_assoc] at hjoined
  have harrow : arrowMark.toList = ['-', '>'] := rfl
  rw [harrow] at hjoined h
  rcases List.append_eq_append_iff.1 hjoined with ⟨later, rfl, hrest⟩ | ⟨later, hhead, hrest⟩
  · cases later with
    | nil => cases hrest
    | cons c later =>
        simp only [List.length_append, List.length_cons, List.length_nil]
        omega
  · exfalso
    cases later with
    | nil => cases hrest
    | cons c later =>
        cases later with
        | nil => cases hrest
        | cons d later =>
            simp only [List.cons_append, List.cons.injEq] at hrest
            obtain ⟨rfl, rfl, -⟩ := hrest
            exact h ⟨left, later, by rw [hhead]; simp⟩

/-- The words of a printed right-hand side. -/
theorem hasWords_printNames (hnames : ∀ name ∈ names, IsWordText name) :
    HasWords (if names.isEmpty then [epsilonName] else names)
      (' ' :: (printNames names).toList) := by
  rw [← map_ofList_words_eq_iff, words_cons_of_isBlank (by decide)]
  unfold printNames
  by_cases hempty : names.isEmpty = true
  · rw [if_pos hempty, if_pos hempty]
    rfl
  · rw [if_neg hempty, if_neg hempty]
    exact wordsOf_intercalate hnames

/-- A printed right-hand side says what was printed. -/
theorem isAlternative_printNames (hnames : ∀ name ∈ names, IsDeclarable name) :
    IsAlternative names (' ' :: (printNames names).toList) := by
  have hfree : ∀ name ∈ names, name ≠ epsilonName ∧ name ≠ endName :=
    fun name hname => isReserved_eq_false_iff.1 (hnames name hname).free
  refine ⟨_, hasWords_printNames fun name hname => (hnames name hname).word, ?_, ?_, ?_⟩
  · split
    · exact List.cons_ne_nil _ _
    next hne => exact fun hnil => hne (List.isEmpty_iff.2 hnil)
  · split
    · decide
    · exact fun hmem => (hfree _ hmem).2 rfl
  · split
    next hempty =>
      rw [List.isEmpty_iff.1 hempty]
      rfl
    next =>
      refine (List.filter_eq_self.2 fun name hname => ?_).symm
      simpa using (hfree name hname).1

/-- The characters of a printed right-hand side. -/
theorem mem_printNames {c : Char} (h : c ∈ (printNames names).toList) :
    c = 'ε' ∨ c = ' ' ∨ ∃ name ∈ names, c ∈ name.toList := by
  unfold printNames at h
  split at h
  · exact Or.inl (List.mem_singleton.1 h)
  · rw [String.toList_intercalate] at h
    rcases mem_intercalate h with hblank | ⟨part, hpart, hc⟩
    · exact Or.inr (Or.inl hblank)
    · obtain ⟨name, hname, rfl⟩ := List.mem_map.1 hpart
      exact Or.inr (Or.inr ⟨name, hname, hc⟩)

/-- **A printed line** is a rule line for what was printed. -/
theorem isWrittenAs_printProduction (h : IsPrintable (head, names)) :
    Definition.IsWrittenAs ⟨head, [names]⟩ (printProduction (head, names)).toList := by
  obtain ⟨hepsilon, hend⟩ := isReserved_eq_false_iff.1 h.head.free
  obtain ⟨hne, hsolid⟩ := h.head.word
  refine ⟨_, _, [' ' :: (printNames names).toList], isCut_printProduction h.head_arrow, ?_,
    hepsilon, hend, ?_, .cons (isAlternative_printNames h.names) .nil⟩
  · have hblank : ∀ c ∈ [' '], isBlank c = true := fun c hc => by
      rw [List.mem_singleton.1 hc]
      decide
    exact .word (List.forall_mem_nil _) hne hsolid
      (fun c hc => hblank c (List.mem_of_mem_head? hc)) (hasWords_nil_iff.2 hblank)
  · refine ⟨List.cons_ne_nil _ _, List.intercalate_singleton, fun part hpart hbar => ?_⟩
    rw [List.mem_singleton.1 hpart] at hbar
    rcases List.mem_cons.1 hbar with hbar | hbar
    · cases hbar
    rcases mem_printNames hbar with hbar | hbar | ⟨name, hname, hbar⟩
    · cases hbar
    · cases hbar
    · exact h.names_bar name hname hbar

/-- A printed line has no line feed in it. -/
theorem not_mem_printProduction (h : IsPrintable (head, names)) :
    '\n' ∉ (printProduction (head, names)).toList := by
  have hblank : isBlank '\n' = true := by decide
  have hword : ∀ {name : String}, IsDeclarable name → '\n' ∉ name.toList := by
    intro name hname hmem
    have hfalse := hname.word.2 _ hmem
    rw [hblank] at hfalse
    cases hfalse
  intro hmem
  rw [toList_printProduction] at hmem
  simp only [List.mem_append, List.mem_cons, List.not_mem_nil, or_false] at hmem
  rcases hmem with ((hmem | hmem) | hmem) | hmem | hmem
  · exact hword h.head hmem
  · cases hmem
  · revert hmem
    decide
  · cases hmem
  · rcases mem_printNames hmem with hmem | hmem | ⟨name, hname, hmem⟩
    · cases hmem
    · cases hmem
    · exact hword (h.names name hname) hmem

/-- A printed right-hand side does not end in a blank. -/
theorem not_isBlank_getLast?_printNames (hnames : ∀ name ∈ names, IsWordText name) :
    ∃ c, (printNames names).toList.getLast? = some c ∧ isBlank c = false := by
  unfold printNames
  split
  · exact ⟨'ε', rfl, by decide⟩
  next hne =>
    have hparts : names.map String.toList ≠ [] := by simpa using hne
    have hsolid : ∀ part ∈ names.map String.toList, part ≠ [] := by
      intro part hpart
      obtain ⟨name, hname, rfl⟩ := List.mem_map.1 hpart
      exact (hnames name hname).1
    obtain ⟨part, hpart, hlast⟩ := exists_getLast?_intercalate (c := ' ') hparts hsolid
    obtain ⟨name, hname, rfl⟩ := List.mem_map.1 hpart
    obtain ⟨c, hc⟩ := Option.ne_none_iff_exists'.1
      (mt List.getLast?_eq_none_iff.1 (hnames name hname).1)
    refine ⟨c, ?_, (hnames name hname).2 c (List.mem_of_getLast? hc)⟩
    rw [String.toList_intercalate]
    exact hlast.trans hc

/-- A printed line is trimmed. -/
theorem trim_printProduction (h : IsPrintable (head, names)) :
    trim (printProduction (head, names)).toList = (printProduction (head, names)).toList := by
  obtain ⟨hne, hsolid⟩ := h.head.word
  obtain ⟨last, hlast, hblank⟩ :=
    not_isBlank_getLast?_printNames fun name hname => (h.names name hname).word
  apply trim_of_not_blank
  · intro c hc
    obtain ⟨x, more, hcons⟩ := List.exists_cons_of_ne_nil hne
    rw [toList_printProduction, hcons] at hc
    obtain rfl : x = c := Option.some.inj hc
    exact hsolid x (hcons ▸ List.mem_cons_self)
  · intro c hc
    rw [toList_printProduction, List.getLast?_append, List.getLast?_cons, hlast] at hc
    obtain rfl : last = c := Option.some.inj hc
    exact hblank

/-- A printed line is significant. -/
theorem isSignificant_printProduction (h : IsPrintable (head, names)) :
    isSignificant (printProduction (head, names)).toList = true := by
  obtain ⟨hne, -⟩ := h.head.word
  rw [isSignificant_iff, toList_printProduction, List.append_assoc, List.append_assoc]
  refine ⟨fun hnil => hne (List.append_eq_nil_iff.1 hnil).1, fun hcomment => ?_⟩
  have hslashes : commentMark.toList = ['/', '/'] := rfl
  have hnot := h.head_comment
  dsimp only at hnot hne
  rw [hslashes] at hcomment hnot
  obtain ⟨rest, hrest⟩ := hcomment
  cases hhead : head.toList with
  | nil => exact hne hhead
  | cons c more =>
      rw [hhead] at hrest hnot
      cases more with
      | nil =>
          simp only [List.cons_append, List.nil_append, List.cons.injEq] at hrest
          exact absurd hrest.2.1 (by decide)
      | cons d more =>
          simp only [List.cons_append, List.nil_append, List.cons.injEq] at hrest
          obtain ⟨rfl, rfl, -⟩ := hrest
          exact hnot ⟨more, rfl⟩

/-- **A printed line** says what was printed. -/
theorem definitionsOf_printProduction (h : IsPrintable (head, names)) :
    Grammar.definitionsOf (printProduction (head, names)) = .ok [⟨head, [names]⟩] := by
  have hfields : fields (· == '\n') (printProduction (head, names)).toList
      = [(printProduction (head, names)).toList] := by
    apply fields_eq_singleton
    intro c hc
    rw [beq_eq_false_iff_ne]
    rintro rfl
    exact not_mem_printProduction h hc
  have hlines : significantLines (printProduction (head, names))
      = [(1, (printProduction (head, names)).toList)] := by
    have hkept : isSignificant (printProduction (head, names)).toList = true :=
      isSignificant_printProduction h
    simp [significantLines, hfields, trim_printProduction h, hkept]
  rw [Grammar.definitionsOf_eq_ok_iff, hlines]
  exact .cons (isWrittenAs_printProduction h) .nil

end PrintProduction

/-! ## Printed grammars are read again -/

namespace Grammar

/-- The definitions of printed productions are one for each of them. -/
theorem definitionsOf_join (ps : List (String × List String))
    (h : ∀ production ∈ ps, IsPrintable production) :
    definitionsOf (String.join (ps.map fun production => printProduction production ++ "\n"))
      = .ok (ps.map fun production => ⟨production.1, [production.2]⟩) := by
  induction ps with
  | nil => rfl
  | cons production ps ih =>
      have hfirst := definitionsOf_printProduction (h production List.mem_cons_self)
      have hlater := ih fun p hp => h p (List.mem_cons_of_mem _ hp)
      rw [List.map_cons, String.join_cons, definitionsOf_append hfirst hlater]
      rfl

/-- Definitions with one alternative each have that as their production. -/
theorem productions_map (ps : List (String × List String)) :
    productions (ps.map fun production => ⟨production.1, [production.2]⟩) = ps := by
  unfold productions
  rw [List.flatMap_map]
  exact List.flatMap_singleton' ps

theorem render_eq_join (g : Grammar) :
    g.render = String.join (g.namedRules.map fun production =>
      printProduction production ++ "\n") := by
  unfold render namedRules
  rw [List.map_map]
  simp only [Rule.render_eq]
  rfl

/-- Whatever text the productions of a grammar are written in, it is read as the grammar. -/
theorem ofText_of_areWrittenIn {text other : String} {g : Grammar}
    {definitions : List Definition} (read : ofText text = .ok g)
    (hwritten : AreWrittenIn definitions other) (h : productions definitions = g.namedRules) :
    ofText other = .ok g := by
  have hother := definitionsOf_eq_ok_iff_areWrittenIn.2 hwritten
  obtain ⟨first, rest, hread, rfl⟩ := exists_definitionsOf read
  have hne := alternatives_ne_nil_of_definitionsOf hread
  rw [namedRules_ofDefinitions] at h
  cases definitions with
  | nil =>
      have hhead : (productions (first :: rest)).head?.map Prod.fst = some first.head :=
        head?_productions (hne first List.mem_cons_self)
      rw [← h] at hhead
      cases hhead
  | cons first' rest' =>
      rw [ofText_of_definitionsOf hother, ofDefinitions_eq_of_productions_eq hne
        (alternatives_ne_nil_of_definitionsOf hother) h.symm]

/-- **A printed grammar** is read again, and so is any text in which the same productions are
written: nothing else in a text is of influence. -/
theorem ofText_render {text : String} {g : Grammar} (read : ofText text = .ok g) :
    ofText g.render = .ok g ∧
      ∀ other definitions, AreWrittenIn definitions other →
        productions definitions = g.namedRules → ofText other = .ok g := by
  refine ⟨?_, fun other definitions hwritten h => ofText_of_areWrittenIn read hwritten h⟩
  obtain ⟨first, rest, hread, hg⟩ := exists_definitionsOf read
  have hnamed : g.namedRules = productions (first :: rest) := by
    rw [hg]
    exact namedRules_ofDefinitions first rest
  have hprinted := definitionsOf_join g.namedRules fun production hproduction =>
    isPrintable_of_mem_productions hread (hnamed ▸ hproduction)
  rw [← render_eq_join] at hprinted
  exact ofText_of_areWrittenIn read (definitionsOf_eq_ok_iff_areWrittenIn.1 hprinted)
    (productions_map g.namedRules)

/-- Names with marks in them, a comment and an inline `ε`, as they are printed. -/
theorem ofText_render_of_marks :
    ∃ g, ofText "// marks\n|- -> -> ε //| ε\n\n//" = .ok g ∧
      g.render = "|- -> -> //\n|- -> ε\n" ∧ ofText g.render = .ok g := by
  obtain ⟨g, read, hrender⟩ : ∃ g, ofText "// marks\n|- -> -> ε //| ε\n\n//" = .ok g ∧
      g.render = "|- -> -> //\n|- -> ε\n" := ⟨_, rfl, by decide +kernel⟩
  exact ⟨g, read, hrender, (ofText_render read).1⟩

end Grammar

end CanonicalLR
