import CanonicalLR.Proofs.Parser.Continuations

/-!
# The parser halts

No measure of the stacks and the tokens gets smaller with every move: a reduction
by an empty rule makes the stacks grow, and a reduction by a rule of one symbol
leaves them as they are. The run is finite all the same. On a sentence it is the
run that a derivation describes. On other tokens it is, up to the last token that
it shifts, the run on a sentence that begins like them; behind this token nothing
is reduced. Only the limit on the number of moves would leave a parse unfinished,
and there is one that never does.

## Main results

* `exists_halt` — every run comes to where it halts.
* `parse_halts` — every parse ends, if the limit leaves room for the run.
-/

namespace CanonicalLR

/-- No chain is longer than one that ends where no move is made. -/
theorem Configuration.Reaches.length_le_of_stuck {t : Table} {c d e : Configuration}
    {actions more : List Action} (h : c.Reaches t actions d)
    (hstuck : ∀ action after, d.step t ≠ .moved action after) (h' : c.Reaches t more e) :
    more.length ≤ actions.length := by
  rcases h.linear h' with ⟨rest, rfl, hlater⟩ | ⟨rest, rfl, -⟩
  · obtain ⟨rfl, -⟩ := hlater.eq_of_stuck hstuck
    rw [List.append_nil]
  · rw [List.length_append]
    exact Nat.le_add_right _ _

namespace Table

variable {t : Table} {g : Grammar} {input text : String} {tokens : List String}

/-- **Every run halts**: it accepts a sentence, and fails where it comes to a token that
does not go on with the beginning of one. -/
theorem exists_halt (hg : g.WellFormed) (built : build g = .ok t) (hp : g.IsProductive)
    (hfree : endName ∉ tokens) :
    ∃ actions d, (Configuration.initial tokens).Reaches t actions d ∧
      (d.step t = .accepted ∨ d.step t = .failed (d.unexpected t)) := by
  by_cases hgenerates : g.Generates tokens
  · obtain ⟨w, hw, rfl⟩ := hgenerates
    obtain ⟨actions, d, hreach, hd⟩ := exists_reaches_of_isSentence hg built hw
    exact ⟨actions, d, hreach, Or.inl hd⟩
  · obtain ⟨actions, d, harrives, hd⟩ := exists_arrives_failed hg built hp hfree hgenerates
    exact ⟨actions, d, harrives.reaches, Or.inr hd⟩

/-- A run that halts is a parse that ends in the same way under every limit that leaves
room for it. -/
theorem parse_of_halt {actions : List Action} {d : Configuration}
    (hfree : endName ∉ Text.wordsOf input)
    (h : (Configuration.initial (Text.wordsOf input)).Reaches t actions d)
    (hd : d.step t = .accepted ∨ d.step t = .failed (d.unexpected t)) :
    ∃ result, (∀ limit, actions.length + 1 ≤ limit → t.parse limit input = result) ∧
      ((∃ trace, result = .accepted trace) ∨
        ∃ trace, result = .failed (d.unexpected t) (some trace)) := by
  have hlater : ∀ {result : ParseResult}, t.parse (actions.length + 1) input = result →
      (∀ trace, result ≠ .unfinished trace) →
      ∀ limit, actions.length + 1 ≤ limit → t.parse limit input = result := by
    intro result hparse hfinished limit hlimit
    obtain ⟨more, rfl⟩ := Nat.exists_eq_add_of_le hlimit
    exact parse_of_finished hparse hfinished more
  rcases hd with haccepted | hfailed
  · obtain ⟨hparse, -, -⟩ := parse_of_reaches hfree h haccepted (Nat.lt_succ_self _)
    exact ⟨_, hlater hparse (by simp), Or.inl ⟨_, rfl⟩⟩
  · have hparse := parse_of_reaches_failed hfree h hfailed (Nat.lt_succ_self _)
    exact ⟨_, hlater hparse (by simp), Or.inr ⟨_, rfl⟩⟩

/-- **Termination**: if every non-terminal of a grammar text derives a word, then from some
bound on the parse of any input is the same under all limits. The input is accepted, or
an unexpected token is reported, or the input is refused for a `$` in it; and no run over
its words makes as many moves as the bound. -/
theorem parse_halts (read : Grammar.ofText text = .ok g) (built : build g = .ok t)
    (productive : g.IsProductive) (input : String) :
    ∃ bound result, (∀ limit, bound ≤ limit → t.parse limit input = result) ∧
      ((∃ trace, result = .accepted trace) ∨
        (∃ token position expecting trace, result
          = .failed (.unexpectedToken token position expecting) (some trace)) ∨
        endName ∈ Text.wordsOf input ∧ result = .failed (.reservedSymbol endName) none) ∧
      (endName ∉ Text.wordsOf input → ∀ actions c,
        (Configuration.initial (Text.wordsOf input)).Reaches t actions c →
          actions.length < bound) := by
  have hg : g.WellFormed := Grammar.wellFormed_ofText read
  by_cases hend : endName ∈ Text.wordsOf input
  · refine ⟨0, _, fun limit _ => parse_of_mem_words hend, ?_, fun hfree => absurd hend hfree⟩
    exact Or.inr (Or.inr ⟨hend, rfl⟩)
  · obtain ⟨actions, d, hreach, hd⟩ := exists_halt hg built productive hend
    obtain ⟨result, hparse, hresult⟩ := parse_of_halt hend hreach hd
    refine ⟨actions.length + 1, result, hparse, ?_, ?_⟩
    · rcases hresult with haccepted | ⟨trace, hfailed⟩
      · exact Or.inl haccepted
      · exact Or.inr (Or.inl ⟨_, _, _, trace, hfailed⟩)
    · intro _ more c hmore
      have hstuck : ∀ action after, d.step t ≠ .moved action after := by
        rcases hd with hd | hd
        · simp [hd]
        · simp [hd]
      exact Nat.lt_succ_of_le (hreach.length_le_of_stuck hstuck hmore)

/-- So it is with an input that opens more than it closes. -/
theorem parse_halts_of_nested :
    ∃ t, Grammar.ofText "S -> a S b | ε" = .ok Grammar.nested ∧
      build Grammar.nested = .ok t ∧ Grammar.nested.IsProductive ∧
      ∃ bound result, ∀ limit, bound ≤ limit → t.parse limit "a a b" = result := by
  obtain ⟨g, t, read, built, -⟩ := exists_table "S -> a S b | ε" (fun _ => true)
    (by decide +kernel)
  obtain rfl := Except.ok.inj (read.symm.trans Grammar.ofText_nested)
  have hp := Grammar.isProductive_nested
  obtain ⟨bound, result, hparse, -, -⟩ := parse_halts read built hp "a a b"
  exact ⟨t, read, built, hp, bound, result, hparse⟩

end Table

end CanonicalLR
