import CanonicalLR.Proofs.Grammar.Numbers

/-!
# The added start symbol

Augmentation looks for a name by setting one prime after another behind the name of the
declared start symbol, until no symbol has the name. The search ends, because the names that
it tries are different and a table has only so many, and it ends on the first name that is
new. Nothing of the declared grammar is lost: its symbols are all but the last one, its rules
all but the first one, and its start symbol is what the first rule derives.

## Main definitions

* `SymbolTable.AddsPrimes` — the search for a name.
* `Grammar.AugmentsFreshly` — a grammar is augmented with a fresh start symbol.

## Main results

* `AddsPrimes.unique` — the search has one result.
* `addsPrimes_freshName` — the search ends on the fresh name.
* `augmentsFreshly` — so does augmentation.
* `augment_injective` — different grammars stay different.
-/

namespace CanonicalLR

/-- The search for a name: while a symbol has the name, a prime is set behind it. -/
inductive SymbolTable.AddsPrimes (t : SymbolTable) : String → String → Prop where
  | done {name : String} (new : t.find? name = none) : t.AddsPrimes name name
  | next {name result : String} {id : Nat} (taken : t.find? name = some id)
      (later : t.AddsPrimes (name ++ "'") result) : t.AddsPrimes name result

/-- The augmented grammar has a start symbol with a fresh name, whose rule stands before the
declared ones. -/
structure Grammar.AugmentsFreshly (g : Grammar) : Prop where
  /-- The search that begins with one prime ends on the name of the added start symbol, and on
  no other name. -/
  addsPrimes_iff : ∀ result, g.symbols.AddsPrimes (g.symbols.name g.start ++ "'") result ↔
    result = g.augment.symbols.name g.augment.start
  /-- The name has the fewest primes, at least one, with which no symbol has it. -/
  least : ∃ primes, 1 ≤ primes ∧
    g.augment.symbols.name g.augment.start = primed (g.symbols.name g.start) primes ∧
    (∀ s ∈ g.symbols.symbols, s.name ≠ primed (g.symbols.name g.start) primes) ∧
    ∀ fewer, 1 ≤ fewer → fewer < primes →
      ∃ s ∈ g.symbols.symbols, s.name = primed (g.symbols.name g.start) fewer
  /-- The symbol with this name is added behind the declared ones. -/
  symbols_eq : g.augment.symbols
    = g.symbols.push ⟨g.augment.symbols.name g.augment.start, .start⟩
  /-- It derives the declared start symbol. -/
  rule_zero : g.augment.rules[0]? = some ⟨0, g.augment.start, [g.start]⟩
  /-- Each declared rule is counted one further. -/
  rule_succ : ∀ i, g.augment.rules[i + 1]? = (g.rules[i]?).map fun r => ⟨r.id + 1, r.lhs, r.rhs⟩

/-! ## The search -/

namespace SymbolTable

variable {t : SymbolTable} {base name result result' : String} {primes more : Nat}

/-- The search has one result. -/
theorem AddsPrimes.unique (h : t.AddsPrimes name result) (h' : t.AddsPrimes name result') :
    result = result' := by
  induction h with
  | done new =>
      cases h' with
      | done => rfl
      | next taken =>
          rw [new] at taken
          cases taken
  | next taken _ ih =>
      cases h' with
      | done new =>
          rw [taken] at new
          cases new
      | next _ later => exact ih later

theorem primed_succ (base : String) (primes : Nat) :
    primed base (primes + 1) = primed base primes ++ "'" := by
  unfold primed
  rw [List.replicate_succ', String.ofList_append, String.append_assoc]

/-- The search goes on through the names that are taken, to one that is new. -/
theorem addsPrimes_of_taken (hnew : t.find? (primed base (primes + more)) = none)
    (htaken : ∀ fewer, primes ≤ fewer → fewer < primes + more →
      t.find? (primed base fewer) ≠ none) :
    t.AddsPrimes (primed base primes) (primed base (primes + more)) := by
  induction more generalizing primes with
  | zero => exact .done hnew
  | succ more ih =>
      obtain ⟨id, hid⟩ := Option.ne_none_iff_exists'.1 (htaken primes (Nat.le_refl _) (by omega))
      rw [← Nat.add_assoc, Nat.add_right_comm] at hnew
      have hlater := ih hnew fun fewer hle hlt => htaken fewer (by omega) (by omega)
      rw [primed_succ, Nat.add_right_comm] at hlater
      exact .next hid hlater

/-- **The search ends** on the fresh name. -/
theorem addsPrimes_freshName (t : SymbolTable) (base : String) :
    t.AddsPrimes (base ++ "'") (freshName t base) := by
  obtain ⟨primes, hone, hname, hnew, hleast⟩ := exists_freshName_eq t base
  obtain ⟨more, rfl⟩ := Nat.exists_eq_add_of_le hone
  have hbegin : primed base 1 = base ++ "'" := by
    rw [primed_succ]
    unfold primed
    rw [List.replicate_zero, String.ofList_nil, String.append_empty]
  rw [hname, ← hbegin]
  exact addsPrimes_of_taken hnew hleast

end SymbolTable

/-! ## Augmentation -/

namespace Grammar

/-- **Augmentation** adds a start symbol with a fresh name, and its rule. -/
theorem augmentsFreshly (g : Grammar) : g.AugmentsFreshly := by
  refine
    { addsPrimes_iff := fun result => ?_
      least := ?_
      symbols_eq := by rw [name_start_augment]; rfl
      rule_zero := getElem?_rules_augment 0
      rule_succ := fun i => getElem?_rules_augment (i + 1) }
  · rw [name_start_augment]
    have hends := g.symbols.addsPrimes_freshName (g.symbols.name g.start)
    exact ⟨fun h => h.unique hends, fun h => h ▸ hends⟩
  · obtain ⟨primes, hone, hname, hnew, hleast⟩ :=
      exists_freshName_eq g.symbols (g.symbols.name g.start)
    rw [name_start_augment]
    refine ⟨primes, hone, hname, SymbolTable.find?_eq_none_iff.1 hnew, ?_⟩
    intro fewer hfewer hlt
    have hused := hleast fewer hfewer hlt
    rw [Ne, SymbolTable.find?_eq_none_iff] at hused
    push Not at hused
    exact hused

/-- **Different grammars** stay different: the declared grammar can be read off the augmented
one. -/
theorem augment_injective : Function.Injective augment := by
  intro g h heq
  have hsymbols : g.symbols.symbols = h.symbols.symbols := by
    have hpush := congrArg (fun g : Grammar => g.symbols.symbols) heq
    exact (Array.push_eq_push.1 hpush).2
  have hrules := congrArg (fun g : Grammar => g.rules.toList) heq
  simp only [toList_rules_augment] at hrules
  obtain ⟨hfirst, hrest⟩ := List.cons.inj hrules
  have hstart : g.start = h.start := by
    have hrhs := congrArg Rule.rhs hfirst
    exact List.singleton_injective hrhs
  have hshift : Function.Injective fun r : Rule => (⟨r.id + 1, r.lhs, r.rhs⟩ : Rule) := by
    intro r q hrq
    obtain ⟨hid, hlhs, hrhs⟩ := Rule.mk.inj hrq
    cases r
    cases q
    simp_all
  have hdeclared := Array.toList_inj.1 (List.map_injective_iff.2 hshift hrest)
  obtain ⟨⟨symbols⟩, rules, start⟩ := g
  obtain ⟨⟨symbols'⟩, rules', start'⟩ := h
  simp_all

end Grammar

end CanonicalLR
