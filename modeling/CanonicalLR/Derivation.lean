import CanonicalLR.Grammar

/-!
# Derivations

The language of a grammar, said without tables: a sentential form derives
another by putting the right-hand side of a rule in the place of its left-hand
side. A rightmost derivation replaces the last non-terminal each time, and is
named by the numbers of its rules, so that two derivations which use different
rules are different even where the rules look alike.

## Main definitions

* `Grammar.Derives` — replacement anywhere, any number of times.
* `Grammar.DerivesRightmost` — replacement of the last non-terminal, by a list of
  rule numbers.
* `Grammar.IsWord`, `Grammar.IsSentence` — strings of terminals, and those that
  the start symbol derives.
* `Grammar.IsProductive` — every non-terminal derives a string of terminals.
* `Grammar.IsLR1` — handles are determined by one symbol of lookahead.

## Main results

* `Derives.trans` — derivations one after the other.
* `Derives.cases_singleton` — the first rule of a derivation.
* `DerivesRightmost.derives` — a rightmost derivation is a derivation.
* `DerivesRightmost.cases_concat` — the last rule of a rightmost derivation.
* `DerivesRightmost.append_left` — a rightmost derivation may stand behind
  any symbols.
-/

namespace CanonicalLR.Grammar

/-! ## Derivations -/

/-- `g.Derives α β`: rules of `g`, one after the other, lead from `α` to `β`. -/
inductive Derives (g : Grammar) : List Nat → List Nat → Prop where
  | refl (α : List Nat) : g.Derives α α
  | step {r : Rule} {α β γ : List Nat} (rule : r ∈ g.rules)
      (later : g.Derives (α ++ r.rhs ++ β) γ) : g.Derives (α ++ r.lhs :: β) γ

/-- `g.IsWord w`: the string `w` consists of declared terminals. -/
def IsWord (g : Grammar) (w : List Nat) : Prop :=
  ∀ symbol ∈ w, g.symbols.kind? symbol = some .terminal

/-- `g.DerivesRightmost ids α β`: replacing the last non-terminal by the rules
with the numbers `ids`, one after the other, leads from `α` to `β`. -/
inductive DerivesRightmost (g : Grammar) : List Nat → List Nat → List Nat → Prop where
  | nil (α : List Nat) : g.DerivesRightmost [] α α
  | cons {r : Rule} {ids α w γ : List Nat} (rule : r ∈ g.rules) (word : g.IsWord w)
      (later : g.DerivesRightmost ids (α ++ r.rhs ++ w) γ) :
      g.DerivesRightmost (r.id :: ids) (α ++ r.lhs :: w) γ

/-- A string of terminals that the start symbol derives. -/
def IsSentence (g : Grammar) (w : List Nat) : Prop :=
  g.IsWord w ∧ g.Derives [g.start] w

/-- Every non-terminal derives some string of terminals. -/
def IsProductive (g : Grammar) : Prop :=
  ∀ symbol, g.symbols.isNonTerminal symbol = true → ∃ w, g.IsWord w ∧ g.Derives [symbol] w

/-- The symbols up to the end of a handle and the next symbol behind it determine the
handle: if rightmost derivations from the start symbol end in `α ++ r.rhs ++ w`, where
the rule `r` was used last, and in `α ++ r.rhs ++ y`, where `q` was used last, and `w` and
`y` begin alike, then the last steps of both use one rule at one place. -/
def IsLR1 (g : Grammar) : Prop :=
  ∀ (r q : Rule) (ids more α γ w x y : List Nat), r ∈ g.rules → q ∈ g.rules →
    g.IsWord w → g.IsWord x → g.IsWord y →
    g.DerivesRightmost ids [g.start] (α ++ r.lhs :: w) →
    g.DerivesRightmost more [g.start] (γ ++ q.lhs :: x) →
    γ ++ q.rhs ++ x = α ++ r.rhs ++ y → w.head? = y.head? →
    r = q ∧ α = γ ∧ x = y

/-! ## Composition -/

variable {g : Grammar} {α β γ δ ids more w : List Nat}

theorem Derives.trans (first : g.Derives α β) (second : g.Derives β γ) :
    g.Derives α γ := by
  induction first with
  | refl => exact second
  | step rule _ ih => exact .step rule (ih second)

/-- One rule derives its right-hand side. -/
theorem Derives.of_rule {r : Rule} (h : r ∈ g.rules) : g.Derives [r.lhs] r.rhs := by
  have := Derives.step (α := []) (β := []) h (.refl _)
  simpa using this

theorem Derives.append_left (left : List Nat) (h : g.Derives α β) :
    g.Derives (left ++ α) (left ++ β) := by
  induction h with
  | refl => exact .refl _
  | @step r a b c rule _ ih =>
    rw [← List.append_assoc]
    exact .step rule (by simpa using ih)

theorem Derives.append_right (right : List Nat) (h : g.Derives α β) :
    g.Derives (α ++ right) (β ++ right) := by
  induction h with
  | refl => exact .refl _
  | @step r a b c rule _ ih =>
    rw [List.append_assoc, List.cons_append]
    exact .step rule (by simpa using ih)

/-- A derivation from one symbol has not begun, or begins with a rule of the symbol. -/
theorem Derives.cases_singleton {symbol : Nat} (h : g.Derives [symbol] β) :
    β = [symbol] ∨ ∃ r ∈ g.rulesOf symbol, g.Derives r.rhs β := by
  generalize hφ : [symbol] = φ at h
  cases h with
  | refl => exact Or.inl rfl
  | @step r before after _ rule later =>
    rcases List.singleton_eq_append_iff.1 hφ with ⟨rfl, hrest⟩ | ⟨_, hrest⟩
    · obtain ⟨rfl, rfl⟩ := List.cons_eq_cons.1 hrest
      exact Or.inr ⟨r, mem_rulesOf.2 ⟨rule, rfl⟩, by simpa using later⟩
    · cases hrest

/-! ## Rightmost derivations -/

theorem DerivesRightmost.derives (h : g.DerivesRightmost ids α β) : g.Derives α β := by
  induction h with
  | nil => exact .refl _
  | cons rule _ _ ih => exact .step rule ih

theorem DerivesRightmost.trans (first : g.DerivesRightmost ids α β)
    (second : g.DerivesRightmost more β γ) : g.DerivesRightmost (ids ++ more) α γ := by
  induction first with
  | nil => exact second
  | cons rule word _ ih => exact .cons rule word (ih second)

/-- A rightmost derivation with one more rule at its end. -/
theorem DerivesRightmost.concat {r : Rule} (h : g.DerivesRightmost ids α (δ ++ r.lhs :: w))
    (rule : r ∈ g.rules) (word : g.IsWord w) :
    g.DerivesRightmost (ids ++ [r.id]) α (δ ++ r.rhs ++ w) :=
  h.trans (.cons rule word (.nil _))

/-- A rightmost derivation has no rule at all, or a last one. -/
theorem DerivesRightmost.cases_concat (h : g.DerivesRightmost ids α β) :
    (ids = [] ∧ β = α) ∨ ∃ front r δ w, ids = front ++ [r.id] ∧ r ∈ g.rules ∧ g.IsWord w ∧
      g.DerivesRightmost front α (δ ++ r.lhs :: w) ∧ β = δ ++ r.rhs ++ w := by
  induction h with
  | nil => exact Or.inl ⟨rfl, rfl⟩
  | @cons r ids a v c rule word _ ih =>
    rcases ih with ⟨rfl, rfl⟩ | ⟨front, last, δ, w, rfl, hlast, hw, earlier, rfl⟩
    · exact Or.inr ⟨[], r, a, v, rfl, rule, word, .nil _, rfl⟩
    · exact Or.inr ⟨r.id :: front, last, δ, w, rfl, hlast, hw, .cons rule word earlier, rfl⟩

theorem DerivesRightmost.append_left (left : List Nat)
    (h : g.DerivesRightmost ids α β) : g.DerivesRightmost ids (left ++ α) (left ++ β) := by
  induction h with
  | nil => exact .nil _
  | @cons r ids a w c rule word _ ih =>
    rw [← List.append_assoc]
    exact .cons rule word (by simpa using ih)

theorem isWord_nil : g.IsWord [] := fun _ h => absurd h List.not_mem_nil

theorem IsWord.append (left : g.IsWord α) (right : g.IsWord β) : g.IsWord (α ++ β) :=
  fun symbol h => (List.mem_append.1 h).elim (left symbol) (right symbol)

theorem IsWord.of_append (h : g.IsWord (α ++ β)) : g.IsWord α ∧ g.IsWord β :=
  ⟨fun symbol hmem => h symbol (List.mem_append_left _ hmem),
    fun symbol hmem => h symbol (List.mem_append_right _ hmem)⟩

/-- A rightmost derivation may stand before a string of terminals. -/
theorem DerivesRightmost.append_word (word : g.IsWord w)
    (h : g.DerivesRightmost ids α β) : g.DerivesRightmost ids (α ++ w) (β ++ w) := by
  induction h with
  | nil => exact .nil _
  | @cons r ids a v c rule hv _ ih =>
    rw [List.append_assoc, List.cons_append]
    exact .cons rule (hv.append word) (by simpa using ih)

end CanonicalLR.Grammar
