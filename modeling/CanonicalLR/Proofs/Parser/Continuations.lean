import CanonicalLR.Proofs.Automaton.ValidItems
import CanonicalLR.Proofs.Parser.Completeness
import CanonicalLR.Proofs.Parser.Prefixes
import CanonicalLR.Proofs.Parser.Soundness
import CanonicalLR.Proofs.Table.Conflicts

/-!
# What may come next

The lookaheads of the items are exact: where the parser has come to a token, the
filled cells of its state are those of the symbols with which some sentence goes
on from the tokens consumed. One direction follows a valid item into a sentence.
The other runs the parser on a sentence: it comes to the same place by the same
moves, and there it has an action.

## Main definitions

* `Grammar.IsViable`, `Grammar.Generates` — names that begin a sentence, and names of
  a whole sentence.
* `Grammar.Continues` — the symbol with which a sentence goes on.

## Main results

* `isViable_of_reaches` — what has been consumed begins a sentence.
* `continues_of_action?`, `exists_action?_iff_continues` — a filled cell means a sentence,
  and the cells are exact where the parser comes to a token.
* `exists_reads_iff` — which tokens are refused.
* `exists_arrives_failed` — what is no sentence is refused.
-/

namespace CanonicalLR

/-! ## Beginnings of sentences -/

namespace Grammar

variable {g : Grammar} {names : List String} {symbol : Nat} {w : List Nat}

/-- The names begin a sentence. -/
def IsViable (g : Grammar) (names : List String) : Prop :=
  ∃ w, g.IsSentence w ∧ names <+: w.map g.symbols.name

/-- The names are those of a sentence. -/
def Generates (g : Grammar) (names : List String) : Prop :=
  ∃ w, g.IsSentence w ∧ w.map g.symbols.name = names

/-- A sentence that begins with the names goes on with the symbol, or ends behind them
if the symbol is `$`. -/
def Continues (g : Grammar) (names : List String) (symbol : Nat) : Prop :=
  ∃ w y, g.IsSentence (w ++ y) ∧ w.map g.symbols.name = names ∧ y.headD endId = symbol

theorem isViable_iff :
    g.IsViable names ↔ ∃ w y, g.IsSentence (w ++ y) ∧ w.map g.symbols.name = names := by
  constructor
  · intro h
    obtain ⟨all, hall, rest, hrest⟩ := h
    obtain ⟨w, y, rfl, hw, -⟩ := List.map_eq_append_iff.1 hrest.symm
    exact ⟨w, y, hall, hw⟩
  · intro h
    obtain ⟨w, y, hall, rfl⟩ := h
    exact ⟨w ++ y, hall, y.map g.symbols.name, by rw [List.map_append]⟩

/-- Of the beginnings of a list of names some longest one begins a sentence. -/
theorem IsViable.exists_longest (h : g.IsViable []) (names : List String) (n : Nat) :
    ∃ k ≤ n, g.IsViable (names.take k) ∧ (k < n → ¬ g.IsViable (names.take (k + 1))) := by
  induction n with
  | zero => exact ⟨0, Nat.le_refl 0, h, fun hlt => absurd hlt (Nat.lt_irrefl 0)⟩
  | succ n ih =>
      by_cases hlonger : g.IsViable (names.take (n + 1))
      · exact ⟨n + 1, Nat.le_refl _, hlonger, fun hlt => absurd hlt (Nat.lt_irrefl _)⟩
      · obtain ⟨k, hk, hbegins, hends⟩ := ih
        refine ⟨k, Nat.le_succ_of_le hk, hbegins, fun _ => ?_⟩
        rcases Nat.lt_or_eq_of_le hk with hlt | rfl
        · exact hends hlt
        · exact hlonger

/-- The last of some names that begin a sentence is that of a terminal. -/
theorem exists_terminal_of_isViable {token : String} (h : g.IsViable (names ++ [token])) :
    ∃ symbol, g.symbols.kind? symbol = some .terminal ∧ g.symbols.name symbol = token := by
  obtain ⟨all, y, hall, hnames⟩ := isViable_iff.1 h
  obtain ⟨w, last, rfl, -, hlast⟩ := List.map_eq_append_iff.1 hnames
  obtain ⟨symbol, rfl, hname⟩ := List.map_eq_singleton_iff.1 hlast
  exact ⟨symbol, hall.1 symbol (by simp), hname⟩

namespace WellFormed

variable (hg : g.WellFormed)

include hg

/-- No word has the end marker in it. -/
theorem endId_not_mem (hw : g.IsWord w) : endId ∉ w := by
  intro hmem
  have hkind := hw endId hmem
  rw [hg.kind?_endId] at hkind
  cases hkind

/-- A sentence that goes on with the end marker is at its end. -/
theorem continues_endId_iff : g.Continues names endId ↔ g.Generates names := by
  constructor
  · intro h
    obtain ⟨w, y, hall, hw, hnext⟩ := h
    cases y with
    | nil =>
        rw [List.append_nil] at hall
        exact ⟨w, hall, hw⟩
    | cons symbol y =>
        apply absurd _ (hg.endId_not_mem hall.1)
        rw [← hnext]
        simp
  · intro h
    obtain ⟨w, hall, hw⟩ := h
    rw [← List.append_nil w] at hall
    exact ⟨w, [], hall, hw, rfl⟩

/-- A sentence that goes on with a terminal begins with it behind the names. -/
theorem continues_terminal_iff (hkind : g.symbols.kind? symbol = some .terminal) :
    g.Continues names symbol ↔ g.IsViable (names ++ [g.symbols.name symbol]) := by
  rw [isViable_iff]
  constructor
  · intro h
    obtain ⟨w, y, hall, rfl, hnext⟩ := h
    cases y with
    | nil =>
        obtain rfl : endId = symbol := hnext
        rw [hg.kind?_endId] at hkind
        cases hkind
    | cons other y =>
        obtain rfl : other = symbol := hnext
        rw [List.append_cons] at hall
        exact ⟨w ++ [other], y, hall, by simp⟩
  · intro h
    obtain ⟨all, y, hall, hnames⟩ := h
    obtain ⟨w, last, rfl, hw, hlast⟩ := List.map_eq_append_iff.1 hnames
    obtain ⟨other, rfl, hname⟩ := List.map_eq_singleton_iff.1 hlast
    have hother : g.symbols.kind? other = some .terminal := hall.1 other (by simp)
    obtain rfl :=
      hg.eq_of_name_eq (lt_size_of_kind? hother) (lt_size_of_kind? hkind) hname
    rw [List.append_assoc] at hall
    exact ⟨w, _, hall, hw, rfl⟩

end WellFormed

end Grammar

/-! ## Filled cells -/

namespace Stacked

variable {t : Table} {states symbols : List Nat}

/-- The moves lead over the symbols on the stack to the state on its top. -/
theorem reached (h : Stacked t states symbols) :
    t.automaton.Reached symbols.reverse (states.headD 0) := by
  induction h with
  | bottom => exact .start
  | push _ move ih =>
      rw [List.reverse_cons]
      exact .move ih move

end Stacked

namespace Table

variable {t : Table} {g : Grammar} {γ y : List Nat} {state symbol : Nat} {action : Action}

/-- An item of a state is brought to an end by a word that goes on with what the symbols
behind its dot yield. -/
theorem IsCanonical.exists_derives_of_holds (ht : t.IsCanonical)
    (hp : t.grammar.IsProductive) {i : Item} {ids v : List Nat}
    (h : t.automaton.Reached γ state) (hi : t.automaton.Holds state i)
    (hv : t.grammar.Yields ids (i.remaining t.grammar) v) :
    ∃ y, t.grammar.IsWord y ∧ y.headD endId = v.headD i.lookahead ∧
      t.grammar.Derives [t.grammar.start] (γ ++ y) := by
  have hvalid := h.isValid ht.collection ht.augmented hp hi
  obtain ⟨w, hw, hnext, hderives⟩ := hvalid.exists_derives ht.augmented hv
  refine ⟨v ++ w, hv.isWord.append hw, ?_, hderives⟩
  cases v with
  | nil => exact hnext
  | cons _ _ => rfl

/-- The symbols behind the dot of an item yield a word. -/
theorem IsCanonical.exists_yields_remaining (ht : t.IsCanonical)
    (hp : t.grammar.IsProductive) {i : Item} (hi : t.automaton.Holds state i) :
    ∃ ids v, t.grammar.Yields ids (i.remaining t.grammar) v := by
  have hmem := (ht.augmented.rule_mem_of_mem_items (ht.collection.mem_items hi)).1
  apply hp.exists_yields
  intro symbol hsymbol
  exact ht.augmented.isForm_rhs hmem symbol (List.mem_of_mem_drop hsymbol)

/-- A filled cell means a form that goes on with its symbol. -/
theorem IsCanonical.exists_derives_of_action? (ht : t.IsCanonical)
    (hp : t.grammar.IsProductive) (h : t.automaton.Reached γ state)
    (hcell : t.action? state symbol = some action) :
    ∃ y, t.grammar.IsWord y ∧ y.headD endId = symbol ∧
      t.grammar.Derives [t.grammar.start] (γ ++ y) := by
  obtain ⟨i, hi, hdemand⟩ := ht.action?_eq_some_iff.1 hcell
  obtain ⟨ids, v, hv⟩ := ht.exists_yields_remaining hp hi
  obtain ⟨y, hy, hnext, hderives⟩ := ht.exists_derives_of_holds hp h hi hv
  refine ⟨y, hy, hnext.trans ?_, hderives⟩
  rcases Item.cases_of_demand_eq hdemand with ⟨next, rfl, hexp, -⟩ | ⟨hend, rfl⟩
  · have hterminal := (Item.demand_eq_shift_iff.1 hdemand).2.1
    have hkind := ht.augmented.kind?_of_mem_rhs_of_isTerminal (List.mem_of_getElem? hexp)
      hterminal
    have hword : t.grammar.IsWord [symbol] := fun other hmem =>
      List.mem_singleton.1 hmem ▸ hkind
    rw [Item.remaining_of_symbol? hexp, ← List.singleton_append] at hv
    obtain ⟨_, _, u, w, -, rfl, hu, -⟩ := hv.of_append
    obtain ⟨-, rfl⟩ := hu.eq_of_isWord ht.augmented.kind?_lhs_ne_terminal hword
    rfl
  · have hnil : i.remaining t.grammar = [] := List.drop_eq_nil_of_le (of_decide_eq_true hend)
    rw [hnil] at hv
    rw [hv.eq_nil.2]
    rfl

/-- A form that begins with what is on the stack leads to a sentence that begins with
what has been consumed. -/
theorem exists_isSentence_of_derives {c : Configuration} {tokens : List String}
    {actions : List Action} (hg : g.WellFormed) (built : build g = .ok t)
    (h : (Configuration.initial tokens).Reaches t actions c) (hy : t.grammar.IsWord y)
    (hderives : t.grammar.Derives [t.grammar.start] (c.spelled ++ y)) :
    ∃ w, g.IsSentence (w ++ y) ∧ w.map g.symbols.name = tokens.take c.consumed := by
  have ht : t.IsCanonical := isCanonical_build hg built
  have hat := h.isAt ht
  obtain ⟨w, hw⟩ := h.consumes ht
  obtain ⟨_, -, -, htokens, -⟩ := exists_declared_yields hg built (h.stacked ht) hw
  refine ⟨w, ?_, ?_⟩
  · have hword := hw.yields.isWord.append hy
    have hall := hderives.trans (hw.yields.derivesRightmost.derives.append_right y)
    rw [grammar_of_build built] at hword hall
    exact hg.isSentence_of_augment hword hall
  · rw [hat.pending_eq] at htokens
    exact List.append_cancel_right (htokens.trans (List.take_append_drop _ tokens).symm)

section Runs

variable {c d : Configuration} {tokens : List String} {actions : List Action} {n : Nat}
  {w : List Nat} (hg : g.WellFormed) (built : build g = .ok t)

include hg built

/-- The table of a productive grammar has a productive grammar. -/
theorem isProductive_of_build (hp : g.IsProductive) : t.grammar.IsProductive := by
  rw [grammar_of_build built]
  exact hg.isProductive_augment hp

/-- **What has been consumed** begins a sentence. -/
theorem isViable_of_reaches (hp : g.IsProductive)
    (h : (Configuration.initial tokens).Reaches t actions c) :
    g.IsViable (tokens.take c.consumed) := by
  have ht : t.IsCanonical := isCanonical_build hg built
  have hproductive := isProductive_of_build hg built hp
  have hreached := (h.stacked ht).reached
  obtain ⟨i, hi⟩ := hreached.exists_holds ht.collection ht.augmented
  obtain ⟨ids, v, hv⟩ := ht.exists_yields_remaining hproductive hi
  obtain ⟨y, hy, -, hderives⟩ := ht.exists_derives_of_holds hproductive hreached hi hv
  obtain ⟨w, hw, hnames⟩ := exists_isSentence_of_derives hg built h hy hderives
  exact Grammar.isViable_iff.2 ⟨w, y, hw, hnames⟩

/-- **A filled cell** means a sentence that goes on with its symbol. -/
theorem continues_of_action? (hp : g.IsProductive)
    (h : (Configuration.initial tokens).Reaches t actions c)
    (hcell : t.action? c.state symbol = some action) :
    g.Continues (tokens.take c.consumed) symbol := by
  have ht : t.IsCanonical := isCanonical_build hg built
  have hproductive := isProductive_of_build hg built hp
  have hreached := (h.stacked ht).reached
  obtain ⟨y, hy, hnext, hderives⟩ := ht.exists_derives_of_action? hproductive hreached hcell
  obtain ⟨w, hw, hnames⟩ := exists_isSentence_of_derives hg built h hy hderives
  exact ⟨w, y, hw, hnames, hnext⟩

/-! ## Sentences steer the parser -/

/-- Tokens that begin with a part of a sentence lead to a place where the parser has an
action for the next symbol of the sentence. -/
theorem exists_arrives_of_isSentence (hw : g.IsSentence (w ++ y)) (hn : n ≤ tokens.length)
    (hnames : w.map g.symbols.name = tokens.take n) :
    ∃ actions c action, Configuration.Arrives t tokens actions c ∧ c.consumed = n ∧
      t.action? c.state (y.headD endId) = some action := by
  have ht : t.IsCanonical := isCanonical_build hg built
  have hlength : w.length = n := by
    have hcount := congrArg List.length hnames
    rw [List.length_map, List.length_take] at hcount
    omega
  obtain ⟨all, d, hreach, hd⟩ := exists_reaches_of_isSentence hg built hw
  obtain ⟨-, -, hconsumed⟩ := hreach.of_accepted ht (hg.endName_not_mem hw.1) hd
  rw [List.length_map, List.length_append] at hconsumed
  obtain ⟨actions, c, rest, harrives, hc, hlater⟩ :=
    hreach.exists_arrives (n := n) (by omega)
  have hpending : c.pending = y.map t.grammar.symbols.name := by
    rw [(harrives.reaches.isAt ht).pending_eq, hc, ← hlength, List.map_append,
      List.drop_append_of_le_length (by simp), grammar_of_build built,
      hw.1.of_append.2.map_name_augment]
    simp
  have hword : t.grammar.IsWord y := grammar_of_build built ▸ hw.1.of_append.2.augment
  have hsymbol := Configuration.lookahead?_of_pending_eq ht hword hpending
  have haction : ∃ action, t.action? c.state (y.headD endId) = some action := by
    by_contra hnone
    apply hlater.step_ne_failed hd (c.unexpected t)
    apply Configuration.step_of_not_reads
    intro symbol action hread
    rw [hread.1] at hsymbol
    rw [← Option.some.inj hsymbol] at hnone
    exact hnone ⟨action, hread.2⟩
  obtain ⟨action, hcell⟩ := haction
  have hsame : ∀ k < c.consumed,
      ((w ++ y).map g.symbols.name)[k]? = tokens[k]? := by
    intro k hk
    rw [List.map_append, List.getElem?_append_left (by rw [List.length_map]; omega), hnames,
      List.getElem?_take_of_lt (by omega)]
  exact ⟨actions, c.withTokens tokens, action, harrives.withTokens ht hsame, hc, hcell⟩

/-- **The cells are exact** where the parser comes to a token: those of the symbols are
filled with which a sentence goes on. -/
theorem exists_action?_iff_continues (hp : g.IsProductive)
    (h : Configuration.Arrives t tokens actions c) :
    (∃ action, t.action? c.state symbol = some action) ↔
      g.Continues (tokens.take c.consumed) symbol := by
  constructor
  · intro hcell
    obtain ⟨action, hcell⟩ := hcell
    exact continues_of_action? hg built hp h.reaches hcell
  · intro hnext
    obtain ⟨w, y, hw, hnames, rfl⟩ := hnext
    have hle := (h.reaches.isAt (isCanonical_build hg built)).consumed_le
    obtain ⟨more, d, action, hd, hconsumed, hcell⟩ :=
      exists_arrives_of_isSentence hg built hw hle hnames
    obtain ⟨-, rfl⟩ := hd.unique h hconsumed
    exact ⟨action, hcell⟩

/-! ## Tokens that are refused -/

/-- What is read is the end marker behind the tokens, or a declared terminal that has the
name of the next token. -/
theorem cases_of_reads (hat : c.IsAt tokens) (hfree : endName ∉ tokens)
    (h : c.Reads t symbol action) :
    (c.consumed = tokens.length ∧ symbol = endId) ∨
      (c.consumed < tokens.length ∧ g.symbols.kind? symbol = some .terminal ∧
        tokens[c.consumed]? = some (g.symbols.name symbol)) := by
  have ht : t.IsCanonical := isCanonical_build hg built
  cases hpending : c.pending with
  | nil =>
      have hsymbol := h.1
      unfold Configuration.lookahead? at hsymbol
      rw [hpending] at hsymbol
      rw [hat.pending_eq, List.drop_eq_nil_iff] at hpending
      exact Or.inl ⟨Nat.le_antisymm hat.consumed_le hpending, (Option.some.inj hsymbol).symm⟩
  | cons token rest =>
      obtain ⟨hname, hterminal⟩ := h.name_eq hpending
      have hlt := hat.consumed_lt hpending
      have hnext : tokens[c.consumed]? = some token := by
        rw [← List.head?_drop, ← hat.pending_eq, hpending, List.head?_cons]
      have hne : symbol ≠ endId := by
        rintro rfl
        rw [ht.augmented.end_name] at hname
        rw [← hname] at hnext
        exact hfree (List.mem_of_getElem? hnext)
      have hkind := (ht.augmented.isTerminal_iff.1 hterminal).resolve_right hne
      rw [grammar_of_build built] at hkind hname
      rcases Grammar.kind?_augment_eq_some_iff.1 hkind with hkind | ⟨-, hstart⟩
      · rw [Grammar.name_augment (Grammar.lt_size_of_kind? hkind)] at hname
        rw [hname]
        exact Or.inr ⟨hlt, hkind, hnext⟩
      · cases hstart

/-- **A token is refused** exactly if it does not go on with the beginning of a sentence;
the end marker, if the tokens are no sentence. -/
theorem exists_reads_iff (hp : g.IsProductive) (hfree : endName ∉ tokens)
    (h : Configuration.Arrives t tokens actions c) :
    (∃ symbol action, c.Reads t symbol action) ↔
      (c.consumed = tokens.length ∧ g.Generates tokens) ∨
        (c.consumed < tokens.length ∧ g.IsViable (tokens.take (c.consumed + 1))) := by
  have ht : t.IsCanonical := isCanonical_build hg built
  have hat := h.reaches.isAt ht
  have htake : ∀ {token : String}, tokens[c.consumed]? = some token →
      tokens.take (c.consumed + 1) = tokens.take c.consumed ++ [token] := by
    intro token hnext
    rw [List.take_add_one, hnext]
    rfl
  constructor
  · intro hreads
    obtain ⟨symbol, action, hread⟩ := hreads
    have hnext := continues_of_action? hg built hp h.reaches hread.2
    rcases cases_of_reads hg built hat hfree hread with
      ⟨hend, rfl⟩ | ⟨hlt, hkind, htoken⟩
    · rw [hend, List.take_length] at hnext
      exact Or.inl ⟨hend, hg.continues_endId_iff.1 hnext⟩
    · refine Or.inr ⟨hlt, ?_⟩
      rw [htake htoken]
      exact (hg.continues_terminal_iff hkind).1 hnext
  · intro hcases
    rcases hcases with ⟨hend, hgenerates⟩ | ⟨hlt, hviable⟩
    · have hnext : g.Continues (tokens.take c.consumed) endId := by
        rw [hend, List.take_length]
        exact hg.continues_endId_iff.2 hgenerates
      obtain ⟨action, hcell⟩ := (exists_action?_iff_continues hg built hp h).2 hnext
      refine ⟨endId, action, ?_, hcell⟩
      unfold Configuration.lookahead?
      rw [hat.pending_eq, hend, List.drop_length]
    · have htoken : tokens[c.consumed]? = some tokens[c.consumed] :=
        List.getElem?_eq_getElem hlt
      rw [htake htoken] at hviable
      obtain ⟨symbol, hkind, hname⟩ := Grammar.exists_terminal_of_isViable hviable
      rw [← hname] at hviable
      have hnext := (hg.continues_terminal_iff hkind).2 hviable
      obtain ⟨action, hcell⟩ := (exists_action?_iff_continues hg built hp h).2 hnext
      have hpending : c.pending
          = t.grammar.symbols.name symbol :: tokens.drop (c.consumed + 1) := by
        rw [hat.pending_eq, List.drop_eq_getElem_cons hlt, ← hname, grammar_of_build built,
          Grammar.name_augment (Grammar.lt_size_of_kind? hkind)]
      have hdeclared : t.grammar.symbols.kind? symbol = some .terminal := by
        rw [grammar_of_build built]
        exact Grammar.kind?_augment_eq_some_iff.2 (Or.inl hkind)
      exact ⟨symbol, action,
        Configuration.lookahead?_of_pending_cons ht hdeclared hpending, hcell⟩

/-- **What is no sentence** is refused where the parser comes to a token. -/
theorem exists_arrives_failed (hp : g.IsProductive) (hfree : endName ∉ tokens)
    (hnot : ¬ g.Generates tokens) :
    ∃ actions c, Configuration.Arrives t tokens actions c ∧
      c.step t = .failed (c.unexpected t) := by
  have hempty : g.IsViable [] := isViable_of_reaches hg built hp (.refl (c := .initial tokens))
  obtain ⟨n, hn, hviable, hends⟩ := hempty.exists_longest tokens tokens.length
  obtain ⟨w, y, hw, hnames⟩ := Grammar.isViable_iff.1 hviable
  obtain ⟨actions, c, -, harrives, rfl, -⟩ :=
    exists_arrives_of_isSentence hg built hw hn hnames
  refine ⟨actions, c, harrives, Configuration.step_of_not_reads ?_⟩
  intro symbol action hread
  rcases (exists_reads_iff hg built hp hfree harrives).1 ⟨symbol, action, hread⟩ with
    ⟨-, hgenerates⟩ | ⟨hlt, hlonger⟩
  · exact hnot hgenerates
  · exact hends hlt hlonger

end Runs

end Table

end CanonicalLR
