import CanonicalLR.Proofs.Parser.Prefixes
import CanonicalLR.Proofs.Parser.Replay

/-!
# One token of lookahead

What the parser does before it has consumed some number of tokens depends on these tokens
and on no later one. So all inputs that begin with the same tokens have the parser come
equally far with them: it consumes them all after the same decisions, or it fails before
that with the same error, or it goes on for ever before that. An error is reported the
same, whatever stands behind the token at which it is found.

## Main definitions

* `Step.decision` — a step without the remaining input.
* `Progress`, `Table.Progresses` — how far a parse comes with the first tokens of an input.
* `Configuration.Begins` — the first moves of all runs that are long enough.

## Main results

* `Reaches.exists_begins` — the first moves over all tokens that begin alike.
* `exists_progress` — how far a parse comes with some tokens depends on them only.
* `progresses_alike_of_take_eq` — the same of two inputs, and of the errors of the one.
-/

namespace CanonicalLR

open CanonicalLR.Configuration

/-! ## How far a parse comes -/

/-- A step without the remaining input: the action, and the stack behind it. -/
structure Decision where
  stack : List StackCell
  action : StepAction
  deriving DecidableEq, Repr

/-- What a step shows apart from the remaining input. -/
def Step.decision (s : Step) : Decision := ⟨s.stack, s.action⟩

/-- The remaining input that a step shows is that behind the first `n` tokens. -/
def Step.HasConsumed (tokens : List String) (n : Nat) (s : Step) : Prop :=
  s.input = tokens.drop n ++ [endName]

/-- The trace comes to where the first `k` tokens are consumed, and shows these decisions
up to and including the first step that has consumed them. -/
def Trace.Consumes (tokens : List String) (k : Nat) (decisions : List Decision)
    (trace : Trace) : Prop :=
  ∃ front last rest, trace = front ++ last :: rest ∧
    (∀ step ∈ front, ∃ n < k, step.HasConsumed tokens n) ∧ last.HasConsumed tokens k ∧
    (front ++ [last]).map Step.decision = decisions

/-- How far a parse comes with the first tokens of an input. -/
inductive Progress where
  /-- It consumes them after these decisions. -/
  | consumed (decisions : List Decision)
  /-- It fails before that on a token at a position, after these decisions. -/
  | failed (token : String) (position : Nat) (expecting : List String)
      (decisions : List Decision)
  /-- It goes on for ever before that, with these decisions under each limit. -/
  | endless (decisions : Nat → List Decision)

/-- `t.Progresses k input p`: so far does a parse come with the first `k` tokens of an
input, under every limit that leaves room for it. -/
inductive Table.Progresses (t : Table) (k : Nat) (input : String) : Progress → Prop where
  | consumed {decisions : List Decision}
      (shows : ∀ limit, decisions.length ≤ limit + 1 →
        ∃ trace, (t.parse limit input).trace? = some trace ∧
          trace.Consumes (Text.wordsOf input) k decisions) :
      t.Progresses k input (.consumed decisions)
  | failed {token : String} {position : Nat} {expecting : List String}
      {decisions : List Decision} (early : position < k)
      (shows : ∀ limit, decisions.length ≤ limit →
        ∃ trace, t.parse limit input
            = .failed (.unexpectedToken token position expecting) (some trace) ∧
          trace.map Step.decision = decisions) :
      t.Progresses k input (.failed token position expecting decisions)
  | endless {decisions : Nat → List Decision}
      (shows : ∀ limit, ∃ trace, t.parse limit input = .unfinished trace ∧
        (∀ step ∈ trace, ∃ n < k, step.HasConsumed (Text.wordsOf input) n) ∧
        trace.map Step.decision = decisions limit) :
      t.Progresses k input (.endless decisions)

/-- The move over other tokens. -/
def Move.withTokens (others : List String) (move : Move) : Move :=
  ⟨move.before.withTokens others, move.action, move.after.withTokens others⟩

/-- The start and some moves as they are shown, without the remaining input. -/
def Table.decisions (t : Table) (moves : List Move) : List Decision :=
  ⟨[.state 0], .start⟩ :: moves.map fun move =>
    ⟨move.after.cells t.grammar, move.action.shown t.grammar⟩

theorem Table.length_decisions (t : Table) (moves : List Move) :
    (t.decisions moves).length = moves.length + 1 := by
  unfold decisions
  rw [List.length_cons, List.length_map]

/-- They do not depend on the tokens. -/
theorem Table.decisions_withTokens (t : Table) (others : List String) (moves : List Move) :
    t.decisions (moves.map (Move.withTokens others)) = t.decisions moves := by
  unfold decisions
  rw [List.map_map]
  rfl

/-! ## The first moves -/

namespace Configuration

variable {t : Table} {c d after : Configuration} {moves : List Move} {action : Action}
  {actions : List Action} {tokens others : List String} {error : Error} {limit : Nat}

/-- Every run that is long enough begins with these moves and goes on from there. -/
def Begins (t : Table) (c : Configuration) (moves : List Move) (d : Configuration) : Prop :=
  ∀ limit, c.run t (moves.length + limit)
    = ⟨moves ++ (d.run t limit).moves, (d.run t limit).ending⟩

theorem Begins.refl (t : Table) (c : Configuration) : c.Begins t [] c := by
  intro limit
  rw [List.length_nil, Nat.zero_add, List.nil_append]

theorem Begins.run_eq (h : c.Begins t moves d) : c.run t moves.length = ⟨moves, .unfinished⟩ := by
  have hrun := h 0
  rw [Nat.add_zero] at hrun
  rw [hrun, run, List.append_nil]

theorem Begins.tail (h : c.Begins t moves d) (step : d.step t = .moved action after) :
    c.Begins t (moves ++ [⟨d, action, after⟩]) after := by
  intro limit
  rw [List.length_append, List.length_singleton, Nat.add_assoc, Nat.add_comm 1 limit, h, run,
    step, List.append_assoc, List.singleton_append]

/-- **The first moves** are the same over all tokens that agree as far as these moves have
looked. -/
theorem Reaches.exists_begins (ht : t.IsCanonical)
    (h : (initial tokens).Reaches t actions d) :
    ∃ moves : List Move, moves.length = actions.length ∧
      (∀ move ∈ moves, move.after.consumed ≤ d.consumed) ∧
      ∀ others, (∀ j ≤ d.consumed, tokens[j]? = others[j]?) →
        (initial others).Begins t (moves.map (Move.withTokens others))
          (d.withTokens others) := by
  induction h with
  | refl => exact ⟨[], rfl, nofun, fun others _ => Begins.refl t (initial others)⟩
  | @tail actions d after action earlier step ih =>
      obtain ⟨moves, hlength, hconsumed, hbegins⟩ := ih
      have hle := consumed_le_of_step step
      refine ⟨moves ++ [⟨d, action, after⟩], ?_, ?_, ?_⟩
      · rw [List.length_append, List.length_append, hlength]
        rfl
      · intro move hmem
        rcases List.mem_append.1 hmem with hmem | hmem
        · exact Nat.le_trans (hconsumed move hmem) hle
        · rw [List.mem_singleton.1 hmem]
      · intro others hsame
        have hearlier := hbegins others fun j hj => hsame j (Nat.le_trans hj hle)
        rw [List.map_append]
        exact hearlier.tail (step_withTokens (earlier.isAt ht) (hsame _ hle) step)

/-- **A step that fails** fails over other tokens with the same error, if the next token is
the same. -/
theorem step_failed_withTokens (ht : t.IsCanonical) (hs : Stacked t c.states c.symbols)
    (hc : c.IsAt tokens) (hnext : tokens[c.consumed]? = others[c.consumed]?)
    (h : c.step t = .failed error) : (c.withTokens others).step t = .failed error := by
  have hhead : (others.drop c.consumed).head? = c.pending.head? := by
    rw [hc.pending_eq, List.head?_drop, List.head?_drop, hnext]
  have hlookahead : (c.withTokens others).lookahead? t.grammar = c.lookahead? t.grammar :=
    lookahead?_congr hhead
  have hreads : ∀ symbol action, ¬ (c.withTokens others).Reads t symbol action := by
    rintro symbol action ⟨hsymbol, hcell⟩
    rw [hlookahead] at hsymbol
    exact hs.step_ne_failed_of_reads ht ⟨hsymbol, hcell⟩ error h
  have hsame : (c.withTokens others).unexpected t = c.unexpected t := by
    unfold unexpected next
    rw [List.headD_eq_head?_getD, List.headD_eq_head?_getD]
    show Error.unexpectedToken ((others.drop c.consumed).head?.getD endName) _ _ = _
    rw [hhead]
    rfl
  rw [step_of_not_reads hreads, hsame, hs.eq_unexpected_of_step_eq_failed ht h]

/-- A run that fails has made fewer moves than the limit allows. -/
theorem length_moves_lt_of_failed (h : (c.run t limit).ending = .failed error) :
    (c.run t limit).moves.length < limit := by
  induction limit generalizing c with
  | zero => cases h
  | succ limit ih =>
      rw [run] at h ⊢
      cases hstep : c.step t with
      | moved action after =>
          rw [hstep] at h
          exact Nat.succ_lt_succ (ih h)
      | accepted =>
          rw [hstep] at h
          cases h
      | failed error => exact Nat.succ_pos limit

end Configuration

/-! ## What the first moves show -/

namespace Table

variable {text : String} {g : Grammar} {t : Table} {c d : Configuration} {k limit : Nat}
  {input input' : String} {moves : List Move} {actions : List Action} {tokens : List String}
  {error : Error}

/-- The trace of the first moves is the first part of the trace of a run that begins with
them. -/
theorem traceOf_of_begins
    (h : (initial (Text.wordsOf input)).Begins t
      (moves.map (Move.withTokens (Text.wordsOf input))) d) (limit : Nat) :
    t.traceOf (moves.length + limit) input
      = t.traceOf moves.length input ++ d.shownMoves t limit := by
  have hlong := h limit
  have hshort := h.run_eq
  rw [List.length_map] at hlong hshort
  unfold traceOf runOf Run.trace
  rw [hlong, hshort, List.map_append, List.cons_append]
  rfl

/-- The remaining input behind the first moves is that behind the tokens that they have
consumed. -/
theorem hasConsumed_of_begins {n : Nat} (hconsumed : ∀ move ∈ moves, move.after.consumed ≤ n)
    (h : (initial (Text.wordsOf input)).Begins t
      (moves.map (Move.withTokens (Text.wordsOf input))) d) :
    ∀ step ∈ t.traceOf moves.length input,
      ∃ m ≤ n, step.HasConsumed (Text.wordsOf input) m := by
  have hrun := h.run_eq
  rw [List.length_map] at hrun
  unfold traceOf runOf Run.trace
  rw [hrun]
  intro step hmem
  rcases List.mem_cons.1 hmem with rfl | hmem
  · exact ⟨0, Nat.zero_le n, rfl⟩
  · rw [List.map_map] at hmem
    obtain ⟨move, hmove, rfl⟩ := List.mem_map.1 hmem
    exact ⟨_, hconsumed move hmove, rfl⟩

/-- What they show apart from that does not depend on the tokens. -/
theorem map_decision_traceOf
    (h : (initial (Text.wordsOf input)).Begins t
      (moves.map (Move.withTokens (Text.wordsOf input))) d) :
    (t.traceOf moves.length input).map Step.decision = t.decisions moves := by
  have hrun := h.run_eq
  rw [List.length_map] at hrun
  unfold traceOf runOf Run.trace decisions
  rw [hrun, List.map_map, List.map_cons, List.map_map]
  rfl

/-- An input without `$` has a trace. -/
theorem trace?_parse (hfree : endName ∉ Text.wordsOf input) :
    (t.parse limit input).trace? = some (t.traceOf limit input) := by
  rcases parse_cases t limit hfree with ⟨-, hparse⟩ | ⟨error, -, hparse⟩ | ⟨-, hparse⟩
  all_goals
    rw [hparse]
    rfl

/-- A parse is not finished after moves with which all runs begin that are long enough. -/
theorem parse_of_begins (hfree : endName ∉ Text.wordsOf input)
    (h : (initial (Text.wordsOf input)).Begins t moves d) :
    t.parse moves.length input = .unfinished (t.traceOf moves.length input) := by
  have hending : (t.runOf moves.length input).ending = .unfinished :=
    congrArg Run.ending h.run_eq
  rcases parse_cases t moves.length hfree with ⟨hend, -⟩ | ⟨error, hend, -⟩ | ⟨-, hparse⟩
  · rw [hending] at hend
    cases hend
  · rw [hending] at hend
    cases hend
  · exact hparse

/-! ## Inputs that begin alike -/

/-- **A chain to where tokens are consumed** is the beginning of a parse of every input that
has these tokens. -/
theorem exists_progresses_consumed (ht : t.IsCanonical) (h : Arrives t tokens actions c) :
    ∃ decisions, ∀ input, endName ∉ Text.wordsOf input →
      (∀ j < c.consumed, tokens[j]? = (Text.wordsOf input)[j]?) →
      t.Progresses c.consumed input (.consumed decisions) := by
  cases h with
  | start =>
      refine ⟨t.decisions [], fun input hfree _ => .consumed fun limit _ => ?_⟩
      exact ⟨_, trace?_parse hfree, [], _, _, rfl, nofun, rfl, rfl⟩
  | @shift actions d symbol state earlier reads =>
      obtain ⟨moves, -, hconsumed, hbegins⟩ := earlier.exists_begins ht
      let last : Decision := ⟨(d.shift symbol state).cells t.grammar, .shift state⟩
      refine ⟨t.decisions moves ++ [last], fun input hfree hsame => .consumed ?_⟩
      have hbegins := hbegins (Text.wordsOf input) fun j hj => hsame j (Nat.lt_succ_of_le hj)
      have hreads := reads.withTokens (earlier.isAt ht)
        (hsame _ (Nat.lt_succ_self d.consumed))
      intro limit hlimit
      obtain ⟨more, rfl⟩ : ∃ more, limit = moves.length + (more + 1) := by
        rw [List.length_append, List.length_singleton, length_decisions] at hlimit
        exact ⟨limit - moves.length - 1, by omega⟩
      have htrace := traceOf_of_begins hbegins (more + 1)
      rw [shownMoves_of_moved (step_of_shift hreads), shift_withTokens] at htrace
      refine ⟨_, trace?_parse hfree, _, _, _, htrace, ?_, rfl, ?_⟩
      · intro step hmem
        obtain ⟨n, hn, hstep⟩ := hasConsumed_of_begins hconsumed hbegins step hmem
        exact ⟨n, Nat.lt_succ_of_le hn, hstep⟩
      · rw [List.map_append, map_decision_traceOf hbegins]
        rfl

/-- **A chain to a step that fails** is a failed parse of every input that has the tokens
which it has looked at. -/
theorem exists_decisions_of_failed (ht : t.IsCanonical)
    (h : (initial tokens).Reaches t actions d) (hd : d.step t = .failed error) :
    ∃ decisions, decisions.length = actions.length + 1 ∧
      ∀ input, endName ∉ Text.wordsOf input →
        (∀ j ≤ d.consumed, tokens[j]? = (Text.wordsOf input)[j]?) →
        ∀ limit, decisions.length ≤ limit → ∃ trace,
          t.parse limit input = .failed error (some trace) ∧
            trace.map Step.decision = decisions := by
  obtain ⟨moves, hlength, -, hbegins⟩ := h.exists_begins ht
  refine ⟨t.decisions moves, by rw [length_decisions, hlength], ?_⟩
  intro input hfree hsame limit hlimit
  rw [length_decisions] at hlimit
  have hbegins := hbegins (Text.wordsOf input) hsame
  have hfailed := step_failed_withTokens ht (h.stacked ht) (h.isAt ht)
    (hsame _ (Nat.le_refl d.consumed)) hd
  obtain ⟨more, rfl⟩ : ∃ more, limit = moves.length + (more + 1) :=
    ⟨limit - moves.length - 1, by omega⟩
  refine ⟨_, parse_of_reaches_failed hfree (h.withTokens ht hsame) hfailed (by omega), ?_⟩
  rw [traceOf_of_begins hbegins, shownMoves_of_failed hfailed, List.append_nil,
    map_decision_traceOf hbegins]

/-- **A chain that neither consumes the tokens nor fails** goes on for ever over every input
that has them. -/
theorem progresses_endless (ht : t.IsCanonical)
    (hsame : ∀ j < tokens.length, tokens[j]? = (Text.wordsOf input)[j]?)
    (hearly : ∀ actions d, (initial tokens).Reaches t actions d → d.consumed < tokens.length)
    (haccepted : ∀ actions d, (initial tokens).Reaches t actions d → d.step t ≠ .accepted)
    (hfailed : ∀ actions d error, (initial tokens).Reaches t actions d →
      d.step t ≠ .failed error) (hfree : endName ∉ Text.wordsOf input) :
    t.Progresses tokens.length input
      (.endless fun limit => t.decisions ((initial tokens).run t limit).moves) := by
  refine .endless fun limit => ?_
  obtain ⟨actions, d, h, hending⟩ := exists_reaches_of_run t limit (initial tokens)
  rcases hending with ⟨-, hd, -⟩ | ⟨error, -, hd, -⟩ | ⟨-, rfl, -⟩
  · exact absurd hd (haccepted actions d h)
  · exact absurd hd (hfailed actions d error h)
  have hd := hearly actions d h
  obtain ⟨moves, hlength, hconsumed, hbegins⟩ := h.exists_begins ht
  have hover := hbegins (Text.wordsOf input) fun j hj => hsame j (Nat.lt_of_le_of_lt hj hd)
  have hrun := (hbegins tokens fun _ _ => rfl).run_eq
  have hparse := parse_of_begins hfree hover
  rw [List.length_map] at hrun hparse
  rw [← hlength]
  refine ⟨_, hparse, ?_, ?_⟩
  · intro step hmem
    obtain ⟨n, hn, hstep⟩ := hasConsumed_of_begins hconsumed hover step hmem
    exact ⟨n, Nat.lt_of_le_of_lt hn hd, hstep⟩
  · rw [map_decision_traceOf hover, hrun, decisions_withTokens]

/-- **How far a parse comes** with some tokens depends on these tokens only. -/
theorem exists_progress (ht : t.IsCanonical) (hfree : endName ∉ tokens) :
    ∃ p, ∀ input, endName ∉ Text.wordsOf input → tokens <+: Text.wordsOf input →
      t.Progresses tokens.length input p := by
  have hsame : ∀ {input}, tokens <+: Text.wordsOf input →
      ∀ j < tokens.length, tokens[j]? = (Text.wordsOf input)[j]? := by
    intro input hprefix j hj
    obtain ⟨rest, hrest⟩ := hprefix
    rw [← hrest, List.getElem?_append_left hj]
  by_cases harrives : ∃ actions c, Arrives t tokens actions c ∧ c.consumed = tokens.length
  · obtain ⟨actions, c, harrives, hc⟩ := harrives
    obtain ⟨decisions, hall⟩ := exists_progresses_consumed ht harrives
    rw [hc] at hall
    exact ⟨_, fun input hfree hprefix => hall input hfree (hsame hprefix)⟩
  have hearly : ∀ {actions d}, (initial tokens).Reaches t actions d →
      d.consumed < tokens.length := by
    intro actions d h
    apply Nat.lt_of_not_le
    intro hle
    obtain ⟨front, c, rest, harrival, hc, -⟩ := h.exists_arrives hle
    exact harrives ⟨front, c, harrival, hc⟩
  by_cases hfailed : ∃ actions d error,
      (initial tokens).Reaches t actions d ∧ d.step t = .failed error
  · obtain ⟨actions, d, error, h, hd⟩ := hfailed
    obtain ⟨decisions, -, hall⟩ := exists_decisions_of_failed ht h hd
    obtain rfl := Stacked.eq_unexpected_of_step_eq_failed ht (h.stacked ht) hd
    have hd := hearly h
    exact ⟨_, fun input hfree hprefix => .failed hd
      (hall input hfree fun j hj => hsame hprefix j (Nat.lt_of_le_of_lt hj hd))⟩
  · refine ⟨_, fun input hfree' hprefix => progresses_endless ht (hsame hprefix)
      (fun actions d h => hearly h) (fun actions d h hd => ?_)
      (fun actions d error h hd => hfailed ⟨actions, d, error, h, hd⟩) hfree'⟩
    have hall : d.consumed = tokens.length := (h.of_accepted ht hfree hd).2.2
    exact absurd (hearly h) (Nat.not_lt.2 (Nat.le_of_eq hall.symm))

/-- **One token of lookahead**: over two inputs with the same first `k` tokens the parser
comes equally far with them, and an error before position `k` is reported of both. -/
theorem progresses_alike_of_take_eq (read : Grammar.ofText text = .ok g) (built : build g = .ok t)
    (hfree : endName ∉ Text.wordsOf input) (hfree' : endName ∉ Text.wordsOf input')
    (hk : k ≤ (Text.wordsOf input).length)
    (hsame : (Text.wordsOf input).take k = (Text.wordsOf input').take k) :
    (∃ p, t.Progresses k input p ∧ t.Progresses k input' p) ∧
      ∀ limit token position expecting trace, position < k →
        t.parse limit input
          = .failed (.unexpectedToken token position expecting) (some trace) →
        ∃ trace', t.parse limit input'
            = .failed (.unexpectedToken token position expecting) (some trace') ∧
          trace'.map Step.decision = trace.map Step.decision := by
  have ht : t.IsCanonical := isCanonical_build (Grammar.wellFormed_ofText read) built
  constructor
  · have hfirst : endName ∉ (Text.wordsOf input).take k :=
      fun hmem => hfree (List.mem_of_mem_take hmem)
    obtain ⟨p, hp⟩ := exists_progress ht hfirst
    rw [List.length_take_of_le hk] at hp
    refine ⟨p, hp input hfree (List.take_prefix k _), hp input' hfree' ?_⟩
    rw [hsame]
    exact List.take_prefix k _
  · intro limit token position expecting trace hearly hparse
    obtain ⟨rfl, hending⟩ := ending_of_failed hparse
    obtain ⟨actions, d, h, hd, hactions⟩ := exists_reaches_of_ending_failed hending
    have hposition : d.consumed = position := by
      have herror := Stacked.eq_unexpected_of_step_eq_failed ht (h.stacked ht) hd
      exact (Error.unexpectedToken.inj herror).2.1.symm
    have hlimit := length_moves_lt_of_failed hending
    rw [← List.length_map (·.action), hactions] at hlimit
    obtain ⟨decisions, hlength, hall⟩ := exists_decisions_of_failed ht h hd
    have hagree : ∀ j ≤ d.consumed, (Text.wordsOf input)[j]? = (Text.wordsOf input')[j]? := by
      intro j hj
      have hjk : j < k := by omega
      rw [← List.getElem?_take_of_lt hjk, hsame, List.getElem?_take_of_lt hjk]
    obtain ⟨trace, hself, hdecisions⟩ := hall input hfree (fun _ _ => rfl) limit (by omega)
    rw [hparse] at hself
    obtain rfl := Option.some.inj (ParseResult.failed.inj hself).2
    rw [hdecisions]
    exact hall input' hfree' hagree limit (by omega)

/-- So it is with a closing symbol too many, whether nothing or a word that is no symbol of
the grammar stands behind it. -/
theorem progresses_alike_of_nested :
    ∃ g t p trace trace', Grammar.ofText "S -> a S b | ε" = .ok g ∧ build g = .ok t ∧
      (Text.wordsOf "a b b").take 3 = (Text.wordsOf "a b b ? a").take 3 ∧
      t.Progresses 3 "a b b" p ∧ t.Progresses 3 "a b b ? a" p ∧
      t.parse 10 "a b b" = .failed (.unexpectedToken "b" 2 ["$"]) (some trace) ∧
      t.parse 10 "a b b ? a" = .failed (.unexpectedToken "b" 2 ["$"]) (some trace') ∧
      trace'.map Step.decision = trace.map Step.decision := by
  obtain ⟨g, t, read, built, herror⟩ := exists_table "S -> a S b | ε"
    (fun t => (t.parse 10 "a b b").error? = some (.unexpectedToken "b" 2 ["$"]))
    (by decide +kernel)
  obtain ⟨trace?, failed⟩ := ParseResult.exists_of_error?_eq (of_decide_eq_true herror)
  have hfree : endName ∉ Text.wordsOf "a b b" := by decide +kernel
  have hfree' : endName ∉ Text.wordsOf "a b b ? a" := by decide +kernel
  have hsame : (Text.wordsOf "a b b").take 3 = (Text.wordsOf "a b b ? a").take 3 := by
    decide +kernel
  obtain ⟨⟨p, hp, hp'⟩, herrors⟩ :=
    progresses_alike_of_take_eq read built hfree hfree' (by decide +kernel) hsame
  have htrace : (t.parse 10 "a b b").trace? = some (t.traceOf 10 "a b b") :=
    trace?_parse hfree
  rw [failed] at htrace
  obtain rfl : trace? = _ := htrace
  obtain ⟨trace', failed', hdecisions⟩ := herrors 10 "b" 2 ["$"] _ (by decide) failed
  exact ⟨g, t, p, _, trace', read, built, hsame, hp, hp', failed, failed', hdecisions⟩

end Table

end CanonicalLR
