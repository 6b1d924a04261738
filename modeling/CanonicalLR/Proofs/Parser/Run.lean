import CanonicalLR.Parser.Trace

/-!
# Runs as chains of moves

A run with a limit is a chain of moves, cut off at the limit. Whatever is true
of the configurations that moves lead to is therefore true of all
configurations of all runs and of all steps of a trace, and a chain that ends
in acceptance is the run for every limit that leaves room for it.

## Main definitions

* `Configuration.Reads` — the ACTION cell of the next step.
* `Configuration.Reaches` — moves lead from one configuration to another.
* `reductions`, `Trace.reductions` — the rules by which a chain and a trace reduce.
* `ParseResult.trace?`, `ParseResult.error?` — the trace and the error of a parse, if it
  has one.
* `Table.runOf`, `Table.traceOf` — the run on the words of an input, and its trace.

## Main results

* `cases_of_step_eq_moved`, `step_eq_accepted_iff`, `cases_of_step_eq_failed` —
  what one step can do.
* `Reaches.run_eq` — a chain of moves is the first part of a run.
* `Reaches.actions_unique` — two chains that end in acceptance are one.
* `exists_reaches_of_run` — a run is a chain of moves.
* `exists_reaches_of_mem_trace` — every step of a trace shows a configuration that
  moves lead to.
* `exists_reaches_of_accepted`, `exists_reaches_of_failed` — how a parse ended.
* `parse_of_reaches`, `parse_of_reaches_failed` — a chain to where the parser halts is a
  parse.
-/

namespace CanonicalLR

/-! ## Reductions -/

/-- The rule of a reduction. -/
def Action.reduction? : Action → Option Nat
  | .reduce id => some id
  | _ => none

/-- The rules by which some actions reduce, in order. -/
def reductions (actions : List Action) : List Nat := actions.filterMap Action.reduction?

@[simp] theorem reductions_append (actions more : List Action) :
    reductions (actions ++ more) = reductions actions ++ reductions more :=
  List.filterMap_append

/-- The rule of a reduction that is shown. -/
def StepAction.reduction? : StepAction → Option Nat
  | .reduce id _ _ => some id
  | _ => none

/-- The rules by which a trace reduces, in order. -/
def Trace.reductions (trace : Trace) : List Nat :=
  trace.filterMap fun step => step.action.reduction?

theorem Action.reduction?_shown (g : Grammar) (action : Action) :
    (action.shown g).reduction? = action.reduction? := by
  cases action <;> rfl

/-- A trace shows the reductions of its run. -/
theorem Run.reductions_trace (g : Grammar) (start : Configuration) (run : Run) :
    (run.trace g start).reductions = CanonicalLR.reductions (run.moves.map (·.action)) := by
  have hstart : (start.shown g .start).action.reduction? = none := rfl
  unfold Run.trace Trace.reductions CanonicalLR.reductions
  rw [List.filterMap_cons_none (f := fun step : Step => step.action.reduction?) hstart,
    List.filterMap_map, List.filterMap_map]
  have hmove : (fun step : Step => step.action.reduction?)
      ∘ (fun move : Move => move.after.shown g (move.action.shown g))
        = Action.reduction? ∘ fun move => move.action :=
    funext fun move => Action.reduction?_shown g move.action
  rw [hmove]

/-- A trace ends with acceptance if its run does. -/
theorem Run.isAccepted_trace (g : Grammar) (start : Configuration) {run : Run}
    {actions : List Action} (h : run.moves.map (·.action) = actions ++ [.accept]) :
    (run.trace g start).isAccepted = true := by
  obtain ⟨front, back, hmoves, -, hback⟩ := List.map_eq_append_iff.1 h
  obtain ⟨last, rfl, hlast⟩ := List.map_eq_singleton_iff.1 hback
  unfold Run.trace Trace.isAccepted
  rw [hmoves, List.map_append, List.map_singleton, ← List.cons_append,
    List.getLast?_concat, hlast]
  rfl

/-- The last step of a trace shows the last move of its run, or the start. -/
theorem Run.getLast?_trace (g : Grammar) (start : Configuration) (run : Run) :
    (run.trace g start).getLast?.map (·.action) =
      some ((run.moves.map (·.action)).getLast?.elim .start (Action.shown g)) := by
  unfold Run.trace
  rcases List.eq_nil_or_concat run.moves with hmoves | ⟨front, last, hmoves⟩
  · rw [hmoves]
    rfl
  · rw [hmoves, List.concat_eq_append, List.map_append, List.map_append, ← List.cons_append,
      List.map_singleton, List.map_singleton, List.getLast?_concat, List.getLast?_concat]
    rfl

namespace Configuration

variable {t : Table} {c d e : Configuration} {actions more : List Action} {action : Action}
  {limit : Nat}

/-! ## One step -/

/-- The ACTION cell that a configuration reads. -/
def Reads (t : Table) (c : Configuration) (symbol : Nat) (action : Action) : Prop :=
  c.lookahead? t.grammar = some symbol ∧ t.action? c.state symbol = some action

/-- A move shifts or reduces, as the cell says. -/
theorem cases_of_step_eq_moved (h : c.step t = .moved action d) :
    (∃ symbol state, c.Reads t symbol (.shift state) ∧ action = .shift state ∧
      d = c.shift symbol state) ∨
    (∃ symbol id, c.Reads t symbol (.reduce id) ∧ action = .reduce id ∧
      c.reduce t id = .ok d) := by
  unfold step at h
  cases hsymbol : c.lookahead? t.grammar with
  | none => simp [hsymbol] at h
  | some symbol =>
      cases hcell : t.action? c.state symbol with
      | none => simp [hsymbol, hcell] at h
      | some cell =>
          cases cell with
          | shift state =>
              simp only [hsymbol, hcell, StepResult.moved.injEq] at h
              exact Or.inl ⟨symbol, state, ⟨hsymbol, hcell⟩, h.1.symm, h.2.symm⟩
          | accept => simp [hsymbol, hcell] at h
          | reduce id =>
              cases hreduce : c.reduce t id with
              | error error => simp [hsymbol, hcell, hreduce] at h
              | ok after =>
                  simp only [hsymbol, hcell, hreduce, StepResult.moved.injEq] at h
                  obtain ⟨rfl, rfl⟩ := h
                  exact Or.inr ⟨symbol, id, ⟨hsymbol, hcell⟩, rfl, hreduce⟩

theorem step_of_shift {symbol state : Nat} (h : c.Reads t symbol (.shift state)) :
    c.step t = .moved (.shift state) (c.shift symbol state) := by
  unfold step
  simp only [h.1, h.2]

theorem step_of_reduce {symbol id : Nat} (h : c.Reads t symbol (.reduce id))
    (hd : c.reduce t id = .ok d) : c.step t = .moved (.reduce id) d := by
  unfold step
  simp only [h.1, h.2, hd]

/-- A configuration is accepted as the cell says. -/
theorem step_eq_accepted_iff :
    c.step t = .accepted ↔ ∃ symbol, c.Reads t symbol .accept := by
  unfold step Reads
  cases hsymbol : c.lookahead? t.grammar with
  | none => simp
  | some symbol =>
      cases hcell : t.action? c.state symbol with
      | none => simp [hcell]
      | some cell =>
          cases cell with
          | shift state => simp [hcell]
          | accept => simp [hcell]
          | reduce id =>
              cases hreduce : c.reduce t id <;> simp [hcell, hreduce]

/-- A step fails on a token without an action, or in a reduction. -/
theorem cases_of_step_eq_failed {error : Error} (h : c.step t = .failed error) :
    error = c.unexpected t ∨
      ∃ symbol id, c.Reads t symbol (.reduce id) ∧ c.reduce t id = .error error := by
  unfold step at h
  cases hsymbol : c.lookahead? t.grammar with
  | none =>
      simp only [hsymbol, StepResult.failed.injEq] at h
      exact Or.inl h.symm
  | some symbol =>
      cases hcell : t.action? c.state symbol with
      | none =>
          simp only [hsymbol, hcell, StepResult.failed.injEq] at h
          exact Or.inl h.symm
      | some cell =>
          cases cell with
          | shift state => simp [hsymbol, hcell] at h
          | accept => simp [hsymbol, hcell] at h
          | reduce id =>
              cases hreduce : c.reduce t id with
              | ok after => simp [hsymbol, hcell, hreduce] at h
              | error error' =>
                  simp only [hsymbol, hcell, hreduce, StepResult.failed.injEq] at h
                  exact Or.inr ⟨symbol, id, ⟨hsymbol, hcell⟩, by rw [hreduce, h]⟩

/-- A step fails on a token without an action. -/
theorem step_of_not_reads (h : ∀ symbol action, ¬ c.Reads t symbol action) :
    c.step t = .failed (c.unexpected t) := by
  unfold step
  cases hsymbol : c.lookahead? t.grammar with
  | none => rfl
  | some symbol =>
      cases hcell : t.action? c.state symbol with
      | none => simp only [hcell]
      | some action => exact absurd ⟨hsymbol, hcell⟩ (h symbol action)

/-! ## Chains of moves -/

/-- `c.Reaches t actions d`: moves of the table lead from `c` to `d`, with these
actions one after the other. -/
inductive Reaches (t : Table) (c : Configuration) : List Action → Configuration → Prop where
  | refl : c.Reaches t [] c
  | tail {actions : List Action} {d after : Configuration} {action : Action}
      (earlier : c.Reaches t actions d) (step : d.step t = .moved action after) :
      c.Reaches t (actions ++ [action]) after

theorem Reaches.trans (first : c.Reaches t actions d) (second : d.Reaches t more e) :
    c.Reaches t (actions ++ more) e := by
  induction second with
  | refl =>
      rw [List.append_nil]
      exact first
  | tail _ step ih =>
      rw [← List.append_assoc]
      exact .tail ih step

theorem Reaches.single (step : c.step t = .moved action d) : c.Reaches t [action] d :=
  .tail .refl step

theorem Reaches.head (step : c.step t = .moved action d) (later : d.Reaches t actions e) :
    c.Reaches t (action :: actions) e :=
  (Reaches.single step).trans later

/-! ## From chains to runs -/

/-- **A chain of moves** is the first part of every run that is long enough. -/
theorem Reaches.run_eq (h : c.Reaches t actions d) (limit : Nat) :
    ∃ moves, moves.map (·.action) = actions ∧
      c.run t (actions.length + limit)
        = ⟨moves ++ (d.run t limit).moves, (d.run t limit).ending⟩ := by
  induction h generalizing limit with
  | refl => exact ⟨[], rfl, by simp⟩
  | @tail actions d after action _ step ih =>
      obtain ⟨moves, hmoves, hrun⟩ := ih (limit + 1)
      have hlength : (actions ++ [action]).length + limit = actions.length + (limit + 1) := by
        simp only [List.length_append, List.length_singleton]
        omega
      refine ⟨moves ++ [⟨d, action, after⟩], by simp [hmoves], ?_⟩
      rw [hlength, hrun, run, step]
      simp

/-- A chain to an accepting configuration is an accepting run. -/
theorem Reaches.run_of_accepted (h : c.Reaches t actions d) (hd : d.step t = .accepted)
    (more : Nat) :
    (c.run t (actions.length + 1 + more)).ending = .accepted ∧
      (c.run t (actions.length + 1 + more)).moves.map (·.action) = actions ++ [.accept] := by
  obtain ⟨moves, hmoves, hrun⟩ := h.run_eq (more + 1)
  have hlimit : actions.length + 1 + more = actions.length + (more + 1) := by omega
  have hlast : d.run t (more + 1) = ⟨[⟨d, .accept, d⟩], .accepted⟩ := by rw [run, hd]
  rw [hlimit, hrun, hlast]
  simp [hmoves]

/-- A chain to a configuration whose step fails is a failing run. -/
theorem Reaches.run_of_failed {error : Error} (h : c.Reaches t actions d)
    (hd : d.step t = .failed error) (more : Nat) :
    (c.run t (actions.length + 1 + more)).ending = .failed error := by
  obtain ⟨moves, -, hrun⟩ := h.run_eq (more + 1)
  have hlimit : actions.length + 1 + more = actions.length + (more + 1) := by omega
  have hlast : d.run t (more + 1) = ⟨[], .failed error⟩ := by rw [run, hd]
  rw [hlimit, hrun, hlast]

/-- **The parser is deterministic**: two chains that end in acceptance are one. -/
theorem Reaches.actions_unique (h : c.Reaches t actions d) (hd : d.step t = .accepted)
    (h' : c.Reaches t more e) (he : e.step t = .accepted) : actions = more := by
  have hfirst := (h.run_of_accepted hd more.length).2
  have hsecond := (h'.run_of_accepted he actions.length).2
  have hlimit : actions.length + 1 + more.length = more.length + 1 + actions.length := by
    omega
  rw [hlimit, hsecond] at hfirst
  exact (List.append_cancel_right hfirst).symm

/-! ## From runs to chains -/

/-- Every move of a run leads to a configuration that a chain leads to. -/
theorem exists_reaches_of_mem_moves {move : Move} (h : move ∈ (c.run t limit).moves) :
    ∃ actions, c.Reaches t actions move.after := by
  induction limit generalizing c with
  | zero => cases h
  | succ limit ih =>
      rw [run] at h
      cases hstep : c.step t with
      | failed error =>
          rw [hstep] at h
          cases h
      | accepted =>
          rw [hstep] at h
          obtain rfl := List.mem_singleton.1 h
          exact ⟨[], .refl⟩
      | moved action after =>
          rw [hstep] at h
          rcases List.mem_cons.1 h with rfl | h
          · exact ⟨[action], .single hstep⟩
          · obtain ⟨actions, hlater⟩ := ih h
            exact ⟨action :: actions, .head hstep hlater⟩

/-- **A run** is a chain of moves, and ends with what the next step comes to or at
the limit. -/
theorem exists_reaches_of_run (t : Table) (limit : Nat) (c : Configuration) :
    ∃ actions d, c.Reaches t actions d ∧
      ((c.run t limit).ending = .accepted ∧ d.step t = .accepted ∧
          (c.run t limit).moves.map (·.action) = actions ++ [.accept] ∨
        (∃ error, (c.run t limit).ending = .failed error ∧ d.step t = .failed error ∧
          (c.run t limit).moves.map (·.action) = actions) ∨
        (c.run t limit).ending = .unfinished ∧ actions.length = limit ∧
          (c.run t limit).moves.map (·.action) = actions) := by
  induction limit generalizing c with
  | zero => exact ⟨[], c, .refl, Or.inr (Or.inr ⟨rfl, rfl, rfl⟩)⟩
  | succ limit ih =>
      rw [run]
      cases hstep : c.step t with
      | failed error => exact ⟨[], c, .refl, Or.inr (Or.inl ⟨error, rfl, hstep, rfl⟩)⟩
      | accepted => exact ⟨[], c, .refl, Or.inl ⟨rfl, hstep, rfl⟩⟩
      | moved action after =>
          obtain ⟨actions, d, hlater, hending⟩ := ih after
          refine ⟨action :: actions, d, .head hstep hlater, ?_⟩
          rcases hending with
            ⟨hend, hd, hmoves⟩ | ⟨error, hend, hd, hmoves⟩ | ⟨hend, hlength, hmoves⟩
          · exact Or.inl ⟨hend, hd, by simp [hmoves]⟩
          · exact Or.inr (Or.inl ⟨error, hend, hd, by simp [hmoves]⟩)
          · exact Or.inr (Or.inr ⟨hend, by rw [List.length_cons, hlength], by simp [hmoves]⟩)

/-- A run that accepts is a chain to an accepting configuration. -/
theorem exists_reaches_of_ending_accepted (h : (c.run t limit).ending = .accepted) :
    ∃ actions d, c.Reaches t actions d ∧ d.step t = .accepted ∧
      (c.run t limit).moves.map (·.action) = actions ++ [.accept] := by
  obtain ⟨actions, d, hreach, hending⟩ := exists_reaches_of_run t limit c
  rw [h] at hending
  rcases hending with ⟨_, hd, hmoves⟩ | ⟨error, hfailed, _⟩ | ⟨hunfinished, _⟩
  · exact ⟨actions, d, hreach, hd, hmoves⟩
  · cases hfailed
  · cases hunfinished

/-- A run that fails is a chain to a configuration whose step fails. -/
theorem exists_reaches_of_ending_failed {error : Error}
    (h : (c.run t limit).ending = .failed error) :
    ∃ actions d, c.Reaches t actions d ∧ d.step t = .failed error ∧
      (c.run t limit).moves.map (·.action) = actions := by
  obtain ⟨actions, d, hreach, hending⟩ := exists_reaches_of_run t limit c
  rw [h] at hending
  rcases hending with ⟨haccepted, _⟩ | ⟨error', hfailed, hd, hmoves⟩ | ⟨hunfinished, _⟩
  · cases haccepted
  · rw [Ending.failed.inj hfailed]
    exact ⟨actions, d, hreach, hd, hmoves⟩
  · cases hunfinished

end Configuration

/-! ## From parses to chains -/

/-- The trace of a parse; an input that is refused as a whole has none. -/
def ParseResult.trace? : ParseResult → Option Trace
  | .accepted trace => some trace
  | .failed _ trace => trace
  | .unfinished trace => some trace

/-- Was the input accepted? -/
def ParseResult.isAccepted : ParseResult → Bool
  | .accepted _ => true
  | _ => false

theorem ParseResult.exists_of_isAccepted {result : ParseResult} (h : result.isAccepted = true) :
    ∃ trace, result = .accepted trace := by
  cases result with
  | accepted trace => exact ⟨trace, rfl⟩
  | failed error trace => cases h
  | unfinished trace => cases h

/-- The error of a parse, if it failed. -/
def ParseResult.error? : ParseResult → Option Error
  | .failed error _ => some error
  | _ => none

theorem ParseResult.exists_of_error?_eq {result : ParseResult} {error : Error}
    (h : result.error? = some error) : ∃ trace, result = .failed error trace := by
  cases result with
  | accepted trace => cases h
  | failed error' trace =>
      rw [Option.some.inj h]
      exact ⟨trace, rfl⟩
  | unfinished trace => cases h

namespace Table

variable {t : Table} {limit : Nat} {input : String}

/-- The run on the words of an input. -/
def runOf (t : Table) (limit : Nat) (input : String) : Run :=
  (Configuration.initial (Text.wordsOf input)).run t limit

/-- The trace of the run on the words of an input. -/
def traceOf (t : Table) (limit : Nat) (input : String) : Trace :=
  (t.runOf limit input).trace t.grammar (Configuration.initial (Text.wordsOf input))

/-- The tokens of an input without `$` are its words, and are parsed by their run. -/
theorem exists_tokens (t : Table) (h : endName ∉ Text.wordsOf input) :
    ∃ tokens, Token.ofInput input = .ok tokens ∧
      tokens.map (·.text) = Text.wordsOf input ∧
      ∀ limit, t.runOn limit tokens = t.runOf limit input := by
  obtain ⟨tokens, htokens⟩ : ∃ tokens, Token.ofInput input = .ok tokens :=
    ⟨_, Token.ofInput_eq_ok_iff.2 ⟨h, rfl⟩⟩
  have htexts : tokens.map (·.text) = Text.wordsOf input := by
    rw [(Token.ofInput_eq_ok_iff.1 htokens).2, List.map_map]
    exact List.zipIdx_map_fst 0 (Text.wordsOf input)
  refine ⟨tokens, htokens, htexts, ?_⟩
  intro limit
  unfold runOn runOf
  rw [htexts]

/-- An input with `$` is refused as a whole. -/
theorem parse_of_mem_words (h : endName ∈ Text.wordsOf input) :
    t.parse limit input = .failed (.reservedSymbol endName) none := by
  unfold parse Token.ofInput
  simp [h]

/-- Any other input is parsed by the run on its words. -/
theorem parse_cases (t : Table) (limit : Nat) (h : endName ∉ Text.wordsOf input) :
    ((t.runOf limit input).ending = .accepted ∧
        t.parse limit input = .accepted (t.traceOf limit input)) ∨
      (∃ error, (t.runOf limit input).ending = .failed error ∧
        t.parse limit input = .failed error (some (t.traceOf limit input))) ∨
      ((t.runOf limit input).ending = .unfinished ∧
        t.parse limit input = .unfinished (t.traceOf limit input)) := by
  obtain ⟨tokens, htokens, htexts, hrun⟩ := exists_tokens t h
  unfold parse traceOf
  simp only [htokens, hrun, htexts]
  cases hending : (t.runOf limit input).ending with
  | accepted => simp
  | failed error => simp
  | unfinished => simp

/-- A parse that ended is the same under every greater limit. -/
theorem parse_of_finished {result : ParseResult} (h : t.parse limit input = result)
    (hresult : ∀ trace, result ≠ .unfinished trace) (more : Nat) :
    t.parse (limit + more) input = result := by
  subst h
  by_cases hend : endName ∈ Text.wordsOf input
  · rw [parse_of_mem_words hend, parse_of_mem_words hend]
  have hfinished : (t.runOf limit input).ending ≠ .unfinished := by
    intro hunfinished
    rcases parse_cases t limit hend with
      ⟨haccepted, _⟩ | ⟨error, hfailed, _⟩ | ⟨_, hparse⟩
    · rw [hunfinished] at haccepted
      cases haccepted
    · rw [hunfinished] at hfailed
      cases hfailed
    · exact hresult _ hparse
  have hsame : t.runOf (limit + more) input = t.runOf limit input :=
    Configuration.run_of_finished hfinished
  obtain ⟨tokens, htokens, -, hrun⟩ := exists_tokens t hend
  unfold parse
  simp only [htokens, hrun, hsame]

/-- **Every step of a trace** shows a configuration that moves lead to. -/
theorem exists_reaches_of_mem_trace {trace : Trace} {step : Step}
    (h : (t.parse limit input).trace? = some trace) (hstep : step ∈ trace) :
    ∃ actions d shown, (Configuration.initial (Text.wordsOf input)).Reaches t actions d ∧
      step = d.shown t.grammar shown := by
  have htrace : trace = t.traceOf limit input := by
    by_cases hend : endName ∈ Text.wordsOf input
    · rw [parse_of_mem_words hend] at h
      cases h
    · rcases parse_cases t limit hend with
        ⟨_, hparse⟩ | ⟨error, _, hparse⟩ | ⟨_, hparse⟩
      all_goals
        rw [hparse] at h
        exact (Option.some.inj h).symm
  rw [htrace] at hstep
  rcases List.mem_cons.1 hstep with rfl | hstep
  · exact ⟨[], _, .start, .refl, rfl⟩
  · obtain ⟨move, hmove, rfl⟩ := List.mem_map.1 hstep
    obtain ⟨actions, hreach⟩ := Configuration.exists_reaches_of_mem_moves hmove
    exact ⟨actions, _, _, hreach, rfl⟩

/-- The reductions of a trace that ends in acceptance. -/
theorem reductions_traceOf {actions : List Action}
    (h : (t.runOf limit input).moves.map (·.action) = actions ++ [.accept]) :
    (t.traceOf limit input).reductions = reductions actions := by
  unfold traceOf
  rw [Run.reductions_trace, h, reductions_append]
  exact List.append_nil _

/-- **An accepted input** leads to an accepting configuration, by the reductions
of its trace. -/
theorem exists_reaches_of_accepted {trace : Trace}
    (h : t.parse limit input = .accepted trace) :
    ∃ actions d, (Configuration.initial (Text.wordsOf input)).Reaches t actions d ∧
      d.step t = .accepted ∧ trace.reductions = reductions actions := by
  by_cases hend : endName ∈ Text.wordsOf input
  · rw [parse_of_mem_words hend] at h
    cases h
  rcases parse_cases t limit hend with
    ⟨hending, hparse⟩ | ⟨error, _, hparse⟩ | ⟨_, hparse⟩
  · rw [hparse] at h
    obtain rfl := ParseResult.accepted.inj h
    obtain ⟨actions, d, hreach, hd, hmoves⟩ :=
      Configuration.exists_reaches_of_ending_accepted hending
    exact ⟨actions, d, hreach, hd, reductions_traceOf hmoves⟩
  · rw [hparse] at h
    cases h
  · rw [hparse] at h
    cases h

/-- **A failed parse** of an input without `$` ends where a step fails, and its trace shows
the moves up to there. -/
theorem exists_reaches_of_failed {error : Error} {trace : Option Trace}
    (h : t.parse limit input = .failed error trace) :
    error = .reservedSymbol endName ∨
      endName ∉ Text.wordsOf input ∧ trace = some (t.traceOf limit input) ∧
        ∃ actions d, (Configuration.initial (Text.wordsOf input)).Reaches t actions d ∧
          d.step t = .failed error ∧
          (t.runOf limit input).moves.map (·.action) = actions := by
  by_cases hend : endName ∈ Text.wordsOf input
  · rw [parse_of_mem_words hend] at h
    exact Or.inl (ParseResult.failed.inj h).1.symm
  rcases parse_cases t limit hend with
    ⟨_, hparse⟩ | ⟨error', hending, hparse⟩ | ⟨_, hparse⟩
  · rw [hparse] at h
    cases h
  · rw [hparse] at h
    obtain ⟨rfl, rfl⟩ := ParseResult.failed.inj h
    exact Or.inr ⟨hend, rfl, Configuration.exists_reaches_of_ending_failed hending⟩
  · rw [hparse] at h
    cases h

/-- **A chain to an accepting configuration** is an accepted parse, under every
limit that leaves room for it. -/
theorem parse_of_reaches {actions : List Action} {d : Configuration}
    (hend : endName ∉ Text.wordsOf input)
    (h : (Configuration.initial (Text.wordsOf input)).Reaches t actions d)
    (hd : d.step t = .accepted) (hlimit : actions.length < limit) :
    t.parse limit input = .accepted (t.traceOf limit input) ∧
      (t.traceOf limit input).isAccepted = true ∧
      (t.traceOf limit input).reductions = reductions actions := by
  have hmore : limit = actions.length + 1 + (limit - actions.length - 1) := by omega
  have hrun := h.run_of_accepted hd (limit - actions.length - 1)
  rw [← hmore] at hrun
  obtain ⟨hending, hmoves⟩ := hrun
  have haccepted : (t.runOf limit input).ending = .accepted := hending
  refine ⟨?_, Run.isAccepted_trace t.grammar _ hmoves, reductions_traceOf hmoves⟩
  rcases parse_cases t limit hend with
    ⟨_, hparse⟩ | ⟨error, hfailed, _⟩ | ⟨hunfinished, _⟩
  · exact hparse
  · rw [haccepted] at hfailed
    cases hfailed
  · rw [haccepted] at hunfinished
    cases hunfinished

/-- **A chain to a configuration whose step fails** is a failed parse. -/
theorem parse_of_reaches_failed {actions : List Action} {d : Configuration} {error : Error}
    (hend : endName ∉ Text.wordsOf input)
    (h : (Configuration.initial (Text.wordsOf input)).Reaches t actions d)
    (hd : d.step t = .failed error) (hlimit : actions.length < limit) :
    t.parse limit input = .failed error (some (t.traceOf limit input)) := by
  have hmore : limit = actions.length + 1 + (limit - actions.length - 1) := by omega
  have hending := h.run_of_failed hd (limit - actions.length - 1)
  rw [← hmore] at hending
  have hfailed : (t.runOf limit input).ending = .failed error := hending
  rcases parse_cases t limit hend with
    ⟨haccepted, _⟩ | ⟨error', hfailed', hparse⟩ | ⟨hunfinished, _⟩
  · rw [hfailed] at haccepted
    cases haccepted
  · rw [hfailed] at hfailed'
    rw [hparse, Ending.failed.inj hfailed']
  · rw [hfailed] at hunfinished
    cases hunfinished

end Table

end CanonicalLR
