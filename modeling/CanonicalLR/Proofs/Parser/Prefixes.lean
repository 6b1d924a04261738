import CanonicalLR.Proofs.Parser.Stack

/-!
# Runs over tokens that begin alike

A step looks at the token behind the cursor and at no later one, and it is the
only step that the table allows. So two runs over the same tokens are one run,
of which one may be cut off earlier, and a run goes the same way over other
tokens as long as these agree with the ones that it has looked at. In every run
there is one moment at which a token is looked at for the first time: the start
of the run, or the shift of the token before.

## Main definitions

* `Arrives` — the parser has come to a token and has not looked at it.
* `Configuration.withTokens` — the same stacks and cursor over other tokens.

## Main results

* `Reaches.linear` — one of two chains is the beginning of the other.
* `Reaches.exists_arrives`, `Arrives.unique` — a run arrives once at each token that it
  comes to.
* `Reaches.withTokens`, `Arrives.withTokens` — the run over other tokens.
-/

namespace CanonicalLR

namespace Configuration

variable {t : Table} {c d e : Configuration} {actions more rest : List Action}
  {action : Action} {tokens others : List String} {symbol state id n : Nat}

/-! ## One run -/

/-- No moves lead nowhere. -/
theorem Reaches.eq_of_nil (h : c.Reaches t [] d) : d = c := by
  generalize hnil : ([] : List Action) = actions at h
  cases h with
  | refl => rfl
  | tail _ _ => simp at hnil

/-- A chain with a last move. -/
theorem Reaches.cases_concat (h : c.Reaches t (actions ++ [action]) e) :
    ∃ d, c.Reaches t actions d ∧ d.step t = .moved action e := by
  generalize hall : actions ++ [action] = all at h
  cases h with
  | refl => simp at hall
  | tail earlier step =>
      obtain ⟨rfl, hlast⟩ := List.append_inj' hall rfl
      obtain rfl := List.singleton_inj.1 hlast
      exact ⟨_, earlier, step⟩

/-- A chain with a first move. -/
theorem Reaches.cases_cons (h : c.Reaches t (action :: actions) e) :
    ∃ d, c.step t = .moved action d ∧ d.Reaches t actions e := by
  induction actions using List.reverseRecOn generalizing e with
  | nil =>
      rw [← List.nil_append [action]] at h
      obtain ⟨d, hd, hstep⟩ := h.cases_concat
      obtain rfl := hd.eq_of_nil
      exact ⟨e, hstep, .refl⟩
  | append_singleton actions last ih =>
      rw [← List.cons_append] at h
      obtain ⟨d, hd, hlast⟩ := h.cases_concat
      obtain ⟨after, hstep, hlater⟩ := ih hd
      exact ⟨after, hstep, .tail hlater hlast⟩

/-- **There is one run**: of two chains from one configuration, one is the beginning of
the other. -/
theorem Reaches.linear (h : c.Reaches t actions d) (h' : c.Reaches t more e) :
    (∃ rest, more = actions ++ rest ∧ d.Reaches t rest e) ∨
      ∃ rest, actions = more ++ rest ∧ e.Reaches t rest d := by
  induction h' with
  | refl => exact Or.inr ⟨actions, rfl, h⟩
  | @tail more e after action _ step ih =>
      rcases ih with ⟨rest, rfl, hlater⟩ | ⟨rest, rfl, hlater⟩
      · exact Or.inl ⟨rest ++ [action], by rw [List.append_assoc], .tail hlater step⟩
      · cases rest with
        | nil =>
            obtain rfl := hlater.eq_of_nil
            exact Or.inl ⟨[action], by rw [List.append_nil], .single step⟩
        | cons first rest =>
            obtain ⟨middle, hmove, hrest⟩ := hlater.cases_cons
            rw [step] at hmove
            obtain ⟨rfl, rfl⟩ := StepResult.moved.inj hmove
            exact Or.inr ⟨rest, by rw [List.append_assoc]; rfl, hrest⟩

/-- Nothing is reached from where no move is made. -/
theorem Reaches.eq_of_stuck (h : c.Reaches t actions d)
    (hstuck : ∀ action after, c.step t ≠ .moved action after) : actions = [] ∧ d = c := by
  cases actions with
  | nil => exact ⟨rfl, h.eq_of_nil⟩
  | cons action actions =>
      obtain ⟨after, hstep, -⟩ := h.cases_cons
      exact absurd hstep (hstuck action after)

/-- Chains that end where no move is made are one chain. -/
theorem Reaches.unique_of_stuck (h : c.Reaches t actions d)
    (hd : ∀ action after, d.step t ≠ .moved action after) (h' : c.Reaches t more e)
    (he : ∀ action after, e.step t ≠ .moved action after) : actions = more ∧ d = e := by
  rcases h.linear h' with ⟨rest, rfl, hlater⟩ | ⟨rest, rfl, hlater⟩
  · obtain ⟨rfl, rfl⟩ := hlater.eq_of_stuck hd
    exact ⟨(List.append_nil actions).symm, rfl⟩
  · obtain ⟨rfl, rfl⟩ := hlater.eq_of_stuck he
    exact ⟨List.append_nil more, rfl⟩

/-- No step of a run that accepts fails. -/
theorem Reaches.step_ne_failed (h : c.Reaches t actions d) (hd : d.step t = .accepted)
    (error : Error) : c.step t ≠ .failed error := by
  intro hstep
  obtain ⟨-, rfl⟩ := h.eq_of_stuck fun action after hmove => by
    rw [hstep] at hmove
    cases hmove
  rw [hd] at hstep
  cases hstep

/-! ## The cursor -/

/-- A reduction leaves the cursor where it is. -/
theorem cursor_of_reduce (h : c.reduce t id = .ok d) :
    d.consumed = c.consumed ∧ d.pending = c.pending := by
  unfold reduce at h
  dsimp only at h
  split at h
  · obtain rfl := Except.ok.inj h
    exact ⟨rfl, rfl⟩
  · cases h

/-- A move never sets the cursor back. -/
theorem consumed_le_of_step (h : c.step t = .moved action d) : c.consumed ≤ d.consumed := by
  rcases cases_of_step_eq_moved h with ⟨_, _, -, -, rfl⟩ | ⟨_, _, -, -, hreduce⟩
  · exact Nat.le_succ c.consumed
  · exact Nat.le_of_eq (cursor_of_reduce hreduce).1.symm

theorem Reaches.consumed_le (h : c.Reaches t actions d) : c.consumed ≤ d.consumed := by
  induction h with
  | refl => exact Nat.le_refl _
  | tail _ step ih => exact Nat.le_trans ih (consumed_le_of_step step)

/-- A shift sets it forward. -/
theorem consumed_of_step_shift (h : c.step t = .moved (.shift state) d) :
    d.consumed = c.consumed + 1 := by
  rcases cases_of_step_eq_moved h with ⟨_, _, -, -, rfl⟩ | ⟨_, _, -, hreduce, -⟩
  · rfl
  · cases hreduce

/-! ## Arrivals -/

/-- The parser comes to the token behind the cursor: it is at the start or has just
shifted the token before. -/
inductive Arrives (t : Table) (tokens : List String) : List Action → Configuration → Prop where
  | start : Arrives t tokens [] (initial tokens)
  | shift {actions : List Action} {d : Configuration} {symbol state : Nat}
      (earlier : (initial tokens).Reaches t actions d) (reads : d.Reads t symbol (.shift state)) :
      Arrives t tokens (actions ++ [.shift state]) (d.shift symbol state)

theorem Arrives.reaches (h : Arrives t tokens actions c) :
    (initial tokens).Reaches t actions c := by
  cases h with
  | start => exact .refl
  | shift earlier reads => exact .tail earlier (step_of_shift reads)

/-- The last move before an arrival is a shift, if there is one. -/
theorem Arrives.cases_getLast? (h : Arrives t tokens actions c) :
    actions = [] ∨ ∃ state, actions.getLast? = some (.shift state) := by
  cases h with
  | start => exact Or.inl rfl
  | shift _ _ => exact Or.inr ⟨_, List.getLast?_concat⟩

/-- A run that goes on to an arrival sets the cursor forward. -/
theorem Arrives.eq_nil_of_reaches (h : Arrives t tokens (actions ++ rest) d)
    (hc : c.Reaches t rest d) (heq : d.consumed = c.consumed) : rest = [] := by
  rcases List.eq_nil_or_concat rest with rfl | ⟨front, last, rfl⟩
  · rfl
  · rw [List.concat_eq_append] at h hc
    rcases h.cases_getLast? with hnil | ⟨state, hlast⟩
    · simp at hnil
    · rw [← List.append_assoc, List.getLast?_concat] at hlast
      obtain rfl := Option.some.inj hlast
      obtain ⟨before, hbefore, hstep⟩ := hc.cases_concat
      have hle := hbefore.consumed_le
      have hnext := consumed_of_step_shift hstep
      omega

/-- **A token is arrived at once.** -/
theorem Arrives.unique (h : Arrives t tokens actions c) (h' : Arrives t tokens more d)
    (heq : c.consumed = d.consumed) : actions = more ∧ c = d := by
  rcases h.reaches.linear h'.reaches with ⟨rest, rfl, hlater⟩ | ⟨rest, rfl, hlater⟩
  · obtain rfl := h'.eq_nil_of_reaches hlater heq.symm
    exact ⟨(List.append_nil actions).symm, hlater.eq_of_nil.symm⟩
  · obtain rfl := h.eq_nil_of_reaches hlater heq
    exact ⟨List.append_nil more, hlater.eq_of_nil⟩

/-- **A run arrives at every token** that it comes to. -/
theorem Reaches.exists_arrives (h : (initial tokens).Reaches t actions d)
    (hn : n ≤ d.consumed) : ∃ front c rest, Arrives t tokens front c ∧ c.consumed = n ∧
      c.Reaches t rest d := by
  induction h with
  | refl =>
      obtain rfl : n = 0 := Nat.le_zero.1 hn
      exact ⟨[], _, [], .start, rfl, .refl⟩
  | @tail actions d after action earlier step ih =>
      by_cases hle : n ≤ d.consumed
      · obtain ⟨front, c, rest, harrives, hconsumed, hlater⟩ := ih hle
        exact ⟨front, c, rest ++ [action], harrives, hconsumed, .tail hlater step⟩
      · rcases cases_of_step_eq_moved step with
          ⟨symbol, state, hread, -, rfl⟩ | ⟨_, _, -, -, hreduce⟩
        · have hconsumed : (d.shift symbol state).consumed = d.consumed + 1 := rfl
          exact ⟨_, _, [], .shift earlier hread, by omega, .refl⟩
        · rw [(cursor_of_reduce hreduce).1] at hn
          exact absurd hn hle

/-! ## Other tokens -/

/-- The same stacks and cursor over other tokens. -/
def withTokens (c : Configuration) (others : List String) : Configuration :=
  { c with pending := others.drop c.consumed }

theorem shift_withTokens :
    (c.withTokens others).shift symbol state = (c.shift symbol state).withTokens others := by
  unfold withTokens shift
  rw [List.tail_drop]

theorem reduce_withTokens (h : c.reduce t id = .ok d) :
    (c.withTokens others).reduce t id = .ok (d.withTokens others) := by
  unfold reduce at h ⊢
  dsimp only [withTokens] at h ⊢
  split at h
  · obtain rfl := Except.ok.inj h
    rfl
  · cases h

/-- The column that is read depends on the next token only. -/
theorem lookahead?_congr {g : Grammar} (h : c.pending.head? = d.pending.head?) :
    c.lookahead? g = d.lookahead? g := by
  unfold lookahead?
  cases hc : c.pending with
  | nil =>
      rw [hc, List.head?_nil] at h
      rw [List.head?_eq_none_iff.1 h.symm]
  | cons token rest =>
      rw [hc, List.head?_cons] at h
      obtain ⟨back, hback⟩ := List.head?_eq_some_iff.1 h.symm
      rw [hback]

theorem Reads.withTokens (hc : c.IsAt tokens) (hnext : tokens[c.consumed]? = others[c.consumed]?)
    (h : c.Reads t symbol action) : (c.withTokens others).Reads t symbol action := by
  refine ⟨?_, h.2⟩
  rw [← h.1]
  apply lookahead?_congr
  show (others.drop c.consumed).head? = c.pending.head?
  rw [hc.pending_eq, List.head?_drop, List.head?_drop, hnext]

/-- **One move** is made over other tokens as well, if the next token is the same. -/
theorem step_withTokens (hc : c.IsAt tokens) (hnext : tokens[c.consumed]? = others[c.consumed]?)
    (h : c.step t = .moved action d) :
    (c.withTokens others).step t = .moved action (d.withTokens others) := by
  rcases cases_of_step_eq_moved h with
    ⟨symbol, state, hread, rfl, rfl⟩ | ⟨symbol, id, hread, rfl, hreduce⟩
  · rw [← shift_withTokens]
    exact step_of_shift (hread.withTokens hc hnext)
  · exact step_of_reduce (hread.withTokens hc hnext) (reduce_withTokens hreduce)

/-- **A run** goes the same way over other tokens, if the tokens up to the one behind
the cursor are the same. -/
theorem Reaches.withTokens (ht : t.IsCanonical) (h : (initial tokens).Reaches t actions c)
    (hsame : ∀ k ≤ c.consumed, tokens[k]? = others[k]?) :
    (initial others).Reaches t actions (c.withTokens others) := by
  induction h with
  | refl => exact .refl
  | tail earlier step ih =>
      have hle := consumed_le_of_step step
      have hearlier := ih fun k hk => hsame k (Nat.le_trans hk hle)
      exact .tail hearlier (step_withTokens (earlier.isAt ht) (hsame _ hle) step)

/-- **An arrival** is one over other tokens, if the tokens before the cursor are the
same. -/
theorem Arrives.withTokens (ht : t.IsCanonical) (h : Arrives t tokens actions c)
    (hsame : ∀ k < c.consumed, tokens[k]? = others[k]?) :
    Arrives t others actions (c.withTokens others) := by
  cases h with
  | start => exact .start
  | @shift actions d symbol state earlier reads =>
      have hearlier := earlier.withTokens ht fun k hk => hsame k (Nat.lt_succ_of_le hk)
      have hread := reads.withTokens (earlier.isAt ht) (hsame _ (Nat.lt_succ_self d.consumed))
      rw [← shift_withTokens]
      exact .shift hearlier hread

end Configuration

end CanonicalLR
