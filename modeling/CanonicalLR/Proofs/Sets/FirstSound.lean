import CanonicalLR.Proofs.Sets.First

/-!
# FIRST sets hold nothing else

Every member of a FIRST set is there for a reason: some string derived from the
symbols begins with it, or is empty in the case of `ε`. The passes over the
rules keep this, because a rule only adds to its left-hand side what its
right-hand side begins with.

## Main definitions

* `Grammar.Begins` — what a string derived from some symbols begins with.
* `SymbolSets.IsDerived` — a family whose members are all there for a reason.

## Main results

* `IsDerived.begins` — FIRST of a sequence, from FIRST of its symbols.
* `isDerived_first` — the FIRST sets of a grammar are such a family.
-/

namespace CanonicalLR

/-! ## Beginnings -/

namespace Grammar

variable {g : Grammar} {α β : List Nat} {symbol a : Nat}

/-- `g.Begins α a`: a string derived from the symbols `α` begins with `a`, or is empty
if `a` is `ε`. -/
inductive Begins (g : Grammar) (α : List Nat) : Nat → Prop where
  | empty (derived : g.Derives α []) : g.Begins α epsilonId
  | symbol {a : Nat} {β : List Nat} (ne : a ≠ epsilonId) (derived : g.Derives α (a :: β)) :
      g.Begins α a

theorem Begins.derives_nil (h : g.Begins α epsilonId) : g.Derives α [] := by
  cases h with
  | empty derived => exact derived
  | symbol ne _ => exact absurd rfl ne

theorem Begins.exists_derives (h : g.Begins α a) (hne : a ≠ epsilonId) :
    ∃ β, g.Derives α (a :: β) := by
  cases h with
  | empty _ => exact absurd rfl hne
  | symbol _ derived => exact ⟨_, derived⟩

/-- What derives a string begins as that string does. -/
theorem Begins.of_derives (h : g.Derives α β) (hβ : g.Begins β a) : g.Begins α a := by
  cases hβ with
  | empty derived => exact .empty (h.trans derived)
  | symbol ne derived => exact .symbol ne (h.trans derived)

/-- What the first symbol begins with, the whole sequence begins with. -/
theorem Begins.append_right (h : g.Begins [symbol] a) (hne : a ≠ epsilonId) :
    g.Begins (symbol :: α) a := by
  obtain ⟨β, hβ⟩ := h.exists_derives hne
  exact .symbol hne (hβ.append_right α)

/-- Where the first symbol derives the empty word, the rest counts. -/
theorem Begins.cons (hnull : g.Begins [symbol] epsilonId) (h : g.Begins α a) :
    g.Begins (symbol :: α) a :=
  .of_derives (hnull.derives_nil.append_right α) h

end Grammar

namespace SymbolSets

open Grammar

variable {g : Grammar} {s : SymbolSets} {α : List Nat} {symbol a : Nat}

/-! ## Families of beginnings -/

/-- Every member of a set is something with which a derived string begins. The slot
of `ε` is left out, because it stands in no sequence. -/
def IsDerived (g : Grammar) (s : SymbolSets) : Prop :=
  ∀ symbol a : Nat, symbol ≠ epsilonId → a ∈ s.get symbol → g.Begins [symbol] a

/-- **FIRST of a sequence** holds what derived strings begin with. -/
theorem IsDerived.begins (hs : s.IsDerived g) (hα : ∀ symbol ∈ α, symbol ≠ epsilonId)
    (ha : a ∈ s.ofSequence α) : g.Begins α a := by
  induction α with
  | nil =>
      rw [mem_ofSequence_nil.1 ha]
      exact .empty (.refl [])
  | cons symbol α ih =>
      have hsymbol : symbol ≠ epsilonId := hα symbol List.mem_cons_self
      rcases mem_ofSequence_cons.1 ha with ⟨ha, hne⟩ | ⟨hnull, ha⟩
      · exact (hs symbol a hsymbol ha).append_right hne
      · have hrest := ih (fun other hmem => hα other (List.mem_cons_of_mem _ hmem)) ha
        exact .cons (hs symbol epsilonId hsymbol hnull) hrest

/-- A rule adds what its right-hand side begins with. -/
theorem IsDerived.extend {r : Rule} (hs : s.IsDerived g) (hr : r ∈ g.rules)
    (hrhs : ∀ symbol ∈ r.rhs, symbol ≠ epsilonId) :
    (s.extend r.lhs (s.ofSequence r.rhs)).IsDerived g := by
  intro symbol a hsymbol ha
  rcases mem_of_mem_get_extend ha with hold | ⟨rfl, hnew⟩
  · exact hs symbol a hsymbol hold
  · exact .of_derives (.of_rule hr) (hs.begins hrhs hnew)

end SymbolSets

/-! ## The FIRST sets of a grammar -/

namespace Grammar.IsAugmented

variable {g : Grammar} (hg : g.IsAugmented)

include hg

theorem isDerived_firstPass {s : SymbolSets} (hs : s.IsDerived g) :
    (g.firstPass s).IsDerived g := by
  unfold firstPass
  rw [← Array.foldl_toList]
  refine List.foldlRecOn (motive := SymbolSets.IsDerived g) g.rules.toList _ hs ?_
  intro s hs r hr
  have hr := Array.mem_toList_iff.1 hr
  exact hs.extend hr (hg.ne_epsilonId_of_mem_rhs hr)

/-- **The FIRST sets** hold nothing but what derived strings begin with. -/
theorem isDerived_first : g.first.IsDerived g := by
  apply saturate_invariant (fun _ hs => hg.isDerived_firstPass hs)
  intro symbol a hsymbol ha
  obtain ⟨_, _, rfl⟩ := mem_get_firstSeed.1 ha
  exact .symbol hsymbol (.refl [a])

end Grammar.IsAugmented

end CanonicalLR
