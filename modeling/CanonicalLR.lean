import CanonicalLR.Derivation
import CanonicalLR.Log
import CanonicalLR.Main
import CanonicalLR.Proofs.Grammar.WellFormed
import CanonicalLR.Proofs.Grammar.Augmented
import CanonicalLR.Proofs.Grammar.Yield
import CanonicalLR.Proofs.Grammar.Productive
import CanonicalLR.Proofs.Sets.Growth
import CanonicalLR.Proofs.Sets.First
import CanonicalLR.Proofs.Sets.FirstSound
import CanonicalLR.Proofs.Items.Closure
import CanonicalLR.Proofs.Automaton.Collection
import CanonicalLR.Proofs.Automaton.States
import CanonicalLR.Proofs.Automaton.ValidItems
import CanonicalLR.Proofs.Table.Cells
import CanonicalLR.Proofs.Table.Conflicts
import CanonicalLR.Proofs.Table.LR1
import CanonicalLR.Proofs.Parser.Run
import CanonicalLR.Proofs.Parser.Stack
import CanonicalLR.Proofs.Parser.Discipline
import CanonicalLR.Proofs.Parser.Soundness
import CanonicalLR.Proofs.Parser.Completeness
import CanonicalLR.Proofs.Parser.Ambiguity
import CanonicalLR.Proofs.Parser.Prefixes
import CanonicalLR.Proofs.Parser.Continuations
import CanonicalLR.Proofs.Parser.Errors
import CanonicalLR.Proofs.Parser.Termination
import CanonicalLR.Proofs.Automaton.Exact
import CanonicalLR.Proofs.Table.Exact
import CanonicalLR.Proofs.Table.FirstConflict
import CanonicalLR.Proofs.Embedding.Grammar
import CanonicalLR.Proofs.Embedding.ItemSets
import CanonicalLR.Proofs.Embedding.States
import CanonicalLR.Proofs.Embedding.Table
import CanonicalLR.Proofs.Embedding.Parser
import CanonicalLR.Proofs.Grammar.Lines
import CanonicalLR.Proofs.Grammar.Extension
import CanonicalLR.Proofs.Table.AddedRules
import CanonicalLR.Proofs.Sets.Passes
import CanonicalLR.Proofs.Sets.FirstExact
import CanonicalLR.Proofs.Sets.FollowExact
import CanonicalLR.Proofs.Automaton.Lookaheads
import CanonicalLR.Proofs.Renumbering.Grammar
import CanonicalLR.Proofs.Renumbering.States
import CanonicalLR.Proofs.Renumbering.Table
import CanonicalLR.Proofs.Renumbering.Parser
import CanonicalLR.Proofs.Grammar.Declared
import CanonicalLR.Proofs.Renumbering.Declarations
import CanonicalLR.Proofs.Text.Written
import CanonicalLR.Proofs.Grammar.Format
import CanonicalLR.Proofs.Grammar.Productions
import CanonicalLR.Proofs.Grammar.Printed
import CanonicalLR.Proofs.Parser.Replay
import CanonicalLR.Proofs.Grammar.Numbers
import CanonicalLR.Proofs.Sets.Checked
import CanonicalLR.Proofs.Automaton.Checked
import CanonicalLR.Proofs.Items.Worklist
import CanonicalLR.Proofs.Items.LeastClosure
import CanonicalLR.Proofs.Automaton.BreadthFirst
import CanonicalLR.Proofs.Automaton.Walk
import CanonicalLR.Proofs.Parser.Acceptance
import CanonicalLR.Proofs.Sets.Sequences
import CanonicalLR.Proofs.Grammar.FreshStart
import CanonicalLR.Proofs.Table.Lossless
import CanonicalLR.Proofs.Parser.Lookahead
import CanonicalLR.Proofs.Relabelling.Grammar
import CanonicalLR.Proofs.Relabelling.States
import CanonicalLR.Proofs.Relabelling.Names
import CanonicalLR.Proofs.Relabelling.Table
import CanonicalLR.Proofs.Relabelling.Parser
