import ShiftReduce.Log
import ShiftReduce.Main
import ShiftReduce.Proofs.Engine.Rejection
import ShiftReduce.Proofs.Engine.Termination
import ShiftReduce.Proofs.Grammar.FirstExactness
import ShiftReduce.Tree.Detail
import ShiftReduce.Proofs.Engine.Safety
import ShiftReduce.Proofs.Engine.Progress
import ShiftReduce.Automaton.Worklist
import ShiftReduce.Proofs.Automaton.Worklists
import ShiftReduce.Proofs.Grammar.FollowExactness
import ShiftReduce.Proofs.Automaton.CanonicalCollection
import ShiftReduce.Proofs.Automaton.ViablePrefixes
import ShiftReduce.Proofs.Grammar.RuleOrder
import ShiftReduce.Proofs.Table.Candidates
import ShiftReduce.Proofs.Table.Exactness
import ShiftReduce.Proofs.Engine.Consistency
import ShiftReduce.Grammar.InPlace
import ShiftReduce.Proofs.Grammar.Phases
import ShiftReduce.Grammar.Format
import ShiftReduce.Proofs.Grammar.Loading
import ShiftReduce.Proofs.Grammar.RuleLines
import ShiftReduce.Proofs.Grammar.Renaming
import ShiftReduce.Proofs.Grammar.RenamedGrammars
import ShiftReduce.Proofs.Automaton.RenamedStates
import ShiftReduce.Proofs.Table.RenamedTables
import ShiftReduce.Proofs.Engine.RenamedRuns
import ShiftReduce.Proofs.Engine.DeclarationOrder
import ShiftReduce.Grammar.CycleSearch
import ShiftReduce.Proofs.Grammar.Numbering
import ShiftReduce.Proofs.Grammar.CycleSearches
import ShiftReduce.Proofs.Table.CyclicGrammars
import ShiftReduce.Proofs.Grammar.Conservativity
import ShiftReduce.Proofs.Grammar.Extensions
import ShiftReduce.Grammar.Writing
import ShiftReduce.Proofs.Text.Joined
import ShiftReduce.Proofs.Grammar.Contents
import ShiftReduce.Proofs.Grammar.RoundTrip
import ShiftReduce.Engine.Unguarded
import ShiftReduce.Proofs.Engine.Guard
import ShiftReduce.Search.DepthFirst
import ShiftReduce.Automaton.ClosureSearch
import ShiftReduce.Proofs.Automaton.Closures
import ShiftReduce.Proofs.Grammar.SourceLines
import ShiftReduce.Proofs.Text.Blanks
import ShiftReduce.Proofs.Grammar.ErrorLines
import ShiftReduce.Proofs.Grammar.Layouts
import ShiftReduce.Proofs.Engine.Histories
import ShiftReduce.Calculator.Writing
import ShiftReduce.Proofs.Calculator.Seams
import ShiftReduce.Proofs.Calculator.WrittenTokens
import ShiftReduce.Proofs.Tree.Sexps
import ShiftReduce.Proofs.Tree.Drawings
import ShiftReduce.Proofs.Calculator.LongestMatch
import ShiftReduce.Proofs.Table.Shape
