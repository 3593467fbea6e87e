import PropBench.Main
import PropBench.Session.Note
import PropBench.Proofs.Logic.Polynomial
import PropBench.Proofs.Logic.Post
import PropBench.Proofs.Logic.Completeness
import PropBench.Proofs.Symbols.Extension
import PropBench.Proofs.Symbols.Evaluation
import PropBench.Proofs.Session.Reachable
import PropBench.Proofs.Symbols.Composition
import PropBench.Proofs.Session.Adequacy
import PropBench.Proofs.Grammar.Derivation
import PropBench.Proofs.Grammar.Grouping
import PropBench.Proofs.Lexeme.Spelling
import PropBench.Proofs.Grammar.Reader
import PropBench.Proofs.Grammar.Expression
import PropBench.Proofs.Grammar.Statement
import PropBench.Proofs.Source.Parsing
import PropBench.Proofs.Source.Printing
import PropBench.Proofs.Program.Occurrence
import PropBench.Proofs.Symbols.Definition
import PropBench.Proofs.Symbols.WellFormed
import PropBench.Proofs.Session.Atomicity
import PropBench.Proofs.Session.Permanence
import PropBench.Proofs.Session.WellFormed
import PropBench.Proofs.Symbols.Expansion
import PropBench.Proofs.Symbols.Safety
import PropBench.Proofs.Session.Safety
import PropBench.Proofs.Symbols.Depth
import PropBench.Proofs.Session.Depth
import PropBench.Proofs.Grammar.Refusal
import PropBench.Proofs.Grammar.Lookahead
import PropBench.Proofs.Lexeme.Pieces
import PropBench.Proofs.Source.Earliest
import PropBench.Proofs.Source.Composition
import PropBench.Proofs.Grammar.Exhaustion
import PropBench.Proofs.Grammar.Nesting
import PropBench.Proofs.Source.Limit
import PropBench.Proofs.Program.Footprint
import PropBench.Proofs.Session.Halting
import PropBench.Proofs.Session.Journal
import PropBench.Proofs.Symbols.Agreement
import PropBench.Proofs.Session.Independence
import PropBench.Proofs.Logic.Transform
import PropBench.Proofs.Logic.Decision
import PropBench.Proofs.Source.Naming
import PropBench.Proofs.Symbols.Naming
import PropBench.Proofs.Report.Line
import PropBench.Proofs.CommandLine.Refusal
import PropBench.Proofs.Session.Turns
import PropBench.Proofs.CommandLine.Report
import PropBench.Proofs.Grammar.Trace
import PropBench.Proofs.Lexeme.Tiling
import PropBench.Proofs.Source.Trace
import PropBench.Proofs.Grammar.ChainTree
import PropBench.Proofs.Grammar.Precedence
import PropBench.Proofs.Session.Inlining
import PropBench.Proofs.Logic.TruthTable
import PropBench.Proofs.Session.Application
import PropBench.Proofs.Logic.Conflict
import PropBench.Proofs.Symbols.Failure
import PropBench.Proofs.Session.Requirement
import PropBench.Proofs.Source.Expectation
import PropBench.Proofs.Session.Relevance
import PropBench.Proofs.Logic.Sheffer
import PropBench.Proofs.Symbols.Store
import PropBench.Proofs.Symbols.OperatorSet
import PropBench.Proofs.Session.OperatorSet
import PropBench.Proofs.Session.Verdict
import PropBench.Parser.Basic
import PropBench.Parser.Expression
import PropBench.Parser.Report
import PropBench.Proofs.Parser.Expectation
