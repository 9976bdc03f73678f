import LineScript.Main
import LineScript.Session
import LineScript.Proofs.Evaluation.Frame
import LineScript.Proofs.Evaluation.Rewriting
import LineScript.Proofs.Grammar.Lookahead
import LineScript.Proofs.Grammar.RoundTrip
import LineScript.Proofs.Lexer.LongestMatch
import LineScript.Proofs.Grammar.EarliestError
import LineScript.Proofs.Grammar.Joining
import LineScript.Proofs.Evaluation.Pieces
import LineScript.Proofs.Lexer.Tiling
import LineScript.Proofs.Grammar.LineBreaks
import LineScript.Proofs.Grammar.Headway
import LineScript.Proofs.Grammar.Places
import LineScript.Proofs.Grammar.Layout
import LineScript.Proofs.Evaluation.Layout
import LineScript.Proofs.Evaluation.Lexical
import LineScript.Proofs.Evaluation.Timeless
import LineScript.Proofs.Evaluation.Soundness
import LineScript.Proofs.Evaluation.ScopeGraph
import LineScript.Proofs.Evaluation.Jobs
import LineScript.Proofs.Evaluation.Attribution
import LineScript.Proofs.Evaluation.BuiltIns
import LineScript.Proofs.Evaluation.Instants
import LineScript.Proofs.Evaluation.Rerun
import LineScript.Proofs.Lexer.Writing
import LineScript.Proofs.Lexer.Spelling
import LineScript.Proofs.Grammar.FullParens
import LineScript.Proofs.Grammar.PrintedTree
import LineScript.Proofs.Number.Rounding
import LineScript.Proofs.Number.Scientific
import LineScript.Proofs.Number.Shortest
import LineScript.Proofs.Number.ReadBack
import LineScript.Proofs.Evaluation.CountedLoops
import LineScript.Proofs.Number.Counting
import LineScript.Proofs.Evaluation.IndexingLoop
import LineScript.Proofs.Number.Negation
import LineScript.Proofs.Evaluation.PrintedData
import LineScript.Proofs.Number.Literals
import LineScript.Proofs.Grammar.PrintedReader
import LineScript.Proofs.Grammar.Unambiguous
import LineScript.Proofs.Scopes.History
import LineScript.Proofs.Number.Indexing
