import YaccGrammar.Main
import YaccGrammar.Proofs.Analysis.Derivation
import YaccGrammar.Proofs.Analysis.Nullable
import YaccGrammar.Proofs.Analysis.FirstSet
import YaccGrammar.Proofs.Symbol.Sorted
import YaccGrammar.Proofs.Text.ByteOrder
import YaccGrammar.Proofs.Symbol.Intern
import YaccGrammar.Proofs.Analysis.FirstNames
import YaccGrammar.Proofs.Reading.Agreement
import YaccGrammar.Proofs.Reading.Alternatives
import YaccGrammar.Proofs.Reading.Document
import YaccGrammar.Proofs.Description.Basic
import YaccGrammar.Proofs.Description.Recording
import YaccGrammar.Proofs.Description.RoundTrip
import YaccGrammar.Proofs.Reading.Parts
import YaccGrammar.Proofs.Reading.Amend
import YaccGrammar.Proofs.Reading.Recovery
import YaccGrammar.Proofs.Text.Gap
import YaccGrammar.Proofs.Text.Pieces
import YaccGrammar.Proofs.Text.Lossless
import YaccGrammar.Proofs.Text.Scanner
import YaccGrammar.Proofs.Text.Prefix
import YaccGrammar.Proofs.Text.CodeBody
import YaccGrammar.Proofs.Text.TokenShape
import YaccGrammar.Proofs.Reading.Trailer
import YaccGrammar.Proofs.Syntax.Spelling
import YaccGrammar.Proofs.Syntax.Step
import YaccGrammar.Proofs.Syntax.Silence
import YaccGrammar.Proofs.Syntax.Acceptance
import YaccGrammar.Proofs.Syntax.Derivation
import YaccGrammar.Proofs.Reading.Effect
import YaccGrammar.Proofs.Reading.Semicolon
import YaccGrammar.Proofs.Reading.Ending
import YaccGrammar.Proofs.Reading.Outcome
import YaccGrammar.Proofs.Reading.Layout
import YaccGrammar.Proofs.Reading.Lines
import YaccGrammar.Guarded.Grammar
import YaccGrammar.Proofs.Guarded.Grammar
import YaccGrammar.Guarded.Reading
import YaccGrammar.Proofs.Guarded.Reading
import YaccGrammar.Guarded.Analysis
import YaccGrammar.Guarded.Report
import YaccGrammar.Proofs.Guarded.Analysis
import YaccGrammar.Proofs.Guarded.Report
import YaccGrammar.Proofs.Reading.Chain
import YaccGrammar.Proofs.Guarded.Pipeline
import YaccGrammar.Proofs.Reading.WellFormed
import YaccGrammar.Proofs.Reading.Change
import YaccGrammar.Proofs.Reading.Growth
import YaccGrammar.Proofs.Reading.Closing
import YaccGrammar.Proofs.Analysis.Congruence
import YaccGrammar.Proofs.Syntax.Repeats
import YaccGrammar.Proofs.Syntax.Section
import YaccGrammar.Proofs.Syntax.Division
import YaccGrammar.Proofs.Reading.Meaning
import YaccGrammar.Proofs.Syntax.Equivalence
import YaccGrammar.Proofs.Syntax.Names
import YaccGrammar.Proofs.Path
import YaccGrammar.Proofs.FileSystem
import YaccGrammar.Proofs.CommandLine
import YaccGrammar.Proofs.Program
import YaccGrammar.Proofs.DefaultReport
import YaccGrammar.Proofs.Reading.Reports
import YaccGrammar.Proofs.Reading.Declarations
import YaccGrammar.Proofs.Reading.DeclaredSymbols
import YaccGrammar.Proofs.Text.CutOff
import YaccGrammar.Proofs.Text.Failure
import YaccGrammar.Proofs.Reading.FailureLine
import YaccGrammar.BitSet.Cursor
import YaccGrammar.Proofs.BitSet.Cursor
import YaccGrammar.Proofs.BitSet.History
import YaccGrammar.Proofs.Symbol.Consistent
import YaccGrammar.Proofs.Symbol.History
import YaccGrammar.Proofs.Symbol.View
import YaccGrammar.Proofs.Text.Placement
import YaccGrammar.Proofs.Reading.Sources
import YaccGrammar.Proofs.Reading.RealLines
import YaccGrammar.Proofs.Analysis.Frame
import YaccGrammar.Analysis.Scratch
import YaccGrammar.Proofs.Analysis.Room
import YaccGrammar.Proofs.Analysis.Scratch
import YaccGrammar.Proofs.Analysis.Stable
import YaccGrammar.Proofs.Grammar.Chains
import YaccGrammar.Proofs.Grammar.Undefined
import YaccGrammar.Proofs.Analysis.Termination
import YaccGrammar.Proofs.Analysis.LeftCorner
import YaccGrammar.Proofs.Grammar.Positions
import YaccGrammar.Proofs.Grammar.Reanalysis
import YaccGrammar.Proofs.Report.Listing
import YaccGrammar.Proofs.Report.ReadBack
import YaccGrammar.Proofs.Reading.Context
import YaccGrammar.Proofs.Symbol.Kind
import YaccGrammar.Proofs.ReportName
import YaccGrammar.Proofs.Report.Header
import YaccGrammar.Proofs.Text.Turns
import YaccGrammar.Proofs.Text.Progress
import YaccGrammar.Proofs.Reading.Rounds
