import Offside.Frontend.Basic
import Offside.Proofs.BlankLines
import Offside.Proofs.BlockBalance
import Offside.Proofs.BlockColumns
import Offside.Proofs.BracketLayout
import Offside.Proofs.CaptureChains
import Offside.Proofs.ClosureHeaders
import Offside.Proofs.ErrorPlaces
import Offside.Proofs.ExprRoundTrip
import Offside.Proofs.FileReading
import Offside.Proofs.FinalLineBreak
import Offside.Proofs.IndentWidths
import Offside.Proofs.LineBreakStyle
import Offside.Proofs.LineMarks
import Offside.Proofs.LongestLexeme
import Offside.Proofs.MatchingScopes
import Offside.Proofs.Nesting
import Offside.Proofs.OpenProductions
import Offside.Proofs.PlainCursor
import Offside.Proofs.PulledItems
import Offside.Proofs.ScopeMirror
import Offside.Proofs.ScopePaths
import Offside.Proofs.SourceTiling
import Offside.Proofs.SpelledText
import Offside.Proofs.StmtOrder
import Offside.Proofs.StrictNames
import Offside.Proofs.TokenEnds
import Offside.Proofs.Unrolling
import Offside.Proofs.VisitAndEdit
import Offside.Tree.Trace
