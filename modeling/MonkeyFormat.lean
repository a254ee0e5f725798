import MonkeyFormat.Layout.Registry
import MonkeyFormat.Main
import MonkeyFormat.Proofs.Effects
import MonkeyFormat.Proofs.Classes
import MonkeyFormat.Proofs.Explicit
import MonkeyFormat.Proofs.Ordinary
import MonkeyFormat.Proofs.Operations
import MonkeyFormat.Proofs.OperatorNesting
import MonkeyFormat.Proofs.Climbing
import MonkeyFormat.Proofs.ParsedShape
import MonkeyFormat.Proofs.TokenPlaces
import MonkeyFormat.Proofs.Positions
import MonkeyFormat.Proofs.Tiling
import MonkeyFormat.Proofs.SpanNesting
import MonkeyFormat.Proofs.ParsedSpans
import MonkeyFormat.Proofs.ClosingAngles
import MonkeyFormat.Proofs.RegroupedTrees
import MonkeyFormat.Proofs.Outcomes
import MonkeyFormat.Proofs.Traces
import MonkeyFormat.Proofs.Progress
import MonkeyFormat.Proofs.Consumption
import MonkeyFormat.Proofs.ParsedOperands
import MonkeyFormat.Proofs.Failures
import MonkeyFormat.Proofs.Advance
import MonkeyFormat.Proofs.AlikeParses
import MonkeyFormat.Proofs.AlikeSources
import MonkeyFormat.Proofs.Wrapping
import MonkeyFormat.Proofs.Settled
import MonkeyFormat.Proofs.Neighbours
import MonkeyFormat.Proofs.Canonical
import MonkeyFormat.Proofs.Exchange
import MonkeyFormat.Proofs.BlankLines
import MonkeyFormat.Proofs.Structure
import MonkeyFormat.Proofs.CommentsKept
import MonkeyFormat.Proofs.DeclaredTypes
import MonkeyFormat.Proofs.Turns
import MonkeyFormat.Proofs.TextKept
import MonkeyFormat.Proofs.FlatGroups
import MonkeyFormat.Proofs.LineEnds
import MonkeyFormat.Proofs.Respacing
import MonkeyFormat.Proofs.ExactNumbers
import MonkeyFormat.Proofs.WordWrap
import MonkeyFormat.Proofs.ForcedBreaks
import MonkeyFormat.Proofs.Batch
