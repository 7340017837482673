import Clausal.Dimacs.Writer
import Clausal.Builtin.FileSystem
import Clausal.Main
import Clausal.Semantics
import Clausal.Proofs.Satisfaction
import Clausal.Proofs.FirstOccurrences
import Clausal.Proofs.PivotResolvents
import Clausal.Proofs.ResolutionCompleteness
import Clausal.Proofs.Refutation
import Clausal.Proofs.PureLiterals
import Clausal.Proofs.Residual
import Clausal.Proofs.Backtracking
import Clausal.Proofs.Projection
import Clausal.Proofs.LeastModel
import Clausal.Proofs.CanonicalModel
import Clausal.Proofs.LoadedClauses
import Clausal.Proofs.Verdict
import Clausal.Proofs.CallHistory
import Clausal.Proofs.ChunkBorders
import Clausal.Proofs.InputLines
import Clausal.Proofs.LastModel
import Clausal.Proofs.Numerals
import Clausal.Proofs.LitNumbers
import Clausal.Proofs.LineGrammar
import Clausal.Proofs.ListedFormula
import Clausal.Proofs.AcceptedLines
import Clausal.Proofs.AsciiText
import Clausal.Proofs.WordLines
import Clausal.Proofs.WrittenText
import Clausal.Proofs.RoundTrip
import Clausal.Proofs.ResolutionLevels
import Clausal.Proofs.LoadOutcome
import Clausal.Proofs.Exchange
import Clausal.Proofs.ConfigSources
import Clausal.Proofs.ProcessContract
import Clausal.Proofs.WrittenSettings
import Clausal.Proofs.EliminationLevels
import Clausal.Proofs.PropagationFixpoint
import Clausal.Proofs.UnitConfluence
import Clausal.Proofs.RecursiveSearch
import Clausal.Proofs.SearchAccounting
import Clausal.Proofs.FailedLine
import Clausal.Proofs.LineInPlace
import Clausal.Proofs.OversizedTokens
import Clausal.Proofs.ModelImplication
import Clausal.Proofs.AssignmentSlots
import Clausal.Proofs.ClauseSets
import Clausal.Proofs.FormulaEdits
import Clausal.Proofs.LimitedRoom
import Clausal.Proofs.RoomIndependence
import Clausal.Proofs.AssignmentClients
import Clausal.Proofs.ClashingClauses
import Clausal.Proofs.OccurrenceTable
import Clausal.Proofs.PackedLits
