import JsonPipe.Proofs.Run.Interception
import JsonPipe.Proofs.Run.JsonProgram
import JsonPipe.Proofs.Run.Presets
import JsonPipe.Proofs.Run.UpdateRead
import JsonPipe.Proofs.Value.CopyAvoidance
import JsonPipe.Proofs.Value.TotalOrder
import JsonPipe.Proofs.Source.RoundTrip
import JsonPipe.Proofs.Source.Safety
import JsonPipe.Proofs.Source.GrammarProgress
import JsonPipe.Source.Region
import JsonPipe.Proofs.Source.Mirrors
import JsonPipe.Proofs.Source.Seam
import JsonPipe.Proofs.Source.SeamLiteral
import JsonPipe.Proofs.Source.SeamGrammar
import JsonPipe.Proofs.Source.Trivia
import JsonPipe.Proofs.Source.Composition
import JsonPipe.Proofs.Source.OperatorTable
import JsonPipe.Proofs.Run.Parentheses
import JsonPipe.Proofs.Run.Sessions
import JsonPipe.Proofs.Run.KeyedUpdate
import JsonPipe.Proofs.Source.Location
import JsonPipe.Proofs.Source.GroupAccess
import JsonPipe.Proofs.Run.RowCount
import JsonPipe.Proofs.Run.CompoundAssignment
import JsonPipe.Proofs.Run.Chains
import JsonPipe.Proofs.Run.KeyPaths
import JsonPipe.Proofs.Value.Provenance
import JsonPipe.Proofs.Run.Conditionals
import JsonPipe.Proofs.Run.AccessPaths
import JsonPipe.Proofs.Run.Slices
import JsonPipe.Proofs.Run.Constructors
import JsonPipe.Proofs.Run.Limits
import JsonPipe.Proofs.Run.Border
import JsonPipe.Proofs.Run.Rendering
import JsonPipe.Proofs.Value.Addition
import JsonPipe.Proofs.Value.Division
import JsonPipe.Proofs.Source.Surrogates
import JsonPipe.Proofs.Run.Respelling
