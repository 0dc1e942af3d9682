import Reshape.Json.Interchange
import Reshape.Main
import Reshape.CommandLine.FileTree
import Reshape.Proofs.Transform.Integrity
import Reshape.Proofs.Transform.ShortCircuit
import Reshape.Proofs.Transform.DeepMerging
import Reshape.Proofs.Transform.RootGuard
import Reshape.Proofs.Number.Rounding
import Reshape.Proofs.Json.Grammar
import Reshape.Proofs.Json.Tokens
import Reshape.Proofs.Json.Parsing
import Reshape.Proofs.Json.RoundTrip
import Reshape.Proofs.Json.Likeness
import Reshape.Proofs.Document.Likeness
import Reshape.Proofs.Transform.Likeness
import Reshape.Proofs.Transform.Independence
import Reshape.Proofs.Document.Contents
import Reshape.Proofs.Transform.Locality
import Reshape.Proofs.Json.Updating
import Reshape.Proofs.Document.Refinement
import Reshape.Proofs.Transform.ByPath
import Reshape.Proofs.Json.Placing
import Reshape.Proofs.Transform.Diagnostics
import Reshape.Proofs.Transform.Verdict
import Reshape.Proofs.Transform.Wholesale
import Reshape.Proofs.Json.Exchange
import Reshape.Proofs.Transform.Matches
import Reshape.Proofs.Transform.Pruning
import Reshape.Proofs.Transform.Substitution
import Reshape.Proofs.Transform.Overtaking
import Reshape.Proofs.Transform.Attributes
import Reshape.Proofs.Transform.Precedence
import Reshape.Proofs.Path.Finds
import Reshape.Proofs.Document.Querying
import Reshape.Proofs.Path.Normalizing
import Reshape.Proofs.Document.NamePaths
import Reshape.Proofs.Transform.RenamingPairs
import Reshape.Proofs.Transform.Repeating
import Reshape.Proofs.Document.Positions
import Reshape.Proofs.Json.Viable
import Reshape.Proofs.Transform.Rearranging
import Reshape.Proofs.Transform.InTurn
import Reshape.Proofs.Transform.NameLists
import Reshape.Proofs.Text.Prefixes
import Reshape.Proofs.Path.Rounds
import Reshape.Proofs.Document.Copying
import Reshape.Proofs.Document.Allocating
import Reshape.Proofs.CommandLine.Modes
import Reshape.Proofs.Path.Patterns
import Reshape.Proofs.Json.Reports
