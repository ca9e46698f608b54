import Parlance.Main
import Parlance.Proofs.Analysis.Accepted
import Parlance.Proofs.Code.Artifact
import Parlance.Proofs.Code.Correctness
import Parlance.Proofs.Machine.Heights
import Parlance.Proofs.Code.Flow
import Parlance.Proofs.Code.Heights
import Parlance.Proofs.Value.Typing
import Parlance.Proofs.Code.Total
import Parlance.Proofs.Code.Points
import Parlance.Proofs.Code.Typing
import Parlance.Proofs.Machine.Sessions
import Parlance.Proofs.Machine.Soundness
import Parlance.Proofs.Optimizer.Labels
import Parlance.Proofs.Analysis.Scoping
import Parlance.Proofs.Analysis.Temporaries
import Parlance.Proofs.BigStep.Agreement
import Parlance.Proofs.BigStep.Closed
import Parlance.Proofs.BigStep.Effects
import Parlance.Proofs.Optimizer.DeadCode
import Parlance.Proofs.Optimizer.Replacement
import Parlance.Proofs.Optimizer.Sharing
import Parlance.Proofs.Token.Coverage
import Parlance.Proofs.Optimizer.Convergence
import Parlance.Proofs.Optimizer.Equivalence
import Parlance.Proofs.Optimizer.Exactness
import Parlance.Proofs.Optimizer.Purity
import Parlance.Proofs.Optimizer.FixedPoints
import Parlance.Proofs.Analysis.Walk
import Parlance.Proofs.Analysis.Resolution
import Parlance.Proofs.Optimizer.Frames
import Parlance.Proofs.Tree.Precedence
import Parlance.Proofs.Tree.Recovery
import Parlance.Proofs.Analysis.ErrorFree
import Parlance.Proofs.Optimizer.Endings
import Parlance.Proofs.Token.Contents
import Parlance.Proofs.Token.Matching
import Parlance.Proofs.Token.Relexing
import Parlance.Proofs.Token.Order
import Parlance.Proofs.Token.Spelling
import Parlance.Proofs.Tree.Ranges
import Parlance.Proofs.Token.Locations
import Parlance.Proofs.Token.Literals
import Parlance.Proofs.Code.Sites
import Parlance.Proofs.Machine.Activations
import Parlance.Proofs.Machine.Assignments
import Parlance.Proofs.Machine.Depths
import Parlance.Proofs.Tree.TypeTexts
import Parlance.Proofs.Tree.RoundTrip
import Parlance.Proofs.Value.Powers
import Parlance.Proofs.Value.IntTexts
import Parlance.Proofs.Code.Detours
import Parlance.Proofs.Machine.Abreast
import Parlance.Proofs.Code.Known
import Parlance.Proofs.Code.Twins
import Parlance.Proofs.Machine.Twins
import Parlance.Proofs.Code.Shortening
import Parlance.Proofs.Optimizer.Names
