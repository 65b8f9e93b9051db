import ValueAlgebra.Codec.Sink
import ValueAlgebra.Proofs.Grammar.Acceptance
import ValueAlgebra.Proofs.Grammar.Unambiguous
import ValueAlgebra.Proofs.Interning.Runs
import ValueAlgebra.Proofs.RoundTrip.Injective
import ValueAlgebra.Proofs.RoundTrip.Stability
import ValueAlgebra.Proofs.Session.Extensional
import ValueAlgebra.Proofs.Session.Hashing
import ValueAlgebra.Proofs.Session.Identity
import ValueAlgebra.Proofs.Session.Inference
import ValueAlgebra.Proofs.Session.Putting
import ValueAlgebra.Proofs.Session.Relations
import ValueAlgebra.Proofs.Session.Shaped
import ValueAlgebra.Proofs.Session.Typed
import ValueAlgebra.Proofs.Store.Lookups
import ValueAlgebra.Proofs.Store.Merging
import ValueAlgebra.Proofs.Store.Union
import ValueAlgebra.Proofs.Text.Separation
import ValueAlgebra.Proofs.Ty.Laws
import ValueAlgebra.Proofs.Ty.Shape
import ValueAlgebra.Proofs.Writer.Calls
import ValueAlgebra.Proofs.Writer.Extending
import ValueAlgebra.Proofs.Writer.Incremental
import ValueAlgebra.Proofs.Writer.Lifecycle
import ValueAlgebra.Proofs.Writer.Refusals
import ValueAlgebra.Store.Merge
import ValueAlgebra.Ty.Pool
import ValueAlgebra.Proofs.Session.Overloads
import ValueAlgebra.Proofs.Grammar.Depth
import ValueAlgebra.Proofs.Text.Escapes
import ValueAlgebra.Proofs.Grammar.Spacing
import ValueAlgebra.Proofs.Ty.Labels
import ValueAlgebra.Proofs.Session.Workspace
