import Typewire.Main
import Typewire.Proofs.Json.Parts
import Typewire.Proofs.Json.Validity
import Typewire.Proofs.Binary64.Rounding
import Typewire.Proofs.Layout.Validity
import Typewire.Proofs.Catalog.Containers
import Typewire.Proofs.Catalog.Describe
import Typewire.Proofs.Catalog.Normalization
import Typewire.Proofs.Catalog.Reading
import Typewire.Proofs.Catalog.Record
import Typewire.Proofs.Catalog.Rewriting
import Typewire.Proofs.Catalog.RoundTrip
import Typewire.Proofs.Catalog.Standard
import Typewire.Proofs.Catalog.Subtype
import Typewire.Proofs.Catalog.Typing
import Typewire.Proofs.Catalog.Writing
import Typewire.Proofs.Codec.Causes
import Typewire.Proofs.Codec.Handing
import Typewire.Proofs.Codec.Inversion
import Typewire.Proofs.Codec.References
import Typewire.Proofs.Codec.RoundTrip
import Typewire.Proofs.Registry.Activity
import Typewire.Proofs.Registry.Bisimulation
import Typewire.Proofs.Registry.Closure
import Typewire.Proofs.Registry.Consumption
import Typewire.Proofs.Registry.Dependencies
import Typewire.Proofs.Registry.Derivation
import Typewire.Proofs.Registry.Frame
import Typewire.Proofs.Registry.Ledger
import Typewire.Proofs.Registry.Links
import Typewire.Proofs.Registry.Normalization
import Typewire.Proofs.Registry.Outcome
import Typewire.Proofs.Registry.Recovery
import Typewire.Proofs.Registry.Reference
import Typewire.Proofs.Registry.Refinement
import Typewire.Proofs.Registry.Renaming
import Typewire.Proofs.Registry.Request
import Typewire.Proofs.Registry.Rollback
import Typewire.Proofs.Registry.RoundTrip
import Typewire.Proofs.Registry.Search
import Typewire.Proofs.Registry.Soundness
import Typewire.Proofs.Registry.Strictness
import Typewire.Proofs.Schema.Accepted
import Typewire.Proofs.Schema.Conformance
import Typewire.Proofs.Schema.Dictionary
import Typewire.Proofs.Schema.Document
import Typewire.Proofs.Schema.Fragment
import Typewire.Proofs.Schema.Outline
import Typewire.Proofs.Schema.Parts
import Typewire.Proofs.Schema.Pass
import Typewire.Proofs.Schema.Progress
import Typewire.Proofs.Schema.Rendering
import Typewire.Proofs.Schema.Session
import Typewire.Proofs.Schema.Strictness
import Typewire.Proofs.Schema.Written
import Typewire.Proofs.Command.Normalize
import Typewire.Proofs.Json.RoundTrip
import Typewire.Proofs.Registry.Machine
import Typewire.Proofs.Registry.Provenance
import Typewire.Proofs.Catalog.Declared
import Typewire.Proofs.Command.Check
import Typewire.Proofs.Registry.Texts
import Typewire.Proofs.Schema.Order
import Typewire.Proofs.Registry.Construction
import Typewire.Proofs.Registry.Termination
import Typewire.Proofs.TypeTerm.RoundTrip
import Typewire.Proofs.Binary64.Value
import Typewire.Proofs.Codec.Integers
import Typewire.Proofs.Codec.Maps
import Typewire.Proofs.Codec.Variants
import Typewire.Proofs.Codec.Failure
import Typewire.Proofs.Registry.Maps
import Typewire.Proofs.Registry.Dispatch
import Typewire.Proofs.Registry.Failure
import Typewire.Proofs.Codec.Rejection
import Typewire.Proofs.Catalog.Registration
import Typewire.Proofs.Registry.Building
import Typewire.Proofs.Registry.Reordering
import Typewire.Proofs.Catalog.Walk
import Typewire.Proofs.TypeScheme.Instantiation
import Typewire.Proofs.Codec.Enumeration
import Typewire.Proofs.Schema.RoundTrip
import Typewire.Proofs.Value.Fields
import Typewire.Proofs.Error.Paths
import Typewire.Proofs.Catalog.FileRoundTrip
