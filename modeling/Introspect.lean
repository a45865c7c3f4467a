import Introspect.Main
import Introspect.Layout.Describe
import Introspect.Image.Walk
import Introspect.Proofs.Action
import Introspect.Proofs.Heap.Arena
import Introspect.Proofs.Heap.Bytes
import Introspect.Proofs.Heap.Growth
import Introspect.Proofs.Heap.Words
import Introspect.Proofs.Heap.Flat
import Introspect.Proofs.Layout.Distinct
import Introspect.Proofs.Registry.History
import Introspect.Proofs.Catalog
import Introspect.Proofs.Allocator.Reachable
import Introspect.Proofs.Allocator.Resolve
import Introspect.Proofs.Duplicate.Pieces
import Introspect.Proofs.Duplicate.Frame
import Introspect.Proofs.Duplicate.Graph
import Introspect.Proofs.Duplicate.Progress
import Introspect.Proofs.Duplicate.Steps
import Introspect.Proofs.Duplicate.Runs
import Introspect.Proofs.Duplicate.Isomorphism
import Introspect.Proofs.Duplicate.Frontier
import Introspect.Proofs.Allocator.Binding
import Introspect.Proofs.Allocator.Construction
import Introspect.Proofs.Registry.Reverse
import Introspect.Proofs.Allocator.Fields
import Introspect.Proofs.Registry.Lookup
import Introspect.Proofs.Linkage.RoundTrip
import Introspect.Proofs.Linkage.Overrun
import Introspect.Proofs.Linkage.Language
import Introspect.Proofs.Image.Truncation
import Introspect.Proofs.Image.RoundTrip
import Introspect.Proofs.Registry.Unordered
import Introspect.Proofs.Registry.Indexing
import Introspect.Proofs.Layout.Aligned
import Introspect.Proofs.Allocator.Vtables
import Introspect.Proofs.Heap.Seams
import Introspect.Proofs.Heap.Requests
import Introspect.Proofs.Heap.Mutation
import Introspect.Proofs.Allocator.Failure
import Introspect.Proofs.Duplicate.Accounting
import Introspect.Proofs.Registry.OneByOne
import Introspect.Proofs.Registry.Overloads
import Introspect.Proofs.Layout.Substitution
import Introspect.Proofs.Mapping.Line
import Introspect.Proofs.Address.Align
import Introspect.Proofs.Image.Sections
import Introspect.Proofs.Image.Entries
import Introspect.Proofs.Mapping.Lines
import Introspect.Proofs.Layout.Copiable
import Introspect.Proofs.Duplicate.Handles
