import Stencil.Proofs.Field.Form
import Stencil.Run.Journal
import Stencil.Run.Template
import Stencil.Value.Key
import Stencil.Proofs.Field.Reading
import Stencil.Proofs.Field.Unambiguous
import Stencil.Proofs.Tree.Limits
import Stencil.Proofs.Tree.Copy
import Stencil.Proofs.Tree.Printing
import Stencil.Proofs.Template.Append
import Stencil.Proofs.Field.Resolved
import Stencil.Proofs.Registry.Counts
import Stencil.Proofs.Template.Resolved
import Stencil.Proofs.Field.Canonical
import Stencil.Proofs.Template.Normal
import Stencil.Proofs.Template.Actions
import Stencil.Proofs.Template.Addressing
import Stencil.Proofs.Registry.Failures
import Stencil.Proofs.Template.Failures
import Stencil.Proofs.Registry.History
import Stencil.Proofs.Number.Range
import Stencil.Proofs.Registry.Standard
import Stencil.Proofs.Registry.Layout
import Stencil.Proofs.Registry.Verdict
import Stencil.Proofs.Template.Unaddressed
import Stencil.Proofs.Field.Lookahead
import Stencil.Proofs.Field.Faults
import Stencil.Proofs.Registry.Unplaced
import Stencil.Proofs.Template.Walk
import Stencil.Proofs.Template.Scan
import Stencil.Proofs.Template.Dispatch
import Stencil.Proofs.Template.Records
import Stencil.Proofs.Tree.Depth
import Stencil.Proofs.Tree.Joined
import Stencil.Proofs.Tree.Entries
import Stencil.Proofs.Number.Numeral
import Stencil.Proofs.Registry.Integers
import Stencil.Proofs.Number.Nearest
import Stencil.Proofs.Number.Rounding
import Stencil.Proofs.Registry.Capitals
import Stencil.Proofs.Registry.OutOfRange
import Stencil.Proofs.Registry.Rounded
import Stencil.Proofs.Template.Unusable
import Stencil.Proofs.Registry.Quoted
import Stencil.Proofs.Tree.Tags
import Stencil.Proofs.Number.General
import Stencil.Proofs.Registry.General
import Stencil.Proofs.Number.Neighbours
import Stencil.Proofs.Number.Shortest
import Stencil.Proofs.Registry.Shortest
import Stencil.Proofs.Field.Described
