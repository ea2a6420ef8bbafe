import TypedConfig.Bind.Typed
import TypedConfig.Name.Dashed
import TypedConfig.Name.Order
import TypedConfig.Name.Respelling
import TypedConfig.Name.Window
import TypedConfig.Source.NameTest
import TypedConfig.Proofs.Bind.Run
import TypedConfig.Proofs.Name.Built
import TypedConfig.Proofs.Bind.Congruence
import TypedConfig.Proofs.Bind.Leftovers
import TypedConfig.Proofs.Source.Entries
import TypedConfig.Proofs.Bind.Items
import TypedConfig.Proofs.Bind.Overlay
import TypedConfig.Proofs.Shape.Fits
import TypedConfig.Proofs.Bind.Soundness
import TypedConfig.Proofs.Bind.Pruning
import TypedConfig.Proofs.Source.Barren
import TypedConfig.Proofs.Bind.Barren
import TypedConfig.Proofs.Bind.Frame
import TypedConfig.Proofs.Bind.Relocation
import TypedConfig.Proofs.Name.Trimmed
import TypedConfig.Proofs.Value.Regular
import TypedConfig.Proofs.Text.Ascii
import TypedConfig.Proofs.Number.Numeral
import TypedConfig.Proofs.Conversion
import TypedConfig.Proofs.Bind.Steady
import TypedConfig.Proofs.Bind.Rebinding
import TypedConfig.Proofs.Name.Spelling
import TypedConfig.Proofs.Name.Order
import TypedConfig.Proofs.Name.Kept
import TypedConfig.Proofs.Name.Shortcut
import TypedConfig.Proofs.Name.Agreement
import TypedConfig.Proofs.Name.Ancestry
import TypedConfig.Proofs.Name.Grammar
import TypedConfig.Proofs.Name.Printed
import TypedConfig.Proofs.Name.RoundTrip
import TypedConfig.Proofs.Name.Operations
import TypedConfig.Proofs.Name.Adapted
import TypedConfig.Proofs.Name.Segments
import TypedConfig.Proofs.Name.Words
import TypedConfig.Proofs.Name.Rejected
import TypedConfig.Proofs.Name.Reread
import TypedConfig.Proofs.Name.Dashed
import TypedConfig.Proofs.Source.Aliases
import TypedConfig.Proofs.Source.Views
import TypedConfig.Proofs.Source.Sightings
import TypedConfig.Proofs.Bind.Locality
import TypedConfig.Proofs.Bind.DepthLimit
import TypedConfig.Proofs.Bind.Invariants
import TypedConfig.Proofs.Bind.Lookups
import TypedConfig.Proofs.Shape.Display
import TypedConfig.Proofs.Source.Reach
import TypedConfig.Proofs.Bind.Recovery
import TypedConfig.Proofs.Bind.Traced
import TypedConfig.Proofs.Bind.Termination
import TypedConfig.Proofs.Source.Writes
import TypedConfig.Proofs.Source.Copies
import TypedConfig.Proofs.Bind.Respelling
import TypedConfig.Proofs.Source.Bracketed
import TypedConfig.Proofs.Bind.Spread
import TypedConfig.Proofs.Reordered
import TypedConfig.Proofs.Bind.Memoryless
import TypedConfig.Proofs.Bind.FieldOrder
import TypedConfig.Proofs.Bind.Construction
import TypedConfig.Proofs.Bind.MemberNames
import TypedConfig.Proofs.Bind.IgnoredLeftovers
import TypedConfig.Proofs.Bind.ItemLoop
import TypedConfig.Proofs.Bind.Probing
import TypedConfig.Proofs.Bind.Gaps
import TypedConfig.Proofs.Bind.MergeTable
import TypedConfig.Proofs.Text.Split
import TypedConfig.Proofs.Bind.Delimited
import TypedConfig.Proofs.Sorted
import TypedConfig.Proofs.Value.Shuffled
import TypedConfig.Proofs.Value.Json
import TypedConfig.Proofs.Name.Numbered
import TypedConfig.Proofs.Name.Spans
