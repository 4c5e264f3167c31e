import TypeCodex.Nibble.Cursor
import TypeCodex.Nibble.Source
import TypeCodex.Proofs.Registry.Interning
import TypeCodex.Proofs.Registry.Layout
import TypeCodex.Proofs.Registry.ReadBack
import TypeCodex.Registry.Outline
import TypeCodex.Scope
import TypeCodex.Wire
import TypeCodex.Proofs.Registry.Answers
import TypeCodex.Proofs.Registry.Stable
import TypeCodex.Proofs.Wire.RoundTrip
import TypeCodex.Proofs.Registry.Atomic
import TypeCodex.Proofs.Outline.Resolved
import TypeCodex.Proofs.Registry.Order
import TypeCodex.Proofs.Registry.Replay
import TypeCodex.Proofs.Packing.Bijection
import TypeCodex.Proofs.Registry.Permutation
import TypeCodex.Proofs.Outline.Length
import TypeCodex.Proofs.Registry.Extent
import TypeCodex.Proofs.Wire.Local
import TypeCodex.Proofs.Nibble.Grammar
import TypeCodex.Proofs.Scope.Run
import TypeCodex.Proofs.Outline.Unambiguous
import TypeCodex.Proofs.Outline.Whole
import TypeCodex.Proofs.Registry.Expansion
import TypeCodex.Proofs.Nibble.Agreement
import TypeCodex.Proofs.Registry.SelfDelimiting
import TypeCodex.Proofs.Nibble.Shortest
import TypeCodex.Proofs.Registry.Canonical
import TypeCodex.Proofs.Registry.Totality
import TypeCodex.Proofs.Nibble.Sequence
import TypeCodex.Proofs.Outline.Elision
import TypeCodex.Proofs.Registry.Elision
import TypeCodex.Proofs.Registry.Nesting
import TypeCodex.Proofs.Registry.Lookups
import TypeCodex.Proofs.Report.History
import TypeCodex.Proofs.Registry.Blame
import TypeCodex.Proofs.Wire.Spellings
import TypeCodex.Proofs.Registry.Placement
import TypeCodex.Proofs.Registry.Reservation
import TypeCodex.Proofs.Registry.Checked
