import TreeMarkup.Main
import TreeMarkup.Proofs.Path.Grammar
import TreeMarkup.Proofs.Path.Text
import TreeMarkup.Proofs.FlatTree.Leaves
import TreeMarkup.Proofs.FlatTree.RoundTrip
import TreeMarkup.Proofs.Path.Conflict
import TreeMarkup.Proofs.FlatTree.Writing
import TreeMarkup.Proofs.Markup.Aliasing
import TreeMarkup.Proofs.Markup.Element
import TreeMarkup.Proofs.Markup.Unfolding
import TreeMarkup.Proofs.Markup.Nesting
import TreeMarkup.Proofs.Markup.Completion
import TreeMarkup.Proofs.Markup.Places
import TreeMarkup.Proofs.Markup.Visible
import TreeMarkup.Proofs.Text.OneLine
import TreeMarkup.Proofs.Markup.Reading
import TreeMarkup.Proofs.Markup.Legible
import TreeMarkup.Proofs.Markup.Trace
import TreeMarkup.Proofs.Markup.Diagnostics
import TreeMarkup.Proofs.Markup.Reports
import TreeMarkup.Proofs.Markup.Outcome
import TreeMarkup.Proofs.Markup.Stability
import TreeMarkup.Proofs.Markup.Height
import TreeMarkup.Proofs.Markup.Layout
import TreeMarkup.Proofs.Markup.Adapter
import TreeMarkup.Proofs.Markup.Ambient
import TreeMarkup.Proofs.Markup.Precedence
import TreeMarkup.Proofs.Registry.Layers
import TreeMarkup.Proofs.Registry.Flattening
import TreeMarkup.Proofs.Registry.Loading
import TreeMarkup.Proofs.Project.Session
import TreeMarkup.Proofs.Project.Compiling
import TreeMarkup.Proofs.FlatTree.Domain
import TreeMarkup.Proofs.Path.Plain
import TreeMarkup.Proofs.FlatTree.Overwriting
import TreeMarkup.Proofs.FlatTree.EntryOrder
import TreeMarkup.Proofs.Order.Least
import TreeMarkup.Proofs.FlatTree.Refusal
import TreeMarkup.Proofs.FlatTree.Renaming
import TreeMarkup.Proofs.FlatTree.Guarded
import TreeMarkup.Proofs.Order.Bytes
import TreeMarkup.Proofs.Registry.Lookup
import TreeMarkup.Proofs.Markup.Growth
import TreeMarkup.Proofs.Markup.Merging
import TreeMarkup.Proofs.Markup.Pruning
import TreeMarkup.Proofs.Markup.Spelling
import TreeMarkup.Proofs.Markup.Isolation
import TreeMarkup.Proofs.Markup.Literals
import TreeMarkup.Proofs.Markup.Omission
