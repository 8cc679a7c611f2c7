import LayoutMarkup.Config.Basic
import LayoutMarkup.Config.Load
import LayoutMarkup.Diagnostic.Basic
import LayoutMarkup.Diagnostic.Cause
import LayoutMarkup.Diagnostic.Code
import LayoutMarkup.Document.Basic
import LayoutMarkup.Document.Draft
import LayoutMarkup.Document.Parse
import LayoutMarkup.Document.Validation
import LayoutMarkup.Fault
import LayoutMarkup.Hierarchy.Expansion
import LayoutMarkup.Hierarchy.Selection
import LayoutMarkup.Hierarchy.Tree
import LayoutMarkup.Index.Basic
import LayoutMarkup.Index.Binding
import LayoutMarkup.Index.Entry
import LayoutMarkup.Index.Reference
import LayoutMarkup.OrderedMap
import LayoutMarkup.Proofs.Document.Amending
import LayoutMarkup.Proofs.Document.Asides
import LayoutMarkup.Proofs.Document.Attributes
import LayoutMarkup.Proofs.Document.Carrying
import LayoutMarkup.Proofs.Document.Checking
import LayoutMarkup.Proofs.Document.Closing
import LayoutMarkup.Proofs.Document.Coupling
import LayoutMarkup.Proofs.Document.Drafting
import LayoutMarkup.Proofs.Document.Ending
import LayoutMarkup.Proofs.Document.Geometry
import LayoutMarkup.Proofs.Document.Growing
import LayoutMarkup.Proofs.Document.Locating
import LayoutMarkup.Proofs.Document.Lockstep
import LayoutMarkup.Proofs.Document.Markup
import LayoutMarkup.Proofs.Document.Naming
import LayoutMarkup.Proofs.Document.Nesting
import LayoutMarkup.Proofs.Document.Pointing
import LayoutMarkup.Proofs.Document.Ranging
import LayoutMarkup.Proofs.Document.RoundTrip
import LayoutMarkup.Proofs.Document.StartTags
import LayoutMarkup.Proofs.Document.Typing
import LayoutMarkup.Proofs.Document.Unplaced
import LayoutMarkup.Proofs.Hierarchy.Buds
import LayoutMarkup.Proofs.Hierarchy.Closure
import LayoutMarkup.Proofs.Hierarchy.Contributors
import LayoutMarkup.Proofs.Hierarchy.Cutting
import LayoutMarkup.Proofs.Hierarchy.Expansion
import LayoutMarkup.Proofs.Hierarchy.Freezing
import LayoutMarkup.Proofs.Hierarchy.Growth
import LayoutMarkup.Proofs.Hierarchy.Linked
import LayoutMarkup.Proofs.Hierarchy.Merging
import LayoutMarkup.Proofs.Hierarchy.Outdated
import LayoutMarkup.Proofs.Hierarchy.Precedence
import LayoutMarkup.Proofs.Hierarchy.Reaching
import LayoutMarkup.Proofs.Hierarchy.Repetition
import LayoutMarkup.Proofs.Hierarchy.Settling
import LayoutMarkup.Proofs.Hierarchy.Unfolding
import LayoutMarkup.Proofs.Index.Accounting
import LayoutMarkup.Proofs.Index.Apart
import LayoutMarkup.Proofs.Index.Arena
import LayoutMarkup.Proofs.Index.Confining
import LayoutMarkup.Proofs.Index.Faultless
import LayoutMarkup.Proofs.Index.Founding
import LayoutMarkup.Proofs.Index.History
import LayoutMarkup.Proofs.Index.Ledger
import LayoutMarkup.Proofs.Index.Listing
import LayoutMarkup.Proofs.Index.Numbering
import LayoutMarkup.Proofs.Index.Outline
import LayoutMarkup.Proofs.Index.Placement
import LayoutMarkup.Proofs.Index.Reading
import LayoutMarkup.Proofs.Index.References
import LayoutMarkup.Proofs.Index.Slots
import LayoutMarkup.Proofs.Index.Soundness
import LayoutMarkup.Proofs.Index.Steps
import LayoutMarkup.Proofs.Index.Tenure
import LayoutMarkup.Proofs.Index.Tree
import LayoutMarkup.Proofs.Index.Walk
import LayoutMarkup.Proofs.OrderedMap
import LayoutMarkup.Proofs.Schema.Issuing
import LayoutMarkup.Proofs.Selector.Grammar
import LayoutMarkup.Proofs.Selector.Reading
import LayoutMarkup.Proofs.Selector.Refusal
import LayoutMarkup.Proofs.Selector.Rendering
import LayoutMarkup.Proofs.Token.Assigning
import LayoutMarkup.Proofs.Token.Canonical
import LayoutMarkup.Proofs.Token.Progress
import LayoutMarkup.Proofs.Token.Stability
import LayoutMarkup.Proofs.Token.Succession
import LayoutMarkup.Proofs.Token.Tiling
import LayoutMarkup.Proofs.Workspace.Consistency
import LayoutMarkup.Proofs.Workspace.History
import LayoutMarkup.Proofs.Workspace.Spelling
import LayoutMarkup.Schema.Assembly
import LayoutMarkup.Schema.Basic
import LayoutMarkup.Schema.Layout
import LayoutMarkup.Selector.Basic
import LayoutMarkup.Selector.Parse
import LayoutMarkup.Text.Blank
import LayoutMarkup.Text.Letter
import LayoutMarkup.Text.Name
import LayoutMarkup.Text.Numeral
import LayoutMarkup.Text.Ranges
import LayoutMarkup.Text.Span
import LayoutMarkup.Token.Basic
import LayoutMarkup.Token.Scanner
import LayoutMarkup.Toml.Parse
import LayoutMarkup.Toml.Quoted
import LayoutMarkup.Toml.Scalar
import LayoutMarkup.Toml.Value
import LayoutMarkup.Workspace.Basic
import LayoutMarkup.Workspace.Folder
