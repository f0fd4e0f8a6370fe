import Stencil.Artifact.Build
import Stencil.Artifact.Command
import Stencil.Artifact.Library
import Stencil.Artifact.Settings
import Stencil.Artifact.Source
import Stencil.Binding.Index
import Stencil.Binding.Path
import Stencil.Binding.Segment
import Stencil.Decimal.Double
import Stencil.Decimal.Shortest
import Stencil.Document.Basic
import Stencil.Document.Tree
import Stencil.Event
import Stencil.Instance.Basic
import Stencil.Instance.Mount
import Stencil.Instance.Removal
import Stencil.Instance.Update
import Stencil.Json.Basic
import Stencil.Json.Reader
import Stencil.Main
import Stencil.Markup.Entity
import Stencil.Markup.Node
import Stencil.Markup.Token
import Stencil.Markup.Token.Scan
import Stencil.Template.Basic
import Stencil.Template.Catalog
import Stencil.Template.Compile
import Stencil.Template.Script
import Stencil.Template.Vocabulary
import Stencil.Text.Blank
import Stencil.Text.Offset
import Stencil.Text.Quoted
import Stencil.Text.Split
import Stencil.Text.Visible
import Stencil.Proofs.Binding.Calls
import Stencil.Proofs.Binding.Filling
import Stencil.Proofs.Binding.Outline
import Stencil.Proofs.Binding.Reading
import Stencil.Proofs.Binding.Trie
import Stencil.Proofs.Document.Appearance
import Stencil.Proofs.Document.Elements
import Stencil.Proofs.Document.Facets
import Stencil.Proofs.Document.Forest
import Stencil.Proofs.Document.Insertion
import Stencil.Proofs.Document.Links
import Stencil.Proofs.Document.Operations
import Stencil.Proofs.Document.Serializing
import Stencil.Proofs.Instance.Cells
import Stencil.Proofs.Instance.Changes
import Stencil.Proofs.Instance.Dividing
import Stencil.Proofs.Instance.First
import Stencil.Proofs.Instance.Forgetting
import Stencil.Proofs.Instance.Freshness
import Stencil.Proofs.Instance.Identity
import Stencil.Proofs.Instance.Idling
import Stencil.Proofs.Instance.Knowing
import Stencil.Proofs.Instance.Layout
import Stencil.Proofs.Instance.Likeness
import Stencil.Proofs.Instance.Mounting
import Stencil.Proofs.Instance.Reconciling
import Stencil.Proofs.Instance.Removing
import Stencil.Proofs.Instance.Rendering
import Stencil.Proofs.Instance.Row
import Stencil.Proofs.Instance.Shuffling
import Stencil.Proofs.Instance.Sparing
import Stencil.Proofs.Instance.Updating
import Stencil.Proofs.Instance.View
import Stencil.Proofs.Instance.Writing
import Stencil.Proofs.Json.Clear
import Stencil.Proofs.Json.Plain
import Stencil.Proofs.Json.Shuffled
import Stencil.Proofs.Json.Strings
import Stencil.Proofs.Markup.Conventions
import Stencil.Proofs.Markup.Escaping
import Stencil.Proofs.Markup.Faults
import Stencil.Proofs.Markup.Grammar
import Stencil.Proofs.Markup.Layout
import Stencil.Proofs.Markup.Printing
import Stencil.Proofs.Markup.Rendering
import Stencil.Proofs.Markup.Scanning
import Stencil.Proofs.Run.Absorption
import Stencil.Proofs.Run.Dispatch
import Stencil.Proofs.Run.FieldOrder
import Stencil.Proofs.Run.Forgetting
import Stencil.Proofs.Run.Freshness
import Stencil.Proofs.Run.Isolation
import Stencil.Proofs.Run.Order
import Stencil.Proofs.Run.Positions
import Stencil.Proofs.Run.Refusal
import Stencil.Proofs.Run.Removal
import Stencil.Proofs.Run.Rendering
import Stencil.Proofs.Run.Safety
import Stencil.Proofs.Run.Seat
import Stencil.Proofs.Run.Stage
import Stencil.Proofs.Run.Troupe
import Stencil.Proofs.Script.Literals
import Stencil.Proofs.Script.Scanner
import Stencil.Proofs.Script.Splicing
import Stencil.Proofs.Template.Building
import Stencil.Proofs.Template.Drafting
import Stencil.Proofs.Template.Drawing
import Stencil.Proofs.Template.Furnishing
import Stencil.Proofs.Template.Keeping
import Stencil.Proofs.Template.Naming
import Stencil.Proofs.Template.Registering
import Stencil.Proofs.Template.Renaming
import Stencil.Proofs.Template.Rooting
import Stencil.Proofs.Template.Shape
import Stencil.Proofs.Template.WellFormed
import Stencil.Proofs.Binding.Matching
import Stencil.Proofs.Binding.Spelling
import Stencil.Proofs.Script.Lexemes
import Stencil.Proofs.Template.Verdict
import Stencil.Proofs.Script.Tables
import Stencil.Proofs.Script.References
import Stencil.Proofs.Artifact.Remarks
import Stencil.Proofs.Markup.Decoding
import Stencil.Proofs.Template.Numbering
import Stencil.Proofs.Artifact.FileOrder
import Stencil.Proofs.Markup.Cursor
import Stencil.Proofs.Markup.Progress
