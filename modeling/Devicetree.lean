import Devicetree.Text.Position
import Devicetree.Text.Span
import Devicetree.Text.Place
import Devicetree.Text.Blank
import Devicetree.Numeral
import Devicetree.Table
import Devicetree.Diagnostic
import Devicetree.Token.Basic
import Devicetree.Token.Lexer
import Devicetree.Source.Name
import Devicetree.Source.Statement
import Devicetree.Source.Numbering
import Devicetree.Source.Element
import Devicetree.Source.Phrase
import Devicetree.Source.Parser
import Devicetree.Tree.Node
import Devicetree.Tree.Basic
import Devicetree.Tree.Render
import Devicetree.Linkage.Issue
import Devicetree.Linkage.Action
import Devicetree.Linkage.Pass
import Devicetree.Linkage.Basic
import Devicetree.Linkage.Query
import Devicetree.Linkage.Visibility
import Devicetree.Workspace.SourcePath
import Devicetree.Workspace.Registry
import Devicetree.Workspace.Store
import Devicetree.Workspace.Error
import Devicetree.Workspace.Include
import Devicetree.Workspace.Walk
import Devicetree.Config.Settings
import Devicetree.Workspace.Basic
import Devicetree.Report
import Devicetree.Workspace.FileTree
import Devicetree.Config.Number
import Devicetree.Config.Moment
import Devicetree.Config.Toml
import Devicetree.Config.Reader
import Devicetree.Config.Load
import Devicetree.Command.Arguments
import Devicetree.Command.Run
import Devicetree.Workspace.Snapshot
import Devicetree.Command.LogLevel
import Devicetree.Main
import Devicetree.Proofs.Tree.Access
import Devicetree.Proofs.Tree.WellFormed
import Devicetree.Proofs.Tree.Ancestry
import Devicetree.Proofs.Linkage.Outline
import Devicetree.Proofs.Linkage.Sound
import Devicetree.Proofs.Linkage.LiveLabels
import Devicetree.Proofs.Source.Numbering
import Devicetree.Proofs.Source.Placement
import Devicetree.Proofs.Linkage.Growth
import Devicetree.Proofs.Linkage.History
import Devicetree.Proofs.Linkage.Recall
import Devicetree.Proofs.Linkage.Past
import Devicetree.Proofs.Overlay.Basic
import Devicetree.Proofs.Overlay.View
import Devicetree.Proofs.Overlay.Refinement
import Devicetree.Proofs.Source.References
import Devicetree.Proofs.Linkage.Ledger
import Devicetree.Proofs.Linkage.Pending
import Devicetree.Proofs.Linkage.Rooted
import Devicetree.Proofs.Linkage.Tally
import Devicetree.Proofs.Linkage.Accounts
import Devicetree.Proofs.Linkage.Dangling
import Devicetree.Proofs.Linkage.LastBound
import Devicetree.Proofs.Linkage.AppendOnly
import Devicetree.Proofs.Linkage.Turns
import Devicetree.Proofs.Linkage.Ownership
import Devicetree.Proofs.Linkage.Provenance
import Devicetree.Proofs.Source.Name
import Devicetree.Proofs.Source.Reading
import Devicetree.Proofs.Source.Spelling
import Devicetree.Proofs.Linkage.Paths
import Devicetree.Proofs.Source.Form
import Devicetree.Proofs.Source.Grammar
import Devicetree.Proofs.Source.Exact
import Devicetree.Proofs.Source.Recognition
import Devicetree.Proofs.Source.Damage
import Devicetree.Proofs.Source.Uniform
import Devicetree.Proofs.Workspace.Inclusion
import Devicetree.Proofs.Workspace.Depth
import Devicetree.Proofs.Workspace.Postorder
import Devicetree.Proofs.Source.Lexical
import Devicetree.Proofs.Token.Lexing
import Devicetree.Proofs.Source.Display
import Devicetree.Proofs.Overlay.Source
import Devicetree.Proofs.Overlay.Render
import Devicetree.Proofs.Linkage.Dump
import Devicetree.Proofs.Workspace.Moves
import Devicetree.Proofs.Workspace.Steps
import Devicetree.Proofs.Workspace.Texts
import Devicetree.Proofs.Workspace.Coherence
import Devicetree.Proofs.Text.Boundary
import Devicetree.Proofs.Token.Verbatim
import Devicetree.Proofs.Source.Segments
import Devicetree.Proofs.Source.Layout
import Devicetree.Proofs.Source.Elements
import Devicetree.Proofs.Token.Faults
import Devicetree.Proofs.Token.Tiling
import Devicetree.Proofs.Source.Covering
import Devicetree.Proofs.Linkage.Deepest
import Devicetree.Proofs.Linkage.Conflicts
import Devicetree.Proofs.Linkage.LabelConflicts
import Devicetree.Proofs.Linkage.Duplicates
import Devicetree.Proofs.Linkage.Merging
import Devicetree.Proofs.Source.ReadBack
import Devicetree.Proofs.Linkage.PathsAtCursor
import Devicetree.Proofs.Linkage.Isolation
import Devicetree.Proofs.Linkage.Notes
import Devicetree.Proofs.Linkage.BackReferences
import Devicetree.Proofs.Source.ReportSpans
import Devicetree.Proofs.Source.IncludePaths
import Devicetree.Proofs.Linkage.Liveness
import Devicetree.Proofs.Source.ByteStrings
import Devicetree.Proofs.Source.Numerals
import Devicetree.Proofs.Source.UnitNames
import Devicetree.Proofs.Source.Renumbering
import Devicetree.Proofs.Text.LineIndex
