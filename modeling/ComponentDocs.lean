import ComponentDocs.CommandLine.Arguments
import ComponentDocs.CommandLine.Run
import ComponentDocs.FileTree.Basic
import ComponentDocs.FileTree.Changes
import ComponentDocs.FileTree.Update
import ComponentDocs.FileTree.Walk
import ComponentDocs.Formatter.Command
import ComponentDocs.Glob.Match
import ComponentDocs.Layout.Canonical
import ComponentDocs.Main
import ComponentDocs.Markdown.Block
import ComponentDocs.Markdown.Html
import ComponentDocs.Markdown.Outline
import ComponentDocs.Markdown.Reference
import ComponentDocs.Markdown.Scan
import ComponentDocs.Markdown.TightItem
import ComponentDocs.Number.Double
import ComponentDocs.Path.Basic
import ComponentDocs.Path.Normal
import ComponentDocs.Process.Basic
import ComponentDocs.Process.Edit
import ComponentDocs.Process.Host
import ComponentDocs.Process.Program
import ComponentDocs.Project.Basic
import ComponentDocs.Project.Cycle
import ComponentDocs.Project.Generation
import ComponentDocs.Project.Log
import ComponentDocs.Project.Watch
import ComponentDocs.Proofs.CommandLine.Elsewhere
import ComponentDocs.Proofs.CommandLine.ExitCode
import ComponentDocs.Proofs.CommandLine.Places
import ComponentDocs.Proofs.CommandLine.Shadow
import ComponentDocs.Proofs.FileTree.Anchored
import ComponentDocs.Proofs.FileTree.Descent
import ComponentDocs.Proofs.FileTree.Footprint
import ComponentDocs.Proofs.FileTree.Frame
import ComponentDocs.Proofs.FileTree.Merge
import ComponentDocs.Proofs.FileTree.Moved
import ComponentDocs.Proofs.FileTree.Plain
import ComponentDocs.Proofs.FileTree.Ways
import ComponentDocs.Proofs.Glob.Language
import ComponentDocs.Proofs.Layout.Breaks
import ComponentDocs.Proofs.Layout.Fixed
import ComponentDocs.Proofs.Layout.FixedPoint
import ComponentDocs.Proofs.Layout.Front
import ComponentDocs.Proofs.Layout.HardBreaks
import ComponentDocs.Proofs.Layout.Joined
import ComponentDocs.Proofs.Layout.Misread
import ComponentDocs.Proofs.Layout.Nesting
import ComponentDocs.Proofs.Layout.Placement
import ComponentDocs.Proofs.Layout.Sections
import ComponentDocs.Proofs.Layout.Shape
import ComponentDocs.Proofs.Layout.Titles
import ComponentDocs.Proofs.Layout.Verbatim
import ComponentDocs.Proofs.Markdown.Advance
import ComponentDocs.Proofs.Markdown.Behind
import ComponentDocs.Proofs.Markdown.Boundary
import ComponentDocs.Proofs.Markdown.Closed
import ComponentDocs.Proofs.Markdown.Continuation
import ComponentDocs.Proofs.Markdown.Front
import ComponentDocs.Proofs.Markdown.ItemShift
import ComponentDocs.Proofs.Markdown.Line
import ComponentDocs.Proofs.Markdown.LineTag
import ComponentDocs.Proofs.Markdown.Paragraphs
import ComponentDocs.Proofs.Markdown.Parts
import ComponentDocs.Proofs.Markdown.Places
import ComponentDocs.Proofs.Markdown.Shift
import ComponentDocs.Proofs.Path.Canonical
import ComponentDocs.Proofs.Path.Join
import ComponentDocs.Proofs.Path.Names
import ComponentDocs.Proofs.Path.Normal
import ComponentDocs.Proofs.Process.Exchange
import ComponentDocs.Proofs.Project.Aside
import ComponentDocs.Proofs.Project.Change
import ComponentDocs.Proofs.Project.Cycle
import ComponentDocs.Proofs.Project.Discovery
import ComponentDocs.Proofs.Project.Documents
import ComponentDocs.Proofs.Project.Feedback
import ComponentDocs.Proofs.Project.Frame
import ComponentDocs.Proofs.Project.Incremental
import ComponentDocs.Proofs.Project.Interleaving
import ComponentDocs.Proofs.Project.LastWrite
import ComponentDocs.Proofs.Project.Overlap
import ComponentDocs.Proofs.Project.Removal
import ComponentDocs.Proofs.Project.Settled
import ComponentDocs.Proofs.Project.Supplement
import ComponentDocs.Proofs.Project.Together
import ComponentDocs.Proofs.Settings.Config
import ComponentDocs.Proofs.Settings.Places
import ComponentDocs.Proofs.Settings.Precedence
import ComponentDocs.Proofs.Settings.Validation
import ComponentDocs.Proofs.Stages
import ComponentDocs.Proofs.Text.Basic
import ComponentDocs.Settings.Config
import ComponentDocs.Settings.Layer
import ComponentDocs.Settings.Load
import ComponentDocs.Template.Component
import ComponentDocs.Template.Parse
import ComponentDocs.Template.Scope
import ComponentDocs.Template.Tag
import ComponentDocs.Template.Value
import ComponentDocs.Text.Basic
import ComponentDocs.Text.Invisible
import ComponentDocs.Toml.Parse
import ComponentDocs.Toml.Value
