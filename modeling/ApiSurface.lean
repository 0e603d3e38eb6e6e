import ApiSurface.Command
import ApiSurface.Entity
import ApiSurface.Fault
import ApiSurface.Json.Basic
import ApiSurface.Json.Binary64
import ApiSurface.Json.Order
import ApiSurface.Json.Reader
import ApiSurface.Json.Writer
import ApiSurface.Main
import ApiSurface.Module.Boundary
import ApiSurface.Module.Exports
import ApiSurface.Module.Positions
import ApiSurface.Module.Specifier
import ApiSurface.Module.Wildcards
import ApiSurface.Node
import ApiSurface.Path
import ApiSurface.Program.Basic
import ApiSurface.Program.Build
import ApiSurface.Program.Edit
import ApiSurface.Proofs.Network
import ApiSurface.Proofs.Outcome
import ApiSurface.Proofs.Tables
import ApiSurface.Reference
import ApiSurface.Report.Page
import ApiSurface.Report.View
import ApiSurface.Snapshot.File
import ApiSurface.Snapshot.Load
import ApiSurface.Sorting
import ApiSurface.Sorting.Merge
import ApiSurface.Sorting.Run
import ApiSurface.Sorting.Search
import ApiSurface.Surface
import ApiSurface.Symbol
import ApiSurface.Table
import ApiSurface.Text.Hidden
import ApiSurface.Text.Integer
import ApiSurface.Text.Markup
import ApiSurface.Text.Quoted
import ApiSurface.Text.UpperCase
import ApiSurface.Text.Utf8
import ApiSurface.Tool
import ApiSurface.Walk
import ApiSurface.Proofs.Exposure
import ApiSurface.Proofs.Trees
import ApiSurface.Proofs.WellFormed
import ApiSurface.Proofs.Loading
import ApiSurface.Proofs.Lookups
import ApiSurface.Proofs.Dependencies
import ApiSurface.Proofs.Documents
import ApiSurface.Proofs.Edits
import ApiSurface.Proofs.Judging
import ApiSurface.Proofs.Acceptance
import ApiSurface.Proofs.Sorting
import ApiSurface.Proofs.Trails
import ApiSurface.Proofs.Collection
import ApiSurface.Proofs.Accounting
import ApiSurface.Proofs.Faults
import ApiSurface.Proofs.Branches
import ApiSurface.Proofs.Placement
import ApiSurface.Proofs.Libraries
import ApiSurface.Proofs.Stability
import ApiSurface.Proofs.Comparison
import ApiSurface.Proofs.Ordering
import ApiSurface.Proofs.Attachment
import ApiSurface.Proofs.Agreement
import ApiSurface.Proofs.Parallel
import ApiSurface.Proofs.Permutation
import ApiSurface.Proofs.Naming
import ApiSurface.Proofs.Displacement
import ApiSurface.Proofs.Drawing
import ApiSurface.Proofs.Rejection
import ApiSurface.Proofs.Warnings
import ApiSurface.Proofs.Aliases
import ApiSurface.Proofs.Closure
import ApiSurface.Proofs.Anchors
import ApiSurface.Proofs.Unfolding
import ApiSurface.Proofs.Indexes
import ApiSurface.Proofs.Pruning
import ApiSurface.Proofs.Reordering
import ApiSurface.Proofs.Visits
import ApiSurface.Proofs.Registration
import ApiSurface.Proofs.Ownership
import ApiSurface.Proofs.Cutting
import ApiSurface.Proofs.Markup
import ApiSurface.Proofs.Resolution
import ApiSurface.Proofs.Walks
import ApiSurface.Proofs.Printing
