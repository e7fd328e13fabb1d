import LayeredConfig.Cache.Key
import LayeredConfig.Cache.Listing
import LayeredConfig.Cache.Store
import LayeredConfig.Command.Arguments
import LayeredConfig.Command.Basic
import LayeredConfig.Command.Completion
import LayeredConfig.Command.Failure
import LayeredConfig.Command.Run
import LayeredConfig.Command.Terminal
import LayeredConfig.Digest.Sha256
import LayeredConfig.Directive
import LayeredConfig.Document
import LayeredConfig.Error
import LayeredConfig.Git
import LayeredConfig.Glob.Pattern
import LayeredConfig.Glob.Walk
import LayeredConfig.Host
import LayeredConfig.JsonText
import LayeredConfig.Ledger.Basic
import LayeredConfig.Ledger.Display
import LayeredConfig.Ledger.File
import LayeredConfig.Ledger.Text
import LayeredConfig.Ledger.Track
import LayeredConfig.Load
import LayeredConfig.Main
import LayeredConfig.Named
import LayeredConfig.Nested
import LayeredConfig.Number.Binary64
import LayeredConfig.Number.Decimal
import LayeredConfig.Number.Natural
import LayeredConfig.Packages
import LayeredConfig.Path.File
import LayeredConfig.Path.Section
import LayeredConfig.Proofs.Accounting
import LayeredConfig.Proofs.Alike
import LayeredConfig.Proofs.Alongside
import LayeredConfig.Proofs.Arrival
import LayeredConfig.Proofs.AskedOnce
import LayeredConfig.Proofs.Assembly
import LayeredConfig.Proofs.Cache.Answer
import LayeredConfig.Proofs.Cache.Contents
import LayeredConfig.Proofs.Cache.Entries
import LayeredConfig.Proofs.Cache.Faults
import LayeredConfig.Proofs.Cache.History
import LayeredConfig.Proofs.Cache.Naming
import LayeredConfig.Proofs.Cache.Rerun
import LayeredConfig.Proofs.Cache.Save
import LayeredConfig.Proofs.Cache.Serving
import LayeredConfig.Proofs.Cache.Unsaved
import LayeredConfig.Proofs.Collapsing
import LayeredConfig.Proofs.Command.Cleaning
import LayeredConfig.Proofs.Command.Console
import LayeredConfig.Proofs.Command.StandIns
import LayeredConfig.Proofs.Command.Uncached
import LayeredConfig.Proofs.Contract
import LayeredConfig.Proofs.Deferral
import LayeredConfig.Proofs.DirectiveFree
import LayeredConfig.Proofs.Directives
import LayeredConfig.Proofs.Ending
import LayeredConfig.Proofs.EntryPoints
import LayeredConfig.Proofs.EntryReading
import LayeredConfig.Proofs.EntryText
import LayeredConfig.Proofs.Expansion
import LayeredConfig.Proofs.Following
import LayeredConfig.Proofs.Footprint
import LayeredConfig.Proofs.Glob.Components
import LayeredConfig.Proofs.Glob.Matching
import LayeredConfig.Proofs.Glob.Spelling
import LayeredConfig.Proofs.Includers
import LayeredConfig.Proofs.Inclusion.Acyclic
import LayeredConfig.Proofs.Inclusion.Chains
import LayeredConfig.Proofs.Inclusion.Room
import LayeredConfig.Proofs.Keeping
import LayeredConfig.Proofs.Keys
import LayeredConfig.Proofs.Ledger.Collapses
import LayeredConfig.Proofs.Ledger.Histories
import LayeredConfig.Proofs.Ledger.RoundTrip
import LayeredConfig.Proofs.Ledger.Showing
import LayeredConfig.Proofs.Ledger.Staleness
import LayeredConfig.Proofs.Ledger.Union
import LayeredConfig.Proofs.Ledger.Updating
import LayeredConfig.Proofs.Loading
import LayeredConfig.Proofs.Locations
import LayeredConfig.Proofs.Making
import LayeredConfig.Proofs.Meetings
import LayeredConfig.Proofs.Memory
import LayeredConfig.Proofs.Moves
import LayeredConfig.Proofs.Nesting
import LayeredConfig.Proofs.Noticing
import LayeredConfig.Proofs.Number.Rounding
import LayeredConfig.Proofs.Outside
import LayeredConfig.Proofs.OwnSource
import LayeredConfig.Proofs.OwnValues
import LayeredConfig.Proofs.Parallel
import LayeredConfig.Proofs.Path.Labels
import LayeredConfig.Proofs.Path.NormalForm
import LayeredConfig.Proofs.Path.Normalizing
import LayeredConfig.Proofs.Path.Parents
import LayeredConfig.Proofs.Path.Respelling
import LayeredConfig.Proofs.Path.Written
import LayeredConfig.Proofs.PathField.Loads
import LayeredConfig.Proofs.PathField.Resolution
import LayeredConfig.Proofs.PathField.Schemas
import LayeredConfig.Proofs.PathField.Sections
import LayeredConfig.Proofs.PathField.Stripped
import LayeredConfig.Proofs.PathField.Twins
import LayeredConfig.Proofs.Places
import LayeredConfig.Proofs.Precedence
import LayeredConfig.Proofs.Resolution
import LayeredConfig.Proofs.Reuse.Computing
import LayeredConfig.Proofs.Reuse.Depth
import LayeredConfig.Proofs.Reuse.Document
import LayeredConfig.Proofs.Reuse.Finishing
import LayeredConfig.Proofs.Reuse.Guard
import LayeredConfig.Proofs.Reuse.Lists
import LayeredConfig.Proofs.Reuse.OnlyUses
import LayeredConfig.Proofs.Reuse.Order
import LayeredConfig.Proofs.Reuse.Rebinding
import LayeredConfig.Proofs.Reuse.Sections
import LayeredConfig.Proofs.Reuse.Staging
import LayeredConfig.Proofs.Reuse.Value
import LayeredConfig.Proofs.Schema
import LayeredConfig.Proofs.Search
import LayeredConfig.Proofs.Tree.Algebra
import LayeredConfig.Proofs.Tree.Cuts
import LayeredConfig.Proofs.Tree.Entries
import LayeredConfig.Proofs.Tree.Everywhere
import LayeredConfig.Proofs.Tree.Lookup
import LayeredConfig.Proofs.Tree.Path
import LayeredConfig.Proofs.Tree.Replacement
import LayeredConfig.Proofs.Tree.Spot
import LayeredConfig.Proofs.Tree.Traversal
import LayeredConfig.Proofs.Tree.WellFormed
import LayeredConfig.Proofs.Trimming
import LayeredConfig.Proofs.Writing
import LayeredConfig.Proofs.Yaml
import LayeredConfig.Proofs.Yaml.Bare
import LayeredConfig.Resolve
import LayeredConfig.Schema
import LayeredConfig.Settings
import LayeredConfig.Text.Blank
import LayeredConfig.Text.Lower
import LayeredConfig.Text.Outline
import LayeredConfig.Time
import LayeredConfig.Tree.Basic
import LayeredConfig.Tree.Flatten
import LayeredConfig.Tree.Lookup
import LayeredConfig.Tree.Merge
import LayeredConfig.Typed.Value
import LayeredConfig.World
import LayeredConfig.Yaml.Cursor
import LayeredConfig.Yaml.Decode
import LayeredConfig.Yaml.Lexer
import LayeredConfig.Yaml.Node
import LayeredConfig.Yaml.Page
import LayeredConfig.Yaml.Scalar
import LayeredConfig.Yaml.ScalarText
import LayeredConfig.Yaml.Token
import LayeredConfig.Yaml.Writer
