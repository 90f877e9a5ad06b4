import TableGraph.Annotation.Basic
import TableGraph.Annotation.Json
import TableGraph.Blob
import TableGraph.Catalog.Column
import TableGraph.Catalog.Statement
import TableGraph.Cli.Arguments
import TableGraph.Cli.Report
import TableGraph.Cli.Run
import TableGraph.Cli.Usage
import TableGraph.Cli.Verb
import TableGraph.Config.Basic
import TableGraph.Config.Json
import TableGraph.Config.Reading
import TableGraph.Database.Recording
import TableGraph.Database.Source
import TableGraph.Decimal.Digits
import TableGraph.Decimal.Double
import TableGraph.Decimal.Fixed
import TableGraph.Decimal.Rounding
import TableGraph.Decimal.Shortest
import TableGraph.Filter.Basic
import TableGraph.Filter.Reading
import TableGraph.Graph.Backend
import TableGraph.Graph.Handle
import TableGraph.Graph.Sdl
import TableGraph.Graph.TypeSystem
import TableGraph.Json.Basic
import TableGraph.Json.Decode
import TableGraph.Json.Number
import TableGraph.Json.Parser
import TableGraph.Json.Printer
import TableGraph.Json.Skipping
import TableGraph.Listing
import TableGraph.Main
import TableGraph.Name.Basic
import TableGraph.Name.Derived
import TableGraph.Name.Scope
import TableGraph.Order
import TableGraph.Page.Connection
import TableGraph.Page.Cursor
import TableGraph.Plan.Basic
import TableGraph.Plan.Clauses
import TableGraph.Plan.Hydrate
import TableGraph.Plan.Planning
import TableGraph.Plan.Selection
import TableGraph.Plan.Statement
import TableGraph.Proofs.Annotation.Nesting
import TableGraph.Proofs.Annotation.Overlay
import TableGraph.Proofs.Blob
import TableGraph.Proofs.Catalog.Runs
import TableGraph.Proofs.Config.Address
import TableGraph.Proofs.Database.Content
import TableGraph.Proofs.Decimal.Digits
import TableGraph.Proofs.Decimal.Neighbours
import TableGraph.Proofs.Decimal.Reading
import TableGraph.Proofs.Decimal.Shortest
import TableGraph.Proofs.Decimal.Texts
import TableGraph.Proofs.Filter.About
import TableGraph.Proofs.Filter.Accepted
import TableGraph.Proofs.Filter.Admitted
import TableGraph.Proofs.Filter.Alike
import TableGraph.Proofs.Filter.Fitting
import TableGraph.Proofs.Filter.Formula
import TableGraph.Proofs.Filter.Grammar
import TableGraph.Proofs.Filter.Leaves
import TableGraph.Proofs.Filter.Meaning
import TableGraph.Proofs.Filter.Same
import TableGraph.Proofs.Firsts
import TableGraph.Proofs.Formula.Atoms
import TableGraph.Proofs.Formula.Basic
import TableGraph.Proofs.Formula.Grammar
import TableGraph.Proofs.Formula.Joining
import TableGraph.Proofs.Graph.Rebuilds
import TableGraph.Proofs.Json.Distinct
import TableGraph.Proofs.Json.Grammar
import TableGraph.Proofs.Json.Injective
import TableGraph.Proofs.Json.Number
import TableGraph.Proofs.Json.Reading
import TableGraph.Proofs.Json.Skipping
import TableGraph.Proofs.Json.Text
import TableGraph.Proofs.Listing
import TableGraph.Proofs.Members
import TableGraph.Proofs.Name.Derived
import TableGraph.Proofs.Name.Fresh
import TableGraph.Proofs.Name.Growth
import TableGraph.Proofs.Name.Issued
import TableGraph.Proofs.Name.Scope
import TableGraph.Proofs.Name.Valid
import TableGraph.Proofs.Order
import TableGraph.Proofs.Outcome
import TableGraph.Proofs.Page.Cursor
import TableGraph.Proofs.Page.Cuts
import TableGraph.Proofs.Page.Flags
import TableGraph.Proofs.Page.Paging
import TableGraph.Proofs.Plan.Aliases
import TableGraph.Proofs.Plan.Alike
import TableGraph.Proofs.Plan.Asked
import TableGraph.Proofs.Plan.Bounded
import TableGraph.Proofs.Plan.Entities
import TableGraph.Proofs.Plan.Flattening
import TableGraph.Proofs.Plan.Forest
import TableGraph.Proofs.Plan.Hydration
import TableGraph.Proofs.Plan.Identity
import TableGraph.Proofs.Plan.Joined
import TableGraph.Proofs.Plan.Keyless
import TableGraph.Proofs.Plan.Labels
import TableGraph.Proofs.Plan.Lookups
import TableGraph.Proofs.Plan.Merging
import TableGraph.Proofs.Plan.Paths
import TableGraph.Proofs.Plan.Phrase
import TableGraph.Proofs.Plan.Planned
import TableGraph.Proofs.Plan.Quoting
import TableGraph.Proofs.Plan.Ranked
import TableGraph.Proofs.Plan.RankedRows
import TableGraph.Proofs.Plan.Renaming
import TableGraph.Proofs.Plan.Reserved
import TableGraph.Proofs.Plan.ResponseKeys
import TableGraph.Proofs.Plan.Same
import TableGraph.Proofs.Plan.Scoped
import TableGraph.Proofs.Plan.Service
import TableGraph.Proofs.Plan.Shown
import TableGraph.Proofs.Plan.Sorted
import TableGraph.Proofs.Plan.Unmatched
import TableGraph.Proofs.Schema.Building
import TableGraph.Proofs.Schema.Built
import TableGraph.Proofs.Schema.Columns
import TableGraph.Proofs.Schema.Complete
import TableGraph.Proofs.Schema.Conforms
import TableGraph.Proofs.Schema.Entries
import TableGraph.Proofs.Schema.Exposed
import TableGraph.Proofs.Schema.Failing
import TableGraph.Proofs.Schema.FieldNames
import TableGraph.Proofs.Schema.Groups
import TableGraph.Proofs.Schema.Identity
import TableGraph.Proofs.Schema.InputNames
import TableGraph.Proofs.Schema.Inputs
import TableGraph.Proofs.Schema.Mentions
import TableGraph.Proofs.Schema.Naming
import TableGraph.Proofs.Schema.Ownership
import TableGraph.Proofs.Schema.Reached
import TableGraph.Proofs.Schema.Registered
import TableGraph.Proofs.Schema.Rows
import TableGraph.Proofs.Schema.Sorting
import TableGraph.Proofs.Schema.Steps
import TableGraph.Proofs.Schema.Sustained
import TableGraph.Proofs.Schema.TypeNames
import TableGraph.Proofs.Sql.Conditions
import TableGraph.Proofs.Sql.Literal
import TableGraph.Proofs.Sql.Spelling
import TableGraph.Proofs.Sql.Token
import TableGraph.Proofs.Table.Dump
import TableGraph.Proofs.Text.Base64
import TableGraph.Proofs.Text.Coding
import TableGraph.Proofs.Text.Cutting
import TableGraph.Proofs.Text.Escape
import TableGraph.Proofs.Time.Calendar
import TableGraph.Proofs.Time.Reading
import TableGraph.Query.Answer
import TableGraph.Query.Document
import TableGraph.Query.Json
import TableGraph.Query.Lexical
import TableGraph.Query.Position
import TableGraph.Query.Reading
import TableGraph.Query.Rules
import TableGraph.Query.Selected
import TableGraph.Query.Value
import TableGraph.RequestError
import TableGraph.Schema.Basic
import TableGraph.Schema.Build
import TableGraph.Schema.Exposure
import TableGraph.Schema.Fields
import TableGraph.Schema.Inputs
import TableGraph.Schema.Progress
import TableGraph.Schema.Traversal
import TableGraph.Schema.TypeRef
import TableGraph.Sql.Dialect
import TableGraph.Sql.Postgres
import TableGraph.Table.Basic
import TableGraph.Table.Json
import TableGraph.Table.Shape
import TableGraph.Text.Base64
import TableGraph.Text.Blank
import TableGraph.Text.Joined
import TableGraph.Text.Utf8
import TableGraph.Time.Calendar
import TableGraph.Time.Reading
import TableGraph.Yaml.Node
import TableGraph.Yaml.Place
import TableGraph.Yaml.Scalar
import TableGraph.Yaml.Token
