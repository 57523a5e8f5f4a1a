import FlatGraph.Arguments
import FlatGraph.Bytes
import FlatGraph.Calendar.Day
import FlatGraph.Calendar.Instant
import FlatGraph.Calendar.Layout
import FlatGraph.Calendar.Scan
import FlatGraph.Calendar.Text
import FlatGraph.Calendar.Timestamp
import FlatGraph.Command
import FlatGraph.Config
import FlatGraph.Convert.Read
import FlatGraph.Convert.Write
import FlatGraph.Document
import FlatGraph.Error
import FlatGraph.Index
import FlatGraph.Json.Document
import FlatGraph.Json.Form
import FlatGraph.Json.Printer
import FlatGraph.Json.Tree
import FlatGraph.Json.Value
import FlatGraph.Main
import FlatGraph.Model.EntityType
import FlatGraph.Model.Registry
import FlatGraph.Model.Schema
import FlatGraph.Number.Floating
import FlatGraph.Number.Integer
import FlatGraph.Number.Notation
import FlatGraph.Number.Shortest
import FlatGraph.Path
import FlatGraph.Proofs.Convert.Canonical
import FlatGraph.Proofs.Convert.Conforming
import FlatGraph.Proofs.Convert.Depth
import FlatGraph.Proofs.Convert.Elements
import FlatGraph.Proofs.Convert.Failure
import FlatGraph.Proofs.Convert.Followed
import FlatGraph.Proofs.Convert.Foreign
import FlatGraph.Proofs.Convert.Fragments
import FlatGraph.Proofs.Convert.Growth
import FlatGraph.Proofs.Convert.Index
import FlatGraph.Proofs.Convert.Legible
import FlatGraph.Proofs.Convert.Links
import FlatGraph.Proofs.Convert.Located
import FlatGraph.Proofs.Convert.Met
import FlatGraph.Proofs.Convert.Normal
import FlatGraph.Proofs.Convert.Order
import FlatGraph.Proofs.Convert.Parallel
import FlatGraph.Proofs.Convert.Partition
import FlatGraph.Proofs.Convert.Parts
import FlatGraph.Proofs.Convert.Prescribed
import FlatGraph.Proofs.Convert.Read
import FlatGraph.Proofs.Convert.Region
import FlatGraph.Proofs.Convert.Renewal
import FlatGraph.Proofs.Convert.Resolve
import FlatGraph.Proofs.Convert.Rewritable
import FlatGraph.Proofs.Convert.Rewrite
import FlatGraph.Proofs.Convert.RoundTrip
import FlatGraph.Proofs.Convert.Sites
import FlatGraph.Proofs.Convert.Typed
import FlatGraph.Proofs.Convert.Write
import FlatGraph.Proofs.Document
import FlatGraph.Proofs.Entries
import FlatGraph.Proofs.Equality
import FlatGraph.Proofs.Index
import FlatGraph.Proofs.Lists
import FlatGraph.Proofs.Model.Assignable
import FlatGraph.Proofs.Model.History
import FlatGraph.Proofs.Model.Registry
import FlatGraph.Proofs.Model.Schema
import FlatGraph.Proofs.Number.Integer
import FlatGraph.Proofs.Number.Notation
import FlatGraph.Proofs.Number.Order
import FlatGraph.Proofs.Number.Rounding
import FlatGraph.Proofs.Number.Shortest
import FlatGraph.Proofs.Outcome
import FlatGraph.Proofs.Path
import FlatGraph.Proofs.Record
import FlatGraph.Proofs.Report.Listing
import FlatGraph.Proofs.Repository.Address
import FlatGraph.Proofs.Repository.Catalog
import FlatGraph.Proofs.Repository.Delete
import FlatGraph.Proofs.Repository.Find
import FlatGraph.Proofs.Repository.Load
import FlatGraph.Proofs.Repository.Lookup
import FlatGraph.Proofs.Repository.Refine
import FlatGraph.Proofs.Repository.Run
import FlatGraph.Proofs.Scalar.Admit
import FlatGraph.Proofs.Scalar.Dates
import FlatGraph.Proofs.Scalar.Decode
import FlatGraph.Proofs.Scalar.Integers
import FlatGraph.Proofs.Scalar.Recode
import FlatGraph.Proofs.Scalar.Restore
import FlatGraph.Proofs.Sorted
import FlatGraph.Proofs.Store
import FlatGraph.Proofs.Store.Ideal
import FlatGraph.Proofs.Store.Regular
import FlatGraph.Proofs.Text.Blank
import FlatGraph.Proofs.Text.Cut
import FlatGraph.Proofs.Text.Order
import FlatGraph.Proofs.Text.Utf8
import FlatGraph.Proofs.Traced
import FlatGraph.Proofs.Value
import FlatGraph.Query
import FlatGraph.Record
import FlatGraph.Report.Flat
import FlatGraph.Report.Listing
import FlatGraph.Repository
import FlatGraph.Sample
import FlatGraph.Scalar.Decode
import FlatGraph.Scalar.Encode
import FlatGraph.Scalar.Error
import FlatGraph.Scalar.Form
import FlatGraph.Scalar.Type
import FlatGraph.Sorted
import FlatGraph.Store.Basic
import FlatGraph.Store.Change
import FlatGraph.Store.Error
import FlatGraph.Text.Blank
import FlatGraph.Text.Column
import FlatGraph.Text.Cut
import FlatGraph.Text.Quoted
import FlatGraph.Text.Utf8
import FlatGraph.Traced
import FlatGraph.Value
