import Conformance.Builder.Basic
import Conformance.Builder.Structures
import Conformance.Error
import Conformance.Host
import Conformance.Limits
import Conformance.Memory.Address
import Conformance.Memory.Buffer
import Conformance.Memory.ByteOrder
import Conformance.Memory.Image
import Conformance.Memory.Live
import Conformance.Memory.Probe
import Conformance.Memory.Source
import Conformance.Metadata.Access
import Conformance.Metadata.Kind
import Conformance.Metadata.Layout
import Conformance.Metadata.Path
import Conformance.Metadata.Runtime
import Conformance.Proofs.AncestrySearch
import Conformance.Proofs.Bounds
import Conformance.Proofs.Budget
import Conformance.Proofs.Builder.Bytes
import Conformance.Proofs.Builder.ComposedRuns
import Conformance.Proofs.Builder.Compositions
import Conformance.Proofs.Builder.Contents
import Conformance.Proofs.Builder.Declarations
import Conformance.Proofs.Builder.Draft
import Conformance.Proofs.Builder.Effects
import Conformance.Proofs.Builder.Frame
import Conformance.Proofs.Builder.Freezing
import Conformance.Proofs.Builder.Headers
import Conformance.Proofs.Builder.Lists
import Conformance.Proofs.Builder.Overlap
import Conformance.Proofs.Builder.Reachable
import Conformance.Proofs.Builder.RoundTrip
import Conformance.Proofs.Builder.Runs
import Conformance.Proofs.Builder.Steps
import Conformance.Proofs.Builder.Stored
import Conformance.Proofs.Builder.Structures
import Conformance.Proofs.ByteOrder
import Conformance.Proofs.Chain
import Conformance.Proofs.Climb
import Conformance.Proofs.Completion
import Conformance.Proofs.Composition
import Conformance.Proofs.Configuration
import Conformance.Proofs.Exactness
import Conformance.Proofs.Exhaustion
import Conformance.Proofs.Extension
import Conformance.Proofs.Fields
import Conformance.Proofs.FirstSession
import Conformance.Proofs.Granted
import Conformance.Proofs.Image.Additions
import Conformance.Proofs.Image.Edits
import Conformance.Proofs.Image.History
import Conformance.Proofs.Image.Order
import Conformance.Proofs.Image.Segments
import Conformance.Proofs.Incidents
import Conformance.Proofs.Itinerary
import Conformance.Proofs.Lineage
import Conformance.Proofs.ListSearch
import Conformance.Proofs.Loosening
import Conformance.Proofs.Masks
import Conformance.Proofs.Metadata
import Conformance.Proofs.Neighbours
import Conformance.Proofs.NullAddress
import Conformance.Proofs.Path
import Conformance.Proofs.QuietNegative
import Conformance.Proofs.Reads
import Conformance.Proofs.Refusal
import Conformance.Proofs.Region.Canonical
import Conformance.Proofs.Region.Lines
import Conformance.Proofs.Region.Listing
import Conformance.Proofs.Region.Order
import Conformance.Proofs.Region.Skipping
import Conformance.Proofs.Report
import Conformance.Proofs.Requirements
import Conformance.Proofs.Separation
import Conformance.Proofs.Source.Agreement
import Conformance.Proofs.Source.Prefilter
import Conformance.Proofs.Source.Readable
import Conformance.Proofs.Text
import Conformance.Proofs.Threshold
import Conformance.Proofs.Validation
import Conformance.Region.Basic
import Conformance.Region.Listing
import Conformance.Region.Map
import Conformance.Resolution
import Conformance.Session
import Conformance.Text.Blank
import Conformance.Text.Numeral
import Conformance.Walk.Ancestry
import Conformance.Walk.Anomaly
import Conformance.Walk.Inspector
import Conformance.Walk.Query
import Conformance.Walk.Records
