import GraphSchema.Members
import GraphSchema.Json.Basic
import GraphSchema.Json.Printer
import GraphSchema.Decimal.Shortest
import GraphSchema.Json.Lexeme
import GraphSchema.Json.Outline
import GraphSchema.Json.Path
import GraphSchema.Json.Reader
import GraphSchema.Hash.Basic
import GraphSchema.Metadata
import GraphSchema.Primitive
import GraphSchema.Schema.Definitions
import GraphSchema.Schema.Reference
import GraphSchema.Text.Blank
import GraphSchema.Reading.Failure
import GraphSchema.Reading.Source
import GraphSchema.Graph.Basic
import GraphSchema.Graph.Edits
import GraphSchema.Graph.Format
import GraphSchema.Graph.Implementations
import GraphSchema.Graph.Validation
import GraphSchema.Compile.Document
import GraphSchema.Hash.Graph
import GraphSchema.Files.Host
import GraphSchema.Files.Machine
import GraphSchema.Files.Pattern
import GraphSchema.Files.Search
import GraphSchema.Command.Arguments
import GraphSchema.Command.Fixtures
import GraphSchema.Main
import GraphSchema.Proofs.Members
import GraphSchema.Proofs.Checks
import GraphSchema.Proofs.Reach
import GraphSchema.Proofs.Translation
import GraphSchema.Proofs.Keywords
import GraphSchema.Proofs.Runs
import GraphSchema.Proofs.Table
import GraphSchema.Proofs.Document
import GraphSchema.Proofs.References
import GraphSchema.Proofs.DefinedTypes
import GraphSchema.Proofs.Termination
import GraphSchema.Proofs.Correspondence
import GraphSchema.Proofs.TreeHash
import GraphSchema.Proofs.Bookkeeping
import GraphSchema.Proofs.Drops
import GraphSchema.Proofs.HashRenaming
import GraphSchema.Proofs.Numerals
import GraphSchema.Proofs.Lexemes
import GraphSchema.Proofs.Outlines
import GraphSchema.Proofs.Acceptance
import GraphSchema.Proofs.Emissions
import GraphSchema.Proofs.Readdressing
import GraphSchema.Proofs.Markers
import GraphSchema.Proofs.Placements
import GraphSchema.Proofs.Recording
import GraphSchema.Proofs.Diagnostics
import GraphSchema.Proofs.Keeping
import GraphSchema.Proofs.Values
import GraphSchema.Proofs.Printing
import GraphSchema.Proofs.Rereading
import GraphSchema.Proofs.Presenting
import GraphSchema.Proofs.Restoring
import GraphSchema.Proofs.Ranges
import GraphSchema.Proofs.Yielding
import GraphSchema.Proofs.Fitting
import GraphSchema.Proofs.RoundTrip
import GraphSchema.Proofs.Simulation
import GraphSchema.Proofs.Pruning
import GraphSchema.Proofs.KeyModes
import GraphSchema.Proofs.Annotations
import GraphSchema.Proofs.HashParts
import GraphSchema.Proofs.Limits
import GraphSchema.Proofs.Calls
import GraphSchema.Proofs.Nesting
import GraphSchema.Proofs.Linking
import GraphSchema.Proofs.Relinking
import GraphSchema.Proofs.Weights
import GraphSchema.Proofs.Routes
import GraphSchema.Proofs.Propagation
import GraphSchema.Proofs.Abreast
import GraphSchema.Proofs.Comments
import GraphSchema.Proofs.Equality
import GraphSchema.Proofs.Pointers
import GraphSchema.Proofs.Standing
import GraphSchema.Proofs.Unions
import GraphSchema.Proofs.Nullables
import GraphSchema.Proofs.WellFormed
import GraphSchema.Proofs.ByteOrder
import GraphSchema.Proofs.Envelope
import GraphSchema.Proofs.Reapplying
import GraphSchema.Proofs.Asking
import GraphSchema.Proofs.Batches
import GraphSchema.Proofs.Places
import GraphSchema.Proofs.Outputs
import GraphSchema.Proofs.Layering
import GraphSchema.Proofs.Accumulating
import GraphSchema.Proofs.Cycles
import GraphSchema.Proofs.Edits
import GraphSchema.Proofs.Sorting
import GraphSchema.Proofs.FirstWriter
import GraphSchema.Proofs.Completing
import GraphSchema.Proofs.Remembering
import GraphSchema.Proofs.Depths
