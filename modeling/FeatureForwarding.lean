import FeatureForwarding.CommandLine.Arguments
import FeatureForwarding.CommandLine.Invocation
import FeatureForwarding.CommandLine.Usage
import FeatureForwarding.Dependency
import FeatureForwarding.Discovery
import FeatureForwarding.Files.Edit
import FeatureForwarding.Files.Node
import FeatureForwarding.Files.Path
import FeatureForwarding.Files.Tree
import FeatureForwarding.Finding
import FeatureForwarding.Forwarding.Check
import FeatureForwarding.Forwarding.Repair
import FeatureForwarding.Json.Basic
import FeatureForwarding.Json.Double
import FeatureForwarding.Json.Printer
import FeatureForwarding.Json.Reader
import FeatureForwarding.Lint.CanonicalForm
import FeatureForwarding.Lint.Dependencies
import FeatureForwarding.Lint.Features
import FeatureForwarding.Lint.Spacing
import FeatureForwarding.Lint.Standards
import FeatureForwarding.Main
import FeatureForwarding.Manifest
import FeatureForwarding.NameMap
import FeatureForwarding.Proofs.Discovery
import FeatureForwarding.Proofs.Files.Path
import FeatureForwarding.Proofs.Files.Place
import FeatureForwarding.Proofs.Files.Target
import FeatureForwarding.Proofs.Files.Walk
import FeatureForwarding.Proofs.Files.Write
import FeatureForwarding.Proofs.Forwarding.Account
import FeatureForwarding.Proofs.Forwarding.Accuracy
import FeatureForwarding.Proofs.Forwarding.Findings
import FeatureForwarding.Proofs.Forwarding.Knowledge
import FeatureForwarding.Proofs.Forwarding.LeastRepairs
import FeatureForwarding.Proofs.Forwarding.Memory
import FeatureForwarding.Proofs.Forwarding.MinimalEdit
import FeatureForwarding.Proofs.Forwarding.Pass
import FeatureForwarding.Proofs.Forwarding.Repair
import FeatureForwarding.Proofs.Forwarding.Reread
import FeatureForwarding.Proofs.Forwarding.Settle
import FeatureForwarding.Proofs.Forwarding.Settling
import FeatureForwarding.Proofs.Forwarding.Tokens
import FeatureForwarding.Proofs.Manifest.Addition
import FeatureForwarding.Proofs.Manifest.Dependencies
import FeatureForwarding.Proofs.Manifest.Forwarding
import FeatureForwarding.Proofs.Manifest.Growth
import FeatureForwarding.Proofs.Manifest.InPlace
import FeatureForwarding.Proofs.Manifest.Outline
import FeatureForwarding.Proofs.NameMap
import FeatureForwarding.Proofs.Reach
import FeatureForwarding.Proofs.Registry.Fact
import FeatureForwarding.Proofs.Registry.History
import FeatureForwarding.Proofs.Registry.Learning
import FeatureForwarding.Proofs.Registry.Recording
import FeatureForwarding.Proofs.Registry.Refresh
import FeatureForwarding.Proofs.Registry.Restored
import FeatureForwarding.Proofs.Registry.Scan
import FeatureForwarding.Proofs.Run.Again
import FeatureForwarding.Proofs.Run.Changed
import FeatureForwarding.Proofs.Run.Check
import FeatureForwarding.Proofs.Run.Counters
import FeatureForwarding.Proofs.Run.Extent
import FeatureForwarding.Proofs.Run.Frame
import FeatureForwarding.Proofs.Run.HandingOn
import FeatureForwarding.Proofs.Run.Report
import FeatureForwarding.Proofs.Run.Rescan
import FeatureForwarding.Proofs.Run.Scan
import FeatureForwarding.Proofs.Run.Silence
import FeatureForwarding.Proofs.Run.Support
import FeatureForwarding.Proofs.Run.Totals
import FeatureForwarding.Proofs.Run.Writing
import FeatureForwarding.Proofs.Search
import FeatureForwarding.Proofs.Toml.Entries
import FeatureForwarding.Registry.Basic
import FeatureForwarding.Registry.Fact
import FeatureForwarding.Registry.Schema
import FeatureForwarding.Registry.Snapshot
import FeatureForwarding.Run.Operation
import FeatureForwarding.Run.Plan
import FeatureForwarding.Run.Report
import FeatureForwarding.Switch
import FeatureForwarding.Text.Order
import FeatureForwarding.Text.Reader
import FeatureForwarding.Text.Words
import FeatureForwarding.Toml.Assembly
import FeatureForwarding.Toml.Basic
import FeatureForwarding.Toml.Lexeme
import FeatureForwarding.Toml.Numeral
import FeatureForwarding.Toml.Printer
import FeatureForwarding.Toml.Reader
import FeatureForwarding.Toml.Spelling
import FeatureForwarding.Proofs.Json.ReadBack
import FeatureForwarding.Proofs.Registry.Snapshot
import FeatureForwarding.Proofs.Toml.Data
import FeatureForwarding.Proofs.Manifest.Data
import FeatureForwarding.Proofs.Lint.Data
import FeatureForwarding.Proofs.Lint.Places
import FeatureForwarding.Proofs.Toml.DistinctKeys
import FeatureForwarding.Proofs.Lint.Meaning
import FeatureForwarding.Proofs.Lint.Canonical
import FeatureForwarding.Proofs.Lint.Settled
import FeatureForwarding.Proofs.Lint.Form
import FeatureForwarding.Proofs.Json.Validation
import FeatureForwarding.Proofs.Registry.Format
import FeatureForwarding.Proofs.Text.Words
import FeatureForwarding.Proofs.Switch
import FeatureForwarding.Proofs.Toml.Spots
import FeatureForwarding.Proofs.Toml.Positions
import FeatureForwarding.Proofs.Lint.Headers
import FeatureForwarding.Proofs.Lint.Arranged
import FeatureForwarding.Proofs.Lint.Spacing
import FeatureForwarding.Proofs.Text.Sorting
import FeatureForwarding.Proofs.Toml.Blanks
import FeatureForwarding.Proofs.Toml.Quotes
import FeatureForwarding.Proofs.Toml.Spelling
import FeatureForwarding.Proofs.Toml.Numerals
import FeatureForwarding.Proofs.Toml.Keys
import FeatureForwarding.Proofs.Toml.Values
import FeatureForwarding.Proofs.Toml.Pieces
import FeatureForwarding.Proofs.Toml.Lines
import FeatureForwarding.Proofs.Toml.Legible
import FeatureForwarding.Proofs.Toml.Regrouping
import FeatureForwarding.Proofs.Toml.Reprinting
import FeatureForwarding.Proofs.Toml.Entering
import FeatureForwarding.Proofs.Toml.Rebuilding
import FeatureForwarding.Proofs.Toml.Rereading
import FeatureForwarding.Proofs.Toml.RoundTrip
import FeatureForwarding.Proofs.Toml.Shuffling
import FeatureForwarding.Proofs.Toml.Retained
import FeatureForwarding.Proofs.Lint.Retained
import FeatureForwarding.Proofs.Lint.Opening
import FeatureForwarding.Proofs.Lint.Spaced
import FeatureForwarding.Proofs.Lint.OnDisk
import FeatureForwarding.Proofs.Toml.ReadValues
import FeatureForwarding.Proofs.Toml.ReadLines
import FeatureForwarding.Proofs.Toml.Built
import FeatureForwarding.Proofs.Toml.Readable
import FeatureForwarding.Proofs.Toml.Joined
import FeatureForwarding.Proofs.Lint.Legible
import FeatureForwarding.Proofs.Lint.Readable
import FeatureForwarding.Proofs.Lint.Again
