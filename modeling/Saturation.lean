import Saturation.Decimal.Fixed
import Saturation.Selection
import Saturation.Analysis
import Saturation.Json.Writer
import Saturation.Json.Reader
import Saturation.Program.Run
import Saturation.Main
import Saturation.Program.Jobs
import Saturation.Template
import Saturation.Report
import Saturation.Machine
import Saturation.Configuration.Bounds
import Saturation.Configuration.Layers
import Saturation.Configuration.Environment
import Saturation.Host
import Saturation.Files.Path
import Saturation.Text.Lowercase
import Saturation.Proofs.Settings.Tokens
import Saturation.Proofs.Settings.Numerals
import Saturation.Proofs.Decimal.Unpacked
import Saturation.Proofs.Exact
import Saturation.Proofs.Settings.RoundTrip
import Saturation.Proofs.Digest
import Saturation.Proofs.Ingest
import Saturation.Proofs.Keyed
import Saturation.Proofs.Collectors
import Saturation.Proofs.Traffic
import Saturation.Proofs.Statistics
import Saturation.Proofs.Flows
import Saturation.Proofs.Profile
import Saturation.Proofs.Steps
import Saturation.Proofs.Slots
import Saturation.Proofs.Threshold
import Saturation.Proofs.Model
import Saturation.Proofs.Goodput
import Saturation.Proofs.Attack
import Saturation.Proofs.Bounds
import Saturation.Proofs.Cumulative
import Saturation.Proofs.OperatingPoint
import Saturation.Proofs.Unattacked
import Saturation.Proofs.Settings.Normal
import Saturation.Proofs.Settings.Grammar
import Saturation.Proofs.Settings.Literals
import Saturation.Proofs.Settings.Meaning
import Saturation.Proofs.Proportion
import Saturation.Proofs.Repetition
import Saturation.Proofs.Files.Path
import Saturation.Proofs.Files.Tree
import Saturation.Proofs.Names
import Saturation.Proofs.Json.Reader
import Saturation.Proofs.Json.RoundTrip
import Saturation.Proofs.Template
import Saturation.Proofs.Machine
import Saturation.Proofs.Report
import Saturation.Proofs.Jobs
import Saturation.Proofs.Files.Confined
import Saturation.Proofs.Agreement
import Saturation.Proofs.Inputs
import Saturation.Proofs.Fraction.Checked
import Saturation.Proofs.Boundary
import Saturation.Proofs.Admission
import Saturation.Proofs.Distribution
import Saturation.Proofs.JobSizes
import Saturation.Proofs.JobSizeDistribution
import Saturation.Proofs.Double.Accuracy
import Saturation.Proofs.Units
import Saturation.Proofs.Lists
import Saturation.Proofs.Fraction.Rescaled
import Saturation.Proofs.Settings.Unwritable
import Saturation.Proofs.Settings.Remainder
import Saturation.Proofs.Settings.StrayLine
import Saturation.Proofs.Settings.Concatenation
import Saturation.Proofs.Extremes
import Saturation.Proofs.WordSums
import Saturation.Proofs.Settings.Unrepresentable
import Saturation.Proofs.Interleaving
import Saturation.Proofs.SinglePackets
import Saturation.Proofs.Layout
import Saturation.Proofs.Summary
