import PinFloor.Text.Blank
import PinFloor.Text.Position
import PinFloor.Text.Decimal
import PinFloor.PackageName
import PinFloor.Version.Basic
import PinFloor.Version.Parser
import PinFloor.Specifier.Basic
import PinFloor.Specifier.Parser
import PinFloor.Bound
import PinFloor.Marker.Variable
import PinFloor.Marker.Basic
import PinFloor.Marker.Comparison
import PinFloor.Marker.Parser
import PinFloor.Marker.Canonical
import PinFloor.Url
import PinFloor.Requirement.Basic
import PinFloor.Requirement.Parser
import PinFloor.Path
import PinFloor.FileSystem
import PinFloor.Text.Search
import PinFloor.RequirementsFile.GlobalOption
import PinFloor.RequirementsFile.Statement
import PinFloor.RequirementsFile.Scanner
import PinFloor.RequirementsFile.Script
import PinFloor.RequirementsFile.Basic
import PinFloor.RequirementsFile.Loader
import PinFloor.Log.Notice
import PinFloor.Environment
import PinFloor.Rule
import PinFloor.Manifest
import PinFloor.Report
import PinFloor.Check
import PinFloor.Text.Shown
import PinFloor.Text.ShortestDecimal
import PinFloor.Data.Value
import PinFloor.Data.Decode
import PinFloor.Toml.Literal
import PinFloor.Toml.Parser
import PinFloor.Toml.Document
import PinFloor.Data.Json
import PinFloor.Listing
import PinFloor.Data.Encode
import PinFloor.Settings.Layer
import PinFloor.Settings.Discovery
import PinFloor.Text.Wrap
import PinFloor.Text.Style
import PinFloor.Failure
import PinFloor.Log.Filter
import PinFloor.CommandLine.UsageError
import PinFloor.CommandLine.Grammar
import PinFloor.CommandLine.Arguments
import PinFloor.CommandLine.Parser
import PinFloor.Settings.Resolved
import PinFloor.Report.Text
import PinFloor.Listing.Text
import PinFloor.Log.Line
import PinFloor.CommandLine.Help
import PinFloor.Program
import PinFloor.Main
import PinFloor.Proofs.Version.Order
import PinFloor.Proofs.Floor
import PinFloor.Proofs.Text.Decimal
import PinFloor.Proofs.Version.Canonical
import PinFloor.Proofs.Path
import PinFloor.Proofs.Directories
import PinFloor.Proofs.Settings.Layers
import PinFloor.Proofs.Settings.Discovery
import PinFloor.Proofs.Settings.BrokenProjects
import PinFloor.Proofs.Places
import PinFloor.Proofs.Check.Pins
import PinFloor.Proofs.Check.Findings
import PinFloor.Proofs.Check.Index
import PinFloor.Proofs.Check.Merging
import PinFloor.Proofs.Check.Rules
import PinFloor.Proofs.Check.EnvironmentCounts
import PinFloor.Proofs.Sorting
import PinFloor.Proofs.Check.Order
import PinFloor.Proofs.Check.Selection
import PinFloor.Proofs.Check.Aggregation
import PinFloor.Proofs.Check.Packages
import PinFloor.Proofs.Check.Severities
import PinFloor.Proofs.Check.Independence
import PinFloor.Proofs.Text.Lines
import PinFloor.Proofs.RequirementsFile.Alike
import PinFloor.Proofs.RequirementsFile.SideBySide
import PinFloor.Proofs.RequirementsFile.Scripts
import PinFloor.Proofs.RequirementsFile.LineEnds
import PinFloor.Proofs.RequirementsFile.Concatenation
import PinFloor.Proofs.RequirementsFile.Roles
import PinFloor.Proofs.RequirementsFile.IncludeStack
import PinFloor.Proofs.RequirementsFile.Cycles
import PinFloor.Proofs.Check.RequirementOrder
import PinFloor.Proofs.Check.Strictness
import PinFloor.Proofs.RequirementsFile.WholeLines
import PinFloor.Proofs.PackageName
import PinFloor.Proofs.RequirementsFile.DocumentOrder
import PinFloor.Proofs.RequirementsFile.Locality
import PinFloor.Proofs.Requirement.Names
import PinFloor.Proofs.RequirementsFile.NameSpelling
import PinFloor.Proofs.RequirementsFile.Respelling
import PinFloor.Proofs.Specifier.Reading
import PinFloor.Proofs.Specifier.Bounds
import PinFloor.Proofs.Check.AllowedPins
import PinFloor.Proofs.Check.Spellings
import PinFloor.Proofs.RequirementsFile.Options
import PinFloor.Proofs.Marker.Grammar
import PinFloor.Proofs.Requirement.TrailingBlanks
import PinFloor.Proofs.RequirementsFile.RequirementLines
import PinFloor.Proofs.RequirementsFile.Hashes
import PinFloor.Proofs.RequirementsFile.Passing
import PinFloor.Proofs.RequirementsFile.Continuations
import PinFloor.Proofs.RequirementsFile.WrappedLines
import PinFloor.Proofs.Text.Comments
import PinFloor.Proofs.Url
import PinFloor.Proofs.Marker.Questions
import PinFloor.Proofs.Marker.Writing
import PinFloor.Proofs.Requirement.Writing
import PinFloor.Proofs.RequirementsFile.WrittenEntries
import PinFloor.Proofs.RequirementsFile.ErrorChains
import PinFloor.Proofs.RequirementsFile.SingleLines
import PinFloor.Proofs.RequirementsFile.EntryLines
import PinFloor.Proofs.RequirementsFile.Remarks
import PinFloor.Proofs.RequirementsFile.RemarkedValues
import PinFloor.Proofs.RequirementsFile.TrailingRemarks
import PinFloor.Proofs.RequirementsFile.ValueWords
import PinFloor.Proofs.RequirementsFile.Separators
import PinFloor.Proofs.PythonVersion
import PinFloor.Proofs.RequirementsFile.StatementTexts
import PinFloor.Proofs.Text.Trimming
import PinFloor.Proofs.Text.Words
import PinFloor.Proofs.Text.Wrapping
import PinFloor.Proofs.Failure
