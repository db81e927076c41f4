import ErbTags.Text
import ErbTags.Text.Blank
import ErbTags.Text.Control
import ErbTags.Text.Position
import ErbTags.Entries
import ErbTags.Name
import ErbTags.Delimiter
import ErbTags.Attribute
import ErbTags.Attribute.Reader
import ErbTags.Tag
import ErbTags.Tag.Reader
import ErbTags.Tag.Scanner
import ErbTags.Conventions
import ErbTags.Output
import ErbTags.Fragment
import ErbTags.Frame
import ErbTags.Diagnostic
import ErbTags.Log
import ErbTags.Pass
import ErbTags.Transpile
import ErbTags.Sha256
import ErbTags.Cache.Key
import ErbTags.Files.Path
import ErbTags.Files.System
import ErbTags.Files.Disk
import ErbTags.Cache.Store
import ErbTags.Cache.Memory
import ErbTags.Cache.Directory
import ErbTags.Failure
import ErbTags.Compiler
import ErbTags.Toml.Value
import ErbTags.Toml.Number
import ErbTags.Toml.Quoted
import ErbTags.Toml.Document
import ErbTags.Config
import ErbTags.Cli.Arguments
import ErbTags.Cli.Json
import ErbTags.Cli.Report
import ErbTags.Cli.Command
import ErbTags.Main
import ErbTags.Proofs.Offsets
import ErbTags.Proofs.Steps
import ErbTags.Proofs.Links
import ErbTags.Proofs.Parameters
import ErbTags.Proofs.TwoPhase
import ErbTags.Proofs.Forest
import ErbTags.Proofs.Balance
import ErbTags.Proofs.Delimited
import ErbTags.Proofs.PrintedAttributes
import ErbTags.Proofs.PrintedTags
import ErbTags.Proofs.TagStarts
import ErbTags.Proofs.SnakeCase
import ErbTags.Proofs.StoreLaws
import ErbTags.Proofs.CachedResults
import ErbTags.Proofs.Scopes
import ErbTags.Proofs.ValueEnds
import ErbTags.Proofs.LiteralText
import ErbTags.Proofs.Octets
import ErbTags.Proofs.LastTagEnd
import ErbTags.Proofs.ByteScanner
import ErbTags.Proofs.ByteAttributes
import ErbTags.Proofs.BytePass
import ErbTags.Proofs.Diagnostics
import ErbTags.Proofs.ScannerRuns
import ErbTags.Proofs.Occurrences
import ErbTags.Proofs.StringLiterals
import ErbTags.Proofs.CheckedTemplates
import ErbTags.Proofs.FileChanges
import ErbTags.Proofs.DirectoryStore
import ErbTags.Proofs.TreeViews
import ErbTags.Proofs.Ancestors
import ErbTags.Proofs.AtomicWrites
import ErbTags.Proofs.ForeignFiles
import ErbTags.Proofs.StoresAgree
import ErbTags.Proofs.DisplayedKeys
import ErbTags.Proofs.Tiling
import ErbTags.Proofs.OpenFrames
import ErbTags.Proofs.Lines
