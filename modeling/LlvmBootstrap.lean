import LlvmBootstrap.SortedMap
import LlvmBootstrap.Text.Utf8
import LlvmBootstrap.Text.Blank
import LlvmBootstrap.Text.Lines
import LlvmBootstrap.Text.Hex
import LlvmBootstrap.Path
import LlvmBootstrap.Path.Normal
import LlvmBootstrap.Tree
import LlvmBootstrap.Tree.Errno
import LlvmBootstrap.Tree.Resolve
import LlvmBootstrap.Tree.Change
import LlvmBootstrap.Tree.Listing
import LlvmBootstrap.Text.Numeral
import LlvmBootstrap.Tar.Header
import LlvmBootstrap.Tar.Pax
import LlvmBootstrap.Tar.Sparse
import LlvmBootstrap.Tar.Members
import LlvmBootstrap.Arch
import LlvmBootstrap.Environment
import LlvmBootstrap.Environment.Dump
import LlvmBootstrap.Command
import LlvmBootstrap.Download.Url
import LlvmBootstrap.Machine.Program
import LlvmBootstrap.Machine.World
import LlvmBootstrap.Machine.Files
import LlvmBootstrap.Archive.Format
import LlvmBootstrap.Sources.Error
import LlvmBootstrap.Archive.Unpack
import LlvmBootstrap.Checksum.Sha256
import LlvmBootstrap.Checksum.Crc
import LlvmBootstrap.Packing.Deflate
import LlvmBootstrap.Packing.Gzip
import LlvmBootstrap.Packing.RangeCoder
import LlvmBootstrap.Packing.Lzma
import LlvmBootstrap.Packing.Xz
import LlvmBootstrap.Defaults
import LlvmBootstrap.Root
import LlvmBootstrap.Stage
import LlvmBootstrap.Action
import LlvmBootstrap.Settings
import LlvmBootstrap.Json
import LlvmBootstrap.Lock.Holder
import LlvmBootstrap.Archive.Extract
import LlvmBootstrap.Download
import LlvmBootstrap.Sources.Digest
import LlvmBootstrap.Sources.Fetch
import LlvmBootstrap.Lock
import LlvmBootstrap.Platform
import LlvmBootstrap.Platform.Environment
import LlvmBootstrap.Host
import LlvmBootstrap.Toolchain
import LlvmBootstrap.Build
import LlvmBootstrap.Downstream
import LlvmBootstrap.Bootstrap
import LlvmBootstrap.Decimal.Binary64
import LlvmBootstrap.Text.Quoted
import LlvmBootstrap.Toml.Value
import LlvmBootstrap.Toml.Cursor
import LlvmBootstrap.Toml.Quoted
import LlvmBootstrap.Toml.Moment
import LlvmBootstrap.Toml.Scalar
import LlvmBootstrap.Toml.Entries
import LlvmBootstrap.Toml.Statement
import LlvmBootstrap.Toml.Document
import LlvmBootstrap.Settings.Decode
import LlvmBootstrap.Settings.Load
import LlvmBootstrap.CommandLine.Options
import LlvmBootstrap.CommandLine.Report
import LlvmBootstrap.CommandLine
import LlvmBootstrap.Rehearsal.Script
import LlvmBootstrap.Rehearsal.Arithmetic
import LlvmBootstrap.Rehearsal.Shell
import LlvmBootstrap.Rehearsal.Utilities
import LlvmBootstrap.Rehearsal.Builtins
import LlvmBootstrap.Rehearsal.Programs
import LlvmBootstrap.Rehearsal.Interpreter
import LlvmBootstrap.Rehearsal.Launch
import LlvmBootstrap.Main
import LlvmBootstrap.Proofs.Path.Moves
import LlvmBootstrap.Proofs.Tree.Places
import LlvmBootstrap.Proofs.Tree.Walk
import LlvmBootstrap.Proofs.Machine.Throughout
import LlvmBootstrap.Proofs.Machine.Asking
import LlvmBootstrap.Proofs.Tree.Below
import LlvmBootstrap.Proofs.Tree.Confined
import LlvmBootstrap.Proofs.Tree.Seen
import LlvmBootstrap.Proofs.Archive.Touches
import LlvmBootstrap.Proofs.Machine.Files
import LlvmBootstrap.Proofs.Archive.Inside
import LlvmBootstrap.Proofs.Archive.Confinement
import LlvmBootstrap.Proofs.Archive.Links
import LlvmBootstrap.Proofs.Machine.MadeDirs
import LlvmBootstrap.Proofs.Tree.Beside
import LlvmBootstrap.Proofs.Sources.Staging
import LlvmBootstrap.Proofs.Sources.Course
import LlvmBootstrap.Proofs.Sources.Atomic
import LlvmBootstrap.Proofs.Machine.Traced
import LlvmBootstrap.Proofs.Root.Progress
import LlvmBootstrap.Proofs.Root.Advance
import LlvmBootstrap.Proofs.Root.Changes
import LlvmBootstrap.Proofs.Root.Building
import LlvmBootstrap.Proofs.Root.Fetching
import LlvmBootstrap.Proofs.Root.Running
import LlvmBootstrap.Proofs.Build.Rollback
import LlvmBootstrap.Proofs.Machine.Along
import LlvmBootstrap.Proofs.Machine.Handles
import LlvmBootstrap.Proofs.Root.Frame
import LlvmBootstrap.Proofs.Root.FrameSteps
import LlvmBootstrap.Proofs.Root.LockFile
import LlvmBootstrap.Proofs.Root.LockPlace
import LlvmBootstrap.Proofs.Root.Operations
import LlvmBootstrap.Proofs.Root.SharedBuild
import LlvmBootstrap.Proofs.Root.SharedRun
import LlvmBootstrap.Proofs.Run.Calls
import LlvmBootstrap.Proofs.Run.Course
import LlvmBootstrap.Proofs.Run.Stops
import LlvmBootstrap.Proofs.Run.Order
import LlvmBootstrap.Proofs.Run.Environment
import LlvmBootstrap.Proofs.Run.Capture
import LlvmBootstrap.Proofs.Run.Again
import LlvmBootstrap.Proofs.Root.Handled
import LlvmBootstrap.Proofs.Root.Together
import LlvmBootstrap.Proofs.Root.Named
import LlvmBootstrap.Proofs.Json.Reading
import LlvmBootstrap.Proofs.Lock.Record
import LlvmBootstrap.Proofs.Lock.Refusal
import LlvmBootstrap.Proofs.Archive.HardLinks
import LlvmBootstrap.Proofs.Text.Utf8
import LlvmBootstrap.Proofs.Environment.Layers
import LlvmBootstrap.Proofs.Run.Prefix
import LlvmBootstrap.Proofs.Run.Children
import LlvmBootstrap.Proofs.Root.History
import LlvmBootstrap.Proofs.Path.Escaping
import LlvmBootstrap.Proofs.Archive.Rejection
import LlvmBootstrap.Proofs.Tree.Items
import LlvmBootstrap.Proofs.Archive.Placing
import LlvmBootstrap.Proofs.Archive.Contents
import LlvmBootstrap.Proofs.Packing.Inflating
import LlvmBootstrap.Proofs.Packing.Members
import LlvmBootstrap.Proofs.Packing.Stored
import LlvmBootstrap.Proofs.Tar.Cut
import LlvmBootstrap.Proofs.Archive.Gzipped
import LlvmBootstrap.Proofs.Sources.Expected
import LlvmBootstrap.Proofs.Sources.Requests
import LlvmBootstrap.Proofs.Sources.Checks
import LlvmBootstrap.Proofs.Environment.Dump
import LlvmBootstrap.Proofs.Platform.Script
import LlvmBootstrap.Proofs.Lock.Tenure
import LlvmBootstrap.Proofs.Toml.Keys
import LlvmBootstrap.Proofs.Settings.Decoding
import LlvmBootstrap.Proofs.Settings.Session
import LlvmBootstrap.Proofs.Downstream.Arguments
import LlvmBootstrap.Proofs.Path.Lexical
import LlvmBootstrap.Proofs.Archive.Acting
import LlvmBootstrap.Proofs.Archive.Looking
import LlvmBootstrap.Proofs.Path.Swapped
import LlvmBootstrap.Proofs.Archive.Elsewhere
import LlvmBootstrap.Proofs.Tree.SameOn
import LlvmBootstrap.Proofs.Machine.MadeAgain
import LlvmBootstrap.Proofs.Sources.Twice
import LlvmBootstrap.Proofs.Pair.Owned
import LlvmBootstrap.Proofs.Pair.Building
import LlvmBootstrap.Proofs.Pair.Locking
import LlvmBootstrap.Proofs.Pair.Preparing
import LlvmBootstrap.Proofs.Pair.InTurn
