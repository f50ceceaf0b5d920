import GqlArtifacts.Backend
import GqlArtifacts.Backend.Process
import GqlArtifacts.Backend.Response
import GqlArtifacts.Cache
import GqlArtifacts.CommandLine
import GqlArtifacts.CommandLine.Project
import GqlArtifacts.CommandLine.Run
import GqlArtifacts.Config
import GqlArtifacts.Config.Interpolation
import GqlArtifacts.Config.Load
import GqlArtifacts.Config.Resolved
import GqlArtifacts.Context
import GqlArtifacts.Discovery
import GqlArtifacts.Entrypoint
import GqlArtifacts.Files.Atomic
import GqlArtifacts.Files.Program
import GqlArtifacts.Files.Tree
import GqlArtifacts.Glob
import GqlArtifacts.Glob.Expansion
import GqlArtifacts.Graphql.BlockString
import GqlArtifacts.Graphql.Stripped
import GqlArtifacts.Graphql.Token
import GqlArtifacts.Hash
import GqlArtifacts.Hash.Xxh3
import GqlArtifacts.Json
import GqlArtifacts.Json.Number
import GqlArtifacts.Json.Printer
import GqlArtifacts.Json.Reader
import GqlArtifacts.Json.Record
import GqlArtifacts.Json.Token
import GqlArtifacts.Layout
import GqlArtifacts.Main
import GqlArtifacts.Manifest
import GqlArtifacts.Manifest.Json
import GqlArtifacts.OrderedMap
import GqlArtifacts.Path
import GqlArtifacts.Path.Os
import GqlArtifacts.Path.Relative
import GqlArtifacts.Proofs.Backend.Response
import GqlArtifacts.Proofs.Cache.Action
import GqlArtifacts.Proofs.Cache.Forget
import GqlArtifacts.Proofs.Cache.Load
import GqlArtifacts.Proofs.Cache.Outcome
import GqlArtifacts.Proofs.Cache.Prune
import GqlArtifacts.Proofs.Cache.Save
import GqlArtifacts.Proofs.CommandLine
import GqlArtifacts.Proofs.CommandLine.Again
import GqlArtifacts.Proofs.CommandLine.Resolve
import GqlArtifacts.Proofs.Config.Directories
import GqlArtifacts.Proofs.Config.Interpolation
import GqlArtifacts.Proofs.Config.Units
import GqlArtifacts.Proofs.Context
import GqlArtifacts.Proofs.Context.Preimage
import GqlArtifacts.Proofs.Discovery
import GqlArtifacts.Proofs.Entrypoint
import GqlArtifacts.Proofs.Entrypoint.Argument
import GqlArtifacts.Proofs.Entrypoint.Reading
import GqlArtifacts.Proofs.Files.Atomic
import GqlArtifacts.Proofs.Files.Descent
import GqlArtifacts.Proofs.Files.Keeps
import GqlArtifacts.Proofs.Files.Moments
import GqlArtifacts.Proofs.Files.Outcome
import GqlArtifacts.Proofs.Files.Place
import GqlArtifacts.Proofs.Files.Reading
import GqlArtifacts.Proofs.Files.Rewrite
import GqlArtifacts.Proofs.Files.Stop
import GqlArtifacts.Proofs.Files.Temporary
import GqlArtifacts.Proofs.Files.Tree
import GqlArtifacts.Proofs.Glob
import GqlArtifacts.Proofs.Glob.Inside
import GqlArtifacts.Proofs.Graphql.BlockString
import GqlArtifacts.Proofs.Graphql.Joined
import GqlArtifacts.Proofs.Graphql.Lexer
import GqlArtifacts.Proofs.Graphql.Reindent
import GqlArtifacts.Proofs.Graphql.Spacing
import GqlArtifacts.Proofs.Graphql.Stripped
import GqlArtifacts.Proofs.Graphql.Tiling
import GqlArtifacts.Proofs.Graphql.Token
import GqlArtifacts.Proofs.Hash
import GqlArtifacts.Proofs.Hash.Key
import GqlArtifacts.Proofs.History
import GqlArtifacts.Proofs.History.Entrypoint
import GqlArtifacts.Proofs.History.Files
import GqlArtifacts.Proofs.History.Freshness
import GqlArtifacts.Proofs.History.Invariant
import GqlArtifacts.Proofs.History.Orphans
import GqlArtifacts.Proofs.History.Partwise
import GqlArtifacts.Proofs.History.Recovery
import GqlArtifacts.Proofs.History.Sources
import GqlArtifacts.Proofs.Json.Append
import GqlArtifacts.Proofs.Json.Cut
import GqlArtifacts.Proofs.Json.Forms
import GqlArtifacts.Proofs.Json.RoundTrip
import GqlArtifacts.Proofs.Json.Spelling
import GqlArtifacts.Proofs.Layout
import GqlArtifacts.Proofs.Layout.Apart
import GqlArtifacts.Proofs.Manifest.Decoding
import GqlArtifacts.Proofs.Manifest.LaidOut
import GqlArtifacts.Proofs.Manifest.Restrict
import GqlArtifacts.Proofs.Manifest.RoundTrip
import GqlArtifacts.Proofs.Manifest.Spliced
import GqlArtifacts.Proofs.OrderedMap
import GqlArtifacts.Proofs.Path
import GqlArtifacts.Proofs.Path.Folding
import GqlArtifacts.Proofs.Path.Normal
import GqlArtifacts.Proofs.Path.Os
import GqlArtifacts.Proofs.Path.Relative
import GqlArtifacts.Proofs.Path.Shortest
import GqlArtifacts.Proofs.Regex
import GqlArtifacts.Proofs.Session.Calls
import GqlArtifacts.Proofs.Session.Commit
import GqlArtifacts.Proofs.Session.Confined
import GqlArtifacts.Proofs.Session.Documents
import GqlArtifacts.Proofs.Session.Failure
import GqlArtifacts.Proofs.Session.Generate
import GqlArtifacts.Proofs.Session.Overloads
import GqlArtifacts.Proofs.Session.Publish
import GqlArtifacts.Proofs.Session.Quiet
import GqlArtifacts.Proofs.Session.Reconcile
import GqlArtifacts.Proofs.Session.Run
import GqlArtifacts.Proofs.Session.Schema
import GqlArtifacts.Proofs.Session.Stop
import GqlArtifacts.Proofs.Session.Truncated
import GqlArtifacts.Proofs.Shell.Run
import GqlArtifacts.Proofs.Shell.Search
import GqlArtifacts.Proofs.Source.Literal
import GqlArtifacts.Proofs.Source.Pieces
import GqlArtifacts.Proofs.Source.Scan
import GqlArtifacts.Proofs.Source.ScriptCall
import GqlArtifacts.Proofs.Text.Bytes
import GqlArtifacts.Proofs.Text.Lossy
import GqlArtifacts.Regex
import GqlArtifacts.Regex.Reader
import GqlArtifacts.Session
import GqlArtifacts.Shell
import GqlArtifacts.Shell.Arithmetic
import GqlArtifacts.Shell.Builtins
import GqlArtifacts.Shell.Condition
import GqlArtifacts.Shell.Count
import GqlArtifacts.Shell.Escape
import GqlArtifacts.Shell.Fields
import GqlArtifacts.Shell.Launch
import GqlArtifacts.Shell.Machine
import GqlArtifacts.Shell.Options
import GqlArtifacts.Shell.Pattern
import GqlArtifacts.Shell.Printf
import GqlArtifacts.Shell.Reader
import GqlArtifacts.Shell.Run
import GqlArtifacts.Shell.Search
import GqlArtifacts.Shell.Source
import GqlArtifacts.Shell.Tools
import GqlArtifacts.Source
import GqlArtifacts.Source.FileKind
import GqlArtifacts.Source.ScriptCall
import GqlArtifacts.Text.Quoted
import GqlArtifacts.Text.Unprintable
import GqlArtifacts.Text.Utf8
import GqlArtifacts.Text.Whitespace
import GqlArtifacts.Toml
import GqlArtifacts.Toml.Date
import GqlArtifacts.Toml.Number
import GqlArtifacts.Toml.Quoted
import GqlArtifacts.Toml.Reader
import GqlArtifacts.Toml.Table
