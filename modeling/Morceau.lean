import Morceau.Atomicity
import Morceau.Backends
import Morceau.BadTails
import Morceau.Bincode
import Morceau.Cascade
import Morceau.CrashRecovery
import Morceau.Data.Doubles
import Morceau.Data.Graph
import Morceau.Data.Value
import Morceau.Engine
import Morceau.Engine.Commit
import Morceau.Engine.Operations
import Morceau.Engine.PointerWidth
import Morceau.Engine.Reads
import Morceau.Engine.Recovery
import Morceau.Engine.Refinement
import Morceau.Engine.Replay
import Morceau.Engine.Sequence
import Morceau.FailedAppends
import Morceau.ForeignLogs
import Morceau.GraphRefinement
import Morceau.GuardedLogs
import Morceau.HostStores
import Morceau.Lib.Blocks
import Morceau.Lib.Buckets
import Morceau.Lib.Coupling
import Morceau.Lib.EState
import Morceau.Lib.Framing
import Morceau.Lib.Kleene
import Morceau.Lib.LastWrites
import Morceau.Lib.Loops
import Morceau.Lib.Parsing
import Morceau.Lib.Prefixes
import Morceau.Lib.Rounding
import Morceau.Lib.Rows
import Morceau.Lib.SliceSort
import Morceau.Lib.Tokens
import Morceau.Lib.Turns
import Morceau.Lib.Utf8
import Morceau.Lib.Wire
import Morceau.OpenedStores
import Morceau.Platform
import Morceau.PropertyGraph
import Morceau.Query.Answers
import Morceau.Query.Ast
import Morceau.Query.Deletes
import Morceau.Query.Effects
import Morceau.Query.Equality
import Morceau.Query.Equivalence
import Morceau.Query.ErrorPositions
import Morceau.Query.FailedQueries
import Morceau.Query.Grammar
import Morceau.Query.IndexedLexer
import Morceau.Query.InlineProperties
import Morceau.Query.Interpreter
import Morceau.Query.Lexer
import Morceau.Query.LexerSafety
import Morceau.Query.Lexing
import Morceau.Query.Limits
import Morceau.Query.Matching
import Morceau.Query.OrderIndependence
import Morceau.Query.Ordering
import Morceau.Query.Parser
import Morceau.Query.ParserCompleteness
import Morceau.Query.ParserPrefixes
import Morceau.Query.ParserSoundness
import Morceau.Query.Printing
import Morceau.Query.Properties
import Morceau.Query.Pushdown
import Morceau.Query.Rendering
import Morceau.Query.Shaping
import Morceau.Query.Snapshots
import Morceau.Query.StringLiterals
import Morceau.Query.ThreeValued
import Morceau.Query.Typing
import Morceau.Query.UnboundVariables
import Morceau.Query.Unparsing
import Morceau.Query.Walks
import Morceau.Record
import Morceau.Replicas
import Morceau.SchemaConformance
import Morceau.SchemaVersions
import Morceau.SequenceGaps
import Morceau.Sessions
import Morceau.Storage
import Morceau.Sync.Backoff
import Morceau.Sync.Controllers
import Morceau.Sync.Hosts
import Morceau.Sync.Progress
import Morceau.Sync.WasmHost
import Morceau.Sync.WasmWorker
import Morceau.Sync.Worker
import Morceau.TableKinds
import Morceau.TornTails
