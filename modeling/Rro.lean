import Rro.Library.Tables
import Rro.Library.Batches
import Rro.Library.DerivedRows
import Rro.Library.PrefixCodes
import Rro.Library.Parsing
import Rro.Library.TopRows
import Rro.Library.BreadthFirst
import Rro.Library.SeparatedKeys
import Rro.Library.PrefixScan
import Rro.Library.Transitions
import Rro.Library.Quorums
import Rro.Program.Records
import Rro.Program.Float64
import Rro.Program.Time
import Rro.Program.Geo
import Rro.Program.Keys
import Rro.Program.Documents
import Rro.Program.Kv
import Rro.Program.Txn
import Rro.Program.Store
import Rro.Program.Estate
import Rro.Program.Sessions
import Rro.Program.AnnIndex
import Rro.Program.Pending
import Rro.Program.GraphUpkeep
import Rro.Program.Persistence
import Rro.Program.Replication
import Rro.Program.Streams
import Rro.Program.Deployment
import Rro.Program.IndexBuild
import Rro.Program.Conditions
import Rro.Program.Ast
import Rro.Program.Lower
import Rro.Program.Lexer
import Rro.Program.Parser
import Rro.Program.Auth
import Rro.Program.Graphql
import Rro.Program.Handler
import Rro.Program.Relations
import Rro.Program.Tags
import Rro.Program.Facets
import Rro.Program.DenseSearch
import Rro.Program.Toon
import Rro.Model.CompoundKeys
import Rro.Model.Relations
import Rro.Model.BatchAlgebra
import Rro.Model.IndexRows
import Rro.Model.RecordSteps
import Rro.Model.Registration
import Rro.Model.Transactions
import Rro.Model.Refinement
import Rro.Model.EmptyEstate
import Rro.Model.Tracking
import Rro.Model.PayloadIndexes
import Rro.Model.FeedNumbers
import Rro.Model.Commits
import Rro.Model.Declarations
import Rro.Model.DocumentCounts
import Rro.Model.FieldKeys
import Rro.Model.HandoffInvariant
import Rro.Model.ToonScalars
import Rro.Model.Rendering
import Rro.Model.Decimals
import Rro.Model.Lexing
import Rro.Model.Grammar
import Rro.Model.CollectionNames
import Rro.Model.DenseRanking
import Rro.Model.VectorRows
import Rro.Model.UpkeepInvariant
import Rro.Model.UpkeepMoves
import Rro.Model.VaultInvariant
import Rro.Analysis.SequentialComposition
import Rro.Analysis.StaleReads
import Rro.Analysis.Histories
import Rro.Analysis.ExactIndexes
import Rro.Analysis.Changefeed
import Rro.Analysis.ReadYourWrites
import Rro.Analysis.GraphConvergence
import Rro.Analysis.CrashSafety
import Rro.Analysis.PushStream
import Rro.Analysis.FailedWrites
import Rro.Analysis.FilterResolution
import Rro.Analysis.Admission
import Rro.Analysis.KeyAdmission
import Rro.Analysis.IndexBuild
import Rro.Analysis.Lowering
import Rro.Analysis.RoundTrip
import Rro.Analysis.Toon
import Rro.Analysis.Capabilities
import Rro.Analysis.DenseArms
import Rro.Analysis.Relations
import Rro.Analysis.PrefixIsolation
import Rro.Analysis.Facets
import Rro.Library.Numerals
import Rro.Library.CursorPages
import Rro.Library.Calendar
import Rro.Model.MortonCodes
import Rro.Model.DoubleOrder
import Rro.Model.Timestamps
import Rro.Analysis.Timestamps
import Rro.Program.Connectors
import Rro.Model.Connectors
import Rro.Analysis.Connectors
import Rro.Library.Rankings
import Rro.Library.Accumulators
import Rro.Program.Lexical
import Rro.Model.LexicalScores
import Rro.Analysis.MaxScore
import Rro.Program.FilterScan
import Rro.Program.Query
import Rro.Model.Fusion
import Rro.Analysis.PagedVectors
import Rro.Analysis.GeoCircle
import Rro.Analysis.Paging
import Rro.Model.Queries
import Rro.Analysis.NoLeakage
import Rro.Library.ByteOffsets
import Rro.Program.ByteLexer
import Rro.Model.ByteLexing
import Rro.Model.ParserSpans
import Rro.Analysis.QueryText
import Rro.Model.GraphqlText
import Rro.Model.GraphqlGrammar
import Rro.Analysis.GraphqlRoundTrip
import Rro.Library.Heaps
import Rro.Program.AnnGraph
import Rro.Model.GraphLinks
import Rro.Model.GraphSearch
import Rro.Model.GraphInvariant
import Rro.Model.GraphInsertion
import Rro.Analysis.GraphSafety
import Rro.Analysis.GraphPersistence
import Rro.Analysis.GraphLoading
import Rro.Analysis.Baseline
import Rro.Analysis.Ingest
import Rro.Program.IngestStore
import Rro.Analysis.IngestOrder
import Rro.Analysis.Scroll
import Rro.Analysis.Porter
import Rro.Analysis.Highlighting
import Rro.Analysis.Tokens
import Rro.Analysis.Distill
import Rro.Analysis.Quant
import Rro.Model.SortableKeys
import Rro.Analysis.SortableKeys
import Rro.Library.Loops
import Rro.Library.SecureHash
import Rro.Model.HashConstants
import Rro.Model.HashLoops
import Rro.Analysis.SecureHash
import Rro.Model.LeaderFeed
import Rro.Model.Replicas
import Rro.Analysis.Replication
import Rro.Analysis.CatchUp
import Rro.Program.Sync
import Rro.Model.SyncRows
import Rro.Model.SyncInvariant
import Rro.Analysis.Sync
import Rro.Program.FilteredSearch
import Rro.Model.FilteredWidth
import Rro.Model.GraphReach
import Rro.Analysis.GraphRecall
import Rro.Library.LineFraming
import Rro.Program.Wire
import Rro.Analysis.Wire
import Rro.Analysis.WireProgress
