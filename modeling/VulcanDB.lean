import VulcanDB.Library.HashCons.Sharing
import VulcanDB.Library.HashCons.Idempotent
import VulcanDB.Compression.Tokens
import VulcanDB.Compression.Labels
import VulcanDB.Compression.Instance
import VulcanDB.Compression.Reading
import VulcanDB.Compression.Sections
import VulcanDB.Compression.Resolve
import VulcanDB.Compression.Refinement
import VulcanDB.Compression.Simulation
import VulcanDB.Compression.Runs
import VulcanDB.Compression.Termination
import VulcanDB.Compression.Sharing
import VulcanDB.Compression.Shape
import VulcanDB.Compression.Idempotence
import VulcanDB.Compression.StepText
import VulcanDB.Compression.Lossless
import VulcanDB.Library.Steps
import VulcanDB.Seda.Stages
import VulcanDB.Seda.Ledger
import VulcanDB.Seda.Events
import VulcanDB.Server.Lifetime
import VulcanDB.Server.Requests
import VulcanDB.Server.Connection
import VulcanDB.Server.Exchange
import VulcanDB.Server.Effects
import VulcanDB.Threadpool.Pool
import VulcanDB.Threadpool.Threads
import VulcanDB.Threadpool.Idling
import VulcanDB.Threadpool.Transaction
import VulcanDB.Threadpool.Kills
import VulcanDB.Threadpool.Progress
import VulcanDB.Express.Schema
import VulcanDB.Express.Sql
import VulcanDB.Express.Flags
import VulcanDB.Express.Lexer
import VulcanDB.Express.Grammar
import VulcanDB.Express.Parser
import VulcanDB.Express.Records
import VulcanDB.Express.Tables
import VulcanDB.Express.Integrity
import VulcanDB.Express.Order
import VulcanDB.Express.Coverage
import VulcanDB.Express.Passes
import VulcanDB.Client.Framing
import VulcanDB.Common.IniFile
import VulcanDB.Compression.Analysis
import VulcanDB.Compression.Safety
import VulcanDB.Compression.Positions
import VulcanDB.Compression.Tokenisers
import VulcanDB.Compression.Default
import VulcanDB.Seda.Config
import VulcanDB.Seda.Timeouts
import VulcanDB.Storage.Sessions
import VulcanDB.Library.Chain
import VulcanDB.Seda.Callbacks
import VulcanDB.Seda.Completion
import VulcanDB.Seda.CallbackRuns
import VulcanDB.Compression.Names
import VulcanDB.Library.Decimal
import VulcanDB.Library.Binary64
import VulcanDB.Compression.Points
import VulcanDB.Express.Graph
import VulcanDB.Express.TypeTree
import VulcanDB.Express.Truncation
import VulcanDB.Express.Brackets
import VulcanDB.Express.NameLists
import VulcanDB.Express.Attributes
import VulcanDB.Express.Aggregates
import VulcanDB.Express.Initialised
import VulcanDB.Express.References
import VulcanDB.Express.Mapping
import VulcanDB.Seda.Instantiate
import VulcanDB.Seda.NextStages
import VulcanDB.Seda.Lookups
import VulcanDB.Seda.Rounds
import VulcanDB.Common.Io
import VulcanDB.Server.Send
import VulcanDB.Client.Loop
import VulcanDB.Server.Receive
import VulcanDB.Library.Resort
import VulcanDB.Express.Resort
import VulcanDB.Express.Locality
import VulcanDB.Express.Isolation
import VulcanDB.Server.SessionStage
import VulcanDB.Server.Disposal
import VulcanDB.Library.Trim
import VulcanDB.Common.Strip
import VulcanDB.Common.Load
import VulcanDB.Library.Occurrence
import VulcanDB.Common.Replace
import VulcanDB.Common.SplitString
import VulcanDB.Common.Hex
import VulcanDB.Common.MergeString
import VulcanDB.Server.Parameters
import VulcanDB.Common.Newlines
import VulcanDB.Common.Continuation
import VulcanDB.Seda.Chains
import VulcanDB.Express.PreScan
import VulcanDB.Ifcparse.CharacterDecoder
import VulcanDB.Ifcparse.CharacterEncoder
import VulcanDB.Ifcparse.GlobalId
import VulcanDB.Common.Dump
import VulcanDB.Library.Ddl
import VulcanDB.Express.Catalog
import VulcanDB.Ifcparse.File
import VulcanDB.Ifcparse.Inverses
import VulcanDB.Ifcparse.Addition
import VulcanDB.Ifcparse.Deletion
import VulcanDB.Ifcparse.Removal
import VulcanDB.Ifcparse.Calls
