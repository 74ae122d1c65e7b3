import Tracefold.Adapter
import Tracefold.Ancestors
import Tracefold.Announced
import Tracefold.Api.Cursor
import Tracefold.Api.Idempotency
import Tracefold.Api.List
import Tracefold.Api.Paging
import Tracefold.Api.Retries
import Tracefold.Api.Serving
import Tracefold.Api.Stream
import Tracefold.Api.Streaming
import Tracefold.Attested
import Tracefold.Audit
import Tracefold.Calm
import Tracefold.Canon
import Tracefold.Cbor
import Tracefold.Cbor.Encode
import Tracefold.Cbor.Record
import Tracefold.Cbor.Scan
import Tracefold.Cbor.Serde
import Tracefold.Cbor.Span
import Tracefold.Cbor.Value
import Tracefold.Commit
import Tracefold.Compensation
import Tracefold.Core
import Tracefold.Db.Digest
import Tracefold.Db.Extract
import Tracefold.Db.History
import Tracefold.Db.Journal
import Tracefold.Db.Partition
import Tracefold.Db.Push
import Tracefold.Deadlines
import Tracefold.Declaration
import Tracefold.Ends
import Tracefold.Engine
import Tracefold.Escrow
import Tracefold.Files
import Tracefold.Flight
import Tracefold.Forward
import Tracefold.Fs.Adapter
import Tracefold.Fs.Lawful
import Tracefold.Fs.Locator
import Tracefold.Gate.Meet
import Tracefold.Gate.Verdict
import Tracefold.Gate.Verify
import Tracefold.Git.Adapter
import Tracefold.Git.Lawful
import Tracefold.Git.Locator
import Tracefold.Git.Tree
import Tracefold.Handlers
import Tracefold.Heads
import Tracefold.Ideal
import Tracefold.Ideal.Adapter
import Tracefold.Ideal.Api
import Tracefold.Ideal.Cbor
import Tracefold.Ideal.Gate
import Tracefold.Ideal.Git
import Tracefold.Ideal.Journal
import Tracefold.Journal
import Tracefold.Journal.Crash
import Tracefold.Journal.Held
import Tracefold.Journal.Intact
import Tracefold.Journal.Replay
import Tracefold.Journal.Shared
import Tracefold.Journal.Store
import Tracefold.Journal.Walks
import Tracefold.Lawful
import Tracefold.Leaves
import Tracefold.Ledger.Cache
import Tracefold.Ledger.Complete
import Tracefold.Ledger.Crash
import Tracefold.Ledger.Index
import Tracefold.Ledger.Pool
import Tracefold.Ledger.Proof
import Tracefold.Ledger.Store
import Tracefold.Ledger.Tile
import Tracefold.Ledger.Walks
import Tracefold.Library.Alphabet
import Tracefold.Library.Bits
import Tracefold.Library.Chain
import Tracefold.Library.Climb
import Tracefold.Library.Code
import Tracefold.Library.FileTree
import Tracefold.Library.Frames
import Tracefold.Library.Hex
import Tracefold.Library.Json
import Tracefold.Library.Log
import Tracefold.Library.Merkle
import Tracefold.Library.Outline
import Tracefold.Library.Pages
import Tracefold.Library.Pile
import Tracefold.Library.Prog
import Tracefold.Library.Scan
import Tracefold.Library.Sealed
import Tracefold.Library.Seams
import Tracefold.Library.Search
import Tracefold.Library.Separated
import Tracefold.Library.Slice
import Tracefold.Library.Sort
import Tracefold.Library.Text
import Tracefold.Lifecycle
import Tracefold.Locator
import Tracefold.Locator.Authority
import Tracefold.Locator.Lexical
import Tracefold.Locator.Percent
import Tracefold.Locator.Segments
import Tracefold.Locator.Stable
import Tracefold.Locked
import Tracefold.Mcp
import Tracefold.Mcp.Catalogue
import Tracefold.Mcp.Completion
import Tracefold.Mcp.Identity
import Tracefold.Mcp.Pointer
import Tracefold.Mcp.Position
import Tracefold.Mcp.Reads
import Tracefold.Mirror
import Tracefold.Mirror.Commit
import Tracefold.Mirror.Lifecycle
import Tracefold.Moves
import Tracefold.Moves.Commit
import Tracefold.Moves.Lifecycle
import Tracefold.Moves.Recover
import Tracefold.Moves.Undo
import Tracefold.Notes
import Tracefold.Process
import Tracefold.Promise
import Tracefold.Recover
import Tracefold.Replay
import Tracefold.Replayed
import Tracefold.Rollback
import Tracefold.Runs
import Tracefold.Shadow
import Tracefold.Spelling
import Tracefold.Step
import Tracefold.Sync
import Tracefold.Testimony
import Tracefold.Time.Adapter
import Tracefold.Time.Window
import Tracefold.Undo
import Tracefold.Verdicts
import Tracefold.Verdicts.Machine
import Tracefold.Verdicts.Pooled
import Tracefold.Warrant
import Tracefold.Windows
import Tracefold.Witness.DesignToken
import Tracefold.Witness.Dsse
import Tracefold.Witness.Keys
import Tracefold.Witness.Leaf
import Tracefold.Witness.ObjectFile
import Tracefold.Witness.Offline
import Tracefold.Witness.ReadSet
import Tracefold.Witness.Receipt
import Tracefold.Witness.Revocation
import Tracefold.Witness.Separation
