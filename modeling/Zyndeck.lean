import Zyndeck.Data.Ranking
import Zyndeck.Data.Rows
import Zyndeck.Data.Transition
import Zyndeck.Data.Transaction
import Zyndeck.System.Source
import Zyndeck.Db.Gate
import Zyndeck.Db.Recovery
import Zyndeck.Ingester.Chunk
import Zyndeck.Db.Chunks
import Zyndeck.System.Resume
import Zyndeck.System.Transcript
import Zyndeck.System.Index
import Zyndeck.Db.Final
import Zyndeck.System.Completed
import Zyndeck.System.Rest
import Zyndeck.Data.Commits
import Zyndeck.System.Answers
import Zyndeck.System.Completion
import Zyndeck.Db.Contention
import Zyndeck.Db.Waiting
import Zyndeck.Ingester.Bleed
import Zyndeck.Ingester.Markdown
import Zyndeck.Ingester.Control
import Zyndeck.Ingester.Baseline
import Zyndeck.System.Overwrite
import Zyndeck.System.Wakeup
import Zyndeck.System.Shutdown
import Zyndeck.Api.Roles
import Zyndeck.Api.Deletion
import Zyndeck.Db.Tool
import Zyndeck.Api.Paging
import Zyndeck.Api.References
import Zyndeck.Api.Secrecy
import Zyndeck.Ingester.Embedding
import Zyndeck.System.World
import Zyndeck.System.Session
import Zyndeck.System.Lifecycle
import Zyndeck.Ingester.Compose
import Zyndeck.System.Cascade
