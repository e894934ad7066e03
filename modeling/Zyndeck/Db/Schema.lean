import Zyndeck.Core.IngestionJob

namespace Zyndeck

/-! The tables of the two migrations.  A table is the list of its rows in
insertion order. -/

structure UserRow where
  id : Uuid
  username : Text
  passwordHash : Text
  role : Role
  createdAt : Timestamp
  deriving DecidableEq

/-- `name` is the JSON object from language codes to names. -/
structure GameRow where
  id : Uuid
  name : List (Text × Text)
  createdAt : Timestamp
  createdBy : Uuid
  deriving DecidableEq

structure JobRow where
  id : Uuid
  step : IngestionStep
  gameId : Uuid
  source : Text
  language : Text
  createdAt : Timestamp
  createdBy : Option Uuid
  deriving DecidableEq

/-- The texts the `CHECK` on `ingestion_step_run.status` admits. -/
inductive RunStatus where
  | pending
  | running
  | succeeded
  | failed
  | aborted
  deriving DecidableEq, Repr

namespace RunStatus

def asStr : RunStatus → String
  | .pending => "pending"
  | .running => "running"
  | .succeeded => "succeeded"
  | .failed => "failed"
  | .aborted => "aborted"

/-- `status IN ('pending', 'running')`, the predicate of the partial unique
index `one_active_run_per_job`. -/
def isActive : RunStatus → Bool
  | .pending | .running => true
  | _ => false

end RunStatus

structure StepRunRow where
  id : Uuid
  jobId : Uuid
  step : IngestionStep
  attempt : Nat
  status : RunStatus
  startedAt : Option Timestamp
  completedAt : Option Timestamp
  error : Option Text
  deriving DecidableEq

structure TranscriptRow where
  jobId : Uuid
  content : Text
  deriving DecidableEq

structure ChunkRow where
  id : Uuid
  jobId : Uuid
  position : Nat
  heading : Text
  page : Nat
  content : Text
  deriving DecidableEq

structure EmbeddingRow where
  chunkId : Uuid
  embedding : List F32
  deriving DecidableEq

structure Db where
  users : List UserRow
  games : List GameRow
  jobs : List JobRow
  runs : List StepRunRow
  transcripts : List TranscriptRow
  chunks : List ChunkRow
  embeddings : List EmbeddingRow

/-! Errors. -/

inductive SqlError where
  | uniqueViolation
  | foreignKeyViolation (constraint : String)
  | checkViolation
  /-- `integer out of range`. -/
  | numericOutOfRange
  /-- `invalid byte sequence`: a text column cannot hold NUL. -/
  | invalidText
  /-- A vector of another dimension than the column's, or with a component
  that is not finite. -/
  | invalidVector
  deriving DecidableEq, Repr

namespace SqlError

def isUniqueViolation : SqlError → Bool
  | .uniqueViolation => true
  | _ => false

end SqlError

inductive Error where
  | query (fault : SqlError)
  | usernameTaken (username : Text)
  | invalidRole (role : String)
  | invalidIngestionStep (step : String)
  | invalidLanguage (language : Text)
  | invalidStepRunStatus (status : String)
  | jobAlreadyRunning (job : Uuid)
  | gameNotFound (game : Uuid)
  | jobNotFound (job : Uuid)
  | jobCompleted (job : Uuid)
  | stepNotSucceeded (job : Uuid) (step : IngestionStep)
  | notInTranscriptionPhase (job : Uuid)
  | validationRequired (job : Uuid)
  deriving DecidableEq, Repr

/-- Whether a text can be stored: Postgres rejects NUL. -/
def storable (text : Text) : Bool := !text.contains '\x00'

end Zyndeck
