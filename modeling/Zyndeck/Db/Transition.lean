import Zyndeck.Db.Query
import Zyndeck.Db.Row

namespace Zyndeck

open Data

variable [Isolang]

/-! The job transitions of `Db`, as transaction bodies. -/

abbrev Tx (α : Type) := Program Statement.Reply SqlError Error α

def issue (statement : Statement) (onFault : SqlError → Error) : Tx statement.Reply :=
  Program.statement statement onFault

def fail (failure : Error) : Tx α := Program.throw failure

/-- A unique violation on inserting a run means the job has an active run. -/
def mapBeginError (job : Uuid) (fault : SqlError) : Error :=
  if fault.isUniqueViolation then .jobAlreadyRunning job else .query fault

def mapCreateError (game : Uuid) : SqlError → Error
  | .foreignKeyViolation constraint =>
      if constraint = "ingestion_job_game_id_fkey" then .gameNotFound game
      else .query (.foreignKeyViolation constraint)
  | fault => .query fault

/-- Select the job row `FOR UPDATE`, locking it for the rest of the transaction. -/
def lockJob (job : Uuid) : Tx IngestionJob := do
  match ← issue (.lock job) .query with
  | none => fail (.jobNotFound job)
  | some row => .done row.tryInto

def beginRun (job : Uuid) (step : IngestionStep) : Tx IngestionStepRun := do
  let row ← issue (.begin job step) (mapBeginError job)
  .done row.tryInto

def enqueueRun (job : Uuid) (step : IngestionStep) : Tx IngestionStepRun := do
  let row ← issue (.enqueue job step) (mapBeginError job)
  .done row.tryInto

def notifyReady (job : Uuid) : Tx Unit :=
  issue (.notify job) .query

def latestRun (job : Uuid) : Tx (Option IngestionStepRun) := do
  match ← issue (.findLatest job) .query with
  | none => pure none
  | some row => .done (row.tryInto.map some)

/-- Create a job and enqueue its first step's run. -/
def startJob (new : NewIngestionJob) : Tx (IngestionJob × IngestionStepRun) := do
  let row ← issue (.createJob new) (mapCreateError new.gameId)
  let job ← (.done row.tryInto : Tx IngestionJob)
  let run ← enqueueRun job.id job.step
  pure (job, run)

inductive Advanced where
  | running (run : IngestionStepRun)
  | completed
  deriving DecidableEq

def hasSucceeded (step : IngestionStep) (latest : Option IngestionStepRun) : Bool :=
  latest.any fun run => decide (run.step = step) && run.status.isSucceeded

/-- Advance a job to its next step and begin that step's run.  A job still on
`extract` has to be validated instead. -/
def continueJob (job : Uuid) : Tx Advanced := do
  let locked ← lockJob job
  if locked.step.isCompleted then fail (.jobCompleted job)
  else if locked.step = .extract then fail (.validationRequired job)
  else do
    let latest ← latestRun job
    if !hasSucceeded locked.step latest then
      fail (.stepNotSucceeded job locked.step)
    else do
      let target := locked.step.next
      issue (.updateStep target job) .query
      if target.isCompleted then pure .completed
      else do
        let run ← beginRun job target
        pure (.running run)

/-- Enqueue a fresh `extract` run while the job is still in transcription. -/
def restartJob (job : Uuid) : Tx IngestionStepRun := do
  let locked ← lockJob job
  if locked.step ≠ .extract then fail (.notInTranscriptionPhase job)
  else do
    let run ← enqueueRun job .extract
    notifyReady job
    pure run

/-- Open the gate between the phases: advance `extract` to `chunk` and enqueue
the first phase-2 run. -/
def validateJob (job : Uuid) : Tx IngestionStepRun := do
  let locked ← lockJob job
  if locked.step ≠ .extract then fail (.notInTranscriptionPhase job)
  else do
    let latest ← latestRun job
    if !hasSucceeded .extract latest then
      fail (.stepNotSucceeded job .extract)
    else do
      let target := IngestionStep.extract.next
      issue (.updateStep target job) .query
      let run ← enqueueRun job target
      notifyReady job
      pure run

/-! The operations of a single statement. -/

inductive StepOutcome where
  | succeeded
  | failed (error : Text)
  deriving DecidableEq

namespace StepOutcome

def status : StepOutcome → RunStatus
  | .succeeded => .succeeded
  | .failed _ => .failed

def error : StepOutcome → Option Text
  | .succeeded => none
  | .failed error => some error

end StepOutcome

/-- `row.map(IngestionStepRun::try_from).transpose()`. -/
def decodeRow : Option StepRunRow → Except Error (Option IngestionStepRun)
  | none => .ok none
  | some row => row.tryInto.map some

def claimPendingRun (now : Timestamp) (job : Uuid) (db : Db) :
    Except Error (Option IngestionStepRun) × Db :=
  ((db.claim now job).map decodeRow id)

def finishRun (now : Timestamp) (run : Uuid) (outcome : StepOutcome) (db : Db) :
    Except Error (Option IngestionStepRun) × Db :=
  if outcome.error.any (!storable ·) then (.error (.query .invalidText), db)
  else (db.finish now run outcome.status outcome.error).map decodeRow id

def abortRun (now : Timestamp) (job : Uuid) (db : Db) :
    Except Error (Option IngestionStepRun) × Db :=
  (db.abort now job).map decodeRow id

/-- The repository's `begin`: the insert has committed when its row is mapped. -/
def beginStepRun (env : Env) (job : Uuid) (step : IngestionStep) (db : Db) :
    Except Error IngestionStepRun × Db :=
  match begin env job step db with
  | .error fault => (.error (mapBeginError job fault), db)
  | .ok row => (row.tryInto, db.apply (.insertRun row))

/-! All operations under one type. -/

inductive Operation where
  | start (new : NewIngestionJob)
  | claim (job : Uuid)
  | finish (run : Uuid) (outcome : StepOutcome)
  | abort (job : Uuid)
  | begin (job : Uuid) (step : IngestionStep)
  | restart (job : Uuid)
  | validate (job : Uuid)
  | continue (job : Uuid)

inductive Output where
  | started (job : IngestionJob) (run : IngestionStepRun)
  | run (run : IngestionStepRun)
  | maybeRun (run : Option IngestionStepRun)
  | advanced (advanced : Advanced)

/-- What a call returns, the tables after it, and the jobs it announces. -/
structure Outcome where
  result : Except Error Output
  db : Db
  notified : List Uuid

def notifications (writes : List Write) : List Uuid :=
  writes.filterMap fun
    | .notify job => some job
    | _ => none

/-- Execute a body as one transaction without interference. -/
def transaction (env : Env) (body : Tx α) (output : α → Output) (db : Db) : Outcome :=
  let ended := postgres.transact env body db
  ⟨ended.1.map output, postgres.view db ended.2, notifications ended.2⟩

def Operation.exec (env : Env) : Operation → Db → Outcome
  | .start new, db => transaction env (startJob new) (fun (job, run) => .started job run) db
  | .claim job, db =>
      let ended := claimPendingRun env.now job db
      ⟨ended.1.map .maybeRun, ended.2, []⟩
  | .finish run outcome, db =>
      let ended := finishRun env.now run outcome db
      ⟨ended.1.map .maybeRun, ended.2, []⟩
  | .abort job, db =>
      let ended := abortRun env.now job db
      ⟨ended.1.map .maybeRun, ended.2, []⟩
  | .begin job step, db =>
      let ended := beginStepRun env job step db
      ⟨ended.1.map .run, ended.2, []⟩
  | .restart job, db => transaction env (restartJob job) .run db
  | .validate job, db => transaction env (validateJob job) .run db
  | .continue job, db => transaction env (continueJob job) .advanced db

end Zyndeck
