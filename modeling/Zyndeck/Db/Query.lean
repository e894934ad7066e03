import Zyndeck.Data.Ranking
import Zyndeck.Data.Rows
import Zyndeck.Data.Transaction
import Zyndeck.Db.Schema

namespace Zyndeck

open Data

/-! The queries on jobs and step runs. -/

/-- What a transaction's queries see besides their parameters: `now()`, which is
the start of the transaction, the ids `gen_random_uuid()` yields, and how
Postgres ranks rows that an `ORDER BY` leaves tied. -/
structure Env where
  now : Timestamp
  jobId : Uuid
  runId : Uuid
  chunkId : Nat → Uuid
  tie : Uuid → Nat

structure NewIngestionJob [Isolang] where
  gameId : Uuid
  source : PathBuf
  language : LanguageCode
  createdBy : Option Uuid

namespace Db

def job? (db : Db) (job : Uuid) : Option JobRow := db.jobs.find? (·.id = job)

def runsOf (db : Db) (job : Uuid) : List StepRunRow := db.runs.filter (·.jobId = job)

end Db

/-! `find_latest.sql`. -/

/-- `ORDER BY started_at DESC NULLS FIRST, attempt DESC`, then the planner's
rank. -/
def laterFirst (tie : Uuid → Nat) (first second : StepRunRow) : Bool :=
  let byAttempt := decide (second.attempt < first.attempt) ||
    (decide (first.attempt = second.attempt) && decide (tie first.id < tie second.id))
  match first.startedAt, second.startedAt with
  | none, none => byAttempt
  | none, some _ => true
  | some _, none => false
  | some firstStart, some secondStart =>
      decide (secondStart < firstStart) ||
        (decide (firstStart = secondStart) && byAttempt)

theorem laterFirst_strictOrder (tie : Uuid → Nat) : StrictOrder (laterFirst tie) where
  asymm first second := by
    simp only [laterFirst]
    cases first.startedAt <;> cases second.startedAt <;> grind
  cotrans first middle last := by
    simp only [laterFirst]
    cases first.startedAt <;> cases middle.startedAt <;> cases last.startedAt <;> grind

def findLatest (env : Env) (job : Uuid) (db : Db) : Option StepRunRow :=
  firstBy (laterFirst env.tie) (db.runsOf job)

/-! Inserts. -/

/-- `coalesce(max(attempt), 0) + 1` over a job's runs of a step. -/
def nextAttempt (step : IngestionStep) (runs : List StepRunRow) : Nat :=
  (((runs.filter (·.step = step)).map (·.attempt)).max?.getD 0) + 1

namespace StepRunRow

/-- Two rows that the primary key, `UNIQUE (job_id, step, attempt)` or the index
`one_active_run_per_job` keeps from both being stored. -/
def clashes (row other : StepRunRow) : Bool :=
  decide (row.id = other.id) ||
    (decide (row.jobId = other.jobId) && decide (row.step = other.step) &&
      decide (row.attempt = other.attempt)) ||
    (decide (row.jobId = other.jobId) && row.status.isActive && other.status.isActive)

end StepRunRow

def newRun (env : Env) (job : Uuid) (step : IngestionStep) (status : RunStatus)
    (startedAt : Option Timestamp) (db : Db) : StepRunRow where
  id := env.runId
  jobId := job
  step
  attempt := nextAttempt step (db.runsOf job)
  status
  startedAt
  completedAt := none
  error := none

/-- Insert a run.  Checks are evaluated first, then the unique indexes, then the
foreign key. -/
def insertRun (env : Env) (job : Uuid) (step : IngestionStep) (status : RunStatus)
    (startedAt : Option Timestamp) (db : Db) : Except SqlError StepRunRow :=
  let row := newRun env job step status startedAt db
  if i32Max < row.attempt then .error .numericOutOfRange
  else if step = .completed then .error .checkViolation
  else if db.runs.any row.clashes then .error .uniqueViolation
  else if (db.job? job).isNone then
    .error (.foreignKeyViolation "ingestion_step_run_job_id_fkey")
  else .ok row

theorem insertRun_ok {env : Env} {job : Uuid} {step : IngestionStep} {status : RunStatus}
    {startedAt : Option Timestamp} {db : Db} {row : StepRunRow} :
    insertRun env job step status startedAt db = .ok row ↔
      row = newRun env job step status startedAt db ∧ row.attempt ≤ i32Max ∧
        step ≠ .completed ∧ (∀ other ∈ db.runs, row.clashes other = false) ∧
        (db.job? job).isSome := by
  simp only [insertRun]
  split
  · rename_i large
    refine iff_of_false (by simp) fun ⟨same, small, _⟩ => ?_
    rw [same] at small
    omega
  · rename_i small
    split
    · exact iff_of_false (by simp) fun ⟨_, _, allowed, _⟩ => allowed ‹_›
    · rename_i allowed
      split
      · rename_i clash
        refine iff_of_false (by simp) fun ⟨same, _, _, apart, _⟩ => ?_
        obtain ⟨other, member, clashes⟩ := List.any_eq_true.mp clash
        rw [← same, apart other member] at clashes
        contradiction
      · rename_i apart
        have apart : ∀ other ∈ db.runs,
            (newRun env job step status startedAt db).clashes other = false :=
          fun other member => Bool.eq_false_iff.mpr fun clashes =>
            apart (List.any_eq_true.mpr ⟨other, member, clashes⟩)
        split
        · rename_i missing
          refine iff_of_false (by simp) fun ⟨_, _, _, _, found⟩ => ?_
          rw [Option.isNone_iff_eq_none.mp missing] at found
          contradiction
        · rename_i found
          rw [Except.ok.injEq]
          constructor
          · rintro rfl
            exact ⟨rfl, by omega, allowed, apart,
              Option.isSome_iff_ne_none.mpr (by simpa using found)⟩
          · exact fun ⟨same, _⟩ => same.symm

/-- `enqueue.sql`. -/
def enqueue (env : Env) (job : Uuid) (step : IngestionStep) (db : Db) :
    Except SqlError StepRunRow :=
  insertRun env job step .pending none db

/-- `begin.sql`. -/
def begin (env : Env) (job : Uuid) (step : IngestionStep) (db : Db) :
    Except SqlError StepRunRow :=
  insertRun env job step .running (some env.now) db

def newJob [Isolang] (env : Env) (new : NewIngestionJob) : JobRow where
  id := env.jobId
  step := .extract
  gameId := new.gameId
  source := new.source.toStringLossy
  language := new.language.code
  createdAt := env.now
  createdBy := new.createdBy

def createJob [Isolang] (env : Env) (new : NewIngestionJob) (db : Db) :
    Except SqlError JobRow :=
  let row := newJob env new
  if !storable row.source || !storable row.language then .error .invalidText
  else if db.jobs.any (·.id = row.id) then .error .uniqueViolation
  else if !db.games.any (·.id = row.gameId) then
    .error (.foreignKeyViolation "ingestion_job_game_id_fkey")
  else if row.createdBy.any fun creator => !db.users.any (·.id = creator) then
    .error (.foreignKeyViolation "ingestion_job_created_by_fkey")
  else .ok row

theorem createJob_ok [Isolang] {env : Env} {new : NewIngestionJob} {db : Db} {row : JobRow}
    (created : createJob env new db = .ok row) :
    row = newJob env new ∧ row.id ∉ db.jobs.map (·.id) := by
  simp only [createJob] at created
  split at created
  · contradiction
  · split at created
    · contradiction
    · rename_i fresh
      split at created
      · contradiction
      · split at created
        · contradiction
        · obtain rfl := Except.ok.inj created
          refine ⟨rfl, fun member => fresh ?_⟩
          simpa [List.any_eq_true] using member

/-! Updates of a single statement: the row they return and the tables after. -/

namespace StepRunRow

def claim (now : Timestamp) (row : StepRunRow) : StepRunRow :=
  { row with status := .running, startedAt := some now }

def finish (now : Timestamp) (status : RunStatus) (error : Option Text)
    (row : StepRunRow) : StepRunRow :=
  { row with status, completedAt := some now, error }

def abort (now : Timestamp) (row : StepRunRow) : StepRunRow :=
  { row with status := .aborted, completedAt := some now }

def isPendingOf (job : Uuid) (row : StepRunRow) : Bool :=
  decide (row.jobId = job) && decide (row.status = .pending)

def isRunningRun (run : Uuid) (row : StepRunRow) : Bool :=
  decide (row.id = run) && decide (row.status = .running)

def isActiveOf (job : Uuid) (row : StepRunRow) : Bool :=
  decide (row.jobId = job) && row.status.isActive

end StepRunRow

namespace Db

/-- `UPDATE ingestion_step_run ... RETURNING`, fetched with `fetch_optional`. -/
def updateRuns (hit : StepRunRow → Bool) (set : StepRunRow → StepRunRow) (db : Db) :
    Option StepRunRow × Db :=
  ((returning hit set db.runs).head?, { db with runs := updateWhere hit set db.runs })

/-- `claim.sql`. -/
def claim (now : Timestamp) (job : Uuid) : Db → Option StepRunRow × Db :=
  updateRuns (·.isPendingOf job) (·.claim now)

/-- `finish.sql`. -/
def finish (now : Timestamp) (run : Uuid) (status : RunStatus) (error : Option Text) :
    Db → Option StepRunRow × Db :=
  updateRuns (·.isRunningRun run) (·.finish now status error)

/-- `abort.sql`. -/
def abort (now : Timestamp) (job : Uuid) : Db → Option StepRunRow × Db :=
  updateRuns (·.isActiveOf job) (·.abort now)

/-- `pending_run_job_ids.sql`. -/
def pendingRunJobIds (db : Db) : List Uuid :=
  ((db.runs.filter (·.status = .pending)).map (·.jobId)).dedup

end Db

/-! The statements of the transactions, and what they write. -/

inductive Statement [Isolang] where
  | createJob (new : NewIngestionJob)
  | lock (job : Uuid)
  | findLatest (job : Uuid)
  | updateStep (step : IngestionStep) (job : Uuid)
  | begin (job : Uuid) (step : IngestionStep)
  | enqueue (job : Uuid) (step : IngestionStep)
  | notify (job : Uuid)

inductive Write where
  | insertJob (row : JobRow)
  | setStep (job : Uuid) (step : IngestionStep)
  | insertRun (row : StepRunRow)
  /-- A `NOTIFY`, delivered to the listeners at the commit. -/
  | notify (job : Uuid)

def Db.apply (db : Db) : Write → Db
  | .insertJob row => { db with jobs := db.jobs ++ [row] }
  | .setStep job step =>
      { db with jobs := updateWhere (·.id = job) (fun row => { row with step }) db.jobs }
  | .insertRun row => { db with runs := db.runs ++ [row] }
  | .notify _ => db

/-! Writes and the reads they leave alone. -/

theorem job?_setStep (db : Db) (job other : Uuid) (step : IngestionStep) :
    (db.apply (.setStep job step)).job? other =
      (db.job? other).map fun row => if row.id = job then { row with step } else row := by
  refine (find?_updateWhere (·.id = job) (·.id = other)
    (fun row => { row with step }) (fun _ => rfl) db.jobs).trans ?_
  simp [Db.job?]

theorem job?_setStep_of_ne {db : Db} {job other : Uuid} {step : IngestionStep}
    (apart : other ≠ job) : (db.apply (.setStep other step)).job? job = db.job? job := by
  rw [job?_setStep]
  cases found : db.job? job with
  | none => rfl
  | some row =>
      have isJob : row.id = job := by simpa using List.find?_some found
      rw [Option.map_some, if_neg (isJob ▸ apart.symm)]

theorem runsOf_insertRun {db : Db} {job : Uuid} {run : StepRunRow} (ofJob : run.jobId = job) :
    (db.apply (.insertRun run)).runsOf job = db.runsOf job ++ [run] := by
  simp [Db.runsOf, Db.apply, ofJob]

theorem runsOf_insertRun_of_ne {db : Db} {job : Uuid} {run : StepRunRow}
    (apart : run.jobId ≠ job) : (db.apply (.insertRun run)).runsOf job = db.runsOf job := by
  simp [Db.runsOf, Db.apply, apart]

theorem insertRun_setStep (env : Env) (db : Db) (job other : Uuid) (target step : IngestionStep)
    (status : RunStatus) (startedAt : Option Timestamp) :
    insertRun env other step status startedAt (db.apply (.setStep job target)) =
      insertRun env other step status startedAt db := by
  simp only [insertRun, job?_setStep, Option.isNone_map]
  rfl

theorem enqueue_setStep (env : Env) (db : Db) (job other : Uuid) (target step : IngestionStep) :
    enqueue env other step (db.apply (.setStep job target)) = enqueue env other step db :=
  insertRun_setStep ..

theorem begin_setStep (env : Env) (db : Db) (job other : Uuid) (target step : IngestionStep) :
    begin env other step (db.apply (.setStep job target)) = begin env other step db :=
  insertRun_setStep ..

variable [Isolang]

@[reducible] def Statement.Reply : Statement → Type
  | .createJob _ => JobRow
  | .lock _ => Option JobRow
  | .findLatest _ => Option StepRunRow
  | .updateStep _ _ => Unit
  | .begin _ _ | .enqueue _ _ => StepRunRow
  | .notify _ => Unit

/-- The insert trigger `ingestion_job_ready_notify` fires with `createJob`. -/
def Statement.exec (env : Env) :
    (statement : Statement) → Db → Except SqlError (statement.Reply × List Write)
  | .createJob new, db =>
      (Zyndeck.createJob env new db).map fun row => (row, [.insertJob row, .notify row.id])
  | .lock job, db => .ok (db.job? job, [])
  | .findLatest job, db => .ok (Zyndeck.findLatest env job db, [])
  | .updateStep step job, _ => .ok ((), [.setStep job step])
  | .begin job step, db =>
      (Zyndeck.begin env job step db).map fun row => (row, [.insertRun row])
  | .enqueue job step, db =>
      (Zyndeck.enqueue env job step db).map fun row => (row, [.insertRun row])
  | .notify job, _ => .ok ((), [.notify job])

def postgres : Engine Statement Statement.Reply SqlError Env Db Write where
  exec := Statement.exec
  apply := Db.apply

end Zyndeck
