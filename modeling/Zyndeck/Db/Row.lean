import Zyndeck.Db.Schema

namespace Zyndeck

/-! Mapping stored rows to domain values. -/

/-- Reassemble a status from its text and the nullable columns.  A column the
status needs but that is missing means a corrupt row. -/
def statusFromColumns (status : String) (startedAt completedAt : Option Timestamp)
    (error : Option Text) : Except Error StepRunStatus :=
  let corrupt : Except Error StepRunStatus := .error (.invalidStepRunStatus status)
  match status with
  | "pending" => .ok .pending
  | "running" =>
      match startedAt with
      | some startedAt => .ok (.running startedAt)
      | none => corrupt
  | "succeeded" =>
      match startedAt, completedAt with
      | some startedAt, some completedAt => .ok (.succeeded startedAt completedAt)
      | _, _ => corrupt
  | "failed" =>
      match startedAt, completedAt, error with
      | some startedAt, some completedAt, some error =>
          .ok (.failed startedAt completedAt error)
      | _, _, _ => corrupt
  | "aborted" =>
      match startedAt, completedAt with
      | some startedAt, some completedAt => .ok (.aborted startedAt completedAt)
      | _, _ => corrupt
  | _ => corrupt

namespace StepRunRow

/-- `IngestionStepRun::try_from(IngestionStepRunRow)`. -/
def tryInto (row : StepRunRow) : Except Error IngestionStepRun :=
  match IngestionStep.fromStr row.step.asStr with
  | .error _ => .error (.invalidIngestionStep row.step.asStr)
  | .ok step =>
      match statusFromColumns row.status.asStr row.startedAt row.completedAt row.error with
      | .error failure => .error failure
      | .ok status => .ok ⟨row.id, row.jobId, step, row.attempt, status⟩

def Complete (row : StepRunRow) : Prop :=
  match row.status with
  | .pending => True
  | .running => row.startedAt.isSome
  | .succeeded => row.startedAt.isSome ∧ row.completedAt.isSome
  | .failed => row.startedAt.isSome ∧ row.completedAt.isSome ∧ row.error.isSome
  | .aborted => row.startedAt.isSome ∧ row.completedAt.isSome

/-- Exactly the complete rows decode, and the value says what the row does. -/
theorem tryInto_complete {row : StepRunRow} (complete : row.Complete) :
    ∃ run, row.tryInto = .ok run ∧ run.id = row.id ∧ run.jobId = row.jobId ∧
      run.step = row.step ∧ run.attempt = row.attempt ∧
      run.status.asStr = row.status.asStr ∧
      run.status.isActive = row.status.isActive ∧
      (run.status.isSucceeded = true ↔ row.status = .succeeded) := by
  obtain ⟨id, jobId, step, attempt, status, startedAt, completedAt, error⟩ := row
  cases status <;> cases startedAt <;> cases completedAt <;> cases error <;>
    first
    | (simp only [Complete, Option.isSome_none, Option.isSome_some, Bool.false_eq_true,
        false_and, and_false] at complete; done)
    | exact ⟨_, by simp [tryInto, statusFromColumns, RunStatus.asStr]; rfl,
        rfl, rfl, rfl, rfl, rfl, rfl, by simp [StepRunStatus.isSucceeded]⟩

theorem tryInto_of_not_complete {row : StepRunRow} (corrupt : ¬ row.Complete) :
    row.tryInto = .error (.invalidStepRunStatus row.status.asStr) := by
  obtain ⟨id, jobId, step, attempt, status, startedAt, completedAt, error⟩ := row
  cases status <;> cases startedAt <;> cases completedAt <;> cases error <;>
    first
    | (simp [Complete] at corrupt; done)
    | simp [tryInto, statusFromColumns, RunStatus.asStr]

theorem complete_of_tryInto_ok {row : StepRunRow} {run : IngestionStepRun}
    (decoded : row.tryInto = .ok run) : row.Complete := by
  refine Classical.byContradiction fun corrupt => ?_
  rw [tryInto_of_not_complete corrupt] at decoded
  contradiction

end StepRunRow

namespace JobRow

variable [Isolang]

/-- `IngestionJob::try_from(IngestionJobRow)`. -/
def tryInto (row : JobRow) : Except Error IngestionJob :=
  match IngestionStep.fromStr row.step.asStr with
  | .error _ => .error (.invalidIngestionStep row.step.asStr)
  | .ok step =>
      match LanguageCode.new row.language with
      | .error _ => .error (.invalidLanguage row.language)
      | .ok language =>
          .ok {
            id := row.id
            gameId := row.gameId
            source := PathBuf.ofText row.source
            language
            step
            createdBy := row.createdBy
            createdAt := row.createdAt }

theorem tryInto_of_known {row : JobRow} (known : Isolang.from6391 row.language = true) :
    ∃ job, row.tryInto = .ok job ∧ job.id = row.id ∧ job.step = row.step := by
  obtain ⟨language, parsed, _⟩ := LanguageCode.new_of_known known
  exact ⟨_, by simp [tryInto, parsed]; rfl, rfl, rfl⟩

theorem tryInto_ok {row : JobRow} {job : IngestionJob} (decoded : row.tryInto = .ok job) :
    job.id = row.id ∧ job.step = row.step := by
  simp only [tryInto, IngestionStep.fromStr_asStr] at decoded
  cases parsed : LanguageCode.new row.language with
  | error _ => simp [parsed] at decoded
  | ok language =>
      simp only [parsed, Except.ok.injEq] at decoded
      subst decoded
      exact ⟨rfl, rfl⟩

end JobRow

end Zyndeck
