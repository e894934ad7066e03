import Zyndeck.Core.Basic

namespace Zyndeck

/-- The ISO 639-1 table of the `isolang` crate: whether `from_639_1` knows a
string. -/
class Isolang where
  from6391 : Text → Bool

structure InvalidLanguageCode where
  code : Text
  deriving DecidableEq, Repr

/-- A language code holds a known ISO 639-1 code by construction. -/
structure LanguageCode [Isolang] where
  code : Text
  known : Isolang.from6391 code = true

namespace LanguageCode

variable [Isolang]

def new (code : Text) : Except InvalidLanguageCode LanguageCode :=
  if known : Isolang.from6391 code = true then .ok ⟨code, known⟩ else .error ⟨code⟩

theorem new_of_known {code : Text} (known : Isolang.from6391 code = true) :
    ∃ language, new code = .ok language ∧ language.code = code :=
  ⟨⟨code, known⟩, by simp [new, known], rfl⟩

end LanguageCode

/-! Pipeline stages. -/

inductive IngestionStep where
  | extract
  | chunk
  | embed
  | completed
  deriving DecidableEq, Repr

structure ParseIngestionStepError where
  text : String
  deriving DecidableEq, Repr

namespace IngestionStep

/-- The step that follows this one; `completed` follows itself. -/
def next : IngestionStep → IngestionStep
  | .extract => .chunk
  | .chunk => .embed
  | .embed => .completed
  | .completed => .completed

def isCompleted : IngestionStep → Bool
  | .completed => true
  | _ => false

def asStr : IngestionStep → String
  | .extract => "extract"
  | .chunk => "chunk"
  | .embed => "embed"
  | .completed => "completed"

def fromStr : String → Except ParseIngestionStepError IngestionStep
  | "extract" => .ok .extract
  | "chunk" => .ok .chunk
  | "embed" => .ok .embed
  | "completed" => .ok .completed
  | other => .error ⟨other⟩

@[simp] theorem fromStr_asStr (step : IngestionStep) :
    fromStr step.asStr = .ok step := by
  cases step <;> rfl

end IngestionStep

inductive StepRunStatus where
  | pending
  | running (startedAt : Timestamp)
  | succeeded (startedAt completedAt : Timestamp)
  | failed (startedAt completedAt : Timestamp) (error : Text)
  | aborted (startedAt completedAt : Timestamp)
  deriving DecidableEq, Repr

namespace StepRunStatus

def isActive : StepRunStatus → Bool
  | .pending | .running .. => true
  | _ => false

def isSucceeded : StepRunStatus → Bool
  | .succeeded .. => true
  | _ => false

def asStr : StepRunStatus → String
  | .pending => "pending"
  | .running .. => "running"
  | .succeeded .. => "succeeded"
  | .failed .. => "failed"
  | .aborted .. => "aborted"

end StepRunStatus

structure IngestionStepRun where
  id : Uuid
  jobId : Uuid
  step : IngestionStep
  attempt : Nat
  status : StepRunStatus
  deriving DecidableEq, Repr

structure IngestionJob [Isolang] where
  id : Uuid
  gameId : Uuid
  source : PathBuf
  language : LanguageCode
  step : IngestionStep
  createdBy : Option Uuid
  createdAt : Timestamp

end Zyndeck
