import Zyndeck.Db.Inputs
import Zyndeck.Ingester.Task

namespace Zyndeck

open Data

/-! The file a job was started with and the file its extract attempts open. -/

section

variable [Isolang]

def extractSource (job : IngestionJob) : PathBuf := job.source

/-- Every read of a job finds the inputs, and every attempt the file. -/
structure ReadsBack (new : NewIngestionJob) (job : Uuid) (db : Db) : Prop where
  locked : ∀ env, ∃ read,
    postgres.run env db (lockJob job) [] = .ok (read, []) ∧ read.inputs = new
  found : ∃ read, IngestionJobRepository.findById job db = .ok (some read) ∧ read.inputs = new
  attempted : ∀ drive run env message, ∃ loaded,
    Phase.step drive db (.loading job run) (.executed env message) =
      some (Phase.enter drive loaded run db) ∧ extractSource loaded = new.source

/-- `start_job` succeeds, and after any further calls the job reads back as started. -/
def InputsSurvive (env : Env) (db : Db) (new : NewIngestionJob) : Prop :=
  ∃ job run, (Operation.exec env (.start new) db).result = .ok (.started job run) ∧
    ∀ calls state, Run Performed (Operation.exec env (.start new) db).db calls state →
      ReadsBack new job.id state

theorem load_eq_some {job : Uuid} {db : Db} {loaded : IngestionJob} :
    Phase.load job db = some loaded ↔
      IngestionJobRepository.findById job db = .ok (some loaded) := by
  rw [Phase.load, IngestionJobRepository.findById]
  cases db.job? job with
  | none => simp
  | some row => cases decoded : row.tryInto <;> simp [decoded, Except.toOption, Except.map]

theorem Db.Holds.readsBack {db : Db} {job : Uuid} {new : NewIngestionJob}
    (holds : db.Holds job new) : ReadsBack new.stored job db where
  locked := holds.lockJob
  found := holds.findById
  attempted drive run env message := by
    obtain ⟨loaded, found, inputs⟩ := holds.findById
    have read := load_eq_some.mpr found
    exact ⟨loaded, by simp [Phase.step, read], congrArg NewIngestionJob.source inputs⟩

theorem ReadsBack.eq {first second : NewIngestionJob} {job : Uuid} {db : Db}
    (one : ReadsBack first job db) (other : ReadsBack second job db) : first = second := by
  obtain ⟨read, found, inputs⟩ := one.found
  obtain ⟨again, foundAgain, same⟩ := other.found
  obtain rfl := Option.some.inj (Except.ok.inj (found.symm.trans foundAgain))
  exact inputs.symm.trans same

/-- Whatever the path, later reads find its stored form. -/
theorem Startable.reads_stored {env : Env} {db : Db} {new : NewIngestionJob}
    (startable : Startable env new db) (lettered : Isolang.Lettered) :
    ∃ job run, (Operation.exec env (.start new) db).result = .ok (.started job run) ∧
      ∀ calls state, Run Performed (Operation.exec env (.start new) db).db calls state →
        ReadsBack new.stored job.id state := by
  obtain ⟨job, run, succeeded, _, holds⟩ := startable.succeeds lettered
  exact ⟨job, run, succeeded, fun calls state ran => (holds_of_run ran holds).readsBack⟩

theorem InputsSurvive.stored_eq {env : Env} {db : Db} {new : NewIngestionJob}
    (survive : InputsSurvive env db new) (startable : Startable env new db)
    (lettered : Isolang.Lettered) : new.stored = new := by
  obtain ⟨job, run, succeeded, stored⟩ := startable.reads_stored lettered
  obtain ⟨started, _, ended, given⟩ := survive
  obtain ⟨rfl, _⟩ := Output.started.inj (Except.ok.inj (succeeded.symm.trans ended))
  exact (stored [] _ .nil).eq (given [] _ .nil)

/-- The inputs of a job survive exactly when the bytes of its path are UTF-8. -/
theorem inputs_survive_iff {env : Env} {db : Db} {new : NewIngestionJob}
    (lettered : Isolang.Lettered) (startable : Startable env new db) :
    InputsSurvive env db new ↔ new.source.IsUtf8 := by
  rw [← NewIngestionJob.stored_eq_iff]
  constructor
  · exact fun survive => survive.stored_eq startable lettered
  · intro same
    obtain ⟨job, run, succeeded, stored⟩ := startable.reads_stored lettered
    exact ⟨job, run, succeeded, fun calls state ran => same ▸ stored calls state ran⟩

end

section

attribute [local instance] english

def scan (bytes : List UInt8) : NewIngestionJob := { rulebook with source := ⟨bytes⟩ }

def scanned : Env := (tick 1 (.start rulebook)).env

theorem english_lettered : Isolang.Lettered := by
  intro code known
  obtain rfl : code = ['e', 'n'] := of_decide_eq_true known
  exact ⟨rfl, List.forall_mem_cons.mpr ⟨by decide, List.forall_mem_singleton.mpr (by decide)⟩⟩

theorem scan_startable {bytes : List UInt8} (noNul : 0 ∉ bytes) :
    Startable scanned (scan bytes) catalog where
  referenced := nofun
  freshJob := by decide
  freshRun := by decide
  game := (by decide : rulebook.gameId ∈ catalog.games.map (·.id))
  creator := nofun
  noNul := noNul

def utf8Name : List UInt8 := [0x72, 0xC3, 0xA8, 0x67, 0x6C, 0x65, 0x73, 0x2E, 0x70, 0x64, 0x66]

def latin1Name : List UInt8 := [0x72, 0xE8, 0x67, 0x6C, 0x65, 0x73, 0x2E, 0x70, 0x64, 0x66]

theorem inputs_survive_utf8 : InputsSurvive scanned catalog (scan utf8Name) :=
  (inputs_survive_iff english_lettered (scan_startable (by decide))).mpr (by decide)

/-- The attempt at the job looks for another file than the one it was started with. -/
theorem inputs_lost_latin1 :
    Startable scanned (scan latin1Name) catalog ∧
      ¬ InputsSurvive scanned catalog (scan latin1Name) ∧
      ((Phase.load firstJob (Operation.exec scanned (.start (scan latin1Name)) catalog).db).map
          fun job => (extractSource job).bytes) =
        some [0x72, 0xEF, 0xBF, 0xBD, 0x67, 0x6C, 0x65, 0x73, 0x2E, 0x70, 0x64, 0x66] := by
  have startable : Startable scanned (scan latin1Name) catalog := scan_startable (by decide)
  refine ⟨startable, fun survive => ?_, by decide⟩
  have same := congrArg NewIngestionJob.source (survive.stored_eq startable english_lettered)
  exact absurd same (by decide)

end

end Zyndeck
