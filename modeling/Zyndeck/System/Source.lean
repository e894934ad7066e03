import Zyndeck.Ingester.Source
import Zyndeck.System.Drive

namespace Zyndeck

open Data

variable [Isolang]

/-! The attempts at a job, over whatever the services and the operators do. -/

def Phase.loaded? : Phase → Option IngestionJob
  | .executing job _ _ | .finishing job _ _ | .continuing job _ => some job
  | .claiming _ | .loading _ _ => none

@[simp] theorem loaded?_ofWork (job : IngestionJob) (run : IngestionStepRun) (work : Work) :
    (Phase.ofWork job run work).loaded? = some job := by
  cases work <;> rfl

theorem Phase.loaded?_of_run? {phase : Phase} (idle : phase.run? = none) :
    phase.loaded? = none := by
  cases phase <;> first | rfl | contradiction

theorem PhaseStep.loaded {drive : Nat} {db : Db} {phase later : Phase} {answer : Answer}
    {result : Moved} {job : IngestionJob} (step : PhaseStep drive db phase answer result)
    (next : result.phase = some later) (loaded : later.loaded? = some job) :
    phase.loaded? = some job ∨ Phase.load job.id db = some job := by
  cases step with
  | vanished | failed | unclaimed | unfinished | stopped | dropped => contradiction
  | claimed | advanced =>
      obtain rfl := Option.some.inj next
      contradiction
  | entered found =>
      obtain rfl := Option.some.inj next
      obtain rfl : _ = job := by simpa using loaded
      exact .inr ((Phase.load_id found).symm ▸ found)
  | worked step =>
      obtain rfl := Option.some.inj next
      exact .inl ((loaded?_ofWork ..).symm.trans loaded)
  | finished =>
      split at next
      · obtain rfl := Option.some.inj next
        exact .inl loaded
      · contradiction

namespace System

structure Keeps (system : System) (job : Uuid) (new : NewIngestionJob) : Prop where
  holds : system.db.Holds job new
  loaded : ∀ service task read, system.task? service = some task →
    task.phase.loaded? = some read → read.id = job → read.inputs = new.stored

end System

theorem Db.Holds.load {db : Db} {job : Uuid} {new : NewIngestionJob} {read : IngestionJob}
    (holds : db.Holds job new) (loaded : Phase.load job db = some read) :
    read.inputs = new.stored := by
  obtain ⟨found, decoded, inputs⟩ := holds.findById
  have same := (load_eq_some.mp loaded).symm.trans decoded
  obtain rfl := Option.some.inj (Except.ok.inj same)
  exact inputs

theorem Db.SamePipeline.holds {first second : Db} (same : first.SamePipeline second)
    {job : Uuid} {new : NewIngestionJob} (holds : first.Holds job new) : second.Holds job new := by
  obtain ⟨row, found, inputs⟩ := holds
  exact ⟨row, (same.job? job).trans found, inputs⟩

namespace Took

variable {system next : System} {event : Event} {job : Uuid} {new : NewIngestionJob}

theorem holds (took : Took system event next) (holds : system.db.Holds job new) :
    next.db.Holds job new := by
  cases took with
  | called => exact Effect.holds (exec_effect ..) holds
  | moved _ step =>
      rcases step.pipeline with same | ⟨_, _, _, effect, _⟩
      · exact same.holds holds
      · exact effect.holds holds
  | processed | switched | crashed | seated => exact holds
  | edited _ step => exact step.same.holds holds

theorem keeps (took : Took system event next) (keeps : system.Keeps job new) :
    next.Keeps job new where
  holds := took.holds keeps.holds
  loaded service task read working loaded ofJob := by
    rcases took.task_cases working with
      ⟨same, _⟩ | ⟨old, answer, result, _, before, step, later, _⟩ | ⟨_, idle⟩
    · exact keeps.loaded service task read same loaded ofJob
    · rcases step.loaded later loaded with kept | found
      · exact keeps.loaded service old read before kept ofJob
      · exact keeps.holds.load (ofJob ▸ found)
    · rw [Phase.loaded?_of_run? idle] at loaded
      contradiction

end Took

theorem System.Keeps.of_run {system state : System} {events : List Event} {job : Uuid}
    {new : NewIngestionJob} (keeps : system.Keeps job new)
    (run : Run (Steps System.step?) system events state) : state.Keeps job new := by
  have preserved : ∀ system event next, system.Keeps job new →
      Steps System.step? system event next → next.Keeps job new :=
    fun _ _ _ keeps taken => (System.step?_cases taken).keeps keeps
  have kept := run.invariant preserved
  exact kept keeps

theorem System.Sane.loaded_stored {system : System} (sane : system.Sane) {service : Nat}
    {task : Task} {read : IngestionJob} (working : system.task? service = some task)
    (loaded : task.phase.loaded? = some read) : read.id ∈ system.db.jobs.map (·.id) := by
  obtain ⟨drive, phase⟩ := task
  have stored : ∀ run, phase.run? = some run → phase.jobId ∈ system.db.jobs.map (·.id) := by
    intro run held
    obtain ⟨ofJob, row, member, _, sameJob, _⟩ := sane.stored service _ run ⟨working, held⟩
    have known := sane.shaped.referenced row member
    rw [sameJob, ← ofJob] at known
    exact Db.job?_isSome.mp known
  cases phase with
  | claiming | loading => contradiction
  | executing | finishing | continuing =>
      obtain rfl := Option.some.inj loaded
      exact stored _ rfl

theorem System.Sane.keeps_started {system : System} (sane : system.Sane) {env : Env}
    {new : NewIngestionJob} (startable : Startable env new system.db)
    (lettered : Isolang.Lettered) :
    ∃ job run, (Operation.exec env (.start new) system.db).result = .ok (.started job run) ∧
      (system.call env (.start new)).Keeps job.id new := by
  obtain ⟨job, run, succeeded, isDrawn, holds⟩ := startable.succeeds lettered
  refine ⟨job, run, succeeded, holds, fun service task read working loaded ofJob => ?_⟩
  rw [System.task?_call] at working
  have stored := sane.loaded_stored working loaded
  rw [ofJob, isDrawn] at stored
  exact absurd stored startable.freshJob

/-- Every attempt at a job opens the path as it was stored at the start, whatever the
services and the operators do in between. -/
theorem attempts_open_stored {allowed : System → Event → Prop} {system : System} {env : Env}
    {new : NewIngestionJob} (reachable : Reachable System.Initial (System.Events allowed) system)
    (lettered : Isolang.Lettered) (startable : Startable env new system.db) :
    ∃ job run, (Operation.exec env (.start new) system.db).result = .ok (.started job run) ∧
      ∀ events state, Run (Steps System.step?) (system.call env (.start new)) events state →
        ∀ service task read held body, state.task? service = some task →
          task.phase = .executing read held body → read.id = job.id →
          extractSource read = .ofText new.source.toStringLossy := by
  have sane := System.sane_of_reachable reachable
  obtain ⟨job, run, succeeded, keeps⟩ := sane.keeps_started startable lettered
  refine ⟨job, run, succeeded, fun events state ran service task read held body working phase
    ofJob => ?_⟩
  have loaded : task.phase.loaded? = some read := by rw [phase, Phase.loaded?]
  have inputs := (keeps.of_run ran).loaded service task read working loaded ofJob
  exact congrArg NewIngestionJob.source inputs

end Zyndeck
