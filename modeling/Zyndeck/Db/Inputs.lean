import Zyndeck.Core.Path
import Zyndeck.Db.Recovery

namespace Zyndeck

open Data

/-! The inputs of a job, from its start through every later call. -/

def JobRow.inputs (row : JobRow) : Uuid × Text × Text × Option Uuid :=
  (row.gameId, row.source, row.language, row.createdBy)

section

variable [Isolang]

namespace NewIngestionJob

def columns (new : NewIngestionJob) : Uuid × Text × Text × Option Uuid :=
  (new.gameId, new.source.toStringLossy, new.language.code, new.createdBy)

def stored (new : NewIngestionJob) : NewIngestionJob :=
  { new with source := .ofText new.source.toStringLossy }

theorem stored_eq_iff {new : NewIngestionJob} : new.stored = new ↔ new.source.IsUtf8 := by
  rw [← PathBuf.ofText_toStringLossy_iff]
  constructor
  · exact congrArg NewIngestionJob.source
  · intro same
    rw [stored, same]

end NewIngestionJob

def IngestionJob.inputs (job : IngestionJob) : NewIngestionJob :=
  ⟨job.gameId, job.source, job.language, job.createdBy⟩

theorem JobRow.tryInto_of_inputs {row : JobRow} {new : NewIngestionJob}
    (same : row.inputs = new.columns) :
    ∃ job, row.tryInto = .ok job ∧ job.id = row.id ∧ job.inputs = new.stored := by
  obtain ⟨id, step, gameId, source, language, createdAt, createdBy⟩ := row
  simp only [inputs, NewIngestionJob.columns, Prod.mk.injEq] at same
  obtain ⟨rfl, rfl, rfl, rfl⟩ := same
  have parsed : LanguageCode.new new.language.code = .ok new.language := by
    rw [LanguageCode.new, dif_pos new.language.known]
  exact ⟨_, by simp [tryInto, parsed]; rfl, rfl, rfl⟩

/-! What is stored of a job, and what reads it. -/

def Db.Holds (db : Db) (job : Uuid) (new : NewIngestionJob) : Prop :=
  ∃ row, db.job? job = some row ∧ row.inputs = new.columns

/-- `find_by_id.sql`. -/
def IngestionJobRepository.findById (job : Uuid) (db : Db) : Except Error (Option IngestionJob) :=
  match db.job? job with
  | none => .ok none
  | some row => row.tryInto.map some

namespace Db.Holds

variable {db : Db} {job : Uuid} {new : NewIngestionJob}

theorem lockJob (holds : db.Holds job new) (env : Env) :
    ∃ read, postgres.run env db (lockJob job) [] = .ok (read, []) ∧ read.inputs = new.stored := by
  obtain ⟨row, found, same⟩ := holds
  obtain ⟨read, decoded, _, inputs⟩ := JobRow.tryInto_of_inputs same
  exact ⟨read, run_lockJob_ok.mpr ⟨⟨row, found, decoded⟩, rfl⟩, inputs⟩

theorem findById (holds : db.Holds job new) :
    ∃ read, IngestionJobRepository.findById job db = .ok (some read) ∧
      read.inputs = new.stored := by
  obtain ⟨row, found, same⟩ := holds
  obtain ⟨read, decoded, _, inputs⟩ := JobRow.tryInto_of_inputs same
  exact ⟨read, by simp [IngestionJobRepository.findById, found, decoded, Except.map], inputs⟩

end Db.Holds

/-! No call rewrites the inputs of a stored job. -/

omit [Isolang] in
theorem setStep_inputs {db : Db} {job other : Uuid} {step : IngestionStep} {row : JobRow}
    (found : db.job? job = some row) :
    ∃ kept, (db.apply (.setStep other step)).job? job = some kept ∧ kept.inputs = row.inputs := by
  rw [job?_setStep, found, Option.map_some]
  refine ⟨_, rfl, ?_⟩
  split <;> rfl

theorem Effect.job?_inputs {env : Env} {db next : Db} {operation : Operation}
    {result : Except Error Output} (effect : Effect env db operation result next) {job : Uuid}
    {row : JobRow} (found : db.job? job = some row) :
    ∃ kept, next.job? job = some kept ∧ kept.inputs = row.inputs := by
  cases effect with
  | @started new inserted run _ created =>
      have kept : (db.jobs ++ [inserted]).find? (·.id = job) = some row := by
        rw [List.find?_append, show db.jobs.find? (·.id = job) = some row from found]
        rfl
      exact ⟨row, kept, rfl⟩
  | validated | advanced | completed => exact setStep_inputs found
  | failed | claimed | finished | aborted | begun | restarted => exact ⟨row, found, rfl⟩

theorem Effect.holds {env : Env} {db next : Db} {operation : Operation}
    {result : Except Error Output} (effect : Effect env db operation result next) {job : Uuid}
    {new : NewIngestionJob} (holds : db.Holds job new) : next.Holds job new := by
  obtain ⟨row, found, same⟩ := holds
  obtain ⟨kept, keptFound, inputs⟩ := effect.job?_inputs found
  exact ⟨kept, keptFound, inputs.trans same⟩

theorem Performed.holds {db next : Db} {call : Call} {job : Uuid} {new : NewIngestionJob}
    (performed : Performed db call next) (holds : db.Holds job new) : next.Holds job new := by
  obtain ⟨_, effect⟩ := performed.effect
  exact effect.holds holds

theorem holds_of_run {db state : Db} {calls : List Call} {job : Uuid} {new : NewIngestionJob}
    (run : Run Performed db calls state) (holds : db.Holds job new) : state.Holds job new := by
  have preserved : ∀ db call next, db.Holds job new → Performed db call next →
      next.Holds job new := fun _ _ _ holds performed => performed.holds holds
  have kept := run.invariant preserved
  exact kept holds

/-! The start. -/

/-- ISO 639-1 codes are two lower-case letters. -/
def Isolang.Lettered : Prop :=
  ∀ code, Isolang.from6391 code = true →
    code.length = 2 ∧ ∀ char ∈ code, 'a' ≤ char ∧ char ≤ 'z'

/-- What `start_job` can rely on: the foreign keys, ids that are not taken, and a path
as the system passes it. -/
structure Startable (env : Env) (new : NewIngestionJob) (db : Db) : Prop where
  referenced : db.Referenced
  freshJob : env.jobId ∉ db.jobs.map (·.id)
  freshRun : env.runId ∉ db.runs.map (·.id)
  game : new.gameId ∈ db.games.map (·.id)
  creator : ∀ user ∈ new.createdBy, user ∈ db.users.map (·.id)
  noNul : 0 ∉ new.source.bytes

theorem LanguageCode.storable (lettered : Isolang.Lettered) (language : LanguageCode) :
    storable language.code = true := by
  have nul : '\x00' ∉ language.code := fun member => by
    have letter := ((lettered _ language.known).2 _ member).1
    exact absurd letter (by decide)
  simpa [Zyndeck.storable] using nul

namespace Startable

variable {env : Env} {new : NewIngestionJob} {db : Db}

theorem createJob (startable : Startable env new db) (lettered : Isolang.Lettered) :
    createJob env new db = .ok (newJob env new) := by
  have source : storable (newJob env new).source = true := by
    simpa [storable, newJob] using PathBuf.nul_not_mem_toStringLossy startable.noNul
  have language : storable (newJob env new).language = true := new.language.storable lettered
  have fresh : ¬ db.jobs.any (·.id = (newJob env new).id) = true := by
    rw [any_key, decide_eq_true_iff]
    exact startable.freshJob
  have game : db.games.any (·.id = (newJob env new).gameId) = true := by
    rw [any_key, decide_eq_true_iff]
    exact startable.game
  have creator : ¬ ((newJob env new).createdBy.any fun creator =>
      !db.users.any (·.id = creator)) = true := by
    cases named : new.createdBy with
    | none => simp [newJob, named]
    | some user => simpa [newJob, named, any_key] using startable.creator user named
  simp only [Zyndeck.createJob]
  rw [if_neg (by simp [source, language]), if_neg fresh, if_neg (by simp [game]), if_neg creator]

theorem runsOf_eq_nil (startable : Startable env new db) : db.runsOf env.jobId = [] := by
  refine List.filter_eq_nil_iff.mpr fun run member ofJob => startable.freshJob ?_
  have ofJob : run.jobId = env.jobId := by simpa using ofJob
  exact ofJob ▸ Db.job?_isSome.mp (startable.referenced run member)

theorem job? (startable : Startable env new db) :
    (db.apply (.insertJob (newJob env new))).job? env.jobId = some (newJob env new) := by
  have absent : db.jobs.find? (·.id = env.jobId) = none := find?_key_eq_none.mpr startable.freshJob
  have inserted : [newJob env new].find? (·.id = env.jobId) = some (newJob env new) :=
    List.find?_cons_of_pos (by simp [newJob])
  rw [Db.job?, Db.apply, List.find?_append, absent, inserted]
  rfl

theorem enqueue (startable : Startable env new db) :
    ∃ run, enqueue env env.jobId .extract (db.apply (.insertJob (newJob env new))) = .ok run := by
  have runs : (db.apply (.insertJob (newJob env new))).runsOf env.jobId = [] :=
    startable.runsOf_eq_nil
  refine ⟨_, insertRun_of_idle ?_ (by decide) ?_ (by rw [runs]; nofun) (by rw [runs]; decide)⟩
  · exact Option.isSome_iff_exists.mpr ⟨_, startable.job?⟩
  · exact fun other member same => startable.freshRun (same ▸ List.mem_map_of_mem member)

theorem succeeds (startable : Startable env new db) (lettered : Isolang.Lettered) :
    ∃ job run, (Operation.exec env (.start new) db).result = .ok (.started job run) ∧
      job.id = env.jobId ∧ (Operation.exec env (.start new) db).db.Holds job.id new := by
  obtain ⟨run, inserted⟩ := startable.enqueue
  obtain ⟨started, mapped, _⟩ := StepRunRow.tryInto_complete (enqueue_new inserted).complete
  obtain ⟨job, decoded, sameId, _⟩ := JobRow.tryInto_of_inputs (rfl : (newJob env new).inputs = _)
  have ran := startJob_ok.mpr ⟨_, job, run, started, startable.createJob lettered, decoded,
    inserted, mapped, rfl, rfl⟩
  rw [Operation.exec, transaction_of_ok ran]
  refine ⟨job, started, rfl, sameId, newJob env new, ?_, rfl⟩
  rw [sameId]
  exact startable.job?

end Startable

end

end Zyndeck
