import Zyndeck.System.Step

namespace Zyndeck

open Data

section

variable [Isolang]

/-! The runs that tasks hold. -/

def Phase.run? : Phase → Option IngestionStepRun
  | .claiming _ => none
  | .loading _ run | .executing _ run _ | .finishing _ run _ | .continuing _ run => some run

def Phase.jobId : Phase → Uuid
  | .claiming job | .loading job _ => job
  | .executing job _ _ | .finishing job _ _ | .continuing job _ => job.id

def System.task? (system : System) (service : Nat) : Option Task :=
  (system.services service).task

def System.Holds (system : System) (service : Nat) (task : Task) (run : IngestionStepRun) : Prop :=
  system.task? service = some task ∧ task.phase.run? = some run

/-- The job of a phase-2 run is on the step of that run. -/
def Db.OnStep (db : Db) (run : IngestionStepRun) : Prop :=
  run.step ≠ .extract → ∃ history, db.history run.jobId = some history ∧ history.step = run.step

/-- What holds of the tasks in every state. -/
structure System.Sane (system : System) : Prop where
  shaped : system.db.Shaped
  stored : ∀ service task run, system.Holds service task run →
    task.phase.jobId = run.jobId ∧ system.db.Stores run (· ≠ .pending)
  onStep : ∀ service task run, system.Holds service task run → system.db.OnStep run
  apart : ∀ service other task second run held, system.Holds service task run →
    system.Holds other second held → run.id = held.id → service = other
  phaseTwo : ∀ service task job run, system.task? service = some task →
    task.phase = .continuing job run → run.step ≠ .extract
  numbered : ∀ service task, system.task? service = some task → task.drive < system.drives
  distinct : ∀ service other task second, system.task? service = some task →
    system.task? other = some second → task.drive = second.drive → service = other

/-! How jobs and runs may change around a task. -/

omit [Isolang] in
theorem RunsStep.stores {now : Timestamp} {db next : Db} {run : IngestionStepRun}
    {status : RunStatus → Prop} (step : RunsStep now db.runs next.runs)
    (kept : ∀ row new : StepRunRow, row.Evolves now new → status row.status → status new.status)
    (stored : db.Stores run status) : next.Stores run status := by
  obtain ⟨row, member, id, jobId, ofStep, holds⟩ := stored
  unfold Db.Stores
  generalize next.runs = runs at step
  cases step with
  | evolved evolve each =>
      exact ⟨evolve row, List.mem_map_of_mem member, (each row).id_eq.trans id,
        (each row).jobId_eq.trans jobId, (each row).step_eq.trans ofStep,
        kept row _ (each row) holds⟩
  | appended => exact ⟨row, List.mem_append_left _ member, id, jobId, ofStep, holds⟩

omit [Isolang] in
theorem StepRunRow.Evolves.not_pending {now : Timestamp} {old new : StepRunRow}
    (evolved : old.Evolves now new) (started : old.status ≠ .pending) : new.status ≠ .pending :=
  fun pending => started (evolved.pending pending ▸ pending)

theorem Effect.stores {env : Env} {db next : Db} {operation : Operation}
    {result : Except Error Output} (effect : Effect env db operation result next)
    {run : IngestionStepRun} (stored : db.Stores run (· ≠ .pending)) :
    next.Stores run (· ≠ .pending) :=
  effect.runsStep.stores (fun _ _ evolved => evolved.not_pending) stored

theorem Effect.onStep {env : Env} {db next : Db} {operation : Operation}
    {result : Except Error Output} (effect : Effect env db operation result next)
    (pipeline : operation.isBegin = false) (shaped : db.Shaped) {run : IngestionStepRun}
    (other : operation ≠ .continue run.jobId) (onStep : db.OnStep run) : next.OnStep run := by
  intro past
  obtain ⟨history, known, step⟩ := onStep past
  have progress := effect.progress_of_pipeline shaped.referenced pipeline run.jobId
  rw [known] at progress
  generalize later : next.history run.jobId = found at progress
  cases progress with
  | @stepped _ new _ _ advance =>
      refine ⟨new, rfl, Classical.byContradiction fun moved => other (advance ?_ ?_)⟩
      · rw [step]; exact past
      · rw [step]; exact moved

omit [Isolang] in
theorem Db.SamePipeline.onStep {first second : Db} (same : first.SamePipeline second)
    {run : IngestionStepRun} (onStep : first.OnStep run) : second.OnStep run := by
  intro past
  rw [same.history]
  exact onStep past

theorem Db.SamePipeline.keyed {first second : Db} (same : first.SamePipeline second)
    (keyed : first.Keyed) : second.Keyed where
  jobs := same.jobs ▸ keyed.jobs
  runs := same.runs ▸ keyed.runs
  oneActive := same.runs ▸ keyed.oneActive
  referenced run member := by
    rw [same.job?]
    exact keyed.referenced run (same.runs ▸ member)
  languages := same.jobs ▸ keyed.languages

theorem Db.SamePipeline.shaped {first second : Db} (same : first.SamePipeline second)
    (shaped : first.Shaped) : second.Shaped where
  toKeyed := same.keyed shaped.toKeyed
  histories job history known := shaped.histories job history (same.history job ▸ known)

theorem Db.Shaped.id_eq_of_onStep {db : Db} (shaped : db.Shaped)
    {first second : IngestionStepRun} {status : RunStatus → Prop}
    (firstStored : db.Stores first status) (secondStored : db.Stores second status)
    (firstStep : db.OnStep first) (secondStep : db.OnStep second)
    (sameJob : first.jobId = second.jobId) (firstPast : first.step ≠ .extract)
    (secondPast : second.step ≠ .extract) : first.id = second.id := by
  obtain ⟨history, known, step⟩ := firstStep firstPast
  obtain ⟨history', known', step'⟩ := secondStep secondPast
  obtain rfl := Option.some.inj (known.symm.trans (sameJob ▸ known'))
  obtain ⟨row, member, id, jobId, ofStep, _⟩ := firstStored
  obtain ⟨row', member', id', jobId', ofStep', _⟩ := secondStored
  have shapedHistory := shaped.histories _ _ known
  obtain ⟨_, _, rfl⟩ := Db.history_eq_some.mp known
  have same := shapedHistory.eq_of_step
    (List.mem_filter.mpr ⟨member, by simpa using jobId⟩)
    (List.mem_filter.mpr ⟨member', by simpa using jobId'.trans sameJob.symm⟩)
    (ofStep.trans (step.symm.trans (step'.trans ofStep'.symm))) (ofStep ▸ firstPast)
  rw [← id, ← id', same]

namespace System

structure Fits (system : System) (service : Nat) (next : Db) (task : Task) : Prop where
  run : ∀ run, task.phase.run? = some run →
    task.phase.jobId = run.jobId ∧ next.Stores run (· ≠ .pending) ∧ next.OnStep run ∧
      ∀ other second held, other ≠ service → system.Holds other second held → run.id ≠ held.id
  phaseTwo : ∀ job run, task.phase = .continuing job run → run.step ≠ .extract
  numbered : ∀ other second, other ≠ service → system.task? other = some second →
    task.drive ≠ second.drive

theorem Sane.of_moved {system next : System} {service : Nat} (sane : system.Sane)
    (shaped : next.db.Shaped)
    (kept : ∀ run, system.db.Stores run (· ≠ .pending) → next.db.Stores run (· ≠ .pending))
    (onStep : ∀ other task run, other ≠ service → system.Holds other task run →
      next.db.OnStep run)
    (others : ∀ other, other ≠ service → next.task? other = system.task? other)
    (own : ∀ task, next.task? service = some task →
      system.Fits service next.db task ∧ task.drive < next.drives)
    (drives : system.drives ≤ next.drives) : next.Sane := by
  have elsewhere : ∀ {other task run}, other ≠ service → next.Holds other task run →
      system.Holds other task run :=
    fun apart holds => ⟨others _ apart ▸ holds.1, holds.2⟩
  refine ⟨shaped, ?_, ?_, ?_, ?_, ?_, ?_⟩
  · intro other task run holds
    by_cases same : other = service
    · subst same
      obtain ⟨jobId, stored, _⟩ := (own task holds.1).1.run run holds.2
      exact ⟨jobId, stored⟩
    · obtain ⟨jobId, stored⟩ := sane.stored _ _ _ (elsewhere same holds)
      exact ⟨jobId, kept run stored⟩
  · intro other task run holds
    by_cases same : other = service
    · subst same
      exact ((own task holds.1).1.run run holds.2).2.2.1
    · exact onStep other task run same (elsewhere same holds)
  · intro first second task other run held holds alsoHolds sameId
    by_cases ofFirst : first = service
    · by_cases ofSecond : second = service
      · rw [ofFirst, ofSecond]
      · subst ofFirst
        exact absurd sameId (((own task holds.1).1.run run holds.2).2.2.2 second other held ofSecond
          (elsewhere ofSecond alsoHolds))
    · by_cases ofSecond : second = service
      · subst ofSecond
        exact absurd sameId.symm (((own other alsoHolds.1).1.run held alsoHolds.2).2.2.2 first task
          run ofFirst (elsewhere ofFirst holds))
      · exact sane.apart _ _ _ _ _ _ (elsewhere ofFirst holds) (elsewhere ofSecond alsoHolds) sameId
  · intro other task job run working isContinuing
    by_cases same : other = service
    · subst same
      exact (own task working).1.phaseTwo job run isContinuing
    · exact sane.phaseTwo other task job run (others other same ▸ working) isContinuing
  · intro other task working
    by_cases same : other = service
    · subst same
      exact (own task working).2
    · exact Nat.lt_of_lt_of_le (sane.numbered other task (others other same ▸ working)) drives
  · intro first second task other working alsoWorking sameDrive
    by_cases ofFirst : first = service
    · by_cases ofSecond : second = service
      · rw [ofFirst, ofSecond]
      · subst ofFirst
        exact absurd sameDrive ((own task working).1.numbered second other ofSecond
          (others second ofSecond ▸ alsoWorking))
    · by_cases ofSecond : second = service
      · subst ofSecond
        exact absurd sameDrive.symm ((own other alsoWorking).1.numbered first task ofFirst
          (others first ofFirst ▸ working))
      · exact sane.distinct _ _ _ _ (others first ofFirst ▸ working)
          (others second ofSecond ▸ alsoWorking) sameDrive

theorem Sane.of_kept {system next : System} (sane : system.Sane) (shaped : next.db.Shaped)
    (kept : ∀ run, system.db.Stores run (· ≠ .pending) → next.db.Stores run (· ≠ .pending))
    (onStep : ∀ run, system.db.OnStep run → next.db.OnStep run)
    (tasks : ∀ service, next.task? service = system.task? service)
    (drives : next.drives = system.drives) : next.Sane where
  shaped := shaped
  stored service task run holds := by
    obtain ⟨jobId, stored⟩ := sane.stored service task run ⟨tasks service ▸ holds.1, holds.2⟩
    exact ⟨jobId, kept run stored⟩
  onStep service task run holds :=
    onStep run (sane.onStep service task run ⟨tasks service ▸ holds.1, holds.2⟩)
  apart service other task second run held holds alsoHolds :=
    sane.apart _ _ _ _ _ _ ⟨tasks service ▸ holds.1, holds.2⟩
      ⟨tasks other ▸ alsoHolds.1, alsoHolds.2⟩
  phaseTwo service task job run working :=
    sane.phaseTwo service task job run (tasks service ▸ working)
  numbered service task working := drives ▸ sane.numbered service task (tasks service ▸ working)
  distinct service other task second working alsoWorking :=
    sane.distinct _ _ _ _ (tasks service ▸ working) (tasks other ▸ alsoWorking)

/-! The tasks after each kind of step. -/

theorem task?_setService (system : System) (service other : Nat) (state : Service) :
    (system.setService service state).task? other =
      if other = service then state.task else system.task? other := by
  by_cases same : other = service
  · subst same
    simp [task?, setService]
  · simp [task?, setService, same]

theorem task?_call (system : System) (env : Env) (operation : Operation) (service : Nat) :
    (system.call env operation).task? service = system.task? service := by
  simp only [task?, call, deliver]
  split <;> rfl

theorem task?_moved (system : System) (service other : Nat) (task : Task) (result : Moved) :
    (system.moved service task result).task? other =
      if other = service then result.phase.map (⟨task.drive, ·⟩) else system.task? other :=
  task?_setService ..

theorem task?_process (system : System) (service other : Nat) (loop : Loop)
    (queue : List Uuid) (job : Uuid) :
    (system.process service loop queue job).task? other =
      if other = service then some ⟨system.drives, .claiming job⟩ else system.task? other :=
  task?_setService ..

end System

theorem Db.Shaped.step_of_active {db : Db} (shaped : db.Shaped) {row : StepRunRow}
    (member : row ∈ db.runs) (active : row.status.isActive = true) :
    ∃ history, db.history row.jobId = some history ∧ history.step = row.step := by
  obtain ⟨job, found⟩ := Option.isSome_iff_exists.mp (shaped.referenced row member)
  have known := Db.history_of_found found
  exact ⟨_, known, ((shaped.histories _ _ known).active row
    (List.mem_filter.mpr ⟨member, by simp⟩) active).symm⟩

theorem Db.Shaped.onStep_of_active {db : Db} (shaped : db.Shaped) {run : IngestionStepRun}
    (stored : db.Stores run (·.isActive = true)) : db.OnStep run := by
  intro _
  obtain ⟨row, member, _, jobId, step, active⟩ := stored
  rw [← jobId, ← step]
  exact shaped.step_of_active member active

omit [Isolang] in
theorem Db.Stores.mono {db : Db} {run : IngestionStepRun} {status wider : RunStatus → Prop}
    (stored : db.Stores run status) (widen : ∀ current, status current → wider current) :
    db.Stores run wider := by
  obtain ⟨row, member, id, jobId, step, holds⟩ := stored
  exact ⟨row, member, id, jobId, step, widen _ holds⟩

theorem Db.Shaped.step_ne_completed {db : Db} (shaped : db.Shaped) {run : IngestionStepRun}
    {status : RunStatus → Prop} (stored : db.Stores run status) : run.step ≠ .completed := by
  obtain ⟨row, member, _, _, step, _⟩ := stored
  obtain ⟨job, found⟩ := Option.isSome_iff_exists.mp (shaped.referenced row member)
  have known := Db.history_of_found found
  exact step ▸ (shaped.histories _ _ known).step_ne_completed
    (List.mem_filter.mpr ⟨member, by simp⟩)

theorem claimed_stores {env : Env} {db : Db} {job : Uuid} {run : IngestionStepRun}
    (returned : (Operation.exec env (.claim job) db).result = .ok (.maybeRun (some run))) :
    run.jobId = job ∧ (Operation.exec env (.claim job) db).db.Stores run (· = .running) ∧
      db.Stores run (· = .pending) := by
  obtain ⟨row, stored, ofJob, pending, claimed, id, jobId, step⟩ := claimed_row returned
  exact ⟨jobId.trans ofJob, ⟨row.claim env.now, claimed, id.symm, jobId.symm, step.symm, rfl⟩,
    row, stored, id.symm, jobId.symm, step.symm, pending⟩

theorem advanced_stores {env : Env} {db : Db} {job : Uuid} {run : IngestionStepRun}
    (returned : (Operation.exec env (.continue job) db).result = .ok (.advanced (.running run))) :
    run.jobId = job ∧ run.step = .embed ∧
      (Operation.exec env (.continue job) db).db.Stores run (· = .running) ∧
      (∀ other ∈ db.runs, other.id ≠ run.id) ∧
      ∃ row, db.job? job = some row ∧ row.step = .chunk := by
  obtain ⟨row, inserted, found, step, begun, decoded, whole⟩ := advanced_row returned
  obtain ⟨id, jobId, ofStep⟩ := StepRunRow.fields_of_tryInto decoded
  have apart := insertRun_apart begun
  obtain ⟨rfl, _⟩ := insertRun_ok.mp begun
  refine ⟨jobId, ofStep, ?_, fun other member same => ?_, row, found, step⟩
  · rw [whole]
    exact ⟨_, List.mem_append_right _ (List.mem_singleton_self _), id.symm, jobId.symm,
      ofStep.symm, rfl⟩
  · have clear := apart other member
    simp [StepRunRow.clashes, same, id] at clear

theorem Db.Keyed.row_eq {db : Db} (keyed : db.Keyed) {first second : IngestionStepRun}
    {status other : RunStatus → Prop} (stored : db.Stores first status)
    (alsoStored : db.Stores second other) (sameId : first.id = second.id) :
    ∃ current, status current ∧ other current := by
  obtain ⟨row, member, id, _, _, holds⟩ := stored
  obtain ⟨row', member', id', _, _, holds'⟩ := alsoStored
  have same := List.inj_on_of_nodup_map keyed.runs member member'
    (id.trans (sameId.trans id'.symm))
  exact ⟨row.status, holds, same ▸ holds'⟩

theorem finished_stores {env : Env} {db : Db} {run value : IngestionStepRun}
    {outcome : StepOutcome} (keyed : db.Keyed) {status : RunStatus → Prop}
    (stored : db.Stores run status)
    (returned : (Operation.exec env (.finish run.id outcome) db).result =
      .ok (.maybeRun (some value))) :
    db.Stores run (· = .running) ∧
      (Operation.exec env (.finish run.id outcome) db).db.Stores run (· = outcome.status) := by
  obtain ⟨⟨row, member, id, running⟩, whole⟩ := finished_row returned
  obtain ⟨own, ownMember, ownId, jobId, step, _⟩ := stored
  obtain rfl := List.inj_on_of_nodup_map keyed.runs ownMember member (ownId.trans id.symm)
  refine ⟨⟨own, ownMember, ownId, jobId, step, running⟩, ?_⟩
  rw [whole]
  refine ⟨own.finish env.now outcome.status outcome.error, mem_updateWhere.mpr
    (.inl ⟨own, ownMember, ?_, rfl⟩), ownId, jobId, step, rfl⟩
  simp [StepRunRow.isRunningRun, ownId, running]

theorem Phase.Issues.isBegin {phase : Phase} {operation : Operation}
    (issues : phase.Issues operation) : operation.isBegin = false := by
  cases issues <;> rfl

theorem Phase.Issues.continuing {phase : Phase} {operation : Operation} {job : Uuid}
    (issues : phase.Issues operation) (advances : operation = .continue job) :
    ∃ loaded run, phase = .continuing loaded run ∧ job = loaded.id := by
  cases issues with
  | claim | finish => contradiction
  | advance => exact ⟨_, _, rfl, (Operation.continue.inj advances).symm⟩

theorem Phase.Issues.finishing {phase : Phase} {operation : Operation} {id : Uuid}
    {outcome : StepOutcome} (issues : phase.Issues operation)
    (finishes : operation = .finish id outcome) :
    ∃ run, phase.run? = some run ∧ id = run.id := by
  cases issues with
  | claim | advance => contradiction
  | finish => exact ⟨_, rfl, (Operation.finish.inj finishes).1.symm⟩

theorem Phase.Issues.ne_validate {phase : Phase} {operation : Operation}
    (issues : phase.Issues operation) (job : Uuid) : operation ≠ .validate job := by
  intro validates
  cases issues <;> contradiction

theorem Phase.Issues.ne_abort {phase : Phase} {operation : Operation}
    (issues : phase.Issues operation) (job : Uuid) : operation ≠ .abort job := by
  intro aborts
  cases issues <;> contradiction

/-- A task's request does nothing to jobs and runs, or what its phase asks for. -/
theorem PhaseStep.pipeline {drive : Nat} {db : Db} {phase : Phase} {answer : Answer}
    {result : Moved} (step : PhaseStep drive db phase answer result) :
    db.SamePipeline result.db ∨ ∃ env operation returned,
      Effect env db operation returned result.db ∧ phase.Issues operation ∧
        answer.env? = some env := by
  cases step with
  | vanished | failed | entered => exact .inl (.refl _)
  | worked step => exact .inl step.same
  | claimed | unclaimed => exact .inr ⟨_, _, _, exec_effect _ _ _, .claim, rfl⟩
  | finished | unfinished => exact .inr ⟨_, _, _, exec_effect _ _ _, .finish, rfl⟩
  | advanced | stopped => exact .inr ⟨_, _, _, exec_effect _ _ _, .advance, rfl⟩
  | dropped issues => exact .inr ⟨_, _, _, exec_effect _ _ _, issues, rfl⟩

namespace Phase

theorem run?_ofWork (job : IngestionJob) (run : IngestionStepRun) (work : Work) :
    (ofWork job run work).run? = some run := by
  cases work <;> rfl

theorem jobId_ofWork (job : IngestionJob) (run : IngestionStepRun) (work : Work) :
    (ofWork job run work).jobId = job.id := by
  cases work <;> rfl

theorem ofWork_ne_continuing {job later : IngestionJob} {run held : IngestionStepRun}
    {work : Work} : ofWork job run work ≠ .continuing later held := by
  cases work <;> simp [ofWork]

theorem load_row {job : Uuid} {db : Db} {loaded : IngestionJob}
    (found : load job db = some loaded) :
    ∃ row, db.job? job = some row ∧ loaded.id = job ∧ loaded.step = row.step := by
  obtain ⟨row, isRow, decoded⟩ := Option.bind_eq_some_iff.mp found
  cases mapped : row.tryInto with
  | error failure => simp [mapped, Except.toOption] at decoded
  | ok value =>
      obtain rfl : value = loaded := by simpa [mapped, Except.toOption] using decoded
      obtain ⟨sameId, sameStep⟩ := JobRow.tryInto_ok mapped
      exact ⟨row, isRow, sameId.trans (by simpa using List.find?_some isRow), sameStep⟩

theorem load_id {job : Uuid} {db : Db} {loaded : IngestionJob}
    (found : load job db = some loaded) : loaded.id = job := by
  obtain ⟨_, _, sameId, _⟩ := load_row found
  exact sameId

end Phase

namespace System

theorem Sane.fits {system : System} (sane : system.Sane) {service : Nat} {task : Task}
    {run : IngestionStepRun} (holds : system.Holds service task run) {next : Db} {phase : Phase}
    (same : phase.run? = some run) (jobId : phase.jobId = task.phase.jobId)
    (stored : next.Stores run (· ≠ .pending)) (onStep : next.OnStep run)
    (phaseTwo : ∀ job run, phase = .continuing job run → run.step ≠ .extract) :
    system.Fits service next ⟨task.drive, phase⟩ where
  run held isHeld := by
    obtain rfl := Option.some.inj (same.symm.trans isHeld)
    refine ⟨jobId.trans (sane.stored _ _ _ holds).1, stored, onStep,
      fun other second held apart alsoHolds sameId => apart ?_⟩
    exact sane.apart _ _ _ _ _ _ alsoHolds holds sameId.symm
  phaseTwo := phaseTwo
  numbered other second apart working sameDrive :=
    apart (sane.distinct _ _ _ _ working holds.1 sameDrive.symm)

theorem Sane.step_of_found {system : System} (sane : system.Sane) {service : Nat} {task : Task}
    {run : IngestionStepRun} (holds : system.Holds service task run)
    (past : run.step ≠ .extract) {row : JobRow}
    (found : system.db.job? task.phase.jobId = some row) : row.step = run.step := by
  obtain ⟨history, known, step⟩ := sane.onStep _ _ _ holds past
  rw [← (sane.stored _ _ _ holds).1, Db.history_of_found found] at known
  obtain rfl := Option.some.inj known
  exact step

theorem Sane.fits_handed {system : System} (sane : system.Sane) {service : Nat} {task : Task}
    (working : system.task? service = some task) {next : Db} {job : Uuid}
    {run : IngestionStepRun} (jobId : run.jobId = job) (running : next.Stores run (· = .running))
    (onStep : next.OnStep run)
    (fresh : ∀ other second held, system.Holds other second held → run.id ≠ held.id) :
    system.Fits service next ⟨task.drive, .loading job run⟩ where
  run held isHeld := by
    obtain rfl := Option.some.inj isHeld
    exact ⟨jobId.symm, running.mono (by simp +contextual), onStep,
      fun other second held _ => fresh other second held⟩
  phaseTwo _ _ same := by simp at same
  numbered other second apart alsoWorking sameDrive :=
    apart (sane.distinct _ _ _ _ alsoWorking working sameDrive.symm)

/-- Only the task that holds a job's current run can move the job on. -/
theorem Sane.onStep_moved {system : System} (sane : system.Sane) {service : Nat} {task : Task}
    (working : system.task? service = some task) {answer : Answer} {result : Moved}
    (step : PhaseStep task.drive system.db task.phase answer result) {other : Nat} {second : Task}
    {run : IngestionStepRun} (apart : other ≠ service) (holds : system.Holds other second run) :
    result.db.OnStep run := by
  have current := sane.onStep _ _ _ holds
  rcases step.pipeline with same | ⟨_, operation, _, effect, issues, _⟩
  · exact same.onStep current
  · by_cases extract : run.step = .extract
    · exact fun past => absurd extract past
    refine effect.onStep issues.isBegin sane.shaped (fun isContinue => apart ?_) current
    obtain ⟨loaded, mine, isContinuing, sameJob⟩ := issues.continuing isContinue
    have myRun : system.Holds service task mine := ⟨working, by rw [isContinuing]; rfl⟩
    obtain ⟨jobId, mineStored⟩ := sane.stored _ _ _ myRun
    rw [isContinuing] at jobId
    have sameId := sane.shaped.id_eq_of_onStep (sane.stored _ _ _ holds).2 mineStored current
      (sane.onStep _ _ _ myRun) (sameJob.trans jobId) extract
      (sane.phaseTwo _ _ _ _ working isContinuing)
    exact sane.apart _ _ _ _ _ _ holds myRun sameId

theorem Sane.moved {system : System} (sane : system.Sane) {service : Nat} {task : Task}
    (working : system.task? service = some task) {answer : Answer} {result : Moved}
    (step : PhaseStep task.drive system.db task.phase answer result) :
    (system.moved service task result).Sane := by
  have shaped : result.db.Shaped := by
    rcases step.pipeline with same | ⟨_, _, _, effect, issues, _⟩
    · exact same.shaped sane.shaped
    · exact effect.shaped issues.isBegin sane.shaped
  have kept : ∀ run, system.db.Stores run (· ≠ .pending) →
      result.db.Stores run (· ≠ .pending) := by
    intro run stored
    rcases step.pipeline with same | ⟨_, _, _, effect, _⟩
    · exact same.stores stored
    · exact effect.stores stored
  refine sane.of_moved shaped kept (fun _ _ _ => sane.onStep_moved working step)
    (fun other apart => ?_) (fun later isLater => ?_) (Nat.le_refl _)
  · rw [task?_moved, if_neg apart]
  · rw [task?_moved, if_pos rfl] at isLater
    obtain ⟨phase, isPhase, rfl⟩ := Option.map_eq_some_iff.mp isLater
    have below := sane.numbered _ _ working
    refine ⟨?_, below⟩
    obtain ⟨drive, current⟩ := task
    cases step with
    | vanished | failed | unclaimed | unfinished | stopped | dropped => contradiction
    | claimed returned =>
        obtain rfl := Option.some.inj isPhase
        obtain ⟨jobId, running, pending⟩ := claimed_stores returned
        refine sane.fits_handed working jobId running
          (shaped.onStep_of_active (running.mono (by rintro _ rfl; rfl)))
          fun other second held holds sameId => ?_
        obtain ⟨_, isPending, notPending⟩ := sane.shaped.row_eq pending
          (sane.stored _ _ _ holds).2 sameId
        exact notPending isPending
    | entered found =>
        obtain rfl := Option.some.inj isPhase
        have holds : system.Holds service _ _ := ⟨working, rfl⟩
        exact sane.fits holds (Phase.run?_ofWork ..) ((Phase.jobId_ofWork ..).trans
          (Phase.load_id found)) (sane.stored _ _ _ holds).2 (sane.onStep _ _ _ holds)
          fun _ _ same => absurd same Phase.ofWork_ne_continuing
    | worked step =>
        obtain rfl := Option.some.inj isPhase
        have holds : system.Holds service _ _ := ⟨working, rfl⟩
        exact sane.fits holds (Phase.run?_ofWork ..) (Phase.jobId_ofWork ..)
          (kept _ (sane.stored _ _ _ holds).2) (step.same.onStep (sane.onStep _ _ _ holds))
          fun _ _ same => absurd same Phase.ofWork_ne_continuing
    | finished returned =>
        have holds : system.Holds service _ _ := ⟨working, rfl⟩
        simp only at isPhase
        split at isPhase
        · rename_i goesOn
          obtain rfl := Option.some.inj isPhase
          refine sane.fits holds rfl rfl (kept _ (sane.stored _ _ _ holds).2)
            ((exec_effect ..).onStep rfl sane.shaped nofun (sane.onStep _ _ _ holds)) ?_
          rintro job run ⟨⟩
          exact goesOn.2
        · contradiction
    | advanced returned =>
        obtain rfl := Option.some.inj isPhase
        obtain ⟨jobId, _, running, fresh, _⟩ := advanced_stores returned
        refine sane.fits_handed working jobId running
          (shaped.onStep_of_active (running.mono (by rintro _ rfl; rfl)))
          fun other second held holds sameId => ?_
        obtain ⟨row, member, id, _⟩ := (sane.stored _ _ _ holds).2
        exact fresh row member (id.trans sameId.symm)

end System

theorem Operation.pipeline_of_byOperator {operation : Operation}
    (byOperator : operation.byOperator = true) :
    operation.isBegin = false ∧ ∀ job, operation ≠ .continue job := by
  cases operation with
  | start | restart | validate | abort => exact ⟨rfl, fun _ same => nomatch same⟩
  | claim | finish | begin | «continue» => contradiction

/-- No step of the system disturbs what holds of the tasks. -/
theorem Took.sane {system next : System} {event : Event} (took : Took system event next)
    (sane : system.Sane) : next.Sane := by
  have kept : ∀ run, system.db.Stores run (· ≠ .pending) →
      system.db.Stores run (· ≠ .pending) := fun _ stored => stored
  cases took with
  | called byOperator =>
      obtain ⟨pipeline, other⟩ := Operation.pipeline_of_byOperator byOperator
      exact sane.of_kept ((exec_effect ..).shaped pipeline sane.shaped)
        (fun _ => (exec_effect ..).stores)
        (fun _ => (exec_effect ..).onStep pipeline sane.shaped (other _))
        (System.task?_call _ _ _) rfl
  | moved working step => exact sane.moved working step
  | @processed service _ loop queue job idle event_eq =>
      refine sane.of_moved sane.shaped kept
        (fun other task run (_ : other ≠ service) => sane.onStep other task run)
        (fun other apart => ?_) (fun task working => ?_) (Nat.le_succ _)
      · rw [System.task?_process, if_neg apart]
      · rw [System.task?_process, if_pos rfl] at working
        obtain rfl := Option.some.inj working
        refine ⟨⟨fun _ same => by simp [Phase.run?] at same, fun _ _ same => by simp at same,
          fun other second _ alsoWorking => ?_⟩, Nat.lt_succ_self _⟩
        exact Nat.ne_of_gt (sane.numbered other second alsoWorking)
  | @switched state service _ same =>
      refine sane.of_kept sane.shaped kept (fun _ onStep => onStep) (fun other => ?_) rfl
      rw [System.task?_setService]
      split
      · rename_i own
        exact own ▸ same
      · rfl
  | @crashed service =>
      refine sane.of_moved sane.shaped kept
        (fun other task run (_ : other ≠ service) => sane.onStep other task run)
        (fun other apart => ?_) (fun task working => ?_) (Nat.le_refl _)
      · rw [System.task?_setService, if_neg apart]
      · rw [System.task?_setService, if_pos rfl] at working
        contradiction
  | seated => exact sane.of_kept sane.shaped kept (fun _ onStep => onStep) (fun _ => rfl) rfl
  | edited working step =>
      exact sane.of_kept (step.same.shaped sane.shaped) (fun _ => step.same.stores)
        (fun _ => step.same.onStep) (fun _ => rfl) rfl

theorem Took.task_cases {system next : System} {event : Event} (took : Took system event next)
    {service : Nat} {task : Task} (working : next.task? service = some task) :
    (system.task? service = some task ∧ ∀ answer, event ≠ .task service answer) ∨
      (∃ old answer result, event = .task service answer ∧ system.task? service = some old ∧
        PhaseStep old.drive system.db old.phase answer result ∧
        result.phase = some task.phase ∧ task.drive = old.drive ∧
        next = system.moved service old result) ∨
      task.drive = system.drives ∧ task.phase.run? = none := by
  cases took with
  | called => exact .inl ⟨System.task?_call .. ▸ working, nofun⟩
  | moved known step =>
      rw [System.task?_moved] at working
      split at working
      · obtain ⟨phase, isPhase, rfl⟩ := Option.map_eq_some_iff.mp working
        rename_i own
        exact .inr (.inl ⟨_, _, _, own ▸ rfl, own ▸ known, step, isPhase, rfl, own ▸ rfl⟩)
      · rename_i apart
        exact .inl ⟨working, fun answer same => apart (Event.task.inj same).1.symm⟩
  | processed _ event_eq =>
      rw [System.task?_process] at working
      split at working
      · obtain rfl := Option.some.inj working
        exact .inr (.inr ⟨rfl, rfl⟩)
      · exact .inl ⟨working, fun answer same => by simp [same] at event_eq⟩
  | switched same event_eq =>
      rw [System.task?_setService] at working
      refine .inl ⟨?_, fun answer same => by simp [same] at event_eq⟩
      split at working
      · rename_i own
        exact own ▸ same.symm.trans working
      · exact working
  | crashed =>
      rw [System.task?_setService] at working
      split at working
      · contradiction
      · exact .inl ⟨working, nofun⟩
  | seated _ event_eq => exact .inl ⟨working, fun answer same => by simp [same] at event_eq⟩
  | edited => exact .inl ⟨working, nofun⟩

theorem Took.runsStep {system next : System} {event : Event} (took : Took system event next) :
    ∃ now, RunsStep now system.db.runs next.db.runs := by
  cases took with
  | called => exact ⟨_, (exec_effect ..).runsStep⟩
  | moved _ step =>
      rcases step.pipeline with same | ⟨env, _, _, effect, _⟩
      · exact ⟨0, same.runs ▸ .refl 0 _⟩
      · exact ⟨env.now, effect.runsStep⟩
  | processed | switched | crashed | seated => exact ⟨0, .refl 0 _⟩
  | edited _ step => exact ⟨0, step.same.runs ▸ .refl 0 _⟩

theorem Took.drives_le {system next : System} {event : Event} (took : Took system event next) :
    system.drives ≤ next.drives := by
  cases took with
  | processed => exact Nat.le_succ _
  | called | moved | switched | crashed | seated | edited => exact Nat.le_refl _

namespace System

theorem Initial.task? {system : System} (initial : system.Initial) (service : Nat) :
    system.task? service = none := by
  simp [System.task?, initial.services, Service.down]

theorem Initial.sane {system : System} (initial : system.Initial) : system.Sane := by
  have idle := initial.task?
  exact {
    shaped := ⟨initial.db.keyed, fun job history known => by
      simp [initial.db.history job] at known⟩
    stored := fun service task run holds => by simp [Holds, idle] at holds
    onStep := fun service task run holds => by simp [Holds, idle] at holds
    apart := fun service other task second run held holds => by simp [Holds, idle] at holds
    phaseTwo := fun service task job run working => by simp [idle] at working
    numbered := fun service task working => by simp [idle] at working
    distinct := fun service other task second working => by simp [idle] at working }

/-- The events of a run, restricted by what may happen when. -/
def Events (allowed : System → Event → Prop) (system : System) (event : Event)
    (next : System) : Prop :=
  allowed system event ∧ system.step? event = some next

theorem sane_of_reachable {allowed : System → Event → Prop} {system : System}
    (reachable : Reachable System.Initial (Events allowed) system) : system.Sane := by
  refine reachable.invariant (fun _ => Initial.sane) ?_
  rintro state event next sane ⟨_, taken⟩
  exact (step?_cases taken).sane sane

theorem invariant_of_reachable {allowed : System → Event → Prop} {holds : System → Prop}
    (initially : ∀ system : System, system.Initial → holds system)
    (preserved : ∀ system event next, system.Sane → holds system → allowed system event →
      Took system event next → holds next)
    {system : System} (reachable : Reachable System.Initial (Events allowed) system) :
    holds system := by
  refine reachable.invariant_over (fun _ => sane_of_reachable) initially ?_
  rintro state event next sane _ held ⟨permitted, taken⟩
  exact preserved state event next sane held permitted (step?_cases taken)

/-! Runs of a small deployment: the events are taken as far as they are permitted. -/

def permit? (permitted : System → Event → Bool) (system : System) (event : Event) :
    Option System :=
  if permitted system event then system.step? event else none

def after (permitted : System → Event → Bool) (start : System) (events : List Event) : System :=
  (execute (permit? permitted) start events).getD start

theorem run_after {permitted : System → Event → Bool} {allowed : System → Event → Prop}
    (permits : ∀ system event, permitted system event = true → allowed system event)
    {start : System} {events : List Event}
    (enabled : (execute (permit? permitted) start events).isSome = true) :
    Run (Events allowed) start events (after permitted start events) := by
  obtain ⟨system, executed⟩ := Option.isSome_iff_exists.mp enabled
  have same : after permitted start events = system := by
    rw [after, executed, Option.getD_some]
  refine same ▸ (run_of_execute executed).mono ?_
  intro state event next taken
  simp only [Steps, permit?] at taken
  split at taken
  · exact ⟨permits _ _ ‹_›, taken⟩
  · contradiction

theorem reachable_after {permitted : System → Event → Bool} {allowed : System → Event → Prop}
    (permits : ∀ system event, permitted system event = true → allowed system event)
    {start : System} {events : List Event} (initial : start.Initial)
    (enabled : (execute (permit? permitted) start events).isSome = true) :
    Reachable System.Initial (Events allowed) (after permitted start events) :=
  ⟨start, events, initial, run_after permits enabled⟩

theorem unheld_of_unrequested {allowed : System → Event → Prop} {start system : System}
    {events : List Event} (initial : start.Initial)
    (run : Run (Events allowed) start events system) {service : Nat}
    (unrequested : ∀ answer, .task service answer ∉ events) :
    ∀ task held, ¬ system.Holds service task held := by
  induction run with
  | nil =>
      intro task held holds
      simp [Holds, initial.task?] at holds
  | snoc _ taken induction =>
      intro task held ⟨working, isRun⟩
      have earlier := induction fun answer member =>
        unrequested answer (List.mem_append_left _ member)
      rcases (step?_cases taken.2).task_cases working with
        ⟨same, _⟩ | ⟨_, answer, _, rfl, _⟩ | ⟨_, noRun⟩
      · exact earlier task held ⟨same, isRun⟩
      · exact unrequested answer (by simp)
      · rw [isRun] at noRun
        contradiction

end System

end

section

attribute [local instance] english

def deployment : System := ⟨catalog, fun _ => .down, fun _ => none, 0, []⟩

theorem deployment_initial : deployment.Initial :=
  ⟨catalog_initial, fun _ => rfl, fun _ => rfl, rfl, rfl⟩

def byOperator (now : Nat) (operation : Operation) : Event :=
  .call (tick now operation).env operation

def request (service now : Nat) : Event :=
  .task service (.executed (tick now (.claim firstJob)).env [])

def toReview : List Event :=
  [.boot 0, byOperator 1 (.start rulebook), .sweep 0, .next 0, request 0 2, request 0 3,
    .task 0 (.extracted (.ok ['x'])), request 0 4, request 0 5]

def toEmbedded : List Event :=
  [byOperator 6 (.validate firstJob), .next 0, .receive 0, request 0 7, request 0 8, request 0 9,
    request 0 10, request 0 11, request 0 12, request 0 13, request 0 14,
    .task 0 (.embedded (.ok [List.replicate 1024 ⟨0⟩])), request 0 15, request 0 16]

end

end Zyndeck
