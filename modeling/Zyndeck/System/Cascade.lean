import Zyndeck.System.World

namespace Zyndeck

open Data

section

variable [Isolang]

/-! A game that is deleted while the services work on it. -/

def Body.chunks : Body → List ChunkRow
  | .embedding left => left
  | .storing pairs left => pairs.map (·.1) ++ left
  | _ => []

namespace Phase

def chunks : Phase → List ChunkRow
  | .executing _ _ body => body.chunks
  | _ => []

/-- The ids of rows that a task goes on to write to. -/
def HoldsId (phase : Phase) (id : Uuid) : Prop :=
  (∃ run, phase.run? = some run ∧ run.id = id) ∨ ∃ chunk ∈ phase.chunks, chunk.id = id

/-- The rows that a task goes on to write to are of its job, if they are still there. -/
structure Belongs (phase : Phase) (db : Db) : Prop where
  run : ∀ run, phase.run? = some run → run.jobId = phase.jobId ∧
    ∀ row ∈ db.runs, row.id = run.id → row.jobId = run.jobId
  chunks : ∀ chunk ∈ phase.chunks, chunk.jobId = phase.jobId ∧
    ∀ row ∈ db.chunks, row.id = chunk.id → row.jobId = chunk.jobId

theorem Belongs.adds {phase : Phase} {drawn : Uuid → Prop} {db next : Db}
    (belongs : phase.Belongs db) (adds : Adds drawn db next)
    (fresh : ∀ id, drawn id → ¬ phase.HoldsId id) : phase.Belongs next where
  run run isRun := by
    obtain ⟨ofJob, rows⟩ := belongs.run run isRun
    refine ⟨ofJob, fun row member same => ?_⟩
    rcases adds.runs row member with isNew | ⟨old, stored, sameId, sameJob⟩
    · exact absurd (.inl ⟨run, isRun, same.symm⟩) (fresh row.id isNew)
    · exact sameJob.symm.trans (rows old stored (sameId.trans same))
  chunks chunk held := by
    obtain ⟨ofJob, rows⟩ := belongs.chunks chunk held
    refine ⟨ofJob, fun row member same => ?_⟩
    rcases adds.chunks row member with isNew | stored
    · exact absurd (.inr ⟨chunk, held, same.symm⟩) (fresh row.id isNew)
    · exact rows row stored same

theorem chunks_begin (job : IngestionJob) (run : IngestionStepRun) (step : IngestionStep) :
    (ofWork job run (Body.begin step)).chunks = [] := by
  cases step <;> rfl

theorem mem_chunks_store {job : IngestionJob} {run : IngestionStepRun}
    {pairs : List (ChunkRow × List F32)} {left : List ChunkRow} {chunk : ChunkRow}
    (member : chunk ∈ (ofWork job run (Body.store pairs left)).chunks) :
    chunk ∈ pairs.map (·.1) ∨ chunk ∈ left := by
  cases pairs with
  | nil =>
      cases left with
      | nil => exact absurd member List.not_mem_nil
      | cons => exact .inr member
  | cons => exact List.mem_append.mp member

end Phase

/-- A body whose reply is lost goes through no chunk any more. -/
theorem Work.Heard.chunks {done work : Work} (heard : done.Heard work) {job : IngestionJob}
    {run : IngestionStepRun} {chunk : ChunkRow}
    (member : chunk ∈ (Phase.ofWork job run work).chunks) :
    chunk ∈ (Phase.ofWork job run done).chunks := by
  cases heard with
  | arrived => exact member
  | lost => exact absurd member List.not_mem_nil

theorem BodyStep.chunks {job : IngestionJob} {run : IngestionStepRun} {db next : Db} {body : Body}
    {answer : Answer} {work : Work} {observed : List Observation}
    (step : BodyStep job.id db body answer work next observed) {chunk : ChunkRow}
    (member : chunk ∈ (Phase.ofWork job run work).chunks) :
    chunk ∈ body.chunks ∨ (chunk ∈ next.chunks ∧ chunk.jobId = job.id) := by
  cases step with
  | broke | extracted => exact absurd member List.not_mem_nil
  | upserted _ heard | replaced _ heard => exact absurd (heard.chunks member) List.not_mem_nil
  | @split transcript _ message =>
      have none : (Phase.ofWork job run (Body.chunkTranscript message transcript)).chunks = [] := by
        simp only [Body.chunkTranscript]
        split
        · rfl
        · split <;> rfl
      rw [none] at member
      exact absurd member List.not_mem_nil
  | listed found =>
      refine .inr (mem_chunksOf.mp ?_)
      rw [found]
      exact member
  | @embedded left response vectors answered =>
      refine .inl ?_
      rcases Phase.mem_chunks_store member with paired | later
      · obtain ⟨pair, isPair, rfl⟩ := List.mem_map.mp paired
        exact List.mem_of_mem_take (List.of_mem_zip isPair).1
      · exact List.mem_of_mem_drop later
  | stored _ heard =>
      refine .inl ?_
      rcases Phase.mem_chunks_store (heard.chunks member) with paired | later
      · exact List.mem_append_left _ (List.mem_cons_of_mem _ paired)
      · exact List.mem_append_right _ later

namespace PhaseStep

variable {drive : Nat} {db : Db} {phase later : Phase} {answer : Answer} {result : Moved}

theorem jobId (step : PhaseStep drive db phase answer result)
    (isPhase : result.phase = some later) : later.jobId = phase.jobId := by
  cases step with
  | vanished | failed | unclaimed | unfinished | stopped | dropped => simp at isPhase
  | claimed =>
      obtain rfl := Option.some.inj isPhase
      rfl
  | entered found =>
      obtain rfl := Option.some.inj isPhase
      exact (Phase.jobId_ofWork ..).trans (Phase.load_id found)
  | worked =>
      obtain rfl := Option.some.inj isPhase
      exact Phase.jobId_ofWork ..
  | finished =>
      simp only [Option.ite_none_right_eq_some, Option.some.injEq] at isPhase
      obtain ⟨_, rfl⟩ := isPhase
      rfl
  | advanced =>
      obtain rfl := Option.some.inj isPhase
      rfl

theorem run (step : PhaseStep drive db phase answer result)
    (isPhase : result.phase = some later) {run : IngestionStepRun}
    (isRun : later.run? = some run) :
    phase.run? = some run ∨
      run.jobId = later.jobId ∧ result.db.Stores run (· = .running) := by
  cases step with
  | vanished | failed | unclaimed | unfinished | stopped | dropped => simp at isPhase
  | claimed returned =>
      obtain rfl := Option.some.inj isPhase
      obtain rfl := Option.some.inj isRun
      obtain ⟨ofJob, stored, _⟩ := claimed_stores returned
      exact .inr ⟨ofJob, stored⟩
  | entered =>
      obtain rfl := Option.some.inj isPhase
      exact .inl ((Phase.run?_ofWork ..).symm.trans isRun)
  | worked =>
      obtain rfl := Option.some.inj isPhase
      exact .inl ((Phase.run?_ofWork ..).symm.trans isRun)
  | finished =>
      simp only [Option.ite_none_right_eq_some, Option.some.injEq] at isPhase
      obtain ⟨_, rfl⟩ := isPhase
      exact .inl isRun
  | advanced returned =>
      obtain rfl := Option.some.inj isPhase
      obtain rfl := Option.some.inj isRun
      obtain ⟨ofJob, _, stored, _⟩ := advanced_stores returned
      exact .inr ⟨ofJob, stored⟩

theorem chunks (step : PhaseStep drive db phase answer result)
    (isPhase : result.phase = some later) {chunk : ChunkRow} (member : chunk ∈ later.chunks) :
    chunk ∈ phase.chunks ∨ (chunk ∈ result.db.chunks ∧ chunk.jobId = later.jobId) := by
  cases step with
  | vanished | failed | unclaimed | unfinished | stopped | dropped => simp at isPhase
  | claimed | advanced =>
      obtain rfl := Option.some.inj isPhase
      exact absurd member List.not_mem_nil
  | entered =>
      obtain rfl := Option.some.inj isPhase
      rw [Phase.chunks_begin] at member
      exact absurd member List.not_mem_nil
  | worked step =>
      obtain rfl := Option.some.inj isPhase
      rw [Phase.jobId_ofWork]
      exact step.chunks member
  | finished =>
      simp only [Option.ite_none_right_eq_some, Option.some.injEq] at isPhase
      obtain ⟨_, rfl⟩ := isPhase
      exact absurd member List.not_mem_nil

theorem belongs {drawn : Uuid → Prop} (step : PhaseStep drive db phase answer result)
    (isPhase : result.phase = some later) (belongs : phase.Belongs db)
    (after : result.db.Constraints) (adds : Adds drawn db result.db)
    (fresh : ∀ id, drawn id → ¬ phase.HoldsId id) :
    later.Belongs result.db where
  run run isRun := by
    rcases step.run isPhase isRun with same | ⟨ofJob, row, stored, isId, isJob, _⟩
    · rw [step.jobId isPhase]
      exact (belongs.adds adds fresh).run run same
    · refine ⟨ofJob, fun other member same => ?_⟩
      obtain rfl := List.inj_on_of_nodup_map after.runIds member stored (same.trans isId.symm)
      exact isJob
  chunks chunk held := by
    rcases step.chunks isPhase held with same | ⟨stored, ofJob⟩
    · rw [step.jobId isPhase]
      exact (belongs.adds adds fresh).chunks chunk same
    · refine ⟨ofJob, fun other member same => ?_⟩
      obtain rfl := List.inj_on_of_nodup_map after.chunkIds member stored same
      rfl

end PhaseStep

/-! What becomes of a job that is gone. -/

namespace Db

structure Lacks (db : Db) (job : Uuid) : Prop where
  row : db.job? job = none
  runs : ∀ row ∈ db.runs, row.jobId ≠ job
  transcripts : ∀ row ∈ db.transcripts, row.jobId ≠ job
  chunks : ∀ row ∈ db.chunks, row.jobId ≠ job

variable {db : Db} {job : Uuid}

omit [Isolang] in
theorem Constraints.lacks (constraints : db.Constraints) (missing : job ∉ db.jobs.map (·.id)) :
    db.Lacks job where
  row := find?_key_eq_none.mpr missing
  runs row member same := missing (same ▸ constraints.references.runs row member)
  transcripts row member same := missing (same ▸ constraints.references.transcripts row member)
  chunks row member same := missing (same ▸ constraints.references.chunks row member)

end Db

def Operation.about : Operation → Option Uuid
  | .claim job | .abort job | .begin job _ | .restart job | .validate job | .continue job =>
      some job
  | .start _ | .finish _ _ => none

section

variable {db next : Db} {job : Uuid}

omit [Isolang] in
theorem updateRuns_of_unmatched {hit : StepRunRow → Bool} {set : StepRunRow → StepRunRow}
    (unmatched : ∀ row ∈ db.runs, hit row = false) : (db.updateRuns hit set).2 = db := by
  simp only [Db.updateRuns, updateWhere_eq_self unmatched]

theorem Effect.eq_of_lacks {env : Env} {operation : Operation} {result : Except Error Output}
    (effect : Effect env db operation result next) (lacks : db.Lacks job)
    (about : operation.about = some job) : next = db := by
  have missing : ∀ {row : JobRow}, db.job? job ≠ some row := by simp [lacks.row]
  cases effect with
  | failed => rfl
  | started | finished => contradiction
  | claimed =>
      obtain rfl := Option.some.inj about
      refine updateRuns_of_unmatched fun row member => ?_
      simp [StepRunRow.isPendingOf, lacks.runs row member]
  | aborted =>
      obtain rfl := Option.some.inj about
      refine updateRuns_of_unmatched fun row member => ?_
      simp [StepRunRow.isActiveOf, lacks.runs row member]
  | begun inserted =>
      obtain rfl := Option.some.inj about
      have found := (insertRun_ok.mp inserted).2.2.2.2
      simp [lacks.row] at found
  | restarted found | validated found | advanced found | completed found =>
      obtain rfl := Option.some.inj about
      exact absurd found missing

theorem Effect.eq_of_unmatched {env : Env} {run : Uuid} {outcome : StepOutcome}
    {result : Except Error Output} (effect : Effect env db (.finish run outcome) result next)
    (unmatched : ∀ row ∈ db.runs, row.id ≠ run) : next = db := by
  cases effect with
  | failed => rfl
  | finished =>
      refine updateRuns_of_unmatched fun row member => ?_
      simp [StepRunRow.isRunningRun, unmatched row member]

omit [Isolang] in
theorem deleteChunks_of_lacks (lacks : db.Lacks job) : db.deleteChunks job = db := by
  have chunks : db.chunks.filter (·.jobId ≠ job) = db.chunks :=
    List.filter_eq_self.mpr fun row member => decide_eq_true (lacks.chunks row member)
  have embeddings : (db.embeddings.filter fun row => !db.chunks.any fun chunk =>
      decide (chunk.jobId = job) && decide (chunk.id = row.chunkId)) = db.embeddings := by
    refine List.filter_eq_self.mpr fun row _ => ?_
    rw [Bool.not_eq_true', List.any_eq_false]
    intro chunk stored
    simp [lacks.chunks chunk stored]
  simp only [Db.deleteChunks, chunks, embeddings]

omit [Isolang] in
theorem replaceChunks_of_lacks {env : Env} {new : List NewChunk} (lacks : db.Lacks job)
    (replaced : replaceChunks env job new db = .ok next) : next = db := by
  rw [replaceChunks, deleteChunks_of_lacks lacks] at replaced
  cases new with
  | nil => exact (Except.ok.inj replaced).symm
  | cons chunk rest =>
      simp only [insertChunks] at replaced
      cases first : insertChunk (env.chunkId 0) job chunk db with
      | error fault => simp [first, Bind.bind, Except.bind] at replaced
      | ok between =>
          simp only [insertChunk] at first
          split at first
          · contradiction
          · split at first
            · contradiction
            · split at first
              · contradiction
              · simp [lacks.row] at *

omit [Isolang] in
theorem upsertTranscript_of_lacks {content : Text} (lacks : db.Lacks job)
    (written : db.upsertTranscript job content = .ok next) : False := by
  have known := (upsertTranscript_ok written).known
  rw [lacks.row] at known
  contradiction

omit [Isolang] in
theorem storeEmbedding_of_missing {chunk : Uuid} {vector : List F32}
    (missing : ∀ row ∈ db.chunks, row.id ≠ chunk)
    (stored : storeEmbedding chunk vector db = .ok next) : False := by
  have unknown : db.chunks.any (·.id = chunk) = false := by
    rw [List.any_eq_false]
    exact fun row member => by simp [missing row member]
  simp only [storeEmbedding, unknown] at stored
  split at stored <;> contradiction

theorem PhaseStep.eq_of_lacks {drive : Nat} {phase : Phase} {answer : Answer} {result : Moved}
    (step : PhaseStep drive db phase answer result) (belongs : phase.Belongs db)
    (lacks : db.Lacks phase.jobId) : result.db = db := by
  cases step with
  | vanished | failed | entered => rfl
  | claimed | unclaimed => exact (exec_effect ..).eq_of_lacks lacks rfl
  | advanced | stopped => exact (exec_effect ..).eq_of_lacks lacks rfl
  | finished | unfinished =>
      refine (exec_effect ..).eq_of_unmatched fun row member same => ?_
      obtain ⟨ofJob, rows⟩ := belongs.run _ rfl
      exact lacks.runs row member ((rows row member same).trans ofJob)
  | dropped issues =>
      cases issues with
      | claim | advance => exact (exec_effect ..).eq_of_lacks lacks rfl
      | finish =>
          refine (exec_effect ..).eq_of_unmatched fun row member same => ?_
          obtain ⟨ofJob, rows⟩ := belongs.run _ rfl
          exact lacks.runs row member ((rows row member same).trans ofJob)
  | worked step =>
      cases step with
      | broke | extracted | split | listed | embedded => rfl
      | upserted written => exact (upsertTranscript_of_lacks lacks written).elim
      | replaced replaced => exact replaceChunks_of_lacks lacks replaced
      | stored stored =>
          refine (storeEmbedding_of_missing (fun row member same => ?_) stored).elim
          obtain ⟨ofJob, rows⟩ := belongs.chunks _ (List.mem_cons_self ..)
          exact lacks.chunks row member ((rows row member same).trans ofJob)

theorem EditStep.eq_of_lacks {session : Edit} {answer : Answer} {later : Option Edit}
    {observed : List Observation} (step : EditStep db session answer later next observed)
    (lacks : db.Lacks session.job) : next = db := by
  cases step with
  | ended | checked | read | changed => rfl
  | saved written => exact (upsertTranscript_of_lacks lacks written).elim

end

namespace World

/-- The rows that the tasks go on to write to are of their jobs. -/
def Attached (world : World) : Prop :=
  ∀ service task, world.system.task? service = some task → task.phase.Belongs world.db

/-- No id is drawn that a task still goes by: `gen_random_uuid()` draws no id twice. -/
def Fresh (world : World) (occurrence : Occurrence) : Prop :=
  ∀ id, occurrence.Draws id → ∀ service task, world.system.task? service = some task →
    ¬ task.phase.HoldsId id

theorem step?_system {world next : World} {occurrence : Occurrence}
    (taken : world.step? occurrence = some next) :
    (∃ event, occurrence = .system event ∧ Took world.system event next.system) ∨
      ∀ service, next.system.task? service = world.system.task? service := by
  cases occurrence with
  | system event =>
      obtain ⟨later, stepped, rfl⟩ := Option.map_eq_some_iff.mp taken
      exact .inl ⟨event, rfl, System.step?_cases stepped⟩
  | startup | close =>
      obtain rfl := Option.some.inj taken
      exact .inr fun _ => rfl
  | request | call | lose | fail =>
      simp only [step?] at taken
      split at taken
      · obtain rfl := Option.some.inj taken
        exact .inr fun _ => rfl
      · contradiction

theorem Attached.step {world next : World} {occurrence : Occurrence} (attached : world.Attached)
    (constraints : world.db.Constraints) (fresh : world.Fresh occurrence)
    (taken : world.step? occurrence = some next) : next.Attached := by
  have written := step?_written taken
  have after := written.constraints constraints
  have kept : ∀ service task, world.system.task? service = some task →
      task.phase.Belongs next.db := fun service task known =>
    (attached service task known).adds written.adds
      fun id draws => fresh id draws service task known
  intro service task working
  rcases step?_system taken with ⟨event, rfl, took⟩ | same
  · rcases took.task_cases working with
      ⟨known, _⟩ | ⟨old, answer, result, rfl, known, step, isPhase, _, moved⟩ | ⟨_, idle⟩
    · exact kept service task known
    · have isDb : result.db = next.db := (congrArg System.db moved).symm
      have belongs : task.phase.Belongs result.db := by
        refine step.belongs isPhase (attached service old known) (isDb ▸ after)
          (isDb ▸ written.adds) fun id draws => fresh id draws service old known
      exact isDb ▸ belongs
    · refine ⟨fun run isRun => ?_, fun chunk held => ?_⟩
      · rw [idle] at isRun
        contradiction
      · cases phase : task.phase <;> simp [phase, Phase.run?, Phase.chunks] at idle held
  · exact kept service task (same service ▸ working)

theorem attached_of_reachable {world : World}
    (reachable : Reachable Initial (Occurs Fresh) world) : world.Attached := by
  have initially : ∀ start : World, start.Initial → start.Attached := by
    intro start initial service task working
    simp [System.Initial.task? initial.system] at working
  have kept : ∀ (state : World) (occurrence : Occurrence) (next : World),
      state.db.Constraints ∧ state.db.Shaped → next.db.Constraints ∧ next.db.Shaped →
        state.Attached → Occurs Fresh state occurrence next → next.Attached :=
    fun _ _ _ intact _ attached taken => attached.step intact.1 taken.1 taken.2
  exact reachable.invariant_over (fun _ => intact_of_reachable) initially kept

/-- Nothing is left of a game and its jobs, and nobody who still works on one of the jobs
writes anything. -/
structure Gone (world : World) (game : Uuid) (jobs : List Uuid) : Prop where
  unlisted : ∀ row ∈ world.db.games, row.id ≠ game
  jobless : ∀ row ∈ world.db.jobs, row.gameId ≠ game
  lacks : ∀ job ∈ jobs, world.db.Lacks job
  embeddings : ∀ row ∈ world.db.embeddings, ∃ chunk ∈ world.db.chunks,
    chunk.id = row.chunkId ∧ chunk.jobId ∉ jobs
  operators : ∀ env (operation : Operation) job, operation.about = some job → job ∈ jobs →
    (operation.exec env world.db).db = world.db
  services : ∀ service task answer result, world.system.task? service = some task →
    task.phase.jobId ∈ jobs → task.phase.step task.drive world.db answer = some result →
      result.db = world.db
  editors : ∀ session edit answer later next observed, world.system.edits session = some edit →
    edit.job ∈ jobs → edit.step world.db answer = some (later, next, observed) → next = world.db

def Unmarked (game : Uuid) (jobs : List Uuid) (occurrence : Occurrence) : Prop :=
  ∀ id, occurrence.Draws id → id ≠ game ∧ id ∉ jobs

structure Without (world : World) (game : Uuid) (jobs : List Uuid) : Prop where
  unlisted : ∀ row ∈ world.db.games, row.id ≠ game
  unknown : ∀ row ∈ world.db.jobs, row.id ∉ jobs

theorem Without.step {world next : World} {occurrence : Occurrence} {game : Uuid}
    {jobs : List Uuid} (without : world.Without game jobs)
    (unmarked : Unmarked game jobs occurrence) (taken : world.step? occurrence = some next) :
    next.Without game jobs where
  unlisted row member := by
    rcases (step?_written taken).adds.games row member with isNew | ⟨old, stored, same⟩
    · exact (unmarked row.id isNew).1
    · exact same ▸ without.unlisted old stored
  unknown row member := by
    rcases (step?_written taken).adds.jobs row member with isNew | ⟨old, stored, same, _⟩
    · exact (unmarked row.id isNew).2
    · exact same ▸ without.unknown old stored

theorem Without.gone {world : World} {game : Uuid} {jobs : List Uuid}
    (without : world.Without game jobs) (constraints : world.db.Constraints)
    (attached : world.Attached) : world.Gone game jobs := by
  have lacks : ∀ job ∈ jobs, world.db.Lacks job := fun job member =>
    constraints.lacks fun listed => by
      obtain ⟨row, stored, rfl⟩ := List.mem_map.mp listed
      exact without.unknown row stored member
  refine
    { unlisted := without.unlisted
      jobless := fun row member same => ?_
      lacks
      embeddings := fun row member => ?_
      operators := fun env operation job about member =>
        (exec_effect env operation world.db).eq_of_lacks (lacks job member) about
      services := fun service task answer result working member stepped =>
        (Phase.step_cases stepped).eq_of_lacks (attached service task working) (lacks _ member)
      editors := fun _ edit _ _ _ _ _ member stepped =>
        (Edit.step_cases stepped).eq_of_lacks (lacks _ member) }
  · obtain ⟨stored, isStored, isGame⟩ := List.mem_map.mp (constraints.references.jobs row member)
    exact without.unlisted stored isStored (isGame.trans same)
  · obtain ⟨chunk, stored, isChunk⟩ :=
      List.mem_map.mp (constraints.references.embeddings row member)
    exact ⟨chunk, stored, isChunk, fun ofJob => (lacks _ ofJob).chunks chunk stored rfl⟩

def jobsOf (world : World) (game : Uuid) : List Uuid :=
  (world.db.jobs.filter (·.gameId = game)).map (·.id)

theorem without_deleted {world next : World} {game : Uuid} (constraints : world.db.Constraints)
    (isNext : next.db = (world.db.deleteGame game).2) : next.Without game (world.jobsOf game) where
  unlisted row member := by
    rw [isNext] at member
    exact of_decide_eq_true (List.mem_filter.mp member).2
  unknown row member listed := by
    rw [isNext] at member
    obtain ⟨stored, others⟩ := List.mem_filter.mp member
    obtain ⟨job, ofGame, same⟩ := List.mem_map.mp listed
    obtain ⟨known, isGame⟩ := List.mem_filter.mp ofGame
    obtain rfl := List.inj_on_of_nodup_map constraints.jobIds known stored same
    exact of_decide_eq_true others (of_decide_eq_true isGame)

/-- A game that was deleted, with its jobs and all that was stored for them, stays deleted,
whatever the services, operators and editors at work on the jobs still do. -/
theorem deleted_game_stays_gone {world next later : World} {deleting : Occurrence}
    {occurrences : List Occurrence} (reachable : Reachable Initial (Occurs Fresh) world)
    {number : Nat} {draw : RepositoryDraw} {game : Uuid} {onFault : Error → Api.Refusal}
    {rest : Bool → Api.Endpoint Api.Answer}
    (asks : world.requests number = some (.query (.deleteGame game) onFault rest))
    (deletes : deleting = .call number draw ∨ deleting = .lose number draw)
    (taken : Occurs Fresh world deleting next)
    (run : Run (Occurs fun state occurrence =>
      state.Fresh occurrence ∧ Unmarked game (world.jobsOf game) occurrence)
      next occurrences later) :
    later.Gone game (world.jobsOf game) := by
  have isNext : next.db = (world.db.deleteGame game).2 := by
    have stepped := taken.2
    rcases deletes with rfl | rfl
    · simp only [step?, asks, Option.some.injEq] at stepped
      exact congrArg db stepped.symm
    · simp only [step?, asks, Option.some.injEq] at stepped
      exact congrArg db stepped.symm
  have without : later.Without game (world.jobsOf game) := by
    have kept : ∀ (state : World) (occurrence : Occurrence) (after : World),
        state.Without game (world.jobsOf game) →
          Occurs (fun state occurrence =>
            state.Fresh occurrence ∧ Unmarked game (world.jobsOf game) occurrence)
            state occurrence after → after.Without game (world.jobsOf game) :=
      fun _ _ _ without moved => without.step moved.1.2 moved.2
    have constraints := (intact_of_reachable reachable).1
    have without := run.invariant kept (without_deleted constraints isNext)
    exact without
  have laterReachable : Reachable Initial (Occurs Fresh) later := by
    obtain ⟨start, before, initial, first⟩ := reachable.step taken
    have narrower : Run (Occurs Fresh) next occurrences later :=
      run.mono fun _ _ _ moved => ⟨moved.1.1, moved.2⟩
    exact ⟨start, _, initial, first.append narrower⟩
  exact without.gone (intact_of_reachable laterReachable).1 (attached_of_reachable laterReachable)

def Idle (world : World) : Prop :=
  ∀ service task, world.system.task? service = some task → task.phase.run? = none

theorem Idle.fresh {world : World} (idle : world.Idle) (occurrence : Occurrence) :
    world.Fresh occurrence := by
  rintro id - service task working (⟨run, isRun, -⟩ | ⟨chunk, held, -⟩)
  · simp [idle service task working] at isRun
  · have noRun := idle service task working
    cases phase : task.phase <;> simp [phase, Phase.run?, Phase.chunks] at noRun held

theorem idle_of_unrequested {start world : World} {occurrences : List Occurrence}
    (initial : start.Initial) (run : Run (Steps step?) start occurrences world)
    (unrequested : ∀ service answer, .system (.task service answer) ∉ occurrences) :
    world.Idle ∧ Run (Occurs Fresh) start occurrences world := by
  induction run with
  | nil =>
      refine ⟨fun service task working => ?_, .nil⟩
      simp [initial.system.task?] at working
  | snoc _ taken induction =>
      obtain ⟨idle, before⟩ := induction fun service answer member =>
        unrequested service answer (List.mem_append_left _ member)
      refine ⟨fun service task working => ?_, before.snoc ⟨idle.fresh _, taken⟩⟩
      rcases step?_system taken with ⟨event, rfl, took⟩ | same
      · rcases took.task_cases working with ⟨known, _⟩ | ⟨_, answer, _, rfl, _⟩ | ⟨_, noRun⟩
        · exact idle service task known
        · exact absurd (List.mem_append_right _ (List.mem_singleton_self _))
            (unrequested service answer)
        · exact noRun
      · exact idle service task (same service ▸ working)

end World

end

section

attribute [local instance] english

def deletes (game : Uuid) : Option (Api.Endpoint Api.Answer) → Bool
  | some (.query (.deleteGame id) _ _) => decide (id = game)
  | _ => false

theorem exists_of_deletes {game : Uuid} {request : Option (Api.Endpoint Api.Answer)}
    (holds : deletes game request = true) :
    ∃ onFault rest, request = some (.query (.deleteGame game) onFault rest) := by
  unfold deletes at holds
  split at holds
  · obtain rfl := of_decide_eq_true holds
    exact ⟨_, _, rfl⟩
  · contradiction

def lateRequest : Occurrence :=
  .system (.task 0 (.executed ⟨7, ⟨50⟩, ⟨51⟩, fun _ => ⟨52⟩, fun _ => 0⟩ []))

theorem World.deleted_game_stays_gone_under_claim :
    let asking := lastState World.step? deployed toDeletion
    let deleted := lastState World.step? asking [.call 0 rootDraw]
    let claimed := lastState World.step? deleted [lateRequest]
    asking.jobsOf ⟨1⟩ = [firstJob] ∧ claimed.Gone ⟨1⟩ [firstJob] := by
  intro asking deleted claimed
  have ofGame : asking.jobsOf ⟨1⟩ = [firstJob] := by decide +kernel
  have toAsking : Run (Steps World.step?) deployed toDeletion asking :=
    run_lastState (by decide +kernel)
  have deletes : World.step? asking (.call 0 rootDraw) = some deleted :=
    taken_lastState (by decide +kernel)
  have claims : World.step? deleted lateRequest = some claimed :=
    taken_lastState (by decide +kernel)
  obtain ⟨idle, reached⟩ := World.idle_of_unrequested deployed_initial toAsking (by
    simp [toDeletion, byOperator])
  obtain ⟨idleToo, _⟩ := World.idle_of_unrequested deployed_initial (toAsking.snoc deletes) (by
    simp [toDeletion, byOperator])
  obtain ⟨onFault, rest, asks⟩ : ∃ onFault rest,
      asking.requests 0 = some (.query (.deleteGame ⟨1⟩) onFault rest) :=
    exists_of_deletes (by decide +kernel)
  have unmarked : World.Unmarked ⟨1⟩ (asking.jobsOf ⟨1⟩) lateRequest := by
    rw [ofGame]
    rintro id ⟨env, executed, draws⟩
    obtain rfl := Option.some.inj executed
    rcases draws with rfl | ⟨_, rfl⟩
    · exact (by decide : (⟨51⟩ : Uuid) ≠ ⟨1⟩ ∧ (⟨51⟩ : Uuid) ∉ [firstJob])
    · exact (by decide : (⟨52⟩ : Uuid) ≠ ⟨1⟩ ∧ (⟨52⟩ : Uuid) ∉ [firstJob])
  refine ⟨ofGame, ofGame ▸ ?_⟩
  exact World.deleted_game_stays_gone ⟨deployed, toDeletion, deployed_initial, reached⟩ asks
    (.inl rfl) ⟨idle.fresh _, deletes⟩ (.single ⟨⟨idleToo.fresh _, unmarked⟩, claims⟩)

end

end Zyndeck
