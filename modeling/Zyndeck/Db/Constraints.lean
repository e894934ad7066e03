import Zyndeck.Api.References
import Zyndeck.Db.Chunks
import Zyndeck.Db.Invariant
import Zyndeck.Db.Repository

namespace Zyndeck

open Data

/-! The constraints of the two migrations, and the writes of all parties. -/

/-- What the tables keep: the foreign keys, the primary keys and unique indexes, and the
checks. -/
structure Db.Constraints (db : Db) : Prop where
  references : db.References
  userIds : (db.users.map (·.id)).Nodup
  usernames : (db.users.map (·.username)).Nodup
  gameIds : (db.games.map (·.id)).Nodup
  jobIds : (db.jobs.map (·.id)).Nodup
  runIds : (db.runs.map (·.id)).Nodup
  attempts : (db.runs.map fun run => (run.jobId, run.step, run.attempt)).Nodup
  oneActive : OneActive db.runs
  runSteps : ∀ run ∈ db.runs, run.step ≠ .completed
  transcriptJobs : (db.transcripts.map (·.jobId)).Nodup
  chunkIds : (db.chunks.map (·.id)).Nodup
  positions : (db.chunks.map fun chunk => (chunk.jobId, chunk.position)).Nodup
  embeddingChunks : (db.embeddings.map (·.chunkId)).Nodup
  dimensions : ∀ embedding ∈ db.embeddings, embedding.embedding.length = vectorDim

namespace Db.Constraints

variable {db : Db}

/-! The writes of the transitions. -/

section

variable [Isolang] {env : Env}

theorem insertJob {new : NewIngestionJob} {row : JobRow} (constraints : db.Constraints)
    (created : createJob env new db = .ok row) : (db.apply (.insertJob row)).Constraints := by
  obtain ⟨rfl, fresh⟩ := createJob_ok created
  simp only [createJob] at created
  split at created
  · contradiction
  · split at created
    · contradiction
    · split at created
      · contradiction
      · rename_i hasGame
        split at created
        · contradiction
        · rename_i hasStarter
          have references := constraints.references
          have grown : ∀ id ∈ db.jobs.map (·.id),
              id ∈ (db.jobs ++ [newJob env new]).map (·.id) := by
            intro id known
            rw [List.map_append]
            exact List.mem_append_left _ known
          refine { constraints with
            references :=
              { references with
                jobs := fun job member => ?_
                starters := fun job member user named => ?_
                runs := fun run member => grown _ (references.runs run member)
                transcripts := fun row member => grown _ (references.transcripts row member)
                chunks := fun chunk member => grown _ (references.chunks chunk member) }
            jobIds := nodup_insert constraints.jobIds fun other stored same =>
              fresh (List.mem_map.mpr ⟨other, stored, same⟩) }
          · rcases List.mem_append.mp member with stored | isNew
            · exact references.jobs job stored
            · obtain rfl := List.mem_singleton.mp isNew
              have known : (newJob env new).gameId ∈ db.games.map (·.id) := by
                rw [any_key] at hasGame
                simpa using hasGame
              exact known
          · rcases List.mem_append.mp member with stored | isNew
            · exact references.starters job stored user named
            · obtain rfl := List.mem_singleton.mp isNew
              simp only [Option.any_eq_true, not_exists, not_and] at hasStarter
              have known : user ∈ db.users.map (·.id) := by
                have listed := hasStarter user named
                rw [any_key] at listed
                simpa using listed
              exact known

omit [Isolang] in
theorem setStep (constraints : db.Constraints) (job : Uuid) (step : IngestionStep) :
    (db.apply (.setStep job step)).Constraints := by
  have references := constraints.references
  have keepsId : ∀ row : JobRow, ({ row with step } : JobRow).id = row.id := fun _ => rfl
  have sameIds : (db.apply (.setStep job step)).jobs.map (·.id) = db.jobs.map (·.id) :=
    map_updateWhere keepsId db.jobs
  refine { constraints with
    references :=
      { references with
        jobs := fun row member => ?_
        starters := fun row member => ?_
        runs := fun run member => sameIds ▸ references.runs run member
        transcripts := fun row member => sameIds ▸ references.transcripts row member
        chunks := fun chunk member => sameIds ▸ references.chunks chunk member }
    jobIds := nodup_update constraints.jobIds keepsId }
  · rcases mem_updateWhere.mp member with ⟨old, stored, _, rfl⟩ | ⟨stored, _⟩
    · exact references.jobs old stored
    · exact references.jobs row stored
  · rcases mem_updateWhere.mp member with ⟨old, stored, _, rfl⟩ | ⟨stored, _⟩
    · exact references.starters old stored
    · exact references.starters row stored

omit [Isolang] in
theorem insertRun {job : Uuid} {step : IngestionStep} {status : RunStatus}
    {startedAt : Option Timestamp} {run : StepRunRow} (constraints : db.Constraints)
    (inserted : Zyndeck.insertRun env job step status startedAt db = .ok run) :
    (db.apply (.insertRun run)).Constraints := by
  obtain ⟨rfl, _, notCompleted, apart, found⟩ := insertRun_ok.mp inserted
  have references := constraints.references
  have clear : ∀ other ∈ db.runs, (newRun env job step status startedAt db).id ≠ other.id ∧
      (other.jobId, other.step, other.attempt) ≠
        (job, step, (newRun env job step status startedAt db).attempt) ∧
      (job = other.jobId → ¬ (status.isActive = true ∧ other.status.isActive = true)) := by
    intro other stored
    have free := apart other stored
    refine ⟨fun same => ?_, fun same => ?_, fun sameJob both => ?_⟩
    · simp [StepRunRow.clashes, same] at free
    · obtain ⟨sameJob, sameStep, sameAttempt⟩ : other.jobId = job ∧ other.step = step ∧
          other.attempt = (newRun env job step status startedAt db).attempt := by simpa using same
      simp only [StepRunRow.clashes, sameAttempt, sameJob, sameStep] at free
      simp [newRun] at free
    · simp [StepRunRow.clashes, newRun, sameJob, both] at free
  refine { constraints with
    references := { references with runs := fun run member => ?_ }
    runIds := nodup_insert constraints.runIds fun other stored same =>
      (clear other stored).1 same.symm
    attempts := nodup_insert constraints.attempts fun other stored => (clear other stored).2.1
    oneActive := ?_
    runSteps := fun run member => ?_ }
  · rcases List.mem_append.mp member with stored | isNew
    · exact references.runs run stored
    · obtain rfl := List.mem_singleton.mp isNew
      exact Db.job?_isSome.mp found
  · refine List.pairwise_append.mpr
      ⟨constraints.oneActive, List.pairwise_singleton _ _,
        fun other stored last isNew same both => ?_⟩
    obtain rfl := List.mem_singleton.mp isNew
    exact (clear other stored).2.2 same.symm both.symm
  · rcases List.mem_append.mp member with stored | isNew
    · exact constraints.runSteps run stored
    · obtain rfl := List.mem_singleton.mp isNew
      exact notCompleted

omit [Isolang] in
theorem updateRuns {now : Timestamp} {hit : StepRunRow → Bool} {set : StepRunRow → StepRunRow}
    (constraints : db.Constraints)
    (each : ∀ row, hit row = true → StepRunRow.Evolves now row (set row)) :
    (db.updateRuns hit set).2.Constraints := by
  have evolves := evolves_updateWhere each
  have step : RunsStep now db.runs (db.updateRuns hit set).2.runs := .of_updateRuns each
  have references := constraints.references
  refine { constraints with
    references := { references with runs := fun run member => ?_ }
    runIds := step.nodup constraints.runIds
    attempts := ?_
    oneActive := step.oneActive constraints.oneActive
    runSteps := fun run member => ?_ }
  · obtain ⟨old, stored, rfl⟩ := List.mem_map.mp member
    rw [(evolves old).jobId_eq]
    exact references.runs old stored
  · have same : ((db.updateRuns hit set).2.runs.map fun run =>
        (run.jobId, run.step, run.attempt)) =
          db.runs.map fun run => (run.jobId, run.step, run.attempt) := by
      simp only [Db.updateRuns, updateWhere, List.map_map]
      refine List.map_congr_left fun row _ => ?_
      have evolved := evolves row
      simp only [Function.comp_apply, evolved.jobId_eq, evolved.step_eq, evolved.attempt_eq]
    rw [same]
    exact constraints.attempts
  · obtain ⟨old, stored, rfl⟩ := List.mem_map.mp member
    rw [(evolves old).step_eq]
    exact constraints.runSteps old stored

theorem effect {next : Db} {operation : Operation} {result : Except Error Output}
    (constraints : db.Constraints) (effect : Effect env db operation result next) :
    next.Constraints := by
  cases effect with
  | failed => exact constraints
  | started created inserted => exact (constraints.insertJob created).insertRun inserted
  | claimed => exact constraints.updateRuns (claim_evolves _ _)
  | finished => exact constraints.updateRuns (finish_evolves _ _ _)
  | aborted => exact constraints.updateRuns (abort_evolves _ _)
  | begun inserted => exact constraints.insertRun inserted
  | restarted _ _ inserted => exact constraints.insertRun inserted
  | validated _ _ _ _ _ _ inserted =>
      exact (constraints.setStep _ _).insertRun ((enqueue_setStep ..).trans inserted)
  | advanced _ _ _ _ _ _ inserted =>
      exact (constraints.setStep _ _).insertRun ((begin_setStep ..).trans inserted)
  | completed => exact constraints.setStep _ _

end

/-! The writes of the bodies. -/

theorem upsertTranscript {job : Uuid} {content : Text} {next : Db} (constraints : db.Constraints)
    (written : db.upsertTranscript job content = .ok next) : next.Constraints := by
  have references := constraints.references
  simp only [Db.upsertTranscript] at written
  split at written
  · contradiction
  · split at written
    · contradiction
    · rename_i found
      have known : job ∈ db.jobs.map (·.id) :=
        Db.job?_isSome.mp (by simpa [Option.isSome_iff_ne_none] using found)
      split at written <;> obtain rfl := Except.ok.inj written
      · refine { constraints with
          references := { references with transcripts := fun row member => ?_ }
          transcriptJobs := nodup_update constraints.transcriptJobs fun _ => rfl }
        rcases mem_updateWhere.mp member with ⟨old, stored, _, rfl⟩ | ⟨stored, _⟩
        · exact references.transcripts old stored
        · exact references.transcripts row stored
      · rename_i absent
        refine { constraints with
          references := { references with transcripts := fun row member => ?_ }
          transcriptJobs := nodup_insert constraints.transcriptJobs fun other stored same => ?_ }
        · rcases List.mem_append.mp member with stored | isNew
          · exact references.transcripts row stored
          · obtain rfl := List.mem_singleton.mp isNew
            exact known
        · exact absent (List.any_eq_true.mpr ⟨other, stored, decide_eq_true same⟩)

theorem deleteChunks (constraints : db.Constraints) (job : Uuid) :
    (db.deleteChunks job).Constraints := by
  have references := constraints.references
  refine { constraints with
    references :=
      { references with
        chunks := fun chunk member => references.chunks chunk (List.mem_of_mem_filter member)
        embeddings := fun row member => ?_ }
    chunkIds := nodup_delete constraints.chunkIds
    positions := nodup_delete constraints.positions
    embeddingChunks := nodup_delete constraints.embeddingChunks
    dimensions := fun row member => constraints.dimensions row (List.mem_of_mem_filter member) }
  obtain ⟨stored, kept⟩ := List.mem_filter.mp member
  obtain ⟨chunk, chunkStored, same⟩ := List.mem_map.mp (references.embeddings row stored)
  refine List.mem_map.mpr ⟨chunk, List.mem_filter.mpr ⟨chunkStored, ?_⟩, same⟩
  rw [Bool.not_eq_true', List.any_eq_false] at kept
  simpa [same] using kept chunk chunkStored

theorem insertChunk {id job : Uuid} {new : NewChunk} {next : Db} (constraints : db.Constraints)
    (inserted : Zyndeck.insertChunk id job new db = .ok next) : next.Constraints := by
  have references := constraints.references
  simp only [Zyndeck.insertChunk] at inserted
  split at inserted
  · contradiction
  · split at inserted
    · contradiction
    · rename_i free
      split at inserted
      · contradiction
      · rename_i found
        obtain rfl := Except.ok.inj inserted
        have clear : ∀ other ∈ db.chunks, other.id ≠ id ∧
            (other.jobId = job → other.position ≠ new.position) := by
          intro other stored
          have apart : ¬ (decide (other.id = id) || (decide (other.jobId = job) &&
              decide (other.position = new.position))) = true :=
            fun hit => free (List.any_eq_true.mpr ⟨other, stored, hit⟩)
          refine ⟨fun same => ?_, fun sameJob samePosition => ?_⟩
          · simp [same] at apart
          · simp [sameJob, samePosition] at apart
        refine { constraints with
          references :=
            { references with
              chunks := fun chunk member => ?_
              embeddings := fun row member => ?_ }
          chunkIds := nodup_insert constraints.chunkIds fun other stored => (clear other stored).1
          positions := nodup_insert constraints.positions fun other stored same => ?_ }
        · rcases List.mem_append.mp member with stored | isNew
          · exact references.chunks chunk stored
          · obtain rfl := List.mem_singleton.mp isNew
            have known : job ∈ db.jobs.map (·.id) :=
              Db.job?_isSome.mp (by simpa [Option.isSome_iff_ne_none] using found)
            exact known
        · rw [List.map_append]
          exact List.mem_append_left _ (references.embeddings row member)
        · obtain ⟨sameJob, samePosition⟩ := Prod.mk.inj same
          exact (clear other stored).2 sameJob samePosition

theorem insertChunks {ids : Nat → Uuid} {job : Uuid} {index : Nat} {new : List NewChunk}
    {next : Db} (constraints : db.Constraints)
    (inserted : Zyndeck.insertChunks ids job index new db = .ok next) : next.Constraints := by
  induction new generalizing index db with
  | nil =>
      obtain rfl := Except.ok.inj inserted
      exact constraints
  | cons chunk rest induction =>
      simp only [Zyndeck.insertChunks] at inserted
      cases first : Zyndeck.insertChunk (ids index) job chunk db with
      | error fault => simp [first, Bind.bind, Except.bind] at inserted
      | ok between =>
          rw [first] at inserted
          exact induction (constraints.insertChunk first) inserted

theorem storeEmbedding {chunk : Uuid} {embedding : List F32} {next : Db}
    (constraints : db.Constraints) (stored : Zyndeck.storeEmbedding chunk embedding db = .ok next) :
    next.Constraints := by
  have references := constraints.references
  simp only [Zyndeck.storeEmbedding] at stored
  split at stored
  · contradiction
  · rename_i valid
    have dimension : embedding.length = vectorDim :=
      Classical.byContradiction fun wrong => valid (by simp [wrong])
    split at stored
    · contradiction
    · rename_i found
      have known : chunk ∈ db.chunks.map (·.id) := by
        rw [any_key] at found
        simpa using found
      split at stored <;> obtain rfl := Except.ok.inj stored
      · refine { constraints with
          references := { references with embeddings := fun row member => ?_ }
          embeddingChunks := nodup_update constraints.embeddingChunks fun _ => rfl
          dimensions := fun row member => ?_ }
        · rcases mem_updateWhere.mp member with ⟨old, stored, _, rfl⟩ | ⟨stored, _⟩
          · exact references.embeddings old stored
          · exact references.embeddings row stored
        · rcases mem_updateWhere.mp member with ⟨old, _, _, rfl⟩ | ⟨stored, _⟩
          · exact dimension
          · exact constraints.dimensions row stored
      · rename_i absent
        refine { constraints with
          references := { references with embeddings := fun row member => ?_ }
          embeddingChunks := nodup_insert constraints.embeddingChunks fun other stored same =>
            absent (List.any_eq_true.mpr ⟨other, stored, decide_eq_true same⟩)
          dimensions := fun row member => ?_ }
        · rcases List.mem_append.mp member with stored | isNew
          · exact references.embeddings row stored
          · obtain rfl := List.mem_singleton.mp isNew
            exact known
        · rcases List.mem_append.mp member with stored | isNew
          · exact constraints.dimensions row stored
          · obtain rfl := List.mem_singleton.mp isNew
            exact dimension

/-! The calls of the API. -/

theorem insertUser (constraints : db.Constraints) {row : UserRow}
    (freshId : ∀ other ∈ db.users, other.id ≠ row.id)
    (freshName : ∀ other ∈ db.users, other.username ≠ row.username) :
    { db with users := db.users ++ [row] }.Constraints :=
  { constraints with
    references := constraints.references.of_users fun id known => by
      rw [List.map_append]
      exact List.mem_append_left _ known
    userIds := nodup_insert constraints.userIds freshId
    usernames := nodup_insert constraints.usernames freshName }

theorem userCall (constraints : db.Constraints) (draw : Draw) (call : UserCall) :
    (call.exec draw db).2.Constraints := by
  cases call with
  | findById => exact constraints
  | create new =>
      simp only [UserCall.exec, Db.createUser]
      split
      · exact constraints
      · split
        · exact constraints
        · rename_i free
          have clear : ∀ other ∈ db.users, other.id ≠ draw.userId ∧
              other.username ≠ new.username := by
            intro other stored
            have apart : ¬ (decide (other.id = draw.userId) ||
                decide (other.username = new.username)) = true :=
              fun hit => free (List.any_eq_true.mpr ⟨other, stored, hit⟩)
            refine ⟨fun same => ?_, fun same => ?_⟩ <;> simp [same] at apart
          exact constraints.insertUser (fun other stored => (clear other stored).1)
            fun other stored => (clear other stored).2
  | update id changes =>
      simp only [UserCall.exec, Db.updateUser]
      split
      · exact constraints
      · split
        · exact constraints
        · split
          · exact constraints
          · rename_i free
            have clear : ∀ other ∈ db.users, other.id ≠ id →
                other.username ≠ changes.username := by
              intro other stored apart same
              exact free (List.any_eq_true.mpr ⟨other, stored, by simp [apart, same]⟩)
            exact { constraints with
              references := constraints.references.of_users fun id known => by
                rwa [map_updateWhere (UserRow.change_id _)]
              userIds := nodup_update constraints.userIds (UserRow.change_id _)
              usernames := nodup_set constraints.userIds constraints.usernames
                (fun _ => rfl) clear }
  | delete id =>
      have references := constraints.references.deleteUser id
      simp only [UserCall.exec]
      rw [Db.deleteUser] at references ⊢
      split
      · exact constraints
      · rename_i known
        rw [if_neg known] at references
        split
        · exact constraints
        · rename_i free
          rw [if_neg free] at references
          exact { constraints with
            references
            userIds := nodup_delete constraints.userIds
            usernames := nodup_delete constraints.usernames
            jobIds := nodup_update constraints.jobIds fun _ => rfl }

theorem createGame (constraints : db.Constraints) (draw : GameDraw) (new : NewGame) :
    (db.createGame draw new).2.Constraints := by
  have references := constraints.references
  simp only [Db.createGame]
  split
  · exact constraints
  · split
    · exact constraints
    · rename_i fresh
      split
      · exact constraints
      · rename_i found
        refine { constraints with
          references :=
            { references with
              games := fun game member => ?_
              jobs := fun job member => ?_ }
          gameIds := nodup_insert constraints.gameIds fun other stored same =>
            fresh (List.any_eq_true.mpr ⟨other, stored, decide_eq_true same⟩) }
        · rcases List.mem_append.mp member with stored | isNew
          · exact references.games game stored
          · obtain rfl := List.mem_singleton.mp isNew
            have known : new.createdBy ∈ db.users.map (·.id) := by
              refine Classical.not_not.mp fun unknown => found ?_
              rw [Db.user?, find?_key_eq_none.mpr unknown]
              rfl
            exact known
        · rw [List.map_append]
          exact List.mem_append_left _ (references.jobs job member)

theorem updateGame (constraints : db.Constraints) (id : Uuid) (changes : GameUpdate) :
    (db.updateGame id changes).2.Constraints := by
  have references := constraints.references
  simp only [Db.updateGame]
  split
  · exact constraints
  · have keepsId : ∀ row : GameRow, ({ row with name := changes.name } : GameRow).id = row.id :=
      fun _ => rfl
    refine { constraints with
      references :=
        { references with
          games := fun game member => ?_
          jobs := fun job member => ?_ }
      gameIds := nodup_update constraints.gameIds keepsId }
    · rcases mem_updateWhere.mp member with ⟨old, stored, _, rfl⟩ | ⟨stored, _⟩
      · exact references.games old stored
      · exact references.games game stored
    · rw [map_updateWhere keepsId]
      exact references.jobs job member

theorem kept_of_mem_jobs {id job : Uuid} (known : job ∈ db.jobs.map (·.id))
    (kept : job ∉ (db.jobs.filter (·.gameId = id)).map (·.id)) :
    job ∈ (db.jobs.filter (·.gameId ≠ id)).map (·.id) := by
  obtain ⟨row, stored, isJob⟩ := List.mem_map.mp known
  have other : row.gameId ≠ id := fun ofGame =>
    kept (List.mem_map.mpr ⟨row, List.mem_filter.mpr ⟨stored, decide_eq_true ofGame⟩, isJob⟩)
  exact List.mem_map.mpr ⟨row, List.mem_filter.mpr ⟨stored, decide_eq_true other⟩, isJob⟩

theorem deleteGame (constraints : db.Constraints) (id : Uuid) :
    (db.deleteGame id).2.Constraints := by
  have references := constraints.references
  refine { constraints with
    references :=
      { games := fun game member => references.games game (List.mem_of_mem_filter member)
        jobs := fun job member => ?_
        starters := fun job member => references.starters job (List.mem_of_mem_filter member)
        runs := fun run member => ?_
        transcripts := fun row member => ?_
        chunks := fun chunk member => ?_
        embeddings := fun row member => ?_ }
    gameIds := nodup_delete constraints.gameIds
    jobIds := nodup_delete constraints.jobIds
    runIds := nodup_delete constraints.runIds
    attempts := nodup_delete constraints.attempts
    oneActive := constraints.oneActive.sublist List.filter_sublist
    runSteps := fun run member => constraints.runSteps run (List.mem_of_mem_filter member)
    transcriptJobs := nodup_delete constraints.transcriptJobs
    chunkIds := nodup_delete constraints.chunkIds
    positions := nodup_delete constraints.positions
    embeddingChunks := nodup_delete constraints.embeddingChunks
    dimensions := fun row member => constraints.dimensions row (List.mem_of_mem_filter member) }
  · obtain ⟨stored, other⟩ := List.mem_filter.mp member
    obtain ⟨game, gameStored, isGame⟩ := List.mem_map.mp (references.jobs job stored)
    refine List.mem_map.mpr ⟨game, List.mem_filter.mpr ⟨gameStored, ?_⟩, isGame⟩
    simpa [isGame] using other
  · obtain ⟨stored, kept⟩ := List.mem_filter.mp member
    exact kept_of_mem_jobs (references.runs run stored) (of_decide_eq_true kept)
  · obtain ⟨stored, kept⟩ := List.mem_filter.mp member
    exact kept_of_mem_jobs (references.transcripts row stored) (of_decide_eq_true kept)
  · obtain ⟨stored, kept⟩ := List.mem_filter.mp member
    exact kept_of_mem_jobs (references.chunks chunk stored) (of_decide_eq_true kept)
  · obtain ⟨stored, kept⟩ := List.mem_filter.mp member
    obtain ⟨chunk, chunkStored, isChunk⟩ := List.mem_map.mp (references.embeddings row stored)
    refine List.mem_map.mpr ⟨chunk, List.mem_filter.mpr ⟨chunkStored, decide_eq_true ?_⟩, isChunk⟩
    intro ofJob
    have deleted : chunk ∈ db.chunks.filter
        (·.jobId ∈ (db.jobs.filter (·.gameId = id)).map (·.id)) :=
      List.mem_filter.mpr ⟨chunkStored, decide_eq_true ofJob⟩
    exact of_decide_eq_true kept (List.mem_map.mpr ⟨chunk, deleted, isChunk⟩)

theorem repositoryCall (constraints : db.Constraints) (draw : RepositoryDraw)
    (call : RepositoryCall) : (call.exec draw db).2.Constraints := by
  cases call with
  | user call => exact constraints.userCall draw.user call
  | createGame new => exact constraints.createGame draw.game new
  | updateGame id changes => exact constraints.updateGame id changes
  | deleteGame id => exact constraints.deleteGame id
  | findCredentialsByUsername | countUsers | listUsers | findGame | countGames | listGames =>
      exact constraints

theorem upsertUser (constraints : db.Constraints) (draw : Draw) (new : NewUser) :
    (db.upsertUser draw new).2.Constraints := by
  simp only [Db.upsertUser]
  split
  · exact constraints
  · split
    · have keepsId : ∀ row : UserRow, (row.reset new).id = row.id := fun _ => rfl
      exact { constraints with
        references := constraints.references.of_users fun id known => by
          rwa [map_updateWhere keepsId]
        userIds := nodup_update constraints.userIds keepsId
        usernames := nodup_update constraints.usernames fun _ => rfl }
    · rename_i unknown
      split
      · exact constraints
      · rename_i fresh
        refine constraints.insertUser (fun other stored same => ?_) fun other stored same => ?_
        · exact fresh (List.any_eq_true.mpr ⟨other, stored, decide_eq_true same⟩)
        · rw [returning, List.head?_map, Option.map_eq_none_iff, List.head?_eq_none_iff,
            List.filter_eq_nil_iff] at unknown
          exact unknown other stored (decide_eq_true same)

end Db.Constraints

end Zyndeck
