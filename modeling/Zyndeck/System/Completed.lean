import Zyndeck.Db.Final
import Zyndeck.System.Index
import Zyndeck.System.Transcript

namespace Zyndeck

open Data

/-! What the tables hold of a completed job. -/

/-- The second tables hold of the job what the first ones do. -/
structure Db.SameJob (first second : Db) (job : Uuid) : Prop where
  row : second.job? job = first.job? job
  runs : second.runsOf job = first.runsOf job
  transcript : second.transcript? job = first.transcript? job
  chunks : second.chunksOf job = first.chunksOf job
  embeddings : ∀ chunk ∈ first.chunksOf job,
    second.embeddingsOf chunk.id = first.embeddingsOf chunk.id

namespace Db.SameJob

variable {first second third : Db} {job : Uuid}

theorem refl (db : Db) (job : Uuid) : SameJob db db job := ⟨rfl, rfl, rfl, rfl, fun _ _ => rfl⟩

theorem trans (before : SameJob first second job) (after : SameJob second third job) :
    SameJob first third job where
  row := after.row.trans before.row
  runs := after.runs.trans before.runs
  transcript := after.transcript.trans before.transcript
  chunks := after.chunks.trans before.chunks
  embeddings chunk member :=
    (after.embeddings chunk (before.chunks ▸ member)).trans (before.embeddings chunk member)

theorem of_pipeline (row : second.job? job = first.job? job)
    (runs : second.runsOf job = first.runsOf job)
    (transcripts : second.transcripts = first.transcripts)
    (content : second.chunks = first.chunks ∧ second.embeddings = first.embeddings) :
    SameJob first second job where
  row
  runs
  transcript := transcript?_eq transcripts job
  chunks := by rw [Db.chunksOf, Db.chunksOf, content.1]
  embeddings chunk _ := by rw [Db.embeddingsOf, Db.embeddingsOf, content.2]

theorem of_content (same : first.SamePipeline second)
    (transcript : second.transcript? job = first.transcript? job)
    (chunks : second.chunksOf job = first.chunksOf job)
    (embeddings : ∀ chunk ∈ first.chunksOf job,
      second.embeddingsOf chunk.id = first.embeddingsOf chunk.id) :
    SameJob first second job where
  row := same.job? job
  runs := by rw [Db.runsOf, Db.runsOf, same.runs]
  transcript
  chunks
  embeddings

end Db.SameJob

theorem embeddingsOf_replace_of_ne {env : Env} {job : Uuid} {new : List NewChunk} {db next : Db}
    (replaced : replaceChunks env job new db = .ok next) (keys : db.ContentKeys)
    {chunk : ChunkRow} (stored : chunk ∈ db.chunks) (apart : chunk.jobId ≠ job) :
    next.embeddingsOf chunk.id = db.embeddingsOf chunk.id := by
  obtain ⟨rfl, _⟩ := replaceChunks_ok replaced keys
  simp only [Db.embeddingsOf, Db.deleteChunks, List.filter_filter]
  refine congrArg (List.map _) (List.filter_congr fun row _ => ?_)
  by_cases ofChunk : row.chunkId = chunk.id
  · have spared : (db.chunks.any fun other =>
        decide (other.jobId = job) && decide (other.id = row.chunkId)) = false := by
      refine List.any_eq_false.mpr fun other otherStored deleted => ?_
      simp only [Bool.and_eq_true, decide_eq_true_eq] at deleted
      have same := List.inj_on_of_nodup_map keys.chunks otherStored stored
        (deleted.2.trans ofChunk)
      exact apart (same ▸ deleted.1)
    simp [spared]
  · simp [ofChunk]

theorem BodyStep.sameJob {job other : Uuid} {db next : Db} {log : List Observation} {body : Body}
    {answer : Answer} {work : Work} {observed : List Observation}
    (step : BodyStep job db body answer work next observed) (keys : db.ContentKeys)
    (toward : db.Toward log job body) (apart : other ≠ job) : db.SameJob next other := by
  have same := step.same
  have whole := step
  cases step with
  | broke | extracted | split | listed | embedded => exact .refl _ _
  | upserted written =>
      obtain ⟨chunks, embeddings⟩ := (upsertTranscript_ok written).content
      refine .of_content same ((upsertTranscript_ok written).others _ apart) ?_ fun chunk _ => ?_
      · rw [Db.chunksOf, Db.chunksOf, chunks]
      · rw [Db.embeddingsOf, Db.embeddingsOf, embeddings]
  | replaced replaced =>
      refine .of_content same (transcript?_eq (whole.transcripts (by simp [Body.ofStep])) other)
        (chunksOf_replace_of_ne replaced keys apart) fun chunk member => ?_
      obtain ⟨stored, ofOther⟩ := mem_chunksOf.mp member
      exact embeddingsOf_replace_of_ne replaced keys stored (ofOther ▸ apart)
  | stored stored =>
      obtain ⟨chunks, _⟩ := storeEmbedding_ok stored keys
      refine .of_content same (transcript?_eq (whole.transcripts (by simp [Body.ofStep])) other)
        (by rw [Db.chunksOf, Db.chunksOf, chunks]) fun chunk member => ?_
      rw [embeddingsOf_store stored keys, if_neg]
      -- The chunk of the vector is one of the job that the body is for.
      intro sameId
      obtain ⟨isChunk, ofOther⟩ := mem_chunksOf.mp member
      obtain ⟨paired, ofJob⟩ := mem_chunksOf.mp (toward.paired _ (List.mem_cons_self ..)).1
      obtain rfl := List.inj_on_of_nodup_map keys.chunks isChunk paired sameId
      exact apart (ofOther.symm.trans ofJob)

section

variable [Isolang]

/-- A call changes no column of a stored job but its step. -/
theorem Effect.row_of_found {env : Env} {db next : Db} {operation : Operation}
    {result : Except Error Output} (effect : Effect env db operation result next)
    {job : Uuid} {row : JobRow} (found : db.job? job = some row) :
    ∃ step, next.job? job = some { row with step } := by
  have stepped : ∀ (owner : Uuid) (step : IngestionStep),
      ∃ later, (db.apply (.setStep owner step)).job? job = some { row with step := later } := by
    intro owner step
    rw [job?_setStep, found, Option.map_some]
    split
    · exact ⟨step, rfl⟩
    · exact ⟨row.step, rfl⟩
  cases effect with
  | failed | claimed | finished | aborted | begun | restarted => exact ⟨row.step, found⟩
  | started =>
      refine ⟨row.step, ?_⟩
      have isFirst : db.jobs.find? (·.id = job) = some row := found
      simp [Db.job?, Db.apply, List.find?_append, isFirst]
  | validated | advanced | completed => exact stepped _ _

theorem Effect.sameJob {env : Env} {db next : Db} {operation : Operation}
    {result : Except Error Output} (effect : Effect env db operation result next)
    {job : Uuid} {history : History} (known : db.history job = some history)
    (same : next.history job = some history) : db.SameJob next job := by
  obtain ⟨row, found, rfl⟩ := Db.history_eq_some.mp known
  obtain ⟨later, isLater, sameHistory⟩ := Db.history_eq_some.mp same
  obtain ⟨sameStep, sameRuns⟩ := History.mk.inj sameHistory
  obtain ⟨step, isRow⟩ := effect.row_of_found found
  obtain rfl := Option.some.inj (isLater.symm.trans isRow)
  refine .of_pipeline (isLater.trans ?_) sameRuns.symm effect.transcripts effect.content
  rw [found]
  exact congrArg some (by rw [show step = row.step from sameStep.symm])

theorem Effect.sameJob_of_over {env : Env} {db next : Db} {operation : Operation}
    {result : Except Error Output} (effect : Effect env db operation result next)
    (referenced : db.Referenced) (pipeline : operation.isBegin = false) {job : Uuid}
    {history : History} (known : db.history job = some history) (isOver : history.Over)
    (past : history.step ≠ .extract) : db.SameJob next job := by
  have progress := effect.progress_of_pipeline referenced pipeline job
  rw [known] at progress
  generalize isLater : next.history job = later at progress
  cases progress with
  | stepped moved =>
      rw [moved.eq_of_over isOver past] at isLater
      exact effect.sameJob known isLater

theorem Took.sameJob {system next : System} {event : Event} (took : Took system event next)
    (sane : system.Sane) (bodies : system.Bodies) (indexing : system.Indexing)
    (reviewed : system.Reviewed) (inTime : system.EditsInTime event) {job : Uuid}
    {history : History} (known : system.db.history job = some history) (isOver : history.Over)
    (past : history.step ≠ .extract) : system.db.SameJob next.db job := by
  have referenced := sane.shaped.referenced
  cases took with
  | called byOperator =>
      exact (exec_effect ..).sameJob_of_over referenced
        (Operation.pipeline_of_byOperator byOperator).1 known isOver past
  | @moved service task answer result working step =>
      obtain ⟨drive, phase⟩ := task
      cases step with
      | vanished | failed | entered => exact .refl _ _
      | claimed | unclaimed | finished | unfinished | advanced | stopped =>
          exact (exec_effect ..).sameJob_of_over referenced rfl known isOver past
      | dropped issues =>
          exact (exec_effect ..).sameJob_of_over referenced issues.isBegin known isOver past
      | worked step =>
          refine step.sameJob indexing.keys (indexing.toward working) ?_
          -- The run of the body is running, and none of the job is.
          rintro rfl
          have holds : system.Holds service _ _ := ⟨working, rfl⟩
          obtain ⟨row, member, _, ofJob, _, running⟩ :=
            (bodies _ _ _ _ (System.body?_eq_some.mpr ⟨drive, _, working, rfl⟩)).1
          have stored := (Db.mem_history known).mpr
            ⟨member, ofJob.trans (sane.stored _ _ _ holds).1.symm⟩
          have ended := (isOver row stored).1
          rw [running] at ended
          contradiction
  | processed | switched | crashed | seated => exact .refl _ _
  | edited working step =>
      cases step with
      | ended | checked | read | changed => exact .refl _ _
      | saved written executed =>
          obtain ⟨chunks, embeddings⟩ := (upsertTranscript_ok written).content
          refine .of_content (upsertTranscript_ok written).same
            ((upsertTranscript_ok written).others _ ?_) ?_ fun chunk _ => ?_
          · rintro rfl
            obtain ⟨text, validated⟩ := reviewed.past _ _ known past
            exact inTime.save _ _ _ _ rfl executed working text validated
          · rw [Db.chunksOf, Db.chunksOf, chunks]
          · rw [Db.embeddingsOf, Db.embeddingsOf, embeddings]

/-- What the tables hold of a job that is over stays as it is in every later state. -/
theorem over_is_final {system next : System} {events : List Event}
    (reachable : Reachable System.Initial (System.Events System.EditsInTime) system)
    (run : Run (System.Events System.EditsInTime) system events next) {job : Uuid}
    {history : History} (known : system.db.history job = some history) (isOver : history.Over)
    (past : history.step ≠ .extract) : system.db.SameJob next.db job := by
  induction run with
  | nil => exact .refl _ _
  | @snoc _ state event next before taken induction =>
      obtain ⟨start, events, initial, first⟩ := reachable
      have reached : Reachable System.Initial (System.Events System.EditsInTime) state :=
        ⟨start, _, initial, first.append before⟩
      have unaborted : ∀ system event, System.EditsInTime system event → event.isAbort = false :=
        fun _ _ inTime => inTime.unaborted
      have bodies := bodies_of_reachable (fun _ _ spares => spares)
        (reachable_sparing unaborted reached)
      have still : state.db.history job = some history := by
        rw [Db.history, induction.row, induction.runs]
        exact known
      exact induction.trans ((System.step?_cases taken.2).sameJob (System.sane_of_reachable reached)
        bodies (indexing_of_reachable unaborted reached) (reviewed_of_reachable reached) taken.1
        still isOver past)

/-- The index of the job is that of a transcript: its chunks are those that the transcript
is split into, and each has one embedding, computed from its heading and content. -/
structure System.IndexOf (system : System) (job : Uuid) (transcript : Text) : Prop where
  splits : system.db.Splits job transcript
  embedded : ∀ chunk ∈ system.db.chunksOf job, ∃ row,
    system.db.embeddings.filter (·.chunkId = chunk.id) = [row] ∧
      row.embedding.length = 1024 ∧ Computed system.log chunk row.embedding

/-- The index of a completed job is that of the transcript that was validated, which is
still the one stored. -/
theorem completed_cites_validated {system : System}
    (reachable : Reachable System.Initial (System.Events System.EditsInTime) system) :
    ∀ job ∈ system.db.jobs, job.step = .completed →
      ∃ transcript, .validated job.id (some transcript) ∈ system.log ∧
        system.db.transcript? job.id = some transcript ∧ system.IndexOf job.id transcript := by
  intro job member completed
  have unaborted : ∀ system event, System.EditsInTime system event → event.isAbort = false :=
    fun _ _ inTime => inTime.unaborted
  have sane := System.sane_of_reachable reachable
  have indexing := indexing_of_reachable unaborted reachable
  have reviewed := reviewed_of_reachable reachable
  obtain ⟨⟨text, read, _, splits⟩, embedded⟩ := indexing.completed sane member completed
  have validated := reviewed.split _ _ read
  exact ⟨text, validated, (reviewed.validated _ _ validated).1, splits, embedded⟩

/-- Once a job is completed, its row, runs, transcript, chunks and embeddings are final. -/
theorem completed_is_final {system next : System} {events : List Event}
    (reachable : Reachable System.Initial (System.Events System.EditsInTime) system)
    (run : Run (System.Events System.EditsInTime) system events next) :
    ∀ job ∈ system.db.jobs, job.step = .completed → system.db.SameJob next.db job.id := by
  intro job member completed
  have shaped := (System.sane_of_reachable reachable).shaped
  have known := Db.history_of_found
    ((find?_key_eq_some shaped.jobs).mpr ⟨member, rfl⟩ : system.db.job? job.id = some job)
  exact over_is_final reachable run known
    ((shaped.histories _ _ known).over_of_completed completed) (by simp [completed])

end

section

attribute [local instance] english

theorem completed_cites_validated_after_edit :
    let system := System.after editsInTime deployment
      (toReview ++ opened ++ [.edit 0 (.edited (some ['y'])), editRequest 6] ++ toEmbedded ++
        [request 0 17])
    system.db.jobs.map (fun job => (job.id, job.step)) = [(firstJob, .completed)] ∧
      ∀ job ∈ system.db.jobs, job.step = .completed →
        ∃ transcript, .validated job.id (some transcript) ∈ system.log ∧
          system.db.transcript? job.id = some transcript ∧ system.IndexOf job.id transcript :=
  ⟨by decide +kernel, completed_cites_validated
    (System.reachable_after editsInTime_sound deployment_initial (by decide +kernel))⟩

theorem completed_is_final_after_restart :
    let system := System.after editsInTime deployment (toReview ++ toEmbedded ++ [request 0 17])
    system.db.jobs.map (·.step) = [.completed] ∧
      ∀ job ∈ system.db.jobs, job.step = .completed →
        system.db.SameJob (system.call (tick 18 (.restart firstJob)).env (.restart firstJob)).db
          job.id :=
  ⟨by decide +kernel, completed_is_final
    (System.reachable_after editsInTime_sound deployment_initial (by decide +kernel))
    (.single ⟨editsInTime_sound _ (byOperator 18 (.restart firstJob)) (by decide +kernel), rfl⟩)⟩

end

end Zyndeck
