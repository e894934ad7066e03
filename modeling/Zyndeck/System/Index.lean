import Zyndeck.Ingester.Chunking
import Zyndeck.Ingester.Embedding
import Zyndeck.System.Resume

namespace Zyndeck

open Data

/-! The chunks of a job and their embeddings. -/

def ChunkRow.text (row : ChunkRow) : NewChunk :=
  ⟨row.position, row.heading, row.page, row.content⟩

/-- The chunks of the job are those of the transcript, in their order. -/
def Db.Splits (db : Db) (job : Uuid) (transcript : Text) : Prop :=
  (db.chunksOf job).map (·.text) = Body.numbered (Chunk.split transcript)

theorem text_rowsFrom {ids : Nat → Uuid} {job : Uuid} {index : Nat} {new : List NewChunk} :
    (rowsFrom ids job index new).map (·.text) = new :=
  (map_rowsFrom fun _ _ => rfl).trans (List.map_id new)

theorem splits_replace {env : Env} {job : Uuid} {transcript : Text} {db next : Db}
    (replaced : replaceChunks env job (Body.numbered (Chunk.split transcript)) db = .ok next)
    (keys : db.ContentKeys) : next.Splits job transcript := by
  have sorted := Body.position_numbered (Chunk.split transcript) ▸ List.pairwise_le_range
  rw [Db.Splits, chunksOf_replace replaced keys sorted, text_rowsFrom]

/-- The chunks of the job are those of a transcript of it that was read. -/
def Db.Cites (db : Db) (log : List Observation) (job : Uuid) : Prop :=
  ∃ text, .split job text ∈ log ∧ Chunk.split text ≠ [] ∧ db.Splits job text

theorem Db.Splits.numbered {db : Db} {job : Uuid} {transcript : Text}
    (splits : db.Splits job transcript) :
    (db.chunksOf job).map (·.position) = List.range (Chunk.split transcript).length := by
  have positions := congrArg (List.map (·.position)) splits
  rw [List.map_map, Body.position_numbered] at positions
  exact positions

/-- The embedder returned the vector for the chunk's heading and content. -/
def Computed (log : List Observation) (chunk : ChunkRow) (vector : List F32) : Prop :=
  ∃ (inputs : List Text) (vectors : List (List F32)) (index : Nat),
    .embedded inputs vectors ∈ log ∧
    inputs[index]? = some (if chunk.heading = [] then chunk.content
      else chunk.heading ++ ['\n', '\n'] ++ chunk.content) ∧
    vectors[index]? = some vector

theorem Computed.mono {log later : List Observation} {chunk : ChunkRow} {vector : List F32}
    (grows : log ⊆ later) (computed : Computed log chunk vector) : Computed later chunk vector := by
  obtain ⟨inputs, vectors, index, member, facts⟩ := computed
  exact ⟨inputs, vectors, index, grows member, facts⟩

/-- The chunk has an embedding, and it was computed from the chunk. -/
def Db.Indexed (db : Db) (log : List Observation) (chunk : ChunkRow) : Prop :=
  ∃ row ∈ db.embeddings, row.chunkId = chunk.id ∧ row.embedding.length = vectorDim ∧
    Computed log chunk row.embedding

/-- What the body of a step has achieved for a job once it succeeds. -/
def Db.Achieved (db : Db) (log : List Observation) (job : Uuid) : IngestionStep → Prop
  | .chunk => db.Cites log job
  | .embed => ∀ chunk ∈ db.chunksOf job, db.Indexed log chunk
  | .extract | .completed => True

/-- What the body of `embed` has left: chunks to be embedded, and vectors to be
stored.  Every other chunk of the job is indexed. -/
structure Db.Embeds (db : Db) (log : List Observation) (job : Uuid)
    (pairs : List (ChunkRow × List F32)) (left : List ChunkRow) : Prop where
  listed : ∀ chunk ∈ left, chunk ∈ db.chunksOf job
  paired : ∀ pair ∈ pairs, pair.1 ∈ db.chunksOf job ∧ Computed log pair.1 pair.2
  covered : ∀ chunk ∈ db.chunksOf job,
    chunk ∈ left ∨ chunk ∈ pairs.map (·.1) ∨ db.Indexed log chunk

/-- What a body has achieved when it is about to make its next request. -/
def Db.Toward (db : Db) (log : List Observation) (job : Uuid) : Body → Prop
  | .replacing new => ∃ text, .split job text ∈ log ∧ Chunk.split text ≠ [] ∧
      new = Body.numbered (Chunk.split text)
  | .embedding left => db.Embeds log job [] left
  | .storing pairs left => db.Embeds log job pairs left
  | .extracting | .upserting _ | .chunking | .listing => True

def Db.Worked (db : Db) (log : List Observation) (job : Uuid) (step : IngestionStep) : Work → Prop
  | .more body => db.Toward log job body
  | .done (.ok ()) => db.Achieved log job step
  | .done (.error _) => True

/-! What a change to other jobs keeps of a job. -/

structure Db.Kept (db next : Db) (log later : List Observation) (job : Uuid) : Prop where
  chunks : next.chunksOf job = db.chunksOf job
  indexed : ∀ chunk ∈ db.chunksOf job, db.Indexed log chunk → next.Indexed later chunk
  grows : log ⊆ later

namespace Db.Kept

variable {db next : Db} {log later : List Observation} {job : Uuid}

theorem of_same (chunks : next.chunks = db.chunks) (embeddings : next.embeddings = db.embeddings)
    (grows : log ⊆ later) : db.Kept next log later job where
  chunks := by rw [Db.chunksOf, Db.chunksOf, chunks]
  indexed chunk _ indexed := by
    obtain ⟨row, member, ofChunk, dimension, computed⟩ := indexed
    exact ⟨row, embeddings ▸ member, ofChunk, dimension, computed.mono grows⟩
  grows := grows

theorem embeds (kept : db.Kept next log later job) {pairs : List (ChunkRow × List F32)}
    {left : List ChunkRow} (embeds : db.Embeds log job pairs left) :
    next.Embeds later job pairs left where
  listed chunk member := kept.chunks ▸ embeds.listed chunk member
  paired pair member := by
    obtain ⟨stored, computed⟩ := embeds.paired pair member
    exact ⟨kept.chunks ▸ stored, computed.mono kept.grows⟩
  covered chunk member := by
    rw [kept.chunks] at member
    rcases embeds.covered chunk member with isLeft | isPaired | indexed
    · exact .inl isLeft
    · exact .inr (.inl isPaired)
    · exact .inr (.inr (kept.indexed chunk member indexed))

theorem achieved (kept : db.Kept next log later job) {step : IngestionStep}
    (achieved : db.Achieved log job step) : next.Achieved later job step := by
  cases step with
  | extract | completed => trivial
  | chunk =>
      obtain ⟨text, read, some, splits⟩ := achieved
      exact ⟨text, kept.grows read, some, by rwa [Db.Splits, kept.chunks]⟩
  | embed =>
      intro chunk member
      rw [kept.chunks] at member
      exact kept.indexed chunk member (achieved chunk member)

theorem worked (kept : db.Kept next log later job) {step : IngestionStep} {work : Work}
    (worked : db.Worked log job step work) : next.Worked later job step work := by
  cases work with
  | more body =>
      cases body with
      | extracting | upserting | chunking | listing => trivial
      | replacing =>
          obtain ⟨text, read, facts⟩ := worked
          exact ⟨text, kept.grows read, facts⟩
      | embedding | storing => exact kept.embeds worked
  | done outcome =>
      cases outcome with
      | ok => exact kept.achieved worked
      | error => trivial

end Db.Kept

/-! What the bodies achieve. -/

theorem Body.chunkTranscript_worked {db : Db} {log : List Observation} {job : Uuid}
    {message transcript : Text} (read : .split job transcript ∈ log) :
    db.Worked log job .chunk (chunkTranscript message transcript) := by
  by_cases fitting : Chunk.Fitting transcript
  · rw [chunkTranscript_fitting fitting]
    exact ⟨transcript, read, fitting.1, rfl⟩
  · obtain ⟨reason, refused⟩ := chunkTranscript_unfitting fitting
    rw [refused]
    trivial

theorem Work.Heard.worked {db : Db} {log : List Observation} {job : Uuid} {step : IngestionStep}
    {work later : Work} (heard : work.Heard later) (worked : db.Worked log job step work) :
    db.Worked log job step later := by
  cases heard with
  | arrived => exact worked
  | lost => trivial

theorem Db.Embeds.store {db : Db} {log : List Observation} {job : Uuid}
    {pairs : List (ChunkRow × List F32)} {left : List ChunkRow}
    (embeds : db.Embeds log job pairs left) : db.Worked log job .embed (Body.store pairs left) := by
  cases pairs with
  | cons => exact embeds
  | nil =>
      cases left with
      | cons => exact embeds
      | nil =>
          intro chunk member
          rcases embeds.covered chunk member with none | none | indexed
          · contradiction
          · contradiction
          · exact indexed

theorem Db.Embeds.batch {db : Db} {log : List Observation} {job : Uuid} {left : List ChunkRow}
    (embeds : db.Embeds log job [] left) {response : Except Text (List (List F32))}
    {vectors : List (List F32)}
    (answered : embed ((left.take embedBatch).map embeddingInput) response = .ok vectors) :
    db.Embeds (log ++ [.embedded ((left.take embedBatch).map embeddingInput) vectors]) job
      ((left.take embedBatch).zip vectors) (left.drop embedBatch) := by
  have lengths : vectors.length = (left.take embedBatch).length := by
    simpa using (embed_ok answered).1
  refine ⟨fun chunk member => embeds.listed chunk (List.mem_of_mem_drop member),
    fun pair member => ?_, fun chunk member => ?_⟩
  · obtain ⟨index, found⟩ := List.mem_iff_getElem?.mp member
    obtain ⟨isChunk, isVector⟩ := List.getElem?_zip_eq_some.mp found
    refine ⟨embeds.listed _ (List.mem_of_mem_take (List.mem_of_getElem? isChunk)), _, _, index,
      List.mem_append_right _ (List.mem_singleton_self _), ?_, isVector⟩
    rw [List.getElem?_map, isChunk]
    rfl
  · rcases embeds.covered chunk member with isLeft | none | indexed
    · rw [List.map_fst_zip (Nat.le_of_eq lengths.symm)]
      rw [← List.take_append_drop embedBatch left] at isLeft
      exact (List.mem_append.mp isLeft).symm.imp_right .inl
    · contradiction
    · obtain ⟨row, stored, ofChunk, dimension, computed⟩ := indexed
      exact .inr (.inr ⟨row, stored, ofChunk, dimension,
        computed.mono (List.subset_append_left _ _)⟩)

theorem Db.Embeds.stored {db next : Db} {log : List Observation} {job : Uuid} {chunk : ChunkRow}
    {vector : List F32} {pairs : List (ChunkRow × List F32)} {left : List ChunkRow}
    (keys : db.ContentKeys) (embeds : db.Embeds log job ((chunk, vector) :: pairs) left)
    (stored : storeEmbedding chunk.id vector db = .ok next) :
    next.Embeds log job pairs left ∧ ∀ other, db.Kept next log log other := by
  obtain ⟨chunks, _, dimension, ⟨new, isNew, ofChunk, isVector⟩, others⟩ :=
    storeEmbedding_ok stored keys
  obtain ⟨member, computed⟩ := embeds.paired _ (List.mem_cons_self ..)
  have indexed : next.Indexed log chunk :=
    ⟨new, isNew, ofChunk, isVector ▸ dimension, isVector ▸ computed⟩
  have kept : ∀ other, db.Kept next log log other := by
    refine fun other => ⟨by rw [Db.chunksOf, Db.chunksOf, chunks], fun second stored old => ?_,
      List.Subset.refl _⟩
    by_cases same : second.id = chunk.id
    · obtain rfl := List.inj_on_of_nodup_map keys.chunks (mem_chunksOf.mp stored).1
        (mem_chunksOf.mp member).1 same
      exact indexed
    · obtain ⟨row, rowMember, ofSecond, facts⟩ := old
      exact ⟨row, others row rowMember (ofSecond ▸ same), ofSecond, facts⟩
  refine ⟨⟨fun other isLeft => ?_, fun pair isPaired => ?_, fun other isChunk => ?_⟩, kept⟩
  · exact (kept job).chunks ▸ embeds.listed other isLeft
  · obtain ⟨isChunk, ofPair⟩ := embeds.paired pair (List.mem_cons_of_mem _ isPaired)
    exact ⟨(kept job).chunks ▸ isChunk, ofPair⟩
  · rw [(kept job).chunks] at isChunk
    rcases embeds.covered other isChunk with isLeft | isPaired | old
    · exact .inl isLeft
    · rcases List.mem_cons.mp isPaired with rfl | isPaired
      · exact .inr (.inr indexed)
      · exact .inr (.inl isPaired)
    · exact .inr (.inr ((kept job).indexed other isChunk old))

/-- A body goes on towards what its success claims, and only that of `chunk` undoes
what was achieved, for its own job. -/
theorem BodyStep.worked {job : Uuid} {db next : Db} {log : List Observation} {body : Body}
    {answer : Answer} {work : Work} {observed : List Observation}
    (step : BodyStep job db body answer work next observed) (keys : db.ContentKeys)
    (toward : db.Toward log job body) :
    next.ContentKeys ∧ next.Worked (log ++ observed) job body.ofStep work ∧
      ∀ other, db.Kept next log (log ++ observed) other ∨ other = job ∧ body.ofStep = .chunk := by
  have grows := List.subset_append_left log observed
  cases step with
  | broke | extracted => exact ⟨keys, trivial, fun _ => .inl (.of_same rfl rfl grows)⟩
  | upserted written heard =>
      obtain ⟨chunks, embeddings⟩ := (upsertTranscript_ok written).content
      exact ⟨⟨chunks ▸ keys.chunks, embeddings ▸ keys.embeddings⟩, heard.worked trivial,
        fun _ => .inl (.of_same chunks embeddings grows)⟩
  | split =>
      exact ⟨keys, Body.chunkTranscript_worked (List.mem_append_right _ (.head _)),
        fun _ => .inl (.of_same rfl rfl grows)⟩
  | replaced replaced heard =>
      obtain ⟨_, newKeys⟩ := replaceChunks_ok replaced keys
      obtain ⟨text, read, some, rfl⟩ := toward
      have cites : next.Cites (log ++ []) job :=
        ⟨text, grows read, some, splits_replace replaced keys⟩
      refine ⟨newKeys, heard.worked cites, fun other => ?_⟩
      · by_cases same : other = job
        · exact .inr ⟨same, rfl⟩
        · refine .inl ⟨chunksOf_replace_of_ne replaced keys same, fun chunk member indexed => ?_,
            grows⟩
          obtain ⟨stored, ofOther⟩ := mem_chunksOf.mp member
          obtain ⟨row, rowMember, ofChunk, dimension, computed⟩ := indexed
          exact ⟨row, embeddings_replace replaced keys stored (ofOther ▸ same) rowMember ofChunk,
            ofChunk, dimension, computed.mono grows⟩
  | listed found =>
      refine ⟨keys, ⟨fun chunk member => found ▸ member, by simp, fun chunk member => ?_⟩,
        fun _ => .inl (.of_same rfl rfl grows)⟩
      exact .inl (found ▸ member)
  | embedded answered =>
      exact ⟨keys, (toward.batch answered).store, fun _ => .inl (.of_same rfl rfl grows)⟩
  | stored stored heard =>
      obtain ⟨embeds, kept⟩ := toward.stored keys stored
      obtain ⟨_, newKeys, _⟩ := storeEmbedding_ok stored keys
      rw [List.append_nil]
      exact ⟨newKeys, heard.worked embeds.store, fun other => .inl (kept other)⟩

theorem Body.begin_worked {db : Db} {log : List Observation} {job : Uuid}
    (step later : IngestionStep) : db.Worked log job later (begin step) := by
  cases step <;> trivial

section

variable [Isolang]

/-- While the `chunk` run of a job is running, its only successes are of `extract`. -/
theorem Db.Shaped.succeeded_before_chunk {db : Db} (shaped : db.Shaped) {run : IngestionStepRun}
    (running : db.Stores run (· = .running)) (isChunk : run.step = .chunk) {row : StepRunRow}
    (member : row ∈ db.runs) (ofJob : row.jobId = run.jobId) (succeeded : row.status = .succeeded) :
    row.step = .extract := by
  obtain ⟨stored, storedMember, _, jobId, step, status⟩ := running
  obtain ⟨history, known, onStep⟩ := shaped.step_of_active storedMember (by rw [status]; rfl)
  have shapedHistory := shaped.histories _ _ known
  have onChunk : history.step = .chunk := onStep.trans (step.trans isChunk)
  have inHistory := (Db.mem_history known).mpr ⟨member, ofJob.trans jobId.symm⟩
  rcases shapedHistory.step_of_mem inHistory with extract | ⟨chunk, _⟩ | ⟨_, later⟩
  · exact extract
  · have same := shapedHistory.eq_of_step inHistory
      ((Db.mem_history known).mpr ⟨storedMember, rfl⟩) (chunk.trans (step.trans isChunk).symm)
      (by simp [chunk])
    rw [same, status] at succeeded
    contradiction
  · simp [onChunk] at later

theorem Effect.content {env : Env} {db next : Db} {operation : Operation}
    {result : Except Error Output} (effect : Effect env db operation result next) :
    next.chunks = db.chunks ∧ next.embeddings = db.embeddings := by
  cases effect <;> exact ⟨rfl, rfl⟩

/-! The invariant of the system. -/

/-- Bodies have achieved what they have come to, and successes what they claim. -/
structure System.Indexing (system : System) : Prop where
  keys : system.db.ContentKeys
  worked : ∀ service drive job run work,
    system.task? service = some ⟨drive, Phase.ofWork job run work⟩ →
    system.db.Worked system.log job.id run.step work
  succeeded : ∀ row ∈ system.db.runs, row.status = .succeeded →
    system.db.Achieved system.log row.jobId row.step

theorem System.Indexing.toward {system : System} (indexing : system.Indexing) {service drive : Nat}
    {job : IngestionJob} {run : IngestionStepRun} {body : Body}
    (working : system.task? service = some ⟨drive, .executing job run body⟩) :
    system.db.Toward system.log job.id body :=
  indexing.worked service drive job run (.more body) working

theorem Took.kept {system next : System} {event : Event} (took : Took system event next)
    (bodies : system.Bodies) (indexing : system.Indexing) :
    next.db.ContentKeys ∧ ∀ job, system.db.Kept next.db system.log next.log job ∨
      ∃ service answer run body, event = .task service answer ∧
        system.body? service = some (job, run, body) ∧ run.step = .chunk ∧
        system.db.SamePipeline next.db := by
  have still : ∀ {added : List Observation} {other : Db},
      other.chunks = system.db.chunks ∧ other.embeddings = system.db.embeddings →
      other.ContentKeys ∧ ∀ job, system.db.Kept other system.log (system.log ++ added) job := by
    intro added other ⟨chunks, embeddings⟩
    exact ⟨⟨chunks ▸ indexing.keys.chunks, embeddings ▸ indexing.keys.embeddings⟩,
      fun _ => .of_same chunks embeddings (List.subset_append_left _ _)⟩
  cases took with
  | called =>
      exact (still (exec_effect ..).content).imp_right fun kept job => .inl (kept job)
  | @moved service task answer result working step =>
      obtain ⟨drive, phase⟩ := task
      cases step with
      | vanished | failed | entered =>
          exact (still ⟨rfl, rfl⟩).imp_right fun kept job => .inl (kept job)
      | claimed | unclaimed | finished | unfinished | advanced | stopped | dropped =>
          exact (still (exec_effect ..).content).imp_right fun kept job => .inl (kept job)
      | worked step =>
          have isBody := System.body?_eq_some.mpr ⟨drive, _, working, rfl⟩
          obtain ⟨keys, _, kept⟩ := step.worked indexing.keys (indexing.toward working)
          refine ⟨keys, fun job => (kept job).imp_right ?_⟩
          rintro ⟨rfl, onChunk⟩
          exact ⟨service, answer, _, _, rfl, isBody, (bodies _ _ _ _ isBody).2.symm.trans onChunk,
            step.same⟩
  | processed | switched | crashed | seated =>
      exact ⟨indexing.keys, fun _ => .inl (.of_same rfl rfl (List.Subset.refl _))⟩
  | edited _ step =>
      cases step with
      | ended | checked | read | changed =>
          exact (still ⟨rfl, rfl⟩).imp_right fun kept job => .inl (kept job)
      | saved written =>
          exact (still (upsertTranscript_ok written).content).imp_right
            fun kept job => .inl (kept job)

theorem Phase.ofWork_inj {first second : IngestionJob} {run held : IngestionStepRun}
    {work other : Work} (same : ofWork first run work = ofWork second held other) :
    first = second ∧ run = held ∧ work = other := by
  cases work <;> cases other <;> simp_all [ofWork]

theorem System.Busy.apart {system : System} (busy : system.Busy) (sane : system.Sane)
    {service other : Nat} {task second : Task} {run held : IngestionStepRun}
    (holds : system.Holds service task run) (alsoHolds : system.Holds other second held)
    (isBusy : task.phase.isBusy = true) (alsoBusy : second.phase.isBusy = true)
    (sameJob : run.jobId = held.jobId) : service = other := by
  obtain ⟨row, member, id, jobId, _, status⟩ := busy _ _ _ holds isBusy
  obtain ⟨row', member', id', jobId', _, status'⟩ := busy _ _ _ alsoHolds alsoBusy
  have same := sane.shaped.oneActive.eq member member' (jobId.trans (sameJob.trans jobId'.symm))
    (by rw [status]; rfl) (by rw [status']; rfl)
  exact sane.apart _ _ _ _ _ _ holds alsoHolds (id.symm.trans (same ▸ id'))

theorem Took.worked {system next : System} {event : Event} (took : Took system event next)
    (sane : system.Sane) (busy : system.Busy) (bodies : system.Bodies)
    (indexing : system.Indexing) : ∀ service drive job run work,
      next.task? service = some ⟨drive, Phase.ofWork job run work⟩ →
      next.db.Worked next.log job.id run.step work := by
  intro service drive job run work working
  rcases took.task_cases working with
    ⟨same, other⟩ | ⟨⟨before, phase⟩, answer, result, rfl, known, step, goesOn, _, rfl⟩ | ⟨_, noRun⟩
  · have holds : system.Holds service _ run := ⟨same, Phase.run?_ofWork ..⟩
    rcases (took.kept bodies indexing).2 job.id with
      kept | ⟨mover, answer, held, body, rfl, isBody, _⟩
    · exact kept.worked (indexing.worked _ _ _ _ _ same)
    · -- The body that moves would be another one for this job.
      obtain ⟨_, loaded, moving, sameJob⟩ := System.body?_eq_some.mp isBody
      have alsoHolds : system.Holds mover _ held := ⟨moving, rfl⟩
      have ofJob : job.id = run.jobId :=
        (Phase.jobId_ofWork ..).symm.trans (sane.stored _ _ _ holds).1
      have alsoOfJob : loaded.id = held.jobId := (sane.stored _ _ _ alsoHolds).1
      obtain rfl := busy.apart sane holds alsoHolds (Phase.isBusy_ofWork ..) rfl
        (ofJob.symm.trans (sameJob.symm.trans alsoOfJob))
      exact absurd rfl (other answer)
  · cases step with
    | vanished | failed | unclaimed | unfinished | stopped | dropped => contradiction
    | claimed | advanced => cases work <;> simp [Phase.ofWork] at goesOn
    | entered =>
        obtain ⟨_, _, rfl⟩ := Phase.ofWork_inj (Option.some.inj goesOn)
        exact Body.begin_worked _ _
    | worked step =>
        obtain ⟨rfl, rfl, rfl⟩ := Phase.ofWork_inj (Option.some.inj goesOn)
        have isBody := System.body?_eq_some.mpr ⟨before, _, known, rfl⟩
        have worked := (step.worked indexing.keys (indexing.toward known)).2.1
        rw [(bodies _ _ _ _ isBody).2] at worked
        exact worked
    | finished =>
        simp only at goesOn
        split at goesOn
        · exact absurd (Option.some.inj goesOn).symm Phase.ofWork_ne_continuing
        · contradiction
  · rw [Phase.run?_ofWork] at noRun
    contradiction

theorem PhaseStep.achieved_of_new {system : System} {service : Nat} {task : Task}
    (sane : system.Sane) (indexing : system.Indexing)
    (working : system.task? service = some task) {answer : Answer} {result : Moved}
    (step : PhaseStep task.drive system.db task.phase answer result) (keyed : result.db.Keyed)
    {row : StepRunRow} (member : row ∈ result.db.runs) (new : row ∉ system.db.runs)
    (succeeded : row.status = .succeeded) :
    system.db.Achieved system.log row.jobId row.step := by
  rcases step.pipeline with same | ⟨_, _, _, effect, issues, _⟩
  · exact absurd (same.runs ▸ member) new
  rcases effect.succeeded member succeeded with old | ⟨recorded, finishes, isSuccess⟩
  · exact absurd old new
  obtain ⟨drive, phase⟩ := task
  cases issues with
  | claim | advance => contradiction
  | @finish job run outcome =>
      obtain ⟨sameId, rfl⟩ := Operation.finish.inj finishes
      have holds : system.Holds service _ run := ⟨working, rfl⟩
      obtain ⟨ofJob, stored⟩ := sane.stored _ _ _ holds
      obtain ⟨own, ownMember, ownId, ownJob, ownStep, _⟩ := effect.stores stored
      obtain rfl := List.inj_on_of_nodup_map keyed.runs ownMember member (ownId.trans sameId)
      cases outcome with
      | error => contradiction
      | ok =>
          have achieved := indexing.worked service drive job run (.done (.ok ())) working
          rw [ownJob, ownStep, ← show job.id = run.jobId from ofJob]
          exact achieved

theorem Took.indexing {system next : System} {event : Event} (took : Took system event next)
    (sane : system.Sane) (busy : system.Busy) (bodies : system.Bodies)
    (indexing : system.Indexing) : next.Indexing := by
  obtain ⟨keys, kept⟩ := took.kept bodies indexing
  have keyed := (took.sane sane).shaped.toKeyed
  refine ⟨keys, took.worked sane busy bodies indexing, fun row member succeeded => ?_⟩
  rcases kept row.jobId with kept | ⟨service, answer, run, body, rfl, isBody, onChunk, same⟩
  · refine kept.achieved ?_
    by_cases stored : row ∈ system.db.runs
    · exact indexing.succeeded row stored succeeded
    cases took with
    | called byOperator =>
        rcases (exec_effect ..).succeeded member succeeded with old | ⟨outcome, rfl, _⟩
        · exact absurd old stored
        · contradiction
    | moved working step =>
        exact step.achieved_of_new sane indexing working keyed member stored succeeded
    | processed | switched | crashed | seated => exact absurd member stored
    | edited _ step => exact absurd (step.same.runs ▸ member) stored
  · obtain ⟨_, loaded, working, sameJob⟩ := System.body?_eq_some.mp isBody
    have holds : system.Holds service _ run := ⟨working, rfl⟩
    have ofJob : loaded.id = run.jobId := (sane.stored _ _ _ holds).1
    rw [sane.shaped.succeeded_before_chunk (bodies _ _ _ _ isBody).1 onChunk (same.runs ▸ member)
      (sameJob.symm.trans ofJob) succeeded]
    trivial

/-- The job has chunks, numbered from 0, and each has one embedding, computed from its heading
and content. -/
structure System.FullyIndexed (system : System) (job : Uuid) : Prop where
  numbered : ∃ count, 0 < count ∧
    (system.db.chunksOf job).map (·.position) = List.range count
  embedded : ∀ chunk ∈ system.db.chunksOf job, ∃ row,
    system.db.embeddings.filter (·.chunkId = chunk.id) = [row] ∧
      row.embedding.length = 1024 ∧ Computed system.log chunk row.embedding

theorem indexing_of_reachable {allowed : System → Event → Prop} {system : System}
    (unaborted : ∀ system event, allowed system event → event.isAbort = false)
    (reachable : Reachable System.Initial (System.Events allowed) system) : system.Indexing := by
  have base : ∀ state, Reachable System.Initial (System.Events allowed) state →
      state.Sane ∧ state.Busy ∧ state.Bodies := fun state reachable =>
    ⟨System.sane_of_reachable reachable, busy_of_reachable unaborted reachable,
      bodies_of_reachable (fun _ _ spares => spares) (reachable_sparing unaborted reachable)⟩
  refine reachable.invariant_over base (fun start initial => ?_) ?_
  · refine ⟨⟨?_, ?_⟩, ?_, ?_⟩ <;>
      simp [initial.db.chunks, initial.db.embeddings, initial.db.runs, initial.task?]
  · rintro state event next ⟨sane, busy, bodies⟩ _ indexing ⟨_, taken⟩
    exact (System.step?_cases taken).indexing sane busy bodies indexing

/-- What the `chunk` and the `embed` run of a completed job have achieved. -/
theorem System.Indexing.completed {system : System} (indexing : system.Indexing)
    (sane : system.Sane) {job : JobRow} (member : job ∈ system.db.jobs)
    (completed : job.step = .completed) :
    system.db.Cites system.log job.id ∧ ∀ chunk ∈ system.db.chunksOf job.id, ∃ row,
      system.db.embeddings.filter (·.chunkId = chunk.id) = [row] ∧
        row.embedding.length = 1024 ∧ Computed system.log chunk row.embedding := by
  have known := Db.history_of_found
    ((find?_key_eq_some sane.shaped.jobs).mpr ⟨member, rfl⟩ : system.db.job? job.id = some job)
  have shaped := sane.shaped.histories _ _ known
  have achieved : ∀ row ∈ system.db.runsOf job.id, row.status = .succeeded →
      system.db.Achieved system.log job.id row.step := by
    intro row stored succeeded
    obtain ⟨stored, ofJob⟩ := (Db.mem_history known).mp stored
    exact ofJob ▸ indexing.succeeded row stored succeeded
  obtain ⟨chunked, chunkedMember, isChunk, chunkedDone⟩ := shaped.chunked (.inr completed)
  obtain ⟨embedded, embeddedMember, isEmbed, embeddedDone⟩ := shaped.embedded completed
  have cites := achieved chunked chunkedMember chunkedDone
  have indexed := achieved embedded embeddedMember embeddedDone
  rw [isChunk] at cites
  rw [isEmbed] at indexed
  refine ⟨cites, fun chunk isChunk => ?_⟩
  obtain ⟨row, stored, ofChunk, dimension, computed⟩ := indexed chunk isChunk
  refine ⟨row, ?_, dimension, computed⟩
  exact ofChunk ▸ filter_key_eq_singleton indexing.keys.embeddings stored

/-- A completed job is fully indexed. -/
theorem completed_indexed {system : System}
    (reachable : Reachable System.Initial (System.Events fun _ event => event.isAbort = false)
      system) :
    ∀ job ∈ system.db.jobs, job.step = .completed → system.FullyIndexed job.id := by
  intro job member completed
  have sane := System.sane_of_reachable reachable
  have indexing := indexing_of_reachable (fun _ _ => id) reachable
  obtain ⟨⟨text, _, nonempty, splits⟩, embedded⟩ := indexing.completed sane member completed
  exact ⟨⟨_, List.length_pos_iff.mpr nonempty, splits.numbered⟩, embedded⟩

end

section

attribute [local instance] english

theorem completed_indexed_after_run :
    let system := System.after (fun _ event => !event.isAbort) deployment
      (toReview ++ toEmbedded ++ [request 0 17])
    system.db.jobs.map (·.step) = [.completed] ∧
      ∀ job ∈ system.db.jobs, job.step = .completed → system.FullyIndexed job.id :=
  ⟨by decide +kernel, completed_indexed
    (System.reachable_after (by simp) deployment_initial (by decide +kernel))⟩

end

end Zyndeck
