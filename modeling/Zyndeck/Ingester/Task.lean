import Zyndeck.Db.Content
import Zyndeck.Db.Transition
import Zyndeck.Ingester.Chunk

namespace Zyndeck

open Data

/-! The embedder. -/

def embeddingDim : Nat := 1024

def embedBatch : Nat := 16

def natText (value : Nat) : Text := (toString value).toList

/-- One vector per input, each of the expected dimension. -/
def checkEmbeddings (expected : Nat) (embeddings : List (List F32)) : Except Text Unit :=
  if embeddings.length ≠ expected then
    .error ("Ollama returned ".toList ++ natText embeddings.length ++
      " embeddings for ".toList ++ natText expected ++ " inputs".toList)
  else
    match embeddings.zipIdx.find? fun entry => decide (entry.1.length ≠ embeddingDim) with
    | some (vector, index) =>
        .error ("embedding ".toList ++ natText index ++ " has dimension ".toList ++
          natText vector.length ++ " (expected ".toList ++ natText embeddingDim ++ ")".toList)
    | none => .ok ()

/-- `OllamaEmbedder::embed`, given the body of the response or what went wrong with
the request. -/
def embed (inputs : List Text) (response : Except Text (List (List F32))) :
    Except Text (List (List F32)) :=
  if inputs = [] then .ok []
  else do
    let embeddings ← response
    checkEmbeddings inputs.length embeddings
    pure embeddings

/-- The text embedded for a chunk. -/
def embeddingInput (chunk : ChunkRow) : Text :=
  if chunk.heading = [] then chunk.content
  else chunk.heading ++ ['\n', '\n'] ++ chunk.content

/-! The bodies of the steps, cut at every request to the outside. -/

/-- What the outside answers to a request. -/
inductive Answer where
  /-- The database executes it.  The message is the text of the error, should the
  database reject it, or should what it returns not be convertible. -/
  | executed (env : Env) (message : Text)
  /-- The database executes it, and its reply is lost. -/
  | lost (env : Env) (message : Text)
  /-- The request fails, and nothing has happened. -/
  | failed (message : Text)
  /-- The PDF was read and structured, or could not be. -/
  | extracted (document : Except Text Text)
  | embedded (response : Except Text (List (List F32)))
  /-- The editor was closed with a text, or failed. -/
  | edited (result : Option Text)

/-- What the database executes the request with, if it does. -/
def Answer.env? : Answer → Option Env
  | .executed env _ | .lost env _ => some env
  | _ => none

/-- What happened, for stating what holds over a whole run. -/
inductive Observation where
  | handed (drive : Nat) (run : IngestionStepRun)
  | entered (drive : Nat) (run : IngestionStepRun) (body : IngestionStep)
  | finished (drive : Nat) (run : IngestionStepRun)
  | validated (job : Uuid) (transcript : Option Text)
  | split (job : Uuid) (transcript : Text)
  | wrote (job : Uuid) (step : Option IngestionStep)
  | embedded (inputs : List Text) (vectors : List (List F32))
  deriving DecidableEq

inductive Body where
  | extracting
  | upserting (transcript : Text)
  | chunking
  | replacing (chunks : List NewChunk)
  | listing
  | embedding (left : List ChunkRow)
  | storing (pairs : List (ChunkRow × List F32)) (left : List ChunkRow)
  deriving DecidableEq

inductive Work where
  | more (body : Body)
  | done (outcome : Except Text Unit)

namespace Body

def jobText (before : String) (job : Uuid) (after : String) : Text :=
  before.toList ++ job.toText ++ after.toList

/-- `run_step`. -/
def begin : IngestionStep → Work
  | .extract => .more .extracting
  | .chunk => .more .chunking
  | .embed => .more .listing
  | .completed => .done (.error "job is already completed".toList)

/-- The chunks as they are bound to the `integer` columns, and the error of a number that
does not fit. -/
def newChunks (message : Text) (chunks : List Chunk) : Except Text (List NewChunk) :=
  chunks.zipIdx.mapM fun (chunk, index) =>
    if i32Max < index ∨ i32Max < chunk.page then .error message
    else .ok ⟨index, chunk.heading, chunk.page, chunk.content⟩

/-- What `chunk_step` does with the transcript it has read. -/
def chunkTranscript (message transcript : Text) : Work :=
  match Chunk.split transcript with
  | [] => .done (.error "chunking produced no chunks (is the transcript empty?)".toList)
  | chunks =>
      match newChunks message chunks with
      | .error message => .done (.error message)
      | .ok new => .more (.replacing new)

def store : List (ChunkRow × List F32) → List ChunkRow → Work
  | [], [] => .done (.ok ())
  | [], left => .more (.embedding left)
  | pairs, left => .more (.storing pairs left)

/-- A database call of a body that returns no value. -/
def settle (message : Text) (next : Work) (db : Db) : Except SqlError Db → Work × Db
  | .ok db => (next, db)
  | .error _ => (.done (.error message), db)

def upsert (message : Text) (next : Work) (job : Uuid) (transcript : Text) (db : Db) :
    Work × Db × List Observation :=
  let written := db.upsertTranscript job transcript
  let settled := settle message next db written
  (settled.1, settled.2,
    if written.isOk then [.wrote job ((db.job? job).map (·.step))] else [])

/-- The body of the step, from one request to the next. -/
def step (job : Uuid) (db : Db) : Body → Answer → Option (Work × Db × List Observation)
  | .extracting, .extracted (.ok transcript) => some (.more (.upserting transcript), db, [])
  | .extracting, .extracted (.error message) => some (.done (.error message), db, [])
  | .upserting transcript, .executed _ message =>
      some (upsert message (.done (.ok ())) job transcript db)
  | .upserting transcript, .lost _ message =>
      some (upsert message (.done (.error message)) job transcript db)
  | .chunking, .executed _ message =>
      match db.transcript? job with
      | none => some (.done (.error (jobText "job " job " has no transcript to chunk")), db, [])
      | some transcript => some (chunkTranscript message transcript, db, [.split job transcript])
  | .replacing chunks, .executed env message =>
      let settled := settle message (.done (.ok ())) db (replaceChunks env job chunks db)
      some (settled.1, settled.2, [])
  | .replacing chunks, .lost env message =>
      let settled := settle message (.done (.error message)) db (replaceChunks env job chunks db)
      some (settled.1, settled.2, [])
  | .listing, .executed _ _ =>
      match db.chunksOf job with
      | [] => some (.done (.error (jobText "job " job " has no chunks to embed")), db, [])
      | chunks => some (.more (.embedding chunks), db, [])
  | .embedding left, .embedded response =>
      let batch := left.take embedBatch
      match embed (batch.map embeddingInput) response with
      | .error message => some (.done (.error message), db, [])
      | .ok vectors =>
          some (store (batch.zip vectors) (left.drop embedBatch), db,
            [.embedded (batch.map embeddingInput) vectors])
  | .storing ((chunk, vector) :: pairs) left, .executed _ message =>
      let settled := settle message (store pairs left) db (storeEmbedding chunk.id vector db)
      some (settled.1, settled.2, [])
  | .storing ((chunk, vector) :: _) _, .lost _ message =>
      let settled := settle message (.done (.error message)) db
        (storeEmbedding chunk.id vector db)
      some (settled.1, settled.2, [])
  | .chunking, .lost _ message | .listing, .lost _ message => some (.done (.error message), db, [])
  | .upserting _, .failed message | .chunking, .failed message | .replacing _, .failed message
  | .listing, .failed message | .storing _ _, .failed message =>
      some (.done (.error message), db, [])
  | _, _ => none

end Body

/-! One call of `process`, from one request to the next. -/

variable [Isolang]

inductive Phase where
  | claiming (job : Uuid)
  /-- `load`, after the claim or after `continue_job`. -/
  | loading (job : Uuid) (run : IngestionStepRun)
  | executing (job : IngestionJob) (run : IngestionStepRun) (body : Body)
  | finishing (job : IngestionJob) (run : IngestionStepRun) (outcome : Except Text Unit)
  | continuing (job : IngestionJob) (run : IngestionStepRun)

/-- What a request leaves: the next phase if the call goes on, the tables, and what
happened. -/
structure Moved where
  phase : Option Phase
  db : Db
  observed : List Observation

namespace Phase

def load (job : Uuid) (db : Db) : Option IngestionJob :=
  (db.job? job).bind fun row => row.tryInto.toOption

def ofWork (job : IngestionJob) (run : IngestionStepRun) : Work → Phase
  | .more body => .executing job run body
  | .done outcome => .finishing job run outcome

def recorded : Except Text Unit → StepOutcome
  | .ok () => .succeeded
  | .error message => .failed message

def claim (drive : Nat) (env : Env) (job : Uuid) (db : Db) : Moved :=
  let ended := Operation.exec env (.claim job) db
  match ended.result with
  | .ok (.maybeRun (some run)) => ⟨some (.loading job run), ended.db, [.handed drive run]⟩
  | _ => ⟨none, ended.db, []⟩

def enter (drive : Nat) (job : IngestionJob) (run : IngestionStepRun) (db : Db) : Moved :=
  ⟨some (ofWork job run (Body.begin job.step)), db, [.entered drive run job.step]⟩

/-- `run_and_finish` from the end of the body on.  A run that was ended externally,
or that failed, ends the call, and so does an `extract` run. -/
def finish (drive : Nat) (env : Env) (job : IngestionJob) (run : IngestionStepRun)
    (outcome : Except Text Unit) (db : Db) : Moved :=
  let ended := Operation.exec env (.finish run.id (recorded outcome)) db
  match ended.result with
  | .ok (.maybeRun (some _)) =>
      ⟨if outcome.isOk ∧ run.step ≠ .extract then some (.continuing job run) else none,
        ended.db, [.finished drive run]⟩
  | _ => ⟨none, ended.db, []⟩

def advance (drive : Nat) (env : Env) (job : IngestionJob) (db : Db) : Moved :=
  let ended := Operation.exec env (.continue job.id) db
  match ended.result with
  | .ok (.advanced (.running run)) => ⟨some (.loading job.id run), ended.db, [.handed drive run]⟩
  | _ => ⟨none, ended.db, []⟩

/-- One request of a call.  A failed one, or one whose reply is lost, ends the call, except
in the body of a step, which then has failed. -/
def step (drive : Nat) (db : Db) : Phase → Answer → Option Moved
  | .claiming job, .executed env _ => some (claim drive env job db)
  | .loading job run, .executed _ _ =>
      match load job db with
      | none => some ⟨none, db, []⟩
      | some loaded => some (enter drive loaded run db)
  | .executing job run body, answer =>
      (body.step job.id db answer).map fun (work, db, observed) =>
        ⟨some (ofWork job run work), db, observed⟩
  | .finishing job run outcome, .executed env _ => some (finish drive env job run outcome db)
  | .continuing job _, .executed env _ => some (advance drive env job db)
  | .claiming job, .lost env _ => some ⟨none, (Operation.exec env (.claim job) db).db, []⟩
  | .finishing _ run outcome, .lost env _ =>
      some ⟨none, (Operation.exec env (.finish run.id (recorded outcome)) db).db, []⟩
  | .continuing job _, .lost env _ =>
      some ⟨none, (Operation.exec env (.continue job.id) db).db, []⟩
  | .loading _ _, .lost _ _ => some ⟨none, db, []⟩
  | .claiming _, .failed _ | .loading _ _, .failed _ | .finishing _ _ _, .failed _
  | .continuing _ _, .failed _ => some ⟨none, db, []⟩
  | _, _ => none

end Phase

end Zyndeck
