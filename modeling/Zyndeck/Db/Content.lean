import Mathlib.Data.List.Sort
import Zyndeck.Db.Query

namespace Zyndeck

open Data

/-! The repositories of transcripts, chunks and embeddings. -/

namespace Db

/-! `PgIngestionTranscriptRepository`. -/

def transcript? (db : Db) (job : Uuid) : Option Text :=
  (db.transcripts.find? (·.jobId = job)).map (·.content)

/-- `upsert.sql` of `ingestion_transcript`: unconditional. -/
def upsertTranscript (job : Uuid) (content : Text) (db : Db) : Except SqlError Db :=
  if !storable content then .error .invalidText
  else if (db.job? job).isNone then
    .error (.foreignKeyViolation "ingestion_transcript_job_id_fkey")
  else if db.transcripts.any (·.jobId = job) then
    .ok { db with
      transcripts := updateWhere (·.jobId = job) (fun row => { row with content }) db.transcripts }
  else .ok { db with transcripts := db.transcripts ++ [⟨job, content⟩] }

/-! `PgIngestionChunkRepository`. -/

/-- `find_by_job.sql`. -/
def chunksOf (db : Db) (job : Uuid) : List ChunkRow :=
  (db.chunks.filter (·.jobId = job)).insertionSort (·.position ≤ ·.position)

/-- `delete_by_job.sql`: the embeddings of the chunks go with them. -/
def deleteChunks (job : Uuid) (db : Db) : Db :=
  { db with
    chunks := db.chunks.filter (·.jobId ≠ job)
    embeddings := db.embeddings.filter fun row =>
      !db.chunks.any fun chunk => decide (chunk.jobId = job) && decide (chunk.id = row.chunkId) }

end Db

structure NewChunk where
  position : Nat
  heading : Text
  page : Nat
  content : Text
  deriving DecidableEq

/-- `insert.sql` of `ingestion_chunk`. -/
def insertChunk (id job : Uuid) (new : NewChunk) (db : Db) : Except SqlError Db :=
  if !storable new.heading || !storable new.content then .error .invalidText
  else if db.chunks.any fun row => decide (row.id = id) ||
      (decide (row.jobId = job) && decide (row.position = new.position)) then
    .error .uniqueViolation
  else if (db.job? job).isNone then .error (.foreignKeyViolation "ingestion_chunk_job_id_fkey")
  else .ok { db with
    chunks := db.chunks ++ [⟨id, job, new.position, new.heading, new.page, new.content⟩] }

def insertChunks (ids : Nat → Uuid) (job : Uuid) : Nat → List NewChunk → Db → Except SqlError Db
  | _, [], db => .ok db
  | index, new :: rest, db => do
      insertChunks ids job (index + 1) rest (← insertChunk (ids index) job new db)

/-- `replace`: one transaction. -/
def replaceChunks (env : Env) (job : Uuid) (chunks : List NewChunk) (db : Db) :
    Except SqlError Db :=
  insertChunks env.chunkId job 0 chunks (db.deleteChunks job)

namespace F32

def isFinite (value : F32) : Bool := decide (value.bits.toNat / 2 ^ 23 % 2 ^ 8 ≠ 255)

end F32

def vectorDim : Nat := 1024

/-- `upsert.sql` of `ingestion_chunk_embedding`. -/
def storeEmbedding (chunk : Uuid) (embedding : List F32) (db : Db) : Except SqlError Db :=
  if embedding.length ≠ vectorDim || !embedding.all F32.isFinite then .error .invalidVector
  else if !db.chunks.any (·.id = chunk) then
    .error (.foreignKeyViolation "ingestion_chunk_embedding_chunk_id_fkey")
  else if db.embeddings.any (·.chunkId = chunk) then
    .ok { db with
      embeddings := updateWhere (·.chunkId = chunk) (fun row => { row with embedding })
        db.embeddings }
  else .ok { db with embeddings := db.embeddings ++ [⟨chunk, embedding⟩] }

/-! What the writes leave alone. -/

/-- The two tables agree on jobs and runs. -/
structure Db.SamePipeline (first second : Db) : Prop where
  jobs : first.jobs = second.jobs
  runs : first.runs = second.runs

end Zyndeck
