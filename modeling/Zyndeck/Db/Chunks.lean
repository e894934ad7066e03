import Zyndeck.Db.Content

namespace Zyndeck

open Data

/-! What the writes of chunks and embeddings do to the tables. -/

structure Db.ContentKeys (db : Db) : Prop where
  chunks : (db.chunks.map (·.id)).Nodup
  embeddings : (db.embeddings.map (·.chunkId)).Nodup

structure Upserted (job : Uuid) (content : Text) (db next : Db) : Prop where
  rest : next = { db with transcripts := next.transcripts }
  known : (db.job? job).isSome = true
  rows : ∀ row ∈ next.transcripts,
    (row.jobId = job ∧ row.content = content) ∨ row ∈ db.transcripts
  text : storable content = true
  own : next.transcript? job = some content
  others : ∀ other, other ≠ job → next.transcript? other = db.transcript? other

theorem upsertTranscript_ok {job : Uuid} {content : Text} {db next : Db}
    (written : db.upsertTranscript job content = .ok next) : Upserted job content db next := by
  simp only [Db.upsertTranscript] at written
  split at written
  · contradiction
  rename_i text
  replace text : storable content = true := by simpa using text
  split at written
  · contradiction
  rename_i known
  replace known : (db.job? job).isSome = true := by
    simpa [Option.isSome_iff_ne_none] using known
  split at written <;> rename_i stored <;> obtain rfl := Except.ok.inj written
  · refine ⟨rfl, known, fun row member => ?_, text, ?_, fun other apart => ?_⟩
    · rcases mem_updateWhere.mp member with ⟨old, _, ofJob, rfl⟩ | ⟨old, _⟩
      · exact .inl ⟨of_decide_eq_true ofJob, rfl⟩
      · exact .inr old
    · obtain ⟨row, member, ofJob⟩ := List.any_eq_true.mp stored
      rw [Db.transcript?, find?_updateWhere (·.jobId = job) (·.jobId = job)
        (fun row : TranscriptRow => { row with content }) (fun _ => rfl), Option.map_map]
      cases found : db.transcripts.find? (·.jobId = job) with
      | none => exact absurd ofJob (List.find?_eq_none.mp found row member)
      | some first =>
          have ofFirst : first.jobId = job := by simpa using List.find?_some found
          simp [ofFirst]
    · rw [Db.transcript?, Db.transcript?, find?_updateWhere (·.jobId = job) (·.jobId = other)
        (fun row : TranscriptRow => { row with content }) (fun _ => rfl), Option.map_map]
      cases found : db.transcripts.find? (·.jobId = other) with
      | none => rfl
      | some row =>
          have ofOther : row.jobId = other := by simpa using List.find?_some found
          simp [ofOther, apart]
  · refine ⟨rfl, known, fun row member => ?_, text, ?_, fun other apart => ?_⟩
    · rcases List.mem_append.mp member with old | isNew
      · exact .inr old
      · obtain rfl := List.mem_singleton.mp isNew
        exact .inl ⟨rfl, rfl⟩
    · have none : db.transcripts.find? (·.jobId = job) = none := by
        simpa [List.find?_eq_none] using stored
      simp [Db.transcript?, List.find?_append, none]
    · simp [Db.transcript?, List.find?_append, Ne.symm apart]

theorem Upserted.same {job : Uuid} {content : Text} {db next : Db}
    (upserted : Upserted job content db next) : db.SamePipeline next := by
  rw [upserted.rest]
  exact ⟨rfl, rfl⟩

theorem Upserted.content {job : Uuid} {text : Text} {db next : Db}
    (upserted : Upserted job text db next) :
    next.chunks = db.chunks ∧ next.embeddings = db.embeddings := by
  rw [upserted.rest]
  exact ⟨rfl, rfl⟩

theorem mem_chunksOf {db : Db} {job : Uuid} {chunk : ChunkRow} :
    chunk ∈ db.chunksOf job ↔ chunk ∈ db.chunks ∧ chunk.jobId = job := by
  simp [Db.chunksOf, List.mem_insertionSort]

/-- The row `insert.sql` of `ingestion_chunk` makes. -/
def NewChunk.row (new : NewChunk) (id job : Uuid) : ChunkRow :=
  ⟨id, job, new.position, new.heading, new.page, new.content⟩

theorem insertChunk_ok {id job : Uuid} {new : NewChunk} {db next : Db}
    (inserted : insertChunk id job new db = .ok next) :
    id ∉ db.chunks.map (·.id) ∧ next = { db with chunks := db.chunks ++ [new.row id job] } := by
  simp only [insertChunk] at inserted
  split at inserted
  · contradiction
  · split at inserted
    · contradiction
    · rename_i apart
      split at inserted
      · contradiction
      · refine ⟨fun known => apart ?_, (Except.ok.inj inserted).symm⟩
        obtain ⟨row, member, same⟩ := List.mem_map.mp known
        exact List.any_eq_true.mpr ⟨row, member, by simp [same]⟩

theorem insertChunk_new {id job : Uuid} {new : NewChunk} {db : Db}
    (heading : storable new.heading = true) (content : storable new.content = true)
    (fresh : id ∉ db.chunks.map (·.id))
    (free : ∀ row ∈ db.chunks, row.jobId = job → row.position ≠ new.position)
    (exists_ : (db.job? job).isSome = true) :
    insertChunk id job new db = .ok { db with chunks := db.chunks ++ [new.row id job] } := by
  have apart : (db.chunks.any fun row => decide (row.id = id) ||
      (decide (row.jobId = job) && decide (row.position = new.position))) = false := by
    refine List.any_eq_false.mpr fun row member => ?_
    have other : row.id ≠ id := fun same => fresh (List.mem_map.mpr ⟨row, member, same⟩)
    simpa [other] using free row member
  rw [insertChunk, heading, content, apart, if_neg (by simp), if_neg (by simp), if_neg]
  · rfl
  · rw [Option.isNone_eq_false_iff.mpr exists_]
    exact Bool.false_ne_true

def rowsFrom (ids : Nat → Uuid) (job : Uuid) (index : Nat) (new : List NewChunk) :
    List ChunkRow :=
  (new.zipIdx index).map fun (chunk, place) => chunk.row (ids place) job

section

variable {ids : Nat → Uuid} {job : Uuid} {index : Nat} {new : List NewChunk} {db next : Db}

@[simp] theorem rowsFrom_nil : rowsFrom ids job index [] = [] := rfl

@[simp] theorem rowsFrom_cons (chunk : NewChunk) : rowsFrom ids job index (chunk :: new) =
    chunk.row (ids index) job :: rowsFrom ids job (index + 1) new := rfl

theorem map_rowsFrom {column : ChunkRow → γ} {source : NewChunk → γ}
    (same : ∀ id chunk, column (NewChunk.row chunk id job) = source chunk) :
    (rowsFrom ids job index new).map column = new.map source := by
  induction new generalizing index with
  | nil => rfl
  | cons chunk rest induction =>
      rw [rowsFrom_cons, List.map_cons, List.map_cons, induction, same]

theorem position_rowsFrom :
    (rowsFrom ids job index new).map (·.position) = new.map (·.position) :=
  map_rowsFrom fun _ _ => rfl

theorem id_of_mem_rowsFrom {row : ChunkRow} (member : row ∈ rowsFrom ids job index new) :
    ∃ place, index ≤ place ∧ place < index + new.length ∧ row.id = ids place := by
  obtain ⟨⟨chunk, place⟩, inside, rfl⟩ := List.mem_map.mp member
  exact ⟨place, List.le_snd_of_mem_zipIdx inside, List.snd_lt_add_of_mem_zipIdx inside, rfl⟩

theorem jobId_of_mem_rowsFrom {row : ChunkRow} (member : row ∈ rowsFrom ids job index new) :
    row.jobId = job := by
  obtain ⟨_, _, rfl⟩ := List.mem_map.mp member
  rfl

theorem insertChunks_rest (inserted : insertChunks ids job index new db = .ok next) :
    next = { db with chunks := next.chunks } := by
  induction new generalizing index db with
  | nil =>
      obtain rfl := Except.ok.inj inserted
      rfl
  | cons chunk rest induction =>
      simp only [insertChunks] at inserted
      cases first : insertChunk (ids index) job chunk db with
      | error fault => simp [first, Bind.bind, Except.bind] at inserted
      | ok between =>
          rw [first] at inserted
          have rest := induction inserted
          rw [(insertChunk_ok first).2] at rest
          exact rest

theorem insertChunks_ok (inserted : insertChunks ids job index new db = .ok next)
    (unique : (db.chunks.map (·.id)).Nodup) :
    next = { db with chunks := db.chunks ++ rowsFrom ids job index new } ∧
      (next.chunks.map (·.id)).Nodup := by
  induction new generalizing index db with
  | nil =>
      obtain rfl := Except.ok.inj inserted
      exact ⟨by simp, unique⟩
  | cons chunk rest induction =>
      simp only [insertChunks] at inserted
      cases first : insertChunk (ids index) job chunk db with
      | error fault => simp [first, Bind.bind, Except.bind] at inserted
      | ok between =>
          rw [first] at inserted
          obtain ⟨fresh, rfl⟩ := insertChunk_ok first
          have stillUnique :
              ((db.chunks ++ [chunk.row (ids index) job]).map (·.id)).Nodup := by
            rw [List.map_append, List.nodup_append]
            refine ⟨unique, by simp, fun id known other isNew same => fresh ?_⟩
            obtain rfl : other = ids index := by simpa [NewChunk.row] using isNew
            exact same ▸ known
          obtain ⟨rfl, keys⟩ := induction inserted stillUnique
          exact ⟨by simp, keys⟩

theorem insertChunks_new (texts : ∀ chunk ∈ new, storable chunk.heading = true ∧
      storable chunk.content = true)
    (distinct : (new.map (·.position)).Nodup)
    (free : ∀ row ∈ db.chunks, row.jobId = job → row.position ∉ new.map (·.position))
    (fresh : ∀ place, index ≤ place → place < index + new.length →
      ids place ∉ db.chunks.map (·.id))
    (apart : ∀ place other, index ≤ place → place < other → other < index + new.length →
      ids place ≠ ids other)
    (exists_ : (db.job? job).isSome = true) :
    insertChunks ids job index new db =
      .ok { db with chunks := db.chunks ++ rowsFrom ids job index new } := by
  induction new generalizing index db with
  | nil => simp [insertChunks]
  | cons chunk rest induction =>
      obtain ⟨⟨heading, content⟩, texts⟩ := List.forall_mem_cons.mp texts
      obtain ⟨notLater, distinct⟩ := List.nodup_cons.mp distinct
      simp only [List.length_cons] at fresh apart
      have inserted : insertChunk (ids index) job chunk db =
          .ok { db with chunks := db.chunks ++ [chunk.row (ids index) job] } := by
        refine insertChunk_new heading content (fresh index (by omega) (by omega)) ?_ exists_
        intro row member ofJob same
        exact free row member ofJob (same ▸ .head _)
      have whole : db.chunks ++ rowsFrom ids job index (chunk :: rest) =
          db.chunks ++ [chunk.row (ids index) job] ++ rowsFrom ids job (index + 1) rest := by simp
      rw [insertChunks, inserted, whole]
      refine induction texts distinct ?_ ?_ ?_ ?_
      · intro row member ofJob
        rcases List.mem_append.mp member with old | new
        · exact fun later => free row old ofJob (.tail _ later)
        · obtain rfl := List.mem_singleton.mp new
          exact notLater
      · intro place after before known
        rw [List.map_append] at known
        rcases List.mem_append.mp known with old | new
        · exact fresh place (by omega) (by omega) old
        · exact apart index place (by omega) (by omega) (by omega) (List.mem_singleton.mp new).symm
      · exact fun place other after less before => apart place other (by omega) less (by omega)
      · exact exists_

end

theorem replaceChunks_rest {env : Env} {job : Uuid} {new : List NewChunk} {db next : Db}
    (replaced : replaceChunks env job new db = .ok next) :
    next = { db with chunks := next.chunks, embeddings := next.embeddings } := by
  have rest := insertChunks_rest replaced
  rw [rest]
  rfl

theorem replaceChunks_ok {env : Env} {job : Uuid} {new : List NewChunk} {db next : Db}
    (replaced : replaceChunks env job new db = .ok next) (keys : db.ContentKeys) :
    next = { db.deleteChunks job with
      chunks := db.chunks.filter (·.jobId ≠ job) ++ rowsFrom env.chunkId job 0 new } ∧
      next.ContentKeys := by
  have unique : ((db.deleteChunks job).chunks.map (·.id)).Nodup :=
    keys.chunks.sublist (List.filter_sublist.map _)
  obtain ⟨rfl, newKeys⟩ := insertChunks_ok replaced unique
  exact ⟨rfl, newKeys, keys.embeddings.sublist (List.filter_sublist.map _)⟩

theorem chunksOf_replace_of_ne {env : Env} {job other : Uuid} {new : List NewChunk}
    {db next : Db} (replaced : replaceChunks env job new db = .ok next) (keys : db.ContentKeys)
    (apart : other ≠ job) : next.chunksOf other = db.chunksOf other := by
  obtain ⟨rfl, _⟩ := replaceChunks_ok replaced keys
  have none : (rowsFrom env.chunkId job 0 new).filter (·.jobId = other) = [] := by
    refine List.filter_eq_nil_iff.mpr fun row member => ?_
    simp [jobId_of_mem_rowsFrom member, Ne.symm apart]
  rw [Db.chunksOf, Db.chunksOf, List.filter_append, none, List.append_nil, List.filter_filter]
  refine congrArg _ (List.filter_congr fun row _ => ?_)
  by_cases same : row.jobId = other <;> simp [same, apart]

theorem chunksOf_replace {env : Env} {job : Uuid} {new : List NewChunk} {db next : Db}
    (replaced : replaceChunks env job new db = .ok next) (keys : db.ContentKeys)
    (sorted : (new.map (·.position)).Pairwise (· ≤ ·)) :
    next.chunksOf job = rowsFrom env.chunkId job 0 new := by
  obtain ⟨rfl, _⟩ := replaceChunks_ok replaced keys
  have old : (db.chunks.filter (·.jobId ≠ job)).filter (·.jobId = job) = [] := by
    simp [List.filter_filter]
  have all : (rowsFrom env.chunkId job 0 new).filter (·.jobId = job) =
      rowsFrom env.chunkId job 0 new :=
    List.filter_eq_self.mpr fun row member => by simp [jobId_of_mem_rowsFrom member]
  have ordered : (rowsFrom env.chunkId job 0 new).Pairwise (·.position ≤ ·.position) :=
    List.pairwise_map.mp (position_rowsFrom ▸ sorted)
  rw [Db.chunksOf, List.filter_append, old, List.nil_append, all, ordered.insertionSort_eq]

theorem embeddings_replace {env : Env} {job : Uuid} {new : List NewChunk} {db next : Db}
    (replaced : replaceChunks env job new db = .ok next) (keys : db.ContentKeys)
    {chunk : ChunkRow} (stored : chunk ∈ db.chunks) (apart : chunk.jobId ≠ job)
    {row : EmbeddingRow} (member : row ∈ db.embeddings) (ofChunk : row.chunkId = chunk.id) :
    row ∈ next.embeddings := by
  obtain ⟨rfl, _⟩ := replaceChunks_ok replaced keys
  refine List.mem_filter.mpr ⟨member, ?_⟩
  rw [Bool.not_eq_true', List.any_eq_false]
  intro other otherStored deleted
  simp only [Bool.and_eq_true, decide_eq_true_eq] at deleted
  have same := List.inj_on_of_nodup_map keys.chunks otherStored stored
    (deleted.2.trans ofChunk)
  exact apart (same ▸ deleted.1)

theorem storeEmbedding_rest {chunk : Uuid} {embedding : List F32} {db next : Db}
    (stored : storeEmbedding chunk embedding db = .ok next) :
    next = { db with embeddings := next.embeddings } := by
  simp only [storeEmbedding] at stored
  split at stored
  · contradiction
  · split at stored
    · contradiction
    · split at stored <;> obtain rfl := Except.ok.inj stored <;> rfl

theorem storeEmbedding_ok {chunk : Uuid} {embedding : List F32} {db next : Db}
    (stored : storeEmbedding chunk embedding db = .ok next) (keys : db.ContentKeys) :
    next.chunks = db.chunks ∧ next.ContentKeys ∧ embedding.length = vectorDim ∧
      (∃ row ∈ next.embeddings, row.chunkId = chunk ∧ row.embedding = embedding) ∧
      ∀ row ∈ db.embeddings, row.chunkId ≠ chunk → row ∈ next.embeddings := by
  simp only [storeEmbedding] at stored
  split at stored
  · contradiction
  · rename_i valid
    have dimension : embedding.length = vectorDim :=
      Classical.byContradiction fun other => valid (by simp [other])
    split at stored
    · contradiction
    · split at stored
      · rename_i known
        obtain rfl := Except.ok.inj stored
        obtain ⟨row, member, same⟩ := List.any_eq_true.mp known
        refine ⟨rfl, ⟨keys.chunks, ?_⟩, dimension, ?_, fun other otherMember apart => ?_⟩
        · have same : (updateWhere (·.chunkId = chunk)
              (fun row : EmbeddingRow => { row with embedding }) db.embeddings).map (·.chunkId) =
              db.embeddings.map (·.chunkId) := by
            refine map_updateWhere ?_ _
            exact fun _ => rfl
          exact same ▸ keys.embeddings
        · exact ⟨_, mem_updateWhere.mpr (.inl ⟨row, member, same, rfl⟩), by simpa using same, rfl⟩
        · exact mem_updateWhere.mpr (.inr ⟨otherMember, by simpa using apart⟩)
      · rename_i unknown
        obtain rfl := Except.ok.inj stored
        refine ⟨rfl, ⟨keys.chunks, ?_⟩, dimension,
          ⟨_, List.mem_append_right _ (List.mem_singleton_self _), rfl, rfl⟩,
          fun other otherMember _ => List.mem_append_left _ otherMember⟩
        rw [List.map_append, List.nodup_append]
        refine ⟨keys.embeddings, by simp, fun id isKnown other isNew same => unknown ?_⟩
        obtain rfl : other = chunk := by simpa using isNew
        obtain ⟨row, member, isRow⟩ := List.mem_map.mp isKnown
        exact List.any_eq_true.mpr ⟨row, member, by simp [isRow, same]⟩

def Db.embeddingsOf (db : Db) (chunk : Uuid) : List (List F32) :=
  (db.embeddings.filter (·.chunkId = chunk)).map (·.embedding)

theorem Db.mem_embeddingsOf {db : Db} {chunk : Uuid} {embedding : List F32} :
    embedding ∈ db.embeddingsOf chunk ↔ ⟨chunk, embedding⟩ ∈ db.embeddings := by
  simp only [Db.embeddingsOf, List.mem_map, List.mem_filter, decide_eq_true_eq]
  constructor
  · rintro ⟨row, ⟨member, rfl⟩, rfl⟩
    exact member
  · intro member
    exact ⟨_, ⟨member, rfl⟩, rfl⟩

theorem Db.ContentKeys.embeddingsOf_eq {db : Db} (keys : db.ContentKeys) {row : EmbeddingRow}
    (member : row ∈ db.embeddings) : db.embeddingsOf row.chunkId = [row.embedding] := by
  rw [Db.embeddingsOf, filter_key_eq_singleton keys.embeddings member]
  rfl

theorem embeddingsOf_store {chunk : Uuid} {embedding : List F32} {db next : Db}
    (stored : storeEmbedding chunk embedding db = .ok next) (keys : db.ContentKeys)
    (other : Uuid) :
    next.embeddingsOf other = if other = chunk then [embedding] else db.embeddingsOf other := by
  obtain ⟨_, nextKeys, _, ⟨new, member, rfl, rfl⟩, _⟩ := storeEmbedding_ok stored keys
  split
  · rename_i same
    rw [same, nextKeys.embeddingsOf_eq member]
  · rename_i apart
    simp only [storeEmbedding] at stored
    split at stored
    · contradiction
    · split at stored
      · contradiction
      · split at stored
        · obtain rfl := Except.ok.inj stored
          have missed : ∀ row ∈ db.embeddings.filter (·.chunkId = other),
              decide (row.chunkId = new.chunkId) = false := by
            intro row member
            have ofOther := of_decide_eq_true (List.mem_filter.mp member).2
            exact decide_eq_false (ofOther ▸ apart)
          rw [Db.embeddingsOf, filter_updateWhere, updateWhere_eq_self missed]
          · rfl
          · exact fun _ => rfl
        · obtain rfl := Except.ok.inj stored
          simp [Db.embeddingsOf, Ne.symm apart]

end Zyndeck
