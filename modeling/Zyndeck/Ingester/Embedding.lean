import Zyndeck.Db.Chunks
import Zyndeck.Ingester.Attempt

namespace Zyndeck

open Data

/-! The vectors that `embed_step` stores, chunk by chunk. -/

def Placed (chunks : List ChunkRow) (exchanges : List Exchange) (index : Nat)
    (vector : List F32) : Prop :=
  ∃ inputs vectors, exchanges[index / embedBatch]? = some ⟨inputs, .ok vectors⟩ ∧
    inputs[index % embedBatch]? = chunks[index]?.map embeddingInput ∧
    vectors[index % embedBatch]? = some vector

theorem Placed.mono {chunks : List ChunkRow} {exchanges : List Exchange} {index : Nat}
    {vector : List F32} (placed : Placed chunks exchanges index vector)
    (later : List Exchange) : Placed chunks (exchanges ++ later) index vector := by
  have ⟨inputs, vectors, asked, ofInputs, ofVectors⟩ := placed
  have inside := (List.getElem?_eq_some_iff.mp asked).1
  exact ⟨inputs, vectors, by rw [List.getElem?_append_left inside, asked], ofInputs, ofVectors⟩

/-- The vectors of the first chunks have been stored, and nothing else has changed. -/
structure Wrote (start : Db) (chunks : List ChunkRow) (exchanges : List Exchange)
    (count : Nat) (db : Db) : Prop where
  rest : db = { start with embeddings := db.embeddings }
  keys : db.ContentKeys
  written : ∀ index chunk, index < count → chunks[index]? = some chunk →
    ∃ vector, Placed chunks exchanges index vector ∧ vector.length = vectorDim ∧
      db.embeddingsOf chunk.id = [vector]
  others : ∀ id, (∀ index chunk, index < count → chunks[index]? = some chunk → chunk.id ≠ id) →
    db.embeddingsOf id = start.embeddingsOf id

namespace Wrote

variable {start db next : Db} {chunks : List ChunkRow} {exchanges : List Exchange} {count : Nat}

theorem none (keys : start.ContentKeys) : Wrote start chunks [] 0 start :=
  ⟨rfl, keys, nofun, fun _ _ => rfl⟩

theorem mono (wrote : Wrote start chunks exchanges count db) (later : List Exchange) :
    Wrote start chunks (exchanges ++ later) count db := by
  refine ⟨wrote.rest, wrote.keys, fun index chunk below found => ?_, wrote.others⟩
  have ⟨vector, placed, facts⟩ := wrote.written index chunk below found
  exact ⟨vector, placed.mono later, facts⟩

theorem store (wrote : Wrote start chunks exchanges count db)
    (unique : (chunks.map (·.id)).Nodup) {chunk : ChunkRow} (found : chunks[count]? = some chunk)
    {vector : List F32} (placed : Placed chunks exchanges count vector)
    (stored : storeEmbedding chunk.id vector db = .ok next) :
    Wrote start chunks exchanges (count + 1) next := by
  obtain ⟨_, nextKeys, dimension, _⟩ := storeEmbedding_ok stored wrote.keys
  have changed := embeddingsOf_store stored wrote.keys
  refine ⟨?_, nextKeys, fun index other below isOther => ?_, fun id apart => ?_⟩
  · rw [storeEmbedding_rest stored, wrote.rest]
  · by_cases last : index = count
    · subst last
      obtain rfl := Option.some.inj (found.symm.trans isOther)
      exact ⟨vector, placed, dimension, by rw [changed, if_pos rfl]⟩
    · have ⟨earlier, ofIndex, facts⟩ := wrote.written index other (by omega) isOther
      refine ⟨earlier, ofIndex, facts.1, ?_⟩
      rw [changed, if_neg, facts.2]
      exact fun same => last (index_eq_of_nodup_map unique isOther found same)
  · rw [changed, if_neg (Ne.symm (apart count chunk (Nat.lt_succ_self _) found))]
    exact wrote.others id fun index other below => apart index other (Nat.lt_succ_of_lt below)

theorem of_not_mem (wrote : Wrote start chunks exchanges count db) {id : Uuid}
    (apart : id ∉ chunks.map (·.id)) : db.embeddingsOf id = start.embeddingsOf id :=
  wrote.others id fun _ chunk _ found isId =>
    apart (List.mem_map.mpr ⟨chunk, List.mem_of_getElem? found, isId⟩)

end Wrote

/-! The requests of `embed_step`. -/

theorem embed_ok {inputs : List Text} {response : Except Text (List (List F32))}
    {vectors : List (List F32)} (answered : embed inputs response = .ok vectors) :
    vectors.length = inputs.length ∧ (inputs ≠ [] → response = .ok vectors) := by
  unfold embed at answered
  split at answered
  · rename_i empty
    obtain rfl := Except.ok.inj answered
    exact ⟨by rw [empty]; rfl, absurd empty⟩
  · cases response with
    | error message => contradiction
    | ok returned =>
        cases checked : checkEmbeddings inputs.length returned with
        | error message => simp [checked, Bind.bind, Except.bind] at answered
        | ok _ =>
            obtain rfl : returned = vectors := by
              simpa [checked, Bind.bind, Except.bind, Pure.pure, Except.pure] using answered
            unfold checkEmbeddings at checked
            split at checked
            · contradiction
            · exact ⟨Classical.not_not.mp ‹_›, fun _ => rfl⟩

namespace Attempt

variable {job : Uuid} {db : Db} {exchanges : List Exchange} {answer : Answer} {next : Attempt}

theorem react_listing (taken : react job ⟨.more .listing, db, exchanges⟩ answer = some next) :
    (∃ message, next = ⟨.done (.error message), db, exchanges⟩) ∨
      db.chunksOf job ≠ [] ∧ next = ⟨.more (.embedding (db.chunksOf job)), db, exchanges⟩ := by
  obtain ⟨work, after, observed, step, rfl⟩ := react_cases taken
  have unasked : exchange .listing answer = [] := rfl
  rw [unasked, List.append_nil]
  cases step with
  | broke => exact .inl ⟨_, rfl⟩
  | listed found nonempty =>
      subst found
      exact .inr ⟨nonempty, rfl⟩

theorem react_embedding {left : List ChunkRow} (nonempty : left ≠ [])
    (taken : react job ⟨.more (.embedding left), db, exchanges⟩ answer = some next) :
    ∃ response, let inputs := (left.take embedBatch).map embeddingInput
      (∃ message, next = ⟨.done (.error message), db, exchanges ++ [⟨inputs, response⟩]⟩) ∨
        ∃ vectors, response = .ok vectors ∧ vectors.length = inputs.length ∧
          next = ⟨Body.store ((left.take embedBatch).zip vectors) (left.drop embedBatch), db,
            exchanges ++ [⟨inputs, response⟩]⟩ := by
  cases answer with
  | embedded response =>
      refine ⟨response, ?_⟩
      intro inputs
      simp only [react, Body.step, exchange] at taken
      cases answered : embed ((left.take embedBatch).map embeddingInput) response with
      | error message =>
          rw [answered] at taken
          exact .inl ⟨message, (Option.some.inj taken).symm⟩
      | ok vectors =>
          obtain ⟨aligned, isResponse⟩ := embed_ok answered
          rw [answered] at taken
          exact .inr ⟨vectors, isResponse (by simpa [embedBatch] using nonempty), aligned,
            (Option.some.inj taken).symm⟩
  | executed | lost | failed | extracted | edited => contradiction

theorem react_storing {chunk : ChunkRow} {vector : List F32}
    {pairs : List (ChunkRow × List F32)} {left : List ChunkRow}
    (taken : react job ⟨.more (.storing ((chunk, vector) :: pairs) left), db, exchanges⟩ answer =
      some next) :
    (∃ message, next = ⟨.done (.error message), db, exchanges⟩) ∨
      ∃ after, storeEmbedding chunk.id vector db = .ok after ∧
        (next = ⟨Body.store pairs left, after, exchanges⟩ ∨
          ∃ message, next = ⟨.done (.error message), after, exchanges⟩) := by
  obtain ⟨work, after, observed, step, rfl⟩ := react_cases taken
  have unasked : exchange (.storing ((chunk, vector) :: pairs) left) answer = [] := rfl
  rw [unasked, List.append_nil]
  cases step with
  | broke => exact .inl ⟨_, rfl⟩
  | stored stored heard =>
      cases heard with
      | arrived => exact .inr ⟨after, stored, .inl rfl⟩
      | lost => exact .inr ⟨after, stored, .inr ⟨_, rfl⟩⟩

end Attempt

/-! How far `embed_step` has come. -/

/-- The vectors waiting to be stored are those of the chunks from `count` on, and the
chunks from the end of the batch on are left. -/
structure Wrote.Pairs (chunks : List ChunkRow) (exchanges : List Exchange) (count : Nat)
    (pairs : List (ChunkRow × List F32)) (left : List ChunkRow) : Prop where
  placed : ∀ index chunk vector, pairs[index]? = some (chunk, vector) →
    chunks[count + index]? = some chunk ∧ Placed chunks exchanges (count + index) vector
  left : left = chunks.drop (embedBatch * exchanges.length)
  covers : count + pairs.length = min (embedBatch * exchanges.length) chunks.length

inductive Embedding (start : Db) (chunks : List ChunkRow) : Attempt → Prop
  | listing : Embedding start chunks ⟨.more .listing, start, []⟩
  | working (pairs : List (ChunkRow × List F32)) (left : List ChunkRow) :
      Wrote start chunks exchanges count db → Wrote.Pairs chunks exchanges count pairs left →
      Embedding start chunks ⟨Body.store pairs left, db, exchanges⟩
  | broke (message : Text) : Wrote start chunks exchanges count db → count ≤ chunks.length →
      Embedding start chunks ⟨.done (.error message), db, exchanges⟩

namespace Wrote.Pairs

variable {chunks left : List ChunkRow} {exchanges : List Exchange} {count : Nat}
  {pairs : List (ChunkRow × List F32)}

theorem bounded (ofPairs : Pairs chunks exchanges count pairs left) : count ≤ chunks.length := by
  have := ofPairs.covers
  omega

theorem tail {chunk : ChunkRow} {vector : List F32}
    (ofPairs : Pairs chunks exchanges count ((chunk, vector) :: pairs) left) :
    Pairs chunks exchanges (count + 1) pairs left := by
  refine ⟨fun index other later isPair => ?_, ofPairs.left, ?_⟩
  · have := ofPairs.placed (index + 1) other later isPair
    rwa [show count + 1 + index = count + (index + 1) by omega]
  · have := ofPairs.covers
    rw [List.length_cons] at this
    omega

theorem batch (nonempty : left ≠ []) (ofPairs : Pairs chunks exchanges count [] left)
    {vectors : List (List F32)}
    (aligned : vectors.length = ((left.take embedBatch).map embeddingInput).length) :
    Pairs chunks (exchanges ++ [⟨(left.take embedBatch).map embeddingInput, .ok vectors⟩]) count
      ((left.take embedBatch).zip vectors) (left.drop embedBatch) := by
  have isLeft := ofPairs.left
  have more : embedBatch * exchanges.length < chunks.length := by
    refine Nat.lt_of_not_le fun beyond => nonempty ?_
    rw [isLeft, List.drop_eq_nil_of_le beyond]
  have isCount : count = embedBatch * exchanges.length := by
    have := ofPairs.covers
    simp only [List.length_nil] at this
    omega
  have longer : left.length = chunks.length - embedBatch * exchanges.length := by
    rw [isLeft, List.length_drop]
  rw [List.length_map, List.length_take] at aligned
  refine ⟨fun index chunk vector isPair => ?_, ?_, ?_⟩
  · obtain ⟨ofBatch, ofVectors⟩ := List.getElem?_zip_eq_some.mp isPair
    have within : index < embedBatch := by
      have := (List.getElem?_eq_some_iff.mp ofBatch).1
      rw [List.length_take] at this
      omega
    have ofChunks : chunks[count + index]? = some chunk := by
      rwa [List.getElem?_take_of_lt within, isLeft, List.getElem?_drop, ← isCount] at ofBatch
    refine ⟨ofChunks, (left.take embedBatch).map embeddingInput, vectors, ?_, ?_, ?_⟩
    · rw [isCount, Nat.mul_add_div (by decide), Nat.div_eq_of_lt within, Nat.add_zero,
        List.getElem?_concat_length]
    · rw [isCount, Nat.mul_add_mod, Nat.mod_eq_of_lt within, ← isCount, ofChunks,
        List.getElem?_map, ofBatch]
    · rw [isCount, Nat.mul_add_mod, Nat.mod_eq_of_lt within, ofVectors]
  · rw [isLeft, List.drop_drop, List.length_append, List.length_singleton, Nat.mul_succ]
  · rw [List.length_zip, List.length_take, List.length_append, List.length_singleton,
      Nat.mul_succ]
    omega

end Wrote.Pairs

theorem Embedding.react {start : Db} {job : Uuid}
    (unique : ((start.chunksOf job).map (·.id)).Nodup)
    (keys : start.ContentKeys) {attempt next : Attempt} {answer : Answer}
    (embedding : Embedding start (start.chunksOf job) attempt)
    (taken : attempt.react job answer = some next) :
    Embedding start (start.chunksOf job) next := by
  cases embedding with
  | listing =>
      rcases Attempt.react_listing taken with ⟨message, rfl⟩ | ⟨_, rfl⟩
      · exact .broke message (.none keys) (Nat.zero_le _)
      · cases found : start.chunksOf job with
        | nil => contradiction
        | cons first rest =>
            exact .working [] (first :: rest) (.none keys)
              ⟨by simp, by simp, by simp⟩
  | broke => exact absurd taken Attempt.not_react_done
  | working pairs left wrote ofPairs =>
      match pairs, left with
      | [], [] => exact absurd taken Attempt.not_react_done
      | [], first :: rest =>
          obtain ⟨response, ⟨message, rfl⟩ | ⟨vectors, rfl, aligned, rfl⟩⟩ :=
            Attempt.react_embedding (List.cons_ne_nil _ _) taken
          · exact .broke message (wrote.mono _) ofPairs.bounded
          · exact .working _ _ (wrote.mono _) (ofPairs.batch (List.cons_ne_nil _ _) aligned)
      | (chunk, vector) :: pairs, left =>
          rcases Attempt.react_storing taken with
            ⟨message, rfl⟩ | ⟨after, stored, rfl | ⟨message, rfl⟩⟩
          · exact .broke message wrote ofPairs.bounded
          all_goals
            obtain ⟨found, placed⟩ := ofPairs.placed 0 chunk vector rfl
            have more := wrote.store unique found placed stored
          · exact .working _ _ more ofPairs.tail
          · exact .broke message more ofPairs.tail.bounded

theorem nodup_chunksOf {db : Db} (keys : db.ContentKeys) (job : Uuid) :
    ((db.chunksOf job).map (·.id)).Nodup :=
  ((List.perm_insertionSort ..).map _).nodup_iff.mpr
    (keys.chunks.sublist (List.filter_sublist.map _))

theorem Attempt.wrote {job : Uuid} {db : Db} (keys : db.ContentKeys) {answers : List Answer}
    {attempt : Attempt} (run : Run (Steps (react job)) (begin .listing db) answers attempt) :
    ∃ count ≤ (db.chunksOf job).length,
      Wrote db (db.chunksOf job) attempt.exchanges count attempt.db ∧
      (attempt.work = .done (.ok ()) → count = (db.chunksOf job).length) := by
  have embedding : Embedding db (db.chunksOf job) attempt := by
    refine run.invariant (fun _ _ _ embedding taken => ?_) .listing
    exact embedding.react (nodup_chunksOf keys job) keys taken
  cases embedding with
  | listing => exact ⟨0, Nat.zero_le _, .none keys, nofun⟩
  | broke _ wrote bounded => exact ⟨_, bounded, wrote, nofun⟩
  | working pairs left wrote ofPairs =>
      refine ⟨_, ofPairs.bounded, wrote, fun ended => ?_⟩
      match pairs, left with
      | [], [] =>
          have beyond := List.drop_eq_nil_iff.mp ofPairs.left.symm
          have covers := ofPairs.covers
          rwa [Nat.min_eq_right beyond] at covers
      | [], _ :: _ => contradiction
      | _ :: _, _ => contradiction

/-- The chunk has one embedding, the vector at its place in the answer to its batch. -/
def Db.Embedded (db : Db) (chunks : List ChunkRow) (exchanges : List Exchange) (index : Nat)
    (chunk : ChunkRow) : Prop :=
  ∃ vector, Placed chunks exchanges index vector ∧ vector.length = 1024 ∧
    db.embeddingsOf chunk.id = [vector]

/-- The vectors of the response depend on the texts only. -/
def Exchange.Computes (vectorOf : Text → List F32) (exchange : Exchange) : Prop :=
  ∀ (vectors : List (List F32)) (index : Nat) (input : Text) (vector : List F32),
    exchange.response = .ok vectors → exchange.inputs[index]? = some input →
    vectors[index]? = some vector → vector = vectorOf input

structure Embeds (vectorOf : Text → List F32) (job : Uuid) (db : Db) (attempt : Attempt) :
    Prop where
  run : ∃ answers, Run (Steps (Attempt.react job)) (.begin .listing db) answers attempt
  computes : ∀ exchange ∈ attempt.exchanges, exchange.Computes vectorOf

def Retried (vectorOf : Text → List F32) (job : Uuid) : Db → Db → Prop :=
  Relation.ReflTransGen fun before after =>
    ∃ attempt, Embeds vectorOf job before attempt ∧ attempt.db = after

section

variable {vectorOf : Text → List F32} {job : Uuid} {db between : Db} {attempt : Attempt}

theorem Retried.rest (retried : Retried vectorOf job db between) (keys : db.ContentKeys) :
    between.ContentKeys ∧ between = { db with embeddings := between.embeddings } ∧
      ∀ id, id ∉ (db.chunksOf job).map (·.id) → between.embeddingsOf id = db.embeddingsOf id := by
  induction retried with
  | refl => exact ⟨keys, rfl, fun _ _ => rfl⟩
  | tail _ last induction =>
      obtain ⟨nextKeys, same, others⟩ := induction
      obtain ⟨attempt, ⟨⟨_, run⟩, _⟩, rfl⟩ := last
      obtain ⟨count, _, wrote, _⟩ := Attempt.wrote nextKeys run
      refine ⟨wrote.keys, ?_, fun id apart => ?_⟩
      · rw [wrote.rest, same]
      · rw [same] at wrote
        rw [wrote.of_not_mem apart, ← same, others id apart]

theorem Embeds.embeddingsOf (keys : db.ContentKeys) (embeds : Embeds vectorOf job db attempt)
    (succeeded : attempt.work = .done (.ok ())) {chunk : ChunkRow}
    (member : chunk ∈ db.chunksOf job) :
    attempt.db.embeddingsOf chunk.id = [vectorOf (embeddingInput chunk)] := by
  obtain ⟨_, run⟩ := embeds.run
  obtain ⟨count, _, wrote, all⟩ := Attempt.wrote keys run
  obtain ⟨index, inside, rfl⟩ := List.getElem_of_mem member
  obtain ⟨vector, ⟨inputs, vectors, asked, ofInputs, ofVectors⟩, _, stored⟩ :=
    wrote.written index _ (all succeeded ▸ inside) (List.getElem?_eq_getElem inside)
  rw [List.getElem?_eq_getElem inside] at ofInputs
  rw [stored, embeds.computes _ (List.mem_of_getElem? asked) vectors _ _ _ rfl ofInputs ofVectors]

end

theorem perm_of_embeddingsOf {first second : Db} (keys : first.ContentKeys)
    (otherKeys : second.ContentKeys)
    (same : ∀ id, first.embeddingsOf id = second.embeddingsOf id) :
    first.embeddings.Perm second.embeddings := by
  refine (List.perm_ext_iff_of_nodup keys.embeddings.of_map otherKeys.embeddings.of_map).mpr ?_
  intro row
  rw [← Db.mem_embeddingsOf, same, Db.mem_embeddingsOf]

/-- Every chunk gets the vector that was computed for it, whatever the embedder answers
and wherever the step breaks off, and runs that broke off leave no trace. -/
theorem embeddings_aligned {job : Uuid} {db : Db} (keys : db.ContentKeys) :
    (∀ answers attempt,
      Run (Steps (Attempt.react job)) (.begin .listing db) answers attempt →
      attempt.db = { db with embeddings := attempt.db.embeddings } ∧
      (∀ id, id ∉ (db.chunksOf job).map (·.id) →
        attempt.db.embeddingsOf id = db.embeddingsOf id) ∧
      (∀ index chunk, (db.chunksOf job)[index]? = some chunk →
        attempt.db.embeddingsOf chunk.id = db.embeddingsOf chunk.id ∨
          attempt.db.Embedded (db.chunksOf job) attempt.exchanges index chunk) ∧
      (attempt.work = .done (.ok ()) → ∀ index chunk, (db.chunksOf job)[index]? = some chunk →
        attempt.db.Embedded (db.chunksOf job) attempt.exchanges index chunk)) ∧
    ∀ vectorOf between attempt direct, Retried vectorOf job db between →
      Embeds vectorOf job between attempt → attempt.work = .done (.ok ()) →
      Embeds vectorOf job db direct → direct.work = .done (.ok ()) →
      attempt.db.embeddings.Perm direct.db.embeddings ∧
        attempt.db = { direct.db with embeddings := attempt.db.embeddings } := by
  refine ⟨fun answers attempt run => ?_,
    fun vectorOf between attempt direct retried last succeeded once alsoSucceeded => ?_⟩
  · obtain ⟨count, bounded, wrote, all⟩ := Attempt.wrote keys run
    refine ⟨wrote.rest, fun id apart => wrote.of_not_mem apart, fun index chunk found => ?_,
      fun succeeded index chunk found => ?_⟩
    · by_cases below : index < count
      · exact .inr (wrote.written index chunk below found)
      · refine .inl (wrote.others _ fun earlier other before isEarlier same => below ?_)
        rwa [← index_eq_of_nodup_map (nodup_chunksOf keys job) isEarlier found same]
    · refine wrote.written index chunk ?_ found
      rw [all succeeded]
      exact (List.getElem?_eq_some_iff.mp found).1
  · obtain ⟨betweenKeys, rest, others⟩ := retried.rest keys
    obtain ⟨_, _, wrote, _⟩ := Attempt.wrote betweenKeys last.run.choose_spec
    obtain ⟨_, _, directly, _⟩ := Attempt.wrote keys once.run.choose_spec
    have sameChunks : between.chunksOf job = db.chunksOf job := by rw [rest]; rfl
    refine ⟨perm_of_embeddingsOf wrote.keys directly.keys fun id => ?_, ?_⟩
    · by_cases ofJob : id ∈ (db.chunksOf job).map (·.id)
      · obtain ⟨chunk, member, rfl⟩ := List.mem_map.mp ofJob
        rw [last.embeddingsOf betweenKeys succeeded (sameChunks ▸ member),
          once.embeddingsOf keys alsoSucceeded member]
      · rw [wrote.of_not_mem (sameChunks ▸ ofJob), directly.of_not_mem ofJob, others id ofJob]
    · rw [wrote.rest, directly.rest, rest]

deriving instance DecidableEq for Work

namespace Attempt

def oneChunk : Db :=
  ⟨[], [], [], [], [], [⟨⟨1⟩, ⟨0⟩, 0, [], 1, "Draw a card.".toList⟩], []⟩

def origin : List F32 := List.replicate 1024 ⟨0⟩

def anyEnv : Env := ⟨0, ⟨0⟩, ⟨0⟩, fun _ => ⟨0⟩, fun _ => 0⟩

def embedOne (last : Answer) (db : Db) : Attempt :=
  lastState (react ⟨0⟩) (begin .listing db) [.executed anyEnv [], .embedded (.ok [origin]), last]

theorem embeds_embedOne {last : Answer} {db : Db}
    (enabled : (execute (react ⟨0⟩) (begin .listing db)
      [.executed anyEnv [], .embedded (.ok [origin]), last]).isSome = true)
    (zeros : ∀ exchange ∈ (embedOne last db).exchanges, exchange.response = .ok [origin]) :
    Embeds (fun _ => origin) ⟨0⟩ db (embedOne last db) := by
  refine ⟨⟨_, run_lastState enabled⟩, fun exchange member vectors _ _ vector isOk _ found => ?_⟩
  obtain rfl := Except.ok.inj ((zeros exchange member).symm.trans isOk)
  exact List.mem_singleton.mp (List.mem_of_getElem? found)

end Attempt

theorem embeddings_aligned_after_lost_reply :
    let stored : Answer := .executed Attempt.anyEnv []
    let broken := Attempt.embedOne (.lost Attempt.anyEnv "timeout".toList) Attempt.oneChunk
    let ended := Attempt.embedOne stored broken.db
    let direct := Attempt.embedOne stored Attempt.oneChunk
    broken.work = .done (.error "timeout".toList) ∧ ended.work = .done (.ok ()) ∧
      direct.work = .done (.ok ()) ∧
      (∀ index chunk, (Attempt.oneChunk.chunksOf ⟨0⟩)[index]? = some chunk →
        direct.db.Embedded (Attempt.oneChunk.chunksOf ⟨0⟩) direct.exchanges index chunk) ∧
      ended.db.embeddings.Perm direct.db.embeddings := by
  intro stored broken ended direct
  have once : Embeds (fun _ => Attempt.origin) ⟨0⟩ Attempt.oneChunk direct :=
    Attempt.embeds_embedOne (by decide +kernel) (by decide +kernel)
  have first : Embeds (fun _ => Attempt.origin) ⟨0⟩ Attempt.oneChunk broken :=
    Attempt.embeds_embedOne (by decide +kernel) (by decide +kernel)
  have last : Embeds (fun _ => Attempt.origin) ⟨0⟩ broken.db ended :=
    Attempt.embeds_embedOne (by decide +kernel) (by decide +kernel)
  have succeeded : direct.work = .done (.ok ()) := by decide +kernel
  have alsoSucceeded : ended.work = .done (.ok ()) := by decide +kernel
  have ⟨aligned, rerun⟩ := @embeddings_aligned ⟨0⟩ Attempt.oneChunk
    ⟨by decide +kernel, by decide +kernel⟩
  refine ⟨by decide +kernel, alsoSucceeded, succeeded, ?_, ?_⟩
  · exact (aligned _ _ once.run.choose_spec).2.2.2 succeeded
  · exact (rerun _ _ ended direct (.single ⟨broken, first, rfl⟩) last alsoSucceeded once
      succeeded).1

end Zyndeck
