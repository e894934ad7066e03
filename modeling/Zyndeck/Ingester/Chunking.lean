import Zyndeck.Db.Replace
import Zyndeck.Ingester.Attempt
import Zyndeck.Ingester.Section

namespace Zyndeck

open Data Str

/-! The characters of chunks are those of the transcript, and newlines. -/

namespace Chunk

theorem mem_of_mem_linesFrom {line text other : Text} (isLine : other ∈ linesFrom line text)
    {char : Char} (member : char ∈ other) : char ∈ line ∨ char ∈ text := by
  induction text generalizing line with
  | nil =>
      unfold linesFrom at isLine
      split at isLine
      · contradiction
      · exact .inl (List.mem_singleton.mp isLine ▸ member)
  | cons first rest induction =>
      unfold linesFrom at isLine
      split at isLine
      · rcases List.mem_cons.mp isLine with rfl | later
        · exact .inl (mem_of_mem_stripReturn member)
        · exact .inr (.tail _ ((induction later).resolve_left List.not_mem_nil))
      · rcases induction isLine with opened | later
        · rcases List.mem_append.mp opened with before | isFirst
          · exact .inl before
          · exact .inr (List.mem_singleton.mp isFirst ▸ .head _)
        · exact .inr (.tail _ later)

theorem mem_of_mem_trimmed {transcript line : Text} (isLine : line ∈ trimmed (lines transcript))
    {char : Char} (member : char ∈ line) : char ∈ transcript := by
  obtain ⟨raw, isRaw, rfl⟩ := List.mem_map.mp (List.mem_filter.mp isLine).1
  exact (mem_of_mem_linesFrom isRaw (mem_of_mem_trim member)).resolve_left List.not_mem_nil

theorem mem_of_mem_title {within : Section} {page : Nat} {rest : List Text} {line : BodyLine}
    (isLine : line ∈ label within page rest) {char : Char} (member : char ∈ line.within.title) :
    char ∈ within.title ∨ ∃ text ∈ rest, char ∈ text := by
  fun_induction label within page rest with
  | case1 => cases isLine
  | case2 _ _ text rest _ _ induction =>
      refine (induction isLine).imp_right fun among => ?_
      obtain ⟨other, later, inside⟩ := among
      exact ⟨other, .tail _ later, inside⟩
  | case3 within _ text rest title read induction =>
      rcases induction isLine with opened | ⟨other, later, inside⟩
      · refine .inr ⟨text, .head _, ?_⟩
        unfold Mark.read at read
        split at read
        · contradiction
        · split at read
          · rename_i found
            obtain rfl := Mark.heading.inj read
            unfold stripPrefix at found
            split at found
            · obtain rfl := Option.some.inj found
              exact List.mem_of_mem_drop (mem_of_mem_trim opened)
            · contradiction
          · contradiction
      · exact .inr ⟨other, .tail _ later, inside⟩
  | case4 within _ text rest _ induction =>
      rcases List.mem_cons.mp isLine with rfl | later
      · exact .inl member
      · refine (induction later).imp_right fun among => ?_
        obtain ⟨other, later, inside⟩ := among
        exact ⟨other, .tail _ later, inside⟩

theorem mem_of_mem_split {transcript : Text} {chunk : Chunk} (isChunk : chunk ∈ split transcript)
    {char : Char} (member : char ∈ chunk.heading ∨ char ∈ chunk.content) :
    char ∈ transcript ∨ char = '\n' := by
  rw [split_eq] at isChunk
  obtain ⟨block, isBlock, rfl⟩ := List.mem_map.mp isChunk
  have ofBody : ∀ line ∈ block, line ∈ bodyLines transcript := fun line inside => by
    rw [← flatten_blocks]
    exact List.mem_flatten_of_mem isBlock inside
  rcases member with inHeading | inContent
  · cases block with
    | nil => contradiction
    | cons first block =>
        obtain ⟨text, isLine, inside⟩ :=
          (mem_of_mem_title (ofBody first (.head _)) inHeading).resolve_left List.not_mem_nil
        exact .inl (mem_of_mem_trimmed isLine inside)
  · have content : (chunkOf block).content = contentOf block := by cases block <;> rfl
    rw [content, contentOf, joinLines] at inContent
    refine (mem_intercalate inContent).symm.imp_left fun among => ?_
    obtain ⟨text, isText, inside⟩ := among
    obtain ⟨line, isLine, rfl⟩ := List.mem_map.mp isText
    exact mem_of_mem_trimmed (mem_label (ofBody line isLine)) inside

theorem storable_of_mem_split {transcript : Text} (stored : storable transcript = true)
    {chunk : Chunk} (isChunk : chunk ∈ split transcript) :
    storable chunk.heading = true ∧ storable chunk.content = true := by
  have clean : ∀ text : Text, (∀ char ∈ text, char ∈ transcript ∨ char = '\n') →
      storable text = true := by
    intro text inside
    have noNull : '\x00' ∉ transcript := by simpa [storable] using stored
    have : '\x00' ∉ text := fun member => (inside _ member).elim noNull (by decide)
    simpa [storable] using this
  exact ⟨clean _ fun char member => mem_of_mem_split isChunk (.inl member),
    clean _ fun char member => mem_of_mem_split isChunk (.inr member)⟩

end Chunk

/-! The conversion of the numbers. -/

theorem mapM_ite {fails : α → Prop} [DecidablePred fails] (failure : ε) (each : α → β)
    (inputs : List α) :
    (inputs.mapM fun input => if fails input then Except.error failure else .ok (each input)) =
      if ∃ input ∈ inputs, fails input then .error failure else .ok (inputs.map each) := by
  induction inputs with
  | nil => simp [Pure.pure, Except.pure]
  | cons input rest induction =>
      rw [List.mapM_cons, induction]
      by_cases first : fails input
      · have whole : ∃ other ∈ input :: rest, fails other := ⟨input, .head _, first⟩
        rw [if_pos first, if_pos whole]
        rfl
      · by_cases others : ∃ input ∈ rest, fails input
        · have whole : ∃ other ∈ input :: rest, fails other :=
            others.imp fun _ ⟨later, bad⟩ => ⟨.tail _ later, bad⟩
          rw [if_neg first, if_pos others, if_pos whole]
          rfl
        · rw [if_neg first, if_neg others, if_neg]
          · rfl
          · simpa [first] using others

namespace Chunk

def Bounded (chunks : List Chunk) : Prop :=
  ∀ index chunk, chunks[index]? = some chunk → index ≤ i32Max ∧ chunk.page ≤ i32Max

def Fitting (transcript : Text) : Prop :=
  split transcript ≠ [] ∧ Bounded (split transcript)

end Chunk

namespace Body

def numbered (chunks : List Chunk) : List NewChunk :=
  chunks.zipIdx.map fun (chunk, index) => ⟨index, chunk.heading, chunk.page, chunk.content⟩

theorem length_numbered (chunks : List Chunk) : (numbered chunks).length = chunks.length := by
  rw [numbered, List.length_map, List.length_zipIdx]

theorem position_numbered (chunks : List Chunk) :
    (numbered chunks).map (·.position) = List.range chunks.length := by
  rw [numbered, List.map_map]
  exact (List.zipIdx_map_snd 0 chunks).trans List.range_eq_range'.symm

theorem newChunks_eq (message : Text) (chunks : List Chunk) :
    newChunks message chunks =
      if ∃ entry ∈ chunks.zipIdx, i32Max < entry.2 ∨ i32Max < entry.1.page then .error message
      else .ok (numbered chunks) :=
  mapM_ite ..

theorem newChunks_of_bounded {message : Text} {chunks : List Chunk}
    (bounded : Chunk.Bounded chunks) : newChunks message chunks = .ok (numbered chunks) := by
  rw [newChunks_eq, if_neg]
  rintro ⟨⟨chunk, index⟩, member, large⟩
  have := bounded index chunk (List.mem_zipIdx_iff_getElem?.mp member)
  simp only at large
  omega

theorem newChunks_ok {message : Text} {chunks : List Chunk} {new : List NewChunk}
    (bound : newChunks message chunks = .ok new) :
    Chunk.Bounded chunks ∧ new = numbered chunks := by
  rw [newChunks_eq] at bound
  split at bound
  · contradiction
  · rename_i small
    refine ⟨fun index chunk found => ?_, (Except.ok.inj bound).symm⟩
    have fits : ¬ (i32Max < index ∨ i32Max < chunk.page) := fun large =>
      small ⟨(chunk, index), List.mem_zipIdx_iff_getElem?.mpr found, large⟩
    omega

theorem chunkTranscript_fitting {message transcript : Text} (fitting : Chunk.Fitting transcript) :
    chunkTranscript message transcript =
      .more (.replacing (numbered (Chunk.split transcript))) := by
  unfold chunkTranscript
  split
  · exact absurd ‹_› fitting.1
  · rw [newChunks_of_bounded fitting.2]

theorem chunkTranscript_unfitting {message transcript : Text}
    (unfitting : ¬ Chunk.Fitting transcript) :
    ∃ reason, chunkTranscript message transcript = .done (.error reason) := by
  unfold chunkTranscript
  split
  · exact ⟨_, rfl⟩
  · rename_i nonempty
    split
    · exact ⟨_, rfl⟩
    · exact absurd ⟨nonempty, (newChunks_ok ‹_›).1⟩ unfitting

end Body

/-! The replacement of the chunks of a job. -/

/-- What is known of stored transcripts. -/
structure Db.Transcribed (db : Db) : Prop where
  jobs : ∀ row ∈ db.transcripts, (db.job? row.jobId).isSome = true
  texts : ∀ row ∈ db.transcripts, storable row.content = true

structure Env.Fresh (env : Env) (db : Db) (count : Nat) : Prop where
  new : ∀ place < count, env.chunkId place ∉ db.chunks.map (·.id)
  apart : ∀ place other, place < other → other < count → env.chunkId place ≠ env.chunkId other

/-- The chunks of the job are those of the transcript, those it had are gone with
their embeddings, and nothing else has changed. -/
structure Replaced (job : Uuid) (transcript : Text) (db next : Db) : Prop where
  chunks : (next.chunksOf job).map (fun row => (row.position, row.heading, row.page, row.content)) =
    (Chunk.split transcript).zipIdx.map fun (chunk, index) =>
      (index, chunk.heading, chunk.page, chunk.content)
  gone : ∀ row ∈ db.chunksOf job, row.id ∉ next.chunks.map (·.id)
  others : next.chunks.filter (·.jobId ≠ job) = db.chunks.filter (·.jobId ≠ job)
  embeddings : next.embeddings =
    db.embeddings.filter fun row => decide (row.chunkId ∉ (db.chunksOf job).map (·.id))
  rest : next = { db with chunks := next.chunks, embeddings := next.embeddings }

section

variable {job : Uuid} {db next : Db} {transcript : Text} {env : Env}

theorem Db.Transcribed.of_found (transcribed : db.Transcribed)
    (found : db.transcript? job = some transcript) :
    (db.job? job).isSome = true ∧ storable transcript = true := by
  obtain ⟨row, stored, rfl⟩ := Option.map_eq_some_iff.mp found
  have member := List.mem_of_find?_eq_some stored
  obtain rfl : row.jobId = job := by simpa using List.find?_some stored
  exact ⟨transcribed.jobs row member, transcribed.texts row member⟩

theorem replaceChunks_numbered (transcribed : db.Transcribed)
    (found : db.transcript? job = some transcript)
    (fresh : env.Fresh db (Chunk.split transcript).length) :
    ∃ next, replaceChunks env job (Body.numbered (Chunk.split transcript)) db = .ok next := by
  obtain ⟨known, stored⟩ := transcribed.of_found found
  refine ⟨_, insertChunks_new ?_ ?_ ?_ ?_ ?_ known⟩
  · intro new member
    obtain ⟨⟨chunk, index⟩, inside, rfl⟩ := List.mem_map.mp member
    exact Chunk.storable_of_mem_split stored (List.mem_of_getElem?
      (List.mem_zipIdx_iff_getElem?.mp inside))
  · rw [Body.position_numbered]
    exact List.nodup_range
  · intro row member ofJob
    simpa [ofJob] using (List.mem_filter.mp member).2
  · intro place _ below old
    rw [Body.length_numbered, Nat.zero_add] at below
    exact fresh.new place below ((List.filter_sublist.map _).subset old)
  · intro place other _ less below
    rw [Body.length_numbered, Nat.zero_add] at below
    exact fresh.apart place other less below

theorem Replaced.of_ok (keys : db.ContentKeys)
    (fresh : env.Fresh db (Chunk.split transcript).length)
    (replaced : replaceChunks env job (Body.numbered (Chunk.split transcript)) db = .ok next) :
    Replaced job transcript db next := by
  have sorted : ((Body.numbered (Chunk.split transcript)).map (·.position)).Pairwise (· ≤ ·) := by
    rw [Body.position_numbered]
    exact List.pairwise_le_range
  have read := chunksOf_replace replaced keys sorted
  obtain ⟨whole, _⟩ := replaceChunks_ok replaced keys
  refine ⟨?_, ?_, ?_, ?_, by rw [whole]; rfl⟩
  · have columns : (rowsFrom env.chunkId job 0 (Body.numbered (Chunk.split transcript))).map
        (fun row => (row.position, row.heading, row.page, row.content)) =
        (Body.numbered (Chunk.split transcript)).map
          fun new => (new.position, new.heading, new.page, new.content) :=
      map_rowsFrom fun _ _ => rfl
    rw [read, columns, Body.numbered, List.map_map]
    rfl
  · intro row member remains
    obtain ⟨stored, ofJob⟩ := mem_chunksOf.mp member
    obtain ⟨other, isOther, sameId⟩ := List.mem_map.mp remains
    rw [whole] at isOther
    rcases List.mem_append.mp isOther with old | new
    · obtain ⟨isOld, apart⟩ := List.mem_filter.mp old
      obtain rfl := List.inj_on_of_nodup_map keys.chunks isOld stored sameId
      simp [ofJob] at apart
    · obtain ⟨place, _, below, drawn⟩ := id_of_mem_rowsFrom new
      rw [Body.length_numbered, Nat.zero_add] at below
      exact fresh.new place below
        (List.mem_map.mpr ⟨row, stored, sameId.symm.trans drawn⟩)
  · have none : (rowsFrom env.chunkId job 0 (Body.numbered (Chunk.split transcript))).filter
        (·.jobId ≠ job) = [] :=
      List.filter_eq_nil_iff.mpr fun row member => by simp [jobId_of_mem_rowsFrom member]
    rw [whole, List.filter_append, none, List.append_nil, List.filter_filter]
    simp
  · rw [whole]
    refine List.filter_congr fun row _ => Bool.eq_iff_iff.mpr ?_
    simp [mem_chunksOf]

end

/-! The runs of `chunk_step`. -/

def Db.Draws (db : Db) (job : Uuid) (env : Env) : Prop :=
  ∀ transcript, db.transcript? job = some transcript → env.Fresh db (Chunk.split transcript).length

def Attempt.Undisturbed (job : Uuid) (db : Db) (attempt : Attempt) (answer : Answer)
    (next : Attempt) : Prop :=
  (∃ env message, answer = .executed env message ∧ db.Draws job env) ∧
    attempt.react job answer = some next

/-- The database executes a request, or fails and has not. -/
def Attempt.Answered (job : Uuid) (attempt : Attempt) (answer : Answer) (next : Attempt) : Prop :=
  (∀ env message, answer ≠ .lost env message) ∧ attempt.react job answer = some next

inductive Chunking (job : Uuid) (db : Db) : Nat → Attempt → Prop
  | chunking : Chunking job db 0 ⟨.more .chunking, db, []⟩
  | refused (message : Text) :
      (¬ ∃ transcript, db.transcript? job = some transcript ∧ Chunk.Fitting transcript) →
      Chunking job db 1 ⟨.done (.error message), db, []⟩
  | replacing : db.transcript? job = some transcript → Chunk.Fitting transcript →
      Chunking job db 1 ⟨.more (.replacing (Body.numbered (Chunk.split transcript))), db, []⟩
  | replaced : db.transcript? job = some transcript → Chunk.Fitting transcript →
      Replaced job transcript db next → Chunking job db 2 ⟨.done (.ok ()), next, []⟩

theorem Chunking.step {job : Uuid} {db : Db} (keys : db.ContentKeys)
    (transcribed : db.Transcribed) {count : Nat} {attempt next : Attempt} {answer : Answer}
    (state : Chunking job db count attempt)
    (taken : Attempt.Undisturbed job db attempt answer next) :
    Chunking job db (count + 1) next := by
  obtain ⟨⟨env, message, rfl, draws⟩, taken⟩ := taken
  cases state with
  | chunking =>
      simp only [Attempt.react, Body.step] at taken
      cases found : db.transcript? job with
      | none =>
          rw [found] at taken
          obtain rfl := Option.some.inj taken
          refine .refused _ ?_
          rintro ⟨transcript, alsoFound, _⟩
          rw [found] at alsoFound
          contradiction
      | some transcript =>
          rw [found] at taken
          obtain rfl := Option.some.inj taken
          by_cases fitting : Chunk.Fitting transcript
          · rw [Body.chunkTranscript_fitting fitting]
            exact .replacing found fitting
          · obtain ⟨text, refused⟩ := Body.chunkTranscript_unfitting fitting
            rw [refused]
            refine .refused text ?_
            rintro ⟨other, alsoFound, fits⟩
            obtain rfl := Option.some.inj (found.symm.trans alsoFound)
            exact fitting fits
  | replacing found fitting =>
      obtain ⟨after, replaced⟩ := replaceChunks_numbered transcribed found (draws _ found)
      simp only [Attempt.react, Body.step, replaced, Body.settle] at taken
      obtain rfl := Option.some.inj taken
      exact .replaced found fitting (.of_ok keys (draws _ found) replaced)
  | refused | replaced => exact absurd taken Attempt.not_react_done

theorem Chunking.of_run {job : Uuid} {db : Db} (keys : db.ContentKeys)
    (transcribed : db.Transcribed) {answers : List Answer} {attempt : Attempt}
    (run : Run (Attempt.Undisturbed job db) (.begin .chunking db) answers attempt) :
    Chunking job db answers.length attempt := by
  induction run with
  | nil => exact .chunking
  | snoc _ taken induction =>
      rw [List.length_append]
      exact induction.step keys transcribed taken

def Attempt.Intact (db : Db) (attempt : Attempt) : Prop :=
  attempt.work = .done (.ok ()) ∨ attempt.db = db ∧
    ∀ body, attempt.work = .more body → body = .chunking ∨ ∃ new, body = .replacing new

/-- A write of a body whose reply arrives is followed by what it is to be followed by. -/
theorem Body.replaced_or_broke {job : Uuid} {db next : Db} {new : List NewChunk} {answer : Answer}
    {work : Work} {observed : List Observation}
    (taken : (Body.replacing new).step job db answer = some (work, next, observed))
    (heard : ∀ env message, answer ≠ .lost env message) :
    work = .done (.ok ()) ∨ (next = db ∧ ∃ message, work = .done (.error message)) := by
  cases answer with
  | executed env message =>
      simp only [Body.step, Option.some.injEq, Prod.mk.injEq] at taken
      obtain ⟨work_eq, next_eq, _⟩ := taken
      rcases Body.settle_eq (Prod.ext work_eq next_eq) with ⟨_, done⟩ | ⟨broke, same, _⟩
      · exact .inl done
      · exact .inr ⟨same, message, broke⟩
  | lost env message => exact absurd rfl (heard env message)
  | failed message =>
      obtain ⟨rfl, rfl, _⟩ : _ ∧ db = next ∧ _ := by simpa [Body.step] using taken
      exact .inr ⟨rfl, message, rfl⟩
  | extracted | embedded | edited => simp [Body.step] at taken

theorem Attempt.intact {job : Uuid} {db : Db} {answers : List Answer} {attempt : Attempt}
    (run : Run (Answered job) (begin .chunking db) answers attempt) : attempt.Intact db := by
  refine run.invariant ?_ (.inr ⟨rfl, fun body same => .inl (Work.more.inj same).symm⟩)
  rintro ⟨work, current, exchanges⟩ answer next states ⟨heard, taken⟩
  cases work with
  | done => exact absurd taken not_react_done
  | more body =>
      obtain ⟨rfl, bodies⟩ := states.resolve_left nofun
      obtain ⟨⟨work, after, observed⟩, moved, rfl⟩ := Option.map_eq_some_iff.mp taken
      rcases bodies body rfl with rfl | ⟨new, rfl⟩
      · cases Body.step_cases moved with
        | broke => exact .inr ⟨rfl, nofun⟩
        | @split transcript =>
            refine .inr ⟨rfl, fun later more => .inr ?_⟩
            by_cases fitting : Chunk.Fitting transcript
            · rw [Body.chunkTranscript_fitting fitting] at more
              exact ⟨_, (Work.more.inj more).symm⟩
            · obtain ⟨_, refused⟩ := Body.chunkTranscript_unfitting fitting
              rw [refused] at more
              contradiction
      · rcases Body.replaced_or_broke moved heard with done | ⟨same, message, broke⟩
        · exact .inl done
        · refine .inr ⟨same, fun later more => ?_⟩
          rw [broke] at more
          contradiction

/-- `chunk_step` replaces the chunks of the job by those of its transcript, or changes
nothing: whether it refuses the transcript, a request fails, or an insert does. -/
theorem chunk_step_all_or_nothing {job : Uuid} {db : Db} (keys : db.ContentKeys)
    (transcribed : db.Transcribed) :
    (∀ answers attempt,
      Run (Attempt.Undisturbed job db) (.begin .chunking db) answers attempt →
      (∀ body env message, attempt.work = .more body →
        answers.length < 2 ∧ (attempt.react job (.executed env message)).isSome) ∧
      ∀ outcome, attempt.work = .done outcome →
        (outcome = .ok () ↔
          ∃ transcript, db.transcript? job = some transcript ∧ Chunk.Fitting transcript) ∧
        (∀ transcript, outcome = .ok () → db.transcript? job = some transcript →
          Replaced job transcript db attempt.db) ∧
        (outcome ≠ .ok () → attempt.db = db)) ∧
    (∀ answers attempt message,
      Run (Attempt.Answered job) (.begin .chunking db) answers attempt →
      attempt.work = .done (.error message) → attempt.db = db) ∧
    ∀ faults chunks,
      ((∀ statement, faults.fault statement = none) → ∀ env : Env, env.chunkId = faults.ids →
        replaceChunks env job chunks db =
          (Replace.transact faults job chunks db).1.map
            fun _ => (Replace.transact faults job chunks db).2) ∧
      (∀ fault, (Replace.transact faults job chunks db).1 = .error fault →
        (Replace.transact faults job chunks db).2 = db) ∧
      ∀ place chunk, chunks[place]? = some chunk →
        faults.fault (.insert place job chunk) ≠ none →
        ∃ fault, (Replace.transact faults job chunks db).1 = .error fault := by
  refine ⟨fun answers attempt run => ?_, fun answers attempt message run failed => ?_,
    fun faults chunks => ⟨fun calm env ids => Replace.transact_eq calm env ids chunks,
      Replace.transact_rolls_back⟩⟩
  · have state := Chunking.of_run keys transcribed run
    generalize answers.length = count at state
    cases state with
    | chunking =>
        refine ⟨fun body env message more => ⟨by omega, ?_⟩, by rintro outcome ⟨⟩⟩
        simp only [Attempt.react, Body.step]
        cases db.transcript? job <;> rfl
    | replacing =>
        exact ⟨fun body env message more => ⟨by omega, rfl⟩, by rintro outcome ⟨⟩⟩
    | refused message unfit =>
        refine ⟨by rintro body env message ⟨⟩, fun outcome ended => ?_⟩
        obtain rfl := Work.done.inj ended
        refine ⟨⟨fun success => ?_, fun fits => absurd fits unfit⟩,
          by rintro transcript ⟨⟩, fun _ => rfl⟩
        cases success
    | replaced found fitting replaced =>
        refine ⟨by rintro body env message ⟨⟩, fun outcome ended => ?_⟩
        obtain rfl := Work.done.inj ended
        refine ⟨⟨fun _ => ⟨_, found, fitting⟩, fun _ => rfl⟩, fun transcript _ alsoFound => ?_,
          fun failed => absurd rfl failed⟩
        obtain rfl := Option.some.inj (found.symm.trans alsoFound)
        exact replaced
  · refine ((Attempt.intact run).resolve_left fun succeeded => ?_).1
    rw [succeeded] at failed
    cases Work.done.inj failed

namespace Attempt

def reviewed : Db :=
  ⟨[], [], [⟨⟨0⟩, .chunk, ⟨9⟩, [], [], 0, none⟩], [], [⟨⟨0⟩, "## Setup\nDraw a card.".toList⟩],
    [⟨⟨1⟩, ⟨0⟩, 0, [], 1, "Draw a crad.".toList⟩], [⟨⟨1⟩, List.replicate 1024 ⟨0⟩⟩]⟩

def drawing : Env := ⟨0, ⟨0⟩, ⟨0⟩, fun place => ⟨.ofNat 128 (place + 2)⟩, fun _ => 0⟩

end Attempt

theorem chunk_step_all_or_nothing_after_review :
    ∃ ended : Attempt, ended.work = .done (.ok ()) ∧
      Replaced ⟨0⟩ "## Setup\nDraw a card.".toList Attempt.reviewed ended.db := by
  have found : Attempt.reviewed.transcript? ⟨0⟩ = some "## Setup\nDraw a card.".toList := by
    decide +kernel
  have draws : Attempt.reviewed.Draws ⟨0⟩ Attempt.drawing := by
    intro transcript alsoFound
    obtain rfl := Option.some.inj (found.symm.trans alsoFound)
    have one : (Chunk.split "## Setup\nDraw a card.".toList).length = 1 := by decide +kernel
    rw [one]
    exact ⟨by decide +kernel, fun place other less below => by omega⟩
  have first : Attempt.Undisturbed ⟨0⟩ Attempt.reviewed (.begin .chunking Attempt.reviewed)
      (.executed Attempt.drawing [])
      ⟨.more (.replacing [⟨0, "Setup".toList, 1, "Draw a card.".toList⟩]), Attempt.reviewed, []⟩ :=
    ⟨⟨_, _, rfl, draws⟩, rfl⟩
  have second : Attempt.Undisturbed ⟨0⟩ Attempt.reviewed
      ⟨.more (.replacing [⟨0, "Setup".toList, 1, "Draw a card.".toList⟩]), Attempt.reviewed, []⟩
      (.executed Attempt.drawing [])
      ⟨.done (.ok ()), { Attempt.reviewed with
        chunks := [⟨⟨2⟩, ⟨0⟩, 0, "Setup".toList, 1, "Draw a card.".toList⟩]
        embeddings := [] }, []⟩ :=
    ⟨⟨_, _, rfl, draws⟩, rfl⟩
  have ⟨_, ended⟩ := (chunk_step_all_or_nothing ⟨by decide +kernel, by decide +kernel⟩
    ⟨by decide +kernel, by decide +kernel⟩).1 _ _ (.cons first (.single second))
  exact ⟨_, rfl, (ended (.ok ()) rfl).2.1 _ rfl found⟩

end Zyndeck
