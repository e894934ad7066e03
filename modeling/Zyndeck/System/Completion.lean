import Zyndeck.Db.Final
import Zyndeck.System.Completed
import Zyndeck.System.Overwrite

namespace Zyndeck

open Data

/-! `process` with nothing failing and nobody else at work. -/

section

variable [Isolang]

/-- What the outside does when nothing fails: the transaction of each request, by its
number, the text that is read from the PDF, and the vector of each text. -/
structure Outside where
  env : Nat → Env
  document : Text
  vectorOf : Text → List F32

namespace Outside

def answer (outside : Outside) (place : Nat) : Phase → Answer
  | .executing _ _ .extracting => .extracted (.ok outside.document)
  | .executing _ _ (.embedding left) =>
      .embedded (.ok ((left.take embedBatch).map fun chunk =>
        outside.vectorOf (embeddingInput chunk)))
  | _ => .executed (outside.env place) []

structure Standing where
  place : Nat
  phase : Phase
  db : Db

def step (outside : Outside) (standing : Standing) : Option (Standing ⊕ Db) :=
  (standing.phase.step 0 standing.db (outside.answer standing.place standing.phase)).map
    fun moved =>
      match moved.phase with
      | some phase => .inl ⟨standing.place + 1, phase, moved.db⟩
      | none => .inr moved.db

/-- `process` of a job, from a number of requests on, returns and leaves tables with the
property. -/
def Processes (outside : Outside) (place : Nat) (phase : Phase) (db : Db) (post : Db → Prop) :
    Prop :=
  Ends outside.step ⟨place, phase, db⟩ post

variable {outside : Outside} {place : Nat} {phase : Phase} {db : Db} {post : Db → Prop}

theorem Processes.goOn {next : Phase} {after : Db} {observed : List Observation}
    (taken : phase.step 0 db (outside.answer place phase) = some ⟨some next, after, observed⟩)
    (rest : outside.Processes (place + 1) next after post) :
    outside.Processes place phase db post :=
  Ends.goOn (by rw [step, taken]; rfl) rest

theorem Processes.stop {after : Db} {observed : List Observation}
    (taken : phase.step 0 db (outside.answer place phase) = some ⟨none, after, observed⟩)
    (holds : post after) : outside.Processes place phase db post :=
  Ends.stop (by rw [step, taken]; rfl) holds

end Outside

/-! What the requests find. -/

/-- What holds of the tables in every state, whatever the clocks say. -/
structure Db.Orderly (db : Db) : Prop where
  shaped : db.Shaped
  started : db.Started
  keys : db.ContentKeys
  transcribed : db.Transcribed

theorem Effect.orderly {env : Env} {db next : Db} {operation : Operation}
    {result : Except Error Output} (effect : Effect env db operation result next)
    (pipeline : operation.isBegin = false) (orderly : db.Orderly) : next.Orderly where
  shaped := effect.shaped pipeline orderly.shaped
  started := effect.keeps_started orderly.shaped.referenced pipeline orderly.started
  keys := by
    obtain ⟨chunks, embeddings⟩ := effect.content
    exact ⟨chunks ▸ orderly.keys.chunks, embeddings ▸ orderly.keys.embeddings⟩
  transcribed := by
    have same := effect.transcripts
    refine ⟨fun row member => ?_, fun row member => orderly.transcribed.texts row (same ▸ member)⟩
    exact effect.job?_isSome (orderly.transcribed.jobs row (same ▸ member))

omit [Isolang] in
theorem StepRunRow.Evolves.before {now later : Timestamp} {old new : StepRunRow}
    (evolved : Evolves now old new) (less : now < later)
    (before : (∀ start ∈ old.startedAt, start < now) ∧ ∀ ended ∈ old.completedAt, ended < now) :
    (∀ start ∈ new.startedAt, start < later) ∧ ∀ ended ∈ new.completedAt, ended < later := by
  have starts : ∀ start ∈ old.startedAt, start < later := fun start isStart =>
    Int.lt_trans (before.1 start isStart) less
  have ends : ∀ ended ∈ old.completedAt, ended < later := fun ended isEnd =>
    Int.lt_trans (before.2 ended isEnd) less
  have atNow : ∀ moment ∈ some now, moment < later := fun moment isNow =>
    Option.some.inj isNow ▸ less
  cases evolved with
  | kept => exact ⟨starts, ends⟩
  | claimed => exact ⟨atNow, ends⟩
  | finished | aborted => exact ⟨starts, atNow⟩

theorem Effect.before {env : Env} {db next : Db} {operation : Operation}
    {result : Except Error Output} (effect : Effect env db operation result next)
    (clock : db.Before env.now) {later : Timestamp} (less : env.now < later) :
    next.Before later := by
  have step := effect.runsStep
  intro row member
  generalize next.runs = runs at step member
  cases step with
  | evolved evolve each =>
      obtain ⟨old, stored, rfl⟩ := List.mem_map.mp member
      exact (each old).before less (clock old stored)
  | @appended run _ new =>
      rcases List.mem_append.mp member with member | member
      · exact (clock.mono (Int.le_of_lt less)) row member
      · obtain rfl := List.mem_singleton.mp member
        rcases new.start with ⟨_, start⟩ | ⟨_, start⟩ <;> simp [start, new.completedAt_eq, less]

omit [Isolang] in
theorem Db.SamePipeline.before {db next : Db} (same : db.SamePipeline next) {now : Timestamp}
    (before : db.Before now) : next.Before now :=
  fun row member => before row (same.runs ▸ member)

theorem Db.Orderly.of_same {db next : Db} (orderly : db.Orderly) (same : db.SamePipeline next)
    (keys : next.ContentKeys) (transcribed : next.Transcribed) : next.Orderly where
  shaped := same.shaped orderly.shaped
  started job history known := orderly.started job history ((same.history job).symm.trans known)
  keys
  transcribed

omit [Isolang] in
theorem Db.Transcribed.of_same {db next : Db} (transcribed : db.Transcribed)
    (same : db.SamePipeline next) (transcripts : next.transcripts = db.transcripts) :
    next.Transcribed := by
  refine ⟨fun row member => ?_, fun row member => ?_⟩ <;> rw [transcripts] at member
  · rw [same.job?]
    exact transcribed.jobs row member
  · exact transcribed.texts row member

omit [Isolang] in
theorem Db.Transcribed.upsert {db next : Db} (transcribed : db.Transcribed) {job : Uuid}
    {content : Text} (written : db.upsertTranscript job content = .ok next) :
    next.Transcribed := by
  have ok := upsertTranscript_ok written
  refine ⟨fun row member => ?_, fun row member => ?_⟩
  · rw [ok.same.job?]
    rcases ok.rows row member with ⟨ofJob, _⟩ | stored
    · exact ofJob ▸ ok.known
    · exact transcribed.jobs row stored
  · rcases ok.rows row member with ⟨_, isContent⟩ | stored
    · exact isContent ▸ ok.text
    · exact transcribed.texts row stored

theorem Db.Orderly.load {db : Db} (orderly : db.Orderly) {job : Uuid} {row : JobRow}
    (found : db.job? job = some row) :
    ∃ loaded, Phase.load job db = some loaded ∧ loaded.id = job ∧ loaded.step = row.step := by
  obtain ⟨loaded, decoded⟩ := orderly.shaped.toKeyed.tryInto_job found
  obtain ⟨id, step⟩ := JobRow.tryInto_ok decoded
  have isJob : row.id = job := by simpa using List.find?_some found
  refine ⟨loaded, ?_, id.trans isJob, step⟩
  rw [Phase.load, found, Option.bind_some, decoded]
  rfl

structure Db.Newest (db : Db) (row : StepRunRow) : Prop where
  member : row ∈ db.runs
  latest : ∃ start, row.startedAt = some start ∧
    ∀ other ∈ db.runs, other.jobId = row.jobId → other.id ≠ row.id →
      ∃ earlier, other.startedAt = some earlier ∧ earlier < start

namespace Db.Newest

omit [Isolang]

variable {db : Db} {row : StepRunRow}

theorem of_same {next : Db} (newest : db.Newest row) (same : db.SamePipeline next) :
    next.Newest row where
  member := same.runs ▸ newest.member
  latest := by
    obtain ⟨start, started, others⟩ := newest.latest
    exact ⟨start, started, fun other member => others other (same.runs ▸ member)⟩

theorem succeeded (newest : db.Newest row) (unique : (db.runs.map (·.id)).Nodup)
    (started : db.Started) {job : Uuid} {history : History} (known : db.history job = some history)
    (ofJob : row.jobId = job) (success : row.status = .succeeded) (tie : Uuid → Nat) :
    History.Succeeded history.runs row.step tie row := by
  have complete := (started job history known).complete row
  obtain ⟨_, _, rfl⟩ := Db.history_eq_some.mp known
  have member : row ∈ db.runsOf job := List.mem_filter.mpr ⟨newest.member, by simpa using ofJob⟩
  obtain ⟨start, isStart, others⟩ := newest.latest
  refine ⟨?_, rfl, success, complete member (by simp [success])⟩
  refine firstBy_eq_of_precedes (laterFirst_strictOrder tie) member fun other isOther apart => ?_
  obtain ⟨stored, ofOther⟩ := List.mem_filter.mp isOther
  obtain ⟨earlier, isEarlier, less⟩ := others other stored
    ((of_decide_eq_true ofOther).trans ofJob.symm)
    fun same => apart (List.inj_on_of_nodup_map unique stored newest.member same)
  simp [laterFirst, isStart, isEarlier, less]

theorem started_before (newest : db.Newest row) (unique : (db.runs.map (·.id)).Nodup)
    {now : Timestamp} (clock : db.Before now) :
    ∀ other ∈ db.runs, other.jobId = row.jobId →
      ∃ start, other.startedAt = some start ∧ start < now := by
  intro other stored ofJob
  obtain ⟨latest, started, others⟩ := newest.latest
  have isSome : ∃ start, other.startedAt = some start := by
    by_cases same : other.id = row.id
    · rw [List.inj_on_of_nodup_map unique stored newest.member same]
      exact ⟨latest, started⟩
    · obtain ⟨start, isStart, _⟩ := others other stored ofJob same
      exact ⟨start, isStart⟩
  obtain ⟨start, isStart⟩ := isSome
  exact ⟨start, isStart, (clock other stored).1 start isStart⟩

/-- A run that is begun after all of its job is the newest. -/
theorem begun {next : Db} {run : StepRunRow} {now : Timestamp} (newest : db.Newest row)
    (unique : (db.runs.map (·.id)).Nodup) (clock : db.Before now)
    (appended : next.runs = db.runs ++ [run]) (started : run.startedAt = some now)
    (sameJob : run.jobId = row.jobId) : next.Newest run where
  member := appended ▸ List.mem_append_right _ (List.mem_singleton_self _)
  latest := by
    refine ⟨now, started, fun other isOther ofJob apart => ?_⟩
    rw [appended] at isOther
    rcases List.mem_append.mp isOther with isOld | isNew
    · exact newest.started_before unique clock other isOld (ofJob.trans sameJob)
    · exact absurd (congrArg (·.id) (List.mem_singleton.mp isNew)) apart

end Db.Newest

namespace Outside

/-- The tables before a request whose clock, and those of all later ones, are later than
what is stored. -/
structure Finds (outside : Outside) (place : Nat) (db : Db) : Prop where
  orderly : db.Orderly
  clock : db.Before (outside.env place).now

def Ticks (outside : Outside) : Prop :=
  ∀ place, (outside.env place).now < (outside.env (place + 1)).now

def Vectors (outside : Outside) : Prop :=
  ∀ text, (outside.vectorOf text).length = vectorDim ∧
    (outside.vectorOf text).all F32.isFinite = true

variable {outside : Outside} {place : Nat} {db : Db} {post : Db → Prop}

theorem Finds.later (finds : outside.Finds place db) (ticks : outside.Ticks) :
    outside.Finds (place + 1) db :=
  ⟨finds.orderly, finds.clock.mono (Int.le_of_lt (ticks place))⟩

theorem Finds.effect (finds : outside.Finds place db) (ticks : outside.Ticks)
    {operation : Operation} {result : Except Error Output} {next : Db}
    (effect : Effect (outside.env place) db operation result next)
    (pipeline : operation.isBegin = false) : outside.Finds (place + 1) next :=
  ⟨effect.orderly pipeline finds.orderly, effect.before finds.clock (ticks place)⟩

theorem Finds.of_same (finds : outside.Finds place db) (ticks : outside.Ticks) {next : Db}
    (same : db.SamePipeline next) (keys : next.ContentKeys) (transcribed : next.Transcribed) :
    outside.Finds (place + 1) next :=
  ⟨finds.orderly.of_same same keys transcribed, same.before (finds.later ticks).clock⟩

/-! The claim, the load, the end of a body and `continue_job`. -/

structure Sets (row : StepRunRow) (db next : Db) : Prop where
  stored : row ∈ next.runs
  others : ∀ other ∈ next.runs, other = row ∨ other ∈ db.runs ∧ other.id ≠ row.id
  ids : next.runs.map (·.id) = db.runs.map (·.id)
  jobs : next.jobs = db.jobs
  transcripts : next.transcripts = db.transcripts
  chunks : next.chunks = db.chunks
  embeddings : next.embeddings = db.embeddings

namespace Sets

omit [Isolang]

variable {row old : StepRunRow} {next : Db}

theorem of_updateRuns {hit : StepRunRow → Bool} {set : StepRunRow → StepRunRow}
    (kept : ∀ row, (set row).id = row.id) (unique : (db.runs.map (·.id)).Nodup)
    (member : old ∈ db.runs) (matched : hit old = true)
    (only : ∀ other ∈ db.runs, hit other = true → other = old) :
    Sets (set old) db (db.updateRuns hit set).2 where
  stored := mem_updateWhere.mpr (.inl ⟨old, member, matched, rfl⟩)
  others other stored := by
    rcases mem_updateWhere.mp stored with ⟨second, isSecond, hits, rfl⟩ | ⟨isOld, missed⟩
    · exact .inl (only second isSecond hits ▸ rfl)
    · refine .inr ⟨isOld, fun same => ?_⟩
      obtain rfl := List.inj_on_of_nodup_map unique isOld member (same.trans (kept old))
      rw [matched] at missed
      contradiction
  ids := map_updateWhere kept db.runs
  jobs := rfl
  transcripts := rfl
  chunks := rfl
  embeddings := rfl

theorem job? (sets : Sets row db next) (job : Uuid) : next.job? job = db.job? job := by
  rw [Db.job?, Db.job?, sets.jobs]

theorem fresh (sets : Sets row db next) {id : Uuid} (fresh : ∀ other ∈ db.runs, other.id ≠ id) :
    ∀ other ∈ next.runs, other.id ≠ id := by
  intro other member
  obtain ⟨old, stored, same⟩ := List.mem_map.mp (sets.ids ▸ List.mem_map_of_mem member)
  exact same ▸ fresh old stored

theorem newest (sets : Sets row db next) {start : Timestamp} (started : row.startedAt = some start)
    (before : ∀ other ∈ db.runs, other.jobId = row.jobId → other.id ≠ row.id →
      ∃ earlier, other.startedAt = some earlier ∧ earlier < start) : next.Newest row where
  member := sets.stored
  latest := by
    refine ⟨start, started, fun other member ofJob apart => ?_⟩
    rcases sets.others other member with rfl | ⟨isOld, _⟩
    · exact absurd rfl apart
    · exact before other isOld ofJob apart

theorem newest_of_claim {now : Timestamp} {pending : StepRunRow}
    (sets : Sets (pending.claim now) db next) (clock : db.Before now)
    (others : ∀ other ∈ db.runs, other.jobId = pending.jobId → other.id ≠ pending.id →
      other.startedAt.isSome) : next.Newest (pending.claim now) := by
  refine sets.newest rfl fun other stored ofJob apart => ?_
  obtain ⟨earlier, isStart⟩ := Option.isSome_iff_exists.mp (others other stored ofJob apart)
  exact ⟨earlier, isStart, (clock other stored).1 earlier isStart⟩

theorem idle (sets : Sets row db next) (oneActive : OneActive db.runs) (member : old ∈ db.runs)
    (sameId : row.id = old.id) (sameJob : row.jobId = old.jobId)
    (active : old.status.isActive = true) (ended : row.status.isActive = false) :
    ∀ other ∈ next.runs, other.jobId = row.jobId → other.status.isActive = false := by
  intro other stored ofJob
  rcases sets.others other stored with rfl | ⟨isOld, apart⟩
  · exact ended
  · refine Bool.eq_false_iff.mpr fun alsoActive => apart ?_
    obtain rfl := oneActive.eq isOld member (ofJob.trans sameJob) alsoActive active
    exact sameId.symm

end Sets

structure Is (run : IngestionStepRun) (row : StepRunRow) : Prop where
  id : run.id = row.id
  jobId : run.jobId = row.jobId
  step : run.step = row.step

theorem Processes.claim {job : Uuid} {row : StepRunRow} (finds : outside.Finds place db)
    (ticks : outside.Ticks) (member : row ∈ db.runs) (ofJob : row.jobId = job)
    (pending : row.status = .pending)
    (rest : ∀ run next, Is run row → Sets (row.claim (outside.env place).now) db next →
      outside.Finds (place + 1) next →
      outside.Processes (place + 1) (.loading job run) next post) :
    outside.Processes place (.claiming job) db post := by
  have keyed := finds.orderly.shaped.toKeyed
  have matched : row.isPendingOf job = true := by simp [StepRunRow.isPendingOf, ofJob, pending]
  have only : ∀ other ∈ db.runs, other.isPendingOf job = true → other = row := by
    intro other stored hit
    simp only [StepRunRow.isPendingOf, Bool.and_eq_true, decide_eq_true_eq] at hit
    exact keyed.oneActive.eq stored member (hit.1.trans ofJob.symm) (by rw [hit.2]; rfl)
      (by rw [pending]; rfl)
  have found : (db.claim (outside.env place).now job).1 =
      some (row.claim (outside.env place).now) := head?_returning member matched only
  have complete : (row.claim (outside.env place).now).Complete := by
    simp [StepRunRow.Complete, StepRunRow.claim]
  obtain ⟨run, decoded, id, jobId, step, _⟩ := StepRunRow.tryInto_complete complete
  have returns : (Operation.exec (outside.env place) (.claim job) db).result =
      .ok (.maybeRun (some run)) := by
    simp only [Operation.exec, claimPendingRun, Prod.map, found, decodeRow, decoded]
    rfl
  have taken : Phase.step 0 db (.claiming job) (outside.answer place (.claiming job)) =
      some ⟨some (.loading job run), (Operation.exec (outside.env place) (.claim job) db).db,
        [.handed 0 run]⟩ := by
    simp only [Phase.step, answer, Phase.claim, returns]
  exact .goOn taken (rest run _ ⟨id, jobId, step⟩
    (.of_updateRuns (fun _ => rfl) keyed.runs member matched only)
    (finds.effect ticks (exec_effect ..) rfl))

theorem Processes.load {job : Uuid} {row : JobRow} {run : IngestionStepRun}
    (finds : outside.Finds place db) (found : db.job? job = some row)
    (rest : ∀ loaded : IngestionJob, loaded.id = job →
      outside.Processes (place + 1) (Phase.ofWork loaded run (Body.begin row.step)) db post) :
    outside.Processes place (.loading job run) db post := by
  obtain ⟨loaded, loads, isJob, onStep⟩ := finds.orderly.load found
  have taken : Phase.step 0 db (.loading job run) (outside.answer place (.loading job run)) =
      some ⟨some (Phase.ofWork loaded run (Body.begin row.step)), db,
        [.entered 0 run loaded.step]⟩ := by
    simp only [Phase.step, answer, loads, Phase.enter, onStep]
  exact .goOn taken (rest loaded isJob)

/-- The end of a run, after which `process` returns if the run is one of `extract`. -/
theorem Processes.finish {job : IngestionJob} {run : IngestionStepRun} {row : StepRunRow}
    (finds : outside.Finds place db) (ticks : outside.Ticks) (newest : db.Newest row)
    (isRow : Is run row) (found : (db.job? row.jobId).isSome) (running : row.status = .running)
    (rest : ∀ next, Sets (row.finish (outside.env place).now .succeeded none) db next →
      next.Newest (row.finish (outside.env place).now .succeeded none) →
      (∀ other ∈ next.runs, other.jobId = row.jobId → other.status.isActive = false) →
      outside.Finds (place + 1) next →
      if run.step = .extract then post next
      else outside.Processes (place + 1) (.continuing job run) next post) :
    outside.Processes place (.finishing job run (.ok ())) db post := by
  have keyed := finds.orderly.shaped.toKeyed
  have member := newest.member
  have complete : row.Complete := by
    obtain ⟨jobRow, isJob⟩ := Option.isSome_iff_exists.mp found
    refine (finds.orderly.started _ _ (Db.history_of_found isJob)).complete row ?_
      (by simp [running])
    exact List.mem_filter.mpr ⟨member, by simp⟩
  have matched : row.isRunningRun run.id = true := by
    simp [StepRunRow.isRunningRun, running, isRow.id]
  have only : ∀ other ∈ db.runs, other.isRunningRun run.id = true → other = row := by
    intro other stored hit
    simp only [StepRunRow.isRunningRun, Bool.and_eq_true, decide_eq_true_eq] at hit
    exact List.inj_on_of_nodup_map keyed.runs stored member (hit.1.trans isRow.id)
  have updated : (db.finish (outside.env place).now run.id .succeeded none).1 =
      some (row.finish (outside.env place).now .succeeded none) :=
    head?_returning member matched only
  have ended : (row.finish (outside.env place).now .succeeded none).Complete :=
    (StepRunRow.Evolves.finished running .succeeded).complete complete fun _ => by simp [running]
  obtain ⟨value, decoded, _⟩ := StepRunRow.tryInto_complete ended
  have returns : (Operation.exec (outside.env place) (.finish run.id .succeeded) db).result =
      .ok (.maybeRun (some value)) := by
    simp only [Operation.exec, finishRun, StepOutcome.error, StepOutcome.status, Option.any_none,
      Bool.false_eq_true, ↓reduceIte, Prod.map, updated, decodeRow, decoded]
    rfl
  have sets : Sets (row.finish (outside.env place).now .succeeded none) db
      (Operation.exec (outside.env place) (.finish run.id .succeeded) db).db :=
    .of_updateRuns (fun _ => rfl) keyed.runs member matched only
  have taken : Phase.step 0 db (.finishing job run (.ok ()))
      (outside.answer place (.finishing job run (.ok ()))) =
      some ⟨if run.step ≠ .extract then some (.continuing job run) else none,
        (Operation.exec (outside.env place) (.finish run.id .succeeded) db).db,
        [.finished 0 run]⟩ := by
    simp only [Phase.step, answer, Phase.finish, Phase.recorded, returns]
    simp [Except.isOk, Except.toBool]
  obtain ⟨start, started, before⟩ := newest.latest
  have goal := rest _ sets (sets.newest started before)
    (sets.idle keyed.oneActive member rfl rfl (by rw [running]; rfl) rfl)
    (finds.effect ticks (exec_effect ..) rfl)
  by_cases phaseOne : run.step = .extract
  · rw [if_neg (by simp [phaseOne])] at taken
    rw [if_pos phaseOne] at goal
    exact .stop taken goal
  · rw [if_pos phaseOne] at taken
    rw [if_neg phaseOne] at goal
    exact .goOn taken goal

theorem Processes.advance {job : IngestionJob} {run : IngestionStepRun} {row : StepRunRow}
    {jobRow : JobRow} (finds : outside.Finds place db) (ticks : outside.Ticks)
    (fresh : ∀ other ∈ db.runs, other.id ≠ (outside.env place).runId)
    (found : db.job? job.id = some jobRow) (onChunk : jobRow.step = .chunk)
    (newest : db.Newest row) (ofJob : row.jobId = job.id) (ofChunk : row.step = .chunk)
    (succeeded : row.status = .succeeded)
    (idle : ∀ other ∈ db.runs, other.jobId = job.id → other.status.isActive = false)
    (rest : ∀ run next row, next.Newest row → Is run row → row.status = .running →
      run.jobId = job.id → run.step = .embed →
      next.job? job.id = some { jobRow with step := .embed } →
      outside.Finds (place + 1) next → next.transcripts = db.transcripts →
      next.chunks = db.chunks → next.embeddings = db.embeddings →
      outside.Processes (place + 1) (.loading job.id run) next post) :
    outside.Processes place (.continuing job run) db post := by
  have known := Db.history_of_found found
  have inactive : ∀ other ∈ db.runsOf job.id, other.status.isActive = false := by
    intro other stored
    obtain ⟨stored, ofOther⟩ := List.mem_filter.mp stored
    exact idle other stored (of_decide_eq_true ofOther)
  have latest := newest.succeeded finds.orderly.shaped.runs finds.orderly.started known ofJob
    succeeded (outside.env place).tie
  rw [ofChunk.trans onChunk.symm] at latest
  have continues : ∃ output, (Operation.exec (outside.env place) (.continue job.id) db).result =
      .ok output :=
    continue_of_latest finds.orderly.shaped known inactive fresh (.inl onChunk) latest
  obtain ⟨output, returns⟩ := continues
  have advances : ∃ value, output = .advanced (.running value) := by
    have effect := exec_effect (outside.env place) (.continue job.id) db
    rw [returns] at effect
    generalize (Operation.exec (outside.env place) (.continue job.id) db).db = next at effect
    cases effect with
    | advanced => exact ⟨_, rfl⟩
    | completed isRow onEmbed =>
        obtain rfl := Option.some.inj (isRow.symm.trans found)
        simp [onChunk] at onEmbed
  obtain ⟨value, rfl⟩ := advances
  obtain ⟨isJob, isEmbed, _⟩ := advanced_stores returns
  have taken : Phase.step 0 db (.continuing job run) (outside.answer place (.continuing job run)) =
      some ⟨some (.loading job.id value),
        (Operation.exec (outside.env place) (.continue job.id) db).db, [.handed 0 value]⟩ := by
    simp only [Phase.step, answer, Phase.advance, returns]
  have effect := exec_effect (outside.env place) (.continue job.id) db
  obtain ⟨_, inserted, _, _, begun, decoded, whole⟩ := advanced_row returns
  obtain ⟨rfl, _⟩ := insertRun_ok.mp begun
  obtain ⟨id, jobId, ofStep⟩ := StepRunRow.fields_of_tryInto decoded
  have later := newest.begun finds.orderly.shaped.runs finds.clock
    (congrArg Db.runs whole) rfl ofJob.symm
  refine .goOn taken (rest value _ _ later ⟨id, jobId, ofStep⟩ rfl isJob isEmbed ?_
    (finds.effect ticks effect rfl) effect.transcripts effect.content.1 effect.content.2)
  have isId : jobRow.id = job.id := by simpa using List.find?_some found
  have step := job?_setStep db job.id job.id .embed
  rw [found, Option.map_some, if_pos isId] at step
  rw [whole]
  exact step

theorem Processes.complete {job : IngestionJob} {run : IngestionStepRun} {row : StepRunRow}
    {jobRow : JobRow} (finds : outside.Finds place db)
    (found : db.job? job.id = some jobRow) (onEmbed : jobRow.step = .embed)
    (newest : db.Newest row) (ofJob : row.jobId = job.id) (ofEmbed : row.step = .embed)
    (succeeded : row.status = .succeeded)
    (holds : post (db.apply (.setStep job.id .completed))) :
    outside.Processes place (.continuing job run) db post := by
  have latest := newest.succeeded finds.orderly.shaped.runs finds.orderly.started
    (Db.history_of_found found) ofJob succeeded (outside.env place).tie
  obtain ⟨locked, decoded⟩ := finds.orderly.shaped.toKeyed.tryInto_job found
  have ran : postgres.run (outside.env place) db (continueJob job.id) [] =
      .ok (.completed, [.setStep job.id .completed]) :=
    continueJob_ok.mpr ⟨jobRow, locked, row, found, decoded, latest.latest,
      ofEmbed.trans onEmbed.symm, succeeded, latest.complete, .inr ⟨onEmbed, rfl, rfl⟩⟩
  have taken : Phase.step 0 db (.continuing job run) (outside.answer place (.continuing job run)) =
      some ⟨none, db.apply (.setStep job.id .completed), []⟩ := by
    simp only [Phase.step, answer, Phase.advance, Operation.exec, transaction_of_ok ran]
    rfl
  exact .stop taken holds

/-! The bodies. -/

theorem Processes.chunk {job : IngestionJob} {run : IngestionStepRun} {transcript : Text}
    (finds : outside.Finds place db) (ticks : outside.Ticks)
    (stored : db.transcript? job.id = some transcript) (fitting : Chunk.Fitting transcript)
    (fresh : (outside.env (place + 1)).Fresh db (Chunk.split transcript).length)
    (rest : ∀ next, db.SamePipeline next → next.Splits job.id transcript →
      next.transcripts = db.transcripts → outside.Finds (place + 2) next →
      outside.Processes (place + 2) (.finishing job run (.ok ())) next post) :
    outside.Processes place (.executing job run .chunking) db post := by
  have splits : Phase.step 0 db (.executing job run .chunking)
      (outside.answer place (.executing job run .chunking)) =
      some ⟨some (.executing job run (.replacing (Body.numbered (Chunk.split transcript)))), db,
        [.split job.id transcript]⟩ := by
    simp only [Phase.step, answer, Body.step, stored, Body.chunkTranscript_fitting fitting]
    rfl
  refine .goOn splits ?_
  obtain ⟨next, replaced⟩ := replaceChunks_numbered finds.orderly.transcribed stored fresh
  have replaces : Phase.step 0 db
      (.executing job run (.replacing (Body.numbered (Chunk.split transcript))))
      (outside.answer (place + 1)
        (.executing job run (.replacing (Body.numbered (Chunk.split transcript))))) =
      some ⟨some (.finishing job run (.ok ())), next, []⟩ := by
    simp only [Phase.step, answer, Body.step, replaced, Body.settle]
    rfl
  have moved := replaceChunks_rest replaced
  have same : db.SamePipeline next := by
    rw [moved]
    exact ⟨rfl, rfl⟩
  have transcripts : next.transcripts = db.transcripts := by rw [moved]
  obtain ⟨_, keys⟩ := replaceChunks_ok replaced finds.orderly.keys
  exact .goOn replaces (rest next same (splits_replace replaced finds.orderly.keys) transcripts
    ((finds.later ticks).of_same ticks same keys
    (finds.orderly.transcribed.of_same same transcripts)))

/-- The tables since the embedding began: the embeddings of the chunks that are done are
their vectors, and nothing else has changed. -/
structure Embedded (outside : Outside) (start : Db) (done : List ChunkRow) (db : Db) : Prop where
  rest : db = { start with embeddings := db.embeddings }
  stored : ∀ chunk ∈ done, chunk ∈ start.chunks ∧
    db.embeddingsOf chunk.id = [outside.vectorOf (embeddingInput chunk)]

omit [Isolang] in
theorem Embedded.chunks {start : Db} {done : List ChunkRow}
    (embedded : outside.Embedded start done db) : db.chunks = start.chunks := by
  rw [embedded.rest]

omit [Isolang] in
theorem Embedded.store {start next : Db} {done : List ChunkRow} {chunk : ChunkRow}
    (embedded : outside.Embedded start done db) (keys : db.ContentKeys)
    (member : chunk ∈ start.chunks)
    (stored : storeEmbedding chunk.id (outside.vectorOf (embeddingInput chunk)) db = .ok next) :
    outside.Embedded start (done ++ [chunk]) next where
  rest := by rw [storeEmbedding_rest stored, embedded.rest]
  stored := by
    have unique : (start.chunks.map (·.id)).Nodup := by
      exact embedded.chunks ▸ keys.chunks
    have written := embeddingsOf_store stored keys
    intro other isDone
    rcases List.mem_append.mp isDone with isDone | isLast
    · obtain ⟨isChunk, before⟩ := embedded.stored other isDone
      refine ⟨isChunk, ?_⟩
      rw [written]
      split
      · rw [List.inj_on_of_nodup_map unique isChunk member ‹_›]
      · exact before
    · obtain rfl := List.mem_singleton.mp isLast
      exact ⟨member, by rw [written, if_pos rfl]⟩

omit [Isolang] in
theorem storeEmbedding_returns {chunk : ChunkRow} (vectors : outside.Vectors)
    (member : chunk ∈ db.chunks) :
    ∃ next, storeEmbedding chunk.id (outside.vectorOf (embeddingInput chunk)) db = .ok next := by
  obtain ⟨dimension, finite⟩ := vectors (embeddingInput chunk)
  have known : db.chunks.any (·.id = chunk.id) = true :=
    List.any_eq_true.mpr ⟨chunk, member, by simp⟩
  simp only [storeEmbedding, dimension, finite, known, ne_eq, not_true_eq_false, decide_false,
    Bool.not_true, Bool.or_self, Bool.false_eq_true, ↓reduceIte]
  split <;> exact ⟨_, rfl⟩

def pairs (outside : Outside) (batch : List ChunkRow) : List (ChunkRow × List F32) :=
  batch.map fun chunk => (chunk, outside.vectorOf (embeddingInput chunk))

theorem Processes.store {job : IngestionJob} {run : IngestionStepRun} {start : Db}
    {batch left : List ChunkRow} {done : List ChunkRow} (vectors : outside.Vectors)
    (ticks : outside.Ticks) (embedded : outside.Embedded start done db)
    (inBatch : ∀ chunk ∈ batch, chunk ∈ start.chunks) (finds : outside.Finds place db)
    (rest : ∀ later next, outside.Embedded start (done ++ batch) next → outside.Finds later next →
      outside.Processes later (Phase.ofWork job run (Body.store [] left)) next post) :
    outside.Processes place (Phase.ofWork job run (Body.store (outside.pairs batch) left)) db
      post := by
  induction batch generalizing place db done with
  | nil => exact rest place db (by simpa using embedded) finds
  | cons chunk batch induction =>
      have member := inBatch chunk (List.mem_cons_self ..)
      obtain ⟨next, stored⟩ := storeEmbedding_returns vectors (embedded.chunks ▸ member)
      have taken : Phase.step 0 db
          (Phase.ofWork job run (Body.store (outside.pairs (chunk :: batch)) left))
          (outside.answer place
            (Phase.ofWork job run (Body.store (outside.pairs (chunk :: batch)) left))) =
          some ⟨some (Phase.ofWork job run (Body.store (outside.pairs batch) left)), next, []⟩ := by
        simp only [pairs, List.map_cons, Body.store, Phase.ofWork, answer, Phase.step, Body.step,
          stored, Body.settle]
        rfl
      obtain ⟨_, keys, _⟩ := storeEmbedding_ok stored finds.orderly.keys
      have moved := storeEmbedding_rest stored
      have same : db.SamePipeline next := by
        rw [moved]
        exact ⟨rfl, rfl⟩
      refine .goOn taken (induction (embedded.store finds.orderly.keys member stored)
        (fun other inRest => inBatch other (List.mem_cons_of_mem _ inRest))
        (finds.of_same ticks same keys
          (finds.orderly.transcribed.of_same same (by rw [moved])))
        fun later after embedded finds => rest later after ?_ finds)
      simpa using embedded

omit [Isolang] in
theorem embed_vectors {chunks : List ChunkRow} (vectors : outside.Vectors) :
    embed (chunks.map embeddingInput)
      (.ok (chunks.map fun chunk => outside.vectorOf (embeddingInput chunk))) =
      .ok (chunks.map fun chunk => outside.vectorOf (embeddingInput chunk)) := by
  have checked : checkEmbeddings (chunks.map embeddingInput).length
      (chunks.map fun chunk => outside.vectorOf (embeddingInput chunk)) = .ok () := by
    have none : ((chunks.map fun chunk => outside.vectorOf (embeddingInput chunk)).zipIdx.find?
        fun entry => decide (entry.1.length ≠ embeddingDim)) = none := by
      refine List.find?_eq_none.mpr fun entry member wrong => ?_
      obtain ⟨chunk, _, isVector⟩ := List.mem_map.mp (List.fst_mem_of_mem_zipIdx member)
      exact of_decide_eq_true wrong (isVector ▸ (vectors _).1)
    rw [checkEmbeddings, if_neg (by simp), none]
  rw [embed]
  split
  · rename_i empty
    simp [List.map_eq_nil_iff.mp empty]
  · simp only [Bind.bind, Except.bind, checked]
    rfl

theorem step_embedding {job : IngestionJob} {run : IngestionStepRun} {left : List ChunkRow}
    (vectors : outside.Vectors) (nonempty : left ≠ []) :
    Phase.step 0 db (Phase.ofWork job run (Body.store [] left))
      (outside.answer place (Phase.ofWork job run (Body.store [] left))) =
      some ⟨some (Phase.ofWork job run
        (Body.store (outside.pairs (left.take embedBatch)) (left.drop embedBatch))), db,
        [.embedded ((left.take embedBatch).map embeddingInput)
          ((left.take embedBatch).map fun chunk => outside.vectorOf (embeddingInput chunk))]⟩ := by
  have isBatch : Body.store [] left = .more (.embedding left) := by
    cases left with
    | nil => contradiction
    | cons => rfl
  have zipped : (left.take embedBatch).zip
      ((left.take embedBatch).map fun chunk => outside.vectorOf (embeddingInput chunk)) =
      outside.pairs (left.take embedBatch) := by
    have both : ((left.take embedBatch).map id).zip
        ((left.take embedBatch).map fun chunk => outside.vectorOf (embeddingInput chunk)) =
        (left.take embedBatch).map fun chunk =>
          (id chunk, outside.vectorOf (embeddingInput chunk)) := List.zip_map'
    rwa [List.map_id] at both
  simp only [isBatch, Phase.ofWork, answer, Phase.step, Body.step, embed_vectors vectors, zipped,
    Option.map_some]

theorem Processes.embed {job : IngestionJob} {run : IngestionStepRun} {start : Db}
    {left done : List ChunkRow} (vectors : outside.Vectors) (ticks : outside.Ticks)
    (embedded : outside.Embedded start done db) (inLeft : ∀ chunk ∈ left, chunk ∈ start.chunks)
    (finds : outside.Finds place db)
    (rest : ∀ later next, outside.Embedded start (done ++ left) next → outside.Finds later next →
      outside.Processes later (.finishing job run (.ok ())) next post) :
    outside.Processes place (Phase.ofWork job run (Body.store [] left)) db post := by
  generalize count : left.length = length
  induction length using Nat.strong_induction_on generalizing left done place db with
  | _ length induction =>
      cases left with
      | nil => exact rest place db (by simpa using embedded) finds
      | cons chunk others =>
          have nonempty : chunk :: others ≠ [] := by simp
          generalize chunk :: others = left at *
          refine .goOn (step_embedding vectors nonempty) (Processes.store vectors ticks embedded
            (fun other member => inLeft other (List.mem_of_mem_take member)) (finds.later ticks)
            fun later next embedded finds => ?_)
          refine induction _ ?_ embedded (fun other member => inLeft other
            (List.mem_of_mem_drop member)) finds (fun later next embedded finds => ?_) rfl
          · have positive := List.length_pos_iff.mpr nonempty
            rw [← count, List.length_drop, embedBatch]
            omega
          · refine rest later next ?_ finds
            rwa [List.append_assoc, List.take_append_drop] at embedded

end Outside

/-! Phase 2 as a whole. -/

/-- The job is completed, and its index is that of the transcript. -/
structure Db.Delivers (db : Db) (vectorOf : Text → List F32) (job : Uuid) (transcript : Text) :
    Prop where
  completed : (db.job? job).map (·.step) = some .completed
  reviewed : db.transcript? job = some transcript
  splits : db.Splits job transcript
  embedded : ∀ chunk ∈ db.chunksOf job, db.embeddingsOf chunk.id =
    [vectorOf (if chunk.heading = [] then chunk.content
      else chunk.heading ++ ['\n', '\n'] ++ chunk.content)]

/-- Nothing outside stands in the way: clocks advance, drawn ids are new, and the embedder
returns vectors that can be stored. -/
structure Outside.Regular (outside : Outside) (db : Db) (transcript : Text) : Prop where
  clock : db.Before (outside.env 0).now
  ticks : outside.Ticks
  runs : ∀ place, ∀ row ∈ db.runs, row.id ≠ (outside.env place).runId
  chunks : ∀ place, (outside.env place).Fresh db (Chunk.split transcript).length
  vectors : outside.Vectors

namespace Outside

variable {outside : Outside} {db : Db} {job : Uuid} {transcript : Text}

theorem Processes.index {place : Nat} {run : IngestionStepRun} {row : JobRow}
    (ticks : outside.Ticks) (vectors : outside.Vectors) (finds : outside.Finds place db)
    (found : db.job? job = some row) (onEmbed : row.step = .embed) (ofJob : run.jobId = job)
    (ofEmbed : run.step = .embed) {current : StepRunRow} (newest : db.Newest current)
    (isCurrent : Is run current) (running : current.status = .running)
    (stored : db.transcript? job = some transcript) (fitting : Chunk.Fitting transcript)
    (splits : db.Splits job transcript) :
    outside.Processes place (.loading job run) db (·.Delivers outside.vectorOf job transcript) := by
  refine .load finds found fun loaded isJob => ?_
  subst isJob
  rw [onEmbed]
  -- A fitting transcript has chunks, so there are some to embed.
  have nonempty : db.chunksOf loaded.id ≠ [] := by
    intro empty
    rw [Db.Splits, empty, List.map_nil] at splits
    have none := congrArg List.length splits
    rw [Body.length_numbered] at none
    exact fitting.1 (List.length_eq_zero_iff.mp none.symm)
  have listed : Phase.step 0 db (.executing loaded run .listing)
      (outside.answer (place + 1) (.executing loaded run .listing)) =
      some ⟨some (Phase.ofWork loaded run (Body.store [] (db.chunksOf loaded.id))), db, []⟩ := by
    simp only [Phase.step, answer, Body.step]
    cases known : db.chunksOf loaded.id with
    | nil => exact absurd known nonempty
    | cons => rfl
  refine .goOn listed ?_
  have inJob : ∀ chunk ∈ db.chunksOf loaded.id, chunk ∈ db.chunks := fun chunk member =>
    (mem_chunksOf.mp member).1
  have begun : outside.Embedded db [] db := ⟨rfl, by simp⟩
  refine .embed vectors ticks begun inJob ((finds.later ticks).later ticks)
    fun later after embedded finds => ?_
  have sameRow : after.job? loaded.id = some row := by
    rw [embedded.rest]
    exact found
  have ofLoaded : current.jobId = loaded.id := isCurrent.jobId.symm.trans ofJob
  have same : db.SamePipeline after := by
    rw [embedded.rest]
    exact ⟨rfl, rfl⟩
  refine .finish finds ticks (newest.of_same same) isCurrent (by rw [ofLoaded, sameRow]; rfl)
    running fun final sets newest idle finds => ?_
  rw [if_neg (by simp [ofEmbed])]
  have lastRow : final.job? loaded.id = some row := (sets.job? _).trans sameRow
  let completed := final.apply (.setStep loaded.id .completed)
  have chunks : completed.chunks = db.chunks := sets.chunks.trans embedded.chunks
  have sameChunks : completed.chunksOf loaded.id = db.chunksOf loaded.id := by
    rw [Db.chunksOf, Db.chunksOf, chunks]
  have transcripts : completed.transcripts = db.transcripts :=
    sets.transcripts.trans (by rw [embedded.rest])
  have embeddings : completed.embeddings = after.embeddings := sets.embeddings
  have sameTranscript : completed.transcript? loaded.id = some transcript :=
    (transcript?_eq transcripts loaded.id).trans stored
  refine .complete finds lastRow onEmbed newest ofLoaded (isCurrent.step.symm.trans ofEmbed) rfl
    ⟨?_, sameTranscript, ?_, fun chunk isChunk => ?_⟩
  · have isId : row.id = loaded.id := by simpa using List.find?_some found
    rw [job?_setStep, lastRow, Option.map_some, if_pos isId]
    rfl
  · rw [Db.Splits, sameChunks]
    exact splits
  · have vector := (embedded.stored chunk (by simpa using sameChunks ▸ isChunk)).2
    rw [Db.embeddingsOf] at vector ⊢
    rwa [embeddings]

theorem Processes.phaseTwo {run : StepRunRow} {row : JobRow} (orderly : db.Orderly)
    (regular : outside.Regular db transcript) (found : db.job? job = some row)
    (onChunk : row.step = .chunk) (member : run ∈ db.runs) (ofJob : run.jobId = job)
    (pending : run.status = .pending) (stored : db.transcript? job = some transcript)
    (fitting : Chunk.Fitting transcript) :
    outside.Processes 0 (.claiming job) db (·.Delivers outside.vectorOf job transcript) := by
  have known := Db.history_of_found found
  have shaped := orderly.shaped.histories _ _ known
  have inHistory : run ∈ db.runsOf job := List.mem_filter.mpr ⟨member, by simpa using ofJob⟩
  have ofChunk : run.step = .chunk :=
    (shaped.active run inHistory (by rw [pending]; rfl)).trans onChunk
  have others : ∀ other ∈ db.runs, other.jobId = run.jobId → other.id ≠ run.id →
      other.startedAt.isSome := by
    intro other isOther ofOther apart
    have stored : other ∈ db.runsOf job :=
      List.mem_filter.mpr ⟨isOther, by simpa using ofOther.trans ofJob⟩
    refine (orderly.started _ _ known).started (by simp [onChunk]) other stored fun same => apart ?_
    rw [shaped.eq_of_step stored inHistory (same.trans (onChunk.trans ofChunk.symm))
      (by simp [same, onChunk])]
  refine .claim ⟨orderly, regular.clock⟩ regular.ticks member ofJob pending
    fun value claimed isRow claims finds => ?_
  have claimedRow : claimed.job? job = some row := (claims.job? _).trans found
  refine .load finds claimedRow fun loaded isLoaded => ?_
  subst isLoaded
  rw [onChunk]
  have isStored : claimed.transcript? loaded.id = some transcript :=
    (transcript?_eq claims.transcripts _).trans stored
  have fresh : (outside.env 3).Fresh claimed (Chunk.split transcript).length := by
    obtain ⟨new, apart⟩ := regular.chunks 3
    exact ⟨claims.chunks.symm ▸ new, apart⟩
  refine .chunk (finds.later regular.ticks) regular.ticks isStored fitting fresh
    fun split same splits transcripts finds => ?_
  have splitRow : split.job? loaded.id = some row := (same.job? _).trans claimedRow
  have newest := (claims.newest_of_claim regular.clock others).of_same same
  refine .finish finds regular.ticks newest ⟨isRow.id, isRow.jobId, isRow.step⟩
    (by simp [StepRunRow.claim, ofJob, splitRow]) rfl fun after ends newest idle finds => ?_
  rw [if_neg (by simp [isRow.step, ofChunk])]
  have unused : ∀ other ∈ after.runs, other.id ≠ (outside.env 5).runId :=
    ends.fresh (same.runs ▸ claims.fresh (regular.runs 5))
  refine .advance finds regular.ticks unused ((ends.job? _).trans splitRow) onChunk newest
    ofJob ofChunk rfl (fun other isOther ofLoaded => idle other isOther (ofLoaded.trans ofJob.symm))
    fun begun next current newest isCurrent running ofLoaded isEmbed nextRow finds nextTranscripts
      nextChunks _ => ?_
  refine .index regular.ticks regular.vectors finds nextRow rfl ofLoaded isEmbed newest isCurrent
    running ?_ fitting ?_
  · exact (transcript?_eq (nextTranscripts.trans (ends.transcripts.trans transcripts)) _).trans
      isStored
  · have sameChunks : next.chunksOf loaded.id = split.chunksOf loaded.id := by
      rw [Db.chunksOf, Db.chunksOf, nextChunks, ends.chunks]
    rw [Db.Splits, sameChunks]
    exact splits

/-! Phase 1, up to the validation. -/

theorem Processes.extract {place : Nat} {job : IngestionJob} {run : IngestionStepRun} {row : JobRow}
    {post : Db → Prop} (finds : outside.Finds place db) (ticks : outside.Ticks)
    (found : db.job? job.id = some row) (text : storable outside.document = true)
    (rest : ∀ next, db.SamePipeline next → next.transcript? job.id = some outside.document →
      outside.Finds (place + 2) next →
      outside.Processes (place + 2) (.finishing job run (.ok ())) next post) :
    outside.Processes place (.executing job run .extracting) db post := by
  have extracts : Phase.step 0 db (.executing job run .extracting)
      (outside.answer place (.executing job run .extracting)) =
      some ⟨some (.executing job run (.upserting outside.document)), db, []⟩ := rfl
  refine .goOn extracts ?_
  have known : (db.job? job.id).isSome = true := by rw [found]; rfl
  obtain ⟨next, written⟩ := upsertTranscript_isOk text known
  have upserts : Phase.step 0 db (.executing job run (.upserting outside.document))
      (outside.answer (place + 1) (.executing job run (.upserting outside.document))) =
      some ⟨some (.finishing job run (.ok ())), next,
        [.wrote job.id ((db.job? job.id).map (·.step))]⟩ := by
    simp only [Phase.step, answer, Body.step, Body.upsert, written, Body.settle, Except.isOk,
      Except.toBool, ↓reduceIte]
    rfl
  obtain ⟨chunks, embeddings⟩ := (upsertTranscript_ok written).content
  have keys : next.ContentKeys :=
    ⟨chunks ▸ finds.orderly.keys.chunks, embeddings ▸ finds.orderly.keys.embeddings⟩
  have same := (upsertTranscript_ok written).same
  have later := (finds.later ticks).of_same ticks same keys
    (finds.orderly.transcribed.upsert written)
  exact .goOn upserts (rest next same (upsertTranscript_ok written).own later)

def Reviewable (job : Uuid) (document : Text) (reviewed : Db) : Prop :=
  reviewed.transcript? job = some document ∧
    ∀ env : Env, reviewed.Before env.now → (∀ row ∈ reviewed.runs, row.id ≠ env.runId) →
      ∃ run, (Operation.exec env (.validate job) reviewed).result = .ok (.run run) ∧
        ∀ indexing : Outside,
          indexing.Regular (Operation.exec env (.validate job) reviewed).db document →
          indexing.Processes 0 (.claiming job) (Operation.exec env (.validate job) reviewed).db
            (·.Delivers indexing.vectorOf job document)

/-- A job whose transcript is stored, whose last run succeeded and whose other runs have
started before. -/
theorem reviewable {row : JobRow} {last : StepRunRow} (orderly : db.Orderly)
    (found : db.job? job = some row) (onExtract : row.step = .extract)
    (stored : db.transcript? job = some transcript) (fitting : Chunk.Fitting transcript)
    (idle : ∀ other ∈ db.runsOf job, other.status.isActive = false)
    (newest : db.Newest last) (ofJob : last.jobId = job) (ofExtract : last.step = .extract)
    (succeeded : last.status = .succeeded) : Reviewable job transcript db := by
  refine ⟨stored, fun env clock fresh => ?_⟩
  have known := Db.history_of_found found
  have shaped := orderly.shaped.histories _ _ known
  have latest := newest.succeeded orderly.shaped.runs orderly.started known ofJob succeeded env.tie
  rw [ofExtract] at latest
  have attempt : nextAttempt .chunk (db.runsOf job) = 1 := by
    rw [onExtract] at shaped
    exact shaped.nextAttempt_chunk
  obtain ⟨locked, decoded⟩ := orderly.shaped.toKeyed.tryInto_job found
  obtain ⟨value, mapped, validated⟩ :=
    exec_validate found decoded onExtract latest fresh idle (attempt ▸ by decide)
  refine ⟨value, by rw [validated], fun indexing regular => ?_⟩
  have effect := exec_effect env (.validate job) db
  have later := effect.orderly rfl orderly
  have transcripts := effect.transcripts
  rw [validated] at later transcripts regular ⊢
  have isId : row.id = job := by simpa using List.find?_some found
  have nextRow : ((db.apply (.setStep job .chunk)).apply
      (.insertRun (newRun env job .chunk .pending none db))).job? job =
      some { row with step := .chunk } := by
    have step := job?_setStep db job job .chunk
    rw [found, Option.map_some, if_pos isId] at step
    exact step
  exact .phaseTwo later regular nextRow rfl
    (List.mem_append_right _ (List.mem_singleton_self _)) rfl rfl
    ((transcript?_eq transcripts job).trans stored) fitting

theorem Processes.phaseOne {run : StepRunRow} {row : JobRow} (orderly : db.Orderly)
    (clock : db.Before (outside.env 0).now) (ticks : outside.Ticks)
    (found : db.job? job = some row) (onExtract : row.step = .extract) (member : run ∈ db.runs)
    (ofJob : run.jobId = job) (pending : run.status = .pending)
    (others : ∀ other ∈ db.runs, other.jobId = job → other.id ≠ run.id → other.startedAt.isSome)
    (text : storable outside.document = true) (fitting : Chunk.Fitting outside.document) :
    outside.Processes 0 (.claiming job) db (Reviewable job outside.document) := by
  have known := Db.history_of_found found
  have ofExtract : run.step = .extract := by
    have inHistory : run ∈ db.runsOf job := List.mem_filter.mpr ⟨member, by simpa using ofJob⟩
    have shaped := orderly.shaped.histories _ _ known
    exact (shaped.active run inHistory (by rw [pending]; rfl)).trans onExtract
  refine .claim ⟨orderly, clock⟩ ticks member ofJob pending
    fun value claimed isRow claims finds => ?_
  have claimedRow : claimed.job? job = some row := (claims.job? _).trans found
  refine .load finds claimedRow fun loaded isLoaded => ?_
  subst isLoaded
  rw [onExtract]
  refine .extract (finds.later ticks) ticks claimedRow text fun extracted same stored finds => ?_
  have extractedRow : extracted.job? loaded.id = some row := (same.job? _).trans claimedRow
  have newest := (claims.newest_of_claim clock fun other isOther ofRun =>
    others other isOther (ofRun.trans ofJob)).of_same same
  refine .finish finds ticks newest ⟨isRow.id, isRow.jobId, isRow.step⟩
    (by simp [StepRunRow.claim, ofJob, extractedRow]) rfl fun reviewed ends newest idle finds => ?_
  rw [if_pos (isRow.step.trans ofExtract)]
  refine reviewable finds.orderly ((ends.job? _).trans extractedRow) onExtract
    ((transcript?_eq ends.transcripts _).trans stored) fitting (fun other isOther => ?_) newest
    ofJob ofExtract rfl
  obtain ⟨isStored, ofLoaded⟩ := List.mem_filter.mp isOther
  exact idle other isStored ((of_decide_eq_true ofLoaded).trans ofJob.symm)

end Outside

/-! The states of the system. -/

theorem BodyStep.orderly {job : Uuid} {db next : Db} {body : Body} {answer : Answer} {work : Work}
    {observed : List Observation} (step : BodyStep job db body answer work next observed)
    (orderly : db.Orderly) : next.Orderly := by
  have same := step.same
  have whole := step
  cases step with
  | broke | extracted | split | listed | embedded => exact orderly
  | upserted written =>
      obtain ⟨chunks, embeddings⟩ := (upsertTranscript_ok written).content
      have keys : next.ContentKeys :=
        ⟨chunks ▸ orderly.keys.chunks, embeddings ▸ orderly.keys.embeddings⟩
      exact orderly.of_same same keys (orderly.transcribed.upsert written)
  | replaced replaced =>
      exact orderly.of_same same (replaceChunks_ok replaced orderly.keys).2
        (orderly.transcribed.of_same same (whole.transcripts (by simp [Body.ofStep])))
  | stored stored =>
      obtain ⟨_, keys, _⟩ := storeEmbedding_ok stored orderly.keys
      exact orderly.of_same same keys
        (orderly.transcribed.of_same same (whole.transcripts (by simp [Body.ofStep])))

theorem Took.orderly {system next : System} {event : Event} (took : Took system event next)
    (orderly : system.db.Orderly) : next.db.Orderly := by
  cases took with
  | called byOperator =>
      exact (exec_effect ..).orderly (Operation.pipeline_of_byOperator byOperator).1 orderly
  | @moved service task answer result working step =>
      obtain ⟨drive, phase⟩ := task
      cases step with
      | vanished | failed | entered => exact orderly
      | claimed | unclaimed | finished | unfinished | advanced | stopped =>
          exact (exec_effect ..).orderly rfl orderly
      | dropped issues => exact (exec_effect ..).orderly issues.isBegin orderly
      | worked step => exact step.orderly orderly
  | processed | switched | crashed | seated => exact orderly
  | edited _ step =>
      cases step with
      | ended | checked | read | changed => exact orderly
      | saved written =>
          obtain ⟨chunks, embeddings⟩ := (upsertTranscript_ok written).content
          exact orderly.of_same (upsertTranscript_ok written).same
            ⟨chunks ▸ orderly.keys.chunks, embeddings ▸ orderly.keys.embeddings⟩
            (orderly.transcribed.upsert written)

theorem orderly_of_reachable {system : System} (reachable : system.Reaches) :
    system.db.Orderly := by
  have kept : ∀ state event next, state.db.Orderly →
      System.Events (fun _ _ => True) state event next → next.db.Orderly :=
    fun _ _ _ orderly taken => (System.step?_cases taken.2).orderly orderly
  have initially : ∀ start : System, start.Initial → start.db.Orderly := by
    intro start initial
    refine ⟨⟨initial.db.keyed, fun job history known => ?_⟩, fun job history known => ?_, ⟨?_, ?_⟩,
      ⟨?_, ?_⟩⟩
    · simp [initial.db.history job] at known
    · simp [initial.db.history job] at known
    all_goals simp [initial.db.chunks, initial.db.embeddings, initial.db.transcripts]
  have orderly := reachable.invariant initially kept
  exact orderly

/-- Whatever has happened before, a job whose `chunk` run is pending is taken to its end by
a call of `process` that nothing fails and nobody disturbs: the call returns, and leaves the
job completed and its index that of its transcript. -/
theorem undisturbed_process_completes {system : System} (reachable : system.Reaches) {job : Uuid}
    {row : JobRow} (found : system.db.job? job = some row) (onChunk : row.step = .chunk)
    {run : StepRunRow} (member : run ∈ system.db.runs) (ofJob : run.jobId = job)
    (pending : run.status = .pending) {transcript : Text}
    (stored : system.db.transcript? job = some transcript) (fitting : Chunk.Fitting transcript)
    {outside : Outside} (regular : outside.Regular system.db transcript) :
    outside.Processes 0 (.claiming job) system.db (·.Delivers outside.vectorOf job transcript) :=
  .phaseTwo (orderly_of_reachable reachable) regular found onChunk member ofJob pending stored
    fitting

/-- And a job whose `extract` run is pending, and none of whose earlier runs was aborted
before it started, by a call of `process`, its validation and another call. -/
theorem undisturbed_pipeline_delivers {system : System} (reachable : system.Reaches) {job : Uuid}
    {row : JobRow} (found : system.db.job? job = some row) (onExtract : row.step = .extract)
    {run : StepRunRow} (member : run ∈ system.db.runs) (ofJob : run.jobId = job)
    (pending : run.status = .pending)
    (others : ∀ other ∈ system.db.runs, other.jobId = job → other.id ≠ run.id →
      other.startedAt.isSome)
    {reading : Outside} (clock : system.db.Before (reading.env 0).now) (ticks : reading.Ticks)
    (text : storable reading.document = true) (fitting : Chunk.Fitting reading.document) :
    reading.Processes 0 (.claiming job) system.db (Outside.Reviewable job reading.document) :=
  .phaseOne (orderly_of_reachable reachable) clock ticks found onExtract member ofJob pending others
    text fitting

end

section

attribute [local instance] english

def calm : Outside where
  env place := ⟨20 + place, ⟨50⟩, ⟨100⟩, fun index => ⟨BitVec.ofNat 128 (1000 + index)⟩, fun _ => 0⟩
  document := ['x']
  vectorOf _ := Attempt.origin

theorem calm_vectors : calm.Vectors := by
  have long : Attempt.origin.length = vectorDim := by decide +kernel
  have finite : Attempt.origin.all F32.isFinite = true := by decide +kernel
  exact fun _ => ⟨long, finite⟩

theorem calm_ticks : calm.Ticks := by
  intro place
  have ordered : (place : Int) < ((place + 1 : Nat) : Int) := by omega
  exact Int.add_lt_add_left ordered 20

theorem fitting_x : Chunk.Fitting ['x'] := by
  have one : Chunk.split ['x'] = [⟨[], 1, ['x']⟩] := by decide
  rw [Chunk.Fitting, one]
  refine ⟨by simp, fun index chunk known => ?_⟩
  obtain rfl | ⟨index, rfl⟩ : index = 0 ∨ ∃ before, index = before + 1 := by
    cases index <;> simp
  · obtain rfl := Option.some.inj known
    decide
  · simp at known

theorem undisturbed_process_completes_after_review :
    let system := System.after (fun _ _ => true) deployment
      (toReview ++ [byOperator 6 (.validate firstJob)])
    calm.Processes 0 (.claiming firstJob) system.db (·.Delivers calm.vectorOf firstJob ['x']) := by
  intro system
  have onChunk : (system.db.job? firstJob).map (·.step) = some .chunk := by decide +kernel
  obtain ⟨row, found, step⟩ := Option.map_eq_some_iff.mp onChunk
  have waiting : ∃ run ∈ system.db.runs, run.jobId = firstJob ∧ run.status = .pending := by
    decide +kernel
  obtain ⟨run, member, ofJob, pending⟩ := waiting
  refine undisturbed_process_completes
    (System.reachable_after (fun _ _ _ => trivial) deployment_initial (by decide +kernel))
    found step member ofJob pending (by decide +kernel) fitting_x
    ⟨by decide +kernel, calm_ticks, ?_, ?_, calm_vectors⟩
  · intro place
    have fresh : ∀ row ∈ system.db.runs, row.id ≠ ⟨100⟩ := by decide +kernel
    exact fresh
  · intro place
    have none : system.db.chunks = [] := by decide +kernel
    have one : (Chunk.split ['x']).length = 1 := by decide
    rw [one]
    refine ⟨fun index _ isStored => ?_, fun _ _ _ _ => by omega⟩
    rw [none] at isStored
    exact absurd isStored List.not_mem_nil

theorem undisturbed_pipeline_delivers_after_start :
    let system := System.after (fun _ _ => true) deployment [byOperator 1 (.start rulebook)]
    calm.Processes 0 (.claiming firstJob) system.db (Outside.Reviewable firstJob ['x']) := by
  intro system
  have onExtract : (system.db.job? firstJob).map (·.step) = some .extract := by decide +kernel
  obtain ⟨row, found, step⟩ := Option.map_eq_some_iff.mp onExtract
  have waiting : ∃ run ∈ system.db.runs, run.jobId = firstJob ∧ run.status = .pending ∧
      ∀ other ∈ system.db.runs, other.jobId = firstJob → other.id ≠ run.id →
        other.startedAt.isSome := by decide +kernel
  obtain ⟨run, member, ofJob, pending, others⟩ := waiting
  exact undisturbed_pipeline_delivers
    (System.reachable_after (fun _ _ _ => trivial) deployment_initial (by decide +kernel))
    found step member ofJob pending others (by decide +kernel) calm_ticks (by decide) fitting_x

end

end Zyndeck
