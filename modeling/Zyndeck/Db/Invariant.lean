import Zyndeck.Db.Shape

namespace Zyndeck

open Data

/-! What a call does to the table of runs. -/

structure StepRunRow.New (now : Timestamp) (row : StepRunRow) : Prop where
  start : row.status = .pending ∧ row.startedAt = none ∨
    row.status = .running ∧ row.startedAt = some now
  completedAt_eq : row.completedAt = none
  error_eq : row.error = none

inductive RunsStep (now : Timestamp) (runs : List StepRunRow) : List StepRunRow → Prop
  | evolved (evolve : StepRunRow → StepRunRow)
      (each : ∀ row, StepRunRow.Evolves now row (evolve row)) :
      RunsStep now runs (runs.map evolve)
  | appended (apart : ∀ other ∈ runs, StepRunRow.clashes run other = false)
      (new : StepRunRow.New now run) : RunsStep now runs (runs ++ [run])

theorem RunsStep.refl (now : Timestamp) (runs : List StepRunRow) : RunsStep now runs runs := by
  have step : RunsStep now runs (runs.map id) := .evolved id fun _ => .kept
  simpa using step

theorem RunsStep.of_updateRuns {now : Timestamp} {db : Db} {hit : StepRunRow → Bool}
    {set : StepRunRow → StepRunRow}
    (each : ∀ row, hit row = true → StepRunRow.Evolves now row (set row)) :
    RunsStep now db.runs (db.updateRuns hit set).2.runs :=
  .evolved _ fun row => evolves_updateWhere each row

theorem insertRun_apart {env : Env} {job : Uuid} {step : IngestionStep}
    {status : RunStatus} {startedAt : Option Timestamp} {db : Db} {run : StepRunRow}
    (inserted : insertRun env job step status startedAt db = .ok run) :
    ∀ other ∈ db.runs, run.clashes other = false :=
  (insertRun_ok.mp inserted).2.2.2.1

theorem enqueue_new {env : Env} {job : Uuid} {step : IngestionStep} {db : Db}
    {run : StepRunRow} (inserted : enqueue env job step db = .ok run) : run.New env.now := by
  obtain ⟨rfl, _⟩ := insertRun_ok.mp inserted
  exact ⟨.inl ⟨rfl, rfl⟩, rfl, rfl⟩

theorem begin_new {env : Env} {job : Uuid} {step : IngestionStep} {db : Db}
    {run : StepRunRow} (inserted : begin env job step db = .ok run) : run.New env.now := by
  obtain ⟨rfl, _⟩ := insertRun_ok.mp inserted
  exact ⟨.inr ⟨rfl, rfl⟩, rfl, rfl⟩

theorem RunsStep.nodup {now : Timestamp} {runs next : List StepRunRow}
    (step : RunsStep now runs next) (unique : (runs.map (·.id)).Nodup) :
    (next.map (·.id)).Nodup := by
  cases step with
  | evolved evolve each =>
      have same : (fun row : StepRunRow => row.id) ∘ evolve = (·.id) :=
        funext fun row => (each row).id_eq
      rwa [List.map_map, same]
  | @appended run apart new =>
      rw [List.map_append, List.nodup_append]
      refine ⟨unique, List.nodup_singleton _, fun known stored other isRun same => ?_⟩
      obtain ⟨row, member, rfl⟩ := List.mem_map.mp stored
      obtain rfl : other = run.id := by simpa using isRun
      have clear := apart row member
      simp [StepRunRow.clashes, same] at clear

def OneActive (runs : List StepRunRow) : Prop :=
  runs.Pairwise fun first second => first.jobId = second.jobId →
    ¬ (first.status.isActive = true ∧ second.status.isActive = true)

theorem RunsStep.oneActive {now : Timestamp} {runs next : List StepRunRow}
    (step : RunsStep now runs next) (one : OneActive runs) : OneActive next := by
  cases step with
  | evolved evolve each =>
      refine List.pairwise_map.mpr (one.imp fun {first second} never sameJob both => ?_)
      rw [(each first).jobId_eq, (each second).jobId_eq] at sameJob
      have wasActive : ∀ row, (evolve row).status.isActive = true → row.status.isActive = true :=
        fun row active => Bool.of_not_eq_false fun ended => by
          simp [(each row).inactive ended] at active
      exact never sameJob ⟨wasActive first both.1, wasActive second both.2⟩
  | @appended run apart new =>
      refine List.pairwise_append.mpr
        ⟨one, List.pairwise_singleton _ _, fun other member last isRun sameJob both => ?_⟩
      obtain rfl := List.mem_singleton.mp isRun
      have clear := apart other member
      simp [StepRunRow.clashes, sameJob, both] at clear

theorem OneActive.eq {runs : List StepRunRow} (one : OneActive runs)
    {first second : StepRunRow} (firstMember : first ∈ runs) (secondMember : second ∈ runs)
    (sameJob : first.jobId = second.jobId) (firstActive : first.status.isActive = true)
    (secondActive : second.status.isActive = true) : first = second := by
  refine Classical.byContradiction fun apart => ?_
  have symm : Std.Symm fun first second : StepRunRow => first.jobId = second.jobId →
      ¬ (first.status.isActive = true ∧ second.status.isActive = true) :=
    ⟨fun _ _ never sameJob both => never sameJob.symm both.symm⟩
  exact List.Pairwise.forall one firstMember secondMember apart sameJob
    ⟨firstActive, secondActive⟩

/-! What a call does to the table of jobs. -/

def JobRow.identity (row : JobRow) : Uuid × Text := (row.id, row.language)

inductive JobsStep [Isolang] (jobs : List JobRow) : List JobRow → Prop
  | kept (same : next.map JobRow.identity = jobs.map JobRow.identity) : JobsStep jobs next
  | appended (fresh : row.id ∉ jobs.map (·.id))
      (known : Isolang.from6391 row.language = true) : JobsStep jobs (jobs ++ [row])

theorem setStep_identity (db : Db) (job : Uuid) (step : IngestionStep) :
    (db.apply (.setStep job step)).jobs.map JobRow.identity = db.jobs.map JobRow.identity := by
  have kept : ∀ row : JobRow, JobRow.identity { row with step } = row.identity := fun _ => rfl
  exact map_updateWhere kept db.jobs

section

variable [Isolang]

theorem Effect.runsStep {env : Env} {db next : Db} {operation : Operation}
    {result : Except Error Output} (effect : Effect env db operation result next) :
    RunsStep env.now db.runs next.runs := by
  cases effect with
  | failed => exact .refl _ _
  | started _ inserted =>
      have apart := insertRun_apart inserted
      exact .appended apart (enqueue_new inserted)
  | claimed => exact .of_updateRuns (claim_evolves _ _)
  | finished => exact .of_updateRuns (finish_evolves _ _ _)
  | aborted => exact .of_updateRuns (abort_evolves _ _)
  | begun inserted => exact .appended (insertRun_apart inserted) (begin_new inserted)
  | restarted _ _ inserted =>
      exact .appended (insertRun_apart inserted) (enqueue_new inserted)
  | validated _ _ _ _ _ _ inserted =>
      exact .appended (insertRun_apart inserted) (enqueue_new inserted)
  | advanced _ _ _ _ _ _ inserted =>
      exact .appended (insertRun_apart inserted) (begin_new inserted)
  | completed => exact .refl _ _

theorem Effect.jobsStep {env : Env} {db next : Db} {operation : Operation}
    {result : Except Error Output} (effect : Effect env db operation result next) :
    JobsStep db.jobs next.jobs := by
  cases effect with
  | @started new row run _ created =>
      obtain ⟨rfl, fresh⟩ := createJob_ok created
      exact .appended fresh new.language.known
  | validated | advanced | completed => exact .kept (setStep_identity ..)
  | failed | claimed | finished | aborted | begun | restarted => exact .kept rfl

/-! The constraints of the two tables. -/

structure Db.Keyed (db : Db) : Prop where
  jobs : (db.jobs.map (·.id)).Nodup
  runs : (db.runs.map (·.id)).Nodup
  oneActive : OneActive db.runs
  referenced : db.Referenced
  languages : ∀ row ∈ db.jobs, Isolang.from6391 row.language = true

omit [Isolang] in
theorem Db.job?_isSome {db : Db} {job : Uuid} :
    (db.job? job).isSome ↔ job ∈ db.jobs.map (·.id) := by
  rw [← Option.ne_none_iff_isSome, ne_eq, Db.job?, find?_key_eq_none, not_not]

theorem JobsStep.subset {jobs next : List JobRow} (step : JobsStep jobs next) :
    jobs.map (·.id) ⊆ next.map (·.id) := by
  cases step with
  | kept same =>
      have ids := congrArg (List.map Prod.fst) same
      simp only [List.map_map] at ids
      exact fun id member => ids ▸ member
  | appended => simp

theorem Effect.job?_isSome {env : Env} {db next : Db} {operation : Operation}
    {result : Except Error Output} (effect : Effect env db operation result next)
    {job : Uuid} (found : (db.job? job).isSome) : (next.job? job).isSome :=
  Db.job?_isSome.mpr (effect.jobsStep.subset (Db.job?_isSome.mp found))

omit [Isolang] in
theorem insertRun_referenced {env : Env} {job : Uuid} {step : IngestionStep}
    {status : RunStatus} {startedAt : Option Timestamp} {db next : Db} {run : StepRunRow}
    (inserted : insertRun env job step status startedAt db = .ok run)
    (known : ∀ job, (db.job? job).isSome → (next.job? job).isSome)
    {runs : List StepRunRow} (referenced : ∀ old ∈ runs, (next.job? old.jobId).isSome) :
    ∀ other ∈ runs ++ [run], (next.job? other.jobId).isSome := by
  intro other member
  rcases List.mem_append.mp member with member | member
  · exact referenced other member
  · rw [List.mem_singleton.mp member, insertRun_jobId inserted]
    exact known job (insertRun_ok.mp inserted).2.2.2.2

theorem Effect.referenced {env : Env} {db next : Db} {operation : Operation}
    {result : Except Error Output} (effect : Effect env db operation result next)
    (referenced : db.Referenced) : next.Referenced := by
  have whole := effect
  have kept : ∀ old ∈ db.runs, (next.job? old.jobId).isSome := fun old member =>
    effect.job?_isSome (referenced old member)
  have updated : ∀ {hit set}, next = (db.updateRuns hit set).2 →
      (∀ row, hit row = true → StepRunRow.Evolves env.now row (set row)) → next.Referenced := by
    rintro hit set same each run member
    rw [same] at member
    obtain ⟨row, stored, rfl⟩ := List.mem_map.mp member
    rw [(evolves_updateWhere each row).jobId_eq]
    exact kept row stored
  cases effect with
  | failed => exact referenced
  | started _ inserted => exact insertRun_referenced inserted (fun _ found => found) kept
  | claimed => exact updated rfl (claim_evolves _ _)
  | finished => exact updated rfl (finish_evolves _ _ _)
  | aborted => exact updated rfl (abort_evolves _ _)
  | begun inserted =>
      exact insertRun_referenced inserted (fun _ => whole.job?_isSome) kept
  | restarted _ _ inserted =>
      exact insertRun_referenced inserted (fun _ => whole.job?_isSome) kept
  | validated _ _ _ _ _ _ inserted =>
      exact insertRun_referenced inserted (fun _ => whole.job?_isSome) kept
  | advanced _ _ _ _ _ _ inserted =>
      exact insertRun_referenced inserted (fun _ => whole.job?_isSome) kept
  | completed => exact kept

theorem JobsStep.nodup {jobs next : List JobRow} (step : JobsStep jobs next)
    (unique : (jobs.map (·.id)).Nodup) : (next.map (·.id)).Nodup := by
  cases step with
  | kept same =>
      have ids := congrArg (List.map Prod.fst) same
      simp only [List.map_map] at ids
      exact ids ▸ unique
  | @appended row fresh =>
      rw [List.map_append, List.nodup_append]
      refine ⟨unique, List.nodup_singleton _, fun known stored other isRow same => fresh ?_⟩
      obtain rfl : other = row.id := by simpa using isRow
      exact same ▸ stored

theorem JobsStep.languages {jobs next : List JobRow} (step : JobsStep jobs next)
    (known : ∀ row ∈ jobs, Isolang.from6391 row.language = true) :
    ∀ row ∈ next, Isolang.from6391 row.language = true := by
  intro row member
  cases step with
  | kept same =>
      have stored : row.identity ∈ jobs.map JobRow.identity :=
        same ▸ List.mem_map_of_mem member
      obtain ⟨old, oldMember, sameIdentity⟩ := List.mem_map.mp stored
      have sameLanguage : old.language = row.language := congrArg Prod.snd sameIdentity
      exact sameLanguage ▸ known old oldMember
  | appended _ language =>
      rcases List.mem_append.mp member with member | member
      · exact known row member
      · exact List.mem_singleton.mp member ▸ language

theorem Effect.keyed {env : Env} {db next : Db} {operation : Operation}
    {result : Except Error Output} (effect : Effect env db operation result next)
    (keyed : db.Keyed) : next.Keyed where
  jobs := effect.jobsStep.nodup keyed.jobs
  runs := effect.runsStep.nodup keyed.runs
  oneActive := effect.runsStep.oneActive keyed.oneActive
  referenced := effect.referenced keyed.referenced
  languages := effect.jobsStep.languages keyed.languages

/-! Runs of calls, and what holds in every state they reach. -/

structure Call where
  env : Env
  operation : Operation

/-- A call runs to its end, or it is cut off and its transaction rolled back. -/
inductive Performed : Db → Call → Db → Prop
  | ended : Performed db call (call.operation.exec call.env db).db
  | rolledBack : Performed db call db

def Calls (allowed : Db → Call → Prop) (db : Db) (call : Call) (next : Db) : Prop :=
  allowed db call ∧ Performed db call next

/-- The calls that run to their end, as a step function. -/
def perform? (allowed : Db → Call → Prop) [∀ db call, Decidable (allowed db call)]
    (db : Db) (call : Call) : Option Db :=
  if allowed db call then some (call.operation.exec call.env db).db else none

theorem calls_of_perform? {allowed : Db → Call → Prop} [∀ db call, Decidable (allowed db call)]
    {db next : Db} {call : Call} (taken : Steps (perform? allowed) db call next) :
    Calls allowed db call next := by
  simp only [Steps, perform?] at taken
  split at taken
  · exact ⟨‹_›, Option.some.inj taken ▸ .ended⟩
  · contradiction

theorem calls_of_exec {allowed : Db → Call → Prop} {env : Env} {operation : Operation}
    {db next : Db} {result : Except Error Output} {notified : List Uuid}
    (permitted : allowed db ⟨env, operation⟩)
    (ended : operation.exec env db = ⟨result, next, notified⟩) :
    Calls allowed db ⟨env, operation⟩ next := by
  have performed : Performed db ⟨env, operation⟩ (operation.exec env db).db := .ended
  rw [ended] at performed
  exact ⟨permitted, performed⟩

theorem Performed.effect {db next : Db} {call : Call} (performed : Performed db call next) :
    ∃ result, Effect call.env db call.operation result next := by
  cases performed with
  | ended => exact ⟨_, exec_effect ..⟩
  | rolledBack => exact ⟨.error (.query .invalidText), .failed _⟩

structure Db.Initial (db : Db) : Prop where
  jobs : db.jobs = []
  runs : db.runs = []
  transcripts : db.transcripts = []
  chunks : db.chunks = []
  embeddings : db.embeddings = []

omit [Isolang] in
theorem Db.Initial.history {db : Db} (initial : db.Initial) (job : Uuid) :
    db.history job = none := by
  simp [Db.history, Db.job?, initial.jobs]

theorem Db.Initial.keyed {db : Db} (initial : db.Initial) : db.Keyed where
  jobs := by simp [initial.jobs]
  runs := by simp [initial.runs]
  oneActive := by simp [OneActive, initial.runs]
  referenced := by simp [Db.Referenced, initial.runs]
  languages := by simp [initial.jobs]

def Operation.isBegin : Operation → Bool
  | .begin .. => true
  | _ => false

def Db.Before (db : Db) (now : Timestamp) : Prop :=
  ∀ row ∈ db.runs, (∀ start ∈ row.startedAt, start < now) ∧
    ∀ completed ∈ row.completedAt, completed < now

omit [Isolang] in
theorem Db.Before.mono {db : Db} {now later : Timestamp} (before : db.Before now)
    (le : now ≤ later) : db.Before later := fun row member =>
  ⟨fun start isStart => Int.lt_of_lt_of_le ((before row member).1 start isStart) le,
    fun ended isEnded => Int.lt_of_lt_of_le ((before row member).2 ended isEnded) le⟩

/-- The calls of the pipeline, by any clocks. -/
def Unclocked (_ : Db) (call : Call) : Prop := call.operation.isBegin = false

/-- The calls of the pipeline, by clocks that advance. -/
def Clocked (db : Db) (call : Call) : Prop :=
  db.Before call.env.now ∧ call.operation.isBegin = false

instance (db : Db) (now : Timestamp) : Decidable (db.Before now) :=
  inferInstanceAs (Decidable (∀ row ∈ db.runs, _))

instance (db : Db) (call : Call) : Decidable (Unclocked db call) :=
  inferInstanceAs (Decidable (_ = false))

instance (db : Db) (call : Call) : Decidable (Clocked db call) :=
  inferInstanceAs (Decidable (_ ∧ _))

theorem reachable_of_execute {allowed : Db → Call → Prop}
    [∀ db call, Decidable (allowed db call)] {start db : Db} {calls : List Call}
    (initial : start.Initial) (executed : execute (perform? allowed) start calls = some db) :
    Reachable Db.Initial (Calls allowed) db :=
  ⟨start, calls, initial,
    (run_of_execute executed).mono fun _ _ _ => calls_of_perform?⟩

theorem Effect.progress_of_pipeline {env : Env} {db next : Db} {operation : Operation}
    {result : Except Error Output} (effect : Effect env db operation result next)
    (referenced : db.Referenced) (pipeline : operation.isBegin = false) (job : Uuid) :
    Progress env.now operation job (db.history job) (next.history job) :=
  effect.progress referenced (fun _ _ same => by simp [same, Operation.isBegin] at pipeline) job

theorem keyed_of_reachable {allowed : Db → Call → Prop} {db : Db}
    (reachable : Reachable Db.Initial (Calls allowed) db) : db.Keyed := by
  refine reachable.invariant (fun _ => Db.Initial.keyed) ?_
  rintro db call next keyed ⟨_, performed⟩
  obtain ⟨_, effect⟩ := performed.effect
  exact effect.keyed keyed

/-- The tables of a pipeline under any clocks. -/
structure Db.Shaped (db : Db) : Prop extends db.Keyed where
  histories : ∀ job history, db.history job = some history → history.Shaped

/-- The tables of a pipeline whose clocks advance. -/
structure Db.Sound (db : Db) : Prop extends db.Keyed where
  histories : ∀ job history, db.history job = some history → history.Sound

theorem Db.Sound.shaped {db : Db} (sound : db.Sound) : db.Shaped where
  toKeyed := sound.toKeyed
  histories job history known := (sound.histories job history known).toShaped

theorem Effect.shaped {env : Env} {db next : Db} {operation : Operation}
    {result : Except Error Output} (effect : Effect env db operation result next)
    (pipeline : operation.isBegin = false) (shaped : db.Shaped) : next.Shaped where
  toKeyed := effect.keyed shaped.toKeyed
  histories job history known := by
    have progress := effect.progress_of_pipeline shaped.referenced pipeline job
    rw [known] at progress
    cases before : db.history job with
    | none =>
        rw [before] at progress
        cases progress with
        | created inserts => exact inserts.shaped
    | some old =>
        rw [before] at progress
        cases progress with
        | stepped step => exact step.shaped (shaped.histories job old before)

omit [Isolang] in
theorem Db.Before.history {db : Db} {now : Timestamp} (clock : db.Before now) {job : Uuid}
    {history : History} (known : db.history job = some history) :
    ∀ row ∈ history.runs, ∀ start ∈ row.startedAt, start < now := by
  obtain ⟨row, _, rfl⟩ := Db.history_eq_some.mp known
  exact fun run member => (clock run (List.mem_of_mem_filter member)).1

theorem Effect.sound {env : Env} {db next : Db} {operation : Operation}
    {result : Except Error Output} (effect : Effect env db operation result next)
    (pipeline : operation.isBegin = false) (clock : db.Before env.now) (sound : db.Sound) :
    next.Sound where
  toKeyed := effect.keyed sound.toKeyed
  histories job history known := by
    have progress := effect.progress_of_pipeline sound.referenced pipeline job
    rw [known] at progress
    cases before : db.history job with
    | none =>
        rw [before] at progress
        cases progress with
        | created inserts => exact inserts.sound
    | some old =>
        rw [before] at progress
        cases progress with
        | stepped step => exact step.sound (sound.histories job old before) (clock.history before)

theorem shaped_of_reachable {db : Db}
    (reachable : Reachable Db.Initial (Calls Unclocked) db) : db.Shaped := by
  have initially : ∀ db : Db, db.Initial → db.Shaped := fun db initial =>
    ⟨initial.keyed, fun job history known => by simp [initial.history job] at known⟩
  refine reachable.invariant initially ?_
  rintro db call next shaped ⟨pipeline, performed⟩
  obtain ⟨_, effect⟩ := performed.effect
  exact effect.shaped pipeline shaped

theorem sound_of_reachable {db : Db}
    (reachable : Reachable Db.Initial (Calls Clocked) db) : db.Sound := by
  have initially : ∀ db : Db, db.Initial → db.Sound := fun db initial =>
    ⟨initial.keyed, fun job history known => by simp [initial.history job] at known⟩
  refine reachable.invariant initially ?_
  rintro db call next sound ⟨⟨clock, pipeline⟩, performed⟩
  obtain ⟨_, effect⟩ := performed.effect
  exact effect.sound pipeline clock sound

/-! A small deployment: one game, one rulebook, clocks that tick. -/

def after (allowed : Db → Call → Prop) [∀ db call, Decidable (allowed db call)]
    (start : Db) (calls : List Call) : Db :=
  (execute (perform? allowed) start calls).getD start

theorem reachable_after {allowed : Db → Call → Prop}
    [∀ db call, Decidable (allowed db call)] {start : Db} {calls : List Call}
    (initial : start.Initial)
    (enabled : (execute (perform? allowed) start calls).isSome = true) :
    Reachable Db.Initial (Calls allowed) (after allowed start calls) := by
  obtain ⟨db, executed⟩ := Option.isSome_iff_exists.mp enabled
  have same : after allowed start calls = db := by rw [after, executed, Option.getD_some]
  exact same ▸ reachable_of_execute initial executed

end

section

local instance english : Isolang := ⟨fun code => decide (code = ['e', 'n'])⟩

def catalog : Db where
  users := []
  games := [⟨⟨1⟩, [], 0, ⟨0⟩⟩]
  jobs := []
  runs := []
  transcripts := []
  chunks := []
  embeddings := []

theorem catalog_initial : catalog.Initial := ⟨rfl, rfl, rfl, rfl, rfl⟩

def rulebook : NewIngestionJob where
  gameId := ⟨1⟩
  source := ⟨[]⟩
  language := ⟨['e', 'n'], by decide⟩
  createdBy := none

def firstJob : Uuid := ⟨2⟩

def tick (now : Nat) (operation : Operation) : Call :=
  ⟨{ now
     jobId := ⟨BitVec.ofNat 128 (now + 1)⟩
     runId := ⟨BitVec.ofNat 128 (now + 1)⟩
     chunkId := fun index => ⟨BitVec.ofNat 128 (1000 * now + index)⟩
     tie := fun _ => 0 }, operation⟩

def toChunk : List Call :=
  [tick 1 (.start rulebook), tick 2 (.claim firstJob), tick 3 (.finish ⟨2⟩ .succeeded),
    tick 4 (.validate firstJob)]

end

end Zyndeck
