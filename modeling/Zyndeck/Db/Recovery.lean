import Zyndeck.Db.Decode

namespace Zyndeck

open Data

/-! A job that is not being worked on accepts the next attempt of a step. -/

theorem attempt_lt_nextAttempt {runs : List StepRunRow} {step : IngestionStep}
    {row : StepRunRow} (member : row ∈ runs) (ofStep : row.step = step) :
    row.attempt < nextAttempt step runs := by
  have stored : row.attempt ∈ (runs.filter (·.step = step)).map (·.attempt) :=
    List.mem_map_of_mem (List.mem_filter.mpr ⟨member, by simpa using ofStep⟩)
  rw [nextAttempt]
  cases greatest : ((runs.filter (·.step = step)).map (·.attempt)).max? with
  | none => simp [List.max?_eq_none_iff.mp greatest] at stored
  | some most =>
      have bound := (List.max?_eq_some_iff.mp greatest).2 _ stored
      simpa using Nat.lt_succ_of_le bound

theorem insertRun_of_idle {env : Env} {job : Uuid} {step : IngestionStep}
    {status : RunStatus} {startedAt : Option Timestamp} {db : Db}
    (found : (db.job? job).isSome) (phase : step ≠ .completed)
    (fresh : ∀ other ∈ db.runs, other.id ≠ env.runId)
    (idle : ∀ other ∈ db.runsOf job, other.status.isActive = false)
    (bounded : nextAttempt step (db.runsOf job) ≤ i32Max) :
    insertRun env job step status startedAt db = .ok (newRun env job step status startedAt db) := by
  refine insertRun_ok.mpr ⟨rfl, bounded, phase, fun other member => ?_, found⟩
  have apart := (fresh other member).symm
  by_cases ofJob : other.jobId = job
  · have stored : other ∈ db.runsOf job := List.mem_filter.mpr ⟨member, by simpa using ofJob⟩
    have place : ¬ (step = other.step ∧ nextAttempt step (db.runsOf job) = other.attempt) :=
      fun ⟨ofStep, same⟩ => Nat.ne_of_lt (attempt_lt_nextAttempt stored ofStep.symm) same.symm
    simp only [StepRunRow.clashes, newRun, idle other stored, apart, Bool.and_false,
      Bool.or_false, decide_false, Bool.false_or]
    grind
  · have otherJob : ¬ job = other.jobId := fun same => ofJob same.symm
    simp [StepRunRow.clashes, newRun, apart, otherJob]

/-! Restart, claim, finish, validate. -/

structure Recovery where
  restart : Env
  claim : Env
  finish : Env
  validate : Env

section

variable [Isolang]

def Outcome.run? (outcome : Outcome) : Option IngestionStepRun :=
  match outcome.result with
  | .ok output => output.run?
  | .error _ => none

/-- Restart a job's transcription, claim the run, finish it with success and
validate, as long as each call succeeds: the run that validating enqueues, and the
tables then. -/
def Recovery.recover (recovery : Recovery) (job : Uuid) (db : Db) :
    Option (IngestionStepRun × Db) := do
  let restarted := Operation.exec recovery.restart (.restart job) db
  let _ ← restarted.run?
  let claimed := Operation.exec recovery.claim (.claim job) restarted.db
  let run ← claimed.run?
  let finished := Operation.exec recovery.finish (.finish run.id .succeeded) claimed.db
  let _ ← finished.run?
  let validated := Operation.exec recovery.validate (.validate job) finished.db
  let next ← validated.run?
  pure (next, validated.db)

/-- The run ids are fresh, and the claim's clock is later than what is stored. -/
structure Recovery.Regular (recovery : Recovery) (db : Db) : Prop where
  restart : ∀ row ∈ db.runs, row.id ≠ recovery.restart.runId
  validate : ∀ row ∈ db.runs, row.id ≠ recovery.validate.runId
  apart : recovery.restart.runId ≠ recovery.validate.runId
  clock : db.Before recovery.claim.now

structure Db.Idle (db : Db) (job : Uuid) (runs : List StepRunRow) : Prop where
  known : db.history job = some ⟨.extract, runs⟩
  inactive : ∀ row ∈ runs, row.status.isActive = false

omit [Isolang] in
theorem Db.Idle.found {db : Db} {job : Uuid} {runs : List StepRunRow} (idle : db.Idle job runs) :
    ∃ row, db.job? job = some row ∧ row.step = .extract ∧ runs = db.runsOf job := by
  obtain ⟨row, found, same⟩ := Db.history_eq_some.mp idle.known
  obtain ⟨step, runs⟩ := History.mk.inj same
  exact ⟨row, found, step.symm, runs⟩

theorem Db.Keyed.tryInto_job {db : Db} (keyed : db.Keyed) {job : Uuid} {row : JobRow}
    (found : db.job? job = some row) : ∃ locked, row.tryInto = .ok locked := by
  obtain ⟨locked, decoded, _⟩ :=
    JobRow.tryInto_of_known (keyed.languages row (List.mem_of_find?_eq_some found))
  exact ⟨locked, decoded⟩

def restartedRun (env : Env) (job : Uuid) (db : Db) : StepRunRow :=
  newRun env job .extract .pending none db

theorem exec_restart {env : Env} {db : Db} {job : Uuid} {runs : List StepRunRow}
    (keyed : db.Keyed) (idle : db.Idle job runs)
    (fresh : ∀ row ∈ db.runs, row.id ≠ env.runId)
    (bounded : nextAttempt .extract runs ≤ i32Max) :
    ∃ run, Operation.exec env (.restart job) db =
      ⟨.ok (.run run), db.apply (.insertRun (restartedRun env job db)), [job]⟩ := by
  obtain ⟨row, found, step, rfl⟩ := idle.found
  obtain ⟨locked, decoded⟩ := keyed.tryInto_job found
  have inserted : enqueue env job .extract db = .ok (restartedRun env job db) :=
    insertRun_of_idle (by simp [found]) (by simp) fresh idle.inactive bounded
  obtain ⟨run, mapped, _⟩ := StepRunRow.tryInto_complete (enqueue_new inserted).complete
  exact ⟨run, transaction_of_ok (restartJob_ok.mpr
    ⟨row, locked, _, found, decoded, step, inserted, mapped, rfl⟩)⟩

omit [Isolang] in
theorem updateRuns_insertRun {db : Db} {hit : StepRunRow → Bool}
    {set : StepRunRow → StepRunRow} {run : StepRunRow}
    (unmatched : ∀ other ∈ db.runs, hit other = false) (matched : hit run = true) :
    (db.apply (.insertRun run)).updateRuns hit set =
      (some (set run), db.apply (.insertRun (set run))) := by
  have none : db.runs.filter hit = [] :=
    List.filter_eq_nil_iff.mpr fun other member => by simp [unmatched other member]
  have kept : updateWhere hit set db.runs = db.runs := updateWhere_eq_self unmatched
  simp only [Db.updateRuns, Db.apply, returning, List.filter_append, none, updateWhere_append,
    kept]
  simp [updateWhere, matched]

theorem exec_claim (env : Env) (db : Db) {job : Uuid} {run : StepRunRow}
    (ofJob : run.jobId = job) (pending : run.status = .pending)
    (idle : ∀ other ∈ db.runsOf job, other.status.isActive = false) :
    ∃ value, value.id = run.id ∧
      Operation.exec env (.claim job) (db.apply (.insertRun run)) =
        ⟨.ok (.maybeRun (some value)), db.apply (.insertRun (run.claim env.now)), []⟩ := by
  have unmatched : ∀ other ∈ db.runs, other.isPendingOf job = false := by
    intro other member
    refine Bool.eq_false_iff.mpr fun hit => ?_
    obtain ⟨ofOther, isPending⟩ := Bool.and_eq_true_iff.mp hit
    have ended := idle other (List.mem_filter.mpr ⟨member, ofOther⟩)
    rw [of_decide_eq_true isPending] at ended
    contradiction
  have matched : run.isPendingOf job = true := by simp [StepRunRow.isPendingOf, ofJob, pending]
  have complete : (run.claim env.now).Complete := by
    simp [StepRunRow.Complete, StepRunRow.claim]
  obtain ⟨value, decoded, sameId, _⟩ := StepRunRow.tryInto_complete complete
  refine ⟨value, sameId, ?_⟩
  simp only [Operation.exec, claimPendingRun, Db.claim, updateRuns_insertRun unmatched matched,
    Prod.map, decodeRow, decoded]
  rfl

theorem exec_finish (env : Env) (db : Db) {run : StepRunRow} {start : Timestamp}
    (running : run.status = .running) (started : run.startedAt = some start)
    (fresh : ∀ other ∈ db.runs, other.id ≠ run.id) :
    ∃ value, Operation.exec env (.finish run.id .succeeded) (db.apply (.insertRun run)) =
      ⟨.ok (.maybeRun (some value)),
        db.apply (.insertRun (run.finish env.now .succeeded none)), []⟩ := by
  have unmatched : ∀ other ∈ db.runs, other.isRunningRun run.id = false := fun other member => by
    simp [StepRunRow.isRunningRun, fresh other member]
  have matched : run.isRunningRun run.id = true := by simp [StepRunRow.isRunningRun, running]
  have complete : (run.finish env.now .succeeded none).Complete := by
    simp [StepRunRow.Complete, StepRunRow.finish, started]
  obtain ⟨value, decoded, _⟩ := StepRunRow.tryInto_complete complete
  refine ⟨value, ?_⟩
  simp only [Operation.exec, finishRun, StepOutcome.error, StepOutcome.status, Option.any_none,
    Bool.false_eq_true, ↓reduceIte, Db.finish, updateRuns_insertRun unmatched matched, Prod.map,
    decodeRow, decoded]
  rfl

def finishedRun (recovery : Recovery) (job : Uuid) (db : Db) : StepRunRow :=
  ((restartedRun recovery.restart job db).claim recovery.claim.now).finish
    recovery.finish.now .succeeded none

theorem exec_cycle {recovery : Recovery} {db : Db} {job : Uuid} {runs : List StepRunRow}
    (keyed : db.Keyed) (idle : db.Idle job runs)
    (fresh : ∀ row ∈ db.runs, row.id ≠ recovery.restart.runId)
    (bounded : nextAttempt .extract runs ≤ i32Max) :
    ∃ restarted claimed finished : IngestionStepRun, ∃ between after : Db,
      Operation.exec recovery.restart (.restart job) db = ⟨.ok (.run restarted), between, [job]⟩ ∧
      Operation.exec recovery.claim (.claim job) between =
        ⟨.ok (.maybeRun (some claimed)), after, []⟩ ∧
      Operation.exec recovery.finish (.finish claimed.id .succeeded) after =
        ⟨.ok (.maybeRun (some finished)),
          db.apply (.insertRun (finishedRun recovery job db)), []⟩ := by
  have runsOf : runs = db.runsOf job := idle.found.choose_spec.2.2
  obtain ⟨restarted, first⟩ := exec_restart keyed idle fresh bounded
  let run := restartedRun recovery.restart job db
  have pending : run.jobId = job ∧ run.status = .pending := ⟨rfl, rfl⟩
  obtain ⟨claimed, sameId, second⟩ :=
    exec_claim recovery.claim db pending.1 pending.2 (runsOf ▸ idle.inactive)
  have started : (run.claim recovery.claim.now).startedAt = some recovery.claim.now := rfl
  obtain ⟨finished, third⟩ := exec_finish recovery.finish db rfl started fresh
  exact ⟨restarted, claimed, finished, _, _, first, second, sameId ▸ third⟩

theorem exec_validate {env : Env} {db : Db} {job : Uuid} {row : JobRow} {locked : IngestionJob}
    {last : StepRunRow} (found : db.job? job = some row) (decoded : row.tryInto = .ok locked)
    (step : row.step = .extract)
    (succeeded : History.Succeeded (db.runsOf job) .extract env.tie last)
    (fresh : ∀ other ∈ db.runs, other.id ≠ env.runId)
    (idle : ∀ other ∈ db.runsOf job, other.status.isActive = false)
    (bounded : nextAttempt .chunk (db.runsOf job) ≤ i32Max) :
    ∃ value, (newRun env job .chunk .pending none db).tryInto = .ok value ∧
      Operation.exec env (.validate job) db =
        ⟨.ok (.run value), (db.apply (.setStep job .chunk)).apply
          (.insertRun (newRun env job .chunk .pending none db)), [job]⟩ := by
  have inserted : enqueue env job .chunk db = .ok (newRun env job .chunk .pending none db) :=
    insertRun_of_idle (by simp [found]) (by simp) fresh idle bounded
  obtain ⟨value, mapped, _⟩ := StepRunRow.tryInto_complete (enqueue_new inserted).complete
  exact ⟨value, mapped, transaction_of_ok (validateJob_ok.mpr
    ⟨row, locked, last, _, found, decoded, step, succeeded.latest, succeeded.step_eq,
      succeeded.status_eq, succeeded.complete, inserted, mapped, rfl⟩)⟩

/-! What the success of the calls says. -/

theorem bounded_of_restart {env : Env} {db : Db} {job : Uuid} {run : IngestionStepRun}
    (returned : (Operation.exec env (.restart job) db).run? = some run) :
    nextAttempt .extract (db.runsOf job) ≤ i32Max := by
  have effect := exec_effect env (.restart job) db
  generalize Operation.exec env (.restart job) db = outcome at returned effect
  obtain ⟨result, next, notified⟩ := outcome
  cases effect with
  | failed => simp [Outcome.run?] at returned
  | restarted _ _ inserted =>
      obtain ⟨rfl, bounded, _⟩ := insertRun_ok.mp inserted
      exact bounded

theorem succeeded_of_validate {env : Env} {db : Db} {job : Uuid} {run : IngestionStepRun}
    (returned : (Operation.exec env (.validate job) db).run? = some run) :
    ∃ last, History.Succeeded (db.runsOf job) .extract env.tie last := by
  have effect := exec_effect env (.validate job) db
  generalize Operation.exec env (.validate job) db = outcome at returned effect
  obtain ⟨result, next, notified⟩ := outcome
  cases effect with
  | failed => simp [Outcome.run?] at returned
  | validated _ _ latest lastStep lastStatus lastComplete =>
      exact ⟨_, latest, lastStep, lastStatus, lastComplete⟩

omit [Isolang] in
/-- A run without a start is ranked before every run that has one. -/
theorem started_of_succeeded {runs : List StepRunRow} {step : IngestionStep}
    {tie : Uuid → Nat} {last : StepRunRow} (succeeded : History.Succeeded runs step tie last) :
    ∀ row ∈ runs, row.startedAt.isSome := by
  intro row member
  obtain ⟨start, started⟩ :=
    StepRunRow.startedAt_of_succeeded succeeded.status_eq succeeded.complete
  have never := firstBy_not_before (laterFirst_strictOrder tie) succeeded.latest row member
  cases rowStart : row.startedAt with
  | some _ => rfl
  | none => simp [laterFirst, rowStart, started] at never

/-- The four calls end with the job on `chunk`, its first run of that step pending. -/
def Recovery.Recovers (recovery : Recovery) (job : Uuid) (db : Db) : Prop :=
  ∃ run final history row, recovery.recover job db = some (run, final) ∧
    final.history job = some history ∧ history.step = .chunk ∧ row ∈ history.runs ∧
    row.tryInto = .ok run ∧ row.step = .chunk ∧ row.attempt = 1 ∧ row.status = .pending

omit [Isolang] in
theorem finishedRun_latest {recovery : Recovery} {db : Db} {job : Uuid} (tie : Uuid → Nat)
    (clock : db.Before recovery.claim.now)
    (started : ∀ row ∈ db.runsOf job, row.startedAt.isSome) :
    History.Succeeded (db.runsOf job ++ [finishedRun recovery job db]) .extract tie
      (finishedRun recovery job db) where
  latest := by
    refine firstBy_eq_of_precedes (laterFirst_strictOrder tie)
      (List.mem_append_right _ (List.mem_singleton_self _)) fun row member apart => ?_
    rcases List.mem_append.mp member with member | member
    · obtain ⟨start, rowStart⟩ := Option.isSome_iff_exists.mp (started row member)
      have less := (clock row (List.mem_of_mem_filter member)).1 start rowStart
      have ownStart : (finishedRun recovery job db).startedAt = some recovery.claim.now := rfl
      simp only [laterFirst, rowStart, ownStart, Bool.or_eq_true, decide_eq_true_eq]
      exact .inl less
    · exact absurd (List.mem_singleton.mp member) apart
  step_eq := rfl
  status_eq := rfl
  complete := ⟨rfl, rfl⟩

omit [Isolang] in
theorem nextAttempt_append_of_ne {runs : List StepRunRow} {step : IngestionStep}
    {run : StepRunRow} (other : run.step ≠ step) :
    nextAttempt step (runs ++ [run]) = nextAttempt step runs := by
  simp [nextAttempt, List.filter_append, other]

omit [Isolang] in
theorem History.Shaped.nextAttempt_extract {runs : List StepRunRow}
    (shaped : History.Shaped ⟨.extract, runs⟩) :
    nextAttempt .extract runs = runs.length + 1 := by
  obtain ⟨extracts, _, keys⟩ := shaped.keys
  have length : runs.length = extracts := by
    simpa [keysOf, phaseTwo] using congrArg List.length keys
  rw [Zyndeck.nextAttempt_extract keys, length]

omit [Isolang] in
theorem History.Shaped.nextAttempt_chunk {runs : List StepRunRow}
    (shaped : History.Shaped ⟨.extract, runs⟩) : nextAttempt .chunk runs = 1 := by
  obtain ⟨extracts, _, keys⟩ := shaped.keys
  exact nextAttempt_ahead keys (by simp) (by simp [phaseTwo])

theorem recovers_of_started {recovery : Recovery} {db : Db} {job : Uuid}
    {runs : List StepRunRow} (sound : db.Sound) (idle : db.Idle job runs)
    (regular : recovery.Regular db) (started : ∀ row ∈ runs, row.startedAt.isSome)
    (bounded : runs.length < i32Max) : recovery.Recovers job db := by
  have shaped := (sound.histories job _ idle.known).toShaped
  have attempts : nextAttempt .extract runs ≤ i32Max := by
    rw [shaped.nextAttempt_extract]
    exact bounded
  obtain ⟨restarted, claimed, finished, between, after, first, second, third⟩ :=
    exec_cycle sound.toKeyed idle regular.restart attempts
  obtain ⟨row, found, step, rfl⟩ := idle.found
  obtain ⟨locked, decoded⟩ := sound.toKeyed.tryInto_job found
  let last := finishedRun recovery job db
  let ready := db.apply (.insertRun last)
  have runsOf : ready.runsOf job = db.runsOf job ++ [last] := runsOf_insertRun rfl
  have ended : ∀ other ∈ ready.runsOf job, other.status.isActive = false := by
    intro other member
    rcases List.mem_append.mp (runsOf ▸ member) with member | member
    · exact idle.inactive other member
    · exact List.mem_singleton.mp member ▸ rfl
  have fresh : ∀ other ∈ ready.runs, other.id ≠ recovery.validate.runId := by
    intro other member
    rcases List.mem_append.mp member with member | member
    · exact regular.validate other member
    · exact List.mem_singleton.mp member ▸ regular.apart
  have chunkAttempt : nextAttempt .chunk (ready.runsOf job) = 1 := by
    rw [runsOf, nextAttempt_append_of_ne (by simp [last, finishedRun, restartedRun,
      StepRunRow.finish, StepRunRow.claim, newRun]), shaped.nextAttempt_chunk]
  let next := newRun recovery.validate job .chunk .pending none ready
  have readyFound : ready.job? job = some row := found
  have readyHistory : ready.history job = some ⟨.extract, db.runsOf job ++ [last]⟩ := by
    rw [Db.history_of_found readyFound, step, runsOf]
  obtain ⟨value, mapped, fourth⟩ := exec_validate readyFound decoded step
    (runsOf ▸ finishedRun_latest recovery.validate.tie regular.clock started) fresh ended
    (chunkAttempt ▸ by decide)
  refine ⟨value, (ready.apply (.setStep job .chunk)).apply (.insertRun next),
    ⟨.chunk, db.runsOf job ++ [last] ++ [next]⟩, next, ?_, ?_, rfl,
    List.mem_append_right _ (List.mem_singleton_self _), mapped, rfl, chunkAttempt, rfl⟩
  · simp only [Recovery.recover, first, second, third, Outcome.run?, Output.run?,
      Option.bind_eq_bind, Option.bind_some]
    rw [fourth]
    rfl
  · rw [Db.history_insertRun, Db.history_setStep, readyHistory]
    simp [next, newRun]

/-- A job on `extract` with no active run can be taken to `chunk` exactly when no run
of it was aborted before it started, and it has an attempt left. -/
theorem transcription_recovers {recovery : Recovery} {db : Db} {job : Uuid}
    {runs : List StepRunRow} (reachable : Reachable Db.Initial (Calls Clocked) db)
    (idle : db.Idle job runs) (regular : recovery.Regular db) :
    recovery.Recovers job db ↔
      (∀ row ∈ runs, row.startedAt.isSome) ∧ runs.length < i32Max := by
  have sound := sound_of_reachable reachable
  refine ⟨?_, fun ⟨started, bounded⟩ => recovers_of_started sound idle regular started bounded⟩
  rintro ⟨run, final, _, _, recovered, _⟩
  have shaped := (sound.histories job _ idle.known).toShaped
  obtain ⟨row, found, step, rfl⟩ := idle.found
  obtain ⟨restartedRun, restartedRun?, rest⟩ := Option.bind_eq_some_iff.mp recovered
  have attempts := bounded_of_restart restartedRun?
  obtain ⟨restarted, claimed, finished, between, after, first, second, third⟩ :=
    exec_cycle sound.toKeyed idle regular.restart attempts
  simp only [first, second, third, Outcome.run?, Output.run?, Option.bind_eq_bind,
    Option.bind_some] at rest
  obtain ⟨next, validated, _⟩ := Option.bind_eq_some_iff.mp rest
  obtain ⟨last, succeeded⟩ := succeeded_of_validate validated
  have whole : (db.apply (.insertRun (finishedRun recovery job db))).runsOf job =
      db.runsOf job ++ [finishedRun recovery job db] := runsOf_insertRun rfl
  rw [whole] at succeeded
  refine ⟨fun row member => started_of_succeeded succeeded row (List.mem_append_left _ member), ?_⟩
  rw [shaped.nextAttempt_extract] at attempts
  exact attempts

end

section

attribute [local instance] english

def recoveryAt (now : Nat) : Recovery :=
  ⟨(tick now (.restart firstJob)).env, (tick (now + 1) (.claim firstJob)).env,
    (tick (now + 2) (.restart firstJob)).env, (tick (now + 3) (.validate firstJob)).env⟩

theorem transcription_recovers_after_failure :
    (recoveryAt 4).Recovers firstJob (after Clocked catalog
      [tick 1 (.start rulebook), tick 2 (.claim firstJob),
        tick 3 (.finish ⟨2⟩ (.failed ['n', 'o']))]) :=
  (transcription_recovers (reachable_after catalog_initial (by decide)) ⟨rfl, by decide⟩
    ⟨by decide, by decide, by decide, by decide⟩).mpr ⟨by decide, by decide⟩

/-- A job whose first run was aborted before anyone claimed it cannot be recovered:
that run stays the latest one, and it does not decode. -/
theorem aborted_while_pending_never_recovers :
    ¬ ∀ (db : Db) (job : Uuid) (runs : List StepRunRow) (recovery : Recovery),
      Reachable Db.Initial (Calls Clocked) db → db.Idle job runs →
        recovery.Regular db → recovery.Recovers job db := by
  intro recovers
  let db := after Clocked catalog [tick 1 (.start rulebook), tick 2 (.abort firstJob)]
  have reachable : Reachable Db.Initial (Calls Clocked) db :=
    reachable_after catalog_initial (by decide)
  have idle : db.Idle firstJob (db.runsOf firstJob) := ⟨rfl, by decide⟩
  have regular : (recoveryAt 3).Regular db := ⟨by decide, by decide, by decide, by decide⟩
  have stuck : ((recoveryAt 3).recover firstJob db).isNone = true := by decide
  obtain ⟨_, _, _, _, recovered, _⟩ := recovers db firstJob _ (recoveryAt 3) reachable idle regular
  rw [recovered] at stuck
  contradiction

end

end Zyndeck
