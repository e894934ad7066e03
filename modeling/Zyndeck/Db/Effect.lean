import Zyndeck.Db.Transition

namespace Zyndeck

open Data

variable [Isolang] {env : Env} {db : Db} {writes : List Write}

/-! How the parts of the transitions run over the view of a transaction. -/

theorem run_issue (statement : Statement) (onFault : SqlError → Error) :
    postgres.run env db (issue statement onFault) writes =
      match statement.exec env (postgres.view db writes) with
      | .ok (reply, added) => .ok (reply, writes ++ added)
      | .error fault => .error (onFault fault) := by
  cases executed : statement.exec env (postgres.view db writes) with
  | ok replied => exact Engine.run_query_ok executed
  | error fault => exact Engine.run_query_fault executed

omit [Isolang] in
theorem except_map_ok {result : Except ε α} {value : α} {collected writes : β} :
    result.map (·, writes) = .ok (value, collected) ↔
      result = .ok value ∧ collected = writes := by
  cases result with
  | error failure => simp [Except.map]
  | ok found => simp [Except.map, eq_comm]

theorem run_lockJob_ok {job : Uuid} {locked : IngestionJob} {collected : List Write} :
    postgres.run env db (lockJob job) writes = .ok (locked, collected) ↔
      (∃ row, (postgres.view db writes).job? job = some row ∧ row.tryInto = .ok locked) ∧
        collected = writes := by
  rw [lockJob, Engine.run_bind, run_issue]
  simp only [Statement.exec, List.append_nil]
  cases (postgres.view db writes).job? job with
  | none => simp [fail, Program.throw]
  | some row => simp [Engine.run_done, except_map_ok]

theorem run_latestRun_ok {job : Uuid} {latest : Option IngestionStepRun}
    {collected : List Write} :
    postgres.run env db (latestRun job) writes = .ok (latest, collected) ↔
      decodeRow (findLatest env job (postgres.view db writes)) = .ok latest ∧
        collected = writes := by
  rw [latestRun, Engine.run_bind, run_issue]
  simp only [Statement.exec, List.append_nil]
  cases findLatest env job (postgres.view db writes) with
  | none => simp [decodeRow, eq_comm]
  | some row => simp only [Engine.run_done, except_map_ok, decodeRow]

theorem run_decoded_ok {statement : Statement} {onFault : SqlError → Error}
    {decode : statement.Reply → Except Error α} {value : α} {collected : List Write} :
    postgres.run env db (issue statement onFault >>= fun reply => .done (decode reply)) writes =
        .ok (value, collected) ↔
      ∃ reply added, statement.exec env (postgres.view db writes) = .ok (reply, added) ∧
        decode reply = .ok value ∧ collected = writes ++ added := by
  rw [Engine.run_bind, run_issue]
  cases statement.exec env (postgres.view db writes) with
  | error fault => simp
  | ok replied =>
      obtain ⟨reply, added⟩ := replied
      simp [Engine.run_done, except_map_ok]

theorem run_beginRun_ok {job : Uuid} {step : IngestionStep} {value : IngestionStepRun}
    {collected : List Write} :
    postgres.run env db (beginRun job step) writes = .ok (value, collected) ↔
      ∃ run, begin env job step (postgres.view db writes) = .ok run ∧
        run.tryInto = .ok value ∧ collected = writes ++ [.insertRun run] := by
  refine run_decoded_ok.trans ?_
  simp only [Statement.exec]
  cases begin env job step (postgres.view db writes) <;> simp [Except.map]

theorem run_enqueueRun_ok {job : Uuid} {step : IngestionStep} {value : IngestionStepRun}
    {collected : List Write} :
    postgres.run env db (enqueueRun job step) writes = .ok (value, collected) ↔
      ∃ run, enqueue env job step (postgres.view db writes) = .ok run ∧
        run.tryInto = .ok value ∧ collected = writes ++ [.insertRun run] := by
  refine run_decoded_ok.trans ?_
  simp only [Statement.exec]
  cases enqueue env job step (postgres.view db writes) <;> simp [Except.map]

theorem run_notifyReady (job : Uuid) :
    postgres.run env db (notifyReady job) writes = .ok ((), writes ++ [.notify job]) :=
  run_issue ..

/-! What a call can do. -/

/-- Everything a call can return and leave behind.  Calls that fail before their
commit change nothing. -/
inductive Effect (env : Env) (db : Db) : Operation → Except Error Output → Db → Prop
  | failed (failure : Error) : Effect env db operation (.error failure) db
  | started (created : createJob env new db = .ok row)
      (inserted : enqueue env row.id .extract (db.apply (.insertJob row)) = .ok run)
      (job : IngestionJob) (decoded : run.tryInto = .ok value) :
      Effect env db (.start new) (.ok (.started job value))
        ((db.apply (.insertJob row)).apply (.insertRun run))
  | claimed : Effect env db (.claim job)
      ((decodeRow (db.claim env.now job).1).map .maybeRun) (db.claim env.now job).2
  | finished (storable : outcome.error.all Zyndeck.storable = true) :
      Effect env db (.finish run outcome)
        ((decodeRow (db.finish env.now run outcome.status outcome.error).1).map .maybeRun)
        (db.finish env.now run outcome.status outcome.error).2
  | aborted : Effect env db (.abort job)
      ((decodeRow (db.abort env.now job).1).map .maybeRun) (db.abort env.now job).2
  | begun (inserted : begin env job step db = .ok run) :
      Effect env db (.begin job step) (run.tryInto.map .run) (db.apply (.insertRun run))
  | restarted (found : db.job? job = some row) (step : row.step = .extract)
      (inserted : enqueue env job .extract db = .ok run)
      (decoded : run.tryInto = .ok value) :
      Effect env db (.restart job) (.ok (.run value)) (db.apply (.insertRun run))
  | validated (found : db.job? job = some row) (step : row.step = .extract)
      (latest : findLatest env job db = some last) (lastStep : last.step = .extract)
      (lastStatus : last.status = .succeeded) (lastComplete : last.Complete)
      (inserted : enqueue env job .chunk db = .ok run)
      (decoded : run.tryInto = .ok value) :
      Effect env db (.validate job) (.ok (.run value))
        ((db.apply (.setStep job .chunk)).apply (.insertRun run))
  | advanced (found : db.job? job = some row) (step : row.step = .chunk)
      (latest : findLatest env job db = some last) (lastStep : last.step = .chunk)
      (lastStatus : last.status = .succeeded) (lastComplete : last.Complete)
      (inserted : begin env job .embed db = .ok run)
      (decoded : run.tryInto = .ok value) :
      Effect env db (.continue job) (.ok (.advanced (.running value)))
        ((db.apply (.setStep job .embed)).apply (.insertRun run))
  | completed (found : db.job? job = some row) (step : row.step = .embed)
      (latest : findLatest env job db = some last) (lastStep : last.step = .embed)
      (lastStatus : last.status = .succeeded) (lastComplete : last.Complete) :
      Effect env db (.continue job) (.ok (.advanced .completed))
        (db.apply (.setStep job .completed))

theorem transaction_cases (env : Env) (body : Tx α) (output : α → Output) (db : Db) :
    (∃ failure, transaction env body output db = ⟨.error failure, db, []⟩) ∨
      ∃ value writes, postgres.run env db body [] = .ok (value, writes) ∧
        transaction env body output db =
          ⟨.ok (output value), postgres.view db writes, notifications writes⟩ := by
  cases ran : postgres.run env db body [] with
  | error failure =>
      refine .inl ⟨failure, ?_⟩
      simp [transaction, Engine.transact_of_run_error ran, Except.map, notifications]
  | ok ended =>
      obtain ⟨value, writes⟩ := ended
      exact .inr ⟨value, writes, rfl, by
        simp [transaction, Engine.transact_of_run_ok ran, Except.map]⟩

theorem transaction_of_ok {body : Tx α} {output : α → Output} {value : α}
    (ran : postgres.run env db body [] = .ok (value, writes)) :
    transaction env body output db =
      ⟨.ok (output value), postgres.view db writes, notifications writes⟩ := by
  simp [transaction, Engine.transact_of_run_ok ran, Except.map]

omit [Isolang] in
theorem hasSucceeded_iff {step : IngestionStep} {found : Option StepRunRow} :
    (∃ latest, decodeRow found = .ok latest ∧ hasSucceeded step latest = true) ↔
      ∃ last, found = some last ∧ last.step = step ∧ last.status = .succeeded ∧
        last.Complete := by
  constructor
  · rintro ⟨latest, decoded, succeeded⟩
    cases found with
    | none =>
        obtain rfl := Except.ok.inj decoded
        simp [hasSucceeded] at succeeded
    | some last =>
        cases mapped : last.tryInto with
        | error failure => simp [decodeRow, mapped, Except.map] at decoded
        | ok run =>
            simp only [decodeRow, mapped, Except.map, Except.ok.injEq] at decoded
            subst decoded
            have complete := StepRunRow.complete_of_tryInto_ok mapped
            obtain ⟨run', mapped', _, _, stepEq, _, _, _, status⟩ :=
              StepRunRow.tryInto_complete complete
            obtain rfl := Except.ok.inj (mapped'.symm.trans mapped)
            simp only [hasSucceeded, Option.any_some, Bool.and_eq_true,
              decide_eq_true_eq] at succeeded
            exact ⟨last, rfl, stepEq ▸ succeeded.1, status.mp succeeded.2, complete⟩
  · rintro ⟨last, rfl, stepEq, succeeded, complete⟩
    obtain ⟨run, mapped, _, _, runStep, _, _, _, status⟩ :=
      StepRunRow.tryInto_complete complete
    refine ⟨some run, by simp [decodeRow, mapped, Except.map], ?_⟩
    simp [hasSucceeded, runStep, stepEq, status.mpr succeeded]

theorem restartJob_ok {job : Uuid} {value : IngestionStepRun} :
    postgres.run env db (restartJob job) [] = .ok (value, writes) ↔
      ∃ row locked run, db.job? job = some row ∧ row.tryInto = .ok locked ∧
        row.step = .extract ∧ enqueue env job .extract db = .ok run ∧
        run.tryInto = .ok value ∧ writes = [.insertRun run, .notify job] := by
  simp only [restartJob, Engine.run_bind_ok, run_lockJob_ok, Engine.view_nil]
  constructor
  · rintro ⟨locked, _, ⟨⟨row, found, decoded⟩, rfl⟩, rest⟩
    have step := (JobRow.tryInto_ok decoded).2
    split at rest
    · simp [fail, Program.throw] at rest
    · rename_i onExtract
      simp only [Engine.run_bind_ok, run_enqueueRun_ok, run_notifyReady, Engine.view_nil,
        Except.ok.injEq, Prod.mk.injEq] at rest
      obtain ⟨_, _, ⟨run, inserted, mapped, rfl⟩, _, _, ⟨_, rfl⟩, ended⟩ := rest
      simp only [Program.pure_eq, Engine.run_done_ok, Except.ok.injEq, Prod.mk.injEq] at ended
      obtain ⟨rfl, rfl⟩ := ended
      exact ⟨row, locked, run, found, decoded, by simpa [step] using onExtract, inserted,
        mapped, rfl⟩
  · rintro ⟨row, locked, run, found, decoded, onExtract, inserted, mapped, rfl⟩
    refine ⟨locked, [], ⟨⟨row, found, decoded⟩, rfl⟩, ?_⟩
    rw [if_neg (by simp [(JobRow.tryInto_ok decoded).2, onExtract])]
    simp only [Engine.run_bind_ok, run_enqueueRun_ok, run_notifyReady, Engine.view_nil]
    exact ⟨value, _, ⟨run, inserted, mapped, rfl⟩, (), _, rfl, rfl⟩

theorem run_succeeded_ok {job : Uuid} {step : IngestionStep} {failure : Error} {next : Tx α}
    {value : α} {collected : List Write} :
    postgres.run env db (do
        let latest ← latestRun job
        if !hasSucceeded step latest then fail failure else next) writes = .ok (value, collected) ↔
      (∃ last, findLatest env job (postgres.view db writes) = some last ∧ last.step = step ∧
        last.status = .succeeded ∧ last.Complete) ∧
        postgres.run env db next writes = .ok (value, collected) := by
  rw [← hasSucceeded_iff]
  simp only [Engine.run_bind_ok, run_latestRun_ok]
  constructor
  · rintro ⟨latest, _, ⟨read, rfl⟩, rest⟩
    split at rest
    · simp [fail, Program.throw] at rest
    · rename_i succeeded
      exact ⟨⟨latest, read, by simpa using succeeded⟩, rest⟩
  · rintro ⟨⟨latest, read, succeeded⟩, rest⟩
    exact ⟨latest, writes, ⟨read, rfl⟩, by simpa [succeeded] using rest⟩

theorem validateJob_ok {job : Uuid} {value : IngestionStepRun} :
    postgres.run env db (validateJob job) [] = .ok (value, writes) ↔
      ∃ row locked last run, db.job? job = some row ∧ row.tryInto = .ok locked ∧
        row.step = .extract ∧ findLatest env job db = some last ∧ last.step = .extract ∧
        last.status = .succeeded ∧ last.Complete ∧ enqueue env job .chunk db = .ok run ∧
        run.tryInto = .ok value ∧
        writes = [.setStep job .chunk, .insertRun run, .notify job] := by
  rw [validateJob, Engine.run_bind_ok]
  simp only [run_lockJob_ok, Engine.view_nil]
  constructor
  · rintro ⟨locked, _, ⟨⟨row, found, decoded⟩, rfl⟩, rest⟩
    have step := (JobRow.tryInto_ok decoded).2
    split at rest
    · simp [fail, Program.throw] at rest
    · rename_i onExtract
      obtain ⟨⟨last, latest, lastStep, lastStatus, lastComplete⟩, rest⟩ := run_succeeded_ok.mp rest
      simp only [Engine.run_bind_ok, run_enqueueRun_ok, run_notifyReady, Except.ok.injEq,
        Prod.mk.injEq] at rest
      obtain ⟨_, _, ⟨_, rfl⟩, _, _, ⟨run, inserted, mapped, rfl⟩, _, _, ⟨_, rfl⟩, ended⟩ := rest
      simp only [Program.pure_eq, Engine.run_done_ok, Except.ok.injEq, Prod.mk.injEq] at ended
      obtain ⟨rfl, rfl⟩ := ended
      have inserted := (enqueue_setStep env db job job .chunk .chunk).symm.trans inserted
      exact ⟨row, locked, last, run, found, decoded, by simpa [step] using onExtract, latest,
        lastStep, lastStatus, lastComplete, inserted, mapped, rfl⟩
  · rintro ⟨row, locked, last, run, found, decoded, onExtract, latest, lastStep, lastStatus,
      lastComplete, inserted, mapped, rfl⟩
    refine ⟨locked, [], ⟨⟨row, found, decoded⟩, rfl⟩, ?_⟩
    rw [if_neg (by simp [(JobRow.tryInto_ok decoded).2, onExtract])]
    refine run_succeeded_ok.mpr ⟨⟨last, latest, lastStep, lastStatus, lastComplete⟩, ?_⟩
    have inserted := (enqueue_setStep env db job job .chunk .chunk).trans inserted
    simp only [Engine.run_bind_ok, run_enqueueRun_ok, run_notifyReady]
    exact ⟨(), _, rfl, value, _, ⟨run, inserted, mapped, rfl⟩, (), _, rfl, rfl⟩

/-- The two ways `continueJob` succeeds: from `chunk` it begins the `embed` run,
from `embed` it completes the job. -/
theorem continueJob_ok {job : Uuid} {value : Advanced} :
    postgres.run env db (continueJob job) [] = .ok (value, writes) ↔
      ∃ row locked last, db.job? job = some row ∧ row.tryInto = .ok locked ∧
        findLatest env job db = some last ∧ last.step = row.step ∧
        last.status = .succeeded ∧ last.Complete ∧
        ((row.step = .chunk ∧ ∃ run begun, begin env job .embed db = .ok run ∧
            run.tryInto = .ok begun ∧ value = .running begun ∧
            writes = [.setStep job .embed, .insertRun run]) ∨
          (row.step = .embed ∧ value = .completed ∧
            writes = [.setStep job .completed])) := by
  rw [continueJob, Engine.run_bind_ok]
  simp only [run_lockJob_ok, Engine.view_nil]
  constructor
  · rintro ⟨locked, _, ⟨⟨row, found, decoded⟩, rfl⟩, rest⟩
    have step := (JobRow.tryInto_ok decoded).2
    -- The branches depend on the locked job only through its step.
    rw [step] at rest
    cases onStep : row.step with
    | extract => simp [onStep, IngestionStep.isCompleted, fail, Program.throw] at rest
    | completed => simp [onStep, IngestionStep.isCompleted, fail, Program.throw] at rest
    | chunk =>
        rw [onStep] at rest
        obtain ⟨⟨last, latest, lastStep, lastStatus, lastComplete⟩, rest⟩ :=
          run_succeeded_ok.mp rest
        obtain ⟨_, _, updated, begun⟩ := Engine.run_bind_ok.mp rest
        obtain ⟨_, rfl⟩ := Prod.mk.inj (Except.ok.inj updated)
        obtain ⟨_, _, begun, ended⟩ := Engine.run_bind_ok.mp begun
        obtain ⟨run, inserted, mapped, rfl⟩ := run_beginRun_ok.mp begun
        obtain ⟨rfl, rfl⟩ := Prod.mk.inj (Except.ok.inj ended)
        have inserted := (begin_setStep env db job job .embed .embed).symm.trans inserted
        exact ⟨row, locked, last, found, decoded, latest, lastStep.trans onStep.symm,
          lastStatus, lastComplete, .inl ⟨onStep, run, _, inserted, mapped, rfl, rfl⟩⟩
    | embed =>
        rw [onStep] at rest
        obtain ⟨⟨last, latest, lastStep, lastStatus, lastComplete⟩, rest⟩ :=
          run_succeeded_ok.mp rest
        obtain ⟨_, _, updated, ended⟩ := Engine.run_bind_ok.mp rest
        obtain ⟨_, rfl⟩ := Prod.mk.inj (Except.ok.inj updated)
        obtain ⟨rfl, rfl⟩ := Prod.mk.inj (Except.ok.inj ended)
        exact ⟨row, locked, last, found, decoded, latest, lastStep.trans onStep.symm,
          lastStatus, lastComplete, .inr ⟨onStep, rfl, rfl⟩⟩
  · rintro ⟨row, locked, last, found, decoded, latest, lastStep, lastStatus, lastComplete, ended⟩
    have step := (JobRow.tryInto_ok decoded).2
    refine ⟨locked, [], ⟨⟨row, found, decoded⟩, rfl⟩, ?_⟩
    rw [step]
    rcases ended with
      ⟨onChunk, run, begun, inserted, mapped, rfl, rfl⟩ | ⟨onEmbed, rfl, rfl⟩
    · rw [onChunk] at lastStep ⊢
      refine run_succeeded_ok.mpr ⟨⟨last, latest, lastStep, lastStatus, lastComplete⟩, ?_⟩
      have inserted := (begin_setStep env db job job .embed .embed).trans inserted
      refine Engine.run_bind_ok.mpr ⟨(), _, rfl, Engine.run_bind_ok.mpr ⟨begun, _, ?_, rfl⟩⟩
      exact run_beginRun_ok.mpr ⟨run, inserted, mapped, rfl⟩
    · rw [onEmbed] at lastStep ⊢
      refine run_succeeded_ok.mpr ⟨⟨last, latest, lastStep, lastStatus, lastComplete⟩, ?_⟩
      exact Engine.run_bind_ok.mpr ⟨(), _, rfl, rfl⟩

theorem run_createJob_ok {new : NewIngestionJob} {onFault : SqlError → Error} {row : JobRow}
    {collected : List Write} :
    postgres.run env db (issue (.createJob new) onFault) writes = .ok (row, collected) ↔
      createJob env new (postgres.view db writes) = .ok row ∧
        collected = writes ++ [.insertJob row, .notify row.id] := by
  rw [run_issue]
  simp only [Statement.exec]
  cases createJob env new (postgres.view db writes) with
  | error fault => simp [Except.map]
  | ok inserted => simp +contextual [Except.map, eq_comm]

theorem startJob_ok {new : NewIngestionJob}
    {value : IngestionJob × IngestionStepRun} :
    postgres.run env db (startJob new) [] = .ok (value, writes) ↔
      ∃ row job run started, createJob env new db = .ok row ∧ row.tryInto = .ok job ∧
        enqueue env row.id .extract (db.apply (.insertJob row)) = .ok run ∧
        run.tryInto = .ok started ∧ value = (job, started) ∧
        writes = [.insertJob row, .notify row.id, .insertRun run] := by
  rw [startJob]
  constructor
  · intro ran
    obtain ⟨row, _, issued, rest⟩ := Engine.run_bind_ok.mp ran
    obtain ⟨created, rfl⟩ := run_createJob_ok.mp issued
    obtain ⟨job, _, read, rest⟩ := Engine.run_bind_ok.mp rest
    rw [Engine.run_done, except_map_ok] at read
    obtain ⟨decoded, rfl⟩ := read
    obtain ⟨started, _, enqueued, ended⟩ := Engine.run_bind_ok.mp rest
    obtain ⟨run, inserted, mapped, rfl⟩ := run_enqueueRun_ok.mp enqueued
    obtain ⟨sameId, sameStep⟩ := JobRow.tryInto_ok decoded
    have firstStep : row.step = .extract := by rw [(createJob_ok created).1]; rfl
    obtain ⟨rfl, rfl⟩ := Prod.mk.inj (Except.ok.inj ended)
    rw [sameId, sameStep, firstStep] at inserted
    exact ⟨row, job, run, started, created, decoded, inserted, mapped, rfl, rfl⟩
  · rintro ⟨row, job, run, started, created, decoded, inserted, mapped, rfl, rfl⟩
    obtain ⟨sameId, sameStep⟩ := JobRow.tryInto_ok decoded
    have firstStep : row.step = .extract := by rw [(createJob_ok created).1]; rfl
    refine Engine.run_bind_ok.mpr ⟨row, _, run_createJob_ok.mpr ⟨created, rfl⟩, ?_⟩
    refine Engine.run_bind_ok.mpr
      ⟨job, _, (Engine.run_done ..).trans (except_map_ok.mpr ⟨decoded, rfl⟩), ?_⟩
    refine Engine.run_bind_ok.mpr ⟨started, _, run_enqueueRun_ok.mpr ⟨run, ?_, mapped, rfl⟩, rfl⟩
    rw [sameId, sameStep, firstStep]
    exact inserted

theorem transaction_effect {body : Tx α} {output : α → Output} {operation : Operation}
    (committed : ∀ value writes, postgres.run env db body [] = .ok (value, writes) →
      Effect env db operation (.ok (output value)) (postgres.view db writes)) :
    Effect env db operation (transaction env body output db).result
      (transaction env body output db).db := by
  rcases transaction_cases env body output db with
    ⟨failure, ended⟩ | ⟨value, writes, ran, ended⟩
  · rw [ended]
    exact .failed failure
  · rw [ended]
    exact committed value writes ran

theorem exec_effect (env : Env) (operation : Operation) (db : Db) :
    Effect env db operation (operation.exec env db).result (operation.exec env db).db := by
  cases operation with
  | start new =>
      refine transaction_effect fun value writes ran => ?_
      obtain ⟨row, job, run, started, created, decoded, inserted, mapped, rfl, rfl⟩ :=
        startJob_ok.mp ran
      exact .started created inserted job mapped
  | claim job => exact .claimed
  | finish run outcome =>
      simp only [Operation.exec, finishRun]
      split
      · exact .failed _
      · rename_i storable
        refine .finished ?_
        cases text : outcome.error with
        | none => rfl
        | some error => simpa [text] using storable
  | abort job => exact .aborted
  | begin job step =>
      simp only [Operation.exec, beginStepRun]
      cases inserted : begin env job step db with
      | error fault => exact .failed _
      | ok run => exact .begun inserted
  | restart job =>
      refine transaction_effect fun value writes ran => ?_
      obtain ⟨row, locked, run, found, _, step, inserted, mapped, rfl⟩ := restartJob_ok.mp ran
      exact .restarted found step inserted mapped
  | validate job =>
      refine transaction_effect fun value writes ran => ?_
      obtain ⟨row, locked, last, run, found, _, step, latest, lastStep, lastStatus,
        lastComplete, inserted, mapped, rfl⟩ := validateJob_ok.mp ran
      exact .validated found step latest lastStep lastStatus lastComplete inserted mapped
  | «continue» job =>
      refine transaction_effect fun value writes ran => ?_
      obtain ⟨row, locked, last, found, _, latest, lastStep, lastStatus, lastComplete,
        ⟨onChunk, run, begun, inserted, mapped, rfl, rfl⟩ | ⟨onEmbed, rfl, rfl⟩⟩ :=
        continueJob_ok.mp ran
      · exact .advanced found onChunk latest (lastStep.trans onChunk) lastStatus
          lastComplete inserted mapped
      · exact .completed found onEmbed latest (lastStep.trans onEmbed) lastStatus
          lastComplete

end Zyndeck
