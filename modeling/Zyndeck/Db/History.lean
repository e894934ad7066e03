import Zyndeck.Data.Transition
import Zyndeck.Db.Effect

namespace Zyndeck

open Data

/-! One job as the pipeline sees it, and what the calls do to it. -/

/-- A job's step and its runs, oldest first. -/
structure History where
  step : IngestionStep
  runs : List StepRunRow

def Db.history (db : Db) (job : Uuid) : Option History :=
  (db.job? job).map fun row => ⟨row.step, db.runsOf job⟩

inductive StepRunRow.Evolves (now : Timestamp) : StepRunRow → StepRunRow → Prop
  | kept : Evolves now row row
  | claimed (pending : row.status = .pending) : Evolves now row (row.claim now)
  | finished (running : row.status = .running) (outcome : StepOutcome) :
      Evolves now row (row.finish now outcome.status outcome.error)
  | aborted (active : row.status.isActive = true) : Evolves now row (row.abort now)

namespace StepRunRow.Evolves

variable {now : Timestamp} {old new : StepRunRow}

theorem id_eq (evolved : Evolves now old new) : new.id = old.id := by
  cases evolved <;> rfl

theorem jobId_eq (evolved : Evolves now old new) : new.jobId = old.jobId := by
  cases evolved <;> rfl

theorem step_eq (evolved : Evolves now old new) : new.step = old.step := by
  cases evolved <;> rfl

theorem attempt_eq (evolved : Evolves now old new) : new.attempt = old.attempt := by
  cases evolved <;> rfl

theorem eq_of_inactive (evolved : Evolves now old new)
    (ended : old.status.isActive = false) : new = old := by
  cases evolved with
  | kept => rfl
  | claimed pending => simp [pending, RunStatus.isActive] at ended
  | finished running outcome => simp [running, RunStatus.isActive] at ended
  | aborted active => simp [active] at ended

theorem inactive (evolved : Evolves now old new)
    (ended : old.status.isActive = false) : new.status.isActive = false := by
  rw [evolved.eq_of_inactive ended, ended]

theorem startedAt_eq (evolved : Evolves now old new) :
    new.startedAt = old.startedAt ∨
      old.status = .pending ∧ new.startedAt = some now := by
  cases evolved with
  | claimed pending => exact .inr ⟨pending, rfl⟩
  | kept | finished | aborted => exact .inl rfl

theorem pending (evolved : Evolves now old new) (pending : new.status = .pending) :
    new = old := by
  cases evolved with
  | kept => rfl
  | claimed | aborted => cases pending
  | finished _ outcome => cases outcome <;> cases pending

end StepRunRow.Evolves

/-- `run` is a job's next attempt at a step, inserted while no run of the job is
active. -/
structure History.Inserts (runs : List StepRunRow) (step : IngestionStep)
    (status : RunStatus) (startedAt : Option Timestamp) (run : StepRunRow) : Prop where
  inactive : ∀ other ∈ runs, other.status.isActive = false
  step_eq : run.step = step
  attempt_eq : run.attempt = nextAttempt step runs
  bounded : run.attempt ≤ i32Max
  status_eq : run.status = status
  startedAt_eq : run.startedAt = startedAt
  completedAt_eq : run.completedAt = none
  error_eq : run.error = none

/-- The success of the current step that a transition sees as the latest run. -/
structure History.Succeeded (runs : List StepRunRow) (step : IngestionStep)
    (tie : Uuid → Nat) (last : StepRunRow) : Prop where
  latest : firstBy (laterFirst tie) runs = some last
  step_eq : last.step = step
  status_eq : last.status = .succeeded
  complete : last.Complete

/-- What a call can do to a job, by the clock of its transaction. -/
inductive HistoryStep (now : Timestamp) : History → History → Prop
  | evolved (evolve : StepRunRow → StepRunRow)
      (each : ∀ row ∈ runs, row.Evolves now (evolve row)) :
      HistoryStep now ⟨step, runs⟩ ⟨step, runs.map evolve⟩
  | restarted (inserts : History.Inserts runs .extract .pending none run) :
      HistoryStep now ⟨.extract, runs⟩ ⟨.extract, runs ++ [run]⟩
  | validated (succeeded : History.Succeeded runs .extract tie last)
      (inserts : History.Inserts runs .chunk .pending none run) :
      HistoryStep now ⟨.extract, runs⟩ ⟨.chunk, runs ++ [run]⟩
  | advanced (succeeded : History.Succeeded runs .chunk tie last)
      (inserts : History.Inserts runs .embed .running (some now) run) :
      HistoryStep now ⟨.chunk, runs⟩ ⟨.embed, runs ++ [run]⟩
  | completed (succeeded : History.Succeeded runs .embed tie last) :
      HistoryStep now ⟨.embed, runs⟩ ⟨.completed, runs⟩

/-! How the writes change a job's history. -/

namespace Db

variable (db : Db) (job other : Uuid)

theorem history_eq_some {db : Db} {job : Uuid} {known : History} :
    db.history job = some known ↔
      ∃ row, db.job? job = some row ∧ known = ⟨row.step, db.runsOf job⟩ := by
  rw [history, Option.map_eq_some_iff]
  exact exists_congr fun row => and_congr_right fun _ => eq_comm

theorem history_of_found {db : Db} {job : Uuid} {row : JobRow}
    (found : db.job? job = some row) :
    db.history job = some ⟨row.step, db.runsOf job⟩ :=
  history_eq_some.mpr ⟨row, found, rfl⟩

theorem history_insertRun (run : StepRunRow) :
    (db.apply (.insertRun run)).history job =
      (db.history job).map fun history =>
        if run.jobId = job then ⟨history.step, history.runs ++ [run]⟩ else history := by
  simp only [history, runsOf, job?, Db.apply, List.filter_append, Option.map_map]
  refine congrArg (Option.map · _) (funext fun row => ?_)
  by_cases same : run.jobId = job <;> simp [same]

theorem history_setStep (step : IngestionStep) :
    (db.apply (.setStep job step)).history other =
      (db.history other).map fun history =>
        if other = job then ⟨step, history.runs⟩ else history := by
  simp only [history, job?_setStep, Option.map_map]
  cases found : db.job? other with
  | none => rfl
  | some row =>
      obtain rfl : row.id = other := by simpa using List.find?_some found
      by_cases same : row.id = job <;> simp [same] <;> rfl

theorem history_insertJob {row : JobRow} (fresh : row.id ∉ db.jobs.map (·.id)) :
    (db.apply (.insertJob row)).history job =
      if row.id = job then some ⟨row.step, db.runsOf job⟩ else db.history job := by
  simp only [history, job?, Db.apply, List.find?_append]
  by_cases same : row.id = job
  · have absent : db.jobs.find? (·.id = job) = none :=
      find?_key_eq_none.mpr (same ▸ fresh)
    simp [absent, same]
    rfl
  · simp [same, Option.or]
    cases db.jobs.find? (·.id = job) <;> rfl

theorem history_updateRuns {hit : StepRunRow → Bool} {set : StepRunRow → StepRunRow}
    (kept : ∀ row, (set row).jobId = row.jobId) :
    (db.updateRuns hit set).2.history job =
      (db.history job).map fun history => ⟨history.step, updateWhere hit set history.runs⟩ := by
  simp only [history, runsOf, updateRuns, job?, Option.map_map]
  rw [filter_updateWhere (fun row => by simp [kept])]
  rfl

end Db

theorem HistoryStep.refl (now : Timestamp) (history : History) :
    HistoryStep now history history := by
  have step : HistoryStep now history ⟨history.step, history.runs.map id⟩ :=
    .evolved id fun _ _ => .kept
  simpa using step

/-! Inserted runs. -/

theorem insertRun_inserts {env : Env} {job : Uuid} {step : IngestionStep}
    {status : RunStatus} {startedAt : Option Timestamp} {db : Db} {run : StepRunRow}
    (active : status.isActive = true)
    (inserted : insertRun env job step status startedAt db = .ok run) :
    History.Inserts (db.runsOf job) step status startedAt run := by
  obtain ⟨rfl, bounded, _, apart, _⟩ := insertRun_ok.mp inserted
  refine ⟨fun other member => ?_, rfl, rfl, bounded, rfl, rfl, rfl, rfl⟩
  obtain ⟨member, ofJob⟩ := List.mem_filter.mp member
  have apart := apart other member
  simp only [StepRunRow.clashes, Bool.or_eq_false_iff, Bool.and_eq_false_iff,
    decide_eq_false_iff_not] at apart
  have ofJob : other.jobId = job := by simpa using ofJob
  simpa [newRun, ofJob, active] using apart.2

theorem insertRun_jobId {env : Env} {job : Uuid} {step : IngestionStep}
    {status : RunStatus} {startedAt : Option Timestamp} {db : Db} {run : StepRunRow}
    (inserted : insertRun env job step status startedAt db = .ok run) :
    run.jobId = job := by
  obtain ⟨rfl, _⟩ := insertRun_ok.mp inserted
  rfl

/-! The calls of `Db` and the repositories, seen from one job. -/

def Db.Referenced (db : Db) : Prop :=
  ∀ run ∈ db.runs, (db.job? run.jobId).isSome

/-- What `claim.sql`, `finish.sql` and `abort.sql` have in common. -/
theorem evolves_updateWhere {now : Timestamp} {hit : StepRunRow → Bool}
    {set : StepRunRow → StepRunRow}
    (each : ∀ row, hit row = true → row.Evolves now (set row)) (row : StepRunRow) :
    row.Evolves now (if hit row then set row else row) := by
  split
  · exact each row ‹_›
  · exact .kept

theorem claim_evolves (now : Timestamp) (job : Uuid) (row : StepRunRow)
    (hit : row.isPendingOf job = true) : row.Evolves now (row.claim now) :=
  .claimed (by simpa using (Bool.and_eq_true_iff.mp hit).2)

theorem finish_evolves (now : Timestamp) (run : Uuid) (outcome : StepOutcome)
    (row : StepRunRow) (hit : row.isRunningRun run = true) :
    row.Evolves now (row.finish now outcome.status outcome.error) :=
  .finished (by simpa using (Bool.and_eq_true_iff.mp hit).2) outcome

theorem abort_evolves (now : Timestamp) (job : Uuid) (row : StepRunRow)
    (hit : row.isActiveOf job = true) : row.Evolves now (row.abort now) :=
  .aborted (Bool.and_eq_true_iff.mp hit).2

variable [Isolang]

/-- The two ways a call shows in a job's history: as a step of a known job, or as
the creation of the job. -/
inductive Progress (now : Timestamp) (operation : Operation) (job : Uuid) :
    Option History → Option History → Prop
  | unknown : Progress now operation job none none
  | stepped (step : HistoryStep now old new)
      (gate : old.step = .extract → new.step ≠ .extract → operation = .validate job)
      (advance : old.step ≠ .extract → new.step ≠ old.step → operation = .continue job) :
      Progress now operation job (some old) (some new)
  | created (inserts : History.Inserts [] .extract .pending none run) :
      Progress now operation job none (some ⟨.extract, [run]⟩)

namespace Progress

variable {now : Timestamp} {operation : Operation} {job : Uuid}

theorem refl (known : Option History) : Progress now operation job known known := by
  cases known with
  | none => exact .unknown
  | some known =>
      exact .stepped (.refl now known) (fun same other => absurd same other)
        (fun _ other => absurd rfl other)

theorem of_map {known : Option History} (change : History → History)
    (steps : ∀ old, known = some old → HistoryStep now old (change old) ∧
      (old.step = .extract → (change old).step ≠ .extract → operation = .validate job) ∧
      (old.step ≠ .extract → (change old).step ≠ old.step → operation = .continue job)) :
    Progress now operation job known (known.map change) := by
  cases known with
  | none => exact .unknown
  | some old =>
      obtain ⟨step, gate, advance⟩ := steps old rfl
      exact .stepped step gate advance

theorem of_owner {owner : Uuid} {known : Option History} (change : History → History)
    (elsewhere : job ≠ owner → ∀ old, change old = old)
    (steps : job = owner → ∀ old, known = some old → HistoryStep now old (change old) ∧
      (old.step = .extract → (change old).step ≠ .extract → operation = .validate job) ∧
      (old.step ≠ .extract → (change old).step ≠ old.step → operation = .continue job)) :
    Progress now operation job known (known.map change) := by
  by_cases same : job = owner
  · exact of_map change (steps same)
  · rw [funext (elsewhere same), Option.map_id']
    exact refl known

end Progress

theorem progress_updateRuns {now : Timestamp} {operation : Operation} {db : Db} {job : Uuid}
    {hit : StepRunRow → Bool} {set : StepRunRow → StepRunRow}
    (kept : ∀ row, (set row).jobId = row.jobId)
    (each : ∀ row, hit row = true → row.Evolves now (set row)) :
    Progress now operation job (db.history job) ((db.updateRuns hit set).2.history job) := by
  rw [Db.history_updateRuns db job kept]
  exact .of_map _ fun old _ =>
    ⟨.evolved _ fun row _ => evolves_updateWhere each row,
      fun same other => absurd same other, fun _ other => absurd rfl other⟩

/-- Every call but the repository's `begin` is a step of the pipeline for every
job. -/
theorem Effect.progress {env : Env} {db next : Db} {operation : Operation}
    {result : Except Error Output} (effect : Effect env db operation result next)
    (referenced : db.Referenced) (noBegin : ∀ job step, operation ≠ .begin job step)
    (job : Uuid) :
    Progress env.now operation job (db.history job) (next.history job) := by
  cases effect with
  | failed => exact .refl _
  | @started new row run _ created inserted =>
      obtain ⟨rfl, fresh⟩ := createJob_ok created
      have ofJob := insertRun_jobId inserted
      rw [Db.history_insertRun, Db.history_insertJob _ _ fresh, ofJob]
      by_cases same : (newJob env new).id = job
      · subst same
        have absent : db.job? (newJob env new).id = none := find?_key_eq_none.mpr fresh
        have noRuns : db.runsOf (newJob env new).id = [] := by
          refine List.filter_eq_nil_iff.mpr fun other member ofOther => ?_
          have found := referenced other member
          rw [of_decide_eq_true ofOther, absent] at found
          contradiction
        have inserts := insertRun_inserts rfl inserted
        have unknown : db.history (newJob env new).id = none := by rw [Db.history, absent]; rfl
        simp only [↓reduceIte, Option.map_some, unknown]
        rw [noRuns]
        have sameRuns : (db.apply (.insertJob (newJob env new))).runsOf (newJob env new).id = [] :=
          noRuns
        rw [sameRuns] at inserts
        exact .created inserts
      · simp only [same, ↓reduceIte, Option.map_id']
        exact .refl _
  | claimed => exact progress_updateRuns (fun _ => rfl) (claim_evolves _ _)
  | finished => exact progress_updateRuns (fun _ => rfl) (finish_evolves _ _ _)
  | aborted => exact progress_updateRuns (fun _ => rfl) (abort_evolves _ _)
  | begun => exact absurd rfl (noBegin _ _)
  | @restarted owner row run _ found step inserted =>
      have ofJob := insertRun_jobId inserted
      rw [Db.history_insertRun]
      refine .of_owner _ (fun other _ => if_neg fun same => other (same.symm.trans ofJob)) ?_
      rintro rfl old known
      rw [Db.history_of_found found, step] at known
      obtain rfl := Option.some.inj known
      rw [if_pos ofJob]
      exact ⟨.restarted (insertRun_inserts rfl inserted), fun same other => absurd same other,
        fun _ other => absurd rfl other⟩
  | @validated owner row last run _ found step latest lastStep lastStatus lastComplete inserted =>
      have ofJob := insertRun_jobId inserted
      rw [Db.history_insertRun, Db.history_setStep, Option.map_map]
      refine .of_owner _ (fun (other : job ≠ owner) old => ?_) ?_
      · have notRun : run.jobId ≠ job := fun same => other (same.symm.trans ofJob)
        simp only [Function.comp_apply, if_neg other, if_neg notRun]
      · rintro rfl old known
        rw [Db.history_of_found found, step] at known
        obtain rfl := Option.some.inj known
        rw [Function.comp_apply, if_pos rfl, if_pos ofJob]
        exact ⟨.validated ⟨latest, lastStep, lastStatus, lastComplete⟩
          (insertRun_inserts rfl inserted), fun _ _ => rfl, fun past => absurd rfl past⟩
  | @advanced owner row last run _ found step latest lastStep lastStatus lastComplete inserted =>
      have ofJob := insertRun_jobId inserted
      rw [Db.history_insertRun, Db.history_setStep, Option.map_map]
      refine .of_owner _ (fun (other : job ≠ owner) old => ?_) ?_
      · have notRun : run.jobId ≠ job := fun same => other (same.symm.trans ofJob)
        simp only [Function.comp_apply, if_neg other, if_neg notRun]
      · rintro rfl old known
        rw [Db.history_of_found found, step] at known
        obtain rfl := Option.some.inj known
        rw [Function.comp_apply, if_pos rfl, if_pos ofJob]
        exact ⟨.advanced ⟨latest, lastStep, lastStatus, lastComplete⟩
          (insertRun_inserts rfl inserted), nofun, fun _ _ => rfl⟩
  | @completed owner row last found step latest lastStep lastStatus lastComplete =>
      rw [Db.history_setStep]
      refine .of_owner _ (fun other _ => if_neg other) ?_
      rintro rfl old known
      rw [Db.history_of_found found, step] at known
      obtain rfl := Option.some.inj known
      rw [if_pos rfl]
      exact ⟨.completed ⟨latest, lastStep, lastStatus, lastComplete⟩, nofun, fun _ _ => rfl⟩

end Zyndeck
