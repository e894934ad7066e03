import Zyndeck.Db.Recovery

namespace Zyndeck

open Data

/-! Jobs that no call takes any further. -/

/-- No run of the job is active, and none of its step succeeded. -/
def History.Over (history : History) : Prop :=
  ∀ row ∈ history.runs, row.status.isActive = false ∧
    (row.step = history.step → row.status ≠ .succeeded)

instance (history : History) : Decidable history.Over :=
  inferInstanceAs (Decidable (∀ row ∈ history.runs, _))

theorem HistoryStep.eq_of_over {now : Timestamp} {old new : History}
    (step : HistoryStep now old new) (isOver : old.Over) (past : old.step ≠ .extract) :
    new = old := by
  have unsucceeded : ∀ {tie : Uuid → Nat} {last : StepRunRow},
      ¬ History.Succeeded old.runs old.step tie last := fun succeeded =>
    (isOver _ (firstBy_mem succeeded.latest)).2 succeeded.step_eq succeeded.status_eq
  cases step with
  | @evolved runs onStep evolve each =>
      have kept : runs.map evolve = runs := by
        refine (List.map_congr_left fun row member => ?_).trans (List.map_id runs)
        exact (each row member).eq_of_inactive (isOver row member).1
      rw [kept]
  | restarted | validated => exact absurd rfl past
  | advanced succeeded | completed succeeded => exact absurd succeeded unsucceeded

theorem History.Shaped.over_of_completed {history : History} (shaped : history.Shaped)
    (completed : history.step = .completed) : history.Over := fun row member =>
  ⟨shaped.inactive_of_completed completed row member, fun onStep =>
    absurd (onStep.trans completed) (shaped.step_ne_completed member)⟩

/-! What the columns of a job's runs say in any state that calls lead to. -/

/-- Only aborted runs leave columns out, and a run that another step followed has
started. -/
structure History.Started (history : History) : Prop where
  complete : ∀ row ∈ history.runs, row.status ≠ .aborted → row.Complete
  started : history.step ≠ .extract → ∀ row ∈ history.runs, row.step ≠ history.step →
    row.startedAt.isSome

theorem StepRunRow.Evolves.complete_of_unaborted {now : Timestamp} {old new : StepRunRow}
    (evolved : Evolves now old new) (complete : old.status ≠ .aborted → old.Complete)
    (unaborted : new.status ≠ .aborted) : new.Complete := by
  cases evolved with
  | kept => exact complete unaborted
  | claimed => simp [Complete, claim]
  | finished running outcome =>
      refine (Evolves.finished running outcome).complete (complete (by simp [running])) ?_
      exact fun aborted => absurd aborted unaborted
  | aborted => exact absurd rfl unaborted

theorem History.Inserts.complete {runs : List StepRunRow} {step : IngestionStep}
    {status : RunStatus} {startedAt : Option Timestamp} {run : StepRunRow}
    (inserts : History.Inserts runs step status startedAt run)
    (start : status = .pending ∨ status = .running ∧ startedAt.isSome) : run.Complete := by
  rw [StepRunRow.Complete, inserts.status_eq, inserts.startedAt_eq]
  rcases start with rfl | ⟨rfl, started⟩
  · trivial
  · exact started

theorem HistoryStep.started {now : Timestamp} {old new : History}
    (step : HistoryStep now old new) (holds : old.Started) : new.Started := by
  have appended : ∀ {run : StepRunRow}, run.Complete →
      ∀ row ∈ old.runs ++ [run], row.status ≠ .aborted → row.Complete := by
    intro run complete row member
    rcases List.mem_append.mp member with member | member
    · exact holds.complete row member
    · exact fun _ => List.mem_singleton.mp member ▸ complete
  -- Every other run has started once a success was the latest of them.
  have begun : ∀ {run : StepRunRow} {onStep : IngestionStep} {tie : Uuid → Nat}
      {last : StepRunRow}, History.Succeeded old.runs onStep tie last →
      ∀ row ∈ old.runs ++ [run], row.step ≠ run.step → row.startedAt.isSome := by
    intro run onStep tie last succeeded row member other
    rcases List.mem_append.mp member with member | member
    · exact started_of_succeeded succeeded row member
    · exact absurd (List.mem_singleton.mp member ▸ rfl) other
  cases step with
  | evolved evolve each =>
      refine ⟨fun row member unaborted => ?_, fun past row member other => ?_⟩ <;>
        obtain ⟨before, stored, rfl⟩ := List.mem_map.mp member
      · exact (each before stored).complete_of_unaborted (holds.complete before stored) unaborted
      · rcases (each before stored).startedAt_eq with same | ⟨_, same⟩ <;> rw [same]
        · exact holds.started past before stored ((each before stored).step_eq ▸ other)
        · rfl
  | restarted inserts =>
      exact ⟨appended (inserts.complete (.inl rfl)), fun past => absurd rfl past⟩
  | validated succeeded inserts =>
      exact ⟨appended (inserts.complete (.inl rfl)), fun _ row member other =>
        begun succeeded row member (inserts.step_eq ▸ other)⟩
  | advanced succeeded inserts =>
      exact ⟨appended (inserts.complete (.inr ⟨rfl, rfl⟩)), fun _ row member other =>
        begun succeeded row member (inserts.step_eq ▸ other)⟩
  | completed succeeded =>
      exact ⟨holds.complete, fun _ row member _ => started_of_succeeded succeeded row member⟩

section

variable [Isolang]

def Db.Started (db : Db) : Prop :=
  ∀ job history, db.history job = some history → history.Started

theorem Effect.keeps_started {env : Env} {db next : Db} {operation : Operation}
    {result : Except Error Output} (effect : Effect env db operation result next)
    (referenced : db.Referenced) (pipeline : operation.isBegin = false) (started : db.Started) :
    next.Started := by
  intro job history known
  have progress := effect.progress_of_pipeline referenced pipeline job
  rw [known] at progress
  cases before : db.history job with
  | none =>
      rw [before] at progress
      cases progress with
      | created inserts =>
          refine ⟨fun row member _ => ?_, fun past => absurd rfl past⟩
          exact List.mem_singleton.mp member ▸ inserts.complete (.inl rfl)
  | some old =>
      rw [before] at progress
      cases progress with
      | stepped step => exact step.started (started job old before)

theorem started_of_reachable {db : Db} (reachable : Reachable Db.Initial (Calls Unclocked) db) :
    db.Started := by
  refine reachable.invariant_over (fun _ => keyed_of_reachable) (fun start initial => ?_) ?_
  · intro job history known
    simp [initial.history job] at known
  · rintro db call next keyed _ started ⟨pipeline, performed⟩
    obtain ⟨_, effect⟩ := performed.effect
    exact effect.keeps_started keyed.referenced pipeline started

omit [Isolang] in
theorem Db.exists_before (db : Db) : ∃ now, db.Before now := by
  have latest : ∀ runs : List StepRunRow, ∃ now : Timestamp, ∀ row ∈ runs,
      (∀ start ∈ row.startedAt, start < now) ∧ ∀ ended ∈ row.completedAt, ended < now := by
    intro runs
    induction runs with
    | nil => exact ⟨0, by simp⟩
    | cons row rest induction =>
        obtain ⟨now, before⟩ := induction
        refine ⟨max now (max (row.startedAt.getD 0) (row.completedAt.getD 0) + 1), ?_⟩
        intro other member
        rcases List.mem_cons.mp member with rfl | member
        · refine ⟨fun start isStart => ?_, fun ended isEnded => ?_⟩
          · rw [Option.mem_def.mp isStart, Option.getD_some]
            grind
          · rw [Option.mem_def.mp isEnded, Option.getD_some]
            grind
        · obtain ⟨starts, ends⟩ := before other member
          exact ⟨fun start isStart => Int.lt_of_lt_of_le (starts start isStart) (by omega),
            fun ended isEnded => Int.lt_of_lt_of_le (ends ended isEnded) (by omega)⟩
  exact latest db.runs

omit [Isolang] in
theorem history_updateRuns_ne {db : Db} {job : Uuid} {history : History}
    {hit : StepRunRow → Bool} {set : StepRunRow → StepRunRow}
    (kept : ∀ row, (set row).jobId = row.jobId) (known : db.history job = some history)
    {row : StepRunRow} (member : row ∈ history.runs) (matched : hit row = true)
    (changes : (set row).status ≠ row.status) :
    (db.updateRuns hit set).2.history job ≠ some history := by
  intro same
  rw [Db.history_updateRuns db job kept, known] at same
  have runs : updateWhere hit set history.runs = history.runs :=
    congrArg History.runs (Option.some.inj same)
  rw [updateWhere] at runs
  have fixed := List.map_inj_left.mp (runs.trans (List.map_id history.runs).symm) row member
  simp only [matched, ↓reduceIte, id] at fixed
  exact changes (by rw [fixed])

omit [Isolang] in
theorem History.Sound.latest_of_succeeded {history : History} (sound : history.Sound)
    (started : history.Started) (phase : history.step = .chunk ∨ history.step = .embed)
    {row : StepRunRow} (member : row ∈ history.runs) (onStep : row.step = history.step)
    (succeeded : row.status = .succeeded) (tie : Uuid → Nat) :
    History.Succeeded history.runs history.step tie row := by
  have complete := started.complete row member (by simp [succeeded])
  have past : history.step ≠ .extract := by rcases phase with onStep | onStep <;> simp [onStep]
  obtain ⟨front, final, runs, _, others, _⟩ := sound.eq_concat phase
  have isFinal : row = final := by
    rcases List.mem_append.mp (runs ▸ member) with inFront | isFinal
    · exact absurd onStep (others row inFront)
    · exact List.mem_singleton.mp isFinal
  refine ⟨?_, onStep, succeeded, complete⟩
  refine firstBy_eq_of_precedes (laterFirst_strictOrder tie) member fun other stored apart => ?_
  have inFront : other ∈ front := by
    rcases List.mem_append.mp (runs ▸ stored) with inFront | isLast
    · exact inFront
    · exact absurd ((List.mem_singleton.mp isLast).trans isFinal.symm) apart
  have before : History.StartsBefore other row :=
    (List.pairwise_append.mp (runs ▸ sound.starts)).2.2 other inFront row (by simp [isFinal])
  obtain ⟨start, isStart⟩ :=
    Option.isSome_iff_exists.mp (started.started past other stored (others other inFront))
  exact History.laterFirst_of_startsBefore isStart before

/-- `continue_job` takes a success of the current phase-2 step that is the latest run. -/
theorem continue_of_latest {env : Env} {db : Db} {job : Uuid} {history : History}
    (shaped : db.Shaped) (known : db.history job = some history)
    (idle : ∀ row ∈ history.runs, row.status.isActive = false)
    (fresh : ∀ row ∈ db.runs, row.id ≠ env.runId)
    (phase : history.step = .chunk ∨ history.step = .embed) {row : StepRunRow}
    (latest : History.Succeeded history.runs history.step env.tie row) :
    ∃ output, (Operation.exec env (.continue job) db).result = .ok output := by
  have shapedHistory := shaped.histories job history known
  have onStep := latest.step_eq
  have succeeded := latest.status_eq
  obtain ⟨jobRow, found, rfl⟩ := Db.history_eq_some.mp known
  obtain ⟨locked, decoded⟩ := shaped.toKeyed.tryInto_job found
  have continues : ∃ value writes,
      postgres.run env db (continueJob job) [] = .ok (value, writes) := by
    rcases phase with onChunk | onEmbed
    · obtain ⟨extracts, _, keys⟩ := shapedHistory.keys
      have attempt : nextAttempt .embed (db.runsOf job) = 1 :=
        nextAttempt_ahead keys (by simp) (by
          simp [show jobRow.step = .chunk from onChunk, phaseTwo])
      have inserted : begin env job .embed db =
          .ok (newRun env job .embed .running (some env.now) db) :=
        insertRun_of_idle (by simp [found]) (by simp) fresh idle (attempt ▸ by decide)
      obtain ⟨begun, mapped, _⟩ := StepRunRow.tryInto_complete (begin_new inserted).complete
      exact ⟨_, _, continueJob_ok.mpr ⟨jobRow, locked, row, found, decoded, latest.latest, onStep,
        succeeded, latest.complete, .inl ⟨onChunk, _, begun, inserted, mapped, rfl, rfl⟩⟩⟩
    · exact ⟨_, _, continueJob_ok.mpr ⟨jobRow, locked, row, found, decoded, latest.latest, onStep,
        succeeded, latest.complete, .inr ⟨onEmbed, rfl, rfl⟩⟩⟩
  obtain ⟨value, writes, ran⟩ := continues
  exact ⟨.advanced value, congrArg Outcome.result (transaction_of_ok ran)⟩

omit [Isolang] in
theorem History.Shaped.phase_of_member {history : History} (shaped : history.Shaped)
    {row : StepRunRow} (member : row ∈ history.runs) (onStep : row.step = history.step)
    (past : history.step ≠ .extract) : history.step = .chunk ∨ history.step = .embed := by
  have uncompleted := onStep ▸ shaped.step_ne_completed member
  cases step : history.step with
  | extract => exact absurd step past
  | chunk => exact .inl rfl
  | embed => exact .inr rfl
  | completed => exact absurd step uncompleted

theorem Effect.moved_of_continue {env : Env} {db next : Db} {job : Uuid} {output : Output}
    (effect : Effect env db (.continue job) (.ok output) next) {history : History}
    (known : db.history job = some history) :
    ∃ later, next.history job = some later ∧ later.step ≠ history.step := by
  obtain ⟨row, found, rfl⟩ := Db.history_eq_some.mp known
  cases effect with
  | advanced isRow onChunk _ _ _ _ inserted =>
      obtain rfl := Option.some.inj (isRow.symm.trans found)
      rw [Db.history_insertRun, Db.history_setStep, known]
      exact ⟨_, rfl, by simp [insertRun_jobId inserted, onChunk]⟩
  | completed isRow onEmbed =>
      obtain rfl := Option.some.inj (isRow.symm.trans found)
      rw [Db.history_setStep, known]
      exact ⟨_, rfl, by simp [onEmbed]⟩

theorem exists_change {db : Db} {job : Uuid} {history : History} (sound : db.Sound)
    (started : db.Started) (known : db.history job = some history) (past : history.step ≠ .extract)
    (room : ∃ id, ∀ row ∈ db.runs, row.id ≠ id) (notOver : ¬ history.Over) :
    ∃ call, Clocked db call ∧ (call.operation.exec call.env db).db.history job ≠ some history := by
  obtain ⟨now, clock⟩ := db.exists_before
  obtain ⟨id, fresh⟩ := room
  let env : Env := ⟨now, job, id, fun _ => id, fun _ => 0⟩
  by_cases idle : ∀ row ∈ history.runs, row.status.isActive = false
  · simp only [History.Over, not_forall, not_and, not_not] at notOver
    obtain ⟨row, member, succeeds⟩ := notOver
    obtain ⟨onStep, succeeded⟩ := succeeds (idle row member)
    have soundHistory := sound.histories job history known
    have phase := soundHistory.toShaped.phase_of_member member onStep past
    have continues : ∃ output, (Operation.exec env (.continue job) db).result = .ok output :=
      continue_of_latest sound.shaped known idle fresh phase
        (soundHistory.latest_of_succeeded (started job history known) phase member onStep
          succeeded env.tie)
    obtain ⟨output, result⟩ := continues
    have effect := exec_effect env (.continue job) db
    rw [result] at effect
    obtain ⟨later, isLater, moved⟩ := effect.moved_of_continue known
    refine ⟨⟨env, .continue job⟩, ⟨clock, rfl⟩, fun same => moved ?_⟩
    rw [Option.some.inj (isLater.symm.trans same)]
  · simp only [not_forall, Bool.not_eq_false] at idle
    obtain ⟨row, member, active⟩ := idle
    have ofJob : row.jobId = job := by
      obtain ⟨_, _, rfl⟩ := Db.history_eq_some.mp known
      exact of_decide_eq_true (List.mem_filter.mp member).2
    cases status : row.status with
    | pending =>
        refine ⟨⟨env, .claim job⟩, ⟨clock, rfl⟩, ?_⟩
        refine history_updateRuns_ne (fun _ => rfl) known member ?_
          (by simp [StepRunRow.claim, status])
        simp [StepRunRow.isPendingOf, ofJob, status]
    | running =>
        refine ⟨⟨env, .finish row.id .succeeded⟩, ⟨clock, rfl⟩, ?_⟩
        refine history_updateRuns_ne (fun _ => rfl) known member ?_
          (by simp [StepRunRow.finish, StepOutcome.status, status])
        simp [StepRunRow.isRunningRun, status]
    | succeeded | failed | aborted => simp [status, RunStatus.isActive] at active

/-- Past the gate, a job is over exactly when no calls of the pipeline change it again. -/
theorem over_iff_final {db : Db} {job : Uuid} {history : History}
    (reachable : Reachable Db.Initial (Calls Clocked) db)
    (known : db.history job = some history) (past : history.step ≠ .extract)
    (room : ∃ id, ∀ row ∈ db.runs, row.id ≠ id) :
    history.Over ↔ ∀ calls later, Run (Calls Clocked) db calls later →
      later.history job = some history := by
  have sound := sound_of_reachable reachable
  constructor
  · intro isOver calls later run
    have step : ∀ (before : Db) (call : Call) (next : Db),
        before.Keyed ∧ before.history job = some history → Calls Clocked before call next →
        next.Keyed ∧ next.history job = some history := by
      rintro before call next ⟨keyed, same⟩ ⟨⟨_, pipeline⟩, performed⟩
      obtain ⟨_, effect⟩ := performed.effect
      have progress := effect.progress_of_pipeline keyed.referenced pipeline job
      rw [same] at progress
      generalize next.history job = found at progress ⊢
      cases progress with
      | stepped moved => exact ⟨effect.keyed keyed, congrArg some (moved.eq_of_over isOver past)⟩
    exact (run.invariant step ⟨sound.toKeyed, known⟩).2
  · intro final
    refine Classical.byContradiction fun notOver => ?_
    have started := started_of_reachable (reachable.mono fun _ _ _ taken => ⟨taken.1.2, taken.2⟩)
    obtain ⟨call, clocked, changes⟩ := exists_change sound started known past room notOver
    exact changes (final [call] _ (.single ⟨clocked, .ended⟩))

end

section

attribute [local instance] english

theorem over_after_failed_chunk :
    let db := after Clocked catalog (toChunk ++
      [tick 5 (.claim firstJob), tick 6 (.finish ⟨5⟩ (.failed ['n', 'o']))])
    ∀ calls later, Run (Calls Clocked) db calls later →
      later.history firstJob = some ⟨.chunk, db.runsOf firstJob⟩ :=
  (over_iff_final (reachable_after catalog_initial (by decide)) rfl (by decide)
    ⟨⟨0⟩, by decide⟩).mp (by decide)

end

end Zyndeck
