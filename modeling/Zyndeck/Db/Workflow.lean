import Zyndeck.Db.Invariant

namespace Zyndeck

open Data

/-! A job as who started it sees it, and how the calls take it on. -/

inductive JobStatus where
  /-- Its latest transcription is asked for or under way. -/
  | transcribing
  /-- Its latest transcription failed or was aborted. -/
  | retry
  /-- Its transcript is there to be reviewed. -/
  | review
  | indexing
  | stuck
  | completed
  deriving DecidableEq

inductive Milestone where
  | started
  | transcribed
  | failed
  | restarted
  | validated
  | indexed
  | broke
  deriving DecidableEq

/-- What a job is for: transcribed until it is validated, then indexed. -/
inductive Workflow : Option JobStatus → Milestone → Option JobStatus → Prop
  | started : Workflow none .started (some .transcribing)
  | transcribed : Workflow (some .transcribing) .transcribed (some .review)
  | failed : Workflow (some .transcribing) .failed (some .retry)
  | redone : Workflow (some .review) .restarted (some .transcribing)
  | retried : Workflow (some .retry) .restarted (some .transcribing)
  | validated : Workflow (some .review) .validated (some .indexing)
  | indexed : Workflow (some .indexing) .indexed (some .completed)
  | broke : Workflow (some .indexing) .broke (some .stuck)

def JobStatus.ending : JobStatus → List Milestone
  | .transcribing => []
  | .retry => [.failed]
  | .review => [.transcribed]
  | .indexing => [.transcribed, .validated]
  | .stuck => [.transcribed, .validated, .broke]
  | .completed => [.transcribed, .validated, .indexed]

/-- The milestones behind a job: transcriptions that were done again, and then what its status
says. -/
def Behind (milestones : List Milestone) : Option JobStatus → Prop
  | none => milestones = []
  | some status => ∃ attempts : List Milestone,
      (∀ attempt ∈ attempts, attempt = .transcribed ∨ attempt = .failed) ∧
      milestones =
        .started :: attempts.flatMap (fun attempt => [attempt, .restarted]) ++ status.ending

theorem Workflow.behind {milestones : List Milestone} {status : Option JobStatus}
    (run : Run Workflow none milestones status) : Behind milestones status := by
  induction run with
  | nil => rfl
  | snoc _ step behind =>
      cases step with
      | started =>
          obtain rfl := behind
          exact ⟨[], by simp, rfl⟩
      | transcribed | failed | validated | indexed | broke =>
          obtain ⟨attempts, kinds, rfl⟩ := behind
          exact ⟨attempts, kinds, by simp [JobStatus.ending]⟩
      | redone =>
          obtain ⟨attempts, kinds, rfl⟩ := behind
          refine ⟨attempts ++ [.transcribed], ?_, by simp [JobStatus.ending]⟩
          simpa [or_imp, forall_and] using kinds
      | retried =>
          obtain ⟨attempts, kinds, rfl⟩ := behind
          refine ⟨attempts ++ [.failed], ?_, by simp [JobStatus.ending]⟩
          simpa [or_imp, forall_and] using kinds

/-! The status of a job in the tables. -/

def statusOf : IngestionStep → Option RunStatus → JobStatus
  | .extract, some .succeeded => .review
  | .extract, some .failed | .extract, some .aborted => .retry
  | .extract, _ => .transcribing
  | .chunk, some .failed | .chunk, some .aborted => .stuck
  | .embed, some .failed | .embed, some .aborted => .stuck
  | .chunk, _ | .embed, _ => .indexing
  | .completed, _ => .completed

def History.status (history : History) : JobStatus :=
  statusOf history.step (history.runs.getLast?.map (·.status))

def Db.status (db : Db) (job : Uuid) : Option JobStatus := (db.history job).map History.status

/-- A job stays where it is, or passes a milestone that is `allowed`. -/
def Passes (allowed : Milestone → Prop) (old new : Option JobStatus) : Prop :=
  new = old ∨ ∃ milestone, allowed milestone ∧ Workflow old milestone new

section

variable [Isolang]

def Db.Owns (db : Db) (job run : Uuid) : Prop := ∃ row ∈ db.runs, row.id = run ∧ row.jobId = job

/-- The milestones that a call can take a job past. -/
def Operation.Makes (env : Env) (db : Db) (job : Uuid) : Operation → Milestone → Prop
  | .start _, .started => env.jobId = job
  | .restart target, .restarted => target = job
  | .validate target, .validated => target = job
  | .continue target, .indexed => target = job
  | .finish run outcome, .transcribed => db.Owns job run ∧ outcome = .succeeded
  | .finish run outcome, .failed | .finish run outcome, .broke =>
      db.Owns job run ∧ outcome ≠ .succeeded
  | .abort target, .failed | .abort target, .broke => target = job
  | _, _ => False

end

namespace History

theorem status_updateWhere {step : IngestionStep} {runs : List StepRunRow}
    {hit : StepRunRow → Bool} {set : StepRunRow → StepRunRow} :
    status ⟨step, updateWhere hit set runs⟩ =
      statusOf step (runs.getLast?.map fun row => (if hit row then set row else row).status) := by
  simp [status, updateWhere, List.getLast?_map, Function.comp_def]

theorem status_append {step : IngestionStep} {runs : List StepRunRow} {run : StepRunRow} :
    status ⟨step, runs ++ [run]⟩ = statusOf step (some run.status) := by
  simp [status]

theorem passes_updateWhere {history : History} {allowed : Milestone → Prop}
    {hit : StepRunRow → Bool} {set : StepRunRow → StepRunRow}
    (each : ∀ row ∈ history.runs, hit row = true →
      Passes allowed (some (statusOf history.step (some row.status)))
        (some (statusOf history.step (some (set row).status)))) :
    Passes allowed (some history.status)
      (some (status ⟨history.step, updateWhere hit set history.runs⟩)) := by
  rw [status_updateWhere, status]
  cases last : history.runs.getLast? with
  | none => exact .inl rfl
  | some row =>
      simp only [Option.map_some]
      split
      · exact each row (List.mem_of_getLast? last) ‹_›
      · exact .inl rfl

theorem Sound.newest_of_succeeded {runs : List StepRunRow} {tie : Uuid → Nat} {last : StepRunRow}
    (sound : Sound ⟨.extract, runs⟩) (succeeded : Succeeded runs .extract tie last) :
    runs.getLast? = some last := by
  have greatest := sound.newest_attempt succeeded
  obtain ⟨extracts, _, keys⟩ := sound.keys
  have attempts : runs.map (·.attempt) = List.range' 1 extracts := by
    simpa [keysOf, phaseTwo, StepRunRow.key, Function.comp_def] using
      congrArg (List.map Prod.snd) keys
  have ordered : runs.Pairwise (·.attempt < ·.attempt) :=
    List.pairwise_map.mp (attempts ▸ List.pairwise_lt_range')
  have member := firstBy_mem succeeded.latest
  rcases List.eq_nil_or_concat runs with rfl | ⟨front, final, rfl⟩
  · contradiction
  · rw [List.concat_eq_append] at *
    rcases List.mem_append.mp member with earlier | isFinal
    · have before := (List.pairwise_append.mp ordered).2.2 last earlier final (by simp)
      exact absurd (greatest final (by simp)) (by omega)
    · rw [List.getLast?_concat, List.mem_singleton.mp isFinal]

theorem Shaped.passes_restart {runs : List StepRunRow} (shaped : Shaped ⟨.extract, runs⟩)
    (inactive : ∀ row ∈ runs, row.status.isActive = false) :
    Workflow (some (status ⟨.extract, runs⟩)) .restarted (some .transcribing) := by
  obtain ⟨extracts, positive, keys⟩ := shaped.keys
  have some_run : runs ≠ [] := by
    rintro rfl
    obtain ⟨count, rfl⟩ := Nat.exists_eq_succ_of_ne_zero (Nat.ne_of_gt positive)
    simp [keysOf, List.range'_succ] at keys
  obtain ⟨last, isLast⟩ := Option.ne_none_iff_exists'.mp (mt List.getLast?_eq_none_iff.mp some_run)
  have ended := inactive last (List.mem_of_getLast? isLast)
  rw [status, isLast]
  cases status : last.status with
  | pending | running => simp [status, RunStatus.isActive] at ended
  | succeeded => simpa [status, statusOf] using Workflow.redone
  | failed | aborted => simpa [status, statusOf] using Workflow.retried

theorem Shaped.newest_of_succeeded {history : History} (shaped : history.Shaped)
    (phase : history.step = .chunk ∨ history.step = .embed) {tie : Uuid → Nat} {last : StepRunRow}
    (succeeded : Succeeded history.runs history.step tie last) :
    history.runs.getLast? = some last := by
  obtain ⟨front, final, whole, _, ahead, _⟩ := shaped.eq_concat phase
  have member := firstBy_mem succeeded.latest
  rw [whole] at member ⊢
  rcases List.mem_append.mp member with earlier | isFinal
  · exact absurd succeeded.step_eq (ahead last earlier)
  · rw [List.getLast?_concat, List.mem_singleton.mp isFinal]

end History

namespace Db

variable {db : Db} {job : Uuid}

theorem status_insertRun (db : Db) (job : Uuid) (run : StepRunRow) :
    (db.apply (.insertRun run)).status job = if run.jobId = job then
      (db.history job).map fun history => statusOf history.step (some run.status) else
        db.status job := by
  rw [status, history_insertRun, Option.map_map]
  by_cases same : run.jobId = job
  · simp only [same, if_true]
    exact congrArg (Option.map · _) (funext fun _ => History.status_append)
  · simp [same, status, Function.comp_def]

theorem status_setStep_of_ne {other : Uuid} (apart : job ≠ other) (step : IngestionStep) :
    (db.apply (.setStep other step)).status job = db.status job := by
  rw [status, history_setStep, Option.map_map]
  simp [apart, status, Function.comp_def]

end Db

section

variable [Isolang]

omit [Isolang] in
theorem passes_updateRuns {allowed : Milestone → Prop} {db : Db} {job : Uuid}
    {hit : StepRunRow → Bool} {set : StepRunRow → StepRunRow}
    (kept : ∀ row, (set row).jobId = row.jobId)
    (each : ∀ row ∈ db.runs, row.jobId = job → hit row = true → ∀ step,
      Passes allowed (some (statusOf step (some row.status)))
        (some (statusOf step (some (set row).status)))) :
    Passes allowed (db.status job) ((db.updateRuns hit set).2.status job) := by
  rw [Db.status, Db.status, Db.history_updateRuns db job kept]
  cases known : db.history job with
  | none => exact .inl rfl
  | some history =>
      refine History.passes_updateWhere fun row member isHit => ?_
      obtain ⟨_, _, rfl⟩ := Db.history_eq_some.mp known
      obtain ⟨stored, ofJob⟩ := List.mem_filter.mp member
      exact each row stored (of_decide_eq_true ofJob) isHit _

theorem Effect.passes {env : Env} {db next : Db} {operation : Operation}
    {result : Except Error Output} (effect : Effect env db operation result next)
    (pipeline : operation.isBegin = false) (sound : db.Sound) (job : Uuid) :
    Passes (operation.Makes env db job) (db.status job) (next.status job) := by
  cases effect with
  | failed => exact .inl rfl
  | begun => contradiction
  | claimed =>
      refine passes_updateRuns (fun _ => rfl) fun row _ _ hit step => .inl ?_
      have pending : row.status = .pending := of_decide_eq_true (Bool.and_eq_true_iff.mp hit).2
      rw [pending]
      cases step <;> rfl
  | @finished id outcome =>
      refine passes_updateRuns (fun _ => rfl) fun row stored ofJob hit step => ?_
      obtain ⟨isRun, isRunning⟩ := Bool.and_eq_true_iff.mp hit
      have owns : db.Owns job id := ⟨row, stored, of_decide_eq_true isRun, ofJob⟩
      have running : row.status = .running := of_decide_eq_true isRunning
      rw [running]
      cases outcome with
      | succeeded =>
          cases step with
          | extract => exact .inr ⟨.transcribed, ⟨owns, rfl⟩, .transcribed⟩
          | chunk | embed | completed => exact .inl rfl
      | failed error =>
          cases step with
          | extract => exact .inr ⟨.failed, ⟨owns, by simp⟩, .failed⟩
          | chunk | embed => exact .inr ⟨.broke, ⟨owns, by simp⟩, .broke⟩
          | completed => exact .inl rfl
  | @aborted target =>
      refine passes_updateRuns (fun _ => rfl) fun row _ ofJob hit step => ?_
      obtain ⟨ofTarget, active⟩ := Bool.and_eq_true_iff.mp hit
      have same : target = job := (of_decide_eq_true ofTarget).symm.trans ofJob
      cases status : row.status with
      | succeeded | failed | aborted => simp [status, RunStatus.isActive] at active
      | pending | running =>
          cases step with
          | extract => exact .inr ⟨.failed, same, .failed⟩
          | chunk | embed => exact .inr ⟨.broke, same, .broke⟩
          | completed => exact .inl rfl
  | @started new row run _ created inserted =>
      obtain ⟨rfl, fresh⟩ := createJob_ok created
      have ofJob := insertRun_jobId inserted
      have pending := (insertRun_inserts rfl inserted).status_eq
      rw [Db.status_insertRun, ofJob]
      by_cases same : (newJob env new).id = job
      · have unknown : db.history job = none := by
          rw [Db.history, Db.job?, find?_key_eq_none.mpr (same ▸ fresh)]
          rfl
        refine .inr ⟨.started, same, ?_⟩
        rw [if_pos same, Db.history_insertJob _ _ fresh, if_pos same, Db.status, unknown, pending]
        exact .started
      · refine .inl ?_
        rw [if_neg same, Db.status, Db.status, Db.history_insertJob _ _ fresh, if_neg same]
  | @restarted owner row run _ found step inserted =>
      have inserts := insertRun_inserts rfl inserted
      rw [Db.status_insertRun, insertRun_jobId inserted]
      by_cases same : owner = job
      · subst same
        have known := Db.history_of_found found
        have shaped := (sound.histories _ _ known).toShaped
        rw [if_pos rfl, Db.status, known, step] at *
        refine .inr ⟨.restarted, rfl, ?_⟩
        simpa [inserts.status_eq, statusOf] using shaped.passes_restart inserts.inactive
      · exact .inl (if_neg same)
  | @validated owner row last run _ found step latest lastStep lastStatus lastComplete inserted =>
      have inserts := insertRun_inserts rfl inserted
      rw [Db.status_insertRun, insertRun_jobId inserted]
      by_cases same : owner = job
      · subst same
        have known := Db.history_of_found found
        have sound := sound.histories _ _ known
        rw [step] at known sound
        have newest := sound.newest_of_succeeded ⟨latest, lastStep, lastStatus, lastComplete⟩
        refine .inr ⟨.validated, rfl, ?_⟩
        rw [if_pos rfl, Db.history_setStep, Db.status, known]
        simpa [inserts.status_eq, History.status, newest, lastStatus, statusOf] using
          Workflow.validated
      · rw [if_neg same, Db.status_setStep_of_ne (Ne.symm same)]
        exact .inl rfl
  | @advanced owner row last run _ found step latest lastStep lastStatus lastComplete inserted =>
      have inserts := insertRun_inserts rfl inserted
      rw [Db.status_insertRun, insertRun_jobId inserted]
      by_cases same : owner = job
      · subst same
        have known := Db.history_of_found found
        have shaped := (sound.histories _ _ known).toShaped
        rw [step] at known shaped
        have newest := shaped.newest_of_succeeded (.inl rfl)
          ⟨latest, lastStep, lastStatus, lastComplete⟩
        refine .inl ?_
        rw [if_pos rfl, Db.history_setStep, Db.status, known]
        simp [inserts.status_eq, History.status, newest, lastStatus, statusOf]
      · rw [if_neg same, Db.status_setStep_of_ne (Ne.symm same)]
        exact .inl rfl
  | @completed owner row last found step latest lastStep lastStatus lastComplete =>
      by_cases same : owner = job
      · subst same
        have known := Db.history_of_found found
        have shaped := (sound.histories _ _ known).toShaped
        rw [step] at known shaped
        have newest := shaped.newest_of_succeeded (.inr rfl)
          ⟨latest, lastStep, lastStatus, lastComplete⟩
        refine .inr ⟨.indexed, rfl, ?_⟩
        rw [Db.status, Db.status, Db.history_setStep, known]
        simpa [History.status, newest, lastStatus, statusOf] using Workflow.indexed
      · rw [Db.status_setStep_of_ne (Ne.symm same)]
        exact .inl rfl

end

end Zyndeck
