import Zyndeck.Db.Recovery
import Zyndeck.System.Body

namespace Zyndeck

open Data

/-! Jobs between two steps of phase 2. -/

/-- The run that a job has come to: its last one, of its current step, and the one
that `find_latest` returns if the runs started in their order. -/
structure History.Latest (history : History) (last : StepRunRow) : Prop where
  ending : ∃ front, history.runs = front ++ [last]
  step : last.step = history.step
  found : history.runs.Pairwise History.StartsBefore →
    ∀ tie, firstBy (laterFirst tie) history.runs = some last

theorem History.Shaped.step_of_mem {history : History} (shaped : history.Shaped)
    {row : StepRunRow} (member : row ∈ history.runs) :
    row.step = .extract ∨ row.step = .chunk ∧ history.step ≠ .extract ∨
      row.step = .embed ∧ (history.step = .embed ∨ history.step = .completed) := by
  obtain ⟨extracts, _, keys⟩ := shaped.keys
  have stored : row.key ∈ keysOf extracts history.step := keys ▸ List.mem_map_of_mem member
  rcases List.mem_append.mp stored with isExtract | isLater
  · obtain ⟨_, _, same⟩ := List.mem_map.mp isExtract
    exact .inl (congrArg Prod.fst same).symm
  · cases step : history.step <;>
      simp [phaseTwo, step, StepRunRow.key] at isLater <;> grind

theorem StepRunRow.startedAt_of_ended {row : StepRunRow} (complete : row.Complete)
    (ended : row.status.isActive = false) : ∃ start, row.startedAt = some start := by
  rw [← Option.isSome_iff_exists]
  cases status : row.status with
  | pending | running => simp [status, RunStatus.isActive] at ended
  | succeeded | failed | aborted =>
      rw [Complete, status] at complete
      exact complete.1

theorem History.Shaped.latest {history : History} (shaped : history.Shaped)
    (complete : ∀ row ∈ history.runs, row.Complete)
    (phase : history.step = .chunk ∨ history.step = .embed) : ∃ last, history.Latest last := by
  obtain ⟨front, last, whole, current, _, ended⟩ := shaped.eq_concat phase
  refine ⟨last, ⟨front, whole⟩, current, fun starts tie => ?_⟩
  rw [whole] at starts complete ⊢
  obtain ⟨first, found⟩ : ∃ first, firstBy (laterFirst tie) (front ++ [last]) = some first :=
    Option.ne_none_iff_exists'.mp (by simp [firstBy_eq_none])
  rw [found]
  rcases List.mem_append.mp (firstBy_mem found) with member | member
  · obtain ⟨start, started⟩ :=
      StepRunRow.startedAt_of_ended (complete first (List.mem_append_left _ member))
        (ended first member)
    have before := (List.pairwise_append.mp starts).2.2 first member last
      (List.mem_singleton_self _)
    have never := firstBy_not_before (laterFirst_strictOrder tie) found last
      (List.mem_append_right _ (List.mem_singleton_self _))
    rw [laterFirst_of_startsBefore started before] at never
    contradiction
  · exact congrArg some (List.mem_singleton.mp member)

section

variable [Isolang]

theorem Effect.succeeded {env : Env} {db next : Db} {operation : Operation}
    {result : Except Error Output} (effect : Effect env db operation result next)
    {row : StepRunRow} (member : row ∈ next.runs) (succeeded : row.status = .succeeded) :
    row ∈ db.runs ∨
      ∃ outcome, operation = .finish row.id outcome ∧ outcome.status = .succeeded := by
  have appended : ∀ {run : StepRunRow}, row ∈ db.runs ++ [run] → run.New env.now →
      row ∈ db.runs := by
    intro run member new
    rcases List.mem_append.mp member with member | member
    · exact member
    · obtain rfl := List.mem_singleton.mp member
      rcases new.start with ⟨pending, _⟩ | ⟨running, _⟩
      · simp [succeeded] at pending
      · simp [succeeded] at running
  cases effect with
  | failed | completed => exact .inl member
  | started _ inserted => exact .inl (appended member (enqueue_new inserted))
  | begun inserted => exact .inl (appended member (begin_new inserted))
  | restarted _ _ inserted => exact .inl (appended member (enqueue_new inserted))
  | validated _ _ _ _ _ _ inserted => exact .inl (appended member (enqueue_new inserted))
  | advanced _ _ _ _ _ _ inserted => exact .inl (appended member (begin_new inserted))
  | claimed =>
      rcases mem_updateWhere.mp member with ⟨old, _, _, rfl⟩ | ⟨stored, _⟩
      · contradiction
      · exact .inl stored
  | aborted =>
      rcases mem_updateWhere.mp member with ⟨old, _, _, rfl⟩ | ⟨stored, _⟩
      · contradiction
      · exact .inl stored
  | @finished id outcome =>
      rcases mem_updateWhere.mp member with ⟨old, _, matched, rfl⟩ | ⟨stored, _⟩
      · have sameId : old.id = id := of_decide_eq_true (Bool.and_eq_true_iff.mp matched).1
        exact .inr ⟨outcome, by rw [← sameId]; rfl, succeeded⟩
      · exact .inl stored

omit [Isolang] in
theorem Db.mem_history {db : Db} {job : Uuid} {history : History} {row : StepRunRow}
    (known : db.history job = some history) :
    row ∈ history.runs ↔ row ∈ db.runs ∧ row.jobId = job := by
  obtain ⟨_, _, rfl⟩ := Db.history_eq_some.mp known
  simp [Db.runsOf]

theorem Effect.step_of_succeeded {env : Env} {db next : Db} {operation : Operation}
    {result : Except Error Output} (effect : Effect env db operation result next)
    (pipeline : operation.isBegin = false) (shaped : db.Shaped) {job : Uuid}
    {later : History} (known : next.history job = some later) {row : StepRunRow}
    (stored : row ∈ db.runs) (ofJob : row.jobId = job)
    (phase : later.step = .chunk ∨ later.step = .embed) (current : row.step = later.step) :
    ∃ old, db.history job = some old ∧ old.step = later.step := by
  obtain ⟨found, isJob⟩ := Option.isSome_iff_exists.mp (shaped.referenced row stored)
  obtain ⟨old, before⟩ : ∃ old, db.history job = some old :=
    ⟨_, Db.history_of_found (ofJob ▸ isJob)⟩
  refine ⟨old, before, ?_⟩
  have place := (shaped.histories _ _ before).step_of_mem
    ((Db.mem_history before).mpr ⟨stored, ofJob⟩)
  have progress := effect.progress_of_pipeline shaped.referenced pipeline job
  rw [before, known] at progress
  cases progress with
  | stepped step =>
      cases step with
      | evolved | restarted => rfl
      | validated | advanced => simp [current] at place
      | completed => simp at phase

theorem Effect.continued {env : Env} {db next : Db} {job : Uuid} {output : Output}
    (effect : Effect env db (.continue job) (.ok output) next) {old later : History}
    (before : db.history job = some old) (after : next.history job = some later) :
    later.step ≠ old.step := by
  cases effect with
  | advanced found step _ _ _ _ inserted =>
      rw [Db.history_insertRun, Db.history_setStep, before] at after
      simp only [Option.map_some, ↓reduceIte, insertRun_jobId inserted, Option.some.injEq] at after
      obtain ⟨_, isRow, rfl⟩ := Db.history_eq_some.mp before
      obtain rfl := Option.some.inj (found.symm.trans isRow)
      simp [← after, step]
  | completed found step =>
      rw [Db.history_setStep, before] at after
      simp only [Option.map_some, ↓reduceIte, Option.some.injEq] at after
      obtain ⟨_, isRow, rfl⟩ := Db.history_eq_some.mp before
      obtain rfl := Option.some.inj (found.symm.trans isRow)
      simp [← after, step]

/-- `continue_job` succeeds once the success of the current step is the latest run. -/
theorem continue_succeeds {env : Env} {db : Db} {job : Uuid} {history : History}
    {last : StepRunRow} (shaped : db.Shaped) (decodable : db.Decodable)
    (known : db.history job = some history) (phase : history.step = .chunk ∨ history.step = .embed)
    (latest : findLatest env job db = some last) (current : last.step = history.step)
    (succeeded : last.status = .succeeded)
    (fresh : history.step = .chunk → ∀ row ∈ db.runs, row.id ≠ env.runId) :
    ∃ advanced, (Operation.exec env (.continue job) db).result = .ok (.advanced advanced) := by
  obtain ⟨row, found, rfl⟩ := Db.history_eq_some.mp known
  obtain ⟨locked, decoded⟩ := shaped.tryInto_job found
  have shapedHistory := shaped.histories _ _ known
  have member : last ∈ db.runsOf job := firstBy_mem latest
  have complete := decodable.complete last (List.mem_of_mem_filter member)
  have idle := shapedHistory.inactive_of_ended member current phase (by rw [succeeded]; rfl)
  rcases phase with onChunk | onEmbed
  · have bounded : nextAttempt .embed (db.runsOf job) ≤ i32Max := by
      obtain ⟨extracts, _, keys⟩ := shapedHistory.keys
      have ahead : ∀ key ∈ phaseTwo row.step, key.1 ≠ .embed := by
        rw [show row.step = .chunk from onChunk]
        decide
      rw [nextAttempt_ahead keys (by simp) ahead]
      decide
    have begun : begin env job .embed db = .ok _ :=
      insertRun_of_idle (by simp [found]) (by simp) (fresh onChunk) idle bounded
    obtain ⟨run, mapped, _⟩ := StepRunRow.tryInto_complete (begin_new begun).complete
    have ran := continueJob_ok.mpr ⟨row, locked, last, found, decoded, latest, current, succeeded,
      complete, .inl ⟨onChunk, _, run, begun, mapped, rfl, rfl⟩⟩
    exact ⟨_, by rw [Operation.exec, transaction_of_ok ran]⟩
  · have ran := continueJob_ok.mpr ⟨row, locked, last, found, decoded, latest, current, succeeded,
      complete, .inr ⟨onEmbed, rfl, rfl⟩⟩
    exact ⟨_, by rw [Operation.exec, transaction_of_ok ran]⟩

/-! The step between recording a success and advancing the job. -/

/-- Nothing comes between a drive's `finish` and its `continue_job`: the instance
stays up, the call is executed with a fresh id, and finds the success it is to
build on as the latest run. -/
structure System.Resumes (system : System) (event : Event) : Prop where
  unaborted : event.isAbort = false
  crash : ∀ service drive job run, event = .crash service →
    system.task? service ≠ some ⟨drive, .continuing job run⟩
  finish : ∀ service env message drive job run, event = .task service (.lost env message) →
    system.task? service = some ⟨drive, .finishing job run (.ok ())⟩ → run.step = .extract
  advance : ∀ service answer drive job run, event = .task service answer →
    system.task? service = some ⟨drive, .continuing job run⟩ →
    ∃ env message, (answer = .executed env message ∨ answer = .lost env message) ∧
      (∃ last, findLatest env job.id system.db = some last ∧ last.id = run.id) ∧
      (run.step = .chunk → ∀ row ∈ system.db.runs, row.id ≠ env.runId)

/-- Every success of a job's current phase-2 step has a drive that is about to
advance the job. -/
structure System.Attended (system : System) : Prop where
  decodable : system.db.Decodable
  succeeded : ∀ service drive job run,
    system.task? service = some ⟨drive, .continuing job run⟩ →
    system.db.Stores run (· = .succeeded)
  attended : ∀ job history, system.db.history job = some history →
    history.step = .chunk ∨ history.step = .embed → ∀ row ∈ system.db.runs, row.jobId = job →
    row.step = history.step → row.status = .succeeded →
    ∃ service drive loaded run, system.task? service = some ⟨drive, .continuing loaded run⟩ ∧
      run.id = row.id

theorem Took.decodable {system next : System} {event : Event} (took : Took system event next)
    (unaborted : event.isAbort = false) (decodable : system.db.Decodable) :
    next.db.Decodable := by
  have same : ∀ {other : Db}, system.db.SamePipeline other → other.Decodable := fun same =>
    ⟨same.runs ▸ decodable.complete, same.runs ▸ decodable.pending⟩
  cases took with
  | called =>
      refine (exec_effect ..).decodable (fun job isAbort => ?_) decodable
      simp only at isAbort
      rw [isAbort] at unaborted
      contradiction
  | moved _ step =>
      rcases step.pipeline with kept | ⟨_, _, _, effect, issues, _⟩
      · exact same kept
      · exact effect.decodable (fun job isAbort => absurd isAbort (issues.ne_abort job)) decodable
  | processed | switched | crashed | seated => exact decodable
  | edited _ step => exact same step.same

theorem Took.task_kept {system next : System} {event : Event} (took : Took system event next)
    {service : Nat} {task : Task} (working : system.task? service = some task)
    (unmoved : ∀ answer, event ≠ .task service answer) (alive : event ≠ .crash service) :
    next.task? service = some task := by
  cases took with
  | called => rw [System.task?_call, working]
  | @moved other =>
      have apart : service ≠ other := by
        rintro rfl
        exact unmoved _ rfl
      rw [System.task?_moved, if_neg apart, working]
  | @processed other _ _ _ _ idle =>
      have apart : service ≠ other := by
        rintro rfl
        have none : system.task? service = none := idle
        rw [none] at working
        contradiction
      rw [System.task?_process, if_neg apart, working]
  | switched same =>
      rw [System.task?_setService]
      split
      · rename_i own
        exact same.trans (own ▸ working)
      · exact working
  | @crashed other =>
      have apart : service ≠ other := by
        rintro rfl
        exact alive rfl
      rw [System.task?_setService, if_neg apart, working]
  | seated | edited => exact working

omit [Isolang] in
theorem Phase.recorded_status {outcome : Except Text Unit} :
    (recorded outcome).status = .succeeded ↔ outcome.isOk = true := by
  cases outcome with
  | ok => exact iff_of_true rfl rfl
  | error =>
      exact iff_of_false (by simp [recorded, StepOutcome.status])
        (by simp [Except.isOk, Except.toBool])

theorem Took.succeeded {system next : System} {event : Event} (took : Took system event next)
    (sane : system.Sane) (attended : system.Attended) :
    ∀ service drive job run, next.task? service = some ⟨drive, .continuing job run⟩ →
      next.db.Stores run (· = .succeeded) := by
  intro service drive job run working
  rcases took.task_cases working with
    ⟨same, _⟩ | ⟨⟨before, phase⟩, answer, result, rfl, known, step, goesOn, _, db_eq⟩ | ⟨_, noRun⟩
  · obtain ⟨now, runs⟩ := took.runsStep
    refine runs.stores (fun row new evolved succeeded => ?_) (attended.succeeded _ _ _ _ same)
    rw [evolved.eq_of_inactive (by rw [succeeded]; rfl), succeeded]
  · rw [db_eq]
    cases step with
    | vanished | failed | unclaimed | unfinished | stopped | dropped => contradiction
    | claimed | advanced => simp at goesOn
    | entered | worked => exact absurd (Option.some.inj goesOn) Phase.ofWork_ne_continuing
    | finished returned =>
        simp only at goesOn
        split at goesOn
        · rename_i proceeds
          obtain ⟨rfl, rfl⟩ := Phase.continuing.inj (Option.some.inj goesOn)
          have holds : system.Holds service _ _ := ⟨known, rfl⟩
          obtain ⟨_, ended⟩ :=
            finished_stores sane.shaped.toKeyed (sane.stored _ _ _ holds).2 returned
          refine ended.mono fun status same => same.trans ?_
          exact Phase.recorded_status.mpr proceeds.1
        · contradiction
  · contradiction

theorem Took.step_of_succeeded {system next : System} {event : Event}
    (took : Took system event next) (sane : system.Sane) {job : Uuid} {later : History}
    (known : next.db.history job = some later) {row : StepRunRow} (stored : row ∈ system.db.runs)
    (ofJob : row.jobId = job) (phase : later.step = .chunk ∨ later.step = .embed)
    (current : row.step = later.step) :
    ∃ old, system.db.history job = some old ∧ old.step = later.step := by
  cases took with
  | called byOperator =>
      exact (exec_effect ..).step_of_succeeded (Operation.pipeline_of_byOperator byOperator).1
        sane.shaped known stored ofJob phase current
  | moved _ step =>
      rcases step.pipeline with same | ⟨_, _, _, effect, issues, _⟩
      · exact ⟨later, same.history job ▸ known, rfl⟩
      · exact effect.step_of_succeeded issues.isBegin sane.shaped known stored ofJob phase current
  | processed | switched | crashed | seated => exact ⟨later, known, rfl⟩
  | edited _ step => exact ⟨later, step.same.history job ▸ known, rfl⟩

theorem Took.continuing {system next : System} {env : Env} {message : Text} {service drive : Nat}
    {answer : Answer} {job : IngestionJob} {run : IngestionStepRun}
    (took : Took system (.task service answer) next)
    (executed : answer = .executed env message ∨ answer = .lost env message)
    (working : system.task? service = some ⟨drive, .continuing job run⟩) :
    next.db = (Operation.exec env (.continue job.id) system.db).db := by
  cases took with
  | moved known step =>
      obtain rfl := Option.some.inj (working.symm.trans known)
      rcases executed with rfl | rfl
      · cases step <;> rfl
      · cases step with
        | dropped issues =>
            cases issues
            rfl
  | processed _ event_eq => simp at event_eq
  | switched _ event_eq => simp at event_eq
  | seated _ event_eq => simp at event_eq

theorem Took.attended_of_stored {system next : System} {event : Event}
    (took : Took system event next) (sane : system.Sane) (resumes : system.Resumes event)
    (attended : system.Attended) {job : Uuid} {later : History}
    (known : next.db.history job = some later)
    (phase : later.step = .chunk ∨ later.step = .embed) {row : StepRunRow}
    (stored : row ∈ system.db.runs) (ofJob : row.jobId = job) (current : row.step = later.step)
    (succeeded : row.status = .succeeded) :
    ∃ service drive loaded run, next.task? service = some ⟨drive, .continuing loaded run⟩ ∧
      run.id = row.id := by
  obtain ⟨old, before, sameStep⟩ :=
    took.step_of_succeeded sane known stored ofJob phase current
  obtain ⟨service, drive, loaded, run, working, sameId⟩ := attended.attended job old before
    (sameStep ▸ phase) row stored ofJob (current.trans sameStep.symm) succeeded
  by_cases moves : ∃ answer, event = .task service answer
  · obtain ⟨answer, rfl⟩ := moves
    obtain ⟨env, message, executed, ⟨last, latest, lastId⟩, fresh⟩ :=
      resumes.advance _ _ _ _ _ rfl working
    have holds : system.Holds service _ run := ⟨working, rfl⟩
    have ownJob : loaded.id = run.jobId := (sane.stored _ _ _ holds).1
    obtain ⟨own, ownMember, ownId, ownJobId, ownStep, _⟩ := (sane.stored _ _ _ holds).2
    obtain rfl := List.inj_on_of_nodup_map sane.shaped.runs ownMember stored (ownId.trans sameId)
    have lastMember := List.mem_of_mem_filter (firstBy_mem latest)
    obtain rfl := List.inj_on_of_nodup_map sane.shaped.runs lastMember stored
      (lastId.trans sameId)
    obtain rfl : loaded.id = job := ownJob.trans (ownJobId.symm.trans ofJob)
    obtain ⟨advanced, returned⟩ := continue_succeeds sane.shaped attended.decodable before
      (sameStep ▸ phase) latest (current.trans sameStep.symm) succeeded
      (fun onChunk => fresh (ownStep.symm.trans (current.trans (sameStep.symm.trans onChunk))))
    have effect := exec_effect env (.continue loaded.id) system.db
    rw [returned] at effect
    rw [took.continuing executed working] at known
    exact absurd sameStep.symm (effect.continued before known)
  · have alive : event ≠ .crash service := fun dies => resumes.crash _ _ _ _ dies working
    exact ⟨service, drive, loaded, run, took.task_kept working
      (fun answer same => moves ⟨answer, same⟩) alive, sameId⟩

theorem finish_output {env : Env} {id : Uuid} {outcome : StepOutcome} {db : Db} {output : Output}
    (returned : (Operation.exec env (.finish id outcome) db).result = .ok output) :
    ∃ found, output = .maybeRun found := by
  simp only [Operation.exec] at returned
  cases ended : (finishRun env.now id outcome db).1 with
  | error => simp [ended, Except.map] at returned
  | ok found => exact ⟨found, by simpa [ended, Except.map, eq_comm] using returned⟩

theorem PhaseStep.attended_of_new {system : System} {service : Nat} {task : Task}
    (sane : system.Sane) (working : system.task? service = some task) {answer : Answer}
    (resumes : system.Resumes (.task service answer)) {result : Moved}
    (step : PhaseStep task.drive system.db task.phase answer result)
    (keyed : result.db.Keyed) (decodable : result.db.Decodable) {row : StepRunRow}
    (member : row ∈ result.db.runs) (new : row ∉ system.db.runs) (past : row.step ≠ .extract)
    (succeeded : row.status = .succeeded) :
    ∃ job run, result.phase = some (.continuing job run) ∧ run.id = row.id := by
  have unchanged : ∀ {env : Env} {operation : Operation},
      (∀ outcome, operation ≠ .finish row.id outcome) →
      row ∉ (operation.exec env system.db).db.runs := by
    intro env operation other stored
    rcases (exec_effect env operation system.db).succeeded stored succeeded with
      old | ⟨_, same, _⟩
    · exact new old
    · exact other _ same
  obtain ⟨drive, phase⟩ := task
  cases step with
  | vanished | failed | entered => exact absurd member new
  | worked step => exact absurd (step.same.runs ▸ member) new
  | claimed | unclaimed | advanced | stopped => exact absurd member (unchanged nofun)
  | finished returned =>
      have holds : system.Holds service _ _ := ⟨working, rfl⟩
      rcases (exec_effect ..).succeeded member succeeded with old | ⟨_, same, _⟩
      · exact absurd old new
      · have sameId := (Operation.finish.inj same).1
        obtain ⟨_, own, ownMember, ownId, _, ownStep, ownStatus⟩ :=
          finished_stores sane.shaped.toKeyed (sane.stored _ _ _ holds).2 returned
        obtain rfl := List.inj_on_of_nodup_map keyed.runs ownMember member (ownId.trans sameId)
        have isOk := Phase.recorded_status.mp (ownStatus.symm.trans succeeded)
        exact ⟨_, _, if_pos ⟨isOk, ownStep ▸ past⟩, sameId⟩
  | unfinished missed =>
      obtain ⟨run, output, _, returned, isRun⟩ :=
        (exec_effect ..).returnsChanges sane.shaped.toKeyed decodable row member new
      obtain ⟨found, rfl⟩ := finish_output returned
      obtain rfl : found = some run := isRun
      exact absurd returned (missed run)
  | dropped issues =>
      cases issues with
      | claim | advance => exact absurd member (unchanged nofun)
      | @finish job run outcome =>
          rcases (exec_effect ..).succeeded member succeeded with old | ⟨_, same, isSuccess⟩
          · exact absurd old new
          obtain ⟨sameId, rfl⟩ := Operation.finish.inj same
          have holds : system.Holds service _ run := ⟨working, rfl⟩
          obtain ⟨own, ownMember, ownId, _, ownStep, _⟩ :=
            (exec_effect ..).stores (sane.stored _ _ _ holds).2
          obtain rfl := List.inj_on_of_nodup_map keyed.runs ownMember member (ownId.trans sameId)
          cases outcome with
          | error => contradiction
          | ok => exact absurd (ownStep.trans (resumes.finish _ _ _ _ _ _ rfl working)) past

theorem Took.attended {system next : System} {event : Event} (took : Took system event next)
    (sane : system.Sane) (resumes : system.Resumes event) (attended : system.Attended) :
    next.Attended := by
  have decodable := took.decodable resumes.unaborted attended.decodable
  have keyed := (took.sane sane).shaped.toKeyed
  refine ⟨decodable, took.succeeded sane attended, ?_⟩
  intro job later known phase row member ofJob current succeeded
  by_cases stored : row ∈ system.db.runs
  · exact took.attended_of_stored sane resumes attended known phase stored ofJob current succeeded
  have past : row.step ≠ .extract := by
    rw [current]
    rcases phase with onStep | onStep <;> simp [onStep]
  cases took with
  | called byOperator =>
      rcases (exec_effect ..).succeeded member succeeded with old | ⟨outcome, rfl, _⟩
      · exact absurd old stored
      · contradiction
  | @moved service task answer result working step =>
      obtain ⟨loaded, run, goesOn, sameId⟩ :=
        step.attended_of_new sane working resumes keyed decodable member stored past succeeded
      refine ⟨service, task.drive, loaded, run, ?_, sameId⟩
      rw [System.task?_moved, if_pos rfl, goesOn]
      rfl
  | processed | switched | crashed | seated => exact absurd member stored
  | edited _ step => exact absurd (step.same.runs ▸ member) stored

/-- A phase-2 job without a drive has a pending run, which the next sweep finds, or
its latest run is running or has not succeeded. -/
def System.Unabandoned (system : System) : Prop :=
  ∀ job history, system.db.history job = some history →
    history.step = .chunk ∨ history.step = .embed →
    (∀ service task run, system.Holds service task run → run.jobId ≠ job) →
    job ∈ system.db.pendingRunJobIds ∨
      ∃ last, history.Latest last ∧
        (last.status = .running ∨ last.status = .failed ∨ last.status = .aborted)

theorem attended_of_reachable {system : System}
    (reachable : Reachable System.Initial (System.Events System.Resumes) system) :
    system.Attended := by
  refine System.invariant_of_reachable (fun start initial => ?_) ?_ reachable
  · refine ⟨⟨?_, ?_⟩, ?_, ?_⟩ <;> simp [initial.db.runs, initial.task?]
  · intro state event next sane attended resumes took
    exact took.attended sane resumes attended

/-- No phase-2 job is abandoned while nothing comes between the end of a run and
the call that builds on it. -/
theorem phase_two_unabandoned {system : System}
    (reachable : Reachable System.Initial (System.Events System.Resumes) system) :
    system.Unabandoned := by
  have sane := System.sane_of_reachable reachable
  have attended := attended_of_reachable reachable
  intro job history known phase undriven
  have stored : ∀ row ∈ history.runs, row ∈ system.db.runs ∧ row.jobId = job :=
    fun row => (Db.mem_history known).mp
  obtain ⟨last, latest⟩ := (sane.shaped.histories _ _ known).latest
    (fun row member => attended.decodable.complete row (stored row member).1) phase
  obtain ⟨front, whole⟩ := latest.ending
  obtain ⟨member, ofJob⟩ := stored last (by simp [whole])
  cases status : last.status with
  | pending =>
      left
      refine List.mem_dedup.mpr (List.mem_map.mpr ⟨last, List.mem_filter.mpr ⟨member, ?_⟩, ofJob⟩)
      simp [status]
  | succeeded =>
      obtain ⟨service, drive, loaded, run, working, sameId⟩ :=
        attended.attended job history known phase last member ofJob latest.step status
      have holds : system.Holds service _ run := ⟨working, rfl⟩
      obtain ⟨own, ownMember, ownId, ownJob, _⟩ := (sane.stored _ _ _ holds).2
      obtain rfl := List.inj_on_of_nodup_map sane.shaped.runs ownMember member (ownId.trans sameId)
      exact absurd (ownJob.symm.trans ofJob) (undriven _ _ _ holds)
  | running => exact .inr ⟨last, latest, .inl status⟩
  | failed => exact .inr ⟨last, latest, .inr (.inl status)⟩
  | aborted => exact .inr ⟨last, latest, .inr (.inr status)⟩

end

section

attribute [local instance] english

def resumes (system : System) (event : Event) : Bool :=
  !event.isAbort &&
    match event with
    | .crash service =>
        match system.task? service with
        | some ⟨_, .continuing _ _⟩ => false
        | _ => true
    | .task service answer =>
        match system.task? service, answer with
        | some ⟨_, .finishing _ run (.ok _)⟩, .lost _ _ => decide (run.step = .extract)
        | some ⟨_, .continuing job run⟩, .executed env _
        | some ⟨_, .continuing job run⟩, .lost env _ =>
            ((findLatest env job.id system.db).any fun last => decide (last.id = run.id)) &&
              system.db.runs.all fun row => decide (row.id ≠ env.runId)
        | some ⟨_, .continuing _ _⟩, _ => false
        | _, _ => true
    | _ => true

theorem resumes_sound (system : System) (event : Event) (holds : resumes system event = true) :
    system.Resumes event where
  unaborted := by simpa using (Bool.and_eq_true_iff.mp holds).1
  crash service drive job run dies working := by
    rw [dies] at holds
    simp [resumes, working] at holds
  finish service env message drive job run asks working := by
    rw [asks] at holds
    simpa [resumes, working, Event.isAbort] using holds
  advance service answer drive job run asks working := by
    subst asks
    cases answer with
    | executed env message | lost env message =>
        simp only [resumes, working, Bool.and_eq_true, List.all_eq_true, decide_eq_true_eq,
          Option.any_eq_true] at holds
        exact ⟨env, message, by simp, holds.2.1, fun _ => holds.2.2⟩
    | failed | extracted | embedded | edited => simp [resumes, working] at holds

theorem phase_two_unabandoned_on_embed :
    let system := System.after resumes deployment (toReview ++ toEmbedded.take 10)
    (system.db.history firstJob).map (·.step) = some .embed ∧ system.Unabandoned :=
  ⟨by decide +kernel, phase_two_unabandoned
    (System.reachable_after resumes_sound deployment_initial (by decide +kernel))⟩

/-- An instance dies between the end of its `chunk` run and `continue_job`. -/
def abandoned : List Event := toReview ++ toEmbedded.take 8 ++ [.crash 0]

def Event.isTaskOf (service : Nat) : Event → Bool
  | .task other _ => decide (other = service)
  | _ => true

theorem crash_abandons :
    ¬ ∀ system : System,
      Reachable System.Initial (System.Events fun _ event => event.isAbort = false) system →
        system.Unabandoned := by
  intro all
  let system := System.after (fun _ event => !event.isAbort) deployment abandoned
  have ran : Run (System.Events fun _ event => event.isAbort = false) deployment abandoned
      system :=
    System.run_after (by simp) (by decide +kernel)
  have undriven : ∀ service task run, system.Holds service task run → run.jobId ≠ firstJob := by
    intro service task run holds
    by_cases first : service = 0
    · have idle : (system.task? 0).isNone = true := by decide +kernel
      rw [first] at holds
      rw [System.Holds, Option.isNone_iff_eq_none.mp idle] at holds
      exact absurd holds.1 (by simp)
    · have others : abandoned.all (·.isTaskOf 0) = true := by decide +kernel
      refine absurd holds (System.unheld_of_unrequested deployment_initial ran ?_ task run)
      exact fun answer member => first (of_decide_eq_true (List.all_eq_true.mp others _ member))
  have onChunk : (system.db.history firstJob).map (·.step) = some .chunk := by decide +kernel
  obtain ⟨history, known, step⟩ := Option.map_eq_some_iff.mp onChunk
  have unlisted : firstJob ∉ system.db.pendingRunJobIds := by decide +kernel
  have succeeded : ∀ row ∈ system.db.runs, row.status = .succeeded := by decide +kernel
  rcases all system ⟨_, _, deployment_initial, ran⟩ firstJob history known (.inl step)
    undriven with listed | ⟨last, latest, other⟩
  · exact unlisted listed
  · obtain ⟨front, whole⟩ := latest.ending
    have member : last ∈ history.runs := by simp [whole]
    simp [succeeded last ((Db.mem_history known).mp member).1] at other

end

end Zyndeck
