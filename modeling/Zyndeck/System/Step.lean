import Zyndeck.Ingester.Attempt
import Zyndeck.System.Basic

namespace Zyndeck

open Data

/-! What the requests of a task do to jobs and runs. -/

namespace Db

def Stores (db : Db) (run : IngestionStepRun) (status : RunStatus → Prop) : Prop :=
  ∃ row ∈ db.runs, row.id = run.id ∧ row.jobId = run.jobId ∧ row.step = run.step ∧
    status row.status

namespace SamePipeline

variable {first second : Db}

theorem refl (db : Db) : SamePipeline db db := ⟨rfl, rfl⟩

theorem history (same : SamePipeline first second) (job : Uuid) :
    second.history job = first.history job := by
  simp [Db.history, Db.job?, Db.runsOf, same.jobs, same.runs]

theorem job? (same : SamePipeline first second) (job : Uuid) :
    second.job? job = first.job? job := by
  simp [Db.job?, same.jobs]

theorem stores (same : SamePipeline first second) {run : IngestionStepRun}
    {status : RunStatus → Prop} (stored : first.Stores run status) :
    second.Stores run status := by
  obtain ⟨row, member, facts⟩ := stored
  exact ⟨row, same.runs ▸ member, facts⟩

end SamePipeline

end Db

theorem StepRunRow.fields_of_tryInto {row : StepRunRow} {run : IngestionStepRun}
    (decoded : row.tryInto = .ok run) :
    run.id = row.id ∧ run.jobId = row.jobId ∧ run.step = row.step := by
  obtain ⟨other, again, id, jobId, step, _⟩ :=
    StepRunRow.tryInto_complete (StepRunRow.complete_of_tryInto_ok decoded)
  obtain rfl := Except.ok.inj (again.symm.trans decoded)
  exact ⟨id, jobId, step⟩

theorem decodeRow_some {found : Option StepRunRow} {run : IngestionStepRun}
    (decoded : decodeRow found = .ok (some run)) :
    ∃ row, found = some row ∧ row.tryInto = .ok run := by
  cases found with
  | none => simp [decodeRow] at decoded
  | some row =>
      cases mapped : row.tryInto with
      | error failure => simp [decodeRow, mapped, Except.map] at decoded
      | ok value =>
          simp only [decodeRow, mapped, Except.map, Except.ok.injEq, Option.some.injEq] at decoded
          exact ⟨row, rfl, decoded ▸ mapped⟩

theorem head?_returning_some {hit : α → Bool} {set : α → α} {rows : List α} {row : α}
    (returned : (returning hit set rows).head? = some row) :
    ∃ old ∈ rows, hit old = true ∧ row = set old := by
  obtain ⟨old, member, same⟩ := List.mem_map.mp (List.mem_of_mem_head? returned)
  obtain ⟨stored, matched⟩ := List.mem_filter.mp member
  exact ⟨old, stored, matched, same.symm⟩

section

variable [Isolang] {env : Env} {db : Db}

theorem claimed_row {job : Uuid} {run : IngestionStepRun}
    (returned : (Operation.exec env (.claim job) db).result = .ok (.maybeRun (some run))) :
    ∃ row ∈ db.runs, row.jobId = job ∧ row.status = .pending ∧
      row.claim env.now ∈ (Operation.exec env (.claim job) db).db.runs ∧
      run.id = row.id ∧ run.jobId = row.jobId ∧ run.step = row.step := by
  have decoded : decodeRow (db.claim env.now job).1 = .ok (some run) := by
    simp only [Operation.exec, claimPendingRun, Prod.map] at returned
    cases decoded : decodeRow (db.claim env.now job).1 with
    | error failure => simp [decoded, Except.map] at returned
    | ok value => simpa [decoded, Except.map] using returned
  obtain ⟨row, found, mapped⟩ := decodeRow_some decoded
  obtain ⟨old, stored, matched, rfl⟩ := head?_returning_some found
  obtain ⟨ofJob, pending⟩ := Bool.and_eq_true_iff.mp matched
  obtain ⟨sameId, sameJob, sameStep⟩ := StepRunRow.fields_of_tryInto mapped
  exact ⟨old, stored, of_decide_eq_true ofJob, of_decide_eq_true pending,
    mem_updateWhere.mpr (.inl ⟨old, stored, matched, rfl⟩), sameId, sameJob, sameStep⟩

theorem finished_row {id : Uuid} {outcome : StepOutcome} {value : IngestionStepRun}
    (returned : (Operation.exec env (.finish id outcome) db).result =
      .ok (.maybeRun (some value))) :
    (∃ row ∈ db.runs, row.id = id ∧ row.status = .running) ∧
      (Operation.exec env (.finish id outcome) db).db =
        (db.finish env.now id outcome.status outcome.error).2 := by
  have effect := exec_effect env (.finish id outcome) db
  generalize Operation.exec env (.finish id outcome) db = ended at returned effect
  obtain ⟨result, next, notified⟩ := ended
  cases effect with
  | failed => simp at returned
  | finished =>
      have decoded : decodeRow (db.finish env.now id outcome.status outcome.error).1 =
          .ok (some value) := by
        cases decoded : decodeRow (db.finish env.now id outcome.status outcome.error).1 with
        | error failure => simp [decoded] at returned
        | ok value => simpa [decoded, Except.map] using returned
      obtain ⟨row, found, _⟩ := decodeRow_some decoded
      obtain ⟨old, stored, matched, _⟩ := head?_returning_some found
      obtain ⟨sameId, running⟩ := Bool.and_eq_true_iff.mp matched
      exact ⟨⟨old, stored, of_decide_eq_true sameId, of_decide_eq_true running⟩, rfl⟩

theorem advanced_row {job : Uuid} {run : IngestionStepRun}
    (returned : (Operation.exec env (.continue job) db).result = .ok (.advanced (.running run))) :
    ∃ row inserted, db.job? job = some row ∧ row.step = .chunk ∧
      begin env job .embed db = .ok inserted ∧ inserted.tryInto = .ok run ∧
      (Operation.exec env (.continue job) db).db =
        (db.apply (.setStep job .embed)).apply (.insertRun inserted) := by
  have effect := exec_effect env (.continue job) db
  generalize Operation.exec env (.continue job) db = ended at returned effect
  obtain ⟨result, next, notified⟩ := ended
  cases effect with
  | failed => simp at returned
  | advanced found step _ _ _ _ inserted decoded =>
      obtain rfl : _ = run := by simpa using returned
      exact ⟨_, _, found, step, inserted, decoded, rfl⟩
  | completed => simp at returned

end

theorem BodyStep.same {job : Uuid} {db : Db} {body : Body} {answer : Answer} {work : Work}
    {next : Db} {observed : List Observation}
    (step : BodyStep job db body answer work next observed) : db.SamePipeline next := by
  rw [step.rest]
  exact ⟨rfl, rfl⟩

section

variable [Isolang]

/-! The same for a call of `process`. -/

def Phase.isExecuting : Phase → Bool
  | .executing .. => true
  | _ => false

/-- The operation on jobs and runs that a phase asks for. -/
inductive Phase.Issues : Phase → Operation → Prop
  | claim : Issues (.claiming job) (.claim job)
  | finish : Issues (.finishing job run outcome) (.finish run.id (recorded outcome))
  | advance : Issues (.continuing job run) (.continue job.id)

inductive PhaseStep (drive : Nat) (db : Db) : Phase → Answer → Moved → Prop
  /-- A request other than the claim, `finish` and `continue_job` ends the call. -/
  | vanished : PhaseStep drive db (.loading job run) answer ⟨none, db, []⟩
  | failed (outside : phase.isExecuting = false) :
      PhaseStep drive db phase (.failed message) ⟨none, db, []⟩
  | claimed (returned : (Operation.exec env (.claim job) db).result =
        .ok (.maybeRun (some run))) :
      PhaseStep drive db (.claiming job) (.executed env message)
        ⟨some (.loading job run), (Operation.exec env (.claim job) db).db, [.handed drive run]⟩
  | unclaimed : PhaseStep drive db (.claiming job) (.executed env message)
      ⟨none, (Operation.exec env (.claim job) db).db, []⟩
  | entered (found : Phase.load job db = some loaded) :
      PhaseStep drive db (.loading job run) (.executed env message)
        ⟨some (Phase.ofWork loaded run (Body.begin loaded.step)), db,
          [.entered drive run loaded.step]⟩
  | worked (step : BodyStep job.id db body answer work next observed) :
      PhaseStep drive db (.executing job run body) answer
        ⟨some (Phase.ofWork job run work), next, observed⟩
  | finished (returned : (Operation.exec env (.finish run.id (Phase.recorded outcome)) db).result =
        .ok (.maybeRun (some value))) :
      PhaseStep drive db (.finishing job run outcome) (.executed env message)
        ⟨if outcome.isOk ∧ run.step ≠ .extract then some (.continuing job run) else none,
          (Operation.exec env (.finish run.id (Phase.recorded outcome)) db).db,
          [.finished drive run]⟩
  | unfinished (missed : ∀ value,
        (Operation.exec env (.finish run.id (Phase.recorded outcome)) db).result ≠
          .ok (.maybeRun (some value))) :
      PhaseStep drive db (.finishing job run outcome) (.executed env message)
      ⟨none, (Operation.exec env (.finish run.id (Phase.recorded outcome)) db).db, []⟩
  | advanced (returned : (Operation.exec env (.continue job.id) db).result =
        .ok (.advanced (.running next))) :
      PhaseStep drive db (.continuing job run) (.executed env message)
        ⟨some (.loading job.id next), (Operation.exec env (.continue job.id) db).db,
          [.handed drive next]⟩
  | stopped (returned : ∀ next, (Operation.exec env (.continue job.id) db).result ≠
        .ok (.advanced (.running next))) :
      PhaseStep drive db (.continuing job run) (.executed env message)
        ⟨none, (Operation.exec env (.continue job.id) db).db, []⟩
  /-- The reply is lost. -/
  | dropped (issues : phase.Issues operation) :
      PhaseStep drive db phase (.lost env message) ⟨none, (operation.exec env db).db, []⟩

theorem Phase.step_cases {drive : Nat} {db : Db} {phase : Phase} {answer : Answer}
    {result : Moved} (taken : phase.step drive db answer = some result) :
    PhaseStep drive db phase answer result := by
  cases phase with
  | claiming job =>
      cases answer with
      | executed env message =>
          obtain rfl := Option.some.inj taken
          simp only [Phase.claim]
          split
          · exact .claimed ‹_›
          · exact .unclaimed
      | lost env message => exact Option.some.inj taken ▸ .dropped .claim
      | failed message =>
          simp only [Phase.step, Option.some.injEq] at taken
          exact taken ▸ .failed rfl
      | extracted | embedded | edited => simp [Phase.step] at taken
  | loading job run =>
      cases answer with
      | executed env message =>
          simp only [Phase.step] at taken
          split at taken
          · obtain rfl := Option.some.inj taken
            exact .vanished
          · obtain rfl := Option.some.inj taken
            exact .entered ‹_›
      | lost env message => exact Option.some.inj taken ▸ .vanished
      | failed message =>
          simp only [Phase.step, Option.some.injEq] at taken
          exact taken ▸ .failed rfl
      | extracted | embedded | edited => simp [Phase.step] at taken
  | executing job run body =>
      simp only [Phase.step, Option.map_eq_some_iff] at taken
      obtain ⟨⟨work, next, observed⟩, stepped, rfl⟩ := taken
      exact .worked (Body.step_cases stepped)
  | finishing job run outcome =>
      cases answer with
      | executed env message =>
          obtain rfl := Option.some.inj taken
          simp only [Phase.finish]
          split
          · exact .finished ‹_›
          · rename_i other
            exact .unfinished fun value same => other value same
      | lost env message => exact Option.some.inj taken ▸ .dropped .finish
      | failed message =>
          simp only [Phase.step, Option.some.injEq] at taken
          exact taken ▸ .failed rfl
      | extracted | embedded | edited => simp [Phase.step] at taken
  | continuing job run =>
      cases answer with
      | executed env message =>
          obtain rfl := Option.some.inj taken
          simp only [Phase.advance]
          split
          · exact .advanced ‹_›
          · rename_i other
            exact .stopped fun next same => other next same
      | lost env message => exact Option.some.inj taken ▸ .dropped .advance
      | failed message =>
          simp only [Phase.step, Option.some.injEq] at taken
          exact taken ▸ .failed rfl
      | extracted | embedded | edited => simp [Phase.step] at taken

/-! And for the system: the call of an operator, a request of a task, the beginning of
one, a move of a service's loop, a crash, and the moves of an edit session. -/

inductive Took (system : System) : Event → System → Prop
  | called (byOperator : operation.byOperator = true) :
      Took system (.call env operation) (system.call env operation)
  | moved (working : (system.services service).task = some task)
      (step : PhaseStep task.drive system.db task.phase answer result) :
      Took system (.task service answer) (system.moved service task result)
  | processed (idle : (system.services service).task = none)
      (event_eq : event = .next service ∨ event = .receive service) :
      Took system event (system.process service loop queue job)
  | switched (same : state.task = (system.services service).task)
      (event_eq : event = .boot service ∨ event = .sweep service ∨ event = .next service ∨
        ∃ queue, event = .channel service queue) :
      Took system event (system.setService service state)
  | crashed : Took system (.crash service) (system.setService service .down)
  | seated (free : session = none ∨ ∃ job, session = some (.checking job))
      (event_eq : (∃ job, event = .open number job) ∨ event = .quit number) :
      Took system event (system.setEdit number session)
  | edited (working : system.edits number = some session)
      (step : EditStep system.db session answer later next observed) :
      Took system (.edit number answer)
        { system.setEdit number later with db := next, log := system.log ++ observed }

theorem System.step?_cases {system next : System} {event : Event}
    (taken : system.step? event = some next) : Took system event next := by
  cases event with
  | call env operation =>
      simp only [System.step?] at taken
      split at taken
      · obtain rfl := Option.some.inj taken
        exact .called ‹_›
      · contradiction
  | boot service =>
      simp only [System.step?] at taken
      split at taken
      · obtain rfl := Option.some.inj taken
        exact .switched rfl (.inl rfl)
      · contradiction
  | sweep service =>
      simp only [System.step?] at taken
      split at taken
      · obtain rfl := Option.some.inj taken
        exact .switched rfl (.inr (.inl rfl))
      · contradiction
  | next service =>
      simp only [System.step?] at taken
      split at taken
      · obtain rfl := Option.some.inj taken
        exact .switched rfl (.inr (.inr (.inl rfl)))
      · obtain rfl := Option.some.inj taken
        exact .processed ‹_› (.inl rfl)
      · contradiction
  | receive service =>
      simp only [System.step?] at taken
      split at taken
      · obtain rfl := Option.some.inj taken
        exact .processed ‹_› (.inr rfl)
      · contradiction
  | channel service queue =>
      obtain rfl := Option.some.inj taken
      exact .switched rfl (.inr (.inr (.inr ⟨queue, rfl⟩)))
  | task service answer =>
      obtain ⟨task, working, rest⟩ := Option.bind_eq_some_iff.mp taken
      obtain ⟨result, stepped, ended⟩ := Option.bind_eq_some_iff.mp rest
      obtain rfl := Option.some.inj ended
      exact .moved working (Phase.step_cases stepped)
  | crash service =>
      obtain rfl := Option.some.inj taken
      exact .crashed
  | «open» session job =>
      simp only [System.step?] at taken
      split at taken
      · obtain rfl := Option.some.inj taken
        exact .seated (.inr ⟨job, rfl⟩) (.inl ⟨job, rfl⟩)
      · contradiction
  | edit session answer =>
      obtain ⟨state, working, rest⟩ := Option.bind_eq_some_iff.mp taken
      obtain ⟨⟨later, db, observed⟩, stepped, ended⟩ := Option.bind_eq_some_iff.mp rest
      obtain rfl := Option.some.inj ended
      exact .edited working (Edit.step_cases stepped)
  | quit session =>
      obtain rfl := Option.some.inj taken
      exact .seated (.inl rfl) (.inr rfl)

end

end Zyndeck
