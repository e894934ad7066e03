import Zyndeck.System.Bound

namespace Zyndeck

open Data

/-! Which bodies are executed when. -/

def Body.ofStep : Body → IngestionStep
  | .extracting | .upserting _ => .extract
  | .chunking | .replacing _ => .chunk
  | .listing | .embedding _ | .storing _ _ => .embed

theorem Body.begin_ofStep {step : IngestionStep} {body : Body}
    (begun : begin step = .more body) : body.ofStep = step := by
  cases step with
  | extract | chunk | embed =>
      obtain rfl := Work.more.inj begun
      rfl
  | completed => contradiction

theorem Body.store_ofStep {pairs : List (ChunkRow × List F32)} {left : List ChunkRow} {body : Body}
    (stored : store pairs left = .more body) : body.ofStep = .embed := by
  unfold store at stored
  split at stored
  · contradiction
  all_goals
    obtain rfl := Work.more.inj stored
    rfl

theorem BodyStep.ofStep {job : Uuid} {db next : Db} {body later : Body} {answer : Answer}
    {observed : List Observation}
    (step : BodyStep job db body answer (.more later) next observed) :
    later.ofStep = body.ofStep := by
  generalize work_eq : Work.more later = work at step
  cases step with
  | broke => contradiction
  | upserted _ heard | replaced _ heard => cases heard <;> contradiction
  | extracted | listed =>
      obtain rfl := Work.more.inj work_eq
      rfl
  | split =>
      unfold Body.chunkTranscript at work_eq
      split at work_eq
      · contradiction
      · split at work_eq
        · contradiction
        · obtain rfl := Work.more.inj work_eq
          rfl
  | embedded => exact Body.store_ofStep work_eq.symm
  | stored _ heard =>
      cases heard with
      | arrived => exact Body.store_ofStep work_eq.symm
      | lost => contradiction

theorem stores_updateRuns {db : Db} {hit : StepRunRow → Bool} {set : StepRunRow → StepRunRow}
    {run : IngestionStepRun} (stored : db.Stores run (· = .running))
    (missed : ∀ row : StepRunRow, row.id = run.id → row.jobId = run.jobId →
      row.status = .running → hit row = false) :
    (db.updateRuns hit set).2.Stores run (· = .running) := by
  obtain ⟨row, member, id, jobId, step, running⟩ := stored
  exact ⟨row, mem_updateWhere.mpr (.inr ⟨member, missed row id jobId running⟩), id, jobId, step,
    running⟩

theorem stores_insertRun {db : Db} {row : StepRunRow} {run : IngestionStepRun}
    {status : RunStatus → Prop} (stored : db.Stores run status) :
    (db.apply (.insertRun row)).Stores run status := by
  obtain ⟨old, member, facts⟩ := stored
  exact ⟨old, List.mem_append_left _ member, facts⟩

section

variable [Isolang]

theorem Effect.running {env : Env} {db next : Db} {operation : Operation}
    {result : Except Error Output} (effect : Effect env db operation result next)
    {run : IngestionStepRun} (stored : db.Stores run (· = .running))
    (spared : operation ≠ .abort run.jobId)
    (unfinished : ∀ outcome, operation ≠ .finish run.id outcome) :
    next.Stores run (· = .running) := by
  cases effect with
  | failed | completed => exact stored
  | started | begun | restarted | validated | advanced => exact stores_insertRun stored
  | claimed =>
      refine stores_updateRuns stored fun row _ _ running => ?_
      simp [StepRunRow.isPendingOf, running]
  | @finished id outcome =>
      refine stores_updateRuns stored fun row sameId _ _ => ?_
      have other : row.id ≠ id := fun same => unfinished outcome (by rw [← same, sameId])
      simp [StepRunRow.isRunningRun, other]
  | @aborted job =>
      refine stores_updateRuns stored fun row _ sameJob _ => ?_
      have other : row.jobId ≠ job := fun same => spared (by rw [← same, sameJob])
      simp [StepRunRow.isActiveOf, other]

theorem Took.running {system next : System} {event : Event} (took : Took system event next)
    (sane : system.Sane) {service : Nat} {task : Task} {run : IngestionStepRun}
    (holds : system.Holds service task run) (stored : system.db.Stores run (· = .running))
    (other : ∀ answer, event ≠ .task service answer)
    (spared : ∀ env, event ≠ .call env (.abort run.jobId)) :
    next.db.Stores run (· = .running) := by
  cases took with
  | @called env operation byOperator =>
      refine (exec_effect ..).running stored (fun same => spared env (same ▸ rfl)) ?_
      rintro outcome rfl
      contradiction
  | moved working step =>
      rcases step.pipeline with same | ⟨_, _, _, effect, issues, _⟩
      · exact same.stores stored
      · refine effect.running stored (issues.ne_abort _) fun outcome finishes => ?_
        obtain ⟨held, isHeld, sameId⟩ := issues.finishing finishes
        obtain rfl := sane.apart _ _ _ _ _ _ holds ⟨working, isHeld⟩ sameId
        exact other _ rfl
  | processed | switched | crashed | seated => exact stored
  | edited _ step => exact step.same.stores stored

/-! At most one body is executed for a job at a time, that of its run. -/

namespace System

def body? (system : System) (service : Nat) : Option (Uuid × IngestionStepRun × Body) :=
  (system.task? service).bind fun task =>
    match task.phase with
    | .executing job run body => some (job.id, run, body)
    | _ => none

theorem body?_eq_some {system : System} {service : Nat} {id : Uuid} {run : IngestionStepRun}
    {body : Body} :
    system.body? service = some (id, run, body) ↔
      ∃ drive job, system.task? service = some ⟨drive, .executing job run body⟩ ∧ job.id = id := by
  rw [body?, Option.bind_eq_some_iff]
  constructor
  · rintro ⟨⟨drive, phase⟩, working, isBody⟩
    cases phase with
    | executing job held current =>
        simp only [Option.some.injEq, Prod.mk.injEq] at isBody
        obtain ⟨rfl, rfl, rfl⟩ := isBody
        exact ⟨drive, job, working, rfl⟩
    | claiming | loading | finishing | continuing => simp at isBody
  · rintro ⟨drive, job, working, rfl⟩
    exact ⟨_, working, rfl⟩

def Bodies (system : System) : Prop :=
  ∀ service job run body, system.body? service = some (job, run, body) →
    system.db.Stores run (· = .running) ∧ body.ofStep = run.step

/-- An abort does not hit a job while a body is executed for it, and a job is not
loaded for a run that an abort has hit. -/
structure SparesBodies (system : System) (event : Event) : Prop where
  abort : ∀ env job, event = .call env (.abort job) →
    ∀ service run body, system.body? service ≠ some (job, run, body)
  load : ∀ service env message drive job run, event = .task service (.executed env message) →
    system.task? service = some ⟨drive, .loading job run⟩ → system.db.Stores run (· = .running)

end System

theorem Db.Shaped.step_of_running {db : Db} (shaped : db.Shaped) {run : IngestionStepRun}
    (running : db.Stores run (· = .running)) {job : Uuid} {row : JobRow}
    (ofJob : job = run.jobId) (found : db.job? job = some row) : row.step = run.step := by
  obtain ⟨stored, member, _, jobId, step, status⟩ := running
  obtain ⟨history, known, onStep⟩ := shaped.step_of_active member (by rw [status]; rfl)
  rw [jobId, ← ofJob, Db.history_of_found found] at known
  obtain rfl := Option.some.inj known
  exact onStep.trans step

theorem Db.Shaped.found_of_running {db : Db} (shaped : db.Shaped) {run : IngestionStepRun}
    (running : db.Stores run (· = .running)) {job : Uuid} (ofJob : job = run.jobId) :
    ∃ row, db.job? job = some row := by
  obtain ⟨stored, member, _, jobId, _⟩ := running
  exact Option.isSome_iff_exists.mp (ofJob.trans jobId.symm ▸ shaped.referenced stored member)

theorem Phase.ofWork_eq_executing {job loaded : IngestionJob} {run held : IngestionStepRun}
    {work : Work} {body : Body} (same : ofWork loaded held work = .executing job run body) :
    held = run ∧ work = .more body := by
  cases work with
  | more =>
      obtain ⟨_, rfl, rfl⟩ := Phase.executing.inj same
      exact ⟨rfl, rfl⟩
  | done => contradiction

theorem Took.bodies {system next : System} {event : Event} (took : Took system event next)
    (sane : system.Sane) (spares : system.SparesBodies event) (bodies : system.Bodies) :
    next.Bodies := by
  intro service id run body isBody
  obtain ⟨drive, job, working, rfl⟩ := System.body?_eq_some.mp isBody
  rcases took.task_cases working with
    ⟨same, other⟩ | ⟨⟨before, phase⟩, answer, result, rfl, known, step, goesOn, _, db_eq⟩ |
    ⟨_, noRun⟩
  · have holds : system.Holds service _ run := ⟨same, rfl⟩
    have known := System.body?_eq_some.mpr ⟨drive, job, same, rfl⟩
    obtain ⟨running, proper⟩ := bodies _ _ _ _ known
    refine ⟨took.running sane holds running other fun env aborts => ?_, proper⟩
    exact spares.abort env _ aborts service run body ((sane.stored _ _ _ holds).1 ▸ known)
  · rw [db_eq]
    cases step with
    | vanished | failed | unclaimed | unfinished | stopped | dropped => contradiction
    | claimed | advanced => simp at goesOn
    | entered found =>
        obtain ⟨rfl, begun⟩ := Phase.ofWork_eq_executing (Option.some.inj goesOn)
        have holds : system.Holds service _ _ := ⟨known, rfl⟩
        have running := spares.load _ _ _ _ _ _ rfl known
        obtain ⟨row, isRow, _, sameStep⟩ := Phase.load_row found
        have onStep := sane.shaped.step_of_running running (sane.stored _ _ _ holds).1 isRow
        exact ⟨running, (Body.begin_ofStep begun).trans (sameStep.trans onStep)⟩
    | worked step =>
        obtain ⟨rfl, rfl⟩ := Phase.ofWork_eq_executing (Option.some.inj goesOn)
        obtain ⟨running, proper⟩ :=
          bodies _ _ _ _ (System.body?_eq_some.mpr ⟨before, _, known, rfl⟩)
        exact ⟨step.same.stores running, step.ofStep.trans proper⟩
    | finished =>
        simp only at goesOn
        split at goesOn <;> simp at goesOn
  · contradiction

/-- At most one body is executed for a job, for a run that is running, and it is the
body of that run's step. -/
structure System.OneBody (system : System) : Prop where
  one : ∀ service other job run held body second, system.body? service = some (job, run, body) →
    system.body? other = some (job, held, second) → service = other
  own : ∀ service job run body, system.body? service = some (job, run, body) →
    run.jobId = job ∧ system.db.Stores run (· = .running) ∧ body.ofStep = run.step

theorem System.Bodies.oneBody {system : System} (bodies : system.Bodies) (sane : system.Sane) :
    system.OneBody := by
  have ofJob : ∀ service job run body, system.body? service = some (job, run, body) →
      ∃ task, system.Holds service task run ∧ run.jobId = job := by
    intro service job run body isBody
    obtain ⟨drive, loaded, working, rfl⟩ := System.body?_eq_some.mp isBody
    have holds : system.Holds service _ run := ⟨working, rfl⟩
    exact ⟨_, holds, (sane.stored _ _ _ holds).1.symm⟩
  constructor
  · intro service other job run held body second isBody alsoBody
    obtain ⟨_, holds, jobId⟩ := ofJob _ _ _ _ isBody
    obtain ⟨_, alsoHolds, otherJobId⟩ := ofJob _ _ _ _ alsoBody
    obtain ⟨row, member, id, rowJob, _, status⟩ := (bodies _ _ _ _ isBody).1
    obtain ⟨second, secondMember, secondId, secondJob, _, secondStatus⟩ :=
      (bodies _ _ _ _ alsoBody).1
    have same := sane.shaped.oneActive.eq member secondMember
      (rowJob.trans (jobId.trans (otherJobId.symm.trans secondJob.symm)))
      (by rw [status]; rfl) (by rw [secondStatus]; rfl)
    exact sane.apart _ _ _ _ _ _ holds alsoHolds (id.symm.trans (same ▸ secondId))
  · intro service job run body isBody
    obtain ⟨_, _, jobId⟩ := ofJob _ _ _ _ isBody
    exact ⟨jobId, bodies _ _ _ _ isBody⟩

theorem bodies_of_reachable {allowed : System → Event → Prop} {system : System}
    (spares : ∀ system event, allowed system event → system.SparesBodies event)
    (reachable : Reachable System.Initial (System.Events allowed) system) : system.Bodies := by
  refine System.invariant_of_reachable (fun start initial => ?_) ?_ reachable
  · intro service job run body isBody
    simp [System.body?, initial.task?] at isBody
  · intro state event next sane bodies permitted took
    exact took.bodies sane (spares _ _ permitted) bodies

/-- One body at a time, the right one, while aborts spare the bodies. -/
theorem bodies_exclusive {system : System}
    (reachable : Reachable System.Initial (System.Events System.SparesBodies) system) :
    system.OneBody :=
  (bodies_of_reachable (fun _ _ => id) reachable).oneBody (System.sane_of_reachable reachable)

/-! Without aborts. -/

/-- No run is aborted: no binary of the repository does so. -/
def Event.isAbort : Event → Bool
  | .call _ (.abort _) => true
  | _ => false

/-- The phases from the claim to the recording of the end. -/
def Phase.isBusy : Phase → Bool
  | .loading .. | .executing .. | .finishing .. => true
  | .claiming _ | .continuing .. => false

theorem Phase.isBusy_ofWork (job : IngestionJob) (run : IngestionStepRun) (work : Work) :
    (ofWork job run work).isBusy = true := by
  cases work <;> rfl

def System.Busy (system : System) : Prop :=
  ∀ service task run, system.Holds service task run → task.phase.isBusy = true →
    system.db.Stores run (· = .running)

theorem Took.busy {system next : System} {event : Event} (took : Took system event next)
    (sane : system.Sane) (unaborted : event.isAbort = false) (busy : system.Busy) :
    next.Busy := by
  intro service task run holds isBusy
  obtain ⟨working, isRun⟩ := holds
  rcases took.task_cases working with
    ⟨same, other⟩ | ⟨⟨before, phase⟩, answer, result, rfl, known, step, goesOn, _, db_eq⟩ |
    ⟨_, noRun⟩
  · have holds : system.Holds service task run := ⟨same, isRun⟩
    refine took.running sane holds (busy _ _ _ holds isBusy) other fun env aborts => ?_
    rw [aborts] at unaborted
    contradiction
  · rw [db_eq]
    generalize task.phase = later at goesOn isRun isBusy
    cases step with
    | vanished | failed | unclaimed | unfinished | stopped | dropped => contradiction
    | claimed returned =>
        obtain rfl := Option.some.inj goesOn
        obtain rfl := Option.some.inj isRun
        exact (claimed_stores returned).2.1
    | advanced returned =>
        obtain rfl := Option.some.inj goesOn
        obtain rfl := Option.some.inj isRun
        exact (advanced_stores returned).2.2.1
    | entered =>
        obtain rfl := Option.some.inj goesOn
        rw [Phase.run?_ofWork] at isRun
        obtain rfl := Option.some.inj isRun
        exact busy _ _ _ ⟨known, rfl⟩ rfl
    | worked step =>
        obtain rfl := Option.some.inj goesOn
        rw [Phase.run?_ofWork] at isRun
        obtain rfl := Option.some.inj isRun
        exact step.same.stores (busy _ _ _ ⟨known, rfl⟩ rfl)
    | finished =>
        simp only at goesOn
        split at goesOn
        · obtain rfl := Option.some.inj goesOn
          contradiction
        · contradiction
  · rw [isRun] at noRun
    contradiction

theorem busy_of_reachable {allowed : System → Event → Prop} {system : System}
    (unaborted : ∀ system event, allowed system event → event.isAbort = false)
    (reachable : Reachable System.Initial (System.Events allowed) system) : system.Busy := by
  refine System.invariant_of_reachable (fun start initial => ?_) ?_ reachable
  · intro service task run holds
    simp [System.Holds, initial.task?] at holds
  · intro state event next sane busy permitted took
    exact took.busy sane (unaborted _ _ permitted) busy

theorem System.Busy.spares {system : System} (busy : system.Busy) {event : Event}
    (unaborted : event.isAbort = false) : system.SparesBodies event where
  abort env job aborts := by
    rw [aborts] at unaborted
    contradiction
  load service env message drive job run _ working := busy _ _ _ ⟨working, rfl⟩ rfl

theorem reachable_sparing {allowed : System → Event → Prop} {system : System}
    (unaborted : ∀ system event, allowed system event → event.isAbort = false)
    (reachable : Reachable System.Initial (System.Events allowed) system) :
    Reachable System.Initial (System.Events System.SparesBodies) system := by
  refine reachable.transfer (fun _ => busy_of_reachable unaborted) ?_
  rintro state event next busy ⟨permitted, taken⟩
  exact ⟨busy.spares (unaborted _ _ permitted), taken⟩

end

section

attribute [local instance] english

theorem bodies_exclusive_on_extract :
    let system := System.after (fun _ event => !event.isAbort) deployment (toReview.take 6)
    system.body? 0 = some (firstJob, ⟨⟨2⟩, firstJob, .extract, 1, .running 2⟩, .extracting) ∧
      system.OneBody := by
  have reaches : Reachable System.Initial (System.Events fun _ event => event.isAbort = false)
      (System.after (fun _ event => !event.isAbort) deployment (toReview.take 6)) :=
    System.reachable_after (by simp) deployment_initial (by decide +kernel)
  exact ⟨by decide +kernel, bodies_exclusive (reachable_sparing (fun _ _ => id) reaches)⟩

/-- An abort frees the job while its body is still executed. -/
def twoBodies : List Event :=
  [.boot 0, byOperator 1 (.start rulebook), .sweep 0, .next 0, request 0 2, request 0 3,
    byOperator 4 (.abort firstJob), byOperator 5 (.restart firstJob),
    .boot 1, .sweep 1, .next 1, request 1 6, request 1 7]

theorem aborted_body_overlaps : ¬ ∀ system : System, system.Reaches → system.OneBody := by
  intro all
  have reaches : (System.after (fun _ _ => true) deployment twoBodies).Reaches :=
    System.reachable_after (fun _ _ _ => trivial) deployment_initial (by decide +kernel)
  have first : (System.after (fun _ _ => true) deployment twoBodies).body? 0 =
      some (firstJob, ⟨⟨2⟩, firstJob, .extract, 1, .running 2⟩, .extracting) := by decide +kernel
  have second : (System.after (fun _ _ => true) deployment twoBodies).body? 1 =
      some (firstJob, ⟨⟨6⟩, firstJob, .extract, 2, .running 6⟩, .extracting) := by decide +kernel
  exact absurd ((all _ reaches).one 0 1 _ _ _ _ _ first second) (by decide)

end

end Zyndeck
