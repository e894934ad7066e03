import Mathlib.Data.List.Dedup
import Zyndeck.System.Drive

namespace Zyndeck

open Data

/-! Every pending run comes to the notice of every service that listens. -/

namespace Db

theorem mem_pendingRunJobIds {db : Db} {run : StepRunRow} (member : run ∈ db.runs)
    (pending : run.status = .pending) : run.jobId ∈ db.pendingRunJobIds := by
  unfold pendingRunJobIds
  apply List.mem_dedup.mpr
  exact List.mem_map.mpr ⟨run, List.mem_filter.mpr ⟨member, by simp [pending]⟩, rfl⟩

theorem pending_of_updateRuns {db : Db} {hit : StepRunRow → Bool}
    {set : StepRunRow → StepRunRow} (ends : ∀ row, (set row).status ≠ .pending)
    {run : StepRunRow} (member : run ∈ (db.updateRuns hit set).2.runs)
    (pending : run.status = .pending) : run ∈ db.runs ∧ hit run = false := by
  rcases mem_updateWhere.mp member with ⟨old, _, _, rfl⟩ | kept
  · exact absurd pending (ends old)
  · exact kept

end Db

section

variable [Isolang] {env : Env} {db : Db}

theorem mem_runs_view {writes : List Write} {run : StepRunRow}
    (member : run ∈ (postgres.view db writes).runs) : run ∈ db.runs ∨ .insertRun run ∈ writes := by
  induction writes generalizing db with
  | nil => exact .inl member
  | cons write rest induction =>
      change run ∈ (postgres.view (db.apply write) rest).runs at member
      rcases induction member with stored | later
      · cases write with
        | insertRun new =>
            rcases List.mem_append.mp stored with old | same
            · exact .inl old
            · exact .inr (by simp [List.mem_singleton.mp same])
        | insertJob | setStep | notify => exact .inl stored
      · exact .inr (List.mem_cons_of_mem _ later)

theorem transaction_announces {body : Tx α} {output : α → Output}
    (announced : ∀ value writes, postgres.run env db body [] = .ok (value, writes) →
      ∀ run, .insertRun run ∈ writes → run.status = .pending → .notify run.jobId ∈ writes)
    {run : StepRunRow} (member : run ∈ (transaction env body output db).db.runs)
    (pending : run.status = .pending) :
    run ∈ db.runs ∨ run.jobId ∈ (transaction env body output db).notified := by
  rcases transaction_cases env body output db with ⟨_, ended⟩ | ⟨value, writes, ran, ended⟩
  · rw [ended] at member
    exact .inl member
  · rw [ended] at member ⊢
    rcases mem_runs_view member with stored | inserted
    · exact .inl stored
    · have notified := announced value writes ran run inserted pending
      exact .inr (List.mem_filterMap.mpr ⟨_, notified, rfl⟩)

/-- A run that an operator's call leaves pending was pending before, or the call
announces its job. -/
theorem exec_announces {operation : Operation} (byOperator : operation.byOperator = true)
    {run : StepRunRow} (member : run ∈ (operation.exec env db).db.runs)
    (pending : run.status = .pending) :
    run ∈ db.runs ∨ run.jobId ∈ (operation.exec env db).notified := by
  cases operation with
  | start new =>
      refine transaction_announces (fun value writes ran new inserted _ => ?_) member pending
      obtain ⟨row, _, _, _, _, _, enqueued, _, _, isWrites⟩ := startJob_ok.mp ran
      obtain ⟨isNew, _⟩ := insertRun_ok.mp enqueued
      simp_all [newRun]
  | restart job =>
      refine transaction_announces (fun value writes ran new inserted _ => ?_) member pending
      obtain ⟨_, _, _, _, _, _, enqueued, _, isWrites⟩ := restartJob_ok.mp ran
      obtain ⟨isNew, _⟩ := insertRun_ok.mp enqueued
      simp_all [newRun]
  | validate job =>
      refine transaction_announces (fun value writes ran new inserted _ => ?_) member pending
      obtain ⟨_, _, _, _, _, _, _, _, _, _, _, enqueued, _, isWrites⟩ := validateJob_ok.mp ran
      obtain ⟨isNew, _⟩ := insertRun_ok.mp enqueued
      simp_all [newRun]
  | abort job =>
      have aborted (row : StepRunRow) : (row.abort env.now).status ≠ .pending :=
        RunStatus.noConfusion
      exact .inl (Db.pending_of_updateRuns aborted member pending).1
  | claim | finish | begin | «continue» => contradiction

omit [Isolang] in
theorem claim_leaves_none {now : Timestamp} {job : Uuid} {run : StepRunRow}
    (member : run ∈ (db.claim now job).2.runs) (pending : run.status = .pending) :
    run ∈ db.runs ∧ run.jobId ≠ job := by
  have started (row : StepRunRow) : (row.claim now).status ≠ .pending :=
    RunStatus.noConfusion
  have ⟨stored, missed⟩ := Db.pending_of_updateRuns started member pending
  exact ⟨stored, fun same => by simp [StepRunRow.isPendingOf, same, pending] at missed⟩

theorem Effect.stored_of_pending {phase : Phase} {operation : Operation} {next : Db}
    {returned : Except Error Output} (effect : Effect env db operation returned next)
    (issues : phase.Issues operation) {run : StepRunRow} (member : run ∈ next.runs)
    (pending : run.status = .pending) : run ∈ db.runs := by
  cases effect with
  | failed | completed => exact member
  | claimed => exact (claim_leaves_none member pending).1
  | @finished _ outcome =>
      have ended (row : StepRunRow) :
          (row.finish env.now outcome.status outcome.error).status ≠ .pending := by
        cases outcome <;> exact RunStatus.noConfusion
      exact (Db.pending_of_updateRuns ended member pending).1
  | advanced _ _ _ _ _ _ inserted =>
      have ⟨isNew, _⟩ := insertRun_ok.mp inserted
      rcases List.mem_append.mp member with stored | same
      · exact stored
      · simp_all [newRun]
  | started | aborted | begun | restarted | validated => cases issues

namespace PhaseStep

variable {drive : Nat} {phase : Phase} {answer : Answer} {result : Moved}

theorem stored_of_pending (step : PhaseStep drive db phase answer result) {run : StepRunRow}
    (member : run ∈ result.db.runs) (pending : run.status = .pending) : run ∈ db.runs := by
  rcases step.pipeline with same | ⟨env, operation, returned, effect, issues, _⟩
  · exact same.runs ▸ member
  · exact effect.stored_of_pending issues member pending

theorem claimed_of_pending {job : Uuid} (step : PhaseStep drive db (.claiming job) answer result)
    (executed : ∀ message, answer ≠ .failed message) {run : StepRunRow}
    (member : run ∈ result.db.runs) (pending : run.status = .pending) : run.jobId ≠ job := by
  cases step with
  | failed => exact absurd rfl (executed _)
  | claimed | unclaimed => exact (claim_leaves_none member pending).2
  | dropped issues =>
      cases issues
      exact (claim_leaves_none member pending).2

end PhaseStep

/-! The ways a service still comes to a job. -/

def Loop.unswept : Loop → List Uuid
  | .sweeping jobs => jobs
  | _ => []

namespace Service

def IsClaiming (service : Service) (job : Uuid) : Prop :=
  ∃ drive, service.task = some ⟨drive, .claiming job⟩

/-- The service still comes to the job: its sweep has not read the table yet, or the job is
announced, still to be swept, or about to be claimed. -/
def Awaits (service : Service) (job : Uuid) : Prop :=
  service.loop = .listening ∨ job ∈ service.queue ∨ job ∈ service.loop.unswept ∨
    service.IsClaiming job

structure Waits (service : Service) : Prop where
  loop : service.loop = .waiting
  queue : service.queue = []
  task : service.task = none

theorem Waits.not_awaits {service : Service} (waits : service.Waits) (job : Uuid) :
    ¬ service.Awaits job := by
  simp [Awaits, Loop.unswept, IsClaiming, waits.loop, waits.queue, waits.task]

theorem Awaits.of_queue {service : Service} {job : Uuid} (awaits : service.Awaits job)
    {queue : List Uuid} (kept : service.queue ⊆ queue) :
    ({ service with queue } : Service).Awaits job := by
  rcases awaits with listening | queued | unswept | claiming
  · exact .inl listening
  · exact .inr (.inl (kept queued))
  · exact .inr (.inr (.inl unswept))
  · exact .inr (.inr (.inr claiming))

/-- Between two jobs, what a service past its sweep query awaits is announced or unswept. -/
theorem Awaits.of_idle {service : Service} {job : Uuid} (awaits : service.Awaits job)
    (swept : service.loop ≠ .listening) (idle : service.task = none) :
    job ∈ service.queue ∨ job ∈ service.loop.unswept := by
  rcases awaits with listening | queued | unswept | ⟨drive, claiming⟩
  · contradiction
  · exact .inl queued
  · exact .inr unswept
  · rw [idle] at claiming
    contradiction

end Service

def Event.isFault : Event → Bool
  | .channel .. | .task _ (.failed _) => true
  | _ => false

namespace System

/-- What is assumed of the channel and of the claims: no notification is lost and no
claim fails. -/
def Delivers (system : System) : Event → Prop
  | .channel service queue => (system.services service).queue ⊆ queue
  | .task service (.failed _) => ∀ job, ¬ (system.services service).IsClaiming job
  | _ => True

theorem delivers_of_not_isFault (system : System) {event : Event}
    (reliable : (!event.isFault) = true) : system.Delivers event := by
  unfold Delivers
  split
  · contradiction
  · contradiction
  · trivial

/-- What is assumed for one service. -/
def DeliversTo (service : Nat) (system : System) : Event → Prop
  | .channel other queue => other = service → (system.services service).queue ⊆ queue
  | .task other (.failed _) => other = service → ∀ job, ¬ (system.services service).IsClaiming job
  | _ => True

theorem Delivers.to {system : System} {event : Event} (delivers : system.Delivers event)
    (service : Nat) : system.DeliversTo service event := by
  unfold DeliversTo
  split
  · rintro rfl
    exact delivers
  · rintro rfl
    exact delivers
  · trivial

/-- The service, if it listens, still comes to every pending run. -/
def Attends (service : Nat) (system : System) : Prop :=
  (system.services service).loop ≠ .down →
    ∀ run ∈ system.db.runs, run.status = .pending → (system.services service).Awaits run.jobId

theorem services_call_of_live {system : System} {env : Env} {operation : Operation}
    {service : Nat} (live : (system.services service).loop ≠ .down) :
    (system.call env operation).services service =
      { system.services service with
        queue := (system.services service).queue ++ (operation.exec env system.db).notified } := by
  change deliver _ _ service = _
  unfold deliver
  split
  · contradiction
  · rfl

namespace Attends

variable {system : System} {service : Nat}

theorem setService (attends : system.Attends service) {other : Nat} {state : Service}
    (awaits : other = service → state.loop ≠ .down → ∀ run ∈ system.db.runs,
      run.status = .pending → state.Awaits run.jobId) :
    (system.setService other state).Attends service := by
  intro live run member pending
  by_cases own : service = other
  · subst own
    simp only [System.setService, Function.update_self] at live ⊢
    exact awaits rfl live run member pending
  · simp only [System.setService, Function.update_of_ne own] at live ⊢
    exact attends live run member pending

theorem call (attends : system.Attends service) {env : Env} {operation : Operation}
    (byOperator : operation.byOperator = true) :
    (system.call env operation).Attends service := by
  intro live run member pending
  have listening : (system.services service).loop ≠ .down := fun down => by
    simp [System.call, deliver, down] at live
  rw [services_call_of_live listening]
  rcases exec_announces byOperator member pending with stored | announced
  · apply (attends listening run stored pending).of_queue
    exact List.subset_append_left _ _
  · exact .inr (.inl (List.mem_append_right _ announced))

theorem moved (attends : system.Attends service) {other : Nat} {task : Task} {answer : Answer}
    {result : Moved} (delivers : system.DeliversTo service (.task other answer))
    (working : (system.services other).task = some task)
    (step : PhaseStep task.drive system.db task.phase answer result) :
    (system.moved other task result).Attends service := by
  intro live run member pending
  have stored := step.stored_of_pending member pending
  by_cases own : service = other
  · subst own
    simp only [System.moved, System.setService, Function.update_self] at live ⊢
    rcases attends live run stored pending with
      listening | queued | unswept | ⟨drive, claiming⟩
    · exact .inl listening
    · exact .inr (.inl queued)
    · exact .inr (.inr (.inl unswept))
    · -- The claim has been executed, so no run of its job is left pending.
      obtain rfl := Option.some.inj (working.symm.trans claiming)
      have executed : ∀ message, answer ≠ .failed message := by
        rintro message rfl
        exact delivers rfl _ ⟨drive, claiming⟩
      exact absurd rfl (step.claimed_of_pending executed member pending)
  · simp only [System.moved, System.setService, Function.update_of_ne own] at live ⊢
    exact attends live run stored pending

theorem of_idle (attends : system.Attends service)
    (live : (system.services service).loop ≠ .down)
    (swept : (system.services service).loop ≠ .listening)
    (idle : (system.services service).task = none) {run : StepRunRow}
    (member : run ∈ system.db.runs) (pending : run.status = .pending) :
    run.jobId ∈ (system.services service).queue ∨
      run.jobId ∈ (system.services service).loop.unswept :=
  (attends live run member pending).of_idle swept idle

/-- The jobs a step makes wait are awaited, and the service loses none that it awaits. -/
theorem step {next : System} {event : Event} (attends : system.Attends service)
    (delivers : system.DeliversTo service event) (taken : system.step? event = some next) :
    next.Attends service := by
  cases event with
  | call env operation =>
      simp only [System.step?] at taken
      split at taken
      · obtain rfl := Option.some.inj taken
        exact attends.call ‹_›
      · contradiction
  | boot other =>
      simp only [System.step?] at taken
      split at taken
      · obtain rfl := Option.some.inj taken
        exact attends.setService fun _ _ _ _ _ => .inl rfl
      · contradiction
  | sweep other =>
      simp only [System.step?] at taken
      split at taken
      · obtain rfl := Option.some.inj taken
        refine attends.setService fun _ _ run member pending => ?_
        exact .inr (.inr (.inl (Db.mem_pendingRunJobIds member pending)))
      · contradiction
  | next other =>
      simp only [System.step?] at taken
      split at taken
      · rename_i loop idle
        obtain rfl := Option.some.inj taken
        refine attends.setService fun own _ run member pending => ?_
        subst own
        rcases attends.of_idle (by simp [loop]) (by simp [loop]) idle member pending with
          queued | unswept
        · exact .inr (.inl queued)
        · simp [loop, Loop.unswept] at unswept
      · rename_i job jobs loop idle
        obtain rfl := Option.some.inj taken
        refine attends.setService fun own _ run member pending => ?_
        subst own
        rcases attends.of_idle (by simp [loop]) (by simp [loop]) idle member pending with
          queued | unswept
        · exact .inr (.inl queued)
        · rw [loop] at unswept
          rcases List.mem_cons.mp unswept with rfl | later
          · exact .inr (.inr (.inr ⟨_, rfl⟩))
          · exact .inr (.inr (.inl later))
      · contradiction
  | receive other =>
      simp only [System.step?] at taken
      split at taken
      · rename_i job queue loop announced idle
        obtain rfl := Option.some.inj taken
        refine attends.setService fun own _ run member pending => ?_
        subst own
        rcases attends.of_idle (by simp [loop]) (by simp [loop]) idle member pending with
          queued | unswept
        · rw [announced] at queued
          rcases List.mem_cons.mp queued with rfl | later
          · exact .inr (.inr (.inr ⟨_, rfl⟩))
          · exact .inr (.inl later)
        · simp [loop, Loop.unswept] at unswept
      · contradiction
  | channel other queue =>
      obtain rfl := Option.some.inj taken
      refine attends.setService fun own live run member pending => ?_
      subst own
      exact (attends live run member pending).of_queue (delivers rfl)
  | task other answer =>
      obtain ⟨task, working, rest⟩ := Option.bind_eq_some_iff.mp taken
      obtain ⟨result, stepped, ended⟩ := Option.bind_eq_some_iff.mp rest
      obtain rfl := Option.some.inj ended
      exact attends.moved delivers working (Phase.step_cases stepped)
  | crash other =>
      obtain rfl := Option.some.inj taken
      exact attends.setService fun _ live => absurd rfl live
  | «open» session job =>
      simp only [System.step?] at taken
      split at taken
      · obtain rfl := Option.some.inj taken
        exact attends
      · contradiction
  | edit session answer =>
      obtain ⟨state, working, rest⟩ := Option.bind_eq_some_iff.mp taken
      obtain ⟨⟨later, db, observed⟩, stepped, ended⟩ := Option.bind_eq_some_iff.mp rest
      obtain rfl := Option.some.inj ended
      intro live run member pending
      exact attends live run ((Edit.step_cases stepped).same.runs ▸ member) pending
  | quit session =>
      obtain rfl := Option.some.inj taken
      exact attends

end Attends

/-- No wakeup is lost: a service that listens comes to every pending run, so that none is
pending while the service waits. -/
theorem no_lost_wakeup {start system : System} {events : List Event}
    (down : ∀ service, start.services service = .down)
    (run : Run (Events Delivers) start events system) {service : Nat}
    (live : (system.services service).loop ≠ .down) :
    (∀ run ∈ system.db.runs, run.status = .pending →
        (system.services service).Awaits run.jobId) ∧
      ((system.services service).Waits → ∀ run ∈ system.db.runs, run.status ≠ .pending) := by
  have attends : system.Attends service := by
    refine run.invariant (fun _ _ _ attends step => attends.step (step.1.to service) step.2) ?_
    exact fun listens => absurd (by rw [down service]; rfl) listens
  refine ⟨attends live, fun waits stored member pending => ?_⟩
  exact waits.not_awaits _ (attends live stored member pending)

end System

end

section

attribute [local instance] english

theorem no_lost_wakeup_while_sweeping :
    let system := System.after (fun _ event => !event.isFault) deployment (toReview.take 3)
    (system.services 0).loop = .sweeping [firstJob] ∧ (system.services 0).queue = [firstJob] ∧
      system.db.runs.map (·.status) = [.pending] ∧
      (∀ run ∈ system.db.runs, run.status = .pending →
        (system.services 0).Awaits run.jobId) ∧
      ((system.services 0).Waits → ∀ run ∈ system.db.runs, run.status ≠ .pending) := by
  intro system
  have ran : Run (System.Events System.Delivers) deployment (toReview.take 3) system :=
    System.run_after System.delivers_of_not_isFault (by decide +kernel)
  have sweeping : (system.services 0).loop = .sweeping [firstJob] := by decide +kernel
  refine ⟨sweeping, by decide +kernel, by decide +kernel, ?_⟩
  exact System.no_lost_wakeup (fun _ => rfl) ran (by simp [sweeping])

end

end Zyndeck
