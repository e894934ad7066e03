import Zyndeck.Db.Workflow
import Zyndeck.System.Completion

namespace Zyndeck

open Data

/-! The lives of the jobs, and who leads them. -/

theorem Passes.mono {allowed wider : Milestone → Prop} {old new : Option JobStatus}
    (passes : Passes allowed old new) (widen : ∀ milestone, allowed milestone → wider milestone) :
    Passes wider old new := by
  rcases passes with same | ⟨milestone, isAllowed, step⟩
  · exact .inl same
  · exact .inr ⟨milestone, widen milestone isAllowed, step⟩

section

variable [Isolang]

/-- The clock of every call is later than what is stored. -/
def System.Timed (system : System) : Event → Prop
  | .call env _ => system.db.Before env.now
  | .task _ answer => ∀ env ∈ answer.env?, system.db.Before env.now
  | _ => True

/-- Who takes a job past a milestone: an operator by a call, or a service by what it asks the
database for. -/
def System.Makes (system : System) (job : Uuid) : Event → Milestone → Prop
  | .call env operation, milestone =>
      operation.byOperator = true ∧ operation.Makes env system.db job milestone
  | .task service answer, milestone => ∃ task operation env,
      system.task? service = some task ∧ task.phase.Issues operation ∧
        answer.env? = some env ∧ operation.Makes env system.db job milestone
  | _, _ => False

theorem Took.passes {system next : System} {event : Event} (took : Took system event next)
    (sound : system.db.Sound) (job : Uuid) :
    Passes (system.Makes job event) (system.db.status job) (next.db.status job) := by
  have unchanged : ∀ {after : Db}, system.db.SamePipeline after →
      Passes (system.Makes job event) (system.db.status job) (after.status job) := fun same =>
    .inl (congrArg (Option.map History.status) (same.history job))
  cases took with
  | called byOperator =>
      have pipeline := (Operation.pipeline_of_byOperator byOperator).1
      exact ((exec_effect ..).passes pipeline sound job).mono fun _ made => ⟨byOperator, made⟩
  | @moved service task answer result working step =>
      rcases step.pipeline with same | ⟨env, operation, returned, effect, issues, executed⟩
      · exact unchanged same
      · exact (effect.passes issues.isBegin sound job).mono fun _ made =>
          ⟨task, operation, env, working, issues, executed, made⟩
  | processed | switched | crashed | seated => exact .inl rfl
  | edited _ step =>
      cases step with
      | ended | checked | read | changed => exact .inl rfl
      | saved written => exact unchanged (upsertTranscript_ok written).same

theorem Db.SamePipeline.sound {first second : Db} (same : first.SamePipeline second)
    (sound : first.Sound) : second.Sound where
  toKeyed := same.keyed sound.toKeyed
  histories job history known := sound.histories job history (same.history job ▸ known)

theorem Took.sound {system next : System} {event : Event} (took : Took system event next)
    (timed : system.Timed event) (sound : system.db.Sound) : next.db.Sound := by
  cases took with
  | called byOperator =>
      exact (exec_effect ..).sound (Operation.pipeline_of_byOperator byOperator).1 timed sound
  | moved working step =>
      rcases step.pipeline with same | ⟨env, operation, returned, effect, issues, executed⟩
      · exact same.sound sound
      · exact effect.sound issues.isBegin (timed env executed) sound
  | processed | switched | crashed | seated => exact sound
  | edited _ step =>
      cases step with
      | ended | checked | read | changed => exact sound
      | saved written => exact (upsertTranscript_ok written).same.sound sound

theorem System.sound_of_run {start system : System} {events : List Event} (initial : start.Initial)
    (run : Run (System.Events System.Timed) start events system) : system.db.Sound := by
  have initially : start.db.Sound := by
    refine ⟨initial.db.keyed, fun job history known => ?_⟩
    simp [initial.db.history job] at known
  have kept : ∀ state event next, state.db.Sound → System.Events System.Timed state event next →
      next.db.Sound :=
    fun _ _ _ sound taken => (System.step?_cases taken.2).sound taken.1 sound
  have sound := run.invariant kept initially
  exact sound

/-- A run of the system and the milestones of a job along it: every event leaves the job's status
as it was, or takes the job past the milestone that the event makes. -/
inductive System.Lives (job : Uuid) (start : System) :
    List Event → List Milestone → System → Prop
  | born : Lives job start [] [] start
  | stayed (before : Lives job start events milestones state)
      (taken : state.step? event = some next)
      (same : next.db.status job = state.db.status job) :
      Lives job start (events ++ [event]) milestones next
  | passed (before : Lives job start events milestones state)
      (taken : state.step? event = some next) (makes : state.Makes job event milestone)
      (step : Workflow (state.db.status job) milestone (next.db.status job)) :
      Lives job start (events ++ [event]) (milestones ++ [milestone]) next

theorem System.Lives.workflow {job : Uuid} {start system : System} {events : List Event}
    {milestones : List Milestone} (lives : System.Lives job start events milestones system) :
    Run Workflow (start.db.status job) milestones (system.db.status job) := by
  induction lives with
  | born => exact .nil
  | stayed _ _ same workflow => exact same ▸ workflow
  | passed _ _ _ step workflow => exact workflow.snoc step

/-- Every job is transcribed until it is validated and then indexed: each event that changes its
status is a step of the workflow that this event makes. -/
theorem lifecycle {start system : System} {events : List Event} (initial : start.Initial)
    (run : Run (System.Events System.Timed) start events system) (job : Uuid) :
    ∃ milestones, System.Lives job start events milestones system ∧
      Behind milestones (system.db.status job) := by
  suffices lived : ∃ milestones, System.Lives job start events milestones system by
    obtain ⟨milestones, lives⟩ := lived
    have workflow := lives.workflow
    rw [Db.status, initial.db.history job] at workflow
    exact ⟨milestones, lives, Workflow.behind workflow⟩
  induction run with
  | nil => exact ⟨[], .born⟩
  | snoc before taken induction =>
      obtain ⟨milestones, lives⟩ := induction
      have sound := System.sound_of_run initial before
      rcases (System.step?_cases taken.2).passes sound job with same | ⟨milestone, makes, step⟩
      · exact ⟨milestones, lives.stayed taken.2 same⟩
      · exact ⟨milestones ++ [milestone], lives.passed taken.2 makes step⟩

end

section

attribute [local instance] english

def timed (system : System) : Event → Bool
  | .call env _ => decide (system.db.Before env.now)
  | .task _ answer => answer.env?.all fun env => decide (system.db.Before env.now)
  | _ => true

theorem timed_sound (system : System) (event : Event) (holds : timed system event = true) :
    system.Timed event := by
  cases event with
  | call env operation => simpa [timed, System.Timed] using holds
  | task service answer =>
      intro env executed
      rw [timed, Option.mem_def.mp executed] at holds
      simpa using holds
  | _ => trivial

theorem lifecycle_of_completed :
    let events := toReview ++ toEmbedded ++ [request 0 17]
    let system := System.after timed deployment events
    system.db.status firstJob = some .completed ∧
      ∃ milestones, System.Lives firstJob deployment events milestones system ∧
        Behind milestones (system.db.status firstJob) :=
  ⟨by decide +kernel, lifecycle deployment_initial
    (System.run_after timed_sound (by decide +kernel)) firstJob⟩

end

end Zyndeck
