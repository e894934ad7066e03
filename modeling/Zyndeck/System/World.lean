import Zyndeck.Api.Endpoint
import Zyndeck.Db.Gate
import Zyndeck.Db.Written
import Zyndeck.System.Resume

namespace Zyndeck

open Data

section

variable [Isolang]

/-! The API beside the services, the operators and the editors. -/

/-- The ingestion, and the requests that the API has in flight. -/
structure World where
  system : System
  requests : Nat → Option (Api.Endpoint Api.Answer)

inductive Occurrence where
  | system (event : Event)
  /-- The API starts, and resets its first super admin. -/
  | startup (draw : Draw) (admin : NewUser)
  | request (number : Nat) (state : Api.AppState) (request : Api.HttpRequest)
  /-- The next call of a request. -/
  | call (number : Nat) (draw : RepositoryDraw)
  /-- The next call, whose reply is lost. -/
  | lose (number : Nat) (draw : RepositoryDraw)
  /-- The next call, which the database fails. -/
  | fail (number : Nat) (fault : SqlError)
  /-- The response is sent, or the connection is closed before. -/
  | close (number : Nat)

namespace World

def db (world : World) : Db := world.system.db

def setDb (db : Db) (world : World) : World := { world with system := { world.system with db } }

def setRequest (number : Nat) (state : Option (Api.Endpoint Api.Answer)) (world : World) : World :=
  { world with requests := Function.update world.requests number state }

def settle (onFault : Error → Api.Refusal) (next : ρ → Api.Endpoint Api.Answer) :
    Except Error ρ → Api.Endpoint Api.Answer
  | .ok reply => next reply
  | .error fault => .done (.error (onFault fault))

def step? (world : World) : Occurrence → Option World
  | .system event => (world.system.step? event).map ({ world with system := · })
  | .startup draw admin => some (world.setDb (world.db.upsertUser draw admin).2)
  | .request number state request =>
      match world.requests number with
      | none => some (world.setRequest number (some (Api.Endpoint.handle state request)))
      | some _ => none
  | .call number draw =>
      match world.requests number with
      | some (.query call onFault next) =>
          let ended := call.exec draw world.db
          some ((world.setDb ended.2).setRequest number (some (settle onFault next ended.1)))
      | _ => none
  | .lose number draw =>
      match world.requests number with
      | some (.query call _ _) =>
          some ((world.setDb (call.exec draw world.db).2).setRequest number none)
      | _ => none
  | .fail number fault =>
      match world.requests number with
      | some (.query _ onFault next) =>
          some (world.setRequest number (some (settle onFault next (.error (.query fault)))))
      | _ => none
  | .close number => some (world.setRequest number none)

structure Initial (world : World) : Prop where
  system : world.system.Initial
  constraints : world.db.Constraints
  requests : ∀ number, world.requests number = none

def Occurs (allowed : World → Occurrence → Prop) (world : World) (occurrence : Occurrence)
    (next : World) : Prop :=
  allowed world occurrence ∧ world.step? occurrence = some next

end World

/-- The ids that an event may draw for a new job, a run or its chunks. -/
def Event.Draws (id : Uuid) : Event → Prop
  | .call env _ => id = env.jobId ∨ id = env.runId
  | .task _ answer => ∃ env ∈ answer.env?, id = env.runId ∨ ∃ index, id = env.chunkId index
  | _ => False

/-- The ids that may be drawn for a new game, a new job, a run or its chunks. -/
def Occurrence.Draws (id : Uuid) : Occurrence → Prop
  | .system event => event.Draws id
  | .call _ draw | .lose _ draw => id = draw.game.gameId
  | _ => False

theorem Body.step_written {job : Uuid} {db next : Db} {body : Body} {answer : Answer}
    {work : Work} {observed : List Observation}
    (taken : body.step job db answer = some (work, next, observed)) (service : Nat) :
    Written (fun id => (Event.task service answer).Draws id) db next := by
  by_cases replacing : ∃ chunks, body = .replacing chunks
  · obtain ⟨chunks, rfl⟩ := replacing
    cases answer with
    | executed env message | lost env message =>
        simp only [Body.step, Option.some.injEq, Prod.mk.injEq] at taken
        obtain ⟨_, isNext, _⟩ := taken
        cases replaced : replaceChunks env job chunks db with
        | error fault =>
            rw [replaced] at isNext
            exact isNext ▸ .kept
        | ok after =>
            rw [replaced] at isNext
            exact isNext ▸ .replaced (fun index => ⟨env, rfl, .inr ⟨index, rfl⟩⟩) replaced
    | failed message =>
        obtain ⟨_, rfl, _⟩ : _ ∧ db = next ∧ _ := by simpa [Body.step] using taken
        exact .kept
    | extracted | embedded | edited => simp [Body.step] at taken
  · have step := Body.step_cases taken
    cases step with
    | broke | extracted | split | listed | embedded => exact .kept
    | upserted written => exact .upserted written
    | replaced => exact absurd ⟨_, rfl⟩ replacing
    | stored stored => exact .embedded stored

theorem Phase.step_written {drive : Nat} {db : Db} {phase : Phase} {answer : Answer}
    {result : Moved} (taken : phase.step drive db answer = some result) (service : Nat) :
    Written (fun id => (Event.task service answer).Draws id) db result.db := by
  by_cases executing : phase.isExecuting = true
  · cases phase with
    | executing job run body =>
        simp only [Phase.step, Option.map_eq_some_iff] at taken
        obtain ⟨⟨work, next, observed⟩, stepped, rfl⟩ := taken
        exact Body.step_written stepped service
    | claiming | loading | finishing | continuing => contradiction
  · have step := Phase.step_cases taken
    cases step with
    | vanished | failed | entered => exact .kept
    | claimed | unclaimed | finished | unfinished | advanced | stopped =>
        exact .called (exec_effect ..) rfl ⟨_, rfl, .inl rfl⟩ fun _ isStart => by simp at isStart
    | dropped issues =>
        refine .called (exec_effect ..) issues.isBegin ⟨_, rfl, .inl rfl⟩ ?_
        rintro _ rfl
        cases issues
    | worked => exact absurd rfl executing

theorem System.step?_written {system next : System} {event : Event}
    (taken : system.step? event = some next) :
    Written (fun id => event.Draws id) system.db next.db := by
  by_cases working : ∃ service answer, event = .task service answer
  · obtain ⟨service, answer, rfl⟩ := working
    obtain ⟨task, _, rest⟩ := Option.bind_eq_some_iff.mp taken
    obtain ⟨result, stepped, ended⟩ := Option.bind_eq_some_iff.mp rest
    obtain rfl := Option.some.inj ended
    exact Phase.step_written stepped service
  · have took := System.step?_cases taken
    cases took with
    | called byOperator =>
        exact .called (exec_effect ..) (Operation.pipeline_of_byOperator byOperator).1 (.inr rfl)
          fun _ _ => .inl rfl
    | moved => exact absurd ⟨_, _, rfl⟩ working
    | processed | switched | crashed | seated => exact .kept
    | edited _ step =>
        cases step with
        | ended | checked | read | changed => exact .kept
        | saved written => exact .upserted written

theorem World.step?_written {world next : World} {occurrence : Occurrence}
    (taken : world.step? occurrence = some next) :
    Written (fun id => occurrence.Draws id) world.db next.db := by
  cases occurrence with
  | system event =>
      obtain ⟨later, stepped, rfl⟩ := Option.map_eq_some_iff.mp taken
      exact System.step?_written stepped
  | startup draw admin =>
      obtain rfl := Option.some.inj taken
      exact .started draw admin
  | request number state request =>
      simp only [step?] at taken
      split at taken
      · obtain rfl := Option.some.inj taken
        exact .kept
      · contradiction
  | call number draw =>
      simp only [step?] at taken
      split at taken
      · obtain rfl := Option.some.inj taken
        exact .requested _ draw rfl
      · contradiction
  | lose number draw =>
      simp only [step?] at taken
      split at taken
      · obtain rfl := Option.some.inj taken
        exact .requested _ draw rfl
      · contradiction
  | fail number fault =>
      simp only [step?] at taken
      split at taken
      · obtain rfl := Option.some.inj taken
        exact .kept
      · contradiction
  | close number =>
      obtain rfl := Option.some.inj taken
      exact .kept

namespace World

theorem Initial.shaped {world : World} (initial : world.Initial) : world.db.Shaped where
  toKeyed := initial.system.db.keyed
  histories job history known := by
    have none := initial.system.db.history job
    rw [World.db] at known
    simp [none] at known

theorem intact_of_reachable {allowed : World → Occurrence → Prop} {world : World}
    (reachable : Reachable Initial (Occurs allowed) world) :
    world.db.Constraints ∧ world.db.Shaped := by
  have initially : ∀ start : World, start.Initial → start.db.Constraints ∧ start.db.Shaped :=
    fun _ initial => ⟨initial.constraints, initial.shaped⟩
  have kept : ∀ (state : World) (occurrence : Occurrence) (next : World),
      state.db.Constraints ∧ state.db.Shaped → Occurs allowed state occurrence next →
        next.db.Constraints ∧ next.db.Shaped := by
    rintro state occurrence next ⟨constraints, shaped⟩ ⟨_, taken⟩
    have written := step?_written taken
    exact ⟨written.constraints constraints, written.shaped constraints shaped⟩
  have intact := reachable.invariant initially kept
  exact intact

/-- Whatever the parties do, in whatever order, the tables keep the constraints of the
migrations, and every job there is has its runs in order. -/
theorem integrity {world : World}
    (reachable : Reachable Initial (Occurs fun _ _ => True) world) :
    world.db.Constraints ∧
      ∀ job history, world.db.history job = some history → history.Ordered := by
  obtain ⟨constraints, shaped⟩ := intact_of_reachable reachable
  exact ⟨constraints, fun job history known => (shaped.histories job history known).ordered⟩

end World

end

section

attribute [local instance] english

def deployed : World where
  system :=
    { deployment with db := { catalog with users := [⟨⟨0⟩, "root".toList, [], .superAdmin, 0⟩] } }
  requests _ := none

theorem deployed_initial : deployed.Initial where
  system := ⟨⟨rfl, rfl, rfl, rfl, rfl⟩, fun _ => rfl, fun _ => rfl, rfl, rfl⟩
  constraints :=
    { references := ⟨by decide, by decide, by decide, by decide, by decide, by decide, by decide⟩
      userIds := by decide
      usernames := by decide
      gameIds := by decide
      jobIds := by decide
      runIds := by decide
      attempts := by decide
      oneActive := List.Pairwise.nil
      runSteps := by decide
      transcriptJobs := by decide
      chunkIds := by decide
      positions := by decide
      embeddingChunks := by decide
      dimensions := by decide }
  requests _ := rfl

def rootState : Api.AppState where
  build := .release
  validator := Api.terse
  decode token := some token
  parseUuid text := if text = ['0'] then some ⟨0⟩ else none
  hashPassword password := some password
  verifyPassword password hash := decide (password = hash)
  issueToken _ := some ['t']

def rootDraw : RepositoryDraw := ⟨⟨0, ⟨9⟩⟩, ⟨0, ⟨9⟩, fun _ => 0⟩, fun _ _ => true⟩

def toDeletion : List Occurrence :=
  [.system (.boot 0), .system (byOperator 1 (.start rulebook)), .system (.sweep 0),
    .system (.next 0), .request 0 rootState
      ⟨some ("Bearer ".toList ++ ['0']), .deleteGame (.ok ⟨1⟩)⟩, .call 0 rootDraw]

theorem World.integrity_at_deletion :
    let world := lastState World.step? deployed toDeletion
    world.db.Constraints ∧
      ∀ job history, world.db.history job = some history → history.Ordered := by
  intro world
  have run : Run (World.Occurs fun _ _ => True) deployed toDeletion world :=
    (run_lastState (by decide +kernel)).mono fun _ _ _ taken => ⟨trivial, taken⟩
  exact World.integrity ⟨deployed, toDeletion, deployed_initial, run⟩

end

end Zyndeck
