import Zyndeck.Cli.Edit
import Zyndeck.Db.Invariant

namespace Zyndeck

open Data

variable [Isolang]

/-! The database, the ingestion services and the operators of the command line. -/

inductive Loop where
  | down
  /-- `LISTEN` is in place, the sweep has not begun. -/
  | listening
  | sweeping (jobs : List Uuid)
  | waiting
  deriving DecidableEq

/-- A call of `process`, with its number. -/
structure Task where
  drive : Nat
  phase : Phase

structure Service where
  loop : Loop
  queue : List Uuid
  task : Option Task

def Service.down : Service := ⟨.down, [], none⟩

/-- The parties and the tables between them.  The log and the number of `process`
calls so far record the past. -/
structure System where
  db : Db
  services : Nat → Service
  edits : Nat → Option Edit
  drives : Nat
  log : List Observation

inductive Event where
  /-- A call by an operator. -/
  | call (env : Env) (operation : Operation)
  | boot (service : Nat)
  | sweep (service : Nat)
  /-- The next job of the sweep, or the end of it. -/
  | next (service : Nat)
  | receive (service : Nat)
  /-- The channel loses, repeats, delays or reorders notifications. -/
  | channel (service : Nat) (queue : List Uuid)
  | task (service : Nat) (answer : Answer)
  /-- An instance dies, or exits on an error of its listener or sweep. -/
  | crash (service : Nat)
  | open (session : Nat) (job : Uuid)
  | edit (session : Nat) (answer : Answer)
  | quit (session : Nat)

/-- The operations of the command line, and aborting a run. -/
def Operation.byOperator : Operation → Bool
  | .start _ | .restart _ | .validate _ | .abort _ => true
  | _ => false

namespace System

def setService (system : System) (service : Nat) (state : Service) : System :=
  { system with services := Function.update system.services service state }

def setEdit (system : System) (session : Nat) (state : Option Edit) : System :=
  { system with edits := Function.update system.edits session state }

/-- The commit's notifications reach the services that listen. -/
def deliver (jobs : List Uuid) (services : Nat → Service) : Nat → Service := fun service =>
  match (services service).loop with
  | .down => services service
  | _ => { services service with queue := (services service).queue ++ jobs }

/-- Validating a job fixes its transcript. -/
def observeCall (operation : Operation) (outcome : Outcome) (db : Db) : List Observation :=
  match operation, outcome.result with
  | .validate job, .ok _ => [.validated job (db.transcript? job)]
  | _, _ => []

/-- A call by an operator, with its notifications. -/
def call (env : Env) (operation : Operation) (system : System) : System :=
  let outcome := operation.exec env system.db
  { system with
    db := outcome.db
    services := deliver outcome.notified system.services
    log := system.log ++ observeCall operation outcome system.db }

def process (service : Nat) (loop : Loop) (queue : List Uuid) (job : Uuid)
    (system : System) : System :=
  { system.setService service ⟨loop, queue, some ⟨system.drives, .claiming job⟩⟩ with
    drives := system.drives + 1 }

def moved (service : Nat) (task : Task) (result : Moved) (system : System) : System :=
  let state := system.services service
  { system.setService service { state with task := result.phase.map (⟨task.drive, ·⟩) } with
    db := result.db
    log := system.log ++ result.observed }

def step? (system : System) : Event → Option System
  | .call env operation =>
      if operation.byOperator then some (system.call env operation) else none
  | .boot service =>
      let state := system.services service
      match state.loop with
      | .down => some (system.setService service { state with loop := .listening, queue := [] })
      | _ => none
  | .sweep service =>
      let state := system.services service
      match state.loop with
      | .listening =>
          some (system.setService service
            { state with loop := .sweeping system.db.pendingRunJobIds })
      | _ => none
  | .next service =>
      let state := system.services service
      match state.loop, state.task with
      | .sweeping [], none => some (system.setService service { state with loop := .waiting })
      | .sweeping (job :: jobs), none =>
          some (system.process service (.sweeping jobs) state.queue job)
      | _, _ => none
  | .receive service =>
      let state := system.services service
      match state.loop, state.queue, state.task with
      | .waiting, job :: queue, none => some (system.process service .waiting queue job)
      | _, _, _ => none
  | .channel service queue =>
      let state := system.services service
      some (system.setService service { state with queue })
  | .task service answer => do
      let task ← (system.services service).task
      let result ← task.phase.step task.drive system.db answer
      some (system.moved service task result)
  | .crash service => some (system.setService service .down)
  | .open session job =>
      match system.edits session with
      | none => some (system.setEdit session (some (.checking job)))
      | some _ => none
  | .edit session answer => do
      let state ← system.edits session
      let (next, db, observed) ← state.step system.db answer
      some { system.setEdit session next with db, log := system.log ++ observed }
  | .quit session => some (system.setEdit session none)

/-- Nothing has run yet. -/
structure Initial (system : System) : Prop where
  db : system.db.Initial
  services : ∀ service, system.services service = .down
  edits : ∀ session, system.edits session = none
  drives : system.drives = 0
  log : system.log = []

end System

end Zyndeck
