import Zyndeck.Api.Outcome
import Zyndeck.System.Session

namespace Zyndeck

open Data

section

variable [Isolang]

/-! What a client is told, and what was done. -/

namespace World

/-- The request is given up: a reply is lost, or the connection is closed. -/
def Drops (number : Nat) : Occurrence → Prop
  | .lose other _ | .close other => other = number
  | _ => False

/-- A step that changes nothing for the request: other parties may. -/
def Idles (allowed : World → Occurrence → Prop) (number : Nat) (world : World)
    (occurrence : Occurrence) (next : World) : Prop :=
  Occurs allowed world occurrence next ∧
    ((∃ draw, occurrence = .call number draw) → next.db = world.db)

/-- The request was answered with what one of its calls did, and the others did nothing. -/
inductive Told (allowed : World → Occurrence → Prop) (number : Nat) (state : Api.AppState)
    (request : Api.HttpRequest) (answer : Api.Answer) (accepted : World) :
    List Occurrence → World → Prop
  | intro (before : Run (Idles allowed number) accepted first asking)
      (answered : Occurs allowed asking (.call number draw) told)
      (tells : request.Tells state answer told.db)
      (since : Run (Idles allowed number) told later world) :
      Told allowed number state request answer accepted (first ++ .call number draw :: later) world

inductive Course (allowed : World → Occurrence → Prop) (number : Nat) (state : Api.AppState)
    (request : Api.HttpRequest) (accepted : World) (occurrences : List Occurrence) (world : World) :
    Api.Endpoint Api.Answer → Prop
  | pending (commits : Api.Endpoint.Commits state request endpoint)
      (idles : Run (Idles allowed number) accepted occurrences world) :
      Course allowed number state request accepted occurrences world endpoint
  | told (told : Told allowed number state request answer accepted occurrences world) :
      Course allowed number state request accepted occurrences world (.done (.ok answer))

variable {allowed : World → Occurrence → Prop} {number : Nat} {state : Api.AppState}
  {request : Api.HttpRequest} {accepted world next : World} {occurrence : Occurrence}
  {occurrences : List Occurrence} {endpoint : Api.Endpoint Api.Answer}

theorem setRequest_of_ne {other : Nat} (apart : number ≠ other)
    (state : Option (Api.Endpoint Api.Answer)) :
    (world.setRequest other state).requests number = world.requests number :=
  Function.update_of_ne apart ..

theorem requests_kept (taken : world.step? occurrence = some next)
    (known : world.requests number = some endpoint)
    (others : ∀ draw, occurrence ≠ .call number draw)
    (unfailed : ∀ fault, occurrence ≠ .fail number fault) (kept : ¬ Drops number occurrence) :
    next.requests number = some endpoint := by
  cases occurrence with
  | system event =>
      obtain ⟨_, _, rfl⟩ := Option.map_eq_some_iff.mp taken
      exact known
  | startup draw admin =>
      obtain rfl := Option.some.inj taken
      exact known
  | request other state request =>
      simp only [step?] at taken
      split at taken
      · rename_i unknown
        obtain rfl := Option.some.inj taken
        have apart : number ≠ other := by
          rintro rfl
          simp [known] at unknown
        exact (setRequest_of_ne apart _).trans known
      · contradiction
  | call other draw =>
      obtain ⟨_, _, _, _, rfl⟩ := call_cases taken
      have apart : number ≠ other := by
        rintro rfl
        exact others draw rfl
      exact (setRequest_of_ne apart _).trans known
  | lose other draw =>
      simp only [step?] at taken
      split at taken
      · obtain rfl := Option.some.inj taken
        have apart : number ≠ other := Ne.symm kept
        exact (setRequest_of_ne apart _).trans known
      · contradiction
  | fail other fault =>
      simp only [step?] at taken
      split at taken
      · obtain rfl := Option.some.inj taken
        have apart : number ≠ other := by
          rintro rfl
          exact unfailed fault rfl
        exact (setRequest_of_ne apart _).trans known
      · contradiction
  | close other =>
      obtain rfl := Option.some.inj taken
      have apart : number ≠ other := Ne.symm kept
      exact (setRequest_of_ne apart _).trans known

theorem Course.later
    (course : Course allowed number state request accepted occurrences world endpoint)
    (idles : Idles allowed number world occurrence next) :
    Course allowed number state request accepted (occurrences ++ [occurrence]) next endpoint := by
  cases course with
  | pending commits before => exact .pending commits (before.snoc idles)
  | told told =>
      cases told with
      | intro before answered tells since =>
          rw [List.append_assoc]
          exact .told (.intro before answered tells (since.snoc idles))

theorem Course.settle {call : RepositoryCall} {onFault : Error → Api.Refusal}
    {rest : call.Reply → Api.Endpoint Api.Answer} {draw : RepositoryDraw}
    (course : Course allowed number state request accepted occurrences world
      (.query call onFault rest)) (constraints : world.db.Constraints)
    (taken : Occurs allowed world (.call number draw) next)
    (isNext : next.db = (call.exec draw world.db).2) :
    Course allowed number state request accepted (occurrences ++ [.call number draw]) next
      (World.settle onFault rest (call.exec draw world.db).1) := by
  cases course with
  | pending commits before =>
      have commits := commits draw world.db constraints
      generalize call.exec draw world.db = ended at commits isNext ⊢
      rcases ended with ⟨fault | reply, after⟩
      · exact .pending .refused (before.snoc ⟨taken, fun _ => isNext.trans commits⟩)
      · rcases commits with ⟨answer, ends, tells⟩ | ⟨same, commits⟩
        · rw [World.settle, ends]
          exact .told (.intro before taken (isNext ▸ tells) .nil)
        · exact .pending commits (before.snoc ⟨taken, fun _ => isNext.trans same⟩)

theorem Course.failed {call : RepositoryCall} {onFault : Error → Api.Refusal}
    {rest : call.Reply → Api.Endpoint Api.Answer} {refusal : Api.Refusal}
    (course : Course allowed number state request accepted occurrences world
      (.query call onFault rest)) (idles : Idles allowed number world occurrence next) :
    Course allowed number state request accepted (occurrences ++ [occurrence]) next
      (.done (.error refusal)) := by
  cases course with
  | pending commits before => exact .pending .refused (before.snoc idles)

theorem fail_cases {fault : SqlError} (taken : world.step? (.fail number fault) = some next) :
    ∃ call onFault rest, world.requests number = some (.query call onFault rest) ∧
      next = world.setRequest number (some (.done (.error (onFault (.query fault))))) := by
  simp only [step?] at taken
  split at taken
  · exact ⟨_, _, _, ‹_›, (Option.some.inj taken).symm⟩
  · contradiction

theorem course_of_run (constraints : accepted.db.Constraints)
    (arrived : accepted.requests number = some (Api.Endpoint.handle state request))
    (run : Run (Occurs allowed) accepted occurrences world)
    (kept : ∀ occurrence ∈ occurrences, ¬ Drops number occurrence) :
    world.db.Constraints ∧ ∃ endpoint, world.requests number = some endpoint ∧
      Course allowed number state request accepted occurrences world endpoint := by
  induction run with
  | nil =>
      exact ⟨constraints, _, arrived, .pending (Api.Endpoint.commits_handle state request) .nil⟩
  | @snoc events middle event after before taken induction =>
      have before := induction fun occurrence member =>
        kept occurrence (List.mem_append_left _ member)
      obtain ⟨constraints, endpoint, known, course⟩ := before
      refine ⟨(step?_written taken.2).constraints constraints, ?_⟩
      by_cases calls : ∃ draw, event = .call number draw
      · obtain ⟨draw, rfl⟩ := calls
        obtain ⟨call, onFault, rest, asks, isNext⟩ := call_cases taken.2
        obtain rfl := Option.some.inj (known.symm.trans asks)
        refine ⟨_, ?_, course.settle constraints taken (isNext ▸ rfl)⟩
        rw [isNext]
        simp [setRequest]
      · have others : ∀ draw, event ≠ .call number draw := fun draw same => calls ⟨draw, same⟩
        have drops := kept event (List.mem_append_right _ (List.mem_singleton.mpr rfl))
        have idles : Idles allowed number middle event after :=
          ⟨taken, fun isCall => absurd isCall calls⟩
        by_cases fails : ∃ fault, event = .fail number fault
        · obtain ⟨fault, rfl⟩ := fails
          obtain ⟨call, onFault, rest, asks, rfl⟩ := fail_cases taken.2
          obtain rfl := Option.some.inj (known.symm.trans asks)
          exact ⟨.done (.error (onFault (.query fault))), by simp [setRequest],
            course.failed idles⟩
        · have unfailed : ∀ fault, event ≠ .fail number fault := fun fault same =>
            fails ⟨fault, same⟩
          exact ⟨endpoint, requests_kept taken.2 known others unfailed drops, course.later idles⟩

/-- A request that nobody gave up was either answered with what one call of it did, and the
others did nothing, or is not answered yet or was refused, and did nothing. -/
theorem answers_what_was_done {arrival : World}
    (reachable : Reachable Initial (Occurs allowed) arrival)
    (arrives : Occurs allowed arrival (.request number state request) accepted)
    (run : Run (Occurs allowed) accepted occurrences world)
    (kept : ∀ occurrence ∈ occurrences, ¬ Drops number occurrence) :
    (∃ answer, world.requests number = some (.done (.ok answer)) ∧
      Told allowed number state request answer accepted occurrences world) ∨
    (∃ endpoint, world.requests number = some endpoint ∧
      (∀ answer, endpoint ≠ .done (.ok answer)) ∧
      Run (Idles allowed number) accepted occurrences world) := by
  have constraints := (step?_written arrives.2).constraints (intact_of_reachable reachable).1
  have arrived : accepted.requests number = some (Api.Endpoint.handle state request) := by
    have taken := arrives.2
    simp only [step?] at taken
    split at taken
    · obtain rfl := Option.some.inj taken
      simp [setRequest]
    · contradiction
  obtain ⟨_, endpoint, known, course⟩ := course_of_run constraints arrived run kept
  cases course with
  | told told => exact .inl ⟨_, known, told⟩
  | pending commits idles =>
      refine .inr ⟨endpoint, known, ?_, idles⟩
      rintro answer rfl
      exact commits answer rfl

end World

end

section

attribute [local instance] english

def deletion : Api.HttpRequest := ⟨some ("Bearer ".toList ++ ['0']), .deleteGame (.ok ⟨1⟩)⟩

def deletionSteps : List Occurrence :=
  [.call 0 rootDraw, .system (.task 0 (.executed ⟨2, ⟨3⟩, ⟨4⟩, fun _ => ⟨5⟩, fun _ => 0⟩ [])),
    .call 0 rootDraw]

theorem World.answers_what_was_done_at_deletion :
    let arrival := lastState World.step? deployed (toDeletion.take 4)
    let accepted := lastState World.step? arrival [.request 0 rootState deletion]
    let world := lastState World.step? accepted deletionSteps
    (∃ answer, world.requests 0 = some (.done (.ok answer)) ∧
      World.Told (fun _ _ => True) 0 rootState deletion answer accepted deletionSteps world) ∨
    (∃ endpoint, world.requests 0 = some endpoint ∧
      (∀ answer, endpoint ≠ .done (.ok answer)) ∧
      Run (World.Idles (fun _ _ => True) 0) accepted deletionSteps world) := by
  intro arrival accepted world
  have arrived : Run (World.Occurs fun _ _ => True) deployed (toDeletion.take 4) arrival :=
    (run_lastState (by decide +kernel)).mono fun _ _ _ taken => ⟨trivial, taken⟩
  have arrives : World.Occurs (fun _ _ => True) arrival (.request 0 rootState deletion) accepted :=
    ⟨trivial, taken_lastState (by decide +kernel)⟩
  have run : Run (World.Occurs fun _ _ => True) accepted deletionSteps world :=
    (run_lastState (by decide +kernel)).mono fun _ _ _ taken => ⟨trivial, taken⟩
  exact World.answers_what_was_done ⟨deployed, _, deployed_initial, arrived⟩ arrives run
    (by simp [deletionSteps, World.Drops])

end

end Zyndeck
