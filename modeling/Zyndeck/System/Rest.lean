import Zyndeck.System.Bound
import Zyndeck.System.Wakeup

namespace Zyndeck

open Data

/-! A service that is left alone comes to rest, with no run left pending. -/

section

variable [Isolang]

/-- The event is a move of the service: its sweep query, the next job of its sweep or its
queue, or a request of its task. -/
def Event.IsMoveOf (service : Nat) : Event → Prop
  | .sweep other | .next other | .receive other | .task other _ => other = service
  | _ => False

/-- The event leaves the service alone: it is no call of an operator, whose notifications
reach everyone, and no boot, crash or change of the channel of the service. -/
def Event.Spares (service : Nat) : Event → Prop
  | .call .. => False
  | .boot other | .crash other | .channel other _ => other ≠ service
  | _ => True

def Loop.left : Loop → Nat
  | .sweeping jobs => jobs.length + 1
  | _ => 0

/-- What a service has before it: its sweep query, the jobs that it was told of or still
sweeps, and the requests of its task. -/
def Service.load (service : Service) : ℕ ×ₗ ℕ ×ₗ ℕ ×ₗ ℕ :=
  toLex (if service.loop = .listening then 1 else 0,
    toLex (service.queue.length + service.loop.left,
      (service.task.map (·.phase.rank)).getD (toLex (0, 0))))

namespace System

def CanMove (system : System) (service : Nat) : Prop :=
  ∃ event, event.IsMoveOf service ∧ (system.step? event).isSome

theorem waits_of_not_canMove {system : System} {service : Nat}
    (live : (system.services service).loop ≠ .down) (still : ¬ system.CanMove service) :
    (system.services service).Waits := by
  have stuck : ∀ event : Event, event.IsMoveOf service → system.step? event = none := by
    intro event isMove
    refine Option.not_isSome_iff_eq_none.mp fun moves => still ⟨event, isMove, moves⟩
  have idle : (system.services service).task = none := by
    cases working : (system.services service).task with
    | none => rfl
    | some task =>
        obtain ⟨answer, moves⟩ : ∃ answer, (system.step? (.task service answer)).isSome :=
          System.step?_isSome working
        rw [stuck (.task service answer) rfl] at moves
        contradiction
  cases loop : (system.services service).loop with
  | down => exact absurd loop live
  | listening => simpa [System.step?, loop] using stuck (.sweep service) rfl
  | sweeping jobs =>
      have none := stuck (.next service) rfl
      cases jobs <;> simp [System.step?, loop, idle] at none
  | waiting =>
      refine ⟨loop, ?_, idle⟩
      have none := stuck (.receive service) rfl
      cases queue : (system.services service).queue with
      | nil => rfl
      | cons => simp [System.step?, loop, idle, queue] at none

theorem not_canMove_of_waits {system : System} {service : Nat}
    (waits : (system.services service).Waits) : ¬ system.CanMove service := by
  rintro ⟨event, isMove, moves⟩
  cases event with
  | sweep other | next other | receive other =>
      obtain rfl : other = service := isMove
      simp [System.step?, waits.loop, waits.queue, waits.task] at moves
  | task other =>
      obtain rfl : other = service := isMove
      simp [System.step?, waits.task] at moves
  | call | boot | channel | crash | «open» | edit | quit => exact isMove

theorem services_of_spares {system next : System} {event : Event} {service : Nat}
    (spares : event.Spares service) (notOwn : ¬ event.IsMoveOf service)
    (taken : system.step? event = some next) :
    next.services service = system.services service := by
  cases System.step?_cases taken with
  | called => exact absurd spares id
  | moved => exact Function.update_of_ne (fun same => notOwn same.symm) ..
  | processed _ event_eq =>
      refine Function.update_of_ne (fun same => notOwn ?_) ..
      rcases event_eq with rfl | rfl <;> exact same.symm
  | switched _ event_eq =>
      refine Function.update_of_ne ?_ ..
      rintro rfl
      rcases event_eq with rfl | rfl | rfl | ⟨_, rfl⟩
      · exact spares rfl
      · exact notOwn rfl
      · exact notOwn rfl
      · exact spares rfl
  | crashed => exact Function.update_of_ne (fun same => spares same.symm) ..
  | seated | edited => rfl

theorem load_lt_of_move {system next : System} {event : Event} {service : Nat}
    (sane : system.Sane) (isMove : event.IsMoveOf service)
    (taken : system.step? event = some next) :
    (next.services service).load < (system.services service).load := by
  cases event with
  | call | boot | channel | crash | «open» | edit | quit => exact absurd isMove id
  | sweep other =>
      obtain rfl : other = service := isMove
      simp only [System.step?] at taken
      split at taken
      · rename_i loop
        obtain rfl := Option.some.inj taken
        simp [Service.load, setService, loop, Prod.Lex.toLex_lt_toLex]
      · contradiction
  | next other =>
      obtain rfl : other = service := isMove
      simp only [System.step?] at taken
      split at taken
      · rename_i loop idle
        obtain rfl := Option.some.inj taken
        simp [Service.load, setService, loop, Loop.left, Prod.Lex.toLex_lt_toLex]
      · rename_i job jobs loop idle
        obtain rfl := Option.some.inj taken
        simp [Service.load, process, setService, loop, Loop.left, Prod.Lex.toLex_lt_toLex]
      · contradiction
  | receive other =>
      obtain rfl : other = service := isMove
      simp only [System.step?] at taken
      split at taken
      · rename_i job queue loop announced idle
        obtain rfl := Option.some.inj taken
        simp [Service.load, process, setService, loop, announced, Loop.left,
          Prod.Lex.toLex_lt_toLex]
      · contradiction
  | task other answer =>
      obtain rfl : other = service := isMove
      obtain ⟨task, working, rest⟩ := Option.bind_eq_some_iff.mp taken
      obtain ⟨result, stepped, ended⟩ := Option.bind_eq_some_iff.mp rest
      obtain rfl := Option.some.inj ended
      have falls : ((result.phase.map (Task.mk task.drive ·)).map fun task =>
          task.phase.rank).getD (toLex (0, 0)) < task.phase.rank := by
        cases goesOn : result.phase with
        | none => exact Prod.Lex.lt_iff.mpr (.inl task.phase.rank_fst.1)
        | some phase => exact (Phase.step_cases stepped).rank_lt sane working goesOn
      simp only [Service.load, moved, setService, Function.update_self, working]
      refine Prod.Lex.toLex_lt_toLex.mpr (.inr ⟨rfl, ?_⟩)
      exact Prod.Lex.toLex_lt_toLex.mpr (.inr ⟨rfl, falls⟩)

theorem live_of_move {system next : System} {event : Event} {service : Nat}
    (isMove : event.IsMoveOf service) (taken : system.step? event = some next)
    (live : (system.services service).loop ≠ .down) :
    (next.services service).loop ≠ .down := by
  cases event with
  | call | boot | channel | crash | «open» | edit | quit => exact absurd isMove id
  | sweep other | next other | receive other =>
      obtain rfl : other = service := isMove
      simp only [System.step?] at taken
      split at taken <;> cases taken <;> simp [process, setService]
  | task other answer =>
      obtain rfl : other = service := isMove
      obtain ⟨task, working, rest⟩ := Option.bind_eq_some_iff.mp taken
      obtain ⟨result, stepped, ended⟩ := Option.bind_eq_some_iff.mp rest
      obtain rfl := Option.some.inj ended
      simpa [moved, setService] using live

/-- While nobody calls, every service that comes to what is pending, stays up, has no claim fail
and is not put off forever ends up waiting, with no run pending. -/
theorem comes_to_rest {states : Nat → System} {events : Nat → Event}
    (reachable : (states 0).Reaches) (endless : Endless states events) {service : Nat}
    (live : ((states 0).services service).loop ≠ .down)
    (awaits : ∀ run ∈ (states 0).db.runs, run.status = .pending →
      ((states 0).services service).Awaits run.jobId)
    (spared : ∀ moment, (events moment).Spares service)
    (claims : ∀ moment message, events moment = .task service (.failed message) →
      ∀ job, ¬ ((states moment).services service).IsClaiming job)
    (fair : WeaklyFair (CanMove · service) (Event.IsMoveOf service) states events) :
    ∃ bound, ∀ moment ≥ bound, ((states moment).services service).Waits ∧
      ∀ run ∈ (states moment).db.runs, run.status ≠ .pending := by
  have reached : ∀ moment, (states moment).Reaches := by
    intro moment
    induction moment with
    | zero => exact reachable
    | succ moment induction => exact induction.step ⟨trivial, endless moment⟩
  have delivers : ∀ moment, (states moment).DeliversTo service (events moment) := by
    intro moment
    unfold DeliversTo
    split
    · rename_i other queue isChannel
      have spares := spared moment
      rw [isChannel] at spares
      exact fun own => absurd own spares
    · rename_i isTask
      rintro rfl
      exact claims moment _ isTask
    · trivial
  have attends : ∀ moment, (states moment).Attends service := by
    intro moment
    induction moment with
    | zero => exact fun _ => awaits
    | succ moment induction => exact induction.step (delivers moment) (endless moment)
  have same : ∀ moment, ¬ (events moment).IsMoveOf service →
      (states (moment + 1)).services service = (states moment).services service :=
    fun moment notOwn => services_of_spares (spared moment) notOwn (endless moment)
  have alive : ∀ moment, ((states moment).services service).loop ≠ .down := by
    intro moment
    induction moment with
    | zero => exact live
    | succ moment induction =>
        by_cases isMove : (events moment).IsMoveOf service
        · exact live_of_move isMove (endless moment) induction
        · rwa [same moment isMove]
  have stays : ∀ moment, ¬ (states moment).CanMove service →
      ¬ (states (moment + 1)).CanMove service := by
    intro moment still
    have waits := waits_of_not_canMove (alive moment) still
    have notOwn : ¬ (events moment).IsMoveOf service := fun isMove =>
      still ⟨_, isMove, by rw [endless moment]; rfl⟩
    exact not_canMove_of_waits ((same moment notOwn).symm ▸ waits)
  obtain ⟨bound, stopped⟩ := fair.rests (fun system => (system.services service).load)
    (fun moment notOwn => le_of_eq (by rw [same moment notOwn]))
    (fun moment isMove => load_lt_of_move (sane_of_reachable (reached moment)) isMove
      (endless moment)) stays
  refine ⟨bound, fun moment late => ?_⟩
  have waits := waits_of_not_canMove (alive moment) (stopped moment late)
  refine ⟨waits, fun run member pending => ?_⟩
  exact waits.not_awaits _ (attends moment (alive moment) run member pending)

end System

end

section

attribute [local instance] english

def extracting : List Event :=
  [.next 0, request 0 2, request 0 3, .task 0 (.extracted (.ok ['x'])), request 0 4, request 0 5,
    .next 0, .receive 0, request 0 6]

def restingEvents (moment : Nat) : Event := (extracting[moment]?).getD (.quit 0)

def restingStates : Nat → System
  | 0 => System.after (fun _ event => !event.isFault) deployment (toReview.take 3)
  | moment + 1 =>
      ((restingStates moment).step? (restingEvents moment)).getD (restingStates moment)

theorem restingEvents_late {moment : Nat} (late : 9 ≤ moment) : restingEvents moment = .quit 0 := by
  have past : extracting[moment]? = none := List.getElem?_eq_none late
  rw [restingEvents, past, Option.getD_none]

theorem restingEvents_cases (moment : Nat) :
    restingEvents moment ∈ extracting ∨ restingEvents moment = .quit 0 := by
  rw [restingEvents]
  cases found : extracting[moment]? with
  | none => exact .inr rfl
  | some event => exact .inl (List.mem_of_getElem? found)

theorem resting_endless : Endless restingStates restingEvents := by
  intro moment
  have moves : ((restingStates moment).step? (restingEvents moment)).isSome := by
    by_cases early : moment < 9
    · have all : ∀ moment < 9, ((restingStates moment).step? (restingEvents moment)).isSome := by
        decide +kernel
      exact all moment early
    · rw [restingEvents_late (Nat.le_of_not_lt early)]
      rfl
  obtain ⟨next, taken⟩ := Option.isSome_iff_exists.mp moves
  rw [restingStates, taken, Option.getD_some]

theorem resting_spared (moment : Nat) : (restingEvents moment).Spares 0 := by
  have all : ∀ event ∈ extracting, event.Spares 0 := by
    simp [extracting, Event.Spares, request]
  rcases restingEvents_cases moment with member | quits
  · exact all _ member
  · rw [quits]
    trivial

theorem resting_fair :
    WeaklyFair (System.CanMove · 0) (Event.IsMoveOf 0) restingStates restingEvents := by
  intro moment enabled
  by_cases early : moment < 9
  · exact ⟨8, Nat.le_of_lt_succ early, rfl⟩
  -- From the ninth moment on, the service waits.
  have waits : ∀ later ≥ 9, ((restingStates later).services 0).Waits := by
    intro later late
    induction later, late using Nat.le_induction with
    | base =>
        exact ⟨by decide +kernel, by decide +kernel,
          Option.isNone_iff_eq_none.mp (by decide +kernel)⟩
    | succ later late induction =>
        have notOwn : ¬ (restingEvents later).IsMoveOf 0 := by
          rw [restingEvents_late late]
          exact id
        rwa [System.services_of_spares (resting_spared later) notOwn (resting_endless later)]
  exact absurd (enabled moment (Nat.le_refl _))
    (System.not_canMove_of_waits (waits moment (Nat.le_of_not_lt early)))

theorem comes_to_rest_after_extract :
    ((restingStates 0).services 0).loop = .sweeping [firstJob] ∧
      ∃ bound, ∀ moment ≥ bound, ((restingStates moment).services 0).Waits ∧
        ∀ run ∈ (restingStates moment).db.runs, run.status ≠ .pending := by
  have sweeping : ((restingStates 0).services 0).loop = .sweeping [firstJob] := by decide +kernel
  refine ⟨sweeping, System.comes_to_rest ?_ resting_endless (by simp [sweeping]) ?_
    resting_spared (fun moment message failed => ?_) resting_fair⟩
  · exact System.reachable_after (fun _ _ _ => trivial) deployment_initial (by decide +kernel)
  · have ofJob : ∀ run ∈ (restingStates 0).db.runs, run.jobId ∈ [firstJob] := by decide +kernel
    intro run member _
    refine .inr (.inr (.inl ?_))
    rw [sweeping]
    exact ofJob run member
  · have none : ∀ event ∈ extracting, event ≠ .task 0 (.failed message) := by
      simp [extracting, request]
    rcases restingEvents_cases moment with member | quits
    · exact absurd failed (none _ member)
    · simp [quits] at failed

end

end Zyndeck
