import Mathlib.Data.List.Induction
import Mathlib.Order.OrderIsoNat

namespace Zyndeck.Data

/-! Finite runs of a labelled step relation, and the induction rules for what
holds along them. -/

inductive Run (step : σ → ε → σ → Prop) (start : σ) : List ε → σ → Prop
  | nil : Run step start [] start
  | snoc : Run step start events state → step state event next →
      Run step start (events ++ [event]) next

def Reachable (initial : σ → Prop) (step : σ → ε → σ → Prop) (state : σ) : Prop :=
  ∃ start events, initial start ∧ Run step start events state

namespace Run

theorem single {step : σ → ε → σ → Prop} (taken : step start event next) :
    Run step start [event] next :=
  .snoc .nil taken

theorem append {step : σ → ε → σ → Prop}
    (first : Run step start events middle) (second : Run step middle later state) :
    Run step start (events ++ later) state := by
  induction second with
  | nil => simpa using first
  | snoc _ taken induction =>
      rw [← List.append_assoc]
      exact .snoc induction taken

theorem cons {step : σ → ε → σ → Prop}
    (taken : step start event middle) (rest : Run step middle events state) :
    Run step start (event :: events) state :=
  (single taken).append rest

theorem unsnoc {step : σ → ε → σ → Prop} (run : Run step start (events ++ [event]) state) :
    ∃ middle, Run step start events middle ∧ step middle event state := by
  generalize whole : events ++ [event] = all at run
  cases run with
  | nil => simp at whole
  | snoc earlier taken =>
      obtain ⟨rfl, same⟩ := List.append_inj' whole rfl
      obtain rfl := List.singleton_inj.mp same
      exact ⟨_, earlier, taken⟩

theorem eq_of_nil {step : σ → ε → σ → Prop} (run : Run step start [] state) : state = start := by
  generalize whole : [] = events at run
  cases run with
  | nil => rfl
  | snoc => simp at whole

theorem split {step : σ → ε → σ → Prop} (run : Run step start (first ++ second) state) :
    ∃ middle, Run step start first middle ∧ Run step middle second state := by
  induction second using List.reverseRecOn generalizing state with
  | nil => exact ⟨state, by simpa using run, .nil⟩
  | append_singleton second event induction =>
      rw [← List.append_assoc] at run
      obtain ⟨_, earlier, taken⟩ := run.unsnoc
      obtain ⟨middle, before, after⟩ := induction earlier
      exact ⟨middle, before, after.snoc taken⟩

theorem leave_out {step : σ → ε → σ → Prop}
    (idle : ∀ event ∈ left, ∀ state next, step state event next → next = state)
    (run : Run step start events state) (perm : events.Perm (kept ++ left)) :
    ∃ order, order.Perm kept ∧ Run step start order state := by
  induction left generalizing events with
  | nil => exact ⟨events, by simpa using perm, run⟩
  | cons event left induction =>
      have member : event ∈ events := perm.symm.subset (by simp)
      obtain ⟨before, after, rfl⟩ := List.append_of_mem member
      obtain ⟨middle, first, rest⟩ := run.split
      obtain ⟨next, only, second⟩ := split (show Run step middle ([event] ++ after) state from rest)
      obtain ⟨_, none, taken⟩ := unsnoc (show Run step middle ([] ++ [event]) next from only)
      obtain rfl := none.eq_of_nil
      obtain rfl := idle event (by simp) _ _ taken
      refine induction (fun other member => idle other (by simp [member])) (first.append second) ?_
      exact (List.perm_middle.symm.trans (perm.trans List.perm_middle)).cons_inv

theorem mono {step wider : σ → ε → σ → Prop}
    (widen : ∀ state event next, step state event next → wider state event next)
    (run : Run step start events state) : Run wider start events state := by
  induction run with
  | nil => exact .nil
  | snoc _ taken induction => exact .snoc induction (widen _ _ _ taken)

theorem invariant {step : σ → ε → σ → Prop} {invariant : σ → Prop}
    (preserved : ∀ state event next,
      invariant state → step state event next → invariant next)
    (run : Run step start events state) (initially : invariant start) :
    invariant state := by
  induction run with
  | nil => exact initially
  | snoc _ taken induction => exact preserved _ _ _ induction taken

end Run

namespace Reachable

theorem step {initial : σ → Prop} {step : σ → ε → σ → Prop}
    (reachable : Reachable initial step state) (taken : step state event next) :
    Reachable initial step next := by
  obtain ⟨start, events, initially, run⟩ := reachable
  exact ⟨start, events ++ [event], initially, run.snoc taken⟩

theorem invariant {initial : σ → Prop} {step : σ → ε → σ → Prop}
    {invariant : σ → Prop}
    (initially : ∀ state, initial state → invariant state)
    (preserved : ∀ state event next,
      invariant state → step state event next → invariant next)
    (reachable : Reachable initial step state) : invariant state := by
  obtain ⟨start, events, isInitial, run⟩ := reachable
  exact run.invariant preserved (initially start isInitial)

theorem invariant_over {initial : σ → Prop} {step : σ → ε → σ → Prop}
    {base invariant : σ → Prop}
    (based : ∀ state, Reachable initial step state → base state)
    (initially : ∀ state, initial state → invariant state)
    (preserved : ∀ state event next, base state → base next →
      invariant state → step state event next → invariant next)
    (reachable : Reachable initial step state) : invariant state := by
  obtain ⟨first, events, isInitial, run⟩ := reachable
  induction run with
  | nil => exact initially _ isInitial
  | snoc before taken induction =>
      have reached : Reachable initial step _ := ⟨first, _, isInitial, before⟩
      exact preserved _ _ _ (based _ reached) (based _ (reached.step taken)) induction taken

theorem transfer {initial : σ → Prop} {step other : σ → ε → σ → Prop} {base : σ → Prop}
    (based : ∀ state, Reachable initial step state → base state)
    (transfers : ∀ state event next, base state → step state event next → other state event next)
    (reachable : Reachable initial step state) : Reachable initial other state := by
  obtain ⟨first, events, isInitial, run⟩ := reachable
  refine ⟨first, events, isInitial, ?_⟩
  induction run with
  | nil => exact .nil
  | snoc before taken induction =>
      exact .snoc induction (transfers _ _ _ (based _ ⟨first, _, isInitial, before⟩) taken)

theorem mono {initial : σ → Prop} {step wider : σ → ε → σ → Prop}
    (widen : ∀ state event next, step state event next → wider state event next)
    (reachable : Reachable initial step state) : Reachable initial wider state := by
  obtain ⟨start, events, initially, run⟩ := reachable
  exact ⟨start, events, initially, run.mono widen⟩

end Reachable

/-! Systems given by a partial step function. -/

def Steps (step? : σ → ε → Option σ) (state : σ) (event : ε) (next : σ) : Prop :=
  step? state event = some next

/-- Take the events in turn, stopping at the first one that is not enabled. -/
def execute (step? : σ → ε → Option σ) (start : σ) : List ε → Option σ
  | [] => some start
  | event :: events => (step? start event).bind fun next => execute step? next events

theorem run_of_execute {step? : σ → ε → Option σ} {events : List ε} {start state : σ}
    (executed : execute step? start events = some state) :
    Run (Steps step?) start events state := by
  induction events generalizing start with
  | nil =>
      obtain rfl := Option.some.inj executed
      exact .nil
  | cons event events induction =>
      obtain ⟨next, taken, rest⟩ := Option.bind_eq_some_iff.mp executed
      exact .cons taken (induction rest)

theorem execute_append {step? : σ → ε → Option σ} (start : σ) (events later : List ε) :
    execute step? start (events ++ later) =
      (execute step? start events).bind fun state => execute step? state later := by
  induction events generalizing start with
  | nil => rfl
  | cons event events induction =>
      simp only [List.cons_append, execute, Option.bind_assoc, induction]

theorem execute_of_run {step? : σ → ε → Option σ} {events : List ε} {start state : σ}
    (run : Run (Steps step?) start events state) : execute step? start events = some state := by
  induction run with
  | nil => rfl
  | snoc _ taken induction =>
      rw [execute_append, induction]
      simpa [execute, Steps] using taken

def lastState (step? : σ → ε → Option σ) (start : σ) (events : List ε) : σ :=
  (execute step? start events).getD start

theorem run_lastState {step? : σ → ε → Option σ} {events : List ε} {start : σ}
    (enabled : (execute step? start events).isSome = true) :
    Run (Steps step?) start events (lastState step? start events) := by
  have ⟨state, executed⟩ := Option.isSome_iff_exists.mp enabled
  unfold lastState
  rw [executed]
  exact run_of_execute executed

theorem taken_lastState {step? : σ → ε → Option σ} {event : ε} {start : σ}
    (enabled : (step? start event).isSome = true) :
    step? start event = some (lastState step? start [event]) := by
  obtain ⟨next, taken⟩ := Option.isSome_iff_exists.mp enabled
  simp [lastState, execute, taken]

def permit? (allowed : σ → ε → Prop) [∀ state event, Decidable (allowed state event)]
    (step? : σ → ε → Option σ) (state : σ) (event : ε) : Option σ :=
  if allowed state event then step? state event else none

theorem Run.of_permitted {allowed : σ → ε → Prop}
    [∀ state event, Decidable (allowed state event)] {step? : σ → ε → Option σ}
    {events : List ε} {start state : σ}
    (run : Run (Steps (permit? allowed step?)) start events state) :
    Run (fun state event next => allowed state event ∧ step? state event = some next)
      start events state := by
  refine run.mono fun state event next taken => ?_
  unfold Steps permit? at taken
  split at taken
  · exact ⟨‹_›, taken⟩
  · contradiction

/-! Endless runs in which a party that can go on is not put off forever. -/

/-- A party that can move from some moment on moves again. -/
def WeaklyFair (enabled : σ → Prop) (own : ε → Prop) (states : Nat → σ) (events : Nat → ε) :
    Prop :=
  ∀ moment, (∀ later ≥ moment, enabled (states later)) → ∃ later ≥ moment, own (events later)

section

variable [PartialOrder ω] [WellFoundedLT ω] {enabled : σ → Prop} {own : ε → Prop}
  {states : Nat → σ} {events : Nat → ε} (load : σ → ω)

/-- The party comes to a stop when each of its moves lowers what it has left to do, and
nobody else raises it. -/
theorem WeaklyFair.stops (fair : WeaklyFair enabled own states events)
    (kept : ∀ moment, ¬ own (events moment) →
      load (states (moment + 1)) ≤ load (states moment))
    (falls : ∀ moment, own (events moment) →
      load (states (moment + 1)) < load (states moment)) :
    ∃ moment, ¬ enabled (states moment) := by
  refine Classical.byContradiction fun endless => ?_
  simp only [not_exists, not_not] at endless
  have descends : ∀ moment, load (states (moment + 1)) ≤ load (states moment) := by
    intro moment
    by_cases moves : own (events moment)
    · exact le_of_lt (falls moment moves)
    · exact kept moment moves
  let left : Nat →o ωᵒᵈ :=
    ⟨fun moment => OrderDual.toDual (load (states moment)), monotone_nat_of_le_succ descends⟩
  obtain ⟨bound, constant⟩ := WellFoundedGT.monotone_chain_condition left
  obtain ⟨later, late, moves⟩ := fair bound fun later _ => endless later
  have same : left later = left (later + 1) :=
    (constant later late).symm.trans (constant (later + 1) (Nat.le_succ_of_le late))
  exact absurd (congrArg OrderDual.ofDual same).symm (falls later moves).ne

/-- And stays there if nobody makes it move again. -/
theorem WeaklyFair.rests (fair : WeaklyFair enabled own states events)
    (kept : ∀ moment, ¬ own (events moment) →
      load (states (moment + 1)) ≤ load (states moment))
    (falls : ∀ moment, own (events moment) →
      load (states (moment + 1)) < load (states moment))
    (stays : ∀ moment, ¬ enabled (states moment) → ¬ enabled (states (moment + 1))) :
    ∃ bound, ∀ moment ≥ bound, ¬ enabled (states moment) := by
  obtain ⟨bound, stopped⟩ := fair.stops load kept falls
  refine ⟨bound, fun moment late => ?_⟩
  induction moment, late using Nat.le_induction with
  | base => exact stopped
  | succ moment _ induction => exact stays moment induction

end

/-! Machines that go from state to state until they return. -/

/-- What the machine has returned after so many steps. -/
def returned (step : σ → Option (σ ⊕ ρ)) : Nat → σ → Option ρ
  | 0, _ => none
  | steps + 1, state => (step state).bind (Sum.elim (returned step steps) some)

def Ends (step : σ → Option (σ ⊕ ρ)) (state : σ) (post : ρ → Prop) : Prop :=
  ∃ value bound, post value ∧ ∀ steps ≥ bound, returned step steps state = some value

namespace Ends

variable {step : σ → Option (σ ⊕ ρ)} {state next : σ} {value : ρ} {post : ρ → Prop}

theorem stop (taken : step state = some (.inr value)) (holds : post value) :
    Ends step state post := by
  refine ⟨value, 1, holds, fun steps enough => ?_⟩
  obtain ⟨rest, rfl⟩ := Nat.exists_eq_add_of_le' enough
  rw [returned, taken]
  rfl

theorem goOn (taken : step state = some (.inl next)) (rest : Ends step next post) :
    Ends step state post := by
  obtain ⟨value, bound, holds, ends⟩ := rest
  refine ⟨value, bound + 1, holds, fun steps enough => ?_⟩
  obtain ⟨steps, rfl⟩ := Nat.exists_eq_add_of_le' (Nat.le_trans (Nat.le_add_left 1 bound) enough)
  rw [returned, taken]
  exact ends steps (Nat.le_of_add_le_add_right enough)

end Ends

end Zyndeck.Data
