import Zyndeck.Data.Waiting
import Zyndeck.Db.Contention

namespace Zyndeck

open Data

section

variable [Isolang]

/-! Transitions that wait for one another: for the lock of a job, or for an insert to be
committed or rolled back. -/

def Write.isInsert : Write → Bool
  | .insertRun _ => true
  | _ => false

/-- Whoever has inserted a run goes before whoever has locked a job only. -/
def precedence (session : Session Statement.Reply SqlError Error Write Uuid Call Output) : Nat :=
  if session.writes.any Write.isInsert then 2 else if session.keys = [] then 0 else 1

theorem precedence_of_insert
    {session : Session Statement.Reply SqlError Error Write Uuid Call Output} {run : StepRunRow}
    (inserted : .insertRun run ∈ session.writes) : precedence session = 2 :=
  if_pos (List.any_eq_true.mpr ⟨_, inserted, rfl⟩)

theorem precedence_lt_of_none
    {session : Session Statement.Reply SqlError Error Write Uuid Call Output}
    (none : session.writes.any Write.isInsert = false) : precedence session < 2 := by
  rw [precedence, if_neg (by simp [none])]
  split <;> decide

omit [Isolang] in
theorem Stage.Wrote.none_inserted {job : Uuid} {stage : Stage} {writes : List Write}
    (wrote : stage.Wrote job writes) (before : stage = .locked ∨ stage = .stepped) :
    writes.any Write.isInsert = false := by
  rcases before with rfl | rfl
  · rw [show writes = [] from wrote]
    rfl
  · obtain ⟨step, rfl⟩ := wrote
    rfl

theorem conflicts_insert {run : StepRunRow} {pending : Write}
    (conflicting : transitions.conflicts (.insertRun run) pending = true) :
    ∃ other, pending = .insertRun other := by
  cases pending with
  | insertRun other => exact ⟨other, rfl⟩
  | _ => contradiction

theorem Stands.ranked {db : Db} {call : Call} {statement : Statement} {onFault : SqlError → Error}
    {next : statement.Reply → Tx Output} {writes added : List Write} {keys : List Uuid}
    {reply : statement.Reply}
    {other : Session Statement.Reply SqlError Error Write Uuid Call Output}
    (stands : Stands db ⟨call, .query statement onFault next, writes, keys⟩)
    (replied : Statement.exec call.env statement (postgres.view db writes) = .ok (reply, added))
    (blocks : (∃ key ∈ transitions.locks statement reply, key ∈ other.keys) ∨
      ∃ write ∈ added, ∃ pending ∈ other.writes, transitions.conflicts write pending = true) :
    precedence ⟨call, .query statement onFault next, writes, keys⟩ < precedence other := by
  obtain ⟨job, body, stage, _, passed, follows, sameKeys⟩ := stands
  obtain rfl : keys = stage.keys job := sameKeys
  have wrote := passed.wrote
  cases follows with
  | lock =>
      obtain ⟨_, rfl⟩ := passed.opened_eq
      obtain ⟨_, rfl⟩ := Prod.mk.inj (Except.ok.inj replied)
      rcases blocks with ⟨key, _, held⟩ | ⟨_, none, _⟩
      · have busy : other.keys ≠ [] := List.ne_nil_of_mem held
        change 0 < precedence other
        rw [precedence, if_neg busy]
        split <;> decide
      · contradiction
  | findLatest =>
      obtain ⟨_, rfl⟩ := Prod.mk.inj (Except.ok.inj replied)
      rcases blocks with ⟨_, none, _⟩ | ⟨_, none, _⟩ <;> contradiction
  | updateStep =>
      obtain ⟨_, rfl⟩ := Prod.mk.inj (Except.ok.inj replied)
      rcases blocks with ⟨_, none, _⟩ | ⟨write, added, pending, _, conflicting⟩
      · contradiction
      · obtain rfl := List.mem_singleton.mp added
        contradiction
  | @begin step =>
      cases begun : Zyndeck.begin call.env job step (postgres.view db writes) with
      | error =>
          rw [Statement.exec, begun] at replied
          contradiction
      | ok run =>
          rw [Statement.exec, begun] at replied
          obtain ⟨_, rfl⟩ := Prod.mk.inj (Except.ok.inj replied)
          rcases blocks with ⟨_, none, _⟩ | ⟨write, added, pending, written, conflicting⟩
          · contradiction
          · obtain rfl := List.mem_singleton.mp added
            obtain ⟨run, rfl⟩ := conflicts_insert conflicting
            rw [precedence_of_insert written]
            exact precedence_lt_of_none (wrote.none_inserted (.inr rfl))
  | @enqueue stage step _ _ locked =>
      cases enqueued : Zyndeck.enqueue call.env job step (postgres.view db writes) with
      | error =>
          rw [Statement.exec, enqueued] at replied
          contradiction
      | ok run =>
          rw [Statement.exec, enqueued] at replied
          obtain ⟨_, rfl⟩ := Prod.mk.inj (Except.ok.inj replied)
          rcases blocks with ⟨_, none, _⟩ | ⟨write, added, pending, written, conflicting⟩
          · contradiction
          · obtain rfl := List.mem_singleton.mp added
            obtain ⟨run, rfl⟩ := conflicts_insert conflicting
            rw [precedence_of_insert written]
            exact precedence_lt_of_none (wrote.none_inserted locked)
  | notify =>
      obtain ⟨_, rfl⟩ := Prod.mk.inj (Except.ok.inj replied)
      rcases blocks with ⟨_, none, _⟩ | ⟨write, added, pending, _, conflicting⟩
      · contradiction
      · obtain rfl := List.mem_singleton.mp added
        contradiction

theorem Interleaved.linearized {start : Db}
    {config : Config Statement.Reply SqlError Error Db Write Uuid Call Output}
    (interleaved : Interleaved start config) (unstarted : start.Unstarted) :
    Service.Linearized serial start config := by
  induction interleaved with
  | refl => exact ⟨unstarted, .nil, by simp, by simp, [], by simp [Service.finished], .nil⟩
  | tail _ step induction => exact step.linearized induction

theorem Interleaved.ranked {start : Db}
    {config : Config Statement.Reply SqlError Error Db Write Uuid Call Output}
    (interleaved : Interleaved start config) (unstarted : start.Unstarted) :
    transitions.Ranked precedence config := by
  have holds := interleaved.linearized unstarted
  intro call statement onFault next writes keys reply added member replied other _ blocks
  have stands : Stands config.store ⟨call, .query statement onFault next, writes, keys⟩ :=
    holds.stands _ member rfl
  exact stands.ranked replied blocks

/-- Transitions in flight never wait for one another in a circle, no schedule of theirs goes on
for ever, and all of them can come to an end, each with a result. -/
theorem transitions_end {allowed : Db → Call → Prop} {start : Db}
    {config : Config Statement.Reply SqlError Error Db Write Uuid Call Output}
    (reachable : Reachable Db.Initial (Calls allowed) start)
    (interleaved : Interleaved start config) :
    (config.sessions ≠ [] → ∃ next, transitions.Advances config next) ∧
      (∀ schedule : Nat → Config Statement.Reply SqlError Error Db Write Uuid Call Output,
        schedule 0 = config →
          ¬ ∀ place, transitions.Advances (schedule place) (schedule (place + 1))) ∧
      ∃ finished, Relation.ReflTransGen transitions.Advances config finished ∧
        finished.sessions = [] ∧ (finished.ended.map Prod.fst).Perm
          (config.ended.map Prod.fst ++ config.sessions.map (·.call)) := by
  have unstarted := unstarted_of_reachable reachable
  refine ⟨(interleaved.ranked unstarted).advances, fun schedule _ goesOn => ?_, ?_⟩
  · have founded : IsWellFounded _ fun next config => transitions.Advances config next :=
      ⟨Service.wellFounded_advances⟩
    obtain ⟨place, stops⟩ := WellFounded.not_rel_apply_succ
      (r := fun next config => transitions.Advances config next) schedule
    exact stops (goesOn place)
  · have kept : ∀ config next, Interleaved start config → transitions.Advances config next →
        Interleaved start next := fun config next interleaved ⟨_, taken⟩ =>
      .tail interleaved (Service.interleaves_of_move taken)
    obtain ⟨finished, advances, none, answered⟩ :=
      Service.ends kept (fun config interleaved => interleaved.ranked unstarted) config interleaved
    exact ⟨finished, advances, none, answered.symm⟩

end

section

attribute [local instance] english

def halfway : Config Statement.Reply SqlError Error Db Write Uuid Call Output :=
  (execute transitions.move? ⟨extracted, [], []⟩ (race.take 4)).getD ⟨extracted, [], []⟩

theorem transitions_end_on_race :
    halfway.sessions.length = 2 ∧
    (halfway.sessions ≠ [] → ∃ next, transitions.Advances halfway next) ∧
      (∀ schedule : Nat → Config Statement.Reply SqlError Error Db Write Uuid Call Output,
        schedule 0 = halfway →
          ¬ ∀ place, transitions.Advances (schedule place) (schedule (place + 1))) ∧
      ∃ finished, Relation.ReflTransGen transitions.Advances halfway finished ∧
        finished.sessions = [] ∧ (finished.ended.map Prod.fst).Perm
          (halfway.ended.map Prod.fst ++ halfway.sessions.map (·.call)) := by
  have reachable : Reachable Db.Initial (Calls Unclocked) extracted :=
    reachable_after catalog_initial (by decide)
  have enabled : (execute transitions.move? ⟨extracted, [], []⟩ (race.take 4)).isSome = true := by
    decide +kernel
  obtain ⟨config, executed⟩ := Option.isSome_iff_exists.mp enabled
  have same : halfway = config := by rw [halfway, executed, Option.getD_some]
  have interleaved : Interleaved extracted halfway := same ▸ Service.interleaves_of_execute executed
  exact ⟨by decide +kernel, transitions_end reachable interleaved⟩

end

end Zyndeck
