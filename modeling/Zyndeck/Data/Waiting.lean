import Mathlib.Data.List.MinMax
import Mathlib.Logic.Hydra
import Zyndeck.Data.Interleaving

namespace Zyndeck.Data

/-! Transactions that wait for one another, and why they come to an end. -/

variable {Statement : Type} {Reply : Statement → Type}
  {Fault Failure Env Store Write Key Call α : Type}

namespace Program

inductive Left : Program Reply Fault Failure α → Program Reply Fault Failure α → Prop
  | replied {statement : Statement} {onFault : Fault → Failure}
      {next : Reply statement → Program Reply Fault Failure α} (reply : Reply statement) :
      Left (next reply) (.query statement onFault next)
  | faulted {statement : Statement} {onFault : Fault → Failure}
      {next : Reply statement → Program Reply Fault Failure α} (fault : Fault) :
      Left (.done (.error (onFault fault))) (.query statement onFault next)

theorem wellFounded_left :
    WellFounded (Left : Program Reply Fault Failure α → Program Reply Fault Failure α → Prop) := by
  refine ⟨fun program => ?_⟩
  induction program with
  | done result => exact ⟨_, fun other left => by cases left⟩
  | query statement onFault next induction =>
      refine ⟨_, fun other left => ?_⟩
      cases left with
      | replied reply => exact induction reply
      | faulted fault => exact ⟨_, fun other left => by cases left⟩

end Program

namespace Service

variable [DecidableEq Key]
  {service : Service Statement Reply Fault Failure Env Store Write Key Call α}

def Advances (service : Service Statement Reply Fault Failure Env Store Write Key Call α)
    (config next : Config Reply Fault Failure Store Write Key Call α) : Prop :=
  ∃ place, service.move? config (.advanced place) = some next

/-- Who waits, waits for a transaction of a higher rank. -/
def Ranked (service : Service Statement Reply Fault Failure Env Store Write Key Call α)
    (rank : Session Reply Fault Failure Write Key Call α → Nat)
    (config : Config Reply Fault Failure Store Write Key Call α) : Prop :=
  ∀ call statement onFault next writes keys reply added,
    ⟨call, .query statement onFault next, writes, keys⟩ ∈ config.sessions →
    service.exec (service.env call) statement (service.view config.store writes) =
      .ok (reply, added) →
    ∀ other ∈ config.sessions,
      ((∃ key ∈ service.locks statement reply, key ∈ other.keys) ∨
        ∃ write ∈ added, ∃ pending ∈ other.writes, service.conflicts write pending = true) →
      rank ⟨call, .query statement onFault next, writes, keys⟩ < rank other

/-- The transaction of the highest rank waits for nobody. -/
theorem Ranked.advances {rank : Session Reply Fault Failure Write Key Call α → Nat}
    {config : Config Reply Fault Failure Store Write Key Call α}
    (ranked : service.Ranked rank config) (busy : config.sessions ≠ []) :
    ∃ next, service.Advances config next := by
  obtain ⟨store, sessions, ended⟩ := config
  obtain ⟨first, isFirst⟩ : ∃ first, first ∈ sessions.argmax rank := by
    cases highest : sessions.argmax rank with
    | none => exact absurd (List.argmax_eq_none.mp highest) busy
    | some first => exact ⟨first, rfl⟩
  have member := List.argmax_mem isFirst
  obtain ⟨before, after, rfl⟩ := List.append_of_mem member
  suffices enabled : (service.advance? store before after ended first).isSome = true by
    obtain ⟨next, taken⟩ := Option.isSome_iff_exists.mp enabled
    exact ⟨next, before.length, by simpa [move?] using taken⟩
  obtain ⟨call, rest, writes, keys⟩ := first
  cases rest with
  | done result => cases result <;> rfl
  | query statement onFault next =>
      cases replied : service.exec (service.env call) statement (service.view store writes) with
      | error fault => simp only [advance?, replied, Option.isSome_some]
      | ok ended =>
          obtain ⟨reply, added⟩ := ended
          have unmatched : ∀ other ∈ before ++ after,
              ¬ ((∃ key ∈ service.locks statement reply, key ∈ other.keys) ∨
                ∃ write ∈ added, ∃ pending ∈ other.writes,
                  service.conflicts write pending = true) := by
            intro other isOther blocks
            have present : other ∈ before ++ ⟨call, .query statement onFault next, writes, keys⟩ ::
                after := mem_of_others isOther
            have below := ranked _ _ _ _ _ _ _ _ member replied other present blocks
            exact absurd (List.le_of_mem_argmax present isFirst) (Nat.not_le.mpr below)
          have free : (∀ other ∈ before ++ after, ∀ key ∈ service.locks statement reply,
              key ∉ other.keys) ∧ ∀ other ∈ before ++ after, ∀ write ∈ added,
                ∀ pending ∈ other.writes, service.conflicts write pending = false := by
            refine ⟨fun other isOther key locked held => ?_,
              fun other isOther write new pending old => ?_⟩
            · exact unmatched other isOther (.inl ⟨key, locked, held⟩)
            · refine eq_false_of_ne_true fun conflicting => ?_
              exact unmatched other isOther (.inr ⟨write, new, pending, old, conflicting⟩)
          simp only [advance?, replied, if_pos free, Option.isSome_some]

def programs (config : Config Reply Fault Failure Store Write Key Call α) :
    Multiset (Program Reply Fault Failure α) :=
  (config.sessions.map (·.rest) : List _)

omit [DecidableEq Key] in
theorem programs_middle {store : Store} {ended : List (Call × Except Failure α)}
    (before after : List (Session Reply Fault Failure Write Key Call α))
    (session : Session Reply Fault Failure Write Key Call α) :
    programs ⟨store, before ++ session :: after, ended⟩ =
      programs ⟨store, before ++ after, ended⟩ + {session.rest} := by
  have perm : ((before ++ session :: after).map (·.rest)).Perm
      ((before ++ after).map (·.rest) ++ [session.rest]) := by
    have moved := List.perm_middle.trans
      (List.perm_append_singleton session (before ++ after)).symm
    simpa only [List.map_append, List.map_cons, List.map_nil] using moved.map (·.rest)
  exact Quot.sound perm

theorem left_of_advance {store : Store}
    {before after : List (Session Reply Fault Failure Write Key Call α)}
    {ended : List (Call × Except Failure α)}
    {session : Session Reply Fault Failure Write Key Call α}
    {next : Config Reply Fault Failure Store Write Key Call α}
    (taken : service.advance? store before after ended session = some next) :
    next.sessions = before ++ after ∨ ∃ later : Session Reply Fault Failure Write Key Call α,
      Program.Left later.rest session.rest ∧ next.sessions = before ++ later :: after := by
  obtain ⟨call, rest, writes, keys⟩ := session
  cases rest with
  | done result =>
      cases result <;> exact .inl (Option.some.inj taken ▸ rfl)
  | query statement onFault following =>
      refine .inr ?_
      cases replied : service.exec (service.env call) statement (service.view store writes) with
      | error fault =>
          simp only [advance?, replied] at taken
          obtain rfl := Option.some.inj taken
          exact ⟨_, .faulted fault, rfl⟩
      | ok reply =>
          simp only [advance?, replied] at taken
          split at taken
          · obtain rfl := Option.some.inj taken
            exact ⟨_, .replied reply.1, rfl⟩
          · contradiction

theorem Advances.cutExpand {config next : Config Reply Fault Failure Store Write Key Call α}
    (advances : service.Advances config next) :
    Relation.CutExpand Program.Left (programs next) (programs config) := by
  obtain ⟨store, sessions, ended⟩ := config
  obtain ⟨place, taken⟩ := advances
  simp only [move?] at taken
  split at taken
  · contradiction
  · rename_i session after dropped
    have whole : sessions = sessions.take place ++ session :: after := by
      rw [← dropped, List.take_append_drop]
    obtain ⟨later, others, done⟩ := next
    rw [whole, programs_middle]
    rcases left_of_advance taken with gone | ⟨replaced, left, same⟩
    · refine ⟨0, session.rest, by simp, ?_⟩
      obtain rfl : others = _ := gone
      rw [add_zero]
      rfl
    · refine ⟨{replaced.rest}, session.rest, by simpa using left, ?_⟩
      obtain rfl : others = _ := same
      rw [programs_middle, add_right_comm]
      rfl

def calls (config : Config Reply Fault Failure Store Write Key Call α) : List Call :=
  config.ended.map Prod.fst ++ config.sessions.map (·.call)

omit [DecidableEq Key] in
theorem calls_middle {store other : Store} {ended : List (Call × Except Failure α)}
    {before after : List (Session Reply Fault Failure Write Key Call α)}
    {session : Session Reply Fault Failure Write Key Call α} (result : Except Failure α) :
    (calls (⟨store, before ++ session :: after, ended⟩ :
      Config Reply Fault Failure Store Write Key Call α)).Perm
      (calls (⟨other, before ++ after, ended ++ [(session.call, result)]⟩ :
        Config Reply Fault Failure Store Write Key Call α)) := by
  simp only [calls, List.map_append, List.map_cons, List.map_nil, List.append_assoc,
    List.singleton_append]
  exact List.perm_middle.append_left _

theorem Advances.calls {config next : Config Reply Fault Failure Store Write Key Call α}
    (advances : service.Advances config next) : (calls config).Perm (calls next) := by
  obtain ⟨store, sessions, ended⟩ := config
  obtain ⟨place, taken⟩ := advances
  simp only [move?] at taken
  split at taken
  · contradiction
  · rename_i session after dropped
    have whole : sessions = sessions.take place ++ session :: after := by
      rw [← dropped, List.take_append_drop]
    rw [whole]
    obtain ⟨call, rest, writes, keys⟩ := session
    cases rest with
    | done result =>
        cases result with
        | ok value =>
            obtain rfl := Option.some.inj taken
            exact calls_middle (.ok value)
        | error reason =>
            obtain rfl := Option.some.inj taken
            exact calls_middle (.error reason)
    | query statement onFault following =>
        have same : ∀ later : Session Reply Fault Failure Write Key Call α, later.call = call →
            Service.calls (⟨store, sessions.take place ++ ⟨call, .query statement onFault following,
              writes, keys⟩ :: after, ended⟩ : Config Reply Fault Failure Store Write Key Call α) =
              Service.calls (⟨store, sessions.take place ++ later :: after, ended⟩ :
                Config Reply Fault Failure Store Write Key Call α) := by
          rintro later rfl
          simp only [Service.calls, List.map_append, List.map_cons]
        cases replied : service.exec (service.env call) statement (service.view store writes) with
        | error fault =>
            simp only [advance?, replied] at taken
            obtain rfl := Option.some.inj taken
            exact .of_eq (same _ rfl)
        | ok reply =>
            simp only [advance?, replied] at taken
            split at taken
            · obtain rfl := Option.some.inj taken
              exact .of_eq (same _ rfl)
            · contradiction

/-- No schedule goes on for ever unless new transactions begin. -/
theorem wellFounded_advances :
    WellFounded fun next config : Config Reply Fault Failure Store Write Key Call α =>
      service.Advances config next :=
  Subrelation.wf Advances.cutExpand (InvImage.wf programs Program.wellFounded_left.cutExpand)

/-- Transactions that wait for those of higher ranks only all come to an end, with a result. -/
theorem ends {rank : Session Reply Fault Failure Write Key Call α → Nat}
    {holds : Config Reply Fault Failure Store Write Key Call α → Prop}
    (kept : ∀ config next, holds config → service.Advances config next → holds next)
    (ranked : ∀ config, holds config → service.Ranked rank config)
    (config : Config Reply Fault Failure Store Write Key Call α) (start : holds config) :
    ∃ finished, Relation.ReflTransGen service.Advances config finished ∧
      finished.sessions = [] ∧ (calls config).Perm (finished.ended.map Prod.fst) := by
  have founded : WellFounded fun next config => service.Advances config next :=
    wellFounded_advances
  induction config using founded.induction with
  | _ config induction =>
      by_cases idle : config.sessions = []
      · refine ⟨config, .refl, idle, .of_eq ?_⟩
        rw [calls, idle, List.map_nil, List.append_nil]
      · obtain ⟨next, advances⟩ := (ranked config start).advances idle
        obtain ⟨finished, later, none, answered⟩ :=
          induction next advances (kept config next start advances)
        exact ⟨finished, .head advances later, none, advances.calls.trans answered⟩

end Service

end Zyndeck.Data
