import Mathlib.Logic.Relation
import Zyndeck.Data.Transaction
import Zyndeck.Data.Transition

namespace Zyndeck.Data

/-! Transactions interleaved statement by statement.  Each statement sees what is
committed and what its own transaction has written, rows stay locked to the end of
the transaction that locked them, and a write waits for the uncommitted writes it
conflicts with. -/

/-- The calls on a store: transactions, and calls of a single statement. -/
structure Service (Statement : Type) (Reply : Statement → Type)
    (Fault Failure Env Store Write Key Call α : Type)
    extends Engine Statement Reply Fault Env Store Write where
  env : Call → Env
  body : Call → Option (Program Reply Fault Failure α)
  single : Call → Option (Store → Except Failure α × Store)
  /-- The rows a statement locks. -/
  locks : (statement : Statement) → Reply statement → List Key
  conflicts : Write → Write → Bool

variable {Statement : Type} {Reply : Statement → Type}
  {Fault Failure Env Store Write Key Call α : Type}

structure Session (Reply : Statement → Type) (Fault Failure Write Key Call α : Type) where
  call : Call
  rest : Program Reply Fault Failure α
  writes : List Write
  keys : List Key

/-- The committed store, the transactions that have begun, and the calls that have
ended, with their results. -/
structure Config (Reply : Statement → Type)
    (Fault Failure Store Write Key Call α : Type) where
  store : Store
  sessions : List (Session Reply Fault Failure Write Key Call α)
  ended : List (Call × Except Failure α)

namespace Service

variable (service : Service Statement Reply Fault Failure Env Store Write Key Call α)

inductive Interleaves : Config Reply Fault Failure Store Write Key Call α →
    Config Reply Fault Failure Store Write Key Call α → Prop
  | opened (isBody : service.body call = some program) :
      Interleaves ⟨store, sessions, ended⟩ ⟨store, sessions ++ [⟨call, program, [], []⟩], ended⟩
  | executed
      (replied : service.exec (service.env call) statement (service.view store writes) =
        .ok (reply, added))
      (unlocked : ∀ other ∈ before ++ after, ∀ key ∈ service.locks statement reply,
        key ∉ other.keys)
      (apart : ∀ other ∈ before ++ after, ∀ write ∈ added, ∀ pending ∈ other.writes,
        service.conflicts write pending = false) :
      Interleaves
        ⟨store, before ++ ⟨call, .query statement onFault next, writes, keys⟩ :: after, ended⟩
        ⟨store, before ++ ⟨call, next reply, writes ++ added,
          keys ++ service.locks statement reply⟩ :: after, ended⟩
  | faulted
      (faulted : service.exec (service.env call) statement (service.view store writes) =
        .error fault) :
      Interleaves
        ⟨store, before ++ ⟨call, .query statement onFault next, writes, keys⟩ :: after, ended⟩
        ⟨store, before ++ ⟨call, .done (.error (onFault fault)), writes, keys⟩ :: after, ended⟩
  | committed :
      Interleaves ⟨store, before ++ ⟨call, .done (.ok value), writes, keys⟩ :: after, ended⟩
        ⟨service.view store writes, before ++ after, ended ++ [(call, .ok value)]⟩
  | rolledBack :
      Interleaves ⟨store, before ++ ⟨call, .done (.error reason), writes, keys⟩ :: after, ended⟩
        ⟨store, before ++ after, ended ++ [(call, .error reason)]⟩
  | single (isSingle : service.single call = some statement) :
      Interleaves ⟨store, sessions, ended⟩
        ⟨(statement store).2, sessions, ended ++ [(call, (statement store).1)]⟩

/-- A call performed without interference, with its result. -/
inductive Atomic (store : Store) : Call × Except Failure α → Store → Prop
  | transaction (isBody : service.body call = some program) :
      Atomic store (call, (service.transact (service.env call) program store).1)
        (service.view store (service.transact (service.env call) program store).2)
  | single (isSingle : service.single call = some statement) :
      Atomic store (call, (statement store).1) (statement store).2

structure Apart (first second : Session Reply Fault Failure Write Key Call α) : Prop where
  keys : ∀ key ∈ first.keys, key ∉ second.keys
  writes : ∀ write ∈ first.writes, ∀ pending ∈ second.writes,
    service.conflicts write pending = false

/-- What shows that a transaction may be taken to have run by itself when it ends:
as long as it has not failed it stands where it would, had it been run from its
beginning over what is committed now, and no call of others changes that. -/
structure Serial where
  sound : Store → Prop
  stands : Store → Session Reply Fault Failure Write Key Call α → Prop
  symm : ∀ first second, service.conflicts first second = service.conflicts second first
  /-- A transaction is not a single statement. -/
  exclusive : ∀ call, (service.body call).isSome → service.single call = none
  coherent : ∀ store session, stands store session → ∃ body,
    service.body session.call = some body ∧
      service.run (service.env session.call) store body [] =
        service.run (service.env session.call) store session.rest session.writes
  opened : ∀ store call body, sound store → service.body call = some body →
    stands store ⟨call, body, [], []⟩
  executed : ∀ store call statement onFault next writes keys reply added, sound store →
    stands store ⟨call, .query statement onFault next, writes, keys⟩ →
    service.exec (service.env call) statement (service.view store writes) = .ok (reply, added) →
    (∀ failure, next reply ≠ .done (.error failure)) →
    stands store ⟨call, next reply, writes ++ added, keys ++ service.locks statement reply⟩
  committed : ∀ store call value writes keys, sound store →
    stands store ⟨call, .done (.ok value), writes, keys⟩ →
    sound (service.view store writes) ∧
      ∀ session, stands store session →
        service.Apart session ⟨call, .done (.ok value), writes, keys⟩ →
        stands (service.view store writes) session
  single : ∀ store call statement, sound store → service.single call = some statement →
    sound (statement store).2 ∧
      ∀ session, stands store session → stands (statement store).2 session

end Service

def Session.failed? : Session Reply Fault Failure Write Key Call α →
    Option (Call × Except Failure α)
  | ⟨call, .done (.error failure), _, _⟩ => some (call, .error failure)
  | _ => none

namespace Service

variable {service : Service Statement Reply Fault Failure Env Store Write Key Call α}

theorem Apart.symm (symm : ∀ first second,
      service.conflicts first second = service.conflicts second first)
    {first second : Session Reply Fault Failure Write Key Call α}
    (apart : service.Apart first second) : service.Apart second first where
  keys key held also := apart.keys key also held
  writes write member pending pendingMember :=
    (symm write pending).trans (apart.writes pending pendingMember write member)

def finished (sessions : List (Session Reply Fault Failure Write Key Call α))
    (ended : List (Call × Except Failure α)) : List (Call × Except Failure α) :=
  ended ++ sessions.filterMap Session.failed?

theorem finished_going {before after : List (Session Reply Fault Failure Write Key Call α)}
    {session : Session Reply Fault Failure Write Key Call α} (going : session.failed? = none)
    (ended : List (Call × Except Failure α)) :
    finished (before ++ session :: after) ended = finished (before ++ after) ended := by
  simp [finished, going]

theorem finished_failed {before after : List (Session Reply Fault Failure Write Key Call α)}
    {session : Session Reply Fault Failure Write Key Call α} {entry : Call × Except Failure α}
    (failed : session.failed? = some entry) (ended : List (Call × Except Failure α)) :
    (finished (before ++ session :: after) ended).Perm
      (finished (before ++ after) ended ++ [entry]) := by
  simp only [finished, List.filterMap_append, List.filterMap_cons, failed]
  rw [← List.append_assoc, ← List.append_assoc]
  exact List.perm_middle.trans (List.perm_append_singleton _ _).symm

theorem finished_ended (sessions : List (Session Reply Fault Failure Write Key Call α))
    (ended : List (Call × Except Failure α)) (entry : Call × Except Failure α) :
    (finished sessions ended ++ [entry]).Perm (finished sessions (ended ++ [entry])) := by
  simp only [finished, List.append_assoc]
  exact List.perm_append_comm.append_left ended

theorem Atomic.of_ok {store : Store} {call : Call} {program : Program Reply Fault Failure α}
    {value : α} {writes : List Write} (isBody : service.body call = some program)
    (ran : service.run (service.env call) store program [] = .ok (value, writes)) :
    service.Atomic store (call, .ok value) (service.view store writes) := by
  have atomic : service.Atomic store _ _ := .transaction isBody
  rwa [Engine.transact_of_run_ok ran] at atomic

theorem Atomic.of_error {store : Store} {call : Call} {program : Program Reply Fault Failure α}
    {reason : Failure} (isBody : service.body call = some program)
    (ran : service.run (service.env call) store program [] = .error reason) :
    service.Atomic store (call, .error reason) store := by
  have atomic : service.Atomic store _ _ := .transaction isBody
  rwa [Engine.transact_of_run_error ran] at atomic

structure Linearized (serial : service.Serial) (start : Store)
    (config : Config Reply Fault Failure Store Write Key Call α) : Prop where
  sound : serial.sound config.store
  apart : config.sessions.Pairwise service.Apart
  stands : ∀ session ∈ config.sessions, session.failed? = none →
    serial.stands config.store session
  bodies : ∀ session ∈ config.sessions, (service.body session.call).isSome
  order : ∃ order, order.Perm (finished config.sessions config.ended) ∧
    Run service.Atomic start order config.store

theorem order_insert {start store : Store}
    {before after : List (Session Reply Fault Failure Write Key Call α)}
    {ended : List (Call × Except Failure α)}
    {session : Session Reply Fault Failure Write Key Call α}
    (order : ∃ order, order.Perm (finished (before ++ after) ended) ∧
      Run service.Atomic start order store)
    (coherent : ∃ body, service.body session.call = some body ∧
      service.run (service.env session.call) store body [] =
        service.run (service.env session.call) store session.rest session.writes) :
    ∃ order, order.Perm (finished (before ++ session :: after) ended) ∧
      Run service.Atomic start order store := by
  obtain ⟨order, perm, run⟩ := order
  cases failed : session.failed? with
  | none => exact ⟨order, (finished_going failed ended).symm ▸ perm, run⟩
  | some entry =>
      refine ⟨order ++ [entry], (perm.append_right _).trans (finished_failed failed ended).symm,
        run.snoc ?_⟩
      obtain ⟨call, rest, writes, keys⟩ := session
      obtain ⟨body, isBody, same⟩ := coherent
      cases rest with
      | query => contradiction
      | done result =>
          cases result with
          | ok => contradiction
          | error reason =>
              obtain rfl := Option.some.inj failed
              exact .of_error isBody same

theorem mem_of_others {before after : List β} {between other : β}
    (isOther : other ∈ before ++ after) : other ∈ before ++ between :: after := by
  rcases List.mem_append.mp isOther with earlier | later
  · exact List.mem_append_left _ earlier
  · exact List.mem_append_right _ (List.mem_cons_of_mem _ later)

theorem pairwise_remove {session : Session Reply Fault Failure Write Key Call α}
    {before after : List (Session Reply Fault Failure Write Key Call α)} (serial : service.Serial)
    (apart : (before ++ session :: after).Pairwise service.Apart) :
    (before ++ after).Pairwise service.Apart ∧
      ∀ other ∈ before ++ after, service.Apart session other := by
  have whole := (List.pairwise_middle fun apart => Apart.symm serial.symm apart).mp apart
  exact ⟨(List.pairwise_cons.mp whole).2, (List.pairwise_cons.mp whole).1⟩

theorem pairwise_insert {session : Session Reply Fault Failure Write Key Call α}
    {before after : List (Session Reply Fault Failure Write Key Call α)} (serial : service.Serial)
    (apart : (before ++ after).Pairwise service.Apart)
    (new : ∀ other ∈ before ++ after, service.Apart session other) :
    (before ++ session :: after).Pairwise service.Apart :=
  (List.pairwise_middle fun apart => Apart.symm serial.symm apart).mpr
    (List.pairwise_cons.mpr ⟨new, apart⟩)

theorem Linearized.own {serial : service.Serial} {start store : Store}
    {before after : List (Session Reply Fault Failure Write Key Call α)}
    {ended : List (Call × Except Failure α)}
    {session : Session Reply Fault Failure Write Key Call α}
    (holds : Linearized serial start ⟨store, before ++ session :: after, ended⟩)
    (going : session.failed? = none) : serial.stands store session :=
  holds.stands session (by simp) going

theorem Linearized.advance {serial : service.Serial} {start store : Store}
    {before after : List (Session Reply Fault Failure Write Key Call α)}
    {ended : List (Call × Except Failure α)}
    {session later : Session Reply Fault Failure Write Key Call α}
    (holds : Linearized serial start ⟨store, before ++ session :: after, ended⟩)
    (going : session.failed? = none) (sameCall : later.call = session.call)
    (coherent : service.run (service.env session.call) store later.rest later.writes =
      service.run (service.env session.call) store session.rest session.writes)
    (apart : ∀ other ∈ before ++ after, service.Apart later other)
    (stands : later.failed? = none → serial.stands store later) :
    Linearized serial start ⟨store, before ++ later :: after, ended⟩ := by
  obtain ⟨program, isBody, same⟩ := serial.coherent _ _ (holds.own going)
  refine ⟨holds.sound, pairwise_insert serial (pairwise_remove serial holds.apart).1 apart,
    fun other isOther => ?_, fun other isOther => ?_, order_insert ?_ ?_⟩
  · rcases List.mem_append.mp isOther with earlier | isLater
    · exact holds.stands other (by simp [earlier])
    · rcases List.mem_cons.mp isLater with rfl | isLater
      · exact stands
      · exact holds.stands other (by simp [isLater])
  · rcases List.mem_append.mp isOther with earlier | isLater
    · exact holds.bodies other (by simp [earlier])
    · rcases List.mem_cons.mp isLater with rfl | isLater
      · exact sameCall ▸ holds.bodies session (by simp)
      · exact holds.bodies other (by simp [isLater])
  · obtain ⟨order, perm, run⟩ := holds.order
    exact ⟨order, finished_going going ended ▸ perm, run⟩
  · rw [sameCall]
    exact ⟨program, isBody, same.trans coherent.symm⟩

theorem Interleaves.linearized {serial : service.Serial} {start : Store}
    {config next : Config Reply Fault Failure Store Write Key Call α}
    (step : service.Interleaves config next) (holds : Linearized serial start config) :
    Linearized serial start next := by
  cases step with
  | @opened call program store sessions ended isBody =>
      have stands := serial.opened store call program holds.sound isBody
      refine ⟨holds.sound, ?_, fun other isOther => ?_, fun other isOther => ?_, ?_⟩
      · refine pairwise_insert serial (by simpa using holds.apart) fun other _ => ⟨?_, ?_⟩ <;> simp
      · rcases List.mem_append.mp isOther with earlier | isNew
        · exact holds.stands other earlier
        · exact fun _ => List.mem_singleton.mp isNew ▸ stands
      · rcases List.mem_append.mp isOther with earlier | isNew
        · exact holds.bodies other earlier
        · rw [List.mem_singleton.mp isNew, isBody]
          rfl
      · exact order_insert (by simpa using holds.order) (serial.coherent _ _ stands)
  | executed replied unlocked apart =>
      have old := (pairwise_remove serial holds.apart).2
      refine holds.advance rfl rfl (Engine.run_query_ok replied).symm (fun other isOther => ?_)
        fun going => ?_
      · refine ⟨fun key held => ?_, fun write written => ?_⟩
        · rcases List.mem_append.mp held with held | locked
          · exact (old other isOther).keys key held
          · exact unlocked other isOther key locked
        · rcases List.mem_append.mp written with written | added
          · exact (old other isOther).writes write written
          · exact apart other isOther write added
      · refine serial.executed _ _ _ _ _ _ _ _ _ holds.sound
          (holds.own rfl) replied fun failure failed => ?_
        rw [failed] at going
        contradiction
  | faulted faulted =>
      refine holds.advance rfl rfl (Engine.run_query_fault faulted).symm (fun other isOther => ?_)
        nofun
      obtain ⟨keys, writes⟩ := (pairwise_remove serial holds.apart).2 other isOther
      exact ⟨keys, writes⟩
  | committed =>
      have stands := holds.own rfl
      obtain ⟨sound, kept⟩ := serial.committed _ _ _ _ _ holds.sound stands
      obtain ⟨pairwise, apart⟩ := pairwise_remove serial holds.apart
      refine ⟨sound, pairwise, fun other isOther going => ?_, fun other isOther => ?_, ?_⟩
      · exact kept other (holds.stands other (mem_of_others isOther) going)
          (Apart.symm serial.symm (apart other isOther))
      · exact holds.bodies other (mem_of_others isOther)
      · obtain ⟨order, perm, run⟩ := holds.order
        obtain ⟨program, isBody, same⟩ := serial.coherent _ _ stands
        rw [finished_going rfl] at perm
        exact ⟨_, (perm.append_right _).trans (finished_ended ..), run.snoc (.of_ok isBody same)⟩
  | rolledBack =>
      refine ⟨holds.sound, (pairwise_remove serial holds.apart).1, fun other isOther =>
        holds.stands other (mem_of_others isOther), fun other isOther =>
        holds.bodies other (mem_of_others isOther), ?_⟩
      obtain ⟨order, perm, run⟩ := holds.order
      exact ⟨order, perm.trans ((finished_failed rfl _).trans (finished_ended ..)), run⟩
  | single isSingle =>
      obtain ⟨sound, kept⟩ := serial.single _ _ _ holds.sound isSingle
      refine ⟨sound, holds.apart, fun other isOther going =>
        kept other (holds.stands other isOther going), holds.bodies, ?_⟩
      obtain ⟨order, perm, run⟩ := holds.order
      exact ⟨_, (perm.append_right _).trans (finished_ended ..), run.snoc (.single isSingle)⟩

theorem Atomic.unchanged {store next : Store} {call : Call} {reason : Failure}
    (single : service.single call = none)
    (atomic : service.Atomic store (call, .error reason) next) : next = store := by
  generalize entry : (call, Except.error reason) = labelled at atomic
  cases atomic with
  | single isSingle =>
      obtain ⟨rfl, _⟩ := Prod.mk.inj entry
      rw [single] at isSingle
      contradiction
  | @transaction call program =>
      obtain ⟨rfl, failed⟩ := Prod.mk.inj entry
      cases ran : service.run (service.env call) store program [] with
      | ok ended => simp [Engine.transact_of_run_ok ran] at failed
      | error other => rw [Engine.transact_of_run_error ran, Engine.view_nil]

/-- The calls that have ended, one by one in some order, have the results that they
have had and leave the committed store. -/
theorem linearizes (serial : service.Serial) {start : Store} (sound : serial.sound start)
    {config : Config Reply Fault Failure Store Write Key Call α}
    (run : Relation.ReflTransGen service.Interleaves ⟨start, [], []⟩ config) :
    ∃ order, order.Perm config.ended ∧ Run service.Atomic start order config.store := by
  have holds : Linearized serial start config := by
    induction run with
    | refl => exact ⟨sound, .nil, by simp, by simp, [], by simp [finished], .nil⟩
    | tail _ step induction => exact step.linearized induction
  obtain ⟨order, perm, serially⟩ := holds.order
  refine serially.leave_out (fun entry failed store next atomic => ?_) perm
  obtain ⟨session, member, isFailed⟩ := List.mem_filterMap.mp failed
  obtain ⟨call, rest, writes, keys⟩ := session
  have isBody := holds.bodies _ member
  cases rest with
  | query => contradiction
  | done result =>
      cases result with
      | ok => contradiction
      | error reason =>
          obtain rfl := Option.some.inj isFailed
          exact atomic.unchanged (serial.exclusive _ isBody)

theorem runs_alone (store : Store) (ended : List (Call × Except Failure α)) (call : Call)
    (rest : Program Reply Fault Failure α) (writes : List Write) (keys : List Key) :
    Relation.ReflTransGen service.Interleaves ⟨store, [⟨call, rest, writes, keys⟩], ended⟩
      (match service.run (service.env call) store rest writes with
      | .ok (value, collected) => ⟨service.view store collected, [], ended ++ [(call, .ok value)]⟩
      | .error reason => ⟨store, [], ended ++ [(call, .error reason)]⟩) := by
  induction rest generalizing writes keys with
  | done result =>
      cases result with
      | ok value =>
          have step : service.Interleaves
              ⟨store, [] ++ [⟨call, .done (.ok value), writes, keys⟩], ended⟩ _ := .committed
          exact .single step
      | error reason =>
          have step : service.Interleaves
              ⟨store, [] ++ [⟨call, .done (.error reason), writes, keys⟩], ended⟩ _ := .rolledBack
          exact .single step
  | query statement onFault next induction =>
      cases replied : service.exec (service.env call) statement (service.view store writes) with
      | error fault =>
          rw [Engine.run_query_fault replied]
          have step : service.Interleaves
              ⟨store, [] ++ [⟨call, .query statement onFault next, writes, keys⟩], ended⟩ _ :=
            .faulted replied
          exact .tail (.single step) .rolledBack
      | ok reply =>
          rw [Engine.run_query_ok replied]
          have step : service.Interleaves
              ⟨store, [] ++ [⟨call, .query statement onFault next, writes, keys⟩], ended⟩ _ :=
            .executed replied (by simp) (by simp)
          exact .head step (induction ..)

theorem alone {call : Call} {program : Program Reply Fault Failure α}
    (isBody : service.body call = some program) (store : Store) :
    Relation.ReflTransGen service.Interleaves ⟨store, [], []⟩
      ⟨service.view store (service.transact (service.env call) program store).2, [],
        [(call, (service.transact (service.env call) program store).1)]⟩ := by
  refine .head (.opened isBody) ?_
  have run : Relation.ReflTransGen service.Interleaves ⟨store, [⟨call, program, [], []⟩], []⟩ _ :=
    runs_alone store [] call program [] []
  cases ran : service.run (service.env call) store program [] with
  | ok ended =>
      rw [ran] at run
      rw [Engine.transact_of_run_ok ran]
      exact run
  | error reason =>
      rw [ran] at run
      rw [Engine.transact_of_run_error ran]
      exact run

/-! Interleavings by a schedule. -/

inductive Move (Call : Type) where
  | opened (call : Call)
  | advanced (place : Nat)
  | single (call : Call)

variable [DecidableEq Key]

def advance? (service : Service Statement Reply Fault Failure Env Store Write Key Call α)
    (store : Store) (before after : List (Session Reply Fault Failure Write Key Call α))
    (ended : List (Call × Except Failure α)) :
    Session Reply Fault Failure Write Key Call α →
      Option (Config Reply Fault Failure Store Write Key Call α)
  | ⟨call, .done (.ok value), writes, _⟩ =>
      some ⟨service.view store writes, before ++ after, ended ++ [(call, .ok value)]⟩
  | ⟨call, .done (.error reason), _, _⟩ =>
      some ⟨store, before ++ after, ended ++ [(call, .error reason)]⟩
  | ⟨call, .query statement onFault next, writes, keys⟩ =>
      match service.exec (service.env call) statement (service.view store writes) with
      | .error fault =>
          some ⟨store, before ++ ⟨call, .done (.error (onFault fault)), writes, keys⟩ :: after,
            ended⟩
      | .ok (reply, added) =>
          if (∀ other ∈ before ++ after, ∀ key ∈ service.locks statement reply, key ∉ other.keys) ∧
              ∀ other ∈ before ++ after, ∀ write ∈ added, ∀ pending ∈ other.writes,
                service.conflicts write pending = false then
            some ⟨store, before ++ ⟨call, next reply, writes ++ added,
              keys ++ service.locks statement reply⟩ :: after, ended⟩
          else none

def move? (service : Service Statement Reply Fault Failure Env Store Write Key Call α)
    (config : Config Reply Fault Failure Store Write Key Call α) :
    Move Call → Option (Config Reply Fault Failure Store Write Key Call α)
  | .opened call => (service.body call).map fun program =>
      { config with sessions := config.sessions ++ [⟨call, program, [], []⟩] }
  | .advanced place =>
      match config.sessions.drop place with
      | [] => none
      | session :: after =>
          service.advance? config.store (config.sessions.take place) after config.ended session
  | .single call => (service.single call).map fun statement =>
      { config with
        store := (statement config.store).2
        ended := config.ended ++ [(call, (statement config.store).1)] }

theorem interleaves_of_advance {store : Store}
    {before after : List (Session Reply Fault Failure Write Key Call α)}
    {ended : List (Call × Except Failure α)}
    {session : Session Reply Fault Failure Write Key Call α}
    {next : Config Reply Fault Failure Store Write Key Call α}
    (taken : service.advance? store before after ended session = some next) :
    service.Interleaves ⟨store, before ++ session :: after, ended⟩ next := by
  obtain ⟨call, rest, writes, keys⟩ := session
  cases rest with
  | done result =>
      cases result with
      | ok value =>
          obtain rfl := Option.some.inj taken
          exact .committed
      | error reason =>
          obtain rfl := Option.some.inj taken
          exact .rolledBack
  | query statement onFault following =>
      cases replied : service.exec (service.env call) statement (service.view store writes) with
      | error fault =>
          simp only [advance?, replied] at taken
          obtain rfl := Option.some.inj taken
          exact .faulted replied
      | ok reply =>
          simp only [advance?, replied] at taken
          split at taken
          · rename_i free
            obtain rfl := Option.some.inj taken
            exact .executed replied free.1 free.2
          · contradiction

theorem interleaves_of_move {config next : Config Reply Fault Failure Store Write Key Call α}
    {move : Move Call} (taken : service.move? config move = some next) :
    service.Interleaves config next := by
  obtain ⟨store, sessions, ended⟩ := config
  cases move with
  | opened call =>
      obtain ⟨program, isBody, rfl⟩ := Option.map_eq_some_iff.mp taken
      exact .opened isBody
  | single call =>
      obtain ⟨statement, isSingle, rfl⟩ := Option.map_eq_some_iff.mp taken
      exact .single isSingle
  | advanced place =>
      cases dropped : sessions.drop place with
      | nil => simp [move?, dropped] at taken
      | cons session after =>
          simp only [move?, dropped] at taken
          have step := interleaves_of_advance taken
          rwa [← dropped, List.take_append_drop] at step

theorem interleaves_of_execute {config next : Config Reply Fault Failure Store Write Key Call α}
    {moves : List (Move Call)} (executed : execute service.move? config moves = some next) :
    Relation.ReflTransGen service.Interleaves config next := by
  induction moves generalizing config with
  | nil =>
      obtain rfl := Option.some.inj executed
      exact .refl
  | cons move moves induction =>
      obtain ⟨middle, taken, rest⟩ := Option.bind_eq_some_iff.mp executed
      exact .head (interleaves_of_move taken) (induction rest)

end Service

end Zyndeck.Data
