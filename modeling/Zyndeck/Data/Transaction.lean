namespace Zyndeck.Data

/-! Transaction bodies as programs of statements, run over a store that
collects their writes until the commit. -/

structure Engine (Statement : Type) (Reply : Statement → Type)
    (Fault Env Store Write : Type) where
  exec : Env → (statement : Statement) → Store →
    Except Fault (Reply statement × List Write)
  apply : Store → Write → Store

/-- A body either has its result or issues a statement whose reply chooses what
follows.  A faulting statement aborts the transaction. -/
inductive Program {Statement : Type} (Reply : Statement → Type)
    (Fault Failure α : Type) where
  | done (result : Except Failure α)
  | query (statement : Statement) (onFault : Fault → Failure)
      (next : Reply statement → Program Reply Fault Failure α)

variable {Statement : Type} {Reply : Statement → Type}
  {Fault Failure Env Store Write α β : Type}

namespace Program

def bind (program : Program Reply Fault Failure α)
    (continue_ : α → Program Reply Fault Failure β) :
    Program Reply Fault Failure β :=
  match program with
  | .done (.ok value) => continue_ value
  | .done (.error failure) => .done (.error failure)
  | .query statement onFault next =>
      .query statement onFault fun reply => (next reply).bind continue_

instance : Monad (Program Reply Fault Failure) where
  pure value := .done (.ok value)
  bind := bind

def throw (failure : Failure) : Program Reply Fault Failure α :=
  .done (.error failure)

def statement (issued : Statement) (onFault : Fault → Failure) :
    Program Reply Fault Failure (Reply issued) :=
  .query issued onFault fun reply => .done (.ok reply)

@[simp] theorem bind_done_ok (value : α)
    (continue_ : α → Program Reply Fault Failure β) :
    (Program.done (.ok value) >>= continue_) = continue_ value := rfl

@[simp] theorem bind_done_error (failure : Failure)
    (continue_ : α → Program Reply Fault Failure β) :
    (Program.done (.error failure) >>= continue_) = .done (.error failure) := rfl

@[simp] theorem bind_query (issued : Statement) (onFault : Fault → Failure)
    (next : Reply issued → Program Reply Fault Failure α)
    (continue_ : α → Program Reply Fault Failure β) :
    (Program.query issued onFault next >>= continue_) =
      .query issued onFault fun reply => next reply >>= continue_ := rfl

@[simp] theorem pure_eq (value : α) :
    (pure value : Program Reply Fault Failure α) = .done (.ok value) := rfl

theorem bind_assoc {γ : Type} (program : Program Reply Fault Failure α)
    (first : α → Program Reply Fault Failure β) (second : β → Program Reply Fault Failure γ) :
    (program >>= first) >>= second = program >>= fun value => first value >>= second := by
  induction program with
  | done result => cases result <;> rfl
  | query statement onFault next induction =>
      simp only [bind_query]
      exact congrArg _ (funext induction)

def next? : Program Reply Fault Failure α → Option Statement
  | .done _ => none
  | .query statement _ _ => some statement

def autocommit (exec : (statement : Statement) → Store → Except Fault (Reply statement) × Store) :
    Program Reply Fault Failure α → Store → Except Failure α × Store
  | .done result, store => (result, store)
  | .query statement onFault next, store =>
      match exec statement store with
      | (.ok reply, store) => autocommit exec (next reply) store
      | (.error fault, store) => (.error (onFault fault), store)

theorem autocommit_invariant
    {exec : (statement : Statement) → Store → Except Fault (Reply statement) × Store}
    {Holds : Store → Prop}
    (kept : ∀ statement store, Holds store → Holds (exec statement store).2)
    (program : Program Reply Fault Failure α) {store : Store} (holds : Holds store) :
    Holds (program.autocommit exec store).2 := by
  induction program generalizing store with
  | done result => exact holds
  | query statement onFault next induction =>
      have after := kept statement store holds
      rw [autocommit]
      cases executed : exec statement store with
      | mk reply left =>
          rw [executed] at after
          cases reply with
          | ok reply => exact induction reply after
          | error fault => exact after

end Program

namespace Engine

variable (engine : Engine Statement Reply Fault Env Store Write)

def view (store : Store) (writes : List Write) : Store :=
  writes.foldl engine.apply store

@[simp] theorem view_nil (store : Store) : engine.view store [] = store := rfl

def run (env : Env) (store : Store) :
    Program Reply Fault Failure α → List Write → Except Failure (α × List Write)
  | .done (.ok value), writes => .ok (value, writes)
  | .done (.error failure), _ => .error failure
  | .query statement onFault next, writes =>
      match engine.exec env statement (engine.view store writes) with
      | .ok (reply, added) => run env store (next reply) (writes ++ added)
      | .error fault => .error (onFault fault)

variable {engine : Engine Statement Reply Fault Env Store Write}

theorem run_done (env : Env) (store : Store) (result : Except Failure α)
    (writes : List Write) :
    engine.run env store (.done result) writes = result.map (·, writes) := by
  cases result <;> rfl

@[simp] theorem run_done_ok (env : Env) (store : Store) (value : α)
    (writes : List Write) :
    engine.run env store (.done (.ok value) : Program Reply Fault Failure α) writes =
      .ok (value, writes) := rfl

@[simp] theorem run_done_error (env : Env) (store : Store) (failure : Failure)
    (writes : List Write) :
    engine.run (α := α) env store (.done (.error failure)) writes = .error failure := rfl

theorem run_query_ok {env : Env} {store : Store} {statement : Statement}
    {onFault : Fault → Failure} {next : Reply statement → Program Reply Fault Failure α}
    {writes added : List Write} {reply : Reply statement}
    (replied : engine.exec env statement (engine.view store writes) = .ok (reply, added)) :
    engine.run env store (.query statement onFault next) writes =
      engine.run env store (next reply) (writes ++ added) := by
  rw [run, replied]

theorem run_query_fault {env : Env} {store : Store} {statement : Statement}
    {onFault : Fault → Failure} {next : Reply statement → Program Reply Fault Failure α}
    {writes : List Write} {fault : Fault}
    (faulted : engine.exec env statement (engine.view store writes) = .error fault) :
    engine.run env store (.query statement onFault next) writes =
      .error (onFault fault) := by
  rw [run, faulted]

theorem run_query_eq_ok {env : Env} {store : Store} {statement : Statement}
    {onFault : Fault → Failure} {next : Reply statement → Program Reply Fault Failure α}
    {writes : List Write} {ended : α × List Write}
    (ran : engine.run env store (.query statement onFault next) writes = .ok ended) :
    ∃ reply added, engine.exec env statement (engine.view store writes) = .ok (reply, added) ∧
      engine.run env store (next reply) (writes ++ added) = .ok ended := by
  cases executed : engine.exec env statement (engine.view store writes) with
  | error fault =>
      rw [run_query_fault executed] at ran
      contradiction
  | ok replied =>
      rw [run_query_ok executed] at ran
      exact ⟨replied.1, replied.2, rfl, ran⟩

theorem run_bind (env : Env) (store : Store) (program : Program Reply Fault Failure α)
    (continue_ : α → Program Reply Fault Failure β) (writes : List Write) :
    engine.run env store (program >>= continue_) writes =
      match engine.run env store program writes with
      | .ok (value, collected) => engine.run env store (continue_ value) collected
      | .error failure => .error failure := by
  induction program generalizing writes with
  | done result => cases result <;> rfl
  | query statement onFault next induction =>
      simp only [Program.bind_query, run]
      cases engine.exec env statement (engine.view store writes) with
      | error fault => rfl
      | ok replied => exact induction replied.1 (writes ++ replied.2)

theorem run_bind_ok {env : Env} {store : Store} {program : Program Reply Fault Failure α}
    {continue_ : α → Program Reply Fault Failure β} {writes collected : List Write} {value : β} :
    engine.run env store (program >>= continue_) writes = .ok (value, collected) ↔
      ∃ middle between, engine.run env store program writes = .ok (middle, between) ∧
        engine.run env store (continue_ middle) between = .ok (value, collected) := by
  rw [run_bind]
  cases engine.run env store program writes with
  | error failure => simp
  | ok ended =>
      obtain ⟨first, firstWrites⟩ := ended
      simp only [Except.ok.injEq, Prod.mk.injEq]
      constructor
      · exact fun ran => ⟨first, firstWrites, ⟨rfl, rfl⟩, ran⟩
      · rintro ⟨_, _, ⟨rfl, rfl⟩, ran⟩
        exact ran

/-- Execute a body as one transaction: its result, and the writes it commits.
A failure rolls every write back. -/
def transact (engine : Engine Statement Reply Fault Env Store Write) (env : Env)
    (program : Program Reply Fault Failure α) (store : Store) :
    Except Failure α × List Write :=
  match engine.run env store program [] with
  | .ok (value, writes) => (.ok value, writes)
  | .error failure => (.error failure, [])

theorem transact_of_run_ok {env : Env} {program : Program Reply Fault Failure α}
    {store : Store} {value : α} {writes : List Write}
    (ran : engine.run env store program [] = .ok (value, writes)) :
    engine.transact env program store = (.ok value, writes) := by
  rw [transact, ran]

theorem transact_of_run_error {env : Env} {program : Program Reply Fault Failure α}
    {store : Store} {failure : Failure}
    (ran : engine.run env store program [] = .error failure) :
    engine.transact env program store = (.error failure, []) := by
  rw [transact, ran]

theorem run_of_transact_ok {env : Env} {program : Program Reply Fault Failure α}
    {store : Store} {value : α} (ended : (engine.transact env program store).1 = .ok value) :
    ∃ writes, engine.run env store program [] = .ok (value, writes) := by
  unfold transact at ended
  cases ran : engine.run env store program [] with
  | error failure => simp [ran] at ended
  | ok done =>
      rw [ran] at ended
      exact ⟨done.2, by rw [← Except.ok.inj ended]⟩

theorem view_transact_of_error {env : Env} {program : Program Reply Fault Failure α}
    {store : Store} {failure : Failure}
    (failed : (engine.transact env program store).1 = .error failure) :
    engine.view store (engine.transact env program store).2 = store := by
  unfold transact at failed ⊢
  cases ran : engine.run env store program [] with
  | error other => rfl
  | ok ended => simp [ran] at failed

end Engine

end Zyndeck.Data
