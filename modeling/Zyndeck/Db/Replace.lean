import Zyndeck.Data.Transaction
import Zyndeck.Db.Chunks

namespace Zyndeck

open Data

/-! `replace` as a transaction of statements, any of which can fail. -/

inductive ContentStatement where
  | deleteByJob (job : Uuid)
  | insert (place : Nat) (job : Uuid) (new : NewChunk)

def ContentStatement.Reply (_ : ContentStatement) : Type := Unit

inductive ContentWrite where
  | deleted (job : Uuid)
  | inserted (row : ChunkRow)

/-- The ids that are drawn, and the statements that fail. -/
structure Faults where
  ids : Nat → Uuid
  fault : ContentStatement → Option SqlError

def contentEngine :
    Engine ContentStatement ContentStatement.Reply SqlError Faults Db ContentWrite where
  exec faults statement db :=
    match faults.fault statement with
    | some fault => .error fault
    | none =>
        match statement with
        | .deleteByJob job => .ok ((), [.deleted job])
        | .insert place job new =>
            (insertChunk (faults.ids place) job new db).map fun _ =>
              ((), [.inserted (new.row (faults.ids place) job)])
  apply db
    | .deleted job => db.deleteChunks job
    | .inserted row => { db with chunks := db.chunks ++ [row] }

abbrev ContentTx := Program ContentStatement.Reply SqlError SqlError Unit

namespace Replace

def insertAll (job : Uuid) : Nat → List NewChunk → ContentTx
  | _, [] => .done (.ok ())
  | place, new :: rest =>
      .query (.insert place job new) id fun _ => insertAll job (place + 1) rest

def replace (job : Uuid) (chunks : List NewChunk) : ContentTx :=
  .query (.deleteByJob job) id fun _ => insertAll job 0 chunks

/-- What the transaction returns, and the tables it leaves. -/
def transact (faults : Faults) (job : Uuid) (chunks : List NewChunk) (db : Db) :
    Except SqlError Unit × Db :=
  let ended := contentEngine.transact faults (replace job chunks) db
  (ended.1, contentEngine.view db ended.2)

section

variable {faults : Faults} {job : Uuid} {db : Db}

theorem exec_insert (calm : ∀ statement, faults.fault statement = none) (place : Nat)
    (new : NewChunk) (store : Db) :
    contentEngine.exec faults (.insert place job new) store =
      (insertChunk (faults.ids place) job new store).map fun _ =>
        ((), [.inserted (new.row (faults.ids place) job)]) := by
  simp only [contentEngine, calm]
  rfl

theorem run_insertAll (calm : ∀ statement, faults.fault statement = none) (place : Nat)
    (new : List NewChunk) (writes : List ContentWrite) :
    (contentEngine.run faults db (insertAll job place new) writes).map
        (fun ended => contentEngine.view db ended.2) =
      insertChunks faults.ids job place new (contentEngine.view db writes) := by
  induction new generalizing place writes with
  | nil => rfl
  | cons chunk rest induction =>
      rw [insertAll, insertChunks]
      cases inserted : insertChunk (faults.ids place) job chunk (contentEngine.view db writes) with
      | error fault =>
          have faulted : contentEngine.exec faults (.insert place job chunk)
              (contentEngine.view db writes) = .error fault := by
            rw [exec_insert calm, inserted]
            rfl
          rw [Engine.run_query_fault faulted]
          rfl
      | ok next =>
          obtain ⟨_, rfl⟩ := insertChunk_ok inserted
          have replied : contentEngine.exec faults (.insert place job chunk)
              (contentEngine.view db writes) =
              .ok ((), [.inserted (chunk.row (faults.ids place) job)]) := by
            rw [exec_insert calm, inserted]
            rfl
          rw [Engine.run_query_ok replied, induction, Engine.view, List.foldl_append]
          rfl

/-- Undisturbed, the transaction is `replaceChunks`. -/
theorem transact_eq (calm : ∀ statement, faults.fault statement = none) (env : Env)
    (ids : env.chunkId = faults.ids) (chunks : List NewChunk) :
    replaceChunks env job chunks db =
      (transact faults job chunks db).1.map fun _ => (transact faults job chunks db).2 := by
  have replied : contentEngine.exec faults (.deleteByJob job) (contentEngine.view db []) =
      .ok ((), [.deleted job]) := by
    simp [contentEngine, calm]
  have inserted : (contentEngine.run faults db (insertAll job 0 chunks) [.deleted job]).map
      (fun ended => contentEngine.view db ended.2) =
      insertChunks faults.ids job 0 chunks (db.deleteChunks job) := run_insertAll calm 0 chunks _
  rw [replaceChunks, ids]
  refine inserted.symm.trans ?_
  rw [transact, Engine.transact, replace, Engine.run_query_ok replied, List.nil_append]
  cases contentEngine.run faults db (insertAll job 0 chunks) [.deleted job] <;> rfl

theorem calm_of_run_ok {place : Nat} {new : List NewChunk} {writes : List ContentWrite}
    {ended : Unit × List ContentWrite}
    (ran : contentEngine.run faults db (insertAll job place new) writes = .ok ended) :
    ∀ index chunk, new[index]? = some chunk →
      faults.fault (.insert (place + index) job chunk) = none := by
  induction new generalizing place writes with
  | nil => simp
  | cons first rest induction =>
      rw [insertAll] at ran
      obtain ⟨reply, added, executed, ran⟩ := Engine.run_query_eq_ok ran
      intro index chunk found
      cases index with
      | zero =>
          obtain rfl := Option.some.inj found
          rw [Nat.add_zero]
          cases faulty : faults.fault (.insert place job first) with
          | none => rfl
          | some fault => simp [contentEngine, faulty] at executed
      | succ index =>
          rw [← Nat.succ_add_eq_add_succ]
          exact induction ran index chunk found

theorem transact_rolls_back {chunks : List NewChunk} :
    (∀ fault, (transact faults job chunks db).1 = .error fault →
      (transact faults job chunks db).2 = db) ∧
    ∀ (place : Nat) (chunk : NewChunk), chunks[place]? = some chunk →
      faults.fault (.insert place job chunk) ≠ none →
      ∃ fault, (transact faults job chunks db).1 = .error fault := by
  refine ⟨fun fault failed => Engine.view_transact_of_error failed,
    fun place chunk found fails => ?_⟩
  cases ended : (transact faults job chunks db).1 with
  | error fault => exact ⟨fault, rfl⟩
  | ok =>
      obtain ⟨writes, ran⟩ := Engine.run_of_transact_ok ended
      obtain ⟨_, _, _, ran⟩ := Engine.run_query_eq_ok ran
      have calm := calm_of_run_ok ran place chunk found
      rw [Nat.zero_add] at calm
      exact absurd calm fails

end

end Replace

end Zyndeck
