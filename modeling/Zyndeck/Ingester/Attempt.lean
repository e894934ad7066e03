import Zyndeck.Data.Transition
import Zyndeck.Db.Chunks
import Zyndeck.Ingester.Task

namespace Zyndeck

open Data

/-! One case for every way a body moves. -/

/-- The reply that a body goes on from arrives, or is lost. -/
inductive Work.Heard (work : Work) : Work → Prop
  | arrived : Heard work work
  | lost : Heard work (.done (.error message))

inductive BodyStep (job : Uuid) (db : Db) : Body → Answer → Work → Db → List Observation → Prop
  /-- A request failed, was rejected, or returned what the body cannot go on with. -/
  | broke : BodyStep job db body answer (.done (.error message)) db []
  | extracted : BodyStep job db .extracting answer (.more (.upserting transcript)) db []
  | upserted (written : db.upsertTranscript job transcript = .ok next)
      (heard : (Work.done (.ok ())).Heard work) :
      BodyStep job db (.upserting transcript) answer work next
        [.wrote job ((db.job? job).map (·.step))]
  | split (found : db.transcript? job = some transcript) :
      BodyStep job db .chunking answer (Body.chunkTranscript message transcript) db
        [.split job transcript]
  | replaced (replaced : replaceChunks env job chunks db = .ok next)
      (heard : (Work.done (.ok ())).Heard work) :
      BodyStep job db (.replacing chunks) answer work next []
  | listed (found : db.chunksOf job = chunks) (some : chunks ≠ []) :
      BodyStep job db .listing answer (.more (.embedding chunks)) db []
  | embedded (answered :
        embed ((left.take embedBatch).map embeddingInput) response = .ok vectors) :
      BodyStep job db (.embedding left) answer
        (Body.store ((left.take embedBatch).zip vectors) (left.drop embedBatch)) db
        [.embedded ((left.take embedBatch).map embeddingInput) vectors]
  | stored (stored : storeEmbedding chunk.id vector db = .ok next)
      (heard : (Body.store pairs left).Heard work) :
      BodyStep job db (.storing ((chunk, vector) :: pairs) left) answer work next []

theorem BodyStep.rest {job : Uuid} {db : Db} {body : Body} {answer : Answer} {work : Work}
    {next : Db} {observed : List Observation}
    (step : BodyStep job db body answer work next observed) :
    next = { db with
      transcripts := next.transcripts
      chunks := next.chunks
      embeddings := next.embeddings } := by
  cases step with
  | broke | extracted | split | listed | embedded => rfl
  | upserted written => rw [(upsertTranscript_ok written).rest]
  | replaced replaced => rw [replaceChunks_rest replaced]
  | stored stored => rw [storeEmbedding_rest stored]

theorem Body.settle_eq {message : Text} {done work : Work} {db next : Db}
    {result : Except SqlError Db} (settled : settle message done db result = (work, next)) :
    (result = .ok next ∧ work = done) ∨
      (work = .done (.error message) ∧ next = db ∧ result.isOk = false) := by
  cases result with
  | error fault =>
      obtain ⟨rfl, rfl⟩ := Prod.mk.inj settled
      exact .inr ⟨rfl, rfl, rfl⟩
  | ok after =>
      obtain ⟨rfl, rfl⟩ := Prod.mk.inj settled
      exact .inl ⟨rfl, rfl⟩

theorem Body.upsert_cases {message transcript : Text} {done work : Work} {job : Uuid}
    {db next : Db} {observed : List Observation} {answer : Answer}
    (heard : (Work.done (.ok ())).Heard done)
    (taken : upsert message done job transcript db = (work, next, observed)) :
    BodyStep job db (.upserting transcript) answer work next observed := by
  simp only [upsert, Prod.mk.injEq] at taken
  obtain ⟨work_eq, next_eq, observed_eq⟩ := taken
  rcases Body.settle_eq (Prod.ext work_eq next_eq) with ⟨written, rfl⟩ | ⟨rfl, rfl, rejected⟩
  · simp only [written, Except.isOk, Except.toBool, ↓reduceIte] at observed_eq
    exact observed_eq ▸ .upserted written heard
  · simp only [rejected, Bool.false_eq_true, ↓reduceIte] at observed_eq
    exact observed_eq ▸ .broke

theorem BodyStep.of_broke {job : Uuid} {db next : Db} {body : Body} {answer : Answer} {work : Work}
    {observed : List Observation} {message : Text}
    (taken : some (Work.done (.error message), db, []) = some (work, next, observed)) :
    BodyStep job db body answer work next observed := by
  obtain ⟨rfl, rfl, rfl⟩ : _ ∧ _ ∧ _ := by simpa using taken
  exact .broke

theorem Body.settle_cases {job : Uuid} {db next : Db} {body : Body} {answer : Answer}
    {done work : Work} {observed : List Observation} {message : Text}
    {result : Except SqlError Db}
    (wrote : result = .ok next → BodyStep job db body answer done next [])
    (taken : some ((settle message done db result).1, (settle message done db result).2, []) =
      some (work, next, observed)) :
    BodyStep job db body answer work next observed := by
  simp only [Option.some.injEq, Prod.mk.injEq] at taken
  obtain ⟨work_eq, next_eq, rfl⟩ := taken
  rcases Body.settle_eq (Prod.ext work_eq next_eq) with ⟨written, rfl⟩ | ⟨rfl, rfl, _⟩
  · exact wrote written
  · exact .broke

theorem Body.step_cases {job : Uuid} {db : Db} {body : Body} {answer : Answer} {work : Work}
    {next : Db} {observed : List Observation}
    (taken : body.step job db answer = some (work, next, observed)) :
    BodyStep job db body answer work next observed := by
  cases body with
  | extracting =>
      cases answer with
      | extracted document =>
          cases document with
          | error message => exact .of_broke taken
          | ok transcript =>
              obtain ⟨rfl, rfl, rfl⟩ : _ ∧ _ ∧ _ := by simpa [Body.step] using taken
              exact .extracted
      | executed | lost | failed | embedded | edited => simp [Body.step] at taken
  | upserting transcript =>
      cases answer with
      | executed env message => exact Body.upsert_cases .arrived (Option.some.inj taken)
      | lost env message => exact Body.upsert_cases .lost (Option.some.inj taken)
      | failed message => exact .of_broke taken
      | extracted | embedded | edited => simp [Body.step] at taken
  | chunking =>
      cases answer with
      | executed env message =>
          simp only [Body.step] at taken
          cases found : db.transcript? job with
          | none =>
              rw [found] at taken
              exact .of_broke taken
          | some transcript =>
              obtain ⟨rfl, rfl, rfl⟩ : _ ∧ _ ∧ _ := by simpa [found] using taken
              exact .split found
      | lost env message | failed message => exact .of_broke taken
      | extracted | embedded | edited => simp [Body.step] at taken
  | replacing chunks =>
      cases answer with
      | executed env message =>
          exact Body.settle_cases (fun replaced => .replaced replaced .arrived) taken
      | lost env message => exact Body.settle_cases (fun replaced => .replaced replaced .lost) taken
      | failed message => exact .of_broke taken
      | extracted | embedded | edited => simp [Body.step] at taken
  | listing =>
      cases answer with
      | executed env message =>
          simp only [Body.step] at taken
          cases found : db.chunksOf job with
          | nil =>
              rw [found] at taken
              exact .of_broke taken
          | cons first rest =>
              obtain ⟨rfl, rfl, rfl⟩ : _ ∧ _ ∧ _ := by simpa [found] using taken
              exact .listed found (by simp)
      | lost env message | failed message => exact .of_broke taken
      | extracted | embedded | edited => simp [Body.step] at taken
  | embedding left =>
      cases answer with
      | embedded response =>
          simp only [Body.step] at taken
          cases answered : embed ((left.take embedBatch).map embeddingInput) response with
          | error message =>
              rw [answered] at taken
              exact .of_broke taken
          | ok vectors =>
              rw [answered] at taken
              simp only [Option.some.injEq, Prod.mk.injEq] at taken
              obtain ⟨rfl, rfl, rfl⟩ := taken
              exact .embedded answered
      | executed | lost | failed | extracted | edited => simp [Body.step] at taken
  | storing pairs left =>
      cases pairs with
      | nil =>
          cases answer with
          | failed message => exact .of_broke taken
          | executed | lost | extracted | embedded | edited => simp [Body.step] at taken
      | cons pair pairs =>
          obtain ⟨chunk, vector⟩ := pair
          cases answer with
          | executed env message =>
              exact Body.settle_cases (fun stored => .stored stored .arrived) taken
          | lost env message => exact Body.settle_cases (fun stored => .stored stored .lost) taken
          | failed message => exact .of_broke taken
          | extracted | embedded | edited => simp [Body.step] at taken

/-! The body of a step on its own, whatever becomes of its requests. -/

structure Exchange where
  inputs : List Text
  response : Except Text (List (List F32))

structure Attempt where
  work : Work
  db : Db
  exchanges : List Exchange

namespace Attempt

def begin (body : Body) (db : Db) : Attempt := ⟨.more body, db, []⟩

def exchange : Body → Answer → List Exchange
  | .embedding left, .embedded response =>
      [⟨(left.take embedBatch).map embeddingInput, response⟩]
  | _, _ => []

def react (job : Uuid) (attempt : Attempt) (answer : Answer) : Option Attempt :=
  match attempt.work with
  | .more body =>
      (body.step job attempt.db answer).map fun (work, db, _) =>
        ⟨work, db, attempt.exchanges ++ exchange body answer⟩
  | .done _ => none

theorem not_react_done {job : Uuid} {db : Db} {exchanges : List Exchange}
    {outcome : Except Text Unit} {answer : Answer} {next : Attempt} :
    ¬ react job ⟨.done outcome, db, exchanges⟩ answer = some next := by
  rintro ⟨⟩

theorem react_cases {job : Uuid} {body : Body} {db : Db} {exchanges : List Exchange}
    {answer : Answer} {next : Attempt}
    (taken : react job ⟨.more body, db, exchanges⟩ answer = some next) :
    ∃ work after observed, BodyStep job db body answer work after observed ∧
      next = ⟨work, after, exchanges ++ exchange body answer⟩ := by
  obtain ⟨⟨work, after, observed⟩, moved, rfl⟩ := Option.map_eq_some_iff.mp taken
  exact ⟨work, after, observed, Body.step_cases moved, rfl⟩

end Attempt

end Zyndeck
