import Zyndeck.Ingester.Attempt

namespace Zyndeck

variable [Isolang]

/-! `ingestion edit`, from one request to the next. -/

inductive Edit where
  | checking (job : Uuid)
  | reading (job : Uuid)
  | editing (job : Uuid) (original : Text)
  | saving (job : Uuid) (edited : Text)
  deriving DecidableEq

namespace Edit

def job : Edit → Uuid
  | .checking job | .reading job | .editing job _ | .saving job _ => job

/-- What a session does next, the tables, and what happened; no session is left once
it has ended. -/
def step (db : Db) : Edit → Answer → Option (Option Edit × Db × List Observation)
  | .checking job, .executed _ _ =>
      match Phase.load job db with
      | none => some (none, db, [])
      | some found => some (if found.step ≠ .extract then none else some (.reading job), db, [])
  | .reading job, .executed _ _ => some ((db.transcript? job).map (.editing job), db, [])
  | .editing job original, .edited (some edited) =>
      some (if edited = original then none else some (.saving job edited), db, [])
  | .editing _ _, .edited none => some (none, db, [])
  | .saving job edited, .executed _ message | .saving job edited, .lost _ message =>
      some (none, (Body.upsert message (.done (.ok ())) job edited db).2)
  | .checking _, .failed _ | .reading _, .failed _ | .saving _ _, .failed _
  | .checking _, .lost _ _ | .reading _, .lost _ _ => some (none, db, [])
  | _, _ => none

end Edit

inductive EditStep (db : Db) : Edit → Answer → Option Edit → Db → List Observation → Prop
  | ended : EditStep db session answer none db []
  | checked (found : Phase.load job db = some row) (step : row.step = .extract) :
      EditStep db (.checking job) answer (some (.reading job)) db []
  | read (found : db.transcript? job = some original) :
      EditStep db (.reading job) answer (some (.editing job original)) db []
  | changed (different : edited ≠ original) :
      EditStep db (.editing job original) answer (some (.saving job edited)) db []
  | saved (written : db.upsertTranscript job edited = .ok next)
      (executed : answer.env?.isSome = true) :
      EditStep db (.saving job edited) answer none next
        [.wrote job ((db.job? job).map (·.step))]

theorem Edit.step_cases {db next : Db} {session : Edit} {answer : Answer} {later : Option Edit}
    {observed : List Observation} (taken : session.step db answer = some (later, next, observed)) :
    EditStep db session answer later next observed := by
  cases session with
  | checking job =>
      cases answer with
      | executed env message =>
          simp only [Edit.step] at taken
          split at taken
          · obtain ⟨rfl, rfl, rfl⟩ : _ ∧ _ ∧ _ := by simpa using taken
            exact .ended
          · rename_i row found
            simp only [Option.some.injEq, Prod.mk.injEq] at taken
            obtain ⟨rfl, rfl, rfl⟩ := taken
            split
            · exact .ended
            · exact .checked found (Classical.not_not.mp ‹_›)
      | lost | failed =>
          obtain ⟨rfl, rfl, rfl⟩ : _ ∧ _ ∧ _ := by simpa [Edit.step] using taken
          exact .ended
      | extracted | embedded | edited => simp [Edit.step] at taken
  | reading job =>
      cases answer with
      | executed env message =>
          simp only [Edit.step, Option.some.injEq, Prod.mk.injEq] at taken
          obtain ⟨rfl, rfl, rfl⟩ := taken
          cases found : db.transcript? job with
          | none => exact .ended
          | some original => exact .read found
      | lost | failed =>
          obtain ⟨rfl, rfl, rfl⟩ : _ ∧ _ ∧ _ := by simpa [Edit.step] using taken
          exact .ended
      | extracted | embedded | edited => simp [Edit.step] at taken
  | editing job original =>
      cases answer with
      | edited result =>
          cases result with
          | none =>
              obtain ⟨rfl, rfl, rfl⟩ : _ ∧ _ ∧ _ := by simpa [Edit.step] using taken
              exact .ended
          | some edited =>
              simp only [Edit.step, Option.some.injEq, Prod.mk.injEq] at taken
              obtain ⟨rfl, rfl, rfl⟩ := taken
              split
              · exact .ended
              · exact .changed ‹_›
      | executed | lost | failed | extracted | embedded => simp [Edit.step] at taken
  | saving job edited =>
      cases answer with
      | executed env message | lost env message =>
          simp only [Edit.step, Option.some.injEq, Prod.mk.injEq] at taken
          obtain ⟨rfl, saved⟩ := taken
          generalize upserted : Body.upsert message (.done (.ok ())) job edited db = ended at saved
          obtain ⟨work, after, logged⟩ := ended
          obtain ⟨rfl, rfl⟩ := Prod.mk.inj saved
          have step : BodyStep job db (.upserting edited) (.executed env message) work after
              logged :=
            Body.upsert_cases .arrived upserted
          cases step with
          | broke => exact .ended
          | upserted written => exact .saved written rfl
      | failed message =>
          obtain ⟨rfl, rfl, rfl⟩ : _ ∧ _ ∧ _ := by simpa [Edit.step] using taken
          exact .ended
      | extracted | embedded | edited => simp [Edit.step] at taken

theorem EditStep.rest {db next : Db} {session : Edit} {answer : Answer} {later : Option Edit}
    {observed : List Observation} (step : EditStep db session answer later next observed) :
    next = { db with transcripts := next.transcripts } := by
  cases step with
  | ended | checked | read | changed => rfl
  | saved written => exact (upsertTranscript_ok written).rest

theorem EditStep.same {db next : Db} {session : Edit} {answer : Answer} {later : Option Edit}
    {observed : List Observation} (step : EditStep db session answer later next observed) :
    db.SamePipeline next := by
  rw [step.rest]
  exact ⟨rfl, rfl⟩

end Zyndeck
