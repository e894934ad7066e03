import Zyndeck.Db.Invariant

namespace Zyndeck

open Data

/-! Stored runs and the decoder of `status_from_columns`. -/

/-- Every stored run decodes, and pending ones have not started. -/
structure Db.Decodable (db : Db) : Prop where
  complete : ∀ row ∈ db.runs, row.Complete
  pending : ∀ row ∈ db.runs, row.status = .pending → row.startedAt = none

namespace StepRunRow

variable {now : Timestamp} {old new : StepRunRow}

theorem New.complete (inserted : New now new) : new.Complete := by
  rcases inserted.start with ⟨pending, _⟩ | ⟨running, started⟩
  · simp [Complete, pending]
  · simp [Complete, running, started]

theorem New.pending (inserted : New now new) (pending : new.status = .pending) :
    new.startedAt = none := by
  rcases inserted.start with ⟨_, start⟩ | ⟨running, _⟩
  · exact start
  · simp [running] at pending

theorem Evolves.complete (evolved : Evolves now old new) (complete : old.Complete)
    (started : new.status = .aborted → old.status ≠ .pending) : new.Complete := by
  cases evolved with
  | kept => exact complete
  | claimed => simp [Complete, claim]
  | finished running outcome =>
      rw [Complete, running] at complete
      cases outcome with
      | succeeded => exact ⟨complete, rfl⟩
      | failed error => exact ⟨complete, rfl, rfl⟩
  | aborted active =>
      cases status : old.status with
      | pending => exact absurd status (started rfl)
      | running =>
          rw [Complete, status] at complete
          exact ⟨complete, rfl⟩
      | succeeded | failed | aborted => simp [status, RunStatus.isActive] at active

end StepRunRow

section

variable [Isolang]

/-- A call that does not abort a job while its active run is still pending. -/
def SparesPending (db : Db) (call : Call) : Prop :=
  ∀ job, call.operation = .abort job →
    ∀ row ∈ db.runs, row.jobId = job → row.status ≠ .pending

def Db.Unstarted (db : Db) : Prop :=
  ∀ row ∈ db.runs, row.status = .pending → row.startedAt = none

omit [Isolang] in
theorem RunsStep.unstarted {now : Timestamp} {db next : Db}
    (step : RunsStep now db.runs next.runs) (unstarted : db.Unstarted) : next.Unstarted := by
  intro row member isPending
  generalize next.runs = runs at step member
  cases step with
  | evolved evolve each =>
      obtain ⟨old, stored, rfl⟩ := List.mem_map.mp member
      have same := (each old).pending isPending
      rw [same] at isPending ⊢
      exact unstarted old stored isPending
  | appended _ inserted =>
      rcases List.mem_append.mp member with member | member
      · exact unstarted row member isPending
      · exact (List.mem_singleton.mp member ▸ inserted).pending isPending

omit [Isolang] in
theorem RunsStep.decodable {now : Timestamp} {db next : Db}
    (step : RunsStep now db.runs next.runs) (decodable : db.Decodable)
    (complete : ∀ row ∈ next.runs, row.Complete) : next.Decodable where
  complete := complete
  pending := step.unstarted decodable.pending

omit [Isolang] in
theorem complete_updateRuns {now : Timestamp} {db : Db} {hit : StepRunRow → Bool}
    {set : StepRunRow → StepRunRow}
    (each : ∀ row, hit row = true → row.Evolves now (set row))
    (complete : ∀ row ∈ db.runs, row.Complete)
    (started : ∀ row ∈ db.runs, hit row = true → (set row).status = .aborted →
      row.status ≠ .pending) :
    ∀ row ∈ (db.updateRuns hit set).2.runs, row.Complete := by
  intro row member
  rcases mem_updateWhere.mp member with ⟨old, stored, matched, rfl⟩ | ⟨stored, _⟩
  · exact (each old matched).complete (complete old stored) (started old stored matched)
  · exact complete row stored

omit [Isolang] in
theorem complete_append {now : Timestamp} {runs : List StepRunRow} {run : StepRunRow}
    (complete : ∀ row ∈ runs, row.Complete) (inserted : run.New now) :
    ∀ row ∈ runs ++ [run], row.Complete := by
  intro row member
  rcases List.mem_append.mp member with member | member
  · exact complete row member
  · exact List.mem_singleton.mp member ▸ inserted.complete

theorem Effect.decodable {env : Env} {db next : Db} {operation : Operation}
    {result : Except Error Output} (effect : Effect env db operation result next)
    (spares : SparesPending db ⟨env, operation⟩) (decodable : db.Decodable) :
    next.Decodable := by
  refine effect.runsStep.decodable decodable ?_
  have complete := decodable.complete
  cases effect with
  | failed | completed => exact complete
  | started _ inserted => exact complete_append complete (enqueue_new inserted)
  | claimed => exact complete_updateRuns (claim_evolves _ _) complete nofun
  | @finished run outcome =>
      refine complete_updateRuns (finish_evolves _ _ _) complete fun row _ _ aborted => ?_
      cases outcome <;> cases aborted
  | @aborted job =>
      refine complete_updateRuns (abort_evolves _ _) complete fun row member hit _ => ?_
      exact spares job rfl row member (of_decide_eq_true (Bool.and_eq_true_iff.mp hit).1)
  | begun inserted => exact complete_append complete (begin_new inserted)
  | restarted _ _ inserted => exact complete_append complete (enqueue_new inserted)
  | validated _ _ _ _ _ _ inserted => exact complete_append complete (enqueue_new inserted)
  | advanced _ _ _ _ _ _ inserted => exact complete_append complete (begin_new inserted)

/-! What the calls return. -/

def Output.run? : Output → Option IngestionStepRun
  | .started _ value => some value
  | .run value => some value
  | .maybeRun found => found
  | .advanced (.running value) => some value
  | .advanced .completed => none

/-- A call that changes a row returns that row, decoded. -/
def ReturnsChanges (db : Db) (result : Except Error Output) (next : Db) : Prop :=
  ∀ row ∈ next.runs, row ∉ db.runs →
    ∃ run output, row.tryInto = .ok run ∧ result = .ok output ∧ output.run? = some run

theorem returnsChanges_updateRuns {db : Db} {hit : StepRunRow → Bool}
    {set : StepRunRow → StepRunRow}
    (unique : ∀ first ∈ db.runs, ∀ second ∈ db.runs, hit first = true → hit second = true →
      first = second)
    (complete : ∀ row ∈ (db.updateRuns hit set).2.runs, row.Complete) :
    ReturnsChanges db ((decodeRow (db.updateRuns hit set).1).map .maybeRun)
      (db.updateRuns hit set).2 := by
  intro row member changed
  rcases mem_updateWhere.mp member with ⟨old, stored, matched, rfl⟩ | ⟨stored, _⟩
  · obtain ⟨run, decoded, _⟩ := StepRunRow.tryInto_complete (complete _ member)
    have returned : (db.updateRuns hit set).1 = some (set old) :=
      head?_returning stored matched fun other known hits =>
        unique other known old stored hits matched
    exact ⟨run, .maybeRun (some run), decoded, by
      rw [returned, decodeRow, decoded]; rfl, rfl⟩
  · exact absurd stored changed

theorem returnsChanges_append {db next : Db} {run : StepRunRow} {value : IngestionStepRun}
    {output : Output} (whole : next.runs = db.runs ++ [run]) (decoded : run.tryInto = .ok value)
    (returned : output.run? = some value) : ReturnsChanges db (.ok output) next := by
  intro row member changed
  rw [whole] at member
  rcases List.mem_append.mp member with member | member
  · exact absurd member changed
  · exact ⟨value, output, List.mem_singleton.mp member ▸ decoded, rfl, returned⟩

theorem Effect.returnsChanges {env : Env} {db next : Db} {operation : Operation}
    {result : Except Error Output} (effect : Effect env db operation result next)
    (keyed : db.Keyed) (decodable : next.Decodable) : ReturnsChanges db result next := by
  cases effect with
  | failed | completed => exact fun row member changed => absurd member changed
  | started _ _ _ decoded => exact returnsChanges_append rfl decoded rfl
  | claimed =>
      refine returnsChanges_updateRuns (fun first firstMember second secondMember firstHit
        secondHit => ?_) decodable.complete
      simp only [StepRunRow.isPendingOf, Bool.and_eq_true, decide_eq_true_eq] at firstHit secondHit
      exact keyed.oneActive.eq firstMember secondMember
        (firstHit.1.trans secondHit.1.symm) (by rw [firstHit.2]; rfl) (by rw [secondHit.2]; rfl)
  | finished =>
      refine returnsChanges_updateRuns (fun first firstMember second secondMember firstHit
        secondHit => ?_) decodable.complete
      simp only [StepRunRow.isRunningRun, Bool.and_eq_true, decide_eq_true_eq] at firstHit secondHit
      exact List.inj_on_of_nodup_map keyed.runs firstMember secondMember
        (firstHit.1.trans secondHit.1.symm)
  | aborted =>
      refine returnsChanges_updateRuns (fun first firstMember second secondMember firstHit
        secondHit => ?_) decodable.complete
      simp only [StepRunRow.isActiveOf, Bool.and_eq_true, decide_eq_true_eq] at firstHit secondHit
      exact keyed.oneActive.eq firstMember secondMember
        (firstHit.1.trans secondHit.1.symm) firstHit.2 secondHit.2
  | begun inserted =>
      obtain ⟨value, decoded, _⟩ := StepRunRow.tryInto_complete (begin_new inserted).complete
      rw [decoded]
      exact returnsChanges_append rfl decoded rfl
  | restarted _ _ _ decoded => exact returnsChanges_append rfl decoded rfl
  | validated _ _ _ _ _ _ _ decoded => exact returnsChanges_append rfl decoded rfl
  | advanced _ _ _ _ _ _ _ decoded => exact returnsChanges_append rfl decoded rfl

omit [Isolang] in
theorem Db.Decodable.decodes {db : Db} (decodable : db.Decodable) :
    ∀ row ∈ db.runs, ∃ run, row.tryInto = .ok run := by
  intro row member
  obtain ⟨run, decoded, _⟩ := StepRunRow.tryInto_complete (decodable.complete row member)
  exact ⟨run, decoded⟩

theorem decodable_of_reachable {db : Db}
    (reachable : Reachable Db.Initial (Calls SparesPending) db) : db.Decodable := by
  have initially : ∀ db : Db, db.Initial → db.Decodable := fun db initial =>
    ⟨by simp [initial.runs], by simp [initial.runs]⟩
  refine reachable.invariant initially ?_
  rintro db call next decodable ⟨spares, performed⟩
  obtain ⟨_, effect⟩ := performed.effect
  exact effect.decodable spares decodable

/-- Aborting a pending run stores a row that does not decode. -/
theorem spares_of_decodes {db : Db} {call : Call} (decodable : db.Decodable)
    (decodes : ∀ row ∈ (call.operation.exec call.env db).db.runs,
      ∃ run, row.tryInto = .ok run) : SparesPending db call := by
  intro job isAbort row member ofJob pending
  have hit : row.isActiveOf job = true := by
    simp [StepRunRow.isActiveOf, ofJob, pending, RunStatus.isActive]
  have stored : row.abort call.env.now ∈ (call.operation.exec call.env db).db.runs := by
    rw [isAbort]
    exact mem_updateWhere.mpr (.inl ⟨row, member, hit, rfl⟩)
  obtain ⟨run, decoded⟩ := decodes _ stored
  have complete := StepRunRow.complete_of_tryInto_ok decoded
  simp [StepRunRow.Complete, StepRunRow.abort, decodable.pending row member pending] at complete

/-- As long as no call aborts a job whose active run is pending, every stored run
decodes; and the next call keeps it so and returns what it changed exactly when it
does not either. -/
theorem stored_runs_decode {db : Db}
    (reachable : Reachable Db.Initial (Calls SparesPending) db) :
    (∀ row ∈ db.runs, ∃ run, row.tryInto = .ok run) ∧
      ∀ call : Call,
        ((∀ row ∈ (call.operation.exec call.env db).db.runs, ∃ run, row.tryInto = .ok run) ∧
          ReturnsChanges db (call.operation.exec call.env db).result
            (call.operation.exec call.env db).db) ↔ SparesPending db call := by
  have keyed := keyed_of_reachable reachable
  have decodable := decodable_of_reachable reachable
  refine ⟨decodable.decodes, fun call => ⟨fun holds => spares_of_decodes decodable holds.1,
    fun spares => ?_⟩⟩
  have effect := exec_effect call.env call.operation db
  have later := effect.decodable spares decodable
  exact ⟨later.decodes, effect.returnsChanges keyed later⟩

end

section

attribute [local instance] english

instance (db : Db) (call : Call) : Decidable (SparesPending db call) :=
  match call with
  | ⟨_, .abort job⟩ =>
      decidable_of_iff (∀ row ∈ db.runs, row.jobId = job → row.status ≠ .pending)
        ⟨fun spares _ same => Operation.abort.inj same ▸ spares, fun spares => spares job rfl⟩
  | ⟨_, .start _⟩ | ⟨_, .claim _⟩ | ⟨_, .finish _ _⟩ | ⟨_, .begin _ _⟩ | ⟨_, .restart _⟩
  | ⟨_, .validate _⟩ | ⟨_, .continue _⟩ => isTrue nofun

theorem stored_runs_decode_aborted :
    (after SparesPending catalog
        [tick 1 (.start rulebook), tick 2 (.claim firstJob), tick 3 (.abort firstJob)]).runs.map
          (·.status) = [.aborted] ∧
      ∀ row ∈ (after SparesPending catalog
        [tick 1 (.start rulebook), tick 2 (.claim firstJob), tick 3 (.abort firstJob)]).runs,
        ∃ run, row.tryInto = .ok run :=
  ⟨by decide, (stored_runs_decode (reachable_after catalog_initial (by decide))).1⟩

/-- Aborting a run that nobody has claimed commits, fails to return the run, and
leaves a row that no query can read. -/
theorem aborted_while_pending :
    (¬ ∀ db, Reachable Db.Initial (Calls fun _ _ => True) db →
        ∀ row ∈ db.runs, ∃ run, row.tryInto = .ok run) ∧
      ¬ ∀ db, Reachable Db.Initial (Calls fun _ _ => True) db → ∀ call : Call,
        ReturnsChanges db (call.operation.exec call.env db).result
          (call.operation.exec call.env db).db := by
  constructor
  · intro decodes
    have aborted : Reachable Db.Initial (Calls fun _ _ => True)
        (after (fun _ _ => True) catalog [tick 1 (.start rulebook), tick 2 (.abort firstJob)]) :=
      reachable_after catalog_initial (by decide)
    have corrupt : (after (fun _ _ => True) catalog
        [tick 1 (.start rulebook), tick 2 (.abort firstJob)]).runs.any
          (·.tryInto = .error (.invalidStepRunStatus "aborted")) = true := by decide
    obtain ⟨row, member, failed⟩ := List.any_eq_true.mp corrupt
    obtain ⟨run, decoded⟩ := decodes _ aborted row member
    simp [decoded] at failed
  · intro returns
    let db := after (fun _ _ => True) catalog [tick 1 (.start rulebook)]
    let call := tick 2 (.abort firstJob)
    have started : Reachable Db.Initial (Calls fun _ _ => True) db :=
      reachable_after catalog_initial (by decide)
    have changed : ∃ row ∈ (call.operation.exec call.env db).db.runs, row ∉ db.runs := by decide
    have failed : (call.operation.exec call.env db).result =
        .error (.invalidStepRunStatus "aborted") := rfl
    obtain ⟨row, member, fresh⟩ := changed
    obtain ⟨_, output, _, succeeded, _⟩ := returns db started call row member fresh
    rw [failed] at succeeded
    contradiction

end

end Zyndeck
