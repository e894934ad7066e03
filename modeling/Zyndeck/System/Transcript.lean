import Zyndeck.System.Body

namespace Zyndeck

open Data

/-! The transcript of a job, and when it is final. -/

theorem transcript?_eq {db next : Db} (same : next.transcripts = db.transcripts) (job : Uuid) :
    next.transcript? job = db.transcript? job := by
  rw [Db.transcript?, Db.transcript?, same]

theorem BodyStep.transcripts {job : Uuid} {db next : Db} {body : Body} {answer : Answer}
    {work : Work} {observed : List Observation}
    (step : BodyStep job db body answer work next observed)
    (other : body.ofStep ≠ .extract) : next.transcripts = db.transcripts := by
  cases step with
  | broke | split | listed | embedded => rfl
  | extracted | upserted => exact absurd rfl other
  | replaced replaced => rw [replaceChunks_rest replaced]
  | stored stored => rw [storeEmbedding_rest stored]

section

variable [Isolang]

theorem Effect.transcripts {env : Env} {db next : Db} {operation : Operation}
    {result : Except Error Output} (effect : Effect env db operation result next) :
    next.transcripts = db.transcripts := by
  cases effect <;> rfl

theorem Effect.past {env : Env} {db next : Db} {operation : Operation}
    {result : Except Error Output} (effect : Effect env db operation result next)
    (referenced : db.Referenced) (pipeline : operation.isBegin = false) {job : Uuid}
    {later : History} (known : next.history job = some later) (past : later.step ≠ .extract) :
    (∃ old, db.history job = some old ∧ old.step ≠ .extract) ∨
      operation = .validate job ∧ ∃ output, result = .ok output := by
  have progress := effect.progress_of_pipeline referenced pipeline job
  cases before : db.history job with
  | none =>
      rw [before, known] at progress
      cases progress
      exact absurd rfl past
  | some old =>
      by_cases already : old.step = .extract
      · rw [before, known] at progress
        cases progress with
        | stepped _ gate =>
            have validates := gate already past
            refine .inr ⟨validates, ?_⟩
            subst validates
            cases effect with
            | failed =>
                obtain rfl := Option.some.inj (before.symm.trans known)
                exact absurd already past
            | validated => exact ⟨_, rfl⟩
      · exact .inl ⟨old, rfl, already⟩

theorem Effect.still_past {env : Env} {db next : Db} {operation : Operation}
    {result : Except Error Output} (effect : Effect env db operation result next)
    (referenced : db.Referenced) (pipeline : operation.isBegin = false) {job : Uuid}
    {old : History} (known : db.history job = some old) (past : old.step ≠ .extract) :
    ∃ later, next.history job = some later ∧ later.step ≠ .extract := by
  have progress := effect.progress_of_pipeline referenced pipeline job
  rw [known] at progress
  generalize next.history job = found at progress
  cases progress with
  | stepped step =>
      refine ⟨_, rfl, ?_⟩
      cases step with
      | evolved => exact past
      | restarted | validated => exact absurd rfl past
      | advanced | completed => simp

theorem Effect.validated_past {env : Env} {db next : Db} {job : Uuid} {output : Output}
    (effect : Effect env db (.validate job) (.ok output) next) :
    ∃ later, next.history job = some later ∧ later.step ≠ .extract := by
  cases effect with
  | validated found _ _ _ _ _ inserted =>
      rw [Db.history_insertRun, Db.history_setStep, Db.history_of_found found]
      refine ⟨_, rfl, ?_⟩
      simp [insertRun_jobId inserted]

/-! The log of a job's transcript. -/

/-- What is recorded of transcripts, and what it says about the tables. -/
structure System.Reviewed (system : System) : Prop where
  wrote : ∀ job step, .wrote job step ∈ system.log → step = some .extract
  validated : ∀ job text, .validated job text ∈ system.log →
    system.db.transcript? job = text ∧
      ∃ history, system.db.history job = some history ∧ history.step ≠ .extract
  past : ∀ job history, system.db.history job = some history → history.step ≠ .extract →
    ∃ text, .validated job text ∈ system.log
  split : ∀ job text, .split job text ∈ system.log → .validated job (some text) ∈ system.log

theorem System.Reviewed.grow {system next : System} {added : List Observation}
    (reviewed : system.Reviewed) (log_eq : next.log = system.log ++ added)
    (kept : ∀ job text, .validated job text ∈ system.log →
      next.db.transcript? job = system.db.transcript? job)
    (still : ∀ job old, system.db.history job = some old → old.step ≠ .extract →
      ∃ later, next.db.history job = some later ∧ later.step ≠ .extract)
    (past : ∀ job later, next.db.history job = some later → later.step ≠ .extract →
      (∃ old, system.db.history job = some old ∧ old.step ≠ .extract) ∨
        ∃ text, .validated job text ∈ added)
    (wrote : ∀ job step, .wrote job step ∈ added → step = some .extract)
    (validated : ∀ job text, .validated job text ∈ added →
      next.db.transcript? job = text ∧
        ∃ later, next.db.history job = some later ∧ later.step ≠ .extract)
    (split : ∀ job text, .split job text ∈ added → .validated job (some text) ∈ system.log) :
    next.Reviewed := by
  refine ⟨fun job step member => ?_, fun job text member => ?_, fun job later known gone => ?_,
    fun job text member => ?_⟩ <;> rw [log_eq] at *
  · rcases List.mem_append.mp member with member | member
    · exact reviewed.wrote job step member
    · exact wrote job step member
  · rcases List.mem_append.mp member with member | member
    · obtain ⟨same, old, known, gone⟩ := reviewed.validated job text member
      exact ⟨(kept job text member).trans same, still job old known gone⟩
    · exact validated job text member
  · rcases past job later known gone with ⟨old, before, already⟩ | ⟨text, member⟩
    · obtain ⟨text, member⟩ := reviewed.past job old before already
      exact ⟨text, List.mem_append_left _ member⟩
    · exact ⟨text, List.mem_append_right _ member⟩
  · rcases List.mem_append.mp member with member | member
    · exact List.mem_append_left _ (reviewed.split job text member)
    · exact List.mem_append_left _ (split job text member)

theorem System.Reviewed.of_same {system next : System} {added : List Observation}
    (reviewed : system.Reviewed) (log_eq : next.log = system.log ++ added)
    (same : system.db.SamePipeline next.db)
    (kept : ∀ job text, .validated job text ∈ system.log →
      next.db.transcript? job = system.db.transcript? job)
    (wrote : ∀ job step, .wrote job step ∈ added → step = some .extract)
    (validated : ∀ job text, .validated job text ∉ added)
    (split : ∀ job text, .split job text ∈ added → .validated job (some text) ∈ system.log) :
    next.Reviewed :=
  reviewed.grow log_eq kept
    (fun job old known gone => ⟨old, (same.history job).trans known, gone⟩)
    (fun job later known gone => .inl ⟨later, (same.history job).symm.trans known, gone⟩) wrote
    (fun job text member => absurd member (validated job text)) split

theorem System.Reviewed.onExtract {system : System} (reviewed : system.Reviewed) {job : Uuid}
    (found : (system.db.job? job).isSome)
    (unvalidated : ∀ text, .validated job text ∉ system.log) :
    (system.db.job? job).map (·.step) = some .extract := by
  obtain ⟨row, isRow⟩ := Option.isSome_iff_exists.mp found
  rw [isRow, Option.map_some]
  refine congrArg some (Classical.byContradiction fun past => ?_)
  obtain ⟨text, member⟩ := reviewed.past job _ (Db.history_of_found isRow) past
  exact unvalidated text member

theorem System.Reviewed.unvalidated {system : System} (reviewed : system.Reviewed) {job : Uuid}
    {row : JobRow} (found : system.db.job? job = some row) (onExtract : row.step = .extract) :
    ∀ text, .validated job text ∉ system.log := by
  intro text member
  obtain ⟨_, history, known, gone⟩ := reviewed.validated job text member
  rw [Db.history_of_found found] at known
  obtain rfl := Option.some.inj known
  exact gone onExtract

theorem System.Reviewed.of_upsert {system next : System} (reviewed : system.Reviewed)
    {job : Uuid} {content : Text}
    (log_eq : next.log = system.log ++ [.wrote job ((system.db.job? job).map (·.step))])
    (written : system.db.upsertTranscript job content = .ok next.db)
    (unvalidated : ∀ text, .validated job text ∉ system.log) : next.Reviewed := by
  refine reviewed.of_same log_eq (upsertTranscript_ok written).same (fun other text member => ?_)
    (fun other step member => ?_) (by simp) (by simp)
  · refine (upsertTranscript_ok written).others _ ?_
    rintro rfl
    exact unvalidated text member
  · obtain ⟨rfl, rfl⟩ := Observation.wrote.inj (List.mem_singleton.mp member)
    exact reviewed.onExtract (upsertTranscript_ok written).known unvalidated

/-- No transcript is saved from an editor once its job is validated, and no run is
aborted. -/
structure System.EditsInTime (system : System) (event : Event) : Prop where
  unaborted : event.isAbort = false
  save : ∀ session answer job edited, event = .edit session answer → answer.env?.isSome = true →
    system.edits session = some (.saving job edited) → ∀ text, .validated job text ∉ system.log

theorem PhaseStep.reviewed {system : System} {service : Nat} {task : Task}
    (sane : system.Sane) (bodies : system.Bodies) (reviewed : system.Reviewed)
    (working : system.task? service = some task) {answer : Answer} {result : Moved}
    (step : PhaseStep task.drive system.db task.phase answer result) :
    (system.moved service task result).Reviewed := by
  have referenced := sane.shaped.referenced
  obtain ⟨drive, phase⟩ := task
  have still : ∀ job old, system.db.history job = some old → old.step ≠ .extract →
      ∃ later, result.db.history job = some later ∧ later.step ≠ .extract := by
    intro job old known gone
    rcases step.pipeline with same | ⟨_, _, _, effect, issues, _⟩
    · exact ⟨old, (same.history job).trans known, gone⟩
    · exact effect.still_past referenced issues.isBegin known gone
  have past : ∀ job later, result.db.history job = some later → later.step ≠ .extract →
      ∃ old, system.db.history job = some old ∧ old.step ≠ .extract := by
    intro job later known gone
    rcases step.pipeline with same | ⟨_, _, _, effect, issues, _⟩
    · exact ⟨later, (same.history job).symm.trans known, gone⟩
    · rcases effect.past referenced issues.isBegin known gone with before | ⟨validates, _⟩
      · exact before
      · exact absurd validates (issues.ne_validate job)
  have silent : (∀ observed ∈ result.observed, observed.drive?.isSome) →
      result.db.transcripts = system.db.transcripts →
      (system.moved service ⟨drive, phase⟩ result).Reviewed := by
    intro ofDrive same
    refine reviewed.grow rfl (fun job _ _ => transcript?_eq same job) still
      (fun job later known gone => .inl (past job later known gone)) ?_ ?_ ?_ <;>
      exact fun _ _ member => absurd (ofDrive _ member) (by simp [Observation.drive?])
  cases step with
  | vanished | failed | entered => exact silent (by simp [Observation.drive?]) rfl
  | claimed | unclaimed | finished | unfinished | advanced | stopped | dropped =>
      exact silent (by simp [Observation.drive?]) (exec_effect ..).transcripts
  | worked step =>
      have holds : system.Holds service _ _ := ⟨working, rfl⟩
      obtain ⟨running, proper⟩ := bodies _ _ _ _ (System.body?_eq_some.mpr ⟨_, _, working, rfl⟩)
      obtain ⟨row, found⟩ := sane.shaped.found_of_running running (sane.stored _ _ _ holds).1
      have onStep := sane.shaped.step_of_running running (sane.stored _ _ _ holds).1 found
      have same := step.same
      have whole := step
      cases step with
      | broke | extracted | listed | embedded =>
          exact reviewed.of_same rfl same (fun _ _ _ => rfl) (by simp) (by simp) (by simp)
      | replaced | stored =>
          exact reviewed.of_same rfl same
            (fun job _ _ => transcript?_eq (whole.transcripts (by simp [Body.ofStep])) job)
            (by simp) (by simp) (by simp)
      | upserted written =>
          -- Nobody can have validated the job: its `extract` run is running.
          exact reviewed.of_upsert rfl written
            (reviewed.unvalidated found (onStep.trans proper.symm))
      | split stored =>
          refine reviewed.of_same rfl same (fun _ _ _ => rfl) (by simp) (by simp)
            fun job text member => ?_
          obtain ⟨rfl, rfl⟩ := Observation.split.inj (List.mem_singleton.mp member)
          have gone : row.step ≠ .extract := by
            rw [onStep, ← proper]
            exact nofun
          obtain ⟨text, member⟩ := reviewed.past _ _ (Db.history_of_found found) gone
          obtain ⟨same, _⟩ := reviewed.validated _ text member
          obtain rfl : text = some _ := same.symm.trans stored
          exact member

theorem Took.reviewed {system next : System} {event : Event} (took : Took system event next)
    (sane : system.Sane) (bodies : system.Bodies) (inTime : system.EditsInTime event)
    (reviewed : system.Reviewed) : next.Reviewed := by
  have unlogged : system.log = system.log ++ [] := (List.append_nil _).symm
  have still : ∀ job old, system.db.history job = some old → old.step ≠ .extract →
      ∃ later, system.db.history job = some later ∧ later.step ≠ .extract :=
    fun job old known gone => ⟨old, known, gone⟩
  cases took with
  | @called env operation byOperator =>
      have pipeline := (Operation.pipeline_of_byOperator byOperator).1
      have referenced := sane.shaped.referenced
      have effect := exec_effect env operation system.db
      have observed : ∀ observed ∈ System.observeCall operation (operation.exec env system.db)
          system.db, ∃ job output, operation = .validate job ∧
            (operation.exec env system.db).result = .ok output ∧
            observed = .validated job (system.db.transcript? job) := by
        intro observed member
        simp only [System.observeCall] at member
        split at member
        · exact ⟨_, _, rfl, ‹_›, List.mem_singleton.mp member⟩
        · simp at member
      refine reviewed.grow rfl (fun job text _ => transcript?_eq effect.transcripts job)
        (fun job old => effect.still_past referenced pipeline) (fun job later known gone => ?_)
        (fun job step member => ?_) (fun job text member => ?_) (fun job text member => ?_)
      · rcases effect.past referenced pipeline known gone with before | ⟨rfl, output, returned⟩
        · exact .inl before
        · exact .inr ⟨system.db.transcript? job, by simp [System.observeCall, returned]⟩
      · obtain ⟨_, _, _, _, same⟩ := observed _ member
        contradiction
      · obtain ⟨_, _, rfl, returned, same⟩ := observed _ member
        obtain ⟨rfl, rfl⟩ := Observation.validated.inj same
        rw [returned] at effect
        exact ⟨transcript?_eq effect.transcripts job, effect.validated_past⟩
      · obtain ⟨_, _, _, _, same⟩ := observed _ member
        contradiction
  | moved working step => exact step.reviewed sane bodies reviewed working
  | processed | switched | crashed | seated =>
      exact reviewed.grow unlogged (fun _ _ _ => rfl) still (fun job later known gone =>
        .inl ⟨later, known, gone⟩) (by simp) (by simp) (by simp)
  | edited working step =>
      have same := step.same
      cases step with
      | ended | checked | read | changed =>
          exact reviewed.of_same rfl same (fun _ _ _ => rfl) (by simp) (by simp) (by simp)
      | saved written executed =>
          exact reviewed.of_upsert rfl written (inTime.save _ _ _ _ rfl executed working)

/-- What holds of transcripts: a job that is past `extract` keeps its own, and
the text that is split is the one that was validated. -/
structure System.Final (system : System) : Prop where
  wrote : ∀ job step, .wrote job step ∈ system.log → step = some .extract
  split : ∀ job text, .split job text ∈ system.log →
    .validated job (some text) ∈ system.log ∧
      ∀ other, .validated job other ∈ system.log → other = some text

theorem reviewed_of_reachable {system : System}
    (reachable : Reachable System.Initial (System.Events System.EditsInTime) system) :
    system.Reviewed := by
  have bodies : ∀ state, Reachable System.Initial (System.Events System.EditsInTime) state →
      state.Bodies := fun state reachable =>
    bodies_of_reachable (fun _ _ spares => spares)
      (reachable_sparing (fun _ _ inTime => inTime.unaborted) reachable)
  refine reachable.invariant_over
    (fun state reachable => (⟨System.sane_of_reachable reachable, bodies state reachable⟩ :
      state.Sane ∧ state.Bodies)) (fun start initial => ?_) ?_
  · refine ⟨?_, ?_, ?_, ?_⟩ <;> simp [initial.log, initial.db.history]
  · rintro state event next ⟨sane, bodies⟩ _ reviewed ⟨inTime, taken⟩
    exact (System.step?_cases taken).reviewed sane bodies inTime reviewed

/-- A validated transcript is final as long as no editor saves it. -/
theorem transcript_final {system : System}
    (reachable : Reachable System.Initial (System.Events System.EditsInTime) system) :
    system.Final := by
  have reviewed := reviewed_of_reachable reachable
  refine ⟨reviewed.wrote, fun job text member => ?_⟩
  have validated := reviewed.split job text member
  obtain ⟨same, _⟩ := reviewed.validated job _ validated
  refine ⟨validated, fun other also => ?_⟩
  exact (reviewed.validated job other also).1.symm.trans same

end

section

attribute [local instance] english

def editRequest (now : Nat) : Event :=
  .edit 0 (.executed (tick now (.claim firstJob)).env [])

def opened : List Event := [.open 0 firstJob, editRequest 6, editRequest 6]

def editsInTime (system : System) (event : Event) : Bool :=
  !event.isAbort &&
    match event with
    | .edit session answer =>
        match system.edits session, answer.env? with
        | some (.saving job _), some _ => system.log.all fun
            | .validated other _ => decide (other ≠ job)
            | _ => true
        | _, _ => true
    | _ => true

theorem editsInTime_sound (system : System) (event : Event)
    (holds : editsInTime system event = true) : system.EditsInTime event where
  unaborted := by simpa using (Bool.and_eq_true_iff.mp holds).1
  save session answer job edited saves executed working text member := by
    have ok := (Bool.and_eq_true_iff.mp holds).2
    obtain ⟨env, isEnv⟩ := Option.isSome_iff_exists.mp executed
    rw [saves] at ok
    simp only [working, isEnv] at ok
    simpa using List.all_eq_true.mp ok _ member

theorem transcript_final_after_edit :
    let system := System.after editsInTime deployment
      (toReview ++ opened ++ [.edit 0 (.edited (some ['y'])), editRequest 6] ++ toEmbedded)
    .split firstJob ['y'] ∈ system.log ∧ system.Final :=
  ⟨by decide +kernel, transcript_final
    (System.reachable_after editsInTime_sound deployment_initial (by decide +kernel))⟩

/-- An editor that was open while the job was validated saves afterwards. -/
def savedLate : List Event :=
  toReview ++ opened ++ [byOperator 7 (.validate firstJob), .edit 0 (.edited (some ['y'])),
    editRequest 8]

theorem transcript_not_final :
    ¬ ∀ system : System,
      Reachable System.Initial (System.Events fun _ event => event.isAbort = false) system →
        system.Final := by
  intro all
  have reaches : Reachable System.Initial (System.Events fun _ event => event.isAbort = false)
      (System.after (fun _ event => !event.isAbort) deployment savedLate) :=
    System.reachable_after (by simp) deployment_initial (by decide +kernel)
  have wrote : .wrote firstJob (some .chunk) ∈
      (System.after (fun _ event => !event.isAbort) deployment savedLate).log := by
    decide +kernel
  exact absurd ((all _ reaches).wrote _ _ wrote) (by decide)

end

end Zyndeck
