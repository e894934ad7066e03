import Zyndeck.System.Transcript

namespace Zyndeck

open Data

/-! What an edit session writes over. -/

theorem upsertTranscript_isOk {db : Db} {job : Uuid} {content : Text}
    (text : storable content = true) (known : (db.job? job).isSome = true) :
    ∃ next, db.upsertTranscript job content = .ok next := by
  have found : (db.job? job).isNone = false := Option.isNone_eq_false_iff.mpr known
  rw [Db.upsertTranscript, text, found]
  simp only [Bool.not_true, Bool.false_eq_true, ↓reduceIte]
  split <;> exact ⟨_, rfl⟩

section

variable [Isolang]

/-- The log has a record for each transcript that is not what it was. -/
def System.Recorded (system next : System) : Prop :=
  ∃ added, next.log = system.log ++ added ∧ ∀ job, (∀ step, .wrote job step ∉ added) →
    next.db.transcript? job = system.db.transcript? job

theorem System.Recorded.of_same {system next : System} {added : List Observation}
    (log : next.log = system.log ++ added) (same : next.db.transcripts = system.db.transcripts) :
    system.Recorded next :=
  ⟨added, log, fun job _ => transcript?_eq same job⟩

theorem System.Recorded.of_upsert {system next : System} {added : List Observation} {job : Uuid}
    {step : Option IngestionStep} {content : Text} (log : next.log = system.log ++ added)
    (logged : .wrote job step ∈ added)
    (written : system.db.upsertTranscript job content = .ok next.db) : system.Recorded next := by
  refine ⟨added, log, fun other quiet => (upsertTranscript_ok written).others _ ?_⟩
  rintro rfl
  exact quiet step logged

theorem System.Recorded.trans {first second third : System} (recorded : first.Recorded second)
    (later : second.Recorded third) : first.Recorded third := by
  obtain ⟨added, log, kept⟩ := recorded
  obtain ⟨more, laterLog, laterKept⟩ := later
  refine ⟨added ++ more, by rw [laterLog, log, List.append_assoc], fun job quiet => ?_⟩
  rw [laterKept job fun step member => quiet step (List.mem_append_right _ member),
    kept job fun step member => quiet step (List.mem_append_left _ member)]

theorem Took.recorded {system next : System} {event : Event} (took : Took system event next) :
    system.Recorded next := by
  have unlogged : system.log = system.log ++ [] := (List.append_nil _).symm
  cases took with
  | called => exact .of_same rfl (exec_effect ..).transcripts
  | moved working step =>
      generalize phase_eq : Task.phase _ = phase at step
      cases step with
      | vanished | failed | entered => exact .of_same rfl rfl
      | claimed | unclaimed | finished | unfinished | advanced | stopped | dropped =>
          exact .of_same rfl (exec_effect ..).transcripts
      | worked step =>
          have whole := step
          cases step with
          | broke | extracted | listed | embedded | split => exact .of_same rfl rfl
          | replaced | stored => exact .of_same rfl (whole.transcripts (by simp [Body.ofStep]))
          | upserted written => exact .of_upsert rfl (List.mem_singleton_self _) written
  | processed | switched | crashed | seated => exact .of_same unlogged rfl
  | edited _ step =>
      cases step with
      | ended | checked | read | changed => exact .of_same rfl rfl
      | saved written => exact .of_upsert rfl (List.mem_singleton_self _) written

theorem System.edits_of_step {system next : System} {event : Event}
    (taken : system.step? event = some next) (session : Nat) :
    next.edits session = system.edits session ∨ (∃ job, event = .open session job) ∨
      event = .quit session ∧ next.edits session = none ∨
      ∃ answer state later observed, event = .edit session answer ∧
        system.edits session = some state ∧ next.edits session = later ∧
        EditStep system.db state answer later next.db observed := by
  by_cases quits : event = .quit session
  · subst quits
    obtain rfl := Option.some.inj taken
    exact .inr (.inr (.inl ⟨rfl, Function.update_self ..⟩))
  cases System.step?_cases taken with
  | called | moved | processed | switched | crashed => exact .inl rfl
  | seated _ event_eq =>
      rename_i _ number _
      by_cases same : session = number
      · subst same
        exact .inr (.inl (event_eq.resolve_right quits))
      · exact .inl (Function.update_of_ne same ..)
  | edited working step =>
      rename_i number _ _ _ _ _
      by_cases same : session = number
      · subst same
        exact .inr (.inr (.inr ⟨_, _, _, _, rfl, working, Function.update_self .., step⟩))
      · exact .inl (Function.update_of_ne same ..)

/-! Sessions and the text they were opened on. -/

/-- The session read a text, and has not ended and been opened anew since. -/
structure System.OpenedOn (session : Nat) (job : Uuid) (original : Text) (middle : System)
    (events : List Event) (system : System) : Prop where
  read : ∃ (before : System) (answer : Answer), before.edits session = some (.reading job) ∧
    before.step? (.edit session answer) = some middle
  opened : middle.edits session = some (.editing job original)
  run : Run (Steps System.step?) middle events system
  unopened : ∀ other, .open session other ∉ events

variable {session : Nat} {job : Uuid} {original : Text} {middle system next : System}
  {events : List Event}

/-- A session that was opened on a text has its editor open, is about to save another
text, or has ended. -/
inductive System.Since (session : Nat) (job : Uuid) (original : Text) (system : System) : Prop
  | editing : system.edits session = some (.editing job original) →
      Since session job original system
  | saving : edited ≠ original → system.edits session = some (.saving job edited) →
      Since session job original system
  | ended : system.edits session = none → Since session job original system

theorem System.Since.step (since : system.Since session job original) {event : Event}
    (unopened : ∀ other, event ≠ .open session other) (taken : system.step? event = some next) :
    next.Since session job original := by
  rcases System.edits_of_step taken session with
    same | ⟨other, opens⟩ | ⟨_, quits⟩ | ⟨answer, state, later, observed, _, working, became, step⟩
  · cases since with
    | editing working => exact .editing (same.trans working)
    | saving different working => exact .saving different (same.trans working)
    | ended gone => exact .ended (same.trans gone)
  · exact absurd opens (unopened other)
  · exact .ended quits
  · generalize next.db = db at step
    cases step with
    | ended | saved => exact .ended became
    | checked | read => cases since <;> simp_all
    | changed different =>
        cases since with
        | editing isOpen =>
            obtain ⟨rfl, rfl⟩ := Edit.editing.inj (Option.some.inj (isOpen.symm.trans working))
            exact .saving different became
        | saving _ isSaving => simp [isSaving] at working
        | ended gone => simp [gone] at working

theorem System.OpenedOn.since (opened : System.OpenedOn session job original middle events system) :
    system.Since session job original := by
  obtain ⟨_, isOpen, run, unopened⟩ := opened
  induction run with
  | nil => exact .editing isOpen
  | snoc _ taken induction =>
      refine (induction fun other member => unopened other (by simp [member])).step ?_ taken
      exact fun other same => unopened other (by simp [same])

theorem System.ended_of_run (ended : middle.edits session = none)
    (run : Run (Steps System.step?) middle events system)
    (unopened : ∀ other, .open session other ∉ events) : system.edits session = none := by
  induction run with
  | nil => exact ended
  | snoc _ taken induction =>
      have still := induction fun other member => unopened other (by simp [member])
      rcases System.edits_of_step taken session with
        same | ⟨other, opens⟩ | ⟨_, quits⟩ | ⟨_, _, _, _, _, working, _⟩
      · exact same.trans still
      · exact absurd (by simp [opens]) (unopened other)
      · exact quits
      · rw [still] at working
        contradiction

theorem System.edit_cases {answer : Answer}
    (taken : system.step? (.edit session answer) = some next) :
    ∃ state later observed, system.edits session = some state ∧ next.edits session = later ∧
      EditStep system.db state answer later next.db observed := by
  cases System.step?_cases taken with
  | edited working step => exact ⟨_, _, _, working, Function.update_self .., step⟩
  | processed _ event_eq | switched _ event_eq | seated _ event_eq => simp at event_eq

theorem System.OpenedOn.transcript
    (opened : System.OpenedOn session job original middle events system) :
    middle.db.transcript? job = some original := by
  obtain ⟨before, answer, reading, taken⟩ := opened.read
  obtain ⟨state, later, observed, working, became, step⟩ := System.edit_cases taken
  obtain rfl := Option.some.inj (reading.symm.trans working)
  obtain rfl := opened.opened.symm.trans became
  generalize middle.db = db at step ⊢
  cases step with
  | read found => exact found

theorem System.OpenedOn.recorded
    (opened : System.OpenedOn session job original middle events system) :
    middle.Recorded system :=
  opened.run.invariant
    (fun _ _ _ recorded taken => recorded.trans (System.step?_cases taken).recorded)
    (.of_same (List.append_nil _).symm rfl)

/-- A session overwrites whatever is stored once it saves another text than its own, and
only then; that is what it was opened on as long as nobody else has written. -/
theorem edit_overwrites (opened : System.OpenedOn session job original middle events system) :
    system.Since session job original ∧
      (∀ added, system.log = middle.log ++ added → (∀ step, .wrote job step ∉ added) →
        system.db.transcript? job = some original) ∧
      (∀ edited env message, system.edits session = some (.saving job edited) →
        storable edited = true → (system.db.job? job).isSome = true →
        ∃ next, system.step? (.edit session (.executed env message)) = some next ∧
          next.db.transcript? job = some edited) ∧
      ∀ answer next, system.step? (.edit session answer) = some next →
        next.db = system.db ∨
          ∃ edited, edited ≠ original ∧ system.edits session = some (.saving job edited) ∧
            next.db.transcript? job = some edited ∧ ∀ later more,
              Run (Steps System.step?) next more later → (∀ other, .open session other ∉ more) →
              later.edits session = none := by
  refine ⟨opened.since, fun added log quiet => ?_, fun edited env message saves text known => ?_,
    fun answer next taken => ?_⟩
  · obtain ⟨recorded, alsoLog, kept⟩ := opened.recorded
    obtain rfl := List.append_cancel_left (alsoLog.symm.trans log)
    rw [kept job quiet, opened.transcript]
  · obtain ⟨after, written⟩ := upsertTranscript_isOk text known
    have stepped : (Edit.saving job edited).step system.db (.executed env message) =
        some (none, after, [.wrote job ((system.db.job? job).map (·.step))]) := by
      simp [Edit.step, Body.upsert, written, Body.settle, Except.isOk, Except.toBool]
    refine ⟨{ system.setEdit session none with
      db := after
      log := system.log ++ [.wrote job ((system.db.job? job).map (·.step))] }, ?_,
      (upsertTranscript_ok written).own⟩
    simp only [System.step?, saves, stepped, Option.bind_eq_bind, Option.bind_some]
  · obtain ⟨state, later, observed, working, became, step⟩ := System.edit_cases taken
    generalize db_eq : next.db = db at step
    cases step with
    | ended | checked | read | changed => exact .inl rfl
    | @saved other edited _ _ written =>
        obtain ⟨rfl, different⟩ : other = job ∧ edited ≠ original := by
          cases opened.since with
          | editing isOpen => simp [isOpen] at working
          | saving different isSaving =>
              obtain ⟨rfl, rfl⟩ := Edit.saving.inj (Option.some.inj (isSaving.symm.trans working))
              exact ⟨rfl, different⟩
          | ended none => simp [none] at working
        exact .inr ⟨edited, different, working, (upsertTranscript_ok written).own,
          fun _ _ => System.ended_of_run became⟩

end

section

attribute [local instance] english

/-! Two sessions read a transcript, and both save. -/

def secondReads : System :=
  System.after (fun _ _ => true) deployment
    (toReview ++ opened ++
      [.open 1 firstJob, .edit 1 (.executed (tick 6 (.claim firstJob)).env [])])

def secondRead : Event := .edit 1 (.executed (tick 7 (.claim firstJob)).env [])

def secondOpened : System := lastState System.step? secondReads [secondRead]

def firstSaved : List Event :=
  [.edit 0 (.edited (some ['y'])), editRequest 8, .edit 1 (.edited (some ['z']))]

def secondSaves : System := lastState System.step? secondOpened firstSaved

def secondSave : Event := .edit 1 (.executed (tick 9 (.claim firstJob)).env [])

theorem step_lastState (system : System) (event : Event)
    (enabled : (system.step? event).isSome = true) :
    system.step? event = some (lastState System.step? system [event]) := by
  obtain ⟨next, taken⟩ := Option.isSome_iff_exists.mp enabled
  simp [lastState, execute, taken]

theorem secondSaves_openedOn :
    System.OpenedOn 1 firstJob ['x'] secondOpened firstSaved secondSaves where
  read := ⟨secondReads, _, by decide +kernel, step_lastState _ secondRead (by decide +kernel)⟩
  opened := by decide +kernel
  run := run_lastState (by decide +kernel)
  unopened := by simp [firstSaved, editRequest]

/-- The second save discards what the first one wrote. -/
theorem edits_overwrite_each_other :
    ¬ ∀ (session : Nat) (job : Uuid) (original : Text) (middle system next : System)
        (events : List Event) (answer : Answer),
      Reachable System.Initial (System.Events fun _ _ => True) middle →
      System.OpenedOn session job original middle events system →
      system.step? (.edit session answer) = some next →
      next.db.transcript? job = system.db.transcript? job ∨
        system.db.transcript? job = some original := by
  intro all
  have reads : Reachable System.Initial (System.Events fun _ _ => True) secondReads :=
    System.reachable_after (by simp) deployment_initial (by decide +kernel)
  have opens := step_lastState secondReads secondRead (by decide +kernel)
  have saves := step_lastState secondSaves secondSave (by decide +kernel)
  rcases all 1 firstJob ['x'] _ _ _ _ _ (reads.step ⟨trivial, opens⟩) secondSaves_openedOn
    saves with same | first
  · exact absurd same (by decide +kernel)
  · exact absurd first (by decide +kernel)

theorem edit_overwrites_first_save :
    secondSaves.db.transcript? firstJob = some ['y'] ∧
      ∃ next, secondSaves.step? secondSave = some next ∧
        next.db.transcript? firstJob = some ['z'] :=
  ⟨by decide +kernel, (edit_overwrites secondSaves_openedOn).2.2.1 ['z'] _ _ (by decide +kernel)
    (by decide +kernel) (by decide +kernel)⟩

end

end Zyndeck
