import Mathlib.Data.List.Forall2
import Zyndeck.Db.Invariant

namespace Zyndeck

open Data

/-! The gate between the phases, and the shape of the run history. -/

/-- The runs a job needs behind it to be on its step, and where it may have an
active one. -/
structure History.Gated (history : History) : Prop where
  extracted : history.step ≠ .extract →
    ∃ row ∈ history.runs, row.step = .extract ∧ row.status = .succeeded ∧
      ∀ other ∈ history.runs, other.step = .extract → other.attempt ≤ row.attempt
  chunked : history.step = .embed ∨ history.step = .completed →
    ∃ row ∈ history.runs, row.step = .chunk ∧ row.status = .succeeded
  embedded : history.step = .completed →
    ∃ row ∈ history.runs, row.step = .embed ∧ row.status = .succeeded
  active : ∀ row ∈ history.runs, row.status.isActive = true → row.step = history.step
  completed : history.step = .completed →
    ∀ row ∈ history.runs, row.status.isActive = false

theorem History.Sound.gated {history : History} (sound : history.Sound) : history.Gated where
  extracted := sound.newest
  chunked := sound.chunked
  embedded := sound.embedded
  active := sound.active
  completed := sound.inactive_of_completed

/-- How an operation may move a job's step: not at all, or to the next one, and
off `extract` only by validating the job. -/
def StepMoves [Isolang] (operation : Operation) (job : Uuid) (old new : IngestionStep) : Prop :=
  new = old ∨
    new = old.next ∧ (old = .extract → operation = .validate job)

theorem HistoryStep.step_eq_or_next {now : Timestamp} {old new : History}
    (step : HistoryStep now old new) : new.step = old.step ∨ new.step = old.step.next := by
  cases step with
  | evolved | restarted => exact .inl rfl
  | validated | advanced | completed => exact .inr rfl

/-- What a call can do to a job: it stays, its step moves, or it is created. -/
def JobMoves [Isolang] (operation : Operation) (job : Uuid) :
    Option History → Option History → Prop
  | none, none => True
  | none, some new => new.step = .extract
  | some old, some new => StepMoves operation job old.step new.step
  | some _, none => False

theorem Progress.jobMoves [Isolang] {now : Timestamp} {operation : Operation} {job : Uuid}
    {old new : Option History} (progress : Progress now operation job old new) :
    JobMoves operation job old new := by
  cases progress with
  | unknown => trivial
  | created => exact rfl
  | @stepped old new step gate =>
      rcases step.step_eq_or_next with same | next
      · exact .inl same
      · refine .inr ⟨next, fun onExtract => gate onExtract ?_⟩
        rw [next, onExtract]
        exact nofun

/-- The pipeline gate. -/
theorem pipeline_gated [Isolang] {db : Db}
    (reachable : Reachable Db.Initial (Calls Clocked) db) :
    (∀ job history, db.history job = some history → history.Gated) ∧
      ∀ call next, Calls Clocked db call next → ∀ job,
        JobMoves call.operation job (db.history job) (next.history job) := by
  have sound := sound_of_reachable reachable
  refine ⟨fun job history known => (sound.histories job history known).gated, ?_⟩
  rintro call next ⟨⟨_, pipeline⟩, performed⟩ job
  obtain ⟨_, effect⟩ := performed.effect
  exact (effect.progress_of_pipeline sound.referenced pipeline job).jobMoves

section

attribute [local instance] english

theorem pipeline_gated_on_chunk :
    ((after Clocked catalog toChunk).history firstJob).map (·.step) = some .chunk ∧
      (∀ job history, (after Clocked catalog toChunk).history job = some history →
        history.Gated) ∧
      ∀ call next, Calls Clocked (after Clocked catalog toChunk) call next → ∀ job,
        JobMoves call.operation job ((after Clocked catalog toChunk).history job)
          (next.history job) :=
  ⟨by decide, pipeline_gated (reachable_after catalog_initial (by decide))⟩

end

/-! The run history. -/

/-- A job's runs in the order they were created. -/
structure History.Ordered (history : History) : Prop where
  runs : ∃ extracts, 0 < extracts ∧ ∃ later, later <+: [(.chunk, 1), (.embed, 1)] ∧
    history.runs.map (fun row => (row.step, row.attempt)) =
      (List.range' 1 extracts).map (.extract, ·) ++ later
  onlyLast : ∀ front last, history.runs = front ++ [last] →
    ∀ row ∈ front, row.status.isActive = false

theorem phaseTwo_prefix (step : IngestionStep) :
    phaseTwo step <+: [(.chunk, 1), (.embed, 1)] := by
  cases step <;> decide

theorem History.Shaped.ordered {history : History} (shaped : history.Shaped) :
    history.Ordered where
  runs := by
    obtain ⟨extracts, positive, keys⟩ := shaped.keys
    exact ⟨extracts, positive, phaseTwo history.step, phaseTwo_prefix _, keys⟩
  onlyLast front last whole row member := by
    have front := shaped.front
    rw [whole, List.pairwise_append] at front
    exact front.2.2 row member last (List.mem_singleton_self _)

def RunStatus.movesTo : RunStatus → RunStatus → Bool
  | .pending, .running | .pending, .aborted => true
  | .running, .succeeded | .running, .failed | .running, .aborted => true
  | old, new => decide (old = new)

structure StepRunRow.Moves (old new : StepRunRow) : Prop where
  id : new.id = old.id
  jobId : new.jobId = old.jobId
  step : new.step = old.step
  attempt : new.attempt = old.attempt
  ended : old.status.isActive = false → new = old
  status : old.status.movesTo new.status = true

theorem StepRunRow.Evolves.moves {now : Timestamp} {old new : StepRunRow}
    (evolved : old.Evolves now new) : old.Moves new where
  id := evolved.id_eq
  jobId := evolved.jobId_eq
  step := evolved.step_eq
  attempt := evolved.attempt_eq
  ended := evolved.eq_of_inactive
  status := by
    cases evolved with
    | kept => cases old.status <;> rfl
    | claimed pending => rw [pending]; rfl
    | finished running outcome => rw [running]; cases outcome <;> rfl
    | aborted active =>
        cases status : old.status <;> simp [status, RunStatus.isActive] at active <;> rfl

theorem RunsStep.moves {now : Timestamp} {runs next : List StepRunRow}
    (step : RunsStep now runs next) :
    ∃ kept added, next = kept ++ added ∧ List.Forall₂ StepRunRow.Moves runs kept := by
  cases step with
  | evolved evolve each =>
      refine ⟨runs.map evolve, [], (List.append_nil _).symm, ?_⟩
      exact List.forall₂_map_right_iff.mpr
        (List.forall₂_same.mpr fun row _ => (each row).moves)
  | @appended run fresh new =>
      refine ⟨runs, [run], rfl, List.forall₂_same.mpr fun row _ => ?_⟩
      have same : row.Evolves now row := .kept
      exact same.moves

/-- The run history keeps its shape, whatever the clocks say, and no call takes
back what it has recorded. -/
theorem history_ordered [Isolang] {db : Db}
    (reachable : Reachable Db.Initial (Calls Unclocked) db) :
    (∀ job history, db.history job = some history → history.Ordered) ∧
      ∀ call next, Calls Unclocked db call next →
        ∃ kept added, next.runs = kept ++ added ∧
          List.Forall₂ StepRunRow.Moves db.runs kept := by
  have shaped := shaped_of_reachable reachable
  refine ⟨fun job history known => (shaped.histories job history known).ordered, ?_⟩
  rintro call next ⟨_, performed⟩
  obtain ⟨_, effect⟩ := performed.effect
  exact effect.runsStep.moves

section

attribute [local instance] english

theorem history_ordered_on_chunk :
    ((after Unclocked catalog toChunk).runsOf firstJob).length = 2 ∧
      (∀ job history, (after Unclocked catalog toChunk).history job = some history →
        history.Ordered) ∧
      ∀ call next, Calls Unclocked (after Unclocked catalog toChunk) call next →
        ∃ kept added, next.runs = kept ++ added ∧
          List.Forall₂ StepRunRow.Moves (after Unclocked catalog toChunk).runs kept :=
  ⟨by decide, history_ordered (reachable_after catalog_initial (by decide))⟩

end

end Zyndeck
