import Mathlib.Data.List.Pairwise
import Zyndeck.Db.History

namespace Zyndeck

open Data

/-! The shape of a job's run history. -/

/-- A run's place in the history: its step and attempt. -/
def StepRunRow.key (row : StepRunRow) : IngestionStep × Nat := (row.step, row.attempt)

def phaseTwo : IngestionStep → List (IngestionStep × Nat)
  | .extract => []
  | .chunk => [(.chunk, 1)]
  | .embed | .completed => [(.chunk, 1), (.embed, 1)]

/-- The history of a job on a step after a number of attempts at `extract`. -/
def keysOf (extracts : Nat) (step : IngestionStep) : List (IngestionStep × Nat) :=
  (List.range' 1 extracts).map (.extract, ·) ++ phaseTwo step

theorem nextAttempt_eq (step : IngestionStep) (runs : List StepRunRow) :
    nextAttempt step runs =
      ((((runs.map (·.key)).filter (·.1 = step)).map (·.2)).max?.getD 0) + 1 := by
  simp only [nextAttempt, List.filter_map, List.map_map]
  rfl

theorem max?_range' (count : Nat) : ((List.range' 1 count).max?.getD 0) = count := by
  cases count with
  | zero => rfl
  | succ count =>
      have greatest : (List.range' 1 (count + 1)).max? = some (count + 1) :=
        List.max?_eq_some_iff.mpr
          ⟨List.mem_range'_1.mpr (by omega), fun other member => by
            have := List.mem_range'_1.mp member
            omega⟩
      rw [greatest]
      rfl

theorem nextAttempt_extract {runs : List StepRunRow} {extracts : Nat} {step : IngestionStep}
    (shape : runs.map (·.key) = keysOf extracts step) :
    nextAttempt .extract runs = extracts + 1 := by
  have phase : (phaseTwo step).filter (·.1 = IngestionStep.extract) = [] := by
    cases step <;> rfl
  rw [nextAttempt_eq, shape, keysOf, List.filter_append, phase, List.append_nil,
    List.filter_map, List.map_map]
  have all : (List.range' 1 extracts).filter
      ((fun key : IngestionStep × Nat => decide (key.1 = .extract)) ∘ (.extract, ·)) =
        List.range' 1 extracts := List.filter_eq_self.mpr (by simp)
  rw [all]
  simpa [Function.comp_def] using max?_range' extracts

theorem nextAttempt_ahead {runs : List StepRunRow} {extracts : Nat} {current step : IngestionStep}
    (shape : runs.map (·.key) = keysOf extracts current) (later : step ≠ .extract)
    (ahead : ∀ key ∈ phaseTwo current, key.1 ≠ step) : nextAttempt step runs = 1 := by
  have none : (keysOf extracts current).filter (·.1 = step) = [] := by
    refine List.filter_eq_nil_iff.mpr fun key member => ?_
    rcases List.mem_append.mp member with member | member
    · obtain ⟨_, _, rfl⟩ := List.mem_map.mp member
      simpa using later.symm
    · simpa using ahead key member
  rw [nextAttempt_eq, shape, none]
  rfl

namespace History

/-- `earlier` started before `later` did, if both did. -/
def StartsBefore (earlier later : StepRunRow) : Prop :=
  ∀ first ∈ earlier.startedAt, ∀ second ∈ later.startedAt, first < second

/-- What holds of a job's history whatever the clocks say. -/
structure Shaped (history : History) : Prop where
  /-- The runs are `extract` runs with attempts from 1, then those of phase 2. -/
  keys : ∃ extracts, 0 < extracts ∧
    history.runs.map (·.key) = keysOf extracts history.step
  /-- A run that another one follows has ended. -/
  front : history.runs.Pairwise fun earlier _ => earlier.status.isActive = false
  /-- An active run is one of the current step. -/
  active : ∀ row ∈ history.runs, row.status.isActive = true → row.step = history.step
  chunked : history.step = .embed ∨ history.step = .completed →
    ∃ row ∈ history.runs, row.step = .chunk ∧ row.status = .succeeded
  embedded : history.step = .completed →
    ∃ row ∈ history.runs, row.step = .embed ∧ row.status = .succeeded

/-- What holds of it when clocks advance. -/
structure Sound (history : History) : Prop extends history.Shaped where
  /-- Runs start in the order they are created. -/
  starts : history.runs.Pairwise StartsBefore
  /-- The newest `extract` run let the job through the gate. -/
  newest : history.step ≠ .extract →
    ∃ row ∈ history.runs, row.step = .extract ∧ row.status = .succeeded ∧
      ∀ other ∈ history.runs, other.step = .extract → other.attempt ≤ row.attempt

variable {history : History} {now : Timestamp}

theorem Shaped.step_ne_completed (shaped : history.Shaped) {row : StepRunRow}
    (member : row ∈ history.runs) : row.step ≠ .completed := by
  intro step
  obtain ⟨extracts, _, keys⟩ := shaped.keys
  have stored : row.key ∈ keysOf extracts history.step := keys ▸ List.mem_map_of_mem member
  cases onStep : history.step <;>
    simp [keysOf, phaseTwo, StepRunRow.key, step, onStep] at stored

theorem Shaped.inactive_of_completed (shaped : history.Shaped)
    (completed : history.step = .completed) :
    ∀ row ∈ history.runs, row.status.isActive = false := fun row member =>
  Bool.eq_false_iff.mpr fun active =>
    shaped.step_ne_completed member ((shaped.active row member active).trans completed)

theorem map_key_evolve {runs : List StepRunRow} {evolve : StepRunRow → StepRunRow}
    (each : ∀ row ∈ runs, row.Evolves now (evolve row)) :
    (runs.map evolve).map (·.key) = runs.map (·.key) := by
  rw [List.map_map]
  refine List.map_congr_left fun row member => ?_
  exact Prod.ext (each row member).step_eq (each row member).attempt_eq

theorem mem_map_of_inactive {runs : List StepRunRow} {evolve : StepRunRow → StepRunRow}
    (each : ∀ row ∈ runs, row.Evolves now (evolve row)) {row : StepRunRow}
    (member : row ∈ runs) (ended : row.status.isActive = false) : row ∈ runs.map evolve :=
  List.mem_map.mpr ⟨row, member, (each row member).eq_of_inactive ended⟩

/-- The runs of a job in phase 2: the last one is that of the current step. -/
theorem Shaped.eq_concat (shaped : history.Shaped)
    (phase : history.step = .chunk ∨ history.step = .embed) :
    ∃ front final, history.runs = front ++ [final] ∧ final.step = history.step ∧
      (∀ row ∈ front, row.step ≠ history.step) ∧
      ∀ row ∈ front, row.status.isActive = false := by
  obtain ⟨extracts, _, keys⟩ := shaped.keys
  have lastKey : ∃ before, keysOf extracts history.step = before ++ [(history.step, 1)] ∧
      ∀ key ∈ before, key.1 ≠ history.step := by
    have apart : ∀ key ∈ (List.range' 1 extracts).map (IngestionStep.extract, ·),
        key.1 = .extract := by
      intro key member
      obtain ⟨_, _, rfl⟩ := List.mem_map.mp member
      rfl
    rcases phase with onStep | onStep <;> rw [onStep]
    · refine ⟨_, rfl, fun key member => ?_⟩
      simp [apart key member]
    · refine ⟨(List.range' 1 extracts).map (.extract, ·) ++ [(.chunk, 1)], by
        simp [keysOf, phaseTwo], fun key member => ?_⟩
      rcases List.mem_append.mp member with member | member
      · simp [apart key member]
      · simp [List.mem_singleton.mp member]
  obtain ⟨before, split, ahead⟩ := lastKey
  obtain ⟨front, back, whole, frontKeys, backKeys⟩ :=
    List.map_eq_append_iff.mp (keys.trans split)
  obtain ⟨final, rfl, finalKey⟩ := List.map_eq_singleton_iff.mp backKeys
  refine ⟨front, final, whole, congrArg Prod.fst finalKey, fun row member => ?_,
    fun row member => ?_⟩
  · exact ahead row.key (frontKeys ▸ List.mem_map_of_mem member)
  · have ended := shaped.front
    rw [whole, List.pairwise_append] at ended
    exact ended.2.2 row member final (List.mem_singleton_self _)

theorem Shaped.eq_of_step (shaped : history.Shaped) {first second : StepRunRow}
    (firstMember : first ∈ history.runs) (secondMember : second ∈ history.runs)
    (same : first.step = second.step) (phase : first.step ≠ .extract) : first = second := by
  obtain ⟨extracts, _, keys⟩ := shaped.keys
  have attemptOne : ∀ row ∈ history.runs, row.step ≠ .extract → row.attempt = 1 := by
    intro row member past
    have stored : row.key ∈ keysOf extracts history.step := keys ▸ List.mem_map_of_mem member
    rcases List.mem_append.mp stored with isExtract | isLater
    · obtain ⟨_, _, sameKey⟩ := List.mem_map.mp isExtract
      exact absurd (congrArg Prod.fst sameKey).symm past
    · cases step : history.step <;>
        simp [phaseTwo, step, StepRunRow.key] at isLater <;> grind
  have unique : (history.runs.map (·.key)).Nodup := by
    rw [keys, keysOf, List.nodup_append]
    refine ⟨List.Nodup.map (fun _ _ same => congrArg Prod.snd same) List.nodup_range', ?_, ?_⟩
    · cases history.step <;> decide
    · intro key isExtract other isLater sameKey
      obtain ⟨_, _, rfl⟩ := List.mem_map.mp isExtract
      cases step : history.step <;> simp [phaseTwo, step, ← sameKey] at isLater
  refine List.inj_on_of_nodup_map unique firstMember secondMember (Prod.ext same ?_)
  exact (attemptOne first firstMember phase).trans
    (attemptOne second secondMember (same ▸ phase)).symm

theorem Shaped.inactive_of_ended (shaped : history.Shaped) {row : StepRunRow}
    (member : row ∈ history.runs) (current : row.step = history.step)
    (phase : history.step = .chunk ∨ history.step = .embed)
    (ended : row.status.isActive = false) :
    ∀ other ∈ history.runs, other.status.isActive = false := by
  obtain ⟨front, final, whole, _, ahead, inactive⟩ := shaped.eq_concat phase
  rw [whole] at member ⊢
  intro other otherMember
  rcases List.mem_append.mp otherMember with inFront | isFinal
  · exact inactive other inFront
  · rcases List.mem_append.mp member with rowFront | rowFinal
    · exact absurd current (ahead row rowFront)
    · rwa [List.mem_singleton.mp isFinal, ← List.mem_singleton.mp rowFinal]

theorem pairwise_front_append {runs : List StepRunRow} {run : StepRunRow}
    (inactive : ∀ other ∈ runs, other.status.isActive = false) :
    (runs ++ [run]).Pairwise fun earlier _ => earlier.status.isActive = false := by
  rw [List.pairwise_append]
  refine ⟨?_, List.pairwise_singleton _ _, fun earlier member _ _ => inactive earlier member⟩
  exact List.pairwise_of_forall_mem_list fun earlier member _ _ => inactive earlier member

end History

theorem isActive_of_succeeded {row : StepRunRow} (succeeded : row.status = .succeeded) :
    row.status.isActive = false := by
  rw [succeeded]
  rfl

theorem History.Inserts.active {runs : List StepRunRow} {step : IngestionStep}
    {status : RunStatus} {startedAt : Option Timestamp} {run : StepRunRow}
    (inserts : History.Inserts runs step status startedAt run) :
    ∀ row ∈ runs ++ [run], row.status.isActive = true → row.step = step := by
  intro row member active
  rcases List.mem_append.mp member with member | member
  · rw [inserts.inactive row member] at active
    contradiction
  · obtain rfl := List.mem_singleton.mp member
    exact inserts.step_eq

theorem HistoryStep.shaped {now : Timestamp} {old new : History}
    (step : HistoryStep now old new) (shaped : old.Shaped) : new.Shaped := by
  have whole := shaped
  obtain ⟨⟨extracts, positive, keys⟩, front, active, chunked, embedded⟩ := shaped
  cases step with
  | @evolved runs step evolve each =>
      refine ⟨⟨extracts, positive, (History.map_key_evolve each).trans keys⟩, ?_, ?_, ?_, ?_⟩
      · rw [List.pairwise_map]
        exact front.imp_of_mem fun first _ ended => (each _ first).inactive ended
      · intro row member rowActive
        obtain ⟨before, known, rfl⟩ := List.mem_map.mp member
        rw [(each before known).step_eq]
        refine active before known (Bool.of_not_eq_false fun ended => ?_)
        rw [(each before known).inactive ended] at rowActive
        contradiction
      · intro reached
        obtain ⟨row, member, rowStep, succeeded⟩ := chunked reached
        exact ⟨row, History.mem_map_of_inactive each member (isActive_of_succeeded succeeded),
          rowStep, succeeded⟩
      · intro reached
        obtain ⟨row, member, rowStep, succeeded⟩ := embedded reached
        exact ⟨row, History.mem_map_of_inactive each member (isActive_of_succeeded succeeded),
          rowStep, succeeded⟩
  | @restarted runs run inserts =>
      refine ⟨⟨extracts + 1, Nat.succ_pos _, ?_⟩, History.pairwise_front_append inserts.inactive,
        inserts.active, nofun, nofun⟩
      have attempt := inserts.attempt_eq.trans (nextAttempt_extract keys)
      rw [List.map_append, keys]
      simp [keysOf, phaseTwo, List.range'_1_concat, StepRunRow.key, inserts.step_eq, attempt,
        Nat.add_comm]
  | @validated runs tie last run succeeded inserts =>
      refine ⟨⟨extracts, positive, ?_⟩, History.pairwise_front_append inserts.inactive,
        inserts.active, nofun, nofun⟩
      have attempt := inserts.attempt_eq.trans
        (nextAttempt_ahead keys (by simp) (by simp [phaseTwo]))
      rw [List.map_append, keys]
      simp [keysOf, phaseTwo, StepRunRow.key, inserts.step_eq, attempt]
  | @advanced runs tie last run succeeded inserts =>
      refine ⟨⟨extracts, positive, ?_⟩, History.pairwise_front_append inserts.inactive,
        inserts.active, fun _ => ?_, nofun⟩
      · have attempt := inserts.attempt_eq.trans
          (nextAttempt_ahead keys (by simp) (by simp [phaseTwo]))
        rw [List.map_append, keys]
        simp [keysOf, phaseTwo, StepRunRow.key, inserts.step_eq, attempt]
      · exact ⟨last, List.mem_append_left _ (firstBy_mem succeeded.latest),
          succeeded.step_eq, succeeded.status_eq⟩
  | @completed runs tie last succeeded =>
      refine ⟨⟨extracts, positive, keys⟩, front, fun row member rowActive => ?_,
        fun _ => chunked (.inl rfl), fun _ => ?_⟩
      · have ended := whole.inactive_of_ended (firstBy_mem succeeded.latest) succeeded.step_eq
          (by simp) (isActive_of_succeeded succeeded.status_eq) row member
        rw [ended] at rowActive
        contradiction
      · exact ⟨last, firstBy_mem succeeded.latest, succeeded.step_eq, succeeded.status_eq⟩

/-! With clocks that advance, the latest run that has started is the newest. -/

namespace History

theorem laterFirst_of_startsBefore {tie : Uuid → Nat} {last other : StepRunRow}
    {start : Timestamp} (started : last.startedAt = some start)
    (before : StartsBefore last other) : laterFirst tie other last = true := by
  rw [StartsBefore, started] at before
  cases otherStart : other.startedAt with
  | none => simp [laterFirst, otherStart, started]
  | some second =>
      have less := before start rfl second otherStart
      simp only [laterFirst, otherStart, started, Bool.or_eq_true, decide_eq_true_eq]
      exact .inl less

theorem before_latest {runs : List StepRunRow} {tie : Uuid → Nat} {last : StepRunRow}
    {precedes : StepRunRow → StepRunRow → Prop} {start : Timestamp}
    (starts : runs.Pairwise StartsBefore) (ordered : runs.Pairwise precedes)
    (latest : firstBy (laterFirst tie) runs = some last)
    (started : last.startedAt = some start) :
    ∀ other ∈ runs, other ≠ last → precedes other last := by
  intro other member apart
  let related : StepRunRow → StepRunRow → Prop := fun first second =>
    (StartsBefore first second ∧ precedes first second) ∨
      (StartsBefore second first ∧ precedes second first)
  have symm : Std.Symm related := ⟨fun _ _ => Or.symm⟩
  have pairs : runs.Pairwise related := (starts.and ordered).imp .inl
  rcases pairs.forall member (firstBy_mem latest) apart with ⟨_, goal⟩ | ⟨before, _⟩
  · exact goal
  · have never := firstBy_not_before (laterFirst_strictOrder tie) latest other member
    rw [laterFirst_of_startsBefore started before] at never
    contradiction

end History

theorem StepRunRow.startedAt_of_succeeded {row : StepRunRow}
    (succeeded : row.status = .succeeded) (complete : row.Complete) :
    ∃ start, row.startedAt = some start := by
  rw [StepRunRow.Complete, succeeded] at complete
  exact Option.isSome_iff_exists.mp complete.1

theorem History.Sound.newest_attempt {runs : List StepRunRow} {tie : Uuid → Nat}
    {last : StepRunRow} (sound : History.Sound ⟨.extract, runs⟩)
    (succeeded : History.Succeeded runs .extract tie last) :
    ∀ other ∈ runs, other.attempt ≤ last.attempt := by
  obtain ⟨extracts, _, keys⟩ := sound.keys
  have attempts : runs.map (·.attempt) = List.range' 1 extracts := by
    have second := congrArg (List.map Prod.snd) keys
    simpa [keysOf, phaseTwo, StepRunRow.key, Function.comp_def] using second
  have ordered : runs.Pairwise (·.attempt < ·.attempt) :=
    List.pairwise_map.mp (attempts ▸ List.pairwise_lt_range')
  obtain ⟨start, started⟩ :=
    StepRunRow.startedAt_of_succeeded succeeded.status_eq succeeded.complete
  intro other member
  by_cases same : other = last
  · exact same ▸ Nat.le_refl _
  · exact Nat.le_of_lt
      (History.before_latest sound.starts ordered succeeded.latest started other member same)

/-- What one call keeps when its clock is later than the starts so far. -/
theorem HistoryStep.sound {now : Timestamp} {old new : History}
    (step : HistoryStep now old new) (sound : old.Sound)
    (clock : ∀ row ∈ old.runs, ∀ start ∈ row.startedAt, start < now) : new.Sound := by
  have whole := sound
  obtain ⟨shaped, starts, newest⟩ := sound
  have appended : ∀ {run : StepRunRow},
      (∀ start ∈ run.startedAt, start = now) →
      (old.runs ++ [run]).Pairwise History.StartsBefore := by
    intro run startsNow
    rw [List.pairwise_append]
    refine ⟨starts, List.pairwise_singleton _ _, fun earlier member later isRun => ?_⟩
    obtain rfl := List.mem_singleton.mp isRun
    exact fun first started second laterStarted =>
      startsNow second laterStarted ▸ clock earlier member first started
  refine ⟨step.shaped shaped, ?_, ?_⟩
  · cases step with
    | evolved evolve each =>
        rw [List.pairwise_map]
        refine (shaped.front.and starts).imp_of_mem
          fun {earlier later} first second ⟨ended, before⟩ => ?_
        rw [(each earlier first).eq_of_inactive ended]
        intro start started next nextStarted
        rcases (each later second).startedAt_eq with same | ⟨_, same⟩
        · exact before start started next (same ▸ nextStarted)
        · rw [same] at nextStarted
          exact Option.mem_some.mp nextStarted ▸ clock earlier first start started
    | restarted inserts => exact appended (by simp [inserts.startedAt_eq])
    | validated _ inserts => exact appended (by simp [inserts.startedAt_eq])
    | advanced _ inserts => exact appended (by simp [inserts.startedAt_eq])
    | completed => exact starts
  · cases step with
    | evolved evolve each =>
        intro past
        obtain ⟨row, member, rowStep, succeeded, most⟩ := newest past
        refine ⟨row, History.mem_map_of_inactive each member (isActive_of_succeeded succeeded),
          rowStep, succeeded, fun other known onExtract => ?_⟩
        obtain ⟨before, stored, rfl⟩ := List.mem_map.mp known
        rw [(each before stored).step_eq] at onExtract
        rw [(each before stored).attempt_eq]
        exact most before stored onExtract
    | restarted => exact fun past => absurd rfl past
    | @validated runs tie last run succeeded inserts =>
        intro _
        refine ⟨last, List.mem_append_left _ (firstBy_mem succeeded.latest), succeeded.step_eq,
          succeeded.status_eq, fun other known onExtract => ?_⟩
        rcases List.mem_append.mp known with known | known
        · exact whole.newest_attempt succeeded other known
        · rw [List.mem_singleton.mp known, inserts.step_eq] at onExtract
          contradiction
    | @advanced runs tie last run succeeded inserts =>
        intro _
        obtain ⟨row, member, rowStep, rowSucceeded, most⟩ := newest (by simp)
        refine ⟨row, List.mem_append_left _ member, rowStep, rowSucceeded,
          fun other known onExtract => ?_⟩
        rcases List.mem_append.mp known with known | known
        · exact most other known onExtract
        · rw [List.mem_singleton.mp known, inserts.step_eq] at onExtract
          contradiction
    | completed => exact fun _ => newest (by simp)

theorem History.Inserts.shaped {run : StepRunRow}
    (inserts : History.Inserts [] .extract .pending none run) :
    History.Shaped ⟨.extract, [run]⟩ where
  keys := ⟨1, Nat.one_pos, by
    simp [keysOf, phaseTwo, StepRunRow.key, inserts.step_eq, inserts.attempt_eq, nextAttempt]⟩
  front := List.pairwise_singleton _ _
  active row member _ := List.mem_singleton.mp member ▸ inserts.step_eq
  chunked := nofun
  embedded := nofun

theorem History.Inserts.sound {run : StepRunRow}
    (inserts : History.Inserts [] .extract .pending none run) :
    History.Sound ⟨.extract, [run]⟩ where
  toShaped := inserts.shaped
  starts := List.pairwise_singleton _ _
  newest past := absurd rfl past

end Zyndeck
