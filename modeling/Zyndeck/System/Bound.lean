import Mathlib.Data.Prod.Lex
import Mathlib.Order.WellFoundedSet
import Zyndeck.System.Once

namespace Zyndeck

open Data

/-! Every drive ends: what it has left to do falls with each request. -/

/-- The requests of a body before its batches, and what is left of them. -/
def Body.rank : Body → Nat × Nat
  | .extracting | .chunking | .listing => (5, 0)
  | .upserting _ | .replacing _ => (4, 0)
  | .embedding left => (4, 2 * left.length + 1)
  | .storing pairs left => (4, pairs.length + 2 * left.length + 1)

section

variable [Isolang]

/-- A drive whose run is not one of `embed` may have that run still before it. -/
def IngestionStepRun.round (run : IngestionStepRun) : Nat :=
  if run.step = .embed then 0 else 10

def Phase.rank : Phase → ℕ ×ₗ ℕ
  | .claiming _ => toLex (30, 0)
  | .loading _ run => toLex (run.round + 9, 0)
  | .executing _ run body => toLex (run.round + body.rank.1, body.rank.2)
  | .finishing _ run _ => toLex (run.round + 2, 0)
  | .continuing _ run => toLex (run.round + 1, 0)

omit [Isolang] in
theorem Body.rank_fst (body : Body) : 4 ≤ body.rank.1 ∧ body.rank.1 ≤ 5 := by
  cases body <;> simp [rank]

theorem rank_ofWork_store (job : IngestionJob) (run : IngestionStepRun)
    (pairs : List (ChunkRow × List F32)) (left : List ChunkRow) :
    (Phase.ofWork job run (Body.store pairs left)).rank ≤
      toLex (run.round + 4, pairs.length + 2 * left.length + 1) := by
  unfold Body.store
  split
  · simp [Phase.ofWork, Phase.rank, Prod.Lex.toLex_le_toLex]
  · simp [Phase.ofWork, Phase.rank, Body.rank]
  · simp [Phase.ofWork, Phase.rank, Body.rank]

theorem rank_done_lt (job : IngestionJob) (run : IngestionStepRun) (body : Body)
    (outcome : Except Text Unit) :
    (Phase.ofWork job run (.done outcome)).rank < (Phase.executing job run body).rank := by
  have above := body.rank_fst.1
  refine Prod.Lex.toLex_lt_toLex.mpr (.inl ?_)
  exact Nat.add_lt_add_left (by omega) _

theorem rank_more_lt (job : IngestionJob) (run : IngestionStepRun) {body next : Body}
    (less : next.rank.1 < body.rank.1) :
    (Phase.ofWork job run (.more next)).rank < (Phase.executing job run body).rank :=
  Prod.Lex.toLex_lt_toLex.mpr (.inl (Nat.add_lt_add_left less _))

theorem rank_batch_lt (job : IngestionJob) (run : IngestionStepRun) (left : List ChunkRow)
    (vectors : List (List F32)) :
    (Phase.ofWork job run
        (Body.store ((left.take embedBatch).zip vectors) (left.drop embedBatch))).rank <
      (Phase.executing job run (.embedding left)).rank := by
  cases left with
  | nil => exact rank_done_lt ..
  | cons chunk rest =>
      refine lt_of_le_of_lt (rank_ofWork_store ..) ?_
      refine Prod.Lex.toLex_lt_toLex.mpr (.inr ⟨rfl, ?_⟩)
      simp only [Body.rank, embedBatch, List.length_zip, List.length_take, List.length_drop,
        List.length_cons]
      omega

theorem BodyStep.rank_lt {db next : Db} {job : Uuid} {body : Body} {answer : Answer}
    {work : Work} {observed : List Observation}
    (step : BodyStep job db body answer work next observed) (loaded : IngestionJob)
    (run : IngestionStepRun) :
    (Phase.ofWork loaded run work).rank < (Phase.executing loaded run body).rank := by
  cases step with
  | broke => exact rank_done_lt ..
  | extracted => exact rank_more_lt _ _ (by simp [Body.rank])
  | upserted _ heard => cases heard <;> exact rank_done_lt ..
  | split =>
      unfold Body.chunkTranscript
      split
      · exact rank_done_lt ..
      · split
        · exact rank_done_lt ..
        · exact rank_more_lt _ _ (by simp [Body.rank])
  | replaced _ heard => cases heard <;> exact rank_done_lt ..
  | listed => exact rank_more_lt _ _ (by simp [Body.rank])
  | embedded => exact rank_batch_lt ..
  | stored _ heard =>
      cases heard with
      | lost => exact rank_done_lt ..
      | arrived =>
          refine lt_of_le_of_lt (rank_ofWork_store ..) ?_
          refine Prod.Lex.toLex_lt_toLex.mpr (.inr ⟨rfl, ?_⟩)
          simp only [Body.rank, List.length_cons]
          omega

theorem rank_begin_lt (job : Uuid) (loaded : IngestionJob) (run : IngestionStepRun)
    (step : IngestionStep) :
    (Phase.ofWork loaded run (Body.begin step)).rank < (Phase.loading job run).rank := by
  cases step <;>
    exact Prod.Lex.toLex_lt_toLex.mpr (.inl (Nat.add_lt_add_left (by decide) _))

theorem Phase.rank_fst (phase : Phase) :
    1 ≤ (ofLex phase.rank).1 ∧ (ofLex phase.rank).1 ≤ 30 := by
  cases phase with
  | claiming => exact ⟨by simp [rank], by simp [rank]⟩
  | executing _ run body =>
      have bounds := body.rank_fst
      simp only [rank, ofLex_toLex, IngestionStepRun.round]
      split <;> omega
  | loading | finishing | continuing =>
      simp only [rank, ofLex_toLex, IngestionStepRun.round]
      split <;> omega

theorem PhaseStep.rank_lt {system : System} {service : Nat} {task : Task} (sane : system.Sane)
    (working : system.task? service = some task) {answer : Answer} {result : Moved}
    (step : PhaseStep task.drive system.db task.phase answer result) {phase : Phase}
    (goesOn : result.phase = some phase) : phase.rank < task.phase.rank := by
  obtain ⟨drive, current⟩ := task
  cases step with
  | vanished | failed | unclaimed | unfinished | stopped | dropped => contradiction
  | claimed =>
      obtain rfl := Option.some.inj goesOn
      refine Prod.Lex.toLex_lt_toLex.mpr (.inl ?_)
      unfold IngestionStepRun.round
      split <;> decide
  | entered =>
      obtain rfl := Option.some.inj goesOn
      exact rank_begin_lt ..
  | worked step =>
      obtain rfl := Option.some.inj goesOn
      exact step.rank_lt ..
  | finished =>
      simp only at goesOn
      split at goesOn
      · obtain rfl := Option.some.inj goesOn
        exact Prod.Lex.toLex_lt_toLex.mpr (.inl (by simp))
      · contradiction
  | advanced returned =>
      obtain rfl := Option.some.inj goesOn
      obtain ⟨_, embed, _, _, row, found, onChunk⟩ := advanced_stores returned
      have holds : system.Holds service _ _ := ⟨working, rfl⟩
      have past := sane.phaseTwo _ _ _ _ working rfl
      have chunk := (sane.step_of_found holds past found).symm.trans onChunk
      refine Prod.Lex.toLex_lt_toLex.mpr (.inl ?_)
      simp [IngestionStepRun.round, embed, chunk]

namespace System

def Working (system : System) (drive : Nat) (phase : Phase) : Prop :=
  ∃ service, system.task? service = some ⟨drive, phase⟩

open Classical in
/-- What is left of a drive: all of it before it begins, nothing once it has ended. -/
noncomputable def remaining (drive : Nat) (system : System) : ℕ ×ₗ ℕ :=
  if system.drives ≤ drive then toLex (31, 0)
  else if working : ∃ phase, system.Working drive phase then working.choose.rank
  else toLex (0, 0)

def Requests (system : System) (event : Event) (drive : Nat) : Prop :=
  ∃ service answer task, event = .task service answer ∧ system.task? service = some task ∧
    task.drive = drive

variable {system next : System} {drive : Nat}

theorem Sane.phase_eq (sane : system.Sane) {phase other : Phase}
    (working : system.Working drive phase) (alsoWorking : system.Working drive other) :
    phase = other := by
  obtain ⟨service, isTask⟩ := working
  obtain ⟨second, isOther⟩ := alsoWorking
  obtain rfl := sane.distinct _ _ _ _ isTask isOther rfl
  exact congrArg Task.phase (Option.some.inj (isTask.symm.trans isOther))

theorem Sane.remaining_of_working (sane : system.Sane) {phase : Phase}
    (working : system.Working drive phase) : system.remaining drive = phase.rank := by
  have begun : ¬ system.drives ≤ drive := by
    obtain ⟨service, isTask⟩ := working
    exact Nat.not_le.mpr (sane.numbered _ _ isTask)
  have some : ∃ phase, system.Working drive phase := ⟨phase, working⟩
  rw [remaining, if_neg begun, dif_pos some]
  exact congrArg Phase.rank (sane.phase_eq some.choose_spec working)

theorem remaining_of_ended (begun : ¬ system.drives ≤ drive)
    (ended : ¬ ∃ phase, system.Working drive phase) : system.remaining drive = toLex (0, 0) := by
  rw [remaining, if_neg begun, dif_neg ended]

omit [Isolang] in
theorem zero_le_rank (rank : ℕ ×ₗ ℕ) : toLex (0, 0) ≤ rank := by
  refine Prod.Lex.le_iff.mpr ?_
  rcases Nat.eq_zero_or_pos (ofLex rank).1 with zero | positive
  · exact .inr ⟨zero.symm, Nat.zero_le _⟩
  · exact .inl positive

theorem remaining_le_top (system : System) (drive : Nat) :
    system.remaining drive ≤ toLex (31, 0) := by
  unfold remaining
  split
  · exact le_rfl
  · split
    · exact Prod.Lex.le_iff.mpr (.inl (Nat.lt_succ_of_le (Phase.rank_fst _).2))
    · exact zero_le_rank _

end System

theorem Took.remaining_le {system next : System} {event : Event}
    (took : Took system event next) (sane : system.Sane) (drive : Nat) :
    next.remaining drive ≤ system.remaining drive := by
  by_cases unborn : system.drives ≤ drive
  · have whole : system.remaining drive = toLex (31, 0) := if_pos unborn
    rw [whole]
    exact System.remaining_le_top ..
  have begun : ¬ next.drives ≤ drive := fun late => unborn (Nat.le_trans took.drives_le late)
  by_cases ended : ∃ phase, next.Working drive phase
  · obtain ⟨phase, working⟩ := ended
    rw [(took.sane sane).remaining_of_working working]
    obtain ⟨service, isTask⟩ := working
    rcases took.task_cases isTask with
      ⟨same, _⟩ | ⟨⟨_, _⟩, _, result, _, known, step, goesOn, rfl, _⟩ | ⟨new, _⟩
    · exact le_of_eq (sane.remaining_of_working ⟨service, same⟩).symm
    · rw [sane.remaining_of_working ⟨service, known⟩]
      exact le_of_lt (step.rank_lt sane known goesOn)
    · exact absurd (Nat.le_of_eq new.symm) unborn
  · rw [System.remaining_of_ended begun ended]
    exact System.zero_le_rank _

theorem PhaseStep.remaining_lt {system : System} {service : Nat} {task : Task}
    (sane : system.Sane) (known : system.task? service = some task) {answer : Answer}
    {result : Moved} (step : PhaseStep task.drive system.db task.phase answer result) :
    (system.moved service task result).remaining task.drive < task.phase.rank := by
  by_cases ended : ∃ phase, (system.moved service task result).Working task.drive phase
  · obtain ⟨phase, working⟩ := ended
    rw [(sane.moved known step).remaining_of_working working]
    obtain ⟨other, isTask⟩ := working
    rw [System.task?_moved] at isTask
    split at isTask
    · obtain ⟨_, isPhase, same⟩ := Option.map_eq_some_iff.mp isTask
      obtain rfl := congrArg Task.phase same
      exact step.rank_lt sane known isPhase
    · rename_i apart
      exact absurd (sane.distinct _ _ _ _ isTask known rfl) apart
  · have begun : ¬ (system.moved service task result).drives ≤ task.drive :=
      Nat.not_le.mpr (sane.numbered _ _ known)
    rw [System.remaining_of_ended begun ended]
    exact Prod.Lex.lt_iff.mpr (.inl task.phase.rank_fst.1)

theorem Took.remaining_lt {system next : System} {event : Event} {drive : Nat}
    (took : Took system event next) (sane : system.Sane)
    (requests : system.Requests event drive) :
    next.remaining drive < system.remaining drive := by
  obtain ⟨service, answer, task, rfl, known, rfl⟩ := requests
  rw [sane.remaining_of_working ⟨service, known⟩]
  cases took with
  | moved working step =>
      obtain rfl := Option.some.inj (known.symm.trans working)
      exact step.remaining_lt sane known
  | processed _ event_eq => simp at event_eq
  | switched _ event_eq => simp at event_eq
  | seated _ event_eq => simp at event_eq

/-! Any number of services, crashes and operators, and notifications that are lost,
repeated or late. -/

structure System.Once (system : System) : Prop where
  handed : (system.log.filterMap Observation.handed?).Nodup
  entered : (system.log.filterMap Observation.entered?).Nodup
  finished : (system.log.filterMap Observation.finished?).Nodup
  source : ∀ drive run body, .entered drive run body ∈ system.log →
    .handed drive run ∈ system.log
  bounded : ∀ drive, Bounded (given drive system.log) (bodies drive system.log)

def Endless (states : Nat → System) (events : Nat → Event) : Prop :=
  ∀ moment, (states moment).step? (events moment) = some (states (moment + 1))

abbrev System.Reaches (system : System) : Prop :=
  Reachable System.Initial (System.Events fun _ _ => True) system

theorem System.Initial.ledger {system : System} (initial : system.Initial) :
    system.Ledger ∧ system.Trails := by
  have idle := initial.task?
  refine ⟨⟨?_, ?_, ?_, ?_, ?_, ?_⟩, ⟨?_, ?_, ?_⟩⟩ <;>
    simp [initial.log, System.Holds, idle, given, bodies, Bounded]

theorem once_of_reachable {system : System} (reachable : system.Reaches) : system.Once := by
  have both : system.Ledger ∧ system.Trails := by
    refine System.invariant_of_reachable (fun _ initial => initial.ledger) ?_ reachable
    rintro state event next sane ⟨ledger, trails⟩ _ took
    obtain ⟨now, runs⟩ := took.runsStep
    have turn := took.turn sane
    exact ⟨ledger.step sane turn runs, trails.step sane turn took.drives_le⟩
  obtain ⟨ledger, trails⟩ := both
  exact ⟨ledger.handed, ledger.entered, ledger.finished,
    fun drive run body member => ledger.records _ member, trails.bounded⟩

theorem eventually_silent {states : Nat → System} {events : Nat → Event}
    (sane : (states 0).Sane) (endless : Endless states events) (drive : Nat) :
    ∃ bound, ∀ moment ≥ bound, ¬ (states moment).Requests (events moment) drive := by
  have took : ∀ moment, Took (states moment) (events moment) (states (moment + 1)) :=
    fun moment => System.step?_cases (endless moment)
  have sane : ∀ moment, (states moment).Sane := by
    intro moment
    induction moment with
    | zero => exact sane
    | succ moment induction => exact (took moment).sane induction
  let remaining : ℕ →o (ℕ ×ₗ ℕ)ᵒᵈ :=
    ⟨fun moment => OrderDual.toDual ((states moment).remaining drive),
      monotone_nat_of_le_succ fun moment => (took moment).remaining_le (sane moment) drive⟩
  obtain ⟨bound, constant⟩ := WellFoundedGT.monotone_chain_condition remaining
  refine ⟨bound, fun moment late requests => ?_⟩
  have falls := (took moment).remaining_lt (sane moment) requests
  have same : remaining moment = remaining (moment + 1) :=
    (constant moment late).symm.trans (constant (moment + 1) (Nat.le_succ_of_le late))
  exact absurd (congrArg OrderDual.ofDual same).symm falls.ne

theorem Phase.step_isSome (drive : Nat) (db : Db) (phase : Phase) :
    ∃ answer, (phase.step drive db answer).isSome := by
  cases phase with
  | executing job run body =>
      cases body with
      | extracting => exact ⟨.extracted (.error []), rfl⟩
      | embedding left => exact ⟨.embedded (.error []), by
          simp only [step, Option.isSome_map, Body.step]
          split <;> rfl⟩
      | storing pairs left => cases pairs <;> exact ⟨.failed [], rfl⟩
      | upserting | chunking | replacing | listing => exact ⟨.failed [], rfl⟩
  | claiming | loading | finishing | continuing => exact ⟨.failed [], rfl⟩

theorem System.step?_isSome {system : System} {service : Nat} {task : Task}
    (working : system.task? service = some task) :
    ∃ answer, (system.step? (.task service answer)).isSome := by
  obtain ⟨answer, moves⟩ := task.phase.step_isSome task.drive system.db
  obtain ⟨result, stepped⟩ := Option.isSome_iff_exists.mp moves
  have known : (system.services service).task = some task := working
  exact ⟨answer, by simp [System.step?, known, stepped]⟩

/-- Every run is executed at most once, and every call of `process` goes on to its
end. -/
theorem runs_execute_once {system : System} (reachable : system.Reaches) :
    system.Once ∧
      (∀ service task, system.task? service = some task →
        ∃ answer, (system.step? (.task service answer)).isSome) ∧
      ∀ states events, states 0 = system → Endless states events → ∀ drive,
        ∃ bound, ∀ moment ≥ bound, ¬ (states moment).Requests (events moment) drive :=
  ⟨once_of_reachable reachable, fun _ _ => System.step?_isSome, fun _ _ start endless drive =>
    eventually_silent (start ▸ System.sane_of_reachable reachable) endless drive⟩

end

section

attribute [local instance] english

theorem runs_execute_once_on_embedded :
    let system := System.after (fun _ _ => true) deployment (toReview ++ toEmbedded)
    bodies 1 system.log = [.chunk, .embed] ∧ system.Once ∧
      (∀ service task, system.task? service = some task →
        ∃ answer, (system.step? (.task service answer)).isSome) ∧
      ∀ states events, states 0 = system → Endless states events → ∀ drive,
        ∃ bound, ∀ moment ≥ bound, ¬ (states moment).Requests (events moment) drive :=
  ⟨by decide +kernel, runs_execute_once (System.reachable_after (fun _ _ _ => trivial)
    deployment_initial (by decide +kernel))⟩

end

end Zyndeck
