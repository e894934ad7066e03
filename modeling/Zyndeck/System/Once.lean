import Zyndeck.System.Drive

namespace Zyndeck

open Data

/-! What the log says about runs and drives. -/

namespace Observation

def drive? : Observation → Option Nat
  | .handed drive _ | .entered drive _ _ | .finished drive _ => some drive
  | _ => none

def handed? : Observation → Option Uuid
  | .handed _ run => some run.id
  | _ => none

def entered? : Observation → Option Uuid
  | .entered _ run _ => some run.id
  | _ => none

def finished? : Observation → Option Uuid
  | .finished _ run => some run.id
  | _ => none

def given? (drive : Nat) : Observation → Option IngestionStepRun
  | .handed other run => if other = drive then some run else none
  | _ => none

def body? (drive : Nat) : Observation → Option IngestionStep
  | .entered other _ body => if other = drive then some body else none
  | _ => none

theorem filterMap_silent {pick : Observation → Option α} {added : List Observation}
    (blind : ∀ observed, observed.drive? = none → pick observed = none)
    (silent : ∀ observed ∈ added, observed.drive? = none) : added.filterMap pick = [] :=
  List.filterMap_eq_nil_iff.mpr fun observed member => blind observed (silent observed member)

theorem handed?_silent (observed : Observation) (silent : observed.drive? = none) :
    observed.handed? = none := by
  cases observed <;> first | rfl | contradiction

theorem entered?_silent (observed : Observation) (silent : observed.drive? = none) :
    observed.entered? = none := by
  cases observed <;> first | rfl | contradiction

theorem finished?_silent (observed : Observation) (silent : observed.drive? = none) :
    observed.finished? = none := by
  cases observed <;> first | rfl | contradiction

theorem given?_silent (drive : Nat) (observed : Observation) (silent : observed.drive? = none) :
    observed.given? drive = none := by
  cases observed <;> first | rfl | contradiction

theorem body?_silent (drive : Nat) (observed : Observation) (silent : observed.drive? = none) :
    observed.body? drive = none := by
  cases observed <;> first | rfl | contradiction

variable {log : List Observation} {id : Uuid}

theorem eq_of_mark {observed : Observation} :
    (observed.handed? = some id → ∃ drive run, observed = .handed drive run ∧ run.id = id) ∧
    (observed.entered? = some id →
      ∃ drive run body, observed = .entered drive run body ∧ run.id = id) ∧
    (observed.finished? = some id →
      ∃ drive run, observed = .finished drive run ∧ run.id = id) := by
  cases observed <;> simp [handed?, entered?, finished?]

theorem nodup_snoc {pick : Observation → Option Uuid} {observed : Observation}
    (once : (log.filterMap pick).Nodup)
    (new : ∀ id, pick observed = some id → id ∉ log.filterMap pick) :
    ((log ++ [observed]).filterMap pick).Nodup := by
  rw [List.filterMap_append, List.nodup_append]
  refine ⟨once, ?_, fun known member id isNew same => ?_⟩
  · cases picked : pick observed <;> simp [picked]
  · cases picked : pick observed with
    | none => simp [picked] at isNew
    | some value =>
        obtain rfl : id = value := by simpa [picked] using isNew
        exact new id picked (same ▸ member)

end Observation

def given (drive : Nat) (log : List Observation) : List IngestionStepRun :=
  log.filterMap (Observation.given? drive)

def bodies (drive : Nat) (log : List Observation) : List IngestionStep :=
  log.filterMap (Observation.body? drive)

variable [Isolang]

def Phase.stand : Phase → Option (IngestionStepRun × Bool)
  | .claiming _ => none
  | .loading _ run => some (run, false)
  | .executing _ run _ | .finishing _ run _ | .continuing _ run => some (run, true)

theorem Phase.run?_eq_stand (phase : Phase) : phase.run? = phase.stand.map Prod.fst := by
  cases phase <;> rfl

theorem Phase.stand_ofWork (job : IngestionJob) (run : IngestionStepRun) (work : Work) :
    (Phase.ofWork job run work).stand = some (run, true) := by
  cases work <;> rfl

/-! One case for every way a step bears on the log of the drives. -/

namespace System

/-- The task goes on from where it stood, or has just begun. -/
def Inherits (system next : System) (service : Nat) (task : Task) : Prop :=
  (∃ old, system.task? service = some old ∧ task.drive = old.drive ∧
      task.phase.stand = old.phase.stand) ∨
    task.drive = system.drives ∧ system.drives < next.drives ∧ task.phase.stand = none

def Restands (system next : System) (service : Nat) (task : Task)
    (stand : IngestionStepRun × Bool) : Prop :=
  ∀ other later, next.task? other = some later →
    if other = service then later.drive = task.drive ∧ later.phase.stand = some stand
    else system.task? other = some later

end System

inductive Turn (system next : System) : Prop
  | silent (log_eq : next.log = system.log ++ added)
      (silent : ∀ observed ∈ added, observed.drive? = none)
      (inherits : ∀ service task, next.task? service = some task →
        system.Inherits next service task)
  | handed (working : system.task? service = some task)
      (log_eq : next.log = system.log ++ [.handed task.drive run])
      (restands : system.Restands next service task (run, false))
      (fresh : system.db.Stores run (· = .pending) ∨ ∀ row ∈ system.db.runs, row.id ≠ run.id)
      (stored : next.db.Stores run (· ≠ .pending))
      (before : task.phase.stand = none ∨
        ∃ last, task.phase.stand = some (last, true) ∧ last.step = .chunk ∧ run.step = .embed)
  | entered (working : system.task? service = some task)
      (stand : task.phase.stand = some (run, false))
      (log_eq : next.log = system.log ++ [.entered task.drive run body])
      (restands : system.Restands next service task (run, true))
      (own : run.step ≠ .extract → body = run.step)
  | finished (holds : system.Holds service task run)
      (log_eq : next.log = system.log ++ [.finished task.drive run])
      (inherits : ∀ service task, next.task? service = some task →
        system.Inherits next service task)
      (running : system.db.Stores run (· = .running))
      (ended : next.db.Stores run (·.isActive = false))

namespace System

theorem restands_moved {system : System} {service : Nat} {task : Task} {result : Moved}
    {phase : Phase} {stand : IngestionStepRun × Bool} (isPhase : result.phase = some phase)
    (stands : phase.stand = some stand) :
    system.Restands (system.moved service task result) service task stand := by
  intro other later working
  rw [task?_moved, isPhase] at working
  split
  · rename_i same
    rw [if_pos same] at working
    obtain rfl := Option.some.inj working
    exact ⟨rfl, stands⟩
  · rename_i apart
    rwa [if_neg apart] at working

theorem inherits_moved {system : System} {service : Nat} {task : Task}
    (working : system.task? service = some task) {result : Moved}
    (stands : ∀ phase, result.phase = some phase → phase.stand = task.phase.stand) :
    ∀ other later, (system.moved service task result).task? other = some later →
      system.Inherits (system.moved service task result) other later := by
  intro other later isLater
  rw [task?_moved] at isLater
  by_cases same : other = service
  · rw [if_pos same] at isLater
    obtain ⟨phase, isPhase, rfl⟩ := Option.map_eq_some_iff.mp isLater
    exact .inl ⟨task, same ▸ working, rfl, stands phase isPhase⟩
  · rw [if_neg same] at isLater
    exact .inl ⟨later, isLater, rfl, rfl⟩

theorem inherits_of_kept {system next : System}
    (kept : ∀ service task, next.task? service = some task → system.task? service = some task) :
    ∀ service task, next.task? service = some task → system.Inherits next service task :=
  fun service task working => .inl ⟨task, kept service task working, rfl, rfl⟩

end System

theorem PhaseStep.turn {system : System} {service : Nat} {task : Task} (sane : system.Sane)
    (working : system.task? service = some task) {answer : Answer} {result : Moved}
    (step : PhaseStep task.drive system.db task.phase answer result) :
    Turn system (system.moved service task result) := by
  have whole := step
  obtain ⟨drive, current⟩ := task
  cases step with
  | vanished | failed | unclaimed | unfinished | stopped | dropped =>
      exact .silent rfl (fun _ member => by simp at member)
        (System.inherits_moved working fun _ same => by simp at same)
  | @worked job _ _ work next observed run step =>
      refine .silent rfl (fun other member => ?_)
        (System.inherits_moved working fun phase same => ?_)
      · cases step <;> simp at member <;> exact member ▸ rfl
      · obtain rfl := Option.some.inj same
        exact Phase.stand_ofWork ..
  | claimed returned =>
      obtain ⟨_, running, pending⟩ := claimed_stores returned
      exact .handed working rfl (System.restands_moved rfl rfl) (.inl pending)
        (running.mono (by simp +contextual)) (.inl rfl)
  | advanced returned =>
      obtain ⟨_, embed, running, fresh, row, found, onChunk⟩ := advanced_stores returned
      refine .handed working rfl (System.restands_moved rfl rfl) (.inr fresh)
        (running.mono (by simp +contextual)) (.inr ⟨_, rfl, ?_, embed⟩)
      -- The job is still on the step of the run that has just succeeded.
      have holds : system.Holds service _ _ := ⟨working, rfl⟩
      have past := sane.phaseTwo _ _ _ _ working rfl
      exact (sane.step_of_found holds past found).symm.trans onChunk
  | entered found =>
      refine .entered working rfl rfl (System.restands_moved rfl (Phase.stand_ofWork ..)) ?_
      intro past
      have holds : system.Holds service _ _ := ⟨working, rfl⟩
      obtain ⟨row, isRow, _, sameStep⟩ := Phase.load_row found
      exact sameStep.trans (sane.step_of_found holds past isRow)
  | finished returned =>
      have holds : system.Holds service _ _ := ⟨working, rfl⟩
      obtain ⟨running, ended⟩ :=
        finished_stores sane.shaped.toKeyed (sane.stored _ _ _ holds).2 returned
      refine .finished holds rfl (System.inherits_moved working fun phase same => ?_) running
        (ended.mono ?_)
      · simp only at same
        split at same
        · obtain rfl := Option.some.inj same
          rfl
        · contradiction
      · rintro _ rfl
        unfold Phase.recorded
        split <;> rfl

theorem Took.turn {system next : System} {event : Event} (sane : system.Sane)
    (took : Took system event next) : Turn system next := by
  have quiet : ∀ observed ∈ ([] : List Observation), observed.drive? = none := by simp
  have unlogged : system.log = system.log ++ [] := (List.append_nil _).symm
  cases took with
  | @called env operation =>
      refine .silent rfl (fun observed member => ?_)
        (System.inherits_of_kept fun service task => ?_)
      · simp only [System.observeCall] at member
        split at member
        · exact List.mem_singleton.mp member ▸ rfl
        · simp at member
      · rw [System.task?_call]
        exact id
  | moved working step => exact step.turn sane working
  | @processed service _ _ _ _ idle =>
      refine .silent unlogged quiet fun other task working => ?_
      rw [System.task?_process] at working
      split at working
      · obtain rfl := Option.some.inj working
        exact .inr ⟨rfl, Nat.lt_succ_self _, rfl⟩
      · exact .inl ⟨task, working, rfl, rfl⟩
  | switched same =>
      refine .silent unlogged quiet (System.inherits_of_kept fun other task working => ?_)
      rw [System.task?_setService] at working
      split at working
      · rename_i own
        exact own ▸ same.symm.trans working
      · exact working
  | crashed =>
      refine .silent unlogged quiet (System.inherits_of_kept fun other task working => ?_)
      rw [System.task?_setService] at working
      split at working
      · contradiction
      · exact working
  | seated => exact .silent unlogged quiet (System.inherits_of_kept fun _ _ working => working)
  | edited _ step =>
      refine .silent rfl (fun observed member => ?_)
        (System.inherits_of_kept fun _ _ working => working)
      cases step with
      | saved => exact List.mem_singleton.mp member ▸ rfl
      | ended | checked | read | changed => simp at member

/-! Every run is handed out, entered and finished at most once. -/

/-- What an observation says about the tables, and the log itself. -/
def System.Records (system : System) : Observation → Prop
  | .handed _ run => system.db.Stores run (· ≠ .pending)
  | .entered drive run _ => .handed drive run ∈ system.log
  | .finished _ run => system.db.Stores run (·.isActive = false)
  | _ => True

structure System.Ledger (system : System) : Prop where
  handed : (system.log.filterMap Observation.handed?).Nodup
  entered : (system.log.filterMap Observation.entered?).Nodup
  finished : (system.log.filterMap Observation.finished?).Nodup
  records : ∀ observed ∈ system.log, system.Records observed
  held : ∀ service task run, system.Holds service task run →
    .handed task.drive run ∈ system.log
  unentered : ∀ service task run, system.task? service = some task →
    task.phase.stand = some (run, false) → run.id ∉ system.log.filterMap Observation.entered?

namespace System

variable {system next : System}

theorem Records.mono {now : Timestamp} {added : List Observation} {observed : Observation}
    (records : system.Records observed) (runs : RunsStep now system.db.runs next.db.runs)
    (log_eq : next.log = system.log ++ added) : next.Records observed := by
  cases observed with
  | handed drive run =>
      have stored : system.db.Stores run (· ≠ .pending) := records
      exact runs.stores (fun _ _ evolved => evolved.not_pending) stored
  | entered drive run body =>
      have before : .handed drive run ∈ system.log := records
      change _ ∈ next.log
      rw [log_eq]
      exact List.mem_append_left _ before
  | finished drive run =>
      have stored : system.db.Stores run (·.isActive = false) := records
      exact runs.stores (fun _ _ evolved => evolved.inactive) stored
  | validated | split | wrote | embedded => trivial

theorem Inherits.stand {service : Nat} {task : Task} (inherits : system.Inherits next service task)
    {stand : IngestionStepRun × Bool} (stands : task.phase.stand = some stand) :
    ∃ old, system.task? service = some old ∧ task.drive = old.drive ∧
      old.phase.stand = some stand := by
  rcases inherits with ⟨old, working, drive, same⟩ | ⟨_, _, none⟩
  · exact ⟨old, working, drive, same.symm.trans stands⟩
  · rw [none] at stands
    contradiction

theorem Holds.stand {service : Nat} {task : Task} {run : IngestionStepRun}
    (holds : system.Holds service task run) :
    ∃ entered, task.phase.stand = some (run, entered) := by
  have isRun := holds.2
  rw [Phase.run?_eq_stand, Option.map_eq_some_iff] at isRun
  obtain ⟨⟨_, entered⟩, stands, rfl⟩ := isRun
  exact ⟨entered, stands⟩

theorem holds_of_stand {service : Nat} {task : Task} {run : IngestionStepRun} {entered : Bool}
    (working : system.task? service = some task)
    (stands : task.phase.stand = some (run, entered)) : system.Holds service task run :=
  ⟨working, by rw [Phase.run?_eq_stand, stands]; rfl⟩

theorem Ledger.handed_of_entered (ledger : system.Ledger) {id : Uuid}
    (entered : id ∈ system.log.filterMap Observation.entered?) :
    id ∈ system.log.filterMap Observation.handed? := by
  obtain ⟨_, member, isId⟩ := List.mem_filterMap.mp entered
  obtain ⟨drive, run, body, rfl, same⟩ := Observation.eq_of_mark.2.1 isId
  exact List.mem_filterMap.mpr ⟨_, ledger.records _ member, congrArg some same⟩

theorem Ledger.marks_of_inherits (ledger : system.Ledger) {added : List Observation}
    (log_eq : next.log = system.log ++ added)
    (unentered : next.log.filterMap Observation.entered? =
      system.log.filterMap Observation.entered?)
    (inherits : ∀ service task, next.task? service = some task →
      system.Inherits next service task) :
    (∀ service task run, next.Holds service task run → .handed task.drive run ∈ next.log) ∧
      ∀ service task run, next.task? service = some task →
        task.phase.stand = some (run, false) →
        run.id ∉ next.log.filterMap Observation.entered? := by
  constructor
  · intro service task run holds
    obtain ⟨_, stands⟩ := holds.stand
    obtain ⟨old, working, drive, stood⟩ := (inherits service task holds.1).stand stands
    rw [log_eq, drive]
    exact List.mem_append_left _ (ledger.held _ _ _ (holds_of_stand working stood))
  · intro service task run working stands
    rw [unentered]
    obtain ⟨old, known, _, stood⟩ := (inherits service task working).stand stands
    exact ledger.unentered _ _ _ known stood

theorem Ledger.recorded {now : Timestamp} {added : List Observation} (ledger : system.Ledger)
    (runs : RunsStep now system.db.runs next.db.runs) (log_eq : next.log = system.log ++ added)
    (new : ∀ observed ∈ added, next.Records observed) :
    ∀ observed ∈ next.log, next.Records observed := by
  intro observed member
  rw [log_eq] at member
  rcases List.mem_append.mp member with member | member
  · exact (ledger.records observed member).mono runs log_eq
  · exact new observed member

theorem entered?_kept {observed : Observation} (log_eq : next.log = system.log ++ [observed])
    (other : observed.entered? = none) :
    next.log.filterMap Observation.entered? = system.log.filterMap Observation.entered? := by
  rw [log_eq, List.filterMap_append, List.filterMap_cons_none other, List.filterMap_nil,
    List.append_nil]

theorem Restands.stand {service other : Nat} {task later : Task}
    {stand found : IngestionStepRun × Bool} (restands : system.Restands next service task stand)
    (working : next.task? other = some later) (stands : later.phase.stand = some found) :
    (later.drive = task.drive ∧ found = stand) ∨
      (other ≠ service ∧ system.task? other = some later) := by
  have after := restands other later working
  split at after
  · obtain ⟨drive, stood⟩ := after
    exact .inl ⟨drive, Option.some.inj (stands.symm.trans stood)⟩
  · exact .inr ⟨‹_›, after⟩

theorem Ledger.unhanded_of_fresh (ledger : system.Ledger) (sane : system.Sane)
    {run : IngestionStepRun}
    (fresh : system.db.Stores run (· = .pending) ∨ ∀ row ∈ system.db.runs, row.id ≠ run.id) :
    run.id ∉ system.log.filterMap Observation.handed? := by
  intro known
  obtain ⟨_, member, isId⟩ := List.mem_filterMap.mp known
  obtain ⟨drive, held, rfl, same⟩ := Observation.eq_of_mark.1 isId
  have heldStored : system.db.Stores held (· ≠ .pending) := ledger.records _ member
  rcases fresh with pending | absent
  · obtain ⟨_, isPending, notPending⟩ := sane.shaped.row_eq pending heldStored same.symm
    exact notPending isPending
  · obtain ⟨row, stored, id, _⟩ := heldStored
    exact absent row stored (id.trans same)

/-! What each turn does to the ledger. -/

variable {now : Timestamp} {service : Nat} {task : Task} {run : IngestionStepRun}

theorem Ledger.silent {added : List Observation} (ledger : system.Ledger)
    (runs : RunsStep now system.db.runs next.db.runs) (log_eq : next.log = system.log ++ added)
    (silent : ∀ observed ∈ added, observed.drive? = none)
    (inherits : ∀ service task, next.task? service = some task →
      system.Inherits next service task) : next.Ledger := by
  have unseen : ∀ {pick : Observation → Option Uuid},
      (∀ observed, observed.drive? = none → pick observed = none) →
      next.log.filterMap pick = system.log.filterMap pick := fun blind => by
    rw [log_eq, List.filterMap_append, Observation.filterMap_silent blind silent,
      List.append_nil]
  obtain ⟨held, unentered⟩ :=
    ledger.marks_of_inherits log_eq (unseen Observation.entered?_silent) inherits
  refine ⟨?_, ?_, ?_, ledger.recorded runs log_eq fun observed member => ?_, held, unentered⟩
  · exact (unseen Observation.handed?_silent) ▸ ledger.handed
  · exact (unseen Observation.entered?_silent) ▸ ledger.entered
  · exact (unseen Observation.finished?_silent) ▸ ledger.finished
  · have quiet := silent observed member
    cases observed with
    | handed | entered | finished => contradiction
    | validated | split | wrote | embedded => trivial

theorem Ledger.hand (ledger : system.Ledger) (sane : system.Sane)
    (runs : RunsStep now system.db.runs next.db.runs)
    (log_eq : next.log = system.log ++ [.handed task.drive run])
    (restands : system.Restands next service task (run, false))
    (fresh : system.db.Stores run (· = .pending) ∨ ∀ row ∈ system.db.runs, row.id ≠ run.id)
    (stored : next.db.Stores run (· ≠ .pending)) : next.Ledger := by
  have new := ledger.unhanded_of_fresh sane fresh
  have unentered := entered?_kept log_eq rfl
  refine ⟨?_, ?_, ?_, ledger.recorded runs log_eq ?_, fun other later held holds => ?_,
    fun other later held isLater stands => ?_⟩
  · exact log_eq ▸ Observation.nodup_snoc ledger.handed fun id isId =>
      Option.some.inj isId ▸ new
  · exact unentered ▸ ledger.entered
  · exact log_eq ▸ Observation.nodup_snoc ledger.finished nofun
  · intro observed member
    exact List.mem_singleton.mp member ▸ stored
  · obtain ⟨_, stands⟩ := holds.stand
    rw [log_eq]
    rcases restands.stand holds.1 stands with ⟨drive, same⟩ | ⟨_, before⟩
    · obtain ⟨rfl, _⟩ := Prod.mk.inj same
      rw [drive]
      exact List.mem_append_right _ (List.mem_singleton_self _)
    · exact List.mem_append_left _ (ledger.held _ _ _ ⟨before, holds.2⟩)
  · rw [unentered]
    rcases restands.stand isLater stands with ⟨_, same⟩ | ⟨_, before⟩
    · obtain ⟨rfl, _⟩ := Prod.mk.inj same
      exact fun entered => new (ledger.handed_of_entered entered)
    · exact ledger.unentered _ _ _ before stands

theorem Ledger.enter {body : IngestionStep} (ledger : system.Ledger) (sane : system.Sane)
    (runs : RunsStep now system.db.runs next.db.runs) (working : system.task? service = some task)
    (stand : task.phase.stand = some (run, false))
    (log_eq : next.log = system.log ++ [.entered task.drive run body])
    (restands : system.Restands next service task (run, true)) : next.Ledger := by
  have mine := holds_of_stand working stand
  refine ⟨?_, ?_, ?_, ledger.recorded runs log_eq ?_, fun other later held holds => ?_,
    fun other later held isLater stands => ?_⟩
  · exact log_eq ▸ Observation.nodup_snoc ledger.handed nofun
  · exact log_eq ▸ Observation.nodup_snoc ledger.entered fun id isId =>
      Option.some.inj isId ▸ ledger.unentered _ _ _ working stand
  · exact log_eq ▸ Observation.nodup_snoc ledger.finished nofun
  · intro observed member
    obtain rfl := List.mem_singleton.mp member
    change _ ∈ next.log
    exact log_eq ▸ List.mem_append_left _ (ledger.held _ _ _ mine)
  · obtain ⟨_, stands⟩ := holds.stand
    rw [log_eq]
    refine List.mem_append_left _ ?_
    rcases restands.stand holds.1 stands with ⟨drive, same⟩ | ⟨_, before⟩
    · obtain ⟨rfl, _⟩ := Prod.mk.inj same
      rw [drive]
      exact ledger.held _ _ _ mine
    · exact ledger.held _ _ _ ⟨before, holds.2⟩
  · rcases restands.stand isLater stands with ⟨_, same⟩ | ⟨apart, before⟩
    · cases same
    · rw [log_eq, List.filterMap_append, List.mem_append]
      rintro (earlier | isNew)
      · exact ledger.unentered _ _ _ before stands earlier
      · have sameId : held.id = run.id := by simpa [Observation.entered?] using isNew
        exact apart (sane.apart _ _ _ _ _ _ (holds_of_stand before stands) mine sameId)

theorem Ledger.finish (ledger : system.Ledger) (sane : system.Sane)
    (runs : RunsStep now system.db.runs next.db.runs)
    (log_eq : next.log = system.log ++ [.finished task.drive run])
    (inherits : ∀ service task, next.task? service = some task →
      system.Inherits next service task)
    (running : system.db.Stores run (· = .running))
    (ended : next.db.Stores run (·.isActive = false)) : next.Ledger := by
  have unentered := entered?_kept log_eq rfl
  obtain ⟨held, loading⟩ := ledger.marks_of_inherits log_eq unentered inherits
  refine ⟨?_, unentered ▸ ledger.entered, ?_, ledger.recorded runs log_eq ?_, held, loading⟩
  · exact log_eq ▸ Observation.nodup_snoc ledger.handed nofun
  · refine log_eq ▸ Observation.nodup_snoc ledger.finished fun id isId known => ?_
    obtain rfl := Option.some.inj isId
    obtain ⟨_, member, isMark⟩ := List.mem_filterMap.mp known
    obtain ⟨drive, other, rfl, same⟩ := Observation.eq_of_mark.2.2 isMark
    have otherEnded : system.db.Stores other (·.isActive = false) := ledger.records _ member
    obtain ⟨_, rfl, notActive⟩ := sane.shaped.row_eq running otherEnded same.symm
    contradiction
  · intro observed member
    exact List.mem_singleton.mp member ▸ ended

theorem Ledger.step (ledger : system.Ledger) (sane : system.Sane) (turn : Turn system next)
    (runs : RunsStep now system.db.runs next.db.runs) : next.Ledger := by
  cases turn with
  | silent log_eq silent inherits => exact ledger.silent runs log_eq silent inherits
  | handed _ log_eq restands fresh stored =>
      exact ledger.hand sane runs log_eq restands fresh stored
  | entered working stand log_eq restands =>
      exact ledger.enter sane runs working stand log_eq restands
  | finished _ log_eq inherits running ended =>
      exact ledger.finish sane runs log_eq inherits running ended

end System

/-! A drive executes at most one body for an `extract` run, and at most those of
`chunk` and `embed` otherwise. -/

/-- What a drive has been given and has executed, by where its task stands. -/
inductive Trail : Option (IngestionStepRun × Bool) → List IngestionStepRun →
    List IngestionStep → Prop
  | begun : Trail none [] []
  | given : Trail (some (run, false)) [run] []
  | entered (own : run.step ≠ .extract → body = run.step) (real : run.step ≠ .completed) :
      Trail (some (run, true)) [run] [body]
  | advanced (chunk : before.step = .chunk) (embed : run.step = .embed) :
      Trail (some (run, false)) [before, run] [.chunk]
  | last (chunk : before.step = .chunk) (embed : run.step = .embed) :
      Trail (some (run, true)) [before, run] [.chunk, .embed]

/-- What a drive may execute, by the run it was given first. -/
def Bounded : List IngestionStepRun → List IngestionStep → Prop
  | [], bodies => bodies = []
  | run :: _, bodies =>
      if run.step = .extract then bodies.length ≤ 1 else bodies.Sublist [.chunk, .embed]

omit [Isolang] in
theorem Trail.bounded {stand : Option (IngestionStepRun × Bool)} {runs : List IngestionStepRun}
    {bodies : List IngestionStep} (trail : Trail stand runs bodies) : Bounded runs bodies := by
  cases trail with
  | begun => rfl
  | given => unfold Bounded; split <;> simp
  | @entered body run own real =>
      simp only [Bounded]
      split
      · simp
      · rename_i past
        rw [own past]
        cases step : run.step with
        | chunk | embed => decide
        | extract => exact absurd step past
        | completed => exact absurd step real
  | advanced chunk => simp [Bounded, chunk]
  | last chunk => simp [Bounded, chunk]

structure System.Trails (system : System) : Prop where
  trail : ∀ service task, system.task? service = some task →
    Trail task.phase.stand (given task.drive system.log) (bodies task.drive system.log)
  unused : ∀ drive, system.drives ≤ drive →
    given drive system.log = [] ∧ bodies drive system.log = []
  bounded : ∀ drive, Bounded (given drive system.log) (bodies drive system.log)

namespace System

variable {system next : System}

theorem Trails.of_grown (trails : system.Trails) (sane : system.Sane) {service : Nat}
    {task : Task} (working : system.task? service = some task)
    {stand : IngestionStepRun × Bool} (restands : system.Restands next service task stand)
    (drives : system.drives ≤ next.drives)
    (others : ∀ drive, drive ≠ task.drive → given drive next.log = given drive system.log ∧
      bodies drive next.log = bodies drive system.log)
    (own : Trail (some stand) (given task.drive next.log) (bodies task.drive next.log)) :
    next.Trails where
  trail other later isLater := by
    have after := restands other later isLater
    split at after
    · obtain ⟨drive, stands⟩ := after
      rw [drive, stands]
      exact own
    · rename_i apart
      have otherDrive : later.drive ≠ task.drive := fun same =>
        apart (sane.distinct _ _ _ _ after working same)
      obtain ⟨sameGiven, sameBodies⟩ := others _ otherDrive
      rw [sameGiven, sameBodies]
      exact trails.trail _ _ after
  unused drive unused := by
    have unused := Nat.le_trans drives unused
    have otherDrive : drive ≠ task.drive := Nat.ne_of_gt
      (Nat.lt_of_lt_of_le (sane.numbered _ _ working) unused)
    obtain ⟨sameGiven, sameBodies⟩ := others _ otherDrive
    rw [sameGiven, sameBodies]
    exact trails.unused _ unused
  bounded drive := by
    by_cases same : drive = task.drive
    · exact same ▸ own.bounded
    · obtain ⟨sameGiven, sameBodies⟩ := others _ same
      rw [sameGiven, sameBodies]
      exact trails.bounded _

theorem Trails.of_inherited (trails : system.Trails) (drives : system.drives ≤ next.drives)
    (same : ∀ drive, given drive next.log = given drive system.log ∧
      bodies drive next.log = bodies drive system.log)
    (inherits : ∀ service task, next.task? service = some task →
      system.Inherits next service task) : next.Trails where
  trail service task working := by
    obtain ⟨sameGiven, sameBodies⟩ := same task.drive
    rw [sameGiven, sameBodies]
    rcases inherits service task working with ⟨old, known, drive, stand⟩ | ⟨drive, _, stand⟩
    · rw [drive, stand]
      exact trails.trail _ _ known
    · obtain ⟨noRun, noBody⟩ := trails.unused task.drive (Nat.le_of_eq drive.symm)
      rw [noRun, noBody, stand]
      exact .begun
  unused drive unused := by
    rw [(same drive).1, (same drive).2]
    exact trails.unused drive (Nat.le_trans drives unused)
  bounded drive := by
    rw [(same drive).1, (same drive).2]
    exact trails.bounded drive

theorem Trails.step (trails : system.Trails) (sane : system.Sane) (turn : Turn system next)
    (drives : system.drives ≤ next.drives) : next.Trails := by
  cases turn with
  | silent log_eq silent inherits =>
      refine trails.of_inherited drives (fun drive => ?_) inherits
      rw [log_eq, given, given, bodies, bodies, List.filterMap_append, List.filterMap_append,
        Observation.filterMap_silent (Observation.given?_silent drive) silent,
        Observation.filterMap_silent (Observation.body?_silent drive) silent,
        List.append_nil, List.append_nil]
      exact ⟨rfl, rfl⟩
  | finished holds log_eq inherits =>
      refine trails.of_inherited drives (fun drive => ?_) inherits
      rw [log_eq, given, given, bodies, bodies, List.filterMap_append, List.filterMap_append]
      exact ⟨List.append_nil _, List.append_nil _⟩
  | @handed service task run working log_eq restands fresh stored before =>
      refine trails.of_grown sane working restands drives (fun drive other => ?_) ?_
      · rw [log_eq]
        simp [given, bodies, Observation.given?, Observation.body?, Ne.symm other]
      · have earlier := trails.trail _ _ working
        have grown : given task.drive next.log = given task.drive system.log ++ [run] := by
          simp [log_eq, given, Observation.given?]
        have kept : bodies task.drive next.log = bodies task.drive system.log := by
          simp [log_eq, bodies, Observation.body?]
        rw [grown, kept]
        generalize given task.drive system.log = runs at earlier
        generalize bodies task.drive system.log = executed at earlier
        rcases before with first | ⟨last, stands, chunk, embed⟩
        · rw [first] at earlier
          cases earlier
          exact .given
        · rw [stands] at earlier
          cases earlier with
          | entered own =>
              rw [own (by simp [chunk]), chunk]
              exact .advanced chunk embed
          | last _ isEmbed => simp [chunk] at isEmbed
  | @entered service task run body working stand log_eq restands own =>
      refine trails.of_grown sane working restands drives (fun drive other => ?_) ?_
      · rw [log_eq]
        simp [given, bodies, Observation.given?, Observation.body?, Ne.symm other]
      · have earlier := trails.trail _ _ working
        have kept : given task.drive next.log = given task.drive system.log := by
          simp [log_eq, given, Observation.given?]
        have grown : bodies task.drive next.log = bodies task.drive system.log ++ [body] := by
          simp [log_eq, bodies, Observation.body?]
        rw [grown, kept]
        rw [stand] at earlier
        generalize given task.drive system.log = runs at earlier
        generalize bodies task.drive system.log = executed at earlier
        cases earlier with
        | given =>
            exact .entered own (sane.shaped.step_ne_completed
              (sane.stored _ _ _ (holds_of_stand working stand)).2)
        | advanced chunk embed =>
            rw [own (by simp [embed]), embed]
            exact .last chunk embed

end System

end Zyndeck
