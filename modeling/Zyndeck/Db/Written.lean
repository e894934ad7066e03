import Zyndeck.Db.Constraints

namespace Zyndeck

open Data

/-! Where the rows come from. -/

theorem insertChunks_mem {ids : Nat → Uuid} {job : Uuid} {index : Nat} {new : List NewChunk}
    {db next : Db} (inserted : insertChunks ids job index new db = .ok next) :
    ∀ row ∈ next.chunks, row ∈ db.chunks ∨ ∃ place, row.id = ids place := by
  induction new generalizing index db with
  | nil =>
      obtain rfl := Except.ok.inj inserted
      exact fun row member => .inl member
  | cons chunk rest induction =>
      simp only [insertChunks] at inserted
      cases first : insertChunk (ids index) job chunk db with
      | error fault => simp [first, Bind.bind, Except.bind] at inserted
      | ok between =>
          rw [first] at inserted
          intro row member
          obtain ⟨_, isBetween⟩ := insertChunk_ok first
          rcases induction inserted row member with stored | drawn
          · rw [isBetween] at stored
            rcases List.mem_append.mp stored with stored | isNew
            · exact .inl stored
            · obtain rfl := List.mem_singleton.mp isNew
              exact .inr ⟨index, rfl⟩
          · exact .inr drawn

/-- A row is there under a drawn id, or was there under its id before. -/
structure Adds (drawn : Uuid → Prop) (db next : Db) : Prop where
  games : ∀ row ∈ next.games, drawn row.id ∨ ∃ old ∈ db.games, old.id = row.id
  jobs : ∀ row ∈ next.jobs, drawn row.id ∨
    ∃ old ∈ db.jobs, old.id = row.id ∧ old.gameId = row.gameId
  runs : ∀ row ∈ next.runs, drawn row.id ∨
    ∃ old ∈ db.runs, old.id = row.id ∧ old.jobId = row.jobId
  chunks : ∀ row ∈ next.chunks, drawn row.id ∨ row ∈ db.chunks

namespace Adds

variable {drawn : Uuid → Prop} {db next : Db}

theorem refl (drawn : Uuid → Prop) (db : Db) : Adds drawn db db where
  games row member := .inr ⟨row, member, rfl⟩
  jobs row member := .inr ⟨row, member, rfl, rfl⟩
  runs row member := .inr ⟨row, member, rfl, rfl⟩
  chunks _ member := .inr member

theorem insertJob {row : JobRow} (adds : Adds drawn db next) (isNew : drawn row.id) :
    Adds drawn db (next.apply (.insertJob row)) :=
  { adds with
    jobs := fun other member => by
      rcases List.mem_append.mp member with stored | same
      · exact adds.jobs other stored
      · obtain rfl := List.mem_singleton.mp same
        exact .inl isNew }

theorem insertRun {row : StepRunRow} (adds : Adds drawn db next) (isNew : drawn row.id) :
    Adds drawn db (next.apply (.insertRun row)) :=
  { adds with
    runs := fun other member => by
      rcases List.mem_append.mp member with stored | same
      · exact adds.runs other stored
      · obtain rfl := List.mem_singleton.mp same
        exact .inl isNew }

theorem setStep (job : Uuid) (step : IngestionStep) :
    Adds drawn db (db.apply (.setStep job step)) :=
  { refl drawn db with
    jobs := fun row member => by
      rcases mem_updateWhere.mp member with ⟨old, stored, _, rfl⟩ | ⟨stored, _⟩
      · exact .inr ⟨old, stored, rfl, rfl⟩
      · exact .inr ⟨row, stored, rfl, rfl⟩ }

theorem updateRuns {now : Timestamp} {hit : StepRunRow → Bool} {set : StepRunRow → StepRunRow}
    (each : ∀ row, hit row = true → StepRunRow.Evolves now row (set row)) :
    Adds drawn db (db.updateRuns hit set).2 :=
  { refl drawn db with
    runs := fun row member => by
      obtain ⟨old, stored, rfl⟩ := List.mem_map.mp member
      have evolved := evolves_updateWhere each old
      exact .inr ⟨old, stored, evolved.id_eq.symm, evolved.jobId_eq.symm⟩ }

end Adds

inductive CallEffect (drawn : Uuid → Prop) (db : Db) : Db → Prop
  | users (users : List UserRow) : CallEffect drawn db { db with users := users }
  | forgot (target : Uuid) : CallEffect drawn db { db with
      users := db.users.filter (·.id ≠ target)
      jobs := updateWhere (·.createdBy = some target) ({ · with createdBy := none }) db.jobs }
  | added (row : GameRow) (isNew : drawn row.id) :
      CallEffect drawn db { db with games := db.games ++ [row] }
  | renamed (games : List GameRow) (ids : games.map (·.id) = db.games.map (·.id)) :
      CallEffect drawn db { db with games := games }
  | deleted (game : Uuid) : CallEffect drawn db (db.deleteGame game).2

theorem RepositoryCall.effect {drawn : Uuid → Prop} {draw : RepositoryDraw}
    (draws : drawn draw.game.gameId) (call : RepositoryCall) (db : Db) :
    CallEffect drawn db (call.exec draw db).2 := by
  cases call with
  | user call =>
      cases call with
      | create new =>
          simp only [exec, UserCall.exec, Db.createUser]
          split
          · exact .users db.users
          · split
            · exact .users db.users
            · exact .users _
      | findById => exact .users db.users
      | update id changes =>
          simp only [exec, UserCall.exec, Db.updateUser]
          split
          · exact .users db.users
          · split
            · exact .users db.users
            · split
              · exact .users db.users
              · exact .users _
      | delete id =>
          simp only [exec, UserCall.exec, Db.deleteUser]
          split
          · exact .users db.users
          · split
            · exact .users db.users
            · exact .forgot id
  | createGame new =>
      simp only [exec, Db.createGame]
      split
      · exact .users db.users
      · split
        · exact .users db.users
        · split
          · exact .users db.users
          · exact .added _ draws
  | updateGame id changes =>
      have keepsId : ∀ row : GameRow, ({ row with name := changes.name } : GameRow).id = row.id :=
        fun _ => rfl
      simp only [exec, Db.updateGame]
      split
      · exact .users db.users
      · exact .renamed _ (map_updateWhere keepsId db.games)
  | deleteGame id => exact .deleted id
  | findCredentialsByUsername | countUsers | listUsers | findGame | countGames | listGames =>
      exact .users db.users

theorem Db.upsertUser_effect (drawn : Uuid → Prop) (draw : Draw) (admin : NewUser) (db : Db) :
    CallEffect drawn db (db.upsertUser draw admin).2 := by
  simp only [Db.upsertUser]
  split
  · exact .users db.users
  · split
    · exact .users _
    · split
      · exact .users db.users
      · exact .users _

theorem CallEffect.adds {drawn : Uuid → Prop} {db next : Db} (effect : CallEffect drawn db next) :
    Adds drawn db next := by
  have all := Adds.refl drawn db
  cases effect with
  | users => exact { all with }
  | forgot target =>
      refine { all with jobs := fun row member => ?_ }
      rcases mem_updateWhere.mp member with ⟨old, stored, _, rfl⟩ | ⟨stored, _⟩
      · exact .inr ⟨old, stored, rfl, rfl⟩
      · exact .inr ⟨row, stored, rfl, rfl⟩
  | added row isNew =>
      refine { all with games := fun other member => ?_ }
      rcases List.mem_append.mp member with stored | same
      · exact .inr ⟨other, stored, rfl⟩
      · obtain rfl := List.mem_singleton.mp same
        exact .inl isNew
  | renamed games ids =>
      refine { all with games := fun row member => .inr ?_ }
      have listed : row.id ∈ games.map (·.id) := List.mem_map_of_mem member
      rw [ids] at listed
      exact List.mem_map.mp listed
  | deleted game =>
      exact
        { games := fun row member => all.games row (List.mem_of_mem_filter member)
          jobs := fun row member => all.jobs row (List.mem_of_mem_filter member)
          runs := fun row member => all.runs row (List.mem_of_mem_filter member)
          chunks := fun row member => all.chunks row (List.mem_of_mem_filter member) }

theorem CallEffect.history {drawn : Uuid → Prop} {db next : Db}
    (effect : CallEffect drawn db next) (constraints : db.Constraints) {job : Uuid}
    {history : History} (known : next.history job = some history) :
    db.history job = some history := by
  cases effect with
  | users | added | renamed => exact known
  | forgot target =>
      obtain ⟨row, found, rfl⟩ := Db.history_eq_some.mp known
      have kept := find?_updateWhere (·.createdBy = some target) (·.id = job)
        (fun row : JobRow => { row with createdBy := none }) (fun _ => rfl) db.jobs
      obtain ⟨old, isOld, rfl⟩ := Option.map_eq_some_iff.mp (kept.symm.trans found)
      refine Db.history_eq_some.mpr ⟨old, isOld, ?_⟩
      split <;> rfl
  | deleted game =>
      obtain ⟨row, found, rfl⟩ := Db.history_eq_some.mp known
      have unique : ((db.deleteGame game).2.jobs.map (·.id)).Nodup :=
        (constraints.deleteGame game).jobIds
      obtain ⟨member, isJob⟩ := (find?_key_eq_some unique).mp found
      obtain ⟨stored, other⟩ := List.mem_filter.mp member
      have isRow : db.job? job = some row :=
        (find?_key_eq_some constraints.jobIds).mpr ⟨stored, isJob⟩
      refine Db.history_eq_some.mpr ⟨row, isRow, ?_⟩
      have spared : job ∉ (db.jobs.filter (·.gameId = game)).map (·.id) := by
        intro listed
        obtain ⟨of, ofGame, same⟩ := List.mem_map.mp listed
        obtain ⟨ofStored, isGame⟩ := List.mem_filter.mp ofGame
        obtain rfl := List.inj_on_of_nodup_map constraints.jobIds ofStored stored
          (same.trans isJob.symm)
        exact of_decide_eq_true other (of_decide_eq_true isGame)
      refine congrArg _ ?_
      simp only [Db.runsOf, Db.deleteGame, List.filter_filter]
      refine List.filter_congr fun run _ => ?_
      by_cases ofJob : run.jobId = job
      · simpa [ofJob] using spared
      · simp [ofJob]

section

variable [Isolang]

namespace Adds

variable {drawn : Uuid → Prop} {db next : Db}

theorem effect {env : Env} {operation : Operation} {result : Except Error Output}
    (effect : Effect env db operation result next) (draws : drawn env.runId)
    (starts : ∀ new, operation = .start new → drawn env.jobId) : Adds drawn db next := by
  have isRun : ∀ {job : Uuid} {step : IngestionStep} {status : RunStatus}
      {startedAt : Option Timestamp} {before : Db} {run : StepRunRow},
      Zyndeck.insertRun env job step status startedAt before = .ok run → drawn run.id := by
    intro job step status startedAt before run inserted
    obtain ⟨rfl, _⟩ := insertRun_ok.mp inserted
    exact draws
  cases effect with
  | failed => exact refl _ _
  | started created inserted =>
      obtain ⟨rfl, _⟩ := createJob_ok created
      exact ((refl _ _).insertJob (starts _ rfl)).insertRun (isRun inserted)
  | claimed => exact updateRuns (claim_evolves _ _)
  | finished => exact updateRuns (finish_evolves _ _ _)
  | aborted => exact updateRuns (abort_evolves _ _)
  | begun inserted => exact (refl _ _).insertRun (isRun inserted)
  | restarted _ _ inserted => exact (refl _ _).insertRun (isRun inserted)
  | validated _ _ _ _ _ _ inserted => exact (setStep _ _).insertRun (isRun inserted)
  | advanced _ _ _ _ _ _ inserted => exact (setStep _ _).insertRun (isRun inserted)
  | completed => exact setStep _ _

end Adds

/-! The writes of all parties. -/

/-- What one party commits at once, with the ids that it draws. -/
inductive Written (drawn : Uuid → Prop) (db : Db) : Db → Prop
  | kept : Written drawn db db
  | called (effect : Effect env db operation result next) (pipeline : operation.isBegin = false)
      (draws : drawn env.runId) (starts : ∀ new, operation = .start new → drawn env.jobId) :
      Written drawn db next
  | upserted (written : db.upsertTranscript job content = .ok next) : Written drawn db next
  | replaced (draws : ∀ index, drawn (env.chunkId index))
      (replaced : replaceChunks env job new db = .ok next) : Written drawn db next
  | embedded (stored : storeEmbedding chunk embedding db = .ok next) : Written drawn db next
  | requested (call : RepositoryCall) (draw : RepositoryDraw) (draws : drawn draw.game.gameId) :
      Written drawn db (call.exec draw db).2
  | started (draw : Draw) (admin : NewUser) : Written drawn db (db.upsertUser draw admin).2

theorem Written.constraints {drawn : Uuid → Prop} {db next : Db} (written : Written drawn db next)
    (constraints : db.Constraints) : next.Constraints := by
  cases written with
  | kept => exact constraints
  | called effect => exact constraints.effect effect
  | upserted written => exact constraints.upsertTranscript written
  | replaced _ replaced => exact (constraints.deleteChunks _).insertChunks replaced
  | embedded stored => exact constraints.storeEmbedding stored
  | requested call draw => exact constraints.repositoryCall draw call
  | started draw admin => exact constraints.upsertUser draw admin

theorem Written.adds {drawn : Uuid → Prop} {db next : Db} (written : Written drawn db next) :
    Adds drawn db next := by
  have all := Adds.refl drawn db
  cases written with
  | kept => exact all
  | called effect _ draws starts => exact .effect effect draws starts
  | upserted written =>
      rw [(upsertTranscript_ok written).rest]
      exact { all with }
  | @replaced env job new _ draws replaced =>
      have chunks := insertChunks_mem replaced
      rw [insertChunks_rest replaced]
      refine { all with chunks := fun row member => ?_ }
      rcases chunks row member with stored | ⟨place, isId⟩
      · exact .inr (List.mem_of_mem_filter stored)
      · exact .inl (isId ▸ draws place)
  | embedded stored =>
      rw [storeEmbedding_rest stored]
      exact { all with }
  | requested call draw draws => exact (RepositoryCall.effect draws call db).adds
  | started draw admin => exact (Db.upsertUser_effect _ draw admin db).adds

theorem Db.Shaped.of_kept {db next : Db} (shaped : db.Shaped) (constraints : next.Constraints)
    (languages : ∀ row ∈ next.jobs, ∃ old ∈ db.jobs, old.language = row.language)
    (kept : ∀ job history, next.history job = some history → db.history job = some history) :
    next.Shaped where
  jobs := constraints.jobIds
  runs := constraints.runIds
  oneActive := constraints.oneActive
  referenced run member := Db.job?_isSome.mpr (constraints.references.runs run member)
  languages row member := by
    obtain ⟨old, stored, same⟩ := languages row member
    exact same ▸ shaped.languages old stored
  histories job history known := shaped.histories job history (kept job history known)

omit [Isolang] in
theorem CallEffect.languages {drawn : Uuid → Prop} {db next : Db}
    (effect : CallEffect drawn db next) :
    ∀ row ∈ next.jobs, ∃ old ∈ db.jobs, old.language = row.language := by
  intro row member
  cases effect with
  | users | added | renamed => exact ⟨row, member, rfl⟩
  | forgot =>
      rcases mem_updateWhere.mp member with ⟨old, stored, _, rfl⟩ | ⟨stored, _⟩
      · exact ⟨old, stored, rfl⟩
      · exact ⟨row, stored, rfl⟩
  | deleted => exact ⟨row, List.mem_of_mem_filter member, rfl⟩

theorem Written.shaped {drawn : Uuid → Prop} {db next : Db} (written : Written drawn db next)
    (constraints : db.Constraints) (shaped : db.Shaped) : next.Shaped := by
  have later := written.constraints constraints
  cases written with
  | kept => exact shaped
  | called effect pipeline => exact effect.shaped pipeline shaped
  | upserted written =>
      have rest := (upsertTranscript_ok written).rest
      refine shaped.of_kept later ?_ ?_ <;> rw [rest]
      · exact fun row member => ⟨row, member, rfl⟩
      · exact fun _ _ known => known
  | replaced _ replaced =>
      have rest := insertChunks_rest replaced
      refine shaped.of_kept later ?_ ?_ <;> rw [rest]
      · exact fun row member => ⟨row, member, rfl⟩
      · exact fun _ _ known => known
  | embedded stored =>
      have rest := storeEmbedding_rest stored
      refine shaped.of_kept later ?_ ?_ <;> rw [rest]
      · exact fun row member => ⟨row, member, rfl⟩
      · exact fun _ _ known => known
  | requested call draw draws =>
      have effect := RepositoryCall.effect draws call db
      exact shaped.of_kept later effect.languages fun _ _ known => effect.history constraints known
  | started draw admin =>
      have effect := Db.upsertUser_effect drawn draw admin db
      exact shaped.of_kept later effect.languages fun _ _ known => effect.history constraints known

end

end Zyndeck
