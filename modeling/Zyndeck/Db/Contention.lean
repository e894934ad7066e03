import Zyndeck.Db.Linearizable

namespace Zyndeck

open Data

/-! Validations and restarts that contend for a job: one of them succeeds. -/

section

variable [Isolang]

namespace Operation

def contends (job : Uuid) : Operation → Bool
  | .restart other | .validate other => decide (other = job)
  | _ => false

/-- The other calls on a job.  `finish` names a run, and is without effect on one that
nobody has claimed. -/
def disturbs (job : Uuid) : Operation → Bool
  | .claim other | .abort other | .continue other | .begin other _ => decide (other = job)
  | _ => false

def draws : Operation → Bool
  | .claim _ | .finish .. | .abort _ => false
  | _ => true

end Operation

def drawn (calls : List Call) : List Uuid :=
  (calls.filter (·.operation.draws)).map (·.env.runId)

/-- Calls that contend for a job, with nothing else going on on it, from tables in
which validating the job would succeed. -/
structure Contention (start : Db) (job : Uuid) (calls : List Call) : Prop where
  validates : ∃ env run, (Operation.exec env (.validate job) start).run? = some run
  contended : ∃ call ∈ calls, call.operation.contends job = true
  undisturbed : ∀ call ∈ calls, call.operation.disturbs job = false
  /-- `gen_random_uuid()` yields new ids. -/
  fresh : (start.runs.map (·.id) ++ drawn calls).Nodup

def wins (job : Uuid) (ended : List (Call × Except Error Output)) : Nat :=
  ended.countP fun ended => ended.1.operation.contends job && ended.2.isOk

/-- No validation and no restart of the job gets through. -/
def Db.Closed (db : Db) (job : Uuid) : Prop :=
  (∃ row, db.job? job = some row ∧ row.step ≠ .extract) ∨
    ∃ run ∈ db.runsOf job, run.status = .pending ∧ run.startedAt = none

/-- A job that can be validated. -/
structure Db.Ready (db : Db) (job : Uuid) : Prop where
  idle : db.Idle job (db.runsOf job)
  succeeded : ∀ tie, ∃ last, History.Succeeded (db.runsOf job) .extract tie last
  bounded : nextAttempt .chunk (db.runsOf job) ≤ i32Max

variable {env : Env} {db next start : Db} {job : Uuid} {operation : Operation}
  {result : Except Error Output}

omit [Isolang] in
theorem laterFirst_total {tie other : Uuid → Nat} {first second : StepRunRow}
    (apart : first.attempt ≠ second.attempt) (never : laterFirst tie first second = false) :
    laterFirst other second first = true := by
  revert never
  simp only [laterFirst]
  cases first.startedAt with
  | none =>
      cases second.startedAt with
      | none =>
          simp
          omega
      | some _ => simp
  | some firstStart =>
      cases second.startedAt with
      | none => simp
      | some secondStart =>
          rcases Int.lt_trichotomy firstStart secondStart with earlier | rfl | later
          · simp [earlier]
          · simp
            omega
          · simp [Int.not_le.mpr later]

omit [Isolang] in
theorem History.Succeeded.untied {runs : List StepRunRow} {tie : Uuid → Nat} {last : StepRunRow}
    (succeeded : History.Succeeded runs .extract tie last)
    (shaped : History.Shaped ⟨.extract, runs⟩) (other : Uuid → Nat) :
    History.Succeeded runs .extract other last where
  latest := by
    obtain ⟨extracts, _, keys⟩ := shaped.keys
    have unique : (runs.map (·.attempt)).Nodup := by
      have attempts := congrArg (List.map Prod.snd) keys
      simp only [keysOf, phaseTwo, List.append_nil, List.map_map, Function.comp_def,
        StepRunRow.key, List.map_id_fun', id_eq] at attempts
      exact attempts ▸ List.nodup_range'
    have member := firstBy_mem succeeded.latest
    refine firstBy_eq_of_precedes (laterFirst_strictOrder other) member fun row stored apart => ?_
    refine laterFirst_total (fun same => apart ?_)
      (firstBy_not_before (laterFirst_strictOrder tie) succeeded.latest row stored)
    exact List.inj_on_of_nodup_map unique stored member same
  step_eq := succeeded.step_eq
  status_eq := succeeded.status_eq
  complete := succeeded.complete

theorem ready_of_validate {run : IngestionStepRun} (shaped : db.Shaped)
    (validates : (Operation.exec env (.validate job) db).run? = some run) : db.Ready job := by
  have effect := exec_effect env (.validate job) db
  generalize Operation.exec env (.validate job) db = outcome at validates effect
  obtain ⟨result, next, notified⟩ := outcome
  cases effect with
  | failed => simp [Outcome.run?] at validates
  | validated found step latest lastStep lastStatus lastComplete inserted =>
      have known : db.history job = some ⟨.extract, db.runsOf job⟩ := by
        rw [Db.history_of_found found, step]
      have shaped := shaped.histories job _ known
      have succeeded : History.Succeeded (db.runsOf job) .extract env.tie _ :=
        ⟨latest, lastStep, lastStatus, lastComplete⟩
      refine ⟨⟨known, (insertRun_inserts rfl inserted).inactive⟩,
        fun tie => ⟨_, succeeded.untied shaped tie⟩, ?_⟩
      rw [shaped.nextAttempt_chunk]
      decide

omit [Isolang] in
theorem Db.Ready.congr (ready : start.Ready job) (sameJob : db.job? job = start.job? job)
    (sameRuns : db.runsOf job = start.runsOf job) : db.Ready job where
  idle := by
    refine ⟨?_, sameRuns ▸ ready.idle.inactive⟩
    rw [sameRuns, ← ready.idle.known, Db.history, Db.history, sameJob, sameRuns]
  succeeded := sameRuns ▸ ready.succeeded
  bounded := sameRuns ▸ ready.bounded

/-! What each call does. -/

theorem Effect.leaves (effect : Effect env db operation result next)
    (known : (db.job? job).isSome) (apart : operation.contends job = false)
    (undisturbed : operation.disturbs job = false)
    (settled : ∀ row ∈ db.runsOf job, row.status ≠ .running) :
    next.job? job = db.job? job ∧ next.runsOf job = db.runsOf job := by
  have updated : ∀ {hit set}, (∀ row, (set row).jobId = row.jobId) →
      (∀ row ∈ db.runsOf job, hit row = false) →
      (db.updateRuns hit set).2.runsOf job = db.runsOf job := fun kept missed => by
    rw [runsOf_updateRuns kept, updateWhere_eq_self missed]
  cases effect with
  | failed => exact ⟨rfl, rfl⟩
  | claimed =>
      refine ⟨rfl, updated (fun _ => rfl) fun row member => ?_⟩
      have ofJob : row.jobId = job := by simpa using (List.mem_filter.mp member).2
      simp only [Operation.disturbs, decide_eq_false_iff_not] at undisturbed
      simp [StepRunRow.isPendingOf, ofJob, Ne.symm undisturbed]
  | finished =>
      exact ⟨rfl, updated (fun _ => rfl) fun row member => by
        simp [StepRunRow.isRunningRun, settled row member]⟩
  | aborted =>
      refine ⟨rfl, updated (fun _ => rfl) fun row member => ?_⟩
      have ofJob : row.jobId = job := by simpa using (List.mem_filter.mp member).2
      simp only [Operation.disturbs, decide_eq_false_iff_not] at undisturbed
      simp [StepRunRow.isActiveOf, ofJob, Ne.symm undisturbed]
  | @started _ row run _ created enqueued =>
      obtain ⟨_, unknown⟩ := createJob_ok created
      have other : row.id ≠ job := fun same => unknown (same ▸ Db.job?_isSome.mp known)
      refine ⟨?_, runsOf_insertRun_of_ne (insertRun_jobId enqueued ▸ other)⟩
      simp [Db.job?, Db.apply, List.find?_append, other]
  | begun begun =>
      simp only [Operation.disturbs, decide_eq_false_iff_not] at undisturbed
      exact ⟨rfl, runsOf_insertRun_of_ne (insertRun_jobId begun ▸ undisturbed)⟩
  | restarted _ _ enqueued =>
      simp only [Operation.contends, decide_eq_false_iff_not] at apart
      exact ⟨rfl, runsOf_insertRun_of_ne (insertRun_jobId enqueued ▸ apart)⟩
  | validated _ _ _ _ _ _ enqueued =>
      simp only [Operation.contends, decide_eq_false_iff_not] at apart
      exact ⟨job?_setStep_of_ne apart, runsOf_insertRun_of_ne (insertRun_jobId enqueued ▸ apart)⟩
  | advanced _ _ _ _ _ _ begun =>
      simp only [Operation.disturbs, decide_eq_false_iff_not] at undisturbed
      exact ⟨job?_setStep_of_ne undisturbed,
        runsOf_insertRun_of_ne (insertRun_jobId begun ▸ undisturbed)⟩
  | completed =>
      simp only [Operation.disturbs, decide_eq_false_iff_not] at undisturbed
      exact ⟨job?_setStep_of_ne undisturbed, rfl⟩

theorem Effect.ids (effect : Effect env db operation result next) :
    ∀ row ∈ next.runs,
      row.id ∈ db.runs.map (·.id) ∨ operation.draws = true ∧ row.id = env.runId := by
  have updated : ∀ {hit set}, (∀ row, hit row = true → StepRunRow.Evolves env.now row (set row)) →
      ∀ row ∈ (db.updateRuns hit set).2.runs, row.id ∈ db.runs.map (·.id) :=
    fun each row member => by
    obtain ⟨old, stored, rfl⟩ := List.mem_map.mp member
    exact (evolves_updateWhere each old).id_eq ▸ List.mem_map_of_mem stored
  have inserted : ∀ {other step status startedAt run} {between : Db},
      insertRun env other step status startedAt between = .ok run → operation.draws = true →
      ∀ row ∈ db.runs ++ [run], row.id ∈ db.runs.map (·.id) ∨
        operation.draws = true ∧ row.id = env.runId := fun inserted draws row member => by
    rcases List.mem_append.mp member with stored | isNew
    · exact .inl (List.mem_map_of_mem stored)
    · obtain ⟨rfl, _⟩ := insertRun_ok.mp inserted
      exact .inr ⟨draws, List.mem_singleton.mp isNew ▸ rfl⟩
  cases effect with
  | failed | completed => exact fun row member => .inl (List.mem_map_of_mem member)
  | claimed => exact fun row member => .inl (updated (claim_evolves _ _) row member)
  | finished => exact fun row member => .inl (updated (finish_evolves _ _ _) row member)
  | aborted => exact fun row member => .inl (updated (abort_evolves _ _) row member)
  | started _ enqueued => exact inserted enqueued rfl
  | begun begun => exact inserted begun rfl
  | restarted _ _ enqueued => exact inserted enqueued rfl
  | validated _ _ _ _ _ _ enqueued => exact inserted enqueued rfl
  | advanced _ _ _ _ _ _ begun => exact inserted begun rfl

theorem Effect.rejected (effect : Effect env db operation result next)
    (contends : operation.contends job = true) (closed : db.Closed job) :
    result.isOk = false ∧ next = db := by
  cases effect with
  | failed => exact ⟨rfl, rfl⟩
  | restarted found step enqueued =>
      obtain rfl := of_decide_eq_true contends
      rcases closed with ⟨row, known, past⟩ | ⟨run, member, pending, _⟩
      · obtain rfl := Option.some.inj (known.symm.trans found)
        exact absurd step past
      · have ended := (insertRun_inserts rfl enqueued).inactive run member
        rw [pending] at ended
        contradiction
  | validated found step latest lastStep lastStatus lastComplete =>
      obtain rfl := of_decide_eq_true contends
      rcases closed with ⟨row, known, past⟩ | ⟨run, member, _, unstarted⟩
      · obtain rfl := Option.some.inj (known.symm.trans found)
        exact absurd step past
      · have started := started_of_succeeded ⟨latest, lastStep, lastStatus, lastComplete⟩ run member
        rw [unstarted] at started
        contradiction
  | started | claimed | finished | aborted | begun | advanced | completed => contradiction

/-- What a call that contends for a job that can be validated does: it succeeds, unless
it is a restart after the last attempt there can be. -/
theorem Db.Ready.contended {call : Call} (ready : db.Ready job) (keyed : db.Keyed)
    (contends : call.operation.contends job = true)
    (fresh : ∀ row ∈ db.runs, row.id ≠ call.env.runId) :
    ((call.operation.exec call.env db).result.isOk = true ∧
        (call.operation.exec call.env db).db.Closed job ∧
        ∀ row ∈ (call.operation.exec call.env db).db.runsOf job, row.status ≠ .running) ∨
      (call.operation = .restart job ∧ i32Max < nextAttempt .extract (db.runsOf job) ∧
        (call.operation.exec call.env db).result.isOk = false ∧
        (call.operation.exec call.env db).db = db) := by
  obtain ⟨env, operation⟩ := call
  have settled : ∀ {run : StepRunRow} {between : Db}, run.jobId = job → run.status = .pending →
      between.runsOf job = db.runsOf job →
      ∀ row ∈ (between.apply (.insertRun run)).runsOf job, row.status ≠ .running := by
    intro run between ofJob pending same row member running
    rw [runsOf_insertRun ofJob, same] at member
    rcases List.mem_append.mp member with stored | isNew
    · have ended := ready.idle.inactive row stored
      rw [running] at ended
      contradiction
    · rw [List.mem_singleton.mp isNew, pending] at running
      contradiction
  cases operation with
  | restart other =>
      obtain rfl := of_decide_eq_true contends
      by_cases bounded : nextAttempt .extract (db.runsOf other) ≤ i32Max
      · obtain ⟨run, ended⟩ := exec_restart keyed ready.idle fresh bounded
        have pending : restartedRun env other db ∈
            (db.apply (.insertRun (restartedRun env other db))).runsOf other :=
          List.mem_filter.mpr ⟨List.mem_append_right _ (List.mem_singleton_self _),
            decide_eq_true rfl⟩
        refine .inl ?_
        rw [ended]
        exact ⟨rfl, .inr ⟨_, pending, rfl, rfl⟩, settled rfl rfl rfl⟩
      · refine .inr ⟨rfl, Nat.lt_of_not_le bounded, ?_⟩
        have effect := exec_effect env (.restart other) db
        generalize Operation.exec env (.restart other) db = outcome at effect
        obtain ⟨result, next, notified⟩ := outcome
        cases effect with
        | failed => exact ⟨rfl, rfl⟩
        | restarted _ _ enqueued =>
            exact absurd ((insertRun_inserts rfl enqueued).attempt_eq ▸
              (insertRun_inserts rfl enqueued).bounded) bounded
  | validate other =>
      obtain rfl := of_decide_eq_true contends
      obtain ⟨row, found, step, _⟩ := ready.idle.found
      obtain ⟨locked, decoded⟩ := keyed.tryInto_job found
      obtain ⟨last, succeeded⟩ := ready.succeeded env.tie
      obtain ⟨run, _, ended⟩ := exec_validate found decoded step succeeded fresh
        ready.idle.inactive ready.bounded
      refine .inl ?_
      rw [ended]
      refine ⟨rfl, .inl ⟨{ row with step := .chunk }, ?_, by simp⟩, settled rfl rfl rfl⟩
      have isJob : row.id = other := by simpa using List.find?_some found
      exact (job?_setStep ..).trans (by rw [found, Option.map_some, if_pos isJob])
  | start | claim | finish | abort | begin | «continue» => contradiction

omit [Isolang] in
theorem Db.Closed.congr (closed : db.Closed job) (sameJob : next.job? job = db.job? job)
    (sameRuns : next.runsOf job = db.runsOf job) : next.Closed job := by
  rw [Db.Closed, sameJob, sameRuns]
  exact closed

/-! The calls one after the other. -/

theorem wins_append (job : Uuid) (done : List (Call × Except Error Output))
    (ended : Call × Except Error Output) :
    wins job (done ++ [ended]) = wins job done +
      if (ended.1.operation.contends job && ended.2.isOk) = true then 1 else 0 := by
  rw [wins, wins, List.countP_append, List.countP_singleton]

theorem drawn_append (calls : List Call) (call : Call) :
    drawn (calls ++ [call]) =
      drawn calls ++ if call.operation.draws = true then [call.env.runId] else [] := by
  simp only [drawn, List.filter_append, List.map_append]
  cases draws : call.operation.draws <;> simp [draws]

inductive Standing (start db : Db) (job : Uuid) (done : List (Call × Except Error Output)) : Prop
  | contending (none : wins job done = 0) (sameJob : db.job? job = start.job? job)
      (sameRuns : db.runsOf job = start.runsOf job)
      (exhausted : ∀ ended ∈ done, ended.1.operation.contends job = true →
        ended.1.operation = .restart job ∧ i32Max < nextAttempt .extract (start.runsOf job))
  | decided (one : wins job done = 1) (closed : db.Closed job)

structure Contended (start db : Db) (job : Uuid) (done : List (Call × Except Error Output)) :
    Prop where
  keyed : db.Keyed
  known : (db.job? job).isSome
  settled : ∀ row ∈ db.runsOf job, row.status ≠ .running
  ids : ∀ row ∈ db.runs, row.id ∈ start.runs.map (·.id) ++ drawn (done.map Prod.fst)
  standing : Standing start db job done

variable {done : List (Call × Except Error Output)} {ended : Call × Except Error Output}

theorem Contended.fresh {call : Call} (contended : Contended start db job done)
    (draws : call.operation.draws = true)
    (fresh : (start.runs.map (·.id) ++ drawn ((done ++ [(call, result)]).map Prod.fst)).Nodup) :
    ∀ row ∈ db.runs, row.id ≠ call.env.runId := by
  rw [List.map_append, List.map_singleton, drawn_append, if_pos draws, ← List.append_assoc,
    List.nodup_append] at fresh
  exact fun row member => fresh.2.2 _ (contended.ids row member) _ (List.mem_singleton_self _)

theorem Contended.ids_step {call : Call} (contended : Contended start db job done)
    (effect : Effect call.env db call.operation result next) :
    ∀ row ∈ next.runs,
      row.id ∈ start.runs.map (·.id) ++ drawn ((done ++ [(call, result)]).map Prod.fst) := by
  intro row member
  rw [List.map_append, List.map_singleton, drawn_append, ← List.append_assoc]
  rcases effect.ids row member with stored | ⟨draws, same⟩
  · obtain ⟨old, oldMember, sameId⟩ := List.mem_map.mp stored
    exact List.mem_append_left _ (sameId ▸ contended.ids old oldMember)
  · rw [if_pos draws, same]
    exact List.mem_append_right _ (List.mem_singleton_self _)

theorem Contended.step (contended : Contended start db job done) (ready : start.Ready job)
    (executes : Executes db ended next) (undisturbed : ended.1.operation.disturbs job = false)
    (fresh : (start.runs.map (·.id) ++ drawn ((done ++ [ended]).map Prod.fst)).Nodup) :
    Contended start next job (done ++ [ended]) := by
  obtain ⟨call, result⟩ := ended
  obtain ⟨rfl, rfl⟩ : (call.operation.exec call.env db).result = result ∧
    next = (call.operation.exec call.env db).db := executes
  have effect := exec_effect call.env call.operation db
  have ids := contended.ids_step effect
  have count := wins_append job done (call, (call.operation.exec call.env db).result)
  cases contends : call.operation.contends job with
  | false =>
      obtain ⟨sameJob, sameRuns⟩ :=
        effect.leaves contended.known contends undisturbed contended.settled
      simp only [contends, Bool.false_and, Bool.false_eq_true, ↓reduceIte, Nat.add_zero] at count
      refine ⟨effect.keyed contended.keyed, effect.job?_isSome contended.known,
        sameRuns ▸ contended.settled, ids, ?_⟩
      cases contended.standing with
      | contending none wasJob wereRuns exhausted =>
          refine .contending (count.trans none) (sameJob.trans wasJob) (sameRuns.trans wereRuns) ?_
          intro other member isContender
          rcases List.mem_append.mp member with earlier | isLast
          · exact exhausted other earlier isContender
          · rw [List.mem_singleton.mp isLast, contends] at isContender
            contradiction
      | decided one closed => exact .decided (count.trans one) (closed.congr sameJob sameRuns)
  | true =>
      have draws : call.operation.draws = true := by
        cases operation : call.operation <;>
          simp [operation, Operation.contends] at contends <;> rfl
      cases contended.standing with
      | decided one closed =>
          obtain ⟨failed, same⟩ := effect.rejected contends closed
          rw [same] at ids ⊢
          refine ⟨contended.keyed, contended.known, contended.settled, ids, .decided ?_ closed⟩
          simp [count, one, failed]
      | contending none sameJob sameRuns exhausted =>
          have readyNow := ready.congr sameJob sameRuns
          rcases readyNow.contended contended.keyed contends (contended.fresh draws fresh) with
            ⟨succeeded, closed, settled⟩ | ⟨isRestart, unbounded, failed, same⟩
          · refine ⟨effect.keyed contended.keyed, effect.job?_isSome contended.known, settled, ids,
              .decided ?_ closed⟩
            simp [count, none, contends, succeeded]
          · rw [same] at ids ⊢
            refine ⟨contended.keyed, contended.known, contended.settled, ids,
              .contending ?_ sameJob sameRuns ?_⟩
            · simp [count, none, failed]
            · intro other member isContender
              rcases List.mem_append.mp member with earlier | isLast
              · exact exhausted other earlier isContender
              · rw [List.mem_singleton.mp isLast]
                exact ⟨isRestart, sameRuns ▸ unbounded⟩

theorem Contended.of_run {order : List (Call × Except Error Output)} (ready : start.Ready job)
    (keyed : start.Keyed) (run : Run Executes start order db)
    (undisturbed : ∀ ended ∈ order, ended.1.operation.disturbs job = false)
    (fresh : (start.runs.map (·.id) ++ drawn (order.map Prod.fst)).Nodup) :
    Contended start db job order := by
  induction run with
  | nil =>
      obtain ⟨row, found, _⟩ := ready.idle.found
      refine ⟨keyed, by simp [found], fun row member running => ?_,
        fun row member => List.mem_append_left _ (List.mem_map_of_mem member),
        .contending rfl rfl rfl (by simp)⟩
      have ended := ready.idle.inactive row member
      rw [running] at ended
      contradiction
  | snoc earlier executes induction =>
      refine (induction (fun ended member => undisturbed ended (List.mem_append_left _ member))
        (fresh.sublist ?_)).step ready executes (undisturbed _ (by simp)) fresh
      rw [List.map_append, List.map_singleton, drawn_append, ← List.append_assoc]
      exact List.sublist_append_left ..

omit [Isolang] in
theorem nextAttempt_le {runs : List StepRunRow} {bound : Nat} (step : IngestionStep)
    (below : ∀ row ∈ runs, row.attempt < bound) (positive : 0 < bound) :
    nextAttempt step runs ≤ bound := by
  rw [nextAttempt]
  cases greatest : ((runs.filter (·.step = step)).map (·.attempt)).max? with
  | none => exact positive
  | some most =>
      obtain ⟨row, member, rfl⟩ := List.mem_map.mp (List.max?_mem greatest)
      exact below row (List.mem_of_mem_filter member)

theorem Contention.perm {calls order : List Call} (contention : Contention start job calls)
    (perm : order.Perm calls) : Contention start job order where
  validates := contention.validates
  contended := by
    obtain ⟨call, member, contends⟩ := contention.contended
    exact ⟨call, perm.mem_iff.mpr member, contends⟩
  undisturbed call member := contention.undisturbed call (perm.mem_iff.mp member)
  fresh := by
    have same : (drawn order).Perm (drawn calls) := (perm.filter _).map _
    exact (same.append_left _).nodup_iff.mpr contention.fresh

/-- One contender wins, unless all of them are restarts and there is no attempt left. -/
theorem one_wins {order : List (Call × Except Error Output)} (shaped : start.Shaped)
    (run : Run Executes start order db) (contention : Contention start job (order.map Prod.fst))
    (left : (∃ call ∈ order.map Prod.fst, call.operation = .validate job) ∨
      ∀ row ∈ start.runsOf job, row.attempt < i32Max) : wins job order = 1 := by
  obtain ⟨env, validated, validates⟩ := contention.validates
  have contended := Contended.of_run (ready_of_validate shaped validates) shaped.toKeyed run
    (fun ended member => contention.undisturbed _ (List.mem_map_of_mem member)) contention.fresh
  cases contended.standing with
  | decided one => exact one
  | contending _ _ _ exhausted =>
      rcases left with ⟨call, member, isValidate⟩ | bounded
      · obtain ⟨ended, stored, rfl⟩ := List.mem_map.mp member
        obtain ⟨isRestart, _⟩ := exhausted ended stored
          (by simp [isValidate, Operation.contends])
        rw [isValidate] at isRestart
        contradiction
      · obtain ⟨call, member, contends⟩ := contention.contended
        obtain ⟨ended, stored, rfl⟩ := List.mem_map.mp member
        obtain ⟨_, unbounded⟩ := exhausted ended stored contends
        exact absurd (nextAttempt_le .extract bounded (by decide)) (Nat.not_le.mpr unbounded)

/-- Interleaved calls have the results, and leave the tables, that they have one by one
in some order.  Of the calls that contend for a job one succeeds. -/
theorem transitions_linearize
    {config : Config Statement.Reply SqlError Error Db Write Uuid Call Output}
    (reachable : Reachable Db.Initial (Calls Unclocked) start)
    (interleaved : Interleaved start config) :
    (∃ order, order.Perm config.ended ∧ Run Executes start order config.store) ∧
      ∀ job, Contention start job (config.ended.map Prod.fst) →
        ((∃ call ∈ config.ended.map Prod.fst, call.operation = .validate job) ∨
          ∀ row ∈ start.runsOf job, row.attempt < i32Max) →
        wins job config.ended = 1 := by
  obtain ⟨order, perm, run⟩ := interleaved.serially (unstarted_of_reachable reachable)
  refine ⟨⟨order, perm, run⟩, fun job contention left => ?_⟩
  have calls := perm.map Prod.fst
  rw [wins, ← perm.countP_eq]
  refine one_wins (shaped_of_reachable reachable) run (contention.perm calls) (left.imp_left ?_)
  exact fun ⟨call, member, isValidate⟩ => ⟨call, calls.mem_iff.mpr member, isValidate⟩

end

section

attribute [local instance] english

def extracted : Db :=
  after Unclocked catalog
    [tick 1 (.start rulebook), tick 2 (.claim firstJob), tick 3 (.finish ⟨2⟩ .succeeded)]

/-- A validation and a restart race; the run is finished again in between. -/
def race : List (Service.Move Call) :=
  [.opened (tick 4 (.validate firstJob)), .opened (tick 5 (.restart firstJob)), .advanced 0,
    .advanced 0, .single (tick 6 (.finish ⟨2⟩ .succeeded)), .advanced 0, .advanced 0, .advanced 0,
    .advanced 0, .advanced 0, .advanced 0]

def raced : Config Statement.Reply SqlError Error Db Write Uuid Call Output :=
  (execute transitions.move? ⟨extracted, [], []⟩ race).getD ⟨extracted, [], []⟩

theorem raced_interleaved : Interleaved extracted raced := by
  have enabled : (execute transitions.move? ⟨extracted, [], []⟩ race).isSome = true := by
    decide +kernel
  obtain ⟨config, executed⟩ := Option.isSome_iff_exists.mp enabled
  have same : raced = config := by rw [raced, executed, Option.getD_some]
  exact same ▸ Service.interleaves_of_execute executed

theorem transitions_linearize_on_race :
    raced.ended.length = 3 ∧
      (∃ order, order.Perm raced.ended ∧ Run Executes extracted order raced.store) ∧
      wins firstJob raced.ended = 1 := by
  have reachable : Reachable Db.Initial (Calls Unclocked) extracted :=
    reachable_after catalog_initial (by decide)
  have validates : (Operation.exec (tick 4 (.validate firstJob)).env (.validate firstJob)
      extracted).run?.isSome = true := by decide +kernel
  have contention : Contention extracted firstJob (raced.ended.map Prod.fst) :=
    ⟨⟨_, Option.isSome_iff_exists.mp validates⟩, by decide +kernel, by decide +kernel,
      by decide +kernel⟩
  obtain ⟨order, one⟩ := transitions_linearize reachable raced_interleaved
  exact ⟨by decide +kernel, order, one firstJob contention (.inr (by decide +kernel))⟩

/-! A job whose attempts at `extract` are used up. -/

def attempted : Nat → Db
  | 0 => extracted
  | count + 1 => (attempted count).apply (.insertRun
      (finishedRun (recoveryAt (3 * count + 4)) firstJob (attempted count)))

structure Attempted (count : Nat) (db : Db) : Prop where
  reachable : Reachable Db.Initial (Calls Unclocked) db
  idle : db.Idle firstJob (db.runsOf firstJob)
  length : (db.runsOf firstJob).length = count + 1
  ids : ∀ row ∈ db.runs, ∃ earlier ≤ count, row.id = ⟨BitVec.ofNat 128 (3 * earlier + 2)⟩
  clock : db.Before ((3 * count + 4 : Nat) : Timestamp)
  started : ∀ row ∈ db.runsOf firstJob, row.startedAt.isSome
  succeeded : ∀ tie, ∃ last, History.Succeeded (db.runsOf firstJob) .extract tie last

theorem attempted_zero : Attempted 0 extracted := by
  have onExtract : (extracted.job? firstJob).map (·.step) = some .extract := by decide +kernel
  obtain ⟨row, found, step⟩ := Option.map_eq_some_iff.mp onExtract
  refine ⟨reachable_after catalog_initial (by decide),
    ⟨Db.history_eq_some.mpr ⟨row, found, by rw [step]⟩, by decide +kernel⟩, by decide +kernel,
    by decide +kernel, by decide +kernel, by decide +kernel, fun tie => ?_⟩
  have single : (extracted.runsOf firstJob).length = 1 := by decide +kernel
  obtain ⟨last, whole⟩ := List.length_eq_one_iff.mp single
  have facts : ∀ row ∈ extracted.runsOf firstJob, row.step = .extract ∧ row.status = .succeeded ∧
      row.startedAt.isSome ∧ row.completedAt.isSome := by decide +kernel
  have member : last ∈ extracted.runsOf firstJob := by simp [whole]
  obtain ⟨step, status, started, completed⟩ := facts last member
  refine ⟨last, by rw [whole]; rfl, step, status, ?_⟩
  rw [StepRunRow.Complete, status]
  exact ⟨started, completed⟩

theorem Attempted.fresh {count next : Nat} {db : Db} (attempted : Attempted count db)
    (later : count < next) (bounded : next ≤ i32Max) :
    ∀ row ∈ db.runs, row.id ≠ ⟨BitVec.ofNat 128 (3 * next + 2)⟩ := by
  intro row member same
  obtain ⟨earlier, bound, isEarlier⟩ := attempted.ids row member
  have limit : i32Max = 2147483647 := rfl
  have small : 3 * earlier + 2 < 2 ^ 128 := by omega
  have nextSmall : 3 * next + 2 < 2 ^ 128 := by omega
  have bits := congrArg BitVec.toNat (Uuid.mk.inj (isEarlier.symm.trans same))
  rw [BitVec.toNat_ofNat, BitVec.toNat_ofNat, Nat.mod_eq_of_lt small,
    Nat.mod_eq_of_lt nextSmall] at bits
  omega

theorem Attempted.nextAttempt {count : Nat} {db : Db} (attempted : Attempted count db) :
    nextAttempt .extract (db.runsOf firstJob) = count + 2 := by
  have shaped := (shaped_of_reachable attempted.reachable).histories _ _ attempted.idle.known
  rw [shaped.nextAttempt_extract, attempted.length]

theorem Attempted.next {count : Nat} {db : Db} (attempted : Attempted count db)
    (bounded : count + 1 < i32Max) :
    Attempted (count + 1) (db.apply (.insertRun
      (finishedRun (recoveryAt (3 * count + 4)) firstJob db))) := by
  generalize isRecovery : recoveryAt (3 * count + 4) = recovery
  have restartId : recovery.restart.runId = ⟨BitVec.ofNat 128 (3 * (count + 1) + 2)⟩ := by
    rw [← isRecovery, show 3 * (count + 1) + 2 = 3 * count + 4 + 1 by omega]
    rfl
  have claimTime : recovery.claim.now = ((3 * count + 5 : Nat) : Int) := isRecovery ▸ rfl
  have finishTime : recovery.finish.now = ((3 * count + 6 : Nat) : Int) := isRecovery ▸ rfl
  have keyed := keyed_of_reachable attempted.reachable
  have fresh := attempted.fresh (Nat.lt_succ_self count) (Nat.le_of_lt bounded)
  rw [← restartId] at fresh
  obtain ⟨restarted, claimed, finished, between, after, first, second, third⟩ :=
    exec_cycle keyed attempted.idle fresh (by rw [attempted.nextAttempt]; exact bounded)
  have clock : db.Before recovery.claim.now :=
    attempted.clock.mono (claimTime ▸ Int.ofNat_le.mpr (by omega))
  have runsOf : (db.apply (.insertRun (finishedRun recovery firstJob db))).runsOf firstJob =
      db.runsOf firstJob ++ [finishedRun recovery firstJob db] := runsOf_insertRun rfl
  refine ⟨?_, ⟨?_, ?_⟩, ?_, ?_, ?_, ?_, ?_⟩
  · have restart : Calls Unclocked db ⟨recovery.restart, .restart firstJob⟩ between :=
      calls_of_exec rfl first
    have claim : Calls Unclocked between ⟨recovery.claim, .claim firstJob⟩ after :=
      calls_of_exec rfl second
    have finish : Calls Unclocked after ⟨recovery.finish, .finish claimed.id .succeeded⟩ _ :=
      calls_of_exec rfl third
    exact ((attempted.reachable.step restart).step claim).step finish
  · obtain ⟨row, found, step, _⟩ := attempted.idle.found
    exact Db.history_eq_some.mpr ⟨row, found, by rw [step]⟩
  · rw [runsOf]
    intro row member
    rcases List.mem_append.mp member with stored | isNew
    · exact attempted.idle.inactive row stored
    · exact List.mem_singleton.mp isNew ▸ rfl
  · rw [runsOf, List.length_append, attempted.length]
    rfl
  · intro row member
    rcases List.mem_append.mp member with stored | isNew
    · obtain ⟨earlier, bound, isEarlier⟩ := attempted.ids row stored
      exact ⟨earlier, Nat.le_succ_of_le bound, isEarlier⟩
    · exact ⟨count + 1, Nat.le_refl _, List.mem_singleton.mp isNew ▸ restartId⟩
  · intro row member
    rcases List.mem_append.mp member with stored | isNew
    · exact (attempted.clock.mono (Int.ofNat_le.mpr (by omega))) row stored
    · obtain rfl := List.mem_singleton.mp isNew
      refine ⟨fun start isStart => ?_, fun ended isEnded => ?_⟩
      · obtain rfl : recovery.claim.now = start := Option.some.inj isStart
        exact claimTime ▸ Int.ofNat_lt.mpr (by omega)
      · obtain rfl : recovery.finish.now = ended := Option.some.inj isEnded
        exact finishTime ▸ Int.ofNat_lt.mpr (by omega)
  · rw [runsOf]
    intro row member
    rcases List.mem_append.mp member with stored | isNew
    · exact attempted.started row stored
    · exact List.mem_singleton.mp isNew ▸ rfl
  · rw [runsOf]
    exact fun tie => ⟨_, finishedRun_latest tie clock attempted.started⟩

theorem attempted_holds (count : Nat) (bounded : count < i32Max) :
    Attempted count (attempted count) := by
  induction count with
  | zero => exact attempted_zero
  | succ count induction => exact (induction (Nat.lt_of_succ_lt bounded)).next bounded

theorem Attempted.restart_fails {count : Nat} {db : Db} (attempted : Attempted count db)
    (exhausted : i32Max ≤ count + 1) (env : Env) :
    (Operation.exec env (.restart firstJob) db).result.isOk = false := by
  have effect := exec_effect env (.restart firstJob) db
  generalize Operation.exec env (.restart firstJob) db = outcome at effect
  obtain ⟨result, next, notified⟩ := outcome
  cases effect with
  | failed => rfl
  | restarted _ _ enqueued =>
      have inserts := insertRun_inserts rfl enqueued
      have bounded := inserts.bounded
      rw [inserts.attempt_eq, attempted.nextAttempt] at bounded
      exact absurd (Nat.le_trans bounded exhausted) (Nat.not_succ_le_self _)

theorem Attempted.contention {count : Nat} {db : Db} (attempted : Attempted count db)
    (bounded : count + 1 ≤ i32Max) :
    Contention db firstJob [tick (3 * count + 4) (.restart firstJob)] := by
  have runId : (tick (3 * count + 4) (.restart firstJob)).env.runId =
      ⟨BitVec.ofNat 128 (3 * (count + 1) + 2)⟩ := by
    rw [show 3 * (count + 1) + 2 = 3 * count + 4 + 1 by omega]
    rfl
  have fresh := attempted.fresh (Nat.lt_succ_self count) bounded
  rw [← runId] at fresh
  have shaped := shaped_of_reachable attempted.reachable
  refine ⟨?_, ⟨_, List.mem_singleton_self _, by simp [tick, Operation.contends]⟩,
    by simp [tick, Operation.disturbs],
    ?_⟩
  · obtain ⟨row, found, step, _⟩ := attempted.idle.found
    obtain ⟨locked, decoded⟩ := shaped.toKeyed.tryInto_job found
    obtain ⟨last, succeeded⟩ :=
      attempted.succeeded (tick (3 * count + 4) (.restart firstJob)).env.tie
    have chunk := (shaped.histories _ _ attempted.idle.known).nextAttempt_chunk
    obtain ⟨run, _, ended⟩ := exec_validate found decoded step succeeded fresh
      attempted.idle.inactive (chunk ▸ by decide)
    exact ⟨_, run, by rw [ended]; rfl⟩
  · rw [List.nodup_append]
    refine ⟨shaped.toKeyed.runs, List.nodup_singleton _, fun stored member drawn isDrawn same => ?_⟩
    obtain ⟨row, rowMember, rfl⟩ := List.mem_map.mp member
    exact fresh row rowMember (same.trans (List.mem_singleton.mp isDrawn))

/-- A lone restart after the last attempt there can be: nobody succeeds. -/
theorem restart_out_of_attempts :
    ¬ ∀ (start : Db) (config : Config Statement.Reply SqlError Error Db Write Uuid Call Output),
      Reachable Db.Initial (Calls Unclocked) start → Interleaved start config →
        (∃ order, order.Perm config.ended ∧ Run Executes start order config.store) ∧
          ∀ job, Contention start job (config.ended.map Prod.fst) →
            wins job config.ended = 1 := by
  intro linearizes
  obtain ⟨db, attempted⟩ : ∃ db, Attempted 2147483646 db :=
    ⟨_, attempted_holds 2147483646 (by decide)⟩
  let call := tick (3 * 2147483646 + 4) (.restart firstJob)
  have interleaved : Interleaved db ⟨(call.operation.exec call.env db).db, [],
      [(call, (call.operation.exec call.env db).result)]⟩ := interleaved_alone rfl db
  have one := (linearizes db _ attempted.reachable interleaved).2 firstJob
    (attempted.contention (by decide))
  have failed : (call.operation.exec call.env db).result.isOk = false :=
    attempted.restart_fails (by decide) call.env
  simp [wins, failed] at one

end

end Zyndeck
