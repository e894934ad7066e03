import Zyndeck.Data.Interleaving
import Zyndeck.Db.Recovery

namespace Zyndeck

open Data

/-! The transitions as transactions interleaved with one another and with the updates
of runs. -/

theorem StepRunRow.clashes_comm (first second : StepRunRow) :
    first.clashes second = second.clashes first := by
  simp only [clashes, eq_comm, Bool.and_comm, Bool.and_assoc, Bool.and_left_comm]

section

variable [Isolang]

def Operation.body : Operation → Option (Tx Output)
  | .restart job => some do
      let run ← restartJob job
      pure (.run run)
  | .validate job => some do
      let run ← validateJob job
      pure (.run run)
  | .continue job => some do
      let advanced ← continueJob job
      pure (.advanced advanced)
  | _ => none

/-- An update of a run: it waits for nobody, since no transition keeps a run locked. -/
def Operation.update (env : Env) : Operation → Option (Db → Except Error Output × Db)
  | .claim job => some fun db => (claimPendingRun env.now job db).map (·.map .maybeRun) id
  | .finish run outcome => some fun db =>
      (finishRun env.now run outcome db).map (·.map .maybeRun) id
  | .abort job => some fun db => (abortRun env.now job db).map (·.map .maybeRun) id
  | _ => none

/-- `lock.sql` locks the job it finds, and an insert waits for an uncommitted one that
a unique index keeps it apart from. -/
def transitions :
    Service Statement Statement.Reply SqlError Error Env Db Write Uuid Call Output where
  toEngine := postgres
  env := Call.env
  body call := call.operation.body
  single call := call.operation.update call.env
  locks statement reply :=
    match statement, reply with
    | .lock job, some _ => [job]
    | _, _ => []
  conflicts first second :=
    match first, second with
    | .insertRun run, .insertRun other => run.clashes other
    | _, _ => false

/-- A call executed without interference, with its result. -/
def Executes (db : Db) (ended : Call × Except Error Output) (next : Db) : Prop :=
  (ended.1.operation.exec ended.1.env db).result = ended.2 ∧
    next = (ended.1.operation.exec ended.1.env db).db

theorem transact_output (env : Env) (body : Tx α) (output : α → Output) (db : Db) :
    let ended := postgres.transact env (body >>= fun value => pure (output value)) db
    (transaction env body output db).result = ended.1 ∧
      (transaction env body output db).db = postgres.view db ended.2 := by
  simp only [transaction, Engine.transact, Engine.run_bind]
  cases postgres.run env db body [] <;> exact ⟨rfl, rfl⟩

theorem executes_of_atomic {db next : Db} {ended : Call × Except Error Output}
    (atomic : transitions.Atomic db ended next) : Executes db ended next := by
  cases atomic with
  | @transaction call program isBody =>
      obtain ⟨env, operation⟩ := call
      cases operation with
      | restart | validate | «continue» =>
          obtain rfl := Option.some.inj isBody
          obtain ⟨result, after⟩ := transact_output env _ _ db
          exact ⟨result, after.symm⟩
      | start | claim | finish | abort | begin => contradiction
  | @single call statement isSingle =>
      obtain ⟨env, operation⟩ := call
      cases operation with
      | claim | finish | abort =>
          obtain rfl := Option.some.inj isSingle
          exact ⟨rfl, rfl⟩
      | start | restart | validate | «continue» | begin => contradiction

/-! The statements of a transition. -/

inductive Stage where
  | opened
  | locked
  | stepped
  | inserted
  deriving DecidableEq

def Stage.keys (job : Uuid) : Stage → List Uuid
  | .opened => []
  | .locked | .stepped | .inserted => [job]

/-- The statements a transition of a job can go on with.  It fails unless it finds the
job and a success as its latest run. -/
inductive Follows (job : Uuid) : Stage → Tx Output → Prop
  | done : Follows job stage (.done result)
  | lock (missing : ∃ failure, next none = .done (.error failure))
      (found : ∀ row, Follows job .locked (next (some row))) :
      Follows job .opened (.query (.lock job) onFault next)
  | findLatest
      (unfinished : ∀ found, (¬ ∃ last, found = some last ∧ last.status = .succeeded ∧
        last.Complete) → ∃ failure, next found = .done (.error failure))
      (succeeded : ∀ last, Follows job .locked (next (some last))) :
      Follows job .locked (.query (.findLatest job) onFault next)
  | updateStep {next : Unit → Tx Output} (later : Follows job .stepped (next ())) :
      Follows job .locked (.query (.updateStep step job) onFault next)
  | begin {next : StepRunRow → Tx Output}
      (inserted : ∀ run, Follows job .inserted (next run)) :
      Follows job .stepped (.query (.begin job step) onFault next)
  | enqueue {next : StepRunRow → Tx Output} (locked : stage = .locked ∨ stage = .stepped)
      (inserted : ∀ run, Follows job .inserted (next run)) :
      Follows job stage (.query (.enqueue job step) onFault next)
  | notify {next : Unit → Tx Output} (later : Follows job .inserted (next ())) :
      Follows job .inserted (.query (.notify other) onFault next)

/-- What the statements of a transition have returned so far is what they would return
now. -/
inductive Passed (env : Env) (job : Uuid) (body : Tx Output) (db : Db) :
    Stage → Tx Output → List Write → Prop
  | opened : Passed env job body db .opened body []
  | locked (before : Passed env job body db .opened (.query (.lock job) onFault next) writes)
      (found : db.job? job = some row) :
      Passed env job body db .locked (next (some row)) writes
  | seen (before : Passed env job body db .locked (.query (.findLatest job) onFault next) writes)
      (latest : findLatest env job db = some last) (succeeded : last.status = .succeeded)
      (complete : last.Complete) :
      Passed env job body db .locked (next (some last)) writes
  | stepped
      (before :
        Passed env job body db .locked (.query (.updateStep step job) onFault next) writes) :
      Passed env job body db .stepped (next ()) (writes ++ [.setStep job step])
  | begun (before : Passed env job body db .stepped (.query (.begin job step) onFault next) writes)
      (inserted : begin env job step db = .ok run) :
      Passed env job body db .inserted (next run) (writes ++ [.insertRun run])
  | enqueued
      (before : Passed env job body db stage (.query (.enqueue job step) onFault next) writes)
      (locked : stage = .locked ∨ stage = .stepped)
      (inserted : enqueue env job step db = .ok run) :
      Passed env job body db .inserted (next run) (writes ++ [.insertRun run])
  | notified
      (before : Passed env job body db .inserted (.query (.notify other) onFault next) writes) :
      Passed env job body db .inserted (next ()) (writes ++ [.notify other])

inductive Write.Of (env : Env) (job : Uuid) : Write → Prop
  | setStep : Of env job (.setStep job step)
  | insertRun (ofJob : run.jobId = job) (new : run.New env.now) : Of env job (.insertRun run)
  | notify : Of env job (.notify other)

/-- What a transition has written before it inserts a run. -/
def Stage.Wrote (job : Uuid) : Stage → List Write → Prop
  | .opened, writes | .locked, writes => writes = []
  | .stepped, writes => ∃ step, writes = [.setStep job step]
  | .inserted, _ => True

variable {env : Env} {job : Uuid} {body rest : Tx Output} {db : Db} {stage : Stage}
  {writes : List Write}

namespace Passed

theorem wrote (passed : Passed env job body db stage rest writes) : stage.Wrote job writes := by
  induction passed with
  | opened => rfl
  | locked _ _ induction => exact induction
  | seen _ _ _ _ induction => exact induction
  | stepped _ induction => exact ⟨_, by rw [show _ = [] from induction]; rfl⟩
  | begun | enqueued | notified => trivial

theorem opened_eq (passed : Passed env job body db .opened rest writes) :
    rest = body ∧ writes = [] := by
  cases passed
  exact ⟨rfl, rfl⟩

theorem mem_writes (passed : Passed env job body db stage rest writes) :
    ∀ write ∈ writes, write.Of env job := by
  induction passed with
  | opened => simp
  | locked _ _ induction => exact induction
  | seen _ _ _ _ induction => exact induction
  | stepped _ induction =>
      exact List.forall_mem_append.mpr ⟨induction, List.forall_mem_singleton.mpr .setStep⟩
  | begun _ begun induction =>
      exact List.forall_mem_append.mpr ⟨induction, List.forall_mem_singleton.mpr
        (.insertRun (insertRun_jobId begun) (begin_new begun))⟩
  | enqueued _ _ enqueued induction =>
      exact List.forall_mem_append.mpr ⟨induction, List.forall_mem_singleton.mpr
        (.insertRun (insertRun_jobId enqueued) (enqueue_new enqueued))⟩
  | notified _ induction =>
      exact List.forall_mem_append.mpr ⟨induction, List.forall_mem_singleton.mpr .notify⟩

end Passed

/-- Until it inserts a run, a transition sees the runs that are committed. -/
theorem Stage.Wrote.insertRun (wrote : stage.Wrote job writes)
    (before : stage = .locked ∨ stage = .stepped) (step : IngestionStep) (status : RunStatus)
    (startedAt : Option Timestamp) :
    insertRun env job step status startedAt (postgres.view db writes) =
      insertRun env job step status startedAt db := by
  rcases before with rfl | rfl
  · rw [show writes = [] from wrote]
    rfl
  · obtain ⟨target, rfl⟩ := wrote
    exact insertRun_setStep ..

theorem Stage.Wrote.exec_insert (wrote : stage.Wrote job writes)
    (before : stage = .locked ∨ stage = .stepped) {statement : Statement} {step : IngestionStep}
    (inserts : statement = .begin job step ∨ statement = .enqueue job step) :
    statement.exec env (postgres.view db writes) = statement.exec env db := by
  rcases inserts with rfl | rfl <;> exact congrArg (Except.map _) (wrote.insertRun before ..)

/-- A transition stands where it would, had it been run just now. -/
theorem Passed.coherent (passed : Passed env job body db stage rest writes) :
    postgres.run env db body [] = postgres.run env db rest writes := by
  induction passed with
  | opened => rfl
  | locked before found induction =>
      obtain ⟨_, rfl⟩ := before.opened_eq
      exact induction.trans (Engine.run_query_ok (by rw [← found]; rfl))
  | seen before latest _ _ induction =>
      have none : _ = [] := before.wrote
      subst none
      exact induction.trans (Engine.run_query_ok (by rw [← latest]; rfl))
  | stepped before induction => exact induction.trans (Engine.run_query_ok rfl)
  | begun before inserted induction =>
      refine induction.trans (Engine.run_query_ok ?_)
      refine (before.wrote.exec_insert (.inr rfl) (.inl rfl)).trans ?_
      rw [Statement.exec, inserted]
      rfl
  | enqueued before locked inserted induction =>
      refine induction.trans (Engine.run_query_ok ?_)
      refine (before.wrote.exec_insert locked (.inr rfl)).trans ?_
      rw [Statement.exec, inserted]
      rfl
  | notified before induction => exact induction.trans (Engine.run_query_ok rfl)

theorem Passed.executed {statement : Statement} {onFault : SqlError → Error}
    {next : statement.Reply → Tx Output} {reply : statement.Reply} {added : List Write}
    (passed : Passed env job body db stage (.query statement onFault next) writes)
    (follows : Follows job stage (.query statement onFault next))
    (replied : Statement.exec env statement (postgres.view db writes) = .ok (reply, added))
    (going : ∀ failure, next reply ≠ .done (.error failure)) :
    ∃ later : Stage, Passed env job body db later (next reply) (writes ++ added) ∧
      Follows job later (next reply) ∧
      stage.keys job ++ transitions.locks statement reply = later.keys job := by
  have wrote := passed.wrote
  cases follows with
  | lock missing found =>
      obtain ⟨_, rfl⟩ := passed.opened_eq
      obtain ⟨isReply, rfl⟩ := Prod.mk.inj (Except.ok.inj replied)
      match reply, isReply with
      | none, _ =>
          obtain ⟨failure, failed⟩ := missing
          exact absurd failed (going failure)
      | some row, isRow => exact ⟨.locked, passed.locked isRow, found row, rfl⟩
  | findLatest unfinished succeeded =>
      obtain rfl : writes = [] := wrote
      obtain ⟨isReply, rfl⟩ := Prod.mk.inj (Except.ok.inj replied)
      by_cases success : ∃ last, reply = some last ∧ last.status = .succeeded ∧ last.Complete
      · obtain ⟨last, rfl, status, complete⟩ := success
        exact ⟨.locked, passed.seen isReply status complete, succeeded last, rfl⟩
      · obtain ⟨failure, failed⟩ := unfinished reply success
        exact absurd failed (going failure)
  | updateStep later =>
      obtain ⟨rfl, rfl⟩ := Prod.mk.inj (Except.ok.inj replied)
      exact ⟨.stepped, passed.stepped, later, rfl⟩
  | @begin step _ next inserted =>
      rw [wrote.exec_insert (.inr rfl) (.inl rfl), Statement.exec] at replied
      cases begun : Zyndeck.begin env job step db with
      | error fault =>
          rw [begun] at replied
          contradiction
      | ok run =>
          rw [begun] at replied
          obtain ⟨rfl, rfl⟩ := Prod.mk.inj (Except.ok.inj replied)
          exact ⟨.inserted, passed.begun begun, inserted run, rfl⟩
  | @enqueue stage step _ next locked inserted =>
      rw [wrote.exec_insert locked (.inr rfl), Statement.exec] at replied
      cases enqueued : Zyndeck.enqueue env job step db with
      | error fault =>
          rw [enqueued] at replied
          contradiction
      | ok run =>
          rw [enqueued] at replied
          obtain ⟨rfl, rfl⟩ := Prod.mk.inj (Except.ok.inj replied)
          refine ⟨.inserted, passed.enqueued locked enqueued, inserted run, ?_⟩
          rcases locked with rfl | rfl <;> rfl
  | notify later =>
      obtain ⟨rfl, rfl⟩ := Prod.mk.inj (Except.ok.inj replied)
      exact ⟨.inserted, passed.notified, later, rfl⟩

/-! The bodies of the transitions. -/

namespace Follows

theorem decoded {result : Except Error α} {next : α → Tx Output}
    (later : ∀ value, Follows job stage (next value)) :
    Follows job stage ((Program.done result : Tx α) >>= next) := by
  cases result with
  | error => exact .done
  | ok value => exact later value

theorem lockJob {next : IngestionJob → Tx Output}
    (later : ∀ locked, Follows job .locked (next locked)) :
    Follows job .opened (Zyndeck.lockJob job >>= next) :=
  .lock ⟨.jobNotFound job, rfl⟩ fun _ => decoded later

theorem latestRun {next : Option IngestionStepRun → Tx Output} (step : IngestionStep)
    (unfinished : ∀ latest, hasSucceeded step latest = false →
      ∃ failure, next latest = .done (.error failure))
    (later : ∀ latest, Follows job .locked (next latest)) :
    Follows job .locked (Zyndeck.latestRun job >>= next) := by
  refine .findLatest (fun found missing => ?_) fun last => ?_
  · have never : ∀ latest, decodeRow found = .ok latest → hasSucceeded step latest = false := by
      refine fun latest decoded => Bool.eq_false_iff.mpr fun succeeded => missing ?_
      obtain ⟨last, isLast, _, status, complete⟩ := hasSucceeded_iff.mp ⟨latest, decoded, succeeded⟩
      exact ⟨last, isLast, status, complete⟩
    cases found with
    | none => exact unfinished none rfl
    | some row =>
        cases decoded : row.tryInto with
        | error failure =>
            refine ⟨failure, ?_⟩
            change (Program.done (row.tryInto.map some) : Tx _) >>= next = _
            rw [decoded]
            rfl
        | ok run =>
            obtain ⟨failure, failed⟩ :=
              unfinished (some run) (never _ (by rw [decodeRow, decoded]; rfl))
            refine ⟨failure, ?_⟩
            change (Program.done (row.tryInto.map some) : Tx _) >>= next = _
            rw [decoded]
            exact failed
  · exact decoded later

theorem enqueueRun {next : IngestionStepRun → Tx Output} {step : IngestionStep}
    (locked : stage = .locked ∨ stage = .stepped)
    (later : ∀ run, Follows job .inserted (next run)) :
    Follows job stage (Zyndeck.enqueueRun job step >>= next) :=
  .enqueue locked fun _ => decoded later

theorem beginRun {next : IngestionStepRun → Tx Output} {step : IngestionStep}
    (later : ∀ run, Follows job .inserted (next run)) :
    Follows job .stepped (Zyndeck.beginRun job step >>= next) :=
  .begin fun _ => decoded later

theorem restartJob (job : Uuid) :
    Follows job .opened (Zyndeck.restartJob job >>= fun run => pure (.run run)) := by
  rw [Zyndeck.restartJob, Program.bind_assoc]
  refine lockJob fun locked => ?_
  split
  · exact .done
  · rw [Program.bind_assoc]
    exact enqueueRun (.inl rfl) fun run => .notify .done

theorem validateJob (job : Uuid) :
    Follows job .opened (Zyndeck.validateJob job >>= fun run => pure (.run run)) := by
  rw [Zyndeck.validateJob, Program.bind_assoc]
  refine lockJob fun locked => ?_
  split
  · exact .done
  · rw [Program.bind_assoc]
    refine latestRun .extract (fun latest missing => ⟨.stepNotSucceeded job .extract, ?_⟩)
      fun latest => ?_
    · rw [missing]
      rfl
    · split
      · exact .done
      · rw [Program.bind_assoc]
        refine .updateStep ?_
        change Follows job .stepped ((Zyndeck.enqueueRun job _ >>= _) >>= _)
        rw [Program.bind_assoc]
        exact enqueueRun (.inr rfl) fun run => .notify .done

theorem continueJob (job : Uuid) :
    Follows job .opened
      (Zyndeck.continueJob job >>= fun advanced => pure (.advanced advanced)) := by
  rw [Zyndeck.continueJob, Program.bind_assoc]
  refine lockJob fun locked => ?_
  split
  · exact .done
  · split
    · exact .done
    · rw [Program.bind_assoc]
      refine latestRun locked.step
        (fun latest missing => ⟨.stepNotSucceeded job locked.step, ?_⟩) fun latest => ?_
      · rw [missing]
        rfl
      · split
        · exact .done
        · rw [Program.bind_assoc]
          refine .updateStep ?_
          change Follows job .stepped ((if locked.step.next.isCompleted then _ else _) >>= _)
          split
          · exact .done
          · rw [Program.bind_assoc]
            exact beginRun fun run => .done

end Follows

theorem follows_body {operation : Operation} (isBody : operation.body = some body) :
    ∃ job, Follows job .opened body := by
  cases operation with
  | restart job =>
      obtain rfl := Option.some.inj isBody
      exact ⟨job, .restartJob job⟩
  | validate job =>
      obtain rfl := Option.some.inj isBody
      exact ⟨job, .validateJob job⟩
  | «continue» job =>
      obtain rfl := Option.some.inj isBody
      exact ⟨job, .continueJob job⟩
  | start | claim | finish | abort | begin => contradiction

/-! What other calls leave as it is for a transition that has locked its job. -/

/-- The tables look the same to a transition of the job with its own writes. -/
structure Db.Keeps (env : Env) (job : Uuid) (written : List Write) (db next : Db) : Prop where
  sameJob : next.job? job = db.job? job
  latest : ∀ last, findLatest env job db = some last → last.status = .succeeded →
    last.Complete → findLatest env job next = some last
  insert : ∀ step status startedAt run, insertRun env job step status startedAt db = .ok run →
    .insertRun run ∈ written → insertRun env job step status startedAt next = .ok run

omit [Isolang] in
theorem Db.Keeps.refl {written : List Write} : db.Keeps env job written db where
  sameJob := rfl
  latest _ found _ _ := found
  insert _ _ _ _ inserted _ := inserted

omit [Isolang] in
theorem Db.Keeps.trans {written : List Write} {between next : Db}
    (first : db.Keeps env job written between) (second : between.Keeps env job written next) :
    db.Keeps env job written next where
  sameJob := second.sameJob.trans first.sameJob
  latest last found status complete :=
    second.latest last (first.latest last found status complete) status complete
  insert _ _ _ _ inserted member :=
    second.insert _ _ _ _ (first.insert _ _ _ _ inserted member) member

theorem Passed.keep {next : Db} {written : List Write}
    (passed : Passed env job body db stage rest writes) (keeps : db.Keeps env job written next)
    (sub : writes ⊆ written) : Passed env job body next stage rest writes := by
  induction passed with
  | opened => exact .opened
  | locked _ found induction => exact (induction sub).locked (keeps.sameJob.trans found)
  | seen _ latest succeeded complete induction =>
      exact (induction sub).seen (keeps.latest _ latest succeeded complete) succeeded complete
  | stepped _ induction => exact (induction (List.append_subset.mp sub).1).stepped
  | begun _ inserted induction =>
      exact (induction (List.append_subset.mp sub).1).begun
        (keeps.insert _ _ _ _ inserted ((List.append_subset.mp sub).2 (List.mem_singleton_self _)))
  | enqueued _ locked inserted induction =>
      exact (induction (List.append_subset.mp sub).1).enqueued locked
        (keeps.insert _ _ _ _ inserted ((List.append_subset.mp sub).2 (List.mem_singleton_self _)))
  | notified _ induction => exact (induction (List.append_subset.mp sub).1).notified

/-! The updates of runs. -/

omit [Isolang] in
theorem StepRunRow.Evolves.clashes {now : Timestamp} {old new run : StepRunRow}
    (evolved : old.Evolves now new) (apart : run.clashes old = false) :
    run.clashes new = false := by
  have ended : old.status.isActive = false → new.status.isActive = false := evolved.inactive
  simp only [StepRunRow.clashes, evolved.id_eq, evolved.jobId_eq, evolved.step_eq,
    evolved.attempt_eq, Bool.or_eq_false_iff, Bool.and_eq_false_iff] at apart ⊢
  exact ⟨apart.1, apart.2.imp_right ended⟩

omit [Isolang] in
theorem runsOf_updateRuns {hit : StepRunRow → Bool} {set : StepRunRow → StepRunRow}
    (kept : ∀ row, (set row).jobId = row.jobId) (db : Db) (job : Uuid) :
    (db.updateRuns hit set).2.runsOf job = updateWhere hit set (db.runsOf job) :=
  filter_updateWhere (fun row => by simp [kept]) db.runs

omit [Isolang] in
theorem keeps_updateRuns {now : Timestamp} {hit : StepRunRow → Bool}
    {set : StepRunRow → StepRunRow} (kept : ∀ row, (set row).jobId = row.jobId)
    (each : ∀ row, hit row = true → row.Evolves now (set row)) (unstarted : db.Unstarted)
    (written : List Write) : db.Keeps env job written (db.updateRuns hit set).2 where
  sameJob := rfl
  latest last found status complete := by
    have evolves := evolves_updateWhere each
    have started := started_of_succeeded ⟨found, rfl, status, complete⟩
    -- A run that has started is not pending, so it keeps its place in the order.
    have same : ∀ row ∈ db.runsOf job,
        (if hit row then set row else row).startedAt = row.startedAt := by
      intro row member
      refine (evolves row).startedAt_eq.resolve_right fun ⟨pending, _⟩ => ?_
      have isStarted := started row member
      rw [unstarted row (List.mem_of_mem_filter member) pending] at isStarted
      contradiction
    rw [findLatest, runsOf_updateRuns kept, updateWhere, firstBy_map]
    · rw [show firstBy (laterFirst env.tie) (db.runsOf job) = some last from found, Option.map_some,
        (evolves last).eq_of_inactive (isActive_of_succeeded status)]
    · intro first firstMember second secondMember
      simp only [laterFirst, same first firstMember, same second secondMember,
        (evolves first).attempt_eq, (evolves second).attempt_eq, (evolves first).id_eq,
        (evolves second).id_eq]
  insert step status startedAt run inserted _ := by
    obtain ⟨rfl, bounded, allowed, apart, known⟩ := insertRun_ok.mp inserted
    have attempt : nextAttempt step ((db.updateRuns hit set).2.runsOf job) =
        nextAttempt step (db.runsOf job) := by
      rw [nextAttempt_eq, nextAttempt_eq, runsOf_updateRuns kept, updateWhere,
        History.map_key_evolve fun row _ => evolves_updateWhere each row]
    have same : newRun env job step status startedAt (db.updateRuns hit set).2 =
        newRun env job step status startedAt db := by
      simp only [newRun, attempt]
    refine insertRun_ok.mpr ⟨same.symm, bounded, allowed, fun other member => ?_, known⟩
    obtain ⟨old, stored, rfl⟩ := List.mem_map.mp member
    exact (evolves_updateWhere each old).clashes (apart old stored)

/-! The writes of a transition of another job. -/

theorem keeps_write {writer : Env} {other : Uuid} {written : List Write} {write : Write}
    (ofOther : write.Of writer other) (apart : other ≠ job)
    (unconflicting : ∀ own ∈ written, transitions.conflicts own write = false) :
    db.Keeps env job written (db.apply write) := by
  cases ofOther with
  | setStep =>
      refine ⟨job?_setStep_of_ne apart, fun _ found _ _ => found, fun _ _ _ _ inserted _ => ?_⟩
      rw [insertRun_setStep, inserted]
  | @insertRun run ofOther =>
      have runsOf : (db.apply (.insertRun run)).runsOf job = db.runsOf job :=
        runsOf_insertRun_of_ne (ofOther ▸ apart)
      refine ⟨rfl, fun _ found _ _ => ?_, fun step status startedAt own inserted member => ?_⟩
      · rw [findLatest, runsOf]
        exact found
      · obtain ⟨rfl, bounded, allowed, clear, known⟩ := insertRun_ok.mp inserted
        have same : newRun env job step status startedAt (db.apply (.insertRun run)) =
            newRun env job step status startedAt db := by
          simp only [newRun, runsOf]
        refine insertRun_ok.mpr ⟨same.symm, bounded, allowed, fun row stored => ?_, known⟩
        rcases List.mem_append.mp stored with stored | isNew
        · exact clear row stored
        · exact List.mem_singleton.mp isNew ▸ unconflicting _ member
  | notify => exact ⟨rfl, fun _ found _ _ => found, fun _ _ _ _ inserted _ => inserted⟩

theorem keeps_view {writer : Env} {other : Uuid} {written writes : List Write}
    (ofOther : ∀ write ∈ writes, write.Of writer other) (apart : other ≠ job)
    (unconflicting : ∀ own ∈ written, ∀ write ∈ writes,
      transitions.conflicts own write = false) :
    db.Keeps env job written (postgres.view db writes) := by
  induction writes generalizing db with
  | nil => exact .refl
  | cons write later induction =>
      have first : db.Keeps env job written (db.apply write) :=
        keeps_write (ofOther write (by simp)) apart fun own member =>
          unconflicting own member write (by simp)
      exact first.trans (induction (fun other member => ofOther other (by simp [member]))
        fun own member other isLater => unconflicting own member other (by simp [isLater]))

/-! No pending run ever has a start. -/

theorem unstarted_view {writer : Env} {writes : List Write}
    (written : ∀ write ∈ writes, write.Of writer job) (unstarted : db.Unstarted) :
    (postgres.view db writes).Unstarted := by
  induction writes generalizing db with
  | nil => exact unstarted
  | cons write later induction =>
      refine induction (fun other member => written other (by simp [member])) ?_
      cases written write (by simp) with
      | setStep | notify => exact unstarted
      | insertRun _ new =>
          intro row member pending
          rcases List.mem_append.mp member with stored | isNew
          · exact unstarted row stored pending
          · exact (List.mem_singleton.mp isNew ▸ new).pending pending

/-! Why the transitions take effect one after the other. -/

/-- A transition that has begun stands where it would, had it been run just now. -/
def Stands (db : Db)
    (session : Session Statement.Reply SqlError Error Write Uuid Call Output) : Prop :=
  ∃ job body stage, session.call.operation.body = some body ∧
    Passed session.call.env job body db stage session.rest session.writes ∧
    Follows job stage session.rest ∧ session.keys = stage.keys job

/-- A transition leans on the tables only through the job that it has locked. -/
theorem Stands.keep {session : Session Statement.Reply SqlError Error Write Uuid Call Output}
    {next : Db} (stands : Stands db session)
    (keeps : ∀ job ∈ session.keys, db.Keeps session.call.env job session.writes next) :
    Stands next session := by
  obtain ⟨job, body, stage, isBody, passed, follows, keys⟩ := stands
  refine ⟨job, body, stage, isBody, ?_, follows, keys⟩
  cases stage with
  | opened =>
      obtain ⟨sameRest, none⟩ := passed.opened_eq
      rw [sameRest, none]
      exact .opened
  | locked | stepped | inserted =>
      exact passed.keep (keeps job (by simp [keys, Stage.keys])) fun _ member => member

theorem update_cases {operation : Operation} {statement : Db → Except Error Output × Db}
    (isUpdate : operation.update env = some statement) (db : Db) :
    (statement db).2 = db ∨ ∃ hit set, (statement db).2 = (db.updateRuns hit set).2 ∧
      (∀ row, (set row).jobId = row.jobId) ∧
      ∀ row, hit row = true → row.Evolves env.now (set row) := by
  cases operation with
  | claim job =>
      obtain rfl := Option.some.inj isUpdate
      exact .inr ⟨_, _, rfl, fun _ => rfl, claim_evolves _ _⟩
  | finish run outcome =>
      obtain rfl := Option.some.inj isUpdate
      simp only [finishRun]
      split
      · exact .inl rfl
      · exact .inr ⟨_, _, rfl, fun _ => rfl, finish_evolves _ _ _⟩
  | abort job =>
      obtain rfl := Option.some.inj isUpdate
      exact .inr ⟨_, _, rfl, fun _ => rfl, abort_evolves _ _⟩
  | start | restart | validate | «continue» | begin => contradiction

/-- The success under the lock is what no update reaches, and what the lock and the
unique indexes keep other transitions from. -/
def serial : transitions.Serial where
  sound := Db.Unstarted
  stands := Stands
  symm first second := by
    cases first <;> cases second <;> first | rfl | exact StepRunRow.clashes_comm ..
  exclusive call := by
    obtain ⟨env, operation⟩ := call
    cases operation <;> first | exact fun _ => rfl | exact nofun
  coherent db session := by
    rintro ⟨job, body, stage, isBody, passed, _⟩
    exact ⟨body, isBody, passed.coherent⟩
  opened db call body _ isBody := by
    obtain ⟨job, follows⟩ := follows_body isBody
    exact ⟨job, body, .opened, isBody, .opened, follows, rfl⟩
  executed db call statement onFault next writes keys reply added _ := by
    rintro ⟨job, body, stage, isBody, passed, follows, rfl⟩ replied going
    obtain ⟨later, passed, follows, sameKeys⟩ := passed.executed follows replied going
    exact ⟨job, body, later, isBody, passed, follows, sameKeys⟩
  committed db call value writes keys unstarted := by
    rintro ⟨job, body, stage, _, passed, _, rfl⟩
    refine ⟨unstarted_view passed.mem_writes unstarted, fun session stands apart => ?_⟩
    refine stands.keep fun other held => ?_
    cases stage with
    | opened =>
        obtain ⟨_, rfl⟩ := passed.opened_eq
        exact .refl
    | locked | stepped | inserted =>
        have otherJob : job ≠ other := fun same =>
          apart.keys other held (by simp [Stage.keys, same])
        exact keeps_view passed.mem_writes otherJob apart.writes
  single db call statement unstarted isSingle := by
    rcases update_cases isSingle db with same | ⟨hit, set, same, kept, each⟩
    · rw [same]
      exact ⟨unstarted, fun _ stands => stands⟩
    · rw [same]
      have step : RunsStep call.env.now db.runs (db.updateRuns hit set).2.runs :=
        .of_updateRuns each
      refine ⟨step.unstarted unstarted, fun session stands => ?_⟩
      exact stands.keep fun job _ => keeps_updateRuns kept each unstarted session.writes

theorem unstarted_of_reachable {allowed : Db → Call → Prop}
    (reachable : Reachable Db.Initial (Calls allowed) db) : db.Unstarted := by
  refine reachable.invariant (fun db initial => ?_) ?_
  · simp [Db.Unstarted, initial.runs]
  · rintro db call next unstarted ⟨_, performed⟩
    obtain ⟨_, effect⟩ := performed.effect
    exact effect.runsStep.unstarted unstarted

def Interleaved (start : Db)
    (config : Config Statement.Reply SqlError Error Db Write Uuid Call Output) : Prop :=
  Relation.ReflTransGen transitions.Interleaves ⟨start, [], []⟩ config

theorem Interleaved.serially {start : Db}
    {config : Config Statement.Reply SqlError Error Db Write Uuid Call Output}
    (interleaved : Interleaved start config) (unstarted : start.Unstarted) :
    ∃ order, order.Perm config.ended ∧ Run Executes start order config.store := by
  obtain ⟨order, perm, run⟩ := Service.linearizes serial unstarted interleaved
  exact ⟨order, perm, run.mono fun _ _ _ => executes_of_atomic⟩

theorem interleaved_alone {call : Call} (transition : call.operation.body.isSome = true)
    (start : Db) :
    Interleaved start ⟨(call.operation.exec call.env start).db, [],
      [(call, (call.operation.exec call.env start).result)]⟩ := by
  obtain ⟨program, isBody⟩ := Option.isSome_iff_exists.mp transition
  have run : Interleaved start _ := Service.alone isBody start
  have atomic : transitions.Atomic start _ _ := .transaction isBody
  obtain ⟨same, sameDb⟩ : (call.operation.exec call.env start).result = _ ∧
    _ = (call.operation.exec call.env start).db := executes_of_atomic atomic
  rw [same, ← sameDb]
  exact run

end

end Zyndeck
