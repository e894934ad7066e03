import Zyndeck.Api.User

namespace Zyndeck

open Data

/-! The rows that refer to others, and what becomes of them when a user is deleted. -/

/-- The foreign keys of the schema. -/
structure Db.References (db : Db) : Prop where
  games : ∀ game ∈ db.games, game.createdBy ∈ db.users.map (·.id)
  jobs : ∀ job ∈ db.jobs, job.gameId ∈ db.games.map (·.id)
  starters : ∀ job ∈ db.jobs, ∀ user ∈ job.createdBy, user ∈ db.users.map (·.id)
  runs : ∀ run ∈ db.runs, run.jobId ∈ db.jobs.map (·.id)
  transcripts : ∀ transcript ∈ db.transcripts, transcript.jobId ∈ db.jobs.map (·.id)
  chunks : ∀ chunk ∈ db.chunks, chunk.jobId ∈ db.jobs.map (·.id)
  embeddings : ∀ embedding ∈ db.embeddings, embedding.chunkId ∈ db.chunks.map (·.id)

/-- The row of a user is gone, their jobs do not name them any more, and all else is in
place. -/
structure Db.Without (target : Uuid) (db after : Db) : Prop where
  users : ∃ front row back, row.id = target ∧ db.users = front ++ row :: back ∧
    after.users = front ++ back
  games : after.games = db.games
  jobs : after.jobs = db.jobs.map fun job =>
    if job.createdBy = some target then { job with createdBy := none } else job
  runs : after.runs = db.runs
  transcripts : after.transcripts = db.transcripts
  chunks : after.chunks = db.chunks
  embeddings : after.embeddings = db.embeddings

namespace Db

variable {db : Db} {target : Uuid}

theorem deleteUser_of_creator (found : target ∈ db.users.map (·.id))
    (creator : ∃ game ∈ db.games, game.createdBy = target) : db.deleteUser target =
      (.error (.query (.foreignKeyViolation "game_created_by_fkey")), db) := by
  have known : db.users.any (·.id = target) = true := by rw [any_key, decide_eq_true found]
  have referred : db.games.any (·.createdBy = target) = true := by
    rw [any_key]
    exact decide_eq_true (List.mem_map.mpr creator)
  simp only [deleteUser, known, referred, Bool.not_true, Bool.false_eq_true, if_false, if_true]

theorem deleteUser_of_free (found : target ∈ db.users.map (·.id))
    (free : ∀ game ∈ db.games, game.createdBy ≠ target) :
    (db.deleteUser target).1 = .ok true ∧
      (db.deleteUser target).2 = { db with
        users := db.users.filter (·.id ≠ target)
        jobs := updateWhere (·.createdBy = some target) ({ · with createdBy := none })
          db.jobs } := by
  have known : db.users.any (·.id = target) = true := by rw [any_key, decide_eq_true found]
  have unreferred : db.games.any (·.createdBy = target) = false := by
    rw [any_key]
    refine decide_eq_false fun referred => ?_
    have ⟨game, present, theirs⟩ := List.mem_map.mp referred
    exact free game present theirs
  simp [deleteUser, known, unreferred]

theorem without_deleteUser (unique : (db.users.map (·.id)).Nodup)
    (found : target ∈ db.users.map (·.id))
    (free : ∀ game ∈ db.games, game.createdBy ≠ target) :
    db.Without target (db.deleteUser target).2 := by
  rw [(deleteUser_of_free found free).2]
  obtain ⟨row, stored, rfl⟩ := List.mem_map.mp found
  obtain ⟨front, back, split⟩ := List.append_of_mem stored
  refine ⟨⟨front, row, back, rfl, split, ?_⟩, rfl, by simp [updateWhere], rfl, rfl, rfl, rfl⟩
  simp only [split] at unique ⊢
  exact filter_key_ne unique

end Db

namespace Db.References

variable {db : Db}

theorem of_users (references : db.References) {users : List UserRow}
    (kept : ∀ id ∈ db.users.map (·.id), id ∈ users.map (·.id)) :
    { db with users := users }.References where
  games game member := kept _ (references.games game member)
  jobs := references.jobs
  starters job member user named := kept _ (references.starters job member user named)
  runs := references.runs
  transcripts := references.transcripts
  chunks := references.chunks
  embeddings := references.embeddings

theorem deleteUser (references : db.References) (target : Uuid) :
    (db.deleteUser target).2.References := by
  by_cases found : target ∈ db.users.map (·.id)
  · by_cases creator : ∃ game ∈ db.games, game.createdBy = target
    · rw [deleteUser_of_creator found creator]
      exact references
    · have free : ∀ game ∈ db.games, game.createdBy ≠ target :=
        fun game member theirs => creator ⟨game, member, theirs⟩
      have others : ∀ id ∈ db.users.map (·.id), id ≠ target →
          id ∈ (db.users.filter (·.id ≠ target)).map (·.id) := by
        intro id known other
        have ⟨row, stored, isId⟩ := List.mem_map.mp known
        exact List.mem_map.mpr ⟨row, List.mem_filter.mpr ⟨stored, by simpa [isId]⟩, isId⟩
      have sameJobs : (updateWhere (·.createdBy = some target)
          ({ · with createdBy := none : JobRow }) db.jobs).map (·.id) = db.jobs.map (·.id) :=
        by rw [map_updateWhere]; exact fun _ => rfl
      rw [(deleteUser_of_free found free).2]
      refine
        { games := fun game member => others _ (references.games game member) (free game member)
          jobs := fun job member => ?_
          starters := fun job member user named => ?_
          runs := fun run member => sameJobs ▸ references.runs run member
          transcripts := fun row member => sameJobs ▸ references.transcripts row member
          chunks := fun chunk member => sameJobs ▸ references.chunks chunk member
          embeddings := references.embeddings }
      · rcases mem_updateWhere.mp member with ⟨old, stored, _, rfl⟩ | ⟨stored, _⟩
        · exact references.jobs old stored
        · exact references.jobs job stored
      · rcases mem_updateWhere.mp member with ⟨old, _, _, rfl⟩ | ⟨stored, unmatched⟩
        · cases named
        · refine others _ (references.starters job stored user named) ?_
          rintro rfl
          exact of_decide_eq_false unmatched named
  · have unknown : db.users.any (·.id = target) = false := by rw [any_key, decide_eq_false found]
    rw [Db.deleteUser, unknown]
    exact references

theorem exec (references : db.References) (draw : Draw) (call : UserCall) :
    (call.exec draw db).2.References := by
  cases call with
  | create new =>
      simp only [UserCall.exec, Db.createUser]
      split
      · exact references
      · split
        · exact references
        · refine references.of_users fun id known => ?_
          rw [List.map_append]
          exact List.mem_append_left _ known
  | findById id => exact references
  | update id changes =>
      simp only [UserCall.exec, Db.updateUser]
      split
      · exact references
      · split
        · exact references
        · split
          · exact references
          · refine references.of_users fun id known => ?_
            rwa [map_updateWhere (UserRow.change_id _)]
  | delete id => exact references.deleteUser id

end Db.References

namespace Api

theorem serve_references (draw : Draw) (request : Request) {db : Db}
    (references : db.References) : (serve draw request db).2.References :=
  Program.autocommit_invariant (fun call _ references => references.exec draw call) _ references

section

variable {draw : Draw} {validator : Validator} {db : Db} {caller : UserRow}
  {subject target : Uuid}

theorem serve_delete (found : db.user? subject = some caller) (isSuper : caller.role = .superAdmin)
    (known : target ∈ db.users.map (·.id)) :
    serve draw ⟨validator, subject, .delete target⟩ db =
      match db.deleteUser target with
      | (.ok true, after) => (.ok .noContent, after)
      | (.ok false, after) => (.error .notFound, after)
      | (.error fault, after) => (.error (.ofDb fault), after) := by
  have ⟨row, isTarget⟩ : ∃ row, db.user? target = some row := by
    refine Option.ne_none_iff_exists'.mp fun missing => ?_
    exact find?_key_eq_none.mp missing known
  have admin : caller.toUser.role.isAdmin = true := by
    rw [show caller.toUser.role = .superAdmin from isSuper]
    rfl
  have mayAll : caller.toUser.role.isSuperAdmin = true := (Role.isSuperAdmin_eq _).mpr isSuper
  rw [serve_known found]
  simp only [respond, deleteUser, requireAdmin, admin, if_true, removeUser, ask, Program.statement,
    Program.bind_done_ok, Program.bind_query, Program.autocommit, UserCall.exec, Db.findUser_eq,
    isTarget, Option.map_some, okOr, Program.pure_eq, mayAll, Bool.not_true, Bool.false_and,
    Bool.false_eq_true, if_false]
  rcases db.deleteUser target with ⟨fault | removed, after⟩
  · rfl
  · cases removed <;> rfl

/-- A super admin may delete anyone but a user who added a game. -/
theorem super_admin_deletes_iff (draw : Draw) (unique : (db.users.map (·.id)).Nodup)
    (found : db.user? subject = some caller) (isSuper : caller.role = .superAdmin)
    (known : target ∈ db.users.map (·.id)) :
    ((serve draw ⟨validator, subject, .delete target⟩ db).1 = .ok .noContent ∧
        db.Without target (serve draw ⟨validator, subject, .delete target⟩ db).2) ↔
      ∀ game ∈ db.games, game.createdBy ≠ target := by
  rw [serve_delete found isSuper known]
  constructor
  · rintro ⟨answered, _⟩ game present theirs
    rw [Db.deleteUser_of_creator known ⟨game, present, theirs⟩] at answered
    contradiction
  · intro free
    have without := Db.without_deleteUser unique known free
    have deleted := (Db.deleteUser_of_free known free).1
    generalize db.deleteUser target = outcome at without deleted
    obtain ⟨_, after⟩ := outcome
    obtain rfl := deleted
    exact ⟨rfl, without⟩

end

def club : Db where
  users := [⟨⟨1⟩, ['r', 'o', 'o', 't'], [], .superAdmin, 0⟩, ⟨⟨2⟩, ['a', 'n', 'n'], [], .admin, 0⟩,
    ⟨⟨3⟩, ['b', 'o', 'b'], [], .user, 0⟩]
  games := [⟨⟨4⟩, [(['e', 'n'], ['G', 'o'])], 0, ⟨3⟩⟩]
  jobs := [⟨⟨5⟩, .extract, ⟨4⟩, ['r', 'u', 'l', 'e', 's'], ['e', 'n'], 0, some ⟨2⟩⟩]
  runs := []
  transcripts := []
  chunks := []
  embeddings := []

theorem super_admin_deletes_admin :
    (serve ⟨0, ⟨9⟩⟩ ⟨terse, ⟨1⟩, .delete ⟨2⟩⟩ club).1 = .ok .noContent ∧
      club.Without ⟨2⟩ (serve ⟨0, ⟨9⟩⟩ ⟨terse, ⟨1⟩, .delete ⟨2⟩⟩ club).2 :=
  (super_admin_deletes_iff ⟨0, ⟨9⟩⟩ (by decide) rfl rfl (by decide)).mpr (by decide)

/-- The user who added the game cannot. -/
theorem super_admin_deletes_no_creator :
    (serve ⟨0, ⟨9⟩⟩ ⟨terse, ⟨1⟩, .delete ⟨3⟩⟩ club).1 = .error .internal ∧
      ¬ ∀ (draw : Draw) (validator : Validator) (db : Db) (subject target : Uuid)
          (caller : UserRow),
        db.References → (db.users.map (·.id)).Nodup → db.user? subject = some caller →
          caller.role = .superAdmin → target ∈ db.users.map (·.id) →
            (serve draw ⟨validator, subject, .delete target⟩ db).1 = .ok .noContent ∧
              db.Without target (serve draw ⟨validator, subject, .delete target⟩ db).2 := by
  have failed : (serve ⟨0, ⟨9⟩⟩ ⟨terse, ⟨1⟩, .delete ⟨3⟩⟩ club).1 = .error .internal := by decide
  refine ⟨failed, fun all => ?_⟩
  have references : club.References :=
    { games := by decide
      jobs := by decide
      starters := by simp [club]
      runs := by decide
      transcripts := by decide
      chunks := by decide
      embeddings := by decide }
  have ⟨answered, _⟩ := all ⟨0, ⟨9⟩⟩ terse club ⟨1⟩ ⟨3⟩ _ references (by decide) rfl rfl (by decide)
  rw [failed] at answered
  contradiction

end Api

end Zyndeck
