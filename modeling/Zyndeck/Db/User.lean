import Zyndeck.Data.Rows
import Zyndeck.Data.Transaction
import Zyndeck.Db.Schema

namespace Zyndeck

open Data

/-! The repository of users: every call is one statement, committed on its own. -/

structure NewUser where
  username : Text
  passwordHash : Text
  role : Role

structure UserUpdate where
  username : Text
  role : Role

namespace UserRow

/-- `User::try_from(UserRow)`. -/
def tryInto (row : UserRow) : Except Error User :=
  match Role.fromStr row.role.asStr with
  | .error _ => .error (.invalidRole row.role.asStr)
  | .ok role => .ok ⟨row.id, row.username, role, row.createdAt⟩

def toUser (row : UserRow) : User := ⟨row.id, row.username, row.role, row.createdAt⟩

@[simp] theorem tryInto_eq (row : UserRow) : row.tryInto = .ok row.toUser := by
  unfold tryInto
  rw [Role.fromStr_asStr]
  rfl

def change (changes : UserUpdate) (row : UserRow) : UserRow :=
  { row with username := changes.username, role := changes.role }

@[simp] theorem change_id (changes : UserUpdate) (row : UserRow) :
    (row.change changes).id = row.id := rfl

end UserRow

/-- What an insert draws: `now()` and `gen_random_uuid()`. -/
structure Draw where
  now : Timestamp
  userId : Uuid

inductive UserCall where
  | create (user : NewUser)
  | findById (id : Uuid)
  | update (id : Uuid) (changes : UserUpdate)
  | delete (id : Uuid)

@[reducible] def UserCall.Reply : UserCall → Type
  | .create _ => User
  | .findById _ => Option User
  | .update _ _ => Option User
  | .delete _ => Bool

namespace Db

def user? (db : Db) (id : Uuid) : Option UserRow := db.users.find? (·.id = id)

theorem user?_eq_some {db : Db} (unique : (db.users.map (·.id)).Nodup) {id : Uuid}
    {row : UserRow} : db.user? id = some row ↔ row ∈ db.users ∧ row.id = id :=
  find?_key_eq_some unique

/-- `create.sql`. -/
def createUser (draw : Draw) (new : NewUser) (db : Db) : Except Error User × Db :=
  let row : UserRow := ⟨draw.userId, new.username, new.passwordHash, new.role, draw.now⟩
  if !storable new.username || !storable new.passwordHash then (.error (.query .invalidText), db)
  else if db.users.any fun other =>
      decide (other.id = row.id) || decide (other.username = row.username) then
    (.error (.usernameTaken new.username), db)
  else (row.tryInto, { db with users := db.users ++ [row] })

/-- `find_by_id.sql`. -/
def findUser (id : Uuid) (db : Db) : Except Error (Option User) :=
  match db.user? id with
  | none => .ok none
  | some row => row.tryInto.map some

@[simp] theorem findUser_eq (id : Uuid) (db : Db) :
    db.findUser id = .ok ((db.user? id).map UserRow.toUser) := by
  unfold findUser
  cases db.user? id with
  | none => rfl
  | some row => simp [Except.map]

/-- `update.sql`. -/
def updateUser (id : Uuid) (changes : UserUpdate) (db : Db) :
    Except Error (Option User) × Db :=
  if !storable changes.username then (.error (.query .invalidText), db)
  else
    match (returning (·.id = id) (·.change changes) db.users).head? with
    | none => (.ok none, db)
    | some row =>
        if db.users.any fun other =>
            decide (other.id ≠ id) && decide (other.username = changes.username) then
          (.error (.usernameTaken changes.username), db)
        else
          (row.tryInto.map some,
            { db with users := updateWhere (·.id = id) (·.change changes) db.users })

/-- `delete.sql`.  Games refer to the user who added them; jobs forget who started them. -/
def deleteUser (id : Uuid) (db : Db) : Except Error Bool × Db :=
  if !db.users.any (·.id = id) then (.ok false, db)
  else if db.games.any (·.createdBy = id) then
    (.error (.query (.foreignKeyViolation "game_created_by_fkey")), db)
  else
    (.ok true,
      { db with
        users := db.users.filter (·.id ≠ id)
        jobs := updateWhere (·.createdBy = some id) ({ · with createdBy := none }) db.jobs })

end Db

def UserCall.exec (draw : Draw) : (call : UserCall) → Db → Except Error call.Reply × Db
  | .create user, db => db.createUser draw user
  | .findById id, db => (db.findUser id, db)
  | .update id changes, db => db.updateUser id changes
  | .delete id, db => db.deleteUser id

inductive UserEffect (draw : Draw) (users : List UserRow) : UserCall → List UserRow → Prop
  | unchanged : UserEffect draw users call users
  | created (row : UserRow) (drawn : row.id = draw.userId) (role : row.role = new.role)
      (fresh : row.id ∉ users.map (·.id)) :
      UserEffect draw users (.create new) (users ++ [row])
  | updated (target : Uuid) : UserEffect draw users (.update target changes)
      (updateWhere (·.id = target) (·.change changes) users)
  | deleted (target : Uuid) :
      UserEffect draw users (.delete target) (users.filter (·.id ≠ target))

theorem UserCall.effect (draw : Draw) (call : UserCall) (db : Db) :
    UserEffect draw db.users call (call.exec draw db).2.users := by
  cases call with
  | create new =>
      simp only [exec, Db.createUser]
      split
      · exact .unchanged
      · split
        · exact .unchanged
        · rename_i free
          refine .created _ rfl rfl fun taken => free ?_
          have ⟨other, member, same⟩ := List.mem_map.mp taken
          exact List.any_eq_true.mpr ⟨other, member, by simp [same]⟩
  | findById id => exact .unchanged
  | update id changes =>
      simp only [exec, Db.updateUser]
      split
      · exact .unchanged
      · split
        · exact .unchanged
        · split
          · exact .unchanged
          · exact .updated id
  | delete id =>
      simp only [exec, Db.deleteUser]
      split
      · exact .unchanged
      · split
        · exact .unchanged
        · exact .deleted id

namespace UserEffect

variable {draw : Draw} {users next : List UserRow} {call : UserCall}

theorem nodup (effect : UserEffect draw users call next) (unique : (users.map (·.id)).Nodup) :
    (next.map (·.id)).Nodup := by
  cases effect with
  | unchanged => exact unique
  | created row drawn role fresh =>
      rw [List.map_append, List.map_singleton, ← List.concat_eq_append]
      exact unique.concat fresh
  | updated =>
      rw [map_updateWhere (UserRow.change_id _)]
      exact unique
  | deleted => exact unique.sublist (List.filter_sublist.map _)

theorem deletes (effect : UserEffect draw users call next) {row : UserRow} (member : row ∈ users)
    (gone : row.id ∉ next.map (·.id)) : call = .delete row.id := by
  cases effect with
  | unchanged => exact absurd (List.mem_map_of_mem member) gone
  | created =>
      rw [List.map_append] at gone
      exact absurd (List.mem_append_left _ (List.mem_map_of_mem member)) gone
  | updated =>
      rw [map_updateWhere (UserRow.change_id _)] at gone
      exact absurd (List.mem_map_of_mem member) gone
  | deleted target =>
      by_cases same : row.id = target
      · rw [same]
      · have kept : row ∈ users.filter (·.id ≠ target) :=
          List.mem_filter.mpr ⟨member, decide_eq_true same⟩
        exact absurd (List.mem_map_of_mem kept) gone

end UserEffect

/-! The calls on users that are made outside the handlers. -/

def UserRow.reset (new : NewUser) (row : UserRow) : UserRow :=
  { row with passwordHash := new.passwordHash, role := new.role }

namespace Db

/-- `upsert.sql` of `"user"`: the conflict is on the username. -/
def upsertUser (draw : Draw) (new : NewUser) (db : Db) : Except Error User × Db :=
  if !storable new.username || !storable new.passwordHash then (.error (.query .invalidText), db)
  else
    match (returning (·.username = new.username) (·.reset new) db.users).head? with
    | some row =>
        (row.tryInto,
          { db with users := updateWhere (·.username = new.username) (·.reset new) db.users })
    | none =>
        let row : UserRow := ⟨draw.userId, new.username, new.passwordHash, new.role, draw.now⟩
        if db.users.any (·.id = row.id) then (.error (.query .uniqueViolation), db)
        else (row.tryInto, { db with users := db.users ++ [row] })

end Db

end Zyndeck
