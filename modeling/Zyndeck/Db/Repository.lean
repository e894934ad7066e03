import Zyndeck.Db.Game

namespace Zyndeck

/-! All the calls that the API makes. -/

structure Credentials where
  id : Uuid
  passwordHash : Text
  deriving DecidableEq

/-- A list is the stream of its items. -/
inductive RepositoryCall where
  | user (call : UserCall)
  | findCredentialsByUsername (username : Text)
  | countUsers
  | listUsers
  | findGame (id : Uuid)
  | countGames
  | listGames
  | createGame (game : NewGame)
  | updateGame (id : Uuid) (changes : GameUpdate)
  | deleteGame (id : Uuid)

@[reducible] def RepositoryCall.Reply : RepositoryCall → Type
  | .user call => call.Reply
  | .findCredentialsByUsername _ => Option Credentials
  | .countUsers => Int64
  | .listUsers => List (Except Error User)
  | .findGame _ => Option Game
  | .countGames => Int64
  | .listGames => List (Except Error Game)
  | .createGame _ => Game
  | .updateGame _ _ => Option Game
  | .deleteGame _ => Bool

/-- What the statements see besides their parameters, with the order of texts in the
database's collation. -/
structure RepositoryDraw where
  user : Draw
  game : GameDraw
  collation : Text → Text → Bool

namespace Db

def credentials? (db : Db) (username : Text) : Option Credentials :=
  (db.users.find? (·.username = username)).map fun row => ⟨row.id, row.passwordHash⟩

/-- `find_credentials_by_username.sql`. -/
def findCredentials (username : Text) (db : Db) : Except Error (Option Credentials) :=
  if !storable username then .error (.query .invalidText) else .ok (db.credentials? username)

/-- `count.sql`, a `bigint`. -/
def countUsers (db : Db) : Int64 := .ofNat db.users.length

/-- `list.sql`. -/
def listUsers (collation : Text → Text → Bool) (db : Db) : List UserRow :=
  db.users.mergeSort fun first second => collation first.username second.username

end Db

def RepositoryCall.exec (draw : RepositoryDraw) :
    (call : RepositoryCall) → Db → Except Error call.Reply × Db
  | .user call, db => call.exec draw.user db
  | .findCredentialsByUsername username, db => (db.findCredentials username, db)
  | .countUsers, db => (.ok db.countUsers, db)
  | .listUsers, db => (.ok ((db.listUsers draw.collation).map UserRow.tryInto), db)
  | .findGame id, db => (.ok ((db.game? id).map GameRow.toGame), db)
  | .countGames, db => (.ok db.countGames, db)
  | .listGames, db => (.ok ((db.listGames draw.game.tie).map (.ok ·.toGame)), db)
  | .createGame game, db => db.createGame draw.game game
  | .updateGame id changes, db => db.updateGame id changes
  | .deleteGame id, db => db.deleteGame id

/-- The calls that read nothing but the games. -/
def RepositoryCall.readsGames : RepositoryCall → Bool
  | .findGame _ | .countGames | .listGames => true
  | _ => false

namespace RepositoryCall

variable {draw : RepositoryDraw} {call : RepositoryCall} {first second : Db}

theorem exec_readsGames (onlyGames : call.readsGames = true)
    (games : first.games = second.games) :
    (call.exec draw first).1 = (call.exec draw second).1 ∧
      ∀ db, (call.exec draw db).2 = db := by
  cases call with
  | findGame id => exact ⟨by simp only [exec, Db.game?, games], fun _ => rfl⟩
  | countGames => exact ⟨by simp only [exec, Db.countGames, games], fun _ => rfl⟩
  | listGames => exact ⟨by simp only [exec, Db.listGames, games], fun _ => rfl⟩
  | _ => contradiction

end RepositoryCall

end Zyndeck
