import Zyndeck.Data.Paging
import Zyndeck.Db.User

namespace Zyndeck

open Data

/-! The repository of games. -/

structure Game where
  id : Uuid
  name : List (Text × Text)
  createdAt : Timestamp
  createdBy : Uuid
  deriving DecidableEq

/-- `Game::from(GameRow)`. -/
def GameRow.toGame (row : GameRow) : Game := ⟨row.id, row.name, row.createdAt, row.createdBy⟩

structure NewGame where
  name : List (Text × Text)
  createdBy : Uuid

structure GameUpdate where
  name : List (Text × Text)

/-- What the statements see besides their parameters: `now()`, `gen_random_uuid()`, and
how rows that an `ORDER BY` leaves tied are ranked. -/
structure GameDraw where
  now : Timestamp
  gameId : Uuid
  tie : Uuid → Nat

/-- A text in a `jsonb` column cannot hold NUL either. -/
def storableName (name : List (Text × Text)) : Bool :=
  name.all fun (language, text) => storable language && storable text

namespace Db

def game? (db : Db) (id : Uuid) : Option GameRow := db.games.find? (·.id = id)

/-- `count.sql`, a `bigint`. -/
def countGames (db : Db) : Int64 := .ofNat db.games.length

/-- What `list.sql` can yield: its `ORDER BY created_at` leaves the order of games of one
time open. -/
def ListsGames (db : Db) (rows : List GameRow) : Prop := Orders GameRow.createdAt db.games rows

/-- `list.sql`, with the planner's rank of games of one time. -/
def listGames (tie : Uuid → Nat) (db : Db) : List GameRow :=
  (db.games.insertionSort (tie ·.id ≤ tie ·.id)).insertionSort (·.createdAt ≤ ·.createdAt)

theorem listsGames (tie : Uuid → Nat) (db : Db) : db.ListsGames (db.listGames tie) := by
  have total : Std.Total fun first second : GameRow => first.createdAt ≤ second.createdAt :=
    ⟨fun first second => Int.le_total first.createdAt second.createdAt⟩
  have trans : IsTrans GameRow fun first second => first.createdAt ≤ second.createdAt :=
    ⟨fun _ _ _ => Int.le_trans⟩
  exact ⟨(List.perm_insertionSort ..).trans (List.perm_insertionSort ..),
    List.pairwise_insertionSort ..⟩

/-- `create.sql`. -/
def createGame (draw : GameDraw) (new : NewGame) (db : Db) : Except Error Game × Db :=
  let row : GameRow := ⟨draw.gameId, new.name, draw.now, new.createdBy⟩
  if !storableName new.name then (.error (.query .invalidText), db)
  else if db.games.any (·.id = row.id) then (.error (.query .uniqueViolation), db)
  else if (db.user? new.createdBy).isNone then
    (.error (.query (.foreignKeyViolation "game_created_by_fkey")), db)
  else (.ok row.toGame, { db with games := db.games ++ [row] })

/-- `update.sql`. -/
def updateGame (id : Uuid) (changes : GameUpdate) (db : Db) : Except Error (Option Game) × Db :=
  let set (row : GameRow) : GameRow := { row with name := changes.name }
  if !storableName changes.name then (.error (.query .invalidText), db)
  else
    (.ok ((returning (·.id = id) set db.games).head?.map GameRow.toGame),
      { db with games := updateWhere (·.id = id) set db.games })

/-- `delete.sql`: the jobs of the game go with it, and all that is stored for them. -/
def deleteGame (id : Uuid) (db : Db) : Except Error Bool × Db :=
  let jobs := (db.jobs.filter (·.gameId = id)).map (·.id)
  let chunks := (db.chunks.filter (·.jobId ∈ jobs)).map (·.id)
  (.ok (db.games.any (·.id = id)),
    { db with
      games := db.games.filter (·.id ≠ id)
      jobs := db.jobs.filter (·.gameId ≠ id)
      runs := db.runs.filter (·.jobId ∉ jobs)
      transcripts := db.transcripts.filter (·.jobId ∉ jobs)
      chunks := db.chunks.filter (·.jobId ∉ jobs)
      embeddings := db.embeddings.filter (·.chunkId ∉ chunks) })

end Db

end Zyndeck
