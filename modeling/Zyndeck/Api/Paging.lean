import Zyndeck.Api.Pagination

namespace Zyndeck.Api

open Data

/-! A client that asks for the games page after page. -/

def fetchGames (build : Build) (perPage total : Int64) (rows : List GameRow) (request : Nat) :
    Option (List GameResponse) :=
  (listGames build ⟨.ofNat (request + 1), perPage⟩ (.ok total)
    (rows.map fun row => .ok row.toGame)).toOption.map (·.items)

def GameResponse.ofRow (row : GameRow) : GameResponse := .ofGame row.toGame

def sizeOf (perPage : Int64) : Nat := PaginationQuery.size ⟨1, perPage⟩

theorem fetchGames_eq (build : Build) (perPage total : Int64) (rows : List GameRow)
    {request : Nat} (fits : request * sizeOf perPage < 2 ^ 63 - 1) :
    fetchGames build perPage total rows request =
      some ((slice (sizeOf perPage) request rows).map .ofRow) := by
  let query : PaginationQuery := ⟨.ofNat (request + 1), perPage⟩
  have size : query.size = sizeOf perPage := rfl
  have within := query.size_within
  have le : request ≤ request * sizeOf perPage := Nat.le_mul_of_pos_right _ (size ▸ within.1)
  have number : query.number = request + 1 := by
    rw [PaginationQuery.number, Int64.toInt_ofNat_of_lt (by omega)]
    omega
  have exact : query.Exact build := (query.exact_iff build).mpr (by
    rw [number, size, Nat.add_sub_cancel]
    omega)
  obtain ⟨page, returned, items, _⟩ :=
    paginate_sliced exact total (rows.map GameRow.toGame) GameResponse.ofGame
  have listed : listGames build query (.ok total) (rows.map fun row => .ok row.toGame) =
      .ok page := by
    rw [← returned, List.map_map]
    rfl
  have found : fetchGames build perPage total rows request = some page.items := by
    rw [fetchGames, listed]
    rfl
  rw [found, items, number, size, Nat.add_sub_cancel, List.map_map, ← List.map_drop,
    ← List.map_take]
  rfl

/-- Asking for page after page until one is empty returns each game once, whatever order
each of the requests reads the games in, if and only if no two games of one time are on
both sides of a page boundary. -/
theorem paging_visits_once_iff (build : Build) (perPage : Int64) {db : Db}
    (unique : (db.games.map (·.id)).Nodup) (bounded : db.games.length + 100 < 2 ^ 63) :
    (∀ orders : Nat → List GameRow, (∀ request, db.ListsGames (orders request)) →
      ∃ items, Gathers (fun request =>
          fetchGames build perPage db.countGames (orders request) request) 0 items ∧
        items.Perm (db.games.map .ofRow)) ↔
      Separated GameRow.createdAt (sizeOf perPage) db.games := by
  have within := PaginationQuery.size_within ⟨1, perPage⟩
  have fetches : ∀ orders : Nat → List GameRow, Fetches GameResponse.ofRow (sizeOf perPage)
      db.games orders fun request =>
        fetchGames build perPage db.countGames (orders request) request := by
    intro orders request below
    refine fetchGames_eq build perPage _ (orders request) ?_
    have : sizeOf perPage ≤ 100 := within.2
    omega
  have distinct : (db.games.map GameResponse.ofRow).Nodup := by
    refine List.Nodup.of_map GameResponse.id ?_
    rw [List.map_map]
    exact unique
  constructor
  · exact fun all => separated_of_gathers within.1 distinct fun orders valid =>
      have ⟨items, gathers, perm⟩ := all orders valid
      ⟨_, items, fetches orders, gathers, perm⟩
  · exact fun separated orders valid => gathers_perm within.1 valid separated (fetches orders)

def catan : GameRow := ⟨⟨1⟩, [("en".toList, "Catan".toList)], 0, ⟨9⟩⟩

def dominion (createdAt : Timestamp) : GameRow :=
  ⟨⟨2⟩, [("en".toList, "Dominion".toList)], createdAt, ⟨9⟩⟩

def shelf (games : List GameRow) : Db := ⟨[], games, [], [], [], [], []⟩

/-- The second request reads two games of one time the other way round, and returns the
first game again. -/
theorem tied_game_is_repeated :
    ¬ ∀ (db : Db) (perPage : Int64) (orders : Nat → List GameRow),
      (∀ request, db.ListsGames (orders request)) →
        ∃ items, Gathers (fun request =>
            fetchGames .release perPage db.countGames (orders request) request) 0 items ∧
          items.Perm (db.games.map .ofRow) := by
  intro all
  let orders (request : Nat) : List GameRow :=
    if request = 1 then [dominion 0, catan] else [catan, dominion 0]
  have valid : ∀ request, (shelf [catan, dominion 0]).ListsGames (orders request) := by
    intro request
    simp only [orders]
    split
    · exact ⟨.swap .., by decide⟩
    · exact ⟨.refl _, by decide⟩
  obtain ⟨items, gathers, perm⟩ := all (shelf [catan, dominion 0]) 1 orders valid
  have twice : Gathers (fun request => fetchGames .release 1
      (shelf [catan, dominion 0]).countGames (orders request) request) 0
      ([.ofRow catan] ++ ([.ofRow catan] ++ [])) :=
    .more (by decide +kernel) (by simp) (.more (by decide +kernel) (by simp)
      (.ended (by decide +kernel)))
  rw [gathers.unique twice] at perm
  exact absurd perm (by decide +kernel)

theorem paging_visits_once_of_untied :
    ∃ items, Gathers (fun request => fetchGames .release 1
        (shelf [dominion 1, catan]).countGames [catan, dominion 1] request) 0 items ∧
      items.Perm [.ofRow (dominion 1), .ofRow catan] := by
  have separated :
      Separated GameRow.createdAt (sizeOf 1) (shelf [dominion 1, catan]).games := by
    intro number after inside
    have single : sizeOf 1 = 1 := by decide +kernel
    rw [single, show (shelf [dominion 1, catan]).games.length = 2 from rfl] at inside
    obtain rfl : number = 1 := by omega
    decide +kernel
  exact (@paging_visits_once_iff .release 1 (shelf [dominion 1, catan]) (by decide)
    (by decide)).mpr separated (fun _ => [catan, dominion 1])
      fun _ => ⟨.swap .., by decide⟩

end Zyndeck.Api
