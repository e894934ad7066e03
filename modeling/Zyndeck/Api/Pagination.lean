import Zyndeck.Api.User
import Zyndeck.Db.Game

namespace Zyndeck.Api

/-! The pages of lists. -/

/-- What an overflow does: it panics in a debug build, and wraps in a release build. -/
inductive Build where
  | debug
  | release
  deriving DecidableEq

inductive Halt where
  | failed (error : ApiError)
  | panicked
  deriving DecidableEq

namespace Build

/-- An operation on `i64`, given its exact result. -/
def i64 (build : Build) (exact : Int) : Except Halt Int64 :=
  let wrapped := Int64.ofInt exact
  if wrapped.toInt = exact then .ok wrapped
  else
    match build with
    | .debug => .error .panicked
    | .release => .ok wrapped

def sub (build : Build) (first second : Int64) : Except Halt Int64 :=
  build.i64 (first.toInt - second.toInt)

def mul (build : Build) (first second : Int64) : Except Halt Int64 :=
  build.i64 (first.toInt * second.toInt)

end Build

/-- `as usize` on a 64-bit target: the same bits. -/
def asUsize (value : Int64) : Nat := value.toUInt64.toNat

/-- As taken from the query string. -/
structure PaginationQuery where
  page : Int64
  perPage : Int64
  deriving DecidableEq

namespace PaginationQuery

def maxPerPage : Int64 := 100

/-- `page()`. -/
def resolvedPage (query : PaginationQuery) : Int64 := max query.page 1

/-- `per_page()`. -/
def resolvedPerPage (query : PaginationQuery) : Int64 :=
  if query.perPage < 1 then 1 else if maxPerPage < query.perPage then maxPerPage
  else query.perPage

def limit (query : PaginationQuery) : Int64 := query.resolvedPerPage

def offset (build : Build) (query : PaginationQuery) : Except Halt Int64 := do
  build.mul (← build.sub query.resolvedPage 1) query.resolvedPerPage

end PaginationQuery

structure Page (α : Type) where
  items : List α
  page : Int64
  perPage : Int64
  total : Int64
  deriving DecidableEq

/-- `Page::new`. -/
def Page.ofQuery (items : List α) (query : PaginationQuery) (total : Int64) : Page α :=
  ⟨items, query.resolvedPage, query.resolvedPerPage, total⟩

/-- `ApiError::from` on the error of a call. -/
def orHalt (result : Except Error α) : Except Halt α := result.mapError (.failed ∘ .ofDb)

/-- The common part of `list_games` and `list_users`, from the stream of rows on. -/
def paginate (build : Build) (query : PaginationQuery) (total : Int64)
    (stream : List (Except Error α)) (respond : α → β) : Except Halt (Page β) := do
  let offset ← query.offset build
  let items ← ((stream.drop (asUsize offset)).take (asUsize query.limit)).mapM orHalt
  pure (.ofQuery (items.map respond) query total)

structure GameResponse where
  id : Uuid
  name : List (Text × Text)
  createdAt : Timestamp
  creatorId : Uuid
  deriving DecidableEq

def GameResponse.ofGame (game : Game) : GameResponse :=
  ⟨game.id, game.name, game.createdAt, game.createdBy⟩

/-- The fields of a user but the password hash, which a `User` has not. -/
structure UserResponse where
  id : Uuid
  username : Text
  role : Role
  createdAt : Timestamp
  deriving DecidableEq

def UserResponse.ofUser (user : User) : UserResponse :=
  ⟨user.id, user.username, user.role, user.createdAt⟩

/-- `list_games`, given what the repository returns. -/
def listGames (build : Build) (query : PaginationQuery) (count : Except Error Int64)
    (stream : List (Except Error Game)) : Except Halt (Page GameResponse) := do
  paginate build query (← orHalt count) stream .ofGame

/-- `list_users`, given what the repository returns. -/
def listUsers (build : Build) (caller : User) (query : PaginationQuery)
    (count : Except Error Int64) (stream : List (Except Error User)) :
    Except Halt (Page UserResponse) := do
  (requireAdmin caller).mapError .failed
  paginate build query (← orHalt count) stream .ofUser

/-! What a query asks for, in unbounded integers. -/

namespace PaginationQuery

def number (query : PaginationQuery) : Nat := (max query.page.toInt 1).toNat

def size (query : PaginationQuery) : Nat := (max 1 (min query.perPage.toInt 100)).toNat

theorem one_le_number (query : PaginationQuery) : 1 ≤ query.number := by
  unfold number
  omega

theorem size_within (query : PaginationQuery) : 1 ≤ query.size ∧ query.size ≤ 100 := by
  unfold size
  omega

theorem resolvedPage_toInt (query : PaginationQuery) :
    query.resolvedPage.toInt = query.number := by
  unfold resolvedPage number
  by_cases small : query.page ≤ 1
  · have : query.page.toInt ≤ 1 := Int64.le_iff_toInt_le.mp small
    rw [show max query.page 1 = 1 from if_pos small, Int64.toInt_one]
    omega
  · have : ¬ query.page.toInt ≤ 1 := fun le => small (Int64.le_iff_toInt_le.mpr le)
    rw [show max query.page 1 = query.page from if_neg small]
    omega

theorem resolvedPerPage_toInt (query : PaginationQuery) :
    query.resolvedPerPage.toInt = query.size := by
  have low : query.perPage < 1 ↔ query.perPage.toInt < 1 := Int64.lt_iff_toInt_lt
  have high : maxPerPage < query.perPage ↔ 100 < query.perPage.toInt := Int64.lt_iff_toInt_lt
  unfold resolvedPerPage size
  by_cases small : query.perPage.toInt < 1
  · rw [if_pos (low.mpr small), Int64.toInt_one]
    omega
  · rw [if_neg (small ∘ low.mp)]
    by_cases large : 100 < query.perPage.toInt
    · rw [if_pos (high.mpr large), show maxPerPage.toInt = 100 from rfl]
      omega
    · rw [if_neg (large ∘ high.mp)]
      omega

end PaginationQuery

theorem Build.i64_of_fits (build : Build) {exact : Int} (above : -2 ^ 63 ≤ exact)
    (below : exact < 2 ^ 63) : build.i64 exact = .ok (.ofInt exact) ∧
      (Int64.ofInt exact).toInt = exact := by
  have same := Int64.toInt_ofInt_of_le above below
  exact ⟨if_pos same, same⟩

theorem asUsize_eq {value : Int64} {exact : Nat} (same : value.toInt = exact) :
    asUsize value = exact := by
  have nonneg : 0 ≤ value := by
    rw [Int64.le_iff_toInt_le, same, Int64.toInt_zero]
    exact Int.natCast_nonneg exact
  rw [asUsize, Int64.toNat_toUInt64_of_le nonneg, Int64.toNatClampNeg, same, Int.toNat_natCast]

theorem collect_ok (rows : List α) :
    (rows.map Except.ok : List (Except Error α)).mapM orHalt = .ok rows := by
  induction rows with
  | nil => rfl
  | cons row rest induction =>
      rw [List.map_cons, List.mapM_cons, induction]
      rfl

def PaginationQuery.Exact (build : Build) (query : PaginationQuery) : Prop :=
  ∃ offset, query.offset build = .ok offset ∧
    offset.toInt = ((query.number - 1) * query.size : Nat)

def Sliced (query : PaginationQuery) (rows : List α) (outcome : Except Halt (Page α)) : Prop :=
  ∃ page, outcome = .ok page ∧
    page.items = (rows.drop ((query.number - 1) * query.size)).take query.size ∧
    page.page.toInt = query.number ∧ page.perPage.toInt = query.size

theorem PaginationQuery.exact_iff (build : Build) (query : PaginationQuery) :
    query.Exact build ↔ (query.number - 1) * query.size < 2 ^ 63 := by
  constructor
  · rintro ⟨offset, _, exact⟩
    have := offset.toInt_lt
    omega
  · intro fits
    have large := query.one_le_number
    have below := query.resolvedPage.toInt_lt
    have first := query.resolvedPage_toInt
    have one : Int64.toInt 1 = 1 := rfl
    obtain ⟨skipped, difference⟩ := build.i64_of_fits
      (show -2 ^ 63 ≤ query.resolvedPage.toInt - Int64.toInt 1 by omega)
      (show query.resolvedPage.toInt - Int64.toInt 1 < 2 ^ 63 by omega)
    have product : (Int64.ofInt (query.resolvedPage.toInt - Int64.toInt 1)).toInt *
        query.resolvedPerPage.toInt = ((query.number - 1) * query.size : Nat) := by
      rw [difference, resolvedPerPage_toInt, first, one, Int.natCast_mul, Int.natCast_sub large]
      rfl
    obtain ⟨multiplied, same⟩ := build.i64_of_fits
      (show -2 ^ 63 ≤ _ * query.resolvedPerPage.toInt by rw [product]; omega)
      (by rw [product]; exact_mod_cast fits)
    refine ⟨_, ?_, same.trans product⟩
    rw [offset, Build.sub, skipped]
    exact multiplied

theorem paginate_sliced {build : Build} {query : PaginationQuery} (exact : query.Exact build)
    (total : Int64) (rows : List α) (respond : α → β) :
    Sliced query (rows.map respond) (paginate build query total (rows.map .ok) respond) := by
  obtain ⟨offset, found, skips⟩ := exact
  have drop : asUsize offset = (query.number - 1) * query.size := asUsize_eq skips
  have take : asUsize query.limit = query.size := asUsize_eq query.resolvedPerPage_toInt
  refine ⟨.ofQuery (((rows.drop ((query.number - 1) * query.size)).take query.size).map respond)
    query total, ?_, ?_, query.resolvedPage_toInt, query.resolvedPerPage_toInt⟩
  · rw [paginate, found]
    simp only [Bind.bind, Except.bind, drop, take, ← List.map_drop, ← List.map_take, collect_ok]
    rfl
  · rw [← List.map_drop, ← List.map_take]
    rfl

/-- The lists return the page that is asked for, unless the rows before it are too many
to be counted. -/
theorem pages_sliced_iff (build : Build) (query : PaginationQuery) :
    (query.Exact build ∧
      (∀ (total : Int64) (games : List Game), Sliced query (games.map .ofGame)
        (listGames build query (.ok total) (games.map .ok))) ∧
      ∀ (caller : User) (total : Int64) (users : List User), caller.role.isAdmin = true →
        Sliced query (users.map .ofUser) (listUsers build caller query (.ok total)
          (users.map .ok))) ↔
      (query.number - 1) * query.size < 2 ^ 63 := by
  rw [← query.exact_iff build]
  refine ⟨And.left, fun exact => ⟨exact, fun total games => ?_, fun caller total users admin => ?_⟩⟩
  · exact paginate_sliced exact total games GameResponse.ofGame
  · rw [listUsers, requireAdmin, if_pos admin]
    exact paginate_sliced exact total users UserResponse.ofUser

/-- The page after 2⁶² pages of four: its offset is 2⁶⁴. -/
def farPage : PaginationQuery := ⟨4611686018427387905, 4⟩

def onlyGame : Game := ⟨⟨1⟩, [("en".toList, "Dominion".toList)], 0, ⟨2⟩⟩

/-- A release build returns the first page, and a debug build panics. -/
theorem farPage_is_first :
    listGames .release farPage (.ok 1) [.ok onlyGame] =
        .ok ⟨[.ofGame onlyGame], 4611686018427387905, 4, 1⟩ ∧
      listGames .debug farPage (.ok 1) [.ok onlyGame] = .error .panicked ∧
      ¬ (farPage.Exact .release ∧
        ∀ (total : Int64) (games : List Game), Sliced farPage (games.map .ofGame)
          (listGames .release farPage (.ok total) (games.map .ok))) := by
  have first : listGames .release farPage (.ok 1) [.ok onlyGame] =
      .ok ⟨[.ofGame onlyGame], 4611686018427387905, 4, 1⟩ := by decide +kernel
  refine ⟨first, by decide +kernel, fun ⟨_, sliced⟩ => ?_⟩
  obtain ⟨page, returned, items, _⟩ := sliced 1 [onlyGame]
  obtain rfl := Except.ok.inj (first.symm.trans returned)
  exact absurd items (by decide +kernel)

end Zyndeck.Api
