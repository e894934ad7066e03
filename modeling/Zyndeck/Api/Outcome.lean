import Zyndeck.Api.Entitlement
import Zyndeck.Data.Commits
import Zyndeck.Db.Constraints

namespace Zyndeck

open Data

/-! What the calls report of the tables they leave. -/

namespace Db

open Program

variable {db : Db}

theorem createUser_reports (draw : Draw) (new : NewUser) (db : Db) :
    Reports (fun _ => False) (fun user after => ∃ row ∈ after.users, row.toUser = user ∧
      row.username = new.username ∧ row.passwordHash = new.passwordHash ∧ row.role = new.role) db
      (db.createUser draw new) := by
  simp only [createUser]
  split
  · exact .fault _
  · split
    · exact .fault _
    · rw [UserRow.tryInto_eq]
      exact .told ⟨_, List.mem_append_right _ (List.mem_singleton.mpr rfl), rfl, rfl, rfl, rfl⟩

theorem updateUser_reports (id : Uuid) (changes : UserUpdate) (db : Db) :
    Reports (· = none) (fun found after => ∃ row ∈ after.users, some row.toUser = found ∧
      row.id = id ∧ row.username = changes.username ∧ row.role = changes.role) db
      (db.updateUser id changes) := by
  simp only [updateUser]
  split
  · exact .fault _
  · cases changed : (returning (·.id = id) (·.change changes) db.users).head? with
    | none => exact .silent rfl
    | some row =>
        dsimp only
        split
        · exact .fault _
        · obtain ⟨old, stored, rfl⟩ := List.mem_map.mp (List.mem_of_mem_head? changed)
          obtain ⟨member, isTarget⟩ := List.mem_filter.mp stored
          rw [UserRow.tryInto_eq]
          exact .told ⟨_, mem_updateWhere.mpr (.inl ⟨old, member, isTarget, rfl⟩), rfl,
            of_decide_eq_true isTarget, rfl, rfl⟩

theorem deleteUser_reports (id : Uuid) (db : Db) :
    Reports (· = false) (fun removed after => removed = true ∧ ∀ row ∈ after.users, row.id ≠ id) db
      (db.deleteUser id) := by
  simp only [deleteUser]
  split
  · exact .silent rfl
  · split
    · exact .fault _
    · exact .told ⟨rfl, fun row member => of_decide_eq_true (List.mem_filter.mp member).2⟩

theorem createGame_reports (draw : GameDraw) (new : NewGame) (db : Db) :
    Reports (fun _ => False)
      (fun game after => ∃ row ∈ after.games, row.toGame = game ∧ row.name = new.name) db
      (db.createGame draw new) := by
  simp only [createGame]
  split
  · exact .fault _
  · split
    · exact .fault _
    · split
      · exact .fault _
      · exact .told ⟨_, List.mem_append_right _ (List.mem_singleton.mpr rfl), rfl, rfl⟩

theorem updateGame_reports (id : Uuid) (changes : GameUpdate) (db : Db) :
    Reports (· = none) (fun found after => ∃ row ∈ after.games, some row.toGame = found ∧
      row.id = id ∧ row.name = changes.name) db (db.updateGame id changes) := by
  simp only [updateGame]
  split
  · exact .fault _
  · cases changed : (returning (·.id = id)
        (fun row : GameRow => { row with name := changes.name }) db.games).head? with
    | none =>
        have unmatched := List.filter_eq_nil_iff.mp
          (List.map_eq_nil_iff.mp (List.head?_eq_none_iff.mp changed))
        rw [updateWhere_eq_self fun row member => eq_false_of_ne_true (unmatched row member)]
        exact .silent rfl
    | some row =>
        obtain ⟨old, stored, rfl⟩ := List.mem_map.mp (List.mem_of_mem_head? changed)
        obtain ⟨member, isTarget⟩ := List.mem_filter.mp stored
        exact .told ⟨_, mem_updateWhere.mpr (.inl ⟨old, member, isTarget, rfl⟩), rfl,
          of_decide_eq_true isTarget, rfl⟩

theorem deleteGame_of_missing (constraints : db.Constraints) {id : Uuid}
    (missing : db.games.any (·.id = id) = false) : (db.deleteGame id).2 = db := by
  have unlisted : ∀ row ∈ db.games, row.id ≠ id := by simpa using missing
  have unplayed : ∀ job ∈ db.jobs, job.gameId ≠ id := by
    intro job member same
    obtain ⟨row, stored, isGame⟩ := List.mem_map.mp (constraints.references.jobs job member)
    exact unlisted row stored (isGame.trans same)
  have games : db.games.filter (·.id ≠ id) = db.games :=
    List.filter_eq_self.mpr fun row member => decide_eq_true (unlisted row member)
  have jobs : db.jobs.filter (·.gameId ≠ id) = db.jobs :=
    List.filter_eq_self.mpr fun job member => decide_eq_true (unplayed job member)
  have none : db.jobs.filter (·.gameId = id) = [] :=
    List.filter_eq_nil_iff.mpr fun job member same => unplayed job member (of_decide_eq_true same)
  simp only [deleteGame, games, jobs, none]
  simp

theorem deleteGame_reports (constraints : db.Constraints) (id : Uuid) :
    Reports (· = false) (fun removed after => removed = true ∧ ∀ row ∈ after.games, row.id ≠ id) db
      (db.deleteGame id) := by
  have replies : (db.deleteGame id).1 = .ok (db.games.any (·.id = id)) := rfl
  rw [← Prod.mk.eta (p := db.deleteGame id), replies]
  cases found : db.games.any (·.id = id) with
  | true => exact .told ⟨rfl, fun row member => of_decide_eq_true (List.mem_filter.mp member).2⟩
  | false =>
      rw [deleteGame_of_missing constraints found]
      exact .silent rfl

end Db

namespace Api

/-! What the answers tell of the tables. -/

def Action.Tells (db : Db) : Action → Response → Prop
  | .create body hashed, .created user => ∃ row ∈ db.users, row.toUser = user ∧
      row.username = body.username ∧ some row.passwordHash = hashed ∧ row.role = body.role
  | .update target body, .ok user => ∃ row ∈ db.users, row.toUser = user ∧ row.id = target ∧
      row.username = body.username ∧ row.role = body.role
  | .delete target, .noContent => ∀ row ∈ db.users, row.id ≠ target
  | _, _ => False

/-- What the answer to a request says is stored, or not any more, is so. -/
def HttpRequest.Tells (state : AppState) (request : HttpRequest) (answer : Answer) (db : Db) :
    Prop :=
  match answer with
  | .loggedIn token => ∃ body, request.route = .login (.ok body) ∧ ∃ row ∈ db.users,
      row.username = body.username ∧ state.verifyPassword body.password row.passwordHash = true ∧
        state.issueToken row.id = some token
  | .games page => ∀ item ∈ page.items, ∃ row ∈ db.games, item = .ofGame row.toGame
  | .createdGame game => ∃ body, request.route = .createGame (.ok body) ∧ ∃ row ∈ db.games,
      game = .ofGame row.toGame ∧ row.name = body.name
  | .game game => ∃ row ∈ db.games, game = .ofGame row.toGame ∧
      (request.route = .getGame (.ok row.id) ∨
        ∃ body, request.route = .updateGame (.ok row.id) (.ok body) ∧ row.name = body.name)
  | .deletedGame => ∃ id, request.route = .deleteGame (.ok id) ∧ ∀ row ∈ db.games, row.id ≠ id
  | .users page => ∀ item ∈ page.items, ∃ row ∈ db.users, item = .ofUser row.toUser
  | .user response =>
      (∃ action, request.route.action? state = some action ∧ action.Tells db response) ∨
        ∃ row ∈ db.users, request.route = .getUser (.ok row.id) ∧ response = .ok row.toUser

/-! What the handlers and the endpoints commit. -/

abbrev execUser (draw : RepositoryDraw) (call : UserCall) (db : Db) :
    Except Error call.Reply × Db := call.exec draw.user db

theorem commits_createUser (validator : Validator) (caller : User) (body : CreateUserRequest)
    (hashed : Option Text) :
    (createUser validator caller body hashed).Commits execUser Db.Constraints
      fun response db => (Action.create body hashed).Tells db response := by
  refine .quiet fun _ _ => .quiet fun _ _ => ?_
  cases hashed with
  | none => exact .refused
  | some passwordHash =>
      refine .last (fun draw db _ => db.createUser_reports draw.user _) (fun _ none => none.elim) ?_
      rintro user db ⟨row, stored, isUser, username, hash, role⟩
      exact ⟨_, rfl, row, stored, isUser, username, congrArg some hash, role⟩

theorem commits_updateUser (validator : Validator) (caller : User) (target : Uuid)
    (body : UpdateUserRequest) :
    (updateUser validator caller target body).Commits execUser Db.Constraints
      fun response db => (Action.update target body).Tells db response := by
  refine .quiet fun _ _ => .quiet fun _ _ => .last (fun _ db _ => db.updateUser_reports ..) ?_ ?_
  · rintro _ rfl
    exact ⟨_, rfl⟩
  · rintro _ db ⟨row, stored, rfl, isTarget, username, role⟩
    exact ⟨_, rfl, row, stored, rfl, isTarget, username, role⟩

theorem commits_deleteUser (caller : User) (target : Uuid) :
    (deleteUser caller target).Commits execUser Db.Constraints
      fun response db => (Action.delete target).Tells db response := by
  refine .quiet fun _ _ => .reads (fun _ _ => rfl) fun found => ?_
  change (removeUser caller target found).Commits _ _ _
  rcases removeUser_cases caller target found with ⟨_, refused⟩ | ⟨_, _, _, removal⟩
  · rw [refused]
    exact .refused
  · rw [removal]
    refine .last (fun _ db _ => db.deleteUser_reports ..) ?_ ?_
    · rintro _ rfl
      exact ⟨_, rfl⟩
    · rintro _ db ⟨rfl, gone⟩
      exact ⟨_, rfl, gone⟩

theorem commits_respond (validator : Validator) (caller : User) (action : Action) :
    (respond validator caller action).Commits execUser Db.Constraints
      fun response db => action.Tells db response := by
  cases action with
  | create body hashed => exact commits_createUser validator caller body hashed
  | update target body => exact commits_updateUser validator caller target body
  | delete target => exact commits_deleteUser caller target

namespace Endpoint

variable {state : AppState} {request : HttpRequest}

abbrev Commits (state : AppState) (request : HttpRequest) (endpoint : Endpoint Answer) : Prop :=
  Program.Commits RepositoryCall.exec Db.Constraints (request.Tells state) endpoint

theorem commits_changeUsers (caller : User) {action : Action}
    (isAction : request.route.action? state = some action) :
    (changeUsers state caller action).Commits state request := by
  have tells : ∀ response db, action.Tells db response →
      request.Tells state (.user response) db :=
    fun response db told => .inl ⟨action, isAction, told⟩
  have commits := (commits_respond state.validator caller action).mono tells
  have same : ∀ (draw : RepositoryDraw) (call : UserCall) (db : Db), execUser draw call db =
      (((RepositoryCall.user call).exec draw db).1.map fun reply => reply,
        ((RepositoryCall.user call).exec draw db).2) := by
    intro draw call db
    simp only [RepositoryCall.exec, execUser]
    rcases call.exec draw.user db with ⟨_ | reply, after⟩ <;> rfl
  have embedded : Program.Commits RepositoryCall.exec Db.Constraints
      (fun response => request.Tells state (.user response))
      (ofHandler (respond state.validator caller action)) :=
    commits.embed same
  exact embedded.map

theorem commits_authUser {rest : User → Endpoint Answer}
    (commits : ∀ caller, (rest caller).Commits state request) :
    (authUser state request >>= rest).Commits state request := by
  cases named : state.subject? request with
  | none =>
      rw [authUser, named]
      exact .refused
  | some subject =>
      rw [authUser, named]
      refine .reads (fun _ _ => rfl) fun found => ?_
      cases found with
      | none => exact .refused
      | some caller => exact commits caller

theorem commits_extract {part : Except Rejection β} {next : β → Endpoint Answer}
    (rest : ∀ value, part = .ok value → (next value).Commits state request) :
    (extract part >>= next).Commits state request := by
  cases part with
  | ok value => exact rest value rfl
  | error => exact .refused

theorem mem_of_mapM {check : α → Except ε β} {items : List α} {checked : List β}
    (passed : items.mapM check = .ok checked) :
    ∀ value ∈ checked, ∃ item ∈ items, check item = .ok value := by
  induction items generalizing checked with
  | nil =>
      obtain rfl := Except.ok.inj passed
      exact fun _ none => by contradiction
  | cons item items induction =>
      rw [List.mapM_cons] at passed
      cases first : check item with
      | error failure =>
          rw [first] at passed
          contradiction
      | ok value =>
          cases others : items.mapM check with
          | error failure =>
              rw [first, others] at passed
              contradiction
          | ok rest =>
              rw [first, others] at passed
              obtain rfl := Except.ok.inj passed
              intro other member
              rcases List.mem_cons.mp member with rfl | later
              · exact ⟨item, List.mem_cons_self .., first⟩
              · obtain ⟨item, stored, passes⟩ := induction others other later
                exact ⟨item, List.mem_cons_of_mem _ stored, passes⟩

theorem mem_items {build : Build} {query : PaginationQuery} {total : Int64}
    {stream : List (Except Error α)} {respond : α → β} {page : Page β}
    (paged : paginate build query total stream respond = .ok page) :
    ∀ item ∈ page.items, ∃ value, .ok value ∈ stream ∧ item = respond value := by
  intro item member
  unfold paginate at paged
  cases skipped : query.offset build with
  | error halt =>
      rw [skipped] at paged
      contradiction
  | ok offset =>
      rw [skipped] at paged
      replace paged : (do
        let items ← ((stream.drop (asUsize offset)).take (asUsize query.limit)).mapM orHalt
        pure (Page.ofQuery (items.map respond) query total)) = .ok page := paged
      cases read : ((stream.drop (asUsize offset)).take (asUsize query.limit)).mapM orHalt with
      | error halt =>
          rw [read] at paged
          contradiction
      | ok items =>
          rw [read] at paged
          obtain rfl := Except.ok.inj paged
          obtain ⟨value, kept, rfl⟩ := List.mem_map.mp member
          obtain ⟨result, streamed, passes⟩ := mem_of_mapM read value kept
          cases result with
          | error fault => contradiction
          | ok value =>
              obtain rfl := Except.ok.inj passes
              exact ⟨value, List.mem_of_mem_drop (List.mem_of_mem_take streamed), rfl⟩

theorem page_ends (query : PaginationQuery) (total : Int64) {rows table : List ρ} {read : ρ → α}
    {decode : ρ → Except Error α} (decodes : ∀ row, decode row = .ok (read row))
    (stored : ∀ row ∈ rows, row ∈ table) {respond : α → β} {answer : Page β → Answer}
    {tells : Answer → Prop}
    (told : ∀ page : Page β, (∀ item ∈ page.items, ∃ row ∈ table, item = respond (read row)) →
      tells (answer page))
    {ended : Endpoint Answer}
    (ends : ended = (do
      let page ← .done
        ((paginate state.build query total (rows.map decode) respond).mapError .halted)
      pure (answer page))) :
    (∃ failure, ended = .done (.error failure)) ∨
      ∃ found, ended = .done (.ok found) ∧ tells found := by
  subst ends
  cases paged : paginate state.build query total (rows.map decode) respond with
  | error halt => exact .inl ⟨.halted halt, rfl⟩
  | ok page =>
      refine .inr ⟨_, rfl, told page fun item member => ?_⟩
      obtain ⟨value, streamed, rfl⟩ := mem_items paged item member
      obtain ⟨row, listed, same⟩ := List.mem_map.mp streamed
      obtain rfl := Except.ok.inj ((decodes row).symm.trans same)
      exact ⟨row, stored row listed, rfl⟩

theorem commits_listGames (query : PaginationQuery) :
    (listGames state query).Commits state request := by
  refine .reads (fun _ _ => rfl) fun total => .reads_last (fun _ _ => rfl) ?_
  rintro draw db _ ⟨⟩
  have listed := (db.listsGames draw.game.tie).1
  exact page_ends query total (fun _ => rfl) (fun _ => listed.mem_iff.mp) (fun _ rows => rows) rfl

theorem commits_listUsers (caller : User) (query : PaginationQuery) :
    (listUsers state caller query).Commits state request := by
  refine .quiet fun _ _ => .reads (fun _ _ => rfl) fun total =>
    .reads_last (fun _ _ => rfl) ?_
  rintro draw db _ ⟨⟩
  exact page_ends query total UserRow.tryInto_eq (fun _ => List.mem_mergeSort.mp)
    (fun _ rows => rows) rfl

theorem commits_login {body : LoginRequest} (route : request.route = .login (.ok body)) :
    (login state body).Commits state request := by
  refine .quiet fun _ _ => .reads_last (fun _ _ => rfl) fun draw db found read => ?_
  change (∃ failure, answerLogin state body found = .done (.error failure)) ∨
    ∃ answer, answerLogin state body found = .done (.ok answer) ∧ request.Tells state answer db
  cases found with
  | none => exact .inl ⟨_, rfl⟩
  | some credentials =>
      have known : db.credentials? body.username = some credentials := by
        simp only [RepositoryCall.exec, Db.findCredentials] at read
        split at read
        · contradiction
        · exact Except.ok.inj read
      obtain ⟨row, stored, rfl⟩ := Option.map_eq_some_iff.mp known
      have ends : answerLogin state body (some ⟨row.id, row.passwordHash⟩) = (do
          check (if state.verifyPassword body.password row.passwordHash then .ok ()
            else .error .unauthorized)
          let accessToken ← okOr .internal (state.issueToken row.id)
          pure (.loggedIn accessToken)) := rfl
      cases verified : state.verifyPassword body.password row.passwordHash with
      | false =>
          rw [verified] at ends
          exact .inl ⟨_, ends⟩
      | true =>
          cases issued : state.issueToken row.id with
          | none =>
              rw [verified, issued] at ends
              exact .inl ⟨_, ends⟩
          | some token =>
              rw [verified, issued] at ends
              exact .inr ⟨.loggedIn token, ends, body, route, row, List.mem_of_find?_eq_some stored,
                by simpa using List.find?_some stored, verified, issued⟩

theorem commits_getGame {id : Uuid} (route : request.route = .getGame (.ok id)) :
    (getGame id).Commits state request := by
  refine .reads_last (fun _ _ => rfl) fun draw db found read => ?_
  obtain rfl := Except.ok.inj read
  cases known : db.game? id with
  | none => exact .inl ⟨_, rfl⟩
  | some row =>
      have isGame : row.id = id := by simpa using List.find?_some known
      exact .inr ⟨_, rfl, row, List.mem_of_find?_eq_some known, rfl, .inl (isGame ▸ route)⟩

theorem commits_getUser (caller : User) {id : Uuid} (route : request.route = .getUser (.ok id)) :
    (getUser caller id).Commits state request := by
  refine .quiet fun _ _ => .reads_last (fun _ _ => rfl) fun draw db found read => ?_
  have found := (Except.ok.inj ((db.findUser_eq id).symm.trans read)).symm
  subst found
  cases known : db.user? id with
  | none => exact .inl ⟨_, rfl⟩
  | some row =>
      have isUser : row.id = id := by simpa using List.find?_some known
      exact .inr ⟨_, rfl, .inr ⟨row, List.mem_of_find?_eq_some known, isUser ▸ route, rfl⟩⟩

theorem commits_createGame (caller : User) {body : CreateGameRequest}
    (route : request.route = .createGame (.ok body)) :
    (createGame state caller body).Commits state request := by
  refine .quiet fun _ _ => .quiet fun _ _ =>
    .last (fun draw db _ => db.createGame_reports draw.game _) (fun _ none => none.elim) ?_
  rintro _ db ⟨row, stored, rfl, name⟩
  exact ⟨_, rfl, body, route, row, stored, rfl, name⟩

theorem commits_updateGame (caller : User) {id : Uuid} {body : UpdateGameRequest}
    (route : request.route = .updateGame (.ok id) (.ok body)) :
    (updateGame state caller id body).Commits state request := by
  refine .quiet fun _ _ => .quiet fun _ _ => .last (fun _ db _ => db.updateGame_reports ..) ?_ ?_
  · rintro _ rfl
    exact ⟨_, rfl⟩
  · rintro _ db ⟨row, stored, rfl, rfl, name⟩
    exact ⟨_, rfl, row, stored, rfl, .inr ⟨body, route, name⟩⟩

theorem commits_deleteGame (caller : User) {id : Uuid}
    (route : request.route = .deleteGame (.ok id)) :
    (deleteGame caller id).Commits state request := by
  refine .quiet fun _ _ => .last (fun _ db constraints => Db.deleteGame_reports constraints _) ?_ ?_
  · rintro _ rfl
    exact ⟨_, rfl⟩
  · rintro _ db ⟨rfl, gone⟩
    exact ⟨_, rfl, id, route, gone⟩

/-- Every endpoint changes the tables with its last call, if at all, and as it tells. -/
theorem commits_handle (state : AppState) (request : HttpRequest) :
    (handle state request).Commits state request := by
  obtain ⟨authorization, route⟩ := request
  cases route with
  | login body => exact commits_extract fun body isBody => commits_login (isBody ▸ rfl)
  | listGames query => exact commits_extract fun query _ => commits_listGames query
  | getGame path => exact commits_extract fun id isPath => commits_getGame (isPath ▸ rfl)
  | createGame body =>
      exact commits_authUser fun caller => commits_extract fun body isBody =>
        commits_createGame caller (isBody ▸ rfl)
  | updateGame path body =>
      refine commits_authUser fun caller => commits_extract fun id isPath =>
        commits_extract fun body isBody => ?_
      subst isPath isBody
      exact commits_updateGame caller rfl
  | deleteGame path =>
      exact commits_authUser fun caller => commits_extract fun id isPath =>
        commits_deleteGame caller (isPath ▸ rfl)
  | listUsers query =>
      exact commits_authUser fun caller => commits_extract fun query _ =>
        commits_listUsers caller query
  | createUser body =>
      refine commits_authUser fun caller => commits_extract fun body isBody => ?_
      subst isBody
      exact commits_changeUsers caller rfl
  | getUser path =>
      exact commits_authUser fun caller => commits_extract fun id isPath =>
        commits_getUser caller (isPath ▸ rfl)
  | updateUser path body =>
      refine commits_authUser fun caller => commits_extract fun id isPath =>
        commits_extract fun body isBody => ?_
      subst isPath isBody
      exact commits_changeUsers caller rfl
  | deleteUser path =>
      refine commits_authUser fun caller => commits_extract fun id isPath => ?_
      subst isPath
      exact commits_changeUsers caller rfl

end Endpoint

end Api

end Zyndeck
