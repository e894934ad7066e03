import Zyndeck.Api.Pagination
import Zyndeck.Core.Str
import Zyndeck.Data.Coupling
import Zyndeck.Db.Repository

namespace Zyndeck.Api

open Data

/-! The documented endpoints, from the request to the response. -/

structure Rejection where
  status : Nat
  body : Text
  deriving DecidableEq

inductive Refusal where
  | rejected (rejection : Rejection)
  | halted (halt : Halt)
  deriving DecidableEq

structure LoginRequest where
  username : Text
  password : Text

structure CreateGameRequest where
  name : List (Text × Text)

structure UpdateGameRequest where
  name : List (Text × Text)

def LoginRequest.validate (validator : Validator) (body : LoginRequest) : Except ApiError Unit :=
  validator.check (validator.length "username" (some 1) none body.username ++
    validator.length "password" (some 1) none body.password)

/-- `validate_name`, of the field `name`. -/
def validateName (name : List (Text × Text)) : List FieldError :=
  if name.isEmpty then [.custom "name" "empty_localized_name"] else []

def CreateGameRequest.validate (validator : Validator) (body : CreateGameRequest) :
    Except ApiError Unit :=
  validator.check (validateName body.name)

def UpdateGameRequest.validate (validator : Validator) (body : UpdateGameRequest) :
    Except ApiError Unit :=
  validator.check (validateName body.name)

/-- An endpoint, with what its extractors make of path, query and body. -/
inductive Route where
  | login (body : Except Rejection LoginRequest)
  | listGames (query : Except Rejection PaginationQuery)
  | createGame (body : Except Rejection CreateGameRequest)
  | getGame (path : Except Rejection Uuid)
  | updateGame (path : Except Rejection Uuid) (body : Except Rejection UpdateGameRequest)
  | deleteGame (path : Except Rejection Uuid)
  | listUsers (query : Except Rejection PaginationQuery)
  | createUser (body : Except Rejection CreateUserRequest)
  | getUser (path : Except Rejection Uuid)
  | updateUser (path : Except Rejection Uuid) (body : Except Rejection UpdateUserRequest)
  | deleteUser (path : Except Rejection Uuid)

/-- A request, with its `Authorization` header where that is text. -/
structure HttpRequest where
  authorization : Option Text
  route : Route

/-- The state of the application but for the repositories, as what is done with it:
`decode` verifies a token and has its subject. -/
structure AppState where
  build : Build
  validator : Validator
  decode : Text → Option Text
  parseUuid : Text → Option Uuid
  hashPassword : Text → Option Text
  verifyPassword : Text → Text → Bool
  issueToken : Uuid → Option Text

inductive Answer where
  | loggedIn (accessToken : Text)
  | games (page : Page GameResponse)
  | createdGame (game : GameResponse)
  | game (game : GameResponse)
  | deletedGame
  | users (page : Page UserResponse)
  | user (response : Response)

abbrev Endpoint (α : Type) := Program RepositoryCall.Reply Error Refusal α

namespace Endpoint

def fail (error : ApiError) : Refusal := .halted (.failed error)

def check (result : Except ApiError α) : Endpoint α := .done (result.mapError fail)

def extract (part : Except Rejection α) : Endpoint α := .done (part.mapError .rejected)

def call (issued : RepositoryCall) : Endpoint issued.Reply := .statement issued (fail ∘ .ofDb)

def okOr (error : ApiError) : Option α → Endpoint α
  | some value => pure value
  | none => .throw (fail error)

def ofHandler (handler : Handler α) : Endpoint α := handler.embed .user (fun _ reply => reply) fail

end Endpoint

def AppState.subject? (state : AppState) (request : HttpRequest) : Option Uuid := do
  let header ← request.authorization
  let token ← Str.stripPrefix "Bearer ".toList header
  let subject ← state.decode token
  state.parseUuid subject

namespace Endpoint

/-- `AuthUser::from_request_parts`. -/
def authUser (state : AppState) (request : HttpRequest) : Endpoint User := do
  let subject ← okOr .unauthorized (state.subject? request)
  ofHandler (Api.authUser subject)

def login (state : AppState) (body : LoginRequest) : Endpoint Answer := do
  check (body.validate state.validator)
  let found ← call (.findCredentialsByUsername body.username)
  let credentials ← okOr .unauthorized found
  check (if state.verifyPassword body.password credentials.passwordHash then .ok ()
    else .error .unauthorized)
  let accessToken ← okOr .internal (state.issueToken credentials.id)
  pure (.loggedIn accessToken)

def listGames (state : AppState) (query : PaginationQuery) : Endpoint Answer := do
  let total ← call .countGames
  let stream ← call .listGames
  let page ← .done ((paginate state.build query total stream .ofGame).mapError .halted)
  pure (.games page)

def getGame (id : Uuid) : Endpoint Answer := do
  let found ← call (.findGame id)
  let game ← okOr .notFound found
  pure (.game (.ofGame game))

def createGame (state : AppState) (caller : User) (body : CreateGameRequest) :
    Endpoint Answer := do
  check (requireAdmin caller)
  check (body.validate state.validator)
  let game ← call (.createGame ⟨body.name, caller.id⟩)
  pure (.createdGame (.ofGame game))

def updateGame (state : AppState) (caller : User) (id : Uuid) (body : UpdateGameRequest) :
    Endpoint Answer := do
  check (requireAdmin caller)
  check (body.validate state.validator)
  let found ← call (.updateGame id ⟨body.name⟩)
  let game ← okOr .notFound found
  pure (.game (.ofGame game))

def deleteGame (caller : User) (id : Uuid) : Endpoint Answer := do
  check (requireAdmin caller)
  let removed ← call (.deleteGame id)
  check (if removed then .ok () else .error .notFound)
  pure .deletedGame

def listUsers (state : AppState) (caller : User) (query : PaginationQuery) : Endpoint Answer := do
  check (requireAdmin caller)
  let total ← call .countUsers
  let stream ← call .listUsers
  let page ← .done ((paginate state.build query total stream .ofUser).mapError .halted)
  pure (.users page)

def getUser (caller : User) (id : Uuid) : Endpoint Answer := do
  check (if !caller.role.isAdmin && caller.id != id then .error .forbidden else .ok ())
  let found ← call (.user (.findById id))
  let user ← okOr .notFound found
  pure (.user (.ok user))

def changeUsers (state : AppState) (caller : User) (action : Action) : Endpoint Answer := do
  let response ← ofHandler (respond state.validator caller action)
  pure (.user response)

/-- The extractors of a route run in the order of its handler's parameters. -/
def handle (state : AppState) (request : HttpRequest) : Endpoint Answer :=
  match request.route with
  | .login body => do
      login state (← extract body)
  | .listGames query => do
      listGames state (← extract query)
  | .createGame body => do
      let caller ← authUser state request
      createGame state caller (← extract body)
  | .getGame path => do
      getGame (← extract path)
  | .updateGame path body => do
      let caller ← authUser state request
      let id ← extract path
      updateGame state caller id (← extract body)
  | .deleteGame path => do
      let caller ← authUser state request
      deleteGame caller (← extract path)
  | .listUsers query => do
      let caller ← authUser state request
      listUsers state caller (← extract query)
  | .createUser body => do
      let caller ← authUser state request
      let body ← extract body
      changeUsers state caller (.create body (state.hashPassword body.password))
  | .getUser path => do
      let caller ← authUser state request
      getUser caller (← extract path)
  | .updateUser path body => do
      let caller ← authUser state request
      let id ← extract path
      changeUsers state caller (.update id (← extract body))
  | .deleteUser path => do
      let caller ← authUser state request
      changeUsers state caller (.delete (← extract path))

end Endpoint

/-! The response. -/

inductive Message where
  | fixed (text : String)
  /-- `username {name:?} is already taken`. -/
  | taken (username : Text)
  /-- The validation errors, displayed. -/
  | invalid (text : Text)
  deriving DecidableEq

inductive Body where
  | empty
  | text (text : Text)
  | message (message : Message)
  | accessToken (accessToken : Text)
  | game (game : GameResponse)
  | games (page : Page GameResponse)
  | user (user : UserResponse)
  | users (page : Page UserResponse)
  deriving DecidableEq

structure HttpResponse where
  status : Nat
  body : Body
  deriving DecidableEq

def ApiError.parts : ApiError → Nat × Message
  | .unauthorized => (401, .fixed "authentication required")
  | .forbidden => (403, .fixed "you are not allowed to perform this action")
  | .notFound => (404, .fixed "resource not found")
  | .conflict username => (409, .taken username)
  | .validation message => (422, .invalid message)
  | .internal => (500, .fixed "internal server error")

def Answer.intoResponse : Answer → HttpResponse
  | .loggedIn accessToken => ⟨200, .accessToken accessToken⟩
  | .games page => ⟨200, .games page⟩
  | .createdGame created => ⟨201, .game created⟩
  | .game found => ⟨200, .game found⟩
  | .deletedGame => ⟨204, .empty⟩
  | .users page => ⟨200, .users page⟩
  | .user (.created added) => ⟨201, .user (.ofUser added)⟩
  | .user (.ok found) => ⟨200, .user (.ofUser found)⟩
  | .user .noContent => ⟨204, .empty⟩

/-- A handler that panics leaves its request without a response. -/
def intoResponse : Except Refusal Answer → Option HttpResponse
  | .ok answer => some answer.intoResponse
  | .error (.rejected rejection) => some ⟨rejection.status, .text rejection.body⟩
  | .error (.halted (.failed error)) => some ⟨error.parts.1, .message error.parts.2⟩
  | .error (.halted .panicked) => none

def AppState.serve (state : AppState) (draw : RepositoryDraw) (request : HttpRequest) (db : Db) :
    Option HttpResponse × Db :=
  let ended := (Endpoint.handle state request).autocommit (RepositoryCall.exec draw) db
  (intoResponse ended.1, ended.2)

/-! The endpoints and the handlers they are made of. -/

def Route.action? (state : AppState) : Route → Option Action
  | .createUser (.ok body) => some (.create body (state.hashPassword body.password))
  | .updateUser (.ok id) (.ok body) => some (.update id body)
  | .deleteUser (.ok id) => some (.delete id)
  | _ => none

section

variable {state : AppState} {draw : RepositoryDraw} {request : HttpRequest} {db : Db}

theorem Endpoint.autocommit_ofHandler (handler : Handler α) :
    (Endpoint.ofHandler handler).autocommit (RepositoryCall.exec draw) db =
      ((handler.autocommit (UserCall.exec draw.user) db).1.mapError Endpoint.fail,
        (handler.autocommit (UserCall.exec draw.user) db).2) := by
  refine Program.autocommit_embed (fun call db => ?_) handler db
  simp only [RepositoryCall.exec]
  rcases call.exec draw.user db with ⟨_ | reply, after⟩ <;> rfl

/-- A request that changes users is served as by the handlers alone. -/
theorem serve_action {subject : Uuid} {action : Action}
    (named : state.subject? request = some subject)
    (isAction : request.route.action? state = some action) :
    state.serve draw request db =
      (intoResponse (((serve draw.user ⟨state.validator, subject, action⟩ db).1.mapError
          Endpoint.fail).map .user),
        (serve draw.user ⟨state.validator, subject, action⟩ db).2) := by
  have handled : Endpoint.handle state request = (do
      let caller ← Endpoint.ofHandler (authUser subject)
      Endpoint.changeUsers state caller action) := by
    have known : Endpoint.authUser state request = Endpoint.ofHandler (authUser subject) := by
      rw [Endpoint.authUser, named]
      rfl
    obtain ⟨authorization, route⟩ := request
    cases route with
    | createUser body =>
        cases body with
        | error => contradiction
        | ok body =>
            obtain rfl := Option.some.inj isAction
            simp only [Endpoint.handle, known]
            rfl
    | updateUser path body =>
        rcases path with _ | id <;> rcases body with _ | body
        · contradiction
        · contradiction
        · contradiction
        · obtain rfl := Option.some.inj isAction
          simp only [Endpoint.handle, known]
          rfl
    | deleteUser path =>
        cases path with
        | error => contradiction
        | ok id =>
            obtain rfl := Option.some.inj isAction
            simp only [Endpoint.handle, known]
            rfl
    | _ => contradiction
  simp only [AppState.serve, handled, Program.autocommit_bind, Endpoint.autocommit_ofHandler,
    serve, Api.handle]
  rcases (authUser subject).autocommit (UserCall.exec draw.user) db with ⟨_ | caller, after⟩
  · rfl
  · simp only [Endpoint.changeUsers, Program.autocommit_bind, Endpoint.autocommit_ofHandler,
      Except.mapError]
    rcases (respond state.validator caller action).autocommit (UserCall.exec draw.user) after
      with ⟨_ | _, _⟩ <;> rfl

theorem serve_listGames {query : PaginationQuery} (route : request.route = .listGames (.ok query)) :
    state.serve draw request db =
      (intoResponse (((listGames state.build query (.ok db.countGames)
        ((db.listGames draw.game.tie).map (.ok ·.toGame))).mapError .halted).map .games), db) := by
  have ended (page : Except Refusal (Page GameResponse)) :
      (Program.done page >>= fun page => pure (.games page) : Endpoint Answer).autocommit
        (RepositoryCall.exec draw) db = (page.map .games, db) := by
    cases page <;> rfl
  simp only [AppState.serve, Endpoint.handle, route]
  exact congrArg (fun ended => (intoResponse ended.1, ended.2)) (ended _)

end

end Zyndeck.Api
