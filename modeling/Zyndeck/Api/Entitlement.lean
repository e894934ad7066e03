import Zyndeck.Api.Endpoint
import Zyndeck.Data.Past

namespace Zyndeck

def RepositoryCall.isOpen : RepositoryCall → Bool
  | .findCredentialsByUsername _ | .findGame _ | .countGames | .listGames => true
  | _ => false

namespace Api

open Data

/-! What the endpoints ask of the database, and for whom. -/

def Entitled (caller : User) : RepositoryCall → Prop
  | .user (.findById id) => id = caller.id ∨ caller.role.isAdmin = true
  | .createGame game => game.createdBy = caller.id ∧ caller.role.isAdmin = true
  | _ => caller.role.isAdmin = true

def Answer.isLogin : Answer → Bool
  | .loggedIn _ => true
  | _ => false

/-- The end of `login`, with the credentials as they were read. -/
def Endpoint.answerLogin (state : AppState) (body : LoginRequest) (found : Option Credentials) :
    Endpoint Answer := do
  let credentials ← okOr .unauthorized found
  check (if state.verifyPassword body.password credentials.passwordHash then .ok ()
    else .error .unauthorized)
  let accessToken ← okOr .internal (state.issueToken credentials.id)
  pure (.loggedIn accessToken)

inductive Begins (state : AppState) (request : HttpRequest) : Endpoint Answer → Prop
  | plain (always : endpoint.Always (·.isOpen = true) (·.isLogin = false)) :
      Begins state request endpoint
  | login (route : request.route = .login (.ok body)) :
      Begins state request
        (.query (.findCredentialsByUsername body.username) onFault
          (Endpoint.answerLogin state body))
  | guarded (named : state.subject? request = some subject)
      (unknown : ∃ refusal, next none = .done (.error refusal))
      (always : ∀ caller, (next (some caller)).Always (Entitled caller) (·.isLogin = false)) :
      Begins state request (.query (.user (.findById subject)) onFault next)

namespace Endpoint

variable {state : AppState} {request : HttpRequest} {caller : User}
  {allowed : RepositoryCall → Prop} {proper : α → Prop}

theorem always_quiet {result : Except Refusal β} {next : β → Endpoint α}
    (rest : ∀ value, result = .ok value → (next value).Always allowed proper) :
    (Program.done result >>= next : Endpoint α).Always allowed proper := by
  cases result with
  | ok value => exact rest value rfl
  | error => exact .refused

theorem always_okOr {error : ApiError} {found : Option β} {next : β → Endpoint α}
    (rest : ∀ value, (next value).Always allowed proper) :
    (okOr error found >>= next).Always allowed proper := by
  cases found with
  | some value => exact rest value
  | none => exact .refused

theorem always_call {issued : RepositoryCall} {next : issued.Reply → Endpoint α}
    (isAllowed : allowed issued) (rest : ∀ reply, (next reply).Always allowed proper) :
    (call issued >>= next).Always allowed proper :=
  ⟨isAllowed, rest⟩

theorem begins_authUser {rest : User → Endpoint Answer}
    (always : ∀ caller, (rest caller).Always (Entitled caller) (·.isLogin = false)) :
    Begins state request (authUser state request >>= rest) := by
  cases named : state.subject? request with
  | none =>
      have refused : authUser state request >>= rest = .done (.error (fail .unauthorized)) := by
        rw [authUser, named]
        rfl
      rw [refused]
      exact .plain .refused
  | some subject =>
      rw [authUser, named]
      exact .guarded named ⟨_, rfl⟩ always

theorem always_check {result : Except ApiError Unit} {next : Unit → Endpoint α}
    (rest : result = .ok () → (next ()).Always allowed proper) :
    (check result >>= next).Always allowed proper := by
  cases result with
  | ok => exact rest rfl
  | error => exact .refused

theorem always_admin {next : Unit → Endpoint α}
    (rest : caller.role.isAdmin = true → (next ()).Always allowed proper) :
    (check (requireAdmin caller) >>= next).Always allowed proper := by
  refine always_check fun passed => rest ?_
  unfold requireAdmin at passed
  split at passed
  · assumption
  · contradiction

theorem always_extract {part : Except Rejection β} {next : β → Endpoint α}
    (rest : ∀ value, part = .ok value → (next value).Always allowed proper) :
    (extract part >>= next).Always allowed proper := by
  cases part with
  | ok value => exact rest value rfl
  | error => exact .refused

theorem always_answer {answer : Answer} (plain : answer.isLogin = false) :
    (pure answer : Endpoint Answer).Always allowed (·.isLogin = false) := by
  rintro _ ⟨⟩
  exact plain

theorem always_createGame (state : AppState) (caller : User) (body : CreateGameRequest) :
    (createGame state caller body).Always (Entitled caller) (·.isLogin = false) :=
  always_admin fun admin => always_check fun _ =>
    always_call ⟨rfl, admin⟩ fun _ => always_answer rfl

theorem always_updateGame (state : AppState) (caller : User) (id : Uuid)
    (body : UpdateGameRequest) :
    (updateGame state caller id body).Always (Entitled caller) (·.isLogin = false) :=
  always_admin fun admin => always_check fun _ => always_call admin fun _ =>
    always_okOr fun _ => always_answer rfl

theorem always_deleteGame (caller : User) (id : Uuid) :
    (deleteGame caller id).Always (Entitled caller) (·.isLogin = false) :=
  always_admin fun admin => always_call admin fun _ => always_check fun _ => always_answer rfl

theorem always_listUsers (state : AppState) (caller : User) (query : PaginationQuery) :
    (listUsers state caller query).Always (Entitled caller) (·.isLogin = false) :=
  always_admin fun admin => always_call admin fun _ => always_call admin fun _ =>
    always_quiet fun _ _ => always_answer rfl

theorem always_getUser (caller : User) (id : Uuid) :
    (getUser caller id).Always (Entitled caller) (·.isLogin = false) := by
  refine always_check fun passed => always_call ?_ fun _ => always_okOr fun _ => always_answer rfl
  by_cases admin : caller.role.isAdmin = true
  · exact .inr admin
  · by_cases own : caller.id = id
    · exact .inl own.symm
    · simp [admin, own] at passed

theorem always_changeUsers (state : AppState) (caller : User) (action : Action) :
    (changeUsers state caller action).Always (Entitled caller) (·.isLogin = false) := by
  suffices always : (respond state.validator caller action).Always
      (fun call => Entitled caller (.user call)) fun _ => True by
    exact (always.embed fun _ entitled => entitled).bind fun _ _ => always_answer rfl
  have opening := respond_cases state.validator caller action
  generalize respond state.validator caller action = program at opening
  cases opening with
  | refused => exact .refused
  | creating admin => exact ⟨admin, fun _ _ _ => trivial⟩
  | updating admin =>
      refine ⟨admin, fun found => ?_⟩
      cases found with
      | some user => exact fun _ _ => trivial
      | none => exact .refused
  | @finding target admin =>
      refine ⟨.inr admin, fun found => ?_⟩
      rcases removeUser_cases caller target found with ⟨_, ended⟩ | ⟨_, _, _, ended⟩
      · rw [ended]
        exact .refused
      · rw [ended]
        refine ⟨admin, fun removed => ?_⟩
        cases removed with
        | true => exact fun _ _ => trivial
        | false => exact .refused

/-- Every request is open, a login, or looks its caller up and does what they may. -/
theorem begins_handle (state : AppState) (request : HttpRequest) :
    Begins state request (handle state request) := by
  obtain ⟨authorization, route⟩ := request
  cases route with
  | login body =>
      cases body with
      | error => exact .plain .refused
      | ok body =>
          have asks : handle state ⟨authorization, .login (.ok body)⟩ = (do
              check (body.validate state.validator)
              let found ← call (.findCredentialsByUsername body.username)
              answerLogin state body found) := rfl
          rw [asks]
          cases body.validate state.validator with
          | error => exact .plain .refused
          | ok => exact .login rfl
  | listGames query =>
      refine .plain (always_extract fun query _ =>
        always_call rfl fun _ => always_call rfl fun _ => ?_)
      exact always_quiet fun _ _ => always_answer rfl
  | getGame path =>
      refine .plain (always_extract fun id _ => always_call rfl fun _ => ?_)
      exact always_okOr fun _ => always_answer rfl
  | createGame body =>
      exact begins_authUser fun caller => always_extract fun body _ =>
        always_createGame state caller body
  | updateGame path body =>
      refine begins_authUser fun caller => always_extract fun id _ =>
        always_extract fun body _ => ?_
      exact always_updateGame state caller id body
  | deleteGame path =>
      exact begins_authUser fun caller => always_extract fun id _ => always_deleteGame caller id
  | listUsers query =>
      refine begins_authUser fun caller => always_extract fun query _ => ?_
      exact always_listUsers state caller query
  | createUser body =>
      exact begins_authUser fun caller => always_extract fun _ _ =>
        always_changeUsers state caller _
  | getUser path =>
      exact begins_authUser fun caller => always_extract fun id _ => always_getUser caller id
  | updateUser path body =>
      refine begins_authUser fun caller => always_extract fun id _ =>
        always_extract fun body _ => ?_
      exact always_changeUsers state caller _
  | deleteUser path =>
      exact begins_authUser fun caller => always_extract fun _ _ =>
        always_changeUsers state caller _

theorem answerLogin_ends (state : AppState) (body : LoginRequest) (found : Option Credentials) :
    ∃ result, answerLogin state body found = .done result ∧
      ∀ token, result = .ok (.loggedIn token) → ∃ credentials, found = some credentials ∧
        state.verifyPassword body.password credentials.passwordHash = true ∧
        state.issueToken credentials.id = some token := by
  cases found with
  | none => exact ⟨_, rfl, fun _ same => by contradiction⟩
  | some credentials =>
      have ends : answerLogin state body (some credentials) = (do
          check (if state.verifyPassword body.password credentials.passwordHash then .ok ()
            else .error .unauthorized)
          let accessToken ← okOr .internal (state.issueToken credentials.id)
          pure (.loggedIn accessToken)) := rfl
      cases verified : state.verifyPassword body.password credentials.passwordHash with
      | false =>
          rw [verified] at ends
          exact ⟨_, ends, fun _ same => by contradiction⟩
      | true =>
          rw [verified] at ends
          cases issued : state.issueToken credentials.id with
          | none =>
              rw [issued] at ends
              exact ⟨_, ends, fun _ same => by contradiction⟩
          | some token =>
              rw [issued] at ends
              refine ⟨_, ends, ?_⟩
              rintro _ ⟨⟩
              exact ⟨credentials, rfl, verified, issued⟩

end Endpoint

end Api

end Zyndeck
