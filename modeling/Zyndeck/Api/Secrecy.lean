import Zyndeck.Api.Endpoint

namespace Zyndeck.Api

open Data

/-! What callers without privileges find out about the accounts of others. -/

def LogsIn (state : AppState) (request : HttpRequest) (db : Db) : Prop :=
  ∃ body credentials, request.route = .login (.ok body) ∧
    db.credentials? body.username = some credentials ∧
    state.verifyPassword body.password credentials.passwordHash = true

def Unprivileged (state : AppState) (request : HttpRequest) (db : Db) : Prop :=
  ∀ subject row, state.subject? request = some subject → db.user? subject = some row →
    row.role = .user

structure SameFor (state : AppState) (request : HttpRequest) (first second : Db) : Prop where
  games : first.games = second.games
  caller : ∀ subject, state.subject? request = some subject →
    first.user? subject = second.user? subject

section

variable {state : AppState} {draw : RepositoryDraw} {request : HttpRequest} {first second : Db}
  {caller : User}

theorem coupled_call {issued : RepositoryCall} {Related : issued.Reply → issued.Reply → Prop}
    (firstKept : (issued.exec draw first).2 = first)
    (secondKept : (issued.exec draw second).2 = second)
    (agree : Agree Related (issued.exec draw first).1 (issued.exec draw second).1) :
    Coupled (RepositoryCall.exec draw) first second Related (Endpoint.call issued)
      (Endpoint.call issued) :=
  .statement firstKept secondKept agree

abbrev AnswersAlike (draw : RepositoryDraw) (first second : Db) (endpoint : Endpoint Answer) :
    Prop :=
  Coupled (RepositoryCall.exec draw) first second Eq endpoint endpoint

namespace AnswersAlike

theorem check {result : Except ApiError α} {next : α → Endpoint Answer}
    (rest : ∀ value, result = .ok value → AnswersAlike draw first second (next value)) :
    AnswersAlike draw first second (Endpoint.check result >>= next) := by
  refine .done_bind fun value isValue => rest value ?_
  cases result <;> cases isValue
  rfl

theorem extract {part : Except Rejection α} {next : α → Endpoint Answer}
    (rest : ∀ value, part = .ok value → AnswersAlike draw first second (next value)) :
    AnswersAlike draw first second (Endpoint.extract part >>= next) := by
  refine .done_bind fun value isValue => rest value ?_
  cases part <;> cases isValue
  rfl

theorem okOr {error : ApiError} {found : Option α} {next : α → Endpoint Answer}
    (rest : ∀ value, found = some value → AnswersAlike draw first second (next value)) :
    AnswersAlike draw first second (Endpoint.okOr error found >>= next) := by
  cases found with
  | none => exact .refl_done _
  | some value => exact rest value rfl

theorem refused {endpoint : Endpoint Answer} {refusal : Refusal}
    (ended : endpoint = .done (.error refusal)) : AnswersAlike draw first second endpoint := by
  rw [AnswersAlike, ended]
  exact .refl_done _

theorem games {call : RepositoryCall} (onlyGames : call.readsGames = true)
    (games : first.games = second.games) {next : call.Reply → Endpoint Answer}
    (rest : ∀ reply, AnswersAlike draw first second (next reply)) :
    AnswersAlike draw first second (Endpoint.call call >>= next) := by
  have ⟨same, reads⟩ := @RepositoryCall.exec_readsGames draw call first second onlyGames games
  have agree : Agree Eq (call.exec draw first).1 (call.exec draw second).1 := by
    rw [same]
    exact .refl (fun _ => rfl) _
  refine (coupled_call (reads first) (reads second) agree).bind ?_
  rintro value _ rfl
  exact rest value

theorem findUser {id : Uuid} (same : first.user? id = second.user? id)
    {next : Option User → Endpoint Answer}
    (rest : AnswersAlike draw first second (next ((first.user? id).map UserRow.toUser))) :
    AnswersAlike draw first second (Endpoint.call (.user (.findById id)) >>= next) := by
  let found := (first.user? id).map UserRow.toUser
  have reads : (RepositoryCall.user (.findById id)).exec draw first = (.ok found, first) := by
    simp only [RepositoryCall.exec, UserCall.exec, Db.findUser_eq, found]
  have otherReads : (RepositoryCall.user (.findById id)).exec draw second =
      (.ok found, second) := by
    simp only [RepositoryCall.exec, UserCall.exec, Db.findUser_eq, found, same]
  have agree : Agree (fun value other => value = found ∧ other = found)
      ((RepositoryCall.user (.findById id)).exec draw first).1
      ((RepositoryCall.user (.findById id)).exec draw second).1 := by
    rw [reads, otherReads]
    exact .ok ⟨rfl, rfl⟩
  refine (coupled_call rfl rfl agree).bind ?_
  rintro _ _ ⟨rfl, rfl⟩
  exact rest

theorem authUser (same : SameFor state request first second)
    (plain : Unprivileged state request first) {next : User → Endpoint Answer}
    (rest : ∀ caller : User, caller.role = .user → state.subject? request = some caller.id →
      AnswersAlike draw first second (next caller)) :
    AnswersAlike draw first second (Endpoint.authUser state request >>= next) := by
  rw [Endpoint.authUser, Program.bind_assoc]
  refine .okOr fun subject named => ?_
  have lookup : Endpoint.ofHandler (Api.authUser subject) =
      Endpoint.call (.user (.findById subject)) >>= Endpoint.okOr .unauthorized := by
    simp only [Api.authUser, Endpoint.ofHandler, ask, Program.statement, Program.bind_query,
      Program.embed, Endpoint.call, Program.bind_done_ok]
    congr 1
    funext found
    cases found <;> rfl
  rw [lookup, Program.bind_assoc]
  refine .findUser (same.caller subject named) (.okOr fun caller found => ?_)
  obtain ⟨row, stored, rfl⟩ := Option.map_eq_some_iff.mp found
  have isSubject : row.id = subject := by simpa using List.find?_some stored
  subst isSubject
  exact rest row.toUser (plain row.id row named stored) named

end AnswersAlike

/-- A login does not tell a name that is unknown from a wrong password. -/
theorem login_alike {body : LoginRequest}
    (wrong : ∀ credentials, first.credentials? body.username = some credentials →
      state.verifyPassword body.password credentials.passwordHash = false)
    (alsoWrong : ∀ credentials, second.credentials? body.username = some credentials →
      state.verifyPassword body.password credentials.passwordHash = false) :
    AnswersAlike draw first second (Endpoint.login state body) := by
  let Wrong (found : Option Credentials) : Prop := ∀ credentials, found = some credentials →
    state.verifyPassword body.password credentials.passwordHash = false
  have agree : Agree (fun found other => Wrong found ∧ Wrong other)
      ((RepositoryCall.findCredentialsByUsername body.username).exec draw first).1
      ((RepositoryCall.findCredentialsByUsername body.username).exec draw second).1 := by
    simp only [RepositoryCall.exec, Db.findCredentials]
    split
    · exact .error _
    · exact .ok ⟨wrong, alsoWrong⟩
  have refused (found : Option Credentials) (isWrong : Wrong found) :
      (Endpoint.okOr .unauthorized found >>= fun credentials => Endpoint.check
        (if state.verifyPassword body.password credentials.passwordHash then .ok ()
          else .error .unauthorized) >>= fun _ => Endpoint.okOr .internal
            (state.issueToken credentials.id) >>= fun accessToken =>
              pure (.loggedIn accessToken)) =
        (.done (.error (Endpoint.fail .unauthorized)) : Endpoint Answer) := by
    cases found with
    | none => rfl
    | some credentials =>
        have verified := isWrong credentials rfl
        simp [Endpoint.okOr, Endpoint.check, verified, Except.mapError]
  refine .check fun _ _ => (coupled_call rfl rfl agree).bind ?_
  rintro found other ⟨isWrong, alsoIsWrong⟩
  rw [refused found isWrong, refused other alsoIsWrong]
  exact .refl_done _

section

variable (plain : caller.role = .user)

include plain

theorem requireAdmin_of_plain : requireAdmin caller = .error .forbidden := by
  rw [requireAdmin, plain]
  rfl

theorem check_of_plain (next : Unit → Endpoint Answer) :
    Endpoint.check (requireAdmin caller) >>= next = .done (.error (Endpoint.fail .forbidden)) := by
  rw [requireAdmin_of_plain plain]
  rfl

theorem changeUsers_of_plain (action : Action) :
    Endpoint.changeUsers state caller action = .done (.error (Endpoint.fail .forbidden)) := by
  have refused : respond state.validator caller action = .done (.error .forbidden) := by
    cases action <;>
      simp only [respond, createUser, updateUser, deleteUser, requireAdmin_of_plain plain,
        Program.bind_done_error]
  rw [Endpoint.changeUsers, refused]
  rfl

/-- A plain user is told of nobody else, not even whether they exist. -/
theorem getUser_alike {id : Uuid} (same : first.user? caller.id = second.user? caller.id) :
    AnswersAlike draw first second (Endpoint.getUser caller id) := by
  refine .check fun _ allowed => ?_
  have own : caller.id = id := by
    by_contra other
    rw [if_pos (by simp [plain, Role.isAdmin, other])] at allowed
    contradiction
  subst own
  exact .findUser same (.okOr fun _ _ => .refl_done _)

end

/-- A request without privileges is answered alike whatever the accounts of others, and
changes nothing, unless it logs somebody in. -/
theorem unprivileged_learn_nothing (same : SameFor state request first second)
    (plain : Unprivileged state request first) (wrong : ¬ LogsIn state request first)
    (alsoWrong : ¬ LogsIn state request second) :
    (state.serve draw request first).1 = (state.serve draw request second).1 ∧
      (state.serve draw request first).2 = first ∧
      (state.serve draw request second).2 = second := by
  suffices alike : AnswersAlike draw first second (Endpoint.handle state request) by
    exact ⟨congrArg intoResponse alike.agree.eq, alike.firstKept, alike.secondKept⟩
  obtain ⟨authorization, route⟩ := request
  cases route with
  | login body =>
      refine .extract fun body isBody => ?_
      subst isBody
      refine login_alike (fun credentials found => ?_) fun credentials found => ?_
      · exact Bool.eq_false_iff.mpr fun verified => wrong ⟨body, credentials, rfl, found, verified⟩
      · exact Bool.eq_false_iff.mpr fun verified =>
          alsoWrong ⟨body, credentials, rfl, found, verified⟩
  | listGames query =>
      refine .extract fun query _ => ?_
      refine .games rfl same.games fun total => .games rfl same.games fun stream => ?_
      exact .done_bind fun page _ => .refl_done _
  | getGame path =>
      refine .extract fun id _ => ?_
      exact .games rfl same.games fun found => .okOr fun game _ => .refl_done _
  | createGame body =>
      refine .authUser same plain fun caller isPlain _ => .extract fun body _ => ?_
      exact .refused (check_of_plain isPlain _)
  | updateGame path body =>
      refine .authUser same plain fun caller isPlain _ => .extract fun id _ => ?_
      refine .extract fun body _ => ?_
      exact .refused (check_of_plain isPlain _)
  | deleteGame path =>
      refine .authUser same plain fun caller isPlain _ => .extract fun id _ => ?_
      exact .refused (check_of_plain isPlain _)
  | listUsers query =>
      refine .authUser same plain fun caller isPlain _ => .extract fun query _ => ?_
      exact .refused (check_of_plain isPlain _)
  | createUser body =>
      refine .authUser same plain fun caller isPlain _ => .extract fun body _ => ?_
      exact .refused (changeUsers_of_plain isPlain _)
  | getUser path =>
      refine .authUser same plain fun caller isPlain named => .extract fun id _ => ?_
      exact getUser_alike isPlain (same.caller caller.id named)
  | updateUser path body =>
      refine .authUser same plain fun caller isPlain _ => .extract fun id _ => ?_
      refine .extract fun body _ => ?_
      exact .refused (changeUsers_of_plain isPlain _)
  | deleteUser path =>
      refine .authUser same plain fun caller isPlain _ => .extract fun id _ => ?_
      exact .refused (changeUsers_of_plain isPlain _)

end

def openState : AppState where
  build := .release
  validator := terse
  decode token := some token
  parseUuid text := if text = ['3'] then some ⟨3⟩ else none
  hashPassword password := some password
  verifyPassword password hash := decide (password = hash)
  issueToken _ := some ['t']

def stillDraw : RepositoryDraw := ⟨⟨0, ⟨9⟩⟩, ⟨0, ⟨9⟩, fun _ => 0⟩, fun _ _ => true⟩

def bobAnd (others : List UserRow) : Db where
  users := ⟨⟨3⟩, ['b', 'o', 'b'], ['b'], .user, 0⟩ :: others
  games := []
  jobs := []
  runs := []
  transcripts := []
  chunks := []
  embeddings := []

/-- Whether there is another user shows neither when one asks for their account nor when one
guesses their password. -/
theorem bob_learns_nothing_of_ann :
    let ann : UserRow := ⟨⟨2⟩, ['a', 'n', 'n'], ['a'], .admin, 0⟩
    let asks : HttpRequest := ⟨some ['B', 'e', 'a', 'r', 'e', 'r', ' ', '3'], .getUser (.ok ⟨2⟩)⟩
    let guesses : HttpRequest := ⟨none, .login (.ok ⟨['a', 'n', 'n'], ['x']⟩)⟩
    (openState.serve stillDraw asks (bobAnd [ann])).1 =
        (openState.serve stillDraw asks (bobAnd [])).1 ∧
      (openState.serve stillDraw guesses (bobAnd [ann])).1 =
        (openState.serve stillDraw guesses (bobAnd [])).1 := by
  intro ann asks guesses
  have asked : openState.subject? asks = some ⟨3⟩ := by decide
  have nobody : openState.subject? guesses = none := rfl
  have noLogin (db : Db) : ¬ LogsIn openState asks db := by
    rintro ⟨_, _, isLogin, _⟩
    cases isLogin
  constructor
  · refine (@unprivileged_learn_nothing openState stillDraw asks (bobAnd [ann]) (bobAnd [])
      ⟨rfl, ?_⟩ ?_ (noLogin _) (noLogin _)).1
    · rintro subject named
      obtain rfl := Option.some.inj (asked.symm.trans named)
      rfl
    · rintro subject row named found
      obtain rfl := Option.some.inj (asked.symm.trans named)
      obtain rfl := Option.some.inj found
      rfl
  · refine (@unprivileged_learn_nothing openState stillDraw guesses (bobAnd [ann]) (bobAnd [])
      ⟨rfl, ?_⟩ ?_ ?_ ?_).1
    · exact fun subject named => absurd (nobody.symm.trans named) (by simp)
    · exact fun subject row named => absurd (nobody.symm.trans named) (by simp)
    · rintro ⟨body, credentials, isLogin, found, verified⟩
      cases isLogin
      obtain rfl := Option.some.inj found
      contradiction
    · rintro ⟨body, credentials, isLogin, found, _⟩
      cases isLogin
      contradiction

end Zyndeck.Api
