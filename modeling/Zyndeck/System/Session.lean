import Zyndeck.Api.Token
import Zyndeck.System.Cascade

namespace Zyndeck

open Data

section

variable [Isolang]

/-! What the API does for a caller, and the logins before it. -/

namespace World

def Sees (subject : Uuid) (row : UserRow) (before : World) (_ : Occurrence) (_ : World) : Prop :=
  before.db.user? subject = some row

/-- The login of an account: its request arrives, and the call that looks up the password stored
for the name finds it to be the one given, and is answered with a token. -/
inductive LoggedIn (allowed : World → Occurrence → Prop) (start : World) (state : Api.AppState)
    (credentials : Credentials) (token : Text) : List Occurrence → World → Prop
  | intro {request : Api.HttpRequest} {told : World}
      (before : Run (Occurs allowed) start first arrival)
      (route : request.route = .login (.ok body))
      (waited : Run (Occurs allowed) arrival (.request number state request :: waiting) asking)
      (stored : asking.db.credentials? body.username = some credentials)
      (verified : state.verifyPassword body.password credentials.passwordHash = true)
      (issued : state.issueToken credentials.id = some token)
      (answered : Occurs allowed asking (.call number draw) told)
      (tells : told.requests number = some (.done (.ok (.loggedIn token))))
      (since : Run (Occurs allowed) told later world) :
      LoggedIn allowed start state credentials token
        (first ++ .request number state request :: waiting ++ .call number draw :: later) world

def HandsOut (token : Text) (_ : World) (occurrence : Occurrence) (after : World) : Prop :=
  ∃ number draw, occurrence = .call number draw ∧
    after.requests number = some (.done (.ok (.loggedIn token)))

inductive Stage (happened : (World → Occurrence → World → Prop) → Prop) (state : Api.AppState)
    (request : Api.HttpRequest) : Api.Endpoint Api.Answer → Prop
  | begins (begins : Api.Begins state request endpoint) : Stage happened state request endpoint
  | ended (result : Except Api.Refusal Api.Answer) : Stage happened state request (.done result)
  | acts (named : state.subject? request = some subject) (sees : happened (Sees subject row))
      (always : endpoint.Always (Api.Entitled row.toUser) (·.isLogin = false)) :
      Stage happened state request endpoint

theorem Stage.mono {happened wider : (World → Occurrence → World → Prop) → Prop}
    {state : Api.AppState} {request : Api.HttpRequest} {endpoint : Api.Endpoint Api.Answer}
    (stage : Stage happened state request endpoint)
    (widen : ∀ property, happened property → wider property) :
    Stage wider state request endpoint := by
  cases stage with
  | begins begins => exact .begins begins
  | ended result => exact .ended result
  | acts named sees always => exact .acts named (widen _ sees) always

omit [Isolang] in
theorem not_login {allowed : RepositoryCall → Prop} {endpoint : Api.Endpoint Api.Answer}
    (always : endpoint.Always allowed (·.isLogin = false)) (token : Text) :
    endpoint ≠ .done (.ok (.loggedIn token)) := by
  rintro rfl
  have plain := always _ rfl
  contradiction

theorem Stage.settle {happened : (World → Occurrence → World → Prop) → Prop}
    {state : Api.AppState} {request : Api.HttpRequest} {call : RepositoryCall}
    {onFault : Error → Api.Refusal} {next : call.Reply → Api.Endpoint Api.Answer}
    (stage : Stage happened state request (.query call onFault next)) (draw : RepositoryDraw)
    {before : World} (now : ∀ subject row, before.db.user? subject = some row →
      happened (Sees subject row)) :
    Stage happened state request (settle onFault next (call.exec draw before.db).1) ∧
      ∀ token, settle onFault next (call.exec draw before.db).1 = .done (.ok (.loggedIn token)) →
        ∃ body credentials, request.route = .login (.ok body) ∧
          before.db.credentials? body.username = some credentials ∧
          state.verifyPassword body.password credentials.passwordHash = true ∧
          state.issueToken credentials.id = some token := by
  cases replied : (call.exec draw before.db).1 with
  | error fault => exact ⟨.ended _, fun _ ended => by simp [World.settle] at ended⟩
  | ok reply =>
      simp only [World.settle]
      cases stage with
      | acts named sees always =>
          exact ⟨.acts named sees (always.2 reply), fun token ended =>
            absurd ended (not_login (always.2 reply) token)⟩
      | begins begins =>
          cases begins with
          | plain always =>
              exact ⟨.begins (.plain (always.2 reply)), fun token ended =>
                absurd ended (not_login (always.2 reply) token)⟩
          | @login body _ route =>
              obtain ⟨result, ends, onlyThen⟩ := Api.Endpoint.answerLogin_ends state body reply
              rw [ends]
              refine ⟨.ended result, fun token isLogin => ⟨body, ?_⟩⟩
              obtain ⟨credentials, rfl, verified, issued⟩ :=
                onlyThen token (Program.done.inj isLogin)
              refine ⟨credentials, route, ?_, verified, issued⟩
              simp only [RepositoryCall.exec, Db.findCredentials] at replied
              split at replied
              · contradiction
              · exact Except.ok.inj replied
          | @guarded subject _ _ named unknown always =>
              simp only [RepositoryCall.exec, UserCall.exec, Db.findUser_eq,
                Except.ok.injEq] at replied
              cases found : before.db.user? subject with
              | none =>
                  obtain ⟨refusal, refused⟩ := unknown
                  obtain rfl : none = reply := by simpa [found] using replied
                  rw [refused]
                  exact ⟨.ended _, fun _ ended => by simp at ended⟩
              | some row =>
                  obtain rfl : some row.toUser = reply := by simpa [found] using replied
                  exact ⟨.acts named (now subject row found) (always row.toUser),
                    fun token ended => absurd ended (not_login (always row.toUser) token)⟩

/-- A request that makes a call that is not open to all has a caller. -/
theorem Stage.acting {happened : (World → Occurrence → World → Prop) → Prop}
    {state : Api.AppState} {request : Api.HttpRequest} {call : RepositoryCall}
    {onFault : Error → Api.Refusal} {next : call.Reply → Api.Endpoint Api.Answer}
    (stage : Stage happened state request (.query call onFault next))
    (closed : call.isOpen = false) :
    ∃ subject, state.subject? request = some subject ∧ (call = .user (.findById subject) ∨
      ∃ row, happened (Sees subject row) ∧ Api.Entitled row.toUser call) := by
  cases stage with
  | @acts subject row _ named sees always => exact ⟨subject, named, .inr ⟨row, sees, always.1⟩⟩
  | begins begins =>
      cases begins with
      | plain always =>
          have isOpen := always.1
          simp [closed] at isOpen
      | login => contradiction
      | @guarded subject _ _ named => exact ⟨subject, named, .inl rfl⟩

theorem setRequest_requests {world : World} {number other : Nat}
    {state : Option (Api.Endpoint Api.Answer)} {endpoint : Api.Endpoint Api.Answer}
    (known : (world.setRequest number state).requests other = some endpoint) :
    (other = number ∧ state = some endpoint) ∨ world.requests other = some endpoint := by
  by_cases same : other = number
  · subst same
    exact .inl ⟨rfl, by simpa [setRequest] using known⟩
  · exact .inr (by simpa [setRequest, Function.update_of_ne same] using known)

theorem call_cases {world next : World} {number : Nat} {draw : RepositoryDraw}
    (taken : world.step? (.call number draw) = some next) :
    ∃ call onFault rest, world.requests number = some (.query call onFault rest) ∧
      next = (world.setDb (call.exec draw world.db).2).setRequest number
        (some (settle onFault rest (call.exec draw world.db).1)) := by
  simp only [step?] at taken
  split at taken
  · exact ⟨_, _, _, ‹_›, (Option.some.inj taken).symm⟩
  · contradiction

theorem request_cases {world next : World} {occurrence : Occurrence} {number : Nat}
    {endpoint : Api.Endpoint Api.Answer} (taken : world.step? occurrence = some next)
    (known : next.requests number = some endpoint) :
    world.requests number = some endpoint ∨
      (∃ state request, occurrence = .request number state request ∧
        endpoint = Api.Endpoint.handle state request) ∨
      (∃ draw call onFault rest, occurrence = .call number draw ∧
        world.requests number = some (.query call onFault rest) ∧
        endpoint = settle onFault rest (call.exec draw world.db).1) ∨
      ∃ fault call onFault rest, occurrence = .fail number fault ∧
        world.requests number = some (.query call onFault rest) ∧
        endpoint = .done (.error (onFault (.query fault))) := by
  cases occurrence with
  | system event =>
      obtain ⟨_, _, rfl⟩ := Option.map_eq_some_iff.mp taken
      exact .inl known
  | startup draw admin =>
      obtain rfl := Option.some.inj taken
      exact .inl known
  | request other state request =>
      simp only [step?] at taken
      split at taken
      · obtain rfl := Option.some.inj taken
        rcases setRequest_requests known with ⟨rfl, isEndpoint⟩ | same
        · exact .inr (.inl ⟨state, request, rfl, (Option.some.inj isEndpoint).symm⟩)
        · exact .inl same
      · contradiction
  | call other draw =>
      obtain ⟨call, onFault, rest, asks, rfl⟩ := call_cases taken
      rcases setRequest_requests known with ⟨rfl, isEndpoint⟩ | same
      · exact .inr (.inr (.inl
          ⟨draw, call, onFault, rest, rfl, asks, (Option.some.inj isEndpoint).symm⟩))
      · exact .inl same
  | lose other draw =>
      simp only [step?] at taken
      split at taken
      · obtain rfl := Option.some.inj taken
        rcases setRequest_requests known with ⟨_, isEndpoint⟩ | same
        · contradiction
        · exact .inl same
      · contradiction
  | fail other fault =>
      simp only [step?] at taken
      split at taken
      · rename_i call onFault rest asks
        obtain rfl := Option.some.inj taken
        rcases setRequest_requests known with ⟨rfl, isEndpoint⟩ | same
        · exact .inr (.inr (.inr
            ⟨fault, call, onFault, rest, rfl, asks, (Option.some.inj isEndpoint).symm⟩))
        · exact .inl same
      · contradiction
  | close other =>
      obtain rfl := Option.some.inj taken
      rcases setRequest_requests known with ⟨_, isEndpoint⟩ | same
      · contradiction
      · exact .inl same

inductive Underway (allowed : World → Occurrence → Prop) (start : World) (number : Nat) :
    List Occurrence → World → Api.Endpoint Api.Answer → Prop
  | intro {request : Api.HttpRequest} (before : Run (Occurs allowed) start first arrival)
      (since : Run (Occurs allowed) arrival (.request number state request :: later) world)
      (stage : Stage (Happened (Occurs allowed) · arrival
        (.request number state request :: later) world) state request endpoint) :
      Underway allowed start number (first ++ .request number state request :: later) world endpoint

theorem Underway.later {allowed : World → Occurrence → Prop} {start world next : World}
    {number : Nat} {occurrences : List Occurrence} {occurrence : Occurrence}
    {endpoint : Api.Endpoint Api.Answer}
    (underway : Underway allowed start number occurrences world endpoint)
    (taken : Occurs allowed world occurrence next) :
    Underway allowed start number (occurrences ++ [occurrence]) next endpoint := by
  cases underway with
  | intro before since stage =>
      rw [List.append_assoc]
      exact .intro before (since.snoc taken) (stage.mono fun _ happened => .later happened taken)

theorem Underway.ended {allowed : World → Occurrence → Prop} {start world next : World}
    {number : Nat} {occurrences : List Occurrence} {occurrence : Occurrence}
    {endpoint : Api.Endpoint Api.Answer}
    (underway : Underway allowed start number occurrences world endpoint)
    (taken : Occurs allowed world occurrence next) (result : Except Api.Refusal Api.Answer) :
    Underway allowed start number (occurrences ++ [occurrence]) next (.done result) := by
  cases underway with
  | intro before since stage =>
      rw [List.append_assoc]
      exact .intro before (since.snoc taken) (.ended result)

theorem Underway.settle {allowed : World → Occurrence → Prop} {start world next : World}
    {number : Nat} {occurrences : List Occurrence} {draw : RepositoryDraw}
    {call : RepositoryCall} {onFault : Error → Api.Refusal}
    {rest : call.Reply → Api.Endpoint Api.Answer}
    (underway : Underway allowed start number occurrences world (.query call onFault rest))
    (taken : Occurs allowed world (.call number draw) next)
    (told : next.requests number =
      some (World.settle onFault rest (call.exec draw world.db).1)) :
    Underway allowed start number (occurrences ++ [.call number draw]) next
        (World.settle onFault rest (call.exec draw world.db).1) ∧
      ∀ token, World.settle onFault rest (call.exec draw world.db).1 =
          .done (.ok (.loggedIn token)) →
        ∃ state credentials, (∃ request, .request number state request ∈ occurrences) ∧
          LoggedIn allowed start state credentials token (occurrences ++ [.call number draw])
            next := by
  cases underway with
  | @intro _ _ state _ _ _ request before since stage =>
      have waited := stage.mono fun _ happened => Happened.later happened taken
      have settled := waited.settle draw fun _ _ found => Happened.now since taken found
      refine ⟨?_, fun token isLogin => ?_⟩
      · rw [List.append_assoc]
        exact .intro before (since.snoc taken) settled.1
      · obtain ⟨body, credentials, route, stored, verified, issued⟩ := settled.2 token isLogin
        exact ⟨state, credentials, ⟨request, by simp⟩,
          .intro before route since stored verified issued taken (isLogin ▸ told) .nil⟩

theorem LoggedIn.later {allowed : World → Occurrence → Prop} {start world next : World}
    {state : Api.AppState} {credentials : Credentials} {token : Text}
    {occurrences : List Occurrence} {occurrence : Occurrence}
    (loggedIn : LoggedIn allowed start state credentials token occurrences world)
    (taken : Occurs allowed world occurrence next) :
    LoggedIn allowed start state credentials token (occurrences ++ [occurrence]) next := by
  cases loggedIn with
  | intro before route waited stored verified issued answered tells since =>
      rw [List.append_assoc]
      exact .intro before route waited stored verified issued answered tells (since.snoc taken)

theorem LoggedIn.issued {allowed : World → Occurrence → Prop} {start world : World}
    {state : Api.AppState} {credentials : Credentials} {token : Text}
    {occurrences : List Occurrence}
    (loggedIn : LoggedIn allowed start state credentials token occurrences world) :
    state.issueToken credentials.id = some token := by
  cases loggedIn
  assumption

theorem underway_of_run {allowed : World → Occurrence → Prop} {start world : World}
    {occurrences : List Occurrence} (idle : ∀ number, start.requests number = none)
    (run : Run (Occurs allowed) start occurrences world) :
    ∀ number endpoint, world.requests number = some endpoint →
      Underway allowed start number occurrences world endpoint := by
  induction run with
  | nil => exact fun number endpoint known => by simp [idle number] at known
  | snoc before taken induction =>
      intro number endpoint known
      rcases request_cases taken.2 known with
        same | ⟨state, request, rfl, rfl⟩ | ⟨draw, call, onFault, rest, rfl, asks, rfl⟩ |
        ⟨fault, call, onFault, rest, rfl, asks, rfl⟩
      · exact (induction number endpoint same).later taken
      · exact .intro before (.single taken) (.begins (Api.Endpoint.begins_handle state request))
      · exact ((induction number _ asks).settle taken known).1
      · exact (induction number _ asks).ended taken _

theorem loggedIn_of_handsOut {allowed : World → Occurrence → Prop} {start world : World}
    {occurrences : List Occurrence} {token : Text} (idle : ∀ number, start.requests number = none)
    (happened : Happened (Occurs allowed) (HandsOut token) start occurrences world) :
    ∃ state credentials, (∃ number request, .request number state request ∈ occurrences) ∧
      LoggedIn allowed start state credentials token occurrences world := by
  induction happened with
  | @now events before occurrence after run taken handsOut =>
      obtain ⟨number, draw, rfl, ended⟩ := handsOut
      obtain ⟨call, onFault, rest, asks, rfl⟩ := call_cases taken.2
      have isEnd : settle onFault rest (call.exec draw before.db).1 =
          .done (.ok (.loggedIn token)) := by
        simpa [setRequest] using ended
      obtain ⟨state, credentials, ⟨request, member⟩, loggedIn⟩ :=
        ((underway_of_run idle run number _ asks).settle taken (by simp [setRequest])).2 token isEnd
      exact ⟨state, credentials, ⟨number, request, List.mem_append_left _ member⟩, loggedIn⟩
  | later happened taken induction =>
      obtain ⟨state, credentials, ⟨number, request, member⟩, loggedIn⟩ := induction
      exact ⟨state, credentials, ⟨number, request, List.mem_append_left _ member⟩,
        loggedIn.later taken⟩

/-- The API runs with the secret of the tokens. -/
def Configured (jwt : Api.Jwt) (base : Api.AppState) (_ : World) : Occurrence → Prop
  | .request _ state _ => ∃ arrival signing, state = jwt.appState base arrival signing
  | _ => True

/-- Every token that a request bears, and that verifies, was handed out before. -/
def Unforged (jwt : Api.Jwt) (base : Api.AppState) (start : World)
    (occurrences : List Occurrence) : Prop :=
  ∀ first number state request later,
    occurrences = first ++ .request number state request :: later →
    ∀ arrival, Run (Occurs (Configured jwt base)) start first arrival →
      ∀ token text, request.bearer? = some token → state.decode token = some text →
        Happened (Occurs (Configured jwt base)) (HandsOut token) start first arrival

/-- A request that makes a call arrived with the token of a login, not too long after it, and
either looks up the account, or has found what it is entitled to. -/
inductive Authenticated (jwt : Api.Jwt) (base : Api.AppState) (start : World) (number : Nat)
    (call : RepositoryCall) : List Occurrence → World → Prop
  | intro {request : Api.HttpRequest}
      (login : LoggedIn (Configured jwt base) start (jwt.appState base asked issuing) credentials
        token first arrival)
      (since : Run (Occurs (Configured jwt base)) arrival
        (.request number (jwt.appState base arriving signing) request :: later) world)
      (bearer : request.bearer? = some token)
      (inTime : arriving ≤ issuing + jwt.ttlSeconds + Api.leeway)
      (entitled : call = .user (.findById credentials.id) ∨
        ∃ row, Happened (Occurs (Configured jwt base)) (Sees credentials.id row) arrival
          (.request number (jwt.appState base arriving signing) request :: later) world ∧
          Api.Entitled row.toUser call) :
      Authenticated jwt base start number call
        (first ++ .request number (jwt.appState base arriving signing) request :: later) world

theorem configured_of_mem {jwt : Api.Jwt} {base : Api.AppState} {start world : World}
    {occurrences : List Occurrence}
    (run : Run (Occurs (Configured jwt base)) start occurrences world)
    {number : Nat} {state : Api.AppState} {request : Api.HttpRequest}
    (member : .request number state request ∈ occurrences) :
    ∃ arrival signing, state = jwt.appState base arrival signing := by
  induction run with
  | nil => contradiction
  | snoc _ taken induction =>
      rcases List.mem_append.mp member with earlier | isLast
      · exact induction earlier
      · obtain rfl := List.mem_singleton.mp isLast
        exact taken.1

theorem occurs_of_steps {allowed : World → Occurrence → Prop} {start world : World}
    {occurrences : List Occurrence} (run : Run (Steps step?) start occurrences world)
    (allows : ∀ state, ∀ occurrence ∈ occurrences, allowed state occurrence) :
    Run (Occurs allowed) start occurrences world := by
  induction run with
  | nil => exact .nil
  | snoc _ taken induction =>
      have before := induction fun state occurrence member =>
        allows state occurrence (List.mem_append_left _ member)
      exact before.snoc ⟨allows _ _ (by simp), taken⟩

end World

end

section

attribute [local instance] english

def lockedState : Api.AppState :=
  { rootState with verifyPassword := fun password _ => decide (password = ['p']) }

/-- The only token is `t`; an id is as many zeros as it says. -/
def smallJwt : Api.Jwt where
  encode claims := if claims = ⟨[], 110⟩ then some ['t'] else none
  decode now token := if token = ['t'] ∧ now ≤ 170 then some [] else none
  decode_encode := by
    intro claims token signed now
    split at signed
    · rename_i isClaims
      subst isClaims
      obtain rfl := Option.some.inj signed
      by_cases inTime : now ≤ 170
      · simp [Api.leeway, inTime, Nat.not_lt.mpr inTime]
      · simp [Api.leeway, inTime, Nat.lt_of_not_le inTime]
    · contradiction
  display id := List.replicate id.bits.toNat '0'
  parseStr text := some ⟨BitVec.ofNat 128 text.length⟩
  parseStr_display id := by simp
  ttlSeconds := 100
  ttl_fits := by decide

/-- The super admin logs in, and asks to delete a game in the last second of the session. -/
def lastSecond : List Occurrence :=
  [.request 0 (smallJwt.appState lockedState 5 10) ⟨none, .login (.ok ⟨"root".toList, ['p']⟩)⟩,
    .call 0 rootDraw,
    .request 1 (smallJwt.appState lockedState 170 0)
      ⟨some ("Bearer ".toList ++ ['t']), .deleteGame (.ok ⟨1⟩)⟩,
    .call 1 rootDraw]

def isHanded (number : Nat) (token : Text) (world : World) : Bool :=
  match world.requests number with
  | some (.done (.ok (.loggedIn handed))) => decide (handed = token)
  | _ => false

theorem handed_of_isHanded {number : Nat} {token : Text} {world : World}
    (holds : isHanded number token world = true) :
    world.requests number = some (.done (.ok (.loggedIn token))) := by
  unfold isHanded at holds
  split at holds
  · rename_i known
    obtain rfl := of_decide_eq_true holds
    exact known
  · contradiction

theorem lastSecond_handed :
    (execute World.step? deployed (lastSecond.take 2)).any (isHanded 0 ['t']) = true := by
  decide +kernel

theorem lastSecond_unforged : World.Unforged smallJwt lockedState deployed lastSecond := by
  intro first number state request later split arrival before token text bearer decoded
  rcases first with _ | ⟨login, _ | ⟨call, _ | ⟨again, _ | ⟨last, more⟩⟩⟩⟩
  · obtain ⟨rfl, rfl, rfl⟩ := Occurrence.request.inj (List.cons.inj split).1
    simp [Api.HttpRequest.bearer?] at bearer
  · simp [lastSecond] at split
  · obtain ⟨isLogin, rest⟩ := List.cons.inj split
    obtain ⟨isCall, _⟩ := List.cons.inj rest
    subst isLogin isCall
    obtain ⟨_, login, taken⟩ := (show Run _ deployed ([_] ++ [_]) arrival from before).unsnoc
    have executed : execute World.step? deployed (lastSecond.take 2) = some arrival :=
      execute_of_run (before.mono fun _ _ _ taken => taken.2)
    obtain ⟨isSecond, _⟩ := List.cons.inj (List.cons.inj (List.cons.inj split).2).2
    obtain ⟨_, _, rfl⟩ := Occurrence.request.inj isSecond
    obtain rfl : ['t'] = token := Option.some.inj bearer
    have handed := lastSecond_handed
    rw [executed] at handed
    exact .now login taken ⟨0, rootDraw, rfl, handed_of_isHanded handed⟩
  · simp [lastSecond] at split
  · have length := congrArg List.length split
    simp [lastSecond] at length

end

end Zyndeck
