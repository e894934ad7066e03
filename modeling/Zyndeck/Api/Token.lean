import Zyndeck.Api.Entitlement

namespace Zyndeck.Api

/-! The tokens of the sessions. -/

/-- `Claims` of the login; `exp` is in seconds. -/
structure Claims where
  sub : Text
  exp : Nat
  deriving DecidableEq

/-- The leeway that `Validation::new` is documented to grant to `exp`, in seconds. -/
def leeway : Nat := 60

/-- The last second that chrono has a date for. -/
def maxTimestamp : Nat := 8210266876799

/-- What the crates for tokens and ids do: `encode` and `decode` with the keys made of the
secret, and the texts of ids. -/
structure Jwt where
  encode : Claims → Option Text
  /-- The subject of a token, if it is valid at a second. -/
  decode : Nat → Text → Option Text
  /-- A token that the key signed is valid until `exp` and the leeway have passed. -/
  decode_encode : ∀ claims token, encode claims = some token → ∀ now,
    decode now token = if claims.exp + leeway < now then none else some claims.sub
  display : Uuid → Text
  parseStr : Text → Option Uuid
  parseStr_display : ∀ id, parseStr (display id) = some id
  ttlSeconds : Nat
  /-- The cast of the lifetime to `i64` keeps it. -/
  ttl_fits : ttlSeconds < 2 ^ 63

def HttpRequest.bearer? (request : HttpRequest) : Option Text :=
  request.authorization.bind (Str.stripPrefix "Bearer ".toList)

theorem AppState.subject?_eq (state : AppState) (request : HttpRequest) :
    state.subject? request =
      request.bearer?.bind fun token => (state.decode token).bind state.parseUuid := by
  unfold subject? HttpRequest.bearer?
  cases request.authorization with
  | none => rfl
  | some header => rfl

theorem AppState.bearer_of_subject {state : AppState} {request : HttpRequest} {subject : Uuid}
    (named : state.subject? request = some subject) :
    ∃ token text, request.bearer? = some token ∧ state.decode token = some text := by
  rw [AppState.subject?_eq] at named
  obtain ⟨token, bearer, rest⟩ := Option.bind_eq_some_iff.mp named
  obtain ⟨text, decoded, _⟩ := Option.bind_eq_some_iff.mp rest
  exact ⟨token, text, bearer, decoded⟩

namespace Jwt

variable (jwt : Jwt)

/-- `exp` of a token that is issued now.  There is none where chrono panics. -/
def expiry (now : Nat) : Option Nat :=
  if now + jwt.ttlSeconds ≤ maxTimestamp then some (now + jwt.ttlSeconds) else none

def issueToken (now : Nat) (userId : Uuid) : Option Text := do
  let exp ← jwt.expiry now
  jwt.encode ⟨jwt.display userId, exp⟩

/-- The state of the application for a request that arrives at a second, and signs its token
at another one if it is a login. -/
def appState (base : AppState) (arrival signing : Nat) : AppState :=
  { base with
    decode := jwt.decode arrival
    parseUuid := jwt.parseStr
    issueToken := jwt.issueToken signing }

variable {jwt}

theorem decode_issueToken {issuing : Nat} {userId : Uuid} {token : Text}
    (issued : jwt.issueToken issuing userId = some token) (now : Nat) :
    jwt.decode now token =
      if issuing + jwt.ttlSeconds + leeway < now then none else some (jwt.display userId) := by
  obtain ⟨exp, known, signed⟩ := Option.bind_eq_some_iff.mp issued
  unfold expiry at known
  split at known
  · obtain rfl := Option.some.inj known
    exact jwt.decode_encode _ _ signed now
  · contradiction

/-- A request is made by who its token was issued to, up to the expiry and the leeway. -/
theorem subject_of_issued {base : AppState} {arrival signing issuing : Nat} {userId subject : Uuid}
    {token : Text} {request : HttpRequest} (issued : jwt.issueToken issuing userId = some token)
    (bearer : request.bearer? = some token) :
    (jwt.appState base arrival signing).subject? request = some subject ↔
      subject = userId ∧ arrival ≤ issuing + jwt.ttlSeconds + leeway := by
  simp only [AppState.subject?_eq, bearer, appState, decode_issueToken issued, Option.bind_some]
  split
  · simp only [Option.bind_none, reduceCtorEq, false_iff, not_and]
    omega
  · simp only [Option.bind_some, jwt.parseStr_display, Option.some.injEq, eq_comm, iff_self_and]
    omega

end Jwt

end Zyndeck.Api
