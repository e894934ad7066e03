import Zyndeck.Db.User

namespace Zyndeck.Api

open Data

/-! The handlers of the routes that change users. -/

inductive ApiError where
  | unauthorized
  | forbidden
  | notFound
  /-- `username {name:?} is already taken`. -/
  | conflict (username : Text)
  | validation (message : Text)
  | internal
  deriving DecidableEq

/-- `ApiError::from(db::Error)`. -/
def ApiError.ofDb : Error → ApiError
  | .usernameTaken username => .conflict username
  | _ => .internal

structure CreateUserRequest where
  username : Text
  password : Text
  role : Role

structure UpdateUserRequest where
  username : Text
  role : Role

inductive FieldError where
  | length (field : String) (min max : Option Nat) (value : Text)
  | custom (field code : String)
  deriving DecidableEq

/-- What the `validator` crate does for a request. -/
structure Validator where
  validateLength : Text → Option Nat → Option Nat → Bool
  /-- The length is documented to be that in characters. -/
  validateLength_iff : ∀ text min max, validateLength text min max = true ↔
    (∀ bound ∈ min, bound ≤ text.length) ∧ ∀ bound ∈ max, text.length ≤ bound
  /-- The end of a derived `validate`, with its error as displayed: the errors are in a hash map,
  and so in any order. -/
  report : List FieldError → Except Text Unit
  /-- It is documented to succeed exactly when no check fails. -/
  report_iff : ∀ errors, report errors = .ok () ↔ errors = []

namespace Validator

/-- `#[validate(length(min, max))]` on a field. -/
def length (validator : Validator) (field : String) (min max : Option Nat) (value : Text) :
    List FieldError :=
  if validator.validateLength value min max then [] else [.length field min max value]

/-- `body.validate()?`, of what its checks find. -/
def check (validator : Validator) (errors : List FieldError) : Except ApiError Unit :=
  (validator.report errors).mapError .validation

theorem check_iff (validator : Validator) (errors : List FieldError) :
    validator.check errors = .ok () ↔ errors = [] := by
  rw [← validator.report_iff, check]
  cases validator.report errors <;> simp [Except.mapError]

theorem length_iff (validator : Validator) (field : String) (min max : Option Nat) (value : Text) :
    validator.length field min max value = [] ↔
      (∀ bound ∈ min, bound ≤ value.length) ∧ ∀ bound ∈ max, value.length ≤ bound := by
  rw [← validator.validateLength_iff, length]
  split <;> simp_all

end Validator

def CreateUserRequest.validate (validator : Validator) (body : CreateUserRequest) :
    Except ApiError Unit :=
  validator.check (validator.length "username" (some 1) (some 100) body.username ++
    validator.length "password" (some 8) (some 128) body.password)

def UpdateUserRequest.validate (validator : Validator) (body : UpdateUserRequest) :
    Except ApiError Unit :=
  validator.check (validator.length "username" (some 1) (some 100) body.username)

theorem CreateUserRequest.validate_iff (validator : Validator) (body : CreateUserRequest) :
    body.validate validator = .ok () ↔
      (1 ≤ body.username.length ∧ body.username.length ≤ 100) ∧
        8 ≤ body.password.length ∧ body.password.length ≤ 128 := by
  simp [validate, Validator.check_iff, Validator.length_iff]

inductive Response where
  | created (user : User)
  | ok (user : User)
  | noContent
  deriving DecidableEq

abbrev Handler (α : Type) := Program UserCall.Reply Error ApiError α

def ask (call : UserCall) : Handler call.Reply := .statement call .ofDb

def okOr (failure : ApiError) : Option α → Handler α
  | some value => pure value
  | none => .throw failure

/-- The caller that a verified token names, loaded afresh. -/
def authUser (subject : Uuid) : Handler User := do
  let found ← ask (.findById subject)
  okOr .unauthorized found

def requireAdmin (user : User) : Except ApiError Unit :=
  if user.role.isAdmin then .ok () else .error .forbidden

/-- `hashed` is what `hash_password` returns for the password. -/
def createUser (validator : Validator) (caller : User) (body : CreateUserRequest)
    (hashed : Option Text) : Handler Response := do
  .done (requireAdmin caller)
  .done (body.validate validator)
  let passwordHash ← okOr .internal hashed
  let user ← ask (.create ⟨body.username, passwordHash, body.role⟩)
  pure (.created user)

def updateUser (validator : Validator) (caller : User) (target : Uuid) (body : UpdateUserRequest) :
    Handler Response := do
  .done (requireAdmin caller)
  .done (body.validate validator)
  let found ← ask (.update target ⟨body.username, body.role⟩)
  let user ← okOr .notFound found
  pure (.ok user)

def removeUser (caller : User) (target : Uuid) (found : Option User) : Handler Response := do
  let user ← okOr .notFound found
  if !caller.role.isSuperAdmin && user.role.isAdmin then .throw .forbidden
  else do
    let removed ← ask (.delete target)
    if removed then pure .noContent else .throw .notFound

def deleteUser (caller : User) (target : Uuid) : Handler Response := do
  .done (requireAdmin caller)
  let found ← ask (.findById target)
  removeUser caller target found

inductive Action where
  | create (body : CreateUserRequest) (hashed : Option Text)
  | update (target : Uuid) (body : UpdateUserRequest)
  | delete (target : Uuid)

structure Request where
  validator : Validator
  subject : Uuid
  action : Action

def respond (validator : Validator) (caller : User) : Action → Handler Response
  | .create body hashed => createUser validator caller body hashed
  | .update target body => updateUser validator caller target body
  | .delete target => deleteUser caller target

def handle (request : Request) : Handler Response := do
  let caller ← authUser request.subject
  respond request.validator caller request.action

def serve (draw : Draw) (request : Request) (db : Db) : Except ApiError Response × Db :=
  (handle request).autocommit (UserCall.exec draw) db

/-! What the handlers issue. -/

inductive Opening (validator : Validator) (caller : User) : Action → Handler Response → Prop
  | refused (failure : ApiError) : Opening validator caller action (.done (.error failure))
  | creating (admin : caller.role.isAdmin = true) (valid : body.validate validator = .ok ()) :
      Opening validator caller (.create body hashed)
        (.query (.create ⟨body.username, passwordHash, body.role⟩) .ofDb
          fun user => .done (.ok (.created user)))
  | updating (admin : caller.role.isAdmin = true) (valid : body.validate validator = .ok ()) :
      Opening validator caller (.update target body)
        (.query (.update target ⟨body.username, body.role⟩) .ofDb
          fun found => okOr .notFound found >>= fun user => pure (.ok user))
  | finding (admin : caller.role.isAdmin = true) :
      Opening validator caller (.delete target)
        (.query (.findById target) .ofDb (removeUser caller target))

theorem respond_cases (validator : Validator) (caller : User) (action : Action) :
    Opening validator caller action (respond validator caller action) := by
  cases action with
  | create body hashed =>
      simp only [respond, createUser, requireAdmin]
      split
      · cases valid : body.validate validator with
        | error failure => exact .refused _
        | ok =>
            cases hashed with
            | none => exact .refused _
            | some passwordHash => exact .creating ‹_› valid
      · exact .refused _
  | update target body =>
      simp only [respond, updateUser, requireAdmin]
      split
      · cases valid : body.validate validator with
        | error failure => exact .refused _
        | ok => exact .updating ‹_› valid
      · exact .refused _
  | delete target =>
      simp only [respond, deleteUser, requireAdmin]
      split
      · exact .finding ‹_›
      · exact .refused _

theorem removeUser_cases (caller : User) (target : Uuid) (found : Option User) :
    (∃ failure, removeUser caller target found = .done (.error failure)) ∨
      ∃ user, found = some user ∧
        (caller.role.isSuperAdmin = true ∨ user.role.isAdmin = false) ∧
        removeUser caller target found = .query (.delete target) .ofDb fun removed =>
          if removed then .done (.ok .noContent) else .done (.error .notFound) := by
  cases found with
  | none => exact .inl ⟨_, rfl⟩
  | some user =>
      by_cases barred : (!caller.role.isSuperAdmin && user.role.isAdmin) = true
      · exact .inl ⟨.forbidden, if_pos barred⟩
      · refine .inr ⟨user, rfl, ?_, if_neg barred⟩
        cases isSuper : caller.role.isSuperAdmin <;> simp_all

inductive Issues (validator : Validator) (db : Db) (role : Role) : Action → UserCall → Prop
  | create (valid : body.validate validator = .ok ()) :
      Issues validator db role (.create body hashed)
        (.create ⟨body.username, passwordHash, body.role⟩)
  | update (valid : body.validate validator = .ok ()) :
      Issues validator db role (.update target body) (.update target ⟨body.username, body.role⟩)
  | delete (found : db.user? target = some row)
      (allowed : role.isSuperAdmin = true ∨ row.role.isAdmin = false) :
      Issues validator db role (.delete target) (.delete target)

inductive Served (draw : Draw) (db : Db) (request : Request) : List UserRow → Prop
  | unchanged : Served draw db request db.users
  | wrote (caller : UserRow) (found : db.user? request.subject = some caller)
      (admin : caller.role.isAdmin = true)
      (issues : Issues request.validator db caller.role request.action call)
      (effect : UserEffect draw db.users call users) : Served draw db request users

theorem Served.nodup {draw : Draw} {db : Db} {request : Request} {users : List UserRow}
    (served : Served draw db request users) (unique : (db.users.map (·.id)).Nodup) :
    (users.map (·.id)).Nodup := by
  cases served with
  | unchanged => exact unique
  | wrote _ _ _ _ effect => exact effect.nodup unique

theorem autocommit_last {draw : Draw} {db : Db} {call : UserCall}
    {next : call.Reply → Handler Response} (last : ∀ reply, ∃ result, next reply = .done result) :
    ((Program.query call .ofDb next).autocommit (UserCall.exec draw) db).2 =
      (call.exec draw db).2 := by
  unfold Program.autocommit
  cases call.exec draw db with
  | mk reply after =>
      cases reply with
      | error fault => rfl
      | ok reply =>
          obtain ⟨result, ended⟩ := last reply
          simp [ended, Program.autocommit]

theorem okOr_ends (found : Option User) :
    ∃ result, (okOr .notFound found >>= fun user => pure (.ok user) : Handler Response) =
      .done result := by
  cases found with
  | none => exact ⟨_, rfl⟩
  | some user => exact ⟨_, rfl⟩

theorem removal_ends (removed : Bool) :
    ∃ result, (if removed then .done (.ok .noContent) else .done (.error .notFound) :
      Handler Response) = .done result := by
  cases removed with
  | false => exact ⟨_, rfl⟩
  | true => exact ⟨_, rfl⟩

theorem serve_unknown {draw : Draw} {request : Request} {db : Db}
    (unknown : db.user? request.subject = none) :
    serve draw request db = (.error .unauthorized, db) := by
  simp [serve, handle, authUser, ask, Program.statement, Program.autocommit, UserCall.exec,
    unknown, okOr, Program.throw]

theorem serve_known {draw : Draw} {request : Request} {db : Db} {caller : UserRow}
    (found : db.user? request.subject = some caller) :
    serve draw request db =
      (respond request.validator caller.toUser request.action).autocommit
        (UserCall.exec draw) db := by
  simp [serve, handle, authUser, ask, Program.statement, Program.autocommit, UserCall.exec,
    found, okOr]

theorem serve_cases (draw : Draw) (request : Request) (db : Db) :
    Served draw db request (serve draw request db).2.users := by
  have ⟨validator, subject, action⟩ := request
  cases found : db.user? subject with
  | none =>
      rw [serve_unknown found]
      exact .unchanged
  | some caller =>
      rw [serve_known found]
      have opening := respond_cases validator caller.toUser action
      generalize respond validator caller.toUser action = program at opening
      cases opening with
      | refused => exact .unchanged
      | creating admin valid =>
          rw [autocommit_last fun user => ⟨_, rfl⟩]
          exact .wrote caller found admin (.create valid) (UserCall.effect ..)
      | updating admin valid =>
          rw [autocommit_last okOr_ends]
          exact .wrote caller found admin (.update valid) (UserCall.effect ..)
      | @finding target admin =>
          have read : (Program.query (.findById target) .ofDb
              (removeUser caller.toUser target)).autocommit (UserCall.exec draw) db =
                (removeUser caller.toUser target
                  ((db.user? target).map UserRow.toUser)).autocommit (UserCall.exec draw) db := by
            simp [Program.autocommit, UserCall.exec]
          rw [read]
          rcases removeUser_cases caller.toUser target ((db.user? target).map UserRow.toUser) with
            ⟨failure, refused⟩ | ⟨user, isTarget, allowed, removal⟩
          · rw [refused]
            exact .unchanged
          · obtain ⟨row, stored, rfl⟩ := Option.map_eq_some_iff.mp isTarget
            rw [removal, autocommit_last removal_ends]
            exact .wrote caller found admin (.delete stored allowed) (UserCall.effect ..)

/-- A validator that says only that something is wrong. -/
def terse : Validator where
  validateLength text min max :=
    min.all (decide <| · ≤ text.length) && max.all (decide <| text.length ≤ ·)
  validateLength_iff text min max := by
    cases min <;> cases max <;> simp
  report errors := if errors = [] then .ok () else .error "invalid".toList
  report_iff errors := by split <;> simp_all

end Zyndeck.Api
