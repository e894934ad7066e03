import Zyndeck.Api.User
import Zyndeck.Data.Transition

namespace Zyndeck.Api

open Data

/-! The requests in flight, whose calls reach the database in any order. -/

inductive Session where
  | arrived (request : Request)
  | handling (caller : User) (program : Handler Response)
  | answered (result : Except ApiError Response)

structure Removal where
  row : UserRow
  caller : Option User

structure Server where
  db : Db
  sessions : List Session
  removals : List Removal

inductive Event where
  | arrive (request : Request)
  | call (session : Nat) (draw : Draw)
  /-- The next call, whose reply is lost. -/
  | lose (session : Nat) (draw : Draw)
  /-- The next call does not reach the database. -/
  | fail (session : Nat)

namespace Session

def settle (caller : User) : Handler Response → Session
  | .done result => .answered result
  | .query call onFault next => .handling caller (.query call onFault next)

def caller? : Session → Option User
  | .handling caller _ => some caller
  | _ => none

def next? : Session → Option UserCall
  | .arrived request => some (.findById request.subject)
  | .handling _ program => program.next?
  | .answered _ => none

/-- The next call, and what the request makes of its reply. -/
def step? (draw : Draw) (db : Db) : Session → Option (Session × Db)
  | .arrived request =>
      match db.findUser request.subject with
      | .ok (some caller) =>
          some (settle caller (respond request.validator caller request.action), db)
      | .ok none => some (.answered (.error .unauthorized), db)
      | .error fault => some (.answered (.error (.ofDb fault)), db)
  | .handling caller (.query call onFault next) =>
      match call.exec draw db with
      | (.ok reply, after) => some (settle caller (next reply), after)
      | (.error fault, after) => some (.answered (.error (onFault fault)), after)
  | _ => none

end Session

namespace Server

def vanished (before after : List UserRow) : List UserRow :=
  before.filter fun row => decide (row.id ∉ after.map (·.id))

def moved (index : Nat) (caller : Option User) (next : Session) (db : Db) (server : Server) :
    Server where
  db
  sessions := server.sessions.set index next
  removals := server.removals ++ (vanished server.db.users db.users).map (⟨·, caller⟩)

def step? (server : Server) : Event → Option Server
  | .arrive request => some { server with sessions := server.sessions ++ [.arrived request] }
  | .call index draw => do
      let session ← server.sessions[index]?
      let (next, db) ← session.step? draw server.db
      some (server.moved index session.caller? next db)
  | .lose index draw => do
      let session ← server.sessions[index]?
      let (_, db) ← session.step? draw server.db
      some (server.moved index session.caller? (.answered (.error .internal)) db)
  | .fail index => do
      let session ← server.sessions[index]?
      let _ ← session.next?
      some { server with sessions := server.sessions.set index (.answered (.error .internal)) }

structure Initial (server : Server) : Prop where
  unique : (server.db.users.map (·.id)).Nodup
  sessions : server.sessions = []
  removals : server.removals = []

end Server

/-! A removal goes wrong only where a target becomes an administrator behind the check. -/

def promotes (draw : Draw) (target : Uuid) : UserCall → Bool
  | .create new => decide (draw.userId = target) && new.role.isAdmin
  | .update id changes => decide (id = target) && changes.role.isAdmin
  | _ => false

/-- The target of a request that has passed its check and is about to delete, unless its
caller is a super admin. -/
def Session.deleting? : Session → Option Uuid
  | .handling caller (.query (.delete target) _ _) =>
      if caller.role.isSuperAdmin then none else some target
  | _ => none

/-- Nobody becomes an administrator between the check and the deletion by an admin. -/
def Server.Calm (server : Server) : Event → Prop
  | .call index draw | .lose index draw =>
      ∀ call ∈ server.sessions[index]?.bind Session.next?, ∀ other ∈ server.sessions,
        ∀ target ∈ other.deleting?, promotes draw target call = false
  | _ => True

instance (server : Server) (event : Event) : Decidable (server.Calm event) :=
  match event with
  | .call _ _ | .lose _ _ =>
      inferInstanceAs (Decidable (∀ call ∈ _, ∀ other ∈ _, ∀ target ∈ _, _ = false))
  | .arrive _ | .fail _ => .isTrue trivial

/-! What holds of the requests in flight. -/

def Harmless (users : List UserRow) (target : Uuid) : Prop :=
  ∀ row ∈ users, row.id = target → row.role.isAdmin = false

inductive Stage (users : List UserRow) (caller : User) : Handler Response → Prop
  | writing (spares : ∀ target, call ≠ .delete target)
      (last : ∀ reply, ∃ result, next reply = .done result) :
      Stage users caller (.query call onFault next)
  | finding (target : Uuid) :
      Stage users caller (.query (.findById target) onFault (removeUser caller target))
  | deleting (allowed : caller.role.isSuperAdmin = true ∨ Harmless users target)
      (last : ∀ reply, ∃ result, next reply = .done result) :
      Stage users caller (.query (.delete target) onFault next)

def Session.Sound (users : List UserRow) : Session → Prop
  | .handling caller program => Stage users caller program
  | _ => True

theorem Harmless.step {draw : Draw} {users after : List UserRow} {call : UserCall}
    {target : Uuid} (harmless : Harmless users target)
    (effect : UserEffect draw users call after) (calm : promotes draw target call = false) :
    Harmless after target := by
  intro row member isTarget
  cases effect with
  | unchanged => exact harmless row member isTarget
  | created new drawn role =>
      rcases List.mem_append.mp member with stored | same
      · exact harmless row stored isTarget
      · obtain rfl := List.mem_singleton.mp same
        simpa [promotes, ← drawn, isTarget, role] using calm
  | updated id =>
      rcases mem_updateWhere.mp member with ⟨old, stored, hit, rfl⟩ | ⟨stored, _⟩
      · have sameTarget : id = target := (of_decide_eq_true hit).symm.trans isTarget
        simpa [promotes, sameTarget, UserRow.change] using calm
      · exact harmless row stored isTarget
  | deleted => exact harmless row (List.mem_filter.mp member).1 isTarget

theorem Session.Sound.step {draw : Draw} {users after : List UserRow} {call : UserCall}
    {session : Session} (sound : session.Sound users)
    (effect : UserEffect draw users call after)
    (calm : ∀ target ∈ session.deleting?, promotes draw target call = false) :
    session.Sound after := by
  cases session with
  | arrived | answered => trivial
  | handling caller program =>
      cases sound with
      | writing spares last => exact .writing spares last
      | finding target => exact .finding target
      | deleting allowed last =>
          refine .deleting ?_ last
          cases isSuper : caller.role.isSuperAdmin with
          | true => exact .inl rfl
          | false =>
              rcases allowed with otherwise | harmless
              · rw [isSuper] at otherwise
                contradiction
              · exact .inr (harmless.step effect (calm _ (by simp [deleting?, isSuper])))

theorem Session.step?_cases {draw : Draw} {db after : Db} {session next : Session}
    (taken : session.step? draw db = some (next, after)) :
    ∃ call, session.next? = some call ∧ UserEffect draw db.users call after.users ∧
      ((∃ result, next = .answered result) ∨
        (∃ validator caller action, session.caller? = none ∧
          next = settle caller (respond validator caller action)) ∨
        ∃ caller onFault rest reply, session = .handling caller (.query call onFault rest) ∧
          (call.exec draw db).1 = .ok reply ∧ next = settle caller (rest reply)) := by
  cases session with
  | arrived request =>
      refine ⟨_, rfl, ?_⟩
      simp only [step?, Db.findUser_eq] at taken
      cases found : db.user? request.subject with
      | none =>
          simp only [found, Option.map_none, Option.some.injEq, Prod.mk.injEq] at taken
          have ⟨isNext, isAfter⟩ := taken
          exact ⟨isAfter ▸ .unchanged, .inl ⟨_, isNext.symm⟩⟩
      | some row =>
          simp only [found, Option.map_some, Option.some.injEq, Prod.mk.injEq] at taken
          have ⟨isNext, isAfter⟩ := taken
          exact ⟨isAfter ▸ .unchanged, .inr (.inl ⟨_, _, _, rfl, isNext.symm⟩)⟩
  | handling caller program =>
      cases program with
      | done => contradiction
      | query call onFault rest =>
          refine ⟨call, rfl, ?_⟩
          have effect := call.effect draw db
          simp only [step?] at taken
          cases executed : call.exec draw db with
          | mk reply reached =>
              rw [executed] at taken effect
              cases reply with
              | error fault =>
                  obtain ⟨rfl, rfl⟩ := Prod.mk.inj (Option.some.inj taken)
                  exact ⟨effect, .inl ⟨_, rfl⟩⟩
              | ok reply =>
                  obtain ⟨rfl, rfl⟩ := Prod.mk.inj (Option.some.inj taken)
                  exact ⟨effect, .inr (.inr ⟨caller, onFault, rest, reply, rfl, rfl, rfl⟩)⟩
  | answered => contradiction

theorem Session.sound_settle {users : List UserRow} {caller : User} {program : Handler Response}
    (stage : (∃ result, program = .done result) ∨ Stage users caller program) :
    (settle caller program).Sound users := by
  cases program with
  | done => trivial
  | query call onFault next =>
      rcases stage with ⟨_, same⟩ | stage
      · contradiction
      · exact stage

theorem Session.sound_respond (users : List UserRow) (validator : Validator) (caller : User)
    (action : Action) : (settle caller (respond validator caller action)).Sound users := by
  have opening := respond_cases validator caller action
  generalize respond validator caller action = program at opening
  cases opening with
  | refused => trivial
  | creating => exact .writing (fun _ => nofun) fun _ => ⟨_, rfl⟩
  | updating => exact .writing (fun _ => nofun) okOr_ends
  | finding => exact .finding _

theorem Session.Sound.next {draw : Draw} {db after : Db} {session next : Session}
    (unique : (db.users.map (·.id)).Nodup) (sound : session.Sound db.users)
    (taken : session.step? draw db = some (next, after)) : next.Sound after.users := by
  have ⟨call, issued, effect, goesOn⟩ := step?_cases taken
  rcases goesOn with ⟨result, rfl⟩ | ⟨validator, caller, action, _, rfl⟩ |
    ⟨caller, onFault, rest, reply, rfl, replied, rfl⟩
  · trivial
  · exact sound_respond ..
  · apply sound_settle
    cases sound with
    | writing spares last => exact .inl (last reply)
    | deleting allowed last => exact .inl (last reply)
    | finding target =>
        cases issued
        generalize after.users = users at effect
        cases effect with
        | unchanged =>
            rcases removeUser_cases caller target reply with
              ⟨failure, refused⟩ | ⟨user, isUser, allowed, removal⟩
            · exact .inl ⟨_, refused⟩
            · rw [removal]
              refine .inr (.deleting (allowed.imp_right fun ordinary => ?_) removal_ends)
              intro row member isTarget
              -- The row with the target's id is the one that was read.
              have found := (Db.user?_eq_some unique).mpr ⟨member, isTarget⟩
              have read : some row.toUser = reply := by
                simpa [UserCall.exec, found] using replied
              obtain rfl := Option.some.inj (read.trans isUser)
              exact ordinary

def Removal.Authorized (removal : Removal) : Prop :=
  removal.row.role.isAdmin = true → removal.caller.any (·.role.isSuperAdmin) = true

instance (removal : Removal) : Decidable removal.Authorized :=
  inferInstanceAs (Decidable (_ = true → _ = true))

/-- A user who was an administrator is removed for a super admin only. -/
theorem Session.Sound.authorized {draw : Draw} {db after : Db} {session next : Session}
    (sound : session.Sound db.users) (taken : session.step? draw db = some (next, after))
    {row : UserRow} (gone : row ∈ Server.vanished db.users after.users) :
    (Removal.mk row session.caller?).Authorized := by
  have ⟨call, issued, effect, _⟩ := step?_cases taken
  have ⟨member, absent⟩ := List.mem_filter.mp gone
  have isDelete := effect.deletes member (of_decide_eq_true absent)
  subst isDelete
  intro isAdmin
  cases session with
  | arrived | answered => simp [next?] at issued
  | handling caller program =>
      cases sound with
      | writing spares last => exact absurd (Option.some.inj issued) (spares _)
      | finding => simp [next?, Program.next?] at issued
      | deleting allowed last =>
          obtain rfl := UserCall.delete.inj (Option.some.inj issued)
          rcases allowed with isSuper | harmless
          · exact isSuper
          · rw [harmless row member rfl] at isAdmin
            contradiction

namespace Server

structure Sound (server : Server) : Prop where
  unique : (server.db.users.map (·.id)).Nodup
  sessions : ∀ session ∈ server.sessions, session.Sound server.db.users
  removals : ∀ removal ∈ server.removals, removal.Authorized

theorem Sound.moved {server : Server} (sound : server.Sound) {index : Nat} {draw : Draw}
    {session next : Session} {after : Db} (isSession : server.sessions[index]? = some session)
    (taken : session.step? draw server.db = some (next, after))
    (calm : ∀ call ∈ session.next?, ∀ other ∈ server.sessions, ∀ target ∈ other.deleting?,
      promotes draw target call = false) {answer : Session} (answers : answer.Sound after.users) :
    (server.moved index session.caller? answer after).Sound := by
  have ⟨call, issued, effect, _⟩ := Session.step?_cases taken
  have own := sound.sessions session (List.mem_of_getElem? isSession)
  exact {
    unique := effect.nodup sound.unique
    sessions := fun other member => by
      rcases List.mem_or_eq_of_mem_set member with stored | rfl
      · exact (sound.sessions other stored).step effect (calm call issued other stored)
      · exact answers
    removals := fun removal member => by
      rcases List.mem_append.mp member with earlier | new
      · exact sound.removals removal earlier
      · obtain ⟨row, gone, rfl⟩ := List.mem_map.mp new
        exact own.authorized taken gone }

theorem Sound.step {server next : Server} {event : Event} (sound : server.Sound)
    (calm : server.Calm event) (taken : server.step? event = some next) : next.Sound := by
  cases event with
  | arrive request =>
      obtain rfl := Option.some.inj taken
      exact { sound with
        sessions := fun session member => by
          rcases List.mem_append.mp member with earlier | new
          · exact sound.sessions session earlier
          · obtain rfl := List.mem_singleton.mp new
            trivial }
  | call index draw =>
      obtain ⟨session, isSession, rest⟩ := Option.bind_eq_some_iff.mp taken
      obtain ⟨⟨answer, after⟩, stepped, ended⟩ := Option.bind_eq_some_iff.mp rest
      obtain rfl := Option.some.inj ended
      have own := sound.sessions session (List.mem_of_getElem? isSession)
      simp only [Calm, isSession, Option.bind_some] at calm
      exact sound.moved isSession stepped calm (own.next sound.unique stepped)
  | lose index draw =>
      obtain ⟨session, isSession, rest⟩ := Option.bind_eq_some_iff.mp taken
      obtain ⟨⟨answer, after⟩, stepped, ended⟩ := Option.bind_eq_some_iff.mp rest
      obtain rfl := Option.some.inj ended
      simp only [Calm, isSession, Option.bind_some] at calm
      exact sound.moved isSession stepped calm trivial
  | fail index =>
      obtain ⟨session, isSession, rest⟩ := Option.bind_eq_some_iff.mp taken
      obtain ⟨_, _, ended⟩ := Option.bind_eq_some_iff.mp rest
      obtain rfl := Option.some.inj ended
      exact { sound with
        sessions := fun other member => by
          rcases List.mem_or_eq_of_mem_set member with stored | rfl
          · exact sound.sessions other stored
          · trivial }

/-- Where nobody becomes an administrator between a check and its deletion, a user who is an
administrator when a `DELETE` removes them is removed for a super admin. -/
theorem deletions_authorized {start server : Server} {events : List Event}
    (initial : start.Initial)
    (run : Run (fun server event next => server.Calm event ∧ server.step? event = some next)
      start events server) : ∀ removal ∈ server.removals, removal.Authorized := by
  have sound : server.Sound := by
    refine run.invariant (fun _ _ _ sound step => sound.step step.1 step.2) ?_
    exact {
      unique := initial.unique
      sessions := by simp [initial.sessions]
      removals := by simp [initial.removals] }
  exact sound.removals

end Server

/-! A request that is alone is served as it is by itself. -/

theorem step?_alone {draw : Draw} {db after : Db} {session next : Session}
    {removals : List Removal} (taken : session.step? draw db = some (next, after)) :
    Steps Server.step? ⟨db, [session], removals⟩ (.call 0 draw)
      ⟨after, [next], removals ++ (Server.vanished db.users after.users).map
        (⟨·, session.caller?⟩)⟩ := by
  simp [Steps, Server.step?, taken, Server.moved]

theorem run_handling (draw : Draw) (caller : User) (program : Handler Response) (db : Db)
    (removals : List Removal) :
    ∃ events later, Run (Steps Server.step?) ⟨db, [.settle caller program], removals⟩ events
      ⟨(program.autocommit (UserCall.exec draw) db).2,
        [.answered (program.autocommit (UserCall.exec draw) db).1], later⟩ := by
  induction program generalizing db removals with
  | done result => exact ⟨[], removals, .nil⟩
  | query call onFault next induction =>
      cases executed : call.exec draw db with
      | mk reply after =>
          cases reply with
          | error fault =>
              have taken : (Session.handling caller (.query call onFault next)).step? draw db =
                  some (.answered (.error (onFault fault)), after) := by
                simp [Session.step?, executed]
              simp only [Program.autocommit, executed]
              exact ⟨_, _, .single (step?_alone taken)⟩
          | ok reply =>
              have taken : (Session.handling caller (.query call onFault next)).step? draw db =
                  some (.settle caller (next reply), after) := by
                simp [Session.step?, executed]
              simp only [Program.autocommit, executed]
              obtain ⟨events, later, rest⟩ := induction reply after
                (removals ++ (Server.vanished db.users after.users).map (⟨·, some caller⟩))
              exact ⟨_, later, .cons (step?_alone taken) rest⟩

theorem serve_alone (draw : Draw) (request : Request) (db : Db) :
    ∃ events later, Run (Steps Server.step?) ⟨db, [.arrived request], []⟩ events
      ⟨(serve draw request db).2, [.answered (serve draw request db).1], later⟩ := by
  cases found : db.user? request.subject with
  | none =>
      have taken : (Session.arrived request).step? draw db =
          some (.answered (.error .unauthorized), db) := by
        simp [Session.step?, found]
      rw [serve_unknown found]
      exact ⟨_, _, .single (step?_alone taken)⟩
  | some caller =>
      have taken : (Session.arrived request).step? draw db =
          some (.settle caller.toUser
            (respond request.validator caller.toUser request.action), db) := by
        simp [Session.step?, found]
      rw [serve_known found]
      have ⟨events, later, rest⟩ := run_handling draw caller.toUser
        (respond request.validator caller.toUser request.action) db
        ([] ++ (Server.vanished db.users db.users).map (⟨·, none⟩))
      exact ⟨_, later, .cons (step?_alone taken) rest⟩

/-! A super admin, an administrator and a plain user. -/

def household : Db where
  users := [⟨⟨1⟩, ['r', 'o', 'o', 't'], [], .superAdmin, 0⟩, ⟨⟨2⟩, ['a', 'n', 'n'], [], .admin, 0⟩,
    ⟨⟨3⟩, ['j', 'o', 'e'], [], .user, 0⟩]
  games := []
  jobs := []
  runs := []
  transcripts := []
  chunks := []
  embeddings := []

def idle : Server := ⟨household, [], []⟩

theorem idle_initial : idle.Initial := ⟨by decide, rfl, rfl⟩

theorem deletions_authorized_super_admin :
    let events := .arrive ⟨terse, ⟨1⟩, .delete ⟨2⟩⟩ :: List.replicate 3 (.call 0 ⟨0, ⟨4⟩⟩)
    let server := lastState (permit? Server.Calm Server.step?) idle events
    server.removals.map (fun removal => (removal.row.role, removal.caller.map (·.role))) =
        [(.admin, some .superAdmin)] ∧
      ∀ removal ∈ server.removals, removal.Authorized :=
  ⟨by decide +kernel,
    Server.deletions_authorized idle_initial (run_lastState (by decide +kernel)).of_permitted⟩

/-- While an administrator deletes a plain user, the super admin makes an administrator of the
user, between the check and the `DELETE`. -/
theorem administrator_deleted :
    let events := [.arrive ⟨terse, ⟨2⟩, .delete ⟨3⟩⟩,
      .arrive ⟨terse, ⟨1⟩, .update ⟨3⟩ ⟨['j', 'o', 'e'], .admin⟩⟩, .call 0 ⟨0, ⟨4⟩⟩,
      .call 0 ⟨0, ⟨4⟩⟩, .call 1 ⟨0, ⟨4⟩⟩, .call 1 ⟨0, ⟨4⟩⟩, .call 0 ⟨0, ⟨4⟩⟩]
    let server := lastState Server.step? idle events
    idle.Initial ∧ Run (Steps Server.step?) idle events server ∧
      server.removals.map (fun removal => (removal.row.role, removal.caller.map (·.role))) =
        [(.admin, some .admin)] ∧
      ¬ ∀ removal ∈ server.removals, removal.Authorized := by
  intro events server
  have removed : server.removals.map
      (fun removal => (removal.row.role, removal.caller.map (·.role))) =
        [(.admin, some .admin)] := by decide +kernel
  exact ⟨idle_initial, run_lastState (by decide +kernel), removed, by decide +kernel⟩

end Zyndeck.Api
