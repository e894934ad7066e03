import Zyndeck.Api.User
import Zyndeck.Data.Transition

namespace Zyndeck.Api

open Data

/-! Who becomes an administrator, and who stays one, over a sequence of requests. -/

/-- The administrators are still there, and nobody else became a super admin. -/
structure Lawful (start users : List UserRow) : Prop where
  kept : ∀ row ∈ start, row.role.isAdmin = true → ∃ other ∈ users, other.id = row.id
  granted : ∀ row ∈ users, row.role = .superAdmin →
    ∃ old ∈ start, old.id = row.id ∧ old.role = .superAdmin

/-- No request that gets past the checks makes a super admin of somebody who is none, or a
plain user of an administrator. -/
def Spares (db : Db) (request : Request) : Prop :=
  ∀ caller, db.user? request.subject = some caller → caller.role.isAdmin = true →
    match request.action with
    | .create body _ => body.validate request.validator = .ok () → body.role ≠ .superAdmin
    | .update target body => body.validate request.validator = .ok () →
        ∀ row, db.user? target = some row →
          (body.role = .superAdmin → row.role = .superAdmin) ∧
            (row.role.isAdmin = true → body.role.isAdmin = true)
    | .delete _ => True

def Serves (db : Db) (served : Draw × Request) (next : Db) : Prop :=
  next = (serve served.1 served.2 db).2

structure Guarded (start users : List UserRow) : Prop where
  kept : ∀ row ∈ start, row.role.isAdmin = true →
    ∃ other ∈ users, other.id = row.id ∧ other.role.isAdmin = true
  granted : ∀ row ∈ users, row.role = .superAdmin →
    ∃ old ∈ start, old.id = row.id ∧ old.role = .superAdmin

theorem Guarded.lawful {start users : List UserRow} (guarded : Guarded start users) :
    Lawful start users where
  kept row member isAdmin :=
    have ⟨other, stored, same, _⟩ := guarded.kept row member isAdmin
    ⟨other, stored, same⟩
  granted := guarded.granted

theorem Guarded.create {start users : List UserRow} (guarded : Guarded start users)
    {row : UserRow} (ordinary : row.role ≠ .superAdmin) : Guarded start (users ++ [row]) where
  kept old member isAdmin := by
    have ⟨other, stored, facts⟩ := guarded.kept old member isAdmin
    exact ⟨other, List.mem_append_left _ stored, facts⟩
  granted other member isSuper := by
    rcases List.mem_append.mp member with stored | new
    · exact guarded.granted other stored isSuper
    · obtain rfl := List.mem_singleton.mp new
      contradiction

theorem Guarded.update {start users : List UserRow} (guarded : Guarded start users)
    {target : Uuid} {changes : UserUpdate}
    (spares : ∀ row ∈ users, row.id = target →
      (changes.role = .superAdmin → row.role = .superAdmin) ∧
        (row.role.isAdmin = true → changes.role.isAdmin = true)) :
    Guarded start (updateWhere (·.id = target) (·.change changes) users) where
  kept old member isAdmin := by
    have ⟨other, stored, same, inOffice⟩ := guarded.kept old member isAdmin
    by_cases hit : other.id = target
    · refine ⟨other.change changes, ?_, same, (spares other stored hit).2 inOffice⟩
      exact mem_updateWhere.mpr (.inl ⟨other, stored, decide_eq_true hit, rfl⟩)
    · refine ⟨other, ?_, same, inOffice⟩
      exact mem_updateWhere.mpr (.inr ⟨stored, decide_eq_false hit⟩)
  granted other member isSuper := by
    rcases mem_updateWhere.mp member with ⟨old, stored, hit, rfl⟩ | ⟨stored, _⟩
    · exact guarded.granted old stored ((spares old stored (of_decide_eq_true hit)).1 isSuper)
    · exact guarded.granted other stored isSuper

theorem Guarded.delete {start users : List UserRow} (guarded : Guarded start users)
    (unique : (users.map (·.id)).Nodup) {row : UserRow} (member : row ∈ users)
    (ordinary : row.role.isAdmin = false) : Guarded start (users.filter (·.id ≠ row.id)) where
  kept old stored isAdmin := by
    have ⟨other, present, same, inOffice⟩ := guarded.kept old stored isAdmin
    refine ⟨other, List.mem_filter.mpr ⟨present, decide_eq_true fun sameId => ?_⟩, same, inOffice⟩
    have one := List.inj_on_of_nodup_map unique present member sameId
    rw [one, ordinary] at inOffice
    contradiction
  granted other stored := guarded.granted other (List.mem_filter.mp stored).1

theorem Guarded.step {start : List UserRow} {db : Db} {draw : Draw} {request : Request}
    {users : List UserRow} (unique : (db.users.map (·.id)).Nodup)
    (guarded : Guarded start db.users)
    (outsider : ∀ row ∈ start, row.role = .superAdmin → request.subject ≠ row.id)
    (spares : Spares db request) (served : Served draw db request users) :
    Guarded start users := by
  cases served with
  | unchanged => exact guarded
  | wrote caller found admin issues effect =>
      have ⟨member, isCaller⟩ := (Db.user?_eq_some unique).mp found
      have spares := spares caller found admin
      generalize request.action = action at issues spares
      cases issues with
      | create valid =>
          cases effect with
          | unchanged => exact guarded
          | created row drawn role fresh =>
              exact guarded.create fun isSuper => spares valid (role.symm.trans isSuper)
      | update valid =>
          cases effect with
          | unchanged => exact guarded
          | updated target =>
              refine guarded.update fun row stored isTarget => ?_
              exact spares valid row ((Db.user?_eq_some unique).mpr ⟨stored, isTarget⟩)
      | @delete target row stored allowed =>
          have ⟨present, isTarget⟩ := (Db.user?_eq_some unique).mp stored
          have ordinary : row.role.isAdmin = false := by
            rcases allowed with isSuper | ordinary
            · -- The caller would be one of the initial super admins.
              have ⟨old, known, same, wasSuper⟩ :=
                guarded.granted caller member ((Role.isSuperAdmin_eq _).mp isSuper)
              exact absurd (isCaller.symm.trans same.symm) (outsider old known wasSuper)
            · exact ordinary
          subst isTarget
          cases effect with
          | unchanged => exact guarded
          | deleted => exact guarded.delete unique present ordinary

theorem guarded_of_run {start db : Db} {requests : List (Draw × Request)}
    (unique : (start.users.map (·.id)).Nodup)
    (outsiders : ∀ served ∈ requests, ∀ row ∈ start.users, row.role = .superAdmin →
      served.2.subject ≠ row.id)
    (run : Run (fun db served next => Spares db served.2 ∧ Serves db served next)
      start requests db) : (db.users.map (·.id)).Nodup ∧ Guarded start.users db.users := by
  induction run with
  | nil => exact ⟨unique, fun row member isAdmin => ⟨row, member, rfl, isAdmin⟩,
      fun row member isSuper => ⟨row, member, rfl, isSuper⟩⟩
  | @snoc _ db served next before taken induction =>
      have ⟨spares, isNext⟩ := taken
      have ⟨unique, guarded⟩ := induction fun served member =>
        outsiders served (List.mem_append_left _ member)
      have outsider := outsiders _ (List.mem_append_right _ (List.mem_singleton_self _))
      have effect := serve_cases served.1 served.2 db
      unfold Serves at isNext
      rw [isNext]
      exact ⟨effect.nodup unique, guarded.step unique outsider spares effect⟩

/-- Requests of callers who are no super admins, none of which changes who is an
administrator, remove no administrator and make no super admin. -/
theorem administrators_kept {start db : Db} {requests : List (Draw × Request)}
    (unique : (start.users.map (·.id)).Nodup)
    (outsiders : ∀ served ∈ requests, ∀ row ∈ start.users, row.role = .superAdmin →
      served.2.subject ≠ row.id)
    (run : Run (fun db served next => Spares db served.2 ∧ Serves db served next)
      start requests db) : Lawful start.users db.users :=
  (guarded_of_run unique outsiders run).2.lawful

/-! A table with two administrators and a plain user. -/

def staff : Db where
  users := [⟨⟨1⟩, ['a', 'n', 'n'], [], .admin, 0⟩, ⟨⟨2⟩, ['b', 'o', 'b'], [], .admin, 0⟩,
    ⟨⟨3⟩, ['j', 'o', 'e'], [], .user, 0⟩]
  games := []
  jobs := []
  runs := []
  transcripts := []
  chunks := []
  embeddings := []

def byAnn (action : Action) : Draw × Request := (⟨1, ⟨4⟩⟩, ⟨terse, ⟨1⟩, action⟩)

theorem administrators_kept_deletion :
    let db := (serve ⟨1, ⟨4⟩⟩ ⟨terse, ⟨1⟩, .delete ⟨3⟩⟩ staff).2
    db.users.map (·.id) = [⟨1⟩, ⟨2⟩] ∧ Lawful staff.users db.users := by
  intro db
  have ran : Run (fun db served next => Spares db served.2 ∧ Serves db served next) staff
      [byAnn (.delete ⟨3⟩)] db := .single ⟨fun _ _ _ => trivial, rfl⟩
  exact ⟨by decide +kernel, administrators_kept (by decide) (by decide +kernel) ran⟩

/-- An administrator makes a plain user of the other one, deletes them, and creates a super
admin. -/
theorem administrator_lost :
    let requests := [byAnn (.update ⟨2⟩ ⟨['b', 'o', 'b'], .user⟩), byAnn (.delete ⟨2⟩),
      byAnn (.create ⟨['e', 'v', 'e'], List.replicate 8 'x', .superAdmin⟩ (some []))]
    let db := lastState (fun db served => some (serve served.1 served.2 db).2) staff requests
    Run Serves staff requests db ∧
      (∀ served ∈ requests, ∀ row ∈ staff.users, row.role = .superAdmin →
        served.2.subject ≠ row.id) ∧
      db.users.map (fun row => (row.id, row.role)) =
        [(⟨1⟩, .admin), (⟨3⟩, .user), (⟨4⟩, .superAdmin)] ∧
      ¬ Lawful staff.users db.users := by
  intro requests db
  have final : db.users.map (fun row => (row.id, row.role)) =
      [(⟨1⟩, .admin), (⟨3⟩, .user), (⟨4⟩, .superAdmin)] := by decide +kernel
  refine ⟨?_, by decide +kernel, final, fun lawful => ?_⟩
  · exact (run_lastState (by decide +kernel)).mono fun _ _ _ taken => (Option.some.inj taken).symm
  · have ⟨other, member, same⟩ := lawful.kept ⟨⟨2⟩, ['b', 'o', 'b'], [], .admin, 0⟩
      (by decide) rfl
    have listed : (other.id, other.role) ∈ db.users.map (fun row => (row.id, row.role)) :=
      List.mem_map.mpr ⟨other, member, rfl⟩
    rw [final, same] at listed
    simp at listed

end Zyndeck.Api
