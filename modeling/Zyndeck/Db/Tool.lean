import Zyndeck.Core.Str

namespace Zyndeck.Tool

/-! What the operator is shown before the database is dropped. -/

/-- The URL with the password hidden. -/
def redacted (url : Text) : Text :=
  match Str.find "://".toList url, Str.find ['@'] url with
  | some schemeEnd, some sign =>
      if schemeEnd + 3 < sign then
        let creds := (url.take sign).drop (schemeEnd + 3)
        let user := creds.takeWhile (· ≠ ':')
        url.take schemeEnd ++ "://".toList ++ user ++ ":***@".toList ++ url.drop (sign + 1)
      else url
  | _, _ => url

/-- The question of `confirm`. -/
def prompt (url : Text) : Text :=
  "This will DROP and recreate the database at ".toList ++ redacted url ++
    ".\nAll data will be lost. Continue? [y/N] ".toList

theorem prompt_eq_iff {url other : Text} :
    prompt url = prompt other ↔ redacted url = redacted other := by
  have framed (front back first second : Text) :
      front ++ first ++ back = front ++ second ++ back ↔ first = second := by simp
  exact framed _ _ _ _

def connectionUrl (scheme user password rest : Text) : Text :=
  scheme ++ "://".toList ++ user ++ ':' :: password ++ '@' :: rest

def afterSign : Text → Option Text
  | [] => none
  | char :: rest => if char = '@' then some rest else afterSign rest

def shown (password rest : Text) : Text :=
  match afterSign password with
  | none => rest
  | some exposed => exposed ++ '@' :: rest

theorem exists_sign (password rest : Text) :
    ∃ front, '@' ∉ front ∧ password ++ '@' :: rest = front ++ '@' :: shown password rest := by
  induction password with
  | nil => exact ⟨[], List.not_mem_nil, rfl⟩
  | cons char password induction =>
      by_cases sign : char = '@'
      · refine ⟨[], List.not_mem_nil, ?_⟩
        rw [shown, afterSign, if_pos sign, sign]
        rfl
      · obtain ⟨front, absent, split⟩ := induction
        refine ⟨char :: front, by simp [absent, eq_comm, sign], ?_⟩
        rw [List.cons_append, List.cons_append, split, shown, shown, afterSign, if_neg sign]

theorem shown_eq_iff {password other rest : Text} :
    shown password rest = shown other rest ↔ afterSign password = afterSign other := by
  constructor
  · unfold shown
    intro same
    have lengths := congrArg List.length same
    cases exposed : afterSign password with
    | none =>
        cases alsoExposed : afterSign other with
        | none => rfl
        | some tail => simp [exposed, alsoExposed] at lengths; omega
    | some tail =>
        cases alsoExposed : afterSign other with
        | none => simp [exposed, alsoExposed] at lengths; omega
        | some otherTail =>
            simp only [exposed, alsoExposed] at same
            rw [List.append_cancel_right same]
  · intro same
    rw [shown, shown, same]

section

variable {scheme user : Text} (schemeColon : ':' ∉ scheme) (schemeSign : '@' ∉ scheme)
  (userColon : ':' ∉ user) (userSign : '@' ∉ user)

include schemeColon schemeSign userColon userSign

theorem redacted_connectionUrl (password rest : Text) :
    redacted (connectionUrl scheme user password rest) =
      scheme ++ "://".toList ++ user ++ ":***@".toList ++ shown password rest := by
  obtain ⟨front, absent, split⟩ := exists_sign password rest
  let lead := scheme ++ "://".toList
  let creds := user ++ ':' :: front
  have whole : connectionUrl scheme user password rest =
      lead ++ creds ++ '@' :: shown password rest := by
    simp [connectionUrl, split, lead, creds]
  have schemeEnd : Str.find "://".toList (connectionUrl scheme user password rest) =
      some scheme.length := by
    rw [whole, List.append_assoc, List.append_assoc]
    exact Str.find_append schemeColon ['/', '/'] _
  have sign : Str.find ['@'] (connectionUrl scheme user password rest) =
      some (lead ++ creds).length := by
    rw [whole]
    refine Str.find_append ?_ [] _
    simp [lead, creds, schemeSign, userSign, absent]
  have leadLength : lead.length = scheme.length + 3 := List.length_append
  have isScheme : (connectionUrl scheme user password rest).take scheme.length = scheme := by
    rw [whole, List.append_assoc, List.append_assoc, List.take_left]
  have isCreds : ((connectionUrl scheme user password rest).take (lead ++ creds).length).drop
      (scheme.length + 3) = creds := by
    rw [whole, List.take_left, ← leadLength, List.drop_left]
  have isRest : (connectionUrl scheme user password rest).drop ((lead ++ creds).length + 1) =
      shown password rest := by
    rw [whole, ← List.drop_drop, List.drop_left]
    rfl
  have isUser : creds.takeWhile (· ≠ ':') = user := by
    have noColon : ∀ char ∈ user, decide (char ≠ ':') = true :=
      fun char member => decide_eq_true fun same => userColon (same ▸ member)
    rw [List.takeWhile_append_of_pos noColon, List.takeWhile_cons_of_neg (by simp),
      List.append_nil]
  have after : scheme.length + 3 < (lead ++ creds).length := by
    rw [List.length_append, leadLength, List.length_append, List.length_cons]
    omega
  rw [redacted, schemeEnd, sign]
  simp only [if_pos after, isScheme, isCreds, isRest, isUser]

/-- Two passwords are shown alike if and only if they agree on what is after their first `@`,
or have none. -/
theorem redacted_eq_iff (password other rest : Text) :
    redacted (connectionUrl scheme user password rest) =
        redacted (connectionUrl scheme user other rest) ↔
      afterSign password = afterSign other := by
  rw [redacted_connectionUrl schemeColon schemeSign userColon userSign,
    redacted_connectionUrl schemeColon schemeSign userColon userSign, List.append_right_inj,
    shown_eq_iff]

end

def pg : Text := ['p', 'g']

def ann : Text := ['a', 'n', 'n']

def host : Text := ['h', 'o', 's', 't', '/', 'd', 'b']

theorem redacted_eq_of_plain :
    redacted (connectionUrl pg ann ['s', 'e', 's', 'a', 'm', 'e'] host) =
      redacted (connectionUrl pg ann ['x'] host) :=
  (redacted_eq_iff (by decide) (by decide) (by decide) (by decide) _ _ host).mpr (by decide)

/-- The end of a password with an `@` is shown. -/
theorem password_shown :
    redacted (connectionUrl pg ann ['p', '@', 's', 's'] host) =
        "pg://ann:***@ss@host/db".toList ∧
      ¬ ∀ scheme user password other rest : Text,
        (∀ char ∈ scheme ++ user, char ≠ ':' ∧ char ≠ '/' ∧ char ≠ '@') →
          (∀ char ∈ password ++ other, char ≠ '/' ∧ char ≠ '?' ∧ char ≠ '#') →
            redacted (connectionUrl scheme user password rest) =
              redacted (connectionUrl scheme user other rest) := by
  refine ⟨by decide, fun all => ?_⟩
  have same := all pg ann ['p', '@', 's', 's'] ['x'] host (by simp [pg, ann]) (by simp)
  exact absurd same (by decide)

end Zyndeck.Tool
