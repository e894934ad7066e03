import Zyndeck.Data.Coupling
import Zyndeck.Data.Transition

namespace Zyndeck.Data

/-! What has happened along a run, and what a program does whatever it is answered. -/

/-- A step with a property was taken on the way from `start`. -/
inductive Happened (step property : σ → ε → σ → Prop) (start : σ) : List ε → σ → Prop
  | now (before : Run step start events state) (taken : step state event next)
      (holds : property state event next) : Happened step property start (events ++ [event]) next
  | later (happened : Happened step property start events state) (taken : step state event next) :
      Happened step property start (events ++ [event]) next

namespace Program

variable {Statement Issued : Type} {Reply : Statement → Type} {Answer : Issued → Type}
  {Fault Failure Refusal α β : Type}

/-- Whatever it is answered, a program issues only statements that are `allowed`, and has
only results that are `proper`. -/
def Always (allowed : Statement → Prop) (proper : α → Prop) :
    Program Reply Fault Failure α → Prop
  | .done result => ∀ value, result = .ok value → proper value
  | .query statement _ next => allowed statement ∧ ∀ reply, (next reply).Always allowed proper

namespace Always

variable {allowed : Statement → Prop} {proper : α → Prop}

theorem refused {failure : Failure} :
    (Program.done (.error failure) : Program Reply Fault Failure α).Always allowed proper :=
  fun _ isValue => by contradiction

theorem mono {wider : Statement → Prop} {program : Program Reply Fault Failure α}
    (always : program.Always allowed proper)
    (widen : ∀ statement, allowed statement → wider statement) :
    program.Always wider proper := by
  induction program with
  | done => exact always
  | query statement onFault next induction =>
      exact ⟨widen statement always.1, fun reply => induction reply (always.2 reply)⟩

theorem bind {after : β → Prop} {program : Program Reply Fault Failure α}
    {next : α → Program Reply Fault Failure β} (always : program.Always allowed proper)
    (rest : ∀ value, proper value → (next value).Always allowed after) :
    (program >>= next).Always allowed after := by
  induction program with
  | done result =>
      cases result with
      | ok value => exact rest value (always value rfl)
      | error => exact refused
  | query statement onFault reply induction =>
      exact ⟨always.1, fun answer => induction answer (always.2 answer)⟩

theorem embed {wider : Issued → Prop} {into : Statement → Issued}
    {reply : ∀ statement, Answer (into statement) → Reply statement} {fail : Failure → Refusal}
    {program : Program Reply Fault Failure α} (always : program.Always allowed proper)
    (widen : ∀ statement, allowed statement → wider (into statement)) :
    (program.embed into reply fail).Always wider proper := by
  induction program with
  | done result =>
      cases result with
      | ok value =>
          rintro _ ⟨⟩
          exact always value rfl
      | error => exact refused
  | query statement onFault next induction =>
      exact ⟨widen statement always.1, fun answer => induction _ (always.2 _)⟩

end Always

end Program

end Zyndeck.Data
