import Zyndeck.Data.Transaction

namespace Zyndeck.Data

/-! Programs with the statements of another, and two runs of programs that only read. -/

variable {Statement Issued : Type} {Reply : Statement → Type} {Answer : Issued → Type}
  {Fault Failure Refusal Store α β γ δ : Type}

namespace Program

theorem autocommit_bind
    (exec : (statement : Statement) → Store → Except Fault (Reply statement) × Store)
    (program : Program Reply Fault Failure α) (next : α → Program Reply Fault Failure β)
    (store : Store) :
    (program >>= next).autocommit exec store =
      match program.autocommit exec store with
      | (.ok value, after) => (next value).autocommit exec after
      | (.error failure, after) => (.error failure, after) := by
  induction program generalizing store with
  | done result => cases result <;> rfl
  | query statement onFault rest induction =>
      simp only [bind_query, autocommit]
      rcases exec statement store with ⟨_ | reply, after⟩
      · rfl
      · exact induction reply after

def embed (into : Statement → Issued) (reply : ∀ statement, Answer (into statement) →
    Reply statement) (fail : Failure → Refusal) :
    Program Reply Fault Failure α → Program Answer Fault Refusal α
  | .done result => .done (result.mapError fail)
  | .query statement onFault next =>
      .query (into statement) (fail ∘ onFault) fun answer =>
        (next (reply statement answer)).embed into reply fail

theorem autocommit_embed {into : Statement → Issued}
    {reply : ∀ statement, Answer (into statement) → Reply statement} {fail : Failure → Refusal}
    {exec : (statement : Statement) → Store → Except Fault (Reply statement) × Store}
    {execIssued : (issued : Issued) → Store → Except Fault (Answer issued) × Store}
    (same : ∀ statement store, exec statement store =
      ((execIssued (into statement) store).1.map (reply statement),
        (execIssued (into statement) store).2))
    (program : Program Reply Fault Failure α) (store : Store) :
    (program.embed into reply fail).autocommit execIssued store =
      ((program.autocommit exec store).1.mapError fail, (program.autocommit exec store).2) := by
  induction program generalizing store with
  | done result => rfl
  | query statement onFault next induction =>
      rw [embed, autocommit, autocommit, same]
      rcases execIssued (into statement) store with ⟨_ | answer, after⟩
      · rfl
      · exact induction (reply statement answer) after

end Program

inductive Agree (Related : α → β → Prop) : Except Failure α → Except Failure β → Prop
  | ok (related : Related value other) : Agree Related (.ok value) (.ok other)
  | error (failure : Failure) : Agree Related (.error failure) (.error failure)

theorem Agree.eq {result other : Except Failure α} (agree : Agree Eq result other) :
    result = other := by
  cases agree with
  | ok same => rw [same]
  | error => rfl

theorem Agree.refl {Related : α → α → Prop} (related : ∀ value, Related value value)
    (result : Except Failure α) : Agree Related result result := by
  cases result with
  | ok value => exact .ok (related value)
  | error failure => exact .error failure

/-- Each program leaves its store as it is, and their results agree. -/
structure Coupled
    (exec : (statement : Statement) → Store → Except Fault (Reply statement) × Store)
    (first second : Store) (Related : α → β → Prop) (program : Program Reply Fault Failure α)
    (other : Program Reply Fault Failure β) : Prop where
  firstKept : (program.autocommit exec first).2 = first
  secondKept : (other.autocommit exec second).2 = second
  agree : Agree Related (program.autocommit exec first).1 (other.autocommit exec second).1

namespace Coupled

variable {exec : (statement : Statement) → Store → Except Fault (Reply statement) × Store}
  {first second : Store} {Related : α → β → Prop} {After : γ → δ → Prop}

theorem done {result : Except Failure α} {other : Except Failure β}
    (agree : Agree Related result other) :
    Coupled exec first second Related (.done result) (.done other) :=
  ⟨rfl, rfl, agree⟩

theorem refl_done (result : Except Failure α) :
    Coupled exec first second Eq (.done result) (.done result) :=
  .done (.refl (fun _ => rfl) result)

theorem bind {program : Program Reply Fault Failure α} {other : Program Reply Fault Failure β}
    {next : α → Program Reply Fault Failure γ} {otherNext : β → Program Reply Fault Failure δ}
    (coupled : Coupled exec first second Related program other)
    (rest : ∀ value otherValue, Related value otherValue →
      Coupled exec first second After (next value) (otherNext otherValue)) :
    Coupled exec first second After (program >>= next) (other >>= otherNext) := by
  obtain ⟨firstKept, secondKept, agree⟩ := coupled
  have bound := Program.autocommit_bind exec program next first
  have otherBound := Program.autocommit_bind exec other otherNext second
  rcases ran : program.autocommit exec first with ⟨result, left⟩
  rcases otherRan : other.autocommit exec second with ⟨otherResult, otherLeft⟩
  simp only [ran, otherRan] at firstKept secondKept agree bound otherBound
  subst firstKept secondKept
  cases agree with
  | ok related =>
      have ⟨kept, otherKept, agree⟩ := rest _ _ related
      exact ⟨by rw [bound, kept], by rw [otherBound, otherKept], by rwa [bound, otherBound]⟩
  | error failure =>
      exact ⟨by rw [bound], by rw [otherBound], by rw [bound, otherBound]; exact .error failure⟩

theorem done_bind {result : Except Failure α} {next : α → Program Reply Fault Failure γ}
    (rest : ∀ value, result = .ok value → Coupled exec first second Eq (next value) (next value)) :
    Coupled exec first second Eq (.done result >>= next) (.done result >>= next) := by
  cases result with
  | error failure => exact .refl_done _
  | ok value => exact rest value rfl

theorem statement {issued : Statement} {onFault : Fault → Failure}
    {Related : Reply issued → Reply issued → Prop} (firstKept : (exec issued first).2 = first)
    (secondKept : (exec issued second).2 = second)
    (agree : Agree Related (exec issued first).1 (exec issued second).1) :
    Coupled exec first second Related (.statement issued onFault)
      (.statement issued onFault : Program Reply Fault Failure _) := by
  rcases reads : exec issued first with ⟨reply, left⟩
  rcases otherReads : exec issued second with ⟨other, otherLeft⟩
  simp only [reads, otherReads] at firstKept secondKept agree
  subst firstKept secondKept
  cases agree with
  | ok related =>
      refine ⟨?_, ?_, ?_⟩ <;> simp only [Program.statement, Program.autocommit, reads, otherReads]
      exact .ok related
  | error fault =>
      refine ⟨?_, ?_, ?_⟩ <;> simp only [Program.statement, Program.autocommit, reads, otherReads]
      exact .error (onFault fault)

end Coupled

end Zyndeck.Data
