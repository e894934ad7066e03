import Zyndeck.Data.Coupling

namespace Zyndeck.Data.Program

/-! Programs that change their store at most once, with the statement that lets them succeed. -/

variable {Statement Issued : Type} {Reply : Statement → Type} {Answer : Issued → Type}
  {Draw Fault Failure Refusal Store α β : Type}

/-- A statement fails or replies with what is `silent`, on its store as it was, or its reply is
`told` of the store it leaves. -/
inductive Reports {ρ : Type} (silent : ρ → Prop) (told : ρ → Store → Prop) (store : Store) :
    Except Fault ρ × Store → Prop
  | fault (fault : Fault) : Reports silent told store (.error fault, store)
  | silent (kept : silent reply) : Reports silent told store (.ok reply, store)
  | told (holds : told reply after) : Reports silent told store (.ok reply, after)

/-- Over `sound` stores, a statement that changes the store is the last one, and the program
then succeeds with a value that `tells` of the store it leaves. -/
def Commits (exec : Draw → (statement : Statement) → Store → Except Fault (Reply statement) × Store)
    (sound : Store → Prop) (tells : α → Store → Prop) : Program Reply Fault Failure α → Prop
  | .done result => ∀ value, result ≠ .ok value
  | .query statement _ next => ∀ draw store, sound store →
      match exec draw statement store with
      | (.error _, after) => after = store
      | (.ok reply, after) =>
          (∃ value, next reply = .done (.ok value) ∧ tells value after) ∨
            after = store ∧ (next reply).Commits exec sound tells

namespace Commits

variable {exec : Draw → (statement : Statement) → Store → Except Fault (Reply statement) × Store}
  {sound : Store → Prop} {tells : α → Store → Prop}

theorem refused {failure : Failure} :
    (Program.done (.error failure) : Program Reply Fault Failure α).Commits exec sound tells :=
  fun _ isValue => by contradiction

theorem quiet {result : Except Failure β} {next : β → Program Reply Fault Failure α}
    (rest : ∀ value, result = .ok value → (next value).Commits exec sound tells) :
    (Program.done result >>= next).Commits exec sound tells := by
  cases result with
  | ok value => exact rest value rfl
  | error => exact refused

theorem reads {statement : Statement} {onFault : Fault → Failure}
    {next : Reply statement → Program Reply Fault Failure α}
    (kept : ∀ draw store, (exec draw statement store).2 = store)
    (rest : ∀ reply, (next reply).Commits exec sound tells) :
    (Program.query statement onFault next).Commits exec sound tells := by
  intro draw store _
  have same := kept draw store
  generalize exec draw statement store = ended at same ⊢
  rcases ended with ⟨_ | reply, after⟩
  · exact same
  · exact .inr ⟨same, rest reply⟩

theorem last {statement : Statement} {onFault : Fault → Failure}
    {next : Reply statement → Program Reply Fault Failure α} {silent : Reply statement → Prop}
    {told : Reply statement → Store → Prop}
    (reports : ∀ draw store, sound store →
      Reports silent told store (exec draw statement store))
    (refuses : ∀ reply, silent reply → ∃ failure, next reply = .done (.error failure))
    (answers : ∀ reply store, told reply store →
      ∃ value, next reply = .done (.ok value) ∧ tells value store) :
    (Program.query statement onFault next).Commits exec sound tells := by
  intro draw store holds
  have reported := reports draw store holds
  generalize exec draw statement store = ended at reported ⊢
  cases reported with
  | fault => rfl
  | @silent reply kept =>
      obtain ⟨failure, ends⟩ := refuses reply kept
      refine .inr ⟨rfl, ?_⟩
      rw [ends]
      exact refused
  | @told reply after holds => exact .inl (answers reply after holds)

theorem reads_last {statement : Statement} {onFault : Fault → Failure}
    {next : Reply statement → Program Reply Fault Failure α}
    (kept : ∀ draw store, (exec draw statement store).2 = store)
    (ends : ∀ draw store reply, (exec draw statement store).1 = .ok reply →
      (∃ failure, next reply = .done (.error failure)) ∨
        ∃ value, next reply = .done (.ok value) ∧ tells value store) :
    (Program.query statement onFault next).Commits exec sound tells := by
  intro draw store _
  have same := kept draw store
  have ends := ends draw store
  generalize exec draw statement store = ended at same ends ⊢
  rcases ended with ⟨_ | reply, after⟩
  · exact same
  · obtain rfl : after = store := same
    rcases ends reply rfl with ⟨failure, refuses⟩ | answers
    · refine .inr ⟨rfl, ?_⟩
      rw [refuses]
      exact refused
    · exact .inl answers

theorem mono {wider : α → Store → Prop} {program : Program Reply Fault Failure α}
    (commits : program.Commits exec sound tells)
    (widen : ∀ value store, tells value store → wider value store) :
    program.Commits exec sound wider := by
  induction program with
  | done => exact commits
  | query statement onFault next induction =>
      intro draw store holds
      have commits := commits draw store holds
      generalize exec draw statement store = ended at commits ⊢
      rcases ended with ⟨_ | reply, after⟩
      · exact commits
      · rcases commits with ⟨value, ends, told⟩ | ⟨same, rest⟩
        · exact .inl ⟨value, ends, widen value after told⟩
        · exact .inr ⟨same, induction reply rest⟩

theorem map {shown : β → Store → Prop} {wrap : α → β} {program : Program Reply Fault Failure α}
    (commits : program.Commits exec sound fun value => shown (wrap value)) :
    (program >>= fun value => pure (wrap value)).Commits exec sound shown := by
  induction program with
  | done result =>
      cases result with
      | ok value => exact absurd rfl (commits value)
      | error => exact refused
  | query statement onFault next induction =>
      intro draw store holds
      have commits := commits draw store holds
      generalize exec draw statement store = ended at commits ⊢
      rcases ended with ⟨_ | reply, after⟩
      · exact commits
      · rcases commits with ⟨value, ends, told⟩ | ⟨same, rest⟩
        · refine .inl ⟨wrap value, ?_, told⟩
          dsimp only
          rw [ends]
          rfl
        · exact .inr ⟨same, induction reply rest⟩

theorem embed {into : Statement → Issued}
    {reply : ∀ statement, Answer (into statement) → Reply statement} {fail : Failure → Refusal}
    {execIssued : Draw → (issued : Issued) → Store → Except Fault (Answer issued) × Store}
    (same : ∀ draw statement store, exec draw statement store =
      ((execIssued draw (into statement) store).1.map (reply statement),
        (execIssued draw (into statement) store).2))
    {program : Program Reply Fault Failure α} (commits : program.Commits exec sound tells) :
    (program.embed into reply fail).Commits execIssued sound tells := by
  induction program with
  | done result =>
      cases result with
      | ok value => exact absurd rfl (commits value)
      | error => exact refused
  | query statement onFault next induction =>
      intro draw store holds
      have commits := commits draw store holds
      rw [same] at commits
      generalize execIssued draw (into statement) store = ended at commits ⊢
      rcases ended with ⟨_ | answer, after⟩
      · exact commits
      · rcases commits with ⟨value, ends, told⟩ | ⟨kept, rest⟩
        · refine .inl ⟨value, ?_, told⟩
          dsimp only
          rw [ends]
          rfl
        · exact .inr ⟨kept, induction _ rest⟩

end Commits

end Zyndeck.Data.Program
