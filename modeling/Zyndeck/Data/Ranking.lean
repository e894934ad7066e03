namespace Zyndeck.Data

/-! The first row of an ordered selection: `ORDER BY ... LIMIT 1`. -/

/-- A row order decided by a Boolean comparison.  Rows that neither precedes
are tied, and ties are transitive. -/
structure StrictOrder (before : α → α → Bool) : Prop where
  asymm : ∀ first second, before first second = true → before second first = false
  cotrans : ∀ first middle last, before first last = true →
    before first middle = true ∨ before middle last = true

theorem StrictOrder.irrefl {before : α → α → Bool}
    (order : StrictOrder before) (row : α) : before row row = false := by
  cases self : before row row with
  | false => rfl
  | true => exact self ▸ order.asymm row row self

/-- The leftmost of the rows that no other row precedes. -/
def firstBy (before : α → α → Bool) : List α → Option α
  | [] => none
  | row :: rest =>
      match firstBy before rest with
      | none => some row
      | some best => if before best row then some best else some row

@[simp] theorem firstBy_nil (before : α → α → Bool) :
    firstBy before [] = none := rfl

theorem firstBy_cons (before : α → α → Bool) (row : α) (rest : List α) :
    (firstBy before (row :: rest) = some row ∧
        ∀ best, firstBy before rest = some best → before best row = false) ∨
      ∃ best, firstBy before rest = some best ∧ before best row = true ∧
        firstBy before (row :: rest) = some best := by
  cases found : firstBy before rest with
  | none => exact .inl ⟨by simp [firstBy, found], by simp⟩
  | some best =>
      cases compared : before best row with
      | false => exact .inl ⟨by simp [firstBy, found, compared], by simp [compared]⟩
      | true => exact .inr ⟨best, rfl, compared, by simp [firstBy, found, compared]⟩

theorem firstBy_mem {before : α → α → Bool} {rows : List α} {best : α}
    (found : firstBy before rows = some best) : best ∈ rows := by
  induction rows generalizing best with
  | nil => simp at found
  | cons row rest induction =>
      rcases firstBy_cons before row rest with ⟨head, _⟩ | ⟨other, inRest, _, tail⟩
      · simp [Option.some.inj (head.symm.trans found)]
      · obtain rfl := Option.some.inj (tail.symm.trans found)
        exact List.mem_cons_of_mem _ (induction inRest)

theorem firstBy_eq_none {before : α → α → Bool} {rows : List α} :
    firstBy before rows = none ↔ rows = [] := by
  cases rows with
  | nil => simp
  | cons row rest =>
      rcases firstBy_cons before row rest with ⟨head, _⟩ | ⟨_, _, _, tail⟩ <;> simp [*]

theorem firstBy_not_before {before : α → α → Bool} (order : StrictOrder before)
    {rows : List α} {best : α} (found : firstBy before rows = some best) :
    ∀ row ∈ rows, before row best = false := by
  induction rows generalizing best with
  | nil => simp
  | cons head rest induction =>
      intro row member
      rcases firstBy_cons before head rest with
        ⟨selected, headWins⟩ | ⟨other, inRest, precedes, selected⟩
      · obtain rfl := Option.some.inj (selected.symm.trans found)
        rcases List.mem_cons.mp member with rfl | member
        · exact order.irrefl _
        · cases tail : firstBy before rest with
          | none => simp [firstBy_eq_none.mp tail] at member
          | some other =>
              -- A row before `head` would precede `other` too, or `other` would
              -- precede `head`; the best of the tail excludes both.
              refine Bool.eq_false_iff.mpr fun precedes => ?_
              rcases order.cotrans row other head precedes with h | h
              · rw [induction tail row member] at h
                contradiction
              · rw [headWins other tail] at h
                contradiction
      · obtain rfl := Option.some.inj (selected.symm.trans found)
        rcases List.mem_cons.mp member with rfl | member
        · exact order.asymm _ _ precedes
        · exact induction inRest row member

theorem firstBy_eq_of_precedes {before : α → α → Bool} (order : StrictOrder before)
    {rows : List α} {best : α} (member : best ∈ rows)
    (precedes : ∀ row ∈ rows, row ≠ best → before best row = true) :
    firstBy before rows = some best := by
  cases found : firstBy before rows with
  | none => simp [firstBy_eq_none.mp found] at member
  | some other =>
      by_cases same : other = best
      · rw [same]
      · have wins := precedes other (firstBy_mem found) same
        rw [firstBy_not_before order found best member] at wins
        contradiction

theorem firstBy_map {before : α → α → Bool} {rewrite : α → α} {rows : List α}
    (kept : ∀ first ∈ rows, ∀ second ∈ rows,
      before (rewrite first) (rewrite second) = before first second) :
    firstBy before (rows.map rewrite) = (firstBy before rows).map rewrite := by
  induction rows with
  | nil => rfl
  | cons row rest induction =>
      have inRest := induction fun first firstMember second secondMember =>
        kept first (List.mem_cons_of_mem _ firstMember) second (List.mem_cons_of_mem _ secondMember)
      simp only [List.map_cons, firstBy, inRest]
      cases found : firstBy before rest with
      | none => rfl
      | some best =>
          have same := kept best (List.mem_cons_of_mem _ (firstBy_mem found)) row
            (List.mem_cons_self ..)
          simp only [Option.map_some, same]
          split <;> rfl

end Zyndeck.Data
