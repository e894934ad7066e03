import Mathlib.Algebra.Order.Group.Abs
import Mathlib.Data.List.SplitBy

namespace Zyndeck.Data

/-! Cutting a list where neighbours part, by a loop over indices. -/

section

variable {α : Type u} (same : α → α → Bool) (items : List α)

/-- Close the open run, which starts at `state.2`, if the item at `i` parts from the one
before it. -/
def breakBy (state : List (List α) × Nat) (i : Nat) : List (List α) × Nat :=
  match items[i - 1]?, items[i]? with
  | some prev, some curr =>
      if same prev curr then state else (state.1 ++ [items.extract state.2 i], i)
  | _, _ => state

def groupBy : List (List α) :=
  let state := (List.range' 1 (items.length - 1)).foldl (breakBy same items) ([], 0)
  if state.2 < items.length then state.1 ++ [items.drop state.2] else state.1

end

section

variable {α : Type u} {same : α → α → Bool} {items : List α}

theorem breakBy_eq (state : List (List α) × Nat) {i : Nat} (inside : i < items.length) :
    breakBy same items state i =
      if same items[i - 1] items[i] then state
      else (state.1 ++ [(items.drop state.2).take (i - state.2)], i) := by
  unfold breakBy
  rw [List.getElem?_eq_getElem inside,
    List.getElem?_eq_getElem (show i - 1 < items.length by omega), List.extract_eq_take_drop]

structure Broken (same : α → α → Bool) (items : List α) (state : List (List α) × Nat)
    (i : Nat) : Prop where
  started : state.2 < i
  inside : i ≤ items.length
  closed : state.1 = (items.take state.2).splitBy same
  boundary : ∀ prev ∈ (items.take state.2).getLast?, ∀ curr ∈ (items.drop state.2).head?,
    same prev curr = false
  level : ((items.drop state.2).take (i - state.2)).IsChain
    fun prev curr => same prev curr = true

theorem take_eq_append {start i : Nat} (started : start < i) :
    items.take i = items.take start ++ (items.drop start).take (i - start) := by
  rw [← List.take_add]
  congr 1
  omega

theorem getLast?_take_drop {start i : Nat} (started : start < i) (inside : i ≤ items.length) :
    ((items.drop start).take (i - start)).getLast? = some items[i - 1] := by
  rw [List.getLast?_eq_getElem?, List.length_take, List.length_drop, List.getElem?_take,
    if_pos (by omega), List.getElem?_drop, ← List.getElem?_eq_getElem]
  congr 1
  omega

theorem Broken.take {state : List (List α) × Nat} {i : Nat} (broken : Broken same items state i) :
    (items.take i).splitBy same = state.1 ++ [(items.drop state.2).take (i - state.2)] := by
  have started := broken.started
  have inside := broken.inside
  have nonempty : (items.drop state.2).take (i - state.2) ≠ [] := by
    simp
    omega
  rw [take_eq_append started, List.splitBy_append, broken.closed,
    List.splitBy_of_isChain nonempty broken.level]
  intro prev last curr first
  apply broken.boundary prev last curr
  rw [List.head?_take, if_neg (by omega)] at first
  exact first

theorem Broken.step {state : List (List α) × Nat} {i : Nat} (broken : Broken same items state i)
    (inside : i < items.length) : Broken same items (breakBy same items state i) (i + 1) := by
  have started := broken.started
  have ends := getLast?_take_drop started broken.inside
  rw [breakBy_eq state inside]
  cases together : same items[i - 1] items[i] with
  | true =>
      refine ⟨Nat.lt_succ_of_lt started, inside, broken.closed, broken.boundary, ?_⟩
      have longer : (items.drop state.2).take (i + 1 - state.2) =
          (items.drop state.2).take (i - state.2) ++ [items[i]] := by
        rw [show i + 1 - state.2 = i - state.2 + 1 by omega, List.take_add_one, List.getElem?_drop,
          show state.2 + (i - state.2) = i by omega, List.getElem?_eq_getElem inside]
        rfl
      simp only [if_true, longer]
      apply broken.level.append (.singleton _)
      intro prev last curr first
      rw [ends] at last
      cases last
      cases first
      exact together
  | false =>
      refine ⟨Nat.lt_succ_self i, inside, broken.take.symm, ?_, ?_⟩
      · intro prev last curr first
        simp only [Bool.false_eq_true, if_false] at last first
        rw [take_eq_append started, List.getLast?_append, ends] at last
        rw [List.head?_drop, List.getElem?_eq_getElem inside] at first
        cases last
        cases first
        exact together
      · simp only [Bool.false_eq_true, if_false, Nat.add_sub_cancel_left, List.take_one,
          List.head?_drop, List.getElem?_eq_getElem inside]
        exact .singleton _

theorem broken_of_length (nonempty : 0 < items.length) (i : Nat) (inside : i + 1 ≤ items.length) :
    Broken same items ((List.range' 1 i).foldl (breakBy same items) ([], 0)) (i + 1) := by
  induction i with
  | zero =>
      refine ⟨Nat.zero_lt_one, nonempty, rfl, by simp, ?_⟩
      cases items with
      | nil => cases nonempty
      | cons => exact .singleton _
  | succ i induction =>
      rw [List.range'_concat, List.foldl_append]
      have before := induction (Nat.le_of_succ_le inside)
      have after := before.step (Nat.lt_of_succ_le inside)
      simpa [Nat.add_comm] using after

/-- The loop cuts a list into the maximal runs of neighbours that belong together. -/
theorem groupBy_eq (same : α → α → Bool) (items : List α) :
    groupBy same items = items.splitBy same := by
  cases items with
  | nil => rfl
  | cons first rest =>
      have nonempty : 0 < (first :: rest).length := Nat.zero_lt_succ _
      have broken : Broken same (first :: rest) _ _ :=
        broken_of_length nonempty rest.length (Nat.le_refl _)
      have taken := broken.take
      rw [List.take_of_length_le (by simp), List.take_of_length_le (by simp)] at taken
      unfold groupBy
      rw [taken]
      exact if_pos broken.started

structure CutBetween (same : α → α → Bool) (items : List α) (groups : List (List α)) :
    Prop where
  flatten : groups.flatten = items
  nonempty : ∀ group ∈ groups, group ≠ []
  level : ∀ group ∈ groups, group.IsChain fun prev curr => same prev curr = true
  parted : groups.IsChain fun group next =>
    ∃ prev ∈ group.getLast?, ∃ curr ∈ next.head?, same prev curr = false

theorem cutBetween_groupBy (same : α → α → Bool) (items : List α) :
    CutBetween same items (groupBy same items) := by
  rw [groupBy_eq]
  refine ⟨List.flatten_splitBy _ _, fun group => List.ne_nil_of_mem_splitBy,
    fun group => List.isChain_of_mem_splitBy, ?_⟩
  apply (List.isChain_getLast_head_splitBy same items).imp
  intro group next parted
  have ⟨filled, nextFilled, apart⟩ := parted
  exact ⟨_, List.getLast_mem_getLast? filled, _, List.head_mem_head? nextFilled, apart⟩

end

/-! How far the ends of a chain of small steps are apart. -/

section

variable {α : Type u} {β : Type v} [AddCommGroup β] [LinearOrder β] [IsOrderedAddMonoid β]

def allowance (step : α → α → β) : List α → β
  | prev :: curr :: rest => step prev curr + allowance step (curr :: rest)
  | _ => 0

theorem abs_sub_le_allowance {level : α → β} {step : α → α → β} {first last : α}
    {between : List α} (chain : (first :: (between ++ [last])).IsChain
      fun prev curr => |level curr - level prev| ≤ step prev curr) :
    |level last - level first| ≤ allowance step (first :: (between ++ [last])) := by
  induction between generalizing first with
  | nil =>
      have near := (List.isChain_cons_cons.mp chain).1
      simpa [allowance] using near
  | cons next between induction =>
      have ⟨near, rest⟩ := List.isChain_cons_cons.mp chain
      have far := induction rest
      calc |level last - level first|
          ≤ |level last - level next| + |level next - level first| := abs_sub_le _ _ _
        _ ≤ allowance step (next :: (between ++ [last])) + step first next := add_le_add far near
        _ = step first next + allowance step (next :: (between ++ [last])) := add_comm _ _

end

end Zyndeck.Data
