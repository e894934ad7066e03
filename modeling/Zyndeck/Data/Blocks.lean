import Mathlib.Data.List.Chain

namespace Zyndeck.Data

/-! Cutting a list into blocks, each taking in the next item while it fits. -/

variable (fits : List α → α → Prop)

def cut [∀ block item, Decidable (fits block item)] : List α → List α → List (List α)
  | [], [] => []
  | first :: block, [] => [first :: block]
  | [], item :: rest => cut [item] rest
  | first :: block, item :: rest =>
      if fits (first :: block) item then cut (first :: (block ++ [item])) rest
      else (first :: block) :: cut [item] rest

/-- A block into which each item after the first fitted when it was taken in. -/
def Grown (block : List α) : Prop :=
  ∀ front item rest, block = front ++ item :: rest → front ≠ [] → fits front item

/-- The next block starts with an item that did not fit. -/
def Full (block next : List α) : Prop := ∀ item ∈ next.head?, ¬ fits block item

theorem grown_singleton (item : α) : Grown fits [item] := by
  intro front other rest same nonempty
  cases front with
  | nil => exact absurd rfl nonempty
  | cons => simp at same

variable {fits}

theorem Grown.snoc {block : List α} {item : α} (grown : Grown fits block)
    (fitting : fits block item) : Grown fits (block ++ [item]) := by
  intro front other rest same nonempty
  cases rest using List.reverseRecOn with
  | nil =>
      have ⟨fronts, items⟩ := List.append_inj' same rfl
      cases fronts
      cases items
      exact fitting
  | append_singleton rest last =>
      rw [← List.cons_append, ← List.append_assoc] at same
      have ⟨blocks, _⟩ := List.append_inj' same rfl
      exact grown front other rest blocks nonempty

variable (fits) [∀ block item, Decidable (fits block item)]

@[simp] theorem cut_nil_cons (item : α) (rest : List α) :
    cut fits [] (item :: rest) = cut fits [item] rest := by
  rw [cut]

@[simp] theorem flatten_cut (block items : List α) :
    (cut fits block items).flatten = block ++ items := by
  fun_induction cut fits block items <;> simp_all

theorem ne_nil_of_mem_cut (block items : List α) :
    ∀ other ∈ cut fits block items, other ≠ [] := by
  fun_induction cut fits block items <;> simp_all

theorem head_cut (first : α) (block items : List α) :
    ∃ more rest, cut fits (first :: block) items = (first :: (block ++ more)) :: rest := by
  induction items generalizing block with
  | nil => exact ⟨[], [], by simp [cut]⟩
  | cons item items induction =>
      unfold cut
      split
      · have ⟨more, rest, same⟩ := induction (block ++ [item])
        exact ⟨item :: more, rest, by simpa using same⟩
      · exact ⟨[], cut fits [item] items, by simp⟩

theorem cut_grown (block items : List α) (grown : Grown fits block) :
    ∀ other ∈ cut fits block items, Grown fits other := by
  fun_induction cut fits block items with
  | case1 => simp
  | case2 first block => simpa using grown
  | case3 item rest induction => exact induction (grown_singleton fits item)
  | case4 first block item rest fitting induction => exact induction (grown.snoc fitting)
  | case5 first block item rest _ induction =>
      simpa using ⟨grown, induction (grown_singleton fits item)⟩

theorem cut_full (block items : List α) :
    (cut fits block items).IsChain (Full fits) := by
  fun_induction cut fits block items with
  | case1 => exact .nil
  | case2 => exact .singleton _
  | case3 _ _ induction => exact induction
  | case4 _ _ _ _ _ induction => exact induction
  | case5 first block item rest unfit induction =>
      have ⟨more, others, same⟩ := head_cut fits item [] rest
      rw [same] at induction ⊢
      exact .cons_cons (by simpa [Full] using unfit) induction

theorem cut_of_fits {first item : α} {block : List α} (fitting : fits (first :: block) item)
    (rest : List α) :
    cut fits (first :: block) (item :: rest) = cut fits (first :: (block ++ [item])) rest := by
  conv => left; unfold cut
  rw [if_pos fitting]

theorem cut_of_unfit {block items : List α} (unfit : ∀ item ∈ items.head?, ¬ fits block item) :
    cut fits block items = cut fits block [] ++ cut fits [] items := by
  cases block with
  | nil => simp [cut]
  | cons first block =>
      cases items with
      | nil => simp [cut]
      | cons item rest =>
          conv => left; unfold cut
          rw [if_neg (unfit item rfl), cut_nil_cons]
          rfl

variable {fits}

/-- What no open block takes in starts a new one, whatever came before. -/
theorem cut_append {block items others : List α}
    (apart : ∀ held : List α, (∀ item ∈ held, item ∈ block ++ items) →
      ∀ other ∈ others.head?, ¬ fits held other) :
    cut fits block (items ++ others) = cut fits block items ++ cut fits [] others := by
  fun_induction cut fits block items with
  | case1 => rfl
  | case2 first block =>
      exact cut_of_unfit fits (apart (first :: block) fun item member => by simpa using member)
  | case3 item rest induction =>
      rw [List.cons_append, cut_nil_cons]
      exact induction fun held inside => apart held fun other member => by
        simpa using inside other member
  | case4 first block item rest fitting induction =>
      rw [List.cons_append, cut_of_fits fits fitting]
      exact induction fun held inside => apart held fun other member => by
        simpa using inside other member
  | case5 first block item rest unfit induction =>
      have closed : cut fits (first :: block) (item :: (rest ++ others)) =
          (first :: block) :: cut fits [item] (rest ++ others) := by
        conv => left; unfold cut
        rw [if_neg unfit]
      rw [List.cons_append, closed, induction fun held inside => apart held fun other member => ?_]
      · rfl
      · have among := inside other member
        simp only [List.singleton_append, List.mem_cons] at among
        simp only [List.cons_append, List.mem_cons, List.mem_append]
        tauto

theorem cut_map {other : List β → β → Prop} [∀ block item, Decidable (other block item)]
    {change : α → β} (same : ∀ block item, other (block.map change) (change item) ↔ fits block item)
    (block items : List α) :
    cut other (block.map change) (items.map change) =
      (cut fits block items).map (List.map change) := by
  fun_induction cut fits block items with
  | case1 => rfl
  | case2 => rfl
  | case3 item rest induction => exact induction
  | case4 first block item rest fitting induction =>
      have fitting := (same (first :: block) item).mpr fitting
      rw [List.map_cons, List.map_cons] at *
      rw [cut_of_fits other fitting, ← induction]
      simp
  | case5 first block item rest unfit induction =>
      have unfit := mt (same (first :: block) item).mp unfit
      rw [List.map_cons, List.map_cons, List.map_cons, List.map_cons, ← induction] at *
      conv => left; unfold cut
      rw [if_neg unfit]
      rfl

end Zyndeck.Data
