import Mathlib.Data.List.Nodup

namespace Zyndeck.Data

/-! Tables as lists of rows in insertion order: `UPDATE ... WHERE`, and lookup
by a unique key. -/

/-- `UPDATE ... SET set WHERE hit`. -/
def updateWhere (hit : α → Bool) (set : α → α) (rows : List α) : List α :=
  rows.map fun row => if hit row then set row else row

/-- The rows `UPDATE ... SET set WHERE hit RETURNING *` yields. -/
def returning (hit : α → Bool) (set : α → α) (rows : List α) : List α :=
  (rows.filter hit).map set

theorem updateWhere_append (hit : α → Bool) (set : α → α) (first second : List α) :
    updateWhere hit set (first ++ second) =
      updateWhere hit set first ++ updateWhere hit set second := by
  simp [updateWhere]

theorem mem_updateWhere {hit : α → Bool} {set : α → α} {rows : List α} {row : α} :
    row ∈ updateWhere hit set rows ↔
      (∃ old ∈ rows, hit old = true ∧ row = set old) ∨ (row ∈ rows ∧ hit row = false) := by
  simp only [updateWhere, List.mem_map]
  constructor
  · rintro ⟨old, member, rfl⟩
    cases matched : hit old with
    | true => exact .inl ⟨old, member, matched, by simp⟩
    | false => exact .inr ⟨by simpa using member, by simpa using matched⟩
  · rintro (⟨old, member, matched, rfl⟩ | ⟨member, unmatched⟩)
    · exact ⟨old, member, by simp [matched]⟩
    · exact ⟨row, member, by simp [unmatched]⟩

theorem head?_returning {hit : α → Bool} {set : α → α} {rows : List α} {row : α}
    (member : row ∈ rows) (matched : hit row = true)
    (unique : ∀ other ∈ rows, hit other = true → other = row) :
    (returning hit set rows).head? = some (set row) := by
  rw [returning, List.head?_map]
  cases found : (rows.filter hit).head? with
  | none =>
      rw [List.head?_eq_none_iff, List.filter_eq_nil_iff] at found
      exact absurd matched (found row member)
  | some other =>
      obtain ⟨stored, hits⟩ := List.mem_filter.mp (List.mem_of_mem_head? found)
      rw [unique other stored hits]
      rfl

theorem updateWhere_eq_self {hit : α → Bool} {set : α → α} {rows : List α}
    (unmatched : ∀ row ∈ rows, hit row = false) : updateWhere hit set rows = rows := by
  rw [updateWhere]
  refine (List.map_congr_left fun row member => ?_).trans (List.map_id rows)
  simp [unmatched row member]

theorem map_updateWhere {hit : α → Bool} {set : α → α} {column : α → β}
    (kept : ∀ row, column (set row) = column row) (rows : List α) :
    (updateWhere hit set rows).map column = rows.map column := by
  rw [updateWhere, List.map_map]
  refine List.map_congr_left fun row _ => ?_
  simp only [Function.comp_apply]
  split <;> simp [kept]

theorem filter_updateWhere {hit keep : α → Bool} {set : α → α}
    (kept : ∀ row, keep (set row) = keep row) (rows : List α) :
    (updateWhere hit set rows).filter keep = updateWhere hit set (rows.filter keep) := by
  induction rows with
  | nil => rfl
  | cons row rest induction =>
      have headKept : keep (if hit row then set row else row) = keep row := by
        split <;> simp [kept]
      simp only [updateWhere, List.map_cons, List.filter_cons, headKept] at induction ⊢
      split
      · rw [List.map_cons, induction]
      · exact induction

theorem find?_updateWhere (hit keep : α → Bool) (set : α → α)
    (kept : ∀ row, keep (set row) = keep row) (rows : List α) :
    (updateWhere hit set rows).find? keep =
      (rows.find? keep).map fun row => if hit row then set row else row := by
  induction rows with
  | nil => rfl
  | cons row rest induction =>
      have headKept : keep (if hit row then set row else row) = keep row := by
        split <;> simp [kept]
      simp only [updateWhere, List.map_cons, List.find?_cons, headKept] at induction ⊢
      cases keep row with
      | true => rfl
      | false => exact induction

/-! Unique keys. -/

theorem any_key [DecidableEq κ] (key : α → κ) (rows : List α) (wanted : κ) :
    rows.any (key · = wanted) = decide (wanted ∈ rows.map key) := by
  rw [Bool.eq_iff_iff, List.any_eq_true, decide_eq_true_iff, List.mem_map]
  simp only [decide_eq_true_iff]

theorem find?_key_eq_none [DecidableEq κ] {key : α → κ} {rows : List α} {wanted : κ} :
    rows.find? (key · = wanted) = none ↔ wanted ∉ rows.map key := by
  simp [List.find?_eq_none, List.mem_map]

theorem find?_key_eq_some [DecidableEq κ] {key : α → κ} {rows : List α} {wanted : κ}
    {row : α} (unique : (rows.map key).Nodup) :
    rows.find? (key · = wanted) = some row ↔ row ∈ rows ∧ key row = wanted := by
  induction rows with
  | nil => simp
  | cons head rest induction =>
      simp only [List.map_cons, List.nodup_cons] at unique
      by_cases found : key head = wanted
      · have absent : ∀ other ∈ rest, key other ≠ wanted := fun other member same =>
          unique.1 (List.mem_map.mpr ⟨other, member, same.trans found.symm⟩)
        simp only [List.find?_cons, found, decide_true, Option.some.injEq, List.mem_cons]
        constructor
        · rintro rfl
          exact ⟨.inl rfl, found⟩
        · rintro ⟨rfl | member, same⟩
          · rfl
          · exact absurd same (absent row member)
      · simp only [List.find?_cons, found, decide_false, induction unique.2, List.mem_cons]
        constructor
        · exact fun ⟨member, same⟩ => ⟨.inr member, same⟩
        · rintro ⟨rfl | member, same⟩
          · exact absurd same found
          · exact ⟨member, same⟩

theorem index_eq_of_nodup_map {key : α → κ} {rows : List α} {row other : α} {index place : Nat}
    (unique : (rows.map key).Nodup) (found : rows[index]? = some row)
    (alsoFound : rows[place]? = some other) (same : key row = key other) : index = place := by
  have inside : index < (rows.map key).length := by
    rw [List.length_map]
    exact (List.getElem?_eq_some_iff.mp found).1
  refine (List.getElem?_inj inside unique).mp ?_
  rw [List.getElem?_map, List.getElem?_map, found, alsoFound, Option.map_some, Option.map_some,
    same]

theorem filter_key_ne [DecidableEq κ] {key : α → κ} {front back : List α} {row : α}
    (unique : ((front ++ row :: back).map key).Nodup) :
    (front ++ row :: back).filter (key · ≠ key row) = front ++ back := by
  rw [List.map_append, List.map_cons, List.nodup_middle, List.nodup_cons, ← List.map_append]
    at unique
  have others : (front ++ back).filter (key · ≠ key row) = front ++ back :=
    List.filter_eq_self.mpr fun other member => decide_eq_true fun same =>
      unique.1 (same ▸ List.mem_map_of_mem member)
  rw [List.filter_append] at others ⊢
  rwa [List.filter_cons_of_neg (by simp)]

theorem filter_key_eq_singleton [DecidableEq κ] {key : α → κ} {rows : List α} {row : α}
    (unique : (rows.map key).Nodup) (member : row ∈ rows) :
    rows.filter (key · = key row) = [row] := by
  have all : ∀ other ∈ rows.filter (key · = key row), other = row := by
    intro other found
    obtain ⟨stored, same⟩ := List.mem_filter.mp found
    exact List.inj_on_of_nodup_map unique stored member (of_decide_eq_true same)
  have copies := List.eq_replicate_of_mem all
  have nodup : (rows.filter (key · = key row)).Nodup := (List.Nodup.of_map key unique).filter _
  rw [copies] at nodup
  have found : row ∈ rows.filter (key · = key row) := List.mem_filter.mpr ⟨member, by simp⟩
  have positive := List.length_pos_of_mem found
  have one : (rows.filter (key · = key row)).length = 1 :=
    Nat.le_antisymm (List.nodup_replicate.mp nodup) positive
  rw [copies, one]
  rfl

/-! A unique key under inserts, updates and deletes. -/

theorem nodup_insert {key : α → κ} {rows : List α} {row : α} (unique : (rows.map key).Nodup)
    (fresh : ∀ other ∈ rows, key other ≠ key row) : ((rows ++ [row]).map key).Nodup := by
  rw [List.map_append, List.map_singleton, ← List.concat_eq_append]
  refine unique.concat fun known => ?_
  obtain ⟨other, stored, same⟩ := List.mem_map.mp known
  exact fresh other stored same

theorem nodup_update {key : α → κ} {hit : α → Bool} {set : α → α} {rows : List α}
    (unique : (rows.map key).Nodup) (kept : ∀ row, key (set row) = key row) :
    ((updateWhere hit set rows).map key).Nodup := by
  rwa [map_updateWhere kept]

theorem nodup_delete {key : α → κ} {keep : α → Bool} {rows : List α}
    (unique : (rows.map key).Nodup) : ((rows.filter keep).map key).Nodup :=
  unique.sublist (List.filter_sublist.map _)

/-- Of the rows that an update hits, which are those of one id, none gets a key that another
row has. -/
theorem nodup_set [DecidableEq ι] {id : α → ι} {key : α → κ} {set : α → α} {rows : List α}
    {target : ι} {wanted : κ} (ids : (rows.map id).Nodup) (unique : (rows.map key).Nodup)
    (sets : ∀ row, key (set row) = wanted)
    (free : ∀ row ∈ rows, id row ≠ target → key row ≠ wanted) :
    ((updateWhere (id · = target) set rows).map key).Nodup := by
  rw [updateWhere, List.map_map]
  refine (List.Nodup.of_map _ ids).map_on fun first firstStored second secondStored same => ?_
  simp only [Function.comp_apply, decide_eq_true_eq] at same
  by_cases firstHit : id first = target <;> by_cases secondHit : id second = target
  · exact List.inj_on_of_nodup_map ids firstStored secondStored (firstHit.trans secondHit.symm)
  · rw [if_pos firstHit, if_neg secondHit, sets] at same
    exact absurd same.symm (free second secondStored secondHit)
  · rw [if_neg firstHit, if_pos secondHit, sets] at same
    exact absurd same (free first firstStored firstHit)
  · rw [if_neg firstHit, if_neg secondHit] at same
    exact List.inj_on_of_nodup_map unique firstStored secondStored same

end Zyndeck.Data
