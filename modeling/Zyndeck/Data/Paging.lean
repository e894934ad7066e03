import Mathlib.Data.List.Sort

namespace Zyndeck.Data

/-! Pages that are cut by position from a sorted table, read anew for each of them. -/

def slice (size number : Nat) (rows : List α) : List α := (rows.drop (number * size)).take size

/-- The items of page after page, up to one that is empty. -/
inductive Gathers (fetch : Nat → Option (List α)) : Nat → List α → Prop
  | ended (found : fetch number = some []) : Gathers fetch number []
  | more (found : fetch number = some page) (nonempty : page ≠ [])
      (rest : Gathers fetch (number + 1) items) : Gathers fetch number (page ++ items)

section

variable {fetch : Nat → Option (List α)} {page : Nat → List α} {number count : Nat}

theorem Gathers.of_pages (some_ : ∀ place, number ≤ place → place < number + count →
      fetch place = some (page place) ∧ page place ≠ [])
    (last : fetch (number + count) = some []) :
    Gathers fetch number ((List.range' number count).flatMap page) := by
  induction count generalizing number with
  | zero => exact .ended last
  | succ count induction =>
      obtain ⟨found, nonempty⟩ := some_ number (Nat.le_refl _) (by omega)
      rw [List.range'_succ, List.flatMap_cons]
      refine .more found nonempty (induction (fun place after before => ?_) ?_)
      · exact some_ place (by omega) (by omega)
      · rw [Nat.succ_add_eq_add_succ]
        exact last

theorem Gathers.unique {items other : List α} (gathers : Gathers fetch number items)
    (also : Gathers fetch number other) : items = other := by
  induction gathers generalizing other with
  | ended found =>
      cases also with
      | ended => rfl
      | more alsoFound nonempty =>
          exact absurd (Option.some.inj (alsoFound.symm.trans found)) nonempty
  | more found nonempty _ induction =>
      cases also with
      | ended alsoFound =>
          exact absurd (Option.some.inj (found.symm.trans alsoFound)) nonempty
      | more alsoFound _ rest =>
          obtain rfl := Option.some.inj (found.symm.trans alsoFound)
          rw [induction rest]

theorem Gathers.pages {items : List α} (gathers : Gathers fetch number items) :
    ∃ count, fetch (number + count) = some [] ∧
      items = (List.range' number count).flatMap fun place => (fetch place).getD [] := by
  induction gathers with
  | ended found => exact ⟨0, found, rfl⟩
  | more found _ _ induction =>
      obtain ⟨count, last, rfl⟩ := induction
      refine ⟨count + 1, ?_, ?_⟩
      · rw [← Nat.succ_add_eq_add_succ]
        exact last
      · rw [List.range'_succ, List.flatMap_cons, found, Option.getD_some]

end

section

variable {key : α → κ} [LinearOrder κ] {table rows other : List α}

/-- An order of the rows of a table under `ORDER BY key`. -/
structure Orders (key : α → κ) (table rows : List α) : Prop where
  perm : rows.Perm table
  sorted : rows.Pairwise (key · ≤ key ·)

def sortedKeys (key : α → κ) (table : List α) : List κ := (table.map key).insertionSort (· ≤ ·)

/-- No two rows of one key are on both sides of a page boundary. -/
def Separated (key : α → κ) (size : Nat) (table : List α) : Prop :=
  ∀ number, 0 < number → number * size < table.length →
    (sortedKeys key table)[number * size - 1]? ≠ (sortedKeys key table)[number * size]?

theorem Orders.keys (orders : Orders key table rows) : rows.map key = sortedKeys key table := by
  have sorted : (rows.map key).Pairwise (· ≤ ·) := List.pairwise_map.mpr orders.sorted
  have perm : (rows.map key).Perm (sortedKeys key table) :=
    (orders.perm.map key).trans (List.perm_insertionSort ..).symm
  exact perm.eq_of_pairwise (fun _ _ _ _ => le_antisymm) sorted (List.pairwise_insertionSort ..)

theorem Orders.of_keys (perm : rows.Perm table) (keys : rows.map key = sortedKeys key table) :
    Orders key table rows := by
  refine ⟨perm, List.pairwise_map.mp ?_⟩
  rw [keys]
  exact List.pairwise_insertionSort ..

theorem exists_orders (key : α → κ) (table : List α) : ∃ rows, Orders key table rows := by
  have total : Std.Total fun first second : α => key first ≤ key second :=
    ⟨fun _ _ => le_total _ _⟩
  have trans : IsTrans α fun first second => key first ≤ key second := ⟨fun _ _ _ => le_trans⟩
  exact ⟨table.insertionSort (key · ≤ key ·), List.perm_insertionSort ..,
    List.pairwise_insertionSort ..⟩

theorem sortedKeys_mono {first last : Nat} {low high : κ} (le : first ≤ last)
    (isLow : (sortedKeys key table)[first]? = some low)
    (isHigh : (sortedKeys key table)[last]? = some high) : low ≤ high := by
  obtain ⟨inside, rfl⟩ := List.getElem?_eq_some_iff.mp isLow
  obtain ⟨alsoInside, rfl⟩ := List.getElem?_eq_some_iff.mp isHigh
  have sorted : (sortedKeys key table).Pairwise (· ≤ ·) := List.pairwise_insertionSort ..
  rcases Nat.lt_or_eq_of_le le with less | rfl
  · exact List.pairwise_iff_getElem.mp sorted _ _ inside alsoInside less
  · exact le_refl _

namespace Orders

theorem key_at (orders : Orders key table rows) {place : Nat} {row : α}
    (found : rows[place]? = some row) : (sortedKeys key table)[place]? = some (key row) := by
  rw [← orders.keys, List.getElem?_map, found]
  rfl

theorem filter_eq_take (orders : Orders key table rows) {place : Nat} {low bound : κ}
    (isLow : (sortedKeys key table)[place - 1]? = some low)
    (isBound : (sortedKeys key table)[place]? = some bound) (grows : low < bound) :
    rows.filter (key · < bound) = rows.take place := by
  have front : (rows.take place).filter (key · < bound) = rows.take place := by
    refine List.filter_eq_self.mpr fun row member => ?_
    obtain ⟨index, found⟩ := List.mem_iff_getElem?.mp member
    rw [List.getElem?_take] at found
    split at found
    · have before := sortedKeys_mono (by omega) (orders.key_at found) isLow
      simpa using lt_of_le_of_lt before grows
    · contradiction
  have back : (rows.drop place).filter (key · < bound) = [] := by
    refine List.filter_eq_nil_iff.mpr fun row member => ?_
    obtain ⟨index, found⟩ := List.mem_iff_getElem?.mp member
    rw [List.getElem?_drop] at found
    simpa using sortedKeys_mono (by omega) isBound (orders.key_at found)
  have whole := List.filter_append (p := (key · < bound)) (rows.take place) (rows.drop place)
  rwa [List.take_append_drop, front, back, List.append_nil] at whole

theorem length_keys (orders : Orders key table rows) :
    (sortedKeys key table).length = rows.length := by
  rw [← orders.keys, List.length_map]

theorem perm_take (orders : Orders key table rows) (alsoOrders : Orders key table other)
    {size : Nat} (separated : Separated key size table) (number : Nat) :
    (rows.take (number * size)).Perm (other.take (number * size)) := by
  have length := orders.perm.length_eq
  have otherLength := alsoOrders.perm.length_eq
  by_cases inside : number * size < table.length
  · rcases Nat.eq_zero_or_pos number with rfl | positive
    · simp
    · have apart := separated number positive inside
      have keysLength := orders.length_keys
      have isLow := List.getElem?_eq_getElem
        (show number * size - 1 < (sortedKeys key table).length by omega)
      have isBound := List.getElem?_eq_getElem
        (show number * size < (sortedKeys key table).length by omega)
      have le := sortedKeys_mono (by omega) isLow isBound
      have grows := lt_of_le_of_ne le fun same => apart (by rw [isLow, isBound, same])
      rw [← orders.filter_eq_take isLow isBound grows,
        ← alsoOrders.filter_eq_take isLow isBound grows]
      exact (orders.perm.trans alsoOrders.perm.symm).filter _
  · rw [List.take_of_length_le (by omega), List.take_of_length_le (by omega)]
    exact orders.perm.trans alsoOrders.perm.symm

end Orders

variable {orders : Nat → List α} {size : Nat}

theorem perm_pages (valid : ∀ number, Orders key table (orders number))
    (separated : Separated key size table) (count : Nat) (ordered : Orders key table rows) :
    ((List.range' 0 count).flatMap fun number => slice size number (orders number)).Perm
      (rows.take (count * size)) := by
  induction count generalizing rows with
  | zero => simp
  | succ count induction =>
      have next : (orders count).take ((count + 1) * size) =
          (orders count).take (count * size) ++ slice size count (orders count) := by
        rw [Nat.succ_mul, List.take_add]
        rfl
      rw [List.range'_concat, List.flatMap_append]
      refine List.Perm.trans ?_ ((valid count).perm_take ordered separated (count + 1))
      rw [next]
      simpa using (induction (valid count)).append_right _

theorem slice_eq_nil (positive : 0 < size) (number : Nat) :
    slice size number rows = [] ↔ rows.length ≤ number * size := by
  rw [slice, List.take_eq_nil_iff, List.drop_eq_nil_iff]
  omega

/-! What is gathered from a table that does not change. -/

def Fetches (respond : α → β) (size : Nat) (table : List α) (orders : Nat → List α)
    (fetch : Nat → Option (List β)) : Prop :=
  ∀ number, number * size < table.length + size →
    fetch number = some ((slice size number (orders number)).map respond)

variable {respond : α → β} {fetch : Nat → Option (List β)}

theorem gathers_perm (positive : 0 < size) (valid : ∀ number, Orders key table (orders number))
    (separated : Separated key size table) (fetches : Fetches respond size table orders fetch) :
    ∃ items, Gathers fetch 0 items ∧ items.Perm (table.map respond) := by
  have ends : ∃ count, table.length ≤ count * size :=
    ⟨table.length, Nat.le_mul_of_pos_right _ positive⟩
  have enough := Nat.find_spec ends
  have within : ∀ number, number < Nat.find ends → number * size < table.length :=
    fun number before => Nat.lt_of_not_le (Nat.find_min ends before)
  have lengths := fun number => (valid number).perm.length_eq
  generalize Nat.find ends = count at enough within
  have last : count * size < table.length + size := by
    cases count with
    | zero => omega
    | succ count =>
        have := within count (Nat.lt_succ_self _)
        rw [Nat.succ_mul]
        omega
  have gathers : Gathers fetch 0 ((List.range' 0 count).flatMap fun number =>
      (slice size number (orders number)).map respond) := by
    refine .of_pages (fun number _ before => ⟨fetches number ?_, fun empty => ?_⟩) ?_
    · have := within number (by omega)
      omega
    · have beyond := (slice_eq_nil positive number).mp (List.map_eq_nil_iff.mp empty)
      have := within number (by omega)
      have := lengths number
      omega
    · rw [Nat.zero_add, fetches count last, (slice_eq_nil positive count).mpr]
      · rfl
      · rw [lengths count]
        exact enough
  refine ⟨_, gathers, ?_⟩
  rw [← List.map_flatMap]
  refine ((perm_pages valid separated count (valid 0)).map respond).trans ?_
  rw [List.take_of_length_le (by rw [lengths 0]; exact enough)]
  exact (valid 0).perm.map respond

theorem Orders.swap {front back : List α} {first second : α}
    (ordered : Orders key table (front ++ first :: second :: back))
    (tied : key first = key second) : Orders key table (front ++ second :: first :: back) := by
  refine .of_keys (((List.Perm.swap ..).append_left front).trans ordered.perm) ?_
  rw [← ordered.keys]
  simp [tied]

theorem exists_adjacent {place : Nat} (positive : 0 < place) (inside : place < rows.length) :
    ∃ front first second back, rows = front ++ first :: second :: back ∧
      front.length = place - 1 := by
  obtain ⟨before, rfl⟩ := Nat.exists_eq_succ_of_ne_zero (Nat.ne_of_gt positive)
  have split : rows.drop before = rows[before] :: rows.drop (before + 1) :=
    List.drop_eq_getElem_cons (by omega)
  have next : rows.drop (before + 1) = rows[before + 1] :: rows.drop (before + 1 + 1) :=
    List.drop_eq_getElem_cons inside
  refine ⟨rows.take before, rows[before], rows[before + 1], rows.drop (before + 1 + 1), ?_, ?_⟩
  · rw [← next, ← split, List.take_append_drop]
  · rw [List.length_take]
    omega

theorem mem_slice {row : α} {number : Nat} (index : Nat) (inside : index < size)
    (found : rows[number * size + index]? = some row) : row ∈ slice size number rows := by
  refine List.mem_iff_getElem?.mpr ⟨index, ?_⟩
  rw [slice, List.getElem?_take_of_lt inside, List.getElem?_drop]
  exact found

section

variable {front back : List α} {first second : α} {number : Nat}

theorem last_mem_slice (positive : 0 < size) (after : 0 < number)
    (boundary : front.length + 1 = number * size) :
    first ∈ slice size (number - 1) (front ++ first :: second :: back) := by
  have index : (number - 1) * size + (size - 1) = front.length := by
    have : size ≤ number * size := Nat.le_mul_of_pos_left _ after
    rw [Nat.sub_mul, Nat.one_mul]
    omega
  refine mem_slice (size - 1) (by omega) ?_
  rw [index, List.getElem?_append_right (Nat.le_refl _), Nat.sub_self]
  rfl

theorem head_mem_slice (positive : 0 < size) (boundary : front.length + 1 = number * size) :
    second ∈ slice size number (front ++ first :: second :: back) := by
  refine mem_slice 0 positive ?_
  rw [Nat.add_zero, ← boundary, List.getElem?_append_right (Nat.le_add_right _ 1),
    Nat.add_sub_cancel_left]
  rfl

end

theorem pages_disjoint (positive : 0 < size) (valid : ∀ number, Orders key table (orders number))
    (fetches : Fetches respond size table orders fetch) {items : List β}
    (gathers : Gathers fetch 0 items) (nodup : items.Nodup) {early late : Nat}
    (before : early < late) (inside : late * size < table.length) :
    ((slice size early (orders early)).map respond).Disjoint
      ((slice size late (orders late)).map respond) := by
  obtain ⟨count, last, rfl⟩ := gathers.pages
  have reached : late < count := by
    refine Nat.lt_of_not_le fun ended => ?_
    have le : count * size ≤ late * size := Nat.mul_le_mul_right size ended
    rw [Nat.zero_add, fetches count (by omega)] at last
    have empty := List.map_eq_nil_iff.mp (Option.some.inj last)
    have beyond := (slice_eq_nil positive count).mp empty
    rw [(valid count).perm.length_eq] at beyond
    omega
  have page : ∀ number, number ≤ late →
      (fetch number).getD [] = (slice size number (orders number)).map respond := by
    intro number le
    have : number * size ≤ late * size := Nat.mul_le_mul_right size le
    rw [fetches number (by omega), Option.getD_some]
  have disjoint := (List.nodup_flatMap.mp nodup).2
  have apart := List.pairwise_iff_getElem.mp disjoint early late
    (by simpa using before.trans reached) (by simpa using reached) before
  simp only [Function.onFun, List.getElem_range', Nat.zero_add, Nat.one_mul] at apart
  rwa [page early (Nat.le_of_lt before), page late (Nat.le_refl _)] at apart

/-- If two rows at a page boundary are tied, one of them can be on both pages. -/
theorem separated_of_gathers (positive : 0 < size) (unique : (table.map respond).Nodup)
    (all : ∀ orders : Nat → List α, (∀ number, Orders key table (orders number)) →
      ∃ fetch items, Fetches respond size table orders fetch ∧ Gathers fetch 0 items ∧
        items.Perm (table.map respond)) : Separated key size table := by
  intro number after inside tied
  obtain ⟨rows, ordered⟩ := exists_orders key table
  have room : 0 < number * size := Nat.mul_pos after positive
  obtain ⟨front, first, second, back, rfl, atPlace⟩ :=
    exists_adjacent room (ordered.perm.length_eq ▸ inside)
  have boundary : front.length + 1 = number * size := by omega
  have isFirst : (front ++ first :: second :: back)[number * size - 1]? = some first := by
    rw [← atPlace, List.getElem?_append_right (Nat.le_refl _), Nat.sub_self]
    rfl
  have isSecond : (front ++ first :: second :: back)[number * size]? = some second := by
    rw [← boundary, List.getElem?_append_right (Nat.le_add_right _ 1), Nat.add_sub_cancel_left]
    rfl
  rw [ordered.key_at isFirst, ordered.key_at isSecond] at tied
  let orders : Nat → List α := fun other =>
    if other = number then front ++ second :: first :: back else front ++ first :: second :: back
  have valid : ∀ other, Orders key table (orders other) := by
    intro other
    simp only [orders]
    split
    · exact ordered.swap (Option.some.inj tied)
    · exact ordered
  obtain ⟨fetch, items, fetches, gathers, perm⟩ := all orders valid
  have earlier : number - 1 < number := by omega
  refine pages_disjoint positive valid fetches gathers (perm.nodup_iff.mpr unique) earlier inside
    (List.mem_map.mpr ⟨first, ?_, rfl⟩) (List.mem_map.mpr ⟨first, ?_, rfl⟩)
  · simp only [orders, if_neg (Nat.ne_of_lt earlier)]
    exact last_mem_slice positive after boundary
  · simp only [orders, if_pos]
    exact head_mem_slice positive boundary

end

end Zyndeck.Data
