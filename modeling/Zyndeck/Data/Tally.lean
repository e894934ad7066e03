import Mathlib.Data.List.Induction
import Mathlib.Data.List.Sort

namespace Zyndeck.Data

/-! Hash maps of counters, with the order they are iterated in left open. -/

/-- `*entry(key).or_default() += amount`. -/
def addTo [DecidableEq κ] (key : κ) (amount : Nat) : List (κ × Nat) → List (κ × Nat)
  | [] => [(key, amount)]
  | entry :: rest =>
      if entry.1 = key then (entry.1, entry.2 + amount) :: rest
      else entry :: addTo key amount rest

theorem map_fst_addTo [DecidableEq κ] (key : κ) (amount : Nat) (entries : List (κ × Nat)) :
    (addTo key amount entries).map (·.1) =
      if key ∈ entries.map (·.1) then entries.map (·.1) else entries.map (·.1) ++ [key] := by
  induction entries with
  | nil => simp [addTo]
  | cons entry rest induction =>
      unfold addTo
      by_cases same : entry.1 = key
      · simp [same]
      · have apart : key ≠ entry.1 := Ne.symm same
        rw [if_neg same, List.map_cons, induction]
        split <;> simp_all

structure HashOrder (κ : Type u) where
  iterate : List (κ × Nat) → List (κ × Nat)
  perm : ∀ entries, (iterate entries).Perm entries

/-- `max_by_key(|&(_, count)| count)`: the last of the greatest. -/
def maxByCount (entries : List (κ × Nat)) : Option (κ × Nat) :=
  entries.foldl (fun best entry =>
    match best with
    | some greatest => if entry.2 < greatest.2 then some greatest else some entry
    | none => some entry) none

def Leads (entries : List (κ × Nat)) (key : κ) : Prop :=
  ∃ count, (key, count) ∈ entries ∧ ∀ entry ∈ entries, entry.2 ≤ count

theorem maxByCount_snoc (entries : List (κ × Nat)) (last : κ × Nat) :
    maxByCount (entries ++ [last]) =
      match maxByCount entries with
      | some greatest => if last.2 < greatest.2 then some greatest else some last
      | none => some last := by
  simp only [maxByCount, List.foldl_append, List.foldl_cons, List.foldl_nil]

@[simp] theorem maxByCount_eq_none {entries : List (κ × Nat)} :
    maxByCount entries = none ↔ entries = [] := by
  cases entries using List.reverseRecOn with
  | nil => exact ⟨fun _ => rfl, fun _ => rfl⟩
  | append_singleton front last =>
      rw [maxByCount_snoc]
      split
      · split <;> simp
      · simp

theorem maxByCount_eq_some {entries : List (κ × Nat)} {greatest : κ × Nat}
    (found : maxByCount entries = some greatest) :
    greatest ∈ entries ∧ ∀ entry ∈ entries, entry.2 ≤ greatest.2 := by
  induction entries using List.reverseRecOn generalizing greatest with
  | nil => cases found
  | append_singleton entries last induction =>
      rw [maxByCount_snoc] at found
      cases before : maxByCount entries with
      | none =>
          cases maxByCount_eq_none.mp before
          rw [before] at found
          cases found
          simp
      | some best =>
          have ⟨member, above⟩ := induction before
          simp only [before] at found
          by_cases less : last.2 < best.2
          · rw [if_pos less] at found
            cases found
            refine ⟨List.mem_append_left _ member, fun entry other => ?_⟩
            cases List.mem_append.mp other with
            | inl inside => exact above entry inside
            | inr same => exact List.mem_singleton.mp same ▸ Nat.le_of_lt less
          · rw [if_neg less] at found
            cases found
            refine ⟨by simp, fun entry other => ?_⟩
            cases List.mem_append.mp other with
            | inl inside => exact Nat.le_trans (above entry inside) (Nat.le_of_not_lt less)
            | inr same => exact List.mem_singleton.mp same ▸ Nat.le_refl _

theorem maxByCount_split {entries : List (κ × Nat)} {greatest : κ × Nat}
    (found : maxByCount entries = some greatest) :
    ∃ front back, entries = front ++ greatest :: back ∧ ∀ entry ∈ back, entry.2 < greatest.2 := by
  induction entries using List.reverseRecOn generalizing greatest with
  | nil => cases found
  | append_singleton entries last induction =>
      rw [maxByCount_snoc] at found
      cases before : maxByCount entries with
      | none =>
          rw [before] at found
          cases found
          exact ⟨entries, [], rfl, nofun⟩
      | some best =>
          simp only [before] at found
          by_cases less : last.2 < best.2
          · rw [if_pos less] at found
            cases found
            have ⟨front, back, split, below⟩ := induction before
            refine ⟨front, back ++ [last], by simp [split], fun entry member => ?_⟩
            rcases List.mem_append.mp member with inside | same
            · exact below entry inside
            · exact List.mem_singleton.mp same ▸ less
          · rw [if_neg less] at found
            cases found
            exact ⟨entries, [], rfl, nofun⟩

theorem leads_of_maxByCount (order : HashOrder κ) {entries : List (κ × Nat)}
    {greatest : κ × Nat} (found : maxByCount (order.iterate entries) = some greatest) :
    Leads entries greatest.1 := by
  have ⟨member, above⟩ := maxByCount_eq_some found
  have same := order.perm entries
  exact ⟨greatest.2, same.mem_iff.mp member,
    fun entry other => above entry (same.mem_iff.mpr other)⟩

def HashOrder.endingIn [DecidableEq κ] (last : κ × Nat) : HashOrder κ where
  iterate entries := if last ∈ entries then entries.erase last ++ [last] else entries
  perm entries := by
    split
    next member => exact (List.perm_append_singleton _ _).trans (List.perm_cons_erase member).symm
    next => exact .refl _

theorem maxByCount_of_leads [DecidableEq κ] {entries : List (κ × Nat)} {key : κ}
    (leads : Leads entries key) :
    ∃ (order : HashOrder κ) (count : Nat),
      maxByCount (order.iterate entries) = some (key, count) := by
  have ⟨count, member, above⟩ := leads
  refine ⟨.endingIn (key, count), count, ?_⟩
  simp only [HashOrder.endingIn, if_pos member, maxByCount_snoc]
  split
  next greatest before =>
    have inside := List.mem_of_mem_erase (maxByCount_eq_some before).1
    exact if_neg (Nat.not_lt.mpr (above greatest inside))
  next => rfl

/-! Orders that only the keys decide, so that they break ties alike whatever the counts. -/

def HashOrder.ByKeys (order : HashOrder κ) : Prop :=
  ∀ entries others, entries.map (·.1) = others.map (·.1) →
    (order.iterate entries).map (·.1) = (order.iterate others).map (·.1)

abbrev RankLe (rank : κ → Nat) (first second : κ × Nat) : Prop := rank first.1 ≤ rank second.1

instance (rank : κ → Nat) : Std.Total (RankLe rank) := ⟨fun _ _ => Nat.le_total ..⟩

instance (rank : κ → Nat) : IsTrans (κ × Nat) (RankLe rank) := ⟨fun _ _ _ => Nat.le_trans⟩

def HashOrder.byRank (rank : κ → Nat) : HashOrder κ where
  iterate entries := entries.insertionSort (RankLe rank)
  perm := List.perm_insertionSort _

theorem HashOrder.byKeys_byRank (rank : κ → Nat) : (HashOrder.byRank rank).ByKeys := by
  have sorted (entries : List (κ × Nat)) :
      (entries.insertionSort (RankLe rank)).map (·.1) =
        (entries.map (·.1)).insertionSort fun first second => rank first ≤ rank second :=
    List.map_insertionSort _ _ _ _ fun _ _ _ _ => Iff.rfl
  intro entries others same
  rw [byRank, sorted, sorted, same]

theorem maxByCount_byRank {entries : List (κ × Nat)} {key : κ} {rank : κ → Nat}
    (leads : Leads entries key)
    (above : ∀ other, Leads entries other → other ≠ key → rank other < rank key) :
    ∃ count, maxByCount ((HashOrder.byRank rank).iterate entries) = some (key, count) := by
  have ⟨count, member, most⟩ := leads
  cases picked : maxByCount ((HashOrder.byRank rank).iterate entries) with
  | none =>
      have empty := maxByCount_eq_none.mp picked
      rw [← ((HashOrder.byRank rank).perm entries).mem_iff, empty] at member
      cases member
  | some greatest =>
      have otherLeads := leads_of_maxByCount _ picked
      have ⟨inside, atLeast⟩ := maxByCount_eq_some picked
      have same : greatest.2 = count := by
        have member' := ((HashOrder.byRank rank).perm entries).mem_iff.mpr member
        have inside' := ((HashOrder.byRank rank).perm entries).mem_iff.mp inside
        exact Nat.le_antisymm (most _ inside') (atLeast _ member')
      by_cases isKey : greatest.1 = key
      · exact ⟨greatest.2, congrArg some (Prod.ext isKey rfl)⟩
      · -- the key would have to come before a key of a lower rank
        have lower := above _ otherLeads isKey
        have ⟨front, back, split, below⟩ := maxByCount_split picked
        have sorted : ((HashOrder.byRank rank).iterate entries).Pairwise (RankLe rank) :=
          List.pairwise_insertionSort _ entries
        rw [← ((HashOrder.byRank rank).perm entries).mem_iff, split] at member
        rw [split, List.pairwise_append] at sorted
        rcases List.mem_append.mp member with early | late
        · have notLower := sorted.2.2 _ early greatest (List.mem_cons_self ..)
          exact absurd lower (Nat.not_lt.mpr notLower)
        · rcases List.mem_cons.mp late with isGreatest | late
          · exact absurd (congrArg Prod.fst isGreatest).symm isKey
          · exact absurd (below _ late) (by simp [same])

/-- The keys that one such order may pick from two maps with the same keys. -/
structure PickedTogether (entries others : List (κ × Nat)) (key other : κ) : Prop where
  first : Leads entries key
  second : Leads others other
  /-- Where both keys lead both maps, the order picks the same twice. -/
  alike : Leads entries other → Leads others key → key = other

theorem Leads.mem_front {entries front back : List (κ × Nat)} {greatest : κ × Nat} {key : κ}
    {order : HashOrder κ} (leads : Leads entries key)
    (split : order.iterate entries = front ++ greatest :: back)
    (below : ∀ entry ∈ back, entry.2 < greatest.2) :
    key = greatest.1 ∨ key ∈ front.map (·.1) := by
  have ⟨count, member, most⟩ := leads
  have same := order.perm entries
  have atMost : greatest.2 ≤ count := most _ (same.mem_iff.mp (by simp [split]))
  rw [← same.mem_iff, split] at member
  rcases List.mem_append.mp member with early | late
  · exact .inr (List.mem_map_of_mem early)
  · rcases List.mem_cons.mp late with isGreatest | late
    · exact .inl (congrArg Prod.fst isGreatest)
    · exact absurd (below _ late) (Nat.not_lt.mpr atMost)

theorem HashOrder.ByKeys.together [DecidableEq κ] {order : HashOrder κ} (byKeys : order.ByKeys)
    {entries others : List (κ × Nat)} (same : entries.map (·.1) = others.map (·.1))
    (unique : (entries.map (·.1)).Nodup) {picked other : κ × Nat}
    (found : maxByCount (order.iterate entries) = some picked)
    (alsoFound : maxByCount (order.iterate others) = some other) :
    PickedTogether entries others picked.1 other.1 := by
  refine ⟨leads_of_maxByCount order found, leads_of_maxByCount order alsoFound,
    fun otherLeads pickedLeads => ?_⟩
  have ⟨front, back, split, below⟩ := maxByCount_split found
  have ⟨otherFront, otherBack, otherSplit, otherBelow⟩ := maxByCount_split alsoFound
  have keys := byKeys entries others same
  have nodup : ((order.iterate entries).map (·.1)).Nodup :=
    ((order.perm entries).map _).nodup_iff.mpr unique
  rw [split, otherSplit] at keys
  rw [split] at nodup
  simp only [List.map_append, List.map_cons] at keys nodup
  -- each of the two would come before the other
  rcases otherLeads.mem_front split below with done | otherEarly
  · exact done.symm
  rcases pickedLeads.mem_front otherSplit otherBelow with done | pickedEarly
  · exact done
  have place : ∀ {front back : List κ} {key : κ}, (front ++ key :: back).Nodup →
      (front ++ key :: back).idxOf key = front.length := by
    intro front back key nodup
    have absent : key ∉ front := fun member =>
      (List.nodup_append.mp nodup).2.2 key member key (List.mem_cons_self ..) rfl
    simp [List.idxOf_append_of_notMem absent]
  have before (back : List κ) {front : List κ} {key : κ} (member : key ∈ front) :
      (front ++ back).idxOf key < front.length := by
    rw [List.idxOf_append_of_mem member]
    exact List.idxOf_lt_length_of_mem member
  have first := place nodup
  have second := place (keys ▸ nodup)
  have otherBefore := before (picked.1 :: back.map (·.1)) otherEarly
  have pickedBefore := before (other.1 :: otherBack.map (·.1)) pickedEarly
  rw [← keys] at second pickedBefore
  omega

theorem PickedTogether.exists_order [DecidableEq κ] {entries others : List (κ × Nat)}
    {key other : κ} (together : PickedTogether entries others key other) :
    ∃ order : HashOrder κ, order.ByKeys ∧
      (∃ count, maxByCount (order.iterate entries) = some (key, count)) ∧
        ∃ count, maxByCount (order.iterate others) = some (other, count) := by
  obtain ⟨first, second, alike⟩ := together
  let rank (top next candidate : κ) : Nat :=
    if candidate = top then 2 else if candidate = next then 1 else 0
  by_cases otherLeads : Leads entries other
  · -- the key goes last; it leads the other map only if it is to be picked there as well
    refine ⟨.byRank (rank key other), HashOrder.byKeys_byRank _, maxByCount_byRank first ?_,
      maxByCount_byRank second ?_⟩
    · intro candidate _ apart
      simp only [rank, apart, if_false, if_true]
      split <;> omega
    · intro candidate leads apart
      by_cases isKey : candidate = key
      · exact absurd (alike otherLeads (isKey ▸ leads)) fun same => apart (isKey.trans same)
      · simp only [rank, isKey, apart, if_false, if_true]
        split <;> omega
  · have isApart : key ≠ other := fun same => otherLeads (same ▸ first)
    refine ⟨.byRank (rank other key), HashOrder.byKeys_byRank _, maxByCount_byRank first ?_,
      maxByCount_byRank second ?_⟩
    · intro candidate leads apart
      have notOther : candidate ≠ other := fun same => otherLeads (same ▸ leads)
      simp [rank, notOther, apart, isApart]
    · intro candidate _ apart
      simp only [rank, apart, if_false, if_true]
      split <;> omega

/-- If what is kept of a list shows as what a test keeps of all that shows, the
test keeps the same. -/
theorem filter_agree [DecidableEq β] {f : α → β} {items : List α} {keep : α → Bool}
    {test : β → Bool} (same : (items.filter keep).map f = (items.map f).filter test) :
    ∀ item ∈ items, keep item = test (f item) := by
  intro item member
  cases tested : test (f item) with
  | false =>
      cases kept : keep item with
      | false => rfl
      | true =>
          have shown : f item ∈ (items.map f).filter test := by
            rw [← same]
            exact List.mem_map_of_mem (List.mem_filter.mpr ⟨member, kept⟩)
          exact absurd (List.mem_filter.mp shown).2 (by simp [tested])
  | true =>
      -- as many of the items that show alike are kept as there are
      let alike (other : α) : Bool := f other == f item
      have left : ((items.filter keep).map f).count (f item) =
          (items.filter alike).countP keep := by
        rw [List.count_eq_countP, List.countP_map, List.countP_filter, List.countP_filter]
        congr 1
        funext other
        exact Bool.and_comm _ _
      have right : ((items.map f).filter test).count (f item) = (items.filter alike).length := by
        rw [List.count_filter tested, List.count_eq_countP, List.countP_map,
          List.countP_eq_length_filter]
        rfl
      have all : (items.filter alike).countP keep = (items.filter alike).length := by
        rw [← left, same, right]
      apply List.countP_eq_length.mp all
      exact List.mem_filter.mpr ⟨member, beq_self_eq_true _⟩

end Zyndeck.Data
