import Mathlib.Data.List.TakeWhile
import Zyndeck.Ingester.Lines

namespace Zyndeck.Document

open Data Str

/-! What the kinds of the lines depend on. -/

def isIconic (text : Text) : Bool :=
  let nonSpace := text.countP fun char => !isWhitespace char
  let icons := text.countP fun char => !isWhitespace char && isIconGlyph char
  decide (nonSpace ≠ 0) &&
    decide (Float32.ofNat icons / Float32.ofNat nonSpace ≥ iconCharRatio)

def isDistinct (order : HashOrder Text) (group : List RawSegment) (bodyFamily : Text) : Bool :=
  match dominantFamily order group with
  | some family => decide (family ≠ bodyFamily)
  | none => false

theorem mem_addTo [DecidableEq κ] {key : κ} {amount : Nat} {entries : List (κ × Nat)}
    {entry : κ × Nat} (member : entry ∈ addTo key amount entries) :
    entry.1 = key ∨ entry ∈ entries := by
  induction entries with
  | nil => exact .inl (congrArg Prod.fst (List.mem_singleton.mp member))
  | cons first rest induction =>
      unfold addTo at member
      split at member
      next same =>
        cases member with
        | head => exact .inl same
        | tail _ later => exact .inr (.tail _ later)
      next =>
        cases member with
        | head => exact .inr (.head _)
        | tail _ later => exact (induction later).imp id (.tail _)

theorem ne_nil_of_mem_charsPerFamily {segments : List RawSegment} {entry : Text × Nat}
    (member : entry ∈ charsPerFamily segments) : entry.1 ≠ [] := by
  induction segments using List.reverseRecOn with
  | nil => cases member
  | append_singleton segments segment induction =>
      simp only [charsPerFamily, List.foldl_append, List.foldl_cons, List.foldl_nil] at member
      split at member
      next => exact induction member
      next named =>
        cases mem_addTo member with
        | inl same => exact same ▸ named
        | inr before => exact induction before

theorem dominantFamily_leads {order : HashOrder Text} {group : List RawSegment} {family : Text}
    (found : dominantFamily order group = some family) : Leads (charsPerFamily group) family := by
  have ⟨greatest, picked, same⟩ := Option.map_eq_some_iff.mp found
  exact same ▸ leads_of_maxByCount order picked

theorem iterate_eq_nil {order : HashOrder Text} {entries : List (Text × Nat)} :
    order.iterate entries = [] ↔ entries = [] := by
  constructor
  · intro empty
    exact (empty ▸ order.perm entries).symm.eq_nil
  · intro empty
    cases empty
    exact (order.perm []).eq_nil

theorem dominantFamily_eq_none {order : HashOrder Text} {group : List RawSegment} :
    dominantFamily order group = none ↔ charsPerFamily group = [] := by
  rw [dominantFamily, Option.map_eq_none_iff, maxByCount_eq_none, iterate_eq_nil]

theorem dominantBodyFamily_cases (order : HashOrder Text) (pages : List (List RawSegment)) :
    Leads (charsPerFamily pages.flatten) (dominantBodyFamily order pages) ∨
      (charsPerFamily pages.flatten = [] ∧ dominantBodyFamily order pages = []) := by
  unfold dominantBodyFamily
  cases picked : maxByCount (order.iterate (charsPerFamily pages.flatten)) with
  | none => exact .inr ⟨iterate_eq_nil.mp (maxByCount_eq_none.mp picked), rfl⟩
  | some greatest => exact .inl (leads_of_maxByCount order picked)

theorem visible_ne_nil {text : Text} (spaced : Spaced text) (nonempty : text ≠ []) :
    visible text ≠ [] := by
  cases text with
  | nil => exact absurd rfl nonempty
  | cons char text =>
      have dark := spaced.first char rfl
      simp [visible, dark]

theorem cleanSegmentText_sublist (text : Text) : (cleanSegmentText text).Sublist text := by
  rw [cleanSegmentText_eq]
  exact List.takeWhile_sublist _

theorem filled_of_assembleText {group : List RawSegment} (shown : assembleText group ≠ []) :
    (chars group).countP (fun char => !isWhitespace char) ≠ 0 := by
  have some_ := visible_ne_nil (spaced_normalizeWhitespace _) shown
  rw [visible_normalizeWhitespace] at some_
  have ⟨char, member⟩ := List.exists_mem_of_ne_nil _ some_
  have ⟨inside, dark⟩ := List.mem_filter.mp member
  have ⟨segment, among, here⟩ := List.mem_flatMap.mp inside
  apply Nat.ne_of_gt
  apply List.countP_pos_iff.mpr
  refine ⟨char, List.mem_flatMap.mpr ⟨segment, ?_, ?_⟩, dark⟩
  · exact (List.mem_insertionSort _).mp among
  · exact (cleanSegmentText_sublist _).subset here

section Classification

variable [Unicode]

def isTitled (group : List RawSegment) : Bool :=
  decide (minHeadingLetters ≤ (chars group).countP Unicode.isAlphabetic) &&
    decide ((chars group).length ≤ maxHeadingChars) && isMostlyUppercase group

theorem classify_eq (order : HashOrder Text) (group : List RawSegment) (bodyFamily : Text)
    (filled : (chars group).countP (fun char => !isWhitespace char) ≠ 0) :
    classify order group bodyFamily =
      if isIconic (chars group) then .icons
      else if isDistinct order group bodyFamily && isTitled group then .heading
      else .body := by
  have icons : isIconic (chars group) = decide (Float32.ofNat ((chars group).countP fun char =>
      !isWhitespace char && isIconGlyph char) / Float32.ofNat ((chars group).countP fun char =>
      !isWhitespace char) ≥ iconCharRatio) := by
    unfold isIconic
    simp only [filled, ne_eq, not_false_eq_true, decide_true, Bool.true_and]
  rw [icons, isTitled, ← Bool.and_assoc, ← Bool.and_assoc]
  unfold classify
  rw [if_neg filled]
  exact if_congr decide_eq_true_iff.symm rfl rfl

def Spot.isHeading (orders : HashOrders) (bodyFamily : Text) (spot : Spot) : Bool :=
  isDistinct (orders.line spot.page spot.place) spot.group bodyFamily && isTitled spot.group

theorem Spot.kind_eq (orders : HashOrders) (bodyFamily : Text) {spot : Spot}
    (shown : spot.text ≠ []) :
    spot.kind orders bodyFamily =
      if isIconic (chars spot.group) then .icons
      else if spot.isHeading orders bodyFamily then .heading
      else .body :=
  classify_eq _ _ _ (filled_of_assembleText shown)

theorem Spot.isKept_eq (orders : HashOrders) (bodyFamily : Text) {spot : Spot}
    (shown : spot.text ≠ []) :
    spot.isKept orders bodyFamily = (isIconic (chars spot.group) || !isGarbled spot.text) := by
  rw [Spot.isKept, Spot.kind_eq orders bodyFamily shown]
  cases isIconic (chars spot.group) with
  | true => simp
  | false =>
      simp only [Bool.false_eq_true, if_false, Bool.false_or]
      split <;> simp

omit [Unicode] in
theorem mem_shownSpots {pages : List (List RawSegment)} {spot : Spot}
    (member : spot ∈ shownSpots pages) : spot.text ≠ [] :=
  of_decide_eq_true (List.mem_filter.mp member).2

theorem keptSpots_eq (orders : HashOrders) (pages : List (List RawSegment)) :
    keptSpots orders pages = (shownSpots pages).filter fun spot =>
      isIconic (chars spot.group) || !isGarbled spot.text := by
  apply List.filter_congr
  intro spot member
  exact Spot.isKept_eq orders _ (mem_shownSpots member)

theorem structurePages_ext {first second : HashOrders} {pages others : List (List RawSegment)}
    (lines : (structurePages first pages).lines = (structurePages second others).lines)
    (shown : (shownSpots pages).length = (shownSpots others).length) :
    structurePages first pages = structurePages second others := by
  have ⟨firstKept, firstTotal⟩ := structurePages_report first pages
  have ⟨secondKept, secondTotal⟩ := structurePages_report second others
  have kept : (keptSpots first pages).length = (keptSpots second others).length := by
    simpa [structurePages_lines] using congrArg List.length lines
  cases one : structurePages first pages with
  | mk firstLines firstReport =>
      cases two : structurePages second others with
      | mk secondLines secondReport =>
          rw [one] at firstKept firstTotal lines
          rw [two] at secondKept secondTotal lines
          cases firstReport
          cases secondReport
          simp only at *
          simp only [lines, ExtractedDocument.mk.injEq, QualityReport.mk.injEq, true_and]
          omega

/-- Two iteration orders agree if they do on the kinds of the lines kept. -/
theorem structurePages_eq_iff (first second : HashOrders) (pages : List (List RawSegment)) :
    structurePages first pages = structurePages second pages ↔
      ∀ spot ∈ shownSpots pages, (isIconic (chars spot.group) || !isGarbled spot.text) = true →
        spot.kind first (dominantBodyFamily first.body pages) =
          spot.kind second (dominantBodyFamily second.body pages) := by
  constructor
  · intro same spot member kept
    have lines := congrArg ExtractedDocument.lines same
    rw [structurePages_lines, structurePages_lines, keptSpots_eq, keptSpots_eq] at lines
    have agree := List.map_inj_left.mp lines spot (List.mem_filter.mpr ⟨member, kept⟩)
    exact congrArg Line.kind agree
  · intro agree
    apply structurePages_ext _ rfl
    rw [structurePages_lines, structurePages_lines, keptSpots_eq, keptSpots_eq]
    apply List.map_congr_left
    intro spot member
    have ⟨inside, kept⟩ := List.mem_filter.mp member
    simp only [Spot.line, agree spot inside kept]

/-- A clean line that is a heading if its font is not that of the body. -/
def TitleLike (spot : Spot) : Prop :=
  isIconic (chars spot.group) = false ∧ isGarbled spot.text = false ∧
    isTitled spot.group = true

/-- No line that may be a heading has a font tied with that of the body. -/
def Settled (pages : List (List RawSegment)) : Prop :=
  ∀ spot ∈ shownSpots pages, TitleLike spot →
    (∀ family, Leads (charsPerFamily spot.group) family →
      ¬ Leads (charsPerFamily pages.flatten) family) ∨
    ∃ family, (∀ other, Leads (charsPerFamily spot.group) other ↔ other = family) ∧
      ∀ other, Leads (charsPerFamily pages.flatten) other ↔ other = family

omit [Unicode] in
theorem isDistinct_of_apart {order : HashOrder Text} {group : List RawSegment}
    {pages : List (List RawSegment)} (bodyOrder : HashOrder Text)
    (apart : ∀ family, Leads (charsPerFamily group) family →
      ¬ Leads (charsPerFamily pages.flatten) family) :
    isDistinct order group (dominantBodyFamily bodyOrder pages) =
      decide (charsPerFamily group ≠ []) := by
  unfold isDistinct
  split
  next family found =>
    have leads := dominantFamily_leads found
    have ⟨count, member, _⟩ := leads
    have filled : charsPerFamily group ≠ [] := List.ne_nil_of_mem member
    have other : family ≠ dominantBodyFamily bodyOrder pages := by
      intro same
      cases dominantBodyFamily_cases bodyOrder pages with
      | inl body => exact apart family leads (same ▸ body)
      | inr none_ => exact ne_nil_of_mem_charsPerFamily member (same.trans none_.2)
    simp [other, filled]
  next none_ => simp [dominantFamily_eq_none.mp none_]

omit [Unicode] in
theorem isDistinct_of_same {order : HashOrder Text} {group : List RawSegment}
    {pages : List (List RawSegment)} (bodyOrder : HashOrder Text) {family : Text}
    (line : ∀ other, Leads (charsPerFamily group) other ↔ other = family)
    (body : ∀ other, Leads (charsPerFamily pages.flatten) other ↔ other = family) :
    isDistinct order group (dominantBodyFamily bodyOrder pages) = false := by
  unfold isDistinct
  split
  next other found =>
    have sameLine := (line other).mp (dominantFamily_leads found)
    cases dominantBodyFamily_cases bodyOrder pages with
    | inl leads =>
        have sameBody := (body _).mp leads
        simp [sameLine, sameBody]
    | inr none_ =>
        have ⟨_, member, _⟩ := (body family).mpr rfl
        rw [none_.1] at member
        cases member
  next => rfl

theorem structurePages_eq_of_settled {pages : List (List RawSegment)} (settled : Settled pages)
    (first second : HashOrders) : structurePages first pages = structurePages second pages := by
  apply (structurePages_eq_iff first second pages).mpr
  intro spot member kept
  have shown := mem_shownSpots member
  rw [Spot.kind_eq _ _ shown, Spot.kind_eq _ _ shown]
  cases iconic : isIconic (chars spot.group) with
  | true => rw [if_pos rfl, if_pos rfl]
  | false =>
      unfold Spot.isHeading
      cases titled : isTitled spot.group with
      | false => simp
      | true =>
          have clean : isGarbled spot.text = false := by simpa [iconic] using kept
          cases settled spot member ⟨iconic, clean, titled⟩ with
          | inl apart =>
              rw [isDistinct_of_apart first.body apart, isDistinct_of_apart second.body apart]
          | inr same =>
              have ⟨family, line, body⟩ := same
              rw [isDistinct_of_same first.body line body, isDistinct_of_same second.body line body]

omit [Unicode] in
theorem isDistinct_of_leads {group : List RawSegment} {pages : List (List RawSegment)}
    {line body : Text} (lineLeads : Leads (charsPerFamily group) line)
    (bodyLeads : Leads (charsPerFamily pages.flatten) body) :
    ∃ orders : HashOrders, ∀ page place, isDistinct (orders.line page place) group
      (dominantBodyFamily orders.body pages) = decide (line ≠ body) := by
  have ⟨lineOrder, lineCount, linePicked⟩ := maxByCount_of_leads lineLeads
  have ⟨bodyOrder, bodyCount, bodyPicked⟩ := maxByCount_of_leads bodyLeads
  refine ⟨⟨bodyOrder, fun _ _ => lineOrder⟩, fun _ _ => ?_⟩
  simp only [isDistinct, dominantFamily, dominantBodyFamily, linePicked, bodyPicked,
    Option.map_some]

theorem settled_of_structurePages_eq {pages : List (List RawSegment)}
    (same : ∀ first second : HashOrders,
      structurePages first pages = structurePages second pages) : Settled pages := by
  intro spot member title
  have ⟨iconic, clean, titled⟩ := title
  have shown := mem_shownSpots member
  -- whether the fonts picked for the line and for the document differ is settled
  have agree : ∀ line body other otherBody, Leads (charsPerFamily spot.group) line →
      Leads (charsPerFamily pages.flatten) body → Leads (charsPerFamily spot.group) other →
      Leads (charsPerFamily pages.flatten) otherBody → (line = body ↔ other = otherBody) := by
    intro line body other otherBody lineLeads bodyLeads otherLeads otherBodyLeads
    have ⟨first, firstPicks⟩ := isDistinct_of_leads lineLeads bodyLeads
    have ⟨second, secondPicks⟩ := isDistinct_of_leads otherLeads otherBodyLeads
    have kinds := (structurePages_eq_iff first second pages).mp (same first second) spot member
      (by simp [clean])
    rw [Spot.kind_eq _ _ shown, Spot.kind_eq _ _ shown, Spot.isHeading, Spot.isHeading,
      firstPicks, secondPicks, iconic, titled] at kinds
    by_cases one : line = body <;> by_cases two : other = otherBody <;> simp_all
  by_cases tied : ∃ family, Leads (charsPerFamily spot.group) family ∧
      Leads (charsPerFamily pages.flatten) family
  · have ⟨family, line, body⟩ := tied
    refine .inr ⟨family, fun other => ⟨fun leads => ?_, fun same => same ▸ line⟩,
      fun other => ⟨fun leads => ?_, fun same => same ▸ body⟩⟩
    · exact (agree family family other family line body leads body).mp rfl
    · exact ((agree family family family other line body line leads).mp rfl).symm
  · exact .inl fun family line body => tied ⟨family, line, body⟩

/-- Extraction is the same in all iteration orders if the fonts of no line that
may be a heading are tied. -/
theorem extraction_settled (pages : List (List RawSegment)) :
    (∀ first second : HashOrders,
      structurePages first pages = structurePages second pages) ↔ Settled pages :=
  ⟨settled_of_structurePages_eq, structurePages_eq_of_settled⟩

end Classification

section

attribute [local instance] ascii

def tied : List (List RawSegment) :=
  [[segment "RULES" 70 700 "Exo-Bold", segment "SETUP" 70 680 "Avenir-Book"]]

/-- The last of two equally frequent fonts is that of the body. -/
theorem order_decides_headings :
    ¬ ∀ (pages : List (List RawSegment)) (first second : HashOrders),
      structurePages first pages = structurePages second pages := by
  intro same
  have differs : structurePages ⟨inOrder, fun _ _ => inOrder⟩ tied ≠
      structurePages ⟨inReverse, fun _ _ => inOrder⟩ tied := by
    decide +kernel
  exact differs (same tied _ _)

end

end Zyndeck.Document
