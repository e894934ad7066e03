import Zyndeck.Data.Grouping
import Zyndeck.Ingester.Document

namespace Zyndeck.Document

open Data Str

/-! What the lines of a structured document keep of its segments. -/

section Grouping

theorem breakAt_eq (page : List RawSegment) : breakAt page = breakBy sameLine page := by
  funext state i
  unfold breakAt breakBy
  cases page[i - 1]? with
  | none => rfl
  | some prev => cases page[i]? <;> rfl

theorem groupIntoLines_eq (page : List RawSegment) :
    groupIntoLines page = groupBy sameLine page := by
  rw [groupIntoLines, groupBy, breakAt_eq]

/-- Groups that are the page cut where the baselines part. -/
structure CutByBaseline (page : List RawSegment) (groups : List (List RawSegment)) : Prop where
  flatten : groups.flatten = page
  nonempty : ∀ group ∈ groups, group ≠ []
  level : ∀ group ∈ groups, group.IsChain fun prev curr => sameLine prev curr = true
  parted : groups.IsChain fun group next =>
    ∃ prev ∈ group.getLast?, ∃ curr ∈ next.head?, sameLine prev curr = false

theorem cutByBaseline_groupIntoLines (page : List RawSegment) :
    CutByBaseline page (groupIntoLines page) := by
  have cut := cutBetween_groupBy sameLine page
  rw [← groupIntoLines_eq] at cut
  exact ⟨cut.flatten, cut.nonempty, cut.level, cut.parted⟩

end Grouping

section Whitespace

def IsWord (word : Text) : Prop := word ≠ [] ∧ ∀ char ∈ word, isWhitespace char = false

/-- Text without leading, trailing or doubled whitespace. -/
structure Spaced (text : Text) : Prop where
  first : ∀ char ∈ text.head?, isWhitespace char = false
  last : ∀ char ∈ text.getLast?, isWhitespace char = false
  apart : text.IsChain fun char next => ¬ (isWhitespace char = true ∧ isWhitespace next = true)

def visible (text : Text) : Text := text.filter fun char => !isWhitespace char

theorem isWord_of_splitOnP {text word : Text} (member : word ∈ text.splitOnP isWhitespace) :
    ∀ char ∈ word, isWhitespace char = false := by
  induction text generalizing word with
  | nil =>
      cases List.mem_singleton.mp member
      nofun
  | cons char text induction =>
      rw [List.splitOnP_cons_eq_if_modifyHead] at member
      split at member
      next =>
        cases member with
        | head => nofun
        | tail _ later => exact induction later
      next dark =>
        cases pieces : text.splitOnP isWhitespace with
        | nil => exact absurd pieces (List.splitOnP_ne_nil _ _)
        | cons piece rest =>
            rw [pieces] at member
            cases member with
            | head => simpa [dark] using induction (pieces ▸ .head _)
            | tail _ later => exact induction (pieces ▸ .tail _ later)

theorem flatten_splitOnP (text : Text) :
    (text.splitOnP isWhitespace).flatten = visible text := by
  induction text with
  | nil => rfl
  | cons char text induction =>
      rw [List.splitOnP_cons_eq_if_modifyHead]
      split
      next white => simpa [visible, white] using induction
      next dark =>
        cases pieces : text.splitOnP isWhitespace with
        | nil => exact absurd pieces (List.splitOnP_ne_nil _ _)
        | cons piece rest =>
            rw [pieces] at induction
            simpa [visible, dark] using induction

theorem isWord_of_splitWhitespace {text word : Text} (member : word ∈ splitWhitespace text) :
    IsWord word := by
  have ⟨inside, nonempty⟩ := List.mem_filter.mp member
  exact ⟨of_decide_eq_true nonempty, isWord_of_splitOnP inside⟩

theorem flatten_splitWhitespace (text : Text) :
    (splitWhitespace text).flatten = visible text := by
  rw [splitWhitespace, List.flatten_filter_ne_nil, flatten_splitOnP]

theorem visible_of_isWord {word : Text} (isWord : IsWord word) : visible word = word := by
  apply List.filter_eq_self.mpr
  intro char member
  rw [isWord.2 char member]
  rfl

theorem spaced_of_isWord {word : Text} (isWord : IsWord word) : Spaced word where
  first char first := isWord.2 char (List.mem_of_mem_head? first)
  last char last := isWord.2 char (List.mem_of_getLast? last)
  apart := by
    apply List.Pairwise.isChain
    apply List.pairwise_of_forall_mem_list
    intro char member _ _ both
    rw [isWord.2 char member] at both
    cases both.1

theorem isWhitespace_space : isWhitespace ' ' = true := by decide

theorem Spaced.join {word text : Text} (isWord : IsWord word) (nonempty : text ≠ [])
    (spaced : Spaced text) : Spaced (word ++ ' ' :: text) where
  first char first := by
    rw [List.head?_append_of_ne_nil _ isWord.1] at first
    exact (spaced_of_isWord isWord).first char first
  last char last := by
    rw [List.getLast?_append_of_ne_nil _ (List.cons_ne_nil _ _),
      List.getLast?_cons_of_ne_nil nonempty] at last
    exact spaced.last char last
  apart := by
    apply (spaced_of_isWord isWord).apart.append
    · apply List.isChain_cons.mpr
      refine ⟨fun char first both => ?_, spaced.apart⟩
      rw [spaced.first char first] at both
      cases both.2
    · intro char last _ _ both
      rw [(spaced_of_isWord isWord).last char last] at both
      cases both.1

theorem spaced_intercalate {words : List Text} (areWords : ∀ word ∈ words, IsWord word) :
    Spaced ([' '].intercalate words) ∧ visible ([' '].intercalate words) = words.flatten ∧
      (words ≠ [] → [' '].intercalate words ≠ []) := by
  induction words with
  | nil => exact ⟨⟨nofun, nofun, .nil⟩, rfl, fun nonempty => absurd rfl nonempty⟩
  | cons word words induction =>
      have isWord := areWords word (.head _)
      cases words with
      | nil => simpa using ⟨spaced_of_isWord isWord, visible_of_isWord isWord, isWord.1⟩
      | cons second words =>
          have ⟨spaced, shown, nonempty⟩ :=
            induction fun other member => areWords other (.tail _ member)
          rw [List.intercalate_cons_cons, List.append_assoc]
          refine ⟨.join isWord (nonempty (by simp)) spaced, ?_, by simp⟩
          have space : visible ([' '] ++ [' '].intercalate (second :: words)) =
              (second :: words).flatten := by
            rw [← shown]
            simp [visible, isWhitespace_space]
          rw [visible, List.filter_append, ← visible, ← visible, visible_of_isWord isWord, space]
          rfl

theorem spaced_normalizeWhitespace (text : Text) : Spaced (normalizeWhitespace text) :=
  (spaced_intercalate fun _ => isWord_of_splitWhitespace).1

theorem visible_normalizeWhitespace (text : Text) :
    visible (normalizeWhitespace text) = visible text := by
  rw [normalizeWhitespace, (spaced_intercalate fun _ => isWord_of_splitWhitespace).2.1,
    flatten_splitWhitespace]

theorem eq_space_of_mem_normalizeWhitespace {text : Text} {char : Char}
    (member : char ∈ normalizeWhitespace text) (white : isWhitespace char = true) :
    char = ' ' := by
  cases mem_intercalate member with
  | inl space => exact space
  | inr among =>
      have ⟨word, found, inside⟩ := among
      rw [(isWord_of_splitWhitespace found).2 char inside] at white
      cases white

end Whitespace

section Assembly

abbrev NotRightOf (first second : RawSegment) : Prop :=
  first.left.totalKey ≤ second.left.totalKey

/-- Segments in the order of their left edges, with ties as they were. -/
structure SortedByLeft (group ordered : List RawSegment) : Prop where
  perm : ordered.Perm group
  sorted : ordered.Pairwise NotRightOf
  stable : ∀ key : Int, ordered.filter (fun segment => decide (segment.left.totalKey = key)) =
    group.filter fun segment => decide (segment.left.totalKey = key)

instance : Std.Total NotRightOf := ⟨fun _ _ => Int.le_total _ _⟩

instance : IsTrans RawSegment NotRightOf := ⟨fun _ _ _ => Int.le_trans⟩

theorem sortedByLeft_sortByLeft (group : List RawSegment) :
    SortedByLeft group (sortByLeft group) where
  perm := List.perm_insertionSort _ group
  sorted := List.pairwise_insertionSort NotRightOf group
  stable key := by
    let here (segment : RawSegment) : Bool := decide (segment.left.totalKey = key)
    have level : (group.filter here).Pairwise NotRightOf := by
      apply List.pairwise_of_forall_mem_list
      intro first member second other
      have firstKey := of_decide_eq_true (List.mem_filter.mp member).2
      have secondKey := of_decide_eq_true (List.mem_filter.mp other).2
      exact Int.le_of_eq (firstKey.trans secondKey.symm)
    have kept : (group.filter here).Sublist (sortByLeft group) :=
      List.sublist_insertionSort level List.filter_sublist
    have filtered := kept.filter here
    simp only [List.filter_filter, Bool.and_self] at filtered
    have lengths := ((List.perm_insertionSort NotRightOf group).filter here).length_eq
    exact (filtered.eq_of_length lengths.symm).symm

theorem cleanSegmentText_eq (text : Text) :
    cleanSegmentText text = text.takeWhile fun char => !(char == '\r' || char == '\n') := by
  unfold cleanSegmentText
  induction text with
  | nil => rfl
  | cons char text induction =>
      rw [List.findIdx?_cons]
      cases breaks : (char == '\r' || char == '\n') with
      | true => simp only [if_true, List.take_zero, List.takeWhile_cons, breaks]; rfl
      | false =>
          simp only [List.takeWhile_cons, breaks, ← induction]
          cases text.findIdx? fun char => char == '\r' || char == '\n' <;> rfl

theorem visible_assembleText (group : List RawSegment) :
    visible (assembleText group) =
      visible ((sortByLeft group).flatMap fun segment => cleanSegmentText segment.text) :=
  visible_normalizeWhitespace _

/-- A line of text from a group: what its sorted segments show, up to their
first breaks. -/
def Conserves (group : List RawSegment) (text : Text) : Prop :=
  ∃ ordered, SortedByLeft group ordered ∧
    visible text = visible (ordered.flatMap fun segment =>
      segment.text.takeWhile fun char => !(char == '\r' || char == '\n'))

theorem conserves_assembleText (group : List RawSegment) :
    Conserves group (assembleText group) := by
  refine ⟨sortByLeft group, sortedByLeft_sortByLeft group, ?_⟩
  simp only [visible_assembleText, cleanSegmentText_eq]

end Assembly

section Accounting

variable [Unicode]

/-- A group of segments with its page and its place there. -/
structure Spot where
  page : Nat
  place : Nat
  group : List RawSegment

namespace Spot

def text (spot : Spot) : Text := assembleText spot.group

def kind (orders : HashOrders) (bodyFamily : Text) (spot : Spot) : LineKind :=
  classify (orders.line spot.page spot.place) spot.group bodyFamily

def isKept (orders : HashOrders) (bodyFamily : Text) (spot : Spot) : Bool :=
  decide (spot.kind orders bodyFamily = .icons) || !isGarbled spot.text

def line (orders : HashOrders) (bodyFamily : Text) (spot : Spot) : Line :=
  ⟨spot.page + 1, spot.kind orders bodyFamily, spot.text⟩

end Spot

def spots (pages : List (List RawSegment)) : List Spot :=
  pages.zipIdx.flatMap fun page =>
    (groupIntoLines page.1).zipIdx.map fun group => ⟨page.2, group.2, group.1⟩

def shownSpots (pages : List (List RawSegment)) : List Spot :=
  (spots pages).filter fun spot => decide (spot.text ≠ [])

def readSpot (orders : HashOrders) (bodyFamily : Text) (document : ExtractedDocument)
    (spot : Spot) : ExtractedDocument :=
  structureLine (orders.line spot.page spot.place) bodyFamily (spot.page + 1) document spot.group

theorem structurePages_eq_foldl (orders : HashOrders) (pages : List (List RawSegment)) :
    structurePages orders pages =
      (spots pages).foldl
        (readSpot orders (dominantBodyFamily orders.body pages)) ⟨[], ⟨0, 0⟩⟩ := by
  rw [structurePages, spots, List.foldl_flatMap]
  simp only [List.foldl_map]
  rfl

theorem readSpot_cases (orders : HashOrders) (bodyFamily : Text) (document : ExtractedDocument)
    (spot : Spot) :
    readSpot orders bodyFamily document spot =
      if spot.text = [] then document
      else if spot.isKept orders bodyFamily then
        ⟨document.lines ++ [spot.line orders bodyFamily],
          document.report.kept + 1, document.report.droppedGarbled⟩
      else ⟨document.lines, document.report.kept, document.report.droppedGarbled + 1⟩ := by
  change (if spot.text = [] then document
    else if (decide (spot.kind orders bodyFamily ≠ .icons) && isGarbled spot.text) = true then _
    else _) = _
  by_cases blank : spot.text = []
  · rw [if_pos blank, if_pos blank]
  · rw [if_neg blank, if_neg blank]
    by_cases icons : spot.kind orders bodyFamily = .icons
    · rw [if_neg (by simp [icons]), if_pos (by simp [Spot.isKept, icons])]
      rfl
    · cases garbled : isGarbled spot.text with
      | true => rw [if_pos (by simp [icons]), if_neg (by simp [Spot.isKept, icons, garbled])]
      | false =>
          rw [if_neg (by simp), if_pos (by simp [Spot.isKept, garbled])]
          rfl

theorem foldl_readSpot (orders : HashOrders) (bodyFamily : Text) (spots : List Spot)
    (document : ExtractedDocument) :
    let shown := spots.filter fun spot => decide (spot.text ≠ [])
    let kept := shown.filter fun spot => spot.isKept orders bodyFamily
    let dropped := shown.filter fun spot => !spot.isKept orders bodyFamily
    spots.foldl (readSpot orders bodyFamily) document =
      ⟨document.lines ++ kept.map (Spot.line orders bodyFamily),
        document.report.kept + kept.length, document.report.droppedGarbled + dropped.length⟩ := by
  induction spots generalizing document with
  | nil => simp
  | cons spot spots induction =>
      simp only at induction ⊢
      rw [List.foldl_cons, induction, readSpot_cases]
      by_cases blank : spot.text = []
      · simp [blank]
      · cases kept : spot.isKept orders bodyFamily
        · simp [blank, kept]
          omega
        · simp [blank, kept]
          omega

def keptSpots (orders : HashOrders) (pages : List (List RawSegment)) : List Spot :=
  (shownSpots pages).filter fun spot =>
    spot.isKept orders (dominantBodyFamily orders.body pages)

theorem structurePages_lines (orders : HashOrders) (pages : List (List RawSegment)) :
    (structurePages orders pages).lines =
      (keptSpots orders pages).map (Spot.line orders (dominantBodyFamily orders.body pages)) := by
  rw [structurePages_eq_foldl, foldl_readSpot]
  rfl

theorem structurePages_report (orders : HashOrders) (pages : List (List RawSegment)) :
    (structurePages orders pages).report.kept = (keptSpots orders pages).length ∧
      (structurePages orders pages).report.kept +
        (structurePages orders pages).report.droppedGarbled = (shownSpots pages).length := by
  rw [structurePages_eq_foldl, foldl_readSpot]
  constructor
  · simp [keptSpots, shownSpots]
  · simp only [Nat.zero_add]
    exact (List.length_eq_length_filter_add _).symm

/-- Structuring a document conserves its text and accounts for every line. -/
theorem structure_conserves (orders : HashOrders) (pages : List (List RawSegment)) :
    let bodyFamily := dominantBodyFamily orders.body pages
    let document := structurePages orders pages
    (∀ page ∈ pages, CutByBaseline page (groupIntoLines page)) ∧
      document.lines = ((shownSpots pages).filter fun spot =>
        decide (spot.kind orders bodyFamily = .icons) || !isGarbled spot.text).map
          (Spot.line orders bodyFamily) ∧
      document.report.kept = document.lines.length ∧
      document.report.kept + document.report.droppedGarbled = (shownSpots pages).length ∧
      ∀ spot ∈ spots pages, Conserves spot.group spot.text ∧ Spaced spot.text := by
  have ⟨kept, total⟩ := structurePages_report orders pages
  refine ⟨fun page _ => cutByBaseline_groupIntoLines page, structurePages_lines orders pages,
    ?_, total, fun spot _ => ⟨conserves_assembleText spot.group, spaced_normalizeWhitespace _⟩⟩
  rw [kept, structurePages_lines, List.length_map]

end Accounting

end Zyndeck.Document
