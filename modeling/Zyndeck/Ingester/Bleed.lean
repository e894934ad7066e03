import Zyndeck.Ingester.Family

namespace Zyndeck.Document

open Data Str

/-! What the caption bleed that is cut off the text of a line does to its kind. -/

section

def RawSegment.clean (segment : RawSegment) : RawSegment :=
  { segment with text := cleanSegmentText segment.text }

def cleanPages (pages : List (List RawSegment)) : List (List RawSegment) :=
  pages.map (·.map RawSegment.clean)

def Spot.clean (spot : Spot) : Spot := { spot with group := spot.group.map RawSegment.clean }

theorem cleanSegmentText_idem (text : Text) :
    cleanSegmentText (cleanSegmentText text) = cleanSegmentText text := by
  rw [cleanSegmentText_eq, cleanSegmentText_eq, List.takeWhile_idem]

theorem sortByLeft_clean (group : List RawSegment) :
    sortByLeft (group.map RawSegment.clean) = (sortByLeft group).map RawSegment.clean := by
  symm
  apply List.map_insertionSort
  intro first _ second _
  rfl

theorem assembleText_clean (group : List RawSegment) :
    assembleText (group.map RawSegment.clean) = assembleText group := by
  rw [assembleText, assembleText, sortByLeft_clean, List.flatMap_map]
  simp only [RawSegment.clean, cleanSegmentText_idem]

theorem groupIntoLines_clean (page : List RawSegment) :
    groupIntoLines (page.map RawSegment.clean) =
      (groupIntoLines page).map (·.map RawSegment.clean) := by
  rw [groupIntoLines_eq, groupBy_eq]
  apply List.splitBy_eq_iff.mpr
  have cut := cutByBaseline_groupIntoLines page
  refine ⟨?_, ?_, ?_, ?_⟩
  · rw [← List.map_flatten, cut.flatten]
  · intro member
    have ⟨group, inside, empty⟩ := List.mem_map.mp member
    exact cut.nonempty group inside (List.map_eq_nil_iff.mp empty)
  · intro other member
    have ⟨group, inside, same⟩ := List.mem_map.mp member
    rw [← same, List.isChain_map]
    exact cut.level group inside
  · rw [List.isChain_map]
    apply cut.parted.imp
    intro group next parted
    have ⟨prev, last, curr, first, apart⟩ := parted
    have ⟨front, ends⟩ := List.getLast?_eq_some_iff.mp last
    have ⟨rest, starts⟩ := List.head?_eq_some_iff.mp first
    refine ⟨by simp [ends], by simp [starts], ?_⟩
    simp only [ends, starts, List.map_append, List.map_cons, List.map_nil,
      List.getLast_append_singleton, List.head_cons]
    exact apart

theorem spots_clean (pages : List (List RawSegment)) :
    spots (cleanPages pages) = (spots pages).map Spot.clean := by
  rw [spots, spots, cleanPages, List.zipIdx_map, List.flatMap_map, List.map_flatMap]
  congr 1
  funext page
  simp only [Prod.map, id, groupIntoLines_clean, List.zipIdx_map, List.map_map]
  rfl

theorem Spot.clean_text (spot : Spot) : spot.clean.text = spot.text := assembleText_clean spot.group

theorem shownSpots_clean (pages : List (List RawSegment)) :
    shownSpots (cleanPages pages) = (shownSpots pages).map Spot.clean := by
  rw [shownSpots, spots_clean, List.filter_map, shownSpots]
  simp only [Function.comp_def, Spot.clean_text]

theorem isIconic_visible (text : Text) : isIconic (visible text) = isIconic text := by
  have nonSpace : (visible text).countP (fun char => !isWhitespace char) =
      text.countP fun char => !isWhitespace char := by
    rw [visible, List.countP_filter]
    simp only [Bool.and_self]
  have icons : (visible text).countP (fun char => !isWhitespace char && isIconGlyph char) =
      text.countP fun char => !isWhitespace char && isIconGlyph char := by
    rw [visible, List.countP_filter]
    congr 1
    funext char
    cases isWhitespace char <;> simp
  unfold isIconic
  rw [nonSpace, icons]

theorem isIconic_clean (group : List RawSegment) :
    isIconic (chars (group.map RawSegment.clean)) = isIconic (assembleText group) := by
  rw [← isIconic_visible (assembleText group), visible_assembleText, isIconic_visible]
  have same : (chars (group.map RawSegment.clean)).Perm
      ((sortByLeft group).flatMap fun segment => cleanSegmentText segment.text) := by
    rw [chars, List.flatMap_map]
    exact ((List.perm_insertionSort NotRightOf group).flatMap_right _).symm
  unfold isIconic
  rw [same.countP_eq, same.countP_eq]

variable [Unicode]

/-- The bleed of no line changes whether it passes for icons or, if it may be a heading, for one. -/
def HarmlessIn (orders : HashOrders) (pages : List (List RawSegment)) : Prop :=
  ∀ spot ∈ shownSpots pages,
    isIconic (chars spot.clean.group) = isIconic (chars spot.group) ∧
      (isIconic (chars spot.group) = false → isGarbled spot.text = false →
        spot.clean.isHeading orders (dominantBodyFamily orders.body (cleanPages pages)) =
          spot.isHeading orders (dominantBodyFamily orders.body pages))

theorem keptSpots_clean (orders : HashOrders) (pages : List (List RawSegment)) :
    keptSpots orders (cleanPages pages) = ((shownSpots pages).filter fun spot =>
      isIconic spot.text || !isGarbled spot.text).map Spot.clean := by
  rw [keptSpots_eq, shownSpots_clean, List.filter_map]
  congr 2
  funext spot
  simp only [Function.comp_apply, Spot.clean_text]
  rw [Spot.clean, isIconic_clean]
  rfl

omit [Unicode] in
theorem kind_inj {icons heading others otherHeading : Bool}
    (same : (if icons then LineKind.icons else if heading then .heading else .body) =
      if others then LineKind.icons else if otherHeading then .heading else .body) :
    icons = others ∧ (others = false → heading = otherHeading) := by
  cases icons <;> cases others <;> cases heading <;> cases otherHeading <;> simp_all

theorem harmlessIn_of_lines {orders : HashOrders} {pages : List (List RawSegment)}
    (same : (structurePages orders (cleanPages pages)).lines =
      (structurePages orders pages).lines) : HarmlessIn orders pages := by
  rw [structurePages_lines, structurePages_lines, keptSpots_clean, keptSpots_eq,
    List.map_map] at same
  -- the same texts are kept, so the same groups are
  have kept : ∀ spot ∈ shownSpots pages,
      (isIconic (chars spot.group) || !isGarbled spot.text) =
        (isIconic spot.text || !isGarbled spot.text) := by
    have texts := congrArg (List.map Line.text) same
    rw [List.map_map, List.map_map] at texts
    have agree : ((shownSpots pages).filter fun spot =>
        isIconic (chars spot.group) || !isGarbled spot.text).map Spot.text =
        ((shownSpots pages).map Spot.text).filter fun text =>
          isIconic text || !isGarbled text := by
      rw [List.filter_map]
      refine texts.symm.trans ?_
      apply List.map_congr_left
      intro spot _
      exact spot.clean_text
    exact filter_agree agree
  rw [List.filter_congr kept] at same
  intro spot member
  have shown := mem_shownSpots member
  cases keeps : isIconic spot.text || !isGarbled spot.text with
  | false =>
      have before := (kept spot member).trans keeps
      rw [Bool.or_eq_false_iff] at before keeps
      rw [Spot.clean, isIconic_clean, ← Spot.text, keeps.1, before.1]
      refine ⟨rfl, fun _ clean => ?_⟩
      rw [clean] at keeps
      cases keeps.2
  | true =>
      have line := List.map_inj_left.mp same spot (List.mem_filter.mpr ⟨member, keeps⟩)
      have kinds := congrArg Line.kind line
      simp only [Function.comp_apply, Spot.line] at kinds
      rw [Spot.kind_eq _ _ shown, Spot.kind_eq _ _ (spot.clean_text ▸ shown)] at kinds
      obtain ⟨iconic, heading⟩ := kind_inj kinds
      exact ⟨iconic, fun plain _ => heading plain⟩

theorem lines_of_harmlessIn {orders : HashOrders} {pages : List (List RawSegment)}
    (free : HarmlessIn orders pages) :
    (structurePages orders (cleanPages pages)).lines = (structurePages orders pages).lines := by
  rw [structurePages_lines, structurePages_lines, keptSpots_clean, keptSpots_eq, List.map_map]
  have kept : (shownSpots pages).filter (fun spot =>
      isIconic spot.text || !isGarbled spot.text) =
      (shownSpots pages).filter fun spot =>
        isIconic (chars spot.group) || !isGarbled spot.text := by
    apply List.filter_congr
    intro spot member
    have iconic := (free spot member).1
    rw [Spot.clean, isIconic_clean] at iconic
    rw [Spot.text, iconic]
  rw [kept]
  apply List.map_congr_left
  intro spot inside
  have ⟨member, keeps⟩ := List.mem_filter.mp inside
  have ⟨iconic, heading⟩ := free spot member
  have shown := mem_shownSpots member
  have kinds : spot.clean.kind orders (dominantBodyFamily orders.body (cleanPages pages)) =
      spot.kind orders (dominantBodyFamily orders.body pages) := by
    rw [Spot.kind_eq _ _ shown, Spot.kind_eq _ _ (spot.clean_text ▸ shown), iconic]
    cases icons : isIconic (chars spot.group) with
    | true => rw [if_pos rfl, if_pos rfl]
    | false =>
        have clean : isGarbled spot.text = false := by simpa [icons] using keeps
        rw [heading icons clean]
  simp only [Function.comp_apply, Spot.line, kinds, Spot.clean_text]
  rfl

theorem structurePages_clean_iff (orders : HashOrders) (pages : List (List RawSegment)) :
    structurePages orders (cleanPages pages) = structurePages orders pages ↔
      HarmlessIn orders pages := by
  constructor
  · intro same
    exact harmlessIn_of_lines (congrArg ExtractedDocument.lines same)
  · intro free
    apply structurePages_ext (lines_of_harmlessIn free)
    rw [shownSpots_clean, List.length_map]

omit [Unicode] in
theorem charsPerFamily_snoc (segments : List RawSegment) (segment : RawSegment) :
    charsPerFamily (segments ++ [segment]) =
      if fontFamily segment.font = [] then charsPerFamily segments
      else addTo (fontFamily segment.font) (segment.text.countP fun char => !isIconGlyph char)
        (charsPerFamily segments) := by
  simp only [charsPerFamily, List.foldl_append, List.foldl_cons, List.foldl_nil]

omit [Unicode] in
theorem families_clean (segments : List RawSegment) :
    (charsPerFamily segments).map (·.1) =
      (charsPerFamily (segments.map RawSegment.clean)).map (·.1) := by
  induction segments using List.reverseRecOn with
  | nil => rfl
  | append_singleton segments segment induction =>
      rw [List.map_append, List.map_singleton, charsPerFamily_snoc, charsPerFamily_snoc]
      change _ = (if fontFamily segment.font = [] then _ else _ : List (Text × Nat)).map (·.1)
      split
      · exact induction
      · rw [map_fst_addTo, map_fst_addTo, induction]
        rfl

omit [Unicode] in
theorem families_nodup (segments : List RawSegment) :
    ((charsPerFamily segments).map (·.1)).Nodup := by
  induction segments using List.reverseRecOn with
  | nil => exact List.nodup_nil
  | append_singleton segments segment induction =>
      rw [charsPerFamily_snoc]
      split
      · exact induction
      · rw [map_fst_addTo]
        split
        · exact induction
        · exact List.nodup_append.mpr ⟨induction, by simp, by grind⟩

omit [Unicode] in
theorem charsPerFamily_eq_nil {segments : List RawSegment} :
    charsPerFamily segments = [] ↔ ∀ segment ∈ segments, fontFamily segment.font = [] := by
  induction segments using List.reverseRecOn with
  | nil => exact ⟨fun _ => nofun, fun _ => rfl⟩
  | append_singleton segments segment induction =>
      have counted : ∀ key amount (entries : List (Text × Nat)),
          addTo key amount entries ≠ [] := by
        intro key amount entries
        cases entries with
        | nil => simp [addTo]
        | cons => unfold addTo; split <;> simp
      rw [charsPerFamily_snoc]
      split <;> simp_all [or_imp, forall_and]

omit [Unicode] in
theorem charsPerFamily_flatten_ne_nil {pages : List (List RawSegment)} {spot : Spot}
    (member : spot ∈ shownSpots pages) (named : charsPerFamily spot.group ≠ []) :
    charsPerFamily pages.flatten ≠ [] := by
  intro none
  refine named (charsPerFamily_eq_nil.mpr fun segment inGroup => ?_)
  have ⟨page, isPage, inPage⟩ := List.mem_flatMap.mp (List.mem_filter.mp member).1
  have ⟨group, isGroup, isSpot⟩ := List.mem_map.mp inPage
  subst isSpot
  refine charsPerFamily_eq_nil.mp none segment (List.mem_flatten.mpr
    ⟨page.1, List.fst_mem_of_mem_zipIdx isPage, ?_⟩)
  rw [← (cutByBaseline_groupIntoLines page.1).flatten]
  exact List.mem_flatten.mpr ⟨_, List.fst_mem_of_mem_zipIdx isGroup, inGroup⟩

/-- What `classify` counts on a line. -/
structure Counts where
  nonSpace : Nat
  icons : Nat
  letters : Nat
  length : Nat
  upper : Nat
  cased : Nat

namespace Counts

def ofText (text : Text) : Counts where
  nonSpace := text.countP fun char => !isWhitespace char
  icons := text.countP fun char => !isWhitespace char && isIconGlyph char
  letters := text.countP Unicode.isAlphabetic
  length := text.length
  upper := text.countP Unicode.isUppercase
  cased := text.countP fun char => Unicode.isUppercase char || Unicode.isLowercase char

def Iconic (counts : Counts) : Prop :=
  counts.nonSpace ≠ 0 ∧
    Float32.ofNat counts.icons / Float32.ofNat counts.nonSpace ≥ iconCharRatio

def Titled (counts : Counts) : Prop :=
  minHeadingLetters ≤ counts.letters ∧ counts.length ≤ maxHeadingChars ∧ 0 < counts.cased ∧
    Float32.ofNat counts.upper / Float32.ofNat counts.cased ≥ headingUppercaseRatio

theorem isIconic_iff {text : Text} : isIconic text = true ↔ (ofText text).Iconic := by
  simp only [isIconic, Bool.and_eq_true, decide_eq_true_eq]
  rfl

theorem isTitled_iff {group : List RawSegment} :
    isTitled group = true ↔ (ofText (chars group)).Titled := by
  simp only [isTitled, isMostlyUppercase, Bool.and_eq_true, decide_eq_true_eq, and_assoc]
  rfl

end Counts

/-- With the bleed counted and without, every line with any text has as many icons as make it
icons, or not. If it is neither icons nor garbled, it has the letters, length and case of a title
and a font other than that of the body, or not, for all leading fonts that one tie-break may
pick. -/
def BleedFree (pages : List (List RawSegment)) : Prop :=
  ∀ spot ∈ shownSpots pages,
    let bled := Counts.ofText (chars spot.group)
    let clean := Counts.ofText (chars spot.clean.group)
    (clean.Iconic ↔ bled.Iconic) ∧ (¬ bled.Iconic → isGarbled spot.text = false →
      ∀ line cleanLine body cleanBody,
        PickedTogether (charsPerFamily spot.group) (charsPerFamily spot.clean.group)
            line cleanLine →
          PickedTogether (charsPerFamily pages.flatten) (charsPerFamily (cleanPages pages).flatten)
              body cleanBody →
            (clean.Titled ∧ cleanLine ≠ cleanBody ↔ bled.Titled ∧ line ≠ body))

/-- The iteration orders are decided by the fonts that occur. -/
structure HashOrders.ByKeys (orders : HashOrders) : Prop where
  body : orders.body.ByKeys
  line : ∀ page place, (orders.line page place).ByKeys

omit [Unicode] in
theorem dominantFamily_of_picked {order : HashOrder Text} {group : List RawSegment}
    {picked : Text × Nat}
    (found : maxByCount (order.iterate (charsPerFamily group)) = some picked) :
    dominantFamily order group = some picked.1 := by
  rw [dominantFamily, found]
  rfl

omit [Unicode] in
theorem dominantBodyFamily_of_picked {order : HashOrder Text} {pages : List (List RawSegment)}
    {picked : Text × Nat}
    (found : maxByCount (order.iterate (charsPerFamily pages.flatten)) = some picked) :
    dominantBodyFamily order pages = picked.1 := by
  rw [dominantBodyFamily, found]

theorem isHeading_iff_of_picked {orders : HashOrders} {spot : Spot}
    {pages : List (List RawSegment)} {line body : Text × Nat}
    (linePicked : maxByCount ((orders.line spot.page spot.place).iterate
      (charsPerFamily spot.group)) = some line)
    (bodyPicked : maxByCount (orders.body.iterate (charsPerFamily pages.flatten)) = some body) :
    spot.isHeading orders (dominantBodyFamily orders.body pages) = true ↔
      (Counts.ofText (chars spot.group)).Titled ∧ line.1 ≠ body.1 := by
  rw [Spot.isHeading, isDistinct, dominantFamily_of_picked linePicked,
    dominantBodyFamily_of_picked bodyPicked, Bool.and_eq_true, decide_eq_true_eq,
    Counts.isTitled_iff, and_comm]

theorem isHeading_of_unnamed {orders : HashOrders} {spot : Spot} {bodyFamily : Text}
    (unnamed : charsPerFamily spot.group = []) : spot.isHeading orders bodyFamily = false := by
  rw [Spot.isHeading, isDistinct, dominantFamily_eq_none.mpr unnamed]
  rfl

theorem harmlessIn_of_bleedFree {pages : List (List RawSegment)} (free : BleedFree pages)
    {orders : HashOrders} (byKeys : orders.ByKeys) : HarmlessIn orders pages := by
  intro spot member
  have ⟨icons, headings⟩ := free spot member
  refine ⟨?_, fun plain clean => ?_⟩
  · rw [Bool.eq_iff_iff, Counts.isIconic_iff, Counts.isIconic_iff]
    exact icons
  have plainCounts : ¬ (Counts.ofText (chars spot.group)).Iconic := by
    rw [← Counts.isIconic_iff, plain]
    exact Bool.false_ne_true
  have lineKeys := families_clean spot.group
  have bodyKeys := families_clean pages.flatten
  rw [show pages.flatten.map RawSegment.clean = (cleanPages pages).flatten from
    List.map_flatten] at bodyKeys
  by_cases unnamed : charsPerFamily spot.group = []
  · have alsoUnnamed : charsPerFamily spot.clean.group = [] := by
      rw [unnamed, List.map_nil] at lineKeys
      exact List.map_eq_nil_iff.mp lineKeys.symm
    rw [isHeading_of_unnamed unnamed, isHeading_of_unnamed alsoUnnamed]
  -- both the line and the document have a font, with the bleed and without
  have picks (order : HashOrder Text) {entries : List (Text × Nat)} (nonempty : entries ≠ []) :
      ∃ picked, maxByCount (order.iterate entries) = some picked := by
    refine Option.ne_none_iff_exists'.mp fun none => nonempty ?_
    exact iterate_eq_nil.mp (maxByCount_eq_none.mp none)
  have named := charsPerFamily_flatten_ne_nil member unnamed
  have nonempty : ∀ {entries others : List (Text × Nat)},
      entries.map (·.1) = others.map (·.1) → entries ≠ [] → others ≠ [] := by
    rintro entries others same nonempty rfl
    exact nonempty (List.map_eq_nil_iff.mp same)
  have ⟨line, linePicked⟩ := picks (orders.line spot.page spot.place) unnamed
  have ⟨cleanLine, cleanLinePicked⟩ :=
    picks (orders.line spot.page spot.place) (nonempty lineKeys unnamed)
  have ⟨body, bodyPicked⟩ := picks orders.body named
  have ⟨cleanBody, cleanBodyPicked⟩ := picks orders.body (nonempty bodyKeys named)
  have agree := headings plainCounts clean _ _ _ _
    ((byKeys.line spot.page spot.place).together lineKeys (families_nodup _) linePicked
      cleanLinePicked)
    (byKeys.body.together bodyKeys (families_nodup _) bodyPicked cleanBodyPicked)
  rw [Bool.eq_iff_iff]
  exact (isHeading_iff_of_picked cleanLinePicked cleanBodyPicked).trans
    (agree.trans (isHeading_iff_of_picked linePicked bodyPicked).symm)

theorem bleedFree_of_harmlessIn {pages : List (List RawSegment)}
    (harmless : ∀ orders : HashOrders, orders.ByKeys → HarmlessIn orders pages) :
    BleedFree pages := by
  intro spot member bled clean
  have icons : isIconic (chars spot.clean.group) = isIconic (chars spot.group) := by
    have byKeys := HashOrder.byKeys_byRank fun _ : Text => 0
    exact (harmless ⟨_, fun _ _ => _⟩ ⟨byKeys, fun _ _ => byKeys⟩ spot member).1
  refine ⟨?_, fun plain clean line cleanLine body cleanBody lines bodies => ?_⟩
  · rw [← Counts.isIconic_iff, ← Counts.isIconic_iff, icons]
  · have ⟨lineOrder, lineKeys, ⟨_, linePicked⟩, _, cleanLinePicked⟩ := lines.exists_order
    have ⟨bodyOrder, bodyKeys, ⟨_, bodyPicked⟩, _, cleanBodyPicked⟩ := bodies.exists_order
    have ⟨_, heading⟩ :=
      harmless ⟨bodyOrder, fun _ _ => lineOrder⟩ ⟨bodyKeys, fun _ _ => lineKeys⟩ spot member
    have isPlain : isIconic (chars spot.group) = false := by
      rw [← Counts.isIconic_iff] at plain
      exact Bool.eq_false_iff.mpr plain
    have agree := Bool.eq_iff_iff.mp (heading isPlain clean)
    exact (isHeading_iff_of_picked cleanLinePicked cleanBodyPicked).symm.trans
      (agree.trans (isHeading_iff_of_picked linePicked bodyPicked))

/-- The bleed has no influence, however ties between fonts are broken, if the counts of every
line come to the same with it and without. -/
theorem bleed_harmless (pages : List (List RawSegment)) :
    (∀ orders : HashOrders, orders.ByKeys →
      structurePages orders (cleanPages pages) = structurePages orders pages) ↔
        BleedFree pages := by
  simp only [structurePages_clean_iff]
  exact ⟨bleedFree_of_harmlessIn, fun free _ byKeys => harmlessIn_of_bleedFree free byKeys⟩

end

section

attribute [local instance] ascii

def bled : List (List RawSegment) :=
  [[segment "All the rules are in this document." 70 700 "Avenir-Book",
    segment "RULES\rvoid" 70 680 "Exo-Bold"]]

/-- The small letters after the line break keep the title from being a heading. -/
theorem bleed_hides_heading :
    ¬ ∀ (orders : HashOrders) (pages : List (List RawSegment)), orders.ByKeys →
      structurePages orders (cleanPages pages) = structurePages orders pages := by
  intro same
  have differs : structurePages ⟨inOrder, fun _ _ => inOrder⟩ (cleanPages bled) ≠
      structurePages ⟨inOrder, fun _ _ => inOrder⟩ bled := by
    decide +kernel
  have byKeys : inOrder.ByKeys := fun _ _ keys => keys
  exact differs (same _ bled ⟨byKeys, fun _ _ => byKeys⟩)

end

end Zyndeck.Document
