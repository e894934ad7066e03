import Zyndeck.Ingester.Lines
import Zyndeck.Ingester.Section

namespace Zyndeck.Document

open Data Str Chunk

/-! Rendering a document as a transcript and splitting that again. -/

def marker (page : Nat) : Text :=
  "<!-- page ".toList ++ Nat.toDigits 10 page ++ " -->".toList

def pageUnits (page : Nat) (line : Line) : List Text :=
  if line.page ≠ page then [[], marker line.page] else []

def lineUnits (line : Line) : List Text :=
  match line.kind with
  | .heading => [[], "## ".toList ++ line.text, []]
  | .body | .icons => [line.text]

/-- The lines of the transcript, when `page` has been announced. -/
def units (page : Nat) : List Line → List Text
  | [] => []
  | line :: rest => pageUnits page line ++ lineUnits line ++ units line.page rest

theorem renderLine_eq (out : Text) (page : Nat) (line : Line) :
    renderLine (out, page) line =
      (out ++ (pageUnits page line ++ lineUnits line).flatMap (· ++ ['\n']), line.page) := by
  unfold renderLine pageUnits lineUnits marker
  by_cases same : line.page = page <;> cases line.kind <;> simp [same]

theorem foldl_renderLine (lines : List Line) (out : Text) (page : Nat) :
    (lines.foldl renderLine (out, page)).1 =
      out ++ (units page lines).flatMap (· ++ ['\n']) := by
  induction lines generalizing out page with
  | nil => simp [units]
  | cons line lines induction =>
      rw [List.foldl_cons, renderLine_eq, induction]
      simp only [units, List.flatMap_append, List.append_assoc]

theorem lines_flatMap {units : List Text} (whole : ∀ unit ∈ units, '\n' ∉ unit) :
    Str.lines (units.flatMap (· ++ ['\n'])) = units.map stripReturn := by
  induction units with
  | nil => rfl
  | cons unit units induction =>
      have apart := induction fun other member => whole other (.tail _ member)
      rw [List.flatMap_cons, List.append_assoc, Str.lines, List.singleton_append,
        linesFrom_append, linesFrom_single (whole unit (.head _))]
      rw [Str.lines] at apart
      rw [apart]
      rfl

/-- A line of a transcript that splitting finds again as it is. -/
structure Printable (text : Text) : Prop where
  first : ∀ char ∈ text.head?, isWhitespace char = false
  last : ∀ char ∈ text.getLast?, isWhitespace char = false
  whole : '\n' ∉ text

theorem Printable.trim {text : Text} (printable : Printable text) : Str.trim text = text :=
  trim_eq_self printable.first printable.last

theorem Printable.trim_stripReturn {text : Text} (printable : Printable text) :
    Str.trim (stripReturn text) = text := by
  have kept : stripReturn text = text := by
    unfold stripReturn stripSuffix
    split
    next isSuffix =>
      have ⟨front, same⟩ := List.isSuffixOf_iff_suffix.mp isSuffix
      have dark := printable.last '\r' (by rw [← same]; simp)
      cases dark
    next => rfl
  rw [kept, printable.trim]

theorem printable_nil : Printable [] := ⟨nofun, nofun, nofun⟩

theorem isWhitespace_of_isDigit {char : Char} (digit : char.isDigit = true) :
    isWhitespace char = false := by
  have bounds : 48 ≤ char.toNat ∧ char.toNat ≤ 57 := by
    simpa [Char.isDigit, UInt32.le_iff_toNat_le] using digit
  simp only [isWhitespace, Bool.or_eq_false_iff, Bool.and_eq_false_iff, decide_eq_false_iff_not,
    beq_eq_false_iff_ne]
  omega

theorem isDigit_of_mem {page : Nat} {char : Char} (member : char ∈ Nat.toDigits 10 page) :
    char.isDigit = true :=
  Nat.isDigit_of_mem_toDigits (by decide) (by decide) member

theorem printable_comment {number : Text} (whole : '\n' ∉ number) :
    Printable ("<!-- page ".toList ++ number ++ " -->".toList) where
  first := by
    have starts : ("<!-- page ".toList ++ number ++ " -->".toList).head? = some '<' := by simp
    rw [starts]
    intro char first
    cases first
    decide
  last := by
    rw [List.getLast?_append_of_ne_nil _ (by simp)]
    intro char last
    cases last
    decide
  whole := by simpa using whole

theorem printable_of_digits {number : Text} (digits : ∀ char ∈ number, char.isDigit = true) :
    Printable number where
  first char first := isWhitespace_of_isDigit (digits char (List.mem_of_mem_head? first))
  last char last := isWhitespace_of_isDigit (digits char (List.mem_of_getLast? last))
  whole := by
    intro member
    cases digits _ member

theorem printable_marker (page : Nat) : Printable (marker page) :=
  printable_comment (printable_of_digits fun _ => isDigit_of_mem).whole

theorem printable_heading {text : Text} (printable : Printable text) (nonempty : text ≠ []) :
    Printable ("## ".toList ++ text) where
  first := by
    have starts : ("## ".toList ++ text).head? = some '#' := by simp
    rw [starts]
    intro char first
    cases first
    decide
  last := by
    rw [List.getLast?_append_of_ne_nil _ nonempty]
    exact printable.last
  whole := by simpa using printable.whole

theorem parsePageMarker_comment {number : Text} {page : Nat} (printable : Printable number)
    (nonempty : number ≠ []) (parsed : parseUsize number = some page) :
    parsePageMarker ("<!-- page ".toList ++ number ++ " -->".toList) = some page := by
  have opened : "<!-- page ".toList ++ number ++ " -->".toList =
      "<!--".toList ++ ((" page ".toList ++ number ++ [' ']) ++ "-->".toList) := by
    simp
  have space : ∀ char ∈ [' '], isWhitespace char = true := fun char member =>
    List.mem_singleton.mp member ▸ isWhitespace_space
  have inner : trim (" page ".toList ++ number ++ [' ']) = "page".toList ++ (' ' :: number) := by
    have padded :
        trim ([' '] ++ ("page ".toList ++ number) ++ [' ']) = "page ".toList ++ number := by
      apply trim_pad space space
      · intro char first
        have starts : ("page ".toList ++ number).head? = some 'p' := by simp
        rw [starts] at first
        cases first
        decide
      · rw [List.getLast?_append_of_ne_nil _ nonempty]
        exact printable.last
    simpa using padded
  have digits : trim (' ' :: number) = number := by
    have padded : trim ([' '] ++ number ++ []) = number :=
      trim_pad space nofun printable.first printable.last
    simpa using padded
  simp only [opened, parsePageMarker, stripPrefix_append, Option.bind_eq_bind, Option.bind_some,
    stripSuffix_append, inner, digits, parsed]

theorem read_marker {page : Nat} (bound : page ≤ usizeMax) :
    Mark.read (marker page) = .page page := by
  have digits : ∀ char ∈ Nat.toDigits 10 page, char.isDigit = true := fun _ => isDigit_of_mem
  have parsed := parsePageMarker_comment (printable_of_digits digits) Nat.toDigits_ne_nil
    (parseUsize_toDigits bound)
  unfold Mark.read marker
  rw [parsed]

theorem parsePageMarker_heading (text : Text) : parsePageMarker ("## ".toList ++ text) = none := by
  have differ : '<' ≠ '#' := by decide
  have none_ : stripPrefix "<!--".toList ("## ".toList ++ text) = none :=
    stripPrefix_of_head_ne differ _ _
  rw [parsePageMarker, none_]
  rfl

theorem read_heading {text : Text} (printable : Printable text) :
    Mark.read ("## ".toList ++ text) = .heading text := by
  rw [Mark.read, parsePageMarker_heading, stripPrefix_append]
  simp only [printable.trim]

/-! The transcript of a document has its lines and the markers of its pages. -/

/-- Lines whose texts and pages the transcript can give. -/
def Faithful (lines : List Line) : Prop :=
  ∀ line ∈ lines, Printable line.text ∧ line.text ≠ [] ∧ line.page ≤ usizeMax

theorem printable_pageUnits (page : Nat) (line : Line) :
    ∀ unit ∈ pageUnits page line, Printable unit := by
  unfold pageUnits
  split
  · intro unit member
    cases member with
    | head => exact printable_nil
    | tail _ last => exact List.mem_singleton.mp last ▸ printable_marker line.page
  · nofun

theorem printable_lineUnits {line : Line} (printable : Printable line.text)
    (nonempty : line.text ≠ []) : ∀ unit ∈ lineUnits line, Printable unit := by
  have heading := printable_heading printable nonempty
  unfold lineUnits
  split
  · intro unit member
    simp only [List.mem_cons, List.not_mem_nil, or_false] at member
    rcases member with same | same | same
    · exact same ▸ printable_nil
    · exact same ▸ heading
    · exact same ▸ printable_nil
  all_goals
    intro unit member
    exact List.mem_singleton.mp member ▸ printable

theorem printable_units {lines : List Line} (faithful : Faithful lines) (page : Nat) :
    ∀ unit ∈ units page lines, Printable unit := by
  induction lines generalizing page with
  | nil => nofun
  | cons line lines induction =>
      have ⟨printable, nonempty, _⟩ := faithful line (.head _)
      have later := induction (fun other member => faithful other (.tail _ member)) line.page
      intro unit member
      simp only [units, List.mem_append, or_assoc] at member
      rcases member with announced | inside | after
      · exact printable_pageUnits page line unit announced
      · exact printable_lineUnits printable nonempty unit inside
      · exact later unit after

def filled (units : List Text) : List Text := units.filter fun unit => decide (unit ≠ [])

@[simp] theorem filled_append (first second : List Text) :
    filled (first ++ second) = filled first ++ filled second := List.filter_append _ _

theorem trimmed_toMarkdown {document : ExtractedDocument} (faithful : Faithful document.lines) :
    trimmed (Str.lines document.toMarkdown) = filled (units 0 document.lines) := by
  have printable := printable_units faithful 0
  have rendered : document.toMarkdown = (units 0 document.lines).flatMap (· ++ ['\n']) :=
    foldl_renderLine document.lines [] 0
  have same : ((units 0 document.lines).map stripReturn).map trim = units 0 document.lines := by
    rw [List.map_map]
    apply (List.map_congr_left fun unit member => ?_).trans (List.map_id _)
    exact (printable unit member).trim_stripReturn
  rw [rendered, lines_flatMap fun unit member => (printable unit member).whole, trimmed, same]
  rfl

def shownLine (line : Line) : Text :=
  match line.kind with
  | .heading => "## ".toList ++ line.text
  | .body | .icons => line.text

theorem filled_lineUnits {line : Line} (nonempty : line.text ≠ []) :
    filled (lineUnits line) = [shownLine line] := by
  unfold filled lineUnits shownLine
  cases line.kind <;> simp [nonempty]

theorem marker_ne_nil (page : Nat) : marker page ≠ [] :=
  List.append_ne_nil_of_right_ne_nil _ (by decide)

theorem label_units_cons (within : Section) (number page : Nat) {line : Line}
    (rest : List Line) (nonempty : line.text ≠ []) (bound : line.page ≤ usizeMax) :
    label within number (filled (units page (line :: rest))) =
      label within (if line.page ≠ page then line.page else number)
        (shownLine line :: filled (units line.page rest)) := by
  rw [units, filled_append, filled_append, filled_lineUnits nonempty, List.append_assoc,
    List.singleton_append]
  by_cases same : line.page = page
  · simp [pageUnits, filled, same]
  · have announced : filled (pageUnits page line) = [marker line.page] := by
      simp only [pageUnits, filled, ne_eq, same, not_false_eq_true, if_true, List.filter_cons,
        decide_not, marker_ne_nil, decide_false, Bool.not_false, List.filter_nil]
      rfl
    rw [announced, List.singleton_append, if_pos same]
    conv => left; unfold label
    rw [read_marker bound]

def underHeadings (within : Chunk.Section) : List Line → List BodyLine
  | [] => []
  | line :: rest =>
      match line.kind with
      | .heading => underHeadings ⟨within.number + 1, line.text⟩ rest
      | .body | .icons => ⟨within, line.page, line.text⟩ :: underHeadings within rest

/-- No line but a heading reads as a heading or as a page marker. -/
def Unmarked (lines : List Line) : Prop :=
  ∀ line ∈ lines, line.kind ≠ .heading → Mark.read line.text = .body

theorem label_heading (within : Chunk.Section) (number : Nat) {line : Line} (rest : List Text)
    (printable : Printable line.text) (heading : line.kind = .heading) :
    label within number (shownLine line :: rest) =
      label ⟨within.number + 1, line.text⟩ number rest := by
  have shown : shownLine line = "## ".toList ++ line.text := by
    simp only [shownLine, heading]
  rw [shown, label, read_heading printable]

theorem shownLine_of_ne {line : Line} (plain : line.kind ≠ .heading) :
    shownLine line = line.text := by
  unfold shownLine
  split
  next heading => exact absurd heading plain
  all_goals rfl

theorem underHeadings_of_ne (within : Chunk.Section) {line : Line} (rest : List Line)
    (plain : line.kind ≠ .heading) :
    underHeadings within (line :: rest) =
      ⟨within, line.page, line.text⟩ :: underHeadings within rest := by
  cases kind : line.kind with
  | heading => exact absurd kind plain
  | body => rw [underHeadings, kind]
  | icons => rw [underHeadings, kind]

theorem label_units {within : Chunk.Section} {number page : Nat} {lines : List Line}
    (faithful : Faithful lines) (unmarked : Unmarked lines)
    (announced : page = number ∨ ∀ line ∈ lines.head?, line.page ≠ page) :
    label within number (filled (units page lines)) = underHeadings within lines := by
  induction lines generalizing within number page with
  | nil => rfl
  | cons line rest induction =>
      have ⟨printable, nonempty, bound⟩ := faithful line (.head _)
      have current : (if line.page ≠ page then line.page else number) = line.page := by
        by_cases same : line.page = page
        · cases announced with
          | inl before => rw [if_neg (not_not_intro same), ← before, same]
          | inr apart => exact absurd same (apart line rfl)
        · exact if_pos same
      have later (section_ : Chunk.Section) :
          label section_ line.page (filled (units line.page rest)) =
            underHeadings section_ rest :=
        induction (fun other member => faithful other (.tail _ member))
          (fun other member => unmarked other (.tail _ member)) (.inl rfl)
      rw [label_units_cons within number page rest nonempty bound, current]
      by_cases heading : line.kind = .heading
      · rw [label_heading within line.page _ printable heading, later, underHeadings, heading]
      · rw [shownLine_of_ne heading, label, unmarked line (.head _) heading,
          underHeadings_of_ne within rest heading, later]

def plainTexts (lines : List Line) : List Text :=
  (lines.filter fun line => decide (line.kind ≠ .heading)).map (·.text)

theorem texts_underHeadings (within : Chunk.Section) (lines : List Line) :
    (underHeadings within lines).map (·.text) = plainTexts lines := by
  induction lines generalizing within with
  | nil => rfl
  | cons line rest induction =>
      by_cases heading : line.kind = .heading
      · rw [underHeadings, heading, induction]
        simp [plainTexts, heading]
      · rw [underHeadings_of_ne within rest heading, List.map_cons, induction]
        simp [plainTexts, heading]

theorem texts_label_units {within : Chunk.Section} {number page : Nat} {lines : List Line}
    (faithful : Faithful lines) :
    (label within number (filled (units page lines))).map (·.text) =
      (plainTexts lines).filter fun text => decide (Mark.read text = .body) := by
  induction lines generalizing within number page with
  | nil => rfl
  | cons line rest induction =>
      have ⟨printable, nonempty, bound⟩ := faithful line (.head _)
      have later (section_ : Chunk.Section) (number : Nat) :
          (label section_ number (filled (units line.page rest))).map (·.text) =
            (plainTexts rest).filter fun text => decide (Mark.read text = .body) :=
        induction fun other member => faithful other (.tail _ member)
      rw [label_units_cons within number page rest nonempty bound]
      by_cases heading : line.kind = .heading
      · rw [label_heading within _ _ printable heading, later]
        simp [plainTexts, heading]
      · have texts : plainTexts (line :: rest) = line.text :: plainTexts rest := by
          simp [plainTexts, heading]
        rw [shownLine_of_ne heading, label, texts]
        cases mark : Mark.read line.text with
        | page other => rw [later, List.filter_cons_of_neg (by simp [mark])]
        | heading title => rw [later, List.filter_cons_of_neg (by simp [mark])]
        | body =>
            rw [List.map_cons, later, List.filter_cons_of_pos (by simp [mark])]

/-- A chunk gives lines of the document, the heading they are under and the page
of the first. -/
structure Gives (chunk : Chunk) (block : List BodyLine) : Prop where
  lines : chunk.content.splitOn '\n' = block.map (·.text)
  heading : ∀ line ∈ block, chunk.heading = line.within.title
  page : ∃ first, block.head? = some first ∧ chunk.page = first.page

/-- The chunks give the lines of the document, each once and in order. -/
def Recovers (document : ExtractedDocument) (chunks : List Chunk) : Prop :=
  ∃ blocks : List (List BodyLine), blocks.flatten = underHeadings ⟨0, []⟩ document.lines ∧
    List.Forall₂ Gives chunks blocks

theorem gives_of_cites {chunk : Chunk} {block : List BodyLine} (cites : Cites chunk block)
    (whole : ∀ line ∈ block, '\n' ∉ line.text) : Gives chunk block where
  lines := by
    obtain ⟨first, head, _⟩ := cites.page
    rw [cites.content, joinLines, List.splitOn_intercalate]
    · intro text member
      obtain ⟨line, inside, rfl⟩ := List.mem_map.mp member
      exact whole line inside
    · intro empty
      rw [List.map_eq_nil_iff.mp empty] at head
      cases head
  heading := by
    obtain ⟨within, section_, title⟩ := cites.heading
    intro line member
    rw [title, section_ line member]
  page := cites.page

theorem newline_notMem_bodyLines {transcript : Text} {line : BodyLine}
    (member : line ∈ bodyLines transcript) : '\n' ∉ line.text := by
  have trimmed := (List.mem_filter.mp (mem_label member)).1
  have ⟨raw, inside, same⟩ := List.mem_map.mp trimmed
  rw [← same]
  intro newline
  exact newline_notMem_linesFrom List.not_mem_nil raw inside (mem_of_mem_trim newline)

theorem split_gives (transcript : Text) :
    List.Forall₂ Gives (split transcript) (blocks transcript) := by
  rw [split_eq, List.forall₂_map_left_iff, List.forall₂_same]
  intro block member
  apply gives_of_cites (cites_chunkOf member)
  intro line inside
  apply newline_notMem_bodyLines
  rw [← flatten_blocks]
  exact List.mem_flatten_of_mem member inside

theorem texts_of_gives {chunks : List Chunk} {blocks : List (List BodyLine)}
    (gives : List.Forall₂ Gives chunks blocks) :
    chunks.flatMap (fun chunk => chunk.content.splitOn '\n') =
      blocks.flatten.map (·.text) := by
  induction gives with
  | nil => rfl
  | cons first rest induction =>
      rw [List.flatMap_cons, first.lines, induction, List.flatten_cons, List.map_append]

theorem recovers_iff {document : ExtractedDocument} (faithful : Faithful document.lines)
    (numbered : ∀ line ∈ document.lines, line.page ≠ 0) :
    Recovers document (split document.toMarkdown) ↔ Unmarked document.lines := by
  have body : bodyLines document.toMarkdown =
      label ⟨0, []⟩ 1 (filled (units 0 document.lines)) := by
    rw [bodyLines, trimmed_toMarkdown faithful]
  constructor
  · intro recovered
    have ⟨blocks, same, gives⟩ := recovered
    have texts := (texts_of_gives gives).symm.trans (texts_of_gives (split_gives _))
    rw [same, flatten_blocks, texts_underHeadings, body, texts_label_units faithful] at texts
    intro line member plain
    have inside : line.text ∈ plainTexts document.lines :=
      List.mem_map_of_mem (List.mem_filter.mpr ⟨member, decide_eq_true plain⟩)
    exact of_decide_eq_true (List.filter_eq_self.mp texts.symm line.text inside)
  · intro unmarked
    have same : bodyLines document.toMarkdown = underHeadings ⟨0, []⟩ document.lines := by
      rw [body]
      apply label_units faithful unmarked
      exact .inr fun line first => numbered line (List.mem_of_mem_head? first)
    exact ⟨blocks document.toMarkdown, (flatten_blocks _).trans same, split_gives _⟩

section Structured

variable [Unicode]

omit [Unicode] in
theorem page_lt_of_mem_spots {pages : List (List RawSegment)} {spot : Spot}
    (member : spot ∈ spots pages) : spot.page < pages.length := by
  have ⟨page, inside, among⟩ := List.mem_flatMap.mp member
  have ⟨group, _, same⟩ := List.mem_map.mp among
  rw [← same]
  have below := (List.mem_zipIdx inside).2.1
  rwa [Nat.zero_add] at below

theorem faithful_structurePages (orders : HashOrders) {pages : List (List RawSegment)}
    (bound : pages.length ≤ usizeMax) : Faithful (structurePages orders pages).lines := by
  rw [structurePages_lines]
  intro line member
  have ⟨spot, kept, same⟩ := List.mem_map.mp member
  have shown := (List.mem_filter.mp kept).1
  have ⟨inside, nonempty⟩ := List.mem_filter.mp shown
  have spaced := spaced_normalizeWhitespace
    ((sortByLeft spot.group).flatMap fun segment => cleanSegmentText segment.text)
  rw [← same]
  refine ⟨⟨spaced.first, spaced.last, ?_⟩, of_decide_eq_true nonempty, ?_⟩
  · intro newline
    have space := eq_space_of_mem_normalizeWhitespace newline (by decide)
    revert space
    decide
  · exact Nat.le_trans (page_lt_of_mem_spots inside) bound

/-- Rendering a document and splitting the transcript agree exactly if no line
but the headings reads as a heading or as a page marker. -/
theorem markdown_agrees (orders : HashOrders) (pages : List (List RawSegment))
    (bound : pages.length ≤ usizeMax) :
    Recovers (structurePages orders pages) (split (structurePages orders pages).toMarkdown) ↔
      Unmarked (structurePages orders pages).lines := by
  apply recovers_iff (faithful_structurePages orders bound)
  rw [structurePages_lines]
  intro line member
  have ⟨spot, _, same⟩ := List.mem_map.mp member
  rw [← same]
  exact Nat.succ_ne_zero spot.page

end Structured

section

attribute [local instance] ascii

def rules : List (List RawSegment) :=
  [[segment "SETUP" 70 700 "Exo-Bold", segment "Shuffle the deck." 70 680 "Avenir-Book"]]

theorem markdown_agrees_on_rules :
    Recovers (structurePages ⟨inOrder, fun _ _ => inOrder⟩ rules)
      (split (structurePages ⟨inOrder, fun _ _ => inOrder⟩ rules).toMarkdown) := by
  apply (markdown_agrees ⟨inOrder, fun _ _ => inOrder⟩ rules (by decide)).mpr
  unfold Unmarked
  decide +kernel

def marked : List (List RawSegment) := [[segment "## of players: 2" 70 700 "Avenir-Book"]]

/-- The rule becomes a heading without lines. -/
theorem heading_swallows_line :
    ¬ ∀ (orders : HashOrders) (pages : List (List RawSegment)), pages.length ≤ usizeMax →
      Recovers (structurePages orders pages)
        (split (structurePages orders pages).toMarkdown) := by
  intro recovers
  have lines : (structurePages ⟨inOrder, fun _ _ => inOrder⟩ marked).lines =
      [⟨1, .body, "## of players: 2".toList⟩] := by
    decide +kernel
  have chunks : split (structurePages ⟨inOrder, fun _ _ => inOrder⟩ marked).toMarkdown = [] := by
    decide +kernel
  have ⟨blocks, same, gives⟩ := recovers ⟨inOrder, fun _ _ => inOrder⟩ marked (by decide)
  rw [chunks] at gives
  cases gives
  rw [lines] at same
  cases same

end

end Zyndeck.Document
