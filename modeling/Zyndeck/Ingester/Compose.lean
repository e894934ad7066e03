import Zyndeck.Ingester.Markdown

namespace Zyndeck.Chunk

open Data Str

/-! Transcripts put together at headings. -/

theorem trim_append_blank (text : Text) {char : Char} (blank : isWhitespace char = true) :
    trim (text ++ [char]) = trim text := by
  unfold trim
  rw [List.dropWhile_append]
  cases rest : text.dropWhile isWhitespace with
  | nil => simp [blank]
  | cons first rest => simp [blank]

theorem trim_stripReturn (line : Text) : trim (stripReturn line) = trim line := by
  unfold stripReturn stripSuffix
  split
  next isSuffix =>
      obtain ⟨front, rfl⟩ := List.isSuffixOf_iff_suffix.mp isSuffix
      simp [trim_append_blank front (by decide : isWhitespace '\r' = true)]
  next => rfl

@[simp] theorem trimmed_append (first second : List Text) :
    trimmed (first ++ second) = trimmed first ++ trimmed second := by
  simp [trimmed]

theorem trimmed_linesFrom_newline (line text : Text) :
    trimmed (linesFrom line (text ++ ['\n'])) = trimmed (linesFrom line text) := by
  induction text generalizing line with
  | nil =>
      by_cases empty : line = []
      · subst empty
        rfl
      · simp [linesFrom, empty, trimmed, trim_stripReturn]
  | cons char text induction =>
      rw [List.cons_append, linesFrom, linesFrom]
      split
      · rw [← List.singleton_append, trimmed_append, induction, ← trimmed_append,
          List.singleton_append]
      · exact induction _

theorem trimmed_lines_append (first second : Text) :
    trimmed (lines (first ++ '\n' :: second)) =
      trimmed (lines first) ++ trimmed (lines second) := by
  rw [lines, linesFrom_append, trimmed_append, trimmed_linesFrom_newline]
  rfl

def lastPage (page : Nat) : List Text → Nat
  | [] => page
  | line :: rest =>
      match Mark.read line with
      | .page number => lastPage number rest
      | .heading _ | .body => lastPage page rest

def lastSection (within : Section) : List Text → Section
  | [] => within
  | line :: rest =>
      match Mark.read line with
      | .heading title => lastSection ⟨within.number + 1, title⟩ rest
      | .page _ | .body => lastSection within rest

def Opens : List Text → Prop
  | [] => True
  | line :: rest =>
      match Mark.read line with
      | .page _ => Opens rest
      | .heading _ => True
      | .body => False

theorem label_append (within : Section) (page : Nat) (first second : List Text) :
    label within page (first ++ second) = label within page first ++
      label (lastSection within first) (lastPage page first) second := by
  induction first generalizing within page with
  | nil => rfl
  | cons line first induction =>
      simp only [List.cons_append, label, lastSection, lastPage]
      cases Mark.read line with
      | page number => exact induction within number
      | heading title => exact induction _ page
      | body => simp only [induction within page, List.cons_append]

theorem section_le_lastSection (within : Section) (rest : List Text) :
    within.number ≤ (lastSection within rest).number := by
  induction rest generalizing within with
  | nil => exact Nat.le_refl _
  | cons text rest induction =>
      unfold lastSection
      cases Mark.read text with
      | heading title => exact Nat.le_trans (Nat.le_succ _) (induction ⟨within.number + 1, title⟩)
      | page | body => exact induction within

theorem section_le_last {within : Section} {page : Nat} {rest : List Text} {line : BodyLine}
    (member : line ∈ label within page rest) :
    line.within.number ≤ (lastSection within rest).number := by
  induction rest generalizing within page with
  | nil => contradiction
  | cons text rest induction =>
      unfold label at member
      unfold lastSection
      cases read : Mark.read text with
      | page number => exact induction (by simpa [read] using member)
      | heading title => exact induction (by simpa [read] using member)
      | body =>
          simp only [read] at member ⊢
          rcases List.mem_cons.mp member with rfl | later
          · exact section_le_lastSection within rest
          · exact induction later

theorem section_lt_of_opens {within : Section} {page : Nat} {rest : List Text}
    (opens : Opens rest) {line : BodyLine} (member : line ∈ label within page rest) :
    within.number < line.within.number := by
  induction rest generalizing page with
  | nil => contradiction
  | cons text rest induction =>
      unfold label at member
      unfold Opens at opens
      cases read : Mark.read text with
      | page number => exact induction (by simpa [read] using opens) (by simpa [read] using member)
      | heading title =>
          have later := section_le_of_mem_label (by simpa [read] using member)
          exact later
      | body => simp [read] at opens

/-! Sections under other numbers. -/

/-- The line with the number of its section moved up. -/
def BodyLine.shift (offset : Nat) (line : BodyLine) : BodyLine :=
  { line with within := ⟨line.within.number + offset, line.within.title⟩ }

theorem label_shift (offset : Nat) (within : Section) (page : Nat) (rest : List Text) :
    label ⟨within.number + offset, within.title⟩ page rest =
      (label within page rest).map (·.shift offset) := by
  induction rest generalizing within page with
  | nil => rfl
  | cons text rest induction =>
      simp only [label]
      cases Mark.read text with
      | page number => exact induction within number
      | heading title =>
          have later := induction ⟨within.number + 1, title⟩ page
          rwa [Nat.add_right_comm] at later
      | body => rw [List.map_cons, ← induction within page]; rfl

theorem label_of_opens {number page : Nat} {rest : List Text} (opens : Opens rest)
    (title other : Text) : label ⟨number, title⟩ page rest = label ⟨number, other⟩ page rest := by
  induction rest generalizing page with
  | nil => rfl
  | cons text rest induction =>
      unfold Opens at opens
      unfold label
      cases read : Mark.read text with
      | page number => exact induction (by simpa [read] using opens)
      | heading title => rfl
      | body => simp [read] at opens

theorem contentOf_shift (offset : Nat) (block : List BodyLine) :
    contentOf (block.map (·.shift offset)) = contentOf block := by
  simp [contentOf, Function.comp_def, BodyLine.shift]

theorem fits_shift (offset : Nat) (block : List BodyLine) (line : BodyLine) :
    Fits (block.map (·.shift offset)) (line.shift offset) ↔ Fits block line := by
  unfold Fits
  rw [contentOf_shift]
  cases block with
  | nil => simp
  | cons first block =>
      obtain ⟨⟨number, title⟩, page, text⟩ := first
      obtain ⟨⟨other, heading⟩, on, body⟩ := line
      simp [BodyLine.shift]

theorem chunkOf_shift (offset : Nat) (block : List BodyLine) :
    chunkOf (block.map (·.shift offset)) = chunkOf block := by
  cases block with
  | nil => rfl
  | cons first block =>
      have content := contentOf_shift offset (first :: block)
      rw [List.map_cons] at content ⊢
      rw [chunkOf, chunkOf, content]
      rfl

/-! The chunks of the parts. -/

theorem parseUsize_le {text : Text} {number : Nat} (parsed : parseUsize text = some number) :
    number ≤ usizeMax := by
  unfold parseUsize at parsed
  split at parsed
  · contradiction
  next nonempty =>
      generalize (stripPrefix ['+'] text).getD text = digits at nonempty parsed
      rcases List.eq_nil_or_concat digits with rfl | ⟨front, last, rfl⟩
      · exact (nonempty rfl).elim
      · rw [List.concat_eq_append, List.foldl_append, List.foldl_cons, List.foldl_nil] at parsed
        simp only [pushDigit, Option.bind_eq_bind, Option.bind_eq_some_iff] at parsed
        obtain ⟨_, _, _, _, bounded⟩ := parsed
        split at bounded
        · obtain rfl := Option.some.inj bounded
          assumption
        · contradiction

theorem page_le_of_read {line : Text} {number : Nat} (read : Mark.read line = .page number) :
    number ≤ usizeMax := by
  unfold Mark.read at read
  cases parsed : parsePageMarker line with
  | none =>
      rw [parsed] at read
      dsimp only at read
      split at read <;> contradiction
  | some found =>
      obtain rfl : found = number := by simpa [parsed] using read
      simp only [parsePageMarker, Option.bind_eq_bind, Option.bind_eq_some_iff] at parsed
      obtain ⟨_, _, _, _, _, _, parsed⟩ := parsed
      exact parseUsize_le parsed

theorem lastPage_le {page : Nat} (bound : page ≤ usizeMax) (rest : List Text) :
    lastPage page rest ≤ usizeMax := by
  induction rest generalizing page with
  | nil => exact bound
  | cons line rest induction =>
      unfold lastPage
      cases read : Mark.read line with
      | page number => exact induction (page_le_of_read read)
      | heading | body => exact induction bound

def pageAfter (transcript : Text) : Nat := lastPage 1 (trimmed (lines transcript))

theorem pageAfter_le (transcript : Text) : pageAfter transcript ≤ usizeMax :=
  lastPage_le (by decide) _

def OpensSection (transcript : Text) : Prop := Opens (trimmed (lines transcript))

def onPage (page : Nat) (transcript : Text) : Text :=
  Document.marker page ++ '\n' :: transcript

theorem bodyLines_onPage {page : Nat} (bound : page ≤ usizeMax) (transcript : Text) :
    bodyLines (onPage page transcript) = label ⟨0, []⟩ page (trimmed (lines transcript)) := by
  have printable := Document.printable_marker page
  have one : trimmed (lines (Document.marker page)) = [Document.marker page] := by
    rw [lines, ← trimmed_linesFrom_newline, linesFrom_single printable.whole]
    simp [trimmed, printable.trim_stripReturn, Document.marker_ne_nil]
  rw [bodyLines, onPage, trimmed_lines_append, one, List.singleton_append, label,
    Document.read_marker bound]

/-- A transcript that goes on with a heading is chunked in two parts, the second from the page
on that the first ends on. -/
theorem split_append {first second : Text} (opens : OpensSection second) :
    split (first ++ '\n' :: second) =
      split first ++ split (onPage (pageAfter first) second) := by
  let front := trimmed (lines first)
  let back := trimmed (lines second)
  let within := lastSection ⟨0, []⟩ front
  have apart : ∀ held : List BodyLine, (∀ item ∈ held, item ∈ [] ++ bodyLines first) →
      ∀ other ∈ (label within (pageAfter first) back).head?, ¬ Fits held other := by
    intro held inside other isNext fits
    obtain ⟨line, isFirst, same⟩ := Option.map_eq_some_iff.mp fits.1
    have earlier := section_le_last (inside line (List.mem_of_mem_head? isFirst))
    have later := section_lt_of_opens opens (List.mem_of_mem_head? isNext)
    rw [same] at earlier
    exact absurd (Nat.lt_of_le_of_lt earlier later) (Nat.lt_irrefl _)
  have renumbered : label within (pageAfter first) back =
      (label ⟨0, []⟩ (pageAfter first) back).map (·.shift within.number) := by
    rw [← label_shift, Nat.zero_add]
    exact label_of_opens opens within.title []
  have moved := cut_map (fits_shift within.number) [] (label ⟨0, []⟩ (pageAfter first) back)
  rw [split_eq, split_eq, split_eq, blocks, blocks, blocks,
    bodyLines_onPage (pageAfter_le first) second]
  rw [bodyLines, trimmed_lines_append, label_append]
  change (cut Fits [] (bodyLines first ++ label within (pageAfter first) back)).map chunkOf = _
  rw [cut_append apart, List.map_append, renumbered]
  rw [List.map_nil] at moved
  rw [moved, List.map_map]
  simp only [Function.comp_def, chunkOf_shift]
  rfl

/-! Lines without their pages. -/

/-- The line as it is cut, whatever page it is on. -/
def BodyLine.unpaged (line : BodyLine) : Section × Text := (line.within, line.text)

theorem label_unpaged (within : Section) (page other : Nat) (rest : List Text) :
    (label within page rest).map (·.unpaged) = (label within other rest).map (·.unpaged) := by
  induction rest generalizing within page other with
  | nil => rfl
  | cons text rest induction =>
      simp only [label]
      cases Mark.read text with
      | page number => rfl
      | heading title => exact induction _ page other
      | body => rw [List.map_cons, List.map_cons, induction within page other]; rfl

def FitsUnpaged (block : List (Section × Text)) (line : Section × Text) : Prop :=
  block.head?.map (·.1) = some line.1 ∧
    (joinLines (block.map (·.2))).length + 1 + line.2.length ≤ maxChunkChars

instance (block : List (Section × Text)) (line : Section × Text) :
    Decidable (FitsUnpaged block line) := by
  unfold FitsUnpaged
  infer_instance

theorem fits_unpaged (block : List BodyLine) (line : BodyLine) :
    FitsUnpaged (block.map (·.unpaged)) line.unpaged ↔ Fits block line := by
  unfold FitsUnpaged Fits contentOf
  cases block <;> simp [BodyLine.unpaged, Function.comp_def]

/-- What a chunk says, wherever in the source it is from. -/
def passage (chunk : Chunk) : Text × Text := (chunk.heading, chunk.content)

def passageOf (block : List (Section × Text)) : Text × Text :=
  ((block.head?.map (·.1.title)).getD [], joinLines (block.map (·.2)))

theorem passage_chunkOf (block : List BodyLine) :
    (chunkOf block).passage = passageOf (block.map (·.unpaged)) := by
  cases block with
  | nil => rfl
  | cons first block =>
      simp [chunkOf, passage, passageOf, contentOf, BodyLine.unpaged, Function.comp_def]

theorem passages_onPage {page other : Nat} (bound : page ≤ usizeMax) (small : other ≤ usizeMax)
    (transcript : Text) :
    (split (onPage page transcript)).map (·.passage) =
      (split (onPage other transcript)).map (·.passage) := by
  have passages : ∀ page, page ≤ usizeMax →
      (split (onPage page transcript)).map (·.passage) =
        (cut FitsUnpaged [] ((label ⟨0, []⟩ page (trimmed (lines transcript))).map
          (·.unpaged))).map passageOf := by
    intro page bound
    have moved := cut_map fits_unpaged [] (label ⟨0, []⟩ page (trimmed (lines transcript)))
    rw [List.map_nil] at moved
    rw [moved, split_eq, blocks, bodyLines_onPage bound, List.map_map, List.map_map]
    exact List.map_congr_left fun block _ => passage_chunkOf block
  rw [passages page bound, passages other small, label_unpaged]

/-- A transcript with one of its sections, or a few of them, under review. -/
def around (before middle after : Text) : Text := before ++ '\n' :: middle ++ '\n' :: after

theorem split_around (before : Text) {middle after : Text} (opens : OpensSection middle)
    (follows : OpensSection after) :
    split (around before middle after) =
      split before ++ split (onPage (pageAfter before) middle) ++
        split (onPage (pageAfter (before ++ '\n' :: middle)) after) := by
  rw [around, split_append follows, split_append opens]

/-- An edit of whole sections leaves the chunks before them as they are, and those after them up
to their pages: these stay as well when the edit ends on the page it ended on before. -/
theorem edit_is_local (before : Text) {middle edited after : Text} (opens : OpensSection middle)
    (still : OpensSection edited) (follows : OpensSection after) :
    ∃ back moved : List Chunk,
      split (around before middle after) =
        split before ++ split (onPage (pageAfter before) middle) ++ back ∧
      split (around before edited after) =
        split before ++ split (onPage (pageAfter before) edited) ++ moved ∧
      moved.map (·.passage) = back.map (·.passage) ∧
      (pageAfter (before ++ '\n' :: edited) = pageAfter (before ++ '\n' :: middle) →
        moved = back) := by
  refine ⟨_, _, split_around before opens follows, split_around before still follows, ?_, ?_⟩
  · exact passages_onPage (pageAfter_le _) (pageAfter_le _) after
  · intro same
    rw [same]

theorem edit_is_local_over_page :
    ∃ back moved : List Chunk,
      split (around "## Setup\nDraw five cards.".toList "## Turn\nPlay a card.".toList
        "## Score\nCount.".toList) = split "## Setup\nDraw five cards.".toList ++
          split (onPage (pageAfter "## Setup\nDraw five cards.".toList)
            "## Turn\nPlay a card.".toList) ++ back ∧
      split (around "## Setup\nDraw five cards.".toList
        "## Turn\nPlay two.\n<!-- page 2 -->\n## End\nDiscard.".toList
        "## Score\nCount.".toList) = split "## Setup\nDraw five cards.".toList ++
          split (onPage (pageAfter "## Setup\nDraw five cards.".toList)
            "## Turn\nPlay two.\n<!-- page 2 -->\n## End\nDiscard.".toList) ++ moved ∧
      moved.map (·.passage) = back.map (·.passage) ∧
      (pageAfter ("## Setup\nDraw five cards.".toList ++ '\n' ::
          "## Turn\nPlay two.\n<!-- page 2 -->\n## End\nDiscard.".toList) =
        pageAfter ("## Setup\nDraw five cards.".toList ++ '\n' ::
          "## Turn\nPlay a card.".toList) → moved = back) :=
  edit_is_local _ trivial trivial trivial

end Zyndeck.Chunk
