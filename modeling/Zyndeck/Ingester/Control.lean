import Zyndeck.Db.Schema
import Zyndeck.Ingester.Markdown

namespace Zyndeck.Document

open Data Str

/-! The characters of a transcript that are no text. -/

def isControl (char : Char) : Bool :=
  char.toNat < 32 || (0x80 ≤ char.toNat && char.toNat ≤ 0x9F)

def isReplacement (char : Char) : Bool := char == '\uFFFD'

/-- A character that a font without a usable mapping yields. -/
def isNoise (char : Char) : Bool := isControl char || isReplacement char

theorem isBroken_of_isNoise {char : Char} (noise : isNoise char = true) :
    isBroken char = true := by
  simp only [isNoise, isControl, isReplacement, isBroken, Bool.or_eq_true, Bool.and_eq_true,
    decide_eq_true_eq] at noise ⊢
  rcases noise with (low | high) | replacement
  · exact .inl (.inl low)
  · exact .inl (.inr ⟨by omega, high.2⟩)
  · exact .inr replacement

theorem isNoise_of_isDigit {char : Char} (digit : char.isDigit = true) :
    isNoise char = false := by
  have bounds : 48 ≤ char.toNat ∧ char.toNat ≤ 57 := by
    simpa [Char.isDigit, UInt32.le_iff_toNat_le] using digit
  have other : char ≠ '\uFFFD' := by
    rintro rfl
    exact absurd bounds.2 (by decide)
  simp only [isNoise, isControl, isReplacement, Bool.or_eq_false_iff, Bool.and_eq_false_iff,
    decide_eq_false_iff_not, beq_eq_false_iff_ne]
  exact ⟨⟨by omega, .inl (by omega)⟩, other⟩

/-! The text of a line. -/

theorem isNoise_assembleText {group : List RawSegment} {char : Char}
    (member : char ∈ assembleText group) (noise : isNoise char = true) :
    isWhitespace char = false := by
  cases white : isWhitespace char with
  | false => rfl
  | true =>
      have space := eq_space_of_mem_normalizeWhitespace member white
      rw [space] at noise
      contradiction

section

variable [Unicode]

theorem isGarbled_of_noise {group : List RawSegment} {char : Char}
    (member : char ∈ assembleText group) (noise : isNoise char = true) :
    isGarbled (assembleText group) = true := by
  have dark := isNoise_assembleText member noise
  have shown : char ∈ (assembleText group).filter fun char => !isWhitespace char :=
    List.mem_filter.mpr ⟨member, by rw [dark]; rfl⟩
  have broken := List.any_eq_true.mpr ⟨char, shown, isBroken_of_isNoise noise⟩
  simp only [isGarbled, broken, Bool.true_or]

theorem noise_of_structurePages {orders : HashOrders} {pages : List (List RawSegment)}
    {line : Line} (member : line ∈ (structurePages orders pages).lines) {char : Char}
    (inside : char ∈ line.text) (noise : isNoise char = true) :
    line.kind = .icons ∧ isWhitespace char = false := by
  rw [structurePages_lines] at member
  have ⟨spot, kept, same⟩ := List.mem_map.mp member
  subst same
  have passed := (List.mem_filter.mp kept).2
  have garbled : isGarbled spot.text = true := isGarbled_of_noise inside noise
  refine ⟨?_, isNoise_assembleText inside noise⟩
  rw [Spot.isKept, garbled, Bool.not_true, Bool.or_false] at passed
  exact of_decide_eq_true passed

end

/-! The transcript around the lines. -/

theorem isNoise_of_all {text : Text} (all : (text.all fun char => !isNoise char) = true)
    {char : Char} (member : char ∈ text) : isNoise char = false := by
  simpa using List.all_eq_true.mp all char member

theorem isNoise_of_marker {page : Nat} {char : Char} (member : char ∈ marker page) :
    isNoise char = false := by
  have opening : ("<!-- page ".toList.all fun char => !isNoise char) = true := by decide
  have ending : (" -->".toList.all fun char => !isNoise char) = true := by decide
  rcases List.mem_append.mp member with before | after
  · rcases List.mem_append.mp before with opened | digit
    · exact isNoise_of_all opening opened
    · exact isNoise_of_isDigit (isDigit_of_mem digit)
  · exact isNoise_of_all ending after

theorem noise_of_lineUnits {line : Line} {unit : Text} (member : unit ∈ lineUnits line)
    {char : Char} (inside : char ∈ unit) (noise : isNoise char = true) : char ∈ line.text := by
  have hashes : ("## ".toList.all fun char => !isNoise char) = true := by decide
  unfold lineUnits at member
  split at member
  · have among : char ∈ "## ".toList ++ line.text := by
      rcases List.mem_cons.mp member with rfl | member
      · cases inside
      · rcases List.mem_pair.mp member with rfl | rfl
        · exact inside
        · cases inside
    rcases List.mem_append.mp among with opened | ofText
    · rw [isNoise_of_all hashes opened] at noise
      contradiction
    · exact ofText
  · exact List.mem_singleton.mp member ▸ inside
  · exact List.mem_singleton.mp member ▸ inside

theorem noise_of_units {lines : List Line} {page : Nat} {unit : Text}
    (member : unit ∈ units page lines) {char : Char} (inside : char ∈ unit)
    (noise : isNoise char = true) : ∃ line ∈ lines, char ∈ line.text := by
  induction lines generalizing page with
  | nil => cases member
  | cons line rest induction =>
      rw [units, List.mem_append, List.mem_append] at member
      rcases member with (ofPage | ofLine) | later
      · unfold pageUnits at ofPage
        split at ofPage
        · rcases List.mem_pair.mp ofPage with rfl | rfl
          · cases inside
          · rw [isNoise_of_marker inside] at noise
            contradiction
        · cases ofPage
      · exact ⟨line, .head _, noise_of_lineUnits ofLine inside noise⟩
      · obtain ⟨other, among, found⟩ := induction later
        exact ⟨other, .tail _ among, found⟩

theorem mem_toMarkdown {document : ExtractedDocument} {char : Char} :
    char ∈ document.toMarkdown ↔ ∃ unit ∈ units 0 document.lines, char ∈ unit ++ ['\n'] := by
  rw [ExtractedDocument.toMarkdown, foldl_renderLine, List.nil_append, List.mem_flatMap]

theorem noise_of_toMarkdown {document : ExtractedDocument} {char : Char}
    (member : char ∈ document.toMarkdown) (noise : isNoise char = true) :
    char = '\n' ∨ ∃ line ∈ document.lines, char ∈ line.text := by
  have ⟨unit, ofUnits, inside⟩ := mem_toMarkdown.mp member
  rcases List.mem_append.mp inside with inside | newline
  · exact .inr (noise_of_units ofUnits inside noise)
  · exact .inl (List.mem_singleton.mp newline)

theorem mem_units_of_line {lines : List Line} {line : Line} (member : line ∈ lines)
    {char : Char} (inside : char ∈ line.text) (page : Nat) :
    ∃ unit ∈ units page lines, char ∈ unit := by
  induction lines generalizing page with
  | nil => cases member
  | cons first rest induction =>
      cases member with
      | head =>
          have own : ∃ unit ∈ lineUnits line, char ∈ unit := by
            unfold lineUnits
            split
            · exact ⟨_, .tail _ (.head _), List.mem_append_right _ inside⟩
            · exact ⟨_, .head _, inside⟩
            · exact ⟨_, .head _, inside⟩
          have ⟨unit, ofLine, found⟩ := own
          exact ⟨unit, List.mem_append_left _ (List.mem_append_right _ ofLine), found⟩
      | tail _ later =>
          have ⟨unit, ofRest, found⟩ := induction later first.page
          exact ⟨unit, List.mem_append_right _ ofRest, found⟩

theorem storable_toMarkdown (document : ExtractedDocument) :
    storable document.toMarkdown = true ↔ ∀ line ∈ document.lines, '\x00' ∉ line.text := by
  have stored : storable document.toMarkdown = true ↔ '\x00' ∉ document.toMarkdown := by
    simp [storable]
  rw [stored]
  constructor
  · intro absent line member inside
    have ⟨unit, ofUnits, found⟩ := mem_units_of_line member inside 0
    exact absent (mem_toMarkdown.mpr ⟨unit, ofUnits, List.mem_append_left _ found⟩)
  · intro absent member
    rcases noise_of_toMarkdown member (by decide) with newline | ⟨line, among, inside⟩
    · contradiction
    · exact absent line among inside

section

variable [Unicode]

/-- Only an icons line, which is not checked for garbling, brings a control character
or a replacement character into the transcript. -/
theorem noise_only_in_icons (orders : HashOrders) (pages : List (List RawSegment)) :
    let document := structurePages orders pages
    (∀ line ∈ document.lines, line.kind ≠ .icons →
        ∀ char ∈ line.text, isControl char = false ∧ isReplacement char = false) ∧
      (∀ line ∈ document.lines, Spaced line.text ∧
        ∀ char ∈ line.text, isWhitespace char = true → char = ' ') ∧
      (∀ char ∈ document.toMarkdown, isControl char = true ∨ isReplacement char = true →
        char = '\n' ∨ ∃ line ∈ document.lines, line.kind = .icons ∧ char ∈ line.text) ∧
      (storable document.toMarkdown = true ↔
        ∀ line ∈ document.lines, line.kind = .icons → '\x00' ∉ line.text) := by
  intro document
  refine ⟨fun line member plain char inside => ?_, fun line member => ?_,
    fun char member noise => ?_, ?_⟩
  · have quiet : isNoise char = false := by
      refine Bool.eq_false_iff.mpr fun noise => plain ?_
      exact (noise_of_structurePages member inside noise).1
    exact Bool.or_eq_false_iff.mp quiet
  · rw [structurePages_lines] at member
    have ⟨spot, _, same⟩ := List.mem_map.mp member
    subst same
    exact ⟨spaced_normalizeWhitespace _,
      fun _ inside white => eq_space_of_mem_normalizeWhitespace inside white⟩
  · have noise : isNoise char = true := Bool.or_eq_true_iff.mpr noise
    rcases noise_of_toMarkdown member noise with newline | ⟨line, among, inside⟩
    · exact .inl newline
    · exact .inr ⟨line, among, (noise_of_structurePages among inside noise).1, inside⟩
  · rw [storable_toMarkdown]
    refine ⟨fun absent line member _ => absent line member, fun absent line member inside => ?_⟩
    have icons := (noise_of_structurePages member inside (by decide)).1
    exact absent line member icons inside

end

section

attribute [local instance] ascii

def tokens : List (List RawSegment) :=
  [[{ segment "" 70 700 "GameIcons" with text := ['\uE000', '\uE001', '\x00'] }]]

/-- The line is one of icons, and its transcript cannot be stored. -/
theorem noise_in_icons :
    let document := structurePages ⟨inOrder, fun _ _ => inOrder⟩ tokens
    document.lines = [⟨1, .icons, ['\uE000', '\uE001', '\x00']⟩] ∧
      storable document.toMarkdown = false ∧
      ¬ ∀ (orders : HashOrders) (pages : List (List RawSegment)),
        ∀ line ∈ (structurePages orders pages).lines, ∀ char ∈ line.text,
          isControl char = false ∧ isReplacement char = false := by
  have lines : (structurePages ⟨inOrder, fun _ _ => inOrder⟩ tokens).lines =
      [⟨1, .icons, ['\uE000', '\uE001', '\x00']⟩] := by
    decide +kernel
  refine ⟨lines, by decide +kernel, fun clean => ?_⟩
  have member := clean ⟨inOrder, fun _ _ => inOrder⟩ tokens _ (lines ▸ List.mem_singleton_self _)
    '\x00' (by decide)
  exact absurd member.1 (by decide)

end

end Zyndeck.Document
