import Mathlib.Data.List.Sort
import Zyndeck.Core.Str
import Zyndeck.Data.Tally

namespace Zyndeck.Document

open Data Str

/-! Structuring the raw segments of a document into classified lines. -/

/-- The Unicode properties of characters, by the tables of the standard library. -/
class Unicode where
  isAlphabetic : Char → Bool
  isNumeric : Char → Bool
  isUppercase : Char → Bool
  isLowercase : Char → Bool

structure RawSegment where
  text : Text
  left : F32
  right : F32
  top : F32
  bottom : F32
  font : Text
  deriving DecidableEq, Repr

def RawSegment.height (segment : RawSegment) : Float32 :=
  segment.top.value - segment.bottom.value

def lineBaselineTolerance : Float32 := 0.6
def minHeadingLetters : Nat := 3
def maxHeadingChars : Nat := 48
def headingUppercaseRatio : Float32 := 0.8
def iconCharRatio : Float32 := 0.6
def garbleSymbolRatio : Float32 := 0.30

inductive LineKind where
  | heading
  | body
  | icons
  deriving DecidableEq, Repr

structure Line where
  page : Nat
  kind : LineKind
  text : Text
  deriving DecidableEq, Repr

structure QualityReport where
  kept : Nat
  droppedGarbled : Nat
  deriving DecidableEq, Repr

structure ExtractedDocument where
  lines : List Line
  report : QualityReport
  deriving DecidableEq, Repr

/-- Render one line after what is rendered so far, with the page it is on. -/
def renderLine (state : Text × Nat) (line : Line) : Text × Nat :=
  let out :=
    if line.page ≠ state.2 then
      state.1 ++ "\n<!-- page ".toList ++ Nat.toDigits 10 line.page ++ " -->\n".toList
    else state.1
  match line.kind with
  | .heading => (out ++ "\n## ".toList ++ line.text ++ "\n\n".toList, line.page)
  | .body | .icons => (out ++ line.text ++ ['\n'], line.page)

def ExtractedDocument.toMarkdown (document : ExtractedDocument) : Text :=
  (document.lines.foldl renderLine ([], 0)).1

/-- Whether a character lives in a Private Use Area. -/
def isIconGlyph (char : Char) : Bool := '\uE000' ≤ char && char ≤ '\uF8FF'

def splitOnce (char : Char) (text : Text) : Option (Text × Text) :=
  match text.findIdx? (· == char) with
  | some index => some (text.take index, text.drop (index + 1))
  | none => none

/-- The family of a font name, without its subset tag and its style. -/
def fontFamily (font : Text) : Text :=
  let untagged :=
    match splitOnce '+' font with
    | some (tag, rest) =>
        if tag.length = 6 && tag.all fun char => 'A' ≤ char && char ≤ 'Z' then rest else font
    | none => font
  match splitOnce '-' untagged with
  | some (family, _) => family
  | none => untagged

/-- The number of characters of each font family that are no icons. -/
def charsPerFamily (segments : List RawSegment) : List (Text × Nat) :=
  segments.foldl (fun counts segment =>
    let family := fontFamily segment.font
    if family = [] then counts
    else addTo family (segment.text.countP fun char => !isIconGlyph char) counts) []

/-- The family of the body text. -/
def dominantBodyFamily (order : HashOrder Text) (pages : List (List RawSegment)) : Text :=
  match maxByCount (order.iterate (charsPerFamily pages.flatten)) with
  | some (family, _) => family
  | none => []

def dominantFamily (order : HashOrder Text) (group : List RawSegment) : Option Text :=
  (maxByCount (order.iterate (charsPerFamily group))).map (·.1)

/-- Whether the baselines of adjacent segments are within tolerance. -/
def sameLine (prev curr : RawSegment) : Bool :=
  !decide ((curr.bottom.value - prev.bottom.value).abs >
    F32.max prev.height curr.height * lineBaselineTolerance)

def breakAt (page : List RawSegment) (state : List (List RawSegment) × Nat) (i : Nat) :
    List (List RawSegment) × Nat :=
  match page[i - 1]?, page[i]? with
  | some prev, some curr =>
      if sameLine prev curr then state else (state.1 ++ [page.extract state.2 i], i)
  | _, _ => state

def groupIntoLines (page : List RawSegment) : List (List RawSegment) :=
  let state := (List.range' 1 (page.length - 1)).foldl (breakAt page) ([], 0)
  if state.2 < page.length then state.1 ++ [page.drop state.2] else state.1

/-- The text up to the first line break. -/
def cleanSegmentText (text : Text) : Text :=
  match text.findIdx? fun char => char == '\r' || char == '\n' with
  | some cut => text.take cut
  | none => text

def splitWhitespace (text : Text) : List Text :=
  (text.splitOnP isWhitespace).filter fun word => decide (word ≠ [])

def normalizeWhitespace (text : Text) : Text := [' '].intercalate (splitWhitespace text)

/-- The segments of a line by their left edges; ties keep their order. -/
def sortByLeft (group : List RawSegment) : List RawSegment :=
  group.insertionSort fun first second => first.left.totalKey ≤ second.left.totalKey

def assembleText (group : List RawSegment) : Text :=
  normalizeWhitespace ((sortByLeft group).flatMap fun segment => cleanSegmentText segment.text)

def chars (group : List RawSegment) : Text := group.flatMap (·.text)

section

variable [Unicode]

def isMostlyUppercase (group : List RawSegment) : Bool :=
  let upper := (chars group).countP Unicode.isUppercase
  let cased := (chars group).countP fun char =>
    Unicode.isUppercase char || Unicode.isLowercase char
  decide (0 < cased) && decide (Float32.ofNat upper / Float32.ofNat cased ≥ headingUppercaseRatio)

def classify (order : HashOrder Text) (group : List RawSegment) (bodyFamily : Text) : LineKind :=
  let nonSpace := (chars group).countP fun char => !isWhitespace char
  let icons := (chars group).countP fun char => !isWhitespace char && isIconGlyph char
  if nonSpace = 0 then .body
  else if Float32.ofNat icons / Float32.ofNat nonSpace ≥ iconCharRatio then .icons
  else
    let distinct :=
      match dominantFamily order group with
      | some family => decide (family ≠ bodyFamily)
      | none => false
    let letters := (chars group).countP Unicode.isAlphabetic
    if distinct && decide (minHeadingLetters ≤ letters) &&
        decide ((chars group).length ≤ maxHeadingChars) && isMostlyUppercase group then .heading
    else .body

def isPlausibleTextChar (char : Char) : Bool :=
  Unicode.isAlphabetic char || Unicode.isNumeric char ||
    ".,;:!?'\"()[]-–—…“”‘’/&%+=°#*@".toList.contains char

/-- Whether a character is sure to come from a broken font. -/
def isBroken (char : Char) : Bool :=
  char.toNat < 32 || (127 ≤ char.toNat && char.toNat ≤ 0x9F) || char == '\uFFFD'

def isGarbled (text : Text) : Bool :=
  let visible := text.filter fun char => !isWhitespace char
  visible.any isBroken ||
    (decide (0 < visible.length) &&
      decide (Float32.ofNat (visible.countP fun char => !isPlausibleTextChar char) /
        Float32.ofNat visible.length > garbleSymbolRatio))

/-- The iteration orders of the maps: that of the document, and that of each
line, by its page and its place there. -/
structure HashOrders where
  body : HashOrder Text
  line : Nat → Nat → HashOrder Text

def structureLine (order : HashOrder Text) (bodyFamily : Text) (page : Nat)
    (document : ExtractedDocument) (group : List RawSegment) : ExtractedDocument :=
  let text := assembleText group
  if text = [] then document
  else
    let kind := classify order group bodyFamily
    if kind ≠ .icons && isGarbled text then
      { document with
        report := { document.report with droppedGarbled := document.report.droppedGarbled + 1 } }
    else
      { lines := document.lines ++ [⟨page, kind, text⟩]
        report := { document.report with kept := document.report.kept + 1 } }

/-- The function `structure` of the module. -/
def structurePages (orders : HashOrders) (pages : List (List RawSegment)) : ExtractedDocument :=
  let bodyFamily := dominantBodyFamily orders.body pages
  pages.zipIdx.foldl (fun document page =>
    (groupIntoLines page.1).zipIdx.foldl (fun document group =>
      structureLine (orders.line page.2 group.2) bodyFamily (page.2 + 1) document group.1)
      document) ⟨[], ⟨0, 0⟩⟩

end

section

/-- The tables on the ASCII characters. -/
local instance ascii : Unicode := ⟨Char.isAlpha, Char.isDigit, Char.isUpper, Char.isLower⟩

def segment (text : String) (left bottom : Nat) (font : String) : RawSegment :=
  let points (number : Nat) : F32 := ⟨(Float32.ofNat number).toBits.toBitVec⟩
  ⟨text.toList, points left, points (left + 10), points (bottom + 9), points bottom, font.toList⟩

def inOrder : HashOrder Text := ⟨id, fun _ => .refl _⟩

def inReverse : HashOrder Text := ⟨List.reverse, List.reverse_perm⟩

example :
    structurePages ⟨inOrder, fun _ _ => inOrder⟩
      [[segment "to 4 players" 90 688 "Avenir-Book", segment "2 " 70 688 "Avenir-Bold",
        segment "SETUP" 70 650 "AMVWYI+Exo-Bold"]] =
      ⟨[⟨1, .body, "2 to 4 players".toList⟩, ⟨1, .heading, "SETUP".toList⟩], ⟨2, 0⟩⟩ := by
  decide +kernel

end

end Zyndeck.Document
